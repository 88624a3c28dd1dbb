import DeadLockDetect.Lib.Run
import DeadLockDetect.Runtime.RingStep

/-!
# One producer and one consumer

A ring with the two parties that use it.  The producer offers the payloads
`payloads 0`, `payloads 1`, … in turn, calling `reserve` again as long as it returns a
null pointer.  The consumer repeats `peek_tag`, then `skip_padding`, or `peek_payload`
and `consume_event` with the size of the payload.

## What is transcribed

* A step of either party is one access to the shared memory: a byte read or written,
  or one of the counters loaded or stored.  The number in an `Action` says which of the
  published values a load returns, so the actions range over all interleavings and
  all stale values.
* `committed` counts the calls of `commit` that have published their event; `obtained`
  are the payloads that the consumer has copied and consumed.
-/

namespace DeadLockDetect.Runtime

/-- Where the consumer stands. -/
inductive Consumer where
  /-- About to call `peek_tag`. -/
  | idle
  /-- Something is readable; about to read its tag. -/
  | readTag
  /-- `peek_tag` has returned this tag. -/
  | tagged (tag : UInt8)
  /-- Copying the payload. -/
  | peek (got : List UInt8)
deriving DecidableEq, Repr

namespace Consumer

/-- One step of the consumer, for which the next payload has `size` bytes. -/
def step (r : ThreadRing) (size i : Nat) : Consumer → Option (ThreadRing × Consumer)
  | .idle => (r.loadHead i).map fun r ↦ (r, if r.readable = 0 then .idle else .readTag)
  | .readTag => some (r, .tagged r.tagByte)
  | .tagged tag =>
      if tag = kTagSkip then some (r.skipPadding, .idle)
      else if tag = kTagEvent then some (r, .peek [])
      else some (r, .idle)
  | .peek got =>
      if got.length < size then some (r, .peek (got ++ [r.payloadByte got.length]))
      else some (r.consumeEvent (UInt64.ofNat size), .idle)

/-- The payload that a step hands over. -/
def obtains (size : Nat) : Consumer → Option (List UInt8)
  | .peek got => if got.length < size then none else some got
  | _ => none

end Consumer

/-- The producer, the consumer and the ring between them. -/
structure Spsc where
  ring : ThreadRing
  producer : Producer := .idle
  consumer : Consumer := .idle
  /-- The number of payloads committed. -/
  committed : Nat := 0
  /-- The payloads that the consumer has obtained. -/
  obtained : List (List UInt8) := []

namespace Spsc

/-- A step of one of the parties. -/
inductive Action where
  | produce (i : Nat)
  | consume (i : Nat)
deriving DecidableEq, Repr

/-- A new ring; its memory is not initialised. -/
def init (capacity : UInt64) (buf : Nat → UInt8) : Spsc := { ring := { capacity, buf } }

variable (payloads : Nat → List UInt8)

/-- One step. -/
def step (s : Spsc) : Action → Option Spsc
  | .produce i =>
      (s.producer.step s.ring (payloads s.committed) i).map fun (r, p) ↦
        { s with
          ring := r
          producer := p
          committed := if s.producer.commits then s.committed + 1 else s.committed }
  | .consume i =>
      let size := (payloads s.obtained.length).length
      (s.consumer.step s.ring size i).map fun (r, c) ↦
        { s with
          ring := r
          consumer := c
          obtained := s.obtained ++ (s.consumer.obtains size).toList }

/-- A run. -/
def exec (s : Spsc) (as : List Action) : Option Spsc := Run.run (step payloads) s as

/-- The payloads committed so far. -/
def offered (n : Nat) : List (List UInt8) := (List.range n).map payloads

end Spsc

/-- What the consumer knows; `payload` is the next one in line. -/
def Consumer.Inv (v : Virtual) (payload : List UInt8) : Consumer → Prop
  | .idle => True
  | .readTag => v.tail.latest < v.head.seen
  | .tagged tag => v.tail.latest < v.head.seen ∧ ∃ x rest, v.segs = x :: rest ∧ tag = x.tag
  | .peek got => v.tail.latest < v.head.seen ∧ (∃ rest, v.segs = .event payload :: rest) ∧
      got <+: payload

namespace Consumer

variable {r r' : ThreadRing} {v v' : Virtual} {payload : List UInt8} {c c' : Consumer} {i : Nat}

/-- The producer takes nothing away from the consumer. -/
theorem Inv.produced {new : List Seg} (hc : c.Inv v payload) (h : Produced v v' new) :
    c.Inv v' payload := by
  cases c with
  | idle => trivial
  | readTag =>
      rw [Inv, h.head_seen, h.tail_latest]
      exact hc
  | tagged tag =>
      obtain ⟨hr, x, rest, hs, ht⟩ := hc
      refine ⟨by rw [h.head_seen, h.tail_latest]; exact hr, x, rest ++ new, ?_, ht⟩
      rw [h.segs, hs]
      rfl
  | peek got =>
      obtain ⟨hr, ⟨rest, hs⟩, hg⟩ := hc
      refine ⟨by rw [h.head_seen, h.tail_latest]; exact hr, ⟨rest ++ new, ?_⟩, hg⟩
      rw [h.segs, hs]
      rfl

/-- The next byte of a payload that is being copied. -/
theorem concat_prefix {got payload : List UInt8} (h : got <+: payload) {b : UInt8}
    (hb : payload[got.length]? = some b) : got ++ [b] <+: payload := by
  obtain ⟨suf, rfl⟩ := h
  rw [List.getElem?_append_right (Nat.le_refl _), Nat.sub_self] at hb
  cases suf with
  | nil => cases hb
  | cons b' suf =>
      cases hb
      exact ⟨suf, by rw [List.append_assoc]; rfl⟩

/-- One step of the consumer: it may drop a segment, and hands over its payload. -/
theorem step_inv (h : r.Inv v) (hc : c.Inv v payload)
    (hnext : ∀ q rest, v.segs = .event q :: rest → q = payload)
    (hs : c.step r payload.length i = some (r', c')) :
    ∃ v', r'.Inv v' ∧ Consumed r r' v v' ∧ c'.Inv v' payload ∧
      events v.segs = (c.obtains payload.length).toList ++ events v'.segs ∧
      (c.obtains payload.length = none ∨ c' = .idle) := by
  cases c with
  | idle =>
      obtain ⟨r₁, hl, he⟩ := Option.map_eq_some_iff.mp hs
      cases he
      obtain ⟨d, rfl, hi, hlatest, -⟩ := h.loadHead hl
      refine ⟨{ v with head := d }, hi, ⟨rfl, rfl, rfl, hlatest, rfl⟩, ?_, rfl, Or.inl rfl⟩
      split
      · trivial
      · rename_i hne
        rw [hi.readable_eq_zero_iff] at hne
        have hle := hi.tail_le_head_seen
        show v.tail.latest < d.seen
        dsimp only at hne hle
        omega
  | readTag =>
      cases hs
      obtain ⟨x, rest, hx, -⟩ := h.exists_segs_eq_cons hc
      exact ⟨v, h, ⟨rfl, rfl, rfl, rfl, rfl⟩, ⟨hc, x, rest, hx, h.tagByte_eq hx⟩, rfl,
        Or.inl rfl⟩
  | tagged tag =>
      obtain ⟨hr, x, rest, hx, rfl⟩ := hc
      cases x with
      | skip =>
          cases hs
          refine ⟨_, h.skipPadding hx hr, ⟨rfl, rfl, rfl, rfl, rfl⟩, trivial, ?_, Or.inl rfl⟩
          rw [hx]
          rfl
      | event q =>
          cases hs
          obtain rfl := hnext q rest hx
          exact ⟨v, h, ⟨rfl, rfl, rfl, rfl, rfl⟩, ⟨hr, ⟨rest, hx⟩, List.nil_prefix⟩, rfl,
            Or.inl rfl⟩
  | peek got =>
      obtain ⟨hr, ⟨rest, hx⟩, hg⟩ := hc
      rw [step] at hs
      split at hs
      · rename_i hlt
        cases hs
        have ho : (peek got).obtains payload.length = none := if_pos hlt
        have hb := List.getElem?_eq_getElem hlt
        rw [h.payloadByte_eq hx hb]
        refine ⟨v, h, ⟨rfl, rfl, rfl, rfl, rfl⟩, ⟨hr, ⟨rest, hx⟩, concat_prefix hg hb⟩, ?_,
          Or.inl ho⟩
        rw [ho]
        rfl
      · rename_i hge
        cases hs
        have hfull : got = payload := hg.eq_of_length_le (Nat.le_of_not_lt hge)
        have ho : (peek got).obtains payload.length = some got := if_neg hge
        refine ⟨_, h.consumeEvent hx hr, ⟨rfl, rfl, rfl, rfl, rfl⟩, trivial, ?_, Or.inr rfl⟩
        rw [hx, ho, hfull]
        rfl

end Consumer

namespace Spsc

variable {payloads : Nat → List UInt8} {capacity : UInt64} {s s' : Spsc} {v : Virtual}

theorem offered_succ (n : Nat) : offered payloads (n + 1) = offered payloads n ++ [payloads n] := by
  rw [offered, List.range_succ, List.map_append, List.map_singleton, offered]

/-- The invariant of a run. -/
structure Inv (payloads : Nat → List UInt8) (capacity : UInt64) (s : Spsc) (v : Virtual) :
    Prop where
  capacity : s.ring.capacity = capacity
  ring : s.ring.Inv v
  producer : s.producer.Inv s.ring v (payloads s.committed)
  consumer : s.consumer.Inv v (payloads s.obtained.length)
  /-- Every payload committed has been obtained or is in the ring. -/
  fifo : s.obtained ++ events v.segs = offered payloads s.committed

theorem init_inv (hcap : ∃ k, capacity.toNat = 2 ^ k) (buf : Nat → UInt8) :
    Inv payloads capacity (init capacity buf) .init :=
  ⟨rfl, .new hcap buf, trivial, trivial, rfl⟩

/-- The first event in the ring is the next one in line. -/
theorem Inv.eq_of_segs_eq_cons (h : Inv payloads capacity s v) {q : List UInt8} {rest : List Seg}
    (hs : v.segs = .event q :: rest) : q = payloads s.obtained.length := by
  have hf : s.obtained ++ q :: events rest = offered payloads s.committed := by
    rw [← h.fifo, hs]
    rfl
  have hq : (offered payloads s.committed)[s.obtained.length]? = some q := by
    rw [← hf, List.getElem?_append_right (Nat.le_refl _), Nat.sub_self]
    rfl
  rw [offered, List.getElem?_map] at hq
  obtain ⟨n, hn, rfl⟩ := Option.map_eq_some_iff.mp hq
  obtain ⟨_, he⟩ := List.getElem?_eq_some_iff.mp hn
  rw [← he, List.getElem_range]

/-- One step of either party. -/
theorem Inv.step (h : Inv payloads capacity s v) (hlen : ∀ n, (payloads n).length < 2 ^ 63)
    {a : Action}
    (hs : s.step payloads a = some s') : ∃ v', Inv payloads capacity s' v' := by
  cases a with
  | produce i =>
      obtain ⟨⟨r', p'⟩, hp, rfl⟩ := Option.map_eq_some_iff.mp hs
      obtain ⟨v', new, hr, hp', hprod, hev⟩ :=
        Producer.step_inv h.ring h.producer (hlen s.committed) hp
      refine ⟨v', (Producer.capacity_step hp).trans h.capacity, hr, ?_,
        h.consumer.produced hprod, ?_⟩
      · dsimp only
        split
        · rename_i hc
          rw [Producer.eq_idle_of_commits hc hp]
          trivial
        · exact hp'
      · dsimp only
        rw [hprod.segs, events_append, ← List.append_assoc, h.fifo, hev]
        split
        · exact (offered_succ s.committed).symm
        · exact List.append_nil _
  | consume i =>
      obtain ⟨⟨r', c'⟩, hc, rfl⟩ := Option.map_eq_some_iff.mp hs
      obtain ⟨v', hr, hcons, hc', hev, ho⟩ := Consumer.step_inv h.ring h.consumer
        (fun q rest hq ↦ h.eq_of_segs_eq_cons hq) hc
      refine ⟨v', hcons.capacity.trans h.capacity, hr, ?_, ?_, ?_⟩
      · exact h.producer.consumed hcons
      · dsimp only
        rcases ho with ho | rfl
        · rw [ho]
          simpa using hc'
        · trivial
      · dsimp only
        rw [← h.fifo, hev, List.append_assoc]

/-- A whole run. -/
theorem Inv.exec (h : Inv payloads capacity s v) (hlen : ∀ n, (payloads n).length < 2 ^ 63)
    {as : List Action} (hs : s.exec payloads as = some s') : ∃ v', Inv payloads capacity s' v' := by
  refine Run.run_inv (I := fun s ↦ ∃ v, Inv payloads capacity s v) ?_ ⟨v, h⟩ hs
  rintro a - s s' ⟨v, h⟩ hs
  exact h.step hlen hs

end Spsc

/-- **The ring is an exactly-once FIFO.**  In every state of every run: what the consumer
has obtained is a prefix of what has been committed, and all of it once the ring is empty;
every tag that `peek_tag` returned is one of the two tags; the counters differ by at most
the capacity; and the producer writes inside the buffer, clear of the unread bytes. -/
theorem spsc_exactlyOnce (payloads : Nat → List UInt8) (capacity : UInt64)
    (buf : Nat → UInt8) (hcap : ∃ k, capacity.toNat = 2 ^ k)
    (hlen : ∀ n, (payloads n).length < 2 ^ 63) (as : List Spsc.Action) (s : Spsc)
    (hs : (Spsc.init capacity buf).exec payloads as = some s) :
    s.obtained <+: Spsc.offered payloads s.committed ∧
    (s.ring.head.latest = s.ring.tail.latest →
      s.obtained = Spsc.offered payloads s.committed) ∧
    (∀ tag, s.consumer = .tagged tag → tag = kTagEvent ∨ tag = kTagSkip) ∧
    (s.ring.head.latest - s.ring.tail.latest).toNat ≤ capacity.toNat ∧
    ∀ off n, s.producer.block (payloads s.committed) = some (off, n) →
      off + n ≤ capacity.toNat ∧
      ∀ d < (s.ring.head.latest - s.ring.tail.latest).toNat, ∀ e < n,
        ((s.ring.tail.latest + UInt64.ofNat d) &&& (capacity - 1)).toNat ≠ off + e := by
  obtain ⟨v, h⟩ := (Spsc.init_inv hcap buf).exec hlen hs
  have hdiff := h.ring.toNat_head_sub_tail
  refine ⟨⟨events v.segs, h.fifo⟩, fun he ↦ ?_, fun tag ht ↦ ?_, ?_, fun off n hb ↦ ?_⟩
  · -- the counters agree, so no segment is left
    rw [he, UInt64.sub_self, UInt64.toNat_zero] at hdiff
    rw [← h.fifo, eq_nil_of_span_eq_zero hdiff.symm]
    exact (List.append_nil _).symm
  · have hc := h.consumer
    rw [ht] at hc
    obtain ⟨-, x, -, -, rfl⟩ := hc
    exact x.tag_eq_or
  · have hle := h.ring.head_le
    have hend := h.ring.end_eq
    rw [h.capacity] at hle
    omega
  · have hd := Producer.block_disjoint h.ring h.producer hb
    rw [ThreadRing.mask, h.capacity] at hd
    exact hd

/-- Two events of two bytes pass through a ring of four bytes: the second starts over at the
beginning of the buffer, behind one byte of padding. -/
def twoLaps : List Spsc.Action :=
  List.replicate 7 (.produce 0) ++ (.consume 1 :: List.replicate 5 (.consume 0)) ++
    (.produce 0 :: .produce 1 :: List.replicate 9 (.produce 0)) ++
    (.consume 2 :: List.replicate 8 (.consume 0))

/-- Payloads of two bytes, the first of which counts. -/
def counted (n : Nat) : List UInt8 := [UInt8.ofNat n, 9]

theorem spsc_exactlyOnce_twoLaps :
    ∃ s, (Spsc.init 4 fun _ ↦ 0).exec counted twoLaps = some s ∧
      s.obtained = [[0, 9], [1, 9]] ∧ s.obtained <+: Spsc.offered counted s.committed := by
  refine ⟨_, rfl, rfl, ?_⟩
  refine (spsc_exactlyOnce counted 4 (fun _ ↦ 0) ⟨2, rfl⟩ (fun n ↦ ?_) twoLaps _ rfl).1
  show 2 < 2 ^ 63
  decide

end DeadLockDetect.Runtime
