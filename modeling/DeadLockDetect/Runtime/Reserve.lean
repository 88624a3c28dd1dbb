import DeadLockDetect.Runtime.Config
import DeadLockDetect.Runtime.EventBin
import DeadLockDetect.Runtime.Spsc
import Mathlib.Data.Prod.Lex

/-!
# A call of `reserve`

`log_event` calls `reserve` until it returns a block.  This module follows one such call while
the consumer goes on, and asks when the retry loop can be left.

What `reserve` asks for depends on where the producer stands: an event that does not fit in front
of the end of the buffer also takes the padding up to it (`demand`).  The greatest demand over all
positions is `2 * need - 1`, so a drained ring serves every call exactly when its capacity is not
below that (`demand_le_iff`); the sizes that `config.cpp` accepts are far above what an event
with 64 program counters needs.

## What is transcribed

Nothing: `Reserving` cuts a call out of the runs of `Spsc.step`.  The producer is `idle` again when
the call has returned a null pointer, and at `fill off 0` when it has returned a block.
-/

namespace DeadLockDetect.Runtime

/-! ## The demand of a call -/

/-- What `reserve` asks for at the position `off`: the event, and the padding in front of it. -/
def demand (cap off need : Nat) : Nat := if cap - off < need then cap - off + need else need

theorem demand_le {cap off need : Nat} (h : 2 * need - 1 ≤ cap) (hoff : off < cap) :
    demand cap off need ≤ cap := by
  unfold demand
  split <;> omega

/-- At this position the demand is above the capacity. -/
def badOffset (cap need : Nat) : Nat := if need ≤ cap then need - 1 else 0

theorem lt_demand_badOffset {cap need : Nat} (h : cap < 2 * need - 1) :
    cap < demand cap (badOffset cap need) need := by
  unfold demand badOffset
  split <;> split <;> omega

/-- A drained ring serves the demand at every position exactly from this capacity on. -/
theorem demand_le_iff {cap need : Nat} (hcap : 0 < cap) :
    (∀ off < cap, demand cap off need ≤ cap) ↔ 2 * need - 1 ≤ cap := by
  constructor
  · intro h
    by_contra hlt
    have hbad := lt_demand_badOffset (Nat.lt_of_not_le hlt)
    have hoff : badOffset cap need < cap := by
      unfold badOffset
      split <;> omega
    exact absurd (h _ hoff) (Nat.not_le.mpr hbad)
  · intro h off hoff
    exact demand_le h hoff

namespace ThreadRing

variable {r r' r₀ : ThreadRing} {v : Virtual}

/-- The bytes in use, as far as the producer can tell. -/
def used (r : ThreadRing) : Nat := (r.head.latest - r.tail.seen).toNat

/-- The position of the producer. -/
def offset (r : ThreadRing) : Nat := (r.head.latest &&& r.mask).toNat

theorem Inv.used_eq (h : r.Inv v) : r.used = v.head.latest - v.tail.seen :=
  h.toNat_head_sub_tail_seen

theorem Inv.offset_eq (h : r.Inv v) : r.offset = v.head.latest % r.capacity.toNat := by
  rw [offset, h.head_latest_eq, h.toNat_and_mask]

theorem Inv.offset_lt (h : r.Inv v) : r.offset < r.capacity.toNat := by
  rw [h.offset_eq]
  exact Nat.mod_lt _ h.capacity_pos

/-- Neither the position of the producer nor a byte of the buffer has changed. -/
structure Untouched (r₀ r : ThreadRing) : Prop where
  head : r.head.latest = r₀.head.latest
  buf : r.buf = r₀.buf

/-- What the producer sees of the ring is the same. -/
structure SameView (r r' : ThreadRing) : Prop where
  capacity : r'.capacity = r.capacity
  buf : r'.buf = r.buf
  head : r'.head.latest = r.head.latest
  tail : r'.tail.seen = r.tail.seen

namespace SameView

theorem refl (r : ThreadRing) : SameView r r := ⟨rfl, rfl, rfl, rfl⟩

theorem used (h : SameView r r') : r'.used = r.used := by
  rw [ThreadRing.used, h.head, h.tail, ThreadRing.used]

theorem offset (h : SameView r r') : r'.offset = r.offset := by
  rw [ThreadRing.offset, ThreadRing.mask, h.head, h.capacity, ThreadRing.offset, ThreadRing.mask]

theorem untouched (h : SameView r r') (hr : Untouched r₀ r) : Untouched r₀ r' :=
  ⟨h.head.trans hr.head, h.buf.trans hr.buf⟩

end SameView

end ThreadRing

/-- The consumer changes nothing that the producer sees before its next load. -/
theorem Consumer.sameView_step {c c' : Consumer} {r r' : ThreadRing} {size i : Nat}
    (hs : c.step r size i = some (r', c')) : r.SameView r' := by
  cases c with
  | idle =>
      obtain ⟨r₁, hl, he⟩ := Option.map_eq_some_iff.mp hs
      obtain ⟨d, hd, rfl⟩ := Option.map_eq_some_iff.mp hl
      cases he
      exact ⟨rfl, rfl, Cell.latest_load hd, rfl⟩
  | readTag =>
      cases hs
      exact .refl r
  | tagged tag =>
      rw [step] at hs
      split at hs
      · cases hs
        exact ⟨rfl, rfl, rfl, rfl⟩
      · split at hs
        · cases hs
          exact .refl r
        · cases hs
          exact .refl r
  | peek got =>
      rw [step] at hs
      split at hs
      · cases hs
        exact .refl r
      · cases hs
        exact ⟨rfl, rfl, rfl, rfl⟩

/-- The bytes that are not consumed yet. -/
def ThreadRing.unread (r : ThreadRing) : Nat := (r.head.latest - r.tail.latest).toNat

namespace Consumer

variable {r : ThreadRing} {v : Virtual} {payload : List UInt8} {c : Consumer}

/-- The steps that the consumer takes before it has dropped a segment. -/
def left (size : Nat) : Consumer → Nat
  | .idle => size + 3
  | .readTag => size + 2
  | .tagged _ => size + 1
  | .peek got => size - got.length

/-- While bytes are unread, the consumer can always take a step towards dropping a segment. -/
theorem exists_step (h : r.Inv v) (hc : c.Inv v payload)
    (hne : r.head.latest ≠ r.tail.latest) :
    ∃ i r' c', c.step r payload.length i = some (r', c') ∧ (r'.unread < r.unread ∨
      r'.unread = r.unread ∧ c.obtains payload.length = none ∧
        c'.left payload.length < c.left payload.length) := by
  have hunread : r.unread = span v.segs := h.toNat_head_sub_tail
  cases c with
  | idle =>
      have hload : r.loadHead r.head.unseen.length = some { r with head := r.head.sync } := by
        rw [ThreadRing.loadHead, Cell.load_unseen_length]
        rfl
      have hsome : ThreadRing.readable { r with head := r.head.sync } ≠ 0 := by
        intro (h0 : r.head.latest - r.tail.latest = 0)
        refine hne ?_
        rw [← UInt64.sub_add_cancel r.head.latest r.tail.latest, h0, UInt64.zero_add]
      refine ⟨r.head.unseen.length, { r with head := r.head.sync }, .readTag, ?_,
        Or.inr ⟨rfl, rfl, Nat.lt_succ_self _⟩⟩
      rw [step, hload, Option.map_some, if_neg hsome]
  | readTag => exact ⟨0, r, .tagged r.tagByte, rfl, Or.inr ⟨rfl, rfl, Nat.lt_succ_self _⟩⟩
  | tagged tag =>
      obtain ⟨hr, x, rest, hx, rfl⟩ := hc
      cases x with
      | skip =>
          refine ⟨0, r.skipPadding, .idle, rfl, Or.inl ?_⟩
          have hdrop : r.skipPadding.unread = span rest :=
            (h.skipPadding hx hr).toNat_head_sub_tail
          rw [hdrop, hunread, hx, span_cons, Seg.size_skip]
          omega
      | event q => exact ⟨0, r, .peek [], rfl, Or.inr ⟨rfl, rfl, Nat.lt_succ_self _⟩⟩
  | peek got =>
      obtain ⟨hr, ⟨rest, hx⟩, -⟩ := hc
      by_cases hlt : got.length < payload.length
      · refine ⟨0, r, .peek (got ++ [r.payloadByte got.length]), if_pos hlt,
          Or.inr ⟨rfl, if_pos hlt, ?_⟩⟩
        rw [left, left, List.length_append, List.length_singleton]
        omega
      · refine ⟨0, r.consumeEvent (UInt64.ofNat payload.length), .idle, if_neg hlt, Or.inl ?_⟩
        have hdrop : (r.consumeEvent (UInt64.ofNat payload.length)).unread = span rest :=
          (h.consumeEvent hx hr).toNat_head_sub_tail
        rw [hdrop, hunread, hx, span_cons, Seg.size_event]
        omega

/-- On a drained ring the consumer stores nothing. -/
theorem tail_latest_step {r' : ThreadRing} {c' : Consumer} {i : Nat} (h : r.Inv v)
    (hc : c.Inv v payload) (hd : r.head.latest = r.tail.latest)
    (hs : c.step r payload.length i = some (r', c')) : r'.tail.latest = r.tail.latest := by
  have hspan : span v.segs = 0 := by
    rw [← h.toNat_head_sub_tail, hd, UInt64.sub_self]
    rfl
  have hend := h.end_eq
  have hseen := h.head_mono.seen_le_latest
  cases c with
  | idle =>
      obtain ⟨r₁, hl, he⟩ := Option.map_eq_some_iff.mp hs
      obtain ⟨d, -, rfl⟩ := Option.map_eq_some_iff.mp hl
      cases he
      rfl
  | readTag =>
      have hlt : v.tail.latest < v.head.seen := hc
      omega
  | tagged tag =>
      have hlt := hc.1
      omega
  | peek got =>
      have hlt := hc.1
      omega

end Consumer

namespace Producer

variable {r r' r₀ : ThreadRing} {v : Virtual} {payload : List UInt8} {p p' : Producer} {i : Nat}

/-- The producer never stores `tail_`. -/
theorem tail_latest_step (hs : p.step r payload i = some (r', p')) :
    r'.tail.latest = r.tail.latest := by
  cases p with
  | loadTail c | reloadTail c =>
      obtain ⟨r₁, hl, he⟩ := Option.map_eq_some_iff.mp hs
      obtain ⟨d, hd, rfl⟩ := Option.map_eq_some_iff.mp hl
      cases he
      exact Cell.latest_load hd
  | pad c off padNeed n =>
      rw [step] at hs
      split at hs <;> cases hs <;> rfl
  | fill off n =>
      rw [step] at hs
      split at hs <;> cases hs <;> rfl
  | _ =>
      cases hs
      rfl

/-- The producer is inside `reserve`. -/
def reserving : Producer → Bool
  | .loadTail _ | .pad .. | .storePad _ | .reloadTail _ | .writeTag _ => true
  | _ => false

theorem commits_of_reserving (h : p.reserving = true) : p.commits = false := by
  cases p with
  | publish c => cases h
  | _ => rfl

/-- What a call of `reserve` that began with the ring `r₀` has done and knows. -/
def Called (r₀ r : ThreadRing) (payload : List UInt8) : Producer → Prop
  | .idle => r₀.Untouched r ∧
      r.capacity.toNat < r.used + demand r.capacity.toNat r.offset (1 + payload.length)
  | .loadTail _ => r₀.Untouched r
  | .pad .. | .storePad _ =>
      r.used + (r.capacity.toNat - r.offset + (1 + payload.length)) ≤ r.capacity.toNat
  | .reloadTail _ => r.used + (1 + payload.length) ≤ r.capacity.toNat
  | .writeTag _ => True
  | .fill _ j => j = 0
  | .publish _ => False

theorem Called.sameView (h : p.Called r₀ r payload) (hv : r.SameView r') :
    p.Called r₀ r' payload := by
  cases p with
  | idle =>
      rw [Called, hv.used, hv.offset, hv.capacity]
      exact ⟨hv.untouched h.1, h.2⟩
  | loadTail c => exact hv.untouched h
  | pad c off padNeed n | storePad c =>
      rw [Called, hv.used, hv.offset, hv.capacity]
      exact h
  | reloadTail c =>
      rw [Called, hv.used, hv.capacity]
      exact h
  | writeTag off => trivial
  | fill off j => exact h
  | publish c => exact h

/-- A call that has not given up is under way, or has returned a block. -/
theorem Called.reserving_or (h : p.Called r₀ r payload) (hne : p ≠ .idle) :
    p.reserving = true ∨ ∃ off, p = .fill off 0 := by
  cases p with
  | idle => exact absurd rfl hne
  | fill off j =>
      obtain rfl : j = 0 := h
      exact Or.inr ⟨off, rfl⟩
  | publish c => exact h.elim
  | _ => exact Or.inl rfl

/-- The tests of `reserve`, on the counters that it has loaded. -/
theorem toNat_counters (h : r.Inv v) (hlen : payload.length < 2 ^ 63) :
    (freeBytes r r.head.latest).toNat = r.capacity.toNat - r.used ∧
      (r.capacity - (r.head.latest &&& r.mask)).toNat = r.capacity.toNat - r.offset ∧
      (need payload).toNat = 1 + payload.length := by
  refine ⟨?_, ?_, toNat_need hlen⟩
  · rw [h.used_eq, h.head_latest_eq]
    exact toNat_freeBytes h
  · rw [h.offset_eq, h.head_latest_eq]
    exact toNat_toEnd h

theorem used_le (h : r.Inv v) : r.used ≤ r.capacity.toNat := by
  have hroom := h.room
  rw [h.used_eq]
  omega

/-- The last test of `reserve`. -/
theorem place_eq (h : r.Inv v) (hlen : payload.length < 2 ^ 63) (off : UInt64) :
    place r payload r.head.latest off =
      if r.capacity.toNat < r.used + (1 + payload.length) then .idle else .writeTag off := by
  obtain ⟨hfree, -, hneed⟩ := toNat_counters h hlen
  have hused := used_le h
  unfold place
  refine if_congr ?_ rfl rfl
  rw [UInt64.lt_iff_toNat_lt, hfree, hneed]
  omega

/-- **What `reserve` decides**, once it has loaded both counters: it gives up exactly when the
demand is above what is free. -/
theorem plan_eq (h : r.Inv v) (hlen : payload.length < 2 ^ 63) :
    plan r payload r.head.latest =
      if r.capacity.toNat < r.used + demand r.capacity.toNat r.offset (1 + payload.length)
      then .idle
      else if r.capacity.toNat - r.offset < 1 + payload.length then
        .pad r.head.latest (r.head.latest &&& r.mask) (r.capacity - (r.head.latest &&& r.mask)) 0
      else .writeTag (r.head.latest &&& r.mask) := by
  obtain ⟨hfree, hend, hneed⟩ := toNat_counters h hlen
  have hused := used_le h
  have hcap := h.capacity_le
  unfold plan demand
  dsimp only
  by_cases hpad : r.capacity.toNat - r.offset < 1 + payload.length
  · have htest : r.capacity - (r.head.latest &&& r.mask) < need payload := by
      rw [UInt64.lt_iff_toNat_lt, hend, hneed]
      exact hpad
    have hsum : (r.capacity - (r.head.latest &&& r.mask) + need payload).toNat =
        r.capacity.toNat - r.offset + (1 + payload.length) := by
      rw [UInt64.toNat_add, hend, hneed, Nat.mod_eq_of_lt (by omega)]
    rw [if_pos htest, if_pos hpad, if_pos hpad]
    refine if_congr ?_ rfl rfl
    rw [UInt64.lt_iff_toNat_lt, hfree, hsum]
    omega
  · have htest : ¬ r.capacity - (r.head.latest &&& r.mask) < need payload := by
      rw [UInt64.lt_iff_toNat_lt, hend, hneed]
      exact hpad
    rw [if_neg htest, if_neg hpad, if_neg hpad, place_eq h hlen]

theorem plan_called (h : r.Inv v) (hlen : payload.length < 2 ^ 63) (hr : r₀.Untouched r) :
    (plan r payload r.head.latest).Called r₀ r payload := by
  rw [plan_eq h hlen]
  split
  · rename_i hlt
    exact ⟨hr, hlt⟩
  · rename_i hle
    split
    · rename_i hpad
      rw [demand, if_pos hpad] at hle
      exact Nat.le_of_not_lt hle
    · trivial

/-- A step inside `reserve`. -/
theorem Called.step (hc : p.Called r₀ r payload) (h : r.Inv v) (hp : p.Inv r v payload)
    (hlen : payload.length < 2 ^ 63) (hres : p.reserving = true)
    (hs : p.step r payload i = some (r', p')) : p'.Called r₀ r' payload := by
  cases p with
  | idle | fill off j | publish c => cases hres
  | loadTail c =>
      obtain ⟨r₁, hl, he⟩ := Option.map_eq_some_iff.mp hs
      cases he
      obtain ⟨t, rfl, hi, -⟩ := h.loadTail hl
      obtain rfl : c = r.head.latest := hp.trans h.head_latest_eq.symm
      exact plan_called hi hlen ⟨hc.head, hc.buf⟩
  | pad c off padNeed n =>
      rw [Producer.step] at hs
      split at hs
      · cases hs
        exact hc
      · cases hs
        exact hc
  | storePad c =>
      cases hs
      obtain ⟨n, rfl, hn, hfit, -⟩ := hp
      have hroom := h.room
      have hseen := h.tail_mono.seen_le_latest
      have hend := h.end_eq
      have hcap := h.capacity_le
      rw [Called, h.used_eq, h.offset_eq] at hc
      show (UInt64.toNat _) + _ ≤ _
      have hhead : (r.storeHead (UInt64.ofNat (v.head.latest + n))).head.latest =
          UInt64.ofNat (v.head.latest + n) := Cell.latest_store _ _
      have htail : (r.storeHead (UInt64.ofNat (v.head.latest + n))).tail.seen =
          UInt64.ofNat v.tail.seen := h.tail_seen_eq
      rw [hhead, htail, toNat_ofNat_sub_ofNat (by omega) (by omega)]
      show _ ≤ r.capacity.toNat
      omega
  | reloadTail c =>
      obtain ⟨r₁, hl, he⟩ := Option.map_eq_some_iff.mp hs
      cases he
      obtain ⟨t, rfl, hi, ht, hle⟩ := h.loadTail hl
      obtain rfl : c = r.head.latest := hp.1.trans h.head_latest_eq.symm
      have hseen := hi.tail_mono.seen_le_latest
      have hused := hi.used_eq
      rw [Called, h.used_eq] at hc
      have hplace : place { r with tail := t.map UInt64.ofNat } payload r.head.latest 0 = _ :=
        place_eq hi hlen 0
      rw [hplace, if_neg]
      · trivial
      · rw [hused]
        dsimp only at hseen ht ⊢
        omega
  | writeTag off =>
      cases hs
      rfl

/-- The steps that a call of `reserve` will still take. -/
def left (r : ThreadRing) : Producer → Nat
  | .loadTail _ => r.capacity.toNat + 6
  | .pad _ _ padNeed n => padNeed.toNat - n + 5
  | .storePad _ => 4
  | .reloadTail _ => 3
  | .writeTag _ => 2
  | _ => 1

theorem left_step (h : r.Inv v) (hp : p.Inv r v payload) (hlen : payload.length < 2 ^ 63)
    (hres : p.reserving = true) (hs : p.step r payload i = some (r', p')) :
    p'.left r' < p.left r := by
  cases p with
  | idle | fill off j | publish c => cases hres
  | loadTail c =>
      obtain ⟨r₁, hl, he⟩ := Option.map_eq_some_iff.mp hs
      cases he
      obtain ⟨t, rfl, hi, -⟩ := h.loadTail hl
      obtain rfl : c = r.head.latest := hp.trans h.head_latest_eq.symm
      have hplan : plan { r with tail := t.map UInt64.ofNat } payload r.head.latest = _ :=
        plan_eq hi hlen
      have hend := (toNat_counters hi hlen).2.1
      rw [hplan]
      split
      · show 1 < r.capacity.toNat + 6
        omega
      · split
        · show UInt64.toNat _ - 0 + 5 < r.capacity.toNat + 6
          rw [hend]
          dsimp only
          omega
        · show 2 < r.capacity.toNat + 6
          omega
  | pad c off padNeed n =>
      rw [Producer.step] at hs
      split at hs
      · rename_i hn
        cases hs
        show padNeed.toNat - (n + 1) + 5 < padNeed.toNat - n + 5
        omega
      · cases hs
        show 4 < padNeed.toNat - n + 5
        omega
  | storePad c =>
      cases hs
      exact Nat.lt_succ_self 3
  | reloadTail c =>
      obtain ⟨r₁, -, he⟩ := Option.map_eq_some_iff.mp hs
      cases he
      unfold place
      split
      · show 1 < 3
        omega
      · exact Nat.lt_succ_self 2
  | writeTag off =>
      cases hs
      exact Nat.lt_succ_self 1

/-- The steps from a block that is filled in part to the next call. -/
def unfilled (payload : List UInt8) : Producer → Nat
  | .fill _ j => payload.length - j + 2
  | .publish _ => 1
  | _ => 0

/-- Inside `reserve` the producer can always go on; and if the call then ends with a null pointer,
it was with the last value of `tail_`. -/
theorem exists_step (r : ThreadRing) (payload : List UInt8) (hres : p.reserving = true) :
    ∃ r' p', p.step r payload r.tail.unseen.length = some (r', p') ∧
      (p' = .idle → r'.tail.seen = r.tail.latest) := by
  have hload : r.loadTail r.tail.unseen.length = some { r with tail := r.tail.sync } := by
    rw [ThreadRing.loadTail, Cell.load_unseen_length]
    rfl
  cases p with
  | idle | fill off j | publish c => cases hres
  | loadTail c =>
      refine ⟨{ r with tail := r.tail.sync }, plan { r with tail := r.tail.sync } payload c, ?_,
        fun _ ↦ rfl⟩
      rw [step, hload]
      rfl
  | reloadTail c =>
      refine ⟨{ r with tail := r.tail.sync }, place { r with tail := r.tail.sync } payload c 0, ?_,
        fun _ ↦ rfl⟩
      rw [step, hload]
      rfl
  | pad c off padNeed n =>
      rw [step]
      split
      · exact ⟨_, _, rfl, fun h ↦ by cases h⟩
      · exact ⟨_, _, rfl, fun h ↦ by cases h⟩
  | storePad c => exact ⟨_, _, rfl, fun h ↦ by cases h⟩
  | writeTag off => exact ⟨_, _, rfl, fun h ↦ by cases h⟩

end Producer

/-! ## A call among the steps of the consumer -/

namespace Spsc

variable {payloads : Nat → List UInt8} {capacity : UInt64} {s s' s₀ : Spsc} {v v₀ : Virtual}

/-- A call of `reserve` that began in `s₀` has come to `s`. -/
inductive Reserving (payloads : Nat → List UInt8) (s₀ : Spsc) : Spsc → Prop where
  | call {i : Nat} {s : Spsc} (hidle : s₀.producer = .idle)
      (h : s₀.step payloads (.produce i) = some s) : Reserving payloads s₀ s
  | produce {i : Nat} {s s' : Spsc} (hr : Reserving payloads s₀ s)
      (hres : s.producer.reserving = true) (h : s.step payloads (.produce i) = some s') :
      Reserving payloads s₀ s'
  | consume {i : Nat} {s s' : Spsc} (hr : Reserving payloads s₀ s)
      (hres : s.producer.reserving = true) (h : s.step payloads (.consume i) = some s') :
      Reserving payloads s₀ s'

/-- What a step of the producer is. -/
theorem step_produce {i : Nat} (h : s.step payloads (.produce i) = some s') :
    s.producer.step s.ring (payloads s.committed) i = some (s'.ring, s'.producer) ∧
      s'.committed = if s.producer.commits then s.committed + 1 else s.committed := by
  obtain ⟨⟨r', p'⟩, hp, rfl⟩ := Option.map_eq_some_iff.mp h
  exact ⟨hp, rfl⟩

/-- What a step of the consumer is. -/
theorem step_consume {i : Nat} (h : s.step payloads (.consume i) = some s') :
    s.consumer.step s.ring (payloads s.obtained.length).length i = some (s'.ring, s'.consumer) ∧
      s'.producer = s.producer ∧ s'.committed = s.committed := by
  obtain ⟨⟨r', c'⟩, hc, rfl⟩ := Option.map_eq_some_iff.mp h
  exact ⟨hc, rfl, rfl⟩

theorem Inv.payload_inv (h : Inv payloads capacity s v) {c : Nat} (hc : s.committed = c) :
    s.producer.Inv s.ring v (payloads c) := hc ▸ h.producer

/-- What holds throughout a call. -/
theorem Reserving.inv (hr : Reserving payloads s₀ s) (h₀ : Inv payloads capacity s₀ v₀)
    (hlen : ∀ k, (payloads k).length < 2 ^ 63) :
    ∃ v, Inv payloads capacity s v ∧ s.committed = s₀.committed ∧
      s.producer.Called s₀.ring s.ring (payloads s₀.committed) := by
  induction hr with
  | call hidle h =>
      obtain ⟨v, hv⟩ := h₀.step hlen h
      obtain ⟨hp, hc⟩ := step_produce h
      rw [hidle] at hp hc
      obtain ⟨hring, hprod⟩ := Prod.mk.inj (Option.some.inj hp)
      refine ⟨v, hv, hc, ?_⟩
      rw [← hprod, ← hring]
      exact ⟨rfl, rfl⟩
  | produce hr hres h ih =>
      obtain ⟨v, hv, hc, hcalled⟩ := ih
      obtain ⟨v', hv'⟩ := hv.step hlen h
      obtain ⟨hp, hc'⟩ := step_produce h
      rw [hc] at hp
      refine ⟨v', hv', ?_, hcalled.step hv.ring (hv.payload_inv hc) (hlen _) hres hp⟩
      rw [hc', if_neg, hc]
      rw [Producer.commits_of_reserving hres]
      exact Bool.false_ne_true
  | consume hr hres h ih =>
      obtain ⟨v, hv, hc, hcalled⟩ := ih
      obtain ⟨v', hv'⟩ := hv.step hlen h
      obtain ⟨hp, hprod, hc'⟩ := step_consume h
      refine ⟨v', hv', hc'.trans hc, ?_⟩
      rw [hprod]
      exact hcalled.sameView (Consumer.sameView_step hp)

/-- Everything committed has been consumed. -/
def Drained (s : Spsc) : Prop := s.ring.head.latest = s.ring.tail.latest

/-- A call on a drained ring that has room for its demand gives up only if it loaded a stale
`tail_`. -/
theorem Reserving.stale (hr : Reserving payloads s₀ s) (h₀ : Inv payloads capacity s₀ v₀)
    (hlen : ∀ k, (payloads k).length < 2 ^ 63) (hd : s₀.Drained)
    (hroom : demand capacity.toNat s₀.ring.offset (1 + (payloads s₀.committed).length) ≤
      capacity.toNat) (hidle : s.producer = .idle) :
    s.ring.tail.seen ≠ s₀.ring.tail.latest := by
  intro hseen
  obtain ⟨v, hv, -, hcalled⟩ := hr.inv h₀ hlen
  rw [hidle] at hcalled
  obtain ⟨hun, hlt⟩ := hcalled
  have hoff : s.ring.offset = s₀.ring.offset := by
    rw [ThreadRing.offset, ThreadRing.offset, ThreadRing.mask, ThreadRing.mask, hun.head,
      hv.capacity, h₀.capacity]
  have hused : s.ring.used = 0 := by
    rw [ThreadRing.used, hun.head, hseen, hd, UInt64.sub_self]
    rfl
  rw [hused, hoff, hv.capacity] at hlt
  omega

theorem step_produce_of {i : Nat} {r' : ThreadRing} {p' : Producer}
    (h : s.producer.step s.ring (payloads s.committed) i = some (r', p')) :
    ∃ s', s.step payloads (.produce i) = some s' ∧ s'.ring = r' ∧ s'.producer = p' :=
  ⟨_, Option.map_eq_some_iff.mpr ⟨(r', p'), h, rfl⟩, rfl, rfl⟩

/-- The producer on its own. -/
abbrev produceStep (payloads : Nat → List UInt8) (s : Spsc) (i : Nat) : Option Spsc :=
  s.step payloads (.produce i)

/-- On a drained ring that has room for its demand, a call returns a block. -/
theorem exists_run_fill (h₀ : Inv payloads capacity s₀ v₀)
    (hlen : ∀ k, (payloads k).length < 2 ^ 63) (hidle : s₀.producer = .idle) (hd : s₀.Drained)
    (hroom : demand capacity.toNat s₀.ring.offset (1 + (payloads s₀.committed).length) ≤
      capacity.toNat) :
    ∃ is s off, Run.run (produceStep payloads) s₀ is = some s ∧ s.producer = .fill off 0 ∧
      s.committed = s₀.committed := by
  -- the first step reads `head_`
  have hfirst : s₀.producer.step s₀.ring (payloads s₀.committed) 0 =
      some (s₀.ring, .loadTail s₀.ring.head.latest) := by
    rw [hidle]
    rfl
  obtain ⟨s₁, hs₁, hring, hprod⟩ := step_produce_of hfirst
  have hne₁ : s₁.producer ≠ .idle := by
    rw [hprod]
    exact fun h ↦ by cases h
  -- from there on every load is up to date, so no step can give up
  have hprogress : ∀ s, (Reserving payloads s₀ s ∧ s.producer ≠ .idle ∧
      s.ring.tail.latest = s₀.ring.tail.latest) → (¬ ∃ off, s.producer = .fill off 0) →
      ∃ i s', produceStep payloads s i = some s' ∧ (Reserving payloads s₀ s' ∧
        s'.producer ≠ .idle ∧ s'.ring.tail.latest = s₀.ring.tail.latest) ∧
        s'.producer.left s'.ring < s.producer.left s.ring := by
    rintro s ⟨hr, hne, htail⟩ hnot
    obtain ⟨v, hv, hc, hcalled⟩ := hr.inv h₀ hlen
    have hres : s.producer.reserving = true := (hcalled.reserving_or hne).resolve_right hnot
    obtain ⟨r', p', hp, hstale⟩ := Producer.exists_step s.ring (payloads s.committed) hres
    obtain ⟨s', hs', rfl, rfl⟩ := step_produce_of hp
    have hr' : Reserving payloads s₀ s' := .produce hr hres hs'
    have htail' : s'.ring.tail.latest = s₀.ring.tail.latest :=
      (Producer.tail_latest_step hp).trans htail
    refine ⟨_, s', hs', ⟨hr', ?_, htail'⟩, Producer.left_step hv.ring hv.producer (hlen _) hres hp⟩
    intro hidle'
    exact hr'.stale h₀ hlen hd hroom hidle' ((hstale hidle').trans htail)
  obtain ⟨is, s, hs, ⟨hr, -⟩, off, hfill⟩ :=
    Run.exists_run_of_progress (fun s : Spsc ↦ s.producer.left s.ring) hprogress
      ⟨.call hidle hs₁, hne₁, by rw [hring]⟩
  obtain ⟨v, -, hc, -⟩ := hr.inv h₀ hlen
  exact ⟨0 :: is, s, off, Run.run_cons_eq_some.mpr ⟨s₁, hs₁, hs⟩, hfill, hc⟩

/-! ## From a block to the next call -/

/-- What holds from the block that `reserve` returned in `s₀` to the next call. -/
inductive Filling (payloads : Nat → List UInt8) (s₀ s : Spsc) : Prop where
  | fill (off : UInt64) (j : Nat) (hp : s.producer = .fill off j)
      (hc : s.committed = s₀.committed) (hh : s.ring.head.latest = s₀.ring.head.latest)
  | publish (h : UInt64) (hp : s.producer = .publish h) (hc : s.committed = s₀.committed)
      (hh : s.ring.head.latest = s₀.ring.head.latest)
  | done (hp : s.producer = .idle) (hc : s.committed = s₀.committed + 1)
      (hh : s.ring.head.latest = s₀.ring.head.latest + Producer.need (payloads s₀.committed))

theorem Filling.progress (h : Filling payloads s₀ s) (hv : Inv payloads capacity s v)
    (hne : s.producer ≠ .idle) : ∃ s', s.step payloads (.produce 0) = some s' ∧
      Filling payloads s₀ s' ∧ s'.producer.unfilled (payloads s₀.committed) <
        s.producer.unfilled (payloads s₀.committed) := by
  cases h with
  | fill off j hp hc hh =>
      cases hb : (payloads s₀.committed)[j]? with
      | some b =>
          have hs : s.producer.step s.ring (payloads s.committed) 0 =
              some (s.ring.write (off.toNat + 1 + j) b, .fill off (j + 1)) := by
            rw [hp, Producer.step, hc, hb]
          obtain ⟨s', hs', hring, hprod⟩ := step_produce_of hs
          have hc' := (step_produce hs').2
          rw [hp] at hc'
          refine ⟨s', hs', .fill off (j + 1) hprod (hc'.trans hc) (by rw [hring]; exact hh), ?_⟩
          have hj : j < (payloads s₀.committed).length := (List.getElem?_eq_some_iff.mp hb).1
          rw [hprod, hp, Producer.unfilled, Producer.unfilled]
          omega
      | none =>
          have hs : s.producer.step s.ring (payloads s.committed) 0 =
              some (s.ring, .publish (s.ring.head.latest + (1 + s.ring.pendingPayloadSize))) := by
            rw [hp, Producer.step, hc, hb]
          obtain ⟨s', hs', hring, hprod⟩ := step_produce_of hs
          have hc' := (step_produce hs').2
          rw [hp] at hc'
          refine ⟨s', hs', .publish _ hprod (hc'.trans hc) (by rw [hring]; exact hh), ?_⟩
          rw [hprod, hp, Producer.unfilled, Producer.unfilled]
          omega
  | publish c hp hc hh =>
      have hs : s.producer.step s.ring (payloads s.committed) 0 =
          some ({ s.ring.storeHead c with pendingPayloadSize := 0 }, .idle) := by
        rw [hp]
        rfl
      obtain ⟨s', hs', hring, hprod⟩ := step_produce_of hs
      have hc' := (step_produce hs').2
      rw [hp] at hc'
      have hinv := hv.producer
      rw [hp, hc] at hinv
      refine ⟨s', hs', .done hprod (by rw [← hc]; exact hc') ?_, ?_⟩
      · have hlatest : s'.ring.head.latest = c := by
          rw [hring]
          exact Cell.latest_store _ _
        rw [hlatest, hinv.1, ← hh, hv.ring.head_latest_eq, UInt64.ofNat_add, UInt64.ofNat_add]
        rfl
      · rw [hprod, hp]
        exact Nat.one_pos
  | done hp => exact absurd hp hne

/-- The producer fills its block and publishes it. -/
theorem exists_run_commit (h₀ : Inv payloads capacity s₀ v₀)
    (hlen : ∀ k, (payloads k).length < 2 ^ 63) {off : UInt64} (hfill : s₀.producer = .fill off 0) :
    ∃ is s, Run.run (produceStep payloads) s₀ is = some s ∧ s.producer = .idle ∧
      s.committed = s₀.committed + 1 ∧
      s.ring.head.latest = s₀.ring.head.latest + Producer.need (payloads s₀.committed) := by
  have hprogress : ∀ s, ((∃ v, Inv payloads capacity s v) ∧ Filling payloads s₀ s) →
      s.producer ≠ .idle → ∃ i s', produceStep payloads s i = some s' ∧
        ((∃ v, Inv payloads capacity s' v) ∧ Filling payloads s₀ s') ∧
        s'.producer.unfilled (payloads s₀.committed) <
          s.producer.unfilled (payloads s₀.committed) := by
    rintro s ⟨⟨v, hv⟩, hf⟩ hne
    obtain ⟨s', hs', hf', hlt⟩ := hf.progress hv hne
    exact ⟨0, s', hs', ⟨hv.step hlen hs', hf'⟩, hlt⟩
  obtain ⟨is, s, hs, ⟨-, hf⟩, hidle⟩ := Run.exists_run_of_progress
    (fun s : Spsc ↦ s.producer.unfilled (payloads s₀.committed)) hprogress
    ⟨⟨v₀, h₀⟩, .fill off 0 hfill rfl rfl⟩
  cases hf with
  | fill off j hp => cases hidle.symm.trans hp
  | publish c hp => cases hidle.symm.trans hp
  | done hp hc hh => exact ⟨is, s, hs, hp, hc, hh⟩

/-! ## The consumer drains the ring -/

/-- The consumer on its own. -/
abbrev consumeStep (payloads : Nat → List UInt8) (s : Spsc) (i : Nat) : Option Spsc :=
  s.step payloads (.consume i)

theorem Inv.exists_step (h : Inv payloads capacity s v) (hne : ¬ s.Drained) :
    ∃ i s', s.step payloads (.consume i) = some s' ∧ (s'.ring.unread < s.ring.unread ∨
      s'.ring.unread = s.ring.unread ∧
        s'.consumer.left (payloads s'.obtained.length).length <
          s.consumer.left (payloads s.obtained.length).length) := by
  obtain ⟨i, r', c', hs, hlt⟩ := Consumer.exists_step h.ring h.consumer hne
  refine ⟨i, _, Option.map_eq_some_iff.mpr ⟨(r', c'), hs, rfl⟩, ?_⟩
  rcases hlt with hlt | ⟨he, ho, hlt⟩
  · exact Or.inl hlt
  · refine Or.inr ⟨he, ?_⟩
    rw [ho, Option.toList_none, List.append_nil]
    exact hlt

/-- The consumer can always drain the ring. -/
theorem exists_run_drained (h₀ : Inv payloads capacity s₀ v₀)
    (hlen : ∀ k, (payloads k).length < 2 ^ 63) :
    ∃ is s, Run.run (consumeStep payloads) s₀ is = some s ∧ s.Drained ∧
      s.producer = s₀.producer ∧ s.committed = s₀.committed ∧
      s.ring.head.latest = s₀.ring.head.latest := by
  have hprogress : ∀ s, ((∃ v, Inv payloads capacity s v) ∧ s.producer = s₀.producer ∧
      s.committed = s₀.committed ∧ s.ring.head.latest = s₀.ring.head.latest) → ¬ s.Drained →
      ∃ i s', consumeStep payloads s i = some s' ∧ ((∃ v, Inv payloads capacity s' v) ∧
        s'.producer = s₀.producer ∧ s'.committed = s₀.committed ∧
        s'.ring.head.latest = s₀.ring.head.latest) ∧
        toLex (s'.ring.unread, s'.consumer.left (payloads s'.obtained.length).length) <
          toLex (s.ring.unread, s.consumer.left (payloads s.obtained.length).length) := by
    rintro s ⟨⟨v, hv⟩, hp, hc, hh⟩ hne
    obtain ⟨i, s', hs', hlt⟩ := hv.exists_step hne
    obtain ⟨hstep, hp', hc'⟩ := step_consume hs'
    refine ⟨i, s', hs', ⟨hv.step hlen hs', hp'.trans hp, hc'.trans hc, ?_⟩,
      Prod.Lex.toLex_lt_toLex.mpr hlt⟩
    exact (Consumer.sameView_step hstep).head.trans hh
  obtain ⟨is, s, hs, ⟨-, hp, hc, hh⟩, hd⟩ := Run.exists_run_of_progress
    (fun s : Spsc ↦ toLex (s.ring.unread, s.consumer.left (payloads s.obtained.length).length))
    hprogress ⟨⟨v₀, h₀⟩, rfl, rfl, rfl⟩
  exact ⟨is, s, hs, hd, hp, hc, hh⟩

theorem exec_produce {is : List Nat} (h : Run.run (produceStep payloads) s is = some s') :
    s.exec payloads (is.map .produce) = some s' := (Run.run_map _ is).trans h

theorem exec_consume {is : List Nat} (h : Run.run (consumeStep payloads) s is = some s') :
    s.exec payloads (is.map .consume) = some s' := (Run.run_map _ is).trans h

theorem exec_append {as bs : List Action} {s₁ : Spsc} (h : s.exec payloads as = some s₁)
    (h' : s₁.exec payloads bs = some s') : s.exec payloads (as ++ bs) = some s' := by
  rw [exec, Run.run_append]
  exact Option.bind_eq_some_iff.mpr ⟨s₁, h, h'⟩

/-! ## A position that no call gets past -/

/-- The ring is drained, but the demand of the next call is above its capacity. -/
structure Stuck (payloads : Nat → List UInt8) (capacity : UInt64) (c : Nat) (s : Spsc) : Prop where
  inv : ∃ v, Inv payloads capacity s v
  committed : s.committed = c
  drained : s.Drained
  demand : capacity.toNat < demand capacity.toNat s.ring.offset (1 + (payloads c).length)
  producer : s.producer = .idle ∨ s.producer = .loadTail s.ring.head.latest

theorem Stuck.produce {c i : Nat} (h : s.Stuck payloads capacity c)
    (hlen : ∀ k, (payloads k).length < 2 ^ 63) (hs : s.step payloads (.produce i) = some s') :
    s'.Stuck payloads capacity c := by
  obtain ⟨v, hv⟩ := h.inv
  obtain ⟨hstep, hc⟩ := step_produce hs
  have htail := Producer.tail_latest_step hstep
  rcases h.producer with hp | hp
  · rw [hp] at hstep hc
    obtain ⟨hring, hprod⟩ := Prod.mk.inj (Option.some.inj hstep)
    exact
      { inv := hv.step hlen hs
        committed := hc.trans h.committed
        drained := by
          rw [Drained, ← hring]
          exact h.drained
        demand := hring ▸ h.demand
        producer := Or.inr (by rw [← hprod, ← hring]) }
  · rw [hp] at hstep hc
    obtain ⟨r₁, hl, he⟩ := Option.map_eq_some_iff.mp hstep
    obtain ⟨hring, hprod⟩ := Prod.mk.inj he
    obtain ⟨t, rfl, hi, -⟩ := hv.ring.loadTail hl
    rw [hring] at hi
    have hhead : s'.ring.head.latest = s.ring.head.latest := by rw [← hring]
    have hcap : s'.ring.capacity = capacity := by
      rw [← hring]
      exact hv.capacity
    have hdemand : capacity.toNat <
        Runtime.demand capacity.toNat s'.ring.offset (1 + (payloads c).length) := by
      rw [← hring]
      exact h.demand
    have hplan : Producer.plan s'.ring (payloads s.committed) s'.ring.head.latest = .idle := by
      rw [Producer.plan_eq hi (hlen _), if_pos]
      rw [hcap, h.committed]
      exact Nat.lt_of_lt_of_le hdemand (Nat.le_add_left _ _)
    exact
      { inv := hv.step hlen hs
        committed := hc.trans h.committed
        drained := by
          rw [Drained, htail, hhead]
          exact h.drained
        demand := hdemand
        producer := Or.inl (by rw [← hprod, hring, ← hhead, hplan]) }

theorem Stuck.consume {c i : Nat} (h : s.Stuck payloads capacity c)
    (hlen : ∀ k, (payloads k).length < 2 ^ 63) (hs : s.step payloads (.consume i) = some s') :
    s'.Stuck payloads capacity c := by
  obtain ⟨v, hv⟩ := h.inv
  obtain ⟨hstep, hp, hc⟩ := step_consume hs
  have hview := Consumer.sameView_step hstep
  have htail : s'.ring.tail.latest = s.ring.tail.latest :=
    Consumer.tail_latest_step hv.ring hv.consumer h.drained hstep
  exact
    { inv := hv.step hlen hs
      committed := hc.trans h.committed
      drained := hview.head.trans (h.drained.trans htail.symm)
      demand := by
        rw [hview.offset]
        exact h.demand
      producer := by
        rw [hp, hview.head]
        exact h.producer }

/-- Nothing that either party does lets the call return a block. -/
theorem Stuck.exec {c : Nat} {as : List Action} (h : s.Stuck payloads capacity c)
    (hlen : ∀ k, (payloads k).length < 2 ^ 63) (hs : s.exec payloads as = some s') :
    s'.Stuck payloads capacity c := by
  refine Run.run_inv (I := Stuck payloads capacity c) ?_ h hs
  rintro a - s s' h hs
  cases a with
  | produce i => exact h.produce hlen hs
  | consume i => exact h.consume hlen hs

/-- A new ring is drained, and the producer stands at its beginning. -/
theorem init_offset (buf : Nat → UInt8) (hcap : ∃ k, capacity.toNat = 2 ^ k) :
    (init capacity buf).Drained ∧ (init capacity buf).ring.offset = 0 := by
  exact ⟨rfl, (ThreadRing.Inv.new hcap buf).offset_eq.trans (Nat.zero_mod _)⟩

/-- The first event of a ring, if it fits, is placed at the beginning. -/
theorem exists_exec_first (buf : Nat → UInt8) (hcap : ∃ k, capacity.toNat = 2 ^ k)
    (hlen : ∀ k, (payloads k).length < 2 ^ 63) (hfits : 1 + (payloads 0).length ≤ capacity.toNat) :
    ∃ as s off, (init capacity buf).exec payloads as = some s ∧ s.producer = .fill off 0 ∧
      s.committed = 0 ∧ s.ring.head.latest = 0 := by
  have hnew := ThreadRing.Inv.new hcap buf
  have hoff := (init_offset buf hcap).2
  have hplan : Producer.plan { capacity, buf } (payloads 0) 0 =
      .writeTag (0 &&& (capacity - 1)) := by
    refine (Producer.plan_eq hnew (hlen 0)).trans ?_
    have hused : ThreadRing.used { capacity, buf } = 0 := hnew.used_eq
    have hoff : ThreadRing.offset { capacity, buf } = 0 := hoff
    rw [hused, hoff, demand, Nat.sub_zero, Nat.zero_add, if_neg (Nat.not_lt.mpr hfits),
      if_neg (Nat.not_lt.mpr hfits), if_neg (Nat.not_lt.mpr hfits)]
    rfl
  have hplaced : (init capacity buf).exec payloads [.produce 0, .produce 0] =
      some { init capacity buf with producer := .writeTag (0 &&& (capacity - 1)) } := by
    rw [← hplan]
    rfl
  have htag : exec payloads { init capacity buf with producer := .writeTag (0 &&& (capacity - 1)) }
      [.produce 0] = some _ := rfl
  exact ⟨_, _, _, exec_append hplaced htag, rfl, rfl, rfl⟩

/-- Payloads of `n` bytes, the first of which is a byte short. -/
def oneShort (n k : Nat) : List UInt8 := List.replicate (if k = 0 then n - 1 else n) 0

theorem length_oneShort (n k : Nat) : (oneShort n k).length = if k = 0 then n - 1 else n :=
  List.length_replicate

/-- If the capacity is below the greatest demand, some run drains the ring at a position that no
call gets past. -/
theorem exists_stuck {n : Nat} (hcap : ∃ k, capacity.toNat = 2 ^ k) (hn : n < 2 ^ 63)
    (hlt : capacity.toNat < 2 * (1 + n) - 1) (buf : Nat → UInt8) :
    ∃ (payloads : Nat → List UInt8) (as : List Action) (s : Spsc) (c : Nat),
      (∀ k, (payloads k).length < 2 ^ 63) ∧ (init capacity buf).exec payloads as = some s ∧
        s.producer = .idle ∧ (payloads c).length = n ∧ s.Stuck payloads capacity c := by
  have hbad := lt_demand_badOffset hlt
  by_cases hfits : 1 + n ≤ capacity.toNat
  · -- an event of `n` bytes, tag included, takes the producer to the position `n`
    have hlen : ∀ k, (oneShort n k).length < 2 ^ 63 := by
      intro k
      rw [length_oneShort]
      split <;> omega
    have hfirst : 1 + (oneShort n 0).length = n := by
      rw [length_oneShort, if_pos rfl]
      omega
    obtain ⟨as₁, s₁, off, hs₁, hfill, hc₁, hh₁⟩ :=
      exists_exec_first buf hcap hlen (by omega)
    obtain ⟨v₁, hv₁⟩ := (init_inv hcap buf).exec hlen hs₁
    obtain ⟨is₂, s₂, hs₂, hidle, hc₂, hh₂⟩ := exists_run_commit hv₁ hlen hfill
    obtain ⟨v₂, hv₂⟩ := hv₁.exec hlen (exec_produce hs₂)
    obtain ⟨is₃, s₃, hs₃, hd, hp₃, hc₃, hh₃⟩ := exists_run_drained hv₂ hlen
    obtain ⟨v₃, hv₃⟩ := hv₂.exec hlen (exec_consume hs₃)
    have hhead : s₃.ring.head.latest = UInt64.ofNat n := by
      rw [hh₃, hh₂, hh₁, hc₁, UInt64.zero_add, Producer.need]
      exact (UInt64.ofNat_add 1 _).symm.trans (congrArg UInt64.ofNat hfirst)
    have hoff : s₃.ring.offset = badOffset capacity.toNat (1 + n) := by
      obtain ⟨k, hk⟩ := hcap
      rw [ThreadRing.offset, ThreadRing.mask, hv₃.capacity, hhead, toNat_ofNat_and_mask hk,
        badOffset, if_pos hfits, Nat.mod_eq_of_lt (by omega)]
      omega
    have hn₁ : (oneShort n 1).length = n := length_oneShort n 1
    refine ⟨oneShort n, _, s₃, 1, hlen,
      exec_append (exec_append hs₁ (exec_produce hs₂)) (exec_consume hs₃), hp₃.trans hidle, hn₁, ?_⟩
    exact
      { inv := ⟨v₃, hv₃⟩
        committed := by rw [hc₃, hc₂, hc₁]
        drained := hd
        demand := by
          rw [hoff, hn₁]
          exact hbad
        producer := Or.inl (hp₃.trans hidle) }
  · -- the event is larger than the buffer
    have hlength : (List.replicate n (0 : UInt8)).length = n := List.length_replicate
    obtain ⟨hd, hoff⟩ := init_offset buf hcap
    refine ⟨fun _ ↦ List.replicate n 0, [], init capacity buf, 0,
      fun _ ↦ lt_of_eq_of_lt hlength hn, rfl, rfl, hlength, ?_⟩
    exact
      { inv := ⟨_, init_inv hcap buf⟩
        committed := rfl
        drained := hd
        demand := by
          rw [hoff, hlength]
          rw [badOffset, if_neg hfits] at hbad
          exact hbad
        producer := Or.inl rfl }

end Spsc

/-! ## When the retry loop can be left -/

/-- A ring of this capacity always comes to serve a payload of `n` bytes.  In every state of every
run in which the producer is about to call `reserve` for such a payload: a call that returns a null
pointer has changed nothing; on a drained ring it returns one only if it loaded a stale `tail_`,
and it returns a block if the producer alone goes on; and in any case some continuation of the run
returns a block. -/
def NeverStuck (capacity : UInt64) (n : Nat) : Prop :=
  ∀ (payloads : Nat → List UInt8) (buf : Nat → UInt8) (as : List Spsc.Action) (s : Spsc),
    (∀ k, (payloads k).length < 2 ^ 63) → (Spsc.init capacity buf).exec payloads as = some s →
    s.producer = .idle → (payloads s.committed).length = n →
    (∀ s', s.Reserving payloads s' → s'.producer = .idle →
      s'.ring.head.latest = s.ring.head.latest ∧ s'.ring.buf = s.ring.buf) ∧
    (s.Drained →
      (∀ s', s.Reserving payloads s' → s'.producer = .idle →
        s'.ring.tail.seen ≠ s.ring.tail.latest) ∧
      ∃ (is : List Nat) (s' : Spsc) (off : UInt64),
        s.exec payloads (is.map .produce) = some s' ∧ s'.producer = .fill off 0 ∧
        s'.committed = s.committed) ∧
    ∃ bs s' off, s.exec payloads bs = some s' ∧ s'.producer = .fill off 0 ∧
      s'.committed = s.committed

/-- From the greatest demand on, no call is stuck. -/
theorem neverStuck_of_le {capacity : UInt64} {n : Nat} (hcap : ∃ k, capacity.toNat = 2 ^ k)
    (hle : 2 * (1 + n) - 1 ≤ capacity.toNat) : NeverStuck capacity n := by
  intro payloads buf as s hlen hs hidle hn
  obtain ⟨v, hv⟩ := (Spsc.init_inv hcap buf).exec hlen hs
  have hroom : ∀ off < capacity.toNat,
      demand capacity.toNat off (1 + (payloads s.committed).length) ≤ capacity.toNat := by
    rw [hn]
    exact fun off hoff ↦ demand_le hle hoff
  have hoff : s.ring.offset < capacity.toNat := hv.capacity ▸ hv.ring.offset_lt
  refine ⟨fun s' hr hidle' ↦ ?_, fun hd ↦ ⟨fun s' hr hidle' ↦ ?_, ?_⟩, ?_⟩
  · obtain ⟨v', -, -, hcalled⟩ := hr.inv hv hlen
    rw [hidle'] at hcalled
    exact ⟨hcalled.1.head, hcalled.1.buf⟩
  · exact hr.stale hv hlen hd (hroom _ hoff) hidle'
  · obtain ⟨is, s', off, hs', hfill, hc⟩ := Spsc.exists_run_fill hv hlen hidle hd (hroom _ hoff)
    exact ⟨is, s', off, Spsc.exec_produce hs', hfill, hc⟩
  · -- the consumer drains the ring first
    obtain ⟨is₁, s₁, hs₁, hd, hp₁, hc₁, -⟩ := Spsc.exists_run_drained hv hlen
    obtain ⟨v₁, hv₁⟩ := hv.exec hlen (Spsc.exec_consume hs₁)
    have hoff₁ : s₁.ring.offset < capacity.toNat := hv₁.capacity ▸ hv₁.ring.offset_lt
    rw [← hc₁] at hroom
    obtain ⟨is, s', off, hs', hfill, hc⟩ :=
      Spsc.exists_run_fill hv₁ hlen (hp₁.trans hidle) hd (hroom _ hoff₁)
    exact ⟨_, s', off, Spsc.exec_append (Spsc.exec_consume hs₁) (Spsc.exec_produce hs'), hfill,
      hc.trans hc₁⟩

/-- Below the greatest demand, some run of a ring gets stuck for good. -/
theorem not_neverStuck {capacity : UInt64} {n : Nat} (hcap : ∃ k, capacity.toNat = 2 ^ k)
    (hn : n < 2 ^ 63) (hlt : capacity.toNat < 2 * (1 + n) - 1) : ¬ NeverStuck capacity n := by
  intro h
  obtain ⟨payloads, as, s, c, hlen, hs, hidle, hlength, hstuck⟩ :=
    Spsc.exists_stuck hcap hn hlt fun _ ↦ 0
  obtain ⟨-, -, bs, s', off, hs', hfill, -⟩ :=
    h payloads _ as s hlen hs hidle (by rw [hstuck.committed, hlength])
  rcases (hstuck.exec hlen hs').producer with hp | hp
  · cases hfill.symm.trans hp
  · cases hfill.symm.trans hp

/-- Every event that `log_event` packs fits into every ring that can be configured, with the padding
in front of it. -/
theorem two_mul_need_le (getenv : String → Option (List Char)) (e : LogEvent) :
    2 * (1 + e.encode.length) - 1 ≤ (ringCapacity getenv).toNat := by
  obtain ⟨k, hmin, -, hk⟩ := exists_toNat_ringCapacity getenv
  have hpow : 2 ^ 12 ≤ 2 ^ k := Nat.pow_le_pow_right Nat.zero_lt_two hmin
  have hpcs := e.pcs_le
  rw [hk, ← LogEvent.payloadSize_hdr, EventHdrBin.payloadSize, LogEvent.frameCnt_hdr, hdrSize]
  omega

/-- **The retry loop of `log_event` can always be left.**  No event is ever stuck in front of a ring
of a size that `init_config_from_env` accepts.  In general the payloads of `n` bytes that are never
stuck are exactly those with `2 * (1 + n) - 1 ≤ capacity`; for a larger one some run drains the ring
at a position from which no continuation returns a block or commits.  The producer never stores
`tail_`. -/
theorem reserve_neverStuck :
    (∀ (getenv : String → Option (List Char)) (e : LogEvent),
      NeverStuck (ringCapacity getenv) e.encode.length) ∧
    (∀ (capacity : UInt64) (n : Nat), (∃ k, capacity.toNat = 2 ^ k) → n < 2 ^ 63 →
      (NeverStuck capacity n ↔ 2 * (1 + n) - 1 ≤ capacity.toNat)) ∧
    (∀ (capacity : UInt64) (n : Nat) (buf : Nat → UInt8), (∃ k, capacity.toNat = 2 ^ k) →
      n < 2 ^ 63 → capacity.toNat < 2 * (1 + n) - 1 →
      ∃ (payloads : Nat → List UInt8) (as : List Spsc.Action) (s : Spsc),
        (Spsc.init capacity buf).exec payloads as = some s ∧ s.Drained ∧ s.producer = .idle ∧
        (payloads s.committed).length = n ∧ ∀ bs s', s.exec payloads bs = some s' →
          s'.committed = s.committed ∧ ∀ off j, s'.producer ≠ .fill off j) ∧
    ∀ (payloads : Nat → List UInt8) (s s' : Spsc) (i : Nat),
      s.step payloads (.produce i) = some s' → s'.ring.tail.latest = s.ring.tail.latest := by
  refine ⟨fun getenv e ↦ ?_, fun capacity n hcap hn ↦ ⟨fun h ↦ ?_, neverStuck_of_le hcap⟩, ?_, ?_⟩
  · obtain ⟨k, -, -, hk⟩ := exists_toNat_ringCapacity getenv
    exact neverStuck_of_le ⟨k, hk⟩ (two_mul_need_le getenv e)
  · by_contra hlt
    exact not_neverStuck hcap hn (Nat.lt_of_not_le hlt) h
  · intro capacity n buf hcap hn hlt
    obtain ⟨payloads, as, s, c, hlen, hs, hidle, hlength, hstuck⟩ :=
      Spsc.exists_stuck hcap hn hlt buf
    refine ⟨payloads, as, s, hs, hstuck.drained, hidle, by rw [hstuck.committed, hlength], ?_⟩
    intro bs s' hs'
    have h := hstuck.exec hlen hs'
    refine ⟨h.committed.trans hstuck.committed.symm, fun off j hfill ↦ ?_⟩
    rcases h.producer with hp | hp
    · cases hfill.symm.trans hp
    · cases hfill.symm.trans hp
  · intro payloads s s' i hs
    exact Producer.tail_latest_step (Spsc.step_produce hs).1

end DeadLockDetect.Runtime
