import DeadLockDetect.Runtime.Ring
import Mathlib.Data.Nat.Bitwise
import Mathlib.Data.Int.ModEq
import Mathlib.Algebra.BigOperators.Group.List.Basic

/-!
# The invariant of the ring buffer

The two counters are read without their wrap-around, as offsets into an unbounded
stream of bytes; `Virtual` holds these offsets and the segments of the stream that
the consumer has not passed.  `Ring.Inv` ties a ring to them: the counters are the
offsets modulo `2 ^ 64`, the buffer holds the bytes of the segments, and no value of
`head_` that the consumer can still load points into the middle of a segment.

Every access of the producer and every operation of the consumer then has one lemma
that says what it does to the segments.  What the producer knows at each point of
`reserve` and `commit` is `Producer.Inv`; it mentions nothing that the consumer
changes.
-/

namespace DeadLockDetect.Runtime

/-! ## Segments -/

/-- What the producer publishes at once. -/
inductive Seg where
  /-- One byte of padding. -/
  | skip
  /-- The tag and the payload of an event. -/
  | event (payload : List UInt8)
deriving DecidableEq, Repr

namespace Seg

/-- The bytes of a segment. -/
def bytes : Seg → List UInt8
  | skip => [kTagSkip]
  | event p => kTagEvent :: p

/-- The number of bytes of a segment. -/
def size (x : Seg) : Nat := x.bytes.length

/-- The first byte of a segment. -/
def tag : Seg → UInt8
  | skip => kTagSkip
  | event _ => kTagEvent

theorem tag_eq_or (x : Seg) : x.tag = kTagEvent ∨ x.tag = kTagSkip := by
  cases x with
  | skip => exact Or.inr rfl
  | event p => exact Or.inl rfl

/-- The payload of an event. -/
def payload? : Seg → Option (List UInt8)
  | skip => none
  | event p => some p

@[simp] theorem size_skip : size skip = 1 := rfl

@[simp] theorem size_event (p : List UInt8) : size (event p) = 1 + p.length :=
  Nat.add_comm _ 1

theorem size_pos (x : Seg) : 0 < x.size := by
  cases x with
  | skip => exact Nat.one_pos
  | event p =>
      rw [size_event]
      omega

end Seg

/-- The number of bytes of a list of segments. -/
def span (segs : List Seg) : Nat := (segs.map Seg.size).sum

/-- The payloads of the events among the segments. -/
def events (segs : List Seg) : List (List UInt8) := segs.filterMap Seg.payload?

@[simp] theorem span_nil : span [] = 0 := rfl

@[simp] theorem span_cons (x : Seg) (segs : List Seg) : span (x :: segs) = x.size + span segs :=
  List.sum_cons

@[simp] theorem span_append (l m : List Seg) : span (l ++ m) = span l + span m := by
  rw [span, List.map_append, List.sum_append]
  rfl

@[simp] theorem span_replicate_skip (n : Nat) : span (List.replicate n Seg.skip) = n := by
  rw [span, List.map_replicate, List.sum_replicate]
  exact Nat.mul_one n

theorem eq_nil_of_span_eq_zero {segs : List Seg} (h : span segs = 0) : segs = [] := by
  cases segs with
  | nil => rfl
  | cons x segs =>
      have hx := x.size_pos
      rw [span_cons] at h
      omega

@[simp] theorem events_append (l m : List Seg) : events (l ++ m) = events l ++ events m :=
  List.filterMap_append

@[simp] theorem events_replicate_skip (n : Nat) : events (List.replicate n Seg.skip) = [] := by
  induction n with
  | zero => rfl
  | succ n ih => exact ih

/-- The bytes from offset `t` on are those of the segments, and no event crosses the end
of the buffer. -/
def Layout (cap : Nat) (buf : Nat → UInt8) : Nat → List Seg → Prop
  | _, [] => True
  | t, x :: segs =>
      t % cap + x.size ≤ cap ∧ (∀ j b, x.bytes[j]? = some b → buf ((t + j) % cap) = b) ∧
        Layout cap buf (t + x.size) segs

/-- Two offsets less than a buffer apart have different positions. -/
theorem mod_ne_mod {cap u v : Nat} (h : u < v) (h' : v < u + cap) : u % cap ≠ v % cap := by
  intro e
  have hdvd : cap ∣ v - u := (Nat.modEq_iff_dvd' h.le).mp e
  have hle : cap ≤ v - u := Nat.le_of_dvd (by omega) hdvd
  omega

/-- Within the room to the end of the buffer, positions count up with offsets. -/
theorem add_mod_of_fits {cap t d : Nat} (h : t % cap + d < cap) : (t + d) % cap = t % cap + d := by
  rw [Nat.add_mod, Nat.mod_eq_of_lt (show d < cap by omega), Nat.mod_eq_of_lt h]

/-- A write outside the segments leaves them alone. -/
theorem Layout.write {cap : Nat} {buf : Nat → UInt8} {t v : Nat} {segs : List Seg} (b : UInt8)
    (h : Layout cap buf t segs) (hv : t + span segs ≤ v) (hv' : v < t + cap) :
    Layout cap (Function.update buf (v % cap) b) t segs := by
  induction segs generalizing t with
  | nil => trivial
  | cons x segs ih =>
      rw [span_cons] at hv
      obtain ⟨hfit, hbytes, hrest⟩ := h
      refine ⟨hfit, fun j c hc ↦ ?_, ih hrest (by omega) (by omega)⟩
      have hj : j < x.size := (List.getElem?_eq_some_iff.mp hc).1
      rw [Function.update_of_ne (mod_ne_mod (by omega) (by omega))]
      exact hbytes j c hc

theorem Layout.append {cap : Nat} {buf : Nat → UInt8} {t : Nat} {l m : List Seg}
    (h : Layout cap buf t l) (h' : Layout cap buf (t + span l) m) : Layout cap buf t (l ++ m) := by
  induction l generalizing t with
  | nil => exact h'
  | cons x l ih =>
      obtain ⟨hfit, hbytes, hrest⟩ := h
      refine ⟨hfit, hbytes, ih hrest ?_⟩
      rw [Nat.add_assoc, ← span_cons]
      exact h'

/-- Padding up to the end of the buffer. -/
theorem layout_skips {cap : Nat} {buf : Nat → UInt8} {t n : Nat} (hn : t % cap + n ≤ cap)
    (h : ∀ j < n, buf (t % cap + j) = kTagSkip) :
    Layout cap buf t (List.replicate n Seg.skip) := by
  induction n generalizing t with
  | zero => trivial
  | succ n ih =>
      have h0 : buf (t % cap) = kTagSkip := h 0 (Nat.succ_pos n)
      refine ⟨by rw [Seg.size_skip]; omega, fun j b hb ↦ ?_, ?_⟩
      · have hj : j < 1 := (List.getElem?_eq_some_iff.mp hb).1
        obtain rfl : j = 0 := by omega
        cases hb
        exact h0
      · rcases Nat.eq_zero_or_pos n with rfl | hpos
        · trivial
        · have hmod : (t + 1) % cap = t % cap + 1 := add_mod_of_fits (by omega)
          refine ih (by rw [Seg.size_skip, hmod]; omega) fun j hj ↦ ?_
          rw [Seg.size_skip, hmod, Nat.add_assoc, Nat.add_comm 1 j]
          exact h (j + 1) (by omega)

/-- An event whose bytes are in place. -/
theorem layout_event {cap : Nat} {buf : Nat → UInt8} {t : Nat} {p : List UInt8}
    (hfit : t % cap + 1 + p.length ≤ cap) (htag : buf (t % cap) = kTagEvent)
    (h : ∀ j b, p[j]? = some b → buf (t % cap + 1 + j) = b) :
    Layout cap buf t [Seg.event p] := by
  refine ⟨by rw [Seg.size_event]; omega, fun j b hb ↦ ?_, trivial⟩
  cases j with
  | zero =>
      cases hb
      exact htag
  | succ j =>
      have hb : p[j]? = some b := hb
      have hj : j < p.length := (List.getElem?_eq_some_iff.mp hb).1
      rw [add_mod_of_fits (by omega), Nat.add_comm j 1, ← Nat.add_assoc]
      exact h j b hb

/-! ## Counters -/

/-- The distance of two counters. -/
theorem toNat_ofNat_sub_ofNat {h t : Nat} (hle : t ≤ h) (hlt : h - t < 2 ^ 64) :
    (UInt64.ofNat h - UInt64.ofNat t).toNat = h - t := by
  rw [← UInt64.ofNat_sub hle, UInt64.toNat_ofNat', Nat.mod_eq_of_lt hlt]

/-- The position of a counter in a buffer whose size is a power of two. -/
theorem toNat_ofNat_and_mask {cap : UInt64} {k : Nat} (hcap : cap.toNat = 2 ^ k) (n : Nat) :
    (UInt64.ofNat n &&& (cap - 1)).toNat = n % cap.toNat := by
  have hlt : 2 ^ k < 2 ^ 64 := hcap ▸ cap.toNat_lt
  have hk : k ≤ 64 := (Nat.pow_lt_pow_iff_right (by omega)).mp hlt |>.le
  have hpos : 1 ≤ 2 ^ k := Nat.one_le_two_pow
  have hmask : (cap - 1).toNat = 2 ^ k - 1 := by
    rw [UInt64.toNat_sub_of_le _ _ (by rw [UInt64.le_iff_toNat_le, hcap]; exact hpos), hcap]
    rfl
  rw [UInt64.toNat_and, hmask, hcap, UInt64.toNat_ofNat', Nat.and_two_pow_sub_one_eq_mod,
    Nat.mod_mod_of_dvd _ (Nat.pow_dvd_pow 2 hk)]

/-! ## The ring -/

/-- The counters of a ring without their wrap-around, and the segments that the consumer
has not passed. -/
structure Virtual where
  head : Cell Nat
  tail : Cell Nat
  segs : List Seg

/-- A ring that was never used. -/
def Virtual.init : Virtual := ⟨⟨0, []⟩, ⟨0, []⟩, []⟩

/-- A ring holds the segments of `v`. -/
structure ThreadRing.Inv (r : ThreadRing) (v : Virtual) : Prop where
  pow : ∃ k, r.capacity.toNat = 2 ^ k
  head_eq : r.head = v.head.map UInt64.ofNat
  tail_eq : r.tail = v.tail.map UInt64.ofNat
  head_mono : v.head.Mono
  tail_mono : v.tail.Mono
  /-- Every value of `head_` that can still be loaded ends a segment. -/
  boundary : ∀ h ∈ v.head.values, ∃ pre, pre <+: v.segs ∧ h = v.tail.latest + span pre
  end_eq : v.head.latest = v.tail.latest + span v.segs
  /-- The producer has not overrun the consumer, as far as it can tell. -/
  room : v.head.latest ≤ v.tail.seen + r.capacity.toNat
  layout : Layout r.capacity.toNat r.buf v.tail.latest v.segs

/-- `n` bytes fit in front of the producer, in one piece. -/
def Fits (r : ThreadRing) (v : Virtual) (n : Nat) : Prop :=
  v.head.latest % r.capacity.toNat + n ≤ r.capacity.toNat ∧
    v.head.latest + n ≤ v.tail.seen + r.capacity.toNat

namespace ThreadRing.Inv

variable {r r' : ThreadRing} {v : Virtual} {i : Nat}

/-- A new ring is empty. -/
theorem new {capacity : UInt64} (hcap : ∃ k, capacity.toNat = 2 ^ k) (buf : Nat → UInt8) :
    ThreadRing.Inv { capacity, buf } .init where
  pow := hcap
  head_eq := rfl
  tail_eq := rfl
  head_mono := List.pairwise_singleton _ 0
  tail_mono := List.pairwise_singleton _ 0
  boundary := fun _ hx ↦ ⟨[], List.prefix_refl _, List.mem_singleton.mp hx⟩
  end_eq := rfl
  room := Nat.zero_le _
  layout := trivial

theorem capacity_pos (h : r.Inv v) : 0 < r.capacity.toNat := by
  obtain ⟨k, hk⟩ := h.pow
  rw [hk]
  exact Nat.two_pow_pos k

theorem capacity_le (h : r.Inv v) : r.capacity.toNat ≤ 2 ^ 63 := by
  obtain ⟨k, hk⟩ := h.pow
  have hlt : 2 ^ k < 2 ^ 64 := hk ▸ r.capacity.toNat_lt
  rw [hk]
  have hk' : k < 64 := (Nat.pow_lt_pow_iff_right (by omega)).mp hlt
  exact Nat.pow_le_pow_right (by omega) (by omega)

theorem toNat_and_mask (h : r.Inv v) (n : Nat) :
    (UInt64.ofNat n &&& r.mask).toNat = n % r.capacity.toNat := by
  obtain ⟨k, hk⟩ := h.pow
  exact toNat_ofNat_and_mask hk n

theorem tail_le_head_seen (h : r.Inv v) : v.tail.latest ≤ v.head.seen := by
  obtain ⟨pre, -, hpre⟩ := h.boundary _ v.head.seen_mem
  omega

theorem head_latest_eq (h : r.Inv v) : r.head.latest = UInt64.ofNat v.head.latest := by
  rw [h.head_eq, Cell.latest_map]

theorem tail_latest_eq (h : r.Inv v) : r.tail.latest = UInt64.ofNat v.tail.latest := by
  rw [h.tail_eq, Cell.latest_map]

theorem tail_seen_eq (h : r.Inv v) : r.tail.seen = UInt64.ofNat v.tail.seen := by
  rw [h.tail_eq, Cell.map_seen]

/-- The producer is ahead of the consumer by at most the capacity. -/
theorem head_le (h : r.Inv v) : v.head.latest ≤ v.tail.latest + r.capacity.toNat := by
  have hroom := h.room
  have hseen := h.tail_mono.seen_le_latest
  omega

/-- `head_ - tail_` in 64-bit arithmetic. -/
theorem toNat_head_sub_tail (h : r.Inv v) :
    (r.head.latest - r.tail.latest).toNat = span v.segs := by
  have hend := h.end_eq
  have hle := h.head_le
  have hcap := h.capacity_le
  rw [h.head_latest_eq, h.tail_latest_eq, toNat_ofNat_sub_ofNat (by omega) (by omega)]
  omega

/-- `head_ - tail_` with the producer's view of `tail_`. -/
theorem toNat_head_sub_tail_seen (h : r.Inv v) :
    (r.head.latest - r.tail.seen).toNat = v.head.latest - v.tail.seen := by
  have hroom := h.room
  have hcap := h.capacity_le
  have hseen := h.tail_mono.seen_le_latest
  have hend := h.end_eq
  rw [h.head_latest_eq, h.tail_seen_eq, toNat_ofNat_sub_ofNat (by omega) (by omega)]

/-- The position of a byte that has not been consumed. -/
theorem toNat_position (h : r.Inv v) (d : Nat) :
    ((r.tail.latest + UInt64.ofNat d) &&& r.mask).toNat =
      (v.tail.latest + d) % r.capacity.toNat := by
  rw [h.tail_latest_eq, ← UInt64.ofNat_add, h.toNat_and_mask]

/-! ### What the consumer reads -/

theorem toNat_readable (h : r.Inv v) : r.readable.toNat = v.head.seen - v.tail.latest := by
  have hseen := h.tail_le_head_seen
  have hlast := h.head_mono.seen_le_latest
  have hle := h.head_le
  have hcap := h.capacity_le
  rw [ThreadRing.readable, h.tail_latest_eq, h.head_eq, Cell.map_seen,
    toNat_ofNat_sub_ofNat hseen (by omega)]

theorem readable_eq_zero_iff (h : r.Inv v) : r.readable = 0 ↔ v.head.seen = v.tail.latest := by
  have hseen := h.tail_le_head_seen
  rw [← UInt64.toNat_inj, h.toNat_readable, UInt64.toNat_zero]
  omega

/-- If something is readable, a whole segment is. -/
theorem exists_segs_eq_cons (h : r.Inv v) (hr : v.tail.latest < v.head.seen) :
    ∃ x rest, v.segs = x :: rest ∧ v.tail.latest + x.size ≤ v.head.seen := by
  obtain ⟨pre, ⟨rest, hpre⟩, he⟩ := h.boundary _ v.head.seen_mem
  cases pre with
  | nil =>
      rw [span_nil] at he
      omega
  | cons x pre =>
      refine ⟨x, pre ++ rest, hpre.symm, ?_⟩
      rw [he, span_cons]
      omega

/-- The byte that `peek_tag` returns is the tag of the first segment. -/
theorem tagByte_eq (h : r.Inv v) {x : Seg} {rest : List Seg} (hs : v.segs = x :: rest) :
    r.tagByte = x.tag := by
  have hl := h.layout
  rw [hs] at hl
  rw [ThreadRing.tagByte, h.tail_latest_eq, h.toNat_and_mask]
  refine hl.2.1 0 x.tag ?_
  cases x <;> rfl

/-- `peek_payload` copies bytes of the first event. -/
theorem payloadByte_eq (h : r.Inv v) {p : List UInt8} {rest : List Seg}
    (hs : v.segs = .event p :: rest) {j : Nat} {b : UInt8} (hb : p[j]? = some b) :
    r.payloadByte j = b := by
  have hl := h.layout
  rw [hs] at hl
  obtain ⟨hfit, hbytes, -⟩ := hl
  have hj : j < p.length := (List.getElem?_eq_some_iff.mp hb).1
  rw [Seg.size_event] at hfit
  have hone : UInt64.ofNat v.tail.latest + 1 = UInt64.ofNat (v.tail.latest + 1) := by
    rw [UInt64.ofNat_add]
    rfl
  have hmod : (v.tail.latest + 1) % r.capacity.toNat = v.tail.latest % r.capacity.toNat + 1 :=
    add_mod_of_fits (by omega)
  rw [ThreadRing.payloadByte, h.tail_latest_eq, hone, h.toNat_and_mask, hmod, Nat.add_assoc,
    ← add_mod_of_fits (by omega)]
  refine hbytes (1 + j) b ?_
  rw [Nat.add_comm]
  exact hb

theorem peekPayload_eq (h : r.Inv v) {p : List UInt8} {rest : List Seg}
    (hs : v.segs = .event p :: rest) {n : Nat} (hn : n ≤ p.length) :
    r.peekPayload n = p.take n := by
  refine List.ext_getElem? fun j ↦ ?_
  rw [ThreadRing.peekPayload, List.getElem?_map, List.getElem?_take]
  rcases Nat.lt_or_ge j n with hj | hj
  · have hjp : j < p.length := by omega
    have hb : p[j]? = some p[j] := List.getElem?_eq_getElem hjp
    rw [List.getElem?_range hj, if_pos hj, hb, Option.map_some, h.payloadByte_eq hs hb]
  · rw [if_neg (by omega), List.getElem?_eq_none (by rw [List.length_range]; exact hj)]
    rfl

end ThreadRing.Inv

end DeadLockDetect.Runtime
