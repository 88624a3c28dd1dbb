import Mathlib.Algebra.Group.Int.Defs
import Mathlib.Algebra.GroupWithZero.Nat
import Mathlib.Data.List.Basic
import DeadLockDetect.Lib.Loop

/-!
# The frame-pointer walk

`capture_backtrace_fast` of `backtrace.cpp`: starting from the frame pointer of the caller it
follows the saved frame pointers on the stack and collects the return addresses.

The stack is not trusted.  `IsFrame` says when a frame can be used, `frames` is the chain of these
frames and `pointers` are the frame pointers that one comes to on the way.  The walk keeps to the
chain unless it comes to one of the two highest pointers, for which the bounds check of
`fp_in_stack` wraps around (`captureBacktraceFast_safe_iff`).

## What is transcribed

* `walkTurn` is the body of the loop.  `mem` gives the word at an address; `reads` records the
  addresses that are read and influences nothing.
* The bounds of the stack are those that `init_stack_bounds` has found.  The fallback to
  `backtrace` of the C library, for a thread without bounds, is left out.
* `skip`, `max_depth` and `idx` are integers; that `skip + max_depth` is an `int` is up to the
  caller.
-/

namespace DeadLockDetect.Runtime

/-- The stack of a thread. -/
structure StackBounds where
  lo : UInt64
  hi : UInt64
deriving DecidableEq, Repr

/-- The test before a frame is read. -/
def fpInStack (stack : StackBounds) (fp : UInt64) : Bool :=
  if stack.hi = 0 then false else stack.lo ≤ fp && fp + 16 ≤ stack.hi

/-- The variables of the walk. -/
structure Walk where
  fp : UInt64
  /-- The return addresses written; their number is `produced`. -/
  out : List UInt64 := []
  idx : Int := 0
  /-- The addresses read. -/
  reads : List UInt64 := []
deriving DecidableEq, Repr

section

variable (stack : StackBounds) (mem : UInt64 → UInt64) (skip maxDepth : Int) (outCap : UInt64)

/-- One turn of the loop. -/
def walkTurn (s : Walk) : Walk ⊕ Walk :=
  if ¬ s.idx < skip + maxDepth then .inl s
  else if s.fp &&& 7 ≠ 0 then .inl s
  else if ¬ fpInStack stack s.fp then .inl s
  else
    let nextFp := mem s.fp
    let ra := mem (s.fp + 8)
    let reads := s.reads ++ [s.fp, s.fp + 8]
    let out := if skip ≤ s.idx then s.out ++ [ra] else s.out
    if ra = 0 then .inl { s with reads }
    else if skip ≤ s.idx ∧ (maxDepth ≤ out.length ∨ outCap.toNat ≤ out.length) then
      .inl { s with out, reads }
    else if nextFp ≤ s.fp then .inl { s with out, reads }
    else .inr { fp := nextFp, out, idx := s.idx + 1, reads }

variable {stack mem skip maxDepth outCap} in
theorem walkTurn_inr {s s' : Walk} (h : walkTurn stack mem skip maxDepth outCap s = .inr s') :
    s.idx < skip + maxDepth ∧ s'.idx = s.idx + 1 := by
  unfold walkTurn at h
  dsimp only at h
  split at h
  · cases h
  · rename_i hidx
    split_ifs at h <;> cases h <;> exact ⟨not_not.mp hidx, rfl⟩

theorem isSome_walk (s : Walk) : (Loop.run (walkTurn stack mem skip maxDepth outCap)
    ((skip + maxDepth - s.idx).toNat + 1) s).isSome := by
  refine Loop.isSome_run (fun s ↦ (skip + maxDepth - s.idx).toNat) ?_ (Nat.lt_succ_self _)
  intro s s' h
  obtain ⟨hidx, hnext⟩ := walkTurn_inr h
  omega

/-- `capture_backtrace_fast`, from the frame pointer `fp`. -/
def captureBacktraceFast (fp : UInt64) : Walk :=
  if maxDepth ≤ 0 ∨ outCap = 0 then { fp }
  else Loop.result (walkTurn stack mem skip maxDepth outCap) ((skip + maxDepth - 0).toNat + 1) { fp }
    (isSome_walk stack mem skip maxDepth outCap { fp })

end

/-! ## The chain of frames -/

/-- The word at `addr` is inside the stack. -/
def StackBounds.Inside (stack : StackBounds) (addr : UInt64) : Prop :=
  stack.lo ≤ addr ∧ addr.toNat + 8 ≤ stack.hi.toNat

instance (stack : StackBounds) (addr : UInt64) : Decidable (stack.Inside addr) :=
  inferInstanceAs (Decidable (_ ∧ _))

section

variable (stack : StackBounds) (mem : UInt64 → UInt64)

/-- There is a frame at `fp`: it is aligned, both its words are inside the stack, and its return
address is not zero. -/
structure IsFrame (fp : UInt64) : Prop where
  aligned : fp.toNat % 8 = 0
  lo_le : stack.lo ≤ fp
  le_hi : fp.toNat + 16 ≤ stack.hi.toNat
  ra_ne : mem (fp + 8) ≠ 0

theorem isFrame_iff (fp : UInt64) : IsFrame stack mem fp ↔ fp.toNat % 8 = 0 ∧ stack.lo ≤ fp ∧
    fp.toNat + 16 ≤ stack.hi.toNat ∧ mem (fp + 8) ≠ 0 :=
  ⟨fun ⟨h₁, h₂, h₃, h₄⟩ ↦ ⟨h₁, h₂, h₃, h₄⟩, fun ⟨h₁, h₂, h₃, h₄⟩ ↦ ⟨h₁, h₂, h₃, h₄⟩⟩

instance (fp : UInt64) : Decidable (IsFrame stack mem fp) :=
  decidable_of_iff _ (isFrame_iff stack mem fp).symm

/-- The chain of frames: it ends before the first pointer without a frame, and after the first
frame whose saved pointer is not higher than its own. -/
def frames (fp : UInt64) : List UInt64 :=
  if IsFrame stack mem fp then
    if fp < mem fp then fp :: frames (mem fp) else [fp]
  else []
termination_by stack.hi.toNat - fp.toNat
decreasing_by
  rename_i hframe hlt
  have := hframe.le_hi
  have := UInt64.lt_iff_toNat_lt.mp hlt
  omega

/-- The first `n` frame pointers: after a frame comes the pointer that it saves, if that is higher. -/
def pointers : Nat → UInt64 → List UInt64
  | 0, _ => []
  | n + 1, fp => fp :: if IsFrame stack mem fp ∧ fp < mem fp then pointers n (mem fp) else []

/-- The test `fp_in_stack` accepts a pointer at the end of the address space. -/
def StackBounds.Wraps (stack : StackBounds) (fp : UInt64) : Prop :=
  stack.lo ≤ fp ∧ (fp.toNat = 2 ^ 64 - 16 ∨ fp.toNat = 2 ^ 64 - 8 ∧ 8 ≤ stack.hi.toNat)

instance (fp : UInt64) : Decidable (stack.Wraps fp) := inferInstanceAs (Decidable (_ ∧ (_ ∨ _ ∧ _)))

end

section

variable {stack : StackBounds} {mem : UInt64 → UInt64} {fp : UInt64}

/-- What the test accepts, if the pointer is aligned. -/
theorem fpInStack_iff (hhi : stack.hi ≠ 0) (ha : fp.toNat % 8 = 0) : fpInStack stack fp = true ↔
    stack.lo ≤ fp ∧ fp.toNat + 16 ≤ stack.hi.toNat ∨ stack.Wraps fp := by
  have hfp := fp.toNat_lt
  have hstack := stack.hi.toNat_lt
  have hpos : stack.hi.toNat ≠ 0 := fun h ↦ hhi (UInt64.toNat_inj.mp h)
  have hadd : (fp + 16).toNat = (fp.toNat + 16) % 2 ^ 64 := UInt64.toNat_add fp 16
  rw [fpInStack, if_neg hhi, Bool.and_eq_true, decide_eq_true_eq, decide_eq_true_eq,
    UInt64.le_iff_toNat_le (a := fp + 16), hadd, StackBounds.Wraps, ← and_or_left]
  refine and_congr_right fun _ ↦ ?_
  omega

theorem IsFrame.not_wraps (h : IsFrame stack mem fp) : ¬ stack.Wraps fp := by
  have hhi := h.le_hi
  have hlt := stack.hi.toNat_lt
  rintro ⟨-, hw⟩
  omega

/-- A pointer that wraps around leads to a read outside the stack. -/
theorem StackBounds.Wraps.exists_not_inside (h : stack.Wraps fp) :
    ∃ a ∈ [fp, fp + 8], ¬ stack.Inside a := by
  have hlt := stack.hi.toNat_lt
  have hadd : (fp + 8).toNat = (fp.toNat + 8) % 2 ^ 64 := UInt64.toNat_add fp 8
  rcases h.2 with hfp | ⟨hfp, -⟩
  · refine ⟨fp + 8, by simp, ?_⟩
    rintro ⟨-, hle⟩
    omega
  · refine ⟨fp, by simp, ?_⟩
    rintro ⟨-, hle⟩
    omega

/-- The words of a frame whose pointer does not wrap around are inside the stack. -/
theorem inside_of_bounds (hlo : stack.lo ≤ fp) (hhi : fp.toNat + 16 ≤ stack.hi.toNat) :
    ∀ a ∈ [fp, fp + 8], stack.Inside a := by
  have hlt := stack.hi.toNat_lt
  have hadd : (fp + 8).toNat = (fp.toNat + 8) % 2 ^ 64 := UInt64.toNat_add fp 8
  intro a ha
  rcases List.mem_pair.mp ha with rfl | rfl
  · exact ⟨hlo, by omega⟩
  · refine ⟨UInt64.le_iff_toNat_le.mpr ?_, by omega⟩
    have := UInt64.le_iff_toNat_le.mp hlo
    omega

theorem frames_of_not (h : ¬ IsFrame stack mem fp) : frames stack mem fp = [] := by
  rw [frames, if_neg h]

theorem frames_of_lt (h : IsFrame stack mem fp) (hlt : fp < mem fp) :
    frames stack mem fp = fp :: frames stack mem (mem fp) := by
  rw [frames, if_pos h, if_pos hlt]

theorem frames_of_le (h : IsFrame stack mem fp) (hle : mem fp ≤ fp) :
    frames stack mem fp = [fp] := by
  rw [frames, if_pos h, if_neg (UInt64.not_lt.mpr hle)]

theorem exists_frames_eq_cons (h : IsFrame stack mem fp) :
    ∃ rest, frames stack mem fp = fp :: rest := by
  by_cases hlt : fp < mem fp
  · exact ⟨_, frames_of_lt h hlt⟩
  · exact ⟨[], frames_of_le h (UInt64.not_lt.mp hlt)⟩

end

/-! ## The walk -/

/-- The return addresses of some frames. -/
def returnAddresses (mem : UInt64 → UInt64) (fps : List UInt64) : List UInt64 :=
  fps.map fun fp ↦ mem (fp + 8)

theorem length_returnAddresses (mem : UInt64 → UInt64) (fps : List UInt64) :
    (returnAddresses mem fps).length = fps.length := List.length_map _

theorem returnAddresses_append (mem : UInt64 → UInt64) (fps fps' : List UInt64) :
    returnAddresses mem (fps ++ fps') = returnAddresses mem fps ++ returnAddresses mem fps' :=
  List.map_append

theorem returnAddresses_singleton (mem : UInt64 → UInt64) (fp : UInt64) :
    returnAddresses mem [fp] = [mem (fp + 8)] := rfl

section

variable (stack : StackBounds) (mem : UInt64 → UInt64) (fp : UInt64) (k m : Nat)

/-- None of the pointers that the walk comes to wraps around: `k` frames are skipped and at most
`m` are collected. -/
def Sound : Prop := ∀ p ∈ pointers stack mem (k + m) fp, ¬ stack.Wraps p

/-- The walk reads inside the stack only, and collects what it should. -/
structure Faithful (r : Walk) : Prop where
  inside : ∀ a ∈ r.reads, stack.Inside a
  length_le : r.out.length ≤ m
  out : r.out = ((returnAddresses mem (frames stack mem fp)).drop k).take m

/-- Between two turns: the walk has passed the frames `done`. -/
structure Passed (done : List UInt64) (s : Walk) : Prop where
  frames : frames stack mem fp = done ++ frames stack mem s.fp
  pointers : pointers stack mem (k + m) fp = done ++ pointers stack mem (k + m - done.length) s.fp
  room : done.length < k + m
  valid : ∀ f ∈ done, IsFrame stack mem f
  idx : s.idx = done.length
  out : s.out = (returnAddresses mem done).drop k
  inside : ∀ a ∈ s.reads, stack.Inside a

variable {stack mem fp k m}

namespace Passed

variable {done : List UInt64} {s : Walk}

/-- The next pointer is one that the walk comes to. -/
theorem fp_mem (h : Passed stack mem fp k m done s) :
    s.fp ∈ Runtime.pointers stack mem (k + m) fp := by
  obtain ⟨n, hn⟩ := Nat.exists_eq_add_of_lt h.room
  rw [h.pointers, hn, show done.length + n + 1 - done.length = n + 1 by omega]
  exact List.mem_append_right _ List.mem_cons_self

/-- If no other pointer follows, the pointers are all sound. -/
theorem sound (h : Passed stack mem fp k m done s) (hfp : ¬ stack.Wraps s.fp)
    (hlast : done.length + 1 = k + m ∨ ¬ (IsFrame stack mem s.fp ∧ s.fp < mem s.fp)) :
    Sound stack mem fp k m := by
  obtain ⟨n, hn⟩ := Nat.exists_eq_add_of_lt h.room
  have hnext : Runtime.pointers stack mem (k + m - done.length) s.fp = [s.fp] := by
    rw [hn, show done.length + n + 1 - done.length = n + 1 by omega, Runtime.pointers]
    rcases hlast with hlen | hno
    · rw [show n = 0 by omega, Runtime.pointers, ite_self]
    · rw [if_neg hno]
  intro p hp
  rw [h.pointers, hnext, List.mem_append, List.mem_singleton] at hp
  rcases hp with hp | rfl
  · exact (h.valid p hp).not_wraps
  · exact hfp

/-- The chain ends at the next pointer. -/
theorem faithful_of_not (h : Passed stack mem fp k m done s) (hno : ¬ IsFrame stack mem s.fp)
    {reads : List UInt64} (hreads : ∀ a ∈ reads, stack.Inside a) :
    Faithful stack mem fp k m { s with reads := reads } := by
  have hlen : s.out.length ≤ m := by
    rw [h.out, List.length_drop, length_returnAddresses]
    have := h.room
    omega
  refine ⟨hreads, hlen, ?_⟩
  rw [h.frames, frames_of_not hno, List.append_nil, ← h.out, List.take_of_length_le hlen]

/-- What is collected up to the next frame. -/
theorem out_concat (h : Passed stack mem fp k m done s) :
    (if (k : Int) ≤ s.idx then s.out ++ [mem (s.fp + 8)] else s.out) =
      (returnAddresses mem (done ++ [s.fp])).drop k := by
  have hlen := length_returnAddresses mem done
  rw [h.idx, returnAddresses_append, returnAddresses_singleton]
  split
  · rename_i hk
    rw [List.drop_append_of_le_length (by omega), h.out]
  · rename_i hk
    rw [h.out, List.drop_eq_nil_of_le (by omega),
      List.drop_eq_nil_of_le (by simp only [List.length_append, hlen, List.length_singleton]; omega)]

theorem length_out_concat (done : List UInt64) (p : UInt64) :
    ((returnAddresses mem (done ++ [p])).drop k).length = done.length + 1 - k := by
  rw [List.length_drop, length_returnAddresses, List.length_append, List.length_singleton]

variable {reads : List UInt64}

/-- The caller has all it wants after the next frame. -/
theorem faithful_of_full (h : Passed stack mem fp k m done s) (hframe : IsFrame stack mem s.fp)
    (hfull : done.length + 1 = k + m) (hm : 1 ≤ m) (hreads : ∀ a ∈ reads, stack.Inside a) :
    Faithful stack mem fp k m
      { s with out := (returnAddresses mem (done ++ [s.fp])).drop k, reads := reads } := by
  have hlen : ((returnAddresses mem (done ++ [s.fp])).drop k).length = m := by
    rw [length_out_concat]
    omega
  have hk : k ≤ (returnAddresses mem (done ++ [s.fp])).length := by
    rw [length_returnAddresses, List.length_append, List.length_singleton]
    omega
  obtain ⟨rest, hrest⟩ := exists_frames_eq_cons hframe
  refine ⟨hreads, Nat.le_of_eq hlen, ?_⟩
  rw [h.frames, hrest, List.append_cons done s.fp rest,
    returnAddresses_append mem (done ++ [s.fp]) rest, List.drop_append_of_le_length hk]
  exact (List.take_left' hlen).symm

/-- The chain ends after the next frame. -/
theorem faithful_of_le (h : Passed stack mem fp k m done s) (hframe : IsFrame stack mem s.fp)
    (hle : mem s.fp ≤ s.fp) (hmore : done.length + 1 ≤ k + m)
    (hreads : ∀ a ∈ reads, stack.Inside a) :
    Faithful stack mem fp k m
      { s with out := (returnAddresses mem (done ++ [s.fp])).drop k, reads := reads } := by
  have hlen : ((returnAddresses mem (done ++ [s.fp])).drop k).length ≤ m := by
    rw [length_out_concat]
    omega
  refine ⟨hreads, hlen, ?_⟩
  rw [h.frames, frames_of_le hframe hle, List.take_of_length_le hlen]

/-- On to the next frame. -/
theorem next (h : Passed stack mem fp k m done s) (hframe : IsFrame stack mem s.fp)
    (hup : s.fp < mem s.fp) (hroom : done.length + 1 < k + m)
    (hreads : ∀ a ∈ reads, stack.Inside a) :
    Passed stack mem fp k m (done ++ [s.fp])
      { fp := mem s.fp, out := (returnAddresses mem (done ++ [s.fp])).drop k, idx := s.idx + 1,
        reads := reads } := by
  obtain ⟨j, hj⟩ := Nat.exists_eq_add_of_lt h.room
  have hlen : (done ++ [s.fp]).length = done.length + 1 := List.length_append
  refine ⟨?_, ?_, hlen ▸ hroom, ?_, ?_, rfl, hreads⟩
  · rw [h.frames, frames_of_lt hframe hup, List.append_assoc, List.singleton_append]
  · rw [h.pointers, hlen, hj, show done.length + j + 1 - done.length = j + 1 by omega,
      show done.length + j + 1 - (done.length + 1) = j by omega, Runtime.pointers,
      if_pos ⟨hframe, hup⟩, List.append_assoc, List.singleton_append]
  · intro f hf
    rcases List.mem_append.mp hf with hf | hf
    · exact h.valid f hf
    · exact List.mem_singleton.mp hf ▸ hframe
  · rw [h.idx, hlen]
    rfl

end Passed

/-- What a turn of the walk leads to: it goes on, or it ends as it should, unless it has read
outside the stack. -/
def Walk.Post (stack : StackBounds) (mem : UInt64 → UInt64) (fp : UInt64) (k m : Nat) :
    Walk ⊕ Walk → Prop
  | .inl r => Sound stack mem fp k m ∧ Faithful stack mem fp k m r ∨
      ¬ Sound stack mem fp k m ∧ ∃ a ∈ r.reads, ¬ stack.Inside a
  | .inr s => (∃ done, Passed stack mem fp k m done s) ∨
      ¬ Sound stack mem fp k m ∧ ∃ a ∈ s.reads, ¬ stack.Inside a

variable {n : Nat} {outCap : UInt64} {s : Walk}

/-- A walk that has read outside the stack has done so for good. -/
theorem post_of_reads {t : Walk ⊕ Walk} (h : ¬ Sound stack mem fp k m)
    (hreads : ∃ a ∈ (t.elim Walk.reads Walk.reads), ¬ stack.Inside a) :
    Walk.Post stack mem fp k m t := by
  cases t with
  | inl r => exact Or.inr ⟨h, hreads⟩
  | inr s => exact Or.inr ⟨h, hreads⟩

theorem reads_subset_walkTurn (skip maxDepth : Int) (s : Walk) :
    s.reads ⊆ (walkTurn stack mem skip maxDepth outCap s).elim Walk.reads Walk.reads := by
  unfold walkTurn
  dsimp only
  split_ifs
  all_goals
    first
    | exact List.Subset.refl _
    | exact List.subset_append_left _ _

/-- One turn of the walk. -/
theorem Passed.post (h : Passed stack mem fp k (min n outCap.toNat) done s) (hhi : stack.hi ≠ 0)
    (hm : 1 ≤ min n outCap.toNat) :
    Walk.Post stack mem fp k (min n outCap.toNat)
      (walkTurn stack mem (k : Int) (n : Int) outCap s) := by
  have hroom := h.room
  have hidx := h.idx
  have hands : s.fp &&& 7 = 0 ↔ s.fp.toNat % 8 = 0 := by
    rw [← UInt64.toNat_inj, UInt64.toNat_and]
    exact iff_of_eq (congrArg (· = 0) (Nat.and_two_pow_sub_one_eq_mod s.fp.toNat 3))
  unfold walkTurn
  rw [if_neg (by omega : ¬ ¬ s.idx < (k : Int) + n)]
  split
  · -- the pointer is misaligned
    rename_i ha
    have hno : ¬ IsFrame stack mem s.fp := fun hf ↦ ha (hands.mpr hf.aligned)
    have hw : ¬ stack.Wraps s.fp := by
      rintro ⟨-, hw⟩
      refine ha (hands.mpr ?_)
      omega
    exact Or.inl ⟨h.sound hw (Or.inr fun hf ↦ hno hf.1), h.faithful_of_not hno h.inside⟩
  rename_i ha
  have ha : s.fp.toNat % 8 = 0 := hands.mp (not_not.mp ha)
  have htest := fpInStack_iff hhi ha
  split
  · -- the pointer is outside the stack
    rename_i hout
    rw [htest, not_or] at hout
    have hno : ¬ IsFrame stack mem s.fp := fun hf ↦ hout.1 ⟨hf.lo_le, hf.le_hi⟩
    exact Or.inl ⟨h.sound hout.2 (Or.inr fun hf ↦ hno hf.1), h.faithful_of_not hno h.inside⟩
  rename_i hin
  by_cases hw : stack.Wraps s.fp
  · -- the test wraps around
    obtain ⟨a, ha, hna⟩ := hw.exists_not_inside
    refine post_of_reads (fun hs ↦ hs s.fp h.fp_mem hw) ⟨a, ?_, hna⟩
    dsimp only
    split_ifs <;> exact List.mem_append_right _ ha
  obtain ⟨hlo, hle⟩ := (htest.mp (not_not.mp hin)).resolve_right hw
  have hinside : ∀ a ∈ s.reads ++ [s.fp, s.fp + 8], stack.Inside a :=
    List.forall_mem_append.mpr ⟨h.inside, inside_of_bounds hlo hle⟩
  dsimp only
  split
  · -- the return address is zero
    rename_i hra
    have hno : ¬ IsFrame stack mem s.fp := fun hf ↦ hf.ra_ne hra
    exact Or.inl ⟨h.sound hw (Or.inr fun hf ↦ hno hf.1), h.faithful_of_not hno hinside⟩
  rename_i hra
  have hframe : IsFrame stack mem s.fp := ⟨ha, hlo, hle, hra⟩
  have hlen : ((returnAddresses mem (done ++ [s.fp])).drop k).length = done.length + 1 - k :=
    Passed.length_out_concat done s.fp
  rw [h.out_concat]
  split
  · -- the caller has all it wants
    rename_i hfull
    rw [hlen] at hfull
    have hdone : done.length + 1 = k + min n outCap.toNat := by omega
    exact Or.inl ⟨h.sound hw (Or.inl hdone), h.faithful_of_full hframe hdone hm hinside⟩
  rename_i hmore
  rw [hlen] at hmore
  split
  · -- the saved pointer is not higher
    rename_i hback
    exact Or.inl ⟨h.sound hw (Or.inr fun hf ↦ UInt64.not_lt.mpr hback hf.2),
      h.faithful_of_le hframe hback hroom hinside⟩
  · -- on to the next frame
    rename_i hup
    exact Or.inl ⟨done ++ [s.fp], h.next hframe (UInt64.not_le.mp hup) (by omega) hinside⟩

end

/-- **The walk is safe exactly when no pointer wraps around.**  For every content of the stack: the
walk reads inside the stack only and collects the return addresses of the chain, after those
skipped and as many as there is room for, exactly when none of the frame pointers that it comes to
is one of the two highest that the bounds check accepts. -/
theorem captureBacktraceFast_safe_iff (stack : StackBounds) (hstack : stack.lo < stack.hi)
    (mem : UInt64 → UInt64) (fp : UInt64) (skip maxDepth : Int) (outCap : UInt64)
    (hskip : 0 ≤ skip) (hdepth : 1 ≤ maxDepth) (hcap : 1 ≤ outCap) :
    let r := captureBacktraceFast stack mem skip maxDepth outCap fp
    let m := min maxDepth.toNat outCap.toNat
    ((∀ a ∈ r.reads, stack.Inside a) ∧ r.out.length ≤ m ∧
        r.out = ((returnAddresses mem (frames stack mem fp)).drop skip.toNat).take m) ↔
      ∀ p ∈ pointers stack mem (skip.toNat + m) fp, ¬ stack.Wraps p := by
  obtain ⟨k, rfl⟩ := Int.eq_ofNat_of_zero_le hskip
  obtain ⟨n, rfl⟩ := Int.eq_ofNat_of_zero_le (Int.le_trans Int.one_nonneg hdepth)
  have hhi : stack.hi ≠ 0 := by
    rintro he
    rw [he] at hstack
    exact absurd (UInt64.lt_iff_toNat_lt.mp hstack) (Nat.not_lt_zero _)
  have hcap := UInt64.le_iff_toNat_le.mp hcap
  have hone : (1 : UInt64).toNat = 1 := rfl
  have hcap0 : outCap ≠ 0 := by
    rintro rfl
    exact absurd hcap (by decide)
  have hm : 1 ≤ min n outCap.toNat := by omega
  intro r m
  have hpost : Walk.Post stack mem fp k (min n outCap.toNat) (.inl r) := by
    have hr : r = Loop.result _ _ _ (isSome_walk stack mem k n outCap { fp }) :=
      if_neg (not_or.mpr ⟨by omega, hcap0⟩)
    rw [hr]
    refine Loop.result_of_inv (I := fun s ↦ Walk.Post stack mem fp k (min n outCap.toNat) (.inr s))
      (Q := fun r ↦ Walk.Post stack mem fp k (min n outCap.toNat) (.inl r)) ?_ ?_ _ ?_
    · rintro s s' (⟨done, h⟩ | ⟨hs, a, ha, hna⟩) ht
      · exact ht ▸ h.post hhi hm
      · exact ht ▸ post_of_reads hs ⟨a, reads_subset_walkTurn _ _ s ha, hna⟩
    · rintro s s' (⟨done, h⟩ | ⟨hs, a, ha, hna⟩) ht
      · exact ht ▸ h.post hhi hm
      · exact ht ▸ post_of_reads hs ⟨a, reads_subset_walkTurn _ _ s ha, hna⟩
    · refine Or.inl ⟨[], rfl, rfl, ?_, nofun, rfl, (List.drop_nil).symm, nofun⟩
      rw [List.length_nil]
      omega
  constructor
  · rintro ⟨hinside, -⟩
    rcases hpost with ⟨hs, -⟩ | ⟨-, a, ha, hna⟩
    · exact hs
    · exact absurd (hinside a ha) hna
  · intro hs
    rcases hpost with ⟨-, h⟩ | ⟨hns, -⟩
    · exact ⟨h.inside, h.length_le, h.out⟩
    · exact absurd hs hns

/-- A stack of one page. -/
def page : StackBounds := ⟨0x1000, 0x2000⟩

/-- A frame at `0x1000` that saves the pointer `saved`, and a frame at `0x1010` that saves a null
pointer. -/
def pageWords (saved : UInt64) (addr : UInt64) : UInt64 :=
  if addr = 0x1000 then saved else if addr = 0x1008 then 0x401000
  else if addr = 0x1018 then 0x402000 else 0

theorem captureBacktraceFast_safe_iff_twoFrames :
    let r := captureBacktraceFast page (pageWords 0x1010) 1 4 64 0x1000
    (∀ a ∈ r.reads, page.Inside a) ∧ r.out.length ≤ 4 ∧
      r.out =
        ((returnAddresses (pageWords 0x1010) (frames page (pageWords 0x1010) 0x1000)).drop 1).take
        4 := by
  have hall : ((pointers page (pageWords 0x1010) 5 0x1000).all fun p ↦ ¬ page.Wraps p) = true := by
    decide
  exact (captureBacktraceFast_safe_iff page (by decide) (pageWords 0x1010) 0x1000 1 4 64 (by decide)
    (by decide) (by decide)).mpr fun p hp ↦ of_decide_eq_true (List.all_eq_true.mp hall p hp)

/-- A saved frame pointer of `-16` passes the bounds check, and the walk reads there. -/
theorem not_captureBacktraceFast_safe :
    ¬ ∀ (stack : StackBounds) (mem : UInt64 → UInt64) (fp : UInt64)
    (skip maxDepth : Int) (outCap : UInt64), 0 < stack.lo → stack.lo < stack.hi → 0 ≤ skip →
      1 ≤ maxDepth → skip + maxDepth < 2 ^ 31 → 1 ≤ outCap →
        let r := captureBacktraceFast stack mem skip maxDepth outCap fp
        let m := min maxDepth.toNat outCap.toNat
        (∀ a ∈ r.reads, stack.Inside a) ∧ r.out.length ≤ m ∧
          r.out = ((returnAddresses mem (frames stack mem fp)).drop skip.toNat).take m := by
  intro h
  have hsafe := h page (pageWords (0 - 16)) 0x1000 0 2 64 (by decide) (by decide) (by decide)
    (by decide) (by decide) (by decide)
  exact absurd (hsafe.1 (0 - 16) (by decide)) (by decide)

end DeadLockDetect.Runtime
