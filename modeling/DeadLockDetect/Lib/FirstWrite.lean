import Mathlib.Order.Bounds.Basic

/-!
# Cells in which the first write counts

A cell of type `Option α` goes through a sequence of steps.  A step may *clear* the
cell; otherwise it may *offer* a value, and the offer is stored only if the cell is
empty.  `FirstWrite clears offers cell` says that `cell n`, the content after `n`
steps, is computed in this way.

The history of such a cell is read off its content by `eq_some_iff`: the cell holds
the earliest offer that no later step clears, and only that.  The names used here
mention no program.
-/

namespace DeadLockDetect

universe u

variable {α : Type u} {clears : Nat → Prop} {offers cell : Nat → Option α}

/-- The contents of a first-write cell. -/
structure FirstWrite (clears : Nat → Prop) (offers cell : Nat → Option α) : Prop where
  /-- The cell is empty before the first step. -/
  zero : cell 0 = none
  /-- A clearing step empties the cell. -/
  clear : ∀ n, clears n → cell (n + 1) = none
  /-- Any other step stores its offer in an empty cell. -/
  keep : ∀ n, ¬ clears n → cell (n + 1) = (cell n).or (offers n)
  /-- A clearing step offers nothing. -/
  idle : ∀ n, clears n → offers n = none

/-- Among the first `n` steps, step `i` made an offer that no later one cleared. -/
def Standing (clears : Nat → Prop) (offers : Nat → Option α) (n i : Nat) : Prop :=
  i < n ∧ (offers i).isSome ∧ ∀ j, i < j → j < n → ¬ clears j

/-- The offers standing after one more step. -/
theorem standing_succ {n i : Nat} (hidle : clears n → offers n = none) :
    Standing clears offers (n + 1) i ↔
      ¬ clears n ∧ (Standing clears offers n i ∨ i = n ∧ (offers n).isSome) := by
  constructor
  · rintro ⟨hi, ho, hj⟩
    rcases Nat.lt_succ_iff_lt_or_eq.mp hi with hlt | rfl
    · refine ⟨hj n hlt (Nat.lt_succ_self n), Or.inl ⟨hlt, ho, ?_⟩⟩
      exact fun j hij hjn ↦ hj j hij (Nat.lt_succ_of_lt hjn)
    · refine ⟨fun hc ↦ ?_, Or.inr ⟨rfl, ho⟩⟩
      rw [hidle hc] at ho
      cases ho
  · rintro ⟨hc, ⟨hi, ho, hj⟩ | ⟨rfl, ho⟩⟩
    · refine ⟨Nat.lt_succ_of_lt hi, ho, fun j hij hjn ↦ ?_⟩
      rcases Nat.lt_succ_iff_lt_or_eq.mp hjn with hlt | rfl
      · exact hj j hij hlt
      · exact hc
    · exact ⟨Nat.lt_succ_self i, ho, fun j hij hjn ↦ by omega⟩

namespace FirstWrite

/-- The cell is full exactly when an offer stands. -/
theorem isSome_iff (h : FirstWrite clears offers cell) (n : Nat) :
    (cell n).isSome ↔ ∃ i, Standing clears offers n i := by
  induction n with
  | zero =>
      rw [h.zero]
      exact ⟨fun hs ↦ (by cases hs), fun ⟨i, hi, _⟩ ↦ absurd hi (Nat.not_lt_zero i)⟩
  | succ n ih =>
      by_cases hc : clears n
      · rw [h.clear n hc]
        refine ⟨fun hs ↦ (by cases hs), fun ⟨i, hi⟩ ↦ ?_⟩
        exact absurd hc ((standing_succ (h.idle n)).mp hi).1
      · rw [h.keep n hc, Option.isSome_or, Bool.or_eq_true, ih]
        constructor
        · rintro (⟨i, hi⟩ | ho)
          · exact ⟨i, (standing_succ (h.idle n)).mpr ⟨hc, Or.inl hi⟩⟩
          · exact ⟨n, (standing_succ (h.idle n)).mpr ⟨hc, Or.inr ⟨rfl, ho⟩⟩⟩
        · rintro ⟨i, hi⟩
          rcases ((standing_succ (h.idle n)).mp hi).2 with hs | ⟨rfl, ho⟩
          · exact Or.inl ⟨i, hs⟩
          · exact Or.inr ho

/-- A step that does not clear the cell leaves the earliest standing offer where it is,
unless there was none. -/
theorem isLeast_succ (h : FirstWrite clears offers cell) {n : Nat} (hc : ¬ clears n) {i : Nat} :
    IsLeast {i | Standing clears offers (n + 1) i} i ↔
      IsLeast {i | Standing clears offers n i} i ∨
        cell n = none ∧ i = n ∧ (offers n).isSome := by
  have hsucc : ∀ j, Standing clears offers (n + 1) j ↔
      Standing clears offers n j ∨ j = n ∧ (offers n).isSome := fun j ↦
    (standing_succ (h.idle n)).trans (and_iff_right hc)
  have hnone : cell n = none ↔ ∀ j, ¬ Standing clears offers n j := by
    rw [← Option.not_isSome_iff_eq_none, h.isSome_iff, not_exists]
  constructor
  · rintro ⟨hi, hle⟩
    rcases (hsucc i).mp hi with hs | ⟨rfl, ho⟩
    · exact Or.inl ⟨hs, fun j hj ↦ hle ((hsucc j).mpr (Or.inl hj))⟩
    · refine Or.inr ⟨hnone.mpr fun j hj ↦ ?_, rfl, ho⟩
      have hij : i ≤ j := hle ((hsucc j).mpr (Or.inl hj))
      exact absurd hj.1 (Nat.not_lt.mpr hij)
  · rintro (⟨hs, hle⟩ | ⟨hn, rfl, ho⟩)
    · refine ⟨(hsucc i).mpr (Or.inl hs), fun j hj ↦ ?_⟩
      rcases (hsucc j).mp hj with hs' | ⟨rfl, -⟩
      · exact hle hs'
      · exact hs.1.le
    · refine ⟨(hsucc i).mpr (Or.inr ⟨rfl, ho⟩), fun j hj ↦ ?_⟩
      rcases (hsucc j).mp hj with hs' | ⟨rfl, -⟩
      · exact absurd hs' (hnone.mp hn j)
      · exact le_refl j

/-- **The content of a first-write cell** is the earliest standing offer. -/
theorem eq_some_iff (h : FirstWrite clears offers cell) (n : Nat) (x : α) :
    cell n = some x ↔
      ∃ i, IsLeast {i | Standing clears offers n i} i ∧ offers i = some x := by
  induction n with
  | zero =>
      rw [h.zero]
      exact ⟨fun hs ↦ (by cases hs), fun ⟨i, hi, _⟩ ↦ absurd hi.1.1 (Nat.not_lt_zero i)⟩
  | succ n ih =>
      by_cases hc : clears n
      · rw [h.clear n hc]
        refine ⟨fun hs ↦ (by cases hs), fun ⟨i, hi, _⟩ ↦ ?_⟩
        exact absurd hc ((standing_succ (h.idle n)).mp hi.1).1
      · rw [h.keep n hc, Option.or_eq_some_iff, ih]
        constructor
        · rintro (⟨i, hi, hx⟩ | ⟨hn, hx⟩)
          · exact ⟨i, (h.isLeast_succ hc).mpr (Or.inl hi), hx⟩
          · exact ⟨n, (h.isLeast_succ hc).mpr (Or.inr ⟨hn, rfl, by rw [hx]; rfl⟩), hx⟩
        · rintro ⟨i, hi, hx⟩
          rcases (h.isLeast_succ hc).mp hi with hl | ⟨hn, rfl, -⟩
          · exact Or.inl ⟨i, hl, hx⟩
          · exact Or.inr ⟨hn, hx⟩

end FirstWrite

end DeadLockDetect
