import Mathlib.Data.List.Basic
import Mathlib.Order.Lattice

/-!
# Bisection

`bisectRight` halves an interval of positions until nothing is left of it.  What it returns is
said by `bisectRight_append`, for any list that falls into values up to `x` and values above it;
such a list need not be sorted.

The names used here mention no program.
-/

namespace DeadLockDetect.Bisect

universe u

variable {α : Type u} [LinearOrder α]

/-- At most `n` halvings of the interval from `lo` to `hi`. -/
def bisectLoop (a : List α) (x : α) : Nat → Nat → Nat → Nat
  | 0, lo, _ => lo
  | n + 1, lo, hi =>
      if lo < hi then
        match a[(lo + hi) / 2]? with
        | none => lo
        | some y =>
            if x < y then bisectLoop a x n lo ((lo + hi) / 2)
            else bisectLoop a x n ((lo + hi) / 2 + 1) hi
      else lo

/-- The position behind the values up to `x`. -/
def bisectRight (a : List α) (x : α) : Nat := bisectLoop a x a.length 0 a.length

variable {pre post : List α} {x : α}

/-- The boundary stays inside the interval. -/
theorem bisectLoop_append (hpre : ∀ y ∈ pre, y ≤ x) (hpost : ∀ y ∈ post, x < y) {n lo hi : Nat}
    (hlo : lo ≤ pre.length) (hhi : pre.length ≤ hi) (hlen : hi ≤ (pre ++ post).length)
    (hn : hi - lo ≤ n) : bisectLoop (pre ++ post) x n lo hi = pre.length := by
  induction n generalizing lo hi with
  | zero =>
      rw [bisectLoop]
      omega
  | succ n ih =>
      rw [bisectLoop]
      split
      · rename_i hlt
        have hmid : (lo + hi) / 2 < (pre ++ post).length := by omega
        rw [List.getElem?_eq_getElem hmid]
        dsimp only
        by_cases hin : (lo + hi) / 2 < pre.length
        · have hle : (pre ++ post)[(lo + hi) / 2] ≤ x := by
            rw [List.getElem_append_left hin]
            exact hpre _ (List.getElem_mem hin)
          rw [if_neg (not_lt.mpr hle)]
          exact ih (by omega) hhi hlen (by omega)
        · have hgt : x < (pre ++ post)[(lo + hi) / 2] := by
            rw [List.getElem_append_right (Nat.le_of_not_lt hin)]
            exact hpost _ (List.getElem_mem _)
          rw [if_pos hgt]
          exact ih hlo (Nat.le_of_not_lt hin) (by omega) (by omega)
      · omega

/-- Bisection finds the boundary between the values up to `x` and those above it. -/
theorem bisectRight_append (hpre : ∀ y ∈ pre, y ≤ x) (hpost : ∀ y ∈ post, x < y) :
    bisectRight (pre ++ post) x = pre.length :=
  bisectLoop_append hpre hpost (Nat.zero_le _) (by rw [List.length_append]; omega) (Nat.le_refl _)
    (by omega)

end DeadLockDetect.Bisect
