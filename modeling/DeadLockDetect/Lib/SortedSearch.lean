import DeadLockDetect.Lib.Bisect
import Mathlib.Data.List.Sort

/-!
# Bisection in a sorted table

A list is sorted by a key, and bisection looks for the last element whose key is not above `x`.
`insertionSort` is stable, so the position of an element is known before sorting: it is its `rank`.
`bisectRight_eq_rank_iff` says when bisection stops behind a given element.

The names used here mention no program.
-/

namespace DeadLockDetect.Bisect

universe u v

variable {α : Type u} {κ : Type v} [LinearOrder κ] {f : α → κ}

/-- The list sorted by the key `f`. -/
def sortBy (f : α → κ) (l : List α) : List α := l.insertionSort fun a b ↦ f a ≤ f b

/-- The position in the sorted list of an element that lies between `pre` and `post`. -/
def rank (f : α → κ) (pre : List α) (a : α) (post : List α) : Nat :=
  pre.countP (fun b ↦ f b ≤ f a) + post.countP fun b ↦ f b < f a

theorem pairwise_sortBy (f : α → κ) (l : List α) :
    (sortBy f l).Pairwise fun a b ↦ f a ≤ f b := by
  have htotal : Std.Total fun a b ↦ f a ≤ f b := ⟨fun a b ↦ le_total (f a) (f b)⟩
  have htrans : IsTrans α fun a b ↦ f a ≤ f b := ⟨fun _ _ _ hab hbc ↦ hab.trans hbc⟩
  exact List.pairwise_insertionSort _ l

theorem perm_sortBy (f : α → κ) (l : List α) : (sortBy f l).Perm l :=
  List.perm_insertionSort _ l

/-- Sorting keeps the order of the elements with one key. -/
theorem filter_eq_sortBy (f : α → κ) (l : List α) (x : κ) :
    (sortBy f l).filter (fun a ↦ f a = x) = l.filter fun a ↦ f a = x := by
  have hkey (a : α) (ha : a ∈ l.filter fun a ↦ f a = x) : f a = x :=
    of_decide_eq_true (List.mem_filter.mp ha).2
  have hpair : (l.filter fun a ↦ f a = x).Pairwise fun a b ↦ f a ≤ f b :=
    List.pairwise_of_forall_mem_list fun a ha b hb ↦ ((hkey a ha).trans (hkey b hb).symm).le
  have hsub : (l.filter fun a ↦ f a = x).Sublist (sortBy f l) :=
    List.sublist_insertionSort hpair List.filter_sublist
  have hfilter := hsub.filter fun a ↦ decide (f a = x)
  simp only [List.filter_filter, Bool.and_self] at hfilter
  exact (hfilter.eq_of_length ((perm_sortBy f l).filter _).length_eq.symm).symm

/-- What holds of every element in front of one that it holds of is true of an initial part. -/
theorem filter_append_filter_not {p : α → Bool} {l : List α}
    (h : l.Pairwise fun a b ↦ p b = true → p a = true) :
    l.filter p ++ l.filter (fun a ↦ !p a) = l := by
  induction h with
  | nil => rfl
  | @cons a l ha _ ih =>
      cases hp : p a with
      | true =>
          rw [List.filter_cons_of_pos hp, List.filter_cons_of_neg (by rw [hp]; decide),
            List.cons_append, ih]
      | false =>
          have hnone : l.filter p = [] := List.filter_eq_nil_iff.mpr fun b hb hpb ↦ by
            rw [ha b hb hpb] at hp
            cases hp
          rw [hnone, List.nil_append] at ih
          rw [List.filter_cons_of_neg (by rw [hp]; decide), hnone,
            List.filter_cons_of_pos (by rw [hp]; rfl), ih, List.nil_append]

/-- Bisection counts the keys that are not above `x`. -/
theorem bisectRight_sortBy (f : α → κ) (l : List α) (x : κ) :
    bisectRight ((sortBy f l).map f) x = l.countP fun a ↦ f a ≤ x := by
  have hsplit : (sortBy f l).filter (fun a ↦ f a ≤ x) ++
      (sortBy f l).filter (fun a ↦ !decide (f a ≤ x)) = sortBy f l := by
    refine filter_append_filter_not ((pairwise_sortBy f l).imp fun hab hb ↦ ?_)
    exact decide_eq_true (hab.trans (of_decide_eq_true hb))
  have hcount : ((sortBy f l).filter fun a ↦ f a ≤ x).length = l.countP fun a ↦ f a ≤ x := by
    rw [← List.countP_eq_length_filter]
    exact (perm_sortBy f l).countP_eq _
  rw [← hsplit, List.map_append, bisectRight_append, List.length_map, hcount]
  · intro y hy
    obtain ⟨a, ha, rfl⟩ := List.mem_map.mp hy
    exact of_decide_eq_true (List.mem_filter.mp ha).2
  · intro y hy
    obtain ⟨a, ha, rfl⟩ := List.mem_map.mp hy
    have hnot := (List.mem_filter.mp ha).2
    rw [Bool.not_eq_true', decide_eq_false_iff_not] at hnot
    exact not_le.mp hnot

variable {pre post : List α} {a : α}

/-- The keys up to that of `a` are those below it and those equal to it. -/
theorem countP_le_eq (f : α → κ) (l : List α) (x : κ) :
    l.countP (fun b ↦ f b ≤ x) = l.countP (fun b ↦ f b < x) + l.countP fun b ↦ f b = x := by
  induction l with
  | nil => rfl
  | cons b l ih =>
      simp only [List.countP_cons, ih, decide_eq_true_eq]
      rcases lt_trichotomy (f b) x with h | h | h
      · rw [if_pos h.le, if_pos h, if_neg h.ne]
        omega
      · rw [if_pos h.le, if_neg h.not_lt, if_pos h]
        omega
      · rw [if_neg h.not_ge, if_neg h.not_gt, if_neg h.ne']
        omega

/-- The part of the sorted list with one key, and the parts around it. -/
theorem sortBy_eq_append (f : α → κ) (l : List α) (x : κ) :
    ∃ low high, sortBy f l = low ++ (l.filter (fun a ↦ f a = x) ++ high) ∧
      low.length = l.countP fun a ↦ f a < x := by
  have hlow := filter_append_filter_not (p := fun a ↦ decide (f a < x))
    ((pairwise_sortBy f l).imp fun hab hb ↦ decide_eq_true (hab.trans_lt (of_decide_eq_true hb)))
  have hhigh := filter_append_filter_not (p := fun a ↦ decide (f a ≤ x))
    (((pairwise_sortBy f l).filter fun a ↦ !decide (f a < x)).imp fun hab hb ↦
      decide_eq_true (hab.trans (of_decide_eq_true hb)))
  have hkey (a : α) : (decide (f a ≤ x) && !decide (f a < x)) = decide (f a = x) := by
    rw [← decide_not, ← Bool.decide_and]
    exact decide_eq_decide.mpr ⟨fun h ↦ h.1.antisymm (not_lt.mp h.2), fun h ↦ ⟨h.le, h.not_lt⟩⟩
  rw [List.filter_filter] at hhigh
  simp only [hkey] at hhigh
  rw [filter_eq_sortBy] at hhigh
  refine ⟨_, _, (hhigh.symm ▸ hlow).symm, ?_⟩
  rw [← List.countP_eq_length_filter]
  exact (perm_sortBy f l).countP_eq _

/-- Where an element is found in the sorted list. -/
theorem getElem?_sortBy_rank (f : α → κ) (pre : List α) (a : α) (post : List α) :
    (sortBy f (pre ++ a :: post))[rank f pre a post]? = some a := by
  obtain ⟨low, high, hsort, hlow⟩ := sortBy_eq_append f (pre ++ a :: post) (f a)
  have hmiddle : (pre ++ a :: post).filter (fun b ↦ f b = f a) =
      pre.filter (fun b ↦ f b = f a) ++ a :: post.filter fun b ↦ f b = f a := by
    rw [List.filter_append,
      List.filter_cons_of_pos (p := fun b ↦ decide (f b = f a)) (decide_eq_true rfl)]
  have hrank : rank f pre a post = low.length + (pre.filter fun b ↦ f b = f a).length := by
    rw [rank, countP_le_eq, hlow, List.countP_append, List.countP_cons_of_neg (by simp),
      List.countP_eq_length_filter (p := fun b ↦ decide (f b = f a))]
    omega
  rw [hsort, hmiddle, hrank, List.getElem?_append_right (Nat.le_add_right _ _),
    Nat.add_sub_cancel_left, List.append_assoc, List.getElem?_append_right (Nat.le_refl _),
    Nat.sub_self, List.cons_append, List.getElem?_cons_zero]

/-- Of two counts the smaller one is not smaller if nothing more is counted. -/
theorem countP_le_countP_iff {p q : α → Bool} (hpq : ∀ b, p b = true → q b = true) (l : List α) :
    l.countP q ≤ l.countP p ↔ ∀ b ∈ l, q b = true → p b = true := by
  induction l with
  | nil => exact iff_of_true (Nat.le_refl _) (List.forall_mem_nil _)
  | cons b l ih =>
      have hle : l.countP p ≤ l.countP q := List.countP_mono_left fun b _ ↦ hpq b
      rw [List.forall_mem_cons, ← ih]
      cases hp : p b with
      | true =>
          rw [List.countP_cons_of_pos hp, List.countP_cons_of_pos (hpq b hp)]
          exact Nat.succ_le_succ_iff.trans (and_iff_right fun _ ↦ rfl).symm
      | false =>
          rw [List.countP_cons_of_neg (Bool.eq_false_iff.mp hp)]
          cases hq : q b with
          | true =>
              rw [List.countP_cons_of_pos hq]
              refine iff_of_false (by omega) fun h ↦ ?_
              cases h.1 rfl
          | false =>
              rw [List.countP_cons_of_neg (Bool.eq_false_iff.mp hq)]
              exact (and_iff_right fun h ↦ h).symm

/-- Bisection stops behind `a` if no other key lies between the key of `a` and `x`. -/
theorem bisectRight_eq_rank_iff {x : κ} (ha : f a ≤ x) :
    bisectRight ((sortBy f (pre ++ a :: post)).map f) x = rank f pre a post + 1 ↔
      (∀ b ∈ pre, f b ≤ x → f b ≤ f a) ∧ ∀ b ∈ post, f b ≤ x → f b < f a := by
  have hle (b : α) (hb : decide (f b ≤ f a) = true) : decide (f b ≤ x) = true :=
    decide_eq_true ((of_decide_eq_true hb).trans ha)
  have hlt (b : α) (hb : decide (f b < f a) = true) : decide (f b ≤ x) = true :=
    decide_eq_true ((of_decide_eq_true hb).le.trans ha)
  have hpre := countP_le_countP_iff hle pre
  have hpost := countP_le_countP_iff hlt post
  have hpreLe := List.countP_mono_left fun b (_ : b ∈ pre) ↦ hle b
  have hpostLe := List.countP_mono_left fun b (_ : b ∈ post) ↦ hlt b
  have hcount : (a :: post).countP (fun b ↦ f b ≤ x) = post.countP (fun b ↦ f b ≤ x) + 1 :=
    List.countP_cons_of_pos (decide_eq_true ha)
  simp only [decide_eq_true_eq] at hpre hpost
  rw [bisectRight_sortBy, List.countP_append, hcount, rank, ← hpre, ← hpost]
  omega

end DeadLockDetect.Bisect
