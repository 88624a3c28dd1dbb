import Mathlib.Data.List.Basic
import Mathlib.Data.List.Perm.Basic
import Mathlib.Data.List.Nodup
import Mathlib.Order.Basic

/-!
# Lists that order some pairs alike

`upTo l x` lists the elements of `l` before `x`.  `SameOrder R l m` says that `m` is a
rearrangement of `l`, and that both have the pairs related by `R` in the same order.  A list with a
key that grows along it, and a rearrangement that keeps the keys in order for related pairs, are
such a pair of lists (`SameOrder.of_sorted`).

What is before an element is then the same as far as it is related to it
(`filter_upTo_perm`), and a set of elements that are all related to each other is listed alike
(`filter_upTo_eq`).
-/

namespace DeadLockDetect

variable {α : Type*} [DecidableEq α] {l m : List α} {x y z : α}

/-- The elements of the list before `x`. -/
def upTo (l : List α) (x : α) : List α := l.take (l.idxOf x)

theorem upTo_isPrefix (l : List α) (x : α) : upTo l x <+: l := List.take_prefix _ _

theorem mem_of_mem_upTo (h : x ∈ upTo l y) : x ∈ l := (upTo_isPrefix l y).subset h

theorem mem_upTo_iff (hx : x ∈ l) : x ∈ upTo l y ↔ l.idxOf x < l.idxOf y :=
  List.mem_take_iff_idxOf_lt hx

theorem notMem_upTo_self (l : List α) (x : α) : x ∉ upTo l x := fun h ↦
  Nat.lt_irrefl _ ((mem_upTo_iff (mem_of_mem_upTo h)).mp h)

theorem mem_upTo_trans (hxy : x ∈ upTo l y) (hyz : y ∈ upTo l z) : x ∈ upTo l z := by
  have hx := mem_of_mem_upTo hxy
  have hy := mem_of_mem_upTo hyz
  exact (mem_upTo_iff hx).mpr (Nat.lt_trans ((mem_upTo_iff hx).mp hxy) ((mem_upTo_iff hy).mp hyz))

theorem mem_upTo_asymm (hxy : x ∈ upTo l y) : y ∉ upTo l x := fun hyx ↦
  notMem_upTo_self l x (mem_upTo_trans hxy hyx)

/-- Of two elements one is before the other. -/
theorem mem_upTo_total (hx : x ∈ l) (hy : y ∈ l) (hne : x ≠ y) : x ∈ upTo l y ∨ y ∈ upTo l x := by
  rw [mem_upTo_iff hx, mem_upTo_iff hy]
  exact Nat.lt_or_gt_of_ne fun he ↦ hne ((List.idxOf_inj hx).mp he)

theorem upTo_append_cons (h : x ∉ l) (m : List α) : upTo (l ++ x :: m) x = l := by
  rw [upTo, List.idxOf_append_of_notMem h, List.idxOf_cons_self, Nat.add_zero, List.take_left]

theorem exists_eq_upTo_append (h : x ∈ l) : ∃ rest, l = upTo l x ++ x :: rest := by
  obtain ⟨s, t, rfl, hs⟩ := List.eq_append_cons_of_mem h
  exact ⟨t, by rw [upTo_append_cons hs]⟩

theorem rel_of_mem_upTo {R : α → α → Prop} (hl : l.Pairwise R) (hy : y ∈ l) (h : x ∈ upTo l y) :
    R x y := by
  obtain ⟨rest, he⟩ := exists_eq_upTo_append hy
  rw [he, List.pairwise_append] at hl
  exact hl.2.2 x h y List.mem_cons_self

/-- The first element before `y` that satisfies `p` is the first one of the list. -/
theorem find?_upTo {p : α → Bool} (h : (upTo l y).find? p = some x) :
    x ∈ upTo l y ∧ p x ∧ ∀ z ∈ upTo l x, ¬ p z := by
  obtain ⟨hpx, as, bs, he, has⟩ := List.find?_eq_some_iff_append.mp h
  obtain ⟨rest, hl⟩ := upTo_isPrefix l y
  have hx : x ∉ as := fun hx ↦ by
    have hno := has x hx
    rw [hpx] at hno
    cases hno
  have has' : upTo l x = as := by
    rw [← hl, he, List.append_assoc, List.cons_append, upTo_append_cons hx]
  refine ⟨List.mem_of_find?_eq_some h, hpx, fun z hz hpz ↦ ?_⟩
  have hno := has z (has' ▸ hz)
  rw [hpz] at hno
  cases hno

/-- A list without repetition lists its elements in its own order. -/
theorem pairwise_mem_upTo (h : l.Nodup) : l.Pairwise fun x y ↦ x ∈ upTo l y := by
  rw [List.pairwise_iff_getElem]
  intro i j hi hj hij
  rwa [mem_upTo_iff (List.getElem_mem hi), h.idxOf_getElem i hi, h.idxOf_getElem j hj]

/-- `m` rearranges `l` and has the pairs related by `R` in the same order. -/
structure SameOrder (R : α → α → Prop) (l m : List α) : Prop where
  nodup : l.Nodup
  perm : l.Perm m
  order : ∀ x ∈ l, ∀ y ∈ l, R x y → (x ∈ upTo l y ↔ x ∈ upTo m y)

namespace SameOrder

variable {R : α → α → Prop}

theorem symm (h : SameOrder R l m) : SameOrder R m l where
  nodup := h.perm.nodup_iff.mp h.nodup
  perm := h.perm.symm
  order x hx y hy hR := (h.order x (h.perm.mem_iff.mpr hx) y (h.perm.mem_iff.mpr hy) hR).symm

/-- A rearrangement of a sorted list that keeps the keys of related pairs in order. -/
theorem of_sorted {β : Type*} [Preorder β] {key : α → β} (hperm : l.Perm m)
    (hm : m.Pairwise fun x y ↦ key x < key y)
    (hl : l.Pairwise fun x y ↦ R x y ∨ R y x → key x < key y) : SameOrder R l m := by
  have hnodup : m.Nodup := hm.imp fun hlt he ↦ ne_of_lt hlt (congrArg key he)
  refine ⟨hperm.nodup_iff.mpr hnodup, hperm, fun x hx y hy hR ↦ ?_⟩
  have hxm := hperm.mem_iff.mp hx
  have hym := hperm.mem_iff.mp hy
  by_cases hxy : x = y
  · subst hxy
    exact iff_of_false (notMem_upTo_self l x) (notMem_upTo_self m x)
  constructor
  · intro h
    refine (mem_upTo_total hxm hym hxy).resolve_right fun h' ↦ ?_
    have hlt : key x < key y := rel_of_mem_upTo hl hy h (Or.inl hR)
    have hgt := rel_of_mem_upTo hm hxm h'
    exact lt_asymm hlt hgt
  · intro h
    refine (mem_upTo_total hx hy hxy).resolve_right fun h' ↦ ?_
    have hlt := rel_of_mem_upTo hm hym h
    have hgt : key y < key x := rel_of_mem_upTo hl hx h' (Or.inr hR)
    exact lt_asymm hlt hgt

variable {p : α → Bool}

/-- The elements related to `y` that are before `y` are the same in both lists. -/
theorem filter_upTo_perm (h : SameOrder R l m) (hy : y ∈ l) (hp : ∀ x ∈ l, p x → R x y) :
    ((upTo l y).filter p).Perm ((upTo m y).filter p) := by
  have hl := h.nodup.sublist (upTo_isPrefix l y).sublist
  have hm := h.symm.nodup.sublist (upTo_isPrefix m y).sublist
  refine (List.perm_ext_iff_of_nodup (hl.filter p) (hm.filter p)).mpr fun x ↦ ?_
  rw [List.mem_filter, List.mem_filter]
  refine and_congr_left fun hpx ↦ ⟨fun hx ↦ ?_, fun hx ↦ ?_⟩
  · have hxl := mem_of_mem_upTo hx
    exact (h.order x hxl y hy (hp x hxl hpx)).mp hx
  · have hxl := h.perm.mem_iff.mpr (mem_of_mem_upTo hx)
    exact (h.order x hxl y hy (hp x hxl hpx)).mpr hx

/-- Elements that are related to each other are listed alike. -/
theorem filter_upTo_eq (h : SameOrder R l m) (hy : y ∈ l)
    (hp : ∀ x ∈ l, ∀ z ∈ l, p x → p z → R x z) (hpy : p y) :
    (upTo l y).filter p = (upTo m y).filter p := by
  have hperm := h.filter_upTo_perm (p := p) hy fun x hx hpx ↦ hp x hx y hy hpx hpy
  have hpair : ((upTo l y).filter p).Pairwise fun x z ↦ x ∈ upTo l z :=
    (pairwise_mem_upTo h.nodup).sublist
      (List.filter_sublist.trans (upTo_isPrefix l y).sublist)
  have hpair' : ((upTo m y).filter p).Pairwise fun x z ↦ x ∈ upTo l z := by
    refine ((pairwise_mem_upTo h.symm.nodup).sublist
      (List.filter_sublist.trans (upTo_isPrefix m y).sublist)).imp_of_mem ?_
    intro x z hx hz hxz
    obtain ⟨hx, hpx⟩ := List.mem_filter.mp hx
    obtain ⟨hz, hpz⟩ := List.mem_filter.mp hz
    have hxl := h.perm.mem_iff.mpr (mem_of_mem_upTo hx)
    have hzl := h.perm.mem_iff.mpr (mem_of_mem_upTo hz)
    exact (h.order x hxl z hzl (hp x hxl z hzl hpx hpz)).mpr hxz
  exact hperm.eq_of_pairwise (fun x z _ _ hxz hzx ↦ absurd hzx (mem_upTo_asymm hxz)) hpair hpair'

end SameOrder

end DeadLockDetect
