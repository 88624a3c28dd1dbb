import Mathlib.Data.List.Basic
import Mathlib.Logic.Function.Basic

/-!
# Singly linked lists in a heap

A heap of nodes is the function `next` that gives the successor of each node.
`Linked next a l b` says that following `next` from the pointer `a` one passes the
nodes `l` and arrives at the pointer `b`; a list that ends is one that arrives at
`none`.

Changing the link of a node that is not passed changes nothing (`update_of_notMem`), and a node is
spliced out by changing either the link of the node before it (`splice`) or the head (`pop`).
-/

namespace DeadLockDetect

universe u

variable {ι : Type u} {next : ι → Option ι} {a b c : Option ι} {l m : List ι} {x p : ι}

/-- The nodes passed from one pointer to another. -/
def Linked (next : ι → Option ι) : Option ι → List ι → Option ι → Prop
  | a, [], b => a = b
  | a, x :: l, b => a = some x ∧ Linked next (next x) l b

namespace Linked

theorem cons_iff : Linked next a (x :: l) b ↔ a = some x ∧ Linked next (next x) l b := Iff.rfl

theorem append_iff : Linked next a (l ++ m) c ↔ ∃ b, Linked next a l b ∧ Linked next b m c := by
  induction l generalizing a with
  | nil =>
      refine ⟨fun h ↦ ⟨a, rfl, h⟩, ?_⟩
      rintro ⟨b, rfl, h⟩
      exact h
  | cons x l ih =>
      rw [List.cons_append, cons_iff, ih]
      refine ⟨fun ⟨ha, b, hl, hm⟩ ↦ ⟨b, ⟨ha, hl⟩, hm⟩, ?_⟩
      rintro ⟨b, ⟨ha, hl⟩, hm⟩
      exact ⟨ha, b, hl, hm⟩

/-- A list that ends starts at its first node. -/
theorem eq_head? (h : Linked next a l none) : a = l.head? := by
  cases l with
  | nil => exact h
  | cons x l => exact h.1

/-- The link of a node points to the node after it. -/
theorem next_eq (h : Linked next a (l ++ x :: m) none) : next x = m.head? := by
  obtain ⟨c, -, -, hm⟩ := append_iff.mp h
  exact hm.eq_head?

/-- A list that ends is determined by where it starts. -/
theorem unique (h : Linked next a l none) (h' : Linked next a m none) : l = m := by
  induction l generalizing a m with
  | nil =>
      cases m with
      | nil => rfl
      | cons y m => cases h.symm.trans h'.1
  | cons x l ih =>
      cases m with
      | nil => cases h'.symm.trans h.1
      | cons y m =>
          cases h.1.symm.trans h'.1
          rw [ih h.2 h'.2]

/-- The first node spliced out. -/
theorem pop (h : Linked next a (x :: l) b) : Linked next (next x) l b := h.2

/-- Only the links of the nodes passed matter. -/
theorem congr {next' : ι → Option ι} (h : Linked next a l b) (he : ∀ x ∈ l, next' x = next x) :
    Linked next' a l b := by
  induction l generalizing a with
  | nil => exact h
  | cons x l ih =>
      refine ⟨h.1, ?_⟩
      rw [he x List.mem_cons_self]
      exact ih h.2 fun y hy ↦ he y (List.mem_cons_of_mem x hy)

section Update

variable [DecidableEq ι]

/-- The link of a node that is not passed may change. -/
theorem update_of_notMem (h : Linked next a l b) (hx : x ∉ l) :
    Linked (Function.update next x c) a l b := by
  refine h.congr fun y hy ↦ ?_
  rw [Function.update_of_ne]
  rintro rfl
  exact hx hy

/-- A node behind `p` spliced out. -/
theorem splice (h : Linked next a (l ++ p :: x :: m) b) (hn : (l ++ p :: x :: m).Nodup) :
    Linked (Function.update next p (next x)) a (l ++ p :: m) b := by
  obtain ⟨-, hn', hlp⟩ := List.nodup_append.mp hn
  have hpm : p ∉ m := fun hp ↦ (List.nodup_cons.mp hn').1 (List.mem_cons_of_mem x hp)
  have hpl : p ∉ l := fun hp ↦ hlp p hp p List.mem_cons_self rfl
  obtain ⟨c, hl, hc, hx, hm⟩ := append_iff.mp h
  refine append_iff.mpr ⟨c, hl.update_of_notMem hpl, hc, ?_⟩
  rw [Function.update_self]
  exact hm.update_of_notMem hpm

end Update

end Linked

end DeadLockDetect
