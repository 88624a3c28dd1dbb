import Mathlib.Data.List.Cycle
import Mathlib.Logic.Relation

/-!
# Strongly connected components and simple cycles

The facts about a directed graph, given by its edge relation `E : α → α → Prop`, that
a cycle search rests on.

* `Mutual E x y`: each of `x` and `y` reaches the other; `IsScc E c`: the list `c` is a
  class of this equivalence.
* `SimpleCycle E p`: the list `p` runs once around a cycle of length at least two.  Its
  edges, the closing one included, are those of `Cycle.Chain`, so that the notion does
  not depend on where the list starts (`SimpleCycle.rotate`).
* `exists_simpleCycle` is the existence theorem of a cycle search: from any vertex of a
  component with another vertex, a simple cycle comes back to it.

The names used here mention no program.
-/

namespace DeadLockDetect.Digraph

open Relation

universe u

variable {α : Type u} {E : α → α → Prop}

/-! ## Mutual reachability -/

/-- `x` and `y` reach each other. -/
def Mutual (E : α → α → Prop) (x y : α) : Prop := ReflTransGen E x y ∧ ReflTransGen E y x

namespace Mutual

theorem refl (x : α) : Mutual E x x := ⟨.refl, .refl⟩

theorem symm {x y : α} (h : Mutual E x y) : Mutual E y x := ⟨h.2, h.1⟩

theorem trans {x y z : α} (h : Mutual E x y) (h' : Mutual E y z) : Mutual E x z :=
  ⟨h.1.trans h'.1, h'.2.trans h.2⟩

end Mutual

/-- The list `c` is a strongly connected component, each vertex listed once. -/
structure IsScc (E : α → α → Prop) (c : List α) : Prop where
  /-- A component has a vertex. -/
  ne_nil : c ≠ []
  /-- No vertex is listed twice. -/
  nodup : c.Nodup
  /-- The component of a vertex is its class under mutual reachability. -/
  mem_iff : ∀ x ∈ c, ∀ y, y ∈ c ↔ Mutual E x y

/-- A set that no edge leaves is closed under reachability. -/
theorem mem_of_reflTransGen {S : α → Prop} (hS : ∀ x y, S x → E x y → S y) {x y : α}
    (h : ReflTransGen E x y) (hx : S x) : S y := by
  induction h with
  | refl => exact hx
  | tail _ hbc ih => exact hS _ _ ih hbc

/-! ## Simple paths -/

/-- What is reachable is reachable along a path without repeated vertices. -/
theorem exists_nodup_path {a b : α} (h : ReflTransGen E a b) :
    ∃ l, List.IsChain E (a :: l) ∧ (a :: l).Nodup ∧
      (a :: l).getLast (List.cons_ne_nil a l) = b := by
  classical
  induction h using ReflTransGen.head_induction_on with
  | refl => exact ⟨[], List.isChain_singleton b, List.nodup_singleton b, rfl⟩
  | @head a c hac _ ih =>
      obtain ⟨l, hchain, hnodup, hlast⟩ := ih
      by_cases ha : a ∈ c :: l
      · -- the path comes back to `a`: start from there
        obtain ⟨s, t, hst⟩ := List.append_of_mem ha
        have hsuf : a :: t <:+ c :: l := ⟨s, hst.symm⟩
        refine ⟨t, hchain.suffix hsuf, hnodup.sublist hsuf.sublist, ?_⟩
        rw [← hlast]
        simp only [hst, List.getLast_append_of_ne_nil _ (List.cons_ne_nil a t)]
      · refine ⟨c :: l, .cons_cons hac hchain, List.nodup_cons.mpr ⟨ha, hnodup⟩, ?_⟩
        rw [List.getLast_cons_cons, hlast]

/-! ## Simple cycles -/

/-- The list `p` runs once around a simple cycle of length at least two. -/
structure SimpleCycle (E : α → α → Prop) (p : List α) : Prop where
  two_le : 2 ≤ p.length
  nodup : p.Nodup
  chain : Cycle.Chain E (p : Cycle α)

namespace SimpleCycle

variable {p q : List α}

/-- A cycle can be run through from any of its vertices. -/
theorem rotate (h : SimpleCycle E p) (hpq : p ~r q) : SimpleCycle E q where
  two_le := hpq.perm.length_eq ▸ h.two_le
  nodup := hpq.nodup_iff.mp h.nodup
  chain := Cycle.coe_eq_coe.mpr hpq ▸ h.chain

/-- The vertices of a cycle reach each other, by at least one edge. -/
theorem transGen (h : SimpleCycle E p) {x y : α} (hx : x ∈ p) (hy : y ∈ p) : TransGen E x y := by
  have hchain : Cycle.Chain (TransGen E) (p : Cycle α) := h.chain.imp fun _ _ ↦ TransGen.single
  exact Cycle.chain_iff_pairwise.mp hchain x hx y hy

theorem mutual_of_mem (h : SimpleCycle E p) {x y : α} (hx : x ∈ p) (hy : y ∈ p) : Mutual E x y :=
  ⟨(h.transGen hx hy).to_reflTransGen, (h.transGen hy hx).to_reflTransGen⟩

end SimpleCycle

/-- A chain whose last vertex has an edge to its first is a cycle. -/
theorem chain_cons_iff {a : α} {l : List α} :
    Cycle.Chain E ((a :: l : List α) : Cycle α) ↔
      List.IsChain E (a :: l) ∧ E ((a :: l).getLast (List.cons_ne_nil a l)) a := by
  rw [Cycle.chain_coe_cons, ← List.cons_append, List.isChain_append]
  constructor
  · rintro ⟨hl, -, h⟩
    exact ⟨hl, h _ (List.getLast?_eq_getLast_of_ne_nil (List.cons_ne_nil a l)) a rfl⟩
  · rintro ⟨hl, h⟩
    refine ⟨hl, List.isChain_singleton a, ?_⟩
    intro x hx y hy
    rw [List.getLast?_eq_getLast_of_ne_nil (List.cons_ne_nil a l)] at hx
    rwa [← Option.some.inj hx, ← Option.some.inj hy]

/-- **A cycle search finds its way back.**  Two different vertices that reach each other
lie on closed walks, and so a simple cycle starts from either of them. -/
theorem exists_simpleCycle {a b : α} (h : Mutual E a b) (hne : a ≠ b) :
    ∃ l, SimpleCycle E (a :: l) := by
  obtain ⟨l, hchain, hnodup, hlast⟩ := exists_nodup_path h.1
  cases l with
  | nil => exact absurd hlast hne
  | cons c l =>
      -- the first vertex `c` after `a` still reaches `b`, hence `a`
      obtain ⟨hac, hchain⟩ := List.isChain_cons_cons.mp hchain
      have hca : c ≠ a := fun e ↦ (List.nodup_cons.mp hnodup).1 (e ▸ List.mem_cons_self)
      have hcb : ReflTransGen E c b :=
        List.relationReflTransGen_of_exists_isChain_cons l hchain
          (by rw [← hlast, List.getLast_cons_cons])
      obtain ⟨m, hm, hmnodup, hmlast⟩ := exists_nodup_path (hcb.trans h.2)
      -- a simple path from `c` back to `a`, without its last vertex
      obtain ⟨s, hs⟩ : ∃ s, c :: m = s ++ [a] :=
        ⟨(c :: m).dropLast, by rw [← hmlast, List.dropLast_append_getLast]⟩
      obtain ⟨t, rfl⟩ : ∃ t, s = c :: t := by
        cases s with
        | nil => exact absurd (List.cons.inj hs).1 hca
        | cons d t => exact ⟨t, by rw [(List.cons.inj hs).1]⟩
      rw [hs] at hm hmnodup
      refine ⟨c :: t, Nat.le_add_left 2 _, ?_, ?_⟩
      · exact (List.perm_append_singleton a (c :: t)).nodup_iff.mp hmnodup
      · rw [Cycle.chain_coe_cons]
        exact .cons_cons hac hm

/-- In a graph without loops, a vertex on a closed walk reaches another vertex and is
reached from it. -/
theorem exists_mutual_of_transGen (hloop : ∀ v, ¬ E v v) {v : α} (h : TransGen E v v) :
    ∃ w, v ≠ w ∧ Mutual E v w := by
  obtain ⟨w, hvw, hwv⟩ := TransGen.head'_iff.mp h
  exact ⟨w, fun e ↦ hloop v (by rw [← e] at hvw; exact hvw), .single hvw, hwv⟩

/-- A graph without loops has a closed walk exactly when it has a simple cycle. -/
theorem exists_transGen_iff (hloop : ∀ v, ¬ E v v) :
    (∃ v, TransGen E v v) ↔ ∃ p, SimpleCycle E p := by
  constructor
  · rintro ⟨v, hv⟩
    obtain ⟨w, hne, hvw⟩ := exists_mutual_of_transGen hloop hv
    obtain ⟨l, hl⟩ := exists_simpleCycle hvw hne
    exact ⟨v :: l, hl⟩
  · rintro ⟨p, hp⟩
    obtain ⟨v, hv⟩ := List.exists_mem_of_length_pos (Nat.lt_of_lt_of_le Nat.zero_lt_two hp.two_le)
    exact ⟨v, hp.transGen hv hv⟩

end DeadLockDetect.Digraph
