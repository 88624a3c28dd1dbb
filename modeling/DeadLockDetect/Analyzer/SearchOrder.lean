import Mathlib.Data.Set.Card
import DeadLockDetect.Analyzer.CyclesCorrect

/-!
# The order in which cycles are found

The budget of a component cuts the search off after so many reports.  Which cycles that
keeps is decided by the order of the search, and this file says what the order is without
running the search: `Cycle.searchKey` describes a cycle, run through from one of its
vertices, by the place of this vertex in the component and the place of each of its edges
among the edges that leave the same vertex.  The cycles of a component are found in the
lexicographic order of these keys (`pairwise_cyclesIn`), so that a cycle is within the
budget exactly when fewer cycles than that have a smaller key (`mem_take_cyclesIn_iff`).
-/

namespace DeadLockDetect.Analyzer

open DeadLockDetect.Digraph Backtrack

/-! ## Positions in a strictly sorted list -/

/-- In a strictly sorted list, the place of an element is the number of smaller ones. -/
theorem mem_take_iff_ncard_lt {β γ : Type*} [DecidableEq β] [Preorder γ] {key : β → γ}
    {l : List β} (hl : l.Pairwise fun a b ↦ key a < key b) {x : β} (hx : x ∈ l) (n : Nat) :
    x ∈ l.take n ↔ {y | y ∈ l ∧ key y < key x}.ncard < n := by
  have hnodup : l.Nodup := hl.imp fun h e ↦ absurd h (by rw [e]; exact lt_irrefl _)
  have hlt := List.pairwise_iff_getElem.mp hl
  obtain ⟨i, hi, rfl⟩ := List.mem_iff_getElem.mp hx
  have hset : {y | y ∈ l ∧ key y < key l[i]} = ((l.take i).toFinset : Set β) := by
    ext y
    simp only [Set.mem_ofPred_eq, Finset.mem_coe, List.mem_toFinset]
    constructor
    · rintro ⟨hy, hlt'⟩
      obtain ⟨j, hj, rfl⟩ := List.mem_iff_getElem.mp hy
      rcases Nat.lt_trichotomy j i with hji | rfl | hij
      · exact List.mem_take_iff_getElem.mpr ⟨j, by omega, rfl⟩
      · exact absurd hlt' (lt_irrefl _)
      · exact absurd hlt' (lt_asymm (hlt i j hi hj hij))
    · intro hy
      obtain ⟨j, hj, rfl⟩ := List.mem_take_iff_getElem.mp hy
      exact ⟨List.getElem_mem _, hlt j i (by omega) hi (by omega)⟩
  have hcard : {y | y ∈ l ∧ key y < key l[i]}.ncard = i := by
    rw [hset, Set.ncard_coe_finset,
      List.toFinset_card_of_nodup (hnodup.sublist (List.take_sublist i l)), List.length_take]
    omega
  rw [hcard, List.mem_take_iff_getElem]
  constructor
  · rintro ⟨j, hj, he⟩
    have : j = i := (hnodup.getElem_inj_iff).mp he
    omega
  · intro hin
    exact ⟨i, by omega, rfl⟩

/-! ## The key of a cycle -/

/-- The place of an edge among the edges that leave the same vertex. -/
def CycleEdge.place (g : Graph) (e : CycleEdge) : Nat :=
  (neigh (adjacency g.edges) e.frm).idxOf e.to

/-- The place of the first vertex in the component, and the places of the edges. -/
def Cycle.searchKey (g : Graph) (scc : List LockId) (cy : Cycle) : List Nat :=
  match cy.edges with
  | [] => []
  | e :: es => scc.idxOf e.frm :: (e :: es).map (CycleEdge.place g)

/-- The positions taken by linked edges are their places. -/
theorem walkChoices_eq_map_place (g : Graph) {a : LockId} {es : List CycleEdge}
    (h : es.map CycleEdge.to = (es.map CycleEdge.frm ++ [a]).tail) :
    walkChoices (neigh (adjacency g.edges)) (es.map CycleEdge.frm ++ [a]) =
      es.map (CycleEdge.place g) := by
  induction es with
  | nil => rfl
  | cons e es ih =>
      obtain ⟨⟨bs, hbs⟩, htail⟩ := linked_of_cons h
      rw [List.map_cons, List.cons_append, List.map_cons, ← ih htail, hbs]
      rfl

/-- The key of the cycle that a path closes to. -/
theorem searchKey_of_closeCycle {g : Graph} {scc : List LockId} {start : LockId} {p : List LockId}
    (hp : ClosedPath (neigh (adjacency g.edges)) scc start p) {cy : Cycle}
    (hcy : closeCycle g.edges start p.reverse = some cy) :
    cy.searchKey g scc = scc.idxOf start :: choices (neigh (adjacency g.edges)) start p := by
  obtain ⟨hs, hhead, -⟩ := closedPath_iff.mp hp
  rw [← List.head?_reverse] at hhead
  obtain ⟨q, hq⟩ := List.head?_eq_some_iff.mp hhead
  have hsimple : SimpleCycle g.Edge (start :: q) := by
    rw [← hq, ← adj_eq_edge]
    exact hs
  rw [hq] at hcy
  obtain ⟨hcycle, hfrm⟩ := (closeCycle_eq_some_iff hsimple).mp hcy
  have hlinked : cy.edges.map CycleEdge.to = (cy.edges.map CycleEdge.frm ++ [start]).tail := by
    rw [hcycle.linked, hfrm, List.rotate_cons_succ, List.rotate_zero, List.cons_append,
      List.tail_cons]
  rw [choices, hq, ← hfrm, walkChoices_eq_map_place g hlinked, Cycle.searchKey]
  cases he : cy.edges with
  | nil => exact absurd he hcycle.ne_nil
  | cons e es =>
      rw [he, List.map_cons] at hfrm
      obtain ⟨rfl, -⟩ := List.cons.inj hfrm
      rfl

/-- The cycles through one vertex are found in the order of their keys, all of which begin with the
place of this vertex. -/
theorem pairwise_cyclesThrough {g : Graph} {scc : List LockId} {start : LockId} (h : start ∈ scc)
    (n : Int) :
    ((⟨g.edges, adjacency g.edges, scc, n⟩ : Search).cyclesThrough start).Pairwise (fun a b ↦
        a.searchKey g scc < b.searchKey g scc) ∧
      ∀ cy ∈ (⟨g.edges, adjacency g.edges, scc, n⟩ : Search).cyclesThrough start,
        ∃ r, cy.searchKey g scc = scc.idxOf start :: r := by
  unfold Search.cyclesThrough Search.cyclesFrom
  constructor
  · rw [List.pairwise_filterMap]
    refine (pairwise_closedPaths (nodup_neigh_adjacency g) (pathFrom_singleton h)).imp_of_mem ?_
    intro p q hp hq hlt a ha b hb
    rw [searchKey_of_closeCycle ((mem_closedPaths_start_iff h).mp hp) ha,
      searchKey_of_closeCycle ((mem_closedPaths_start_iff h).mp hq) hb]
    exact List.cons_lt_cons_iff.mpr (Or.inr ⟨rfl, hlt⟩)
  · intro cy hcy
    obtain ⟨p, hp, ha⟩ := List.mem_filterMap.mp hcy
    exact ⟨_, searchKey_of_closeCycle ((mem_closedPaths_start_iff h).mp hp) ha⟩

/-- **The cycles of a component are found in the order of their keys.** -/
theorem pairwise_cyclesIn (g : Graph) {scc : List LockId} (hscc : scc.Nodup) :
    (cyclesIn g scc).Pairwise fun a b ↦ a.searchKey g scc < b.searchKey g scc := by
  unfold cyclesIn
  rw [List.pairwise_flatMap]
  constructor
  · exact fun start hstart ↦ (pairwise_cyclesThrough hstart 0).1
  · refine (pairwise_idxOf hscc).imp_of_mem fun {v w} hv hw hvw a ha b hb ↦ ?_
    obtain ⟨r, hr⟩ := (pairwise_cyclesThrough hv 0).2 a ha
    obtain ⟨r', hr'⟩ := (pairwise_cyclesThrough hw 0).2 b hb
    rw [hr, hr']
    exact List.cons_lt_cons_iff.mpr (Or.inl hvw)

/-- **What the budget keeps.**  A cycle of a component is among the first `n` reports exactly when
fewer than `n` cycles of the component come before it. -/
theorem mem_take_cyclesIn_iff {g : Graph} {scc : List LockId} (hscc : scc.Nodup) {cy : Cycle}
    {n : Nat} : cy ∈ (cyclesIn g scc).take n ↔
      (g.HasCycle cy ∧ ∀ e ∈ cy.edges, e.frm ∈ scc) ∧
        {a | (g.HasCycle a ∧ ∀ e ∈ a.edges, e.frm ∈ scc) ∧
          a.searchKey g scc < cy.searchKey g scc}.ncard < n := by
  simp only [← mem_cyclesIn_iff]
  constructor
  · intro h
    have hmem := List.mem_of_mem_take h
    exact ⟨hmem, (mem_take_iff_ncard_lt (pairwise_cyclesIn g hscc) hmem n).mp h⟩
  · rintro ⟨hmem, h⟩
    exact (mem_take_iff_ncard_lt (pairwise_cyclesIn g hscc) hmem n).mpr h

end DeadLockDetect.Analyzer
