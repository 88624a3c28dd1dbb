import Mathlib.Algebra.BigOperators.Finprod
import DeadLockDetect.Analyzer.SearchOrder

/-!
# Enumerating the cycles

`g.cyclesOf scc` is the set of the simple cycles inside a component, each in its canonical form.
The search in the component reports every one of them once from each of its vertices, so it makes
as many reports as these cycles have vertices together (`length_cyclesIn`).  A budget of that size
stops nothing, and then `findCycles` returns all cycles of the graph (`findCycles_exact`).
-/

namespace DeadLockDetect.Analyzer

open DeadLockDetect.Digraph

/-- The cycle begins at its least vertex. -/
def Cycle.Canonical (cy : Cycle) : Prop :=
  ∀ first ∈ cy.edges.head?, ∀ e ∈ cy.edges, first.frm ≤ e.frm

/-- The cycle runs inside the component. -/
def Cycle.Within (cy : Cycle) (scc : List LockId) : Prop := ∀ e ∈ cy.edges, e.frm ∈ scc

/-- The simple cycles inside a component, each in canonical form. -/
def Graph.cyclesOf (g : Graph) (scc : List LockId) : Set Cycle :=
  {cy | g.HasCycle cy ∧ cy.Canonical ∧ cy.Within scc}

/-! ## Rotations -/

namespace Graph.HasCycle

variable {g : Graph} {a b : Cycle}

theorem within_rotate {scc : List LockId} (n : Nat) :
    Cycle.Within ⟨a.edges.rotate n⟩ scc ↔ a.Within scc :=
  forall_congr' fun _ ↦ imp_congr_left List.mem_rotate

theorem within_canon {scc : List LockId} : (Analyzer.canon a).Within scc ↔ a.Within scc := by
  obtain ⟨n, hn⟩ := (canon_spec a).1
  rw [hn, within_rotate]

/-- The canonical form of a rotation of a canonical cycle is that cycle. -/
theorem canon_rotate (h : g.HasCycle a) (hc : a.Canonical) (n : Nat) :
    Analyzer.canon ⟨a.edges.rotate n⟩ = a := by
  obtain ⟨⟨m, hm⟩, hleast⟩ := canon_spec ⟨a.edges.rotate n⟩
  have hcycle : g.HasCycle (Analyzer.canon ⟨a.edges.rotate n⟩) := (h.rotate n).canon
  refine (h.eq_of_isRotated (f := id) hcycle (fun _ _ _ _ h ↦ h) hc hleast ?_).symm
  rw [hm]
  exact ⟨n + m, (List.rotate_rotate a.edges n m).symm⟩

/-- The cycles with the canonical form `b` are the rotations of `b`. -/
theorem canon_eq_iff (hb : g.HasCycle b) (hc : b.Canonical) :
    Analyzer.canon a = b ↔ ∃ n < b.edges.length, a = ⟨b.edges.rotate n⟩ := by
  have hpos : 0 < b.edges.length := List.length_pos_of_ne_nil hb.ne_nil
  constructor
  · rintro rfl
    obtain ⟨n, hn⟩ := (canon_spec a).1
    have hrot : (Analyzer.canon a).edges ~r a.edges := by
      rw [hn]
      exact (List.IsRotated.forall a.edges n)
    obtain ⟨k, hk⟩ := hrot
    exact ⟨k % (Analyzer.canon a).edges.length, Nat.mod_lt k hpos,
      congrArg Cycle.mk (by rw [List.rotate_mod, hk])⟩
  · rintro ⟨n, -, rfl⟩
    exact hb.canon_rotate hc n

/-- The rotations of a cycle have one canonical form. -/
theorem canon_eq_of_isRotated (ha : g.HasCycle a) (h : b.edges ~r a.edges) :
    Analyzer.canon b = Analyzer.canon a := by
  obtain ⟨⟨m, hm⟩, hleast⟩ := canon_spec a
  obtain ⟨n, hn⟩ : (Analyzer.canon a).edges ~r b.edges := by
    refine List.IsRotated.trans ?_ h.symm
    rw [hm]
    exact List.IsRotated.forall a.edges m
  obtain ⟨es⟩ := b
  cases hn
  exact ha.canon.canon_rotate hleast n

/-- Rotations by different amounts are different. -/
theorem rotate_inj (h : g.HasCycle a) {m n : Nat} (hm : m < a.edges.length)
    (hn : n < a.edges.length) (he : a.edges.rotate m = a.edges.rotate n) : m = n := by
  have hnodup : a.edges.Nodup := h.simple.nodup.of_map
  rcases hnodup.rotate_congr_iff.mp he with hmod | hnil
  · rwa [Nat.mod_eq_of_lt hm, Nat.mod_eq_of_lt hn] at hmod
  · exact absurd hnil h.ne_nil

/-- Every cycle has one canonical form. -/
theorem existsUnique_canonical (h : g.HasCycle a) :
    ∃! b, (g.HasCycle b ∧ b.Canonical) ∧ b.edges ~r a.edges := by
  obtain ⟨⟨n, hn⟩, hleast⟩ := canon_spec a
  have hrot : (Analyzer.canon a).edges ~r a.edges := by
    rw [hn]
    exact List.IsRotated.forall a.edges n
  refine ⟨Analyzer.canon a, ⟨⟨h.canon, hleast⟩, hrot⟩, ?_⟩
  rintro b ⟨⟨hb, hc⟩, hba⟩
  exact hb.eq_of_isRotated (f := id) h.canon (fun _ _ _ _ h ↦ h) hc hleast (hba.trans hrot.symm)

end Graph.HasCycle

/-! ## The number of reports -/

theorem nodup_cyclesIn (g : Graph) {scc : List LockId} (hscc : scc.Nodup) :
    (cyclesIn g scc).Nodup := by
  refine (pairwise_cyclesIn g hscc).imp ?_
  rintro a b hlt rfl
  exact lt_irrefl _ hlt

/-- The cycles inside a component are the canonical forms of what the search reports. -/
theorem cyclesOf_eq_image (g : Graph) (scc : List LockId) :
    g.cyclesOf scc = (((cyclesIn g scc).toFinset.image canon : Finset Cycle) : Set Cycle) := by
  ext cy
  rw [Finset.mem_coe, Finset.mem_image]
  simp only [List.mem_toFinset, mem_cyclesIn_iff]
  constructor
  · rintro ⟨h, hc, hw⟩
    exact ⟨cy, ⟨h, hw⟩, by simpa using h.canon_rotate hc 0⟩
  · rintro ⟨a, ⟨h, hw⟩, rfl⟩
    exact ⟨h.canon, (canon_spec a).2, Graph.HasCycle.within_canon.mpr hw⟩

/-- There are finitely many of them, so their number means something. -/
theorem finite_cyclesOf (g : Graph) (scc : List LockId) : (g.cyclesOf scc).Finite := by
  rw [cyclesOf_eq_image]
  exact Finset.finite_toSet _

/-- **The number of reports in a component** is the sum of the lengths of its cycles: every cycle is
reported once from each of its vertices. -/
theorem length_cyclesIn (g : Graph) {scc : List LockId} (hscc : scc.Nodup) :
    (cyclesIn g scc).length = ∑ᶠ cy ∈ g.cyclesOf scc, cy.edges.length := by
  rw [← List.toFinset_card_of_nodup (nodup_cyclesIn g hscc), cyclesOf_eq_image,
    finsum_mem_coe_finset, Finset.card_eq_sum_card_image canon]
  refine Finset.sum_congr rfl fun b hb ↦ ?_
  rw [← Finset.mem_coe, ← cyclesOf_eq_image] at hb
  obtain ⟨hb, hc, hw⟩ := hb
  -- the reports of the cycle `b` are its rotations
  have hfiber : (cyclesIn g scc).toFinset.filter (fun a ↦ canon a = b) =
      (Finset.range b.edges.length).image fun n ↦ (⟨b.edges.rotate n⟩ : Cycle) := by
    ext a
    rw [Finset.mem_filter, List.mem_toFinset, mem_cyclesIn_iff, Finset.mem_image,
      hb.canon_eq_iff hc]
    constructor
    · rintro ⟨-, n, hn, rfl⟩
      exact ⟨n, Finset.mem_range.mpr hn, rfl⟩
    · rintro ⟨n, hn, rfl⟩
      exact ⟨⟨hb.rotate n, Graph.HasCycle.within_rotate n |>.mpr hw⟩, n, Finset.mem_range.mp hn, rfl⟩
  rw [hfiber, Finset.card_image_of_injOn, Finset.card_range]
  intro m hm n hn he
  exact hb.rotate_inj (Finset.mem_range.mp hm) (Finset.mem_range.mp hn) (congrArg Cycle.edges he)

/-! ## Components -/

theorem Graph.cyclesOf_congr (g : Graph) {scc scc' : List LockId} (h : ∀ v, v ∈ scc ↔ v ∈ scc') :
    g.cyclesOf scc = g.cyclesOf scc' := by
  ext cy
  exact and_congr_right fun _ ↦ and_congr_right fun _ ↦
    forall_congr' fun e ↦ imp_congr_right fun _ ↦ h e.frm

/-- A component that is too small for a cycle has none. -/
theorem Graph.cyclesOf_of_length_lt (g : Graph) {scc : List LockId} (h : scc.length < 2) :
    g.cyclesOf scc = ∅ := by
  ext cy
  refine iff_of_false ?_ (Set.notMem_empty cy)
  rintro ⟨hcy, -, hw⟩
  exact absurd (hcy.two_le_of_subset hw) (by omega)

/-- The components of the graph that have cycles are those that `tarjanScc` returns. -/
theorem exists_tarjanScc_of_isScc {g : Graph} {scc : List LockId} (h : IsScc g.Edge scc)
    (h2 : 2 ≤ scc.length) :
    ∃ scc' ∈ tarjanScc (adjacency g.edges), ∀ v, v ∈ scc ↔ v ∈ scc' := by
  obtain ⟨v, hv, w, hw, hne⟩ : ∃ v ∈ scc, ∃ w ∈ scc, v ≠ w := by
    match scc, h.nodup, h2 with
    | v :: w :: _, hnodup, _ =>
        refine ⟨v, List.mem_cons_self, w, by simp, ?_⟩
        exact fun e ↦ (List.nodup_cons.mp hnodup).1 (e ▸ List.mem_cons_self)
  obtain ⟨l, hl⟩ := exists_simpleCycle ((h.mem_iff v hv w).mp hw) hne
  obtain ⟨cy, -, hcycle, hfrm⟩ := exists_closeCycle hl
  obtain ⟨scc', hscc', -, hsub⟩ := hcycle.exists_scc
  have hv' : v ∈ scc' := by
    obtain ⟨e, he, hve⟩ :=
      List.mem_map.mp (hfrm ▸ List.mem_cons_self : v ∈ cy.edges.map CycleEdge.frm)
    exact hve ▸ hsub e he
  refine ⟨scc', hscc', fun x ↦ ?_⟩
  rw [h.mem_iff v hv x, (isScc_of_mem_tarjanScc hscc').mem_iff v hv' x]

/-- The budget leaves room for all reports in each component. -/
def Graph.Roomy (g : Graph) (maxPerScc : Int) : Prop :=
  ∀ scc, IsScc g.Edge scc → (∑ᶠ cy ∈ g.cyclesOf scc, cy.edges.length : Nat) ≤ maxPerScc

theorem roomy_iff (g : Graph) {maxPerScc : Int} (h0 : 0 ≤ maxPerScc) :
    g.Roomy maxPerScc ↔
      ∀ scc ∈ tarjanScc (adjacency g.edges), (cyclesIn g scc).length ≤ maxPerScc := by
  constructor
  · intro h scc hscc
    have hscc := isScc_of_mem_tarjanScc hscc
    rw [length_cyclesIn g hscc.nodup]
    exact h scc hscc
  · intro h scc hscc
    rcases Nat.lt_or_ge scc.length 2 with hlt | h2
    · rw [g.cyclesOf_of_length_lt hlt, finsum_mem_empty]
      exact h0
    · obtain ⟨scc', hscc', hmem⟩ := exists_tarjanScc_of_isScc hscc h2
      rw [g.cyclesOf_congr hmem, ← length_cyclesIn g (isScc_of_mem_tarjanScc hscc').nodup]
      exact h scc' hscc'

/-! ## The order of the edges -/

section

variable {g g' : Graph} (h : ∀ key, g'.edges.get? key = g.edges.get? key)
include h

theorem edge_congr : g'.Edge = g.Edge := by
  funext v w
  refine propext ?_
  show _ ∈ g'.edges ↔ _ ∈ g.edges
  rw [← Dict.get?_isSome_iff, h, Dict.get?_isSome_iff]

theorem hasCycle_congr (cy : Cycle) : g'.HasCycle cy ↔ g.HasCycle cy := by
  have hedge := edge_congr h
  constructor
  · rintro ⟨hs, hl, hi⟩
    exact ⟨hedge ▸ hs, hl, fun e he ↦ h ⟨e.frm, e.to⟩ ▸ hi e he⟩
  · rintro ⟨hs, hl, hi⟩
    exact ⟨hedge ▸ hs, hl, fun e he ↦ h ⟨e.frm, e.to⟩ ▸ hi e he⟩

theorem cyclesOf_congr_edges (scc : List LockId) : g'.cyclesOf scc = g.cyclesOf scc := by
  ext cy
  exact and_congr_left fun _ ↦ hasCycle_congr h cy

theorem roomy_congr (maxPerScc : Int) : g'.Roomy maxPerScc ↔ g.Roomy maxPerScc := by
  unfold Graph.Roomy
  simp only [cyclesOf_congr_edges h, edge_congr h]

end

/-! ## The result -/

theorem mem_findCycles_of_roomy {g : Graph} {maxPerScc : Int} (h : g.Roomy maxPerScc) (cy : Cycle) :
    cy ∈ findCycles g maxPerScc ↔ g.HasCycle cy ∧ cy.Canonical := by
  refine ⟨findCycles_sound, fun ⟨hcy, hc⟩ ↦ mem_findCycles_iff.mpr ⟨cy, ?_, ?_⟩⟩
  · obtain ⟨scc, hscc, h2, hw⟩ := hcy.exists_scc
    refine mem_rawCycles_iff.mpr ⟨scc, hscc, h2, ?_⟩
    have hroom := h scc (isScc_of_mem_tarjanScc hscc)
    rw [← length_cyclesIn g (isScc_of_mem_tarjanScc hscc).nodup] at hroom
    rw [List.take_of_length_le (by omega)]
    exact mem_cyclesIn_iff.mpr ⟨hcy, hw⟩
  · simpa using (hcy.canon_rotate hc 0).symm

theorem nodup_findCycles (g : Graph) (maxPerScc : Int) : (findCycles g maxPerScc).Nodup := by
  refine (pairwise_findCycles g maxPerScc).imp ?_
  rintro a b hlt rfl
  exact lt_irrefl _ hlt

/-- Two results with the same cycles are the same. -/
theorem findCycles_eq_of_mem_iff {g g' : Graph} {maxPerScc maxPerScc' : Int}
    (h : ∀ cy, cy ∈ findCycles g maxPerScc ↔ cy ∈ findCycles g' maxPerScc') :
    findCycles g maxPerScc = findCycles g' maxPerScc' := by
  have hperm : (findCycles g maxPerScc).Perm (findCycles g' maxPerScc') :=
    (List.perm_ext_iff_of_nodup (nodup_findCycles _ _) (nodup_findCycles _ _)).mpr h
  refine hperm.eq_of_pairwise ?_ (pairwise_findCycles _ _) (pairwise_findCycles _ _)
  intro a b _ _ hab hba
  exact absurd hba (lt_asymm hab)

/-- **Exact enumeration.**  If the budget is at least the sum of the lengths of the simple cycles
of each component, the result lists all simple cycles of the graph, each once and in canonical
form, whatever the order in which the edges were recorded. -/
theorem findCycles_exact (g : Graph) (maxPerScc : Int)
    (hmax : ∀ scc, IsScc g.Edge scc →
      (∑ᶠ cy ∈ g.cyclesOf scc, cy.edges.length : Nat) ≤ maxPerScc) :
    (∀ cy, cy ∈ findCycles g maxPerScc ↔ g.HasCycle cy ∧ cy.Canonical) ∧
      (findCycles g maxPerScc).Nodup ∧
      (∀ cy, g.HasCycle cy → ∃! a, a ∈ findCycles g maxPerScc ∧ a.edges ~r cy.edges) ∧
      ∀ g' : Graph, (∀ key, g'.edges.get? key = g.edges.get? key) →
        findCycles g' maxPerScc = findCycles g maxPerScc := by
  have hmem := mem_findCycles_of_roomy hmax
  refine ⟨hmem, nodup_findCycles g maxPerScc, fun cy hcy ↦ ?_, fun g' hg' ↦ ?_⟩
  · simp only [hmem]
    exact hcy.existsUnique_canonical
  · refine findCycles_eq_of_mem_iff fun cy ↦ ?_
    rw [hmem, mem_findCycles_of_roomy ((roomy_congr hg' maxPerScc).mpr hmax), hasCycle_congr hg']

theorem findCycles_exact_inversion :
    (∀ cy, cy ∈ findCycles (replay inversion {}) 2 ↔
        (replay inversion {}).HasCycle cy ∧ cy.Canonical) ∧
      (findCycles (replay inversion {}) 2).Nodup ∧
      (∀ cy, (replay inversion {}).HasCycle cy →
        ∃! a, a ∈ findCycles (replay inversion {}) 2 ∧ a.edges ~r cy.edges) ∧
      ∀ g' : Graph, (∀ key, g'.edges.get? key = (replay inversion {}).edges.get? key) →
        findCycles g' 2 = findCycles (replay inversion {}) 2 :=
  findCycles_exact (replay inversion {}) 2
    ((roomy_iff (replay inversion {}) (by decide)).mpr (by decide))

end DeadLockDetect.Analyzer
