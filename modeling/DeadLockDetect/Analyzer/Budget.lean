import DeadLockDetect.Analyzer.Enumerate

/-!
# What the budget counts

The budget of a component counts the reports of the search, and the search reports a cycle once
from each of its vertices; only afterwards are the rotations of one cycle merged.  So a component
can yield fewer cycles than the budget allows although it has more (`not_ncard_findCycles_eq_min`).

The first report of a cycle is the one from the vertex that comes first in the component
(`Cycle.FirstRun`).  The number of cycles is what it should be exactly when the budget runs out
before any cycle is reported again, or only after every cycle has been reported
(`ncard_findCycles_eq_min_iff`).
-/

namespace DeadLockDetect.Analyzer

open DeadLockDetect.Digraph

/-! ## Counting the classes in a prefix of a list -/

section

variable {α β : Type*} [DecidableEq α] [DecidableEq β] {l : List α} {c : α → β} {p : α → Prop}
  [DecidablePred p]

/-- If the elements with the property `p` represent the classes of `c`, they count them. -/
theorem card_image_eq_countP (hl : l.Nodup)
    (hinj : ∀ a ∈ l, p a → ∀ b ∈ l, p b → c a = c b → a = b)
    (hrep : ∀ a ∈ l, ∃ b ∈ l, p b ∧ c b = c a) :
    (l.toFinset.image c).card = l.countP p := by
  have himage : l.toFinset.image c = (l.filter p).toFinset.image c := by
    ext x
    simp only [Finset.mem_image, List.mem_toFinset, List.mem_filter, decide_eq_true_eq]
    constructor
    · rintro ⟨a, ha, rfl⟩
      obtain ⟨b, hb, hp, hc⟩ := hrep a ha
      exact ⟨b, ⟨hb, hp⟩, hc⟩
    · rintro ⟨a, ⟨ha, -⟩, rfl⟩
      exact ⟨a, ha, rfl⟩
  rw [himage, Finset.card_image_of_injOn, List.toFinset_card_of_nodup (hl.filter _),
    List.countP_eq_length_filter]
  intro a ha b hb hab
  simp only [List.coe_toFinset, List.mem_filter, decide_eq_true_eq, Set.mem_ofPred_eq] at ha hb
  exact hinj a ha.1 ha.2 b hb.1 hb.2 hab

/-- A prefix has as many classes as it can exactly when it consists of representatives or contains
all of them. -/
theorem card_image_take_eq_min_iff (hl : l.Nodup)
    (hinj : ∀ a ∈ l, p a → ∀ b ∈ l, p b → c a = c b → a = b)
    (hrep : ∀ n, ∀ a ∈ l.take n, ∃ b ∈ l.take n, p b ∧ c b = c a) (n : Nat) :
    ((l.take n).toFinset.image c).card = min n (l.toFinset.image c).card ↔
      (∀ a ∈ l.take n, p a) ∨ ∀ a ∈ l, p a → a ∈ l.take n := by
  have htake := card_image_eq_countP (hl.sublist (List.take_sublist n l))
    (fun a ha hp b hb hp' ↦ hinj a (List.mem_of_mem_take ha) hp b (List.mem_of_mem_take hb) hp')
    (hrep n)
  have hall := card_image_eq_countP hl hinj (by simpa using hrep l.length)
  have hsplit : l.countP p = (l.take n).countP p + (l.drop n).countP p := by
    rw [← List.countP_append, List.take_append_drop]
  have hle : (l.take n).countP p ≤ (l.take n).length := List.countP_le_length
  have hlen : (l.take n).length = min n l.length := List.length_take
  have hleall : l.countP p ≤ l.length := List.countP_le_length
  rw [htake, hall]
  -- the elements after the prefix are not representatives
  have hdrop : (∀ a ∈ l, p a → a ∈ l.take n) ↔ (l.drop n).countP p = 0 := by
    rw [List.countP_eq_zero]
    have hdisj : List.Disjoint (l.take n) (l.drop n) := List.disjoint_take_drop hl (le_refl n)
    constructor
    · intro h a ha hp
      exact hdisj (h a (List.mem_of_mem_drop ha) (of_decide_eq_true hp)) ha
    · intro h a ha hp
      rw [← List.take_append_drop n l, List.mem_append] at ha
      exact ha.resolve_right fun hd ↦ h a hd (decide_eq_true hp)
  have hprefix : (∀ a ∈ l.take n, p a) ↔ (l.take n).countP p = (l.take n).length := by
    rw [List.countP_eq_length]
    simp only [decide_eq_true_eq]
  rw [hdrop, hprefix]
  omega

end

/-! ## First reports -/

/-- The cycle is run from the vertex of it that comes first in the component. -/
def Cycle.FirstRun (scc : List LockId) (cy : Cycle) : Prop :=
  ∀ first ∈ cy.edges.head?, ∀ e ∈ cy.edges, scc.idxOf first.frm ≤ scc.idxOf e.frm

/-- What the search in a component finds before it finds `cy`. -/
def Graph.earlier (g : Graph) (scc : List LockId) (cy : Cycle) : Set Cycle :=
  {a | (g.HasCycle a ∧ a.Within scc) ∧ a.searchKey g scc < cy.searchKey g scc}

theorem searchKey_eq_cons (g : Graph) (scc : List LockId) {cy : Cycle} {first : CycleEdge}
    (h : first ∈ cy.edges.head?) : ∃ r, cy.searchKey g scc = scc.idxOf first.frm :: r := by
  obtain ⟨es, hes⟩ := List.head?_eq_some_iff.mp h
  rw [Cycle.searchKey, hes]
  exact ⟨_, rfl⟩

namespace Graph.HasCycle

variable {g : Graph} {scc : List LockId} {a b : Cycle}

/-- A cycle that is not run from its first vertex is reported from there before. -/
theorem exists_firstRun (h : g.HasCycle a) (scc : List LockId) :
    ∃ b, (∃ n, b = ⟨a.edges.rotate n⟩) ∧ b.FirstRun scc ∧
      (b = a ∨ b.searchKey g scc < a.searchKey g scc) := by
  by_cases hfirst : a.FirstRun scc
  · exact ⟨a, ⟨0, by rw [List.rotate_zero]⟩, hfirst, Or.inl rfl⟩
  · obtain ⟨e, he, hmin⟩ := a.edges.toFinset.exists_min_image (fun e ↦ scc.idxOf e.frm)
      (List.toFinset_nonempty_iff a.edges |>.mpr h.ne_nil)
    simp only [List.mem_toFinset] at he hmin
    obtain ⟨i, hi, rfl⟩ := List.mem_iff_getElem.mp he
    have hhead : a.edges[i] ∈ (a.edges.rotate i).head? := by
      rw [List.head?_rotate hi]
      exact List.getElem?_eq_getElem hi
    refine ⟨⟨a.edges.rotate i⟩, ⟨i, rfl⟩, ?_, Or.inr ?_⟩
    · intro first hf d hd
      cases hhead.symm.trans hf
      exact hmin d (List.mem_rotate.mp hd)
    · unfold Cycle.FirstRun at hfirst
      push Not at hfirst
      obtain ⟨first, hf, d, hd, hlt⟩ := hfirst
      obtain ⟨r, hr⟩ : ∃ r, Cycle.searchKey g scc ⟨a.edges.rotate i⟩ = scc.idxOf _ :: r :=
        searchKey_eq_cons g scc hhead
      obtain ⟨r', hr'⟩ := searchKey_eq_cons g scc hf
      rw [hr, hr']
      exact List.cons_lt_cons_iff.mpr (Or.inl ((hmin d hd).trans_lt hlt))

/-- A cycle has one first report. -/
theorem eq_of_firstRun (ha : g.HasCycle a) (hb : g.HasCycle b) (hw : a.Within scc)
    (hfa : a.FirstRun scc) (hfb : b.FirstRun scc) (h : Analyzer.canon a = Analyzer.canon b) :
    a = b := by
  obtain ⟨m, hm⟩ := (canon_spec a).1
  obtain ⟨n, hn⟩ := (canon_spec b).1
  have hrot : a.edges ~r b.edges := by
    have he : a.edges.rotate m = b.edges.rotate n :=
      congrArg Cycle.edges (hm.symm.trans (h.trans hn))
    exact (List.IsRotated.forall a.edges m).symm.trans (he ▸ List.IsRotated.forall b.edges n)
  refine ha.eq_of_isRotated (f := scc.idxOf) hb ?_ hfa hfb hrot
  intro d hd e he hde
  exact (List.idxOf_inj (hw d hd)).mp hde

end Graph.HasCycle

section

variable {g : Graph} {scc : List LockId} {cy : Cycle} {n : Nat}

theorem mem_take_iff_earlier (hscc : scc.Nodup) : cy ∈ (cyclesIn g scc).take n ↔
    (g.HasCycle cy ∧ cy.Within scc) ∧ (g.earlier scc cy).ncard < n :=
  mem_take_cyclesIn_iff hscc

/-- What is found before a report within the budget is within the budget. -/
theorem mem_take_of_searchKey_lt (hscc : scc.Nodup) {a b : Cycle}
    (ha : a ∈ (cyclesIn g scc).take n) (hb : g.HasCycle b ∧ b.Within scc)
    (hlt : b.searchKey g scc < a.searchKey g scc) : b ∈ (cyclesIn g scc).take n := by
  rw [mem_take_iff_earlier hscc] at ha ⊢
  refine ⟨hb, lt_of_le_of_lt (Set.ncard_le_ncard ?_ ?_) ha.2⟩
  · rintro x ⟨hx, hlt'⟩
    exact ⟨hx, hlt'.trans hlt⟩
  · refine (cyclesIn g scc).toFinset.finite_toSet.subset ?_
    rintro x ⟨hx, -⟩
    simpa using mem_cyclesIn_iff.mpr hx

/-- The cycles of a component that are returned. -/
theorem mem_findCycles_within_iff {maxPerScc : Int} (hscc : scc ∈ tarjanScc (adjacency g.edges))
    (h2 : 2 ≤ scc.length) : cy ∈ findCycles g maxPerScc ∧ cy.Within scc ↔
      ∃ a ∈ (cyclesIn g scc).take maxPerScc.toNat, canon a = cy := by
  rw [mem_findCycles_iff]
  constructor
  · rintro ⟨⟨a, ha, rfl⟩, hw⟩
    obtain ⟨scc', hscc', -, hmem⟩ := mem_rawCycles_iff.mp ha
    obtain ⟨hcy, hw'⟩ := mem_cyclesIn_iff.mp (List.mem_of_mem_take hmem)
    obtain ⟨e, es, he⟩ := List.exists_cons_of_ne_nil hcy.ne_nil
    have hein : e ∈ a.edges := by rw [he]; exact List.mem_cons_self
    -- a vertex is in one component only
    have heq : scc' = scc := by
      by_contra hne
      have hdisj := (List.nodup_flatten.mp (tarjanScc_nodup (adjacency g.edges))).2
      have hsymm : Std.Symm (List.Disjoint : List LockId → List LockId → Prop) :=
        ⟨fun _ _ h ↦ h.symm⟩
      exact hdisj.forall hscc' hscc hne (hw' e hein)
        (Graph.HasCycle.within_canon.mp hw e hein)
    exact ⟨a, heq ▸ hmem, rfl⟩
  · rintro ⟨a, ha, rfl⟩
    obtain ⟨-, hw⟩ := mem_cyclesIn_iff.mp (List.mem_of_mem_take ha)
    exact ⟨⟨a, mem_rawCycles_iff.mpr ⟨scc, hscc, h2, ha⟩, rfl⟩,
      Graph.HasCycle.within_canon.mpr hw⟩

end

/-! ## The number of cycles -/

/-- The number of cycles of a component that are returned. -/
theorem ncard_findCycles (g : Graph) {scc : List LockId} {maxPerScc : Int}
    (hscc : scc ∈ tarjanScc (adjacency g.edges)) (h2 : 2 ≤ scc.length) :
    {cy | cy ∈ findCycles g maxPerScc ∧ cy.Within scc}.ncard =
      (((cyclesIn g scc).take maxPerScc.toNat).toFinset.image canon).card := by
  rw [← Set.ncard_coe_finset]
  congr 1
  ext cy
  rw [Finset.mem_coe, Finset.mem_image]
  simp only [List.mem_toFinset]
  exact mem_findCycles_within_iff hscc h2

theorem ncard_cyclesOf (g : Graph) (scc : List LockId) :
    (g.cyclesOf scc).ncard = ((cyclesIn g scc).toFinset.image canon).card := by
  rw [cyclesOf_eq_image, Set.ncard_coe_finset]

/-- **When the budget counts cycles.**  A component yields as many cycles as the budget allows
exactly when nothing within the budget is a second report of a cycle, or every cycle is reported
within the budget. -/
theorem ncard_findCycles_eq_min_iff (g : Graph) (maxPerScc : Int) (scc : List LockId)
    (hscc : scc ∈ tarjanScc (adjacency g.edges)) (h2 : 2 ≤ scc.length) :
    {cy | cy ∈ findCycles g maxPerScc ∧ cy.Within scc}.ncard =
        min maxPerScc.toNat (g.cyclesOf scc).ncard ↔
      (∀ cy, g.HasCycle cy → cy.Within scc → ¬ cy.FirstRun scc →
        maxPerScc.toNat ≤ (g.earlier scc cy).ncard) ∨
      ∀ cy, g.HasCycle cy → cy.Within scc → cy.FirstRun scc →
        (g.earlier scc cy).ncard < maxPerScc.toNat := by
  classical
  have hnodup : scc.Nodup := (isScc_of_mem_tarjanScc hscc).nodup
  rw [ncard_findCycles g hscc h2, ncard_cyclesOf,
    card_image_take_eq_min_iff (p := Cycle.FirstRun scc) (nodup_cyclesIn g hnodup)]
  · simp only [mem_take_iff_earlier hnodup, mem_cyclesIn_iff]
    refine or_congr (forall_congr' fun cy ↦ ?_) (forall_congr' fun cy ↦ ?_)
    · constructor
      · intro h hcy hw hfirst
        by_contra hlt
        exact hfirst (h ⟨⟨hcy, hw⟩, not_le.mp hlt⟩)
      · rintro h ⟨⟨hcy, hw⟩, hlt⟩
        by_contra hfirst
        exact absurd (h hcy hw hfirst) (not_le.mpr hlt)
    · constructor
      · exact fun h hcy hw hfirst ↦ (h ⟨hcy, hw⟩ hfirst).2
      · rintro h ⟨hcy, hw⟩ hfirst
        exact ⟨⟨hcy, hw⟩, h hcy hw hfirst⟩
  · intro a ha hfa b hb hfb hab
    obtain ⟨hcy, hw⟩ := mem_cyclesIn_iff.mp ha
    exact hcy.eq_of_firstRun (mem_cyclesIn_iff.mp hb).1 hw hfa hfb hab
  · intro n a ha
    obtain ⟨hcy, hw⟩ := mem_cyclesIn_iff.mp (List.mem_of_mem_take ha)
    obtain ⟨b, ⟨k, rfl⟩, hfirst, hb⟩ := hcy.exists_firstRun scc
    refine ⟨⟨a.edges.rotate k⟩, ?_, hfirst,
      hcy.canon_eq_of_isRotated (List.IsRotated.forall a.edges k)⟩
    rcases hb with hb | hlt
    · rwa [hb]
    · exact mem_take_of_searchKey_lt hnodup ha
        ⟨hcy.rotate k, (Graph.HasCycle.within_rotate k).mpr hw⟩ hlt

/-- The lock lifetimes `1`, `2` and `3`, with the middle one in two cycles. -/
def twoCycles : Graph where
  edges := [(1, 2), (2, 3), (3, 2), (2, 1)].foldl
    (fun edges (e : Int × Int) ↦ edges.set ⟨⟨e.1, 1⟩, ⟨e.2, 1⟩⟩ {}) .empty

/-- The component of these locks, in the order of the search. -/
def twoCyclesScc : List LockId := [⟨3, 1⟩, ⟨2, 1⟩, ⟨1, 1⟩]

theorem mem_tarjanScc_twoCycles : twoCyclesScc ∈ tarjanScc (adjacency twoCycles.edges) := by
  decide

/-- The budget is used for the first report of a cycle. -/
theorem ncard_findCycles_eq_min_iff_twoCycles :
    {cy | cy ∈ findCycles twoCycles 1 ∧ cy.Within twoCyclesScc}.ncard =
      min (1 : Int).toNat (twoCycles.cyclesOf twoCyclesScc).ncard := by
  refine (ncard_findCycles_eq_min_iff twoCycles 1 twoCyclesScc mem_tarjanScc_twoCycles
    (by decide)).mpr (Or.inl fun cy hcy hw hfirst ↦ ?_)
  have hall : ∀ cy ∈ (cyclesIn twoCycles twoCyclesScc).take 1, ∀ first ∈ cy.edges.head?,
      ∀ e ∈ cy.edges, twoCyclesScc.idxOf first.frm ≤ twoCyclesScc.idxOf e.frm := by decide
  by_contra hlt
  exact hfirst (hall cy ((mem_take_iff_earlier (by decide)).mpr ⟨⟨hcy, hw⟩, not_le.mp hlt⟩))

/-- With a budget of two, one of the two cycles is reported twice and the other not at all. -/
theorem not_ncard_findCycles_eq_min : ¬ ∀ (g : Graph) (maxPerScc : Int) (scc : List LockId),
    (∀ v, ¬ g.Edge v v) → 1 ≤ maxPerScc → scc ∈ tarjanScc (adjacency g.edges) → 2 ≤ scc.length →
      {cy | cy ∈ findCycles g maxPerScc ∧ cy.Within scc}.ncard =
        min maxPerScc.toNat (g.cyclesOf scc).ncard := by
  intro h
  have hloop : ∀ v, ¬ twoCycles.Edge v v := by
    intro v hv
    have hall : ∀ key ∈ twoCycles.edges.keys, key.frm ≠ key.to := by decide
    exact hall ⟨v, v⟩ hv rfl
  have hcard := h twoCycles 2 twoCyclesScc hloop (by decide) mem_tarjanScc_twoCycles (by decide)
  rw [ncard_findCycles _ mem_tarjanScc_twoCycles (by decide), ncard_cyclesOf] at hcard
  exact absurd hcard (by decide)

end DeadLockDetect.Analyzer
