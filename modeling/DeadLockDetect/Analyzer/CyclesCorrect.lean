import DeadLockDetect.Analyzer.Cycles
import DeadLockDetect.Analyzer.History

/-!
# What `find_cycles` returns

The cycles returned by `findCycles`, related to the graph of the edges:

* `mem_cyclesIn_iff`: the search in a component, not stopped by the budget, reports the simple
  cycles inside the component, each of them as it runs from each of its vertices;
* `mem_findCycles_iff`: the result lists, rotated to its least vertex, each cycle that is among the
  first reports of its component, as many as the budget allows;
* `findCycles_sound_complete`: the returned cycles are cycles of the graph, in canonical form and
  strictly increasing order, and there is one if the graph has a directed cycle at all.
-/

namespace DeadLockDetect.Analyzer

open DeadLockDetect.Digraph Backtrack Relation

/-! ## The graph of the edges -/

/-- There is an edge from `v` to `w`. -/
def Graph.Edge (g : Graph) (v w : LockId) : Prop := (⟨v, w⟩ : EdgeKey) ∈ g.edges

theorem neigh_addAdj (adj : Dict LockId (List LockId)) (key : EdgeKey) (v : LockId) :
    neigh (addAdj adj key) v = neigh adj v ++ if key.frm = v then [key.to] else [] := by
  have hset : neigh (adj.set key.frm (neigh adj key.frm ++ [key.to])) v =
      neigh adj v ++ if key.frm = v then [key.to] else [] := by
    rw [neigh, Dict.getD_set]
    by_cases hv : v = key.frm
    · rw [if_pos hv, if_pos hv.symm, hv]
    · rw [if_neg hv, if_neg fun e ↦ hv e.symm, List.append_nil]
      rfl
  unfold addAdj
  dsimp only
  split
  · exact hset
  · rename_i hto
    rw [← hset, neigh, Dict.getD_set]
    split
    · rename_i hv
      rw [hv, neigh, Dict.getD, Dict.get?_eq_none_iff.mpr hto]
      rfl
    · rfl

theorem mem_addAdj (adj : Dict LockId (List LockId)) (key : EdgeKey) (v : LockId) :
    v ∈ addAdj adj key ↔ v ∈ adj ∨ v = key.frm ∨ v = key.to := by
  unfold addAdj
  dsimp only
  split
  · rename_i hto
    rw [Dict.mem_set] at hto ⊢
    constructor
    · rintro (h | h)
      · exact Or.inr (Or.inl h)
      · exact Or.inl h
    · rintro (h | h | rfl)
      · exact Or.inr h
      · exact Or.inl h
      · exact hto
  · rw [Dict.mem_set, Dict.mem_set]
    tauto

/-- The neighbours, in the order of the edges. -/
theorem neigh_foldl (keys : List EdgeKey) (adj : Dict LockId (List LockId)) (v : LockId) :
    neigh (keys.foldl addAdj adj) v =
      neigh adj v ++ (keys.filter fun key ↦ key.frm = v).map EdgeKey.to := by
  induction keys generalizing adj with
  | nil => simp
  | cons key keys ih =>
      rw [List.foldl_cons, ih, neigh_addAdj, List.filter_cons]
      by_cases hv : key.frm = v
      · simp [hv]
      · simp [hv]

theorem mem_foldl_addAdj (keys : List EdgeKey) (adj : Dict LockId (List LockId)) (v : LockId) :
    v ∈ keys.foldl addAdj adj ↔ v ∈ adj ∨ ∃ key ∈ keys, v = key.frm ∨ v = key.to := by
  induction keys generalizing adj with
  | nil => simp
  | cons key keys ih =>
      rw [List.foldl_cons, ih, mem_addAdj, or_assoc]
      simp only [List.exists_mem_cons_iff]

theorem neigh_adjacency (g : Graph) (v : LockId) : neigh (adjacency g.edges) v =
    (g.edges.keys.filter fun key ↦ key.frm = v).map EdgeKey.to :=
  neigh_foldl g.edges.keys .empty v

/-- The neighbours of a vertex are the ends of its edges. -/
theorem mem_neigh_adjacency (g : Graph) (v w : LockId) :
    w ∈ neigh (adjacency g.edges) v ↔ g.Edge v w := by
  rw [neigh_adjacency, List.mem_map]
  constructor
  · rintro ⟨⟨a, b⟩, hkey, rfl⟩
    obtain ⟨hmem, hfrm⟩ := List.mem_filter.mp hkey
    rw [← of_decide_eq_true hfrm]
    exact hmem
  · intro h
    exact ⟨⟨v, w⟩, List.mem_filter.mpr ⟨h, decide_eq_true rfl⟩, rfl⟩

/-- No neighbour is listed twice. -/
theorem nodup_neigh_adjacency (g : Graph) (v : LockId) : (neigh (adjacency g.edges) v).Nodup := by
  rw [neigh_adjacency]
  refine List.Nodup.map_on ?_ (g.edges.keys_nodup.filter _)
  rintro ⟨a, b⟩ ha ⟨a', b'⟩ ha' rfl
  have h := of_decide_eq_true (List.mem_filter.mp ha).2
  have h' := of_decide_eq_true (List.mem_filter.mp ha').2
  dsimp only at h h'
  rw [h, h']

/-- The vertices are the ends of the edges. -/
theorem mem_adjacency (g : Graph) (v : LockId) :
    v ∈ adjacency g.edges ↔ ∃ key ∈ g.edges.keys, v = key.frm ∨ v = key.to := by
  rw [adjacency, mem_foldl_addAdj]
  exact or_iff_right (Dict.notMem_empty v)

theorem adj_eq_edge (g : Graph) : Adj (adjacency g.edges) = g.Edge := by
  funext v w
  exact propext (mem_neigh_adjacency g v w)

/-- A component found by `tarjanScc` is a component of the graph of the edges. -/
theorem isScc_of_mem_tarjanScc {g : Graph} {scc : List LockId}
    (h : scc ∈ tarjanScc (adjacency g.edges)) : IsScc g.Edge scc := by
  rw [← adj_eq_edge]
  exact tarjanScc_isScc _ h

/-- Every vertex of a cycle is in a component. -/
theorem exists_scc_of_edge {g : Graph} {v w : LockId} (h : g.Edge v w) :
    ∃ scc ∈ tarjanScc (adjacency g.edges), v ∈ scc :=
  exists_mem_tarjanScc _ ((mem_adjacency g v).mpr ⟨⟨v, w⟩, h, Or.inl rfl⟩)

/-! ## Cycles of the graph -/

/-- `cy` is a simple cycle of the graph, with the information stored with its edges. -/
structure Graph.HasCycle (g : Graph) (cy : Cycle) : Prop where
  /-- The vertices run around a simple cycle of length at least two. -/
  simple : SimpleCycle g.Edge (cy.edges.map CycleEdge.frm)
  /-- Each edge ends where the next one begins, the last where the first begins. -/
  linked : cy.edges.map CycleEdge.to = (cy.edges.map CycleEdge.frm).rotate 1
  /-- Each edge is in the graph, with this information. -/
  info : ∀ e ∈ cy.edges, ∃ i, e.info = some i ∧ g.edges.get? ⟨e.frm, e.to⟩ = some i

namespace Graph.HasCycle

variable {g : Graph} {a b : Cycle}

theorem ne_nil (h : g.HasCycle a) : a.edges ≠ [] := by
  intro he
  have := h.simple.two_le
  rw [he] at this
  exact absurd this (by decide)

/-- A cycle is determined by the list of its vertices. -/
theorem edges_eq (h : g.HasCycle a) : a.edges =
    List.zipWith (fun v w ↦ ⟨v, w, g.edges.get? ⟨v, w⟩⟩) (a.edges.map CycleEdge.frm)
      (a.edges.map CycleEdge.to) := by
  have hinfo : ∀ e ∈ a.edges, e = ⟨e.frm, e.to, g.edges.get? ⟨e.frm, e.to⟩⟩ := by
    intro e he
    obtain ⟨i, hi, hg⟩ := h.info e he
    rw [hg, ← hi]
  calc a.edges = a.edges.map id := (List.map_id a.edges).symm
    _ = a.edges.map fun e ↦ ⟨e.frm, e.to, g.edges.get? ⟨e.frm, e.to⟩⟩ := List.map_congr_left hinfo
    _ = _ := by rw [List.zipWith_map, List.zipWith_self]

theorem ext (ha : g.HasCycle a) (hb : g.HasCycle b)
    (h : a.edges.map CycleEdge.frm = b.edges.map CycleEdge.frm) : a = b := by
  obtain ⟨as⟩ := a
  obtain ⟨bs⟩ := b
  have has := ha.edges_eq
  have hbs := hb.edges_eq
  rw [ha.linked, h] at has
  rw [hb.linked] at hbs
  exact congrArg Cycle.mk (has.trans hbs.symm)

/-- A cycle is one from whichever of its vertices it is run through. -/
theorem rotate (h : g.HasCycle a) (n : Nat) : g.HasCycle ⟨a.edges.rotate n⟩ where
  simple := by
    rw [List.map_rotate]
    exact h.simple.rotate ⟨n, rfl⟩
  linked := by
    rw [List.map_rotate, List.map_rotate, h.linked, List.rotate_rotate, List.rotate_rotate,
      Nat.add_comm]
  info e he := h.info e (List.mem_rotate.mp he)

end Graph.HasCycle

/-! ## Closing a path -/

/-- Of linked edges, the first ends where the next one begins, and the rest is linked. -/
theorem linked_of_cons {a : LockId} {e : CycleEdge} {es : List CycleEdge}
    (h : (e :: es).map CycleEdge.to = ((e :: es).map CycleEdge.frm ++ [a]).tail) :
    (∃ bs, es.map CycleEdge.frm ++ [a] = e.to :: bs) ∧
      es.map CycleEdge.to = (es.map CycleEdge.frm ++ [a]).tail := by
  rw [List.map_cons, List.map_cons, List.cons_append, List.tail_cons] at h
  rw [← h]
  exact ⟨⟨_, rfl⟩, rfl⟩

theorem cycleEdges_spec {edges : Dict EdgeKey EdgeInfo} {start : LockId} {p : List LockId}
    {es : List CycleEdge} (h : cycleEdges edges start p = some es) :
    es.map CycleEdge.frm = p ∧ es.map CycleEdge.to = (p ++ [start]).tail ∧
      ∀ e ∈ es, ∃ i, e.info = some i ∧ edges.get? ⟨e.frm, e.to⟩ = some i := by
  induction p generalizing es with
  | nil =>
      cases h
      exact ⟨rfl, rfl, fun e he ↦ absurd he List.not_mem_nil⟩
  | cons v p ih =>
      rw [cycleEdges] at h
      split at h
      · cases h
      · rename_i i hi
        obtain ⟨es', hes', rfl⟩ := Option.map_eq_some_iff.mp h
        obtain ⟨hfrm, hto, hinfo⟩ := ih hes'
        refine ⟨?_, ?_, ?_⟩
        · rw [List.map_cons, hfrm]
        · rw [List.map_cons, hto, List.cons_append, List.tail_cons]
          cases p <;> rfl
        · intro e he
          rcases List.mem_cons.mp he with rfl | he
          · exact ⟨i, rfl, hi⟩
          · exact hinfo e he

theorem exists_cycleEdges {g : Graph} {start v : LockId} {p : List LockId}
    (h : List.IsChain g.Edge (v :: p ++ [start])) :
    ∃ es, cycleEdges g.edges start (v :: p) = some es := by
  induction p generalizing v with
  | nil =>
      obtain ⟨hv, -⟩ := List.isChain_cons_cons.mp h
      obtain ⟨i, hi⟩ := Dict.exists_get?_of_mem hv
      refine ⟨[⟨v, start, some i⟩], ?_⟩
      rw [cycleEdges]
      simp only [List.head?_nil, Option.getD_none, hi]
      rfl
  | cons w p ih =>
      obtain ⟨hv, hw⟩ := List.isChain_cons_cons.mp h
      obtain ⟨i, hi⟩ := Dict.exists_get?_of_mem hv
      obtain ⟨es, hes⟩ := ih hw
      refine ⟨⟨v, w, some i⟩ :: es, ?_⟩
      rw [cycleEdges]
      simp only [List.head?_cons, Option.getD_some, hi, hes]
      rfl

/-- The vertices of a simple cycle close to a cycle of the graph. -/
theorem exists_closeCycle {g : Graph} {start : LockId} {p : List LockId}
    (hp : SimpleCycle g.Edge (start :: p)) : ∃ cy, closeCycle g.edges start (start :: p) = some cy ∧
      g.HasCycle cy ∧ cy.edges.map CycleEdge.frm = start :: p := by
  obtain ⟨es, hes⟩ := exists_cycleEdges ((Cycle.chain_coe_cons _ _ _).mp hp.chain)
  obtain ⟨hfrm, hto, hinfo⟩ := cycleEdges_spec hes
  refine ⟨⟨es⟩, ?_, ⟨?_, ?_, hinfo⟩, hfrm⟩
  · unfold closeCycle
    rw [hes]
    cases es with
    | nil => cases hfrm
    | cons e es => rfl
  · rw [hfrm]
    exact hp
  · rw [hto, hfrm, List.cons_append, List.tail_cons, List.rotate_cons_succ, List.rotate_zero]

/-- Closing the vertices of a cycle of the graph gives that cycle. -/
theorem closeCycle_eq_some_iff {g : Graph} {start : LockId} {p : List LockId} {cy : Cycle}
    (hp : SimpleCycle g.Edge (start :: p)) : closeCycle g.edges start (start :: p) = some cy ↔
      g.HasCycle cy ∧ cy.edges.map CycleEdge.frm = start :: p := by
  obtain ⟨cy', hclose, hcycle, hfrm⟩ := exists_closeCycle hp
  rw [hclose]
  constructor
  · intro h
    cases h
    exact ⟨hcycle, hfrm⟩
  · rintro ⟨hcy, h⟩
    rw [hcycle.ext hcy (hfrm.trans h.symm)]

/-! ## What the search reports -/

/-- The cycles that the search in a component reports when the budget does not stop it. -/
def cyclesIn (g : Graph) (scc : List LockId) : List Cycle :=
  let c : Search := { edges := g.edges, adj := adjacency g.edges, scc, maxPerScc := 0 }
  scc.flatMap c.cyclesThrough

/-- The search from `start` reports the cycles through `start` inside the component. -/
theorem mem_cyclesThrough_iff {g : Graph} {scc : List LockId} {start : LockId} (h : start ∈ scc)
    {n : Int} {cy : Cycle} :
    cy ∈ (⟨g.edges, adjacency g.edges, scc, n⟩ : Search).cyclesThrough start ↔
      g.HasCycle cy ∧ (cy.edges.map CycleEdge.frm).head? = some start ∧
        ∀ e ∈ cy.edges, e.frm ∈ scc := by
  have hclosed : ∀ p, p ∈ closedPaths (neigh (adjacency g.edges)) scc start [start]
      (neigh (adjacency g.edges) start) ↔
        SimpleCycle g.Edge p.reverse ∧ p.reverse.head? = some start ∧ ∀ x ∈ p, x ∈ scc := by
    intro p
    rw [mem_closedPaths_start_iff h, closedPath_iff, List.head?_reverse]
    exact and_congr_left' (by rw [← adj_eq_edge]; rfl)
  unfold Search.cyclesThrough Search.cyclesFrom
  rw [List.mem_filterMap]
  constructor
  · rintro ⟨p, hp, hcy⟩
    obtain ⟨hs, hhead, hsub⟩ := (hclosed p).mp hp
    obtain ⟨q, hq⟩ : ∃ q, p.reverse = start :: q := List.head?_eq_some_iff.mp hhead
    rw [hq] at hs
    rw [hq, closeCycle_eq_some_iff hs] at hcy
    obtain ⟨hcycle, hfrm⟩ := hcy
    refine ⟨hcycle, by rw [hfrm]; rfl, fun e he ↦ hsub e.frm ?_⟩
    rw [← List.mem_reverse, hq, ← hfrm]
    exact List.mem_map_of_mem he
  · rintro ⟨hcycle, hhead, hsub⟩
    obtain ⟨q, hq⟩ : ∃ q, cy.edges.map CycleEdge.frm = start :: q := List.head?_eq_some_iff.mp hhead
    have hs := hcycle.simple
    rw [hq] at hs
    refine ⟨(start :: q).reverse, (hclosed _).mpr ?_, ?_⟩
    · rw [List.reverse_reverse]
      refine ⟨hs, rfl, fun x hx ↦ ?_⟩
      rw [List.mem_reverse, ← hq] at hx
      obtain ⟨e, he, rfl⟩ := List.mem_map.mp hx
      exact hsub e he
    · rw [List.reverse_reverse]
      exact (closeCycle_eq_some_iff hs).mpr ⟨hcycle, hq⟩

/-- **What the search reports in a component** when the budget does not stop it: the cycles
inside the component, from whichever vertex they are run through. -/
theorem mem_cyclesIn_iff {g : Graph} {scc : List LockId} {cy : Cycle} :
    cy ∈ cyclesIn g scc ↔ g.HasCycle cy ∧ ∀ e ∈ cy.edges, e.frm ∈ scc := by
  unfold cyclesIn
  rw [List.mem_flatMap]
  constructor
  · rintro ⟨start, hstart, hcy⟩
    obtain ⟨hcycle, -, hsub⟩ := (mem_cyclesThrough_iff hstart).mp hcy
    exact ⟨hcycle, hsub⟩
  · rintro ⟨hcycle, hsub⟩
    obtain ⟨e, es, he⟩ := List.exists_cons_of_ne_nil hcycle.ne_nil
    have hstart : e.frm ∈ scc := hsub e (by rw [he]; exact List.mem_cons_self)
    refine ⟨e.frm, hstart, (mem_cyclesThrough_iff hstart).mpr ⟨hcycle, ?_, hsub⟩⟩
    rw [he]
    rfl

/-- A list that has the vertices of a cycle has at least two. -/
theorem Graph.HasCycle.two_le_of_subset {g : Graph} {cy : Cycle} (h : g.HasCycle cy)
    {scc : List LockId} (hsub : ∀ e ∈ cy.edges, e.frm ∈ scc) : 2 ≤ scc.length := by
  have hle : (cy.edges.map CycleEdge.frm).length ≤ scc.length := by
    refine (List.subperm_of_subset h.simple.nodup fun v hv ↦ ?_).length_le
    obtain ⟨e, he, rfl⟩ := List.mem_map.mp hv
    exact hsub e he
  exact le_trans h.simple.two_le hle

/-- The vertices of a cycle lie in one component. -/
theorem Graph.HasCycle.exists_scc {g : Graph} {cy : Cycle} (h : g.HasCycle cy) :
    ∃ scc ∈ tarjanScc (adjacency g.edges), 2 ≤ scc.length ∧ ∀ e ∈ cy.edges, e.frm ∈ scc := by
  obtain ⟨e, es, he⟩ := List.exists_cons_of_ne_nil h.ne_nil
  have hmem : e ∈ cy.edges := by rw [he]; exact List.mem_cons_self
  obtain ⟨i, -, hi⟩ := h.info e hmem
  obtain ⟨scc, hscc, hin⟩ := exists_scc_of_edge (Dict.mem_of_get? hi)
  have hsub : ∀ e' ∈ cy.edges, e'.frm ∈ scc := fun e' he' ↦
    ((isScc_of_mem_tarjanScc hscc).mem_iff e.frm hin e'.frm).mpr
      (h.simple.mutual_of_mem (List.mem_map_of_mem hmem) (List.mem_map_of_mem he'))
  exact ⟨scc, hscc, h.two_le_of_subset hsub, hsub⟩

theorem searchScc_eq (g : Graph) (maxPerScc : Int) (out : List Cycle) (scc : List LockId) :
    searchScc g maxPerScc out scc =
      out ++ if scc.length < 2 then [] else (cyclesIn g scc).take maxPerScc.toNat := by
  unfold searchScc
  split
  · rw [List.append_nil]
  · have h := Search.searchFrom_yields (c := ⟨g.edges, adjacency g.edges, scc, maxPerScc⟩) scc
      (fun _ h ↦ h) ⟨out, 0⟩
    rw [Search.yields, Prod.mk.injEq] at h
    rw [← h.1]
    have hleft : (⟨g.edges, adjacency g.edges, scc, maxPerScc⟩ : Search).left ⟨out, 0⟩ =
        maxPerScc.toNat := congrArg Int.toNat (Int.sub_zero maxPerScc)
    rw [hleft]
    rfl

/-- The raw result: of each component with more than one vertex, the first reports. -/
theorem mem_rawCycles_iff {g : Graph} {maxPerScc : Int} {cy : Cycle} :
    cy ∈ rawCycles g maxPerScc ↔ ∃ scc ∈ tarjanScc (adjacency g.edges),
      2 ≤ scc.length ∧ cy ∈ (cyclesIn g scc).take maxPerScc.toNat := by
  have hfold : ∀ (sccs : List (List LockId)) (out : List Cycle),
      cy ∈ sccs.foldl (searchScc g maxPerScc) out ↔ cy ∈ out ∨
        ∃ scc ∈ sccs, 2 ≤ scc.length ∧ cy ∈ (cyclesIn g scc).take maxPerScc.toNat := by
    intro sccs
    induction sccs with
    | nil => intro out; simp
    | cons scc sccs ih =>
        intro out
        rw [List.foldl_cons, ih, searchScc_eq, List.mem_append, or_assoc]
        simp only [List.exists_mem_cons_iff]
        refine or_congr_right (or_congr_left ?_)
        split
        · rename_i hlt
          exact iff_of_false List.not_mem_nil fun h ↦ absurd h.1 (by omega)
        · rename_i hle
          exact (and_iff_right (by omega)).symm
  rw [rawCycles, hfold]
  exact or_iff_right List.not_mem_nil

theorem hasCycle_of_mem_rawCycles {g : Graph} {maxPerScc : Int} {cy : Cycle}
    (h : cy ∈ rawCycles g maxPerScc) : g.HasCycle cy := by
  obtain ⟨scc, -, -, hcy⟩ := mem_rawCycles_iff.mp h
  exact (mem_cyclesIn_iff.mp (List.mem_of_mem_take hcy)).1

/-- A component with more than one vertex has a cycle. -/
theorem cyclesIn_ne_nil {g : Graph} {scc : List LockId}
    (h : scc ∈ tarjanScc (adjacency g.edges)) (h2 : 2 ≤ scc.length) : cyclesIn g scc ≠ [] := by
  have hscc := isScc_of_mem_tarjanScc h
  obtain ⟨v, hv, w, hw, hne⟩ : ∃ v ∈ scc, ∃ w ∈ scc, v ≠ w := by
    match scc, hscc.nodup, h2 with
    | v :: w :: _, hnodup, _ =>
        refine ⟨v, List.mem_cons_self, w, by simp, ?_⟩
        exact fun e ↦ (List.nodup_cons.mp hnodup).1 (e ▸ List.mem_cons_self)
  obtain ⟨l, hl⟩ := exists_simpleCycle ((hscc.mem_iff v hv w).mp hw) hne
  obtain ⟨cy, -, hcycle, hfrm⟩ := exists_closeCycle hl
  refine List.ne_nil_of_mem (mem_cyclesIn_iff.mpr ⟨hcycle, fun e he ↦ ?_⟩)
  have he' : e.frm ∈ v :: l := hfrm ▸ List.mem_map_of_mem he
  exact (hscc.mem_iff v hv e.frm).mpr (hl.mutual_of_mem List.mem_cons_self he')

/-! ## The canonical form -/

/-- Where the least vertex is: `l` is the whole list, `es` what is left of it. -/
theorem leastFrom_spec {l : List CycleEdge} (best : CycleEdge) (mi i : Nat) (es : List CycleEdge)
    (hes : l.drop i = es) (hmi : l[mi]? = some best) (hbest : ∀ e ∈ l.take i, best.frm ≤ e.frm) :
    ∃ e, l[leastFrom best.frm mi i es]? = some e ∧ ∀ e' ∈ l, e.frm ≤ e'.frm := by
  induction es generalizing best mi i with
  | nil =>
      refine ⟨best, hmi, fun e he ↦ hbest e ?_⟩
      rwa [List.take_of_length_le (List.drop_eq_nil_iff.mp hes)]
  | cons x es ih =>
      have hx : l[i]? = some x := by rw [← List.head?_drop, hes, List.head?_cons]
      have hes' : l.drop (i + 1) = es := by rw [← List.tail_drop, hes, List.tail_cons]
      have htake : ∀ e, e ∈ l.take (i + 1) ↔ e ∈ l.take i ∨ e = x := by
        intro e
        rw [List.take_add_one, hx, Option.toList_some, List.mem_append, List.mem_singleton]
      rw [leastFrom]
      split
      · rename_i hlt
        refine ih x i (i + 1) hes' hx fun e he ↦ ?_
        rcases (htake e).mp he with he | rfl
        · exact le_trans hlt.le (hbest e he)
        · exact le_refl _
      · rename_i hle
        refine ih best mi (i + 1) hes' hmi fun e he ↦ ?_
        rcases (htake e).mp he with he | rfl
        · exact hbest e he
        · exact not_lt.mp hle

/-- The canonical form of a cycle is a rotation that begins at the least vertex. -/
theorem canon_spec (cy : Cycle) : (∃ n, canon cy = ⟨cy.edges.rotate n⟩) ∧
    ∀ first ∈ (canon cy).edges.head?, ∀ e ∈ (canon cy).edges, first.frm ≤ e.frm := by
  obtain ⟨l⟩ := cy
  cases l with
  | nil => exact ⟨⟨0, rfl⟩, fun first h ↦ by cases h⟩
  | cons x es =>
      obtain ⟨e, he, hle⟩ := leastFrom_spec (l := x :: es) x 0 1 es rfl rfl
        fun e he ↦ by rw [List.mem_singleton.mp he]
      have hlt : leastFrom x.frm 0 1 es < (x :: es).length := (List.getElem?_eq_some_iff.mp he).1
      have hcanon : canon ⟨x :: es⟩ = ⟨(x :: es).rotate (leastFrom x.frm 0 1 es)⟩ := by
        rw [List.rotate_eq_drop_append_take hlt.le]
        unfold canon
        dsimp only
        split
        · rfl
        · rename_i hzero
          rw [not_not.mp hzero, List.drop_zero, List.take_zero, List.append_nil]
      rw [hcanon]
      refine ⟨⟨_, rfl⟩, fun first hfirst e' he' ↦ ?_⟩
      rw [List.head?_rotate hlt, he] at hfirst
      exact Option.some.inj hfirst ▸ hle e' (List.mem_rotate.mp he')

theorem Graph.HasCycle.canon {g : Graph} {cy : Cycle} (h : g.HasCycle cy) :
    g.HasCycle (canon cy) := by
  obtain ⟨n, hn⟩ := (canon_spec cy).1
  rw [hn]
  exact h.rotate n

/-- A cycle is determined by its key. -/
theorem Graph.HasCycle.keyOf_injective {g : Graph} {a b : Cycle} (ha : g.HasCycle a)
    (hb : g.HasCycle b) (h : keyOf a = keyOf b) : a = b := by
  have hmap : a.edges.map CycleEdge.key = b.edges.map CycleEdge.key :=
    congrArg (fun k ↦ (ofLex k).2) h
  have hfrm : ∀ es : List CycleEdge, es.map CycleEdge.frm =
      (es.map CycleEdge.key).map fun k ↦ ⟨(ofLex k).1, (ofLex (ofLex k).2).1⟩ := by
    intro es
    rw [List.map_map]
    rfl
  exact ha.ext hb (by rw [hfrm, hfrm, hmap])

/-- What `dedup` leaves of a sorted list is strictly sorted. -/
theorem pairwise_dedup {l : List Cycle} (hl : l.Pairwise fun a b ↦ keyOf a ≤ keyOf b)
    {last : Option (Nat ×ₗ List (Int ×ₗ Nat ×ₗ Int ×ₗ Nat))}
    (hlast : ∀ k ∈ last, ∀ a ∈ l, k ≤ keyOf a) :
    ((dedup last l).Pairwise fun a b ↦ keyOf a < keyOf b) ∧
      ∀ a ∈ dedup last l, a ∈ l ∧ ∀ k ∈ last, k < keyOf a := by
  induction l generalizing last with
  | nil => exact ⟨.nil, fun a ha ↦ absurd ha List.not_mem_nil⟩
  | cons x l ih =>
      obtain ⟨hx, hl⟩ := List.pairwise_cons.mp hl
      rw [dedup]
      split
      · obtain ⟨hsorted, hmem⟩ :=
          ih hl fun k hk a ha ↦ hlast k hk a (List.mem_cons_of_mem x ha)
        exact ⟨hsorted, fun a ha ↦ ⟨List.mem_cons_of_mem x (hmem a ha).1, (hmem a ha).2⟩⟩
      · rename_i hne
        have hlt : ∀ k ∈ last, k < keyOf x := by
          intro k hk
          refine lt_of_le_of_ne (hlast k hk x List.mem_cons_self) fun e ↦ hne ?_
          rw [← e]
          exact (Option.mem_def.mp hk).symm
        have hnext : ∀ k ∈ some (keyOf x), ∀ a ∈ l, k ≤ keyOf a :=
          fun k hk a ha ↦ Option.some.inj hk ▸ hx a ha
        obtain ⟨hsorted, hmem⟩ := ih hl hnext
        refine ⟨List.pairwise_cons.mpr ⟨fun a ha ↦ (hmem a ha).2 _ rfl, hsorted⟩, fun a ha ↦ ?_⟩
        rcases List.mem_cons.mp ha with rfl | ha
        · exact ⟨List.mem_cons_self, hlt⟩
        · exact ⟨List.mem_cons_of_mem x (hmem a ha).1,
            fun k hk ↦ (hlt k hk).trans ((hmem a ha).2 _ rfl)⟩

/-- `dedup` leaves a cycle with each key. -/
theorem exists_mem_dedup (l : List Cycle)
    (last : Option (Nat ×ₗ List (Int ×ₗ Nat ×ₗ Int ×ₗ Nat))) {a : Cycle} (ha : a ∈ l) :
    some (keyOf a) = last ∨ ∃ b ∈ dedup last l, keyOf b = keyOf a := by
  induction l generalizing last with
  | nil => exact absurd ha List.not_mem_nil
  | cons x l ih =>
      rw [dedup]
      split
      · rename_i heq
        rcases List.mem_cons.mp ha with rfl | ha
        · exact Or.inl heq
        · exact ih last ha
      · refine Or.inr ?_
        rcases List.mem_cons.mp ha with rfl | ha
        · exact ⟨a, List.mem_cons_self, rfl⟩
        · rcases ih (some (keyOf x)) ha with h | ⟨b, hb, hk⟩
          · exact ⟨x, List.mem_cons_self, (Option.some.inj h).symm⟩
          · exact ⟨b, List.mem_cons_of_mem x hb, hk⟩

/-! ## The result -/

theorem pairwise_findCycles (g : Graph) (maxPerScc : Int) :
    (findCycles g maxPerScc).Pairwise fun a b ↦ keyOf a < keyOf b :=
  (pairwise_dedup (List.pairwise_insertionSort _ _) fun k hk ↦ by cases hk).1

/-- The cycles returned are those that the search reports, in canonical form. -/
theorem mem_findCycles_iff {g : Graph} {maxPerScc : Int} {cy : Cycle} :
    cy ∈ findCycles g maxPerScc ↔ ∃ a ∈ rawCycles g maxPerScc, cy = canon a := by
  have hraw : ∀ a, a ∈ ((rawCycles g maxPerScc).map canon).insertionSort
      (fun a b ↦ keyOf a ≤ keyOf b) ↔ ∃ b ∈ rawCycles g maxPerScc, a = canon b := by
    intro a
    rw [List.mem_insertionSort, List.mem_map]
    exact exists_congr fun b ↦ and_congr_right fun _ ↦ eq_comm
  have hof : cy ∈ findCycles g maxPerScc → ∃ a ∈ rawCycles g maxPerScc, cy = canon a := by
    intro h
    have hmem := (pairwise_dedup (List.pairwise_insertionSort _ _) fun k hk ↦ by cases hk).2 cy h
    exact (hraw cy).mp hmem.1
  refine ⟨hof, fun ⟨a, ha, hcy⟩ ↦ ?_⟩
  rcases exists_mem_dedup _ none ((hraw cy).mpr ⟨a, ha, hcy⟩) with h | ⟨b, hb, hk⟩
  · cases h
  · -- a cycle of the result with the same key is the same cycle
    obtain ⟨a', ha', hb'⟩ : ∃ a ∈ rawCycles g maxPerScc, b = canon a :=
      (hraw b).mp ((pairwise_dedup (List.pairwise_insertionSort _ _) fun k hk ↦ by cases hk).2 b hb).1
    have hcyc : g.HasCycle cy := hcy ▸ (hasCycle_of_mem_rawCycles ha).canon
    have hcyc' : g.HasCycle b := hb' ▸ (hasCycle_of_mem_rawCycles ha').canon
    rw [← hcyc'.keyOf_injective hcyc hk]
    exact hb

/-- What every returned cycle is. -/
theorem findCycles_sound {g : Graph} {maxPerScc : Int} {cy : Cycle}
    (h : cy ∈ findCycles g maxPerScc) : g.HasCycle cy ∧
      ∀ first ∈ cy.edges.head?, ∀ e ∈ cy.edges, first.frm ≤ e.frm := by
  obtain ⟨a, ha, rfl⟩ := mem_findCycles_iff.mp h
  exact ⟨(hasCycle_of_mem_rawCycles ha).canon, (canon_spec a).2⟩

/-- Something is returned exactly when some component has more than one vertex. -/
theorem findCycles_ne_nil_iff {g : Graph} {maxPerScc : Int} (hmax : 1 ≤ maxPerScc) :
    findCycles g maxPerScc ≠ [] ↔ ∃ p, SimpleCycle g.Edge p := by
  constructor
  · intro h
    obtain ⟨cy, hcy⟩ := List.exists_mem_of_ne_nil _ h
    exact ⟨_, (findCycles_sound hcy).1.simple⟩
  · rintro ⟨p, hp⟩
    obtain ⟨v, l, rfl⟩ := List.exists_cons_of_length_pos (lt_of_lt_of_le Nat.zero_lt_two hp.two_le)
    obtain ⟨cy, -, hcycle, -⟩ := exists_closeCycle hp
    obtain ⟨scc, hscc, h2, -⟩ := hcycle.exists_scc
    obtain ⟨a, as, has⟩ := List.exists_cons_of_ne_nil (cyclesIn_ne_nil hscc h2)
    obtain ⟨n, hn⟩ : ∃ n, maxPerScc.toNat = n + 1 := ⟨maxPerScc.toNat - 1, by omega⟩
    have hraw : a ∈ rawCycles g maxPerScc := by
      refine mem_rawCycles_iff.mpr ⟨scc, hscc, h2, ?_⟩
      rw [has, hn, List.take_succ_cons]
      exact List.mem_cons_self
    exact List.ne_nil_of_mem (mem_findCycles_iff.mpr ⟨a, hraw, rfl⟩)

/-- Two cycles that begin at their least vertices are not rotations of each other, for any measure
that tells their vertices apart. -/
theorem Graph.HasCycle.eq_of_isRotated {g : Graph} {a b : Cycle} {β : Type*} [PartialOrder β]
    {f : LockId → β} (hcycle : g.HasCycle a) (hcycle' : g.HasCycle b)
    (hf : ∀ d ∈ a.edges, ∀ e ∈ a.edges, f d.frm = f e.frm → d.frm = e.frm)
    (hleast : ∀ first ∈ a.edges.head?, ∀ e ∈ a.edges, f first.frm ≤ f e.frm)
    (hleast' : ∀ first ∈ b.edges.head?, ∀ e ∈ b.edges, f first.frm ≤ f e.frm)
    (hab : a.edges ~r b.edges) : a = b := by
  obtain ⟨n, hn⟩ := hab
  have hpos : 0 < a.edges.length := List.length_pos_of_ne_nil hcycle.ne_nil
  have hlt : n % a.edges.length < a.edges.length := Nat.mod_lt n hpos
  have hmem : ∀ e, e ∈ b.edges ↔ e ∈ a.edges := fun e ↦ by rw [← hn, List.mem_rotate]
  have hfirst : a.edges[0] ∈ a.edges.head? := by
    rw [List.head?_eq_getElem?]
    exact List.getElem?_eq_getElem hpos
  have hfirst' : a.edges[n % a.edges.length] ∈ b.edges.head? := by
    rw [← hn, ← List.rotate_mod, List.head?_rotate hlt]
    exact List.getElem?_eq_getElem hlt
  -- both begin at the least vertex, which occurs only once
  have hfrm : a.edges[0].frm = a.edges[n % a.edges.length].frm :=
    hf _ (List.getElem_mem hpos) _ (List.getElem_mem hlt)
      (le_antisymm (hleast _ hfirst _ (List.getElem_mem hlt))
        (hleast' _ hfirst' _ ((hmem _).mpr (List.getElem_mem hpos))))
  have hzero : 0 = n % a.edges.length := by
    refine (List.getElem?_inj (by rwa [List.length_map]) hcycle.simple.nodup).mp ?_
    rw [List.getElem?_map, List.getElem?_map, List.getElem?_eq_getElem hpos,
      List.getElem?_eq_getElem hlt, Option.map_some, Option.map_some, hfrm]
  refine hcycle.ext hcycle' (congrArg (List.map CycleEdge.frm) ?_)
  rw [← hn, ← List.rotate_mod, ← hzero, List.rotate_zero]

/-- Two returned cycles are not rotations of each other. -/
theorem eq_of_isRotated {g : Graph} {maxPerScc : Int} {a b : Cycle}
    (ha : a ∈ findCycles g maxPerScc) (hb : b ∈ findCycles g maxPerScc)
    (hab : a.edges ~r b.edges) : a = b := by
  obtain ⟨hcycle, hleast⟩ := findCycles_sound ha
  obtain ⟨hcycle', hleast'⟩ := findCycles_sound hb
  exact hcycle.eq_of_isRotated (f := id) hcycle' (fun _ _ _ _ h ↦ h) hleast hleast' hab

/-- **Soundness and detection completeness of the cycle search.**  Whatever the budget, a cycle
is returned exactly when the graph has a directed cycle; every cycle returned is a simple cycle of
the graph with the information of its edges and begins at its least vertex; the list is strictly
increasing, and no two entries are rotations of each other. -/
theorem findCycles_sound_complete (g : Graph) (hloop : ∀ v, ¬ g.Edge v v) (maxPerScc : Int)
    (hmax : 1 ≤ maxPerScc) :
    (findCycles g maxPerScc ≠ [] ↔ ∃ v, TransGen g.Edge v v) ∧
      (∀ cy ∈ findCycles g maxPerScc, g.HasCycle cy ∧
        ∀ first ∈ cy.edges.head?, ∀ e ∈ cy.edges, first.frm ≤ e.frm) ∧
      ((findCycles g maxPerScc).Pairwise fun a b ↦ keyOf a < keyOf b) ∧
      ∀ a ∈ findCycles g maxPerScc, ∀ b ∈ findCycles g maxPerScc, a.edges ~r b.edges → a = b :=
  ⟨(findCycles_ne_nil_iff hmax).trans (exists_transGen_iff hloop).symm,
    fun _ ↦ findCycles_sound, pairwise_findCycles g maxPerScc,
    fun _ ha _ hb ↦ eq_of_isRotated ha hb⟩

/-- Two threads take the locks at `1` and `2` in opposite orders, one after the other. -/
def inversion : List Event :=
  [{ tid := 1, op := .lockPost, addr := 1 }, { tid := 1, op := .lockPost, addr := 2 },
    { tid := 1, op := .unlock, addr := 2 }, { tid := 1, op := .unlock, addr := 1 },
    { tid := 2, op := .lockPost, addr := 2 }, { tid := 2, op := .lockPost, addr := 1 }]

theorem findCycles_sound_complete_inversion :
    (findCycles (replay inversion {}) 1 ≠ [] ↔
        ∃ v, TransGen (replay inversion {}).Edge v v) ∧
      (∀ cy ∈ findCycles (replay inversion {}) 1, (replay inversion {}).HasCycle cy ∧
        ∀ first ∈ cy.edges.head?, ∀ e ∈ cy.edges, first.frm ≤ e.frm) ∧
      ((findCycles (replay inversion {}) 1).Pairwise fun a b ↦ keyOf a < keyOf b) ∧
      ∀ a ∈ findCycles (replay inversion {}) 1, ∀ b ∈ findCycles (replay inversion {}) 1,
        a.edges ~r b.edges → a = b :=
  findCycles_sound_complete _ (fun _ hv ↦ (inv_replay inversion).loopless _ hv rfl) 1 (by decide)

end DeadLockDetect.Analyzer
