import DeadLockDetect.Analyzer.Detection
import DeadLockDetect.Analyzer.Enumerate
import DeadLockDetect.Analyzer.Rename
import DeadLockDetect.Analyzer.Report

/-!
# Renaming a trace does not change what is reported

The two searches of `cycles.py` compare vertices for equality only, so that they take a renamed
graph through renamed states: `tarjanScc_map` and `rawCycles_rename`.  The budget of a component
cuts the search off after the same number of reports, hence after the same cycles.

Only the last step of `find_cycles` looks at the addresses: it rotates a cycle to its least vertex
and sorts.  The cycles of a renamed trace are therefore the renamed cycles, each rotated anew
(`reportedCycles_rename`), and they are as many, so that the exit code is the same.
-/

namespace DeadLockDetect.Analyzer

open Backtrack

/-! ## Strongly connected components -/

section Tarjan

universe u v

variable {α : Type u} {β : Type v} [DecidableEq α] [DecidableEq β] {f : α → β}

/-- Rename the vertices of an adjacency map. -/
def renameAdj (hf : Function.Injective f) (adj : Dict α (List α)) : Dict β (List β) :=
  adj.map hf (List.map f)

theorem neigh_renameAdj (hf : Function.Injective f) (adj : Dict α (List α)) (v : α) :
    neigh (renameAdj hf adj) (f v) = (neigh adj v).map f :=
  adj.getD_map hf (List.map f) v []

omit [DecidableEq α] [DecidableEq β] in
theorem mem_renameAdj (hf : Function.Injective f) (adj : Dict α (List α)) (v : α) :
    f v ∈ renameAdj hf adj ↔ v ∈ adj :=
  Dict.mem_map hf (List.map f)

theorem renameAdj_set (hf : Function.Injective f) (adj : Dict α (List α)) (v : α) (vs : List α) :
    renameAdj hf (adj.set v vs) = (renameAdj hf adj).set (f v) (vs.map f) :=
  adj.map_set hf (List.map f) v vs

namespace TarjanState

/-- Rename the vertices of a search. -/
def map (hf : Function.Injective f) (s : TarjanState α) : TarjanState β where
  idxMap := s.idxMap.map hf id
  low := s.low.map hf id
  onStack := s.onStack.map hf id
  stk := s.stk.map f
  sccs := s.sccs.map (List.map f)
  counter := s.counter
  work := s.work.map (Prod.map f id)

variable (hf : Function.Injective f) (s : TarjanState α)

omit [DecidableEq α] [DecidableEq β] in
theorem mem_idxMap_map (v : α) : f v ∈ (s.map hf).idxMap ↔ v ∈ s.idxMap := Dict.mem_map hf id

theorem idxOf_map (v : α) : (s.map hf).idxOf (f v) = s.idxOf v := s.idxMap.getD_map hf id v 0

theorem lowOf_map (v : α) : (s.map hf).lowOf (f v) = s.lowOf v := s.low.getD_map hf id v 0

theorem visit_map (w : α) : (s.map hf).visit (f w) = (s.visit w).map hf := by
  unfold visit map
  simp only [Dict.map_set]
  rfl

theorem examine_map (v w : α) : (s.map hf).examine (f v) (f w) = (s.examine v w).map hf := by
  have hon : (s.map hf).onStack.getD (f w) false = s.onStack.getD w false :=
    s.onStack.getD_map hf id w false
  unfold examine
  simp only [mem_idxMap_map, idxOf_map, lowOf_map, visit_map, hon]
  split
  · rfl
  · split
    · split
      · conv_rhs => unfold map
        rw [Dict.map_set]
        rfl
      · rfl
    · rfl

theorem finish_map (v : α) (work : List (α × Nat)) :
    (s.map hf).finish (f v) (work.map (Prod.map f id)) = (s.finish v work).map hf := by
  cases work with
  | nil => rfl
  | cons w work =>
      obtain ⟨parent, ni⟩ := w
      show (if (s.map hf).lowOf (f v) < (s.map hf).lowOf (f parent) then _ else _) = _
      rw [lowOf_map, lowOf_map, finish]
      split
      · conv_rhs => unfold map
        rw [Dict.map_set]
        rfl
      · rfl

theorem popTo_map (hf : Function.Injective f) (v : α) (stk : List α) :
    popTo (f v) (stk.map f) = Prod.map (List.map f) (List.map f) (popTo v stk) := by
  induction stk with
  | nil => rfl
  | cons w stk ih =>
      rw [List.map_cons, popTo, popTo, ih]
      simp only [hf.eq_iff]
      split <;> rfl

theorem close_map (v : α) : (s.map hf).close (f v) = (s.close v).map hf := by
  have hfold : ∀ (comp : List α) (d : Dict α Bool),
      (comp.map f).foldl (fun d w ↦ d.set w false) (d.map hf id) =
        (comp.foldl (fun d w ↦ d.set w false) d).map hf id := by
    intro comp
    induction comp with
    | nil => intro d; rfl
    | cons w comp ih =>
        intro d
        rw [List.map_cons, List.foldl_cons, List.foldl_cons, ← ih, Dict.map_set]
        rfl
  have hpop : popTo (f v) (s.map hf).stk =
      Prod.map (List.map f) (List.map f) (popTo v s.stk) := popTo_map hf v s.stk
  unfold close
  rw [lowOf_map, idxOf_map, hpop]
  split
  · conv_rhs => unfold map
    dsimp only [Prod.map_fst, Prod.map_snd]
    rw [← hfold, List.map_append]
    rfl
  · rfl

/-- A turn of the renamed search is the renamed turn. -/
theorem turn_map (adj : Dict α (List α)) :
    turn (renameAdj hf adj) (s.map hf) = (turn adj s).map (map hf) (map hf) := by
  cases hwork : s.work with
  | nil =>
      have hwork' : (s.map hf).work = [] := by rw [map, hwork]; rfl
      unfold turn
      rw [hwork, hwork']
      rfl
  | cons w work =>
      obtain ⟨v, ni⟩ := w
      have hwork' : (s.map hf).work = (f v, ni) :: work.map (Prod.map f id) := by
        rw [map, hwork]
        rfl
      unfold turn
      rw [hwork, hwork']
      dsimp only
      rw [neigh_renameAdj, List.getElem?_map]
      cases (neigh adj v)[ni]? with
      | none =>
          dsimp only [Option.map_none]
          rw [finish_map, close_map]
          rfl
      | some u =>
          have hmap : ({ s.map hf with work := (f v, ni + 1) :: work.map (Prod.map f id) } :
              TarjanState β) = map hf { s with work := (v, ni + 1) :: work } := rfl
          dsimp only [Option.map_some]
          rw [hmap, examine_map]
          rfl

theorem start_map (adj : Dict α (List α)) (v : α) :
    start (renameAdj hf adj) (s.map hf) (f v) = (start adj s v).map hf := by
  have hvisit : ({ s.map hf with work := [] } : TarjanState β).visit (f v) =
      map hf (({ s with work := [] } : TarjanState α).visit v) :=
    visit_map hf { s with work := [] } v
  unfold start
  simp only [mem_idxMap_map]
  split
  · rfl
  · simp only [hvisit]
    exact Loop.result_map (turn_map hf · adj) _ _

end TarjanState

/-- **The components of a renamed graph** are the renamed components, in the same order. -/
theorem tarjanScc_map (hf : Function.Injective f) (adj : Dict α (List α)) :
    tarjanScc (renameAdj hf adj) = (tarjanScc adj).map (List.map f) := by
  have hfold : ∀ (keys : List α) (s : TarjanState α),
      (keys.map f).foldl (TarjanState.start (renameAdj hf adj)) (s.map hf) =
        (keys.foldl (TarjanState.start adj) s).map hf := by
    intro keys
    induction keys with
    | nil => intro s; rfl
    | cons v keys ih =>
        intro s
        rw [List.map_cons, List.foldl_cons, List.foldl_cons, TarjanState.start_map, ih]
  have hkeys : (renameAdj hf adj).keys = adj.keys.map f := Dict.keys_map hf _ adj
  unfold tarjanScc
  rw [hkeys]
  exact congrArg TarjanState.sccs (hfold adj.keys {})

end Tarjan

/-! ## The cycle search -/

variable (ρ : Renaming)

/-- Rename an edge of a cycle. -/
def CycleEdge.rename (e : CycleEdge) : CycleEdge :=
  ⟨e.frm.rename ρ, e.to.rename ρ, e.info.map (EdgeInfo.rename ρ)⟩

/-- Rename a cycle. -/
def Cycle.rename (cy : Cycle) : Cycle := ⟨cy.edges.map (CycleEdge.rename ρ)⟩

theorem map_frm_rename (es : List CycleEdge) :
    (es.map (CycleEdge.rename ρ)).map CycleEdge.frm =
      (es.map CycleEdge.frm).map (LockId.rename ρ) := by
  rw [List.map_map, List.map_map]
  rfl

theorem adjacency_rename (edges : Dict EdgeKey EdgeInfo) :
    adjacency (edges.map (EdgeKey.rename_injective ρ) (EdgeInfo.rename ρ)) =
      renameAdj (LockId.rename_injective ρ) (adjacency edges) := by
  have hstep : ∀ (adj : Dict LockId (List LockId)) (key : EdgeKey),
      addAdj (renameAdj (LockId.rename_injective ρ) adj) (key.rename ρ) =
        renameAdj (LockId.rename_injective ρ) (addAdj adj key) := by
    intro adj key
    have hset : (renameAdj (LockId.rename_injective ρ) adj).set (key.frm.rename ρ)
        ((neigh adj key.frm).map (LockId.rename ρ) ++ [key.to.rename ρ]) =
          renameAdj (LockId.rename_injective ρ)
            (adj.set key.frm (neigh adj key.frm ++ [key.to])) := by
      rw [renameAdj_set, List.map_append]
      rfl
    unfold addAdj
    dsimp only [EdgeKey.rename]
    rw [neigh_renameAdj, hset]
    simp only [mem_renameAdj]
    split
    · rfl
    · exact (renameAdj_set (LockId.rename_injective ρ) _ key.to []).symm
  have hfold : ∀ (keys : List EdgeKey) (adj : Dict LockId (List LockId)),
      (keys.map (EdgeKey.rename ρ)).foldl addAdj (renameAdj (LockId.rename_injective ρ) adj) =
        renameAdj (LockId.rename_injective ρ) (keys.foldl addAdj adj) := by
    intro keys
    induction keys with
    | nil => intro adj; rfl
    | cons key keys ih =>
        intro adj
        rw [List.map_cons, List.foldl_cons, List.foldl_cons, hstep, ih]
  unfold adjacency
  rw [Dict.keys_map]
  exact hfold edges.keys .empty

theorem neigh_adjacency_rename (g : Graph) (v : LockId) :
    neigh (adjacency (g.rename ρ).edges) (v.rename ρ) =
      (neigh (adjacency g.edges) v).map (LockId.rename ρ) := by
  rw [Graph.rename, adjacency_rename, neigh_renameAdj]

theorem cycleEdges_rename (edges : Dict EdgeKey EdgeInfo) (start : LockId) (p : List LockId) :
    cycleEdges (edges.map (EdgeKey.rename_injective ρ) (EdgeInfo.rename ρ)) (start.rename ρ)
        (p.map (LockId.rename ρ)) =
      (cycleEdges edges start p).map (List.map (CycleEdge.rename ρ)) := by
  induction p with
  | nil => rfl
  | cons v p ih =>
      have hnext : (p.map (LockId.rename ρ)).head?.getD (start.rename ρ) =
          (p.head?.getD start).rename ρ := by
        cases p <;> rfl
      have hkey : (⟨v.rename ρ, (p.head?.getD start).rename ρ⟩ : EdgeKey) =
          EdgeKey.rename ρ ⟨v, p.head?.getD start⟩ := rfl
      rw [List.map_cons, cycleEdges, cycleEdges, hnext, ih, hkey, Dict.get?_map]
      cases edges.get? ⟨v, p.head?.getD start⟩ with
      | none => rfl
      | some info =>
          dsimp only [Option.map_some]
          rw [Option.map_map, Option.map_map]
          rfl

theorem closeCycle_rename (edges : Dict EdgeKey EdgeInfo) (start : LockId) (p : List LockId) :
    closeCycle (edges.map (EdgeKey.rename_injective ρ) (EdgeInfo.rename ρ)) (start.rename ρ)
        (p.map (LockId.rename ρ)) =
      (closeCycle edges start p).map (Cycle.rename ρ) := by
  unfold closeCycle
  rw [cycleEdges_rename]
  cases cycleEdges edges start p with
  | none => rfl
  | some es => cases es <;> rfl

/-- The search in a renamed component finds the renamed cycles, in the same order. -/
theorem cyclesIn_rename (g : Graph) (scc : List LockId) :
    cyclesIn (g.rename ρ) (scc.map (LockId.rename ρ)) = (cyclesIn g scc).map (Cycle.rename ρ) := by
  unfold cyclesIn
  dsimp only
  rw [List.flatMap_map, List.map_flatMap]
  refine List.flatMap_congr fun start _ ↦ ?_
  have hpaths : closedPaths (neigh (adjacency (g.rename ρ).edges)) (scc.map (LockId.rename ρ))
      (start.rename ρ) [start.rename ρ] ((neigh (adjacency g.edges) start).map (LockId.rename ρ)) =
        (closedPaths (neigh (adjacency g.edges)) scc start [start]
          (neigh (adjacency g.edges) start)).map (List.map (LockId.rename ρ)) :=
    closedPaths_map (LockId.rename_injective ρ) (neigh_adjacency_rename ρ g) [start] _
  unfold Search.cyclesThrough Search.cyclesFrom
  dsimp only
  rw [neigh_adjacency_rename, hpaths, List.filterMap_map, List.map_filterMap]
  refine List.filterMap_congr fun p _ ↦ ?_
  show closeCycle _ _ (p.map (LockId.rename ρ)).reverse = _
  rw [← List.map_reverse]
  exact closeCycle_rename ρ g.edges start p.reverse

/-- The search of the whole graph, budget included, finds the renamed cycles. -/
theorem rawCycles_rename (g : Graph) (maxPerScc : Int) :
    rawCycles (g.rename ρ) maxPerScc = (rawCycles g maxPerScc).map (Cycle.rename ρ) := by
  have hfold : ∀ (sccs : List (List LockId)) (out : List Cycle),
      (sccs.map (List.map (LockId.rename ρ))).foldl (searchScc (g.rename ρ) maxPerScc)
          (out.map (Cycle.rename ρ)) =
        (sccs.foldl (searchScc g maxPerScc) out).map (Cycle.rename ρ) := by
    intro sccs
    induction sccs with
    | nil => intro out; rfl
    | cons scc sccs ih =>
        intro out
        rw [List.map_cons, List.foldl_cons, List.foldl_cons, ← ih, searchScc_eq, searchScc_eq,
          List.length_map, cyclesIn_rename, List.map_append, ← List.map_take]
        split <;> rfl
  have hscc : tarjanScc (adjacency (g.rename ρ).edges) =
      (tarjanScc (adjacency g.edges)).map (List.map (LockId.rename ρ)) := by
    rw [Graph.rename, adjacency_rename, tarjanScc_map]
  unfold rawCycles
  rw [hscc]
  exact hfold _ []

/-! ## The report -/

theorem readOnly_rename (cy : Cycle) : (cy.rename ρ).readOnly = cy.readOnly := by
  unfold Cycle.readOnly Cycle.rename
  rw [List.all_map]
  congr 1
  funext e
  obtain ⟨v, w, info⟩ := e
  cases info <;> rfl

theorem readOnly_canon (cy : Cycle) : (canon cy).readOnly = cy.readOnly := by
  unfold Cycle.readOnly
  rw [Bool.eq_iff_iff, List.all_eq_true, List.all_eq_true]
  exact forall_congr' fun e ↦ imp_congr_left mem_canon_edges

theorem isRotated_rename {a b : Cycle} (h : a.edges ~r b.edges) :
    (a.rename ρ).edges ~r (b.rename ρ).edges :=
  h.map (CycleEdge.rename ρ)

/-- Canonical forms are equal only if the cycles are rotations of each other. -/
theorem isRotated_of_canon_eq {a b : Cycle} (h : canon a = canon b) : a.edges ~r b.edges := by
  obtain ⟨m, hm⟩ := (canon_spec a).1
  obtain ⟨n, hn⟩ := (canon_spec b).1
  have hab : a.edges.rotate m = b.edges.rotate n := by
    rw [hm, hn] at h
    exact congrArg Cycle.edges h
  have ha : a.edges ~r a.edges.rotate m := ⟨m, rfl⟩
  rw [hab] at ha
  exact ha.trans (List.IsRotated.forall b.edges n)

variable {ρ}

/-- It does not matter whether a cycle is brought into canonical form before it is renamed. -/
theorem canon_rename_canon {g : Graph} {cy : Cycle} (h : (g.rename ρ).HasCycle (cy.rename ρ)) :
    canon ((canon cy).rename ρ) = canon (cy.rename ρ) := by
  obtain ⟨n, hn⟩ := (canon_spec cy).1
  refine h.canon_eq_of_isRotated (isRotated_rename ρ ?_)
  rw [hn]
  exact List.IsRotated.forall cy.edges n

theorem mem_findCycles_rename {g : Graph} {maxPerScc : Int} {cy' : Cycle} :
    cy' ∈ findCycles (g.rename ρ) maxPerScc ↔
      ∃ cy ∈ findCycles g maxPerScc, canon (cy.rename ρ) = cy' := by
  have hraw : ∀ a ∈ rawCycles g maxPerScc, (g.rename ρ).HasCycle (a.rename ρ) := by
    intro a ha
    have hmem : a.rename ρ ∈ rawCycles (g.rename ρ) maxPerScc := by
      rw [rawCycles_rename]
      exact List.mem_map_of_mem ha
    exact hasCycle_of_mem_rawCycles hmem
  rw [mem_findCycles_iff, rawCycles_rename]
  constructor
  · rintro ⟨a', ha', rfl⟩
    obtain ⟨a, ha, rfl⟩ := List.mem_map.mp ha'
    exact ⟨canon a, mem_findCycles_iff.mpr ⟨a, ha, rfl⟩, canon_rename_canon (hraw a ha)⟩
  · rintro ⟨cy, hcy, rfl⟩
    obtain ⟨a, ha, rfl⟩ := mem_findCycles_iff.mp hcy
    exact ⟨a.rename ρ, List.mem_map_of_mem ha, canon_rename_canon (hraw a ha)⟩

/-- Renaming does not make two of the returned cycles one. -/
theorem eq_of_canon_rename_eq {g : Graph} {maxPerScc : Int} {a b : Cycle}
    (ha : a ∈ findCycles g maxPerScc) (hb : b ∈ findCycles g maxPerScc)
    (h : canon (a.rename ρ) = canon (b.rename ρ)) : a = b := by
  obtain ⟨n, hn⟩ := isRotated_of_canon_eq h
  have hfrm : (⟨a.edges.rotate n⟩ : Cycle).edges.map CycleEdge.frm = b.edges.map CycleEdge.frm := by
    refine List.map_injective_iff.mpr (LockId.rename_injective ρ) ?_
    rw [← map_frm_rename, ← map_frm_rename, List.map_rotate]
    exact congrArg (List.map CycleEdge.frm) hn
  have hrot : (⟨a.edges.rotate n⟩ : Cycle) = b :=
    ((findCycles_sound ha).1.rotate n).ext (findCycles_sound hb).1 hfrm
  exact eq_of_isRotated ha hb ⟨n, congrArg Cycle.edges hrot⟩

theorem findCycles_rename_perm (g : Graph) (maxPerScc : Int) :
    (findCycles (g.rename ρ) maxPerScc).Perm
      ((findCycles g maxPerScc).map fun cy ↦ canon (cy.rename ρ)) := by
  have hnodup : ((findCycles g maxPerScc).map fun cy ↦ canon (cy.rename ρ)).Nodup :=
    (nodup_findCycles g maxPerScc).map_on fun a ha b hb ↦ eq_of_canon_rename_eq ha hb
  refine (List.perm_ext_iff_of_nodup (nodup_findCycles _ _) hnodup).mpr ?_
  intro cy'
  rw [mem_findCycles_rename, List.mem_map]

theorem reportedCycles_rename_perm (g : Graph) (rwlockStrict : Bool) (maxPerScc : Int) :
    (reportedCycles (g.rename ρ) rwlockStrict maxPerScc).Perm
      ((reportedCycles g rwlockStrict maxPerScc).map fun cy ↦ canon (cy.rename ρ)) := by
  have hperm : (findCycles (g.rename ρ) maxPerScc).Perm
      ((findCycles g maxPerScc).map fun cy ↦ canon (cy.rename ρ)) :=
    findCycles_rename_perm g maxPerScc
  cases rwlockStrict with
  | true => exact hperm
  | false =>
      have hreadOnly : (fun cy : Cycle ↦ !cy.readOnly) ∘ (fun cy : Cycle ↦ canon (cy.rename ρ)) =
          fun cy : Cycle ↦ !cy.readOnly := by
        funext cy
        exact congrArg not ((readOnly_canon _).trans (readOnly_rename ρ cy))
      have h := hperm.filter fun cy ↦ !cy.readOnly
      rw [List.filter_map, hreadOnly] at h
      exact h

theorem report_snd_rename (g : Graph) (rwlockStrict : Bool) (maxPerScc : Int) :
    (report (g.rename ρ) rwlockStrict maxPerScc).2 = (report g rwlockStrict maxPerScc).2 := by
  rw [report_snd, report_snd, (reportedCycles_rename_perm g rwlockStrict maxPerScc).length_eq,
    List.length_map]

/-- Rewriting backtraces is a renaming. -/
def Renaming.ofBt (f : Bt → Bt) (hf : f [] = []) : Renaming where
  addr := id
  addr_injective := Function.injective_id
  tid := id
  tid_injective := Function.injective_id
  bt := f
  bt_nil := hf

theorem forall₂_ofBt {f : Bt → Bt} (hf : f [] = []) (events : List Event) :
    List.Forall₂ (Event.Renamed (.ofBt f hf)) events
      (events.map fun e ↦ { e with bt := f e.bt }) := by
  rw [List.forall₂_map_right_iff, List.forall₂_same]
  intro e _
  exact ⟨rfl, rfl, rfl, rfl, rfl, fun _ ↦ rfl, fun _ ↦ Iff.rfl, fun _ _ ↦ rfl⟩

/-- How many cycles are reported does not depend on the backtraces. -/
theorem report_snd_map_bt {f : Bt → Bt} (hf : f [] = []) (events : List Event)
    (rwlockStrict : Bool) (maxPerScc : Int) :
    (report (replay (events.map fun e ↦ { e with bt := f e.bt }) {}) rwlockStrict maxPerScc).2 =
      (report (replay events {}) rwlockStrict maxPerScc).2 := by
  have hreplay : replay (events.map fun e ↦ { e with bt := f e.bt }) {} =
      (replay events {}).rename (.ofBt f hf) := replay_rename (forall₂_ofBt hf events) {}
  rw [hreplay, report_snd_rename]

/-- **The verdict does not depend on addresses, thread numbers, timestamps or backtraces.**  When
the events of two traces are the same up to a renaming, the cycles that are reported are the
renamed cycles, rotated anew to their least vertices; there are as many of them, in either mode and
for every budget, also when the budget cuts the search off. -/
theorem report_renamed (ρ : Renaming) {es es' : List Event}
    (h : List.Forall₂ (Event.Renamed ρ) es es') (rwlockStrict : Bool) (maxPerScc : Int) :
    (reportedCycles (replay es' {}) rwlockStrict maxPerScc).Perm
        ((reportedCycles (replay es {}) rwlockStrict maxPerScc).map fun cy ↦
          canon (cy.rename ρ)) ∧
      (report (replay es' {}) rwlockStrict maxPerScc).2 =
        (report (replay es {}) rwlockStrict maxPerScc).2 := by
  have hreplay : replay es' {} = (replay es {}).rename ρ := replay_rename h {}
  rw [hreplay]
  exact ⟨reportedCycles_rename_perm _ rwlockStrict maxPerScc, report_snd_rename _ _ _⟩

/-- Another run: the addresses lie one page higher, and the thread numbers are twice as large. -/
def relocation : Renaming where
  addr := (· + 4096)
  addr_injective := add_left_injective 4096
  tid := (2 * ·)
  tid_injective := mul_right_injective₀ two_ne_zero
  bt := id
  bt_nil := rfl

theorem report_renamed_relocation :
    (reportedCycles (replay (inversion.map (Event.move relocation)) {}) true 64).Perm
        ((reportedCycles (replay inversion {}) true 64).map fun cy ↦
          canon (cy.rename relocation)) ∧
      (report (replay (inversion.map (Event.move relocation)) {}) true 64).2 =
        (report (replay inversion {}) true 64).2 :=
  report_renamed relocation (forall₂_move relocation (by decide)) true 64

end DeadLockDetect.Analyzer
