import DeadLockDetect.Lib.Backtrack
import DeadLockDetect.Analyzer.Types
import DeadLockDetect.Analyzer.Tarjan

/-!
# The cycle search inside one component

The part of `find_cycles` that enumerates the cycles through one vertex of a strongly connected
component, by depth-first search on an explicit stack, until the budget of the
component is used up.

## What is transcribed

* `Search` holds what the loops read and do not change, `DfsState` the variables they change.
  The Python lists `path` and `stack` are stacks; here their top is the *head*.
* `scan` is the loop over the neighbours of the topmost vertex, `dfsTurn` the body of
  `while stack`, `dfs` the search from one vertex, `searchFrom` the loop over the vertices.
* `cycleEdges` and `closeCycle` build the cycle that closes the path.

## What the search yields

A search that would report the cycles `cs` when nothing stops it reports the first ones, as many
as the budget allows; `Found.yields` says this for what has been found so far and what is pending.
`dfsTurn_inr` is the step lemma: no turn changes what is yielded in the end, and each
turn decreases the number of turns to come.  `searchFrom_yields` is the result: the reported cycles
are those of `Backtrack.closedPaths`, cut off at the budget.
-/

namespace DeadLockDetect.Analyzer

open Backtrack

/-- An edge of a cycle. -/
structure CycleEdge where
  frm : LockId
  «to» : LockId
  info : Option EdgeInfo := none
deriving DecidableEq, Repr

/-- A cycle, as the list of its edges. -/
structure Cycle where
  edges : List CycleEdge := []
deriving DecidableEq, Repr

/-- The edges along the vertices of a path and back to `start`; `none` if one is missing. -/
def cycleEdges (edges : Dict EdgeKey EdgeInfo) (start : LockId) :
    List LockId → Option (List CycleEdge)
  | [] => some []
  | frm :: rest =>
      let next := rest.head?.getD start
      match edges.get? ⟨frm, next⟩ with
      | none => none
      | some info => (cycleEdges edges start rest).map (⟨frm, next, some info⟩ :: ·)

/-- The cycle that closes a path; `none` if an edge is missing or there is none. -/
def closeCycle (edges : Dict EdgeKey EdgeInfo) (start : LockId) (path : List LockId) :
    Option Cycle :=
  match cycleEdges edges start path with
  | some (e :: es) => some ⟨e :: es⟩
  | _ => none

/-- What the search in a component reads and does not change. -/
structure Search where
  edges : Dict EdgeKey EdgeInfo
  adj : Dict LockId (List LockId)
  scc : List LockId
  maxPerScc : Int

/-- The cycles reported so far, and how many of them count towards the budget. -/
structure Found where
  out : List Cycle
  emitted : Nat

/-- Report a cycle. -/
def Found.add (f : Found) (cy : Cycle) : Found := ⟨f.out ++ [cy], f.emitted + 1⟩

/-- The local variables of the search from one vertex. -/
structure DfsState where
  found : Found
  onPath : Dict LockId Bool
  /-- The current path, its last vertex first. -/
  path : List LockId
  /-- The frames: a vertex of the path and the index of its next neighbour. -/
  stack : List (LockId × Nat)

namespace Search

variable (c : Search) (start : LockId)

/-- The budget of the component is used up. -/
def Spent (f : Found) : Prop := c.maxPerScc ≤ f.emitted

instance (f : Found) : Decidable (c.Spent f) := inferInstanceAs (Decidable (_ ≤ _))

/-- Go through the neighbours `vs` of the topmost vertex `u`, which begin at index `ni`.  The flag
says whether the search went down into one of them. -/
def scan (u : LockId) (s : DfsState) (ni : Nat) : List LockId → DfsState × Bool
  | [] => (s, false)
  | v :: vs =>
      if v ∉ c.scc then scan u s (ni + 1) vs
      else if v = start ∧ 2 ≤ s.path.length then
        -- the path is back at `start`
        match closeCycle c.edges start s.path.reverse with
        | some cy =>
            let found := s.found.add cy
            if c.Spent found then ({ s with found }, false)
            else scan u { s with found } (ni + 1) vs
        | none => scan u s (ni + 1) vs
      else if s.onPath.getD v false then scan u s (ni + 1) vs
      else
        ({ s with
            onPath := s.onPath.set v true
            path := v :: s.path
            stack := (v, 0) :: (u, ni + 1) :: s.stack.tail }, true)

/-- One turn of the loop `while stack`. -/
def dfsTurn (s : DfsState) : DfsState ⊕ DfsState :=
  match s.stack with
  | [] => .inl s
  | (u, ni) :: _ =>
      if c.Spent s.found then .inl s
      else
        let (s, advanced) := c.scan start u s ni ((neigh c.adj u).drop ni)
        if advanced then .inr s
        else .inr { s with
          onPath := s.onPath.set u false, path := s.path.tail, stack := s.stack.tail }

/-! ## What is pending -/

/-- The cycles that the search would still report from the path `p` with the neighbours `vs` to
look at, if nothing stopped it. -/
def cyclesFrom (p vs : List LockId) : List Cycle :=
  (closedPaths (neigh c.adj) c.scc start p vs).filterMap fun p ↦
    closeCycle c.edges start p.reverse

/-- The cycles that a stack of frames would still report. -/
def pendingCycles : List (LockId × Nat) → List Cycle
  | [] => []
  | (u, ni) :: fs =>
      c.cyclesFrom start (u :: fs.map Prod.fst) ((neigh c.adj u).drop ni) ++ pendingCycles fs

/-- The turns that a stack of frames still takes. -/
def pendingTurns : List (LockId × Nat) → Nat
  | [] => 0
  | (u, ni) :: fs =>
      turns (neigh c.adj) c.scc start (u :: fs.map Prod.fst) ((neigh c.adj u).drop ni) +
        pendingTurns fs

/-- What is left of the budget. -/
def left (f : Found) : Nat := (c.maxPerScc - f.emitted).toNat

/-- What is found in the end when `cs` is still to come: the first of `cs`, as many as the budget
allows, and what is then left of it. -/
def yields (f : Found) (cs : List Cycle) : List Cycle × Nat :=
  (f.out ++ cs.take (c.left f), c.left f - cs.length)

variable {c start}

theorem spent_iff {f : Found} : c.Spent f ↔ c.left f = 0 := by
  unfold Spent left
  omega

theorem left_add {f : Found} (h : ¬ c.Spent f) (cy : Cycle) :
    c.left f = c.left (f.add cy) + 1 := by
  unfold Spent at h
  unfold left Found.add
  push_cast
  omega

theorem yields_nil (f : Found) : c.yields f [] = (f.out, c.left f) := by
  rw [yields, List.take_nil, List.append_nil, List.length_nil, Nat.sub_zero]

theorem yields_of_spent {f : Found} (h : c.Spent f) (cs : List Cycle) :
    c.yields f cs = (f.out, c.left f) := by
  rw [yields, spent_iff.mp h, List.take_zero, List.append_nil, Nat.zero_sub]

theorem yields_cons {f : Found} (h : ¬ c.Spent f) (cy : Cycle) (cs : List Cycle) :
    c.yields f (cy :: cs) = c.yields (f.add cy) cs := by
  rw [yields, yields, left_add h cy, List.take_succ_cons, List.length_cons, Nat.add_sub_add_right]
  simp only [Found.add, List.append_assoc, List.singleton_append]

/-- What is yielded in two portions. -/
theorem yields_append {f f' : Found} {cs : List Cycle}
    (h : c.yields f cs = (f'.out, c.left f')) (ds : List Cycle) :
    c.yields f (cs ++ ds) = c.yields f' ds := by
  obtain ⟨hout, hleft⟩ := Prod.mk.inj h
  rw [yields, yields, ← hout, ← hleft, List.take_append, List.length_append, List.append_assoc,
    Nat.sub_add_eq]

theorem cyclesFrom_nil (p : List LockId) : c.cyclesFrom start p [] = [] := by
  rw [cyclesFrom, closedPaths_nil, List.filterMap_nil]

/-- A neighbour that the search passes over. -/
theorem cyclesFrom_cons_skip {p : List LockId} (hp : p.length ≤ c.scc.length) {v : LockId}
    (hc : ¬ (v ∈ c.scc ∧ Closes start p v)) (hd : ¬ Descends c.scc start p v) (vs : List LockId) :
    c.cyclesFrom start p (v :: vs) = c.cyclesFrom start p vs := by
  rw [cyclesFrom, closedPaths_cons hp, if_neg hc, if_neg hd, List.nil_append, cyclesFrom]

/-- A neighbour that closes the path. -/
theorem cyclesFrom_cons_close {p : List LockId} (hp : p.length ≤ c.scc.length) {v : LockId}
    (hv : v ∈ c.scc) (hc : Closes start p v) (vs : List LockId) :
    c.cyclesFrom start p (v :: vs) =
      (closeCycle c.edges start p.reverse).toList ++ c.cyclesFrom start p vs := by
  rw [cyclesFrom, closedPaths_cons hp, if_pos ⟨hv, hc⟩, List.singleton_append, cyclesFrom]
  cases h : closeCycle c.edges start p.reverse with
  | none => simp only [List.filterMap_cons, h, Option.toList_none, List.nil_append]
  | some cy => simp only [List.filterMap_cons, h, Option.toList_some, List.singleton_append]

/-- A neighbour that the search goes down into. -/
theorem cyclesFrom_cons_descend {p : List LockId} (hp : p.length ≤ c.scc.length) {v : LockId}
    (hd : Descends c.scc start p v) (vs : List LockId) :
    c.cyclesFrom start p (v :: vs) =
      c.cyclesFrom start (v :: p) (neigh c.adj v) ++ c.cyclesFrom start p vs := by
  have hc : ¬ (v ∈ c.scc ∧ Closes start p v) := fun h ↦ hd.2.1 h.2
  rw [cyclesFrom, closedPaths_cons hp, if_neg hc, if_pos hd, List.filterMap_append, cyclesFrom,
    cyclesFrom]

/-! ## The invariant of the search -/

/-- What every turn of the search preserves: the frames are those of the path, which runs
through the component without repetition. -/
structure DfsInv (c : Search) (s : DfsState) : Prop where
  frames : s.stack.map Prod.fst = s.path
  nodup : s.path.Nodup
  subset : ∀ x ∈ s.path, x ∈ c.scc
  onPath_iff : ∀ x, s.onPath.getD x false = true ↔ x ∈ s.path

variable {s : DfsState}

theorem DfsInv.length_le (h : DfsInv c s) : s.path.length ≤ c.scc.length :=
  (List.subperm_of_subset h.nodup h.subset).length_le

theorem DfsInv.with_found (h : DfsInv c s) (found : Found) : DfsInv c { s with found } :=
  ⟨h.frames, h.nodup, h.subset, h.onPath_iff⟩

/-- How a scan of neighbours ends. -/
inductive Scanned (c : Search) (start u : LockId) (s : DfsState) (vs : List LockId) :
    DfsState × Bool → Prop where
  /-- It found cycles and came to the end, of the neighbours or of the budget. -/
  | passed {found : Found}
      (hyields : c.yields s.found (c.cyclesFrom start s.path vs) = (found.out, c.left found)) :
      Scanned c start u s vs ({ s with found }, false)
  /-- It found cycles `cs` and went down into `v`, with the neighbours `vs'` left for later. -/
  | advanced {found : Found} {v : LockId} {ni : Nat} {cs : List Cycle}
      (hv : Descends c.scc start s.path v)
      (hyields : c.yields s.found cs = (found.out, c.left found))
      (hcycles : c.cyclesFrom start s.path vs =
        cs ++ (c.cyclesFrom start (v :: s.path) (neigh c.adj v) ++
          c.cyclesFrom start s.path ((neigh c.adj u).drop ni)))
      (hturns : turns (neigh c.adj) c.scc start (v :: s.path) (neigh c.adj v) +
        turns (neigh c.adj) c.scc start s.path ((neigh c.adj u).drop ni) <
          turns (neigh c.adj) c.scc start s.path vs) :
      Scanned c start u s vs
        ({ found, onPath := s.onPath.set v true, path := v :: s.path,
           stack := (v, 0) :: (u, ni) :: s.stack.tail }, true)

/-- Passing over a neighbour does not matter to the rest of the scan. -/
theorem Scanned.cons {u v : LockId} {vs : List LockId} {r : DfsState × Bool} {found : Found}
    {cs : List Cycle} (hp : s.path.length ≤ c.scc.length)
    (h : Scanned c start u { s with found } vs r)
    (hyields : c.yields s.found cs = (found.out, c.left found))
    (hcycles : c.cyclesFrom start s.path (v :: vs) = cs ++ c.cyclesFrom start s.path vs) :
    Scanned c start u s (v :: vs) r := by
  cases h with
  | passed hy =>
      refine .passed ?_
      rw [hcycles, yields_append hyields]
      exact hy
  | @advanced found' w ni ds hw hy hc ht =>
      have hyields' : c.yields s.found (cs ++ ds) = (found'.out, c.left found') := by
        rw [yields_append hyields]
        exact hy
      refine .advanced hw hyields' ?_ ?_
      · rw [hcycles, List.append_assoc]
        exact congrArg (cs ++ ·) hc
      · rw [turns_cons hp]
        exact Nat.lt_add_left _ ht

/-- What a scan of the neighbours from index `ni` on does. -/
theorem scan_spec (start u : LockId) (h : DfsInv c s) (hleft : ¬ c.Spent s.found) (ni : Nat)
    {vs : List LockId} (hvs : vs = (neigh c.adj u).drop ni) :
    Scanned c start u s vs (c.scan start u s ni vs) := by
  induction vs generalizing s ni with
  | nil =>
      refine .passed ?_
      rw [cyclesFrom_nil, yields_nil]
  | cons v vs ih =>
      have hp := h.length_le
      have hvs' : vs = (neigh c.adj u).drop (ni + 1) := by
        rw [← List.tail_drop, ← hvs, List.tail_cons]
      have hskip : ¬ (v ∈ c.scc ∧ Closes start s.path v) → ¬ Descends c.scc start s.path v →
          Scanned c start u s (v :: vs) (c.scan start u s (ni + 1) vs) := fun hc hd ↦
        (ih h hleft (ni + 1) hvs').cons hp (yields_nil s.found) (cyclesFrom_cons_skip hp hc hd vs)
      unfold scan
      split
      · rename_i hv
        exact hskip (fun hc ↦ hv hc.1) fun hd ↦ hv hd.1
      · rename_i hv
        rw [not_not] at hv
        split
        · rename_i hc
          have hcycles := cyclesFrom_cons_close hp hv hc vs
          split
          · rename_i cy hcy
            rw [hcy, Option.toList_some] at hcycles
            have hadd : c.yields s.found [cy] = ((s.found.add cy).out, c.left (s.found.add cy)) := by
              rw [yields_cons hleft, yields_nil]
            dsimp only
            split
            · rename_i hspent
              refine .passed ?_
              rw [hcycles, yields_append hadd, yields_of_spent hspent]
            · rename_i hspent
              exact (ih (h.with_found _) hspent (ni + 1) hvs').cons hp hadd hcycles
          · rename_i hcy
            rw [hcy, Option.toList_none, List.nil_append] at hcycles
            exact (ih h hleft (ni + 1) hvs').cons hp (yields_nil s.found) hcycles
        · rename_i hc
          split
          · rename_i hon
            exact hskip (fun h' ↦ hc h'.2) fun hd ↦ hd.2.2 ((h.onPath_iff v).mp hon)
          · rename_i hon
            have hd : Descends c.scc start s.path v :=
              ⟨hv, hc, fun hm ↦ hon ((h.onPath_iff v).mpr hm)⟩
            refine .advanced hd (yields_nil s.found) ?_ ?_
            · rw [cyclesFrom_cons_descend hp hd, ← hvs', List.nil_append]
            · rw [turns_cons hp, if_pos hd, ← hvs']
              omega

/-- **One turn of the search.**  It preserves the invariant, decreases the number of turns to come
and does not change what is found in the end. -/
theorem dfsTurn_inr (h : DfsInv c s) {s' : DfsState} (ht : c.dfsTurn start s = .inr s') :
    DfsInv c s' ∧ c.pendingTurns start s'.stack < c.pendingTurns start s.stack ∧
      c.yields s.found (c.pendingCycles start s.stack) =
        c.yields s'.found (c.pendingCycles start s'.stack) := by
  unfold dfsTurn at ht
  split at ht
  · cases ht
  · rename_i u ni fs hstack
    have hpath : s.path = u :: fs.map Prod.fst := by
      rw [← h.frames, hstack, List.map_cons]
    split at ht
    · cases ht
    · rename_i hleft
      have hscan := scan_spec start u h hleft ni rfl
      generalize c.scan start u s ni ((neigh c.adj u).drop ni) = r at ht hscan
      cases hscan with
      | @passed found hyields =>
          cases ht
          have htail : s.stack.tail = fs := by rw [hstack, List.tail_cons]
          refine ⟨⟨?_, ?_, ?_, ?_⟩, ?_, ?_⟩
          · rw [htail, hpath, List.tail_cons]
          · exact h.nodup.sublist (List.tail_sublist _)
          · exact fun x hx ↦ h.subset x (List.mem_of_mem_tail hx)
          · intro x
            have hnodup := h.nodup
            rw [hpath, List.nodup_cons] at hnodup
            rw [Dict.getD_set, hpath, List.tail_cons]
            split
            · rename_i hx
              exact ⟨fun e ↦ (by cases e), fun hm ↦ absurd (hx ▸ hm) hnodup.1⟩
            · rename_i hx
              rw [h.onPath_iff, hpath, List.mem_cons, or_iff_right hx]
          · have := one_le_turns (neigh c.adj) c.scc start (u :: fs.map Prod.fst)
              ((neigh c.adj u).drop ni)
            show c.pendingTurns start s.stack.tail < c.pendingTurns start s.stack
            rw [htail, hstack, pendingTurns]
            omega
          · show _ = c.yields found (c.pendingCycles start s.stack.tail)
            rw [htail, hstack, pendingCycles, ← hpath, yields_append hyields]
      | @advanced found v ni' cs hv hyields hcycles hturns =>
          cases ht
          have hstack' : s.stack.tail = fs := by rw [hstack, List.tail_cons]
          refine ⟨⟨?_, ?_, ?_, ?_⟩, ?_, ?_⟩
          · rw [hstack', List.map_cons, List.map_cons, hpath]
          · exact List.nodup_cons.mpr ⟨hv.2.2, h.nodup⟩
          · exact List.forall_mem_cons.mpr ⟨hv.1, h.subset⟩
          · intro x
            rw [Dict.getD_set, List.mem_cons]
            split
            · rename_i hx
              exact iff_of_true rfl (Or.inl hx)
            · rename_i hx
              rw [h.onPath_iff, or_iff_right hx]
          · rw [hstack', hstack]
            simp only [pendingTurns, List.map_cons, ← hpath, List.drop_zero]
            omega
          · rw [hstack', hstack]
            simp only [pendingCycles, List.map_cons, ← hpath, List.drop_zero]
            rw [hcycles, List.append_assoc, List.append_assoc, yields_append hyields]

/-- When the search ends, what it has found is what it yields. -/
theorem dfsTurn_inl {r : DfsState} (ht : c.dfsTurn start s = .inl r) :
    c.yields s.found (c.pendingCycles start s.stack) = (r.found.out, c.left r.found) := by
  unfold dfsTurn at ht
  split at ht
  · rename_i hstack
    cases ht
    rw [hstack, pendingCycles, yields_nil]
  · split at ht
    · rename_i hspent
      cases ht
      exact yields_of_spent hspent _
    · dsimp only at ht
      split at ht <;> cases ht

/-! ## The search -/

/-- The state in which the search from `start` begins. -/
def dfsInit (start : LockId) (f : Found) : DfsState where
  found := f
  onPath := Dict.empty.set start true
  path := [start]
  stack := [(start, 0)]

theorem dfsInv_init (h : start ∈ c.scc) (f : Found) : DfsInv c (dfsInit start f) where
  frames := rfl
  nodup := List.nodup_singleton start
  subset _ hx := List.mem_singleton.mp hx ▸ h
  onPath_iff x := by
    show (Dict.empty.set start true).getD x false = true ↔ x ∈ [start]
    rw [Dict.getD_set, List.mem_singleton]
    split
    · rename_i hx
      exact iff_of_true rfl hx
    · rename_i hx
      exact iff_of_false (by rintro ⟨⟩) hx

theorem isSome_dfs (h : start ∈ c.scc) (f : Found) :
    (Loop.run (c.dfsTurn start) (c.pendingTurns start [(start, 0)] + 1)
      (dfsInit start f)).isSome := by
  have hrun : ∃ r, Loop.run (c.dfsTurn start) (c.pendingTurns start [(start, 0)] + 1)
      (dfsInit start f) = some r ∧ True :=
    Loop.exists_run_of_inv (I := DfsInv c) (fun s ↦ c.pendingTurns start s.stack)
      (fun s s' hs ht ↦ ⟨(dfsTurn_inr hs ht).1, (dfsTurn_inr hs ht).2.1⟩) (fun _ _ _ _ ↦ trivial)
      (dfsInv_init h f) (Nat.lt_succ_self _)
  obtain ⟨r, hr, -⟩ := hrun
  rw [hr]
  rfl

variable (c) in
/-- The search from the vertex `start` of the component. -/
def dfs (start : LockId) (h : start ∈ c.scc) (f : Found) : Found :=
  (Loop.result (c.dfsTurn start) (c.pendingTurns start [(start, 0)] + 1) (dfsInit start f)
    (isSome_dfs h f)).found

variable (c) in
/-- The cycles through `start` inside the component, in the order in which the search finds them. -/
def cyclesThrough (start : LockId) : List Cycle :=
  c.cyclesFrom start [start] (neigh c.adj start)

/-- The search from `start` finds the cycles through `start`, as many as the budget allows. -/
theorem dfs_yields (h : start ∈ c.scc) (f : Found) :
    c.yields f (c.cyclesThrough start) = ((c.dfs start h f).out, c.left (c.dfs start h f)) := by
  refine Loop.result_of_inv
    (I := fun s ↦ DfsInv c s ∧
      c.yields f (c.cyclesThrough start) = c.yields s.found (c.pendingCycles start s.stack))
    (Q := fun r : DfsState ↦
      c.yields f (c.cyclesThrough start) = (r.found.out, c.left r.found)) ?_ ?_ (isSome_dfs h f) ?_
  · rintro s s' ⟨hs, hy⟩ ht
    obtain ⟨hs', -, hstep⟩ := dfsTurn_inr hs ht
    exact ⟨hs', hy.trans hstep⟩
  · rintro s r ⟨-, hy⟩ ht
    exact hy.trans (dfsTurn_inl ht)
  · refine ⟨dfsInv_init h f, ?_⟩
    show _ = c.yields f (c.pendingCycles start [(start, 0)])
    rw [pendingCycles, pendingCycles, List.append_nil, List.drop_zero]
    rfl

variable (c) in
/-- The loop over the vertices of the component, until the budget is used up. -/
def searchFrom : (starts : List LockId) → (∀ x ∈ starts, x ∈ c.scc) → Found → Found
  | [], _, f => f
  | start :: starts, h, f =>
      if c.Spent f then f
      else searchFrom starts (fun x hx ↦ h x (List.mem_cons_of_mem start hx))
        (c.dfs start (h start List.mem_cons_self) f)

/-- **What is found in a component**: the cycles through its vertices, vertex by vertex, as many
as the budget allows. -/
theorem searchFrom_yields (starts : List LockId) (h : ∀ x ∈ starts, x ∈ c.scc) (f : Found) :
    c.yields f (starts.flatMap c.cyclesThrough) =
      ((c.searchFrom starts h f).out, c.left (c.searchFrom starts h f)) := by
  induction starts generalizing f with
  | nil => rw [List.flatMap_nil, yields_nil, searchFrom]
  | cons start starts ih =>
      rw [searchFrom]
      split
      · rename_i hspent
        exact yields_of_spent hspent _
      · rw [List.flatMap_cons, yields_append (dfs_yields (h start List.mem_cons_self) f), ih]

end Search

end DeadLockDetect.Analyzer
