import Mathlib.Algebra.BigOperators.Group.Finset.Basic
import Mathlib.Algebra.GroupWithZero.Nat
import DeadLockDetect.Lib.Dict
import DeadLockDetect.Lib.Loop

/-!
# Tarjan's algorithm: the program

`_tarjan_scc` of `cycles.py`, the iterative search for strongly connected components.

## What is transcribed

* `TarjanState` holds the local variables of the function.  The Python lists `stk` and
  `work` are stacks; here their top is the *head* of the list.
* `turn` is the body of the loop `while work`: `examine` is the branch that looks at the
  next neighbour, `finish` and `close` the two halves of the branch that leaves a vertex.
* `start` is the body of the loop over the keys.  The inner loop is total: `pending`
  counts the turns that are still to come, and bounds them.
* A dictionary access `d[k]` reads a default when `k` is missing.  The source only
  reads keys that it has set.

That the result is the decomposition into strongly connected components is proved in
`TarjanCorrect.lean`.
-/

namespace DeadLockDetect.Analyzer

universe u

variable {α : Type u} [DecidableEq α]

/-- The local variables of `_tarjan_scc`. -/
structure TarjanState (α : Type u) where
  /-- The order in which the vertices were first visited. -/
  idxMap : Dict α Nat := .empty
  /-- The least index known to be reachable on the stack. -/
  low : Dict α Nat := .empty
  /-- Which vertices are on `stk`. -/
  onStack : Dict α Bool := .empty
  /-- The visited vertices whose component is still open. -/
  stk : List α := []
  /-- The components found so far. -/
  sccs : List (List α) := []
  /-- The next index. -/
  counter : Nat := 0
  /-- The frames of the search: a vertex and the index of its next neighbour. -/
  work : List (α × Nat) := []

/-- The neighbours of a vertex. -/
def neigh (adj : Dict α (List α)) (v : α) : List α := adj.getD v []

namespace TarjanState

/-- The index of a visited vertex. -/
def idxOf (s : TarjanState α) (v : α) : Nat := s.idxMap.getD v 0

/-- The entry of a visited vertex in `low`. -/
def lowOf (s : TarjanState α) (v : α) : Nat := s.low.getD v 0

/-- Visit `w`: number it, put it on the stack and open a frame for it. -/
def visit (s : TarjanState α) (w : α) : TarjanState α :=
  { s with
    idxMap := s.idxMap.set w s.counter
    low := s.low.set w s.counter
    counter := s.counter + 1
    stk := w :: s.stk
    onStack := s.onStack.set w true
    work := (w, 0) :: s.work }

/-- Look at the neighbour `w` of `v`. -/
def examine (s : TarjanState α) (v w : α) : TarjanState α :=
  if w ∉ s.idxMap then s.visit w
  else if s.onStack.getD w false then
    if s.idxOf w < s.lowOf v then { s with low := s.low.set v (s.idxOf w) } else s
  else s

/-- Leave the frame of `v`: hand its `low` on to its parent. -/
def finish (s : TarjanState α) (v : α) (work : List (α × Nat)) : TarjanState α :=
  match work with
  | [] => { s with work }
  | (parent, _) :: _ =>
      if s.lowOf v < s.lowOf parent then { s with work, low := s.low.set parent (s.lowOf v) }
      else { s with work }

/-- Pop the stack down to and including `v`: what was popped, and what is left. -/
def popTo (v : α) : List α → List α × List α
  | [] => ([], [])
  | w :: stk => if w = v then ([w], stk) else (w :: (popTo v stk).1, (popTo v stk).2)

/-- Close the component of `v` if `v` is its root. -/
def close (s : TarjanState α) (v : α) : TarjanState α :=
  if s.lowOf v = s.idxOf v then
    let (comp, stk) := popTo v s.stk
    { s with stk, onStack := comp.foldl (fun d w ↦ d.set w false) s.onStack,
             sccs := s.sccs ++ [comp] }
  else s

/-- One turn of the loop `while work`. -/
def turn (adj : Dict α (List α)) (s : TarjanState α) : TarjanState α ⊕ TarjanState α :=
  match s.work with
  | [] => .inl s
  | (v, ni) :: work => match (neigh adj v)[ni]? with
    | some w => .inr (examine { s with work := (v, ni + 1) :: work } v w)
    | none => .inr ((s.finish v work).close v)

/-! ## Termination -/

/-- The vertices of an adjacency map. -/
def verts (adj : Dict α (List α)) : Finset α :=
  (adj.keys ++ adj.entries.flatMap Prod.snd).toFinset

theorem mem_verts_of_mem_neigh {adj : Dict α (List α)} {v w : α} (h : w ∈ neigh adj v) :
    w ∈ verts adj := by
  unfold neigh Dict.getD at h
  cases hv : adj.get? v with
  | none =>
      rw [hv] at h
      exact absurd h List.not_mem_nil
  | some ws =>
      rw [hv] at h
      have hmem : (v, ws) ∈ adj.entries := Dict.mem_entries_of_get? hv
      exact List.mem_toFinset.mpr
        (List.mem_append_right _ (List.mem_flatMap.mpr ⟨(v, ws), hmem, h⟩))

/-- The turns that a frame will still take. -/
def framePending (adj : Dict α (List α)) (f : α × Nat) : Nat :=
  (neigh adj f.1).length - f.2 + 1

/-- The turns that the search will still take: those of the open frames, and for each
vertex not visited yet those of its frame and one to open it. -/
def pending (adj : Dict α (List α)) (s : TarjanState α) : Nat :=
  (∑ v ∈ (verts adj).filter (· ∉ s.idxMap), (framePending adj (v, 0) + 1)) +
    (s.work.map (framePending adj)).sum

theorem pending_visit {adj : Dict α (List α)} {s : TarjanState α} {w : α} (hw : w ∈ verts adj)
    (hnew : w ∉ s.idxMap) : pending adj (s.visit w) + 1 = pending adj s := by
  have hset : (verts adj).filter (· ∉ s.idxMap.set w s.counter) =
      ((verts adj).filter (· ∉ s.idxMap)).erase w := by
    ext x
    simp only [Finset.mem_filter, Dict.mem_set, Finset.mem_erase, not_or]
    exact and_left_comm
  have hmem : w ∈ (verts adj).filter (· ∉ s.idxMap) := Finset.mem_filter.mpr ⟨hw, hnew⟩
  have hvisit : pending adj (s.visit w) =
      (∑ v ∈ (verts adj).filter (· ∉ s.idxMap.set w s.counter), (framePending adj (v, 0) + 1)) +
        (framePending adj (w, 0) + (s.work.map (framePending adj)).sum) := rfl
  rw [hvisit, hset, pending, ← Finset.add_sum_erase _ _ hmem]
  omega

theorem pending_examine {adj : Dict α (List α)} {w : α} (hw : w ∈ verts adj)
    (s : TarjanState α) (v : α) : pending adj (s.examine v w) ≤ pending adj s := by
  unfold examine
  split
  · rename_i hnew
    exact Nat.le_of_succ_le (le_of_eq (pending_visit hw hnew))
  · split
    · split <;> exact le_refl _
    · exact le_refl _

theorem pending_bump {adj : Dict α (List α)} {s : TarjanState α} {v : α} {ni : Nat}
    {work : List (α × Nat)} (hwork : s.work = (v, ni) :: work)
    (hni : ni < (neigh adj v).length) :
    pending adj { s with work := (v, ni + 1) :: work } < pending adj s := by
  rw [pending, pending, hwork]
  simp only [List.map_cons, List.sum_cons, framePending]
  omega

theorem pending_finish (adj : Dict α (List α)) {s : TarjanState α} {v : α} {ni : Nat}
    {work : List (α × Nat)} (hwork : s.work = (v, ni) :: work) :
    pending adj (s.finish v work) < pending adj s := by
  have h : pending adj (s.finish v work) = pending adj { s with work } := by
    unfold finish
    split
    · rfl
    · split <;> rfl
  rw [h, pending, pending, hwork]
  simp only [List.map_cons, List.sum_cons, framePending]
  omega

theorem pending_close (adj : Dict α (List α)) (s : TarjanState α) (v : α) :
    pending adj (s.close v) = pending adj s := by
  unfold close
  split <;> rfl

/-- Every turn decreases the number of turns that are still to come. -/
theorem pending_turn {adj : Dict α (List α)} {s s' : TarjanState α} (h : turn adj s = .inr s') :
    pending adj s' < pending adj s := by
  unfold turn at h
  split at h
  · cases h
  · rename_i v ni work hwork
    split at h
    · rename_i w hw
      cases h
      have hni : ni < (neigh adj v).length := (List.getElem?_eq_some_iff.mp hw).1
      have hmem : w ∈ verts adj := mem_verts_of_mem_neigh (List.mem_of_getElem? hw)
      exact lt_of_le_of_lt (pending_examine hmem _ v) (pending_bump hwork hni)
    · cases h
      rw [pending_close]
      exact pending_finish adj hwork

/-- The body of the loop over the keys. -/
def start (adj : Dict α (List α)) (s : TarjanState α) (v : α) : TarjanState α :=
  if v ∈ s.idxMap then s
  else
    let s : TarjanState α := { s with work := [] }
    Loop.result (turn adj) (pending adj (s.visit v) + 1) (s.visit v)
      (Loop.isSome_run (pending adj) (fun _ _ ↦ pending_turn) (Nat.lt_succ_self _))

end TarjanState

/-- The strongly connected components of an adjacency map. -/
def tarjanScc (adj : Dict α (List α)) : List (List α) :=
  (adj.keys.foldl (TarjanState.start adj) {}).sccs

end DeadLockDetect.Analyzer
