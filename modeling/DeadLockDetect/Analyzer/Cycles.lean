import Mathlib.Data.List.Lex
import Mathlib.Data.List.Sort
import DeadLockDetect.Analyzer.Graph
import DeadLockDetect.Analyzer.Search
import DeadLockDetect.Analyzer.TarjanCorrect

/-!
# The cycles of the lock-order graph

`find_cycles` of `cycles.py`: the adjacency map of the edges, the search in each strongly
connected component, and the canonical form of the result (each cycle rotated to its least vertex,
the list sorted and freed of duplicates).

## What is transcribed

* `adjacency` is the loop over `g.edges.keys()`; neighbours keep the order of the edges.
* `searchScc` is the body of `for scc in sccs`.
* `canon`, `keyOf` and `dedup` are the local functions and the last loop of `find_cycles`.
  Python compares tuples lexicographically, and sorts stably.
-/

namespace DeadLockDetect.Analyzer

/-! ## The program -/

/-- `adj.setdefault(key.frm, []).append(key.to); adj.setdefault(key.to, [])`. -/
def addAdj (adj : Dict LockId (List LockId)) (key : EdgeKey) : Dict LockId (List LockId) :=
  let adj := adj.set key.frm (neigh adj key.frm ++ [key.to])
  if key.to ∈ adj then adj else adj.set key.to []

/-- The adjacency map of the edges, with every end of an edge as a key. -/
def adjacency (edges : Dict EdgeKey EdgeInfo) : Dict LockId (List LockId) :=
  edges.keys.foldl addAdj .empty

/-- Search one component, unless it is a single vertex. -/
def searchScc (g : Graph) (maxPerScc : Int) (out : List Cycle) (scc : List LockId) : List Cycle :=
  if scc.length < 2 then out
  else
    let c : Search := { edges := g.edges, adj := adjacency g.edges, scc, maxPerScc }
    (c.searchFrom scc (fun _ h ↦ h) ⟨out, 0⟩).out

/-- The cycles as the search finds them. -/
def rawCycles (g : Graph) (maxPerScc : Int) : List Cycle :=
  (tarjanScc (adjacency g.edges)).foldl (searchScc g maxPerScc) []

/-- The index of the edge that leaves the least vertex: `best` is the least so far, at index `mi`,
and the edges that are left begin at index `i`. -/
def leastFrom (best : LockId) (mi i : Nat) : List CycleEdge → Nat
  | [] => mi
  | e :: es => if e.frm < best then leastFrom e.frm i (i + 1) es else leastFrom best mi (i + 1) es

/-- Rotate a cycle so that it begins at its least vertex. -/
def canon (cy : Cycle) : Cycle :=
  match cy.edges with
  | [] => cy
  | e :: es =>
      let mi := leastFrom e.frm 0 1 es
      if mi ≠ 0 then ⟨(e :: es).drop mi ++ (e :: es).take mi⟩ else cy

/-- The tuple by which edges are compared. -/
def CycleEdge.key (e : CycleEdge) : Int ×ₗ Nat ×ₗ Int ×ₗ Nat :=
  toLex (e.frm.addr, toLex (e.frm.gen, toLex (e.to.addr, e.to.gen)))

/-- The tuple by which cycles are compared. -/
def keyOf (cy : Cycle) : Nat ×ₗ List (Int ×ₗ Nat ×ₗ Int ×ₗ Nat) :=
  toLex (cy.edges.length, cy.edges.map CycleEdge.key)

/-- Drop every cycle whose key is that of the one before it. -/
def dedup : Option (Nat ×ₗ List (Int ×ₗ Nat ×ₗ Int ×ₗ Nat)) → List Cycle → List Cycle
  | _, [] => []
  | last, cy :: cys =>
      if some (keyOf cy) = last then dedup last cys else cy :: dedup (some (keyOf cy)) cys

/-- The cycles of the lock-order graph, in canonical form. -/
def findCycles (g : Graph) (maxPerScc : Int) : List Cycle :=
  dedup none (((rawCycles g maxPerScc).map canon).insertionSort fun a b ↦ keyOf a ≤ keyOf b)

end DeadLockDetect.Analyzer
