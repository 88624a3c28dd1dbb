import Mathlib.Algebra.GroupWithZero.Nat
import DeadLockDetect.Lib.Digraph

/-!
# Enumerating the simple cycles through a vertex

The backtracking search for the simple cycles that run through a vertex `start` inside
a finite set `S` of vertices, as a recursive function: `closedPaths p vs` lists the closed
paths that extend the path `p` by one of the vertices `vs`.

A path is a list with its *last* vertex at the head, as a search keeps it.  The search
descends into a vertex of `S` that is not on the path, and reports the path when it can
be closed; a path of one vertex is not closed (a loop is no cycle).  Since the paths are
without repetition and inside `S`, they are no longer than `S`, which bounds the depth.

* `mem_closedPaths_iff`: the search lists the closed paths that extend `p`, and only these.
* `turns` counts the turns of a loop that runs the search on an explicit stack.

The names used here mention no program.
-/

namespace DeadLockDetect.Backtrack

open DeadLockDetect.Digraph

universe u

variable {α : Type u} [DecidableEq α] (nbrs : α → List α) (S : List α) (start : α)

/-! ## The search -/

/-- The path `p` can be closed at `v`. -/
def Closes (p : List α) (v : α) : Prop := v = start ∧ 2 ≤ p.length

instance (p : List α) (v : α) : Decidable (Closes start p v) := inferInstanceAs (Decidable (_ ∧ _))

/-- The search descends from the path `p` into `v`. -/
def Descends (p : List α) (v : α) : Prop := v ∈ S ∧ ¬ Closes start p v ∧ v ∉ p

instance (p : List α) (v : α) : Decidable (Descends S start p v) :=
  inferInstanceAs (Decidable (_ ∧ _))

/-- The closed paths found with at most `k` further levels. -/
def closedPathsUpTo : Nat → List α → List α → List (List α)
  | 0, _, _ => []
  | k + 1, p, vs => vs.flatMap fun v ↦
      if v ∈ S ∧ Closes start p v then [p]
      else if Descends S start p v then closedPathsUpTo k (v :: p) (nbrs v)
      else []

/-- The closed paths that extend `p` by one of `vs`, or close it there. -/
def closedPaths (p vs : List α) : List (List α) :=
  closedPathsUpTo nbrs S start (S.length + 1 - p.length) p vs

/-- The turns of a search on an explicit stack, with at most `k` further levels: one to
leave the path, and for each vertex descended into one more and those of its own. -/
def turnsUpTo : Nat → List α → List α → Nat
  | 0, _, _ => 1
  | k + 1, p, vs => 1 + (vs.map fun v ↦
      if Descends S start p v then 1 + turnsUpTo k (v :: p) (nbrs v) else 0).sum

/-- The turns that a search takes from the path `p` with the neighbours `vs` to look at. -/
def turns (p vs : List α) : Nat := turnsUpTo nbrs S start (S.length + 1 - p.length) p vs

variable {nbrs S start}

@[simp] theorem closedPaths_nil (p : List α) : closedPaths nbrs S start p [] = [] := by
  unfold closedPaths
  cases S.length + 1 - p.length <;> rfl

omit [DecidableEq α] in
/-- The depth that is left, while a path is no longer than `S`. -/
theorem depth_eq {p : List α} (hp : p.length ≤ S.length) (v : α) :
    S.length + 1 - p.length = (S.length + 1 - (v :: p).length) + 1 := by
  rw [List.length_cons]
  omega

theorem closedPaths_cons {p : List α} (hp : p.length ≤ S.length) (v : α) (vs : List α) :
    closedPaths nbrs S start p (v :: vs) =
      (if v ∈ S ∧ Closes start p v then [p]
        else if Descends S start p v then closedPaths nbrs S start (v :: p) (nbrs v)
        else []) ++ closedPaths nbrs S start p vs := by
  unfold closedPaths
  rw [depth_eq hp v]
  rfl

variable (nbrs S start) in
theorem one_le_turns (p vs : List α) : 1 ≤ turns nbrs S start p vs := by
  unfold turns
  cases S.length + 1 - p.length with
  | zero => exact le_refl 1
  | succ k => exact Nat.le_add_right 1 _

theorem turns_cons {p : List α} (hp : p.length ≤ S.length) (v : α) (vs : List α) :
    turns nbrs S start p (v :: vs) =
      (if Descends S start p v then 1 + turns nbrs S start (v :: p) (nbrs v) else 0) +
        turns nbrs S start p vs := by
  unfold turns
  rw [depth_eq hp v]
  simp only [turnsUpTo, List.map_cons, List.sum_cons]
  omega

/-! ## What the search lists -/

/-- `p` is a path from `start` inside `S`, its last vertex first. -/
structure PathFrom (nbrs : α → List α) (S : List α) (start : α) (p : List α) : Prop where
  nodup : p.Nodup
  subset : ∀ x ∈ p, x ∈ S
  chain : p.IsChain fun b a ↦ b ∈ nbrs a
  last : p.getLast? = some start

omit [DecidableEq α] in
theorem pathFrom_singleton (h : start ∈ S) : PathFrom nbrs S start [start] :=
  ⟨List.nodup_singleton start, fun _ hx ↦ List.mem_singleton.mp hx ▸ h,
    List.isChain_singleton start, rfl⟩

namespace PathFrom

variable {p q : List α}

omit [DecidableEq α]

theorem length_le (h : PathFrom nbrs S start p) : p.length ≤ S.length :=
  (List.subperm_of_subset h.nodup h.subset).length_le

theorem start_mem (h : PathFrom nbrs S start p) : start ∈ p :=
  List.mem_of_getLast? h.last

theorem ne_nil (h : PathFrom nbrs S start p) : p ≠ [] :=
  List.ne_nil_of_mem h.start_mem

theorem cons {u v : α} (h : PathFrom nbrs S start (u :: p)) (hv : v ∈ nbrs u) (hS : v ∈ S)
    (hp : v ∉ u :: p) : PathFrom nbrs S start (v :: u :: p) where
  nodup := List.nodup_cons.mpr ⟨hp, h.nodup⟩
  subset x hx := by
    rcases List.mem_cons.mp hx with rfl | hx
    · exact hS
    · exact h.subset x hx
  chain := .cons_cons hv h.chain
  last := by rw [List.getLast?_cons_cons, h.last]

/-- What is left of a path when its last vertices are taken back is a path. -/
theorem suffix (h : PathFrom nbrs S start q) (hpq : p <:+ q) (hp : p ≠ []) :
    PathFrom nbrs S start p where
  nodup := h.nodup.sublist hpq.sublist
  subset x hx := h.subset x (hpq.subset hx)
  chain := h.chain.suffix hpq
  last := by
    obtain ⟨t, rfl⟩ := hpq
    rw [← h.last, List.getLast?_append_of_ne_nil _ hp]

end PathFrom

/-- `p` is a path from `start` that an edge closes to a cycle of length at least two. -/
structure ClosedPath (nbrs : α → List α) (S : List α) (start : α) (p : List α) : Prop where
  path : PathFrom nbrs S start p
  two_le : 2 ≤ p.length
  closing : ∀ u ∈ p.head?, start ∈ nbrs u

omit [DecidableEq α] in
/-- A path that is continued to `q` is continued by one vertex first. -/
theorem exists_cons_suffix {p q : List α} (h : p <:+ q) : q = p ∨ ∃ v, v :: p <:+ q := by
  obtain ⟨t, rfl⟩ := h
  rcases List.eq_nil_or_concat' t with rfl | ⟨t, v, rfl⟩
  · exact Or.inl rfl
  · exact Or.inr ⟨v, t, by rw [List.append_assoc, List.cons_append, List.nil_append]⟩

theorem mem_closedPaths {p : List α} (hp : p.length ≤ S.length) {vs q : List α} :
    q ∈ closedPaths nbrs S start p vs ↔ ∃ v ∈ vs,
      (v ∈ S ∧ Closes start p v ∧ q = p) ∨
        (Descends S start p v ∧ q ∈ closedPaths nbrs S start (v :: p) (nbrs v)) := by
  induction vs with
  | nil => simp
  | cons v vs ih =>
      rw [closedPaths_cons hp, List.mem_append, ih]
      simp only [List.exists_mem_cons_iff]
      refine or_congr_left ?_
      by_cases hc : v ∈ S ∧ Closes start p v
      · have hd : ¬ Descends S start p v := fun hd ↦ hd.2.1 hc.2
        simp [hc, hd]
      · rw [if_neg hc, ← and_assoc]
        by_cases hd : Descends S start p v
        · simp [hd, hc]
        · simp [hd, hc]

/-- **The search lists the closed paths that extend `p`**, and only these. -/
theorem mem_closedPaths_iff {u : α} {p : List α} (hp : PathFrom nbrs S start (u :: p))
    {q : List α} : q ∈ closedPaths nbrs S start (u :: p) (nbrs u) ↔
      ClosedPath nbrs S start q ∧ u :: p <:+ q := by
  -- induction on the room that is left for the path
  induction hn : S.length - (u :: p).length generalizing u p with
  | zero =>
      rw [mem_closedPaths hp.length_le]
      constructor
      · rintro ⟨v, hv, ⟨-, hc, rfl⟩ | ⟨hd, -⟩⟩
        · obtain ⟨rfl, h2⟩ := hc
          exact ⟨⟨hp, h2, fun w hw ↦ Option.some.inj hw ▸ hv⟩, List.suffix_refl _⟩
        · have := (hp.cons hv hd.1 hd.2.2).length_le
          simp only [List.length_cons] at this hn
          omega
      · rintro ⟨hq, hpq⟩
        rcases exists_cons_suffix hpq with rfl | ⟨v, hv⟩
        · exact ⟨start, hq.closing u rfl,
            Or.inl ⟨hp.subset _ hp.start_mem, ⟨rfl, hq.two_le⟩, rfl⟩⟩
        · have := (hq.path.suffix hv (List.cons_ne_nil _ _)).length_le
          simp only [List.length_cons] at this hn
          omega
  | succ n ih =>
      rw [mem_closedPaths hp.length_le]
      constructor
      · rintro ⟨v, hv, ⟨-, hc, rfl⟩ | ⟨hd, hq⟩⟩
        · obtain ⟨rfl, h2⟩ := hc
          exact ⟨⟨hp, h2, fun w hw ↦ Option.some.inj hw ▸ hv⟩, List.suffix_refl _⟩
        · obtain ⟨hq, hvq⟩ := (ih (hp.cons hv hd.1 hd.2.2)
            (by simp only [List.length_cons] at hn ⊢; omega)).mp hq
          exact ⟨hq, (List.suffix_cons v _).trans hvq⟩
      · rintro ⟨hq, hpq⟩
        rcases exists_cons_suffix hpq with rfl | ⟨v, hv⟩
        · exact ⟨start, hq.closing u rfl,
            Or.inl ⟨hp.subset _ hp.start_mem, ⟨rfl, hq.two_le⟩, rfl⟩⟩
        · have hvp := hq.path.suffix hv (List.cons_ne_nil _ _)
          obtain ⟨hmem, -⟩ := List.nodup_cons.mp hvp.nodup
          have hstart : v ≠ start := fun e ↦ hmem (e ▸ hp.start_mem)
          refine ⟨v, (List.isChain_cons_cons.mp hvp.chain).1, Or.inr ⟨⟨?_, ?_, hmem⟩, ?_⟩⟩
          · exact hvp.subset v List.mem_cons_self
          · exact fun hc ↦ hstart hc.1
          · exact (ih hvp (by simp only [List.length_cons] at hn ⊢; omega)).mpr ⟨hq, hv⟩

/-! ## Closed paths are simple cycles -/

omit [DecidableEq α] in
/-- A closed path, read from `start` on, runs around a simple cycle. -/
theorem closedPath_iff {p : List α} : ClosedPath nbrs S start p ↔
    SimpleCycle (fun a b ↦ b ∈ nbrs a) p.reverse ∧ p.getLast? = some start ∧
      ∀ x ∈ p, x ∈ S := by
  rcases List.eq_nil_or_concat' p with rfl | ⟨t, a, rfl⟩
  · exact ⟨fun h ↦ absurd rfl h.path.ne_nil, fun h ↦ by cases h.2.1⟩
  · have hlast : ∀ b, (t ++ [a]).getLast? = some b ↔ a = b := fun b ↦ by
      rw [List.getLast?_concat, Option.some.injEq]
    have hrev : (t ++ [a]).reverse = a :: t.reverse := by
      rw [List.reverse_append, List.reverse_singleton, List.singleton_append]
    have hhead : (t ++ [a]).head? = some ((a :: t.reverse).getLast (List.cons_ne_nil _ _)) := by
      rw [← List.getLast?_eq_getLast_of_ne_nil, ← hrev, List.getLast?_reverse]
    constructor
    · intro h
      obtain rfl := (hlast start).mp h.path.last
      refine ⟨⟨?_, ?_, ?_⟩, h.path.last, h.path.subset⟩
      · rw [List.length_reverse]
        exact h.two_le
      · exact List.nodup_reverse.mpr h.path.nodup
      · have hchain := List.isChain_reverse.mpr h.path.chain
        rw [hrev] at hchain ⊢
        exact chain_cons_iff.mpr ⟨hchain, h.closing _ hhead⟩
    · rintro ⟨⟨h2, hnodup, hchain⟩, hl, hsub⟩
      obtain rfl := (hlast start).mp hl
      rw [List.length_reverse] at h2
      rw [hrev, chain_cons_iff] at hchain
      refine ⟨⟨List.nodup_reverse.mp hnodup, hsub, ?_, hl⟩, h2, ?_⟩
      · have := hchain.1
        rw [← hrev, List.isChain_reverse] at this
        exact this
      · intro u hu
        rw [hhead] at hu
        exact Option.some.inj hu ▸ hchain.2

/-- The search from `start` lists the simple cycles through `start` inside `S`. -/
theorem mem_closedPaths_start_iff (hS : start ∈ S) {p : List α} :
    p ∈ closedPaths nbrs S start [start] (nbrs start) ↔ ClosedPath nbrs S start p := by
  rw [mem_closedPaths_iff (pathFrom_singleton hS)]
  refine and_iff_left_of_imp fun h ↦ ?_
  obtain ⟨t, ht⟩ := List.getLast?_eq_some_iff.mp h.path.last
  exact ⟨t, ht.symm⟩

/-! ## The order of the search

The search prefers the neighbours in their order.  A walk is described by the positions
of its vertices among the neighbours of the vertex before, and the closed paths are found
in the lexicographic order of these descriptions. -/

/-- The positions that a walk takes among the neighbours, step by step. -/
def walkChoices (nbrs : α → List α) : List α → List Nat
  | u :: v :: w => (nbrs u).idxOf v :: walkChoices nbrs (v :: w)
  | _ => []

/-- The positions taken by a closed path, read from `start` on and back to it. -/
def choices (nbrs : α → List α) (start : α) (p : List α) : List Nat :=
  walkChoices nbrs (p.reverse ++ [start])

theorem walkChoices_append (w : List α) (u : α) (w' : List α) :
    walkChoices nbrs (w ++ u :: w') =
      walkChoices nbrs (w ++ [u]) ++ walkChoices nbrs (u :: w') := by
  induction w with
  | nil => rfl
  | cons a w ih =>
      cases w with
      | nil => rfl
      | cons b w =>
          rw [List.cons_append, List.cons_append, walkChoices, List.cons_append, List.cons_append,
            walkChoices, List.cons_append, ← List.cons_append, ih]
          rfl

/-- A closed path that goes on from `u` to `v` takes the position of `v` there. -/
theorem exists_choices_eq {n : α → List α} {u v : α} {p q : List α}
    (h : v :: u :: p <:+ start :: q) :
    ∃ r, choices n start q = walkChoices n (p.reverse ++ [u]) ++ (n u).idxOf v :: r := by
  obtain ⟨t, ht⟩ := h
  have hw : q.reverse ++ [start] = p.reverse ++ u :: v :: t.reverse := by
    have hrev := congrArg List.reverse ht
    rw [List.reverse_cons] at hrev
    rw [← hrev, List.reverse_append, List.reverse_cons, List.reverse_cons, List.append_assoc,
      List.append_assoc]
    rfl
  refine ⟨walkChoices n (v :: t.reverse), ?_⟩
  rw [choices, hw, walkChoices_append]
  rfl

/-- In a list without repetition the positions increase. -/
theorem pairwise_idxOf {l : List α} (h : l.Nodup) :
    l.Pairwise fun v w ↦ l.idxOf v < l.idxOf w := by
  rw [List.pairwise_iff_getElem]
  intro i j hi hj hij
  rwa [h.idxOf_getElem i hi, h.idxOf_getElem j hj]

/-- What a search finds by way of `v` goes on to `v`. -/
theorem suffix_of_mem {u v : α} {p q : List α} (hp : PathFrom nbrs S start (u :: p))
    (hv : v ∈ nbrs u)
    (hq : (v ∈ S ∧ Closes start (u :: p) v ∧ q = u :: p) ∨ (Descends S start (u :: p) v ∧
      q ∈ closedPaths nbrs S start (v :: u :: p) (nbrs v))) : v :: u :: p <:+ start :: q := by
  rcases hq with ⟨-, hc, rfl⟩ | ⟨hd, hq⟩
  · rw [hc.1]
  · have h := ((mem_closedPaths_iff (hp.cons hv hd.1 hd.2.2)).mp hq).2
    exact h.trans (List.suffix_cons start q)

/-- **The order of the search**: the closed paths are found in the lexicographic order of
the positions they take. -/
theorem pairwise_closedPaths (hnbrs : ∀ v, (nbrs v).Nodup) {u : α} {p : List α}
    (hp : PathFrom nbrs S start (u :: p)) :
    (closedPaths nbrs S start (u :: p) (nbrs u)).Pairwise fun q r ↦
      choices nbrs start q < choices nbrs start r := by
  -- induction on the room that is left for the path
  induction hn : S.length + 1 - (u :: p).length generalizing u p with
  | zero =>
      have := hp.length_le
      omega
  | succ n ih =>
      have hmem : ∀ v ∈ nbrs u, ∀ q, q ∈ (if v ∈ S ∧ Closes start (u :: p) v then [u :: p]
          else if Descends S start (u :: p) v then
            closedPathsUpTo nbrs S start n (v :: u :: p) (nbrs v) else []) →
          v :: u :: p <:+ start :: q := by
        intro v hv q hq
        refine suffix_of_mem hp hv ?_
        split at hq
        · rename_i hc
          exact Or.inl ⟨hc.1, hc.2, List.mem_singleton.mp hq⟩
        · split at hq
          · rename_i hd
            refine Or.inr ⟨hd, ?_⟩
            rw [closedPaths, List.length_cons, show S.length + 1 - ((u :: p).length + 1) = n by omega]
            exact hq
          · exact absurd hq List.not_mem_nil
      rw [closedPaths, hn, closedPathsUpTo, List.pairwise_flatMap]
      constructor
      · intro v hv
        split
        · exact List.pairwise_singleton _ _
        · split
          · rename_i hd
            have hroom : S.length + 1 - (v :: u :: p).length = n := by
              rw [List.length_cons]
              omega
            have := ih (hp.cons hv hd.1 hd.2.2) hroom
            rwa [closedPaths, hroom] at this
          · exact .nil
      · refine (pairwise_idxOf (hnbrs u)).imp_of_mem fun {v w} hv hw hvw q hq r hr ↦ ?_
        obtain ⟨x, hx⟩ := exists_choices_eq (n := nbrs) (hmem v hv q hq)
        obtain ⟨y, hy⟩ := exists_choices_eq (n := nbrs) (hmem w hw r hr)
        rw [hx, hy]
        exact List.append_left_lt (List.cons_lt_cons_iff.mpr (Or.inl hvw))

/-! ## Renaming the vertices -/

section Map

universe v

variable {β : Type v} [DecidableEq β] {f : α → β}

omit [DecidableEq α] [DecidableEq β] in
theorem closes_map (hf : Function.Injective f) (p : List α) (v : α) :
    Closes (f start) (p.map f) (f v) ↔ Closes start p v := by
  rw [Closes, Closes, hf.eq_iff, List.length_map]

omit [DecidableEq α] [DecidableEq β] in
theorem descends_map (hf : Function.Injective f) (p : List α) (v : α) :
    Descends (S.map f) (f start) (p.map f) (f v) ↔ Descends S start p v := by
  rw [Descends, Descends, closes_map hf, List.mem_map_of_injective hf,
    List.mem_map_of_injective hf]

theorem closedPathsUpTo_map (hf : Function.Injective f) {nbrs' : β → List β}
    (hnbrs : ∀ v, nbrs' (f v) = (nbrs v).map f) (k : Nat) (p vs : List α) :
    closedPathsUpTo nbrs' (S.map f) (f start) k (p.map f) (vs.map f) =
      (closedPathsUpTo nbrs S start k p vs).map (List.map f) := by
  induction k generalizing p vs with
  | zero => rfl
  | succ k ih =>
      rw [closedPathsUpTo, closedPathsUpTo, List.flatMap_map, List.map_flatMap]
      refine List.flatMap_congr fun v _ ↦ ?_
      simp only [closes_map hf, descends_map hf, List.mem_map_of_injective hf]
      split
      · rfl
      · split
        · rw [hnbrs, ← List.map_cons, ih]
        · rfl

/-- The search does not look at what the vertices are: when they are renamed, it finds the renamed
paths, in the same order. -/
theorem closedPaths_map (hf : Function.Injective f) {nbrs' : β → List β}
    (hnbrs : ∀ v, nbrs' (f v) = (nbrs v).map f) (p vs : List α) :
    closedPaths nbrs' (S.map f) (f start) (p.map f) (vs.map f) =
      (closedPaths nbrs S start p vs).map (List.map f) := by
  rw [closedPaths, List.length_map, List.length_map, closedPathsUpTo_map hf hnbrs, closedPaths]

end Map

end DeadLockDetect.Backtrack
