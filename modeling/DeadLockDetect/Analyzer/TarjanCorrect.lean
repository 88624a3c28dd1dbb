import DeadLockDetect.Lib.Digraph
import DeadLockDetect.Analyzer.Tarjan

/-!
# Tarjan's algorithm: correctness

`tarjanScc` returns the strongly connected components: each list that it returns is one
(`tarjanScc_isScc`), no vertex is listed twice (`tarjanScc_nodup`), and every key of the
adjacency map is listed (`exists_mem_tarjanScc`).

The proof follows the shape of the stack.  Between two turns `stk` is cut into pieces by
the vertices of the open frames: above the vertex `v` of a frame lie the vertices `xs` that
were left since `v` was visited and whose component is still open, below it what was there
before (`Layout`).  What holds of one piece is a `Segment`:

* `v` and the vertices of `xs` reach each other, and the frame below reaches `v`;
* `low v` is the index of a vertex at or below `v` that `v` reaches;
* every edge examined so far ends in a visited vertex, and if it ends *below* `v`, then
  `low v` is at most the index it ends in.

When the frame of `v` is left with `low v = idx v`, no edge of the piece ends below `v`, so the
piece is a component; otherwise `v` reaches the frame below, and the two pieces merge.
-/

namespace DeadLockDetect.Analyzer

open Relation DeadLockDetect.Digraph

universe u

variable {α : Type u} [DecidableEq α]

/-- `w` is a neighbour of `v`. -/
def Adj (adj : Dict α (List α)) (v w : α) : Prop := w ∈ neigh adj v

/-! ## The layout of the stack -/

/-- What is known about an edge into `w` seen from the frame of a vertex with `low` entry `l`
above `below`. -/
def Seen (vis : α → Prop) (idx : α → Nat) (below : List α) (l : Nat) (w : α) : Prop :=
  vis w ∧ (w ∈ below → l ≤ idx w)

/-- One frame `(v, ni)` of the search, the vertices `xs` above `v` on the stack, and what lies
`below`; `work` are the frames below. -/
structure Segment (adj : Dict α (List α)) (vis : α → Prop) (idx low : α → Nat) (v : α) (ni : Nat)
    (work : List (α × Nat)) (xs below : List α) : Prop where
  /-- The frame below reaches this one. -/
  parent : ∀ f ∈ work.head?, ReflTransGen (Adj adj) f.1 v
  /-- The vertices above `v` belong to the component of `v`. -/
  joined : ∀ x ∈ xs, Mutual (Adj adj) v x
  /-- `low v` is the index of a vertex that `v` reaches. -/
  witness : ∃ y ∈ v :: below, low v = idx y ∧ ReflTransGen (Adj adj) v y
  /-- All edges out of the vertices above `v` have been examined. -/
  left : ∀ x ∈ xs, ∀ w, Adj adj x w → Seen vis idx below (low v) w
  /-- The first `ni` edges out of `v` have been examined. -/
  seen : ∀ w ∈ (neigh adj v).take ni, Seen vis idx below (low v) w

/-- The stack, cut into segments by the frames. -/
inductive Layout (adj : Dict α (List α)) (vis : α → Prop) (idx low : α → Nat) :
    List (α × Nat) → List α → Prop where
  | nil : Layout adj vis idx low [] []
  | cons {v : α} {ni : Nat} {work : List (α × Nat)} {xs below : List α}
      (hbelow : Layout adj vis idx low work below)
      (hseg : Segment adj vis idx low v ni work xs below) :
      Layout adj vis idx low ((v, ni) :: work) (xs ++ v :: below)

section Layout

variable {adj : Dict α (List α)} {vis vis' : α → Prop} {idx idx' low low' : α → Nat}
  {work : List (α × Nat)} {stk : List α}

omit [DecidableEq α] in
theorem Seen.mono {below below' : List α} {l l' : Nat} {w : α} (h : Seen vis idx below l w)
    (hvis : ∀ x, vis x → vis' x) (hidx : ∀ x ∈ below', x ∈ below ∧ idx' x = idx x)
    (hl : l' ≤ l) : Seen vis' idx' below' l' w := by
  refine ⟨hvis w h.1, fun hw ↦ ?_⟩
  obtain ⟨hb, hi⟩ := hidx w hw
  rw [hi]
  exact le_trans hl (h.2 hb)

/-- A segment does not depend on the vertices that are not on the stack. -/
theorem Segment.congr {v : α} {ni : Nat} {xs below : List α}
    (h : Segment adj vis idx low v ni work xs below) (hvis : ∀ x, vis x → vis' x)
    (hidx : ∀ x ∈ v :: below, idx' x = idx x) (hlow : low' v = low v) :
    Segment adj vis' idx' low' v ni work xs below where
  parent := h.parent
  joined := h.joined
  witness := by
    obtain ⟨y, hy, hl, hr⟩ := h.witness
    exact ⟨y, hy, by rw [hlow, hidx y hy, hl], hr⟩
  left x hx w hw := (h.left x hx w hw).mono hvis
    (fun y hy ↦ ⟨hy, hidx y (List.mem_cons_of_mem v hy)⟩) (le_of_eq hlow)
  seen w hw := (h.seen w hw).mono hvis
    (fun y hy ↦ ⟨hy, hidx y (List.mem_cons_of_mem v hy)⟩) (le_of_eq hlow)

/-- The next edge of the topmost frame has been examined. -/
theorem Segment.bump {v w : α} {ni : Nat} {xs below : List α}
    (h : Segment adj vis idx low v ni work xs below) (hw : (neigh adj v)[ni]? = some w)
    (hseen : Seen vis idx below (low v) w) :
    Segment adj vis idx low v (ni + 1) work xs below :=
  { h with
    seen := by
      intro x hx
      rw [List.take_add_one, hw, Option.toList_some, List.mem_append, List.mem_singleton] at hx
      rcases hx with hx | rfl
      · exact h.seen x hx
      · exact hseen }

/-- Lowering `low v` to the index of a vertex below that `v` reaches. -/
theorem Segment.lower {v y : α} {ni : Nat} {xs below : List α}
    (h : Segment adj vis idx low v ni work xs below) (hy : y ∈ v :: below)
    (hlow : low' v = idx y) (hle : idx y ≤ low v) (hr : ReflTransGen (Adj adj) v y) :
    Segment adj vis idx low' v ni work xs below where
  parent := h.parent
  joined := h.joined
  witness := ⟨y, hy, hlow, hr⟩
  left x hx w hw := (h.left x hx w hw).mono (fun _ ↦ id) (fun _ hy ↦ ⟨hy, rfl⟩) (hlow ▸ hle)
  seen w hw := (h.seen w hw).mono (fun _ ↦ id) (fun _ hy ↦ ⟨hy, rfl⟩) (hlow ▸ hle)

/-- When the frame of `v` has no edge left, all edges out of its piece have been examined. -/
theorem Segment.seen_all {v : α} {ni : Nat} {xs below : List α}
    (h : Segment adj vis idx low v ni work xs below) (hnone : (neigh adj v)[ni]? = none) {x w : α}
    (hx : x ∈ xs ∨ x = v) (hw : Adj adj x w) : Seen vis idx below (low v) w := by
  rcases hx with hx | rfl
  · exact h.left x hx w hw
  · refine h.seen w ?_
    rwa [List.take_of_length_le (List.getElem?_eq_none_iff.mp hnone)]

/-- A piece whose vertex `v` is not a root merges with the piece of the frame below. -/
theorem Segment.merge {v p : α} {ni m : Nat} {xs below xs' below' : List α}
    (h : Segment adj vis idx low v ni ((p, m) :: work) xs below)
    (hp : Segment adj vis idx low p m work xs' below') (hbelow : below = xs' ++ p :: below')
    (hnone : (neigh adj v)[ni]? = none) (hroot : low v < idx v) (hle : low p ≤ idx p)
    (hidx : ∀ x ∈ xs', idx p < idx x) (hvp : ReflTransGen (Adj adj) v p)
    (hlow : low' p = min (low v) (low p)) :
    Segment adj vis idx low' p m work (xs ++ v :: xs') below' := by
  have hpv : Mutual (Adj adj) p v := ⟨h.parent (p, m) rfl, hvp⟩
  have hsub : ∀ x ∈ below', x ∈ below ∧ idx x = idx x := fun x hx ↦
    ⟨hbelow ▸ List.mem_append_right xs' (List.mem_cons_of_mem p hx), rfl⟩
  refine ⟨hp.parent, fun x hx ↦ ?_, ?_, fun x hx w hw ↦ ?_, fun w hw ↦ ?_⟩
  · rcases List.mem_append.mp hx with hx | hx
    · exact hpv.trans (h.joined x hx)
    · rcases List.mem_cons.mp hx with rfl | hx
      · exact hpv
      · exact hp.joined x hx
  · rcases le_total (low p) (low v) with hpl | hvl
    · obtain ⟨y, hy, hl, hr⟩ := hp.witness
      exact ⟨y, hy, by rw [hlow, min_eq_right hpl, hl], hr⟩
    · -- the vertex that `v` reaches lies at or below `p`: above `p` the indices are too large
      obtain ⟨y, hy, hl, hr⟩ := h.witness
      refine ⟨y, ?_, by rw [hlow, min_eq_left hvl, hl], hpv.1.trans hr⟩
      rcases List.mem_cons.mp hy with rfl | hy
      · exact absurd hroot (by rw [hl]; exact lt_irrefl _)
      · rw [hbelow] at hy
        rcases List.mem_append.mp hy with hy | hy
        · have := hidx y hy
          omega
        · exact hy
  · rcases List.mem_append.mp hx with hx | hx
    · exact (h.seen_all hnone (Or.inl hx) hw).mono (fun _ ↦ id) hsub (hlow ▸ min_le_left _ _)
    · rcases List.mem_cons.mp hx with rfl | hx
      · exact (h.seen_all hnone (Or.inr rfl) hw).mono (fun _ ↦ id) hsub (hlow ▸ min_le_left _ _)
      · exact (hp.left x hx w hw).mono (fun _ ↦ id) (fun _ hy ↦ ⟨hy, rfl⟩)
          (hlow ▸ min_le_right _ _)
  · exact (hp.seen w hw).mono (fun _ ↦ id) (fun _ hy ↦ ⟨hy, rfl⟩) (hlow ▸ min_le_right _ _)

theorem Layout.congr (h : Layout adj vis idx low work stk) (hvis : ∀ x, vis x → vis' x)
    (hidx : ∀ x ∈ stk, idx' x = idx x) (hlow : ∀ f ∈ work, low' f.1 = low f.1) :
    Layout adj vis' idx' low' work stk := by
  induction h with
  | nil => exact .nil
  | cons _ hseg ih =>
      refine .cons (ih (fun x hx ↦ ?_) fun f hf ↦ ?_) (hseg.congr hvis (fun x hx ↦ ?_) ?_)
      · exact hidx x (List.mem_append_right _ (List.mem_cons_of_mem _ hx))
      · exact hlow f (List.mem_cons_of_mem _ hf)
      · exact hidx x (List.mem_append_right _ hx)
      · exact hlow _ List.mem_cons_self

/-- The vertices of the frames are on the stack. -/
theorem Layout.mem_stk (h : Layout adj vis idx low work stk) {f : α × Nat} (hf : f ∈ work) :
    f.1 ∈ stk := by
  induction h with
  | nil => cases hf
  | cons _ _ ih =>
      apply List.mem_append_right
      rcases List.mem_cons.mp hf with rfl | hf
      · exact List.mem_cons_self
      · exact List.mem_cons_of_mem _ (ih hf)

/-- Everything on the stack reaches the topmost frame. -/
theorem Layout.reach_top (h : Layout adj vis idx low work stk) {f : α × Nat}
    (hf : f ∈ work.head?) {y : α} (hy : y ∈ stk) : ReflTransGen (Adj adj) y f.1 := by
  induction h generalizing f with
  | nil => cases hf
  | @cons v ni work xs below hbelow hseg ih =>
      cases hf
      rcases List.mem_append.mp hy with hx | hx
      · exact (hseg.joined y hx).2
      · rcases List.mem_cons.mp hx with rfl | hx
        · exact .refl
        · cases work with
          | nil =>
              cases hbelow
              cases hx
          | cons p work => exact (ih rfl hx).trans (hseg.parent p rfl)

end Layout

/-! ## The invariant of the search -/

namespace TarjanState

/-- What every turn of the search preserves. -/
structure Inv (adj : Dict α (List α)) (s : TarjanState α) : Prop where
  layout : Layout adj (· ∈ s.idxMap) s.idxOf s.lowOf s.work s.stk
  /-- Indices decrease down the stack. -/
  sorted : s.stk.Pairwise fun x y ↦ s.idxOf y < s.idxOf x
  bound : ∀ x ∈ s.stk, s.idxOf x < s.counter
  onStack_iff : ∀ x, s.onStack.getD x false = true ↔ x ∈ s.stk
  /-- A visited vertex is on the stack or in a component. -/
  visited_iff : ∀ x, x ∈ s.idxMap ↔ x ∈ s.stk ∨ x ∈ s.sccs.flatten
  disjoint : ∀ x ∈ s.stk, x ∉ s.sccs.flatten
  nodup : s.sccs.flatten.Nodup
  /-- No edge leaves the components. -/
  closed : ∀ x y, x ∈ s.sccs.flatten → Adj adj x y → y ∈ s.sccs.flatten
  isScc : ∀ c ∈ s.sccs, IsScc (Adj adj) c

variable {adj : Dict α (List α)} {s : TarjanState α}

theorem Inv.stk_nodup (h : s.Inv adj) : s.stk.Nodup :=
  h.sorted.imp fun hlt e ↦ absurd hlt (by rw [e]; exact lt_irrefl _)

variable (adj) in
theorem inv_init : ({} : TarjanState α).Inv adj where
  layout := .nil
  sorted := .nil
  bound _ h := absurd h List.not_mem_nil
  onStack_iff _ := ⟨fun h ↦ (by cases h), fun h ↦ absurd h List.not_mem_nil⟩
  visited_iff _ := ⟨fun h ↦ absurd h (Dict.notMem_empty _), fun h ↦ by simp at h⟩
  disjoint _ h := absurd h List.not_mem_nil
  nodup := List.nodup_nil
  closed _ _ h := absurd h List.not_mem_nil
  isScc _ h := absurd h List.not_mem_nil

@[simp] theorem idxOf_visit (s : TarjanState α) (w x : α) :
    (s.visit w).idxOf x = if x = w then s.counter else s.idxOf x :=
  s.idxMap.getD_set w s.counter x 0

@[simp] theorem lowOf_visit (s : TarjanState α) (w x : α) :
    (s.visit w).lowOf x = if x = w then s.counter else s.lowOf x :=
  s.low.getD_set w s.counter x 0

/-- The indices on the stack survive a visit. -/
theorem Inv.idxOf_visit_of_mem (h : s.Inv adj) {w x : α} (hnew : w ∉ s.idxMap) (hx : x ∈ s.stk) :
    (s.visit w).idxOf x = s.idxOf x := by
  rw [idxOf_visit, if_neg]
  rintro rfl
  exact hnew ((h.visited_iff x).mpr (Or.inl hx))

theorem Inv.lowOf_visit_of_mem (h : s.Inv adj) {w x : α} (hnew : w ∉ s.idxMap) (hx : x ∈ s.stk) :
    (s.visit w).lowOf x = s.lowOf x := by
  rw [lowOf_visit, if_neg]
  rintro rfl
  exact hnew ((h.visited_iff x).mpr (Or.inl hx))

/-- Visiting a new vertex that the topmost frame reaches. -/
theorem Inv.visit (h : s.Inv adj) {w : α} (hnew : w ∉ s.idxMap) {work : List (α × Nat)}
    (hl : Layout adj (· ∈ (s.visit w).idxMap) (s.visit w).idxOf (s.visit w).lowOf work s.stk)
    (hreach : ∀ f ∈ work.head?, ReflTransGen (Adj adj) f.1 w) :
    (TarjanState.visit { s with work } w).Inv adj := by
  have hidx : ∀ x ∈ s.stk, (s.visit w).idxOf x = s.idxOf x := fun x ↦ h.idxOf_visit_of_mem hnew
  have hself : (s.visit w).idxOf w = s.counter := by rw [idxOf_visit, if_pos rfl]
  have hlow : (s.visit w).lowOf w = s.counter := by rw [lowOf_visit, if_pos rfl]
  exact
    { layout := by
        show Layout _ _ _ _ ((w, 0) :: work) ([] ++ w :: s.stk)
        refine .cons hl ⟨hreach, ?_, ?_, ?_, ?_⟩
        · exact fun x hx ↦ absurd hx List.not_mem_nil
        · exact ⟨w, List.mem_cons_self, hlow.trans hself.symm, .refl⟩
        · exact fun x hx ↦ absurd hx List.not_mem_nil
        · exact fun x hx ↦ absurd hx List.not_mem_nil
      sorted := by
        refine List.pairwise_cons.mpr ⟨fun y hy ↦ ?_, ?_⟩
        · show (s.visit w).idxOf y < (s.visit w).idxOf w
          rw [hself, hidx y hy]
          exact h.bound y hy
        · refine h.sorted.imp_of_mem fun {x y} hx hy hlt ↦ ?_
          show (s.visit w).idxOf y < (s.visit w).idxOf x
          rwa [hidx x hx, hidx y hy]
      bound := by
        intro x hx
        show (s.visit w).idxOf x < s.counter + 1
        rcases List.mem_cons.mp hx with rfl | hx
        · rw [hself]
          exact Nat.lt_succ_self _
        · rw [hidx x hx]
          exact Nat.lt_succ_of_lt (h.bound x hx)
      onStack_iff := by
        intro x
        show (s.onStack.set w true).getD x false = true ↔ x ∈ w :: s.stk
        rw [Dict.getD_set, List.mem_cons]
        by_cases hx : x = w
        · simp [hx]
        · rw [if_neg hx, h.onStack_iff, or_iff_right hx]
      visited_iff := by
        intro x
        show x ∈ s.idxMap.set w s.counter ↔ x ∈ w :: s.stk ∨ x ∈ s.sccs.flatten
        rw [Dict.mem_set, h.visited_iff, List.mem_cons, or_assoc]
      disjoint := by
        intro x hx hc
        rcases List.mem_cons.mp hx with rfl | hx
        · exact hnew ((h.visited_iff x).mpr (Or.inr hc))
        · exact h.disjoint x hx hc
      nodup := h.nodup
      closed := h.closed
      isScc := h.isScc }

/-! ## Looking at a neighbour -/

/-- What an invariant state with an open frame looks like. -/
theorem Inv.exists_segment (h : s.Inv adj) {v : α} {ni : Nat} {work : List (α × Nat)}
    (hwork : s.work = (v, ni) :: work) : ∃ xs below, s.stk = xs ++ v :: below ∧
      Layout adj (· ∈ s.idxMap) s.idxOf s.lowOf work below ∧
      Segment adj (· ∈ s.idxMap) s.idxOf s.lowOf v ni work xs below := by
  have hl := h.layout
  rw [hwork] at hl
  generalize hstk : s.stk = stk at hl
  cases hl with
  | cons hbelow hseg => exact ⟨_, _, rfl, hbelow, hseg⟩

/-- The vertices below `v` have smaller indices. -/
theorem Inv.idx_lt (h : s.Inv adj) {v : α} {xs below : List α} (hstk : s.stk = xs ++ v :: below)
    {y : α} (hy : y ∈ below) : s.idxOf y < s.idxOf v := by
  have hs := h.sorted
  rw [hstk] at hs
  exact (List.pairwise_cons.mp (List.pairwise_append.mp hs).2.1).1 y hy

/-- A vertex on the stack with a smaller index than `v` is below `v`. -/
theorem Inv.mem_below (h : s.Inv adj) {v : α} {xs below : List α} (hstk : s.stk = xs ++ v :: below)
    {y : α} (hy : y ∈ s.stk) (hlt : s.idxOf y < s.idxOf v) : y ∈ v :: below := by
  have hs := h.sorted
  rw [hstk] at hs hy
  rcases List.mem_append.mp hy with hx | hx
  · exact absurd ((List.pairwise_append.mp hs).2.2 y hx v List.mem_cons_self) (not_lt.mpr hlt.le)
  · exact hx

/-- Only `low` and the frames change: what is left to show is the layout. -/
theorem Inv.with_layout (h : s.Inv adj) {low : Dict α Nat} {work : List (α × Nat)}
    (hl : Layout adj (· ∈ s.idxMap) s.idxOf (low.getD · 0) work s.stk) :
    ({ s with low, work } : TarjanState α).Inv adj :=
  { h with layout := hl }

/-- `low v` never exceeds the index of `v`. -/
theorem Inv.lowOf_le (h : s.Inv adj) {v : α} {xs below : List α}
    (hstk : s.stk = xs ++ v :: below)
    (hwit : ∃ y ∈ v :: below, s.lowOf v = s.idxOf y ∧ ReflTransGen (Adj adj) v y) :
    s.lowOf v ≤ s.idxOf v := by
  obtain ⟨y, hy, hl, -⟩ := hwit
  rcases List.mem_cons.mp hy with rfl | hy
  · exact le_of_eq hl
  · rw [hl]
    exact le_of_lt (h.idx_lt hstk hy)

/-- The frames below do not belong to `v`. -/
theorem Inv.ne_of_mem_work (h : s.Inv adj) {v : α} {work : List (α × Nat)} {xs below : List α}
    (hstk : s.stk = xs ++ v :: below)
    (hbelow : Layout adj (· ∈ s.idxMap) s.idxOf s.lowOf work below) :
    ∀ f ∈ work, f.1 ≠ v := by
  intro f hf e
  exact absurd (h.idx_lt hstk (hbelow.mem_stk hf)) (by rw [e]; exact lt_irrefl _)

/-- Changing `low` at `v` only leaves the frames below as they are. -/
theorem layout_set_low {vis : α → Prop} {idx : α → Nat} {work : List (α × Nat)} {stk : List α}
    (h : Layout adj vis idx s.lowOf work stk) {v : α} (hv : ∀ f ∈ work, f.1 ≠ v) (l : Nat) :
    Layout adj vis idx ((s.low.set v l).getD · 0) work stk := by
  refine h.congr (fun _ ↦ id) (fun _ _ ↦ rfl) fun f hf ↦ ?_
  rw [Dict.getD_set, if_neg (hv f hf)]
  rfl

/-- Looking at a neighbour preserves the invariant. -/
theorem Inv.examine (h : s.Inv adj) {v w : α} {ni : Nat} {work : List (α × Nat)}
    (hwork : s.work = (v, ni) :: work) (hw : (neigh adj v)[ni]? = some w) :
    (TarjanState.examine { s with work := (v, ni + 1) :: work } v w).Inv adj := by
  obtain ⟨xs, below, hstk, hbelow, hseg⟩ := h.exists_segment hwork
  have hvw : Adj adj v w := List.mem_of_getElem? hw
  -- once `w` is known to be seen, the frame can move on
  have hbump : Seen (· ∈ s.idxMap) s.idxOf below (s.lowOf v) w →
      ({ s with work := (v, ni + 1) :: work } : TarjanState α).Inv adj := by
    intro hseen
    refine h.with_layout ?_
    rw [hstk]
    exact .cons hbelow (hseg.bump hw hseen)
  unfold TarjanState.examine
  split
  · rename_i hnew
    -- a new vertex: it is not below, being not on the stack
    have hw' : w ∉ s.stk := fun hm ↦ hnew ((h.visited_iff w).mpr (Or.inl hm))
    have hvis : ∀ x, x ∈ s.idxMap → x ∈ (s.visit w).idxMap := fun x hx ↦
      Dict.mem_set.mpr (Or.inr hx)
    have hsub : ∀ x ∈ v :: below, x ∈ s.stk := fun x hx ↦ hstk ▸ List.mem_append_right xs hx
    refine h.visit hnew ?_ ?_
    · rw [hstk]
      refine .cons (hbelow.congr hvis ?_ ?_) ((hseg.congr hvis ?_ ?_).bump hw ?_)
      · exact fun x hx ↦ h.idxOf_visit_of_mem hnew (hsub x (List.mem_cons_of_mem v hx))
      · exact fun f hf ↦ h.lowOf_visit_of_mem hnew
          (hsub f.1 (List.mem_cons_of_mem v (hbelow.mem_stk hf)))
      · exact fun x hx ↦ h.idxOf_visit_of_mem hnew (hsub x hx)
      · exact h.lowOf_visit_of_mem hnew (hsub v List.mem_cons_self)
      · exact ⟨Dict.mem_set.mpr (Or.inl rfl),
          fun hb ↦ absurd (hsub w (List.mem_cons_of_mem v hb)) hw'⟩
    · rintro f hf
      cases hf
      exact .single hvw
  · rename_i hold
    have hvis : w ∈ s.idxMap := not_not.mp hold
    split
    · rename_i hon
      have hmem : w ∈ s.stk := (h.onStack_iff w).mp hon
      split
      · rename_i hlt
        -- `w` is below `v`: its index is less than `low v`, hence than that of `v`
        have hlow : ((s.low.set v (s.idxOf w)).getD v 0) = s.idxOf w := by
          rw [Dict.getD_set, if_pos rfl]
        have hwv : s.idxOf w < s.idxOf v := lt_of_lt_of_le hlt (h.lowOf_le hstk hseg.witness)
        have hb : w ∈ v :: below := h.mem_below hstk hmem hwv
        refine h.with_layout ?_
        rw [hstk]
        refine .cons (layout_set_low hbelow (h.ne_of_mem_work hstk hbelow) _) ?_
        refine (hseg.lower hb hlow (le_of_lt hlt) (.single hvw)).bump hw ?_
        exact ⟨hvis, fun _ ↦ le_of_eq hlow⟩
      · rename_i hlt
        exact hbump ⟨hvis, fun _ ↦ not_lt.mp hlt⟩
    · rename_i hon
      refine hbump ⟨hvis, fun hb ↦ absurd ?_ hon⟩
      refine (h.onStack_iff w).mpr ?_
      rw [hstk]
      exact List.mem_append_right _ (List.mem_cons_of_mem v hb)

/-! ## Leaving a vertex -/

/-- `low` after a frame was left: that of its parent is lowered. -/
theorem lowOf_finish_parent (s : TarjanState α) (v p : α) (m : Nat) (work : List (α × Nat))
    (x : α) :
    (s.finish v ((p, m) :: work)).lowOf x =
      if x = p then min (s.lowOf v) (s.lowOf p) else s.lowOf x := by
  unfold finish
  dsimp only
  split
  · rename_i hlt
    rw [min_eq_left hlt.le]
    exact s.low.getD_set p (s.lowOf v) x 0
  · rename_i hlt
    rw [min_eq_right (not_lt.mp hlt)]
    split
    · rename_i hx
      rw [hx]
      rfl
    · rfl

/-- A vertex that is not a root is left: its piece merges with that of the frame below. -/
theorem Inv.finish (h : s.Inv adj) {v : α} {ni : Nat} {work : List (α × Nat)}
    (hwork : s.work = (v, ni) :: work) (hnone : (neigh adj v)[ni]? = none)
    (hroot : s.lowOf v ≠ s.idxOf v) : (s.finish v work).Inv adj ∧
      (s.finish v work).lowOf v = s.lowOf v := by
  obtain ⟨xs, below, hstk, hbelow, hseg⟩ := h.exists_segment hwork
  have hlt : s.lowOf v < s.idxOf v := lt_of_le_of_ne (h.lowOf_le hstk hseg.witness) hroot
  have hne := h.ne_of_mem_work hstk hbelow
  cases hbelow with
  | nil =>
      -- nothing is below, so `low v` could only be the index of `v`
      obtain ⟨y, hy, hl, -⟩ := hseg.witness
      exact absurd (by rw [hl, List.mem_singleton.mp hy]) hroot
  | @cons p m work xs' below' hbelow' hseg' =>
      have hstk' : s.stk = (xs ++ v :: xs') ++ p :: below' := by
        rw [hstk, List.append_assoc, List.cons_append]
      have hvp : ReflTransGen (Adj adj) v p := by
        obtain ⟨y, hy, hl, hr⟩ := hseg.witness
        rcases List.mem_cons.mp hy with rfl | hy
        · exact absurd hl hroot
        · exact hr.trans ((Layout.cons hbelow' hseg').reach_top rfl hy)
      have hidx : ∀ x ∈ xs', s.idxOf p < s.idxOf x := by
        intro x hx
        have hs := h.sorted
        rw [hstk'] at hs
        refine (List.pairwise_append.mp hs).2.2 x ?_ p List.mem_cons_self
        exact List.mem_append_right xs (List.mem_cons_of_mem v hx)
      have hlow := lowOf_finish_parent s v p m work
      have hframes := h.ne_of_mem_work hstk' hbelow'
      refine ⟨?_, ?_⟩
      · have hl : Layout adj (· ∈ s.idxMap) s.idxOf (s.finish v ((p, m) :: work)).lowOf
            ((p, m) :: work) s.stk := by
          rw [hstk']
          refine .cons (hbelow'.congr (fun _ ↦ id) (fun _ _ ↦ rfl) fun f hf ↦ ?_) ?_
          · rw [hlow, if_neg (hframes f hf)]
          · exact hseg.merge hseg' rfl hnone hlt (h.lowOf_le hstk' hseg'.witness) hidx hvp
              (by rw [hlow, if_pos rfl])
        have hs : s.finish v ((p, m) :: work) =
            { s with work := (p, m) :: work, low := (s.finish v ((p, m) :: work)).low } := by
          unfold TarjanState.finish
          dsimp only
          split <;> rfl
        rw [hs]
        exact h.with_layout hl
      · rw [hlow, if_neg (hne (p, m) List.mem_cons_self).symm]

/-- Leaving a root does not change `low` of its parent, which is smaller anyway. -/
theorem Inv.finish_of_root (h : s.Inv adj) {v : α} {work : List (α × Nat)} {xs below : List α}
    (hstk : s.stk = xs ++ v :: below)
    (hbelow : Layout adj (· ∈ s.idxMap) s.idxOf s.lowOf work below)
    (hroot : s.lowOf v = s.idxOf v) : s.finish v work = { s with work } := by
  cases hbelow with
  | nil => rfl
  | @cons p m work xs' below' hbelow' hseg' =>
      have hstk' : s.stk = (xs ++ v :: xs') ++ p :: below' := by
        rw [hstk, List.append_assoc, List.cons_append]
      have hpv : s.idxOf p < s.idxOf v :=
        h.idx_lt hstk (List.mem_append_right xs' List.mem_cons_self)
      have hle : s.lowOf p ≤ s.idxOf p := h.lowOf_le hstk' hseg'.witness
      unfold TarjanState.finish
      exact if_neg (by omega)

theorem popTo_append {v : α} {xs below : List α} (hv : v ∉ xs) :
    popTo v (xs ++ v :: below) = (xs ++ [v], below) := by
  induction xs with
  | nil => rw [List.nil_append, popTo, if_pos rfl, List.nil_append]
  | cons x xs ih =>
      obtain ⟨hx, hxs⟩ := not_or.mp fun h ↦ hv (List.mem_cons.mpr h)
      rw [List.cons_append, popTo, if_neg (Ne.symm hx), ih hxs, List.cons_append]

theorem close_of_eq {s : TarjanState α} {v : α} (hroot : s.lowOf v = s.idxOf v) {comp stk : List α}
    (hpop : popTo v s.stk = (comp, stk)) : s.close v =
      { s with stk, onStack := comp.foldl (fun d w ↦ d.set w false) s.onStack,
               sccs := s.sccs ++ [comp] } := by
  unfold close
  rw [if_pos hroot, hpop]

theorem getD_foldl_set_false (d : Dict α Bool) (c : List α) (x : α) :
    (c.foldl (fun d w ↦ d.set w false) d).getD x false =
      if x ∈ c then false else d.getD x false := by
  induction c generalizing d with
  | nil => simp
  | cons w c ih =>
      rw [List.foldl_cons, ih, Dict.getD_set]
      by_cases hx : x ∈ c
      · simp [hx]
      · simp [hx]

section Piece

variable {v : α} {ni : Nat} {work : List (α × Nat)} {xs below : List α}

/-- The piece of the stack from `v` up has no duplicates, and nothing of it is below. -/
theorem Inv.piece_nodup (h : s.Inv adj) (hstk : s.stk = xs ++ v :: below) :
    (xs ++ [v]).Nodup ∧ ∀ x ∈ xs ++ [v], x ∉ below := by
  have hnodup := h.stk_nodup
  rw [hstk, List.append_cons] at hnodup
  obtain ⟨hpiece, -, hapart⟩ := List.nodup_append.mp hnodup
  exact ⟨hpiece, fun x hx hb ↦ hapart x hx x hb rfl⟩

/-- No edge leaves the piece of a root but to older components: an edge to what lies below would
make `low v` smaller than the index of `v`. -/
theorem Inv.piece_closed (h : s.Inv adj) (hstk : s.stk = xs ++ v :: below)
    (hseg : Segment adj (· ∈ s.idxMap) s.idxOf s.lowOf v ni work xs below)
    (hnone : (neigh adj v)[ni]? = none) (hroot : s.lowOf v = s.idxOf v) (x y : α)
    (hx : x ∈ s.sccs.flatten ++ (xs ++ [v])) (hxy : Adj adj x y) :
    y ∈ s.sccs.flatten ++ (xs ++ [v]) := by
  rcases List.mem_append.mp hx with hx | hx
  · exact List.mem_append_left _ (h.closed x y hx hxy)
  · have hx : x ∈ xs ∨ x = v := by rwa [List.mem_append, List.mem_singleton] at hx
    obtain ⟨hvis, hb⟩ := hseg.seen_all hnone hx hxy
    rcases (h.visited_iff y).mp hvis with hy | hy
    · rw [hstk, List.append_cons, List.mem_append] at hy
      rcases hy with hy | hy
      · exact List.mem_append_right _ hy
      · exact absurd (h.idx_lt hstk hy) (not_lt.mpr (hroot ▸ hb hy))
    · exact List.mem_append_left _ hy

/-- The piece of a root is a component. -/
theorem Inv.piece_isScc (h : s.Inv adj) (hstk : s.stk = xs ++ v :: below)
    (hseg : Segment adj (· ∈ s.idxMap) s.idxOf s.lowOf v ni work xs below)
    (hnone : (neigh adj v)[ni]? = none) (hroot : s.lowOf v = s.idxOf v) :
    IsScc (Adj adj) (xs ++ [v]) := by
  have hjoined : ∀ x ∈ xs ++ [v], Mutual (Adj adj) v x := by
    intro x hx
    rcases List.mem_append.mp hx with hx | hx
    · exact hseg.joined x hx
    · rw [List.mem_singleton.mp hx]
      exact .refl v
  refine ⟨by simp, (h.piece_nodup hstk).1, fun x hx y ↦ ⟨fun hy ↦ ?_, fun hxy ↦ ?_⟩⟩
  · exact (hjoined x hx).symm.trans (hjoined y hy)
  · have hy := mem_of_reflTransGen (h.piece_closed hstk hseg hnone hroot) hxy.1
      (List.mem_append_right _ hx)
    rcases List.mem_append.mp hy with hy | hy
    · -- from an older component there would be no way back
      have hx' := mem_of_reflTransGen h.closed hxy.2 hy
      have hxs : x ∈ s.stk := by
        rw [hstk, List.append_cons]
        exact List.mem_append_left below hx
      exact absurd hx' (h.disjoint x hxs)
    · exact hy

/-- The state after a root is left. -/
theorem Inv.close_finish (h : s.Inv adj) (hstk : s.stk = xs ++ v :: below)
    (hbelow : Layout adj (· ∈ s.idxMap) s.idxOf s.lowOf work below)
    (hroot : s.lowOf v = s.idxOf v) : (s.finish v work).close v =
      { s with work, stk := below, sccs := s.sccs ++ [xs ++ [v]],
               onStack := (xs ++ [v]).foldl (fun d w ↦ d.set w false) s.onStack } := by
  have hnodup := h.stk_nodup
  rw [hstk] at hnodup
  have hv : v ∉ xs := fun hx ↦
    (List.nodup_append.mp hnodup).2.2 v hx v List.mem_cons_self rfl
  rw [h.finish_of_root hstk hbelow hroot]
  refine close_of_eq (s := { s with work }) hroot ?_
  show popTo v s.stk = _
  rw [hstk, popTo_append hv]

end Piece

/-- A root is left: its piece is a component. -/
theorem Inv.close (h : s.Inv adj) {v : α} {ni : Nat} {work : List (α × Nat)}
    (hwork : s.work = (v, ni) :: work) (hnone : (neigh adj v)[ni]? = none)
    (hroot : s.lowOf v = s.idxOf v) : ((s.finish v work).close v).Inv adj := by
  obtain ⟨xs, below, hstk, hbelow, hseg⟩ := h.exists_segment hwork
  have hmem : ∀ x, x ∈ s.stk ↔ x ∈ xs ++ [v] ∨ x ∈ below := fun x ↦ by
    rw [hstk, List.append_cons, List.mem_append]
  have hapart := (h.piece_nodup hstk).2
  have hscc := h.piece_isScc hstk hseg hnone hroot
  rw [h.close_finish hstk hbelow hroot]
  have hflat : (s.sccs ++ [xs ++ [v]]).flatten = s.sccs.flatten ++ (xs ++ [v]) := by
    rw [List.flatten_append, List.flatten_singleton]
  exact
    { layout := hbelow
      sorted := by
        have hsort := h.sorted
        rw [hstk] at hsort
        exact (List.pairwise_cons.mp (List.pairwise_append.mp hsort).2.1).2
      bound := fun x hx ↦ h.bound x ((hmem x).mpr (Or.inr hx))
      onStack_iff := by
        intro x
        show ((xs ++ [v]).foldl (fun d w ↦ d.set w false) s.onStack).getD x false = true ↔ x ∈ below
        rw [getD_foldl_set_false]
        split
        · rename_i hx
          exact ⟨fun e ↦ (by cases e), fun hb ↦ absurd hb (hapart x hx)⟩
        · rename_i hx
          rw [h.onStack_iff, hmem, or_iff_right hx]
      visited_iff := by
        intro x
        show x ∈ s.idxMap ↔ x ∈ below ∨ x ∈ (s.sccs ++ [xs ++ [v]]).flatten
        rw [hflat, List.mem_append, h.visited_iff, hmem, or_comm (a := x ∈ xs ++ [v]), or_assoc,
          or_comm (a := x ∈ xs ++ [v])]
      disjoint := by
        intro x hx
        show x ∉ (s.sccs ++ [xs ++ [v]]).flatten
        rw [hflat, List.mem_append, not_or]
        exact ⟨h.disjoint x ((hmem x).mpr (Or.inr hx)), fun hc ↦ hapart x hc hx⟩
      nodup := by
        show (s.sccs ++ [xs ++ [v]]).flatten.Nodup
        rw [hflat, List.nodup_append]
        refine ⟨h.nodup, hscc.nodup, ?_⟩
        rintro x hx y hy rfl
        exact h.disjoint x ((hmem x).mpr (Or.inl hy)) hx
      closed := by
        show ∀ x y, x ∈ (s.sccs ++ [xs ++ [v]]).flatten → Adj adj x y →
          y ∈ (s.sccs ++ [xs ++ [v]]).flatten
        rw [hflat]
        exact h.piece_closed hstk hseg hnone hroot
      isScc := by
        intro c hc
        rcases List.mem_append.mp hc with hc | hc
        · exact h.isScc c hc
        · rw [List.mem_singleton.mp hc]
          exact hscc }

theorem close_of_ne {s : TarjanState α} {v : α} (hroot : s.lowOf v ≠ s.idxOf v) : s.close v = s :=
  if_neg hroot

@[simp] theorem idxMap_finish (s : TarjanState α) (v : α) (work : List (α × Nat)) :
    (s.finish v work).idxMap = s.idxMap := by
  unfold finish
  split
  · rfl
  · split <;> rfl

@[simp] theorem idxMap_close (s : TarjanState α) (v : α) : (s.close v).idxMap = s.idxMap := by
  unfold close
  split <;> rfl

theorem mem_idxMap_examine (s : TarjanState α) (v w : α) {x : α} (hx : x ∈ s.idxMap) :
    x ∈ (s.examine v w).idxMap := by
  unfold examine
  split
  · exact Dict.mem_set.mpr (Or.inr hx)
  · split
    · split <;> exact hx
    · exact hx

/-! ## The whole search -/

/-- One turn preserves the invariant, and a visited vertex stays visited. -/
theorem Inv.turn (h : s.Inv adj) {s' : TarjanState α} (ht : turn adj s = .inr s') :
    s'.Inv adj ∧ ∀ x ∈ s.idxMap, x ∈ s'.idxMap := by
  unfold TarjanState.turn at ht
  split at ht
  · cases ht
  · rename_i v ni work hwork
    split at ht
    · rename_i w hw
      cases ht
      exact ⟨h.examine hwork hw, fun x hx ↦ mem_idxMap_examine _ v w hx⟩
    · rename_i hnone
      cases ht
      constructor
      · by_cases hroot : s.lowOf v = s.idxOf v
        · exact h.close hwork hnone hroot
        · obtain ⟨hfin, hlow⟩ := h.finish hwork hnone hroot
          have hidx : (s.finish v work).idxOf v = s.idxOf v := by
            rw [idxOf, idxMap_finish, idxOf]
          rwa [close_of_ne (by rwa [hlow, hidx])]
      · intro x hx
        rwa [idxMap_close, idxMap_finish]

/-- What holds between two searches: no frame is open. -/
structure Idle (adj : Dict α (List α)) (s : TarjanState α) : Prop where
  inv : s.Inv adj
  work_eq : s.work = []

theorem Idle.stk_eq (h : s.Idle adj) : s.stk = [] := by
  have hl := h.inv.layout
  rw [h.work_eq] at hl
  generalize s.stk = stk at hl
  cases hl
  rfl

/-- A search from `v` visits `v` and forgets no visited vertex. -/
theorem Idle.start (h : s.Idle adj) (v : α) :
    (start adj s v).Idle adj ∧ v ∈ (start adj s v).idxMap ∧
      ∀ x ∈ s.idxMap, x ∈ (start adj s v).idxMap := by
  unfold TarjanState.start
  split
  · rename_i hv
    exact ⟨h, hv, fun _ hx ↦ hx⟩
  · rename_i hv
    have hvisit : (TarjanState.visit { s with work := [] } v).Inv adj := by
      refine h.inv.visit hv ?_ fun f hf ↦ by cases hf
      rw [h.stk_eq]
      exact .nil
    refine Loop.result_of_inv
      (I := fun t : TarjanState α ↦ t.Inv adj ∧ v ∈ t.idxMap ∧ ∀ x ∈ s.idxMap, x ∈ t.idxMap)
      (Q := fun t : TarjanState α ↦ t.Idle adj ∧ v ∈ t.idxMap ∧ ∀ x ∈ s.idxMap, x ∈ t.idxMap)
      ?_ ?_ _ ?_
    · rintro t t' ⟨hinv, htv, ht⟩ hturn
      obtain ⟨hinv', hmono⟩ := hinv.turn hturn
      exact ⟨hinv', hmono v htv, fun x hx ↦ hmono x (ht x hx)⟩
    · rintro t r ⟨hinv, htv, ht⟩ hexit
      unfold TarjanState.turn at hexit
      split at hexit
      · rename_i hwork
        cases hexit
        exact ⟨⟨hinv, hwork⟩, htv, ht⟩
      · split at hexit <;> cases hexit
    · exact ⟨hvisit, Dict.mem_set.mpr (Or.inl rfl), fun x hx ↦ Dict.mem_set.mpr (Or.inr hx)⟩

theorem Idle.foldl_start (h : s.Idle adj) (vs : List α) :
    (vs.foldl (TarjanState.start adj) s).Idle adj ∧
      (∀ x ∈ vs, x ∈ (vs.foldl (TarjanState.start adj) s).idxMap) ∧
      ∀ x ∈ s.idxMap, x ∈ (vs.foldl (TarjanState.start adj) s).idxMap := by
  induction vs generalizing s with
  | nil => exact ⟨h, fun x hx ↦ absurd hx List.not_mem_nil, fun x hx ↦ hx⟩
  | cons v vs ih =>
      obtain ⟨hidle, hv, hmono⟩ := h.start v
      obtain ⟨hidle', hvs, hmono'⟩ := ih hidle
      refine ⟨hidle', fun x hx ↦ ?_, fun x hx ↦ hmono' x (hmono x hx)⟩
      rcases List.mem_cons.mp hx with rfl | hx
      · exact hmono' x hv
      · exact hvs x hx

/-! ### No vertex comes from outside the keys -/

theorem mem_of_mem_neigh {v w : α} (h : w ∈ neigh adj v) : v ∈ adj := by
  unfold neigh Dict.getD at h
  cases hv : adj.get? v with
  | none =>
      rw [hv] at h
      exact absurd h List.not_mem_nil
  | some ws => exact Dict.mem_of_get? hv

/-- Every vertex visited so far is a key. -/
def Within (adj : Dict α (List α)) (s : TarjanState α) : Prop := ∀ x ∈ s.idxMap, x ∈ adj

theorem Within.visit {s : TarjanState α} (h : s.Within adj) {w : α} (hw : w ∈ adj) :
    (s.visit w).Within adj := by
  intro x hx
  rcases Dict.mem_set.mp hx with rfl | hx
  · exact hw
  · exact h x hx

theorem Within.turn {s s' : TarjanState α} (h : s.Within adj)
    (hkeys : ∀ v ∈ adj, ∀ w ∈ neigh adj v, w ∈ adj) (ht : turn adj s = .inr s') :
    s'.Within adj := by
  unfold TarjanState.turn at ht
  split at ht
  · cases ht
  · rename_i v ni work hwork
    split at ht
    · rename_i w hw
      cases ht
      have hmem : w ∈ neigh adj v := List.mem_of_getElem? hw
      have hadj : w ∈ adj := hkeys v (mem_of_mem_neigh hmem) w hmem
      unfold TarjanState.examine
      split
      · exact Within.visit (s := { s with work := (v, ni + 1) :: work }) h hadj
      · split
        · split
          · exact h
          · exact h
        · exact h
    · cases ht
      intro x hx
      rw [idxMap_close, idxMap_finish] at hx
      exact h x hx

theorem Within.start {s : TarjanState α} (h : s.Within adj)
    (hkeys : ∀ v ∈ adj, ∀ w ∈ neigh adj v, w ∈ adj) {v : α} (hv : v ∈ adj) :
    (TarjanState.start adj s v).Within adj := by
  unfold TarjanState.start
  split
  · exact h
  · refine Loop.result_of_inv (I := Within adj) (Q := Within adj) ?_ ?_ _ ?_
    · intro t t' ht hturn
      exact ht.turn hkeys hturn
    · intro t r ht hexit
      unfold TarjanState.turn at hexit
      split at hexit
      · cases hexit
        exact ht
      · split at hexit <;> cases hexit
    · exact Within.visit (s := { s with work := [] }) h hv

theorem Within.foldl_start {s : TarjanState α} (h : s.Within adj)
    (hkeys : ∀ v ∈ adj, ∀ w ∈ neigh adj v, w ∈ adj) {vs : List α} (hvs : ∀ v ∈ vs, v ∈ adj) :
    (vs.foldl (TarjanState.start adj) s).Within adj := by
  induction vs generalizing s with
  | nil => exact h
  | cons v vs ih =>
      obtain ⟨hv, hvs⟩ := List.forall_mem_cons.mp hvs
      exact ih (h.start hkeys hv) hvs

end TarjanState

section Result

variable (adj : Dict α (List α))

theorem tarjanScc_inv : ∃ s : TarjanState α, s.Idle adj ∧ tarjanScc adj = s.sccs ∧
    ∀ x ∈ adj, x ∈ s.idxMap := by
  obtain ⟨hidle, hkeys, -⟩ :=
    TarjanState.Idle.foldl_start (s := {}) ⟨TarjanState.inv_init adj, rfl⟩ adj.keys
  exact ⟨_, hidle, rfl, hkeys⟩

/-- Every list returned by `tarjanScc` is a strongly connected component. -/
theorem tarjanScc_isScc {c : List α} (hc : c ∈ tarjanScc adj) : IsScc (Adj adj) c := by
  obtain ⟨s, hs, he, -⟩ := tarjanScc_inv adj
  exact hs.inv.isScc c (he ▸ hc)

/-- No vertex is listed twice. -/
theorem tarjanScc_nodup : (tarjanScc adj).flatten.Nodup := by
  obtain ⟨s, hs, he, -⟩ := tarjanScc_inv adj
  exact he ▸ hs.inv.nodup

/-- Every key is in a component. -/
theorem exists_mem_tarjanScc {x : α} (hx : x ∈ adj) : ∃ c ∈ tarjanScc adj, x ∈ c := by
  obtain ⟨s, hs, he, hkeys⟩ := tarjanScc_inv adj
  rcases (hs.inv.visited_iff x).mp (hkeys x hx) with h | h
  · rw [hs.stk_eq] at h
    cases h
  · rw [he]
    exact List.mem_flatten.mp h

/-- If every neighbour is a key, then the vertices of the components are the keys. -/
theorem mem_flatten_tarjanScc (hkeys : ∀ v ∈ adj, ∀ w ∈ neigh adj v, w ∈ adj) {x : α} :
    x ∈ (tarjanScc adj).flatten ↔ x ∈ adj := by
  constructor
  · intro hx
    have hidle := (TarjanState.Idle.foldl_start (s := {})
      ⟨TarjanState.inv_init adj, rfl⟩ adj.keys).1
    have hwithin := TarjanState.Within.foldl_start (s := {})
      (fun y hy ↦ absurd hy (Dict.notMem_empty y)) hkeys fun v (hv : v ∈ adj.keys) ↦ hv
    exact hwithin x ((hidle.inv.visited_iff x).mpr (Or.inr hx))
  · intro hx
    obtain ⟨c, hc, hxc⟩ := exists_mem_tarjanScc adj hx
    exact List.mem_flatten.mpr ⟨c, hc, hxc⟩

/-- Two vertices of the components share one exactly when each reaches the other. -/
theorem exists_tarjanScc_iff {x y : α} (hx : x ∈ (tarjanScc adj).flatten) :
    (∃ c ∈ tarjanScc adj, x ∈ c ∧ y ∈ c) ↔ Mutual (Adj adj) x y := by
  constructor
  · rintro ⟨c, hc, hxc, hyc⟩
    exact ((tarjanScc_isScc adj hc).mem_iff x hxc y).mp hyc
  · intro h
    obtain ⟨c, hc, hxc⟩ := List.mem_flatten.mp hx
    exact ⟨c, hc, hxc, ((tarjanScc_isScc adj hc).mem_iff x hxc y).mpr h⟩

/-- **The components are a partition.**  On an adjacency map in which every neighbour is a key,
the inner loop ends from every state it can be entered in, and the lists returned partition the
keys into the classes of mutual reachability. -/
theorem tarjanScc_partition (hkeys : ∀ v ∈ adj, ∀ w ∈ neigh adj v, w ∈ adj) :
    (∀ s, ∃ n, (Loop.run (TarjanState.turn adj) n s).isSome) ∧
      (∀ c ∈ tarjanScc adj, c ≠ []) ∧
      (∀ x, x ∈ (tarjanScc adj).flatten ↔ x ∈ adj) ∧
      (tarjanScc adj).flatten.Nodup ∧
      ∀ x ∈ adj, ∀ y ∈ adj, (∃ c ∈ tarjanScc adj, x ∈ c ∧ y ∈ c) ↔
        Relation.ReflTransGen (Adj adj) x y ∧ Relation.ReflTransGen (Adj adj) y x := by
  refine ⟨fun s ↦ ?_, fun c hc ↦ (tarjanScc_isScc adj hc).ne_nil,
    fun x ↦ mem_flatten_tarjanScc adj hkeys, tarjanScc_nodup adj, fun x hx y _ ↦ ?_⟩
  · exact ⟨_, Loop.isSome_run (TarjanState.pending adj) (fun _ _ ↦ TarjanState.pending_turn)
      (Nat.lt_succ_self _)⟩
  · exact exists_tarjanScc_iff adj ((mem_flatten_tarjanScc adj hkeys).mpr hx)

/-- Two vertices that reach each other, and a third that they lead to. -/
def exampleAdj : Dict Nat (List Nat) :=
  ((Dict.empty.set 1 [2, 3]).set 2 [1]).set 3 []

/-- `tarjanScc_partition` on two vertices that reach each other and a third. -/
theorem tarjanScc_partition_example :
    tarjanScc exampleAdj = [[3], [2, 1]] ∧ (tarjanScc exampleAdj).flatten.Nodup ∧
      ((∃ c ∈ tarjanScc exampleAdj, 1 ∈ c ∧ 2 ∈ c) ↔
        Relation.ReflTransGen (Adj exampleAdj) 1 2 ∧ Relation.ReflTransGen (Adj exampleAdj) 2 1) := by
  have hkeys : ∀ v ∈ exampleAdj, ∀ w ∈ neigh exampleAdj v, w ∈ exampleAdj := by
    intro v hv
    have h : v ∈ [1, 2, 3] := hv
    revert v
    decide
  obtain ⟨-, -, -, hnodup, hiff⟩ := tarjanScc_partition exampleAdj hkeys
  exact ⟨by decide, hnodup, hiff 1 (by decide) 2 (by decide)⟩

end Result

end DeadLockDetect.Analyzer
