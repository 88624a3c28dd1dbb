import DeadLockDetect.Analyzer.Locality

/-!
# How often a lock is held

`holdCountOf` reads the number of holds of a lock lifetime off a stack.  To acquire the lock adds
one and to release it takes one away, whether its node comes, stays or goes.
-/

namespace DeadLockDetect.Analyzer

/-- How often the stack says that a lock is held. -/
def holdCountOf (lid : LockId) : List LockNode → Nat
  | [] => 0
  | n :: stk => if n.id = lid then n.holdCount else holdCountOf lid stk

theorem holdCountOf_eq_zero {lid : LockId} {stk : List LockNode}
    (h : lid ∉ stk.map LockNode.id) : holdCountOf lid stk = 0 := by
  induction stk with
  | nil => rfl
  | cons n stk ih =>
      rw [List.map_cons, List.mem_cons, not_or] at h
      rw [holdCountOf, if_neg (Ne.symm h.1), ih h.2]

theorem holdCountOf_of_mem {stk : List LockNode} (hnodup : (stk.map LockNode.id).Nodup)
    {n : LockNode} (h : n ∈ stk) : holdCountOf n.id stk = n.holdCount := by
  induction stk with
  | nil => exact absurd h List.not_mem_nil
  | cons m stk ih =>
      obtain ⟨hm, hnodup⟩ := List.nodup_cons.mp hnodup
      rw [holdCountOf]
      rcases List.mem_cons.mp h with rfl | h
      · exact if_pos rfl
      · have hne : m.id ≠ n.id := fun he ↦ hm (he ▸ List.mem_map_of_mem h)
        rw [if_neg hne, ih hnodup h]

/-- The locks in a stack are those that are held. -/
theorem mem_map_id_iff {lid : LockId} {stk : List LockNode} (hcount : Counted stk) :
    lid ∈ stk.map LockNode.id ↔ 0 < holdCountOf lid stk := by
  induction stk with
  | nil => exact ⟨fun h ↦ absurd h List.not_mem_nil, fun h ↦ absurd h (Nat.lt_irrefl 0)⟩
  | cons n stk ih =>
      obtain ⟨hn, hcount⟩ := List.forall_mem_cons.mp hcount
      rw [List.map_cons, List.mem_cons, holdCountOf]
      by_cases he : n.id = lid
      · rw [if_pos he]
        exact ⟨fun _ ↦ hn, fun _ ↦ Or.inl he.symm⟩
      · rw [if_neg he, ← ih hcount]
        exact or_iff_right (Ne.symm he)

/-- Entering a lock again adds a hold. -/
theorem holdCountOf_reenter {lid : LockId} {stk : List LockNode} (h : lid ∈ stk.map LockNode.id)
    (x : LockId) :
    holdCountOf x (reenter lid stk) = holdCountOf x stk + if x = lid then 1 else 0 := by
  induction stk with
  | nil => exact absurd h List.not_mem_nil
  | cons n stk ih =>
      rw [reenter]
      by_cases hn : n.id = lid
      · rw [if_pos hn, holdCountOf, holdCountOf, ← hn]
        by_cases hx : n.id = x
        · rw [if_pos hx, if_pos hx, if_pos hx.symm]
        · rw [if_neg hx, if_neg hx, if_neg (Ne.symm hx)]
          rfl
      · have hmem := (List.mem_cons.mp h).resolve_left (Ne.symm hn)
        rw [if_neg hn, holdCountOf, holdCountOf, ih hmem]
        by_cases hx : n.id = x
        · rw [if_pos hx, if_pos hx, if_neg fun he ↦ hn (hx.trans he)]
          rfl
        · rw [if_neg hx, if_neg hx]

theorem holdCountOf_concat (stk : List LockNode) {n : LockNode} (h : n.id ∉ stk.map LockNode.id)
    (x : LockId) :
    holdCountOf x (stk ++ [n]) = holdCountOf x stk + if x = n.id then n.holdCount else 0 := by
  induction stk with
  | nil =>
      rw [List.nil_append, holdCountOf, holdCountOf, Nat.zero_add]
      simp only [eq_comm]
      rfl
  | cons m stk ih =>
      rw [List.map_cons, List.mem_cons, not_or] at h
      rw [List.cons_append, holdCountOf, holdCountOf, ih h.2]
      by_cases hx : m.id = x
      · rw [if_pos hx, if_pos hx, if_neg fun he ↦ h.1 (hx.trans he).symm]
        rfl
      · rw [if_neg hx, if_neg hx]

namespace Graph

/-- An acquisition adds a hold. -/
theorem holdCountOf_pushed (stk : List LockNode) (lid : LockId) (k : LockKind) (tid : Int)
    (bt : Bt) (x : LockId) :
    holdCountOf x (pushed stk lid k tid bt) = holdCountOf x stk + if x = lid then 1 else 0 := by
  unfold pushed
  split
  · rename_i h
    exact holdCountOf_reenter h x
  · rename_i h
    exact holdCountOf_concat stk h x

/-- A release takes a hold away. -/
theorem holdCountOf_popped {stk : List LockNode} (hnodup : (stk.map LockNode.id).Nodup)
    (hcount : Counted stk) (lid x : LockId) :
    holdCountOf x (popped stk lid) = holdCountOf x stk - if x = lid then 1 else 0 := by
  induction stk with
  | nil => exact (Nat.zero_sub _).symm
  | cons n stk ih =>
      obtain ⟨hn, hnodup⟩ := List.nodup_cons.mp hnodup
      obtain ⟨hpos, hcount⟩ := List.forall_mem_cons.mp hcount
      rw [popped_cons hn, holdCountOf]
      by_cases hid : n.id = lid
      · subst hid
        rw [if_pos rfl]
        by_cases hx : n.id = x
        · subst hx
          rw [if_pos rfl, if_pos rfl]
          split
          · rw [holdCountOf, if_pos rfl]
          · rw [holdCountOf_eq_zero hn]
            omega
        · rw [if_neg hx, if_neg (Ne.symm hx), Nat.sub_zero]
          split
          · rw [holdCountOf, if_neg hx]
          · rfl
      · rw [if_neg hid, holdCountOf, ih hnodup hcount]
        by_cases hx : n.id = x
        · rw [if_pos hx, if_pos hx, if_neg fun he ↦ hid (hx.trans he), Nat.sub_zero]
        · rw [if_neg hx, if_neg hx]

/-- How often the replay says that a thread holds a lock. -/
def holds (g : Graph) (tid : Int) (lid : LockId) : Nat := holdCountOf lid (g.stack tid)

theorem holds_of_stack {g g' : Graph} {tid : Int} (h : g'.stack tid = g.stack tid) (lid : LockId) :
    g'.holds tid lid = g.holds tid lid := by
  rw [holds, h, holds]

theorem Inv.mem_heldIds_iff {g : Graph} (h : g.Inv) {tid : Int} {lid : LockId} :
    lid ∈ g.heldIds tid ↔ 0 < g.holds tid lid :=
  mem_map_id_iff (h.heldCount tid)

theorem holds_onAcquire (g : Graph) (addr : Int) (k : LockKind) (tid : Int) (bt : Bt) (t : Int)
    (lid : LockId) :
    (g.onAcquire addr k tid bt).holds t lid =
      g.holds t lid + if t = tid ∧ lid = g.lockAt addr then 1 else 0 := by
  rw [holds, stack_onAcquire]
  by_cases ht : t = tid
  · rw [if_pos ht, holdCountOf_pushed, ht]
    simp only [true_and, holds]
  · rw [if_neg ht, if_neg fun h ↦ ht h.1]
    rfl

theorem Inv.holds_onUnlock {g : Graph} (h : g.Inv) (addr tid t : Int) (lid : LockId) :
    (g.onUnlock addr tid).holds t lid =
      g.holds t lid - if t = tid ∧ lid = g.lockAt addr then 1 else 0 := by
  by_cases ht : t = tid
  · subst ht
    rw [holds, stack_onUnlock_self h, holdCountOf_popped (h.heldNodup t) (h.heldCount t)]
    simp only [true_and, holds]
  · rw [if_neg fun h ↦ ht h.1, Nat.sub_zero]
    exact holds_of_stack (g.stack_act_of_ne (.unlock addr) ht []) lid

/-- Only an initialisation changes the lock lifetime at an address. -/
theorem lockAt_act (g : Graph) {a : Action} {b : Int} (h : ¬ a.InitsAt b) (tid : Int) (bt : Bt) :
    (g.act a tid bt).lockAt b = g.lockAt b := by
  rw [lockAt, lockAt, Dict.getD, get?_addrGen_act, if_neg h]
  split <;> rfl

/-- The lock lifetime that an initialisation begins is held by no thread. -/
theorem Inv.holds_onInit {g : Graph} (h : g.Inv) (k : EvKind) (addr : Int) (recursive : Bool)
    (tid : Int) (bt : Bt) (t : Int) :
    (g.onInit k addr recursive tid bt).holds t
      ((g.onInit k addr recursive tid bt).lockAt addr) = 0 := by
  have hlock : (g.onInit k addr recursive tid bt).lockAt addr =
      ⟨addr, g.addrGen.getD addr 0 + 1⟩ := by
    rw [lockAt, Graph.onInit, Dict.getD_set, if_pos rfl]
  refine holdCountOf_eq_zero fun hmem ↦ ?_
  obtain ⟨gen, hgen, -, hle⟩ := h.metaKnown _ (h.heldMeta t _ (hlock ▸ hmem))
  simp only [Dict.getD, hgen, Option.getD_some] at hle
  omega

end Graph

end DeadLockDetect.Analyzer
