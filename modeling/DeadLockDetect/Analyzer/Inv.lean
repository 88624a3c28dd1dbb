import DeadLockDetect.Analyzer.Step

/-!
# The representation invariant of the graph

`Graph.Inv` is what every operation preserves, on any event list, well bracketed or
not: a thread holds a lock lifetime at most once, with a positive count; every lock
lifetime in a stack or in an edge has metadata; every lock lifetime with metadata has
a generation between `1` and the current one of its address; no edge is a loop.

`Inv.replay` carries it through a replay.  The operations are treated through the
three views of a lock lifetime: known to `addrGen`, present in `lockMeta`, held.
-/

namespace DeadLockDetect.Analyzer

/-! ## Acquiring and releasing on a stack -/

theorem map_id_reenter (lid : LockId) (stk : List LockNode) :
    (reenter lid stk).map LockNode.id = stk.map LockNode.id := by
  induction stk with
  | nil => rfl
  | cons n stk ih =>
      rw [reenter]
      split
      · rfl
      · rw [List.map_cons, ih, List.map_cons]

theorem map_id_release_sublist {lid : LockId} {stk stk' : List LockNode}
    (h : release lid stk = some stk') :
    (stk'.map LockNode.id).Sublist (stk.map LockNode.id) := by
  induction stk generalizing stk' with
  | nil => cases h
  | cons n stk ih =>
      rw [release] at h
      split at h
      · rename_i r hr
        cases h
        exact (ih hr).cons_cons _
      · split at h
        · split at h <;> cases h
          · exact List.Sublist.refl _
          · exact List.sublist_cons_self _ _
        · cases h

namespace Graph

theorem map_id_pushed (stk : List LockNode) (lid : LockId) (k : LockKind) (tid : Int) (bt : Bt) :
    (pushed stk lid k tid bt).map LockNode.id =
      if lid ∈ stk.map LockNode.id then stk.map LockNode.id
      else stk.map LockNode.id ++ [lid] := by
  unfold pushed
  split
  · exact map_id_reenter lid stk
  · rw [List.map_append]
    rfl

theorem map_id_popped_sublist (stk : List LockNode) (lid : LockId) :
    ((popped stk lid).map LockNode.id).Sublist (stk.map LockNode.id) := by
  unfold popped
  cases h : release lid stk with
  | none => exact List.Sublist.refl _
  | some stk' => exact map_id_release_sublist h

end Graph

/-- Every node of the stack is held at least once. -/
def Counted (stk : List LockNode) : Prop := ∀ n ∈ stk, 1 ≤ n.holdCount

theorem Counted.reenter {lid : LockId} {stk : List LockNode} (h : Counted stk) :
    Counted (reenter lid stk) := by
  induction stk with
  | nil => exact h
  | cons n stk ih =>
      obtain ⟨hn, hs⟩ := List.forall_mem_cons.mp h
      rw [Analyzer.reenter]
      split
      · exact List.forall_mem_cons.mpr ⟨Nat.le_add_left 1 _, hs⟩
      · exact List.forall_mem_cons.mpr ⟨hn, ih hs⟩

theorem Counted.release {lid : LockId} {stk stk' : List LockNode} (h : Counted stk)
    (hr : Analyzer.release lid stk = some stk') : Counted stk' := by
  induction stk generalizing stk' with
  | nil => cases hr
  | cons n stk ih =>
      obtain ⟨hn, hs⟩ := List.forall_mem_cons.mp h
      rw [Analyzer.release] at hr
      split at hr
      · rename_i r hr'
        cases hr
        exact List.forall_mem_cons.mpr ⟨hn, ih hs hr'⟩
      · split at hr
        · split at hr <;> cases hr
          · rename_i hc
            exact List.forall_mem_cons.mpr ⟨by dsimp only; omega, hs⟩
          · exact hs
        · cases hr

theorem Counted.pushed {stk : List LockNode} (h : Counted stk) (lid : LockId) (k : LockKind)
    (tid : Int) (bt : Bt) : Counted (Graph.pushed stk lid k tid bt) := by
  unfold Graph.pushed
  split
  · exact h.reenter
  · exact List.forall_mem_append.mpr ⟨h, by simp⟩

theorem Counted.popped {stk : List LockNode} (h : Counted stk) (lid : LockId) :
    Counted (Graph.popped stk lid) := by
  unfold Graph.popped
  cases hr : Analyzer.release lid stk with
  | none => exact h
  | some stk' => exact h.release hr

namespace Graph

/-! ## Known lock lifetimes -/

/-- The generation of `x` is between `1` and the current one of its address. -/
def Known (g : Graph) (x : LockId) : Prop :=
  ∃ gen, g.addrGen.get? x.addr = some gen ∧ 1 ≤ x.gen ∧ x.gen ≤ gen

/-- Generations never go down. -/
def GenLe (g g' : Graph) : Prop :=
  ∀ addr gen, g.addrGen.get? addr = some gen → ∃ gen', g'.addrGen.get? addr = some gen' ∧ gen ≤ gen'

theorem Known.mono {g g' : Graph} (hle : GenLe g g') {x : LockId} (h : g.Known x) : g'.Known x := by
  obtain ⟨gen, hg, h1, h2⟩ := h
  obtain ⟨gen', hg', hgg⟩ := hle x.addr gen hg
  exact ⟨gen', hg', h1, le_trans h2 hgg⟩

theorem genLe_of_get? {g g' : Graph} {addr : Int}
    (h : ∀ b, g'.addrGen.get? b =
      if b = addr then some (g.addrGen.getD addr 1) else g.addrGen.get? b) : GenLe g g' := by
  intro b gen hb
  rw [h b]
  split
  · rename_i hba
    subst hba
    exact ⟨_, rfl, by rw [Dict.getD, hb]; exact le_refl gen⟩
  · exact ⟨gen, hb, le_refl gen⟩

/-! ## Metadata -/

/-- The metadata given to a lock lifetime that is first seen in a request. -/
def requestMeta (lid : LockId) (k : LockKind) (tid : Int) : LockMeta :=
  { kind := k, recursive := false, gen := lid.gen, alive := true, initTid := tid }

theorem register_lockMeta (g : Graph) (addr : Int) (k : LockKind) (tid : Int) :
    (g.register addr k tid).1.lockMeta =
      if g.lockAt addr ∈ g.lockMeta then g.lockMeta
      else g.lockMeta.set (g.lockAt addr) (requestMeta (g.lockAt addr) k tid) := by
  unfold register ensureGen lockAt Dict.getD
  cases g.addrGen.get? addr <;> (dsimp only [Option.getD]; split <;> rfl)

theorem mem_lockMeta_register (g : Graph) (addr : Int) (k : LockKind) (tid : Int) (x : LockId) :
    x ∈ (g.register addr k tid).1.lockMeta ↔ x = g.lockAt addr ∨ x ∈ g.lockMeta := by
  rw [register_lockMeta]
  split
  · rename_i hmem
    exact ⟨Or.inr, fun h ↦ h.elim (fun e ↦ e ▸ hmem) id⟩
  · exact Dict.mem_set

theorem mem_lockMeta_onAcquire (g : Graph) (addr : Int) (k : LockKind) (tid : Int) (bt : Bt)
    (x : LockId) : x ∈ (g.onAcquire addr k tid bt).lockMeta ↔
      x = g.lockAt addr ∨ x ∈ g.lockMeta := by
  rw [← mem_lockMeta_register g addr k tid x]
  unfold onAcquire
  dsimp only
  split <;> rfl

@[simp] theorem onUnlock_lockMeta (g : Graph) (addr tid : Int) :
    (g.onUnlock addr tid).lockMeta = g.lockMeta := by
  unfold onUnlock
  split
  · rfl
  · split <;> rfl

@[simp] theorem mem_lockMeta_onDestroy (g : Graph) (addr : Int) (x : LockId) :
    x ∈ (g.onDestroy addr).lockMeta ↔ x ∈ g.lockMeta := by
  unfold onDestroy
  split
  · rfl
  · dsimp only
    split
    · rename_i m hm
      rw [Dict.mem_set]
      exact ⟨fun h ↦ h.elim (fun e ↦ e ▸ Dict.mem_of_get? hm) id, Or.inr⟩
    · rfl

/-! ## The invariant -/

/-- The representation invariant of the graph. -/
structure Inv (g : Graph) : Prop where
  /-- Generations are counted from `1`. -/
  genPos : ∀ addr gen, g.addrGen.get? addr = some gen → 1 ≤ gen
  /-- A thread's stack lists a lock lifetime at most once. -/
  heldNodup : ∀ t, (g.heldIds t).Nodup
  /-- A lock lifetime in a stack is held at least once. -/
  heldCount : ∀ t, Counted (g.stack t)
  /-- A held lock lifetime has metadata. -/
  heldMeta : ∀ t, ∀ x ∈ g.heldIds t, x ∈ g.lockMeta
  /-- The ends of an edge have metadata. -/
  edgeMeta : ∀ key ∈ g.edges, key.frm ∈ g.lockMeta ∧ key.to ∈ g.lockMeta
  /-- A lock lifetime with metadata is known. -/
  metaKnown : ∀ x ∈ g.lockMeta, g.Known x
  /-- No edge is a loop. -/
  loopless : ∀ key ∈ g.edges, key.frm ≠ key.to

theorem inv_empty : Inv {} where
  genPos _ _ h := by cases h
  heldNodup _ := List.nodup_nil
  heldCount _ _ h := absurd h List.not_mem_nil
  heldMeta _ _ h := absurd h List.not_mem_nil
  edgeMeta _ h := absurd h (Dict.notMem_empty _)
  metaKnown _ h := absurd h (Dict.notMem_empty _)
  loopless _ h := absurd h (Dict.notMem_empty _)

theorem Inv.one_le_getD {g : Graph} (h : g.Inv) (addr : Int) : 1 ≤ g.addrGen.getD addr 1 := by
  rw [Dict.getD]
  cases hg : g.addrGen.get? addr with
  | none => exact le_refl 1
  | some gen => exact h.genPos addr gen hg

theorem mem_of_newInfo {stk : List LockNode} {lid : LockId} {k : LockKind} {tid : Int} {bt : Bt}
    {key : EdgeKey} (h : newInfo stk lid k tid bt key ≠ none) :
    key.to = lid ∧ key.frm ≠ lid ∧ key.frm ∈ stk.map LockNode.id := by
  unfold newInfo at h
  split at h
  · rename_i hk
    refine ⟨hk.1, hk.2, ?_⟩
    rw [ne_eq, Option.map_eq_none_iff, List.find?_eq_none] at h
    push Not at h
    obtain ⟨n, hn, he⟩ := h
    exact List.mem_map.mpr ⟨n, hn, by simpa using he⟩
  · exact absurd rfl h

theorem mem_of_get?_or {edges edges' : Dict EdgeKey EdgeInfo} {key : EdgeKey}
    {new : Option EdgeInfo} (h : edges'.get? key = (edges.get? key).or new) (hmem : key ∈ edges') :
    key ∈ edges ∨ new ≠ none := by
  rw [← Dict.get?_isSome_iff, h, Option.isSome_or, Bool.or_eq_true] at hmem
  exact hmem.imp Dict.get?_isSome_iff.mp fun hn e ↦ by rw [e] at hn; cases hn

/-- What all requests have in common: generations and metadata change only at the
requested lock, and the edges grow by edges from held locks to it. -/
theorem Inv.request {g g' : Graph} (h : g.Inv) (addr : Int) (k : LockKind) (tid : Int) (bt : Bt)
    (hgen : ∀ b, g'.addrGen.get? b =
      if b = addr then some (g.addrGen.getD addr 1) else g.addrGen.get? b)
    (hmeta : ∀ x, x ∈ g'.lockMeta ↔ x = g.lockAt addr ∨ x ∈ g.lockMeta)
    (hedge : ∀ key, key ∈ g'.edges → key ∈ g.edges ∨
      newInfo (g.stack tid) (g.lockAt addr) k tid bt key ≠ none)
    (hnodup : ∀ t, (g'.heldIds t).Nodup) (hcount : ∀ t, Counted (g'.stack t))
    (hheld : ∀ t, ∀ x ∈ g'.heldIds t, x = g.lockAt addr ∨ x ∈ g.heldIds t) : g'.Inv where
  genPos b gen hb := by
    rw [hgen] at hb
    split at hb
    · exact Option.some.inj hb ▸ h.one_le_getD addr
    · exact h.genPos b gen hb
  heldNodup := hnodup
  heldCount := hcount
  heldMeta t x hx := (hmeta x).mpr ((hheld t x hx).imp_right (h.heldMeta t x))
  edgeMeta key hkey := by
    rcases hedge key hkey with hk | hk
    · obtain ⟨h₁, h₂⟩ := h.edgeMeta key hk
      exact ⟨(hmeta _).mpr (Or.inr h₁), (hmeta _).mpr (Or.inr h₂)⟩
    · obtain ⟨hto, -, hfrm⟩ := mem_of_newInfo hk
      exact ⟨(hmeta _).mpr (Or.inr (h.heldMeta tid _ hfrm)), (hmeta _).mpr (Or.inl hto)⟩
  metaKnown x hx := by
    rcases (hmeta x).mp hx with rfl | hx
    · exact ⟨g.addrGen.getD addr 1, by rw [hgen]; exact if_pos rfl, h.one_le_getD addr, le_refl _⟩
    · exact (h.metaKnown x hx).mono (genLe_of_get? hgen)
  loopless key hkey := by
    rcases hedge key hkey with hk | hk
    · exact h.loopless key hk
    · obtain ⟨hto, hne, -⟩ := mem_of_newInfo hk
      exact fun e ↦ hne (e.trans hto)

theorem heldIds_of_stack {g g' : Graph} {t : Int} (h : g'.stack t = g.stack t) :
    g'.heldIds t = g.heldIds t := by
  rw [heldIds, h, heldIds]

theorem Inv.onAcquire {g : Graph} (h : g.Inv) (addr : Int) (k : LockKind) (tid : Int) (bt : Bt) :
    (g.onAcquire addr k tid bt).Inv := by
  have hids : ∀ t, (g.onAcquire addr k tid bt).heldIds t =
      if t = tid then
        if g.lockAt addr ∈ g.heldIds tid then g.heldIds tid else g.heldIds tid ++ [g.lockAt addr]
      else g.heldIds t := by
    intro t
    rw [heldIds, stack_onAcquire]
    split
    · exact map_id_pushed _ _ _ _ _
    · rfl
  refine h.request addr k tid bt (get?_addrGen_onAcquire g addr k tid bt)
    (mem_lockMeta_onAcquire g addr k tid bt) ?_ ?_ ?_ ?_
  · intro key hkey
    refine (mem_of_get?_or (get?_edges_onAcquire g addr k tid bt key) hkey).imp_right ?_
    unfold acquireInfo
    split
    · exact fun hn ↦ absurd rfl hn
    · exact id
  · intro t
    rw [hids]
    split_ifs with ht hm
    · exact h.heldNodup tid
    · exact List.nodup_append.mpr ⟨h.heldNodup tid, by simp, by
        rintro a ha b hb rfl
        exact hm (List.mem_singleton.mp hb ▸ ha)⟩
    · exact h.heldNodup t
  · intro t
    rw [stack_onAcquire]
    split
    · exact (h.heldCount tid).pushed _ _ _ _
    · exact h.heldCount t
  · intro t x hx
    rw [hids] at hx
    split_ifs at hx with ht hm
    · exact Or.inr (ht ▸ hx)
    · rcases List.mem_append.mp hx with hx | hx
      · exact Or.inr (ht ▸ hx)
      · exact Or.inl (List.mem_singleton.mp hx)
    · exact Or.inr hx

theorem Inv.onAcquireAttempt {g : Graph} (h : g.Inv) (addr : Int) (k : LockKind) (tid : Int)
    (bt : Bt) : (g.onAcquireAttempt addr k tid bt).Inv := by
  have hids : ∀ t, (g.onAcquireAttempt addr k tid bt).heldIds t = g.heldIds t := fun t ↦
    heldIds_of_stack (stack_onAcquireAttempt g addr k tid bt t)
  refine h.request addr k tid bt (get?_addrGen_onAcquireAttempt g addr k tid bt)
    (mem_lockMeta_register g addr k tid) ?_ ?_ ?_ ?_
  · exact fun key hkey ↦ mem_of_get?_or (get?_edges_onAcquireAttempt g addr k tid bt key) hkey
  · exact fun t ↦ hids t ▸ h.heldNodup t
  · exact fun t ↦ (stack_onAcquireAttempt g addr k tid bt t).symm ▸ h.heldCount t
  · exact fun t x hx ↦ Or.inr (hids t ▸ hx)

theorem Inv.onUnlock {g : Graph} (h : g.Inv) (addr tid : Int) : (g.onUnlock addr tid).Inv := by
  cases hg : g.addrGen.get? addr with
  | none => rwa [onUnlock_of_get?_none hg]
  | some gen =>
      have hsub : ∀ t, ((g.onUnlock addr tid).heldIds t).Sublist (g.heldIds t) := by
        intro t
        rw [heldIds, stack_onUnlock_of_get? hg]
        split
        · rename_i ht
          exact ht ▸ map_id_popped_sublist _ _
        · exact List.Sublist.refl _
      have hknown : ∀ x, g.Known x → (g.onUnlock addr tid).Known x := fun x ⟨gen, hx⟩ ↦
        ⟨gen, by rwa [onUnlock_addrGen]⟩
      exact
        { genPos := by rw [onUnlock_addrGen]; exact h.genPos
          heldNodup := fun t ↦ (h.heldNodup t).sublist (hsub t)
          heldCount := by
            intro t
            rw [stack_onUnlock_of_get? hg]
            split
            · exact (h.heldCount tid).popped _
            · exact h.heldCount t
          heldMeta := fun t x hx ↦ by
            rw [onUnlock_lockMeta]
            exact h.heldMeta t x ((hsub t).subset hx)
          edgeMeta := by
            rw [onUnlock_edges, onUnlock_lockMeta]
            exact h.edgeMeta
          metaKnown := fun x hx ↦ hknown x (h.metaKnown x (by rwa [onUnlock_lockMeta] at hx))
          loopless := by rw [onUnlock_edges]; exact h.loopless }

theorem Inv.onInit {g : Graph} (h : g.Inv) (k : EvKind) (addr : Int) (recursive : Bool)
    (tid : Int) (bt : Bt) : (g.onInit k addr recursive tid bt).Inv := by
  have hgen : ∀ b, (g.onInit k addr recursive tid bt).addrGen.get? b =
      if b = addr then some (g.addrGen.getD addr 0 + 1) else g.addrGen.get? b :=
    fun b ↦ g.addrGen.get?_set addr _ b
  have hmeta : ∀ x, x ∈ (g.onInit k addr recursive tid bt).lockMeta ↔
      x = ⟨addr, g.addrGen.getD addr 0 + 1⟩ ∨ x ∈ g.lockMeta := fun x ↦ Dict.mem_set
  have hle : GenLe g (g.onInit k addr recursive tid bt) := by
    intro b gen hb
    rw [hgen]
    split
    · rename_i hba
      subst hba
      exact ⟨_, rfl, by rw [Dict.getD, hb]; exact Nat.le_succ gen⟩
    · exact ⟨gen, hb, le_refl gen⟩
  exact
    { genPos := by
        intro b gen hb
        rw [hgen] at hb
        split at hb
        · exact Option.some.inj hb ▸ Nat.le_add_left 1 _
        · exact h.genPos b gen hb
      heldNodup := h.heldNodup
      heldCount := h.heldCount
      heldMeta := fun t x hx ↦ (hmeta x).mpr (Or.inr (h.heldMeta t x hx))
      edgeMeta := fun key hkey ↦
        ⟨(hmeta _).mpr (Or.inr (h.edgeMeta key hkey).1),
          (hmeta _).mpr (Or.inr (h.edgeMeta key hkey).2)⟩
      metaKnown := by
        intro x hx
        rcases (hmeta x).mp hx with rfl | hx
        · exact ⟨_, by rw [hgen]; exact if_pos rfl, Nat.le_add_left 1 _, le_refl _⟩
        · exact (h.metaKnown x hx).mono hle
      loopless := h.loopless }

theorem Inv.onDestroy {g : Graph} (h : g.Inv) (addr : Int) : (g.onDestroy addr).Inv := by
  have hids : ∀ t, (g.onDestroy addr).heldIds t = g.heldIds t := fun t ↦
    heldIds_of_stack (stack_onDestroy g addr t)
  have hedge : ∀ key, key ∈ (g.onDestroy addr).edges → key ∈ g.edges := by
    intro key hkey
    rw [← Dict.get?_isSome_iff, get?_edges_onDestroy] at hkey
    split at hkey
    · cases hkey
    · exact Dict.get?_isSome_iff.mp hkey
  exact
    { genPos := by rw [onDestroy_addrGen]; exact h.genPos
      heldNodup := fun t ↦ hids t ▸ h.heldNodup t
      heldCount := fun t ↦ (stack_onDestroy g addr t).symm ▸ h.heldCount t
      heldMeta := fun t x hx ↦ (mem_lockMeta_onDestroy g addr x).mpr (h.heldMeta t x (hids t ▸ hx))
      edgeMeta := fun key hkey ↦ by
        rw [mem_lockMeta_onDestroy, mem_lockMeta_onDestroy]
        exact h.edgeMeta key (hedge key hkey)
      metaKnown := fun x hx ↦ by
        obtain ⟨gen, hx⟩ := h.metaKnown x ((mem_lockMeta_onDestroy g addr x).mp hx)
        exact ⟨gen, by rwa [onDestroy_addrGen]⟩
      loopless := fun key hkey ↦ h.loopless key (hedge key hkey) }

theorem Inv.act {g : Graph} (h : g.Inv) (a : Action) (tid : Int) (bt : Bt) :
    (g.act a tid bt).Inv := by
  cases a with
  | skip => exact h
  | init k addr recursive => exact h.onInit k addr recursive tid bt
  | destroy addr => exact h.onDestroy addr
  | acquire addr k => exact h.onAcquire addr k tid bt
  | attempt addr k => exact h.onAcquireAttempt addr k tid bt
  | unlock addr => exact h.onUnlock addr tid
  | condPost m => exact (h.onUnlock m tid).onAcquire m .mutex tid bt

end Graph

/-- One event preserves the representation invariant. -/
theorem Graph.Inv.replayStep {g : Graph} (h : g.Inv) (e : Event) : (replayStep g e).Inv := by
  rw [replayStep_eq_act]
  exact h.act e.action e.tid e.bt

/-- A replay preserves the representation invariant. -/
theorem Graph.Inv.replay {g : Graph} (h : g.Inv) (es : List Event) : (replay es g).Inv := by
  induction es generalizing g with
  | nil => exact h
  | cons e es ih => exact ih (h.replayStep e)

end DeadLockDetect.Analyzer
