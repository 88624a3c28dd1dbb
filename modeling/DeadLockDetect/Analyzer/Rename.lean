import DeadLockDetect.Analyzer.Step

/-!
# Renaming a trace

Where objects lie in memory and which numbers the kernel hands out to threads differ from run to
run.  A `Renaming` moves the addresses, renumbers the threads and rewrites the backtraces; `replay`
does not notice: it takes a renamed trace to the renamed graph.

## What is ours

The source does not mention renamings.  `Event.Renamed` relates the events of two traces field by
field, in the terms of the record format; the rest of the module pushes a renaming through the
operations of the graph, one lemma for each.  Timestamps do not occur: nothing reads them.

Only `addr` and `tid` have to be injective.  A backtrace may be rewritten in any way that leaves
the empty one alone: the symbolizer does this, and so does a damaged trace.
-/

namespace DeadLockDetect.Analyzer

/-- New addresses, new thread ids and new backtraces. -/
structure Renaming where
  addr : Int → Int
  addr_injective : Function.Injective addr
  tid : Int → Int
  tid_injective : Function.Injective tid
  bt : Bt → Bt
  /-- A lock that was not seen to be initialised has no backtrace. -/
  bt_nil : bt [] = []

variable (ρ : Renaming)

/-! ## Renaming the data -/

/-- Rename a lock lifetime. -/
def LockId.rename (x : LockId) : LockId := ⟨ρ.addr x.addr, x.gen⟩

theorem LockId.rename_injective : Function.Injective (LockId.rename ρ) := by
  intro x y h
  obtain ⟨a, m⟩ := x
  obtain ⟨b, n⟩ := y
  have haddr : ρ.addr a = ρ.addr b := congrArg LockId.addr h
  have hgen : m = n := congrArg LockId.gen h
  rw [ρ.addr_injective haddr, hgen]

@[simp] theorem LockId.rename_inj {x y : LockId} : x.rename ρ = y.rename ρ ↔ x = y :=
  (LockId.rename_injective ρ).eq_iff

/-- Rename the metadata of a lock lifetime. -/
def LockMeta.rename (m : LockMeta) : LockMeta :=
  { m with initBt := ρ.bt m.initBt, initTid := ρ.tid m.initTid }

/-- Rename an entry of a stack of held locks. -/
def LockNode.rename (n : LockNode) : LockNode :=
  { n with id := n.id.rename ρ, acquireBt := ρ.bt n.acquireBt, acquireTid := ρ.tid n.acquireTid }

/-- Rename the ends of an edge. -/
def EdgeKey.rename (key : EdgeKey) : EdgeKey := ⟨key.frm.rename ρ, key.to.rename ρ⟩

theorem EdgeKey.rename_injective : Function.Injective (EdgeKey.rename ρ) := by
  intro x y h
  obtain ⟨a, b⟩ := x
  obtain ⟨c, d⟩ := y
  have hfrm : a.rename ρ = c.rename ρ := congrArg EdgeKey.frm h
  have hto : b.rename ρ = d.rename ρ := congrArg EdgeKey.to h
  rw [LockId.rename_injective ρ hfrm, LockId.rename_injective ρ hto]

/-- Rename the context of an edge. -/
def EdgeInfo.rename (i : EdgeInfo) : EdgeInfo :=
  { i with tid := ρ.tid i.tid, btFrom := ρ.bt i.btFrom, btTo := ρ.bt i.btTo }

/-- Rename what an event asks of the graph. -/
def Action.rename : Action → Action
  | .skip => .skip
  | .init k addr recursive => .init k (ρ.addr addr) recursive
  | .destroy addr => .destroy (ρ.addr addr)
  | .acquire addr k => .acquire (ρ.addr addr) k
  | .attempt addr k => .attempt (ρ.addr addr) k
  | .unlock addr => .unlock (ρ.addr addr)
  | .condPost m => .condPost (ρ.addr m)

/-- Rename a stack of held locks. -/
abbrev renameStack (stk : List LockNode) : List LockNode := stk.map (LockNode.rename ρ)

/-- Rename a graph. -/
def Graph.rename (g : Graph) : Graph where
  addrGen := g.addrGen.map ρ.addr_injective id
  lockMeta := g.lockMeta.map (LockId.rename_injective ρ) (LockMeta.rename ρ)
  edges := g.edges.map (EdgeKey.rename_injective ρ) (EdgeInfo.rename ρ)
  heldStacks := g.heldStacks.map ρ.tid_injective (renameStack ρ)

/-- The operation code returns from a condition wait. -/
def EvOp.IsWaitPost (op : EvOp) : Prop := op = .condWaitPost ∨ op = .condTimedwaitPost

instance (op : EvOp) : Decidable op.IsWaitPost := inferInstanceAs (Decidable (_ ∨ _))

/-- The event `e'` is the event `e` under other names.  The return-code slot of a wait is the
address of its mutex, if it has one; any other return code stays. -/
structure Event.Renamed (e e' : Event) : Prop where
  op : e'.op = e.op
  kind : e'.kind = e.kind
  tid : e'.tid = ρ.tid e.tid
  addr : e'.addr = ρ.addr e.addr
  bt : e'.bt = ρ.bt e.bt
  rc : ¬ e.op.IsWaitPost → e'.rc = e.rc
  noMutex : e.op.IsWaitPost → (e'.rc % 2 ^ 64 = 0 ↔ e.rc % 2 ^ 64 = 0)
  mutex : e.op.IsWaitPost → e.rc % 2 ^ 64 ≠ 0 → e'.rc % 2 ^ 64 = ρ.addr (e.rc % 2 ^ 64)

/-- Move an event that does not return from a wait. -/
def Event.move (e : Event) : Event :=
  { e with tid := ρ.tid e.tid, addr := ρ.addr e.addr, bt := ρ.bt e.bt }

theorem Event.renamed_move {e : Event} (h : ¬ e.op.IsWaitPost) : e.Renamed ρ (e.move ρ) where
  op := rfl
  kind := rfl
  tid := rfl
  addr := rfl
  bt := rfl
  rc _ := rfl
  noMutex h' := absurd h' h
  mutex h' := absurd h' h

theorem forall₂_move {es : List Event} (h : ∀ e ∈ es, ¬ e.op.IsWaitPost) :
    List.Forall₂ (Event.Renamed ρ) es (es.map (Event.move ρ)) := by
  rw [List.forall₂_map_right_iff, List.forall₂_same]
  exact fun e he ↦ Event.renamed_move ρ (h e he)

variable {ρ}

theorem lockAction_rename (rc addr : Int) (k : LockKind) :
    lockAction rc (ρ.addr addr) k = (lockAction rc addr k).rename ρ := by
  unfold lockAction
  split <;> rfl

theorem tryAction_rename (rc addr : Int) (k : LockKind) :
    tryAction rc (ρ.addr addr) k = (tryAction rc addr k).rename ρ := by
  unfold tryAction
  split <;> rfl

/-- A renamed event asks the same of the graph, under other names. -/
theorem Event.Renamed.action {e e' : Event} (h : e.Renamed ρ e') :
    e'.action = e.action.rename ρ := by
  have hrc := h.rc
  have hno := h.noMutex
  have hmutex := h.mutex
  unfold Event.action
  rw [h.op, h.kind, h.addr]
  cases hop : e.op
  case condWaitPost | condTimedwaitPost =>
    rw [hop] at hno hmutex
    have hwait : EvOp.IsWaitPost e.op := by rw [hop]; simp [EvOp.IsWaitPost]
    rw [hop] at hwait
    dsimp only
    by_cases h0 : e.rc % 2 ^ 64 = 0
    · rw [if_neg (not_not.mpr h0), if_neg (not_not.mpr ((hno hwait).mpr h0))]
      rfl
    · rw [if_pos h0, if_pos (mt (hno hwait).mp h0), hmutex hwait h0]
      rfl
  all_goals
    rw [hop] at hrc
    have hrc' := hrc (by simp [EvOp.IsWaitPost])
    rw [hrc']
    first
    | rfl
    | exact lockAction_rename _ _ _
    | exact tryAction_rename _ _ _

/-! ## Renaming and the operations -/

theorem map_id_rename (stk : List LockNode) :
    (renameStack ρ stk).map LockNode.id = (stk.map LockNode.id).map (LockId.rename ρ) := by
  rw [List.map_map, List.map_map]
  rfl

theorem mem_ids_rename {lid : LockId} {stk : List LockNode} :
    lid.rename ρ ∈ (renameStack ρ stk).map LockNode.id ↔ lid ∈ stk.map LockNode.id := by
  rw [map_id_rename, List.mem_map_of_injective (LockId.rename_injective ρ)]

theorem reenter_rename (lid : LockId) (stk : List LockNode) :
    reenter (lid.rename ρ) (renameStack ρ stk) = renameStack ρ (reenter lid stk) := by
  induction stk with
  | nil => rfl
  | cons n stk ih =>
      have hid : (n.rename ρ).id = n.id.rename ρ := rfl
      rw [renameStack, List.map_cons, reenter, reenter, hid, ih]
      simp only [LockId.rename_inj]
      split <;> rfl

theorem release_rename (lid : LockId) (stk : List LockNode) :
    release (lid.rename ρ) (renameStack ρ stk) = (release lid stk).map (renameStack ρ) := by
  induction stk with
  | nil => rfl
  | cons n stk ih =>
      have hid : (n.rename ρ).id = n.id.rename ρ := rfl
      have hcount : (n.rename ρ).holdCount = n.holdCount := rfl
      rw [renameStack, List.map_cons, release, release, ih, hid, hcount]
      cases release lid stk with
      | some stk' => rfl
      | none =>
          simp only [Option.map_none, LockId.rename_inj]
          split
          · split <;> rfl
          · rfl

namespace Graph

@[simp] theorem rename_empty : Graph.rename ρ {} = {} := rfl

variable (ρ) (g : Graph)

theorem stack_rename (tid : Int) :
    (g.rename ρ).stack (ρ.tid tid) = renameStack ρ (g.stack tid) :=
  g.heldStacks.getD_map ρ.tid_injective (renameStack ρ) tid []

theorem setStack_rename (tid : Int) (stk : List LockNode) :
    (g.setStack tid stk).rename ρ = (g.rename ρ).setStack (ρ.tid tid) (renameStack ρ stk) := by
  unfold setStack rename
  rw [Dict.map_set]

theorem get?_addrGen_rename (addr : Int) :
    (g.rename ρ).addrGen.get? (ρ.addr addr) = g.addrGen.get? addr := by
  rw [rename, Dict.get?_map, Option.map_id_fun, id]

theorem mem_lockMeta_rename (lid : LockId) :
    lid.rename ρ ∈ (g.rename ρ).lockMeta ↔ lid ∈ g.lockMeta :=
  Dict.mem_map (LockId.rename_injective ρ) (LockMeta.rename ρ)

theorem ensureGen_rename (addr : Int) :
    (g.rename ρ).ensureGen (ρ.addr addr) =
      ((g.ensureGen addr).1.rename ρ, (g.ensureGen addr).2.rename ρ) := by
  unfold ensureGen
  rw [get?_addrGen_rename]
  cases g.addrGen.get? addr with
  | none =>
      dsimp only
      rw [Prod.mk.injEq]
      refine ⟨?_, rfl⟩
      unfold rename
      rw [Dict.map_set]
      rfl
  | some gen => rfl

theorem register_rename (addr : Int) (k : LockKind) (tid : Int) :
    (g.rename ρ).register (ρ.addr addr) k (ρ.tid tid) =
      ((g.register addr k tid).1.rename ρ, (g.register addr k tid).2.rename ρ) := by
  unfold register
  rw [ensureGen_rename]
  dsimp only
  simp only [mem_lockMeta_rename]
  split
  · rfl
  · have hnew : LockMeta.rename ρ
        { kind := k, gen := (g.ensureGen addr).2.gen, alive := true, initTid := tid } =
          { kind := k, gen := (g.ensureGen addr).2.gen, alive := true, initTid := ρ.tid tid } := by
      rw [LockMeta.rename, ρ.bt_nil]
    rw [Prod.mk.injEq]
    refine ⟨?_, rfl⟩
    conv_rhs => unfold rename
    rw [Dict.map_set, hnew]
    rfl

theorem onInit_rename (k : EvKind) (addr : Int) (recursive : Bool) (tid : Int) (bt : Bt) :
    (g.rename ρ).onInit k (ρ.addr addr) recursive (ρ.tid tid) (ρ.bt bt) =
      (g.onInit k addr recursive tid bt).rename ρ := by
  have hgen : (g.rename ρ).addrGen.getD (ρ.addr addr) 0 = g.addrGen.getD addr 0 := by
    rw [Dict.getD, Dict.getD, get?_addrGen_rename]
  unfold onInit
  rw [hgen]
  conv_rhs => unfold rename
  rw [Dict.map_set, Dict.map_set]
  rfl

theorem onDestroy_rename (addr : Int) :
    (g.rename ρ).onDestroy (ρ.addr addr) = (g.onDestroy addr).rename ρ := by
  unfold onDestroy
  rw [get?_addrGen_rename]
  cases g.addrGen.get? addr with
  | none => rfl
  | some gen =>
      have hmeta : (g.rename ρ).lockMeta.get? ⟨ρ.addr addr, gen⟩ =
          (g.lockMeta.get? ⟨addr, gen⟩).map (LockMeta.rename ρ) :=
        g.lockMeta.get?_map (LockId.rename_injective ρ) (LockMeta.rename ρ) ⟨addr, gen⟩
      have hedges : (g.edges.filterKeys fun k ↦ k.frm ≠ ⟨addr, gen⟩ ∧ k.to ≠ ⟨addr, gen⟩).map
          (EdgeKey.rename_injective ρ) (EdgeInfo.rename ρ) =
            (g.rename ρ).edges.filterKeys fun k ↦
              k.frm ≠ LockId.rename ρ ⟨addr, gen⟩ ∧ k.to ≠ LockId.rename ρ ⟨addr, gen⟩ :=
        Dict.map_filterKeys _ _ (fun k ↦ by simp [EdgeKey.rename]) g.edges
      dsimp only
      rw [hmeta]
      conv_rhs => unfold rename
      rw [hedges]
      cases g.lockMeta.get? ⟨addr, gen⟩ with
      | none => rfl
      | some m =>
          dsimp only [Option.map_some]
          rw [Dict.map_set]
          rfl

theorem addEdge_rename (lid : LockId) (k : LockKind) (tid : Int) (bt : Bt)
    (edges : Dict EdgeKey EdgeInfo) (held : LockNode) :
    addEdge (lid.rename ρ) k (ρ.tid tid) (ρ.bt bt)
        (edges.map (EdgeKey.rename_injective ρ) (EdgeInfo.rename ρ)) (held.rename ρ) =
      (addEdge lid k tid bt edges held).map (EdgeKey.rename_injective ρ) (EdgeInfo.rename ρ) := by
  have hid : (held.rename ρ).id = held.id.rename ρ := rfl
  have hkey : (⟨held.id.rename ρ, lid.rename ρ⟩ : EdgeKey) = EdgeKey.rename ρ ⟨held.id, lid⟩ := rfl
  unfold addEdge
  rw [hid, hkey]
  simp only [LockId.rename_inj, Dict.mem_map]
  split
  · rfl
  · split
    · rfl
    · rw [Dict.map_set]
      rfl

theorem buildEdgesTo_rename (lid : LockId) (k : LockKind) (tid : Int) (bt : Bt) :
    (g.rename ρ).buildEdgesTo (lid.rename ρ) k (ρ.tid tid) (ρ.bt bt) =
      (g.buildEdgesTo lid k tid bt).rename ρ := by
  have hfold : ∀ (stk : List LockNode) (edges : Dict EdgeKey EdgeInfo),
      (renameStack ρ stk).foldl (addEdge (lid.rename ρ) k (ρ.tid tid) (ρ.bt bt))
          (edges.map (EdgeKey.rename_injective ρ) (EdgeInfo.rename ρ)) =
        (stk.foldl (addEdge lid k tid bt) edges).map (EdgeKey.rename_injective ρ)
          (EdgeInfo.rename ρ) := by
    intro stk
    induction stk with
    | nil => intro edges; rfl
    | cons n stk ih =>
        intro edges
        rw [renameStack, List.map_cons, List.foldl_cons, List.foldl_cons, addEdge_rename, ih]
  unfold buildEdgesTo
  rw [stack_rename]
  conv_rhs => unfold rename
  rw [← hfold]
  rfl

theorem onAcquire_rename (addr : Int) (k : LockKind) (tid : Int) (bt : Bt) :
    (g.rename ρ).onAcquire (ρ.addr addr) k (ρ.tid tid) (ρ.bt bt) =
      (g.onAcquire addr k tid bt).rename ρ := by
  unfold onAcquire
  rw [register_rename]
  dsimp only
  rw [stack_rename]
  simp only [mem_ids_rename]
  split
  · rw [reenter_rename, setStack_rename]
  · rw [buildEdgesTo_rename, setStack_rename]
    simp only [renameStack, List.map_append]
    rfl

theorem onAcquireAttempt_rename (addr : Int) (k : LockKind) (tid : Int) (bt : Bt) :
    (g.rename ρ).onAcquireAttempt (ρ.addr addr) k (ρ.tid tid) (ρ.bt bt) =
      (g.onAcquireAttempt addr k tid bt).rename ρ := by
  unfold onAcquireAttempt
  rw [register_rename]
  exact buildEdgesTo_rename ρ _ _ k tid bt

theorem onUnlock_rename (addr tid : Int) :
    (g.rename ρ).onUnlock (ρ.addr addr) (ρ.tid tid) = (g.onUnlock addr tid).rename ρ := by
  unfold onUnlock
  rw [get?_addrGen_rename]
  cases g.addrGen.get? addr with
  | none => rfl
  | some gen =>
      have hrelease : release ⟨ρ.addr addr, gen⟩ ((g.rename ρ).stack (ρ.tid tid)) =
          (release ⟨addr, gen⟩ (g.stack tid)).map (renameStack ρ) := by
        rw [stack_rename, ← release_rename]
        rfl
      dsimp only
      rw [hrelease]
      cases release ⟨addr, gen⟩ (g.stack tid) with
      | none => rfl
      | some stk => exact (setStack_rename ρ g tid stk).symm

/-- Performing a renamed action on a renamed graph is renaming what the action does. -/
theorem act_rename (a : Action) (tid : Int) (bt : Bt) :
    (g.rename ρ).act (a.rename ρ) (ρ.tid tid) (ρ.bt bt) = (g.act a tid bt).rename ρ := by
  cases a with
  | skip => rfl
  | init k addr recursive => exact onInit_rename ρ g k addr recursive tid bt
  | destroy addr => exact onDestroy_rename ρ g addr
  | acquire addr k => exact onAcquire_rename ρ g addr k tid bt
  | attempt addr k => exact onAcquireAttempt_rename ρ g addr k tid bt
  | unlock addr => exact onUnlock_rename ρ g addr tid
  | condPost m =>
      show ((g.rename ρ).onUnlock (ρ.addr m) (ρ.tid tid)).onAcquire _ _ _ _ = _
      rw [onUnlock_rename, onAcquire_rename]
      rfl

end Graph

theorem Event.Renamed.replayStep {e e' : Event} (h : e.Renamed ρ e') (g : Graph) :
    Analyzer.replayStep (g.rename ρ) e' = (Analyzer.replayStep g e).rename ρ := by
  rw [replayStep_eq_act, replayStep_eq_act, h.action, h.tid, h.bt, Graph.act_rename]

/-- The graph of a renamed trace is the renamed graph. -/
theorem replay_rename {es es' : List Event} (h : List.Forall₂ (Event.Renamed ρ) es es')
    (g : Graph) : replay es' (g.rename ρ) = (replay es g).rename ρ := by
  induction h generalizing g with
  | nil => rfl
  | cons he _ ih =>
      show replay _ (Analyzer.replayStep (g.rename ρ) _) = _
      rw [he.replayStep, ih]
      rfl

end DeadLockDetect.Analyzer
