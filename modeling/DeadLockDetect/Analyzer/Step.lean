import DeadLockDetect.Analyzer.Graph

/-!
# What one event does to the graph

`replay` has one branch for each operation code, but an event can ask only seven
different things of the graph.  `Event.action` names them, `Graph.act` performs
them, and `replayStep_eq_act` says that this is what `replay` does; the rest of
the development splits on the action and not on the code.

Each operation then gets one lemma for each component of the graph that it can
change: the generations, the held stacks and the edges.  The lemma for the edges
is in closed form (`get?_edges_replayStep`): the step drops the edges of a
destroyed lock, and otherwise keeps every edge and adds those of `recorded`.
-/

namespace DeadLockDetect.Analyzer

/-- What an event asks of the graph. -/
inductive Action where
  /-- Nothing: a `PRE` event, a failed blocking lock, a wait without a mutex. -/
  | skip
  /-- A lock lifetime begins. -/
  | init (k : EvKind) (addr : Int) (recursive : Bool)
  /-- A lock lifetime ends. -/
  | destroy (addr : Int)
  /-- A lock was acquired. -/
  | acquire (addr : Int) (k : LockKind)
  /-- A lock was requested in vain by a try or timed variant. -/
  | attempt (addr : Int) (k : LockKind)
  /-- A lock was released. -/
  | unlock (addr : Int)
  /-- A condition wait returned. -/
  | condPost (mAddr : Int)
deriving DecidableEq, Repr

/-- The action of a blocking acquisition: only a success counts. -/
def lockAction (rc addr : Int) (k : LockKind) : Action :=
  if rc = 0 then .acquire addr k else .skip

/-- The action of a try or timed acquisition: a failure still counts as a request. -/
def tryAction (rc addr : Int) (k : LockKind) : Action :=
  if rc = 0 then .acquire addr k else .attempt addr k

/-- What an event asks of the graph. -/
def Event.action (e : Event) : Action :=
  match e.op with
  | .init => .init e.kind e.addr (e.kind = .mutex && e.rc % 2 = 1)
  | .destroy => .destroy e.addr
  | .lockPost => lockAction e.rc e.addr (kindFromKindField e.kind)
  | .trylockPost | .timedlockPost => tryAction e.rc e.addr (kindFromKindField e.kind)
  | .rdlockPost => lockAction e.rc e.addr .rwlockRd
  | .tryrdlockPost | .timedrdlockPost => tryAction e.rc e.addr .rwlockRd
  | .wrlockPost => lockAction e.rc e.addr .rwlockWr
  | .trywrlockPost | .timedwrlockPost => tryAction e.rc e.addr .rwlockWr
  | .unlock => .unlock e.addr
  | .condWaitPost | .condTimedwaitPost =>
      if e.rc % 2 ^ 64 ≠ 0 then .condPost (e.rc % 2 ^ 64) else .skip
  | _ => .skip

namespace Graph

/-- Perform an action. -/
def act (g : Graph) (a : Action) (tid : Int) (bt : Bt) : Graph :=
  match a with
  | .skip => g
  | .init k addr recursive => g.onInit k addr recursive tid bt
  | .destroy addr => g.onDestroy addr
  | .acquire addr k => g.onAcquire addr k tid bt
  | .attempt addr k => g.onAcquireAttempt addr k tid bt
  | .unlock addr => g.onUnlock addr tid
  | .condPost m => g.onCondPost m tid bt

theorem act_lockAction (g : Graph) (rc addr : Int) (k : LockKind) (tid : Int) (bt : Bt) :
    g.act (lockAction rc addr k) tid bt = if rc = 0 then g.onAcquire addr k tid bt else g := by
  unfold lockAction
  split <;> rfl

theorem act_tryAction (g : Graph) (rc addr : Int) (k : LockKind) (tid : Int) (bt : Bt) :
    g.act (tryAction rc addr k) tid bt =
      if rc = 0 then g.onAcquire addr k tid bt else g.onAcquireAttempt addr k tid bt := by
  unfold tryAction
  split <;> rfl

end Graph

/-- Replaying an event performs its action. -/
theorem replayStep_eq_act (g : Graph) (e : Event) :
    replayStep g e = g.act e.action e.tid e.bt := by
  unfold replayStep Event.action
  cases e.op
  case condWaitPost | condTimedwaitPost =>
    dsimp only
    split <;> rfl
  all_goals
    first
    | rfl
    | exact (g.act_lockAction _ _ _ _ _).symm
    | exact (g.act_tryAction _ _ _ _ _).symm

namespace Graph

/-! ## Generations -/

/-- The lock lifetime that an event about `addr` is attributed to. -/
def lockAt (g : Graph) (addr : Int) : LockId := ⟨addr, g.addrGen.getD addr 1⟩

theorem lockAt_of_get? {g : Graph} {addr : Int} {gen : Nat}
    (h : g.addrGen.get? addr = some gen) : g.lockAt addr = ⟨addr, gen⟩ := by
  rw [lockAt, Dict.getD, h]
  rfl

@[simp] theorem register_snd (g : Graph) (addr : Int) (k : LockKind) (tid : Int) :
    (g.register addr k tid).2 = g.lockAt addr := by
  unfold register ensureGen lockAt Dict.getD
  cases g.addrGen.get? addr <;> (dsimp only [Option.getD]; split <;> rfl)

theorem get?_addrGen_register (g : Graph) (addr : Int) (k : LockKind) (tid b : Int) :
    (g.register addr k tid).1.addrGen.get? b =
      if b = addr then some (g.addrGen.getD addr 1) else g.addrGen.get? b := by
  unfold register ensureGen Dict.getD
  cases h : g.addrGen.get? addr with
  | none =>
      dsimp only [Option.getD]
      split <;> exact g.addrGen.get?_set addr 1 b
  | some gen =>
      dsimp only [Option.getD]
      by_cases hb : b = addr
      · subst hb
        rw [if_pos rfl]
        split <;> exact h
      · rw [if_neg hb]
        split <;> rfl

@[simp] theorem register_edges (g : Graph) (addr : Int) (k : LockKind) (tid : Int) :
    (g.register addr k tid).1.edges = g.edges := by
  unfold register ensureGen
  cases g.addrGen.get? addr <;> (dsimp only; split <;> rfl)

@[simp] theorem register_heldStacks (g : Graph) (addr : Int) (k : LockKind) (tid : Int) :
    (g.register addr k tid).1.heldStacks = g.heldStacks := by
  unfold register ensureGen
  cases g.addrGen.get? addr <;> (dsimp only; split <;> rfl)

@[simp] theorem register_stack (g : Graph) (addr : Int) (k : LockKind) (tid t : Int) :
    (g.register addr k tid).1.stack t = g.stack t := by
  rw [stack, register_heldStacks, stack]

/-- The generations after an acquisition or a vain attempt. -/
theorem get?_addrGen_onAcquire (g : Graph) (addr : Int) (k : LockKind) (tid : Int) (bt : Bt)
    (b : Int) : (g.onAcquire addr k tid bt).addrGen.get? b =
      if b = addr then some (g.addrGen.getD addr 1) else g.addrGen.get? b := by
  rw [← get?_addrGen_register g addr k tid b]
  unfold onAcquire
  dsimp only
  split <;> rfl

theorem get?_addrGen_onAcquireAttempt (g : Graph) (addr : Int) (k : LockKind) (tid : Int)
    (bt : Bt) (b : Int) : (g.onAcquireAttempt addr k tid bt).addrGen.get? b =
      if b = addr then some (g.addrGen.getD addr 1) else g.addrGen.get? b :=
  get?_addrGen_register g addr k tid b

@[simp] theorem onUnlock_addrGen (g : Graph) (addr tid : Int) :
    (g.onUnlock addr tid).addrGen = g.addrGen := by
  unfold onUnlock
  split
  · rfl
  · split <;> rfl

@[simp] theorem onDestroy_addrGen (g : Graph) (addr : Int) :
    (g.onDestroy addr).addrGen = g.addrGen := by
  unfold onDestroy
  split <;> rfl

@[simp] theorem onUnlock_lockAt (g : Graph) (addr tid b : Int) :
    (g.onUnlock addr tid).lockAt b = g.lockAt b := by
  rw [lockAt, onUnlock_addrGen, lockAt]

/-! ## Held stacks -/

@[simp] theorem stack_setStack (g : Graph) (tid : Int) (stk : List LockNode) (t : Int) :
    (g.setStack tid stk).stack t = if t = tid then stk else g.stack t :=
  g.heldStacks.getD_set tid stk t []

/-- The lock lifetimes that a thread holds, the latest acquired last. -/
def heldIds (g : Graph) (tid : Int) : List LockId := (g.stack tid).map LockNode.id

/-- The stack of a thread after it acquired `lid`. -/
def pushed (stk : List LockNode) (lid : LockId) (k : LockKind) (tid : Int) (bt : Bt) :
    List LockNode :=
  if lid ∈ stk.map LockNode.id then reenter lid stk
  else stk ++ [{ id := lid, kind := k, holdCount := 1, acquireBt := bt, acquireTid := tid }]

theorem stack_onAcquire (g : Graph) (addr : Int) (k : LockKind) (tid : Int) (bt : Bt) (t : Int) :
    (g.onAcquire addr k tid bt).stack t =
      if t = tid then pushed (g.stack tid) (g.lockAt addr) k tid bt else g.stack t := by
  unfold onAcquire pushed
  simp only [register_snd, register_stack]
  split
  · rw [stack_setStack, register_stack]
  · rw [stack_setStack, ← register_stack g addr k tid t]
    rfl

@[simp] theorem stack_onAcquireAttempt (g : Graph) (addr : Int) (k : LockKind) (tid : Int)
    (bt : Bt) (t : Int) : (g.onAcquireAttempt addr k tid bt).stack t = g.stack t :=
  register_stack g addr k tid t

/-- The stack of a thread after it released `lid`; a release of a lock that is not held
changes nothing. -/
def popped (stk : List LockNode) (lid : LockId) : List LockNode := (release lid stk).getD stk

theorem stack_onUnlock_of_get? {g : Graph} {addr : Int} {gen : Nat}
    (h : g.addrGen.get? addr = some gen) (tid t : Int) :
    (g.onUnlock addr tid).stack t =
      if t = tid then popped (g.stack tid) ⟨addr, gen⟩ else g.stack t := by
  unfold onUnlock popped
  rw [h]
  dsimp only
  cases release ⟨addr, gen⟩ (g.stack tid) with
  | none =>
      by_cases ht : t = tid
      · rw [if_pos ht, ht]
        rfl
      · rw [if_neg ht]
  | some stk => exact stack_setStack g tid stk t

theorem onUnlock_of_get?_none {g : Graph} {addr : Int} (h : g.addrGen.get? addr = none)
    (tid : Int) : g.onUnlock addr tid = g := by
  unfold onUnlock
  rw [h]

@[simp] theorem stack_onDestroy (g : Graph) (addr t : Int) :
    (g.onDestroy addr).stack t = g.stack t := by
  unfold onDestroy
  split <;> rfl

/-- Only the acting thread's stack changes. -/
theorem stack_act_of_ne (g : Graph) (a : Action) {tid t : Int} (h : t ≠ tid) (bt : Bt) :
    (g.act a tid bt).stack t = g.stack t := by
  have hun : ∀ addr, (g.onUnlock addr tid).stack t = g.stack t := by
    intro addr
    cases hg : g.addrGen.get? addr with
    | none => rw [onUnlock_of_get?_none hg]
    | some gen => rw [stack_onUnlock_of_get? hg, if_neg h]
  cases a with
  | skip => rfl
  | init => rfl
  | destroy => exact stack_onDestroy g _ t
  | acquire => rw [act, stack_onAcquire, if_neg h]
  | attempt => exact stack_onAcquireAttempt g _ _ _ _ t
  | unlock addr => exact hun addr
  | condPost m => rw [act, onCondPost, stack_onAcquire, if_neg h, hun]

/-! ## Edges -/

end Graph

/-- The information recorded with an edge out of the held lock `held`. -/
def LockNode.edgeInfo (held : LockNode) (k : LockKind) (tid : Int) (bt : Bt) : EdgeInfo :=
  { tid, fromKind := held.kind, toKind := k, btFrom := held.acquireBt, btTo := bt }

namespace Graph

/-- The information that a request of `lid` by a thread with the stack `stk` records with
the edge `key`, if it asks for that edge at all. -/
def newInfo (stk : List LockNode) (lid : LockId) (k : LockKind) (tid : Int) (bt : Bt)
    (key : EdgeKey) : Option EdgeInfo :=
  if key.to = lid ∧ key.frm ≠ lid then
    (stk.find? fun n ↦ n.id = key.frm).map fun held ↦ held.edgeInfo k tid bt
  else none

theorem newInfo_nil (lid : LockId) (k : LockKind) (tid : Int) (bt : Bt) (key : EdgeKey) :
    newInfo [] lid k tid bt key = none := by
  unfold newInfo
  split <;> rfl

theorem newInfo_cons (n : LockNode) (stk : List LockNode) (lid : LockId) (k : LockKind)
    (tid : Int) (bt : Bt) (key : EdgeKey) :
    newInfo (n :: stk) lid k tid bt key =
      (if key = ⟨n.id, lid⟩ ∧ n.id ≠ lid then some (n.edgeInfo k tid bt) else none).or
        (newInfo stk lid k tid bt key) := by
  unfold newInfo
  by_cases hk : key.to = lid ∧ key.frm ≠ lid
  · obtain ⟨rfl, hne⟩ := hk
    by_cases hn : n.id = key.frm
    · simp [hn, hne]
    · have hkey : key ≠ ⟨n.id, key.to⟩ := fun h ↦ hn (congrArg EdgeKey.frm h).symm
      simp [hn, hne, hkey]
  · have hkey : ¬ (key = ⟨n.id, lid⟩ ∧ n.id ≠ lid) := by
      rintro ⟨rfl, hne⟩
      exact hk ⟨rfl, hne⟩
    simp [hk, hkey]

theorem get?_addEdge (lid : LockId) (k : LockKind) (tid : Int) (bt : Bt)
    (edges : Dict EdgeKey EdgeInfo) (n : LockNode) (key : EdgeKey) :
    (addEdge lid k tid bt edges n).get? key = (edges.get? key).or
      (if key = ⟨n.id, lid⟩ ∧ n.id ≠ lid then some (n.edgeInfo k tid bt) else none) := by
  unfold addEdge
  by_cases hn : n.id = lid
  · simp [hn]
  · rw [if_neg hn]
    by_cases hmem : (⟨n.id, lid⟩ : EdgeKey) ∈ edges
    · rw [if_pos hmem]
      by_cases hkey : key = ⟨n.id, lid⟩
      · obtain ⟨v, hv⟩ := Dict.exists_get?_of_mem hmem
        rw [hkey, hv, Option.some_or]
      · simp [hkey]
    · rw [if_neg hmem, Dict.get?_set]
      by_cases hkey : key = ⟨n.id, lid⟩
      · simp [hkey, hn, Dict.get?_eq_none_iff.mpr hmem, LockNode.edgeInfo]
      · simp [hkey]

/-- First writer wins: an edge that is already recorded keeps its information. -/
theorem get?_edges_buildEdgesTo (g : Graph) (lid : LockId) (k : LockKind) (tid : Int) (bt : Bt)
    (key : EdgeKey) : (g.buildEdgesTo lid k tid bt).edges.get? key =
      (g.edges.get? key).or (newInfo (g.stack tid) lid k tid bt key) := by
  unfold buildEdgesTo
  dsimp only
  generalize g.edges = edges
  induction g.stack tid generalizing edges with
  | nil => simp [newInfo_nil]
  | cons n stk ih => rw [List.foldl_cons, ih, get?_addEdge, newInfo_cons, Option.or_assoc]

/-- What the acquisition of `lid` records with the edge `key`: nothing on re-entry. -/
def acquireInfo (stk : List LockNode) (lid : LockId) (k : LockKind) (tid : Int) (bt : Bt)
    (key : EdgeKey) : Option EdgeInfo :=
  if lid ∈ stk.map LockNode.id then none else newInfo stk lid k tid bt key

theorem get?_edges_onAcquire (g : Graph) (addr : Int) (k : LockKind) (tid : Int) (bt : Bt)
    (key : EdgeKey) : (g.onAcquire addr k tid bt).edges.get? key =
      (g.edges.get? key).or (acquireInfo (g.stack tid) (g.lockAt addr) k tid bt key) := by
  unfold onAcquire acquireInfo
  simp only [register_snd, register_stack]
  split
  · simp [setStack]
  · have h := get?_edges_buildEdgesTo (g.register addr k tid).1 (g.lockAt addr) k tid bt key
    rw [register_stack, register_edges] at h
    exact h

theorem get?_edges_onAcquireAttempt (g : Graph) (addr : Int) (k : LockKind) (tid : Int)
    (bt : Bt) (key : EdgeKey) : (g.onAcquireAttempt addr k tid bt).edges.get? key =
      (g.edges.get? key).or (newInfo (g.stack tid) (g.lockAt addr) k tid bt key) := by
  unfold onAcquireAttempt
  simp only [register_snd]
  rw [get?_edges_buildEdgesTo, register_edges, register_stack]

@[simp] theorem onUnlock_edges (g : Graph) (addr tid : Int) :
    (g.onUnlock addr tid).edges = g.edges := by
  unfold onUnlock
  split
  · rfl
  · split <;> rfl

/-- `x` is the lock lifetime that a destruction of `addr` ends. -/
def Ends (g : Graph) (addr : Int) (x : LockId) : Prop :=
  addr = x.addr ∧ g.addrGen.get? addr = some x.gen

instance (g : Graph) (addr : Int) (x : LockId) : Decidable (g.Ends addr x) :=
  inferInstanceAs (Decidable (_ ∧ _))

theorem ends_iff {g : Graph} {addr : Int} {gen : Nat} (h : g.addrGen.get? addr = some gen)
    {x : LockId} : g.Ends addr x ↔ x = ⟨addr, gen⟩ := by
  obtain ⟨a, n⟩ := x
  constructor
  · rintro ⟨rfl, h'⟩
    rw [h] at h'
    rw [Option.some.inj h']
  · intro hx
    cases hx
    exact ⟨rfl, h⟩

theorem get?_edges_onDestroy (g : Graph) (addr : Int) (key : EdgeKey) :
    (g.onDestroy addr).edges.get? key =
      if g.Ends addr key.frm ∨ g.Ends addr key.to then none else g.edges.get? key := by
  unfold onDestroy
  cases h : g.addrGen.get? addr with
  | none =>
      have hno : ∀ x, ¬ g.Ends addr x := fun x hx ↦ by rw [Ends, h] at hx; cases hx.2
      rw [if_neg (not_or.mpr ⟨hno _, hno _⟩)]
  | some gen =>
      simp only [ends_iff h, Dict.get?_filterKeys]
      by_cases h₁ : key.frm = ⟨addr, gen⟩
      · simp [h₁]
      · by_cases h₂ : key.to = ⟨addr, gen⟩ <;> simp [h₁, h₂]

end Graph

/-- The event destroys the lock lifetime `x`. -/
def Event.Destroys (e : Event) (g : Graph) (x : LockId) : Prop :=
  ∃ addr, e.action = .destroy addr ∧ g.Ends addr x

instance (e : Event) (g : Graph) (x : LockId) : Decidable (e.Destroys g x) :=
  decidable_of_iff (e.action = .destroy x.addr ∧ g.Ends x.addr x)
    ⟨fun h ↦ ⟨_, h⟩, by rintro ⟨addr, h, rfl, h'⟩; exact ⟨h, rfl, h'⟩⟩

/-- What an event records with the edge `key`. -/
def Event.recorded (e : Event) (g : Graph) (key : EdgeKey) : Option EdgeInfo :=
  match e.action with
  | .acquire addr k => Graph.acquireInfo (g.stack e.tid) (g.lockAt addr) k e.tid e.bt key
  | .attempt addr k => Graph.newInfo (g.stack e.tid) (g.lockAt addr) k e.tid e.bt key
  | .condPost m =>
      Graph.acquireInfo ((g.onUnlock m e.tid).stack e.tid) (g.lockAt m) .mutex e.tid e.bt key
  | _ => none

/-- **The edges after one event.**  Those of a destroyed lock are gone; any other edge
keeps what was recorded with it, and is recorded now if it was not there before. -/
theorem get?_edges_replayStep (g : Graph) (e : Event) (key : EdgeKey) :
    (replayStep g e).edges.get? key =
      if e.Destroys g key.frm ∨ e.Destroys g key.to then none
      else (g.edges.get? key).or (e.recorded g key) := by
  have hno : (∀ addr, e.action ≠ .destroy addr) → ∀ x, ¬ e.Destroys g x :=
    fun h x ⟨addr, ha, _⟩ ↦ h addr ha
  rw [replayStep_eq_act, Event.recorded]
  cases h : e.action with
  | destroy addr =>
      have hd : ∀ x, e.Destroys g x ↔ g.Ends addr x := fun x ↦
        ⟨fun ⟨b, hb, hx⟩ ↦ by rw [h] at hb; cases hb; exact hx, fun hx ↦ ⟨addr, h, hx⟩⟩
      simp only [Graph.act, Graph.get?_edges_onDestroy, hd, Option.or_none]
  | skip | init | unlock | acquire | attempt | condPost =>
      have hx := hno (by rw [h]; simp)
      rw [if_neg (not_or.mpr ⟨hx _, hx _⟩)]
      simp [Graph.act, Graph.onInit, Graph.onCondPost, Graph.get?_edges_onAcquire,
        Graph.get?_edges_onAcquireAttempt]

end DeadLockDetect.Analyzer
