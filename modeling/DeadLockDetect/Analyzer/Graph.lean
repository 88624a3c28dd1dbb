import Mathlib.Algebra.Group.Int.Defs
import DeadLockDetect.Lib.Dict
import DeadLockDetect.Analyzer.Types

/-!
# The lock-order graph

`graph.py`: the per-thread stacks of held locks, the generation of each address,
the metadata of each lock lifetime and the lock-order edges, with the operations
that an event performs on them and the replay of an event list.

## What is transcribed

* `Graph` and its operations keep the names of the source (`_ensure_gen` is
  `ensureGen`, `on_acquire` is `onAcquire`, and so on).  The fields `meta` and `stacks` of the
  source are `lockMeta` and `heldStacks`, the short names being keywords here.
* A held stack is a list with its top at the *end*, as in the source.  The
  dictionary of stacks is a `defaultdict(list)`; `Graph.stack` reads it.
* `register` is the opening that `on_acquire` and `on_acquire_attempt` share.
* `replayStep` is the body of the loop of `replay`, one branch for each branch of
  the source.
-/

namespace DeadLockDetect.Analyzer

/-- The state of the analyzer while it replays a trace. -/
structure Graph where
  /-- The current generation of each address. -/
  addrGen : Dict Int Nat := .empty
  /-- The metadata of each lock lifetime. -/
  lockMeta : Dict LockId LockMeta := .empty
  /-- The lock-order edges. -/
  edges : Dict EdgeKey EdgeInfo := .empty
  /-- The stack of held locks of each thread. -/
  heldStacks : Dict Int (List LockNode) := .empty

/-- Increment the hold count of the bottommost node of `lid`. -/
def reenter (lid : LockId) : List LockNode → List LockNode
  | [] => []
  | n :: stk =>
      if n.id = lid then { n with holdCount := n.holdCount + 1 } :: stk
      else n :: reenter lid stk

/-- Release the topmost node of `lid`: one hold less, or the node is removed with its
last hold.  The stack is searched from its top, the end of the list. -/
def release (lid : LockId) : List LockNode → Option (List LockNode)
  | [] => none
  | n :: stk => match release lid stk with
    | some stk' => some (n :: stk')
    | none =>
        if n.id = lid then
          if n.holdCount > 1 then some ({ n with holdCount := n.holdCount - 1 } :: stk)
          else some stk
        else none

namespace Graph

/-- The stack of held locks of a thread. -/
def stack (g : Graph) (tid : Int) : List LockNode := g.heldStacks.getD tid []

/-- Replace the stack of held locks of a thread. -/
def setStack (g : Graph) (tid : Int) (stk : List LockNode) : Graph :=
  { g with heldStacks := g.heldStacks.set tid stk }

/-- The lock lifetime now at `addr`; an address seen for the first time gets generation
`1`. -/
def ensureGen (g : Graph) (addr : Int) : Graph × LockId :=
  match g.addrGen.get? addr with
  | none => ({ g with addrGen := g.addrGen.set addr 1 }, ⟨addr, 1⟩)
  | some gen => (g, ⟨addr, gen⟩)

/-- The lock lifetime now at `addr`, with metadata if it had none. -/
def register (g : Graph) (addr : Int) (k : LockKind) (tid : Int) : Graph × LockId :=
  let (g, lid) := g.ensureGen addr
  if lid ∈ g.lockMeta then (g, lid)
  else
    let m : LockMeta :=
      { kind := k, recursive := false, gen := lid.gen, alive := true, initTid := tid }
    ({ g with lockMeta := g.lockMeta.set lid m }, lid)

/-- The placeholder kind of an initialised lock. -/
def initKind : EvKind → LockKind
  | .rwlock => .rwlockWr
  | .spin => .spin
  | _ => .mutex

/-- A new lock lifetime begins at `addr`. -/
def onInit (g : Graph) (k : EvKind) (addr : Int) (recursive : Bool) (tid : Int) (bt : Bt) :
    Graph :=
  let gen := g.addrGen.getD addr 0 + 1
  let m : LockMeta :=
    { kind := initKind k, recursive, gen, alive := true, initBt := bt, initTid := tid }
  { g with addrGen := g.addrGen.set addr gen, lockMeta := g.lockMeta.set ⟨addr, gen⟩ m }

/-- The lock lifetime at `addr` ends: it is no longer alive and its edges are dropped. -/
def onDestroy (g : Graph) (addr : Int) : Graph :=
  match g.addrGen.get? addr with
  | none => g
  | some gen =>
      let lid : LockId := ⟨addr, gen⟩
      { g with
        lockMeta := match g.lockMeta.get? lid with
          | some m => g.lockMeta.set lid { m with alive := false }
          | none => g.lockMeta
        edges := g.edges.filterKeys fun k ↦ k.frm ≠ lid ∧ k.to ≠ lid }

/-- Record the edge from one held lock to `lid`, unless it is already there. -/
def addEdge (lid : LockId) (k : LockKind) (tid : Int) (bt : Bt)
    (edges : Dict EdgeKey EdgeInfo) (held : LockNode) : Dict EdgeKey EdgeInfo :=
  if held.id = lid then edges
  else if ⟨held.id, lid⟩ ∈ edges then edges
  else edges.set ⟨held.id, lid⟩
    { tid, fromKind := held.kind, toKind := k, btFrom := held.acquireBt, btTo := bt }

/-- Record the edges from every lock that `tid` holds to `lid`. -/
def buildEdgesTo (g : Graph) (lid : LockId) (k : LockKind) (tid : Int) (bt : Bt) : Graph :=
  { g with edges := (g.stack tid).foldl (addEdge lid k tid bt) g.edges }

/-- A thread has acquired the lock at `addr`. -/
def onAcquire (g : Graph) (addr : Int) (k : LockKind) (tid : Int) (bt : Bt) : Graph :=
  let (g, lid) := g.register addr k tid
  let stk := g.stack tid
  if lid ∈ stk.map LockNode.id then g.setStack tid (reenter lid stk)
  else
    (g.buildEdgesTo lid k tid bt).setStack tid
      (stk ++ [{ id := lid, kind := k, holdCount := 1, acquireBt := bt, acquireTid := tid }])

/-- A thread has tried in vain to acquire the lock at `addr`: it requested the lock but
does not hold it. -/
def onAcquireAttempt (g : Graph) (addr : Int) (k : LockKind) (tid : Int) (bt : Bt) : Graph :=
  let (g, lid) := g.register addr k tid
  g.buildEdgesTo lid k tid bt

/-- A thread releases the lock at `addr`. -/
def onUnlock (g : Graph) (addr : Int) (tid : Int) : Graph :=
  match g.addrGen.get? addr with
  | none => g
  | some gen => match release ⟨addr, gen⟩ (g.stack tid) with
    | none => g
    | some stk => g.setStack tid stk

/-- A condition wait returns: its mutex was released and acquired again. -/
def onCondPost (g : Graph) (mAddr : Int) (tid : Int) (bt : Bt) : Graph :=
  (g.onUnlock mAddr tid).onAcquire mAddr .mutex tid bt

end Graph

/-- The lock kind of a mutex or spinlock event. -/
def kindFromKindField : EvKind → LockKind
  | .spin => .spin
  | _ => .mutex

open DeadLockDetect.Analyzer.Graph in
/-- The effect of one event. -/
def replayStep (g : Graph) (e : Event) : Graph :=
  match e.op with
  | .init => g.onInit e.kind e.addr (e.kind = .mutex && e.rc % 2 = 1) e.tid e.bt
  | .destroy => g.onDestroy e.addr
  | .lockPre | .trylockPre | .timedlockPre => g
  | .lockPost =>
      if e.rc = 0 then g.onAcquire e.addr (kindFromKindField e.kind) e.tid e.bt else g
  | .trylockPost | .timedlockPost =>
      if e.rc = 0 then g.onAcquire e.addr (kindFromKindField e.kind) e.tid e.bt
      else g.onAcquireAttempt e.addr (kindFromKindField e.kind) e.tid e.bt
  | .rdlockPre | .tryrdlockPre | .timedrdlockPre => g
  | .rdlockPost => if e.rc = 0 then g.onAcquire e.addr .rwlockRd e.tid e.bt else g
  | .tryrdlockPost | .timedrdlockPost =>
      if e.rc = 0 then g.onAcquire e.addr .rwlockRd e.tid e.bt
      else g.onAcquireAttempt e.addr .rwlockRd e.tid e.bt
  | .wrlockPre | .trywrlockPre | .timedwrlockPre => g
  | .wrlockPost => if e.rc = 0 then g.onAcquire e.addr .rwlockWr e.tid e.bt else g
  | .trywrlockPost | .timedwrlockPost =>
      if e.rc = 0 then g.onAcquire e.addr .rwlockWr e.tid e.bt
      else g.onAcquireAttempt e.addr .rwlockWr e.tid e.bt
  | .unlock => g.onUnlock e.addr e.tid
  | .condWaitPre | .condTimedwaitPre => g
  -- the return-code slot of a wait carries the mutex address, read as an unsigned word
  | .condWaitPost | .condTimedwaitPost =>
      if e.rc % 2 ^ 64 ≠ 0 then g.onCondPost (e.rc % 2 ^ 64) e.tid e.bt else g

/-- Replay a list of events on a graph. -/
def replay (events : List Event) (g : Graph) : Graph := events.foldl replayStep g

end DeadLockDetect.Analyzer
