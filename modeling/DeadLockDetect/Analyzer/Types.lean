import Mathlib.Data.Prod.Lex

/-!
# Events, locks and edges

The data of the offline analyzer: `events.py` (operation codes, object kinds and
lock kinds) and `types.py` (frames, modules, lock identities, held-lock nodes,
edges and events).  Python integers are `Int`; a generation starts at `1` and only counts
up, and a hold count never leaves the positive numbers, so both are `Nat`.

`LockId` is ordered by `(addr, gen)`, the order in which `cycles.py` compares the
vertices of a cycle.
-/

namespace DeadLockDetect.Analyzer

/-- Operation codes of trace events; the numeric values are those of the runtime. -/
inductive EvOp where
  | init | destroy
  | lockPre | lockPost
  | trylockPre | trylockPost
  | timedlockPre | timedlockPost
  | unlock
  | rdlockPre | rdlockPost
  | tryrdlockPre | tryrdlockPost
  | timedrdlockPre | timedrdlockPost
  | wrlockPre | wrlockPost
  | trywrlockPre | trywrlockPost
  | timedwrlockPre | timedwrlockPost
  | condWaitPre | condWaitPost
  | condTimedwaitPre | condTimedwaitPost
deriving DecidableEq, Repr

/-- The kind of object an event is about. -/
inductive EvKind where
  | mutex | rwlock | spin | cond
deriving DecidableEq, Repr

/-- The mode in which a lock is held or requested. -/
inductive LockKind where
  | mutex | rwlockRd | rwlockWr | spin
deriving DecidableEq, Repr

/-- The name of a lock kind in the report. -/
def kindName : LockKind → String
  | .mutex => "mutex"
  | .rwlockRd => "rwlock(rd)"
  | .rwlockWr => "rwlock(wr)"
  | .spin => "spinlock"

/-- One stack frame: the trace gives `pc`, the symbolizer fills in the rest. -/
structure Frame where
  pc : Int := 0
  func : String := ""
  module : String := ""
  offset : Int := 0
  file : String := ""
  line : Nat := 0
deriving DecidableEq, Repr

/-- A backtrace. -/
abbrev Bt := List Frame

/-- A lock lifetime: the generation tells apart the locks that successively live at
one address. -/
structure LockId where
  addr : Int
  gen : Nat
deriving DecidableEq, Repr

namespace LockId

/-- The tuple `(addr, gen)` by which lock lifetimes are compared. -/
def key (x : LockId) : Int ×ₗ Nat := toLex (x.addr, x.gen)

theorem key_injective : Function.Injective key := by
  rintro ⟨a, g⟩ ⟨b, h⟩ e
  have e' : (a, g) = (b, h) := toLex.injective e
  cases e'
  rfl

instance : LinearOrder LockId := LinearOrder.lift' key key_injective

end LockId

/-- What is known about a lock lifetime. -/
structure LockMeta where
  kind : LockKind := .mutex
  recursive : Bool := false
  gen : Nat := 1
  alive : Bool := true
  initBt : Bt := []
  initTid : Int := 0
deriving DecidableEq, Repr

/-- An entry of a thread's stack of held locks. -/
structure LockNode where
  id : LockId
  kind : LockKind := .mutex
  holdCount : Nat := 1
  acquireBt : Bt := []
  acquireTid : Int := 0
deriving DecidableEq, Repr

/-- A lock-order edge: `to` was requested while `frm` was held. -/
structure EdgeKey where
  frm : LockId
  «to» : LockId
deriving DecidableEq, Repr

/-- The context in which an edge was first recorded. -/
structure EdgeInfo where
  tid : Int := 0
  fromKind : LockKind := .mutex
  toKind : LockKind := .mutex
  btFrom : Bt := []
  btTo : Bt := []
deriving DecidableEq, Repr

/-- One `M` record of the trace: a module that was loaded into the process. -/
structure Module where
  idx : Int := 0
  base : Int := 0
  size : Int := 0
  buildId : List Char := ['-']
  path : List Char := []
deriving DecidableEq, Repr

/-- One `E` record of the trace with its `F` records. -/
structure Event where
  tsNs : Int := 0
  tid : Int := 0
  op : EvOp := .init
  kind : EvKind := .mutex
  addr : Int := 0
  rc : Int := 0
  bt : Bt := []
deriving DecidableEq, Repr

end DeadLockDetect.Analyzer
