import DeadLockDetect.Runtime.EventBin

/-!
# The wrappers and the events they log

`interpose_mutex.cpp`, `interpose_rwlock.cpp`, `interpose_spin.cpp` and `interpose_cond.cpp`: every
interposed function calls the real one and logs one event.

## What is transcribed

* `Real σ` is a real function: it changes the state `σ` of the locks and returns an `int`, or does
  not return.  A wrapper is given the real function and collects the calls of `DL_EV`, so that
  the order of both is that of the source.
* `logAfter` and `logBefore` are the two orders.  Most wrappers log the return code;
  `pthread_mutex_init` puts flags into its slot if it is `0`, and a wait always the address of its
  mutex.
* `Call.logged` is the event that a call logs, read off the wrappers by `Call.wrapper_apply`.

The calls that are passed on without logging, because the library is not ready yet or is itself
the caller, are left out.
-/

namespace DeadLockDetect.Runtime

open Analyzer (EvOp EvKind)

/-- The types of a mutex. -/
inductive MutexType where
  | normal | recursive | errorcheck | adaptive
deriving DecidableEq, Repr

/-- The arguments of `DL_EV`. -/
structure DlEv where
  op : EvOp
  kind : EvKind
  addr : UInt64
  rcOrFlags : Int64
deriving DecidableEq

/-- The program counters of an event, at most `kMaxFramesInline`. -/
abbrev Pcs : Type := {pcs : List UInt64 // pcs.length ≤ 64}

theorem length_nil_le : ([] : List UInt64).length ≤ 64 := Nat.zero_le 64

/-- No program counters. -/
def noPcs : Pcs := ⟨[], length_nil_le⟩

/-- The event that `log_event` makes of the arguments of `DL_EV`. -/
def DlEv.logEvent (e : DlEv) (tid tsNs : UInt64) (pcs : Pcs) : LogEvent where
  tsNs := tsNs
  tid := tid
  addr := e.addr
  rcOrFlags := e.rcOrFlags
  op := e.op
  kind := e.kind
  pcs := pcs.val
  pcs_le := pcs.property

/-- A function of the C library that works on the state `σ`. -/
abbrev Real (σ : Type) : Type := σ → Option (Int32 × σ)

/-- Code of a wrapper: the events that were logged stand beside the state. -/
abbrev Logging (σ α : Type) : Type := StateT (σ × List DlEv) Option α

/-- A wrapper of a real function. -/
abbrev Wrapper (σ : Type) : Type := Real σ → Logging σ Int32

section

variable {σ : Type}

/-- Call the real function. -/
def callReal (real : Real σ) : Logging σ Int32 := fun s ↦
  (real s.1).map fun x ↦ (x.1, x.2, s.2)

/-- Log an event. -/
def dlEv (e : DlEv) : Logging σ Unit := fun s ↦ some ((), s.1, s.2 ++ [e])

/-- A wrapper that logs after the real function has returned. -/
def logAfter (e : Int32 → DlEv) (real : Real σ) : Logging σ Int32 := do
  let rc ← callReal real
  dlEv (e rc)
  return rc

/-- A wrapper that logs before it calls the real function. -/
def logBefore (e : DlEv) (real : Real σ) : Logging σ Int32 := do
  dlEv e
  callReal real

theorem logAfter_apply (e : Int32 → DlEv) (real : Real σ) (s : σ) (log : List DlEv) :
    logAfter e real (s, log) = (real s).map fun x ↦ (x.1, x.2, log ++ [e x.1]) := by
  show ((real s).map fun x ↦ (x.1, x.2, log)).bind
    (fun x ↦ some (x.1, x.2.1, x.2.2 ++ [e x.1])) = _
  rw [Option.bind_map, Option.map_eq_bind]
  rfl

theorem logBefore_apply (e : DlEv) (real : Real σ) (s : σ) (log : List DlEv) :
    logBefore e real (s, log) = (real s).map fun x ↦ (x.1, x.2, log ++ [e]) := rfl

/-- A wrapper that logs what the real function has returned. -/
def logRc (op : EvOp) (kind : EvKind) (addr : UInt64) : Wrapper σ :=
  logAfter fun rc ↦ ⟨op, kind, addr, rc.toInt64⟩

/-- A wrapper that logs the mutex of a wait in place of what the real function has returned. -/
def logWait (op : EvOp) (c m : UInt64) : Wrapper σ :=
  logAfter fun _ ↦ ⟨op, .cond, c, m.toInt64⟩

/-! ## `interpose_mutex.cpp` -/

def pthreadMutexInit (m : UInt64) (attr : Option MutexType) : Wrapper σ :=
  logAfter fun rc ↦
    let flags : Int64 := if attr = some .recursive then 1 else 0
    ⟨.init, .mutex, m, if rc = 0 then flags else rc.toInt64⟩

def pthreadMutexDestroy (m : UInt64) : Wrapper σ := logBefore ⟨.destroy, .mutex, m, 0⟩

def pthreadMutexLock (m : UInt64) : Wrapper σ := logRc .lockPost .mutex m

def pthreadMutexTrylock (m : UInt64) : Wrapper σ := logRc .trylockPost .mutex m

def pthreadMutexTimedlock (m : UInt64) : Wrapper σ := logRc .timedlockPost .mutex m

def pthreadMutexUnlock (m : UInt64) : Wrapper σ := logBefore ⟨.unlock, .mutex, m, 0⟩

/-! ## `interpose_rwlock.cpp` -/

def pthreadRwlockInit (rw : UInt64) : Wrapper σ := logRc .init .rwlock rw

def pthreadRwlockDestroy (rw : UInt64) : Wrapper σ := logBefore ⟨.destroy, .rwlock, rw, 0⟩

def pthreadRwlockRdlock (rw : UInt64) : Wrapper σ := logRc .rdlockPost .rwlock rw

def pthreadRwlockTryrdlock (rw : UInt64) : Wrapper σ := logRc .tryrdlockPost .rwlock rw

def pthreadRwlockTimedrdlock (rw : UInt64) : Wrapper σ := logRc .timedrdlockPost .rwlock rw

def pthreadRwlockWrlock (rw : UInt64) : Wrapper σ := logRc .wrlockPost .rwlock rw

def pthreadRwlockTrywrlock (rw : UInt64) : Wrapper σ := logRc .trywrlockPost .rwlock rw

def pthreadRwlockTimedwrlock (rw : UInt64) : Wrapper σ := logRc .timedwrlockPost .rwlock rw

def pthreadRwlockUnlock (rw : UInt64) : Wrapper σ := logBefore ⟨.unlock, .rwlock, rw, 0⟩

/-! ## `interpose_spin.cpp` -/

def pthreadSpinInit (s : UInt64) : Wrapper σ := logRc .init .spin s

def pthreadSpinDestroy (s : UInt64) : Wrapper σ := logBefore ⟨.destroy, .spin, s, 0⟩

def pthreadSpinLock (s : UInt64) : Wrapper σ := logRc .lockPost .spin s

def pthreadSpinTrylock (s : UInt64) : Wrapper σ := logRc .trylockPost .spin s

def pthreadSpinUnlock (s : UInt64) : Wrapper σ := logBefore ⟨.unlock, .spin, s, 0⟩

/-! ## `interpose_cond.cpp` -/

def pthreadCondWait (c m : UInt64) : Wrapper σ := logWait .condWaitPost c m

def pthreadCondTimedwait (c m : UInt64) : Wrapper σ := logWait .condTimedwaitPost c m

end

/-! ## Calls -/

/-- A call of an interposed function. -/
inductive Call where
  | mutexInit (m : UInt64) (attr : Option MutexType)
  | mutexDestroy (m : UInt64)
  | mutexLock (m : UInt64)
  | mutexTrylock (m : UInt64)
  | mutexTimedlock (m : UInt64)
  | mutexUnlock (m : UInt64)
  | rwlockInit (rw : UInt64)
  | rwlockDestroy (rw : UInt64)
  | rwlockRdlock (rw : UInt64)
  | rwlockTryrdlock (rw : UInt64)
  | rwlockTimedrdlock (rw : UInt64)
  | rwlockWrlock (rw : UInt64)
  | rwlockTrywrlock (rw : UInt64)
  | rwlockTimedwrlock (rw : UInt64)
  | rwlockUnlock (rw : UInt64)
  | spinInit (s : UInt64)
  | spinDestroy (s : UInt64)
  | spinLock (s : UInt64)
  | spinTrylock (s : UInt64)
  | spinUnlock (s : UInt64)
  | condWait (c m : UInt64)
  | condTimedwait (c m : UInt64)
deriving DecidableEq

namespace Call

/-- The wrapper that is called. -/
def wrapper {σ : Type} : Call → Wrapper σ
  | mutexInit m attr => pthreadMutexInit m attr
  | mutexDestroy m => pthreadMutexDestroy m
  | mutexLock m => pthreadMutexLock m
  | mutexTrylock m => pthreadMutexTrylock m
  | mutexTimedlock m => pthreadMutexTimedlock m
  | mutexUnlock m => pthreadMutexUnlock m
  | rwlockInit rw => pthreadRwlockInit rw
  | rwlockDestroy rw => pthreadRwlockDestroy rw
  | rwlockRdlock rw => pthreadRwlockRdlock rw
  | rwlockTryrdlock rw => pthreadRwlockTryrdlock rw
  | rwlockTimedrdlock rw => pthreadRwlockTimedrdlock rw
  | rwlockWrlock rw => pthreadRwlockWrlock rw
  | rwlockTrywrlock rw => pthreadRwlockTrywrlock rw
  | rwlockTimedwrlock rw => pthreadRwlockTimedwrlock rw
  | rwlockUnlock rw => pthreadRwlockUnlock rw
  | spinInit s => pthreadSpinInit s
  | spinDestroy s => pthreadSpinDestroy s
  | spinLock s => pthreadSpinLock s
  | spinTrylock s => pthreadSpinTrylock s
  | spinUnlock s => pthreadSpinUnlock s
  | condWait c m => pthreadCondWait c m
  | condTimedwait c m => pthreadCondTimedwait c m

/-- The event that the call logs if the real function returns `rc`. -/
def logged (rc : Int32) : Call → DlEv
  | mutexInit m attr =>
      ⟨.init, .mutex, m, if rc = 0 then if attr = some .recursive then 1 else 0 else rc.toInt64⟩
  | mutexDestroy m => ⟨.destroy, .mutex, m, 0⟩
  | mutexLock m => ⟨.lockPost, .mutex, m, rc.toInt64⟩
  | mutexTrylock m => ⟨.trylockPost, .mutex, m, rc.toInt64⟩
  | mutexTimedlock m => ⟨.timedlockPost, .mutex, m, rc.toInt64⟩
  | mutexUnlock m => ⟨.unlock, .mutex, m, 0⟩
  | rwlockInit rw => ⟨.init, .rwlock, rw, rc.toInt64⟩
  | rwlockDestroy rw => ⟨.destroy, .rwlock, rw, 0⟩
  | rwlockRdlock rw => ⟨.rdlockPost, .rwlock, rw, rc.toInt64⟩
  | rwlockTryrdlock rw => ⟨.tryrdlockPost, .rwlock, rw, rc.toInt64⟩
  | rwlockTimedrdlock rw => ⟨.timedrdlockPost, .rwlock, rw, rc.toInt64⟩
  | rwlockWrlock rw => ⟨.wrlockPost, .rwlock, rw, rc.toInt64⟩
  | rwlockTrywrlock rw => ⟨.trywrlockPost, .rwlock, rw, rc.toInt64⟩
  | rwlockTimedwrlock rw => ⟨.timedwrlockPost, .rwlock, rw, rc.toInt64⟩
  | rwlockUnlock rw => ⟨.unlock, .rwlock, rw, 0⟩
  | spinInit s => ⟨.init, .spin, s, rc.toInt64⟩
  | spinDestroy s => ⟨.destroy, .spin, s, 0⟩
  | spinLock s => ⟨.lockPost, .spin, s, rc.toInt64⟩
  | spinTrylock s => ⟨.trylockPost, .spin, s, rc.toInt64⟩
  | spinUnlock s => ⟨.unlock, .spin, s, 0⟩
  | condWait c m => ⟨.condWaitPost, .cond, c, m.toInt64⟩
  | condTimedwait c m => ⟨.condTimedwaitPost, .cond, c, m.toInt64⟩

/-- Every wrapper returns what the real function returns, and logs one event. -/
theorem wrapper_apply {σ : Type} (c : Call) (real : Real σ) (s : σ) (log : List DlEv) :
    c.wrapper real (s, log) = (real s).map fun x ↦ (x.1, x.2, log ++ [c.logged x.1]) := by
  cases c with
  | mutexDestroy | mutexUnlock | rwlockDestroy | rwlockUnlock | spinDestroy | spinUnlock =>
      exact logBefore_apply _ real s log
  | _ => exact logAfter_apply _ real s log

end Call

end DeadLockDetect.Runtime
