import DeadLockDetect.Runtime.Wrappers
import DeadLockDetect.Lib.Run

/-!
# The real functions and the bypass

`real_symbols.cpp` and `bypass.h`: any number of threads call the wrappers, also from inside of
one another.  The first call of a wrapper whose real function is not known resolves all of them, in
`init_once`; the threads that come meanwhile spin.  A wrapper that finds the library not ready, or
itself the caller, passes the call on without logging.

## What is transcribed

* `Activation` is a wrapper that was called and has not returned, and `stack` has the frames of each
  thread, the innermost first.  A call can come at any point of another: the real function, `dlsym`
  and the allocation of a ring may all come back to a wrapper, and so may a signal handler.
* `init_once` is a step for `compare_exchange_strong`, one for each look at `g_ready`, one for each
  pointer, and one for setting `g_ready`.  `resolve` aborts the process if there is no function.
* `ScopedBypass` counts `g_bypass_depth` up and down in a wrapper, in `log_event`, in `current_ring`
  and in `backend_register_ring`.  `backend_main` sets it to 1000.  The scopes of
  `capture_backtrace_fast`, `dump_module_map`, `backend_start` and `backend_join` are left out, and
  so are the calls of wrappers from inside of the last three.
* The real function returns what it likes, if at all.  The memory for a ring may be missing.
* `deadlock_lib_init` calls `init_once` before it opens the log and starts the backend, so both are
  steps of a library that is ready.

`resolved`, `told` and `returned` are histories: the pointers that were assigned, the calls of
`DL_EV` in each thread, and the calls that have returned there.
-/

namespace DeadLockDetect.Runtime

/-- The interposed functions, in the order in which `init_once` resolves them. -/
inductive Fn where
  | mutexInit | mutexDestroy | mutexLock | mutexTrylock | mutexTimedlock | mutexUnlock
  | rwlockInit | rwlockDestroy | rwlockRdlock | rwlockTryrdlock | rwlockTimedrdlock
  | rwlockWrlock | rwlockTrywrlock | rwlockTimedwrlock | rwlockUnlock
  | spinInit | spinDestroy | spinLock | spinTrylock | spinUnlock
  | condWait | condTimedwait
deriving DecidableEq

namespace Fn

/-- The functions in the order of `init_once`. -/
def all : List Fn :=
  [mutexInit, mutexDestroy, mutexLock, mutexTrylock, mutexTimedlock, mutexUnlock,
    rwlockInit, rwlockDestroy, rwlockRdlock, rwlockTryrdlock, rwlockTimedrdlock,
    rwlockWrlock, rwlockTrywrlock, rwlockTimedwrlock, rwlockUnlock,
    spinInit, spinDestroy, spinLock, spinTrylock, spinUnlock, condWait, condTimedwait]

theorem mem_all (f : Fn) : f ∈ all := by cases f <;> decide

theorem nodup_all : all.Nodup := by decide

/-- Whether a version of the function is asked for. -/
def versioned (f : Fn) : Bool := f = condWait ∨ f = condTimedwait

end Fn

namespace Call

/-- The function that is called. -/
def fn : Call → Fn
  | mutexInit _ _ => .mutexInit
  | mutexDestroy _ => .mutexDestroy
  | mutexLock _ => .mutexLock
  | mutexTrylock _ => .mutexTrylock
  | mutexTimedlock _ => .mutexTimedlock
  | mutexUnlock _ => .mutexUnlock
  | rwlockInit _ => .rwlockInit
  | rwlockDestroy _ => .rwlockDestroy
  | rwlockRdlock _ => .rwlockRdlock
  | rwlockTryrdlock _ => .rwlockTryrdlock
  | rwlockTimedrdlock _ => .rwlockTimedrdlock
  | rwlockWrlock _ => .rwlockWrlock
  | rwlockTrywrlock _ => .rwlockTrywrlock
  | rwlockTimedwrlock _ => .rwlockTimedwrlock
  | rwlockUnlock _ => .rwlockUnlock
  | spinInit _ => .spinInit
  | spinDestroy _ => .spinDestroy
  | spinLock _ => .spinLock
  | spinTrylock _ => .spinTrylock
  | spinUnlock _ => .spinUnlock
  | condWait _ _ => .condWait
  | condTimedwait _ _ => .condTimedwait

/-- Whether the wrapper logs before it calls the real function. -/
def logsFirst : Call → Bool
  | mutexDestroy _ | mutexUnlock _ | rwlockDestroy _ | rwlockUnlock _ | spinDestroy _
  | spinUnlock _ => true
  | _ => false

theorem wrapper_eq {σ : Type} (c : Call) (real : Real σ) :
    c.wrapper real =
      if c.logsFirst then logBefore (c.logged 0) real else logAfter (c.logged ·) real := by
  cases c <;> rfl

/-- What a wrapper logs before it calls the real function does not depend on what it returns. -/
theorem logged_of_logsFirst {c : Call} (h : c.logsFirst = true) (rc : Int32) :
    c.logged rc = c.logged 0 := by
  cases c with
  | mutexDestroy | mutexUnlock | rwlockDestroy | rwlockUnlock | spinDestroy | spinUnlock => rfl
  | _ => cases h

end Call

/-- The position in a wrapper. -/
inductive ActivationPc where
  /-- About to look whether the real function is known. -/
  | enter
  /-- In `init_once`, about to exchange `state`. -/
  | exchange
  /-- In `init_once`, about to look at `g_ready`. -/
  | spin
  /-- In `init_once`, with these pointers to assign. -/
  | resolve (todo : List Fn)
  /-- About to ask `should_bypass`. -/
  | shouldBypass
  /-- In the real function, and nothing is logged. -/
  | bypassed
  /-- In the real function, whose call is logged. -/
  | real
  /-- About to call `log_event`. -/
  | dlEv (rc : Int32)
  /-- In `log_event`, up to the call of `current_ring`. -/
  | logEvent (rc : Int32)
  /-- In `current_ring`, allocating. -/
  | currentRing (rc : Int32)
  /-- In `backend_register_ring`. -/
  | registerRing (rc : Int32)
  /-- In `log_event`, with a ring. -/
  | commit (rc : Int32)
deriving DecidableEq

namespace ActivationPc

/-- How often `ScopedBypass` is alive. -/
def scopes : ActivationPc → Nat
  | .real | .dlEv _ => 1
  | .logEvent _ | .commit _ => 2
  | .currentRing _ => 3
  | .registerRing _ => 4
  | _ => 0

end ActivationPc

/-- A wrapper that was called and has not returned. -/
structure Activation where
  call : Call
  pc : ActivationPc
deriving DecidableEq

namespace Activation

/-- The call is logged, and has come past `should_bypass`. -/
def inScope (fr : Activation) : Bool := fr.pc.scopes != 0

/-- The real functions that are called at this point. -/
def calling (fr : Activation) : List Fn :=
  match fr.pc with
  | .bypassed | .real => [fr.call.fn]
  | .registerRing _ => [.mutexLock, .mutexUnlock]
  | _ => []

/-- The pointers that the frame is still to assign. -/
def todo? (fr : Activation) : Option (List Fn) :=
  match fr.pc with
  | .resolve todo => some todo
  | _ => none

/-- What is left of the wrapper when `log_event` has returned. -/
def afterEv? (fr : Activation) : Option Activation :=
  if fr.call.logsFirst then some ⟨fr.call, .real⟩ else none

theorem eq_of_mem_afterEv? {fr g : Activation} (hg : g ∈ fr.afterEv?) : g = ⟨fr.call, .real⟩ := by
  unfold afterEv? at hg
  split at hg <;> cases hg
  rfl

end Activation

/-- A call that has returned. -/
structure Returned where
  call : Call
  rc : Int32
  /-- The call was not made inside of one that is logged. -/
  own : Bool
deriving DecidableEq

/-- The wrappers of a process, where `F` are the functions of the C library. -/
structure Interposer (F : Type) where
  state : Bool := false
  ready : Bool := false
  real : Fn → Option F := fun _ ↦ none
  aborted : Bool := false
  logEnabled : Bool := false
  bypassDepth : Nat → Int := fun _ ↦ 0
  hasRing : Nat → Bool := fun _ ↦ false
  backend : Nat → Bool := fun _ ↦ false
  stack : Nat → List Activation := fun _ ↦ []
  resolved : List Fn := []
  rings : Nat → Nat := fun _ ↦ 0
  told : Nat → List DlEv := fun _ ↦ []
  returned : Nat → List Returned := fun _ ↦ []

namespace Interposer

variable {F : Type}

/-- Nothing has been called. -/
def init : Interposer F := {}

/-- Another stack. -/
def setStack (s : Interposer F) (t : Nat) (st : List Activation) : Interposer F :=
  { s with stack := Function.update s.stack t st }

/-- `g_bypass_depth` goes up, or down. -/
def addDepth (s : Interposer F) (t : Nat) (n : Int) : Interposer F :=
  { s with bypassDepth := Function.update s.bypassDepth t (s.bypassDepth t + n) }

/-- The frame returns. -/
def ret (s : Interposer F) (t : Nat) (fr : Activation) (rest : List Activation) (rc : Int32) :
    Interposer F :=
  { s.setStack t rest with
    returned := Function.update s.returned t
      (s.returned t ++ [⟨fr.call, rc, rest.all fun g ↦ !g.inScope⟩]) }

/-- `log_event` has returned to the wrapper. -/
def afterEv (s : Interposer F) (t : Nat) (fr : Activation) (rest : List Activation) (rc : Int32) :
    Interposer F :=
  if fr.call.logsFirst then s.setStack t (⟨fr.call, .real⟩ :: rest)
  else (s.ret t fr rest rc).addDepth t (-1)

theorem stack_afterEv (s : Interposer F) (t : Nat) (fr : Activation) (rest : List Activation) (rc : Int32) :
    (s.afterEv t fr rest rc).stack = Function.update s.stack t (fr.afterEv?.toList ++ rest) := by
  unfold afterEv Activation.afterEv?
  split <;> rfl

/-- `DL_EV` is called. -/
def tell (s : Interposer F) (t : Nat) (e : DlEv) : Interposer F :=
  { s with told := Function.update s.told t (s.told t ++ [e]) }

/-- What can happen next. -/
inductive Action where
  /-- A wrapper is called, whatever the thread is in the middle of. -/
  | call (t : Nat) (c : Call)
  /-- The innermost wrapper of the thread goes on. -/
  | go (t : Nat)
  /-- The real function returns to the innermost wrapper of the thread. -/
  | realReturn (t : Nat) (rc : Int32)
  /-- A ring is allocated, if there is memory. -/
  | newRing (t : Nat) (ok : Bool)
  /-- The log is opened, or closed. -/
  | setLog (enabled : Bool)
  /-- `backend_main` begins. -/
  | backendMain (t : Nat)
deriving DecidableEq

section

variable (dlsym dlvsym : Fn → Option F)

/-- `resolve`, or `resolve_versioned`. -/
def resolve (f : Fn) : Option F :=
  if f.versioned then (dlvsym f).or (dlsym f) else dlsym f

/-- The innermost wrapper goes on. -/
def go (s : Interposer F) (t : Nat) (fr : Activation) (rest : List Activation) : Option (Interposer F) :=
  match fr.pc with
  | .enter =>
      let pc := if (s.real fr.call.fn).isNone then .exchange else .shouldBypass
      some (s.setStack t (⟨fr.call, pc⟩ :: rest))
  | .exchange =>
      if s.state then some (s.setStack t (⟨fr.call, .spin⟩ :: rest))
      else some { s.setStack t (⟨fr.call, .resolve Fn.all⟩ :: rest) with state := true }
  | .spin =>
      some (if s.ready then s.setStack t (⟨fr.call, .shouldBypass⟩ :: rest) else s)
  | .resolve (f :: fs) => match resolve dlsym dlvsym f with
    | none => some { s with aborted := true }
    | some p => some
        { s.setStack t (⟨fr.call, .resolve fs⟩ :: rest) with
          real := Function.update s.real f (some p)
          resolved := s.resolved ++ [f] }
  | .resolve [] => some { s.setStack t (⟨fr.call, .shouldBypass⟩ :: rest) with ready := true }
  | .shouldBypass =>
      if 0 < s.bypassDepth t ∨ s.ready = false then
        some (s.setStack t (⟨fr.call, .bypassed⟩ :: rest))
      else
        let pc := if fr.call.logsFirst then .dlEv 0 else .real
        some ((s.setStack t (⟨fr.call, pc⟩ :: rest)).addDepth t 1)
  | .dlEv rc =>
      let s := s.tell t (fr.call.logged rc)
      if s.logEnabled then some ((s.setStack t (⟨fr.call, .logEvent rc⟩ :: rest)).addDepth t 1)
      else some (s.afterEv t fr rest rc)
  | .logEvent rc =>
      if s.hasRing t then some (s.setStack t (⟨fr.call, .commit rc⟩ :: rest))
      else some ((s.setStack t (⟨fr.call, .currentRing rc⟩ :: rest)).addDepth t 1)
  | .registerRing rc =>
      some ((s.setStack t (⟨fr.call, .commit rc⟩ :: rest)).addDepth t (-2))
  | .commit rc => some ((s.addDepth t (-1)).afterEv t fr rest rc)
  | .bypassed | .real | .currentRing _ => none

/-- The real function returns. -/
def realReturn (s : Interposer F) (t : Nat) (fr : Activation) (rest : List Activation) (rc : Int32) :
    Option (Interposer F) :=
  match fr.pc with
  | .bypassed => some (s.ret t fr rest rc)
  | .real =>
      if fr.call.logsFirst then some ((s.ret t fr rest rc).addDepth t (-1))
      else some (s.setStack t (⟨fr.call, .dlEv rc⟩ :: rest))
  | _ => none

/-- The ring is allocated, and `backend_register_ring` is called; or there is no memory, and
`log_event` returns. -/
def newRing (s : Interposer F) (t : Nat) (fr : Activation) (rest : List Activation) (ok : Bool) :
    Option (Interposer F) :=
  match fr.pc with
  | .currentRing rc =>
      if ok then some
        { (s.setStack t (⟨fr.call, .registerRing rc⟩ :: rest)).addDepth t 1 with
          hasRing := Function.update s.hasRing t true
          rings := Function.update s.rings t (s.rings t + 1) }
      else some ((s.addDepth t (-2)).afterEv t fr rest rc)
  | _ => none

/-- What the innermost wrapper of a thread does. -/
def innermost (s : Interposer F) (t : Nat)
    (f : Activation → List Activation → Option (Interposer F)) : Option (Interposer F) :=
  match s.stack t with
  | [] => none
  | fr :: rest => f fr rest

/-- One step of a process that was not aborted. -/
def step (s : Interposer F) (a : Action) : Option (Interposer F) :=
  if s.aborted then none else match a with
  | .call t c => some (s.setStack t (⟨c, .enter⟩ :: s.stack t))
  | .go t => s.innermost t (go dlsym dlvsym s t)
  | .realReturn t rc => s.innermost t fun fr rest ↦ s.realReturn t fr rest rc
  | .newRing t ok => s.innermost t fun fr rest ↦ s.newRing t fr rest ok
  | .setLog enabled =>
      if enabled = true → s.ready = true then some { s with logEnabled := enabled } else none
  | .backendMain t =>
      if s.ready = true ∧ s.stack t = [] ∧ s.told t = [] then
        some { s with
          bypassDepth := Function.update s.bypassDepth t 1000
          backend := Function.update s.backend t true }
      else none

/-- A run. -/
def exec (s : Interposer F) (as : List Action) : Option (Interposer F) :=
  Run.run (step dlsym dlvsym) s as

end

variable {dlsym dlvsym : Fn → Option F}

/-- What a step has done. -/
inductive Stepped (dlsym dlvsym : Fn → Option F) (s : Interposer F) :
    Action → Interposer F → Prop where
  | call {t : Nat} {c : Call} :
      Stepped dlsym dlvsym s (.call t c) (s.setStack t (⟨c, .enter⟩ :: s.stack t))
  | unknown {t : Nat} {c : Call} {rest : List Activation} (hst : s.stack t = ⟨c, .enter⟩ :: rest)
      (hreal : s.real c.fn = none) :
      Stepped dlsym dlvsym s (.go t) (s.setStack t (⟨c, .exchange⟩ :: rest))
  | known {t : Nat} {c : Call} {rest : List Activation} (hst : s.stack t = ⟨c, .enter⟩ :: rest)
      (hreal : s.real c.fn ≠ none) :
      Stepped dlsym dlvsym s (.go t) (s.setStack t (⟨c, .shouldBypass⟩ :: rest))
  | lost {t : Nat} {c : Call} {rest : List Activation} (hst : s.stack t = ⟨c, .exchange⟩ :: rest)
      (hstate : s.state = true) :
      Stepped dlsym dlvsym s (.go t) (s.setStack t (⟨c, .spin⟩ :: rest))
  | won {t : Nat} {c : Call} {rest : List Activation} (hst : s.stack t = ⟨c, .exchange⟩ :: rest)
      (hstate : s.state = false) :
      Stepped dlsym dlvsym s (.go t)
        { s.setStack t (⟨c, .resolve Fn.all⟩ :: rest) with state := true }
  | spun {t : Nat} {c : Call} {rest : List Activation} (hst : s.stack t = ⟨c, .spin⟩ :: rest)
      (hready : s.ready = true) :
      Stepped dlsym dlvsym s (.go t) (s.setStack t (⟨c, .shouldBypass⟩ :: rest))
  | spinning {t : Nat} {c : Call} {rest : List Activation} (hst : s.stack t = ⟨c, .spin⟩ :: rest)
      (hready : s.ready = false) : Stepped dlsym dlvsym s (.go t) s
  | abort {t : Nat} {c : Call} {rest : List Activation} {f : Fn} {fs : List Fn}
      (hst : s.stack t = ⟨c, .resolve (f :: fs)⟩ :: rest)
      (hf : Interposer.resolve dlsym dlvsym f = none) :
      Stepped dlsym dlvsym s (.go t) { s with aborted := true }
  | assign {t : Nat} {c : Call} {rest : List Activation} {f : Fn} {fs : List Fn} {p : F}
      (hst : s.stack t = ⟨c, .resolve (f :: fs)⟩ :: rest)
      (hf : Interposer.resolve dlsym dlvsym f = some p) :
      Stepped dlsym dlvsym s (.go t)
        { s.setStack t (⟨c, .resolve fs⟩ :: rest) with
          real := Function.update s.real f (some p)
          resolved := s.resolved ++ [f] }
  | finish {t : Nat} {c : Call} {rest : List Activation}
      (hst : s.stack t = ⟨c, .resolve []⟩ :: rest) :
      Stepped dlsym dlvsym s (.go t)
        { s.setStack t (⟨c, .shouldBypass⟩ :: rest) with ready := true }
  | pass {t : Nat} {c : Call} {rest : List Activation}
      (hst : s.stack t = ⟨c, .shouldBypass⟩ :: rest)
      (hpass : 0 < s.bypassDepth t ∨ s.ready = false) :
      Stepped dlsym dlvsym s (.go t) (s.setStack t (⟨c, .bypassed⟩ :: rest))
  | scope {t : Nat} {c : Call} {rest : List Activation}
      (hst : s.stack t = ⟨c, .shouldBypass⟩ :: rest)
      (hdepth : s.bypassDepth t ≤ 0) (hready : s.ready = true) :
      Stepped dlsym dlvsym s (.go t)
        ((s.setStack t (⟨c, if c.logsFirst then .dlEv 0 else .real⟩ :: rest)).addDepth t 1)
  | tell {t : Nat} {c : Call} {rest : List Activation} {rc : Int32}
      (hst : s.stack t = ⟨c, .dlEv rc⟩ :: rest) (hlog : s.logEnabled = true) :
      Stepped dlsym dlvsym s (.go t)
        ((((s.tell t (c.logged rc)).setStack t (⟨c, .logEvent rc⟩ :: rest))).addDepth t 1)
  | ignored {t : Nat} {c : Call} {rest : List Activation} {rc : Int32}
      (hst : s.stack t = ⟨c, .dlEv rc⟩ :: rest) (hlog : s.logEnabled = false) :
      Stepped dlsym dlvsym s (.go t)
        ((s.tell t (c.logged rc)).afterEv t ⟨c, .dlEv rc⟩ rest rc)
  | hasRing {t : Nat} {c : Call} {rest : List Activation} {rc : Int32}
      (hst : s.stack t = ⟨c, .logEvent rc⟩ :: rest) (hring : s.hasRing t = true) :
      Stepped dlsym dlvsym s (.go t) (s.setStack t (⟨c, .commit rc⟩ :: rest))
  | noRing {t : Nat} {c : Call} {rest : List Activation} {rc : Int32}
      (hst : s.stack t = ⟨c, .logEvent rc⟩ :: rest) (hring : s.hasRing t = false) :
      Stepped dlsym dlvsym s (.go t)
        ((s.setStack t (⟨c, .currentRing rc⟩ :: rest)).addDepth t 1)
  | registered {t : Nat} {c : Call} {rest : List Activation} {rc : Int32}
      (hst : s.stack t = ⟨c, .registerRing rc⟩ :: rest) :
      Stepped dlsym dlvsym s (.go t)
        ((s.setStack t (⟨c, .commit rc⟩ :: rest)).addDepth t (-2))
  | commit {t : Nat} {c : Call} {rest : List Activation} {rc : Int32}
      (hst : s.stack t = ⟨c, .commit rc⟩ :: rest) :
      Stepped dlsym dlvsym s (.go t) ((s.addDepth t (-1)).afterEv t ⟨c, .commit rc⟩ rest rc)
  | passed {t : Nat} {c : Call} {rest : List Activation} {rc : Int32}
      (hst : s.stack t = ⟨c, .bypassed⟩ :: rest) :
      Stepped dlsym dlvsym s (.realReturn t rc) (s.ret t ⟨c, .bypassed⟩ rest rc)
  | realLast {t : Nat} {c : Call} {rest : List Activation} {rc : Int32}
      (hst : s.stack t = ⟨c, .real⟩ :: rest) (hc : c.logsFirst = true) :
      Stepped dlsym dlvsym s (.realReturn t rc)
        ((s.ret t ⟨c, .real⟩ rest rc).addDepth t (-1))
  | realFirst {t : Nat} {c : Call} {rest : List Activation} {rc : Int32}
      (hst : s.stack t = ⟨c, .real⟩ :: rest) (hc : c.logsFirst = false) :
      Stepped dlsym dlvsym s (.realReturn t rc) (s.setStack t (⟨c, .dlEv rc⟩ :: rest))
  | newRing {t : Nat} {c : Call} {rest : List Activation} {rc : Int32}
      (hst : s.stack t = ⟨c, .currentRing rc⟩ :: rest) :
      Stepped dlsym dlvsym s (.newRing t true)
        { (s.setStack t (⟨c, .registerRing rc⟩ :: rest)).addDepth t 1 with
          hasRing := Function.update s.hasRing t true
          rings := Function.update s.rings t (s.rings t + 1) }
  | noMemory {t : Nat} {c : Call} {rest : List Activation} {rc : Int32}
      (hst : s.stack t = ⟨c, .currentRing rc⟩ :: rest) :
      Stepped dlsym dlvsym s (.newRing t false)
        ((s.addDepth t (-2)).afterEv t ⟨c, .currentRing rc⟩ rest rc)
  | setLog {enabled : Bool} (hready : enabled = true → s.ready = true) :
      Stepped dlsym dlvsym s (.setLog enabled) { s with logEnabled := enabled }
  | backendMain {t : Nat} (hready : s.ready = true) (hst : s.stack t = [])
      (htold : s.told t = []) :
      Stepped dlsym dlvsym s (.backendMain t)
        { s with
          bypassDepth := Function.update s.bypassDepth t 1000
          backend := Function.update s.backend t true }

theorem innermost_eq_some {s s' : Interposer F} {t : Nat}
    {f : Activation → List Activation → Option (Interposer F)} (h : s.innermost t f = some s') :
    ∃ c pc rest, s.stack t = ⟨c, pc⟩ :: rest ∧ f ⟨c, pc⟩ rest = some s' := by
  rw [innermost] at h
  cases hst : s.stack t with
  | nil =>
      rw [hst] at h
      cases h
  | cons fr rest =>
      rw [hst] at h
      exact ⟨fr.call, fr.pc, rest, rfl, h⟩

theorem stepped_of_go {s s' : Interposer F} {t : Nat} {c : Call} {pc : ActivationPc}
    {rest : List Activation} (hst : s.stack t = ⟨c, pc⟩ :: rest)
    (hs : s.go dlsym dlvsym t ⟨c, pc⟩ rest = some s') :
    Stepped dlsym dlvsym s (.go t) s' := by
  cases pc with
  | enter =>
      cases hs
      cases hreal : s.real c.fn with
      | none => exact .unknown hst hreal
      | some p => exact .known hst (by rw [hreal]; nofun)
  | exchange =>
      dsimp only [go] at hs
      split at hs <;> rename_i hstate <;> cases hs
      · exact .lost hst hstate
      · exact .won hst (Bool.eq_false_of_not_eq_true hstate)
  | spin =>
      cases hs
      cases hready : s.ready with
      | true => exact .spun hst hready
      | false => exact .spinning hst hready
  | resolve todo =>
      cases todo with
      | nil =>
          cases hs
          exact .finish hst
      | cons f fs =>
          dsimp only [go] at hs
          split at hs <;> rename_i hf <;> cases hs
          · exact .abort hst hf
          · exact .assign hst hf
  | shouldBypass =>
      dsimp only [go] at hs
      split at hs <;> rename_i hpass <;> cases hs
      · exact .pass hst hpass
      · rw [not_or, not_lt, Bool.not_eq_false] at hpass
        exact .scope hst hpass.1 hpass.2
  | dlEv rc =>
      dsimp only [go] at hs
      split at hs <;> rename_i hlog <;> cases hs
      · exact .tell hst hlog
      · exact .ignored hst (Bool.eq_false_of_not_eq_true hlog)
  | logEvent rc =>
      dsimp only [go] at hs
      split at hs <;> rename_i hring <;> cases hs
      · exact .hasRing hst hring
      · exact .noRing hst (Bool.eq_false_of_not_eq_true hring)
  | registerRing rc =>
      cases hs
      exact .registered hst
  | commit rc =>
      cases hs
      exact .commit hst
  | bypassed | real | currentRing rc => cases hs

theorem stepped_of_step {s s' : Interposer F} {a : Action}
    (hs : s.step dlsym dlvsym a = some s') :
    s.aborted = false ∧ Stepped dlsym dlvsym s a s' := by
  unfold step at hs
  split at hs
  · cases hs
  rename_i hab
  refine ⟨Bool.eq_false_of_not_eq_true hab, ?_⟩
  cases a with
  | call t c =>
      cases hs
      exact .call
  | go t =>
      obtain ⟨c, pc, rest, hst, hgo⟩ := innermost_eq_some hs
      exact stepped_of_go hst hgo
  | realReturn t rc =>
      obtain ⟨c, pc, rest, hst, hret⟩ := innermost_eq_some hs
      cases pc with
      | bypassed =>
          cases hret
          exact .passed hst
      | real =>
          dsimp only [realReturn] at hret
          split at hret <;> rename_i hc <;> cases hret
          · exact .realLast hst hc
          · exact .realFirst hst (Bool.eq_false_of_not_eq_true hc)
      | _ => cases hret
  | newRing t ok =>
      obtain ⟨c, pc, rest, hst, hnew⟩ := innermost_eq_some hs
      cases pc with
      | currentRing rc =>
          cases ok <;> cases hnew
          · exact .noMemory hst
          · exact .newRing hst
      | _ => cases hnew
  | setLog enabled =>
      obtain ⟨hready, he⟩ := Option.ite_none_right_eq_some.mp hs
      cases he
      exact .setLog hready
  | backendMain t =>
      obtain ⟨⟨hready, hst, htold⟩, he⟩ := Option.ite_none_right_eq_some.mp hs
      cases he
      exact .backendMain hready hst htold

end Interposer

end DeadLockDetect.Runtime
