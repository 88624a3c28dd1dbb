import Mathlib.Algebra.GroupWithZero.Nat
import Mathlib.Logic.Function.Basic
import DeadLockDetect.Analyzer.Types
import DeadLockDetect.Lib.Run

/-!
# The mutex wrappers

`interpose_mutex.cpp`: any number of threads call the interposed `pthread_mutex_lock` and
`pthread_mutex_unlock` on any set of mutexes that are not recursive.

## What is transcribed

* `WrapperPc` is the position of a thread in a wrapper.  Calling the wrapper, the real function and
  `DL_EV` are separate steps.  `pthread_mutex_lock` logs `LOCK_POST` after the real function has
  returned; `pthread_mutex_unlock` logs `UNLOCK` before it calls the real function.
* The real functions are those of the C library.  Locking a free mutex succeeds.  A mutex that is
  held blocks the caller until it is free, except that an error-checking mutex refuses the thread
  that holds it.  Unlocking a mutex that the thread does not hold fails and changes nothing, as POSIX
  says of an error-checking mutex; what it does to another one is left open there.
* `log` lists the events in the order in which they are logged.  The time and the
  backtrace of an event are whatever the step says.
* Calls that are passed on without logging, because the library is not ready yet or is
  itself the caller, are left out.
-/

namespace DeadLockDetect.Runtime

open Analyzer

/-- The position of a thread in a wrapper. -/
inductive WrapperPc where
  /-- Outside. -/
  | outside
  /-- In the real `pthread_mutex_lock`. -/
  | realLock (m : Int)
  /-- About to log `LOCK_POST`. -/
  | lockPost (m rc : Int)
  /-- About to log `UNLOCK`. -/
  | unlock (m : Int)
  /-- In the real `pthread_mutex_unlock`. -/
  | realUnlock (m : Int)
deriving DecidableEq

/-- The threads and the mutexes of a process, with what was logged. -/
structure Mutexes where
  owner : Int → Option Int := fun _ ↦ none
  pc : Int → WrapperPc := fun _ ↦ .outside
  log : List Event := []

/-- The error of a thread that locks an error-checking mutex twice. -/
def edeadlk : Int := 35

/-- The real `pthread_mutex_lock`, once it can return: the owners afterwards and the
return code. -/
def realLock (errorcheck : Int → Bool) (owner : Int → Option Int) (m t : Int) :
    Option ((Int → Option Int) × Int) :=
  match owner m with
  | none => some (Function.update owner m (some t), 0)
  | some t' => if t' = t ∧ errorcheck m then some (owner, edeadlk) else none

/-- The real `pthread_mutex_unlock`: the owners afterwards.  A thread that is not the owner is
refused. -/
def realUnlock (owner : Int → Option Int) (m t : Int) : Int → Option Int :=
  if owner m = some t then Function.update owner m none else owner

/-- The event of a `pthread_mutex_lock` that has returned. -/
def lockPostEvent (t m rc tsNs : Int) (bt : Bt) : Event :=
  { tsNs, tid := t, op := .lockPost, kind := .mutex, addr := m, rc, bt }

/-- The event of a `pthread_mutex_unlock`. -/
def unlockEvent (t m tsNs : Int) (bt : Bt) : Event :=
  { tsNs, tid := t, op := .unlock, kind := .mutex, addr := m, rc := 0, bt }

namespace Mutexes

/-- Move a thread. -/
def setPc (s : Mutexes) (t : Int) (pc : WrapperPc) : Mutexes :=
  { s with pc := Function.update s.pc t pc }

/-- What can happen next. -/
inductive Action where
  /-- A thread calls `pthread_mutex_lock`. -/
  | lock (t m : Int)
  /-- A thread calls `pthread_mutex_unlock`. -/
  | unlock (t m : Int)
  /-- A thread goes on in a wrapper. -/
  | go (t tsNs : Int) (bt : Bt)

section

variable (errorcheck : Int → Bool)

/-- One step. -/
def step (s : Mutexes) : Action → Option Mutexes
  | .lock t m => if s.pc t = .outside then some (s.setPc t (.realLock m)) else none
  | .unlock t m => if s.pc t = .outside then some (s.setPc t (.unlock m)) else none
  | .go t tsNs bt => match s.pc t with
    | .outside => none
    | .realLock m => (Runtime.realLock errorcheck s.owner m t).map fun x ↦
        { s.setPc t (.lockPost m x.2) with owner := x.1 }
    | .lockPost m rc =>
        some { s.setPc t .outside with log := s.log ++ [lockPostEvent t m rc tsNs bt] }
    | .unlock m =>
        some { s.setPc t (.realUnlock m) with log := s.log ++ [unlockEvent t m tsNs bt] }
    | .realUnlock m =>
        some { s.setPc t .outside with owner := Runtime.realUnlock s.owner m t }

/-- A run. -/
def exec (s : Mutexes) (as : List Action) : Option Mutexes := Run.run (step errorcheck) s as

end

/-- What a step has done. -/
inductive Stepped (s : Mutexes) : Action → Mutexes → Prop where
  | lock {t m : Int} (hpc : s.pc t = .outside) : Stepped s (.lock t m) (s.setPc t (.realLock m))
  | unlock {t m : Int} (hpc : s.pc t = .outside) : Stepped s (.unlock t m) (s.setPc t (.unlock m))
  /-- The real lock function has taken the mutex. -/
  | granted {t m tsNs : Int} {bt : Bt} (hpc : s.pc t = .realLock m) (hfree : s.owner m = none) :
      Stepped s (.go t tsNs bt)
        { s.setPc t (.lockPost m 0) with owner := Function.update s.owner m (some t) }
  /-- The thread holds the mutex, which checks for errors. -/
  | refused {t m tsNs : Int} {bt : Bt} (hpc : s.pc t = .realLock m) :
      Stepped s (.go t tsNs bt) (s.setPc t (.lockPost m edeadlk))
  | lockPost {t m rc tsNs : Int} {bt : Bt} (hpc : s.pc t = .lockPost m rc) :
      Stepped s (.go t tsNs bt)
        { s.setPc t .outside with log := s.log ++ [lockPostEvent t m rc tsNs bt] }
  | logUnlock {t m tsNs : Int} {bt : Bt} (hpc : s.pc t = .unlock m) :
      Stepped s (.go t tsNs bt)
        { s.setPc t (.realUnlock m) with log := s.log ++ [unlockEvent t m tsNs bt] }
  | realUnlock {t m tsNs : Int} {bt : Bt} (hpc : s.pc t = .realUnlock m) :
      Stepped s (.go t tsNs bt)
        { s.setPc t .outside with owner := Runtime.realUnlock s.owner m t }

theorem stepped_of_step {errorcheck : Int → Bool} {s s' : Mutexes} {a : Action}
    (hs : s.step errorcheck a = some s') : s.Stepped a s' := by
  cases a with
  | lock t m =>
      obtain ⟨hpc, he⟩ := Option.ite_none_right_eq_some.mp hs
      cases he
      exact .lock hpc
  | unlock t m =>
      obtain ⟨hpc, he⟩ := Option.ite_none_right_eq_some.mp hs
      cases he
      exact .unlock hpc
  | go t tsNs bt =>
      rw [step] at hs
      cases hpc : s.pc t with
      | outside =>
          rw [hpc] at hs
          cases hs
      | realLock m =>
          rw [hpc] at hs
          obtain ⟨⟨owner, rc⟩, hlock, rfl⟩ := Option.map_eq_some_iff.mp hs
          rw [Runtime.realLock] at hlock
          split at hlock
          · rename_i hfree
            cases hlock
            exact .granted hpc hfree
          · obtain ⟨-, he⟩ := Option.ite_none_right_eq_some.mp hlock
            cases he
            exact .refused hpc
      | lockPost m rc =>
          rw [hpc] at hs
          cases hs
          exact .lockPost hpc
      | unlock m =>
          rw [hpc] at hs
          cases hs
          exact .logUnlock hpc
      | realUnlock m =>
          rw [hpc] at hs
          cases hs
          exact .realUnlock hpc

/-- The threads wait for each other in a circle: each is blocked in `pthread_mutex_lock`
on a mutex that the next one holds. -/
structure CircularWait (s : Mutexes) {n : Nat} [NeZero n] (ts ms : Fin n → Int) : Prop where
  two_le : 2 ≤ n
  distinct : Function.Injective ts
  waits : ∀ i, s.pc (ts i) = .realLock (ms i)
  held : ∀ i, s.owner (ms i) = some (ts (i + 1))

end Mutexes

end DeadLockDetect.Runtime
