import Mathlib.Data.List.Count
import DeadLockDetect.Lib.Dict
import DeadLockDetect.Lib.Run
import DeadLockDetect.Runtime.Wrappers

/-!
# Who holds which lock

The locks of the C library as any number of threads use them through the wrappers: mutexes of every
type, reader-writer locks, spinlocks, and waits on a condition.

## What is transcribed

* `Lock` is a lock with its holders.  A recursive mutex counts how often it was entered again, a
  reader-writer lock lists a thread once for every read lock.
* `Locks.real` is the real function of a call.  A lock function with a result other than `0` changes
  nothing, whatever the error is.  The locks are not robust.
* A wait on a condition gives up its mutex, once, and takes it again before it returns;
  in between the thread does nothing else.  A timed wait that returns `ETIMEDOUT` has taken
  the mutex too.
* As in the C library a holder is known by its thread id.

## What is assumed of the program

A thread unlocks only what it holds, and waits only with a mutex that it holds.  Initialisations,
destructions and waits succeed.  A lock is initialised or destroyed only where no thread holds
a lock or is to take one again; the same goes for a lock that needs no
initialisation and appears at an address (`Interposed.Action.place`).
-/

namespace DeadLockDetect.Runtime

open Analyzer (EvKind LockKind)

/-! ## Locks -/

/-- Who holds a reader-writer lock. -/
inductive RwHolders where
  | readers (ts : List UInt64)
  | writer (t : UInt64)
deriving DecidableEq

/-- A lock and its holders. -/
inductive Lock where
  /-- The owner of a mutex comes with the number of times that it has entered the mutex again. -/
  | mutex (type : MutexType) (owner : Option (UInt64 × Nat))
  | rwlock (holders : RwHolders)
  | spin (owner : Option UInt64)
deriving DecidableEq

namespace Lock

/-- The kind of object that a lock is. -/
def kind : Lock → EvKind
  | mutex _ _ => .mutex
  | rwlock _ => .rwlock
  | spin _ => .spin

/-- How many acquisitions of the lock the thread has not yet released. -/
def held (t : UInt64) : Lock → Nat
  | mutex _ none => 0
  | mutex _ (some (t', again)) => if t = t' then again + 1 else 0
  | rwlock (.readers ts) => ts.count t
  | rwlock (.writer t') => if t = t' then 1 else 0
  | spin owner => if owner = some t then 1 else 0

/-- Some thread holds the lock. -/
def isHeld : Lock → Bool
  | mutex _ owner => owner.isSome
  | rwlock (.readers ts) => !ts.isEmpty
  | rwlock (.writer _) => true
  | spin owner => owner.isSome

/-- A thread is granted the lock; only a recursive mutex is granted to its owner. -/
def acquire (k : LockKind) (t : UInt64) : Lock → Option Lock
  | mutex type none => if k = .mutex then some (mutex type (some (t, 0))) else none
  | mutex type (some (t', again)) =>
      if k = .mutex ∧ type = .recursive ∧ t' = t then some (mutex type (some (t, again + 1)))
      else none
  | rwlock (.readers ts) =>
      if k = .rwlockRd then some (rwlock (.readers (t :: ts)))
      else if k = .rwlockWr ∧ ts = [] then some (rwlock (.writer t))
      else none
  | rwlock (.writer _) => none
  | spin none => if k = .spin then some (spin (some t)) else none
  | spin (some _) => none

/-- A holder gives up one acquisition of the lock. -/
def release (t : UInt64) : Lock → Option Lock
  | mutex _ none => none
  | mutex type (some (t', again)) =>
      if t' = t then some (mutex type (if again = 0 then none else some (t, again - 1))) else none
  | rwlock (.readers ts) => if t ∈ ts then some (rwlock (.readers (ts.erase t))) else none
  | rwlock (.writer t') => if t' = t then some (rwlock (.readers [])) else none
  | spin owner => if owner = some t then some (spin none) else none

theorem held_eq_zero {l : Lock} (h : l.isHeld = false) (t : UInt64) : l.held t = 0 := by
  cases l with
  | mutex type owner =>
      cases owner with
      | none => rfl
      | some _ => cases h
  | rwlock holders =>
      cases holders with
      | readers ts =>
          cases ts with
          | nil => rfl
          | cons _ _ => cases h
      | writer _ => cases h
  | spin owner =>
      cases owner with
      | none => rfl
      | some _ => cases h

/-- What an acquisition adds. -/
theorem held_acquire {k : LockKind} {t : UInt64} {l l' : Lock} (h : l.acquire k t = some l')
    (u : UInt64) : l'.held u = l.held u + if u = t then 1 else 0 := by
  cases l with
  | mutex type owner =>
      cases owner with
      | none =>
          obtain ⟨-, he⟩ := Option.ite_none_right_eq_some.mp h
          cases he
          simp [held]
      | some x =>
          obtain ⟨⟨-, -, ht⟩, he⟩ := Option.ite_none_right_eq_some.mp h
          cases he
          rw [held, held, ht]
          split <;> rfl
  | rwlock holders =>
      cases holders with
      | readers ts =>
          rw [acquire] at h
          split at h
          · cases h
            by_cases hu : u = t
            · simp [held, hu]
            · simp [held, hu, List.count_cons_of_ne (Ne.symm hu)]
          · obtain ⟨⟨-, hts⟩, he⟩ := Option.ite_none_right_eq_some.mp h
            cases he
            rw [hts, held, held, List.count_nil, Nat.zero_add]
      | writer _ => cases h
  | spin owner =>
      cases owner with
      | none =>
          obtain ⟨-, he⟩ := Option.ite_none_right_eq_some.mp h
          cases he
          simp [held, eq_comm]
      | some _ => cases h

/-- What a release takes away. -/
theorem held_release {t : UInt64} {l l' : Lock} (h : l.release t = some l') (u : UInt64) :
    l'.held u + (if u = t then 1 else 0) = l.held u := by
  cases l with
  | mutex type owner =>
      cases owner with
      | none => cases h
      | some x =>
          obtain ⟨t', again⟩ := x
          obtain ⟨ht, he⟩ := Option.ite_none_right_eq_some.mp h
          cases he
          subst ht
          by_cases hagain : again = 0
          · simp [held, hagain]
          · simp only [held, if_neg hagain]
            split <;> omega
  | rwlock holders =>
      cases holders with
      | readers ts =>
          obtain ⟨hmem, he⟩ := Option.ite_none_right_eq_some.mp h
          cases he
          rw [held, held]
          by_cases hu : u = t
          · have hpos : 0 < ts.count t := List.count_pos_iff.mpr hmem
            rw [hu, List.count_erase_self, if_pos rfl]
            omega
          · rw [List.count_erase_of_ne hu, if_neg hu, Nat.add_zero]
      | writer t' =>
          obtain ⟨ht, he⟩ := Option.ite_none_right_eq_some.mp h
          cases he
          rw [held, held, ht, List.count_nil, Nat.zero_add]
  | spin owner =>
      obtain ⟨hown, he⟩ := Option.ite_none_right_eq_some.mp h
      cases he
      simp [held, hown, eq_comm]

end Lock

/-! ## Calls -/

/-- What a call asks of a lock. -/
inductive Effect where
  /-- A lock begins to exist. -/
  | begin (a : UInt64) (l : Lock)
  /-- A lock ceases to exist. -/
  | finish (a : UInt64) (kind : EvKind)
  | acquire (a : UInt64) (k : LockKind)
  | release (a : UInt64) (kind : EvKind)
  /-- A wait takes its mutex again. -/
  | wait (m : UInt64)

/-- What a call asks of a lock. -/
def Call.effect : Call → Effect
  | mutexInit m attr => .begin m (.mutex (attr.getD .normal) none)
  | rwlockInit rw => .begin rw (.rwlock (.readers []))
  | spinInit s => .begin s (.spin none)
  | mutexDestroy m => .finish m .mutex
  | rwlockDestroy rw => .finish rw .rwlock
  | spinDestroy s => .finish s .spin
  | mutexLock m | mutexTrylock m | mutexTimedlock m => .acquire m .mutex
  | rwlockRdlock rw | rwlockTryrdlock rw | rwlockTimedrdlock rw => .acquire rw .rwlockRd
  | rwlockWrlock rw | rwlockTrywrlock rw | rwlockTimedwrlock rw => .acquire rw .rwlockWr
  | spinLock s | spinTrylock s => .acquire s .spin
  | mutexUnlock m => .release m .mutex
  | rwlockUnlock rw => .release rw .rwlock
  | spinUnlock s => .release s .spin
  | condWait _ m | condTimedwait _ m => .wait m

/-- `ETIMEDOUT`. -/
def etimedout : Int32 := 110

/-- With this result the call has done what it was asked for. -/
def Call.Succeeds (rc : Int32) : Call → Prop
  | condTimedwait _ _ => rc = 0 ∨ rc = etimedout
  | _ => rc = 0

instance (rc : Int32) (c : Call) : Decidable (c.Succeeds rc) := by
  cases c <;> unfold Call.Succeeds <;> infer_instance

/-- The locks of a process, and the mutex that each thread in a wait is to take again. -/
structure Locks where
  lock : UInt64 → Option Lock := fun _ ↦ none
  waiting : Dict UInt64 UInt64 := .empty

namespace Locks

/-- How many acquisitions of the lock at `a` the thread has not yet released. -/
def held (s : Locks) (t a : UInt64) : Nat := ((s.lock a).map (Lock.held t)).getD 0

/-- The lock at `a` is held, or a thread is to take it again. -/
def inUse (s : Locks) (a : UInt64) : Bool :=
  (s.lock a).any Lock.isHeld || s.waiting.entries.any fun x ↦ x.2 = a

/-- Replace the lock at `a`. -/
def put (s : Locks) (a : UInt64) (l : Option Lock) : Locks :=
  { s with lock := Function.update s.lock a l }

/-- A lock appears at `a`. -/
def begin (s : Locks) (a : UInt64) (l : Lock) : Option Locks :=
  if a ≠ 0 ∧ l.isHeld = false ∧ s.inUse a = false then some (s.put a (some l)) else none

/-- The thread `t` does what a call asks for. -/
def perform (s : Locks) (t : UInt64) : Effect → Option Locks
  | .begin a l => s.begin a l
  | .finish a kind =>
      if (s.lock a).map Lock.kind = some kind ∧ s.inUse a = false then some (s.put a none) else none
  | .acquire a k => ((s.lock a).bind (Lock.acquire k t)).map fun l ↦ s.put a (some l)
  | .release a kind =>
      if (s.lock a).map Lock.kind = some kind then
        ((s.lock a).bind (Lock.release t)).map fun l ↦ s.put a (some l)
      else none
  | .wait m => ((s.lock m).bind (Lock.acquire .mutex t)).map fun l ↦
      { s.put m (some l) with waiting := s.waiting.filterKeys fun u ↦ u ≠ t }

/-- The real function of a call by the thread `t` that returns `rc`. -/
def real (t : UInt64) (c : Call) (rc : Int32) : Real Locks := fun s ↦
  if c.Succeeds rc then (s.perform t c.effect).map fun s' ↦ (rc, s')
  else match c.effect with
    | .acquire _ _ => some (rc, s)
    | _ => none

/-- The thread `t` gives up the mutex `m` and waits. -/
def wait (s : Locks) (t m : UInt64) : Option Locks :=
  (s.perform t (.release m .mutex)).map fun s' ↦ { s' with waiting := s'.waiting.set t m }

/-- One more acquisition, if the thread is in a wait that is to take the mutex at `a` again. -/
def owed (s : Locks) (t a : UInt64) : Nat := if s.waiting.get? t = some a then 1 else 0

variable {s s' : Locks} {t u a b : UInt64}

theorem held_of_lock {l : Lock} (h : s.lock a = some l) (u : UInt64) : s.held u a = l.held u := by
  rw [held, h]
  rfl

theorem held_put_self (s : Locks) (a u : UInt64) (l : Lock) :
    (s.put a (some l)).held u a = l.held u :=
  held_of_lock (Function.update_self ..) u

theorem held_put_of_ne (h : b ≠ a) (l : Option Lock) (u : UInt64) :
    (s.put a l).held u b = s.held u b := by
  simp only [held, put, Function.update_of_ne h]

theorem held_eq_zero (h : s.inUse a = false) (u : UInt64) : s.held u a = 0 := by
  rw [inUse, Bool.or_eq_false_iff] at h
  rw [held]
  cases hl : s.lock a with
  | none => rfl
  | some l =>
      rw [hl] at h
      exact Lock.held_eq_zero h.1 u

theorem owed_eq_zero (h : s.inUse a = false) (u : UInt64) : s.owed u a = 0 := by
  rw [inUse, Bool.or_eq_false_iff, List.any_eq_false] at h
  refine if_neg fun hw ↦ h.2 _ (Dict.mem_entries_of_get? hw) ?_
  exact decide_eq_true rfl

/-! ### What the effects do to the holders -/

theorem of_begin {l : Lock} (h : s.begin a l = some s') :
    a ≠ 0 ∧ l.isHeld = false ∧ s.inUse a = false ∧ s' = s.put a (some l) := by
  obtain ⟨⟨ha, hl, huse⟩, he⟩ := Option.ite_none_right_eq_some.mp h
  exact ⟨ha, hl, huse, (Option.some.inj he).symm⟩

theorem of_acquire {k : LockKind} (h : s.perform t (.acquire a k) = some s') :
    ∃ l l', s.lock a = some l ∧ l.acquire k t = some l' ∧ s' = s.put a (some l') := by
  obtain ⟨l', hl', rfl⟩ := Option.map_eq_some_iff.mp h
  obtain ⟨l, hl, hacq⟩ := Option.bind_eq_some_iff.mp hl'
  exact ⟨l, l', hl, hacq, rfl⟩

theorem of_release {kind : EvKind} (h : s.perform t (.release a kind) = some s') :
    ∃ l l', s.lock a = some l ∧ l.release t = some l' ∧ s' = s.put a (some l') := by
  obtain ⟨-, h⟩ := Option.ite_none_right_eq_some.mp h
  obtain ⟨l', hl', rfl⟩ := Option.map_eq_some_iff.mp h
  obtain ⟨l, hl, hrel⟩ := Option.bind_eq_some_iff.mp hl'
  exact ⟨l, l', hl, hrel, rfl⟩

theorem of_wait (h : s.perform t (.wait a) = some s') :
    ∃ l l', s.lock a = some l ∧ l.acquire .mutex t = some l' ∧
      s' = { s.put a (some l') with waiting := s.waiting.filterKeys fun u ↦ u ≠ t } := by
  obtain ⟨l', hl', rfl⟩ := Option.map_eq_some_iff.mp h
  obtain ⟨l, hl, hacq⟩ := Option.bind_eq_some_iff.mp hl'
  exact ⟨l, l', hl, hacq, rfl⟩

/-- An acquisition counts for the thread that makes it. -/
theorem held_put_acquire {k : LockKind} {l l' : Lock} (hl : s.lock a = some l)
    (h : l.acquire k t = some l') (u b : UInt64) :
    (s.put a (some l')).held u b = s.held u b + if u = t ∧ b = a then 1 else 0 := by
  by_cases hb : b = a
  · rw [hb, held_put_self, held_of_lock hl, Lock.held_acquire h]
    simp only [and_true]
  · rw [held_put_of_ne hb, if_neg fun hab ↦ hb hab.2]
    rfl

theorem held_put_release {l l' : Lock} (hl : s.lock a = some l) (h : l.release t = some l')
    (u b : UInt64) :
    (s.put a (some l')).held u b + (if u = t ∧ b = a then 1 else 0) = s.held u b := by
  by_cases hb : b = a
  · rw [hb, held_put_self, held_of_lock hl, ← Lock.held_release h]
    simp only [and_true]
  · rw [held_put_of_ne hb, if_neg fun hab ↦ hb hab.2]
    rfl

end Locks

/-- The mutex that a thread is to take again at the end of the call. -/
def Call.waitsFor : Call → Option UInt64
  | condWait _ m | condTimedwait _ m => some m
  | _ => none

theorem Call.waitsFor_of_effect {c : Call} {m : UInt64} (h : c.effect = .wait m) :
    c.waitsFor = some m := by
  cases c <;> cases h <;> rfl

theorem Call.succeeds_of_eq_zero {c : Call} {rc : Int32} (h : rc = 0) : c.Succeeds rc := by
  cases c with
  | condTimedwait => exact Or.inl h
  | _ => exact h

theorem Call.eq_zero_of_succeeds {c : Call} {a : UInt64} {k : LockKind} {rc : Int32}
    (h : c.effect = .acquire a k) (hc : c.Succeeds rc) : rc = 0 := by
  cases c <;> cases h <;> exact hc

/-! ## Runs -/

/-- The locks of a process and the events that were logged. -/
structure Interposed where
  locks : Locks := {}
  log : List LogEvent := []

namespace Interposed

/-- What can happen next. -/
inductive Action where
  /-- A lock that needs no initialisation appears. -/
  | place (a : UInt64) (l : Lock)
  /-- A thread begins to wait with a mutex. -/
  | wait (t m : UInt64)
  /-- A thread makes a call, or comes to the end of a wait, and the real function returns `rc`. -/
  | call (t : UInt64) (c : Call) (rc : Int32) (tsNs : UInt64) (pcs : Pcs)

/-- One step.  A thread in a wait does nothing but end it. -/
def step (s : Interposed) : Action → Option Interposed
  | .place a l => (s.locks.begin a l).map fun locks ↦ { s with locks }
  | .wait t m =>
      if s.locks.waiting.get? t = none then
        (s.locks.wait t m).map fun locks ↦ { s with locks }
      else none
  | .call t c rc tsNs pcs =>
      if s.locks.waiting.get? t = c.waitsFor then
        (c.wrapper (Locks.real t c rc) (s.locks, [])).map fun x ↦
          ⟨x.2.1, s.log ++ x.2.2.map fun e ↦ e.logEvent t tsNs pcs⟩
      else none

/-- A call that returns has done what it was asked for, or it is a lock function that was refused. -/
theorem of_call {s s' : Interposed} {t : UInt64} {c : Call} {rc : Int32} {tsNs : UInt64}
    {pcs : Pcs} (h : s.step (.call t c rc tsNs pcs) = some s') :
    s.locks.waiting.get? t = c.waitsFor ∧
      s'.log = s.log ++ [(c.logged rc).logEvent t tsNs pcs] ∧
      (c.Succeeds rc ∧ s.locks.perform t c.effect = some s'.locks ∨
        ¬ c.Succeeds rc ∧ (∃ a k, c.effect = .acquire a k) ∧ s'.locks = s.locks) := by
  obtain ⟨ht, h⟩ := Option.ite_none_right_eq_some.mp h
  rw [Call.wrapper_apply] at h
  obtain ⟨x, hx, rfl⟩ := Option.map_eq_some_iff.mp h
  obtain ⟨y, hy, rfl⟩ := Option.map_eq_some_iff.mp hx
  refine ⟨ht, ?_⟩
  rw [Locks.real] at hy
  split at hy
  · rename_i hc
    obtain ⟨locks, hlocks, rfl⟩ := Option.map_eq_some_iff.mp hy
    exact ⟨rfl, Or.inl ⟨hc, hlocks⟩⟩
  · rename_i hc
    split at hy
    · rename_i a k he
      cases hy
      exact ⟨rfl, Or.inr ⟨hc, ⟨a, k, he⟩, rfl⟩⟩
    · cases hy

/-- A run. -/
def exec (s : Interposed) (as : List Action) : Option Interposed := Run.run step s as

end Interposed

end DeadLockDetect.Runtime
