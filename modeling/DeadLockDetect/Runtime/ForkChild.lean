import DeadLockDetect.Lib.Run
import DeadLockDetect.Runtime.Backend

/-!
# The rings in a forked child

A ring is known in three places: `t_ring` and the value under `g_ring_key` of its thread, and the
registry of the backend.  A forked child has only the forking thread.  `atfork_child` clears
`t_ring` there, deletes every ring of the registry and clears the registry; the value under the key
stays, and when the thread ends `ring_tls_destructor` is called with it.

## What is transcribed

* `Library` is what one process keeps of its rings.  A run follows the child at a fork.
* The registry is the list of the rings that are reached from `g_registry_head`.
* `new` may fail, and it does not return the memory of a ring in the registry.
* A round of the backend and the last rounds of `log_close` delete some of the dead rings of the
  registry, those that are empty.  The backend runs until the end of `log_close`; a child has no
  backend.
* Whether a `FILE` is open is all that is kept of `g_fp`, and `t_tid` is left out.
* A thread forks outside of the functions of the library.  The other threads may be anywhere: what
  is proved about a fork is proved for every state of the parent.
-/

namespace DeadLockDetect.Runtime

/-- What a thread knows of its ring. -/
structure ThreadRings where
  tRing : Option RingId := none
  keyValue : Option RingId := none
deriving DecidableEq

/-- What a process keeps of its rings. -/
structure Library where
  registry : List RingId := []
  producerDead : RingId → Bool := fun _ ↦ false
  threads : Nat → ThreadRings := fun _ ↦ {}
  logEnabled : Bool
  fp : Bool
  backend : Bool

namespace Library

/-! ## The functions -/

/-- The process when `log_init` has succeeded or failed. -/
def logInit (ok : Bool) : Library where
  logEnabled := ok
  fp := ok
  backend := ok

/-- `backend_register_ring` -/
def backendRegisterRing (s : Library) (r : RingId) : Library :=
  { s with registry := r :: s.registry }

/-- `backend_mark_ring_dead` -/
def backendMarkRingDead (s : Library) (r : RingId) : Library :=
  { s with producerDead := Function.update s.producerDead r true }

/-- `current_ring`: the ring of the thread, if there is one; `mem` is what `new` returns. -/
def currentRing (s : Library) (t : Nat) (mem : Option RingId) : Library :=
  match (s.threads t).tRing, mem with
  | some _, _ => s
  | none, none => s
  | none, some r =>
      backendRegisterRing
        { s with
          producerDead := Function.update s.producerDead r false
          threads := Function.update s.threads t ⟨some r, some r⟩ } r

/-- `ring_tls_destructor` -/
def ringTlsDestructor (s : Library) : Option RingId → Library
  | none => s
  | some r => s.backendMarkRingDead r

/-- `log_event`. -/
def logEvent (s : Library) (t : Nat) (mem : Option RingId) : Library :=
  if s.logEnabled then s.currentRing t mem else s

/-- The thread `t` ends: the value under its key is cleared, and the destructor is called with it. -/
def exitThread (s : Library) (t : Nat) : Library :=
  ringTlsDestructor { s with threads := Function.update s.threads t ⟨(s.threads t).tRing, none⟩ }
    (s.threads t).keyValue

/-- `scan_all_rings_once`: of the dead rings those in `empty` are deleted. -/
def scan (s : Library) (empty : List RingId) : Library :=
  { s with registry := s.registry.filter fun r ↦ !(s.producerDead r && empty.contains r) }

/-- `log_close` disables the log. -/
def logClose (s : Library) : Library := { s with logEnabled := false }

/-- The end of `log_close`: the backend has ended, and the last rounds are done. -/
def logClosed (s : Library) (empty : List RingId) : Library :=
  { s.scan empty with fp := false, backend := false }

/-- `reset_thread_state_for_fork` -/
def resetThreadStateForFork (s : Library) (t : Nat) : Library :=
  { s with threads := Function.update s.threads t ⟨none, (s.threads t).keyValue⟩ }

/-- `backend_fork_child_reset` -/
def backendForkChildReset (s : Library) : Library := { s with registry := [], backend := false }

/-- The log is open for `log_close_fast_for_fork_child`. -/
def logOpen (s : Library) : Bool := s.logEnabled || s.fp

/-- `log_close_fast_for_fork_child` -/
def logCloseFastForForkChild (s : Library) : Library :=
  if s.logOpen then { s.backendForkChildReset with logEnabled := false, fp := false } else s

/-- `atfork_child` -/
def atforkChild (s : Library) (t : Nat) : Library :=
  (s.resetThreadStateForFork t).logCloseFastForForkChild

/-- The child of a process in which the thread `t` has called `fork`. -/
def forkChild (s : Library) (t : Nat) : Library :=
  let child := { s with threads := fun u ↦ if u = t then s.threads t else {}, backend := false }
  child.atforkChild t

/-- The rings that `backend_fork_child_reset` deletes in the child. -/
def deletedByFork (s : Library) : List RingId := if s.logOpen then s.registry else []

/-! ## Runs -/

/-- What can happen next. -/
inductive LibraryAction where
  /-- The thread calls `log_event`. -/
  | logEvent (t : Nat) (mem : Option RingId)
  | exitThread (t : Nat)
  /-- A round of the backend. -/
  | scan (empty : List RingId)
  | logClose
  /-- The end of a `log_close` that has begun. -/
  | logClosed (empty : List RingId)
  /-- The thread calls `fork`. -/
  | fork (t : Nat)

/-- One step. -/
def step (s : Library) : LibraryAction → Option Library
  | .logEvent t mem => if ∀ r ∈ mem, r ∉ s.registry then some (s.logEvent t mem) else none
  | .exitThread t => some (s.exitThread t)
  | .scan empty => if s.backend then some (s.scan empty) else none
  | .logClose => some s.logClose
  | .logClosed empty => if !s.logEnabled && s.fp then some (s.logClosed empty) else none
  | .fork t => some (s.forkChild t)

/-- The rings that a step reads or writes through a pointer. -/
def follows (s : Library) : LibraryAction → List RingId
  | .logEvent t _ => if s.logEnabled then (s.threads t).tRing.toList else []
  | .exitThread t => (s.threads t).keyValue.toList
  | .scan _ => s.registry
  | .logClose => []
  | .logClosed _ => s.registry
  | .fork _ => s.deletedByFork

/-- The step follows a pointer to one of the rings `rs`. -/
def Touches (rs : List RingId) (s : Library) (a : LibraryAction) : Prop := ∃ r ∈ s.follows a, r ∈ rs

/-- No pointer of the library is to one of the rings `rs`. -/
structure Clear (rs : List RingId) (s : Library) : Prop where
  tRing : ∀ t r, (s.threads t).tRing = some r → r ∉ rs
  keyValue : ∀ t r, (s.threads t).keyValue = some r → r ∉ rs
  registry : ∀ r ∈ s.registry, r ∉ rs

/-! ## The child -/

section Child

variable {rs : List RingId} {s s' : Library} {a : LibraryAction} {t : Nat}

/-- The state of a child: the log is closed, and no pointer is to one of the rings `rs`. -/
structure Quiet (rs : List RingId) (s : Library) : Prop where
  logEnabled : s.logEnabled = false
  fp : s.fp = false
  backend : s.backend = false
  clear : s.Clear rs

/-- Fewer pointers are clear as well. -/
theorem Clear.mono (h : s.Clear rs)
    (hring : ∀ u r, (s'.threads u).tRing = some r → (s.threads u).tRing = some r)
    (hkey : ∀ u r, (s'.threads u).keyValue = some r → (s.threads u).keyValue = some r)
    (hreg : ∀ r ∈ s'.registry, r ∈ s.registry) : s'.Clear rs where
  tRing u r hr := h.tRing u r (hring u r hr)
  keyValue u r hr := h.keyValue u r (hkey u r hr)
  registry r hr := h.registry r (hreg r hr)

/-- The end of a thread clears its key. -/
theorem exitThread_eq (s : Library) (t : Nat) : ∃ dead, s.exitThread t =
    { s with
      producerDead := dead
      threads := Function.update s.threads t ⟨(s.threads t).tRing, none⟩ } := by
  rw [exitThread]
  cases (s.threads t).keyValue with
  | none => exact ⟨s.producerDead, rfl⟩
  | some r => exact ⟨_, rfl⟩

/-- What is left in the child: the forking thread without its `t_ring`, and a closed log. -/
theorem forkChild_eq (s : Library) (t : Nat) : s.forkChild t =
    { s with
      registry := if s.logOpen then [] else s.registry
      threads := fun u ↦ if u = t then ⟨none, (s.threads t).keyValue⟩ else {}
      logEnabled := false
      fp := false
      backend := false } := by
  have hthreads : Function.update (fun u ↦ if u = t then s.threads t else {}) t
      (⟨none, (s.threads t).keyValue⟩ : ThreadRings) =
        fun u ↦ if u = t then ⟨none, (s.threads t).keyValue⟩ else {} := by
    funext u
    rw [Function.update_apply]
    split
    · rfl
    · rfl
  obtain ⟨registry, dead, threads, logEnabled, fp, backend⟩ := s
  have hreset : resetThreadStateForFork
      ⟨registry, dead, fun u ↦ if u = t then threads t else {}, logEnabled, fp, false⟩ t =
        ⟨registry, dead, fun u ↦ if u = t then ⟨none, (threads t).keyValue⟩ else {}, logEnabled, fp,
          false⟩ := by
    rw [resetThreadStateForFork, ← hthreads]
    simp only [if_true]
  rw [forkChild, atforkChild, hreset]
  cases logEnabled with
  | true => rfl
  | false =>
      cases fp with
      | true => rfl
      | false => rfl

/-- The pointers of the child are among those of the parent. -/
theorem Clear.forkChild (h : s.Clear rs) : (s.forkChild t).Clear rs := by
  rw [forkChild_eq]
  refine h.mono (fun u r hr ↦ ?_) (fun u r hr ↦ ?_) fun r hr ↦ ?_
  · dsimp only at hr
    split at hr
    · cases hr
    · cases hr
  · dsimp only at hr
    split at hr
    · rename_i hu
      rwa [hu]
    · cases hr
  · dsimp only at hr
    split at hr
    · cases hr
    · exact hr

/-! ### What every step keeps -/

/-- What the steps of a child do: some pointers are cleared. -/
theorem Quiet.step (h : s.Quiet rs) (hs : s.step a = some s') : s'.Quiet rs := by
  obtain ⟨henabled, hfp, hbackend, hclear⟩ := h
  cases a with
  | logEvent t mem =>
      rw [Library.step] at hs
      split at hs
      · cases hs
        rw [Library.logEvent, if_neg (by rw [henabled]; decide)]
        exact ⟨henabled, hfp, hbackend, hclear⟩
      · cases hs
  | exitThread t =>
      obtain ⟨dead, heq⟩ := s.exitThread_eq t
      rw [Library.step, heq] at hs
      cases hs
      refine ⟨henabled, hfp, hbackend, hclear.mono (fun u r hr ↦ ?_) (fun u r hr ↦ ?_) fun _ ↦ id⟩
      · dsimp only at hr
        rw [Function.update_apply] at hr
        split at hr
        · rename_i hu
          rwa [hu]
        · exact hr
      · dsimp only at hr
        rw [Function.update_apply] at hr
        split at hr
        · cases hr
        · exact hr
  | scan empty =>
      rw [Library.step, hbackend] at hs
      cases hs
  | logClose =>
      cases hs
      exact ⟨rfl, hfp, hbackend, hclear.tRing, hclear.keyValue, hclear.registry⟩
  | logClosed empty =>
      rw [Library.step, hfp, Bool.and_false] at hs
      cases hs
  | fork t =>
      have hchild := hclear.forkChild (t := t)
      rw [forkChild_eq] at hchild
      rw [Library.step, forkChild_eq] at hs
      cases hs
      exact ⟨rfl, rfl, rfl, hchild⟩

/-- A child touches none of the rings. -/
theorem Quiet.not_touches (h : s.Quiet rs) : ¬ s.Touches rs a := by
  rintro ⟨r, hr, hrs⟩
  cases a with
  | logEvent t mem =>
      rw [follows, h.logEnabled] at hr
      cases hr
  | exitThread t => exact h.clear.keyValue t r (Option.mem_toList.mp hr) hrs
  | scan empty => exact h.clear.registry r hr hrs
  | logClose => cases hr
  | logClosed empty => exact h.clear.registry r hr hrs
  | fork t =>
      rw [follows, deletedByFork, logOpen, h.logEnabled, h.fp] at hr
      cases hr

/-- The child after `atfork_child`, if the key of the forking thread holds no deleted ring. -/
theorem quiet_forkChild (h : ∀ r, (s.threads t).keyValue = some r → r ∉ s.deletedByFork) :
    (s.forkChild t).Quiet s.deletedByFork := by
  rw [forkChild_eq]
  refine ⟨rfl, rfl, rfl, fun u r hr ↦ ?_, fun u r hr ↦ ?_, fun r hr ↦ ?_⟩
  · dsimp only at hr
    split at hr
    · cases hr
    · cases hr
  · dsimp only at hr
    split at hr
    · exact h r hr
    · cases hr
  · dsimp only at hr
    rw [deletedByFork]
    split at hr
    · cases hr
    · rename_i hopen
      rw [if_neg hopen]
      exact List.not_mem_nil

/-- The key of the forking thread in the child. -/
theorem forkChild_keyValue (s : Library) (t : Nat) :
    ((s.forkChild t).threads t).keyValue = (s.threads t).keyValue := by
  rw [forkChild_eq]
  dsimp only
  rw [if_pos rfl]

/-- The key of the forking thread holds no ring that is deleted in the child. -/
theorem keyValue_notMem_iff :
    (∀ r, (s.threads t).keyValue = some r → r ∉ s.deletedByFork) ↔
      (s.logEnabled = false ∧ s.fp = false) ∨
        ∀ r, (s.threads t).keyValue = some r → r ∉ s.registry := by
  rw [← Bool.or_eq_false_iff]
  cases hopen : s.logEnabled || s.fp with
  | true =>
      have hdel : s.deletedByFork = s.registry := if_pos hopen
      rw [hdel]
      exact (or_iff_right (by decide)).symm
  | false =>
      have hdel : s.deletedByFork = [] := if_neg (by rw [logOpen, hopen]; decide)
      rw [hdel]
      exact iff_of_true (fun _ _ ↦ List.not_mem_nil) (.inl rfl)

/-- The end of the forking thread, right after the fork. -/
theorem touches_exitThread {r : RingId} (hkey : (s.threads t).keyValue = some r)
    (hdel : r ∈ s.deletedByFork) :
    Run.Took Library.step (Touches s.deletedByFork) (s.forkChild t) [.exitThread t] := by
  refine ⟨[], .exitThread t, [], s.forkChild t, rfl, rfl, r, ?_, hdel⟩
  rw [follows, forkChild_keyValue, hkey]
  exact List.mem_singleton_self r

end Child

/-! ## The process before the fork -/

/-- The rings under the keys of the threads are registered, one for each thread, and not yet dead. -/
structure Registered (s : Library) : Prop where
  mem : ∀ t r, (s.threads t).keyValue = some r → r ∈ s.registry
  alive : ∀ t r, (s.threads t).keyValue = some r → s.producerDead r = false
  eq : ∀ t u r, (s.threads t).keyValue = some r → (s.threads u).keyValue = some r → t = u

section Parent

variable {s s' : Library} {a : LibraryAction} {t : Nat}

theorem Registered.currentRing (h : s.Registered) {mem : Option RingId}
    (hmem : ∀ r ∈ mem, r ∉ s.registry) : (s.currentRing t mem).Registered := by
  unfold Library.currentRing
  split
  · exact h
  · exact h
  · rename_i r _
    have hold (u : Nat) (hu : u ≠ t) (r' : RingId)
        (hr : (Function.update s.threads t ⟨some r, some r⟩ u).keyValue = some r') :
        (s.threads u).keyValue = some r' ∧ r' ≠ r := by
      rw [Function.update_of_ne hu] at hr
      refine ⟨hr, ?_⟩
      rintro rfl
      exact hmem r' rfl (h.mem u r' hr)
    have hnew (r' : RingId)
        (hr : (Function.update s.threads t ⟨some r, some r⟩ t).keyValue = some r') : r' = r := by
      rw [Function.update_self] at hr
      exact (Option.some.inj hr).symm
    constructor
    · intro u r' hr
      by_cases hu : u = t
      · subst hu
        rw [hnew r' hr]
        exact List.mem_cons_self
      · exact List.mem_cons_of_mem r (h.mem u r' (hold u hu r' hr).1)
    · intro u r' hr
      by_cases hu : u = t
      · subst hu
        rw [hnew r' hr]
        exact Function.update_self _ _ _
      · obtain ⟨hkey, hne⟩ := hold u hu r' hr
        exact (Function.update_of_ne hne _ _).trans (h.alive u r' hkey)
    · intro u v r' hr hr'
      by_cases hu : u = t
      · subst hu
        by_contra hv
        exact (hold v (Ne.symm hv) r' hr').2 (hnew r' hr)
      · by_cases hv : v = t
        · subst hv
          exact absurd (hnew r' hr') (hold u hu r' hr).2
        · exact h.eq u v r' (hold u hu r' hr).1 (hold v hv r' hr').1

theorem Registered.exitThread (h : s.Registered) : (s.exitThread t).Registered := by
  have hold (u : Nat) (r : RingId)
      (hr : (Function.update s.threads t ⟨(s.threads t).tRing, none⟩ u).keyValue = some r) :
      u ≠ t ∧ (s.threads u).keyValue = some r := by
    have hu : u ≠ t := by
      rintro rfl
      rw [Function.update_self] at hr
      cases hr
    rw [Function.update_of_ne hu] at hr
    exact ⟨hu, hr⟩
  have huniq (u v : Nat) (r : RingId)
      (hr : (Function.update s.threads t ⟨(s.threads t).tRing, none⟩ u).keyValue = some r)
      (hr' : (Function.update s.threads t ⟨(s.threads t).tRing, none⟩ v).keyValue = some r) :
      u = v := h.eq u v r (hold u r hr).2 (hold v r hr').2
  rw [Library.exitThread]
  cases hkey : (s.threads t).keyValue with
  | none =>
      exact ⟨fun u r hr ↦ h.mem u r (hold u r hr).2, fun u r hr ↦ h.alive u r (hold u r hr).2,
        huniq⟩
  | some r =>
      refine ⟨fun u r' hr ↦ h.mem u r' (hold u r' hr).2, fun u r' hr ↦ ?_, huniq⟩
      obtain ⟨hu, hother⟩ := hold u r' hr
      have hne : r' ≠ r := by
        rintro rfl
        exact hu (h.eq u t r' hother hkey)
      exact (Function.update_of_ne hne _ _).trans (h.alive u r' hother)

theorem Registered.scan (h : s.Registered) (empty : List RingId) : (s.scan empty).Registered where
  mem u r hr := by
    refine List.mem_filter.mpr ⟨h.mem u r hr, ?_⟩
    rw [h.alive u r hr]
    rfl
  alive := h.alive
  eq := h.eq

/-- While the log is open, every step keeps the rings of the threads registered. -/
theorem Registered.step (h : s.logOpen = true → s.Registered) (hs : s.step a = some s')
    (hopen : s'.logOpen = true) : s'.Registered := by
  cases a with
  | logEvent t mem =>
      rw [Library.step] at hs
      split at hs
      · rename_i hmem
        cases hs
        rw [Library.logEvent] at hopen ⊢
        split
        · rename_i henabled
          exact (h (by rw [logOpen, henabled, Bool.true_or])).currentRing hmem
        · rename_i henabled
          rw [if_neg henabled] at hopen
          exact h hopen
      · cases hs
  | exitThread t =>
      cases hs
      obtain ⟨dead, heq⟩ := s.exitThread_eq t
      refine (h ?_).exitThread
      rwa [heq] at hopen
  | scan empty =>
      rw [Library.step] at hs
      split at hs
      · cases hs
        exact (h hopen).scan empty
      · cases hs
  | logClose =>
      cases hs
      have hreg := h (by rw [logOpen] at hopen ⊢; exact Bool.or_eq_true_iff.mpr (.inr hopen))
      exact ⟨hreg.mem, hreg.alive, hreg.eq⟩
  | logClosed empty =>
      rw [Library.step] at hs
      split at hs
      · rename_i hclosing
        cases hs
        rw [Bool.and_eq_true, Bool.not_eq_true'] at hclosing
        have hclosed : (s.logClosed empty).logOpen = false := by
          rw [logOpen, Bool.or_eq_false_iff]
          exact ⟨hclosing.1, rfl⟩
        cases hclosed.symm.trans hopen
      · cases hs
  | fork t =>
      cases hs
      rw [forkChild_eq] at hopen
      cases hopen

/-- In a run the condition says that the forking thread has no ring, unless the log is closed. -/
theorem keyValue_notMem_iff_of_run {ok : Bool} {as : List LibraryAction}
    (hs : Run.run Library.step (logInit ok) as = some s) :
    ((s.logEnabled = false ∧ s.fp = false) ∨
        ∀ r, (s.threads t).keyValue = some r → r ∉ s.registry) ↔
      (s.logEnabled = false ∧ s.fp = false) ∨ (s.threads t).keyValue = none := by
  have hinit : (logInit ok).logOpen = true → (logInit ok).Registered := fun _ ↦
    ⟨fun _ _ hr ↦ by (cases hr), fun _ _ hr ↦ by (cases hr), fun _ _ _ hr ↦ by (cases hr)⟩
  have hreg : s.logOpen = true → s.Registered :=
    Run.run_inv (I := fun s ↦ s.logOpen = true → s.Registered)
      (fun _ _ _ _ h hs ↦ Registered.step h hs) hinit hs
  rw [← Bool.or_eq_false_iff]
  cases hopen : s.logEnabled || s.fp with
  | false => exact iff_of_true (.inl rfl) (.inl rfl)
  | true =>
      rw [or_iff_right (by decide), or_iff_right (by decide), Option.eq_none_iff_forall_ne_some]
      exact forall_congr' fun r ↦
        ⟨fun h hr ↦ h hr ((hreg hopen).mem t r hr), fun h hr ↦ absurd hr h⟩

end Parent

end Library

open Library

/-- **The rings in a forked child.**  The child has no pointer to a ring that was deleted at the
fork, and no run of it touches such a ring, if and only if the log was closed or the forking thread
had no ring of the registry under its key. -/
theorem forkChild_clear_iff (s : Library) (t : Nat) :
    ((s.forkChild t).Clear s.deletedByFork ↔
        (s.logEnabled = false ∧ s.fp = false) ∨
          ∀ r, (s.threads t).keyValue = some r → r ∉ s.registry) ∧
      ((∀ as, ¬ Run.Took Library.step (Touches s.deletedByFork) (s.forkChild t) as) ↔
        (s.logEnabled = false ∧ s.fp = false) ∨
          ∀ r, (s.threads t).keyValue = some r → r ∉ s.registry) := by
  rw [← keyValue_notMem_iff]
  refine ⟨⟨fun hclear r hr ↦ ?_, fun h ↦ (quiet_forkChild h).clear⟩,
    fun h r hr hdel ↦ ?_, fun h ↦ ?_⟩
  · exact hclear.keyValue t r ((s.forkChild_keyValue t).trans hr)
  · exact h _ (touches_exitThread hr hdel)
  · rintro as ⟨pre, a, post, s₁, -, hpre, htouch⟩
    have hquiet : s₁.Quiet s.deletedByFork :=
      Run.run_inv (fun _ _ _ _ hq hs ↦ Quiet.step hq hs) (quiet_forkChild h) hpre
    exact hquiet.not_touches htouch

/-- The process after its first event. -/
def oneRing : Library := (logInit true).logEvent 0 (some 0)

/-- If the thread that has logged it forks and then ends, the deleted ring is marked dead. -/
theorem oneRing_touched :
    Run.run Library.step (logInit true) [.logEvent 0 (some 0)] = some oneRing ∧
      ¬ (oneRing.forkChild 0).Clear oneRing.deletedByFork ∧
      Run.Took Library.step (Touches oneRing.deletedByFork) (oneRing.forkChild 0)
        [.exitThread 0] := by
  have hkey : (oneRing.threads 0).keyValue = some 0 := rfl
  have hdel : 0 ∈ oneRing.deletedByFork := by decide
  refine ⟨rfl, fun h ↦ ?_, touches_exitThread hkey hdel⟩
  exact h.keyValue 0 0 ((oneRing.forkChild_keyValue 0).trans hkey) hdel

end DeadLockDetect.Runtime
