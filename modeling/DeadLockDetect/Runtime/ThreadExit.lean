import DeadLockDetect.Runtime.Pipeline

/-!
# The end of a thread

When a thread ends, `ring_tls_destructor` runs as one of the destructors of its keys and marks the
ring of the thread dead.  The other destructors may come before or after it, and they may log
events.  `t_ring` still holds the ring then, so a late event goes into a ring that the backend is
about to delete or has deleted.

As long as there is no late event, the destructor is the exit of the thread: `exitStep_ended` maps
the steps to those of the pipeline, and the pipeline's invariant says that the ring in use is in
the registry.
-/

namespace DeadLockDetect.Runtime

namespace Pipeline

/-- What can happen next, where a thread ends in the course of its destructors. -/
inductive ExitAction where
  /-- Anything but the exit of a thread. -/
  | act (a : Action)
  /-- `ring_tls_destructor` runs. -/
  | destruct (t : RingId)

section Step

variable (ringBytes : UInt64) (memory : RingId → Nat → UInt8)

/-- One step.  The destructor is called once, since nothing sets the key again. -/
def exitStep (s : Pipeline) : ExitAction → Option Pipeline
  | .act (.exit _) => none
  | .act a => s.step ringBytes memory a
  | .destruct t =>
      if (s.threads t).pc = .idle ∧ (s.threads t).hasRing = true ∧ s.producerDead t = false then
        some { s with producerDead := Function.update s.producerDead t true }
      else none

end Step

/-- A thread logs an event after `ring_tls_destructor` has run in it. -/
def LateCall (s : Pipeline) (a : ExitAction) : Prop :=
  ∃ t e, a = .act (.call t e) ∧ s.producerDead t = true ∧ s.logEnabled = true

/-- Every thread inside `reserve`, filling a block, or inside `commit`, has a ring that is in the
registry and not deleted, and a ring that is deleted has no event left. -/
def RingsInUse (s : Pipeline) : Prop :=
  (∀ t e p, (s.threads t).pc = .produce e p →
    s.freed t = false ∧ ∃ l, Linked s.nextInRegistry s.registryHead l none ∧ t ∈ l) ∧
  ∀ t, s.freed t = true → s.written t = (s.committed t).map LogEvent.record

/-! ## The pipeline in which the destructor is the exit -/

/-- The threads, of which those with a dead ring have exited. -/
def exits (s : Pipeline) (t : RingId) : Thread :=
  if s.producerDead t then { s.threads t with pc := .exited } else s.threads t

/-- The same state with other threads. -/
def withThreads (s : Pipeline) (th : RingId → Thread) : Pipeline := { s with threads := th }

/-- The state in which the threads with a dead ring have exited. -/
def ended (s : Pipeline) : Pipeline := s.withThreads s.exits

variable {s s' : Pipeline} {ringBytes : UInt64} {memory : RingId → Nat → UInt8}
  {th : RingId → Thread} {i : Nat} {t : RingId}

/-- The scanner does not look at the threads. -/
theorem scanStep_withThreads (sc : Scan) :
    (s.withThreads th).scanStep i sc = (s.scanStep i sc).map fun x ↦ (x.1.withThreads th, x.2) := by
  cases sc with
  | lock =>
      show (if s.registryMu = none then _ else _) = _
      rw [scanStep]
      split <;> rfl
  | loop prev r work => cases r <;> rfl
  | process prev r work p =>
      cases p with
      | write out => rfl
      | done res => cases res <;> rfl
      | _ =>
          rw [scanStep_process (fun _ he ↦ by cases he) (fun _ he ↦ by cases he),
            scanStep_process (fun _ he ↦ by cases he) (fun _ he ↦ by cases he), Option.map_map]
          rfl
  | dead prev r work =>
      show (if s.producerDead r then _ else _) = _
      rw [scanStep]
      split <;> rfl
  | empty prev r work =>
      show Option.map _ ((s.rings r).loadHead i) = _
      rw [scanStep, Option.map_map]
      rfl
  | unlink prev r work => cases prev <;> rfl
  | _ => rfl

theorem scanMap_withThreads (sc : Scan) (f : Scan → Stage) :
    ((s.withThreads th).scanStep i sc).map (fun x ↦ { x.1 with stage := f x.2 }) =
      ((s.scanStep i sc).map fun x ↦ { x.1 with stage := f x.2 }).map fun s ↦
        s.withThreads th := by
  rw [scanStep_withThreads, Option.map_map, Option.map_map]
  rfl

theorem backendStep_withThreads :
    (s.withThreads th).backendStep i = (s.backendStep i).map fun s ↦ s.withThreads th := by
  have hst : (s.withThreads th).stage = s.stage := rfl
  rw [backendStep, backendStep, hst]
  cases s.stage with
  | running sc =>
      cases sc with
      | done work => rfl
      | _ => exact scanMap_withThreads _ .running
  | lastDrain sc =>
      cases sc with
      | done work => rfl
      | _ => exact scanMap_withThreads _ .lastDrain
  | finalDrain sc =>
      cases sc with
      | done work => rfl
      | _ => exact scanMap_withThreads _ .finalDrain
  | exited | closed => rfl

/-- A thread looks only at itself. -/
theorem threadStep_withThreads (ht : th t = s.threads t) :
    (s.withThreads th).threadStep ringBytes memory t i =
      (s.threadStep ringBytes memory t i).map fun s' ↦
        s'.withThreads (Function.update th t (s'.threads t)) := by
  have ht' : (s.withThreads th).threads t = s.threads t := ht
  rw [threadStep, threadStep, ht']
  cases (s.threads t).pc with
  | idle | exited => rfl
  | alloc e => simp [withThreads]
  | lock e =>
      by_cases hmu : s.registryMu = none
      · simp [withThreads, setPc, hmu, ht]
      · simp [withThreads, hmu]
  | linkNext e | linkHead e | unlock e => simp [withThreads, setPc, ht]
  | produce e p =>
      dsimp only
      rw [Option.map_map]
      refine congrArg (fun f ↦ Option.map f _) (funext fun x ↦ ?_)
      simp only [Function.comp]
      split <;> simp [withThreads, setPc, setRing, ht]

/-! ## Runs without late calls -/

/-- A thread whose ring is dead is outside of `log_event`. -/
def DeadIdle (s : Pipeline) : Prop :=
  ∀ t, s.producerDead t = true → (s.threads t).pc = .idle ∧ (s.threads t).hasRing = true

theorem exits_of_alive (hd : s.producerDead t = false) : s.exits t = s.threads t := by
  simp [exits, hd]

/-- The threads after a step of a thread whose ring is alive. -/
theorem exits_byThread (hd : s.producerDead t = false) (h : ByThread s s' t) :
    s'.exits = Function.update s.exits t (s'.threads t) := by
  refine funext fun r ↦ ?_
  by_cases hr : r = t
  · rw [hr, Function.update_self, exits_of_alive (h.producerDead ▸ hd)]
  · rw [Function.update_of_ne hr]
    simp [exits, h.producerDead, h.threads r hr]

theorem byThread_setPc (s : Pipeline) (t : RingId) (pc : ThreadPc) : ByThread s (s.setPc t pc) t :=
  ⟨rfl, rfl, rfl, rfl, rfl, rfl, fun _ _ ↦ rfl, fun _ hr ↦ Function.update_of_ne hr _ _⟩

theorem DeadIdle.byThread (h : s.DeadIdle) (hd : s.producerDead t = false) (hby : ByThread s s' t) :
    s'.DeadIdle := by
  intro r hr
  rw [hby.producerDead] at hr
  have hne : r ≠ t := by
    rintro rfl
    rw [hd] at hr
    cases hr
  rw [hby.threads r hne]
  exact h r hr

/-- A thread that is inside of `log_event` has no dead ring. -/
theorem DeadIdle.alive (h : s.DeadIdle) (hpc : (s.threads t).pc ≠ .idle) :
    s.producerDead t = false :=
  Bool.eq_false_of_not_eq_true fun hd ↦ hpc (h t hd).1

theorem ended_setPc (hd : s.producerDead t = false) (pc : ThreadPc) :
    (s.setPc t pc).ended = s.ended.setPc t pc := by
  rw [ended, exits_byThread hd (byThread_setPc s t pc), threads_setPc_self, setPc]
  simp [ended, withThreads, setPc, exits_of_alive hd]

/-- No thread exits but by the destructor. -/
theorem step_of_exitStep {a : Action} (hs : s.exitStep ringBytes memory (.act a) = some s') :
    (∀ t, a ≠ .exit t) ∧ s.step ringBytes memory a = some s' := by
  cases a with
  | exit t => cases hs
  | _ => exact ⟨nofun, hs⟩

/-- **The destructor is the exit of the thread**, as long as there is no late call. -/
theorem exitStep_ended {a : ExitAction} (h : s.DeadIdle) (hlate : ¬ s.LateCall a)
    (hs : s.exitStep ringBytes memory a = some s') :
    s'.DeadIdle ∧ (s'.ended = s.ended ∨ ∃ b, s.ended.step ringBytes memory b = some s'.ended) := by
  cases a with
  | destruct t =>
      rw [exitStep] at hs
      split at hs
      · rename_i hc
        obtain ⟨hpc, hring, hd⟩ := hc
        cases hs
        refine ⟨fun r hr ↦ ?_, .inr ⟨.exit t, ?_⟩⟩
        · by_cases he : r = t
          · rw [he]
            exact ⟨hpc, hring⟩
          · change Function.update s.producerDead t true r = true at hr
            rw [Function.update_of_ne he] at hr
            exact h r hr
        · have ht : s.ended.threads t = s.threads t := exits_of_alive hd
          have hexits : exits { s with producerDead := Function.update s.producerDead t true } =
              Function.update s.exits t { s.threads t with pc := .exited } := by
            funext r
            by_cases he : r = t
            · simp [exits, he]
            · simp [exits, he]
          rw [step, ht, if_pos hpc, hring]
          simp only [ended, hexits]
          simp [withThreads, setPc, exits_of_alive hd, hring]
      · cases hs
  | act a =>
      obtain ⟨hne, hs⟩ := step_of_exitStep hs
      cases stepped_of_step hs with
      | @exit t => exact absurd rfl (hne t)
      | @call t e hpc hlog =>
          have hd : s.producerDead t = false :=
            Bool.eq_false_of_not_eq_true fun hd ↦ hlate ⟨t, e, rfl, hd, hlog⟩
          have ht : s.ended.threads t = s.threads t := exits_of_alive hd
          refine ⟨h.byThread hd (byThread_setPc s t _), .inr ⟨.call t e, ?_⟩⟩
          rw [step, ht, if_pos hpc, ended_setPc hd]
          exact if_pos hlog
      | ignored => exact ⟨h, .inl rfl⟩
      | @thread t i _ hs =>
          have hpc : (s.threads t).pc ≠ .idle := by
            intro hpc
            rw [threadStep, hpc] at hs
            cases hs
          have hd := h.alive hpc
          have hby := threadStep_byThread hs
          refine ⟨h.byThread hd hby, .inr ⟨.thread t i, ?_⟩⟩
          show s.ended.threadStep ringBytes memory t i = some s'.ended
          rw [ended, threadStep_withThreads (exits_of_alive hd), hs, Option.map_some, ended,
            exits_byThread hd hby]
      | @noMemory t e hpc =>
          have hd : s.producerDead t = false := h.alive fun he ↦ by cases hpc.symm.trans he
          have ht : s.ended.threads t = s.threads t := exits_of_alive hd
          refine ⟨h.byThread hd (byThread_setPc s t _), .inr ⟨.noMemory t, ?_⟩⟩
          rw [step, ht, hpc, ended_setPc hd]
      | disable => exact ⟨h, .inr ⟨.disable, rfl⟩⟩
      | requestShutdown hlog => exact ⟨h, .inr ⟨.requestShutdown, if_neg hlog⟩⟩
      | join hstage => exact ⟨h, .inr ⟨.join, if_pos hstage⟩⟩
      | @backend i _ hs =>
          have hun := backendStep_untouched hs
          have hexits : s'.exits = s.exits := by
            funext r
            rw [exits, exits, hun.producerDead, hun.threads]
          refine ⟨fun r hr ↦ ?_, .inr ⟨.backend i, ?_⟩⟩
          · rw [hun.producerDead] at hr
            rw [hun.threads]
            exact h r hr
          · show s.ended.backendStep i = some s'.ended
            rw [ended, backendStep_withThreads, hs, Option.map_some, ended, hexits]

/-- The log has just been opened. -/
theorem deadIdle_init : (init ringBytes memory).DeadIdle := by
  intro t ht
  cases ht

/-- The invariant of the pipeline holds in every run without late calls. -/
theorem exists_inv_ended (hcap : ∃ k, ringBytes.toNat = 2 ^ k) {as : List ExitAction}
    (hs : Run.run (exitStep ringBytes memory) (init ringBytes memory) as = some s)
    (hlate : ¬ Run.Took (exitStep ringBytes memory) LateCall (init ringBytes memory) as) :
    s.DeadIdle ∧ ∃ vs pend l, s.ended.Inv vs pend l := by
  refine Run.run_inv_of_not_took (I := fun s ↦ s.DeadIdle ∧ ∃ vs pend l, s.ended.Inv vs pend l)
    ?_ ⟨deadIdle_init, _, _, _, init_inv⟩ hs hlate
  rintro a s s' ⟨hidle, vs, pend, l, h⟩ hcall hstep
  obtain ⟨hidle', hsame | ⟨b, hb⟩⟩ := exitStep_ended hidle hcall hstep
  · exact ⟨hidle', vs, pend, l, hsame ▸ h⟩
  · exact ⟨hidle', h.step hcap hb⟩

/-- What the invariant says of the rings in use. -/
theorem ringsInUse_of_inv {vs : RingId → Virtual} {pend : RingId → List LogEvent}
    {l : List RingId} (hidle : s.DeadIdle) (h : s.ended.Inv vs pend l) : s.RingsInUse := by
  constructor
  · intro t e p hpc
    have hd : s.producerDead t = false := hidle.alive (by rw [hpc]; exact nofun)
    have ht : s.ended.threads t = s.threads t := exits_of_alive hd
    have hring : (s.ended.threads t).hasRing = true := by
      have hinv := (h.lane t).pc
      rw [Thread.Inv, show (s.ended.lane t).thread.pc = .produce e p from
        (congrArg Thread.pc ht).trans hpc] at hinv
      exact hinv.1
    have hfreed : s.ended.freed t = false := by
      rw [← Bool.not_eq_true]
      intro hf
      have hex := ((h.lane t).freed hf).1
      cases ((congrArg Thread.pc ht).trans hpc).symm.trans hex
    have hreg : (s.ended.threads t).registered = true := by
      rw [Thread.registered, (congrArg Thread.pc ht).trans hpc]
      exact hring
    exact ⟨hfreed, l, h.registry.linked, (h.registry.mem t).mpr ⟨hreg, hfreed⟩⟩
  · intro t hf
    obtain ⟨-, -, hp, hfl⟩ := (h.lane t).freed hf
    exact (h.lane t).written_eq hfl hp

end Pipeline

open Pipeline

/-- **No ring is used after it was deleted**, and no event is lost with a ring, in every run in
which no thread logs an event after its `ring_tls_destructor` has run. -/
theorem ringsInUse_of_not_lateCall (ringBytes : UInt64) (memory : RingId → Nat → UInt8)
    (hcap : ∃ k, ringBytes.toNat = 2 ^ k) (as : List ExitAction) (s : Pipeline)
    (hs : Run.run (exitStep ringBytes memory) (init ringBytes memory) as = some s)
    (hlate : ¬ Run.Took (exitStep ringBytes memory) LateCall (init ringBytes memory) as) :
    s.RingsInUse := by
  obtain ⟨hidle, vs, pend, l, h⟩ := exists_inv_ended hcap hs hlate
  exact ringsInUse_of_inv hidle h

/-- A thread logs an event. -/
def firstEvent : List ExitAction := [.act (.call 0 oneEvent)]

/-- The event is written and the ring of the thread is deleted. -/
def ringDeleted : List ExitAction :=
  List.replicate 50 (.act (.thread 0 0)) ++ .destruct 0 :: List.replicate 3 (.act (.backend 0)) ++
    .act (.backend 1) :: List.replicate 12 (.act (.backend 0))

/-- An event is logged only by a call. -/
def Pipeline.ExitAction.isCall : ExitAction → Bool
  | .act (.call _ _) => true
  | _ => false

theorem isCall_of_lateCall {s : Pipeline} {a : ExitAction} (h : s.LateCall a) :
    a.isCall = true := by
  obtain ⟨t, e, rfl, -⟩ := h
  rfl

theorem ringsInUse_of_not_lateCall_ringDeleted : ∃ s : Pipeline,
    Run.run (exitStep 64 fun _ _ ↦ 0) (init 64 fun _ _ ↦ 0) (firstEvent ++ ringDeleted) =
      some s ∧ s.freed 0 = true ∧ s.RingsInUse := by
  have hrun : (Run.run (exitStep 64 fun _ _ ↦ 0) (init 64 fun _ _ ↦ 0)
      (firstEvent ++ ringDeleted)).any (fun s ↦ s.freed 0) = true := by decide +kernel
  obtain ⟨s, hs, hfreed⟩ := (Option.any_eq_true _ _).mp hrun
  refine ⟨s, hs, hfreed, ringsInUse_of_not_lateCall 64 (fun _ _ ↦ 0) ⟨6, rfl⟩ _ s hs ?_⟩
  have hrest : ∀ a ∈ ringDeleted, a.isCall = false := by decide
  rw [firstEvent, List.singleton_append, Run.took_cons_iff rfl, not_or]
  refine ⟨?_, Run.not_took_of_forall fun a ha s hlate ↦ ?_⟩
  · rintro ⟨t, e, -, hdead, -⟩
    cases hdead
  · cases (isCall_of_lateCall hlate).symm.trans (hrest a ha)

/-- The destructor of another key then logs an event, and `log_event` uses the deleted ring. -/
theorem not_ringsInUse :
    ¬ ∀ (ringBytes : UInt64) (memory : RingId → Nat → UInt8), (∃ k, ringBytes.toNat = 2 ^ k) →
      ∀ (as : List ExitAction) (s : Pipeline),
        Run.run (exitStep ringBytes memory) (init ringBytes memory) as = some s →
          s.RingsInUse := by
  intro h
  have hrun : (Run.run (exitStep 64 fun _ _ ↦ 0) (init 64 fun _ _ ↦ 0)
      (firstEvent ++ ringDeleted ++ firstEvent)).any (fun s ↦
        s.freed 0 = true ∧ (s.threads 0).pc = .produce oneEvent .idle) = true := by decide +kernel
  obtain ⟨s, hs, hst⟩ := (Option.any_eq_true _ _).mp hrun
  obtain ⟨hfreed, hpc⟩ := of_decide_eq_true hst
  have huse := h 64 (fun _ _ ↦ 0) ⟨6, rfl⟩ _ s hs
  cases hfreed.symm.trans (huse.1 0 oneEvent .idle hpc).1

end DeadLockDetect.Runtime
