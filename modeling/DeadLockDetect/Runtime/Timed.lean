import DeadLockDetect.Runtime.Pipeline

/-!
# The pipeline with a clock and with thread ids

`log_event` takes the time when `reserve` has returned, and the id of the calling thread.  The
clock never goes back.  The kernel gives an id to one thread at a time; when a thread has exited,
its id may be given to a new one.

## What is transcribed

* Threads are named by their rings; `tidOf` is the id of a thread that has been started, and
  `holder` the thread that has an id at the moment.
* Every action has a time.  The times do not decrease, and the time of an event is that of the step
  that starts to fill the block.
* `seq` counts the registrations of rings; it records the history and influences nothing.

`MovesTo` says what a step of a thread can do, `step_cases` what any step can do.
-/

namespace DeadLockDetect.Runtime

/-! ## What a position says of the event -/

namespace ThreadPc

/-- The event that a thread logs. -/
def event? : ThreadPc → Option LogEvent
  | .idle | .exited => none
  | .alloc e | .lock e | .linkNext e | .linkHead e | .unlock e | .produce e _ => some e

/-- The event that a thread logs, once its time is taken. -/
def stamped? : ThreadPc → Option LogEvent
  | .produce e (.fill _ (_ + 1)) | .produce e (.publish _) => some e
  | _ => none

/-- The event whose time is taken next. -/
def stamps? : ThreadPc → Option LogEvent
  | .produce e (.fill _ 0) => some e
  | _ => none

theorem event?_of_stamped? {pc : ThreadPc} {e : LogEvent} (h : pc.stamped? = some e) :
    pc.event? = some e := by
  unfold stamped? at h
  split at h
  · exact h
  · exact h
  · cases h

end ThreadPc

namespace Pipeline

/-! ## What a step does -/

/-- What a step of thread `t` does to its own position and its ring. -/
inductive MovesTo (s s' : Pipeline) (t : RingId) : Prop where
  /-- It goes on. -/
  | goOn (hcommitted : s'.committed t = s.committed t)
      (hregistered : (s'.threads t).registered = (s.threads t).registered)
      (hlive : (s'.threads t).pc ≠ .exited)
      (hlink : ∀ e, (s.threads t).pc ≠ .linkHead e)
      (hevent : ∀ e, (s'.threads t).pc.event? = some e → (s.threads t).pc.event? = some e)
      (hstamp : ∀ e, (s'.threads t).pc.stamped? = some e →
        (s.threads t).pc.stamped? = some e ∨ (s.threads t).pc.stamps? = some e)
  /-- It becomes the head of the registry. -/
  | register (e : LogEvent) (hpc : (s.threads t).pc = .linkHead e)
      (hpc' : (s'.threads t).pc = .unlock e) (hcommitted : s'.committed t = s.committed t)
      (hregistered : (s'.threads t).registered = (s.threads t).hasRing)
  /-- It commits its event. -/
  | commit (e : LogEvent) (hstamped : (s.threads t).pc.stamped? = some e)
      (hlink : ∀ e, (s.threads t).pc ≠ .linkHead e)
      (hpc' : (s'.threads t).pc = .idle) (hcommitted : s'.committed t = s.committed t ++ [e])
      (hregistered : (s'.threads t).registered = (s.threads t).registered)

section

variable {s s' : Pipeline} {ringBytes : UInt64} {memory : RingId → Nat → UInt8} {t : RingId}
  {i : Nat}

/-- The time of an event is taken in the step that starts to fill the block. -/
theorem stamped?_of_step {e d : LogEvent} {p p' : Producer} {r r' : ThreadRing}
    (hs : p.step r e.encode i = some (r', p')) (hd : (ThreadPc.produce e p').stamped? = some d) :
    (ThreadPc.produce e p).stamped? = some d ∨ (ThreadPc.produce e p).stamps? = some d := by
  have place {r₁ : ThreadRing} {h off : UInt64}
      (hd : (ThreadPc.produce e (Producer.place r₁ e.encode h off)).stamped? = some d) : False := by
    rw [Producer.place] at hd
    split at hd <;> cases hd
  cases p with
  | idle | storePad h | writeTag off | publish h =>
      cases hs
      cases hd
  | loadTail h =>
      obtain ⟨r₁, -, he⟩ := Option.map_eq_some_iff.mp hs
      cases he
      rw [Producer.plan] at hd
      split at hd
      · split at hd <;> cases hd
      · exact (place hd).elim
  | pad h off padNeed n =>
      rw [Producer.step] at hs
      split at hs <;> cases hs <;> cases hd
  | reloadTail h =>
      obtain ⟨r₁, -, he⟩ := Option.map_eq_some_iff.mp hs
      cases he
      exact (place hd).elim
  | fill off j =>
      have hde : d = e := by
        rw [Producer.step] at hs
        split at hs <;> cases hs <;> cases hd <;> rfl
      subst hde
      cases j with
      | zero => exact .inr rfl
      | succ j => exact .inl rfl

/-- A step of a thread in `log_event`. -/
theorem threadStep_movesTo (hs : s.threadStep ringBytes memory t i = some s') :
    MovesTo s s' t := by
  unfold threadStep at hs
  split at hs
  case h_1 | h_2 => cases hs
  case h_3 e hpc =>
    cases hs
    refine .goOn rfl ?_ ?_ ?_ ?_ ?_ <;> simp [Thread.registered, hpc, ThreadPc.event?,
      ThreadPc.stamped?]
  case h_4 e hpc =>
    split at hs <;> cases hs
    refine .goOn rfl ?_ ?_ ?_ ?_ ?_ <;> simp [Thread.registered, hpc, ThreadPc.event?,
      ThreadPc.stamped?, setPc]
  case h_5 e hpc =>
    cases hs
    refine .goOn rfl ?_ ?_ ?_ ?_ ?_ <;> simp [Thread.registered, hpc, ThreadPc.event?,
      ThreadPc.stamped?, setPc]
  case h_6 e hpc =>
    cases hs
    refine .register e hpc ?_ rfl ?_ <;> simp [Thread.registered, setPc]
  case h_7 e hpc =>
    cases hs
    refine .goOn rfl ?_ ?_ ?_ ?_ ?_ <;> simp [Thread.registered, hpc, ThreadPc.event?,
      ThreadPc.stamped?, setPc]
  case h_8 e p hpc =>
    obtain ⟨⟨r', p'⟩, hp, rfl⟩ := Option.map_eq_some_iff.mp hs
    split
    · rename_i hc
      have hstamped : (s.threads t).pc.stamped? = some e := by
        rw [hpc]
        cases p with
        | publish h => rfl
        | _ => cases hc
      refine .commit e hstamped ?_ ?_ ?_ ?_ <;> simp [Thread.registered, hpc, setPc, setRing]
    · refine .goOn rfl ?_ ?_ ?_ ?_ ?_
      · simp [Thread.registered, hpc, setPc, setRing]
      · simp [setPc]
      · simp [hpc]
      · simp [hpc, setPc, ThreadPc.event?]
      · intro d hd
        rw [hpc]
        refine stamped?_of_step hp ?_
        simpa [setPc] using hd

/-- The backend writes an event, or it leaves the trace alone. -/
theorem scanStep_trace {sc sc' : Scan} {s₁ : Pipeline} (hs : s.scanStep i sc = some (s₁, sc')) :
    s₁.trace = s.trace ∨ ∃ prev r work out, sc = .process prev r work (.write out) ∧
      s₁.trace = s.trace ++ [(r, out)] := by
  cases sc with
  | lock =>
      rw [scanStep] at hs
      split at hs <;> cases hs
      exact .inl rfl
  | loop prev r work =>
      cases r <;> cases hs <;> exact .inl rfl
  | process prev r work p =>
      cases p with
      | write out =>
          cases hs
          exact .inr ⟨prev, r, work, out, rfl, rfl⟩
      | done res => cases res <;> cases hs <;> exact .inl rfl
      | _ =>
          rw [scanStep_process (fun _ he ↦ by cases he) (fun _ he ↦ by cases he)] at hs
          obtain ⟨x, -, he⟩ := Option.map_eq_some_iff.mp hs
          cases he
          exact .inl rfl
  | dead prev r work =>
      rw [scanStep] at hs
      split at hs <;> cases hs <;> exact .inl rfl
  | empty prev r work =>
      obtain ⟨x, -, he⟩ := Option.map_eq_some_iff.mp hs
      cases he
      exact .inl rfl
  | unlink prev r work =>
      cases prev <;> cases hs <;> exact .inl rfl
  | done work => cases hs
  | _ =>
      cases hs
      exact .inl rfl

theorem backendStep_trace (hs : s.backendStep i = some s') :
    s'.trace = s.trace ∨ ∃ prev r work out,
      s.stage.scan? = some (.process prev r work (.write out)) ∧
        s'.trace = s.trace ++ [(r, out)] := by
  rw [Pipeline.backendStep] at hs
  split at hs
  case h_2 sc _ hst | h_4 sc _ hst | h_7 sc _ hst =>
    obtain ⟨⟨s₁, sc'⟩, hx, rfl⟩ := Option.map_eq_some_iff.mp hs
    refine (scanStep_trace hx).imp id ?_
    rintro ⟨prev, r, work, out, rfl, htrace⟩
    exact ⟨prev, r, work, out, by rw [hst]; rfl, htrace⟩
  all_goals cases hs <;> exact .inl rfl

end

end Pipeline

/-! ## The clock and the kernel -/

/-- The pipeline with the time, the ids of the threads, and the number under which each ring was
registered. -/
structure Timed where
  pipe : Pipeline
  now : UInt64 := 0
  tidOf : RingId → Option UInt64 := fun _ ↦ none
  holder : UInt64 → Option RingId := fun _ ↦ none
  count : Nat := 0
  seq : RingId → Nat := fun _ ↦ 0

/-- What can happen next. -/
inductive TimedAction where
  /-- The kernel starts a thread. -/
  | start (t : RingId) (tid : UInt64)
  /-- Something happens at this time. -/
  | act (now : UInt64) (a : Pipeline.Action)

namespace Timed

/-- A thread logs its events under its id, and with the time at which it starts to fill the block. -/
def allowed (s : Timed) (now : UInt64) : Pipeline.Action → Bool
  | .call t e => s.tidOf t = some e.tid
  | .exit t => (s.tidOf t).isSome
  | .thread t _ => (s.pipe.threads t).pc.stamps?.all fun e ↦ e.tsNs = now
  | _ => true

/-- The id of a thread that exits is free again. -/
def release (s : Timed) : Pipeline.Action → UInt64 → Option RingId
  | .exit t => fun tid ↦ if s.tidOf t = some tid then none else s.holder tid
  | _ => s.holder

/-- The ring that is registered by an action. -/
def registers (s : Timed) : Pipeline.Action → Option RingId
  | .thread t _ => match (s.pipe.threads t).pc with
    | .linkHead _ => some t
    | _ => none
  | _ => none

section Step

variable (ringBytes : UInt64) (memory : RingId → Nat → UInt8)

/-- One step. -/
def step (s : Timed) : TimedAction → Option Timed
  | .start t tid =>
      if s.tidOf t = none ∧ s.holder tid = none then
        some { s with
          tidOf := Function.update s.tidOf t (some tid)
          holder := Function.update s.holder tid (some t) }
      else none
  | .act now a =>
      if s.now ≤ now ∧ s.allowed now a = true then
        (s.pipe.step ringBytes memory a).map fun p ↦
          { s with
            pipe := p
            now := now
            holder := s.release a
            count := if (s.registers a).isSome then s.count + 1 else s.count
            seq := (s.registers a).elim s.seq fun t ↦ Function.update s.seq t (s.count + 1) }
      else none

/-- The log has just been opened. -/
def init : Timed := { pipe := Pipeline.init ringBytes memory }

end Step

/-! ## What a step does -/

/-- Time passes, and perhaps the backend does something other than write. -/
structure Same (s s' : Timed) : Prop where
  now : s.now ≤ s'.now
  tidOf : s'.tidOf = s.tidOf
  holder : s'.holder = s.holder
  count : s'.count = s.count
  seq : s'.seq = s.seq
  threads : s'.pipe.threads = s.pipe.threads
  committed : s'.pipe.committed = s.pipe.committed

/-- A step of thread `t`. -/
structure Move (s s' : Timed) (t : RingId) : Prop where
  now : s.now ≤ s'.now
  tidOf : s'.tidOf = s.tidOf
  trace : s'.pipe.trace = s.pipe.trace
  threads : ∀ r, r ≠ t → s'.pipe.threads r = s.pipe.threads r
  committed : ∀ r, r ≠ t → s'.pipe.committed r = s.pipe.committed r
  live : (s.pipe.threads t).pc ≠ .exited
  holder : ∀ tid r, s.holder tid = some r →
    s'.holder tid = some r ∨ s.tidOf t = some tid ∧ (s'.pipe.threads t).pc = .exited
  event : ∀ e, (s'.pipe.threads t).pc.event? = some e → s.tidOf t = some e.tid
  stamped : ∀ e, (s'.pipe.threads t).pc.stamped? = some e →
    (s.pipe.threads t).pc.stamped? = some e ∨ e.tsNs = s'.now
  commits : s'.pipe.committed t = s.pipe.committed t ∨
    ∃ e, (s.pipe.threads t).pc.stamped? = some e ∧ (s'.pipe.threads t).pc.stamped? = none ∧
      s'.pipe.committed t = s.pipe.committed t ++ [e]
  seq : s'.seq = s.seq ∧ s'.count = s.count ∧
      (s'.pipe.threads t).registered = (s.pipe.threads t).registered ∨
    s'.seq = Function.update s.seq t (s.count + 1) ∧ s'.count = s.count + 1 ∧
      (s.pipe.threads t).registered = false ∧ (s'.pipe.threads t).registered = true ∧
      (s.pipe.threads t).pc.event?.isSome

section Cases

variable {ringBytes : UInt64} {memory : RingId → Nat → UInt8} {s s' : Timed} {t : RingId} {i : Nat}
  {now : UInt64} {p : Pipeline}

/-- The state after an action that registers no ring and ends no thread. -/
def after (s : Timed) (now : UInt64) (p : Pipeline) : Timed := { s with pipe := p, now := now }

theorem same_after (hnow : s.now ≤ now) (hth : p.threads = s.pipe.threads)
    (hcom : p.committed = s.pipe.committed) : Same s (s.after now p) :=
  ⟨hnow, rfl, rfl, rfl, rfl, hth, hcom⟩

/-- A thread changes its position and nothing else happens. -/
theorem move_setPc (hnow : s.now ≤ now) {pc : ThreadPc} (hlive : (s.pipe.threads t).pc ≠ .exited)
    (hreg : Thread.registered { s.pipe.threads t with pc := pc } = (s.pipe.threads t).registered)
    (hevent : ∀ e, pc.event? = some e → s.tidOf t = some e.tid) (hstamped : pc.stamped? = none) :
    Move s (s.after now (s.pipe.setPc t pc)) t where
  now := hnow
  tidOf := rfl
  trace := rfl
  threads r hr := Pipeline.threads_setPc_of_ne s.pipe hr pc
  committed _ _ := rfl
  live := hlive
  holder _ _ h := .inl h
  event e he := by
    rw [after, Pipeline.threads_setPc_self] at he
    exact hevent e he
  stamped e he := by
    rw [after, Pipeline.threads_setPc_self] at he
    cases hstamped.symm.trans he
  commits := .inl rfl
  seq := .inl ⟨rfl, rfl, by rw [after, Pipeline.threads_setPc_self]; exact hreg⟩

/-- A step of a thread within `log_event`. -/
theorem move_thread {vs : RingId → Virtual} {pend : RingId → List LogEvent} {l : List RingId}
    (h : s.pipe.Inv vs pend l)
    (hevent : ∀ t e, (s.pipe.threads t).pc.event? = some e → s.tidOf t = some e.tid)
    (hnow : s.now ≤ now) (hallow : s.allowed now (.thread t i) = true)
    (hs : s.pipe.threadStep ringBytes memory t i = some p) :
    Move s { s with
      pipe := p
      now := now
      count := if (s.registers (.thread t i)).isSome then s.count + 1 else s.count
      seq := (s.registers (.thread t i)).elim s.seq fun t ↦
        Function.update s.seq t (s.count + 1) } t := by
  have hby := Pipeline.threadStep_byThread hs
  have hlive : (s.pipe.threads t).pc ≠ .exited := by
    intro hpc
    rw [Pipeline.threadStep, hpc] at hs
    cases hs
  have hnone (hlink : ∀ e, (s.pipe.threads t).pc ≠ .linkHead e) :
      s.registers (.thread t i) = none := by
    rw [registers]
    split
    · exact absurd ‹_› (hlink _)
    · rfl
  cases Pipeline.threadStep_movesTo hs with
  | goOn hcommitted hregistered hlive' hlink hev hstamp =>
      rw [hnone hlink]
      refine ⟨hnow, rfl, hby.trace, hby.threads, hby.committed, hlive, fun _ _ ho ↦ .inl ho,
        fun e he ↦ hevent t e (hev e he), fun e he ↦ (hstamp e he).imp id fun hst ↦ ?_,
        .inl hcommitted, .inl ⟨rfl, rfl, hregistered⟩⟩
      rw [allowed, hst, Option.all_some] at hallow
      exact of_decide_eq_true hallow
  | register e hpc hpc' hcommitted hregistered =>
      have hsome : s.registers (.thread t i) = some t := by rw [registers, hpc]
      have hring : (s.pipe.threads t).hasRing = true := by
        have hinv := (h.lane t).pc
        rwa [Thread.Inv, show (s.pipe.lane t).thread.pc = .linkHead e from hpc] at hinv
      rw [hsome]
      refine ⟨hnow, rfl, hby.trace, hby.threads, hby.committed, hlive, fun _ _ ho ↦ .inl ho,
        fun d hd ↦ hevent t d ?_, fun d hd ↦ ?_, .inl hcommitted, .inr ⟨rfl, rfl, ?_, ?_, ?_⟩⟩
      · rw [hpc]
        rw [hpc'] at hd
        exact hd
      · rw [hpc'] at hd
        cases hd
      · rw [Thread.registered, hpc]
      · rw [hregistered, hring]
      · rw [hpc]
        rfl
  | commit e hstamped hlink hpc' hcommitted hregistered =>
      rw [hnone hlink]
      refine ⟨hnow, rfl, hby.trace, hby.threads, hby.committed, hlive, fun _ _ ho ↦ .inl ho,
        fun d hd ↦ ?_, fun d hd ↦ ?_, .inr ⟨e, hstamped, ?_, hcommitted⟩,
        .inl ⟨rfl, rfl, hregistered⟩⟩
      · rw [hpc'] at hd
        cases hd
      · rw [hpc'] at hd
        cases hd
      · rw [hpc']
        rfl

/-- A thread exits, and its id is free. -/
theorem move_exit (hnow : s.now ≤ now) (hpc : (s.pipe.threads t).pc = .idle) (dead : RingId → Bool) :
    Move s { s.after now { s.pipe.setPc t .exited with producerDead := dead } with
      holder := s.release (.exit t) } t := by
  have hself : (s.pipe.setPc t .exited).threads t = { s.pipe.threads t with pc := .exited } :=
    Pipeline.threads_setPc_self s.pipe t .exited
  refine ⟨hnow, rfl, rfl, fun r hr ↦ Pipeline.threads_setPc_of_ne s.pipe hr .exited, fun _ _ ↦ rfl,
    by rw [hpc]; exact nofun, fun tid r ho ↦ ?_, fun e he ↦ ?_, fun e he ↦ ?_, .inl rfl,
    .inl ⟨rfl, rfl, ?_⟩⟩
  · by_cases htid : s.tidOf t = some tid
    · exact .inr ⟨htid, congrArg Thread.pc hself⟩
    · exact .inl ((if_neg htid).trans ho)
  · cases (congrArg (fun x ↦ x.pc.event?) hself).symm.trans he
  · cases (congrArg (fun x ↦ x.pc.stamped?) hself).symm.trans he
  · refine (congrArg Thread.registered hself).trans ?_
    rw [Thread.registered, Thread.registered, hpc]

/-- What a step can do: start a thread, let time pass, write an event, or move a thread. -/
theorem step_cases {vs : RingId → Virtual} {pend : RingId → List LogEvent} {l : List RingId}
    {a : TimedAction} (h : s.pipe.Inv vs pend l)
    (hevent : ∀ t e, (s.pipe.threads t).pc.event? = some e → s.tidOf t = some e.tid)
    (hs : s.step ringBytes memory a = some s') :
    (∃ t tid, s.tidOf t = none ∧ s.holder tid = none ∧
      s' = { s with
        tidOf := Function.update s.tidOf t (some tid)
        holder := Function.update s.holder tid (some t) }) ∨
    (Same s s' ∧ s'.pipe.trace = s.pipe.trace) ∨
    (∃ now i prev r work out, a = .act now (.backend i) ∧
      s.pipe.stage.scan? = some (.process prev r work (.write out)) ∧ Same s s' ∧
        s'.pipe.trace = s.pipe.trace ++ [(r, out)]) ∨
    ∃ t, Move s s' t := by
  cases a with
  | start t tid =>
      rw [step] at hs
      split at hs
      · rename_i hc
        cases hs
        exact .inl ⟨t, tid, hc.1, hc.2, rfl⟩
      · cases hs
  | act now a =>
      rw [step] at hs
      split at hs
      · rename_i hc
        obtain ⟨hnow, hallow⟩ := hc
        obtain ⟨p, hp, rfl⟩ := Option.map_eq_some_iff.mp hs
        cases Pipeline.stepped_of_step hp with
        | @thread t _ _ hp => exact .inr (.inr (.inr ⟨t, move_thread h hevent hnow hallow hp⟩))
        | @call t e hpc =>
            have hlive : (s.pipe.threads t).pc ≠ .exited := fun he ↦ by cases hpc.symm.trans he
            have htid : s.tidOf t = some e.tid := of_decide_eq_true hallow
            have hreg : (s.pipe.threads t).registered = (s.pipe.threads t).hasRing := by
              rw [Thread.registered, hpc]
            refine .inr (.inr (.inr ⟨t, ?_⟩))
            split
            · exact move_setPc hnow hlive hreg.symm (fun d hd ↦ Option.some.inj hd ▸ htid) rfl
            · rename_i hring
              rw [Bool.not_eq_true] at hring
              exact move_setPc hnow hlive (by rw [hreg, hring]; rfl)
                (fun d hd ↦ Option.some.inj hd ▸ htid) rfl
        | @noMemory t e hpc =>
            have hlive : (s.pipe.threads t).pc ≠ .exited := fun he ↦ by cases hpc.symm.trans he
            have hring : (s.pipe.threads t).hasRing = false := by
              have hinv := (h.lane t).pc
              rwa [Thread.Inv, show (s.pipe.lane t).thread.pc = .alloc e from hpc] at hinv
            refine .inr (.inr (.inr ⟨t, move_setPc hnow hlive ?_ (fun _ hd ↦ by cases hd) rfl⟩))
            rw [Thread.registered, Thread.registered, hpc]
            exact hring
        | exit hpc => exact .inr (.inr (.inr ⟨_, move_exit hnow hpc _⟩))
        | ignored | disable | requestShutdown | join =>
            exact .inr (.inl ⟨same_after hnow rfl rfl, rfl⟩)
        | @backend i _ hp =>
            have hun := Pipeline.backendStep_untouched hp
            have hsame : Same s (s.after now p) := same_after hnow hun.threads hun.committed
            rcases Pipeline.backendStep_trace hp with htrace | ⟨prev, r, work, out, hst, htrace⟩
            · exact .inr (.inl ⟨hsame, htrace⟩)
            · exact .inr (.inr (.inl ⟨now, i, prev, r, work, out, rfl, hst, hsame, htrace⟩))
      · cases hs

end Cases

end Timed

end DeadLockDetect.Runtime
