import DeadLockDetect.Runtime.Timed
import DeadLockDetect.Trace.Format

/-!
# From the backend to the disk

`backend.cpp` and `event_log.cpp` write the trace through a `FILE` with a buffer of a megabyte.  What
is in the buffer is lost if the process is killed.  A signal asks for a flush
(`signal_flush_handler`): the handler only sets a flag, and `backend_main` looks at it at the end of
each round.

## What is transcribed

* `RoundEnd` is the position between `scan_all_rings_once` and the test of the shutdown request; the
  test itself is the step of the pipeline.
* `spill` stands for every moment at which stdio empties the buffer in whole or in part by itself.
* The end of the final drain is followed by `fflush` and `fclose`, which no other thread can come
  between.
* The threads, their rings and the backend are those of `Pipeline.step`: a thread logs nothing after
  its `ring_tls_destructor`.

What is written is in order in the file and in the buffer (`Inv`), so the file is at every moment a
beginning of the trace; `recorder_safe` also says what a request to flush is good for.
-/

namespace DeadLockDetect.Runtime

/-- The position of `backend_main` after a round. -/
inductive RoundEnd where
  /-- About to take the request to flush. -/
  | exchange
  /-- There was a request. -/
  | fflush
  /-- About to test the shutdown request. -/
  | shutdown
deriving DecidableEq

/-- The pipeline with the file that it writes. -/
structure Recorder where
  pipe : Pipeline
  file : List Char
  buf : List Char
  flushRequest : Bool
  roundEnd : RoundEnd

/-- What can happen next. -/
inductive RecorderAction where
  | runtime (a : Pipeline.Action)
  /-- `backend_main` looks after the request to flush. -/
  | checkFlush
  /-- The signal handler asks for a flush. -/
  | requestFlush
  /-- The first characters of the buffer go to the file. -/
  | spill (n : Nat)

namespace Recorder

/-- The pipeline goes on; what it writes goes to the buffer. -/
def put (s : Recorder) (p : Pipeline) : Recorder :=
  { s with
    pipe := p
    buf := s.buf ++ (p.trace.drop s.pipe.trace.length).flatMap fun x ↦ x.2.text }

/-- `fflush`. -/
def flush (s : Recorder) : Recorder := { s with file := s.file ++ s.buf, buf := [] }

section

variable (ringBytes : UInt64) (memory : RingId → Nat → UInt8)

/-- A step of the pipeline. -/
def runtimeStep (s : Recorder) : Pipeline.Action → Option Recorder
  | .backend i => match s.pipe.stage with
    | .running (.done _) =>
        if s.roundEnd = .shutdown then
          (s.pipe.backendStep i).map fun p ↦ { s.put p with roundEnd := .exchange }
        else none
    | .finalDrain (.done false) => (s.pipe.backendStep i).map fun p ↦ (s.put p).flush
    | _ => (s.pipe.backendStep i).map s.put
  | a => (s.pipe.step ringBytes memory a).map s.put

/-- One step. -/
def step (s : Recorder) : RecorderAction → Option Recorder
  | .runtime a => s.runtimeStep ringBytes memory a
  | .checkFlush => match s.pipe.stage, s.roundEnd with
    | .running (.done _), .exchange =>
        some { s with
          flushRequest := false
          roundEnd := if s.flushRequest then .fflush else .shutdown }
    | .running (.done _), .fflush => some { s.flush with roundEnd := .shutdown }
    | _, _ => none
  | .requestFlush => some { s with flushRequest := true }
  | .spill n => some { s with file := s.file ++ s.buf.take n, buf := s.buf.drop n }

/-- The log has just been opened. -/
def init (pid : Int32) (exe : Field) (mods : List ModuleEntry) : Recorder where
  pipe := Pipeline.init ringBytes memory
  file := []
  buf := printLine (headerFields pid) ++ dumpModuleMap exe mods
  flushRequest := false
  roundEnd := .exchange

/-- A run. -/
def exec (s : Recorder) (as : List RecorderAction) : Option Recorder :=
  Run.run (step ringBytes memory) s as

end

/-! ## What a step does -/

variable {ringBytes : UInt64} {memory : RingId → Nat → UInt8}

/-- What a step has done. -/
inductive Stepped (ringBytes : UInt64) (memory : RingId → Nat → UInt8) (s : Recorder) :
    RecorderAction → Recorder → Prop where
  /-- The pipeline goes on. -/
  | put {a : Pipeline.Action} {p : Pipeline} (hp : s.pipe.step ringBytes memory a = some p)
      (hopen : p.stage = .closed → s.pipe.stage = .closed) : Stepped _ _ s (.runtime a) (s.put p)
  /-- The backend begins a new round, or its last drain. -/
  | round {i : Nat} {p : Pipeline} (hp : s.pipe.step ringBytes memory (.backend i) = some p)
      (hopen : p.stage ≠ .closed) (hround : s.roundEnd = .shutdown) :
      Stepped _ _ s (.runtime (.backend i)) { s.put p with roundEnd := .exchange }
  /-- The log is closed. -/
  | close {i : Nat} {p : Pipeline} (hp : s.pipe.step ringBytes memory (.backend i) = some p) :
      Stepped _ _ s (.runtime (.backend i)) (s.put p).flush
  | exchange (hround : s.roundEnd = .exchange) : Stepped _ _ s .checkFlush
      { s with
        flushRequest := false
        roundEnd := if s.flushRequest then .fflush else .shutdown }
  | fflush (hround : s.roundEnd = .fflush) :
      Stepped _ _ s .checkFlush { s.flush with roundEnd := .shutdown }
  | requestFlush : Stepped _ _ s .requestFlush { s with flushRequest := true }
  | spill (n : Nat) :
      Stepped _ _ s (.spill n) { s with file := s.file ++ s.buf.take n, buf := s.buf.drop n }

end Recorder

namespace Pipeline

variable {ringBytes : UInt64} {memory : RingId → Nat → UInt8} {s s' : Pipeline}

/-- The log is closed by the end of the final drain. -/
theorem closed_of_step {a : Action} (hs : s.step ringBytes memory a = some s')
    (hc : s'.stage = .closed) :
    s.stage = .closed ∨ (∃ i, a = .backend i) ∧ s.stage = .finalDrain (.done false) := by
  cases stepped_of_step hs with
  | call | ignored | noMemory | exit | disable | requestShutdown => exact .inl hc
  | thread hs => exact .inl ((threadStep_byThread hs).stage.symm.trans hc)
  | join => cases hc
  | backend hs =>
      rw [backendStep] at hs
      split at hs
      case h_2 | h_4 | h_7 =>
        obtain ⟨x, -, rfl⟩ := Option.map_eq_some_iff.mp hs
        cases hc
      case h_6 work hst =>
        cases hs
        cases work with
        | true => cases hc
        | false => exact .inr ⟨⟨_, rfl⟩, hst⟩
      case h_1 =>
        cases hs
        dsimp only at hc
        split at hc <;> cases hc
      case h_3 work _ =>
        cases hs
        cases work <;> cases hc
      all_goals cases hs

/-- The trace grows. -/
theorem trace_isPrefix_of_step {a : Action} (hs : s.step ringBytes memory a = some s') :
    s.trace <+: s'.trace := by
  cases stepped_of_step hs with
  | thread hs => exact (threadStep_byThread hs).trace ▸ List.prefix_refl _
  | backend hs =>
      rcases backendStep_trace hs with htrace | ⟨prev, r, work, out, -, htrace⟩
      · exact htrace ▸ List.prefix_refl _
      · exact htrace ▸ List.prefix_append _ _
  | _ => exact List.prefix_refl _

/-- Nothing is written once the log is closed. -/
theorem trace_of_closed {a : Action} (hs : s.step ringBytes memory a = some s')
    (hc : s.stage = .closed) : s'.trace = s.trace := by
  cases stepped_of_step hs with
  | thread hs => exact (threadStep_byThread hs).trace
  | backend hs =>
      rw [backendStep, hc] at hs
      cases hs
  | _ => rfl

end Pipeline

namespace Recorder

variable {ringBytes : UInt64} {memory : RingId → Nat → UInt8} {s s' : Recorder}
  {a : RecorderAction}

theorem stepped_of_step (hs : s.step ringBytes memory a = some s') :
    Stepped ringBytes memory s a s' := by
  cases a with
  | runtime a =>
      rw [step, runtimeStep.eq_def] at hs
      split at hs
      · rename_i i
        split at hs
        · rename_i work hst
          obtain ⟨hround, hs⟩ := Option.ite_none_right_eq_some.mp hs
          obtain ⟨p, hp, rfl⟩ := Option.map_eq_some_iff.mp hs
          have hp : s.pipe.step ringBytes memory (.backend i) = some p := hp
          refine .round hp (fun hc ↦ ?_) hround
          rcases Pipeline.closed_of_step hp hc with h | ⟨-, h⟩ <;> cases hst.symm.trans h
        · obtain ⟨p, hp, rfl⟩ := Option.map_eq_some_iff.mp hs
          exact .close hp
        · rename_i hno
          obtain ⟨p, hp, rfl⟩ := Option.map_eq_some_iff.mp hs
          have hp : s.pipe.step ringBytes memory (.backend i) = some p := hp
          exact .put hp fun hc ↦ (Pipeline.closed_of_step hp hc).resolve_right fun h ↦ hno h.2
      · rename_i hno
        obtain ⟨p, hp, rfl⟩ := Option.map_eq_some_iff.mp hs
        refine .put hp fun hc ↦ (Pipeline.closed_of_step hp hc).resolve_right ?_
        rintro ⟨⟨i, hi⟩, -⟩
        exact hno i hi
  | checkFlush =>
      rw [step] at hs
      split at hs
      · rename_i hround
        cases hs
        exact .exchange hround
      · rename_i hround
        cases hs
        exact .fflush hround
      · cases hs
  | requestFlush =>
      cases hs
      exact .requestFlush
  | spill n =>
      cases hs
      exact .spill n

theorem pipe_of_step (hs : s.step ringBytes memory a = some s') :
    (∃ b, a = .runtime b ∧ s.pipe.step ringBytes memory b = some s'.pipe) ∨
      (∀ b, a ≠ .runtime b) ∧ s'.pipe = s.pipe := by
  cases stepped_of_step hs with
  | put hp | round hp | close hp => exact .inl ⟨_, rfl, hp⟩
  | exchange | fflush | requestFlush | spill => exact .inr ⟨fun _ ↦ nofun, rfl⟩

/-- What has been written, in the file or still in the buffer. -/
def out (s : Recorder) : List Char := s.file ++ s.buf

@[simp] theorem put_out (s : Recorder) (p : Pipeline) : (s.put p).out =
    s.out ++ (p.trace.drop s.pipe.trace.length).flatMap fun x ↦ x.2.text :=
  (List.append_assoc _ _ _).symm

@[simp] theorem flush_out (s : Recorder) : s.flush.out = s.out := List.append_nil _

/-- What has been written stays, and so does what is in the file. -/
theorem isPrefix_of_step (hs : s.step ringBytes memory a = some s') :
    s.out <+: s'.out ∧ s.file <+: s'.file := by
  have hput (p : Pipeline) : s.out <+: (s.put p).out := by
    rw [put_out]
    exact List.prefix_append _ _
  cases stepped_of_step hs with
  | put | round => exact ⟨hput _, List.prefix_refl _⟩
  | @close i p => exact ⟨(flush_out (s.put p)).symm ▸ hput p, List.prefix_append _ _⟩
  | exchange | requestFlush => exact ⟨List.prefix_refl _, List.prefix_refl _⟩
  | fflush => exact ⟨(flush_out s).symm ▸ List.prefix_refl _, List.prefix_append _ _⟩
  | spill n =>
      have hout : s.file ++ s.buf.take n ++ s.buf.drop n = s.out := by
        rw [List.append_assoc, List.take_append_drop]
        rfl
      exact ⟨hout.symm ▸ List.prefix_refl _, List.prefix_append _ _⟩

/-- The file and the buffer have the text of the trace, and closing leaves nothing in the buffer. -/
structure Inv (pid : Int32) (exe : Field) (mods : List ModuleEntry) (s : Recorder) : Prop where
  out_eq : s.out = traceText pid exe mods (s.pipe.trace.map Prod.snd)
  closed : s.pipe.stage = .closed → s.buf = []

section

variable {pid : Int32} {exe : Field} {mods : List ModuleEntry}

theorem init_inv : (init ringBytes memory pid exe mods).Inv pid exe mods where
  out_eq := (List.append_nil _).symm
  closed h := by cases h

theorem Inv.put_out_eq (h : s.Inv pid exe mods) {p : Pipeline} (hp : s.pipe.trace <+: p.trace) :
    (s.put p).out = traceText pid exe mods (p.trace.map Prod.snd) := by
  obtain ⟨new, htrace⟩ := hp
  rw [put_out, h.out_eq, ← htrace, List.drop_left]
  simp only [traceText, List.map_append, List.flatMap_append, List.flatMap_map, List.append_assoc]

theorem Inv.step (h : s.Inv pid exe mods) (hs : s.step ringBytes memory a = some s') :
    s'.Inv pid exe mods := by
  cases stepped_of_step hs with
  | @put a p hp hopen =>
      refine ⟨h.put_out_eq (Pipeline.trace_isPrefix_of_step hp), fun hc ↦ ?_⟩
      have htrace := Pipeline.trace_of_closed hp (hopen hc)
      show s.buf ++ _ = []
      rw [htrace, List.drop_length, h.closed (hopen hc)]
      rfl
  | round hp hopen =>
      exact ⟨h.put_out_eq (Pipeline.trace_isPrefix_of_step hp), fun hc ↦ absurd hc hopen⟩
  | close hp =>
      refine ⟨?_, fun _ ↦ rfl⟩
      rw [flush_out]
      exact h.put_out_eq (Pipeline.trace_isPrefix_of_step hp)
  | exchange | requestFlush => exact ⟨h.out_eq, h.closed⟩
  | fflush => exact ⟨(flush_out s).trans h.out_eq, fun _ ↦ rfl⟩
  | spill n =>
      refine ⟨?_, fun hc ↦ ?_⟩
      · rw [out, List.append_assoc, List.take_append_drop]
        exact h.out_eq
      · show s.buf.drop n = []
        rw [h.closed hc, List.drop_nil]

theorem Inv.exec {as : List RecorderAction} (h : s.Inv pid exe mods)
    (hs : s.exec ringBytes memory as = some s') : s'.Inv pid exe mods :=
  Run.run_inv (fun _ _ _ _ h hs ↦ h.step hs) h hs

end

/-! ## Requests to flush -/

/-- What is in `t` has been written and is in the file, or it will be when the backend has flushed. -/
def Answered (t : List Char) (s : Recorder) : Prop :=
  t <+: s.out ∧ (s.roundEnd = .fflush ∨ t <+: s.file)

/-- The request is still there, or it was answered. -/
def Requested (t : List Char) (s : Recorder) : Prop :=
  t <+: s.out ∧ (s.flushRequest = true ∨ Answered t s)

theorem Answered.step {t : List Char} (h : Answered t s)
    (hs : s.step ringBytes memory a = some s') : Answered t s' := by
  obtain ⟨hout, hfile⟩ := isPrefix_of_step hs
  refine ⟨h.1.trans hout, ?_⟩
  rcases h.2 with hround | ht
  · cases stepped_of_step hs with
    | put | requestFlush | spill => exact .inl hround
    | round _ _ hround' | exchange hround' => cases hround.symm.trans hround'
    | @close i p => exact .inr ((h.1.trans hout).trans (by rw [flush_out]; exact List.prefix_refl _))
    | fflush => exact .inr h.1
  · exact .inr (ht.trans hfile)

theorem Requested.step {t : List Char} (h : Requested t s)
    (hs : s.step ringBytes memory a = some s') : Requested t s' := by
  obtain ⟨hout, -⟩ := isPrefix_of_step hs
  refine ⟨h.1.trans hout, ?_⟩
  rcases h.2 with hflag | hans
  · cases stepped_of_step hs with
    | exchange =>
        refine .inr ⟨h.1, .inl ?_⟩
        rw [hflag]
        rfl
    | requestFlush => exact .inl rfl
    | put | round | close | fflush | spill => exact .inl hflag
  · exact .inr (hans.step hs)

theorem Requested.exec {t : List Char} {as : List RecorderAction} (h : Requested t s)
    (hs : s.exec ringBytes memory as = some s') : Requested t s' :=
  Run.run_inv (fun _ _ _ _ h hs ↦ h.step hs) h hs

theorem Answered.exec {t : List Char} {as : List RecorderAction} (h : Answered t s)
    (hs : s.exec ringBytes memory as = some s') : Answered t s' :=
  Run.run_inv (fun _ _ _ _ h hs ↦ h.step hs) h hs

/-- `backend_main` takes the request. -/
theorem Requested.exchange {t : List Char} (h : Requested t s) (hround : s.roundEnd = .exchange)
    (hs : s.step ringBytes memory .checkFlush = some s') : Answered t s' := by
  rcases h.2 with hflag | hans
  · cases stepped_of_step hs with
    | exchange =>
        refine ⟨h.1, .inl ?_⟩
        rw [hflag]
        rfl
    | fflush hround' => cases hround.symm.trans hround'
  · exact hans.step hs

/-- `backend_main` exchanges the flag of the request. -/
def Exchanges (s : Recorder) (a : RecorderAction) : Prop :=
  a = .checkFlush ∧ s.roundEnd = .exchange

end Recorder

open Recorder

/-- **What is on the disk.**  At every moment of every run the file is a beginning of the trace that
the pipeline has written, and all of it when the log is closed.  After a request to flush, as soon as
the backend has exchanged the flag and is not about to flush, the file has all that had been written
when the request was made. -/
theorem recorder_safe (ringBytes : UInt64) (memory : RingId → Nat → UInt8) (pid : Int32)
    (exe : Field) (mods : List ModuleEntry) (as : List RecorderAction) (s : Recorder)
    (hs : (Recorder.init ringBytes memory pid exe mods).exec ringBytes memory as = some s) :
    s.file <+: traceText pid exe mods (s.pipe.trace.map Prod.snd) ∧
      (s.pipe.stage = .closed → s.file = traceText pid exe mods (s.pipe.trace.map Prod.snd)) ∧
      ∀ pre post s₁, as = pre ++ .requestFlush :: post →
        (Recorder.init ringBytes memory pid exe mods).exec ringBytes memory pre = some s₁ →
        Run.Took (Recorder.step ringBytes memory) Exchanges { s₁ with flushRequest := true } post →
        s.roundEnd ≠ .fflush →
        traceText pid exe mods (s₁.pipe.trace.map Prod.snd) <+: s.file := by
  have hinv : s.Inv pid exe mods := init_inv.exec hs
  refine ⟨?_, fun hc ↦ ?_, ?_⟩
  · rw [← hinv.out_eq]
    exact List.prefix_append _ _
  · rw [← hinv.out_eq, out, hinv.closed hc, List.append_nil]
  · rintro pre post s₁ rfl hpre ⟨mid, a, rest, s₂, rfl, hmid, rfl, hround⟩ hflush
    have hinv₁ : s₁.Inv pid exe mods := init_inv.exec hpre
    have hreq : Requested s₁.out { s₁ with flushRequest := true } :=
      ⟨List.prefix_refl _, .inl rfl⟩
    have hreq₂ : Requested s₁.out s₂ := hreq.exec hmid
    -- the run goes from the request to the exchange and from there to its end
    rw [Recorder.exec, Run.run_append] at hs
    rw [Recorder.exec] at hpre
    rw [hpre, Option.bind_some] at hs
    obtain ⟨s₃, h₃, hs⟩ := Run.run_cons_eq_some.mp hs
    cases h₃
    rw [Run.run_append, hmid, Option.bind_some] at hs
    obtain ⟨s₄, h₄, hs⟩ := Run.run_cons_eq_some.mp hs
    have hans : Answered s₁.out s := (hreq₂.exchange hround h₄).exec hs
    rw [← hinv₁.out_eq]
    exact hans.2.resolve_left hflush

/-- A thread logs an event, and the backend writes it. -/
def loggedEvent : List RecorderAction :=
  .runtime (.call 1 (mutexEvent 1 7 10 .lockPost)) :: List.replicate 50 (.runtime (.thread 1 0)) ++
    List.replicate 3 (.runtime (.backend 0)) ++ .runtime (.backend 1) ::
      List.replicate 6 (.runtime (.backend 0))

/-- The round of the backend ends with a flush. -/
def flushedRound : List RecorderAction :=
  List.replicate 7 (.runtime (.backend 0)) ++ [.checkFlush, .checkFlush]

/-- The event is on the disk. -/
theorem recorder_safe_flushedRound : ∃ s : Recorder,
    (Recorder.init 64 (fun _ _ ↦ 0) 42 ⟨[], isField_nil⟩ []).exec 64 (fun _ _ ↦ 0)
      (loggedEvent ++ .requestFlush :: flushedRound) = some s ∧
    traceText 42 ⟨[], isField_nil⟩ [] [(mutexEvent 1 7 10 .lockPost).record] <+: s.file := by
  have hlogged : ((Recorder.init 64 (fun _ _ ↦ 0) 42 ⟨[], isField_nil⟩ []).exec 64 (fun _ _ ↦ 0)
      loggedEvent).any (fun s ↦
        s.pipe.trace.map Prod.snd = [(mutexEvent 1 7 10 .lockPost).record] ∧
        (Run.run (Recorder.step 64 fun _ _ ↦ 0) { s with flushRequest := true }
          (List.replicate 7 (.runtime (.backend 0)))).any (fun s ↦ s.roundEnd = .exchange)) =
      true := by decide +kernel
  have hrun : ((Recorder.init 64 (fun _ _ ↦ 0) 42 ⟨[], isField_nil⟩ []).exec 64 (fun _ _ ↦ 0)
      (loggedEvent ++ .requestFlush :: flushedRound)).any (fun s ↦ s.roundEnd ≠ .fflush) =
      true := by decide +kernel
  obtain ⟨s₁, h₁, hstate⟩ := (Option.any_eq_true _ _).mp hlogged
  obtain ⟨htrace, hround⟩ := of_decide_eq_true hstate
  obtain ⟨s₂, h₂, hexchange⟩ := (Option.any_eq_true _ _).mp hround
  obtain ⟨s, hs, hflush⟩ := (Option.any_eq_true _ _).mp hrun
  refine ⟨s, hs, ?_⟩
  rw [← htrace]
  exact (recorder_safe 64 (fun _ _ ↦ 0) 42 ⟨[], isField_nil⟩ []
    (loggedEvent ++ .requestFlush :: flushedRound) s hs).2.2 loggedEvent flushedRound s₁ rfl h₁
    ⟨_, .checkFlush, [.checkFlush], s₂, rfl, h₂, rfl, of_decide_eq_true hexchange⟩
    (of_decide_eq_true hflush)

end DeadLockDetect.Runtime
