import DeadLockDetect.Analyzer.Cli
import DeadLockDetect.Trace.Cut
import DeadLockDetect.Trace.Inversion
import DeadLockDetect.Trace.Order
import DeadLockDetect.Trace.Recorder

/-!
# From the calls to the verdict

The wrappers, `log_event`, the rings, the backend, the file and the analyzer, put together.

## What is transcribed

* `Traced` has a process: its mutexes with the positions of its threads in the wrappers, and the
  recorder.  A thread that is in `log_event` takes no step in its wrapper (`step`).
* A thread is named by its id, and no id is used twice: a thread that has exited, which it does
  outside of the wrappers, takes no step any more.  In particular it logs nothing after its
  `ring_tls_destructor`.  The kernel does use ids again, and then an inversion may be reported that
  there was not (`TidOrder`).
* The calls are those of `Mutexes`: `pthread_mutex_lock` and `pthread_mutex_unlock` on mutexes that are
  not recursive.

## What is ours

`Kept` says what the pipeline has of the events of a thread: successive ones, from the first one on
unless there was no memory for the ring, and up to the last one while the log is on.  With what
`Recorder` says of the file, `Cut` of files that break off, and `Inversion` of traces that have a part
of the log, no deadlock is reported that there was not (`exitCode_sound`), and after an orderly end
every inversion is (`exitCode_exact`).
-/

namespace DeadLockDetect.Runtime

open Analyzer Components Relation

/-! ## What the pipeline has of a thread -/

namespace Pipeline

variable {ringBytes : UInt64} {memory : RingId → Nat → UInt8} {s s' : Pipeline} {r : RingId}

/-- The events of a thread that are committed, and the one that it is about to commit. -/
def told (s : Pipeline) (r : RingId) : List LogEvent :=
  s.committed r ++ (s.threads r).pc.event?.toList

theorem told_congr (hc : s'.committed r = s.committed r) (ht : s'.threads r = s.threads r) :
    s'.told r = s.told r := by
  rw [told, told, hc, ht]

/-- A thread that goes on in `log_event` still has its event, or it has committed it. -/
theorem told_threadStep {t : RingId} {i : Nat} (hs : s.threadStep ringBytes memory t i = some s') :
    s'.told t = s.told t := by
  unfold threadStep at hs
  split at hs
  case h_1 | h_2 => cases hs
  case h_4 hpc =>
    split at hs <;> cases hs
    simp [told, setPc, hpc, ThreadPc.event?]
  case h_8 e p hpc =>
    obtain ⟨x, -, rfl⟩ := Option.map_eq_some_iff.mp hs
    split <;> simp [told, setPc, setRing, hpc, ThreadPc.event?]
  all_goals
    rename_i hpc
    cases hs
    simp [told, setPc, hpc, ThreadPc.event?]

/-- What a step does to the events of a thread. -/
inductive Tells (s : Pipeline) (r : RingId) : Action → Pipeline → Prop where
  | same {a : Action} {s' : Pipeline} (htold : s'.told r = s.told r)
      (hidle : (s.threads r).pc.event? = none → (s'.threads r).pc.event? = none)
      (hlog : s'.logEnabled = true → s.logEnabled = true) (ha : ∀ e, a ≠ .call r e) :
      Tells s r a s'
  /-- The thread calls `log_event`. -/
  | call {e : LogEvent} {s' : Pipeline} (hlog : s.logEnabled = true)
      (htold : s'.told r = s.told r ++ [e]) : Tells s r (.call r e) s'
  /-- The log is off. -/
  | late {e : LogEvent} {s' : Pipeline} (hlog : s.logEnabled = false)
      (hidle : (s.threads r).pc = .idle) (hs : s' = s) : Tells s r (.call r e) s'
  /-- There is no memory for the ring. -/
  | lose {e : LogEvent} {s' : Pipeline} (hpc : (s.threads r).pc = .alloc e)
      (hs : s' = s.setPc r .idle) : Tells s r (.noMemory r) s'

theorem tells_of_step {a : Action} (hs : s.step ringBytes memory a = some s') (r : RingId) :
    s.Tells r a s' := by
  cases stepped_of_step hs with
  | @call t e hpc hlog =>
      by_cases ht : r = t
      · subst ht
        refine .call hlog ?_
        simp only [told, setPc, Function.update_self, hpc]
        split <;> simp [ThreadPc.event?]
      · have hth : (s.setPc t (if (s.threads t).hasRing then .produce e .idle else .alloc e)).threads
            r = s.threads r := Function.update_of_ne ht _ _
        refine .same (told_congr rfl hth) (fun h ↦ by rw [hth, h]) id fun e' he ↦ ?_
        cases he
        exact ht rfl
  | @ignored t e hpc hlog =>
      by_cases ht : r = t
      · subst ht
        exact .late (Bool.eq_false_of_not_eq_true hlog) hpc rfl
      · refine .same rfl id id fun e' he ↦ ?_
        cases he
        exact ht rfl
  | @thread t i _ hs =>
      have hby := threadStep_byThread hs
      by_cases ht : r = t
      · subst ht
        refine .same (told_threadStep hs) (fun h ↦ ?_) (fun h ↦ hby.logEnabled ▸ h) fun _ he ↦ by cases he
        unfold threadStep at hs
        split at hs <;> simp_all [ThreadPc.event?]
      · refine .same (told_congr (hby.committed r ht) (hby.threads r ht)) (fun h ↦ ?_)
          (fun h ↦ hby.logEnabled ▸ h) fun _ he ↦ by cases he
        rw [hby.threads r ht, h]
  | @noMemory t e hpc =>
      by_cases ht : r = t
      · subst ht
        exact .lose hpc rfl
      · have hth : (s.setPc t .idle).threads r = s.threads r := Function.update_of_ne ht _ _
        exact .same (told_congr rfl hth) (fun h ↦ by rw [hth, h]) id fun _ he ↦ by cases he
  | @exit t hpc =>
      refine .same ?_ (fun h ↦ ?_) id fun _ he ↦ by cases he
      · by_cases ht : r = t
        · subst ht
          simp [told, setPc, hpc, ThreadPc.event?]
        · exact told_congr rfl (Function.update_of_ne ht _ _)
      · by_cases ht : r = t
        · subst ht
          simp [setPc, ThreadPc.event?]
        · simp only [setPc, Function.update_of_ne ht]
          exact h
  | disable => exact .same rfl id (fun h ↦ by cases h) fun _ he ↦ by cases he
  | requestShutdown | join => exact .same rfl id id fun _ he ↦ by cases he
  | backend hs =>
      have hun := backendStep_untouched hs
      refine .same (told_congr (congrFun hun.committed r) (congrFun hun.threads r)) (fun h ↦ ?_)
        (fun h ↦ hun.logEnabled ▸ h) fun _ he ↦ by cases he
      rw [hun.threads, h]

end Pipeline

theorem filterMap_event?_record (es : List LogEvent) :
    (es.map LogEvent.record).filterMap Record.event? = es.map LogEvent.event := by
  rw [List.filterMap_map, ← List.filterMap_eq_map]
  exact List.filterMap_congr fun e _ ↦ e.event?_record

/-! ## The process -/

/-- The thread is in the real function. -/
def WrapperPc.inReal : WrapperPc → Bool
  | .realLock _ | .realUnlock _ => true
  | _ => false

/-- The wrapper of thread `t` logs this event. -/
def WrapperPc.logs (t : Int) (e : Event) : WrapperPc → Bool
  | .lockPost m rc => e = lockPostEvent t m rc e.tsNs e.bt
  | .unlock m => e = unlockEvent t m e.tsNs e.bt
  | _ => false

/-- A process with its trace. -/
structure Traced where
  mutexes : Mutexes
  recorder : Recorder

/-- What can happen next. -/
inductive TracedAction where
  /-- A thread calls `pthread_mutex_lock`. -/
  | lock (t : RingId) (m : UInt64)
  /-- A thread calls `pthread_mutex_unlock`. -/
  | unlock (t : RingId) (m : UInt64)
  /-- The real function returns. -/
  | real (t : RingId)
  /-- The wrapper calls `log_event`. -/
  | log (t : RingId) (e : LogEvent)
  /-- Anything else. -/
  | record (a : RecorderAction)

namespace TracedAction

/-- The step in the wrappers that an action is. -/
def wrapper? : TracedAction → Option Mutexes.Action
  | lock t m => some (.lock t m.toNat)
  | unlock t m => some (.unlock t m.toNat)
  | real t => some (.go t 0 [])
  | log t e => some (.go t e.event.tsNs e.event.bt)
  | record _ => none

/-- The step of the recorder that an action is. -/
def recorder? : TracedAction → Option RecorderAction
  | log t e => some (.runtime (.call t e))
  | record a => some a
  | _ => none

/-- There is no memory for a ring. -/
def fails : TracedAction → Bool
  | record (.runtime (.noMemory _)) => true
  | _ => false

end TracedAction

namespace Traced

/-- The thread is not in `log_event`. -/
def Returned (s : Traced) (t : RingId) : Prop := (s.recorder.pipe.threads t).pc = .idle

instance (s : Traced) (t : RingId) : Decidable (s.Returned t) :=
  inferInstanceAs (Decidable (_ = _))

/-- Whether the recorder may take a step: calls of `log_event` come from the wrappers, and a thread
exits outside of them. -/
def allows (s : Traced) : RecorderAction → Bool
  | .runtime (.call _ _) => false
  | .runtime (.exit t) => s.mutexes.pc t = .outside
  | _ => true

section

variable (errorcheck : Int → Bool) (ringBytes : UInt64) (memory : RingId → Nat → UInt8)

/-- One step. -/
def step (s : Traced) (a : TracedAction) : Option Traced :=
  match a with
  | .lock t m =>
      if s.Returned t then
        (s.mutexes.step errorcheck (.lock t m.toNat)).map fun x ↦ { s with mutexes := x }
      else none
  | .unlock t m =>
      if s.Returned t then
        (s.mutexes.step errorcheck (.unlock t m.toNat)).map fun x ↦ { s with mutexes := x }
      else none
  | .real t =>
      if s.Returned t ∧ (s.mutexes.pc t).inReal then
        (s.mutexes.step errorcheck (.go t 0 [])).map fun x ↦ { s with mutexes := x }
      else none
  | .log t e =>
      if (s.mutexes.pc t).logs t e.event then
        (s.mutexes.step errorcheck (.go t e.event.tsNs e.event.bt)).bind fun x ↦
          (s.recorder.step ringBytes memory (.runtime (.call t e))).map fun y ↦ ⟨x, y⟩
      else none
  | .record a =>
      if s.allows a then
        (s.recorder.step ringBytes memory a).map fun y ↦ { s with recorder := y }
      else none

/-- The process when the log has been opened.  No mutex is held. -/
def init (pid : Int32) (exe : Field) (mods : List ModuleEntry) : Traced :=
  ⟨{}, Recorder.init ringBytes memory pid exe mods⟩

/-- A run. -/
def exec (s : Traced) (as : List TracedAction) : Option Traced :=
  Run.run (step errorcheck ringBytes memory) s as

end

variable {errorcheck : Int → Bool} {ringBytes : UInt64} {memory : RingId → Nat → UInt8}
  {s s' : Traced} {a : TracedAction}

/-- What a step has done. -/
inductive Stepped (errorcheck : Int → Bool) (ringBytes : UInt64) (memory : RingId → Nat → UInt8)
    (s : Traced) : TracedAction → Traced → Prop where
  /-- Nothing is logged. -/
  | wrapper {a : TracedAction} {b : Mutexes.Action} {x : Mutexes} (hb : a.wrapper? = some b)
      (ha : a.recorder? = none) (hx : s.mutexes.step errorcheck b = some x)
      (hlog : x.log = s.mutexes.log) : Stepped _ _ _ s a { s with mutexes := x }
  | log {t : RingId} {e : LogEvent} {x : Mutexes} {y : Recorder}
      (hx : s.mutexes.step errorcheck (.go t e.event.tsNs e.event.bt) = some x)
      (hy : s.recorder.step ringBytes memory (.runtime (.call t e)) = some y)
      (hlog : x.log = s.mutexes.log ++ [e.event]) (htid : e.event.tid = t) :
      Stepped _ _ _ s (.log t e) ⟨x, y⟩
  | record {a : RecorderAction} {y : Recorder} (ha : s.allows a)
      (hy : s.recorder.step ringBytes memory a = some y) :
      Stepped _ _ _ s (.record a) { s with recorder := y }

theorem stepped_of_step (hs : s.step errorcheck ringBytes memory a = some s') :
    Stepped errorcheck ringBytes memory s a s' := by
  cases a with
  | lock t m | unlock t m =>
      obtain ⟨-, hs⟩ := Option.ite_none_right_eq_some.mp hs
      obtain ⟨x, hx, rfl⟩ := Option.map_eq_some_iff.mp hs
      refine .wrapper rfl rfl hx ?_
      cases Mutexes.stepped_of_step hx
      rfl
  | real t =>
      obtain ⟨⟨-, hreal⟩, hs⟩ := Option.ite_none_right_eq_some.mp hs
      obtain ⟨x, hx, rfl⟩ := Option.map_eq_some_iff.mp hs
      refine .wrapper rfl rfl hx ?_
      cases Mutexes.stepped_of_step hx with
      | granted | refused | realUnlock => rfl
      | lockPost hpc | logUnlock hpc =>
          rw [hpc] at hreal
          cases hreal
  | log t e =>
      obtain ⟨hlogs, hs⟩ := Option.ite_none_right_eq_some.mp hs
      obtain ⟨x, hx, hs⟩ := Option.bind_eq_some_iff.mp hs
      obtain ⟨y, hy, rfl⟩ := Option.map_eq_some_iff.mp hs
      have hevent : x.log = s.mutexes.log ++ [e.event] ∧ e.event.tid = t := by
        cases Mutexes.stepped_of_step hx with
        | granted hpc | refused hpc | realUnlock hpc =>
            rw [hpc] at hlogs
            cases hlogs
        | lockPost hpc | logUnlock hpc =>
            rw [hpc] at hlogs
            have he := of_decide_eq_true hlogs
            exact ⟨by rw [← he], by rw [he]; rfl⟩
      exact .log hx hy hevent.1 hevent.2
  | record a =>
      obtain ⟨ha, hs⟩ := Option.ite_none_right_eq_some.mp hs
      obtain ⟨y, hy, rfl⟩ := Option.map_eq_some_iff.mp hs
      exact .record ha hy

/-- A run of the process is a run of the wrappers. -/
theorem exec_mutexes {as : List TracedAction}
    (hs : s.exec errorcheck ringBytes memory as = some s') :
    s.mutexes.exec errorcheck (as.filterMap TracedAction.wrapper?) = some s'.mutexes := by
  refine Run.run_filterMap Traced.mutexes TracedAction.wrapper? (fun s a s' hs ↦ ?_) hs
  cases stepped_of_step hs with
  | wrapper hb _ hx =>
      rw [hb]
      exact Run.run_cons_eq_some.mpr ⟨_, hx, rfl⟩
  | log hx => exact Run.run_cons_eq_some.mpr ⟨_, hx, rfl⟩
  | record => rfl

/-- A run of the process is a run of the recorder. -/
theorem exec_recorder {as : List TracedAction}
    (hs : s.exec errorcheck ringBytes memory as = some s') :
    s.recorder.exec ringBytes memory (as.filterMap TracedAction.recorder?) = some s'.recorder := by
  refine Run.run_filterMap Traced.recorder TracedAction.recorder? (fun s a s' hs ↦ ?_) hs
  cases stepped_of_step hs with
  | wrapper _ ha =>
      rw [ha]
      rfl
  | log _ hy => exact Run.run_cons_eq_some.mpr ⟨_, hy, rfl⟩
  | record _ hy => exact Run.run_cons_eq_some.mpr ⟨_, hy, rfl⟩

/-- The pipeline has successive events of the thread.  Those before them are `lost`, for want of
memory, and those behind them came too `late`. -/
def Kept (fails : Prop) (s : Traced) (r : RingId) : Prop :=
  ∃ lost late, ofOwner Event.tid s.mutexes.log r =
      lost ++ (s.recorder.pipe.told r).map LogEvent.event ++ late ∧
    (lost = [] ∨ fails) ∧
    (late = [] ∨ s.recorder.pipe.logEnabled = false ∧
      (s.recorder.pipe.threads r).pc.event? = none)

/-- The invariant of a run. -/
structure Inv (fails : Prop) (s : Traced) : Prop where
  pipe : ∃ vs pend l, s.recorder.pipe.Inv vs pend l
  tids : ∀ e ∈ s.mutexes.log, ∃ r : RingId, e.tid = r
  kept : ∀ r, s.Kept fails r

section

variable {fails : Prop} {r : RingId} {y : Recorder}

theorem init_inv {pid : Int32} {exe : Field} {mods : List ModuleEntry} :
    (init ringBytes memory pid exe mods).Inv fails where
  pipe := ⟨_, _, _, Pipeline.init_inv⟩
  tids _ h := absurd h List.not_mem_nil
  kept _ := ⟨[], [], rfl, .inl rfl, .inl rfl⟩

/-- Nothing happens to the events of the thread. -/
theorem Kept.same (h : s.Kept fails r)
    (hlog : ofOwner Event.tid s'.mutexes.log r = ofOwner Event.tid s.mutexes.log r)
    (htold : s'.recorder.pipe.told r = s.recorder.pipe.told r)
    (hidle : (s.recorder.pipe.threads r).pc.event? = none →
      (s'.recorder.pipe.threads r).pc.event? = none)
    (hon : s'.recorder.pipe.logEnabled = true → s.recorder.pipe.logEnabled = true) :
    s'.Kept fails r := by
  obtain ⟨lost, late, hsplit, hlost, hlate⟩ := h
  refine ⟨lost, late, ?_, hlost, hlate.imp_right fun ⟨hoff, hnone⟩ ↦ ⟨?_, hidle hnone⟩⟩
  · rw [hlog, hsplit, htold]
  · refine Bool.eq_false_of_not_eq_true fun h ↦ ?_
    cases hoff.symm.trans (hon h)

/-- The wrapper of thread `t` logs an event. -/
theorem Inv.log (h : s.Inv fails) {t : RingId} {e : LogEvent} {x : Mutexes}
    (hy : s.recorder.pipe.step ringBytes memory (.call t e) = some y.pipe)
    (hlog : x.log = s.mutexes.log ++ [e.event]) (htid : e.event.tid = t) (r : RingId) :
    Kept fails ⟨x, y⟩ r := by
  have hown : ofOwner Event.tid (s.mutexes.log ++ [e.event]) r = _ := ofOwner_concat e.event
  rw [← hlog, htid] at hown
  by_cases hr : r = t
  · subst hr
    rw [if_pos rfl] at hown
    obtain ⟨lost, late, hsplit, hlost, hlate⟩ := h.kept r
    generalize hp : y.pipe = p at hy
    have htells := Pipeline.tells_of_step hy r
    cases htells with
    | same _ _ _ ha => exact absurd rfl (ha e)
    | call hon htold =>
        have hnil : late = [] := hlate.resolve_right fun hoff ↦ by cases hon.symm.trans hoff.1
        refine ⟨lost, [], ?_, hlost, .inl rfl⟩
        show ofOwner Event.tid x.log r = lost ++ (y.pipe.told r).map LogEvent.event ++ []
        rw [hown, hsplit, hnil, hp, htold]
        simp
    | late hoff hidle hs =>
        refine ⟨lost, late ++ [e.event], ?_, hlost, .inr ?_⟩
        · show ofOwner Event.tid x.log r = lost ++ (y.pipe.told r).map LogEvent.event ++ _
          rw [hown, hsplit, hp, hs]
          simp
        · show y.pipe.logEnabled = false ∧ (y.pipe.threads r).pc.event? = none
          rw [hp, hs]
          exact ⟨hoff, by rw [hidle]; rfl⟩
  · rw [if_neg fun he ↦ hr (Int.ofNat_inj.mp he)] at hown
    generalize hp : y.pipe = p at hy
    subst hp
    have htells := Pipeline.tells_of_step hy r
    cases htells with
    | same htold hidle hon => exact (h.kept r).same hown htold hidle hon
    | call | late => exact absurd rfl hr

/-- The pipeline takes a step that is no call. -/
theorem Inv.record (h : s.Inv fails) {b : Pipeline.Action}
    (hy : s.recorder.pipe.step ringBytes memory b = some y.pipe) (hcall : ∀ t e, b ≠ .call t e)
    (hfails : ∀ t, b = .noMemory t → fails) (r : RingId) :
    Kept fails { s with recorder := y } r := by
  generalize hp : y.pipe = p at hy
  subst hp
  have htells := Pipeline.tells_of_step hy r
  generalize hp : y.pipe = p at htells
  cases htells with
  | same htold hidle hon =>
      subst hp
      exact (h.kept r).same rfl htold hidle hon
  | call | late => exact absurd rfl (hcall r _)
  | @lose e _ hpc hs =>
      obtain ⟨vs, pend, l, hinv⟩ := h.pipe
      obtain ⟨lost, late, hsplit, -, hlate⟩ := h.kept r
      have hnone : s.recorder.pipe.committed r = [] := by
        refine ((hinv.lane r).fresh ?_).2
        show Thread.registered (s.recorder.pipe.threads r) = false
        rw [Thread.registered, hpc]
      have hnil : late = [] := hlate.resolve_right fun hoff ↦ by
        rw [hpc] at hoff
        cases hoff.2
      have htold : s.recorder.pipe.told r = [e] := by
        rw [Pipeline.told, hnone, hpc]
        rfl
      have htold' : y.pipe.told r = [] := by
        rw [hp, hs, Pipeline.told, show (s.recorder.pipe.setPc r .idle).committed r = [] from hnone]
        simp [Pipeline.setPc, ThreadPc.event?]
      refine ⟨lost ++ [e.event], [], ?_, .inr (hfails r rfl), .inl rfl⟩
      show ofOwner Event.tid s.mutexes.log r =
        lost ++ [e.event] ++ (y.pipe.told r).map LogEvent.event ++ []
      rw [hsplit, htold, htold', hnil]
      simp

theorem Inv.step (h : s.Inv fails) (hcap : ∃ k, ringBytes.toNat = 2 ^ k)
    (hfails : a.fails → fails) (hs : s.step errorcheck ringBytes memory a = some s') :
    s'.Inv fails := by
  have hpipe {b : Pipeline.Action} {p : Pipeline}
      (hp : s.recorder.pipe.step ringBytes memory b = some p) : ∃ vs pend l, p.Inv vs pend l := by
    obtain ⟨vs, pend, l, hinv⟩ := h.pipe
    exact hinv.step hcap hp
  cases stepped_of_step hs with
  | wrapper _ _ _ hlog =>
      refine ⟨h.pipe, fun e he ↦ h.tids e (hlog ▸ he), fun r ↦ (h.kept r).same ?_ rfl id id⟩
      exact congrArg (ofOwner Event.tid · (r : Int)) hlog
  | @log t e x y _ hy hlog htid =>
      rcases Recorder.pipe_of_step hy with ⟨b, hb, hp⟩ | ⟨hno, -⟩
      · cases hb
        refine ⟨hpipe hp, fun d hd ↦ ?_, h.log hp hlog htid⟩
        rw [show (⟨x, y⟩ : Traced).mutexes.log = s.mutexes.log ++ [e.event] from hlog] at hd
        rcases List.mem_append.mp hd with hd | hd
        · exact h.tids d hd
        · exact ⟨t, List.mem_singleton.mp hd ▸ htid⟩
      · exact absurd rfl (hno _)
  | @record a y ha hy =>
      rcases Recorder.pipe_of_step hy with ⟨b, rfl, hp⟩ | ⟨-, hp⟩
      · refine ⟨hpipe hp, h.tids, h.record hp ?_ ?_⟩
        · rintro t e rfl
          cases ha
        · rintro t rfl
          exact hfails rfl
      · refine ⟨hp ▸ h.pipe, h.tids, fun r ↦ (h.kept r).same rfl ?_ ?_ ?_⟩
        · exact congrArg (Pipeline.told · r) hp
        · exact fun hnone ↦ (congrArg (fun p : Pipeline ↦ (p.threads r).pc.event?) hp).trans hnone
        · exact fun hon ↦ (congrArg Pipeline.logEnabled hp).symm.trans hon

theorem Inv.exec {as : List TracedAction} (h : s.Inv fails) (hcap : ∃ k, ringBytes.toNat = 2 ^ k)
    (hfails : ∀ a ∈ as, a.fails → fails) (hs : s.exec errorcheck ringBytes memory as = some s') :
    s'.Inv fails :=
  Run.run_inv (fun a ha _ _ h hs ↦ h.step hcap (hfails a ha) hs) h hs

/-- What is written for a ring is the beginning of what the thread has committed. -/
theorem Inv.events_isPrefix (h : s.Inv fails) (r : RingId) :
    (s.recorder.pipe.written r).filterMap Record.event? <+:
      (s.recorder.pipe.committed r).map LogEvent.event := by
  obtain ⟨vs, pend, l, hinv⟩ := h.pipe
  have hevents := (hinv.written_isPrefix r).filterMap Record.event?
  rwa [filterMap_event?_record] at hevents

/-- A part of what is written for a ring is a part of what the thread has logged. -/
theorem Inv.exists_append (h : s.Inv fails) {r : RingId} {es : List Event}
    (hes : es <+: (s.recorder.pipe.written r).filterMap Record.event?) :
    ∃ lost late, ofOwner Event.tid s.mutexes.log r = lost ++ es ++ late := by
  obtain ⟨lost, late, hsplit, -⟩ := h.kept r
  obtain ⟨more, hmore⟩ := hes.trans (h.events_isPrefix r)
  rw [Pipeline.told, List.map_append, ← hmore] at hsplit
  refine ⟨lost, more ++ (s.recorder.pipe.threads r).pc.event?.toList.map LogEvent.event ++ late, ?_⟩
  rw [hsplit]
  simp only [List.append_assoc]

/-- The trace is one of events that were logged, and its events of a thread are those of its ring. -/
theorem Inv.exists_events (h : s.Inv fails) : ∃ es : List LogEvent,
    s.recorder.pipe.trace.map Prod.snd = es.map LogEvent.record ∧
    (∀ e ∈ es, ∃ r : RingId, e.event.tid = r) ∧
    ∀ r : RingId, ofOwner Event.tid (es.map LogEvent.event) r =
      (s.recorder.pipe.written r).filterMap Record.event? := by
  obtain ⟨vs, pend, l, hinv⟩ := h.pipe
  have hrange : s.recorder.pipe.trace ∈ Set.range (List.map (Prod.map id LogEvent.record)) := by
    rw [Set.range_list_map]
    rintro ⟨r, x⟩ hx
    have hmem : x ∈ s.recorder.pipe.written r :=
      List.mem_map.mpr ⟨(r, x), List.mem_filter.mpr ⟨hx, decide_eq_true rfl⟩, rfl⟩
    obtain ⟨e, -, rfl⟩ := List.mem_map.mp ((hinv.written_isPrefix r).subset hmem)
    exact ⟨(r, e), rfl⟩
  obtain ⟨tes, htes⟩ := hrange
  have hring : ∀ r, (s.recorder.pipe.written r).filterMap Record.event? =
      (ofOwner Prod.fst tes r).map fun x ↦ x.2.event := by
    intro r
    have hwritten : s.recorder.pipe.written r =
        ((ofOwner Prod.fst tes r).map Prod.snd).map LogEvent.record := by
      rw [Pipeline.written, ← htes, List.filter_map, List.map_map, List.map_map]
      rfl
    rw [hwritten, filterMap_event?_record, List.map_map]
    rfl
  have htid : ∀ x ∈ tes, x.2.event.tid = x.1 := by
    intro x hx
    obtain ⟨lost, late, hsplit⟩ := h.exists_append (List.prefix_refl _)
    rw [hring] at hsplit
    refine (mem_ofOwner.mp (?_ : x.2.event ∈ ofOwner Event.tid s.mutexes.log x.1)).2
    rw [hsplit]
    exact List.mem_append_left _ (List.mem_append_right _
      (List.mem_map.mpr ⟨x, mem_ofOwner.mpr ⟨hx, rfl⟩, rfl⟩))
  refine ⟨tes.map Prod.snd, ?_, fun e he ↦ ?_, fun r ↦ ?_⟩
  · rw [← htes, List.map_map, List.map_map]
    rfl
  · obtain ⟨x, hx, rfl⟩ := List.mem_map.mp he
    exact ⟨x.1, htid x hx⟩
  · rw [hring, List.map_map, ofOwner, List.filter_map]
    refine congrArg _ (List.filter_congr fun x hx ↦ ?_)
    simp [htid x hx]

/-- A thread that is none of the process has no events in the trace. -/
theorem ofOwner_eq_nil {es : List LogEvent} (htid : ∀ e ∈ es, ∃ r : RingId, e.event.tid = r)
    {t : Int} (ht : ¬ ∃ r : RingId, t = r) :
    ofOwner Event.tid (es.map LogEvent.event) t = [] := by
  refine List.eq_nil_iff_forall_not_mem.mpr fun e he ↦ ht ?_
  obtain ⟨hmem, rfl⟩ := mem_ofOwner.mp he
  obtain ⟨x, hx, rfl⟩ := List.mem_map.mp hmem
  exact htid x hx

/-- The beginning of a trace has no edge that the log does not have. -/
theorem Inv.edges_subset (h : s.Inv fails) (hplain : ∀ e ∈ s.mutexes.log, Plain e)
    (hproper : Proper s.mutexes.log) {es : List LogEvent}
    (htid : ∀ e ∈ es, ∃ r : RingId, e.event.tid = r)
    (hring : ∀ r : RingId, ofOwner Event.tid (es.map LogEvent.event) r =
      (s.recorder.pipe.written r).filterMap Record.event?) (k : Nat) {key : EdgeKey}
    (hkey : key ∈ (replay ((es.take k).map LogEvent.event) {}).edges) :
    key ∈ (replay s.mutexes.log {}).edges := by
  refine edges_subset_of_ofOwner hplain hproper (fun t ↦ ?_) key hkey
  by_cases ht : ∃ r : RingId, t = r
  · obtain ⟨r, rfl⟩ := ht
    refine h.exists_append ?_
    rw [← hring]
    exact ((List.take_prefix k es).map _).filter _
  · refine ⟨ofOwner Event.tid s.mutexes.log t, [], ?_⟩
    rw [ofOwner_eq_nil (fun e he ↦ htid e (List.mem_of_mem_take he)) ht]
    simp

end

end Traced

open Traced

/-- **No deadlock is reported that there was not.**  Whenever the process is killed, whatever has
come to the disk by then, and whatever was lost on the way: if the analyzer returns the exit code of
a deadlock for the file, mutexes were locked in a circle.  No thread id is used twice. -/
theorem exitCode_sound (errorcheck : Int → Bool) (ringBytes : UInt64)
    (memory : RingId → Nat → UInt8) (hcap : ∃ k, ringBytes.toNat = 2 ^ k) (pid : Int32)
    (exe : Field) (mods : List ModuleEntry) (as : List TracedAction) (s : Traced)
    (hs : (Traced.init ringBytes memory pid exe mods).exec errorcheck ringBytes memory as = some s)
    (w : World) (argv : List (List Char))
    (hfile : ∀ p text, w.readFile p = some text → text = s.recorder.file)
    (hcode : (main w argv).code = 3) :
    Mutexes.Inversion errorcheck (as.filterMap TracedAction.wrapper?) := by
  have hinv : s.Inv True := init_inv.exec hcap (fun _ _ _ ↦ trivial) hs
  have hrec : s.recorder.Inv pid exe mods := Recorder.init_inv.exec (exec_recorder hs)
  have hmutexes := exec_mutexes hs
  obtain ⟨es, htrace, htid, hring⟩ := hinv.exists_events
  -- the file is read as some of the events of the trace
  obtain ⟨o, pid', modules, events, hrun, hpos⟩ := exists_analyzes_of_code hcode
  obtain ⟨evPath, text, -, hread, hevents⟩ := hrun.read
  obtain ⟨n, hn⟩ : ∃ n, (runText pid exe mods es).take n = text := by
    refine ⟨s.recorder.file.length, ?_⟩
    rw [hfile evPath text hread, runText_eq_traceText, ← htrace, ← hrec.out_eq]
    exact List.take_left
  subst hn
  obtain ⟨k, -, -, herase⟩ := exists_take_of_readTrace pid exe mods es n hevents
  rw [report_snd_congr_bt herase] at hpos
  obtain ⟨-, v, hv⟩ := exists_transGen_of_report_pos hpos
  -- its edges are edges of the log
  refine (Mutexes.exists_transGen_log_iff hmutexes).mp ⟨v, TransGen.mono (fun x y hxy ↦ ?_) v v hv⟩
  exact hinv.edges_subset (Mutexes.init_inv.exec hmutexes).plain (Mutexes.proper_exec hmutexes)
    htid hring k hxy

/-- Thread `t` logs an event in `n` steps. -/
def logEvent (t : RingId) (n : Nat) (e : LogEvent) : List TracedAction :=
  .log t e :: List.replicate n (.record (.runtime (.thread t 0)))

/-- Thread `t` locks a mutex and logs that in `n` steps. -/
def lockMutex (t : RingId) (n : Nat) (ts tid m : UInt64) : List TracedAction :=
  .lock t m :: .real t :: logEvent t n (mutexEvent ts tid m .lockPost)

/-- Thread `t` unlocks a mutex. -/
def unlockMutex (t : RingId) (ts tid m : UInt64) : List TracedAction :=
  .unlock t m :: logEvent t 45 (mutexEvent ts tid m .unlock) ++ [.real t]

/-- Two threads lock the mutexes at `10` and `20` in opposite orders, one after the other. -/
def inversionCalls : List TracedAction :=
  lockMutex 1 50 1 1 10 ++ lockMutex 1 45 2 1 20 ++ unlockMutex 1 3 1 20 ++ unlockMutex 1 4 1 10 ++
    lockMutex 2 50 5 2 20 ++ lockMutex 2 45 6 2 10

/-- The log is disabled; the backend writes the events and stops. -/
def inversionDrain : List TracedAction :=
  (scanTwo 2 4 ++ List.replicate 4 (Pipeline.Action.backend 0)).map (fun a ↦ .record (.runtime a)) ++
    [.record .checkFlush, .record (.runtime .requestShutdown)] ++
    List.replicate 18 (.record (.runtime (.backend 0)))

/-- The final drain. -/
def inversionEnd : List TracedAction := List.replicate 17 (.record (.runtime (.backend 0)))

/-- The events of the run in the order of the trace. -/
def inversionEvents : List LogEvent :=
  [mutexEvent 5 2 20 .lockPost, mutexEvent 6 2 10 .lockPost, mutexEvent 1 1 10 .lockPost,
    mutexEvent 2 1 20 .lockPost, mutexEvent 3 1 20 .unlock, mutexEvent 4 1 10 .unlock]

/-- The process when the log has been opened.  No mutex is held. -/
def inversionInit : Traced := Traced.init 1024 (fun _ _ ↦ 0) 42 ⟨[], isField_nil⟩ []

/-- A machine on which every file has this text. -/
def worldOf (file : List Char) : World where
  readFile _ := some file
  canWrite _ := true
  symSearchPath := none
  toolbox := ⟨fun _ ↦ false, fun _ _ ↦ none⟩
  iterate := id

/-- A command line without options. -/
def plainArgs : List (List Char) := ["deadlock_analyze".toList, "trace".toList]

theorem exec_inversion : ∃ s, inversionInit.exec (fun _ ↦ false) 1024 (fun _ _ ↦ 0)
      (inversionCalls ++ .record (.runtime .disable) :: inversionDrain ++
        .record (.runtime .join) :: inversionEnd) = some s ∧
    s.recorder.pipe.stage = .closed ∧ s.recorder.buf = [] ∧
    s.recorder.pipe.trace.map Prod.snd = inversionEvents.map LogEvent.record := by
  have hrun : (inversionInit.exec (fun _ ↦ false) 1024 (fun _ _ ↦ 0)
      (inversionCalls ++ .record (.runtime .disable) :: inversionDrain ++
        .record (.runtime .join) :: inversionEnd)).any (fun s ↦
      s.recorder.pipe.stage = .closed ∧ s.recorder.buf = [] ∧
      s.recorder.pipe.trace.map Prod.snd = inversionEvents.map LogEvent.record) = true := by
    decide +kernel
  obtain ⟨s, hs, hstate⟩ := (Option.any_eq_true _ _).mp hrun
  exact ⟨s, hs, of_decide_eq_true hstate⟩

/-- All of the run. -/
def inversionRun : List TracedAction :=
  inversionCalls ++ .record (.runtime .disable) :: inversionDrain ++
    .record (.runtime .join) :: inversionEnd

theorem parseArgs_plainArgs :
    parseArgs plainArgs.tail = .done { evPath := some "trace".toList } := by decide

theorem exitCode_sound_inversion :
    Mutexes.Inversion (fun _ ↦ false) (inversionRun.filterMap TracedAction.wrapper?) := by
  obtain ⟨s, hs, -, hbuf, htrace⟩ := exec_inversion
  have hrec : s.recorder.Inv 42 ⟨[], isField_nil⟩ [] := Recorder.init_inv.exec (exec_recorder hs)
  have hfile : s.recorder.file = runText 42 ⟨[], isField_nil⟩ [] inversionEvents := by
    rw [runText_eq_traceText, ← htrace, ← hrec.out_eq, Recorder.out, hbuf, List.append_nil]
  have hrun : Analyzes (worldOf s.recorder.file) plainArgs { evPath := some "trace".toList } 42 _
      (inversionEvents.map LogEvent.event) :=
    ⟨parseArgs_plainArgs, ⟨_, _, rfl, rfl, (congrArg readTrace hfile).trans
      (readTrace_written 42 ⟨[], isField_nil⟩ [] inversionEvents)⟩, fun _ _ ↦ rfl⟩
  refine exitCode_sound (fun _ ↦ false) 1024 (fun _ _ ↦ 0) ⟨10, rfl⟩ 42 ⟨[], isField_nil⟩ []
    inversionRun s hs (worldOf s.recorder.file) plainArgs (fun p text h ↦ ?_) ?_
  · exact (Option.some.inj h).symm
  · exact hrun.code_eq_three_iff.mpr (by decide +kernel)

end DeadLockDetect.Runtime
