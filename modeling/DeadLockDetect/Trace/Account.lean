import DeadLockDetect.Runtime.Release
import DeadLockDetect.Trace.EndToEnd

/-!
# What became of the events of a thread

A thread hands its events to `log_event`.  Those that it handed over before the log was disabled
are `told`: committed, or about to be.  When the log is closed all of them are written, in this
order and once each, with one exception: the event that the thread was in the middle of when the
backend thread was joined may come too late.  An event is dropped where there is no memory for the
ring.

The runs are those of `Pipeline.step`, in which a thread logs nothing after its `ring_tls_destructor`
has marked its ring dead.  One that does may lose more than its last event: `ThreadExit`.
-/

namespace DeadLockDetect.Runtime

open Pipeline

namespace Pipeline

variable {ringBytes : UInt64} {memory : RingId → Nat → UInt8} {s s' s₁ : Pipeline} {r : RingId}
  {a : Action} {as : List Action}

/-- The event that a thread hands to `log_event`. -/
def Action.hands (r : RingId) : Action → Option LogEvent
  | .call t e => if t = r then some e else none
  | _ => none

/-- `log_close` disables the log. -/
def Action.disables : Action → Bool
  | .disable => true
  | _ => false

/-- The events that a thread hands to `log_event` before the log is disabled. -/
def handed (r : RingId) (as : List Action) : List LogEvent :=
  (as.takeWhile fun a ↦ !a.disables).filterMap (Action.hands r)

theorem handed_cons (r : RingId) (a : Action) (as : List Action) :
    handed r (a :: as) = if a.disables then [] else (a.hands r).toList ++ handed r as := by
  cases h : a.disables with
  | true => simp [handed, h]
  | false => cases he : a.hands r <;> simp [handed, h, he]

/-- The log is on until it is disabled. -/
theorem step_logEnabled (hs : s.step ringBytes memory a = some s') :
    s'.logEnabled = (s.logEnabled && !a.disables) := by
  cases stepped_of_step hs with
  | disable => exact (Bool.and_false _).symm
  | thread hs =>
      rw [(threadStep_byThread hs).logEnabled]
      exact (Bool.and_true _).symm
  | backend hs =>
      rw [(backendStep_untouched hs).logEnabled]
      exact (Bool.and_true _).symm
  | call | ignored | noMemory | exit | requestShutdown | join => exact (Bool.and_true _).symm

/-- What a run adds to the events that a thread has told. -/
def added (s : Pipeline) (r : RingId) (as : List Action) : List LogEvent :=
  if s.logEnabled then handed r as else []

/-- A step that tells nothing of the thread. -/
theorem added_cons (hs : s.step ringBytes memory a = some s') (ha : ∀ e, a ≠ .call r e) :
    s.added r (a :: as) = s'.added r as := by
  have hnone : a.hands r = none := by
    cases a with
    | call t e =>
        refine if_neg fun ht ↦ ha e ?_
        rw [ht]
    | _ => rfl
  rw [added, added, step_logEnabled hs, handed_cons, hnone]
  cases s.logEnabled <;> cases a.disables <;> rfl

/-- A run tells what is handed over in it, in the same order; what is missing was dropped for want
of memory. -/
theorem told_sublist (hs : s.exec ringBytes memory as = some s') :
    (s'.told r).Sublist (s.told r ++ s.added r as) ∧
      ((∀ a ∈ as, a ≠ .noMemory r) → s'.told r = s.told r ++ s.added r as) := by
  induction as generalizing s with
  | nil =>
      cases hs
      have hnil : s'.added r [] = [] := by cases h : s'.logEnabled <;> simp [added, handed, h]
      rw [hnil, List.append_nil]
      exact ⟨.refl _, fun _ ↦ rfl⟩
  | cons a as ih =>
      obtain ⟨s₁, h₁, h₂⟩ := Run.run_cons_eq_some.mp hs
      obtain ⟨hsub, heq⟩ := ih h₂
      have rest (has : ∀ b ∈ a :: as, b ≠ .noMemory r) : ∀ b ∈ as, b ≠ .noMemory r :=
        fun b hb ↦ has b (List.mem_cons_of_mem a hb)
      cases tells_of_step h₁ r with
      | same htold _ _ ha =>
          rw [added_cons h₁ ha, ← htold]
          exact ⟨hsub, fun has ↦ heq (rest has)⟩
      | @call e _ hlog htold =>
          have hon : s₁.logEnabled = true := by
            rw [step_logEnabled h₁, hlog]
            rfl
          have hadd : s.told r ++ s.added r (.call r e :: as) = s₁.told r ++ s₁.added r as := by
            simp [added, hlog, hon, htold, handed_cons, Action.disables, Action.hands]
          rw [hadd]
          exact ⟨hsub, fun has ↦ heq (rest has)⟩
      | @late e _ hlog _ he =>
          subst he
          have hadd : s₁.added r (.call r e :: as) = s₁.added r as := by simp [added, hlog]
          rw [hadd]
          exact ⟨hsub, fun has ↦ heq (rest has)⟩
      | @lose e _ hpc he =>
          refine ⟨?_, fun has ↦ absurd rfl (has _ List.mem_cons_self)⟩
          rw [added_cons h₁ fun _ he ↦ by cases he]
          refine hsub.trans (List.Sublist.append_right ?_ _)
          subst he
          simp [told, setPc, hpc, ThreadPc.event?]

theorem told_init (r : RingId) : (init ringBytes memory).told r = [] := rfl

/-- What a thread has told in a run from the start. -/
theorem told_sublist_handed (hs : (init ringBytes memory).exec ringBytes memory as = some s) :
    (s.told r).Sublist (handed r as) ∧
      ((∀ a ∈ as, a ≠ .noMemory r) → s.told r = handed r as) := by
  have h := told_sublist (r := r) hs
  rw [told_init, List.nil_append] at h
  exact h

/-- Once the log is off, nothing is added. -/
theorem told_of_disabled (hoff : s.logEnabled = false) (hs : s.exec ringBytes memory as = some s') :
    (s'.told r).Sublist (s.told r) ∧
      ((∀ a ∈ as, a ≠ .noMemory r) → s'.told r = s.told r) := by
  have h := told_sublist (r := r) hs
  rw [added, hoff, if_neg Bool.false_ne_true, List.append_nil] at h
  exact h

end Pipeline

/-- What lies between two lists that differ in one element at most is one of them. -/
theorem exists_lost {α β : Type*} (f : α → β) {w : List β} {l : List α} {x : Option α}
    (hl : l.map f <+: w) (hw : w <+: (l ++ x.toList).map f) :
    ∃ lost, lost <+: x.toList ∧ w ++ lost.map f = (l ++ x.toList).map f := by
  obtain ⟨m, rfl⟩ := hl
  obtain ⟨n, hn⟩ := hw
  rw [List.map_append, List.append_assoc] at hn
  have hmn : m ++ n = x.toList.map f := List.append_cancel_left hn
  cases m with
  | nil => exact ⟨x.toList, List.prefix_refl _, by rw [List.append_nil, List.map_append]⟩
  | cons y m =>
      refine ⟨[], List.nil_prefix, ?_⟩
      have hm : y :: m = x.toList.map f := by
        cases x with
        | none => cases hmn
        | some x =>
            obtain ⟨rfl, hnil⟩ := List.cons.inj hmn
            rw [(List.append_eq_nil_iff.mp hnil).1]
            rfl
      rw [hm, List.map_nil, List.append_nil, List.map_append]

/-- **A closed log has every event but the last.**  For every thread: what is written for it, and at
most the event that it was in the middle of when the backend thread was joined, are the events that
it handed to `log_event` before the log was disabled, in the same order and once each; unless there
was no memory for its ring, and then some of them are missing.  No thread logs after its
`ring_tls_destructor`. -/
theorem logClose_accounts (ringBytes : UInt64) (memory : RingId → Nat → UInt8)
    (hcap : ∃ k, ringBytes.toNat = 2 ^ k) (pre post : List Action) (s₁ s : Pipeline)
    (h₁ : (init ringBytes memory).exec ringBytes memory pre = some s₁)
    (hs : (init ringBytes memory).exec ringBytes memory (pre ++ .join :: post) = some s)
    (hst : s.stage = .closed) (r : RingId) :
    ((s.written r).Sublist ((handed r pre).map LogEvent.record) ∧
      (s₁.committed r).map LogEvent.record <+: s.written r) ∧
    ((∀ a ∈ pre ++ .join :: post, a ≠ .noMemory r) →
      ∃ lost, lost <+: (s₁.threads r).pc.event?.toList ∧
        s.written r ++ lost.map LogEvent.record = (handed r pre).map LogEvent.record) := by
  have htidy := tidy_of_exec hcap hs
  obtain ⟨vs, pend, l, hinv⟩ := htidy.inv
  have hcut : s.cut = s₁.committed := cut_eq h₁ hs
  have hdrained := hinv.stage
  rw [hst] at hdrained
  have hlower : (s₁.committed r).map LogEvent.record <+: s.written r :=
    hcut ▸ (hdrained r).resolve_right List.not_mem_nil
  have hupper : s.written r <+: (s.told r).map LogEvent.record :=
    (hinv.written_isPrefix r).trans ((List.prefix_append _ _).map _)
  -- the log was off when the backend thread was joined
  have hrest : s₁.exec ringBytes memory (.join :: post) = some s := by
    have h₁' : Run.run (step ringBytes memory) (init ringBytes memory) pre = some s₁ := h₁
    rw [exec, Run.run_append, h₁', Option.bind_some] at hs
    exact hs
  have hoff : s₁.logEnabled = false := by
    obtain ⟨s₂, h₂, -⟩ := Run.run_cons_eq_some.mp hrest
    cases stepped_of_step h₂ with
    | join hstage => exact (tidy_of_exec hcap h₁).logEnabled hstage.2
  obtain ⟨hsub, heq⟩ := told_of_disabled (r := r) hoff hrest
  obtain ⟨hsub₁, heq₁⟩ := told_sublist_handed (r := r) h₁
  refine ⟨⟨hupper.sublist.trans ((hsub.trans hsub₁).map _), hlower⟩, ?_⟩
  intro hmem
  rw [heq fun a ha ↦ hmem a (List.mem_append_right pre ha)] at hupper
  rw [← heq₁ fun a ha ↦ hmem a (List.mem_append_left _ ha)]
  exact exists_lost LogEvent.record hlower hupper

/-- A thread commits its event after the log is closed. -/
def committedLate : List Action := List.replicate 11 (.backend 0) ++ List.replicate 44 (.thread 0 0)

/-- The event of a thread that was inside `reserve` at the join is lost. -/
theorem logClose_accounts_committedLate : ∃ s₁ s : Pipeline,
    (init 64 fun _ _ ↦ 0).exec 64 (fun _ _ ↦ 0) insideReserve = some s₁ ∧
    (init 64 fun _ _ ↦ 0).exec 64 (fun _ _ ↦ 0) (insideReserve ++ .join :: committedLate) = some s ∧
    s.stage = .closed ∧ s.committed 0 = [oneEvent] ∧ s.written 0 = [] ∧
    ∃ lost, lost <+: (s₁.threads 0).pc.event?.toList ∧
      s.written 0 ++ lost.map LogEvent.record = (handed 0 insideReserve).map LogEvent.record := by
  have hjoin : ((init 64 fun _ _ ↦ 0).exec 64 (fun _ _ ↦ 0) insideReserve).isSome = true := by
    decide +kernel
  have hend : ((init 64 fun _ _ ↦ 0).exec 64 (fun _ _ ↦ 0)
      (insideReserve ++ .join :: committedLate)).any
      (fun s ↦ s.stage = .closed ∧ s.committed 0 = [oneEvent] ∧ s.written 0 = []) = true := by
    decide +kernel
  have hmem : ∀ a ∈ insideReserve ++ .join :: committedLate, a ≠ .noMemory 0 := by
    intro a ha he
    subst he
    simp [insideReserve, committedLate] at ha
  obtain ⟨s₁, h₁⟩ := Option.isSome_iff_exists.mp hjoin
  obtain ⟨s, hs, hst⟩ := (Option.any_eq_true _ _).mp hend
  obtain ⟨hclosed, hcommitted, hwritten⟩ := of_decide_eq_true hst
  obtain ⟨-, haccount⟩ :=
    logClose_accounts 64 (fun _ _ ↦ 0) ⟨6, rfl⟩ insideReserve committedLate s₁ s h₁ hs hclosed 0
  exact ⟨s₁, s, h₁, hs, hclosed, hcommitted, hwritten, haccount hmem⟩

end DeadLockDetect.Runtime
