import DeadLockDetect.Runtime.PipelineThread
import DeadLockDetect.Runtime.PipelineScan

/-!
# Every committed event is written exactly once

The steps of the threads and of the scanner are put together with the stages of the
shutdown, and the invariant holds in every state of every run.  From it: what is written
for a ring is a prefix of what was committed to it, and when the log is closed it covers
all that had been committed before the final drain.
-/

namespace DeadLockDetect.Runtime

namespace Pipeline

variable {s s' : Pipeline} {vs : RingId → Virtual} {pend : RingId → List LogEvent}
  {l : List RingId} {st : Stage} {sc sc' : Scan} {i : Nat}

/-! ## Stages -/

/-- A scan is over and none follows. -/
theorem Inv.stop {work : Bool} (h : s.Inv vs pend l) (hs : s.stage.scan? = some (.done work))
    (hst : st = .exited ∨ st = .closed) : Inv { s with stage := st } vs pend l := by
  have hleft : s.Left [] := h.scan hs
  have hnil (r : RingId) : s.inFlight r = [] := inFlight_of_scan? hs r
  have hlane (r : RingId) : Pipeline.lane { s with stage := st } r = s.lane r := by
    have hf : Pipeline.inFlight { s with stage := st } r = s.inFlight r := by
      rw [hnil]
      rcases hst with rfl | rfl <;> rfl
    rw [Pipeline.lane, hf]
    rfl
  have hscan : Pipeline.scanning { s with stage := st } = s.scanning := by
    rw [scanning_of_scan? hs]
    rcases hst with rfl | rfl <;> rfl
  refine ⟨fun r ↦ ?_, { h.registry with scanner := ?_ }, ?_⟩
  · rw [hlane]
    exact h.lane r
  · rw [hscan]
    exact h.registry.scanner
  · rcases hst with rfl | rfl
    · trivial
    · intro r
      rw [hlane]
      exact hleft r

/-- A step of the scan within a stage. -/
theorem Inv.scanMap {f : Scan → Stage} (h : s.Inv vs pend l) (hf : ∀ sc, (f sc).scan? = some sc)
    (hsc : s.stage.scan? = some sc)
    (hs : (s.scanStep i sc).map (fun x ↦ { x.1 with stage := f x.2 }) = some s') :
    ∃ vs' pend' l', s'.Inv vs' pend' l' := by
  obtain ⟨⟨s₁, sc'⟩, hstep, rfl⟩ := Option.map_eq_some_iff.mp hs
  exact h.scanStep hsc hstep (hf sc')

/-- The next scan begins. -/
theorem Inv.again {work : Bool} (h : s.Inv vs pend l) (hs : s.stage.scan? = some (.done work))
    (hst : st.scan? = some .lock) : Inv { s with stage := st } vs pend l :=
  h.rescan hs hst (fun _ ↦ rfl) rfl trivial

/-- Every step of the backend thread and of the final drain preserves the invariant. -/
theorem Inv.backendStep (h : s.Inv vs pend l) (hs : s.backendStep i = some s') :
    ∃ vs' pend' l', s'.Inv vs' pend' l' := by
  rw [Pipeline.backendStep] at hs
  cases hst : s.stage with
  | running sc =>
      have hsc : s.stage.scan? = some sc := by rw [hst]; rfl
      rw [hst] at hs
      cases sc with
      | done work =>
          cases hs
          refine ⟨vs, pend, l, h.again hsc ?_⟩
          split <;> rfl
      | _ => exact h.scanMap (f := .running) (fun _ ↦ rfl) hsc hs
  | lastDrain sc =>
      have hsc : s.stage.scan? = some sc := by rw [hst]; rfl
      rw [hst] at hs
      cases sc with
      | done work =>
          cases work with
          | true =>
              cases hs
              exact ⟨vs, pend, l, h.again hsc rfl⟩
          | false =>
              cases hs
              exact ⟨vs, pend, l, h.stop hsc (Or.inl rfl)⟩
      | _ => exact h.scanMap (f := .lastDrain) (fun _ ↦ rfl) hsc hs
  | finalDrain sc =>
      have hsc : s.stage.scan? = some sc := by rw [hst]; rfl
      rw [hst] at hs
      cases sc with
      | done work =>
          cases work with
          | true =>
              cases hs
              exact ⟨vs, pend, l, h.again hsc rfl⟩
          | false =>
              cases hs
              exact ⟨vs, pend, l, h.stop hsc (Or.inr rfl)⟩
      | _ => exact h.scanMap (f := .finalDrain) (fun _ ↦ rfl) hsc hs
  | exited | closed =>
      rw [hst] at hs
      cases hs

/-- What a thread has committed is in sight once the scanner is synchronised with it. -/
theorem sees_sync {x : Lane} {v : Virtual} {pend : List LogEvent} (h : x.Inv v pend) :
    Virtual.Sees { v with head := v.head.sync }
      (x.committed.length - (x.written ++ x.inFlight).length) := by
  have hend : v.head.latest = v.tail.latest + span v.segs := by
    by_cases hr : x.thread.hasRing = true
    · exact (h.ring hr).end_eq
    · have hreg : x.thread.registered = false := by
        unfold Thread.registered
        split
        case h_5 => exact Bool.eq_false_of_not_eq_true hr
        all_goals rfl
      rw [(h.fresh hreg).1]
      rfl
  refine ⟨v.segs, List.prefix_refl _, hend, ?_⟩
  have hflow := congrArg List.length h.flow
  rw [List.length_append, List.length_map, List.length_map] at hflow
  rw [h.segs, List.length_map]
  omega

/-- The log is closed: what has been committed so far is the cut. -/
theorem Inv.join (h : s.Inv vs pend l) (hst : s.stage = .exited) :
    Inv { s with
        stage := .finalDrain .lock
        rings := fun r ↦ { s.rings r with head := (s.rings r).head.sync }
        cut := s.committed }
      (fun r ↦ { vs r with head := (vs r).head.sync }) pend l := by
  have hnil (r : RingId) : s.inFlight r = [] := by rw [inFlight, hst]; rfl
  refine ⟨fun r ↦ ?_, ?_, trivial⟩
  · have hl := h.lane r
    have hsees := sees_sync hl
    rw [Pipeline.lane, hnil r] at hl hsees
    exact
      { ring := fun hr ↦ (hl.ring hr).sync
        segs := hl.segs
        flow := hl.flow
        sees := hsees
        cut := List.prefix_refl _
        fresh := fun hr ↦ by
          obtain ⟨hv, hc⟩ := hl.fresh hr
          rw [hv]
          exact ⟨rfl, hc⟩
        pc := hl.pc.consumed ⟨rfl, rfl, rfl, rfl, rfl⟩
        dead := hl.dead
        freed := hl.freed }
  · refine { h.registry with scanner := ?_ }
    have hsc := h.registry.scanner
    rw [scanning, hst] at hsc
    exact hsc

/-- Flags that no one but the shutdown looks at. -/
theorem Inv.setFlags (h : s.Inv vs pend l) (enabled shutdown : Bool) :
    Inv { s with logEnabled := enabled, shutdownRequest := shutdown } vs pend l := by
  refine ⟨h.lane, { h.registry with }, ?_⟩
  have hstage := h.stage
  show Stage.Inv _ vs pend l s.stage
  cases hst : s.stage with
  | running sc | lastDrain sc | finalDrain sc =>
      rw [hst] at hstage
      cases sc <;> exact hstage
  | exited => trivial
  | closed =>
      rw [hst] at hstage
      exact hstage

/-! ## Runs -/

section

variable {ringBytes : UInt64} {memory : RingId → Nat → UInt8}

/-- Every step preserves the invariant. -/
theorem Inv.step (h : s.Inv vs pend l) (hcap : ∃ k, ringBytes.toNat = 2 ^ k) {a : Action}
    (hs : s.step ringBytes memory a = some s') : ∃ vs' pend' l', s'.Inv vs' pend' l' := by
  cases stepped_of_step hs with
  | @call t e hpc hlog => exact ⟨vs, pend, l, h.call hpc e⟩
  | ignored hpc hlog => exact ⟨vs, pend, l, h⟩
  | thread hs => exact h.threadStep hcap hs
  | noMemory hpc => exact ⟨vs, pend, l, h.noMemory hpc⟩
  | exit hpc => exact ⟨vs, pend, l, h.exit hpc⟩
  | disable => exact ⟨vs, pend, l, h.setFlags false s.shutdownRequest⟩
  | requestShutdown hlog => exact ⟨vs, pend, l, h.setFlags s.logEnabled true⟩
  | join hstage => exact ⟨_, pend, l, h.join hstage.1⟩
  | backend hs => exact h.backendStep hs

/-- The log has just been opened. -/
theorem init_inv : (init ringBytes memory).Inv (fun _ ↦ .init) (fun _ ↦ []) [] where
  lane r :=
    { ring := nofun
      segs := rfl
      flow := rfl
      sees := .init
      cut := List.prefix_refl _
      fresh := fun _ ↦ ⟨rfl, rfl⟩
      pc := trivial
      dead := nofun
      freed := nofun }
  registry :=
    { linked := rfl
      nodup := List.nodup_nil
      mem := fun r ↦ ⟨nofun, fun h ↦ by cases h.1⟩
      linkHead := nofun
      scanner := ⟨nofun, nofun⟩
      thread := fun t ↦ ⟨nofun, nofun⟩ }
  stage := trivial

/-- Every state of every run satisfies the invariant. -/
theorem Inv.exec (h : s.Inv vs pend l) (hcap : ∃ k, ringBytes.toNat = 2 ^ k) {as : List Action}
    (hs : s.exec ringBytes memory as = some s') : ∃ vs' pend' l', s'.Inv vs' pend' l' := by
  refine Run.run_inv (I := fun s ↦ ∃ vs pend l, Inv s vs pend l) ?_ ⟨vs, pend, l, h⟩ hs
  rintro a - s s' ⟨vs, pend, l, h⟩ hs
  exact h.step hcap hs

/-! ## The final drain -/

/-- What the backend leaves alone. -/
structure Untouched (s s' : Pipeline) : Prop where
  threads : s'.threads = s.threads
  producerDead : s'.producerDead = s.producerDead
  logEnabled : s'.logEnabled = s.logEnabled
  committed : s'.committed = s.committed
  cut : s'.cut = s.cut

theorem scanStep_untouched {s₁ : Pipeline} (hs : s.scanStep i sc = some (s₁, sc')) :
    Untouched s s₁ := by
  cases sc with
  | lock =>
      rw [scanStep] at hs
      split at hs <;> cases hs
      exact ⟨rfl, rfl, rfl, rfl, rfl⟩
  | loop prev r work =>
      cases r <;> cases hs <;> exact ⟨rfl, rfl, rfl, rfl, rfl⟩
  | process prev r work p =>
      cases p with
      | write out =>
          cases hs
          exact ⟨rfl, rfl, rfl, rfl, rfl⟩
      | done res => cases res <;> cases hs <;> exact ⟨rfl, rfl, rfl, rfl, rfl⟩
      | _ =>
          rw [scanStep_process (fun _ he ↦ by cases he) (fun _ he ↦ by cases he)] at hs
          obtain ⟨x, -, he⟩ := Option.map_eq_some_iff.mp hs
          cases he
          exact ⟨rfl, rfl, rfl, rfl, rfl⟩
  | dead prev r work =>
      rw [scanStep] at hs
      split at hs <;> cases hs <;> exact ⟨rfl, rfl, rfl, rfl, rfl⟩
  | empty prev r work =>
      obtain ⟨x, -, he⟩ := Option.map_eq_some_iff.mp hs
      cases he
      exact ⟨rfl, rfl, rfl, rfl, rfl⟩
  | unlink prev r work =>
      cases prev <;> cases hs <;> exact ⟨rfl, rfl, rfl, rfl, rfl⟩
  | done work => cases hs
  | _ =>
      cases hs
      exact ⟨rfl, rfl, rfl, rfl, rfl⟩

theorem backendStep_untouched (hs : s.backendStep i = some s') : Untouched s s' := by
  rw [Pipeline.backendStep] at hs
  split at hs
  case h_2 | h_4 | h_7 =>
    obtain ⟨⟨s₁, sc'⟩, hx, rfl⟩ := Option.map_eq_some_iff.mp hs
    obtain ⟨hth, hdead, hlog, hcom, hcut⟩ := scanStep_untouched hx
    exact ⟨hth, hdead, hlog, hcom, hcut⟩
  all_goals cases hs <;> exact ⟨rfl, rfl, rfl, rfl, rfl⟩

/-- What a step of a thread leaves alone. -/
structure ByThread (s s' : Pipeline) (t : RingId) : Prop where
  stage : s'.stage = s.stage
  trace : s'.trace = s.trace
  freed : s'.freed = s.freed
  producerDead : s'.producerDead = s.producerDead
  logEnabled : s'.logEnabled = s.logEnabled
  cut : s'.cut = s.cut
  committed : ∀ r, r ≠ t → s'.committed r = s.committed r
  threads : ∀ r, r ≠ t → s'.threads r = s.threads r

theorem threadStep_byThread {t : RingId} (hs : s.threadStep ringBytes memory t i = some s') :
    ByThread s s' t := by
  have others {x : Thread} (r : RingId) (hr : r ≠ t) :
      Function.update s.threads t x r = s.threads r := Function.update_of_ne hr _ _
  unfold threadStep at hs
  split at hs
  case h_1 | h_2 => cases hs
  case h_4 =>
    split at hs <;> cases hs
    exact ⟨rfl, rfl, rfl, rfl, rfl, rfl, fun _ _ ↦ rfl, others⟩
  case h_8 =>
    obtain ⟨x, -, rfl⟩ := Option.map_eq_some_iff.mp hs
    split
    · exact ⟨rfl, rfl, rfl, rfl, rfl, rfl, fun r hr ↦ Function.update_of_ne hr _ _, others⟩
    · exact ⟨rfl, rfl, rfl, rfl, rfl, rfl, fun _ _ ↦ rfl, others⟩
  all_goals
    cases hs
    exact ⟨rfl, rfl, rfl, rfl, rfl, rfl, fun _ _ ↦ rfl, others⟩

/-- A step commits to no ring but that of the thread that takes it. -/
theorem step_committed {a : Action} {r : RingId} (hs : s.step ringBytes memory a = some s')
    (ha : ∀ i, a ≠ .thread r i) : s'.committed r = s.committed r := by
  cases stepped_of_step hs with
  | @thread t i _ hs => exact (threadStep_byThread hs).committed r fun he ↦ ha i (he ▸ rfl)
  | backend hs => exact congrFun (backendStep_untouched hs).committed r
  | call | ignored | noMemory | exit | disable | requestShutdown | join => rfl

/-- A thread that takes no step commits nothing. -/
theorem exec_committed {as : List Action} {r : RingId} (hs : s.exec ringBytes memory as = some s')
    (has : ∀ a ∈ as, ∀ i, a ≠ .thread r i) : s'.committed r = s.committed r := by
  refine Run.run_inv (I := fun s₁ ↦ s₁.committed r = s.committed r) ?_ rfl hs
  intro a ha s₁ s₂ h₁ h₂
  exact (step_committed h₂ (has a ha)).trans h₁

/-- The final drain has started. -/
def Final (s : Pipeline) : Prop := (∃ sc, s.stage = .finalDrain sc) ∨ s.stage = .closed

/-- Once the final drain has started, the cut stays as it is. -/
theorem Final.step (h : s.Final) {a : Action} (hs : s.step ringBytes memory a = some s') :
    s'.Final ∧ s'.cut = s.cut := by
  have same (hst : s'.stage = s.stage) (hcut : s'.cut = s.cut) : s'.Final ∧ s'.cut = s.cut := by
    rw [Final, hst]
    exact ⟨h, hcut⟩
  cases stepped_of_step hs with
  | call | ignored | noMemory | exit | disable | requestShutdown => exact same rfl rfl
  | thread hs =>
      have hby := threadStep_byThread hs
      exact same hby.stage hby.cut
  | join hstage =>
      obtain ⟨hst, -⟩ := hstage
      rcases h with ⟨sc, hf⟩ | hf <;> cases hf.symm.trans hst
  | backend hs =>
      rw [backendStep] at hs
      rcases h with ⟨sc, hf⟩ | hf
      · rw [hf] at hs
        cases sc with
        | done work =>
            cases hs
            cases work
            · exact ⟨Or.inr rfl, rfl⟩
            · exact ⟨Or.inl ⟨.lock, rfl⟩, rfl⟩
        | _ =>
            obtain ⟨⟨s₁, sc'⟩, hx, rfl⟩ := Option.map_eq_some_iff.mp hs
            exact ⟨Or.inl ⟨sc', rfl⟩, (scanStep_untouched hx).cut⟩
      · rw [hf] at hs
        cases hs

theorem Final.exec (h : s.Final) {as : List Action}
    (hs : s.exec ringBytes memory as = some s') : s'.cut = s.cut := by
  refine (Run.run_inv (I := fun s₁ ↦ s₁.Final ∧ s₁.cut = s.cut) ?_ ⟨h, rfl⟩ hs).2
  rintro a - s₁ s₂ ⟨hf, hcut⟩ h₂
  obtain ⟨hf', hcut'⟩ := hf.step h₂
  exact ⟨hf', hcut'.trans hcut⟩

/-- The cut is what was committed when the final drain started. -/
theorem cut_eq {s₁ : Pipeline} {pre post : List Action}
    (h₁ : s.exec ringBytes memory pre = some s₁)
    (hs : s.exec ringBytes memory (pre ++ .join :: post) = some s') : s'.cut = s₁.committed := by
  rw [exec] at h₁ hs
  rw [Run.run_append, h₁, Option.bind_some] at hs
  obtain ⟨s₂, h₂, h₃⟩ := Run.run_cons_eq_some.mp hs
  cases stepped_of_step h₂
  exact Final.exec (Or.inl ⟨.lock, rfl⟩) h₃

end

/-- What is written for a ring is what was committed to it, in order, up to some point. -/
theorem Inv.written_isPrefix (h : s.Inv vs pend l) (r : RingId) :
    s.written r <+: (s.committed r).map LogEvent.record := by
  have hflow : s.written r ++ s.inFlight r ++ (pend r).map LogEvent.record =
      (s.committed r).map LogEvent.record := (h.lane r).flow
  rw [← hflow, List.append_assoc]
  exact List.prefix_append _ _

/-- The scanner never finds an event that is incomplete or has too many frames. -/
theorem Inv.ne_bad {prev : Option RingId} {r : RingId} {work : Bool} {p : Process}
    (h : s.Inv vs pend l) (hs : s.stage.scan? = some (.process prev r work p)) :
    p ≠ .shortHeader ∧ p ≠ .shortBody ∧ ∀ hdr, p ≠ .corrupt hdr := by
  obtain ⟨todo, -, -, hinv⟩ := h.scan hs
  refine ⟨?_, ?_, fun hdr ↦ ?_⟩ <;> (rintro rfl; exact hinv)

end Pipeline

open Pipeline

/-- **The pipeline writes every committed event exactly once.**  In every state of every
run: the records written for a ring are those of the events committed to it, in order, up to
some point; once the log is closed, that point is not before the start of the final drain; a
ring is deleted only when its producer is dead and all its events are written; every other
ring that was registered is in the registry; and the backend never finds an incomplete or
corrupt event. -/
theorem pipeline_exactlyOnce (ringBytes : UInt64) (memory : RingId → Nat → UInt8)
    (hcap : ∃ k, ringBytes.toNat = 2 ^ k) (as : List Action) (s : Pipeline)
    (hs : (init ringBytes memory).exec ringBytes memory as = some s) :
    (∀ r, s.written r <+: (s.committed r).map LogEvent.record) ∧
    (∀ pre post s₁, as = pre ++ .join :: post →
      (init ringBytes memory).exec ringBytes memory pre = some s₁ → s.stage = .closed →
      ∀ r, (s₁.committed r).map LogEvent.record <+: s.written r) ∧
    (∀ r, s.freed r = true →
      s.producerDead r = true ∧ s.written r = (s.committed r).map LogEvent.record) ∧
    (∃ l, Linked s.nextInRegistry s.registryHead l none ∧ l.Nodup ∧
      ∀ r, r ∈ l ↔ (s.threads r).registered = true ∧ s.freed r = false) ∧
    ∀ prev r work p, s.stage.scan? = some (.process prev r work p) →
      p ≠ .shortHeader ∧ p ≠ .shortBody ∧ ∀ hdr, p ≠ .corrupt hdr := by
  obtain ⟨vs, pend, l, h⟩ := init_inv.exec hcap hs
  refine ⟨h.written_isPrefix, fun pre post s₁ has h₁ hst r ↦ ?_, fun r hf ↦ ?_,
    ⟨l, h.registry.linked, h.registry.nodup, h.registry.mem⟩, fun prev r work p ↦ h.ne_bad⟩
  · subst has
    have hleft := h.stage
    rw [hst] at hleft
    rw [← cut_eq h₁ hs]
    exact (hleft r).resolve_right List.not_mem_nil
  · obtain ⟨-, hd, hp, hfl⟩ := (h.lane r).freed hf
    exact ⟨hd, (h.lane r).written_eq hfl hp⟩

/-- A request for a mutex that was granted. -/
def oneEvent : LogEvent := mutexEvent 5 7 0x1000 .lockPost

/-- A thread logs an event and exits, the backend writes the event and deletes the ring,
and `log_close` is called. -/
def oneEventBeforeJoin : List Action :=
  .call 0 oneEvent :: List.replicate 50 (.thread 0 0) ++ .exit 0 ::
    List.replicate 3 (.backend 0) ++ .backend 1 :: List.replicate 12 (.backend 0) ++
    [.disable, .requestShutdown] ++ List.replicate 8 (.backend 0)

/-- The run above up to the end of the final drain. -/
def oneEventRun : List Action := oneEventBeforeJoin ++ .join :: List.replicate 5 (.backend 0)

theorem pipeline_exactlyOnce_oneEvent : ∃ s s₁ : Pipeline,
    (init 64 fun _ _ ↦ 0).exec 64 (fun _ _ ↦ 0) oneEventBeforeJoin = some s₁ ∧
    (init 64 fun _ _ ↦ 0).exec 64 (fun _ _ ↦ 0) oneEventRun = some s ∧
    s₁.committed 0 = [oneEvent] ∧ s.stage = .closed ∧
    (s₁.committed 0).map LogEvent.record <+: s.written 0 ∧
    s.written 0 = (s.committed 0).map LogEvent.record := by
  have hjoin : ((init 64 fun _ _ ↦ 0).exec 64 (fun _ _ ↦ 0) oneEventBeforeJoin).any
      (fun s ↦ s.committed 0 = [oneEvent]) = true := by decide +kernel
  have hend : ((init 64 fun _ _ ↦ 0).exec 64 (fun _ _ ↦ 0) oneEventRun).any
      (fun s ↦ s.stage = .closed ∧ s.freed 0 = true) = true := by decide +kernel
  obtain ⟨s₁, h₁, hc⟩ := (Option.any_eq_true _ _).mp hjoin
  obtain ⟨s, hs, hst⟩ := (Option.any_eq_true _ _).mp hend
  obtain ⟨hclosed, hf⟩ := of_decide_eq_true hst
  obtain ⟨-, hdrained, hfreed, -⟩ :=
    pipeline_exactlyOnce 64 (fun _ _ ↦ 0) ⟨6, rfl⟩ oneEventRun s hs
  exact ⟨s, s₁, h₁, hs, of_decide_eq_true hc, hclosed, hdrained _ _ s₁ rfl h₁ hclosed 0,
    (hfreed 0 hf).2⟩

end DeadLockDetect.Runtime
