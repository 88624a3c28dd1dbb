import DeadLockDetect.Runtime.Round

/-!
# Closing the log comes to an end

`log_close` disables the log, asks the backend thread to stop, joins it and drains the rings once
more, while other threads may still be inside `log_event`.  Each drain goes on until a round has
consumed nothing, so it ends only because no more than the backlog can come.

`Ranked` is the bound on the steps that closing the log still takes.  The other threads never
increase it, the backend thread and the thread that closes the log decrease it with every step
(`Closing.ranked_step`).  They are never stuck: where the registry is locked by another thread, that
thread can go on, and unlocks it three steps later at most (`Closing.not_stuck`).

In these runs a thread logs nothing after its `ring_tls_destructor`.
-/

namespace DeadLockDetect.Runtime

open Pipeline

/-! ## The threads that log -/

namespace Pipeline

variable {s s' s₁ : Pipeline} {vs : RingId → Virtual} {pend : RingId → List LogEvent}
  {l : List RingId} {ringBytes : UInt64} {memory : RingId → Nat → UInt8} {t r : RingId}
  {i m n : Nat} {sc sc' : Scan} {active : Finset RingId} {a : Action} {as : List Action}

/-- The thread that calls `log_event`. -/
def Action.caller : Action → Option RingId
  | .call t _ => some t
  | _ => none

/-- The threads that call `log_event` in a run. -/
def callers (as : List Action) : Finset RingId := (as.filterMap Action.caller).toFinset

/-- Only these threads have a ring or are inside `log_event`. -/
def Confined (s : Pipeline) (active : Finset RingId) : Prop :=
  ∀ t, t ∉ active → (s.threads t).hasRing = false ∧
    ((s.threads t).pc = .idle ∨ (s.threads t).pc = .exited)

theorem Confined.mem (h : s.Confined active) (hr : (s.threads t).hasRing = true) : t ∈ active := by
  by_contra ht
  rw [(h t ht).1] at hr
  cases hr

/-- A thread that takes a step inside `log_event`. -/
theorem Confined.mem_of_threadStep (h : s.Confined active)
    (hs : s.threadStep ringBytes memory t i = some s') : t ∈ active := by
  by_contra ht
  unfold threadStep at hs
  rcases (h t ht).2 with hpc | hpc <;> rw [hpc] at hs <;> cases hs

/-- A step that moves one thread. -/
theorem Confined.move (h : s.Confined active) (hne : ∀ r, r ≠ t → s'.threads r = s.threads r)
    (ht : t ∉ active → (s'.threads t).hasRing = false ∧
      ((s'.threads t).pc = .idle ∨ (s'.threads t).pc = .exited)) : s'.Confined active := by
  intro r hr
  by_cases hrt : r = t
  · subst hrt
    exact ht hr
  · rw [hne r hrt]
    exact h r hr

/-- Only calls bring in other threads, and only as long as the log is enabled. -/
theorem Confined.step (h : s.Confined active) (hs : s.step ringBytes memory a = some s')
    (hcall : ∀ t e, a = .call t e → s.logEnabled = true → t ∈ active) : s'.Confined active := by
  cases stepped_of_step hs with
  | @call t e hpc hlog =>
      exact h.move (fun r hr ↦ threads_setPc_of_ne s hr _) fun ht ↦ absurd (hcall t e rfl hlog) ht
  | ignored | disable | requestShutdown | join => exact h
  | thread hs =>
      have hby := threadStep_byThread hs
      exact h.move hby.threads fun ht ↦ absurd (h.mem_of_threadStep hs) ht
  | @noMemory t e hpc =>
      refine h.move (fun r hr ↦ threads_setPc_of_ne s hr _) fun ht ↦ ?_
      rw [threads_setPc_self]
      exact ⟨(h t ht).1, Or.inl rfl⟩
  | @exit t hpc =>
      refine h.move (fun r hr ↦ threads_setPc_of_ne s hr .exited) fun ht ↦ ?_
      show ((s.setPc t .exited).threads t).hasRing = false ∧ _
      rw [threads_setPc_self]
      exact ⟨(h t ht).1, Or.inr rfl⟩
  | backend hs =>
      rw [Confined, (backendStep_untouched hs).threads]
      exact h

/-! ## What the scanner does to the rings -/

/-- What the scanner does to the ring that it is at. -/
inductive Scanned (ring : ThreadRing) : ThreadRing → Prop where
  | process {p p' : Process} {i : Nat} {ring' : ThreadRing}
      (h : p.step ring i = some (ring', p')) : Scanned ring ring'
  /-- The producer is dead, and the scanner synchronises with it. -/
  | sync : Scanned ring { ring with head := ring.head.sync }
  | load {i : Nat} {ring' : ThreadRing} (h : ring.loadHead i = some ring') : Scanned ring ring'

theorem Scanned.sameView {ring ring' : ThreadRing} (h : Scanned ring ring') :
    ring.SameView ring' := by
  cases h with
  | process h => exact Process.sameView_step h
  | sync => exact ⟨rfl, rfl, rfl, rfl⟩
  | load h =>
      obtain ⟨d, hd, rfl⟩ := Option.map_eq_some_iff.mp h
      exact ⟨rfl, rfl, Cell.latest_load hd, rfl⟩

/-- A step of the scanner is about one ring, or about none. -/
theorem rings_scanStep (hs : s.scanStep i sc = some (s₁, sc')) :
    s₁.rings = s.rings ∨
      ∃ r ring, Scanned (s.rings r) ring ∧ s₁.rings = (s.setRing r ring).rings := by
  cases sc with
  | lock =>
      rw [Pipeline.scanStep] at hs
      split at hs <;> cases hs
      exact Or.inl rfl
  | loop prev r work => cases r <;> cases hs <;> exact Or.inl rfl
  | process prev r work p =>
      cases p with
      | write out =>
          cases hs
          exact Or.inl rfl
      | done res => cases res <;> cases hs <;> exact Or.inl rfl
      | _ =>
          rw [scanStep_process (fun _ he ↦ by cases he) (fun _ he ↦ by cases he)] at hs
          obtain ⟨x, hp, he⟩ := Option.map_eq_some_iff.mp hs
          cases he
          exact Or.inr ⟨r, x.1, .process hp, rfl⟩
  | dead prev r work =>
      rw [Pipeline.scanStep] at hs
      split at hs <;> cases hs
      · exact Or.inr ⟨r, _, .sync, rfl⟩
      · exact Or.inl rfl
  | empty prev r work =>
      obtain ⟨ring, hl, he⟩ := Option.map_eq_some_iff.mp hs
      cases he
      exact Or.inr ⟨r, ring, .load hl, rfl⟩
  | unlink prev r work => cases prev <;> cases hs <;> exact Or.inl rfl
  | done work => cases hs
  | _ =>
      cases hs
      exact Or.inl rfl

/-- The scanner changes nothing that a producer sees before its next load. -/
theorem sameView_scanStep (hs : s.scanStep i sc = some (s₁, sc')) (x : RingId) :
    (s.rings x).SameView (s₁.rings x) := by
  rcases rings_scanStep hs with he | ⟨r, ring, hring, he⟩
  · rw [he]
    exact .refl _
  · rw [he]
    show (s.rings x).SameView (Function.update s.rings r ring x)
    by_cases hx : x = r
    · rw [hx, Function.update_self]
      exact hring.sameView
    · rw [Function.update_of_ne hx]
      exact .refl _

theorem sameView_backendStep (hs : s.backendStep i = some s') (x : RingId) :
    (s.rings x).SameView (s'.rings x) := by
  rw [backendStep] at hs
  split at hs
  case h_2 | h_4 | h_7 =>
    obtain ⟨y, hy, rfl⟩ := Option.map_eq_some_iff.mp hs
    exact sameView_scanStep hy x
  all_goals cases hs <;> exact .refl _

/-- Every ring has the size that the configuration says, whatever happens. -/
theorem Sized.step (h : s.Sized ringBytes) (hs : s.step ringBytes memory a = some s') :
    s'.Sized ringBytes := by
  cases stepped_of_step hs with
  | thread hs => exact h.threadStep hs
  | backend hs =>
      intro r
      rw [(sameView_backendStep hs r).capacity]
      exact h r
  | call | ignored | noMemory | exit | disable | requestShutdown | join => exact h

end Pipeline

/-! ## The bound -/

/-- The steps that closing the log still takes if nothing more is consumed. -/
def Stage.rank (all n : Nat) : Stage → Nat
  | .running sc => 2 * Scan.round all + 1 + sc.cost all n
  | .lastDrain sc => Scan.round all + 1 + sc.cost all n
  | .exited => Scan.round all + 1
  | .finalDrain sc => sc.cost all n
  | .closed => 0

namespace Pipeline

variable {s s' s₁ : Pipeline} {vs : RingId → Virtual} {pend : RingId → List LogEvent}
  {l : List RingId} {ringBytes : UInt64} {memory : RingId → Nat → UInt8} {t r : RingId}
  {i m n : Nat} {sc sc' : Scan} {active : Finset RingId} {a : Action} {as : List Action}

/-- Closing the log takes no more than `m` steps of those that close it. -/
def Ranked (s : Pipeline) (ringBytes : UInt64) (active : Finset RingId) (m : Nat) : Prop :=
  ∃ n, (∀ sc, s.stage.scan? = some sc → s.Behind sc n) ∧
    Scan.worth active.card * s.load ringBytes active + s.stage.rank active.card n ≤ m

/-- The log is being closed. -/
structure Closing (s : Pipeline) (ringBytes : UInt64) (active : Finset RingId) : Prop where
  inv : ∃ vs pend l, s.Inv vs pend l
  sized : s.Sized ringBytes
  confined : s.Confined active
  logEnabled : s.logEnabled = false
  shutdownRequest : s.shutdownRequest = true

/-- What the actions of the side that closes the log are. -/
def Action.closes : Action → Bool
  | .join | .backend _ => true
  | _ => false

/-- Other threads link their rings only when the scanner is not at the registry. -/
theorem Behind.congr (h : s.Behind sc n)
    (hnext : sc.holds = true → s'.nextInRegistry = s.nextInRegistry) : s'.Behind sc n := by
  obtain ⟨todo, htodo, rfl⟩ := h
  cases hh : sc.holds with
  | true =>
      refine ⟨todo, ?_, rfl⟩
      have hrest : sc.rest s' = sc.rest s := by cases sc <;> simp [Scan.rest, hnext hh]
      rw [hrest, hnext hh]
      exact htodo
  | false =>
      have hrest (s : Pipeline) : sc.rest s = none := by
        cases sc <;> first | rfl | cases hh
      rw [hrest] at htodo
      cases todo with
      | nil => exact ⟨[], hrest s', rfl⟩
      | cons r todo => cases htodo.1

/-- A step that leaves the scanner alone. -/
theorem Ranked.mono (h : s.Ranked ringBytes active m) (hstage : s'.stage = s.stage)
    (hnext : s.scanning = true → s'.nextInRegistry = s.nextInRegistry)
    (hload : s'.load ringBytes active ≤ s.load ringBytes active) :
    s'.Ranked ringBytes active m := by
  obtain ⟨n, hbehind, hle⟩ := h
  refine ⟨n, fun sc hsc ↦ ?_, ?_⟩
  · rw [hstage] at hsc
    refine (hbehind sc hsc).congr fun hh ↦ hnext ?_
    rw [scanning_of_scan? hsc]
    exact hh
  · rw [hstage]
    have hmul := Nat.mul_le_mul_left (Scan.worth active.card) hload
    omega

/-- A thread that does not hold the mutex changes no link. -/
theorem threadStep_next (hs : s.threadStep ringBytes memory t i = some s')
    (hh : (s.threads t).holds = false) : s'.nextInRegistry = s.nextInRegistry := by
  unfold threadStep at hs
  split at hs
  case h_1 | h_2 => cases hs
  case h_4 =>
    split at hs <;> cases hs
    rfl
  case h_5 hpc =>
    rw [Thread.holds, hpc] at hh
    cases hh
  case h_8 =>
    obtain ⟨x, -, rfl⟩ := Option.map_eq_some_iff.mp hs
    split <;> rfl
  all_goals
    cases hs
    rfl

theorem load_mono (h : ∀ t, s'.backlog ringBytes t ≤ s.backlog ringBytes t) :
    s'.load ringBytes active ≤ s.load ringBytes active :=
  Finset.sum_le_sum fun t _ ↦ h t

/-- A step that moves one thread and leaves the rings alone. -/
theorem load_setPc_le {pc : ThreadPc} (hring : s'.rings = s.rings)
    (hth : s'.threads = (s.setPc t pc).threads)
    (hpub : Thread.publications { s.threads t with pc := pc } (s.rings t) ≤
      (s.threads t).publications (s.rings t)) :
    s'.load ringBytes active ≤ s.load ringBytes active := by
  refine load_mono fun r ↦ ?_
  by_cases hr : r = t
  · subst hr
    refine backlog_setPc (congrFun hring r) ?_ hpub
    rw [hth]
    exact threads_setPc_self s r pc
  · have hsame : s'.threads r = s.threads r := by
      rw [hth]
      exact threads_setPc_of_ne s hr pc
    exact (backlog_congr hsame (congrFun hring r)).le

theorem Inv.load_threadStep (h : s.Inv vs pend l) (hsize : s.Sized ringBytes)
    (hs : s.threadStep ringBytes memory t i = some s') :
    s'.load ringBytes active ≤ s.load ringBytes active := by
  refine load_mono fun r ↦ ?_
  by_cases hr : r = t
  · rw [hr]
    exact h.threadStep_backlog hsize hs
  · exact (backlog_congr ((threadStep_byThread hs).threads r hr) (threadStep_rings hs hr)).le

/-- There are no more rings in the registry than threads that log. -/
theorem Inv.length_le (h : s.Inv vs pend l) (hc : s.Confined active) : l.length ≤ active.card := by
  rw [← List.toFinset_card_of_nodup h.registry.nodup]
  refine Finset.card_le_card fun r hr ↦ hc.mem ?_
  exact h.hasRing_of_mem (List.mem_toFinset.mp hr)

/-! ## Every step -/

/-- A scan is over, and another one begins or none. -/
theorem Ranked.restage {st : Stage} (h : s.Ranked ringBytes active m)
    (hst : ∀ sc, st.scan? = some sc → sc = .lock)
    (hlt : ∀ n, st.rank active.card 0 < s.stage.rank active.card n) :
    ∃ m', Ranked { s with stage := st } ringBytes active m' ∧ m' + 1 ≤ m := by
  obtain ⟨n, -, hle⟩ := h
  refine ⟨_, ⟨0, fun sc hsc ↦ ?_, le_rfl⟩, ?_⟩
  · rw [hst sc hsc]
    exact ⟨[], rfl, rfl⟩
  · refine le_trans (Nat.succ_le_of_lt ?_) hle
    exact Nat.add_lt_add_left (hlt n) _

/-- A step of a round, at a stage. -/
theorem Inv.ranked_scan {f : Scan → Stage} (base : Nat) (h : s.Inv vs pend l)
    (hc : s.Confined active) (hf : ∀ sc, (f sc).scan? = some sc)
    (hrank : ∀ sc n, (f sc).rank active.card n = base + sc.cost active.card n)
    (hst : s.stage = f sc) (hr : s.Ranked ringBytes active m)
    (hs : (s.scanStep i sc).map (fun x ↦ { x.1 with stage := f x.2 }) = some s') :
    ∃ m', s'.Ranked ringBytes active m' ∧ m' + 1 ≤ m := by
  obtain ⟨⟨s₁, sc'⟩, hstep, rfl⟩ := Option.map_eq_some_iff.mp hs
  have hsc : s.stage.scan? = some sc := by
    rw [hst]
    exact hf sc
  obtain ⟨n, hbehind, hle⟩ := hr
  have hadvanced : Advanced s s₁ ringBytes active active.card sc sc' n :=
    h.advanced hsc hstep (fun _ ↦ hc.mem) (h.length_le hc) (hbehind sc hsc)
  obtain ⟨n', hn', hlt⟩ := hadvanced
  refine ⟨_, ⟨n', fun sc₁ hsc₁ ↦ ?_, le_rfl⟩, ?_⟩
  · cases (hf sc').symm.trans hsc₁
    exact hn'.congr fun _ ↦ rfl
  · rw [hst, hrank] at hle
    show _ + (f sc').rank active.card n' + 1 ≤ m
    rw [hrank]
    change Scan.worth active.card * s₁.load ringBytes active + _ + 1 ≤ m
    omega

/-- A step of the backend thread, or of the final drain. -/
theorem Inv.ranked_backend (h : s.Inv vs pend l) (hc : s.Confined active)
    (hreq : s.shutdownRequest = true) (hr : s.Ranked ringBytes active m)
    (hs : s.backendStep i = some s') : ∃ m', s'.Ranked ringBytes active m' ∧ m' + 1 ≤ m := by
  have lock {st : Stage} (he : st.scan? = some .lock) (sc : Scan) (hsc : st.scan? = some sc) :
      sc = .lock := by
    cases he.symm.trans hsc
    rfl
  rw [Pipeline.backendStep] at hs
  cases hst : s.stage with
  | running sc =>
      rw [hst] at hs
      cases sc with
      | done work =>
          cases hs
          rw [hreq]
          refine hr.restage (lock rfl) fun n ↦ ?_
          rw [hst, if_pos rfl, Stage.rank, Stage.rank, Scan.cost_lock, Scan.cost_done]
          omega
      | _ => exact h.ranked_scan _ hc (fun _ ↦ rfl) (fun _ _ ↦ rfl) hst hr hs
  | lastDrain sc =>
      rw [hst] at hs
      cases sc with
      | done work =>
          cases hs
          cases work with
          | true =>
              refine hr.restage (lock rfl) fun n ↦ ?_
              rw [hst, if_pos rfl, Stage.rank, Stage.rank, Scan.cost_lock, Scan.cost_done,
                if_pos rfl]
              omega
          | false =>
              refine hr.restage (fun _ he ↦ by cases he) fun n ↦ ?_
              rw [hst]
              exact Nat.lt_succ_self _
      | _ => exact h.ranked_scan _ hc (fun _ ↦ rfl) (fun _ _ ↦ rfl) hst hr hs
  | finalDrain sc =>
      rw [hst] at hs
      cases sc with
      | done work =>
          cases hs
          cases work with
          | true =>
              refine hr.restage (lock rfl) fun n ↦ ?_
              rw [hst, if_pos rfl, Stage.rank, Stage.rank, Scan.cost_lock, Scan.cost_done,
                if_pos rfl]
              omega
          | false =>
              refine hr.restage (fun _ he ↦ by cases he) fun n ↦ ?_
              rw [hst]
              exact Nat.lt_succ_self _
      | _ =>
          refine h.ranked_scan 0 hc (fun _ ↦ rfl) (fun sc n ↦ ?_) hst hr hs
          exact (Nat.zero_add _).symm
  | exited | closed =>
      rw [hst] at hs
      cases hs

/-- The thread that closes the log has joined the backend thread. -/
theorem Ranked.join (hr : s.Ranked ringBytes active m) (hst : s.stage = .exited) :
    ∃ m', Ranked { s with
      stage := .finalDrain .lock
      rings := fun r ↦ { s.rings r with head := (s.rings r).head.sync }
      cut := s.committed } ringBytes active m' ∧ m' + 1 ≤ m := by
  obtain ⟨n, -, hle⟩ := hr
  refine ⟨_, ⟨0, fun sc hsc ↦ ?_, le_rfl⟩, ?_⟩
  · cases hsc
    exact ⟨[], rfl, rfl⟩
  · rw [hst, Stage.rank] at hle
    rw [Stage.rank, Scan.cost_lock]
    exact hle

theorem scanStep_shutdownRequest (hs : s.scanStep i sc = some (s₁, sc')) :
    s₁.shutdownRequest = s.shutdownRequest := by
  unfold Pipeline.scanStep at hs
  split at hs
  case h_1 | h_9 =>
    split at hs <;> cases hs
    all_goals rfl
  case h_8 | h_10 =>
    obtain ⟨x, -, he⟩ := Option.map_eq_some_iff.mp hs
    cases he
    rfl
  case h_15 => cases hs
  all_goals
    cases hs
    rfl

theorem backendStep_shutdownRequest (hs : s.backendStep i = some s') :
    s'.shutdownRequest = s.shutdownRequest := by
  rw [Pipeline.backendStep] at hs
  split at hs
  case h_2 | h_4 | h_7 =>
    obtain ⟨⟨s₁, sc'⟩, hx, rfl⟩ := Option.map_eq_some_iff.mp hs
    have hx' : s₁.shutdownRequest = s.shutdownRequest := scanStep_shutdownRequest hx
    exact hx'
  all_goals cases hs <;> rfl

theorem threadStep_shutdownRequest (hs : s.threadStep ringBytes memory t i = some s') :
    s'.shutdownRequest = s.shutdownRequest := by
  unfold threadStep at hs
  split at hs
  case h_1 | h_2 => cases hs
  case h_4 =>
    split at hs <;> cases hs
    rfl
  case h_8 =>
    obtain ⟨x, -, rfl⟩ := Option.map_eq_some_iff.mp hs
    split <;> rfl
  all_goals
    cases hs
    rfl

/-- The log is never enabled again, and the backend thread is asked to stop only after that. -/
theorem step_flags (hs : s.step ringBytes memory a = some s') :
    (s.logEnabled = false → s'.logEnabled = false) ∧
      (s.shutdownRequest = true → s'.shutdownRequest = true) ∧
      (s'.shutdownRequest = true → s.shutdownRequest = true ∨ s.logEnabled = false) := by
  cases stepped_of_step hs with
  | call | ignored | noMemory | exit | join => exact ⟨id, id, Or.inl⟩
  | disable => exact ⟨fun _ ↦ rfl, id, Or.inl⟩
  | requestShutdown hlog =>
      exact ⟨id, fun _ ↦ rfl, fun _ ↦ Or.inr (Bool.eq_false_of_not_eq_true hlog)⟩
  | thread hs =>
      rw [(threadStep_byThread hs).logEnabled, threadStep_shutdownRequest hs]
      exact ⟨id, id, Or.inl⟩
  | backend hs =>
      rw [(backendStep_untouched hs).logEnabled, backendStep_shutdownRequest hs]
      exact ⟨id, id, Or.inl⟩

/-- Once the log is being closed, it is being closed for good. -/
theorem Closing.step (h : s.Closing ringBytes active) (hcap : ∃ k, ringBytes.toNat = 2 ^ k)
    (hs : s.step ringBytes memory a = some s') : s'.Closing ringBytes active := by
  obtain ⟨vs, pend, l, hinv⟩ := h.inv
  obtain ⟨hlog, hreq, -⟩ := step_flags hs
  refine ⟨hinv.step hcap hs, h.sized.step hs, h.confined.step hs fun t e _ ho ↦ ?_,
    hlog h.logEnabled, hreq h.shutdownRequest⟩
  rw [h.logEnabled] at ho
  cases ho

/-- The threads do not keep the log from being closed, and those that close it come closer. -/
theorem Closing.ranked_step (h : s.Closing ringBytes active) (hr : s.Ranked ringBytes active m)
    (hs : s.step ringBytes memory a = some s') :
    ∃ m', s'.Ranked ringBytes active m' ∧ m' + (if a.closes then 1 else 0) ≤ m := by
  obtain ⟨vs, pend, l, hinv⟩ := h.inv
  cases stepped_of_step hs with
  | call hpc hlog =>
      rw [h.logEnabled] at hlog
      cases hlog
  | ignored | disable | requestShutdown => exact ⟨m, hr.mono rfl (fun _ ↦ rfl) le_rfl, le_rfl⟩
  | @thread t i _ hs =>
      refine ⟨m, hr.mono (threadStep_byThread hs).stage (fun hscan ↦ ?_) ?_, le_rfl⟩
      · exact threadStep_next hs (hinv.registry.no_holder hscan t)
      · exact hinv.load_threadStep h.sized hs
  | @noMemory t e hpc =>
      refine ⟨m, hr.mono rfl (fun _ ↦ rfl) ?_, le_rfl⟩
      exact load_setPc_le rfl rfl (Nat.zero_le _)
  | @exit t hpc =>
      refine ⟨m, hr.mono rfl (fun _ ↦ rfl) ?_, le_rfl⟩
      exact load_setPc_le rfl rfl (Nat.zero_le _)
  | join hstage => exact hr.join hstage.1
  | backend hs => exact hinv.ranked_backend h.confined h.shutdownRequest hr hs

/-! ## Where it starts -/

/-- The rings that are still to come are in the registry. -/
theorem Inv.behind (h : s.Inv vs pend l) (hs : s.stage.scan? = some sc) :
    ∃ n, n ≤ l.length ∧ s.Behind sc n := by
  have linked {before todo : List RingId} (hl : l = before ++ todo)
      (hrest : Linked s.nextInRegistry (sc.rest s) todo none) :
      ∃ n, n ≤ l.length ∧ s.Behind sc n := by
    refine ⟨todo.length, ?_, todo, hrest, rfl⟩
    rw [hl, List.length_append]
    exact Nat.le_add_left _ _
  have behindRing {prev : Option RingId} {r : RingId} {todo : List RingId} (hat : At l prev r todo)
      (hrest : sc.rest s = s.nextInRegistry r) : ∃ n, n ≤ l.length ∧ s.Behind sc n := by
    have htodo := h.registry.linked_rest hat
    obtain ⟨before, hl, -⟩ := hat
    rw [List.append_cons] at hl
    refine linked hl ?_
    rw [hrest]
    exact htodo
  have hsc := h.scan hs
  cases sc with
  | lock | head | unlock work | done work => exact ⟨0, Nat.zero_le _, [], rfl, rfl⟩
  | loop prev r work =>
      obtain ⟨before, todo, hl, -, rfl, -⟩ := hsc
      refine linked hl ?_
      obtain ⟨c, -, htodo⟩ := Linked.append_iff.mp (hl ▸ h.registry.linked)
      cases htodo.eq_head?
      exact htodo
  | process prev r work p =>
      obtain ⟨todo, hat, -⟩ := hsc
      exact behindRing hat rfl
  | dead prev r work =>
      obtain ⟨todo, hat, -⟩ := hsc
      exact behindRing hat rfl
  | empty prev r work =>
      obtain ⟨todo, hat, -⟩ := hsc
      exact behindRing hat rfl
  | unlink prev r work =>
      obtain ⟨todo, hat, -⟩ := hsc
      exact behindRing hat rfl
  | next r work =>
      obtain ⟨prev, todo, hat, -⟩ := hsc
      exact behindRing hat rfl

theorem Inv.backlog_le (h : s.Inv vs pend l) (hsize : s.Sized ringBytes) :
    s.backlog ringBytes t ≤ 3 * ringBytes.toNat := by
  have hpub : (s.threads t).publications (s.rings t) ≤ 2 := (s.threads t).publications_le _
  have hmul := Nat.mul_le_mul_left ringBytes.toNat hpub
  have hun : (if (s.threads t).hasRing then (s.rings t).unread else 0) ≤ ringBytes.toNat := by
    split
    · rename_i hring
      have hle := Producer.unread_le ((h.lane t).ring hring)
      rw [show (s.lane t).ring.capacity = ringBytes from hsize t] at hle
      exact hle
    · exact Nat.zero_le _
  rw [backlog]
  omega

end Pipeline

/-- How many steps closing the log takes at most, with rings of this size for `k` threads. -/
def closeBound (ringBytes : UInt64) (k : Nat) : Nat :=
  Scan.worth k * (k * (3 * ringBytes.toNat)) + (3 * Scan.round k + 13 * k + 15)

theorem Stage.rank_le {all n : Nat} (h : n ≤ all) (st : Stage) :
    st.rank all n ≤ 3 * Scan.round all + 13 * all + 15 := by
  have hcost (sc : Scan) : sc.cost all n ≤ Scan.round all + 13 * all + 14 := by
    have htogo : sc.togo all n ≤ 13 * all + 14 := by
      cases sc with
      | process prev r work p =>
          have hle := p.togo_le
          rw [Scan.togo]
          omega
      | _ => simp only [Scan.togo]; omega
    rw [Scan.cost]
    split <;> omega
  cases st with
  | running sc | lastDrain sc | finalDrain sc =>
      have hle := hcost sc
      rw [Stage.rank]
      omega
  | exited | closed =>
      rw [Stage.rank]
      omega

namespace Pipeline

variable {s s' : Pipeline} {ringBytes : UInt64} {memory : RingId → Nat → UInt8} {t : RingId}
  {m : Nat} {active : Finset RingId} {a : Action} {as : List Action}

theorem Closing.ranked (h : s.Closing ringBytes active) :
    s.Ranked ringBytes active (closeBound ringBytes active.card) := by
  obtain ⟨vs, pend, l, hinv⟩ := h.inv
  have hlen := hinv.length_le h.confined
  have hload : s.load ringBytes active ≤ active.card * (3 * ringBytes.toNat) :=
    Finset.sum_le_card_nsmul _ _ _ fun t _ ↦ hinv.backlog_le h.sized
  have hmul := Nat.mul_le_mul_left (Scan.worth active.card) hload
  cases hst : s.stage.scan? with
  | none =>
      refine ⟨0, fun sc hsc ↦ ?_, ?_⟩
      · cases hst.symm.trans hsc
      · exact Nat.add_le_add hmul (Stage.rank_le (Nat.zero_le _) _)
  | some sc =>
      obtain ⟨n, hn, hbehind⟩ := hinv.behind hst
      refine ⟨n, fun sc' hsc ↦ ?_, ?_⟩
      · cases hst.symm.trans hsc
        exact hbehind
      · exact Nat.add_le_add hmul (Stage.rank_le (hn.trans hlen) _)

/-- The log is being closed from the request on. -/
theorem closing_of_exec (hcap : ∃ k, ringBytes.toNat = 2 ^ k)
    (hs : (init ringBytes memory).exec ringBytes memory as = some s)
    (hreq : s.shutdownRequest = true) : s.Closing ringBytes (callers as) := by
  have hsized : s.Sized ringBytes :=
    Run.run_inv (I := fun s ↦ s.Sized ringBytes) (fun a _ s s' h ↦ h.step) (fun _ ↦ rfl) hs
  have hconf : s.Confined (callers as) := by
    refine Run.run_inv (I := fun s ↦ s.Confined (callers as)) (fun a ha s s' h h₁ ↦ ?_)
      (fun _ _ ↦ ⟨rfl, Or.inl rfl⟩) hs
    refine h.step h₁ fun t e he _ ↦ ?_
    subst he
    exact List.mem_toFinset.mpr (List.mem_filterMap.mpr ⟨_, ha, rfl⟩)
  have hoff : s.shutdownRequest = true → s.logEnabled = false := by
    refine Run.run_inv (I := fun s ↦ s.shutdownRequest = true → s.logEnabled = false)
      (fun a _ s s' h h₁ hr ↦ ?_) (fun hr ↦ by cases hr) hs
    obtain ⟨hlog, -, hor⟩ := step_flags h₁
    exact hlog ((hor hr).elim h id)
  exact ⟨init_inv.exec hcap hs, hsized, hconf, hoff hreq, hreq⟩

/-! ## Nobody waits for ever -/

/-- Where the registry is not locked by a thread, a scan goes on until it is done. -/
theorem exists_scanStep {sc : Scan} (hmu : sc = .lock → s.registryMu = none)
    (hd : ∀ work, sc ≠ .done work) : ∃ x, s.scanStep 0 sc = some x := by
  cases sc with
  | lock => exact ⟨({ s with registryMu := some .scanner }, .head), if_pos (hmu rfl)⟩
  | loop prev r work => cases r <;> exact ⟨_, rfl⟩
  | process prev r work p =>
      cases p with
      | done res => cases res <;> exact ⟨_, rfl⟩
      | _ => exact ⟨_, rfl⟩
  | dead prev r work =>
      rw [scanStep]
      split <;> exact ⟨_, rfl⟩
  | unlink prev r work => cases prev <;> exact ⟨_, rfl⟩
  | done work => exact absurd rfl (hd work)
  | _ => exact ⟨_, rfl⟩

/-- Where no thread has locked the registry, closing the log goes on. -/
theorem Closing.exists_step (h : s.Closing ringBytes active) (hst : s.stage ≠ .closed)
    (hmu : ∀ t, s.registryMu ≠ some (.thread t)) :
    ∃ a s', a.closes = true ∧ s.step ringBytes memory a = some s' := by
  obtain ⟨vs, pend, l, hinv⟩ := h.inv
  have free (hsc : s.stage.scan? = some .lock) : s.registryMu = none := by
    cases hown : s.registryMu with
    | none => rfl
    | some o =>
        cases o with
        | scanner =>
            have hscan := hinv.registry.scanner.mp hown
            rw [scanning_of_scan? hsc] at hscan
            cases hscan
        | thread t => exact absurd hown (hmu t)
  have scan {f : Scan → Stage} {sc : Scan} (hf : (f sc).scan? = some sc) (hst : s.stage = f sc)
      (hd : ∀ work, sc ≠ .done work)
      (hstep : s.backendStep 0 = (s.scanStep 0 sc).map fun x ↦ { x.1 with stage := f x.2 }) :
      ∃ a s', a.closes = true ∧ s.step ringBytes memory a = some s' := by
    obtain ⟨x, hx⟩ := exists_scanStep (s := s) (fun he ↦ free (by rw [hst, hf, he])) hd
    refine ⟨.backend 0, { x.1 with stage := f x.2 }, rfl, ?_⟩
    show s.backendStep 0 = _
    rw [hstep, hx, Option.map_some]
  have finish {s₁ : Pipeline} (hstep : s.backendStep 0 = some s₁) :
      ∃ a s', a.closes = true ∧ s.step ringBytes memory a = some s' := ⟨.backend 0, s₁, rfl, hstep⟩
  cases hs : s.stage with
  | running sc =>
      cases sc with
      | done work => exact finish (by rw [backendStep, hs])
      | _ => exact scan (f := .running) rfl hs (fun _ he ↦ by cases he) (by rw [backendStep, hs])
  | lastDrain sc =>
      cases sc with
      | done work => exact finish (by rw [backendStep, hs])
      | _ => exact scan (f := .lastDrain) rfl hs (fun _ he ↦ by cases he) (by rw [backendStep, hs])
  | exited => exact ⟨.join, _, rfl, if_pos ⟨hs, h.shutdownRequest⟩⟩
  | finalDrain sc =>
      cases sc with
      | done work => exact finish (by rw [backendStep, hs])
      | _ => exact scan (f := .finalDrain) rfl hs (fun _ he ↦ by cases he) (by rw [backendStep, hs])
  | closed => exact absurd hs hst

/-- A thread that has locked the registry unlocks it, and needs nobody for that. -/
theorem exists_unlock (hh : (s.threads t).holds = true) :
    ∃ k s', k ≤ 3 ∧ s.exec ringBytes memory (List.replicate k (.thread t 0)) = some s' ∧
      s'.registryMu = none := by
  have one {s s' : Pipeline} {k : Nat} (hstep : s.threadStep ringBytes memory t 0 = some s')
      (hrest : ∃ s₁, s'.exec ringBytes memory (List.replicate k (.thread t 0)) = some s₁ ∧
        s₁.registryMu = none) :
      ∃ s₁, s.exec ringBytes memory (List.replicate (k + 1) (.thread t 0)) = some s₁ ∧
        s₁.registryMu = none := by
    obtain ⟨s₁, h₁, hmu⟩ := hrest
    exact ⟨s₁, Run.run_cons_eq_some.mpr ⟨s', hstep, h₁⟩, hmu⟩
  have unlock {s : Pipeline} {e : LogEvent} (hpc : (s.threads t).pc = .unlock e) :
      ∃ s₁, s.exec ringBytes memory (List.replicate 1 (.thread t 0)) = some s₁ ∧
        s₁.registryMu = none := by
    have hstep : s.threadStep ringBytes memory t 0 =
        some { s.setPc t (.produce e .idle) with registryMu := none } := by rw [threadStep, hpc]
    exact one hstep ⟨_, rfl, rfl⟩
  have linkHead {s : Pipeline} {e : LogEvent} (hpc : (s.threads t).pc = .linkHead e) :
      ∃ s₁, s.exec ringBytes memory (List.replicate 2 (.thread t 0)) = some s₁ ∧
        s₁.registryMu = none := by
    have hstep : s.threadStep ringBytes memory t 0 =
        some { s.setPc t (.unlock e) with registryHead := some t } := by rw [threadStep, hpc]
    exact one hstep (unlock (congrArg Thread.pc (threads_setPc_self s t (.unlock e))))
  unfold Thread.holds at hh
  split at hh
  case h_1 e hpc =>
    have hstep : s.threadStep ringBytes memory t 0 =
        some { s.setPc t (.linkHead e) with
          nextInRegistry := Function.update s.nextInRegistry t s.registryHead } := by
      rw [threadStep, hpc]
    obtain ⟨s₁, h₁, hmu⟩ :=
      one hstep (linkHead (congrArg Thread.pc (threads_setPc_self s t (.linkHead e))))
    exact ⟨3, s₁, le_rfl, h₁, hmu⟩
  case h_2 e hpc =>
    obtain ⟨s₁, h₁, hmu⟩ := linkHead hpc
    exact ⟨2, s₁, Nat.le_succ 2, h₁, hmu⟩
  case h_3 e hpc =>
    obtain ⟨s₁, h₁, hmu⟩ := unlock hpc
    exact ⟨1, s₁, Nat.le_add_left 1 2, h₁, hmu⟩
  case h_4 => cases hh

theorem Closing.exists_unlock (h : s.Closing ringBytes active)
    (hmu : s.registryMu = some (.thread t)) :
    ∃ k s', k ≤ 3 ∧ s.exec ringBytes memory (List.replicate k (.thread t 0)) = some s' ∧
      s'.registryMu = none := by
  obtain ⟨vs, pend, l, hinv⟩ := h.inv
  exact Pipeline.exists_unlock ((hinv.registry.thread t).mp hmu)

theorem Closing.ranked_exec (h : s.Closing ringBytes active) (hcap : ∃ k, ringBytes.toNat = 2 ^ k)
    (hr : s.Ranked ringBytes active m) (hs : s.exec ringBytes memory as = some s') :
    ∃ m', (s'.Closing ringBytes active ∧ s'.Ranked ringBytes active m') ∧
      m' + as.countP Action.closes ≤ m := by
  refine Run.run_countP (I := fun m s ↦ s.Closing ringBytes active ∧ s.Ranked ringBytes active m)
    ?_ ⟨h, hr⟩ hs
  rintro m s a s' ⟨h, hr⟩ hs
  obtain ⟨m', hr', hle⟩ := h.ranked_step hr hs
  exact ⟨m', ⟨h.step hcap hs, hr'⟩, hle⟩

theorem Closing.exists_lower (h : s.Closing ringBytes active)
    (hcap : ∃ k, ringBytes.toNat = 2 ^ k) (hr : s.Ranked ringBytes active m)
    (hst : s.stage ≠ .closed) (hmu : ∀ t, s.registryMu ≠ some (.thread t)) :
    ∃ as s' m', s.exec ringBytes memory as = some s' ∧
      (s'.Closing ringBytes active ∧ s'.Ranked ringBytes active m') ∧ m' < m := by
  obtain ⟨a, s', ha, hs⟩ : ∃ a s', a.closes = true ∧ s.step ringBytes memory a = some s' :=
    h.exists_step hst hmu
  have hrun : s.exec ringBytes memory [a] = some s' := Run.run_cons_eq_some.mpr ⟨s', hs, rfl⟩
  obtain ⟨m', h', hle⟩ := h.ranked_exec hcap hr hrun
  rw [List.countP_singleton, if_pos ha] at hle
  exact ⟨[a], s', m', hrun, h', hle⟩

/-- Some run closes the log: where a thread has locked the registry, it unlocks it first. -/
theorem Closing.exists_exec (h : s.Closing ringBytes active)
    (hcap : ∃ k, ringBytes.toNat = 2 ^ k) :
    ∃ as s', s.exec ringBytes memory as = some s' ∧ s'.stage = .closed := by
  refine Run.exists_run_of_bound
    (I := fun m s ↦ s.Closing ringBytes active ∧ s.Ranked ringBytes active m) ?_ ⟨h, h.ranked⟩
  rintro m s ⟨h, hr⟩ hst
  by_cases hmu : ∃ t, s.registryMu = some (.thread t)
  · obtain ⟨t, hmu⟩ := hmu
    obtain ⟨k, s₁, -, h₁, hfree⟩ :
        ∃ k s₁, k ≤ 3 ∧ s.exec ringBytes memory (List.replicate k (.thread t 0)) = some s₁ ∧
          s₁.registryMu = none := h.exists_unlock hmu
    obtain ⟨m₁, ⟨hc₁, hr₁⟩, hle₁⟩ := h.ranked_exec hcap hr h₁
    have hst₁ : s₁.stage ≠ .closed := by
      refine Run.run_inv (I := fun s ↦ s.stage ≠ .closed) (fun a ha s s' hs hstep ↦ ?_) hst h₁
      cases List.eq_of_mem_replicate ha
      rw [(threadStep_byThread hstep).stage]
      exact hs
    have hmu₁ (t : RingId) : s₁.registryMu ≠ some (.thread t) := fun ht ↦ by
      cases hfree.symm.trans ht
    obtain ⟨as, s', m', hs', h', hlt⟩ :
        ∃ as s' m', s₁.exec ringBytes memory as = some s' ∧
          (s'.Closing ringBytes active ∧ s'.Ranked ringBytes active m') ∧ m' < m₁ :=
      hc₁.exists_lower hcap hr₁ hst₁ hmu₁
    refine ⟨List.replicate k (.thread t 0) ++ as, s', m', ?_, h', by omega⟩
    rw [Run.run_append, show Run.run _ _ _ = some s₁ from h₁, Option.bind_some]
    exact hs'
  · exact h.exists_lower hcap hr hst fun t ht ↦ hmu ⟨t, ht⟩

end Pipeline

open Pipeline

/-- **Closing the log comes to an end.**  Once `log_close` has asked the backend thread to stop,
whatever the other threads do: the backend thread and the thread that closes the log take no more
than `closeBound` steps, which depends only on how many threads have logged and on the size of a
ring; as long as the log is not closed they can take one, unless another thread has locked the
registry, and that thread unlocks it by itself in three steps; and the log can always be closed. -/
theorem logClose_terminates (ringBytes : UInt64) (memory : RingId → Nat → UInt8)
    (hcap : ∃ k, ringBytes.toNat = 2 ^ k) (as bs : List Action) (s s' : Pipeline)
    (hs : (init ringBytes memory).exec ringBytes memory as = some s)
    (hreq : s.shutdownRequest = true) (hs' : s.exec ringBytes memory bs = some s') :
    bs.countP Action.closes ≤ closeBound ringBytes (callers as).card ∧
    (s'.stage ≠ .closed →
      (∃ a s₁, a.closes = true ∧ s'.step ringBytes memory a = some s₁) ∨
      ∃ t k s₁, s'.registryMu = some (.thread t) ∧ k ≤ 3 ∧
        s'.exec ringBytes memory (List.replicate k (.thread t 0)) = some s₁ ∧
        s₁.registryMu = none) ∧
    ∃ cs s₁, s'.exec ringBytes memory cs = some s₁ ∧ s₁.stage = .closed := by
  have h := closing_of_exec hcap hs hreq
  obtain ⟨m, ⟨h', -⟩, hle⟩ := h.ranked_exec hcap h.ranked hs'
  refine ⟨(Nat.le_add_left _ _).trans hle, fun hst ↦ ?_, h'.exists_exec hcap⟩
  by_cases hmu : ∃ t, s'.registryMu = some (.thread t)
  · obtain ⟨t, hmu⟩ := hmu
    obtain ⟨k, s₁, hk, h₁, hfree⟩ := h'.exists_unlock hmu
    exact Or.inr ⟨t, k, s₁, hmu, hk, h₁, hfree⟩
  · exact Or.inl (h'.exists_step hst fun t ht ↦ hmu ⟨t, ht⟩)

/-- A thread has locked the registry to link its first ring when `log_close` is called. -/
def registeringThread : List Action :=
  [.call 0 oneEvent, .thread 0 0, .thread 0 0, .disable, .requestShutdown]

/-- The backend thread waits for it, and the log is closed nevertheless. -/
theorem logClose_terminates_registeringThread : ∃ s : Pipeline,
    (init 64 fun _ _ ↦ 0).exec 64 (fun _ _ ↦ 0) registeringThread = some s ∧
    s.registryMu = some (.thread 0) ∧ (s.backendStep 0).isNone = true ∧
    ∃ cs s₁, s.exec 64 (fun _ _ ↦ 0) cs = some s₁ ∧ s₁.stage = .closed := by
  have hrun : ((init 64 fun _ _ ↦ 0).exec 64 (fun _ _ ↦ 0) registeringThread).any
      (fun s ↦ s.shutdownRequest ∧ s.registryMu = some (.thread 0) ∧ (s.backendStep 0).isNone) =
        true := by decide +kernel
  obtain ⟨s, hs, hst⟩ := (Option.any_eq_true _ _).mp hrun
  obtain ⟨hreq, hmu, hwait⟩ := of_decide_eq_true hst
  obtain ⟨-, -, hclosed⟩ :=
    logClose_terminates 64 (fun _ _ ↦ 0) ⟨6, rfl⟩ registeringThread [] s s hs hreq rfl
  exact ⟨s, hs, hmu, hwait, hclosed⟩

end DeadLockDetect.Runtime
