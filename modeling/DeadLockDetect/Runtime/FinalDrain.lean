import DeadLockDetect.Runtime.Quiet

/-!
# What the final drain leaves behind

A thread may still be inside `log_event` while `backend_final_drain` empties the rings.  After the
join nothing new comes into the ring of a quiet thread, and its values of `head_` have all been seen
(`Unseen`); so a round leaves it only when it is drained (`Swept`), and when the log is closed every
quiet thread has a drained ring (`Tidy.clear`).

`Settled` is what holds from the join on, `Tidy` is what holds in every state of every run.
-/

namespace DeadLockDetect.Runtime

namespace Pipeline

variable {s s' s₁ : Pipeline} {vs : RingId → Virtual} {pend : RingId → List LogEvent}
  {l : List RingId} {ringBytes : UInt64} {memory : RingId → Nat → UInt8} {t r : RingId} {i : Nat}
  {sc sc' : Scan} {a : Action}

/-! ## What a round leaves -/

/-- All values of `head_` that a quiet thread has stored have been seen. -/
def Unseen (s : Pipeline) : Prop :=
  ∀ t, (s.threads t).quiet = true → (s.rings t).head.unseen = []

/-- A round has left the rings of quiet threads drained, but for those that are still to come. -/
def Swept (s : Pipeline) (sc : Scan) : Prop :=
  ∃ todo, Linked s.nextInRegistry (sc.rest s) todo none ∧
    ∀ t, t ∉ todo → (s.threads t).quiet = true → sc.Leaves t (s.rings t)

/-- The rings of quiet threads are drained. -/
def Clear (s : Pipeline) : Prop := ∀ t, (s.threads t).quiet = true → (s.rings t).Drained

/-- What holds of quiet threads at each stage from the final drain on. -/
def SweptAt (s : Pipeline) : Stage → Prop
  | .finalDrain sc => s.Swept sc
  | .closed => s.Clear
  | _ => True

/-- A thread that is not registered yet has a new ring; one whose ring was deleted has exited. -/
theorem Inv.drained_of_quiet (h : s.Inv vs pend l) (ht : t ∉ l)
    (hq : (s.threads t).quiet = true) : (s.rings t).Drained := by
  rw [h.registry.mem, not_and_or, Bool.not_eq_true, Bool.not_eq_false] at ht
  rcases ht with hreg | hfreed
  · have hring : (s.threads t).hasRing = true := Thread.hasRing_of_quiet hq (h.lane t).pc
    have hi : (s.rings t).Inv (vs t) := (h.lane t).ring hring
    rw [((h.lane t).fresh hreg).1] at hi
    rw [ThreadRing.Drained, hi.head_latest_eq, hi.tail_latest_eq]
    rfl
  · have hexit : (s.threads t).pc = .exited := ((h.lane t).freed hfreed).1
    rw [Thread.quiet, hexit] at hq
    cases hq

/-- The scanner is done with a ring, and goes on to those behind it. -/
theorem Swept.next (h : s.Swept sc) (hnext : s'.nextInRegistry = s.nextInRegistry)
    (hrest : sc'.rest s' = sc.rest s) (hth : s'.threads = s.threads)
    (hring : ∀ t, sc.Leaves t (s.rings t) → sc'.Leaves t (s'.rings t)) : s'.Swept sc' := by
  obtain ⟨todo, htodo, hleft⟩ := h
  refine ⟨todo, ?_, ?_⟩
  · rw [hrest, hnext]
    exact htodo
  · intro t ht hq
    rw [hth] at hq
    exact hring t (hleft t ht hq)

theorem leaves_setRing {ring : ThreadRing}
    (hr : sc.Leaves r (s.rings r) → sc'.Leaves r ring)
    (hne : ∀ t, t ≠ r → sc.Leaves t (s.rings t) → sc'.Leaves t (s.rings t)) (t : RingId)
    (h : sc.Leaves t (s.rings t)) : sc'.Leaves t ((s.setRing r ring).rings t) := by
  show sc'.Leaves t (Function.update s.rings r ring t)
  by_cases ht : t = r
  · subst ht
    rw [Function.update_self]
    exact hr h
  · rw [Function.update_of_ne ht]
    exact hne t ht h

/-- A step inside `process_one_event`. -/
theorem Inv.swept_process {prev : Option RingId} {work : Bool} {p p' : Process} {ring : ThreadRing}
    (h : s.Inv vs pend l) (hs : s.stage.scan? = some (.process prev r work p)) (hu : s.Unseen)
    (hsw : s.Swept (.process prev r work p)) (hp : p.step (s.rings r) i = some (ring, p')) :
    (s.setRing r ring).Swept (.process prev r work p') := by
  obtain ⟨todo, hat, -, hinv⟩ := h.scan hs
  have hi := (h.ring_of_mem hat.mem).1
  obtain ⟨rest, hrest, hleft⟩ := hsw
  refine ⟨rest, hrest, ?_⟩
  intro t ht hq
  have hl := hleft t ht hq
  show Scan.Leaves t (Function.update s.rings r ring t) _
  by_cases htr : t = r
  · subst htr
    have he : p.Empties (s.rings t) := (if_pos rfl).mp hl
    rw [Function.update_self]
    exact (if_pos rfl).mpr (he.step hi (h.lane t).segs hinv (hu t hq) hp)
  · have hd : (s.rings t).Drained := (if_neg htr).mp hl
    rw [Function.update_of_ne htr]
    exact (if_neg htr).mpr hd

/-- The scanner leaves nothing unseen where there was nothing unseen. -/
theorem Scanned.unseen {ring ring' : ThreadRing} (h : Scanned ring ring')
    (hu : ring.head.unseen = []) : ring'.head.unseen = [] := by
  cases h with
  | process h => exact Process.unseen_step hu h
  | sync => rfl
  | load h =>
      rw [ThreadRing.eq_of_loadHead hu h]
      exact hu

theorem Unseen.scanStep (hu : s.Unseen) (hs : s.scanStep i sc = some (s₁, sc')) : s₁.Unseen := by
  intro t hq
  rw [(scanStep_untouched hs).threads] at hq
  have ht := hu t hq
  rcases rings_scanStep hs with he | ⟨r, ring, hring, he⟩
  · rw [he]
    exact ht
  · rw [he]
    show (Function.update s.rings r ring t).head.unseen = []
    by_cases htr : t = r
    · subst htr
      rw [Function.update_self]
      exact hring.unseen ht
    · rw [Function.update_of_ne htr]
      exact ht

/-- Every step of a round leaves the rings behind it drained. -/
theorem Inv.swept_scanStep (h : s.Inv vs pend l) (hs : s.stage.scan? = some sc) (hu : s.Unseen)
    (hsw : s.Swept sc) (hstep : s.scanStep i sc = some (s₁, sc')) : s₁.Swept sc' := by
  have hsc := h.scan hs
  cases sc with
  | lock =>
      rw [Pipeline.scanStep] at hstep
      split at hstep <;> cases hstep
      exact ⟨[], rfl, fun _ _ _ ↦ trivial⟩
  | head =>
      cases hstep
      exact ⟨l, h.registry.linked, fun t ht hq ↦ h.drained_of_quiet ht hq⟩
  | loop prev r work =>
      cases r with
      | none =>
          cases hstep
          exact hsw.next rfl rfl rfl fun _ hl ↦ hl
      | some r =>
          cases hstep
          obtain ⟨todo, htodo, hleft⟩ := hsw
          cases todo with
          | nil => cases htodo
          | cons r' todo =>
              cases htodo.1
              refine ⟨todo, htodo.2, ?_⟩
              intro t ht hq
              by_cases htr : t = r
              · exact (if_pos htr).mpr trivial
              · refine (if_neg htr).mpr (hleft t ?_ hq)
                rw [List.mem_cons, not_or]
                exact ⟨htr, ht⟩
  | process prev r work p =>
      have same {p' : Process} {work' : Bool} {s₁ : Pipeline}
          (hp' : ∀ r, p.Empties r → p'.Empties r)
          (hnext : s₁.nextInRegistry = s.nextInRegistry) (hth : s₁.threads = s.threads)
          (hring : s₁.rings = s.rings) : s₁.Swept (.process prev r work' p') := by
        refine hsw.next hnext (congrFun hnext r) hth fun t hl ↦ ?_
        rw [hring]
        by_cases htr : t = r
        · exact (if_pos htr).mpr (hp' _ ((if_pos htr).mp hl))
        · exact (if_neg htr).mpr ((if_neg htr).mp hl)
      cases p with
      | write out =>
          cases hstep
          exact same (fun _ _ ↦ trivial) rfl rfl rfl
      | done res =>
          cases res with
          | true =>
              cases hstep
              exact same (fun _ _ ↦ trivial) rfl rfl rfl
          | false =>
              cases hstep
              refine hsw.next rfl rfl rfl fun t hl ↦ ?_
              by_cases htr : t = r
              · exact (if_pos htr).mp hl
              · exact (if_neg htr).mp hl
      | _ =>
          rw [scanStep_process (fun _ he ↦ by cases he) (fun _ he ↦ by cases he)] at hstep
          obtain ⟨⟨ring, p'⟩, hp, he⟩ := Option.map_eq_some_iff.mp hstep
          cases he
          exact h.swept_process hs hu hsw hp
  | dead prev r work =>
      rw [Pipeline.scanStep] at hstep
      split at hstep
      · cases hstep
        exact hsw.next rfl rfl rfl (leaves_setRing (fun hl ↦ hl) fun _ _ hl ↦ hl)
      · cases hstep
        exact hsw.next rfl rfl rfl fun _ hl ↦ hl
  | empty prev r work =>
      obtain ⟨ring, hl, he⟩ := Option.map_eq_some_iff.mp hstep
      obtain ⟨d, hd, rfl⟩ := Option.map_eq_some_iff.mp hl
      cases he
      have hring (hr : (s.rings r).Drained) : ThreadRing.Drained { s.rings r with head := d } :=
        (Cell.latest_load hd).trans hr
      split
      all_goals exact hsw.next rfl rfl rfl (leaves_setRing hring fun _ _ hl ↦ hl)
  | unlink prev r work =>
      cases prev with
      | none =>
          cases hstep
          exact hsw.next rfl rfl rfl fun _ hl ↦ hl
      | some q =>
          cases hstep
          -- the link that changes is in front of the rings that are still to come
          obtain ⟨todo, hat, -⟩ := hsc
          obtain ⟨todo', htodo', hleft⟩ := hsw
          cases (h.registry.linked_rest hat).unique htodo'
          obtain ⟨before, rfl, hq⟩ := hat
          have hmem : q ∈ before := List.mem_of_getLast? hq.symm
          have hq' : q ∉ todo := fun hm ↦
            (List.nodup_append.mp h.registry.nodup).2.2 q hmem q (List.mem_cons_of_mem r hm) rfl
          exact ⟨todo, htodo'.update_of_notMem hq', hleft⟩
  | next r work =>
      cases hstep
      exact hsw.next rfl rfl rfl fun _ hl ↦ hl
  | unlock work =>
      cases hstep
      exact hsw.next rfl rfl rfl fun _ hl ↦ hl
  | done work => cases hstep

/-! ## The threads -/

/-- The rings of quiet threads, after a step of any thread. -/
theorem Inv.quiet_after (h : s.Inv vs pend l) (hg : s.Granted)
    (hs : s.threadStep ringBytes memory t i = some s') (hq : (s'.threads r).quiet = true) :
    s'.rings r = { capacity := ringBytes, buf := memory r } ∨
      (s.threads r).quiet = true ∧ (s.rings r).Still (s'.rings r) := by
  by_cases hr : r = t
  · subst hr
    exact h.quiet_threadStep hg hs hq
  · rw [threadStep_rings hs hr]
    rw [(threadStep_byThread hs).threads r hr] at hq
    exact Or.inr ⟨hq, .refl _⟩

theorem Inv.leaves_threadStep (h : s.Inv vs pend l) (hg : s.Granted)
    (hs : s.threadStep ringBytes memory t i = some s')
    (hleft : (s.threads r).quiet = true → sc.Leaves r (s.rings r))
    (hq : (s'.threads r).quiet = true) : sc.Leaves r (s'.rings r) := by
  rcases h.quiet_after hg hs hq with hnew | ⟨hq', hstill⟩
  · rw [hnew]
    exact Scan.leaves_new r ringBytes (memory r) sc
  · exact (hleft hq').still hstill

/-- What a quiet thread has not published cannot be unseen. -/
theorem Inv.unseen_threadStep (h : s.Inv vs pend l) (hg : s.Granted) (hu : s.Unseen)
    (hs : s.threadStep ringBytes memory t i = some s') : s'.Unseen := by
  intro r hq
  rcases h.quiet_after hg hs hq with hnew | ⟨hq', hstill⟩
  · rw [hnew]
  · rw [hstill.head]
    exact hu r hq'

theorem Inv.clear_threadStep (h : s.Inv vs pend l) (hg : s.Granted) (hc : s.Clear)
    (hs : s.threadStep ringBytes memory t i = some s') : s'.Clear := by
  intro r hq
  rcases h.quiet_after hg hs hq with hnew | ⟨hq', hstill⟩
  · rw [hnew]
    rfl
  · exact hstill.drained (hc r hq')

theorem Inv.swept_threadStep (h : s.Inv vs pend l) (hg : s.Granted)
    (hsc : s.stage.scan? = some sc) (hsw : s.Swept sc)
    (hs : s.threadStep ringBytes memory t i = some s') : s'.Swept sc := by
  obtain ⟨todo, htodo, hleft⟩ := hsw
  cases hh : sc.holds with
  | true =>
      -- the registry is locked, so no link changes
      have hscan : s.scanning = true := by
        rw [scanning_of_scan? hsc]
        exact hh
      have hnext := threadStep_next hs (h.registry.no_holder hscan t)
      have hrest : sc.rest s' = sc.rest s := by cases sc <;> simp [Scan.rest, hnext]
      refine ⟨todo, ?_, ?_⟩
      · rw [hrest, hnext]
        exact htodo
      · intro r hr
        exact h.leaves_threadStep hg hs (hleft r hr)
  | false =>
      have hrest (x : Pipeline) : sc.rest x = none := by
        cases sc <;> first | rfl | cases hh
      rw [hrest] at htodo
      cases todo with
      | cons r todo => cases htodo.1
      | nil =>
          refine ⟨[], hrest s', ?_⟩
          intro r hr
          exact h.leaves_threadStep hg hs (hleft r hr)

/-! ## From the join on -/

/-- What holds from the start of the final drain on. -/
structure Settled (s : Pipeline) : Prop where
  logEnabled : s.logEnabled = false
  unseen : s.Unseen
  swept : s.SweptAt s.stage

/-- A step that makes no thread quiet and leaves the rings and the registry alone. -/
theorem Settled.mono (h : s.Settled) (hlog : s'.logEnabled = false) (hring : s'.rings = s.rings)
    (hst : s'.stage = s.stage) (hnext : s'.nextInRegistry = s.nextInRegistry)
    (hq : ∀ t, (s'.threads t).quiet = true → (s.threads t).quiet = true) : s'.Settled := by
  refine ⟨hlog, ?_, ?_⟩
  · intro t ht
    rw [hring]
    exact h.unseen t (hq t ht)
  · have hsw := h.swept
    rw [hst]
    cases hs : s.stage with
    | finalDrain sc =>
        rw [hs] at hsw
        obtain ⟨todo, htodo, hleft⟩ := hsw
        have hrest : sc.rest s' = sc.rest s := by cases sc <;> simp [Scan.rest, hnext]
        refine ⟨todo, ?_, ?_⟩
        · rw [hrest, hnext]
          exact htodo
        · intro t ht hqt
          rw [hring]
          exact hleft t ht (hq t hqt)
    | closed =>
        rw [hs] at hsw
        intro t ht
        rw [hring]
        exact hsw t (hq t ht)
    | _ => trivial

theorem quiet_setPc {pc : ThreadPc} (hpc : pc = .idle ∨ pc = .exited) (x : RingId)
    (hq : ((s.setPc t pc).threads x).quiet = true) : (s.threads x).quiet = true := by
  by_cases hx : x = t
  · rw [hx, threads_setPc_self] at hq
    rcases hpc with rfl | rfl <;> cases hq
  · rw [threads_setPc_of_ne s hx] at hq
    exact hq

/-- A step of the final drain. -/
theorem Inv.settled_backend (h : s.Inv vs pend l) (hf : s.Final) (hset : s.Settled)
    (hs : s.backendStep i = some s') : s'.Settled := by
  have hsw := hset.swept
  have hlog : s'.logEnabled = false := by
    rw [(backendStep_untouched hs).logEnabled]
    exact hset.logEnabled
  rw [Pipeline.backendStep] at hs
  rcases hf with ⟨sc, hst⟩ | hst
  · rw [hst] at hs hsw
    cases sc with
    | done work =>
        cases hs
        cases work with
        | true => exact ⟨hlog, hset.unseen, [], rfl, fun _ _ _ ↦ trivial⟩
        | false =>
            obtain ⟨todo, htodo, hleft⟩ := hsw
            refine ⟨hlog, hset.unseen, ?_⟩
            intro t hq
            cases todo with
            | nil => exact hleft t List.not_mem_nil hq
            | cons r todo => cases htodo.1
    | _ =>
        obtain ⟨⟨s₁, sc'⟩, hx, rfl⟩ := Option.map_eq_some_iff.mp hs
        have hsc := congrArg Stage.scan? hst
        have hu : s₁.Unseen := hset.unseen.scanStep hx
        obtain ⟨todo, htodo, hleft⟩ : s₁.Swept sc' := h.swept_scanStep hsc hset.unseen hsw hx
        refine ⟨hlog, hu, todo, ?_, hleft⟩
        have hrest : Scan.rest { s₁ with stage := .finalDrain sc' } sc' = sc'.rest s₁ := by
          cases sc' <;> rfl
        rw [hrest]
        exact htodo
  · rw [hst] at hs
    cases hs

/-- Every step from the join on. -/
theorem Inv.settled_step (h : s.Inv vs pend l) (hg : s.Granted) (hf : s.Final) (hset : s.Settled)
    (hs : s.step ringBytes memory a = some s') : s'.Settled := by
  have hoff := hset.logEnabled
  cases stepped_of_step hs with
  | call hpc hlog => cases hoff.symm.trans hlog
  | ignored => exact hset
  | thread hs =>
      have hby := threadStep_byThread hs
      refine ⟨hby.logEnabled.trans hoff, h.unseen_threadStep hg hset.unseen hs, ?_⟩
      have hsw := hset.swept
      rw [hby.stage]
      rcases hf with ⟨sc, hst⟩ | hst
      · have hsc := congrArg Stage.scan? hst
        rw [hst] at hsw ⊢
        exact h.swept_threadStep hg hsc hsw hs
      · rw [hst] at hsw ⊢
        exact h.clear_threadStep hg hsw hs
  | noMemory hpc => exact hset.mono hoff rfl rfl rfl (quiet_setPc (Or.inl rfl))
  | exit hpc =>
      refine hset.mono hoff rfl rfl rfl ?_
      intro x hq
      exact quiet_setPc (Or.inr rfl) x hq
  | disable => exact hset.mono rfl rfl rfl rfl fun _ hq ↦ hq
  | requestShutdown => exact hset.mono hoff rfl rfl rfl fun _ hq ↦ hq
  | join hstage =>
      rcases hf with ⟨sc, hst⟩ | hst <;> cases hst.symm.trans hstage.1
  | backend hs => exact h.settled_backend hf hset hs

/-- The join has seen all that was published. -/
theorem settled_join (hlog : s.logEnabled = false) : Settled { s with
    stage := .finalDrain .lock
    rings := fun r ↦ { s.rings r with head := (s.rings r).head.sync }
    cut := s.committed } := by
  refine ⟨hlog, fun _ _ ↦ rfl, [], rfl, ?_⟩
  intro t _ _
  trivial

/-! ## Every run -/

/-- The backend thread by itself comes to its end at most. -/
theorem Final.of_backendStep (hf : s'.Final) (hs : s.backendStep i = some s') : s.Final := by
  rw [Pipeline.backendStep] at hs
  cases hst : s.stage with
  | finalDrain sc => exact Or.inl ⟨sc, hst⟩
  | closed => exact Or.inr hst
  | exited =>
      rw [hst] at hs
      cases hs
  | running sc =>
      rw [hst] at hs
      cases sc with
      | done work =>
          cases hs
          cases hreq : s.shutdownRequest <;> simp [Final, hreq] at hf
      | _ =>
          obtain ⟨x, -, rfl⟩ := Option.map_eq_some_iff.mp hs
          simp [Final] at hf
  | lastDrain sc =>
      rw [hst] at hs
      cases sc with
      | done work =>
          cases hs
          cases work <;> simp [Final] at hf
      | _ =>
          obtain ⟨x, -, rfl⟩ := Option.map_eq_some_iff.mp hs
          simp [Final] at hf

/-- What holds in every state of a run. -/
structure Tidy (s : Pipeline) : Prop where
  inv : ∃ vs pend l, s.Inv vs pend l
  granted : s.Granted
  logEnabled : s.shutdownRequest = true → s.logEnabled = false
  settled : s.Final → s.shutdownRequest = true ∧ s.Settled

theorem Tidy.step (h : s.Tidy) (hcap : ∃ k, ringBytes.toNat = 2 ^ k)
    (hs : s.step ringBytes memory a = some s') : s'.Tidy := by
  obtain ⟨vs, pend, l, hinv⟩ := h.inv
  obtain ⟨hlog, hreq, hor⟩ := step_flags hs
  refine ⟨hinv.step hcap hs, hinv.granted_step h.granted hs, ?_, ?_⟩
  · intro hr
    exact hlog ((hor hr).elim h.logEnabled id)
  · intro hf'
    have final (hf : s.Final) : s'.shutdownRequest = true ∧ s'.Settled := by
      obtain ⟨hr, hset⟩ := h.settled hf
      exact ⟨hreq hr, hinv.settled_step h.granted hf hset hs⟩
    cases stepped_of_step hs with
    | join hstage => exact ⟨hstage.2, settled_join (h.logEnabled hstage.2)⟩
    | call | ignored | noMemory | exit | disable | requestShutdown => exact final hf'
    | thread hs =>
        rw [Final, (threadStep_byThread hs).stage] at hf'
        exact final hf'
    | backend hs => exact final (hf'.of_backendStep hs)

theorem init_tidy : (init ringBytes memory).Tidy where
  inv := ⟨_, _, _, init_inv⟩
  granted := fun _ _ _ hpc ↦ by cases hpc
  logEnabled := fun hr ↦ by cases hr
  settled := by
    rintro (⟨sc, hst⟩ | hst) <;> cases hst

theorem tidy_of_exec (hcap : ∃ k, ringBytes.toNat = 2 ^ k) {as : List Action}
    (hs : (init ringBytes memory).exec ringBytes memory as = some s) : s.Tidy :=
  Run.run_inv (I := Tidy) (fun _ _ _ _ h hs ↦ h.step hcap hs) init_tidy hs

/-- When the log is closed, every quiet thread has a drained ring. -/
theorem Tidy.clear (h : s.Tidy) (hst : s.stage = .closed) : s.Clear := by
  have hsw := (h.settled (Or.inr hst)).2.swept
  rw [hst] at hsw
  exact hsw

end Pipeline

end DeadLockDetect.Runtime
