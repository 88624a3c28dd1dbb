import DeadLockDetect.Runtime.PipelineInv

/-!
# What the scanner does

A step of the scanner is one inside `process_one_event`, which changes the ring it is at,
or one of the walk along the registry, or the splice that takes a ring out of the
registry.  A ring is spliced out after its producer was found dead and the ring was
found empty after that, so nothing can be left in it.
-/

namespace DeadLockDetect.Runtime

/-! ## Lanes -/

namespace Lane.Inv

variable {x : Lane} {v v' : Virtual} {pend pend' : List LogEvent}

/-- The scanner reads from the ring of a lane. -/
theorem consume {ring : ThreadRing} {fl : List Record} (h : x.Inv v pend) (hring : ring.Inv v')
    (hreg : x.thread.registered = true) (hfreed : x.freed = false)
    (hcons : Consumed x.ring ring v v') (hev : events v'.segs = pend'.map LogEvent.encode)
    (hflow : fl ++ pend'.map LogEvent.record = x.inFlight ++ pend.map LogEvent.record)
    (hsees : v'.Sees (x.cut.length - (x.written ++ fl).length)) :
    Lane.Inv { x with ring := ring, inFlight := fl } v' pend' where
  ring _ := hring
  segs := hev
  flow := by
    show x.written ++ fl ++ _ = _
    rw [List.append_assoc, hflow, ← List.append_assoc]
    exact h.flow
  sees := hsees
  cut := h.cut
  fresh hr := by
    rw [hreg] at hr
    cases hr
  pc := h.pc.consumed hcons
  dead := h.dead
  freed hf := by
    rw [show x.freed = true from hf] at hfreed
    cases hfreed

/-- The record in flight is written. -/
theorem write {out : Record} (h : x.Inv v pend) (hf : x.inFlight = [out]) :
    Lane.Inv { x with written := x.written ++ [out], inFlight := [] } v pend where
  ring := h.ring
  segs := h.segs
  flow := by
    rw [List.append_nil, ← hf]
    exact h.flow
  sees := by
    rw [List.append_nil, ← hf]
    exact h.sees
  cut := h.cut
  fresh := h.fresh
  pc := h.pc
  dead := h.dead
  freed hfr := by
    obtain ⟨hpc, hd, hp, -⟩ := h.freed hfr
    exact ⟨hpc, hd, hp, rfl⟩

end Lane.Inv

namespace Pipeline

variable {s s' : Pipeline} {vs : RingId → Virtual} {pend : RingId → List LogEvent}
  {l : List RingId} {sc sc' : Scan} {st : Stage} {r : RingId} {i : Nat}

theorem inFlight_of_scan? {c : Scan} (h : s.stage.scan? = some c) (r : RingId) :
    s.inFlight r = c.inFlight r := by
  rw [inFlight, h]
  rfl

theorem scanning_of_scan? {c : Scan} (h : s.stage.scan? = some c) : s.scanning = c.holds := by
  rw [scanning, h]
  rfl

/-- At a stage with a scan under way, the position of the scan is what counts. -/
theorem stageInv_iff {c : Scan} (h : s.stage.scan? = some c) :
    s.stage.Inv s vs pend l ↔ c.Inv s vs pend l := by
  cases hs : s.stage with
  | running sc₁ | lastDrain sc₁ | finalDrain sc₁ =>
      rw [hs] at h
      cases h
      rfl
  | exited | closed =>
      rw [hs] at h
      cases h

theorem Inv.scan (h : s.Inv vs pend l) (hs : s.stage.scan? = some sc) : sc.Inv s vs pend l :=
  (stageInv_iff hs).mp h.stage

/-- The lanes after a step of the scanner that may lock or unlock the registry. -/
theorem lane_restage (hs : s.stage.scan? = some sc) (hst : st.scan? = some sc')
    (hfl : ∀ r, sc'.inFlight r = sc.inFlight r) (mu : Option Owner) (r : RingId) :
    Pipeline.lane { s with registryMu := mu, stage := st } r = s.lane r := by
  have hf : Pipeline.inFlight { s with registryMu := mu, stage := st } r = s.inFlight r := by
    rw [inFlight_of_scan? hs, inFlight_of_scan? (c := sc') hst, hfl]
  rw [Pipeline.lane, hf]
  rfl

/-- The scanner moves on and nothing else changes. -/
theorem Inv.rescan (h : s.Inv vs pend l) (hs : s.stage.scan? = some sc)
    (hst : st.scan? = some sc') (hfl : ∀ r, sc'.inFlight r = sc.inFlight r)
    (hholds : sc'.holds = sc.holds) (hsc : sc'.Inv s vs pend l) :
    Inv { s with stage := st } vs pend l := by
  have hlane (r : RingId) : Pipeline.lane { s with stage := st } r = s.lane r :=
    lane_restage hs hst hfl s.registryMu r
  refine ⟨fun r ↦ ?_, ?_, (stageInv_iff (c := sc') hst).mpr ?_⟩
  · rw [hlane]
    exact h.lane r
  · refine { h.registry with scanner := ?_ }
    rw [scanning_of_scan? (c := sc') hst, hholds, ← scanning_of_scan? hs]
    exact h.registry.scanner
  · cases sc' <;> exact hsc

/-- The scanner reads from the ring it is at. -/
theorem Inv.reread {v' : Virtual} {ring : ThreadRing} (pend' : List LogEvent)
    (h : s.Inv vs pend l) (hs : s.stage.scan? = some sc) (hst : st.scan? = some sc')
    (hr : r ∈ l) (hfl : ∀ x, x ≠ r → sc'.inFlight x = sc.inFlight x)
    (hholds : sc'.holds = sc.holds) (hring : ring.Inv v')
    (hcons : Consumed (s.rings r) ring (vs r) v')
    (hev : events v'.segs = pend'.map LogEvent.encode)
    (hflow : sc'.inFlight r ++ pend'.map LogEvent.record =
      sc.inFlight r ++ (pend r).map LogEvent.record)
    (hsees : v'.Sees ((s.cut r).length - (s.written r ++ sc'.inFlight r).length))
    (hsc : sc'.Inv { s.setRing r ring with stage := st } (Function.update vs r v')
      (Function.update pend r pend') l) :
    Inv { s.setRing r ring with stage := st } (Function.update vs r v')
      (Function.update pend r pend') l := by
  obtain ⟨-, hreg, hfreed⟩ := h.ring_of_mem hr
  have hfl' (x : RingId) : inFlight { s.setRing r ring with stage := st } x = sc'.inFlight x :=
    inFlight_of_scan? (c := sc') hst x
  refine ⟨lane_update h.lane (fun x hx ↦ ?_) ?_, ?_, (stageInv_iff (c := sc') hst).mpr hsc⟩
  · rw [Pipeline.lane, hfl', hfl x hx, ← inFlight_of_scan? hs]
    simp only [setRing, Function.update_of_ne hx]
    rfl
  · rw [Pipeline.lane, hfl']
    simp only [setRing, Function.update_self]
    refine (h.lane r).consume hring hreg hfreed hcons hev ?_ hsees
    rw [hflow, ← inFlight_of_scan? hs]
    rfl
  · refine { h.registry with scanner := ?_ }
    rw [scanning_of_scan? (c := sc') hst, hholds, ← scanning_of_scan? hs]
    exact h.registry.scanner

/-! ## The walk along the registry -/

theorem At.mem {prev : Option RingId} {todo : List RingId} (h : At l prev r todo) : r ∈ l := by
  obtain ⟨before, rfl, -⟩ := h
  exact List.mem_append_right before List.mem_cons_self

theorem Registry.next_eq {prev : Option RingId} {todo : List RingId} (h : s.Registry l)
    (hat : At l prev r todo) : s.nextInRegistry r = todo.head? := by
  obtain ⟨before, rfl, -⟩ := hat
  exact h.linked.next_eq

/-- The scanner holds the mutex, so no thread does. -/
theorem Registry.no_holder (h : s.Registry l) (hs : s.scanning = true) (t : RingId) :
    (s.threads t).holds = false := by
  rw [← Bool.not_eq_true, ← h.thread, h.scanner.mpr hs]
  exact fun he ↦ by cases he

/-- All rings outside the list are drained. -/
theorem Inv.left (h : s.Inv vs pend l) : s.Left l := fun r ↦ by
  by_cases hr : r ∈ l
  · exact Or.inr hr
  · exact Or.inl (h.drained_of_notMem hr)

theorem Left.tail {todo : List RingId} (h : s.Left (r :: todo)) (hr : (s.lane r).Drained) :
    s.Left todo := fun x ↦ by
  rcases h x with hx | hx
  · exact Or.inl hx
  · rcases List.mem_cons.mp hx with rfl | hx
    · exact Or.inl hr
    · exact Or.inr hx

/-- The scanner locks the registry. -/
theorem Inv.scanLock (h : s.Inv vs pend l) (hs : s.stage.scan? = some .lock)
    (hmu : s.registryMu = none) (hst : st.scan? = some .head) :
    Inv { s with registryMu := some .scanner, stage := st } vs pend l := by
  have hlane := lane_restage hs hst (fun _ ↦ rfl) (some .scanner)
  refine ⟨fun r ↦ ?_, ?_, (stageInv_iff (c := .head) hst).mpr trivial⟩
  · rw [hlane]
    exact h.lane r
  · refine { h.registry with scanner := ?_, thread := fun t ↦ ?_ }
    · rw [scanning_of_scan? (c := .head) hst]
      exact ⟨fun _ ↦ rfl, fun _ ↦ rfl⟩
    · have hth := h.registry.thread t
      rw [hmu] at hth
      exact ⟨nofun, fun he ↦ by cases hth.mpr he⟩

/-- The scanner unlocks the registry. -/
theorem Inv.scanUnlock {work : Bool} (h : s.Inv vs pend l)
    (hs : s.stage.scan? = some (.unlock work)) (hst : st.scan? = some (.done work)) :
    Inv { s with registryMu := none, stage := st } vs pend l := by
  have hlane := lane_restage hs hst (fun _ ↦ rfl) none
  have hleft : s.Left [] := h.scan hs
  have hno := h.registry.no_holder (by rw [scanning_of_scan? hs]; rfl)
  refine ⟨fun r ↦ ?_, ?_, (stageInv_iff (c := .done work) hst).mpr fun r ↦ ?_⟩
  · rw [hlane]
    exact h.lane r
  · refine { h.registry with scanner := ?_, thread := fun t ↦ ?_ }
    · rw [scanning_of_scan? (c := .done work) hst]
      exact ⟨nofun, nofun⟩
    · show none = some (Owner.thread t) ↔ (s.threads t).holds = true
      rw [hno t]
      exact ⟨nofun, nofun⟩
  · rw [hlane]
    exact hleft r

/-! ## One ring -/

/-- The records of a ring after one more record. -/
theorem written_of_trace {out : Record} (h : s'.trace = s.trace ++ [(r, out)]) (x : RingId) :
    s'.written x = s.written x ++ if r = x then [out] else [] := by
  rw [written, h, List.filter_append, List.map_append, ← written]
  by_cases hx : r = x <;> simp [hx]

/-- The scanner writes the record that it consumed. -/
theorem Inv.scanWrite {prev : Option RingId} {work : Bool} {out : Record} (h : s.Inv vs pend l)
    (hs : s.stage.scan? = some (.process prev r work (.write out)))
    (hst : st.scan? = some (.process prev r work (.done true))) :
    Inv { s with trace := s.trace ++ [(r, out)], stage := st } vs pend l := by
  have hfl (x : RingId) :
      Pipeline.inFlight { s with trace := s.trace ++ [(r, out)], stage := st } x = [] := by
    rw [inFlight_of_scan? (c := .process prev r work (.done true)) hst]
    show (if r = x then [] else []) = []
    split <;> rfl
  have hself : s.inFlight r = [out] := by
    rw [inFlight_of_scan? hs]
    exact if_pos rfl
  have hwritten (x : RingId) :
      Pipeline.written { s with trace := s.trace ++ [(r, out)], stage := st } x =
        s.written x ++ if r = x then [out] else [] := written_of_trace rfl x
  have hlane (x : RingId) :
      (Pipeline.lane { s with trace := s.trace ++ [(r, out)], stage := st } x).Inv (vs x)
        (pend x) := by
    rw [Pipeline.lane, hfl, hwritten]
    by_cases hx : r = x
    · rw [if_pos hx, ← hx]
      exact (h.lane r).write hself
    · have hnil : s.inFlight x = [] := by
        rw [inFlight_of_scan? hs]
        exact if_neg hx
      have hl := h.lane x
      rw [Pipeline.lane, hnil] at hl
      rw [if_neg hx, List.append_nil]
      exact hl
  obtain ⟨todo, hat, hleft, -⟩ := h.scan hs
  refine ⟨hlane, ?_, (stageInv_iff (c := .process prev r work (.done true)) hst).mpr
    ⟨todo, hat, fun x ↦ (hleft x).imp (fun hd ↦ ?_) id, trivial⟩⟩
  · refine { h.registry with scanner := ?_ }
    rw [scanning_of_scan? (c := .process prev r work (.done true)) hst]
    exact h.registry.scanner.trans (by rw [scanning_of_scan? hs]; rfl)
  · show _ <+: Pipeline.written _ x
    rw [hwritten]
    exact hd.trans (List.prefix_append _ _)

/-- A step inside `process_one_event`. -/
theorem Inv.scanProcess {prev : Option RingId} {work : Bool} {p p' : Process}
    {ring : ThreadRing} (h : s.Inv vs pend l)
    (hs : s.stage.scan? = some (.process prev r work p))
    (hp : p.step (s.rings r) i = some (ring, p'))
    (hst : st.scan? = some (.process prev r work p')) :
    ∃ vs' pend', Inv { s.setRing r ring with stage := st } vs' pend' l := by
  obtain ⟨todo, hat, hleft, hinv⟩ := h.scan hs
  have hfl : p.inFlight = [] := by
    cases p with
    | write out => cases hp
    | _ => rfl
  have hfl' : s.inFlight r = [] := by
    rw [inFlight_of_scan? hs]
    exact (if_pos rfl).trans hfl
  have hsees := (h.lane r).sees
  rw [show (s.lane r).inFlight = [] from hfl', List.append_nil] at hsees
  obtain ⟨v', pend', hi, hcons, hev, hsees', hinv', htook⟩ :=
    Process.step_inv (h.ring_of_mem hat.mem).1 (h.lane r).segs hsees
      (fun hn ↦ (h.lane r).drained hfl' (Nat.sub_eq_zero_iff_le.mp hn)) hinv hp
  have hself : Scan.inFlight r (.process prev r work p') = p'.inFlight := if_pos rfl
  refine ⟨_, _, h.reread pend' hs hst hat.mem (fun x hx ↦ ?_) rfl hi hcons hev ?_ ?_
    ⟨todo, hat, hleft, ?_⟩⟩
  · exact (if_neg (Ne.symm hx)).trans (if_neg (Ne.symm hx)).symm
  · rw [hself, show Scan.inFlight r (.process prev r work p) = p.inFlight from if_pos rfl, hfl]
    rcases htook with ⟨rfl, hf⟩ | ⟨e, he, rfl⟩
    · rw [hf]
    · rw [he]
      rfl
  · rw [hself, List.length_append, ← Nat.sub_sub]
    exact hsees'
  · rw [Function.update_self]
    exact hinv'

/-! ## Reclaiming a ring -/

/-- The scanner finds the producer dead, and has then seen all that it committed. -/
theorem Inv.scanDead {prev : Option RingId} {work : Bool} (h : s.Inv vs pend l)
    (hs : s.stage.scan? = some (.dead prev r work)) (hd : s.producerDead r = true)
    (hst : st.scan? = some (.empty prev r work)) :
    ∃ vs' pend', Inv { s.setRing r { s.rings r with head := (s.rings r).head.sync } with
      stage := st } vs' pend' l := by
  obtain ⟨todo, hat, hleft⟩ := h.scan hs
  have hi := (h.ring_of_mem hat.mem).1
  have hnil : s.inFlight r = [] := inFlight_of_scan? hs r
  have hsees := (h.lane r).sees
  rw [show (s.lane r).inFlight = [] from hnil] at hsees
  refine ⟨_, _, h.reread (pend r) hs hst hat.mem (fun _ _ ↦ rfl) rfl hi.sync
    ⟨rfl, rfl, rfl, rfl, rfl⟩ (h.lane r).segs rfl ?_ ⟨todo, hat, hleft, ?_, ?_⟩⟩
  · exact hsees.mono (List.prefix_refl _) hi.end_eq hi.head_mono.seen_le_latest
  · exact (h.lane r).dead hd
  · rw [Function.update_self]
    rfl

/-- The scanner finds the ring of a dead producer empty, so no event is left in it. -/
theorem Inv.scanEmpty {prev : Option RingId} {work : Bool} {ring : ThreadRing}
    (h : s.Inv vs pend l) (hs : s.stage.scan? = some (.empty prev r work))
    (hl : (s.rings r).loadHead i = some ring)
    (hst : st.scan? = some (if ring.readable = 0 then .unlink prev r work else .next r work)) :
    ∃ vs' pend', Inv { s.setRing r ring with stage := st } vs' pend' l := by
  obtain ⟨todo, hat, hleft, hpc, hseen⟩ := h.scan hs
  have hi := (h.ring_of_mem hat.mem).1
  have hnil : s.inFlight r = [] := inFlight_of_scan? hs r
  have hsees := (h.lane r).sees
  rw [show (s.lane r).inFlight = [] from hnil] at hsees
  obtain ⟨c, hi', hcons, hle, hsees'⟩ := hi.loadHead_sees hsees hl
  split at hst
  · rename_i hr
    have hempty : c.seen = (vs r).tail.latest := hi'.readable_eq_zero_iff.mp hr
    have hend := hi.end_eq
    have hsegs : (vs r).segs = [] := eq_nil_of_span_eq_zero (by
      have hle' := hi.tail_le_head_seen
      omega)
    have hpend : pend r = [] := by
      have hev := (h.lane r).segs
      rw [hsegs] at hev
      exact List.map_eq_nil_iff.mp hev.symm
    refine ⟨_, _, h.reread (pend r) hs hst hat.mem (fun _ _ ↦ rfl) rfl hi' hcons
      (h.lane r).segs rfl hsees' ⟨todo, hat, hleft, hpc, ?_⟩⟩
    rw [Function.update_self]
    exact hpend
  · exact ⟨_, _, h.reread (pend r) hs hst hat.mem (fun _ _ ↦ rfl) rfl hi' hcons
      (h.lane r).segs rfl hsees' ⟨prev, todo, hat, hleft⟩⟩

/-- A ring is taken out of the list. -/
theorem Registry.erase {before todo : List RingId} (h : s.Registry (before ++ r :: todo))
    (hs : s.scanning = true) (hs' : s'.scanning = true) (hth : s'.threads = s.threads)
    (hmu : s'.registryMu = s.registryMu) (hfreed : s'.freed = Function.update s.freed r true)
    (hlinked : Linked s'.nextInRegistry s'.registryHead (before ++ todo) none) :
    s'.Registry (before ++ todo) where
  linked := hlinked
  nodup := h.nodup.sublist ((List.sublist_cons_self r todo).append_left before)
  mem x := by
    have hmem := h.mem x
    rw [hth, hfreed]
    by_cases hx : x = r
    · have hnot : r ∉ before ++ todo :=
        (List.nodup_cons.mp (List.perm_middle.nodup_iff.mp h.nodup)).1
      rw [hx, Function.update_self]
      exact ⟨fun hm ↦ absurd hm hnot, fun hm ↦ by cases hm.2⟩
    · rw [Function.update_of_ne hx, ← hmem, List.mem_append, List.mem_append, List.mem_cons,
        or_iff_right hx]
  linkHead x e hx := by
    rw [hth] at hx
    have hno := h.no_holder hs x
    rw [Thread.holds, hx] at hno
    cases hno
  scanner := by
    rw [hmu, h.scanner, hs, hs']
  thread x := by
    rw [hmu, hth]
    exact h.thread x

/-- The scanner unlinks and deletes a ring. -/
theorem Inv.scanUnlink {prev : Option RingId} {work : Bool} {before todo : List RingId}
    (h : s.Inv vs pend l) (hs : s.stage.scan? = some (.unlink prev r work))
    (hl : l = before ++ r :: todo) (hprev : prev = before.getLast?) (hleft : s.Left todo)
    (hpc : (s.threads r).pc = .exited) (hpend : pend r = [])
    (hst : st.scan? = some (.loop prev todo.head? work))
    {links : RingId → Option RingId} {head : Option RingId}
    (hlinked : Linked links head (before ++ todo) none) :
    Inv { s with
      nextInRegistry := links
      registryHead := head
      freed := Function.update s.freed r true
      stage := st } vs pend (before ++ todo) := by
  have hnil (x : RingId) : s.inFlight x = [] := inFlight_of_scan? hs x
  have hnil' (x : RingId) : Pipeline.inFlight { s with
      nextInRegistry := links
      registryHead := head
      freed := Function.update s.freed r true
      stage := st } x = [] := inFlight_of_scan? (c := .loop prev todo.head? work) hst x
  have hmem : r ∈ l := hl ▸ List.mem_append_right before List.mem_cons_self
  have hdead : s.producerDead r = true := by
    have hreg := (h.ring_of_mem hmem).2.1
    have hinv := (h.lane r).pc
    rw [Thread.Inv, show (s.lane r).thread.pc = .exited from hpc] at hinv
    rw [Thread.registered, hpc] at hreg
    exact hinv.trans hreg
  refine ⟨fun x ↦ ?_, ?_, (stageInv_iff (c := .loop prev todo.head? work) hst).mpr
    ⟨before, todo, rfl, hprev, rfl, hleft⟩⟩
  · have hx := h.lane x
    rw [Pipeline.lane, hnil] at hx
    rw [Pipeline.lane, hnil']
    refine { hx with freed := fun hf ↦ ?_ }
    by_cases he : x = r
    · rw [he]
      exact ⟨hpc, hdead, hpend, rfl⟩
    · refine hx.freed ?_
      change Function.update s.freed r true x = true at hf
      rwa [Function.update_of_ne he] at hf
  · exact (hl ▸ h.registry).erase (by rw [scanning_of_scan? hs]; rfl)
      (by rw [scanning_of_scan? (c := .loop prev todo.head? work) hst]; rfl) rfl rfl rfl hlinked

/-! ## All steps -/

/-- Inside `process_one_event` the scanner does what the call does. -/
theorem scanStep_process {prev : Option RingId} {work : Bool} {p : Process}
    (hw : ∀ out, p ≠ .write out) (hd : ∀ res, p ≠ .done res) :
    s.scanStep i (.process prev r work p) =
      (p.step (s.rings r) i).map fun x ↦ (s.setRing r x.1, .process prev r work x.2) := by
  cases p with
  | write out => exact absurd rfl (hw out)
  | done res => exact absurd rfl (hd res)
  | _ => rfl

/-- Every step of a scan preserves the invariant. -/
theorem Inv.scanStep {s₁ : Pipeline} (h : s.Inv vs pend l) (hs : s.stage.scan? = some sc)
    (hstep : s.scanStep i sc = some (s₁, sc')) (hst : st.scan? = some sc') :
    ∃ vs' pend' l', Inv { s₁ with stage := st } vs' pend' l' := by
  have hsc := h.scan hs
  cases sc with
  | lock =>
      rw [Pipeline.scanStep] at hstep
      split at hstep
      · rename_i hmu
        cases hstep
        exact ⟨vs, pend, l, h.scanLock hs hmu hst⟩
      · cases hstep
  | head =>
      cases hstep
      exact ⟨vs, pend, l, h.rescan hs hst (fun _ ↦ rfl) rfl
        ⟨[], l, rfl, rfl, h.registry.linked.eq_head?, h.left⟩⟩
  | loop prev r work =>
      obtain ⟨before, todo, hl, hprev, hr, hleft⟩ := hsc
      cases todo with
      | nil =>
          subst hr
          cases hstep
          exact ⟨vs, pend, l, h.rescan hs hst (fun _ ↦ rfl) rfl hleft⟩
      | cons r' todo =>
          subst hr
          cases hstep
          refine ⟨vs, pend, l, h.rescan hs hst (fun x ↦ ?_) rfl
            ⟨todo, ⟨before, hl, hprev⟩, hleft, trivial⟩⟩
          show (if r' = x then [] else []) = []
          split <;> rfl
  | process prev r work p =>
      obtain ⟨todo, hat, hleft, hinv⟩ := hsc
      cases p with
      | write out =>
          cases hstep
          exact ⟨vs, pend, l, h.scanWrite hs hst⟩
      | done res =>
          cases res with
          | true =>
              cases hstep
              exact ⟨vs, pend, l, h.rescan hs hst (fun _ ↦ rfl) rfl ⟨todo, hat, hleft, trivial⟩⟩
          | false =>
              cases hstep
              refine ⟨vs, pend, l, h.rescan hs hst (fun x ↦ ?_) rfl ⟨todo, hat, hleft.tail hinv⟩⟩
              show [] = if r = x then [] else []
              split <;> rfl
      | _ =>
          rw [scanStep_process (fun _ he ↦ by cases he) (fun _ he ↦ by cases he)] at hstep
          obtain ⟨⟨ring, p'⟩, hp, he⟩ := Option.map_eq_some_iff.mp hstep
          cases he
          obtain ⟨vs', pend', hi⟩ := h.scanProcess hs hp hst
          exact ⟨vs', pend', l, hi⟩
  | dead prev r work =>
      rw [Pipeline.scanStep] at hstep
      split at hstep
      · rename_i hd
        cases hstep
        obtain ⟨vs', pend', hi⟩ := h.scanDead hs hd hst
        exact ⟨vs', pend', l, hi⟩
      · cases hstep
        exact ⟨vs, pend, l, h.rescan hs hst (fun _ ↦ rfl) rfl ⟨prev, hsc⟩⟩
  | empty prev r work =>
      obtain ⟨ring, hl, he⟩ := Option.map_eq_some_iff.mp hstep
      cases he
      obtain ⟨vs', pend', hi⟩ := h.scanEmpty hs hl hst
      exact ⟨vs', pend', l, hi⟩
  | unlink prev r work =>
      obtain ⟨todo, hat, hleft, hpc, hpend⟩ := hsc
      have hnext := h.registry.next_eq hat
      obtain ⟨before, hl, hprev⟩ := hat
      have hlinked := h.registry.linked
      have hnodup := h.registry.nodup
      rw [hl] at hlinked hnodup
      cases prev with
      | none =>
          cases hstep
          rw [hnext] at hst
          have hb : before = [] := List.getLast?_eq_none_iff.mp hprev.symm
          refine ⟨vs, pend, _, h.scanUnlink hs hl hprev hleft hpc hpend hst ?_⟩
          rw [hb] at hlinked ⊢
          exact hlinked.pop
      | some q =>
          cases hstep
          rw [hnext] at hst
          obtain ⟨b, rfl⟩ := List.getLast?_eq_some_iff.mp hprev.symm
          refine ⟨vs, pend, _, h.scanUnlink hs hl hprev hleft hpc hpend hst ?_⟩
          rw [List.append_assoc] at hlinked hnodup ⊢
          exact hlinked.splice hnodup
  | next r work =>
      obtain ⟨prev, todo, hat, hleft⟩ := hsc
      have hnext := h.registry.next_eq hat
      obtain ⟨before, hl, hprev⟩ := hat
      cases hstep
      refine ⟨vs, pend, l, h.rescan hs hst (fun _ ↦ rfl) rfl
        ⟨before ++ [r], todo, ?_, ?_, hnext, hleft⟩⟩
      · rw [hl, List.append_assoc]
        rfl
      · rw [List.getLast?_concat]
  | unlock work =>
      cases hstep
      exact ⟨vs, pend, l, h.scanUnlock hs hst⟩
  | done work => cases hstep

end Pipeline

end DeadLockDetect.Runtime
