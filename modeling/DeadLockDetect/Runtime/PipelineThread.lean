import DeadLockDetect.Runtime.PipelineInv

/-!
# What the threads do

A step of a thread changes its own lane, and it changes the registry only in
`backend_register_ring`, while it holds the mutex.  The scanner, wherever it stands, is
not affected: the thread appends to its ring, and a thread that has exited takes no
step.
-/

namespace DeadLockDetect.Runtime

namespace Pipeline

variable {s s' : Pipeline} {vs vs' : RingId → Virtual} {pend pend' : RingId → List LogEvent}
  {l : List RingId} {t : RingId} {v : Virtual} {p : List LogEvent}

/-! ## The scanner is not affected -/

theorem Left.mono {todo : List RingId} (h : s.Left todo)
    (hd : ∀ r, (s.lane r).Drained → (s'.lane r).Drained) : s'.Left todo :=
  fun r ↦ (h r).imp (hd r) id

/-- A step of thread `t`, seen from the scanner. -/
structure Aside (s s' : Pipeline) (t : RingId) (v v' : Virtual) : Prop where
  lane : ∀ r, r ≠ t → s'.lane r = s.lane r
  drained : (s.lane t).Drained → (s'.lane t).Drained
  produced : ∃ new, Produced v v' new
  alive : (s.threads t).pc ≠ .exited

theorem Aside.drained' (h : Aside s s' t v v') (r : RingId) (hr : (s.lane r).Drained) :
    (s'.lane r).Drained := by
  by_cases he : r = t
  · rw [he] at hr ⊢
    exact h.drained hr
  · rw [h.lane r he]
    exact hr

theorem Aside.scan {sc : Scan} {v' : Virtual} (ha : Aside s s' t (vs t) v')
    (h : sc.Inv s vs pend l) :
    sc.Inv s' (Function.update vs t v') (Function.update pend t p) l := by
  -- a ring whose thread has exited is not the ring of `t`
  have hexit {r : RingId} (hr : (s.threads r).pc = .exited) :
      r ≠ t ∧ (s'.threads r).pc = .exited := by
    have hne : r ≠ t := fun e ↦ ha.alive (e ▸ hr)
    have hth : s'.threads r = s.threads r := congrArg Lane.thread (ha.lane r hne)
    exact ⟨hne, by rw [hth]; exact hr⟩
  cases sc with
  | lock | head => trivial
  | loop prev r work =>
      obtain ⟨before, todo, hl, hp, hr, hleft⟩ := h
      exact ⟨before, todo, hl, hp, hr, hleft.mono ha.drained'⟩
  | process prev r work q =>
      obtain ⟨todo, hat, hleft, hq⟩ := h
      refine ⟨todo, hat, hleft.mono ha.drained', Process.Inv.mono ?_ (ha.drained' r)⟩
      by_cases hr : r = t
      · obtain ⟨new, hprod⟩ := ha.produced
        rw [hr] at hq ⊢
        rw [Function.update_self]
        exact hq.produced hprod
      · rw [Function.update_of_ne hr]
        exact hq
  | dead prev r work =>
      obtain ⟨todo, hat, hleft⟩ := h
      exact ⟨todo, hat, hleft.mono ha.drained'⟩
  | empty prev r work =>
      obtain ⟨todo, hat, hleft, hpc, hseen⟩ := h
      obtain ⟨hne, hpc'⟩ := hexit hpc
      refine ⟨todo, hat, hleft.mono ha.drained', hpc', ?_⟩
      rw [Function.update_of_ne hne]
      exact hseen
  | unlink prev r work =>
      obtain ⟨todo, hat, hleft, hpc, hpend⟩ := h
      obtain ⟨hne, hpc'⟩ := hexit hpc
      refine ⟨todo, hat, hleft.mono ha.drained', hpc', ?_⟩
      rw [Function.update_of_ne hne]
      exact hpend
  | next r work =>
      obtain ⟨prev, todo, hat, hleft⟩ := h
      exact ⟨prev, todo, hat, hleft.mono ha.drained'⟩
  | unlock work | done work => exact Left.mono h ha.drained'

/-- Between two scans the list of rings may change. -/
theorem Inv.relist {l' : List RingId} (h : s.Inv vs pend l) (hl : l' = l ∨ s.scanning = false) :
    s.stage.Inv s vs pend l' := by
  rcases hl with rfl | hl
  · exact h.stage
  · have hstage := h.stage
    rw [scanning] at hl
    cases hs : s.stage with
    | running sc | lastDrain sc | finalDrain sc =>
        rw [hs] at hstage hl
        cases sc with
        | lock => trivial
        | done work => exact hstage
        | _ => cases hl
    | exited => trivial
    | closed =>
        rw [hs] at hstage
        exact hstage

/-- A step of a thread preserves the invariant if it does so in its lane and in the
registry. -/
theorem Inv.aside {l' : List RingId} (v' : Virtual) (h : s.Inv vs pend l)
    (ha : Aside s s' t (vs t) v') (hst : s'.stage = s.stage) (hl : (s'.lane t).Inv v' p)
    (hr : s'.Registry l') (hlist : l' = l ∨ s.scanning = false) :
    s'.Inv (Function.update vs t v') (Function.update pend t p) l' where
  lane := lane_update h.lane ha.lane hl
  registry := hr
  stage := by
    have hstage := h.relist hlist
    rw [hst]
    cases hs : s.stage with
    | running sc | lastDrain sc | finalDrain sc =>
        rw [hs] at hstage
        exact ha.scan hstage
    | exited => trivial
    | closed =>
        rw [hs] at hstage
        exact Left.mono hstage ha.drained'

/-! ## The registry -/

/-- A step of thread `t` that does not change the registry. -/
theorem Registry.same (h : s.Registry l) (hhead : s'.registryHead = s.registryHead)
    (hnext : s'.nextInRegistry = s.nextInRegistry) (hmu : s'.registryMu = s.registryMu)
    (hfreed : s'.freed = s.freed) (hscan : s'.scanning = s.scanning)
    (hth : ∀ r, r ≠ t → s'.threads r = s.threads r)
    (hreg : (s'.threads t).registered = (s.threads t).registered)
    (hholds : (s'.threads t).holds = (s.threads t).holds)
    (hlink : ∀ e, (s'.threads t).pc ≠ .linkHead e) : s'.Registry l where
  linked := by
    rw [hnext, hhead]
    exact h.linked
  nodup := h.nodup
  mem r := by
    rw [h.mem, hfreed]
    by_cases hr : r = t
    · rw [hr, hreg]
    · rw [hth r hr]
  linkHead r e hr := by
    rw [hnext, hhead]
    by_cases he : r = t
    · rw [he] at hr
      exact absurd hr (hlink e)
    · rw [hth r he] at hr
      exact h.linkHead r e hr
  scanner := by
    rw [hmu, hscan]
    exact h.scanner
  thread r := by
    rw [hmu, h.thread]
    by_cases hr : r = t
    · rw [hr, hholds]
    · rw [hth r hr]

/-- A thread that holds the mutex is the only one that does, and the scanner does not. -/
theorem Registry.alone (h : s.Registry l) (ht : (s.threads t).holds = true) :
    s.registryMu = some (.thread t) ∧ s.scanning = false ∧
      ∀ r, (s.threads r).holds = true → r = t := by
  have hmu := (h.thread t).mpr ht
  refine ⟨hmu, ?_, fun r hr ↦ ?_⟩
  · rw [← Bool.not_eq_true, ← h.scanner, hmu]
    exact fun he ↦ by cases he
  · have hmu' := (h.thread r).mpr hr
    rw [hmu] at hmu'
    cases hmu'
    rfl

/-- A step of thread `t` that leaves the offsets of its ring alone. -/
theorem Inv.relane {l' : List RingId} (h : s.Inv vs pend l)
    (hne : ∀ r, r ≠ t → s'.lane r = s.lane r) (hst : s'.stage = s.stage)
    (hd : (s.lane t).Drained → (s'.lane t).Drained) (halive : (s.threads t).pc ≠ .exited)
    (hl : (s'.lane t).Inv (vs t) (pend t)) (hr : s'.Registry l')
    (hlist : l' = l ∨ s.scanning = false) : s'.Inv vs pend l' := by
  have hi := h.aside _ ⟨hne, hd, ⟨[], .nil rfl rfl rfl⟩, halive⟩ hst hl hr hlist
  rwa [Function.update_eq_self, Function.update_eq_self] at hi

/-! ## Moving without a change to the ring -/

theorem threads_setPc_self (s : Pipeline) (t : RingId) (pc : ThreadPc) :
    (s.setPc t pc).threads t = { s.threads t with pc := pc } :=
  Function.update_self t _ s.threads

theorem threads_setPc_of_ne (s : Pipeline) {r : RingId} (hr : r ≠ t) (pc : ThreadPc) :
    (s.setPc t pc).threads r = s.threads r :=
  Function.update_of_ne hr _ s.threads

theorem lane_setPc_self (s : Pipeline) (t : RingId) (pc : ThreadPc) :
    (s.setPc t pc).lane t = { s.lane t with thread := { s.threads t with pc := pc } } := by
  rw [lane, threads_setPc_self]
  rfl

theorem lane_setPc_of_ne (s : Pipeline) {r : RingId} (hr : r ≠ t) (pc : ThreadPc) :
    (s.setPc t pc).lane r = s.lane r := by
  rw [lane, threads_setPc_of_ne s hr]
  rfl

/-- A thread moves on; what else changes concerns only the registry. -/
theorem Inv.move {pc : ThreadPc} {l' : List RingId} (h : s.Inv vs pend l)
    (hlane : ∀ r, s'.lane r = (s.setPc t pc).lane r) (hst : s'.stage = s.stage)
    (hne : (s.threads t).pc ≠ .exited)
    (hreg : Thread.registered { s.threads t with pc := pc } = false →
      (s.threads t).registered = false)
    (hpc : Thread.Inv { s.threads t with pc := pc } (s.rings t) (vs t) (s.producerDead t))
    (hr : s'.Registry l') (hlist : l' = l ∨ s.scanning = false) : s'.Inv vs pend l' := by
  refine h.relane (fun r hr ↦ ?_) hst (fun hd ↦ ?_) hne ?_ hr hlist
  · rw [hlane, lane_setPc_of_ne s hr]
  · rw [hlane, lane_setPc_self]
    exact hd
  · rw [hlane, lane_setPc_self]
    exact (h.lane t).setPc hne hreg hpc

/-- A thread moves on and the registry does not change. -/
theorem Inv.quiet {pc : ThreadPc} (h : s.Inv vs pend l) (hne : (s.threads t).pc ≠ .exited)
    (hreg : Thread.registered { s.threads t with pc := pc } = (s.threads t).registered)
    (hholds : Thread.holds { s.threads t with pc := pc } = (s.threads t).holds)
    (hlink : ∀ e, pc ≠ .linkHead e)
    (hpc : Thread.Inv { s.threads t with pc := pc } (s.rings t) (vs t) (s.producerDead t)) :
    (s.setPc t pc).Inv vs pend l := by
  refine h.move (fun r ↦ rfl) rfl hne (fun hr ↦ hreg ▸ hr) hpc ?_ (Or.inl rfl)
  refine h.registry.same rfl rfl rfl rfl rfl (fun r hr ↦ threads_setPc_of_ne s hr pc) ?_ ?_
    fun e ↦ ?_
  all_goals rw [threads_setPc_self]
  · exact hreg
  · exact hholds
  · exact hlink e

/-! ## `backend_register_ring` -/

/-- The registry after a move of thread `t`: what has to be shown of `t` and of the others. -/
theorem Registry.move {pc : ThreadPc} {l' : List RingId} (h : s.Registry l)
    (hth : s'.threads = (s.setPc t pc).threads) (hfreed : s'.freed = s.freed)
    (hlinked : Linked s'.nextInRegistry s'.registryHead l' none) (hnodup : l'.Nodup)
    (hmem : t ∈ l' ↔ Thread.registered { s.threads t with pc := pc } = true ∧ s.freed t = false)
    (hmem' : ∀ r, r ≠ t → (r ∈ l' ↔ r ∈ l))
    (hlink : ∀ e, pc = .linkHead e → s'.nextInRegistry t = s'.registryHead)
    (hlink' : ∀ r e, r ≠ t → (s.threads r).pc = .linkHead e →
      s'.nextInRegistry r = s'.registryHead)
    (hscan : s'.registryMu = some .scanner ↔ s'.scanning = true)
    (hmu : s'.registryMu = some (.thread t) ↔ Thread.holds { s.threads t with pc := pc } = true)
    (hmu' : ∀ r, r ≠ t → (s'.registryMu = some (.thread r) ↔ (s.threads r).holds = true)) :
    s'.Registry l' := by
  have hself : s'.threads t = { s.threads t with pc := pc } := by rw [hth, threads_setPc_self]
  have hne {r : RingId} (hr : r ≠ t) : s'.threads r = s.threads r := by
    rw [hth, threads_setPc_of_ne s hr]
  refine
    { linked := hlinked
      nodup := hnodup
      mem := fun r ↦ ?_
      linkHead := fun r e hr ↦ ?_
      scanner := hscan
      thread := fun r ↦ ?_ }
  all_goals by_cases he : r = t
  · rw [he, hself, hfreed]
    exact hmem
  · rw [hne he, hfreed, hmem' r he]
    exact h.mem r
  · rw [he, hself] at hr
    rw [he]
    exact hlink e hr
  · rw [hne he] at hr
    exact hlink' r e he hr
  · rw [he, hself]
    exact hmu
  · rw [hne he]
    exact hmu' r he

section Register

variable {e : LogEvent}

/-- A thread that registers its ring is not in the registry yet. -/
theorem Inv.notMem_of_registered (h : s.Inv vs pend l) (hr : (s.threads t).registered = false) :
    t ∉ l := by
  rw [h.registry.mem, hr]
  exact fun he ↦ by cases he.1

theorem Inv.lock (h : s.Inv vs pend l) (hpc : (s.threads t).pc = .lock e)
    (hmu : s.registryMu = none) :
    Inv { s.setPc t (.linkNext e) with registryMu := some (.thread t) } vs pend l := by
  have hinv : (s.threads t).hasRing = true := by
    have hinv := (h.lane t).pc
    rwa [Thread.Inv, show (s.lane t).thread.pc = .lock e from hpc] at hinv
  have hreg : (s.threads t).registered = false := by rw [Thread.registered, hpc]
  have hnot := h.notMem_of_registered hreg
  have hscan := h.registry.scanner
  rw [hmu] at hscan
  refine h.move (fun r ↦ rfl) rfl (by rw [hpc]; exact nofun) (fun _ ↦ hreg) hinv ?_ (Or.inl rfl)
  refine h.registry.move rfl rfl h.registry.linked h.registry.nodup ?_ (fun _ _ ↦ Iff.rfl)
    nofun (fun r e' _ hr ↦ h.registry.linkHead r e' hr) ?_ ?_ fun r hr ↦ ?_
  · exact ⟨fun hm ↦ absurd hm hnot, fun hm ↦ by cases hm.1⟩
  · exact ⟨nofun, fun he ↦ by cases hscan.mpr he⟩
  · exact ⟨fun _ ↦ rfl, fun _ ↦ rfl⟩
  · have hth := h.registry.thread r
    rw [hmu] at hth
    refine ⟨fun he ↦ ?_, fun he ↦ by cases hth.mpr he⟩
    cases he
    exact absurd rfl hr

theorem Inv.linkNext (h : s.Inv vs pend l) (hpc : (s.threads t).pc = .linkNext e) :
    Inv { s.setPc t (.linkHead e) with
      nextInRegistry := Function.update s.nextInRegistry t s.registryHead } vs pend l := by
  have hinv : (s.threads t).hasRing = true := by
    have hinv := (h.lane t).pc
    rwa [Thread.Inv, show (s.lane t).thread.pc = .linkNext e from hpc] at hinv
  have hreg : (s.threads t).registered = false := by rw [Thread.registered, hpc]
  have hholds : (s.threads t).holds = true := by rw [Thread.holds, hpc]
  have hnot := h.notMem_of_registered hreg
  obtain ⟨hmu, -, halone⟩ := h.registry.alone hholds
  refine h.move (fun r ↦ rfl) rfl (by rw [hpc]; exact nofun) (fun _ ↦ hreg) hinv ?_ (Or.inl rfl)
  refine h.registry.move rfl rfl (h.registry.linked.update_of_notMem hnot) h.registry.nodup ?_
    (fun _ _ ↦ Iff.rfl) (fun _ _ ↦ Function.update_self t _ _) (fun r e' hne hr ↦ ?_)
    h.registry.scanner ⟨fun _ ↦ rfl, fun _ ↦ hmu⟩ fun r _ ↦ h.registry.thread r
  · exact ⟨fun hm ↦ absurd hm hnot, fun hm ↦ by cases hm.1⟩
  · exact absurd (halone r (by rw [Thread.holds, hr])) hne

theorem Inv.linkHead (h : s.Inv vs pend l) (hpc : (s.threads t).pc = .linkHead e) :
    Inv { s.setPc t (.unlock e) with registryHead := some t } vs pend (t :: l) := by
  have hinv : (s.threads t).hasRing = true := by
    have hinv := (h.lane t).pc
    rwa [Thread.Inv, show (s.lane t).thread.pc = .linkHead e from hpc] at hinv
  have hreg : (s.threads t).registered = false := by rw [Thread.registered, hpc]
  have hholds : (s.threads t).holds = true := by rw [Thread.holds, hpc]
  have hnot := h.notMem_of_registered hreg
  have hfreed : s.freed t = false := by
    rw [← Bool.not_eq_true]
    intro hf
    have hex := ((h.lane t).freed hf).1
    rw [show (s.lane t).thread.pc = .linkHead e from hpc] at hex
    cases hex
  obtain ⟨hmu, hscan, halone⟩ := h.registry.alone hholds
  refine h.move (fun r ↦ rfl) rfl (by rw [hpc]; exact nofun) (fun _ ↦ hreg) hinv ?_ (Or.inr hscan)
  refine h.registry.move rfl rfl ?_ (List.nodup_cons.mpr ⟨hnot, h.registry.nodup⟩) ?_
    (fun r hr ↦ ?_) nofun (fun r e' hne hr ↦ ?_) h.registry.scanner
    ⟨fun _ ↦ rfl, fun _ ↦ hmu⟩ fun r _ ↦ h.registry.thread r
  · refine ⟨rfl, ?_⟩
    show Linked s.nextInRegistry (s.nextInRegistry t) l none
    rw [h.registry.linkHead t e hpc]
    exact h.registry.linked
  · exact ⟨fun _ ↦ ⟨hinv, hfreed⟩, fun _ ↦ List.mem_cons_self⟩
  · rw [List.mem_cons]
    exact or_iff_right hr
  · exact absurd (halone r (by rw [Thread.holds, hr])) hne

theorem Inv.unlock (h : s.Inv vs pend l) (hpc : (s.threads t).pc = .unlock e) :
    Inv { s.setPc t (.produce e .idle) with registryMu := none } vs pend l := by
  have hinv : (s.threads t).hasRing = true := by
    have hinv := (h.lane t).pc
    rwa [Thread.Inv, show (s.lane t).thread.pc = .unlock e from hpc] at hinv
  have hreg : (s.threads t).registered = true := by rw [Thread.registered, hpc]; exact hinv
  have hholds : (s.threads t).holds = true := by rw [Thread.holds, hpc]
  obtain ⟨hmu, hscan, halone⟩ := h.registry.alone hholds
  refine h.move (fun r ↦ rfl) rfl (by rw [hpc]; exact nofun) ?_ ⟨hinv, trivial⟩ ?_ (Or.inl rfl)
  · intro hr
    have hr' : (s.threads t).hasRing = false := hr
    rw [hinv] at hr'
    cases hr'
  refine h.registry.move rfl rfl h.registry.linked h.registry.nodup ?_ (fun _ _ ↦ Iff.rfl)
    nofun (fun r e' _ hr ↦ h.registry.linkHead r e' hr) ?_ ⟨nofun, nofun⟩ fun r hr ↦ ?_
  · rw [h.registry.mem, hreg]
    exact ⟨fun hm ↦ ⟨hinv, hm.2⟩, fun hm ↦ ⟨rfl, hm.2⟩⟩
  · exact ⟨nofun, fun he ↦ by rw [show s.scanning = true from he] at hscan; cases hscan⟩
  · exact ⟨nofun, fun he ↦ absurd (halone r he) hr⟩

end Register

end Pipeline

/-! ## `log_event` -/

/-- The producer appends to its ring, and to the events committed. -/
theorem Lane.Inv.produce {x : Lane} {v v' : Virtual} {pend ps : List LogEvent} {new : List Seg}
    {ring : ThreadRing} (pc : ThreadPc) (h : x.Inv v pend) (hne : x.thread.pc ≠ .exited)
    (hring : ring.Inv v') (hprod : Produced v v' new) (hev : events new = ps.map LogEvent.encode)
    (hreg : Thread.registered { x.thread with pc := pc } = true)
    (hpc : Thread.Inv { x.thread with pc := pc } ring v' x.dead) :
    Lane.Inv { x with
      ring := ring
      thread := { x.thread with pc := pc }
      committed := x.committed ++ ps } v' (pend ++ ps) where
  ring _ := hring
  segs := by rw [hprod.segs, events_append, h.segs, hev, List.map_append]
  flow := by
    rw [List.map_append, List.map_append, ← List.append_assoc]
    exact congrArg (· ++ _) h.flow
  sees := h.sees.produced hprod
  cut := h.cut.trans (List.prefix_append _ _)
  fresh hr := by
    rw [hreg] at hr
    cases hr
  pc := hpc
  dead hd := absurd (h.dead hd) hne
  freed hf := absurd (h.freed hf).1 hne

namespace Pipeline

variable {s s' : Pipeline} {vs : RingId → Virtual} {pend : RingId → List LogEvent}
  {l : List RingId} {t : RingId} {e : LogEvent} {i : Nat}

theorem Inv.alloc {ringBytes : UInt64} (h : s.Inv vs pend l)
    (hcap : ∃ k, ringBytes.toNat = 2 ^ k) (buf : Nat → UInt8)
    (hpc : (s.threads t).pc = .alloc e) :
    Inv { s with
      rings := Function.update s.rings t { capacity := ringBytes, buf := buf }
      threads := Function.update s.threads t { pc := .lock e, hasRing := true } } vs pend l := by
  have hreg : (s.threads t).registered = false := by rw [Thread.registered, hpc]
  have hne : (s.threads t).pc ≠ .exited := by rw [hpc]; exact nofun
  obtain ⟨hv, hc⟩ := (h.lane t).fresh hreg
  have hl : Lane.Inv { s.lane t with
      ring := { capacity := ringBytes, buf := buf }
      thread := { pc := .lock e, hasRing := true } } (vs t) (pend t) :=
    { h.lane t with
      ring := fun _ ↦ by rw [hv]; exact .new hcap buf
      fresh := fun _ ↦ ⟨hv, hc⟩
      pc := rfl
      dead := fun hd ↦ absurd ((h.lane t).dead hd) hne
      freed := fun hf ↦ absurd ((h.lane t).freed hf).1 hne }
  refine h.relane (t := t) (fun r hr ↦ ?_) rfl (fun hd ↦ hd) hne ?_ ?_ (Or.inl rfl)
  · simp only [Pipeline.lane, Function.update_of_ne hr]
    rfl
  · simp only [Pipeline.lane, Function.update_self]
    exact hl
  · refine h.registry.same (t := t) rfl rfl rfl rfl rfl
      (fun r hr ↦ Function.update_of_ne hr _ _) ?_ ?_ fun e' ↦ ?_
    all_goals simp only [Function.update_self]
    · exact hreg.symm
    · rw [Thread.holds, Thread.holds, hpc]
    · exact nofun

/-- A step of the producer that commits the events `ps`. -/
theorem Inv.publish {p : Producer} {ring : ThreadRing} {v' : Virtual} {new : List Seg}
    (pc : ThreadPc) (ps : List LogEvent) (h : s.Inv vs pend l) (hpc : (s.threads t).pc = .produce e p)
    (hring : (s.threads t).hasRing = true) (hi : ring.Inv v') (hprod : Produced (vs t) v' new)
    (hev : events new = ps.map LogEvent.encode)
    (hreg : Thread.registered { s.threads t with pc := pc } = (s.threads t).hasRing)
    (hholds : Thread.holds { s.threads t with pc := pc } = false) (hlink : ∀ e, pc ≠ .linkHead e)
    (hinv : Thread.Inv { s.threads t with pc := pc } ring v' (s.producerDead t)) :
    Inv { (s.setRing t ring).setPc t pc with
        committed := Function.update s.committed t (s.committed t ++ ps) }
      (Function.update vs t v') (Function.update pend t (pend t ++ ps)) l := by
  have hne : (s.threads t).pc ≠ .exited := by rw [hpc]; exact nofun
  have hl := (h.lane t).produce pc hne hi hprod hev (hreg.trans hring) hinv
  refine h.aside (t := t) v' ⟨fun r hr ↦ ?_, fun hd ↦ hd, ⟨new, hprod⟩, hne⟩ rfl ?_ ?_
    (Or.inl rfl)
  · simp only [Pipeline.lane, setPc, setRing, Function.update_of_ne hr]
    rfl
  · simp only [Pipeline.lane, setPc, setRing, Function.update_self]
    exact hl
  · refine h.registry.same (t := t) rfl rfl rfl rfl rfl
      (fun r hr ↦ Function.update_of_ne hr _ _) ?_ ?_ fun e' ↦ ?_
    all_goals simp only [setPc, setRing, Function.update_self]
    · rw [hreg, Thread.registered, hpc]
    · rw [hholds, Thread.holds, hpc]
    · exact hlink e'

theorem Inv.produce {p p' : Producer} {ring : ThreadRing} (h : s.Inv vs pend l)
    (hpc : (s.threads t).pc = .produce e p)
    (hs : p.step (s.rings t) e.encode i = some (ring, p')) :
    ∃ vs' pend', Inv (if p.commits then
        { (s.setRing t ring).setPc t .idle with
          committed := Function.update s.committed t (s.committed t ++ [e]) }
      else (s.setRing t ring).setPc t (.produce e p')) vs' pend' l := by
  have hinv := (h.lane t).pc
  rw [Thread.Inv, show (s.lane t).thread.pc = .produce e p from hpc] at hinv
  obtain ⟨hring, hp⟩ := hinv
  obtain ⟨v', new, hi, hp', hprod, hev⟩ :=
    Producer.step_inv ((h.lane t).ring hring) hp e.length_encode_lt hs
  split
  · rename_i hc
    rw [if_pos hc] at hev
    exact ⟨_, _, h.publish .idle [e] hpc hring hi hprod hev rfl rfl nofun trivial⟩
  · rename_i hc
    rw [if_neg hc] at hev
    have hpub := h.publish (.produce e p') [] hpc hring hi hprod hev rfl rfl nofun
      ⟨hring, hp'⟩
    rw [List.append_nil, List.append_nil, Function.update_eq_self] at hpub
    exact ⟨_, _, hpub⟩

/-- A thread exits: its ring, if it has one, is marked dead. -/
theorem Inv.exit (h : s.Inv vs pend l) (hpc : (s.threads t).pc = .idle) :
    Inv { s.setPc t .exited with
      producerDead := Function.update s.producerDead t (s.threads t).hasRing } vs pend l := by
  have hne : (s.threads t).pc ≠ .exited := by rw [hpc]; exact nofun
  have hl : Lane.Inv { s.lane t with
      thread := { s.threads t with pc := .exited }
      dead := (s.threads t).hasRing } (vs t) (pend t) :=
    { h.lane t with
      fresh := fun hr ↦ (h.lane t).fresh (by
        show (s.threads t).registered = false
        rw [Thread.registered, hpc]
        exact hr)
      pc := rfl
      dead := fun _ ↦ rfl
      freed := fun hf ↦ absurd ((h.lane t).freed hf).1 hne }
  refine h.relane (t := t) (fun r hr ↦ ?_) rfl (fun hd ↦ hd) hne ?_ ?_ (Or.inl rfl)
  · simp only [Pipeline.lane, setPc, Function.update_of_ne hr]
    rfl
  · simp only [Pipeline.lane, setPc, Function.update_self]
    exact hl
  · refine h.registry.same (t := t) rfl rfl rfl rfl rfl
      (fun r hr ↦ Function.update_of_ne hr _ _) ?_ ?_ fun e' ↦ ?_
    all_goals simp only [setPc, Function.update_self]
    · rw [Thread.registered, Thread.registered, hpc]
    · rw [Thread.holds, Thread.holds, hpc]
    · exact nofun

/-- A thread that calls `log_event`. -/
theorem Inv.call (h : s.Inv vs pend l) (hpc : (s.threads t).pc = .idle) (e : LogEvent) :
    Inv (s.setPc t (if (s.threads t).hasRing then .produce e .idle else .alloc e)) vs pend l := by
  have hne : (s.threads t).pc ≠ .exited := by rw [hpc]; exact nofun
  have hreg : (s.threads t).registered = (s.threads t).hasRing := by rw [Thread.registered, hpc]
  have hholds : (s.threads t).holds = false := by rw [Thread.holds, hpc]
  split
  · rename_i hring
    exact h.quiet hne hreg.symm hholds.symm nofun ⟨hring, trivial⟩
  · rename_i hring
    rw [Bool.not_eq_true] at hring
    exact h.quiet hne (by rw [hreg, hring]; rfl) hholds.symm nofun hring

/-- The allocation of a ring fails. -/
theorem Inv.noMemory (h : s.Inv vs pend l) (hpc : (s.threads t).pc = .alloc e) :
    Inv (s.setPc t .idle) vs pend l := by
  have hring : (s.threads t).hasRing = false := by
    have hinv := (h.lane t).pc
    rwa [Thread.Inv, show (s.lane t).thread.pc = .alloc e from hpc] at hinv
  refine h.quiet (by rw [hpc]; exact nofun) ?_ ?_ nofun trivial
  · rw [Thread.registered, Thread.registered, hpc]
    exact hring
  · rw [Thread.holds, Thread.holds, hpc]

/-- Every step of a thread preserves the invariant. -/
theorem Inv.threadStep {ringBytes : UInt64} {memory : RingId → Nat → UInt8}
    (h : s.Inv vs pend l) (hcap : ∃ k, ringBytes.toNat = 2 ^ k)
    (hs : s.threadStep ringBytes memory t i = some s') : ∃ vs' pend' l', s'.Inv vs' pend' l' := by
  unfold Pipeline.threadStep at hs
  split at hs
  case h_1 | h_2 => cases hs
  case h_3 e hpc =>
    cases hs
    exact ⟨vs, pend, l, h.alloc hcap (memory t) hpc⟩
  case h_4 e hpc =>
    split at hs
    · rename_i hmu
      cases hs
      exact ⟨vs, pend, l, h.lock hpc hmu⟩
    · cases hs
  case h_5 e hpc =>
    cases hs
    exact ⟨vs, pend, l, h.linkNext hpc⟩
  case h_6 e hpc =>
    cases hs
    exact ⟨vs, pend, t :: l, h.linkHead hpc⟩
  case h_7 e hpc =>
    cases hs
    exact ⟨vs, pend, l, h.unlock hpc⟩
  case h_8 e p hpc =>
    obtain ⟨⟨ring, p'⟩, hp, rfl⟩ := Option.map_eq_some_iff.mp hs
    obtain ⟨vs', pend', hi⟩ := h.produce hpc hp
    exact ⟨vs', pend', l, hi⟩

end Pipeline

end DeadLockDetect.Runtime
