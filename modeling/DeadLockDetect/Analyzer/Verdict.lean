import DeadLockDetect.Analyzer.HoldCount
import DeadLockDetect.Analyzer.Report
import DeadLockDetect.Lib.Components

/-!
# What the verdict depends on

In strict mode something is reported exactly when the lock-order graph has a directed cycle and the
budget is positive (`report_strict_pos_iff`); if no lock is taken for reading, the default mode is
no different (`report_pos_iff_of_exclusive`).

In a trace in which no lock is initialised or destroyed (`Steady`) every thread builds its stack and
records its edges without regard to the others, and the edges of the trace are those of its threads
(`mem_edges_ofOwner_iff`).  So it does not matter for the verdict in which order the backend has come
to the rings (`report_of_threads`).
-/

namespace DeadLockDetect.Analyzer

open DeadLockDetect.Digraph Components Relation

/-! ## Cycles -/

/-- No cycle is returned without a budget. -/
theorem one_le_of_mem_findCycles {g : Graph} {maxPerScc : Int} {cy : Cycle}
    (h : cy ∈ findCycles g maxPerScc) : 1 ≤ maxPerScc := by
  obtain ⟨a, ha, -⟩ := mem_findCycles_iff.mp h
  obtain ⟨scc, -, -, htake⟩ := mem_rawCycles_iff.mp ha
  by_contra hneg
  rw [Int.toNat_of_nonpos (by omega), List.take_zero] at htake
  exact absurd htake List.not_mem_nil

/-- The lock-order graph has no loops. -/
theorem not_edge_self (events : List Event) (v : LockId) : ¬ (replay events {}).Edge v v :=
  fun h ↦ (Graph.inv_empty.replay events).loopless ⟨v, v⟩ h rfl

/-- A reported cycle is a directed cycle of the lock-order graph, found within a budget. -/
theorem exists_transGen_of_report_pos {events : List Event} {rwlockStrict : Bool}
    {maxPerScc : Int} (h : 0 < (report (replay events {}) rwlockStrict maxPerScc).2) :
    1 ≤ maxPerScc ∧ ∃ v, TransGen (replay events {}).Edge v v := by
  obtain ⟨cy, hcy⟩ := report_pos_iff.mp h
  have hmem : cy ∈ findCycles (replay events {}) maxPerScc := by
    cases rwlockStrict with
    | true => exact hcy
    | false => exact (mem_reportedCycles_iff.mp hcy).1
  have hmax : 1 ≤ maxPerScc := one_le_of_mem_findCycles hmem
  refine ⟨hmax, (exists_transGen_iff (not_edge_self events)).mpr ?_⟩
  exact (findCycles_ne_nil_iff hmax).mp (List.ne_nil_of_mem hmem)

theorem report_strict_pos_iff {events : List Event} {maxPerScc : Int} :
    0 < (report (replay events {}) true maxPerScc).2 ↔
      1 ≤ maxPerScc ∧ ∃ v, TransGen (replay events {}).Edge v v := by
  constructor
  · exact exists_transGen_of_report_pos
  · rintro ⟨hmax, hcycle⟩
    have hne : findCycles (replay events {}) maxPerScc ≠ [] :=
      (findCycles_ne_nil_iff hmax).mpr ((exists_transGen_iff (not_edge_self events)).mp hcycle)
    exact report_pos_iff.mpr (List.exists_mem_of_ne_nil _ hne)

/-- The event begins and ends no lifetime of a lock. -/
def Event.Steady (e : Event) : Prop := e.op ≠ .init ∧ e.op ≠ .destroy

namespace Graph

/-- All locks have their first lifetime. -/
structure Steady (g : Graph) : Prop where
  inv : g.Inv
  lockAt : ∀ addr, g.lockAt addr = ⟨addr, 1⟩

theorem steady_empty : Steady {} := ⟨inv_empty, fun _ ↦ rfl⟩

theorem Steady.replayStep {g : Graph} (h : g.Steady) {e : Event} (he : e.Steady) :
    (replayStep g e).Steady := by
  refine ⟨h.inv.replay [e], fun addr ↦ ?_⟩
  rw [replayStep_eq_act, lockAt_act g fun hinit ↦ he.1 (Event.op_of_initsAt hinit), h.lockAt]

theorem Steady.eq_of_mem_lockMeta {g : Graph} (h : g.Steady) {x : LockId} (hx : x ∈ g.lockMeta) :
    x = ⟨x.addr, 1⟩ := by
  obtain ⟨gen, hget, hone, hle⟩ := h.inv.metaKnown x hx
  have hgen : gen = 1 := congrArg LockId.gen ((lockAt_of_get? hget).symm.trans (h.lockAt x.addr))
  obtain ⟨addr, gen'⟩ := x
  have hgen' : gen' = 1 := le_antisymm (hgen ▸ hle) hone
  rw [hgen']

end Graph

/-- What an event makes of the stack of its thread, if all locks have their first lifetime. -/
def Event.onStack (stk : List LockNode) (e : Event) : List LockNode :=
  e.action.onStack (fun addr ↦ ⟨addr, 1⟩) e.tid e.bt stk

section

variable {es : List Event}

theorem steady_replay (h : ∀ e ∈ es, e.Steady) : (replay es {}).Steady := by
  induction es using List.reverseRecOn with
  | nil => exact Graph.steady_empty
  | append_singleton es e ih =>
      rw [replay_concat]
      exact (ih fun x hx ↦ h x (List.mem_append_left _ hx)).replayStep (h e List.mem_concat_self)

/-- The stack of a thread is what its own events have made of it. -/
theorem stack_replay_eq_foldl (h : ∀ e ∈ es, e.Steady) (t : Int) :
    (replay es {}).stack t = (ofOwner Event.tid es t).foldl Event.onStack [] := by
  refine view_foldl Graph.stack (I := Graph.Steady)
    (fun g e he hg ↦ hg.replayStep (h e he)) (fun g e _ hg i ↦ ?_) Graph.steady_empty t
  have hlock : g.lockAt = fun addr ↦ ⟨addr, 1⟩ := funext hg.lockAt
  rw [stack_replayStep hg.inv, hlock]
  split
  · rename_i hi
    rw [hi]
    rfl
  · rfl

theorem steady_ofOwner (h : ∀ e ∈ es, e.Steady) (t : Int) :
    ∀ e ∈ ofOwner Event.tid es t, e.Steady := fun e he ↦ h e (mem_ofOwner.mp he).1

theorem stack_replay_ofOwner (h : ∀ e ∈ es, e.Steady) (t : Int) :
    (replay (ofOwner Event.tid es t) {}).stack t = (replay es {}).stack t := by
  rw [stack_replay_eq_foldl h, stack_replay_eq_foldl (steady_ofOwner h t), ofOwner_ofOwner]

/-- If nothing is destroyed, the edges are those that some event records. -/
theorem mem_edges_iff_records (h : ∀ e ∈ es, e.op ≠ .destroy) (key : EdgeKey) :
    key ∈ (replay es {}).edges ↔
      ∃ p e q, es = p ++ e :: q ∧ ∃ info, e.Records (replay p {}) key info := by
  induction es using List.reverseRecOn with
  | nil =>
      refine iff_of_false (Dict.notMem_empty _) ?_
      rintro ⟨p, e, q, he, -⟩
      cases p <;> cases he
  | append_singleton es e ih =>
      rw [replay_concat, mem_edges_replayStep (inv_replay es) (h e List.mem_concat_self),
        ih fun x hx ↦ h x (List.mem_append_left _ hx)]
      constructor
      · rintro (⟨p, x, q, rfl, hrec⟩ | hrec)
        · exact ⟨p, x, q ++ [e], by simp, hrec⟩
        · exact ⟨es, e, [], rfl, hrec⟩
      · rintro ⟨p, x, q, he, hrec⟩
        rcases List.eq_nil_or_concat q with rfl | ⟨q, y, rfl⟩
        · obtain ⟨rfl, hx⟩ := List.append_inj' he rfl
          rw [List.singleton_inj.mp hx]
          exact Or.inr hrec
        · rw [List.concat_eq_append, ← List.cons_append, ← List.append_assoc] at he
          obtain ⟨rfl, -⟩ := List.append_inj' he rfl
          exact Or.inl ⟨p, x, q, rfl, hrec⟩

/-- What an event records depends on what its own thread has done before. -/
theorem exists_records_ofOwner_iff (h : ∀ e ∈ es, e.Steady) (e : Event) (key : EdgeKey) :
    (∃ info, e.Records (replay (ofOwner Event.tid es e.tid) {}) key info) ↔
      ∃ info, e.Records (replay es {}) key info := by
  have hlock : ∀ addr, e.action.RequestsAt addr → (replay (ofOwner Event.tid es e.tid) {}).lockAt
      addr = (replay es {}).lockAt addr := by
    intro addr _
    rw [(steady_replay h).lockAt, (steady_replay (steady_ofOwner h e.tid)).lockAt]
  have hcongr := recorded_congr (inv_replay es) (inv_replay _) hlock
    (stack_replay_ofOwner h e.tid) key
  refine exists_congr fun info ↦ ?_
  rw [← Event.recorded_eq_some_iff (inv_replay _), ← Event.recorded_eq_some_iff (inv_replay es),
    hcongr]

/-- The edges of a trace are the edges of its threads. -/
theorem mem_edges_ofOwner_iff (h : ∀ e ∈ es, e.Steady) (key : EdgeKey) :
    key ∈ (replay es {}).edges ↔ ∃ t, key ∈ (replay (ofOwner Event.tid es t) {}).edges := by
  have hthread := fun t ↦ mem_edges_iff_records (fun e he ↦ (steady_ofOwner h t e he).2) key
  simp only [hthread]
  rw [mem_edges_iff_records fun e he ↦ (h e he).2]
  constructor
  · rintro ⟨p, e, q, rfl, hrec⟩
    refine ⟨e.tid, _, e, _, ofOwner_eq_append_cons_iff.mpr ⟨p, q, rfl, rfl, rfl, rfl⟩, ?_⟩
    exact (exists_records_ofOwner_iff (fun x hx ↦ h x (List.mem_append_left _ hx)) e key).mpr hrec
  · rintro ⟨t, p, e, q, hsplit, hrec⟩
    obtain ⟨l, m, rfl, rfl, rfl, -⟩ := ofOwner_eq_append_cons_iff.mp hsplit
    refine ⟨l, e, m, rfl, ?_⟩
    exact (exists_records_ofOwner_iff (fun x hx ↦ h x (List.mem_append_left _ hx)) e key).mp hrec

/-- A trace in which every thread has the same events has the same events and the same edges. -/
theorem edges_congr_of_ofOwner {es' : List Event} (h : ∀ e ∈ es, e.Steady)
    (hthreads : ∀ t, ofOwner Event.tid es t = ofOwner Event.tid es' t) :
    (∀ e, e ∈ es ↔ e ∈ es') ∧
      ∀ key, key ∈ (replay es {}).edges ↔ key ∈ (replay es' {}).edges := by
  have hmem : ∀ e, e ∈ es ↔ e ∈ es' := by
    intro e
    have hown : ∀ l : List Event, e ∈ l ↔ e ∈ ofOwner Event.tid l e.tid := fun l ↦
      ⟨fun he ↦ mem_ofOwner.mpr ⟨he, rfl⟩, fun he ↦ (mem_ofOwner.mp he).1⟩
    rw [hown es, hown es', hthreads]
  refine ⟨hmem, fun key ↦ ?_⟩
  rw [mem_edges_ofOwner_iff h, mem_edges_ofOwner_iff fun e he ↦ h e ((hmem e).mpr he)]
  exact exists_congr fun t ↦ by rw [hthreads]

end

/-- **The order of the rings does not matter.**  If no lock is initialised or destroyed, two traces in
which every thread has the same events in the same order have the same edges and, in strict mode,
the same verdict. -/
theorem report_of_threads (es es' : List Event) (h : ∀ e ∈ es, e.Steady)
    (hthreads : ∀ t, es.filter (fun e ↦ e.tid = t) = es'.filter fun e ↦ e.tid = t) :
    (∀ key, key ∈ (replay es {}).edges ↔ key ∈ (replay es' {}).edges) ∧
      ∀ maxPerScc, 0 < (report (replay es {}) true maxPerScc).2 ↔
        0 < (report (replay es' {}) true maxPerScc).2 := by
  obtain ⟨-, hedges⟩ := edges_congr_of_ofOwner h hthreads
  refine ⟨hedges, fun maxPerScc ↦ ?_⟩
  have hedge : (replay es {}).Edge = (replay es' {}).Edge := by
    ext v w
    exact hedges ⟨v, w⟩
  rw [report_strict_pos_iff, report_strict_pos_iff, hedge]

/-- The events of `inversion`, those of the second thread among those of the first. -/
def inversionInTurns : List Event :=
  [{ tid := 1, op := .lockPost, addr := 1 }, { tid := 2, op := .lockPost, addr := 2 },
    { tid := 1, op := .lockPost, addr := 2 }, { tid := 2, op := .lockPost, addr := 1 },
    { tid := 1, op := .unlock, addr := 2 }, { tid := 1, op := .unlock, addr := 1 }]

theorem report_of_threads_inversion :
    (∀ key, key ∈ (replay inversion {}).edges ↔ key ∈ (replay inversionInTurns {}).edges) ∧
      ∀ maxPerScc, 0 < (report (replay inversion {}) true maxPerScc).2 ↔
        0 < (report (replay inversionInTurns {}) true maxPerScc).2 := by
  refine report_of_threads inversion inversionInTurns ?_ fun t ↦ ?_
  · unfold Event.Steady
    decide
  · by_cases h1 : (1 : Int) = t
    · subst h1
      decide
    · by_cases h2 : (2 : Int) = t
      · subst h2
        decide
      · simp [inversion, inversionInTurns, h1, h2]

end DeadLockDetect.Analyzer
