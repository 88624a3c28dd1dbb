import DeadLockDetect.Analyzer.Report
import DeadLockDetect.Analyzer.SearchOrder

/-!
# Which cycles of a trace are reported

How the report depends on the events: what a longer trace does to a cycle that is already there,
and what the modes of repeated acquisitions do to the filter of the default mode.

The edges of a cycle are read off the trace by `History.lean`; this file puts the search of
`CyclesCorrect.lean` and the filter of `Report.lean` on top of it.
-/

namespace DeadLockDetect.Analyzer

open DeadLockDetect.Digraph

/-! ## Cycles and longer traces -/

/-- An edge survives what follows if none of its ends is destroyed. -/
theorem get?_edges_replay_append {p q : List Event} {key : EdgeKey} {info : EdgeInfo}
    (h : (replay p {}).edges.get? key = some info)
    (hq : ∀ j, p.length ≤ j →
      ¬ DestroyedAt (p ++ q) j key.frm ∧ ¬ DestroyedAt (p ++ q) j key.to) :
    (replay (p ++ q) {}).edges.get? key = some info := by
  have hstep : ∀ n, (before (p ++ q) (p.length + n)).edges.get? key = some info := by
    intro n
    induction n with
    | zero =>
        rw [Nat.add_zero, before, List.take_left]
        exact h
    | succ n ih =>
        cases he : (p ++ q)[p.length + n]? with
        | none => rw [← Nat.add_assoc, before_succ_of_none he, ih]
        | some e =>
            obtain ⟨hfrm, hto⟩ := hq (p.length + n) (Nat.le_add_right _ _)
            rw [← Nat.add_assoc, before_succ he, get?_edges_replayStep, if_neg, ih, Option.some_or]
            rintro (hd | hd)
            · exact hfrm ⟨e, he, hd⟩
            · exact hto ⟨e, he, hd⟩
  have := hstep q.length
  rwa [← List.length_append, before_length] at this

/-- Linked edges run along their vertices. -/
theorem isChain_of_linked {a : LockId} {es : List CycleEdge}
    (h : es.map CycleEdge.to = (es.map CycleEdge.frm ++ [a]).tail) :
    List.IsChain (fun v w ↦ ∃ e ∈ es, e.frm = v ∧ e.to = w) (es.map CycleEdge.frm ++ [a]) := by
  induction es with
  | nil => exact List.isChain_singleton a
  | cons e es ih =>
      obtain ⟨⟨bs, hbs⟩, htail⟩ := linked_of_cons h
      rw [List.map_cons, List.cons_append, hbs]
      refine .cons_cons ⟨e, List.mem_cons_self, rfl, rfl⟩ ?_
      rw [← hbs]
      refine (ih htail).imp ?_
      rintro v w ⟨e', he', hv⟩
      exact ⟨e', List.mem_cons_of_mem e he', hv⟩

/-- A cycle is one of every graph that has its edges, with their information. -/
theorem Graph.HasCycle.transfer {g g' : Graph} {cy : Cycle} (h : g.HasCycle cy)
    (hinfo : ∀ e ∈ cy.edges, g'.edges.get? ⟨e.frm, e.to⟩ = g.edges.get? ⟨e.frm, e.to⟩) :
    g'.HasCycle cy := by
  have hinfo' : ∀ e ∈ cy.edges, ∃ i, e.info = some i ∧
      g'.edges.get? ⟨e.frm, e.to⟩ = some i := by
    intro e he
    obtain ⟨i, hi, hg⟩ := h.info e he
    exact ⟨i, hi, (hinfo e he).trans hg⟩
  refine ⟨⟨h.simple.two_le, h.simple.nodup, ?_⟩, h.linked, hinfo'⟩
  have hlinked := h.linked
  obtain ⟨e, es, hes⟩ := List.exists_cons_of_ne_nil h.ne_nil
  rw [hes] at hlinked hinfo'
  rw [List.map_cons (f := CycleEdge.frm), List.rotate_cons_succ, List.rotate_zero] at hlinked
  rw [hes, List.map_cons]
  refine (Cycle.chain_coe_cons _ _ _).mpr ?_
  have hchain : List.IsChain (fun v w ↦ ∃ e' ∈ e :: es, e'.frm = v ∧ e'.to = w)
      (e.frm :: (es.map CycleEdge.frm ++ [e.frm])) := isChain_of_linked hlinked
  refine hchain.imp ?_
  rintro v w ⟨e', he', rfl, rfl⟩
  obtain ⟨i, -, hi⟩ := hinfo' e' he'
  exact Dict.mem_of_get? hi

/-- The cycle of the inversion. -/
def inversionCycle : Cycle :=
  ⟨[⟨⟨1, 1⟩, ⟨2, 1⟩, some { tid := 1 }⟩, ⟨⟨2, 1⟩, ⟨1, 1⟩, some { tid := 2 }⟩]⟩

/-- Destroying a lock drops its edges: a longer trace can lose a reported cycle.  Here one of the
two locks of an inversion is destroyed after both threads are done. -/
theorem not_report_monotone : ¬ ∀ (t p : List Event), p <+: t → ∀ maxPerScc : Int, 1 ≤ maxPerScc →
    0 < (report (replay p {}) true maxPerScc).2 → 0 < (report (replay t {}) true maxPerScc).2 := by
  intro h
  have hlost := h (inversion ++ [{ tid := 2, op := .unlock, addr := 1 },
    { tid := 2, op := .unlock, addr := 2 }, { tid := 2, op := .destroy, addr := 1 }]) inversion
    (List.prefix_append _ _) 1 (by decide)
  simp only [report_snd] at hlost
  exact absurd hlost (by decide)

/-- What is reported in strict mode is a cycle. -/
theorem hasCycle_of_mem_reportedCycles {g : Graph} {maxPerScc : Int} {cy : Cycle}
    (h : cy ∈ reportedCycles g true maxPerScc) : g.HasCycle cy := (findCycles_sound h).1

/-- **A cycle stays**, be it one that was reported or another one: whatever follows, new lifetimes at
the same addresses included, it is still a cycle of the graph, with the same information, and
something is reported, as long as none of its locks is destroyed. -/
theorem report_of_prefix (p q : List Event) (maxPerScc : Int) (hmax : 1 ≤ maxPerScc) (cy : Cycle)
    (h : (replay p {}).HasCycle cy)
    (hq : ∀ e ∈ cy.edges, ∀ j, p.length ≤ j → ¬ DestroyedAt (p ++ q) j e.frm) :
    (replay (p ++ q) {}).HasCycle cy ∧ 0 < (report (replay (p ++ q) {}) true maxPerScc).2 := by
  -- the end of an edge is the beginning of another one
  have hto : ∀ e ∈ cy.edges, ∃ e' ∈ cy.edges, e'.frm = e.to := by
    intro e he
    have hmem : e.to ∈ cy.edges.map CycleEdge.to := List.mem_map_of_mem he
    rw [h.linked, List.mem_rotate] at hmem
    exact List.mem_map.mp hmem
  have hcycle : (replay (p ++ q) {}).HasCycle cy := by
    refine h.transfer fun e he ↦ ?_
    obtain ⟨i, -, hi⟩ := h.info e he
    obtain ⟨e', he', hto'⟩ := hto e he
    rw [hi]
    refine get?_edges_replay_append hi fun j hj ↦ ⟨hq e he j hj, ?_⟩
    rw [← hto']
    exact hq e' he' j hj
  refine ⟨hcycle, report_pos_iff.mpr ?_⟩
  exact List.exists_mem_of_ne_nil _ ((findCycles_ne_nil_iff hmax).mpr ⟨_, hcycle.simple⟩)

theorem report_of_prefix_reinit :
    (replay (inversion ++ [{ tid := 3, op := .init, addr := 1 }]) {}).HasCycle inversionCycle ∧
      0 < (report (replay (inversion ++ [{ tid := 3, op := .init, addr := 1 }]) {}) true 1).2 :=
  have hcy : inversionCycle ∈ reportedCycles (replay inversion {}) true 1 := by decide
  report_of_prefix inversion [{ tid := 3, op := .init, addr := 1 }] 1 (by decide) inversionCycle
    (hasCycle_of_mem_reportedCycles hcy) fun _ _ _ _ h ↦ not_destroyedAt (by decide) h

/-! ## The budget and the filter -/

/-- The canonical form of a cycle has the same edges. -/
theorem mem_canon_edges {cy : Cycle} {e : CycleEdge} : e ∈ (canon cy).edges ↔ e ∈ cy.edges := by
  obtain ⟨n, hn⟩ := (canon_spec cy).1
  rw [hn]
  exact List.mem_rotate

theorem mixed_canon_iff {cy : Cycle} : (canon cy).Mixed ↔ cy.Mixed :=
  exists_congr fun _ ↦ and_congr_left' mem_canon_edges

/-- In default mode something is reported exactly when a component has a mixed cycle within
the budget. -/
theorem report_pos_iff_take {g : Graph} {maxPerScc : Int} :
    0 < (report g false maxPerScc).2 ↔ ∃ scc ∈ tarjanScc (adjacency g.edges),
      ∃ cy ∈ (cyclesIn g scc).take maxPerScc.toNat, cy.Mixed := by
  rw [report_pos_iff]
  constructor
  · rintro ⟨cy, hcy⟩
    obtain ⟨hfind, hmixed⟩ := mem_reportedCycles_iff.mp hcy
    obtain ⟨a, ha, rfl⟩ := mem_findCycles_iff.mp hfind
    obtain ⟨scc, hscc, -, htake⟩ := mem_rawCycles_iff.mp ha
    exact ⟨scc, hscc, a, htake, mixed_canon_iff.mp hmixed⟩
  · rintro ⟨scc, hscc, a, htake, hmixed⟩
    obtain ⟨hcycle, hsub⟩ := mem_cyclesIn_iff.mp (List.mem_of_mem_take htake)
    have hraw : a ∈ rawCycles g maxPerScc :=
      mem_rawCycles_iff.mpr ⟨scc, hscc, hcycle.two_le_of_subset hsub, htake⟩
    exact ⟨canon a, mem_reportedCycles_iff.mpr
      ⟨mem_findCycles_iff.mpr ⟨a, hraw, rfl⟩, mixed_canon_iff.mpr hmixed⟩⟩

/-- Two readers take the locks at `2` and `3` in opposite orders, two writers those at `1`
and `2`. -/
def crowded : List Event :=
  [{ tid := 1, op := .wrlockPost, addr := 1 }, { tid := 1, op := .wrlockPost, addr := 2 },
    { tid := 1, op := .unlock, addr := 2 }, { tid := 1, op := .unlock, addr := 1 },
    { tid := 2, op := .wrlockPost, addr := 2 }, { tid := 2, op := .wrlockPost, addr := 1 },
    { tid := 2, op := .unlock, addr := 1 }, { tid := 2, op := .unlock, addr := 2 },
    { tid := 3, op := .rdlockPost, addr := 2 }, { tid := 3, op := .rdlockPost, addr := 3 },
    { tid := 3, op := .unlock, addr := 3 }, { tid := 3, op := .unlock, addr := 2 },
    { tid := 4, op := .rdlockPost, addr := 3 }, { tid := 4, op := .rdlockPost, addr := 2 }]

/-- A cycle of readers can use up the budget that a cycle of writers would need. -/
theorem not_report_pos_iff_mixed : ¬ ∀ (g : Graph) (maxPerScc : Int), 1 ≤ maxPerScc →
    (0 < (report g false maxPerScc).2 ↔ ∃ cy, g.HasCycle cy ∧ cy.Mixed) := by
  intro h
  obtain ⟨cy, hcy⟩ : ∃ cy, cy ∈ reportedCycles (replay crowded {}) false 64 :=
    List.exists_mem_of_length_pos (by decide)
  obtain ⟨hfind, hmixed⟩ := mem_reportedCycles_iff.mp hcy
  have hpos := (h (replay crowded {}) 1 (by decide)).mpr ⟨cy, (findCycles_sound hfind).1, hmixed⟩
  rw [report_snd] at hpos
  exact absurd hpos (by decide)

/-- **When the default mode reports something if it should.**  A graph with a mixed cycle is
reported exactly when, in one of its components, fewer cycles than the budget come before a mixed
one in the order of the search. -/
theorem report_pos_iff_mixed_iff (g : Graph) (maxPerScc : Int) :
    (0 < (report g false maxPerScc).2 ↔ ∃ cy, g.HasCycle cy ∧ cy.Mixed) ↔
      (¬ ∃ cy, g.HasCycle cy ∧ cy.Mixed) ∨
        ∃ scc ∈ tarjanScc (adjacency g.edges), ∃ cy,
          (g.HasCycle cy ∧ ∀ e ∈ cy.edges, e.frm ∈ scc) ∧ cy.Mixed ∧
            {a | (g.HasCycle a ∧ ∀ e ∈ a.edges, e.frm ∈ scc) ∧
              a.searchKey g scc < cy.searchKey g scc}.ncard < maxPerScc.toNat := by
  have hpos : 0 < (report g false maxPerScc).2 ↔
      ∃ scc ∈ tarjanScc (adjacency g.edges), ∃ cy,
        (g.HasCycle cy ∧ ∀ e ∈ cy.edges, e.frm ∈ scc) ∧ cy.Mixed ∧
          {a | (g.HasCycle a ∧ ∀ e ∈ a.edges, e.frm ∈ scc) ∧
            a.searchKey g scc < cy.searchKey g scc}.ncard < maxPerScc.toNat := by
    rw [report_pos_iff_take]
    refine exists_congr fun scc ↦ and_congr_right fun hscc ↦ exists_congr fun cy ↦ ?_
    rw [mem_take_cyclesIn_iff (isScc_of_mem_tarjanScc hscc).nodup, and_right_comm, and_assoc]
  rw [← hpos]
  constructor
  · intro h
    by_cases hmixed : ∃ cy, g.HasCycle cy ∧ cy.Mixed
    · exact Or.inr (h.mpr hmixed)
    · exact Or.inl hmixed
  · rintro (hno | h)
    · refine ⟨fun hr ↦ ?_, fun hmixed ↦ absurd hmixed hno⟩
      obtain ⟨scc, -, cy, ⟨hcycle, -⟩, hmixed, -⟩ := hpos.mp hr
      exact ⟨cy, hcycle, hmixed⟩
    · refine iff_of_true h ?_
      obtain ⟨scc, -, cy, ⟨hcycle, -⟩, hmixed, -⟩ := hpos.mp h
      exact ⟨cy, hcycle, hmixed⟩

/-! ## The modes of repeated acquisitions -/

/-- Event `i` recorded the edge `key` for good, and not as read-while-reading. -/
def WrittenAt (es : List Event) (key : EdgeKey) (i : Nat) : Prop :=
  StandsAt es key i ∧ ∃ info, RecordedAt es i key info ∧ ¬ info.ReadRead

/-- An event records at most one thing with an edge. -/
theorem RecordedAt.unique {es : List Event} {i : Nat} {key : EdgeKey} {info info' : EdgeInfo}
    (h : RecordedAt es i key info) (h' : RecordedAt es i key info') : info = info' :=
  Option.some.inj ((recordedAt_eq_some_iff.mpr h).symm.trans (recordedAt_eq_some_iff.mpr h'))

/-- Whether a cycle is mixed depends on the first events that recorded its edges for good. -/
theorem mixed_iff_first {es : List Event} {cy : Cycle} (h : (replay es {}).HasCycle cy) :
    cy.Mixed ↔ ∃ e ∈ cy.edges, ∃ i,
      IsLeast {i | StandsAt es ⟨e.frm, e.to⟩ i} i ∧ WrittenAt es ⟨e.frm, e.to⟩ i := by
  refine exists_congr fun e ↦ and_congr_right fun he ↦ ?_
  obtain ⟨info, hinfo, hget⟩ := h.info e he
  obtain ⟨i, hleast, hrec⟩ := (get?_edges_replay_iff es ⟨e.frm, e.to⟩ info).mp hget
  constructor
  · rintro ⟨info', hinfo', hmixed⟩
    rw [hinfo] at hinfo'
    cases hinfo'
    exact ⟨i, hleast, hleast.1, info, hrec, hmixed⟩
  · rintro ⟨j, hleast', -, info', hrec', hmixed⟩
    rw [hleast'.unique hleast] at hrec'
    exact ⟨info, hinfo, hrec.unique hrec' ▸ hmixed⟩

/-- When no component is cut off, a cycle is reported exactly when it is mixed. -/
theorem canon_mem_reportedCycles_iff {g : Graph} {maxPerScc : Int}
    (hmax : ∀ scc ∈ tarjanScc (adjacency g.edges), ((cyclesIn g scc).length : Int) ≤ maxPerScc)
    {cy : Cycle} (hcy : g.HasCycle cy) :
    canon cy ∈ reportedCycles g false maxPerScc ↔ cy.Mixed := by
  obtain ⟨scc, hscc, h2, hsub⟩ := hcy.exists_scc
  have hraw : cy ∈ rawCycles g maxPerScc := by
    refine mem_rawCycles_iff.mpr ⟨scc, hscc, h2, ?_⟩
    have hlen := hmax scc hscc
    rw [List.take_of_length_le (by omega)]
    exact mem_cyclesIn_iff.mpr ⟨hcy, hsub⟩
  rw [mem_reportedCycles_iff, mixed_canon_iff]
  exact and_iff_right (mem_findCycles_iff.mpr ⟨cy, hraw, rfl⟩)

/-- Two readers take the locks at `1` and `2` in opposite orders; then a writer takes them in the
order of the first reader. -/
def hiddenWriter : List Event :=
  [{ tid := 1, op := .rdlockPost, addr := 1 }, { tid := 1, op := .rdlockPost, addr := 2 },
    { tid := 1, op := .unlock, addr := 2 }, { tid := 1, op := .unlock, addr := 1 },
    { tid := 2, op := .rdlockPost, addr := 2 }, { tid := 2, op := .rdlockPost, addr := 1 },
    { tid := 2, op := .unlock, addr := 1 }, { tid := 2, op := .unlock, addr := 2 },
    { tid := 3, op := .wrlockPost, addr := 1 }, { tid := 3, op := .wrlockPost, addr := 2 }]

/-- The cycle of the two readers. -/
def readersCycle : Cycle :=
  ⟨[⟨⟨1, 1⟩, ⟨2, 1⟩, some { tid := 1, fromKind := .rwlockRd, toKind := .rwlockRd }⟩,
    ⟨⟨2, 1⟩, ⟨1, 1⟩, some { tid := 2, fromKind := .rwlockRd, toKind := .rwlockRd }⟩]⟩

/-- The first occurrence of an edge hides the modes of the later ones: the writer does not make the
cycle a reported one. -/
theorem not_reported_of_written : ¬ ∀ (es : List Event) (maxPerScc : Int),
    (∀ scc ∈ tarjanScc (adjacency (replay es {}).edges),
      ((cyclesIn (replay es {}) scc).length : Int) ≤ maxPerScc) →
    ∀ cy, (replay es {}).HasCycle cy →
      (∃ e ∈ cy.edges, ∃ i, WrittenAt es ⟨e.frm, e.to⟩ i) →
      canon cy ∈ reportedCycles (replay es {}) false maxPerScc := by
  intro h
  have hcycle : (replay hiddenWriter {}).HasCycle readersCycle := by
    have hfind : readersCycle ∈ findCycles (replay hiddenWriter {}) 2 := by decide
    exact (findCycles_sound hfind).1
  have hrec : RecordedAt hiddenWriter 9 ⟨⟨1, 1⟩, ⟨2, 1⟩⟩
      { tid := 3, fromKind := .rwlockWr, toKind := .rwlockWr } :=
    recordedAt_eq_some_iff.mp (by decide)
  have hwritten : WrittenAt hiddenWriter ⟨⟨1, 1⟩, ⟨2, 1⟩⟩ 9 :=
    ⟨⟨⟨_, hrec⟩, fun _ _ ↦ ⟨not_destroyedAt (by decide), not_destroyedAt (by decide)⟩⟩,
      _, hrec, by decide⟩
  exact absurd (h hiddenWriter 2 (by decide) readersCycle hcycle
    ⟨_, List.mem_cons_self, 9, hwritten⟩) (by decide)

/-- **When the filter hides no writer.**  When no component is cut off, a cycle with an edge that
was recorded for good other than as read-while-reading is reported exactly when the first such
record of one of its edges is of this kind. -/
theorem reported_of_written_iff (es : List Event) (maxPerScc : Int)
    (hmax : ∀ scc ∈ tarjanScc (adjacency (replay es {}).edges),
      ((cyclesIn (replay es {}) scc).length : Int) ≤ maxPerScc)
    (cy : Cycle) (hcy : (replay es {}).HasCycle cy) :
    ((∃ e ∈ cy.edges, ∃ i, WrittenAt es ⟨e.frm, e.to⟩ i) →
        canon cy ∈ reportedCycles (replay es {}) false maxPerScc) ↔
      (¬ ∃ e ∈ cy.edges, ∃ i, WrittenAt es ⟨e.frm, e.to⟩ i) ∨
        ∃ e ∈ cy.edges, ∃ i,
          IsLeast {i | StandsAt es ⟨e.frm, e.to⟩ i} i ∧ WrittenAt es ⟨e.frm, e.to⟩ i := by
  rw [canon_mem_reportedCycles_iff hmax hcy, ← mixed_iff_first hcy]
  exact imp_iff_not_or

theorem reported_of_written_iff_inversion :
    ((∃ e ∈ inversionCycle.edges, ∃ i, WrittenAt inversion ⟨e.frm, e.to⟩ i) →
        canon inversionCycle ∈ reportedCycles (replay inversion {}) false 2) ↔
      (¬ ∃ e ∈ inversionCycle.edges, ∃ i, WrittenAt inversion ⟨e.frm, e.to⟩ i) ∨
        ∃ e ∈ inversionCycle.edges, ∃ i,
          IsLeast {i | StandsAt inversion ⟨e.frm, e.to⟩ i} i ∧
            WrittenAt inversion ⟨e.frm, e.to⟩ i := by
  have hfind : inversionCycle ∈ findCycles (replay inversion {}) 2 := by decide
  exact reported_of_written_iff inversion 2 (by decide) inversionCycle (findCycles_sound hfind).1

end DeadLockDetect.Analyzer
