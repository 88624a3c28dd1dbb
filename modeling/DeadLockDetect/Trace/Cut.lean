import DeadLockDetect.Analyzer.RenameCycles
import DeadLockDetect.Trace.RoundTrip

/-!
# Reading a trace that breaks off

A process that is killed leaves a trace file that ends anywhere, also in the middle of a line.  The
reader has no checksum to notice it by; what it makes of such a file is settled here.

A cut falls into the last line that is there.  Behind the header and the modules this is a line of
some event: of an `E` line that breaks off, either nothing is left or the event without its frames,
since the number of frames comes last; an `F` line that breaks off may still give one frame, with a
wrong program counter.  Everything in front of the cut is read as it was written
(`readTrace_take`), and the verdict is that of the events up to the cut (`report_take`).
-/

namespace DeadLockDetect.Runtime

open Analyzer Text Numeral

/-! ## Lines that break off -/

/-- What the loop over the lines can make of a line. -/
theorem parseLine_cases (l : List Char) : parseLine l = .other ∨
    (∃ m, (fields l).head? = some ['M'] ∧ parseModule (fields l) = some m ∧
      parseLine l = .module m) ∨
    ∃ e nf, (fields l).head? = some ['E'] ∧ parseEvent (fields l) = some (e, nf) ∧
      parseLine l = .event e nf := by
  unfold parseLine
  split
  · exact Or.inl rfl
  · dsimp only
    split
    · rename_i hM
      cases hm : parseModule (fields l) with
      | none => exact Or.inl rfl
      | some m => exact Or.inr (Or.inl ⟨m, hM, rfl, rfl⟩)
    · split
      · rename_i hE
        cases he : parseEvent (fields l) with
        | none => exact Or.inl rfl
        | some r => exact Or.inr (Or.inr ⟨r.1, r.2, hE, rfl, rfl⟩)
      · exact Or.inl rfl

theorem le_length_of_parseModule {p : List (List Char)} {m : Module} (h : parseModule p = some m) :
    6 ≤ p.length := by
  unfold parseModule at h
  split at h
  · simp
  · cases h

theorem le_length_of_parseEvent {p : List (List Char)} {r : Event × Int}
    (h : parseEvent p = some r) : 8 ≤ p.length := by
  unfold parseEvent at h
  split at h
  · simp
  · cases h

/-- An `M` line that breaks off is skipped, or it is the module with a shorter path. -/
theorem parseLine_prefix_moduleFields (exe : Field) (idx : Nat) (m : ModuleEntry) {p : List Char}
    (h : p <+: tabbed (moduleFields exe idx m)) : parseLine p = .other ∨
      ∃ path, path <+: (m.module exe idx).path ∧
        parseLine p = .module { m.module exe idx with path := path } := by
  have hne : moduleFields exe idx m ≠ [] := List.cons_ne_nil _ _
  obtain ⟨i, g, f, hf, hg, hp⟩ := fields_of_prefix_tabbed hne (isField_moduleFields exe idx m) h
  have hi : i < 6 := (List.getElem?_eq_some_iff.mp hf).1
  have hlen : (fields p).length ≤ i + 1 := by
    rw [hp, List.length_append, List.length_singleton]
    exact Nat.succ_le_succ (List.length_take_le _ _)
  rcases parseLine_cases p with hother | ⟨m', -, hm, hline⟩ | ⟨e, nf, -, he, -⟩
  · exact Or.inl hother
  · -- only a line that breaks off in its path has enough fields
    have hle := le_length_of_parseModule hm
    obtain rfl : i = 5 := by omega
    cases hf
    have hmod : parseModule ((moduleFields exe idx m).take 5 ++ [g]) =
        some { m.module exe idx with path := g } := by
      show parseModule [_, _, _, _, _, g] = _
      rw [parseModule, parseInt_int32, parseHex_printHex, parseHex_printHex]
      rfl
    rw [hp, hmod] at hm
    cases hm
    exact Or.inr ⟨g, hg, hline⟩
  · have hle := le_length_of_parseEvent he
    omega

/-- An `E` line that breaks off is skipped, or it is the event without its frames. -/
theorem parseLine_prefix_eventFields (e : LogEvent) {p : List Char}
    (h : p <+: tabbed (eventFields e.hdr)) : parseLine p = .other ∨
      ∃ nf, parseLine p = .event { e.event with bt := [] } nf := by
  have hne : eventFields e.hdr ≠ [] := List.cons_ne_nil _ _
  obtain ⟨i, g, f, hf, hg, hp⟩ := fields_of_prefix_tabbed hne (isField_eventFields e.hdr) h
  have hi : i < 8 := (List.getElem?_eq_some_iff.mp hf).1
  have hlen : (fields p).length ≤ i + 1 := by
    rw [hp, List.length_append, List.length_singleton]
    exact Nat.succ_le_succ (List.length_take_le _ _)
  rcases parseLine_cases p with hother | ⟨m, hM, hm, -⟩ | ⟨e', nf, -, he, hline⟩
  · exact Or.inl hother
  · have hle := le_length_of_parseModule hm
    obtain ⟨j, rfl⟩ : ∃ j, i = j + 1 := ⟨i - 1, by omega⟩
    rw [hp] at hM
    exact absurd (Option.some.inj hM : ['E'] = ['M']) (by decide)
  · -- only a line that breaks off in its number of frames has enough fields
    have hle := le_length_of_parseEvent he
    obtain rfl : i = 7 := by omega
    have hop : (parseInt 10 (printNat e.hdr.op.toNat)).bind EvOp.ofValue = some e.op :=
      ofValue_opCode e.op
    have hkind : (parseInt 10 (printNat e.hdr.kind.toNat)).bind EvKind.ofValue = some e.kind :=
      ofValue_kindCode e.kind
    have hevent : parseEvent ((eventFields e.hdr).take 7 ++ [g]) =
        (parseInt 10 g).map fun nf ↦ ({ e.event with bt := [] }, nf) := by
      show parseEvent [_, _, _, _, _, _, _, g] = _
      rw [parseEvent, parseInt_uInt64, parseInt_uInt64, hop, hkind, parseHex_printHex,
        parseInt_int64]
      cases parseInt 10 g <;> rfl
    rw [hp, hevent] at he
    obtain ⟨nf', -, heq⟩ := Option.map_eq_some_iff.mp he
    cases heq
    exact Or.inr ⟨nf, hline⟩

/-! ## Events that break off -/

/-- The event `e'` is read of the event `e` when the trace breaks off in its lines: only the
backtrace differs, which is cut, with perhaps a wrong frame at its end. -/
structure CutEvent (e e' : Event) : Prop where
  same : e' = { e with bt := e'.bt }
  bt : ∃ i, ∃ f : Option Frame, e'.bt = e.bt.take i ++ f.toList

/-- At most one line is left behind the whole lines of the frames, and only if a frame is
missing. -/
theorem readFrames_append {pcs : List UInt64} {n : Nat} (hn : pcs.length ≤ n)
    {tail : List (List Char)} (htail : tail = [] ∨ pcs.length < n ∧ ∃ l, tail = [l]) :
    ∃ f : Option Frame, readFrames n ((pcs.map frameFields).map printLine ++ tail) =
      ((pcs.map fun pc ↦ { pc := pc.toNat }) ++ f.toList, []) := by
  induction pcs generalizing n with
  | nil =>
      rcases htail with rfl | ⟨hlt, l, rfl⟩
      · refine ⟨none, ?_⟩
        cases n <;> rfl
      · obtain ⟨m, rfl⟩ := Nat.exists_eq_succ_of_ne_zero (Nat.ne_of_gt hlt)
        have hnil : readFrames m [] = ([], []) := by cases m <;> rfl
        rw [List.map_nil, List.map_nil, List.nil_append, Nat.succ_eq_add_one, readFrames]
        cases parseFrame l with
        | none => exact ⟨none, rfl⟩
        | some f =>
            cases f with
            | none => exact ⟨none, hnil⟩
            | some f =>
                refine ⟨some f, ?_⟩
                dsimp only
                rw [hnil]
                rfl
  | cons pc pcs ih =>
      rw [List.length_cons] at hn htail
      obtain ⟨m, rfl⟩ := Nat.exists_eq_succ_of_ne_zero (Nat.ne_of_gt (Nat.zero_lt_of_lt hn))
      obtain ⟨f, hf⟩ := ih (Nat.le_of_succ_le_succ hn)
        (htail.imp_right fun h ↦ ⟨Nat.lt_of_succ_lt_succ h.1, h.2⟩)
      refine ⟨f, ?_⟩
      rw [List.map_cons, List.map_cons, List.cons_append, Nat.succ_eq_add_one, readFrames,
        parseFrame_frameFields]
      dsimp only
      rw [hf]
      rfl

/-- What is read of the first `k` lines of an event and a part `p` of the next one. -/
theorem exists_reads_take_lines (e : LogEvent) {k : Nat} {p : List Char}
    (hp : p = [] ∨ ∃ fs, e.record.lines[k]? = some fs ∧ p <+: tabbed fs) :
    ∃ es, Reads ((e.record.lines.take k).map printLine ++ if p = [] then [] else [p]) [] es ∧
      (es = [] ∨ ∃ e', es = [e'] ∧ CutEvent e.event e') := by
  cases k with
  | zero =>
      rw [List.take_zero, List.map_nil, List.nil_append]
      rcases hp with rfl | ⟨fs, hfs, hprefix⟩
      · exact ⟨[], .nil, Or.inl rfl⟩
      · cases hfs
        split
        · exact ⟨[], .nil, Or.inl rfl⟩
        · rcases parseLine_prefix_eventFields e hprefix with hother | ⟨nf, hevent⟩
          · exact ⟨[], .other hother .nil, Or.inl rfl⟩
          · have hnil : readFrames nf.toNat [] = ([], []) := by cases nf.toNat <;> rfl
            have hrest : Reads (readFrames nf.toNat []).2 [] [] := by
              rw [hnil]
              exact .nil
            have hread := Reads.event hevent hrest
            rw [hnil] at hread
            exact ⟨_, hread, Or.inr ⟨_, rfl, rfl, 0, none, rfl⟩⟩
  | succ j =>
      have hlines : e.record.lines.take (j + 1) =
          eventFields e.hdr :: (e.pcs.take j).map frameFields := by
        rw [Record.lines, List.take_succ_cons, ← List.map_take]
        rfl
      have hle : (e.pcs.take j).length ≤ e.pcs.length :=
        (List.take_sublist j e.pcs).length_le
      have htail : (if p = [] then [] else [p]) = [] ∨ (e.pcs.take j).length < e.pcs.length ∧
          ∃ l, (if p = [] then [] else [p]) = [l] := by
        by_cases hnil : p = []
        · exact Or.inl (if_pos hnil)
        · obtain ⟨fs, hfs, -⟩ := hp.resolve_left hnil
          have hj : j < e.pcs.length := by
            have hlt : j + 1 < (e.record.lines).length := (List.getElem?_eq_some_iff.mp hfs).1
            rw [Record.lines, List.length_cons, List.length_map] at hlt
            exact Nat.lt_of_succ_lt_succ hlt
          refine Or.inr ⟨?_, p, if_neg hnil⟩
          rw [List.length_take, Nat.min_eq_left hj.le]
          exact hj
      obtain ⟨f, hframes⟩ := readFrames_append hle htail
      have hrest : Reads (readFrames (e.pcs.length : Int).toNat
          (((e.pcs.take j).map frameFields).map printLine ++ if p = [] then [] else [p])).2 [] [] := by
        rw [Int.toNat_natCast, hframes]
        exact .nil
      have hread := Reads.event (parseLine_eventFields e) hrest
      rw [Int.toNat_natCast, hframes] at hread
      rw [hlines]
      refine ⟨_, hread, Or.inr ⟨_, rfl, rfl, j, f, ?_⟩⟩
      rw [List.map_take]
      rfl

/-- What is read of a part of the text of an event. -/
theorem exists_reads_prefix_text (e : LogEvent) {q : List Char} (hq : q <+: e.record.text) :
    ∃ (fss : List (List (List Char))) (p : List Char), q = fss.flatMap printLine ++ p ∧
      (∀ fs ∈ fss, ∀ f ∈ fs, IsField f) ∧ OneLine p ∧
      ∃ es, Reads (fss.map printLine ++ if p = [] then [] else [p]) [] es ∧
        (es = [] ∨ ∃ e', es = [e'] ∧ CutEvent e.event e') := by
  have hfield : ∀ fs ∈ e.record.lines, ∀ f ∈ fs, IsField f := by
    intro fs hfs
    rcases List.mem_cons.mp hfs with rfl | hfs
    · exact isField_eventFields e.record.hdr
    · obtain ⟨pc, -, rfl⟩ := List.mem_map.mp hfs
      exact isField_frameFields pc
  rw [Record.text_eq_flatMap] at hq
  obtain ⟨k, p, -, rfl, hp⟩ := exists_of_prefix_flatMap hq
  have hp' : p = [] ∨ ∃ fs, e.record.lines[k]? = some fs ∧ p <+: tabbed fs :=
    hp.imp_right fun ⟨fs, hfs, hpre, hlt⟩ ↦ ⟨fs, hfs, prefix_of_prefix_line hpre hlt⟩
  refine ⟨_, p, rfl, fun fs hfs ↦ hfield fs (List.mem_of_mem_take hfs), ?_,
    exists_reads_take_lines e hp'⟩
  rcases hp' with rfl | ⟨fs, hfs, hpre⟩
  · exact ⟨List.not_mem_nil, List.not_mem_nil⟩
  · exact (oneLine_tabbed fun f hf ↦
      (hfield fs (List.mem_of_getElem? hfs) f hf).2.1).mono hpre

/-! ## Files that break off -/

theorem readLines_printLine_append {fss : List (List (List Char))}
    (h : ∀ fs ∈ fss, ∀ f ∈ fs, IsField f) {p : List Char} (hp : OneLine p) :
    readLines (fss.flatMap printLine ++ p) =
      fss.map printLine ++ if p = [] then [] else [p] := by
  have hone : ∀ l ∈ fss.map tabbed, OneLine l := by
    intro l hl
    obtain ⟨fs, hfs, rfl⟩ := List.mem_map.mp hl
    exact oneLine_tabbed fun f hf ↦ (h fs hfs f hf).2.1
  have hread := readLines_flatMap_line_append hone hp
  rw [List.flatMap_map, List.map_map] at hread
  exact hread

/-- The modules that are written, as the analyzer sees them. -/
def moduleList (exe : Field) (mods : List ModuleEntry) : List Module :=
  mods.zipIdx.map fun m ↦ m.1.module exe m.2

/-- The lines of whole events, and then others. -/
theorem reads_events_append (es : List LogEvent) {ls : List (List Char)} {es' : List Event}
    (h : Reads ls [] es') :
    Reads (((es.map LogEvent.record).flatMap Record.lines).map printLine ++ ls) []
      (es.map LogEvent.event ++ es') := by
  induction es with
  | nil => exact h
  | cons e es ih =>
      rw [List.map_cons, List.flatMap_cons, List.map_append, List.append_assoc]
      exact reads_lines e ih

/-- A trace whose header and modules are there, and that breaks off behind the events `es`. -/
theorem readTrace_append (pid : Int32) (exe : Field) (mods : List ModuleEntry)
    (es : List LogEvent) {fss : List (List (List Char))} (hfss : ∀ fs ∈ fss, ∀ f ∈ fs, IsField f)
    {p : List Char} (hp : OneLine p) {es' : List Event}
    (h : Reads (fss.map printLine ++ if p = [] then [] else [p]) [] es') :
    readTrace (traceText pid exe mods (es.map LogEvent.record) ++ (fss.flatMap printLine ++ p)) =
      some (pid.toInt, (moduleList exe mods).insertionSort fun m n ↦ m.base ≤ n.base,
        es.map LogEvent.event ++ es') := by
  have hall : ∀ fs ∈ traceLines pid exe mods (es.map LogEvent.record) ++ fss,
      ∀ f ∈ fs, IsField f := by
    intro fs hfs
    rcases List.mem_append.mp hfs with hfs | hfs
    · exact isField_traceLines pid exe mods _ fs hfs
    · exact hfss fs hfs
  have hreads := reads_modules exe mods 0 (reads_events_append es h)
  rw [← List.append_assoc, ← List.append_assoc, ← List.map_append, ← List.map_append] at hreads
  rw [traceText_eq_flatMap, ← List.append_assoc, ← List.flatMap_append, readTrace,
    readLines_printLine_append hall hp, traceLines, List.cons_append, List.cons_append,
    List.map_cons, List.cons_append]
  dsimp only
  rw [readHeader_headerFields, readRecords_eq hreads]
  rfl

/-- The modules are read of the modules `ms` when the trace breaks off in their lines: there are
fewer, and the path of the last one may be cut. -/
def CutModules (ms ms' : List Module) : Prop :=
  ∃ j, ms' = (ms.take j).insertionSort (fun m n ↦ m.base ≤ n.base) ∨
    ∃ m path, ms[j]? = some m ∧ path <+: m.path ∧
      ms' = (ms.take j ++ [{ m with path := path }]).insertionSort fun m n ↦ m.base ≤ n.base

theorem take_zipIdx {α : Type*} (l : List α) (j : Nat) : l.zipIdx.take j = (l.take j).zipIdx := by
  refine List.ext_getElem? fun i ↦ ?_
  rw [List.getElem?_take, List.getElem?_zipIdx, List.getElem?_zipIdx, List.getElem?_take]
  split <;> rfl

/-- The lines of whole modules, and then others. -/
theorem reads_modules_append (exe : Field) (mods : List ModuleEntry) (n : Nat)
    {ls : List (List Char)} {ms : List Module} {es : List Event} (h : Reads ls ms es) :
    Reads (((mods.zipIdx n).map fun m ↦ moduleFields exe m.2 m.1).map printLine ++ ls)
      (((mods.zipIdx n).map fun m ↦ m.1.module exe m.2) ++ ms) es := by
  induction mods generalizing n with
  | nil => exact h
  | cons m mods ih => exact .module (parseLine_moduleFields exe n m) (ih (n + 1))

/-- A trace that breaks off in its header or its modules. -/
theorem readTrace_prefix_head (pid : Int32) (exe : Field) (mods : List ModuleEntry)
    {q : List Char} (hq : q <+: traceText pid exe mods []) : readTrace q = none ∨
      ∃ pid' ms, readTrace q = some (pid', ms, []) ∧ CutModules (moduleList exe mods) ms := by
  have hfield := isField_traceLines pid exe mods []
  rw [traceText_eq_flatMap] at hq
  obtain ⟨k, p, -, rfl, hp⟩ := exists_of_prefix_flatMap hq
  have hp' : p = [] ∨ ∃ fs, (traceLines pid exe mods [])[k]? = some fs ∧ p <+: tabbed fs :=
    hp.imp_right fun ⟨fs, hfs, hpre, hlt⟩ ↦ ⟨fs, hfs, prefix_of_prefix_line hpre hlt⟩
  have hone : OneLine p := by
    rcases hp' with rfl | ⟨fs, hfs, hpre⟩
    · exact ⟨List.not_mem_nil, List.not_mem_nil⟩
    · exact (oneLine_tabbed fun f hf ↦
        (hfield fs (List.mem_of_getElem? hfs) f hf).2.1).mono hpre
  rw [readTrace, readLines_printLine_append
    (fun fs hfs ↦ hfield fs (List.mem_of_mem_take hfs)) hone]
  cases k with
  | zero =>
      rw [List.take_zero, List.map_nil, List.nil_append]
      split
      · exact Or.inl rfl
      · -- the header breaks off
        rename_i l ls hls
        split at hls
        · cases hls
        · cases hls
          cases hhead : readHeader p with
          | none => exact Or.inl rfl
          | some pid' => exact Or.inr ⟨pid', [], rfl, 0, Or.inl rfl⟩
  | succ j =>
      have hlines : (traceLines pid exe mods []).take (j + 1) =
          headerFields pid :: (mods.take j).zipIdx.map fun m ↦ moduleFields exe m.2 m.1 := by
        rw [traceLines, List.flatMap_nil, List.append_nil, List.take_succ_cons, ← List.map_take,
          take_zipIdx]
      rw [hlines, List.map_cons, List.cons_append]
      dsimp only
      rw [readHeader_headerFields]
      -- the modules break off
      have hcut : ∃ ms, Reads (if p = [] then [] else [p]) ms [] ∧ (ms = [] ∨ ∃ m path,
          (moduleList exe mods)[j]? = some m ∧ path <+: m.path ∧
            ms = [{ m with path := path }]) := by
        by_cases hnil : p = []
        · rw [if_pos hnil]
          exact ⟨[], .nil, Or.inl rfl⟩
        · rw [if_neg hnil]
          obtain ⟨fs, hfs, hpre⟩ := hp'.resolve_left hnil
          rw [traceLines, List.flatMap_nil, List.append_nil, List.getElem?_cons_succ,
            List.getElem?_map] at hfs
          obtain ⟨⟨m, i⟩, hm, rfl⟩ := Option.map_eq_some_iff.mp hfs
          have hmod : (moduleList exe mods)[j]? = some (m.module exe i) := by
            rw [moduleList, List.getElem?_map, hm]
            rfl
          rcases parseLine_prefix_moduleFields exe i m hpre with hother | ⟨path, hpath, hline⟩
          · exact ⟨[], .other hother .nil, Or.inl rfl⟩
          · exact ⟨_, .module hline .nil, Or.inr ⟨_, path, hmod, hpath, rfl⟩⟩
      obtain ⟨ms, hms, hshape⟩ := hcut
      have hreads := reads_modules_append exe (mods.take j) 0 hms
      have htake : ((mods.take j).zipIdx.map fun m ↦ m.1.module exe m.2) =
          (moduleList exe mods).take j := by
        rw [moduleList, ← List.map_take, take_zipIdx]
      rw [htake] at hreads
      rw [readRecords_eq hreads]
      refine Or.inr ⟨pid.toInt, _, rfl, j, ?_⟩
      rcases hshape with rfl | ⟨m, path, hm, hpath, rfl⟩
      · rw [List.append_nil]
        exact Or.inl rfl
      · exact Or.inr ⟨m, path, hm, hpath, rfl⟩

/-- The trace file of a process that has logged these events. -/
def runText (pid : Int32) (exe : Field) (mods : List ModuleEntry) (es : List LogEvent) :
    List Char :=
  traceText pid exe mods (es.map fun e ↦ unpack e.encode)

theorem runText_eq_traceText (pid : Int32) (exe : Field) (mods : List ModuleEntry)
    (es : List LogEvent) :
    runText pid exe mods es = traceText pid exe mods (es.map LogEvent.record) :=
  congrArg (traceText pid exe mods) (List.map_congr_left fun e _ ↦ unpack_encode e)

theorem runText_eq (pid : Int32) (exe : Field) (mods : List ModuleEntry) (es : List LogEvent) :
    runText pid exe mods es = traceText pid exe mods [] ++ es.flatMap fun e ↦ e.record.text := by
  rw [runText_eq_traceText, traceText, traceText, List.flatMap_map, List.flatMap_nil,
    List.append_nil]

/-- A longer initial part contains the next piece. -/
theorem length_flatMap_take_le {α β : Type*} {f : α → List β} {xs : List α} {k j : Nat} {x : α}
    (hx : xs[k]? = some x) (h : k < j) :
    ((xs.take k).flatMap f).length + (f x).length ≤ ((xs.take j).flatMap f).length := by
  induction xs generalizing k j with
  | nil => cases hx
  | cons y ys ih =>
      obtain ⟨i, rfl⟩ := Nat.exists_eq_succ_of_ne_zero (Nat.ne_of_gt (Nat.zero_lt_of_lt h))
      rw [Nat.succ_eq_add_one, List.take_succ_cons, List.flatMap_cons, List.length_append]
      cases k with
      | zero =>
          cases hx
          rw [List.take_zero, List.flatMap_nil, List.length_nil, Nat.zero_add]
          exact Nat.le_add_right _ _
      | succ k =>
          rw [List.take_succ_cons, List.flatMap_cons, List.length_append, Nat.add_assoc]
          exact Nat.add_le_add_left (ih hx (Nat.lt_of_succ_lt_succ h)) _

theorem length_text_pos (e : LogEvent) : 0 < e.record.text.length := by
  rw [Record.text_eq_flatMap, Record.lines, List.flatMap_cons, printLine, line, List.length_append,
    List.length_append]
  exact Nat.lt_of_lt_of_le (Nat.succ_pos _) (Nat.le_add_right _ _)

theorem readTrace_take_of_lt (pid : Int32) (exe : Field) (mods : List ModuleEntry)
    (es : List LogEvent) {n : Nat} (hn : n < (runText pid exe mods []).length) :
    readTrace ((runText pid exe mods es).take n) = none ∨
      ∃ pid' ms, readTrace ((runText pid exe mods es).take n) = some (pid', ms, []) ∧
        CutModules (moduleList exe mods) ms := by
  have hhead : runText pid exe mods [] = traceText pid exe mods [] := rfl
  rw [hhead] at hn
  refine readTrace_prefix_head pid exe mods ?_
  rw [runText_eq, List.take_append_of_le_length hn.le]
  exact List.take_prefix n _

theorem readTrace_take_of_le (pid : Int32) (exe : Field) (mods : List ModuleEntry)
    (es : List LogEvent) {n : Nat} (hn : (runText pid exe mods []).length ≤ n) :
    ∃ k ≤ es.length, ∃ cut, readTrace ((runText pid exe mods es).take n) =
        some (pid.toInt, (moduleList exe mods).insertionSort fun m n ↦ m.base ≤ n.base,
          (es.take k).map LogEvent.event ++ cut) ∧
      (cut = [] ∨ ∃ e e', es[k]? = some e ∧ cut = [e'] ∧ CutEvent e.event e') ∧
      ∀ j ≤ es.length, (runText pid exe mods (es.take j)).length ≤ n ↔ j ≤ k := by
  have hhead : runText pid exe mods [] = traceText pid exe mods [] := rfl
  rw [hhead] at hn
  obtain ⟨m, rfl⟩ := Nat.exists_eq_add_of_le hn
  rw [runText_eq pid exe mods es, List.take_length_add_append]
  obtain ⟨k, p, hk, hq, hp⟩ :=
    exists_of_prefix_flatMap (List.take_prefix m (es.flatMap fun e ↦ e.record.text))
  obtain ⟨fss, p', cut, hp', hfss, hone, hreads, hshape⟩ :
      ∃ (fss : List (List (List Char))) (p' : List Char) (cut : List Event),
        p = fss.flatMap printLine ++ p' ∧ (∀ fs ∈ fss, ∀ f ∈ fs, IsField f) ∧ OneLine p' ∧
          Reads (fss.map printLine ++ if p' = [] then [] else [p']) [] cut ∧
          (cut = [] ∨ ∃ e e', es[k]? = some e ∧ cut = [e'] ∧ CutEvent e.event e') := by
    rcases hp with rfl | ⟨e, he, hpre, -⟩
    · refine ⟨[], [], [], rfl, ?_, ⟨List.not_mem_nil, List.not_mem_nil⟩, .nil, Or.inl rfl⟩
      exact fun fs hfs ↦ absurd hfs List.not_mem_nil
    · obtain ⟨fss, p', hp', hfss, hone, cut, hreads, hshape⟩ := exists_reads_prefix_text e hpre
      refine ⟨fss, p', cut, hp', hfss, hone, hreads, hshape.imp_right ?_⟩
      rintro ⟨e', rfl, hcut⟩
      exact ⟨e, e', he, rfl, hcut⟩
  have hread := readTrace_append pid exe mods (es.take k) hfss hone hreads
  have htext : traceText pid exe mods ((es.take k).map LogEvent.record) =
      traceText pid exe mods [] ++ (es.take k).flatMap fun e ↦ e.record.text := by
    rw [traceText, traceText, List.flatMap_map, List.flatMap_nil, List.append_nil]
  rw [htext, List.append_assoc, ← hp', ← hq] at hread
  have hlen' := congrArg List.length hq
  rw [List.length_take, List.length_append] at hlen'
  refine ⟨k, hk, cut, hread, hshape, fun j hj ↦ ⟨fun hlen ↦ ?_, fun hle ↦ ?_⟩⟩
  · -- what is there of the next event is shorter than its text
    by_contra hlt
    have he : es[k]? = some es[k] := List.getElem?_eq_getElem (by omega)
    have hj' := length_flatMap_take_le (f := fun e : LogEvent ↦ e.record.text) he (not_le.mp hlt)
    have hall : ((es.take j).flatMap fun e ↦ e.record.text).length ≤
        (es.flatMap fun e ↦ e.record.text).length :=
      ((List.take_sublist j es).flatMap _).length_le
    rw [runText_eq, List.length_append] at hlen
    have hpos := length_text_pos es[k]
    rcases hp with hp | ⟨e', he', -, hshort⟩
    · rw [hp, List.length_nil] at hlen'
      omega
    · rw [he] at he'
      cases he'
      omega
  · have hsub : ((es.take j).flatMap fun e ↦ e.record.text).length ≤
        ((es.take k).flatMap fun e ↦ e.record.text).length :=
      ((List.take_sublist_take_left hle).flatMap _).length_le
    rw [runText_eq, List.length_append]
    omega

/-- **What is read of a trace that breaks off.**  Cut anywhere in the header or the modules, it is
rejected or has no events.  Cut behind them, it has all modules and exactly the events that were
there in full, with at most one more: the event in whose lines it breaks off, with a damaged
backtrace but otherwise as it was logged. -/
theorem readTrace_take (pid : Int32) (exe : Field) (mods : List ModuleEntry) (es : List LogEvent)
    (n : Nat) :
    (n < (runText pid exe mods []).length →
      readTrace ((runText pid exe mods es).take n) = none ∨
        ∃ pid' ms, readTrace ((runText pid exe mods es).take n) = some (pid', ms, []) ∧
          CutModules (moduleList exe mods) ms) ∧
      ((runText pid exe mods []).length ≤ n →
        ∃ k ≤ es.length, ∃ cut, readTrace ((runText pid exe mods es).take n) =
            some (pid.toInt, (moduleList exe mods).insertionSort fun m n ↦ m.base ≤ n.base,
              (es.take k).map LogEvent.event ++ cut) ∧
          (cut = [] ∨ ∃ e e', es[k]? = some e ∧ cut = [e'] ∧ CutEvent e.event e') ∧
          ∀ j ≤ es.length, (runText pid exe mods (es.take j)).length ≤ n ↔ j ≤ k) :=
  ⟨readTrace_take_of_lt pid exe mods es, readTrace_take_of_le pid exe mods es⟩

/-- Traces that differ in their backtraces only have the same verdict. -/
theorem report_snd_congr_bt {es es' : List Event}
    (h : (es.map fun e ↦ { e with bt := [] }) = es'.map fun e ↦ { e with bt := [] })
    (rwlockStrict : Bool) (maxPerScc : Int) :
    (report (replay es {}) rwlockStrict maxPerScc).2 =
      (report (replay es' {}) rwlockStrict maxPerScc).2 := by
  have herase := fun es : List Event ↦
    report_snd_map_bt (f := fun _ ↦ []) rfl es rwlockStrict maxPerScc
  rw [← herase es, ← herase es', h]

/-- But for their backtraces, the events that are read of a trace that breaks off are those up to the
cut: all that were there in full, and perhaps the next one. -/
theorem exists_take_of_readTrace (pid : Int32) (exe : Field) (mods : List ModuleEntry)
    (es : List LogEvent) (n : Nat) {pid' : Int} {ms : List Module} {es' : List Event}
    (h : readTrace ((runText pid exe mods es).take n) = some (pid', ms, es')) :
    ∃ k ≤ es.length,
      (∀ j ≤ es.length, (runText pid exe mods (es.take j)).length ≤ n → j ≤ k) ∧
      (es'.map fun e ↦ { e with bt := [] }) =
        ((es.take k).map LogEvent.event).map fun e ↦ { e with bt := [] } := by
  rcases Nat.lt_or_ge n (runText pid exe mods []).length with hn | hn
  · have hnil : es' = [] := by
      rcases readTrace_take_of_lt pid exe mods es hn with hnone | ⟨pid'', ms', hread, -⟩
      · rw [h] at hnone
        cases hnone
      · rw [h] at hread
        cases hread
        rfl
    subst hnil
    refine ⟨0, Nat.zero_le _, fun j _ hlen ↦ ?_, rfl⟩
    rw [runText_eq, List.length_append] at hlen
    have hhead : (runText pid exe mods []).length = (traceText pid exe mods []).length := rfl
    omega
  · obtain ⟨k, hk, cut, hread, hshape, hall⟩ := readTrace_take_of_le pid exe mods es hn
    rw [h] at hread
    cases hread
    rcases hshape with rfl | ⟨e, e', he, rfl, hcut⟩
    · rw [List.append_nil]
      exact ⟨k, hk, fun j hj ↦ (hall j hj).mp, rfl⟩
    · have hlt : k < es.length := (List.getElem?_eq_some_iff.mp he).1
      refine ⟨k + 1, hlt, fun j hj hlen ↦ ((hall j hj).mp hlen).trans (Nat.le_succ k), ?_⟩
      have herase : { e' with bt := [] } = { e.event with bt := [] } := by rw [hcut.same]
      rw [List.take_add_one, he, Option.toList_some, List.map_append, List.map_append,
        List.map_append, List.map_singleton, List.map_singleton, List.map_singleton, herase]

/-- **The verdict of a trace that breaks off** is that of the events up to the cut: of all that
were there in full, and perhaps of the next one. -/
theorem report_take (pid : Int32) (exe : Field) (mods : List ModuleEntry) (es : List LogEvent)
    (n : Nat) (pid' : Int) (ms : List Module) (es' : List Event)
    (h : readTrace ((runText pid exe mods es).take n) = some (pid', ms, es')) :
    ∃ k ≤ es.length,
      (∀ j ≤ es.length, (runText pid exe mods (es.take j)).length ≤ n → j ≤ k) ∧
      ∀ rwlockStrict maxPerScc, (report (replay es' {}) rwlockStrict maxPerScc).2 =
        (report (replay ((es.take k).map LogEvent.event) {}) rwlockStrict maxPerScc).2 := by
  obtain ⟨k, hk, hall, herase⟩ := exists_take_of_readTrace pid exe mods es n h
  exact ⟨k, hk, hall, report_snd_congr_bt herase⟩

/-- Two locks are taken one after the other. -/
def twoLocks : List LogEvent := [mutexEvent 1 7 16 .lockPost, mutexEvent 2 7 32 .lockPost]

/-- The number of frames of the second event is missing. -/
theorem report_take_twoLocks : ∃ k ≤ twoLocks.length,
    (∀ j ≤ twoLocks.length,
      (runText 42 ⟨[], isField_nil⟩ [] (twoLocks.take j)).length ≤ 68 → j ≤ k) ∧
    ∀ rwlockStrict maxPerScc,
      (report (replay [(mutexEvent 1 7 16 .lockPost).event] {}) rwlockStrict maxPerScc).2 =
        (report (replay ((twoLocks.take k).map LogEvent.event) {}) rwlockStrict maxPerScc).2 :=
  report_take 42 ⟨[], isField_nil⟩ [] twoLocks 68 42 [] [(mutexEvent 1 7 16 .lockPost).event]
    (by decide)

end DeadLockDetect.Runtime
