import DeadLockDetect.Trace.Format
import DeadLockDetect.Trace.TraceReader

/-!
# Reading the trace undoes writing it

The events that were logged go through their binary form in the ring, the text of the trace file
and the reader, and come out as they went in: `readTrace_traceText`.  There is one lemma for each
kind of line, and `Reads` puts the lines together.
-/

namespace DeadLockDetect.Runtime

open Analyzer Text Numeral

/-! ## Fields -/

/-- A 64-bit number is short enough to be read. -/
theorem lt_pow_maxStrDigits {n : Nat} (h : n < 2 ^ 64) : n < 10 ^ maxStrDigits :=
  (h.trans (by decide : 2 ^ 64 < 10 ^ 20)).trans_le (Nat.pow_le_pow_right (by decide) (by decide))

theorem parseInt_uInt64 (x : UInt64) : parseInt 10 (printNat x.toNat) = some (x.toNat : Int) :=
  parseInt_printNat (lt_pow_maxStrDigits x.toNat_lt)

theorem parseInt_int32 (x : Int32) : parseInt 10 (printInt x.toInt) = some x.toInt := by
  have hlo : -2 ^ 31 ≤ x.toInt := x.le_toInt
  have hhi : x.toInt < 2 ^ 31 := x.toInt_lt
  exact parseInt_printInt (lt_pow_maxStrDigits (by omega))

theorem parseInt_int64 (x : Int64) : parseInt 10 (printInt x.toInt) = some x.toInt := by
  have hlo : -2 ^ 63 ≤ x.toInt := x.le_toInt
  have hhi : x.toInt < 2 ^ 63 := x.toInt_lt
  exact parseInt_printInt (lt_pow_maxStrDigits (by omega))

theorem parseHex_printHex (n : Nat) : parseHex (printHex n) = some (n : Int) := by
  rw [parseHex, if_neg (by rw [printHex]; exact List.cons_ne_nil _ _), Numeral.parseInt_printHex]

/-- The operation codes of both sides agree. -/
theorem ofValue_opCode (op : EvOp) :
    (parseInt 10 (printNat (opCode op).toNat)).bind EvOp.ofValue = some op := by
  cases op <;> decide

/-- The object kinds of both sides agree. -/
theorem ofValue_kindCode (kind : EvKind) :
    (parseInt 10 (printNat (kindCode kind).toNat)).bind EvKind.ofValue = some kind := by
  cases kind <;> decide

/-! ## Lines -/

/-- A line that starts with a tag is not blank. -/
theorem isBlank_printLine {tag : Char} (h : isSpace tag = false) (f : List Char)
    (fs : List (List Char)) : isBlank (printLine ([tag] :: f :: fs)) = false := by
  rw [printLine, tabbed_cons_cons, line, isBlank, List.append_assoc, List.append_assoc,
    List.cons_append, List.all_cons, h, Bool.false_and]

theorem readHeader_headerFields (pid : Int32) :
    readHeader (printLine (headerFields pid)) = some pid.toInt := by
  have hfields : fields (printLine (headerFields pid)) = headerFields pid :=
    fields_line_tabbed (List.cons_ne_nil _ _) (isField_headerFields pid)
  have hfind : ((headerFields pid).find? fun f ↦ "pid=".toList.isPrefixOf f) =
      some ("pid=".toList ++ printInt pid.toInt) := rfl
  have hpid : headerPid (headerFields pid) = pid.toInt := by
    rw [headerPid, hfind]
    exact congrArg (·.getD 0) (parseInt_int32 pid)
  rw [readHeader, hfields, ← hpid]
  exact if_pos ⟨rfl, rfl, rfl⟩

/-- The module as the analyzer sees it. -/
def ModuleEntry.module (exe : Field) (idx : Nat) (m : ModuleEntry) : Module where
  idx := (Int32.ofNat idx).toInt
  base := m.base.toNat
  size := m.size.toNat
  buildId := m.buildId.val
  path := (m.printedPath exe).val

theorem parseLine_moduleFields (exe : Field) (idx : Nat) (m : ModuleEntry) :
    parseLine (printLine (moduleFields exe idx m)) = .module (m.module exe idx) := by
  have hfields : fields (printLine (moduleFields exe idx m)) = moduleFields exe idx m :=
    fields_line_tabbed (List.cons_ne_nil _ _) (isField_moduleFields exe idx m)
  refine parseLine_of_module (isBlank_printLine rfl _ _) hfields ?_
  rw [parseModule, parseInt_int32, parseHex_printHex, parseHex_printHex]
  rfl

theorem parseLine_eventFields (e : LogEvent) :
    parseLine (printLine (eventFields e.hdr)) =
      .event { e.event with bt := [] } e.pcs.length := by
  have hfields : fields (printLine (eventFields e.hdr)) = eventFields e.hdr :=
    fields_line_tabbed (List.cons_ne_nil _ _) (isField_eventFields e.hdr)
  have hcnt : parseInt 10 (printNat e.hdr.frameCnt.toNat) = some (e.pcs.length : Int) := by
    rw [e.frameCnt_hdr]
    exact parseInt_printNat (lt_pow_maxStrDigits (e.pcs_le.trans_lt (by decide)))
  have hop : (parseInt 10 (printNat e.hdr.op.toNat)).bind EvOp.ofValue = some e.op :=
    ofValue_opCode e.op
  have hkind : (parseInt 10 (printNat e.hdr.kind.toNat)).bind EvKind.ofValue = some e.kind :=
    ofValue_kindCode e.kind
  refine parseLine_of_event (isBlank_printLine rfl _ _) hfields ?_
  rw [parseEvent, parseInt_uInt64, parseInt_uInt64, hop, hkind, parseHex_printHex,
    parseInt_int64, hcnt]
  rfl

theorem parseFrame_frameFields (pc : UInt64) :
    parseFrame (printLine (frameFields pc)) = some (some { pc := pc.toNat }) := by
  have hfields : fields (printLine (frameFields pc)) = frameFields pc :=
    fields_line_tabbed (List.cons_ne_nil _ _) (isField_frameFields pc)
  rw [parseFrame, hfields, frameFields]
  dsimp only
  rw [if_pos rfl, parseHex_printHex]
  rfl

/-! ## The file -/

/-- The loop over the frames takes the frames of the event and no other line. -/
theorem readFrames_frameFields (pcs : List UInt64) (ls : List (List Char)) :
    readFrames pcs.length ((pcs.map frameFields).map printLine ++ ls) =
      (pcs.map fun pc ↦ { pc := pc.toNat }, ls) := by
  induction pcs with
  | nil => rfl
  | cons pc pcs ih =>
      rw [List.length_cons, List.map_cons, List.map_cons, List.cons_append, readFrames,
        parseFrame_frameFields]
      dsimp only
      rw [ih]
      rfl

/-- The lines of an event are read as the event. -/
theorem reads_lines (e : LogEvent) {ls : List (List Char)} {ms : List Module} {es : List Event}
    (h : Reads ls ms es) : Reads (e.record.lines.map printLine ++ ls) ms (e.event :: es) := by
  have hframes := readFrames_frameFields e.pcs ls
  have hrest : Reads (readFrames (e.pcs.length : Int).toNat
      ((e.pcs.map frameFields).map printLine ++ ls)).2 ms es := by
    rwa [Int.toNat_natCast, hframes]
  have hread := Reads.event (parseLine_eventFields e) hrest
  rw [Int.toNat_natCast, hframes] at hread
  exact hread

/-- The lines of the events are read as the events. -/
theorem reads_events (es : List LogEvent) :
    Reads (((es.map LogEvent.record).flatMap Record.lines).map printLine) []
      (es.map LogEvent.event) := by
  induction es with
  | nil => exact .nil
  | cons e es ih =>
      rw [List.map_cons, List.flatMap_cons, List.map_append]
      exact reads_lines e ih

/-- The lines of the modules are read as the modules. -/
theorem reads_modules (exe : Field) (mods : List ModuleEntry) (n : Nat) {ls : List (List Char)}
    {es : List Event} (h : Reads ls [] es) :
    Reads (((mods.zipIdx n).map fun m ↦ moduleFields exe m.2 m.1).map printLine ++ ls)
      ((mods.zipIdx n).map fun m ↦ m.1.module exe m.2) es := by
  induction mods generalizing n with
  | nil => exact h
  | cons m mods ih => exact .module (parseLine_moduleFields exe n m) (ih (n + 1))

/-- The mutex that the slot of the return code holds. -/
theorem toInt64_emod (m : UInt64) : m.toInt64.toInt % 2 ^ 64 = (m.toNat : Int) := by
  have hbmod : m.toInt64.toInt = (m.toNat : Int).bmod (2 ^ 64) := BitVec.toInt_eq_toNat_bmod _
  rw [hbmod]
  have hemod := Int.bmod_emod (x := (m.toNat : Int)) (m := 2 ^ 64)
  rw [Int.emod_eq_of_lt (Int.natCast_nonneg _) (Int.ofNat_lt.mpr m.toNat_lt)] at hemod
  exact hemod

/-- The modules and events that are read. -/
theorem readTrace_written (pid : Int32) (exe : Field) (mods : List ModuleEntry)
    (es : List LogEvent) :
    readTrace (traceText pid exe mods (es.map fun e ↦ unpack e.encode)) =
      some (pid.toInt,
        (mods.zipIdx.map fun m ↦ m.1.module exe m.2).insertionSort fun m n ↦ m.base ≤ n.base,
        es.map LogEvent.event) := by
  have hunpack : (es.map fun e ↦ unpack e.encode) = es.map LogEvent.record :=
    List.map_congr_left fun e _ ↦ unpack_encode e
  have hreads : Reads (((mods.zipIdx.map fun m ↦ moduleFields exe m.2 m.1) ++
      (es.map LogEvent.record).flatMap Record.lines).map printLine)
        (mods.zipIdx.map fun m ↦ m.1.module exe m.2) (es.map LogEvent.event) := by
    rw [List.map_append]
    exact reads_modules exe mods 0 (reads_events es)
  rw [hunpack, readTrace, readLines_traceText, traceLines, List.cons_append, List.map_cons]
  dsimp only
  rw [readHeader_headerFields, readRecords_eq hreads]
  rfl

/-- **Decoding the trace undoes encoding it.**  Every event goes through its binary form, no `E`
line is truncated, and the mutex that a wait on a condition puts into the slot of the return code
comes out. -/
theorem readTrace_traceText (pid : Int32) (exe : Field) (mods : List ModuleEntry)
    (es : List LogEvent) :
    readTrace (traceText pid exe mods (es.map fun e ↦ unpack e.encode)) =
        some (pid.toInt,
          (mods.zipIdx.map fun m ↦ m.1.module exe m.2).insertionSort fun m n ↦ m.base ≤ n.base,
          es.map LogEvent.event) ∧
      (∀ h : EventHdrBin, snprintf 128 (printLine (eventFields h)) = printLine (eventFields h)) ∧
      ∀ (e : LogEvent) (m : UInt64),
        { e with rcOrFlags := m.toInt64 }.event.rc % 2 ^ 64 = (m.toNat : Int) :=
  ⟨readTrace_written pid exe mods es,
    fun h ↦ snprintf_of_lt ((length_eventLine_le h).trans_lt (by decide)),
    fun e m ↦ toInt64_emod m⟩

end DeadLockDetect.Runtime
