import DeadLockDetect.Lib.Numeral
import DeadLockDetect.Runtime.EventBin

/-!
# The text of the trace

What the runtime writes to the trace file: a `HEADER` line (`log_init`), an `M` line for
every module of the process (`dump_module_map`), and for every event an `E` line with an
`F` line for each of its frames (`process_one_event`).

The `E` and `F` lines are printed into a buffer of 128 bytes.  Every value fits:
`length_eventLine_le` bounds the longest `E` line by 98 characters.
-/

namespace DeadLockDetect.Runtime

open Text Numeral

/-- A string that can be printed into a field of the trace. -/
abbrev Field : Type := {t : List Char // IsField t}

/-! ## Lines -/

/-- The fields of the `HEADER` line. -/
def headerFields (pid : Int32) : List (List Char) :=
  ["HEADER".toList, "DEADLOCK_EVENTS".toList, "v3".toList, "pid=".toList ++ printInt pid.toInt]

/-- What `iter_cb` records of a module. -/
structure ModuleEntry where
  base : UInt64 := 0
  size : UInt64 := 0
  buildId : Field := ⟨['-'], by decide⟩
  path : Field

/-- The path that is written for a module.  The main program has no name; `exe` is what
`fill_main_program_path` finds for it, empty if it finds nothing. -/
def ModuleEntry.printedPath (exe : Field) (m : ModuleEntry) : Field :=
  let path := if m.path.val = [] then exe else m.path
  if path.val = [] then ⟨['-'], by decide⟩ else path

/-- The fields of the `M` line of a module.  The index is an `int`. -/
def moduleFields (exe : Field) (idx : Nat) (m : ModuleEntry) : List (List Char) :=
  [['M'], printInt (Int32.ofNat idx).toInt, printHex m.base.toNat, printHex m.size.toNat,
    m.buildId.val, (m.printedPath exe).val]

/-- The fields of the `E` line of an event. -/
def eventFields (h : EventHdrBin) : List (List Char) :=
  [['E'], printNat h.tsNs.toNat, printNat h.tid.toNat, printNat h.op.toNat,
    printNat h.kind.toNat, printHex h.addr.toNat, printInt h.rcOrFlags.toInt,
    printNat h.frameCnt.toNat]

/-- The fields of the `F` line of a frame. -/
def frameFields (pc : UInt64) : List (List Char) := [['F'], printHex pc.toNat]

/-- The line with these fields. -/
def printLine (fs : List (List Char)) : List Char := line (tabbed fs)

/-! ## The file -/

/-- `snprintf` into a buffer: the last byte of the buffer is for the terminating zero. -/
def snprintf (size : Nat) (t : List Char) : List Char := t.take (size - 1)

/-- The text that `process_one_event` writes for an event. -/
def Record.text (x : Record) : List Char :=
  snprintf 128 (printLine (eventFields x.hdr)) ++
    x.pcs.flatMap fun pc ↦ snprintf 128 (printLine (frameFields pc))

/-- The text that `dump_module_map` writes. -/
def dumpModuleMap (exe : Field) (mods : List ModuleEntry) : List Char :=
  mods.zipIdx.flatMap fun m ↦ printLine (moduleFields exe m.2 m.1)

/-- The trace file of a process that has written these records. -/
def traceText (pid : Int32) (exe : Field) (mods : List ModuleEntry) (xs : List Record) :
    List Char :=
  printLine (headerFields pid) ++ dumpModuleMap exe mods ++ xs.flatMap Record.text

/-- What `process_one_event` makes of the payload of an event. -/
def unpack (payload : List UInt8) : Record :=
  let hdr := EventHdrBin.ofBytes (payload.take hdrSize)
  ⟨hdr, hdr.pcs payload⟩

/-- Unpacking undoes packing. -/
theorem unpack_encode (e : LogEvent) : unpack e.encode = e.record := by
  rw [unpack, LogEvent.ofBytes_encode, LogEvent.pcs_encode]
  rfl

/-! ## Nothing is truncated -/

theorem length_printNat_le {n k : Nat} (hk : 0 < k) (h : n < 10 ^ k) : (printNat n).length ≤ k :=
  (Nat.length_toDigits_le_iff (by decide) hk).mpr h

/-- A 64-bit number has at most 20 decimal digits. -/
theorem length_printNat_uInt64_le (x : UInt64) : (printNat x.toNat).length ≤ 20 :=
  length_printNat_le (by decide) (x.toNat_lt.trans (by decide))

/-- A signed 64-bit number has at most 19 decimal digits and a sign. -/
theorem length_printInt_int64_le (x : Int64) : (printInt x.toInt).length ≤ 20 := by
  have hlo : -2 ^ 63 ≤ x.toInt := x.le_toInt
  have hhi : x.toInt < 2 ^ 63 := x.toInt_lt
  generalize x.toInt = y at hlo hhi
  cases y with
  | ofNat n => exact length_printNat_le (by decide) (by simp at hhi; omega)
  | negSucc n => exact Nat.succ_le_succ (length_printNat_le (by decide) (by omega))

/-- A 64-bit number has at most 16 hexadecimal digits behind the `0x`. -/
theorem length_printHex_le (x : UInt64) : (printHex x.toNat).length ≤ 18 :=
  Nat.add_le_add_right
    ((Nat.length_toDigits_le_iff (k := 16) (by decide) (by decide)).mpr (x.toNat_lt.trans_eq rfl)) 2

/-- The longest `E` line. -/
theorem length_eventLine_le (h : EventHdrBin) : (printLine (eventFields h)).length ≤ 98 := by
  have hts := length_printNat_uInt64_le h.tsNs
  have htid := length_printNat_uInt64_le h.tid
  have hop : (printNat h.op.toNat).length ≤ 3 :=
    length_printNat_le (by decide) (h.op.toNat_lt.trans (by decide))
  have hkind : (printNat h.kind.toNat).length ≤ 3 :=
    length_printNat_le (by decide) (h.kind.toNat_lt.trans (by decide))
  have haddr := length_printHex_le h.addr
  have hrc := length_printInt_int64_le h.rcOrFlags
  have hcnt : (printNat h.frameCnt.toNat).length ≤ 5 :=
    length_printNat_le (by decide) (h.frameCnt.toNat_lt.trans (by decide))
  simp only [printLine, line, eventFields, tabbed, List.intercalate_cons_cons,
    List.intercalate_singleton, List.length_append, List.length_cons, List.length_nil]
  omega

theorem length_frameLine_le (pc : UInt64) : (printLine (frameFields pc)).length ≤ 21 := by
  have hpc := length_printHex_le pc
  simp only [printLine, line, frameFields, tabbed, List.intercalate_cons_cons,
    List.intercalate_singleton, List.length_append, List.length_cons, List.length_nil]
  omega

/-- A text that is shorter than the buffer is not truncated. -/
theorem snprintf_of_lt {size : Nat} {t : List Char} (h : t.length < size) : snprintf size t = t :=
  List.take_of_length_le (by omega)

/-! ## Line by line -/

theorem isField_nil : IsField [] := by decide

theorem isField_printInt (x : Int) : IsField (printInt x) := isField_of_clean (clean_printInt x)

theorem isField_printNat (n : Nat) : IsField (printNat n) := isField_printInt (.ofNat n)

theorem isField_printHex (n : Nat) : IsField (printHex n) := isField_of_clean (clean_printHex n)

theorem isField_headerFields (pid : Int32) : ∀ f ∈ headerFields pid, IsField f := by
  have hpid : IsField ("pid=".toList ++ printInt pid.toInt) := by
    refine isField_of_clean fun c hc ↦ ?_
    rcases List.mem_append.mp hc with hc | hc
    · have hall : ("pid=".toList.all fun c ↦ Clean c) = true := by decide
      exact of_decide_eq_true (List.all_eq_true.mp hall c hc)
    · exact clean_printInt _ c hc
  simp only [headerFields, List.forall_mem_cons]
  exact ⟨by decide, by decide, by decide, hpid, List.forall_mem_nil _⟩

theorem isField_moduleFields (exe : Field) (idx : Nat) (m : ModuleEntry) :
    ∀ f ∈ moduleFields exe idx m, IsField f := by
  simp only [moduleFields, List.forall_mem_cons]
  exact ⟨by decide, isField_printInt _, isField_printHex _, isField_printHex _, m.buildId.2,
    (m.printedPath exe).2, List.forall_mem_nil _⟩

theorem isField_eventFields (h : EventHdrBin) : ∀ f ∈ eventFields h, IsField f := by
  simp only [eventFields, List.forall_mem_cons]
  exact ⟨by decide, isField_printNat _, isField_printNat _, isField_printNat _,
    isField_printNat _, isField_printHex _, isField_printInt _, isField_printNat _,
    List.forall_mem_nil _⟩

theorem isField_frameFields (pc : UInt64) : ∀ f ∈ frameFields pc, IsField f := by
  simp only [frameFields, List.forall_mem_cons]
  exact ⟨by decide, isField_printHex _, List.forall_mem_nil _⟩

/-- The lines of an event, by their fields. -/
def Record.lines (x : Record) : List (List (List Char)) :=
  eventFields x.hdr :: x.pcs.map frameFields

/-- The lines of the trace file, by their fields. -/
def traceLines (pid : Int32) (exe : Field) (mods : List ModuleEntry) (xs : List Record) :
    List (List (List Char)) :=
  headerFields pid :: (mods.zipIdx.map fun m ↦ moduleFields exe m.2 m.1) ++ xs.flatMap Record.lines

theorem isField_traceLines (pid : Int32) (exe : Field) (mods : List ModuleEntry)
    (xs : List Record) : ∀ fs ∈ traceLines pid exe mods xs, ∀ f ∈ fs, IsField f := by
  intro fs hfs
  rcases List.mem_append.mp hfs with hfs | hfs
  · rcases List.mem_cons.mp hfs with rfl | hfs
    · exact isField_headerFields pid
    · obtain ⟨m, -, rfl⟩ := List.mem_map.mp hfs
      exact isField_moduleFields exe m.2 m.1
  · obtain ⟨x, -, hfs⟩ := List.mem_flatMap.mp hfs
    rcases List.mem_cons.mp hfs with rfl | hfs
    · exact isField_eventFields x.hdr
    · obtain ⟨pc, -, rfl⟩ := List.mem_map.mp hfs
      exact isField_frameFields pc

theorem Record.text_eq_flatMap (x : Record) : x.text = x.lines.flatMap printLine := by
  have hframe (pc : UInt64) :
      snprintf 128 (printLine (frameFields pc)) = printLine (frameFields pc) :=
    snprintf_of_lt ((length_frameLine_le pc).trans_lt (by decide))
  rw [text, lines, snprintf_of_lt ((length_eventLine_le x.hdr).trans_lt (by decide)),
    List.flatMap_cons, List.flatMap_map]
  simp only [hframe]

/-- The trace file is written line by line. -/
theorem traceText_eq_flatMap (pid : Int32) (exe : Field) (mods : List ModuleEntry)
    (xs : List Record) :
    traceText pid exe mods xs = (traceLines pid exe mods xs).flatMap printLine := by
  have htext : xs.flatMap Record.text = (xs.flatMap Record.lines).flatMap printLine := by
    rw [List.flatMap_assoc]
    exact congrArg (xs.flatMap ·) (funext Record.text_eq_flatMap)
  rw [traceText, traceLines, htext, List.flatMap_append, List.flatMap_cons, List.flatMap_map]
  rfl

/-- The lines of the trace file are the lines that were written. -/
theorem readLines_traceText (pid : Int32) (exe : Field) (mods : List ModuleEntry)
    (xs : List Record) :
    readLines (traceText pid exe mods xs) = (traceLines pid exe mods xs).map printLine := by
  have hone : ∀ l ∈ (traceLines pid exe mods xs).map tabbed, OneLine l := by
    intro l hl
    obtain ⟨fs, hfs, rfl⟩ := List.mem_map.mp hl
    exact oneLine_tabbed fun f hf ↦ (isField_traceLines pid exe mods xs fs hfs f hf).2.1
  have hread := readLines_flatMap_line hone
  rw [List.flatMap_map, List.map_map] at hread
  rw [traceText_eq_flatMap]
  exact hread

end DeadLockDetect.Runtime
