import DeadLockDetect.Lib.LittleEndian
import DeadLockDetect.Lib.Loop
import DeadLockDetect.Trace.Format

/-!
# The module map

`module_map.cpp`: for every loaded object `dl_iterate_phdr` calls `iter_cb`, which records the bias,
the span and the build id of the object.  The build id is searched by `extract_build_id`, a walk
over the notes of one `PT_NOTE` segment.

## What is transcribed

* The memory of the process is a function of the address, and a pointer is a number of 64 bits that
  wraps around.  The sizes of a note have 32 bits and are rounded up in 32 bits, as in the source.
* The walk keeps the addresses that it reads, in this order: the header of a note, its first four
  name bytes, its descriptor.
* A null `dlpi_name` is `none`.  Of a program header the three fields are kept that are read.
-/

namespace DeadLockDetect.Runtime

open Text Numeral

/-! ## Memory -/

/-- The memory of the process. -/
abbrev Memory : Type := UInt64 → UInt8

/-- The addresses of `n` bytes. -/
def addrs (p : UInt64) (n : Nat) : List UInt64 := (List.range n).map fun i ↦ p + UInt64.ofNat i

/-- The `n` bytes from an address on. -/
def Memory.bytesAt (mem : Memory) (p : UInt64) (n : Nat) : List UInt8 := (addrs p n).map mem

/-! ## Notes -/

/-- `PT_LOAD`. -/
def ptLoad : UInt32 := 1

/-- `PT_NOTE`. -/
def ptNote : UInt32 := 4

/-- `NT_GNU_BUILD_ID`. -/
def ntGnuBuildId : UInt32 := 3

/-- `ElfW(Nhdr)`. -/
structure Nhdr where
  namesz : UInt32
  descsz : UInt32
  type : UInt32

/-- The size of a header. -/
def nhdrSize : Nat := 12

/-- The header in these bytes. -/
def Nhdr.ofBytes (bs : List UInt8) : Nhdr where
  namesz := UInt32.ofNat (wordAt 0 4 bs)
  descsz := UInt32.ofNat (wordAt 4 4 bs)
  type := UInt32.ofNat (wordAt 8 4 bs)

/-- The header at an address. -/
def Memory.nhdr (mem : Memory) (p : UInt64) : Nhdr := .ofBytes (mem.bytesAt p nhdrSize)

/-- `(x + 3) & ~3u`. -/
def roundUp (x : UInt32) : UInt32 := (x + 3) &&& ~~~3

/-- Rounding up goes through a sum that may overflow. -/
theorem toNat_roundUp (x : UInt32) : (roundUp x).toNat = (x.toNat + 3) % 2 ^ 32 / 4 * 4 := by
  have hmask : (~~~3 : UInt32).toBitVec = BitVec.allOnes 32 <<< 2 := by decide
  have hbits : (roundUp x).toBitVec = (x + 3).toBitVec >>> 2 <<< 2 := by
    rw [BitVec.shiftLeft_ushiftRight, ← hmask]
    rfl
  have hthree : (3 : UInt32).toNat = 3 := rfl
  rw [← UInt32.toNat_toBitVec, hbits, BitVec.toNat_shiftLeft, BitVec.toNat_ushiftRight,
    UInt32.toNat_toBitVec, UInt32.toNat_add, hthree, Nat.shiftRight_eq_div_pow, Nat.shiftLeft_eq]
  omega

/-- The sizes that rounding up does not take to `0`. -/
def Short (x : UInt32) : Prop := x.toNat + 3 < 2 ^ 32

instance (x : UInt32) : Decidable (Short x) := inferInstanceAs (Decidable (_ < _))

theorem toNat_roundUp_of_short {x : UInt32} (h : Short x) :
    (roundUp x).toNat = (x.toNat + 3) / 4 * 4 := by
  rw [toNat_roundUp, Nat.mod_eq_of_lt h]

/-- The four bytes that the name is compared with. -/
def gnu : List UInt8 := [71, 78, 85, 0]

/-- A hexadecimal digit. -/
def hexDigit (x : UInt8) : Char := "0123456789abcdef".toList.getD x.toNat '0'

/-- A descriptor in hexadecimal digits. -/
def hex (desc : List UInt8) : List Char :=
  desc.flatMap fun (b : UInt8) ↦ [hexDigit (b >>> 4 &&& 0xF), hexDigit (b &&& 0xF)]

theorem isField_dash : IsField ['-'] := by decide

theorem clean_hexDigit (x : UInt8) : Clean (hexDigit x) := by
  have hall : ('0' :: "0123456789abcdef".toList).all (fun c ↦ decide (Clean c)) = true := by decide
  refine of_decide_eq_true (List.all_eq_true.mp hall _ ?_)
  rw [hexDigit, List.getD_eq_getElem?_getD]
  cases h : "0123456789abcdef".toList[x.toNat]? with
  | none => exact List.mem_cons_self
  | some c => exact List.mem_cons_of_mem _ (List.mem_of_getElem? h)

theorem isField_hex (desc : List UInt8) : IsField (hex desc) := by
  refine isField_of_clean fun c hc ↦ ?_
  obtain ⟨b, -, hc⟩ := List.mem_flatMap.mp hc
  rcases List.mem_pair.mp hc with rfl | rfl
  · exact clean_hexDigit (b >>> 4 &&& 0xF)
  · exact clean_hexDigit (b &&& 0xF)

/-! ## The walk over the notes -/

/-- The variables of the loop in `extract_build_id`. -/
structure NoteWalk where
  p : UInt64
  reads : List UInt64 := []

/-- What `extract_build_id` returns: the text in `out` if it is true, and what was read. -/
structure NoteResult where
  out : Option Field
  reads : List UInt64

/-- The body of the loop in `extract_build_id`. -/
def noteTurn (mem : Memory) (stop : UInt64) (s : NoteWalk) : NoteResult ⊕ NoteWalk :=
  if s.p + 12 ≤ stop then
    let nh := mem.nhdr s.p
    let reads := s.reads ++ addrs s.p nhdrSize
    let name := s.p + 12
    let desc := name + (roundUp nh.namesz).toUInt64
    let next := desc + (roundUp nh.descsz).toUInt64
    if stop < next ∨ next < s.p then .inl ⟨none, reads⟩
    else if nh.type = ntGnuBuildId ∧ 4 ≤ nh.namesz then
      let reads := reads ++ addrs name 4
      if mem.bytesAt name 4 = gnu ∧ 0 < nh.descsz then
        let bs := mem.bytesAt desc nh.descsz.toNat
        .inl ⟨some ⟨hex bs, isField_hex bs⟩, reads ++ addrs desc nh.descsz.toNat⟩
      else .inr ⟨next, reads⟩
    else .inr ⟨next, reads⟩
  else .inl ⟨none, s.reads⟩

/-! ### What a turn does -/

namespace Memory

variable (mem : Memory)

/-- Where the descriptor of the note at `p` starts. -/
def descAt (p : UInt64) : Nat := p.toNat + nhdrSize + (roundUp (mem.nhdr p).namesz).toNat

/-- Where the note behind the note at `p` starts. -/
def nextAt (p : UInt64) : Nat := mem.descAt p + (roundUp (mem.nhdr p).descsz).toNat

/-- The name of the note at `p` is compared. -/
def Compared (p : UInt64) : Prop := (mem.nhdr p).type = ntGnuBuildId ∧ 4 ≤ (mem.nhdr p).namesz

/-- The note at `p` is taken for a build id. -/
def IsBuildId (p : UInt64) : Prop :=
  mem.Compared p ∧ mem.bytesAt (p + 12) 4 = gnu ∧ 0 < (mem.nhdr p).descsz

theorem le_descAt (p : UInt64) : p.toNat + nhdrSize ≤ mem.descAt p := Nat.le_add_right _ _

theorem le_nextAt (p : UInt64) : mem.descAt p ≤ mem.nextAt p := Nat.le_add_right _ _

theorem lt_nextAt (p : UInt64) : p.toNat < mem.nextAt p :=
  (Nat.lt_add_of_pos_right (by decide : 0 < nhdrSize)).trans_le
    ((mem.le_descAt p).trans (mem.le_nextAt p))

/-- The pointer `name` of a note that ends in the segment. -/
theorem toNat_name {p stop : UInt64} (h : mem.nextAt p ≤ stop.toNat) :
    (p + 12).toNat = p.toNat + nhdrSize := by
  have hle := ((mem.le_descAt p).trans (mem.le_nextAt p)).trans h
  rw [UInt64.toNat_add]
  exact Nat.mod_eq_of_lt (hle.trans_lt stop.toNat_lt)

/-- A note that ends in the segment has its header there. -/
theorem name_le {p stop : UInt64} (h : mem.nextAt p ≤ stop.toNat) : p + 12 ≤ stop := by
  rw [UInt64.le_iff_toNat_le, mem.toNat_name h]
  exact (mem.le_descAt p).trans ((mem.le_nextAt p).trans h)

/-- The pointer `desc`. -/
theorem desc_eq (p : UInt64) :
    p + 12 + (roundUp (mem.nhdr p).namesz).toUInt64 = UInt64.ofNat (mem.descAt p) := by
  apply UInt64.toNat_inj.mp
  rw [UInt64.toNat_add, UInt64.toNat_add, UInt32.toNat_toUInt64, Nat.mod_add_mod,
    UInt64.toNat_ofNat']
  rfl

/-- The pointer `next`. -/
theorem next_eq (p : UInt64) :
    UInt64.ofNat (mem.descAt p) + (roundUp (mem.nhdr p).descsz).toUInt64 =
      UInt64.ofNat (mem.nextAt p) := by
  apply UInt64.toNat_inj.mp
  rw [UInt64.toNat_add, UInt64.toNat_ofNat', UInt32.toNat_toUInt64, Nat.mod_add_mod,
    UInt64.toNat_ofNat']
  rfl

/-- The test for the end of the segment finds the notes that reach over it, also when the pointer
wraps around. -/
theorem test_iff (p stop : UInt64) :
    (stop < UInt64.ofNat (mem.nextAt p) ∨ UInt64.ofNat (mem.nextAt p) < p) ↔
      stop.toNat < mem.nextAt p := by
  rw [UInt64.lt_iff_toNat_lt, UInt64.lt_iff_toNat_lt, UInt64.toNat_ofNat']
  have hp := p.toNat_lt
  have hstop := stop.toNat_lt
  have hname := (roundUp (mem.nhdr p).namesz).toNat_lt
  have hdesc := (roundUp (mem.nhdr p).descsz).toNat_lt
  have hle := mem.lt_nextAt p
  have hlt : mem.nextAt p < p.toNat + 2 ^ 64 := by
    rw [nextAt, descAt, nhdrSize]
    omega
  generalize mem.nextAt p = next at *
  omega

end Memory

/-- What a turn can do. -/
inductive NoteStep (mem : Memory) (stop : UInt64) (s : NoteWalk) : NoteResult ⊕ NoteWalk → Prop
  /-- No header fits any more. -/
  | done (h : stop < s.p + 12) : NoteStep mem stop s (.inl ⟨none, s.reads⟩)
  /-- The note reaches over the end of the segment. -/
  | beyond (hp : s.p + 12 ≤ stop) (hnext : stop.toNat < mem.nextAt s.p) :
      NoteStep mem stop s (.inl ⟨none, s.reads ++ addrs s.p nhdrSize⟩)
  /-- The note is the build id. -/
  | found (hnext : mem.nextAt s.p ≤ stop.toNat) (h : mem.IsBuildId s.p) :
      NoteStep mem stop s (.inl
        ⟨some ⟨hex (mem.bytesAt (.ofNat (mem.descAt s.p)) (mem.nhdr s.p).descsz.toNat),
            isField_hex _⟩,
          s.reads ++ addrs s.p nhdrSize ++ addrs (s.p + 12) 4 ++
            addrs (.ofNat (mem.descAt s.p)) (mem.nhdr s.p).descsz.toNat⟩)
  /-- The name or the length of the descriptor is another. -/
  | other (hnext : mem.nextAt s.p ≤ stop.toNat) (hcmp : mem.Compared s.p)
      (h : ¬ mem.IsBuildId s.p) :
      NoteStep mem stop s (.inr
        ⟨.ofNat (mem.nextAt s.p), s.reads ++ addrs s.p nhdrSize ++ addrs (s.p + 12) 4⟩)
  /-- The name need not be read. -/
  | skip (hnext : mem.nextAt s.p ≤ stop.toNat) (hcmp : ¬ mem.Compared s.p) :
      NoteStep mem stop s (.inr ⟨.ofNat (mem.nextAt s.p), s.reads ++ addrs s.p nhdrSize⟩)

theorem noteTurn_step (mem : Memory) (stop : UInt64) (s : NoteWalk) :
    NoteStep mem stop s (noteTurn mem stop s) := by
  by_cases hp : s.p + 12 ≤ stop
  · simp only [noteTurn, if_pos hp, mem.desc_eq, mem.next_eq, mem.test_iff]
    by_cases hnext : stop.toNat < mem.nextAt s.p
    · rw [if_pos hnext]
      exact .beyond hp hnext
    · rw [if_neg hnext]
      have hle := Nat.le_of_not_lt hnext
      by_cases hcmp : (mem.nhdr s.p).type = ntGnuBuildId ∧ 4 ≤ (mem.nhdr s.p).namesz
      · rw [if_pos hcmp]
        by_cases h : mem.bytesAt (s.p + 12) 4 = gnu ∧ 0 < (mem.nhdr s.p).descsz
        · rw [if_pos h]
          exact .found hle ⟨hcmp, h⟩
        · rw [if_neg h]
          exact .other hle hcmp fun hid ↦ h hid.2
      · rw [if_neg hcmp]
        exact .skip hle hcmp
  · rw [noteTurn, if_neg hp]
    exact .done (UInt64.not_le.mp hp)

/-- Every further turn starts behind the one before it. -/
theorem noteTurn_lt {mem : Memory} {stop : UInt64} (s s' : NoteWalk)
    (h : noteTurn mem stop s = .inr s') : 2 ^ 64 - s'.p.toNat < 2 ^ 64 - s.p.toNat := by
  have hlt := s.p.toNat_lt
  suffices hp : s.p.toNat < s'.p.toNat by omega
  have hpos (hnext : mem.nextAt s.p ≤ stop.toNat) :
      s.p.toNat < (UInt64.ofNat (mem.nextAt s.p)).toNat := by
    rw [UInt64.toNat_ofNat_of_lt' (hnext.trans_lt stop.toNat_lt)]
    exact mem.lt_nextAt s.p
  have hstep := noteTurn_step mem stop s
  rw [h] at hstep
  cases hstep with
  | other hnext => exact hpos hnext
  | skip hnext => exact hpos hnext

theorem isSome_run_noteTurn (mem : Memory) (stop base : UInt64) :
    (Loop.run (noteTurn mem stop) (2 ^ 64 + 1) { p := base }).isSome :=
  Loop.isSome_run (fun s ↦ 2 ^ 64 - s.p.toNat) noteTurn_lt
    (Nat.lt_succ_of_le (Nat.sub_le _ _))

/-- `extract_build_id`. -/
def extractBuildId (mem : Memory) (base size : UInt64) : NoteResult :=
  Loop.result (noteTurn mem (base + size)) (2 ^ 64 + 1) { p := base }
    (isSome_run_noteTurn mem (base + size) base)

/-! ## The objects -/

/-- `ElfW(Phdr)`. -/
structure Phdr where
  type : UInt32
  vaddr : UInt64
  memsz : UInt64

/-- `dl_phdr_info`. -/
structure DlPhdrInfo where
  addr : UInt64
  name : Option Field
  phdrs : List Phdr

/-- The variables of the loop in `iter_cb`. -/
structure PhdrScan where
  span : UInt64 := 0
  noteSeg : UInt64 := 0
  noteSegSize : UInt64 := 0

/-- The body of the loop in `iter_cb`. -/
def scanPhdr (addr : UInt64) (s : PhdrScan) (ph : Phdr) : PhdrScan :=
  if ph.type = ptLoad then
    if s.span < ph.vaddr + ph.memsz then { s with span := ph.vaddr + ph.memsz } else s
  else if ph.type = ptNote ∧ s.noteSeg = 0 then
    { s with noteSeg := addr + ph.vaddr, noteSegSize := ph.memsz }
  else s

/-- The loop in `iter_cb`. -/
def DlPhdrInfo.scan (info : DlPhdrInfo) : PhdrScan := info.phdrs.foldl (scanPhdr info.addr) {}

/-- `iter_cb`: what is recorded of an object. -/
def iterCb (mem : Memory) (info : DlPhdrInfo) : Option ModuleEntry :=
  let s := info.scan
  if s.span = 0 then none
  else
    let e : ModuleEntry := {
      base := info.addr
      size := s.span
      buildId := ⟨['-'], isField_dash⟩
      path := info.name.getD ⟨[], isField_nil⟩ }
    let bid := if s.noteSeg ≠ 0 then (extractBuildId mem s.noteSeg s.noteSegSize).out else none
    some { e with buildId := bid.getD e.buildId }

/-- The build id that is recorded of an object. -/
def DlPhdrInfo.buildId (mem : Memory) (info : DlPhdrInfo) : Field :=
  if info.scan.noteSeg ≠ 0 then
    (extractBuildId mem info.scan.noteSeg info.scan.noteSegSize).out.getD ⟨['-'], isField_dash⟩
  else ⟨['-'], isField_dash⟩

/-! ### The program headers -/

/-- The span reaches as far as the ends of the `PT_LOAD` segments. -/
theorem lt_span_foldl_iff (addr x : UInt64) (phs : List Phdr) (s : PhdrScan) :
    x < (phs.foldl (scanPhdr addr) s).span ↔
      x < s.span ∨ ∃ ph ∈ phs, ph.type = ptLoad ∧ x < ph.vaddr + ph.memsz := by
  induction phs generalizing s with
  | nil => exact ⟨.inl, fun h ↦ h.resolve_right fun ⟨_, hph, _⟩ ↦ absurd hph List.not_mem_nil⟩
  | cons ph phs ih =>
      have hhead : x < (scanPhdr addr s ph).span ↔
          x < s.span ∨ ph.type = ptLoad ∧ x < ph.vaddr + ph.memsz := by
        rw [scanPhdr]
        split
        · rename_i hload
          split
          · rename_i hlt
            exact ⟨fun h ↦ .inr ⟨hload, h⟩,
              fun h ↦ h.elim (fun h ↦ UInt64.lt_trans h hlt) fun h ↦ h.2⟩
          · rename_i hle
            exact ⟨.inl, fun h ↦ h.elim id fun h ↦ UInt64.lt_of_lt_of_le h.2 (UInt64.not_lt.mp hle)⟩
        · rename_i hload
          have hspan : x < s.span ↔ x < s.span ∨ ph.type = ptLoad ∧ x < ph.vaddr + ph.memsz :=
            ⟨.inl, fun h ↦ h.resolve_right fun h ↦ hload h.1⟩
          split
          · exact hspan
          · exact hspan
      rw [List.foldl_cons, ih, hhead, or_assoc]
      simp only [List.mem_cons, exists_eq_or_imp]

theorem DlPhdrInfo.lt_span_iff (info : DlPhdrInfo) (x : UInt64) :
    x < info.scan.span ↔ ∃ ph ∈ info.phdrs, ph.type = ptLoad ∧ x < ph.vaddr + ph.memsz :=
  (lt_span_foldl_iff info.addr x info.phdrs {}).trans
    (or_iff_right (UInt64.not_lt.mpr (UInt64.zero_le)))

/-- The object is recorded: some `PT_LOAD` segment does not end at `0`. -/
def DlPhdrInfo.Recorded (info : DlPhdrInfo) : Prop :=
  ∃ ph ∈ info.phdrs, ph.type = ptLoad ∧ ph.vaddr + ph.memsz ≠ 0

theorem DlPhdrInfo.span_ne_zero_iff (info : DlPhdrInfo) : info.scan.span ≠ 0 ↔ info.Recorded := by
  simp only [← UInt64.pos_iff_ne_zero, lt_span_iff, Recorded]

theorem noteSeg_scanPhdr {addr : UInt64} {s : PhdrScan} {ph : Phdr}
    (h : ¬ (ph.type = ptNote ∧ s.noteSeg = 0)) :
    (scanPhdr addr s ph).noteSeg = s.noteSeg ∧
      (scanPhdr addr s ph).noteSegSize = s.noteSegSize := by
  rw [scanPhdr, if_neg h]
  split
  · split
    · exact ⟨rfl, rfl⟩
    · exact ⟨rfl, rfl⟩
  · exact ⟨rfl, rfl⟩

/-- A segment that is found is kept. -/
theorem noteSeg_foldl_of_ne {addr : UInt64} {phs : List Phdr} {s : PhdrScan}
    (hs : s.noteSeg ≠ 0) :
    (phs.foldl (scanPhdr addr) s).noteSeg = s.noteSeg ∧
      (phs.foldl (scanPhdr addr) s).noteSegSize = s.noteSegSize := by
  induction phs generalizing s with
  | nil => exact ⟨rfl, rfl⟩
  | cons ph phs ih =>
      have hkeep := @noteSeg_scanPhdr addr s ph fun h ↦ hs h.2
      rw [List.foldl_cons, ← hkeep.1, ← hkeep.2]
      exact ih (hkeep.1.trans_ne hs)

/-- The walk is given the first `PT_NOTE` segment. -/
theorem noteSeg_foldl {addr : UInt64} {phs : List Phdr}
    (hne : ∀ ph ∈ phs, ph.type = ptNote → addr + ph.vaddr ≠ 0) (s : PhdrScan)
    (hs : s.noteSeg = 0) :
    match phs.find? (·.type = ptNote) with
    | none => (phs.foldl (scanPhdr addr) s).noteSeg = 0
    | some ph => (phs.foldl (scanPhdr addr) s).noteSeg = addr + ph.vaddr ∧
        (phs.foldl (scanPhdr addr) s).noteSegSize = ph.memsz := by
  induction phs generalizing s with
  | nil => exact hs
  | cons ph phs ih =>
      have hrest := List.forall_mem_of_forall_mem_cons hne
      rw [List.foldl_cons]
      by_cases hnote : ph.type = ptNote
      · have hload : ph.type ≠ ptLoad := fun h ↦ absurd (h.symm.trans hnote) (by decide)
        have hfind : (ph :: phs).find? (·.type = ptNote) = some ph :=
          List.find?_cons_of_pos (decide_eq_true hnote)
        rw [hfind, scanPhdr, if_neg hload, if_pos ⟨hnote, hs⟩]
        exact noteSeg_foldl_of_ne (hne ph List.mem_cons_self hnote)
      · have hfind : (ph :: phs).find? (·.type = ptNote) = phs.find? (·.type = ptNote) :=
          List.find?_cons_of_neg (by rwa [decide_eq_true_eq])
        rw [hfind]
        exact ih hrest _ ((noteSeg_scanPhdr fun h ↦ hnote h.1).1.trans hs)

/-- What is recorded of an object. -/
def DlPhdrInfo.entry (mem : Memory) (info : DlPhdrInfo) : ModuleEntry where
  base := info.addr
  size := info.scan.span
  buildId := info.buildId mem
  path := info.name.getD ⟨[], isField_nil⟩

theorem iterCb_eq_some_iff {mem : Memory} {info : DlPhdrInfo} {e : ModuleEntry} :
    iterCb mem info = some e ↔ info.Recorded ∧ info.entry mem = e := by
  have hentry : iterCb mem info = if info.scan.span = 0 then none else some (info.entry mem) := by
    rw [iterCb, DlPhdrInfo.entry, DlPhdrInfo.buildId]
    split
    · rfl
    · split
      · rfl
      · rfl
  rw [hentry, ← info.span_ne_zero_iff]
  split
  · rename_i hspan
    exact iff_of_false (fun h ↦ by cases h) fun h ↦ h.1 hspan
  · rename_i hspan
    exact ⟨fun h ↦ ⟨hspan, Option.some.inj h⟩, fun h ↦ congrArg some h.2⟩

theorem iterCb_of_recorded (mem : Memory) {info : DlPhdrInfo} (h : info.Recorded) :
    iterCb mem info = some (info.entry mem) := iterCb_eq_some_iff.mpr ⟨h, rfl⟩

/-- What `dl_iterate_phdr` collects with `iter_cb`. -/
def moduleTable (mem : Memory) (infos : List DlPhdrInfo) : List ModuleEntry :=
  infos.filterMap (iterCb mem)

end DeadLockDetect.Runtime
