import DeadLockDetect.Trace.ModuleMap
import Mathlib.Data.List.Forall2

/-!
# The build id of a module

An object has any number of `PT_NOTE` segments, and each of them is a list of notes.
`iterCb_buildId_iff` says when `iter_cb` records the first build id that is in one of them: the
segments behind the first one are not searched.

A size within three bytes of `2 ^ 32` is rounded up to `0`, and the walk loses its way behind such a
note.  What it then takes for notes is whatever the bytes of the note are.
-/

namespace DeadLockDetect.Runtime

/-! ## Notes -/

/-- The number of bytes that fill up to a multiple of four. -/
def padding (n : Nat) : Nat := (n + 3) / 4 * 4 - n

/-- A note of a `PT_NOTE` segment, with the bytes that fill up its name and its descriptor. -/
structure Note where
  type : UInt32
  name : List UInt8
  namePad : List UInt8
  desc : List UInt8
  descPad : List UInt8
  name_lt : name.length < 2 ^ 32
  desc_lt : desc.length < 2 ^ 32
  length_namePad : namePad.length = padding name.length
  length_descPad : descPad.length = padding desc.length

namespace Note

/-- The fields of the header. -/
def header (n : Note) : List (Nat × Nat) :=
  [(4, n.name.length), (4, n.desc.length), (4, n.type.toNat)]

/-- The note as it lies in the memory. -/
def bytes (n : Note) : List UInt8 :=
  pack n.header ++ (n.name ++ (n.namePad ++ (n.desc ++ n.descPad)))

/-- The note is a build id: the name is the zero-terminated string `GNU` and the descriptor is not
empty. -/
def Wanted (n : Note) : Prop := n.type = ntGnuBuildId ∧ gnu <+: n.name ∧ n.desc ≠ []

instance (n : Note) : Decidable n.Wanted := inferInstanceAs (Decidable (_ ∧ _ ∧ _))

/-- The sizes of the note are not rounded up to `0`. -/
def Small (n : Note) : Prop := n.name.length + 3 < 2 ^ 32 ∧ n.desc.length + 3 < 2 ^ 32

instance (n : Note) : Decidable n.Small := inferInstanceAs (Decidable (_ ∧ _))

/-- The build id of the note as it is recorded. -/
def buildId (n : Note) : Field := ⟨hex n.desc, isField_hex n.desc⟩

end Note

/-- The notes up to the first build id. -/
def upToWanted : List Note → List Note
  | [] => []
  | n :: ns => if n.Wanted then [n] else n :: upToWanted ns

/-- The build id of an object with these notes in its `PT_NOTE` segments. -/
def expectedBuildId (segs : List (List Note)) : Field :=
  match segs.flatten.find? fun n ↦ n.Wanted with
  | some n => n.buildId
  | none => ⟨['-'], isField_dash⟩

/-! ## Bytes in the memory -/

theorem addrs_add (p : UInt64) (m n : Nat) :
    addrs p (m + n) = addrs p m ++ addrs (p + .ofNat m) n := by
  rw [addrs, List.range_add, List.map_append, List.map_map]
  refine congrArg _ (List.map_congr_left fun i _ ↦ ?_)
  rw [Function.comp_apply, UInt64.ofNat_add, UInt64.add_assoc]

theorem Memory.bytesAt_add (mem : Memory) (p : UInt64) (m n : Nat) :
    mem.bytesAt p (m + n) = mem.bytesAt p m ++ mem.bytesAt (p + .ofNat m) n := by
  rw [bytesAt, addrs_add, List.map_append]
  rfl

@[simp] theorem Memory.length_bytesAt (mem : Memory) (p : UInt64) (n : Nat) :
    (mem.bytesAt p n).length = n := by
  rw [bytesAt, addrs, List.length_map, List.length_map, List.length_range]

/-- These bytes lie in the memory, and there is an address behind them. -/
structure Memory.Holds (mem : Memory) (p : UInt64) (bs : List UInt8) : Prop where
  fits : p.toNat + bs.length < 2 ^ 64
  bytes : mem.bytesAt p bs.length = bs

namespace Memory.Holds

variable {mem : Memory} {p : UInt64} {bs bs' : List UInt8}

theorem toNat_add (h : mem.Holds p (bs ++ bs')) :
    (p + .ofNat bs.length).toNat = p.toNat + bs.length := by
  have hfits := h.fits
  rw [List.length_append] at hfits
  rw [UInt64.toNat_add, UInt64.toNat_ofNat', Nat.add_mod_mod, Nat.mod_eq_of_lt (by omega)]

theorem left (h : mem.Holds p (bs ++ bs')) : mem.Holds p bs := by
  have hfits := h.fits
  have hbytes := h.bytes
  rw [List.length_append, bytesAt_add] at hbytes
  rw [List.length_append] at hfits
  exact ⟨by omega, (List.append_inj hbytes (mem.length_bytesAt p _)).1⟩

theorem right (h : mem.Holds p (bs ++ bs')) : mem.Holds (p + .ofNat bs.length) bs' := by
  have hfits := h.fits
  have hbytes := h.bytes
  rw [List.length_append, bytesAt_add] at hbytes
  rw [List.length_append] at hfits
  refine ⟨?_, (List.append_inj hbytes (mem.length_bytesAt p _)).2⟩
  rw [h.toNat_add]
  omega

/-- The first bytes. -/
theorem take (h : mem.Holds p bs) {n : Nat} (hn : n ≤ bs.length) :
    mem.bytesAt p n = bs.take n := by
  have hsplit : mem.Holds p (bs.take n ++ bs.drop n) := by rwa [List.take_append_drop]
  have hbytes := hsplit.left.bytes
  rwa [List.length_take, Nat.min_eq_left hn] at hbytes

end Memory.Holds

/-! ## Reading a note -/

namespace Note

theorem length_header (n : Note) : (pack n.header).length = nhdrSize := length_pack _

theorem length_bytes (n : Note) : n.bytes.length =
    nhdrSize + (n.name.length + padding n.name.length +
      (n.desc.length + padding n.desc.length)) := by
  rw [bytes, List.length_append, length_header, List.length_append, List.length_append,
    List.length_append, n.length_namePad, n.length_descPad, Nat.add_assoc n.name.length]

variable {n : Note} {mem : Memory} {p : UInt64}

/-- The header that is read is the header of the note. -/
theorem nhdr_eq (h : mem.Holds p n.bytes) :
    mem.nhdr p = ⟨.ofNat n.name.length, .ofNat n.desc.length, n.type⟩ := by
  have hbytes : mem.bytesAt p nhdrSize = pack n.header := by
    rw [← n.length_header]
    exact h.left.bytes
  have hname : wordAt 0 4 (pack n.header) = n.name.length :=
    wordAt_pack [] [(4, n.desc.length), (4, n.type.toNat)] n.name_lt
  have hdesc : wordAt 4 4 (pack n.header) = n.desc.length :=
    wordAt_pack [(4, n.name.length)] [(4, n.type.toNat)] n.desc_lt
  have htype : wordAt 8 4 (pack n.header) = n.type.toNat :=
    wordAt_pack [(4, n.name.length), (4, n.desc.length)] [] n.type.toNat_lt
  rw [Memory.nhdr, hbytes, Nhdr.ofBytes, hname, hdesc, htype, UInt32.ofNat_toNat]

theorem toNat_roundUp_length {k : Nat} (h : k + 3 < 2 ^ 32) :
    (roundUp (.ofNat k)).toNat = k + padding k := by
  have hk : (UInt32.ofNat k).toNat = k :=
    UInt32.toNat_ofNat_of_lt' ((Nat.le_add_right k 3).trans_lt h)
  have hshort : Short (UInt32.ofNat k) := by rwa [Short, hk]
  rw [toNat_roundUp_of_short hshort, hk, padding]
  omega

/-- Where the descriptor is looked for. -/
theorem descAt_eq (h : mem.Holds p n.bytes) (hn : n.Small) :
    mem.descAt p = p.toNat + nhdrSize + (n.name.length + padding n.name.length) := by
  rw [Memory.descAt, nhdr_eq h, toNat_roundUp_length hn.1]

/-- The walk goes on behind the note. -/
theorem nextAt_eq (h : mem.Holds p n.bytes) (hn : n.Small) :
    mem.nextAt p = p.toNat + n.bytes.length := by
  rw [Memory.nextAt, descAt_eq h hn, nhdr_eq h, toNat_roundUp_length hn.2, length_bytes]
  omega

/-- The name that is compared. -/
theorem name_eq (h : mem.Holds p n.bytes) (hn : 4 ≤ n.name.length) :
    mem.bytesAt (p + 12) 4 = n.name.take 4 := by
  have hname : mem.Holds (p + 12) n.name := by
    have hright := h.right
    rw [n.length_header] at hright
    exact hright.left
  exact hname.take hn

/-- The descriptor that is read. -/
theorem desc_eq (h : mem.Holds p n.bytes) (hn : n.Small) :
    mem.bytesAt (.ofNat (mem.descAt p)) (mem.nhdr p).descsz.toNat = n.desc := by
  have hdescsz : (mem.nhdr p).descsz.toNat = n.desc.length := by
    rw [nhdr_eq h]
    exact UInt32.toNat_ofNat_of_lt' n.desc_lt
  have hdesc := h.right.right.right.left.bytes
  rw [n.length_header, n.length_namePad] at hdesc
  have hat : UInt64.ofNat (mem.descAt p) = p + .ofNat nhdrSize + .ofNat n.name.length +
      .ofNat (padding n.name.length) := by
    rw [descAt_eq h hn, UInt64.ofNat_add, UInt64.ofNat_add, UInt64.ofNat_add, UInt64.ofNat_toNat,
      UInt64.add_assoc (p + _)]
  rw [hdescsz, hat]
  exact hdesc

/-- What is taken for the build id. -/
theorem isBuildId_iff (h : mem.Holds p n.bytes) : mem.IsBuildId p ↔ n.Wanted := by
  have hfour : 4 ≤ UInt32.ofNat n.name.length ↔ 4 ≤ n.name.length := by
    rw [UInt32.le_iff_toNat_le, UInt32.toNat_ofNat_of_lt' n.name_lt]
    rfl
  have hdesc : 0 < UInt32.ofNat n.desc.length ↔ n.desc ≠ [] := by
    rw [UInt32.lt_iff_toNat_lt, UInt32.toNat_ofNat_of_lt' n.desc_lt]
    exact List.length_pos_iff
  rw [Memory.IsBuildId, Memory.Compared, nhdr_eq h, hfour, hdesc, Wanted, and_assoc]
  refine and_congr_right fun _ ↦ ?_
  constructor
  · intro ⟨hlen, hname, hne⟩
    rw [name_eq h hlen] at hname
    exact ⟨hname ▸ List.take_prefix 4 n.name, hne⟩
  · intro ⟨hgnu, hne⟩
    have hlen : 4 ≤ n.name.length := hgnu.length_le
    rw [name_eq h hlen]
    exact ⟨hlen, (List.prefix_iff_eq_take.mp hgnu).symm, hne⟩

end Note

/-! ## The walk -/

theorem find?_wanted_cons_of_pos {n : Note} {ns : List Note} (h : n.Wanted) :
    (n :: ns).find? (fun n ↦ n.Wanted) = some n := List.find?_cons_of_pos (decide_eq_true h)

theorem find?_wanted_cons_of_neg {n : Note} {ns : List Note} (h : ¬ n.Wanted) :
    (n :: ns).find? (fun n ↦ n.Wanted) = ns.find? fun n ↦ n.Wanted :=
  List.find?_cons_of_neg (by rwa [decide_eq_true_eq])

theorem wanted_of_find? {n : Note} {ns : List Note} (h : (ns.find? fun n ↦ n.Wanted) = some n) :
    n.Wanted := by
  have hn := List.find?_some h
  exact of_decide_eq_true hn

theorem not_wanted_of_find? {ns : List Note} (h : (ns.find? fun n ↦ n.Wanted) = none) :
    ∀ n ∈ ns, ¬ n.Wanted :=
  fun n hn hw ↦ List.find?_eq_none.mp h n hn (decide_eq_true hw)

/-- The walk over a list of notes finds the first build id. -/
theorem ends_noteTurn {mem : Memory} {stop : UInt64} {ns : List Note} {s : NoteWalk}
    (hmem : mem.Holds s.p (ns.flatMap Note.bytes))
    (hstop : stop.toNat = s.p.toNat + (ns.flatMap Note.bytes).length)
    (hsmall : ∀ n ∈ upToWanted ns, n.Small) :
    ∃ reads, Loop.Ends (noteTurn mem stop) s
      ⟨(ns.find? fun n ↦ n.Wanted).map Note.buildId, reads⟩ := by
  induction ns generalizing s with
  | nil =>
      have hover : ¬ mem.nextAt s.p ≤ stop.toNat := by
        rw [hstop]
        exact Nat.not_le_of_lt (mem.lt_nextAt s.p)
      have hstep := noteTurn_step mem stop s
      generalize hout : noteTurn mem stop s = out at hstep
      cases hstep with
      | done => exact ⟨_, .leave hout⟩
      | beyond => exact ⟨_, .leave hout⟩
      | found hnext => exact absurd hnext hover
      | other hnext => exact absurd hnext hover
      | skip hnext => exact absurd hnext hover
  | cons n ns ih =>
      rw [List.flatMap_cons] at hmem hstop
      rw [List.length_append] at hstop
      have hn : n.Small := by
        refine hsmall n ?_
        rw [upToWanted]
        split
        · exact List.mem_cons_self
        · exact List.mem_cons_self
      have hnote := hmem.left
      have hlt := stop.toNat_lt
      have hlen := n.length_bytes
      have hnext : mem.nextAt s.p ≤ stop.toNat := by
        rw [Note.nextAt_eq hnote hn]
        omega
      have hskip (hw : ¬ n.Wanted) (reads : List UInt64)
          (hturn : noteTurn mem stop s = .inr ⟨.ofNat (mem.nextAt s.p), reads⟩) :
          ∃ reads, Loop.Ends (noteTurn mem stop) s
            ⟨((n :: ns).find? fun n ↦ n.Wanted).map Note.buildId, reads⟩ := by
        have hp : UInt64.ofNat (mem.nextAt s.p) = s.p + UInt64.ofNat n.bytes.length := by
          rw [Note.nextAt_eq hnote hn, UInt64.ofNat_add, UInt64.ofNat_toNat]
        rw [hp] at hturn
        rw [upToWanted, if_neg hw] at hsmall
        have hrest : stop.toNat = (s.p + UInt64.ofNat n.bytes.length).toNat +
            (ns.flatMap Note.bytes).length := by
          rw [hmem.toNat_add]
          omega
        obtain ⟨reads', hends⟩ := @ih ⟨s.p + UInt64.ofNat n.bytes.length, reads⟩ hmem.right hrest
          (List.forall_mem_of_forall_mem_cons hsmall)
        rw [find?_wanted_cons_of_neg hw]
        exact ⟨reads', .turn hturn hends⟩
      have hstep := noteTurn_step mem stop s
      generalize hout : noteTurn mem stop s = out at hstep hskip
      cases hstep with
      | done h => exact absurd (mem.name_le hnext) (UInt64.not_le.mpr h)
      | beyond _ hover => exact absurd hnext (Nat.not_le_of_lt hover)
      | found _ hid =>
          rw [find?_wanted_cons_of_pos ((Note.isBuildId_iff hnote).mp hid)]
          have hbid : (⟨hex (mem.bytesAt (.ofNat (mem.descAt s.p)) (mem.nhdr s.p).descsz.toNat),
              isField_hex _⟩ : Field) = n.buildId := by
            apply Subtype.ext
            rw [Note.desc_eq hnote hn, Note.buildId]
          exact ⟨_, .leave (hout.trans (by rw [hbid, Option.map_some]))⟩
      | other _ _ hid => exact hskip (fun hw ↦ hid ((Note.isBuildId_iff hnote).mpr hw)) _ rfl
      | skip _ hcmp => exact hskip (fun hw ↦ hcmp ((Note.isBuildId_iff hnote).mpr hw).1) _ rfl

/-! ## The object -/

/-- The `PT_NOTE` segments among these program headers hold these notes. -/
def HoldsNotes (mem : Memory) (info : DlPhdrInfo) (segs : List (List Note)) : Prop :=
  List.Forall₂
    (fun ph ns ↦ info.addr + ph.vaddr ≠ 0 ∧
      ph.memsz.toNat = (ns.flatMap Note.bytes).length ∧
      mem.Holds (info.addr + ph.vaddr) (ns.flatMap Note.bytes))
    (info.phdrs.filter (·.type = ptNote)) segs

variable {mem : Memory} {info : DlPhdrInfo} {segs : List (List Note)}

/-- What is found in a segment that holds these notes. -/
theorem extractBuildId_eq {base size : UInt64} {ns : List Note}
    (hmem : mem.Holds base (ns.flatMap Note.bytes))
    (hsize : size.toNat = (ns.flatMap Note.bytes).length)
    (hsmall : ∀ n ∈ upToWanted ns, n.Small) :
    (extractBuildId mem base size).out = (ns.find? fun n ↦ n.Wanted).map Note.buildId := by
  have hstop : (base + size).toNat = base.toNat + (ns.flatMap Note.bytes).length := by
    rw [UInt64.toNat_add, hsize]
    exact Nat.mod_eq_of_lt hmem.fits
  obtain ⟨reads, hends⟩ := @ends_noteTurn mem (base + size) ns { p := base } hmem hstop hsmall
  have hresult := Loop.ends_result (isSome_run_noteTurn mem (base + size) base)
  exact congrArg NoteResult.out (hresult.eq hends)

/-- The build id is that of the first segment. -/
theorem buildId_eq (hnotes : HoldsNotes mem info segs)
    (hsmall : ∀ n ∈ upToWanted (segs.headD []), n.Small) :
    info.buildId mem = expectedBuildId [segs.headD []] := by
  have hne : ∀ ph ∈ info.phdrs, ph.type = ptNote → info.addr + ph.vaddr ≠ 0 := by
    intro ph hph htype
    have hall := (List.forall₂_and_left _ _).mp hnotes
    exact hall.1 ph (List.mem_filter.mpr ⟨hph, decide_eq_true htype⟩)
  have hscan := noteSeg_foldl hne {} rfl
  rw [← List.head?_filter] at hscan
  rw [HoldsNotes] at hnotes
  generalize info.phdrs.filter (·.type = ptNote) = phs at hnotes hscan
  cases hnotes with
  | nil =>
      have hnone : info.scan.noteSeg = 0 := hscan
      rw [DlPhdrInfo.buildId, if_neg (not_not_intro hnone)]
      rfl
  | @cons ph ns phs segs hhead _ =>
      obtain ⟨hzero, hsize, hmem⟩ := hhead
      have hseg : info.scan.noteSeg = info.addr + ph.vaddr ∧ info.scan.noteSegSize = ph.memsz :=
        hscan
      rw [DlPhdrInfo.buildId, hseg.1, hseg.2, if_pos hzero, extractBuildId_eq hmem hsize hsmall,
        expectedBuildId, List.flatten_cons, List.flatten_nil, List.append_nil, List.headD_cons]
      cases ns.find? fun n ↦ n.Wanted with
      | none => rfl
      | some n => rfl

/-- A build id is no dash. -/
theorem Note.Wanted.buildId_ne {n : Note} (h : n.Wanted) : n.buildId ≠ ⟨['-'], isField_dash⟩ := by
  intro heq
  obtain ⟨b, bs, hdesc⟩ := List.exists_cons_of_ne_nil h.2.2
  have hval : hex n.desc = ['-'] := congrArg Subtype.val heq
  rw [hdesc, hex, List.flatMap_cons] at hval
  have hlen := congrArg List.length hval
  simp only [List.length_append, List.length_cons, List.length_nil] at hlen
  omega

theorem expectedBuildId_of_none {segs : List (List Note)} (h : ∀ n ∈ segs.flatten, ¬ n.Wanted) :
    expectedBuildId segs = ⟨['-'], isField_dash⟩ := by
  have hfind : (segs.flatten.find? fun n ↦ n.Wanted) = none :=
    List.find?_eq_none.mpr fun n hn ↦ by rw [decide_eq_true_eq]; exact h n hn
  rw [expectedBuildId, hfind]

theorem expectedBuildId_of_some {segs : List (List Note)} {n : Note}
    (h : (segs.flatten.find? fun n ↦ n.Wanted) = some n) : expectedBuildId segs = n.buildId := by
  rw [expectedBuildId, h]

/-- The first segment is enough. -/
theorem expectedBuildId_headD_iff :
    expectedBuildId [segs.headD []] = expectedBuildId segs ↔
      (∃ n ∈ segs.headD [], n.Wanted) ∨ ∀ n ∈ segs.flatten, ¬ n.Wanted := by
  have hflat : segs.flatten = segs.headD [] ++ segs.tail.flatten := by
    cases segs with
    | nil => rfl
    | cons ns segs => rfl
  have hone : [segs.headD []].flatten = segs.headD [] := List.append_nil _
  cases hhead : (segs.headD []).find? fun n ↦ n.Wanted with
  | some n =>
      have hn := List.mem_of_find?_eq_some hhead
      have hw := wanted_of_find? hhead
      have hall : (segs.flatten.find? fun n ↦ n.Wanted) = some n := by
        rw [hflat, List.find?_append, hhead, Option.some_or]
      rw [expectedBuildId_of_some (hone ▸ hhead), expectedBuildId_of_some hall]
      exact iff_of_true rfl (.inl ⟨n, hn, hw⟩)
  | none =>
      have hnone := not_wanted_of_find? hhead
      rw [expectedBuildId_of_none (hone.symm ▸ hnone)]
      constructor
      · intro heq
        refine .inr fun n hn hw ↦ ?_
        cases hall : segs.flatten.find? fun n ↦ n.Wanted with
        | none => exact not_wanted_of_find? hall n hn hw
        | some m =>
            rw [expectedBuildId_of_some hall] at heq
            exact (wanted_of_find? hall).buildId_ne heq.symm
      · intro h
        refine (expectedBuildId_of_none (h.resolve_left fun ⟨n, hn, hw⟩ ↦ hnone n hn hw)).symm

/-- **The build id that is recorded.**  It is the first one among the notes of all segments if the
object is recorded at all, the first segment has a build id whenever any segment has one, and no
note before it has a size that is rounded up to `0`.  Without such a size the condition is also
necessary. -/
theorem iterCb_buildId_iff (hnotes : HoldsNotes mem info segs) :
    (info.Recorded ∧
        ((∃ n ∈ segs.headD [], n.Wanted) ∨ ∀ n ∈ segs.flatten, ¬ n.Wanted) ∧
        (∀ n ∈ upToWanted (segs.headD []), n.Small) →
      (iterCb mem info).map ModuleEntry.buildId = some (expectedBuildId segs)) ∧
    ((iterCb mem info).map ModuleEntry.buildId = some (expectedBuildId segs) →
      info.Recorded ∧
        ((∀ n ∈ upToWanted (segs.headD []), n.Small) →
          (∃ n ∈ segs.headD [], n.Wanted) ∨ ∀ n ∈ segs.flatten, ¬ n.Wanted)) := by
  rw [← expectedBuildId_headD_iff]
  constructor
  · intro ⟨hrec, hfirst, hsmall⟩
    rw [iterCb_of_recorded mem hrec]
    exact congrArg some ((buildId_eq hnotes hsmall).trans hfirst)
  · intro h
    obtain ⟨e, he, hid⟩ := Option.map_eq_some_iff.mp h
    obtain ⟨hrec, rfl⟩ := iterCb_eq_some_iff.mp he
    exact ⟨hrec, fun hsmall ↦ (buildId_eq hnotes hsmall).symm.trans hid⟩

/-! ## An object with two segments of notes -/

/-- A note of another type. -/
def propertyNote : Note where
  type := 5
  name := gnu
  namePad := []
  desc := [2, 0, 0, 192]
  descPad := []
  name_lt := by decide
  desc_lt := by decide
  length_namePad := rfl
  length_descPad := rfl

/-- A build id with two bytes of padding. -/
def buildIdNote : Note where
  type := ntGnuBuildId
  name := gnu
  namePad := []
  desc := [171, 205]
  descPad := [0, 0]
  name_lt := by decide
  desc_lt := by decide
  length_namePad := rfl
  length_descPad := rfl

/-- The two notes in the memory. -/
def twoNotes : Memory := fun a ↦
  if a < 8192 then propertyNote.bytes.getD (a - 4096).toNat 0
  else buildIdNote.bytes.getD (a - 8192).toNat 0

/-- An object with these addresses of `PT_NOTE` segments of one note. -/
def objectWith (notes : List UInt64) : DlPhdrInfo where
  addr := 0
  name := none
  phdrs := ⟨ptLoad, 4096, 8192⟩ :: notes.map fun p ↦ ⟨ptNote, p, 20⟩

theorem holds_propertyNote : twoNotes.Holds 4096 ([propertyNote].flatMap Note.bytes) :=
  ⟨by decide, by decide⟩

theorem holds_buildIdNote : twoNotes.Holds 8192 ([buildIdNote].flatMap Note.bytes) :=
  ⟨by decide, by decide⟩

/-- The build id is recorded if its segment is the first one. -/
theorem iterCb_buildId_first : (iterCb twoNotes (objectWith [8192, 4096])).map
    ModuleEntry.buildId = some (expectedBuildId [[buildIdNote], [propertyNote]]) := by
  have hnotes : HoldsNotes twoNotes (objectWith [8192, 4096]) [[buildIdNote], [propertyNote]] :=
    .cons ⟨by decide, rfl, holds_buildIdNote⟩ (.cons ⟨by decide, rfl, holds_propertyNote⟩ .nil)
  refine (iterCb_buildId_iff hnotes).1 ⟨⟨_, List.mem_cons_self, rfl, by decide⟩, ?_, by decide⟩
  exact .inl ⟨buildIdNote, List.mem_singleton_self _, by decide⟩

/-- It is not recorded if its segment is the second one. -/
theorem iterCb_buildId_second :
    HoldsNotes twoNotes (objectWith [4096, 8192]) [[propertyNote], [buildIdNote]] ∧
      (iterCb twoNotes (objectWith [4096, 8192])).map ModuleEntry.buildId ≠
        some (expectedBuildId [[propertyNote], [buildIdNote]]) := by
  have hnotes : HoldsNotes twoNotes (objectWith [4096, 8192]) [[propertyNote], [buildIdNote]] :=
    .cons ⟨by decide, rfl, holds_propertyNote⟩ (.cons ⟨by decide, rfl, holds_buildIdNote⟩ .nil)
  refine ⟨hnotes, fun h ↦ ?_⟩
  rw [iterCb_of_recorded twoNotes ⟨_, List.mem_cons_self, rfl, by decide⟩] at h
  have hfirst := (buildId_eq hnotes (by decide)).symm.trans (Option.some.inj h)
  rcases expectedBuildId_headD_iff.mp hfirst with ⟨n, hn, hw⟩ | hnone
  · rw [List.mem_singleton.mp hn] at hw
    exact absurd hw (by decide)
  · exact absurd (hnone buildIdNote (List.mem_cons_of_mem _ List.mem_cons_self)) (by decide)

end DeadLockDetect.Runtime
