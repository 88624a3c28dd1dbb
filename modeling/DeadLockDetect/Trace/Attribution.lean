import DeadLockDetect.Analyzer.Symbolizer
import DeadLockDetect.Lib.SortedSearch
import DeadLockDetect.Trace.ModuleMap
import DeadLockDetect.Trace.RoundTrip

/-!
# From a program counter to its module

The runtime writes a module as a bias and one span that starts there, and the analyzer looks only
at the last module whose bias is not above the program counter.  The segments of a module need not
start at its bias, so another bias may lie between the bias of a module and its segments.
`attributed_iff` says which program counters come back to the module they belong to, through the
module table, the text of the trace and the search.
-/

namespace DeadLockDetect.Runtime

open Analyzer Bisect

/-! ## The search -/

/-- A program counter is attributed to a module if it lies in its span, and no other module comes
between its base and the program counter. -/
theorem findModule_sortBy_iff (pre : List Module) (m : Module) (post : List Module) (x : Int) :
    findModule (sortBy Module.base (pre ++ m :: post))
        ((sortBy Module.base (pre ++ m :: post)).map Module.base) x =
          some (rank Module.base pre m post, m) ↔
      (m.base ≤ x ∧ x < m.base + m.size) ∧
        (∀ n ∈ pre, n.base ≤ x → n.base ≤ m.base) ∧ ∀ n ∈ post, n.base ≤ x → n.base < m.base := by
  have hget := getElem?_sortBy_rank Module.base pre m post
  have hrank (hle : m.base ≤ x) := @bisectRight_eq_rank_iff _ _ _ Module.base pre post m x hle
  rw [findModule]
  constructor
  · intro h
    cases hfound : bisectRight ((sortBy Module.base (pre ++ m :: post)).map Module.base) x with
    | zero =>
        rw [hfound] at h
        cases h
    | succ i =>
        rw [hfound] at h
        dsimp only at h
        cases hi : (sortBy Module.base (pre ++ m :: post))[i]? with
        | none =>
            rw [hi] at h
            cases h
        | some n =>
            rw [hi] at h
            dsimp only at h
            split at h
            · cases h
            · rename_i hin
              cases h
              rw [not_or, not_lt, not_le] at hin
              exact ⟨hin, (hrank hin.1).mp hfound⟩
  · intro ⟨⟨hle, hlt⟩, hothers⟩
    rw [(hrank hle).mpr hothers]
    dsimp only
    rw [hget]
    exact if_neg (not_or_intro (not_lt.mpr hle) (not_le.mpr hlt))

/-! ## The table -/

/-- The modules as they are written, from the index `k` on. -/
def writtenModules (exe : Field) (k : Nat) (mods : List ModuleEntry) : List Module :=
  (mods.zipIdx k).map fun m ↦ m.1.module exe m.2

theorem writtenModules_append (exe : Field) (k : Nat) (pre : List ModuleEntry) (e : ModuleEntry)
    (post : List ModuleEntry) : writtenModules exe k (pre ++ e :: post) =
      writtenModules exe k pre ++
        e.module exe (k + pre.length) :: writtenModules exe (k + pre.length + 1) post := by
  rw [writtenModules, List.zipIdx_append, List.map_append, List.zipIdx_cons, List.map_cons]
  rfl

/-- The bases of the written modules are the biases of the recorded objects. -/
theorem forall_writtenModules_iff (mem : Memory) (exe : Field) (k : Nat) (infos : List DlPhdrInfo)
    (P : Int → Prop) : (∀ m ∈ writtenModules exe k (moduleTable mem infos), P m.base) ↔
      ∀ info ∈ infos, info.Recorded → P info.addr.toNat := by
  have hbase (mods : List ModuleEntry) :
      (∀ m ∈ writtenModules exe k mods, P m.base) ↔ ∀ e ∈ mods, P e.base.toNat := by
    induction mods generalizing k with
    | nil => exact iff_of_true (List.forall_mem_nil _) (List.forall_mem_nil _)
    | cons e mods ih =>
        rw [List.forall_mem_cons, ← ih (k + 1), writtenModules, List.zipIdx_cons, List.map_cons,
          List.forall_mem_cons]
        rfl
  rw [hbase]
  constructor
  · intro h info hinfo hrec
    refine h _ (List.mem_filterMap.mpr ⟨info, hinfo, iterCb_of_recorded mem hrec⟩)
  · intro h e he
    obtain ⟨info, hinfo, he⟩ := List.mem_filterMap.mp he
    obtain ⟨hrec, rfl⟩ := iterCb_eq_some_iff.mp he
    exact h info hinfo hrec

/-! ## From the loaded objects to the analyzer -/

/-- The address lies in a `PT_LOAD` segment of the object. -/
def DlPhdrInfo.Covers (info : DlPhdrInfo) (a : UInt64) : Prop :=
  ∃ ph ∈ info.phdrs, ph.type = ptLoad ∧ a - (info.addr + ph.vaddr) < ph.memsz

/-- The position in the sorted table of the module `m` of an object between `before` and `after`. -/
def positionOf (mem : Memory) (exe : Field) (before : List DlPhdrInfo) (m : Module)
    (after : List DlPhdrInfo) : Nat :=
  rank Module.base (writtenModules exe 0 (moduleTable mem before)) m
    (writtenModules exe ((moduleTable mem before).length + 1) (moduleTable mem after))

/-- In the trace of a process with these objects and events, the program counter is attributed to
the object between `before` and `after`, with the offset from its bias. -/
def Attributed (mem : Memory) (pid : Int32) (exe : Field) (es : List LogEvent)
    (before : List DlPhdrInfo) (info : DlPhdrInfo) (after : List DlPhdrInfo) (pc : UInt64) : Prop :=
  ∃ modules events e m,
    readTrace (traceText pid exe (moduleTable mem (before ++ info :: after))
      (es.map fun e ↦ unpack e.encode)) = some (pid.toInt, modules, events) ∧
    iterCb mem info = some e ∧ m = e.module exe (moduleTable mem before).length ∧
    findModule modules (modules.map Module.base) pc.toNat =
      some (positionOf mem exe before m after, m) ∧
    (pc.toNat : Int) - m.base = (pc.toNat : Int) - info.addr.toNat

variable {mem : Memory} {pid : Int32} {exe : Field} {es : List LogEvent}
  {before : List DlPhdrInfo} {info : DlPhdrInfo} {after : List DlPhdrInfo} {pc : UInt64}

/-- The attribution as a search in the sorted table. -/
theorem attributed_iff_findModule : Attributed mem pid exe es before info after pc ↔
    info.Recorded ∧
      let table := sortBy Module.base
        (writtenModules exe 0 (moduleTable mem (before ++ info :: after)))
      let m := (info.entry mem).module exe (moduleTable mem before).length
      findModule table (table.map Module.base) pc.toNat =
        some (positionOf mem exe before m after, m) := by
  constructor
  · rintro ⟨modules, events, e, m, hread, he, rfl, hfind, -⟩
    obtain ⟨hrec, rfl⟩ := iterCb_eq_some_iff.mp he
    rw [readTrace_written] at hread
    cases hread
    exact ⟨hrec, hfind⟩
  · intro ⟨hrec, hfind⟩
    exact ⟨_, _, _, _, readTrace_written pid exe _ es, iterCb_of_recorded mem hrec, rfl, hfind, rfl⟩

/-- The span of an object reaches over the program counter. -/
theorem lt_base_add_size_iff (hle : info.addr ≤ pc) :
    (pc.toNat : Int) < info.addr.toNat + info.scan.span.toNat ↔
      ∃ ph ∈ info.phdrs, ph.type = ptLoad ∧ pc - info.addr < ph.vaddr + ph.memsz := by
  have hsub := UInt64.toNat_sub_of_le pc info.addr hle
  rw [UInt64.le_iff_toNat_le] at hle
  rw [← info.lt_span_iff, UInt64.lt_iff_toNat_lt, hsub]
  omega

/-- **The program counters that are attributed to an object.** -/
theorem attributed_iff (mem : Memory) (pid : Int32) (exe : Field) (es : List LogEvent)
    (before : List DlPhdrInfo) (info : DlPhdrInfo) (after : List DlPhdrInfo) (pc : UInt64) :
    Attributed mem pid exe es before info after pc ↔
      info.addr ≤ pc ∧
      (∃ ph ∈ info.phdrs, ph.type = ptLoad ∧ pc - info.addr < ph.vaddr + ph.memsz) ∧
      (∀ n ∈ before, n.Recorded → n.addr ≤ pc → n.addr ≤ info.addr) ∧
      ∀ n ∈ after, n.Recorded → n.addr ≤ pc → n.addr < info.addr := by
  have hrec (h : ∃ ph ∈ info.phdrs, ph.type = ptLoad ∧ pc - info.addr < ph.vaddr + ph.memsz) :
      info.Recorded := by
    obtain ⟨ph, hph, hload, hlt⟩ := h
    exact ⟨ph, hph, hload, UInt64.pos_iff_ne_zero.mp (UInt64.lt_of_le_of_lt (UInt64.zero_le) hlt)⟩
  have htable (h : info.Recorded) : moduleTable mem (before ++ info :: after) =
      moduleTable mem before ++ info.entry mem :: moduleTable mem after := by
    rw [moduleTable, List.filterMap_append, List.filterMap_cons_some (iterCb_of_recorded mem h)]
    rfl
  have hcast (x y : UInt64) : (x.toNat : Int) ≤ y.toNat ↔ x ≤ y :=
    Int.ofNat_le.trans UInt64.le_iff_toNat_le.symm
  have hcastLt (x y : UInt64) : (x.toNat : Int) < y.toNat ↔ x < y :=
    Int.ofNat_lt.trans UInt64.lt_iff_toNat_lt.symm
  have hbefore : (∀ n ∈ writtenModules exe 0 (moduleTable mem before), n.base ≤ pc.toNat →
      n.base ≤ info.addr.toNat) ↔
        ∀ n ∈ before, n.Recorded → n.addr ≤ pc → n.addr ≤ info.addr := by
    rw [forall_writtenModules_iff mem exe _ _ fun b ↦ b ≤ pc.toNat → b ≤ info.addr.toNat]
    simp only [hcast]
  have hafter : (∀ n ∈ writtenModules exe ((moduleTable mem before).length + 1)
      (moduleTable mem after), n.base ≤ pc.toNat → n.base < info.addr.toNat) ↔
        ∀ n ∈ after, n.Recorded → n.addr ≤ pc → n.addr < info.addr := by
    rw [forall_writtenModules_iff mem exe _ _ fun b ↦ b ≤ pc.toNat → b < info.addr.toNat]
    simp only [hcast, hcastLt]
  have hfind := findModule_sortBy_iff
    (writtenModules exe 0 (moduleTable mem before))
    ((info.entry mem).module exe (moduleTable mem before).length)
    (writtenModules exe ((moduleTable mem before).length + 1) (moduleTable mem after)) pc.toNat
  rw [attributed_iff_findModule, ← hbefore, ← hafter]
  constructor
  · intro ⟨h, hfound⟩
    dsimp only at hfound
    rw [htable h, writtenModules_append, Nat.zero_add] at hfound
    obtain ⟨⟨hle, hlt⟩, hothers⟩ := hfind.mp hfound
    have hle := (hcast info.addr pc).mp hle
    exact ⟨hle, (lt_base_add_size_iff hle).mp hlt, hothers⟩
  · intro ⟨hle, hspan, hothers⟩
    refine ⟨hrec hspan, ?_⟩
    dsimp only
    rw [htable (hrec hspan), writtenModules_append, Nat.zero_add]
    exact hfind.mpr ⟨⟨(hcast info.addr pc).mpr hle, (lt_base_add_size_iff hle).mpr hspan⟩, hothers⟩

/-- An object without a bias whose segment starts at `0x400000`. -/
def unbiased : DlPhdrInfo where
  addr := 0
  name := none
  phdrs := [⟨ptLoad, 0x400000, 0x100000⟩]

/-- An object below it with a bias. -/
def biased : DlPhdrInfo where
  addr := 0x100000
  name := none
  phdrs := [⟨ptLoad, 0x100000, 0x100000⟩]

/-- The segments of the two objects are disjoint, but a program counter of the first one is looked
for in the second one. -/
theorem unbiased_not_attributed :
    (∀ a, unbiased.Covers a → ¬ biased.Covers a) ∧ unbiased.Covers 0x450000 ∧
      ¬ Attributed (fun _ ↦ 0) 1 ⟨[], isField_nil⟩ [] [] unbiased [biased] 0x450000 := by
  refine ⟨?_, ⟨_, List.mem_cons_self, rfl, by decide⟩, ?_⟩
  · rintro a ⟨ph, hph, -, hlt⟩ ⟨ph', hph', -, hlt'⟩
    rw [List.mem_singleton.mp hph, UInt64.lt_iff_toNat_lt, UInt64.toNat_sub] at hlt
    rw [List.mem_singleton.mp hph', UInt64.lt_iff_toNat_lt, UInt64.toNat_sub] at hlt'
    have ha := a.toNat_lt
    have hstart : (unbiased.addr + 0x400000).toNat = 0x400000 := by decide
    have hstart' : (biased.addr + 0x100000).toNat = 0x200000 := by decide
    have hsize : (0x100000 : UInt64).toNat = 0x100000 := by decide
    dsimp only at hlt hlt'
    rw [hstart, hsize] at hlt
    rw [hstart', hsize] at hlt'
    omega
  · intro h
    obtain ⟨-, hfind⟩ := attributed_iff_findModule.mp h
    have hnone : findModule
        (sortBy Module.base (writtenModules ⟨[], isField_nil⟩ 0
          (moduleTable (fun _ ↦ 0) ([] ++ unbiased :: [biased]))))
        ((sortBy Module.base (writtenModules ⟨[], isField_nil⟩ 0
          (moduleTable (fun _ ↦ 0) ([] ++ unbiased :: [biased])))).map Module.base)
        (0x450000 : UInt64).toNat = none := by decide
    cases hnone.symm.trans hfind

end DeadLockDetect.Runtime
