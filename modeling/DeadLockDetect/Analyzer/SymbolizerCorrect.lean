import DeadLockDetect.Analyzer.Symbolizer

/-!
# A batch agrees with one program counter at a time

The symbolizer removes repeated program counters, sorts them into buckets and matches the answers
of `addr2line` to them by position.  `symbolizeAll_eq` says that nothing of this is visible: every
frame becomes what is found for its own program counter.

The proof follows the three stages.  `get?_symbolizeOneModule` is about the lines of one batch,
`Bucketed` about the buckets after some of the program counters, and `get?_results` about the
results after all buckets.
-/

namespace DeadLockDetect.Analyzer

open Text Numeral

/-! ## One module -/

/-- `addr2line` answers every offset with two lines, the function and the place, which depend on the
file and the offset only. -/
structure Toolbox.Answers (t : Toolbox) (func loc : List Char → Int → List Char) : Prop where
  func_line : ∀ exe off, OneLine (func exe off)
  loc_line : ∀ exe off, OneLine (loc exe off)
  output : ∀ (exe : List Char) (offsets : List Int), t.addr2line exe (offsets.flatMap queryLine) =
    some (offsets.flatMap fun off ↦ line (func exe off) ++ line (loc exe off))

/-- The two lines for the offset at a position. -/
theorem getElem?_pairs (f g : Int → List Char) (offsets : List Int) (rest : List (List Char))
    {i : Nat} {off : Int} (h : offsets[i]? = some off) :
    ((offsets.flatMap fun off ↦ [f off, g off]) ++ rest)[i * 2]? = some (f off) ∧
      ((offsets.flatMap fun off ↦ [f off, g off]) ++ rest)[i * 2 + 1]? = some (g off) := by
  induction offsets generalizing i with
  | nil => cases h
  | cons o offsets ih =>
      cases i with
      | zero =>
          cases h
          exact ⟨rfl, rfl⟩
      | succ i =>
          rw [Nat.succ_mul]
          exact ih h

section

variable {t : Toolbox} {func loc : List Char → Int → List Char}

/-- The lines of the answer, two for each offset. -/
theorem Toolbox.Answers.lines_eq (h : t.Answers func loc) (exe : List Char) (offsets : List Int) :
    (universalNewlines (offsets.flatMap fun off ↦ line (func exe off) ++ line (loc exe off))).splitOn
      '\n' = (offsets.flatMap fun off ↦ [func exe off, loc exe off]) ++ [[]] := by
  have hone : ∀ l ∈ offsets.flatMap fun off ↦ [func exe off, loc exe off], OneLine l := by
    intro l hl
    obtain ⟨off, -, hl⟩ := List.mem_flatMap.mp hl
    rcases List.mem_cons.mp hl with rfl | hl
    · exact h.func_line exe off
    · rw [List.mem_singleton.mp hl]
      exact h.loc_line exe off
  have htext : (offsets.flatMap fun off ↦ line (func exe off) ++ line (loc exe off)) =
      (offsets.flatMap fun off ↦ [func exe off, loc exe off]).flatMap line := by
    rw [List.flatMap_assoc]
    refine congrArg (offsets.flatMap ·) (funext fun off ↦ ?_)
    rw [List.flatMap_cons, List.flatMap_singleton]
  rw [htext, universalNewlines_flatMap_line hone,
    splitOn_flatMap_line fun l hl ↦ (hone l hl).1]

/-- A batch gives every program counter the answer for its own offset. -/
theorem get?_symbolizeOneModule (h : t.Answers func loc) (exe bn : List Char) (base : Int)
    (pcs : List Int) (results : Dict Int SymResult) (pc : Int) :
    (t.symbolizeOneModule exe (pcs.map fun pc ↦ pc - base) pcs bn results).get? pc =
      if pc ∈ pcs then
        some (.ofLines bn (pc - base) (some (func exe (pc - base))) (some (loc exe (pc - base))))
      else results.get? pc := by
  unfold Toolbox.symbolizeOneModule
  split
  · rename_i hnil
    rw [List.map_eq_nil_iff.mp hnil, if_neg List.not_mem_nil]
  · rw [h.output]
    dsimp only
    rw [h.lines_eq, ← List.map_prod_left_eq_zip]
    rw [Dict.get?_foldl_set (fun x : (Int × Int) × Nat ↦ x.1.1) _ (fun pc ↦
      .ofLines bn (pc - base) (some (func exe (pc - base))) (some (loc exe (pc - base))))]
    · have hkeys : (((pcs.map fun pc ↦ (pc, pc - base)).zipIdx).map fun x ↦ x.1.1) = pcs := by
        calc (((pcs.map fun pc ↦ (pc, pc - base)).zipIdx).map fun x ↦ x.1.1)
          _ = (((pcs.map fun pc ↦ (pc, pc - base)).zipIdx).map Prod.fst).map Prod.fst :=
              List.map_map.symm
          _ = (pcs.map fun pc ↦ (pc, pc - base)).map Prod.fst := by rw [List.zipIdx_map_fst]
          _ = pcs := List.map_map.trans (List.map_id _)
      rw [hkeys]
    · intro x hx
      have hpc := List.mem_zipIdx_iff_getElem?.mp hx
      rw [List.getElem?_map] at hpc
      obtain ⟨pc, hpc, he⟩ := Option.map_eq_some_iff.mp hpc
      have hoff : (pcs.map fun pc ↦ pc - base)[x.2]? = some (pc - base) := by
        rw [List.getElem?_map, hpc]
        rfl
      obtain ⟨hfunc, hloc⟩ := getElem?_pairs (func exe) (loc exe) _ [[]] hoff
      rw [hfunc, hloc, ← he]

end

/-! ## The buckets -/

/-- The program counters that have been looked at are in the buckets of their modules, or have
their result. -/
structure Bucketed (modules : List Module) (seen : List Int)
    (s : Dict Nat Bucket × Dict Int SymResult) : Prop where
  module : ∀ key b, s.1.get? key = some b → modules[key]? = some b.module
  offsets : ∀ key b, s.1.get? key = some b → b.offsets = b.pcs.map fun pc ↦ pc - b.module.base
  found : ∀ key b, s.1.get? key = some b → ∀ pc ∈ b.pcs,
    findModule modules (modules.map Module.base) pc = some (key, b.module)
  all : ∀ pc ∈ seen, ∀ key m, findModule modules (modules.map Module.base) pc = some (key, m) →
    ∃ b, s.1.get? key = some b ∧ pc ∈ b.pcs
  outside : ∀ pc ∈ seen, findModule modules (modules.map Module.base) pc = none →
    s.2.get? pc = some { offset := pc }

theorem getElem?_of_findModule {modules : List Module} {bases : List Int} {pc : Int} {key : Nat}
    {m : Module} (h : findModule modules bases pc = some (key, m)) : modules[key]? = some m := by
  unfold findModule at h
  split at h
  · cases h
  · split at h
    · cases h
    · rename_i i _ m' hm
      split at h
      · cases h
      · cases h
        exact hm

/-- A bucket with one more program counter. -/
def Bucket.add (b : Bucket) (pc : Int) : Bucket :=
  ⟨b.module, b.pcs ++ [pc], b.offsets ++ [pc - b.module.base]⟩

section

variable {modules : List Module} {seen : List Int} {s : Dict Nat Bucket × Dict Int SymResult}
  {pc : Int} {key : Nat} {m : Module}

theorem intoBucket_of_none (h : findModule modules (modules.map Module.base) pc = none) :
    intoBucket modules s pc = (s.1, s.2.set pc { offset := pc }) := by
  rw [intoBucket, h]

/-- A program counter comes into the bucket of its module, which is new or has been there. -/
theorem Bucketed.exists_bucket (hs : Bucketed modules seen s)
    (h : findModule modules (modules.map Module.base) pc = some (key, m)) :
    ∃ b : Bucket, intoBucket modules s pc = (s.1.set key (b.add pc), s.2) ∧ b.module = m ∧
      (b.offsets = b.pcs.map fun pc ↦ pc - b.module.base) ∧
      (∀ pc ∈ b.pcs, findModule modules (modules.map Module.base) pc = some (key, b.module)) ∧
      ∀ b', s.1.get? key = some b' → b' = b := by
  cases hb : s.1.get? key with
  | none =>
      refine ⟨⟨m, [], []⟩, ?_, rfl, rfl, fun _ hpc ↦ absurd hpc List.not_mem_nil,
        fun _ hb' ↦ by cases hb'⟩
      rw [intoBucket, h]
      dsimp only
      rw [hb]
      rfl
  | some b =>
      have hm : b.module = m :=
        Option.some.inj ((hs.module key b hb).symm.trans (getElem?_of_findModule h))
      refine ⟨b, ?_, hm, hs.offsets key b hb, hs.found key b hb,
        fun b' hb' ↦ (Option.some.inj hb').symm⟩
      rw [intoBucket, h]
      dsimp only
      rw [hb, ← hm]
      rfl

/-- One more program counter. -/
theorem Bucketed.intoBucket (hs : Bucketed modules seen s) (pc : Int) :
    Bucketed modules (seen ++ [pc]) (intoBucket modules s pc) := by
  cases h : findModule modules (modules.map Module.base) pc with
  | none =>
      rw [intoBucket_of_none h]
      refine { hs with all := fun pc' hpc' key m hm ↦ ?_, outside := fun pc' hpc' hm ↦ ?_ }
      · rcases List.mem_append.mp hpc' with hpc' | hpc'
        · exact hs.all pc' hpc' key m hm
        · rw [List.mem_singleton.mp hpc', h] at hm
          cases hm
      · rw [Dict.get?_set]
        split
        · rename_i he
          rw [he]
        · rename_i hne
          rcases List.mem_append.mp hpc' with hpc' | hpc'
          · exact hs.outside pc' hpc' hm
          · exact absurd (List.mem_singleton.mp hpc') hne
  | some km =>
      obtain ⟨key, m⟩ := km
      obtain ⟨b, he, hm, hoff, hfound, huniq⟩ := hs.exists_bucket h
      -- the bucket under `key` is `b.add pc` now, the others are the same
      have hget : ∀ key' b', (s.1.set key (b.add pc)).get? key' = some b' →
          key' = key ∧ b' = b.add pc ∨ key' ≠ key ∧ s.1.get? key' = some b' := by
        intro key' b' hb'
        rw [Dict.get?_set] at hb'
        split at hb'
        · rename_i hk
          exact Or.inl ⟨hk, (Option.some.inj hb').symm⟩
        · rename_i hk
          exact Or.inr ⟨hk, hb'⟩
      rw [he]
      refine ⟨?_, ?_, ?_, ?_, ?_⟩
      · intro key' b' hb'
        rcases hget key' b' hb' with ⟨rfl, rfl⟩ | ⟨-, hb'⟩
        · exact (getElem?_of_findModule h).trans (congrArg some hm.symm)
        · exact hs.module key' b' hb'
      · intro key' b' hb'
        rcases hget key' b' hb' with ⟨rfl, rfl⟩ | ⟨-, hb'⟩
        · show b.offsets ++ _ = (b.pcs ++ [pc]).map _
          rw [hoff, List.map_append]
          rfl
        · exact hs.offsets key' b' hb'
      · intro key' b' hb' pc' hpc'
        rcases hget key' b' hb' with ⟨rfl, rfl⟩ | ⟨-, hb'⟩
        · rcases List.mem_append.mp hpc' with hpc' | hpc'
          · exact hfound pc' hpc'
          · rw [List.mem_singleton.mp hpc', h, ← hm]
            rfl
        · exact hs.found key' b' hb' pc' hpc'
      · intro pc' hpc' key' m' hm'
        show ∃ b', (s.1.set key (b.add pc)).get? key' = some b' ∧ pc' ∈ b'.pcs
        rw [Dict.get?_set]
        rcases List.mem_append.mp hpc' with hpc' | hpc'
        · obtain ⟨b', hb', hmem⟩ := hs.all pc' hpc' key' m' hm'
          split
          · rename_i hk
            subst hk
            exact ⟨_, rfl, List.mem_append_left _ (huniq b' hb' ▸ hmem)⟩
          · exact ⟨b', hb', hmem⟩
        · rw [List.mem_singleton.mp hpc', h] at hm'
          cases hm'
          rw [if_pos rfl, List.mem_singleton.mp hpc']
          exact ⟨_, rfl, List.mem_append_right _ (List.mem_singleton.mpr rfl)⟩
      · intro pc' hpc' hm'
        rcases List.mem_append.mp hpc' with hpc' | hpc'
        · exact hs.outside pc' hpc' hm'
        · rw [List.mem_singleton.mp hpc', h] at hm'
          cases hm'

/-- All program counters. -/
theorem Bucketed.foldl (hs : Bucketed modules seen s) (uniq : List Int) :
    Bucketed modules (seen ++ uniq) (uniq.foldl (Analyzer.intoBucket modules) s) := by
  induction uniq generalizing seen s with
  | nil =>
      rw [List.append_nil]
      exact hs
  | cons pc uniq ih =>
      have hrest := ih (hs.intoBucket pc)
      rw [List.append_assoc] at hrest
      exact hrest

theorem bucketed_empty (modules : List Module) : Bucketed modules [] (.empty, .empty) where
  module key b hb := by cases hb
  offsets key b hb := by cases hb
  found key b hb := by cases hb
  all pc hpc := absurd hpc List.not_mem_nil
  outside pc hpc := absurd hpc List.not_mem_nil

end

/-! ## One program counter at a time -/

/-- What is found for one program counter: outside of the modules nothing, in a module without a
file the module and the offset, and otherwise what `addr2line` knows of the offset in this file,
where `??` stands for a function without a name. -/
def Toolbox.resolve (t : Toolbox) (func loc : List Char → Int → List Char) (modules : List Module)
    (searchPaths : List (List Char)) (pc : Int) : SymResult :=
  match findModule modules (modules.map Module.base) pc with
  | none => { offset := pc }
  | some (_, m) =>
      let exe := t.resolveModuleFile m searchPaths
      let off := pc - m.base
      if exe = [] then { module := moduleBasename m.path, offset := off }
      else {
        func := if func exe off = "??".toList then [] else func exe off
        file := (parseFileLine (loc exe off)).1
        line := (parseFileLine (loc exe off)).2
        module := moduleBasename m.path
        offset := off }

theorem ofLines_some (bn : List Char) (off : Int) (fl loc : List Char) :
    SymResult.ofLines bn off (some fl) (some loc) =
      { func := if fl = "??".toList then [] else fl
        file := (parseFileLine loc).1
        line := (parseFileLine loc).2
        module := bn
        offset := off } := by
  unfold SymResult.ofLines
  dsimp only
  by_cases hq : fl = "??".toList
  · rw [if_pos hq, if_neg fun h ↦ h.2 hq]
  · rw [if_neg hq]
    by_cases hnil : fl = []
    · rw [if_neg fun h ↦ h.1 hnil, hnil]
    · rw [if_pos ⟨hnil, hq⟩]

section

variable {t : Toolbox} {func loc : List Char → Int → List Char} {modules : List Module}
  {searchPaths : List (List Char)}

theorem resolve_of_none {pc : Int}
    (hfind : findModule modules (modules.map Module.base) pc = none) :
    t.resolve func loc modules searchPaths pc = { offset := pc } := by
  rw [Toolbox.resolve, hfind]

/-- Resolving a bucket gives each of its program counters what is found for it. -/
theorem get?_resolveBucket (h : t.Answers func loc) {key : Nat} {b : Bucket}
    (hoff : b.offsets = b.pcs.map fun pc ↦ pc - b.module.base)
    (hfound : ∀ pc ∈ b.pcs,
      findModule modules (modules.map Module.base) pc = some (key, b.module))
    (results : Dict Int SymResult) (pc : Int) :
    (t.resolveBucket searchPaths results b).get? pc =
      if pc ∈ b.pcs then some (t.resolve func loc modules searchPaths pc) else results.get? pc := by
  unfold Toolbox.resolveBucket
  dsimp only
  split
  · rename_i hexe
    rw [hoff, ← List.map_prod_left_eq_zip, Dict.get?_foldl_set Prod.fst _ fun pc ↦
      { module := moduleBasename b.module.path, offset := pc - b.module.base }]
    · rw [List.map_map]
      show (if pc ∈ b.pcs.map id then _ else _) = _
      rw [List.map_id]
      split
      · rename_i hpc
        rw [Toolbox.resolve, hfound pc hpc]
        dsimp only
        rw [if_pos hexe]
      · rfl
    · intro x hx
      obtain ⟨pc, -, rfl⟩ := List.mem_map.mp hx
      rfl
  · rename_i hexe
    rw [hoff, get?_symbolizeOneModule h]
    split
    · rename_i hpc
      rw [Toolbox.resolve, hfound pc hpc, ofLines_some]
      dsimp only
      rw [if_neg hexe]
    · rfl

/-- Resolving the buckets one after the other. -/
theorem get?_foldl_resolveBucket (h : t.Answers func loc) {bs : List Bucket}
    (hbs : ∀ b ∈ bs, ∃ key, (b.offsets = b.pcs.map fun pc ↦ pc - b.module.base) ∧
      ∀ pc ∈ b.pcs, findModule modules (modules.map Module.base) pc = some (key, b.module))
    (results : Dict Int SymResult) (pc : Int) :
    (bs.foldl (t.resolveBucket searchPaths) results).get? pc =
      if ∃ b ∈ bs, pc ∈ b.pcs then some (t.resolve func loc modules searchPaths pc)
      else results.get? pc := by
  induction bs generalizing results with
  | nil => exact (if_neg fun ⟨b, hb, _⟩ ↦ absurd hb List.not_mem_nil).symm
  | cons b bs ih =>
      obtain ⟨⟨key, hoff, hfound⟩, hbs⟩ := List.forall_mem_cons.mp hbs
      rw [List.foldl_cons, ih hbs, get?_resolveBucket h hoff hfound]
      by_cases hrest : ∃ b ∈ bs, pc ∈ b.pcs
      · obtain ⟨b', hb', hpc⟩ := hrest
        rw [if_pos ⟨b', hb', hpc⟩, if_pos ⟨b', List.mem_cons_of_mem _ hb', hpc⟩]
      · rw [if_neg hrest]
        refine if_congr ?_ rfl rfl
        rw [List.exists_mem_cons_iff, or_iff_left hrest]

/-- After all buckets, every program counter has what is found for it. -/
theorem get?_results (h : t.Answers func loc) {uniq : List Int} {pc : Int} (hpc : pc ∈ uniq) :
    (((uniq.foldl (intoBucket modules) (.empty, .empty)).1.entries.map Prod.snd).foldl
      (t.resolveBucket searchPaths) (uniq.foldl (intoBucket modules) (.empty, .empty)).2).get? pc =
      some (t.resolve func loc modules searchPaths pc) := by
  have hs := (bucketed_empty modules).foldl uniq
  rw [List.nil_append] at hs
  have hbs : ∀ b ∈ (uniq.foldl (intoBucket modules) (.empty, .empty)).1.entries.map Prod.snd,
      ∃ key, (b.offsets = b.pcs.map fun pc ↦ pc - b.module.base) ∧
        ∀ pc ∈ b.pcs, findModule modules (modules.map Module.base) pc = some (key, b.module) := by
    intro b hb
    obtain ⟨e, he, rfl⟩ := List.mem_map.mp hb
    have hget := Dict.mem_entries_iff.mp he
    exact ⟨e.1, hs.offsets e.1 e.2 hget, hs.found e.1 e.2 hget⟩
  rw [get?_foldl_resolveBucket h hbs]
  cases hfind : findModule modules (modules.map Module.base) pc with
  | none =>
      rw [if_neg, hs.outside pc hpc hfind, resolve_of_none hfind]
      rintro ⟨b, hb, hmem⟩
      obtain ⟨key, -, hfound⟩ := hbs b hb
      cases hfind.symm.trans (hfound pc hmem)
  | some km =>
      obtain ⟨b, hb, hmem⟩ := hs.all pc hpc km.1 km.2 hfind
      exact if_pos ⟨b, List.mem_map.mpr ⟨(km.1, b), Dict.mem_entries_iff.mpr hb, rfl⟩, hmem⟩

/-- The frame with what is found for its program counter. -/
def Toolbox.resolveFrame (t : Toolbox) (func loc : List Char → Int → List Char)
    (modules : List Module) (searchPaths : List (List Char)) (f : Frame) : Frame :=
  let r := t.resolve func loc modules searchPaths f.pc
  { f with
    func := String.ofList r.func
    file := String.ofList r.file
    line := r.line
    module := String.ofList r.module
    offset := r.offset }

/-- The symbolizer gives every frame what is found for its program counter. -/
theorem symbolizeAll_eq (h : t.Answers func loc) {uniq : List Int} {events : List Event}
    (huniq : ∀ e ∈ events, ∀ f ∈ e.bt, f.pc ∈ uniq) :
    t.symbolizeAll uniq modules events searchPaths =
      events.map fun e ↦
        { e with bt := e.bt.map (t.resolveFrame func loc modules searchPaths) } := by
  unfold Toolbox.symbolizeAll
  split
  · rename_i hnil
    rcases hnil with rfl | rfl
    · rfl
    · -- no event has a frame
      refine (List.map_id events).symm.trans (List.map_congr_left fun e he ↦ ?_)
      have hbt : e.bt = [] := List.eq_nil_iff_forall_not_mem.mpr fun f hf ↦
        absurd (huniq e he f hf) List.not_mem_nil
      rw [hbt, List.map_nil, ← hbt]
      rfl
  · refine List.map_congr_left fun e he ↦ ?_
    refine congrArg (fun bt ↦ { e with bt := bt }) (List.map_congr_left fun f hf ↦ ?_)
    rw [writeBack, get?_results h (huniq e he f hf)]
    rfl

/-- `uniq` lists the set of the program counters of these events. -/
structure PcSet (uniq : List Int) (events : List Event) : Prop where
  nodup : uniq.Nodup
  mem_iff : ∀ pc, pc ∈ uniq ↔ ∃ e ∈ events, ∃ f ∈ e.bt, f.pc = pc

/-- **A batch agrees with one program counter at a time.**  If `addr2line` answers every offset with
two lines, then whatever the order in which the set of the program counters is iterated, every
frame of every event becomes what is found for its own program counter, which it keeps, in its
place.  This is also what symbolizing a trace with this frame alone makes of it. -/
theorem symbolizeAll_eq_single (t : Toolbox) (func loc : List Char → Int → List Char)
    (h : t.Answers func loc) (modules : List Module) (searchPaths : List (List Char))
    (events : List Event) (uniq : List Int) (huniq : PcSet uniq events) :
    t.symbolizeAll uniq modules events searchPaths =
        (events.map fun e ↦
          { e with bt := e.bt.map (t.resolveFrame func loc modules searchPaths) }) ∧
      (∀ f, t.symbolizeAll [f.pc] modules [{ bt := [f] }] searchPaths =
        [{ bt := [t.resolveFrame func loc modules searchPaths f] }]) ∧
      ∀ f, (t.resolveFrame func loc modules searchPaths f).pc = f.pc := by
  refine ⟨?_, fun f ↦ ?_, fun f ↦ rfl⟩
  · exact symbolizeAll_eq h fun e he f hf ↦ (huniq.mem_iff f.pc).mpr ⟨e, he, f, hf, rfl⟩
  · refine symbolizeAll_eq h fun e he f' hf' ↦ ?_
    rw [List.mem_singleton.mp he] at hf'
    rw [List.mem_singleton.mp hf']
    exact List.mem_singleton.mpr rfl

end

/-! ### An example -/

/-- What an executable with one function of known place answers to a line of the input. -/
def exampleAnswer (l : List Char) : List Char × List Char :=
  if l = "0x10\n".toList then ("main".toList, "a.c:3".toList) else ("??".toList, "??:0".toList)

/-- An `addr2line` that answers every line of its input. -/
def exampleToolbox : Toolbox where
  isFile p := p = "/bin/a".toList
  addr2line _ input := some ((lines input).flatMap fun l ↦
    line (exampleAnswer l).1 ++ line (exampleAnswer l).2)

theorem notMem_query (off : Int) : '\n' ∉ query off := by
  have hdigits : '\n' ∉ Nat.toDigits 16 off.natAbs := fun hmem ↦
    absurd (clean_of_mem_toDigits (by decide) (by decide) hmem) (by decide)
  unfold query
  dsimp only
  split
  · simpa using hdigits
  · simpa using hdigits

theorem lines_flatMap_queryLine (offsets : List Int) :
    lines (offsets.flatMap queryLine) = offsets.map queryLine := by
  have hquery : ∀ l ∈ offsets.map query, '\n' ∉ l := by
    intro l hl
    obtain ⟨off, -, rfl⟩ := List.mem_map.mp hl
    exact notMem_query off
  have hread := lines_flatMap_line hquery
  rw [List.flatMap_map, List.map_map] at hread
  exact hread

theorem exampleToolbox_answers : exampleToolbox.Answers
    (fun _ off ↦ (exampleAnswer (queryLine off)).1)
    fun _ off ↦ (exampleAnswer (queryLine off)).2 where
  func_line _ off := by
    rw [exampleAnswer]
    split <;> decide
  loc_line _ off := by
    rw [exampleAnswer]
    split <;> decide
  output exe offsets := by
    show some ((lines (offsets.flatMap queryLine)).flatMap _) = _
    rw [lines_flatMap_queryLine, List.flatMap_map]

/-- The modules of a process: two mappings of one file. -/
def exampleModules : List Module :=
  [{ base := 0x1000, size := 0x100, path := "/bin/a".toList },
    { idx := 1, base := 0x2000, size := 0x100, path := "/bin/a".toList }]

/-- Two events, with a program counter in both, and one outside of the modules. -/
def exampleEvents : List Event :=
  [{ bt := [{ pc := 0x1010 }, { pc := 0x9000 }] }, { bt := [{ pc := 0x2010 }, { pc := 0x1010 }] }]

/-- The frame in `main` has its symbols in both events. -/
theorem symbolizeAll_eq_single_example :
    exampleToolbox.symbolizeAll [0x9000, 0x2010, 0x1010] exampleModules exampleEvents [] =
      [{ bt := [{ pc := 0x1010, func := "main", file := "a.c", line := 3, module := "a",
                  offset := 0x10 },
                { pc := 0x9000, offset := 0x9000 }] },
        { bt := [{ pc := 0x2010, func := "main", file := "a.c", line := 3, module := "a",
                   offset := 0x10 },
                 { pc := 0x1010, func := "main", file := "a.c", line := 3, module := "a",
                   offset := 0x10 }] }] := by
  rw [(symbolizeAll_eq_single exampleToolbox _ _ exampleToolbox_answers exampleModules []
    exampleEvents _ ⟨by decide, fun pc ↦ by simp [exampleEvents]; omega⟩).1]
  decide +kernel

end DeadLockDetect.Analyzer
