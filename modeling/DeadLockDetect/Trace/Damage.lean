import DeadLockDetect.Trace.TraceReader

/-!
# Damage in the trace

A well-formed `E` line has eight fields, of which seven are numbers, two of them those of an
operation and of a kind; what it stands for can be told from these fields alone (`EventLine`).  The
reader is more lenient: it also takes a damaged return code, as `0`, and more fields.

The loop over the frames of an event ends at the first line that is not an `F` line, and this line
is gone: the loop over the lines does not see it.  So a damaged record costs the next one if that
line is a record of its own, and this is the only way to lose one: `readTrace_keeps_iff`.

## What is ours

The lines and what they stand for are stated from their format, not from the reader.  What a line
gives is read off the trace itself, cut in front of this line and behind it.
-/

namespace DeadLockDetect.Analyzer

open Text Numeral

/-! ## Well-formed lines -/

/-- The line is a well-formed `E` line and stands for this event.  Its frames are on other lines. -/
inductive EventLine (l : List Char) (e : Event) : Prop where
  | intro {ts tid op kind addr rc nf : List Char} {n : Int}
      (hfields : fields l = [['E'], ts, tid, op, kind, addr, rc, nf])
      (hts : parseInt 10 ts = some e.tsNs) (htid : parseInt 10 tid = some e.tid)
      (hop : parseInt 10 op = some e.op.value) (hkind : parseInt 10 kind = some e.kind.value)
      (haddr : parseInt 16 addr = some e.addr) (hrc : parseInt 10 rc = some e.rc)
      (hnf : parseInt 10 nf = some n) (hbt : e.bt = [])

/-- The line is a well-formed `M` line and stands for this module. -/
inductive ModuleLine (l : List Char) (m : Module) : Prop where
  | intro {idx base size : List Char}
      (hfields : fields l = [['M'], idx, base, size, m.buildId, m.path])
      (hidx : parseInt 10 idx = some m.idx) (hbase : parseInt 16 base = some m.base)
      (hsize : parseInt 16 size = some m.size)

/-- The line is a record of its own. -/
def WellFormed (l : List Char) : Prop := (∃ e, EventLine l e) ∨ ∃ m, ModuleLine l m

/-! ## What a line gives -/

/-- The event without its frames. -/
def Event.bare (e : Event) : Event := { e with bt := [] }

/-- The events of a trace, without their frames. -/
def eventsOf (t : List Char) : List Event :=
  match readTrace t with
  | some r => r.2.2.map Event.bare
  | none => []

/-- The modules of a trace. -/
def modulesOf (t : List Char) : List Module :=
  match readTrace t with
  | some r => r.2.1
  | none => []

/-- In this trace, the line `l` behind the lines `pre` gives exactly the event `e`: it is the next
event after those of `pre`, and it stays there whatever lines follow. -/
def GivesEvent (t : List Char) (pre : List (List Char)) (l : List Char) (e : Event) : Prop :=
  eventsOf (pre ++ [l]).flatten = eventsOf pre.flatten ++ [e] ∧
    eventsOf pre.flatten ++ [e] <+: eventsOf t

/-- In this trace, the line `l` behind the lines `pre` gives exactly the module `m`.  Modules are
sorted when all lines have been read. -/
def GivesModule (t : List Char) (pre : List (List Char)) (l : List Char) (m : Module) : Prop :=
  (modulesOf (pre ++ [l]).flatten).Perm (m :: modulesOf pre.flatten) ∧
    (m :: modulesOf pre.flatten).Subperm (modulesOf t)

/-! ## Frames that are awaited -/

/-- How many frames are awaited behind a line, if `n` are awaited in front of it: an event awaits
as many as it announces, and a line that is not an `F` line ends this. -/
def awaits (n : Nat) (l : List Char) : Nat :=
  if n = 0 then
    match parseLine l with
    | .event _ nf => nf.toNat
    | _ => 0
  else if (parseFrame l).isSome then n - 1 else 0

/-- How many frames are awaited behind these lines. -/
def awaited (ls : List (List Char)) : Nat := ls.foldl awaits 0

/-! ## The reader takes well-formed lines -/

theorem isBlank_eq_false {l : List Char} {c : Char} {p : List (List Char)}
    (h : fields l = [c] :: p) (hc : isSpace c = false) : isBlank l = false := by
  have hmem : c ∈ chomp l := by
    have hjoin : ['\t'].intercalate (fields l) = chomp l := List.intercalate_splitOn _
    rw [← hjoin, h]
    cases p with
    | nil => exact List.mem_singleton_self c
    | cons f p => exact List.mem_append_left _ List.mem_cons_self
  refine List.all_eq_false.mpr ⟨c, (List.rdropWhile_prefix _ l).subset hmem, ?_⟩
  rw [hc]
  exact Bool.false_ne_true

theorem ofValue_value_op (op : EvOp) : EvOp.ofValue op.value = some op := by
  cases op <;> rfl

theorem ofValue_value_kind (kind : EvKind) : EvKind.ofValue kind.value = some kind := by
  cases kind <;> rfl

theorem parseHex_eq {s : List Char} {x : Int} (h : parseInt 16 s = some x) :
    parseHex s = some x := by
  have hne : s ≠ [] := by
    rintro rfl
    cases h
  rw [parseHex, if_neg hne, h]

/-- The reader takes a well-formed `E` line for the event that it stands for. -/
theorem EventLine.parseLine_eq {l : List Char} {e : Event} (h : EventLine l e) :
    ∃ nf, parseLine l = .event e nf := by
  cases h with | @intro ts tid op kind addr rc nf n hfields hts htid hop hkind haddr hrc hnf hbt =>
  refine ⟨n, parseLine_of_event (isBlank_eq_false hfields rfl) hfields ?_⟩
  simp only [parseEvent, hts, htid, hop, hkind, parseHex_eq haddr, hnf, hrc, Option.bind_some,
    ofValue_value_op, ofValue_value_kind]
  rw [← hbt]
  rfl

/-- The reader takes a well-formed `M` line for the module that it stands for. -/
theorem ModuleLine.parseLine_eq {l : List Char} {m : Module} (h : ModuleLine l m) :
    parseLine l = .module m := by
  obtain ⟨hfields, hidx, hbase, hsize⟩ := h
  refine parseLine_of_module (isBlank_eq_false hfields rfl) hfields ?_
  rw [parseModule, hidx, parseHex_eq hbase, parseHex_eq hsize]
  rfl

/-! ## One line after the other -/

/-- The modules and events of these lines, if `n` frames are awaited in front of them. -/
def recordsFrom (n : Nat) (ls : List (List Char)) : List Module × List Event :=
  ((readRecords (readFrames n ls).2).1, (readRecords (readFrames n ls).2).2.map Event.bare)

/-- What a line gives, if `n` frames are awaited in front of it. -/
def recordOf (n : Nat) (l : List Char) : List Module × List Event :=
  if n = 0 then
    match parseLine l with
    | .other => ([], [])
    | .module m => ([m], [])
    | .event e _ => ([], [e.bare])
  else ([], [])

theorem recordsFrom_nil (n : Nat) : recordsFrom n [] = ([], []) := by
  have hnil : readRecords [] = ([], []) := readRecords_eq .nil
  cases n <;> rw [recordsFrom, readFrames, hnil] <;> rfl

/-- Lines are read one after the other. -/
theorem recordsFrom_cons (n : Nat) (l : List Char) (ls : List (List Char)) :
    recordsFrom n (l :: ls) = ((recordOf n l).1 ++ (recordsFrom (awaits n l) ls).1,
      (recordOf n l).2 ++ (recordsFrom (awaits n l) ls).2) := by
  cases n with
  | zero =>
      cases h : parseLine l with
      | other =>
          have hread := readRecords_eq (.other h (reads_readRecords ls))
          simp only [recordsFrom, recordOf, awaits, readFrames, h, hread, if_true]
          rfl
      | module m =>
          have hread := readRecords_eq (.module h (reads_readRecords ls))
          simp only [recordsFrom, recordOf, awaits, readFrames, h, hread, if_true]
          rfl
      | event e nf =>
          have hread := readRecords_eq (.event h (reads_readRecords (readFrames nf.toNat ls).2))
          simp only [recordsFrom, recordOf, awaits, readFrames, h, hread, if_true]
          rfl
  | succ n =>
      have hn : n + 1 ≠ 0 := Nat.succ_ne_zero n
      simp only [recordsFrom, recordOf, awaits, readFrames, if_neg hn]
      cases h : parseFrame l with
      | none => rfl
      | some f => cases f <;> rfl

theorem recordsFrom_append (n : Nat) (pre post : List (List Char)) :
    recordsFrom n (pre ++ post) =
      ((recordsFrom n pre).1 ++ (recordsFrom (pre.foldl awaits n) post).1,
        (recordsFrom n pre).2 ++ (recordsFrom (pre.foldl awaits n) post).2) := by
  induction pre generalizing n with
  | nil =>
      rw [recordsFrom_nil]
      rfl
  | cons l pre ih =>
      rw [List.cons_append, recordsFrom_cons, recordsFrom_cons n l pre, ih, List.foldl_cons,
        List.append_assoc, List.append_assoc]

/-- One line more. -/
theorem recordsFrom_concat (pre : List (List Char)) (l : List Char) :
    recordsFrom 0 (pre ++ [l]) = ((recordsFrom 0 pre).1 ++ (recordOf (awaited pre) l).1,
      (recordsFrom 0 pre).2 ++ (recordOf (awaited pre) l).2) := by
  rw [recordsFrom_append, recordsFrom_cons, recordsFrom_nil, List.append_nil, List.append_nil]
  rfl

/-! ## The trace -/

section

variable {t header : List Char} {ls pre post : List (List Char)} {pid : Int} {l : List Char}

theorem readTrace_eq (ht : readLines t = header :: ls) (hheader : readHeader header = some pid) :
    readTrace t = some (pid, (readRecords ls).1.insertionSort (fun m n ↦ m.base ≤ n.base),
      (readRecords ls).2) := by
  rw [readTrace, ht]
  dsimp only
  rw [hheader]
  rfl

theorem eventsOf_eq (ht : readLines t = header :: ls) (hheader : readHeader header = some pid) :
    eventsOf t = (recordsFrom 0 ls).2 := by
  rw [eventsOf, readTrace_eq ht hheader]
  rfl

theorem modulesOf_eq (ht : readLines t = header :: ls) (hheader : readHeader header = some pid) :
    (modulesOf t).Perm (recordsFrom 0 ls).1 := by
  rw [modulesOf, readTrace_eq ht hheader]
  exact List.perm_insertionSort _ _

/-- The first lines of a trace are a trace. -/
theorem readLines_flatten (ht : readLines t = header :: (pre ++ post)) :
    readLines (header :: pre).flatten = header :: pre := by
  refine readLines_flatten_of_prefix (t := t) ?_
  rw [ht]
  exact (List.prefix_cons_inj header).mpr (List.prefix_append pre post)

/-- What is in front of a line, behind it and in the trace. -/
theorem eventsOf_modulesOf_cut (ht : readLines t = header :: (pre ++ l :: post))
    (hheader : readHeader header = some pid) :
    (eventsOf (header :: pre).flatten = (recordsFrom 0 pre).2 ∧
        (modulesOf (header :: pre).flatten).Perm (recordsFrom 0 pre).1) ∧
      (eventsOf (header :: pre ++ [l]).flatten =
          (recordsFrom 0 pre).2 ++ (recordOf (awaited pre) l).2 ∧
        (modulesOf (header :: pre ++ [l]).flatten).Perm
          ((recordsFrom 0 pre).1 ++ (recordOf (awaited pre) l).1)) ∧
      (recordsFrom 0 pre).2 ++ (recordOf (awaited pre) l).2 <+: eventsOf t ∧
      ((recordsFrom 0 pre).1 ++ (recordOf (awaited pre) l).1).Subperm (modulesOf t) := by
  have hfront := readLines_flatten ht
  have hsplit : pre ++ l :: post = (pre ++ [l]) ++ post := by
    rw [List.append_assoc, List.singleton_append]
  have hbehind := readLines_flatten (hsplit ▸ ht)
  have hall := recordsFrom_append 0 (pre ++ [l]) post
  rw [← hsplit, recordsFrom_concat] at hall
  have hconcat := recordsFrom_concat pre l
  refine ⟨⟨eventsOf_eq hfront hheader, modulesOf_eq hfront hheader⟩, ⟨?_, ?_⟩, ?_, ?_⟩
  · rw [List.cons_append, eventsOf_eq hbehind hheader, hconcat]
  · have hperm := modulesOf_eq hbehind hheader
    rwa [hconcat] at hperm
  · rw [eventsOf_eq ht hheader, hall]
    exact List.prefix_append _ _
  · refine List.Subperm.trans (List.Sublist.subperm ?_) (modulesOf_eq ht hheader).symm.subperm
    rw [hall]
    exact List.sublist_append_left _ _

theorem givesEvent_iff {e : Event} (ht : readLines t = header :: (pre ++ l :: post))
    (hheader : readHeader header = some pid) (h : EventLine l e) :
    GivesEvent t (header :: pre) l e ↔ awaited pre = 0 := by
  obtain ⟨⟨hfront, -⟩, ⟨hbehind, -⟩, hall, -⟩ := eventsOf_modulesOf_cut ht hheader
  obtain ⟨nf, hline⟩ := h.parseLine_eq
  have hbare : e.bare = e := by
    cases h with | intro _ _ _ _ _ _ _ _ hbt => rw [Event.bare, ← hbt]
  rw [GivesEvent, hfront, hbehind]
  by_cases hn : awaited pre = 0
  · have hrec : recordOf (awaited pre) l = ([], [e]) := by
      rw [recordOf, if_pos hn, hline]
      dsimp only
      rw [hbare]
    rw [hrec] at hall ⊢
    exact iff_of_true ⟨rfl, hall⟩ hn
  · have hrec : recordOf (awaited pre) l = ([], []) := if_neg hn
    rw [hrec, List.append_nil]
    refine iff_of_false (fun hev ↦ ?_) hn
    exact absurd (congrArg List.length hev.1) (by simp)

theorem givesModule_iff {m : Module} (ht : readLines t = header :: (pre ++ l :: post))
    (hheader : readHeader header = some pid) (h : ModuleLine l m) :
    GivesModule t (header :: pre) l m ↔ awaited pre = 0 := by
  obtain ⟨⟨-, hfront⟩, ⟨-, hbehind⟩, -, hall⟩ := eventsOf_modulesOf_cut ht hheader
  by_cases hn : awaited pre = 0
  · have hrec : recordOf (awaited pre) l = ([m], []) := by
      rw [recordOf, if_pos hn, h.parseLine_eq]
    rw [hrec] at hbehind hall
    have hcons : ((recordsFrom 0 pre).1 ++ [m]).Perm (m :: modulesOf (header :: pre).flatten) :=
      (List.perm_append_singleton _ _).trans (hfront.symm.cons m)
    exact iff_of_true ⟨hbehind.trans hcons, hcons.symm.subperm.trans hall⟩ hn
  · have hrec : recordOf (awaited pre) l = ([], []) := if_neg hn
    rw [hrec, List.append_nil] at hbehind
    refine iff_of_false (fun hm ↦ ?_) hn
    have hlen := (hm.1.symm.trans (hbehind.trans hfront.symm)).length_eq
    exact absurd hlen (by simp)

end

/-- **Damage stays local just if no frame is awaited at a record.**  Every well-formed `E` line
gives exactly one event and every well-formed `M` line exactly one module, in the order of the file
and whatever the other lines are, just if no such line stands where the event before it still awaits
a frame. -/
theorem readTrace_keeps_iff {t header : List Char} {ls : List (List Char)} {pid : Int}
    (ht : readLines t = header :: ls) (hheader : readHeader header = some pid) :
    (∀ pre l post, ls = pre ++ l :: post →
      (∀ e, EventLine l e → GivesEvent t (header :: pre) l e) ∧
        ∀ m, ModuleLine l m → GivesModule t (header :: pre) l m) ↔
    ∀ pre l post, ls = pre ++ l :: post → WellFormed l → awaited pre = 0 := by
  constructor
  · rintro h pre l post rfl (⟨e, he⟩ | ⟨m, hm⟩)
    · exact (givesEvent_iff ht hheader he).mp ((h pre l post rfl).1 e he)
    · exact (givesModule_iff ht hheader hm).mp ((h pre l post rfl).2 m hm)
  · rintro h pre l post rfl
    constructor
    · intro e he
      exact (givesEvent_iff ht hheader he).mpr (h pre l post rfl (Or.inl ⟨e, he⟩))
    · intro m hm
      exact (givesModule_iff ht hheader hm).mpr (h pre l post rfl (Or.inr ⟨m, hm⟩))

/-- The line that a trace starts with. -/
def headerLine : List Char := "HEADER\tDEADLOCK_EVENTS\tv3\tpid=1\n".toList

/-- A good line, the second event of the examples. -/
def secondLine : List Char := "E\t2\t1\t9\t1\t0x10\t0\t0\n".toList

def secondEvent : Event := { tsNs := 2, tid := 1, op := .unlock, addr := 0x10 }

theorem eventLine_secondLine : EventLine secondLine secondEvent := by
  have hfields : fields secondLine =
      [['E'], ['2'], ['1'], ['9'], ['1'], "0x10".toList, ['0'], ['0']] := by decide +kernel
  exact .intro hfields (by decide) (by decide) (by decide) (by decide) (by decide) (by decide)
    (by decide : parseInt 10 ['0'] = some 0) rfl

/-- Two frames are announced, and the second one is cut off in its tag. -/
def cutFrame : List (List Char) :=
  ["E\t1\t1\t4\t1\t0x10\t0\t2\n".toList, "F\t0x400\n".toList, "G\t0x\n".toList, secondLine]

theorem WellFormed.head?_eq {l : List Char} (h : WellFormed l) :
    (fields l).head? = some ['E'] ∨ (fields l).head? = some ['M'] := by
  rcases h with ⟨e, hfields, -⟩ | ⟨m, hfields, -⟩
  · exact Or.inl (by rw [hfields]; rfl)
  · exact Or.inr (by rw [hfields]; rfl)

theorem readTrace_keeps_iff_cutFrame :
    GivesEvent (headerLine :: cutFrame).flatten (headerLine :: cutFrame.take 3) secondLine
      secondEvent := by
  have ht : readLines (headerLine :: cutFrame).flatten = headerLine :: cutFrame := by decide +kernel
  have hheader : readHeader headerLine = some 1 := by decide +kernel
  have hplace : ∀ i < 4, ∀ l ∈ cutFrame[i]?,
      (fields l).head? = some ['E'] ∨ (fields l).head? = some ['M'] →
        awaited (cutFrame.take i) = 0 := by decide +kernel
  refine ((readTrace_keeps_iff ht hheader).mpr ?_ (cutFrame.take 3) secondLine [] rfl).1
    secondEvent eventLine_secondLine
  intro pre l post h hl
  have hlen : pre.length < 4 := by
    have hcut : cutFrame.length = pre.length + (l :: post).length := by
      rw [h, List.length_append]
    rw [List.length_cons] at hcut
    exact lt_of_lt_of_eq (Nat.lt_add_of_pos_right (Nat.succ_pos _)) hcut.symm
  have hget : cutFrame[pre.length]? = some l := by simp [h]
  have htake : cutFrame.take pre.length = pre := by simp [h]
  rw [← htake]
  exact hplace _ hlen l hget hl.head?_eq

/-- A frame is announced, and the next line is an event already. -/
def lostFrame : List (List Char) := ["E\t1\t1\t4\t1\t0x10\t0\t1\n".toList, secondLine]

/-- This event is lost. -/
theorem not_readTrace_keeps :
    ¬ ∀ (t header : List Char) (ls : List (List Char)) (pid : Int),
      readLines t = header :: ls → readHeader header = some pid →
        ∀ pre l post, ls = pre ++ l :: post →
          (∀ e, EventLine l e → GivesEvent t (header :: pre) l e) ∧
            ∀ m, ModuleLine l m → GivesModule t (header :: pre) l m := by
  intro h
  obtain ⟨hgives, -⟩ := h (headerLine :: lostFrame).flatten headerLine lostFrame 1
    (by decide +kernel) (by decide +kernel) (lostFrame.take 1) secondLine [] rfl
  have hlen := congrArg List.length (hgives secondEvent eventLine_secondLine).1
  exact absurd hlen (by decide +kernel)

end DeadLockDetect.Analyzer
