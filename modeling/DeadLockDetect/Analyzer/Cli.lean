import DeadLockDetect.Analyzer.RenameCycles
import DeadLockDetect.Analyzer.Symbolizer
import DeadLockDetect.Analyzer.Verdict
import DeadLockDetect.Trace.TraceReader

/-!
# The command line

`cli.py`: the arguments are read, the trace is opened, read, symbolized and replayed, and the
report is written.

## What is transcribed

* `argTurn` is the body of the loop over the arguments, `parseArgs` the loop.
* `main` is the rest.  What it asks of its surroundings is a `World`.  The files that it opens and
  closes are their texts.  An output stream whose encoding has no bytes for a character of the
  report is left out: Python then ends the run with an exception and the exit code `1`.

## What is ours

`Item` is the grammar of the command line and `optionsOf` what it means, with `parseArgs_eq_done_iff`
for the connection.  `main_code` says when which exit code is returned.
-/

namespace DeadLockDetect.Analyzer

open Text Numeral DeadLockDetect.Digraph Relation

/-! ## The arguments -/

/-- The variables that the arguments set. -/
structure Options where
  rwlockStrict : Bool := false
  maxPerScc : Int := 32
  outPath : Option (List Char) := none
  evPath : Option (List Char) := none
  symPathCli : Option (List Char) := none
deriving DecidableEq, Repr

/-- How reading the arguments ends. -/
inductive Parsed where
  | help
  /-- `unknown option`. -/
  | unknown (a : List Char)
  /-- `unexpected`: a second event file. -/
  | unexpected (a : List Char)
  | done (o : Options)
deriving DecidableEq, Repr

/-- The number behind `--max-per-scc`; what is no number counts as `0`. -/
def budgetOf (v : List Char) : Int := (parseInt 10 v).getD 0

/-- Set the option `a` to `v`, if it is one that takes a value. -/
def Options.setValue (o : Options) (a v : List Char) : Option Options :=
  if a = "--max-per-scc".toList then some { o with maxPerScc := budgetOf v }
  else if a = "--sym-search-path".toList then some { o with symPathCli := some v }
  else if a = "-o".toList then some { o with outPath := some v }
  else none

/-- The variables of the loop over the arguments. -/
structure ArgState where
  options : Options := {}
  argv : List (List Char)

/-- The body of the loop over the arguments. -/
def argTurn (s : ArgState) : Parsed ⊕ ArgState :=
  match s.argv with
  | [] => .inl (.done s.options)
  | a :: rest =>
      if a = "-h".toList ∨ a = "--help".toList then .inl .help
      else if a = "--rwlock-strict".toList then
        .inr { options := { s.options with rwlockStrict := true }, argv := rest }
      else match rest.head?.bind (s.options.setValue a) with
        | some o => .inr { options := o, argv := rest.tail }
        | none =>
            if a.head? = some '-' then .inl (.unknown a)
            else if s.options.evPath = none then
              .inr { options := { s.options with evPath := some a }, argv := rest }
            else .inl (.unexpected a)

theorem length_argTurn_lt (s s' : ArgState) (h : argTurn s = .inr s') :
    s'.argv.length < s.argv.length := by
  obtain ⟨o, argv⟩ := s
  cases argv with
  | nil => cases h
  | cons a rest =>
      have hrest : rest.length < (a :: rest).length := Nat.lt_succ_self _
      have htail : rest.tail.length < (a :: rest).length :=
        lt_of_le_of_lt (List.tail_sublist rest).length_le hrest
      unfold argTurn at h
      dsimp only at h
      split at h
      · cases h
      · split at h
        · cases h
          exact hrest
        · split at h
          · cases h
            exact htail
          · split at h
            · cases h
            · split at h
              · cases h
                exact hrest
              · cases h

/-- The loop over the arguments ends. -/
theorem isSome_run_argTurn (argv : List (List Char)) :
    (Loop.run argTurn (argv.length + 1) { argv }).isSome :=
  Loop.isSome_run (fun s ↦ s.argv.length) length_argTurn_lt (Nat.lt_succ_self _)

/-- Read the arguments behind the name of the program. -/
def parseArgs (argv : List (List Char)) : Parsed :=
  Loop.result argTurn (argv.length + 1) { argv } (isSome_run_argTurn argv)

/-! ## The run -/

/-- What is outside of the program. -/
structure World where
  /-- The text of a file that can be opened; bytes that are no UTF-8 are replaced. -/
  readFile : List Char → Option (List Char)
  /-- The file can be opened to write it. -/
  canWrite : List Char → Bool
  /-- `os.environ.get("DEADLOCK_SYM_SEARCH_PATH")`. -/
  symSearchPath : Option (List Char)
  /-- What the symbolizer works with. -/
  toolbox : Toolbox
  /-- The order in which a set of these program counters is iterated. -/
  iterate : List Int → List Int

/-- How a run ends: the exit code, the text on the standard error stream, and the report with the
file that it is written to, if it is not the standard output. -/
structure Outcome where
  code : Nat
  err : String := ""
  output : Option (Option (List Char) × String) := none
deriving DecidableEq, Repr

/-- `_USAGE.format(prog=prog)`. -/
def usage (prog : List Char) : String :=
  "Usage: " ++ String.ofList prog ++ " [options] <event-file>\n" ++
    "Options:\n" ++
    "  --rwlock-strict           Report pure rd->rd cycles too (default: skip)\n" ++
    "  --max-per-scc N           Max simple cycles per SCC (default: 32)\n" ++
    "  --sym-search-path DIRS    ':'-separated dirs to find .so by basename\n" ++
    "                            (overrides $DEADLOCK_SYM_SEARCH_PATH)\n" ++
    "  -o <file>                 Write report to <file> (default: stdout)\n" ++
    "  -h, --help                Show this help\n"

/-- `_split_paths`. -/
def splitPaths : Option (List Char) → List (List Char)
  | none => []
  | some s => if s = [] then [] else (s.splitOn ':').filter fun seg ↦ seg ≠ []

/-- The line in front of the report. -/
def sourceLine (evPath : List Char) (pid : Int) (modules : List Module) (events : List Event) :
    String :=
  "(source: " ++ String.ofList evPath ++ "  pid=" ++ toString pid ++ "  modules=" ++
    toString modules.length ++ "  events=" ++ toString events.length ++ ")\n"

/-- The program counters of all frames, each once. -/
def uniqPcs (events : List Event) : List Int := (events.flatMap fun e ↦ e.bt.map Frame.pc).dedup

/-- Where modules are looked for. -/
def World.searchPaths (w : World) (o : Options) : List (List Char) :=
  splitPaths (match o.symPathCli with
    | some dirs => some dirs
    | none => w.symSearchPath)

/-- The events as they are replayed. -/
def World.symbolized (w : World) (o : Options) (modules : List Module) (events : List Event) :
    List Event :=
  w.toolbox.symbolizeAll (w.iterate (uniqPcs events)) modules events (w.searchPaths o)

/-- What the symbolizer writes to the standard error stream. -/
def World.warnings (w : World) (o : Options) (modules : List Module) (events : List Event) :
    String :=
  w.toolbox.warnings (w.iterate (uniqPcs events)) modules events (w.searchPaths o)

/-- The file that the report goes to, if it is not the standard output. -/
def Options.outFile (o : Options) : Option (List Char) := o.outPath.filter fun p ↦ p ≠ []

/-- `main`. -/
def main (w : World) (argv : List (List Char)) : Outcome :=
  let prog := argv.head?.getD "deadlock_analyze".toList
  match parseArgs argv.tail with
  | .help => { code := 0, err := usage prog }
  | .unknown a =>
      { code := 2, err := "unknown option: " ++ String.ofList a ++ "\n" ++ usage prog }
  | .unexpected a =>
      { code := 2, err := "unexpected: " ++ String.ofList a ++ "\n" ++ usage prog }
  | .done o => match o.evPath with
    | none => { code := 2, err := usage prog }
    | some evPath => match w.readFile evPath with
      | none => { code := 1, err := "cannot open: " ++ String.ofList evPath ++ "\n" }
      | some t => match readTrace t with
        | none =>
            { code := 1
              err := "invalid event log (require v3): " ++ String.ofList evPath ++ "\n" }
        | some (pid, modules, events) =>
            let warnings := w.warnings o modules events
            let events := w.symbolized o modules events
            let g := replay events {}
            if ∃ p ∈ o.outFile, ¬ w.canWrite p then
              { code := 1
                err := warnings ++ "cannot open output: " ++ String.ofList (o.outFile.getD []) ++
                  "\n" }
            else
              let r := report g o.rwlockStrict o.maxPerScc
              { code := if 0 < r.2 then 3 else 0
                err := warnings
                output := some (o.outFile, sourceLine evPath pid modules events ++ r.1) }

/-! ## What the command line means -/

/-- A part of the command line. -/
inductive Item where
  | strict
  | maxPerScc (v : List Char)
  | symPath (dirs : List Char)
  | out (p : List Char)
  | file (p : List Char)

namespace Item

/-- The arguments of a part. -/
def args : Item → List (List Char)
  | strict => ["--rwlock-strict".toList]
  | maxPerScc v => ["--max-per-scc".toList, v]
  | symPath dirs => ["--sym-search-path".toList, dirs]
  | out p => ["-o".toList, p]
  | file p => [p]

/-- The path of an event file does not look like an option. -/
def Ok : Item → Prop
  | file p => p.head? ≠ some '-'
  | _ => True

/-- The budget of a part that sets it. -/
def budget? : Item → Option Int
  | maxPerScc v => some (budgetOf v)
  | _ => none

/-- The search path of a part that sets it. -/
def dirs? : Item → Option (List Char)
  | symPath dirs => some dirs
  | _ => none

/-- The output file of a part that sets it. -/
def out? : Item → Option (List Char)
  | out p => some p
  | _ => none

/-- The event file of a part that names it. -/
def file? : Item → Option (List Char)
  | file p => some p
  | _ => none

/-- The part asks for the strict mode. -/
def isStrict : Item → Bool
  | strict => true
  | _ => false

end Item

/-- Set what a part sets. -/
def Item.apply (o : Options) : Item → Options
  | .strict => { o with rwlockStrict := true }
  | .maxPerScc v => { o with maxPerScc := budgetOf v }
  | .symPath dirs => { o with symPathCli := some dirs }
  | .out p => { o with outPath := some p }
  | .file p => { o with evPath := some p }

/-- What a command line means: of several settings the last one counts. -/
def optionsOf (items : List Item) : Options where
  rwlockStrict := items.any Item.isStrict
  maxPerScc := (items.filterMap Item.budget?).getLast?.getD 32
  outPath := (items.filterMap Item.out?).getLast?
  evPath := (items.filterMap Item.file?).getLast?
  symPathCli := (items.filterMap Item.dirs?).getLast?

theorem optionsOf_concat (items : List Item) (item : Item) :
    optionsOf (items ++ [item]) = item.apply (optionsOf items) := by
  cases item <;>
    simp [optionsOf, Item.apply, Item.isStrict, Item.budget?, Item.dirs?, Item.out?, Item.file?]

/-- Behind a part the loop goes on, unless the part is a second event file. -/
theorem argTurn_args {item : Item} (hok : item.Ok) {o : Options}
    (hfile : item.file? = none ∨ o.evPath = none) (rest : List (List Char)) :
    argTurn { options := o, argv := item.args ++ rest } =
      .inr { options := item.apply o, argv := rest } := by
  cases item with
  | strict => rfl
  | maxPerScc v => rfl
  | symPath dirs => rfl
  | out p => rfl
  | file p =>
      have hno : ∀ a : List Char, a.head? = some '-' → p ≠ a := by
        rintro a ha rfl
        exact hok ha
      have hset : ∀ v, o.setValue p v = none := by
        intro v
        rw [Options.setValue, if_neg (hno _ rfl), if_neg (hno _ rfl), if_neg (hno _ rfl)]
      have hvalue : rest.head?.bind (o.setValue p) = none := by
        cases rest.head? with
        | none => rfl
        | some v => exact hset v
      have hev : o.evPath = none := hfile.resolve_left (Option.some_ne_none p)
      show argTurn { options := o, argv := p :: rest } = _
      unfold argTurn
      dsimp only
      rw [if_neg (not_or.mpr ⟨hno _ rfl, hno _ rfl⟩), if_neg (hno _ rfl), hvalue]
      dsimp only
      rw [if_neg hok, if_pos hev]
      rfl

/-- Whenever the loop goes on, it has read a part. -/
theorem exists_args_of_argTurn {s s' : ArgState} (h : argTurn s = .inr s') :
    ∃ item : Item, item.Ok ∧ (item.file? = none ∨ s.options.evPath = none) ∧
      s.argv = item.args ++ s'.argv ∧ s'.options = item.apply s.options := by
  obtain ⟨o, argv⟩ := s
  cases argv with
  | nil => cases h
  | cons a rest =>
      unfold argTurn at h
      dsimp only at h
      split at h
      · cases h
      · split at h
        · rename_i hstrict
          cases h
          exact ⟨.strict, trivial, Or.inl rfl, congrArg (· :: rest) hstrict, rfl⟩
        · split at h
          · rename_i o' hvalue
            cases h
            obtain ⟨v, hv, hset⟩ := Option.bind_eq_some_iff.mp hvalue
            obtain ⟨rest', rfl⟩ := List.head?_eq_some_iff.mp hv
            unfold Options.setValue at hset
            split at hset
            · rename_i ha
              cases hset
              exact ⟨.maxPerScc v, trivial, Or.inl rfl, congrArg (· :: v :: rest') ha, rfl⟩
            · split at hset
              · rename_i ha
                cases hset
                exact ⟨.symPath v, trivial, Or.inl rfl, congrArg (· :: v :: rest') ha, rfl⟩
              · split at hset
                · rename_i ha
                  cases hset
                  exact ⟨.out v, trivial, Or.inl rfl, congrArg (· :: v :: rest') ha, rfl⟩
                · cases hset
          · split at h
            · cases h
            · rename_i hdash
              split at h
              · rename_i hev
                cases h
                exact ⟨.file a, hdash, Or.inr hev, rfl, rfl⟩
              · cases h

theorem argTurn_done_iff {s : ArgState} {o : Options} :
    argTurn s = .inl (.done o) ↔ s.argv = [] ∧ o = s.options := by
  obtain ⟨o', argv⟩ := s
  cases argv with
  | nil =>
      constructor
      · intro h
        cases h
        exact ⟨rfl, rfl⟩
      · rintro ⟨-, rfl⟩
        rfl
  | cons a rest =>
      refine iff_of_false (fun h ↦ ?_) fun h ↦ absurd h.1 (List.cons_ne_nil a rest)
      unfold argTurn at h
      dsimp only at h
      split at h
      · cases h
      · split at h
        · cases h
        · split at h
          · cases h
          · split at h
            · cases h
            · split at h <;> cases h

/-- A command line: at most one event file, and no path of one looks like an option. -/
structure CommandLine (items : List Item) : Prop where
  ok : ∀ item ∈ items, item.Ok
  oneFile : (items.filterMap Item.file?).length ≤ 1

theorem evPath_optionsOf_eq_none_iff {items : List Item} :
    (optionsOf items).evPath = none ↔ items.filterMap Item.file? = [] :=
  List.getLast?_eq_none_iff

theorem filterMap_file?_concat (items : List Item) (item : Item) :
    (items ++ [item]).filterMap Item.file? = items.filterMap Item.file? ++ item.file?.toList := by
  rw [List.filterMap_append]
  cases item <;> rfl

theorem CommandLine.concat {items : List Item} {item : Item} (h : CommandLine items)
    (hok : item.Ok) (hfile : item.file? = none ∨ (optionsOf items).evPath = none) :
    CommandLine (items ++ [item]) where
  ok x hx := by
    rcases List.mem_append.mp hx with hx | hx
    · exact h.ok x hx
    · rwa [List.mem_singleton.mp hx]
  oneFile := by
    rw [filterMap_file?_concat, List.length_append]
    rcases hfile with hfile | hev
    · rw [hfile]
      exact h.oneFile
    · rw [evPath_optionsOf_eq_none_iff.mp hev]
      cases item.file? <;> simp

theorem CommandLine.of_append {items items' : List Item} (h : CommandLine (items ++ items')) :
    CommandLine items where
  ok item hitem := h.ok item (List.mem_append_left _ hitem)
  oneFile := by
    have hle := h.oneFile
    rw [List.filterMap_append, List.length_append] at hle
    exact (Nat.le_add_right _ _).trans hle

/-- The last part of a command line can be read behind the others. -/
theorem CommandLine.last {items : List Item} {item : Item} (h : CommandLine (items ++ [item])) :
    item.Ok ∧ (item.file? = none ∨ (optionsOf items).evPath = none) := by
  refine ⟨h.ok item (List.mem_append_right _ List.mem_cons_self), ?_⟩
  have hle := h.oneFile
  rw [filterMap_file?_concat, List.length_append] at hle
  cases hfile : item.file? with
  | none => exact Or.inl rfl
  | some p =>
      rw [hfile, Option.toList_some, List.length_singleton] at hle
      refine Or.inr (evPath_optionsOf_eq_none_iff.mpr (List.length_eq_zero_iff.mp ?_))
      exact Nat.le_zero.mp (Nat.le_of_succ_le_succ hle)

/-- What the loop reads before it ends well. -/
theorem exists_items_of_ends {s : ArgState} {o : Options} (h : Loop.Ends argTurn s (.done o))
    {items : List Item} (hitems : CommandLine items) (hs : s.options = optionsOf items) :
    ∃ items', CommandLine (items ++ items') ∧ s.argv = items'.flatMap Item.args ∧
      o = optionsOf (items ++ items') := by
  generalize hr : Parsed.done o = r at h
  induction h generalizing items with
  | leave hturn =>
      subst hr
      obtain ⟨hargv, rfl⟩ := argTurn_done_iff.mp hturn
      refine ⟨[], ?_, hargv, ?_⟩
      · rwa [List.append_nil]
      · rw [List.append_nil, hs]
  | turn hturn _ ih =>
      obtain ⟨item, hok, hfile, hargv, hopt⟩ := exists_args_of_argTurn hturn
      rw [hs] at hfile hopt
      rw [← optionsOf_concat] at hopt
      obtain ⟨items', hline, hargv', ho⟩ := ih (hitems.concat hok hfile) hopt hr
      rw [List.append_assoc] at hline ho
      refine ⟨item :: items', hline, ?_, ho⟩
      rw [hargv, hargv', List.flatMap_cons]

/-- A command line is read to its end. -/
theorem ends_of_items (items items' : List Item) (h : CommandLine (items ++ items')) :
    Loop.Ends argTurn { options := optionsOf items, argv := items'.flatMap Item.args }
      (.done (optionsOf (items ++ items'))) := by
  induction items' generalizing items with
  | nil =>
      rw [List.append_nil]
      exact .leave rfl
  | cons item items' ih =>
      have hsplit : items ++ item :: items' = items ++ [item] ++ items' := by
        rw [List.append_assoc, List.singleton_append]
      rw [hsplit] at h ⊢
      obtain ⟨hok, hfile⟩ := h.of_append.last
      refine .turn (argTurn_args hok hfile (items'.flatMap Item.args)) ?_
      rw [← optionsOf_concat]
      exact ih (items ++ [item]) h

/-- **The grammar of the command line.**  The arguments are accepted exactly when they are the
parts of a command line: options in any order, values behind those that take one whatever they look
like, and at most one path that does not begin with a dash.  The variables are then what the
command line means, the last of several settings winning. -/
theorem parseArgs_eq_done_iff (argv : List (List Char)) (o : Options) :
    parseArgs argv = .done o ↔ ∃ items : List Item, CommandLine items ∧
      argv = items.flatMap Item.args ∧ o = optionsOf items := by
  have hends : Loop.Ends argTurn { argv } (parseArgs argv) := Loop.ends_result _
  have hempty : CommandLine [] := ⟨fun item h ↦ absurd h List.not_mem_nil, Nat.zero_le 1⟩
  constructor
  · intro h
    rw [h] at hends
    exact exists_items_of_ends hends hempty rfl
  · rintro ⟨items, hitems, rfl, rfl⟩
    exact hends.eq (ends_of_items [] items hitems)

/-! ## The exit code -/

/-- Symbolizing rewrites frames only. -/
theorem exists_frame_symbolizeAll (t : Toolbox) (uniq : List Int) (modules : List Module)
    (events : List Event) (searchPaths : List (List Char)) :
    ∃ frame : Frame → Frame, t.symbolizeAll uniq modules events searchPaths =
      events.map fun e ↦ { e with bt := e.bt.map frame } := by
  unfold Toolbox.symbolizeAll
  split
  · refine ⟨id, ?_⟩
    simp
  · exact ⟨_, rfl⟩

/-- As many cycles are reported with symbols as without them. -/
theorem report_snd_symbolized (w : World) (o : Options) (modules : List Module)
    (events : List Event) :
    (report (replay (w.symbolized o modules events) {}) o.rwlockStrict o.maxPerScc).2 =
      (report (replay events {}) o.rwlockStrict o.maxPerScc).2 := by
  obtain ⟨frame, hframe⟩ := exists_frame_symbolizeAll w.toolbox
    (w.iterate (uniqPcs events)) modules events (w.searchPaths o)
  rw [World.symbolized, hframe]
  exact report_snd_map_bt (f := List.map frame) List.map_nil events o.rwlockStrict o.maxPerScc

/-- The run comes to the report: the arguments are accepted and name an event file that can be
opened, its text is read as a trace, and the output can be opened. -/
structure Analyzes (w : World) (argv : List (List Char)) (o : Options) (pid : Int)
    (modules : List Module) (events : List Event) : Prop where
  parsed : parseArgs argv.tail = .done o
  read : ∃ evPath t, o.evPath = some evPath ∧ w.readFile evPath = some t ∧
    readTrace t = some (pid, modules, events)
  writable : ∀ p ∈ o.outFile, w.canWrite p

variable {w : World} {argv : List (List Char)}

/-- What a run that comes to the report returns. -/
theorem Analyzes.main_eq {o : Options} {pid : Int} {modules : List Module} {events : List Event}
    (h : Analyzes w argv o pid modules events) :
    ∃ text, main w argv =
      { code := if 0 < (report (replay events {}) o.rwlockStrict o.maxPerScc).2 then 3 else 0
        err := w.warnings o modules events
        output := some (o.outFile, text) } := by
  obtain ⟨evPath, t, hev, hfile, htrace⟩ := h.read
  have hout : ¬ ∃ p ∈ o.outFile, ¬ w.canWrite p := fun ⟨p, hp, hno⟩ ↦ hno (h.writable p hp)
  refine ⟨sourceLine evPath pid modules (w.symbolized o modules events) ++
    (report (replay (w.symbolized o modules events) {}) o.rwlockStrict o.maxPerScc).1, ?_⟩
  unfold main
  simp only [h.parsed, hev, hfile, htrace, if_neg hout, report_snd_symbolized]

theorem append_ne_empty {s : String} (h : s ≠ "") (t : String) : s ++ t ≠ "" := fun hst ↦
  h (String.append_eq_empty_iff.mp hst).1

theorem usage_ne_empty (prog : List Char) : usage prog ≠ "" := by
  unfold usage
  repeat' refine append_ne_empty ?_ _
  decide

/-- The run ends with a complaint, and not with the exit code of a deadlock. -/
def Outcome.Complains (r : Outcome) : Prop := r.code ≠ 3 ∧ r.output = none ∧ r.err ≠ ""

theorem complains {code : Nat} {err : String} (hcode : code ≠ 3) (herr : err ≠ "") :
    Outcome.Complains { code, err } :=
  ⟨hcode, rfl, herr⟩

/-- A run that does not come to the report ends with a complaint. -/
theorem main_complains (h : ¬ ∃ o pid modules events, Analyzes w argv o pid modules events) :
    (main w argv).Complains := by
  have hline : ∀ (head : String) (x : List Char) (tail : String), head ≠ "" →
      head ++ String.ofList x ++ tail ≠ "" :=
    fun head x tail hne ↦ append_ne_empty (append_ne_empty hne _) tail
  unfold main
  dsimp only
  cases hargs : parseArgs argv.tail with
  | help => exact complains (by decide) (usage_ne_empty _)
  | unknown a => exact complains (by decide) (append_ne_empty (hline _ _ _ (by decide)) _)
  | unexpected a => exact complains (by decide) (append_ne_empty (hline _ _ _ (by decide)) _)
  | done o =>
      dsimp only
      cases hev : o.evPath with
      | none => exact complains (by decide) (usage_ne_empty _)
      | some evPath =>
          dsimp only
          cases hfile : w.readFile evPath with
          | none => exact complains (by decide) (hline _ _ _ (by decide))
          | some t =>
              dsimp only
              cases htrace : readTrace t with
              | none => exact complains (by decide) (hline _ _ _ (by decide))
              | some r =>
                  obtain ⟨pid, modules, events⟩ := r
                  have hout : ∃ p ∈ o.outFile, ¬ w.canWrite p := by
                    by_contra hno
                    refine h ⟨o, pid, modules, events, hargs, ⟨evPath, t, hev, hfile, htrace⟩, ?_⟩
                    intro p hp
                    by_contra hw
                    exact hno ⟨p, hp, hw⟩
                  dsimp only
                  rw [if_pos hout]
                  refine complains (by decide) (hline _ _ _ fun hw ↦ ?_)
                  exact absurd (String.append_eq_empty_iff.mp hw).2 (by decide)

/-- The exit code of a run that comes to the report. -/
theorem Analyzes.code_eq_three_iff {o : Options} {pid : Int} {modules : List Module}
    {events : List Event} (h : Analyzes w argv o pid modules events) :
    (main w argv).code = 3 ↔
      0 < (report (replay events {}) o.rwlockStrict o.maxPerScc).2 := by
  obtain ⟨text, hmain⟩ := h.main_eq
  rw [hmain]
  dsimp only
  split
  · rename_i hpos
    exact iff_of_true rfl hpos
  · rename_i hpos
    exact iff_of_false (by decide) hpos

/-- Only a run that comes to the report has the exit code of a deadlock. -/
theorem exists_analyzes_of_code (h : (main w argv).code = 3) :
    ∃ o pid modules events, Analyzes w argv o pid modules events ∧
      0 < (report (replay events {}) o.rwlockStrict o.maxPerScc).2 := by
  by_cases hrun : ∃ o pid modules events, Analyzes w argv o pid modules events
  · obtain ⟨o, pid, modules, events, hrun⟩ := hrun
    exact ⟨o, pid, modules, events, hrun, hrun.code_eq_three_iff.mp h⟩
  · exact absurd h (main_complains hrun).1

end DeadLockDetect.Analyzer
