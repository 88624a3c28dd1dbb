import DeadLockDetect.Lib.Loop
import DeadLockDetect.Lib.Numeral
import DeadLockDetect.Analyzer.Types
import DeadLockDetect.Trace.Read
import Mathlib.Data.List.Sort

/-!
# The trace reader

`trace_reader.py`: the first line of a trace must be a `HEADER` line; the lines behind it are read
one after the other.  An `M` line gives a module and an `E` line an event, which takes its frames
from the lines behind it; other lines and damaged ones are skipped.

The loop over the lines may take several of them in one turn.  `Reads` says what it makes of the
lines without counting turns.
-/

namespace DeadLockDetect.Analyzer

open Text Numeral

/-! ## One line -/

/-- The value of an operation code in `events.py`. -/
def EvOp.value : EvOp → Int
  | .init => 1
  | .destroy => 2
  | .lockPre => 3
  | .lockPost => 4
  | .trylockPre => 5
  | .trylockPost => 6
  | .timedlockPre => 7
  | .timedlockPost => 8
  | .unlock => 9
  | .rdlockPre => 10
  | .rdlockPost => 11
  | .tryrdlockPre => 12
  | .tryrdlockPost => 13
  | .timedrdlockPre => 14
  | .timedrdlockPost => 15
  | .wrlockPre => 16
  | .wrlockPost => 17
  | .trywrlockPre => 18
  | .trywrlockPost => 19
  | .timedwrlockPre => 20
  | .timedwrlockPost => 21
  | .condWaitPre => 22
  | .condWaitPost => 23
  | .condTimedwaitPre => 24
  | .condTimedwaitPost => 25

/-- The value of an object kind in `events.py`. -/
def EvKind.value : EvKind → Int
  | .mutex => 1
  | .rwlock => 2
  | .spin => 3
  | .cond => 4

/-- `EvOp(x)`. -/
def EvOp.ofValue (x : Int) : Option EvOp := Runtime.allOps.find? fun op ↦ op.value = x

/-- `EvKind(x)`. -/
def EvKind.ofValue (x : Int) : Option EvKind :=
  [EvKind.mutex, .rwlock, .spin, .cond].find? fun kind ↦ kind.value = x

/-- `_parse_hex`. -/
def parseHex (s : List Char) : Option Int := if s = [] then none else parseInt 16 s

/-- The module of an `M` line with these fields. -/
def parseModule : List (List Char) → Option Module
  | _ :: idx :: base :: size :: buildId :: path :: _ => do
      let idx ← parseInt 10 idx
      let base ← parseHex base
      let size ← parseHex size
      return { idx := idx, base := base, size := size, buildId := buildId, path := path }
  | _ => none

/-- The event of an `E` line with these fields, and the number of frames it announces.  A
damaged return code counts as `0`. -/
def parseEvent : List (List Char) → Option (Event × Int)
  | _ :: ts :: tid :: op :: kind :: addr :: rc :: nf :: _ => do
      let tsNs ← parseInt 10 ts
      let tid ← parseInt 10 tid
      let op ← (parseInt 10 op).bind EvOp.ofValue
      let kind ← (parseInt 10 kind).bind EvKind.ofValue
      let addr ← parseHex addr
      let nf ← parseInt 10 nf
      return ({ tsNs := tsNs, tid := tid, op := op, kind := kind, addr := addr,
                rc := (parseInt 10 rc).getD 0, bt := [] }, nf)
  | _ => none

/-- What the loop over the lines makes of a line. -/
inductive Line where
  /-- The line is skipped. -/
  | other
  | module (m : Module)
  | event (e : Event) (nf : Int)
deriving DecidableEq

/-- The line as the loop over the lines sees it. -/
def parseLine (l : List Char) : Line :=
  if isBlank l then .other
  else
    let p := fields l
    if p.head? = some ['M'] then
      match parseModule p with
      | some m => .module m
      | none => .other
    else if p.head? = some ['E'] then
      match parseEvent p with
      | some (e, nf) => .event e nf
      | none => .other
    else .other

theorem parseLine_of_module {l : List Char} {p : List (List Char)} {m : Module}
    (hblank : isBlank l = false) (hp : fields l = ['M'] :: p)
    (hm : parseModule (['M'] :: p) = some m) : parseLine l = .module m := by
  simp only [parseLine, hblank, hp, hm, List.head?_cons, Bool.false_eq_true, if_false, if_true]

theorem parseLine_of_event {l : List Char} {p : List (List Char)} {e : Event} {nf : Int}
    (hblank : isBlank l = false) (hp : fields l = ['E'] :: p)
    (he : parseEvent (['E'] :: p) = some (e, nf)) : parseLine l = .event e nf := by
  have htag : some ['E'] ≠ some ['M'] := by decide
  simp only [parseLine, hblank, hp, he, List.head?_cons, Bool.false_eq_true, if_false, htag, if_true]

/-- The line as the loop over the frames sees it: not an `F` line, an `F` line without a
program counter, or a frame. -/
def parseFrame (l : List Char) : Option (Option Frame) :=
  match fields l with
  | tag :: pc :: _ => if tag = ['F'] then some ((parseHex pc).map fun pc ↦ { pc := pc }) else none
  | _ => none

/-! ## The loops -/

/-- The loop over the frames of an event, with the lines that it leaves.  The first line that is
not an `F` line is read and ends it. -/
def readFrames : Nat → List (List Char) → Bt × List (List Char)
  | 0, ls => ([], ls)
  | _ + 1, [] => ([], [])
  | n + 1, l :: ls => match parseFrame l with
    | none => ([], ls)
    | some none => readFrames n ls
    | some (some f) => let r := readFrames n ls; (f :: r.1, r.2)

/-- The variables of the loop over the lines. -/
structure ReadState where
  lines : List (List Char)
  modules : List Module := []
  events : List Event := []

/-- The body of the loop over the lines. -/
def readTurn (s : ReadState) : (List Module × List Event) ⊕ ReadState :=
  match s.lines with
  | [] => .inl (s.modules, s.events)
  | l :: ls => .inr <| match parseLine l with
    | .other => { s with lines := ls }
    | .module m => { s with lines := ls, modules := s.modules ++ [m] }
    | .event e nf =>
        let r := readFrames nf.toNat ls
        { s with lines := r.2, events := s.events ++ [{ e with bt := r.1 }] }

/-- The loop over the frames reads forward. -/
theorem readFrames_isSuffix (n : Nat) (ls : List (List Char)) : (readFrames n ls).2 <:+ ls := by
  fun_induction readFrames n ls with
  | case1 ls => exact List.suffix_rfl
  | case2 n => exact List.suffix_rfl
  | case3 n l ls h => exact List.suffix_cons l ls
  | case4 n l ls h ih => exact ih.trans (List.suffix_cons l ls)
  | case5 n l ls f h r ih => exact ih.trans (List.suffix_cons l ls)

theorem length_readTurn_lt (s s' : ReadState) (h : readTurn s = .inr s') :
    s'.lines.length < s.lines.length := by
  obtain ⟨ls, ms, es⟩ := s
  cases ls with
  | nil => cases h
  | cons l ls =>
      cases Sum.inr.inj h
      cases parseLine l with
      | other => exact Nat.lt_succ_self _
      | module m => exact Nat.lt_succ_self _
      | event e nf => exact Nat.lt_succ_of_le (readFrames_isSuffix _ _).length_le

/-- The loop over the lines ends. -/
theorem isSome_run_readTurn (ls : List (List Char)) :
    (Loop.run readTurn (ls.length + 1) { lines := ls }).isSome :=
  Loop.isSome_run (fun s ↦ s.lines.length) length_readTurn_lt (Nat.lt_succ_self _)

/-- The modules and events of the lines behind the header. -/
def readRecords (ls : List (List Char)) : List Module × List Event :=
  Loop.result readTurn (ls.length + 1) { lines := ls } (isSome_run_readTurn ls)

/-- The process id in the fields of the header; a damaged one counts as `0`. -/
def headerPid (p : List (List Char)) : Int :=
  match p.find? fun f ↦ "pid=".toList.isPrefixOf f with
  | some f => (parseInt 10 (f.drop 4)).getD 0
  | none => 0

/-- The process id of a valid header. -/
def readHeader (l : List Char) : Option Int :=
  match fields l with
  | magic :: format :: version :: rest =>
      if magic = "HEADER".toList ∧ format = "DEADLOCK_EVENTS".toList ∧ version = "v3".toList then
        some (headerPid (magic :: format :: version :: rest))
      else none
  | _ => none

/-- `read_trace`. -/
def readTrace (t : List Char) : Option (Int × List Module × List Event) :=
  match readLines t with
  | [] => none
  | l :: ls => (readHeader l).map fun pid ↦
      let r := readRecords ls
      (pid, r.1.insertionSort fun m n ↦ m.base ≤ n.base, r.2)

/-! ## What the lines are read as -/

/-- The lines are read as these modules and events. -/
inductive Reads : List (List Char) → List Module → List Event → Prop where
  | nil : Reads [] [] []
  | other {l : List Char} {ls : List (List Char)} {ms : List Module} {es : List Event}
      (h : parseLine l = .other) (hr : Reads ls ms es) : Reads (l :: ls) ms es
  | module {l : List Char} {ls : List (List Char)} {m : Module} {ms : List Module}
      {es : List Event} (h : parseLine l = .module m) (hr : Reads ls ms es) :
      Reads (l :: ls) (m :: ms) es
  | event {l : List Char} {ls : List (List Char)} {e : Event} {nf : Int} {ms : List Module}
      {es : List Event} (h : parseLine l = .event e nf)
      (hr : Reads (readFrames nf.toNat ls).2 ms es) :
      Reads (l :: ls) ms ({ e with bt := (readFrames nf.toNat ls).1 } :: es)

/-- The loop over the lines appends what they are read as. -/
theorem Reads.ends {ls : List (List Char)} {ms : List Module} {es : List Event}
    (h : Reads ls ms es) (ms₀ : List Module) (es₀ : List Event) :
    Loop.Ends readTurn ⟨ls, ms₀, es₀⟩ (ms₀ ++ ms, es₀ ++ es) := by
  induction h generalizing ms₀ es₀ with
  | nil =>
      rw [List.append_nil, List.append_nil]
      exact .leave rfl
  | other h _ ih =>
      refine .turn ?_ (ih ms₀ es₀)
      simp only [readTurn, h]
  | @module l ls m ms es h _ ih =>
      have hturn := ih (ms₀ ++ [m]) es₀
      rw [List.append_assoc, List.singleton_append] at hturn
      refine .turn ?_ hturn
      simp only [readTurn, h]
  | @event l ls e nf ms es h _ ih =>
      have hturn := ih ms₀ (es₀ ++ [{ e with bt := (readFrames nf.toNat ls).1 }])
      rw [List.append_assoc, List.singleton_append] at hturn
      refine .turn ?_ hturn
      simp only [readTurn, h]

theorem readRecords_eq {ls : List (List Char)} {ms : List Module} {es : List Event}
    (h : Reads ls ms es) : readRecords ls = (ms, es) :=
  (Loop.ends_result _).eq (h.ends [] [])

/-- All lines are read as something. -/
theorem exists_reads (ls : List (List Char)) : ∃ ms es, Reads ls ms es := by
  induction hn : ls.length using Nat.strong_induction_on generalizing ls with
  | _ n ih =>
      cases ls with
      | nil => exact ⟨[], [], .nil⟩
      | cons l ls =>
          subst hn
          cases h : parseLine l with
          | other =>
              obtain ⟨ms, es, hr⟩ := ih _ (Nat.lt_succ_self _) ls rfl
              exact ⟨ms, es, .other h hr⟩
          | module m =>
              obtain ⟨ms, es, hr⟩ := ih _ (Nat.lt_succ_self _) ls rfl
              exact ⟨m :: ms, es, .module h hr⟩
          | event e nf =>
              have hlt := Nat.lt_succ_of_le (readFrames_isSuffix nf.toNat ls).length_le
              obtain ⟨ms, es, hr⟩ := ih _ hlt (readFrames nf.toNat ls).2 rfl
              exact ⟨ms, _, .event h hr⟩

/-- The lines are read as the result of the loop. -/
theorem reads_readRecords (ls : List (List Char)) :
    Reads ls (readRecords ls).1 (readRecords ls).2 := by
  obtain ⟨ms, es, h⟩ := exists_reads ls
  rwa [readRecords_eq h]

end DeadLockDetect.Analyzer
