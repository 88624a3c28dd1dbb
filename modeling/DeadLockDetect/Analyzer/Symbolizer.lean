import DeadLockDetect.Lib.Bisect
import DeadLockDetect.Lib.Dict
import DeadLockDetect.Lib.Numeral
import DeadLockDetect.Analyzer.Types

/-!
# The symbolizer

`symbolizer.py`: the program counters of all frames are collected into a set, put into one bucket
for each module, sent to `addr2line` bucket by bucket, and what it answers is written back to the
frames.

## What is transcribed

* What the symbolizer asks of its surroundings is a `Toolbox`: which paths are files, and what the
  process `addr2line` prints for an input, `none` if it cannot be run.
* The set of the program counters is iterated in some order: a parameter.  A bucket is kept under
  the position of its module in the module table, which stands for `id(m)`.
* The messages to the standard error stream are a function of their own, `warnings`.
-/

namespace DeadLockDetect.Analyzer

open Text Numeral Bisect

/-! ## Modules -/

/-- `_find_module`: the module that contains a program counter, with its position in the table. -/
def findModule (modules : List Module) (bases : List Int) (pc : Int) : Option (Nat × Module) :=
  match bisectRight bases pc with
  | 0 => none
  | i + 1 => match modules[i]? with
    | none => none
    | some m => if pc < m.base ∨ m.base + m.size ≤ pc then none else some (i, m)

/-- `_basename`. -/
def moduleBasename (path : List Char) : List Char := (path.reverse.takeWhile (· ≠ '/')).reverse

/-- What is outside of the analyzer. -/
structure Toolbox where
  /-- `os.path.isfile`. -/
  isFile : List Char → Bool
  /-- What `addr2line -f -C -e exe` prints for this input. -/
  addr2line : List Char → List Char → Option (List Char)

/-- `_file_exists`. -/
def Toolbox.fileExists (t : Toolbox) (p : List Char) : Bool := p ≠ [] && t.isFile p

/-- Where a module may lie in a directory of the search path. -/
def candidate (d bn : List Char) : List Char :=
  if d ≠ [] then d.rdropWhile (· == '/') ++ '/' :: bn else bn

/-- `_resolve_module_file`. -/
def Toolbox.resolveModuleFile (t : Toolbox) (m : Module) (searchPaths : List (List Char)) :
    List Char :=
  if t.fileExists m.path then m.path
  else
    let bn := moduleBasename m.path
    if bn = [] ∨ bn = ['-'] then []
    else ((searchPaths.map fun d ↦ candidate d bn).find? t.fileExists).getD []

/-! ## What `addr2line` prints -/

/-- The code points behind which `str.isdigit` has digits that are no decimal digits, with the last
of each range. -/
def otherDigits : List (Nat × Nat) :=
  [(0xb2, 0xb3), (0xb9, 0xb9), (0x1369, 0x1371), (0x19da, 0x19da), (0x2070, 0x2070),
    (0x2074, 0x2079), (0x2080, 0x2089), (0x2460, 0x2468), (0x2474, 0x247c), (0x2488, 0x2490),
    (0x24ea, 0x24ea), (0x24f5, 0x24fd), (0x24ff, 0x24ff), (0x2776, 0x277e), (0x2780, 0x2788),
    (0x278a, 0x2792), (0x10a40, 0x10a43), (0x10e60, 0x10e68), (0x11052, 0x1105a),
    (0x1f100, 0x1f10a)]

/-- `str.isdigit`. -/
def isDigit (c : Char) : Bool :=
  zeros.any (fun z ↦ z ≤ c.toNat && c.toNat < z + 10) ||
    otherDigits.any fun r ↦ r.1 ≤ c.toNat && c.toNat ≤ r.2

/-- The text in front of the last colon, and the text behind it. -/
def splitAtColon (s : List Char) : Option (List Char × List Char) :=
  match s.reverse.dropWhile (· ≠ ':') with
  | [] => none
  | _ :: file => some (file.reverse, (s.reverse.takeWhile (· ≠ ':')).reverse)

/-- `_parse_file_line`. -/
def parseFileLine (s : List Char) : List Char × Nat :=
  if s = "??:0".toList ∨ s = "??:?".toList then ([], 0)
  else match splitAtColon s with
    | none => (s, 0)
    | some (file, tail) =>
        (file, (tail.takeWhile isDigit).foldl (fun v c ↦ v * 10 + (c.toNat - 48)) 0)

/-- What is found for a program counter. -/
structure SymResult where
  func : List Char := []
  file : List Char := []
  line : Nat := 0
  module : List Char := []
  offset : Int := 0
deriving DecidableEq, Repr

/-- An offset as it is sent to `addr2line`. -/
def query (off : Int) : List Char :=
  let digits := Nat.toDigits 16 off.natAbs
  '0' :: 'x' :: if off < 0 then '-' :: digits else digits

/-- The line that asks for an offset. -/
def queryLine (off : Int) : List Char := line (query off)

/-- What the two lines for an offset say, as far as they are there. -/
def SymResult.ofLines (bn : List Char) (off : Int) (fl loc : Option (List Char)) : SymResult :=
  let r : SymResult := { module := bn, offset := off }
  let r := match fl with
    | some fl => if fl ≠ [] ∧ fl ≠ "??".toList then { r with func := fl } else r
    | none => r
  match loc with
  | some loc => { r with file := (parseFileLine loc).1, line := (parseFileLine loc).2 }
  | none => r

/-- `_symbolize_one_module`. -/
def Toolbox.symbolizeOneModule (t : Toolbox) (exe : List Char) (offsets pcs : List Int)
    (bn : List Char) (results : Dict Int SymResult) : Dict Int SymResult :=
  if offsets = [] then results
  else match t.addr2line exe (offsets.flatMap queryLine) with
    | none => (pcs.zip offsets).foldl
        (fun d x ↦ d.set x.1 { module := bn, offset := x.2 }) results
    | some out =>
        let ls := (universalNewlines out).splitOn '\n'
        (pcs.zip offsets).zipIdx.foldl
          (fun d x ↦ d.set x.1.1 (.ofLines bn x.1.2 ls[x.2 * 2]? ls[x.2 * 2 + 1]?)) results

/-! ## All events -/

/-- The program counters of a bucket and their offsets. -/
structure Bucket where
  module : Module
  pcs : List Int
  offsets : List Int
deriving DecidableEq

/-- Put a program counter into the bucket of its module. -/
def intoBucket (modules : List Module) (s : Dict Nat Bucket × Dict Int SymResult) (pc : Int) :
    Dict Nat Bucket × Dict Int SymResult :=
  match findModule modules (modules.map Module.base) pc with
  | none => (s.1, s.2.set pc { offset := pc })
  | some (key, m) => match s.1.get? key with
    | none => (s.1.set key ⟨m, [pc], [pc - m.base]⟩, s.2)
    | some b => (s.1.set key ⟨b.module, b.pcs ++ [pc], b.offsets ++ [pc - m.base]⟩, s.2)

/-- Resolve the program counters of a bucket. -/
def Toolbox.resolveBucket (t : Toolbox) (searchPaths : List (List Char))
    (results : Dict Int SymResult) (b : Bucket) : Dict Int SymResult :=
  let exe := t.resolveModuleFile b.module searchPaths
  let bn := moduleBasename b.module.path
  if exe = [] then
    (b.pcs.zip b.offsets).foldl (fun d x ↦ d.set x.1 { module := bn, offset := x.2 }) results
  else t.symbolizeOneModule exe b.offsets b.pcs bn results

/-- Write what was found back to a frame. -/
def writeBack (results : Dict Int SymResult) (f : Frame) : Frame :=
  match results.get? f.pc with
  | none => f
  | some r =>
      { f with
        func := String.ofList r.func
        file := String.ofList r.file
        line := r.line
        module := String.ofList r.module
        offset := r.offset }

/-- `symbolize_all`; `uniq` is the set of the program counters in the order of its iteration. -/
def Toolbox.symbolizeAll (t : Toolbox) (uniq : List Int) (modules : List Module)
    (events : List Event) (searchPaths : List (List Char)) : List Event :=
  if events = [] ∨ uniq = [] then events
  else
    let (buckets, results) := uniq.foldl (intoBucket modules) (.empty, .empty)
    let results := (buckets.entries.map Prod.snd).foldl (t.resolveBucket searchPaths) results
    events.map fun e ↦ { e with bt := e.bt.map (writeBack results) }

/-- The message that there is no file for a module. -/
def missingFile (m : Module) : String :=
  "[deadlock_analyze] missing symbol file for module: " ++ String.ofList m.path ++
    " (set DEADLOCK_SYM_SEARCH_PATH or --sym-search-path)\n"

/-- What `symbolize_all` writes to the standard error stream: a message for every bucket whose
module has no file. -/
def Toolbox.warnings (t : Toolbox) (uniq : List Int) (modules : List Module) (events : List Event)
    (searchPaths : List (List Char)) : String :=
  if events = [] ∨ uniq = [] then ""
  else
    let buckets := (uniq.foldl (intoBucket modules) (.empty, .empty)).1.entries.map Prod.snd
    let missing := buckets.filter fun b ↦ t.resolveModuleFile b.module searchPaths = []
    String.join (missing.map fun b ↦ missingFile b.module)

end DeadLockDetect.Analyzer
