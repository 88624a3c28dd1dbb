import DeadLockDetect.Runtime.Backend

/-!
# Reading the trace back

The events that `trace_reader.py` makes of what the backend wrote: one for each `E` line
and its `F` lines.  The text of the lines is left out: the numbers are read as they were
written.  A line whose operation code or kind is unknown is skipped.
-/

namespace DeadLockDetect.Runtime

open Analyzer (EvOp EvKind Event)

/-- All operation codes. -/
def allOps : List EvOp :=
  [.init, .destroy, .lockPre, .lockPost, .trylockPre, .trylockPost, .timedlockPre, .timedlockPost,
    .unlock, .rdlockPre, .rdlockPost, .tryrdlockPre, .tryrdlockPost, .timedrdlockPre,
    .timedrdlockPost, .wrlockPre, .wrlockPost, .trywrlockPre, .trywrlockPost, .timedwrlockPre,
    .timedwrlockPost, .condWaitPre, .condWaitPost, .condTimedwaitPre, .condTimedwaitPost]

/-- The operation with a numeric value. -/
def opOfCode (c : UInt8) : Option EvOp := allOps.find? fun op ↦ opCode op = c

/-- The kind with a numeric value. -/
def kindOfCode (c : UInt8) : Option EvKind :=
  [EvKind.mutex, .rwlock, .spin, .cond].find? fun kind ↦ kindCode kind = c

theorem opOfCode_opCode (op : EvOp) : opOfCode (opCode op) = some op := by
  cases op <;> rfl

theorem kindOfCode_kindCode (kind : EvKind) : kindOfCode (kindCode kind) = some kind := by
  cases kind <;> rfl

/-- The event that is read from a record. -/
def Record.event? (x : Record) : Option Event := do
  let op ← opOfCode x.hdr.op
  let kind ← kindOfCode x.hdr.kind
  return {
    tsNs := x.hdr.tsNs.toNat
    tid := x.hdr.tid.toNat
    op := op
    kind := kind
    addr := x.hdr.addr.toNat
    rc := x.hdr.rcOrFlags.toInt
    bt := x.pcs.map fun pc ↦ { pc := pc.toNat } }

/-- The event that was logged, as the analyzer sees it. -/
def LogEvent.event (e : LogEvent) : Event where
  tsNs := e.tsNs.toNat
  tid := e.tid.toNat
  op := e.op
  kind := e.kind
  addr := e.addr.toNat
  rc := e.rcOrFlags.toInt
  bt := e.pcs.map fun pc ↦ { pc := pc.toNat }

/-- Reading undoes writing. -/
theorem LogEvent.event?_record (e : LogEvent) : e.record.event? = some e.event := by
  have hop : opOfCode e.record.hdr.op = some e.op := opOfCode_opCode e.op
  have hkind : kindOfCode e.record.hdr.kind = some e.kind := kindOfCode_kindCode e.kind
  rw [Record.event?, hop, hkind]
  rfl

namespace Pipeline

/-- The events of the trace in the order in which they are written, each with its ring. -/
def tagged (s : Pipeline) : List (RingId × Event) :=
  s.trace.filterMap fun x ↦ x.2.event?.map fun e ↦ (x.1, e)

/-- The events of the trace. -/
def events (s : Pipeline) : List Event := s.tagged.map Prod.snd

/-- The events of one ring in the trace are those of its records. -/
theorem events_of_ring (s : Pipeline) (r : RingId) :
    ((s.tagged.filter fun x ↦ x.1 = r).map Prod.snd) = (s.written r).filterMap Record.event? := by
  rw [tagged, written]
  induction s.trace with
  | nil => rfl
  | cons x trace ih =>
      obtain ⟨r', out⟩ := x
      by_cases hr : r' = r
      · cases he : out.event? <;> simp [he, hr, ih]
      · cases he : out.event? <;> simp [he, hr, ih]

end Pipeline

end DeadLockDetect.Runtime
