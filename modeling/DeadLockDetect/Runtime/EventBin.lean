import DeadLockDetect.Lib.LittleEndian
import DeadLockDetect.Analyzer.Types
import Mathlib.Algebra.BigOperators.Group.List.Basic

/-!
# The binary form of an event

`event_log.cpp` packs an event into the ring as an `EventHdrBin` of 40 bytes followed by
its program counters, 8 bytes each; `backend.cpp` copies the header out, takes the
number of program counters from it, and copies those.  Both sides are transcribed for a
little-endian machine, and reading gives back what was packed.
-/

namespace DeadLockDetect.Runtime

open Analyzer (EvOp EvKind)

/-- The numeric value of an operation code. -/
def opCode : EvOp → UInt8
  | .init => 1
  | .destroy => 2
  | .lockPre => 3
  | .lockPost => 4
  | .trylockPre => 5
  | .trylockPost => 6
  | .timedlockPre => 7
  | .timedlockPost => 8
  | .unlock => 9
  | .rdlockPre => 10
  | .rdlockPost => 11
  | .tryrdlockPre => 12
  | .tryrdlockPost => 13
  | .timedrdlockPre => 14
  | .timedrdlockPost => 15
  | .wrlockPre => 16
  | .wrlockPost => 17
  | .trywrlockPre => 18
  | .trywrlockPost => 19
  | .timedwrlockPre => 20
  | .timedwrlockPost => 21
  | .condWaitPre => 22
  | .condWaitPost => 23
  | .condTimedwaitPre => 24
  | .condTimedwaitPost => 25

/-- The numeric value of an object kind. -/
def kindCode : EvKind → UInt8
  | .mutex => 1
  | .rwlock => 2
  | .spin => 3
  | .cond => 4

/-- The fixed part of an event. -/
structure EventHdrBin where
  tsNs : UInt64
  tid : UInt64
  addr : UInt64
  rcOrFlags : Int64
  op : UInt8
  kind : UInt8
  frameCnt : UInt16
  pad : UInt32
deriving DecidableEq

/-- `sizeof(EventHdrBin)`. -/
def hdrSize : Nat := 40

/-- A 64-bit word fits into eight bytes. -/
theorem toNat_lt_pow (x : UInt64) : x.toNat < 256 ^ 8 := x.toNat_lt

namespace EventHdrBin

/-- The fields of a header in the order of their offsets. -/
def fields (h : EventHdrBin) : List (Nat × Nat) :=
  [(8, h.tsNs.toNat), (8, h.tid.toNat), (8, h.addr.toNat), (8, h.rcOrFlags.toUInt64.toNat),
    (1, h.op.toNat), (1, h.kind.toNat), (2, h.frameCnt.toNat), (4, h.pad.toNat)]

/-- The header with these bytes. -/
def ofBytes (bs : List UInt8) : EventHdrBin where
  tsNs := UInt64.ofNat (wordAt 0 8 bs)
  tid := UInt64.ofNat (wordAt 8 8 bs)
  addr := UInt64.ofNat (wordAt 16 8 bs)
  rcOrFlags := (UInt64.ofNat (wordAt 24 8 bs)).toInt64
  op := UInt8.ofNat (wordAt 32 1 bs)
  kind := UInt8.ofNat (wordAt 33 1 bs)
  frameCnt := UInt16.ofNat (wordAt 34 2 bs)
  pad := UInt32.ofNat (wordAt 36 4 bs)

/-- Unpacking undoes packing. -/
theorem ofBytes_pack (h : EventHdrBin) : ofBytes (pack h.fields) = h := by
  have field (k n x : Nat) (hk : h.fields[k]? = some (n, x)) (hx : x < 256 ^ n) :=
    wordAt_pack_of_getElem? hk hx
  have h0 : wordAt 0 8 (pack h.fields) = h.tsNs.toNat := field 0 _ _ rfl (toNat_lt_pow _)
  have h1 : wordAt 8 8 (pack h.fields) = h.tid.toNat := field 1 _ _ rfl (toNat_lt_pow _)
  have h2 : wordAt 16 8 (pack h.fields) = h.addr.toNat := field 2 _ _ rfl (toNat_lt_pow _)
  have h3 : wordAt 24 8 (pack h.fields) = h.rcOrFlags.toUInt64.toNat :=
    field 3 _ _ rfl (toNat_lt_pow _)
  have h4 : wordAt 32 1 (pack h.fields) = h.op.toNat := field 4 _ _ rfl h.op.toNat_lt
  have h5 : wordAt 33 1 (pack h.fields) = h.kind.toNat := field 5 _ _ rfl h.kind.toNat_lt
  have h6 : wordAt 34 2 (pack h.fields) = h.frameCnt.toNat := field 6 _ _ rfl h.frameCnt.toNat_lt
  have h7 : wordAt 36 4 (pack h.fields) = h.pad.toNat := field 7 _ _ rfl h.pad.toNat_lt
  rw [ofBytes, h0, h1, h2, h3, h4, h5, h6, h7]
  simp only [UInt64.ofNat_toNat, UInt8.ofNat_toNat, UInt16.ofNat_toNat, UInt32.ofNat_toNat]
  rfl

/-- The size of the event that starts with this header. -/
def payloadSize (h : EventHdrBin) : Nat := hdrSize + 8 * h.frameCnt.toNat

/-- The program counters behind the header. -/
def pcs (h : EventHdrBin) (payload : List UInt8) : List UInt64 :=
  (List.range h.frameCnt.toNat).map fun i ↦ UInt64.ofNat (wordAt (hdrSize + 8 * i) 8 payload)

end EventHdrBin

/-- What `log_event` is given, together with the time and the backtrace that it takes. -/
structure LogEvent where
  tsNs : UInt64
  tid : UInt64
  addr : UInt64
  rcOrFlags : Int64
  op : EvOp
  kind : EvKind
  pcs : List UInt64
  /-- At most `kMaxFramesInline` program counters are captured. -/
  pcs_le : pcs.length ≤ 64
deriving DecidableEq

/-- A successful operation on a mutex, without a backtrace. -/
def mutexEvent (tsNs tid addr : UInt64) (op : EvOp) : LogEvent where
  tsNs := tsNs
  tid := tid
  addr := addr
  rcOrFlags := 0
  op := op
  kind := .mutex
  pcs := []
  pcs_le := Nat.zero_le 64

/-- What is written to the trace for an event: the `E` line and its `F` lines. -/
structure Record where
  hdr : EventHdrBin
  pcs : List UInt64
deriving DecidableEq

namespace LogEvent

/-- The header that `log_event` fills in. -/
def hdr (e : LogEvent) : EventHdrBin where
  tsNs := e.tsNs
  tid := e.tid
  addr := e.addr
  rcOrFlags := e.rcOrFlags
  op := opCode e.op
  kind := kindCode e.kind
  frameCnt := UInt16.ofNat e.pcs.length
  pad := 0

/-- The payload of an event. -/
def encode (e : LogEvent) : List UInt8 :=
  pack (e.hdr.fields ++ e.pcs.map fun pc ↦ (8, pc.toNat))

/-- What the trace should hold for an event. -/
def record (e : LogEvent) : Record := ⟨e.hdr, e.pcs⟩

theorem frameCnt_hdr (e : LogEvent) : e.hdr.frameCnt.toNat = e.pcs.length := by
  have hle := e.pcs_le
  rw [hdr, UInt16.toNat_ofNat', Nat.mod_eq_of_lt (by omega)]

theorem packSize_words (l : List UInt64) :
    packSize (l.map fun pc ↦ (8, pc.toNat)) = 8 * l.length := by
  rw [packSize, List.map_map]
  show (l.map fun _ ↦ 8).sum = _
  rw [List.map_const', List.sum_replicate]
  exact Nat.mul_comm _ _

theorem payloadSize_hdr (e : LogEvent) : e.hdr.payloadSize = e.encode.length := by
  rw [EventHdrBin.payloadSize, frameCnt_hdr, encode, length_pack, packSize_append, packSize_words]
  rfl

theorem hdrSize_le (e : LogEvent) : hdrSize ≤ e.encode.length := by
  rw [← payloadSize_hdr]
  exact Nat.le_add_right _ _

/-- Packing keeps every event short. -/
theorem length_encode_lt (e : LogEvent) : e.encode.length < 2 ^ 63 := by
  have hle := e.pcs_le
  rw [← payloadSize_hdr, EventHdrBin.payloadSize, frameCnt_hdr, hdrSize]
  omega

/-- Unpacking the header undoes packing. -/
theorem ofBytes_encode (e : LogEvent) : EventHdrBin.ofBytes (e.encode.take hdrSize) = e.hdr := by
  have hlen : (pack e.hdr.fields).length = hdrSize := length_pack e.hdr.fields
  rw [encode, pack_append, List.take_left' hlen, EventHdrBin.ofBytes_pack]

/-- Unpacking the program counters undoes packing. -/
theorem pcs_encode (e : LogEvent) : e.hdr.pcs e.encode = e.pcs := by
  refine List.ext_getElem? fun i ↦ ?_
  rw [EventHdrBin.pcs, List.getElem?_map, frameCnt_hdr]
  rcases Nat.lt_or_ge i e.pcs.length with hi | hi
  · rw [List.getElem?_range hi, List.getElem?_eq_getElem hi, Option.map_some]
    have hsplit : e.hdr.fields ++ e.pcs.map (fun pc ↦ (8, pc.toNat)) =
        (e.hdr.fields ++ (e.pcs.take i).map fun pc ↦ (8, pc.toNat)) ++
          (8, e.pcs[i].toNat) :: (e.pcs.drop (i + 1)).map fun pc ↦ (8, pc.toNat) := by
      rw [List.append_assoc, ← List.map_cons (f := fun pc : UInt64 ↦ (8, pc.toNat)),
        ← List.drop_eq_getElem_cons hi, ← List.map_append, List.take_append_drop]
    have hoff : packSize (e.hdr.fields ++ (e.pcs.take i).map fun pc ↦ (8, pc.toNat)) =
        hdrSize + 8 * i := by
      rw [packSize_append, packSize_words, List.length_take, Nat.min_eq_left hi.le]
      rfl
    rw [encode, hsplit, ← hoff, wordAt_pack _ _ (toNat_lt_pow _), UInt64.ofNat_toNat]
  · rw [List.getElem?_eq_none hi, List.getElem?_eq_none (by rw [List.length_range]; exact hi)]
    rfl

/-- The payload determines the record. -/
theorem record_eq_of_encode_eq {e e' : LogEvent} (h : e.encode = e'.encode) :
    e.record = e'.record := by
  have hhdr : e.hdr = e'.hdr := by rw [← ofBytes_encode, h, ofBytes_encode]
  rw [record, record, hhdr, ← pcs_encode e, ← pcs_encode e', hhdr, h]

end LogEvent

end DeadLockDetect.Runtime
