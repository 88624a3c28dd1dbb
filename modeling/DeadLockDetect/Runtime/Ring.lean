import DeadLockDetect.Lib.Cell
import Mathlib.Logic.Function.Basic

/-!
# The per-thread ring buffer

`ring_buffer.h`: a byte ring with one producer and one consumer.  Both counters are
64-bit words that only count up and wrap; a counter is turned into a position by
masking it with `capacity - 1`.

## What is transcribed

* `ThreadRing` holds the fields of the class, less those that only the registry of
  rings uses.  Each of the two counters is a `Cell`: the party that stores it reads it
  back (`Cell.latest`), the other party loads some value that has been stored
  (`Cell.seen`).
* `Producer` is the program counter of `reserve`, of the caller that fills the block
  and of `commit`; `Producer.step` performs one access to the shared memory.  The
  constructor has succeeded, so `buf_` is not null.
* The operations of the consumer are functions of the ring.  `readable`, `peek_tag`
  and the rest use the value of `head_` that the consumer loaded last.
-/

namespace DeadLockDetect.Runtime

/-- The tag of an event. -/
def kTagEvent : UInt8 := 0x01

/-- The tag of one byte of padding. -/
def kTagSkip : UInt8 := 0x02

/-- The ring buffer of one thread. -/
structure ThreadRing where
  /-- The size of the buffer, a power of two. -/
  capacity : UInt64
  /-- The bytes of the buffer. -/
  buf : Nat → UInt8
  /-- The payload size of the block that is reserved and not yet committed. -/
  pendingPayloadSize : UInt64 := 0
  /-- Written by the producer. -/
  head : Cell UInt64 := ⟨0, []⟩
  /-- Written by the consumer. -/
  tail : Cell UInt64 := ⟨0, []⟩

namespace ThreadRing

/-- What a counter is masked with. -/
def mask (r : ThreadRing) : UInt64 := r.capacity - 1

/-- Store a byte of the buffer. -/
def write (r : ThreadRing) (off : Nat) (b : UInt8) : ThreadRing :=
  { r with buf := Function.update r.buf off b }

@[simp] theorem write_capacity (r : ThreadRing) (off : Nat) (b : UInt8) :
    (r.write off b).capacity = r.capacity := rfl

@[simp] theorem write_self (r : ThreadRing) (off : Nat) (b : UInt8) :
    (r.write off b).buf off = b := by
  show Function.update r.buf off b off = b
  rw [Function.update_self]

theorem write_of_ne (r : ThreadRing) {off off' : Nat} (h : off' ≠ off) (b : UInt8) :
    (r.write off b).buf off' = r.buf off' := by
  show Function.update r.buf off b off' = r.buf off'
  rw [Function.update_of_ne h]

/-- The producer loads `tail_`. -/
def loadTail (r : ThreadRing) (i : Nat) : Option ThreadRing :=
  (r.tail.load i).map fun c ↦ { r with tail := c }

/-- The producer stores `head_`. -/
def storeHead (r : ThreadRing) (h : UInt64) : ThreadRing := { r with head := r.head.store h }

/-! ## The consumer -/

/-- The consumer loads `head_`. -/
def loadHead (r : ThreadRing) (i : Nat) : Option ThreadRing :=
  (r.head.load i).map fun c ↦ { r with head := c }

/-- The consumer stores `tail_`. -/
def storeTail (r : ThreadRing) (t : UInt64) : ThreadRing := { r with tail := r.tail.store t }

/-- The number of bytes that the consumer may read. -/
def readable (r : ThreadRing) : UInt64 := r.head.seen - r.tail.latest

/-- The byte that `peek_tag` returns when something is readable. -/
def tagByte (r : ThreadRing) : UInt8 := r.buf (r.tail.latest &&& r.mask).toNat

/-- Drop one byte of padding. -/
def skipPadding (r : ThreadRing) : ThreadRing := r.storeTail (r.tail.latest + 1)

/-- A byte of the payload that `peek_payload` copies. -/
def payloadByte (r : ThreadRing) (j : Nat) : UInt8 :=
  r.buf (((r.tail.latest + 1) &&& r.mask).toNat + j)

/-- The first `n` bytes of the payload. -/
def peekPayload (r : ThreadRing) (n : Nat) : List UInt8 := (List.range n).map r.payloadByte

/-- Drop an event. -/
def consumeEvent (r : ThreadRing) (payloadSize : UInt64) : ThreadRing :=
  r.storeTail (r.tail.latest + 1 + payloadSize)

end ThreadRing

/-! ## The producer -/

/-- Where the producer stands in `reserve`, in filling the block and in `commit`. -/
inductive Producer where
  /-- About to call `reserve`. -/
  | idle
  /-- `head_` was read as `h`; about to load `tail_`. -/
  | loadTail (h : UInt64)
  /-- In the padding loop, `i` bytes written. -/
  | pad (h off padNeed : UInt64) (i : Nat)
  /-- About to publish the padding. -/
  | storePad (h : UInt64)
  /-- The padding is published; about to load `tail_` again. -/
  | reloadTail (h : UInt64)
  /-- There is room; about to write the tag. -/
  | writeTag (off : UInt64)
  /-- `reserve` has returned `buf_ + off + 1`; `j` bytes of the block are filled. -/
  | fill (off : UInt64) (j : Nat)
  /-- `commit` is about to publish the event. -/
  | publish (h : UInt64)
deriving DecidableEq, Repr

namespace Producer

/-- The bytes that an event takes: tag and payload. -/
def need (payload : List UInt8) : UInt64 := 1 + UInt64.ofNat payload.length

/-- `free_bytes`, from the counters that `reserve` has loaded. -/
def freeBytes (r : ThreadRing) (h : UInt64) : UInt64 := r.capacity - (h - r.tail.seen)

/-- The last test of `reserve`: a null pointer, or the block at `off`. -/
def place (r : ThreadRing) (payload : List UInt8) (h off : UInt64) : Producer :=
  if freeBytes r h < need payload then .idle else .writeTag off

/-- What `reserve` does once it has loaded both counters. -/
def plan (r : ThreadRing) (payload : List UInt8) (h : UInt64) : Producer :=
  let off := h &&& r.mask
  let toEnd := r.capacity - off
  if toEnd < need payload then
    if freeBytes r h < toEnd + need payload then .idle else .pad h off toEnd 0
  else place r payload h off

/-- One step of the producer.  A load of `tail_` returns the value that was stored `i`
stores after the one loaded last. -/
def step (r : ThreadRing) (payload : List UInt8) (i : Nat) :
    Producer → Option (ThreadRing × Producer)
  | .idle => some (r, .loadTail r.head.latest)
  | .loadTail h => (r.loadTail i).map fun r ↦ (r, plan r payload h)
  | .pad h off padNeed n =>
      if n < padNeed.toNat then
        some (r.write (off.toNat + n) kTagSkip, .pad h off padNeed (n + 1))
      else some (r, .storePad (h + padNeed))
  | .storePad h => some (r.storeHead h, .reloadTail h)
  | .reloadTail h => (r.loadTail i).map fun r ↦ (r, place r payload h 0)
  | .writeTag off =>
      some ({ r.write off.toNat kTagEvent with
        pendingPayloadSize := UInt64.ofNat payload.length }, .fill off 0)
  | .fill off j =>
      match payload[j]? with
      | some b => some (r.write (off.toNat + 1 + j) b, .fill off (j + 1))
      | none => some (r, .publish (r.head.latest + (1 + r.pendingPayloadSize)))
  | .publish h => some ({ r.storeHead h with pendingPayloadSize := 0 }, .idle)

/-- The step that makes an event visible to the consumer. -/
def commits : Producer → Bool
  | .publish _ => true
  | _ => false

/-- The part of the buffer that the producer is writing: its start and its length. -/
def block (payload : List UInt8) : Producer → Option (Nat × Nat)
  | .pad _ off padNeed _ => some (off.toNat, padNeed.toNat)
  | .writeTag off | .fill off _ => some (off.toNat, 1 + payload.length)
  | _ => none

end Producer

end DeadLockDetect.Runtime
