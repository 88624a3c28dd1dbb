import DeadLockDetect.Lib.Run
import DeadLockDetect.Runtime.Ring
import DeadLockDetect.Runtime.EventBin

/-!
# The backend and the threads that feed it

`backend.cpp` with the parts of `event_log.cpp` and `thread_state.cpp` that it works
with: any number of threads log events, each into a ring of its own; the backend
thread scans the registry of rings, writes the events to the trace and reclaims the
rings of threads that have exited; closing the log stops the backend thread, waits for
it, and scans once more.

## What is transcribed

* A ring is named by the thread that allocates it.  The fields `producer_dead` and
  `next_in_registry` of all rings are the functions `producerDead` and
  `nextInRegistry`.
* `ThreadPc` is the position of a thread in `log_event` and `backend_register_ring`;
  `Process`, `Scan` and `Stage` are those in `process_one_event`,
  `scan_all_rings_once`, and `backend_main` followed by `backend_final_drain`.  All
  accesses to shared memory are separate steps, except that `peek_tag` and
  `peek_payload` copy in one step, since the bytes they copy are not being written.
* Loads of the counters return any published value, as in a single ring.  Reading
  `producer_dead` as set synchronises with the producer, and so does the start of the
  final drain; the other flags are read as last written.
* Flushing and sleeping do nothing to the records and are left out.
* `committed`, `cut` and `freed` record the history and influence nothing.
-/

namespace DeadLockDetect.Runtime

/-- A ring is named by the thread that allocates it; the name stands for a pointer. -/
abbrev RingId := Nat

/-! ## One event -/

/-- The most frames that the backend accepts. -/
def kMaxFrames : Nat := 256

/-- The position in `process_one_event`. -/
inductive Process where
  /-- At the test of the loop that skips padding. -/
  | skip
  /-- About to skip a byte of padding. -/
  | skipPad
  /-- About to peek the tag again. -/
  | peek
  /-- About to read the header. -/
  | header
  /-- Less than a header is readable. -/
  | shortHeader
  /-- About to read the program counters. -/
  | body (hdr : EventHdrBin)
  /-- Less than the event is readable. -/
  | shortBody
  /-- The header claims too many frames. -/
  | corrupt (hdr : EventHdrBin)
  /-- The event is copied; about to consume it. -/
  | consume (hdr : EventHdrBin) (pcs : List UInt64)
  /-- About to write the event. -/
  | write (out : Record)
  /-- Returned. -/
  | done (res : Bool)
deriving DecidableEq

/-- One step of `process_one_event`; writing the event is left to the caller. -/
def Process.step (r : ThreadRing) (i : Nat) : Process → Option (ThreadRing × Process)
  | .skip => (r.loadHead i).map fun r ↦
      (r, if r.readable ≠ 0 ∧ r.tagByte = kTagSkip then .skipPad else .peek)
  | .skipPad => some (r.skipPadding, .skip)
  | .peek => (r.loadHead i).map fun r ↦
      (r, if r.readable = 0 then .done false
        else if r.tagByte ≠ kTagEvent then .done false else .header)
  | .header => (r.loadHead i).map fun r ↦
      (r, if r.readable.toNat < 1 + hdrSize then .shortHeader
        else .body (EventHdrBin.ofBytes (r.peekPayload hdrSize)))
  | .shortHeader => some (r, .done false)
  | .body hdr => (r.loadHead i).map fun r ↦
      (r, if r.readable.toNat < 1 + hdr.payloadSize then .shortBody
        else if kMaxFrames < hdr.frameCnt.toNat then .corrupt hdr
        else .consume hdr (hdr.pcs (r.peekPayload hdr.payloadSize)))
  | .shortBody => some (r, .done false)
  | .corrupt hdr => some (r.consumeEvent (UInt64.ofNat hdr.payloadSize), .done true)
  | .consume hdr pcs => some (r.consumeEvent (UInt64.ofNat hdr.payloadSize), .write ⟨hdr, pcs⟩)
  | .write _ | .done _ => none

/-! ## The state -/

/-- The position in `scan_all_rings_once`.  `prev` and `r` are its variables and `work`
is `did_work`. -/
inductive Scan where
  /-- About to lock the registry. -/
  | lock
  /-- About to read the head of the registry. -/
  | head
  /-- At the test of the loop. -/
  | loop (prev r : Option RingId) (work : Bool)
  /-- In `process_one_event`. -/
  | process (prev : Option RingId) (r : RingId) (work : Bool) (p : Process)
  /-- About to read `producer_dead`. -/
  | dead (prev : Option RingId) (r : RingId) (work : Bool)
  /-- The producer is dead; about to call `readable`. -/
  | empty (prev : Option RingId) (r : RingId) (work : Bool)
  /-- About to unlink and delete the ring. -/
  | unlink (prev : Option RingId) (r : RingId) (work : Bool)
  /-- About to go on to the next ring. -/
  | next (r : RingId) (work : Bool)
  /-- About to unlock the registry. -/
  | unlock (work : Bool)
  /-- Returned. -/
  | done (work : Bool)
deriving DecidableEq

/-- The stages in the life of the log. -/
inductive Stage where
  /-- The loop of `backend_main`. -/
  | running (s : Scan)
  /-- The last drain of `backend_main`. -/
  | lastDrain (s : Scan)
  /-- The backend thread has returned. -/
  | exited
  /-- `backend_final_drain`, called by the thread that closes the log. -/
  | finalDrain (s : Scan)
  /-- The log is closed. -/
  | closed
deriving DecidableEq

/-- The position of a thread in `log_event`. -/
inductive ThreadPc where
  /-- Outside. -/
  | idle
  /-- In `current_ring`, about to allocate a ring. -/
  | alloc (e : LogEvent)
  /-- In `backend_register_ring`, about to lock the registry. -/
  | lock (e : LogEvent)
  /-- About to link the ring to the head of the registry. -/
  | linkNext (e : LogEvent)
  /-- About to make the ring the head of the registry. -/
  | linkHead (e : LogEvent)
  /-- About to unlock the registry. -/
  | unlock (e : LogEvent)
  /-- In `reserve`, filling the block, or in `commit`. -/
  | produce (e : LogEvent) (p : Producer)
  /-- The thread has exited. -/
  | exited
deriving DecidableEq

/-- A thread. -/
structure Thread where
  pc : ThreadPc := .idle
  /-- The thread has a ring. -/
  hasRing : Bool := false
deriving DecidableEq

/-- Who holds the registry mutex. -/
inductive Owner where
  | scanner
  | thread (t : RingId)
deriving DecidableEq

/-- The state of the whole runtime. -/
structure Pipeline where
  rings : RingId → ThreadRing
  producerDead : RingId → Bool := fun _ ↦ false
  nextInRegistry : RingId → Option RingId := fun _ ↦ none
  registryHead : Option RingId := none
  registryMu : Option Owner := none
  logEnabled : Bool := true
  shutdownRequest : Bool := false
  threads : RingId → Thread := fun _ ↦ {}
  stage : Stage := .running .lock
  /-- The records in the trace, each with the ring that it came from. -/
  trace : List (RingId × Record) := []
  /-- The events committed to each ring. -/
  committed : RingId → List LogEvent := fun _ ↦ []
  /-- The events that were committed to each ring when the final drain started. -/
  cut : RingId → List LogEvent := fun _ ↦ []
  /-- The rings that were deleted. -/
  freed : RingId → Bool := fun _ ↦ false

namespace Pipeline

/-- Change one ring. -/
def setRing (s : Pipeline) (r : RingId) (ring : ThreadRing) : Pipeline :=
  { s with rings := Function.update s.rings r ring }

/-- Move a thread. -/
def setPc (s : Pipeline) (t : RingId) (pc : ThreadPc) : Pipeline :=
  { s with threads := Function.update s.threads t { s.threads t with pc := pc } }

/-- The records written for a ring. -/
def written (s : Pipeline) (r : RingId) : List Record :=
  (s.trace.filter fun x ↦ x.1 = r).map Prod.snd

/-! ## The scanner -/

/-- One step of `scan_all_rings_once`. -/
def scanStep (s : Pipeline) (i : Nat) : Scan → Option (Pipeline × Scan)
  | .lock =>
      if s.registryMu = none then some ({ s with registryMu := some .scanner }, .head) else none
  | .head => some (s, .loop none s.registryHead false)
  | .loop _ none work => some (s, .unlock work)
  | .loop prev (some r) work => some (s, .process prev r work .skip)
  | .process prev r work (.write out) =>
      some ({ s with trace := s.trace ++ [(r, out)] }, .process prev r work (.done true))
  | .process prev r _ (.done true) => some (s, .process prev r true .skip)
  | .process prev r work (.done false) => some (s, .dead prev r work)
  | .process prev r work p =>
      (p.step (s.rings r) i).map fun x ↦ (s.setRing r x.1, .process prev r work x.2)
  | .dead prev r work =>
      if s.producerDead r then
        some (s.setRing r { s.rings r with head := (s.rings r).head.sync }, .empty prev r work)
      else some (s, .next r work)
  | .empty prev r work => ((s.rings r).loadHead i).map fun ring ↦
      (s.setRing r ring, if ring.readable = 0 then .unlink prev r work else .next r work)
  | .unlink none r work =>
      some ({ s with
        registryHead := s.nextInRegistry r
        freed := Function.update s.freed r true }, .loop none (s.nextInRegistry r) work)
  | .unlink (some p) r work =>
      some ({ s with
        nextInRegistry := Function.update s.nextInRegistry p (s.nextInRegistry r)
        freed := Function.update s.freed r true }, .loop (some p) (s.nextInRegistry r) work)
  | .next r work => some (s, .loop (some r) (s.nextInRegistry r) work)
  | .unlock work => some ({ s with registryMu := none }, .done work)
  | .done _ => none

/-- One step of the backend thread or of the final drain. -/
def backendStep (s : Pipeline) (i : Nat) : Option Pipeline :=
  match s.stage with
  | .running (.done _) =>
      some { s with stage := if s.shutdownRequest then .lastDrain .lock else .running .lock }
  | .running sc => (s.scanStep i sc).map fun x ↦ { x.1 with stage := .running x.2 }
  | .lastDrain (.done work) =>
      some { s with stage := if work then .lastDrain .lock else .exited }
  | .lastDrain sc => (s.scanStep i sc).map fun x ↦ { x.1 with stage := .lastDrain x.2 }
  | .exited => none
  | .finalDrain (.done work) =>
      some { s with stage := if work then .finalDrain .lock else .closed }
  | .finalDrain sc => (s.scanStep i sc).map fun x ↦ { x.1 with stage := .finalDrain x.2 }
  | .closed => none

/-! ## The threads -/

section

variable (ringBytes : UInt64) (memory : RingId → Nat → UInt8)

/-- One step of a thread inside `log_event`. -/
def threadStep (s : Pipeline) (t : RingId) (i : Nat) : Option Pipeline :=
  match (s.threads t).pc with
  | .idle | .exited => none
  | .alloc e =>
      some { s with
        rings := Function.update s.rings t { capacity := ringBytes, buf := memory t }
        threads := Function.update s.threads t { pc := .lock e, hasRing := true } }
  | .lock e =>
      if s.registryMu = none then
        some { s.setPc t (.linkNext e) with registryMu := some (.thread t) }
      else none
  | .linkNext e =>
      some { s.setPc t (.linkHead e) with
        nextInRegistry := Function.update s.nextInRegistry t s.registryHead }
  | .linkHead e => some { s.setPc t (.unlock e) with registryHead := some t }
  | .unlock e => some { s.setPc t (.produce e .idle) with registryMu := none }
  | .produce e p => (p.step (s.rings t) e.encode i).map fun x ↦
      if p.commits then
        { (s.setRing t x.1).setPc t .idle with
          committed := Function.update s.committed t (s.committed t ++ [e]) }
      else (s.setRing t x.1).setPc t (.produce e x.2)

/-! ## Runs -/

/-- What can happen next. -/
inductive Action where
  /-- A thread calls `log_event`. -/
  | call (t : RingId) (e : LogEvent)
  /-- A thread goes on in `log_event`. -/
  | thread (t : RingId) (i : Nat)
  /-- The allocation of a ring fails and the event is dropped. -/
  | noMemory (t : RingId)
  /-- A thread exits, and its ring is marked dead. -/
  | exit (t : RingId)
  /-- `log_close` disables the log. -/
  | disable
  /-- `log_close` asks the backend thread to stop. -/
  | requestShutdown
  /-- `log_close` has joined the backend thread and starts the final drain. -/
  | join
  /-- The backend thread or the final drain goes on. -/
  | backend (i : Nat)

/-- One step. -/
def step (s : Pipeline) : Action → Option Pipeline
  | .call t e =>
      if (s.threads t).pc = .idle then
        if s.logEnabled then
          some (s.setPc t (if (s.threads t).hasRing then .produce e .idle else .alloc e))
        else some s
      else none
  | .thread t i => s.threadStep ringBytes memory t i
  | .noMemory t =>
      match (s.threads t).pc with
      | .alloc _ => some (s.setPc t .idle)
      | _ => none
  | .exit t =>
      if (s.threads t).pc = .idle then
        some { s.setPc t .exited with
          producerDead := Function.update s.producerDead t (s.threads t).hasRing }
      else none
  | .disable => some { s with logEnabled := false }
  | .requestShutdown => if s.logEnabled then none else some { s with shutdownRequest := true }
  | .join =>
      if s.stage = .exited ∧ s.shutdownRequest then
        some { s with
          stage := .finalDrain .lock
          rings := fun r ↦ { s.rings r with head := (s.rings r).head.sync }
          cut := s.committed }
      else none
  | .backend i => s.backendStep i

/-- What a step has done. -/
inductive Stepped (s : Pipeline) : Action → Pipeline → Prop where
  /-- A thread that has no ring allocates one before it writes its event. -/
  | call {t : RingId} {e : LogEvent} (hpc : (s.threads t).pc = .idle) (hlog : s.logEnabled) :
      Stepped s (.call t e)
        (s.setPc t (if (s.threads t).hasRing then .produce e .idle else .alloc e))
  /-- The log is off. -/
  | ignored {t : RingId} {e : LogEvent} (hpc : (s.threads t).pc = .idle) (hlog : ¬ s.logEnabled) :
      Stepped s (.call t e) s
  | thread {t : RingId} {i : Nat} {s' : Pipeline}
      (h : s.threadStep ringBytes memory t i = some s') : Stepped s (.thread t i) s'
  | noMemory {t : RingId} {e : LogEvent} (hpc : (s.threads t).pc = .alloc e) :
      Stepped s (.noMemory t) (s.setPc t .idle)
  | exit {t : RingId} (hpc : (s.threads t).pc = .idle) :
      Stepped s (.exit t)
        { s.setPc t .exited with
          producerDead := Function.update s.producerDead t (s.threads t).hasRing }
  | disable : Stepped s .disable { s with logEnabled := false }
  | requestShutdown (hlog : ¬ s.logEnabled) :
      Stepped s .requestShutdown { s with shutdownRequest := true }
  | join (hstage : s.stage = .exited ∧ s.shutdownRequest) :
      Stepped s .join { s with
        stage := .finalDrain .lock
        rings := fun r ↦ { s.rings r with head := (s.rings r).head.sync }
        cut := s.committed }
  | backend {i : Nat} {s' : Pipeline} (h : s.backendStep i = some s') : Stepped s (.backend i) s'

variable {ringBytes memory} in
theorem stepped_of_step {s s' : Pipeline} {a : Action} (hs : s.step ringBytes memory a = some s') :
    s.Stepped ringBytes memory a s' := by
  cases a with
  | call t e =>
      rw [step] at hs
      split at hs
      · rename_i hpc
        split at hs
        · rename_i hlog
          cases hs
          exact .call hpc hlog
        · rename_i hlog
          cases hs
          exact .ignored hpc hlog
      · cases hs
  | thread t i => exact .thread hs
  | noMemory t =>
      rw [step] at hs
      split at hs
      · rename_i e hpc
        cases hs
        exact .noMemory hpc
      · cases hs
  | exit t =>
      obtain ⟨hpc, he⟩ := Option.ite_none_right_eq_some.mp hs
      cases he
      exact .exit hpc
  | disable =>
      cases hs
      exact .disable
  | requestShutdown =>
      obtain ⟨hlog, he⟩ := Option.ite_none_left_eq_some.mp hs
      cases he
      exact .requestShutdown hlog
  | join =>
      obtain ⟨hstage, he⟩ := Option.ite_none_right_eq_some.mp hs
      cases he
      exact .join hstage
  | backend i => exact .backend hs

/-- The runtime when the log has been opened. -/
def init : Pipeline := { rings := fun t ↦ { capacity := ringBytes, buf := memory t } }

/-- A run. -/
def exec (s : Pipeline) (as : List Action) : Option Pipeline :=
  Run.run (step ringBytes memory) s as

end

end Pipeline

end DeadLockDetect.Runtime
