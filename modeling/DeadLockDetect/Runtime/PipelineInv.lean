import DeadLockDetect.Lib.Linked
import DeadLockDetect.Runtime.Process

/-!
# The invariant of the runtime

A `Lane` is all that concerns one thread: its ring, its position, the records written
for it, the events it has committed.  A step of a thread changes its own lane; a step of
the scanner changes the lane of the ring it is at, or the registry.  The invariant has
accordingly three parts, `Lane.Inv` for each lane, `Registry` for the list of rings and
its mutex, and `Scan.Inv` for the position of the scanner.

Every event of a lane is in one of three places, in commit order: written, in flight, or
in the ring (`Lane.Inv.flow`).  A lane is `Drained` when the events that were committed
before the final drain are written; the scanner leaves no ring behind that is not.
-/

namespace DeadLockDetect.Runtime

open Pipeline

/-! ## Lanes -/

namespace Thread

/-- The ring of the thread is in the registry, or has been. -/
def registered (x : Thread) : Bool :=
  match x.pc with
  | .alloc _ | .lock _ | .linkNext _ | .linkHead _ => false
  | _ => x.hasRing

/-- The thread holds the registry mutex. -/
def holds (x : Thread) : Bool :=
  match x.pc with
  | .linkNext _ | .linkHead _ | .unlock _ => true
  | _ => false

/-- What holds of a thread at its position. -/
def Inv (x : Thread) (ring : ThreadRing) (v : Virtual) (dead : Bool) : Prop :=
  match x.pc with
  | .idle => True
  | .alloc _ => x.hasRing = false
  | .lock _ | .linkNext _ | .linkHead _ | .unlock _ => x.hasRing = true
  | .produce e p => x.hasRing = true ∧ p.Inv ring v e.encode
  | .exited => dead = x.hasRing

/-- The consumer changes nothing that a thread relies on. -/
theorem Inv.consumed {x : Thread} {ring ring' : ThreadRing} {v v' : Virtual} {dead : Bool}
    (h : x.Inv ring v dead) (hc : Consumed ring ring' v v') : x.Inv ring' v' dead := by
  unfold Inv at h ⊢
  split at h
  case h_7 e p _ => exact ⟨h.1, h.2.consumed hc⟩
  all_goals exact h

end Thread

/-- One thread with its ring and what became of its events. -/
structure Lane where
  ring : ThreadRing
  thread : Thread
  dead : Bool
  freed : Bool
  written : List Record
  inFlight : List Record
  committed : List LogEvent
  cut : List LogEvent

namespace Lane

/-- The events committed before the final drain are written. -/
def Drained (x : Lane) : Prop := x.cut.map LogEvent.record <+: x.written

/-- The invariant of a lane; `pend` are the events in its ring. -/
structure Inv (x : Lane) (v : Virtual) (pend : List LogEvent) : Prop where
  ring : x.thread.hasRing = true → x.ring.Inv v
  segs : events v.segs = pend.map LogEvent.encode
  /-- Every event committed is written, in flight, or in the ring. -/
  flow : x.written ++ x.inFlight ++ pend.map LogEvent.record = x.committed.map LogEvent.record
  /-- The scanner has seen the events committed before the final drain. -/
  sees : v.Sees (x.cut.length - (x.written ++ x.inFlight).length)
  cut : x.cut <+: x.committed
  fresh : x.thread.registered = false → v = .init ∧ x.committed = []
  pc : x.thread.Inv x.ring v x.dead
  dead : x.dead = true → x.thread.pc = .exited
  freed : x.freed = true →
    x.thread.pc = .exited ∧ x.dead = true ∧ pend = [] ∧ x.inFlight = []

namespace Inv

variable {x : Lane} {v v' : Virtual} {pend : List LogEvent}

/-- Once no event of the cut is left in the ring, the lane is drained. -/
theorem drained (h : x.Inv v pend) (hf : x.inFlight = []) (hn : x.cut.length ≤ x.written.length) :
    x.Drained := by
  have hw : x.written <+: x.committed.map LogEvent.record :=
    ⟨pend.map LogEvent.record, by rw [← h.flow, hf, List.append_nil]⟩
  have hc : x.cut.map LogEvent.record <+: x.committed.map LogEvent.record := h.cut.map _
  exact List.prefix_of_prefix_length_le hc hw (by rw [List.length_map]; exact hn)

/-- With an empty ring, all is written. -/
theorem written_eq (h : x.Inv v pend) (hf : x.inFlight = []) (hp : pend = []) :
    x.written = x.committed.map LogEvent.record := by
  have hflow := h.flow
  rw [hf, hp, List.append_nil] at hflow
  rw [← hflow]
  exact (List.append_nil _).symm

theorem drained_of_pend (h : x.Inv v pend) (hf : x.inFlight = []) (hp : pend = []) : x.Drained := by
  rw [Drained, h.written_eq hf hp]
  exact h.cut.map _

/-- A thread without a registered ring has committed nothing. -/
theorem drained_of_fresh (h : x.Inv v pend) (hr : x.thread.registered = false) : x.Drained := by
  obtain ⟨-, hc⟩ := h.fresh hr
  have hcut : x.cut = [] := List.prefix_nil.mp (hc ▸ h.cut)
  rw [Drained, hcut]
  exact List.nil_prefix

/-- A thread moves on without touching its ring. -/
theorem setPc (h : x.Inv v pend) {pc : ThreadPc} (hne : x.thread.pc ≠ .exited)
    (hreg : Thread.registered { x.thread with pc := pc } = false → x.thread.registered = false)
    (hpc : Thread.Inv { x.thread with pc := pc } x.ring v x.dead) :
    Lane.Inv { x with thread := { x.thread with pc := pc } } v pend :=
  { h with
    fresh := fun hr ↦ h.fresh (hreg hr)
    pc := hpc
    dead := fun hd ↦ absurd (h.dead hd) hne
    freed := fun hf ↦ absurd (h.freed hf).1 hne }

end Inv

end Lane

/-! ## The registry and the scanner -/

namespace Scan

/-- The scanner holds the registry mutex. -/
def holds : Scan → Bool
  | .lock | .done _ => false
  | _ => true

/-- The record in flight, if it comes from ring `r`. -/
def inFlight (r : RingId) : Scan → List Record
  | .process _ r' _ p => if r' = r then p.inFlight else []
  | _ => []

end Scan

/-- The scan that is under way. -/
def Stage.scan? : Stage → Option Scan
  | .running sc | .lastDrain sc | .finalDrain sc => some sc
  | .exited | .closed => none

namespace Pipeline

/-- The scanner holds the registry mutex. -/
def scanning (s : Pipeline) : Bool := s.stage.scan?.any Scan.holds

/-- The record in flight, if it comes from ring `r`. -/
def inFlight (s : Pipeline) (r : RingId) : List Record :=
  s.stage.scan?.elim [] (Scan.inFlight r)

/-- The lane of a thread. -/
def lane (s : Pipeline) (t : RingId) : Lane where
  ring := s.rings t
  thread := s.threads t
  dead := s.producerDead t
  freed := s.freed t
  written := s.written t
  inFlight := s.inFlight t
  committed := s.committed t
  cut := s.cut t

/-- The registry is the list `l`. -/
structure Registry (s : Pipeline) (l : List RingId) : Prop where
  linked : Linked s.nextInRegistry s.registryHead l none
  nodup : l.Nodup
  mem : ∀ r, r ∈ l ↔ (s.threads r).registered = true ∧ s.freed r = false
  /-- A thread about to become the head of the list is linked to the old head. -/
  linkHead : ∀ t e, (s.threads t).pc = .linkHead e → s.nextInRegistry t = s.registryHead
  scanner : s.registryMu = some .scanner ↔ s.scanning = true
  thread : ∀ t, s.registryMu = some (.thread t) ↔ (s.threads t).holds = true

/-- The scanner is at ring `r`, with `todo` behind it in the list. -/
def At (l : List RingId) (prev : Option RingId) (r : RingId) (todo : List RingId) : Prop :=
  ∃ before, l = before ++ r :: todo ∧ prev = before.getLast?

/-- All rings but those in `todo` are drained. -/
def Left (s : Pipeline) (todo : List RingId) : Prop := ∀ r, (s.lane r).Drained ∨ r ∈ todo

end Pipeline

/-- What holds at the position of the scanner. -/
def Scan.Inv (s : Pipeline) (vs : RingId → Virtual) (pend : RingId → List LogEvent)
    (l : List RingId) : Scan → Prop
  | .lock | .head => True
  | .loop prev r _ => ∃ before todo, l = before ++ todo ∧ prev = before.getLast? ∧
      r = todo.head? ∧ s.Left todo
  | .process prev r _ p => ∃ todo, At l prev r todo ∧ s.Left (r :: todo) ∧
      p.Inv (vs r) (s.lane r).Drained
  | .dead prev r _ => ∃ todo, At l prev r todo ∧ s.Left todo
  | .empty prev r _ => ∃ todo, At l prev r todo ∧ s.Left todo ∧
      (s.threads r).pc = .exited ∧ (vs r).head.seen = (vs r).head.latest
  | .unlink prev r _ => ∃ todo, At l prev r todo ∧ s.Left todo ∧
      (s.threads r).pc = .exited ∧ pend r = []
  | .next r _ => ∃ prev todo, At l prev r todo ∧ s.Left todo
  | .unlock _ | .done _ => s.Left []

/-- What holds at each stage. -/
def Stage.Inv (s : Pipeline) (vs : RingId → Virtual) (pend : RingId → List LogEvent)
    (l : List RingId) : Stage → Prop
  | .running sc | .lastDrain sc | .finalDrain sc => sc.Inv s vs pend l
  | .exited => True
  | .closed => s.Left []

/-- The invariant of the runtime. -/
structure Pipeline.Inv (s : Pipeline) (vs : RingId → Virtual) (pend : RingId → List LogEvent)
    (l : List RingId) : Prop where
  lane : ∀ r, (s.lane r).Inv (vs r) (pend r)
  registry : s.Registry l
  stage : s.stage.Inv s vs pend l

namespace Pipeline

variable {s s' : Pipeline} {vs vs' : RingId → Virtual} {pend pend' : RingId → List LogEvent}
  {l : List RingId}

/-- A ring that is not in the registry is drained. -/
theorem Inv.drained_of_notMem (h : s.Inv vs pend l) {r : RingId} (hr : r ∉ l) :
    (s.lane r).Drained := by
  rw [h.registry.mem, not_and_or, Bool.not_eq_true, Bool.not_eq_false] at hr
  rcases hr with hr | hr
  · exact (h.lane r).drained_of_fresh hr
  · obtain ⟨-, -, hp, hf⟩ := (h.lane r).freed hr
    exact (h.lane r).drained_of_pend hf hp

/-- A ring of the registry is in use. -/
theorem Inv.ring_of_mem (h : s.Inv vs pend l) {r : RingId} (hr : r ∈ l) :
    (s.rings r).Inv (vs r) ∧ (s.threads r).registered = true ∧ s.freed r = false := by
  obtain ⟨hreg, hfreed⟩ := (h.registry.mem r).mp hr
  refine ⟨(h.lane r).ring ?_, hreg, hfreed⟩
  show (s.threads r).hasRing = true
  unfold Thread.registered at hreg
  split at hreg
  case h_5 => exact hreg
  all_goals cases hreg

/-- Steps that change one lane. -/
theorem lane_update {t : RingId} {v : Virtual} {p : List LogEvent}
    (h : ∀ r, (s.lane r).Inv (vs r) (pend r)) (hne : ∀ r, r ≠ t → s'.lane r = s.lane r)
    (ht : (s'.lane t).Inv v p) (r : RingId) :
    (s'.lane r).Inv (Function.update vs t v r) (Function.update pend t p r) := by
  by_cases hr : r = t
  · rw [hr, Function.update_self, Function.update_self]
    exact ht
  · rw [Function.update_of_ne hr, Function.update_of_ne hr, hne r hr]
    exact h r

end Pipeline

end DeadLockDetect.Runtime
