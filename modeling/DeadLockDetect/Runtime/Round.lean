import DeadLockDetect.Runtime.Backlog

/-!
# A round over the registry comes to an end

`scan_all_rings_once` goes round the registry while threads write to the rings, and a round that
has consumed something is followed by another one.  What is consumed pays for all of it: a byte of
the backlog is worth more than a round (`Scan.worth`), and within a round the rings that are still
to come are counted (`Scan.togo`).  `Inv.advanced` says that every step of the scanner decreases the
sum.

A ring is unlinked while the scanner is at it, and what is linked behind it stays the same.
-/

namespace DeadLockDetect.Runtime

open Pipeline

/-! ## A round -/

namespace Scan

/-- `did_work`, and whether an event was consumed a moment ago. -/
def worked : Scan → Bool
  | .lock | .head => false
  | .process _ _ work p => work || p.worked
  | .loop _ _ work | .dead _ _ work | .empty _ _ work | .unlink _ _ work | .next _ work
  | .unlock work | .done work => work

/-- The steps that a round still takes if it consumes nothing, with at most `all` rings in the
registry and `n` of them behind the one it is at. -/
def togo (all n : Nat) : Scan → Nat
  | .lock => 13 * all + 5
  | .head => 13 * all + 4
  | .loop .. => 13 * n + 3
  | .process _ _ _ p => 13 * n + 3 + p.togo
  | .dead .. => 13 * n + 6
  | .empty .. => 13 * n + 5
  | .unlink .. | .next .. => 13 * n + 4
  | .unlock _ => 2
  | .done _ => 1

/-- Where the rings that are still to come begin. -/
def rest (s : Pipeline) : Scan → Option RingId
  | .loop _ r _ => r
  | .process _ r _ _ | .dead _ r _ | .empty _ r _ | .unlink _ r _ | .next r _ =>
      s.nextInRegistry r
  | _ => none

/-- A round from its start. -/
def round (all : Nat) : Nat := togo all 0 .lock

/-- The steps that a round still takes, and another round if it has consumed something. -/
def cost (all n : Nat) (sc : Scan) : Nat := (if sc.worked then round all else 0) + sc.togo all n

theorem cost_lock (all n : Nat) : cost all n .lock = round all := Nat.zero_add _

theorem cost_done (all n : Nat) (work : Bool) :
    cost all n (.done work) = (if work then round all else 0) + 1 := rfl

/-- What one byte is worth. -/
def worth (all : Nat) : Nat := round all + 12

end Scan

namespace Pipeline

variable {s s' s₁ : Pipeline} {vs : RingId → Virtual} {pend : RingId → List LogEvent}
  {l : List RingId} {ringBytes : UInt64} {memory : RingId → Nat → UInt8} {t r : RingId} {i n : Nat}
  {sc sc' : Scan} {active : Finset RingId}

/-- The scan is to come by `n` more rings. -/
def Behind (s : Pipeline) (sc : Scan) (n : Nat) : Prop :=
  ∃ todo, Linked s.nextInRegistry (sc.rest s) todo none ∧ todo.length = n

/-- The bytes that the backend may still have to read. -/
def load (s : Pipeline) (ringBytes : UInt64) (active : Finset RingId) : Nat :=
  ∑ t ∈ active, s.backlog ringBytes t

theorem publications_congr {x : Thread} {ring ring' : ThreadRing} (h : ring'.offset = ring.offset) :
    x.publications ring' = x.publications ring := by
  unfold Thread.publications Producer.publications
  rw [h]

/-- The backend reads from a ring without consuming. -/
theorem load_setRing_eq {ring : ThreadRing} (hun : ring.unread = (s.rings r).unread)
    (hoff : ring.offset = (s.rings r).offset) :
    (s.setRing r ring).load ringBytes active = s.load ringBytes active := by
  refine Finset.sum_congr rfl fun x _ ↦ ?_
  by_cases hx : x = r
  · subst hx
    simp only [backlog, setRing, Function.update_self]
    rw [hun, publications_congr hoff]
  · exact backlog_congr rfl (Function.update_of_ne hx _ _)

/-- The backend consumes. -/
theorem load_setRing_lt {ring : ThreadRing} (hr : r ∈ active) (hring : (s.threads r).hasRing = true)
    (hun : ring.unread < (s.rings r).unread) (hoff : ring.offset = (s.rings r).offset) :
    (s.setRing r ring).load ringBytes active < s.load ringBytes active := by
  have hself : (s.setRing r ring).backlog ringBytes r < s.backlog ringBytes r := by
    simp only [backlog, setRing, Function.update_self, hring, if_true]
    rw [publications_congr hoff]
    exact Nat.add_lt_add_right hun _
  refine Finset.sum_lt_sum (fun x _ ↦ ?_) ⟨r, hr, hself⟩
  by_cases hx : x = r
  · exact hx ▸ hself.le
  · have hsame : (s.setRing r ring).backlog ringBytes x = s.backlog ringBytes x :=
      backlog_congr rfl (Function.update_of_ne hx _ _)
    exact hsame.le

/-- What one step of a round does: it consumes, or it goes on. -/
def Advanced (s s₁ : Pipeline) (ringBytes : UInt64) (active : Finset RingId) (all : Nat)
    (sc sc' : Scan) (n : Nat) : Prop :=
  ∃ n', s₁.Behind sc' n' ∧
    Scan.worth all * s₁.load ringBytes active + sc'.cost all n' <
      Scan.worth all * s.load ringBytes active + sc.cost all n

/-- The round goes on, and the ring it is at looks the same. -/
theorem Advanced.next {all n' : Nat} (hload : s₁.load ringBytes active = s.load ringBytes active)
    (hbehind : s₁.Behind sc' n') (hworked : sc'.worked = sc.worked)
    (htogo : sc'.togo all n' < sc.togo all n) : Advanced s s₁ ringBytes active all sc sc' n := by
  refine ⟨n', hbehind, ?_⟩
  rw [hload, Scan.cost, Scan.cost, hworked]
  omega

/-- The ring that the scanner is at is that of an active thread. -/
theorem Inv.hasRing_of_mem (h : s.Inv vs pend l) (hr : r ∈ l) : (s.threads r).hasRing = true := by
  obtain ⟨-, hreg, -⟩ := h.ring_of_mem hr
  unfold Thread.registered at hreg
  split at hreg
  case h_5 => exact hreg
  all_goals cases hreg

/-- A step inside `process_one_event`. -/
theorem Inv.advanced_process {prev : Option RingId} {work : Bool} {p p' : Process}
    {ring : ThreadRing} {all : Nat} (h : s.Inv vs pend l)
    (hs : s.stage.scan? = some (.process prev r work p))
    (hp : p.step (s.rings r) i = some (ring, p'))
    (hactive : ∀ t, (s.threads t).hasRing = true → t ∈ active)
    (hn : s.Behind (.process prev r work p) n) :
    Advanced s (s.setRing r ring) ringBytes active all (.process prev r work p)
      (.process prev r work p') n := by
  obtain ⟨todo, hat, -, hinv⟩ := h.scan hs
  have hring := h.hasRing_of_mem hat.mem
  have hoff := (Process.sameView_step hp).offset
  rcases Process.step_progress (h.ring_of_mem hat.mem).1 hinv hp with hun | ⟨hun, htogo, hworked⟩
  · -- a byte pays for the rest of this round and for the round that follows it
    refine ⟨n, hn, ?_⟩
    have hlt : (s.setRing r ring).load ringBytes active < s.load ringBytes active :=
      load_setRing_lt (hactive r hring) hring hun hoff
    have hmul : Scan.worth all * (s.setRing r ring).load ringBytes active + Scan.worth all ≤
        Scan.worth all * s.load ringBytes active := by
      rw [← Nat.mul_succ]
      exact Nat.mul_le_mul_left _ hlt
    have hle := p'.togo_le
    have hcost : Scan.cost all n (.process prev r work p') ≤ Scan.round all + (13 * n + 14) := by
      rw [Scan.cost, Scan.togo]
      split <;> omega
    have hcost' : 13 * n + 3 + p.togo ≤ Scan.cost all n (.process prev r work p) :=
      Nat.le_add_left _ _
    have hpos := p.le_togo
    rw [Scan.worth] at hmul ⊢
    omega
  · refine .next (load_setRing_eq hun hoff) hn ?_ (Nat.add_lt_add_left htogo _)
    rw [Scan.worked, Scan.worked, hworked]

/-- Behind a ring come the rings that are linked to it. -/
theorem Registry.linked_rest {prev : Option RingId} {todo : List RingId} (h : s.Registry l)
    (hat : At l prev r todo) : Linked s.nextInRegistry (s.nextInRegistry r) todo none := by
  obtain ⟨before, rfl, -⟩ := hat
  obtain ⟨c, -, -, htodo⟩ := Linked.append_iff.mp h.linked
  exact htodo

/-- Every step of a round consumes, or it goes on. -/
theorem Inv.advanced {all : Nat} (h : s.Inv vs pend l) (hs : s.stage.scan? = some sc)
    (hstep : s.scanStep i sc = some (s₁, sc'))
    (hactive : ∀ t, (s.threads t).hasRing = true → t ∈ active) (hall : l.length ≤ all)
    (hn : s.Behind sc n) : Advanced s s₁ ringBytes active all sc sc' n := by
  have hsc := h.scan hs
  cases sc with
  | lock =>
      rw [Pipeline.scanStep] at hstep
      split at hstep <;> cases hstep
      exact .next rfl hn rfl (Nat.lt_succ_self _)
  | head =>
      cases hstep
      refine .next rfl ⟨l, h.registry.linked, rfl⟩ rfl ?_
      rw [Scan.togo, Scan.togo]
      omega
  | loop prev r work =>
      cases r with
      | none =>
          cases hstep
          obtain ⟨todo, htodo, rfl⟩ := hn
          refine .next rfl ⟨[], rfl, rfl⟩ rfl ?_
          rw [Scan.togo, Scan.togo]
          omega
      | some r =>
          cases hstep
          obtain ⟨todo, htodo, rfl⟩ := hn
          cases todo with
          | nil => cases htodo
          | cons r' todo =>
              cases htodo.1
              refine .next rfl ⟨todo, htodo.2, rfl⟩ (Bool.or_false work) ?_
              rw [Scan.togo, Scan.togo, Process.togo, List.length_cons]
              omega
  | process prev r work p =>
      cases p with
      | write out =>
          cases hstep
          exact .next rfl hn rfl (Nat.lt_succ_self _)
      | done res =>
          cases res with
          | true =>
              cases hstep
              exact .next rfl hn (Bool.or_true work).symm (Nat.lt_succ_self _)
          | false =>
              cases hstep
              exact .next rfl hn (Bool.or_false work).symm (Nat.lt_succ_self _)
      | _ =>
          rw [scanStep_process (fun _ he ↦ by cases he) (fun _ he ↦ by cases he)] at hstep
          obtain ⟨⟨ring, p'⟩, hp, he⟩ := Option.map_eq_some_iff.mp hstep
          cases he
          exact h.advanced_process hs hp hactive hn
  | dead prev r work =>
      rw [Pipeline.scanStep] at hstep
      split at hstep
      · cases hstep
        exact .next (load_setRing_eq rfl rfl) hn rfl (Nat.lt_succ_self _)
      · cases hstep
        refine .next rfl hn rfl ?_
        rw [Scan.togo, Scan.togo]
        omega
  | empty prev r work =>
      obtain ⟨ring, hl, he⟩ := Option.map_eq_some_iff.mp hstep
      cases he
      have hload : (s.setRing r ring).load ringBytes active = s.load ringBytes active := by
        refine load_setRing_eq (Process.unread_loadHead hl) ?_
        obtain ⟨d, hd, rfl⟩ := Option.map_eq_some_iff.mp hl
        rw [ThreadRing.offset, Cell.latest_load hd]
        rfl
      split
      all_goals exact .next hload hn rfl (Nat.lt_succ_self _)
  | unlink prev r work =>
      cases prev with
      | none =>
          cases hstep
          exact .next rfl hn rfl (Nat.lt_succ_self _)
      | some q =>
          cases hstep
          obtain ⟨todo, hat, -⟩ := hsc
          obtain ⟨todo', htodo', rfl⟩ := hn
          cases (h.registry.linked_rest hat).unique htodo'
          obtain ⟨before, rfl, hq⟩ := hat
          have hmem : q ∈ before := List.mem_of_getLast? hq.symm
          have hq' : q ∉ todo := fun hm ↦
            (List.nodup_append.mp h.registry.nodup).2.2 q hmem q (List.mem_cons_of_mem r hm) rfl
          exact .next rfl ⟨todo, htodo'.update_of_notMem hq', rfl⟩ rfl (Nat.lt_succ_self _)
  | next r work =>
      cases hstep
      exact .next rfl hn rfl (Nat.lt_succ_self _)
  | unlock work =>
      cases hstep
      exact .next rfl hn rfl (Nat.lt_succ_self _)
  | done work => cases hstep

end Pipeline

end DeadLockDetect.Runtime
