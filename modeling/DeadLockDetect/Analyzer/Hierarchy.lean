import DeadLockDetect.Analyzer.CyclesCorrect

/-!
# Lock hierarchies

A program that takes its locks in the order of a hierarchy has no inversion.  `Disciplined` says of
an event list that it respects a hierarchy `r`: whenever a thread requests a lock that it does not
hold, the lock is above all locks that it holds.  Requests of a lock already held are free.

An acquisition of a lock that is already held records nothing, so it never goes against the
hierarchy.  A *failed* attempt at such a lock does record edges, from the other locks that are
held, and these go down wherever one of them is above the lock that was tried.
`upwards_iff` says that nothing else goes down.
-/

namespace DeadLockDetect.Analyzer

open DeadLockDetect.Digraph Relation

/-- The event list respects the hierarchy `r`: a lock that is requested while it is not held is
above every lock that the thread holds. -/
def Disciplined (r : LockId → LockId → Prop) (es : List Event) : Prop :=
  ∀ (i : Nat) (e : Event) (addr : Int) (k : LockKind) (stk : List LockNode), es[i]? = some e →
    e.Requests (before es i) addr k stk →
    (before es i).lockAt addr ∉ stk.map LockNode.id →
    ∀ held ∈ stk, r held.id ((before es i).lockAt addr)

/-- Every failed attempt at a lock that the thread already holds, made while it holds a lock `y`
above it, is followed by the destruction of one of the two. -/
def RetriesForgotten (r : LockId → LockId → Prop) (es : List Event) : Prop :=
  ∀ (i : Nat) (e : Event) (addr : Int) (k : LockKind), es[i]? = some e →
    e.action = .attempt addr k → (before es i).lockAt addr ∈ (before es i).heldIds e.tid →
    ∀ y ∈ (before es i).heldIds e.tid, r ((before es i).lockAt addr) y →
      ∃ j, i < j ∧ (DestroyedAt es j ((before es i).lockAt addr) ∨ DestroyedAt es j y)

/-- Every edge goes up. -/
def Graph.Upwards (r : LockId → LockId → Prop) (g : Graph) : Prop :=
  ∀ v w, g.Edge v w → r v w

/-- A graph whose edges all go up has no cycle. -/
theorem findCycles_of_upwards {r : LockId → LockId → Prop} [IsStrictOrder LockId r] {g : Graph}
    (h : g.Upwards r) (maxPerScc : Int) : findCycles g maxPerScc = [] := by
  by_contra hne
  obtain ⟨cy, hcy⟩ := List.exists_mem_of_ne_nil _ hne
  obtain ⟨hcycle, -⟩ := findCycles_sound hcy
  obtain ⟨e, es, he⟩ := List.exists_cons_of_ne_nil hcycle.ne_nil
  have hmem : e.frm ∈ cy.edges.map CycleEdge.frm := by
    rw [he]
    exact List.mem_cons_self
  have hup : ∀ v w, TransGen g.Edge v w → r v w := by
    intro v w hvw
    induction hvw with
    | single hvw => exact h _ _ hvw
    | tail _ hbc ih => exact trans_of r ih (h _ _ hbc)
  exact irrefl_of r e.frm (hup _ _ (hcycle.simple.transGen hmem hmem))

/-- Where an edge of a disciplined trace comes from: it goes up, or a failed attempt at a lock
already held recorded it. -/
theorem Disciplined.records {r : LockId → LockId → Prop} {es : List Event} (h : Disciplined r es)
    {i : Nat} {e : Event} (he : es[i]? = some e) {key : EdgeKey} {info : EdgeInfo}
    (hrec : e.Records (before es i) key info) :
    r key.frm key.to ∨ ∃ addr k, e.action = .attempt addr k ∧
      (before es i).lockAt addr ∈ (before es i).heldIds e.tid ∧
      key.frm ∈ (before es i).heldIds e.tid ∧ key.to = (before es i).lockAt addr := by
  cases hrec with
  | @mk addr k stk held hreq hheld _ =>
      cases hreq with
      | acquire ha hnew =>
          exact Or.inl (h i e _ _ _ he (.acquire ha hnew) hnew _ hheld)
      | wait ha hnew =>
          exact Or.inl (h i e _ _ _ he (.wait ha hnew) hnew _ hheld)
      | attempt ha =>
          by_cases hmem : (before es i).lockAt addr ∈ (before es i).heldIds e.tid
          · exact Or.inr ⟨addr, k, ha, hmem, List.mem_map_of_mem hheld, rfl⟩
          · exact Or.inl (h i e addr k _ he (.attempt ha) hmem _ hheld)

/-- In a disciplined trace the edges go up exactly when no failed attempt at a lock already held
left an edge from a lock above it. -/
theorem upwards_iff {r : LockId → LockId → Prop} [IsStrictTotalOrder LockId r] {es : List Event}
    (h : Disciplined r es) : (replay es {}).Upwards r ↔ RetriesForgotten r es := by
  constructor
  · intro hup i e addr k he ha hmem y hy hlt
    by_contra hno
    push Not at hno
    -- the attempt recorded the edge from `y`, and nothing removed it
    obtain ⟨held, hheld, rfl⟩ := List.mem_map.mp hy
    have hne : held.id ≠ (before es i).lockAt addr := fun e' ↦
      irrefl_of r held.id (by rw [← e'] at hlt; exact hlt)
    have hrec : RecordedAt es i ⟨held.id, (before es i).lockAt addr⟩ (held.edgeInfo k e.tid e.bt) :=
      ⟨e, he, .mk (.attempt ha) hheld hne⟩
    have hedge : (replay es {}).Edge held.id ((before es i).lockAt addr) :=
      (mem_edges_replay_iff es _).mpr ⟨i, ⟨_, hrec⟩, fun j hij ↦ (hno j hij).symm⟩
    exact asymm_of r hlt (hup _ _ hedge)
  · intro hret v w hvw
    obtain ⟨i, ⟨info, e, he, hrec⟩, hstands⟩ := (mem_edges_replay_iff es ⟨v, w⟩).mp hvw
    rcases h.records he hrec with hup | ⟨addr, k, ha, hmem, hfrm, rfl⟩
    · exact hup
    · have hne : v ≠ (before es i).lockAt addr := (inv_replay es).loopless _ hvw
      rcases trichotomous_of r v ((before es i).lockAt addr) with hlt | heq | hgt
      · exact hlt
      · exact absurd heq hne
      · obtain ⟨j, hij, hd⟩ := hret i e addr k he ha hmem v hfrm hgt
        obtain ⟨hfrm', hto'⟩ := hstands j hij
        exact absurd hd (not_or.mpr ⟨hto', hfrm'⟩)

/-- A thread takes the locks at `1` and `2` in this order and then tries the first one again. -/
def retry : List Event :=
  [{ tid := 1, op := .lockPost, addr := 1 }, { tid := 1, op := .lockPost, addr := 2 },
    { tid := 1, op := .trylockPost, addr := 1, rc := 16 }]

theorem disciplined_retry : Disciplined (· < ·) retry := by
  intro i e addr k stk he hreq hmem held hheld
  match i, he with
  | 0, he =>
      -- nothing is held yet
      cases he
      have hnil : (before retry 0).stack 1 = [] := rfl
      cases hreq with
      | acquire ha hnew =>
          rw [hnil] at hheld
          cases hheld
      | attempt ha => cases (show Action.acquire 1 .mutex = .attempt addr k from ha)
      | wait ha hnew => cases (show Action.acquire 1 .mutex = .condPost addr from ha)
  | 1, he =>
      cases he
      cases hreq with
      | acquire ha hnew =>
          cases (show Action.acquire 2 .mutex = .acquire addr k from ha)
          have hid : ∀ n ∈ (before retry 1).stack 1, n.id < (before retry 1).lockAt 2 := by decide
          exact hid held hheld
      | attempt ha => cases (show Action.acquire 2 .mutex = .attempt addr k from ha)
      | wait ha hnew => cases (show Action.acquire 2 .mutex = .condPost addr from ha)
  | 2, he =>
      -- the lock that is tried is held
      cases he
      cases hreq with
      | acquire ha hnew => cases (show Action.attempt 1 .mutex = .acquire addr k from ha)
      | attempt ha =>
          cases (show Action.attempt 1 .mutex = .attempt addr k from ha)
          have hin : (before retry 2).lockAt 1 ∈ (before retry 2).heldIds 1 := by decide
          exact absurd hin hmem
      | wait ha hnew => cases (show Action.attempt 1 .mutex = .condPost addr from ha)
  | n + 3, he => cases he

/-- A failed attempt at a lock that is already held goes against the hierarchy: the inversion that
it records is reported as a cycle. -/
theorem not_upwards_of_disciplined : ¬ ∀ (r : LockId → LockId → Prop) [IsStrictTotalOrder LockId r]
    (es : List Event), Disciplined r es →
    (replay es {}).Upwards r ∧ ∀ maxPerScc, findCycles (replay es {}) maxPerScc = [] := by
  intro h
  exact absurd ((h (· < ·) retry disciplined_retry).2 1) (by decide)

/-- **When a lock hierarchy keeps the report empty.**  In a trace that respects a hierarchy, every
edge goes up and no cycle is found exactly when every failed attempt at a lock already held, made
under a lock above it, is followed by the destruction of one of the two. -/
theorem upwards_of_disciplined_iff (r : LockId → LockId → Prop) [IsStrictTotalOrder LockId r]
    (es : List Event) (h : Disciplined r es) :
    ((replay es {}).Upwards r ∧ ∀ maxPerScc, findCycles (replay es {}) maxPerScc = []) ↔
      RetriesForgotten r es := by
  rw [← upwards_iff h]
  exact and_iff_left_of_imp fun hup ↦ findCycles_of_upwards hup

theorem upwards_of_disciplined_iff_retry :
    ((replay retry {}).Upwards (· < ·) ∧ ∀ maxPerScc, findCycles (replay retry {}) maxPerScc = []) ↔
      RetriesForgotten (· < ·) retry :=
  upwards_of_disciplined_iff (· < ·) retry disciplined_retry

end DeadLockDetect.Analyzer
