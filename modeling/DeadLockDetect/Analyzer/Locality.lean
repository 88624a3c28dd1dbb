import DeadLockDetect.Analyzer.History

/-!
# What an event reads and writes

The current lock lifetime at an address depends on the events about that address only, and the
stack of a thread on the events of that thread and on the lock lifetimes that they were attributed
to.  `get?_addrGen_act` and `stack_act_self` say so for one action, and `recorded_congr` says that
what an event records depends on nothing else.
-/

namespace DeadLockDetect.Analyzer

/-! ## Generations -/

/-- The action is a request of the lock at `addr`. -/
def Action.RequestsAt (addr : Int) : Action → Prop
  | .acquire b _ | .attempt b _ | .condPost b => b = addr
  | _ => False

/-- The action begins a lock lifetime at `addr`. -/
def Action.InitsAt (addr : Int) : Action → Prop
  | .init _ b _ => b = addr
  | _ => False

theorem Event.op_of_initsAt {e : Event} {addr : Int} (h : e.action.InitsAt addr) : e.op = .init := by
  cases ha : e.action with
  | init k b recursive => exact op_of_init ha
  | _ =>
      rw [ha] at h
      exact False.elim h

instance (addr : Int) (a : Action) : Decidable (a.RequestsAt addr) := by
  cases a <;> unfold Action.RequestsAt <;> infer_instance

instance (addr : Int) (a : Action) : Decidable (a.InitsAt addr) := by
  cases a <;> unfold Action.InitsAt <;> infer_instance

namespace Graph

/-- The generation at an address after an action: an initialisation begins a new one, a
request makes sure that there is one. -/
theorem get?_addrGen_act (g : Graph) (a : Action) (tid : Int) (bt : Bt) (b : Int) :
    (g.act a tid bt).addrGen.get? b =
      if a.InitsAt b then some (g.addrGen.getD b 0 + 1)
      else if a.RequestsAt b then some (g.addrGen.getD b 1)
      else g.addrGen.get? b := by
  have hrequest : ∀ addr, (if b = addr then some (g.addrGen.getD addr 1) else g.addrGen.get? b) =
      if addr = b then some (g.addrGen.getD b 1) else g.addrGen.get? b := by
    intro addr
    by_cases h : b = addr
    · rw [if_pos h, if_pos h.symm, h]
    · rw [if_neg h, if_neg (Ne.symm h)]
  cases a with
  | skip => rfl
  | init k addr recursive =>
      rw [act, onInit, Dict.get?_set]
      by_cases h : b = addr
      · subst h
        rw [if_pos rfl, if_pos (show Action.InitsAt b (.init k b recursive) from rfl)]
      · rw [if_neg h, if_neg (show ¬ Action.InitsAt b (.init k addr recursive) from Ne.symm h)]
        rfl
  | destroy addr => rw [act, onDestroy_addrGen]; rfl
  | acquire addr k => rw [act, get?_addrGen_onAcquire, hrequest]; rfl
  | attempt addr k => rw [act, get?_addrGen_onAcquireAttempt, hrequest]; rfl
  | unlock addr => rw [act, onUnlock_addrGen]; rfl
  | condPost m =>
      rw [act, onCondPost, get?_addrGen_onAcquire, onUnlock_addrGen, hrequest]
      rfl

end Graph

/-! ## Stacks -/

theorem release_eq_none {lid : LockId} {stk : List LockNode} (h : lid ∉ stk.map LockNode.id) :
    release lid stk = none := by
  induction stk with
  | nil => rfl
  | cons n stk ih =>
      rw [List.map_cons, List.mem_cons, not_or] at h
      rw [release, ih h.2]
      exact if_neg (Ne.symm h.1)

/-- Where no lock occurs twice, the search for the node to release does not matter. -/
theorem Graph.popped_cons {n : LockNode} {stk : List LockNode} (hn : n.id ∉ stk.map LockNode.id)
    (lid : LockId) :
    Graph.popped (n :: stk) lid =
      if n.id = lid then
        if n.holdCount > 1 then { n with holdCount := n.holdCount - 1 } :: stk else stk
      else n :: Graph.popped stk lid := by
  unfold Graph.popped
  rw [release]
  by_cases hid : n.id = lid
  · rw [release_eq_none (hid ▸ hn), if_pos hid, if_pos hid]
    dsimp only
    split <;> rfl
  · rw [if_neg hid, if_neg hid]
    cases release lid stk <;> rfl

/-- Where every lock is held once, a release removes the lock from the stack. -/
theorem popped_eq_filter {lid : LockId} {stk : List LockNode} (hnodup : (stk.map LockNode.id).Nodup)
    (hone : ∀ n ∈ stk, n.holdCount = 1) :
    Graph.popped stk lid = stk.filter fun n ↦ n.id ≠ lid := by
  induction stk with
  | nil => rfl
  | cons n stk ih =>
      obtain ⟨hn, hnodup⟩ := List.nodup_cons.mp hnodup
      obtain ⟨h1, hone⟩ := List.forall_mem_cons.mp hone
      rw [Graph.popped_cons hn]
      by_cases hid : n.id = lid
      · have hfilter : (stk.filter fun n ↦ n.id ≠ lid) = stk := by
          rw [List.filter_eq_self]
          intro x hx
          exact decide_eq_true fun hx' ↦ hn (by rw [hid, ← hx']; exact List.mem_map_of_mem hx)
        rw [List.filter_cons_of_neg (by simpa using hid), hfilter, if_pos hid, if_neg (by omega)]
      · rw [List.filter_cons_of_pos (by simpa using hid), ← ih hnodup hone, if_neg hid]

/-- The stack of the acting thread after an action, if the lock lifetime at an address is
given by `lk`. -/
def Action.onStack (a : Action) (lk : Int → LockId) (tid : Int) (bt : Bt) (stk : List LockNode) :
    List LockNode :=
  match a with
  | .acquire addr k => Graph.pushed stk (lk addr) k tid bt
  | .unlock addr => Graph.popped stk (lk addr)
  | .condPost m => Graph.pushed (Graph.popped stk (lk m)) (lk m) .mutex tid bt
  | _ => stk

namespace Graph

/-- A lock lifetime at an address without a generation is in no stack. -/
theorem Inv.notMem_heldIds {g : Graph} (h : g.Inv) {addr : Int} (hg : g.addrGen.get? addr = none)
    (t : Int) (gen : Nat) : ⟨addr, gen⟩ ∉ g.heldIds t := by
  intro hmem
  obtain ⟨gen', hgen', -⟩ := h.metaKnown _ (h.heldMeta t _ hmem)
  rw [hg] at hgen'
  cases hgen'

theorem stack_onUnlock_self {g : Graph} (h : g.Inv) (addr tid : Int) :
    (g.onUnlock addr tid).stack tid = popped (g.stack tid) (g.lockAt addr) := by
  cases hg : g.addrGen.get? addr with
  | none =>
      have hno : g.lockAt addr ∉ g.heldIds tid := h.notMem_heldIds hg tid _
      rw [onUnlock_of_get?_none hg, popped, release_eq_none hno]
      rfl
  | some gen => rw [stack_onUnlock_of_get? hg, if_pos rfl, lockAt_of_get? hg]

/-- The stack of the acting thread after an action. -/
theorem stack_act_self {g : Graph} (h : g.Inv) (a : Action) (tid : Int) (bt : Bt) :
    (g.act a tid bt).stack tid = a.onStack g.lockAt tid bt (g.stack tid) := by
  cases a with
  | skip | init => rfl
  | destroy addr => exact stack_onDestroy g addr tid
  | acquire addr k => rw [act, stack_onAcquire, if_pos rfl]; rfl
  | attempt addr k => exact stack_onAcquireAttempt g addr k tid bt tid
  | unlock addr => exact stack_onUnlock_self h addr tid
  | condPost m =>
      rw [act, onCondPost, stack_onAcquire, if_pos rfl, stack_onUnlock_self h, onUnlock_lockAt]
      rfl

end Graph

/-- The stack of a thread after an event. -/
theorem stack_replayStep {g : Graph} (h : g.Inv) (e : Event) (t : Int) :
    (replayStep g e).stack t =
      if t = e.tid then e.action.onStack g.lockAt t e.bt (g.stack t) else g.stack t := by
  rw [replayStep_eq_act]
  split
  · rename_i ht
    subst ht
    exact Graph.stack_act_self h e.action e.tid e.bt
  · rename_i ht
    exact g.stack_act_of_ne e.action ht e.bt

/-- What an event records depends on the lock lifetime at the address that it requests and on the
stack of its thread. -/
theorem recorded_congr {g g' : Graph} (h : g.Inv) (h' : g'.Inv) {e : Event}
    (hlock : ∀ addr, e.action.RequestsAt addr → g'.lockAt addr = g.lockAt addr)
    (hstack : g'.stack e.tid = g.stack e.tid) (key : EdgeKey) :
    e.recorded g' key = e.recorded g key := by
  unfold Event.recorded
  cases ha : e.action with
  | skip | init | destroy | unlock => rfl
  | acquire addr k | attempt addr k =>
      rw [ha] at hlock
      dsimp only
      rw [hlock addr rfl, hstack]
  | condPost m =>
      rw [ha] at hlock
      dsimp only
      rw [Graph.stack_onUnlock_self h, Graph.stack_onUnlock_self h', hlock m rfl, hstack]

/-- Only requests record anything, and only edges to the lock that they request. -/
theorem Event.Records.requestsAt {e : Event} {g : Graph} {key : EdgeKey} {info : EdgeInfo}
    (h : e.Records g key info) : e.action.RequestsAt key.to.addr := by
  obtain ⟨hreq, -, -⟩ := h
  cases hreq with
  | acquire ha _ => rw [ha]; rfl
  | attempt ha => rw [ha]; rfl
  | wait ha _ => rw [ha]; rfl

/-- Edges are recorded from locks that the thread holds. -/
theorem Event.Records.frm_mem_heldIds {e : Event} {g : Graph} (hg : g.Inv) {key : EdgeKey}
    {info : EdgeInfo} (h : e.Records g key info) : key.frm ∈ g.heldIds e.tid := by
  obtain ⟨hreq, hheld, -⟩ := h
  cases hreq with
  | acquire _ _ => exact List.mem_map_of_mem hheld
  | attempt _ => exact List.mem_map_of_mem hheld
  | wait _ _ =>
      rw [Graph.stack_onUnlock_self hg] at hheld
      exact (Graph.map_id_popped_sublist _ _).subset (List.mem_map_of_mem hheld)

/-- An acquisition records the edges from the locks that are held, if its own lock is not one of
them. -/
theorem Event.exists_records_iff {e : Event} {g : Graph} {addr : Int} {k : LockKind}
    (ha : e.action = .acquire addr k) (key : EdgeKey) :
    (∃ info, e.Records g key info) ↔
      key.to = g.lockAt addr ∧ key.to ∉ g.heldIds e.tid ∧ key.frm ∈ g.heldIds e.tid := by
  constructor
  · rintro ⟨info, hreq, hheld, -⟩
    cases hreq with
    | acquire ha' hnew =>
        cases ha.symm.trans ha'
        exact ⟨rfl, hnew, List.mem_map_of_mem hheld⟩
    | attempt ha' => cases ha.symm.trans ha'
    | wait ha' _ => cases ha.symm.trans ha'
  · obtain ⟨frm, lid⟩ := key
    rintro ⟨rfl, hnew, hheld⟩
    obtain ⟨held, hmem, rfl⟩ := List.mem_map.mp hheld
    exact ⟨_, .mk (.acquire ha hnew) hmem fun he ↦ hnew (he ▸ hheld)⟩

/-- The edges after an event that destroys nothing. -/
theorem mem_edges_replayStep {g : Graph} (h : g.Inv) {e : Event} (he : e.op ≠ .destroy)
    (key : EdgeKey) :
    key ∈ (replayStep g e).edges ↔ key ∈ g.edges ∨ ∃ info, e.Records g key info := by
  rw [← Dict.get?_isSome_iff, get?_edges_replayStep,
    if_neg (not_or.mpr ⟨e.not_destroys he g _, e.not_destroys he g _⟩), Option.isSome_or,
    Bool.or_eq_true, Dict.get?_isSome_iff, Option.isSome_iff_exists]
  exact or_congr_right (exists_congr fun info ↦ e.recorded_eq_some_iff h key info)

end DeadLockDetect.Analyzer
