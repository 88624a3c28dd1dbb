import Mathlib.Data.Fin.VecNotation
import Mathlib.Data.Fintype.Basic
import Mathlib.Data.List.FinRange
import DeadLockDetect.Analyzer.CyclesCorrect
import DeadLockDetect.Analyzer.Locality
import DeadLockDetect.Runtime.Interpose

/-!
# What a deadlock leaves in the trace

The wrapper of `pthread_mutex_lock` logs a request only once it was granted, so the requests at
which the threads of a deadlock are blocked are not in the trace.  What the graph shows of the
deadlock is what the same threads or others have shown before: `circularWait_edge_iff`.

`Mutexes.Inv` ties the log to the state: the replayed stack of a thread lists the mutexes that it
owns, up to the one that it is just acquiring or releasing.
-/

namespace DeadLockDetect.Runtime

open Analyzer Relation

/-- The lifetime of a mutex that was never initialised by a call. -/
def lockOf (m : Int) : LockId := ⟨m, 1⟩

theorem lockOf_inj {a b : Int} : lockOf a = lockOf b ↔ a = b :=
  ⟨fun h ↦ congrArg LockId.addr h, congrArg lockOf⟩

/-! ## Replaying locks and unlocks -/

/-- The event is a `LOCK_POST` or an `UNLOCK`. -/
def Plain (e : Event) : Prop := e.op = .lockPost ∨ e.op = .unlock

theorem Plain.not_initsAt {e : Event} (h : Plain e) (addr : Int) : ¬ e.action.InitsAt addr := by
  intro hinit
  rcases h with h | h <;> cases h.symm.trans (Event.op_of_initsAt hinit)

theorem Plain.ne_destroy {e : Event} (h : Plain e) : e.op ≠ .destroy := by
  rcases h with h | h <;> rw [h] <;> exact nofun

/-- Without initialisations every lock has its first lifetime. -/
theorem lockAt_replay {es : List Event} (h : ∀ e ∈ es, Plain e) (m : Int) :
    (replay es {}).lockAt m = lockOf m := by
  have hgen : (replay es {}).addrGen.getD m 1 = 1 := by
    induction es using List.reverseRecOn with
    | nil => rfl
    | append_singleton es e ih =>
        have ih := ih fun x hx ↦ h x (List.mem_append_left _ hx)
        have he : Plain e := h e List.mem_concat_self
        rw [replay_concat, replayStep_eq_act, Dict.getD, Graph.get?_addrGen_act,
          if_neg (he.not_initsAt m)]
        split
        · exact ih
        · exact ih
  rw [Graph.lockAt, hgen, lockOf]

theorem stack_replay_append_of_ne {es es' : List Event} {t : Int} (h : ∀ e ∈ es', e.tid ≠ t) :
    (replay (es ++ es') {}).stack t = (replay es {}).stack t := by
  induction es' using List.reverseRecOn with
  | nil => rw [List.append_nil]
  | append_singleton es' e ih =>
      have he : t ≠ e.tid := Ne.symm (h e List.mem_concat_self)
      rw [← List.append_assoc, replay_concat, stack_replayStep (inv_replay _), if_neg he,
        ih fun x hx ↦ h x (List.mem_append_left _ hx)]

/-- An edge that an event records stays if nothing is destroyed later. -/
theorem edge_of_records {p q : List Event} {e : Event} {key : EdgeKey} {info : EdgeInfo}
    (hrec : e.Records (replay p {}) key info) (hq : ∀ x ∈ p ++ e :: q, x.op ≠ .destroy) :
    key ∈ (replay (p ++ e :: q) {}).edges := by
  have hget : (p ++ e :: q)[p.length]? = some e := by simp
  have hbefore : before (p ++ e :: q) p.length = replay p {} := by
    rw [before, List.take_left]
  refine (mem_edges_replay_iff _ _).mpr ⟨p.length, ⟨info, e, hget, hbefore ▸ hrec⟩, fun j _ ↦ ?_⟩
  exact ⟨not_destroyedAt hq, not_destroyedAt hq⟩

/-! ## The invariant -/

/-- The thread holds the mutex, but its stack does not show it: the lock is not logged yet, or the
unlock already is. -/
def WrapperPc.Hides (pc : WrapperPc) (m : Int) : Prop := pc = .lockPost m 0 ∨ pc = .realUnlock m

namespace Mutexes

/-- What holds in every state of a run. -/
structure Inv (s : Mutexes) : Prop where
  plain : ∀ e ∈ s.log, Plain e
  held : ∀ t m, lockOf m ∈ (replay s.log {}).heldIds t ↔ s.owner m = some t ∧ ¬ (s.pc t).Hides m
  granted : ∀ t m, s.pc t = .lockPost m 0 → s.owner m = some t
  once : ∀ t, ∀ n ∈ (replay s.log {}).stack t, n.holdCount = 1

theorem init_inv : Inv {} where
  plain _ h := absurd h List.not_mem_nil
  held _ _ := ⟨fun h ↦ absurd h List.not_mem_nil, fun h ↦ by cases h.1⟩
  granted _ _ h := by cases h
  once _ _ h := absurd h List.not_mem_nil

section

variable {errorcheck : Int → Bool} {s s' : Mutexes} {t m : Int}

@[simp] theorem setPc_pc_self (s : Mutexes) (t : Int) (pc : WrapperPc) :
    (s.setPc t pc).pc t = pc := by
  simp [setPc]

theorem setPc_pc_of_ne (s : Mutexes) {t t' : Int} (pc : WrapperPc) (h : t' ≠ t) :
    (s.setPc t pc).pc t' = s.pc t' := by
  simp [setPc, h]

/-- A step that neither logs nor changes an owner. -/
theorem Inv.setPc {pc : WrapperPc} (h : s.Inv) (hhides : ∀ m, pc.Hides m ↔ (s.pc t).Hides m)
    (hpc : ∀ m, pc ≠ .lockPost m 0) : (s.setPc t pc).Inv where
  plain := h.plain
  held t' m := by
    rw [show (s.setPc t pc).owner = s.owner from rfl, show (s.setPc t pc).log = s.log from rfl,
      h.held]
    by_cases ht : t' = t
    · rw [ht, setPc_pc_self, hhides]
    · rw [setPc_pc_of_ne s pc ht]
  granted t' m hp := by
    by_cases ht : t' = t
    · rw [ht, setPc_pc_self] at hp
      exact absurd hp (hpc m)
    · rw [setPc_pc_of_ne s pc ht] at hp
      exact h.granted t' m hp
  once := h.once

/-- The real lock function returns with success. -/
theorem Inv.acquire (h : s.Inv) (hpc : s.pc t = .realLock m) (hfree : s.owner m = none) :
    Inv { s.setPc t (.lockPost m 0) with owner := Function.update s.owner m (some t) } where
  plain := h.plain
  held t' m' := by
    show lockOf m' ∈ (replay s.log {}).heldIds t' ↔
      Function.update s.owner m (some t) m' = some t' ∧
        ¬ ((s.setPc t (.lockPost m 0)).pc t').Hides m'
    rw [h.held]
    by_cases hm : m' = m
    · subst hm
      rw [Function.update_self, hfree]
      refine ⟨fun ⟨he, _⟩ ↦ (by cases he), fun ⟨he, hh⟩ ↦ absurd ?_ hh⟩
      cases he
      rw [setPc_pc_self]
      exact Or.inl rfl
    · rw [Function.update_of_ne hm]
      by_cases ht : t' = t
      · subst ht
        simp [hpc, WrapperPc.Hides, Ne.symm hm]
      · rw [setPc_pc_of_ne s _ ht]
  granted t' m' hp := by
    show Function.update s.owner m (some t) m' = some t'
    by_cases ht : t' = t
    · subst ht
      cases (setPc_pc_self s t' (.lockPost m 0)).symm.trans hp
      exact Function.update_self ..
    · have hown := h.granted t' m' ((setPc_pc_of_ne s _ ht).symm.trans hp)
      have hm : m' ≠ m := fun hm ↦ by rw [hm, hfree] at hown; cases hown
      rw [Function.update_of_ne hm, hown]
  once := h.once

/-- The real unlock function returns. -/
theorem Inv.release (h : s.Inv) (hpc : s.pc t = .realUnlock m) :
    Inv { s.setPc t .outside with owner := Runtime.realUnlock s.owner m t } where
  plain := h.plain
  held t' m' := by
    show lockOf m' ∈ (replay s.log {}).heldIds t' ↔
      Runtime.realUnlock s.owner m t m' = some t' ∧ ¬ ((s.setPc t .outside).pc t').Hides m'
    rw [h.held, Runtime.realUnlock]
    by_cases hm : m' = m
    · subst hm
      have hhides : (s.pc t).Hides m' := Or.inr hpc
      split
      · rename_i hown
        rw [hown, Function.update_self]
        refine ⟨fun ⟨he, hh⟩ ↦ ?_, fun ⟨he, _⟩ ↦ (by cases he)⟩
        cases he
        exact absurd hhides hh
      · rename_i hown
        refine and_congr_right fun he ↦ ?_
        have ht : t' ≠ t := fun ht ↦ hown (ht ▸ he)
        rw [setPc_pc_of_ne s _ ht]
    · have hown : (if s.owner m = some t then Function.update s.owner m none else s.owner) m' =
          s.owner m' := by
        split
        · exact Function.update_of_ne hm _ _
        · rfl
      rw [hown]
      by_cases ht : t' = t
      · subst ht
        simp [hpc, WrapperPc.Hides, Ne.symm hm]
      · rw [setPc_pc_of_ne s _ ht]
  granted t' m' hp := by
    show Runtime.realUnlock s.owner m t m' = some t'
    have ht : t' ≠ t := by
      rintro rfl
      cases (setPc_pc_self s t' .outside).symm.trans hp
    have hown := h.granted t' m' ((setPc_pc_of_ne s _ ht).symm.trans hp)
    rw [Runtime.realUnlock]
    split
    · rename_i hm
      have hne : m' ≠ m := fun he ↦ ht (Option.some.inj (hown.symm.trans (he ▸ hm)))
      rw [Function.update_of_ne hne, hown]
    · exact hown
  once := h.once

/-- A thread logs an event; only its own stack needs a look. -/
theorem Inv.log {pc : WrapperPc} {e : Event} {stk : List LockNode} (h : s.Inv) (hplain : Plain e)
    (htid : e.tid = t) (hpc : ∀ m, pc ≠ .lockPost m 0)
    (hstk : e.action.onStack (replay s.log {}).lockAt t e.bt ((replay s.log {}).stack t) = stk)
    (hids : ∀ m, lockOf m ∈ stk.map LockNode.id ↔ s.owner m = some t ∧ ¬ pc.Hides m)
    (honce : ∀ n ∈ stk, n.holdCount = 1) :
    Inv { s.setPc t pc with log := s.log ++ [e] } := by
  have hstack : ∀ t', (replay (s.log ++ [e]) {}).stack t' =
      if t' = t then stk else (replay s.log {}).stack t' := by
    intro t'
    rw [replay_concat, stack_replayStep (inv_replay s.log), htid]
    by_cases ht : t' = t
    · rw [if_pos ht, if_pos ht, ht, hstk]
    · rw [if_neg ht, if_neg ht]
  refine ⟨fun x hx ↦ ?_, fun t' m ↦ ?_, fun t' m hp ↦ ?_, fun t' n hn ↦ ?_⟩
  · rcases List.mem_append.mp hx with hx | hx
    · exact h.plain x hx
    · exact List.mem_singleton.mp hx ▸ hplain
  · show lockOf m ∈ ((replay (s.log ++ [e]) {}).stack t').map LockNode.id ↔
      s.owner m = some t' ∧ ¬ ((s.setPc t pc).pc t').Hides m
    by_cases ht : t' = t
    · rw [hstack, if_pos ht, ht, setPc_pc_self, hids]
    · rw [hstack, if_neg ht, setPc_pc_of_ne s pc ht]
      exact h.held t' m
  · by_cases ht : t' = t
    · subst ht
      exact absurd ((setPc_pc_self s t' pc).symm.trans hp) (hpc m)
    · exact h.granted t' m ((setPc_pc_of_ne s pc ht).symm.trans hp)
  · rw [hstack] at hn
    split at hn
    · exact honce n hn
    · exact h.once t' n hn

/-- The thread logs that it was granted the mutex. -/
theorem Inv.logLock (h : s.Inv) (hpc : s.pc t = .lockPost m 0) (tsNs : Int) (bt : Bt) :
    Inv { s.setPc t .outside with log := s.log ++ [lockPostEvent t m 0 tsNs bt] } := by
  have hnew : lockOf m ∉ (replay s.log {}).heldIds t := fun hm ↦
    ((h.held t m).mp hm).2 (Or.inl hpc)
  have hstk : Graph.pushed ((replay s.log {}).stack t) ((replay s.log {}).lockAt m) .mutex t bt =
      (replay s.log {}).stack t ++ [⟨lockOf m, .mutex, 1, bt, t⟩] := by
    rw [lockAt_replay h.plain]
    exact if_neg hnew
  refine h.log (Or.inl rfl) rfl (fun _ ↦ nofun) hstk (fun m' ↦ ?_) ?_
  · rw [List.map_append, List.mem_append, List.map_singleton, List.mem_singleton, lockOf_inj]
    have hheld := h.held t m'
    rw [Graph.heldIds] at hheld
    rw [hheld, hpc]
    have hown := h.granted t m hpc
    constructor
    · rintro (⟨ho, -⟩ | rfl)
      · exact ⟨ho, by simp [WrapperPc.Hides]⟩
      · exact ⟨hown, by simp [WrapperPc.Hides]⟩
    · rintro ⟨ho, -⟩
      by_cases hm : m' = m
      · exact Or.inr hm
      · exact Or.inl ⟨ho, by simp [WrapperPc.Hides, Ne.symm hm]⟩
  · intro n hn
    rcases List.mem_append.mp hn with hn | hn
    · exact h.once t n hn
    · rw [List.mem_singleton.mp hn]

/-- The thread logs that it was refused the mutex. -/
theorem Inv.logRefused {rc : Int} (h : s.Inv) (hpc : s.pc t = .lockPost m rc) (hrc : rc ≠ 0)
    (tsNs : Int) (bt : Bt) :
    Inv { s.setPc t .outside with log := s.log ++ [lockPostEvent t m rc tsNs bt] } := by
  have ha : (lockPostEvent t m rc tsNs bt).action = .skip := if_neg hrc
  refine h.log (Or.inl rfl) rfl (fun _ ↦ nofun) (by rw [ha]; rfl) (fun m' ↦ ?_) (h.once t)
  have hheld := h.held t m'
  rw [hpc, Graph.heldIds] at hheld
  rw [hheld]
  simp [WrapperPc.Hides, hrc]

/-- The thread logs that it is about to release the mutex. -/
theorem Inv.logUnlock (h : s.Inv) (hpc : s.pc t = .unlock m) (tsNs : Int) (bt : Bt) :
    Inv { s.setPc t (.realUnlock m) with log := s.log ++ [unlockEvent t m tsNs bt] } := by
  have hstk : Graph.popped ((replay s.log {}).stack t) ((replay s.log {}).lockAt m) =
      ((replay s.log {}).stack t).filter fun n ↦ n.id ≠ lockOf m := by
    rw [lockAt_replay h.plain]
    exact popped_eq_filter ((inv_replay s.log).heldNodup t) (h.once t)
  refine h.log (Or.inr rfl) rfl (fun _ ↦ nofun) hstk (fun m' ↦ ?_) fun n hn ↦
    h.once t n (List.mem_of_mem_filter hn)
  have hheld := h.held t m'
  rw [hpc] at hheld
  have hmem : lockOf m' ∈ (((replay s.log {}).stack t).filter fun n ↦ n.id ≠ lockOf m).map
      LockNode.id ↔ lockOf m' ∈ (replay s.log {}).heldIds t ∧ m' ≠ m := by
    rw [Ne, ← lockOf_inj, Graph.heldIds, List.mem_map, List.mem_map]
    constructor
    · rintro ⟨n, hn, hid⟩
      obtain ⟨hn, hne⟩ := List.mem_filter.mp hn
      exact ⟨⟨n, hn, hid⟩, hid ▸ of_decide_eq_true hne⟩
    · rintro ⟨⟨n, hn, hid⟩, hne⟩
      exact ⟨n, List.mem_filter.mpr ⟨hn, decide_eq_true (hid ▸ hne)⟩, hid⟩
  rw [hmem, hheld]
  simp [WrapperPc.Hides, eq_comm]

/-- One step preserves the invariant. -/
theorem Inv.step {a : Action} (h : s.Inv) (hs : s.step errorcheck a = some s') : s'.Inv := by
  cases stepped_of_step hs with
  | lock hpc | unlock hpc => exact h.setPc (fun m' ↦ by simp [hpc, WrapperPc.Hides]) fun _ ↦ nofun
  | granted hpc hfree => exact h.acquire hpc hfree
  | refused hpc =>
      exact h.setPc (fun m' ↦ by simp [hpc, WrapperPc.Hides, edeadlk]) fun m' ↦ by simp [edeadlk]
  | @lockPost t m rc tsNs bt hpc =>
      by_cases hrc : rc = 0
      · subst hrc
        exact h.logLock hpc tsNs bt
      · exact h.logRefused hpc hrc tsNs bt
  | @logUnlock t m tsNs bt hpc => exact h.logUnlock hpc tsNs bt
  | realUnlock hpc => exact h.release hpc

theorem Inv.exec {as : List Action} (h : s.Inv) (hs : s.exec errorcheck as = some s') : s'.Inv :=
  Run.run_inv (fun _ _ _ _ h hs ↦ h.step hs) h hs

/-! ## The edges of the log -/

/-- The thread has just been granted `b` and it holds `a`; its next step logs that and returns from
`pthread_mutex_lock`. -/
def Grants (s : Mutexes) (a b t : Int) : Prop := s.pc t = .lockPost b 0 ∧ s.owner a = some t

/-- In the run a call of `pthread_mutex_lock` on `b` has returned in a thread that held `a`. -/
def LockedWhile (errorcheck : Int → Bool) (s : Mutexes) (as : List Action) (a b : Int) : Prop :=
  Run.Took (step errorcheck)
    (fun s₁ act ↦ ∃ t tsNs bt, act = .go t tsNs bt ∧ s₁.Grants a b t) s as

/-- The edges between mutexes after one step. -/
theorem Inv.edge_step {a : Action} {x y : Int} (h : s.Inv) (hs : s.step errorcheck a = some s')
    (hxy : x ≠ y) :
    (replay s'.log {}).Edge (lockOf x) (lockOf y) ↔
      (replay s.log {}).Edge (lockOf x) (lockOf y) ∨
        ∃ t tsNs bt, a = .go t tsNs bt ∧ s.Grants x y t := by
  -- a step that logs nothing
  have hquiet : s'.log = s.log → (∀ t tsNs bt, a = .go t tsNs bt → ∀ rc, s.pc t ≠ .lockPost y rc) →
      ((replay s'.log {}).Edge (lockOf x) (lockOf y) ↔
        (replay s.log {}).Edge (lockOf x) (lockOf y) ∨
          ∃ t tsNs bt, a = .go t tsNs bt ∧ s.Grants x y t) := by
    intro hlog hpc
    rw [hlog]
    exact (or_iff_left fun ⟨t, tsNs, bt, ha, hy, _⟩ ↦ hpc t tsNs bt ha 0 hy).symm
  have hgo (t tsNs : Int) (bt : Bt) :
      (∃ t' tsNs' bt', Action.go t tsNs bt = .go t' tsNs' bt' ∧ s.Grants x y t') ↔
        s.Grants x y t :=
    ⟨fun ⟨_, _, _, he, hg⟩ ↦ by cases he; exact hg, fun hg ↦ ⟨_, _, _, rfl, hg⟩⟩
  have hlogs {e : Event} (he : Plain e) :
      (replay (s.log ++ [e]) {}).Edge (lockOf x) (lockOf y) ↔
        (replay s.log {}).Edge (lockOf x) (lockOf y) ∨
          ∃ info, e.Records (replay s.log {}) ⟨lockOf x, lockOf y⟩ info := by
    rw [Graph.Edge, replay_concat]
    exact mem_edges_replayStep (inv_replay _) he.ne_destroy _
  cases stepped_of_step hs with
  | lock | unlock => exact hquiet rfl nofun
  | granted hpc | refused hpc | realUnlock hpc =>
      refine hquiet rfl fun t' _ _ he rc ↦ ?_
      cases he
      rw [hpc]
      exact nofun
  | logUnlock hpc =>
      rw [hlogs (Or.inr rfl), hgo, Grants, hpc]
      refine or_congr_right ⟨fun ⟨_, hrec⟩ ↦ absurd hrec.requestsAt id, fun hg ↦ ?_⟩
      cases hg.1
  | @lockPost t m rc tsNs bt hpc =>
      rw [hlogs (Or.inl rfl), hgo]
      refine or_congr_right ?_
      by_cases hrc : rc = 0
      · subst hrc
        have ha : (lockPostEvent t m 0 tsNs bt).action = .acquire m .mutex := rfl
        rw [Event.exists_records_iff ha, lockAt_replay h.plain, lockOf_inj, Grants]
        show y = m ∧ lockOf y ∉ (replay s.log {}).heldIds t ∧
          lockOf x ∈ (replay s.log {}).heldIds t ↔ _
        rw [h.held, h.held, hpc]
        constructor
        · rintro ⟨rfl, -, ho, -⟩
          exact ⟨rfl, ho⟩
        · rintro ⟨he, ho⟩
          cases he
          exact ⟨rfl, fun hy ↦ hy.2 (Or.inl rfl), ho, by simp [WrapperPc.Hides, hxy.symm]⟩
      · have ha : (lockPostEvent t m rc tsNs bt).action = .skip := if_neg hrc
        refine ⟨fun ⟨_, hrec⟩ ↦ ?_, fun hg ↦ ?_⟩
        · have hreq := hrec.requestsAt
          rw [ha] at hreq
          exact absurd hreq id
        · cases hpc.symm.trans hg.1
          exact absurd rfl hrc

/-- The edges between mutexes after a run. -/
theorem Inv.edge_exec {as : List Action} {x y : Int} (h : s.Inv)
    (hs : s.exec errorcheck as = some s') (hxy : x ≠ y) :
    (replay s'.log {}).Edge (lockOf x) (lockOf y) ↔
      (replay s.log {}).Edge (lockOf x) (lockOf y) ∨ LockedWhile errorcheck s as x y :=
  Run.run_iff (I := Inv) (P := fun s ↦ (replay s.log {}).Edge (lockOf x) (lockOf y))
    (fun _ _ _ h hs ↦ h.step hs) (fun _ _ _ h hs ↦ h.edge_step hs hxy) h hs

end

/-! ## Circular waits -/

variable {s : Mutexes} {n : Nat} [NeZero n] {ts ms : Fin n → Int}

theorem CircularWait.next_ne (h : s.CircularWait ts ms) (i : Fin n) : i + 1 ≠ i := by
  intro he
  have hval := congrArg Fin.val he
  rw [Fin.val_add, Fin.val_one', Nat.mod_eq_of_lt h.two_le] at hval
  by_cases hi : i.val + 1 < n
  · rw [Nat.mod_eq_of_lt hi] at hval
    omega
  · have hn : i.val + 1 = n := by omega
    rw [hn, Nat.mod_self] at hval
    have htwo := h.two_le
    omega

theorem CircularWait.next_mutex_ne (h : s.CircularWait ts ms) (i : Fin n) : ms i ≠ ms (i + 1) := by
  intro he
  have hown := h.held i
  rw [he, h.held (i + 1)] at hown
  exact h.next_ne (i + 1) (h.distinct (Option.some.inj hown))

/-- The requests at which the threads are blocked, as if they had been granted. -/
def blockedRequests (ts ms tsNs : Fin n → Int) (bt : Fin n → Bt) : List Event :=
  List.ofFn fun i ↦ lockPostEvent (ts i) (ms i) 0 (tsNs i) (bt i)

/-- The blocked requests would record the edges of the circle. -/
theorem CircularWait.edge_blocked (h : s.CircularWait ts ms) (hs : s.Inv) (tsNs : Fin n → Int)
    (bt : Fin n → Bt) (i : Fin n) :
    (replay (s.log ++ blockedRequests ts ms tsNs bt) {}).Edge (lockOf (ms i))
      (lockOf (ms (i + 1))) := by
  have hmem : lockPostEvent (ts (i + 1)) (ms (i + 1)) 0 (tsNs (i + 1)) (bt (i + 1)) ∈
      blockedRequests ts ms tsNs bt := List.mem_ofFn.mpr ⟨i + 1, rfl⟩
  have hplain : ∀ e ∈ s.log ++ blockedRequests ts ms tsNs bt, Plain e := by
    intro e he
    rcases List.mem_append.mp he with he | he
    · exact hs.plain e he
    · obtain ⟨j, rfl⟩ := List.mem_ofFn.mp he
      exact Or.inl rfl
  have htids : (blockedRequests ts ms tsNs bt).map Event.tid = List.ofFn ts := by
    rw [blockedRequests, List.map_ofFn]
    rfl
  obtain ⟨p, q, hpq⟩ := List.append_of_mem hmem
  -- no other request is made by the same thread
  have hne : ∀ e ∈ p, e.tid ≠ ts (i + 1) := by
    intro e he heq
    have hnodup : (List.ofFn ts).Nodup := List.nodup_ofFn.mpr h.distinct
    rw [← htids, hpq, List.map_append, List.nodup_append] at hnodup
    exact hnodup.2.2 _ (List.mem_map_of_mem he) _ (List.mem_map_of_mem List.mem_cons_self) heq
  rw [hpq, ← List.append_assoc] at hplain ⊢
  have hp : ∀ e ∈ s.log ++ p, Plain e := fun e he ↦ hplain e (List.mem_append_left _ he)
  have hids : (replay (s.log ++ p) {}).heldIds (ts (i + 1)) =
      (replay s.log {}).heldIds (ts (i + 1)) := by
    rw [Graph.heldIds, stack_replay_append_of_ne hne, Graph.heldIds]
  obtain ⟨info, hrec⟩ : ∃ info, (lockPostEvent (ts (i + 1)) (ms (i + 1)) 0 (tsNs (i + 1))
      (bt (i + 1))).Records (replay (s.log ++ p) {})
        ⟨lockOf (ms i), lockOf (ms (i + 1))⟩ info := by
    refine (Event.exists_records_iff rfl _).mpr ⟨(lockAt_replay hp _).symm, ?_, ?_⟩
    · intro hm
      have hown := ((hs.held _ _).mp (hids ▸ hm)).1
      rw [h.held] at hown
      exact h.next_ne (i + 1) (h.distinct (Option.some.inj hown))
    · refine (hids ▸ (hs.held _ _).mpr ⟨h.held i, ?_⟩)
      rw [h.waits]
      simp [WrapperPc.Hides]
  exact edge_of_records hrec fun e he ↦ (hplain e he).ne_destroy

end Mutexes

/-- A circle of edges is a cycle that the search finds. -/
theorem findCycles_ne_nil_of_circle {es : List Event} {n : Nat} [NeZero n] {f : Fin n → LockId}
    (h : ∀ i, (replay es {}).Edge (f i) (f (i + 1))) {maxPerScc : Int} (hmax : 1 ≤ maxPerScc) :
    findCycles (replay es {}) maxPerScc ≠ [] := by
  have hturn : ∀ k, TransGen (replay es {}).Edge (f 0) (f (Fin.ofNat n (k + 1))) := by
    intro k
    have hstep : ∀ j, (replay es {}).Edge (f (Fin.ofNat n j)) (f (Fin.ofNat n (j + 1))) := by
      intro j
      have hj : Fin.ofNat n (j + 1) = Fin.ofNat n j + 1 := by
        ext
        simp [Fin.ofNat, Fin.val_add]
      exact hj ▸ h (Fin.ofNat n j)
    induction k with
    | zero => exact .single (hstep 0)
    | succ k ih => exact ih.tail (hstep (k + 1))
  have hround : Fin.ofNat n (n - 1 + 1) = 0 := by
    ext
    simp [Fin.ofNat, Nat.sub_add_cancel (Nat.pos_of_neZero n)]
  refine (findCycles_ne_nil_iff hmax).mpr ((Digraph.exists_transGen_iff ?_).mp ⟨f 0, ?_⟩)
  · exact fun v hv ↦ (inv_replay es).loopless _ hv rfl
  · have hall := hturn (n - 1)
    rwa [hround] at hall

open Mutexes

/-- **What a deadlock leaves in the trace.**  In a state of circular wait the graph of the log has
the edge from a mutex of the circle to the next one exactly when a call of `pthread_mutex_lock` on
the second has already returned in a thread that held the first; if that is so all around, a cycle
is found.  The blocked requests are all that is missing: with them the graph has the cycle. -/
theorem circularWait_edge_iff (errorcheck : Int → Bool) (as : List Mutexes.Action) (s : Mutexes)
    (hs : Mutexes.exec errorcheck {} as = some s) (n : Nat) [NeZero n] (ts ms : Fin n → Int)
    (h : s.CircularWait ts ms) :
    (∀ i, (replay s.log {}).Edge (lockOf (ms i)) (lockOf (ms (i + 1))) ↔
      LockedWhile errorcheck {} as (ms i) (ms (i + 1))) ∧
    ((∀ i, LockedWhile errorcheck {} as (ms i) (ms (i + 1))) →
      ∀ maxPerScc, 1 ≤ maxPerScc → findCycles (replay s.log {}) maxPerScc ≠ []) ∧
    ∀ tsNs bt, (∀ i, (replay (s.log ++ blockedRequests ts ms tsNs bt) {}).Edge (lockOf (ms i))
        (lockOf (ms (i + 1)))) ∧
      ∀ maxPerScc, 1 ≤ maxPerScc →
        findCycles (replay (s.log ++ blockedRequests ts ms tsNs bt) {}) maxPerScc ≠ [] := by
  have hinv := init_inv.exec hs
  have hedge : ∀ i, (replay s.log {}).Edge (lockOf (ms i)) (lockOf (ms (i + 1))) ↔
      LockedWhile errorcheck {} as (ms i) (ms (i + 1)) := by
    intro i
    rw [init_inv.edge_exec hs (h.next_mutex_ne i)]
    exact or_iff_right (Dict.notMem_empty _)
  refine ⟨hedge, fun hall maxPerScc hmax ↦ ?_, fun tsNs bt ↦ ?_⟩
  · exact findCycles_ne_nil_of_circle (fun i ↦ (hedge i).mpr (hall i)) hmax
  · have hblocked := h.edge_blocked hinv tsNs bt
    exact ⟨hblocked, fun maxPerScc ↦ findCycles_ne_nil_of_circle hblocked⟩

/-- A thread locks a mutex. -/
def lockCall (t m : Int) : List Mutexes.Action := [.lock t m, .go t 0 [], .go t 0 []]

/-- A thread unlocks a mutex. -/
def unlockCall (t m : Int) : List Mutexes.Action := [.unlock t m, .go t 0 [], .go t 0 []]

/-- Two threads lock the mutexes `10` and `20` in opposite orders and block. -/
def deadlock : List Mutexes.Action :=
  lockCall 1 10 ++ lockCall 2 20 ++ [.lock 1 20, .lock 2 10]

theorem circularWait_pair {s : Mutexes} (hpc : s.pc 1 = .realLock 20 ∧ s.pc 2 = .realLock 10)
    (hown : s.owner 20 = some 2 ∧ s.owner 10 = some 1) : s.CircularWait ![1, 2] ![20, 10] where
  two_le := le_refl 2
  distinct := by decide
  waits := Fin.forall_fin_two.mpr hpc
  held := Fin.forall_fin_two.mpr hown

theorem exec_deadlock : ∃ s, Mutexes.exec (fun _ ↦ false) {} deadlock = some s ∧
    s.CircularWait ![1, 2] ![20, 10] ∧
    s.log = [lockPostEvent 1 10 0 0 [], lockPostEvent 2 20 0 0 []] := by
  have hrun : (Mutexes.exec (fun _ ↦ false) {} deadlock).any (fun s ↦
      (s.pc 1 = .realLock 20 ∧ s.pc 2 = .realLock 10) ∧
      (s.owner 20 = some 2 ∧ s.owner 10 = some 1) ∧
      s.log = [lockPostEvent 1 10 0 0 [], lockPostEvent 2 20 0 0 []]) = true := by decide
  obtain ⟨s, hs, hwait⟩ := (Option.any_eq_true _ _).mp hrun
  obtain ⟨hpc, hown, hlog⟩ := of_decide_eq_true hwait
  exact ⟨s, hs, circularWait_pair hpc hown, hlog⟩

/-- The deadlock is not in the trace of this run: neither request that blocks was logged. -/
theorem not_circularWait_visible :
    ¬ ∀ (errorcheck : Int → Bool) (as : List Mutexes.Action) (s : Mutexes),
      Mutexes.exec errorcheck {} as = some s →
      ∀ (n : Nat) [NeZero n] (ts ms : Fin n → Int), s.CircularWait ts ms →
      (∀ i, (replay s.log {}).Edge (lockOf (ms i)) (lockOf (ms (i + 1)))) ∧
        ∀ maxPerScc, 1 ≤ maxPerScc → findCycles (replay s.log {}) maxPerScc ≠ [] := by
  intro h
  obtain ⟨s, hs, hwait, hlog⟩ := exec_deadlock
  obtain ⟨-, hcycle⟩ := h _ _ s hs 2 _ _ hwait
  rw [hlog] at hcycle
  exact hcycle 1 (le_refl 1) (by decide)

/-- Each thread locks both mutexes in its order without blocking, and then both do it at once. -/
def rehearsedDeadlock : List Mutexes.Action :=
  lockCall 1 10 ++ lockCall 1 20 ++ unlockCall 1 20 ++ unlockCall 1 10 ++
    lockCall 2 20 ++ lockCall 2 10 ++ unlockCall 2 10 ++ unlockCall 2 20 ++ deadlock

theorem circularWait_edge_iff_rehearsed :
    ∃ s, Mutexes.exec (fun _ ↦ false) {} rehearsedDeadlock = some s ∧
      s.CircularWait ![1, 2] ![20, 10] ∧ findCycles (replay s.log {}) 1 ≠ [] := by
  have hrun : (Mutexes.exec (fun _ ↦ false) {} rehearsedDeadlock).any (fun s ↦
      (s.pc 1 = .realLock 20 ∧ s.pc 2 = .realLock 10) ∧
      (s.owner 20 = some 2 ∧ s.owner 10 = some 1) ∧
      (⟨lockOf 20, lockOf 10⟩ : EdgeKey) ∈ (replay s.log {}).edges ∧
      (⟨lockOf 10, lockOf 20⟩ : EdgeKey) ∈ (replay s.log {}).edges) = true := by decide
  obtain ⟨s, hs, hwait⟩ := (Option.any_eq_true _ _).mp hrun
  obtain ⟨hpc, hown, hedge⟩ := of_decide_eq_true hwait
  have hcircle := circularWait_pair hpc hown
  obtain ⟨hiff, hcycle, -⟩ :=
    circularWait_edge_iff (fun _ ↦ false) rehearsedDeadlock s hs 2 ![1, 2] ![20, 10] hcircle
  refine ⟨s, hs, hcircle, hcycle (fun i ↦ (hiff i).mp ?_) 1 (le_refl 1)⟩
  exact (Fin.forall_fin_two (p := fun i : Fin 2 ↦ (replay s.log {}).Edge (lockOf (![20, 10] i))
    (lockOf (![20, 10] (i + 1))))).mpr hedge i

end DeadLockDetect.Runtime
