import DeadLockDetect.Analyzer.Verdict
import DeadLockDetect.Trace.Deadlock

/-!
# Lock-order inversions

In a run of the wrappers, `b` was locked while `a` was held (`LockedWhile`).  A directed cycle of
this relation is a lock-order inversion, and the graph of the log has a cycle exactly when the run has
one (`exists_transGen_log_iff`).

A trace need not have everything that was logged: events are lost if there is no memory for the ring,
and what comes after the log was disabled, or what the backend has not come to.  But what a trace
has of a thread are successive events of it.  Such a trace has no edge that the log does not have
(`edges_subset_of_ofOwner`): nobody logs that he locked a mutex that he already held.
-/

namespace DeadLockDetect.Runtime

open Analyzer Components Relation

/-! ## Logs of mutexes -/

theorem Plain.steady {e : Event} (h : Plain e) : e.Steady := by
  refine ⟨fun hinit ↦ ?_, h.ne_destroy⟩
  rcases h with h | h <;> cases h.symm.trans hinit

/-- An event of a log takes a lock, releases one, or does nothing. -/
theorem Plain.action_cases {e : Event} (h : Plain e) :
    e.action = .skip ∨ (∃ m k, e.action = .acquire m k) ∨ ∃ m, e.action = .unlock m := by
  rcases h with h | h
  · by_cases hrc : e.rc = 0
    · exact .inr (.inl ⟨e.addr, _, by rw [Event.action, h]; exact if_pos hrc⟩)
    · exact .inl (by rw [Event.action, h]; exact if_neg hrc)
  · exact .inr (.inr ⟨e.addr, by rw [Event.action, h]⟩)

/-- No lock is logged by a thread that holds it. -/
def Proper (es : List Event) : Prop :=
  ∀ p e q, es = p ++ e :: q → ∀ m k, e.action = .acquire m k →
    lockOf m ∉ (replay p {}).heldIds e.tid

section

variable {es fs : List Event}

theorem proper_nil : Proper [] := by
  rintro p e q he
  cases p <;> cases he

theorem proper_concat_iff {e : Event} : Proper (es ++ [e]) ↔ Proper es ∧
    ∀ m k, e.action = .acquire m k → lockOf m ∉ (replay es {}).heldIds e.tid := by
  constructor
  · intro h
    refine ⟨fun p x q hes ↦ h p x (q ++ [e]) (by rw [hes]; simp), h es e [] rfl⟩
  · rintro ⟨h, hlast⟩ p x q hes
    rcases List.eq_nil_or_concat q with rfl | ⟨q, y, rfl⟩
    · obtain ⟨rfl, hx⟩ := List.append_inj' hes rfl
      rw [← List.singleton_inj.mp hx]
      exact hlast
    · rw [List.concat_eq_append, ← List.cons_append, ← List.append_assoc] at hes
      obtain ⟨rfl, -⟩ := List.append_inj' hes rfl
      exact h p x q rfl

theorem Proper.of_append (h : Proper (es ++ fs)) : Proper es := by
  rintro p e q rfl
  exact h p e (q ++ fs) (by simp)

theorem Proper.ofOwner (h : Proper es) (hes : ∀ e ∈ es, Plain e) (t : Int) :
    Proper (ofOwner Event.tid es t) := by
  intro p e q hsplit m k ha
  obtain ⟨l, n, rfl, rfl, rfl, -⟩ := ofOwner_eq_append_cons_iff.mp hsplit
  have hl : ∀ x ∈ l, x.Steady := fun x hx ↦ (hes x (List.mem_append_left _ hx)).steady
  rw [Graph.heldIds, stack_replay_ofOwner hl]
  exact h l e n rfl m k ha

/-- The stack of the thread that takes a lock which it does not hold. -/
theorem stack_acquire (hes : ∀ e ∈ es, Plain e) {e : Event} {m : Int} {k : LockKind}
    (ha : e.action = .acquire m k) (hnew : lockOf m ∉ (replay es {}).heldIds e.tid) :
    (replay (es ++ [e]) {}).stack e.tid =
      (replay es {}).stack e.tid ++ [⟨lockOf m, k, 1, e.bt, e.tid⟩] := by
  rw [replay_concat, stack_replayStep (inv_replay es), if_pos rfl, ha]
  show Graph.pushed _ _ _ _ _ = _
  rw [lockAt_replay hes]
  exact if_neg hnew

/-- The stack of the thread that releases a lock, if it holds every lock once. -/
theorem stack_unlock (hes : ∀ e ∈ es, Plain e) {e : Event} {m : Int} (ha : e.action = .unlock m)
    (hone : ∀ n ∈ (replay es {}).stack e.tid, n.holdCount = 1) :
    (replay (es ++ [e]) {}).stack e.tid =
      ((replay es {}).stack e.tid).filter fun n ↦ n.id ≠ lockOf m := by
  rw [replay_concat, stack_replayStep (inv_replay es), if_pos rfl, ha]
  show Graph.popped _ _ = _
  rw [lockAt_replay hes]
  exact popped_eq_filter ((inv_replay es).heldNodup e.tid) hone

theorem stack_skip {e : Event} (ha : e.action = .skip) (t : Int) :
    (replay (es ++ [e]) {}).stack t = (replay es {}).stack t := by
  rw [replay_concat, stack_replayStep (inv_replay es), ha]
  split <;> rfl

theorem stack_of_ne {e : Event} {t : Int} (ht : t ≠ e.tid) :
    (replay (es ++ [e]) {}).stack t = (replay es {}).stack t := by
  rw [replay_concat, stack_replayStep (inv_replay es), if_neg ht]

/-- In a proper log every lock is held once. -/
theorem Proper.holdCount_eq (h : Proper es) (hes : ∀ e ∈ es, Plain e) (t : Int) :
    ∀ n ∈ (replay es {}).stack t, n.holdCount = 1 := by
  induction es using List.reverseRecOn with
  | nil => exact fun n hn ↦ absurd hn List.not_mem_nil
  | append_singleton es e ih =>
      obtain ⟨h, hlast⟩ := proper_concat_iff.mp h
      have hes' : ∀ x ∈ es, Plain x := fun x hx ↦ hes x (List.mem_append_left _ hx)
      have ih := ih h hes'
      by_cases ht : t = e.tid
      · subst ht
        rcases (hes e List.mem_concat_self).action_cases with ha | ⟨m, k, ha⟩ | ⟨m, ha⟩
        · rw [stack_skip ha]
          exact ih
        · rw [stack_acquire hes' ha (hlast m k ha)]
          intro n hn
          rcases List.mem_append.mp hn with hn | hn
          · exact ih n hn
          · rw [List.mem_singleton.mp hn]
        · rw [stack_unlock hes' ha ih]
          exact fun n hn ↦ ih n (List.mem_of_mem_filter hn)
      · rw [stack_of_ne ht]
        exact ih

/-- The events at the end of a proper log know of no lock that the whole log does not know of, and
of no lock twice. -/
theorem Proper.mem_heldIds_of_suffix (h : Proper (fs ++ es)) (hes : ∀ e ∈ fs ++ es, Plain e)
    (t : Int) : ∀ n ∈ (replay es {}).stack t,
      n.holdCount = 1 ∧ n.id ∈ (replay (fs ++ es) {}).heldIds t := by
  induction es using List.reverseRecOn with
  | nil => exact fun n hn ↦ absurd hn List.not_mem_nil
  | append_singleton es e ih =>
      rw [← List.append_assoc] at h hes ⊢
      obtain ⟨h, hlast⟩ := proper_concat_iff.mp h
      have hall : ∀ x ∈ fs ++ es, Plain x := fun x hx ↦ hes x (List.mem_append_left _ hx)
      have hes' : ∀ x ∈ es, Plain x := fun x hx ↦ hall x (List.mem_append_right _ hx)
      have ih := ih h hall
      by_cases ht : t = e.tid
      · subst ht
        rcases (hes e List.mem_concat_self).action_cases with ha | ⟨m, k, ha⟩ | ⟨m, ha⟩
        · rw [Graph.heldIds, stack_skip ha, stack_skip ha]
          exact ih
        · -- the thread holds the lock neither way
          have hnew : lockOf m ∉ (replay es {}).heldIds e.tid := by
            intro hm
            obtain ⟨n, hn, hid⟩ := List.mem_map.mp hm
            exact hlast m k ha (hid ▸ (ih n hn).2)
          rw [Graph.heldIds, stack_acquire hes' ha hnew, stack_acquire hall ha (hlast m k ha),
            List.map_append]
          intro n hn
          rcases List.mem_append.mp hn with hn | hn
          · exact ⟨(ih n hn).1, List.mem_append_left _ (ih n hn).2⟩
          · rw [List.mem_singleton.mp hn]
            exact ⟨rfl, List.mem_append_right _ List.mem_cons_self⟩
        · rw [Graph.heldIds, stack_unlock hes' ha fun n hn ↦ (ih n hn).1,
            stack_unlock hall ha (h.holdCount_eq hall e.tid)]
          intro n hn
          obtain ⟨hn, hne⟩ := List.mem_filter.mp hn
          obtain ⟨hone, hid⟩ := ih n hn
          obtain ⟨n', hn', hid'⟩ := List.mem_map.mp hid
          refine ⟨hone, List.mem_map.mpr ⟨n', List.mem_filter.mpr ⟨hn', ?_⟩, hid'⟩⟩
          rwa [hid']
      · rw [Graph.heldIds, stack_of_ne ht, stack_of_ne ht]
        exact ih

end

/-! ## Traces of a part of the log -/

/-- A trace that has successive events of each thread has no edge that the log does not have. -/
theorem edges_subset_of_ofOwner {log trace : List Event} (hlog : ∀ e ∈ log, Plain e)
    (hproper : Proper log)
    (h : ∀ t, ∃ lost late,
      ofOwner Event.tid log t = lost ++ ofOwner Event.tid trace t ++ late) (key : EdgeKey)
    (hkey : key ∈ (replay trace {}).edges) : key ∈ (replay log {}).edges := by
  have htrace : ∀ e ∈ trace, Plain e := by
    intro e he
    obtain ⟨lost, late, hsplit⟩ := h e.tid
    have hmem : e ∈ ofOwner Event.tid log e.tid := by
      rw [hsplit]
      exact List.mem_append_left _ (List.mem_append_right _ (mem_ofOwner.mpr ⟨he, rfl⟩))
    exact hlog e (mem_ofOwner.mp hmem).1
  obtain ⟨t, ht⟩ := (mem_edges_ofOwner_iff (fun e he ↦ (htrace e he).steady) key).mp hkey
  have hown : ∀ e ∈ ofOwner Event.tid trace t, Plain e := fun e he ↦
    htrace e (mem_ofOwner.mp he).1
  obtain ⟨p, e, q, hsplit, info, hrec⟩ :=
    (mem_edges_iff_records (fun e he ↦ (hown e he).ne_destroy) key).mp ht
  -- where the event is in the log
  obtain ⟨lost, late, hpart⟩ := h t
  rw [hsplit, List.append_assoc, List.append_assoc, List.cons_append, ← List.append_assoc] at hpart
  obtain ⟨l, m, hl, rfl, hbefore, -⟩ := ofOwner_eq_append_cons_iff.mp hpart
  have hlplain : ∀ x ∈ l, Plain x := fun x hx ↦ hlog x (hl ▸ List.mem_append_left _ hx)
  have hpplain : ∀ x ∈ p, Plain x := fun x hx ↦
    hown x (hsplit ▸ List.mem_append_left _ hx)
  refine (mem_edges_iff_records (fun x hx ↦ (hlog x hx).ne_destroy) key).mpr
    ⟨l, e, m, hl, ?_⟩
  have hplain : Plain e := hlog e (hl ▸ List.mem_append_right _ List.mem_cons_self)
  rcases hplain.action_cases with ha | ⟨addr, k, ha⟩ | ⟨addr, ha⟩
  · have hreq := hrec.requestsAt
    rw [ha] at hreq
    exact absurd hreq id
  · obtain ⟨hto, -, hfrm⟩ := (Event.exists_records_iff ha key).mp ⟨info, hrec⟩
    rw [lockAt_replay hpplain] at hto
    refine (Event.exists_records_iff ha key).mpr ⟨?_, ?_, ?_⟩
    · rw [lockAt_replay hlplain, hto]
    · rw [hto]
      exact hproper l e m hl addr k ha
    · have hsuffix : Proper (lost ++ p) := by
        have hown' := hproper.ofOwner hlog e.tid
        rw [hpart] at hown'
        exact hown'.of_append
      have hlost : ∀ x ∈ lost ++ p, Plain x := by
        rw [← hbefore]
        exact fun x hx ↦ hlplain x (mem_ofOwner.mp hx).1
      obtain ⟨n, hn, hid⟩ := List.mem_map.mp hfrm
      have hheld := (hsuffix.mem_heldIds_of_suffix hlost e.tid n hn).2
      rw [Graph.heldIds, ← hbefore,
        stack_replay_ofOwner (fun x hx ↦ (hlplain x hx).steady) e.tid, hid] at hheld
      exact hheld
  · have hreq := hrec.requestsAt
    rw [ha] at hreq
    exact absurd hreq id

/-! ## Inversions -/

namespace Mutexes

variable {errorcheck : Int → Bool} {s s' : Mutexes}

/-- A thread logs that it locked a mutex only if its stack does not have it. -/
theorem Inv.proper_step {a : Action} (h : s.Inv) (hp : Proper s.log)
    (hs : s.step errorcheck a = some s') : Proper s'.log := by
  cases stepped_of_step hs with
  | lock | unlock | granted | refused | realUnlock => exact hp
  | logUnlock hpc => exact proper_concat_iff.mpr ⟨hp, nofun⟩
  | @lockPost t m rc tsNs bt hpc =>
      refine proper_concat_iff.mpr ⟨hp, fun m' k ha hm ↦ ?_⟩
      by_cases hrc : rc = 0
      · subst hrc
        cases ha
        exact ((h.held t m).mp hm).2 (Or.inl hpc)
      · cases (show (lockPostEvent t m rc tsNs bt).action = .skip from if_neg hrc).symm.trans ha

theorem proper_exec {as : List Action} (hs : exec errorcheck {} as = some s) : Proper s.log := by
  refine (Run.run_inv (I := fun s ↦ s.Inv ∧ Proper s.log) ?_ ⟨init_inv, proper_nil⟩ hs).2
  rintro a - s s' ⟨h, hp⟩ hs
  exact ⟨h.step hs, h.proper_step hp hs⟩

/-- In the run, `b` was locked in a thread that held another mutex, `a`. -/
def Before (errorcheck : Int → Bool) (as : List Action) (a b : Int) : Prop :=
  a ≠ b ∧ LockedWhile errorcheck {} as a b

/-- Mutexes were locked in a circle: each in a thread that held the one before. -/
def Inversion (errorcheck : Int → Bool) (as : List Action) : Prop :=
  ∃ m, TransGen (Before errorcheck as) m m

theorem edge_log_iff {as : List Action} (hs : exec errorcheck {} as = some s) (v w : LockId) :
    (replay s.log {}).Edge v w ↔
      ∃ a b, v = lockOf a ∧ w = lockOf b ∧ Before errorcheck as a b := by
  have hinv : s.Inv := init_inv.exec hs
  have hiff : ∀ a b, a ≠ b → ((replay s.log {}).Edge (lockOf a) (lockOf b) ↔
      LockedWhile errorcheck {} as a b) := by
    intro a b hab
    rw [init_inv.edge_exec hs hab]
    exact or_iff_right (Dict.notMem_empty _)
  constructor
  · intro h
    have hsteady := steady_replay fun e he ↦ (hinv.plain e he).steady
    obtain ⟨hv, hw⟩ := (inv_replay s.log).edgeMeta _ h
    have hv' : v = lockOf v.addr := hsteady.eq_of_mem_lockMeta hv
    have hw' : w = lockOf w.addr := hsteady.eq_of_mem_lockMeta hw
    have hne : v.addr ≠ w.addr := fun he ↦
      (inv_replay s.log).loopless _ h (hv'.trans ((congrArg lockOf he).trans hw'.symm))
    rw [hv', hw'] at h
    exact ⟨v.addr, w.addr, hv', hw', hne, (hiff _ _ hne).mp h⟩
  · rintro ⟨a, b, rfl, rfl, hab, h⟩
    exact (hiff a b hab).mpr h

/-- The graph of the log has a cycle exactly when the run has an inversion. -/
theorem exists_transGen_log_iff {as : List Action} (hs : exec errorcheck {} as = some s) :
    (∃ v, TransGen (replay s.log {}).Edge v v) ↔ Inversion errorcheck as := by
  constructor
  · rintro ⟨v, hv⟩
    refine ⟨v.addr, TransGen.lift LockId.addr (fun x y hxy ↦ ?_) v v hv⟩
    obtain ⟨a, b, rfl, rfl, hab⟩ := (edge_log_iff hs x y).mp hxy
    exact hab
  · rintro ⟨m, hm⟩
    refine ⟨lockOf m, TransGen.lift lockOf (fun a b hab ↦ ?_) m m hm⟩
    exact (edge_log_iff hs _ _).mpr ⟨a, b, rfl, rfl, hab⟩

end Mutexes

end DeadLockDetect.Runtime
