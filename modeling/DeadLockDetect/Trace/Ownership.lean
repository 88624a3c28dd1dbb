import DeadLockDetect.Analyzer.HoldCount
import DeadLockDetect.Runtime.Ownership
import DeadLockDetect.Trace.RoundTrip

/-!
# The replayed stacks are the locks that are held

`Matches` relates the graph of the log to the locks of the process: a thread's stack
counts for every lock what the thread holds, and one more for the mutex that it is to take
again at the end of a wait.  There is one lemma for each effect that a call can have, and
`shownBy_exec` is what follows for the threads outside a wait.
-/

namespace DeadLockDetect.Runtime

open Analyzer

/-! ## What a call asks of the graph -/

theorem toNat_inj {a b : UInt64} : (a.toNat : Int) = b.toNat ↔ a = b := by
  rw [Int.natCast_inj, UInt64.toNat_inj]

theorem toInt64_toInt_eq_zero {rc : Int32} : rc.toInt64.toInt = 0 ↔ rc = 0 := by
  rw [Int32.toInt_toInt64]
  exact Int32.toInt_inj (y := 0)

/-- The action by which the replay accounts for an effect. -/
def Effect.Asks (rc : Int32) : Effect → Analyzer.Action → Prop
  | .begin a l, act => ∃ recursive, act = .init l.kind a.toNat recursive
  | .finish a _, act => act = .destroy a.toNat
  | .acquire a k, act =>
      if rc = 0 then act = .acquire a.toNat k else act = .skip ∨ act = .attempt a.toNat k
  | .release a _, act => act = .unlock a.toNat
  | .wait m, act => act = if m = 0 then .skip else .condPost m.toNat

theorem Effect.asks_lockAction (rc : Int32) (a : UInt64) (k : LockKind) :
    (Effect.acquire a k).Asks rc (lockAction rc.toInt64.toInt a.toNat k) := by
  rw [Asks, lockAction]
  by_cases hrc : rc = 0
  · rw [if_pos hrc, if_pos (toInt64_toInt_eq_zero.mpr hrc)]
  · rw [if_neg hrc, if_neg fun h ↦ hrc (toInt64_toInt_eq_zero.mp h)]
    exact Or.inl rfl

theorem Effect.asks_tryAction (rc : Int32) (a : UInt64) (k : LockKind) :
    (Effect.acquire a k).Asks rc (tryAction rc.toInt64.toInt a.toNat k) := by
  rw [Asks, tryAction]
  by_cases hrc : rc = 0
  · rw [if_pos hrc, if_pos (toInt64_toInt_eq_zero.mpr hrc)]
  · rw [if_neg hrc, if_neg fun h ↦ hrc (toInt64_toInt_eq_zero.mp h)]
    exact Or.inr rfl

theorem Effect.asks_wait (rc : Int32) (m : UInt64) :
    (Effect.wait m).Asks rc (if m.toInt64.toInt % 2 ^ 64 ≠ 0 then
      .condPost (m.toInt64.toInt % 2 ^ 64) else .skip) := by
  have hm : (m.toNat : Int) ≠ 0 ↔ ¬ m = 0 := not_congr (toNat_inj (b := 0))
  rw [Asks, toInt64_emod]
  simp only [hm, ite_not]

/-- What the event of a call asks of the graph. -/
theorem Call.asks (c : Call) (rc : Int32) (t tsNs : UInt64) (pcs : Pcs) :
    c.effect.Asks rc ((c.logged rc).logEvent t tsNs pcs).event.action := by
  cases c with
  | mutexInit | rwlockInit | spinInit => exact ⟨_, rfl⟩
  | mutexDestroy | rwlockDestroy | spinDestroy => rfl
  | mutexUnlock | rwlockUnlock | spinUnlock => rfl
  | mutexLock | rwlockRdlock | rwlockWrlock | spinLock => exact Effect.asks_lockAction rc _ _
  | mutexTrylock | mutexTimedlock | rwlockTryrdlock | rwlockTimedrdlock | rwlockTrywrlock
  | rwlockTimedwrlock | spinTrylock => exact Effect.asks_tryAction rc _ _
  | condWait | condTimedwait => exact Effect.asks_wait rc _

/-! ## The simulation -/

/-- The graph counts what the threads hold and what they are to take again. -/
structure Matches (g : Graph) (s : Locks) : Prop where
  inv : g.Inv
  /-- No lock is at the null address. -/
  nonnull : ∀ a, s.lock a ≠ none → a ≠ 0
  /-- The mutex of a wait is there. -/
  present : ∀ t m, s.waiting.get? t = some m → s.lock m ≠ none
  count : ∀ t a : UInt64, g.holds t.toNat (g.lockAt a.toNat) = s.held t a + s.owed t a
  /-- Nothing else is counted. -/
  only : ∀ (t : UInt64) (x : LockId), 0 < g.holds t.toNat x → ∃ a : UInt64, x = g.lockAt a.toNat

theorem matches_init : Matches {} {} where
  inv := Graph.inv_empty
  nonnull _ h := absurd rfl h
  present _ _ h := by cases h
  count _ _ := rfl
  only _ _ h := absurd h (Nat.lt_irrefl 0)

namespace Matches

variable {g g' : Graph} {s s' : Locks} {t a : UInt64}

/-- An event that neither moves a stack nor begins a lifetime. -/
theorem congr (h : Matches g s) (hinv : g'.Inv) (hstack : ∀ t, g'.stack t = g.stack t)
    (hlock : ∀ b, g'.lockAt b = g.lockAt b) : Matches g' s where
  inv := hinv
  nonnull := h.nonnull
  present := h.present
  count t a := by rw [Graph.holds_of_stack (hstack _), hlock, h.count]
  only t x hx := by
    rw [Graph.holds_of_stack (hstack _)] at hx
    obtain ⟨a, rfl⟩ := h.only t x hx
    exact ⟨a, (hlock _).symm⟩

/-- A lock appears at `a`, or disappears, where nobody holds one. -/
theorem put (h : Matches g s) {l : Option Lock} (ha : l ≠ none → a ≠ 0)
    (hl : ∀ t, (l.map (Lock.held t)).getD 0 = 0) (huse : s.inUse a = false) (hinv : g'.Inv)
    (hstack : ∀ t, g'.stack t = g.stack t)
    (hlock : ∀ b : UInt64, b ≠ a → g'.lockAt b.toNat = g.lockAt b.toNat)
    (hnew : ∀ t : UInt64, g'.holds t.toNat (g'.lockAt a.toNat) = 0) :
    Matches g' (s.put a l) where
  inv := hinv
  nonnull b hb := by
    by_cases hba : b = a
    · subst hba
      refine ha fun hl ↦ hb ?_
      rw [hl]
      exact Function.update_self ..
    · refine h.nonnull b fun hs ↦ hb ?_
      rw [← hs]
      exact Function.update_of_ne hba _ _
  present u m hu := by
    have hma : m ≠ a := by
      rintro rfl
      have howed : s.owed u m = 0 := Locks.owed_eq_zero huse u
      rw [Locks.owed, if_pos (show s.waiting.get? u = some m from hu)] at howed
      cases howed
    rw [show (s.put a l).lock m = s.lock m from Function.update_of_ne hma _ _]
    exact h.present u m hu
  count u b := by
    rw [show (s.put a l).owed u b = s.owed u b from rfl]
    by_cases hb : b = a
    · subst hb
      have hheld : (s.put b l).held u b = 0 := by
        rw [Locks.held, show (s.put b l).lock b = l from Function.update_self .., hl]
      rw [hnew, hheld, Locks.owed_eq_zero huse]
    · rw [Graph.holds_of_stack (hstack _), hlock b hb, h.count, Locks.held_put_of_ne hb]
  only u x hx := by
    rw [Graph.holds_of_stack (hstack _)] at hx
    obtain ⟨b, rfl⟩ := h.only u x hx
    refine ⟨b, (hlock b ?_).symm⟩
    rintro rfl
    rw [h.count, Locks.held_eq_zero huse, Locks.owed_eq_zero huse] at hx
    exact Nat.lt_irrefl 0 hx

/-- The holders of the lock at `a` change, or a thread begins or ends a wait with it. -/
theorem replace (h : Matches g s) {l l' : Lock} (hl : s.lock a = some l)
    (hl' : s'.lock = Function.update s.lock a (some l'))
    (hwait : ∀ t m, s'.waiting.get? t = some m → m = a ∨ s.waiting.get? t = some m) (hinv : g'.Inv)
    (hlock : ∀ b, g'.lockAt b = g.lockAt b)
    (hcount : ∀ u b : UInt64,
      g'.holds u.toNat (g.lockAt b.toNat) = s'.held u b + s'.owed u b)
    (honly : ∀ (u : UInt64) (x : LockId),
      0 < g'.holds u.toNat x → 0 < g.holds u.toNat x ∨ x = g.lockAt a.toNat) :
    Matches g' s' where
  inv := hinv
  nonnull b hb := by
    refine h.nonnull b fun hs ↦ hb ?_
    have hba : b ≠ a := fun he ↦ by rw [he, hl] at hs; cases hs
    rw [hl', Function.update_of_ne hba, hs]
  present t m ht := by
    rw [hl']
    rcases hwait t m ht with rfl | ht
    · rw [Function.update_self]
      exact Option.some_ne_none _
    · by_cases hma : m = a
      · rw [hma, Function.update_self]
        exact Option.some_ne_none _
      · rw [Function.update_of_ne hma]
        exact h.present t m ht
  count u b := by rw [hlock, hcount]
  only u x hx := by
    rcases honly u x hx with hx | rfl
    · obtain ⟨b, rfl⟩ := h.only u x hx
      exact ⟨b, (hlock _).symm⟩
    · exact ⟨a, (hlock _).symm⟩

/-- Threads and addresses are told apart by their numbers. -/
theorem holder_iff {u b : UInt64} :
    ((u.toNat : Int) = t.toNat ∧ g.lockAt b.toNat = g.lockAt a.toNat) ↔ u = t ∧ b = a := by
  rw [toNat_inj]
  refine and_congr_right fun _ ↦ ⟨fun he ↦ ?_, fun he ↦ by rw [he]⟩
  exact toNat_inj.mp (congrArg LockId.addr he)

/-- A thread acquires a lock. -/
theorem acquire (h : Matches g s) {k k' : LockKind} (bt : Bt)
    (hs : s.perform t (.acquire a k) = some s') :
    Matches (g.onAcquire a.toNat k' t.toNat bt) s' := by
  obtain ⟨l, l', hl, hacq, rfl⟩ := Locks.of_acquire hs
  refine h.replace hl rfl (fun _ _ ↦ Or.inr) (h.inv.onAcquire _ _ _ _)
    (fun b ↦ g.lockAt_act (a := .acquire a.toNat k') id _ _) ?_ ?_
  · intro u b
    rw [Graph.holds_onAcquire, h.count, Locks.held_put_acquire hl hacq]
    simp only [holder_iff]
    exact Nat.add_right_comm _ _ _
  · intro u x hx
    rw [Graph.holds_onAcquire] at hx
    by_cases he : (u.toNat : Int) = t.toNat ∧ x = g.lockAt a.toNat
    · exact Or.inr he.2
    · rw [if_neg he] at hx
      exact Or.inl hx

/-- A thread releases a lock. -/
theorem release (h : Matches g s) {kind : EvKind} (hs : s.perform t (.release a kind) = some s') :
    Matches (g.onUnlock a.toNat t.toNat) s' := by
  obtain ⟨l, l', hl, hrel, rfl⟩ := Locks.of_release hs
  refine h.replace hl rfl (fun _ _ ↦ Or.inr) (h.inv.onUnlock _ _)
    (fun b ↦ g.onUnlock_lockAt _ _ b) ?_ ?_
  · intro u b
    rw [h.inv.holds_onUnlock, h.count, ← Locks.held_put_release hl hrel]
    simp only [holder_iff]
    rw [show (s.put a (some l')).owed u b = s.owed u b from rfl]
    omega
  · intro u x hx
    rw [h.inv.holds_onUnlock] at hx
    exact Or.inl (by omega)

/-- A thread begins a wait: the graph does not see that it gives up the mutex. -/
theorem wait (h : Matches g s) (ht : s.waiting.get? t = none) (hs : s.wait t a = some s') :
    Matches g s' := by
  obtain ⟨s₁, hs₁, rfl⟩ := Option.map_eq_some_iff.mp hs
  obtain ⟨l, l', hl, hrel, rfl⟩ := Locks.of_release hs₁
  refine h.replace hl rfl ?_ h.inv (fun _ ↦ rfl) ?_ (fun _ _ ↦ Or.inl)
  · intro u m hu
    rw [Dict.get?_set] at hu
    split at hu
    · exact Or.inl (Option.some.inj hu).symm
    · exact Or.inr hu
  · intro u b
    rw [h.count, ← Locks.held_put_release hl hrel, Nat.add_assoc]
    refine congrArg _ ?_
    rw [Locks.owed, Locks.owed, Dict.get?_set]
    by_cases hu : u = t
    · rw [hu, ht]
      simp [eq_comm]
    · simp [hu, Locks.put]

/-- A wait returns: the graph sees the mutex released and acquired again. -/
theorem condPost (h : Matches g s) (ht : s.waiting.get? t = some a) (bt : Bt)
    (hs : s.perform t (.wait a) = some s') :
    Matches (g.onCondPost a.toNat t.toNat bt) s' := by
  obtain ⟨l, l', hl, hacq, rfl⟩ := Locks.of_wait hs
  have hlock (b : Int) : (g.onCondPost a.toNat t.toNat bt).lockAt b = g.lockAt b :=
    g.lockAt_act (a := .condPost a.toNat) id _ _
  have hholds (u : UInt64) (x : LockId) :
      (g.onCondPost a.toNat t.toNat bt).holds u.toNat x = g.holds u.toNat x -
          (if (u.toNat : Int) = t.toNat ∧ x = g.lockAt a.toNat then 1 else 0) +
        if (u.toNat : Int) = t.toNat ∧ x = g.lockAt a.toNat then 1 else 0 := by
    rw [Graph.onCondPost, Graph.holds_onAcquire, h.inv.holds_onUnlock, Graph.onUnlock_lockAt]
  refine h.replace hl rfl ?_ ((h.inv.onUnlock _ _).onAcquire _ _ _ _) hlock ?_ ?_
  · intro u m hu
    rw [Dict.get?_filterKeys] at hu
    split at hu
    · exact Or.inr hu
    · cases hu
  · intro u b
    have howed : s.owed u b = (if u = t ∧ b = a then 1 else 0) +
        Locks.owed { s.put a (some l') with waiting := s.waiting.filterKeys fun u ↦ u ≠ t } u b := by
      rw [Locks.owed, Locks.owed, Dict.get?_filterKeys]
      by_cases hu : u = t
      · rw [hu, ht]
        simp [eq_comm]
      · simp [hu]
    have hheld : Locks.held { s.put a (some l') with
        waiting := s.waiting.filterKeys fun u ↦ u ≠ t } u b =
          s.held u b + if u = t ∧ b = a then 1 else 0 := Locks.held_put_acquire hl hacq u b
    rw [hholds, h.count, hheld, howed]
    simp only [holder_iff]
    omega
  · intro u x hx
    rw [hholds] at hx
    by_cases he : (u.toNat : Int) = t.toNat ∧ x = g.lockAt a.toNat
    · exact Or.inr he.2
    · rw [if_neg he] at hx
      exact Or.inl hx

/-- An event that asks for the effect that the call has had. -/
theorem perform (h : Matches g s) {c : Call} {rc : Int32} (hc : c.Succeeds rc)
    (ht : s.waiting.get? t = c.waitsFor) (hs : s.perform t c.effect = some s')
    {act : Analyzer.Action} (hact : c.effect.Asks rc act) (bt : Bt) :
    Matches (g.act act t.toNat bt) s' := by
  cases he : c.effect with
  | «begin» a l =>
      rw [he] at hs hact
      obtain ⟨ha, hl, huse, rfl⟩ := Locks.of_begin hs
      obtain ⟨recursive, rfl⟩ := hact
      refine h.put (fun _ ↦ ha) (Lock.held_eq_zero hl) huse (h.inv.onInit _ _ _ _ _)
        (fun _ ↦ rfl) (fun b hb ↦ ?_) fun u ↦ h.inv.holds_onInit ..
      exact g.lockAt_act (a := .init l.kind a.toNat recursive)
        (fun hinit ↦ hb (toNat_inj.mp hinit).symm) _ _
  | finish a kind =>
      rw [he] at hs hact
      obtain ⟨⟨-, huse⟩, he⟩ := Option.ite_none_right_eq_some.mp hs
      cases he
      cases hact
      refine h.put (fun hne ↦ absurd rfl hne) (fun _ ↦ rfl) huse (h.inv.onDestroy _)
        (fun u ↦ g.stack_onDestroy _ u)
        (fun b _ ↦ g.lockAt_act (a := .destroy a.toNat) id t.toNat bt) fun u ↦ ?_
      have hstack : (g.act (.destroy a.toNat) t.toNat bt).stack u.toNat = g.stack u.toNat :=
        g.stack_onDestroy _ _
      rw [g.lockAt_act (a := .destroy a.toNat) id t.toNat bt, Graph.holds_of_stack hstack, h.count,
        Locks.held_eq_zero huse, Locks.owed_eq_zero huse]
  | acquire a k =>
      rw [he] at hs hact
      rw [Effect.Asks, if_pos (Call.eq_zero_of_succeeds he hc)] at hact
      cases hact
      exact h.acquire bt hs
  | release a kind =>
      rw [he] at hs hact
      cases hact
      exact h.release hs
  | wait m =>
      rw [he] at hs hact
      rw [Call.waitsFor_of_effect he] at ht
      have hm : m ≠ 0 := h.nonnull m (h.present t m ht)
      rw [Effect.Asks, if_neg hm] at hact
      cases hact
      exact h.condPost ht bt hs

end Matches

/-! ## Runs -/

namespace Interposed

variable {s s' : Interposed}

/-- The graph of the log. -/
def graph (s : Interposed) : Graph := replay (s.log.map LogEvent.event) {}

theorem graph_eq_act {t tsNs : UInt64} {pcs : Pcs} {e : DlEv}
    (h : s'.log = s.log ++ [e.logEvent t tsNs pcs]) :
    s'.graph = s.graph.act (e.logEvent t tsNs pcs).event.action t.toNat
      (e.logEvent t tsNs pcs).event.bt := by
  rw [graph, h, List.map_append]
  exact (replay_concat _ _).trans (replayStep_eq_act _ _)

/-- A lock function that is refused moves no stack. -/
theorem matches_refused (h : Matches s.graph s.locks) {t tsNs : UInt64} {pcs : Pcs}
    {c : Call} {rc : Int32} {a : UInt64} {k : LockKind} (he : c.effect = .acquire a k) (hrc : rc ≠ 0)
    (hlog : s'.log = s.log ++ [(c.logged rc).logEvent t tsNs pcs]) :
    Matches s'.graph s.locks ∧ ∀ u, s'.graph.stack u = s.graph.stack u := by
  have hact := c.asks rc t tsNs pcs
  rw [he, Effect.Asks, if_neg hrc] at hact
  rw [graph_eq_act hlog]
  rcases hact with hact | hact
  · rw [hact]
    exact ⟨h, fun _ ↦ rfl⟩
  · rw [hact]
    have hstack := s.graph.stack_onAcquireAttempt a.toNat k t.toNat
      ((c.logged rc).logEvent t tsNs pcs).event.bt
    refine ⟨h.congr (h.inv.onAcquireAttempt _ _ _ _) hstack fun b ↦ ?_, hstack⟩
    exact s.graph.lockAt_act (a := .attempt a.toNat k) id _ _

theorem matches_step {a : Action} (h : Matches s.graph s.locks) (hs : s.step a = some s') :
    Matches s'.graph s'.locks := by
  cases a with
  | place a l =>
      obtain ⟨locks, hlocks, rfl⟩ := Option.map_eq_some_iff.mp hs
      obtain ⟨ha, hl, huse, rfl⟩ := Locks.of_begin hlocks
      refine h.put (fun _ ↦ ha) (Lock.held_eq_zero hl) huse h.inv (fun _ ↦ rfl) (fun _ _ ↦ rfl)
        fun u ↦ ?_
      show s.graph.holds u.toNat (s.graph.lockAt a.toNat) = 0
      rw [h.count, Locks.held_eq_zero huse, Locks.owed_eq_zero huse]
  | wait t m =>
      obtain ⟨ht, hs⟩ := Option.ite_none_right_eq_some.mp hs
      obtain ⟨locks, hlocks, rfl⟩ := Option.map_eq_some_iff.mp hs
      exact h.wait ht hlocks
  | call t c rc tsNs pcs =>
      obtain ⟨ht, hlog, ⟨hc, hlocks⟩ | ⟨hc, ⟨a, k, he⟩, hlocks⟩⟩ := of_call hs
      · rw [graph_eq_act hlog]
        exact h.perform hc ht hlocks (c.asks rc t tsNs pcs) _
      · rw [hlocks]
        refine (matches_refused h he (fun hrc ↦ hc ?_) hlog).1
        exact Call.succeeds_of_eq_zero hrc

theorem matches_exec {as : List Action} (hs : exec {} as = some s) : Matches s.graph s.locks :=
  Run.run_inv (I := fun s ↦ Matches s.graph s.locks)
    (fun _ _ _ _ h hs ↦ matches_step h hs) matches_init hs

end Interposed

/-- The stack of a thread lists each lock that the thread holds once, as the current lock at its
address and with the number of acquisitions that are not yet released, and nothing else. -/
structure Locks.ShownBy (s : Locks) (g : Graph) (t : UInt64) : Prop where
  nodup : (g.heldIds t.toNat).Nodup
  shown : ∀ a : UInt64, 0 < s.held t a → ∃ gen, g.addrGen.get? a.toNat = some gen ∧
    ∃ node ∈ g.stack t.toNat, node.id = ⟨a.toNat, gen⟩ ∧ node.holdCount = s.held t a
  nothingElse : ∀ node ∈ g.stack t.toNat, ∃ a : UInt64, 0 < s.held t a ∧
    node.id.addr = a.toNat ∧ g.addrGen.get? a.toNat = some node.id.gen

/-- A held lock is known, so its generation is not a default. -/
theorem Matches.get?_addrGen {g : Graph} {s : Locks} (h : Matches g s) {t a : UInt64}
    (ha : g.lockAt a.toNat ∈ g.heldIds t.toNat) :
    g.addrGen.get? a.toNat = some (g.lockAt a.toNat).gen := by
  obtain ⟨gen, hgen, -⟩ := h.inv.metaKnown _ (h.inv.heldMeta t.toNat _ ha)
  have hgen : g.addrGen.get? a.toNat = some gen := hgen
  rw [Graph.lockAt_of_get? hgen, hgen]

theorem Matches.shownBy {g : Graph} {s : Locks} (h : Matches g s) {t : UInt64}
    (ht : s.waiting.get? t = none) : s.ShownBy g t := by
  have hcount (a : UInt64) : g.holds t.toNat (g.lockAt a.toNat) = s.held t a := by
    rw [h.count, Locks.owed, ht]
    rfl
  refine ⟨h.inv.heldNodup _, fun a ha ↦ ?_, fun node hnode ↦ ?_⟩
  · have hmem : g.lockAt a.toNat ∈ g.heldIds t.toNat :=
      h.inv.mem_heldIds_iff.mpr (hcount a ▸ ha)
    obtain ⟨node, hnode, hid⟩ := List.mem_map.mp hmem
    refine ⟨_, h.get?_addrGen hmem, node, hnode, hid, ?_⟩
    rw [← hcount, ← hid]
    exact (holdCountOf_of_mem (h.inv.heldNodup _) hnode).symm
  · have hmem : node.id ∈ g.heldIds t.toNat := List.mem_map_of_mem hnode
    have hpos := h.inv.mem_heldIds_iff.mp hmem
    obtain ⟨a, ha⟩ := h.only t node.id hpos
    rw [ha] at hmem
    rw [ha, hcount] at hpos
    exact ⟨a, hpos, congrArg LockId.addr ha, ha ▸ h.get?_addrGen hmem⟩

/-- **The replay simulates the ownership of locks.**  After every run the stack of a thread that is
not in a wait shows exactly what the thread holds.  A lock function that returns an error moves no
stack. -/
theorem shownBy_exec (as : List Interposed.Action) (s : Interposed)
    (hs : Interposed.exec {} as = some s) :
    (∀ t, s.locks.waiting.get? t = none → s.locks.ShownBy s.graph t) ∧
    ∀ t c a k rc tsNs pcs s', c.effect = .acquire a k → rc ≠ 0 →
      s.step (.call t c rc tsNs pcs) = some s' → ∀ u, s'.graph.stack u = s.graph.stack u := by
  have hmatches := Interposed.matches_exec hs
  refine ⟨fun t ht ↦ hmatches.shownBy ht, fun t c a k rc tsNs pcs s' he hrc hstep ↦ ?_⟩
  obtain ⟨-, hlog, -⟩ := Interposed.of_call hstep
  exact (Interposed.matches_refused hmatches he hrc hlog).2

/-- A thread makes a call. -/
def callBy (t : UInt64) (c : Call) (rc : Int32) : Interposed.Action :=
  .call t c rc 0 noPcs

/-- Thread `1` enters a recursive mutex twice and waits with it in vain; thread `2` is refused the
mutex, reads a lock twice and releases it once. -/
def recursiveAndReaders : List Interposed.Action :=
  [callBy 1 (.mutexInit 16 (some .recursive)) 0, callBy 1 (.mutexLock 16) 0,
    callBy 1 (.mutexTimedlock 16) 0, callBy 2 (.mutexTrylock 16) 16,
    .place 32 (.rwlock (.readers [])), callBy 2 (.rwlockRdlock 32) 0, .wait 1 16,
    callBy 2 (.rwlockTryrdlock 32) 0, callBy 1 (.condTimedwait 8 16) etimedout,
    callBy 2 (.rwlockUnlock 32) 0]

theorem shownBy_exec_recursiveAndReaders :
    ∃ s s', Interposed.exec {} recursiveAndReaders = some s ∧
      s.locks.held 1 16 = 2 ∧ s.locks.held 2 32 = 1 ∧
      s.locks.ShownBy s.graph 1 ∧ s.locks.ShownBy s.graph 2 ∧
      s.step (callBy 2 (.mutexTrylock 16) 16) = some s' ∧
      ∀ u, s'.graph.stack u = s.graph.stack u := by
  have hrun : (Interposed.exec {} recursiveAndReaders).any (fun s ↦
      s.locks.held 1 16 = 2 ∧ s.locks.held 2 32 = 1 ∧
      s.locks.waiting.get? 1 = none ∧ s.locks.waiting.get? 2 = none ∧
      (s.step (callBy 2 (.mutexTrylock 16) 16)).isSome) = true := by decide
  obtain ⟨s, hs, hheld⟩ := (Option.any_eq_true _ _).mp hrun
  obtain ⟨h₁, h₂, hw₁, hw₂, hstep⟩ := of_decide_eq_true hheld
  obtain ⟨s', hs'⟩ := Option.isSome_iff_exists.mp hstep
  obtain ⟨hshown, hrefused⟩ := shownBy_exec recursiveAndReaders s hs
  exact ⟨s, s', hs, h₁, h₂, hshown 1 hw₁, hshown 2 hw₂, hs',
    hrefused 2 (.mutexTrylock 16) 16 .mutex 16 0 _ s' rfl (by decide) hs'⟩

end DeadLockDetect.Runtime
