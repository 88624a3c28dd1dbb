import DeadLockDetect.Trace.Ownership

/-!
# Calls that fail

What the replay makes of the event of an initialisation, a destruction, an unlock or a wait that
returned an error and changed nothing.  The wrappers log a destruction and an unlock before the
result is known, and a wait has its mutex where the result would be; the replay does not look at
the result of an initialisation.  `unchanged_replayFailed_iff` says when the analysis is left alone
nevertheless.

`Graph.Unchanged` compares two graphs by what they say: generations, stacks, the set of edges,
and of the metadata whether a lock is alive and recursive.
-/

namespace DeadLockDetect.Analyzer

/-- The two graphs say the same. -/
structure Graph.Unchanged (g g' : Graph) : Prop where
  addrGen : ∀ addr, g'.addrGen.get? addr = g.addrGen.get? addr
  stack : ∀ t, g'.stack t = g.stack t
  edges : ∀ key, key ∈ g'.edges ↔ key ∈ g.edges
  lockMeta : ∀ lid, (g'.lockMeta.get? lid).map (fun m ↦ (m.alive, m.recursive)) =
    (g.lockMeta.get? lid).map fun m ↦ (m.alive, m.recursive)

/-! ## A release that is followed by an acquisition -/

/-- To leave a lock that was entered again and enter it once more changes nothing. -/
theorem reenter_popped {lid : LockId} {stk : List LockNode}
    (hnodup : (stk.map LockNode.id).Nodup) (h : 1 < holdCountOf lid stk) :
    lid ∈ (Graph.popped stk lid).map LockNode.id ∧ reenter lid (Graph.popped stk lid) = stk := by
  induction stk with
  | nil => exact absurd h (Nat.not_lt_zero 1)
  | cons n stk ih =>
      obtain ⟨hn, hnodup⟩ := List.nodup_cons.mp hnodup
      rw [holdCountOf] at h
      rw [Graph.popped_cons hn]
      by_cases hid : n.id = lid
      · rw [if_pos hid] at h
        rw [if_pos hid, if_pos h]
        refine ⟨List.mem_cons.mpr (Or.inl hid.symm), ?_⟩
        rw [reenter, if_pos hid, Nat.sub_add_cancel h.le]
      · rw [if_neg hid] at h
        obtain ⟨hmem, hre⟩ := ih hnodup h
        rw [if_neg hid]
        refine ⟨List.mem_cons_of_mem _ hmem, ?_⟩
        rw [reenter, if_neg hid, hre]

/-- The top of the stack is found first. -/
theorem release_concat {n : LockNode} (h : n.holdCount = 1) (stk : List LockNode) :
    release n.id (stk ++ [n]) = some stk := by
  induction stk with
  | nil =>
      rw [List.nil_append, release, release, if_pos rfl, if_neg (by omega)]
  | cons m stk ih => rw [List.cons_append, release, ih]

theorem popped_concat {n : LockNode} (h : n.holdCount = 1) (stk : List LockNode) :
    Graph.popped (stk ++ [n]) n.id = stk := by
  rw [Graph.popped, release_concat h]
  rfl

/-- A release that is followed by an acquisition moves no stack exactly if the lock is held more
than once, or its node is on top and looks as if it had just been acquired. -/
theorem pushed_popped_eq_iff (lid : LockId) {stk : List LockNode}
    (hnodup : (stk.map LockNode.id).Nodup) (hcount : Counted stk) (k : LockKind) (tid : Int)
    (bt : Bt) : Graph.pushed (Graph.popped stk lid) lid k tid bt = stk ↔
      1 < holdCountOf lid stk ∨ ∃ below, stk = below ++ [⟨lid, k, 1, bt, tid⟩] := by
  constructor
  · intro h
    have hsub := Graph.holdCountOf_popped hnodup hcount lid lid
    have hadd := Graph.holdCountOf_pushed (Graph.popped stk lid) lid k tid bt lid
    rw [h, hsub, if_pos rfl] at hadd
    rcases Nat.lt_or_ge 1 (holdCountOf lid stk) with hlt | hle
    · exact Or.inl hlt
    · have hnot : lid ∉ (Graph.popped stk lid).map LockNode.id := by
        rw [mem_map_id_iff (hcount.popped lid), hsub, if_pos rfl]
        omega
      rw [Graph.pushed, if_neg hnot] at h
      exact Or.inr ⟨_, h.symm⟩
  · rintro (h | ⟨below, rfl⟩)
    · obtain ⟨hmem, hre⟩ := reenter_popped hnodup h
      rw [Graph.pushed, if_pos hmem, hre]
    · have hnot : lid ∉ below.map LockNode.id := by
        rw [List.map_append, List.nodup_append] at hnodup
        exact fun hm ↦ hnodup.2.2 lid hm lid (List.mem_singleton.mpr rfl) rfl
      have hpop : Graph.popped (below ++ [⟨lid, k, 1, bt, tid⟩]) lid = below :=
        popped_concat rfl below
      rw [hpop, Graph.pushed, if_neg hnot]

namespace Graph

variable {g : Graph} {addr tid : Int} {bt : Bt}

theorem Unchanged.refl (g : Graph) : g.Unchanged g where
  addrGen _ := rfl
  stack _ := rfl
  edges _ := Iff.rfl
  lockMeta _ := rfl

/-- An initialisation always begins a new lifetime. -/
theorem not_unchanged_onInit (k : EvKind) (recursive : Bool) :
    ¬ g.Unchanged (g.onInit k addr recursive tid bt) := by
  intro h
  have hgen := h.addrGen addr
  rw [onInit, Dict.get?_set, if_pos rfl, Dict.getD] at hgen
  cases hg : g.addrGen.get? addr with
  | none =>
      rw [hg] at hgen
      cases hgen
  | some gen =>
      rw [hg] at hgen
      exact Nat.succ_ne_self gen (Option.some.inj hgen)

theorem get?_lockMeta_onDestroy {gen : Nat} (hg : g.addrGen.get? addr = some gen) (lid : LockId) :
    (g.onDestroy addr).lockMeta.get? lid =
      if lid = ⟨addr, gen⟩ then (g.lockMeta.get? lid).map fun m ↦ { m with alive := false }
      else g.lockMeta.get? lid := by
  unfold onDestroy
  simp only [hg]
  cases hm : g.lockMeta.get? ⟨addr, gen⟩ with
  | none =>
      by_cases hl : lid = ⟨addr, gen⟩
      · rw [if_pos hl, hl]
        simp only [hm, Option.map_none]
      · rw [if_neg hl]
  | some m =>
      by_cases hl : lid = ⟨addr, gen⟩
      · rw [if_pos hl, hl]
        simp only [hm, Dict.get?_set, if_true, Option.map_some]
      · rw [if_neg hl]
        simp only [Dict.get?_set, if_neg hl]

/-- A destruction is harmless where nothing is known of the address, or its lock is already dead
and has no edges. -/
theorem unchanged_onDestroy_iff :
    g.Unchanged (g.onDestroy addr) ↔ g.addrGen.get? addr = none ∨
      (∀ key ∈ g.edges, key.frm ≠ g.lockAt addr ∧ key.to ≠ g.lockAt addr) ∧
        ∀ m, g.lockMeta.get? (g.lockAt addr) = some m → m.alive = false := by
  cases hg : g.addrGen.get? addr with
  | none =>
      refine iff_of_true ?_ (Or.inl rfl)
      have heq : g.onDestroy addr = g := by rw [onDestroy, hg]
      rw [heq]
      exact Unchanged.refl g
  | some gen =>
      rw [or_iff_right (Option.some_ne_none gen), lockAt_of_get? hg]
      have hedge (key : EdgeKey) : key ∈ (g.onDestroy addr).edges ↔
          key ∈ g.edges ∧ key.frm ≠ ⟨addr, gen⟩ ∧ key.to ≠ ⟨addr, gen⟩ := by
        rw [onDestroy, hg, Dict.mem_filterKeys, decide_eq_true_iff]
      constructor
      · intro h
        refine ⟨fun key hkey ↦ ((hedge key).mp ((h.edges key).mpr hkey)).2, fun m hm ↦ ?_⟩
        have hlid := h.lockMeta ⟨addr, gen⟩
        rw [get?_lockMeta_onDestroy hg, if_pos rfl, hm] at hlid
        exact (congrArg Prod.fst (Option.some.inj hlid)).symm
      · rintro ⟨hno, hdead⟩
        refine ⟨fun _ ↦ by rw [onDestroy_addrGen], g.stack_onDestroy addr, fun key ↦ ?_, fun lid ↦ ?_⟩
        · rw [hedge]
          exact and_iff_left_of_imp (hno key)
        · rw [get?_lockMeta_onDestroy hg]
          split
          · rename_i hl
            subst hl
            cases hm : g.lockMeta.get? ⟨addr, gen⟩ with
            | none => rfl
            | some m => rw [Option.map_some, Option.map_some, Option.map_some, hdead m hm]
          · rfl

/-- A release is harmless where the thread does not hold the lock. -/
theorem Inv.unchanged_onUnlock_iff (h : g.Inv) :
    g.Unchanged (g.onUnlock addr tid) ↔ g.lockAt addr ∉ g.heldIds tid := by
  constructor
  · intro hsame hmem
    have hholds := h.holds_onUnlock addr tid tid (g.lockAt addr)
    rw [holds_of_stack (hsame.stack tid), if_pos ⟨rfl, rfl⟩] at hholds
    have hpos := h.mem_heldIds_iff.mp hmem
    omega
  · intro hnot
    refine ⟨fun _ ↦ by rw [onUnlock_addrGen], fun t ↦ ?_, fun key ↦ by rw [onUnlock_edges],
      fun lid ↦ by rw [onUnlock_lockMeta]⟩
    by_cases ht : t = tid
    · rw [ht, stack_onUnlock_self h, popped, release_eq_none hnot]
      rfl
    · exact g.stack_act_of_ne (.unlock addr) ht []

/-- To acquire a lock again that is known and has metadata adds nothing to these. -/
theorem onAcquire_known {gen : Nat} (hg : g.addrGen.get? addr = some gen)
    (hm : g.lockAt addr ∈ g.lockMeta) (k : LockKind) (tid : Int) (bt : Bt) :
    (∀ b, (g.onAcquire addr k tid bt).addrGen.get? b = g.addrGen.get? b) ∧
      (g.onAcquire addr k tid bt).lockMeta = g.lockMeta := by
  refine ⟨fun b ↦ ?_, ?_⟩
  · rw [get?_addrGen_onAcquire]
    split
    · rename_i hb
      rw [hb, hg, Dict.getD, hg, Option.getD_some]
    · rfl
  · have hreg : (g.onAcquire addr k tid bt).lockMeta = (g.register addr k tid).1.lockMeta := by
      unfold onAcquire
      dsimp only
      split <;> rfl
    rw [hreg, register_lockMeta, if_pos hm]

/-- The end of a wait adds the edges from the locks that are held besides the mutex, if it is held
no more after its release. -/
theorem Inv.mem_edges_onCondPost (h : g.Inv) (key : EdgeKey) :
    key ∈ (g.onCondPost addr tid bt).edges ↔ key ∈ g.edges ∨
      g.lockAt addr ∉ (popped (g.stack tid) (g.lockAt addr)).map LockNode.id ∧
        ∃ n ∈ popped (g.stack tid) (g.lockAt addr), n.id ≠ g.lockAt addr ∧
          key = ⟨n.id, g.lockAt addr⟩ := by
  have hpop : (g.onUnlock addr tid).stack tid = popped (g.stack tid) (g.lockAt addr) :=
    stack_onUnlock_self h addr tid
  have hnodup := (h.onUnlock addr tid).heldNodup tid
  rw [heldIds, hpop] at hnodup
  rw [← Dict.get?_isSome_iff, onCondPost, get?_edges_onAcquire, onUnlock_edges, hpop,
    onUnlock_lockAt, Option.isSome_or, Bool.or_eq_true, Dict.get?_isSome_iff,
    Option.isSome_iff_exists]
  simp only [acquireInfo_eq_some_iff hnodup]
  refine or_congr_right ⟨?_, ?_⟩
  · rintro ⟨_, hnot, n, hn, hne, hkey, -⟩
    exact ⟨hnot, n, hn, hne, hkey⟩
  · rintro ⟨hnot, n, hn, hne, hkey⟩
    exact ⟨_, hnot, n, hn, hne, hkey, rfl⟩

/-- Where the mutex is known, the end of a wait changes neither the generations nor the metadata. -/
theorem Inv.onCondPost_known (h : g.Inv) (hmem : g.lockAt addr ∈ g.heldIds tid) (bt : Bt) :
    (∀ b, (g.onCondPost addr tid bt).addrGen.get? b = g.addrGen.get? b) ∧
      (g.onCondPost addr tid bt).lockMeta = g.lockMeta := by
  have hmeta := h.heldMeta tid _ hmem
  obtain ⟨gen, hgen, -⟩ := h.metaKnown _ hmeta
  have hgen : (g.onUnlock addr tid).addrGen.get? addr = some gen := by rwa [onUnlock_addrGen]
  have hmeta : (g.onUnlock addr tid).lockAt addr ∈ (g.onUnlock addr tid).lockMeta := by
    rwa [onUnlock_lockAt, onUnlock_lockMeta]
  obtain ⟨hgens, hmetas⟩ := onAcquire_known hgen hmeta .mutex tid bt
  refine ⟨fun b ↦ ?_, ?_⟩
  · rw [onCondPost, hgens, onUnlock_addrGen]
  · rw [onCondPost, hmetas, onUnlock_lockMeta]

/-- A wait is harmless where the mutex is held more than once, or where its node is on top, looks
as if it had just been acquired, and the edges from the locks below are there. -/
theorem Inv.unchanged_onCondPost_iff (h : g.Inv) :
    g.Unchanged (g.onCondPost addr tid bt) ↔ 1 < g.holds tid (g.lockAt addr) ∨
      ∃ below, g.stack tid = below ++ [⟨g.lockAt addr, .mutex, 1, bt, tid⟩] ∧
        ∀ n ∈ below, ⟨n.id, g.lockAt addr⟩ ∈ g.edges := by
  have hstack : (g.onCondPost addr tid bt).stack tid =
      pushed (popped (g.stack tid) (g.lockAt addr)) (g.lockAt addr) .mutex tid bt :=
    stack_act_self h (.condPost addr) tid bt
  have heq := pushed_popped_eq_iff (g.lockAt addr) (h.heldNodup tid) (h.heldCount tid)
    .mutex tid bt
  constructor
  · intro hsame
    refine (heq.mp (hstack ▸ hsame.stack tid)).imp_right ?_
    rintro ⟨below, hbelow⟩
    refine ⟨below, hbelow, fun n hn ↦
      (hsame.edges _).mp ((h.mem_edges_onCondPost _).mpr (Or.inr ?_))⟩
    have hids := h.heldNodup tid
    rw [heldIds, hbelow, List.map_append, List.nodup_append] at hids
    have hne (m : LockNode) (hm : m ∈ below) : m.id ≠ g.lockAt addr :=
      hids.2.2 m.id (List.mem_map_of_mem hm) _ (List.mem_singleton.mpr rfl)
    have hbelow' : popped (g.stack tid) (g.lockAt addr) = below := hbelow ▸ popped_concat rfl below
    rw [hbelow']
    refine ⟨fun hm ↦ ?_, n, hn, hne n hn, rfl⟩
    obtain ⟨m, hm, hid⟩ := List.mem_map.mp hm
    exact hne m hm hid
  · intro hheld
    have hmem : g.lockAt addr ∈ g.heldIds tid := by
      rcases hheld with hlt | ⟨below, hbelow, -⟩
      · exact h.mem_heldIds_iff.mpr (Nat.lt_of_succ_lt hlt)
      · rw [heldIds, hbelow, List.map_append]
        exact List.mem_append_right _ (List.mem_singleton.mpr rfl)
    obtain ⟨hgens, hmetas⟩ := h.onCondPost_known hmem bt
    refine ⟨hgens, fun t ↦ ?_, fun key ↦ ?_, fun lid ↦ by rw [hmetas]⟩
    · by_cases ht : t = tid
      · rw [ht, hstack]
        refine heq.mpr (hheld.imp_right ?_)
        rintro ⟨below, hbelow, -⟩
        exact ⟨below, hbelow⟩
      · exact g.stack_act_of_ne (.condPost addr) ht bt
    · rw [h.mem_edges_onCondPost]
      refine or_iff_left_of_imp ?_
      rintro ⟨hnot, n, hn, -, rfl⟩
      rcases hheld with hlt | ⟨below, hbelow, hall⟩
      · exact absurd (reenter_popped (h.heldNodup tid) hlt).1 hnot
      · rw [hbelow] at hn
        exact hall n ((popped_concat (n := ⟨g.lockAt addr, .mutex, 1, bt, tid⟩) rfl below) ▸ hn)

end Graph

end DeadLockDetect.Analyzer

namespace DeadLockDetect.Runtime

open Analyzer

/-- The graph after the events of a call whose real function returns `rc` and changes nothing. -/
def Call.replayFailed (c : Call) (rc : Int32) (t tsNs : UInt64) (pcs : Pcs) (g : Graph) : Graph :=
  match c.wrapper (fun s : Unit ↦ some (rc, s)) ((), []) with
  | some (_, _, events) => replay (events.map fun e ↦ (e.logEvent t tsNs pcs).event) g
  | none => g

theorem Call.replayFailed_eq_act (c : Call) (rc : Int32) (t tsNs : UInt64) (pcs : Pcs)
    (g : Graph) :
    c.replayFailed rc t tsNs pcs g = g.act ((c.logged rc).logEvent t tsNs pcs).event.action t.toNat
      ((c.logged rc).logEvent t tsNs pcs).event.bt := by
  rw [replayFailed, wrapper_apply]
  exact replayStep_eq_act g _

/-- The event of a failed call, from a thread `t` with the backtrace `bt`, does no harm. -/
def Effect.Harmless (g : Graph) (t : Int) (bt : Bt) : Effect → Prop
  | .begin _ _ => False
  | .finish a _ => g.addrGen.get? a.toNat = none ∨
      (∀ key ∈ g.edges, key.frm ≠ g.lockAt a.toNat ∧ key.to ≠ g.lockAt a.toNat) ∧
        ∀ m, g.lockMeta.get? (g.lockAt a.toNat) = some m → m.alive = false
  | .acquire _ _ => True
  | .release a _ => g.lockAt a.toNat ∉ g.heldIds t
  | .wait m => m = 0 ∨ 1 < g.holds t (g.lockAt m.toNat) ∨
      ∃ below, g.stack t = below ++ [⟨g.lockAt m.toNat, .mutex, 1, bt, t⟩] ∧
        ∀ n ∈ below, ⟨n.id, g.lockAt m.toNat⟩ ∈ g.edges

/-- **Failed calls and the analysis.**  An initialisation, a destruction, an unlock or a wait that
returns an error and changes nothing leaves the analysis of any log alone exactly when its event
does no harm there. -/
theorem unchanged_replayFailed_iff (es : List Event) (c : Call)
    (hc : ∀ a k, c.effect ≠ .acquire a k) (rc : Int32) (t tsNs : UInt64) (pcs : Pcs) :
    (replay es {}).Unchanged (c.replayFailed rc t tsNs pcs (replay es {})) ↔
      c.effect.Harmless (replay es {}) t.toNat (pcs.val.map fun pc ↦ { pc := pc.toNat }) := by
  have hasks := c.asks rc t tsNs pcs
  rw [Call.replayFailed_eq_act]
  generalize ((c.logged rc).logEvent t tsNs pcs).event.action = act at hasks
  cases he : c.effect with
  | «begin» a l =>
      rw [he] at hasks
      obtain ⟨recursive, rfl⟩ := hasks
      exact iff_of_false (Graph.not_unchanged_onInit l.kind recursive) id
  | finish a kind =>
      rw [he] at hasks
      cases hasks
      exact Graph.unchanged_onDestroy_iff
  | acquire a k => exact absurd he (hc a k)
  | release a kind =>
      rw [he] at hasks
      cases hasks
      exact (inv_replay es).unchanged_onUnlock_iff
  | wait m =>
      rw [he] at hasks
      by_cases hm : m = 0
      · rw [Effect.Asks, if_pos hm] at hasks
        cases hasks
        exact iff_of_true (Graph.Unchanged.refl _) (Or.inl hm)
      · rw [Effect.Asks, if_neg hm] at hasks
        cases hasks
        rw [Effect.Harmless, or_iff_right hm]
        exact (inv_replay es).unchanged_onCondPost_iff

/-- The event of a call without a backtrace. -/
def eventBy (t : UInt64) (c : Call) (rc : Int32) : Event :=
  ((c.logged rc).logEvent t 0 noPcs).event

/-- Thread `1` locks the mutex at `32` while it holds the one at `16`. -/
def nested : List Event := [eventBy 1 (.mutexLock 16) 0, eventBy 1 (.mutexLock 32) 0]

theorem unchanged_replayFailed_iff_unlock :
    (replay nested {}).Unchanged
      ((Call.mutexUnlock 32).replayFailed 1 2 0 noPcs (replay nested {})) :=
  (unchanged_replayFailed_iff nested (.mutexUnlock 32) nofun 1 2 0 noPcs).mpr
    (show (replay nested {}).lockAt 32 ∉ (replay nested {}).heldIds 2 by decide)

/-- To destroy a mutex that is locked fails with `EBUSY`, and the edge to the mutex is gone. -/
theorem not_unchanged_replayFailed :
    ¬ ∀ (es : List Event) (c : Call) (_ : ∀ a k, c.effect ≠ .acquire a k) (rc : Int32)
      (_ : rc ≠ 0) (t tsNs : UInt64) (pcs : Pcs),
      (replay es {}).Unchanged (c.replayFailed rc t tsNs pcs (replay es {})) := by
  intro h
  have hedge := (h nested (.mutexDestroy 32) nofun 16 (by decide) 2 0 noPcs).edges
    ⟨⟨16, 1⟩, ⟨32, 1⟩⟩
  have hbefore : (⟨⟨16, 1⟩, ⟨32, 1⟩⟩ : EdgeKey) ∈ (replay nested {}).edges := by decide
  have hafter : (⟨⟨16, 1⟩, ⟨32, 1⟩⟩ : EdgeKey) ∉
      ((Call.mutexDestroy 32).replayFailed 16 2 0 noPcs (replay nested {})).edges := by
    decide
  exact hafter (hedge.mpr hbefore)

end DeadLockDetect.Runtime
