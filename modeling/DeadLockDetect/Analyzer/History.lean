import DeadLockDetect.Lib.FirstWrite
import DeadLockDetect.Analyzer.Inv

/-!
# The edges of a replayed graph, by history

Which edges a replay ends with, and what is stored with them, is here read off the
event list: an edge is there exactly when some event recorded it and no later event
destroyed one of its ends, and its information is that of the earliest such event.

`Event.Records` says in the analyzer's own terms what it means to record an edge: who
requests which lock, holding what.  It is a relation between an event and the graph
*before* it, and does not look at the edges.  That an edge is a first-write cell (in the sense of
`Lib/FirstWrite.lean`) is `get?_edges_replayStep`; the history then comes from
`FirstWrite.eq_some_iff`.
-/

namespace DeadLockDetect.Analyzer

/-! ## Requests and what they record -/

/-- Event `e` requests the lock at `addr` in mode `k` for a thread that then holds `stk`.
To acquire a lock again that is already held is not a request; to try in vain is. -/
inductive Event.Requests (e : Event) (g : Graph) : Int → LockKind → List LockNode → Prop where
  /-- A successful acquisition of a lock that the thread does not hold yet. -/
  | acquire {addr : Int} {k : LockKind} (ha : e.action = .acquire addr k)
      (hnew : g.lockAt addr ∉ g.heldIds e.tid) : Requests e g addr k (g.stack e.tid)
  /-- A failed try or timed attempt. -/
  | attempt {addr : Int} {k : LockKind} (ha : e.action = .attempt addr k) :
      Requests e g addr k (g.stack e.tid)
  /-- The return from a condition wait, after the wait has released its mutex. -/
  | wait {addr : Int} (ha : e.action = .condPost addr)
      (hnew : g.lockAt addr ∉ (g.onUnlock addr e.tid).heldIds e.tid) :
      Requests e g addr .mutex ((g.onUnlock addr e.tid).stack e.tid)

/-- Event `e` records an edge: it requests a lock while its thread holds another one. -/
inductive Event.Records (e : Event) (g : Graph) : EdgeKey → EdgeInfo → Prop where
  | mk {addr : Int} {k : LockKind} {stk : List LockNode} {held : LockNode}
      (hreq : e.Requests g addr k stk) (hheld : held ∈ stk) (hne : held.id ≠ g.lockAt addr) :
      Records e g ⟨held.id, g.lockAt addr⟩ (held.edgeInfo k e.tid e.bt)

namespace Graph

theorem newInfo_eq_some_iff {stk : List LockNode} (hnodup : (stk.map LockNode.id).Nodup)
    {lid : LockId} {k : LockKind} {tid : Int} {bt : Bt} {key : EdgeKey} {info : EdgeInfo} :
    newInfo stk lid k tid bt key = some info ↔
      ∃ held ∈ stk, held.id ≠ lid ∧ key = ⟨held.id, lid⟩ ∧ info = held.edgeInfo k tid bt := by
  induction stk with
  | nil => simp [newInfo_nil]
  | cons n stk ih =>
      obtain ⟨hn, hnodup⟩ := List.nodup_cons.mp hnodup
      rw [newInfo_cons, Option.or_eq_some_iff, ih hnodup]
      constructor
      · rintro (h | ⟨-, held, hm, h⟩)
        · split_ifs at h with hk
          exact ⟨n, List.mem_cons_self, hk.2, hk.1, (Option.some.inj h).symm⟩
        · exact ⟨held, List.mem_cons_of_mem _ hm, h⟩
      · rintro ⟨held, hm, hne, rfl, rfl⟩
        rcases List.mem_cons.mp hm with rfl | hm
        · exact Or.inl (if_pos ⟨rfl, hne⟩)
        · refine Or.inr ⟨if_neg ?_, held, hm, hne, rfl, rfl⟩
          rintro ⟨hk, -⟩
          -- two nodes of one lock would be on the stack
          have hid : held.id = n.id := congrArg EdgeKey.frm hk
          exact hn (hid ▸ List.mem_map_of_mem hm)

theorem acquireInfo_eq_some_iff {stk : List LockNode} (hnodup : (stk.map LockNode.id).Nodup)
    {lid : LockId} {k : LockKind} {tid : Int} {bt : Bt} {key : EdgeKey} {info : EdgeInfo} :
    acquireInfo stk lid k tid bt key = some info ↔ lid ∉ stk.map LockNode.id ∧
      ∃ held ∈ stk, held.id ≠ lid ∧ key = ⟨held.id, lid⟩ ∧ info = held.edgeInfo k tid bt := by
  unfold acquireInfo
  split
  · rename_i hm
    exact ⟨fun h ↦ (by cases h), fun h ↦ absurd hm h.1⟩
  · rename_i hm
    rw [newInfo_eq_some_iff hnodup]
    exact (and_iff_right hm).symm

end Graph

/-- On a graph that satisfies the invariant, `recorded` computes `Records`. -/
theorem Event.recorded_eq_some_iff {g : Graph} (hg : g.Inv) (e : Event) (key : EdgeKey)
    (info : EdgeInfo) : e.recorded g key = some info ↔ e.Records g key info := by
  constructor
  · intro h
    unfold Event.recorded at h
    split at h
    · rename_i addr k ha
      obtain ⟨hnew, held, hm, hne, rfl, rfl⟩ :=
        (Graph.acquireInfo_eq_some_iff (hg.heldNodup e.tid)).mp h
      exact .mk (.acquire ha hnew) hm hne
    · rename_i addr k ha
      obtain ⟨held, hm, hne, rfl, rfl⟩ := (Graph.newInfo_eq_some_iff (hg.heldNodup e.tid)).mp h
      exact .mk (.attempt ha) hm hne
    · rename_i addr ha
      obtain ⟨hnew, held, hm, hne, rfl, rfl⟩ :=
        (Graph.acquireInfo_eq_some_iff ((hg.onUnlock addr e.tid).heldNodup e.tid)).mp h
      exact .mk (.wait ha hnew) hm hne
    · cases h
  · rintro ⟨hreq, hheld, hne⟩
    unfold Event.recorded
    cases hreq with
    | acquire ha hnew =>
        rw [ha]
        exact (Graph.acquireInfo_eq_some_iff (hg.heldNodup e.tid)).mpr
          ⟨hnew, _, hheld, hne, rfl, rfl⟩
    | attempt ha =>
        rw [ha]
        exact (Graph.newInfo_eq_some_iff (hg.heldNodup e.tid)).mpr ⟨_, hheld, hne, rfl, rfl⟩
    | wait ha hnew =>
        rw [ha]
        exact (Graph.acquireInfo_eq_some_iff ((hg.onUnlock _ e.tid).heldNodup e.tid)).mpr
          ⟨hnew, _, hheld, hne, rfl, rfl⟩

/-- A destruction records nothing. -/
theorem Event.recorded_of_destroys {e : Event} {g : Graph} {x : LockId} (h : e.Destroys g x)
    (key : EdgeKey) : e.recorded g key = none := by
  obtain ⟨addr, ha, -⟩ := h
  rw [Event.recorded, ha]

/-! ## The history of an event list -/

theorem replay_concat (es : List Event) (e : Event) :
    replay (es ++ [e]) {} = replayStep (replay es {}) e := by
  rw [replay, List.foldl_append]
  rfl

/-- The graph that event `i` of the list is replayed on. -/
def before (es : List Event) (i : Nat) : Graph := replay (es.take i) {}

theorem before_succ {es : List Event} {i : Nat} {e : Event} (h : es[i]? = some e) :
    before es (i + 1) = replayStep (before es i) e := by
  rw [before, List.take_add_one, h, replay, List.foldl_append]
  rfl

theorem before_succ_of_none {es : List Event} {i : Nat} (h : es[i]? = none) :
    before es (i + 1) = before es i := by
  rw [before, List.take_add_one, h, Option.toList_none, List.append_nil, before]

theorem before_length (es : List Event) : before es es.length = replay es {} := by
  rw [before, List.take_length]

theorem inv_before (es : List Event) (i : Nat) : (before es i).Inv :=
  Graph.inv_empty.replay (es.take i)

theorem inv_replay (es : List Event) : (replay es {}).Inv := Graph.inv_empty.replay es

/-- Event `i` records the edge `key` with the information `info`. -/
def RecordedAt (es : List Event) (i : Nat) (key : EdgeKey) (info : EdgeInfo) : Prop :=
  ∃ e, es[i]? = some e ∧ e.Records (before es i) key info

/-- Event `i` destroys the lock lifetime `x`. -/
def DestroyedAt (es : List Event) (i : Nat) (x : LockId) : Prop :=
  ∃ e, es[i]? = some e ∧ e.Destroys (before es i) x

/-- Only `DESTROY` events destroy. -/
theorem Event.op_of_destroy {e : Event} {addr : Int} (ha : e.action = .destroy addr) :
    e.op = .destroy := by
  unfold Event.action at ha
  cases hop : e.op
  case destroy => rfl
  all_goals
    simp only [hop, lockAction, tryAction] at ha
    first
    | cases ha
    | split at ha <;> cases ha

/-- Only `INIT` events initialise. -/
theorem Event.op_of_init {e : Event} {k : EvKind} {addr : Int} {recursive : Bool}
    (ha : e.action = .init k addr recursive) : e.op = .init := by
  unfold Event.action at ha
  cases hop : e.op
  case init => rfl
  all_goals
    simp only [hop, lockAction, tryAction] at ha
    first
    | cases ha
    | split at ha <;> cases ha

theorem Event.not_destroys {e : Event} (h : e.op ≠ .destroy) (g : Graph) (x : LockId) :
    ¬ e.Destroys g x :=
  fun ⟨_, ha, _⟩ ↦ h (op_of_destroy ha)

theorem not_destroyedAt {es : List Event} (h : ∀ e ∈ es, e.op ≠ .destroy) {i : Nat} {x : LockId} :
    ¬ DestroyedAt es i x :=
  fun ⟨e, he, hd⟩ ↦ e.not_destroys (h e (List.mem_of_getElem? he)) _ _ hd

/-- Event `i` records the edge `key`, and no later event destroys one of its ends. -/
def StandsAt (es : List Event) (key : EdgeKey) (i : Nat) : Prop :=
  (∃ info, RecordedAt es i key info) ∧
    ∀ j, i < j → ¬ DestroyedAt es j key.frm ∧ ¬ DestroyedAt es j key.to

/-- What event `i` records with the edge `key`, computed. -/
def recordedAt (es : List Event) (key : EdgeKey) (i : Nat) : Option EdgeInfo :=
  es[i]?.bind fun e ↦ e.recorded (before es i) key

theorem recordedAt_eq_some_iff {es : List Event} {key : EdgeKey} {i : Nat} {info : EdgeInfo} :
    recordedAt es key i = some info ↔ RecordedAt es i key info := by
  rw [recordedAt, Option.bind_eq_some_iff, RecordedAt]
  exact exists_congr fun e ↦ and_congr_right fun _ ↦
    e.recorded_eq_some_iff (inv_before es i) key info

/-- An edge is a first-write cell: cleared by a destruction of one of its ends. -/
theorem firstWrite_edge (es : List Event) (key : EdgeKey) :
    FirstWrite (fun i ↦ DestroyedAt es i key.frm ∨ DestroyedAt es i key.to) (recordedAt es key)
      (fun i ↦ (before es i).edges.get? key) where
  zero := rfl
  clear i h := by
    obtain ⟨e, he, hd⟩ : ∃ e, es[i]? = some e ∧
        (e.Destroys (before es i) key.frm ∨ e.Destroys (before es i) key.to) :=
      h.elim (fun ⟨e, he, hd⟩ ↦ ⟨e, he, Or.inl hd⟩) fun ⟨e, he, hd⟩ ↦ ⟨e, he, Or.inr hd⟩
    rw [before_succ he, get?_edges_replayStep, if_pos hd]
  keep i h := by
    cases he : es[i]? with
    | none => rw [before_succ_of_none he, recordedAt, he, Option.bind_none, Option.or_none]
    | some e =>
        have hd : ¬ (e.Destroys (before es i) key.frm ∨ e.Destroys (before es i) key.to) :=
          fun hd ↦ h (hd.imp (fun hx ↦ ⟨e, he, hx⟩) fun hx ↦ ⟨e, he, hx⟩)
        rw [before_succ he, get?_edges_replayStep, if_neg hd, recordedAt, he, Option.bind_some]
  idle i h := by
    obtain ⟨e, he, x, hd⟩ : ∃ e, es[i]? = some e ∧ ∃ x, e.Destroys (before es i) x :=
      h.elim (fun ⟨e, he, hd⟩ ↦ ⟨e, he, _, hd⟩) fun ⟨e, he, hd⟩ ↦ ⟨e, he, _, hd⟩
    rw [recordedAt, he, Option.bind_some, Event.recorded_of_destroys hd]

theorem standing_iff_standsAt (es : List Event) (key : EdgeKey) (i : Nat) :
    Standing (fun i ↦ DestroyedAt es i key.frm ∨ DestroyedAt es i key.to) (recordedAt es key)
      es.length i ↔ StandsAt es key i := by
  have hrec : (recordedAt es key i).isSome ↔ ∃ info, RecordedAt es i key info := by
    rw [Option.isSome_iff_exists]
    exact exists_congr fun info ↦ recordedAt_eq_some_iff
  constructor
  · rintro ⟨-, hr, hj⟩
    refine ⟨hrec.mp hr, fun j hij ↦ not_or.mp fun hd ↦ hj j hij ?_ hd⟩
    obtain ⟨e, he⟩ : ∃ e, es[j]? = some e :=
      hd.elim (fun ⟨e, he, _⟩ ↦ ⟨e, he⟩) fun ⟨e, he, _⟩ ↦ ⟨e, he⟩
    exact (List.getElem?_eq_some_iff.mp he).1
  · rintro ⟨hr, hj⟩
    refine ⟨?_, hrec.mpr hr, fun j hij _ ↦ not_or.mpr (hj j hij)⟩
    obtain ⟨info, e, he, -⟩ := hr
    exact (List.getElem?_eq_some_iff.mp he).1

/-- What is stored with an edge is what the earliest event stored whose edge stands. -/
theorem get?_edges_replay_iff (es : List Event) (key : EdgeKey) (info : EdgeInfo) :
    (replay es {}).edges.get? key = some info ↔
      ∃ i, IsLeast {i | StandsAt es key i} i ∧ RecordedAt es i key info := by
  have h := (firstWrite_edge es key).eq_some_iff es.length info
  simp only [standing_iff_standsAt, before_length, recordedAt_eq_some_iff] at h
  exact h

/-- An edge is in the replayed graph exactly when some event recorded it for good. -/
theorem mem_edges_replay_iff (es : List Event) (key : EdgeKey) :
    key ∈ (replay es {}).edges ↔ ∃ i, StandsAt es key i := by
  have h := (firstWrite_edge es key).isSome_iff es.length
  simp only [standing_iff_standsAt, before_length] at h
  rw [← Dict.get?_isSome_iff]
  exact h

/-- **The graph built by a replay.**  An edge is there exactly when some event recorded it
and no later event destroyed one of its ends; stored with it is what the earliest of
these events recorded. -/
theorem edges_replay_exact (es : List Event) (key : EdgeKey) :
    (key ∈ (replay es {}).edges ↔ ∃ i, StandsAt es key i) ∧
      ∀ info, (replay es {}).edges.get? key = some info ↔
        ∃ i, IsLeast {i | StandsAt es key i} i ∧ RecordedAt es i key info :=
  ⟨mem_edges_replay_iff es key, get?_edges_replay_iff es key⟩

end DeadLockDetect.Analyzer
