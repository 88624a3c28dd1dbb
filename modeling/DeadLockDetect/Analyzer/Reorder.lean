import Mathlib.Data.List.Induction
import DeadLockDetect.Lib.Reorder
import DeadLockDetect.Analyzer.Locality

/-!
# Replaying events in another order

Two event lists with the same events give the same edges if they agree on the order of the events
that depend on each other: those of one thread; an initialisation and the events about the lock at
its address; a destruction and the requests that record edges at the lock it destroys
(`mem_edges_replay_congr`).

The reason is that each event then sees the same: the same lock lifetime at its address
(`lockAt_graphAt`) and the same stack of its thread (`stack_graphAt`).
-/

namespace DeadLockDetect.Analyzer

/-- The action is about the lock at `addr`, without beginning a lock lifetime there. -/
def Action.Uses (addr : Int) : Action → Prop
  | .acquire b _ | .attempt b _ | .condPost b | .unlock b | .destroy b => b = addr
  | _ => False

theorem Action.RequestsAt.uses {addr : Int} {a : Action} (h : a.RequestsAt addr) : a.Uses addr := by
  cases a <;> first | exact h | exact False.elim h

theorem Action.InitsAt.not_requestsAt {addr b : Int} {a : Action} (h : a.InitsAt addr) :
    ¬ a.RequestsAt b := by
  cases a <;> first | exact id | exact fun _ ↦ h

/-- The graph that an event of the list is replayed on. -/
def graphAt (es : List Event) (e : Event) : Graph := replay (upTo es e) {}

/-- Event `d` begins a lock lifetime that matters to event `e`, or ends one at whose
lock `e` may record an edge; who holds what is read off the list `es`. -/
inductive Conflict (es : List Event) (d e : Event) : Prop where
  /-- An initialisation and an event about the lock at its address. -/
  | init {addr : Int} (hd : d.action.InitsAt addr) (he : e.action.Uses addr)
  /-- A destruction and a request of the lock at its address. -/
  | request {addr : Int} (hd : d.action = .destroy addr) (he : e.action.RequestsAt addr)
  /-- A destruction and a request by a thread that holds a lock at its address. -/
  | held {addr b : Int} {gen : Nat} (hd : d.action = .destroy addr) (he : e.action.RequestsAt b)
      (hheld : ⟨addr, gen⟩ ∈ (graphAt es e).heldIds e.tid)

theorem Conflict.op {es : List Event} {d e : Event} (h : Conflict es d e) :
    d.op = .init ∨ d.op = .destroy := by
  cases h with
  | init hd _ => exact Or.inl (Event.op_of_initsAt hd)
  | request hd _ => exact Or.inr (Event.op_of_destroy hd)
  | held hd _ _ => exact Or.inr (Event.op_of_destroy hd)

/-- The events are of one thread or in conflict. -/
def Dependent (es : List Event) (d e : Event) : Prop :=
  d.tid = e.tid ∨ Conflict es d e ∨ Conflict es e d

theorem Dependent.symm {es : List Event} {d e : Event} (h : Dependent es d e) :
    Dependent es e d :=
  h.imp Eq.symm Or.symm

/-! ## Generations -/

/-- The event gives `addr` a generation, if it had none. -/
def Event.touches (addr : Int) (e : Event) : Bool :=
  decide (e.action.InitsAt addr) || decide (e.action.RequestsAt addr)

/-- The event begins a lock lifetime at `addr`. -/
def Event.inits (addr : Int) (e : Event) : Bool := decide (e.action.InitsAt addr)

/-- The generation at an address counts the initialisations, and one more if the lock was requested
before the first of them. -/
theorem get?_addrGen_replay (es : List Event) (addr : Int) :
    (replay es {}).addrGen.get? addr = (es.find? (Event.touches addr)).map fun r ↦
      es.countP (Event.inits addr) + if r.action.RequestsAt addr then 1 else 0 := by
  induction es using List.reverseRecOn with
  | nil => rfl
  | append_singleton es e ih =>
      rw [replay_concat, replayStep_eq_act, Graph.get?_addrGen_act, Dict.getD, Dict.getD, ih,
        List.find?_append, List.countP_append]
      have hzero : es.find? (Event.touches addr) = none → es.countP (Event.inits addr) = 0 := by
        intro h
        rw [List.countP_eq_zero]
        intro x hx hinit
        have hno := List.find?_eq_none.mp h x hx
        exact hno (by rw [Event.touches, show decide (x.action.InitsAt addr) = true from hinit]; rfl)
      by_cases hinit : e.action.InitsAt addr
      · have hreq := hinit.not_requestsAt (b := addr)
        cases hf : es.find? (Event.touches addr) with
        | none => simp [Event.touches, Event.inits, hinit, hreq, hzero hf]
        | some r => simp [Event.inits, hinit]; omega
      · by_cases hreq : e.action.RequestsAt addr
        · cases hf : es.find? (Event.touches addr) with
          | none => simp [Event.touches, Event.inits, hinit, hreq, hzero hf]
          | some r => simp [Event.inits, hinit, hreq]
        · cases hf : es.find? (Event.touches addr) with
          | none => simp [Event.touches, hinit, hreq]
          | some r => simp [Event.inits, hinit, hreq]

theorem Event.touches_iff {addr : Int} {e : Event} :
    e.touches addr = true ↔ e.action.InitsAt addr ∨ e.action.RequestsAt addr := by
  rw [touches, Bool.or_eq_true, decide_eq_true_iff, decide_eq_true_iff]

section

variable {R : Event → Event → Prop} {l m : List Event} {addr : Int} {e i r r' : Event}

/-- If the lock at `addr` was requested before it was first initialised, so it was in the other
list. -/
theorem requestsAt_find?_upTo (h : SameOrder R l m)
    (hR : ∀ i r, i.action.InitsAt addr → r.action.RequestsAt addr → R i r ∧ R r i) (he : e ∈ l)
    (hi : i ∈ upTo l e) (hinit : i.action.InitsAt addr) (hie : R i e)
    (hr : (upTo l e).find? (Event.touches addr) = some r)
    (hr' : (upTo m e).find? (Event.touches addr) = some r') (hreq : r.action.RequestsAt addr) :
    r'.action.RequestsAt addr := by
  obtain ⟨hre, -, hfirst⟩ := find?_upTo hr
  obtain ⟨hre', htouch', hfirst'⟩ := find?_upTo hr'
  have hrl := mem_of_mem_upTo hre
  have hil := mem_of_mem_upTo hi
  by_contra hno
  have hinit' : r'.action.InitsAt addr := (Event.touches_iff.mp htouch').resolve_right hno
  -- the request is before `i`, hence before `e`, in both lists
  have hne : r ≠ i := fun heq ↦ hinit.not_requestsAt (heq ▸ hreq)
  have hri : r ∈ upTo l i := (mem_upTo_total hrl hil hne).resolve_right fun hir ↦
    hfirst i hir (Event.touches_iff.mpr (Or.inl hinit))
  have hre_m : r ∈ upTo m e := mem_upTo_trans
    ((h.order r hrl i hil (hR i r hinit hreq).2).mp hri) ((h.order i hil e he hie).mp hi)
  -- the initialisation `r'` is before the request in both lists
  have hne' : r' ≠ r := fun heq ↦ hno (heq ▸ hreq)
  have hrr' : r' ∈ upTo m r :=
    (mem_upTo_total (mem_of_mem_upTo hre') (mem_of_mem_upTo hre_m) hne').resolve_right fun hr ↦
      hfirst' r hr (Event.touches_iff.mpr (Or.inr hreq))
  have hrl' := h.perm.mem_iff.mpr (mem_of_mem_upTo hre')
  exact hfirst r' ((h.order r' hrl' r hrl (hR r' r hinit' hreq).1).mpr hrr')
    (Event.touches_iff.mpr (Or.inl hinit'))

/-- The generation that an event sees at `addr` is the same in both lists. -/
theorem getD_addrGen_upTo (h : SameOrder R l m)
    (hR : ∀ i r, i.action.InitsAt addr → r.action.RequestsAt addr → R i r ∧ R r i) (he : e ∈ l)
    (hRe : ∀ i, i.action.InitsAt addr → R i e) :
    (graphAt l e).addrGen.getD addr 1 = (graphAt m e).addrGen.getD addr 1 := by
  have hcount : (upTo l e).countP (Event.inits addr) = (upTo m e).countP (Event.inits addr) := by
    rw [List.countP_eq_length_filter, List.countP_eq_length_filter]
    exact (h.filter_upTo_perm he fun i _ hi ↦ hRe i (of_decide_eq_true hi)).length_eq
  rw [graphAt, graphAt, Dict.getD, Dict.getD, get?_addrGen_replay, get?_addrGen_replay, hcount]
  rcases Nat.eq_zero_or_pos ((upTo m e).countP (Event.inits addr)) with hzero | hpos
  · -- without initialisations it is the first generation
    have hone (es : List Event) (hes : es.countP (Event.inits addr) = 0) :
        ((es.find? (Event.touches addr)).map fun r ↦
          0 + if r.action.RequestsAt addr then 1 else 0).getD 1 = 1 := by
      cases hf : es.find? (Event.touches addr) with
      | none => rfl
      | some r =>
          have hno : ¬ r.action.InitsAt addr := fun hinit ↦
            List.countP_eq_zero.mp hes r (List.mem_of_find?_eq_some hf) (decide_eq_true hinit)
          have hreq := (Event.touches_iff.mp (List.find?_some hf)).resolve_left hno
          simp [hreq]
    rw [hzero, hone _ (hcount.trans hzero), hone _ hzero]
  · obtain ⟨i, hi, hinit⟩ := List.countP_pos_iff.mp hpos
    have hinit := of_decide_eq_true hinit
    have htouch := Event.touches_iff.mpr (Or.inl hinit)
    have hil := h.perm.mem_iff.mpr (mem_of_mem_upTo hi)
    have hi' : i ∈ upTo l e := (h.order i hil e he (hRe i hinit)).mpr hi
    obtain ⟨r, hr⟩ := Option.isSome_iff_exists.mp (List.find?_isSome.mpr ⟨i, hi', htouch⟩)
    obtain ⟨r', hr'⟩ := Option.isSome_iff_exists.mp (List.find?_isSome.mpr ⟨i, hi, htouch⟩)
    have hiff : r.action.RequestsAt addr ↔ r'.action.RequestsAt addr :=
      ⟨requestsAt_find?_upTo h hR he hi' hinit (hRe i hinit) hr hr',
        requestsAt_find?_upTo h.symm hR (h.perm.mem_iff.mp he) hi hinit (hRe i hinit) hr' hr⟩
    rw [hr, hr', Option.map_some, Option.map_some, if_congr hiff rfl rfl]

/-- An event that depends on all events that give `addr` a generation sees the same there in both
lists, also that there is none yet. -/
theorem get?_addrGen_upTo (h : SameOrder R l m)
    (hR : ∀ i r, i.action.InitsAt addr → r.action.RequestsAt addr → R i r ∧ R r i) (he : e ∈ l)
    (hRe : ∀ x, x.touches addr = true → R x e) :
    (graphAt l e).addrGen.get? addr = (graphAt m e).addrGen.get? addr := by
  have hD := getD_addrGen_upTo h hR he fun i hi ↦ hRe i (Event.touches_iff.mpr (Or.inl hi))
  have hperm := h.filter_upTo_perm (p := Event.touches addr) he fun x _ hx ↦ hRe x hx
  have hnone (es : List Event) : (replay es {}).addrGen.get? addr = none ↔
      es.filter (Event.touches addr) = [] := by
    rw [get?_addrGen_replay, Option.map_eq_none_iff, List.find?_eq_none, List.filter_eq_nil_iff]
  have hiff : (graphAt l e).addrGen.get? addr = none ↔ (graphAt m e).addrGen.get? addr = none := by
    rw [graphAt, graphAt, hnone, hnone, ← List.length_eq_zero_iff, hperm.length_eq,
      List.length_eq_zero_iff]
  rw [Dict.getD, Dict.getD] at hD
  cases hl : (graphAt l e).addrGen.get? addr with
  | none => exact (hiff.mp hl).symm
  | some gen =>
      cases hm : (graphAt m e).addrGen.get? addr with
      | none => rw [hiff.mpr hm] at hl; cases hl
      | some gen' =>
          rw [hl, hm] at hD
          exact congrArg some hD

end

/-! ## What an event sees -/

/-- The lists agree on the order of dependent events. -/
abbrev Reordered (F S : List Event) : Prop := SameOrder (Dependent S) F S

section

variable {F S : List Event} {e : Event}

theorem dependent_of_inits {i r : Event} {addr : Int} (hi : i.action.InitsAt addr)
    (hr : r.action.Uses addr) : Dependent S i r ∧ Dependent S r i :=
  ⟨Or.inr (Or.inl (.init hi hr)), Or.inr (Or.inr (.init hi hr))⟩

/-- An event about the lock at an address sees the same lock lifetime there. -/
theorem lockAt_graphAt (h : Reordered F S) (he : e ∈ F) {addr : Int} (huse : e.action.Uses addr) :
    (graphAt F e).lockAt addr = (graphAt S e).lockAt addr := by
  rw [Graph.lockAt, Graph.lockAt, getD_addrGen_upTo h
    (fun i r hi hr ↦ dependent_of_inits hi hr.uses) he fun i hi ↦ (dependent_of_inits hi huse).1]

/-- A destruction destroys the same lock lifetime. -/
theorem destroys_graphAt (h : Reordered F S) (he : e ∈ F) (x : LockId) :
    e.Destroys (graphAt F e) x ↔ e.Destroys (graphAt S e) x := by
  refine exists_congr fun addr ↦ and_congr_right fun ha ↦ ?_
  have huse : e.action.Uses addr := by rw [ha]; rfl
  rw [Graph.Ends, Graph.Ends, get?_addrGen_upTo h
    (fun i r hi hr ↦ dependent_of_inits hi hr.uses) he fun r hr ↦ ?_]
  rcases Event.touches_iff.mp hr with hi | hreq
  · exact (dependent_of_inits hi huse).1
  · exact Or.inr (Or.inr (.request ha hreq))

theorem Action.onStack_congr {a : Action} {lk lk' : Int → LockId}
    (h : ∀ addr, a.Uses addr → lk addr = lk' addr) (tid : Int) (bt : Bt) (stk : List LockNode) :
    a.onStack lk tid bt stk = a.onStack lk' tid bt stk := by
  cases a with
  | skip | init | destroy | attempt => rfl
  | acquire addr k | unlock addr | condPost addr =>
      have haddr := h addr rfl
      simp only [onStack, haddr]

/-- The stack of a thread by its own events, each with the lock lifetimes that it saw. -/
theorem stack_replay_eq {es p rest : List Event} (hnodup : es.Nodup) (hp : es = p ++ rest)
    (t : Int) : (replay p {}).stack t = (p.filter fun x ↦ x.tid = t).foldl
      (fun stk x ↦ x.action.onStack (graphAt es x).lockAt t x.bt stk) [] := by
  induction p using List.reverseRecOn generalizing rest with
  | nil => rfl
  | append_singleton p e ih =>
      have hes : es = p ++ e :: rest := by rw [hp, List.append_assoc, List.singleton_append]
      have hmem : e ∉ p := fun hmem ↦ by
        rw [hes, List.nodup_append] at hnodup
        exact hnodup.2.2 e hmem e List.mem_cons_self rfl
      have hat : graphAt es e = replay p {} := by rw [graphAt, hes, upTo_append_cons hmem]
      rw [replay_concat, stack_replayStep (inv_replay p), List.filter_append, List.foldl_append,
        ← ih hes, ← hat]
      by_cases ht : e.tid = t
      · rw [if_pos ht.symm, List.filter_cons_of_pos (by simpa using ht)]
        rfl
      · rw [if_neg (Ne.symm ht), List.filter_cons_of_neg (by simpa using ht)]
        rfl

/-- A thread has the same stack when it comes to an event. -/
theorem stack_graphAt (h : Reordered F S) (he : e ∈ F) :
    (graphAt F e).stack e.tid = (graphAt S e).stack e.tid := by
  obtain ⟨rest, hF⟩ := upTo_isPrefix F e
  obtain ⟨rest', hS⟩ := upTo_isPrefix S e
  rw [graphAt, stack_replay_eq h.nodup hF.symm, graphAt, stack_replay_eq h.symm.nodup hS.symm]
  have hfilter : (upTo F e).filter (fun x ↦ x.tid = e.tid) =
      (upTo S e).filter fun x ↦ x.tid = e.tid := by
    refine h.filter_upTo_eq he (fun x _ y _ hx hy ↦ Or.inl ?_) (decide_eq_true rfl)
    exact (of_decide_eq_true hx).trans (of_decide_eq_true hy).symm
  rw [hfilter]
  refine List.foldl_ext _ _ _ fun stk x hx ↦ ?_
  have hxF : x ∈ F := h.perm.mem_iff.mpr (mem_of_mem_upTo (List.mem_of_mem_filter hx))
  exact Action.onStack_congr (fun addr ↦ lockAt_graphAt h hxF) _ _ _

/-- An event records the same edges. -/
theorem records_graphAt (h : Reordered F S) (he : e ∈ F) (key : EdgeKey) (info : EdgeInfo) :
    e.Records (graphAt F e) key info ↔ e.Records (graphAt S e) key info := by
  have hF : (graphAt F e).Inv := inv_replay _
  have hS : (graphAt S e).Inv := inv_replay _
  rw [← e.recorded_eq_some_iff hF, ← e.recorded_eq_some_iff hS,
    recorded_congr hS hF (fun addr hreq ↦ lockAt_graphAt h he hreq.uses) (stack_graphAt h he)]

/-! ## The edges -/

theorem before_eq_graphAt {es : List Event} (hnodup : es.Nodup) {i : Nat} (he : es[i]? = some e) :
    es.idxOf e = i ∧ before es i = graphAt es e := by
  obtain ⟨hi, rfl⟩ := List.getElem?_eq_some_iff.mp he
  have hidx := hnodup.idxOf_getElem i hi
  exact ⟨hidx, by rw [graphAt, upTo, hidx, before]⟩

theorem getElem?_idxOf {es : List Event} (he : e ∈ es) : es[es.idxOf e]? = some e :=
  List.getElem?_idxOf he

/-- The edges of a replay, if no event occurs twice. -/
theorem mem_edges_replay_iff_of_nodup {es : List Event} (hnodup : es.Nodup) (key : EdgeKey) :
    key ∈ (replay es {}).edges ↔
      ∃ e ∈ es, (∃ info, e.Records (graphAt es e) key info) ∧
        ∀ d ∈ es, e ∈ upTo es d →
          ¬ (d.Destroys (graphAt es d) key.frm ∨ d.Destroys (graphAt es d) key.to) := by
  rw [mem_edges_replay_iff]
  constructor
  · rintro ⟨i, ⟨info, e, he, hrec⟩, hstands⟩
    obtain ⟨hidx, hbefore⟩ := before_eq_graphAt hnodup he
    have hmem := List.mem_of_getElem? he
    refine ⟨e, hmem, ⟨info, hbefore ▸ hrec⟩, fun d hd hed hdes ↦ ?_⟩
    obtain ⟨-, hbefore'⟩ := before_eq_graphAt hnodup (getElem?_idxOf hd)
    obtain ⟨hfrm, hto⟩ := hstands (es.idxOf d) (hidx ▸ (mem_upTo_iff hmem).mp hed)
    rcases hdes with hdes | hdes
    · exact hfrm ⟨d, getElem?_idxOf hd, hbefore' ▸ hdes⟩
    · exact hto ⟨d, getElem?_idxOf hd, hbefore' ▸ hdes⟩
  · rintro ⟨e, hmem, ⟨info, hrec⟩, hstands⟩
    obtain ⟨-, hbefore⟩ := before_eq_graphAt hnodup (getElem?_idxOf hmem)
    have hlater {j : Nat} (hj : es.idxOf e < j) {x : LockId} (hx : x = key.frm ∨ x = key.to) :
        ¬ DestroyedAt es j x := by
      rintro ⟨d, hd, hdes⟩
      obtain ⟨hidx, hbefore'⟩ := before_eq_graphAt hnodup hd
      have hed : e ∈ upTo es d := (mem_upTo_iff hmem).mpr (hidx ▸ hj)
      rw [hbefore'] at hdes
      refine hstands d (List.mem_of_getElem? hd) hed ?_
      rcases hx with rfl | rfl
      · exact Or.inl hdes
      · exact Or.inr hdes
    exact ⟨es.idxOf e, ⟨info, e, getElem?_idxOf hmem, hbefore ▸ hrec⟩,
      fun j hj ↦ ⟨hlater hj (Or.inl rfl), hlater hj (Or.inr rfl)⟩⟩

/-- A destruction of an end of an edge depends on the events that record the edge. -/
theorem dependent_of_destroys {es : List Event} {d : Event} {key : EdgeKey} {info : EdgeInfo}
    (hrec : e.Records (graphAt es e) key info)
    (hdes : d.Destroys (graphAt es d) key.frm ∨ d.Destroys (graphAt es d) key.to) :
    Dependent es e d := by
  refine Or.inr (Or.inr ?_)
  rcases hdes with ⟨addr, ha, rfl, -⟩ | ⟨addr, ha, rfl, -⟩
  · exact .held ha hrec.requestsAt (hrec.frm_mem_heldIds (inv_replay _))
  · exact .request ha hrec.requestsAt

/-- **The edges do not depend on the order of independent events.** -/
theorem mem_edges_replay_congr (h : Reordered F S) (key : EdgeKey) :
    key ∈ (replay F {}).edges ↔ key ∈ (replay S {}).edges := by
  rw [mem_edges_replay_iff_of_nodup h.nodup, mem_edges_replay_iff_of_nodup h.symm.nodup]
  refine exists_congr fun e ↦ ?_
  rw [h.perm.mem_iff]
  refine and_congr_right fun he ↦ ?_
  have heF := h.perm.mem_iff.mpr he
  rw [exists_congr (records_graphAt h heF key)]
  refine and_congr_right fun ⟨info, hrec⟩ ↦ forall_congr' fun d ↦ ?_
  rw [h.perm.mem_iff]
  refine forall_congr' fun hd ↦ ?_
  have hdF := h.perm.mem_iff.mpr hd
  rw [destroys_graphAt h hdF, destroys_graphAt h hdF]
  by_cases hdes : d.Destroys (graphAt S d) key.frm ∨ d.Destroys (graphAt S d) key.to
  · rw [h.order e heF d hdF (dependent_of_destroys hrec hdes)]
  · exact iff_of_true (fun _ ↦ hdes) fun _ ↦ hdes

end

end DeadLockDetect.Analyzer
