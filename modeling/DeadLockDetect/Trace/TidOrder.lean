import DeadLockDetect.Runtime.Timed
import DeadLockDetect.Trace.Order

/-!
# The order of the events of one thread id

The backend scans the rings from the one that was registered last to the oldest one.  If a thread
exits with events left in its ring, and a new thread with the same id registers a ring before these
are written, then the events of the new thread come first in the trace.

`Timed.Inv` says what is known of two rings of the same id: the thread of the older one has exited
(`Tids`), its events are not later than those of the newer one (`Times`), and if an event of the
newer one is written, then all of the older one are (`Written`).  The last point is the only one that
the schedule can break.
-/

namespace DeadLockDetect.Runtime

namespace Timed

/-- Two threads have the same id. -/
def SameTid (s : Timed) (t t' : RingId) : Prop := ∃ tid, s.tidOf t = some tid ∧ s.tidOf t' = some tid

/-- The ring `r'` was registered before the ring `r`, by a thread of the same id. -/
def Older (s : Timed) (r' r : RingId) : Prop := s.seq r' ≠ 0 ∧ s.seq r' < s.seq r ∧ s.SameTid r' r

/-- The backend writes an event while an older ring of the same id still holds one. -/
def Overtakes (s : Timed) (a : TimedAction) : Prop :=
  ∃ now i prev r work out, a = .act now (.backend i) ∧
    s.pipe.stage.scan? = some (.process prev r work (.write out)) ∧
      ∃ r', s.Older r' r ∧ s.pipe.written r' ≠ (s.pipe.committed r').map LogEvent.record

/-! ## The invariant -/

/-- Who has which id, and which ring was registered when. -/
structure Tids (s : Timed) : Prop where
  holder : ∀ t tid, s.tidOf t = some tid → (s.pipe.threads t).pc ≠ .exited → s.holder tid = some t
  event : ∀ t e, (s.pipe.threads t).pc.event? = some e → s.tidOf t = some e.tid
  seq : ∀ r, s.seq r ≠ 0 ↔ (s.pipe.threads r).registered = true
  started : ∀ r, s.seq r ≠ 0 → s.tidOf r ≠ none
  seq_le : ∀ r, s.seq r ≤ s.count
  seq_inj : ∀ r r', s.seq r ≠ 0 → s.seq r = s.seq r' → r = r'
  exited : ∀ r' r, s.Older r' r → (s.pipe.threads r').pc = .exited

/-- The times of the events. -/
structure Times (s : Timed) : Prop where
  tid : ∀ r, ∀ d ∈ s.pipe.committed r, s.tidOf r = some d.tid
  now : ∀ r, ∀ d ∈ s.pipe.committed r, d.tsNs ≤ s.now
  stamped : ∀ t e, (s.pipe.threads t).pc.stamped? = some e →
    e.tsNs ≤ s.now ∧ ∀ r, s.SameTid r t → ∀ d ∈ s.pipe.committed r, d.tsNs ≤ e.tsNs
  sorted : ∀ r, (s.pipe.committed r).Pairwise fun d e ↦ d.tsNs ≤ e.tsNs
  older : ∀ r' r, s.Older r' r → ∀ d ∈ s.pipe.committed r', ∀ e ∈ s.pipe.committed r,
    d.tsNs ≤ e.tsNs

/-- The events of the same id in the trace are in the order of their times. -/
def Sorted (trace : List (RingId × Record)) : Prop :=
  trace.Pairwise fun x y ↦ x.2.hdr.tid = y.2.hdr.tid → x.2.hdr.tsNs ≤ y.2.hdr.tsNs

/-- What is written. -/
structure Written (s : Timed) : Prop where
  older : ∀ r' r, s.Older r' r → s.pipe.written r ≠ [] →
    s.pipe.written r' = (s.pipe.committed r').map LogEvent.record
  sorted : Sorted s.pipe.trace

/-- The invariant of a run in which no event overtakes another. -/
structure Inv (s : Timed) : Prop where
  pipe : ∃ vs pend l, s.pipe.Inv vs pend l
  tids : s.Tids
  times : s.Times
  written : s.Written

variable {s s' : Timed} {t r r' : RingId}

/-- Two threads that have not exited have different ids. -/
theorem Tids.eq_of_sameTid (h : s.Tids) (htid : s.SameTid t r) (ht : (s.pipe.threads t).pc ≠ .exited)
    (hr : (s.pipe.threads r).pc ≠ .exited) : t = r := by
  obtain ⟨tid, hts, hrs⟩ := htid
  exact Option.some.inj ((h.holder t tid hts ht).symm.trans (h.holder r tid hrs hr))

theorem not_exited_of_stamped {x : Thread} {e : LogEvent} (h : x.pc.stamped? = some e) :
    x.pc ≠ .exited := by
  intro hpc
  rw [hpc] at h
  cases h

/-- A ring that is not registered has no events. -/
theorem Inv.committed_eq_nil (h : s.Inv) (hr : (s.pipe.threads r).registered = false) :
    s.pipe.committed r = [] := by
  obtain ⟨vs, pend, l, hp⟩ := h.pipe
  exact ((hp.lane r).fresh hr).2

theorem Inv.written_isPrefix (h : s.Inv) (r : RingId) :
    s.pipe.written r <+: (s.pipe.committed r).map LogEvent.record := by
  obtain ⟨vs, pend, l, hp⟩ := h.pipe
  exact hp.written_isPrefix r

/-! ## A thread is started -/

section Start

variable {tid : UInt64}

/-- The state after thread `t` has been started. -/
def started (s : Timed) (t : RingId) (tid : UInt64) : Timed :=
  { s with
    tidOf := Function.update s.tidOf t (some tid)
    holder := Function.update s.holder tid (some t) }

theorem tidOf_started (ht : s.tidOf t = none) (hr : s.tidOf r ≠ none) :
    (s.started t tid).tidOf r = s.tidOf r :=
  Function.update_of_ne (by rintro rfl; exact hr ht) _ _

theorem sameTid_of_started (ht : s.tidOf t = none) (hr : s.tidOf r ≠ none)
    (hr' : s.tidOf r' ≠ none) (h : (s.started t tid).SameTid r' r) : s.SameTid r' r := by
  obtain ⟨k, hk', hk⟩ := h
  rw [tidOf_started ht hr'] at hk'
  rw [tidOf_started ht hr] at hk
  exact ⟨k, hk', hk⟩

theorem Tids.older_of_started (h : s.Tids) (ht : s.tidOf t = none)
    (ho : (s.started t tid).Older r' r) : s.Older r' r := by
  obtain ⟨hne, hlt, htid⟩ := ho
  have hr : s.seq r ≠ 0 := Nat.ne_of_gt (Nat.lt_of_le_of_lt (Nat.zero_le _) hlt)
  exact ⟨hne, hlt, sameTid_of_started ht (h.started r hr) (h.started r' hne) htid⟩

theorem Tids.start (h : s.Tids) (ht : s.tidOf t = none) (htid : s.holder tid = none) :
    (s.started t tid).Tids where
  holder r k hr hpc := by
    by_cases he : r = t
    · subst he
      have hk : some tid = some k := (Function.update_self r _ _).symm.trans hr
      cases hk
      exact Function.update_self tid _ _
    · have hr' : s.tidOf r = some k := (Function.update_of_ne he _ _).symm.trans hr
      have hk := h.holder r k hr' hpc
      have hne : k ≠ tid := by
        rintro rfl
        cases htid.symm.trans hk
      exact (Function.update_of_ne hne _ _).trans hk
  event r e he := by
    have hr := h.event r e he
    rw [tidOf_started ht (by rw [hr]; exact nofun), hr]
  seq := h.seq
  started r hr := by
    rw [tidOf_started ht (h.started r hr)]
    exact h.started r hr
  seq_le := h.seq_le
  seq_inj := h.seq_inj
  exited _ _ ho := h.exited _ _ (h.older_of_started ht ho)

theorem Times.start (hids : s.Tids) (h : s.Times) (ht : s.tidOf t = none) :
    (s.started t tid).Times where
  tid r d hd := by
    have hr := h.tid r d hd
    rw [tidOf_started ht (by rw [hr]; exact nofun), hr]
  now := h.now
  stamped r e he := by
    obtain ⟨hnow, hle⟩ := h.stamped r e he
    refine ⟨hnow, fun r' htid d hd ↦ hle r' (sameTid_of_started ht ?_ ?_ htid) d hd⟩
    · rw [hids.event r e (ThreadPc.event?_of_stamped? he)]
      exact nofun
    · rw [h.tid r' d hd]
      exact nofun
  sorted := h.sorted
  older _ _ ho := h.older _ _ (hids.older_of_started ht ho)

theorem Inv.start (h : s.Inv) (ht : s.tidOf t = none) (htid : s.holder tid = none) :
    (s.started t tid).Inv where
  pipe := h.pipe
  tids := h.tids.start ht htid
  times := Times.start h.tids h.times ht
  written := ⟨fun _ _ ho ↦ h.written.older _ _ (h.tids.older_of_started ht ho), h.written.sorted⟩

end Start

/-! ## Time passes -/

theorem Same.sameTid_iff (hs : Same s s') : s'.SameTid r' r ↔ s.SameTid r' r := by
  rw [SameTid, SameTid, hs.tidOf]

theorem Same.older_iff (hs : Same s s') : s'.Older r' r ↔ s.Older r' r := by
  rw [Older, Older, hs.sameTid_iff, hs.seq]

theorem Tids.same (h : s.Tids) (hs : Same s s') : s'.Tids where
  holder := by
    rw [hs.tidOf, hs.threads, hs.holder]
    exact h.holder
  event := by
    rw [hs.tidOf, hs.threads]
    exact h.event
  seq := by
    rw [hs.seq, hs.threads]
    exact h.seq
  started := by
    rw [hs.seq, hs.tidOf]
    exact h.started
  seq_le := by
    rw [hs.seq, hs.count]
    exact h.seq_le
  seq_inj := by
    rw [hs.seq]
    exact h.seq_inj
  exited r' r ho := by
    rw [hs.threads]
    exact h.exited r' r (hs.older_iff.mp ho)

theorem Times.same (h : s.Times) (hs : Same s s') : s'.Times where
  tid := by
    rw [hs.committed, hs.tidOf]
    exact h.tid
  now r d hd := by
    rw [hs.committed] at hd
    exact UInt64.le_trans (h.now r d hd) hs.now
  stamped t e he := by
    rw [hs.threads] at he
    obtain ⟨hnow, hle⟩ := h.stamped t e he
    rw [hs.committed]
    exact ⟨UInt64.le_trans hnow hs.now, fun r htid ↦ hle r (hs.sameTid_iff.mp htid)⟩
  sorted := by
    rw [hs.committed]
    exact h.sorted
  older r' r ho := by
    rw [hs.committed]
    exact h.older r' r (hs.older_iff.mp ho)

/-! ## An event is written -/

/-- A ring with an event has been registered. -/
theorem Inv.seq_ne_zero (h : s.Inv) {d : LogEvent} (hd : d ∈ s.pipe.committed r) : s.seq r ≠ 0 := by
  rw [h.tids.seq, ← Bool.not_eq_false]
  intro hreg
  rw [h.committed_eq_nil hreg] at hd
  cases hd

section Write

variable {prev : Option RingId} {work : Bool} {out : Record}

/-- The event that is about to be written is the next one of its ring. -/
theorem Inv.exists_out (h : s.Inv)
    (hscan : s.pipe.stage.scan? = some (.process prev r work (.write out))) :
    ∃ pre e post, s.pipe.committed r = pre ++ e :: post ∧
      s.pipe.written r = pre.map LogEvent.record ∧ out = e.record := by
  obtain ⟨vs, pend, l, hp⟩ := h.pipe
  have hflow : s.pipe.written r ++ s.pipe.inFlight r ++ (pend r).map LogEvent.record =
      (s.pipe.committed r).map LogEvent.record := (hp.lane r).flow
  have hfl : s.pipe.inFlight r = [out] := by
    rw [Pipeline.inFlight_of_scan? hscan]
    exact if_pos rfl
  rw [hfl, List.append_assoc, List.singleton_append] at hflow
  obtain ⟨pre, rest, hcom, hpre, hrest⟩ := List.map_eq_append_iff.mp hflow.symm
  obtain ⟨e, post, rfl, he, -⟩ := List.map_eq_cons_iff.mp hrest
  exact ⟨pre, e, post, hcom, hpre.symm, he.symm⟩

/-- The event that is about to be written is not written yet. -/
theorem Inv.written_ne (h : s.Inv)
    (hscan : s.pipe.stage.scan? = some (.process prev r work (.write out))) :
    s.pipe.written r ≠ (s.pipe.committed r).map LogEvent.record := by
  obtain ⟨pre, e, post, hcom, hpre, -⟩ := h.exists_out hscan
  intro hall
  rw [hcom, hpre] at hall
  have hlen := congrArg List.length hall
  rw [List.length_map, List.length_map, List.length_append, List.length_cons] at hlen
  omega

/-- The events of its id that are in the trace are not later than the event that is written. -/
theorem Inv.le_out (h : s.Inv)
    (hscan : s.pipe.stage.scan? = some (.process prev r work (.write out)))
    {x : RingId × Record} (hx : x ∈ s.pipe.trace) (htid : x.2.hdr.tid = out.hdr.tid) :
    x.2.hdr.tsNs ≤ out.hdr.tsNs := by
  obtain ⟨pre, e, post, hcom, hpre, rfl⟩ := h.exists_out hscan
  have hmem : e ∈ s.pipe.committed r := hcom ▸ List.mem_append_right pre List.mem_cons_self
  have hxw : x.2 ∈ s.pipe.written x.1 :=
    List.mem_map.mpr ⟨x, List.mem_filter.mpr ⟨hx, decide_eq_true rfl⟩, rfl⟩
  obtain ⟨d, hd, hdx⟩ := List.mem_map.mp ((h.written_isPrefix x.1).subset hxw)
  have hxt : s.tidOf x.1 = some e.tid := by
    rw [h.times.tid x.1 d hd]
    rw [← hdx] at htid
    exact congrArg some htid
  have hrt : s.tidOf r = some e.tid := h.times.tid r e hmem
  rcases Nat.lt_trichotomy (s.seq x.1) (s.seq r) with hlt | heq | hgt
  · rw [← hdx]
    exact h.times.older x.1 r ⟨h.seq_ne_zero hd, hlt, e.tid, hxt, hrt⟩ d hd e hmem
  · -- an event of the same ring, written before
    have hr : x.1 = r := h.tids.seq_inj x.1 r (h.seq_ne_zero hd) heq
    rw [hr, hpre] at hxw
    obtain ⟨d', hd', hdx'⟩ := List.mem_map.mp hxw
    have hsorted := h.times.sorted r
    rw [hcom] at hsorted
    rw [← hdx']
    exact (List.pairwise_append.mp hsorted).2.2 d' hd' e List.mem_cons_self
  · -- the newer ring has an event in the trace, so the older one has none left
    have hall := h.written.older r x.1 ⟨h.seq_ne_zero hmem, hgt, e.tid, hrt, hxt⟩
      (List.ne_nil_of_mem hxw)
    exact absurd hall (h.written_ne hscan)

theorem Inv.written_write (h : s.Inv) (hs : Same s s')
    (hscan : s.pipe.stage.scan? = some (.process prev r work (.write out)))
    (htrace : s'.pipe.trace = s.pipe.trace ++ [(r, out)])
    (hno : ∀ r', s.Older r' r → s.pipe.written r' = (s.pipe.committed r').map LogEvent.record) :
    s'.Written where
  older r₁ r₂ ho hne := by
    rw [hs.older_iff] at ho
    rw [Pipeline.written_of_trace htrace] at hne ⊢
    rw [hs.committed]
    have hall : s.pipe.written r₁ = (s.pipe.committed r₁).map LogEvent.record := by
      by_cases hr : r = r₂
      · exact hno r₁ (hr ▸ ho)
      · rw [if_neg hr, List.append_nil] at hne
        exact h.written.older r₁ r₂ ho hne
    by_cases hr : r = r₁
    · exact absurd hall (hr ▸ h.written_ne hscan)
    · rw [if_neg hr, List.append_nil]
      exact hall
  sorted := by
    rw [htrace, Sorted, List.pairwise_append]
    refine ⟨h.written.sorted, List.pairwise_singleton _ _, fun x hx y hy htid ↦ ?_⟩
    cases List.mem_singleton.mp hy
    exact h.le_out hscan hx htid

end Write

/-! ## A thread moves -/

section Move

theorem Move.sameTid_iff (hm : Move s s' t) : s'.SameTid r' r ↔ s.SameTid r' r := by
  rw [SameTid, SameTid, hm.tidOf]

/-- A thread that moves is not older than another one of its id. -/
theorem Inv.ne_of_older (h : s.Inv) (hm : Move s s' t) (ho : s.Older r' r) : r' ≠ t := by
  rintro rfl
  exact hm.live (h.tids.exited r' r ho)

/-- The pairs of rings with the same id: they are those that there were, or the newer ring has just
been registered. -/
theorem Inv.older_of_move (h : s.Inv) (hm : Move s s' t) (ho : s'.Older r' r) :
    r' ≠ t ∧ (s.Older r' r ∨
      r = t ∧ s.seq r' ≠ 0 ∧ s.SameTid r' t ∧ s.pipe.committed t = []) := by
  obtain ⟨hne, hlt, htid⟩ := ho
  rw [hm.sameTid_iff] at htid
  rcases hm.seq with ⟨hseq, -, -⟩ | ⟨hseq, -, hreg, -, -⟩
  · rw [hseq] at hne hlt
    have ho : s.Older r' r := ⟨hne, hlt, htid⟩
    exact ⟨h.ne_of_older hm ho, .inl ho⟩
  · have hr' : r' ≠ t := by
      rintro rfl
      have hle := h.tids.seq_le r
      by_cases hr : r = r'
      · rw [hr] at hlt
        exact Nat.lt_irrefl _ hlt
      · rw [hseq, Function.update_self, Function.update_of_ne hr] at hlt
        omega
    rw [hseq, Function.update_of_ne hr'] at hne hlt
    refine ⟨hr', ?_⟩
    by_cases hr : r = t
    · exact .inr ⟨hr, hne, hr ▸ htid, h.committed_eq_nil hreg⟩
    · rw [Function.update_of_ne hr] at hlt
      exact .inl ⟨hne, hlt, htid⟩

theorem Inv.tids_move (h : s.Inv) (hm : Move s s' t) : s'.Tids where
  holder r tid hr hpc := by
    rw [hm.tidOf] at hr
    by_cases he : r = t
    · subst he
      rcases hm.holder tid r (h.tids.holder r tid hr hm.live) with ho | ⟨-, hex⟩
      · exact ho
      · exact absurd hex hpc
    · rw [hm.threads r he] at hpc
      rcases hm.holder tid r (h.tids.holder r tid hr hpc) with ho | ⟨ht, -⟩
      · exact ho
      · exact absurd (h.tids.eq_of_sameTid ⟨tid, hr, ht⟩ hpc hm.live) he
  event r e he := by
    rw [hm.tidOf]
    by_cases hr : r = t
    · subst hr
      exact hm.event e he
    · rw [hm.threads r hr] at he
      exact h.tids.event r e he
  seq r := by
    by_cases hr : r = t
    · subst hr
      rcases hm.seq with ⟨hseq, -, hreg⟩ | ⟨hseq, -, -, hreg, -⟩
      · rw [hseq, hreg]
        exact h.tids.seq r
      · rw [hseq, Function.update_self]
        exact ⟨fun _ ↦ hreg, fun _ ↦ Nat.succ_ne_zero _⟩
    · rw [hm.threads r hr]
      rcases hm.seq with ⟨hseq, -⟩ | ⟨hseq, -⟩
      · rw [hseq]
        exact h.tids.seq r
      · rw [hseq, Function.update_of_ne hr]
        exact h.tids.seq r
  started r hr := by
    rw [hm.tidOf]
    rcases hm.seq with ⟨hseq, -⟩ | ⟨hseq, -, -, -, hev⟩
    · rw [hseq] at hr
      exact h.tids.started r hr
    · by_cases he : r = t
      · obtain ⟨e, hev⟩ := Option.isSome_iff_exists.mp hev
        rw [he, h.tids.event t e hev]
        exact nofun
      · rw [hseq, Function.update_of_ne he] at hr
        exact h.tids.started r hr
  seq_le r := by
    have hle := h.tids.seq_le r
    rcases hm.seq with ⟨hseq, hcount, -⟩ | ⟨hseq, hcount, -⟩
    · rw [hseq, hcount]
      exact hle
    · rw [hseq, hcount]
      by_cases hr : r = t
      · rw [hr, Function.update_self]
      · rw [Function.update_of_ne hr]
        omega
  seq_inj r r' hne heq := by
    rcases hm.seq with ⟨hseq, -⟩ | ⟨hseq, -⟩
    · rw [hseq] at hne heq
      exact h.tids.seq_inj r r' hne heq
    · have hle := h.tids.seq_le r
      have hle' := h.tids.seq_le r'
      rw [hseq] at hne heq
      by_cases hr : r = t <;> by_cases hr' : r' = t
      · rw [hr, hr']
      · rw [hr, Function.update_self, Function.update_of_ne hr'] at heq
        omega
      · rw [hr', Function.update_self, Function.update_of_ne hr] at heq
        omega
      · rw [Function.update_of_ne hr] at hne heq
        rw [Function.update_of_ne hr'] at heq
        exact h.tids.seq_inj r r' hne heq
  exited r' r ho := by
    obtain ⟨hr', ho | ⟨-, -, htid, -⟩⟩ := h.older_of_move hm ho
    · rw [hm.threads r' hr']
      exact h.tids.exited r' r ho
    · rw [hm.threads r' hr']
      by_contra hpc
      exact hr' (h.tids.eq_of_sameTid htid hpc hm.live)

/-- An event of thread `t` after the step was committed before, or its time was taken before. -/
theorem Move.mem_committed (hm : Move s s' t) {d : LogEvent} (hd : d ∈ s'.pipe.committed t) :
    d ∈ s.pipe.committed t ∨
      (s.pipe.threads t).pc.stamped? = some d ∧ (s'.pipe.threads t).pc.stamped? = none := by
  rcases hm.commits with hsame | ⟨e, he, hnone, hcom⟩
  · rw [hsame] at hd
    exact .inl hd
  · rw [hcom] at hd
    rcases List.mem_append.mp hd with hd | hd
    · exact .inl hd
    · cases List.mem_singleton.mp hd
      exact .inr ⟨he, hnone⟩

theorem Inv.times_move (h : s.Inv) (hm : Move s s' t) : s'.Times := by
  have hnow (r : RingId) (d : LogEvent) (hd : d ∈ s'.pipe.committed r) : d.tsNs ≤ s'.now := by
    refine UInt64.le_trans ?_ hm.now
    by_cases hr : r = t
    · subst hr
      rcases hm.mem_committed hd with hd | ⟨hd, -⟩
      · exact h.times.now r d hd
      · exact (h.times.stamped r d hd).1
    · rw [hm.committed r hr] at hd
      exact h.times.now r d hd
  refine
    { tid := fun r d hd ↦ ?_
      now := hnow
      stamped := fun r e he ↦ ?_
      sorted := fun r ↦ ?_
      older := fun r' r ho d hd e he ↦ ?_ }
  · rw [hm.tidOf]
    by_cases hr : r = t
    · subst hr
      rcases hm.mem_committed hd with hd | ⟨hd, -⟩
      · exact h.times.tid r d hd
      · exact h.tids.event r d (ThreadPc.event?_of_stamped? hd)
    · rw [hm.committed r hr] at hd
      exact h.times.tid r d hd
  · -- the time of an event is not before those of the events of its id
    by_cases hr : r = t
    · subst hr
      rcases hm.stamped e he with hold | hnew
      · obtain ⟨hle, hsame⟩ := h.times.stamped r e hold
        refine ⟨UInt64.le_trans hle hm.now, fun r' htid d hd ↦ ?_⟩
        rw [hm.sameTid_iff] at htid
        by_cases hr' : r' = r
        · subst hr'
          rcases hm.mem_committed hd with hd | ⟨-, hnone⟩
          · exact hsame r' htid d hd
          · cases hnone.symm.trans he
        · rw [hm.committed r' hr'] at hd
          exact hsame r' htid d hd
      · rw [hnew]
        exact ⟨UInt64.le_refl _, fun r' _ d hd ↦ hnow r' d hd⟩
    · rw [hm.threads r hr] at he
      obtain ⟨hle, hsame⟩ := h.times.stamped r e he
      refine ⟨UInt64.le_trans hle hm.now, fun r' htid d hd ↦ ?_⟩
      rw [hm.sameTid_iff] at htid
      have hr' : r' ≠ t := by
        rintro rfl
        exact hr (h.tids.eq_of_sameTid htid hm.live (not_exited_of_stamped he)).symm
      rw [hm.committed r' hr'] at hd
      exact hsame r' htid d hd
  · by_cases hr : r = t
    · subst hr
      rcases hm.commits with hsame | ⟨e, he, -, hcom⟩
      · rw [hsame]
        exact h.times.sorted r
      · have htid := h.tids.event r e (ThreadPc.event?_of_stamped? he)
        rw [hcom, List.pairwise_append]
        refine ⟨h.times.sorted r, List.pairwise_singleton _ _, fun d hd e' he' ↦ ?_⟩
        cases List.mem_singleton.mp he'
        exact (h.times.stamped r e he).2 r ⟨e.tid, htid, htid⟩ d hd
    · rw [hm.committed r hr]
      exact h.times.sorted r
  · obtain ⟨hr', ho⟩ := h.older_of_move hm ho
    rw [hm.committed r' hr'] at hd
    have htid : s.SameTid r' r := by
      rcases ho with ho | ⟨rfl, -, htid, -⟩
      · exact ho.2.2
      · exact htid
    have hold (he : e ∈ s.pipe.committed r) : d.tsNs ≤ e.tsNs := by
      rcases ho with ho | ⟨rfl, -, -, hnil⟩
      · exact h.times.older r' r ho d hd e he
      · rw [hnil] at he
        cases he
    by_cases hr : r = t
    · subst hr
      rcases hm.mem_committed he with he | ⟨he, -⟩
      · exact hold he
      · exact (h.times.stamped r e he).2 r' htid d hd
    · rw [hm.committed r hr] at he
      exact hold he

theorem Inv.written_move (h : s.Inv) (hm : Move s s' t) : s'.Written := by
  have hwritten (r : RingId) : s'.pipe.written r = s.pipe.written r := by
    rw [Pipeline.written, Pipeline.written, hm.trace]
  refine ⟨fun r' r ho hne ↦ ?_, by rw [hm.trace]; exact h.written.sorted⟩
  obtain ⟨hr', ho⟩ := h.older_of_move hm ho
  rw [hwritten] at hne
  rw [hwritten, hm.committed r' hr']
  rcases ho with ho | ⟨rfl, -, -, hnil⟩
  · exact h.written.older r' r ho hne
  · have hpre := h.written_isPrefix r
    rw [hnil] at hpre
    exact absurd (List.prefix_nil.mp hpre) hne

end Move

/-! ## Runs -/

section Runs

variable {ringBytes : UInt64} {memory : RingId → Nat → UInt8}

theorem init_inv : (init ringBytes memory).Inv where
  pipe := ⟨_, _, _, Pipeline.init_inv⟩
  tids :=
    { holder := nofun
      event := nofun
      seq := fun _ ↦ ⟨fun h ↦ absurd rfl h, nofun⟩
      started := fun _ h ↦ absurd rfl h
      seq_le := fun _ ↦ Nat.le_refl 0
      seq_inj := fun _ _ h ↦ absurd rfl h
      exited := fun _ _ h ↦ absurd rfl h.1 }
  times :=
    { tid := nofun
      now := nofun
      stamped := nofun
      sorted := fun _ ↦ .nil
      older := nofun }
  written := ⟨fun _ _ h ↦ absurd rfl h.1, .nil⟩

/-- A step keeps the invariant of the pipeline. -/
theorem pipe_step (h : ∃ vs pend l, s.pipe.Inv vs pend l) (hcap : ∃ k, ringBytes.toNat = 2 ^ k)
    {a : TimedAction} (hs : s.step ringBytes memory a = some s') :
    ∃ vs pend l, s'.pipe.Inv vs pend l := by
  obtain ⟨vs, pend, l, hp⟩ := h
  cases a with
  | start t tid =>
      rw [step] at hs
      split at hs <;> cases hs
      exact ⟨vs, pend, l, hp⟩
  | act now a =>
      rw [step] at hs
      split at hs
      · obtain ⟨p, hstep, rfl⟩ := Option.map_eq_some_iff.mp hs
        exact hp.step hcap hstep
      · cases hs

/-- Every step in which no event overtakes another preserves the invariant. -/
theorem Inv.step (h : s.Inv) (hcap : ∃ k, ringBytes.toNat = 2 ^ k) {a : TimedAction}
    (hno : ¬ s.Overtakes a) (hs : s.step ringBytes memory a = some s') : s'.Inv := by
  have hpipe := pipe_step h.pipe hcap hs
  obtain ⟨vs, pend, l, hp⟩ := h.pipe
  obtain ⟨t, tid, ht, htid, rfl⟩ | ⟨hsame, htrace⟩ |
    ⟨now, i, prev, r, work, out, rfl, hscan, hsame, htrace⟩ | ⟨t, hm⟩ :=
      step_cases hp h.tids.event hs
  · exact h.start ht htid
  · have hwritten (r : RingId) : s'.pipe.written r = s.pipe.written r := by
      rw [Pipeline.written, Pipeline.written, htrace]
    refine ⟨hpipe, h.tids.same hsame, h.times.same hsame, fun r' r ho ↦ ?_, ?_⟩
    · rw [hwritten, hwritten, hsame.committed]
      exact h.written.older r' r (hsame.older_iff.mp ho)
    · rw [htrace]
      exact h.written.sorted
  · refine ⟨hpipe, h.tids.same hsame, h.times.same hsame,
      h.written_write hsame hscan htrace fun r' ho ↦ ?_⟩
    by_contra hne
    exact hno ⟨now, i, prev, r, work, out, rfl, hscan, r', ho, hne⟩
  · exact ⟨hpipe, h.tids_move hm, h.times_move hm, h.written_move hm⟩

end Runs

end Timed

open Timed

/-- **The events of one thread id are in the trace in the order of their times** in every run in
which the backend writes no event of a ring while a ring of the same id that was registered before
still holds one. -/
theorem sorted_of_not_overtakes (ringBytes : UInt64) (memory : RingId → Nat → UInt8)
    (hcap : ∃ k, ringBytes.toNat = 2 ^ k) (as : List TimedAction) (s : Timed)
    (hs : Run.run (Timed.step ringBytes memory) (Timed.init ringBytes memory) as = some s)
    (hno : ¬ Run.Took (Timed.step ringBytes memory) Overtakes (Timed.init ringBytes memory) as) :
    s.pipe.trace.Pairwise fun x y ↦
      x.2.hdr.tid = y.2.hdr.tid → x.2.hdr.tsNs ≤ y.2.hdr.tsNs :=
  (Run.run_inv_of_not_took (I := Timed.Inv) (fun _ _ _ h hno hs ↦ h.step hcap hno hs) init_inv hs
    hno).written.sorted

/-- Actions that happen at one time. -/
def atTime (now : UInt64) (as : List Pipeline.Action) : List TimedAction := as.map (.act now)

/-- The backend is about to write an event of a ring that is neither the one that was registered
first, nor the second one when everything of ring `1`, the first one, has been written. -/
def Timed.writesEarly (s : Timed) : Bool :=
  match s.pipe.stage.scan? with
  | some (.process _ r _ (.write _)) => 1 < s.seq r ∧
      ¬ (s.seq r = 2 ∧ s.seq 1 = 1 ∧ s.pipe.written 1 = (s.pipe.committed 1).map LogEvent.record)
  | _ => false

theorem Timed.Inv.writesEarly_of_overtakes {s : Timed} {a : TimedAction} (h : s.Inv)
    (ho : s.Overtakes a) : s.writesEarly = true := by
  obtain ⟨now, i, prev, r, work, out, rfl, hscan, r', ⟨hne, hlt, -⟩, hwritten⟩ := ho
  rw [Timed.writesEarly, hscan]
  refine decide_eq_true ⟨by omega, ?_⟩
  rintro ⟨hr, hone, hall⟩
  obtain rfl : r' = 1 := h.tids.seq_inj r' 1 hne (by omega)
  exact hwritten hall

/-- A thread with id `7` logs two events and exits, and the events are written.  A new thread gets
the id and logs an event, and this is written as well. -/
def reusedTid : List TimedAction :=
  .start 1 7 :: atTime 1 (logs 1 50 (mutexEvent 1 7 10 .lockPost)) ++
    atTime 2 (logs 1 45 (mutexEvent 2 7 10 .unlock) ++ [.exit 1] ++
      List.replicate 3 (.backend 0) ++ .backend 2 :: List.replicate 21 (.backend 0)) ++
    .start 2 7 :: atTime 3 (logs 2 50 (mutexEvent 3 7 10 .lockPost) ++
      List.replicate 4 (.backend 0) ++ .backend 1 :: List.replicate 5 (.backend 0))

theorem sorted_of_not_overtakes_reusedTid : ∃ s : Timed,
    Run.run (Timed.step 256 fun _ _ ↦ 0) (Timed.init 256 fun _ _ ↦ 0) reusedTid = some s ∧
    s.pipe.trace.map (fun x ↦ (x.1, x.2.hdr.tid, x.2.hdr.tsNs)) =
      [(1, 7, 1), (1, 7, 2), (2, 7, 3)] ∧
    s.pipe.trace.Pairwise fun x y ↦
      x.2.hdr.tid = y.2.hdr.tid → x.2.hdr.tsNs ≤ y.2.hdr.tsNs := by
  have hrun : (Run.run (Timed.step 256 fun _ _ ↦ 0) (Timed.init 256 fun _ _ ↦ 0) reusedTid).any
      (fun s ↦ s.pipe.trace.map (fun x ↦ (x.1, x.2.hdr.tid, x.2.hdr.tsNs)) =
        [(1, 7, 1), (1, 7, 2), (2, 7, 3)]) = true := by decide +kernel
  obtain ⟨s, hs, htrace⟩ := (Option.any_eq_true _ _).mp hrun
  refine ⟨s, hs, of_decide_eq_true htrace,
    sorted_of_not_overtakes 256 (fun _ _ ↦ 0) ⟨8, rfl⟩ reusedTid s hs ?_⟩
  exact Run.not_took_of_avoids (I := Timed.Inv) (b := fun s _ ↦ s.writesEarly)
    (fun _ _ _ h hno hs ↦ h.step ⟨8, rfl⟩ hno hs) (fun _ _ h ho ↦ h.writesEarly_of_overtakes ho)
    init_inv (by decide +kernel)

/-- A thread with id `7` logs an event and exits, and a new thread with this id registers its ring
before the event is written. -/
def overtaking : List TimedAction :=
  .start 1 7 :: atTime 1 (logs 1 50 (mutexEvent 1 7 10 .lockPost) ++ [.exit 1]) ++
    .start 2 7 :: atTime 2 (logs 2 50 (mutexEvent 2 7 10 .lockPost)) ++ atTime 3 (scanTwo 1 1)

/-- The event of the new thread is written first. -/
theorem not_sorted : ¬ ∀ (ringBytes : UInt64) (memory : RingId → Nat → UInt8),
    (∃ k, ringBytes.toNat = 2 ^ k) → ∀ (as : List TimedAction) (s : Timed),
      Run.run (Timed.step ringBytes memory) (Timed.init ringBytes memory) as = some s →
        s.pipe.trace.Pairwise fun x y ↦
          x.2.hdr.tid = y.2.hdr.tid → x.2.hdr.tsNs ≤ y.2.hdr.tsNs := by
  intro h
  have hrun : (Run.run (Timed.step 256 fun _ _ ↦ 0) (Timed.init 256 fun _ _ ↦ 0) overtaking).any
      (fun s ↦ ¬ s.pipe.trace.Pairwise fun x y ↦
        x.2.hdr.tid = y.2.hdr.tid → x.2.hdr.tsNs ≤ y.2.hdr.tsNs) = true := by decide +kernel
  obtain ⟨s, hs, htrace⟩ := (Option.any_eq_true _ _).mp hrun
  exact of_decide_eq_true htrace (h 256 (fun _ _ ↦ 0) ⟨8, rfl⟩ overtaking s hs)

end DeadLockDetect.Runtime
