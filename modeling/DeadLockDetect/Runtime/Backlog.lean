import Mathlib.Algebra.Order.BigOperators.Group.Finset
import DeadLockDetect.Runtime.Pipeline
import DeadLockDetect.Runtime.Reserve

/-!
# What the backend may still have to read

`backlog` bounds the bytes that the backend may still read from the ring of a thread, when the log
is disabled: those that are unread, and a capacity for each time that the thread may still publish
something.  A thread inside `log_event` publishes its event and, before it, the padding up to the
end of the buffer; after the padding it stands at the start of the buffer and needs no more of it.

No step of a thread increases the backlog, and the backend decreases it whenever it consumes.
-/

namespace DeadLockDetect.Runtime

/-! ## The producer -/

namespace Producer

variable {r r' : ThreadRing} {v : Virtual} {payload : List UInt8} {p p' : Producer} {i : Nat}

/-- How often the producer may still store `head_` for its event. -/
def publications (r : ThreadRing) : Producer → Nat
  | .idle | .loadTail _ => if r.offset = 0 then 1 else 2
  | .pad .. | .storePad _ => 2
  | _ => 1

theorem publications_le (r : ThreadRing) (p : Producer) : p.publications r ≤ 2 := by
  cases p with
  | idle | loadTail c =>
      rw [publications]
      split <;> omega
  | pad | storePad => exact le_rfl
  | _ => exact Nat.le_succ 1

/-- At the start of the buffer there is no padding. -/
theorem publications_plan (h : r.Inv v) (hlen : payload.length < 2 ^ 63) :
    (plan r payload r.head.latest).publications r ≤ if r.offset = 0 then 1 else 2 := by
  rw [plan_eq h hlen]
  split
  · exact le_rfl
  · rename_i hle
    split
    · rename_i hpad
      rw [demand, if_pos hpad] at hle
      have hoff : r.offset ≠ 0 := by omega
      rw [if_neg hoff]
      exact le_rfl
    · show 1 ≤ _
      split <;> omega

theorem unread_le (h : r.Inv v) : r.unread ≤ r.capacity.toNat := by
  have hle := h.head_le
  have hend := h.end_eq
  rw [ThreadRing.unread, h.toNat_head_sub_tail]
  omega

/-- What the consumer may still have to read of the event of a producer. -/
def backlog (r : ThreadRing) (p : Producer) : Nat :=
  r.unread + r.capacity.toNat * p.publications r

/-- A step of the producer does not increase it: what is published was expected. -/
theorem backlog_step (h : r.Inv v) (hp : p.Inv r v payload) (hlen : payload.length < 2 ^ 63)
    (hs : p.step r payload i = some (r', p')) :
    (if p.commits then r'.unread else backlog r' p') ≤ backlog r p := by
  have hcap := capacity_step hs
  obtain ⟨v', -, hi', -⟩ := step_inv h hp hlen hs
  have hfull := unread_le hi'
  rw [hcap] at hfull
  cases p with
  | idle =>
      cases hs
      exact le_rfl
  | loadTail c =>
      obtain ⟨r₁, hl, he⟩ := Option.map_eq_some_iff.mp hs
      obtain ⟨d, hd, rfl⟩ := Option.map_eq_some_iff.mp hl
      cases he
      obtain rfl : c = r.head.latest := hp.trans h.head_latest_eq.symm
      have hunread : ThreadRing.unread { r with tail := d } = r.unread := by
        rw [ThreadRing.unread, Cell.latest_load hd]
        rfl
      refine Nat.add_le_add hunread.le (Nat.mul_le_mul_left _ ?_)
      exact publications_plan (r := { r with tail := d }) hi' hlen
  | pad c off padNeed n =>
      rw [step] at hs
      split at hs <;> cases hs <;> exact le_rfl
  | storePad c =>
      cases hs
      show _ + r.capacity.toNat * 1 ≤ _ + r.capacity.toNat * 2
      omega
  | reloadTail c =>
      obtain ⟨r₁, hl, he⟩ := Option.map_eq_some_iff.mp hs
      obtain ⟨d, hd, rfl⟩ := Option.map_eq_some_iff.mp hl
      cases he
      have hunread : ThreadRing.unread { r with tail := d } = r.unread := by
        rw [ThreadRing.unread, Cell.latest_load hd]
        rfl
      have hoff : ThreadRing.offset { r with tail := d } = 0 := h.offset_eq.trans hp.2
      refine Nat.add_le_add hunread.le (Nat.mul_le_mul_left _ ?_)
      rw [place]
      split
      · rw [publications, if_pos hoff]
        exact le_rfl
      · exact le_rfl
  | writeTag off =>
      cases hs
      exact le_rfl
  | fill off n =>
      rw [step] at hs
      split at hs <;> cases hs <;> exact le_rfl
  | publish c =>
      show r'.unread ≤ r.unread + r.capacity.toNat * 1
      omega

end Producer

/-! ## The threads -/

/-- How often a thread may still publish something. -/
def Thread.publications (x : Thread) (r : ThreadRing) : Nat :=
  match x.pc with
  | .idle | .exited => 0
  | .produce _ p => p.publications r
  | _ => 2

theorem Thread.publications_le (x : Thread) (r : ThreadRing) : x.publications r ≤ 2 := by
  unfold Thread.publications
  split
  case h_1 | h_2 => exact Nat.zero_le 2
  case h_3 p _ => exact p.publications_le r
  case h_4 => exact le_rfl

namespace Pipeline

variable {s s' : Pipeline} {vs : RingId → Virtual} {pend : RingId → List LogEvent}
  {l : List RingId} {ringBytes : UInt64} {memory : RingId → Nat → UInt8} {t r : RingId} {i : Nat}

/-- The bytes that the backend may still have to read from the ring of a thread. -/
def backlog (s : Pipeline) (ringBytes : UInt64) (t : RingId) : Nat :=
  (if (s.threads t).hasRing then (s.rings t).unread else 0) +
    ringBytes.toNat * (s.threads t).publications (s.rings t)

/-- Every ring has the size that the configuration says. -/
def Sized (s : Pipeline) (ringBytes : UInt64) : Prop := ∀ t, (s.rings t).capacity = ringBytes

theorem backlog_congr (hth : s'.threads r = s.threads r) (hring : s'.rings r = s.rings r) :
    s'.backlog ringBytes r = s.backlog ringBytes r := by
  rw [backlog, backlog, hth, hring]

/-- A thread that is about to register its ring. -/
theorem backlog_setPc {pc : ThreadPc} (hring : s'.rings t = s.rings t)
    (hth : s'.threads t = { s.threads t with pc := pc })
    (hpub : Thread.publications { s.threads t with pc := pc } (s.rings t) ≤
      (s.threads t).publications (s.rings t)) :
    s'.backlog ringBytes t ≤ s.backlog ringBytes t := by
  rw [backlog, backlog, hth, hring]
  exact Nat.add_le_add_left (Nat.mul_le_mul_left _ hpub) _

theorem threadStep_rings (hs : s.threadStep ringBytes memory t i = some s') (hr : r ≠ t) :
    s'.rings r = s.rings r := by
  unfold threadStep at hs
  split at hs
  case h_1 | h_2 => cases hs
  case h_3 =>
    cases hs
    exact Function.update_of_ne hr _ _
  case h_4 =>
    split at hs <;> cases hs
    rfl
  case h_8 =>
    obtain ⟨x, -, rfl⟩ := Option.map_eq_some_iff.mp hs
    split <;> exact Function.update_of_ne hr _ _
  all_goals
    cases hs
    rfl

/-- No step of a thread changes the size of a ring. -/
theorem Sized.threadStep (hsize : s.Sized ringBytes)
    (hs : s.threadStep ringBytes memory t i = some s') : s'.Sized ringBytes := by
  intro r
  by_cases hr : r = t
  · subst hr
    unfold Pipeline.threadStep at hs
    split at hs
    case h_1 | h_2 => cases hs
    case h_3 =>
      cases hs
      show (Function.update s.rings r _ r).capacity = ringBytes
      rw [Function.update_self]
    case h_4 =>
      split at hs <;> cases hs
      exact hsize r
    case h_8 e p hpc =>
      obtain ⟨x, hp, rfl⟩ := Option.map_eq_some_iff.mp hs
      have hcap : x.1.capacity = ringBytes := (Producer.capacity_step hp).trans (hsize r)
      split
      all_goals
        show (Function.update s.rings r x.1 r).capacity = ringBytes
        rw [Function.update_self]
        exact hcap
    all_goals
      cases hs
      exact hsize r
  · rw [threadStep_rings hs hr]
    exact hsize r

/-- No step of a thread increases its backlog. -/
theorem Inv.threadStep_backlog (h : s.Inv vs pend l) (hsize : s.Sized ringBytes)
    (hs : s.threadStep ringBytes memory t i = some s') :
    s'.backlog ringBytes t ≤ s.backlog ringBytes t := by
  unfold Pipeline.threadStep at hs
  split at hs
  case h_1 | h_2 => cases hs
  case h_3 e hpc =>
    cases hs
    have hnew : ThreadRing.unread { capacity := ringBytes, buf := memory t } = 0 := by
      simp [ThreadRing.unread, Cell.latest]
    simp only [backlog, Function.update_self, if_true, hnew, Thread.publications, hpc]
    omega
  case h_4 e hpc =>
    split at hs
    · cases hs
      refine backlog_setPc rfl (threads_setPc_self s t _) ?_
      rw [Thread.publications, Thread.publications, hpc]
    · cases hs
  case h_5 e hpc | h_6 e hpc =>
    cases hs
    refine backlog_setPc rfl (threads_setPc_self s t _) ?_
    rw [Thread.publications, Thread.publications, hpc]
  case h_7 e hpc =>
    cases hs
    refine backlog_setPc rfl (threads_setPc_self s t _) ?_
    rw [Thread.publications, Thread.publications, hpc]
    show (if _ then 1 else 2) ≤ 2
    split <;> decide
  case h_8 e p hpc =>
    obtain ⟨⟨ring, p'⟩, hp, rfl⟩ := Option.map_eq_some_iff.mp hs
    have hinv := (h.lane t).pc
    rw [Thread.Inv, show (s.lane t).thread.pc = .produce e p from hpc] at hinv
    obtain ⟨hring, hpinv⟩ := hinv
    have hring : (s.threads t).hasRing = true := hring
    have hcap : ring.capacity = ringBytes := (Producer.capacity_step hp).trans (hsize t)
    have hstep : (if p.commits then ring.unread else Producer.backlog ring p') ≤
        Producer.backlog (s.rings t) p :=
      Producer.backlog_step ((h.lane t).ring hring) hpinv e.length_encode_lt hp
    rw [Producer.backlog, Producer.backlog, hcap, hsize t] at hstep
    split
    · rename_i hc
      rw [if_pos hc] at hstep
      simpa [backlog, setRing, setPc, hring, Thread.publications, hpc] using hstep
    · rename_i hc
      rw [if_neg hc] at hstep
      simpa [backlog, setRing, setPc, hring, Thread.publications, hpc] using hstep

end Pipeline

/-! ## The backend -/

namespace Process

variable {r r' : ThreadRing} {v : Virtual} {p p' : Process} {i : Nat} {drained : Prop}

/-- An event was consumed, and `scan_all_rings_once` does not know yet. -/
def worked : Process → Bool
  | .write _ | .done true => true
  | _ => false

/-- The steps that a call still takes if it consumes nothing. -/
def togo : Process → Nat
  | .skip => 9
  | .skipPad | .peek => 8
  | .header => 7
  | .shortHeader | .body _ => 6
  | .shortBody | .corrupt _ | .consume .. => 5
  | .write _ => 11
  | .done true => 10
  | .done false => 4

theorem togo_le (p : Process) : p.togo ≤ 11 := by
  cases p with
  | done res => cases res <;> decide
  | _ => simp [togo]

theorem le_togo (p : Process) : 4 ≤ p.togo := by
  cases p with
  | done res => cases res <;> decide
  | _ => simp [togo]

/-- A call changes nothing that the producer sees before its next load. -/
theorem sameView_step (hs : p.step r i = some (r', p')) : r.SameView r' := by
  have load {f : ThreadRing → Process}
      (hl : (r.loadHead i).map (fun x ↦ (x, f x)) = some (r', p')) : r.SameView r' := by
    obtain ⟨r₁, hl, he⟩ := Option.map_eq_some_iff.mp hl
    obtain ⟨d, hd, rfl⟩ := Option.map_eq_some_iff.mp hl
    cases he
    exact ⟨rfl, rfl, Cell.latest_load hd, rfl⟩
  cases p with
  | skip | peek | header | body hdr => exact load hs
  | skipPad | shortHeader | shortBody | corrupt hdr | consume hdr pcs =>
      cases hs
      exact ⟨rfl, rfl, rfl, rfl⟩
  | write out | done res => cases hs

theorem unread_loadHead (hl : r.loadHead i = some r') : r'.unread = r.unread := by
  obtain ⟨d, hd, rfl⟩ := Option.map_eq_some_iff.mp hl
  rw [ThreadRing.unread, Cell.latest_load hd]
  rfl

/-- A step of `process_one_event` consumes something, or it is one step closer to returning. -/
theorem step_progress (h : r.Inv v) (hp : p.Inv v drained) (hs : p.step r i = some (r', p')) :
    r'.unread < r.unread ∨ r'.unread = r.unread ∧ p'.togo < p.togo ∧ p'.worked = p.worked := by
  have hunread : r.unread = span v.segs := h.toNat_head_sub_tail
  cases p with
  | skip =>
      obtain ⟨r₁, hl, he⟩ := Option.map_eq_some_iff.mp hs
      cases he
      refine Or.inr ⟨unread_loadHead hl, ?_⟩
      split <;> exact ⟨by decide, rfl⟩
  | skipPad =>
      obtain ⟨hlt, rest, hrest⟩ := hp
      cases hs
      have hdrop : r.skipPadding.unread = span rest :=
        (h.skipPadding hrest hlt).toNat_head_sub_tail
      rw [hdrop, hunread, hrest, span_cons, Seg.size_skip]
      omega
  | peek =>
      obtain ⟨r₁, hl, he⟩ := Option.map_eq_some_iff.mp hs
      cases he
      refine Or.inr ⟨unread_loadHead hl, ?_⟩
      split
      · exact ⟨by decide, rfl⟩
      · split <;> exact ⟨by decide, rfl⟩
  | header =>
      obtain ⟨r₁, hl, he⟩ := Option.map_eq_some_iff.mp hs
      cases he
      refine Or.inr ⟨unread_loadHead hl, ?_⟩
      split
      · exact ⟨by decide, rfl⟩
      · exact ⟨Nat.lt_succ_self 6, rfl⟩
  | body hdr =>
      obtain ⟨r₁, hl, he⟩ := Option.map_eq_some_iff.mp hs
      cases he
      refine Or.inr ⟨unread_loadHead hl, ?_⟩
      split
      · exact ⟨Nat.lt_succ_self 5, rfl⟩
      · split <;> exact ⟨Nat.lt_succ_self 5, rfl⟩
  | consume hdr pcs =>
      obtain ⟨e, ⟨hlt, rest, hrest⟩, rfl, rfl⟩ := hp
      cases hs
      rw [e.payloadSize_hdr]
      have hdrop : (r.consumeEvent (UInt64.ofNat e.encode.length)).unread = span rest :=
        (h.consumeEvent hrest hlt).toNat_head_sub_tail
      rw [hdrop, hunread, hrest, span_cons, Seg.size_event]
      omega
  | shortHeader | shortBody | corrupt hdr => exact hp.elim
  | write out | done res => cases hs

end Process

end DeadLockDetect.Runtime
