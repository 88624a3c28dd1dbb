import DeadLockDetect.Runtime.Shutdown

/-!
# Room for what `reserve` has granted

`reserve` publishes the padding before it looks at `tail_` a second time.  It has found room for the
padding and the event by then, and `tail_` only moves on; so the second look never turns the call
away (`Granted.writeTag`).  What was granted stays granted, whatever the scanner and the other
threads do (`Inv.granted_step`).
-/

namespace DeadLockDetect.Runtime

open Pipeline

/-! ## The producer -/

/-- Everything that was published is consumed. -/
def ThreadRing.Drained (r : ThreadRing) : Prop := r.head.latest = r.tail.latest

namespace Producer

variable {r r' : ThreadRing} {v : Virtual} {payload : List UInt8} {p p' : Producer} {i : Nat}

/-- Where `reserve` has found room for the padding and the event, there is room for what it still
has to publish. -/
def Granted (r : ThreadRing) (payload : List UInt8) (p : Producer) : Prop :=
  match p with
  | .pad .. | .storePad _ | .reloadTail _ => p.Called r r payload
  | _ => True

theorem Granted.called (h : p.Granted r payload) (hres : p.reserving = true) :
    p.Called r r payload := by
  cases p with
  | idle | fill | publish => cases hres
  | loadTail c => exact ⟨rfl, rfl⟩
  | pad | storePad | reloadTail => exact h
  | writeTag off => trivial

/-- What a call of `reserve` knows includes it. -/
theorem Called.granted {r₀ : ThreadRing} (h : p.Called r₀ r payload) : p.Granted r payload := by
  cases p with
  | pad | storePad | reloadTail => exact h
  | _ => trivial

theorem Granted.sameView (h : p.Granted r payload) (hv : r.SameView r') :
    p.Granted r' payload := by
  cases p with
  | pad | storePad | reloadTail => exact ((h.called rfl).sameView hv).granted
  | _ => trivial

theorem Granted.step (hg : p.Granted r payload) (h : r.Inv v) (hp : p.Inv r v payload)
    (hlen : payload.length < 2 ^ 63) (hs : p.step r payload i = some (r', p')) :
    p'.Granted r' payload := by
  cases hres : p.reserving with
  | true => exact ((hg.called hres).step h hp hlen hres hs).granted
  | false =>
      cases p with
      | idle | publish c =>
          cases hs
          trivial
      | fill off j =>
          rw [Producer.step] at hs
          split at hs <;> cases hs <;> trivial
      | _ => cases hres

/-- Behind the padding the second look at `tail_` never finds less room than the first. -/
theorem Granted.writeTag {c : UInt64} (hg : (reloadTail c).Granted r payload) (h : r.Inv v)
    (hp : (reloadTail c).Inv r v payload) (hlen : payload.length < 2 ^ 63)
    (hs : (reloadTail c).step r payload i = some (r', p')) : p' = .writeTag 0 := by
  obtain ⟨r₁, hl, he⟩ := Option.map_eq_some_iff.mp hs
  cases he
  obtain ⟨t, rfl, hi, ht, hle⟩ := h.loadTail hl
  obtain rfl : c = r.head.latest := hp.1.trans h.head_latest_eq.symm
  have hg : r.used + (1 + payload.length) ≤ r.capacity.toNat := hg
  have hseen := hi.tail_mono.seen_le_latest
  have hused := hi.used_eq
  rw [h.used_eq] at hg
  have hplace : place { r with tail := t.map UInt64.ofNat } payload r.head.latest 0 = _ :=
    place_eq hi hlen 0
  rw [hplace, if_neg]
  rw [hused]
  dsimp only at hseen ht ⊢
  omega

/-- On a drained ring, `reserve` does not give up after an up-to-date look at `tail_`. -/
theorem ne_idle_of_drained {c : UInt64} (h : r.Inv v) (hp : (loadTail c).Inv r v payload)
    (hlen : payload.length < 2 ^ 63) (hd : r.Drained)
    (hroom : 2 * (1 + payload.length) - 1 ≤ r.capacity.toNat)
    (hs : (loadTail c).step r payload r.tail.unseen.length = some (r', p')) : p' ≠ .idle := by
  obtain ⟨r₁, hl, he⟩ := Option.map_eq_some_iff.mp hs
  cases he
  obtain ⟨d, hd', rfl⟩ := Option.map_eq_some_iff.mp hl
  rw [Cell.load_unseen_length] at hd'
  cases hd'
  obtain ⟨t, -, hi, -⟩ := h.loadTail hl
  obtain rfl : c = r.head.latest := hp.trans h.head_latest_eq.symm
  have hused : ThreadRing.used { r with tail := r.tail.sync } = 0 := by
    show (r.head.latest - r.tail.latest).toNat = 0
    rw [show r.head.latest = r.tail.latest from hd, UInt64.sub_self]
    rfl
  have hfits := demand_le hroom hi.offset_lt
  have hplan : plan { r with tail := r.tail.sync } payload r.head.latest = _ := plan_eq hi hlen
  rw [hplan, hused, if_neg (by rw [Nat.zero_add]; exact Nat.not_lt.mpr hfits)]
  split <;> intro he <;> cases he

end Producer

/-! ## Room for what was granted -/

namespace Pipeline

variable {s s' s₁ : Pipeline} {vs : RingId → Virtual} {pend : RingId → List LogEvent}
  {l : List RingId} {ringBytes : UInt64} {memory : RingId → Nat → UInt8} {t r : RingId} {i : Nat}
  {sc sc' : Scan} {a : Action}

/-- What every producer was granted is still there. -/
def Granted (s : Pipeline) : Prop :=
  ∀ t e p, (s.threads t).pc = .produce e p → p.Granted (s.rings t) e.encode

/-- A step that no producer sees. -/
theorem Granted.mono (h : s.Granted) (hview : ∀ r, (s.rings r).SameView (s'.rings r))
    (hth : ∀ r e p, (s'.threads r).pc = .produce e p →
      (s.threads r).pc = .produce e p ∨ p = .idle) : s'.Granted := by
  intro r e p hpc
  rcases hth r e p hpc with hpc | rfl
  · exact (h r e p hpc).sameView (hview r)
  · trivial

/-- What the producer of a thread knows. -/
theorem Inv.producer {e : LogEvent} {p : Producer} (h : s.Inv vs pend l)
    (hpc : (s.threads t).pc = .produce e p) :
    (s.rings t).Inv (vs t) ∧ p.Inv (s.rings t) (vs t) e.encode := by
  have hinv := (h.lane t).pc
  rw [Thread.Inv, show (s.lane t).thread.pc = .produce e p from hpc] at hinv
  exact ⟨(h.lane t).ring hinv.1, hinv.2⟩

theorem Inv.granted_threadStep (h : s.Inv vs pend l) (hg : s.Granted)
    (hs : s.threadStep ringBytes memory t i = some s') : s'.Granted := by
  intro r e p hpc
  by_cases hr : r = t
  · subst hr
    unfold Pipeline.threadStep at hs
    split at hs
    case h_1 | h_2 => cases hs
    case h_4 =>
      split at hs <;> cases hs
      simp [setPc] at hpc
    case h_7 =>
      cases hs
      obtain ⟨rfl, rfl⟩ : _ = e ∧ Producer.idle = p := by simpa [setPc] using hpc
      trivial
    case h_8 e' p' hpc' =>
      obtain ⟨⟨ring, q⟩, hp, rfl⟩ := Option.map_eq_some_iff.mp hs
      split at hpc
      · simp [setPc] at hpc
      · rename_i hc
        obtain ⟨rfl, rfl⟩ : e' = e ∧ q = p := by simpa [setPc, setRing] using hpc
        obtain ⟨hring, hinv⟩ := h.producer hpc'
        rw [if_neg hc]
        show q.Granted (Function.update s.rings r ring r) e'.encode
        rw [Function.update_self]
        exact (hg r e' p' hpc').step hring hinv e'.length_encode_lt hp
    all_goals
      cases hs
      simp [setPc] at hpc
  · rw [threadStep_rings hs hr]
    rw [(threadStep_byThread hs).threads r hr] at hpc
    exact hg r e p hpc

/-- What was granted is granted, whatever the others do. -/
theorem Inv.granted_step (h : s.Inv vs pend l) (hg : s.Granted)
    (hs : s.step ringBytes memory a = some s') : s'.Granted := by
  have view (r : RingId) : (s.rings r).SameView (s.rings r) := .refl _
  have setPc {t : RingId} {pc : ThreadPc} (hpc : ∀ e p, pc = .produce e p → p = .idle)
      (r : RingId) (e : LogEvent) (p : Producer)
      (hr : ((s.setPc t pc).threads r).pc = .produce e p) :
      (s.threads r).pc = .produce e p ∨ p = .idle := by
    by_cases hrt : r = t
    · subst hrt
      rw [threads_setPc_self] at hr
      exact Or.inr (hpc e p hr)
    · rw [threads_setPc_of_ne s hrt] at hr
      exact Or.inl hr
  cases stepped_of_step hs with
  | @call t e hpc hlog =>
      refine hg.mono view (setPc fun e' p he ↦ ?_)
      split at he <;> cases he
      rfl
  | ignored | disable | requestShutdown => exact hg
  | thread hs => exact h.granted_threadStep hg hs
  | noMemory hpc => exact hg.mono view (setPc fun _ _ he ↦ by cases he)
  | @exit t hpc =>
      refine hg.mono view fun r e p hr ↦ setPc (fun _ _ he ↦ ?_) r e p hr
      cases he
  | join => exact hg.mono (fun r ↦ ⟨rfl, rfl, rfl, rfl⟩) fun _ _ _ hpc ↦ Or.inl hpc
  | backend hs =>
      refine hg.mono (sameView_backendStep hs) fun r e p hpc ↦ Or.inl ?_
      rw [(backendStep_untouched hs).threads] at hpc
      exact hpc

end Pipeline

end DeadLockDetect.Runtime
