import DeadLockDetect.Runtime.Granted

/-!
# Threads that have published nothing of their event

A thread is `quiet` as long as it has a ring and has published nothing of its event.  Its ring does
not change where the scanner looks at it (`ThreadRing.Still`), and once all that it published has
been seen, `process_one_event` leaves it only when it is drained (`Process.Empties`).
-/

namespace DeadLockDetect.Runtime

open Pipeline

/-! ## One call of `process_one_event` -/

/-- In a ring of which all values of `head_` have been seen, a load changes nothing. -/
theorem ThreadRing.eq_of_loadHead {r r' : ThreadRing} {i : Nat} (hu : r.head.unseen = [])
    (hl : r.loadHead i = some r') : r' = r := by
  obtain ⟨c, hc, rfl⟩ := Option.map_eq_some_iff.mp hl
  rw [Cell.eq_of_load hu hc]

theorem ThreadRing.drained_of_readable {r : ThreadRing} (hu : r.head.unseen = [])
    (hr : r.readable = 0) : r.Drained := by
  have hseen : r.head.seen = r.head.latest := by
    rw [Cell.latest, hu]
    rfl
  rw [ThreadRing.Drained, ← hseen, ← UInt64.sub_add_cancel r.head.seen r.tail.latest]
  rw [ThreadRing.readable] at hr
  rw [hr, UInt64.zero_add]

namespace Process

variable {r r' : ThreadRing} {v : Virtual} {pend : List LogEvent} {p p' : Process} {i : Nat}
  {drained : Prop}

/-- The call returns `false` only from a drained ring, if nothing more is published. -/
def Empties (r : ThreadRing) : Process → Prop
  | .peek => r.readable = 0 ∨ r.tagByte = kTagEvent
  | .done false => r.Drained
  | _ => True

/-- Nothing comes to be unseen in a call. -/
theorem unseen_step (hu : r.head.unseen = []) (hs : p.step r i = some (r', p')) :
    r'.head.unseen = [] := by
  have load {f : ThreadRing → Process}
      (hl : (r.loadHead i).map (fun x ↦ (x, f x)) = some (r', p')) : r'.head.unseen = [] := by
    obtain ⟨r₁, h₁, he⟩ := Option.map_eq_some_iff.mp hl
    cases he
    rw [ThreadRing.eq_of_loadHead hu h₁]
    exact hu
  cases p with
  | skip | peek | header | body hdr => exact load hs
  | skipPad | shortHeader | shortBody | corrupt hdr | consume hdr pcs =>
      cases hs
      exact hu
  | write out | done res => cases hs

theorem Empties.step (he : p.Empties r) (h : r.Inv v)
    (hev : events v.segs = pend.map LogEvent.encode) (hp : p.Inv v drained)
    (hu : r.head.unseen = []) (hs : p.step r i = some (r', p')) : p'.Empties r' := by
  cases p with
  | skip =>
      obtain ⟨r₁, hl, hr⟩ := Option.map_eq_some_iff.mp hs
      cases hr
      cases ThreadRing.eq_of_loadHead hu hl
      split
      · trivial
      · -- the padding loop has ended, so an event is next, or nothing
        rename_i hc
        by_cases hr : r.readable = 0
        · exact Or.inl hr
        · rcases h.atEvent_or hev hr with ⟨htag, -⟩ | ⟨htag, -⟩
          · exact absurd ⟨hr, htag⟩ hc
          · exact Or.inr htag
  | peek =>
      obtain ⟨r₁, hl, hr⟩ := Option.map_eq_some_iff.mp hs
      cases hr
      cases ThreadRing.eq_of_loadHead hu hl
      split
      · rename_i hr
        exact ThreadRing.drained_of_readable hu hr
      · rename_i hr
        rw [if_neg (not_not_intro (he.resolve_left hr))]
        trivial
  | header =>
      obtain ⟨r₁, -, hr⟩ := Option.map_eq_some_iff.mp hs
      cases hr
      split <;> trivial
  | body hdr =>
      obtain ⟨r₁, -, hr⟩ := Option.map_eq_some_iff.mp hs
      cases hr
      split
      · trivial
      · split <;> trivial
  | skipPad | consume hdr pcs =>
      cases hs
      trivial
  | shortHeader | shortBody | corrupt hdr => exact hp.elim
  | write out | done res => cases hs

end Process

/-! ## Quiet threads -/

/-- The thread has a ring, and has published nothing of its event yet. -/
def Thread.quiet (x : Thread) : Bool :=
  match x.pc with
  | .lock _ | .linkNext _ | .linkHead _ | .unlock _ => true
  | .produce _ .idle | .produce _ (.loadTail _) => true
  | _ => false

theorem Thread.hasRing_of_quiet {x : Thread} {ring : ThreadRing} {v : Virtual} {dead : Bool}
    (hq : x.quiet = true) (h : x.Inv ring v dead) : x.hasRing = true := by
  obtain ⟨pc, hasRing⟩ := x
  cases pc with
  | idle | alloc | exited => cases hq
  | lock e | linkNext e | linkHead e | unlock e => exact h
  | produce e p => exact h.1

/-- What the thread of a ring leaves alone before it publishes something. -/
structure ThreadRing.Still (r r' : ThreadRing) : Prop where
  capacity : r'.capacity = r.capacity
  buf : r'.buf = r.buf
  head : r'.head = r.head
  tail : r'.tail.latest = r.tail.latest

theorem ThreadRing.Still.refl (r : ThreadRing) : r.Still r := ⟨rfl, rfl, rfl, rfl⟩

/-- What a round knows of the ring of a quiet thread `t` when it has come to it. -/
def Scan.Leaves (t : RingId) (r : ThreadRing) : Scan → Prop
  | .lock | .head => True
  | .process _ t' _ p => if t = t' then p.Empties r else r.Drained
  | _ => r.Drained

theorem ThreadRing.Still.drained {r r' : ThreadRing} (h : r.Still r') (hd : r.Drained) :
    r'.Drained := by
  rw [ThreadRing.Drained, h.head, h.tail]
  exact hd

theorem Process.Empties.still {r r' : ThreadRing} {p : Process} (he : p.Empties r)
    (h : r.Still r') : p.Empties r' := by
  cases p with
  | peek =>
      have hread : r'.readable = r.readable := by
        rw [ThreadRing.readable, h.head, h.tail, ThreadRing.readable]
      have htag : r'.tagByte = r.tagByte := by
        rw [ThreadRing.tagByte, ThreadRing.mask, h.buf, h.tail, h.capacity]
        rfl
      rw [Process.Empties, hread, htag]
      exact he
  | done res =>
      cases res with
      | true => trivial
      | false => exact h.drained he
  | _ => trivial

theorem Scan.Leaves.still {t : RingId} {r r' : ThreadRing} {sc : Scan} (hl : sc.Leaves t r)
    (h : r.Still r') : sc.Leaves t r' := by
  cases sc with
  | lock | head => trivial
  | process prev t' work p =>
      by_cases ht : t = t'
      · have he : p.Empties r := (if_pos ht).mp hl
        exact (if_pos ht).mpr (he.still h)
      · have hd : r.Drained := (if_neg ht).mp hl
        exact (if_neg ht).mpr (h.drained hd)
  | _ => exact h.drained hl

/-- A new ring is drained. -/
theorem Scan.leaves_new (t : RingId) (capacity : UInt64) (buf : Nat → UInt8) (sc : Scan) :
    sc.Leaves t { capacity, buf } := by
  have hd : ThreadRing.Drained { capacity, buf } := rfl
  cases sc with
  | lock | head => trivial
  | process prev t' work p =>
      by_cases ht : t = t'
      · refine (if_pos ht).mpr ?_
        cases p with
        | peek => exact Or.inl (UInt64.sub_self 0)
        | done res =>
            cases res with
            | true => trivial
            | false => exact hd
        | _ => trivial
      · exact (if_neg ht).mpr hd
  | _ => exact hd

/-- A step that a producer has taken before it has published anything. -/
theorem Producer.still_step {r r' : ThreadRing} {v : Virtual} {payload : List UInt8}
    {p p' : Producer} {i : Nat} (hg : p.Granted r payload) (h : r.Inv v) (hp : p.Inv r v payload)
    (hlen : payload.length < 2 ^ 63) (hs : p.step r payload i = some (r', p'))
    (hc : p.commits = false) (hq : p' = .idle ∨ ∃ c, p' = .loadTail c) :
    (p = .idle ∨ ∃ c, p = .loadTail c) ∧ r.Still r' := by
  cases p with
  | idle =>
      cases hs
      exact ⟨Or.inl rfl, .refl _⟩
  | loadTail c =>
      obtain ⟨r₁, hl, he⟩ := Option.map_eq_some_iff.mp hs
      obtain ⟨d, hd, rfl⟩ := Option.map_eq_some_iff.mp hl
      cases he
      exact ⟨Or.inr ⟨c, rfl⟩, rfl, rfl, rfl, Cell.latest_load hd⟩
  | reloadTail c =>
      have hw := hg.writeTag h hp hlen hs
      subst hw
      rcases hq with hq | ⟨c', hq⟩ <;> cases hq
  | pad c off padNeed n =>
      rw [Producer.step] at hs
      split at hs <;> cases hs <;> rcases hq with hq | ⟨c', hq⟩ <;> cases hq
  | fill off j =>
      rw [Producer.step] at hs
      split at hs <;> cases hs <;> rcases hq with hq | ⟨c', hq⟩ <;> cases hq
  | storePad c | writeTag off =>
      cases hs
      rcases hq with hq | ⟨c', hq⟩ <;> cases hq
  | publish c => cases hc

namespace Pipeline

variable {s s' s₁ : Pipeline} {vs : RingId → Virtual} {pend : RingId → List LogEvent}
  {l : List RingId} {ringBytes : UInt64} {memory : RingId → Nat → UInt8} {t r : RingId} {i : Nat}
  {sc sc' : Scan} {a : Action}

theorem quiet_produce {x : Thread} {e : LogEvent} {p : Producer} (hpc : x.pc = .produce e p) :
    x.quiet = true ↔ p = .idle ∨ ∃ c, p = .loadTail c := by
  unfold Thread.quiet
  rw [hpc]
  cases p <;> simp

/-- A thread that is quiet has a new ring, or it was quiet before and its ring is as it was. -/
theorem Inv.quiet_threadStep (h : s.Inv vs pend l) (hg : s.Granted)
    (hs : s.threadStep ringBytes memory t i = some s') (hq : (s'.threads t).quiet = true) :
    s'.rings t = { capacity := ringBytes, buf := memory t } ∨
      (s.threads t).quiet = true ∧ (s.rings t).Still (s'.rings t) := by
  unfold Pipeline.threadStep at hs
  split at hs
  case h_1 | h_2 => cases hs
  case h_3 =>
    cases hs
    exact Or.inl (Function.update_self t _ _)
  case h_4 hpc =>
    split at hs <;> cases hs
    refine Or.inr ⟨?_, .refl _⟩
    rw [Thread.quiet, hpc]
  case h_8 e p hpc =>
    obtain ⟨⟨ring, p'⟩, hp, rfl⟩ := Option.map_eq_some_iff.mp hs
    split at hq
    · simp [setPc, Thread.quiet] at hq
    · rename_i hc
      obtain ⟨hring, hinv⟩ := h.producer hpc
      rw [quiet_produce (congrArg Thread.pc (threads_setPc_self _ t _))] at hq
      obtain ⟨hq', hstill⟩ := Producer.still_step (hg t e p hpc) hring hinv e.length_encode_lt hp
        (Bool.eq_false_of_not_eq_true hc) hq
      refine Or.inr ⟨(quiet_produce hpc).mpr hq', ?_⟩
      rw [if_neg hc]
      show (s.rings t).Still (Function.update s.rings t ring t)
      rw [Function.update_self]
      exact hstill
  all_goals
    rename_i hpc
    cases hs
    refine Or.inr ⟨?_, .refl _⟩
    rw [Thread.quiet, hpc]

end Pipeline

end DeadLockDetect.Runtime
