import DeadLockDetect.Runtime.FinalDrain
import DeadLockDetect.Runtime.Timed

/-!
# No thread is left waiting for the backend

`log_event` retries `reserve` until there is room, and looks at nothing else.  Once the log is
closed no one consumes any more; yet every thread that is still inside gets out.  One that has
published nothing of its event finds its ring drained (`Tidy.clear`), and a drained ring has room
for every event; one that has published its padding was granted the room for the event before.

A look at `tail_` may return a value that is stale, and then the call is retried.  `promptStep`
leaves these looks out, and in what is left every step of a thread decreases what it owes
(`Thread.due`).

In these runs a thread logs nothing after its `ring_tls_destructor`.
-/

namespace DeadLockDetect.Runtime

open Pipeline

/-! ## What a thread owes -/

namespace Producer

variable {r r' : ThreadRing} {v : Virtual} {payload : List UInt8} {p p' : Producer} {i : Nat}

/-- The steps until the event is committed, if no call of `reserve` gives up. -/
def due (r : ThreadRing) (payload : List UInt8) (p : Producer) : Nat :=
  match p with
  | .idle => r.capacity.toNat + payload.length + 10
  | .fill .. | .publish _ => p.unfilled payload
  | _ => p.left r + payload.length + 3

theorem due_of_reserving (h : p.reserving = true) :
    p.due r payload = p.left r + payload.length + 3 := by
  cases p with
  | idle | fill off j | publish c => cases h
  | _ => rfl

/-- Every step but the last one leaves less to do. -/
theorem due_step (hg : p.Granted r payload) (h : r.Inv v) (hp : p.Inv r v payload)
    (hlen : payload.length < 2 ^ 63) (hc : p.commits = false) (hne : p' ≠ .idle)
    (hs : p.step r payload i = some (r', p')) : p'.due r' payload < p.due r payload := by
  cases hres : p.reserving with
  | true =>
      have hcalled := (hg.called hres).step h hp hlen hres hs
      have hleft := left_step h hp hlen hres hs
      rw [due_of_reserving hres]
      rcases hcalled.reserving_or hne with hres' | ⟨off, rfl⟩
      · rw [due_of_reserving hres']
        omega
      · show payload.length - 0 + 2 < _
        omega
  | false =>
      cases p with
      | idle =>
          cases hs
          show r.capacity.toNat + 6 + payload.length + 3 < r.capacity.toNat + payload.length + 10
          omega
      | fill off j =>
          rw [step] at hs
          split at hs
          · rename_i b hb
            cases hs
            have hj : j < payload.length := (List.getElem?_eq_some_iff.mp hb).1
            show payload.length - (j + 1) + 2 < payload.length - j + 2
            omega
          · cases hs
            show 1 < payload.length - j + 2
            omega
      | publish c => cases hc
      | _ => cases hres

theorem due_le (h : r.Inv v) (hp : p.Inv r v payload) :
    p.due r payload ≤ r.capacity.toNat + payload.length + 10 := by
  have hpos := h.capacity_pos
  cases p with
  | idle => exact le_rfl
  | pad c off padNeed n =>
      have hpad := hp.2.2.1
      show padNeed.toNat - n + 5 + payload.length + 3 ≤ _
      omega
  | fill off j =>
      show payload.length - j + 2 ≤ _
      omega
  | publish c =>
      show 1 ≤ _
      omega
  | _ =>
      simp only [due, left]
      omega

/-- With an up-to-date look at `tail_` the producer can always go on. -/
theorem exists_prompt_step (r : ThreadRing) (payload : List UInt8) (p : Producer) :
    ∃ x, p.step r payload r.tail.unseen.length = some x := by
  cases hres : p.reserving with
  | true =>
      obtain ⟨r', p', hs, -⟩ := exists_step r payload hres
      exact ⟨(r', p'), hs⟩
  | false =>
      cases p with
      | idle | publish c => exact ⟨_, rfl⟩
      | fill off j =>
          rw [step]
          split <;> exact ⟨_, rfl⟩
      | _ => cases hres

end Producer

/-- The steps until the thread is out of `log_event`, if no call of `reserve` gives up. -/
def Thread.due (ringBytes : UInt64) (r : ThreadRing) (x : Thread) : Nat :=
  match x.pc with
  | .idle | .exited => 0
  | .alloc e => ringBytes.toNat + e.encode.length + 15
  | .lock e => ringBytes.toNat + e.encode.length + 14
  | .linkNext e => ringBytes.toNat + e.encode.length + 13
  | .linkHead e => ringBytes.toNat + e.encode.length + 12
  | .unlock e => ringBytes.toNat + e.encode.length + 11
  | .produce e p => p.due r e.encode

namespace Pipeline

variable {s s' s₁ : Pipeline} {vs : RingId → Virtual} {pend : RingId → List LogEvent}
  {l : List RingId} {ringBytes : UInt64} {memory : RingId → Nat → UInt8} {t r : RingId}
  {i m : Nat} {active : Finset RingId} {a : Action} {as bs : List Action}

/-- Every event fits into a ring of this size, with the padding in front of it. -/
def Ample (ringBytes : UInt64) : Prop :=
  ∀ e : LogEvent, 2 * (1 + e.encode.length) - 1 ≤ ringBytes.toNat

/-- In a closed log no call of `reserve` gives up after an up-to-date look at `tail_`. -/
theorem Inv.ne_idle {e : LogEvent} {p p' : Producer} {ring : ThreadRing} (h : s.Inv vs pend l)
    (hg : s.Granted) (hclear : s.Clear) (hsize : s.Sized ringBytes) (hample : Ample ringBytes)
    (hpc : (s.threads t).pc = .produce e p) (hc : p.commits = false)
    (hp : p.step (s.rings t) e.encode (s.rings t).tail.unseen.length = some (ring, p')) :
    p' ≠ .idle := by
  obtain ⟨hring, hinv⟩ := h.producer hpc
  have hlen := e.length_encode_lt
  cases p with
  | loadTail c =>
      have hd : (s.rings t).Drained := hclear t ((quiet_produce hpc).mpr (Or.inr ⟨c, rfl⟩))
      have hroom : 2 * (1 + e.encode.length) - 1 ≤ (s.rings t).capacity.toNat := by
        rw [hsize t]
        exact hample e
      exact Producer.ne_idle_of_drained hring hinv hlen hd hroom hp
  | reloadTail c =>
      rw [(hg t e _ hpc).writeTag hring hinv hlen hp]
      intro he
      cases he
  | pad c off padNeed n =>
      rw [Producer.step] at hp
      split at hp <;> cases hp <;> intro he <;> cases he
  | fill off j =>
      rw [Producer.step] at hp
      split at hp <;> cases hp <;> intro he <;> cases he
  | publish c => cases hc
  | _ =>
      cases hp
      intro he
      cases he

/-- Every step of a thread leaves it less to do. -/
theorem Inv.due_threadStep (h : s.Inv vs pend l) (hg : s.Granted) (hclear : s.Clear)
    (hsize : s.Sized ringBytes) (hample : Ample ringBytes)
    (hs : s.threadStep ringBytes memory t (s.rings t).tail.unseen.length = some s') :
    (s'.threads t).due ringBytes (s'.rings t) < (s.threads t).due ringBytes (s.rings t) := by
  unfold Pipeline.threadStep at hs
  split at hs
  case h_1 | h_2 => cases hs
  case h_3 e hpc =>
    cases hs
    simp [Thread.due, hpc]
  case h_4 e hpc =>
    split at hs <;> cases hs
    simp [Thread.due, setPc, hpc]
  case h_7 e hpc =>
    cases hs
    have hcap : (s.rings t).capacity = ringBytes := hsize t
    simp [Thread.due, setPc, hpc, Producer.due, hcap]
  case h_8 e p hpc =>
    obtain ⟨⟨ring, p'⟩, hp, rfl⟩ := Option.map_eq_some_iff.mp hs
    obtain ⟨hring, hinv⟩ := h.producer hpc
    split
    · rename_i hc
      cases p with
      | publish c => simp [Thread.due, setPc, hpc, Producer.due, Producer.unfilled]
      | _ => cases hc
    · rename_i hc
      have hc := Bool.eq_false_of_not_eq_true hc
      have hne : p' ≠ .idle := h.ne_idle hg hclear hsize hample hpc hc hp
      have hlt : p'.due ring e.encode < p.due (s.rings t) e.encode :=
        Producer.due_step (hg t e p hpc) hring hinv e.length_encode_lt hc hne hp
      simpa [Thread.due, setPc, setRing, hpc] using hlt
  all_goals
    rename_i hpc
    cases hs
    simp [Thread.due, setPc, hpc]

/-- The steps that the threads still take until no one is inside `log_event`. -/
def owed (s : Pipeline) (ringBytes : UInt64) (active : Finset RingId) : Nat :=
  ∑ t ∈ active, (s.threads t).due ringBytes (s.rings t)

theorem Inv.due_le (h : s.Inv vs pend l) (hsize : s.Sized ringBytes) (hample : Ample ringBytes)
    (t : RingId) : (s.threads t).due ringBytes (s.rings t) ≤ 2 * ringBytes.toNat + 15 := by
  have hlen (e : LogEvent) : e.encode.length ≤ ringBytes.toNat := by
    have he := hample e
    omega
  unfold Thread.due
  split
  case h_1 | h_2 => exact Nat.zero_le _
  case h_8 e p hpc =>
    obtain ⟨hring, hinv⟩ := h.producer hpc
    have hle := Producer.due_le hring hinv
    rw [hsize t] at hle
    have he := hlen e
    omega
  all_goals
    rename_i e _
    have he := hlen e
    omega

/-! ## After `log_close` -/

/-- A thread goes on in `log_event`. -/
def Action.isThread : Action → Bool
  | .thread .. => true
  | _ => false

/-- The same action, where a thread that loads `tail_` gets the value that was stored last. -/
def Action.prompt (s : Pipeline) : Action → Action
  | .thread t _ => .thread t (s.rings t).tail.unseen.length
  | a => a

/-- One step, without a stale look at `tail_`. -/
def promptStep (ringBytes : UInt64) (memory : RingId → Nat → UInt8) (s : Pipeline) (a : Action) :
    Option Pipeline :=
  s.step ringBytes memory (a.prompt s)

/-- The log is closed, and the threads owe no more than `m` steps. -/
structure Released (s : Pipeline) (ringBytes : UInt64) (active : Finset RingId) (m : Nat) :
    Prop where
  tidy : s.Tidy
  closing : s.Closing ringBytes active
  closed : s.stage = .closed
  owed : s.owed ringBytes active ≤ m

/-- A step by which no thread comes to owe more. -/
theorem owed_mono (h : ∀ t, (s'.threads t).due ringBytes (s'.rings t) ≤
    (s.threads t).due ringBytes (s.rings t)) : s'.owed ringBytes active ≤ s.owed ringBytes active :=
  Finset.sum_le_sum fun t _ ↦ h t

/-- A thread leaves `log_event`, or it exits. -/
theorem owed_setPc {pc : ThreadPc} (hpc : pc = .idle ∨ pc = .exited) (hring : s'.rings = s.rings)
    (hth : s'.threads = (s.setPc t pc).threads) :
    s'.owed ringBytes active ≤ s.owed ringBytes active := by
  refine owed_mono fun r ↦ ?_
  rw [hring, hth]
  by_cases hr : r = t
  · rw [hr, threads_setPc_self]
    rcases hpc with rfl | rfl <;> exact Nat.zero_le _
  · rw [threads_setPc_of_ne s hr]

/-- No step of the closed log makes the threads owe more, and their own steps make them owe less. -/
theorem Released.step (h : s.Released ringBytes active m) (hcap : ∃ k, ringBytes.toNat = 2 ^ k)
    (hample : Ample ringBytes) (hs : promptStep ringBytes memory s a = some s') :
    ∃ m', s'.Released ringBytes active m' ∧ m' + (if a.isThread then 1 else 0) ≤ m := by
  have htidy := h.tidy.step hcap hs
  have hclosing := h.closing.step hcap hs
  have quiet (ha : a.isThread = false) (hst : s'.stage = s.stage)
      (howed : s'.owed ringBytes active ≤ s.owed ringBytes active) :
      ∃ m', s'.Released ringBytes active m' ∧ m' + (if a.isThread then 1 else 0) ≤ m := by
    rw [ha]
    exact ⟨m, ⟨htidy, hclosing, hst.trans h.closed, howed.trans h.owed⟩, le_rfl⟩
  cases a with
  | thread t i =>
      obtain ⟨vs, pend, l, hinv⟩ := h.tidy.inv
      have hs : s.threadStep ringBytes memory t (s.rings t).tail.unseen.length = some s' := hs
      have hby := threadStep_byThread hs
      have hclear := h.tidy.clear h.closed
      have hlt := hinv.due_threadStep h.tidy.granted hclear h.closing.sized hample hs
      have ht : t ∈ active := h.closing.confined.mem_of_threadStep hs
      have hsum : s'.owed ringBytes active < s.owed ringBytes active := by
        refine Finset.sum_lt_sum (fun r _ ↦ ?_) ⟨t, ht, hlt⟩
        by_cases hr : r = t
        · rw [hr]
          exact hlt.le
        · rw [hby.threads r hr, threadStep_rings hs hr]
      have hm := h.owed
      refine ⟨s'.owed ringBytes active, ⟨htidy, hclosing, hby.stage.trans h.closed, le_rfl⟩, ?_⟩
      show _ + 1 ≤ m
      omega
  | call t e =>
      have hs : s.step ringBytes memory (.call t e) = some s' := hs
      cases stepped_of_step hs with
      | call hpc hlog => cases h.closing.logEnabled.symm.trans hlog
      | ignored => exact quiet rfl rfl le_rfl
  | noMemory t =>
      have hs : s.step ringBytes memory (.noMemory t) = some s' := hs
      cases stepped_of_step hs with
      | noMemory hpc => exact quiet rfl rfl (owed_setPc (Or.inl rfl) rfl rfl)
  | exit t =>
      have hs : s.step ringBytes memory (.exit t) = some s' := hs
      cases stepped_of_step hs with
      | exit hpc => exact quiet rfl rfl (owed_setPc (Or.inr rfl) rfl rfl)
  | disable =>
      cases hs
      exact quiet rfl rfl le_rfl
  | requestShutdown =>
      have hs : s.step ringBytes memory .requestShutdown = some s' := hs
      cases stepped_of_step hs
      exact quiet rfl rfl le_rfl
  | join =>
      have hs : s.step ringBytes memory .join = some s' := hs
      cases stepped_of_step hs with
      | join hstage => cases h.closed.symm.trans hstage.1
  | backend i =>
      have hs : s.backendStep i = some s' := hs
      rw [Pipeline.backendStep, h.closed] at hs
      cases hs

/-- In a closed log some thread can go on, as long as one is inside `log_event`. -/
theorem Released.exists_step (h : s.Released ringBytes active m)
    (ht : (s.threads t).pc.event? ≠ none) :
    ∃ r s', promptStep ringBytes memory s (.thread r 0) = some s' := by
  obtain ⟨vs, pend, l, hinv⟩ := h.tidy.inv
  have going {r : RingId} {s' : Pipeline}
      (hs : s.threadStep ringBytes memory r (s.rings r).tail.unseen.length = some s') :
      ∃ r s', promptStep ringBytes memory s (.thread r 0) = some s' := ⟨r, s', hs⟩
  cases hpc : (s.threads t).pc with
  | idle | exited =>
      rw [hpc] at ht
      exact absurd rfl ht
  | lock e =>
      cases hmu : s.registryMu with
      | none => exact going (r := t) (by rw [threadStep, hpc]; exact if_pos hmu)
      | some o =>
          -- another thread has locked the registry, and it can go on
          cases o with
          | scanner =>
              have hscan := hinv.registry.scanner.mp hmu
              rw [scanning, h.closed] at hscan
              cases hscan
          | thread r =>
              have hh := (hinv.registry.thread r).mp hmu
              unfold Thread.holds at hh
              split at hh
              case h_1 hr | h_2 hr | h_3 hr => exact going (r := r) (by rw [threadStep, hr])
              case h_4 => cases hh
  | produce e p =>
      obtain ⟨x, hx⟩ := Producer.exists_prompt_step (s.rings t) e.encode p
      exact going (r := t) (by rw [threadStep, hpc]; exact Option.map_eq_some_iff.mpr ⟨x, hx, rfl⟩)
  | _ => exact going (r := t) (by rw [threadStep, hpc])

/-- A closed log, and the bound on what its threads owe. -/
theorem released_of_exec (hcap : ∃ k, ringBytes.toNat = 2 ^ k) (hample : Ample ringBytes)
    (hs : (init ringBytes memory).exec ringBytes memory as = some s) (hst : s.stage = .closed) :
    s.Released ringBytes (callers as) ((callers as).card * (2 * ringBytes.toNat + 15)) := by
  have htidy := tidy_of_exec hcap hs
  have hclosing := closing_of_exec hcap hs (htidy.settled (Or.inr hst)).1
  obtain ⟨vs, pend, l, hinv⟩ := htidy.inv
  refine ⟨htidy, hclosing, hst, ?_⟩
  exact Finset.sum_le_card_nsmul _ _ _ fun t _ ↦ hinv.due_le hclosing.sized hample t

/-- Where some thread is inside `log_event`, some thread comes closer to its end. -/
theorem Released.exists_run (h : s.Released ringBytes active m)
    (hcap : ∃ k, ringBytes.toNat = 2 ^ k) (hample : Ample ringBytes) :
    ∃ (ts : List RingId) (s₁ : Pipeline),
      Run.run (promptStep ringBytes memory) s (ts.map fun t ↦ .thread t 0) = some s₁ ∧
      ∀ t, (s₁.threads t).pc.event? = none := by
  have hprogress (s : Pipeline) (h : ∃ m, s.Released ringBytes active m)
      (hin : ¬ ∀ t, (s.threads t).pc.event? = none) :
      ∃ r s', promptStep ringBytes memory s (.thread r 0) = some s' ∧
        (∃ m, s'.Released ringBytes active m) ∧
        s'.owed ringBytes active < s.owed ringBytes active := by
    obtain ⟨m, h⟩ := h
    obtain ⟨t, ht⟩ := not_forall.mp hin
    obtain ⟨r, s', hs'⟩ :
        ∃ r s', promptStep ringBytes memory s (.thread r 0) = some s' := h.exists_step ht
    have h₀ : s.Released ringBytes active (s.owed ringBytes active) := { h with owed := le_rfl }
    obtain ⟨m', hm', hle⟩ := h₀.step hcap hample hs'
    have hlt : m' + 1 ≤ s.owed ringBytes active := hle
    exact ⟨r, s', hs', ⟨m', hm'⟩, Nat.lt_of_le_of_lt hm'.owed hlt⟩
  obtain ⟨ts, s₁, hs₁, -, hout⟩ := Run.exists_run_of_progress _ hprogress ⟨m, h⟩
  exact ⟨ts, s₁, (Run.run_map _ ts).trans hs₁, hout⟩

end Pipeline

open Pipeline

/-- **No thread is left waiting when the log is closed.**  Whatever size of ring is configured, and
wherever the threads were in `log_event` when `log_close` returned, though no one empties the rings
any more: as long as a thread is inside `log_event`, some thread can go on; with up-to-date looks at
`tail_` the threads take no more than `2 * ringCapacity + 15` steps each, whatever else happens; and
they can always come out by themselves. -/
theorem logClose_releases (getenv : String → Option (List Char)) (memory : RingId → Nat → UInt8)
    (as bs : List Action) (s s' : Pipeline)
    (hs : (init (ringCapacity getenv) memory).exec (ringCapacity getenv) memory as = some s)
    (hst : s.stage = .closed)
    (hs' : Run.run (promptStep (ringCapacity getenv) memory) s bs = some s') :
    bs.countP Action.isThread ≤ (callers as).card * (2 * (ringCapacity getenv).toNat + 15) ∧
    (∀ t, (s'.threads t).pc.event? ≠ none →
      ∃ r s₁, promptStep (ringCapacity getenv) memory s' (.thread r 0) = some s₁) ∧
    ∃ (ts : List RingId) (s₁ : Pipeline),
      Run.run (promptStep (ringCapacity getenv) memory) s' (ts.map fun t ↦ .thread t 0) = some s₁ ∧
      ∀ t, (s₁.threads t).pc.event? = none := by
  obtain ⟨k, -, -, hk⟩ := exists_toNat_ringCapacity getenv
  have hcap : ∃ k, (ringCapacity getenv).toNat = 2 ^ k := ⟨k, hk⟩
  have hample : Ample (ringCapacity getenv) := two_mul_need_le getenv
  have h := released_of_exec hcap hample hs hst
  obtain ⟨m, h', hle⟩ := Run.run_countP (p := Action.isThread)
    (I := fun m s ↦ s.Released (ringCapacity getenv) (callers as) m)
    (fun _ _ _ _ h hs ↦ h.step hcap hample hs) h hs'
  exact ⟨(Nat.le_add_left _ _).trans hle, fun t ht ↦ h'.exists_step ht, h'.exists_run hcap hample⟩

/-- A thread is about to look for room in its ring when `log_close` is called. -/
def insideReserve : List Action :=
  .call 0 oneEvent :: List.replicate 6 (.thread 0 0) ++ [.disable, .requestShutdown] ++
    List.replicate 22 (.backend 0)

/-- The run above up to the end of the final drain. -/
def insideReserveRun : List Action := insideReserve ++ .join :: List.replicate 11 (.backend 0)

/-- It is still there when the log is closed, and it comes out. -/
theorem logClose_releases_insideReserve : ∃ s : Pipeline,
    (init (ringCapacity fun _ ↦ none) fun _ _ ↦ 0).exec (ringCapacity fun _ ↦ none) (fun _ _ ↦ 0)
      insideReserveRun = some s ∧
    s.stage = .closed ∧ (s.threads 0).pc = .produce oneEvent (.loadTail 0) ∧
    ∃ (ts : List RingId) (s₁ : Pipeline),
      Run.run (promptStep (ringCapacity fun _ ↦ none) fun _ _ ↦ 0) s
        (ts.map fun t ↦ .thread t 0) = some s₁ ∧ ∀ t, (s₁.threads t).pc.event? = none := by
  have hrun : ((init (ringCapacity fun _ ↦ none) fun _ _ ↦ 0).exec (ringCapacity fun _ ↦ none)
      (fun _ _ ↦ 0) insideReserveRun).any
      (fun s ↦ s.stage = .closed ∧ (s.threads 0).pc = .produce oneEvent (.loadTail 0)) = true := by
    decide +kernel
  obtain ⟨s, hs, hst⟩ := (Option.any_eq_true _ _).mp hrun
  obtain ⟨hclosed, hpc⟩ := of_decide_eq_true hst
  obtain ⟨-, -, hout⟩ :=
    logClose_releases (fun _ ↦ none) (fun _ _ ↦ 0) insideReserveRun [] s s hs hclosed rfl
  exact ⟨s, hs, hclosed, hpc, hout⟩

end DeadLockDetect.Runtime
