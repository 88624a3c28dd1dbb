import DeadLockDetect.Runtime.InitOnce

/-!
# What is logged of nested calls

A wrapper counts `g_bypass_depth` up while it calls the real function and `log_event`, so that the
wrappers that are called from there pass their calls on.  `BypassInv` says that the depth is the
number of scopes that are open in the stack of the thread, and that at most one of its wrappers is
logged.  From it: `log_event` is never entered a second time, a thread makes at most one ring, the
backend logs nothing, and once the library is ready the events of a thread are those of the calls
that it made itself, in order.

The value of such an event is that of `Call.logged`.  It is the return code only where the wrapper
logs the call after it has returned, and not even then for a wait on a condition, which logs its
mutex, and a `pthread_mutex_init` that succeeds, which logs whether the mutex is recursive.
-/

namespace DeadLockDetect.Runtime

theorem ActivationPc.scopes_le (pc : ActivationPc) : pc.scopes ≤ 4 := by cases pc <;> simp [scopes]

namespace Activation

/-- The wrapper is about to make a ring. -/
def allocating (fr : Activation) : Bool :=
  match fr.pc with
  | .currentRing _ => true
  | _ => false

theorem inScope_of_allocating {fr : Activation} (h : fr.allocating = true) : fr.inScope = true := by
  obtain ⟨c, pc⟩ := fr
  cases pc with
  | currentRing rc => rfl
  | _ => cases h

/-- The event that the wrapper has logged. -/
def pending (fr : Activation) : List DlEv :=
  match fr.pc with
  | .logEvent rc | .currentRing rc | .registerRing rc | .commit rc => [fr.call.logged rc]
  | .real => if fr.call.logsFirst then [fr.call.logged 0] else []
  | _ => []

theorem pending_eq_nil {fr : Activation} (h : fr.inScope = false) : fr.pending = [] := by
  obtain ⟨c, pc⟩ := fr
  cases pc with
  | enter | exchange | spin | resolve | shouldBypass | bypassed => rfl
  | _ => cases h

/-- How many scopes are open in the frames. -/
def depth (st : List Activation) : Nat := (st.map fun fr ↦ fr.pc.scopes).sum

@[simp] theorem depth_nil : depth [] = 0 := rfl

@[simp] theorem depth_cons (fr : Activation) (st : List Activation) :
    depth (fr :: st) = fr.pc.scopes + depth st := List.sum_cons

theorem depth_append (st st' : List Activation) : depth (st ++ st') = depth st + depth st' := by
  rw [depth, List.map_append, List.sum_append]
  rfl

theorem depth_eq_zero_iff {st : List Activation} : depth st = 0 ↔ ∀ fr ∈ st, fr.inScope = false := by
  induction st with
  | nil => exact iff_of_true rfl nofun
  | cons fr st ih =>
      rw [depth_cons, Nat.add_eq_zero_iff, ih, List.forall_mem_cons, inScope]
      simp

/-- In a stack with at most one wrapper that is logged, few scopes are open. -/
theorem depth_le_of_pairwise {st : List Activation}
    (h : st.Pairwise fun fr g ↦ fr.inScope = true → g.inScope = false) : depth st ≤ 4 := by
  induction st with
  | nil => exact Nat.zero_le 4
  | cons fr st ih =>
      obtain ⟨hfr, hst⟩ := List.pairwise_cons.mp h
      rw [depth_cons]
      cases hs : fr.inScope with
      | true =>
          rw [depth_eq_zero_iff.mpr fun g hg ↦ hfr g hg hs]
          exact fr.pc.scopes_le
      | false =>
          have hzero : fr.pc.scopes = 0 := by simpa [inScope] using hs
          rw [hzero, Nat.zero_add]
          exact ih hst

end Activation

namespace Interposer

variable {F : Type} {dlsym dlvsym : Fn → Option F} {s s' : Interposer F} {t : Nat} {c : Call}
  {fr : Activation} {rest : List Activation}

/-- The thread that takes the step. -/
def Action.thread? : Action → Option Nat
  | .call t _ | .go t | .realReturn t _ | .newRing t _ | .backendMain t => some t
  | .setLog _ => none

/-! ## The invariant -/

/-- What holds of the bypass in a thread. -/
structure BypassInv (s : Interposer F) (t : Nat) : Prop where
  depth : s.bypassDepth t = (if s.backend t then 1000 else 0) + (Activation.depth (s.stack t) : Int)
  nested : (s.stack t).Pairwise fun fr g ↦ fr.inScope = true → g.inScope = false
  backend : s.backend t = true → s.told t = [] ∧ ∀ fr ∈ s.stack t, fr.inScope = false
  rings : s.rings t = if s.hasRing t then 1 else 0
  allocating : ∀ fr ∈ s.stack t, fr.allocating = true → s.hasRing t = false

/-- `should_bypass` lets the wrapper log only if no other one in its thread is logged. -/
theorem BypassInv.quiet (h : s.BypassInv t) (hdepth : s.bypassDepth t ≤ 0) :
    s.backend t = false ∧ ∀ g ∈ s.stack t, g.inScope = false := by
  rw [h.depth] at hdepth
  cases hb : s.backend t with
  | true =>
      rw [hb] at hdepth
      simp only [if_true] at hdepth
      omega
  | false =>
      rw [hb] at hdepth
      simp only [Bool.false_eq_true, if_false] at hdepth
      exact ⟨rfl, Activation.depth_eq_zero_iff.mp (by omega)⟩

/-- What a thread has besides its stack and the depth. -/
def thread (s : Interposer F) (t : Nat) : Bool × Nat × Bool × List DlEv :=
  (s.backend t, s.rings t, s.hasRing t, s.told t)

theorem BypassInv.congr (h : s.BypassInv t) (hthread : s'.thread t = s.thread t)
    (hstack : s'.stack t = s.stack t) (hdepth : s'.bypassDepth t = s.bypassDepth t) :
    s'.BypassInv t := by
  obtain ⟨h₁, h₂, h₃, h₄⟩ : s'.backend t = s.backend t ∧ s'.rings t = s.rings t ∧
      s'.hasRing t = s.hasRing t ∧ s'.told t = s.told t := by
    simpa only [thread, Prod.mk.injEq] using hthread
  refine ⟨?_, ?_, ?_, ?_, ?_⟩
  · rw [hdepth, hstack, h₁]
    exact h.depth
  · rw [hstack]
    exact h.nested
  · rw [hstack, h₁, h₄]
    exact h.backend
  · rw [h₂, h₃]
    exact h.rings
  · rw [hstack, h₃]
    exact h.allocating

/-- What the innermost wrapper of a thread does, seen from the bypass. -/
structure Turn (s s' : Interposer F) (t : Nat) (fr : Activation) (rest : List Activation)
    (top : Option Activation) : Prop where
  stack_eq : s.stack t = fr :: rest
  stack : s'.stack t = top.toList ++ rest
  depth : s'.bypassDepth t = s.bypassDepth t - fr.pc.scopes + (Activation.depth top.toList : Int)
  enters : ∀ g ∈ top, g.inScope = true → fr.inScope = true ∨ s.bypassDepth t ≤ 0
  backend : s'.backend t = s.backend t
  told : s'.told t = s.told t ∨ fr.inScope = true
  rings : s'.rings t = s.rings t ∧ s'.hasRing t = s.hasRing t ∨
    fr.allocating = true ∧ s'.rings t = s.rings t + 1 ∧ s'.hasRing t = true
  allocating : ∀ g ∈ top, g.allocating = true → s'.hasRing t = false

theorem BypassInv.turn {top : Option Activation} (h : s.BypassInv t) (hs : Turn s s' t fr rest top) :
    s'.BypassInv t := by
  have hnested : (fr :: rest).Pairwise fun fr g ↦ fr.inScope = true → g.inScope = false :=
    hs.stack_eq ▸ h.nested
  obtain ⟨hfr, hrest⟩ := List.pairwise_cons.mp hnested
  -- a wrapper that enters a scope, or was in one, is the only one
  have honly : (∃ g ∈ top, g.inScope = true) → ∀ g ∈ rest, g.inScope = false := by
    rintro ⟨g, hg, hin⟩ g' hg'
    rcases hs.enters g hg hin with hin' | hdepth
    · exact hfr g' hg' hin'
    · exact (h.quiet hdepth).2 g' (hs.stack_eq ▸ List.mem_cons_of_mem fr hg')
  have hback (hb : s.backend t = true) : fr.inScope = false :=
    (h.backend hb).2 fr (hs.stack_eq ▸ List.mem_cons_self)
  refine ⟨?_, ?_, fun hb ↦ ?_, ?_, fun g hg ha ↦ ?_⟩
  · rw [hs.depth, hs.backend, hs.stack, h.depth, hs.stack_eq, Activation.depth_append, Activation.depth_cons]
    push_cast
    ring
  · rw [hs.stack]
    cases top with
    | none => exact hrest
    | some g => exact List.pairwise_cons.mpr ⟨fun g' hg' hin ↦ honly ⟨g, rfl, hin⟩ g' hg', hrest⟩
  · rw [hs.backend] at hb
    refine ⟨?_, fun g hg ↦ ?_⟩
    · rcases hs.told with htold | hin
      · exact htold.trans (h.backend hb).1
      · cases (hback hb).symm.trans hin
    · rw [hs.stack] at hg
      rcases List.mem_append.mp hg with hg | hg
      · by_contra hin
        rw [Bool.not_eq_false] at hin
        rcases hs.enters g (Option.mem_toList.mp hg) hin with hin' | hdepth
        · cases (hback hb).symm.trans hin'
        · cases (h.quiet hdepth).1.symm.trans hb
      · exact (h.backend hb).2 g (hs.stack_eq ▸ List.mem_cons_of_mem fr hg)
  · rcases hs.rings with ⟨h₁, h₂⟩ | ⟨ha, h₁, h₂⟩
    · rw [h₁, h₂]
      exact h.rings
    · rw [h₁, h₂, h.rings, h.allocating fr (hs.stack_eq ▸ List.mem_cons_self) ha]
      rfl
  · rw [hs.stack] at hg
    rcases List.mem_append.mp hg with hg | hg
    · exact hs.allocating g (Option.mem_toList.mp hg) ha
    · rcases hs.rings with ⟨-, h₂⟩ | ⟨ha', -⟩
      · rw [h₂]
        exact h.allocating g (hs.stack_eq ▸ List.mem_cons_of_mem fr hg) ha
      · have hin := hfr g hg (Activation.inScope_of_allocating ha')
        cases hin.symm.trans (Activation.inScope_of_allocating ha)

/-- The innermost wrapper moves, and `g_bypass_depth` with it. -/
theorem Turn.move {pc pc' : ActivationPc} (hst : s.stack t = ⟨c, pc⟩ :: rest)
    (hstack : s'.stack t = ⟨c, pc'⟩ :: rest)
    (hdepth : s'.bypassDepth t = s.bypassDepth t - pc.scopes + (pc'.scopes : Int))
    (henters : pc.scopes = 0 → pc'.scopes ≠ 0 → s.bypassDepth t ≤ 0)
    (hthread : s'.thread t = s.thread t)
    (halloc : Activation.allocating ⟨c, pc'⟩ = true → s.hasRing t = false) :
    Turn s s' t ⟨c, pc⟩ rest (some ⟨c, pc'⟩) := by
  obtain ⟨h₁, h₂, h₃, h₄⟩ : s'.backend t = s.backend t ∧ s'.rings t = s.rings t ∧
      s'.hasRing t = s.hasRing t ∧ s'.told t = s.told t := by
    simpa only [thread, Prod.mk.injEq] using hthread
  refine ⟨hst, hstack, hdepth, fun g hg hin ↦ ?_, h₁, Or.inl h₄, Or.inl ⟨h₂, h₃⟩, fun g hg ha ↦ ?_⟩
  · cases hg
    by_cases hzero : pc.scopes = 0
    · exact Or.inr (henters hzero (by simpa [Activation.inScope] using hin))
    · exact Or.inl (by simpa [Activation.inScope] using hzero)
  · cases hg
    exact h₃.trans (halloc ha)

/-- What there is of a thread. -/
def ofThread (s : Interposer F) (r : Nat) :
    (Bool × Nat × Bool × List DlEv) × List Activation × Int × List Returned :=
  (s.thread r, s.stack r, s.bypassDepth r, s.returned r)

theorem ofThread_afterEv {r : Nat} {rc : Int32} (hr : r ≠ t) :
    (s.afterEv t fr rest rc).ofThread r = s.ofThread r := by
  unfold afterEv
  split <;> simp [ofThread, thread, setStack, addDepth, ret, hr]

/-- A step leaves the other threads alone. -/
theorem Stepped.others {a : Action} {r : Nat} (hs : Stepped dlsym dlvsym s a s')
    (ha : a.thread? ≠ some r) : s'.ofThread r = s.ofThread r := by
  have hne {t : Nat} (h : some t ≠ some r) : r ≠ t := fun he ↦ h (congrArg some he.symm)
  cases hs with
  | spinning | abort | setLog => rfl
  | ignored | commit | noMemory =>
      rw [ofThread_afterEv (hne ha)]
      simp [ofThread, thread, addDepth, Interposer.tell, hne ha]
  | _ => simp [ofThread, thread, setStack, addDepth, ret, Interposer.tell, hne ha]

/-- `log_event` returns to the wrapper, and its scopes end. -/
theorem Turn.afterEv {s₁ : Interposer F} {pc : ActivationPc} {rc : Int32}
    (hst : s.stack t = ⟨c, pc⟩ :: rest) (hpc : pc.scopes ≠ 0)
    (hdepth : s₁.bypassDepth t = s.bypassDepth t - pc.scopes + 1)
    (hback : s₁.backend t = s.backend t)
    (hrings : s₁.rings t = s.rings t ∧ s₁.hasRing t = s.hasRing t) :
    Turn s (s₁.afterEv t ⟨c, pc⟩ rest rc) t ⟨c, pc⟩ rest (Activation.afterEv? ⟨c, pc⟩) := by
  have hin : Activation.inScope ⟨c, pc⟩ = true := by simpa [Activation.inScope] using hpc
  refine ⟨hst, ?_, ?_, fun _ _ _ ↦ Or.inl hin, ?_, Or.inr hin, Or.inl ?_, fun g hg ha ↦ ?_⟩
  · rw [stack_afterEv, Function.update_self]
  · unfold Interposer.afterEv Activation.afterEv?
    cases c.logsFirst with
    | true => exact hdepth
    | false => simp [addDepth, ret, setStack, hdepth]
  · unfold Interposer.afterEv
    split <;> exact hback
  · unfold Interposer.afterEv
    split <;> exact hrings
  · obtain rfl := Activation.eq_of_mem_afterEv? hg
    cases ha

/-- The wrapper returns. -/
theorem Turn.ret {pc : ActivationPc} (hst : s.stack t = ⟨c, pc⟩ :: rest) (hstack : s'.stack t = rest)
    (hdepth : s'.bypassDepth t = s.bypassDepth t - pc.scopes)
    (hthread : s'.thread t = s.thread t) : Turn s s' t ⟨c, pc⟩ rest none := by
  obtain ⟨h₁, h₂, h₃, h₄⟩ : s'.backend t = s.backend t ∧ s'.rings t = s.rings t ∧
      s'.hasRing t = s.hasRing t ∧ s'.told t = s.told t := by
    simpa only [thread, Prod.mk.injEq] using hthread
  refine ⟨hst, hstack, ?_, nofun, h₁, Or.inl h₄, Or.inl ⟨h₂, h₃⟩, nofun⟩
  rw [hdepth]
  exact (add_zero _).symm

/-- What a step does to the thread that takes it. -/
theorem Stepped.turn {a : Action} (hs : Stepped dlsym dlvsym s a s') (ha : a.thread? = some t) :
    (∃ fr rest top, Turn s s' t fr rest top) ∨ s'.ofThread t = s.ofThread t ∨
      (∃ c, s'.thread t = s.thread t ∧ s'.stack t = ⟨c, .enter⟩ :: s.stack t ∧
        s'.bypassDepth t = s.bypassDepth t) ∨
      s.stack t = [] ∧ s.told t = [] ∧ s'.told t = s.told t ∧ s'.stack t = [] ∧
        s'.bypassDepth t = 1000 ∧ s'.backend t = true ∧ s'.rings t = s.rings t ∧
        s'.hasRing t = s.hasRing t := by
  cases hs with
  | @call t' c =>
      cases ha
      exact Or.inr (Or.inr (Or.inl ⟨c, rfl, Function.update_self .., rfl⟩))
  | spinning | abort => exact Or.inr (Or.inl rfl)
  | setLog => cases ha
  | backendMain hready hst htold =>
      cases ha
      exact Or.inr (Or.inr (Or.inr ⟨hst, htold, rfl, hst, Function.update_self ..,
        Function.update_self .., rfl, rfl⟩))
  | unknown hst | known hst | lost hst | won hst | spun hst | assign hst | finish hst | pass hst =>
      cases ha
      refine Or.inl ⟨_, _, _, Turn.move hst (Function.update_self ..) ?_ ?_ rfl fun h ↦ by cases h⟩
      · simp [ActivationPc.scopes, setStack]
      · exact fun _ h ↦ absurd rfl h
  | @scope t' c rest hst hdepth hready =>
      cases ha
      refine Or.inl ⟨_, _, _, Turn.move hst (Function.update_self ..) ?_ ?_ rfl ?_⟩
      · cases c.logsFirst <;> simp [ActivationPc.scopes, setStack, addDepth]
      · exact fun _ _ ↦ hdepth
      · cases c.logsFirst <;> exact fun h ↦ by cases h
  | @tell t' c rest rc hst hlog =>
      cases ha
      refine Or.inl ⟨_, _, some ⟨c, .logEvent rc⟩, hst, Function.update_self .., ?_,
        fun _ _ _ ↦ Or.inl rfl, rfl, Or.inr rfl, Or.inl ⟨rfl, rfl⟩, ?_⟩
      · simp [ActivationPc.scopes, setStack, addDepth, Interposer.tell]
        ring
      · rintro g ⟨⟩ ⟨⟩
  | hasRing hst hring =>
      cases ha
      refine Or.inl ⟨_, _, _, Turn.move hst (Function.update_self ..) ?_ ?_ rfl fun h ↦ by cases h⟩
      · simp [ActivationPc.scopes, setStack]
      · exact fun h ↦ absurd h (Nat.succ_ne_zero _)
  | noRing hst hring =>
      cases ha
      refine Or.inl ⟨_, _, _, Turn.move hst (Function.update_self ..) ?_ ?_ rfl fun _ ↦ hring⟩
      · simp [ActivationPc.scopes, setStack, addDepth]
        ring
      · exact fun h ↦ absurd h (Nat.succ_ne_zero _)
  | registered hst =>
      cases ha
      refine Or.inl ⟨_, _, _, Turn.move hst (Function.update_self ..) ?_ ?_ rfl fun h ↦ by cases h⟩
      · simp [ActivationPc.scopes, setStack, addDepth]
        ring
      · exact fun h ↦ absurd h (Nat.succ_ne_zero _)
  | realFirst hst hc =>
      cases ha
      refine Or.inl ⟨_, _, _, Turn.move hst (Function.update_self ..) ?_ ?_ rfl fun h ↦ by cases h⟩
      · simp [ActivationPc.scopes, setStack]
      · exact fun h ↦ absurd h (Nat.succ_ne_zero _)
  | @newRing t' c rest rc hst =>
      cases ha
      refine Or.inl ⟨_, _, some ⟨c, .registerRing rc⟩, hst, Function.update_self .., ?_,
        fun _ _ _ ↦ Or.inl rfl, rfl, Or.inl rfl, Or.inr ⟨rfl, Function.update_self ..,
        Function.update_self ..⟩, ?_⟩
      · simp [ActivationPc.scopes, setStack, addDepth]
        ring
      · rintro g ⟨⟩ ⟨⟩
  | passed hst =>
      cases ha
      refine Or.inl ⟨_, _, _, Turn.ret hst (Function.update_self ..) ?_ rfl⟩
      simp [ActivationPc.scopes, Interposer.ret, setStack]
  | realLast hst hc =>
      cases ha
      refine Or.inl ⟨_, _, _, Turn.ret hst (Function.update_self ..) ?_ rfl⟩
      simp [ActivationPc.scopes, Interposer.ret, setStack, addDepth]
      rfl
  | ignored hst hlog =>
      cases ha
      refine Or.inl ⟨_, _, _, Turn.afterEv hst (Nat.succ_ne_zero _) ?_ rfl ⟨rfl, rfl⟩⟩
      simp [ActivationPc.scopes, Interposer.tell]
  | commit hst | noMemory hst =>
      cases ha
      refine Or.inl ⟨_, _, _, Turn.afterEv hst (Nat.succ_ne_zero _) ?_ rfl ⟨rfl, rfl⟩⟩
      simp [ActivationPc.scopes, addDepth]
      ring

theorem thread_eq_of_ofThread (h : s'.ofThread t = s.ofThread t) :
    s'.thread t = s.thread t ∧ s'.stack t = s.stack t ∧ s'.bypassDepth t = s.bypassDepth t := by
  simp only [ofThread, Prod.mk.injEq] at h
  exact ⟨h.1, h.2.1, h.2.2.1⟩

/-- A wrapper is called. -/
theorem BypassInv.call (h : s.BypassInv t) (hthread : s'.thread t = s.thread t)
    (hstack : s'.stack t = ⟨c, .enter⟩ :: s.stack t)
    (hdepth : s'.bypassDepth t = s.bypassDepth t) : s'.BypassInv t := by
  obtain ⟨h₁, h₂, h₃, h₄⟩ : s'.backend t = s.backend t ∧ s'.rings t = s.rings t ∧
      s'.hasRing t = s.hasRing t ∧ s'.told t = s.told t := by
    simpa only [thread, Prod.mk.injEq] using hthread
  refine ⟨?_, ?_, fun hb ↦ ?_, ?_, fun g hg ha ↦ ?_⟩
  · rw [hdepth, hstack, h₁, h.depth, Activation.depth_cons]
    simp [ActivationPc.scopes]
  · rw [hstack]
    exact List.pairwise_cons.mpr ⟨nofun, h.nested⟩
  · obtain ⟨htold, hst⟩ := h.backend (h₁ ▸ hb)
    rw [hstack, h₄]
    exact ⟨htold, List.forall_mem_cons.mpr ⟨rfl, hst⟩⟩
  · rw [h₂, h₃]
    exact h.rings
  · rw [hstack] at hg
    rcases List.mem_cons.mp hg with rfl | hg
    · cases ha
    · exact h₃.trans (h.allocating g hg ha)

/-- Every step preserves the invariant. -/
theorem BypassInv.step {a : Action} (h : s.BypassInv t) (hs : Stepped dlsym dlvsym s a s') :
    s'.BypassInv t := by
  by_cases ha : a.thread? = some t
  · rcases hs.turn ha with ⟨fr, rest, top, hturn⟩ | hlocal | ⟨c, hthread, hstack, hdepth⟩ | hmain
    · exact h.turn hturn
    · obtain ⟨h₁, h₂, h₃⟩ := thread_eq_of_ofThread hlocal
      exact h.congr h₁ h₂ h₃
    · exact h.call hthread hstack hdepth
    · obtain ⟨-, htold, htold', hst', hdepth, hback, hrings, hring⟩ := hmain
      refine ⟨?_, ?_, fun _ ↦ ?_, ?_, ?_⟩
      · rw [hdepth, hst', hback]
        rfl
      · rw [hst']
        exact List.Pairwise.nil
      · rw [htold', htold, hst']
        exact ⟨rfl, nofun⟩
      · rw [hrings, hring]
        exact h.rings
      · rw [hst']
        exact nofun
  · obtain ⟨h₁, h₂, h₃⟩ := thread_eq_of_ofThread (hs.others ha)
    exact h.congr h₁ h₂ h₃

theorem init_bypassInv (t : Nat) : (init : Interposer F).BypassInv t where
  depth := rfl
  nested := List.Pairwise.nil
  backend := nofun
  rings := rfl
  allocating := fun _ h ↦ by cases h

/-- Every state of every run satisfies the invariant. -/
theorem BypassInv.exec {as : List Action} (h : s.BypassInv t)
    (hs : s.exec dlsym dlvsym as = some s') : s'.BypassInv t := by
  refine Run.run_inv (I := fun s ↦ BypassInv s t) ?_ h hs
  rintro a - s₁ s₂ h₁ h₂
  exact h₁.step (stepped_of_step h₂).2

/-! ## The events of a thread -/

/-- Where the real function is called without logging, a wrapper further out is logged. -/
def Covered : List Activation → Prop
  | [] => True
  | fr :: rest => (fr.pc = .bypassed → ∃ g ∈ rest, g.inScope = true) ∧ Covered rest

/-- Since a state in which the thread was in no wrapper, its events are those of its own calls. -/
structure Tells (s₀ s : Interposer F) (t : Nat) : Prop where
  covered : Covered (s.stack t)
  told : ∃ new, s.returned t = s₀.returned t ++ new ∧
    s.told t = s₀.told t ++ (new.filter Returned.own).map (fun x ↦ x.call.logged x.rc) ++
      (s.stack t).flatMap Activation.pending

/-- Below a wrapper that is logged nothing else is. -/
theorem BypassInv.below (h : s.BypassInv t) (hst : s.stack t = fr :: rest)
    (hfr : fr.inScope = true) :
    (rest.all fun g ↦ !g.inScope) = true ∧ rest.flatMap Activation.pending = [] := by
  have hnested := h.nested
  rw [hst] at hnested
  have hrest (g : Activation) (hg : g ∈ rest) : g.inScope = false :=
    (List.pairwise_cons.mp hnested).1 g hg hfr
  refine ⟨List.all_eq_true.mpr fun g hg ↦ ?_, List.flatMap_eq_nil_iff.mpr fun g hg ↦ ?_⟩
  · rw [hrest g hg]
    rfl
  · exact Activation.pending_eq_nil (hrest g hg)

variable {s₀ s₁ : Interposer F}

theorem Tells.congr (h : Tells s₀ s t) (hlocal : s'.ofThread t = s.ofThread t) : Tells s₀ s' t := by
  simp only [ofThread, thread, Prod.mk.injEq] at hlocal
  obtain ⟨⟨-, -, -, htold⟩, hstack, -, hret⟩ := hlocal
  refine ⟨hstack ▸ h.covered, ?_⟩
  rw [hret, htold, hstack]
  exact h.told

/-- The innermost wrapper goes on and logs nothing. -/
theorem Tells.move {pc pc' : ActivationPc} (h : Tells s₀ s t) (hst : s.stack t = ⟨c, pc⟩ :: rest)
    (hstack : s'.stack t = ⟨c, pc'⟩ :: rest) (htold : s'.told t = s.told t)
    (hret : s'.returned t = s.returned t)
    (hpending : Activation.pending ⟨c, pc'⟩ = Activation.pending ⟨c, pc⟩)
    (hcovered : pc' = .bypassed → ∃ g ∈ rest, g.inScope = true) : Tells s₀ s' t := by
  have hcov := h.covered
  rw [hst] at hcov
  refine ⟨?_, ?_⟩
  · rw [hstack]
    exact ⟨hcovered, hcov.2⟩
  · rw [htold, hret, hstack, List.flatMap_cons, hpending, ← List.flatMap_cons, ← hst]
    exact h.told

/-- The innermost wrapper has logged its event, and the call is over or comes to the real
function. -/
theorem Tells.afterEv {pc : ActivationPc} {rc : Int32} (h : Tells s₀ s t) (hb : s.BypassInv t)
    (hst : s.stack t = ⟨c, pc⟩ :: rest) (hpc : Activation.inScope ⟨c, pc⟩ = true)
    (hret : s₁.returned t = s.returned t)
    (htold : ∀ l, s.told t = l ++ Activation.pending ⟨c, pc⟩ → s₁.told t = l ++ [c.logged rc]) :
    Tells s₀ (s₁.afterEv t ⟨c, pc⟩ rest rc) t := by
  obtain ⟨hown, hrest⟩ := hb.below hst hpc
  obtain ⟨hcov, new, hnew, htold₀⟩ := h
  rw [hst] at hcov
  rw [hst, List.flatMap_cons, hrest, List.append_nil] at htold₀
  have htold₁ := htold _ htold₀
  unfold Interposer.afterEv
  cases hc : c.logsFirst with
  | true =>
      rw [if_pos rfl]
      refine ⟨?_, new, hret.trans hnew, htold₁.trans ?_⟩
      · rw [stack_setStack, Function.update_self]
        exact ⟨nofun, hcov.2⟩
      · rw [stack_setStack, Function.update_self, List.flatMap_cons, hrest, List.append_nil,
          Call.logged_of_logsFirst hc]
        simp [Activation.pending, hc]
  | false =>
      rw [if_neg Bool.false_ne_true]
      have hstack : ((s₁.ret t ⟨c, pc⟩ rest rc).addDepth t (-1)).stack t = rest :=
        Function.update_self ..
      refine ⟨?_, new ++ [⟨c, rc, true⟩], ?_, htold₁.trans ?_⟩
      · rw [hstack]
        exact hcov.2
      · show Function.update s₁.returned t _ t = _
        rw [Function.update_self, hown, hret, hnew, List.append_assoc]
      · rw [hstack, hrest, List.append_nil, List.filter_append, List.map_append,
          List.append_assoc]
        rfl

/-- The real function has returned to the innermost wrapper, which returns. -/
theorem Tells.ret {pc : ActivationPc} {rc : Int32} (h : Tells s₀ s t)
    (hst : s.stack t = ⟨c, pc⟩ :: rest) (hstack : s'.stack t = rest)
    (htold : s'.told t = s.told t)
    (hret : s'.returned t = s.returned t ++ [⟨c, rc, rest.all fun g ↦ !g.inScope⟩])
    (hown : (rest.all fun g ↦ !g.inScope) = true →
      Activation.pending ⟨c, pc⟩ = [c.logged rc] ∧ rest.flatMap Activation.pending = [])
    (hother : (rest.all fun g ↦ !g.inScope) = false → Activation.pending ⟨c, pc⟩ = []) :
    Tells s₀ s' t := by
  obtain ⟨hcov, new, hnew, htold₀⟩ := h
  rw [hst] at hcov
  rw [hst, List.flatMap_cons] at htold₀
  refine ⟨hstack ▸ hcov.2, new ++ [⟨c, rc, rest.all fun g ↦ !g.inScope⟩], ?_, ?_⟩
  · rw [hret, hnew, List.append_assoc]
  · rw [htold, htold₀, hstack, List.filter_append, List.map_append]
    cases hall : rest.all fun g ↦ !g.inScope with
    | true =>
        obtain ⟨hp, hrest⟩ := hown hall
        rw [hp, hrest]
        simp
    | false =>
        rw [hother hall]
        simp

theorem Tells.step {a : Action} (h : Tells s₀ s t) (hb : s.BypassInv t) (hready : s.ready = true)
    (hback : s.backend t = false) (hs : Stepped dlsym dlvsym s a s') : Tells s₀ s' t := by
  by_cases ha : a.thread? = some t
  swap
  · exact h.congr (hs.others ha)
  cases hs with
  | @call t' c =>
      cases ha
      refine ⟨?_, ?_⟩
      · rw [stack_setStack, Function.update_self]
        exact ⟨nofun, h.covered⟩
      · rw [stack_setStack, Function.update_self]
        exact h.told
  | spinning | abort => exact h.congr rfl
  | setLog => cases ha
  | backendMain hr hst htold =>
      cases ha
      exact ⟨h.covered, h.told⟩
  | unknown hst | known hst | lost hst | won hst | spun hst | assign hst | finish hst
  | hasRing hst | noRing hst | registered hst | newRing hst =>
      cases ha
      exact h.move hst (Function.update_self ..) rfl rfl rfl nofun
  | @pass t' c rest hst hpass =>
      cases ha
      refine h.move hst (Function.update_self ..) rfl rfl rfl fun _ ↦ ?_
      -- the depth is that of a wrapper further out
      have hdepth : 0 < s.bypassDepth t := hpass.resolve_right fun hr ↦ by cases hr.symm.trans hready
      rw [hb.depth, hback, hst, Activation.depth_cons] at hdepth
      by_contra hnone
      have hzero : Activation.depth rest = 0 := by
        refine Activation.depth_eq_zero_iff.mpr fun g hg ↦ ?_
        exact Bool.eq_false_of_not_eq_true fun hin ↦ hnone ⟨g, hg, hin⟩
      rw [hzero] at hdepth
      simp [ActivationPc.scopes] at hdepth
  | @scope t' c rest hst hdepth hr =>
      cases ha
      refine h.move hst (Function.update_self ..) rfl rfl ?_ ?_
      · cases hc : c.logsFirst <;> simp [Activation.pending, hc]
      · cases c.logsFirst <;> nofun
  | @tell t' c rest rc hst hlog =>
      cases ha
      obtain ⟨-, hrest⟩ := hb.below hst rfl
      obtain ⟨hcov, new, hnew, htold⟩ := h
      rw [hst] at hcov
      rw [hst, List.flatMap_cons, hrest] at htold
      have hstack : (((s.tell t (c.logged rc)).setStack t (⟨c, .logEvent rc⟩ :: rest)).addDepth t
          1).stack t = ⟨c, .logEvent rc⟩ :: rest := Function.update_self ..
      refine ⟨?_, new, hnew, ?_⟩
      · rw [hstack]
        exact ⟨nofun, hcov.2⟩
      · rw [hstack, List.flatMap_cons, hrest]
        show Function.update s.told t _ t = _
        rw [Function.update_self, htold]
        simp [Activation.pending]
  | @ignored t' c rest rc hst hlog =>
      cases ha
      refine h.afterEv hb hst rfl rfl fun l hl ↦ ?_
      show Function.update s.told t _ t = _
      rw [Function.update_self, hl]
      exact congrArg (· ++ [c.logged rc]) (List.append_nil l)
  | commit hst | noMemory hst =>
      cases ha
      exact h.afterEv hb hst rfl rfl fun l hl ↦ hl
  | @passed t' c rest rc hst =>
      cases ha
      have hcov := h.covered
      rw [hst] at hcov
      obtain ⟨g, hg, hin⟩ := hcov.1 rfl
      refine h.ret hst (Function.update_self ..) rfl (Function.update_self ..) (fun hall ↦ ?_)
        fun _ ↦ rfl
      have hg' := List.all_eq_true.mp hall g hg
      rw [hin] at hg'
      cases hg'
  | @realLast t' c rest rc hst hc =>
      cases ha
      obtain ⟨hown, hrest⟩ := hb.below hst rfl
      refine h.ret hst (Function.update_self ..) rfl (Function.update_self ..) (fun _ ↦ ⟨?_, hrest⟩)
        fun hall ↦ ?_
      · rw [Call.logged_of_logsFirst hc rc]
        simp [Activation.pending, hc]
      · cases hown.symm.trans hall
  | @realFirst t' c rest rc hst hc =>
      cases ha
      refine h.move hst (Function.update_self ..) rfl rfl ?_ nofun
      simp [Activation.pending, hc]

/-- The library stays ready, and the backend is the backend for good. -/
theorem Stepped.keeps {a : Action} (hs : Stepped dlsym dlvsym s a s') :
    (s.ready = true → s'.ready = true) ∧ (s.backend t = true → s'.backend t = true) := by
  have after (s : Interposer F) (r : Nat) (fr : Activation) (rest : List Activation) (rc : Int32) :
      (s.afterEv r fr rest rc).ready = s.ready ∧ (s.afterEv r fr rest rc).backend = s.backend := by
    unfold afterEv
    split <;> exact ⟨rfl, rfl⟩
  cases hs with
  | finish hst => exact ⟨fun _ ↦ rfl, id⟩
  | ignored | commit | noMemory =>
      rw [(after _ _ _ _ _).1, (after _ _ _ _ _).2]
      exact ⟨id, id⟩
  | @backendMain r hready hst htold =>
      refine ⟨id, fun hb ↦ ?_⟩
      show Function.update s.backend r true t = true
      by_cases hr : t = r
      · rw [hr, Function.update_self]
      · rw [Function.update_of_ne hr]
        exact hb
  | _ => exact ⟨id, id⟩

/-- In a run from a state in which the library is ready and the thread is in no wrapper. -/
theorem Tells.exec {as : List Action} (hb : s₀.BypassInv t) (hready : s₀.ready = true)
    (hst : s₀.stack t = []) (hs : s₀.exec dlsym dlvsym as = some s)
    (hback : s.backend t = false) : Tells s₀ s t := by
  have hinv : s.BypassInv t ∧ s.ready = true ∧ (s.backend t = true ∨ Tells s₀ s t) := by
    refine Run.run_inv (I := fun s ↦ s.BypassInv t ∧ s.ready = true ∧
      (s.backend t = true ∨ Tells s₀ s t)) ?_ ⟨hb, hready, Or.inr ?_⟩ hs
    · rintro a - s₁ s₂ ⟨hb, hready, hor⟩ h₂
      have hstep := (stepped_of_step h₂).2
      obtain ⟨hready', hback'⟩ := hstep.keeps (t := t)
      refine ⟨hb.step hstep, hready' hready, ?_⟩
      cases hbt : s₁.backend t with
      | true => exact Or.inl (hback' hbt)
      | false =>
          have htells := hor.resolve_left (Bool.eq_false_iff.mp hbt)
          exact Or.inr (htells.step hb hready hbt hstep)
    · refine ⟨?_, [], (List.append_nil _).symm, ?_⟩
      · rw [hst]
        trivial
      · rw [hst]
        simp
  exact hinv.2.2.resolve_left (Bool.eq_false_iff.mp hback)

end Interposer

open Interposer

/-- **Nested calls are passed on.**  In every state of every run, for every thread: at most one of
its wrappers is logged, so that `log_event` is not entered from inside of itself, and it has made at
most one ring.  In a thread other than the backend, `g_bypass_depth` counts the scopes that are
open in its wrappers, at most four, and is zero if it is in none of them; in the backend it is
never zero, and nothing has been logged there. -/
theorem bypass_safe {F : Type} (dlsym dlvsym : Fn → Option F) (as : List Action)
    (s : Interposer F) (hs : (init : Interposer F).exec dlsym dlvsym as = some s) (t : Nat) :
    ((s.stack t).filter Activation.inScope).length ≤ 1 ∧ s.rings t ≤ 1 ∧
      (s.backend t = false → s.bypassDepth t = Activation.depth (s.stack t) ∧ s.bypassDepth t ≤ 4) ∧
      (s.backend t = true → s.told t = [] ∧ 0 < s.bypassDepth t) := by
  have h : s.BypassInv t := (init_bypassInv t).exec hs
  refine ⟨?_, ?_, fun hb ↦ ?_, fun hb ↦ ⟨(h.backend hb).1, ?_⟩⟩
  · have hpair := h.nested.filter Activation.inScope
    match hst : (s.stack t).filter Activation.inScope with
    | [] => exact Nat.zero_le 1
    | [_] => exact le_rfl
    | fr :: g :: rest =>
        have hin (x : Activation) (hx : x ∈ (s.stack t).filter Activation.inScope) : x.inScope = true :=
          (List.mem_filter.mp hx).2
        rw [hst] at hpair hin
        have hfr := hin fr List.mem_cons_self
        have hg := hin g (List.mem_cons_of_mem fr List.mem_cons_self)
        cases hg.symm.trans ((List.pairwise_cons.mp hpair).1 g List.mem_cons_self hfr)
  · rw [h.rings]
    split <;> decide
  · have hdepth := h.depth
    rw [hb, if_neg Bool.false_ne_true, zero_add] at hdepth
    have hle := Activation.depth_le_of_pairwise h.nested
    exact ⟨hdepth, by omega⟩
  · rw [h.depth, hb, if_pos rfl]
    omega

/-- A thread locks a mutex before the library is ready, and returns from it. -/
def startup : List Action := firstLock ++ [.realReturn 0 0, .go 0]

/-- The thread locks a mutex, and the allocation of its ring locks another one. -/
def nestedLock : List Action :=
  [.setLog true, .call 0 (.mutexLock 16), .go 0, .go 0, .realReturn 0 0, .go 0, .go 0,
    .call 0 (.mutexLock 24), .go 0, .go 0, .realReturn 0 0, .newRing 0 true]

theorem bypass_safe_nestedLock : ∃ s : Interposer Nat,
    (init : Interposer Nat).exec (fun _ ↦ some 7) (fun _ ↦ none) (startup ++ nestedLock) = some s ∧
      s.stack 0 = [⟨.mutexLock 16, .registerRing 0⟩] ∧ s.bypassDepth 0 = 4 := by
  have hrun : ((init : Interposer Nat).exec (fun _ ↦ some 7) (fun _ ↦ none)
      (startup ++ nestedLock)).any
      (fun s ↦ s.stack 0 = [⟨.mutexLock 16, .registerRing 0⟩] ∧ s.backend 0 = false) = true := by
    decide
  obtain ⟨s, hs, hst⟩ := (Option.any_eq_true _ _).mp hrun
  obtain ⟨hst, hb⟩ := of_decide_eq_true hst
  obtain ⟨-, -, hdepth, -⟩ :=
    bypass_safe (fun _ ↦ some 7) (fun _ ↦ none) (startup ++ nestedLock) s hs 0
  refine ⟨s, hs, hst, (hdepth hb).1.trans ?_⟩
  rw [hst]
  rfl

/-- **The events of a thread are those of its own calls.**  Once the library is ready, and from a
state in which a thread other than the backend is in no wrapper: whatever the real functions,
`dlsym` and the allocation of rings call, the thread has told `log_event` of exactly the calls that
it made itself and not from inside of one of them, each once, in order and with what this call logs
for what its real function returned, and of the one it is in if that has come to its event. -/
theorem told_eq {F : Type} (dlsym dlvsym : Fn → Option F) (as : List Action)
    (s₀ : Interposer F) (hs₀ : (init : Interposer F).exec dlsym dlvsym as = some s₀)
    (hready : s₀.ready = true) (t : Nat) (hst : s₀.stack t = []) (bs : List Action)
    (s : Interposer F) (hs : s₀.exec dlsym dlvsym bs = some s) (hback : s.backend t = false) :
    ∃ new, s.returned t = s₀.returned t ++ new ∧
      s.told t = s₀.told t ++ (new.filter Returned.own).map (fun x ↦ x.call.logged x.rc) ++
        (s.stack t).flatMap Activation.pending :=
  (Tells.exec ((init_bypassInv t).exec hs₀) hready hst hs hback).told

theorem told_eq_nestedLock : ∃ s₀ s : Interposer Nat,
    (init : Interposer Nat).exec (fun _ ↦ some 7) (fun _ ↦ none) startup = some s₀ ∧
      s₀.exec (fun _ ↦ some 7) (fun _ ↦ none) (nestedLock ++ [.go 0, .go 0]) = some s ∧
      s.told 0 = s₀.told 0 ++ [⟨.lockPost, .mutex, 16, 0⟩] := by
  have hstart : ((init : Interposer Nat).exec (fun _ ↦ some 7) (fun _ ↦ none) startup).any
      (fun s₀ ↦ (s₀.ready = true ∧ s₀.stack 0 = [] ∧ s₀.returned 0 = [⟨.mutexLock 8, 0, true⟩]) ∧
        (s₀.exec (fun _ ↦ some 7) (fun _ ↦ none) (nestedLock ++ [.go 0, .go 0])).any
          (fun s ↦ s.backend 0 = false ∧ s.stack 0 = [] ∧
            s.returned 0 = [⟨.mutexLock 8, 0, true⟩, ⟨.mutexLock 24, 0, false⟩,
              ⟨.mutexLock 16, 0, true⟩])) = true := by decide
  obtain ⟨s₀, hs₀, h⟩ := (Option.any_eq_true _ _).mp hstart
  obtain ⟨⟨hready, hst₀, hret₀⟩, hrun⟩ := of_decide_eq_true h
  obtain ⟨s, hs, h⟩ := (Option.any_eq_true _ _).mp hrun
  obtain ⟨hback, hst, hret⟩ := of_decide_eq_true h
  obtain ⟨new, hnew, htold⟩ := told_eq (fun _ ↦ some 7) (fun _ ↦ none) startup s₀ hs₀ hready 0 hst₀
    (nestedLock ++ [.go 0, .go 0]) s hs hback
  rw [hret, hret₀] at hnew
  obtain rfl := (List.cons.inj hnew).2
  refine ⟨s₀, s, hs₀, hs, htold.trans ?_⟩
  rw [hst]
  exact List.append_nil _

end DeadLockDetect.Runtime
