import Mathlib.Data.List.Nodup
import DeadLockDetect.Runtime.RealSymbols

/-!
# The real functions are resolved once

What holds of `init_once` in every interleaving of the wrappers, whatever they are called from:
`SymbolsInv` says that one thread assigns the pointers in their order and then sets `g_ready`, and
that a wrapper has come past its look at the pointer only if it is assigned.

`init_once` itself can hang: when `dlsym` calls a wrapper whose real function is not resolved yet,
the thread waits for itself.  `CallsBack` is this, and it is the only way.
-/

namespace DeadLockDetect.Runtime

namespace Interposer

variable {F : Type} {dlsym dlvsym : Fn → Option F} {s s' : Interposer F} {t : Nat} {c : Call}
  {fr : Activation} {rest : List Activation}

@[simp] theorem stack_setStack (st : List Activation) :
    (s.setStack t st).stack = Function.update s.stack t st := rfl

/-! ## The invariant -/

/-- What `init_once` works on. -/
def symbols (s : Interposer F) : Bool × Bool × (Fn → Option F) × List Fn :=
  (s.state, s.ready, s.real, s.resolved)

theorem symbols_afterEv {rc : Int32} : (s.afterEv t fr rest rc).symbols = s.symbols := by
  unfold Interposer.afterEv
  split <;> rfl

theorem real_afterEv {rc : Int32} : (s.afterEv t fr rest rc).real = s.real :=
  congrArg (fun x : Bool × Bool × (Fn → Option F) × List Fn ↦ x.2.2.1) symbols_afterEv

/-- The pointers that a thread is still to assign, in each call of `init_once`. -/
def todos (s : Interposer F) (t : Nat) : List (List Fn) := (s.stack t).filterMap Activation.todo?

/-- How far the library is. -/
inductive Phase (s : Interposer F) : Prop where
  | idle (hstate : s.state = false) (hready : s.ready = false) (hresolved : s.resolved = [])
      (hreal : ∀ f, s.real f = none) (htodo : ∀ t, s.todos t = [])
  /-- One thread assigns the pointers. -/
  | busy (t : Nat) (todo : List Fn) (hstate : s.state = true) (hready : s.ready = false)
      (hresolved : s.resolved ++ todo = Fn.all) (hreal : ∀ f, s.real f = none ↔ f ∈ todo)
      (htodo : s.todos t = [todo]) (hothers : ∀ r, r ≠ t → s.todos r = [])
  | ready (hstate : s.state = true) (hready : s.ready = true) (hresolved : s.resolved = Fn.all)
      (hreal : ∀ f, s.real f ≠ none) (htodo : ∀ t, s.todos t = [])

/-- What a wrapper knows at its position. -/
def Knows (s : Interposer F) (fr : Activation) : Prop :=
  match fr.pc with
  | .enter | .exchange | .spin | .resolve _ => True
  | .shouldBypass | .bypassed => s.real fr.call.fn ≠ none
  | _ => s.ready = true

/-- What holds of the pointers in every state of every run. -/
structure SymbolsInv (dlsym dlvsym : Fn → Option F) (s : Interposer F) : Prop where
  real : ∀ f p, s.real f = some p → Interposer.resolve dlsym dlvsym f = some p
  phase : s.Phase
  knows : ∀ t, ∀ fr ∈ s.stack t, s.Knows fr

theorem Knows.mono (h : s.Knows fr) (hreal : ∀ f, s.real f ≠ none → s'.real f ≠ none)
    (hready : s.ready = true → s'.ready = true) : s'.Knows fr := by
  unfold Knows at *
  split at h
  case h_5 | h_6 => exact hreal _ h
  case h_7 => exact hready h
  all_goals trivial

theorem Phase.real_ne_none (h : s.Phase) (hready : s.ready = true) (f : Fn) :
    s.real f ≠ none := by
  cases h with
  | idle _ hr | busy _ _ _ hr => cases hr.symm.trans hready
  | ready _ _ _ hreal => exact hreal f

theorem Phase.congr (h : s.Phase) (hsym : s'.symbols = s.symbols)
    (htodos : ∀ r, s'.todos r = s.todos r) : s'.Phase := by
  obtain ⟨h₁, h₂, h₃, h₄⟩ : s'.state = s.state ∧ s'.ready = s.ready ∧ s'.real = s.real ∧
      s'.resolved = s.resolved := by
    simpa only [symbols, Prod.mk.injEq] using hsym
  cases h with
  | idle hstate hready hresolved hreal htodo =>
      exact .idle (h₁ ▸ hstate) (h₂ ▸ hready) (h₄ ▸ hresolved) (h₃ ▸ hreal) fun r ↦
        (htodos r).trans (htodo r)
  | busy t todo hstate hready hresolved hreal htodo hothers =>
      exact .busy t todo (h₁ ▸ hstate) (h₂ ▸ hready) (h₄ ▸ hresolved) (h₃ ▸ hreal)
        ((htodos t).trans htodo) fun r hr ↦ (htodos r).trans (hothers r hr)
  | ready hstate hready hresolved hreal htodo =>
      exact .ready (h₁ ▸ hstate) (h₂ ▸ hready) (h₄ ▸ hresolved) (h₃ ▸ hreal) fun r ↦
        (htodos r).trans (htodo r)

/-- The pointers are assigned in their order. -/
theorem Phase.resolved_isPrefix (h : s.Phase) : s.resolved <+: Fn.all := by
  cases h with
  | idle _ _ hresolved =>
      rw [hresolved]
      exact List.nil_prefix
  | busy _ todo _ _ hresolved => exact ⟨todo, hresolved⟩
  | ready _ _ hresolved => exact ⟨[], (List.append_nil _).trans hresolved⟩

theorem Phase.resolved_eq (h : s.Phase) (hready : s.ready = true) : s.resolved = Fn.all := by
  cases h with
  | idle _ hr | busy _ _ _ hr => cases hr.symm.trans hready
  | ready _ _ hresolved => exact hresolved

theorem Phase.real_iff (h : s.Phase) (f : Fn) : s.real f ≠ none ↔ f ∈ s.resolved := by
  cases h with
  | idle _ _ hresolved hreal =>
      rw [hresolved]
      exact iff_of_false (absurd (hreal f)) List.not_mem_nil
  | busy _ todo _ _ hresolved hreal =>
      have hnd : s.resolved.Disjoint todo :=
        (List.nodup_append'.mp (hresolved ▸ Fn.nodup_all)).2.2
      have hmem : f ∈ s.resolved ∨ f ∈ todo := List.mem_append.mp (hresolved ▸ f.mem_all)
      rw [Ne, hreal f]
      exact ⟨hmem.resolve_right, fun hf hf' ↦ hnd hf hf'⟩
  | ready _ _ hresolved hreal => exact iff_of_true (hreal f) (hresolved ▸ f.mem_all)

/-- The thread that assigns the pointers. -/
theorem Phase.of_resolve (h : s.Phase) {todo : List Fn} {above below : List Activation}
    (hst : s.stack t = above ++ ⟨c, .resolve todo⟩ :: below) :
    s.state = true ∧ s.ready = false ∧ s.resolved ++ todo = Fn.all ∧
      (∀ f, s.real f = none ↔ f ∈ todo) ∧ above.filterMap Activation.todo? = [] ∧
      below.filterMap Activation.todo? = [] ∧ ∀ r, r ≠ t → s.todos r = [] := by
  have hmem : todo ∈ s.todos t := by
    rw [todos, hst]
    exact List.mem_filterMap.mpr ⟨_, List.mem_append_right _ List.mem_cons_self, rfl⟩
  cases h with
  | idle _ _ _ _ htodo | ready _ _ _ _ htodo =>
      rw [htodo t] at hmem
      cases hmem
  | busy r todo' hstate hready hresolved hreal htodo hothers =>
      obtain rfl : r = t := by
        by_contra hne
        rw [hothers t (Ne.symm hne)] at hmem
        cases hmem
      rw [htodo] at hmem
      obtain rfl := List.mem_singleton.mp hmem
      rw [todos, hst, List.filterMap_append] at htodo
      have hlen := congrArg List.length htodo
      have hcons : (⟨c, .resolve todo⟩ :: below : List Activation).filterMap Activation.todo? =
          todo :: below.filterMap Activation.todo? := rfl
      rw [hcons, List.length_append, List.length_cons, List.length_singleton] at hlen
      refine ⟨hstate, hready, hresolved, hreal, ?_, ?_, hothers⟩
      · exact List.length_eq_zero_iff.mp (by omega)
      · exact List.length_eq_zero_iff.mp (by omega)

/-- A step that leaves the pointers alone. -/
theorem SymbolsInv.congr (h : s.SymbolsInv dlsym dlvsym) (hsym : s'.symbols = s.symbols)
    (htodos : ∀ r, s'.todos r = s.todos r)
    (hknows : ∀ r, ∀ g ∈ s'.stack r, g ∈ s.stack r ∨ s.Knows g) : s'.SymbolsInv dlsym dlvsym := by
  obtain ⟨-, h₂, h₃, -⟩ : s'.state = s.state ∧ s'.ready = s.ready ∧ s'.real = s.real ∧
      s'.resolved = s.resolved := by
    simpa only [symbols, Prod.mk.injEq] using hsym
  refine ⟨h₃ ▸ h.real, h.phase.congr hsym htodos, fun r g hg ↦ ?_⟩
  have hg' : s.Knows g := (hknows r g hg).elim (h.knows r g) id
  exact hg'.mono (fun f hf ↦ h₃ ▸ hf) fun hr ↦ h₂.trans hr

/-- A wrapper that is not in `init_once` goes on to a place outside of it, or returns. -/
theorem todos_turn (hst : s.stack t = fr :: rest) (top : Option Activation)
    (hstack : s'.stack = Function.update s.stack t (top.toList ++ rest)) (hfr : fr.todo? = none)
    (htop : ∀ g ∈ top, g.todo? = none) (r : Nat) : s'.todos r = s.todos r := by
  have htodo : top.toList.filterMap Activation.todo? = [] := by
    rw [List.filterMap_eq_nil_iff]
    intro g hg
    exact htop g (Option.mem_toList.mp hg)
  by_cases hr : r = t
  · subst hr
    rw [todos, todos, hstack, Function.update_self, hst, List.filterMap_append, htodo,
      List.filterMap_cons_none hfr, List.nil_append]
  · rw [todos, todos, hstack, Function.update_of_ne hr]

/-- The innermost wrapper goes on to a place outside of `init_once`, or returns. -/
theorem SymbolsInv.turn (h : s.SymbolsInv dlsym dlvsym) (hst : s.stack t = fr :: rest)
    (top : Option Activation) (hstack : s'.stack = Function.update s.stack t (top.toList ++ rest))
    (hsym : s'.symbols = s.symbols) (hfr : fr.todo? = none)
    (htop : ∀ g ∈ top, g.todo? = none ∧ s.Knows g) : s'.SymbolsInv dlsym dlvsym := by
  refine h.congr hsym (todos_turn hst top hstack hfr fun g hg ↦ (htop g hg).1) fun r g hg ↦ ?_
  · rw [hstack] at hg
    by_cases hr : r = t
    · subst hr
      rw [Function.update_self] at hg
      rcases List.mem_append.mp hg with hg | hg
      · exact Or.inr (htop g (Option.mem_toList.mp hg)).2
      · exact Or.inl (hst ▸ List.mem_cons_of_mem fr hg)
    · rw [Function.update_of_ne hr] at hg
      exact Or.inl hg

theorem SymbolsInv.move {pc pc' : ActivationPc} (h : s.SymbolsInv dlsym dlvsym)
    (hst : s.stack t = ⟨c, pc⟩ :: rest)
    (hstack : s'.stack = Function.update s.stack t (⟨c, pc'⟩ :: rest))
    (hsym : s'.symbols = s.symbols) (hpc : Activation.todo? ⟨c, pc⟩ = none)
    (hpc' : Activation.todo? ⟨c, pc'⟩ = none) (hk : s.Knows ⟨c, pc'⟩) : s'.SymbolsInv dlsym dlvsym := by
  refine h.turn hst (some ⟨c, pc'⟩) hstack hsym hpc fun g hg ↦ ?_
  cases hg
  exact ⟨hpc', hk⟩

/-- `log_event` has returned. -/
theorem SymbolsInv.afterEv {pc : ActivationPc} {rc : Int32} (h : s.SymbolsInv dlsym dlvsym)
    (hst : s.stack t = ⟨c, pc⟩ :: rest) (hstack : s'.stack = s.stack)
    (hsym : s'.symbols = s.symbols) (hpc : Activation.todo? ⟨c, pc⟩ = none) (hready : s.ready = true) :
    (s'.afterEv t ⟨c, pc⟩ rest rc).SymbolsInv dlsym dlvsym := by
  refine h.turn hst (Activation.afterEv? ⟨c, pc⟩) ?_ ?_ hpc fun g hg ↦ ?_
  · rw [stack_afterEv, hstack]
  · exact symbols_afterEv.trans hsym
  · obtain rfl := Activation.eq_of_mem_afterEv? hg
    exact ⟨rfl, hready⟩

/-- The wrapper returns. -/
theorem SymbolsInv.ret {pc : ActivationPc} (h : s.SymbolsInv dlsym dlvsym)
    (hst : s.stack t = ⟨c, pc⟩ :: rest) (hpc : Activation.todo? ⟨c, pc⟩ = none)
    (hstack : s'.stack = Function.update s.stack t rest) (hsym : s'.symbols = s.symbols) :
    s'.SymbolsInv dlsym dlvsym :=
  h.turn hst none hstack hsym hpc fun g hg ↦ by cases hg

/-- The functions that are left to assign after the first one. -/
theorem real_update_iff {f : Fn} {fs : List Fn} {p : F} (hnd : (f :: fs).Nodup)
    (hreal : ∀ g, s.real g = none ↔ g ∈ f :: fs) (g : Fn) :
    Function.update s.real f (some p) g = none ↔ g ∈ fs := by
  by_cases hg : g = f
  · subst hg
    rw [Function.update_self]
    exact ⟨nofun, fun hg ↦ absurd hg (List.nodup_cons.mp hnd).1⟩
  · rw [Function.update_of_ne hg, hreal g, List.mem_cons, or_iff_right hg]

/-- The next pointer is assigned. -/
theorem SymbolsInv.assign {f : Fn} {fs : List Fn} {p : F} (h : s.SymbolsInv dlsym dlvsym)
    (hst : s.stack t = ⟨c, .resolve (f :: fs)⟩ :: rest)
    (hf : Interposer.resolve dlsym dlvsym f = some p) :
    SymbolsInv dlsym dlvsym
      { s.setStack t (⟨c, .resolve fs⟩ :: rest) with
        real := Function.update s.real f (some p)
        resolved := s.resolved ++ [f] } := by
  obtain ⟨hstate, hready, hresolved, hreal, -, hbelow, hothers⟩ :=
    h.phase.of_resolve (show s.stack t = [] ++ _ :: _ from hst)
  have hnd : (f :: fs).Nodup := by
    have hall := Fn.nodup_all
    rw [← hresolved] at hall
    exact (List.nodup_append.mp hall).2.1
  refine ⟨fun g q hg ↦ ?_, ?_, fun r g hg ↦ ?_⟩
  · change Function.update s.real f (some p) g = some q at hg
    by_cases hgf : g = f
    · subst hgf
      rw [Function.update_self] at hg
      exact hf.trans hg
    · rw [Function.update_of_ne hgf] at hg
      exact h.real g q hg
  · refine .busy t fs hstate hready ?_ (real_update_iff hnd hreal) ?_ fun r hr ↦ ?_
    · rw [List.append_assoc]
      exact hresolved
    · show (Function.update s.stack t _ t).filterMap Activation.todo? = [fs]
      rw [Function.update_self]
      exact congrArg (fs :: ·) hbelow
    · show (Function.update s.stack t _ r).filterMap Activation.todo? = []
      rw [Function.update_of_ne hr]
      exact hothers r hr
  · have hk : s.Knows g := by
      change g ∈ Function.update s.stack t _ r at hg
      by_cases hr : r = t
      · subst hr
        rw [Function.update_self] at hg
        rcases List.mem_cons.mp hg with rfl | hg
        · trivial
        · exact h.knows r g (hst ▸ List.mem_cons_of_mem _ hg)
      · rw [Function.update_of_ne hr] at hg
        exact h.knows r g hg
    refine hk.mono (fun g' hg' ↦ ?_) id
    rw [Ne, real_update_iff hnd hreal]
    exact fun hmem ↦ hg' ((hreal g').mpr (List.mem_cons_of_mem f hmem))

/-- The library becomes ready. -/
theorem SymbolsInv.finish (h : s.SymbolsInv dlsym dlvsym)
    (hst : s.stack t = ⟨c, .resolve []⟩ :: rest) :
    SymbolsInv dlsym dlvsym
      { s.setStack t (⟨c, .shouldBypass⟩ :: rest) with ready := true } := by
  obtain ⟨hstate, -, hresolved, hreal, -, hbelow, hothers⟩ :=
    h.phase.of_resolve (show s.stack t = [] ++ _ :: _ from hst)
  have hreal' (f : Fn) : s.real f ≠ none := fun hf ↦ List.not_mem_nil ((hreal f).mp hf)
  refine ⟨h.real, .ready hstate rfl ?_ hreal' fun r ↦ ?_, fun r g hg ↦ ?_⟩
  · exact (List.append_nil _).symm.trans hresolved
  · show (Function.update s.stack t _ r).filterMap Activation.todo? = []
    by_cases hr : r = t
    · subst hr
      rw [Function.update_self]
      exact hbelow
    · rw [Function.update_of_ne hr]
      exact hothers r hr
  · change g ∈ Function.update s.stack t _ r at hg
    by_cases hr : r = t
    · subst hr
      rw [Function.update_self] at hg
      rcases List.mem_cons.mp hg with rfl | hg
      · exact hreal' c.fn
      · exact (h.knows r g (hst ▸ List.mem_cons_of_mem _ hg)).mono (fun _ hf ↦ hf) fun _ ↦ rfl
    · rw [Function.update_of_ne hr] at hg
      exact (h.knows r g hg).mono (fun _ hf ↦ hf) fun _ ↦ rfl

/-- A thread begins to assign the pointers. -/
theorem SymbolsInv.won (h : s.SymbolsInv dlsym dlvsym) (hst : s.stack t = ⟨c, .exchange⟩ :: rest)
    (hstate : s.state = false) :
    SymbolsInv dlsym dlvsym
      { s.setStack t (⟨c, .resolve Fn.all⟩ :: rest) with state := true } := by
  cases h.phase with
  | busy _ _ hst' | ready hst' => cases hst'.symm.trans hstate
  | idle _ hready hresolved hreal htodo =>
  have hbelow : rest.filterMap Activation.todo? = [] := by
    have ht := htodo t
    rw [todos, hst] at ht
    exact ht
  refine ⟨h.real, .busy t Fn.all rfl hready ?_ (fun f ↦ ?_) ?_ fun r hr ↦ ?_, fun r g hg ↦ ?_⟩
  · show s.resolved ++ Fn.all = Fn.all
    rw [hresolved]
    rfl
  · exact iff_of_true (hreal f) (Fn.mem_all f)
  · show (Function.update s.stack t _ t).filterMap Activation.todo? = [Fn.all]
    rw [Function.update_self]
    exact congrArg (Fn.all :: ·) hbelow
  · show (Function.update s.stack t _ r).filterMap Activation.todo? = []
    rw [Function.update_of_ne hr]
    exact htodo r
  · change g ∈ Function.update s.stack t _ r at hg
    by_cases hr : r = t
    · subst hr
      rw [Function.update_self] at hg
      rcases List.mem_cons.mp hg with rfl | hg
      · trivial
      · exact (h.knows r g (hst ▸ List.mem_cons_of_mem _ hg)).mono (fun _ hf ↦ hf) id
    · rw [Function.update_of_ne hr] at hg
      exact (h.knows r g hg).mono (fun _ hf ↦ hf) id

/-- Every step preserves the invariant. -/
theorem SymbolsInv.step {a : Action} (h : s.SymbolsInv dlsym dlvsym)
    (hs : Stepped dlsym dlvsym s a s') : s'.SymbolsInv dlsym dlvsym := by
  have top {t : Nat} {fr : Activation} {rest : List Activation} (hst : s.stack t = fr :: rest) :
      s.Knows fr := h.knows t fr (hst ▸ List.mem_cons_self)
  cases hs with
  | @call t c =>
      refine h.congr rfl (fun r ↦ ?_) fun r g hg ↦ ?_
      · by_cases hr : r = t
        · subst hr
          rw [todos, stack_setStack, Function.update_self]
          rfl
        · rw [todos, stack_setStack, Function.update_of_ne hr]
          rfl
      · by_cases hr : r = t
        · subst hr
          rw [stack_setStack, Function.update_self] at hg
          rcases List.mem_cons.mp hg with rfl | hg
          · exact Or.inr trivial
          · exact Or.inl hg
        · rw [stack_setStack, Function.update_of_ne hr] at hg
          exact Or.inl hg
  | unknown hst hreal => exact h.move hst rfl rfl rfl rfl trivial
  | known hst hreal => exact h.move hst rfl rfl rfl rfl hreal
  | lost hst hstate => exact h.move hst rfl rfl rfl rfl trivial
  | won hst hstate => exact h.won hst hstate
  | spun hst hready => exact h.move hst rfl rfl rfl rfl (h.phase.real_ne_none hready _)
  | spinning hst hready => exact h
  | abort hst hf => exact h.congr rfl (fun _ ↦ rfl) fun r g hg ↦ Or.inl hg
  | assign hst hf => exact h.assign hst hf
  | finish hst => exact h.finish hst
  | pass hst hpass => exact h.move hst rfl rfl rfl rfl (top hst :)
  | @scope t c rest hst hdepth hready =>
      refine h.move hst rfl rfl rfl ?_ ?_
      · cases c.logsFirst <;> rfl
      · cases c.logsFirst <;> exact hready
  | tell hst hlog => exact h.move hst rfl rfl rfl rfl (top hst :)
  | ignored hst hlog => exact h.afterEv hst rfl rfl rfl (top hst :)
  | hasRing hst hring => exact h.move hst rfl rfl rfl rfl (top hst :)
  | noRing hst hring => exact h.move hst rfl rfl rfl rfl (top hst :)
  | registered hst => exact h.move hst rfl rfl rfl rfl (top hst :)
  | commit hst => exact h.afterEv hst rfl rfl rfl (top hst :)
  | passed hst => exact h.ret hst rfl rfl rfl
  | realLast hst hc => exact h.ret hst rfl rfl rfl
  | realFirst hst hc => exact h.move hst rfl rfl rfl rfl (top hst :)
  | newRing hst => exact h.move hst rfl rfl rfl rfl (top hst :)
  | noMemory hst => exact h.afterEv hst rfl rfl rfl (top hst :)
  | setLog hready => exact h.congr rfl (fun _ ↦ rfl) fun r g hg ↦ Or.inl hg
  | backendMain hready hst htold => exact h.congr rfl (fun _ ↦ rfl) fun r g hg ↦ Or.inl hg

theorem init_symbolsInv : (init : Interposer F).SymbolsInv dlsym dlvsym where
  real := nofun
  phase := .idle rfl rfl rfl (fun _ ↦ rfl) fun _ ↦ rfl
  knows := fun _ _ h ↦ by cases h

/-- Every state of every run satisfies the invariant. -/
theorem SymbolsInv.exec {as : List Action} (h : s.SymbolsInv dlsym dlvsym)
    (hs : s.exec dlsym dlvsym as = some s') : s'.SymbolsInv dlsym dlvsym := by
  refine Run.run_inv ?_ h hs
  rintro a - s₁ s₂ h₁ h₂
  exact h₁.step (stepped_of_step h₂).2

/-! ## One thread assigns the pointers -/

/-- Who works on the pointers in a step: nobody, or a thread that enters or is in `init_once`. -/
theorem Stepped.todos_cases {a : Action} (hs : Stepped dlsym dlvsym s a s') :
    (s'.real = s.real ∧ ∀ r, s'.todos r = s.todos r) ∨
      ∃ t, a = .go t ∧ (∀ r, r ≠ t → s'.todos r = s.todos r) ∧
        (s.state = false ∧ s'.real = s.real ∨ s.todos t ≠ []) := by
  have turn {t : Nat} {fr : Activation} {rest : List Activation} (hst : s.stack t = fr :: rest)
      (top : Option Activation)
      (hstack : s'.stack = Function.update s.stack t (top.toList ++ rest)) (hfr : fr.todo? = none)
      (htop : ∀ g ∈ top, g.todo? = none) (hreal : s'.real = s.real) :
      s'.real = s.real ∧ ∀ r, s'.todos r = s.todos r :=
    ⟨hreal, todos_turn hst top hstack hfr htop⟩
  have move {t : Nat} {pc pc' : ActivationPc} {c : Call} {rest : List Activation}
      (hst : s.stack t = ⟨c, pc⟩ :: rest)
      (hstack : s'.stack = Function.update s.stack t (⟨c, pc'⟩ :: rest))
      (hpc : Activation.todo? ⟨c, pc⟩ = none) (hpc' : Activation.todo? ⟨c, pc'⟩ = none)
      (hreal : s'.real = s.real) : s'.real = s.real ∧ ∀ r, s'.todos r = s.todos r := by
    refine turn hst (some ⟨c, pc'⟩) hstack hpc (fun g hg ↦ ?_) hreal
    cases hg
    exact hpc'
  have other {t : Nat} {st : List Activation} (hstack : s'.stack = Function.update s.stack t st)
      (r : Nat) (hr : r ≠ t) : s'.todos r = s.todos r := by
    rw [todos, todos, hstack, Function.update_of_ne hr]
  have resolving {t : Nat} {c : Call} {todo : List Fn} {rest : List Activation}
      (hst : s.stack t = ⟨c, .resolve todo⟩ :: rest) : s.todos t ≠ [] := by
    rw [todos, hst]
    exact List.cons_ne_nil _ _
  cases hs with
  | @call t c =>
      refine Or.inl ⟨rfl, fun r ↦ ?_⟩
      by_cases hr : r = t
      · subst hr
        rw [todos, stack_setStack, Function.update_self]
        rfl
      · exact other rfl r hr
  | unknown hst | known hst | lost hst | spun hst | pass hst | tell hst | hasRing hst | noRing hst
  | registered hst | realFirst hst | newRing hst => exact Or.inl (move hst rfl rfl rfl rfl)
  | @scope t c rest hst hdepth hready =>
      refine Or.inl (move hst rfl rfl ?_ rfl)
      cases c.logsFirst <;> rfl
  | spinning | abort | setLog | backendMain => exact Or.inl ⟨rfl, fun _ ↦ rfl⟩
  | @won t c rest hst hstate => exact Or.inr ⟨t, rfl, other rfl, Or.inl ⟨hstate, rfl⟩⟩
  | @assign t c rest f fs p hst hf => exact Or.inr ⟨t, rfl, other rfl, Or.inr (resolving hst)⟩
  | @finish t c rest hst => exact Or.inr ⟨t, rfl, other rfl, Or.inr (resolving hst)⟩
  | ignored hst | commit hst | noMemory hst =>
      refine Or.inl (turn hst _ (stack_afterEv ..) rfl (fun g hg ↦ ?_) real_afterEv)
      obtain rfl := Activation.eq_of_mem_afterEv? hg
      rfl
  | passed hst | realLast hst =>
      exact Or.inl (turn hst none rfl rfl (fun _ hg ↦ by cases hg) rfl)

theorem Stepped.state_eq_true {a : Action} (hs : Stepped dlsym dlvsym s a s')
    (h : s.state = true) : s'.state = true := by
  cases hs with
  | won => rfl
  | ignored | commit | noMemory => exact (congrArg Prod.fst symbols_afterEv).trans h
  | _ => exact h

/-- No thread but `t` is to assign pointers, in this state and later. -/
def Resolver (t : Nat) (s : Interposer F) : Prop := s.state = true ∧ ∀ r, r ≠ t → s.todos r = []

theorem Resolver.step {a : Action} (h : s.Resolver t) (hs : Stepped dlsym dlvsym s a s') :
    s'.Resolver t := by
  obtain ⟨hstate, htodos⟩ := h
  refine ⟨hs.state_eq_true hstate, fun r hr ↦ ?_⟩
  rcases hs.todos_cases with ⟨-, hsame⟩ | ⟨t', -, hsame, hwork⟩
  · exact (hsame r).trans (htodos r hr)
  · obtain rfl : t' = t := by
      by_contra hne
      rcases hwork with ⟨hf, -⟩ | hwork
      · cases hf.symm.trans hstate
      · exact hwork (htodos t' hne)
    exact (hsame r hr).trans (htodos r hr)

/-- In this step a pointer is assigned, but not by the thread `t`. -/
def OtherAssigns (dlsym dlvsym : Fn → Option F) (t : Nat) (s : Interposer F) (a : Action) : Prop :=
  a ≠ .go t ∧ ∃ s', s.step dlsym dlvsym a = some s' ∧ s'.real ≠ s.real

theorem Resolver.not_otherAssigns (h : s.Resolver t) (a : Action) :
    ¬ s.OtherAssigns dlsym dlvsym t a := by
  rintro ⟨hne, s', hs, hreal⟩
  rcases (stepped_of_step hs).2.todos_cases with ⟨hsame, -⟩ | ⟨t', rfl, -, ⟨-, hsame⟩ | hwork⟩
  · exact hreal hsame
  · exact hreal hsame
  · refine hwork (h.2 t' fun he ↦ ?_)
    exact hne (congrArg Action.go he)

theorem Resolver.not_took (h : s.Resolver t) (as : List Action) :
    ¬ Run.Took (Interposer.step dlsym dlvsym) (OtherAssigns dlsym dlvsym t) s as := by
  rintro ⟨pre, a, post, s₁, rfl, hpre, hother⟩
  refine Resolver.not_otherAssigns (Run.run_inv ?_ h hpre) a hother
  rintro b - s₂ s₃ h₂ h₃
  exact h₂.step (stepped_of_step h₃).2

/-- In every run it is one thread that assigns the pointers: the first to come into `init_once`. -/
theorem exists_resolver (hinv : s.SymbolsInv dlsym dlvsym) {as : List Action}
    (hs : s.exec dlsym dlvsym as = some s') :
    ∃ t, ¬ Run.Took (Interposer.step dlsym dlvsym) (OtherAssigns dlsym dlvsym t) s as := by
  induction as generalizing s with
  | nil => exact ⟨0, Run.not_took_nil⟩
  | cons a as ih =>
      obtain ⟨s₁, h₁, h₂⟩ := Run.run_cons_eq_some.mp hs
      have hstep := (stepped_of_step h₁).2
      cases hinv.phase with
      | busy t todo hstate _ _ _ _ hothers => exact ⟨t, Resolver.not_took ⟨hstate, hothers⟩ _⟩
      | ready hstate _ _ _ htodo =>
          exact ⟨0, Resolver.not_took ⟨hstate, fun r _ ↦ htodo r⟩ _⟩
      | idle _ _ _ _ htodo =>
          -- nothing is assigned in the first step, and the thread that it is for may be chosen yet
          have hfirst (t : Nat) : ¬ s.OtherAssigns dlsym dlvsym t a := by
            rintro ⟨-, s₁', h₁', hreal⟩
            rcases (stepped_of_step h₁').2.todos_cases with ⟨hsame, -⟩ | ⟨t', -, -, hwork⟩
            · exact hreal hsame
            · exact hwork.elim (fun h ↦ hreal h.2) fun h ↦ h (htodo t')
          obtain ⟨t, ht⟩ := ih (hinv.step hstep) h₂
          refine ⟨t, fun htook ↦ ?_⟩
          exact ((Run.took_cons_iff h₁).mp htook).elim (hfirst t) ht

/-! ## Waiting for oneself -/

/-- The wrapper waits for the library to be ready, or is going to. -/
def Waits (s : Interposer F) (fr : Activation) : Prop :=
  match fr.pc with
  | .exchange | .spin => True
  | .enter => s.real fr.call.fn = none
  | _ => False

/-- `dlsym` has called a wrapper whose real function is not resolved yet. -/
def CallsBack (s : Interposer F) : Prop :=
  ∃ t above c todo below, s.stack t = above ++ ⟨c, .resolve todo⟩ :: below ∧
    ∃ fr ∈ above, s.Waits fr

theorem waits_congr (hreal : s'.real = s.real) : s'.Waits fr ↔ s.Waits fr := by
  unfold Waits
  rw [hreal]

theorem CallsBack.turn (h : s.CallsBack) (hst : s.stack t = fr :: rest) (top : Option Activation)
    (hstack : s'.stack = Function.update s.stack t (top.toList ++ rest))
    (hreal : s'.real = s.real) (hfr : s.Waits fr → ∃ g ∈ top, s.Waits g) : s'.CallsBack := by
  obtain ⟨r, above, c, todo, below, hr, w, hw, hwaits⟩ := h
  by_cases he : r = t
  · subst he
    cases above with
    | nil => cases hw
    | cons g above =>
        cases hst.symm.trans hr
        refine ⟨r, top.toList ++ above, c, todo, below, ?_, ?_⟩
        · rw [hstack, Function.update_self, List.append_assoc]
          rfl
        · rcases List.mem_cons.mp hw with rfl | hw
          · obtain ⟨g, hg, hwg⟩ := hfr hwaits
            exact ⟨g, List.mem_append_left _ (Option.mem_toList.mpr hg),
              (waits_congr hreal).mpr hwg⟩
          · exact ⟨w, List.mem_append_right _ hw, (waits_congr hreal).mpr hwaits⟩
  · refine ⟨r, above, c, todo, below, ?_, w, hw, (waits_congr hreal).mpr hwaits⟩
    rw [hstack, Function.update_of_ne he]
    exact hr

/-- A wrapper that does not wait goes on, or returns. -/
theorem CallsBack.move {pc : ActivationPc} (h : s.CallsBack) (hst : s.stack t = ⟨c, pc⟩ :: rest)
    (top : Option Activation) (hstack : s'.stack = Function.update s.stack t (top.toList ++ rest))
    (hreal : s'.real = s.real) (hpc : ¬ s.Waits ⟨c, pc⟩) : s'.CallsBack :=
  h.turn hst top hstack hreal fun hw ↦ absurd hw hpc

theorem CallsBack.afterEv {pc : ActivationPc} {rc : Int32} (h : s.CallsBack)
    (hst : s.stack t = ⟨c, pc⟩ :: rest) (hstack : s'.stack = s.stack) (hreal : s'.real = s.real)
    (hpc : ¬ s.Waits ⟨c, pc⟩) : (s'.afterEv t ⟨c, pc⟩ rest rc).CallsBack := by
  refine h.move hst (Activation.afterEv? ⟨c, pc⟩) ?_ ?_ hpc
  · rw [stack_afterEv, hstack]
  · exact real_afterEv.trans hreal

/-- The thread that assigns the pointers is in a wrapper that waits. -/
theorem CallsBack.busy (h : s.CallsBack) (hinv : s.SymbolsInv dlsym dlvsym) :
    s.state = true ∧ s.ready = false ∧
      ∀ t c todo rest, s.stack t ≠ ⟨c, .resolve todo⟩ :: rest := by
  obtain ⟨t, above, c, todo, below, hst, w, hw, -⟩ := h
  obtain ⟨hstate, hready, -, -, habove, -, hothers⟩ := hinv.phase.of_resolve hst
  refine ⟨hstate, hready, fun r c' todo' rest hr ↦ ?_⟩
  by_cases he : r = t
  · subst he
    cases above with
    | nil => cases hw
    | cons g above =>
        cases hst.symm.trans hr
        cases habove
  · have htodo := hothers r he
    rw [todos, hr] at htodo
    cases htodo

/-- A thread that waits for itself waits forever. -/
theorem CallsBack.step {a : Action} (h : s.CallsBack) (hinv : s.SymbolsInv dlsym dlvsym)
    (hs : Stepped dlsym dlvsym s a s') : s'.CallsBack := by
  obtain ⟨hstate, hready, hresolve⟩ := h.busy hinv
  cases hs with
  | @call t c =>
      obtain ⟨r, above, c', todo, below, hr, w, hw, hwaits⟩ := h
      by_cases he : r = t
      · subst he
        refine ⟨r, ⟨c, .enter⟩ :: above, c', todo, below, ?_, w, List.mem_cons_of_mem _ hw, hwaits⟩
        rw [stack_setStack, Function.update_self, hr]
        rfl
      · refine ⟨r, above, c', todo, below, ?_, w, hw, hwaits⟩
        rw [stack_setStack, Function.update_of_ne he]
        exact hr
  | @unknown t c rest hst hreal =>
      exact h.turn hst (some ⟨c, .exchange⟩) rfl rfl fun _ ↦ ⟨_, rfl, trivial⟩
  | @known t c rest hst hreal => exact h.move hst (some _) rfl rfl hreal
  | @lost t c rest hst hst' =>
      exact h.turn hst (some ⟨c, .spin⟩) rfl rfl fun _ ↦ ⟨_, rfl, trivial⟩
  | won hst hst' => cases hst'.symm.trans hstate
  | spun hst hr => cases hr.symm.trans hready
  | spinning hst hr => exact h
  | abort hst hf | assign hst hf | finish hst => exact absurd hst (hresolve _ _ _ _)
  | pass hst hpass => exact h.move hst (some _) rfl rfl id
  | scope hst hdepth hr => exact h.move hst (some _) rfl rfl id
  | tell hst hlog => exact h.move hst (some _) rfl rfl id
  | ignored hst hlog => exact h.afterEv hst rfl rfl id
  | hasRing hst hring => exact h.move hst (some _) rfl rfl id
  | noRing hst hring => exact h.move hst (some _) rfl rfl id
  | registered hst => exact h.move hst (some _) rfl rfl id
  | commit hst => exact h.afterEv hst rfl rfl id
  | passed hst => exact h.move hst none rfl rfl id
  | realLast hst hc => exact h.move hst none rfl rfl id
  | realFirst hst hc => exact h.move hst (some _) rfl rfl id
  | newRing hst => exact h.move hst (some _) rfl rfl id
  | noMemory hst => exact h.afterEv hst rfl rfl id
  | setLog | backendMain => exact h

theorem CallsBack.exec {as : List Action} (h : s.CallsBack) (hinv : s.SymbolsInv dlsym dlvsym)
    (hs : s.exec dlsym dlvsym as = some s') : s'.CallsBack := by
  refine (Run.run_inv (I := fun s ↦ s.CallsBack ∧ s.SymbolsInv dlsym dlvsym) ?_ ⟨h, hinv⟩ hs).1
  rintro a - s₁ s₂ ⟨hback, hinv⟩ h₂
  have hstep := (stepped_of_step h₂).2
  exact ⟨hback.step hinv hstep, hinv.step hstep⟩

/-! ## Becoming ready -/

/-- How far a wrapper is from setting `g_ready`, or from returning while it is not set. -/
def toGo (fr : Activation) : Nat :=
  match fr.pc with
  | .enter => 3
  | .shouldBypass => 2
  | .bypassed => 1
  | .resolve todo => todo.length + 3
  | _ => 0

/-- How far the wrappers of a thread are. -/
def left (t : Nat) (s : Interposer F) : Nat := ((s.stack t).map toGo).sum

theorem left_lt (hst : s.stack t = fr :: rest) (top : Option Activation)
    (hstack : s'.stack t = top.toList ++ rest) (hlt : (top.toList.map toGo).sum < toGo fr) :
    s'.left t < s.left t := by
  rw [left, left, hstack, hst, List.map_append, List.sum_append, List.map_cons, List.sum_cons]
  exact Nat.add_lt_add_right hlt _

/-- The thread `t` goes on by itself: its wrapper goes on, or the real function returns. -/
def goesOn (t : Nat) (go : Bool) : Action := if go then .go t else .realReturn t 0

theorem step_go (hab : s.aborted = false) (hst : s.stack t = fr :: rest) :
    s.step dlsym dlvsym (.go t) = s.go dlsym dlvsym t fr rest := by
  simp [Interposer.step, hab, innermost, hst]

theorem step_realReturn {rc : Int32} (hab : s.aborted = false) (hst : s.stack t = fr :: rest) :
    s.step dlsym dlvsym (.realReturn t rc) = s.realReturn t fr rest rc := by
  simp [Interposer.step, hab, innermost, hst]

/-- The thread `t` assigns the pointers and does not wait for itself. -/
def Resolves (s : Interposer F) (t : Nat) : Prop :=
  ∃ above c todo below, s.stack t = above ++ ⟨c, .resolve todo⟩ :: below ∧
    ∀ fr ∈ above, ¬ s.Waits fr

theorem Resolves.progress (hsym : ∀ f, Interposer.resolve dlsym dlvsym f ≠ none)
    (hinv : s.SymbolsInv dlsym dlvsym) (hab : s.aborted = false) (h : s.Resolves t) :
    ∃ b s', s.step dlsym dlvsym (goesOn t b) = some s' ∧ (s'.ready = true ∨ s'.Resolves t) ∧
      s'.left t < s.left t := by
  obtain ⟨above, c, todo, below, hst, hwaits⟩ := h
  obtain ⟨-, hready, -, -, habove, -, -⟩ := hinv.phase.of_resolve hst
  cases above with
  | nil =>
      cases todo with
      | nil =>
          refine ⟨true, _, step_go hab hst, Or.inl rfl,
            left_lt hst (some ⟨c, .shouldBypass⟩) (Function.update_self ..) ?_⟩
          simp [toGo]
      | cons f fs =>
          obtain ⟨p, hp⟩ := Option.ne_none_iff_exists'.mp (hsym f)
          refine ⟨true, { s.setStack t (⟨c, .resolve fs⟩ :: below) with
            real := Function.update s.real f (some p)
            resolved := s.resolved ++ [f] }, ?_, Or.inr ⟨[], c, fs, below, ?_, nofun⟩, ?_⟩
          · refine (step_go hab hst).trans ?_
            simp [go, hp]
          · exact Function.update_self ..
          · refine left_lt hst (some ⟨c, .resolve fs⟩) (Function.update_self ..) ?_
            simp [toGo]
  | cons g above =>
      have hst' : s.stack t = g :: (above ++ ⟨c, .resolve todo⟩ :: below) := hst
      have hknows : s.Knows g := hinv.knows t g (hst' ▸ List.mem_cons_self)
      have hg : ¬ s.Waits g := hwaits g List.mem_cons_self
      have hrest (fr : Activation) (hfr : fr ∈ above) : ¬ s.Waits fr :=
        hwaits fr (List.mem_cons_of_mem _ hfr)
      -- another position of the innermost wrapper, which does not wait there either
      have moved (pc : ActivationPc) (hpc : ¬ s.Waits ⟨g.call, pc⟩) :
          (s.setStack t (⟨g.call, pc⟩ :: (above ++ ⟨c, .resolve todo⟩ :: below))).Resolves t :=
        ⟨⟨g.call, pc⟩ :: above, c, todo, below, Function.update_self .., fun fr hfr ↦
          (List.mem_cons.mp hfr).elim (fun he ↦ he ▸ hpc) (hrest fr)⟩
      obtain ⟨gc, pc⟩ := g
      cases pc with
      | enter =>
          refine ⟨true, _, ?_, Or.inr (moved .shouldBypass id),
            left_lt hst' (some ⟨gc, .shouldBypass⟩) (Function.update_self ..) ?_⟩
          · rw [goesOn, if_pos rfl, step_go hab hst']
            simp [go, Option.isNone_eq_false_iff.mpr (Option.isSome_iff_ne_none.mpr hg)]
          · simp [toGo]
      | exchange | spin => exact absurd trivial hg
      | resolve todo' => cases habove
      | shouldBypass =>
          refine ⟨true, _, (step_go hab hst').trans (if_pos (Or.inr hready)),
            Or.inr (moved .bypassed id),
            left_lt hst' (some ⟨gc, .bypassed⟩) (Function.update_self ..) ?_⟩
          simp [toGo]
      | bypassed =>
          refine ⟨false, _, step_realReturn hab hst',
            Or.inr ⟨above, c, todo, below, Function.update_self .., hrest⟩,
            left_lt hst' none (Function.update_self ..) ?_⟩
          simp [toGo]
      | _ => cases hready.symm.trans hknows

end Interposer

open Interposer

/-- **Every call goes to the right function.**  In every state of every run: a wrapper, or
`backend_register_ring`, calls a real function only where its pointer is assigned, and it is what
`dlsym` has found; the pointers are assigned in the order of `init_once`, each once, by one and the
same thread; and when the library is ready they all are. -/
theorem initOnce_safe {F : Type} (dlsym dlvsym : Fn → Option F) (as : List Action)
    (s : Interposer F) (hs : (init : Interposer F).exec dlsym dlvsym as = some s) :
    (∀ t, ∀ fr ∈ s.stack t, ∀ f ∈ fr.calling, ∃ p, s.real f = some p ∧
      Interposer.resolve dlsym dlvsym f = some p) ∧
    s.resolved <+: Fn.all ∧ (∀ f, s.real f ≠ none ↔ f ∈ s.resolved) ∧
    (∃ t, ¬ Run.Took (Interposer.step dlsym dlvsym) (OtherAssigns dlsym dlvsym t) init as) ∧
    (s.ready = true → s.resolved = Fn.all) := by
  have hinv : s.SymbolsInv dlsym dlvsym := init_symbolsInv.exec hs
  refine ⟨fun t fr hfr f hf ↦ ?_, hinv.phase.resolved_isPrefix, hinv.phase.real_iff,
    exists_resolver init_symbolsInv hs, hinv.phase.resolved_eq⟩
  have hreal : s.real f ≠ none := by
    have hk := hinv.knows t fr hfr
    obtain ⟨c, pc⟩ := fr
    cases pc with
    | bypassed =>
        obtain rfl := List.mem_singleton.mp hf
        exact hk
    | real | registerRing rc => exact hinv.phase.real_ne_none hk f
    | _ => cases hf
  obtain ⟨p, hp⟩ := Option.ne_none_iff_exists'.mp hreal
  exact ⟨p, hp, hinv.real f p hp⟩

/-- A thread locks a mutex before the library is ready, and comes to the real function. -/
def firstLock : List Action := .call 0 (.mutexLock 8) :: List.replicate 26 (.go 0)

theorem initOnce_safe_firstLock : ∃ s : Interposer Nat,
    (init : Interposer Nat).exec (fun _ ↦ some 7) (fun _ ↦ none) firstLock = some s ∧
      s.stack 0 = [⟨.mutexLock 8, .real⟩] ∧ s.real .mutexLock = some 7 := by
  have hrun : ((init : Interposer Nat).exec (fun _ ↦ some 7) (fun _ ↦ none) firstLock).any
      (fun s ↦ s.stack 0 = [⟨.mutexLock 8, .real⟩]) = true := by decide
  obtain ⟨s, hs, hst⟩ := (Option.any_eq_true _ _).mp hrun
  have hst : s.stack 0 = [⟨.mutexLock 8, .real⟩] := of_decide_eq_true hst
  obtain ⟨p, hp, hsym⟩ := (initOnce_safe (fun _ ↦ some 7) (fun _ ↦ none) firstLock s hs).1 0
    ⟨.mutexLock 8, .real⟩ (hst ▸ List.mem_singleton_self _) .mutexLock (List.mem_singleton_self _)
  cases hsym
  exact ⟨s, hs, hst, hp⟩

end DeadLockDetect.Runtime
