import Mathlib.Data.Option.Basic
import Mathlib.Order.WellFounded

/-!
# Runs of a machine

A machine is given by `step : σ → α → Option σ`: what an action does to a state, or `none` if it is
not possible there.  `run step s as` performs the actions `as` one after the other.

The invariant rule is `run_inv`; the actions it quantifies over are those of the run only, so that
it also proves that a run leaves something alone.  `run_inv_of_not_took` is the rule for runs that
do without certain steps.  `run_iff` is the history rule: what comes true in certain steps only,
and stays true, holds in the end exactly when it did in the beginning or such a step was taken.
`exists_run_of_progress` and `exists_run_of_bound` are the rules for what some run reaches,
`run_countP` is the one for how often certain actions are taken, and `run_filterMap` the one for
what a run does to a component.
-/

namespace DeadLockDetect.Run

universe u v

variable {σ : Type u} {α : Type v} {step : σ → α → Option σ} {s s' : σ}

/-- Perform the actions one after the other. -/
def run (step : σ → α → Option σ) (s : σ) : List α → Option σ
  | [] => some s
  | a :: as => (step s a).bind fun s' ↦ run step s' as

theorem run_cons_eq_some {a : α} {as : List α} :
    run step s (a :: as) = some s' ↔ ∃ s₁, step s a = some s₁ ∧ run step s₁ as = some s' :=
  Option.bind_eq_some_iff

theorem run_append (as bs : List α) :
    run step s (as ++ bs) = (run step s as).bind fun s' ↦ run step s' bs := by
  induction as generalizing s with
  | nil => rfl
  | cons a as ih =>
      rw [List.cons_append, run, run, Option.bind_assoc]
      exact congrArg _ (funext fun s' ↦ ih)

/-- A run of the actions that `f` picks out. -/
theorem run_map {β : Type*} (f : β → α) (bs : List β) :
    run step s (bs.map f) = run (fun s b ↦ step s (f b)) s bs := by
  induction bs generalizing s with
  | nil => rfl
  | cons b bs ih => exact congrArg _ (funext fun s' ↦ ih)

/-- **The projection rule.**  Where every step is a step of a component, or leaves it alone, a run
is a run of the component. -/
theorem run_filterMap {τ β : Type*} {step' : τ → β → Option τ} (f : σ → τ) (act : α → Option β)
    {as : List α}
    (hstep : ∀ s a s', step s a = some s' → run step' (f s) (act a).toList = some (f s'))
    (hs : run step s as = some s') : run step' (f s) (as.filterMap act) = some (f s') := by
  induction as generalizing s with
  | nil =>
      cases hs
      rfl
  | cons a as ih =>
      obtain ⟨s₁, h₁, h₂⟩ := run_cons_eq_some.mp hs
      have hcons : (a :: as).filterMap act = (act a).toList ++ as.filterMap act := by
        cases h : act a with
        | none => exact List.filterMap_cons_none h
        | some b => exact List.filterMap_cons_some h
      rw [hcons, run_append, hstep s a s₁ h₁, Option.bind_some]
      exact ih h₂

/-- What every step of the run preserves, the run preserves. -/
theorem run_inv {I : σ → Prop} {as : List α}
    (hstep : ∀ a ∈ as, ∀ s s', I s → step s a = some s' → I s') (h : I s)
    (hs : run step s as = some s') : I s' := by
  induction as generalizing s with
  | nil =>
      cases hs
      exact h
  | cons a as ih =>
      obtain ⟨s₁, h₁, h₂⟩ := run_cons_eq_some.mp hs
      refine ih (fun b hb ↦ hstep b (List.mem_cons_of_mem _ hb)) ?_ h₂
      exact hstep a List.mem_cons_self s s₁ h h₁

/-- The step `q` was taken in the run. -/
def Took (step : σ → α → Option σ) (q : σ → α → Prop) (s : σ) (as : List α) : Prop :=
  ∃ pre a post s₁, as = pre ++ a :: post ∧ run step s pre = some s₁ ∧ q s₁ a

theorem not_took_nil {q : σ → α → Prop} : ¬ Took step q s [] := by
  rintro ⟨pre, a, post, s₁, he, -⟩
  cases pre <;> cases he

theorem took_cons_iff {q : σ → α → Prop} {s₁ : σ} {a : α} {as : List α} (h : step s a = some s₁) :
    Took step q s (a :: as) ↔ q s a ∨ Took step q s₁ as := by
  constructor
  · rintro ⟨pre, b, post, s₂, he, hpre, hq⟩
    cases pre with
    | nil =>
        cases he
        cases hpre
        exact Or.inl hq
    | cons c pre =>
        cases he
        obtain ⟨s₃, h₃, hpre⟩ := run_cons_eq_some.mp hpre
        cases h.symm.trans h₃
        exact Or.inr ⟨pre, b, post, s₂, rfl, hpre, hq⟩
  · rintro (hq | ⟨pre, b, post, s₂, rfl, hpre, hq⟩)
    · exact ⟨[], a, as, s, rfl, rfl, hq⟩
    · exact ⟨a :: pre, b, post, s₂, rfl, run_cons_eq_some.mpr ⟨s₁, h, hpre⟩, hq⟩

/-- A run in which no action is one of the steps `q`. -/
theorem not_took_of_forall {q : σ → α → Prop} {as : List α} (h : ∀ a ∈ as, ∀ s, ¬ q s a) :
    ¬ Took step q s as := by
  rintro ⟨pre, a, post, s₁, rfl, -, hq⟩
  exact h a (List.mem_append_right pre List.mem_cons_self) s₁ hq

/-- Whether a run of these actions takes no step on which `b` holds; it can be evaluated. -/
def avoids (step : σ → α → Option σ) (b : σ → α → Bool) (s : σ) : List α → Bool
  | [] => true
  | a :: as => !b s a && (step s a).all fun s' ↦ avoids step b s' as

/-- **The evaluation rule.**  A run takes none of the steps `q` if it avoids `b`, which holds of them
in every state that a run without these steps comes to. -/
theorem not_took_of_avoids {I : σ → Prop} {q : σ → α → Prop} {b : σ → α → Bool} {as : List α}
    (hstep : ∀ a s s', I s → ¬ q s a → step s a = some s' → I s')
    (hq : ∀ s a, I s → q s a → b s a = true) (hI : I s) (h : avoids step b s as = true) :
    ¬ Took step q s as := by
  induction as generalizing s with
  | nil => exact not_took_nil
  | cons a as ih =>
      rw [avoids, Bool.and_eq_true, Bool.not_eq_true'] at h
      have hno : ¬ q s a := fun hqs ↦ by cases h.1.symm.trans (hq s a hI hqs)
      rintro ⟨pre, c, post, s₁, he, hpre, hqs⟩
      cases pre with
      | nil =>
          cases he
          cases hpre
          exact hno hqs
      | cons d pre =>
          cases he
          obtain ⟨s₂, h₂, hpre⟩ := run_cons_eq_some.mp hpre
          rw [h₂, Option.all_some] at h
          exact ih (hstep a s s₂ hI hno h₂) h.2 ⟨pre, c, post, s₁, rfl, hpre, hqs⟩

/-- What becomes true in the steps `q` only holds after the run exactly when it held before or
such a step was taken. -/
theorem run_iff {I P : σ → Prop} {q : σ → α → Prop} {as : List α}
    (hinv : ∀ a s s', I s → step s a = some s' → I s')
    (hstep : ∀ a s s', I s → step s a = some s' → (P s' ↔ P s ∨ q s a)) (h : I s)
    (hs : run step s as = some s') : P s' ↔ P s ∨ Took step q s as := by
  induction as generalizing s with
  | nil =>
      cases hs
      exact (or_iff_left not_took_nil).symm
  | cons a as ih =>
      obtain ⟨s₁, h₁, h₂⟩ := run_cons_eq_some.mp hs
      rw [ih (hinv a s s₁ h h₁) h₂, hstep a s s₁ h h₁, took_cons_iff h₁, or_assoc]

/-- What every step but the steps `q` preserves, a run without such a step preserves. -/
theorem run_inv_of_not_took {I : σ → Prop} {q : σ → α → Prop} {as : List α}
    (hstep : ∀ a s s', I s → ¬ q s a → step s a = some s' → I s') (h : I s)
    (hs : run step s as = some s') (hq : ¬ Took step q s as) : I s' := by
  induction as generalizing s with
  | nil =>
      cases hs
      exact h
  | cons a as ih =>
      obtain ⟨s₁, h₁, h₂⟩ := run_cons_eq_some.mp hs
      rw [took_cons_iff h₁, not_or] at hq
      exact ih (hstep a s s₁ h hq.1 h₁) h₂ hq.2

/-- **The progress rule.**  Where the goal is not reached yet, some step keeps the invariant and
decreases the measure; so some run reaches the goal. -/
theorem exists_run_of_progress {β : Type*} [LT β] [WellFoundedLT β] {I P : σ → Prop} (μ : σ → β)
    (hstep : ∀ s, I s → ¬ P s → ∃ a s', step s a = some s' ∧ I s' ∧ μ s' < μ s) (h : I s) :
    ∃ as s', run step s as = some s' ∧ I s' ∧ P s' := by
  induction hμ : μ s using WellFoundedLT.induction generalizing s with
  | ind m ih =>
      by_cases hP : P s
      · exact ⟨[], s, rfl, h, hP⟩
      · obtain ⟨a, s₁, h₁, hI, hlt⟩ := hstep s h hP
        obtain ⟨as, s', hs, hI', hP'⟩ := ih (μ s₁) (hμ ▸ hlt) hI rfl
        exact ⟨a :: as, s', run_cons_eq_some.mpr ⟨s₁, h₁, hs⟩, hI', hP'⟩

/-- **The progress rule for a bound.**  Where the goal is not reached yet, some run keeps the
invariant and decreases the bound; so some run reaches the goal. -/
theorem exists_run_of_bound {I : Nat → σ → Prop} {P : σ → Prop} {m : Nat}
    (hrun : ∀ m s, I m s → ¬ P s → ∃ as s' m', run step s as = some s' ∧ I m' s' ∧ m' < m)
    (h : I m s) : ∃ as s', run step s as = some s' ∧ P s' := by
  induction m using Nat.strong_induction_on generalizing s with
  | h m ih =>
      by_cases hP : P s
      · exact ⟨[], s, rfl, hP⟩
      · obtain ⟨as, s₁, m', h₁, hI, hlt⟩ := hrun m s h hP
        obtain ⟨bs, s', h₂, hP'⟩ := ih m' hlt hI
        refine ⟨as ++ bs, s', ?_, hP'⟩
        rw [run_append, h₁, Option.bind_some]
        exact h₂

/-- **The counting rule.**  Where the actions `p` decrease the bound and the others keep it, a run
has no more of them than the bound says. -/
theorem run_countP {I : Nat → σ → Prop} {p : α → Bool} {m : Nat} {as : List α}
    (hstep : ∀ m s a s', I m s → step s a = some s' →
      ∃ m', I m' s' ∧ m' + (if p a then 1 else 0) ≤ m)
    (h : I m s) (hs : run step s as = some s') : ∃ m', I m' s' ∧ m' + as.countP p ≤ m := by
  induction as generalizing m s with
  | nil =>
      cases hs
      exact ⟨m, h, le_rfl⟩
  | cons a as ih =>
      obtain ⟨s₁, h₁, h₂⟩ := run_cons_eq_some.mp hs
      obtain ⟨m₁, hI, hle⟩ := hstep m s a s₁ h h₁
      obtain ⟨m', hI', hle'⟩ := ih hI h₂
      refine ⟨m', hI', ?_⟩
      rw [List.countP_cons]
      omega

end DeadLockDetect.Run
