import Mathlib.Logic.Relation

/-!
# Bounded runs of a loop body

A `while` loop is given by its body `f : σ → ρ ⊕ σ`.  As in the theory of
iteration, `Sum.inl r` means that the loop is left with the result `r`, and
`Sum.inr s` that it goes round again from the state `s`.

`run f n s` makes at most `n` turns and is structural in `n`, so a concrete loop
can be evaluated.  What a verification needs of it is the total-correctness rule
`exists_run_of_inv`: an invariant together with a variant that every further turn
decreases gives, for every bound above the variant, a run that ends, and ends in
the postcondition.

The names used here mention no program.
-/

namespace DeadLockDetect.Loop

universe u v

variable {σ : Type u} {ρ : Type v}

/-- Run the loop body `f` from `s` for at most `n` turns; `none` when the loop is
still running after them. -/
def run (f : σ → ρ ⊕ σ) : Nat → σ → Option ρ
  | 0, _ => none
  | n + 1, s => match f s with
    | .inl r => some r
    | .inr s' => run f n s'

variable {f : σ → ρ ⊕ σ}

theorem run_succ_inl {s : σ} {r : ρ} (h : f s = .inl r) (n : Nat) :
    run f (n + 1) s = some r := by
  simp only [run, h]

theorem run_succ_inr {s s' : σ} (h : f s = .inr s') (n : Nat) :
    run f (n + 1) s = run f n s' := by
  simp only [run, h]

/-- The invariant rule for a loop: what every turn preserves, and what leaving the
loop then establishes, holds of the result of every finished run. -/
theorem run_inv {I : σ → Prop} {Q : ρ → Prop}
    (hturn : ∀ s s', I s → f s = .inr s' → I s')
    (hexit : ∀ s r, I s → f s = .inl r → Q r)
    {n : Nat} {s : σ} {r : ρ} (hI : I s) (h : run f n s = some r) : Q r := by
  induction n generalizing s with
  | zero => cases h
  | succ n ih =>
      cases hs : f s with
      | inl r' =>
          rw [run_succ_inl hs] at h
          exact Option.some.inj h ▸ hexit s r' hI hs
      | inr s' =>
          rw [run_succ_inr hs] at h
          exact ih (hturn s s' hI hs) h

/-- **Total correctness of a loop.**  If the invariant `I` is preserved by every
turn, every turn decreases the variant `μ`, and leaving the loop establishes `Q`,
then every run whose bound exceeds the variant ends in `Q`. -/
theorem exists_run_of_inv {I : σ → Prop} {Q : ρ → Prop} (μ : σ → Nat)
    (hturn : ∀ s s', I s → f s = .inr s' → I s' ∧ μ s' < μ s)
    (hexit : ∀ s r, I s → f s = .inl r → Q r)
    {n : Nat} {s : σ} (hI : I s) (hn : μ s < n) : ∃ r, run f n s = some r ∧ Q r := by
  induction n generalizing s with
  | zero => omega
  | succ n ih =>
      cases hs : f s with
      | inl r => exact ⟨r, run_succ_inl hs n, hexit s r hI hs⟩
      | inr s' =>
          obtain ⟨hI', hμ⟩ := hturn s s' hI hs
          rw [run_succ_inr hs]
          exact ih hI' (by omega)

/-! ## Loops that are known to end -/

/-- The result of a loop that ends within `n` turns. -/
def result (f : σ → ρ ⊕ σ) (n : Nat) (s : σ) (h : (run f n s).isSome) : ρ := (run f n s).get h

/-- A loop ends if every turn decreases the variant. -/
theorem isSome_run (μ : σ → Nat) (hμ : ∀ s s', f s = .inr s' → μ s' < μ s) {n : Nat} {s : σ}
    (hn : μ s < n) : (run f n s).isSome := by
  have hrun : ∃ r, run f n s = some r ∧ True :=
    exists_run_of_inv μ (fun s s' _ h ↦ ⟨trivial, hμ s s' h⟩)
      (fun _ _ _ _ ↦ trivial) trivial hn
  obtain ⟨r, hr, -⟩ := hrun
  rw [hr]
  rfl

/-- The invariant rule for the result of a loop. -/
theorem result_of_inv {I : σ → Prop} {Q : ρ → Prop}
    (hturn : ∀ s s', I s → f s = .inr s' → I s')
    (hexit : ∀ s r, I s → f s = .inl r → Q r)
    {n : Nat} {s : σ} (h : (run f n s).isSome) (hI : I s) : Q (result f n s h) :=
  run_inv hturn hexit hI (Option.some_get h).symm

/-! ## The result without the bound -/

/-- The loop body `f` leaves the loop from `s` with the result `r`, after some number of
turns. -/
inductive Ends (f : σ → ρ ⊕ σ) : σ → ρ → Prop where
  | leave {s : σ} {r : ρ} (h : f s = .inl r) : Ends f s r
  | turn {s s' : σ} {r : ρ} (h : f s = .inr s') (hr : Ends f s' r) : Ends f s r

/-- A run that ends within its bound ends the way the loop does. -/
theorem Ends.of_run {n : Nat} {s : σ} {r : ρ} (h : run f n s = some r) : Ends f s r := by
  induction n generalizing s with
  | zero => cases h
  | succ n ih =>
      cases hs : f s with
      | inl r' =>
          rw [run_succ_inl hs] at h
          exact Option.some.inj h ▸ .leave hs
      | inr s' =>
          rw [run_succ_inr hs] at h
          exact .turn hs (ih h)

/-- A loop has one result. -/
theorem Ends.eq {s : σ} {r r' : ρ} (h : Ends f s r) (h' : Ends f s r') : r = r' := by
  induction h with
  | leave hs =>
      cases h' with
      | leave hs' => exact Sum.inl.inj (hs.symm.trans hs')
      | turn hs' _ => cases hs.symm.trans hs'
  | turn hs _ ih =>
      cases h' with
      | leave hs' => cases hs.symm.trans hs'
      | turn hs' hr' => exact ih (Sum.inr.inj (hs.symm.trans hs') ▸ hr')

theorem ends_result {n : Nat} {s : σ} (h : (run f n s).isSome) : Ends f s (result f n s h) :=
  .of_run (Option.some_get h).symm

/-! ## Loops that do the same -/

/-- A loop body that does on the images of the states what `f` does on the states ends in the
image of the result. -/
theorem Ends.map {σ' : Type*} {ρ' : Type*} {f' : σ' → ρ' ⊕ σ'} {φ : σ → σ'} {ψ : ρ → ρ'}
    (hf : ∀ s, f' (φ s) = (f s).map ψ φ) {s : σ} {r : ρ} (h : Ends f s r) :
    Ends f' (φ s) (ψ r) := by
  induction h with
  | leave hs => exact .leave (by rw [hf, hs]; rfl)
  | turn hs _ ih => exact .turn (by rw [hf, hs]; rfl) ih

/-- The results of loops that do the same do not depend on the bounds on their turns. -/
theorem result_map {σ' : Type*} {ρ' : Type*} {f' : σ' → ρ' ⊕ σ'} {φ : σ → σ'} {ψ : ρ → ρ'}
    (hf : ∀ s, f' (φ s) = (f s).map ψ φ) {m n : Nat} {s : σ} (h : (run f n s).isSome)
    (h' : (run f' m (φ s)).isSome) : result f' m (φ s) h' = ψ (result f n s h) :=
  (ends_result h').eq ((ends_result h).map hf)

end DeadLockDetect.Loop
