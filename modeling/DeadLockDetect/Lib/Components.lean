import Mathlib.Data.List.Basic

/-!
# Folds whose state has components

A step `step s e` that changes the component of `owner e` only, and in a way that depends on that
component only, acts on each component by itself: after a list of events a component is what the
events of its owner have made of it, however the events of the owners are interleaved
(`view_foldl`).

An event in the list of one owner is an event of the whole list, with the owner's earlier events
among the earlier ones (`ofOwner_eq_append_cons_iff`).
-/

namespace DeadLockDetect.Components

variable {σ ε ι β : Type*} [DecidableEq ι]

/-- The events of one owner. -/
def ofOwner (owner : ε → ι) (es : List ε) (i : ι) : List ε := es.filter fun e ↦ owner e = i

section

variable {owner : ε → ι} {es fs : List ε} {i : ι}

@[simp] theorem ofOwner_nil : ofOwner owner [] i = [] := rfl

@[simp] theorem ofOwner_append :
    ofOwner owner (es ++ fs) i = ofOwner owner es i ++ ofOwner owner fs i :=
  List.filter_append ..

theorem ofOwner_cons (e : ε) : ofOwner owner (e :: es) i =
    if i = owner e then e :: ofOwner owner es i else ofOwner owner es i := by
  by_cases h : i = owner e
  · simp [ofOwner, h]
  · simp [ofOwner, h, Ne.symm h]

theorem ofOwner_concat (e : ε) : ofOwner owner (es ++ [e]) i =
    if i = owner e then ofOwner owner es i ++ [e] else ofOwner owner es i := by
  rw [ofOwner_append]
  by_cases h : i = owner e
  · simp [ofOwner, h]
  · simp [ofOwner, h, Ne.symm h]

theorem mem_ofOwner {e : ε} : e ∈ ofOwner owner es i ↔ e ∈ es ∧ owner e = i := by
  simp [ofOwner]

@[simp] theorem ofOwner_ofOwner : ofOwner owner (ofOwner owner es i) i = ofOwner owner es i := by
  simp [ofOwner, List.filter_filter]

/-- The events of one owner around one of them. -/
theorem ofOwner_eq_append_cons_iff {e : ε} {p q : List ε} :
    ofOwner owner es i = p ++ e :: q ↔ ∃ l m, es = l ++ e :: m ∧ owner e = i ∧
      ofOwner owner l i = p ∧ ofOwner owner m i = q := by
  constructor
  · intro h
    obtain ⟨l, m, rfl, rfl, hm⟩ := List.filter_eq_append_iff.mp h
    obtain ⟨l', m', rfl, hl', he, rfl⟩ := List.filter_eq_cons_iff.mp hm
    refine ⟨l ++ l', m', ?_, of_decide_eq_true he, ?_, rfl⟩
    · rw [List.append_assoc]
    · rw [ofOwner_append, show ofOwner owner l' i = [] from List.filter_eq_nil_iff.mpr hl',
        List.append_nil]
      rfl
  · rintro ⟨l, m, rfl, he, rfl, rfl⟩
    rw [ofOwner_append, ofOwner_cons, if_pos he.symm]

end

variable {step : σ → ε → σ} {owner : ε → ι} {upd : β → ε → β} {I : σ → Prop}
  {es fs : List ε} {s : σ}

/-- A component after a list of events. -/
theorem view_foldl (view : σ → ι → β) (hinv : ∀ s, ∀ e ∈ es, I s → I (step s e))
    (hview : ∀ s, ∀ e ∈ es, I s → ∀ i,
      view (step s e) i = if i = owner e then upd (view s i) e else view s i)
    (hs : I s) (i : ι) :
    view (es.foldl step s) i = (ofOwner owner es i).foldl upd (view s i) := by
  induction es generalizing s with
  | nil => rfl
  | cons e es ih =>
      have hrest := ih (fun s e he ↦ hinv s e (List.mem_cons_of_mem _ he))
        (fun s e he ↦ hview s e (List.mem_cons_of_mem _ he)) (hinv s e List.mem_cons_self hs)
      rw [List.foldl_cons, hrest, hview s e List.mem_cons_self hs, ofOwner_cons]
      by_cases hi : i = owner e
      · rw [if_pos hi, if_pos hi, List.foldl_cons]
      · rw [if_neg hi, if_neg hi]

end DeadLockDetect.Components
