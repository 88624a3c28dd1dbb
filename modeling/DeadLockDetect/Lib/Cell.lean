import Mathlib.Data.List.Basic
import Mathlib.Data.List.TakeDrop
import Mathlib.Order.Basic

/-!
# Variables with one writer and one reader

An atomic variable that one party stores to and another party loads from.  The
writer sees its own last store; the reader sees *some* value that has been stored,
possibly a stale one, but never one older than a value it has already seen.

What the reader saw last and what has been stored since are therefore all that
matters of the history of the variable, and this is what a `Cell` holds.  Values
stored before the last one seen are gone for good.

For a variable that only grows, `Cell.Mono` says that the values still to be seen
come in order; then what the reader sees is a lower bound of what the writer has
written, and a bound that improves with every load.
-/

namespace DeadLockDetect

universe u v

/-- A variable with one writer and one reader. -/
structure Cell (α : Type u) where
  /-- The value the reader loaded last. -/
  seen : α
  /-- The values stored after it, the latest last. -/
  unseen : List α
deriving DecidableEq

namespace Cell

variable {α : Type u} {β : Type v}

/-- The values that a load can return. -/
def values (c : Cell α) : List α := c.seen :: c.unseen

/-- The last value stored: what the writer itself reads. -/
def latest (c : Cell α) : α := c.unseen.getLastD c.seen

/-- Store a value. -/
def store (c : Cell α) (x : α) : Cell α := { c with unseen := c.unseen ++ [x] }

/-- Load the value that was stored `i` stores after the one seen last. -/
def load (c : Cell α) (i : Nat) : Option (Cell α) :=
  match c.values.drop i with
  | [] => none
  | x :: xs => some ⟨x, xs⟩

/-- The cell after its reader synchronised with its writer. -/
def sync (c : Cell α) : Cell α := ⟨c.latest, []⟩

/-- The same cell under another reading of its values. -/
def map (f : α → β) (c : Cell α) : Cell β := ⟨f c.seen, c.unseen.map f⟩

@[simp] theorem seen_mem (c : Cell α) : c.seen ∈ c.values := List.mem_cons_self

@[simp] theorem latest_store (c : Cell α) (x : α) : (c.store x).latest = x := by
  rw [store, latest, List.getLastD_concat]

theorem values_store (c : Cell α) (x : α) : (c.store x).values = c.values ++ [x] := rfl

theorem mem_values_store {c : Cell α} {x y : α} :
    y ∈ (c.store x).values ↔ y ∈ c.values ∨ y = x := by
  rw [values_store, List.mem_append, List.mem_singleton]

theorem latest_eq_getLast (c : Cell α) :
    c.latest = c.values.getLast (List.cons_ne_nil c.seen c.unseen) := by
  exact (List.getLast_eq_getLastD _).symm

@[simp] theorem latest_mem (c : Cell α) : c.latest ∈ c.values := by
  rw [latest_eq_getLast]
  exact List.getLast_mem _

/-- A load can return the last value stored. -/
theorem load_unseen_length (c : Cell α) : c.load c.unseen.length = some c.sync := by
  have hdrop : c.values.drop c.unseen.length = [c.latest] := by
    rw [latest_eq_getLast]
    exact List.drop_length_sub_one (List.cons_ne_nil c.seen c.unseen)
  rw [load, hdrop]
  rfl

/-- Where all has been seen, a load changes nothing. -/
theorem eq_of_load {c c' : Cell α} {i : Nat} (hu : c.unseen = []) (h : c.load i = some c') :
    c' = c := by
  obtain ⟨x, xs⟩ := c
  cases hu
  cases i with
  | zero =>
      cases h
      rfl
  | succ i =>
      rw [load, values, List.drop_succ_cons, List.drop_nil] at h
      cases h

/-- What is left to be seen after a load. -/
theorem load_eq_some {c c' : Cell α} {i : Nat} (h : c.load i = some c') :
    ∃ old, c.values = old ++ c'.values := by
  refine ⟨c.values.take i, ?_⟩
  unfold load at h
  cases hd : c.values.drop i with
  | nil =>
      rw [hd] at h
      cases h
  | cons x xs =>
      rw [hd] at h
      cases h
      show c.values = c.values.take i ++ (x :: xs)
      rw [← hd, List.take_append_drop]

theorem mem_of_mem_load {c c' : Cell α} {i : Nat} (h : c.load i = some c') {x : α}
    (hx : x ∈ c'.values) : x ∈ c.values := by
  obtain ⟨old, ho⟩ := load_eq_some h
  rw [ho]
  exact List.mem_append_right old hx

/-- A load returns a value that was stored. -/
theorem seen_mem_of_load {c c' : Cell α} {i : Nat} (h : c.load i = some c') :
    c'.seen ∈ c.values :=
  mem_of_mem_load h c'.seen_mem

/-- A load changes nothing for the writer. -/
theorem latest_load {c c' : Cell α} {i : Nat} (h : c.load i = some c') :
    c'.latest = c.latest := by
  obtain ⟨old, ho⟩ := load_eq_some h
  have hne : c'.values ≠ [] := List.cons_ne_nil c'.seen c'.unseen
  rw [latest_eq_getLast, latest_eq_getLast]
  simp only [ho, List.getLast_append_of_ne_nil _ hne]

@[simp] theorem map_seen (f : α → β) (c : Cell α) : (c.map f).seen = f c.seen := rfl

@[simp] theorem values_map (f : α → β) (c : Cell α) : (c.map f).values = c.values.map f := rfl

theorem map_store (f : α → β) (c : Cell α) (x : α) :
    (c.store x).map f = (c.map f).store (f x) := by
  rw [map, store, map, store, List.map_append, List.map_singleton]

@[simp] theorem latest_map (f : α → β) (c : Cell α) : (c.map f).latest = f c.latest := by
  rw [latest_eq_getLast, latest_eq_getLast]
  simp only [values_map, List.getLast_map]

theorem sync_map (f : α → β) (c : Cell α) : (c.map f).sync = c.sync.map f := by
  rw [sync, latest_map]
  rfl

/-- A load of the translated cell is the translation of a load. -/
theorem load_map {f : α → β} {c : Cell α} {i : Nat} {d : Cell β}
    (h : (c.map f).load i = some d) : ∃ c', c.load i = some c' ∧ d = c'.map f := by
  unfold load at h ⊢
  rw [values_map, ← List.map_drop] at h
  cases hd : c.values.drop i with
  | nil =>
      rw [hd] at h
      cases h
  | cons x xs =>
      rw [hd] at h
      cases h
      exact ⟨⟨x, xs⟩, rfl, rfl⟩

/-! ## Counters -/

variable [Preorder α]

/-- The values to be seen never decrease. -/
def Mono (c : Cell α) : Prop := c.values.Pairwise (· ≤ ·)

/-- The reader is never ahead of the values it has yet to see. -/
theorem Mono.seen_le {c : Cell α} (h : c.Mono) {x : α} (hx : x ∈ c.values) : c.seen ≤ x := by
  rcases List.mem_cons.mp hx with rfl | hx
  · exact le_refl _
  · exact (List.pairwise_cons.mp h).1 x hx

/-- No value is ahead of the last one stored. -/
theorem Mono.le_latest {c : Cell α} (h : c.Mono) {x : α} (hx : x ∈ c.values) :
    x ≤ c.latest := by
  have hne : c.values ≠ [] := List.cons_ne_nil c.seen c.unseen
  rw [latest_eq_getLast]
  have hsplit := List.dropLast_append_getLast hne
  rw [Mono, ← hsplit] at h
  rw [← hsplit] at hx
  rcases List.mem_append.mp hx with hx | hx
  · exact (List.pairwise_append.mp h).2.2 x hx _ (List.mem_singleton.mpr rfl)
  · rw [List.mem_singleton.mp hx]

theorem Mono.seen_le_latest {c : Cell α} (h : c.Mono) : c.seen ≤ c.latest :=
  h.le_latest c.seen_mem

/-- Storing a value that is not below the last one. -/
theorem Mono.store {c : Cell α} (h : c.Mono) {x : α} (hx : c.latest ≤ x) : (c.store x).Mono := by
  rw [Mono, values_store]
  refine List.pairwise_append.mpr ⟨h, List.pairwise_singleton _ x, fun y hy z hz ↦ ?_⟩
  rw [List.mem_singleton.mp hz]
  exact (h.le_latest hy).trans hx

theorem Mono.load {c c' : Cell α} {i : Nat} (h : c.Mono) (hl : c.load i = some c') :
    c'.Mono := by
  obtain ⟨old, ho⟩ := load_eq_some hl
  rw [Mono, ho] at h
  exact (List.pairwise_append.mp h).2.1

/-- A load never goes back. -/
theorem Mono.seen_le_load {c c' : Cell α} {i : Nat} (h : c.Mono) (hl : c.load i = some c') :
    c.seen ≤ c'.seen :=
  h.seen_le (seen_mem_of_load hl)

theorem Mono.sync (c : Cell α) : c.sync.Mono := List.pairwise_singleton _ c.latest

end Cell

end DeadLockDetect
