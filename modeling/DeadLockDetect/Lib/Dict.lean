import Mathlib.Data.List.Nodup
import Mathlib.Data.List.Basic

/-!
# Insertion-ordered dictionaries

`Dict κ ν` is a finite map that remembers the order in which its keys were first
inserted: overwriting a key keeps its place, a new key goes to the end.  The
invariant that no key occurs twice is a field, so a dictionary with a duplicate
key cannot be built.

`Dict.map` renames the keys by an injective function; looking up, storing and filtering commute
with it.

`Mathlib.Data.List.AList` has the same invariant but moves an inserted key to the
front, so iterating over it does not visit the keys in insertion order.
-/

namespace DeadLockDetect

universe u v

/-- A finite map with its keys in order of first insertion. -/
structure Dict (κ : Type u) (ν : Type v) where
  /-- The entries, oldest key first. -/
  entries : List (κ × ν)
  /-- No key occurs twice. -/
  nodup : (entries.map Prod.fst).Nodup

namespace Dict

variable {κ : Type u} {ν : Type v} [DecidableEq κ]

/-- The dictionary without entries. -/
def empty : Dict κ ν := ⟨[], List.nodup_nil⟩

/-- The keys, in order of first insertion. -/
def keys (d : Dict κ ν) : List κ := d.entries.map Prod.fst

/-- The number of entries. -/
def size (d : Dict κ ν) : Nat := d.entries.length

/-- The value stored under a key. -/
def get? (d : Dict κ ν) (k : κ) : Option ν := d.entries.lookup k

/-- The value stored under a key, or a default. -/
def getD (d : Dict κ ν) (k : κ) (default : ν) : ν := (d.get? k).getD default

/-- `k ∈ d` when `d` has an entry under `k`. -/
instance : Membership κ (Dict κ ν) := ⟨fun d k ↦ k ∈ d.keys⟩

omit [DecidableEq κ] in
theorem mem_def {d : Dict κ ν} {k : κ} : k ∈ d ↔ k ∈ d.keys := Iff.rfl

instance (d : Dict κ ν) (k : κ) : Decidable (k ∈ d) := inferInstanceAs (Decidable (k ∈ d.keys))

/-- Overwrite the entry under `k`, or append one. -/
def setEntries (k : κ) (v : ν) : List (κ × ν) → List (κ × ν)
  | [] => [(k, v)]
  | e :: es => if e.1 = k then (k, v) :: es else e :: setEntries k v es

theorem lookup_cons_ite (k : κ) (e : κ × ν) (es : List (κ × ν)) :
    (e :: es).lookup k = if k = e.1 then some e.2 else es.lookup k := by
  by_cases h : k = e.1
  · rw [if_pos h, List.lookup_cons, beq_iff_eq.mpr h]
  · rw [if_neg h, List.lookup_cons, beq_false_of_ne h]

theorem map_fst_setEntries (k : κ) (v : ν) (es : List (κ × ν)) :
    (setEntries k v es).map Prod.fst =
      if k ∈ es.map Prod.fst then es.map Prod.fst else es.map Prod.fst ++ [k] := by
  induction es with
  | nil => simp [setEntries]
  | cons e es ih =>
      by_cases he : e.1 = k
      · simp [setEntries, he]
      · have hne : k ≠ e.1 := fun h ↦ he h.symm
        rw [setEntries, if_neg he, List.map_cons, ih, List.map_cons]
        by_cases hk : k ∈ es.map Prod.fst
        · rw [if_pos hk, if_pos (List.mem_cons_of_mem _ hk)]
        · rw [if_neg hk, if_neg (by simp only [List.mem_cons, not_or]; exact ⟨hne, hk⟩)]
          rfl

theorem lookup_setEntries (k : κ) (v : ν) (es : List (κ × ν)) (k' : κ) :
    (setEntries k v es).lookup k' = if k' = k then some v else es.lookup k' := by
  induction es with
  | nil => rw [setEntries, lookup_cons_ite]
  | cons e es ih =>
      by_cases he : e.1 = k
      · subst he
        rw [setEntries, if_pos rfl, lookup_cons_ite, lookup_cons_ite]
        by_cases h : k' = e.1 <;> simp [h]
      · rw [setEntries, if_neg he, lookup_cons_ite, lookup_cons_ite, ih]
        by_cases h : k' = e.1
        · simp [h, he]
        · simp [h]

/-- `d[k] = v`. -/
def set (d : Dict κ ν) (k : κ) (v : ν) : Dict κ ν where
  entries := setEntries k v d.entries
  nodup := by
    rw [map_fst_setEntries]
    split
    · exact d.nodup
    · rename_i h
      exact List.nodup_append.mpr ⟨d.nodup, by simp, by
        rintro a ha b hb rfl
        exact h (List.mem_singleton.mp hb ▸ ha)⟩

/-- Keep the entries whose key satisfies `p`. -/
def filterKeys (d : Dict κ ν) (p : κ → Bool) : Dict κ ν where
  entries := d.entries.filter fun e ↦ p e.1
  nodup := d.nodup.sublist (List.filter_sublist.map _)

omit [DecidableEq κ] in
@[simp] theorem keys_nodup (d : Dict κ ν) : d.keys.Nodup := d.nodup

omit [DecidableEq κ] in
@[simp] theorem notMem_empty (k : κ) : k ∉ (empty : Dict κ ν) := List.not_mem_nil

theorem keys_set (d : Dict κ ν) (k : κ) (v : ν) :
    (d.set k v).keys = if k ∈ d then d.keys else d.keys ++ [k] :=
  map_fst_setEntries k v d.entries

@[simp] theorem get?_set (d : Dict κ ν) (k : κ) (v : ν) (k' : κ) :
    (d.set k v).get? k' = if k' = k then some v else d.get? k' :=
  lookup_setEntries k v d.entries k'

@[simp] theorem getD_set (d : Dict κ ν) (k : κ) (v : ν) (k' : κ) (w : ν) :
    (d.set k v).getD k' w = if k' = k then v else d.getD k' w := by
  unfold getD
  rw [get?_set]
  split <;> rfl

@[simp] theorem mem_set {d : Dict κ ν} {k : κ} {v : ν} {k' : κ} :
    k' ∈ d.set k v ↔ k' = k ∨ k' ∈ d := by
  rw [mem_def, keys_set]
  by_cases h : k ∈ d
  · rw [if_pos h]
    exact ⟨Or.inr, fun h' ↦ h'.elim (fun e ↦ e ▸ h) id⟩
  · rw [if_neg h, List.mem_append, List.mem_singleton]
    exact Or.comm

theorem lookup_isSome_iff {k : κ} {es : List (κ × ν)} :
    (es.lookup k).isSome ↔ k ∈ es.map Prod.fst := by
  induction es with
  | nil => simp
  | cons e es ih =>
      rw [lookup_cons_ite, List.map_cons, List.mem_cons]
      by_cases h : k = e.1
      · simp [h]
      · rw [if_neg h, ih, or_iff_right h]

/-- A key is present exactly when looking it up succeeds. -/
theorem get?_isSome_iff {d : Dict κ ν} {k : κ} : (d.get? k).isSome ↔ k ∈ d :=
  lookup_isSome_iff

theorem get?_eq_none_iff {d : Dict κ ν} {k : κ} : d.get? k = none ↔ k ∉ d := by
  rw [← get?_isSome_iff, Option.not_isSome_iff_eq_none]

theorem mem_of_get? {d : Dict κ ν} {k : κ} {v : ν} (h : d.get? k = some v) : k ∈ d :=
  get?_isSome_iff.mp (by rw [h]; rfl)

theorem exists_get?_of_mem {d : Dict κ ν} {k : κ} (h : k ∈ d) : ∃ v, d.get? k = some v :=
  Option.isSome_iff_exists.mp (get?_isSome_iff.mpr h)

theorem mem_of_lookup {k : κ} {v : ν} {es : List (κ × ν)} (h : es.lookup k = some v) :
    (k, v) ∈ es := by
  induction es with
  | nil => cases h
  | cons e es ih =>
      rw [lookup_cons_ite] at h
      split at h
      · rename_i he
        cases h
        rw [he]
        exact List.mem_cons_self
      · exact List.mem_cons_of_mem e (ih h)

theorem mem_entries_of_get? {d : Dict κ ν} {k : κ} {v : ν} (h : d.get? k = some v) :
    (k, v) ∈ d.entries :=
  mem_of_lookup h

theorem lookup_filter (p : κ → Bool) (k : κ) (es : List (κ × ν)) :
    (es.filter fun e ↦ p e.1).lookup k = if p k then es.lookup k else none := by
  induction es with
  | nil => simp
  | cons e es ih =>
      rw [List.filter_cons, lookup_cons_ite]
      by_cases h : k = e.1
      · subst h
        by_cases hp : p e.1
        · simp [hp, lookup_cons_ite]
        · simp [hp, ih]
      · by_cases hp : p e.1
        · rw [if_pos hp, lookup_cons_ite, if_neg h, if_neg h, ih]
        · rw [if_neg hp, if_neg h, ih]

theorem get?_filterKeys (d : Dict κ ν) (p : κ → Bool) (k : κ) :
    (d.filterKeys p).get? k = if p k then d.get? k else none :=
  lookup_filter p k d.entries

@[simp] theorem mem_filterKeys {d : Dict κ ν} {p : κ → Bool} {k : κ} :
    k ∈ d.filterKeys p ↔ k ∈ d ∧ p k := by
  rw [← get?_isSome_iff, get?_filterKeys, ← get?_isSome_iff]
  by_cases h : p k <;> simp [h]

theorem lookup_of_mem {k : κ} {v : ν} {es : List (κ × ν)} (hn : (es.map Prod.fst).Nodup)
    (h : (k, v) ∈ es) : es.lookup k = some v := by
  induction es with
  | nil => cases h
  | cons e es ih =>
      obtain ⟨hnew, hn⟩ := List.nodup_cons.mp hn
      rw [lookup_cons_ite]
      rcases List.mem_cons.mp h with rfl | h
      · exact if_pos rfl
      · have hne : k ≠ e.1 := fun he ↦ hnew (he ▸ List.mem_map_of_mem (f := Prod.fst) h)
        rw [if_neg hne, ih hn h]

/-- The entries are the values that are stored. -/
theorem mem_entries_iff {d : Dict κ ν} {k : κ} {v : ν} :
    (k, v) ∈ d.entries ↔ d.get? k = some v :=
  ⟨lookup_of_mem d.nodup, mem_entries_of_get?⟩

/-- Storing a value that depends on the key only. -/
theorem get?_foldl_set {α : Type*} (key : α → κ) (val : α → ν) (f : κ → ν) {l : List α}
    (h : ∀ x ∈ l, val x = f (key x)) (d : Dict κ ν) (k : κ) :
    (l.foldl (fun d x ↦ d.set (key x) (val x)) d).get? k =
      if k ∈ l.map key then some (f k) else d.get? k := by
  induction l generalizing d with
  | nil => exact (if_neg List.not_mem_nil).symm
  | cons x l ih =>
      obtain ⟨hx, hl⟩ := List.forall_mem_cons.mp h
      rw [List.foldl_cons, ih hl, get?_set, List.map_cons, hx]
      by_cases hk : k = key x
      · subst hk
        rw [if_pos List.mem_cons_self, if_pos rfl, ite_self]
      · rw [if_neg hk]
        exact if_congr (by rw [List.mem_cons, or_iff_right hk]) rfl rfl

/-! ## Renaming the keys -/

section Map

universe u' v'

variable {κ' : Type u'} {ν' : Type v'} [DecidableEq κ'] {f : κ → κ'}

omit [DecidableEq κ] in
/-- Dictionaries with the same entries are equal. -/
theorem eq_of_entries {d d' : Dict κ ν} (h : d.entries = d'.entries) : d = d' := by
  cases d
  cases d'
  cases h
  rfl

omit [DecidableEq κ] [DecidableEq κ'] in
theorem nodup_map (hf : Function.Injective f) (g : ν → ν') (d : Dict κ ν) :
    ((d.entries.map (Prod.map f g)).map Prod.fst).Nodup := by
  have hfst : (d.entries.map (Prod.map f g)).map Prod.fst = (d.entries.map Prod.fst).map f := by
    rw [List.map_map, List.map_map]
    rfl
  rw [hfst]
  exact d.nodup.map hf

/-- Rename the keys by an injective function, and map the values. -/
def map (hf : Function.Injective f) (g : ν → ν') (d : Dict κ ν) : Dict κ' ν' where
  entries := d.entries.map (Prod.map f g)
  nodup := nodup_map hf g d

variable (hf : Function.Injective f) (g : ν → ν')

omit [DecidableEq κ] [DecidableEq κ'] in
@[simp] theorem map_empty : (empty : Dict κ ν).map hf g = empty := rfl

omit [DecidableEq κ] [DecidableEq κ'] in
@[simp] theorem keys_map (d : Dict κ ν) : (d.map hf g).keys = d.keys.map f := by
  unfold keys map
  rw [List.map_map, List.map_map]
  rfl

omit [DecidableEq κ] [DecidableEq κ'] in
@[simp] theorem size_map (d : Dict κ ν) : (d.map hf g).size = d.size := List.length_map _

omit [DecidableEq κ] [DecidableEq κ'] in
@[simp] theorem mem_map {d : Dict κ ν} {k : κ} : f k ∈ d.map hf g ↔ k ∈ d := by
  rw [mem_def, mem_def, keys_map, List.mem_map_of_injective hf]

@[simp] theorem get?_map (d : Dict κ ν) (k : κ) : (d.map hf g).get? (f k) = (d.get? k).map g := by
  show (d.entries.map (Prod.map f g)).lookup (f k) = (d.entries.lookup k).map g
  induction d.entries with
  | nil => rfl
  | cons e es ih =>
      rw [List.map_cons, lookup_cons_ite, lookup_cons_ite, ih, Prod.map_fst, Prod.map_snd]
      by_cases h : k = e.1
      · rw [if_pos h, if_pos (congrArg f h), Option.map_some]
      · rw [if_neg h, if_neg fun h' ↦ h (hf h')]

theorem getD_map (d : Dict κ ν) (k : κ) (v : ν) :
    (d.map hf g).getD (f k) (g v) = g (d.getD k v) := by
  rw [getD, get?_map, getD]
  cases d.get? k <;> rfl

theorem map_set (d : Dict κ ν) (k : κ) (v : ν) :
    (d.set k v).map hf g = (d.map hf g).set (f k) (g v) := by
  refine eq_of_entries ?_
  show (setEntries k v d.entries).map (Prod.map f g) =
    setEntries (f k) (g v) (d.entries.map (Prod.map f g))
  induction d.entries with
  | nil => rfl
  | cons e es ih =>
      by_cases h : e.1 = k
      · rw [setEntries, if_pos h, List.map_cons, List.map_cons, setEntries, Prod.map_fst,
          if_pos (congrArg f h)]
        rfl
      · rw [setEntries, if_neg h, List.map_cons, List.map_cons, setEntries, Prod.map_fst,
          if_neg fun h' ↦ h (hf h'), ih]

omit [DecidableEq κ] [DecidableEq κ'] in
theorem map_filterKeys {p : κ → Bool} {p' : κ' → Bool} (hp : ∀ k, p' (f k) = p k)
    (d : Dict κ ν) : (d.filterKeys p).map hf g = (d.map hf g).filterKeys p' := by
  refine eq_of_entries ?_
  show (d.entries.filter fun e ↦ p e.1).map (Prod.map f g) =
    (d.entries.map (Prod.map f g)).filter fun e ↦ p' e.1
  rw [List.filter_map]
  exact congrArg (List.map (Prod.map f g)) (List.filter_congr fun e _ ↦ (hp e.1).symm)

end Map

end Dict

end DeadLockDetect
