import Mathlib.Data.Nat.Digits.Defs

/-!
# Little-endian words

A word of `n` bytes laid out with its least significant byte first, and read back.
The fields of a record are laid out one after the other by `pack` and read with
`wordAt`; `wordAt_pack` says that this gives back the field.
-/

namespace DeadLockDetect

/-- The `n` bytes of a word. -/
def leBytes : Nat → Nat → List UInt8
  | 0, _ => []
  | n + 1, x => UInt8.ofNat x :: leBytes n (x / 256)

/-- The word with these bytes. -/
def leWord (bs : List UInt8) : Nat := Nat.ofDigits 256 (bs.map UInt8.toNat)

/-- The word of `n` bytes at offset `off`. -/
def wordAt (off n : Nat) (bs : List UInt8) : Nat := leWord ((bs.drop off).take n)

@[simp] theorem length_leBytes (n x : Nat) : (leBytes n x).length = n := by
  induction n generalizing x with
  | zero => rfl
  | succ n ih => rw [leBytes, List.length_cons, ih]

/-- Reading a word back. -/
theorem leWord_leBytes (n x : Nat) : leWord (leBytes n x) = x % 256 ^ n := by
  induction n generalizing x with
  | zero => rw [Nat.pow_zero, Nat.mod_one]; rfl
  | succ n ih =>
      have hrec : leWord (leBytes (n + 1) x) = x % 256 + 256 * leWord (leBytes n (x / 256)) := by
        rw [leWord, leBytes, List.map_cons, Nat.ofDigits_cons, UInt8.toNat_ofNat']
        rfl
      rw [hrec, ih, Nat.pow_succ', Nat.mod_mul]

/-! ## Records -/

/-- Fields laid out one after the other; a field is given by its size and its value. -/
def pack (fields : List (Nat × Nat)) : List UInt8 := fields.flatMap fun f ↦ leBytes f.1 f.2

/-- The number of bytes of some fields. -/
def packSize (fields : List (Nat × Nat)) : Nat := (fields.map Prod.fst).sum

@[simp] theorem length_pack (fields : List (Nat × Nat)) :
    (pack fields).length = packSize fields := by
  induction fields with
  | nil => rfl
  | cons f fields ih =>
      rw [pack, List.flatMap_cons, List.length_append, length_leBytes, ← pack, ih, packSize,
        packSize, List.map_cons, List.sum_cons]

theorem pack_append (fs gs : List (Nat × Nat)) : pack (fs ++ gs) = pack fs ++ pack gs :=
  List.flatMap_append

theorem packSize_append (fs gs : List (Nat × Nat)) :
    packSize (fs ++ gs) = packSize fs + packSize gs := by
  rw [packSize, List.map_append, List.sum_append, packSize, packSize]

/-- Reading a field of a record. -/
theorem wordAt_pack (before : List (Nat × Nat)) {n x : Nat} (after : List (Nat × Nat))
    (hx : x < 256 ^ n) : wordAt (packSize before) n (pack (before ++ (n, x) :: after)) = x := by
  rw [wordAt, pack_append, List.drop_left' (length_pack before), pack, List.flatMap_cons,
    List.take_left' (length_leBytes n x), leWord_leBytes, Nat.mod_eq_of_lt hx]

/-- Reading the `k`-th field of a record. -/
theorem wordAt_pack_of_getElem? {fields : List (Nat × Nat)} {k n x : Nat}
    (hk : fields[k]? = some (n, x)) (hx : x < 256 ^ n) :
    wordAt (packSize (fields.take k)) n (pack fields) = x := by
  obtain ⟨hlt, he⟩ := List.getElem?_eq_some_iff.mp hk
  have h := wordAt_pack (fields.take k) (fields.drop (k + 1)) hx
  rwa [← he, ← List.drop_eq_getElem_cons hlt, List.take_append_drop] at h

end DeadLockDetect
