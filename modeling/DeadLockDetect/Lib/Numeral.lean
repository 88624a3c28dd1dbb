import DeadLockDetect.Lib.Text
import Mathlib.Data.Nat.Digits.Defs

/-!
# Integers as text

Integers are printed as `printf` prints them (`%d`, `%lu`, `0x%lx`) and read as Python's
`int(s, base)` reads them: white space around the number, a sign, single underscores
between the digits, the decimal digits of every script, and in base 16 an optional `0x`.
Reading gives back what was printed.
-/

namespace DeadLockDetect.Numeral

open Text (isSpace)

/-! ## Reading -/

/-- The value of a digit; `37`, which is no digit of any base, for other characters. -/
def digitValue (c : Char) : Nat :=
  if '0' ≤ c ∧ c ≤ '9' then c.toNat - 48
  else if 'a' ≤ c ∧ c ≤ 'z' then c.toNat - 87
  else if 'A' ≤ c ∧ c ≤ 'Z' then c.toNat - 55
  else 37

/-- The code points of the digit zero in the scripts of Unicode. -/
def zeros : List Nat :=
  [0x30, 0x660, 0x6f0, 0x7c0, 0x966, 0x9e6, 0xa66, 0xae6, 0xb66, 0xbe6, 0xc66, 0xce6, 0xd66,
    0xde6, 0xe50, 0xed0, 0xf20, 0x1040, 0x1090, 0x17e0, 0x1810, 0x1946, 0x19d0, 0x1a80, 0x1a90,
    0x1b50, 0x1bb0, 0x1c40, 0x1c50, 0xa620, 0xa8d0, 0xa900, 0xa9d0, 0xa9f0, 0xaa50, 0xabf0,
    0xff10, 0x104a0, 0x10d30, 0x11066, 0x110f0, 0x11136, 0x111d0, 0x112f0, 0x11450, 0x114d0,
    0x11650, 0x116c0, 0x11730, 0x118e0, 0x11950, 0x11c50, 0x11d50, 0x11da0, 0x16a60, 0x16ac0,
    0x16b50, 0x1d7ce, 0x1d7d8, 0x1d7e2, 0x1d7ec, 0x1d7f6, 0x1e140, 0x1e2f0, 0x1e950, 0x1fbf0]

/-- The ASCII character that stands for a character in a number. -/
def toAscii (c : Char) : Char :=
  if c.toNat < 127 then c
  else if isSpace c then ' '
  else match zeros.find? fun z ↦ z ≤ c.toNat && c.toNat < z + 10 with
    | some z => Char.ofNat (48 + (c.toNat - z))
    | none => '?'

/-- White space of the C locale. -/
def isAsciiSpace (c : Char) : Bool := (9 ≤ c.toNat && c.toNat ≤ 13) || c == ' '

/-- The text without the white space around it. -/
def strip (t : List Char) : List Char := (t.dropWhile isAsciiSpace).rdropWhile isAsciiSpace

/-- The sign of a number, and the text behind it. -/
def sign : List Char → Int × List Char
  | '-' :: t => (-1, t)
  | '+' :: t => (1, t)
  | t => (1, t)

/-- The text behind the `0x` of a number in base 16; one underscore may follow it. -/
def dropBase (base : Nat) : List Char → List Char
  | '0' :: c :: t =>
      if base = 16 ∧ (c = 'x' ∨ c = 'X') then
        match t with
        | '_' :: t => t
        | t => t
      else '0' :: c :: t
  | t => t

/-- The digits of the rest of a number, each of them perhaps behind an underscore. -/
def digitsAfter (base : Nat) : List Char → Option (List Nat)
  | [] => some []
  | '_' :: c :: t => if digitValue c < base then (digitsAfter base t).map (digitValue c :: ·) else none
  | c :: t => if digitValue c < base then (digitsAfter base t).map (digitValue c :: ·) else none

/-- The digits of a number: there is at least one, and the first one comes first. -/
def digits (base : Nat) : List Char → Option (List Nat)
  | [] => none
  | c :: t => if c = '_' then none else digitsAfter base (c :: t)

/-- A number in a base that is no power of two has at most so many digits. -/
def maxStrDigits : Nat := 4300

/-- `int(s, base)` for the bases 10 and 16. -/
def parseInt (base : Nat) (s : List Char) : Option Int :=
  let t := sign (strip (s.map toAscii))
  match digits base (dropBase base t.2) with
  | none => none
  | some ds =>
      if base = 10 ∧ maxStrDigits < ds.length then none
      else some (t.1 * Nat.ofDigits base ds.reverse)

/-! ## Printing -/

/-- `%lu`. -/
def printNat (n : Nat) : List Char := Nat.toDigits 10 n

/-- `%d` and `%ld`. -/
def printInt : Int → List Char
  | .ofNat n => printNat n
  | .negSucc n => '-' :: printNat (n + 1)

/-- `0x%lx`. -/
def printHex (n : Nat) : List Char := '0' :: 'x' :: Nat.toDigits 16 n

/-! ## The printed digits -/

/-- The characters of a printed number are digits. -/
theorem exists_digitChar_of_mem_toDigits {b : Nat} (hb : 1 < b) {c : Char} :
    ∀ {n : Nat}, c ∈ Nat.toDigits b n → ∃ d < b, c = d.digitChar := by
  intro n
  induction n using Nat.strong_induction_on with
  | _ n ih =>
      intro h
      rw [Nat.toDigits_eq_if hb] at h
      split at h
      · exact ⟨n, ‹_›, List.mem_singleton.mp h⟩
      · rcases List.mem_append.mp h with h | h
        · exact ih (n / b) (Nat.div_lt_self (by omega) hb) h
        · exact ⟨n % b, Nat.mod_lt n (by omega), List.mem_singleton.mp h⟩

theorem digitValue_digitChar : ∀ d < 16, digitValue d.digitChar = d := by decide

theorem ofDigits_toDigits {b : Nat} (hb : 1 < b) (hb' : b ≤ 16) (n : Nat) :
    Nat.ofDigits b ((Nat.toDigits b n).map digitValue).reverse = n := by
  induction n using Nat.strong_induction_on with
  | _ n ih =>
      rw [Nat.toDigits_eq_if hb]
      split
      · have hn : digitValue n.digitChar = n := digitValue_digitChar n (by omega)
        simp [hn]
      · have hmod : n % b < b := Nat.mod_lt n (by omega)
        have hd : digitValue (n % b).digitChar = n % b := digitValue_digitChar _ (by omega)
        have hdiv : Nat.ofDigits b ((Nat.toDigits b (n / b)).map digitValue).reverse = n / b :=
          ih (n / b) (Nat.div_lt_self (by omega) hb)
        rw [List.map_append, List.reverse_append, List.map_singleton, List.reverse_singleton,
          List.singleton_append, Nat.ofDigits_cons, hd, hdiv]
        exact Nat.mod_add_div n b

/-! ## Printed numbers are plain -/

/-- A printable character of ASCII other than a space. -/
def Clean (c : Char) : Prop := 32 < c.toNat ∧ c.toNat < 127

instance (c : Char) : Decidable (Clean c) := inferInstanceAs (Decidable (_ ∧ _))

theorem Clean.isAsciiSpace_eq {c : Char} (h : Clean c) : isAsciiSpace c = false := by
  have hlt := h.1
  have hne : c ≠ ' ' := fun hc ↦ absurd hlt (hc ▸ by decide)
  have hgt : ¬ c.toNat ≤ 13 := by omega
  simp [isAsciiSpace, hne, hgt]

/-- A clean text can be printed into a field. -/
theorem isField_of_clean {t : List Char} (h : ∀ c ∈ t, Clean c) : Text.IsField t := by
  have hmem (c : Char) (hc : ¬ Clean c) : c ∉ t := fun hct ↦ hc (h c hct)
  exact ⟨hmem _ (by decide), ⟨hmem _ (by decide), hmem _ (by decide)⟩, hmem _ (by decide)⟩

theorem digitChar_clean : ∀ d < 16,
    Clean d.digitChar ∧ d.digitChar ≠ '_' ∧ d.digitChar ≠ '-' ∧ d.digitChar ≠ '+' := by
  decide

section Printed

variable {b : Nat}

theorem clean_of_mem_toDigits (hb : 1 < b) (hb' : b ≤ 16) {n : Nat} {c : Char}
    (h : c ∈ Nat.toDigits b n) : Clean c ∧ c ≠ '_' ∧ c ≠ '-' ∧ c ≠ '+' := by
  obtain ⟨d, hd, rfl⟩ := exists_digitChar_of_mem_toDigits hb h
  exact digitChar_clean d (by omega)

theorem clean_printInt (x : Int) : ∀ c ∈ printInt x, Clean c := by
  intro c hc
  cases x with
  | ofNat n => exact (clean_of_mem_toDigits (by decide) (by decide) hc).1
  | negSucc n =>
      rcases List.mem_cons.mp hc with rfl | hc
      · decide
      · exact (clean_of_mem_toDigits (by decide) (by decide) hc).1

theorem clean_printHex (n : Nat) : ∀ c ∈ printHex n, Clean c := by
  intro c hc
  rcases List.mem_cons.mp hc with rfl | hc
  · decide
  rcases List.mem_cons.mp hc with rfl | hc
  · decide
  exact (clean_of_mem_toDigits (by decide) (by decide) hc).1

/-! ## Reading what was printed -/

/-- A text of clean characters is read as it stands. -/
theorem strip_map_toAscii {t : List Char} (h : ∀ c ∈ t, Clean c) : strip (t.map toAscii) = t := by
  have hmap : t.map toAscii = t := by
    conv_rhs => rw [← List.map_id t]
    exact List.map_congr_left fun c hc ↦ if_pos (h c hc).2
  have hspace (c : Char) (hc : c ∈ t) : ¬ isAsciiSpace c = true := by
    rw [(h c hc).isAsciiSpace_eq]
    exact Bool.false_ne_true
  have hleft : t.dropWhile isAsciiSpace = t :=
    List.dropWhile_eq_self_iff.mpr fun hl ↦ hspace _ (List.getElem_mem hl)
  rw [hmap, strip, hleft]
  exact List.rdropWhile_eq_self_iff.mpr fun hne ↦ hspace _ (List.getLast_mem hne)

theorem digitsAfter_eq_map {t : List Char} (h : ∀ c ∈ t, digitValue c < b ∧ c ≠ '_') :
    digitsAfter b t = some (t.map digitValue) := by
  induction t with
  | nil => rfl
  | cons c t ih =>
      obtain ⟨hc, hne⟩ := h c List.mem_cons_self
      rw [digitsAfter, if_pos hc, ih fun d hd ↦ h d (List.mem_cons_of_mem _ hd)]
      · rfl
      · exact fun _ _ hc' ↦ absurd hc' hne

/-- The digits that were printed are the digits that are read. -/
theorem digits_toDigits (hb : 1 < b) (hb' : b ≤ 16) (n : Nat) :
    digits b (Nat.toDigits b n) = some ((Nat.toDigits b n).map digitValue) := by
  have hmem (c : Char) (hc : c ∈ Nat.toDigits b n) : digitValue c < b ∧ c ≠ '_' := by
    obtain ⟨d, hd, rfl⟩ := exists_digitChar_of_mem_toDigits hb hc
    have hd' : d < 16 := by omega
    exact ⟨(digitValue_digitChar d hd').symm ▸ hd, (digitChar_clean d hd').2.1⟩
  have hdig := digitsAfter_eq_map hmem
  cases hdigits : Nat.toDigits b n with
  | nil => exact absurd hdigits Nat.toDigits_ne_nil
  | cons c t =>
      rw [hdigits] at hdig hmem
      rw [digits, if_neg (hmem c List.mem_cons_self).2, hdig]

/-- A text that does not start with a sign is its own absolute value. -/
theorem sign_of_ne {t : List Char} (h : ∀ c ∈ t, c ≠ '-' ∧ c ≠ '+') : sign t = (1, t) := by
  cases t with
  | nil => rfl
  | cons c t =>
      obtain ⟨hm, hp⟩ := h c List.mem_cons_self
      rw [sign]
      · exact fun _ hc ↦ absurd (List.cons.inj hc).1 hm
      · exact fun _ hc ↦ absurd (List.cons.inj hc).1 hp

theorem dropBase_ten (t : List Char) : dropBase 10 t = t := by
  fun_cases dropBase 10 t <;> grind

theorem length_toDigits_le {n k : Nat} (h : n < 10 ^ k) (hk : 0 < k) :
    (printNat n).length ≤ k :=
  (Nat.length_toDigits_le_iff (by decide) hk).mpr h

/-- A printed natural number behind a sign. -/
theorem parseInt_of_sign {s : List Char} {sgn : Int} {n : Nat} (hclean : ∀ c ∈ s, Clean c)
    (hsign : sign s = (sgn, printNat n)) (hn : n < 10 ^ maxStrDigits) :
    parseInt 10 s = some (sgn * n) := by
  have hlen : ¬ (10 = 10 ∧ maxStrDigits < ((printNat n).map digitValue).length) := by
    have hle : (printNat n).length ≤ maxStrDigits := length_toDigits_le hn (by decide)
    rw [List.length_map]
    omega
  rw [parseInt, strip_map_toAscii hclean, hsign]
  dsimp only
  rw [dropBase_ten, printNat, digits_toDigits (by decide) (by decide)]
  dsimp only
  rw [← printNat, if_neg hlen, printNat, ofDigits_toDigits (by decide) (by decide)]

/-- **Round trip of decimal integers.** -/
theorem parseInt_printInt {x : Int} (hx : x.natAbs < 10 ^ maxStrDigits) :
    parseInt 10 (printInt x) = some x := by
  cases x with
  | ofNat n =>
      have hsign : sign (printNat n) = (1, printNat n) :=
        sign_of_ne fun c hc ↦ (clean_of_mem_toDigits (by decide) (by decide) hc).2.2
      rw [parseInt_of_sign (clean_printInt (.ofNat n)) hsign hx, Int.one_mul]
      rfl
  | negSucc n =>
      rw [parseInt_of_sign (clean_printInt (.negSucc n)) rfl hx, Int.negSucc_eq, Int.neg_one_mul]
      rfl

/-- **Round trip of natural numbers.** -/
theorem parseInt_printNat {n : Nat} (hn : n < 10 ^ maxStrDigits) :
    parseInt 10 (printNat n) = some (n : Int) :=
  parseInt_printInt (x := .ofNat n) hn

/-- **Round trip of hexadecimal numbers.** -/
theorem parseInt_printHex (n : Nat) : parseInt 16 (printHex n) = some (n : Int) := by
  have hdrop : dropBase 16 (printHex n) = Nat.toDigits 16 n := by
    have hne : ∀ t, Nat.toDigits 16 n ≠ '_' :: t := by
      intro t ht
      have hmem : '_' ∈ Nat.toDigits 16 n := ht ▸ List.mem_cons_self
      exact absurd rfl (clean_of_mem_toDigits (by decide) (by decide) hmem).2.1
    rw [printHex, dropBase, if_pos ⟨rfl, .inl rfl⟩]
    exact hne
  have hsign : sign (printHex n) = (1, printHex n) := rfl
  rw [parseInt, strip_map_toAscii (clean_printHex n), hsign]
  dsimp only
  rw [hdrop, digits_toDigits (by decide) (by decide)]
  dsimp only
  rw [if_neg (fun h ↦ absurd h.1 (by decide)), ofDigits_toDigits (by decide) (by decide),
    Int.one_mul]

end Printed

end DeadLockDetect.Numeral
