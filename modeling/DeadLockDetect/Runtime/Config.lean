import DeadLockDetect.Lib.Numeral
import Mathlib.Algebra.GroupWithZero.Nat
import Mathlib.Algebra.Group.Int.Defs

/-!
# The configured size of a ring

`config.cpp`: the part of `init_config_from_env` that decides how many bytes the ring of a
thread has.  Whatever the environment says, the size is a power of two between 4 KiB and
256 MiB (`exists_toNat_ringCapacity`).

## What is transcribed

* `getenv` is a parameter; a variable that is not set is `none`.
* `strtol` follows the documented behaviour of the library function for base ten, with the
  saturation at the bounds of `long`; it returns `none` where `end == v`.
* A narrowing cast to `int` wraps.  The message about a size that is refused is left out.
-/

namespace DeadLockDetect.Runtime

open Numeral

/-- A value in the range of `long`. -/
def saturate (n : Int) : Int := max (-2 ^ 63) (min (2 ^ 63 - 1) n)

/-- `strtol` with base ten. -/
def strtol (s : List Char) : Option Int :=
  let (sgn, t) := sign (s.dropWhile isAsciiSpace)
  match t.takeWhile Char.isDigit with
  | [] => none
  | c :: cs => some (saturate (sgn * (c :: cs).foldl (fun n c ↦ 10 * n + (c.toNat - 48)) (0 : Nat)))

/-- The integer value of an environment variable. -/
def envInt (getenv : String → Option (List Char)) (name : String) (default : Int32) : Int32 :=
  match getenv name with
  | none | some [] => default
  | some v => match strtol v with
    | none => default
    | some n => Int32.ofInt n

/-- The test for a power of two. -/
def isPow2 (v : Int32) : Bool := 0 < v && v &&& (v - 1) == 0

/-- The least size of a ring. -/
def kRingMin : Int32 := 4 * 1024

/-- The greatest size of a ring. -/
def kRingMax : Int32 := 256 * 1024 * 1024

/-- The size of a ring, `1 << 20`, when the environment has no valid one. -/
def kRingDefault : Int32 := 1024 * 1024

/-- `ring_bytes`, as `init_config_from_env` sets it. -/
def ringBytes (getenv : String → Option (List Char)) : Int32 :=
  let ring := envInt getenv "DEADLOCK_RING_BYTES" kRingDefault
  if !isPow2 ring || ring < kRingMin || kRingMax < ring then kRingDefault else ring

/-- The size that `current_ring` gives to the ring of a thread. -/
def ringCapacity (getenv : String → Option (List Char)) : UInt64 :=
  (ringBytes getenv).toInt64.toUInt64

/-! ## Every size is a power of two -/

/-- A positive `int` as a bit vector. -/
theorem toInt_eq_toNat {v : Int32} (h : 0 < v) :
    v.toInt = v.toBitVec.toNat ∧ v.toBitVec.toNat ≠ 0 := by
  have hpos : 0 < v.toBitVec.toInt := Int32.lt_iff_toInt_lt.mp h
  have hle : v.toInt = v.toBitVec.toNat :=
    BitVec.toInt_eq_toNat_of_lt (BitVec.toInt_pos_iff.mp hpos.le)
  refine ⟨hle, fun h0 ↦ ?_⟩
  have h0' : v.toBitVec.toInt = v.toBitVec.toNat := hle
  omega

/-- What `isPow2` accepts is a power of two. -/
theorem exists_eq_two_pow {v : Int32} (h : isPow2 v = true) : ∃ k, v.toBitVec.toNat = 2 ^ k := by
  unfold isPow2 at h
  rw [Bool.and_eq_true, decide_eq_true_eq, beq_iff_eq] at h
  obtain ⟨hpos, hand⟩ := h
  obtain ⟨-, hne⟩ := toInt_eq_toNat hpos
  refine (Nat.and_sub_one_eq_zero_iff_isPowerOfTwo hne).mp ?_
  have hsub : (v - 1).toBitVec.toNat = v.toBitVec.toNat - 1 := by
    rw [Int32.toBitVec_sub]
    refine BitVec.toNat_sub_of_le ?_
    rw [BitVec.le_def]
    exact Nat.one_le_iff_ne_zero.mpr hne
  rw [← hsub, ← BitVec.toNat_and, ← Int32.toBitVec_and, hand]
  rfl

/-- What is configured is accepted. -/
theorem isPow2_ringBytes (getenv : String → Option (List Char)) :
    isPow2 (ringBytes getenv) = true ∧ kRingMin ≤ ringBytes getenv ∧ ringBytes getenv ≤ kRingMax := by
  unfold ringBytes
  dsimp only
  split
  · decide
  · rename_i h
    rw [Bool.or_eq_true, Bool.or_eq_true, Bool.not_eq_true', not_or, not_or, Bool.not_eq_false,
      decide_eq_true_eq, decide_eq_true_eq, Int32.not_lt, Int32.not_lt] at h
    exact ⟨h.1.1, h.1.2, h.2⟩

/-- **The size of every ring is a power of two**, from 4 KiB to 256 MiB. -/
theorem exists_toNat_ringCapacity (getenv : String → Option (List Char)) :
    ∃ k, 12 ≤ k ∧ k ≤ 28 ∧ (ringCapacity getenv).toNat = 2 ^ k := by
  obtain ⟨hpow, hmin, hmax⟩ := isPow2_ringBytes getenv
  obtain ⟨k, hk⟩ := exists_eq_two_pow hpow
  have hpos : 0 < ringBytes getenv := by
    rw [isPow2, Bool.and_eq_true, decide_eq_true_eq] at hpow
    exact hpow.1
  obtain ⟨hint, -⟩ := toInt_eq_toNat hpos
  rw [Int32.le_iff_toInt_le, hint] at hmin hmax
  have hmin : 2 ^ 12 ≤ (ringBytes getenv).toBitVec.toNat := Int.ofNat_le.mp hmin
  have hmax : (ringBytes getenv).toBitVec.toNat ≤ 2 ^ 28 := Int.ofNat_le.mp hmax
  refine ⟨k, ?_, ?_, ?_⟩
  · rw [hk] at hmin
    exact (Nat.pow_le_pow_iff_right Nat.one_lt_two).mp hmin
  · rw [hk] at hmax
    exact (Nat.pow_le_pow_iff_right Nat.one_lt_two).mp hmax
  · show (ringBytes getenv).toInt64.toBitVec.toNat = 2 ^ k
    have hmsb : (ringBytes getenv).toBitVec.msb = false := by
      rw [BitVec.msb_eq_false_iff_two_mul_lt]
      omega
    rw [Int32.toBitVec_toInt64, BitVec.signExtend_eq_setWidth_of_msb_false hmsb,
      BitVec.toNat_setWidth, hk, Nat.mod_eq_of_lt]
    rw [hk] at hmax
    omega

end DeadLockDetect.Runtime
