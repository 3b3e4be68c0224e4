/-
  File:      Slightx/Lib/Bits.lean
  Subject:   Fields of machine words.

  A word packs an aligned address and flags into disjoint bits. The facts relate the bits of such
  a word to the arithmetic of its parts:

  * `getLsbD_of_aligned`, `getLsbD_of_lt` -- where an aligned or a small number has no bits;
  * `toNat_and_field` -- masking out a field, as a quotient and a remainder;
  * `or_eq_add` -- bits below an aligned number are added to it;
  * `or_and_left` -- masking takes a packed word apart.
-/
import Mathlib.Algebra.Group.Nat.Defs

namespace Slightx.Lib

section Bits

variable {w : Nat} {x y : BitVec w} {n k : Nat}

theorem getLsbD_of_aligned (h : x.toNat % 2 ^ n = 0) (hk : k < n) : x.getLsbD k = false := by
  rw [BitVec.getLsbD, ← Nat.div_add_mod x.toNat (2 ^ n), h, Nat.add_zero, Nat.testBit_two_pow_mul]
  simp
  omega

theorem getLsbD_of_lt (h : x.toNat < 2 ^ n) (hk : n ≤ k) : x.getLsbD k = false :=
  Nat.testBit_lt_two_pow (Nat.lt_of_lt_of_le h (Nat.pow_le_pow_right (by decide) hk))

/-- The field of `len` bits from bit `lo` on. -/
theorem and_field (a lo len : Nat) :
    a &&& (2 ^ len - 1) * 2 ^ lo = a / 2 ^ lo % 2 ^ len * 2 ^ lo := by
  apply Nat.eq_of_testBit_eq
  intro i
  rw [Nat.testBit_and, Nat.mul_comm _ (2 ^ lo), Nat.mul_comm _ (2 ^ lo), Nat.testBit_two_pow_mul,
    Nat.testBit_two_pow_mul, Nat.testBit_two_pow_sub_one, Nat.testBit_mod_two_pow,
    Nat.testBit_div_two_pow]
  by_cases hi : lo ≤ i
  · rw [Nat.sub_add_cancel hi]
    simp [hi, Bool.and_comm]
  · simp [hi]

/-- A masked field as a number. -/
theorem toNat_and_field {m : BitVec w} (lo len : Nat) (hm : m.toNat = (2 ^ len - 1) * 2 ^ lo) :
    (x &&& m).toNat = x.toNat / 2 ^ lo % 2 ^ len * 2 ^ lo := by
  rw [BitVec.toNat_and, hm, and_field]

theorem toNat_and_low {m : BitVec w} {len : Nat} (hm : m.toNat = 2 ^ len - 1) :
    (x &&& m).toNat = x.toNat % 2 ^ len := by
  rw [BitVec.toNat_and, hm, Nat.and_two_pow_sub_one_eq_mod]

/-- Bits below an aligned number are added to it. -/
theorem or_eq_add {a b i : Nat} (ha : a % 2 ^ i = 0) (hb : b < 2 ^ i) : a ||| b = a + b := by
  rw [← Nat.div_add_mod a (2 ^ i), ha, Nat.add_zero, Nat.two_pow_add_eq_or_of_lt hb]

/-- A set bit is not added twice. -/
theorem or_pow_eq_self_iff (a i : Nat) : 2 ^ i ||| a = a ↔ a.testBit i = true := by
  constructor
  · intro h
    rw [← h, Nat.testBit_or, Nat.testBit_two_pow_self, Bool.true_or]
  · intro h
    apply Nat.eq_of_testBit_eq
    intro j
    rw [Nat.testBit_or, Nat.testBit_two_pow]
    by_cases hj : i = j
    · subst hj
      simp [h]
    · simp [hj]

/-- The part of a packed word the mask keeps. -/
theorem or_and_left {m : BitVec w} (hx : x &&& m = x) (hy : y &&& m = 0#w) :
    (x ||| y) &&& m = x := by
  rw [BitVec.and_or_distrib_right, hx, hy, BitVec.or_zero]

end Bits

end Slightx.Lib
