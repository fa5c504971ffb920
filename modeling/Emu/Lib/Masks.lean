-- SUMMARY: Bit masks as arithmetic: the low bits of a vector, and what is left without them.
import Mathlib

/-! # Masks

A mask of low bits is a remainder, and clearing them a subtraction. -/

namespace Masks

variable {w : Nat}

theorem and_compl_add_and (x k : BitVec w) : (x &&& ~~~k) + (x &&& k) = x := by
  have hdisj : (x &&& ~~~k) &&& (x &&& k) = 0#w := by
    ext i hi
    simp only [BitVec.getElem_and, BitVec.getElem_not, BitVec.getElem_zero]
    grind
  rw [BitVec.add_eq_or_of_and_eq_zero _ _ hdisj]
  ext i hi
  simp only [BitVec.getElem_or, BitVec.getElem_and, BitVec.getElem_not]
  grind

theorem toNat_and_low (x : BitVec w) {k : BitVec w} {n : Nat} (hk : k.toNat = 2 ^ n - 1) :
    (x &&& k).toNat = x.toNat % 2 ^ n := by
  rw [BitVec.toNat_and, hk, Nat.and_two_pow_sub_one_eq_mod]

/-- Clearing the low bits rounds down. -/
theorem toNat_and_compl_low (x : BitVec w) {k : BitVec w} {n : Nat} (hk : k.toNat = 2 ^ n - 1) :
    (x &&& ~~~k).toNat = x.toNat - x.toNat % 2 ^ n := by
  have hsum := congrArg BitVec.toNat (and_compl_add_and x k)
  have hle : (x &&& ~~~k).toNat ≤ x.toNat := by
    rw [BitVec.toNat_and]
    exact Nat.and_le_left
  have hlow : (x &&& k).toNat ≤ x.toNat := by
    rw [BitVec.toNat_and]
    exact Nat.and_le_left
  rw [BitVec.toNat_add, toNat_and_low x hk] at hsum
  rw [toNat_and_low x hk] at hlow
  have hx := x.isLt
  by_cases hlt : (x &&& ~~~k).toNat + x.toNat % 2 ^ n < 2 ^ w
  · rw [Nat.mod_eq_of_lt hlt] at hsum
    omega
  · -- a sum of two parts of a number cannot wrap and be that number
    rw [Nat.mod_eq_sub_mod (Nat.le_of_not_lt hlt), Nat.mod_eq_of_lt (by omega)] at hsum
    omega

theorem toNat_and_compl_low_eq_mul (x : BitVec w) {k : BitVec w} {n : Nat} (hk : k.toNat = 2 ^ n - 1) :
    (x &&& ~~~k).toNat = 2 ^ n * (x.toNat / 2 ^ n) := by
  have := Nat.div_add_mod x.toNat (2 ^ n)
  rw [toNat_and_compl_low x hk]
  omega

/-- The offset of an address in a block, where the upper bits agree. -/
theorem toNat_sub_and_compl_low {x y k : BitVec w} {n : Nat} (hk : k.toNat = 2 ^ n - 1)
    (h : x.toNat / 2 ^ n = y.toNat / 2 ^ n) : (x - (y &&& ~~~k)).toNat = x.toNat % 2 ^ n := by
  have hdiv := Nat.div_add_mod x.toNat (2 ^ n)
  have hbase := toNat_and_compl_low_eq_mul y hk
  rw [← h] at hbase
  rw [BitVec.toNat_sub_of_le (BitVec.le_def.mpr (by omega)), hbase]
  omega

/-- A mask that was put in is there. -/
theorem or_and_self_right (x k : BitVec w) : (x ||| k) &&& k = k := by
  ext i hi
  simp only [BitVec.getElem_and, BitVec.getElem_or]
  grind

/-- Two words differ nowhere in a mask. -/
theorem xor_and_eq_zero {x y k : BitVec w} : (x ^^^ y) &&& k = 0 ↔ x &&& k = y &&& k := by
  have hsplit : (x ^^^ y) &&& k = (x &&& k) ^^^ (y &&& k) := by
    ext i hi
    simp only [BitVec.getElem_and, BitVec.getElem_xor]
    grind
  rw [hsplit, show (0 : BitVec w) = 0#w from rfl, BitVec.xor_eq_zero_iff]

/-- Addresses that agree above the low bits are in one block. -/
theorem xor_and_compl_low_eq_zero {x y k : BitVec w} {n : Nat} (hk : k.toNat = 2 ^ n - 1) :
    (x ^^^ y) &&& ~~~k = 0 ↔ x.toNat / 2 ^ n = y.toNat / 2 ^ n := by
  rw [xor_and_eq_zero, BitVec.toNat_eq, toNat_and_compl_low_eq_mul x hk, toNat_and_compl_low_eq_mul y hk]
  exact Nat.mul_right_inj (Nat.ne_of_gt (Nat.two_pow_pos n))

/-- Clearing more of the low bits. -/
theorem compl_low_and_compl_low {k l : BitVec w} {n p : Nat} (hk : k.toNat = 2 ^ n - 1) (hl : l.toNat = 2 ^ p - 1)
    (hp : p ≤ n) : ~~~k &&& ~~~l = ~~~k := by
  have hbit (i : Nat) (hi : i < p) : k.getLsbD i = true := by
    rw [BitVec.getLsbD, hk, Nat.testBit_two_pow_sub_one]
    exact decide_eq_true (by omega)
  have hbit' (i : Nat) (hi : ¬i < p) : l.getLsbD i = false := by
    rw [BitVec.getLsbD, hl, Nat.testBit_two_pow_sub_one]
    exact decide_eq_false hi
  apply BitVec.eq_of_getLsbD_eq
  intro i hi
  rw [BitVec.getLsbD_and, BitVec.getLsbD_not, BitVec.getLsbD_not]
  by_cases hlow : i < p
  · rw [hbit i hlow, Bool.not_true, Bool.and_false, Bool.false_and]
  · rw [hbit' i hlow, decide_eq_true hi, Bool.not_false, Bool.and_true, Bool.and_true]

/-- A test of one bit. -/
theorem and_twoPow_eq_zero {x : BitVec w} {k : Nat} (hk : k < w) :
    x &&& BitVec.twoPow w k = 0 ↔ x.getLsbD k = false := by
  rw [BitVec.and_twoPow]
  split_ifs with h
  · have hne : BitVec.twoPow w k ≠ 0 := by
      intro h0
      have hbit := congrArg (BitVec.getLsbD · k) h0
      simp [hk] at hbit
    exact iff_of_false hne (by simp [h])
  · simp [h]

/-- The same by a shift. -/
theorem shiftRight_and_one_eq_zero (x : BitVec w) (j : Nat) : (x >>> j) &&& 1 = 0 ↔ x.getLsbD j = false := by
  rw [show (1 : BitVec w) = 1#w from rfl, show (0 : BitVec w) = 0#w from rfl,
    BitVec.and_one_eq_setWidth_ofBool_getLsbD, BitVec.getLsbD_ushiftRight, Nat.add_zero]
  cases h : x.getLsbD j with
  | false => simp
  | true =>
    have hw : 1 < 2 ^ w := Nat.one_lt_two_pow (Nat.ne_of_gt (Nat.zero_lt_of_lt (BitVec.lt_of_getLsbD h)))
    refine iff_of_false (fun h0 => ?_) (by decide)
    have hone := congrArg BitVec.toNat h0
    rw [BitVec.toNat_setWidth, BitVec.toNat_ofNat, Nat.zero_mod] at hone
    rw [show (BitVec.ofBool true).toNat = 1 from rfl, Nat.mod_eq_of_lt hw] at hone
    exact absurd hone (by decide)

end Masks
