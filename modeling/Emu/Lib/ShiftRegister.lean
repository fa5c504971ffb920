-- SUMMARY: A shift register with feedback leaves the remainder of the message it is fed, as polynomials over two elements.
import Mathlib

/-! # Shift registers

A register of `w` bits is a polynomial of degree below `w`. One bit shifted in multiplies it by `X`, adds the bit at `X ^ w`,
and takes away a multiple of the generator `X ^ w + p` (`ofBits_shift`). As the degree stays below `w`, what is left is the
remainder, and remainders compose (`remainder_append`): so a whole message leaves the remainder of the message. -/

namespace Emu.ShiftRegister

open Polynomial

/-! ## Bits as polynomials -/

/-- A bit as a coefficient. -/
def bit (b : Bool) : ZMod 2 := if b then 1 else 0

theorem bit_xor (a b : Bool) : bit (a ^^ b) = bit a + bit b := by
  cases a <;> cases b <;> decide

theorem bit_and (a b : Bool) : bit (a && b) = bit a * bit b := by
  cases a <;> cases b <;> decide

theorem add_self (a : ZMod 2) : a + a = 0 := CharTwo.add_self_eq_zero a

/-- The polynomial of the bits below `w`. -/
noncomputable def ofBits (w : Nat) (f : Nat → Bool) : (ZMod 2)[X] := ∑ i ∈ Finset.range w, C (bit (f i)) * X ^ i

variable {w : Nat} {f g p : Nat → Bool}

theorem coeff_ofBits (w : Nat) (f : Nat → Bool) (i : Nat) : (ofBits w f).coeff i = if i < w then bit (f i) else 0 := by
  rw [ofBits, finsetSum_coeff]
  simp only [coeff_C_mul_X_pow, Finset.sum_ite_eq, Finset.mem_range]

theorem degree_ofBits_lt (w : Nat) (f : Nat → Bool) : (ofBits w f).degree < w := by
  rw [degree_lt_iff_coeff_zero]
  intro i hi
  rw [coeff_ofBits, if_neg (not_lt.mpr hi)]

theorem ofBits_congr (h : ∀ i < w, f i = g i) : ofBits w f = ofBits w g := by
  refine Finset.sum_congr rfl fun i hi => ?_
  rw [h i (Finset.mem_range.mp hi)]

/-- The first bit is the highest. -/
noncomputable def message (bits : List Bool) : (ZMod 2)[X] := bits.foldl (fun m b => m * X + C (bit b)) 0

theorem message_append (a b : List Bool) : message (a ++ b) = message a * X ^ b.length + message b := by
  induction b using List.reverseRecOn with
  | nil => rw [List.append_nil, List.length_nil, pow_zero, mul_one, message, message, List.foldl_nil, add_zero]
  | append_singleton b x ih =>
    have hsnoc (l : List Bool) : message (l ++ [x]) = message l * X + C (bit x) := by
      rw [message, List.foldl_append]
      rfl
    rw [← List.append_assoc, hsnoc, hsnoc, ih, List.length_append, List.length_singleton]
    ring

/-! ## Remainders -/

/-- A register `s` after a message, by the generator `X ^ w + p`. -/
noncomputable def remainder (w : Nat) (p s : (ZMod 2)[X]) (bits : List Bool) : (ZMod 2)[X] :=
  (s * X ^ bits.length + message bits * X ^ w) %ₘ (X ^ w + p)

theorem remainder_nil {p s : (ZMod 2)[X]} (hp : p.degree < w) (hs : s.degree < w) : remainder w p s [] = s := by
  have hdegree : (X ^ w + p).degree = (w : WithBot Nat) := by
    rw [degree_add_eq_left_of_degree_lt] <;> rw [degree_X_pow]
    exact hp
  rw [remainder, List.length_nil, pow_zero, mul_one, message, List.foldl_nil, zero_mul, add_zero,
    modByMonic_eq_self_iff (monic_X_pow_add hp), hdegree]
  exact hs

theorem remainder_append {p : (ZMod 2)[X]} (hp : p.degree < w) (s : (ZMod 2)[X]) (a b : List Bool) :
    remainder w p (remainder w p s a) b = remainder w p s (a ++ b) := by
  rw [remainder, remainder, remainder]
  refine modByMonic_eq_of_dvd_sub (monic_X_pow_add hp) ?_
  -- the quotient of the first division, times a power, is all that is different
  have hdiv := modByMonic_eq_sub_mul_div (s * X ^ a.length + message a * X ^ w) (X ^ w + p)
  refine ⟨-((s * X ^ a.length + message a * X ^ w) /ₘ (X ^ w + p)) * X ^ b.length, ?_⟩
  rw [hdiv, message_append, List.length_append]
  ring

/-! ## One bit -/

/-- The register after a bit: shifted, and with the generator added if the bit that leaves is not the one that enters. -/
def shift (w : Nat) (p f : Nat → Bool) (b : Bool) (i : Nat) : Bool :=
  (0 < i && f (i - 1)) ^^ ((f (w - 1) ^^ b) && p i)

theorem ofBits_shift (hw : 0 < w) (p f : Nat → Bool) (b : Bool) :
    ofBits w (shift w p f b) =
      ofBits w f * X + C (bit b) * X ^ w + C (bit (f (w - 1) ^^ b)) * (X ^ w + ofBits w p) := by
  ext i
  rw [coeff_add, coeff_add, coeff_C_mul, coeff_C_mul, coeff_add, coeff_X_pow, coeff_ofBits, coeff_ofBits]
  cases i with
  | zero =>
    have hne : 0 ≠ w := hw.ne
    rw [if_pos hw, if_pos hw, if_neg hne, coeff_mul_X_zero, shift, decide_eq_false (lt_irrefl 0), Bool.false_and,
      Bool.false_xor, bit_and]
    ring
  | succ i =>
    rw [coeff_mul_X, coeff_ofBits]
    rcases lt_trichotomy (i + 1) w with hlt | heq | hgt
    · rw [if_pos hlt, if_pos hlt, if_pos (Nat.lt_of_succ_lt hlt), if_neg hlt.ne, shift, decide_eq_true (Nat.succ_pos i),
        Bool.true_and, bit_xor, bit_and, Nat.add_sub_cancel]
      ring
    · -- the highest bit of the shifted register, the new bit and the feedback cancel
      subst heq
      rw [if_neg (lt_irrefl _), if_neg (lt_irrefl _), if_pos (Nat.lt_succ_self i), if_pos rfl, Nat.add_sub_cancel, bit_xor,
        mul_one, add_zero, mul_one, add_self]
    · rw [if_neg (not_lt.mpr hgt.le), if_neg (not_lt.mpr hgt.le), if_neg (by omega), if_neg hgt.ne']
      ring

theorem ofBits_shift_eq_remainder (hw : 0 < w) (p f : Nat → Bool) (b : Bool) :
    ofBits w (shift w p f b) = remainder w (ofBits w p) (ofBits w f) [b] := by
  have hp := degree_ofBits_lt w p
  have hone : message [b] = C (bit b) := by
    rw [message, List.foldl_cons, List.foldl_nil, zero_mul, zero_add]
  rw [← remainder_nil hp (degree_ofBits_lt w (shift w p f b)), remainder, remainder, List.length_nil, pow_zero, mul_one,
    List.length_singleton, pow_one, hone, message, List.foldl_nil, zero_mul, add_zero]
  refine modByMonic_eq_of_dvd_sub (monic_X_pow_add hp) ⟨C (bit (f (w - 1) ^^ b)), ?_⟩
  rw [ofBits_shift hw]
  ring

/-! ## Messages -/

/-- A step of a machine whose register takes bits as above: a message leaves its remainder. -/
theorem ofBits_foldl {σ : Type} (hw : 0 < w) {bits : σ → Nat → Bool} {step : σ → Bool → σ}
    (hstep : ∀ s b, ∀ i < w, bits (step s b) i = shift w p (bits s) b i) (s : σ) (l : List Bool) :
    ofBits w (bits (l.foldl step s)) = remainder w (ofBits w p) (ofBits w (bits s)) l := by
  induction l using List.reverseRecOn with
  | nil => exact (remainder_nil (degree_ofBits_lt w p) (degree_ofBits_lt w _)).symm
  | append_singleton l b ih =>
    rw [List.foldl_append, List.foldl_cons, List.foldl_nil, ofBits_congr (hstep _ b), ofBits_shift_eq_remainder hw, ih,
      remainder_append (degree_ofBits_lt w p)]

end Emu.ShiftRegister
