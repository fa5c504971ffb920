-- SUMMARY: Walking the set bits of a row of words, lowest first, by clearing the lowest set bit.
import Mathlib

/-! # Walking set bits

The loop `while (bits != 0) { i = ctz(bits); bits &= bits - 1; … }` visits the set bits of a word from the lowest up.
Over a row of words it visits the bits of one long set. -/

namespace BitWalk

variable {α : Type} {w : Nat}

/-- The loop, for so many turns at most. -/
def walk (f : α → Nat → α) : Nat → BitVec w → α → α
  | 0, _, a => a
  | k + 1, bits, a => if bits = 0 then a else walk f k (bits &&& (bits - 1)) (f a bits.ctz.toNat)

/-- The loop over a row of words, with the number of a bit counted from the first of them. -/
def walkWords (f : α → Nat → α) (n : Nat) (words : Nat → BitVec w) (a : α) : α :=
  (List.range n).foldl (fun a k => walk (fun a i => f a (w * k + i)) w (words k) a) a

/-! ## The lowest set bit -/

theorem toNat_eq_of_ne_zero {bits : BitVec w} (h : bits ≠ 0) :
    ∃ k, bits.toNat = 2 ^ bits.ctz.toNat * (2 * k + 1) := by
  have hset := BitVec.getLsbD_true_ctz_of_ne_zero h
  have hlow : bits.toNat % 2 ^ bits.ctz.toNat = 0 := by
    apply Nat.eq_of_testBit_eq
    intro i
    rw [Nat.testBit_mod_two_pow, Nat.zero_testBit]
    by_cases hi : i < bits.ctz.toNat
    · have := BitVec.getLsbD_false_of_lt_ctz hi
      simpa [BitVec.getLsbD, hi] using this
    · simp [hi]
  obtain ⟨q, hq⟩ := Nat.dvd_of_mod_eq_zero hlow
  have hodd : q % 2 = 1 := by
    have hbit : bits.toNat.testBit bits.ctz.toNat = true := hset
    rw [hq, Nat.testBit_two_pow_mul, Nat.sub_self] at hbit
    simpa [Nat.testBit_zero] using hbit
  exact ⟨q / 2, by rw [hq]; congr 1; omega⟩

/-- `bits & (bits - 1)` clears the lowest set bit and no other. -/
theorem getLsbD_and_sub_one {bits : BitVec w} (h : bits ≠ 0) (i : Nat) :
    (bits &&& (bits - 1)).getLsbD i = (bits.getLsbD i && decide (i ≠ bits.ctz.toNat)) := by
  obtain ⟨k, hk⟩ := toNat_eq_of_ne_zero h
  generalize hc : bits.ctz.toNat = c at hk
  have hpos : 0 < 2 ^ c := Nat.two_pow_pos c
  have hmul : 2 ^ c * (2 * k + 1) = 2 ^ c * (2 * k) + 2 ^ c := by rw [Nat.mul_add, Nat.mul_one]
  have hlt := bits.isLt
  have hw : 0 < w := by
    rcases Nat.eq_zero_or_pos w with h0 | h0
    · subst h0
      rw [hk, hmul] at hlt
      omega
    · exact h0
  have hone : (1 : BitVec w).toNat = 1 := by
    rw [show (1 : BitVec w) = BitVec.ofNat w 1 from rfl, BitVec.toNat_ofNat]
    exact Nat.mod_eq_of_lt (Nat.one_lt_two_pow (by omega))
  have hsub : (bits - 1).toNat = 2 ^ c * (2 * k) + (2 ^ c - 1) := by
    have hle : (1 : BitVec w) ≤ bits := by
      rw [BitVec.le_def, hone]
      omega
    rw [BitVec.toNat_sub_of_le hle, hone, hk, hmul]
    omega
  have hb : bits.toNat = 2 ^ c * (2 * k + 1) + 0 := hk
  rw [BitVec.getLsbD_and, BitVec.getLsbD, BitVec.getLsbD, hsub, hb, Nat.testBit_two_pow_mul_add _ hpos,
    Nat.testBit_two_pow_mul_add _ (by omega)]
  rcases Nat.lt_trichotomy i c with hi | hi | hi
  · simp [hi]
  · subst hi
    simp [Nat.testBit_zero]
  · -- above the lowest set bit the two agree, since they differ in the parity of the quotient only
    obtain ⟨j, rfl⟩ : ∃ j, i = c + (j + 1) := ⟨i - c - 1, by omega⟩
    have hne : ¬c + (j + 1) < c := by omega
    have hsame : (2 * k + 1).testBit (j + 1) = (2 * k).testBit (j + 1) := by
      rw [Nat.testBit_succ, Nat.testBit_succ]
      congr 1
      omega
    have hne' : c + (j + 1) ≠ c := by omega
    simp only [hne, if_false, Nat.add_sub_cancel_left, hsame, Bool.and_self, hne', ne_eq, not_false_eq_true,
      decide_true, Bool.and_true]

/-! ## The order of the visit -/

/-- The first number of a range that meets a test comes first of all that do. -/
theorem filter_range_eq_cons {p : Nat → Bool} {n c : Nat} (hc : c < n) (hp : p c = true)
    (hlow : ∀ i < c, p i = false) :
    (List.range n).filter p = c :: (List.range n).filter (fun i => p i && decide (i ≠ c)) := by
  obtain ⟨d, rfl⟩ : ∃ d, n = c + (1 + d) := ⟨n - c - 1, by omega⟩
  have hnone (q : Nat → Bool) (hq : ∀ i < c, q i = false) : (List.range c).filter q = [] := by
    rw [List.filter_eq_nil_iff]
    intro i hi
    rw [hq i (List.mem_range.mp hi)]
    exact Bool.false_ne_true
  rw [List.range_add, List.range_add, List.map_append, List.filter_append, List.filter_append, List.filter_append,
    List.filter_append, hnone p hlow, hnone _ fun i hi => by rw [hlow i hi, Bool.false_and]]
  have hself : (List.map (c + ·) (List.range 1)) = [c] := rfl
  rw [hself, List.filter_singleton, List.filter_singleton, hp]
  simp only [List.nil_append, ne_eq, not_true_eq_false, decide_false, Bool.and_false, cond_true, cond_false,
    List.singleton_append, List.cons.injEq, true_and]
  apply List.filter_congr
  intro i hi
  obtain ⟨j, hj, rfl⟩ := List.mem_map.mp hi
  obtain ⟨j', -, rfl⟩ := List.mem_map.mp hj
  have : ¬c + (1 + j') = c := by omega
  simp [this]

/-- The set bits of a word, from the lowest up. -/
def bitsOf (bits : BitVec w) : List Nat := (List.range w).filter bits.getLsbD

theorem bitsOf_zero : bitsOf (0 : BitVec w) = [] := by
  rw [bitsOf, List.filter_eq_nil_iff]
  intro i _
  simp

theorem bitsOf_of_ne_zero {bits : BitVec w} (h : bits ≠ 0) :
    bitsOf bits = bits.ctz.toNat :: bitsOf (bits &&& (bits - 1)) := by
  have hset := BitVec.getLsbD_true_ctz_of_ne_zero h
  rw [bitsOf, filter_range_eq_cons (BitVec.lt_of_getLsbD hset) hset fun i hi => BitVec.getLsbD_false_of_lt_ctz hi, bitsOf]
  congr 1
  apply List.filter_congr
  intro i _
  exact (getLsbD_and_sub_one h i).symm

theorem walk_eq_foldl (f : α → Nat → α) {k : Nat} {bits : BitVec w} (hk : (bitsOf bits).length ≤ k) (a : α) :
    walk f k bits a = (bitsOf bits).foldl f a := by
  induction k generalizing bits a with
  | zero => rw [List.eq_nil_of_length_eq_zero (Nat.le_zero.mp hk), walk, List.foldl_nil]
  | succ k ih =>
    rw [walk]
    split_ifs with h
    · rw [h, bitsOf_zero, List.foldl_nil]
    · rw [bitsOf_of_ne_zero h, List.length_cons] at hk
      rw [ih (Nat.le_of_succ_le_succ hk), bitsOf_of_ne_zero h, List.foldl_cons]

/-- As many turns as the word has bits are enough. -/
theorem walk_width (f : α → Nat → α) (bits : BitVec w) (a : α) : walk f w bits a = (bitsOf bits).foldl f a :=
  walk_eq_foldl f ((List.length_filter_le _ _).trans_eq List.length_range) a

/-- A bit of a row of words. -/
def bitAt (words : Nat → BitVec w) (i : Nat) : Bool := (words (i / w)).getLsbD (i % w)

theorem bitAt_word (words : Nat → BitVec w) (k : Nat) {i : Nat} (hi : i < w) :
    bitAt words (w * k + i) = (words k).getLsbD i := by
  rw [bitAt, Nat.mul_add_div (by omega), Nat.div_eq_of_lt hi, Nat.add_zero, Nat.mul_add_mod, Nat.mod_eq_of_lt hi]

/-- A bit of a row of words set or cleared. -/
def setBit (words : Nat → BitVec w) (n : Nat) (on : Bool) : Nat → BitVec w :=
  let bit := BitVec.twoPow w (n % w)
  Function.update words (n / w) (if on then words (n / w) ||| bit else words (n / w) &&& ~~~bit)

theorem bitAt_setBit (hpos : 0 < w) (words : Nat → BitVec w) (n : Nat) (on : Bool) (k : Nat) :
    bitAt (setBit words n on) k = if k = n then on else bitAt words k := by
  have hlt : k % w < w := Nat.mod_lt _ hpos
  rw [bitAt, bitAt, setBit]
  by_cases hw : k / w = n / w
  · have hk : k = n ↔ k % w = n % w := by
      constructor
      · rintro rfl
        rfl
      · intro h
        rw [← Nat.div_add_mod k w, ← Nat.div_add_mod n w, hw, h]
    have hbit : (BitVec.twoPow w (n % w)).getLsbD (k % w) = decide (k = n) := by
      rw [BitVec.getLsbD_twoPow]
      simp [hk, Nat.mod_lt, hpos, eq_comm]
    rw [hw, Function.update_self]
    cases on with
    | false =>
      rw [if_neg Bool.false_ne_true, BitVec.getLsbD_and, BitVec.getLsbD_not, hbit]
      by_cases h : k = n <;> simp [h, hlt]
    | true =>
      rw [if_pos rfl, BitVec.getLsbD_or, hbit]
      by_cases h : k = n <;> simp [h]
  · have hk : k ≠ n := fun h => hw (by rw [h])
    rw [Function.update_of_ne hw, if_neg hk]

/-- The loop over the words visits the bits that are set, in order. -/
theorem walkWords_eq_foldl (f : α → Nat → α) (n : Nat) (words : Nat → BitVec w) (a : α) :
    walkWords f n words a = ((List.range (w * n)).filter (bitAt words)).foldl f a := by
  rw [walkWords]
  induction n generalizing a with
  | zero => rfl
  | succ n ih =>
    rw [List.range_succ, List.foldl_append, ih, Nat.mul_succ, List.range_add, List.filter_append, List.foldl_append,
      List.foldl_cons, List.foldl_nil, walk_width, List.filter_map, List.foldl_map, bitsOf]
    congr 1
    apply List.filter_congr
    intro i hi
    exact (bitAt_word words n (List.mem_range.mp hi)).symm

end BitWalk
