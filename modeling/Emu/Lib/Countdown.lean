-- SUMMARY: Counting without stepping: where a counter that reloads stands after any number of steps.
import Mathlib

/-! # Counting without stepping

A counter goes down by one and is reloaded on the step from 0, so where it stands after any number of steps is a remainder
(`iterate_tick`). -/

namespace Countdown

/-- A step of a counter that is reloaded with `r`. -/
def tick (r c : Nat) : Nat := if c = 0 then r else c - 1

theorem succ_mod {m p : Nat} (hp : 0 < p) : (m + 1) % p = if m % p + 1 = p then 0 else m % p + 1 := by
  have hdiv := Nat.div_add_mod m p
  have hlt := Nat.mod_lt m hp
  split_ifs with h
  · rw [← hdiv, Nat.add_assoc, h, Nat.add_mod_right, Nat.mul_mod_right]
  · calc (m + 1) % p = (p * (m / p) + (m % p + 1)) % p := by rw [← Nat.add_assoc, hdiv]
      _ = (m % p + 1) % p := Nat.mul_add_mod ..
      _ = m % p + 1 := Nat.mod_eq_of_lt (by omega)

/-- Where the counter stands after so many steps. -/
theorem iterate_tick (r c n : Nat) : (tick r)^[n] c = if n ≤ c then c - n else r - (n - c - 1) % (r + 1) := by
  induction n with
  | zero => simp
  | succ n ih =>
    rw [Function.iterate_succ_apply', ih]
    rcases Nat.lt_trichotomy n c with h | rfl | h
    · rw [if_pos (Nat.le_of_lt h), if_pos (Nat.succ_le_of_lt h), tick, if_neg (by omega)]
      omega
    · rw [if_pos le_rfl, Nat.sub_self, tick, if_pos rfl, if_neg (by omega), show n + 1 - n - 1 = 0 by omega, Nat.zero_mod]
      rfl
    · -- past the first reload: the remainder is one more, or 0 again where the counter was
      have hpos : 0 < r + 1 := Nat.succ_pos r
      have hlt := Nat.mod_lt (n - c - 1) hpos
      rw [if_neg (Nat.not_le.mpr h), if_neg (Nat.not_le.mpr (Nat.lt_succ_of_lt h)),
        show n + 1 - c - 1 = n - c - 1 + 1 by omega, succ_mod hpos, tick]
      generalize (n - c - 1) % (r + 1) = m at hlt ⊢
      split_ifs <;> omega

theorem tick_le {r c b : Nat} (hr : r ≤ b) (hc : c ≤ b) : tick r c ≤ b := by
  rw [tick]
  split_ifs <;> omega

theorem iterate_tick_le {r c b : Nat} (hr : r ≤ b) (hc : c ≤ b) (n : Nat) : (tick r)^[n] c ≤ b := by
  induction n with
  | zero => exact hc
  | succ n ih =>
    rw [Function.iterate_succ_apply']
    exact tick_le hr ih

end Countdown
