-- SUMMARY: The System Timer Module: a counter behind a prescaler, four compare channels, its registers, and how time adds up.
import Mathlib
import Emu.Ir.Syntax
import Emu.Lib.Masks

/-! # The System Timer Module

The counter goes up once every `CPS + 1` ticks of the system clock and wraps. A channel that is enabled and not flagged is
flagged when the counter reaches its compare value by counting. Time arrives many ticks at once, so what an advance tests is
whether the value was reached on the way. -/

namespace Emu.Ppc

namespace Stm

def crCps : Word := 0x0000FF00
def crCpsShift : Nat := 8
def crTen : Word := 0x1
def ccrCen : Word := 0x1
def cirCif : Word := 0x1

/-- `divisor`, of a value of STM_CR. -/
def divisorOf (cr : Word) : Nat := ((cr &&& crCps) >>> crCpsShift).toNat + 1

end Stm

/-- `ppc_stm_t`: what the prescaler has counted is below the divisor. -/
@[ext]
structure Stm where
  cr : Word
  cnt : Word
  presc : Nat
  ccr : Fin 4 → Word
  cir : Fin 4 → Word
  cmp : Fin 4 → Word
  presc_lt : presc < Stm.divisorOf cr

namespace Stm

/-- `divisor`. -/
def divisor (s : Stm) : Nat := divisorOf s.cr

/-- The timer counts. -/
def ten (s : Stm) : Bool := s.cr &&& crTen ≠ 0

/-- A channel that is enabled and not flagged. -/
def waits (s : Stm) (n : Fin 4) : Bool := s.ccr n &&& ccrCen ≠ 0 && s.cir n &&& cirCif = 0

/-! ## Time -/

/-- The increments until the counter is at a channel's compare value: a whole turn when it is there already. -/
def need (s : Stm) (n : Fin 4) : Nat := if s.cmp n - s.cnt = 0 then 2 ^ 32 else (s.cmp n - s.cnt).toNat

/-- The ticks until a channel's match. -/
def ticksTo (s : Stm) (n : Fin 4) : Nat := s.need n * s.divisor - s.presc

/-- A turn of the loop of `ppc_stm_until`. -/
def sooner (s : Stm) (best : Nat) (n : Fin 4) : Nat := if s.waits n && s.ticksTo n < best then s.ticksTo n else best

/-- `ppc_stm_until`: the ticks to the next match, or 2³² - 1. -/
def until_ (s : Stm) : Nat := if s.ten then (List.finRange 4).foldl s.sooner 0xFFFFFFFF else 0xFFFFFFFF

/-- The counter reaches a channel's compare value within `k` increments. -/
def reached (s : Stm) (k : Word) (n : Fin 4) : Bool := s.cmp n - s.cnt - 1 < k

/-- The increments of an advance. -/
def steps (s : Stm) (ticks : Nat) : Word := BitVec.ofNat 32 ((s.presc + ticks) / s.divisor)

/-- The prescaler after an advance. -/
def prescale (s : Stm) (ticks : Nat) : Stm :=
  { s with presc := (s.presc + ticks) % s.divisor, presc_lt := Nat.mod_lt _ (Nat.succ_pos _) }

/-- The counter and the flags after `k` increments. -/
def count (s : Stm) (k : Word) : Stm :=
  { s with
    cnt := s.cnt + k
    cir := fun n => if s.waits n && s.reached k n then s.cir n ||| cirCif else s.cir n }

/-- `ppc_stm_advance`. -/
def advance (s : Stm) (ticks : Nat) : Stm :=
  if !s.ten || ticks = 0 then s
  else if s.steps ticks ≠ 0 then (s.prescale ticks).count (s.steps ticks)
  else s.prescale ticks

/-! ## The next match -/

/-- The ticks before the next match are those before each channel's. -/
theorem lt_sooner_foldl {s : Stm} {u : Nat} (l : List (Fin 4)) (best : Nat) :
    u < l.foldl s.sooner best ↔ u < best ∧ ∀ n ∈ l, s.waits n = true → u < s.ticksTo n := by
  induction l generalizing best with
  | nil => simp
  | cons n l ih =>
    rw [List.foldl_cons, ih, List.forall_mem_cons, sooner, ← and_assoc]
    refine and_congr_left fun _ => ?_
    cases hw : s.waits n with
    | false => simp
    | true =>
      simp only [Bool.true_and, decide_eq_true_eq, forall_const]
      split_ifs with hlt
      · constructor
        · exact fun h => ⟨h.trans hlt, h⟩
        · exact fun h => h.2
      · constructor
        · exact fun h => ⟨h, h.trans_le (Nat.le_of_not_lt hlt)⟩
        · exact fun h => h.1

theorem lt_until_iff {s : Stm} {u : Nat} :
    u < s.until_ ↔ u < 0xFFFFFFFF ∧ (s.ten = true → ∀ n, s.waits n = true → u < s.ticksTo n) := by
  rw [until_]
  split_ifs with h
  · rw [lt_sooner_foldl]
    simp [h]
  · simp [h]

/-- The compare value is that many increments away. -/
theorem need_eq (s : Stm) (n : Fin 4) : s.need n = (s.cmp n - s.cnt - 1).toNat + 1 := by
  rw [need]
  generalize s.cmp n - s.cnt = d
  split_ifs with h
  · rw [h]
    rfl
  · have hpos : d.toNat ≠ 0 := fun h0 => h (BitVec.eq_of_toNat_eq h0)
    have hlt := d.isLt
    rw [BitVec.toNat_sub]
    change d.toNat = (2 ^ 32 - 1 + d.toNat) % 2 ^ 32 + 1
    omega

theorem toNat_steps {s : Stm} {ticks : Nat} (h : ticks < 2 ^ 32) :
    (s.steps ticks).toNat = (s.presc + ticks) / s.divisor := by
  have hlt : s.presc < s.divisor := s.presc_lt
  rw [steps, BitVec.toNat_ofNat]
  apply Nat.mod_eq_of_lt
  rw [Nat.div_lt_iff_lt_mul (Nat.zero_lt_of_lt hlt)]
  omega

/-- A channel is reached by then exactly if its ticks have passed. -/
theorem reached_iff {s : Stm} {ticks : Nat} (h : ticks < 2 ^ 32) (n : Fin 4) :
    s.reached (s.steps ticks) n = true ↔ s.ticksTo n ≤ ticks := by
  have hpos : 0 < s.divisor := Nat.zero_lt_of_lt s.presc_lt
  rw [reached, decide_eq_true_iff, BitVec.lt_def, toNat_steps h, ← Nat.add_one_le_iff, ← need_eq,
    Nat.le_div_iff_mul_le hpos, ticksTo]
  omega

theorem prescale_zero (s : Stm) : s.prescale 0 = s := Stm.ext rfl rfl (Nat.mod_eq_of_lt s.presc_lt) rfl rfl rfl

theorem steps_zero (s : Stm) : s.steps 0 = 0 := by
  have hlt : s.presc < s.divisor := s.presc_lt
  rw [steps, Nat.add_zero, Nat.div_eq_of_lt hlt]
  rfl

theorem count_zero (s : Stm) : s.count 0 = s := by
  have hnone (n : Fin 4) : s.reached 0 n = false := decide_eq_false BitVec.not_lt_zero
  refine Stm.ext rfl (BitVec.add_zero _) rfl rfl (funext fun n => ?_) rfl
  change (if s.waits n && s.reached 0 n then _ else s.cir n) = s.cir n
  rw [hnone, Bool.and_false, if_neg Bool.false_ne_true]

theorem advance_of_stopped {s : Stm} (h : s.ten = false) (ticks : Nat) : s.advance ticks = s := by
  rw [advance, h]
  rfl

/-- The two ways out before the counting do what it would. -/
theorem advance_of_ten {s : Stm} (h : s.ten = true) (ticks : Nat) :
    s.advance ticks = (s.prescale ticks).count (s.steps ticks) := by
  rw [advance, h]
  split_ifs with h0 hk
  · have hticks : ticks = 0 := by simpa using h0
    rw [hticks, prescale_zero, steps_zero, count_zero]
  · rfl
  · rw [not_not.mp hk, count_zero]

theorem cir_advance {s : Stm} {ticks : Nat} (hten : s.ten = true) (h : ticks < 2 ^ 32) (n : Fin 4) :
    (s.advance ticks).cir n = if s.waits n = true ∧ s.ticksTo n ≤ ticks then s.cir n ||| cirCif else s.cir n := by
  rw [advance_of_ten hten]
  change (if s.waits n && s.reached (s.steps ticks) n then _ else _) = _
  simp only [Bool.and_eq_true, reached_iff h]
  rfl

/-! ## Time adds up -/

theorem prescale_prescale (s : Stm) (a b : Nat) : (s.prescale a).prescale b = s.prescale (a + b) := by
  refine Stm.ext rfl rfl ?_ rfl rfl rfl
  change ((s.presc + a) % s.divisor + b) % s.divisor = (s.presc + (a + b)) % s.divisor
  rw [Nat.mod_add_mod, Nat.add_assoc]

theorem steps_prescale (s : Stm) (a b : Nat) : s.steps a + (s.prescale a).steps b = s.steps (a + b) := by
  have hpos : 0 < s.divisor := Nat.zero_lt_of_lt s.presc_lt
  change BitVec.ofNat 32 _ + BitVec.ofNat 32 (((s.presc + a) % s.divisor + b) / s.divisor) = BitVec.ofNat 32 _
  rw [← BitVec.ofNat_add]
  congr 1
  conv_rhs => rw [← Nat.add_assoc, ← Nat.div_add_mod (s.presc + a) s.divisor, Nat.add_assoc, Nat.mul_add_div hpos]

/-- What is left to a channel's match after an advance that does not come to it. -/
theorem ticksTo_advance {s : Stm} {a : Nat} {n : Fin 4} (hten : s.ten = true) (ha : a < s.ticksTo n) (h : a < 2 ^ 32) :
    (s.advance a).ticksTo n = s.ticksTo n - a := by
  have hpos : 0 < s.divisor := Nat.zero_lt_of_lt s.presc_lt
  have hsteps := toNat_steps (s := s) h
  have hnot : ¬s.reached (s.steps a) n = true := by
    rw [reached_iff h]
    omega
  have hneed : (s.advance a).need n = s.need n - (s.presc + a) / s.divisor := by
    rw [reached, decide_eq_true_iff, BitVec.lt_def, Nat.not_lt] at hnot
    rw [need_eq, need_eq, advance_of_ten hten]
    change (s.cmp n - (s.cnt + s.steps a) - 1).toNat + 1 = _
    have hsub : s.cmp n - (s.cnt + s.steps a) - 1 = s.cmp n - s.cnt - 1 - s.steps a := by
      generalize s.steps a = k
      abel
    rw [hsub, BitVec.toNat_sub_of_le (BitVec.le_def.mpr hnot), hsteps]
    rw [hsteps] at hnot
    omega
  have hdiv := Nat.div_add_mod (s.presc + a) s.divisor
  rw [ticksTo, hneed, advance_of_ten hten]
  change (s.need n - (s.presc + a) / s.divisor) * s.divisor - (s.presc + a) % s.divisor = _
  rw [Nat.sub_mul, ticksTo, Nat.mul_comm ((s.presc + a) / s.divisor)]
  omega

theorem flagged (x : Word) : ¬(x ||| cirCif) &&& cirCif = 0 := by
  rw [Masks.or_and_self_right]
  decide

theorem waits_advance {s : Stm} {a : Nat} (hten : s.ten = true) (h : a < 2 ^ 32) (n : Fin 4) :
    (s.advance a).waits n = (s.waits n && decide (a < s.ticksTo n)) := by
  have hccr : (s.advance a).ccr n = s.ccr n := by
    rw [advance_of_ten hten]
    rfl
  rw [waits, hccr, cir_advance hten h]
  by_cases hle : s.ticksTo n ≤ a
  · rw [decide_eq_false (Nat.not_lt.mpr hle), Bool.and_false]
    by_cases hw : s.waits n = true
    · rw [if_pos ⟨hw, hle⟩, decide_eq_false (flagged _), Bool.and_false]
    · rw [if_neg fun h => hw h.1, ← waits]
      simpa using hw
  · rw [if_neg fun h => hle h.2, ← waits, decide_eq_true (Nat.lt_of_not_le hle), Bool.and_true]

theorem cir_advance_add {s : Stm} {a b : Nat} (hten : s.ten = true) (hten' : (s.advance a).ten = true)
    (h : a + b < 2 ^ 32) (n : Fin 4) : (s.advance (a + b)).cir n = ((s.advance a).advance b).cir n := by
  have ha : a < 2 ^ 32 := by omega
  rw [cir_advance hten h, cir_advance hten' (by omega), cir_advance hten ha, waits_advance hten ha]
  by_cases hw : s.waits n = true
  · by_cases hlt : a < s.ticksTo n
    · -- the match is still to come, and what is left of it is what the second advance is held against
      have hle : s.ticksTo n ≤ a + b ↔ s.ticksTo n - a ≤ b := by omega
      rw [ticksTo_advance hten hlt ha]
      simp only [hw, hlt, hle, Nat.not_le.mpr hlt, decide_true, Bool.and_true, true_and, and_false, if_false]
    · have hle : s.ticksTo n ≤ a := Nat.le_of_not_lt hlt
      have hle' : s.ticksTo n ≤ a + b := Nat.le_add_right_of_le hle
      simp only [hw, hlt, hle, hle', decide_false, Bool.and_false, Bool.false_eq_true, false_and, if_false, and_self,
        if_true]
  · simp only [hw, Bool.false_and, Bool.false_eq_true, false_and, if_false]

/-- An advance may be split anywhere. -/
theorem advance_add (s : Stm) {a b : Nat} (h : a + b < 2 ^ 32) : s.advance (a + b) = (s.advance a).advance b := by
  cases hten : s.ten with
  | false => rw [advance_of_stopped hten, advance_of_stopped hten, advance_of_stopped hten]
  | true =>
    have hten' : (s.advance a).ten = true := by
      rw [advance_of_ten hten]
      exact hten
    have hpast : s.advance a = (s.prescale a).count (s.steps a) := advance_of_ten hten a
    have hcnt : s.cnt + s.steps (a + b) = s.cnt + s.steps a + (s.prescale a).steps b := by
      rw [← steps_prescale, BitVec.add_assoc]
    have hpresc : (s.prescale (a + b)).presc = ((s.prescale a).prescale b).presc := by rw [prescale_prescale]
    refine Stm.ext ?_ ?_ ?_ ?_ (funext fun n => ?_) ?_
    · rw [advance_of_ten hten, advance_of_ten hten', hpast]
      rfl
    · rw [advance_of_ten hten, advance_of_ten hten', hpast]
      exact hcnt
    · rw [advance_of_ten hten, advance_of_ten hten', hpast]
      exact hpresc
    · rw [advance_of_ten hten, advance_of_ten hten', hpast]
      rfl
    · exact cir_advance_add hten hten' h n
    · rw [advance_of_ten hten, advance_of_ten hten', hpast]
      rfl

end Stm

end Emu.Ppc
