-- SUMMARY: SysTick: a block's instructions counted at once leave what counting them one by one leaves.
import Emu.Arm.Nvic

/-! # SysTick

The interpreter ticks the counter after each instruction. A translated block reports how many instructions it retired,
and the counter moves by all of them at once where it cannot reach zero. -/

namespace Emu.Arm.Nvic

/-! ## The counter -/

def setSystickValue (s : Nvic) (v : Word) : Nvic := { s with systickValue := v }

/-- What a tick to zero does beside. -/
def systickExpire (s : Nvic) : Nvic :=
  if s.systickCtrl &&& 2 ≠ 0 then { s with systickCountflag := true }.setPending excSysTick true
  else { s with systickCountflag := true }

/-- A turn of the loop of `armv7m_systick_tick`. The reload takes a tick of its own. -/
def systickTurn (s : Nvic) : Nvic :=
  if s.systickValue = 0 then s.setSystickValue s.systickReload
  else if s.systickValue - 1 = 0 then (s.setSystickValue (s.systickValue - 1)).systickExpire
  else s.setSystickValue (s.systickValue - 1)

/-- `armv7m_systick_tick`. -/
def systickTick (s : Nvic) (insns : Nat) : Nvic :=
  if s.systickCtrl &&& 1 = 0 then s else systickTurn^[insns] s

def addRetired (s : Nvic) (n : BitVec 64) : Nvic := { s with retired := s.retired + n }

/-- What `armv7m_run` does for an instruction that completed. -/
def retire (s : Nvic) : Nvic :=
  let s := s.addRetired 1
  if s.systickCtrl &&& 1 ≠ 0 then
    if 1 < s.systickValue then s.setSystickValue (s.systickValue - 1) else s.systickTick 1
  else s

/-- `a7_count`. -/
def a7Count (s : Nvic) (n : Word) : Nvic :=
  let s := s.addRetired (n.setWidth 64)
  if s.systickCtrl &&& 1 = 0 then s
  else if n < s.systickValue then s.setSystickValue (s.systickValue - n)
  else (fun s => s.systickTick 1)^[n.toNat] s

/-! ## One tick -/

variable {s : Nvic}

theorem setPending_systickCtrl (exc : Nat) (on : Bool) : (s.setPending exc on).systickCtrl = s.systickCtrl := by
  unfold setPending pendingPut
  split_ifs <;> rfl

theorem systickExpire_systickCtrl : s.systickExpire.systickCtrl = s.systickCtrl := by
  unfold systickExpire
  split_ifs
  · exact setPending_systickCtrl _ _
  · rfl

theorem systickTurn_systickCtrl : s.systickTurn.systickCtrl = s.systickCtrl := by
  unfold systickTurn
  split_ifs
  · rfl
  · exact systickExpire_systickCtrl
  · rfl

theorem setPending_addRetired (exc : Nat) (on : Bool) (n : BitVec 64) :
    (s.addRetired n).setPending exc on = (s.setPending exc on).addRetired n := by
  unfold setPending pendingPut addRetired
  split_ifs <;> rfl

theorem systickExpire_addRetired (n : BitVec 64) : (s.addRetired n).systickExpire = s.systickExpire.addRetired n := by
  unfold systickExpire
  rw [apply_ite (addRetired · n)]
  exact if_congr Iff.rfl (setPending_addRetired (s := { s with systickCountflag := true }) _ _ _) rfl

theorem systickTurn_addRetired (n : BitVec 64) : (s.addRetired n).systickTurn = s.systickTurn.addRetired n := by
  unfold systickTurn
  rw [apply_ite (addRetired · n), apply_ite (addRetired · n)]
  exact if_congr Iff.rfl rfl (if_congr Iff.rfl (systickExpire_addRetired (s := s.setSystickValue _) n) rfl)

theorem systickTick_one (h : s.systickCtrl &&& 1 ≠ 0) : s.systickTick 1 = s.systickTurn := by
  rw [systickTick, if_neg h, Function.iterate_one]

/-- Above one a tick only counts down. -/
theorem systickTurn_of_one_lt (h : 1 < s.systickValue) :
    s.systickTurn = s.setSystickValue (s.systickValue - 1) := by
  have h0 : s.systickValue ≠ 0 := by
    intro h0
    rw [h0] at h
    exact absurd h (by decide)
  have h1 : s.systickValue - 1 ≠ 0 := by
    rw [Ne, BitVec.sub_eq_iff_eq_add]
    intro h1
    rw [h1] at h
    exact absurd h (by decide)
  rw [systickTurn, if_neg h0, if_neg h1]

/-- The shortcut of the run loop is a tick. -/
theorem retire_eq (h : s.systickCtrl &&& 1 ≠ 0) : s.retire = (s.addRetired 1).systickTurn := by
  rw [retire, if_pos (show (s.addRetired 1).systickCtrl &&& 1 ≠ 0 from h)]
  split_ifs with hlt
  · exact (systickTurn_of_one_lt hlt).symm
  · exact systickTick_one (s := s.addRetired 1) h

/-! ## Many -/

theorem addRetired_add (a b : BitVec 64) : (s.addRetired a).addRetired b = s.addRetired (a + b) := by
  rw [addRetired, addRetired, addRetired, BitVec.add_assoc]

theorem iterate_systickTurn_addRetired (n : Nat) (k : BitVec 64) :
    systickTurn^[n] (s.addRetired k) = (systickTurn^[n] s).addRetired k := by
  induction n generalizing s with
  | zero => rfl
  | succ n ih => rw [Function.iterate_succ_apply, systickTurn_addRetired, ih, Function.iterate_succ_apply]

/-- Instructions retired one by one, while the counter is enabled: so many ticks. -/
theorem iterate_retire_of_enabled (h : s.systickCtrl &&& 1 ≠ 0) (n : Nat) :
    retire^[n] s = (systickTurn^[n] s).addRetired (BitVec.ofNat 64 n) := by
  induction n generalizing s with
  | zero =>
    rw [Function.iterate_zero, Function.iterate_zero, id_eq, addRetired]
    simp
  | succ n ih =>
    have hctrl : (s.addRetired 1).systickTurn.systickCtrl &&& 1 ≠ 0 := by
      rw [systickTurn_systickCtrl]
      exact h
    rw [Function.iterate_succ_apply, retire_eq h, ih hctrl, systickTurn_addRetired, iterate_systickTurn_addRetired,
      addRetired_add, Function.iterate_succ_apply, BitVec.ofNat_add, BitVec.add_comm]
    rfl

theorem iterate_retire_of_disabled (h : s.systickCtrl &&& 1 = 0) (n : Nat) :
    retire^[n] s = s.addRetired (BitVec.ofNat 64 n) := by
  induction n generalizing s with
  | zero =>
    rw [Function.iterate_zero, id_eq, addRetired]
    simp
  | succ n ih =>
    have hstep : s.retire = s.addRetired 1 := by
      rw [retire, if_neg (show ¬(s.addRetired 1).systickCtrl &&& 1 ≠ 0 from not_not_intro h)]
    rw [Function.iterate_succ_apply, hstep, ih (s := s.addRetired 1) h, addRetired_add, BitVec.ofNat_add, BitVec.add_comm]
    rfl

theorem iterate_systickTick (h : s.systickCtrl &&& 1 ≠ 0) (n : Nat) :
    (fun s => systickTick s 1)^[n] s = systickTurn^[n] s := by
  induction n generalizing s with
  | zero => rfl
  | succ n ih =>
    have hctrl : s.systickTurn.systickCtrl &&& 1 ≠ 0 := by
      rw [systickTurn_systickCtrl]
      exact h
    rw [Function.iterate_succ_apply, systickTick_one h, ih hctrl, Function.iterate_succ_apply]

/-- Ticks that leave the counter above zero. -/
theorem iterate_systickTurn_of_lt {n : Nat} (h : n < s.systickValue.toNat) :
    systickTurn^[n] s = s.setSystickValue (s.systickValue - BitVec.ofNat 32 n) := by
  induction n generalizing s with
  | zero =>
    rw [Function.iterate_zero, id_eq, BitVec.sub_zero]
    rfl
  | succ n ih =>
    have hlt : 1 < s.systickValue := by
      rw [BitVec.lt_def]
      exact Nat.lt_of_le_of_lt (Nat.le_add_left 1 n) h
    have hval : (s.systickValue - 1).toNat = s.systickValue.toNat - 1 :=
      BitVec.toNat_sub_of_le (BitVec.le_def.mpr (Nat.le_of_lt (BitVec.lt_def.mp hlt)))
    have hlow : n < (s.setSystickValue (s.systickValue - 1)).systickValue.toNat := by
      rw [setSystickValue, hval]
      omega
    rw [Function.iterate_succ_apply, systickTurn_of_one_lt hlt, ih hlow, BitVec.ofNat_add, setSystickValue,
      setSystickValue, setSystickValue, BitVec.add_comm, ← BitVec.sub_sub]
    rfl

/-- `a7_count` is the retire path, once for each instruction. -/
theorem a7Count_eq_iterate_retire (s : Nvic) (n : Word) : s.a7Count n = retire^[n.toNat] s := by
  have hn : n.setWidth 64 = BitVec.ofNat 64 n.toNat := (BitVec.ofNat_toNat 64 n).symm
  rw [a7Count, hn]
  by_cases hen : s.systickCtrl &&& 1 = 0
  · rw [if_pos (show (s.addRetired _).systickCtrl &&& 1 = 0 from hen), iterate_retire_of_disabled hen]
  · rw [if_neg (show ¬(s.addRetired _).systickCtrl &&& 1 = 0 from hen), iterate_retire_of_enabled hen]
    split_ifs with hlt
    · have hturns : systickTurn^[n.toNat] s = s.setSystickValue (s.systickValue - BitVec.ofNat 32 n.toNat) :=
        iterate_systickTurn_of_lt (BitVec.lt_def.mp hlt)
      rw [hturns, BitVec.ofNat_toNat, BitVec.ofNat_toNat, BitVec.setWidth_eq]
      rfl
    · rw [iterate_systickTick (s := s.addRetired _) hen, iterate_systickTurn_addRetired]

/-- However the instructions of a run are divided into blocks, the counter, COUNTFLAG and what is pending are what the
interpreter's updates one by one leave. -/
theorem count_matches_interpreter (s : Nvic) (n : Word) :
    s.a7Count n = retire^[n.toNat] s ∧
      ∀ n₁ n₂ : Word, n₁.toNat + n₂.toNat = n.toNat → (s.a7Count n₁).a7Count n₂ = s.a7Count n := by
  refine ⟨a7Count_eq_iterate_retire s n, fun n₁ n₂ h => ?_⟩
  rw [a7Count_eq_iterate_retire, a7Count_eq_iterate_retire, a7Count_eq_iterate_retire, ← Function.iterate_add_apply,
    Nat.add_comm, h]

/-- A counter of period three, one tick before it pends. -/
def ticking : Nvic := { blank.resetState with systickCtrl := 3, systickReload := 2, systickValue := 1 }

theorem count_matches_interpreter_ticking :
    (3 : Word).toNat + (4 : Word).toNat = (7 : Word).toNat ∧
      (ticking.a7Count 3).a7Count 4 = ticking.a7Count 7 ∧ (ticking.a7Count 7).isPending excSysTick = true :=
  ⟨by decide, (count_matches_interpreter ticking 7).2 3 4 (by decide), by decide⟩

end Emu.Arm.Nvic
