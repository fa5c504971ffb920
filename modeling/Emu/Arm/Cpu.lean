-- SUMMARY: The System Control Space of the ARMv7-M core: the priorities of its exceptions, and what an MPU region allows.
import Mathlib
import Emu.Bus
import Emu.Cpu

/-! # The System Control Space

The state that priorities and permissions are worked out from, with the bits of the System Control Space as sets. What an
exception may preempt depends on the active exceptions, their priorities and the mask registers. SysTick, the trace and
what belongs to the translator are left out. -/

namespace Emu.Arm

variable {μ : Type}

def ipsrMask : Word := 0x1FF
def thumbBit : Word := 1 <<< 24
def controlNpriv : Word := 1

/-! ## Exception numbers -/

def excNmi : Nat := 2
def excHardFault : Nat := 3
def excMemManage : Nat := 4
def excBusFault : Nat := 5
def excUsageFault : Nat := 6
def excSvCall : Nat := 11
def excExternal : Nat := 16

/-- `ARMV7M_NEXC`. -/
def nExc : Nat := 144

/-- The bits of the words that hold one for each exception. -/
def excBits : Nat := 160

/-! ## Status and control bits -/

def ccrStkalign : Word := 1 <<< 9
def ccrBp : Word := 1 <<< 18

def fpccrAspen : Word := 1 <<< 31
def fpccrLspen : Word := 1 <<< 30

/-- `ARMV7M_EXC_RETURN_MASK`. -/
def excReturnMask : Word := 0xF0000000

/-! ## State -/

/-- What the System Control Space holds, and whether the core runs: all an access to the bus can change beside
memory. -/
structure Scs where
  pending : Nat → Bool
  active : Nat → Bool
  /-- By interrupt, sixteen below the exception's number; so is `line`. -/
  enabled : Nat → Bool
  prio : Nat → Byte
  line : Nat → Bool
  vtor : Word
  prigroup : Nat
  ccr : Word
  shcsr : Word
  cfsr : Word
  hfsr : Word
  cpacr : Word
  mpuCtrl : Word
  mpuRbar : Nat → Word
  mpuRasr : Nat → Word
  fpccr : Word
  fpcar : Word
  fpdscr : Word
  state : RunState

/-! ## Priorities -/

namespace Scs

/-- `exc_prio`. -/
def excPrio (s : Scs) (exc : Nat) : Int :=
  if exc = 1 then -3 else if exc = excNmi then -2 else if exc = excHardFault then -1 else (s.prio exc).toNat

/-- `group`: the subpriority bits cleared. -/
def group (s : Scs) (p : Int) : Int :=
  if p < 0 then p else p - p % (2 * 2 ^ s.prigroup)

/-- The loop of `armv7m_exec_priority`. -/
def highest (s : Scs) : Int :=
  (List.range excBits).foldl
    (fun h exc => if s.active exc = true ∧ s.excPrio exc < h then s.excPrio exc else h) 256

/-- `takeable`, for one exception: a system exception always, but for a fault that is disabled; an interrupt while it
is enabled. -/
def takeable (s : Scs) (exc : Nat) : Bool :=
  if exc < excExternal then
    !(decide (excMemManage ≤ exc ∧ exc ≤ excUsageFault) && decide ((s.shcsr >>> (exc + 12)) &&& 1 = 0))
  else decide (exc < nExc) && s.enabled (exc - excExternal)

section

variable (s : Scs)

theorem group_mono {p q : Int} (h : p ≤ q) : s.group p ≤ s.group q := by
  have hpos : (0 : Int) < 2 * 2 ^ s.prigroup := by positivity
  have hround (n : Int) : n - n % (2 * 2 ^ s.prigroup) = 2 * 2 ^ s.prigroup * (n / (2 * 2 ^ s.prigroup)) := by
    have := Int.emod_add_mul_ediv n (2 * 2 ^ s.prigroup)
    omega
  unfold group
  by_cases hq : q < 0
  · rw [if_pos hq, if_pos (lt_of_le_of_lt h hq)]
    exact h
  · rw [if_neg hq]
    split
    · have hge : 0 ≤ q - q % (2 * 2 ^ s.prigroup) := by
        rw [hround]
        exact mul_nonneg hpos.le (Int.ediv_nonneg (by omega) hpos.le)
      omega
    · rw [hround, hround]
      exact mul_le_mul_of_nonneg_left (Int.ediv_le_ediv hpos h) hpos.le

theorem excPrio_ge (exc : Nat) : -3 ≤ s.excPrio exc := by
  unfold excPrio
  split_ifs <;> omega

/-- The loop of the highest priority: no active exception has a higher one. -/
theorem highest_spec : -3 ≤ s.highest ∧ s.highest ≤ 256 ∧
    ∀ exc < excBits, s.active exc = true → s.highest ≤ s.excPrio exc := by
  have hfold : ∀ (l : List Nat) (h : Int), -3 ≤ h →
      let r := l.foldl (fun h exc => if s.active exc = true ∧ s.excPrio exc < h then s.excPrio exc else h) h;
      -3 ≤ r ∧ r ≤ h ∧ ∀ exc ∈ l, s.active exc = true → r ≤ s.excPrio exc := by
    intro l
    induction l with
    | nil => intro h hge; exact ⟨hge, le_refl h, by simp⟩
    | cons exc rest ih =>
      intro h hge
      dsimp only at ih ⊢
      rw [List.foldl_cons]
      by_cases hc : s.active exc = true ∧ s.excPrio exc < h
      · rw [if_pos hc]
        obtain ⟨h1, h2, h3⟩ := ih (s.excPrio exc) (s.excPrio_ge exc)
        refine ⟨h1, h2.trans hc.2.le, ?_⟩
        intro e he hact
        cases List.mem_cons.1 he with
        | inl heq => rw [heq]; exact h2
        | inr hmem => exact h3 e hmem hact
      · rw [if_neg hc]
        obtain ⟨h1, h2, h3⟩ := ih h hge
        refine ⟨h1, h2, ?_⟩
        intro e he hact
        cases List.mem_cons.1 he with
        | inl heq =>
          rw [heq] at hact ⊢
          have : ¬s.excPrio exc < h := fun hlt => hc ⟨hact, hlt⟩
          omega
        | inr hmem => exact h3 e hmem hact
  obtain ⟨h1, h2, h3⟩ := hfold (List.range excBits) 256 (by decide)
  exact ⟨h1, h2, fun exc hexc => h3 exc (List.mem_range.2 hexc)⟩

end

end Scs

namespace Cpu

/-! ## The MPU -/

/-- `ARMV7M_ACC_*`. -/
inductive Acc where
  | read | write | fetch
  deriving DecidableEq, Repr

/-- `armv7m_default_xn`. -/
def defaultXn (addr : Word) : Bool :=
  let top := (addr >>> 28).toNat
  decide (4 ≤ top ∧ top ≤ 5) || decide (10 ≤ top)

/-- What a region says of an access, if it decides it. -/
def regionVerdict (s : Scs) (r : Nat) (addr : Word) (priv : Bool) (acc : Acc) : Option Bool :=
  let rasr := s.mpuRasr r
  let sz := ((rasr >>> 1) &&& 31).toNat
  if rasr &&& 1 = 0 ∨ sz < 4 then none
  else
    let base := s.mpuRbar r &&& ~~~(BitVec.ofNat 32 (2 ^ (sz + 1) - 1))
    let off := (addr - base).toNat
    if 2 ^ (sz + 1) ≤ off then none
    -- subregions exist from 256 bytes up
    else if 7 ≤ sz ∧ ((rasr >>> 8) >>> (off / (2 ^ (sz + 1) / 8))) &&& 1 ≠ 0 then none
    else if acc = .fetch ∧ (rasr >>> 28) &&& 1 ≠ 0 then some false
    else some (match ((rasr >>> 24) &&& 7).toNat with
      | 1 => priv
      | 2 => priv || decide (acc ≠ .write)
      | 3 => true
      | 5 => priv && decide (acc ≠ .write)
      | 6 | 7 => decide (acc ≠ .write)
      | _ => false)

end Cpu

end Emu.Arm
