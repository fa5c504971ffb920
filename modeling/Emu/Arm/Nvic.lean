-- SUMMARY: The System Control Space word by word: pending and active bits, priorities, SysTick and the registers.
import Emu.Arm.Cpu
import Emu.Lib.BitWalk
import Emu.Lib.Masks

/-! # The NVIC and the System Control Space

The state behind the System Control Space as the core keeps it: the pending, active, enable and line bits in words,
numbered by exception or, sixteen below, by interrupt; beside them what the core remembers about them, `pending_any` and
`irq_maybe`. An access to the System Control Space reads and writes this state through the registers. A row of words is a
function of the index: what a number past its end selects is a word that nothing else is. -/

namespace Emu.Arm

/-! ## Bits of a row of words -/

/-- `bit_get`. -/
def bitGet (m : Nat → Word) (n : Nat) : Bool := decide ((m (n / 32) >>> (n % 32)) &&& 1 ≠ 0)

/-- `bit_put`. -/
def bitPut (m : Nat → Word) (n : Nat) (on : Bool) : Nat → Word :=
  let bit := BitVec.twoPow 32 (n % 32)
  Function.update m (n / 32) (if on then m (n / 32) ||| bit else m (n / 32) &&& ~~~bit)

theorem bitGet_eq_bitAt (m : Nat → Word) (n : Nat) : bitGet m n = BitWalk.bitAt m n := by
  rw [bitGet, BitWalk.bitAt, Bool.eq_iff_iff, decide_eq_true_iff, Ne, Masks.shiftRight_and_one_eq_zero, Bool.not_eq_false]

theorem bitGet_bitPut (m : Nat → Word) (n : Nat) (on : Bool) (k : Nat) :
    bitGet (bitPut m n on) k = if k = n then on else bitGet m k := by
  rw [bitGet_eq_bitAt, bitGet_eq_bitAt]
  exact BitWalk.bitAt_setBit (by decide) m n on k

/-! ## State -/

/-- `ARMV7M_NIRQ`: the interrupts there are words for. -/
def nIrq : Nat := 128

/-- `ARMV7M_NIRQ_IMPL`: the interrupts the part has. -/
def nIrqImpl : Nat := 98

/-- `ARMV7M_NEXC_WORDS`. -/
def nExcWords : Nat := 5

def excDebugMon : Nat := 12
def excPendSv : Nat := 14
def excSysTick : Nat := 15

/-- What `armv7m_cpu_t` holds of the exception model and of the registers of the System Control Space. -/
structure Nvic where
  xpsr : Word
  primask : Word
  faultmask : Word
  basepri : Word
  /-- By exception; so is `active`. -/
  pending : Nat → Word
  pendingAny : Bool
  active : Nat → Word
  /-- By interrupt; so is `line`. -/
  enabled : Nat → Word
  prio : Nat → Byte
  line : Nat → Word
  vtor : Word
  prigroup : Word
  scr : Word
  ccr : Word
  shcsr : Word
  cfsr : Word
  hfsr : Word
  mmfar : Word
  bfar : Word
  cpacr : Word
  systickCtrl : Word
  systickReload : Word
  systickValue : Word
  systickCountflag : Bool
  mpuCtrl : Word
  mpuRnr : Word
  mpuRbar : Nat → Word
  mpuRasr : Nat → Word
  fpccr : Word
  fpcar : Word
  fpdscr : Word
  state : RunState
  retired : BitVec 64
  jitGen : Word
  irqMaybe : Bool

namespace Nvic

/-- A core that was never reset. -/
def blank : Nvic where
  xpsr := 0
  primask := 0
  faultmask := 0
  basepri := 0
  pending := fun _ => 0
  pendingAny := false
  active := fun _ => 0
  enabled := fun _ => 0
  prio := fun _ => 0
  line := fun _ => 0
  vtor := 0
  prigroup := 0
  scr := 0
  ccr := 0
  shcsr := 0
  cfsr := 0
  hfsr := 0
  mmfar := 0
  bfar := 0
  cpacr := 0
  systickCtrl := 0
  systickReload := 0
  systickValue := 0
  systickCountflag := false
  mpuCtrl := 0
  mpuRnr := 0
  mpuRbar := fun _ => 0
  mpuRasr := fun _ => 0
  fpccr := 0
  fpcar := 0
  fpdscr := 0
  state := .halted
  retired := 0
  jitGen := 0
  irqMaybe := false

variable (s : Nvic)

/-- `armv7m_reset_state`. The vector table, the run state and what the translator keeps stay. -/
def resetState : Nvic :=
  { blank with
    xpsr := thumbBit
    ccr := ccrStkalign ||| ccrBp
    fpccr := fpccrAspen ||| fpccrLspen
    vtor := s.vtor
    state := s.state
    retired := s.retired
    jitGen := s.jitGen
    irqMaybe := s.irqMaybe }

/-! ## Pending -/

/-- The words of a row, all in one. -/
def anyWord (m : Nat → Word) (n : Nat) : Word := (List.range n).foldl (fun any w => any ||| m w) 0

/-- `pending_put`. -/
def pendingPut (exc : Nat) (on : Bool) : Nvic :=
  let pending := bitPut s.pending exc on
  { s with pending := pending, pendingAny := decide (anyWord pending nExcWords ≠ 0) }

/-- `armv7m_is_pending`. -/
def isPending (exc : Nat) : Bool := decide (exc < nExc) && bitGet s.pending exc

/-- `armv7m_is_active`. -/
def isActive (exc : Nat) : Bool := decide (exc < nExc) && bitGet s.active exc

/-- `armv7m_set_pending`. -/
def setPending (exc : Nat) (on : Bool) : Nvic :=
  if 2 ≤ exc ∧ exc < nExc then
    let s := s.pendingPut exc on
    if on then { s with irqMaybe := true } else s
  else s

/-! ## Priorities -/

/-- `exc_prio`. -/
def excPrio (exc : Nat) : Int :=
  if exc = 1 then -3 else if exc = excNmi then -2 else if exc = excHardFault then -1 else (s.prio exc).toNat

/-- `group`. -/
def group (p : Int) : Int :=
  let groupvalue : Int := 2 * 2 ^ s.prigroup.toNat
  if p < 0 then p else p - p % groupvalue

/-- The walk of `armv7m_exec_priority` over the active words. -/
def highest : Int :=
  BitWalk.walkWords (fun highest exc => if s.excPrio exc < highest then s.excPrio exc else highest)
    nExcWords s.active 256

/-- `armv7m_exec_priority`. -/
def execPriority : Int :=
  let highest := s.group s.highest
  let boosted : Int := if s.basepri &&& 0xF0 ≠ 0 then s.group (s.basepri &&& 0xF0).toNat else 256
  let boosted := if s.primask ≠ 0 then 0 else boosted
  let boosted := if s.faultmask ≠ 0 then -1 else boosted
  if boosted < highest then boosted else highest

/-- `takeable`: a word of the enable bits straddles two of the pending bits. -/
def takeable (w : Nat) : Word :=
  let nbank := nIrq / 32
  let lo : Word := if 1 ≤ w ∧ w - 1 < nbank then s.enabled (w - 1) >>> 16 else 0
  let hi : Word := if w < nbank then s.enabled w <<< 16 else 0
  let off : Word := (~~~s.shcsr >>> 12) &&& 0x70
  if w = 0 then (0xFFFF &&& ~~~off) ||| hi else lo ||| hi

/-- The walk of `armv7m_pending_exc` over the pending words: the best exception so far, and its priority. -/
def best : Nat × Int :=
  BitWalk.walkWords (fun best exc => if s.excPrio exc < best.2 then (exc, s.excPrio exc) else best)
    nExcWords (fun w => s.pending w &&& s.takeable w) (0, 0x7FFFFFFF)

/-- `armv7m_pending_exc`: the exception that would be taken next, and whether it can preempt what runs. -/
def pendingExc : Nat × Bool :=
  if anyWord s.pending nExcWords = 0 then (0, false)
  else (s.best.1, decide (s.best.1 ≠ 0) && decide (s.group s.best.2 < s.execPriority))

/-- `armv7m_handler_mode`. -/
def handlerMode : Bool := decide (s.xpsr &&& ipsrMask ≠ 0)

/-- `armv7m_rettobase`. -/
def rettobase : Word :=
  if s.handlerMode = false then 0
  else if (List.range nExcWords).foldl (fun n w => n + (s.active w).cpop) 0 ≤ 1 then 1 else 0

/-! ## Entry and return -/

/-- The end of `exception_taken`. -/
def taken (exc : Nat) : Nvic := { s with active := bitPut s.active exc true }.pendingPut exc false

/-- `deactivate`. -/
def deactivate (exc : Nat) : Nvic :=
  let s := { s with active := bitPut s.active exc false, faultmask := if exc ≠ excNmi then 0 else s.faultmask }
  if excExternal ≤ exc ∧ bitGet s.line (exc - excExternal) = true then s.pendingPut exc true else s

/-- `armv7m_set_irq`. -/
def setIrq (source : Nat) (level : Bool) : Nvic :=
  if nIrqImpl ≤ source then s
  else
    let s := { s with line := bitPut s.line source level }
    if level then s.setPending (excExternal + source) true else s

/-! ## Pending and active, as SHCSR and ICSR show them -/

/-- The bits of SHCSR that show an active exception. -/
def shcsrActive : List (Nat × Nat) :=
  [(excMemManage, 0), (excBusFault, 1), (excUsageFault, 3), (excSvCall, 7), (excDebugMon, 8), (excPendSv, 10),
    (excSysTick, 11)]

/-- The bits of SHCSR that show a pending exception. -/
def shcsrPended : List (Nat × Nat) :=
  [(excUsageFault, 12), (excMemManage, 13), (excBusFault, 14), (excSvCall, 15)]

/-- A bit of a register that is being put together. -/
def orBit (v : Word) (on : Bool) (bit : Nat) : Word := v ||| if on then BitVec.twoPow 32 bit else 0

/-- `shcsr_read`. -/
def shcsrRead : Word :=
  let v := shcsrActive.foldl (fun v p => orBit v (s.isActive p.1) p.2) (s.shcsr &&& 0x00070000)
  shcsrPended.foldl (fun v p => orBit v (s.isPending p.1) p.2) v

/-- `set_active`. -/
def setActive (exc : Nat) (on : Bool) : Nvic := { s with active := bitPut s.active exc on }

/-- `shcsr_write`. -/
def shcsrWrite (v : Word) : Nvic :=
  let s := { s with shcsr := v &&& 0x00070000 }
  let s := shcsrActive.foldl (fun s p => s.setActive p.1 (v.getLsbD p.2)) s
  shcsrPended.foldl (fun s p => s.setPending p.1 (v.getLsbD p.2)) s

/-- `icsr_read`. ISRPENDING is put together from the words from the one with the first interrupt on. -/
def icsrRead : Word :=
  let isr := (List.range (nIrq / 32)).any fun i => decide (s.pending (excExternal / 32 + i) ≠ 0)
  let v := (s.xpsr &&& ipsrMask) ||| s.rettobase <<< 11 ||| (BitVec.ofNat 32 s.pendingExc.1 &&& 0x1FF) <<< 12
  let v := orBit v isr 22
  let v := orBit v (s.isPending excSysTick) 26
  let v := orBit v (s.isPending excPendSv) 28
  orBit v (s.isPending excNmi) 31

/-- The bits of ICSR that pend or clear an exception, in the order they are looked at. -/
def icsrBits : List (Nat × Nat × Bool) :=
  [(31, excNmi, true), (28, excPendSv, true), (27, excPendSv, false), (26, excSysTick, true), (25, excSysTick, false)]

/-- `icsr_write`. -/
def icsrWrite (v : Word) : Nvic :=
  icsrBits.foldl (fun s b => if v.getLsbD b.1 then s.setPending b.2.1 b.2.2 else s) s

/-! ## Bytes: the priorities and the fault status -/

def offIpr : Nat := 0x400
def offShpr1 : Nat := 0xD18
def offCfsr : Nat := 0xD28

/-- `prio_byte`: the exception whose priority is at an offset. -/
def prioByte (off : Nat) : Option Nat :=
  if offIpr ≤ off ∧ off < offIpr + nIrqImpl then some (excExternal + (off - offIpr))
  else if offShpr1 ≤ off ∧ off < offShpr1 + 12 then some (4 + (off - offShpr1))
  else none

/-- The system exceptions whose priority is reserved. -/
def reserved (exc : Nat) : Bool := decide (7 ≤ exc ∧ exc ≤ 10) || decide (exc = 13)

/-- `byte_read`. -/
def byteRead (off : Nat) : Option Byte :=
  match prioByte off with
  | some exc => some (if reserved exc then 0 else s.prio exc)
  | none =>
    if offCfsr ≤ off ∧ off < offCfsr + 4 then some ((s.cfsr >>> (8 * (off - offCfsr))).setWidth 8) else none

/-- `byte_write`. -/
def byteWrite (off : Nat) (v : Byte) : Option Nvic :=
  match prioByte off with
  | some exc => some (if reserved exc then s else { s with prio := Function.update s.prio exc (v &&& 0xF0) })
  | none =>
    if offCfsr ≤ off ∧ off < offCfsr + 4 then
      some { s with cfsr := s.cfsr &&& ~~~(v.setWidth 32 <<< (8 * (off - offCfsr))) }
    else none

/-! ## Words -/

/-- `impl_mask`: the lines that exist, of a bank. -/
def implMask (bank : Nat) : Word :=
  let first := 32 * bank
  if nIrqImpl ≤ first then 0
  else if 32 ≤ nIrqImpl - first then 0xFFFFFFFF
  else BitVec.twoPow 32 (nIrqImpl - first) - 1

/-- `nvic_bank`. -/
def nvicBank (bits : Nat → Word) (bank : Nat) : Word := if nIrq / 32 ≤ bank then 0 else bits bank

/-- `irq_bank`: a bank of interrupts out of words by exception. -/
def irqBank (excBits : Nat → Word) (bank : Nat) : Word :=
  if nIrq / 32 ≤ bank then 0
  else
    let first := excExternal + 32 * bank
    let lo := excBits (first / 32) >>> (first % 32)
    let hi : Word := if first % 32 ≠ 0 then excBits (first / 32 + 1) <<< (32 - first % 32) else 0
    lo ||| hi

/-- `irq_bank_write`. -/
def irqBankWrite (bank : Nat) (v : Word) (set : Bool) : Nvic :=
  if nIrq / 32 ≤ bank then s
  else
    let v := v &&& implMask bank
    (List.range 32).foldl
      (fun s i => if v.getLsbD i then s.setPending (excExternal + 32 * bank + i) set else s) s

/-- The registers of the System Control Space. -/
inductive Reg where
  | ictr | actlr | systCsr | systRvr | systCvr | systCalib
  | cpuid | icsr | vtor | aircr | scr | ccr | shcsr | hfsr | dfsr | mmfar | bfar | afsr | cpacr
  | mpuType | mpuCtrl | mpuRnr | mpuRbar | mpuRasr
  | stir | fpccr | fpcar | fpdscr | mvfr0 | mvfr1 | mvfr2
  | iser (bank : Nat) | icer (bank : Nat) | ispr (bank : Nat) | icpr (bank : Nat) | iabr (bank : Nat)
  /-- Looked at byte by byte. -/
  | bytes
  deriving DecidableEq, Repr

/-- The registers with an offset of their own; the MPU's two repeat. -/
def namedRegs : List (Nat × Reg) :=
  [(0x004, .ictr), (0x008, .actlr), (0x010, .systCsr), (0x014, .systRvr), (0x018, .systCvr), (0x01C, .systCalib),
    (0xD00, .cpuid), (0xD04, .icsr), (0xD08, .vtor), (0xD0C, .aircr), (0xD10, .scr), (0xD14, .ccr), (0xD24, .shcsr),
    (0xD2C, .hfsr), (0xD30, .dfsr), (0xD34, .mmfar), (0xD38, .bfar), (0xD3C, .afsr), (0xD88, .cpacr),
    (0xD90, .mpuType), (0xD94, .mpuCtrl), (0xD98, .mpuRnr),
    (0xD9C, .mpuRbar), (0xDA4, .mpuRbar), (0xDAC, .mpuRbar), (0xDB4, .mpuRbar),
    (0xDA0, .mpuRasr), (0xDA8, .mpuRasr), (0xDB0, .mpuRasr), (0xDB8, .mpuRasr),
    (0xF00, .stir), (0xF34, .fpccr), (0xF38, .fpcar), (0xF3C, .fpdscr), (0xF40, .mvfr0), (0xF44, .mvfr1),
    (0xF48, .mvfr2)]

/-- The banks of the interrupts, sixteen words each. -/
def bankRegs : List (Nat × (Nat → Reg)) :=
  [(0x100, .iser), (0x180, .icer), (0x200, .ispr), (0x280, .icpr), (0x300, .iabr)]

/-- The register at a word's offset. -/
def regAt (r : Nat) : Reg :=
  match namedRegs.lookup r with
  | some reg => reg
  | none =>
    match bankRegs.find? fun b => decide (b.1 ≤ r ∧ r < b.1 + 0x40) with
    | some b => b.2 ((r - b.1) / 4)
    | none => .bytes

/-- Four bytes as a word, the first of them lowest. -/
def word (b0 b1 b2 b3 : Byte) : Word :=
  b0.setWidth 32 ||| b1.setWidth 32 <<< 8 ||| b2.setWidth 32 <<< 16 ||| b3.setWidth 32 <<< 24

/-- `word_read`. A read of SYST_CSR clears COUNTFLAG. -/
def wordRead (off : Nat) : Word × Nvic :=
  let r := off / 4 * 4
  match regAt r with
  | .ictr => (BitVec.ofNat 32 (nIrq / 32 - 1), s)
  | .systCsr =>
    if s.systickCountflag then ((s.systickCtrl &&& 7) ||| 0x10000, { s with systickCountflag := false })
    else (s.systickCtrl &&& 7, s)
  | .systRvr => (s.systickReload, s)
  | .systCvr => (s.systickValue, s)
  | .cpuid => (0x410FC271, s)
  | .icsr => (s.icsrRead, s)
  | .vtor => (s.vtor, s)
  | .aircr => (0xFA050000 ||| s.prigroup <<< 8, s)
  | .scr => (s.scr, s)
  | .ccr => (s.ccr, s)
  | .shcsr => (s.shcsrRead, s)
  | .hfsr => (s.hfsr, s)
  | .mmfar => (s.mmfar, s)
  | .bfar => (s.bfar, s)
  | .cpacr => (s.cpacr, s)
  | .mpuType => (0x800, s)
  | .mpuCtrl => (s.mpuCtrl, s)
  | .mpuRnr => (s.mpuRnr, s)
  | .mpuRbar => ((s.mpuRbar s.mpuRnr.toNat &&& ~~~0x1F) ||| s.mpuRnr, s)
  | .mpuRasr => (s.mpuRasr s.mpuRnr.toNat, s)
  | .fpccr => (s.fpccr, s)
  | .fpcar => (s.fpcar, s)
  | .fpdscr => (s.fpdscr, s)
  | .mvfr0 => (0x10110021, s)
  | .mvfr1 => (0x11000011, s)
  | .mvfr2 => (0x00000040, s)
  | .actlr | .systCalib | .dfsr | .afsr | .stir => (0, s)
  | .iser bank | .icer bank => (nvicBank s.enabled bank, s)
  | .ispr bank | .icpr bank => (irqBank s.pending bank, s)
  | .iabr bank => (irqBank s.active bank, s)
  | .bytes =>
    -- a word with a byte that is none of these reads as zero
    match s.byteRead r, s.byteRead (r + 1), s.byteRead (r + 2), s.byteRead (r + 3) with
    | some b0, some b1, some b2, some b3 => (word b0 b1 b2 b3, s)
    | _, _, _, _ => (0, s)

/-- `mpu_region_write`. -/
def mpuRegionWrite (rbar : Word) : Nvic :=
  let s := if rbar &&& 0x10 ≠ 0 then { s with mpuRnr := rbar &&& 7 } else s
  { s with mpuRbar := Function.update s.mpuRbar s.mpuRnr.toNat (rbar &&& ~~~0x1F), jitGen := s.jitGen + 1 }

/-- `CCR_WRITABLE`. -/
def ccrWritable : Word := 0x0003031B

/-- The write of CCR: what a translated load or divide was inlined under makes a new generation. -/
def ccrWrite (v : Word) : Nvic :=
  let ccr := (s.ccr &&& ~~~ccrWritable) ||| (v &&& ccrWritable) ||| 0x200 ||| 0x40000
  { s with ccr := ccr, jitGen := if (s.ccr ^^^ ccr) &&& 0x18 ≠ 0 then s.jitGen + 1 else s.jitGen }

/-- The write of AIRCR, with its key. -/
def aircrWrite (v : Word) : Nvic :=
  if v >>> 16 = 0x05FA then
    { s with prigroup := (v >>> 8) &&& 7, state := if v &&& 4 ≠ 0 then .halted else s.state }
  else s

/-- A word's four bytes written one by one; those that are none of the byte registers are ignored. -/
def bytesWrite (r : Nat) (v : Word) : Nvic :=
  (List.range 4).foldl (fun s i => (s.byteWrite (r + i) ((v >>> (8 * i)).setWidth 8)).getD s) s

/-- `word_write`. -/
def wordWrite (off : Nat) (v : Word) : Nvic :=
  let r := off / 4 * 4
  match regAt r with
  | .systCsr => { s with systickCtrl := v &&& 7 }
  | .systRvr => { s with systickReload := v &&& 0x00FFFFFF }
  | .systCvr => { s with systickValue := 0, systickCountflag := false }
  | .icsr => s.icsrWrite v
  | .vtor => { s with vtor := v &&& 0xFFFFFF80 }
  | .aircr => s.aircrWrite v
  | .scr => { s with scr := v &&& 0x16 }
  | .ccr => s.ccrWrite v
  | .shcsr => s.shcsrWrite v
  | .hfsr => { s with hfsr := s.hfsr &&& ~~~v }
  | .mmfar => { s with mmfar := v }
  | .bfar => { s with bfar := v }
  | .cpacr => { s with cpacr := v &&& 0x00F00000 }
  | .mpuCtrl => { s with mpuCtrl := v &&& 7, jitGen := s.jitGen + 1 }
  | .mpuRnr => { s with mpuRnr := v &&& 7 }
  | .mpuRbar => s.mpuRegionWrite v
  | .mpuRasr =>
    { s with mpuRasr := Function.update s.mpuRasr s.mpuRnr.toNat (v &&& 0x173FFF3F), jitGen := s.jitGen + 1 }
  | .stir => if (v &&& 0x1FF).toNat < nIrqImpl then s.setPending (excExternal + (v &&& 0x1FF).toNat) true else s
  | .fpccr => { s with fpccr := v &&& 0xC000017B }
  | .fpcar => { s with fpcar := v &&& ~~~7 }
  | .fpdscr => { s with fpdscr := v &&& 0x07C00000 }
  | .iser bank =>
    if bank < nIrq / 32 then
      { s with enabled := Function.update s.enabled bank (s.enabled bank ||| (v &&& implMask bank)) }
    else s
  | .icer bank =>
    if bank < nIrq / 32 then { s with enabled := Function.update s.enabled bank (s.enabled bank &&& ~~~v) } else s
  | .ispr bank => s.irqBankWrite bank v true
  | .icpr bank => s.irqBankWrite bank v false
  | .ictr | .actlr | .systCalib | .cpuid | .dfsr | .afsr | .mpuType | .mvfr0 | .mvfr1 | .mvfr2 | .iabr _ | .bytes =>
    s.bytesWrite r v

/-! ## The device -/

/-- The bytes of a read that is not a word's, from the lowest up. -/
def bytesRead (off : Nat) : Nat → Option Word
  | 0 => some 0
  | size + 1 => do
    let v ← bytesRead off size
    let b ← s.byteRead (off + size)
    return v ||| b.setWidth 32 <<< (8 * size)

/-- `scs_read`. -/
def scsRead (off size : Nat) (priv : Bool) : Except Fault Word × Nvic :=
  if priv = false then (.error .load, s)
  else if size = 4 then (.ok (s.wordRead off).1, (s.wordRead off).2)
  else match s.bytesRead off size with
    | some v => (.ok v, s)
    | none => (.error .load, s)

/-- The bytes of a write that is not a word's, up to the first that is none of the byte registers. -/
def scsBytesWrite (off : Nat) (val : Word) : List Nat → Nvic → Except Fault Unit × Nvic
  | [], s => (.ok (), s)
  | i :: rest, s =>
    match s.byteWrite (off + i) ((val >>> (8 * i)).setWidth 8) with
    | none => (.error .store, s)
    | some s => scsBytesWrite off val rest s

/-- `scs_write`. STIR is the one register that unprivileged code may be given. -/
def scsWrite (off size : Nat) (priv : Bool) (val : Word) : Except Fault Unit × Nvic :=
  let s := { s with irqMaybe := true }
  if priv = false ∧ ¬(off = 0xF00 ∧ size = 4 ∧ s.ccr &&& 2 ≠ 0) then (.error .store, s)
  else if size = 4 then (.ok (), s.wordWrite off val)
  else scsBytesWrite off val (List.range size) s

end Nvic

end Emu.Arm
