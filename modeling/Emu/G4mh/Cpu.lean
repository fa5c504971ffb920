-- SUMMARY: The G4MH core: its registers, accesses, exceptions and returns, and the acceptance of an interrupt.
import Emu.Bus
import Emu.G4mh.Intc
import Emu.G4mh.Mpu

/-! # The G4MH core

The state that exceptions, interrupts and the registers' banks work on. The controllers are those of the whole system; the
flag that something may have become deliverable is the core's in them. The devices behind the bus are a parameter, and the
controllers' own windows are not among them. Reservations, the counters, MEI and what belongs to the translator are left
out. -/

namespace Emu.G4mh

variable {δ : Type}

/-! ## Causes -/

/-- `g4mh_exc_t`, without the value that means there is none. -/
abbrev Exc := Word

namespace Exc

def syserr : Exc := 0x0010
def syserrBank : Exc := 0x001C
def syserrResbank : Exc := 0x001D
def fetrap : Exc := 0x0030
def trap0 : Exc := 0x0040
def trap1 : Exc := 0x0050
def rie : Exc := 0x0060
def fpp : Exc := 0x0071
def fxe : Exc := 0x0075
def ucpop : Exc := 0x0080
def mip : Exc := 0x0090
def mdp : Exc := 0x0091
def mdpTable : Exc := 0x0095
def pie : Exc := 0x00A0
def mae : Exc := 0x00C0
def fenmi : Exc := 0x00E0
def feint : Exc := 0x00F0
def eiintBase : Exc := 0x1000
def syscall : Exc := 0x8000

def dUr : Exc := 1 <<< 16
def dUw : Exc := 1 <<< 17
def dSr : Exc := 1 <<< 19
def dSw : Exc := 1 <<< 20
/-- `G4MH_EXC_CODE`: MIP and MDP carry detail above. -/
def code (cause : Exc) : Exc := cause &&& 0xFFFF

/-- Sixteen causes from one on. -/
def among (first cause : Exc) : Bool := first ≤ cause && cause < first + 0x10

/-- `G4MH_EXC_IS_SYSERR`. -/
def isSyserr (code : Exc) : Bool := code &&& 0xFFF0 = syserr

/-- `g4mh_exc_is_fe`. -/
def isFe (cause : Exc) : Bool :=
  let code := code cause
  isSyserr code ||
    code ∈ [mip, mdp, mdpTable, rie, mae, ucpop, ucpop + 1, ucpop + 2, pie] ||
    among fetrap code || among feint code || code = fenmi

/-- `g4mh_exc_from_fault`. -/
def ofFault : Fault → Exc
  | .fetch => mip
  | .load => mdp
  | .store => mdp

end Exc

/-! ## State -/

def pswId : Word := 0x20
def pswEp : Word := 0x40
def pswNp : Word := 0x80
def pswEbv : Word := 0x8000
def pswCu0 : Word := 0x10000
def pswCu1 : Word := 0x20000
def pswEimask : Word := 0x3F00000
def pswUm : Word := 0x40000000

/-- PSW's five flags. -/
def pswFlags : Word := 0x1F

def selidInt : Nat := 2
def selidMpu : Nat := 5
def selidFxu : Nat := 10

def srEipc : Nat := 0
def srEipsw : Nat := 1
def srFepc : Nat := 2
def srFepsw : Nat := 3
def srPsw : Nat := 5
def srFpsr : Nat := 6
def srFpepc : Nat := 7
def srFpst : Nat := 8
def srFpcc : Nat := 9
def srFpcfg : Nat := 10
def srEiic : Nat := 13
def srFeic : Nat := 14
def srCtpc : Nat := 16
def srCtpsw : Nat := 17
def srCtbp : Nat := 20

def srSpid : Nat := 0
def srSpidlist : Nat := 1
def srRbase : Nat := 2
def srEbase : Nat := 3
def srIntbp : Nat := 4
def srMctl : Nat := 5
def srPid : Nat := 6
def srSvlock : Nat := 8
def srSccfg : Nat := 11
def srScbp : Nat := 12

def srHtcfg0 : Nat := 0
def srMea : Nat := 6
def srIspr : Nat := 10
def srIntcfg : Nat := 13
def srPlmr : Nat := 14
def srRbcr0 : Nat := 15
def srRbcr1 : Nat := 16
def srRbnr : Nat := 17
def srRbip : Nat := 18

def srFxsr : Nat := 6
def srFxst : Nat := 8
def srFxinfo : Nat := 9
def srFxcfg : Nat := 10
def srFxxc : Nat := 12
def srFxxp : Nat := 13

def intcfgIspc : Word := 1
def intcfgEpl : Word := 2
def baseRint : Word := 1
def baseDv : Word := 2
def rbcr0Md : Word := 0x10000
def mctlUic : Word := 1

/-- `g4mh_cpu_t`. PSW's copy among the system registers, which nothing reads, is left out; `extFpu` and `extFxu` are how
the core is built. -/
structure Cpu (δ : Type) where
  r : Nat → Word
  pc : Word
  psw : Word
  sr : Nat → Nat → Word
  mpu : Mpu
  mpuActive : Bool
  spid : Word
  bus : Bus δ
  intc : Intc
  coreid : Fin 8
  extFpu : Bool
  extFxu : Bool

namespace Cpu

/-- A system register set. -/
def setSr (c : Cpu δ) (bank reg : Nat) (v : Word) : Cpu δ :=
  { c with sr := Function.update c.sr bank (Function.update (c.sr bank) reg v) }

section SetSr

variable (c : Cpu δ) (bank reg : Nat) (v : Word)

@[simp]
theorem sr_setSr (b i : Nat) : (c.setSr bank reg v).sr b i = if b = bank ∧ i = reg then v else c.sr b i := by
  change Function.update c.sr bank (Function.update (c.sr bank) reg v) b i = _
  by_cases hb : b = bank
  · subst hb
    rw [Function.update_self, Function.update_apply]
    simp only [true_and]
  · rw [Function.update_of_ne hb, if_neg fun h => hb h.1]

@[simp] theorem r_setSr : (c.setSr bank reg v).r = c.r := rfl

@[simp] theorem psw_setSr : (c.setSr bank reg v).psw = c.psw := rfl

@[simp] theorem bus_setSr : (c.setSr bank reg v).bus = c.bus := rfl

@[simp] theorem intc_setSr : (c.setSr bank reg v).intc = c.intc := rfl

theorem setSr_self : c.setSr bank reg (c.sr bank reg) = c := by
  rw [setSr, Function.update_eq_self, Function.update_eq_self]

theorem setSr_setSr (v' : Word) : (c.setSr bank reg v).setSr bank reg v' = c.setSr bank reg v' := by
  simp only [setSr, Function.update_self, Function.update_idem]

end SetSr

def setDirty (c : Cpu δ) : Cpu δ :=
  { c with intc := { c.intc with irqDirty := Function.update c.intc.irqDirty c.coreid true } }

@[simp] theorem sr_setDirty (c : Cpu δ) : c.setDirty.sr = c.sr := rfl

@[simp] theorem psw_setDirty (c : Cpu δ) : c.setDirty.psw = c.psw := rfl

def userMode (c : Cpu δ) : Bool := c.psw &&& pswUm ≠ 0

/-! ## System registers -/

/-- `fp_window`: the register that one of FPST, FPCC, FPCFG, FXST and FXCFG shows. -/
def fpWindow (bank reg : Nat) : Option Nat :=
  if bank = 0 ∧ srFpst ≤ reg ∧ reg ≤ srFpcfg then some srFpsr
  else if bank = selidFxu ∧ (reg = srFxst ∨ reg = srFxcfg) then some srFxsr
  else none

/-- `window_read`. -/
def windowRead (sr : Word) (reg : Nat) : Word :=
  if reg = srFpst then ((sr >>> 2) &&& 0x3F00) ||| ((sr >>> 17) &&& 0x20) ||| (sr &&& 0x1F)
  else if reg = srFpcc then sr >>> 24
  else ((sr >>> 10) &&& 0x300) ||| ((sr >>> 5) &&& 0x1F)

/-- `window_write`. -/
def windowWrite (sr : Word) (reg : Nat) (v : Word) : Word :=
  if reg = srFpst then
    (sr &&& ~~~(0x0040FC1F : Word)) ||| ((v &&& 0x3F00) <<< 2) ||| ((v &&& 0x20) <<< 17) ||| (v &&& 0x1F)
  else if reg = srFpcc then (sr &&& ~~~(0xFF000000 : Word)) ||| ((v &&& 0xFF) <<< 24)
  else (sr &&& ~~~(0x000C03E0 : Word)) ||| ((v &&& 0x300) <<< 10) ||| ((v &&& 0x1F) <<< 5)

/-- `g4mh_sr_read`. -/
def srRead (c : Cpu δ) (bank reg : Nat) : Word :=
  if 16 ≤ bank ∨ 32 ≤ reg then 0
  else if bank = 0 ∧ reg = srPsw then c.psw
  else if bank = 1 ∧ reg = srSpidlist then 0xFFFFFFFF
  else if bank = 1 ∧ reg = srSpid then c.spid
  else
    match if bank = selidMpu then c.mpu.srRead reg else none with
    | some v => v
    | none =>
      match fpWindow bank reg with
      | some backing => windowRead (c.sr bank backing) reg
      | none => if bank = selidFxu ∧ reg = srFxinfo then 3 else c.sr bank reg

/-- `psw_writable`. -/
def pswWritable (c : Cpu δ) : Word :=
  pswUm ||| pswEbv ||| 0xFF ||| (if c.extFpu then pswCu0 else 0) |||
    (if c.extFxu ∧ c.sr 1 srPid &&& 0x800 ≠ 0 then pswCu1 else 0) |||
    (if c.sr selidInt srIntcfg &&& intcfgEpl ≠ 0 then pswEimask else 0)

/-- `sr_writable`. -/
def srWritable (c : Cpu δ) (bank reg : Nat) : Word :=
  match bank with
  | 0 =>
    if reg = srPsw ∨ reg = srEipsw ∨ reg = srFepsw then c.pswWritable
    else if reg = srCtpsw then pswFlags
    else if reg = srCtbp ∨ reg = srFpepc then ~~~1
    else if reg = srFpsr then 0xFFCEFFFF
    else ~~~0
  | 1 =>
    if reg = srRbase ∨ reg = srPid then 0
    else if reg = srEbase then 0xFFFFFE03
    else if reg = srIntbp then 0xFFFFFE00
    else if reg = srMctl then 1
    else if reg = srSccfg then 0xFF
    else if reg = srScbp then ~~~3
    else ~~~0
  | 2 =>
    if reg = srHtcfg0 then 0
    else if reg = srIntcfg then 0x003F0003
    else if reg = srRbcr0 then rbcr0Md ||| 0xFFFF
    else if reg = srRbcr1 then 0xFFFF
    else if reg = srRbnr then 0x3F
    else if reg = srRbip then ~~~0xF
    else ~~~0
  | 10 =>
    if reg = srFxsr then 0x00CEFFFF
    else if reg = srFxxc then 0x3F3F3F3F
    else if reg = srFxxp then 0x1F1F1F1F
    else if reg = srFxinfo then 0
    else ~~~0
  | _ => ~~~0

/-- What SVLOCK.SVL keeps from being written. -/
def svLocked (c : Cpu δ) (bank reg : Nat) : Bool :=
  c.sr 1 srSvlock &&& 1 ≠ 0 &&
    (bank = 1 ∧ reg = srSpid ∨
      bank = selidMpu ∧
        (reg = Mpu.srMpm ∨ reg = Mpu.srMpbk ∨ Mpu.srMpla ≤ reg ∧ reg ≤ Mpu.srMpat ∨ Mpu.srMpid0 ≤ reg))

/-- Clearing INTCFG.EPL clears EIMASK in PSW, EIPSW and FEPSW. -/
def clearEimask (c : Cpu δ) : Cpu δ :=
  let c := { c with psw := c.psw &&& ~~~pswEimask }
  let c := c.setSr 0 srEipsw (c.sr 0 srEipsw &&& ~~~pswEimask)
  c.setSr 0 srFepsw (c.sr 0 srFepsw &&& ~~~pswEimask)

/-- What `g4mh_sr_write` does last, for the registers that are nothing but storage. -/
def srStore (c : Cpu δ) (bank reg : Nat) (val : Word) : Cpu δ :=
  if bank = selidInt then
    let val := if reg = srRbnr ∧ 16 < val then 16 else val
    let c := if reg = srIntcfg ∧ val &&& intcfgEpl = 0 then c.clearEimask else c
    (c.setSr bank reg val).setDirty
  else c.setSr bank reg val

/-- `g4mh_sr_write`. -/
def srWrite (c : Cpu δ) (bank reg : Nat) (val : Word) : Cpu δ :=
  if 16 ≤ bank ∨ 32 ≤ reg then c
  else
    let m := c.srWritable bank reg
    let val := (c.srRead bank reg &&& ~~~m) ||| (val &&& m)
    if bank = 0 ∧ reg = srPsw then { c with psw := val }.setDirty
    else if c.svLocked bank reg then c
    else if bank = 1 ∧ reg = srSpid then
      let v := val &&& 0x1F
      { c.setSr 1 srSpid v with spid := v }
    else if bank = 1 ∧ reg = srSpidlist then c
    else if bank = 1 ∧ reg = srSvlock then c.setSr 1 srSvlock (val &&& 1)
    else
      match if bank = selidMpu then c.mpu.srWrite reg val else none with
      | some mpu => { c with mpu := mpu, mpuActive := mpu.isActive }
      | none =>
        match fpWindow bank reg with
        | some backing => c.setSr bank backing (windowWrite (c.sr bank backing) reg val)
        | none => c.srStore bank reg val

/-! ## Accesses -/

/-- `g4mh_mdp`. -/
def mdp (c : Cpu δ) (rdBad wrBad : Bool) (kind : Exc) : Exc :=
  Exc.mdp ||| kind ||| (if rdBad then if c.userMode then Exc.dUr else Exc.dSr else 0) |||
    (if wrBad then if c.userMode then Exc.dUw else Exc.dSw else 0)

/-- The unit is on and does not permit the access. -/
def refused (c : Cpu δ) (addr : Word) (size : Nat) (acc : Mpu.Acc) : Bool :=
  c.mpuActive && !c.mpu.permits addr (BitVec.ofNat 32 size) acc c.userMode c.spid

/-- `g4mh_load`. -/
def load (c : Cpu δ) (addr : Word) (size : Nat) (signExtend : Bool) : Except Exc Word × Cpu δ :=
  if addr &&& (BitVec.ofNat 32 size - 1) ≠ 0 then (.error Exc.mae, c.setSr 2 srMea addr)
  else if c.refused addr size .read then (.error (c.mdp true false 0), c.setSr 2 srMea addr)
  else
    match c.bus.read addr size with
    | (.error f, b) => (.error (Exc.ofFault f), { c with bus := b }.setSr 2 srMea addr)
    | (.ok v, b) =>
      (.ok (if signExtend && size < 4 then (v.setWidth (8 * size)).signExtend 32 else v), { c with bus := b })

/-- `g4mh_store`. -/
def store (c : Cpu δ) (addr : Word) (size : Nat) (val : Word) : Except Exc Unit × Cpu δ :=
  if addr &&& (BitVec.ofNat 32 size - 1) ≠ 0 then (.error Exc.mae, c.setSr 2 srMea addr)
  else if c.refused addr size .write then (.error (c.mdp false true 0), c.setSr 2 srMea addr)
  else
    match c.bus.write addr size val with
    | (.error f, b) => (.error (Exc.ofFault f), { c with bus := b }.setSr 2 srMea addr)
    | (.ok _, b) => (.ok (), { c with bus := b })

/-- An access made as supervisor: PSW is afterwards what it was. -/
def asSv {α : Type} (c : Cpu δ) (access : Cpu δ → Except Exc α × Cpu δ) : Except Exc α × Cpu δ :=
  let res := access { c with psw := c.psw &&& ~~~pswUm }
  (res.1, { res.2 with psw := c.psw })

/-- `g4mh_load_sv`. -/
def loadSv (c : Cpu δ) (addr : Word) : Except Exc Word × Cpu δ := c.asSv (·.load addr 4 false)

/-- `store_sv`. -/
def storeSv (c : Cpu δ) (addr val : Word) : Except Exc Unit × Cpu δ := c.asSv (·.store addr 4 val)

/-! ## Exceptions -/

/-- The base of the handlers that PSW.EBV chooses. -/
def base (c : Cpu δ) : Word := if c.psw &&& pswEbv ≠ 0 then c.sr 1 srEbase else c.sr 1 srRbase

/-- `direct_vector_offset`. -/
def directVectorOffset (base : Word) (priority : Nat) : Word :=
  if base &&& baseRint ≠ 0 then 0x100 else 0x100 + BitVec.ofNat 32 (if priority < 16 then priority else 15) * 0x10

/-- The priority that a handler's address goes by. -/
def chanPriority (c : Cpu δ) (ch : Word) : Nat :=
  if ch.toNat < Intc.intChannels then c.intc.pri c.coreid ch.toNat else 15

/-- `handler_address`. -/
def handlerAddress (c : Cpu δ) (cause : Exc) : Word :=
  let table := c.base &&& ~~~0x1FF
  let cause := Exc.code cause
  if Exc.eiintBase ≤ cause ∧ cause < Exc.syscall then
    table + directVectorOffset c.base (c.chanPriority (cause - Exc.eiintBase))
  else if Exc.among Exc.trap0 cause then table + 0x40
  else if Exc.among Exc.trap1 cause then table + 0x50
  else if Exc.among Exc.fetrap cause then table + 0x30
  else if Exc.among Exc.feint cause then table + 0xF0
  else if Exc.isSyserr cause then table + 0x10
  else if cause = Exc.fenmi then table + 0xE0
  else if cause = Exc.rie then table + 0x60
  else if cause = Exc.fpp ∨ cause = Exc.fxe then table + 0x70
  else if cause = Exc.ucpop ∨ cause = Exc.ucpop + 1 ∨ cause = Exc.ucpop + 2 then table + 0x80
  else if cause = Exc.mip ∨ cause = Exc.mdp ∨ cause = Exc.mdpTable then table + 0x90
  else if cause = Exc.pie then table + 0xA0
  else if cause = Exc.mae then table + 0xC0
  else table + 0x10

/-- PSW on entry to an exception. -/
def pswEntered (psw : Word) (cause : Exc) : Word :=
  if Exc.isFe cause then
    let psw := (psw ||| pswNp ||| pswEp ||| pswId) &&& ~~~pswUm
    if Exc.code cause = Exc.fenmi ∨ Exc.among Exc.feint (Exc.code cause) then psw &&& ~~~pswEp else psw
  else
    let psw := (psw ||| pswId) &&& ~~~pswUm
    if cause < Exc.eiintBase ∨ Exc.syscall ≤ cause then psw ||| pswEp else psw &&& ~~~pswEp

/-- What an exception saves, at its level. -/
def saveContext (c : Cpu δ) (cause : Exc) (retPc : Word) : Cpu δ :=
  let c := if Exc.code cause = Exc.fpp then c.setSr 0 srFpepc (retPc &&& ~~~1) else c
  if Exc.isFe cause then ((c.setSr 0 srFepc retPc).setSr 0 srFepsw c.psw).setSr 0 srFeic cause
  else ((c.setSr 0 srEipc retPc).setSr 0 srEipsw c.psw).setSr 0 srEiic cause

/-- `exception_to`. -/
def exceptionTo (c : Cpu δ) (cause : Exc) (retPc handler : Word) : Cpu δ :=
  { c.saveContext cause retPc with psw := pswEntered c.psw cause, pc := handler }.setDirty

/-- `g4mh_cpu_exception`. -/
def exception (c : Cpu δ) (cause : Exc) (retPc : Word) : Cpu δ := c.exceptionTo cause retPc (c.handlerAddress cause)

/-- SYSCALL, whose handler is read from its table. -/
def syscall (c : Cpu δ) (vec next : Word) : Except Exc Unit × Cpu δ :=
  let scbp := c.sr 1 srScbp
  match c.loadSv (if vec ≤ c.sr 1 srSccfg &&& 0xFF then scbp + vec <<< 2 else scbp) with
  | (.error e, c') => (.error e, c')
  | (.ok ent, c') =>
    let saved := ((c'.setSr 0 srEipc next).setSr 0 srEipsw c.psw).setSr 0 srEiic (Exc.syscall + vec)
    (.ok (), { saved with psw := (c.psw &&& ~~~pswUm) ||| pswEp ||| pswId, pc := scbp + ent })

/-! ## The ceiling -/

/-- `G4MH_ISPR_LEVELS`. -/
def isprLevels : Nat := 16

def intcfg (c : Cpu δ) : Word := c.sr selidInt srIntcfg
def ispr (c : Cpu δ) : Word := c.sr selidInt srIspr

/-- `int_ceiling_admits`. -/
def intCeilingAdmits (c : Cpu δ) (pri : Nat) : Bool :=
  if (c.sr selidInt srPlmr &&& 0x3F).toNat ≤ pri then false
  else if c.intcfg &&& intcfgEpl ≠ 0 then pri < ((c.psw &&& pswEimask) >>> 20).toNat
  else
    let n := if pri < isprLevels then pri + 1 else isprLevels
    (c.ispr &&& 0xFFFF) &&& (BitVec.twoPow 32 n - 1) = 0

/-- `g4mh_cpu_pending_irq_pri`: the channel and its priority. -/
def pendingIrqPri (c : Cpu δ) : Option (Nat × Nat) :=
  if c.psw &&& (pswId ||| pswNp) ≠ 0 then none
  else
    match c.intc.pendingPri c.coreid with
    | (none, _) => none
    | (some ch, pri) => if c.intCeilingAdmits pri then some (ch, pri) else none

/-- `g4mh_cpu_take_fe`: the core after an interrupt of the FE level, if there is one. -/
def takeFe (c : Cpu δ) (pc : Word) : Option (Cpu δ) :=
  if (c.intc.own c.coreid).fenmi then
    some ({ c with intc := c.intc.ackFenmi c.coreid }.exception Exc.fenmi pc)
  else if c.psw &&& pswNp = 0 ∧ (c.intc.own c.coreid).feint then
    some ({ c with intc := c.intc.ackFe c.coreid }.exception Exc.feint pc)
  else none

/-- `g4mh_cpu_ack_priority`. -/
def ackPriority (c : Cpu δ) (pri : Nat) : Cpu δ :=
  if c.intcfg &&& intcfgEpl ≠ 0 then
    { c with psw := (c.psw &&& ~~~pswEimask) ||| (BitVec.ofNat 32 pri &&& 0x3F) <<< 20 }
  else if c.intcfg &&& intcfgIspc = 0 ∧ pri < isprLevels then
    c.setSr selidInt srIspr (c.ispr ||| BitVec.twoPow 32 pri)
  else c

/-- `g4mh_cpu_eiret_priority`. -/
def eiretPriority (c : Cpu δ) : Cpu δ :=
  if c.intcfg &&& (intcfgEpl ||| intcfgIspc) ≠ 0 then c
  else if c.psw &&& pswEp ≠ 0 then c
  else
    let ispr := c.ispr &&& 0xFFFF
    if ispr = 0 then c else c.setSr selidInt srIspr (ispr &&& (ispr - 1))

/-! ## Returns -/

/-- EIRET. -/
def eiret (c : Cpu δ) : Cpu δ :=
  let c := c.eiretPriority
  { c with pc := c.sr 0 srEipc &&& ~~~1 }.srWrite 0 srPsw (c.sr 0 srEipsw)

/-- FERET. -/
def feret (c : Cpu δ) : Cpu δ := { c with pc := c.sr 0 srFepc &&& ~~~1 }.srWrite 0 srPsw (c.sr 0 srFepsw)

/-- CTRET, which restores the flags alone. -/
def ctret (c : Cpu δ) : Cpu δ :=
  { c with pc := c.sr 0 srCtpc &&& ~~~1 }.srWrite 0 srPsw ((c.psw &&& ~~~0x1F) ||| (c.sr 0 srCtpsw &&& 0x1F))

/-- DI and EI, which MCTL.UIC lets user code run. -/
def diei (c : Cpu δ) (ei : Bool) (pc : Word) : Cpu δ :=
  if c.sr 1 srMctl &&& mctlUic = 0 ∧ c.userMode = true then c.exception Exc.pie pc
  else if ei then { c with psw := c.psw &&& ~~~pswId }.setDirty
  else { c with psw := c.psw ||| pswId }

/-- The flags of PSW set, by an instruction that computes. -/
def setFlags (c : Cpu δ) (v : Word) : Cpu δ := { c with psw := (c.psw &&& ~~~pswFlags) ||| (v &&& pswFlags) }

/-! ## Register banks -/

/-- `bank_layout`: the words of a bank and its size. -/
def bankLayout (c : Cpu δ) : Nat × Word := if c.sr selidInt srRbcr0 &&& rbcr0Md ≠ 0 then (35, 0x90) else (24, 0x60)

/-- `bank_reg`. -/
def bankReg (k words : Nat) : Nat := if words = 24 ∧ k = 23 then 30 else k - 3

/-- The bit of RBCR0 and RBCR1 for a priority. -/
def bankBit (pri : Nat) : Nat := if pri < 15 then pri else 15

/-- `irq_uses_bank`. -/
def irqUsesBank (c : Cpu δ) (ch pri : Nat) : Bool :=
  c.base &&& baseDv = 0 && c.intc.chanIsTable c.coreid ch && (c.sr selidInt srRbcr0).getLsbD (bankBit pri)

/-- RBNR.BN. -/
def bankNumber (c : Cpu δ) : Word := c.sr selidInt srRbnr &&& 0x3F

/-- Where a bank begins, downwards. -/
def bankTop (c : Cpu δ) (bn : Word) : Word := (c.sr selidInt srRbip &&& ~~~0xF) - bn * c.bankLayout.2

/-- The address of a word of a bank. -/
def bankAddr (top : Word) (k : Nat) : Word := top - 4 * (BitVec.ofNat 32 k + 1)

/-- What a word of a bank holds. -/
def bankWord (c : Cpu δ) (pc cause : Word) (words k : Nat) : Word :=
  if k = 0 then pc else if k = 1 then c.psw else if k = 2 then cause else if k = 3 then c.sr 0 srFpsr
  else c.r (bankReg k words)

/-- The loop of `bank_save`. -/
def bankStores (pc cause top : Word) (words : Nat) : List Nat → Cpu δ → Except Exc Unit × Cpu δ
  | [], c => (.ok (), c)
  | k :: ks, c =>
    match c.storeSv (bankAddr top k) (c.bankWord pc cause words k) with
    | (.error e, c') => (.error (if Exc.code e = Exc.mdp then Exc.mdpTable ||| (e &&& ~~~0xFFFF) else e), c')
    | (.ok _, c') => bankStores pc cause top words ks c'

/-- `bank_save`. -/
def bankSave (c : Cpu δ) (pc cause : Word) : Except Exc Unit × Cpu δ :=
  let words := c.bankLayout.1
  let bn := c.bankNumber
  match bankStores pc cause (c.bankTop bn) words (List.range words) c with
  | (.error e, c') => (.error e, c')
  | (.ok _, c') => (.ok (), c'.setSr selidInt srRbnr (bn + 1))

/-- `g4mh_cpu_irq_vector`. -/
def irqVector (c : Cpu δ) (ch : Nat) : Except Exc Word × Cpu δ :=
  if c.base &&& baseDv ≠ 0 ∨ c.intc.chanIsTable c.coreid ch = false then
    (.ok ((c.base &&& ~~~0x1FF) + directVectorOffset c.base (c.chanPriority (BitVec.ofNat 32 ch))), c)
  else
    match c.loadSv ((c.sr 1 srIntbp &&& ~~~0x1FF) + BitVec.ofNat 32 ch * 4) with
    | (.error e, c') => (.error (Exc.mdpTable ||| (e &&& ~~~0xFFFF)), c')
    | (.ok v, c') => (.ok v, c')

/-- The first half of `g4mh_cpu_take_eiint`: what may fault, with the controller not answered yet. -/
def prepareEiint (c : Cpu δ) (ch pri : Nat) (pc : Word) : Except Exc Word × Cpu δ :=
  let bank := c.irqUsesBank ch pri
  if bank && (((c.intcfg >>> 16) &&& 0x3F) < c.bankNumber || c.bankNumber = 63) then (.error Exc.syserrBank, c)
  else
    match c.irqVector ch with
    | (.error e, c') => (.error e, c')
    | (.ok vec, c') =>
      if bank then
        match c'.bankSave pc (Exc.eiintBase + BitVec.ofNat 32 ch) with
        | (.error e, c'') => (.error e, c'')
        | (.ok _, c'') => (.ok vec, c'')
      else (.ok vec, c')

/-- The second half, with nothing left to fault. -/
def enterEiint (c : Cpu δ) (bank : Bool) (ch pri : Nat) (pc vec : Word) : Cpu δ :=
  let c := { c with intc := c.intc.ack c.coreid ch }.exceptionTo (Exc.eiintBase + BitVec.ofNat 32 ch) pc vec
  let c := if bank && !(c.sr selidInt srRbcr1).getLsbD (bankBit pri) then { c with psw := c.psw &&& ~~~pswId } else c
  c.ackPriority pri

/-- `g4mh_cpu_take_eiint`. -/
def takeEiint (c : Cpu δ) (ch pri : Nat) (pc : Word) : Cpu δ :=
  match c.prepareEiint ch pri pc with
  | (.error e, c') => c'.exception e pc
  | (.ok vec, c') => c'.enterEiint (c.irqUsesBank ch pri) ch pri pc vec

/-- The loop of `g4mh_resbank` that reads: the words in the order of their addresses, upwards. -/
def bankLoads (top : Word) : List Nat → Cpu δ → Except Exc (List (Nat × Word)) × Cpu δ
  | [], c => (.ok [], c)
  | k :: ks, c =>
    match c.load (bankAddr top k) 4 false with
    | (.error e, c') => (.error e, c')
    | (.ok v, c') =>
      match bankLoads top ks c' with
      | (.error e, c'') => (.error e, c'')
      | (.ok vs, c'') => (.ok ((k, v) :: vs), c'')

/-- The general registers of a bank, set from its words. -/
def bankRegs (words : Nat) (w : Nat → Word) (r : Nat → Word) : Nat → Word :=
  (List.range' 4 (words - 4)).foldl (fun r k => Function.update r (bankReg k words) (w k)) r

/-- What `g4mh_resbank` does with the words that it has read. -/
def bankRestore (c : Cpu δ) (words : Nat) (bn : Word) (w : Nat → Word) : Cpu δ :=
  let c := (c.setSr 0 srEipc (w 0)).srWrite 0 srEipsw (w 1)
  let c := (c.setSr 0 srEiic (w 2)).srWrite 0 srFpsr (w 3)
  { c with r := bankRegs words w c.r }.setSr selidInt srRbnr (bn - 1)

/-- `g4mh_resbank`. -/
def resbank (c : Cpu δ) : Except Exc Unit × Cpu δ :=
  let words := c.bankLayout.1
  let bn := c.bankNumber
  if bn = 0 then (.error Exc.syserrResbank, c)
  else
    match bankLoads (c.bankTop (bn - 1)) (List.range words).reverse c with
    | (.error e, c') => (.error e, c')
    | (.ok vs, c') => (.ok (), c'.bankRestore words bn fun k => (vs.lookup k).getD 0)

/-! ## Reset -/

/-- The system registers after reset. -/
def srReset (coreid : Fin 8) (extFxu : Bool) (resetPc : Word) (bank reg : Nat) : Word :=
  if bank = 0 ∧ reg = srFpsr ∨ bank = selidFxu ∧ reg = srFxsr then 0x00220000
  else if bank = 1 ∧ reg = srSpid ∨ bank = selidInt ∧ reg = srHtcfg0 then BitVec.ofNat 32 coreid
  else if bank = 1 ∧ (reg = srRbase ∨ reg = srEbase) then resetPc
  else if bank = 1 ∧ reg = srPid then if extFxu ∧ coreid = 0 then 0x07840F01 else 0x07840701
  else if bank = selidInt ∧ reg = srPlmr then 0x10
  else if bank = selidInt ∧ reg = srIntcfg then 0x000F0000
  else if bank = selidInt ∧ reg = srRbcr1 then 0xFFFF
  else 0

/-- `g4mh_cpu_reset`. -/
def reset (c : Cpu δ) (resetPc : Word) : Cpu δ :=
  { c with
    r := fun _ => 0
    sr := srReset c.coreid c.extFxu resetPc
    pc := resetPc
    psw := pswId
    spid := BitVec.ofNat 32 c.coreid
    mpu := Mpu.mpuReset
    mpuActive := false }.setDirty

/-- A core out of reset, with some memory and no devices. -/
def fresh (regions : List Region) : Cpu Unit :=
  reset
    { r := fun _ => 0
      pc := 0
      psw := 0
      sr := fun _ _ => 0
      mpu := Mpu.mpuReset
      mpuActive := false
      spid := 0
      bus := ⟨regions, fun _ => 0, (), ⟨fun s m _ _ _ => (.ok 0, s, m), fun s m _ _ _ _ => (.ok (), s, m)⟩, false⟩
      intc := Intc.init fun _ => false
      coreid := 0
      extFpu := true
      extFxu := false } 0

end Cpu

end Emu.G4mh
