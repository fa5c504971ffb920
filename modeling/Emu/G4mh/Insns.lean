-- SUMMARY: What the instructions do to a core: LDSR with its permissions, LDM.MP and STM.MP, and the rest as lists of effects.
import Emu.G4mh.Access

/-! # Instructions

The instructions that reach the system registers, the entries of the protection unit, or the level the core runs at are
modelled one by one. Every other one computes: it sets general registers, the program counter, the flags, a few registers of
the coprocessors and of CALLT, and accesses memory. Such an instruction is any list of those effects, and perhaps an exception
at its end, so that what is shown of all lists is shown of all of them. -/

namespace Emu.G4mh

namespace Cpu

def selidPmu : Nat := 11
def selidPm : Nat := 14
def selidPmsub : Nat := 15

def srTscountl : Nat := 0
def srTscounth : Nat := 1
def srPmumctrl : Nat := 8
def srPmcount0 : Nat := 16
def pmChannels : Nat := 8

variable {δ : Type}

/-! ## Permissions -/

/-- The coprocessor that a register belongs to. -/
def srCu (bank reg : Nat) : Option Nat :=
  if bank = 0 then if reg = srFpsr ∨ reg = srFpepc ∨ srFpst ≤ reg ∧ reg ≤ srFpcfg then some 0 else none
  else if bank = selidFxu then
    if reg = srFxsr ∨ reg = srFxst ∨ reg = srFxinfo ∨ reg = srFxcfg ∨ reg = srFxxc ∨ reg = srFxxp then some 1 else none
  else none

/-- The registers that user mode may reach. -/
def srUserOk (c : Cpu δ) (bank reg : Nat) (write : Bool) : Bool :=
  if bank = 0 then
    srFpst ≤ reg ∧ reg ≤ srFpcfg ∨ reg = srPsw ∨ reg = srCtpc ∨ reg = srCtpsw ∨ reg = srCtbp
  else if bank = selidInt then reg ≤ 1
  else if bank = selidFxu then reg = srFxst ∨ reg = srFxinfo ∨ reg = srFxcfg ∨ reg = srFxxc ∨ reg = srFxxp
  else if bank = selidPmu then !write && (reg = srTscountl ∨ reg = srTscounth)
  else if bank = selidPm ∨ bank = selidPmsub then
    (reg < 8 ∨ bank = selidPm ∧ srPmcount0 ≤ reg ∧ reg < srPmcount0 + pmChannels) &&
      (c.sr selidPmu srPmumctrl).getLsbD (reg % 8)
  else false

/-- `g4mh_sr_access`: the exception, if the register may not be reached. -/
def srAccess (c : Cpu δ) (bank reg : Nat) (write : Bool) : Option Exc :=
  let pie := if c.userMode && !c.srUserOk bank reg write then some Exc.pie else none
  match srCu bank reg with
  | none => pie
  | some cu => if c.psw &&& (pswCu0 <<< cu) = 0 then some (Exc.ucpop + BitVec.ofNat 32 cu) else pie

/-- `g4mh_ldsr`. -/
def ldsr (c : Cpu δ) (bank reg : Nat) (val : Word) : Except Exc (Cpu δ) :=
  match c.srAccess bank reg true with
  | some e => .error e
  | none =>
    let val := if bank = 0 ∧ reg = srPsw ∧ c.userMode = true then (c.psw &&& ~~~0x1F) ||| (val &&& 0x1F) else val
    .ok (c.srWrite bank reg val)

/-! ## The entries in bulk -/

/-- SVLOCK.SVL. -/
def svl (c : Cpu δ) : Bool := c.sr 1 srSvlock &&& 1 ≠ 0

/-- The words of the entries from `eh` to `et`, in the order they are moved. -/
def mpWords (eh et : Fin 32) : List (Fin 32 × Nat) :=
  ((List.finRange 32).filter fun i => eh ≤ i ∧ i ≤ et).flatMap fun i => [Mpu.srMpla, Mpu.srMpua, Mpu.srMpat].map (i, ·)

/-- The loop of LDM.MP. -/
def ldmMpLoop (locked : Bool) : List (Fin 32 × Nat) → Word → Cpu δ → Except Exc Unit × Cpu δ
  | [], _, c => (.ok (), c)
  | (i, reg) :: rest, adr, c =>
    match c.load adr 4 false with
    | (.error e, c') => (.error e, c')
    | (.ok v, c') => ldmMpLoop locked rest (adr + 4) (if locked then c' else { c' with mpu := c'.mpu.entryWrite i reg v })

/-- LDM.MP, from supervisor mode only. -/
def ldmMp (c : Cpu δ) (addr : Word) (eh et : Fin 32) : Except Exc Unit × Cpu δ :=
  if c.userMode then (.error Exc.pie, c) else ldmMpLoop c.svl (mpWords eh et) (addr &&& ~~~3) c

/-- A word of an entry. -/
def mpWord (m : Mpu) (i : Fin 32) (reg : Nat) : Word :=
  if reg = Mpu.srMpla then m.mpla i else if reg = Mpu.srMpua then m.mpua i else m.mpat i

/-- The loop of STM.MP. -/
def stmMpLoop : List (Fin 32 × Nat) → Word → Cpu δ → Except Exc Unit × Cpu δ
  | [], _, c => (.ok (), c)
  | (i, reg) :: rest, adr, c =>
    match c.store adr 4 (mpWord c.mpu i reg) with
    | (.error e, c') => (.error e, c')
    | (.ok _, c') => stmMpLoop rest (adr + 4) c'

/-- STM.MP. -/
def stmMp (c : Cpu δ) (addr : Word) (eh et : Fin 32) : Except Exc Unit × Cpu δ :=
  if c.userMode then (.error Exc.pie, c) else stmMpLoop (mpWords eh et) (addr &&& ~~~3) c

/-! ## Instructions that compute -/

/-- The system registers that instructions set beside LDSR: CALLT's, the coprocessors' status, the address of a fault and the
counters. -/
inductive PlainSr where
  | ctpc
  | ctpsw
  | fpsr
  | fxsr
  | fxxc
  | fxxp
  | mea
  | pmcount (n : Fin 8)

def PlainSr.bank : PlainSr → Nat
  | .ctpc | .ctpsw | .fpsr => 0
  | .fxsr | .fxxc | .fxxp => selidFxu
  | .mea => 2
  | .pmcount _ => selidPm

def PlainSr.reg : PlainSr → Nat
  | .ctpc => srCtpc
  | .ctpsw => srCtpsw
  | .fpsr => srFpsr
  | .fxsr => srFxsr
  | .fxxc => srFxxc
  | .fxxp => srFxxp
  | .mea => srMea
  | .pmcount n => srPmcount0 + n

/-- One thing that an instruction does. A memory access leaves the bus as it leaves it; one of an interrupt controller's
windows is an operation on the controllers. -/
inductive Effect (δ : Type) where
  | reg (i : Nat) (v : Word)
  | pc (v : Word)
  | flags (v : Word)
  | sr (s : PlainSr) (v : Word)
  | memory (b : Bus δ)
  | controller (op : Intc.Op)

def Effect.apply (c : Cpu δ) : Effect δ → Cpu δ
  | .reg i v => { c with r := Function.update c.r i v }
  | .pc v => { c with pc := v }
  | .flags v => c.setFlags v
  | .sr s v => c.setSr s.bank s.reg v
  | .memory b => { c with bus := b }
  | .controller op => { c with intc := c.intc.apply op }

/-! ## Steps -/

/-- An instruction, with what it takes from its encoding and its registers, or an interrupt. -/
inductive Insn (δ : Type) where
  | ldsr (bank reg : Nat) (val next : Word)
  | ldmMp (addr : Word) (eh et : Fin 32) (next : Word)
  | stmMp (addr : Word) (eh et : Fin 32) (next : Word)
  | resbank (next : Word)
  | eiret
  | feret
  | ctret
  | syscall (vec next : Word)
  | diei (ei : Bool)
  | plain (effects : List (Effect δ)) (fault : Option Exc)
  | takeFe
  | takeEiint (ch pri : Nat)

/-- The end of an instruction: on to the next, or an exception at its own address. -/
def retire (pc next : Word) : Except Exc Unit × Cpu δ → Cpu δ
  | (.ok _, c) => { c with pc := next }
  | (.error e, c) => c.exception e pc

/-- An instruction of supervisor mode. -/
def svOnly (c : Cpu δ) (body : Cpu δ) : Cpu δ := if c.userMode then c.exception Exc.pie c.pc else body

def exec (c : Cpu δ) : Insn δ → Cpu δ
  | .ldsr bank reg val next =>
    match c.ldsr bank reg val with
    | .error e => c.exception e c.pc
    | .ok c' => { c' with pc := next }
  | .ldmMp addr eh et next => retire c.pc next (c.ldmMp addr eh et)
  | .stmMp addr eh et next => retire c.pc next (c.stmMp addr eh et)
  | .resbank next => c.svOnly (retire c.pc next c.resbank)
  | .eiret => c.svOnly c.eiret
  | .feret => c.svOnly c.feret
  | .ctret => c.ctret
  | .syscall vec next =>
    match c.syscall vec next with
    | (.error e, c') => c'.exception e c.pc
    | (.ok _, c') => c'
  | .diei ei => c.diei ei c.pc
  | .plain effects fault =>
    let c' := effects.foldl Effect.apply c
    match fault with
    | none => c'
    | some e => c'.exception e c.pc
  | .takeFe => (c.takeFe c.pc).getD c
  | .takeEiint ch pri => c.takeEiint ch pri c.pc

/-- A series of instructions and interrupts. -/
def runInsns (c : Cpu δ) (is : List (Insn δ)) : Cpu δ := is.foldl exec c

end Cpu

end Emu.G4mh
