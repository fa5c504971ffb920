-- SUMMARY: What can happen to a hart: accesses, privileged instructions, traps and changes from outside.
import Emu.Rv.System

/-! # Steps of the machine

A step is one access with its operands, one privileged instruction, a trap, or a change made from outside the hart.
An instruction of the guest is a fetch and the steps that follow it; one that faults is followed by the trap. -/

namespace Emu.Rv

variable {δ : Type}

/-! ## Accesses -/

inductive Width where
  | byte | half | word
  deriving DecidableEq, Repr

def Width.bytes : Width → Nat
  | byte => 1
  | half => 2
  | word => 4

/-- A memory access, with its operands. -/
inductive MemOp where
  | load (va : Word) (size : Width) (signed : Bool)
  | store (va : Word) (size : Width) (val : Word)
  | load64 (va : Word)
  | store64 (va : Word) (val : BitVec 64)
  | amo (op : AmoOp) (rd : BitVec 5) (addr src : Word)
  | amocasD (rd rs2 : BitVec 5) (addr : Word)
  | cbo (op : CboOp) (addr : Word)
  | fetch (pc : Word)
  | irFetch (pc : Word)
  deriving DecidableEq, Repr

/-- An error about the address of the access itself. -/
def blame {ε α : Type} (va : Word) (m : HartM δ ε α) : HartM δ (ε × Word) α :=
  m.onError fun e => ((e, va), id)

/-- The access, with the value it gives, if any. An error carries the address it is about. -/
def MemOp.run : MemOp → HartM δ (Exc × Word) (BitVec 64)
  | load va size signed => do
    let v ← blame va (Rv.load va size.bytes signed)
    pure (v.setWidth 64)
  | store va size val => do
    blame va (Rv.store va size.bytes val)
    pure 0
  | load64 va => Rv.load64 va
  | store64 va val => Rv.store64 va val
  | amo op rd addr src => do
    blame addr (Rv.amo op rd addr src)
    pure 0
  | amocasD rd rs2 addr => do
    blame addr (Rv.amocasD rd rs2 addr)
    pure 0
  | cbo op addr => do
    Rv.cbo op addr
    pure 0
  | fetch pc => do
    let insn ← fetchInsn pc
    pure (insn.1.setWidth 64)
  | irFetch pc => do
    let parcel ← blame pc (irFetch16 pc)
    pure (parcel.setWidth 64)

/-! ## Everything else -/

/-- Registers that neither translation nor protection looks at. -/
structure Plain where
  x : BitVec 5 → Word
  pc : Word
  mtvec : Word
  mepc : Word
  mcause : Word
  mtval : Word
  stvec : Word
  sepc : Word
  scause : Word
  stval : Word
  medeleg : Word
  mideleg : Word
  menvcfg : Word
  senvcfg : Word

/-- A step that is not an access. -/
inductive CtlOp (δ : Type) where
  /-- SFENCE.VMA without an address. -/
  | fence
  /-- SFENCE.VMA with one. -/
  | fencePage (va : Word)
  | csr (c : Hart.Csr) (val : Word)
  | trap (cause tval : Word)
  | mret
  | sret
  /-- An instruction, or a write to a control register, that changes these registers only. -/
  | plain (p : Plain)
  /-- An instruction that makes the floating-point state dirty. -/
  | dirtyFp
  /-- A write to the debug triggers. -/
  | trigger (active : Bool) (check : Word → Access → Bool)
  /-- A device, or another hart, changes memory. -/
  | outside (mem : HostMem) (dev : δ)

/-- `rv_trig_refresh`, after the triggers have changed. -/
def Hart.setTrigger (h : Hart δ) (active : Bool) (check : Word → Access → Bool) : Hart δ :=
  Hart.refreshFetchGuard { h with trigActive := active, trigCheck := check }

def Hart.setPlain (h : Hart δ) (p : Plain) : Hart δ :=
  { h with
    x := p.x
    pc := p.pc
    mtvec := p.mtvec
    mepc := p.mepc
    mcause := p.mcause
    mtval := p.mtval
    stvec := p.stvec
    sepc := p.sepc
    scause := p.scause
    stval := p.stval
    medeleg := p.medeleg
    mideleg := p.mideleg
    menvcfg := p.menvcfg
    senvcfg := p.senvcfg }

/-- The step, where it is legal. -/
def CtlOp.run (h : Hart δ) : CtlOp δ → Option (Hart δ)
  | fence => if h.fenceLegal then some h.mmuFlush else none
  | fencePage va => if h.fenceLegal then some (h.mmuFlushPage va) else none
  | csr c val => h.csrWrite c val
  | trap cause tval => some (h.trap cause tval)
  | mret => if h.priv = privM then some h.mret else none
  | sret => if h.sretLegal then some h.sret else none
  | plain p => some (h.setPlain p)
  | dirtyFp => some { h with mstatus := h.mstatus ||| mstatusFsMask }
  | trigger active check => some (h.setTrigger active check)
  | outside mem dev => some { h with bus := { h.bus with mem := mem, dev := dev } }

/-! ## Steps -/

inductive Op (δ : Type) where
  | mem (m : MemOp)
  | ctl (c : CtlOp δ)

/-- Instructions start at even addresses. -/
def MemOp.legal : MemOp → Bool
  | irFetch pc => pc &&& 1 = 0
  | _ => true

/-- One step of a hart, where it is legal. A failed access leaves what it did until then. -/
def Op.run (h : Hart δ) : Op δ → Option (Hart δ)
  | mem m => if m.legal then some (m.run h).2 else none
  | ctl c => c.run h

end Emu.Rv
