-- SUMMARY: The RV32 hart: its registers, its cached translations and the flags derived from them.
import Emu.Bus

/-! # The RV32 hart

The part of `rv_hart_t` that memory accesses, traps and the privileged registers read and write. The counters,
the performance monitors and what belongs to the code cache are left out, and so are the debug triggers' registers:
`trigCheck` is the answer they give. -/

namespace Emu.Rv

/-! ## Privilege and exceptions -/

/-- A privilege level; the encoding 2 is reserved. -/
abbrev Priv := BitVec 2

def privU : Priv := 0
def privS : Priv := 1
def privM : Priv := 3

/-- `rv_exc_t`, without the value that means there was none. -/
inductive Exc where
  | insnMisaligned | insnAccessFault | illegalInsn | breakpoint | loadMisaligned | loadAccessFault
  | storeMisaligned | storeAccessFault | ecallU | ecallS | ecallM | insnPageFault | loadPageFault | storePageFault
  deriving DecidableEq, Repr

/-- The cause code of an exception. -/
def Exc.code : Exc → Word
  | insnMisaligned => 0
  | insnAccessFault => 1
  | illegalInsn => 2
  | breakpoint => 3
  | loadMisaligned => 4
  | loadAccessFault => 5
  | storeMisaligned => 6
  | storeAccessFault => 7
  | ecallU => 8
  | ecallS => 9
  | ecallM => 11
  | insnPageFault => 12
  | loadPageFault => 13
  | storePageFault => 15

/-- `rv_exc_from_fault`. -/
def excFromFault : Fault → Exc
  | .fetch => .insnAccessFault
  | .load => .loadAccessFault
  | .store => .storeAccessFault

/-! ## Fields of the control registers -/

def mstatusSie : Word := 1 <<< 1
def mstatusMie : Word := 1 <<< 3
def mstatusSpie : Word := 1 <<< 5
def mstatusMpie : Word := 1 <<< 7
def mstatusSpp : Word := 1 <<< 8
def mstatusMppShift : Nat := 11
def mstatusMppMask : Word := 3 <<< mstatusMppShift
def mstatusFsMask : Word := 3 <<< 13
def mstatusMprv : Word := 1 <<< 17
def mstatusSum : Word := 1 <<< 18
def mstatusMxr : Word := 1 <<< 19
def mstatusTvm : Word := 1 <<< 20
def mstatusTw : Word := 1 <<< 21
def mstatusTsr : Word := 1 <<< 22
def mstatusSd : Word := 1 <<< 31

/-- `MSTATUS_WMASK`: the bits software may change. -/
def mstatusWmask : Word :=
  mstatusMie ||| mstatusMpie ||| mstatusMppMask ||| mstatusFsMask ||| mstatusMprv ||| mstatusSie ||| mstatusSpie |||
    mstatusSpp ||| mstatusTw ||| mstatusTsr ||| mstatusSum ||| mstatusMxr ||| mstatusTvm

/-- `SSTATUS_WMASK`: those of them a supervisor sees. -/
def sstatusWmask : Word :=
  (mstatusSie ||| mstatusSpie ||| mstatusSpp ||| mstatusSum ||| mstatusMxr ||| mstatusFsMask ||| mstatusSd) &&&
    mstatusWmask

def satpModeSv32 : Word := 0x80000000
def satpAsidMask : Word := 0x1FF <<< 22
def satpPpnMask : Word := 0x000FFFFF

/-! ## Cached translations -/

/-- An entry of the translation buffer in front of the walk. -/
structure TlbEntry where
  vpn : Word
  /-- The physical address of the page. -/
  ppn : Word
  /-- The low byte of the leaf. -/
  pte : Byte
  valid : Bool
  deriving DecidableEq, Repr

/-- `emu_dtlb_entry_t`: a page number in a tag, or `dtlbNone`. -/
structure DtlbEntry where
  read : Word
  write : Word
  addend : Ptr
  deriving DecidableEq, Repr

/-- `EMU_DTLB_NONE`, which no page number equals. -/
def dtlbNone : Word := 0xFFFFFFFF

/-- An entry after the table has been filled with ones. -/
def DtlbEntry.none : DtlbEntry := ⟨dtlbNone, dtlbNone, 0xFFFFFFFFFFFFFFFF⟩

/-- `RV_TLB_ENTRIES`. -/
def tlbEntries : Word := 32

/-- `RV_DTLB_ENTRIES`. -/
def dtlbEntries : Word := 256

def pageSize : Word := 4096

/-- `RV_PMP_ENTRIES`. -/
def pmpEntries : Nat := 16

/-! ## State -/

/-- `rv_hart_t`. -/
structure Hart (δ : Type) where
  bus : Bus δ
  x : BitVec 5 → Word
  pc : Word
  priv : Priv
  mstatus : Word
  mtvec : Word
  mepc : Word
  mcause : Word
  mtval : Word
  stvec : Word
  sepc : Word
  scause : Word
  stval : Word
  medeleg : Word
  mideleg : Word
  menvcfg : Word
  senvcfg : Word
  satp : Word
  pmpcfg : Nat → Word
  pmpaddr : Nat → Word
  /-- Some entry binds the hart at a privilege it fetches or accesses data at. -/
  pmpActive : Bool
  /-- Some entry is enabled. -/
  pmpAny : Bool
  /-- Some access is translated. -/
  vmActive : Bool
  trigActive : Bool
  /-- Whether a debug trigger fires on an access. -/
  trigCheck : Word → Access → Bool
  fetchGuard : Bool
  dataGuard : Bool
  tlb : Word → TlbEntry
  /-- The 4 MiB regions translated through a megapage since the last global flush. -/
  megaRegions : Word → Bool
  dtlb : Nat → Word → DtlbEntry
  itlb : Nat → Word → DtlbEntry
  resvValid : Bool
  resvAddr : Word
  splitValid : Bool
  splitReq : Word
  splitAt : Word

variable {δ : Type}

namespace Hart

/-- `rv_hart_data_priv`: the privilege loads and stores are checked at. -/
def dataPriv (h : Hart δ) : Priv :=
  if h.mstatus &&& mstatusMprv ≠ 0 then ((h.mstatus &&& mstatusMppMask) >>> mstatusMppShift).setWidth 2 else h.priv

/-- The privilege an access is checked and translated at: fetches use the hart's own. -/
def accPriv (h : Hart δ) (acc : Access) : Priv :=
  if acc = .fetch then h.priv else h.dataPriv

/-- Sv32 translation is on. -/
def paging (h : Hart δ) : Bool :=
  h.satp &&& satpModeSv32 != 0

/-- The hart fetches, or accesses data, below machine mode. -/
def belowM (h : Hart δ) : Bool :=
  h.priv != privM || h.dataPriv != privM

/-- `rv_hart_refresh_fetch_guard`. -/
def refreshFetchGuard (h : Hart δ) : Hart δ :=
  { h with
    fetchGuard := h.trigActive || h.pmpActive || h.vmActive
    dataGuard := h.pmpActive || h.pmpAny || h.vmActive }

end Hart

/-- `rv_dtlb_table`: the table an access at this privilege probes. -/
def dtlbTable (priv : Priv) : Nat :=
  if priv = privU then 0 else 1

end Emu.Rv
