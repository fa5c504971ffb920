-- SUMMARY: Traps, returns, fences and the writes to the control registers that memory accesses depend on.
import Emu.Rv.Access

/-! # The privileged architecture

Trap entry and return, SFENCE.VMA, and writes to `mstatus`, `sstatus`, `satp` and the PMP registers. The remaining
control registers do not bear on memory accesses. -/

namespace Emu.Rv

variable {δ : Type}

namespace Hart

/-! ## Traps -/

/-- `RV_CAUSE_INTERRUPT`. -/
def causeInterrupt : Word := 0x80000000

/-- `trap_to_s`. -/
def trapToS (h : Hart δ) (cause : Word) : Bool :=
  let code := cause &&& ~~~causeInterrupt
  let deleg := if cause &&& causeInterrupt ≠ 0 then h.mideleg else h.medeleg
  if h.priv > privS then false else code < 32 ∧ (deleg >>> code.toNat) &&& 1 ≠ 0

/-- `illegal_tval`: a compressed instruction is reported as the guest wrote it. -/
def illegalTval (h : Hart δ) (tval : Word) : Word × Hart δ :=
  match translateActive h.pc .fetch h with
  | (.error _, h') => (tval, h')
  | (.ok pa, h') =>
    match h'.bus.fetch16 pa with
    | .error _ => (tval, h')
    | .ok parcel => (if is32bit parcel then tval else parcel, h')

/-- The address a split access was refused at replaces the one its caller hands over. -/
def splitTval (h : Hart δ) (cause tval : Word) : Word :=
  if h.splitValid = true ∧ cause &&& causeInterrupt = 0 ∧ tval = h.splitReq then h.splitAt else tval

/-- The privilege stack pushed by a trap into supervisor mode. -/
def enterS (h : Hart δ) (cause tval : Word) : Hart δ :=
  let spie := if h.mstatus &&& mstatusSie ≠ 0 then mstatusSpie else 0
  let spp := if h.priv = privS then mstatusSpp else 0
  { h with
    sepc := h.pc
    scause := cause
    stval := tval
    mstatus := (h.mstatus &&& ~~~(mstatusSie ||| mstatusSpie ||| mstatusSpp)) ||| spie ||| spp
    priv := privS }

/-- The privilege stack pushed by a trap into machine mode. -/
def enterM (h : Hart δ) (cause tval : Word) : Hart δ :=
  let mpie := if h.mstatus &&& mstatusMie ≠ 0 then mstatusMpie else 0
  { h with
    mepc := h.pc
    mcause := cause
    mtval := tval
    mstatus := (h.mstatus &&& ~~~(mstatusMie ||| mstatusMpie ||| mstatusMppMask)) ||| mpie |||
      (h.priv.setWidth 32 <<< mstatusMppShift)
    priv := privM }

/-- Where a trap with this cause goes. -/
def trapVector (tvec cause : Word) : Word :=
  let base := tvec &&& ~~~3
  if tvec &&& 3 = 1 ∧ cause &&& causeInterrupt ≠ 0 then base + 4 * (cause &&& ~~~causeInterrupt) else base

/-- The value a trap reports, and the hart once that is known. -/
def trapValue (h : Hart δ) (cause tval : Word) : Word × Hart δ :=
  let tval := h.splitTval cause tval
  let h := { h with splitValid := false }
  if cause = Exc.illegalInsn.code then h.illegalTval tval else (tval, h)

/-- Entry into the mode the trap is delegated to. -/
def enterTrap (h : Hart δ) (cause tval : Word) : Hart δ :=
  let toS := h.trapToS cause
  let entered := if toS then h.enterS cause tval else h.enterM cause tval
  let tvec := if toS then h.stvec else h.mtvec
  { entered.pmpRefresh.mmuRefresh with pc := trapVector tvec cause, resvValid := false }

/-- `rv_hart_trap`. -/
def trap (h : Hart δ) (cause tval : Word) : Hart δ :=
  let res := h.trapValue cause tval
  res.2.enterTrap cause res.1

/-- MRET, run in machine mode. -/
def mret (h : Hart δ) : Hart δ :=
  let mie := if h.mstatus &&& mstatusMpie ≠ 0 then mstatusMie else 0
  let mpp : Priv := ((h.mstatus &&& mstatusMppMask) >>> mstatusMppShift).setWidth 2
  let back := if mpp = privU then privU else if mpp = privS then privS else privM
  let clear := mstatusMie ||| mstatusMpie ||| mstatusMppMask ||| (if back = privM then 0 else mstatusMprv)
  let h := { h with mstatus := (h.mstatus &&& ~~~clear) ||| mie ||| mstatusMpie, priv := back }
  { h.pmpRefresh.mmuRefresh with pc := h.mepc }

/-- SRET, where it is legal. -/
def sret (h : Hart δ) : Hart δ :=
  let sie := if h.mstatus &&& mstatusSpie ≠ 0 then mstatusSie else 0
  let back := if h.mstatus &&& mstatusSpp ≠ 0 then privS else privU
  let clear := mstatusSie ||| mstatusSpie ||| mstatusSpp ||| mstatusMprv
  let h := { h with mstatus := (h.mstatus &&& ~~~clear) ||| sie ||| mstatusSpie, priv := back }
  { h.pmpRefresh.mmuRefresh with pc := h.sepc }

/-- SRET is legal in machine mode, and in supervisor mode unless machine mode traps it. -/
def sretLegal (h : Hart δ) : Bool :=
  !(decide (h.priv < privS) || (decide (h.priv = privS) && decide (h.mstatus &&& mstatusTsr ≠ 0)))

/-- SFENCE.VMA is legal in machine mode, and in supervisor mode unless machine mode traps it; a write to `satp`
is trapped by the same bit. -/
def fenceLegal (h : Hart δ) : Bool :=
  !(decide (h.priv < privS) || (decide (h.priv = privS) && decide (h.mstatus &&& mstatusTvm ≠ 0)))

/-! ## Control registers -/

/-- The control registers that bear on memory accesses. -/
inductive Csr where
  | mstatus | sstatus | satp
  | pmpcfg (i : Fin 4)
  | pmpaddr (i : Fin 16)
  deriving DecidableEq, Repr

/-- `csr_min_priv`: bits 9:8 of the register's number. -/
def Csr.minPriv : Csr → Priv
  | sstatus | satp => privS
  | mstatus | pmpcfg _ | pmpaddr _ => privM

/-- A byte of `pmpcfg` after a write: a locked one stays. -/
def pmpcfgByte (cur val : Word) (b : Nat) : Word :=
  if (cur >>> (b * 8)) &&& 0x80 ≠ 0 then cur
  else (cur &&& ~~~((0xFF : Word) <<< (b * 8))) ||| (((val >>> (b * 8)) &&& 0x9F) <<< (b * 8))

/-- An address register is read-only while its entry is locked, or the next one is a locked top-of-range entry. -/
def pmpaddrLocked (h : Hart δ) (i : Nat) : Bool :=
  decide (h.pmpCfg i &&& 0x80 ≠ 0) ||
    (decide (i + 1 < pmpEntries) && decide (h.pmpCfg (i + 1) &&& 0x80 ≠ 0) &&
      decide ((h.pmpCfg (i + 1) &&& 0x18) >>> 3 = 1))

/-- `RV_PMPADDR_MASK`. -/
def pmpaddrMask : Word := 0x3FFFFFFF

/-- `rv_csr_write`: `none` is an illegal instruction. -/
def csrWrite (h : Hart δ) (csr : Csr) (val : Word) : Option (Hart δ) :=
  if csr.minPriv > h.priv then none
  else match csr with
    | .mstatus =>
      let h := { h with mstatus := (h.mstatus &&& ~~~mstatusWmask) ||| (val &&& mstatusWmask) }
      some h.pmpRefresh.mmuRefresh
    | .sstatus => some { h with mstatus := (h.mstatus &&& ~~~sstatusWmask) ||| (val &&& sstatusWmask) }
    | .satp =>
      if h.priv = privS ∧ h.mstatus &&& mstatusTvm ≠ 0 then none
      else
        let h := { h with satp := val &&& (satpModeSv32 ||| satpAsidMask ||| satpPpnMask) }
        some h.mmuFlushTlb.mmuRefresh
    | .pmpcfg i =>
      let cfg := [0, 1, 2, 3].foldl (pmpcfgByte · val ·) (h.pmpcfg i)
      some (dtlbFlush { h with pmpcfg := Function.update h.pmpcfg i cfg }).pmpRefresh
    | .pmpaddr i =>
      if h.pmpaddrLocked i then some h
      else some (dtlbFlush { h with pmpaddr := Function.update h.pmpaddr i (val &&& pmpaddrMask) })

/-- A hart in cleared storage, before its first reset. -/
def zeroed (bus : Bus δ) : Hart δ where
  bus := bus
  x _ := 0
  pc := 0
  priv := 0
  mstatus := 0
  mtvec := 0
  mepc := 0
  mcause := 0
  mtval := 0
  stvec := 0
  sepc := 0
  scause := 0
  stval := 0
  medeleg := 0
  mideleg := 0
  menvcfg := 0
  senvcfg := 0
  satp := 0
  pmpcfg _ := 0
  pmpaddr _ := 0
  pmpActive := false
  pmpAny := false
  vmActive := false
  trigActive := false
  trigCheck _ _ := false
  fetchGuard := false
  dataGuard := false
  tlb _ := ⟨0, 0, 0, false⟩
  megaRegions _ := false
  dtlb _ _ := ⟨0, 0, 0⟩
  itlb _ _ := ⟨0, 0, 0⟩
  resvValid := false
  resvAddr := 0
  splitValid := false
  splitReq := 0
  splitAt := 0

/-- `rv_hart_reset`, on a bus that may have been loaded again. -/
def reset (h : Hart δ) (bus : Bus δ) (pc : Word) : Hart δ :=
  refreshFetchGuard <| mmuFlush { h with
    bus := bus
    x := fun _ => 0
    pc := pc
    priv := privM
    mstatus := 1 <<< 13
    mtvec := 0
    mepc := 0
    mcause := 0
    mtval := 0
    stvec := 0
    sepc := 0
    scause := 0
    stval := 0
    medeleg := 0
    mideleg := 0
    menvcfg := 0
    senvcfg := 0
    satp := 0
    pmpcfg := fun _ => 0
    pmpaddr := fun _ => 0
    pmpActive := false
    pmpAny := false
    vmActive := false
    trigActive := false
    resvValid := false
    resvAddr := 0
    splitValid := false }

end Hart

end Emu.Rv
