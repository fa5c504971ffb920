-- SUMMARY: The PowerPC MMU: a table of pages of many sizes, what it translates, and the instructions that change it.
import Emu.Ir.Syntax

/-! # The MMU

One table of 32 entries, searched from the first: the lowest entry that matches decides. Two facts about the table are
kept beside it, that it is as reset left it and that nothing needs translating. What a change of the table makes stale is
handed to the translator: spans of addresses, or a move of the generation when a window of a block's data may be
touched. -/

namespace Emu.Ppc

/-! ## Entries -/

def mas1V : Word := 0x80000000
def mas1Iprot : Word := 0x40000000
def mas1Tid : Word := 0x00FF0000
def mas1Ts : Word := 0x00001000
def mas1Tsize : Word := 0x00000F80
def mas1Impl : Word := mas1V ||| mas1Iprot ||| mas1Tid ||| mas1Ts ||| mas1Tsize

def mas2Epn : Word := 0xFFFFFC00
def mas2Vle : Word := 0x00000020
def mas2Wimge : Word := 0x0000001F
def mas2I : Word := 0x00000008
def mas2E : Word := 0x00000001
def mas2Impl : Word := mas2Epn ||| mas2Vle ||| mas2Wimge

def mas3Rpn : Word := 0xFFFFFC00
def mas3U03 : Word := 0x000003C0
def mas3Ux : Word := 0x00000020
def mas3Sx : Word := 0x00000010
def mas3Uw : Word := 0x00000008
def mas3Sw : Word := 0x00000004
def mas3Ur : Word := 0x00000002
def mas3Sr : Word := 0x00000001
def mas3Perms : Word := 0x0000003F
def mas3Impl : Word := mas3Rpn ||| mas3U03 ||| mas3Perms

def mas0Tlbsel1 : Word := 0x10000000
def mas0Esel : Word := 0x001F0000
def mas0Nv : Word := 0x0000001F
def mas0Impl : Word := 0x30000000 ||| mas0Esel ||| mas0Nv

def mas4Tlbseld : Word := 0x30000000
def mas4Tidseld : Word := 0x00030000
def mas4Tsized : Word := 0x00000F80
def mas4Vled : Word := 0x00000020
def mas4Dwimge : Word := 0x0000001F
def mas4Impl : Word := mas4Tlbseld ||| mas4Tidseld ||| mas4Tsized ||| mas4Vled ||| mas4Dwimge

def mas6Spid : Word := 0x00FF0000
def mas6Sas : Word := 0x00000001
def mas6Impl : Word := mas6Spid ||| mas6Sas

def mmucsr0Tlb1Fi : Word := 0x00000002

def msrPr : Word := 1 <<< 14
def msrIs : Word := 1 <<< 5
def msrDs : Word := 1 <<< 4

/-- `PPC_MSR_IMPL`. -/
def msrImpl : Word := 0x0606FB36

/-- `PPC_TLB_ENTRIES`. -/
def tlbEntries : Nat := 32

/-- `PPC_TSIZE_MAX`. -/
def tsizeMax : Nat := 22

/-- `PPC_JIT_WINDOWS`. -/
def jitWindows : Nat := 8

structure Entry where
  mas1 : Word
  mas2 : Word
  mas3 : Word
  deriving DecidableEq, Repr

/-- TSIZE: a page has `2 ^ TSIZE` kilobytes. -/
def tsize (mas1 : Word) : Nat := ((mas1 &&& mas1Tsize) >>> 7).toNat

/-- `page_mask`: the bits of an address a page is compared on; a size beyond the largest has none. -/
def pageMask (mas1 : Word) : Option Word :=
  if tsizeMax < tsize mas1 then none else some (~~~(BitVec.ofNat 32 (1024 * 2 ^ tsize mas1 - 1)))

/-- `ea_on_page`. -/
def eaOnPage (mas1 mas2 ea : Word) : Bool :=
  match pageMask mas1 with
  | none => false
  | some mask => decide ((ea ^^^ mas2) &&& mask &&& mas2Epn = 0)

/-- What an entry is compared on before its page: it is valid, of the address space, and of the process or of all. -/
def Entry.serves (e : Entry) (as : Bool) (pid : Word) : Bool :=
  let tid := (e.mas1 &&& mas1Tid) >>> 16
  decide (e.mas1 &&& mas1V ≠ 0) && decide (decide (e.mas1 &&& mas1Ts ≠ 0) = as) && (decide (tid = 0) || decide (tid = pid))

def Entry.hits (e : Entry) (ea : Word) (as : Bool) (pid : Word) : Bool := e.serves as pid && eaOnPage e.mas1 e.mas2 ea

/-! ## State -/

/-- What `ppc_cpu_t` holds of the MMU, of what decides over it, and of what the translator was given. -/
structure Mmu where
  tlb : Nat → Entry
  tlbResetMas2 : Word
  tlbDefault : Bool
  mmuOn : Bool
  msr : Word
  pid0 : Word
  mas0 : Word
  mas1 : Word
  mas2 : Word
  mas3 : Word
  mas4 : Word
  mas6 : Word
  dear : Word
  vle : Bool
  coreid : Word
  smpLive : Bool
  slowStore : Bool
  irqDirty : Bool
  jitNwin : Nat
  /-- The first and the last address of a window. -/
  jitWin : Nat → Word × Word
  jitGen : Word
  /-- The ranges handed to `ppc_jit_invalidate_range`, the latest first. -/
  invalidated : List (Word × Word)

namespace Mmu

variable (m : Mmu)

/-- `lookup`. -/
def lookup (ea : Word) (as : Bool) (pid : Word) : Option Nat :=
  (List.range tlbEntries).find? fun i => (m.tlb i).hits ea as pid

/-! ## The reset entry, and whether translation is the identity -/

/-- `DEFAULT_MAS1`. -/
def defaultMas1 : Word := mas1V ||| mas1Iprot ||| (22 <<< 7)

/-- What `recompute_default` asks of the table. -/
def isDefault : Bool :=
  decide (m.tlb 0 = ⟨defaultMas1, m.tlbResetMas2, mas3Perms⟩) &&
    (List.range' 1 (tlbEntries - 1)).all fun i => decide ((m.tlb i).mas1 &&& mas1V = 0)

/-- `recompute_default`. -/
def recomputeDefault : Mmu := { m with tlbDefault := m.isDefault }

/-- `ppc_mmu_refresh`. -/
def refresh : Mmu :=
  let on := !m.tlbDefault || decide (m.msr &&& (msrIs ||| msrDs) ≠ 0)
  let m := { m with slowStore := on || m.smpLive }
  if on = m.mmuOn then m
  else
    { m with
      mmuOn := on
      irqDirty := true
      vle := if on then m.vle else decide (m.tlbResetMas2 &&& mas2Vle ≠ 0) }

/-- MAS2 of the entry that reset leaves. -/
def resetMas2 (vle : Bool) : Word := mas2I ||| if vle then mas2Vle else 0

/-- `ppc_mmu_reset`. -/
def reset : Mmu :=
  { m with
    tlb := Function.update (fun _ => ⟨0, 0, 0⟩) 0 ⟨defaultMas1, resetMas2 m.vle, mas3Perms⟩
    tlbResetMas2 := resetMas2 m.vle
    mas0 := 0, mas1 := 0, mas2 := 0, mas3 := 0, mas4 := 0, mas6 := 0
    tlbDefault := true
    mmuOn := false }.refresh

/-- `entry_span`. -/
def entrySpan (mas1 mas2 : Word) : Option (Word × Word) :=
  if mas1 &&& mas1V = 0 then none
  else
    match pageMask mas1 with
    | none => none
    | some mask => some (mas2 &&& mas2Epn &&& mask, (mas2 &&& mas2Epn &&& mask) + ~~~mask)

/-- A window that a span touches, or windows that are not all known. -/
def windowTouched (lo hi : Word) : Bool :=
  decide (jitWindows < m.jitNwin) ||
    (List.range m.jitNwin).any fun k => decide ((m.jitWin k).1 ≤ hi ∧ lo ≤ (m.jitWin k).2)

/-- `retire`. -/
def retire (lo hi : Word) : Mmu :=
  if m.windowTouched lo hi then { m with jitGen := m.jitGen + 1, jitNwin := 0 }
  else { m with invalidated := (lo, hi) :: m.invalidated }

/-- `retire_entry`. -/
def retireEntry (mas1 mas2 : Word) : Mmu :=
  match entrySpan mas1 mas2 with
  | some span => m.retire span.1 span.2
  | none => m

/-- `tlb_changed`. -/
def tlbChanged : Mmu := m.recomputeDefault.refresh

/-! ## Translation -/

inductive Acc where
  | exec | read | write
  deriving DecidableEq, Repr

/-- The exceptions of a translation. -/
inductive Exc where
  | itlbError | dtlbError | instStorage | dataStorage
  deriving DecidableEq, Repr

/-- `pid_of`. -/
def pidOf : Word := m.pid0 &&& 0xFF

/-- `as_of`. -/
def asOf (exec : Bool) : Bool := decide (m.msr &&& (if exec then msrIs else msrDs) ≠ 0)

def user : Bool := decide (m.msr &&& msrPr ≠ 0)

/-- `tlb_error_update`. -/
def tlbErrorUpdate (ea : Word) (as : Bool) : Mmu :=
  let nv := m.mas0 &&& mas0Nv
  let tidsel := (m.mas4 &&& mas4Tidseld) >>> 16
  let tid := if tidsel = 3 then 0 else m.pidOf
  { m with
    mas0 := (m.mas4 &&& mas4Tlbseld) ||| (nv <<< 16) ||| nv
    mas1 := mas1V ||| (tid <<< 16) ||| (if as then mas1Ts else 0) ||| (m.mas4 &&& mas4Tsized)
    mas2 := (ea &&& mas2Epn) ||| (m.mas4 &&& (mas4Vled ||| mas4Dwimge))
    mas3 := 0
    mas6 := (m.pidOf <<< 16) ||| if as then mas6Sas else 0 }

/-- `real_of`. -/
def realOf (i : Nat) (ea : Word) : Word :=
  match pageMask (m.tlb i).mas1 with
  | some mask => ((m.tlb i).mas3 &&& mas3Rpn &&& mask) ||| (ea &&& ~~~mask)
  | none => 0

/-- What a translation gives: the real address, and whether the page is VLE and little-endian. -/
structure Xlated where
  pa : Word
  vle : Bool
  le : Bool
  deriving DecidableEq, Repr

/-- `ppc_mmu_probe_exec`. -/
def probeExec (ea : Word) : Option Xlated :=
  match m.lookup ea (m.asOf true) m.pidOf with
  | none => none
  | some i =>
    if (m.tlb i).mas3 &&& (if m.user then mas3Ux else mas3Sx) = 0 then none
    else some ⟨m.realOf i ea, decide ((m.tlb i).mas2 &&& mas2Vle ≠ 0), decide ((m.tlb i).mas2 &&& mas2E ≠ 0)⟩

/-- The permission an access needs. -/
def need (user : Bool) : Acc → Word
  | .exec => if user then mas3Ux else mas3Sx
  | .write => if user then mas3Uw else mas3Sw
  | .read => if user then mas3Ur else mas3Sr

/-- `ppc_mmu_xlate`. -/
def xlate (ea : Word) (acc : Acc) : Except Exc Xlated × Mmu :=
  let exec := decide (acc = .exec)
  let as := m.asOf exec
  match m.lookup ea as m.pidOf with
  | none =>
    let m := m.tlbErrorUpdate ea as
    if exec then (.error .itlbError, m) else (.error .dtlbError, { m with dear := ea })
  | some i =>
    if (m.tlb i).mas3 &&& need m.user acc = 0 then
      if exec then (.error .instStorage, m) else (.error .dataStorage, { m with dear := ea })
    else
      (.ok ⟨m.realOf i ea, decide ((m.tlb i).mas2 &&& mas2Vle ≠ 0), decide ((m.tlb i).mas2 &&& mas2E ≠ 0)⟩, m)

/-- The permissions of a page that is read and written. -/
def dataNeed (user : Bool) : Word := if user then mas3Ur ||| mas3Uw else mas3Sr ||| mas3Sw

/-- The lower entries that share an address with a page. -/
def overlaps (i : Nat) (as : Bool) (pid lo : Word) (n : Nat) : Bool :=
  (List.range i).any fun j =>
    (m.tlb j).serves as pid &&
      match pageMask (m.tlb j).mas1 with
      | none => false
      | some mj =>
        let jlo := (m.tlb j).mas2 &&& mas2Epn &&& mj
        let jn := (~~~mj).toNat + 1
        decide (jlo.toNat < lo.toNat + n ∧ lo.toNat < jlo.toNat + jn)

/-- `ppc_mmu_data_page`: the first address of the page, its real address and its size. -/
def dataPage (ea : Word) : Option (Word × Word × Nat) :=
  let as := m.asOf false
  let need := dataNeed m.user
  match m.lookup ea as m.pidOf with
  | none => none
  | some i =>
    if (m.tlb i).mas3 &&& need ≠ need ∨ (m.tlb i).mas2 &&& mas2E ≠ 0 then none
    else
      match pageMask (m.tlb i).mas1 with
      | none => none
      | some mask =>
        let lo := (m.tlb i).mas2 &&& mas2Epn &&& mask
        let n := (~~~mask).toNat + 1
        if m.overlaps i as m.pidOf lo n then none else some (lo, (m.tlb i).mas3 &&& mas3Rpn &&& mask, n)

/-! ## Instructions -/

/-- `esel_of`. -/
def eselOf : Nat := ((m.mas0 &&& mas0Esel) >>> 16).toNat

/-- `ppc_tlbre`. -/
def tlbre : Mmu :=
  let e := m.tlb m.eselOf
  { m with mas1 := e.mas1, mas2 := e.mas2, mas3 := e.mas3 }

/-- `ppc_tlbwe`. -/
def tlbwe : Mmu :=
  let old := m.tlb m.eselOf
  let new : Entry := ⟨m.mas1 &&& mas1Impl, m.mas2 &&& mas2Impl, m.mas3 &&& mas3Impl⟩
  ((({ m with tlb := Function.update m.tlb m.eselOf new }.retireEntry old.mas1 old.mas2).retireEntry
    new.mas1 new.mas2)).tlbChanged

/-- `ppc_tlbsx`. -/
def tlbsx (ea : Word) : Mmu :=
  let as := decide (m.mas6 &&& mas6Sas ≠ 0)
  let spid := (m.mas6 &&& mas6Spid) >>> 16
  let nv := m.mas0 &&& mas0Nv
  match m.lookup ea as spid with
  | some i =>
    { m with
      mas0 := mas0Tlbsel1 ||| (BitVec.ofNat 32 i <<< 16) ||| nv
      mas1 := (m.tlb i).mas1
      mas2 := (m.tlb i).mas2
      mas3 := (m.tlb i).mas3 }
  | none =>
    { m with
      mas0 := (m.mas4 &&& mas4Tlbseld) ||| (nv <<< 16) ||| nv
      mas1 := (spid <<< 16) ||| (if as then mas1Ts else 0) ||| (m.mas4 &&& mas4Tsized)
      mas2 := (ea &&& mas2Epn) ||| (m.mas4 &&& (mas4Vled ||| mas4Dwimge))
      mas3 := 0 }

/-- The entries that `tlbivax` takes. -/
def invalidates (ea : Word) (e : Entry) : Bool :=
  decide (e.mas1 &&& mas1V ≠ 0) && decide (e.mas1 &&& mas1Iprot = 0) &&
    (decide (ea &&& 4 ≠ 0) || eaOnPage e.mas1 e.mas2 ea)

/-- A turn of the loop of `ppc_tlbivax`. -/
def tlbivaxAt (ea : Word) (m : Mmu) (i : Nat) : Mmu :=
  let e := m.tlb i
  if invalidates ea e then
    { m with tlb := Function.update m.tlb i { e with mas1 := e.mas1 &&& ~~~mas1V } }.retireEntry e.mas1 e.mas2
  else m

/-- `ppc_tlbivax`. -/
def tlbivax (ea : Word) : Mmu := ((List.range tlbEntries).foldl (tlbivaxAt ea) m).tlbChanged

/-- `ppc_mmu_flash_invalidate`. -/
def flashInvalidate : Mmu := m.tlbivax 4

/-! ## Registers -/

/-- `ppc_cpu_set_msr`. -/
def setMsr (v : Word) : Mmu := { m with msr := v &&& msrImpl, irqDirty := true }.refresh

/-- An interrupt keeps some bits of MSR, as `ppc_cpu_raise` does. -/
def raiseMsr (keep : Word) : Mmu := { m with msr := m.msr &&& keep }.refresh

/-- A debugger writes MSR whole. -/
def gdbMsr (v : Word) : Mmu := { m with msr := v, irqDirty := true }.refresh

/-- The write of MMUCSR0. -/
def mmucsr0Write (v : Word) : Mmu := if v &&& mmucsr0Tlb1Fi ≠ 0 then m.flashInvalidate else m

/-! ## What a core does to its MMU -/

inductive Op where
  | tlbwe
  | tlbre
  | tlbsx (ea : Word)
  | tlbivax (ea : Word)
  | mmucsr0 (v : Word)
  | mas0 (v : Word)
  | mas1 (v : Word)
  | mas2 (v : Word)
  | mas3 (v : Word)
  | mas4 (v : Word)
  | mas6 (v : Word)
  | pid0 (v : Word)
  /-- A move to HID0, which the MMU does not read. -/
  | hid0
  | msr (v : Word)
  /-- An interrupt, with the bits of MSR it keeps. -/
  | raise (keep : Word)
  | gdbMsr (v : Word)
  /-- An access, which leaves its fault in the registers. -/
  | access (ea : Word) (acc : Acc)
  /-- The translating loop keeps the encoding of the page it fetched from. -/
  | encoding (vle : Bool)
  /-- `ppc_cpu_start` and `ppc_cpu_take_start`. -/
  | smp (live : Bool)
  | reset (vle : Bool)

def Op.run (m : Mmu) : Op → Mmu
  | .tlbwe => m.tlbwe
  | .tlbre => m.tlbre
  | .tlbsx ea => m.tlbsx ea
  | .tlbivax ea => m.tlbivax ea
  | .mmucsr0 v => m.mmucsr0Write v
  | .mas0 v => { m with mas0 := v &&& mas0Impl }
  | .mas1 v => { m with mas1 := v &&& mas1Impl }
  | .mas2 v => { m with mas2 := v &&& mas2Impl }
  | .mas3 v => { m with mas3 := v &&& mas3Impl }
  | .mas4 v => { m with mas4 := v &&& mas4Impl }
  | .mas6 v => { m with mas6 := v &&& mas6Impl }
  | .pid0 v => { m with pid0 := v &&& 0xFF }
  | .hid0 => { m with irqDirty := true }
  | .msr v => m.setMsr v
  | .raise keep => m.raiseMsr keep
  | .gdbMsr v => m.gdbMsr v
  | .access ea acc => (m.xlate ea acc).2
  | .encoding vle => { m with vle := vle }
  | .smp live => { m with smpLive := live, slowStore := m.mmuOn || live }
  | .reset vle => { m with msr := 0, smpLive := false, vle := vle, jitNwin := 0 }.reset

end Mmu

end Emu.Ppc
