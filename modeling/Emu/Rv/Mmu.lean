-- SUMMARY: Sv32 translation: the walk, the buffer in front of it, and the data and fetch tables built from it.
import Emu.Rv.Pmp

/-! # Sv32 address translation

A two-level walk with a direct-mapped buffer of translations in front, and before that one two tables per
privilege which answer for a whole page: the data table with a host address, the fetch table with a physical one. -/

namespace Emu.Rv

def pteV : Word := 0x001
def pteR : Word := 0x002
def pteW : Word := 0x004
def pteX : Word := 0x008
def pteU : Word := 0x010
def pteA : Word := 0x040
def pteD : Word := 0x080

def ppnMask : Word := 0x000FFFFF

/-- `PTE_PPN_PAST_BUS`: the page number bits above a 32-bit physical address. -/
def ptePpnPastBus : Word := 0xC0000000

/-- `fault_for`. -/
def pageFaultFor : Access → Exc
  | .fetch => .insnPageFault
  | .load => .loadPageFault
  | .store => .storePageFault

/-- `access_fault_for`. -/
def accessFaultFor : Access → Exc
  | .fetch => .insnAccessFault
  | .load => .loadAccessFault
  | .store => .storeAccessFault

/-! ## The walk -/

/-- How a walk fails: the mapping is no good, or a table cannot be reached. -/
inductive WalkFault where
  | page | access
  deriving DecidableEq, Repr

/-- The exception a failed walk raises for an access of this kind. -/
def WalkFault.exc : WalkFault → Access → Exc
  | page => pageFaultFor
  | access => accessFaultFor

/-- The leaf a walk ends at, with the physical address of the 4 KiB page it gives the address. -/
structure Leaf where
  mega : Bool
  base : Word
  pte : Word
  deriving DecidableEq, Repr

/-- Where the entry for an address lies in a table of this level. -/
def pteAddr (va : Word) (level : Nat) (table : Word) : Word :=
  table + ((va >>> (12 + 10 * level)) &&& 0x3FF) * 4

/-- The page a page table entry names. -/
def pteBase (pte : Word) : Word :=
  ((pte >>> 10) &&& ppnMask) <<< 12

/-- One round of the walk's loop: a leaf, or the table of the level below. -/
def walkLevel (rd : Word → Option Word) (va : Word) (level : Nat) (table : Word) : Except WalkFault (Leaf ⊕ Word) :=
  match rd (pteAddr va level table) with
  | none => .error .access
  | some pte =>
    if pte &&& pteV = 0 ∨ (pte &&& pteW ≠ 0 ∧ pte &&& pteR = 0) then .error .page
    else if pte &&& (pteR ||| pteX) = 0 then
      if level = 0 then .error .page
      else if pte &&& (pteD ||| pteA ||| pteU) ≠ 0 then .error .page  -- reserved in a pointer
      else if pte &&& ptePpnPastBus ≠ 0 then .error .access
      else .ok (.inr (pteBase pte))
    else if level = 1 then
      if pteBase pte &&& 0x003FFFFF ≠ 0 then .error .page  -- a misaligned megapage
      else .ok (.inl ⟨true, pteBase pte ||| (va &&& 0x003FF000), pte⟩)
    else .ok (.inl ⟨false, pteBase pte, pte⟩)

/-- The table `satp` names. -/
def rootTable (satp : Word) : Word :=
  (satp &&& ppnMask) <<< 12

/-- The walk, given how a page table word is read, up to the checks that depend on the access. -/
def walk (rd : Word → Option Word) (satp va : Word) : Except WalkFault Leaf :=
  match walkLevel rd va 1 (rootTable satp) with
  | .error f => .error f
  | .ok (.inl leaf) => .ok leaf
  | .ok (.inr table) =>
    match walkLevel rd va 0 table with
    | .error f => .error f
    | .ok (.inl leaf) => .ok leaf
    | .ok (.inr _) => .error .page

/-- The words a walk reads. -/
def walkWords (rd : Word → Option Word) (satp va : Word) : List Word :=
  pteAddr va 1 (rootTable satp) ::
    match walkLevel rd va 1 (rootTable satp) with
    | .ok (.inr table) => [pteAddr va 0 table]
    | _ => []

/-- `tlb_slot`. -/
def tlbSlot (vpn : Word) : Word :=
  vpn &&& (tlbEntries - 1)

def dtlbSlot (vpn : Word) : Word :=
  vpn &&& (dtlbEntries - 1)

/-- The entry, without its tags if one of them names the page. -/
def DtlbEntry.drop (e : DtlbEntry) (vpn : Word) : DtlbEntry :=
  if e.read = vpn ∨ e.write = vpn then { e with read := dtlbNone, write := dtlbNone } else e

namespace Hart

variable {δ : Type}

/-- `read_pte`: the walk's own accesses are physical, and checked as loads. What reading a table would do to a device
it lay in is left out. -/
def readPte (h : Hart δ) (pa : Word) : Option Word :=
  if h.pmpActive && !h.pmpCheck pa 4 .load then none else (h.bus.read pa 4).1.toOption

/-- `leaf_permits`, at the time of the access. -/
def leafPermits (h : Hart δ) (pte : Word) (acc : Access) (priv : Priv) : Bool :=
  if priv = privU ∧ pte &&& pteU = 0 then false
  else if priv ≠ privU ∧ pte &&& pteU ≠ 0 ∧ (acc = .fetch ∨ h.mstatus &&& mstatusSum = 0) then false
  else
    let granted : Bool := match acc with
      | .fetch => pte &&& pteX ≠ 0
      | .load => pte &&& pteR ≠ 0 ∨ (h.mstatus &&& mstatusMxr ≠ 0 ∧ pte &&& pteX ≠ 0)
      | .store => pte &&& pteW ≠ 0
    if granted = false then false
    else if pte &&& pteA = 0 then false
    else if acc = .store ∧ pte &&& pteD = 0 then false
    else true

/-- The fills at the end of a successful walk. -/
def fillTlb (h : Hart δ) (va : Word) (leaf : Leaf) : Hart δ :=
  { h with
    megaRegions := if leaf.mega then Function.update h.megaRegions (va >>> 22) true else h.megaRegions
    tlb := Function.update h.tlb (tlbSlot (va >>> 12)) ⟨va >>> 12, leaf.base, leaf.pte.setWidth 8, true⟩ }

/-- `rv_mmu_translate`. -/
def translate (h : Hart δ) (va : Word) (acc : Access) : Except Exc Word × Hart δ :=
  let priv := h.accPriv acc
  if priv = privM then (.ok va, h)
  else
    let e := h.tlb (tlbSlot (va >>> 12))
    if e.valid = true ∧ e.vpn = va >>> 12 ∧ h.leafPermits (e.pte.setWidth 32) acc priv = true then
      (.ok (e.ppn ||| (va &&& (pageSize - 1))), h)
    else
      -- a hit that does not permit the access is not a fault yet
      match walk h.readPte h.satp va with
      | .error f => (.error (f.exc acc), h)
      | .ok leaf =>
        if h.leafPermits leaf.pte acc priv = false then (.error (pageFaultFor acc), h)
        else if leaf.pte &&& ptePpnPastBus ≠ 0 then (.error (accessFaultFor acc), h)
        else (.ok (leaf.base ||| (va &&& (pageSize - 1))), h.fillTlb va leaf)

/-- `rv_mmu_refresh`. -/
def mmuRefresh (h : Hart δ) : Hart δ :=
  refreshFetchGuard { h with vmActive := h.paging && h.belowM }

/-! ## Flushes -/

/-- `rv_dtlb_flush`. -/
def dtlbFlush (h : Hart δ) : Hart δ :=
  { h with dtlb := fun _ _ => .none, itlb := fun _ _ => .none }

/-- `rv_mmu_flush_tlb`. -/
def mmuFlushTlb (h : Hart δ) : Hart δ :=
  dtlbFlush { h with tlb := fun i => { h.tlb i with valid := false } }

/-- `rv_mmu_flush`. -/
def mmuFlush (h : Hart δ) : Hart δ :=
  { h.mmuFlushTlb with megaRegions := fun _ => false }

/-- `rv_dtlb_flush_page`. -/
def dtlbFlushPage (h : Hart δ) (va : Word) : Hart δ :=
  let slot := dtlbSlot (va >>> 12)
  { h with
    dtlb := fun t => Function.update (h.dtlb t) slot ((h.dtlb t slot).drop (va >>> 12))
    itlb := fun t => Function.update (h.itlb t) slot ((h.itlb t slot).drop (va >>> 12)) }

/-- `rv_mmu_flush_page`: a region translated through a megapage is flushed with everything else. -/
def mmuFlushPage (h : Hart δ) (va : Word) : Hart δ :=
  if h.megaRegions (va >>> 22) then h.mmuFlush
  else
    let slot := tlbSlot (va >>> 12)
    let e := h.tlb slot
    dtlbFlushPage
      (if e.valid = true ∧ e.vpn = va >>> 12 then
        { h with tlb := Function.update h.tlb slot { e with valid := false } }
      else h) va

/-! ## The data and fetch tables -/

/-- `rv_mmu_dtlb_rights`: whether the page may be read whatever `mstatus` says, and if so whether it may be
written. -/
def dtlbRights (h : Hart δ) (va : Word) (priv : Priv) : Option Bool :=
  let e := h.tlb (tlbSlot (va >>> 12))
  let pte : Word := e.pte.setWidth 32
  if e.valid = false ∨ e.vpn ≠ va >>> 12 then none
  else if decide (pte &&& pteU ≠ 0) ≠ decide (priv = privU) then none
  else if pte &&& (pteR ||| pteA) ≠ pteR ||| pteA then none
  else some (pte &&& (pteW ||| pteD) = pteW ||| pteD)

/-- `rv_mmu_itlb_rights`. -/
def itlbRights (h : Hart δ) (va : Word) (priv : Priv) : Bool :=
  let e := h.tlb (tlbSlot (va >>> 12))
  let pte : Word := e.pte.setWidth 32
  if e.valid = false ∨ e.vpn ≠ va >>> 12 then false
  else if decide (pte &&& pteU ≠ 0) ≠ decide (priv = privU) then false
  else pte &&& (pteX ||| pteA) = pteX ||| pteA

end Hart

/-- The page an address lies in. -/
def pageOf (addr : Word) : Word :=
  addr &&& ~~~(pageSize - 1)

/-- Memory with a host buffer behind the whole page, which is what the tables may answer for. -/
def BacksPage (r : Region) (page : Word) : Prop :=
  r.host ≠ 0 ∧ (r.kind = .ram ∨ r.kind = .rom) ∧ page - r.base ≤ r.size ∧ pageSize ≤ r.size - (page - r.base)

instance (r : Region) (page : Word) : Decidable (BacksPage r page) :=
  inferInstanceAs (Decidable (_ ∧ _))

/-- The tables with one entry of one of them replaced. -/
def putEntry (tables : Nat → Word → DtlbEntry) (t : Nat) (slot : Word) (e : DtlbEntry) : Nat → Word → DtlbEntry :=
  Function.update tables t (Function.update (tables t) slot e)

namespace Hart

variable {δ : Type}

/-- `rv_dtlb_fill`. -/
def dtlbFill (h : Hart δ) (va pa : Word) : Hart δ :=
  let priv := h.dataPriv
  let vpn := va >>> 12
  if priv = privM then h
  else if (h.dtlb (dtlbTable priv) (dtlbSlot vpn)).read = vpn then h
  else
    -- by the leaf; without translation everything is granted
    match if h.paging then h.dtlbRights va priv else some true with
    | none => h
    | some wr =>
      let page := pageOf pa
      let rights := h.pmpPageRights page priv
      if rights.read = false then h
      else
        match h.bus.find page with
        | none => h
        | some r =>
          if ¬ BacksPage r page ∨ r.widths &&& wAny ≠ wAny ∨ r.perm &&& permR = 0 then h
          else
            let wr := wr && rights.write && decide (r.kind = .ram) && decide (r.perm &&& permW ≠ 0)
            let e : DtlbEntry :=
              ⟨vpn, if wr then vpn else dtlbNone, r.hostAt (page - r.base) - (pageOf va).setWidth 64⟩
            { h with dtlb := putEntry h.dtlb (dtlbTable priv) (dtlbSlot vpn) e }

/-- `rv_itlb_fill`: a page it refuses is remembered in the tag a fetch table does not otherwise use. -/
def itlbFill (h : Hart δ) (va pa : Word) : Hart δ :=
  let priv := h.priv
  let vpn := va >>> 12
  let old := h.itlb (dtlbTable priv) (dtlbSlot vpn)
  if priv = privM then h
  else if old.read = vpn ∨ old.write = vpn then h
  else
    let put (e : DtlbEntry) : Hart δ := { h with itlb := putEntry h.itlb (dtlbTable priv) (dtlbSlot vpn) e }
    let refused := put { old with read := dtlbNone, write := vpn }
    let page := pageOf pa
    if h.paging = true ∧ h.itlbRights va priv = false then refused
    else if (h.pmpPageRights page priv).exec = false then refused
    else
      match h.bus.find page with
      | none => refused
      | some r =>
        if ¬ BacksPage r page ∨ r.widths &&& w16 = 0 ∨ r.perm &&& permX = 0 then refused
        else put ⟨vpn, dtlbNone, (page - pageOf va).setWidth 64⟩

/-- `rv_itlb_entry`. -/
def itlbEntry (h : Hart δ) (va : Word) : Option DtlbEntry :=
  if h.priv = privM then none else some (h.itlb (dtlbTable h.priv) (dtlbSlot (va >>> 12)))

/-- `rv_itlb_lookup`: the physical address, if the fetch table holds the page. -/
def itlbLookup (h : Hart δ) (va : Word) : Option Word :=
  match h.itlbEntry va with
  | none => none
  | some e => if e.read = va >>> 12 then some (va + e.addend.setWidth 32) else none

/-- `dtlb_probe`: an entry vouches for aligned accesses, which cannot leave its page. -/
def dtlbProbe (h : Hart δ) (va : Word) (size : Nat) (store : Bool) : Option DtlbEntry :=
  let priv := h.dataPriv
  let vpn := va >>> 12
  if priv = privM ∨ va &&& (BitVec.ofNat 32 size - 1) ≠ 0 then none
  else
    let e := h.dtlb (dtlbTable priv) (dtlbSlot vpn)
    if (if store then e.write else e.read) = vpn then some e else none

end Hart

end Emu.Rv
