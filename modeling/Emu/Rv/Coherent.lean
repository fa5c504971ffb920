-- SUMMARY: What it means for the cached translations to be right, and that fills and flushes keep them so.
import Mathlib
import Emu.Lib.Slots
import Emu.Rv.Page
import Emu.Rv.System

/-! # Coherent translations

A cached translation is right while the page table words behind it are what they were when it was made. `Coh rd D h`
says that every entry of the three caches agrees with a walk that reads page table words by `rd`, unless the set `D`
of translations that have gone stale and have not been fenced since excuses it. -/

namespace Emu.Rv

variable {δ : Type} {h : Hart δ} {rd rd' : Word → Option Word} {va va' pa page : Word} {acc : Access}

/-- What cached translations rest on besides the page table words. -/
structure Space where
  satp : Word
  /-- The 4 MiB regions marked for megapages. -/
  mega : Word → Bool
  /-- What PMP grants on a page below machine mode. -/
  rights : Word → Rights
  find : Word → Option Region

/-- Sv32 translation is on. -/
def Space.paging (c : Space) : Bool :=
  c.satp &&& satpModeSv32 != 0

def Hart.space (h : Hart δ) : Space :=
  ⟨h.satp, h.megaRegions, fun page => h.pmpPageRights page privS, h.bus.find⟩

variable {c c' : Space}

/-- Translations that are out of date: a page number, and whether the translation was made through a megapage. -/
abbrev Stale := Set (Word × Bool)

/-- The page of an address is out of date. -/
def Stale.Has (D : Stale) (va : Word) : Prop :=
  ∃ mega, (va >>> 12, mega) ∈ D

/-- An entry for the address may be out of date. One made through a megapage can only be held while its region is
marked. -/
def Stale.Excuses (D : Stale) (c : Space) (va : Word) : Prop :=
  (va >>> 12, false) ∈ D ∨ (va >>> 12, true) ∈ D ∧ c.mega (va >>> 22) = true

theorem Stale.Excuses.has {D : Stale} (he : D.Excuses c va) : D.Has va := by
  obtain he | he := he
  · exact ⟨false, he⟩
  · exact ⟨true, he.1⟩

theorem Stale.excuses_of_vpn {D : Stale} (hv : va >>> 12 = va' >>> 12) : D.Excuses c va ↔ D.Excuses c va' := by
  rw [Stale.Excuses, Stale.Excuses, hv, region_of_vpn hv]

/-- A mark for a translation excuses its entries: for one made through a megapage, its region is marked. -/
theorem Stale.Excuses.of_mark {D : Stale} {mega : Bool} (hm : (va >>> 12, mega) ∈ D)
    (hr : mega = true → c.mega (va >>> 22) = true) : D.Excuses c va := by
  cases mega with
  | false => exact .inl hm
  | true => exact .inr ⟨hm, hr rfl⟩

namespace Hart

/-! ## Derived state -/

/-- What an access made below machine mode reads as a page table word. -/
def pteBelow (h : Hart δ) (a : Word) : Option Word :=
  if h.pmpCheckAt privS a 4 .load then (h.bus.read a 4).1.toOption else none

/-- The flags of the hart are what its registers say, and below machine mode no privilege is borrowed. -/
structure Ok (h : Hart δ) : Prop where
  bus : h.bus.Wf
  little : h.bus.bigEndian = false
  pmpActive : h.pmpActive = (h.belowM || h.pmpLocked)
  pmpAny : h.pmpAny = h.pmpEnabled
  vmActive : h.vmActive = (h.paging && h.belowM)
  fetchGuard : h.fetchGuard = (h.trigActive || h.pmpActive || h.vmActive)
  dataGuard : h.dataGuard = (h.pmpActive || h.pmpAny || h.vmActive)
  mprv : h.priv ≠ privM → h.mstatus &&& mstatusMprv = 0

namespace Ok

theorem dataPriv_ne (hok : h.Ok) (hp : h.accPriv acc ≠ privM) : h.dataPriv ≠ privM := by
  rw [accPriv] at hp
  split_ifs at hp
  · have hm := hok.mprv hp
    rw [dataPriv, if_neg (not_not.mpr hm)]
    exact hp
  · exact hp

theorem belowM_of (hok : h.Ok) (hp : h.accPriv acc ≠ privM) : h.belowM = true := by
  have hd := hok.dataPriv_ne hp
  rw [belowM, bne_iff_ne.mpr hd, Bool.or_true]

theorem pmpActive_of (hok : h.Ok) (hp : h.accPriv acc ≠ privM) : h.pmpActive = true := by
  rw [hok.pmpActive, hok.belowM_of hp, Bool.true_or]

theorem vmActive_of (hok : h.Ok) (hp : h.accPriv acc ≠ privM) : h.vmActive = h.paging := by
  rw [hok.vmActive, hok.belowM_of hp, Bool.and_true]

theorem paging_of_vmActive (hok : h.Ok) (hv : h.vmActive = true) : h.paging = true := by
  rw [hok.vmActive, Bool.and_eq_true] at hv
  exact hv.1

/-- The walk's reads are checked at the data privilege, and below machine mode all privileges are alike. -/
theorem readPte_eq (hok : h.Ok) (hp : h.accPriv acc ≠ privM) : h.readPte = h.pteBelow := by
  funext a
  have hd : h.accPriv .load ≠ privM := hok.dataPriv_ne hp
  have hS : privS ≠ privM := by decide
  rw [readPte, pteBelow, hok.pmpActive_of hp, pmpCheck, pmpCheckAt_below hd hS]
  cases h.pmpCheckAt privS a 4 .load <;> rfl

end Ok

/-! ## The walk without the buffer -/

/-- The outcome of a walk for an access, from scratch. -/
def translateFresh (h : Hart δ) (va : Word) (acc : Access) : Except Exc Word :=
  if h.accPriv acc = privM then .ok va
  else match walk h.readPte h.satp va with
    | .error f => .error (f.exc acc)
    | .ok leaf =>
      if h.leafPermits leaf.pte acc (h.accPriv acc) = false then .error (pageFaultFor acc)
      else if leaf.pte &&& ptePpnPastBus ≠ 0 then .error (accessFaultFor acc)
      else .ok (leaf.base ||| pageOffset va)

/-- With nothing cached, translation is the walk. -/
theorem translate_flushTlb (va : Word) (acc : Access) :
    (h.mmuFlushTlb.translate va acc).1 = h.translateFresh va acc := by
  rw [translate, translateFresh]
  have hacc : h.mmuFlushTlb.accPriv acc = h.accPriv acc := rfl
  have hwalk : walk h.mmuFlushTlb.readPte h.mmuFlushTlb.satp va = walk h.readPte h.satp va := rfl
  have hper (pte : Word) : h.mmuFlushTlb.leafPermits pte = h.leafPermits pte := rfl
  simp only [hacc, hwalk, hper]
  split_ifs with hM hhit
  · rfl
  · exact absurd hhit.1 Bool.false_ne_true
  · cases walk h.readPte h.satp va with
    | error f => rfl
    | ok leaf =>
      dsimp only
      split_ifs <;> rfl

/-- What a translation does to the hart: nothing, or the fill at the end of a successful walk. -/
theorem translate_cases (h : Hart δ) (va : Word) (acc : Access) :
    (h.translate va acc).2 = h ∨
      ∃ leaf, h.accPriv acc ≠ privM ∧ walk h.readPte h.satp va = .ok leaf ∧ leaf.pte &&& ptePpnPastBus = 0 ∧
        (h.translate va acc).2 = h.fillTlb va leaf := by
  rw [translate]
  dsimp only
  split_ifs with hM hhit
  · exact .inl rfl
  · exact .inl rfl
  split
  · exact .inl rfl
  next leaf hw =>
    split_ifs with hper hbus
    · exact .inl rfl
    · exact .inl rfl
    · exact .inr ⟨leaf, hM, hw, not_not.mp hbus, rfl⟩

end Hart

/-! ## Coherence -/

/-- The walk for an address ends at a leaf that a translation may be made from; the region of a megapage is marked. -/
structure Leads (rd : Word → Option Word) (c : Space) (va : Word) (leaf : Leaf) : Prop where
  ends : walk rd c.satp va = .ok leaf
  onBus : leaf.pte &&& ptePpnPastBus = 0
  mega : leaf.mega = true → c.mega (va >>> 22) = true

/-- The page of an address: given by a leaf that is good for the purpose, or its own without translation. -/
def Located (rd : Word → Option Word) (c : Space) (va page : Word) (good : Word → Prop) : Prop :=
  if c.paging = true then ∃ leaf, Leads rd c va leaf ∧ leaf.base = page ∧ good leaf.pte else page = pageOf va

/-- A leaf every load of the privilege with table `t` may use, and every store if `write` is set. -/
def DataLeaf (t : Nat) (write : Prop) (pte : Word) : Prop :=
  (pte &&& pteU ≠ 0 ↔ t = 0) ∧ pte &&& (pteR ||| pteA) = pteR ||| pteA ∧
    (write → pte &&& (pteW ||| pteD) = pteW ||| pteD)

/-- A leaf every fetch of the privilege with table `t` may use. -/
def FetchLeaf (t : Nat) (pte : Word) : Prop :=
  (pte &&& pteU ≠ 0 ↔ t = 0) ∧ pte &&& (pteX ||| pteA) = pteX ||| pteA

/-- What an entry of the data table `t` says about an address: where its page is, and that any aligned load, and any
aligned store if the entry says so, is a plain host access there. -/
structure DataPage (rd : Word → Option Word) (c : Space) (t : Nat) (va : Word) (e : DtlbEntry) (page : Word)
    (r : Region) : Prop where
  located : Located rd c va page (DataLeaf t (e.write = va >>> 12))
  pmp : (c.rights page).read = true
  pmpW : e.write = va >>> 12 → (c.rights page).write = true
  region : c.find page = some r
  backs : BacksPage r page
  widths : r.widths &&& wAny = wAny
  perm : r.perm &&& permR ≠ 0
  ram : e.write = va >>> 12 → r.kind = .ram ∧ r.perm &&& permW ≠ 0
  addend : e.addend = r.hostAt (page - r.base) - (pageOf va).setWidth 64

/-- What an entry of the fetch table `t` says about an address. -/
structure FetchPage (rd : Word → Option Word) (c : Space) (t : Nat) (va : Word) (e : DtlbEntry) (page : Word)
    (r : Region) : Prop where
  located : Located rd c va page (FetchLeaf t)
  pmp : (c.rights page).exec = true
  region : c.find page = some r
  backs : BacksPage r page
  widths : r.widths &&& w16 ≠ 0
  perm : r.perm &&& permX ≠ 0
  addend : e.addend.setWidth 32 = page - pageOf va

/-- An entry of the buffer agrees with the walk. -/
def TlbGood (rd : Word → Option Word) (D : Stale) (c : Space) (va : Word) (e : TlbEntry) : Prop :=
  ¬ D.Excuses c va → c.paging = true → ∃ leaf, Leads rd c va leaf ∧ e.ppn = leaf.base ∧ e.pte = leaf.pte.setWidth 8

def DataGood (rd : Word → Option Word) (D : Stale) (c : Space) (t : Nat) (va : Word) (e : DtlbEntry) : Prop :=
  e.read = va >>> 12 ∧ (¬ D.Excuses c va → ∃ page r, DataPage rd c t va e page r)

def FetchGood (rd : Word → Option Word) (D : Stale) (c : Space) (t : Nat) (va : Word) (e : DtlbEntry) : Prop :=
  ¬ D.Excuses c va → ∃ page r, FetchPage rd c t va e page r

/-- An entry of the buffer answers an address. -/
def TlbEntry.Hits (e : TlbEntry) (va : Word) : Prop :=
  e.valid = true ∧ e.vpn = va >>> 12

/-- An entry of a data table answers an address, for loads or for stores. -/
def DtlbEntry.Hits (e : DtlbEntry) (va : Word) : Prop :=
  e.read = va >>> 12 ∨ e.write = va >>> 12

/-- An entry of a fetch table answers an address; its other tag remembers a refusal. -/
def DtlbEntry.Fetches (e : DtlbEntry) (va : Word) : Prop :=
  e.read = va >>> 12

/-- Every cached translation `D` does not excuse agrees with the walk that reads page table words by `rd`. -/
structure Coh (rd : Word → Option Word) (D : Stale) (h : Hart δ) : Prop where
  tlb : Slots.All (fun va : Word => tlbSlot (va >>> 12)) TlbEntry.Hits (TlbGood rd D h.space) h.tlb
  data : ∀ t, Slots.All (fun va : Word => dtlbSlot (va >>> 12)) DtlbEntry.Hits (DataGood rd D h.space t) (h.dtlb t)
  fetch : ∀ t, Slots.All (fun va : Word => dtlbSlot (va >>> 12)) DtlbEntry.Fetches (FetchGood rd D h.space t) (h.itlb t)

/-- Some cache answers an address. -/
def Hart.Cached (h : Hart δ) (va : Word) : Prop :=
  (h.tlb (tlbSlot (va >>> 12))).Hits va ∨
    ∃ t, (h.dtlb t (dtlbSlot (va >>> 12))).Hits va ∨ (h.itlb t (dtlbSlot (va >>> 12))).Fetches va

variable {D D' : Stale} {leaf : Leaf} {t : Nat} {e : DtlbEntry} {r : Region}

/-! ### Another reader, another set -/

/-- The walk for an address ends at a megapage. -/
def walkMega (rd : Word → Option Word) (satp va : Word) : Bool :=
  match walk rd satp va with
  | .ok leaf => leaf.mega
  | .error _ => false

/-- The set `D'` has a mark for every cached translation that the reader `rd'` walks differently, and still excuses
what `D` excused. -/
structure Marked (rd rd' : Word → Option Word) (D D' : Stale) (h : Hart δ) : Prop where
  excuses : ∀ va, h.Cached va → D.Excuses h.space va → D'.Excuses h.space va
  marks : ∀ va, h.Cached va → h.paging = true → walk rd' h.satp va ≠ walk rd h.satp va →
    (va >>> 12, walkMega rd h.satp va) ∈ D'

theorem Leads.reread (hm : Marked rd rd' D D' h) (hva : h.Cached va) (hp : h.paging = true)
    (hl : Leads rd h.space va leaf) (he : ¬ D'.Excuses h.space va) : Leads rd' h.space va leaf := by
  have hw : walk rd' h.satp va = walk rd h.satp va := by
    by_contra hne
    have hmark := hm.marks va hva hp hne
    have hends : walk rd h.satp va = .ok leaf := hl.ends
    rw [walkMega, hends] at hmark
    exact he (.of_mark hmark hl.mega)
  exact ⟨hw.trans hl.ends, hl.onBus, hl.mega⟩

theorem Located.reread {good : Word → Prop} (hm : Marked rd rd' D D' h) (hva : h.Cached va)
    (hl : Located rd h.space va page good) (he : ¬ D'.Excuses h.space va) :
    Located rd' h.space va page good := by
  rw [Located] at hl ⊢
  split_ifs at hl ⊢ with hp
  · obtain ⟨leaf, hleads, hrest⟩ := hl
    exact ⟨leaf, hleads.reread hm hva hp he, hrest⟩
  · exact hl

/-- The caches stay coherent when the page table words change, if the translations concerned are marked. -/
theorem Coh.restale (hc : Coh rd D h) (hm : Marked rd rd' D D' h) : Coh rd' D' h where
  tlb := hc.tlb.mono fun va hit hg he hp => by
    obtain ⟨leaf, hleads, hrest⟩ := hg (fun h => he (hm.excuses va (.inl hit) h)) hp
    exact ⟨leaf, hleads.reread hm (.inl hit) hp he, hrest⟩
  data t := (hc.data t).mono fun va hit hg => by
    have hva : h.Cached va := .inr ⟨t, .inl hit⟩
    refine ⟨hg.1, fun he => ?_⟩
    obtain ⟨page, r, hpage⟩ := hg.2 fun h => he (hm.excuses va hva h)
    exact ⟨page, r, { hpage with located := hpage.located.reread hm hva he }⟩
  fetch t := (hc.fetch t).mono fun va hit hg he => by
    have hva : h.Cached va := .inr ⟨t, .inr hit⟩
    obtain ⟨page, r, hpage⟩ := hg fun h => he (hm.excuses va hva h)
    exact ⟨page, r, { hpage with located := hpage.located.reread hm hva he }⟩

/-! ### Flushes -/

theorem TlbEntry.not_hits_invalid (e : TlbEntry) (va : Word) : ¬ TlbEntry.Hits { e with valid := false } va :=
  fun hh => Bool.false_ne_true hh.1

theorem DtlbEntry.not_hits_none (va : Word) : ¬ DtlbEntry.none.Hits va := by
  rintro (hr | hw)
  · exact vpn_ne_none va hr.symm
  · exact vpn_ne_none va hw.symm

theorem DtlbEntry.not_fetches_none (va : Word) : ¬ DtlbEntry.none.Fetches va :=
  fun hr => vpn_ne_none va hr.symm

/-- With nothing cached there is nothing to be wrong. -/
theorem Coh.flushTlb : Coh rd D h.mmuFlushTlb where
  tlb := .flushed fun i => TlbEntry.not_hits_invalid (h.tlb i)
  data _ := .flushed fun _ => DtlbEntry.not_hits_none
  fetch _ := .flushed fun _ => DtlbEntry.not_fetches_none

theorem Coh.flush : Coh rd D h.mmuFlush where
  tlb := .flushed fun i => TlbEntry.not_hits_invalid (h.tlb i)
  data _ := .flushed fun _ => DtlbEntry.not_hits_none
  fetch _ := .flushed fun _ => DtlbEntry.not_fetches_none

/-- The translations a fence that names an address leaves stale: it covers the page, and everything that was
translated through the megapage the address lies in. -/
def Stale.fence (D : Stale) (va : Word) : Stale :=
  {x ∈ D | ¬ (x.1 = va >>> 12 ∨ x.2 = true ∧ x.1 >>> 10 = va >>> 22)}

theorem region_eq (va : Word) : va >>> 22 = (va >>> 12) >>> 10 := by
  rw [← BitVec.shiftRight_add]

/-- Outside the fenced page, and in a region that is not marked, a fence takes no excuse away. -/
theorem Stale.excuses_fence (hr : c.mega (va >>> 22) = false) (hne : va' >>> 12 ≠ va >>> 12)
    (he : D.Excuses c va') : (D.fence va).Excuses c va' := by
  obtain he | ⟨he, hmark⟩ := he
  · refine .inl ⟨he, ?_⟩
    rintro (heq | ⟨hbad, -⟩)
    · exact hne heq
    · cases hbad
  · refine .inr ⟨⟨he, ?_⟩, hmark⟩
    rintro (heq | ⟨-, hreg⟩)
    · exact hne heq
    · have hsame : va' >>> 22 = va >>> 22 := (region_eq va').trans hreg
      rw [hsame, hr] at hmark
      cases hmark

theorem DtlbEntry.drop_hits {e : DtlbEntry} (hh : (e.drop (va >>> 12)).Hits va') :
    va' >>> 12 ≠ va >>> 12 ∧ e.drop (va >>> 12) = e := by
  rw [DtlbEntry.drop] at hh ⊢
  split_ifs at hh ⊢ with hd
  · obtain hr | hw := hh
    · exact absurd hr.symm (vpn_ne_none va')
    · exact absurd hw.symm (vpn_ne_none va')
  · refine ⟨fun heq => hd ?_, rfl⟩
    rw [← heq]
    exact hh

/-- A page flush takes the page out of the buffer and leaves the other entries alone. -/
theorem Hart.flushPage_tlb (hr : h.megaRegions (va >>> 22) = false)
    (hit : ((h.mmuFlushPage va).tlb (tlbSlot (va' >>> 12))).Hits va') :
    va' >>> 12 ≠ va >>> 12 ∧ (h.mmuFlushPage va).tlb (tlbSlot (va' >>> 12)) = h.tlb (tlbSlot (va' >>> 12)) := by
  rw [mmuFlushPage, hr] at hit ⊢
  simp only [Bool.false_eq_true, if_false, dtlbFlushPage] at hit ⊢
  split_ifs at hit ⊢ with hv
  · by_cases hs : tlbSlot (va' >>> 12) = tlbSlot (va >>> 12)
    · rw [hs] at hit
      simp only [Function.update_self] at hit
      exact absurd hit (TlbEntry.not_hits_invalid _ _)
    · exact ⟨fun heq => hs (by rw [heq]), Function.update_of_ne hs ..⟩
  · refine ⟨fun heq => hv ?_, rfl⟩
    rw [TlbEntry.Hits, heq] at hit
    exact hit

/-- The same of a data or fetch table. -/
theorem dropSlot_hits {tbl : Word → DtlbEntry}
    (hit : (Function.update tbl (dtlbSlot (va >>> 12)) ((tbl (dtlbSlot (va >>> 12))).drop (va >>> 12))
      (dtlbSlot (va' >>> 12))).Hits va') :
    va' >>> 12 ≠ va >>> 12 ∧
      Function.update tbl (dtlbSlot (va >>> 12)) ((tbl (dtlbSlot (va >>> 12))).drop (va >>> 12))
        (dtlbSlot (va' >>> 12)) = tbl (dtlbSlot (va' >>> 12)) := by
  by_cases hs : dtlbSlot (va' >>> 12) = dtlbSlot (va >>> 12)
  · rw [hs, Function.update_self] at hit ⊢
    exact DtlbEntry.drop_hits hit
  · exact ⟨fun heq => hs (by rw [heq]), Function.update_of_ne hs ..⟩

theorem Hart.mmuFlushPage_eq (hr : h.megaRegions (va >>> 22) = false) :
    h.mmuFlushPage va =
      { h with
        tlb := (h.mmuFlushPage va).tlb, dtlb := (h.dtlbFlushPage va).dtlb, itlb := (h.dtlbFlushPage va).itlb } := by
  rw [mmuFlushPage, hr]
  simp only [Bool.false_eq_true, if_false]
  split <;> rfl

/-- SFENCE.VMA with an address takes out every entry whose excuse it takes away. -/
theorem Coh.flushPage (hc : Coh rd D h) (va : Word) : Coh rd (D.fence va) (h.mmuFlushPage va) := by
  by_cases hr : h.megaRegions (va >>> 22) = true
  · rw [Hart.mmuFlushPage, if_pos hr]
    exact Coh.flush
  rw [Bool.not_eq_true] at hr
  have hsame := Hart.mmuFlushPage_eq hr
  have hspace : (h.mmuFlushPage va).space = h.space := by
    rw [hsame]
    rfl
  refine ⟨?_, ?_, ?_⟩ <;> rw [hspace]
  · intro va' hit
    obtain ⟨hne, heq⟩ := Hart.flushPage_tlb hr hit
    intro he hp
    rw [heq] at hit ⊢
    exact hc.tlb va' hit (fun h => he (Stale.excuses_fence hr hne h)) hp
  · intro t
    rw [hsame]
    intro va' hit
    obtain ⟨hne, heq⟩ := dropSlot_hits hit
    have hold : (h.dtlb t (dtlbSlot (va' >>> 12))).Hits va' := heq ▸ hit
    have hgood := hc.data t va' hold
    show DataGood rd (D.fence va) h.space t va' _
    rw [show (h.dtlbFlushPage va).dtlb t (dtlbSlot (va' >>> 12)) = h.dtlb t (dtlbSlot (va' >>> 12)) from heq]
    exact ⟨hgood.1, fun he => hgood.2 fun h => he (Stale.excuses_fence hr hne h)⟩
  · intro t
    rw [hsame]
    intro va' hit
    obtain ⟨hne, heq⟩ := dropSlot_hits (.inl hit)
    have hold : (h.itlb t (dtlbSlot (va' >>> 12))).Fetches va' := heq ▸ hit
    show FetchGood rd (D.fence va) h.space t va' _
    rw [show (h.dtlbFlushPage va).itlb t (dtlbSlot (va' >>> 12)) = h.itlb t (dtlbSlot (va' >>> 12)) from heq]
    exact fun he => hc.fetch t va' hold fun h => he (Stale.excuses_fence hr hne h)

end Emu.Rv
