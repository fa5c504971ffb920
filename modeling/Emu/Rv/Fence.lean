-- SUMMARY: Which cached translations come from a megapage, and that a fence for an address takes them all out.
import Emu.Rv.Stable
import Emu.Rv.Sv32
import Emu.Rv.Verdicts

/-! # Fences and megapages

A megapage is cached 4 KiB at a time, and nothing in an entry says where it came from. The origins are recorded here
beside the hart, entry by entry, as the tables are filled; the hart itself keeps only a bit for each 4 MiB region. -/

namespace Emu.Rv

variable {δ : Type} {h h' : Hart δ} {va va' pa : Word} {e : DtlbEntry} {t : Nat} {D : Stale}

/-- For each entry of the tables, whether it was made from a megapage. -/
structure Origins where
  tlb : Word → Bool
  dtlb : Nat → Word → Bool
  itlb : Nat → Word → Bool

/-- The origins with one entry of a data or fetch table replaced. -/
def putOrigin (tables : Nat → Word → Bool) (t : Nat) (slot : Word) (mega : Bool) : Nat → Word → Bool :=
  Function.update tables t (Function.update (tables t) slot mega)

/-- Both harts have the same translations cached. -/
structure Hart.SameTables (h h' : Hart δ) : Prop where
  tlb : h'.tlb = h.tlb
  dtlb : h'.dtlb = h.dtlb
  itlb : h'.itlb = h.itlb
  megaRegions : h'.megaRegions = h.megaRegions

/-- A hart with the origins of what it has cached: everything that changes the tables, and anything that does not. -/
inductive Traced : Hart δ → Origins → Prop where
  | reset (h : Hart δ) (bus : Bus δ) (pc : Word) (o : Origins) : Traced (h.reset bus pc) o
  /-- The end of a successful walk. -/
  | fillTlb {h : Hart δ} {o : Origins} {va : Word} {leaf : Leaf} (ht : Traced h o)
      (hw : walk h.readPte h.satp va = .ok leaf) :
      Traced (h.fillTlb va leaf) { o with tlb := Function.update o.tlb (tlbSlot (va >>> 12)) leaf.mega }
  /-- An entry of a data table is made from the buffer's, where translation is on. -/
  | putData {h : Hart δ} {o : Origins} {va : Word} {e : DtlbEntry} (t : Nat) (ht : Traced h o)
      (hhit : h.paging = true → (h.tlb (tlbSlot (va >>> 12))).Hits va) (hr : e.read = va >>> 12)
      (hw : e.write = va >>> 12 ∨ e.write = dtlbNone) :
      Traced { h with dtlb := putEntry h.dtlb t (dtlbSlot (va >>> 12)) e }
        { o with dtlb := putOrigin o.dtlb t (dtlbSlot (va >>> 12)) (h.paging && o.tlb (tlbSlot (va >>> 12))) }
  /-- And so is one of a fetch table. -/
  | putFetch {h : Hart δ} {o : Origins} {va : Word} {e : DtlbEntry} (t : Nat) (ht : Traced h o)
      (hhit : h.paging = true → (h.tlb (tlbSlot (va >>> 12))).Hits va) (hr : e.read = va >>> 12) :
      Traced { h with itlb := putEntry h.itlb t (dtlbSlot (va >>> 12)) e }
        { o with itlb := putOrigin o.itlb t (dtlbSlot (va >>> 12)) (h.paging && o.tlb (tlbSlot (va >>> 12))) }
  /-- A fetch table remembers that a page is refused. -/
  | refuse {h : Hart δ} {o : Origins} {va : Word} {e : DtlbEntry} (t : Nat) (ht : Traced h o)
      (hr : e.read = dtlbNone) : Traced { h with itlb := putEntry h.itlb t (dtlbSlot (va >>> 12)) e } o
  | dtlbFlush {h : Hart δ} {o : Origins} (ht : Traced h o) : Traced h.dtlbFlush o
  | flushTlb {h : Hart δ} {o : Origins} (ht : Traced h o) : Traced h.mmuFlushTlb o
  | flush {h : Hart δ} {o : Origins} (ht : Traced h o) : Traced h.mmuFlush o
  | flushPage {h : Hart δ} {o : Origins} (va : Word) (ht : Traced h o) : Traced (h.mmuFlushPage va) o
  | other {h h' : Hart δ} {o : Origins} (ht : Traced h o) (hs : h.SameTables h') : Traced h' o

/-- A cached translation answers an address, and was made from a megapage or not. -/
def Hart.Serves (h : Hart δ) (o : Origins) (va : Word) (mega : Bool) : Prop :=
  ((h.tlb (tlbSlot (va >>> 12))).Hits va ∧ o.tlb (tlbSlot (va >>> 12)) = mega) ∨
    (∃ t, (h.dtlb t (dtlbSlot (va >>> 12))).Hits va ∧ o.dtlb t (dtlbSlot (va >>> 12)) = mega) ∨
    ∃ t, (h.itlb t (dtlbSlot (va >>> 12))).Fetches va ∧ o.itlb t (dtlbSlot (va >>> 12)) = mega

/-! ## Every run has origins -/

theorem Hart.dtlbFill_cases (h : Hart δ) (va pa : Word) :
    h.dtlbFill va pa = h ∨
      ∃ e : DtlbEntry, (h.paging = true → (h.tlb (tlbSlot (va >>> 12))).Hits va) ∧ e.read = va >>> 12 ∧
        (e.write = va >>> 12 ∨ e.write = dtlbNone) ∧
        h.dtlbFill va pa = { h with dtlb := putEntry h.dtlb (dtlbTable h.dataPriv) (dtlbSlot (va >>> 12)) e } := by
  rw [dtlbFill]
  dsimp only
  split
  · exact .inl rfl
  split
  · exact .inl rfl
  split
  · exact .inl rfl
  next wr hrights =>
    split
    · exact .inl rfl
    split
    · exact .inl rfl
    split
    · exact .inl rfl
    refine .inr ⟨_, fun hp => ?_, rfl, by dsimp only; split <;> simp, rfl⟩
    rw [if_pos hp] at hrights
    exact (dtlbRights_some hrights).1

theorem Hart.itlbFill_cases (h : Hart δ) (va pa : Word) :
    h.itlbFill va pa = h ∨
      ∃ e : DtlbEntry, ((h.paging = true → (h.tlb (tlbSlot (va >>> 12))).Hits va) ∧ e.read = va >>> 12 ∨
          e.read = dtlbNone) ∧
        h.itlbFill va pa = { h with itlb := putEntry h.itlb (dtlbTable h.priv) (dtlbSlot (va >>> 12)) e } := by
  rw [itlbFill]
  dsimp only
  split
  · exact .inl rfl
  split
  · exact .inl rfl
  split
  · exact .inr ⟨_, .inr rfl, rfl⟩
  next hrights =>
    split
    · exact .inr ⟨_, .inr rfl, rfl⟩
    split
    · exact .inr ⟨_, .inr rfl, rfl⟩
    split
    · exact .inr ⟨_, .inr rfl, rfl⟩
    push Not at hrights
    exact .inr ⟨_, .inl ⟨fun hp => (itlbRights_true (by simpa using hrights hp)).1, rfl⟩, rfl⟩

/-- A hart whose cached translations have origins. -/
def HasOrigins (h : Hart δ) : Prop := ∃ o, Traced h o

theorem HasOrigins.other (ho : HasOrigins h) (hs : h.SameTables h') : HasOrigins h' :=
  ho.imp fun _ ht => ht.other hs

theorem HasOrigins.translate (ho : HasOrigins h) (va : Word) (acc : Access) : HasOrigins (h.translate va acc).2 := by
  obtain ⟨o, ht⟩ := ho
  obtain heq | ⟨leaf, -, hw, -, heq⟩ := h.translate_cases va acc
  · rw [heq]
    exact ⟨o, ht⟩
  · rw [heq]
    exact ⟨_, ht.fillTlb hw⟩

theorem HasOrigins.dtlbFill (ho : HasOrigins h) (va pa : Word) : HasOrigins (h.dtlbFill va pa) := by
  obtain ⟨o, ht⟩ := ho
  obtain heq | ⟨e, hhit, hr, hw, heq⟩ := h.dtlbFill_cases va pa
  · rw [heq]
    exact ⟨o, ht⟩
  · rw [heq]
    exact ⟨_, ht.putData _ hhit hr hw⟩

theorem HasOrigins.itlbFill (ho : HasOrigins h) (va pa : Word) : HasOrigins (h.itlbFill va pa) := by
  obtain ⟨o, ht⟩ := ho
  obtain heq | ⟨e, ⟨hhit, hr⟩ | hr, heq⟩ := h.itlbFill_cases va pa
  · rw [heq]
    exact ⟨o, ht⟩
  · rw [heq]
    exact ⟨_, ht.putFetch _ hhit hr⟩
  · rw [heq]
    exact ⟨o, ht.refuse _ hr⟩

theorem stable_hasOrigins : Stable (HasOrigins : Hart δ → Prop) where
  translate _ va acc ho := ho.translate va acc
  dtlbFill _ va pa ho := ho.dtlbFill va pa
  itlbFill _ va pa ho := ho.itlbFill va pa
  bus _ _ _ _ ho := ho.other ⟨rfl, rfl, rfl, rfl⟩
  unreserve _ ho := ho.other ⟨rfl, rfl, rfl, rfl⟩
  split _ _ _ _ ho := ho.other ⟨rfl, rfl, rfl, rfl⟩
  regs _ _ ho := ho.other ⟨rfl, rfl, rfl, rfl⟩

theorem HasOrigins.csrWrite {c : Hart.Csr} {val : Word} (ho : HasOrigins h) (hw : h.csrWrite c val = some h') :
    HasOrigins h' := by
  obtain ⟨o, ht⟩ := ho
  unfold Hart.csrWrite at hw
  split at hw
  · cases hw
  cases c with
  | mstatus | sstatus =>
    obtain rfl := Option.some.inj hw
    exact ⟨o, ht.other ⟨rfl, rfl, rfl, rfl⟩⟩
  | pmpcfg i =>
    obtain rfl := Option.some.inj hw
    exact ⟨o, ht.dtlbFlush.other ⟨rfl, rfl, rfl, rfl⟩⟩
  | satp =>
    dsimp only at hw
    split_ifs at hw
    obtain rfl := Option.some.inj hw
    exact ⟨o, ht.flushTlb.other ⟨rfl, rfl, rfl, rfl⟩⟩
  | pmpaddr i =>
    dsimp only at hw
    split_ifs at hw <;> obtain rfl := Option.some.inj hw
    · exact ⟨o, ht⟩
    · exact ⟨o, ht.dtlbFlush.other ⟨rfl, rfl, rfl, rfl⟩⟩

theorem HasOrigins.trap (ho : HasOrigins h) (cause tval : Word) : HasOrigins (h.trap cause tval) := by
  have hvalue : HasOrigins (h.trapValue cause tval).2 := by
    have ho' : HasOrigins { h with splitValid := false } := ho.other ⟨rfl, rfl, rfl, rfl⟩
    rw [Hart.trapValue]
    split
    · rw [Hart.illegalTval_state]
      exact stable_hasOrigins.translateActive.state ho'
    · exact ho'
  refine hvalue.other ⟨?_, ?_, ?_, ?_⟩
  all_goals
    rw [Hart.trap, Hart.enterTrap]
    split <;> rfl

theorem HasOrigins.ctl {c : CtlOp δ} (ho : HasOrigins h) (hr : c.run h = some h') : HasOrigins h' := by
  cases c with
  | fence =>
    rw [CtlOp.run] at hr
    split_ifs at hr
    obtain rfl := Option.some.inj hr
    exact ho.imp fun _ ht => ht.flush
  | fencePage va =>
    rw [CtlOp.run] at hr
    split_ifs at hr
    obtain rfl := Option.some.inj hr
    exact ho.imp fun _ ht => ht.flushPage va
  | csr c val => exact ho.csrWrite hr
  | trap cause tval =>
    obtain rfl := Option.some.inj hr
    exact ho.trap cause tval
  | mret | sret =>
    rw [CtlOp.run] at hr
    split_ifs at hr
    obtain rfl := Option.some.inj hr
    exact ho.other ⟨rfl, rfl, rfl, rfl⟩
  | plain p | dirtyFp | trigger active check | outside mem dev =>
    obtain rfl := Option.some.inj hr
    exact ho.other ⟨rfl, rfl, rfl, rfl⟩

theorem Run.hasOrigins {seen : Hart δ → Word → Option Word} (hr : Run seen h D) : HasOrigins h := by
  induction hr with
  | reset hb hl => exact ⟨⟨fun _ => false, fun _ _ => false, fun _ _ => false⟩, .reset _ _ _ _⟩
  | @step h h' D o hr ho ih =>
    cases o with
    | mem m =>
      rw [Op.run] at ho
      split_ifs at ho
      obtain rfl := Option.some.inj ho
      exact (stable_hasOrigins.mem m fun _ _ _ ho => ho.other ⟨rfl, rfl, rfl, rfl⟩).state ih
    | ctl c => exact ih.ctl ho

/-! ## A region knows its megapages -/

/-- A translation made from a megapage lies in a region that is marked. -/
def MegaMarked (h : Hart δ) (o : Origins) : Prop :=
  ∀ va, h.Serves o va true → h.megaRegions (va >>> 22) = true

theorem Hart.not_serves_flushTlb (o : Origins) (va : Word) (mega : Bool) : ¬h.mmuFlushTlb.Serves o va mega := by
  rintro (⟨hit, -⟩ | ⟨t, hit, -⟩ | ⟨t, hit, -⟩)
  · exact TlbEntry.not_hits_invalid _ _ hit
  · exact DtlbEntry.not_hits_none _ hit
  · exact DtlbEntry.not_fetches_none _ hit

/-- Fewer translations, and no mark less. -/
theorem MegaMarked.mono {o : Origins} (hm : MegaMarked h o) (hs : ∀ va, h'.Serves o va true → h.Serves o va true)
    (hmega : h'.megaRegions = h.megaRegions) : MegaMarked h' o := by
  intro va hserve
  rw [hmega]
  exact hm va (hs va hserve)

theorem MegaMarked.fillTlb {o : Origins} {leaf : Leaf} (hm : MegaMarked h o) (va : Word) :
    MegaMarked (h.fillTlb va leaf) { o with tlb := Function.update o.tlb (tlbSlot (va >>> 12)) leaf.mega } := by
  have hgrow (va' : Word) (hmark : h.megaRegions (va' >>> 22) = true) :
      (h.fillTlb va leaf).megaRegions (va' >>> 22) = true := by
    simp only [Hart.fillTlb]
    split_ifs
    · by_cases hv : va' >>> 22 = va >>> 22
      · rw [hv, Function.update_self]
      · rw [Function.update_of_ne hv]
        exact hmark
    · exact hmark
  intro va' hserve
  obtain ⟨hit, horigin⟩ | hserve := hserve
  · simp only [Hart.fillTlb] at hit
    by_cases hs : tlbSlot (va' >>> 12) = tlbSlot (va >>> 12)
    · -- the entry just filled
      rw [hs, Function.update_self] at hit
      simp only [hs, Function.update_self] at horigin
      simp only [Hart.fillTlb, horigin, if_true, region_of_vpn hit.2.symm, Function.update_self]
    · rw [Function.update_of_ne hs] at hit
      simp only [Function.update_of_ne hs] at horigin
      exact hgrow va' (hm va' (.inl ⟨hit, horigin⟩))
  · exact hgrow va' (hm va' (.inr hserve))

theorem update_two {α : Type} (tables : Nat → Word → α) (t t' : Nat) (slot slot' : Word) (e : α) :
    Function.update tables t (Function.update (tables t) slot e) t' slot' =
      if t' = t ∧ slot' = slot then e else tables t' slot' := by
  by_cases ht : t' = t
  · subst ht
    rw [Function.update_self, Function.update_apply]
    simp
  · rw [Function.update_of_ne ht, if_neg fun h => ht h.1]

/-- An entry made from the buffer's has its origin. -/
theorem MegaMarked.of_buffer {o : Origins} (hm : MegaMarked h o)
    (hhit : h.paging = true → (h.tlb (tlbSlot (va >>> 12))).Hits va) (hv : va >>> 12 = va' >>> 12)
    (horigin : (h.paging && o.tlb (tlbSlot (va >>> 12))) = true) : h.megaRegions (va' >>> 22) = true := by
  rw [Bool.and_eq_true] at horigin
  rw [← region_of_vpn hv]
  exact hm va (.inl ⟨hhit horigin.1, horigin.2⟩)

theorem MegaMarked.putData {o : Origins} (hm : MegaMarked h o)
    (hhit : h.paging = true → (h.tlb (tlbSlot (va >>> 12))).Hits va) (hr : e.read = va >>> 12)
    (hw : e.write = va >>> 12 ∨ e.write = dtlbNone) :
    MegaMarked { h with dtlb := putEntry h.dtlb t (dtlbSlot (va >>> 12)) e }
      { o with dtlb := putOrigin o.dtlb t (dtlbSlot (va >>> 12)) (h.paging && o.tlb (tlbSlot (va >>> 12))) } := by
  intro va' hserve
  obtain hserve | ⟨t', hit, horigin⟩ | hserve := hserve
  · exact hm va' (.inl hserve)
  · simp only [putEntry, putOrigin, update_two] at hit horigin
    split_ifs at hit horigin with hs
    · have hv : va >>> 12 = va' >>> 12 := by
        obtain hit | hit := hit
        · exact hr.symm.trans hit
        · obtain hw | hw := hw
          · exact hw.symm.trans hit
          · exact absurd (hit.symm.trans hw) (vpn_ne_none va')
      exact hm.of_buffer hhit hv horigin
    · exact hm va' (.inr (.inl ⟨t', hit, horigin⟩))
  · exact hm va' (.inr (.inr hserve))

theorem MegaMarked.putFetch {o : Origins} (hm : MegaMarked h o)
    (hhit : h.paging = true → (h.tlb (tlbSlot (va >>> 12))).Hits va) (hr : e.read = va >>> 12) :
    MegaMarked { h with itlb := putEntry h.itlb t (dtlbSlot (va >>> 12)) e }
      { o with itlb := putOrigin o.itlb t (dtlbSlot (va >>> 12)) (h.paging && o.tlb (tlbSlot (va >>> 12))) } := by
  intro va' hserve
  obtain hserve | hserve | ⟨t', hit, horigin⟩ := hserve
  · exact hm va' (.inl hserve)
  · exact hm va' (.inr (.inl hserve))
  · simp only [putEntry, putOrigin, update_two] at hit horigin
    split_ifs at hit horigin with hs
    · exact hm.of_buffer hhit (hr.symm.trans hit) horigin
    · exact hm va' (.inr (.inr ⟨t', hit, horigin⟩))

theorem MegaMarked.refuse {o : Origins} (hm : MegaMarked h o) (hr : e.read = dtlbNone) :
    MegaMarked { h with itlb := putEntry h.itlb t (dtlbSlot (va >>> 12)) e } o := by
  refine hm.mono (fun va' hserve => ?_) rfl
  obtain hserve | hserve | ⟨t', hit, horigin⟩ := hserve
  · exact .inl hserve
  · exact .inr (.inl hserve)
  · simp only [putEntry, update_two] at hit
    split_ifs at hit with hs
    · exact absurd (hit.symm.trans hr) (vpn_ne_none va')
    · exact .inr (.inr ⟨t', hit, horigin⟩)

/-- A page flush in a region without megapages takes the page out, and leaves what else it leaves alone. -/
theorem Hart.serves_flushPage {o : Origins} {mega : Bool} (hr : h.megaRegions (va >>> 22) = false)
    (hserve : (h.mmuFlushPage va).Serves o va' mega) : va' >>> 12 ≠ va >>> 12 ∧ h.Serves o va' mega := by
  obtain ⟨hit, horigin⟩ | ⟨t, hit, horigin⟩ | ⟨t, hit, horigin⟩ := hserve
  · obtain ⟨hne, heq⟩ := flushPage_tlb hr hit
    exact ⟨hne, .inl ⟨heq ▸ hit, horigin⟩⟩
  · rw [mmuFlushPage_eq hr] at hit
    obtain ⟨hne, heq⟩ := dropSlot_hits hit
    exact ⟨hne, .inr (.inl ⟨t, heq ▸ hit, horigin⟩)⟩
  · rw [mmuFlushPage_eq hr] at hit
    obtain ⟨hne, heq⟩ := dropSlot_hits (.inl hit)
    exact ⟨hne, .inr (.inr ⟨t, heq ▸ hit, horigin⟩)⟩

theorem Hart.not_serves_flush (o : Origins) (va : Word) (mega : Bool) : ¬h.mmuFlush.Serves o va mega :=
  h.not_serves_flushTlb o va mega

theorem MegaMarked.flushPage {o : Origins} (hm : MegaMarked h o) (va : Word) : MegaMarked (h.mmuFlushPage va) o := by
  by_cases hr : h.megaRegions (va >>> 22) = true
  · rw [Hart.mmuFlushPage, if_pos hr]
    exact fun va' hserve => absurd hserve (h.not_serves_flush o va' true)
  · rw [Bool.not_eq_true] at hr
    refine hm.mono (fun va' hserve => (Hart.serves_flushPage hr hserve).2) ?_
    rw [Hart.mmuFlushPage_eq hr]

theorem Traced.marked {o : Origins} (ht : Traced h o) : MegaMarked h o := by
  induction ht with
  | reset h bus pc o => exact fun va hserve => absurd hserve (Hart.not_serves_flushTlb o va true)
  | fillTlb ht hw ih => exact ih.fillTlb _
  | putData t ht hhit hr hw ih => exact ih.putData hhit hr hw
  | putFetch t ht hhit hr ih => exact ih.putFetch hhit hr
  | refuse t ht hr ih => exact ih.refuse hr
  | dtlbFlush ht ih =>
    refine ih.mono (fun va hserve => ?_) rfl
    obtain hserve | ⟨t, hit, -⟩ | ⟨t, hit, -⟩ := hserve
    · exact .inl hserve
    · exact absurd hit (DtlbEntry.not_hits_none va)
    · exact absurd hit (DtlbEntry.not_fetches_none va)
  | flushTlb ht ih => exact fun va hserve => absurd hserve (Hart.not_serves_flushTlb _ va true)
  | flush ht ih => exact fun va hserve => absurd hserve (Hart.not_serves_flush _ va true)
  | flushPage va ht ih => exact ih.flushPage va
  | other ht hs ih =>
    refine ih.mono (fun va hserve => ?_) hs.megaRegions
    rw [Hart.Serves, hs.tlb, hs.dtlb, hs.itlb] at hserve
    exact hserve

/-- After a fence for an address, nothing answers it, and nothing made from its megapage answers any address. -/
theorem Traced.fenced {o : Origins} (ht : Traced h o) (va : Word) {mega : Bool}
    (hserve : (h.mmuFlushPage va).Serves o va' mega) :
    va' >>> 12 ≠ va >>> 12 ∧ (va' >>> 22 = va >>> 22 → mega = false) := by
  by_cases hr : h.megaRegions (va >>> 22) = true
  · rw [Hart.mmuFlushPage, if_pos hr] at hserve
    exact absurd hserve (h.not_serves_flush o va' mega)
  · rw [Bool.not_eq_true] at hr
    obtain ⟨hne, hserve⟩ := Hart.serves_flushPage hr hserve
    refine ⟨hne, fun hregion => ?_⟩
    cases mega with
    | false => rfl
    | true =>
      have hmark := ht.marked va' hserve
      rw [hregion, hr] at hmark
      cases hmark

/-! ## The root table -/

/-- The root table is on the bus: writes to `satp` drop the bits above it. -/
def SatpOnBus (h : Hart δ) : Prop := h.satp &&& 0x00300000 = 0

theorem stable_satpOnBus : Stable (SatpOnBus : Hart δ → Prop) where
  translate h va acc hs := by
    obtain heq | ⟨leaf, -, -, -, heq⟩ := h.translate_cases va acc <;> rw [heq] <;> exact hs
  dtlbFill h va pa hs := by
    obtain heq | ⟨e, -, -, -, heq⟩ := h.dtlbFill_cases va pa <;> rw [heq] <;> exact hs
  itlbFill h va pa hs := by
    obtain heq | ⟨e, -, heq⟩ := h.itlbFill_cases va pa <;> rw [heq] <;> exact hs
  bus _ _ _ _ hs := hs
  unreserve _ hs := hs
  split _ _ _ _ hs := hs
  regs _ _ hs := hs

theorem SatpOnBus.trap (hs : SatpOnBus h) (cause tval : Word) : SatpOnBus (h.trap cause tval) := by
  have hvalue : SatpOnBus (h.trapValue cause tval).2 := by
    rw [Hart.trapValue]
    split
    · rw [Hart.illegalTval_state]
      exact stable_satpOnBus.translateActive.state hs
    · exact hs
  have hsame : (h.trap cause tval).satp = (h.trapValue cause tval).2.satp := by
    rw [Hart.trap, Hart.enterTrap]
    split <;> rfl
  rw [SatpOnBus, hsame]
  exact hvalue

theorem SatpOnBus.ctl {c : CtlOp δ} (hs : SatpOnBus h) (hr : c.run h = some h') : SatpOnBus h' := by
  cases c with
  | fence | mret | sret =>
    rw [CtlOp.run] at hr
    split_ifs at hr
    obtain rfl := Option.some.inj hr
    exact hs
  | fencePage va =>
    rw [CtlOp.run] at hr
    split_ifs at hr
    obtain rfl := Option.some.inj hr
    rw [SatpOnBus, Hart.mmuFlushPage]
    split
    · exact hs
    · dsimp only
      split <;> exact hs
  | csr c val =>
    cases c with
    | satp =>
      rw [CtlOp.run, Hart.csrWrite] at hr
      split_ifs at hr
      obtain rfl := Option.some.inj hr
      show val &&& _ &&& 0x00300000 = 0
      rw [BitVec.and_assoc]
      exact BitVec.and_zero
    | mstatus | sstatus | pmpcfg i | pmpaddr i =>
      rw [SatpOnBus, (Hart.csrWrite_frame hr).2.1 (by simp)]
      exact hs
  | trap cause tval =>
    obtain rfl := Option.some.inj hr
    exact hs.trap cause tval
  | plain p | dirtyFp | trigger active check | outside mem dev =>
    obtain rfl := Option.some.inj hr
    exact hs

theorem Run.satpOnBus {seen : Hart δ → Word → Option Word} (hr : Run seen h D) : SatpOnBus h := by
  induction hr with
  | reset hb hl => exact BitVec.zero_and
  | @step h h' D o hr ho ih =>
    cases o with
    | mem m =>
      rw [Op.run] at ho
      split_ifs at ho
      obtain rfl := Option.some.inj ho
      exact (stable_satpOnBus.mem m fun _ _ _ hs => hs).state ih
    | ctl c => exact ih.ctl ho

/-! ## Translation and fences -/

/-- With nothing cached, a translation is the specification's; and after a fence for an address no translation of it
is cached, nor one made from a megapage it lies in, whichever page of the megapage it was cached for. The flags and
the root table are as this needs them in every state a hart can reach. -/
theorem sv32_correct (h : Hart δ) :
    (∀ D, Run Hart.pteBelow h D → h.Ok ∧ SatpOnBus h ∧ ∃ o, Traced h o) ∧
    (h.Ok → SatpOnBus h → ∀ va acc, (h.mmuFlushTlb.translate va acc).1 = h.sv32 va acc) ∧
    ∀ o, Traced h o → ∀ va va' mega, (h.mmuFlushPage va).Serves o va' mega →
      va' >>> 12 ≠ va >>> 12 ∧ (va' >>> 22 = va >>> 22 → mega = false) := by
  refine ⟨?_, ?_, ?_⟩
  · intro D hr
    exact ⟨hr.coherent.2, hr.satpOnBus, hr.hasOrigins⟩
  · intro hok hsatp
    exact Hart.translate_eq_sv32 hok hsatp
  · intro o ht va va' mega hserve
    exact ht.fenced va hserve

theorem Run.of_replay {seen : Hart δ → Word → Option Word} (hr : Run seen h D) {os : List (Op δ)}
    (hos : Op.replay h os = some h') : ∃ D', Run seen h' D' := by
  induction os generalizing h D with
  | nil =>
    obtain rfl := Option.some.inj hos
    exact ⟨D, hr⟩
  | cons o os ih =>
    obtain ⟨g, ho, hrest⟩ := Option.bind_eq_some_iff.mp hos
    exact ih (hr.step ho) hrest

/-- Supervisor mode, with two pages of a megapage in the caches. -/
theorem sv32_correct_megaHart :
    (megaHart enterSupervisor).sv32 0x80004ABC .load = .ok 0x80004ABC ∧
      (megaHart enterSupervisor).sv32 0x80400000 .load = .error .loadPageFault ∧
      ∃ o, Traced (megaHart enterSupervisor) o ∧
        ¬((megaHart enterSupervisor).mmuFlushPage 0x80005000).Serves o 0x80004000 true := by
  obtain ⟨hreach, hwalk, hfence⟩ := sv32_correct (megaHart enterSupervisor)
  have hreset : Run Hart.pteBelow ((Hart.zeroed megaBus).reset megaBus 0x80000000) ∅ := .reset megaBus_wf rfl
  have hos : Op.replay _ enterSupervisor = some (megaHart enterSupervisor) := megaHart_eq (by decide +kernel)
  obtain ⟨D, hr⟩ := hreset.of_replay hos
  obtain ⟨hok, hsatp, o, ht⟩ := hreach D hr
  refine ⟨?_, ?_, o, ht, fun hserve => ?_⟩
  · exact (hwalk hok hsatp 0x80004ABC .load).symm.trans (by decide +kernel)
  · exact (hwalk hok hsatp 0x80400000 .load).symm.trans (by decide +kernel)
  · cases (hfence o ht 0x80005000 0x80004000 true hserve).2 (by decide)

end Emu.Rv
