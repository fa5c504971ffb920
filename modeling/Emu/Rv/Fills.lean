-- SUMMARY: Translations and fills keep the caches coherent, and a coherent buffer answers as the walk does.
import Emu.Rv.Coherent

/-! # Fills -/

namespace Emu.Rv

variable {δ : Type} {h h' : Hart δ} {rd : Word → Option Word} {va va' pa page : Word} {acc : Access}
variable {c c' : Space} {D : Stale} {leaf : Leaf} {t : Nat} {e : DtlbEntry} {r : Region}

/-! ## What coherence depends on -/

theorem Hart.space_congr (hsatp : h'.satp = h.satp) (hmega : h'.megaRegions = h.megaRegions)
    (hcfg : h'.pmpcfg = h.pmpcfg) (haddr : h'.pmpaddr = h.pmpaddr) (hbus : h'.bus = h.bus) : h'.space = h.space := by
  have hrights : (fun page => h'.pmpPageRights page privS) = fun page => h.pmpPageRights page privS := by
    funext page
    exact pmpPageRights_congr hcfg haddr page privS
  rw [space, space, hsatp, hmega, hrights, hbus]

theorem Coh.frame (hc : Coh rd D h) (hs : h'.space = h.space) (ht : h'.tlb = h.tlb) (hd : h'.dtlb = h.dtlb)
    (hi : h'.itlb = h.itlb) : Coh rd D h' := by
  refine ⟨?_, ?_, ?_⟩
  · rw [hs, ht]
    exact hc.tlb
  · rw [hs, hd]
    exact hc.data
  · rw [hs, hi]
    exact hc.fetch

/-- More regions are marked for megapages, and nothing else changes. -/
structure Space.Grows (c c' : Space) : Prop where
  satp : c'.satp = c.satp
  rights : c'.rights = c.rights
  find : c'.find = c.find
  mega : ∀ i, c.mega i = true → c'.mega i = true

theorem Space.Grows.paging (hg : c.Grows c') : c'.paging = c.paging := by
  rw [Space.paging, Space.paging, hg.satp]

theorem Stale.Excuses.grow (hg : c.Grows c') (he : D.Excuses c va) : D.Excuses c' va := by
  obtain he | ⟨he, hm⟩ := he
  · exact .inl he
  · exact .inr ⟨he, hg.mega _ hm⟩

theorem Leads.grow (hg : c.Grows c') (hl : Leads rd c va leaf) : Leads rd c' va leaf where
  ends := by
    rw [hg.satp]
    exact hl.ends
  onBus := hl.onBus
  mega hm := hg.mega _ (hl.mega hm)

theorem Located.grow {good : Word → Prop} (hg : c.Grows c') (hl : Located rd c va page good) :
    Located rd c' va page good := by
  rw [Located] at hl ⊢
  rw [hg.paging]
  split_ifs at hl ⊢ with hp
  · obtain ⟨leaf, hleads, hrest⟩ := hl
    exact ⟨leaf, hleads.grow hg, hrest⟩
  · exact hl

theorem DataPage.grow (hg : c.Grows c') (hp : DataPage rd c t va e page r) : DataPage rd c' t va e page r where
  located := hp.located.grow hg
  pmp := by
    rw [hg.rights]
    exact hp.pmp
  pmpW := by
    rw [hg.rights]
    exact hp.pmpW
  region := by
    rw [hg.find]
    exact hp.region
  backs := hp.backs
  widths := hp.widths
  perm := hp.perm
  ram := hp.ram
  addend := hp.addend

theorem FetchPage.grow (hg : c.Grows c') (hp : FetchPage rd c t va e page r) : FetchPage rd c' t va e page r where
  located := hp.located.grow hg
  pmp := by
    rw [hg.rights]
    exact hp.pmp
  region := by
    rw [hg.find]
    exact hp.region
  backs := hp.backs
  widths := hp.widths
  perm := hp.perm
  addend := hp.addend

theorem Coh.grow (hc : Coh rd D h) (hg : h.space.Grows h'.space) (ht : h'.tlb = h.tlb) (hd : h'.dtlb = h.dtlb)
    (hi : h'.itlb = h.itlb) : Coh rd D h' := by
  refine ⟨?_, ?_, ?_⟩
  · rw [ht]
    refine hc.tlb.mono fun va _ hgood he hp => ?_
    rw [hg.paging] at hp
    obtain ⟨leaf, hleads, hrest⟩ := hgood (fun h => he (h.grow hg)) hp
    exact ⟨leaf, hleads.grow hg, hrest⟩
  · intro t
    rw [hd]
    refine (hc.data t).mono fun va _ hgood => ⟨hgood.1, fun he => ?_⟩
    obtain ⟨page, r, hpage⟩ := hgood.2 fun h => he (h.grow hg)
    exact ⟨page, r, hpage.grow hg⟩
  · intro t
    rw [hi]
    refine (hc.fetch t).mono fun va _ hgood he => ?_
    obtain ⟨page, r, hpage⟩ := hgood fun h => he (h.grow hg)
    exact ⟨page, r, hpage.grow hg⟩

/-! ## The buffer -/

/-- The fill at the end of a walk puts in what the walk found. -/
theorem Coh.fillTlb (hc : Coh rd D h) (hw : walk rd h.satp va = .ok leaf) (hb : leaf.pte &&& ptePpnPastBus = 0) :
    Coh rd D (h.fillTlb va leaf) := by
  -- first the mark, then the entry
  let marked : Hart δ := { h with megaRegions := (h.fillTlb va leaf).megaRegions }
  have hgrow : h.space.Grows marked.space := by
    refine ⟨rfl, rfl, rfl, fun i hi => ?_⟩
    show (if leaf.mega then Function.update h.megaRegions (va >>> 22) true else h.megaRegions) i = true
    split_ifs
    · by_cases hv : i = va >>> 22
      · rw [hv, Function.update_self]
      · rw [Function.update_of_ne hv]
        exact hi
    · exact hi
  have hm : Coh rd D marked := hc.grow hgrow rfl rfl rfl
  refine ⟨?_, hm.data, hm.fetch⟩
  refine hm.tlb.update fun va' _ hit _ _ => ⟨leaf, ⟨?_, hb, ?_⟩, rfl, rfl⟩
  · rw [← hw]
    exact walk_of_vpn hit.2.symm rd h.satp
  · intro hmega
    show (if leaf.mega then Function.update h.megaRegions (va >>> 22) true else h.megaRegions) (va' >>> 22) = true
    rw [if_pos hmega, region_of_vpn hit.2.symm, Function.update_self]

theorem Coh.translate (hc : Coh rd D h) (hok : h.Ok) (hrd : h.pteBelow = rd) (va : Word) (acc : Access) :
    Coh rd D (h.translate va acc).2 := by
  obtain heq | ⟨leaf, hp, hw, hb, heq⟩ := h.translate_cases va acc
  · rw [heq]
    exact hc
  · rw [heq]
    rw [hok.readPte_eq hp, hrd] at hw
    exact hc.fillTlb hw hb

theorem lowByte_and (pte : Word) {m : Word} (hm : 0xFF &&& m = m) :
    (pte.setWidth 8).setWidth 32 &&& m = pte &&& m := by
  have hlow : (pte.setWidth 8).setWidth 32 = pte &&& 0xFF := by
    apply BitVec.eq_of_toNat_eq
    rw [BitVec.toNat_and, BitVec.toNat_setWidth, BitVec.toNat_setWidth]
    have hand : pte.toNat &&& BitVec.toNat (0xFF : Word) = pte.toNat % 2 ^ 8 :=
      Nat.and_two_pow_sub_one_eq_mod pte.toNat 8
    rw [hand]
    omega
  rw [hlow, BitVec.and_assoc, hm]

/-- Only the low byte of a leaf says what it permits. -/
theorem Hart.leafPermits_low (pte : Word) (acc : Access) (priv : Priv) :
    h.leafPermits ((pte.setWidth 8).setWidth 32) acc priv = h.leafPermits pte acc priv := by
  have hbit (m : Word) (hm : 0xFF &&& m = m) := lowByte_and pte hm
  simp only [leafPermits, hbit pteU (by decide), hbit pteR (by decide), hbit pteW (by decide),
    hbit pteX (by decide), hbit pteA (by decide), hbit pteD (by decide)]

/-- A buffer that is coherent answers as the walk does. -/
theorem Coh.translate_eq (hc : Coh rd D h) (hok : h.Ok) (hrd : h.pteBelow = rd) (hpg : h.paging = true)
    (hD : ¬ D.Excuses h.space va) : (h.translate va acc).1 = h.translateFresh va acc := by
  rw [Hart.translate, Hart.translateFresh]
  dsimp only
  split_ifs with hM hhit
  · rfl
  · obtain ⟨hvalid, hvpn, hperm⟩ := hhit
    obtain ⟨leaf, hleads, hppn, hpte⟩ := hc.tlb va ⟨hvalid, hvpn⟩ hD hpg
    have hw : walk h.readPte h.satp va = .ok leaf := by
      rw [hok.readPte_eq hM, hrd]
      exact hleads.ends
    rw [hpte, Hart.leafPermits_low] at hperm
    rw [hw]
    simp only [hperm, Bool.true_eq_false, if_false, hleads.onBus, ne_eq, not_true_eq_false]
    rw [hppn]
    rfl
  · cases walk h.readPte h.satp va with
    | error f => rfl
    | ok leaf =>
      dsimp only
      split_ifs <;> rfl

/-! ## The data and fetch tables -/

/-- The physical address a translation gives. -/
def Placed (rd : Word → Option Word) (c : Space) (va pa : Word) : Prop :=
  if c.paging = true then ∃ leaf, walk rd c.satp va = .ok leaf ∧ pa = leaf.base ||| pageOffset va else pa = va

theorem Leads.of_vpn (hv : va >>> 12 = va' >>> 12) (hl : Leads rd c va leaf) : Leads rd c va' leaf where
  ends := by
    rw [← walk_of_vpn hv]
    exact hl.ends
  onBus := hl.onBus
  mega := by
    rw [← region_of_vpn hv]
    exact hl.mega

theorem Located.of_vpn {good : Word → Prop} (hv : va >>> 12 = va' >>> 12) (hl : Located rd c va page good) :
    Located rd c va' page good := by
  rw [Located] at hl ⊢
  split_ifs at hl ⊢ with hp
  · obtain ⟨leaf, hleads, hrest⟩ := hl
    exact ⟨leaf, hleads.of_vpn hv, hrest⟩
  · rw [← pageOf_of_vpn hv]
    exact hl

theorem DataPage.of_vpn (hv : va >>> 12 = va' >>> 12) (hp : DataPage rd c t va e page r) :
    DataPage rd c t va' e page r where
  located := by
    rw [← hv]
    exact hp.located.of_vpn hv
  pmp := hp.pmp
  pmpW := by
    rw [← hv]
    exact hp.pmpW
  region := hp.region
  backs := hp.backs
  widths := hp.widths
  perm := hp.perm
  ram := by
    rw [← hv]
    exact hp.ram
  addend := by
    rw [← pageOf_of_vpn hv]
    exact hp.addend

theorem FetchPage.of_vpn (hv : va >>> 12 = va' >>> 12) (hp : FetchPage rd c t va e page r) :
    FetchPage rd c t va' e page r where
  located := hp.located.of_vpn hv
  pmp := hp.pmp
  region := hp.region
  backs := hp.backs
  widths := hp.widths
  perm := hp.perm
  addend := by
    rw [← pageOf_of_vpn hv]
    exact hp.addend

theorem dtlbTable_eq_zero (priv : Priv) : dtlbTable priv = 0 ↔ priv = privU := by
  rw [dtlbTable]
  split_ifs with hp <;> simp [hp]

/-- What the data table asks of the buffer's entry is a property of the leaf. -/
theorem Hart.dtlbRights_some {priv : Priv} {wr : Bool} (hr : h.dtlbRights va priv = some wr) :
    (h.tlb (tlbSlot (va >>> 12))).Hits va ∧
      ∀ pte : Word, (h.tlb (tlbSlot (va >>> 12))).pte = pte.setWidth 8 →
        DataLeaf (dtlbTable priv) (wr = true) pte := by
  rw [dtlbRights] at hr
  split_ifs at hr with hmiss hu hra
  push Not at hmiss
  refine ⟨⟨by simpa using hmiss.1, hmiss.2⟩, fun pte hpte => ?_⟩
  rw [hpte] at hu hra hr
  rw [lowByte_and pte (by decide)] at hu hra hr
  rw [not_not] at hu hra
  refine ⟨?_, hra, fun hwr => ?_⟩
  · rw [dtlbTable_eq_zero]
    exact decide_eq_decide.mp hu
  · rw [hwr] at hr
    simpa using hr

theorem Hart.itlbRights_true {priv : Priv} (hr : h.itlbRights va priv = true) :
    (h.tlb (tlbSlot (va >>> 12))).Hits va ∧
      ∀ pte : Word, (h.tlb (tlbSlot (va >>> 12))).pte = pte.setWidth 8 → FetchLeaf (dtlbTable priv) pte := by
  rw [itlbRights] at hr
  split_ifs at hr with hmiss hu
  push Not at hmiss
  refine ⟨⟨by simpa using hmiss.1, hmiss.2⟩, fun pte hpte => ?_⟩
  rw [hpte] at hu hr
  rw [lowByte_and pte (by decide)] at hu hr
  rw [not_not] at hu
  refine ⟨?_, by simpa using hr⟩
  rw [dtlbTable_eq_zero]
  exact decide_eq_decide.mp hu

/-- The page of a translated address is the leaf's, for a leaf found in the buffer. -/
theorem Coh.located {good : Word → Prop} (hc : Coh rd D h) (hD : ¬ D.Excuses h.space va)
    (hpl : Placed rd h.space va pa)
    (hgood : h.paging = true → (h.tlb (tlbSlot (va >>> 12))).Hits va ∧
      ∀ pte : Word, (h.tlb (tlbSlot (va >>> 12))).pte = pte.setWidth 8 → good pte) :
    Located rd h.space va (pageOf pa) good := by
  rw [Placed] at hpl
  rw [Located]
  split_ifs at hpl ⊢ with hp
  · obtain ⟨leaf, hw, rfl⟩ := hpl
    obtain ⟨hit, hgood⟩ := hgood hp
    obtain ⟨leaf', hleads, -, hpte⟩ := hc.tlb va hit hD hp
    obtain rfl : leaf' = leaf := by
      have heq := hleads.ends.symm.trans hw
      exact Except.ok.inj heq
    exact ⟨leaf', hleads, (pageOf_or_pageOffset (walk_base hw) va).symm, hgood _ hpte⟩
  · rw [hpl]

theorem Hart.pmpPageRights_below {priv : Priv} (hp : priv ≠ privM) (page : Word) :
    h.pmpPageRights page priv = h.pmpPageRights page privS := by
  have hS : privS ≠ privM := by decide
  rw [pmpPageRights, pmpPageRights, if_neg hp, if_neg hS]

theorem putEntry_self (tables : Nat → Word → DtlbEntry) (t : Nat) (slot : Word) (e : DtlbEntry) :
    putEntry tables t slot e t = Function.update (tables t) slot e := by
  rw [putEntry, Function.update_self]

theorem putEntry_of_ne (tables : Nat → Word → DtlbEntry) {t t' : Nat} (ht : t' ≠ t) (slot : Word) (e : DtlbEntry) :
    putEntry tables t slot e t' = tables t' := by
  rw [putEntry, Function.update_of_ne ht]

/-- Putting an entry that is right for its page into a data table. -/
theorem Coh.putData (hc : Coh rd D h) (hr : e.read = va >>> 12)
    (hw : e.write = va >>> 12 ∨ e.write = dtlbNone)
    (he : ¬ D.Excuses h.space va → ∃ page r, DataPage rd h.space t va e page r) :
    Coh rd D { h with dtlb := putEntry h.dtlb t (dtlbSlot (va >>> 12)) e } := by
  refine ⟨hc.tlb, fun t' => ?_, hc.fetch⟩
  by_cases ht : t' = t
  · subst ht
    show Slots.All _ _ (DataGood rd D h.space t') (putEntry h.dtlb t' _ e t')
    rw [putEntry_self]
    refine (hc.data t').update fun va' _ hit => ?_
    have hv : va >>> 12 = va' >>> 12 := by
      obtain hit | hit := hit
      · exact hr.symm.trans hit
      · obtain hw | hw := hw
        · exact hw.symm.trans hit
        · exact absurd (hit.symm.trans hw) (vpn_ne_none va')
    refine ⟨hr.trans hv, fun hD => ?_⟩
    obtain ⟨page, r, hpage⟩ := he fun h => hD ((Stale.excuses_of_vpn hv).mp h)
    exact ⟨page, r, hpage.of_vpn hv⟩
  · show Slots.All _ _ (DataGood rd D h.space t') (putEntry h.dtlb t _ e t')
    rw [putEntry_of_ne _ ht]
    exact hc.data t'

/-- Putting an entry into a fetch table: right for its page, or a refusal. -/
theorem Coh.putFetch (hc : Coh rd D h) (hr : e.read = va >>> 12 ∨ e.read = dtlbNone)
    (he : e.read = va >>> 12 → ¬ D.Excuses h.space va → ∃ page r, FetchPage rd h.space t va e page r) :
    Coh rd D { h with itlb := putEntry h.itlb t (dtlbSlot (va >>> 12)) e } := by
  refine ⟨hc.tlb, hc.data, fun t' => ?_⟩
  by_cases ht : t' = t
  · subst ht
    show Slots.All _ _ (FetchGood rd D h.space t') (putEntry h.itlb t' _ e t')
    rw [putEntry_self]
    refine (hc.fetch t').update fun va' _ hit hD => ?_
    obtain hr | hr := hr
    · have hv : va >>> 12 = va' >>> 12 := hr.symm.trans hit
      obtain ⟨page, r, hpage⟩ := he hr fun h => hD ((Stale.excuses_of_vpn hv).mp h)
      exact ⟨page, r, hpage.of_vpn hv⟩
    · exact absurd (hit.symm.trans hr) (vpn_ne_none va')
  · show Slots.All _ _ (FetchGood rd D h.space t') (putEntry h.itlb t _ e t')
    rw [putEntry_of_ne _ ht]
    exact hc.fetch t'

/-- The data table is filled with what is true of the whole page. -/
theorem Coh.dtlbFill (hc : Coh rd D h)
    (hpl : ¬ D.Excuses h.space va → h.dataPriv ≠ privM → Placed rd h.space va pa) :
    Coh rd D (h.dtlbFill va pa) := by
  rw [Hart.dtlbFill]
  dsimp only
  split
  · exact hc
  next hM =>
    split
    · exact hc
    split
    · exact hc
    next wr hrights =>
      split
      · exact hc
      next hread =>
        split
        · exact hc
        next r hfind =>
          split
          · exact hc
          next hbad =>
            push Not at hbad
            obtain ⟨hbacks, hwidths, hperm⟩ := hbad
            rw [Hart.pmpPageRights_below hM] at hread ⊢
            refine hc.putData rfl (by dsimp only; split <;> simp) fun hD => ⟨pageOf pa, r, ?_⟩
            -- the write tag stands for all that a store needs
            have hwrite : (if (wr && (h.pmpPageRights (pageOf pa) privS).write && decide (r.kind = .ram) &&
                decide (r.perm &&& permW ≠ 0)) = true then va >>> 12 else dtlbNone) = va >>> 12 →
                (wr = true ∧ (h.pmpPageRights (pageOf pa) privS).write = true) ∧ r.kind = .ram ∧
                  r.perm &&& permW ≠ 0 := by
              intro hw
              split at hw
              next hall => simpa [and_assoc] using hall
              · exact absurd hw.symm (vpn_ne_none va)
            have hlocated : Located rd h.space va (pageOf pa) (DataLeaf (dtlbTable h.dataPriv) (wr = true)) := by
              refine hc.located hD (hpl hD hM) fun hp => ?_
              rw [if_pos hp] at hrights
              exact Hart.dtlbRights_some hrights
            refine ⟨?_, (Bool.not_eq_false _).mp hread, fun hw => (hwrite hw).1.2, hfind, hbacks, hwidths, hperm,
              fun hw => (hwrite hw).2, rfl⟩
            rw [Located] at hlocated ⊢
            split at hlocated
            next hp =>
              rw [if_pos hp]
              obtain ⟨leaf, hleads, hbase, hu, hra, hwd⟩ := hlocated
              exact ⟨leaf, hleads, hbase, hu, hra, fun hw => hwd (hwrite hw).1.1⟩
            next hp =>
              rw [if_neg hp]
              exact hlocated

theorem Coh.itlbFill (hc : Coh rd D h)
    (hpl : ¬ D.Excuses h.space va → h.priv ≠ privM → Placed rd h.space va pa) :
    Coh rd D (h.itlbFill va pa) := by
  rw [Hart.itlbFill]
  dsimp only
  have hrefused (old : DtlbEntry) : Coh rd D { h with
      itlb := putEntry h.itlb (dtlbTable h.priv) (dtlbSlot (va >>> 12))
        { old with read := dtlbNone, write := va >>> 12 } } :=
    hc.putFetch (.inr rfl) fun hr => absurd hr.symm (vpn_ne_none va)
  split
  · exact hc
  next hM =>
    split
    · exact hc
    split
    · exact hrefused _
    next hrights =>
      split
      · exact hrefused _
      next hexec =>
        split
        · exact hrefused _
        next r hfind =>
          split
          · exact hrefused _
          next hbad =>
            push Not at hbad hrights
            obtain ⟨hbacks, hwidths, hperm⟩ := hbad
            rw [Hart.pmpPageRights_below hM] at hexec
            refine hc.putFetch (.inl rfl) fun _ hD => ⟨pageOf pa, r, ?_⟩
            refine ⟨hc.located hD (hpl hD hM) fun hp => ?_, (Bool.not_eq_false _).mp hexec, hfind, hbacks, hwidths,
              hperm, ?_⟩
            · exact Hart.itlbRights_true (by simpa using hrights hp)
            · simp

end Emu.Rv
