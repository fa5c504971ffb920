-- SUMMARY: What the data and fetch tables answer is what a fresh walk, PMP and the bus say of the access.
import Emu.Rv.Fills

/-! # Answers of the tables -/

namespace Emu.Rv

variable {δ : Type} {h : Hart δ} {rd : Word → Option Word} {va pa page : Word} {acc : Access}
variable {D : Stale} {leaf : Leaf} {t : Nat} {e : DtlbEntry} {r : Region} {n : Nat} {b : Bus δ}

/-! ## The reference -/

/-- Where the bus serves an access, and from which offset: a region that holds it, allows it, and is not one the
kind of access never reaches. -/
def busPlace (b : Bus δ) (pa : Word) (size : Nat) (acc : Access) : Option (Region × Word) :=
  match b.check pa size (permFor acc) with
  | none => none
  | some (r, off) =>
    if acc = .store ∧ r.kind = .rom ∨ acc = .fetch ∧ r.kind = .mmio then none else some (r, off)

/-- The verdict on an access, asked of a walk with nothing cached, of PMP and of the bus. -/
def Hart.fresh (h : Hart δ) (va : Word) (size : Nat) (acc : Access) : Except Exc (Region × Word) :=
  match (translateActive va acc h.mmuFlushTlb).1 with
  | .error e => .error e
  | .ok pa =>
    if h.pmpCheck pa size acc = false then .error (accessFaultFor acc)
    else match busPlace h.bus pa size acc with
      | none => .error (accessFaultFor acc)
      | some place => .ok place

theorem Hart.translateActive_flushTlb (va : Word) (acc : Access) :
    (translateActive va acc h.mmuFlushTlb).1 = if h.vmActive then h.translateFresh va acc else .ok va := by
  have hvm : h.mmuFlushTlb.vmActive = h.vmActive := rfl
  rw [translateActive, hvm]
  split
  · exact translate_flushTlb va acc
  · rfl

/-! ## Bits -/

theorem and_of_mask {w : Nat} {x m m' : BitVec w} (hx : x &&& m = m) (hm : m &&& m' = m') : x &&& m' = m' := by
  rw [← hm, ← BitVec.and_assoc, hx]

theorem and_ne_zero_of_mask {w : Nat} {x m m' : BitVec w} (hx : x &&& m = m) (hm : m &&& m' = m') (h0 : m' ≠ 0) :
    x &&& m' ≠ 0 := by
  rw [and_of_mask hx hm]
  exact h0

/-- A leaf the data table accepted permits every load, and a store if it is good for stores. -/
theorem DataLeaf.permits {priv : Priv} {w : Prop} {pte : Word} (hl : DataLeaf (dtlbTable priv) w pte)
    (hacc : acc = .load ∨ acc = .store ∧ w) : h.leafPermits pte acc priv = true := by
  obtain ⟨hu, hra, hwd⟩ := hl
  rw [dtlbTable_eq_zero] at hu
  have hr : pte &&& pteR ≠ 0 := and_ne_zero_of_mask hra (by decide) (by decide)
  have ha : pte &&& pteA ≠ 0 := and_ne_zero_of_mask hra (by decide) (by decide)
  have hUser : ¬ (priv = privU ∧ pte &&& pteU = 0) := fun hbad => (hu.mpr hbad.1) hbad.2
  have hSuper : ¬ (priv ≠ privU ∧ pte &&& pteU ≠ 0 ∧ (acc = .fetch ∨ h.mstatus &&& mstatusSum = 0)) :=
    fun hbad => hbad.1 (hu.mp hbad.2.1)
  unfold Hart.leafPermits
  rw [if_neg hUser, if_neg hSuper]
  obtain rfl | ⟨rfl, hw⟩ := hacc
  · simpa using ⟨Or.inl hr, ha⟩
  · have hwd := hwd hw
    have hw : pte &&& pteW ≠ 0 := and_ne_zero_of_mask hwd (by decide) (by decide)
    have hd : pte &&& pteD ≠ 0 := and_ne_zero_of_mask hwd (by decide) (by decide)
    simpa using ⟨hw, ha, hd⟩

theorem FetchLeaf.permits {priv : Priv} {pte : Word} (hl : FetchLeaf (dtlbTable priv) pte) :
    h.leafPermits pte .fetch priv = true := by
  obtain ⟨hu, hxa⟩ := hl
  rw [dtlbTable_eq_zero] at hu
  have hx : pte &&& pteX ≠ 0 := and_ne_zero_of_mask hxa (by decide) (by decide)
  have ha : pte &&& pteA ≠ 0 := and_ne_zero_of_mask hxa (by decide) (by decide)
  have hUser : ¬ (priv = privU ∧ pte &&& pteU = 0) := fun hbad => (hu.mpr hbad.1) hbad.2
  have hSuper : ¬ (priv ≠ privU ∧ pte &&& pteU ≠ 0 ∧ (Access.fetch = .fetch ∨ h.mstatus &&& mstatusSum = 0)) :=
    fun hbad => hbad.1 (hu.mp hbad.2.1)
  unfold Hart.leafPermits
  rw [if_neg hUser, if_neg hSuper]
  simpa using ⟨hx, ha⟩

/-! ## A page inside a region -/

/-- An access inside a page that a region backs as a whole lies in that region. -/
theorem backs_access (hb : b.Wf) (hf : b.find (pageOf pa) = some r) (hbk : BacksPage r (pageOf pa))
    (hn : 0 < n) (hfit : pa.toNat % 4096 + n ≤ 4096) :
    b.find pa = some r ∧ (pa - r.base).toNat = (pageOf pa - r.base).toNat + pa.toNat % 4096 ∧
      ¬ (pa - r.base > r.size - BitVec.ofNat 32 n) := by
  obtain ⟨hmem, hin⟩ := Bus.find_some hf
  have hvalid := hb.valid r hmem
  obtain ⟨hlo, hhi⟩ := (Bus.inRegion_iff hvalid).mp hin
  obtain ⟨hsize, hend⟩ := hvalid
  obtain ⟨-, -, hle, hroom⟩ := hbk
  have hpage := toNat_pageOf pa
  have hmod := Nat.mod_le pa.toNat 4096
  have hpa := pa.isLt
  have hoff : (pageOf pa - r.base).toNat = (pageOf pa).toNat - r.base.toNat := by
    rw [BitVec.toNat_sub]
    omega
  have hroom' : 4096 ≤ r.size.toNat - ((pageOf pa).toNat - r.base.toNat) := by
    rw [BitVec.le_def, BitVec.toNat_sub, hoff] at hroom
    have h4096 : pageSize.toNat = 4096 := by decide
    have hszlt := r.size.isLt
    omega
  have hin' : r.inRegion pa = true := by
    rw [Bus.inRegion_iff ⟨hsize, hend⟩]
    omega
  have hoffpa : (pa - r.base).toNat = pa.toNat - r.base.toNat := by
    rw [BitVec.toNat_sub]
    omega
  refine ⟨hb.find_eq hmem hin', by omega, ?_⟩
  rw [gt_iff_lt, BitVec.lt_def, BitVec.toNat_sub, hoffpa, BitVec.toNat_ofNat]
  have hszlt := r.size.isLt
  omega

/-- The host address of a byte, from the address of its page. -/
theorem hostAt_page {va : Word} (hoff : va.toNat % 4096 = pa.toNat % 4096)
    (hsum : (pa - r.base).toNat = (page - r.base).toNat + pa.toNat % 4096) :
    r.hostAt (pa - r.base) = va.setWidth 64 + (r.hostAt (page - r.base) - (pageOf va).setWidth 64) := by
  have hva := toNat_pageOf va
  have hmod := Nat.mod_le va.toNat 4096
  have hlt := va.isLt
  have hlt' := (pa - r.base).isLt
  have hv : va.setWidth 64 = (pageOf va).setWidth 64 + BitVec.ofNat 64 (va.toNat % 4096) := by
    apply BitVec.eq_of_toNat_eq
    rw [BitVec.toNat_add, BitVec.toNat_setWidth, BitVec.toNat_setWidth, BitVec.toNat_ofNat]
    omega
  have ho : (pa - r.base).setWidth 64 = (page - r.base).setWidth 64 + BitVec.ofNat 64 (va.toNat % 4096) := by
    apply BitVec.eq_of_toNat_eq
    rw [BitVec.toNat_add, BitVec.toNat_setWidth, BitVec.toNat_setWidth, BitVec.toNat_ofNat]
    omega
  rw [Region.hostAt, Region.hostAt, hv, ho]
  bv_omega

/-! ## What an answer vouches for -/

/-- The access is allowed, at the physical address `pa` in the memory region `r`. -/
structure Vouched (h : Hart δ) (va : Word) (n : Nat) (acc : Access) (pa : Word) (r : Region) : Prop where
  translated : (if h.vmActive then h.translateFresh va acc else .ok va) = .ok pa
  placed : h.accPriv acc ≠ privM
  pmp : h.pmpCheck pa n acc = true
  check : h.bus.check pa n (permFor acc) = some (r, pa - r.base)
  memory : r.kind = .ram ∨ r.kind = .rom ∧ acc ≠ .store

theorem Vouched.fresh (hv : Vouched h va n acc pa r) : h.fresh va n acc = .ok (r, pa - r.base) := by
  have hkind : ¬ (acc = .store ∧ r.kind = .rom ∨ acc = .fetch ∧ r.kind = .mmio) := by
    rintro (⟨hs, hk⟩ | ⟨-, hk⟩)
    · obtain hm | hm := hv.memory
      · rw [hm] at hk
        cases hk
      · exact hm.2 hs
    · obtain hm | ⟨hm, -⟩ := hv.memory <;> rw [hm] at hk <;> cases hk
  rw [Hart.fresh, Hart.translateActive_flushTlb, hv.translated]
  simp only [hv.pmp, Bool.true_eq_false, if_false, busPlace, hv.check, hkind]

/-- The physical address a located page gives, through a leaf that permits the access or without translation. -/
theorem Located.translated {good : Word → Prop} (hok : h.Ok) (hp : h.accPriv acc ≠ privM)
    (hl : Located h.pteBelow h.space va page good)
    (hgood : ∀ pte, good pte → h.leafPermits pte acc (h.accPriv acc) = true) :
    (if h.vmActive then h.translateFresh va acc else .ok va) = .ok (page ||| pageOffset va) ∧
      page &&& (pageSize - 1) = 0 := by
  have hvm : h.vmActive = h.space.paging := hok.vmActive_of hp
  rw [Located] at hl
  rw [hvm]
  split_ifs at hl ⊢ with hpg
  · obtain ⟨leaf, hleads, rfl, hg⟩ := hl
    have hw : walk h.readPte h.satp va = .ok leaf := by
      rw [hok.readPte_eq hp]
      exact hleads.ends
    refine ⟨?_, walk_base hw⟩
    rw [Hart.translateFresh, if_neg hp, hw]
    simp only [hgood _ hg, Bool.true_eq_false, if_false, hleads.onBus, ne_eq, not_true_eq_false]
  · rw [hl, pageOf_or_self]
    exact ⟨rfl, pageOf_and_low va⟩

/-- PMP allows what it allows on the whole page. -/
theorem pmpCheck_of_page (hp : h.accPriv acc ≠ privM) (hr : (h.pmpPageRights (pageOf pa) privS).of acc = true)
    (hn : 0 < n) (hfit : pa.toNat % 4096 + n ≤ 4096) : h.pmpCheck pa n acc = true := by
  have hS : privS ≠ privM := by decide
  rw [Hart.pmpPageRights, if_neg hS] at hr
  have hpage := toNat_pageOf pa
  have hmod := Nat.mod_le pa.toNat 4096
  have hpa := pa.isLt
  have hplast : (pageOf pa + (pageSize - 1)).toNat = (pageOf pa).toNat + 4095 := by
    rw [BitVec.toNat_add]
    have h4095 : (pageSize - 1 : Word).toNat = 4095 := by decide
    omega
  have hlast : (pa + BitVec.ofNat 32 n - 1).toNat = pa.toNat + n - 1 := by
    have h1 : (1 : Word).toNat = 1 := rfl
    rw [BitVec.toNat_sub, BitVec.toNat_add, BitVec.toNat_ofNat, h1]
    omega
  refine Hart.pmpScan_of_pageScan hp ?_ ?_ ?_ hr
  · rw [BitVec.le_def]
    omega
  · rw [BitVec.le_def, hlast]
    omega
  · rw [BitVec.le_def, hlast, hplast]
    omega

/-- The bus takes an access inside a page that a region backs, if the region has the permission and the width. -/
theorem check_of_backs (hb : b.Wf) (hf : b.find (pageOf pa) = some r) (hbk : BacksPage r (pageOf pa))
    (hn : 0 < n) (hfit : pa.toNat % 4096 + n ≤ 4096) {perm : Byte} (hperm : r.perm &&& perm ≠ 0)
    (hwidth : r.widths &&& widthBit n ≠ 0) : b.check pa n perm = some (r, pa - r.base) := by
  obtain ⟨hfind, -, hroom⟩ := backs_access hb hf hbk hn hfit
  rw [Bus.check, hfind]
  simp only [hroom, if_false, hperm, hwidth]

/-- An access of one, two or four bytes. -/
def IsWidth (n : Nat) : Prop :=
  n = 1 ∨ n = 2 ∨ n = 4

/-- An aligned access does not leave its page. -/
theorem aligned_fits (hn : IsWidth n) (ha : va &&& (BitVec.ofNat 32 n - 1) = 0) : va.toNat % 4096 + n ≤ 4096 := by
  have hmod : va.toNat % n = 0 := by
    have hz := congrArg BitVec.toNat ha
    rw [BitVec.toNat_and] at hz
    obtain rfl | rfl | rfl := hn
    · exact Nat.mod_one _
    · exact (Nat.and_two_pow_sub_one_eq_mod va.toNat 1).symm.trans hz
    · exact (Nat.and_two_pow_sub_one_eq_mod va.toNat 2).symm.trans hz
  obtain rfl | rfl | rfl := hn <;> omega

/-- The access a probe of the data table is made for. -/
def accOf (store : Bool) : Access :=
  if store then .store else .load

theorem Hart.dtlbProbe_some {store : Bool} (hp : h.dtlbProbe va n store = some e) :
    h.accPriv (accOf store) ≠ privM ∧ va &&& (BitVec.ofNat 32 n - 1) = 0 ∧
      e = h.dtlb (dtlbTable (h.accPriv (accOf store))) (dtlbSlot (va >>> 12)) ∧ e.Hits va ∧
      (store = true → e.write = va >>> 12) := by
  have hacc : h.accPriv (accOf store) = h.dataPriv := by cases store <;> rfl
  rw [dtlbProbe] at hp
  rw [hacc]
  dsimp only at hp
  split at hp
  · cases hp
  next hgo =>
    push Not at hgo
    by_cases htag : (if store = true then (h.dtlb (dtlbTable h.dataPriv) (dtlbSlot (va >>> 12))).write
        else (h.dtlb (dtlbTable h.dataPriv) (dtlbSlot (va >>> 12))).read) = va >>> 12
    · rw [if_pos htag] at hp
      obtain rfl := Option.some.inj hp
      refine ⟨hgo.1, hgo.2, rfl, ?_, fun hs => ?_⟩
      · cases store with
        | false => exact .inl htag
        | true => exact .inr htag
      · rw [hs] at htag
        exact htag
    · rw [if_neg htag] at hp
      cases hp

/-- An access inside a located page on which PMP and the bus allow it. -/
theorem Vouched.of_page (hok : h.Ok) (hp : h.accPriv acc ≠ privM) (hbase : page &&& (pageSize - 1) = 0)
    (htrans : (if h.vmActive then h.translateFresh va acc else .ok va) = .ok (page ||| pageOffset va))
    (hn : 0 < n) (hfit : va.toNat % 4096 + n ≤ 4096) (hrights : (h.pmpPageRights page privS).of acc = true)
    (hfind : h.bus.find page = some r) (hbacks : BacksPage r page) (hperm : r.perm &&& permFor acc ≠ 0)
    (hwidth : r.widths &&& widthBit n ≠ 0) (hmem : r.kind = .ram ∨ r.kind = .rom ∧ acc ≠ .store) :
    Vouched h va n acc (page ||| pageOffset va) r ∧
      r.hostAt ((page ||| pageOffset va) - r.base) =
        va.setWidth 64 + (r.hostAt (page - r.base) - (pageOf va).setWidth 64) := by
  have hpg := pageOf_or_pageOffset hbase va
  have hoff : (page ||| pageOffset va).toNat % 4096 = va.toNat % 4096 := by
    have hb := toNat_pageOffset page
    rw [pageOffset, hbase] at hb
    have hz : (0 : Word).toNat = 0 := rfl
    rw [toNat_or_pageOffset hbase va]
    omega
  rw [← hpg] at hrights hfind hbacks
  rw [← hoff] at hfit
  refine ⟨⟨htrans, hp, pmpCheck_of_page hp hrights hn hfit,
    check_of_backs hok.bus hfind hbacks hn hfit hperm hwidth, hmem⟩, ?_⟩
  obtain ⟨-, hsum, -⟩ := backs_access hok.bus hfind hbacks hn hfit
  rw [hpg] at hsum
  exact hostAt_page hoff.symm hsum

/-- The data table's answer: the access is allowed, and its first byte is where the entry says. -/
theorem Coh.dtlb_vouches {store : Bool} (hc : Coh h.pteBelow D h) (hok : h.Ok) (hD : ¬ D.Excuses h.space va)
    (hn : IsWidth n) (hprobe : h.dtlbProbe va n store = some e) :
    ∃ pa r, Vouched h va n (accOf store) pa r ∧ r.hostAt (pa - r.base) = va.setWidth 64 + e.addend := by
  obtain ⟨hp, halign, he, hit, hstore⟩ := Hart.dtlbProbe_some hprobe
  rw [he] at hit
  obtain ⟨page, r, hpage⟩ := (hc.data _ va hit).2 hD
  rw [← he] at hpage
  have hkinds : accOf store = .load ∨ accOf store = .store ∧ e.write = va >>> 12 := by
    cases store with
    | false => exact .inl rfl
    | true => exact .inr ⟨rfl, hstore rfl⟩
  obtain ⟨htrans, hbase⟩ := hpage.located.translated hok hp fun pte hl => hl.permits hkinds
  have hpos : 0 < n := by
    obtain rfl | rfl | rfl := hn <;> decide
  have hwidth : r.widths &&& widthBit n ≠ 0 := by
    obtain rfl | rfl | rfl := hn <;> exact and_ne_zero_of_mask hpage.widths (by decide) (by decide)
  refine ⟨page ||| pageOffset va, r, ?_⟩
  rw [hpage.addend]
  apply Vouched.of_page hok hp hbase htrans hpos (aligned_fits hn halign) ?_ hpage.region hpage.backs ?_ hwidth ?_
  · obtain hl | ⟨hs, hw⟩ := hkinds
    · rw [hl]
      exact hpage.pmp
    · rw [hs]
      exact hpage.pmpW hw
  · obtain hl | ⟨hs, hw⟩ := hkinds
    · rw [hl]
      exact hpage.perm
    · rw [hs]
      exact (hpage.ram hw).2
  · obtain hl | ⟨-, hw⟩ := hkinds
    · rw [hl]
      exact hpage.backs.2.1.imp_right fun hk => ⟨hk, by decide⟩
    · exact .inl (hpage.ram hw).1

theorem Hart.itlbLookup_some (hl : h.itlbLookup va = some pa) :
    h.priv ≠ privM ∧ (h.itlb (dtlbTable h.priv) (dtlbSlot (va >>> 12))).Fetches va ∧
      pa = va + (h.itlb (dtlbTable h.priv) (dtlbSlot (va >>> 12))).addend.setWidth 32 := by
  rw [itlbLookup, itlbEntry] at hl
  by_cases hM : h.priv = privM
  · rw [if_pos hM] at hl
    cases hl
  · rw [if_neg hM] at hl
    dsimp only at hl
    split_ifs at hl with htag
    exact ⟨hM, htag, (Option.some.inj hl).symm⟩

/-- The fetch table's answer: a halfword of the page may be fetched, at the address it gives. -/
theorem Coh.itlb_vouches (hc : Coh h.pteBelow D h) (hok : h.Ok) (hD : ¬ D.Excuses h.space va)
    (hfit : va.toNat % 4096 + 2 ≤ 4096) (hl : h.itlbLookup va = some pa) : ∃ r, Vouched h va 2 .fetch pa r := by
  obtain ⟨hM, hit, rfl⟩ := Hart.itlbLookup_some hl
  obtain ⟨page, r, hpage⟩ := hc.fetch _ va hit hD
  have hp : h.accPriv .fetch ≠ privM := hM
  obtain ⟨htrans, hbase⟩ := hpage.located.translated hok hp fun pte hleaf => hleaf.permits
  have hpa : va + (h.itlb (dtlbTable h.priv) (dtlbSlot (va >>> 12))).addend.setWidth 32 = page ||| pageOffset va := by
    have hsum := toNat_or_pageOffset hbase va
    have hva := toNat_pageOf va
    have hmod := Nat.mod_le va.toNat 4096
    rw [hpage.addend]
    bv_omega
  rw [hpa]
  exact ⟨r, (Vouched.of_page hok hp hbase htrans (by decide) hfit hpage.pmp hpage.region hpage.backs hpage.perm
    hpage.widths (hpage.backs.2.1.imp_right fun hk => ⟨hk, by decide⟩)).1⟩

end Emu.Rv
