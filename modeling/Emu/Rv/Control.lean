-- SUMMARY: Traps, returns, fences and control register writes keep the flags right and the caches coherent.
import Emu.Rv.Twins
import Emu.Rv.Machine

/-! # Privileged steps -/

namespace Emu.Rv

variable {δ : Type} {h h' : Hart δ} {rd : Word → Option Word} {va cause : Word} {D : Stale}

/-! ## Flags -/

namespace Hart

/-- A field outside the bits that are cleared and set keeps its value. -/
theorem and_update_disjoint {w : Nat} {m clear set k : BitVec w} (hc : clear &&& k = 0#w) (hs : set &&& k = 0#w) :
    (m &&& ~~~clear ||| set) &&& k = m &&& k := by
  have hk : ~~~clear &&& k = k := by
    apply BitVec.eq_of_getLsbD_eq
    intro i hi
    have hbit : (clear &&& k).getLsbD i = false := by rw [hc, BitVec.getLsbD_zero]
    rw [BitVec.getLsbD_and] at hbit
    rw [BitVec.getLsbD_and, BitVec.getLsbD_not, decide_eq_true hi]
    cases hb : clear.getLsbD i <;> simp_all
  rw [BitVec.and_or_distrib_right, hs, BitVec.and_assoc, hk, BitVec.or_zero]

/-- A field that is cleared, and not set, is zero. -/
theorem and_update_cleared {w : Nat} {m clear set k : BitVec w} (hc : clear &&& k = k) (hs : set &&& k = 0#w) :
    (m &&& ~~~clear ||| set) &&& k = 0#w := by
  have hk : ~~~clear &&& k = 0#w := by
    apply BitVec.eq_of_getLsbD_eq
    intro i hi
    have hbit : (clear &&& k).getLsbD i = k.getLsbD i := by rw [hc]
    rw [BitVec.getLsbD_and] at hbit
    rw [BitVec.getLsbD_and, BitVec.getLsbD_not, decide_eq_true hi, BitVec.getLsbD_zero]
    cases hb : clear.getLsbD i <;> simp_all
  rw [BitVec.and_or_distrib_right, hs, BitVec.and_assoc, hk, BitVec.and_zero, BitVec.or_zero]

/-- After both refreshes the flags are right, whatever they were. -/
theorem Ok.refreshed (hb : h.bus.Wf) (hl : h.bus.bigEndian = false)
    (hm : h.priv ≠ privM → h.mstatus &&& mstatusMprv = 0) : h.pmpRefresh.mmuRefresh.Ok :=
  ⟨hb, hl, rfl, rfl, rfl, rfl, rfl, hm⟩

theorem Ok.jump (hok : h.Ok) (pc : Word) (valid : Bool) : Hart.Ok { h with pc := pc, resvValid := valid } :=
  ⟨hok.bus, hok.little, hok.pmpActive, hok.pmpAny, hok.vmActive, hok.fetchGuard, hok.dataGuard, hok.mprv⟩

/-- Two flags, each set or not, that are not the field. -/
theorem or_and_zero {a b k : Word} (ha : a &&& k = 0) (hb : b &&& k = 0) : (a ||| b) &&& k = 0 := by
  rw [BitVec.and_or_distrib_right, ha, hb]
  rfl

theorem Ok.enterS (hok : h.Ok) (hp : h.priv ≠ privM) (cause tval : Word) :
    (h.enterS cause tval).mstatus &&& mstatusMprv = 0 := by
  refine (congrArg (· &&& mstatusMprv) (BitVec.or_assoc ..)).trans ?_
  refine (and_update_disjoint (by decide) (or_and_zero ?_ ?_)).trans (hok.mprv hp)
  all_goals
    split <;> decide

theorem Ok.mret (hok : h.Ok) : h.mret.Ok := by
  have hm : (if ((h.mstatus &&& mstatusMppMask) >>> mstatusMppShift).setWidth 2 = privU then privU
      else if ((h.mstatus &&& mstatusMppMask) >>> mstatusMppShift).setWidth 2 = privS then privS else privM) ≠ privM →
      h.mret.mstatus &&& mstatusMprv = 0 := by
    intro hback
    refine (congrArg (· &&& mstatusMprv) (BitVec.or_assoc ..)).trans ?_
    refine and_update_cleared ?_ (or_and_zero ?_ (by decide))
    · rw [if_neg hback]
      decide
    · split <;> decide
  have hr := Ok.refreshed (h := { h with mstatus := h.mret.mstatus, priv := h.mret.priv }) hok.bus hok.little hm
  exact hr.jump h.mepc h.resvValid

theorem Ok.sret (hok : h.Ok) : h.sret.Ok := by
  have hm : h.sret.mstatus &&& mstatusMprv = 0 := by
    refine (congrArg (· &&& mstatusMprv) (BitVec.or_assoc ..)).trans ?_
    refine and_update_cleared (by decide) (or_and_zero ?_ (by decide))
    split <;> decide
  have hr := Ok.refreshed (h := { h with mstatus := h.sret.mstatus, priv := h.sret.priv }) hok.bus hok.little fun _ => hm
  exact hr.jump h.sepc h.resvValid

theorem illegalTval_state (h : Hart δ) (tval : Word) : (h.illegalTval tval).2 = (translateActive h.pc .fetch h).2 := by
  rw [illegalTval]
  split
  next heq => rw [heq]
  next heq =>
    rw [heq]
    split <;> rfl

theorem trapToS_below (hs : h.trapToS cause = true) : h.priv ≠ privM := by
  intro hp
  rw [trapToS, hp] at hs
  simp [privM, privS] at hs

theorem Ok.enterTrap (hok : h.Ok) (cause tval : Word) : (h.enterTrap cause tval).Ok := by
  have hentered : (if h.trapToS cause then h.enterS cause tval else h.enterM cause tval).pmpRefresh.mmuRefresh.Ok := by
    split
    next hs => exact Ok.refreshed hok.bus hok.little fun _ => hok.enterS (trapToS_below hs) cause tval
    · exact Ok.refreshed hok.bus hok.little fun hp => absurd rfl hp
  exact hentered.jump _ false

end Hart

/-! ## Traps and returns leave the caches alone -/

theorem Coh.refreshed (hc : Coh rd D h) : Coh rd D h.pmpRefresh.mmuRefresh :=
  hc.frame (Hart.space_congr rfl rfl rfl rfl rfl) rfl rfl rfl

theorem Coh.jump (hc : Coh rd D h) (pc : Word) (valid : Bool) : Coh rd D { h with pc := pc, resvValid := valid } :=
  hc.frame (Hart.space_congr rfl rfl rfl rfl rfl) rfl rfl rfl

theorem Coh.enterTrap (hc : Coh rd D h) (cause tval : Word) : Coh rd D (h.enterTrap cause tval) := by
  have hentered : Coh rd D (if h.trapToS cause then h.enterS cause tval else h.enterM cause tval) := by
    split <;> exact hc.frame (Hart.space_congr rfl rfl rfl rfl rfl) rfl rfl rfl
  exact hentered.refreshed.jump _ false

/-- Looking for the instruction may fill the buffer; nothing else is cached. -/
theorem Coh.trapValue (hc : Coh rd D h) (hok : h.Ok) (hr : Reads rd h) (cause tval : Word) :
    Coh rd D (h.trapValue cause tval).2 ∧ (h.trapValue cause tval).2.Ok := by
  have hc₀ : Coh rd D { h with splitValid := false } := hc.frame (Hart.space_congr rfl rfl rfl rfl rfl) rfl rfl rfl
  have hok₀ : Hart.Ok { h with splitValid := false } :=
    ⟨hok.bus, hok.little, hok.pmpActive, hok.pmpAny, hok.vmActive, hok.fetchGuard, hok.dataGuard, hok.mprv⟩
  rw [Hart.trapValue]
  split
  · rw [Hart.illegalTval_state]
    have hf := hc₀.translateActive_fills hok₀ hr h.pc .fetch
    exact ⟨hf.coh, hok₀.sameButCaches hf.same⟩
  · exact ⟨hc₀, hok₀⟩

/-! ## Control registers -/

/-- The flags depend on two fields of `mstatus`. -/
theorem Hart.Ok.setMstatus (hok : h.Ok) {m : Word} (hmprv : m &&& mstatusMprv = h.mstatus &&& mstatusMprv)
    (hmpp : m &&& mstatusMppMask = h.mstatus &&& mstatusMppMask) : Hart.Ok { h with mstatus := m } := by
  have hdata : Hart.dataPriv { h with mstatus := m } = h.dataPriv := by
    rw [dataPriv, dataPriv]
    simp only [hmprv, hmpp]
  have hbelow : Hart.belowM { h with mstatus := m } = h.belowM := by
    rw [belowM, belowM, hdata]
  refine ⟨hok.bus, hok.little, ?_, hok.pmpAny, ?_, hok.fetchGuard, hok.dataGuard, fun hp => ?_⟩
  · rw [hbelow]
    exact hok.pmpActive
  · rw [hbelow]
    exact hok.vmActive
  · exact hmprv.trans (hok.mprv hp)

theorem TlbGood.congr {c c' : Space} {e : TlbEntry} (hs : c'.satp = c.satp) (hm : c'.mega = c.mega)
    (hg : TlbGood rd D c va e) : TlbGood rd D c' va e := by
  intro he hp
  rw [Stale.Excuses, hm] at he
  rw [Space.paging, hs] at hp
  obtain ⟨leaf, hl, hrest⟩ := hg he hp
  refine ⟨leaf, ⟨?_, hl.onBus, ?_⟩, hrest⟩
  · rw [hs]
    exact hl.ends
  · rw [hm]
    exact hl.mega

/-- What PMP allows is cached in the data and fetch tables only. -/
theorem Coh.flushData (hc : Coh rd D h) (hs : h'.satp = h.satp) (hm : h'.megaRegions = h.megaRegions)
    (ht : h'.tlb = h.tlb) : Coh rd D h'.dtlbFlush where
  tlb := by
    show Slots.All _ TlbEntry.Hits _ h'.tlb
    rw [ht]
    exact hc.tlb.mono fun _ _ hgood => TlbGood.congr (c := h.space) hs hm hgood
  data _ := .flushed fun _ => DtlbEntry.not_hits_none
  fetch _ := .flushed fun _ => DtlbEntry.not_fetches_none

/-- A write to `satp` leaves nothing cached. -/
theorem Coh.writeSatp {val : Word} (hw : h.csrWrite .satp val = some h') : Coh rd D h' := by
  have hflushed : Coh rd D
      (Hart.mmuFlushTlb { h with satp := val &&& (satpModeSv32 ||| satpAsidMask ||| satpPpnMask) }) :=
    .flushTlb
  unfold Hart.csrWrite at hw
  dsimp only at hw
  split_ifs at hw
  obtain rfl := Option.some.inj hw
  exact hflushed.frame (Hart.space_congr rfl rfl rfl rfl rfl) rfl rfl rfl

theorem Coh.csrWrite {c : Hart.Csr} {val : Word} (hc : Coh rd D h) (hok : h.Ok)
    (hw : h.csrWrite c val = some h') : Coh rd D h' ∧ h'.Ok := by
  unfold Hart.csrWrite at hw
  have hpriv : ¬ c.minPriv > h.priv := by
    intro hbad
    rw [if_pos hbad] at hw
    cases hw
  rw [if_neg hpriv] at hw
  cases c with
  | mstatus =>
    obtain rfl := Option.some.inj hw
    have hM : h.priv = privM := by
      have hle : ¬ privM > h.priv := hpriv
      have hlt := h.priv.isLt
      simp only [privM] at hle ⊢
      bv_omega
    have hset : Coh rd D { h with mstatus := (h.mstatus &&& ~~~mstatusWmask) ||| (val &&& mstatusWmask) } :=
      hc.frame (Hart.space_congr rfl rfl rfl rfl rfl) rfl rfl rfl
    exact ⟨hset.refreshed, .refreshed hok.bus hok.little fun hp => absurd hM hp⟩
  | sstatus =>
    obtain rfl := Option.some.inj hw
    have hkeep {k : Word} (hk : sstatusWmask &&& k = 0) :
        (h.mstatus &&& ~~~sstatusWmask ||| val &&& sstatusWmask) &&& k = h.mstatus &&& k := by
      refine Hart.and_update_disjoint hk ?_
      rw [BitVec.and_assoc, hk]
      exact BitVec.and_zero
    exact ⟨hc.frame (Hart.space_congr rfl rfl rfl rfl rfl) rfl rfl rfl, hok.setMstatus (hkeep (by decide)) (hkeep (by decide))⟩
  | satp =>
    have hwrite : h.csrWrite .satp val = some h' := by
      unfold Hart.csrWrite
      rwa [if_neg hpriv]
    refine ⟨.writeSatp hwrite, ?_⟩
    dsimp only at hw
    split_ifs at hw
    obtain rfl := Option.some.inj hw
    exact ⟨hok.bus, hok.little, hok.pmpActive, hok.pmpAny, rfl, rfl, rfl, hok.mprv⟩
  | pmpcfg i =>
    obtain rfl := Option.some.inj hw
    have hflushed : Coh rd D (Hart.dtlbFlush
        { h with pmpcfg := Function.update h.pmpcfg i ([0, 1, 2, 3].foldl (Hart.pmpcfgByte · val ·) (h.pmpcfg i)) }) :=
      hc.flushData rfl rfl rfl
    exact ⟨hflushed.frame (Hart.space_congr rfl rfl rfl rfl rfl) rfl rfl rfl, hok.bus, hok.little, rfl, rfl, hok.vmActive, rfl, rfl, hok.mprv⟩
  | pmpaddr i =>
    dsimp only at hw
    split_ifs at hw <;> obtain rfl := Option.some.inj hw
    · exact ⟨hc, hok⟩
    · exact ⟨hc.flushData rfl rfl rfl, hok.bus, hok.little, hok.pmpActive, hok.pmpAny, hok.vmActive, hok.fetchGuard,
        hok.dataGuard, hok.mprv⟩

/-! ## The rest -/

theorem Coh.mret (hc : Coh rd D h) : Coh rd D h.mret := by
  have hset : Coh rd D { h with mstatus := h.mret.mstatus, priv := h.mret.priv } := hc.frame (Hart.space_congr rfl rfl rfl rfl rfl) rfl rfl rfl
  exact hset.refreshed.jump h.mepc h.resvValid

theorem Coh.sret (hc : Coh rd D h) : Coh rd D h.sret := by
  have hset : Coh rd D { h with mstatus := h.sret.mstatus, priv := h.sret.priv } := hc.frame (Hart.space_congr rfl rfl rfl rfl rfl) rfl rfl rfl
  exact hset.refreshed.jump h.sepc h.resvValid

theorem Hart.Ok.flush (hok : h.Ok) : h.mmuFlush.Ok :=
  ⟨hok.bus, hok.little, hok.pmpActive, hok.pmpAny, hok.vmActive, hok.fetchGuard, hok.dataGuard, hok.mprv⟩

theorem Hart.Ok.flushPage (hok : h.Ok) (va : Word) : (h.mmuFlushPage va).Ok := by
  by_cases hr : h.megaRegions (va >>> 22) = true
  · rw [mmuFlushPage, if_pos hr]
    exact hok.flush
  · rw [mmuFlushPage_eq (Bool.not_eq_true _ ▸ hr)]
    exact ⟨hok.bus, hok.little, hok.pmpActive, hok.pmpAny, hok.vmActive, hok.fetchGuard, hok.dataGuard, hok.mprv⟩

theorem Hart.Ok.dirtyFp (hok : h.Ok) : Hart.Ok { h with mstatus := h.mstatus ||| mstatusFsMask } := by
  have hkeep {k : Word} (hk : mstatusFsMask &&& k = 0) : (h.mstatus ||| mstatusFsMask) &&& k = h.mstatus &&& k := by
    rw [BitVec.and_or_distrib_right, hk]
    exact BitVec.or_zero
  exact hok.setMstatus (hkeep (by decide)) (hkeep (by decide))

/-- Nothing is protected or translated after a reset. -/
theorem Hart.reset_free (h : Hart δ) (bus : Bus δ) (pc : Word) :
    (h.reset bus pc).belowM = false ∧ (h.reset bus pc).paging = false ∧ (h.reset bus pc).pmpLocked = false ∧
      (h.reset bus pc).pmpEnabled = false := by
  have hcfg (i : Nat) : (h.reset bus pc).pmpCfg i = 0 := by
    show (0 : Word) >>> (i % 4 * 8) &&& 0xFF = 0
    simp
  have hdata : (h.reset bus pc).dataPriv = privM := by
    have hmprv : ¬ (h.reset bus pc).mstatus &&& mstatusMprv ≠ 0 := by
      show ¬ (1 <<< 13 : Word) &&& mstatusMprv ≠ 0
      decide
    rw [dataPriv, if_neg hmprv]
    rfl
  refine ⟨?_, ?_, ?_, ?_⟩
  · rw [belowM, hdata]
    show (privM != privM || privM != privM) = false
    decide
  · show ((0 : Word) &&& satpModeSv32 != 0) = false
    decide
  · rw [pmpLocked, List.any_eq_false]
    intro i _
    rw [hcfg]
    decide
  · rw [pmpEnabled, List.any_eq_false]
    intro i _
    rw [hcfg]
    decide

theorem Hart.Ok.reset {bus : Bus δ} (hb : bus.Wf) (hl : bus.bigEndian = false) (pc : Word) : (h.reset bus pc).Ok := by
  obtain ⟨hbelow, hpaging, hlocked, henabled⟩ := h.reset_free bus pc
  refine ⟨hb, hl, ?_, henabled.symm, ?_, rfl, rfl, fun hp => absurd rfl hp⟩
  · rw [hbelow, hlocked]
    rfl
  · rw [hpaging]
    rfl

end Emu.Rv
