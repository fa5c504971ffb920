-- SUMMARY: The registers that only privileged steps change, and the privilege modes that `mstatus` names.
import Mathlib
import Emu.Rv.Fence
import Emu.Rv.Stable

/-! # Privilege modes

An access changes no register that protection, translation or a return depends on. A property of those registers has to
be looked at in the few steps that do: a write to a control register, a trap, the two returns, an instruction that makes
the floating-point state dirty, and a write to the debug triggers. -/

namespace Emu.Rv

variable {δ : Type} {h h' : Hart δ}

/-! ## What accesses leave alone -/

/-- The registers that protection, translation and returns depend on, and the flags derived from them. -/
structure ControlRegs where
  priv : Priv
  mstatus : Word
  satp : Word
  pmpcfg : Nat → Word
  pmpaddr : Nat → Word
  pmpActive : Bool
  pmpAny : Bool
  vmActive : Bool
  trigActive : Bool
  fetchGuard : Bool
  dataGuard : Bool

def Hart.control (h : Hart δ) : ControlRegs where
  priv := h.priv
  mstatus := h.mstatus
  satp := h.satp
  pmpcfg := h.pmpcfg
  pmpaddr := h.pmpaddr
  pmpActive := h.pmpActive
  pmpAny := h.pmpAny
  vmActive := h.vmActive
  trigActive := h.trigActive
  fetchGuard := h.fetchGuard
  dataGuard := h.dataGuard

theorem stable_control (c : ControlRegs) : Stable fun h : Hart δ => h.control = c where
  translate h va acc hs := by
    obtain heq | ⟨leaf, -, -, -, heq⟩ := h.translate_cases va acc <;> rw [heq] <;> exact hs
  dtlbFill h va pa hs := by
    obtain heq | ⟨e, -, -, -, heq⟩ := h.dtlbFill_cases va pa <;> rw [heq] <;> exact hs
  itlbFill h va pa hs := by
    obtain heq | ⟨e, -, heq⟩ := h.itlbFill_cases va pa <;> rw [heq] <;> exact hs
  bus _ _ _ _ hs := hs
  unreserve _ hs := hs
  split _ _ _ _ hs := hs
  regs _ _ hs := hs

theorem MemOp.run_control (m : MemOp) (h : Hart δ) : (m.run h).2.control = h.control :=
  ((stable_control h.control).mem m fun _ _ _ hs => hs).state rfl

theorem Hart.trapValue_control (h : Hart δ) (cause tval : Word) : (h.trapValue cause tval).2.control = h.control := by
  rw [trapValue]
  split
  · rw [illegalTval_state]
    exact (stable_control h.control).translateActive.state rfl
  · rfl

theorem Hart.mmuFlushPage_control (h : Hart δ) (va : Word) : (h.mmuFlushPage va).control = h.control := by
  by_cases hr : h.megaRegions (va >>> 22) = true
  · rw [mmuFlushPage, if_pos hr]
    rfl
  · rw [mmuFlushPage_eq (Bool.not_eq_true _ ▸ hr)]
    rfl

/-! ## What a write to a control register does -/

namespace Hart

/-- The hart after a write to a control register that is legal. -/
def written (h : Hart δ) (val : Word) : Csr → Hart δ
  | .mstatus =>
    (pmpRefresh { h with mstatus := (h.mstatus &&& ~~~mstatusWmask) ||| (val &&& mstatusWmask) }).mmuRefresh
  | .sstatus => { h with mstatus := (h.mstatus &&& ~~~sstatusWmask) ||| (val &&& sstatusWmask) }
  | .satp => (mmuFlushTlb { h with satp := val &&& (satpModeSv32 ||| satpAsidMask ||| satpPpnMask) }).mmuRefresh
  | .pmpcfg i =>
    let cfg := [0, 1, 2, 3].foldl (pmpcfgByte · val ·) (h.pmpcfg i)
    (dtlbFlush { h with pmpcfg := Function.update h.pmpcfg i cfg }).pmpRefresh
  | .pmpaddr i =>
    if h.pmpaddrLocked i then h
    else dtlbFlush { h with pmpaddr := Function.update h.pmpaddr i (val &&& pmpaddrMask) }

theorem csrWrite_eq_written {c : Csr} {val : Word} (hw : h.csrWrite c val = some h') : h' = h.written val c := by
  unfold csrWrite at hw
  split at hw
  · cases hw
  cases c with
  | satp =>
    dsimp only at hw
    split at hw
    · cases hw
    · exact (Option.some.inj hw).symm
  | pmpaddr i =>
    dsimp only at hw
    rw [written]
    split at hw
    next hl => rw [if_pos hl, Option.some.inj hw]
    next hl => rw [if_neg hl, Option.some.inj hw]
  | _ => exact (Option.some.inj hw).symm

end Hart

/-! ## Steps and runs -/

/-- A step that is `allowed`. -/
def Moves (allowed : Hart δ → Op δ → Prop) (h h' : Hart δ) : Prop :=
  ∃ o : Op δ, allowed h o ∧ o.run h = some h'

/-- A property of the control registers that the steps which change them keep. -/
structure ControlInvariant (allowed : Hart δ → Op δ → Prop) (P : Hart δ → Prop) : Prop where
  congr : ∀ {h h'}, h'.control = h.control → P h → P h'
  csr : ∀ {h h' c val}, P h → allowed h (.ctl (.csr c val)) → h.csrWrite c val = some h' → P h'
  enterTrap : ∀ {h} cause tval, P h → P (h.enterTrap cause tval)
  mret : ∀ {h}, P h → P h.mret
  sret : ∀ {h}, P h → P h.sret
  dirtyFp : ∀ {h : Hart δ}, P h → P { h with mstatus := h.mstatus ||| mstatusFsMask }
  trigger : ∀ {h : Hart δ} {active check}, P h → allowed h (.ctl (.trigger active check)) → P (h.setTrigger active check)

namespace ControlInvariant

variable {allowed : Hart δ → Op δ → Prop} {P : Hart δ → Prop}

theorem step (hP : ControlInvariant allowed P) (hm : Moves allowed h h') (hh : P h) : P h' := by
  obtain ⟨o, ha, ho⟩ := hm
  cases o with
  | mem m =>
    rw [Op.run] at ho
    split_ifs at ho
    obtain rfl := Option.some.inj ho
    exact hP.congr (m.run_control h) hh
  | ctl c =>
    cases c with
    | fence =>
      rw [Op.run, CtlOp.run] at ho
      split_ifs at ho
      obtain rfl := Option.some.inj ho
      exact hP.congr (h := h) rfl hh
    | fencePage va =>
      rw [Op.run, CtlOp.run] at ho
      split_ifs at ho
      obtain rfl := Option.some.inj ho
      exact hP.congr (h.mmuFlushPage_control va) hh
    | csr r val => exact hP.csr hh ha ho
    | trap cause tval =>
      obtain rfl := Option.some.inj ho
      exact hP.enterTrap _ _ (hP.congr (h.trapValue_control cause tval) hh)
    | mret =>
      rw [Op.run, CtlOp.run] at ho
      split_ifs at ho
      obtain rfl := Option.some.inj ho
      exact hP.mret hh
    | sret =>
      rw [Op.run, CtlOp.run] at ho
      split_ifs at ho
      obtain rfl := Option.some.inj ho
      exact hP.sret hh
    | plain p =>
      obtain rfl := Option.some.inj ho
      exact hP.congr (h := h) rfl hh
    | dirtyFp =>
      obtain rfl := Option.some.inj ho
      exact hP.dirtyFp hh
    | trigger active check =>
      obtain rfl := Option.some.inj ho
      exact hP.trigger hh ha
    | outside mem dev =>
      obtain rfl := Option.some.inj ho
      exact hP.congr (h := h) rfl hh

theorem run (hP : ControlInvariant allowed P) (hr : Relation.ReflTransGen (Moves allowed) h h') (hh : P h) : P h' := by
  induction hr with
  | refl => exact hh
  | tail _ hm ih => exact hP.step hm ih

end ControlInvariant

/-- A state reached from a reset by steps that are `allowed`. -/
def Reached (allowed : Hart δ → Op δ → Prop) (h : Hart δ) : Prop :=
  ∃ (h₀ : Hart δ) (bus : Bus δ) (pc : Word), Relation.ReflTransGen (Moves allowed) (h₀.reset bus pc) h

/-! ## The mode MRET returns to -/

/-- The field `MPP` of `mstatus`. -/
def mppOf (mstatus : Word) : Priv :=
  ((mstatus &&& mstatusMppMask) >>> mstatusMppShift).setWidth 2

/-- The step is no write to `mstatus` that puts the reserved encoding into `MPP`. -/
def Op.KeepsMpp : Op δ → Prop
  | ctl (.csr .mstatus val) => mppOf val ≠ 2
  | _ => True

/-- The hart is in a mode there is, and so is what MRET returns to. -/
def Hart.ModesExist (h : Hart δ) : Prop :=
  h.priv ≠ 2 ∧ mppOf h.mstatus ≠ 2

theorem privS_ne : privS ≠ 2 := by decide

theorem privM_ne : privM ≠ 2 := by decide

theorem mppOf_congr {m m' : Word} (hm : m' &&& mstatusMppMask = m &&& mstatusMppMask) : mppOf m' = mppOf m := by
  rw [mppOf, mppOf, hm]

/-- A field that is cleared and then set is what it is set to. -/
theorem and_update_set {w : Nat} {m clear set k : BitVec w} (hc : clear &&& k = k) :
    (m &&& ~~~clear ||| set) &&& k = set &&& k := by
  have hzero : (m &&& ~~~clear ||| 0#w) &&& k = 0#w := Hart.and_update_cleared hc BitVec.zero_and
  rw [BitVec.or_zero] at hzero
  rw [BitVec.and_or_distrib_right, hzero, BitVec.zero_or]

/-- A trap into machine mode records the mode it comes from. -/
theorem mppOf_enterM (h : Hart δ) (cause tval : Word) : mppOf (h.enterM cause tval).mstatus = h.priv := by
  have hmpie : (if h.mstatus &&& mstatusMie ≠ 0 then mstatusMpie else 0) &&& mstatusMppMask = 0 := by
    split <;> decide
  have hback : ∀ p : Priv, (((p.setWidth 32 <<< mstatusMppShift) &&& mstatusMppMask) >>> mstatusMppShift).setWidth 2 = p := by
    decide
  have hset : (h.enterM cause tval).mstatus &&& mstatusMppMask =
      (h.priv.setWidth 32 <<< mstatusMppShift) &&& mstatusMppMask := by
    refine (congrArg (· &&& mstatusMppMask) (BitVec.or_assoc ..)).trans ((and_update_set (by decide)).trans ?_)
    rw [BitVec.and_or_distrib_right, hmpie]
    exact BitVec.zero_or
  rw [mppOf, hset]
  exact hback h.priv

theorem mppOf_enterS (h : Hart δ) (cause tval : Word) : mppOf (h.enterS cause tval).mstatus = mppOf h.mstatus := by
  apply mppOf_congr
  refine (congrArg (· &&& mstatusMppMask) (BitVec.or_assoc ..)).trans (Hart.and_update_disjoint (by decide) ?_)
  refine Hart.or_and_zero ?_ ?_
  all_goals
    split <;> decide

/-- MRET leaves the least mode behind. -/
theorem mppOf_mret (h : Hart δ) : mppOf h.mret.mstatus = privU := by
  have hzero : h.mret.mstatus &&& mstatusMppMask = 0 := by
    refine (congrArg (· &&& mstatusMppMask) (BitVec.or_assoc ..)).trans ?_
    refine Hart.and_update_cleared ?_ (Hart.or_and_zero ?_ (by decide))
    · split_ifs <;> decide
    · split <;> decide
  rw [mppOf, hzero]
  decide

theorem mppOf_sret (h : Hart δ) : mppOf h.sret.mstatus = mppOf h.mstatus := by
  apply mppOf_congr
  refine (congrArg (· &&& mstatusMppMask) (BitVec.or_assoc ..)).trans (Hart.and_update_disjoint (by decide) ?_)
  refine Hart.or_and_zero ?_ (by decide)
  split <;> decide

/-- A write to a control register does not change the mode, and one to `mstatus` alone the field. -/
theorem csrWrite_modes {c : Hart.Csr} {val : Word} (hw : h.csrWrite c val = some h') :
    h'.priv = h.priv ∧ mppOf h'.mstatus = if c = .mstatus then mppOf val else mppOf h.mstatus := by
  obtain rfl := Hart.csrWrite_eq_written hw
  cases c with
  | mstatus =>
    refine ⟨rfl, mppOf_congr ((and_update_set (by decide)).trans ?_)⟩
    rw [BitVec.and_assoc]
    exact congrArg (val &&& ·) (by decide)
  | sstatus =>
    refine ⟨rfl, mppOf_congr (Hart.and_update_disjoint (by decide) ?_)⟩
    rw [BitVec.and_assoc]
    exact (congrArg (val &&& ·) (by decide)).trans BitVec.and_zero
  | satp => exact ⟨rfl, rfl⟩
  | pmpcfg i => exact ⟨rfl, rfl⟩
  | pmpaddr i =>
    rw [Hart.written]
    split <;> exact ⟨rfl, rfl⟩

theorem enterTrap_modes (hm : h.ModesExist) (cause tval : Word) : (h.enterTrap cause tval).ModesExist := by
  have hentered : (if h.trapToS cause then h.enterS cause tval else h.enterM cause tval).ModesExist := by
    split
    · refine ⟨privS_ne, ?_⟩
      rw [mppOf_enterS]
      exact hm.2
    · refine ⟨privM_ne, ?_⟩
      rw [mppOf_enterM]
      exact hm.1
  unfold Hart.enterTrap
  exact hentered

theorem mret_priv (h : Hart δ) : h.mret.priv = if mppOf h.mstatus = 2 then privM else mppOf h.mstatus := by
  have hcases : ∀ p : Priv, (if p = privU then privU else if p = privS then privS else privM) =
      if p = 2 then privM else p := by
    decide
  exact hcases (mppOf h.mstatus)

theorem modesExist_invariant : ControlInvariant (fun _ o => o.KeepsMpp) (Hart.ModesExist (δ := δ)) where
  congr := by
    intro h h' hc hm
    have hp : h'.priv = h.priv := congrArg ControlRegs.priv hc
    have hs : h'.mstatus = h.mstatus := congrArg ControlRegs.mstatus hc
    rwa [Hart.ModesExist, hp, hs]
  csr := by
    intro h h' c val hm ha hw
    obtain ⟨hp, hmpp⟩ := csrWrite_modes hw
    rw [Hart.ModesExist, hp, hmpp]
    refine ⟨hm.1, ?_⟩
    split
    next hc =>
      subst hc
      exact ha
    · exact hm.2
  enterTrap cause tval hm := enterTrap_modes hm cause tval
  mret := by
    intro h hm
    refine ⟨?_, ?_⟩
    · rw [mret_priv, if_neg hm.2]
      exact hm.2
    · rw [mppOf_mret]
      decide
  sret := by
    intro h hm
    refine ⟨?_, ?_⟩
    · show (if h.mstatus &&& mstatusSpp ≠ 0 then privS else privU) ≠ 2
      split <;> decide
    · rw [mppOf_sret]
      exact hm.2
  dirtyFp := by
    intro h hm
    refine ⟨hm.1, ?_⟩
    have hfs : (h.mstatus ||| mstatusFsMask) &&& mstatusMppMask = h.mstatus &&& mstatusMppMask := by
      have hzero : mstatusFsMask &&& mstatusMppMask = 0 := by decide
      rw [BitVec.and_or_distrib_right, hzero]
      exact BitVec.or_zero
    rw [mppOf_congr hfs]
    exact hm.2
  trigger hm _ := hm

theorem reset_modesExist (h : Hart δ) (bus : Bus δ) (pc : Word) : (h.reset bus pc).ModesExist := by
  refine ⟨privM_ne, ?_⟩
  show mppOf (1 <<< 13) ≠ 2
  decide

theorem Reached.modesExist (hr : Reached (fun _ o => o.KeepsMpp) h) : h.ModesExist := by
  obtain ⟨h₀, bus, pc, hrun⟩ := hr
  exact modesExist_invariant.run hrun (reset_modesExist h₀ bus pc)

/-- Whether a step keeps the field legal. -/
theorem modesExist_step_iff (hm : h.ModesExist) {o : Op δ} (ho : o.run h = some h') :
    mppOf h'.mstatus ≠ 2 ↔ o.KeepsMpp := by
  refine ⟨fun hne => ?_, fun hk => (modesExist_invariant.step ⟨o, hk, ho⟩ hm).2⟩
  cases o with
  | mem => trivial
  | ctl c =>
    cases c with
    | csr r val =>
      cases r with
      | mstatus =>
        have hmpp := (csrWrite_modes ho).2
        rw [if_pos rfl] at hmpp
        rwa [hmpp] at hne
      | _ => trivial
    | _ => trivial

/-- The privilege data is accessed at is the one MRET would return to, for a mode there is. -/
theorem dataPriv_eq_mret_iff (hmprv : h.mstatus &&& mstatusMprv ≠ 0) :
    h.dataPriv = h.mret.priv ↔ mppOf h.mstatus ≠ 2 := by
  have hdata : h.dataPriv = mppOf h.mstatus := by
    rw [Hart.dataPriv, if_pos hmprv]
    rfl
  rw [hdata, mret_priv]
  split
  next h2 =>
    rw [h2]
    decide
  next h2 => exact iff_of_true rfl h2

/-- The field holds a mode there is in every run that writes no other into it, and such a write is the one step after
which it does not. While data is accessed at the mode it names, that is the mode MRET returns to if and only if there
is such a mode. -/
theorem mpp_exists (h : Hart δ) :
    (Reached (fun _ o => o.KeepsMpp) h →
      mppOf h.mstatus ≠ 2 ∧ ∀ (o : Op δ) (h' : Hart δ), o.run h = some h' → (mppOf h'.mstatus ≠ 2 ↔ o.KeepsMpp)) ∧
      (h.mstatus &&& mstatusMprv ≠ 0 → (h.dataPriv = h.mret.priv ↔ mppOf h.mstatus ≠ 2)) :=
  ⟨fun hr => ⟨hr.modesExist.2, fun _ _ ho => modesExist_step_iff hr.modesExist ho⟩, dataPriv_eq_mret_iff⟩

/-- Just after reset, `mstatus` is written. -/
def afterMstatus (val : Word) : Hart Unit := ((Hart.zeroed megaBus).reset megaBus 0).written val .mstatus

theorem afterMstatus_moves {allowed : Hart Unit → Op Unit → Prop} {val : Word}
    (ha : allowed ((Hart.zeroed megaBus).reset megaBus 0) (.ctl (.csr .mstatus val))) :
    Reached allowed (afterMstatus val) :=
  ⟨_, _, _, .single ⟨_, ha, rfl⟩⟩

/-- With machine mode in the field, and data accessed at it, MRET comes back to machine mode. -/
theorem mpp_exists_machine :
    mppOf (afterMstatus 0x21800).mstatus ≠ 2 ∧ (afterMstatus 0x21800).dataPriv = (afterMstatus 0x21800).mret.priv := by
  have hkeeps : mppOf 0x21800 ≠ 2 := by decide
  have hmpp := ((mpp_exists (afterMstatus 0x21800)).1 (afterMstatus_moves hkeeps)).1
  exact ⟨hmpp, ((mpp_exists (afterMstatus 0x21800)).2 (by decide)).mpr hmpp⟩

/-- A write to `mstatus` stores the reserved encoding. Data is then accessed at that privilege, and MRET stays in
machine mode. -/
theorem reserved_mpp_stored :
    Reached (fun _ _ => True) (afterMstatus 0x21000) ∧ mppOf (afterMstatus 0x21000).mstatus = 2 ∧
      (afterMstatus 0x21000).mstatus &&& mstatusMprv ≠ 0 ∧ (afterMstatus 0x21000).dataPriv = 2 ∧
      (afterMstatus 0x21000).mret.priv = privM :=
  ⟨afterMstatus_moves trivial, by decide, by decide, by decide, by decide⟩

end Emu.Rv
