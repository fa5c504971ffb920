-- SUMMARY: A locked PMP entry keeps its configuration, its address and the bytes it covers until reset.
import Emu.Rv.Modes

/-! # Locked entries

Four configuration bytes share a register, and a top-of-range entry begins at the address of the entry below. A locked
byte survives every write to its register, and a locked entry holds on to both addresses. -/

namespace Emu.Rv

variable {δ : Type} {h h' : Hart δ} {i : Nat} {cfg addr below : Word}

/-! ## The instructions that write control registers -/

inductive CsrForm where
  /-- CSRRW. -/
  | write
  /-- CSRRS. -/
  | set
  /-- CSRRC. -/
  | clear
  deriving DecidableEq, Repr

/-- The value an instruction writes, from the one it has read. -/
def CsrForm.value (old src : Word) : CsrForm → Word
  | write => src
  | set => old ||| src
  | clear => old &&& ~~~src

namespace Hart

/-- `mstatus_read`. -/
def mstatusRead (h : Hart δ) : Word :=
  if h.mstatus &&& mstatusFsMask = mstatusFsMask then h.mstatus ||| mstatusSd else h.mstatus &&& ~~~mstatusSd

/-- `SSTATUS_RMASK`. -/
def sstatusRmask : Word :=
  mstatusSie ||| mstatusSpie ||| mstatusSpp ||| mstatusSum ||| mstatusMxr ||| mstatusFsMask ||| mstatusSd

/-- `rv_csr_read`: `none` is an illegal instruction. -/
def csrRead (h : Hart δ) (c : Csr) : Option Word :=
  if c.minPriv > h.priv then none
  else match c with
    | .mstatus => some h.mstatusRead
    | .sstatus => some (h.mstatusRead &&& sstatusRmask)
    | .satp => if h.priv = privS ∧ h.mstatus &&& mstatusTvm ≠ 0 then none else some h.satp
    | .pmpcfg i => some (h.pmpcfg i)
    | .pmpaddr i => some (h.pmpaddr i)

/-- An instruction of the form, with a register or an immediate in the field `rs1`. -/
def csrInsn (h : Hart δ) (form : CsrForm) (imm : Bool) (c : Csr) (rd rs1 : BitVec 5) : Option (Hart δ) :=
  let src := if imm then rs1.setWidth 32 else h.x rs1
  -- CSRRW does not read for `x0`, and the other two do not write from it
  (if form = .write ∧ rd = 0 then some 0 else h.csrRead c).bind fun old =>
    (if form = .write ∨ rs1 ≠ 0 then h.csrWrite c (form.value old src) else some h).map fun h =>
      if rd = 0 then h else { h with x := Function.update h.x rd old }

end Hart

/-- A step of the guest, or one of these instructions. -/
inductive GuestStep (h h' : Hart δ) : Prop where
  | step (o : Op δ) (ho : o.run h = some h')
  | csr (form : CsrForm) (imm : Bool) (c : Hart.Csr) (rd rs1 : BitVec 5) (hc : h.csrInsn form imm c rd rs1 = some h')

/-- Such an instruction writes its register, or leaves the control registers alone. -/
theorem csrInsn_cases {form : CsrForm} {imm : Bool} {c : Hart.Csr} {rd rs1 : BitVec 5}
    (hc : h.csrInsn form imm c rd rs1 = some h') :
    ∃ h₁, (h₁ = h ∨ ∃ val, h.csrWrite c val = some h₁) ∧ h'.control = h₁.control := by
  simp only [Hart.csrInsn, Option.bind_eq_some_iff, Option.map_eq_some_iff] at hc
  obtain ⟨old, -, h₁, hw, rfl⟩ := hc
  refine ⟨h₁, ?_, ?_⟩
  · split at hw
    · exact .inr ⟨_, hw⟩
    · exact .inl (Option.some.inj hw).symm
  · split <;> rfl

theorem ControlInvariant.guestStep {P : Hart δ → Prop} (hP : ControlInvariant (fun _ _ => True) P)
    (hs : GuestStep h h') (hh : P h) : P h' := by
  cases hs with
  | step o ho => exact hP.step ⟨o, trivial, ho⟩ hh
  | csr form imm c rd rs1 hc =>
    obtain ⟨h₁, rfl | ⟨val, hw⟩, hcontrol⟩ := csrInsn_cases hc
    · exact hP.congr hcontrol hh
    · exact hP.congr hcontrol (hP.csr hh trivial hw)

/-! ## Bytes of a configuration register -/

/-- Byte `b` of a configuration register. -/
def cfgByte (w : Word) (b : Nat) : Word :=
  (w >>> (b * 8)) &&& 0xFF

theorem cfgByte_locked (w : Word) (b : Nat) : cfgByte w b &&& 0x80 = (w >>> (b * 8)) &&& 0x80 := by
  rw [cfgByte, BitVec.and_assoc]
  exact congrArg (_ &&& ·) (by decide)

theorem getLsbD_lowByte (k : Nat) : (0xFF : Word).getLsbD k = decide (k < 8) := by
  have hones : (0xFF : Word) = (BitVec.allOnes 8).setWidth 32 := by decide
  rw [hones, BitVec.getLsbD_setWidth, BitVec.getLsbD_allOnes]
  by_cases hk : k < 8
  · simp [hk, show k < 32 by omega]
  · simp [hk]

theorem getLsbD_cfgBits_of_le {k : Nat} (hk : 8 ≤ k) : (0x9F : Word).getLsbD k = false := by
  have hlow : (0x9F : Word) = 0x9F &&& 0xFF := by decide
  rw [hlow, BitVec.getLsbD_and, getLsbD_lowByte, decide_eq_false (Nat.not_lt.mpr hk), Bool.and_false]

/-- A write to one byte leaves the others alone. -/
theorem cfgByte_pmpcfgByte_ne {cur val : Word} {b b' : Nat} (hb : b ≠ b') :
    cfgByte (Hart.pmpcfgByte cur val b') b = cfgByte cur b := by
  rw [Hart.pmpcfgByte]
  split
  · rfl
  apply BitVec.eq_of_getLsbD_eq
  intro k _
  simp only [cfgByte, BitVec.getLsbD_and, BitVec.getLsbD_ushiftRight, BitVec.getLsbD_or, BitVec.getLsbD_not,
    BitVec.getLsbD_shiftLeft, getLsbD_lowByte]
  by_cases hk : k < 8
  · -- a bit of byte `b` lies below the eight that are replaced, or above them
    have hcur : 32 ≤ b * 8 + k → cur.getLsbD (b * 8 + k) = false := BitVec.getLsbD_of_ge cur (b * 8 + k)
    obtain hlt | hgt := Nat.lt_or_gt_of_ne hb
    · have hbelow : b * 8 + k < b' * 8 := by omega
      by_cases h32 : b * 8 + k < 32
      · simp [hbelow, h32]
      · simp [hbelow, hcur (Nat.le_of_not_lt h32)]
    · have habove : ¬ b * 8 + k - b' * 8 < 8 := by omega
      simp only [getLsbD_cfgBits_of_le (Nat.le_of_not_lt habove), Bool.and_false, Bool.or_false]
      by_cases h32 : b * 8 + k < 32
      · simp [habove, h32]
      · simp [hcur (Nat.le_of_not_lt h32)]
  · simp [hk]

theorem pmpcfgByte_of_locked {cur val : Word} {b : Nat} (hl : cfgByte cur b &&& 0x80 ≠ 0) :
    Hart.pmpcfgByte cur val b = cur := by
  rw [cfgByte_locked] at hl
  exact if_pos hl

/-- A locked byte survives a write to its register. -/
theorem cfgByte_foldl {val : Word} {b : Nat} {bs : List Nat} {cur : Word} (hl : cfgByte cur b &&& 0x80 ≠ 0) :
    cfgByte (bs.foldl (Hart.pmpcfgByte · val ·) cur) b = cfgByte cur b := by
  induction bs generalizing cur with
  | nil => rfl
  | cons b' bs ih =>
    have hstep : cfgByte (Hart.pmpcfgByte cur val b') b = cfgByte cur b := by
      by_cases hb : b = b'
      · rw [← hb, pmpcfgByte_of_locked hl]
      · exact cfgByte_pmpcfgByte_ne hb
    rw [List.foldl_cons, ih (by rwa [hstep]), hstep]

/-! ## Locked entries -/

/-- The entry is a top-of-range one. -/
def isTor (cfg : Word) : Prop :=
  (cfg &&& 0x18) >>> 3 = 1

/-- The entry has this configuration and address, and a top-of-range one begins at this address. -/
def EntryIs (i : Nat) (cfg addr below : Word) (h : Hart δ) : Prop :=
  h.pmpCfg i = cfg ∧ h.pmpaddr i = addr ∧ (isTor cfg → 0 < i → h.pmpaddr (i - 1) = below)

theorem entryIs_congr (hcfg : h'.pmpcfg = h.pmpcfg) (haddr : h'.pmpaddr = h.pmpaddr) (he : EntryIs i cfg addr below h) :
    EntryIs i cfg addr below h' := by
  rwa [EntryIs, Hart.pmpCfg_congr hcfg, haddr]

theorem entryIs_written (hi : i < pmpEntries) (hl : cfg &&& 0x80 ≠ 0) (he : EntryIs i cfg addr below h)
    (c : Hart.Csr) (val : Word) : EntryIs i cfg addr below (h.written val c) := by
  cases c with
  | mstatus => exact he
  | sstatus => exact he
  | satp => exact he
  | pmpcfg j =>
    refine ⟨?_, he.2⟩
    -- the register of the entry is written, or another one
    show cfgByte (Function.update h.pmpcfg j _ (i / 4)) (i % 4) = cfg
    by_cases hj : i / 4 = j
    · rw [hj, Function.update_self, ← hj]
      exact (cfgByte_foldl (by rw [← he.1] at hl; exact hl)).trans he.1
    · rw [Function.update_of_ne hj]
      exact he.1
  | pmpaddr j =>
    rw [Hart.written]
    split
    · exact he
    next hfree =>
      -- a register that may be written is neither of the two
      have hlock : h.pmpCfg i &&& 0x80 ≠ 0 := by rwa [he.1]
      have hown : i ≠ j := by
        intro hij
        apply hfree
        rw [Hart.pmpaddrLocked, ← hij, decide_eq_true hlock, Bool.true_or]
      refine ⟨he.1, (Function.update_of_ne hown ..).trans he.2.1, fun htor hpos => ?_⟩
      have hbelow : i - 1 ≠ j := by
        intro hij
        apply hfree
        have hi' : (j : Nat) + 1 = i := by omega
        rw [Hart.pmpaddrLocked, hi', decide_eq_true hlock, decide_eq_true hi, he.1, decide_eq_true (p := (cfg &&& 0x18) >>> 3 = 1) htor]
        simp
      exact (Function.update_of_ne hbelow ..).trans (he.2.2 htor hpos)

theorem entryIs_invariant (hi : i < pmpEntries) (hl : cfg &&& 0x80 ≠ 0) :
    ControlInvariant (fun _ _ => True) (EntryIs (δ := δ) i cfg addr below) where
  congr hc he := entryIs_congr (congrArg ControlRegs.pmpcfg hc) (congrArg ControlRegs.pmpaddr hc) he
  csr he _ hw := by
    rw [Hart.csrWrite_eq_written hw]
    exact entryIs_written hi hl he _ _
  enterTrap {h} cause tval he := by
    rw [Hart.enterTrap]
    split <;> exact he
  mret he := he
  sret he := he
  dirtyFp he := he
  trigger he _ := he

/-- The bytes an entry covers depend on nothing else. -/
theorem EntryIs.range (he : EntryIs i cfg addr below h) (he' : EntryIs i cfg addr below h') :
    h'.pmpRange i (h'.pmpCfg i) = h.pmpRange i (h.pmpCfg i) := by
  rw [he.1, he'.1, Hart.pmpRange, Hart.pmpRange, he.2.1, he'.2.1]
  by_cases htor : isTor cfg
  · by_cases hi : i = 0
    · rw [if_pos hi, if_pos hi]
    · have hpos := Nat.pos_of_ne_zero hi
      rw [if_neg hi, if_neg hi, he.2.2 htor hpos, he'.2.2 htor hpos]
  · have hne : ((cfg &&& pmpA) >>> 3).toNat ≠ 1 := fun h1 => htor (BitVec.eq_of_toNat_eq h1)
    generalize ((cfg &&& pmpA) >>> 3).toNat = mode at hne ⊢
    split
    · exact absurd rfl hne
    all_goals rfl

/-- Once an entry is locked, nothing the guest runs changes its configuration, its address, the address a top-of-range
one begins at, or the bytes it covers. -/
theorem locked_entry_kept (hr : Relation.ReflTransGen GuestStep h h') (hi : i < pmpEntries)
    (hl : h.pmpCfg i &&& pmpL ≠ 0) :
    h'.pmpCfg i = h.pmpCfg i ∧ h'.pmpaddr i = h.pmpaddr i ∧
      (isTor (h.pmpCfg i) → 0 < i → h'.pmpaddr (i - 1) = h.pmpaddr (i - 1)) ∧
      h'.pmpRange i (h'.pmpCfg i) = h.pmpRange i (h.pmpCfg i) := by
  have hstart : EntryIs i (h.pmpCfg i) (h.pmpaddr i) (h.pmpaddr (i - 1)) h := ⟨rfl, rfl, fun _ _ => rfl⟩
  have hend : EntryIs i (h.pmpCfg i) (h.pmpaddr i) (h.pmpaddr (i - 1)) h' := by
    induction hr with
    | refl => exact hstart
    | tail _ hs ih => exact (entryIs_invariant hi hl).guestStep hs ih
  exact ⟨hend.1, hend.2.1, hend.2.2, hstart.range hend⟩

/-- Entry 1 covers the first page and is locked; a write to its register reaches entry 0 only. -/
def lockedHart : Hart Unit :=
  { Hart.zeroed megaBus with
    priv := privM
    pmpcfg := Function.update (fun _ => 0) 0 0x8900
    pmpaddr := Function.update (fun _ => 0) 1 0x400 }

theorem locked_entry_kept_mixed :
    (lockedHart.written 0x0F0F (.pmpcfg 0)).pmpCfg 0 = 0x0F ∧ (lockedHart.written 0x0F0F (.pmpcfg 0)).pmpCfg 1 = 0x89 ∧
      (lockedHart.written 0x0F0F (.pmpcfg 0)).pmpRange 1 0x89 = some (0, 0x1000) := by
  have hrun : Relation.ReflTransGen GuestStep lockedHart (lockedHart.written 0x0F0F (.pmpcfg 0)) :=
    .single (.step (.ctl (.csr (.pmpcfg 0) 0x0F0F)) rfl)
  obtain ⟨hcfg, -, -, hrange⟩ := locked_entry_kept (i := 1) hrun (by decide) (by decide)
  have hlocked : lockedHart.pmpCfg 1 = 0x89 := by decide
  rw [hcfg, hlocked] at hrange
  exact ⟨by decide, hcfg.trans hlocked, hrange.trans (by decide)⟩

end Emu.Rv
