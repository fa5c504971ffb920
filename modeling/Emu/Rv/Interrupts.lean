-- SUMMARY: Interrupts of the hart: what is pending, what makes it so, and the flag that says to look again.
import Emu.Cpu
import Emu.Rv.Fence

/-! # Interrupts

Which interrupt is pending depends on six registers. It is worked out again only when a flag says that one of them may
have changed: the interpreter asks before each instruction and the dispatcher before each block it enters, but a block
linked to another is entered without asking. -/

namespace Emu.Rv

variable {δ : Type}

/-! ## Instructions and their traps -/

/-- The translator's fetch fails without a trap. -/
def MemOp.raises : MemOp → Bool
  | irFetch _ => false
  | _ => true

namespace Op

/-- One instruction, trap or other step. An access that fails is followed by its trap. -/
def retire (h : Hart δ) : Op δ → Option (Hart δ)
  | mem m =>
    if m.legal then
      match m.run h with
      | (.ok _, h') => some h'
      | (.error (e, tval), h') => some (if m.raises then h'.trap e.code tval else h')
    else none
  | ctl c => c.run h

def traps (h : Hart δ) : Op δ → Bool
  | mem m => m.raises && !(m.run h).1.isOk
  | ctl (.trap ..) => true
  | ctl _ => false

end Op

/-- How an access ends: well, in its trap, or not at all. -/
theorem Op.retire_mem {m : MemOp} {h h' : Hart δ} (hr : (Op.mem m).retire h = some h') :
    ((m.run h).1.isOk = true ∧ h' = (m.run h).2) ∨
      ((Op.mem m).traps h = true ∧ ∃ cause tval, h' = (m.run h).2.trap cause tval) ∨
      (m.raises = false ∧ (m.run h).1.isOk = false ∧ h' = (m.run h).2) := by
  rw [Op.retire] at hr
  rw [Op.traps]
  by_cases hl : m.legal = true
  · rw [if_pos hl] at hr
    rcases hm : m.run h with ⟨⟨e, tval⟩ | v, g⟩ <;> rw [hm] at hr <;> obtain rfl := Option.some.inj hr
    · cases m.raises with
      | true => exact .inr (.inl ⟨rfl, e.code, tval, rfl⟩)
      | false => exact .inr (.inr ⟨rfl, rfl, rfl⟩)
    · exact .inl ⟨rfl, rfl⟩
  · rw [if_neg hl] at hr
    cases hr

/-! ## The interrupts -/

/-- The interrupts of the hart, in their order of priority. -/
inductive Irq where
  | mExt | mSoft | mTimer | sExt | sSoft | sTimer | lcof
  deriving DecidableEq, Repr

/-- `RV_INT_*`. -/
def Irq.code : Irq → Word
  | mExt => 11
  | mSoft => 3
  | mTimer => 7
  | sExt => 9
  | sSoft => 1
  | sTimer => 5
  | lcof => 13

def Irq.bit (i : Irq) : Word := 1 <<< i.code.toNat

/-- `MIP_S_ALL`, which is `MIP_WMASK` and `MIDELEG_WMASK` too. -/
def mipSAll : Word := Irq.sSoft.bit ||| Irq.sTimer.bit ||| Irq.sExt.bit ||| Irq.lcof.bit

/-- `MIE_WMASK`. -/
def mieWmask : Word := Irq.mSoft.bit ||| Irq.mTimer.bit ||| Irq.mExt.bit ||| mipSAll

/-- `SIP_WMASK`. -/
def sipWmask : Word := Irq.sSoft.bit ||| Irq.lcof.bit

/-- A hart with its interrupt registers. -/
structure Core (δ : Type) where
  hart : Hart δ
  mip : Word
  mie : Word
  /-- Something a pending interrupt depends on may have changed. -/
  irqDirty : Bool
  state : RunState

namespace Core

/-- `rv_hart_pending_irq`. -/
def pendingIrq (c : Core δ) : Option Irq :=
  let active := c.mip &&& c.mie
  if active = 0 then none
  else if c.hart.priv = privM ∧ c.hart.mstatus &&& mstatusMie = 0 then none
  else
    let active :=
      if c.hart.priv = privM then active &&& ~~~c.hart.mideleg
      else if c.hart.priv = privS ∧ c.hart.mstatus &&& mstatusSie = 0 then active &&& ~~~c.hart.mideleg
      else active
    if active = 0 then none
    else if active &&& Irq.mExt.bit ≠ 0 then some .mExt
    else if active &&& Irq.mSoft.bit ≠ 0 then some .mSoft
    else if active &&& Irq.mTimer.bit ≠ 0 then some .mTimer
    else if active &&& Irq.sExt.bit ≠ 0 then some .sExt
    else if active &&& Irq.sSoft.bit ≠ 0 then some .sSoft
    else if active &&& Irq.sTimer.bit ≠ 0 then some .sTimer
    else some .lcof

/-- `rv_hart_set_irq`. -/
def setIrq (c : Core δ) (cause : Fin 32) (level : Bool) : Core δ :=
  let bit : Word := 1 <<< cause.val
  { c with mip := if level then c.mip ||| bit else c.mip &&& ~~~bit, irqDirty := true }

/-- `rv_hart_reset`. -/
def reset (h : Hart δ) (bus : Bus δ) (pc : Word) : Core δ where
  hart := h.reset bus pc
  mip := 0
  mie := 0
  irqDirty := true
  state := .running

/-! ## Instructions -/

/-- The control registers that bear on interrupts. -/
inductive Csr where
  | mstatus | sstatus | sie | sip | mideleg | mie | mip
  deriving DecidableEq, Repr

/-- `csr_min_priv`: bits 9:8 of the register's number. -/
def Csr.minPriv : Csr → Priv
  | sstatus | sie | sip => privS
  | mstatus | mideleg | mie | mip => privM

/-- `rv_csr_write`: `none` is an illegal instruction. -/
def csrWrite (c : Core δ) (csr : Csr) (val : Word) : Option (Core δ) :=
  if csr.minPriv > c.hart.priv then none
  else match csr with
    | .mstatus => (c.hart.csrWrite .mstatus val).map fun h => { c with hart := h, irqDirty := true }
    | .sstatus => (c.hart.csrWrite .sstatus val).map fun h => { c with hart := h, irqDirty := true }
    | .sie =>
      some { c with
        mie := (c.mie &&& ~~~c.hart.mideleg) ||| (val &&& c.hart.mideleg &&& mieWmask), irqDirty := true }
    | .sip =>
      some { c with
        mip := (c.mip &&& ~~~(c.hart.mideleg &&& sipWmask)) ||| (val &&& c.hart.mideleg &&& sipWmask)
        irqDirty := true }
    | .mideleg => some { c with hart := { c.hart with mideleg := val &&& mipSAll }, irqDirty := true }
    | .mie => some { c with mie := val &&& mieWmask, irqDirty := true }
    -- the one register of these whose write does not set the flag
    | .mip => some { c with mip := (c.mip &&& ~~~mipSAll) ||| (val &&& mipSAll) }

/-- An instruction, as far as interrupts depend on it. -/
inductive Insn (δ : Type) where
  | access (m : MemOp)
  /-- ECALL, EBREAK, or one that is illegal or misaligned. -/
  | exception (e : Exc) (tval : Word)
  | mret
  | sret
  | csr (r : Csr) (val : Word)
  | wfi
  /-- WRS.NTO. -/
  | wrsNto
  /-- Any other. -/
  | other (o : CtlOp δ)

/-- A step that touches nothing a pending interrupt depends on. -/
def Insn.quiet (h : Hart δ) : CtlOp δ → Bool
  | .fence | .fencePage _ | .dirtyFp | .trigger .. | .outside .. => true
  | .csr .satp _ | .csr (.pmpcfg _) _ | .csr (.pmpaddr _) _ => true
  | .plain p => p.mideleg = h.mideleg
  | .csr .mstatus _ | .csr .sstatus _ | .trap .. | .mret | .sret => false

/-- The instruction, where it is legal. -/
def exec (c : Core δ) : Insn δ → Option (Core δ)
  | .access m => ((Op.mem m).retire c.hart).map fun h => { c with hart := h }
  | .exception e tval => some { c with hart := c.hart.trap e.code tval }
  | .mret => if c.hart.priv = privM then some { c with hart := c.hart.mret, irqDirty := true } else none
  | .sret => if c.hart.sretLegal then some { c with hart := c.hart.sret, irqDirty := true } else none
  | .csr r val => c.csrWrite r val
  | .wfi =>
    if c.hart.priv = privU ∨ (c.hart.priv < privM ∧ c.hart.mstatus &&& mstatusTw ≠ 0) then none
    else some { c with state := .wfi }
  | .wrsNto =>
    if c.hart.resvValid = false then some c
    else if c.hart.priv < privM ∧ c.hart.mstatus &&& mstatusTw ≠ 0 then none
    else some { c with state := .wfi }
  | .other o => if Insn.quiet c.hart o then (o.run c.hart).map fun h => { c with hart := h } else none

/-! ## Steps -/

inductive Step (δ : Type) where
  /-- A device drives a line, the timer reaches its comparand, or a counter overflows. -/
  | line (cause : Fin 32) (level : Bool)
  /-- A parked hart resumes. -/
  | wake
  /-- The interpreter or the dispatcher looks, and takes an interrupt. -/
  | take
  /-- It has looked, if it had to, and starts an instruction or a block. -/
  | start
  /-- A block's exit goes straight into another block. -/
  | link
  | insn (i : Insn δ)

/-- The step, where it can happen. -/
def step (c : Core δ) : Step δ → Option (Core δ)
  | .line cause level => some (c.setIrq cause level)
  | .wake =>
    if c.state = .wfi ∧ c.mip &&& c.mie ≠ 0 then some { c with state := .running, irqDirty := true } else none
  | .take =>
    if c.state = .running ∧ c.irqDirty = true then
      c.pendingIrq.map fun i =>
        { c with hart := c.hart.trap (Hart.causeInterrupt ||| i.code) 0, irqDirty := false }
    else none
  | .start =>
    if c.state = .running then
      if c.irqDirty = true then
        if c.pendingIrq = none then some { c with irqDirty := false } else none
      else some c
    else none
  | .link => if c.state = .running then some c else none
  | .insn i => if c.state = .running then c.exec i else none

/-- The states a hart can reach from reset by steps that are `allowed`. -/
inductive Run (allowed : Core δ → Step δ → Prop) : Core δ → Prop where
  | reset (h : Hart δ) (bus : Bus δ) (pc : Word) : Run allowed (reset h bus pc)
  | step {c c' : Core δ} {s : Step δ} (hr : Run allowed c) (ha : allowed c s) (hs : c.step s = some c') :
      Run allowed c'

/-! ## What the flag misses -/

/-- The interrupts the mode the hart is in lets through. -/
def lets (c : Core δ) : Word :=
  if c.hart.priv = privM then if c.hart.mstatus &&& mstatusMie = 0 then 0 else ~~~c.hart.mideleg
  else if c.hart.priv = privS ∧ c.hart.mstatus &&& mstatusSie = 0 then ~~~c.hart.mideleg
  else BitVec.allOnes 32

/-- Unless the flag is up, no interrupt is pending. -/
def FlagRight (c : Core δ) : Prop :=
  c.irqDirty = false → c.pendingIrq = none

/-- A step after which the flag is right, and that starts nothing while an interrupt is pending. -/
def Step.Prompt (s : Step δ) (c' : Core δ) : Prop :=
  FlagRight c' ∧ match s with
    | start | link => c'.pendingIrq = none
    | _ => True

/-- What must not happen: a write to `mip` that sets an interrupt enabled and let through; an interrupt taken in
supervisor mode while another is left for machine mode; and a linked block entered with an interrupt pending. -/
def Step.Careful (c : Core δ) : Step δ → Prop
  | insn (.csr .mip val) => c.irqDirty = false → val &&& mipSAll &&& c.mie &&& c.lets = 0
  | take =>
    ∀ i, c.pendingIrq = some i → c.hart.trapToS (Hart.causeInterrupt ||| i.code) = true →
      c.mip &&& c.mie &&& ~~~c.hart.mideleg = 0
  | link => c.pendingIrq = none
  | _ => True

/-! ## What is pending -/

section Pending

variable {c c' : Core δ}

/-- The highest of the interrupts that are let through, in the one order there is. -/
def pick (active : Word) : Option Irq :=
  if active = 0 then none
  else if active &&& Irq.mExt.bit ≠ 0 then some .mExt
  else if active &&& Irq.mSoft.bit ≠ 0 then some .mSoft
  else if active &&& Irq.mTimer.bit ≠ 0 then some .mTimer
  else if active &&& Irq.sExt.bit ≠ 0 then some .sExt
  else if active &&& Irq.sSoft.bit ≠ 0 then some .sSoft
  else if active &&& Irq.sTimer.bit ≠ 0 then some .sTimer
  else some .lcof

theorem pick_eq_none_iff (active : Word) : pick active = none ↔ active = 0 := by
  rw [pick]
  split_ifs <;> simp_all

theorem pendingIrq_eq_pick (c : Core δ) : c.pendingIrq = pick (c.mip &&& c.mie &&& c.lets) := by
  rw [pendingIrq, lets]
  dsimp only
  by_cases h0 : c.mip &&& c.mie = 0
  · rw [if_pos h0, h0]
    exact ((pick_eq_none_iff _).mpr BitVec.zero_and).symm
  rw [if_neg h0]
  by_cases hM : c.hart.priv = privM
  · by_cases hmie : c.hart.mstatus &&& mstatusMie = 0
    · rw [if_pos ⟨hM, hmie⟩, if_pos hM, if_pos hmie]
      exact ((pick_eq_none_iff _).mpr BitVec.and_zero).symm
    · rw [if_neg fun h => hmie h.2, if_pos hM, if_pos hM, if_neg hmie]
      rfl
  · rw [if_neg fun h => hM h.1, if_neg hM, if_neg hM]
    by_cases hS : c.hart.priv = privS ∧ c.hart.mstatus &&& mstatusSie = 0
    · rw [if_pos hS, if_pos hS]
      rfl
    · rw [if_neg hS, if_neg hS, BitVec.and_allOnes]
      rfl

theorem pendingIrq_none_iff (c : Core δ) : c.pendingIrq = none ↔ c.mip &&& c.mie &&& c.lets = 0 := by
  rw [pendingIrq_eq_pick]
  exact pick_eq_none_iff _

/-- Fewer interrupts pending, enabled or let through. -/
theorem pendingIrq_none_of_le (h : c.pendingIrq = none) (hmip : c'.mip = c.mip) (hmie : c'.mie = c.mie)
    (hlets : c'.lets &&& c.lets = c'.lets) : c'.pendingIrq = none := by
  rw [pendingIrq_none_iff] at h ⊢
  rw [hmip, hmie, ← hlets, BitVec.and_comm c'.lets, ← BitVec.and_assoc, h]
  exact BitVec.zero_and

end Pending

/-! ## What accesses and traps change -/

/-- The registers that decide what is let through, and where a trap goes. -/
def SameMode (h₀ h : Hart δ) : Prop :=
  h.priv = h₀.priv ∧ h.mstatus = h₀.mstatus ∧ h.mideleg = h₀.mideleg ∧ h.medeleg = h₀.medeleg

theorem stable_sameMode (h₀ : Hart δ) : Stable (SameMode h₀) where
  translate h va acc hs := by
    obtain heq | ⟨leaf, -, -, -, heq⟩ := h.translate_cases va acc <;> rw [heq] <;> exact hs
  dtlbFill h va pa hs := by
    obtain heq | ⟨e, -, -, -, heq⟩ := h.dtlbFill_cases va pa <;> rw [heq] <;> exact hs
  itlbFill h va pa hs := by
    obtain heq | ⟨e, -, heq⟩ := h.itlbFill_cases va pa <;> rw [heq] <;> exact hs
  bus _ _ _ _ hs := hs
  unreserve _ hs := hs
  split _ _ _ _ hs := hs
  regs _ _ hs := hs

theorem trapValue_sameMode (h : Hart δ) (cause tval : Word) : SameMode h (h.trapValue cause tval).2 := by
  rw [Hart.trapValue]
  split
  · rw [Hart.illegalTval_state]
    exact (stable_sameMode h).translateActive.state ⟨rfl, rfl, rfl, rfl⟩
  · exact ⟨rfl, rfl, rfl, rfl⟩

theorem trapToS_congr {h₀ h : Hart δ} (hs : SameMode h₀ h) (cause : Word) : h.trapToS cause = h₀.trapToS cause := by
  obtain ⟨hp, -, hi, he⟩ := hs
  rw [Hart.trapToS, Hart.trapToS, hp, hi, he]

theorem and_clear (m : Word) {clear keep : Word} (hck : ~~~clear &&& keep = 0) : m &&& ~~~clear &&& keep = 0 := by
  rw [BitVec.and_assoc, hck]
  exact BitVec.and_zero

theorem enterS_mstatus (h : Hart δ) (cause tval : Word) : (h.enterS cause tval).mstatus &&& mstatusSie = 0 := by
  rw [Hart.enterS]
  dsimp only
  rw [BitVec.and_or_distrib_right, BitVec.and_or_distrib_right, and_clear _ (by decide)]
  split_ifs <;> decide

theorem enterM_mstatus (h : Hart δ) (cause tval : Word) : (h.enterM cause tval).mstatus &&& mstatusMie = 0 := by
  have hmpp : ∀ p : Priv, (p.setWidth 32 <<< mstatusMppShift) &&& mstatusMie = 0 := by decide
  rw [Hart.enterM]
  dsimp only
  rw [BitVec.and_or_distrib_right, BitVec.and_or_distrib_right, and_clear _ (by decide), hmpp]
  split_ifs <;> decide

/-- A trap into supervisor mode masks what is delegated to it. -/
theorem trap_toS {h : Hart δ} {cause : Word} (hto : h.trapToS cause = true) (tval : Word) :
    (h.trap cause tval).mideleg = h.mideleg ∧ (h.trap cause tval).priv = privS ∧
      (h.trap cause tval).mstatus &&& mstatusSie = 0 := by
  have hs := trapValue_sameMode h cause tval
  rw [← trapToS_congr hs] at hto
  simp only [Hart.trap, Hart.enterTrap, hto, if_true]
  exact ⟨hs.2.2.1, rfl, enterS_mstatus (h.trapValue cause tval).2 cause (h.trapValue cause tval).1⟩

/-- And one into machine mode everything. -/
theorem trap_toM {h : Hart δ} {cause : Word} (hto : h.trapToS cause = false) (tval : Word) :
    (h.trap cause tval).priv = privM ∧ (h.trap cause tval).mstatus &&& mstatusMie = 0 := by
  have hs := trapValue_sameMode h cause tval
  rw [← trapToS_congr hs] at hto
  simp only [Hart.trap, Hart.enterTrap, hto, Bool.false_eq_true, if_false]
  exact ⟨rfl, enterM_mstatus (h.trapValue cause tval).2 cause (h.trapValue cause tval).1⟩

section Steps

variable {c c' : Core δ} {h' : Hart δ}

theorem lets_toS {cause : Word} (hto : c.hart.trapToS cause = true) (tval : Word) :
    ({ c with hart := c.hart.trap cause tval } : Core δ).lets = ~~~c.hart.mideleg := by
  obtain ⟨hi, hp, hsie⟩ := trap_toS hto tval
  have hSM : privS ≠ privM := by decide
  simp only [lets, hi, hp, hsie, if_neg hSM, and_self, if_true]

theorem lets_toM {cause : Word} (hto : c.hart.trapToS cause = false) (tval : Word) :
    ({ c with hart := c.hart.trap cause tval } : Core δ).lets = 0 := by
  obtain ⟨hp, hmie⟩ := trap_toM hto tval
  simp only [lets, hp, hmie, if_true]

/-- What is left for machine mode is let through everywhere below it. -/
theorem lets_below (hp : c.hart.priv ≠ privM) : ~~~c.hart.mideleg &&& c.lets = ~~~c.hart.mideleg := by
  rw [lets, if_neg hp]
  split_ifs
  · exact BitVec.and_self
  · exact BitVec.and_allOnes

theorem priv_of_trapToS {cause : Word} (hto : c.hart.trapToS cause = true) : c.hart.priv ≠ privM := by
  intro hp
  rw [Hart.trapToS, hp, if_pos (by decide)] at hto
  cases hto

/-- A trap lets nothing more through. -/
theorem FlagRight.trap (hf : FlagRight c) (cause tval : Word) :
    FlagRight { c with hart := c.hart.trap cause tval } := by
  intro hd
  refine pendingIrq_none_of_le (hf hd) rfl rfl ?_
  cases hto : c.hart.trapToS cause with
  | true =>
    rw [lets_toS hto]
    exact lets_below (priv_of_trapToS hto)
  | false =>
    rw [lets_toM hto]
    exact BitVec.zero_and

/-- Nor does a step that leaves the mode and the enables as they are. -/
theorem FlagRight.sameLets (hf : FlagRight c) (hp : h'.priv = c.hart.priv) (hi : h'.mideleg = c.hart.mideleg)
    (hmie : h'.mstatus &&& mstatusMie = c.hart.mstatus &&& mstatusMie)
    (hsie : h'.mstatus &&& mstatusSie = c.hart.mstatus &&& mstatusSie) : FlagRight { c with hart := h' } := by
  intro hd
  refine pendingIrq_none_of_le (hf hd) rfl rfl ?_
  have hlets : ({ c with hart := h' } : Core δ).lets = c.lets := by
    simp only [lets, hp, hi, hmie, hsie]
  rw [hlets]
  exact BitVec.and_self

theorem FlagRight.sameMode (hf : FlagRight c) (hs : SameMode c.hart h') : FlagRight { c with hart := h' } :=
  hf.sameLets hs.1 hs.2.2.1 (by rw [hs.2.1]) (by rw [hs.2.1])

/-- The other steps are of that kind. -/
theorem FlagRight.quiet {o : CtlOp δ} (hf : FlagRight c) (hq : Insn.quiet c.hart o = true)
    (hr : o.run c.hart = some h') : FlagRight { c with hart := h' } := by
  cases o with
  | fence =>
    rw [CtlOp.run] at hr
    split_ifs at hr
    obtain rfl := Option.some.inj hr
    exact hf.sameLets rfl rfl rfl rfl
  | fencePage va =>
    rw [CtlOp.run] at hr
    split_ifs at hr
    obtain rfl := Option.some.inj hr
    unfold Hart.mmuFlushPage
    split
    · exact hf.sameLets rfl rfl rfl rfl
    · dsimp only
      split <;> exact hf.sameLets rfl rfl rfl rfl
  | csr r val =>
    cases r with
    | satp | pmpcfg i =>
      rw [CtlOp.run, Hart.csrWrite] at hr
      split_ifs at hr
      obtain rfl := Option.some.inj hr
      exact hf.sameLets rfl rfl rfl rfl
    | pmpaddr i =>
      rw [CtlOp.run, Hart.csrWrite] at hr
      split_ifs at hr <;> obtain rfl := Option.some.inj hr <;> exact hf.sameLets rfl rfl rfl rfl
    | mstatus | sstatus => cases hq
  | plain p =>
    obtain rfl := Option.some.inj hr
    exact hf.sameLets rfl (of_decide_eq_true hq) rfl rfl
  | dirtyFp =>
    obtain rfl := Option.some.inj hr
    have hfs (bit : Word) (hbit : mstatusFsMask &&& bit = 0) :
        (c.hart.mstatus ||| mstatusFsMask) &&& bit = c.hart.mstatus &&& bit := by
      rw [BitVec.and_or_distrib_right, hbit]
      exact BitVec.or_zero
    exact hf.sameLets rfl rfl (hfs _ (by decide)) (hfs _ (by decide))
  | trigger active check | outside mem dev =>
    obtain rfl := Option.some.inj hr
    exact hf.sameLets rfl rfl rfl rfl
  | trap cause tval => cases hq
  | mret => cases hq
  | sret => cases hq

theorem FlagRight.of_dirty (hd : c.irqDirty = true) : FlagRight c := by
  intro hno
  rw [hd] at hno
  cases hno

/-- A write to `mip` can set an interrupt that is enabled, let through, and not looked for. -/
theorem FlagRight.mip_iff (hf : FlagRight c) (val : Word) :
    FlagRight { c with mip := (c.mip &&& ~~~mipSAll) ||| (val &&& mipSAll) } ↔
      (c.irqDirty = false → val &&& mipSAll &&& c.mie &&& c.lets = 0) := by
  refine forall_congr' fun hd => ?_
  have hold := (pendingIrq_none_iff c).mp (hf hd)
  have hkept : c.mip &&& ~~~mipSAll &&& c.mie &&& c.lets = 0 := by
    have hcomm : c.mip &&& ~~~mipSAll &&& c.mie &&& c.lets = c.mip &&& c.mie &&& c.lets &&& ~~~mipSAll := by
      ext i hi
      simp only [BitVec.getElem_and, BitVec.getElem_not]
      grind
    rw [hcomm, hold]
    exact BitVec.zero_and
  rw [pendingIrq_none_iff]
  show ((c.mip &&& ~~~mipSAll) ||| (val &&& mipSAll)) &&& c.mie &&& c.lets = 0 ↔ _
  rw [BitVec.and_or_distrib_right, BitVec.and_or_distrib_right, hkept]
  exact iff_of_eq (congrArg (· = 0) BitVec.zero_or)

/-- An instruction leaves the flag right exactly if it is careful. -/
theorem FlagRight.exec_iff {i : Insn δ} (hf : FlagRight c) (he : c.exec i = some c') :
    FlagRight c' ↔ (Step.insn i).Careful c := by
  cases i with
  | access m =>
    refine iff_of_true ?_ trivial
    obtain ⟨h', hr, rfl⟩ := Option.map_eq_some_iff.mp he
    have hstate : SameMode c.hart (m.run c.hart).2 :=
      ((stable_sameMode c.hart).mem m fun _ _ _ hs => hs).state ⟨rfl, rfl, rfl, rfl⟩
    obtain ⟨-, rfl⟩ | ⟨-, cause, tval, rfl⟩ | ⟨-, -, rfl⟩ := Op.retire_mem hr
    · exact hf.sameMode hstate
    · exact (hf.sameMode hstate).trap cause tval
    · exact hf.sameMode hstate
  | exception e tval =>
    obtain rfl := Option.some.inj he
    exact iff_of_true (hf.trap e.code tval) trivial
  | mret | sret =>
    rw [exec] at he
    split_ifs at he
    obtain rfl := Option.some.inj he
    exact iff_of_true (.of_dirty rfl) trivial
  | csr r val =>
    rw [exec] at he
    unfold csrWrite at he
    split_ifs at he
    cases r with
    | mstatus | sstatus =>
      obtain ⟨h', -, rfl⟩ := Option.map_eq_some_iff.mp he
      exact iff_of_true (.of_dirty rfl) trivial
    | sie | sip | mideleg | mie =>
      obtain rfl := Option.some.inj he
      exact iff_of_true (.of_dirty rfl) trivial
    | mip =>
      obtain rfl := Option.some.inj he
      exact hf.mip_iff val
  | wfi =>
    rw [exec] at he
    split_ifs at he
    obtain rfl := Option.some.inj he
    exact iff_of_true hf trivial
  | wrsNto =>
    rw [exec] at he
    split_ifs at he <;> obtain rfl := Option.some.inj he <;> exact iff_of_true hf trivial
  | other o =>
    refine iff_of_true ?_ trivial
    rw [exec] at he
    split_ifs at he with hq
    obtain ⟨h', hr, rfl⟩ := Option.map_eq_some_iff.mp he
    exact hf.quiet hq hr

/-- Taking an interrupt leaves none pending, unless it is taken in supervisor mode and one is left for machine
mode. -/
theorem take_iff {i : Irq} (hi : c.pendingIrq = some i) :
    FlagRight { c with hart := c.hart.trap (Hart.causeInterrupt ||| i.code) 0, irqDirty := false } ↔
      (Step.take : Step δ).Careful c := by
  have hright : FlagRight { c with hart := c.hart.trap (Hart.causeInterrupt ||| i.code) 0, irqDirty := false } ↔
      c.mip &&& c.mie &&& ({ c with hart := c.hart.trap (Hart.causeInterrupt ||| i.code) 0 } : Core δ).lets = 0 :=
    (forall_prop_of_true rfl).trans (pendingIrq_none_iff _)
  have hcareful : (Step.take : Step δ).Careful c ↔
      (c.hart.trapToS (Hart.causeInterrupt ||| i.code) = true → c.mip &&& c.mie &&& ~~~c.hart.mideleg = 0) := by
    refine ⟨fun h => h i hi, fun h j hj => ?_⟩
    rw [hi] at hj
    obtain rfl := Option.some.inj hj
    exact h
  rw [hright, hcareful]
  cases hto : c.hart.trapToS (Hart.causeInterrupt ||| i.code) with
  | true =>
    rw [lets_toS hto]
    exact ⟨fun h _ => h, fun h => h rfl⟩
  | false =>
    rw [lets_toM hto]
    exact iff_of_true BitVec.and_zero fun h => by cases h

/-- A step is prompt exactly if it is careful. -/
theorem FlagRight.prompt_iff {s : Step δ} (hf : FlagRight c) (hs : c.step s = some c') :
    s.Prompt c' ↔ s.Careful c := by
  cases s with
  | line cause level =>
    obtain rfl := Option.some.inj hs
    exact iff_of_true ⟨.of_dirty rfl, trivial⟩ trivial
  | wake =>
    rw [step] at hs
    split_ifs at hs
    obtain rfl := Option.some.inj hs
    exact iff_of_true ⟨.of_dirty rfl, trivial⟩ trivial
  | take =>
    rw [step] at hs
    split_ifs at hs
    obtain ⟨i, hi, rfl⟩ := Option.map_eq_some_iff.mp hs
    exact (and_iff_left trivial).trans (take_iff hi)
  | start =>
    rw [step] at hs
    split_ifs at hs with hrun hd hnone <;> obtain rfl := Option.some.inj hs
    · exact iff_of_true ⟨fun _ => hnone, hnone⟩ trivial
    · have hnone := hf (by simpa using hd)
      exact iff_of_true ⟨hf, hnone⟩ trivial
  | link =>
    rw [step] at hs
    split_ifs at hs
    obtain rfl := Option.some.inj hs
    exact and_iff_right hf
  | insn i =>
    rw [step] at hs
    split_ifs at hs
    exact (and_iff_left trivial).trans (hf.exec_iff hs)

end Steps

theorem Run.flagRight {c : Core δ} (hr : Run Step.Careful c) : FlagRight c := by
  induction hr with
  | reset h bus pc => exact .of_dirty rfl
  | step hr ha hs ih => exact ((ih.prompt_iff hs).mpr ha).1

/-- In a run of careful steps no interrupt is pending unless the flag is up; and a step leaves it so, and starts
nothing while an interrupt is pending, exactly if it is careful. -/
theorem irq_prompt {c : Core δ} (hr : Run Step.Careful c) :
    (c.irqDirty = false → c.pendingIrq = none) ∧
      ∀ s c', c.step s = some c' → (s.Prompt c' ↔ s.Careful c) :=
  ⟨hr.flagRight, fun _ _ hs => hr.flagRight.prompt_iff hs⟩

/-! ## What goes wrong -/

/-- The steps one after the other, each where it can happen and is `allowed`. -/
def replay (allowed : Core δ → Step δ → Bool) (c : Core δ) : List (Step δ) → Option (Core δ)
  | [] => some c
  | s :: rest => if allowed c s then (c.step s).bind (replay allowed · rest) else none

theorem Run.of_replay {allowed : Core δ → Step δ → Bool} {P : Core δ → Step δ → Prop}
    (hP : ∀ c s, allowed c s = true → P c s) {c c' : Core δ} (hr : Run P c) {ss : List (Step δ)}
    (hss : replay allowed c ss = some c') : Run P c' := by
  induction ss generalizing c with
  | nil =>
    obtain rfl := Option.some.inj hss
    exact hr
  | cons s rest ih =>
    rw [replay] at hss
    split_ifs at hss with ha
    obtain ⟨d, hs, hrest⟩ := Option.bind_eq_some_iff.mp hss
    exact ih (hr.step (hP c s ha) hs) hrest

theorem replay_mono {allowed : Core δ → Step δ → Bool} {c c' : Core δ} {ss : List (Step δ)}
    (hss : replay allowed c ss = some c') : replay (fun _ _ => true) c ss = some c' := by
  induction ss generalizing c with
  | nil => exact hss
  | cons s rest ih =>
    rw [replay] at hss ⊢
    split_ifs at hss
    obtain ⟨d, hs, hrest⟩ := Option.bind_eq_some_iff.mp hss
    rw [if_pos rfl, hs]
    exact ih hrest

/-- The steps nothing is asked of. -/
def Step.plain : Step δ → Bool
  | insn (.csr .mip _) | take | link => false
  | _ => true

theorem Step.careful_of_plain {c : Core δ} {s : Step δ} (hp : s.plain = true) : s.Careful c := by
  cases s with
  | insn i =>
    cases i with
    | csr r val =>
      cases r with
      | mip => cases hp
      | _ => trivial
    | _ => trivial
  | take => cases hp
  | link => cases hp
  | _ => trivial

def coldCore : Core Unit := reset (.zeroed megaBus) megaBus 0x80000000

/-- Machine mode enables its own software interrupt and the supervisor's. -/
def enableSoft : List (Step Unit) :=
  [.start, .insn (.csr .mie 0xA), .insn (.csr .mstatus 8), .start]

/-- And delegates the supervisor's external one, before it goes to user mode with both of those raised. -/
def delegateExt : List (Step Unit) :=
  [.start, .insn (.csr .mideleg 0x200), .insn (.csr .mie 0x202), .insn .mret, .line 9 true, .line 1 true]

def coreAfter (ss : List (Step Unit)) : Core Unit :=
  (replay (fun _ _ => true) coldCore ss).getD coldCore

theorem coreAfter_run {P : Core Unit → Step Unit → Prop} {allowed : Core Unit → Step Unit → Bool}
    {ss : List (Step Unit)} (hP : ∀ c s, allowed c s = true → P c s)
    (hs : (replay allowed coldCore ss).isSome = true) : Run P (coreAfter ss) := by
  obtain ⟨c, hc⟩ := Option.isSome_iff_exists.mp hs
  have hrun : Run P c := Run.of_replay hP (.reset _ _ _) hc
  have hfree : replay (fun _ _ => true) coldCore ss = some c := replay_mono hc
  rwa [coreAfter, hfree, Option.getD_some]

/-- With both software interrupts enabled, a write to `mip` that sets neither is careful, and one that sets the
supervisor's is not. -/
theorem irq_prompt_enableSoft :
    (coreAfter enableSoft).irqDirty = false ∧ (coreAfter enableSoft).pendingIrq = none ∧
      (Step.insn (.csr .mip 0x220) : Step Unit).Careful (coreAfter enableSoft) ∧
      ¬ (Step.insn (.csr .mip 2) : Step Unit).Careful (coreAfter enableSoft) := by
  have hplain : ∀ (c : Core Unit) (s : Step Unit), s.plain = true → s.Careful c := fun _ _ => Step.careful_of_plain
  have hrun : Run Step.Careful (coreAfter enableSoft) := coreAfter_run hplain (by decide +kernel)
  obtain ⟨hnone, hstep⟩ := irq_prompt hrun
  have hd : (coreAfter enableSoft).irqDirty = false := by decide +kernel
  refine ⟨hd, hnone hd, (hstep _ _ rfl).mp ⟨fun _ => by decide +kernel, trivial⟩, fun hc => ?_⟩
  have hpending := ((hstep _ _ rfl).mpr hc).1 (by decide +kernel)
  revert hpending
  decide +kernel

/-- The flag is down and an interrupt is pending: after a write to `mip`, and after an interrupt taken in supervisor
mode with another left for machine mode. And a linked block is entered with an interrupt pending. -/
theorem irq_missed :
    (Run (fun _ _ => True) (coreAfter (enableSoft ++ [(.insn (.csr .mip 2) : Step Unit)])) ∧
      (coreAfter (enableSoft ++ [(.insn (.csr .mip 2) : Step Unit)])).irqDirty = false ∧
      (coreAfter (enableSoft ++ [(.insn (.csr .mip 2) : Step Unit)])).pendingIrq = some .sSoft) ∧
    (Run (fun _ _ => True) (coreAfter (delegateExt ++ [(.take : Step Unit)])) ∧
      (coreAfter (delegateExt ++ [(.take : Step Unit)])).irqDirty = false ∧
      (coreAfter (delegateExt ++ [(.take : Step Unit)])).pendingIrq = some .sSoft) ∧
    (Run (fun _ _ => True) (coreAfter (enableSoft ++ [(.line 3 true : Step Unit)])) ∧
      ((coreAfter (enableSoft ++ [(.line 3 true : Step Unit)])).step .link).isSome = true ∧
      (coreAfter (enableSoft ++ [(.line 3 true : Step Unit)])).pendingIrq = some .mSoft) := by
  have hany (ss : List (Step Unit)) (hs : (replay (fun _ _ => true) coldCore ss).isSome = true) :
      Run (fun _ _ => True) (coreAfter ss) := coreAfter_run (fun _ _ _ => trivial) hs
  refine ⟨⟨hany _ ?_, ?_⟩, ⟨hany _ ?_, ?_⟩, hany _ ?_, ?_⟩ <;> decide +kernel

end Core

end Emu.Rv
