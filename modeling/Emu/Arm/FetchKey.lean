-- SUMMARY: Blocks under the MPU: what the key and the generation of a block keep of the permission to fetch it.
import Emu.Arm.Irq
import Emu.Lib.Generations

/-! # The permission to fetch a block

Every halfword of a block is probed when the block is built and never again: the block is entered later for its address
and its context, as long as `jit_gen` has not moved. The context has the privilege in it and `jit_gen` moves with the
registers of the MPU. The execution priority is in neither, and a negative one bypasses the MPU. -/

namespace Emu.Arm

namespace Nvic

/-! ## The verdict -/

variable (s : Nvic)

/-- `mpu_permits`. -/
def mpuPermits (addr : Word) (priv : Bool) (acc : Cpu.Acc) : Bool :=
  let byDefault := !(decide (acc = .fetch) && Cpu.defaultXn addr)
  if s.mpuCtrl &&& 1 = 0 ∨ (0xE0000000 ≤ addr ∧ addr < 0xE0100000) ∨
      (s.execPriority < 0 ∧ s.mpuCtrl &&& 2 = 0) then byDefault
  else match [7, 6, 5, 4, 3, 2, 1, 0].findSome? (Cpu.regionVerdict s.toScs · addr priv acc) with
    | some verdict => verdict
    | none => if priv = true ∧ s.mpuCtrl &&& 4 ≠ 0 then byDefault else false

/-- The MPU is enabled, and the priority takes it out. -/
def bypassed : Bool := decide (s.mpuCtrl &&& 1 ≠ 0 ∧ s.execPriority < 0 ∧ s.mpuCtrl &&& 2 = 0)

/-- The permission to fetch that the registers of the MPU give, bypassed or not. -/
def fetchUnder (bypassed priv : Bool) (addr : Word) : Bool :=
  if s.mpuCtrl &&& 1 = 0 ∨ (0xE0000000 ≤ addr ∧ addr < 0xE0100000) ∨ bypassed = true then !Cpu.defaultXn addr
  else match [7, 6, 5, 4, 3, 2, 1, 0].findSome? (Cpu.regionVerdict s.toScs · addr priv .fetch) with
    | some verdict => verdict
    | none => if priv = true ∧ s.mpuCtrl &&& 4 ≠ 0 then !Cpu.defaultXn addr else false

theorem mpuPermits_fetch (addr : Word) (priv : Bool) :
    s.mpuPermits addr priv .fetch = s.fetchUnder s.bypassed priv addr := by
  have hcond : (s.mpuCtrl &&& 1 = 0 ∨ (0xE0000000 ≤ addr ∧ addr < 0xE0100000) ∨
        (s.execPriority < 0 ∧ s.mpuCtrl &&& 2 = 0)) ↔
      (s.mpuCtrl &&& 1 = 0 ∨ (0xE0000000 ≤ addr ∧ addr < 0xE0100000) ∨ s.bypassed = true) := by
    rw [bypassed, decide_eq_true_iff]
    tauto
  simp only [mpuPermits, fetchUnder, hcond, decide_true, Bool.true_and]

/-! ## What moves the generation -/

/-- The registers of the MPU are as they were, and so is the generation. -/
structure MpuKept (s s' : Nvic) : Prop where
  gen : s'.jitGen = s.jitGen
  ctrl : s'.mpuCtrl = s.mpuCtrl
  rbar : s'.mpuRbar = s.mpuRbar
  rasr : s'.mpuRasr = s.mpuRasr

variable {s} {s' s'' : Nvic}

theorem MpuKept.refl (s : Nvic) : s.MpuKept s := ⟨rfl, rfl, rfl, rfl⟩

theorem MpuKept.trans (h : s.MpuKept s') (h' : s'.MpuKept s'') : s.MpuKept s'' :=
  ⟨h'.gen.trans h.gen, h'.ctrl.trans h.ctrl, h'.rbar.trans h.rbar, h'.rasr.trans h.rasr⟩

theorem MpuKept.foldl {α : Type} {f : Nvic → α → Nvic} (hf : ∀ s a, MpuKept s (f s a)) (l : List α) (s : Nvic) :
    s.MpuKept (l.foldl f s) := by
  induction l generalizing s with
  | nil => exact .refl s
  | cons a rest ih => exact (hf s a).trans (ih _)

/-- The permission is a function of what is kept. -/
theorem MpuKept.fetchUnder (h : s.MpuKept s') : s'.fetchUnder = s.fetchUnder := by
  have hregion (r : Nat) (addr : Word) (priv : Bool) (acc : Cpu.Acc) :
      Cpu.regionVerdict s'.toScs r addr priv acc = Cpu.regionVerdict s.toScs r addr priv acc := by
    unfold Cpu.regionVerdict
    rw [show s'.toScs.mpuRasr = s.toScs.mpuRasr from h.rasr, show s'.toScs.mpuRbar = s.toScs.mpuRbar from h.rbar]
  funext bypassed priv addr
  simp only [Nvic.fetchUnder, h.ctrl, hregion]

theorem mpuKept_setPending (exc : Nat) (on : Bool) : s.MpuKept (s.setPending exc on) := by
  unfold setPending pendingPut
  split_ifs <;> exact ⟨rfl, rfl, rfl, rfl⟩

theorem mpuKept_setIrq (source : Nat) (level : Bool) : s.MpuKept (s.setIrq source level) := by
  have hline : s.MpuKept { s with line := bitPut s.line source level } := ⟨rfl, rfl, rfl, rfl⟩
  unfold setIrq
  split_ifs
  · exact .refl s
  · exact hline.trans (mpuKept_setPending _ _)
  · exact hline

theorem mpuKept_deactivate (exc : Nat) : s.MpuKept (s.deactivate exc) := by
  unfold deactivate pendingPut
  dsimp only
  split_ifs <;> exact ⟨rfl, rfl, rfl, rfl⟩

theorem mpuKept_systickTurn : s.MpuKept s.systickTurn := by
  have hvalue (s : Nvic) (v : Word) : s.MpuKept (s.setSystickValue v) := ⟨rfl, rfl, rfl, rfl⟩
  have hflag (s : Nvic) : s.MpuKept { s with systickCountflag := true } := ⟨rfl, rfl, rfl, rfl⟩
  unfold systickTurn systickExpire
  split_ifs
  · exact hvalue _ _
  · exact (hvalue _ _).trans ((hflag _).trans (mpuKept_setPending _ _))
  · exact (hvalue _ _).trans (hflag _)
  · exact hvalue _ _

theorem mpuKept_a7Count (n : Word) : s.MpuKept (s.a7Count n) := by
  have hret (s : Nvic) : s.MpuKept (s.addRetired (n.setWidth 64)) := ⟨rfl, rfl, rfl, rfl⟩
  have hturns (k : Nat) : s.MpuKept (systickTurn^[k] s) := by
    induction k with
    | zero => exact .refl s
    | succ k ih =>
      rw [Function.iterate_succ_apply']
      exact ih.trans mpuKept_systickTurn
  rcases a7Count_cases (s := s) n with h | h
  · rw [h]
    exact hret s
  · rw [h]
    exact (hturns _).trans (hret _)

theorem mpuKept_byteWrite {off : Nat} {v : Byte} (h : s.byteWrite off v = some s') : s.MpuKept s' := by
  unfold byteWrite at h
  split at h
  · cases h
    split_ifs <;> exact ⟨rfl, rfl, rfl, rfl⟩
  · split_ifs at h
    cases h
    exact ⟨rfl, rfl, rfl, rfl⟩

theorem mpuKept_bytesWrite (r : Nat) (v : Word) : s.MpuKept (s.bytesWrite r v) := by
  refine .foldl (fun s i => ?_) _ _
  cases h : s.byteWrite (r + i) ((v >>> (8 * i)).setWidth 8) with
  | none => exact .refl s
  | some s' => exact mpuKept_byteWrite h

theorem mpuKept_scsBytesWrite (off : Nat) (val : Word) (is : List Nat) :
    s.MpuKept (scsBytesWrite off val is s).2 := by
  induction is generalizing s with
  | nil => exact .refl s
  | cons i rest ih =>
    rw [scsBytesWrite]
    cases h : s.byteWrite (off + i) ((val >>> (8 * i)).setWidth 8) with
    | none => exact .refl s
    | some s' => exact (mpuKept_byteWrite h).trans ih

/-- What may happen to the registers of the MPU: nothing, or the generation moves. -/
def MovesWith (s s' : Nvic) : Prop := s.MpuKept s' ∨ s'.jitGen = s.jitGen + 1

theorem movesWith_wordWrite (off : Nat) (v : Word) : s.MovesWith (s.wordWrite off v) := by
  unfold wordWrite
  dsimp only
  generalize regAt (off / 4 * 4) = reg
  cases reg
  case icsr =>
    refine .inl (.foldl (fun s b => ?_) _ _)
    split_ifs
    · exact mpuKept_setPending _ _
    · exact .refl s
  case shcsr =>
    have hbits : s.MpuKept { s with shcsr := v &&& 0x00070000 } := ⟨rfl, rfl, rfl, rfl⟩
    have hactive (s : Nvic) (p : Nat × Nat) : s.MpuKept (s.setActive p.1 (v.getLsbD p.2)) := ⟨rfl, rfl, rfl, rfl⟩
    exact .inl ((hbits.trans (.foldl hactive _ _)).trans (.foldl (fun s p => mpuKept_setPending _ _) _ _))
  case aircr =>
    refine .inl ?_
    dsimp only
    unfold aircrWrite
    split_ifs <;> exact ⟨rfl, rfl, rfl, rfl⟩
  case ccr =>
    dsimp only
    unfold ccrWrite
    dsimp only
    split_ifs
    · exact .inr rfl
    · exact .inl ⟨rfl, rfl, rfl, rfl⟩
  case mpuCtrl | mpuRasr => exact .inr rfl
  case mpuRbar =>
    refine .inr ?_
    dsimp only
    unfold mpuRegionWrite
    dsimp only
    split_ifs <;> rfl
  case stir =>
    refine .inl ?_
    dsimp only
    split_ifs
    · exact mpuKept_setPending _ _
    · exact .refl s
  case ispr bank | icpr bank =>
    refine .inl ?_
    dsimp only
    unfold irqBankWrite
    split_ifs
    · exact .refl s
    · refine .foldl (fun s i => ?_) _ _
      split_ifs
      · exact mpuKept_setPending _ _
      · exact .refl s
  case iser bank | icer bank =>
    refine .inl ?_
    dsimp only
    split_ifs <;> exact ⟨rfl, rfl, rfl, rfl⟩
  -- the others write registers that are not the MPU's, or bytes
  all_goals first
    | exact .inl ⟨rfl, rfl, rfl, rfl⟩
    | exact .inl (mpuKept_bytesWrite _ _)

theorem movesWith_scsWrite (off size : Nat) (priv : Bool) (val : Word) :
    s.MovesWith (s.scsWrite off size priv val).2 := by
  have hflag : s.MpuKept { s with irqMaybe := true } := ⟨rfl, rfl, rfl, rfl⟩
  unfold scsWrite
  dsimp only
  split_ifs
  · exact .inl hflag
  · rcases movesWith_wordWrite (s := { s with irqMaybe := true }) off val with hkept | hgen
    · exact .inl (hflag.trans hkept)
    · exact .inr hgen
  · exact .inl (hflag.trans (mpuKept_scsBytesWrite off val _))

theorem Op.movesWith {op : Op} (hop : op ≠ .reset) : s.MovesWith (op.run s) := by
  cases op with
  | pend exc on => exact .inl (mpuKept_setPending exc on)
  | line source level => exact .inl (mpuKept_setIrq source level)
  | read off size priv =>
    rcases scsRead_eq (s := s) off size priv with h | h
    · rw [Op.run, h]
      exact .inl (.refl s)
    · rw [Op.run, h]
      exact .inl ⟨rfl, rfl, rfl, rfl⟩
  | write off size priv v => exact movesWith_scsWrite off size priv v
  | taken exc => exact .inl ⟨rfl, rfl, rfl, rfl⟩
  | deactivate exc => exact .inl (mpuKept_deactivate exc)
  | masks primask faultmask basepri => exact .inl ⟨rfl, rfl, rfl, rfl⟩
  | status xpsr cfsr hfsr mmfar bfar fpccr fpcar state => exact .inl ⟨rfl, rfl, rfl, rfl⟩
  | retire =>
    have hone : s.retire = s.a7Count 1 := (a7Count_eq_iterate_retire s 1).symm
    rw [Op.run, hone]
    exact .inl (mpuKept_a7Count 1)
  | count n => exact .inl (mpuKept_a7Count n)
  | reset => exact absurd rfl hop

end Nvic

/-! ## Blocks -/

/-- What the dispatcher reads of the core. -/
structure Core where
  nvic : Nvic
  control : Word
  pc : Word

namespace Core

variable (c : Core)

/-- `armv7m_privileged`. -/
def privileged : Bool := c.nvic.handlerMode || decide (c.control &&& controlNpriv = 0)

/-- `armv7m_in_it`. -/
def inIt : Bool := decide ((((c.nvic.xpsr >>> 25) &&& 3) ||| (((c.nvic.xpsr >>> 10) &&& 0x3F) <<< 2)) &&& 0xF ≠ 0)

def ctxT : BitVec 64 := 1
def ctxIt : BitVec 64 := 2
def ctxHandler : BitVec 64 := 4
def ctxPriv : BitVec 64 := 8

/-- `armv7m_jit_ctx`. -/
def jitCtx : BitVec 64 :=
  (if c.nvic.xpsr &&& thumbBit ≠ 0 then ctxT else 0) ||| (if c.inIt then ctxIt else 0) |||
    (if c.nvic.handlerMode then ctxHandler else 0) ||| (if c.privileged then ctxPriv else 0)

/-- The privilege is in the context. -/
theorem getLsbD_jitCtx : c.jitCtx.getLsbD 3 = c.privileged := by
  have hother (p : Prop) [Decidable p] {bit : BitVec 64} (h : bit.getLsbD 3 = false) :
      (if p then bit else 0).getLsbD 3 = false := by
    split_ifs
    · exact h
    · rfl
  rw [jitCtx, BitVec.getLsbD_or, BitVec.getLsbD_or, BitVec.getLsbD_or, hother _ (by decide), hother _ (by decide),
    hother _ (by decide)]
  cases c.privileged <;> rfl

/-- The MPU's part of `armv7m_fetch_probe` and of `armv7m_mem_fetch16_checked`. -/
def fetchPermits (addr : Word) : Bool := c.nvic.mpuPermits addr c.privileged .fetch

/-- What `armv7m_ir_translate` asks before its first fetch. -/
def translates : Bool :=
  decide (c.jitCtx &&& ctxT ≠ 0) && decide (c.jitCtx &&& ctxIt = 0) &&
    !(decide (c.jitCtx &&& ctxHandler ≠ 0) && decide (c.pc &&& excReturnMask = excReturnMask))

/-- A block: the address and the context it is for, how many halfwords it was made of, and whether the MPU was bypassed
as they were probed. -/
structure Block where
  pc : Word
  context : BitVec 64
  halfwords : Nat
  bypassed : Bool
  deriving DecidableEq

/-- The address of a halfword of a block. -/
def Block.at (b : Block) (i : Nat) : Word := b.pc + BitVec.ofNat 32 (2 * i)

/-- The block the translator makes of so many halfwords. -/
def block (n : Nat) : Block := ⟨c.pc, c.jitCtx, n, c.nvic.bypassed⟩

/-- A reset. The address to go on from is the caller's. -/
def reset (pc : Word) : Core := ⟨c.nvic.resetState, 0, pc⟩

end Core

open Generations

/-- The core and the blocks of its code, behind `jit_gen`. -/
structure Translated where
  core : Core
  cache : Cache Core.Block 32

namespace Translated

open Core (Block)

/-- The generation check of `emu_jit_run`. -/
def check (m : Translated) : Translated := { m with cache := m.cache.check m.core.nvic.jitGen }

/-- What a core does between two looks. -/
def become (m : Translated) (core : Core) : Translated :=
  ⟨core, m.cache.moved m.core.nvic.jitGen core.nvic.jitGen⟩

/-- The dispatcher's lookup finds the block. -/
def Enters (m : Translated) (b : Block) : Prop :=
  b ∈ m.check.cache.entries ∧ b.pc = m.core.pc ∧ b.context = m.core.jitCtx

inductive Step : Translated → Translated → Prop where
  | op (m : Translated) (op : Nvic.Op) (h : op ≠ .reset) :
      Step m (m.become { m.core with nvic := op.run m.core.nvic })
  /-- CONTROL is written, or a branch taken. -/
  | move (m : Translated) (control pc : Word) : Step m (m.become { m.core with control, pc })
  /-- A reset flushes. -/
  | reset (m : Translated) (pc : Word) : Step m ⟨m.core.reset pc, m.cache.keep fun _ => false⟩
  /-- Blocks are invalidated, or make room. -/
  | drop (m : Translated) (p : Block → Bool) : Step m { m with cache := m.cache.keep p }
  | look (m : Translated) : Step m m.check
  /-- Every halfword of the block is probed. -/
  | translate {m : Translated} (h : m.core.translates = true) {n : Nat}
      (hprobe : ∀ i < n, m.core.fetchPermits ((m.core.block n).at i) = true) :
      Step m { m.check with cache := m.check.cache.add (m.core.block n) }

/-- A run from reset, before each step of which the generation moved fewer than 2³² times since the last look. -/
inductive Run : Translated → Prop where
  | start (c : Core) (pc : Word) : Run ⟨c.reset pc, .empty⟩
  | step {m m' : Translated} : Run m → m.cache.moves < 2 ^ 32 → Step m m' → Run m'

/-! ## Runs -/

/-- What the registers of the MPU say of the halfwords of a block is what it was built on. -/
def Good (c : Core) (b : Block) : Prop :=
  ∀ i < b.halfwords, c.nvic.fetchUnder b.bypassed (b.context.getLsbD 3) (b.at i) = true

abbrev Ok (m : Translated) : Prop := Valid (fun c : Core => c.nvic.jitGen) Good m.core m.cache

theorem fetchPermits_eq (c : Core) (addr : Word) :
    c.fetchPermits addr = c.nvic.fetchUnder c.nvic.bypassed (c.jitCtx.getLsbD 3) addr := by
  rw [Core.fetchPermits, Nvic.mpuPermits_fetch, Core.getLsbD_jitCtx]

variable {m m' : Translated} {b : Block}

theorem good_block {c : Core} {n : Nat} (h : ∀ i < n, c.fetchPermits ((c.block n).at i) = true) :
    Good c (c.block n) := by
  intro i hi
  have := h i hi
  rwa [fetchPermits_eq] at this

theorem Ok.become {c : Core} (h : m.Ok) (hc : m.core.nvic.MovesWith c.nvic) : (m.become c).Ok := by
  refine Valid.step h ?_
  rcases hc with hkept | hgen
  · refine .inl ⟨hkept.gen, fun b _ hgood i hi => ?_⟩
    rw [Translated.become, hkept.fetchUnder]
    exact hgood i hi
  · exact .inr ⟨by decide, hgen⟩

theorem Ok.check (h : m.Ok) (hm : m.cache.moves < 2 ^ 32) : m.check.Ok := Valid.check h hm

theorem Step.ok (h : Step m m') (hm : m.cache.moves < 2 ^ 32) (hok : m.Ok) : m'.Ok := by
  cases h with
  | op op hop => exact hok.become (Nvic.Op.movesWith hop)
  | move control pc => exact hok.become (.inl (.refl _))
  | reset pc =>
    -- the registers of the MPU change under the same generation, and no block is left
    have hnil : (m.cache.keep fun _ => false).entries = [] := List.filter_false _
    exact ⟨fun _ => hnil, hok.gen, fun _ b hb => absurd (hnil ▸ hb) List.not_mem_nil⟩
  | drop p => exact hok.keep p
  | look => exact hok.check hm
  | translate htr hprobe =>
    refine (hok.check hm).add ?_ (good_block hprobe)
    rw [Translated.check, check_seen]
    exact Option.some_ne_none _

theorem Run.ok (h : Run m) : m.Ok := by
  induction h with
  | start c pc => exact valid_empty _
  | step _ hm hstep ih => exact hstep.ok hm ih

/-- A block that is entered is right for the registers of the MPU and the privilege. -/
theorem Run.good (h : Run m) (hm : m.cache.moves < 2 ^ 32) (hb : m.Enters b) : Good m.core b :=
  (h.ok.check hm).good (check_moves _ _) b hb.1

/-- A core in privileged thread code whose MPU has one region, the code's. -/
def regioned : Translated :=
  let writes : List (Nat × Word) := [(0xD98, 0), (0xD9C, 0x08000000), (0xDA0, 0x03000027), (0xD94, 1)]
  writes.foldl (fun m w => m.become { m.core with nvic := (Nvic.Op.write w.1 4 true w.2).run m.core.nvic })
    ⟨(Core.mk Nvic.blank 0 0).reset 0x08000100, .empty⟩

/-- FAULTMASK is set or cleared. -/
def setFaultmask (m : Translated) (v : Word) : Translated :=
  m.become { m.core with nvic := (Nvic.Op.masks 0 v 0).run m.core.nvic }

/-- With FAULTMASK set it calls code outside the region, of which a block is made. -/
def called : Translated :=
  let m := (regioned.setFaultmask 1).become { (regioned.setFaultmask 1).core with control := 0, pc := 0x20000100 }
  { m.check with cache := m.check.cache.add (m.core.block 1) }

def outside : Block := ⟨0x20000100, Core.ctxT ||| Core.ctxPriv, 1, true⟩

theorem run_regioned : Run regioned := by
  have h0 : Run ⟨(Core.mk Nvic.blank 0 0).reset 0x08000100, .empty⟩ := .start _ _
  have h1 := h0.step (by decide) (.op _ (.write 0xD98 4 true 0) nofun)
  have h2 := h1.step (by decide +kernel) (.op _ (.write 0xD9C 4 true 0x08000000) nofun)
  have h3 := h2.step (by decide +kernel) (.op _ (.write 0xDA0 4 true 0x03000027) nofun)
  exact h3.step (by decide +kernel) (.op _ (.write 0xD94 4 true 1) nofun)

theorem run_called : Run called := by
  have h1 := run_regioned.step (by decide +kernel) (.op _ (.masks 0 1 0) nofun)
  have h2 := h1.step (by decide +kernel) (.move _ 0 0x20000100)
  exact h2.step (by decide +kernel) (.translate (by decide +kernel) (by decide +kernel))

theorem enters_called : called.Enters outside := by
  unfold Enters
  decide +kernel

end Translated

end Emu.Arm
