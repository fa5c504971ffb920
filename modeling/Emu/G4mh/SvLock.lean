-- SUMMARY: SVLOCK holds against every instruction: what the protection unit judges by cannot move while SVL is set.
import Emu.G4mh.Access
import Emu.G4mh.Insns

/-! # The supervisor lock

Two instructions reach what an access is judged by: LDSR, and LDM.MP past MPIDX's window. Both look at SVL. Everything else
leaves the protection unit, SPID and all of bank 1 alone (`Untouched`). SVL itself is a register of bank 1, which LDSR does not
reach in user mode. -/

namespace Emu.G4mh

/-! ## The unit -/

namespace Mpu

variable {m m' : Mpu}

/-- The same areas, identifiers and mode. -/
structure SameAreas (m m' : Mpu) : Prop where
  mpla : m'.mpla = m.mpla
  mpua : m'.mpua = m.mpua
  mpat : m'.mpat = m.mpat
  mpid : m'.mpid = m.mpid
  mpm : m'.mpm = m.mpm

theorem SameAreas.refl (m : Mpu) : SameAreas m m := ⟨rfl, rfl, rfl, rfl, rfl⟩

theorem SameAreas.isActive (h : SameAreas m m') : m'.isActive = m.isActive := by rw [Mpu.isActive, h.mpm, Mpu.isActive]

/-- Every access is judged as it was. -/
theorem SameAreas.permits (h : SameAreas m m') : m'.permits = m.permits := by
  funext addr size acc userMode spid
  rw [Mpu.permits, Mpu.permits]
  simp only [covers, spidPermits, h.mpla, h.mpua, h.mpat, h.mpid, h.mpm]

/-- The registers that SVL locks. -/
def Locked (reg : Nat) : Prop := reg = srMpm ∨ reg = srMpbk ∨ srMpla ≤ reg ∧ reg ≤ srMpat ∨ srMpid0 ≤ reg

/-- The others are the setting check's and MPIDX. -/
theorem sameAreas_srWrite {reg : Nat} (hreg : ¬Locked reg) {val : Word} (h : m.srWrite reg val = some m') :
    SameAreas m m' := by
  rw [Locked, not_or, not_or, not_or] at hreg
  obtain ⟨hmpm, -, harea, hmpid⟩ := hreg
  have hentry : ¬(reg = srMpla ∨ reg = srMpua ∨ reg = srMpat) := by
    rintro (rfl | rfl | rfl)
    · exact harea ⟨by decide, by decide⟩
    · exact harea ⟨by decide, by decide⟩
    · exact harea ⟨by decide, by decide⟩
  rw [srWrite, if_neg hmpm, if_neg hentry, dif_neg fun hboth => hmpid hboth.1] at h
  split_ifs at h
  all_goals
    obtain rfl := Option.some.inj h
    exact ⟨rfl, rfl, rfl, rfl, rfl⟩

theorem mpm_entryWrite (m : Mpu) (i : Fin 32) (reg : Nat) (val : Word) : (m.entryWrite i reg val).mpm = m.mpm := by
  rw [entryWrite]
  split_ifs <;> rfl

end Mpu

/-! ## What leaves it alone -/

namespace Cpu

variable {δ : Type} {c c' c'' : Cpu δ}

/-- The unit, SPID and the registers of bank 1 are as they were. -/
structure Untouched (c c' : Cpu δ) : Prop where
  mpu : c'.mpu = c.mpu
  active : c'.mpuActive = c.mpuActive
  spid : c'.spid = c.spid
  bank : c'.sr 1 = c.sr 1

theorem Untouched.refl (c : Cpu δ) : Untouched c c := ⟨rfl, rfl, rfl, rfl⟩

theorem Untouched.trans (h : Untouched c c') (h' : Untouched c' c'') : Untouched c c'' :=
  ⟨h'.mpu.trans h.mpu, h'.active.trans h.active, h'.spid.trans h.spid, h'.bank.trans h.bank⟩

theorem untouched_setSr (c : Cpu δ) {bank : Nat} (h : bank ≠ 1) (reg : Nat) (v : Word) : Untouched c (c.setSr bank reg v) :=
  ⟨rfl, rfl, rfl, Function.update_of_ne h.symm _ _⟩

theorem untouched_clearEimask (c : Cpu δ) : Untouched c c.clearEimask := by
  have hzero : (1 : Nat) ≠ 0 := by decide
  exact ⟨rfl, rfl, rfl, by simp only [clearEimask, setSr, Function.update_of_ne hzero]⟩

/-- A register of bank 2 that is stored. -/
theorem untouched_srStore (c : Cpu δ) (reg : Nat) (v : Word) : Untouched c (c.srStore selidInt reg v) := by
  rw [srStore, if_pos rfl]
  dsimp only
  generalize (if reg = srRbnr ∧ 16 < v then 16 else v) = v'
  have hset (c' : Cpu δ) : Untouched c' (c'.setSr selidInt reg v').setDirty :=
    { untouched_setSr c' (by decide : selidInt ≠ 1) reg v' with }
  split
  · exact (untouched_clearEimask c).trans (hset _)
  · exact hset c

theorem Accessed.untouched (h : Accessed c c') : Untouched c c' := by
  obtain ⟨b, v, -, rfl⟩ := h
  have hmea := untouched_setSr { c with bus := b } (by decide : 2 ≠ 1) srMea v
  exact ⟨hmea.mpu, hmea.active, hmea.spid, hmea.bank⟩

theorem untouched_exceptionTo (c : Cpu δ) (cause : Exc) (retPc handler : Word) :
    Untouched c (c.exceptionTo cause retPc handler) := by
  have hsave : Untouched c (c.saveContext cause retPc) := by
    rw [saveContext]
    have hzero : (0 : Nat) ≠ 1 := by decide
    split_ifs
    all_goals exact ⟨rfl, rfl, rfl, by simp only [setSr, Function.update_of_ne hzero.symm]⟩
  exact ⟨hsave.mpu, hsave.active, hsave.spid, hsave.bank⟩

theorem untouched_ackPriority (c : Cpu δ) (pri : Nat) : Untouched c (c.ackPriority pri) := by
  rw [ackPriority]
  split_ifs
  · exact ⟨rfl, rfl, rfl, rfl⟩
  · exact untouched_setSr c (by decide) _ _
  · exact .refl c

theorem untouched_eiretPriority (c : Cpu δ) : Untouched c c.eiretPriority := by
  rw [eiretPriority]
  dsimp only
  split_ifs
  · exact .refl c
  · exact .refl c
  · exact .refl c
  · exact untouched_setSr c (by decide) _ _

theorem untouched_takeFe {pc : Word} (h : c.takeFe pc = some c') : Untouched c c' := by
  rw [takeFe] at h
  split_ifs at h
  · obtain rfl := Option.some.inj h
    have hexc := untouched_exceptionTo { c with intc := c.intc.ackFenmi c.coreid } Exc.fenmi pc
    exact ⟨(hexc _).mpu, (hexc _).active, (hexc _).spid, (hexc _).bank⟩
  · obtain rfl := Option.some.inj h
    have hexc := untouched_exceptionTo { c with intc := c.intc.ackFe c.coreid } Exc.feint pc
    exact ⟨(hexc _).mpu, (hexc _).active, (hexc _).spid, (hexc _).bank⟩

theorem Prepared.untouched {ch pri : Nat} {pc : Word} (h : Prepared c ch pri pc c') : Untouched c c' := by
  cases h with
  | plain _ h => exact h.untouched
  | bank hbank _ hsave =>
    refine (accessed_irqVector c ch).untouched.trans ?_
    rcases bankSave_cases (c.irqVector ch).2 pc (Exc.eiintBase + BitVec.ofNat 32 ch) with ⟨e, c₂, heq, -⟩ | ⟨c₂, heq, hacc, -⟩
    · rw [heq] at hsave
      exact absurd (congrArg Prod.fst hsave) (by simp)
    · rw [heq] at hsave
      obtain rfl := congrArg Prod.snd hsave
      exact hacc.untouched.trans (untouched_setSr c₂ (by decide) srRbnr _)

theorem untouched_enterEiint (c : Cpu δ) (bank : Bool) (ch pri : Nat) (pc vec : Word) :
    Untouched c (c.enterEiint bank ch pri pc vec) := by
  have hexc := untouched_exceptionTo { c with intc := c.intc.ack c.coreid ch } (Exc.eiintBase + BitVec.ofNat 32 ch) pc vec
  rw [enterEiint]
  refine Untouched.trans ?_ (untouched_ackPriority _ pri)
  split_ifs
  · exact ⟨hexc.mpu, hexc.active, hexc.spid, hexc.bank⟩
  · exact ⟨hexc.mpu, hexc.active, hexc.spid, hexc.bank⟩

theorem untouched_takeEiint (c : Cpu δ) (ch pri : Nat) (pc : Word) : Untouched c (c.takeEiint ch pri pc) := by
  rw [takeEiint]
  split
  · next heq => exact (prepareEiint_error heq).untouched.trans (untouched_exceptionTo ..)
  · next heq => exact (prepareEiint_ok heq).untouched.trans (untouched_enterEiint ..)

theorem untouched_resbank (c : Cpu δ) : Untouched c c.resbank.2 := by
  have hloads := accessed_bankLoads (c.bankTop (c.bankNumber - 1)) (List.range c.bankLayout.1).reverse c
  rw [resbank]
  split
  · exact .refl c
  split
  · next heq =>
    rw [heq] at hloads
    exact hloads.untouched
  · next vs c₁ heq =>
    rw [heq] at hloads
    refine hloads.untouched.trans ?_
    rw [bankRestore_eq]
    have hzero : (1 : Nat) ≠ 0 := by decide
    have hint : (1 : Nat) ≠ selidInt := by decide
    exact ⟨rfl, rfl, rfl, by simp only [setSr, Function.update_of_ne hzero, Function.update_of_ne hint]⟩

theorem untouched_syscall (c : Cpu δ) (vec next : Word) : Untouched c (c.syscall vec next).2 := by
  have hload := accessed_loadSv c
    (if vec ≤ c.sr 1 srSccfg &&& 0xFF then c.sr 1 srScbp + vec <<< 2 else c.sr 1 srScbp)
  rw [syscall]
  split
  · next heq =>
    rw [heq] at hload
    exact hload.untouched
  · next heq =>
    rw [heq] at hload
    refine hload.untouched.trans ?_
    have hzero : (1 : Nat) ≠ 0 := by decide
    exact ⟨rfl, rfl, rfl, by simp only [setSr, Function.update_of_ne hzero]⟩

theorem untouched_diei (c : Cpu δ) (ei : Bool) (pc : Word) : Untouched c (c.diei ei pc) := by
  rw [diei]
  split_ifs
  · exact untouched_exceptionTo ..
  · exact ⟨rfl, rfl, rfl, rfl⟩
  · exact ⟨rfl, rfl, rfl, rfl⟩

theorem untouched_effects (effects : List (Effect δ)) (c : Cpu δ) : Untouched c (effects.foldl Effect.apply c) := by
  induction effects generalizing c with
  | nil => exact .refl c
  | cons e effects ih =>
    refine Untouched.trans ?_ (ih _)
    cases e with
    | sr s v =>
      refine untouched_setSr c ?_ s.reg v
      cases s <;> simp [PlainSr.bank, selidFxu, selidPm]
    | _ => exact ⟨rfl, rfl, rfl, rfl⟩

theorem untouched_stmMp (c : Cpu δ) (addr : Word) (eh et : Fin 32) : Untouched c (c.stmMp addr eh et).2 := by
  have hloop (ws : List (Fin 32 × Nat)) (adr : Word) (c : Cpu δ) : Untouched c (stmMpLoop ws adr c).2 := by
    induction ws generalizing adr c with
    | nil => exact .refl c
    | cons w ws ih =>
      have hstore := accessed_store c adr 4 (mpWord c.mpu w.1 w.2)
      rw [stmMpLoop]
      split
      · next heq =>
        rw [heq] at hstore
        exact hstore.untouched
      · next heq =>
        rw [heq] at hstore
        exact hstore.untouched.trans (ih _ _)
  rw [stmMp]
  split_ifs
  · exact .refl c
  · exact hloop ..

theorem untouched_retire (pc next : Word) {res : Except Exc Unit × Cpu δ} (h : Untouched c res.2) :
    Untouched c (retire pc next res) := by
  obtain ⟨res, c'⟩ := res
  cases res with
  | error e => exact Untouched.trans h (untouched_exceptionTo ..)
  | ok _ => exact h.trans ⟨rfl, rfl, rfl, rfl⟩

theorem untouched_svOnly {body : Cpu δ} (h : Untouched c body) : Untouched c (c.svOnly body) := by
  rw [svOnly]
  split_ifs
  · exact untouched_exceptionTo ..
  · exact h

/-- Every instruction but LDSR and LDM.MP, and every interrupt. -/
theorem untouched_exec (c : Cpu δ) {i : Insn δ} (hldsr : ∀ bank reg val next, i ≠ .ldsr bank reg val next)
    (hldm : ∀ addr eh et next, i ≠ .ldmMp addr eh et next) : Untouched c (c.exec i) := by
  cases i with
  | ldsr bank reg val next => exact absurd rfl (hldsr bank reg val next)
  | ldmMp addr eh et next => exact absurd rfl (hldm addr eh et next)
  | stmMp addr eh et next => exact untouched_retire _ _ (untouched_stmMp ..)
  | resbank next => exact untouched_svOnly (untouched_retire _ _ (untouched_resbank c))
  | eiret => exact untouched_svOnly ((untouched_eiretPriority c).trans ⟨rfl, rfl, rfl, rfl⟩)
  | feret => exact untouched_svOnly ⟨rfl, rfl, rfl, rfl⟩
  | ctret => exact ⟨rfl, rfl, rfl, rfl⟩
  | syscall vec next =>
    have hcall := c.untouched_syscall vec next
    rw [exec]
    split
    · next heq =>
      rw [heq] at hcall
      exact hcall.trans (untouched_exceptionTo ..)
    · next heq =>
      rw [heq] at hcall
      exact hcall
  | diei ei => exact untouched_diei ..
  | plain effects fault =>
    cases fault with
    | none => exact untouched_effects effects c
    | some e => exact (untouched_effects effects c).trans (untouched_exceptionTo ..)
  | takeFe =>
    rw [exec]
    cases h : c.takeFe c.pc with
    | none => exact .refl c
    | some c' => exact untouched_takeFe h
  | takeEiint ch pri => exact untouched_takeEiint ..

/-! ## The two that look at the lock -/

/-- What every access is judged by is as it was. -/
structure SameProtection (c c' : Cpu δ) : Prop where
  areas : Mpu.SameAreas c.mpu c'.mpu
  spid : c'.spid = c.spid
  spidReg : c'.sr 1 srSpid = c.sr 1 srSpid
  active : c'.mpuActive = c.mpuActive

theorem Untouched.sameProtection (h : Untouched c c') : SameProtection c c' where
  areas := h.mpu ▸ .refl c.mpu
  spid := h.spid
  spidReg := congrFun h.bank srSpid
  active := h.active

theorem SameProtection.trans (h : SameProtection c c') (h' : SameProtection c' c'') : SameProtection c c'' where
  areas := ⟨h'.areas.mpla.trans h.areas.mpla, h'.areas.mpua.trans h.areas.mpua, h'.areas.mpat.trans h.areas.mpat,
    h'.areas.mpid.trans h.areas.mpid, h'.areas.mpm.trans h.areas.mpm⟩
  spid := h'.spid.trans h.spid
  spidReg := h'.spidReg.trans h.spidReg
  active := h'.active.trans h.active

/-- The flag that the access paths test is MPM's. -/
def Synced (c : Cpu δ) : Prop := c.mpuActive = c.mpu.isActive

theorem Untouched.synced (h : Untouched c c') (hc : c.Synced) : c'.Synced := by
  rw [Synced, h.active, h.mpu]
  exact hc

theorem SameProtection.synced (h : SameProtection c c') (hc : c.Synced) : c'.Synced := by
  rw [Synced, h.active, h.areas.isActive]
  exact hc

/-- A register that is nothing but storage, and not SPID. -/
theorem sameProtection_setSr (c : Cpu δ) {bank reg : Nat} (h : ¬(bank = 1 ∧ reg = srSpid)) (v : Word) :
    SameProtection c (c.setSr bank reg v) where
  areas := .refl c.mpu
  spid := rfl
  spidReg := (sr_setSr ..).trans (if_neg fun heq => h ⟨heq.1.symm, heq.2.symm⟩)
  active := rfl

theorem sameProtection_srStore (c : Cpu δ) {bank reg : Nat} (h : ¬(bank = 1 ∧ reg = srSpid)) (v : Word) :
    SameProtection c (c.srStore bank reg v) := by
  by_cases hint : bank = selidInt
  · subst hint
    exact (untouched_srStore c reg v).sameProtection
  · rw [srStore, if_neg hint]
    exact sameProtection_setSr c h v

theorem fpWindow_ne_one {bank reg backing : Nat} (h : fpWindow bank reg = some backing) : bank ≠ 1 := by
  rintro rfl
  simp [fpWindow, selidFxu] at h

/-- LDSR keeps the flag in step with MPM, and while SVL is set keeps the protection. -/
theorem srWrite_protection (c : Cpu δ) (hc : c.Synced) (bank reg : Nat) (val : Word) :
    (c.srWrite bank reg val).Synced ∧ (c.svl = true → SameProtection c (c.srWrite bank reg val)) := by
  have hkept {c' : Cpu δ} (h : SameProtection c c') : c'.Synced ∧ (c.svl = true → SameProtection c c') :=
    ⟨h.synced hc, fun _ => h⟩
  rw [srWrite]
  dsimp only
  split
  · exact hkept (Untouched.refl c).sameProtection
  split
  · exact hkept { (Untouched.refl c).sameProtection with }
  split
  · exact hkept (Untouched.refl c).sameProtection
  next hlocked =>
  have hopen (hreg : bank = 1 ∧ reg = srSpid ∨ bank = selidMpu ∧ Mpu.Locked reg) : c.svl ≠ true := fun hsvl =>
    hlocked (Bool.and_eq_true_iff.mpr ⟨hsvl, decide_eq_true hreg⟩)
  split
  · next hspid => exact ⟨hc, fun hsvl => absurd hsvl (hopen (.inl hspid))⟩
  next hspid =>
  split
  · exact hkept (Untouched.refl c).sameProtection
  split
  · exact hkept (sameProtection_setSr c (by decide) _)
  split
  · next mpu hmpu =>
    split at hmpu
    · next hbank =>
      refine ⟨rfl, fun hsvl => ?_⟩
      have hareas := Mpu.sameAreas_srWrite (fun hreg => hopen (.inr ⟨hbank, hreg⟩) hsvl) hmpu
      exact { areas := hareas, spid := rfl, spidReg := rfl, active := hareas.isActive.trans hc.symm }
    · exact absurd hmpu (by simp)
  split
  · next hwindow => exact hkept (sameProtection_setSr c (fun hboth => fpWindow_ne_one hwindow hboth.1) _)
  · exact hkept (sameProtection_srStore c hspid _)

/-- LDM.MP writes entries only, and none while SVL is set. -/
theorem ldmMp_protection (c : Cpu δ) (hc : c.Synced) (addr : Word) (eh et : Fin 32) :
    (c.ldmMp addr eh et).2.Synced ∧ (c.ldmMp addr eh et).2.sr 1 = c.sr 1 ∧
      (c.svl = true → SameProtection c (c.ldmMp addr eh et).2) := by
  have hloop (locked : Bool) (ws : List (Fin 32 × Nat)) (adr : Word) (c : Cpu δ) (hc : c.Synced) :
      (ldmMpLoop locked ws adr c).2.Synced ∧ (ldmMpLoop locked ws adr c).2.sr 1 = c.sr 1 ∧
        (locked = true → SameProtection c (ldmMpLoop locked ws adr c).2) := by
    induction ws generalizing adr c with
    | nil => exact ⟨hc, rfl, fun _ => (Untouched.refl c).sameProtection⟩
    | cons w ws ih =>
      have hload := accessed_load c adr 4 false
      rw [ldmMpLoop]
      split
      · next heq =>
        rw [heq] at hload
        exact ⟨hload.untouched.synced hc, hload.untouched.bank, fun _ => hload.untouched.sameProtection⟩
      · next v c' heq =>
        rw [heq] at hload
        cases locked with
        | true =>
          obtain ⟨hsync, hbank, hsame⟩ := ih (adr + 4) c' (hload.untouched.synced hc)
          exact ⟨hsync, hbank.trans hload.untouched.bank, fun h => hload.untouched.sameProtection.trans (hsame h)⟩
        | false =>
          have hentry : ({ c' with mpu := c'.mpu.entryWrite w.1 w.2 v } : Cpu δ).Synced := by
            have hsync := hload.untouched.synced hc
            rw [Synced, Mpu.isActive] at hsync ⊢
            rw [Mpu.mpm_entryWrite]
            exact hsync
          obtain ⟨hsync, hbank, -⟩ := ih (adr + 4) _ hentry
          exact ⟨hsync, hbank.trans hload.untouched.bank, fun h => absurd h Bool.false_ne_true⟩
  rw [ldmMp]
  split_ifs
  · exact ⟨hc, rfl, fun _ => (Untouched.refl c).sameProtection⟩
  · exact hloop _ _ _ c hc

/-! ## Every instruction -/

theorem exec_protection (c : Cpu δ) (hc : c.Synced) (i : Insn δ) :
    (c.exec i).Synced ∧ (c.svl = true → SameProtection c (c.exec i)) := by
  have hrest (h : Untouched c (c.exec i)) : (c.exec i).Synced ∧ (c.svl = true → SameProtection c (c.exec i)) :=
    ⟨h.synced hc, fun _ => h.sameProtection⟩
  cases i with
  | ldsr bank reg val next =>
    rw [exec, ldsr]
    cases c.srAccess bank reg true with
    | some e => exact ⟨(untouched_exceptionTo ..).synced hc, fun _ => (untouched_exceptionTo ..).sameProtection⟩
    | none =>
      obtain ⟨hsync, hsame⟩ := c.srWrite_protection hc bank reg
        (if bank = 0 ∧ reg = srPsw ∧ c.userMode = true then (c.psw &&& ~~~0x1F) ||| (val &&& 0x1F) else val)
      exact ⟨hsync, fun hsvl => { hsame hsvl with }⟩
  | ldmMp addr eh et next =>
    obtain ⟨hsync, -, hsame⟩ := c.ldmMp_protection hc addr eh et
    have hretire := untouched_retire c.pc next (Untouched.refl (c.ldmMp addr eh et).2)
    exact ⟨hretire.synced hsync, fun hsvl => (hsame hsvl).trans hretire.sameProtection⟩
  | _ => exact hrest (untouched_exec c (by simp) (by simp))

theorem synced_runInsns (c : Cpu δ) (hc : c.Synced) (is : List (Insn δ)) : (c.runInsns is).Synced := by
  induction is generalizing c with
  | nil => exact hc
  | cons i is ih => exact ih (c.exec i) (c.exec_protection hc i).1

theorem synced_reset (c : Cpu δ) (pc : Word) : (c.reset pc).Synced := by
  change false = Mpu.mpuReset.isActive
  decide

/-- User mode does not reach bank 1. -/
theorem ldsr_user (huser : c.userMode = true) (reg : Nat) (val : Word) : c.ldsr 1 reg val = .error Exc.pie := by
  have haccess : c.srAccess 1 reg true = some Exc.pie := by
    rw [srAccess, huser]
    rfl
  rw [ldsr, haccess]

theorem srWrite_bank_one (c : Cpu δ) {bank : Nat} (h : bank ≠ 1) (reg : Nat) (val : Word) :
    (c.srWrite bank reg val).sr 1 = c.sr 1 := by
  have hset (c' : Cpu δ) (reg : Nat) (v : Word) : (c'.setSr bank reg v).sr 1 = c'.sr 1 := (untouched_setSr c' h reg v).bank
  rw [srWrite]
  dsimp only
  split
  · rfl
  split
  · rfl
  split
  · rfl
  split
  · next hspid => exact absurd hspid.1 h
  split
  · rfl
  split
  · next hsvlock => exact absurd hsvlock.1 h
  split
  · rfl
  split
  · exact hset ..
  · by_cases hint : bank = selidInt
    · subst hint
      exact (untouched_srStore c reg _).bank
    · rw [srStore, if_neg hint]
      exact hset ..

/-- No instruction of user mode, and no interrupt, changes SVL. -/
theorem svlock_user (huser : c.userMode = true) (i : Insn δ) : (c.exec i).sr 1 srSvlock = c.sr 1 srSvlock := by
  cases i with
  | ldsr bank reg val next =>
    by_cases hbank : bank = 1
    · subst hbank
      rw [exec, ldsr_user huser]
      exact congrFun (untouched_exceptionTo ..).bank srSvlock
    · rw [exec, ldsr]
      cases c.srAccess bank reg true with
      | some e => exact congrFun (untouched_exceptionTo ..).bank srSvlock
      | none => exact congrFun (c.srWrite_bank_one hbank reg _) srSvlock
  | ldmMp addr eh et next =>
    rw [exec, ldmMp, if_pos huser]
    exact congrFun (untouched_exceptionTo ..).bank srSvlock
  | _ => exact congrFun (untouched_exec c (by simp) (by simp)).bank srSvlock

/-- From reset on, through any instructions and interrupts: as long as SVL is set, the protection is what it was, with it
whether the unit is on and every judgement of it; and in user mode SVL stays what it is. -/
theorem locked_protection (c₀ : Cpu δ) (pc : Word) (before during : List (Insn δ))
    (hlocked : ∀ k < during.length, (((c₀.reset pc).runInsns before).runInsns (during.take k)).svl = true) :
    let c := (c₀.reset pc).runInsns before
    let c' := c.runInsns during
    SameProtection c c' ∧ c'.mpuActive = c.mpuActive ∧ c'.mpu.permits = c.mpu.permits ∧
      ∀ c : Cpu δ, c.userMode = true → ∀ i, (c.exec i).sr 1 srSvlock = c.sr 1 srSvlock := by
  intro c c'
  have hsync : c.Synced := synced_runInsns _ (synced_reset c₀ pc) before
  have hrun (is : List (Insn δ)) {c : Cpu δ} (hsync : c.Synced)
      (hlocked : ∀ k < is.length, (c.runInsns (is.take k)).svl = true) : SameProtection c (c.runInsns is) := by
    induction is generalizing c with
    | nil => exact (Untouched.refl c).sameProtection
    | cons i is ih =>
      obtain ⟨hsync', hsame⟩ := c.exec_protection hsync i
      refine (hsame (hlocked 0 (Nat.succ_pos _))).trans (ih hsync' fun k hk => ?_)
      exact hlocked (k + 1) (Nat.succ_lt_succ hk)
  have hsame : SameProtection c c' := hrun during hsync hlocked
  exact ⟨hsame, hsame.active, hsame.areas.permits, fun _ huser i => svlock_user huser i⟩

/-- The lock set, and then the unit turned on, an entry written through MPIDX, and entries loaded: none of it takes. -/
theorem locked_protection_fresh :
    let c := (((fresh []).reset 0).runInsns [.ldsr 1 srSvlock 1 4])
    let during := [.ldsr selidMpu Mpu.srMpm 3 8, .ldsr selidMpu Mpu.srMpidx 5 12, .ldsr selidMpu Mpu.srMpat 0xBF 16,
      .ldmMp 0 0 31 20]
    c.svl = true ∧ c.userMode = false ∧ SameProtection c (c.runInsns during) ∧ (c.runInsns during).mpuActive = false := by
  obtain ⟨hsame, hactive, -, -⟩ := locked_protection (fresh []) 0 [.ldsr 1 srSvlock 1 4]
    [.ldsr selidMpu Mpu.srMpm 3 8, .ldsr selidMpu Mpu.srMpidx 5 12, .ldsr selidMpu Mpu.srMpat 0xBF 16, .ldmMp 0 0 31 20]
    (by decide +kernel)
  exact ⟨by decide +kernel, by decide +kernel, hsame, hactive⟩

end Cpu

end Emu.G4mh
