-- SUMMARY: What accesses, exceptions, returns and the acceptance of an interrupt leave of the core.
import Mathlib
import Emu.Bus.Guest
import Emu.G4mh.Cpu

/-! # What an access leaves

An access changes what is behind the bus and, where it faults, MEA. So do the reads and writes that an acceptance is made
of before the controller is answered; with a bank saved, RBNR is one up as well. -/

namespace Emu.G4mh.Cpu

variable {δ : Type} {c c' c'' : Cpu δ}

/-- The core is as it was, but for what is behind the bus and for MEA. -/
def Accessed (c c' : Cpu δ) : Prop :=
  ∃ b mea, b.regions = c.bus.regions ∧ c' = ({ c with bus := b } : Cpu δ).setSr 2 srMea mea

theorem Accessed.refl (c : Cpu δ) : Accessed c c := ⟨c.bus, c.sr 2 srMea, rfl, (c.setSr_self 2 srMea).symm⟩

theorem Accessed.ofBus {b : Bus δ} (h : b.regions = c.bus.regions) : Accessed c { c with bus := b } :=
  ⟨b, c.sr 2 srMea, h, (setSr_self { c with bus := b } 2 srMea).symm⟩

theorem Accessed.mea {b : Bus δ} (h : b.regions = c.bus.regions) (v : Word) :
    Accessed c (({ c with bus := b } : Cpu δ).setSr 2 srMea v) := ⟨b, v, h, rfl⟩

theorem Accessed.trans (h : Accessed c c') (h' : Accessed c' c'') : Accessed c c'' := by
  obtain ⟨b, v, hb, rfl⟩ := h
  obtain ⟨b', v', hb', rfl⟩ := h'
  exact ⟨b', v', hb'.trans hb, setSr_setSr { c with bus := b' } 2 srMea v v'⟩

theorem Accessed.sr {bank reg : Nat} (h : Accessed c c') (hne : ¬(bank = 2 ∧ reg = srMea)) :
    c'.sr bank reg = c.sr bank reg := by
  obtain ⟨b, v, -, rfl⟩ := h
  rw [sr_setSr, if_neg hne]

theorem Accessed.psw (h : Accessed c c') : c'.psw = c.psw := by
  obtain ⟨b, v, -, rfl⟩ := h
  rfl

theorem Accessed.intc (h : Accessed c c') : c'.intc = c.intc := by
  obtain ⟨b, v, -, rfl⟩ := h
  rfl

theorem Accessed.coreid (h : Accessed c c') : c'.coreid = c.coreid := by
  obtain ⟨b, v, -, rfl⟩ := h
  rfl

theorem accessed_load (c : Cpu δ) (addr : Word) (size : Nat) (signExtend : Bool) :
    Accessed c (c.load addr size signExtend).2 := by
  have hregions : (c.bus.read addr size).2.regions = c.bus.regions := Bus.read_regions
  rw [load]
  split
  · exact .mea rfl addr
  split
  · exact .mea rfl addr
  split
  · next heq =>
    rw [heq] at hregions
    exact .mea hregions addr
  · next heq =>
    rw [heq] at hregions
    exact .ofBus hregions

theorem accessed_store (c : Cpu δ) (addr : Word) (size : Nat) (val : Word) :
    Accessed c (c.store addr size val).2 := by
  have hregions : (c.bus.write addr size val).2.regions = c.bus.regions := Bus.write_regions val
  rw [store]
  split
  · exact .mea rfl addr
  split
  · exact .mea rfl addr
  split
  · next heq =>
    rw [heq] at hregions
    exact .mea hregions addr
  · next heq =>
    rw [heq] at hregions
    exact .ofBus hregions

/-- As supervisor an access leaves what it leaves otherwise. -/
theorem accessed_asSv {α : Type} (c : Cpu δ) {access : Cpu δ → Except Exc α × Cpu δ}
    (h : ∀ c, Accessed c (access c).2) : Accessed c (c.asSv access).2 := by
  obtain ⟨b, v, hb, heq⟩ := h { c with psw := c.psw &&& ~~~pswUm }
  refine ⟨b, v, hb, ?_⟩
  rw [asSv, heq]
  rfl

theorem accessed_loadSv (c : Cpu δ) (addr : Word) : Accessed c (c.loadSv addr).2 :=
  accessed_asSv c fun c => accessed_load c addr 4 false

theorem accessed_storeSv (c : Cpu δ) (addr val : Word) : Accessed c (c.storeSv addr val).2 :=
  accessed_asSv c fun c => accessed_store c addr 4 val

theorem accessed_bankStores (pc cause top : Word) (words : Nat) (ks : List Nat) (c : Cpu δ) :
    Accessed c (bankStores pc cause top words ks c).2 := by
  induction ks generalizing c with
  | nil => exact .refl c
  | cons k ks ih =>
    rw [bankStores]
    have hstore := accessed_storeSv c (bankAddr top k) (c.bankWord pc cause words k)
    split
    · next heq =>
      rw [heq] at hstore
      exact hstore
    · next heq =>
      rw [heq] at hstore
      exact hstore.trans (ih _)

/-- A save that faults leaves RBNR too; one that does not counts the bank. -/
theorem bankSave_cases (c : Cpu δ) (pc cause : Word) :
    (∃ e c', c.bankSave pc cause = (.error e, c') ∧ Accessed c c') ∨
      ∃ c', c.bankSave pc cause = (.ok (), c'.setSr selidInt srRbnr (c.bankNumber + 1)) ∧ Accessed c c' ∧
        bankStores pc cause (c.bankTop c.bankNumber) c.bankLayout.1 (List.range c.bankLayout.1) c = (.ok (), c') := by
  have hstores := accessed_bankStores pc cause (c.bankTop c.bankNumber) c.bankLayout.1 (List.range c.bankLayout.1) c
  rw [bankSave]
  split
  · next e c' heq =>
    rw [heq] at hstores
    exact .inl ⟨e, c', rfl, hstores⟩
  · next c' heq =>
    rw [heq] at hstores
    exact .inr ⟨c', rfl, hstores, heq⟩

theorem accessed_irqVector (c : Cpu δ) (ch : Nat) : Accessed c (c.irqVector ch).2 := by
  rw [irqVector]
  split_ifs
  · exact .refl c
  · have hload := accessed_loadSv c ((c.sr 1 srIntbp &&& ~~~0x1FF) + BitVec.ofNat 32 ch * 4)
    split
    · next heq =>
      rw [heq] at hload
      exact hload
    · next heq =>
      rw [heq] at hload
      exact hload

/-! ## Exceptions and returns -/

/-- An exception saves to registers of bank 0 alone. -/
theorem sr_exceptionTo {bank : Nat} (hbank : bank ≠ 0) (c : Cpu δ) (cause : Exc) (retPc handler : Word) (reg : Nat) :
    (c.exceptionTo cause retPc handler).sr bank reg = c.sr bank reg := by
  have hne : ∀ i, ¬(bank = 0 ∧ reg = i) := fun i h => hbank h.1
  change (c.saveContext cause retPc).sr bank reg = _
  rw [saveContext]
  split_ifs <;> simp only [sr_setSr, hne, if_false]

/-- An exception leaves memory, the general registers, and the controllers but for the flag. -/
theorem exceptionTo_rest (c : Cpu δ) (cause : Exc) (retPc handler : Word) :
    (c.exceptionTo cause retPc handler).bus = c.bus ∧ (c.exceptionTo cause retPc handler).r = c.r ∧
      (c.exceptionTo cause retPc handler).intc = c.setDirty.intc := by
  have hsave : (c.saveContext cause retPc).bus = c.bus ∧ (c.saveContext cause retPc).r = c.r ∧
      (c.saveContext cause retPc).intc = c.intc ∧ (c.saveContext cause retPc).coreid = c.coreid := by
    rw [saveContext]
    split_ifs <;> exact ⟨rfl, rfl, rfl, rfl⟩
  obtain ⟨hbus, hr, hintc, hid⟩ := hsave
  refine ⟨hbus, hr, ?_⟩
  rw [exceptionTo, setDirty, setDirty]
  dsimp only
  rw [hintc, hid]

@[simp]
theorem psw_exceptionTo (c : Cpu δ) (cause : Exc) (retPc handler : Word) :
    (c.exceptionTo cause retPc handler).psw = pswEntered c.psw cause := rfl

theorem syscall_ok {vec next : Word} (h : c.syscall vec next = (.ok (), c')) :
    (∀ bank reg, bank ≠ 0 → ¬(bank = 2 ∧ reg = srMea) → c'.sr bank reg = c.sr bank reg) ∧
      c'.psw = (c.psw &&& ~~~pswUm) ||| pswEp ||| pswId ∧ c'.intc = c.intc ∧ c'.coreid = c.coreid := by
  have hload := accessed_loadSv c
    (if vec ≤ c.sr 1 srSccfg &&& 0xFF then c.sr 1 srScbp + vec <<< 2 else c.sr 1 srScbp)
  rw [syscall] at h
  split at h
  · exact absurd (congrArg Prod.fst h) (by simp)
  · next heq =>
    rw [heq] at hload
    obtain rfl := congrArg Prod.snd h
    refine ⟨fun bank reg hbank hmea => ?_, rfl, hload.intc, hload.coreid⟩
    have hne : ∀ i, ¬(bank = 0 ∧ reg = i) := fun i h => hbank h.1
    simp only [sr_setSr, hne, if_false]
    exact hload.sr hmea

/-! ## Acceptance -/

/-- What has been done when the controller is to be answered: with a bank, it is saved and counted. -/
inductive Prepared (c : Cpu δ) (ch pri : Nat) (pc : Word) : Cpu δ → Prop where
  | plain {c' : Cpu δ} (hbank : c.irqUsesBank ch pri = false) (h : Accessed c c') : Prepared c ch pri pc c'
  | bank {c' : Cpu δ} (hbank : c.irqUsesBank ch pri = true) (hroom : c.bankNumber ≠ 63)
      (hsave : (c.irqVector ch).2.bankSave pc (Exc.eiintBase + BitVec.ofNat 32 ch) = (.ok (), c')) : Prepared c ch pri pc c'

/-- What may fault leaves everything but MEA; once nothing may, the interrupt is prepared. -/
theorem prepareEiint_cases (c : Cpu δ) (ch pri : Nat) (pc : Word) :
    (∃ e c', c.prepareEiint ch pri pc = (.error e, c') ∧ Accessed c c') ∨
      ∃ vec c', c.prepareEiint ch pri pc = (.ok vec, c') ∧ Prepared c ch pri pc c' := by
  have hvec := accessed_irqVector c ch
  rw [prepareEiint]
  split
  · exact .inl ⟨_, c, rfl, .refl c⟩
  next hover =>
  generalize hres : c.irqVector ch = res at hvec
  obtain ⟨res, c'⟩ := res
  cases res with
  | error e => exact .inl ⟨e, c', rfl, hvec⟩
  | ok vec =>
    dsimp only at hvec ⊢
    split_ifs with hbank
    · have hroom : c.bankNumber ≠ 63 := by
        intro h63
        rw [hbank, h63] at hover
        exact hover (by simp)
      rcases bankSave_cases c' pc (Exc.eiintBase + BitVec.ofNat 32 ch) with ⟨e, c'', heq, hacc⟩ | ⟨c'', heq, -, -⟩
      · rw [heq]
        exact .inl ⟨e, c'', rfl, hvec.trans hacc⟩
      · rw [heq]
        refine .inr ⟨vec, _, rfl, .bank hbank hroom ?_⟩
        rw [hres]
        exact heq
    · exact .inr ⟨vec, c', rfl, .plain (Bool.eq_false_iff.mpr hbank) hvec⟩

theorem prepareEiint_ok {ch pri : Nat} {pc vec : Word} (h : c.prepareEiint ch pri pc = (.ok vec, c')) :
    Prepared c ch pri pc c' := by
  rcases prepareEiint_cases c ch pri pc with ⟨e, c₁, heq, -⟩ | ⟨vec', c₁, heq, hp⟩
  · rw [heq] at h
    exact absurd (congrArg Prod.fst h) (by simp)
  · rw [heq] at h
    obtain rfl := congrArg Prod.snd h
    exact hp

theorem prepareEiint_error {ch pri : Nat} {pc : Word} {e : Exc} (h : c.prepareEiint ch pri pc = (.error e, c')) :
    Accessed c c' := by
  rcases prepareEiint_cases c ch pri pc with ⟨e', c₁, heq, hacc⟩ | ⟨vec', c₁, heq, -⟩
  · rw [heq] at h
    obtain rfl := congrArg Prod.snd h
    exact hacc
  · rw [heq] at h
    exact absurd (congrArg Prod.fst h) (by simp)

/-- An interrupt is entered as an exception is, and then raises the ceiling. -/
theorem enterEiint_eq (c : Cpu δ) (bank : Bool) (ch pri : Nat) (pc vec : Word) :
    ∃ c' : Cpu δ, c.enterEiint bank ch pri pc vec = c'.ackPriority pri ∧
      (∀ reg, c'.sr selidInt reg = c.sr selidInt reg) ∧
      c'.psw &&& pswEp = pswEntered c.psw (Exc.eiintBase + BitVec.ofNat 32 ch) &&& pswEp ∧ c'.bus = c.bus ∧ c'.r = c.r := by
  have hsr := sr_exceptionTo (by decide : selidInt ≠ 0) { c with intc := c.intc.ack c.coreid ch }
    (Exc.eiintBase + BitVec.ofNat 32 ch) pc vec
  have hrest := exceptionTo_rest { c with intc := c.intc.ack c.coreid ch } (Exc.eiintBase + BitVec.ofNat 32 ch) pc vec
  rw [enterEiint]
  split_ifs
  · refine ⟨_, rfl, hsr, ?_, hrest.1, hrest.2.1⟩
    dsimp only [psw_exceptionTo]
    rw [BitVec.and_assoc]
    exact congrArg _ (by decide : ~~~pswId &&& pswEp = pswEp)
  · exact ⟨_, rfl, hsr, rfl, hrest.1, hrest.2.1⟩

/-- Preparing an interrupt leaves every system register but MEA and RBNR. -/
theorem Prepared.sr {ch pri bank reg : Nat} {pc : Word} (h : Prepared c ch pri pc c') (hmea : ¬(bank = 2 ∧ reg = srMea))
    (hrbnr : ¬(bank = selidInt ∧ reg = srRbnr)) : c'.sr bank reg = c.sr bank reg := by
  cases h with
  | plain _ h => exact h.sr hmea
  | bank hbank _ hsave =>
    rcases bankSave_cases (c.irqVector ch).2 pc (Exc.eiintBase + BitVec.ofNat 32 ch) with ⟨e, c₂, heq, -⟩ | ⟨c₂, heq, hacc, -⟩
    · rw [heq] at hsave
      exact absurd (congrArg Prod.fst hsave) (by simp)
    · rw [heq] at hsave
      obtain rfl := congrArg Prod.snd hsave
      rw [sr_setSr, if_neg hrbnr, hacc.sr hmea, (accessed_irqVector c ch).sr hmea]

/-- A RESBANK that faults leaves every register but MEA. -/
theorem accessed_bankLoads (top : Word) (ks : List Nat) (c : Cpu δ) : Accessed c (bankLoads top ks c).2 := by
  induction ks generalizing c with
  | nil => exact .refl c
  | cons k ks ih =>
    rw [bankLoads]
    have hload := accessed_load c (bankAddr top k) 4 false
    split
    · next heq =>
      rw [heq] at hload
      exact hload
    · next c' heq =>
      rw [heq] at hload
      have hrest := ih c'
      split
      · next heq' =>
        rw [heq'] at hrest
        exact hload.trans hrest
      · next heq' =>
        rw [heq'] at hrest
        exact hload.trans hrest

/-! ## What RESBANK does -/

/-- What LDSR does to a register of bank 0 that is nothing but storage. -/
theorem srWrite_storage (c : Cpu δ) {reg : Nat} (hreg : reg < 32) (hpsw : reg ≠ srPsw) (hwindow : fpWindow 0 reg = none)
    (v : Word) :
    c.srWrite 0 reg v = c.setSr 0 reg ((c.sr 0 reg &&& ~~~c.srWritable 0 reg) ||| (v &&& c.srWritable 0 reg)) := by
  have hread : c.srRead 0 reg = c.sr 0 reg := by
    simp [srRead, hreg, hpsw, hwindow, selidMpu, selidFxu]
  simp [srWrite, svLocked, srStore, hreg, hpsw, hwindow, hread, selidMpu, selidInt]

theorem pswWritable_setSr (c : Cpu δ) (reg : Nat) (v : Word) : (c.setSr 0 reg v).pswWritable = c.pswWritable := by
  have hpid : ∀ i, (c.setSr 0 reg v).sr 1 i = c.sr 1 i := fun i => (sr_setSr ..).trans (if_neg (by simp))
  have hcfg : ∀ i, (c.setSr 0 reg v).sr selidInt i = c.sr selidInt i := fun i =>
    (sr_setSr ..).trans (if_neg (by simp [selidInt]))
  rw [pswWritable, pswWritable, hpid, hcfg]
  rfl

/-- The bits of FPSR that are written. -/
def fpsrWritable : Word := 0xFFCEFFFF

theorem bankRestore_eq (c : Cpu δ) (words : Nat) (bn : Word) (w : Nat → Word) :
    c.bankRestore words bn w =
      { (((c.setSr 0 srEipc (w 0)).setSr 0 srEipsw
            ((c.sr 0 srEipsw &&& ~~~c.pswWritable) ||| (w 1 &&& c.pswWritable))).setSr 0 srEiic (w 2)).setSr 0 srFpsr
            ((c.sr 0 srFpsr &&& ~~~fpsrWritable) ||| (w 3 &&& fpsrWritable)) with
        r := bankRegs words w c.r }.setSr selidInt srRbnr (bn - 1) := by
  have heipsw := srWrite_storage (c.setSr 0 srEipc (w 0)) (by decide : srEipsw < 32) (by decide) rfl (w 1)
  have hmask : (c.setSr 0 srEipc (w 0)).srWritable 0 srEipsw = c.pswWritable := pswWritable_setSr c srEipc (w 0)
  rw [bankRestore, heipsw, hmask, srWrite_storage _ (by decide) (by decide) rfl]
  rfl

end Emu.G4mh.Cpu
