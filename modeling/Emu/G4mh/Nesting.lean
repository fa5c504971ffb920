-- SUMMARY: ISPR over nested interrupts and exceptions: what each return leaves, and what an active handler keeps out.
import Emu.G4mh.Access
import Emu.G4mh.Ceiling

/-! # Nesting

With sixteen priorities ISPR has a bit for every handler that is active, and EIRET clears the lowest without knowing whose it
is. It is the handler's own, since an interrupt is accepted only below every bit that is set. Handlers nest: an acceptance
or an exception opens a frame, and EIRET closes the one opened last. -/

namespace Emu.G4mh.Cpu

variable {δ : Type} {c c' : Cpu δ}

/-- Sixteen priorities, with ISPR updated by the core: INTCFG.EPL and INTCFG.ISPC are clear. -/
def Mode16 (c : Cpu δ) : Prop := c.intcfg &&& (intcfgEpl ||| intcfgIspc) = 0

instance (c : Cpu δ) : Decidable c.Mode16 := inferInstanceAs (Decidable (_ = _))

theorem Mode16.epl (h : c.Mode16) : c.intcfg &&& intcfgEpl = 0 := by
  rw [Mode16, BitVec.and_or_distrib_left] at h
  exact (BitVec.or_eq_zero_iff.mp h).1

theorem Mode16.ispc (h : c.Mode16) : c.intcfg &&& intcfgIspc = 0 := by
  rw [Mode16, BitVec.and_or_distrib_left] at h
  exact (BitVec.or_eq_zero_iff.mp h).2

theorem Mode16.congr (h : c.Mode16) (heq : c'.intcfg = c.intcfg) : c'.Mode16 := by
  rw [Mode16, heq]
  exact h

/-! ## Entries and returns -/

/-- What an interrupt adds to ISPR. -/
def isprBit (pri : Nat) : Word := if pri < isprLevels then BitVec.twoPow 32 pri else 0

theorem ispr_ackPriority (h : c.Mode16) (pri : Nat) : (c.ackPriority pri).ispr = c.ispr ||| isprBit pri := by
  rw [ackPriority, if_neg (not_not.mpr h.epl), isprBit]
  by_cases hpri : pri < isprLevels
  · rw [if_pos ⟨h.ispc, hpri⟩, if_pos hpri]
    exact (sr_setSr ..).trans (if_pos ⟨rfl, rfl⟩)
  · rw [if_neg fun hand => hpri hand.2, if_neg hpri]
    exact BitVec.or_zero.symm

theorem intcfg_ackPriority (c : Cpu δ) (pri : Nat) : (c.ackPriority pri).intcfg = c.intcfg := by
  rw [ackPriority]
  split_ifs
  · rfl
  · exact (sr_setSr ..).trans (if_neg (by decide))
  · rfl

theorem psw_ackPriority (h : c.Mode16) (pri : Nat) : (c.ackPriority pri).psw = c.psw := by
  rw [ackPriority, if_neg (not_not.mpr h.epl)]
  split_ifs <;> rfl

theorem pswEp_entered_exception {cause : Exc} (hfe : Exc.isFe cause = false)
    (hcause : cause < Exc.eiintBase ∨ Exc.syscall ≤ cause) (psw : Word) :
    pswEntered psw cause &&& pswEp = pswEp := by
  rw [pswEntered, hfe, if_neg Bool.false_ne_true, if_pos hcause]
  exact Masks.or_and_self_right _ _

/-- The causes of interrupts are of the EI level, and between the exceptions' and SYSCALL's. -/
theorem eiint_cause : ∀ ch < Intc.intChannels, Exc.isFe (Exc.eiintBase + BitVec.ofNat 32 ch) = false ∧
    ¬(Exc.eiintBase + BitVec.ofNat 32 ch < Exc.eiintBase ∨ Exc.syscall ≤ Exc.eiintBase + BitVec.ofNat 32 ch) := by
  decide +kernel

theorem pswEp_entered_eiint {ch : Nat} (hch : ch < Intc.intChannels) (psw : Word) :
    pswEntered psw (Exc.eiintBase + BitVec.ofNat 32 ch) &&& pswEp = 0 := by
  obtain ⟨hfe, hcause⟩ := eiint_cause ch hch
  rw [pswEntered, hfe, if_neg Bool.false_ne_true, if_neg hcause, BitVec.and_assoc]
  exact (congrArg _ (by decide : ~~~pswEp &&& pswEp = 0)).trans BitVec.and_zero

/-- What an acceptance does to ISPR and to PSW.EP. -/
theorem takeEiint_accepted (h : c.Mode16) {ch pri : Nat} {pc vec : Word} (hch : ch < Intc.intChannels)
    (hprep : c.prepareEiint ch pri pc = (.ok vec, c')) :
    (c.takeEiint ch pri pc).ispr = c.ispr ||| isprBit pri ∧ (c.takeEiint ch pri pc).intcfg = c.intcfg ∧
      (c.takeEiint ch pri pc).psw &&& pswEp = 0 := by
  have hprepared := prepareEiint_ok hprep
  obtain ⟨c₂, heq, hsr, hpsw, -, -⟩ := enterEiint_eq c' (c.irqUsesBank ch pri) ch pri pc vec
  have hispr : c₂.ispr = c.ispr := (hsr srIspr).trans (hprepared.sr (by decide) (by decide))
  have hcfg : c₂.intcfg = c.intcfg := (hsr srIntcfg).trans (hprepared.sr (by decide) (by decide))
  have hmode : c₂.Mode16 := h.congr hcfg
  rw [takeEiint, hprep]
  dsimp only
  rw [heq, ispr_ackPriority hmode, intcfg_ackPriority, psw_ackPriority hmode, hispr, hcfg, hpsw]
  exact ⟨rfl, rfl, pswEp_entered_eiint hch c'.psw⟩

/-- What the core takes is a channel that the ceiling admits. -/
theorem pendingIrqPri_some {ch pri : Nat} (h : c.pendingIrqPri = some (ch, pri)) :
    ch < Intc.intChannels ∧ c.Admits pri := by
  rw [pendingIrqPri] at h
  split_ifs at h with hpsw
  by_cases hnil : c.intc.visited c.coreid = []
  · rw [Intc.pendingPri_of_visited_nil hnil] at h
    exact absurd h (by simp)
  · obtain ⟨n, hmem, heq, -⟩ := Intc.pendingPri_of_visited hnil
    rw [heq] at h
    dsimp only at h
    split_ifs at h with hadm
    obtain ⟨rfl, rfl⟩ := Prod.mk.inj (Option.some.inj h)
    refine ⟨?_, admits_iff.mpr ⟨hpsw, hadm⟩⟩
    rcases (Intc.mem_visited.mp hmem).1 with hown | hshared
    · exact hown.trans (by decide)
    · exact hshared.1

theorem intcfg_eiretPriority (c : Cpu δ) : c.eiretPriority.intcfg = c.intcfg := by
  rw [eiretPriority]
  dsimp only
  split_ifs
  · rfl
  · rfl
  · rfl
  · exact (sr_setSr ..).trans (if_neg (by decide))

/-- What EIRET does to ISPR. -/
theorem ispr_eiret (h : c.Mode16) :
    c.eiret.ispr = if c.psw &&& pswEp ≠ 0 ∨ c.ispr &&& 0xFFFF = 0 then c.ispr
      else (c.ispr &&& 0xFFFF) &&& ((c.ispr &&& 0xFFFF) - 1) := by
  have hcfg : c.intcfg &&& (intcfgEpl ||| intcfgIspc) = 0 := h
  change c.eiretPriority.ispr = _
  rw [eiretPriority, if_neg (not_not.mpr hcfg)]
  by_cases hep : c.psw &&& pswEp ≠ 0
  · rw [if_pos hep, if_pos (.inl hep)]
  by_cases hzero : c.ispr &&& 0xFFFF = 0
  · rw [if_neg hep, if_pos hzero, if_pos (Or.inr hzero)]
  · rw [if_neg hep, if_neg (not_or.mpr ⟨hep, hzero⟩), if_neg hzero]
    exact (sr_setSr ..).trans (if_pos ⟨rfl, rfl⟩)

/-! ## Frames -/

/-- A handler that has been entered and not left: the priority of the interrupt, or none for an exception, ISPR just before
the entry, and PSW just after it. -/
structure Frame where
  pri : Option Nat
  ispr : Word
  psw : Word

/-- A step of the core with its handlers: the acceptance of what it takes, an exception of the EI level, a SYSCALL, an EIRET
with PSW.EP as the handler was entered, and anything else, FE handlers included. Inside a handler nothing else writes
ISPR. -/
inductive Step : Cpu δ × List Frame → Cpu δ × List Frame → Prop where
  | accept (c c' : Cpu δ) (fs : List Frame) (ch pri : Nat) (pc vec : Word) (hpend : c.pendingIrqPri = some (ch, pri))
      (hprep : c.prepareEiint ch pri pc = (.ok vec, c')) :
      Step (c, fs) (c.takeEiint ch pri pc, ⟨some pri, c.ispr, (c.takeEiint ch pri pc).psw⟩ :: fs)
  | exception (c : Cpu δ) (fs : List Frame) (cause : Exc) (retPc handler : Word) (hfe : Exc.isFe cause = false)
      (hcause : cause < Exc.eiintBase ∨ Exc.syscall ≤ cause) :
      Step (c, fs)
        (c.exceptionTo cause retPc handler, ⟨none, c.ispr, (c.exceptionTo cause retPc handler).psw⟩ :: fs)
  | syscall (c c' : Cpu δ) (fs : List Frame) (vec next : Word) (h : c.syscall vec next = (.ok (), c')) :
      Step (c, fs) (c', ⟨none, c.ispr, c'.psw⟩ :: fs)
  | eiret (c : Cpu δ) (f : Frame) (fs : List Frame) (hep : c.psw &&& pswEp = f.psw &&& pswEp) :
      Step (c, f :: fs) (c.eiret, fs)
  | own (c c' : Cpu δ) (fs : List Frame) (hmode : c'.Mode16) (hispr : fs ≠ [] → c'.ispr = c.ispr) :
      Step (c, fs) (c', fs)

/-- A run of steps. -/
abbrev Run : Cpu δ × List Frame → Cpu δ × List Frame → Prop := Relation.ReflTransGen Step

/-- The bits of ISPR that have a level, and the others, which nothing but LDSR sets. -/
def isprLow (x : Word) : Word := x &&& 0xFFFF

def isprHigh (x : Word) : Word := x &&& ~~~0xFFFF

theorem ispr_ext {x y : Word} (hlow : isprLow x = isprLow y) (hhigh : isprHigh x = isprHigh y) : x = y := by
  rw [← Masks.and_compl_add_and x 0xFFFF, ← Masks.and_compl_add_and y 0xFFFF]
  exact congrArg₂ (· + ·) hhigh hlow

/-- ISPR has come back from above a frame: the levels are as they were, the other bits too or cleared. -/
structure Back (before after : Word) : Prop where
  low : isprLow after = isprLow before
  high : isprHigh after = isprHigh before ∨ isprHigh after = 0

theorem Back.trans {x y z : Word} (h : Back x y) (h' : Back y z) : Back x z where
  low := h'.low.trans h.low
  high := by
    rcases h'.high with heq | hzero
    · rw [heq]
      exact h.high
    · exact .inr hzero

theorem Back.getLsbD {x y : Word} (h : Back x y) {k : Nat} (hk : k < isprLevels) : y.getLsbD k = x.getLsbD k := by
  rw [← getLsbD_and_ffff y hk, ← getLsbD_and_ffff x hk]
  exact congrArg (·.getLsbD k) h.low

/-- What ISPR is while the handler of a frame runs, with no other above it. -/
structure Frame.Holds (f : Frame) (ispr : Word) : Prop where
  back : Back (f.ispr ||| (f.pri.elim 0 isprBit)) ispr
  ceiling : ∀ p, f.pri = some p → ∀ k < isprLevels, f.ispr.getLsbD k = true → p < k
  ep : f.psw &&& pswEp = if f.pri.isSome then 0 else pswEp

/-- Every frame holds of what ISPR was when the one above it was opened. -/
def Held : Word → List Frame → Prop
  | _, [] => True
  | ispr, f :: fs => f.Holds ispr ∧ Held f.ispr fs

theorem Held.back {x y : Word} {fs : List Frame} (h : Held x fs) (hb : Back x y) : Held y fs := by
  cases fs with
  | nil => trivial
  | cons f fs => exact ⟨⟨h.1.back.trans hb, h.1.ceiling, h.1.ep⟩, h.2⟩

/-- With the lowest bit of a word set below all others, clearing it gives them back. -/
theorem clear_lowest {x : Word} {p : Nat} (hp : p < 32) (hx : ∀ k, x.getLsbD k = true → p < k) :
    (x ||| BitVec.twoPow 32 p) &&& ((x ||| BitVec.twoPow 32 p) - 1) = x := by
  have hset : (x ||| BitVec.twoPow 32 p).getLsbD p = true := by
    rw [BitVec.getLsbD_or, BitVec.getLsbD_twoPow]
    simp [hp]
  have hne : x ||| BitVec.twoPow 32 p ≠ 0 := by
    intro h0
    rw [h0] at hset
    exact Bool.false_ne_true (BitVec.getLsbD_zero.symm.trans hset)
  have hctz : (x ||| BitVec.twoPow 32 p).ctz.toNat = p := by
    have hlow := BitVec.getLsbD_true_ctz_of_ne_zero hne
    rcases Nat.lt_trichotomy (x ||| BitVec.twoPow 32 p).ctz.toNat p with hlt | heq | hgt
    · rw [BitVec.getLsbD_or, BitVec.getLsbD_twoPow] at hlow
      have hx' := hx (x ||| BitVec.twoPow 32 p).ctz.toNat (by simpa [hlt.ne'] using hlow)
      omega
    · exact heq
    · have hclear := BitVec.getLsbD_false_of_lt_ctz hgt
      rw [hset] at hclear
      exact absurd hclear (by simp)
  apply BitVec.eq_of_getLsbD_eq
  intro i hi
  rw [BitWalk.getLsbD_and_sub_one hne, hctz, BitVec.getLsbD_or, BitVec.getLsbD_twoPow]
  by_cases hip : i = p
  · subst hip
    have hxi : x.getLsbD i = false := Bool.eq_false_iff.mpr fun h => absurd (hx i h) (lt_irrefl i)
    simp [hxi]
  · simp [hip, Ne.symm hip]

theorem isprLow_or (x y : Word) : isprLow (x ||| y) = isprLow x ||| isprLow y := BitVec.and_or_distrib_right

theorem isprLow_isprLow (x : Word) : isprLow (isprLow x) = isprLow x := by
  rw [isprLow, isprLow, BitVec.and_assoc, BitVec.and_self]

theorem isprHigh_isprLow (x : Word) : isprHigh (isprLow x) = 0 := by
  rw [isprHigh, isprLow, BitVec.and_assoc]
  exact (congrArg _ (by decide : (0xFFFF : Word) &&& ~~~0xFFFF = 0)).trans BitVec.and_zero

/-- An interrupt sets a bit that has a level. -/
theorem isprLow_isprBit (p : Nat) : isprLow (isprBit p) = isprBit p := by
  have hbits : ∀ p < isprLevels, isprLow (BitVec.twoPow 32 p) = BitVec.twoPow 32 p := by decide
  rw [isprBit]
  split_ifs with hp
  · exact hbits p hp
  · rfl

theorem isprHigh_or_isprBit (x : Word) (p : Nat) : isprHigh (x ||| isprBit p) = isprHigh x := by
  have hor : isprHigh (x ||| isprBit p) = isprHigh x ||| isprHigh (isprBit p) := BitVec.and_or_distrib_right
  rw [hor, ← isprLow_isprBit p, isprHigh_isprLow]
  exact BitVec.or_zero

theorem Back.of_or_isprBit {x y : Word} {p : Nat} (h : Back (x ||| isprBit p) y) :
    isprLow y = isprLow x ||| isprBit p ∧ (isprHigh y = isprHigh x ∨ isprHigh y = 0) := by
  have hlow := h.low
  have hhigh := h.high
  rw [isprLow_or, isprLow_isprBit] at hlow
  rw [isprHigh_or_isprBit] at hhigh
  exact ⟨hlow, hhigh⟩

theorem getLsbD_isprLow {x : Word} {k : Nat} :
    (isprLow x).getLsbD k = true ↔ k < isprLevels ∧ x.getLsbD k = true := by
  have hmask : ∀ k < 32, (0xFFFF : Word).getLsbD k = decide (k < isprLevels) := by decide
  rw [isprLow, BitVec.getLsbD_and, Bool.and_eq_true, and_comm]
  refine and_congr_left fun hx => ?_
  rw [hmask k (BitVec.lt_of_getLsbD hx), decide_eq_true_iff]

/-- No bit that has a level is set below what the ceiling let in. -/
theorem Frame.Holds.above {f : Frame} {ispr : Word} (h : f.Holds ispr) {p : Nat} (hp : f.pri = some p) {k : Nat}
    (hk : (isprLow f.ispr).getLsbD k = true) : p < k := by
  obtain ⟨hk16, hset⟩ := getLsbD_isprLow.mp hk
  exact h.ceiling p hp k hk16 hset

theorem Frame.Holds.back_interrupt {f : Frame} {ispr : Word} (h : f.Holds ispr) {p : Nat} (hp : f.pri = some p) :
    isprLow ispr = isprLow f.ispr ||| isprBit p ∧ (isprHigh ispr = isprHigh f.ispr ∨ isprHigh ispr = 0) := by
  have hback := h.back
  rw [hp] at hback
  exact hback.of_or_isprBit

section Return

variable {f : Frame} (h : f.Holds c.ispr) (hmode : c.Mode16) (hep : c.psw &&& pswEp = f.psw &&& pswEp)

include h hmode hep

/-- An interrupt that has a bit takes it back, and every bit that has no level with it. -/
theorem Frame.Holds.eiret_level {p : Nat} (hp : f.pri = some p) (hlt : p < isprLevels) :
    c.eiret.ispr = isprLow f.ispr := by
  have hp32 : p < 32 := hlt.trans (by decide)
  have hlow : isprLow c.ispr = isprLow f.ispr ||| BitVec.twoPow 32 p := by
    rw [(h.back_interrupt hp).1, isprBit, if_pos hlt]
  have hne : isprLow c.ispr ≠ 0 := by
    intro h0
    rw [hlow] at h0
    have hbit := congrArg (·.getLsbD p) (BitVec.or_eq_zero_iff.mp h0).2
    simp [hp32] at hbit
  have hclear : ¬c.psw &&& pswEp ≠ 0 := by
    rw [hep, h.ep, hp]
    exact not_not.mpr rfl
  rw [ispr_eiret hmode, ← isprLow, if_neg (not_or.mpr ⟨hclear, hne⟩), hlow]
  exact clear_lowest hp32 fun k => h.above hp

omit hep in
/-- An interrupt that has none was let in with none set, and leaves ISPR. -/
theorem Frame.Holds.eiret_noLevel {p : Nat} (hp : f.pri = some p) (hge : ¬p < isprLevels) : c.eiret.ispr = c.ispr := by
  have hzero : isprLow f.ispr = 0 := by
    apply BitVec.eq_of_getLsbD_eq
    intro k _
    refine (Bool.eq_false_iff.mpr fun hset => ?_).trans BitVec.getLsbD_zero.symm
    exact hge ((h.above hp hset).trans (getLsbD_isprLow.mp hset).1)
  have hlow : isprLow c.ispr = 0 := by
    rw [(h.back_interrupt hp).1, isprBit, if_neg hge, hzero]
    rfl
  rw [ispr_eiret hmode, ← isprLow, if_pos (.inr hlow)]

/-- EIRET gives back what ISPR was before the frame, but for the bits that have no level. -/
theorem Frame.Holds.eiret : Back f.ispr c.eiret.ispr := by
  cases hpri : f.pri with
  | none =>
    have hset : c.psw &&& pswEp ≠ 0 := by
      rw [hep, h.ep, hpri]
      decide
    have hback := h.back
    rw [hpri] at hback
    rw [ispr_eiret hmode, if_pos (.inl hset)]
    exact (BitVec.or_zero : f.ispr ||| 0 = f.ispr) ▸ hback
  | some p =>
    by_cases hlt : p < isprLevels
    · rw [h.eiret_level hmode hep hpri hlt]
      exact ⟨isprLow_isprLow _, .inr (isprHigh_isprLow _)⟩
    · obtain ⟨hlow, hhigh⟩ := h.back_interrupt hpri
      rw [h.eiret_noLevel hmode hpri hlt]
      rw [isprBit, if_neg hlt] at hlow
      exact ⟨hlow.trans BitVec.or_zero, hhigh⟩

end Return

/-- A handler of an exception runs with ISPR as it was. -/
theorem Frame.Holds.exception (hispr : c'.ispr = c.ispr) (hep : c'.psw &&& pswEp = pswEp) :
    (⟨none, c.ispr, c'.psw⟩ : Frame).Holds c'.ispr := by
  refine ⟨?_, fun p hp => absurd hp (by simp), hep⟩
  have hzero : c.ispr ||| (none : Option Nat).elim 0 isprBit = c'.ispr := BitVec.or_zero.trans hispr.symm
  rw [hzero]
  exact ⟨rfl, .inl rfl⟩

/-! ## Runs -/

/-- What holds along a run. -/
structure Nested (s : Cpu δ × List Frame) : Prop where
  mode : s.1.Mode16
  held : Held s.1.ispr s.2

theorem Nested.step {s s' : Cpu δ × List Frame} (h : Nested s) (hstep : Step s s') : Nested s' := by
  cases hstep with
  | accept c c' fs ch pri pc vec hpend hprep =>
    obtain ⟨hch, hadm⟩ := pendingIrqPri_some hpend
    obtain ⟨hispr, hcfg, hep⟩ := takeEiint_accepted h.mode hch hprep
    refine ⟨h.mode.congr hcfg, ⟨?_, ?_, hep⟩, h.held⟩
    · dsimp only
      rw [hispr]
      exact ⟨rfl, .inl rfl⟩
    · rintro p hp
      obtain rfl := Option.some.inj hp
      exact hadm.ispr h.mode.epl
  | exception c fs cause retPc handler hfe hcause =>
    have hsr := sr_exceptionTo (by decide : selidInt ≠ 0) c cause retPc handler
    exact ⟨h.mode.congr (hsr srIntcfg), .exception (hsr srIspr) (pswEp_entered_exception hfe hcause c.psw), h.held⟩
  | syscall c c' fs vec next heq =>
    obtain ⟨hsr, hpsw, -, -⟩ := syscall_ok heq
    have hep : c'.psw &&& pswEp = pswEp := by
      rw [hpsw, BitVec.or_assoc, BitVec.or_comm pswEp, ← BitVec.or_assoc]
      exact Masks.or_and_self_right _ _
    exact ⟨h.mode.congr (hsr _ _ (by decide) (by decide)), .exception (hsr _ _ (by decide) (by decide)) hep, h.held⟩
  | eiret c f fs hep =>
    obtain ⟨hholds, hrest⟩ := h.held
    exact ⟨h.mode.congr (intcfg_eiretPriority c), hrest.back (hholds.eiret h.mode hep)⟩
  | own c c' fs hmode hispr =>
    refine ⟨hmode, ?_⟩
    cases fs with
    | nil => trivial
    | cons f fs =>
      change Held c'.ispr (f :: fs)
      rw [hispr (by simp)]
      exact h.held

theorem Nested.run {s s' : Cpu δ × List Frame} (h : Nested s) (hrun : Run s s') : Nested s' := by
  induction hrun with
  | refl => exact h
  | tail _ hlast ih => exact ih.step hlast

/-- The bit of every active handler that has one is set. -/
theorem Held.getLsbD {ispr : Word} {fs : List Frame} (h : Held ispr fs) {f : Frame} (hf : f ∈ fs) {p : Nat}
    (hp : f.pri = some p) (hlt : p < isprLevels) : ispr.getLsbD p = true := by
  induction fs generalizing ispr with
  | nil => exact absurd hf List.not_mem_nil
  | cons g fs ih =>
    obtain ⟨hholds, hrest⟩ := h
    rw [hholds.back.getLsbD hlt, BitVec.getLsbD_or]
    rcases List.mem_cons.mp hf with rfl | hf'
    · rw [hp, Option.elim_some, isprBit, if_pos hlt, BitVec.getLsbD_twoPow]
      simp [hlt.trans (by decide : isprLevels < 32)]
    · rw [ih hrest hf', Bool.true_or]

/-- With handlers that nest, the EIRET of an interrupt gives ISPR back as it was just before the acceptance if the bits that
have no level were clear then, and for an interrupt that has a bit only if they were; and while a handler that has a bit is
active, what the core takes is of a better priority. -/
theorem ispr_nests {c₀ c : Cpu δ} {fs : List Frame} (hmode : c₀.Mode16) (hrun : Run (c₀, []) (c, fs)) :
    (∀ f fs' p, fs = f :: fs' → f.pri = some p → c.psw &&& pswEp = f.psw &&& pswEp →
      (isprHigh f.ispr = 0 → c.eiret.ispr = f.ispr) ∧
        (p < isprLevels → c.eiret.ispr = f.ispr → isprHigh f.ispr = 0)) ∧
      ∀ ch q, c.pendingIrqPri = some (ch, q) → ∀ f ∈ fs, ∀ p, f.pri = some p → p < isprLevels → q < p := by
  have hstart : Nested (c₀, []) := ⟨hmode, trivial⟩
  have hnested : Nested (c, fs) := hstart.run hrun
  refine ⟨?_, ?_⟩
  · rintro f fs' p rfl hp hep
    obtain ⟨hholds, -⟩ := hnested.held
    refine ⟨fun hclean => ?_, fun hlt heq => ?_⟩
    · have hback := hholds.eiret hnested.mode hep
      refine ispr_ext hback.low ?_
      rcases hback.high with hhigh | hzero
      · exact hhigh
      · rw [hzero, hclean]
    · rw [← heq, hholds.eiret_level hnested.mode hep hp hlt]
      exact isprHigh_isprLow _
  · intro ch q hpend f hf p hp hlt
    have hset := hnested.held.getLsbD hf hp hlt
    exact (pendingIrqPri_some hpend).2.ispr hnested.mode.epl p hlt hset

/-- A core out of reset that has enabled interrupts, with a channel of priority 3 requested. -/
def requesting : Cpu Unit :=
  { fresh [] with psw := 0, intc := (Intc.init fun _ => false).chanPut ⟨0, by decide⟩ 5 (Intc.eirf ||| 3) }

/-- The frame of its handler. -/
def requestingFrame (c : Cpu Unit) : Frame := ⟨some 3, c.ispr, (c.takeEiint 5 3 0x100).psw⟩

theorem step_requesting {c : Cpu Unit} (hpend : c.pendingIrqPri = some (5, 3))
    (hok : (c.prepareEiint 5 3 0x100).1.isOk = true) : Step (c, []) (c.takeEiint 5 3 0x100, [requestingFrame c]) := by
  generalize hprep : c.prepareEiint 5 3 0x100 = res at hok
  obtain ⟨res, c'⟩ := res
  cases res with
  | error e => exact absurd hok Bool.false_ne_true
  | ok vec => exact .accept c c' [] 5 3 0x100 vec hpend hprep

/-- The return of a single interrupt, and that it keeps out its own priority. -/
theorem ispr_nests_requesting :
    (requesting.takeEiint 5 3 0x100).eiret.ispr = requesting.ispr ∧
      ∀ ch q, (requesting.takeEiint 5 3 0x100).pendingIrqPri = some (ch, q) → q < 3 := by
  have hstep := step_requesting (c := requesting) (by decide +kernel) (by decide +kernel)
  obtain ⟨hreturn, hactive⟩ := ispr_nests (by decide +kernel : requesting.Mode16) (.single hstep)
  refine ⟨(hreturn _ [] 3 rfl rfl rfl).1 (by decide +kernel), fun ch q hpend => ?_⟩
  exact hactive ch q hpend _ List.mem_cons_self 3 rfl (by decide)

/-- LDSR sets a bit of ISPR that has no level, and the EIRET of the interrupt that follows does not give it back. -/
theorem ispr_reserved_lost :
    ∃ (c : Cpu Unit) (f : Frame), Run (requesting, []) (c, [f]) ∧ f.pri = some 3 ∧ f.ispr = 0x10000 ∧
      c.psw &&& pswEp = f.psw &&& pswEp ∧ c.eiret.ispr = 0 := by
  let c₁ := requesting.srWrite selidInt srIspr 0x10000
  have hwrite : Step (requesting, []) (c₁, []) := .own requesting c₁ [] (by decide +kernel) fun h => absurd rfl h
  have hstep : Step (c₁, []) (c₁.takeEiint 5 3 0x100, [requestingFrame c₁]) :=
    step_requesting (by decide +kernel) (by decide +kernel)
  refine ⟨_, _, (Relation.ReflTransGen.single hwrite).tail hstep, rfl, ?_, rfl, ?_⟩
  · decide +kernel
  · decide +kernel

end Emu.G4mh.Cpu
