-- SUMMARY: What the core takes: the ceiling is monotone, so asking about the best channel alone misses none.
import Emu.G4mh.Cpu
import Emu.Lib.Masks

/-! # The ceiling

The controller picks the best channel and the core asks whether its priority is admitted. A ceiling that refuses the best
refuses every other, so the core takes something exactly when it may take anything. -/

namespace Emu.G4mh.Cpu

variable {δ : Type} {c : Cpu δ}

/-- PLM of PLMR: priorities below it pass. -/
def plm (c : Cpu δ) : Nat := (c.sr selidInt srPlmr &&& 0x3F).toNat

/-- PSW.EIMASK. -/
def eimask (c : Cpu δ) : Nat := ((c.psw &&& pswEimask) >>> 20).toNat

/-- PSW, PLMR and the ceiling of the mode in force let an interrupt of a priority in: with 64 priorities it is below
EIMASK, and with 16 no bit of ISPR is set at its level or above it in rank. -/
structure Admits (c : Cpu δ) (pri : Nat) : Prop where
  id : c.psw &&& pswId = 0
  np : c.psw &&& pswNp = 0
  plm : pri < c.plm
  mask : c.intcfg &&& intcfgEpl ≠ 0 → pri < c.eimask
  ispr : c.intcfg &&& intcfgEpl = 0 → ∀ k < isprLevels, c.ispr.getLsbD k = true → pri < k

/-- The bits below one are the mask of that many. -/
theorem and_below_eq_zero {x : Word} {n : Nat} (hn : n < 32) :
    x &&& (BitVec.twoPow 32 n - 1) = 0 ↔ ∀ k < n, x.getLsbD k = false := by
  have hmask : (BitVec.twoPow 32 n - 1).toNat = 2 ^ n - 1 := by
    have hlt : 2 ^ n < 2 ^ 32 := Nat.pow_lt_pow_right (by decide) hn
    have hone : (1 : Word) ≤ BitVec.twoPow 32 n := by
      rw [BitVec.le_def, BitVec.toNat_twoPow_of_lt hn]
      exact Nat.one_le_two_pow
    rw [BitVec.toNat_sub_of_le hone, BitVec.toNat_twoPow_of_lt hn]
    rfl
  rw [BitVec.toNat_eq, BitVec.toNat_and, hmask, Nat.and_two_pow_sub_one_eq_mod]
  constructor
  · intro h k hk
    have hbit : (x.toNat % 2 ^ n).testBit k = false := by
      rw [h]
      exact Nat.zero_testBit k
    rw [Nat.testBit_mod_two_pow, decide_eq_true hk, Bool.true_and] at hbit
    exact hbit
  · intro h
    refine Nat.eq_of_testBit_eq fun k => ?_
    rw [Nat.testBit_mod_two_pow]
    by_cases hk : k < n
    · rw [decide_eq_true hk, Bool.true_and]
      exact (h k hk).trans (Nat.zero_testBit k).symm
    · rw [decide_eq_false hk, Bool.false_and]
      exact (Nat.zero_testBit k).symm

theorem getLsbD_and_ffff (x : Word) {k : Nat} (hk : k < isprLevels) : (x &&& 0xFFFF).getLsbD k = x.getLsbD k := by
  have hmask : ∀ k < isprLevels, (0xFFFF : Word).getLsbD k = true := by decide
  rw [BitVec.getLsbD_and, hmask k hk, Bool.and_true]

/-- The mask of the levels that refuse a priority. -/
theorem ispr_admits {pri : Nat} :
    (c.ispr &&& 0xFFFF) &&& (BitVec.twoPow 32 (if pri < isprLevels then pri + 1 else isprLevels) - 1) = 0 ↔
      ∀ k < isprLevels, c.ispr.getLsbD k = true → pri < k := by
  have hlevels : isprLevels = 16 := rfl
  have hlt : (if pri < isprLevels then pri + 1 else isprLevels) < 32 := by split_ifs <;> omega
  rw [and_below_eq_zero hlt]
  constructor
  · intro h k hk hset
    by_contra hle
    have hbelow : k < if pri < isprLevels then pri + 1 else isprLevels := by split_ifs <;> omega
    have hclear := h k hbelow
    rw [getLsbD_and_ffff _ hk, hset] at hclear
    exact Bool.false_ne_true hclear.symm
  · intro h k hk
    have hk16 : k < isprLevels := by split_ifs at hk <;> omega
    rw [getLsbD_and_ffff _ hk16, Bool.eq_false_iff]
    intro hset
    have := h k hk16 hset
    split_ifs at hk <;> omega

theorem intCeilingAdmits_iff {pri : Nat} :
    c.intCeilingAdmits pri = true ↔
      pri < c.plm ∧ (c.intcfg &&& intcfgEpl ≠ 0 → pri < c.eimask) ∧
        (c.intcfg &&& intcfgEpl = 0 → ∀ k < isprLevels, c.ispr.getLsbD k = true → pri < k) := by
  rw [intCeilingAdmits, ← plm, ← eimask]
  by_cases hplm : c.plm ≤ pri
  · rw [if_pos hplm]
    exact ⟨fun h => absurd h Bool.false_ne_true, fun h => absurd h.1 (not_lt.mpr hplm)⟩
  rw [if_neg hplm]
  by_cases hepl : c.intcfg &&& intcfgEpl = 0
  · rw [if_neg (not_not.mpr hepl), decide_eq_true_iff, ispr_admits]
    exact ⟨fun h => ⟨not_le.mp hplm, fun hne => absurd hepl hne, fun _ => h⟩, fun h => h.2.2 hepl⟩
  · rw [if_pos hepl, decide_eq_true_iff]
    exact ⟨fun h => ⟨not_le.mp hplm, fun _ => h, fun h0 => absurd h0 hepl⟩, fun h => h.2.1 hepl⟩

theorem psw_open_iff : ¬c.psw &&& (pswId ||| pswNp) ≠ 0 ↔ c.psw &&& pswId = 0 ∧ c.psw &&& pswNp = 0 := by
  rw [not_not, BitVec.and_or_distrib_left]
  exact BitVec.or_eq_zero_iff

theorem admits_iff {pri : Nat} :
    c.Admits pri ↔ ¬c.psw &&& (pswId ||| pswNp) ≠ 0 ∧ c.intCeilingAdmits pri = true := by
  rw [psw_open_iff, intCeilingAdmits_iff]
  exact ⟨fun h => ⟨⟨h.id, h.np⟩, h.plm, h.mask, h.ispr⟩, fun h => ⟨h.1.1, h.1.2, h.2.1, h.2.2.1, h.2.2.2⟩⟩

/-- What lets a priority in lets every better one in. -/
theorem Admits.mono {pri pri' : Nat} (h : c.Admits pri) (hle : pri' ≤ pri) : c.Admits pri' where
  id := h.id
  np := h.np
  plm := hle.trans_lt h.plm
  mask := fun hepl => hle.trans_lt (h.mask hepl)
  ispr := fun hepl k hk hset => hle.trans_lt (h.ispr hepl k hk hset)

/-- The core takes a channel exactly when one that the search visits is admitted. -/
theorem isSome_iff_visited :
    c.pendingIrqPri.isSome = true ↔ ∃ n ∈ c.intc.visited c.coreid, c.Admits (c.intc.pri c.coreid n) := by
  by_cases hnil : c.intc.visited c.coreid = []
  · rw [pendingIrqPri, Intc.pendingPri_of_visited_nil hnil, hnil]
    refine ⟨fun h => ?_, fun ⟨n, hn, _⟩ => absurd hn List.not_mem_nil⟩
    split_ifs at h
    · exact absurd h Bool.false_ne_true
    · exact absurd h Bool.false_ne_true
  obtain ⟨ch, hmem, heq, hbest⟩ := Intc.pendingPri_of_visited hnil
  have htaken : c.pendingIrqPri.isSome = true ↔ c.Admits (c.intc.pri c.coreid ch) := by
    rw [pendingIrqPri, heq, admits_iff]
    by_cases hpsw : c.psw &&& (pswId ||| pswNp) ≠ 0
    · rw [if_pos hpsw]
      exact ⟨fun h => absurd h Bool.false_ne_true, fun h => absurd hpsw h.1⟩
    · rw [if_neg hpsw]
      dsimp only
      split_ifs with hadm
      · exact ⟨fun _ => ⟨hpsw, hadm⟩, fun _ => rfl⟩
      · exact ⟨fun h => absurd h Bool.false_ne_true, fun h => absurd h.2 hadm⟩
  rw [htaken]
  refine ⟨fun h => ⟨ch, hmem, h⟩, fun ⟨n, hn, hadm⟩ => ?_⟩
  -- the best is at least as good as the one that is admitted
  rcases Prod.Lex.toLex_le_toLex.mp (hbest n hn) with hlt | ⟨heq, -⟩
  · exact hadm.mono hlt.le
  · exact hadm.mono heq.le

/-- The core takes a channel exactly when one that is pending for it is admitted. -/
theorem isSome_pendingIrqPri (hagrees : c.intc.Agrees) :
    c.pendingIrqPri.isSome = true ↔ ∃ n, c.intc.Pending c.coreid n ∧ c.Admits (c.intc.pri c.coreid n) := by
  simp only [isSome_iff_visited, Intc.mem_visited_iff_pending hagrees]

/-- After any operations on the controllers, the bits are those of the channels that are requested and not masked, the
search for a core finds the least of its own by priority and number, and a core with any PSW, PLMR, INTCFG and ISPR takes a
channel exactly when one that is pending for it is admitted. -/
theorem pending_exact (irqDirty : Fin 8 → Bool) (ops : List Intc.Op) :
    let s := (Intc.init irqDirty).run ops
    (∀ pe n, s.pendBit pe n = true ↔ s.chanGet pe n &&& Intc.eirf ≠ 0 ∧ s.chanGet pe n &&& Intc.eimk = 0) ∧
      (∀ pe n, (s.pendingPri pe).1 = some n ↔ s.Best pe n) ∧
      (∀ pe, (s.pendingPri pe).1 = none ↔ ∀ n, ¬s.Pending pe n) ∧
      ∀ c : Cpu δ, ({ c with intc := s } : Cpu δ).pendingIrqPri.isSome = true ↔
        ∃ n, s.Pending c.coreid n ∧ c.Admits (s.pri c.coreid n) := by
  have hagrees : ((Intc.init irqDirty).run ops).Agrees := (Intc.agrees_init irqDirty).run ops
  refine ⟨fun pe n => ?_, fun pe n => ?_, fun pe => ?_, fun c => ?_⟩
  · rw [hagrees, Intc.requested, Bool.and_eq_true, decide_eq_true_iff, decide_eq_true_iff]
  · rcases Intc.pendingPri_cases hagrees pe with ⟨heq, hnone⟩ | ⟨ch, heq, hbest⟩
    · rw [heq]
      exact ⟨fun h => absurd h (by simp), fun h => absurd h.1 (hnone n)⟩
    · rw [heq]
      constructor
      · intro h
        obtain rfl := Option.some.inj h
        exact hbest
      · intro h
        exact congrArg some (hbest.unique h)
  · rcases Intc.pendingPri_cases hagrees pe with ⟨heq, hnone⟩ | ⟨ch, heq, hbest⟩
    · rw [heq]
      exact ⟨fun _ => hnone, fun _ => rfl⟩
    · rw [heq]
      exact ⟨fun h => absurd h (by simp), fun h => absurd hbest.1 (h ch)⟩
  · rw [isSome_pendingIrqPri hagrees]
    refine exists_congr fun n => and_congr_right fun _ => ?_
    exact ⟨fun h => ⟨h.id, h.np, h.plm, h.mask, h.ispr⟩, fun h => ⟨h.id, h.np, h.plm, h.mask, h.ispr⟩⟩

end Emu.G4mh.Cpu
