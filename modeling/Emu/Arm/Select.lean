-- SUMMARY: Which pending exception is next: the walks over the words find the least priority, then the least number.
import Emu.Arm.Nvic
import Emu.Lib.FirstMin

/-! # The exception that is next

Bit by bit the words are the sets the exception model has. The walk over the active words is a minimum, and the walk over
the pending words a scan for the first of the least. -/

namespace Emu.Arm.Nvic

variable (s : Nvic)

/-! ## The words as sets -/

/-- The sets of exceptions and the registers, with the bits taken out of their words. -/
def toScs : Scs where
  pending := bitGet s.pending
  active := bitGet s.active
  enabled := bitGet s.enabled
  prio := s.prio
  line := bitGet s.line
  vtor := s.vtor
  prigroup := s.prigroup.toNat
  ccr := s.ccr
  shcsr := s.shcsr
  cfsr := s.cfsr
  hfsr := s.hfsr
  cpacr := s.cpacr
  mpuCtrl := s.mpuCtrl
  mpuRbar := s.mpuRbar
  mpuRasr := s.mpuRasr
  fpccr := s.fpccr
  fpcar := s.fpcar
  fpdscr := s.fpdscr
  state := s.state

theorem anyWord_eq_zero_iff (m : Nat → Word) (n : Nat) : anyWord m n = 0 ↔ ∀ e < 32 * n, bitGet m e = false := by
  induction n with
  | zero => simp [anyWord]
  | succ n ih =>
    have hstep : anyWord m (n + 1) = anyWord m n ||| m n := by
      rw [anyWord, List.range_succ, List.foldl_append, ← anyWord, List.foldl_cons, List.foldl_nil]
    rw [hstep, show (0 : Word) = 0#32 from rfl, BitVec.or_eq_zero_iff]
    constructor
    · rintro ⟨hlow, hn⟩ e he
      rw [bitGet_eq_bitAt]
      by_cases hlt : e < 32 * n
      · rw [← bitGet_eq_bitAt]
        exact ih.mp hlow e hlt
      · obtain ⟨i, rfl⟩ : ∃ i, e = 32 * n + i := ⟨e - 32 * n, by omega⟩
        rw [BitWalk.bitAt_word m n (by omega), hn, BitVec.getLsbD_zero]
    · intro h
      refine ⟨ih.mpr fun e he => h e (by omega), ?_⟩
      apply BitVec.eq_of_getLsbD_eq
      intro i hi
      rw [← BitWalk.bitAt_word m n hi, ← bitGet_eq_bitAt, h _ (by omega), BitVec.getLsbD_zero]

theorem bitGet_word (m : Nat → Word) (k : Nat) {j : Nat} (hj : j < 32) : bitGet m (32 * k + j) = (m k).getLsbD j := by
  rw [bitGet_eq_bitAt, BitWalk.bitAt_word _ _ hj]

/-- The first word of the mask, where the system exceptions are. -/
theorem takeable_zero_getLsbD {i : Nat} (hi : i < 32) : (s.takeable 0).getLsbD i = s.toScs.takeable i := by
  have hsys : ∀ i < 32, (0xFFFF : Word).getLsbD i = decide (i < 16) := by decide
  have hfault : ∀ i < 32, (0x70 : Word).getLsbD i = decide (excMemManage ≤ i ∧ i ≤ excUsageFault) := by decide
  have hbit : decide ((s.shcsr >>> (i + 12)) &&& 1 = 0) = !s.shcsr.getLsbD (i + 12) := by
    rw [Bool.eq_iff_iff, decide_eq_true_iff, Masks.shiftRight_and_one_eq_zero]
    simp
  rw [takeable, Scs.takeable, if_pos rfl, if_pos (show 0 < nIrq / 32 by decide)]
  simp only [BitVec.getLsbD_or, BitVec.getLsbD_and, BitVec.getLsbD_not, BitVec.getLsbD_ushiftRight,
    BitVec.getLsbD_shiftLeft, hsys i hi, hfault i hi, hi, decide_true, Bool.true_and]
  by_cases hlow : i < 16
  · have hlt : 12 + i < 32 := by omega
    rw [if_pos (show i < excExternal from hlow), show s.toScs.shcsr = s.shcsr from rfl, hbit, Nat.add_comm i 12]
    simp only [hlow, hlt, decide_true, Bool.true_and, Bool.not_true, Bool.false_and, Bool.or_false]
    cases s.shcsr.getLsbD (12 + i) <;> cases decide (excMemManage ≤ i ∧ i ≤ excUsageFault) <;> rfl
  · have hirq : bitGet s.enabled (i - excExternal) = (s.enabled 0).getLsbD (i - 16) :=
      bitGet_word s.enabled 0 (show i - 16 < 32 by omega) ▸ by rw [Nat.mul_zero, Nat.zero_add]; rfl
    have hexc : i < nExc := Nat.lt_trans hi (by decide)
    rw [if_neg (show ¬i < excExternal from hlow), show s.toScs.enabled = bitGet s.enabled from rfl, hirq]
    simp [hlow, hexc]

/-- A word of the mask, bit by bit. -/
theorem takeable_getLsbD {w i : Nat} (hw : w < nExcWords) (hi : i < 32) :
    (s.takeable w).getLsbD i = s.toScs.takeable (32 * w + i) := by
  rcases Nat.eq_zero_or_pos w with rfl | hpos
  · rw [takeable_zero_getLsbD s hi, Nat.mul_zero, Nat.zero_add]
  · have hirq : ¬32 * w + i < excExternal := by
      rw [show excExternal = 16 from rfl]
      omega
    have hw5 : w < 5 := hw
    have hbank : w - 1 < nIrq / 32 := by
      rw [show nIrq / 32 = 4 from rfl]
      omega
    rw [takeable, Scs.takeable, if_neg hirq, if_neg (Nat.pos_iff_ne_zero.mp hpos), if_pos ⟨hpos, hbank⟩,
      BitVec.getLsbD_or, BitVec.getLsbD_ushiftRight]
    by_cases hlow : i < 16
    · -- the upper half of the bank before
      have hn : 32 * w + i - excExternal = 32 * (w - 1) + (16 + i) := by
        rw [show excExternal = 16 from rfl]
        omega
      have hexc : 32 * w + i < nExc := by
        rw [show nExc = 144 from rfl]
        omega
      have hhi : (if w < nIrq / 32 then s.enabled w <<< 16 else 0).getLsbD i = false := by
        split_ifs
        · rw [BitVec.getLsbD_shiftLeft]
          simp [hlow]
        · exact BitVec.getLsbD_zero
      rw [hhi, Bool.or_false, show s.toScs.enabled = bitGet s.enabled from rfl, hn, bitGet_word _ _ (by omega)]
      simp [hexc]
    · -- the lower half of its own bank, if it has one
      have hlo : (s.enabled (w - 1)).getLsbD (16 + i) = false := BitVec.getLsbD_of_ge _ _ (by omega)
      have hn : 32 * w + i - excExternal = 32 * w + (i - 16) := by
        rw [show excExternal = 16 from rfl]
        omega
      have hexc : 32 * w + i < nExc ↔ w < nIrq / 32 := by
        rw [show nExc = 144 from rfl, show nIrq / 32 = 4 from rfl]
        omega
      rw [hlo, Bool.false_or, show s.toScs.enabled = bitGet s.enabled from rfl, hn, bitGet_word _ _ (by omega)]
      by_cases hw4 : w < nIrq / 32
      · rw [if_pos hw4, BitVec.getLsbD_shiftLeft]
        simp [hlow, hi, hexc.mpr hw4]
      · rw [if_neg hw4]
        have : ¬32 * w + i < nExc := fun h => hw4 (hexc.mp h)
        simp [this]

/-! ## The walks -/

theorem highest_toScs : s.toScs.highest = s.highest := by
  rw [highest, BitWalk.walkWords_eq_foldl, List.foldl_filter, Scs.highest]
  congr 1
  funext h exc
  rw [← bitGet_eq_bitAt]
  show (if bitGet s.active exc = true ∧ s.excPrio exc < h then s.excPrio exc else h) = _
  by_cases hact : bitGet s.active exc = true
  · simp [hact]
  · simp [hact]

/-- The exceptions that are pending and may be taken. -/
def candidates : List Nat := (List.range excBits).filter fun exc => s.toScs.pending exc && s.toScs.takeable exc

theorem best_eq_scan : s.best = FirstMin.scan s.excPrio s.candidates (0, 0x7FFFFFFF) := by
  rw [best, BitWalk.walkWords_eq_foldl, FirstMin.scan, candidates]
  congr 1
  apply List.filter_congr
  intro exc hexc
  have hlt : exc / 32 < nExcWords := by
    have := List.mem_range.mp hexc
    rw [show nExcWords = 5 from rfl] at this ⊢
    omega
  rw [BitWalk.bitAt, BitVec.getLsbD_and, takeable_getLsbD s hlt (Nat.mod_lt _ (by decide)), Nat.div_add_mod,
    ← BitWalk.bitAt, ← bitGet_eq_bitAt]
  rfl

/-! ## What the walks find -/

variable {s}

theorem mem_candidates {exc : Nat} :
    exc ∈ s.candidates ↔ exc < excBits ∧ bitGet s.pending exc = true ∧ s.toScs.takeable exc = true := by
  rw [candidates, List.mem_filter, List.mem_range, Bool.and_eq_true]
  exact Iff.rfl

theorem pairwise_candidates : s.candidates.Pairwise (· < ·) := List.Pairwise.filter _ List.pairwise_lt_range

theorem excPrio_lt_top (exc : Nat) : s.excPrio exc < 0x7FFFFFFF := by
  have := (s.prio exc).isLt
  unfold excPrio
  split_ifs <;> omega

/-- Nothing is next: no exception that is pending may be taken. -/
theorem pendingExc_of_nil (h : s.candidates = []) : s.pendingExc = (0, false) := by
  have hbest : s.best = (0, 0x7FFFFFFF) := by rw [best_eq_scan, h]; rfl
  rw [pendingExc, hbest]
  split_ifs <;> rfl

theorem pendingExc_of_ne_nil (h : s.candidates ≠ []) :
    s.pendingExc = (s.best.1, decide (s.best.1 ≠ 0) && decide (s.group s.best.2 < s.execPriority)) := by
  obtain ⟨exc, hexc⟩ := List.exists_mem_of_ne_nil _ h
  obtain ⟨hlt, hpend, -⟩ := mem_candidates.mp hexc
  have hany : ¬anyWord s.pending nExcWords = 0 := by
    rw [anyWord_eq_zero_iff]
    intro hnone
    rw [hnone exc hlt] at hpend
    exact Bool.false_ne_true hpend
  rw [pendingExc, if_neg hany]

theorem best_mem (h : s.candidates ≠ []) : s.best.1 ∈ s.candidates ∧ s.best.2 = s.excPrio s.best.1 := by
  rw [best_eq_scan]
  obtain ⟨hmem, hval, -⟩ :=
    FirstMin.scan_mem (f := s.excPrio) (0, 0x7FFFFFFF) (fun e _ => excPrio_lt_top e) h
  exact ⟨hmem, hval⟩

/-- Priority first and number second, the exception that is next is the least of those that are pending and may be
taken. -/
theorem pendingExc_least {exc : Nat} (h : exc ∈ s.candidates) :
    s.pendingExc.1 ∈ s.candidates ∧
      toLex (s.excPrio s.pendingExc.1, s.pendingExc.1) ≤ toLex (s.excPrio exc, exc) := by
  have hne : s.candidates ≠ [] := List.ne_nil_of_mem h
  rw [pendingExc_of_ne_nil hne]
  refine ⟨(best_mem hne).1, ?_⟩
  dsimp only
  rw [best_eq_scan]
  obtain ⟨-, -, hbelow⟩ :=
    FirstMin.scan_mem (f := s.excPrio) (0, 0x7FFFFFFF) (fun e _ => excPrio_lt_top e) hne
  exact FirstMin.scan_least pairwise_candidates hbelow h

theorem pendingExc_lt : s.pendingExc.1 < excBits := by
  by_cases h : s.candidates = []
  · rw [pendingExc_of_nil h]
    decide
  · rw [pendingExc_of_ne_nil h]
    exact (mem_candidates.mp (best_mem h).1).1

theorem group_mono {p q : Int} (h : p ≤ q) : s.group p ≤ s.group q := s.toScs.group_mono h

/-- One of the exceptions that are pending and may be taken is above what runs. -/
def Preempted (s : Nvic) : Prop := ∃ exc ∈ s.candidates, s.group (s.excPrio exc) < s.execPriority

/-- Whether the next exception can preempt, is whether any can: priorities are compared the same way grouped. -/
theorem pendingExc_preempts_iff (h0 : 0 ∉ s.candidates) : s.pendingExc.2 = true ↔ s.Preempted := by
  by_cases hne : s.candidates = []
  · rw [pendingExc_of_nil hne, Preempted, hne]
    simp
  · obtain ⟨hmem, hval⟩ := best_mem hne
    have hbest : s.best.1 ≠ 0 := fun h => h0 (h ▸ hmem)
    rw [pendingExc_of_ne_nil hne]
    simp only [hbest, ne_eq, not_false_eq_true, decide_true, Bool.true_and, decide_eq_true_eq]
    constructor
    · intro hlt
      exact ⟨s.best.1, hmem, hval ▸ hlt⟩
    · rintro ⟨exc, hexc, hlt⟩
      have hleast := (pendingExc_least hexc).2
      rw [pendingExc_of_ne_nil hne, Prod.Lex.toLex_le_toLex] at hleast
      have hle : s.excPrio s.best.1 ≤ s.excPrio exc := by
        rcases hleast with h | h
        · exact h.le
        · exact h.1.le
      rw [hval]
      exact lt_of_le_of_lt (group_mono hle) hlt

/-! ## The execution priority -/

theorem highest_eq (s : Nvic) :
    s.highest = 256 ∨ ∃ exc < excBits, bitGet s.active exc = true ∧ s.highest = s.excPrio exc := by
  rw [highest, BitWalk.walkWords_eq_foldl]
  have hfold : ∀ (l : List Nat) (h : Int),
      let r := l.foldl (fun highest exc => if s.excPrio exc < highest then s.excPrio exc else highest) h
      r = h ∨ ∃ exc ∈ l, r = s.excPrio exc := by
    intro l
    induction l with
    | nil => exact fun h => .inl rfl
    | cons exc rest ih =>
      intro h
      rw [List.foldl_cons]
      rcases ih (if s.excPrio exc < h then s.excPrio exc else h) with heq | ⟨e, he, heq⟩
      · rw [heq]
        split_ifs
        · exact .inr ⟨exc, List.mem_cons_self, rfl⟩
        · exact .inl rfl
      · exact .inr ⟨e, List.mem_cons_of_mem _ he, heq⟩
  rcases hfold ((List.range (32 * nExcWords)).filter (BitWalk.bitAt s.active)) 256 with h | ⟨exc, hexc, h⟩
  · exact .inl h
  · obtain ⟨hlt, hact⟩ := List.mem_filter.mp hexc
    exact .inr ⟨exc, List.mem_range.mp hlt, (bitGet_eq_bitAt s.active exc).trans hact, h⟩

theorem group_top (h : s.prigroup.toNat < 8) : s.group 256 = 256 := by
  rw [group]
  generalize s.prigroup.toNat = k at h
  have : ∀ k < 8, (256 : Int) % (2 * 2 ^ k) = 0 := by decide
  simp [this k h]

/-- The execution priority is the least of the group priorities of what is active and of what the masks raise it to. -/
theorem le_execPriority_iff (h : s.prigroup.toNat < 8) (p : Int) :
    p ≤ s.execPriority ↔ p ≤ 256 ∧ (∀ exc < excBits, bitGet s.active exc = true → p ≤ s.group (s.excPrio exc)) ∧
      (s.basepri &&& 0xF0 ≠ 0 → p ≤ s.group (s.basepri &&& 0xF0).toNat) ∧ (s.primask ≠ 0 → p ≤ 0) ∧
      (s.faultmask ≠ 0 → p ≤ -1) := by
  have htop : s.highest ≤ 256 := by
    rw [← highest_toScs]
    exact s.toScs.highest_spec.2.1
  have hhigh : p ≤ s.group s.highest ↔
      p ≤ 256 ∧ ∀ exc < excBits, bitGet s.active exc = true → p ≤ s.group (s.excPrio exc) := by
    constructor
    · intro hp
      refine ⟨hp.trans ((group_mono htop).trans_eq (group_top h)), fun exc hlt hact => hp.trans (group_mono ?_)⟩
      rw [← highest_toScs]
      exact s.toScs.highest_spec.2.2 exc hlt hact
    · rintro ⟨hp, hall⟩
      rcases highest_eq s with heq | ⟨exc, hlt, hact, heq⟩
      · rw [heq, group_top h]
        exact hp
      · rw [heq]
        exact hall exc hlt hact
  have hbase : 0 ≤ s.group (s.basepri &&& 0xF0).toNat := by
    have := group_mono (s := s) (Int.natCast_nonneg (s.basepri &&& 0xF0).toNat)
    simpa [group] using this
  rw [← and_assoc, ← hhigh, execPriority]
  have hle : s.group s.highest ≤ 256 := (group_mono htop).trans_eq (group_top h)
  by_cases hf : s.faultmask = 0 <;> by_cases hm : s.primask = 0 <;> by_cases hb : s.basepri &&& 0xF0 = 0 <;>
    simp only [hf, hm, hb, ne_eq, not_true_eq_false, not_false_eq_true, if_true, if_false, false_implies, true_implies,
      and_true, true_and] <;> split_ifs <;> omega

end Emu.Arm.Nvic
