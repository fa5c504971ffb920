-- SUMMARY: The MMU's two summaries are right: no translation means the identity, and a data page translates as one.
import Mathlib
import Emu.Lib.Masks
import Emu.Ppc.Mmu

/-! # Pages

A page as a block of addresses, and what follows for the search of the table: while `mmu_on` is clear every address is its
own translation, and a page that `ppc_mmu_data_page` gives is translated as one piece. -/

namespace Emu.Ppc

/-! ## One page -/

/-- The low bits of an address, that are the offset in a page. -/
def pageBits (mas1 : Word) : Nat := tsize mas1 + 10

section Page

variable {mas1 mas2 mask ea : Word}

theorem pageBits_le (h : pageMask mas1 = some mask) : pageBits mas1 ≤ 32 := by
  unfold pageMask at h
  split at h
  · cases h
  · rename_i hle
    rw [tsizeMax] at hle
    rw [pageBits]
    omega

/-- The mask of the offset. -/
theorem toNat_offset (h : pageMask mas1 = some mask) : (~~~mask).toNat = 2 ^ pageBits mas1 - 1 := by
  have hbits : 2 ^ pageBits mas1 ≤ 2 ^ 32 := Nat.pow_le_pow_right (by decide) (pageBits_le h)
  unfold pageMask at h
  split at h
  · cases h
  · cases h
    have hpos := Nat.two_pow_pos (pageBits mas1)
    have hsize : 1024 * 2 ^ tsize mas1 = 2 ^ pageBits mas1 := by
      rw [pageBits, Nat.pow_add, Nat.mul_comm]
    rw [BitVec.not_not, BitVec.toNat_ofNat, hsize, Nat.mod_eq_of_lt (by omega)]

theorem epn_eq : mas2Epn = ~~~(1023 : Word) := by decide

/-- The page number is in the EPN's bits. -/
theorem and_epn_and (h : pageMask mas1 = some mask) (x : Word) : x &&& mas2Epn &&& mask = x &&& mask := by
  have hmask := Masks.compl_low_and_compl_low (toNat_offset h) (show (1023 : Word).toNat = 2 ^ 10 - 1 from rfl)
    (Nat.le_add_left 10 (tsize mas1))
  rw [BitVec.not_not, ← epn_eq, BitVec.and_comm] at hmask
  rw [BitVec.and_assoc, hmask]

theorem eaOnPage_iff (h : pageMask mas1 = some mask) :
    eaOnPage mas1 mas2 ea = true ↔ ea.toNat / 2 ^ pageBits mas1 = mas2.toNat / 2 ^ pageBits mas1 := by
  have hoff := toNat_offset h
  unfold eaOnPage
  rw [h]
  dsimp only
  rw [decide_eq_true_iff, BitVec.and_assoc, BitVec.and_comm mask, ← BitVec.and_assoc, and_epn_and h,
    show mask = ~~~(~~~mask) from (BitVec.not_not).symm, Masks.xor_and_compl_low_eq_zero hoff]

/-- The first address of the page. -/
theorem toNat_first (h : pageMask mas1 = some mask) :
    (mas2 &&& mas2Epn &&& mask).toNat = 2 ^ pageBits mas1 * (mas2.toNat / 2 ^ pageBits mas1) := by
  have hoff := toNat_offset h
  rw [and_epn_and h, show mask = ~~~(~~~mask) from (BitVec.not_not).symm, Masks.toNat_and_compl_low_eq_mul _ hoff]

theorem toNat_size (h : pageMask mas1 = some mask) : (~~~mask).toNat + 1 = 2 ^ pageBits mas1 := by
  have hpos := Nat.two_pow_pos (pageBits mas1)
  rw [toNat_offset h, Nat.sub_add_cancel hpos]

/-- An address is on the page exactly if it is from its first address up to its size on. -/
theorem eaOnPage_iff_range (h : pageMask mas1 = some mask) : eaOnPage mas1 mas2 ea = true ↔
    (mas2 &&& mas2Epn &&& mask).toNat ≤ ea.toNat ∧
      ea.toNat < (mas2 &&& mas2Epn &&& mask).toNat + ((~~~mask).toNat + 1) := by
  rw [eaOnPage_iff h, toNat_first h, toNat_size h]
  have hpos := Nat.two_pow_pos (pageBits mas1)
  generalize 2 ^ pageBits mas1 = n at *
  have hdiv := Nat.div_add_mod ea.toNat n
  have hmod := Nat.mod_lt ea.toNat hpos
  constructor
  · intro heq
    rw [← heq]
    omega
  · rintro ⟨hle, hlt⟩
    exact Nat.div_eq_of_lt_le (by rw [Nat.mul_comm]; exact hle) (by rw [Nat.succ_mul, Nat.mul_comm]; omega)

theorem eaOnPage_of_none (h : pageMask mas1 = none) : eaOnPage mas1 mas2 ea = false := by
  unfold eaOnPage
  rw [h]

/-- The real address of an address on the page: as far in. -/
theorem real_eq {rpn : Word} (h : pageMask mas1 = some mask) (hon : eaOnPage mas1 mas2 ea = true) :
    (rpn &&& mas3Rpn &&& mask) ||| (ea &&& ~~~mask) =
      (rpn &&& mas3Rpn &&& mask) + (ea - (mas2 &&& mas2Epn &&& mask)) := by
  have hoff := toNat_offset h
  have hsub : ea - (mas2 &&& mas2Epn &&& mask) = ea &&& ~~~mask := by
    apply BitVec.eq_of_toNat_eq
    rw [and_epn_and h, show mask = ~~~(~~~mask) from (BitVec.not_not).symm,
      Masks.toNat_sub_and_compl_low hoff ((eaOnPage_iff h).mp hon), BitVec.not_not, Masks.toNat_and_low _ hoff]
  have hdisj : (rpn &&& mas3Rpn &&& mask) &&& (ea &&& ~~~mask) = 0#32 := by
    ext i hi
    simp only [BitVec.getElem_and, BitVec.getElem_not, BitVec.getElem_zero]
    grind
  rw [hsub, BitVec.add_eq_or_of_and_eq_zero _ _ hdisj]

end Page

namespace Mmu

/-! ## The search -/

variable {m : Mmu} {ea pid : Word} {as : Bool} {i : Nat}

/-- The lowest entry that matches. -/
theorem lookup_eq_some : m.lookup ea as pid = some i ↔
    (m.tlb i).hits ea as pid = true ∧ i < tlbEntries ∧ ∀ j < i, (m.tlb j).hits ea as pid = false := by
  rw [lookup, List.find?_range_eq_some]
  simp only [List.mem_range, Bool.not_eq_true']

/-- A translation that succeeds changes nothing. -/
theorem xlate_of_lookup {acc : Acc} (h : m.lookup ea (m.asOf (decide (acc = .exec))) m.pidOf = some i)
    (hperm : (m.tlb i).mas3 &&& need m.user acc ≠ 0) : m.xlate ea acc =
      (.ok ⟨m.realOf i ea, decide ((m.tlb i).mas2 &&& mas2Vle ≠ 0), decide ((m.tlb i).mas2 &&& mas2E ≠ 0)⟩, m) := by
  unfold xlate
  dsimp only
  rw [h]
  dsimp only
  rw [if_neg hperm]

/-! ## A data page -/

/-- No lower entry has an address of the page. -/
theorem hits_eq_false_of_not_overlaps {lo : Word} {n j : Nat} (h : m.overlaps i as pid lo n = false) (hj : j < i)
    (hlo : lo.toNat ≤ ea.toNat) (hhi : ea.toNat < lo.toNat + n) : (m.tlb j).hits ea as pid = false := by
  rw [overlaps, List.any_eq_false] at h
  have hj := h j (List.mem_range.mpr hj)
  rw [Entry.hits]
  by_cases hserves : (m.tlb j).serves as pid = true
  · rw [hserves, Bool.true_and] at hj ⊢
    cases hmask : pageMask (m.tlb j).mas1 with
    | none => exact eaOnPage_of_none hmask
    | some mj =>
      rw [hmask] at hj
      dsimp only at hj
      rw [decide_eq_true_iff] at hj
      rw [← Bool.not_eq_true, eaOnPage_iff_range hmask]
      omega
  · rw [Bool.not_eq_true] at hserves
    rw [hserves, Bool.false_and]

/-- Both permissions of a data page, one at a time. -/
theorem need_ne_zero {user : Bool} {mas3 : Word} {acc : Acc} (hacc : acc ≠ .exec)
    (h : mas3 &&& dataNeed user = dataNeed user) : mas3 &&& need user acc ≠ 0 := by
  -- the access's bit is one of the two
  have hbit : dataNeed user &&& need user acc = need user acc ∧ need user acc ≠ 0 := by
    cases acc with
    | exec => exact absurd rfl hacc
    | read => cases user <;> decide
    | write => cases user <;> decide
  rw [← hbit.1, ← BitVec.and_assoc, h, hbit.1]
  exact hbit.2

/-- What makes a page a data page: the entry that has its address, and no lower entry on it. -/
theorem dataPage_eq_some {va pa : Word} {n : Nat} (h : m.dataPage ea = some (va, pa, n)) : ∃ i mask,
    m.lookup ea (m.asOf false) m.pidOf = some i ∧ pageMask (m.tlb i).mas1 = some mask ∧
      (m.tlb i).mas3 &&& dataNeed m.user = dataNeed m.user ∧ (m.tlb i).mas2 &&& mas2E = 0 ∧
      m.overlaps i (m.asOf false) m.pidOf va n = false ∧ va = (m.tlb i).mas2 &&& mas2Epn &&& mask ∧
      pa = (m.tlb i).mas3 &&& mas3Rpn &&& mask ∧ n = (~~~mask).toNat + 1 := by
  unfold dataPage at h
  dsimp only at h
  cases hl : m.lookup ea (m.asOf false) m.pidOf with
  | none =>
    rw [hl] at h
    cases h
  | some i =>
    rw [hl] at h
    dsimp only at h
    split at h
    · cases h
    rename_i hattr
    rw [not_or, not_not, not_not] at hattr
    cases hmask : pageMask (m.tlb i).mas1 with
    | none =>
      rw [hmask] at h
      cases h
    | some mask =>
      rw [hmask] at h
      dsimp only at h
      split at h
      · cases h
      rename_i hover
      rw [Bool.not_eq_true] at hover
      cases h
      exact ⟨i, mask, rfl, hmask, hattr.1, hattr.2, hover, rfl, rfl, rfl⟩

/-- Every address of a data page is translated by its entry, big-endian, and nothing changes. -/
theorem xlate_of_dataPage {va pa e : Word} {n : Nat} {acc : Acc} (h : m.dataPage ea = some (va, pa, n))
    (hlo : va.toNat ≤ e.toNat) (hhi : e.toNat < va.toNat + n) (hacc : acc ≠ .exec) :
    ∃ vle, m.xlate e acc = (.ok ⟨pa + (e - va), vle, false⟩, m) := by
  obtain ⟨i, mask, hl, hmask, hperm, hbig, hover, rfl, rfl, rfl⟩ := dataPage_eq_some h
  obtain ⟨hhit, hlt, -⟩ := lookup_eq_some.mp hl
  have hserves : (m.tlb i).serves (m.asOf false) m.pidOf = true := (Bool.and_eq_true_iff.mp hhit).1
  have hon : eaOnPage (m.tlb i).mas1 (m.tlb i).mas2 e = true := (eaOnPage_iff_range hmask).mpr ⟨hlo, hhi⟩
  have hlook : m.lookup e (m.asOf (decide (acc = .exec))) m.pidOf = some i := by
    rw [decide_eq_false hacc, lookup_eq_some]
    exact ⟨Bool.and_eq_true_iff.mpr ⟨hserves, hon⟩, hlt,
      fun j hj => hits_eq_false_of_not_overlaps hover hj hlo hhi⟩
  have hreal : m.realOf i e = ((m.tlb i).mas3 &&& mas3Rpn &&& mask) +
      (e - ((m.tlb i).mas2 &&& mas2Epn &&& mask)) := by
    rw [realOf, hmask]
    exact real_eq hmask hon
  refine ⟨decide ((m.tlb i).mas2 &&& mas2Vle ≠ 0), ?_⟩
  rw [xlate_of_lookup hlook (need_ne_zero hacc hperm), hbig, hreal]
  rfl

/-! ## The identity -/

/-- What is kept about the table is right. -/
structure Ok (m : Mmu) : Prop where
  default : m.tlbDefault = m.isDefault
  on : m.mmuOn = (!m.tlbDefault || decide (m.msr &&& (msrIs ||| msrDs) ≠ 0))
  /-- The page that reset maps is big-endian. -/
  big : m.tlbResetMas2 &&& mas2E = 0

theorem ok_refresh (hd : m.tlbDefault = m.isDefault) (hb : m.tlbResetMas2 &&& mas2E = 0) : m.refresh.Ok := by
  unfold refresh
  dsimp only
  by_cases hon : (!m.tlbDefault || decide (m.msr &&& (msrIs ||| msrDs) ≠ 0)) = m.mmuOn
  · rw [if_pos hon]
    exact ⟨hd, hon.symm, hb⟩
  · rw [if_neg hon]
    exact ⟨hd, rfl, hb⟩

theorem ok_tlbChanged (hb : m.tlbResetMas2 &&& mas2E = 0) : m.tlbChanged.Ok := ok_refresh rfl hb

theorem resetMas2_big (vle : Bool) : resetMas2 vle &&& mas2E = 0 := by
  cases vle <;> decide

theorem ok_reset (m : Mmu) : m.reset.Ok := by
  refine ok_refresh ?_ (resetMas2_big m.vle)
  have hrest : (List.range' 1 (tlbEntries - 1)).all (fun i => decide
      ((Function.update (fun _ => (⟨0, 0, 0⟩ : Entry)) 0 ⟨defaultMas1, resetMas2 m.vle, mas3Perms⟩ i).mas1 &&& mas1V =
        0)) = true := by
    rw [List.all_eq_true]
    intro i hi
    have hne : i ≠ 0 := by
      rw [List.mem_range'_1] at hi
      omega
    rw [Function.update_of_ne hne]
    decide
  rw [isDefault, hrest, Bool.and_true]
  have hzero : (Function.update (fun _ => (⟨0, 0, 0⟩ : Entry)) 0 ⟨defaultMas1, resetMas2 m.vle, mas3Perms⟩) 0 =
      ⟨defaultMas1, resetMas2 m.vle, mas3Perms⟩ := Function.update_self ..
  exact (decide_eq_true hzero).symm

theorem retireEntry_tlbResetMas2 (mas1 mas2 : Word) : (m.retireEntry mas1 mas2).tlbResetMas2 = m.tlbResetMas2 := by
  unfold retireEntry retire
  split
  · split_ifs <;> rfl
  · rfl

theorem ok_tlbwe (h : m.Ok) : m.tlbwe.Ok := by
  unfold tlbwe
  dsimp only
  refine ok_tlbChanged ?_
  rw [retireEntry_tlbResetMas2, retireEntry_tlbResetMas2]
  exact h.big

theorem tlbivaxAt_tlbResetMas2 (is : List Nat) : (is.foldl (tlbivaxAt ea) m).tlbResetMas2 = m.tlbResetMas2 := by
  induction is generalizing m with
  | nil => rfl
  | cons i rest ih =>
    rw [List.foldl_cons, ih, tlbivaxAt]
    split_ifs
    · rw [retireEntry_tlbResetMas2]
    · rfl

theorem ok_tlbivax (h : m.Ok) (ea : Word) : (m.tlbivax ea).Ok := by
  unfold tlbivax
  refine ok_tlbChanged ?_
  rw [tlbivaxAt_tlbResetMas2]
  exact h.big

/-- The entry that reset leaves has every address in it. -/
theorem hits_default (mas2 ea pid : Word) : (⟨defaultMas1, mas2, mas3Perms⟩ : Entry).hits ea false pid = true := by
  have hvalid : defaultMas1 &&& mas1V ≠ 0 := by decide
  have hspace : ¬(defaultMas1 &&& mas1Ts ≠ 0) := by decide
  have hserves : (⟨defaultMas1, mas2, mas3Perms⟩ : Entry).serves false pid = true := by
    unfold Entry.serves
    dsimp only
    rw [show (defaultMas1 &&& mas1Tid) >>> 16 = 0 by decide, decide_eq_true rfl, Bool.true_or, Bool.and_true,
      decide_eq_true hvalid, decide_eq_false hspace]
    rfl
  rw [Entry.hits, hserves, Bool.true_and, eaOnPage, show pageMask defaultMas1 = some 0 by decide]
  dsimp only
  rw [show (0 : Word) = 0#32 from rfl, BitVec.and_zero, BitVec.zero_and]
  rfl

/-- Without translation every address is its own, whatever the access. -/
theorem Ok.xlate_identity (h : m.Ok) (hoff : m.mmuOn = false) (ea : Word) (acc : Acc) :
    m.xlate ea acc = (.ok ⟨ea, decide (m.tlbResetMas2 &&& mas2Vle ≠ 0), false⟩, m) := by
  have hon := h.on
  rw [hoff, eq_comm, Bool.or_eq_false_iff, Bool.not_eq_false', h.default, decide_eq_false_iff_not, not_not] at hon
  obtain ⟨hdef, hmsr⟩ := hon
  rw [isDefault, Bool.and_eq_true_iff, decide_eq_true_iff] at hdef
  have hentry := hdef.1
  have has : m.asOf (decide (acc = .exec)) = false := by
    have hbits : ∀ exec : Bool, (if exec then msrIs else msrDs) &&& (msrIs ||| msrDs) = if exec then msrIs else msrDs := by
      decide
    rw [asOf, decide_eq_false_iff_not, not_not, ← hbits, BitVec.and_comm _ (msrIs ||| msrDs), ← BitVec.and_assoc, hmsr]
    exact BitVec.zero_and
  have hlook : m.lookup ea (m.asOf (decide (acc = .exec))) m.pidOf = some 0 := by
    rw [lookup_eq_some, has, hentry]
    exact ⟨hits_default _ ea _, by decide, fun j hj => absurd hj (Nat.not_lt_zero j)⟩
  have hneed : ∀ user : Bool, ∀ acc ∈ [Acc.exec, Acc.read, Acc.write], mas3Perms &&& need user acc ≠ 0 := by decide
  have hperm : (m.tlb 0).mas3 &&& need m.user acc ≠ 0 := by
    rw [hentry]
    exact hneed m.user acc (by cases acc <;> decide)
  have hreal : m.realOf 0 ea = ea := by
    rw [realOf, hentry, show pageMask defaultMas1 = some 0 by decide]
    dsimp only
    rw [show mas3Perms &&& mas3Rpn &&& 0 = 0#32 by decide, show ~~~(0 : Word) = BitVec.allOnes 32 by decide,
      BitVec.and_allOnes, BitVec.zero_or]
  rw [xlate_of_lookup hlook hperm, hreal, hentry]
  dsimp only
  rw [h.big]
  rfl

/-! ## Histories -/

theorem xlate_snd (ea : Word) (acc : Acc) : (m.xlate ea acc).2 = m ∨ (m.xlate ea acc).2 = { m with dear := ea } ∨
    ∃ as, (m.xlate ea acc).2 = m.tlbErrorUpdate ea as ∨ (m.xlate ea acc).2 = { m.tlbErrorUpdate ea as with dear := ea } := by
  unfold xlate
  dsimp only
  split
  · split_ifs
    · exact .inr (.inr ⟨_, .inl rfl⟩)
    · exact .inr (.inr ⟨_, .inr rfl⟩)
  · split_ifs
    · exact .inl rfl
    · exact .inr (.inl rfl)
    · exact .inl rfl

/-- A change of none of what the invariant is about. -/
theorem Ok.of_eq {m' : Mmu} (h : m.Ok) (htlb : m'.tlb = m.tlb) (hmas2 : m'.tlbResetMas2 = m.tlbResetMas2)
    (hdef : m'.tlbDefault = m.tlbDefault) (hon : m'.mmuOn = m.mmuOn) (hmsr : m'.msr = m.msr) : m'.Ok where
  default := by
    rw [hdef, h.default, isDefault, isDefault, htlb, hmas2]
  on := by rw [hon, hdef, hmsr, h.on]
  big := by rw [hmas2, h.big]

theorem Op.ok (op : Op) (h : m.Ok) : (op.run m).Ok := by
  cases op with
  | tlbwe => exact ok_tlbwe h
  | tlbre => exact h.of_eq rfl rfl rfl rfl rfl
  | tlbsx ea =>
    simp only [Op.run]
    unfold Mmu.tlbsx
    dsimp only
    split <;> exact h.of_eq rfl rfl rfl rfl rfl
  | tlbivax ea => exact ok_tlbivax h ea
  | mmucsr0 v =>
    simp only [Op.run, mmucsr0Write]
    split_ifs
    · exact ok_tlbivax h 4
    · exact h
  | mas0 v | mas1 v | mas2 v | mas3 v | mas4 v | mas6 v | pid0 v | hid0 | encoding vle | smp live =>
    exact h.of_eq rfl rfl rfl rfl rfl
  | msr v => exact ok_refresh h.default h.big
  | raise keep => exact ok_refresh h.default h.big
  | gdbMsr v => exact ok_refresh h.default h.big
  | access ea acc =>
    rcases xlate_snd (m := m) ea acc with heq | heq | ⟨as, heq | heq⟩
    · rw [Op.run, heq]
      exact h
    all_goals
      rw [Op.run, heq]
      exact h.of_eq rfl rfl rfl rfl rfl
  | reset vle => exact ok_reset _

/-- What comes of a reset. -/
inductive Run : Mmu → Prop where
  | reset (m : Mmu) : Run m.reset
  | step {m : Mmu} (op : Op) : Run m → Run (op.run m)

theorem Run.ok (h : Run m) : m.Ok := by
  induction h with
  | reset m => exact ok_reset m
  | step op _ ih => exact op.ok ih

/-- After any history, an address is its own translation while `mmu_on` is clear, whatever the access; and the addresses
of a data page are translated for loads and stores as one piece, big-endian, with nothing changed. -/
theorem translation_exact (h : Run m) :
    (m.mmuOn = false → ∀ ea acc, ∃ vle, m.xlate ea acc = (.ok ⟨ea, vle, false⟩, m)) ∧
      ∀ ea va pa n, m.dataPage ea = some (va, pa, n) →
        ∀ e : Word, va.toNat ≤ e.toNat → e.toNat < va.toNat + n → ∀ acc ∈ [Acc.read, Acc.write],
          ∃ vle, m.xlate e acc = (.ok ⟨pa + (e - va), vle, false⟩, m) := by
  refine ⟨fun hoff ea acc => ⟨_, h.ok.xlate_identity hoff ea acc⟩, fun ea va pa n hpage e hlo hhi acc hacc => ?_⟩
  have hexec : acc ≠ .exec := by
    rintro rfl
    exact absurd hacc (by decide)
  exact xlate_of_dataPage hpage hlo hhi hexec

/-- A core that was never reset. -/
def blank : Mmu where
  tlb := fun _ => ⟨0, 0, 0⟩
  tlbResetMas2 := 0
  tlbDefault := false
  mmuOn := false
  msr := 0
  pid0 := 0
  mas0 := 0
  mas1 := 0
  mas2 := 0
  mas3 := 0
  mas4 := 0
  mas6 := 0
  dear := 0
  vle := false
  coreid := 0
  smpLive := false
  slowStore := false
  irqDirty := false
  jitNwin := 0
  jitWin := fun _ => (0, 0)
  jitGen := 0
  invalidated := []

/-- Entry 0 mapped anew: four kilobytes from 0x10000000 on, at 0x40000000. -/
def mapped : Mmu :=
  [.mas1 0x80000100, .mas2 0x10000000, .mas3 0x4000000F, .tlbwe].foldl Op.run blank.reset

theorem run_mapped : Run mapped :=
  ((((Run.reset blank).step (.mas1 0x80000100)).step (.mas2 0x10000000)).step (.mas3 0x4000000F)).step .tlbwe

theorem translation_exact_mapped : mapped.mmuOn = true ∧ mapped.dataPage 0x10000004 = some (0x10000000, 0x40000000, 4096) ∧
    ∃ vle, mapped.xlate 0x10000FFF .write = (.ok ⟨0x40000FFF, vle, false⟩, mapped) :=
  ⟨by decide +kernel, by decide +kernel, (translation_exact run_mapped).2 0x10000004 0x10000000 0x40000000 4096
    (by decide +kernel) 0x10000FFF (by decide) (by decide) .write (by decide)⟩

end Mmu

end Emu.Ppc
