-- SUMMARY: The registers as views of the exception state: which of them are faithful, and where two are not.
import Emu.Arm.Select

/-! # Register views

ISER and its relatives, the priorities, SHCSR and ICSR show the same bits, numbered by exception, under other numbers. A
read is held here against the state it is to show. -/

namespace Emu.Arm.Nvic

/-! ## Reads and writes, one after the other -/

/-- An access to the System Control Space: a value to write, or none to read. -/
structure ScsAccess where
  off : Nat
  size : Nat
  priv : Bool
  write : Option Word

/-- What an access leaves. -/
def ScsAccess.run (a : ScsAccess) (s : Nvic) : Nvic :=
  match a.write with
  | none => (s.scsRead a.off a.size a.priv).2
  | some v => (s.scsWrite a.off a.size a.priv v).2

def runAccesses (s : Nvic) (as : List ScsAccess) : Nvic := as.foldl (fun s a => a.run s) s

/-! ## What the registers are to show -/

/-- What privileged code reads. -/
def view (s : Nvic) (off size : Nat) : Except Fault Word := (s.scsRead off size true).1

def irqEnabled (s : Nvic) (n : Nat) : Bool := decide (n < nIrq) && bitGet s.enabled n
def irqPending (s : Nvic) (n : Nat) : Bool := s.isPending (excExternal + n)
def irqActive (s : Nvic) (n : Nat) : Bool := s.isActive (excExternal + n)
def irqPrio (s : Nvic) (n : Nat) : Byte := s.prio (excExternal + n)

/-- Sixteen words of bits, by interrupt. -/
def ShowsBits (s : Nvic) (base : Nat) (bit : Nat → Bool) : Prop :=
  ∀ bank < 16, ∃ v, s.view (base + 4 * bank) 4 = .ok v ∧ ∀ i < 32, v.getLsbD i = bit (32 * bank + i)

/-- A byte of the priorities for each interrupt the part has, in accesses of a size. -/
def ShowsPriorities (s : Nvic) (size : Nat) : Prop :=
  ∀ n < nIrqImpl, size ∣ n → ∃ v, s.view (offIpr + n) size = .ok v ∧
    ∀ j < size, n + j < nIrqImpl → v.extractLsb' (8 * j) 8 = s.irqPrio (n + j)

/-- What a bit of SHCSR stands for; the others are zero. -/
def shcsrBit (s : Nvic) : Nat → Bool
  | 0 => s.isActive excMemManage
  | 1 => s.isActive excBusFault
  | 3 => s.isActive excUsageFault
  | 7 => s.isActive excSvCall
  | 8 => s.isActive excDebugMon
  | 10 => s.isActive excPendSv
  | 11 => s.isActive excSysTick
  | 12 => s.isPending excUsageFault
  | 13 => s.isPending excMemManage
  | 14 => s.isPending excBusFault
  | 15 => s.isPending excSvCall
  | 16 => s.shcsr.getLsbD 16
  | 17 => s.shcsr.getLsbD 17
  | 18 => s.shcsr.getLsbD 18
  | _ => false

/-- The bits SHCSR has. -/
def shcsrBits : List Nat := [0, 1, 3, 7, 8, 10, 11, 12, 13, 14, 15, 16, 17, 18]

/-- A write of SHCSR puts each of its bits, and nothing else moves. -/
structure ShcsrPut (s : Nvic) (v : Word) (s' : Nvic) : Prop where
  bits : ∀ i ∈ shcsrBits, s'.shcsrBit i = v.getLsbD i
  active : ∀ exc, exc ∉ shcsrActive.map Prod.fst → s'.isActive exc = s.isActive exc
  pending : ∀ exc, exc ∉ shcsrPended.map Prod.fst → s'.isPending exc = s.isPending exc
  frame : s' = { s with shcsr := s'.shcsr, active := s'.active, pending := s'.pending, pendingAny := s'.pendingAny,
                        irqMaybe := s'.irqMaybe }

/-- Every view shows what it is to show. -/
structure Faithful (s : Nvic) : Prop where
  iser : s.ShowsBits 0x100 s.irqEnabled
  icer : s.ShowsBits 0x180 s.irqEnabled
  ispr : s.ShowsBits 0x200 s.irqPending
  icpr : s.ShowsBits 0x280 s.irqPending
  iabr : s.ShowsBits 0x300 s.irqActive
  ipr : ∀ size ∈ [1, 2, 4], s.ShowsPriorities size
  shcsrRead : ∃ v, s.view 0xD24 4 = .ok v ∧ ∀ i < 32, v.getLsbD i = s.shcsrBit i
  shcsrWrite : ∀ v, s.ShcsrPut v (s.scsWrite 0xD24 4 true v).2
  vectpending : ∃ v, s.view 0xD04 4 = .ok v ∧ (v.extractLsb' 12 9).toNat = s.pendingExc.1
  isrpending : ∃ v, s.view 0xD04 4 = .ok v ∧ (v.getLsbD 22 = true ↔ ∃ n < nIrq, s.irqPending n = true)

/-! ## The banks -/

variable {s : Nvic}

theorem view_word (off : Nat) : s.view off 4 = .ok (s.wordRead off).1 := rfl

/-- A bank of interrupts, bit by bit: it straddles two words. -/
theorem irqBank_getLsbD (m : Nat → Word) {bank i : Nat} (hbank : bank < nIrq / 32) (hi : i < 32) :
    (irqBank m bank).getLsbD i = bitGet m (excExternal + (32 * bank + i)) := by
  have hdiv : (excExternal + 32 * bank) / 32 = bank := by
    rw [show excExternal = 16 from rfl]
    omega
  have hmod : (excExternal + 32 * bank) % 32 = 16 := by
    rw [show excExternal = 16 from rfl]
    omega
  have hword : irqBank m bank = m bank >>> 16 ||| m (bank + 1) <<< 16 := by
    rw [irqBank, if_neg (Nat.not_le.mpr hbank)]
    dsimp only
    rw [hdiv, hmod, if_pos (by decide)]
  rw [hword, BitVec.getLsbD_or, BitVec.getLsbD_ushiftRight, BitVec.getLsbD_shiftLeft]
  by_cases hlow : i < 16
  · have hn : excExternal + (32 * bank + i) = 32 * bank + (16 + i) := by
      rw [show excExternal = 16 from rfl]
      omega
    rw [hn, bitGet_word m bank (by omega)]
    simp [hlow]
  · have hn : excExternal + (32 * bank + i) = 32 * (bank + 1) + (i - 16) := by
      rw [show excExternal = 16 from rfl]
      omega
    have hge : (m bank).getLsbD (16 + i) = false := BitVec.getLsbD_of_ge _ _ (by omega)
    rw [hn, bitGet_word m (bank + 1) (by omega), hge]
    simp [hlow, hi]

/-- A bank by exception shows the exceptions there are; past the last there is none. -/
theorem irqBank_getLsbD_lt (m : Nat → Word) (bank : Nat) {i : Nat} (hi : i < 32) :
    (irqBank m bank).getLsbD i =
      (decide (excExternal + (32 * bank + i) < nExc) && bitGet m (excExternal + (32 * bank + i))) := by
  have hlt : excExternal + (32 * bank + i) < nExc ↔ bank < nIrq / 32 := by
    rw [show excExternal = 16 from rfl, show nExc = 144 from rfl, show nIrq / 32 = 4 from rfl]
    omega
  by_cases hbank : bank < nIrq / 32
  · rw [irqBank_getLsbD m hbank hi]
    simp [hlt.mpr hbank]
  · have hnone : ¬excExternal + (32 * bank + i) < nExc := fun h => hbank (hlt.mp h)
    rw [irqBank, if_pos (Nat.le_of_not_lt hbank)]
    simp [hnone]

theorem nvicBank_getLsbD (m : Nat → Word) (bank : Nat) {i : Nat} (hi : i < 32) :
    (nvicBank m bank).getLsbD i = (decide (32 * bank + i < nIrq) && bitGet m (32 * bank + i)) := by
  have hlt : 32 * bank + i < nIrq ↔ bank < nIrq / 32 := by
    rw [show nIrq = 128 from rfl]
    omega
  rw [nvicBank, bitGet_word m bank hi]
  by_cases hbank : bank < nIrq / 32
  · simp [Nat.not_le.mpr hbank, hlt.mpr hbank]
  · have hnone : ¬32 * bank + i < nIrq := fun h => hbank (hlt.mp h)
    simp [Nat.le_of_not_lt hbank, hnone]

theorem regAt_bank : ∀ bank < 16, regAt (0x100 + 4 * bank) = .iser bank ∧ regAt (0x180 + 4 * bank) = .icer bank ∧
    regAt (0x200 + 4 * bank) = .ispr bank ∧ regAt (0x280 + 4 * bank) = .icpr bank ∧
    regAt (0x300 + 4 * bank) = .iabr bank := by decide

theorem aligned {base bank : Nat} (hbase : base % 4 = 0) : (base + 4 * bank) / 4 * 4 = base + 4 * bank := by omega

theorem showsBits_iser : s.ShowsBits 0x100 s.irqEnabled := by
  intro bank hbank
  refine ⟨_, view_word _, fun i hi => ?_⟩
  rw [wordRead, aligned (by decide), (regAt_bank bank hbank).1]
  exact nvicBank_getLsbD s.enabled bank hi

theorem showsBits_icer : s.ShowsBits 0x180 s.irqEnabled := by
  intro bank hbank
  refine ⟨_, view_word _, fun i hi => ?_⟩
  rw [wordRead, aligned (by decide), (regAt_bank bank hbank).2.1]
  exact nvicBank_getLsbD s.enabled bank hi

theorem showsBits_ispr : s.ShowsBits 0x200 s.irqPending := by
  intro bank hbank
  refine ⟨_, view_word _, fun i hi => ?_⟩
  rw [wordRead, aligned (by decide), (regAt_bank bank hbank).2.2.1]
  exact irqBank_getLsbD_lt s.pending bank hi

theorem showsBits_icpr : s.ShowsBits 0x280 s.irqPending := by
  intro bank hbank
  refine ⟨_, view_word _, fun i hi => ?_⟩
  rw [wordRead, aligned (by decide), (regAt_bank bank hbank).2.2.2.1]
  exact irqBank_getLsbD_lt s.pending bank hi

theorem showsBits_iabr : s.ShowsBits 0x300 s.irqActive := by
  intro bank hbank
  refine ⟨_, view_word _, fun i hi => ?_⟩
  rw [wordRead, aligned (by decide), (regAt_bank bank hbank).2.2.2.2]
  exact irqBank_getLsbD_lt s.active bank hi

/-! ## The priorities -/

theorem byteRead_ipr {n : Nat} (h : n < nIrqImpl) : s.byteRead (offIpr + n) = some (s.irqPrio n) := by
  have hin : offIpr ≤ offIpr + n ∧ offIpr + n < offIpr + nIrqImpl := ⟨Nat.le_add_right _ _, by omega⟩
  have hres : reserved (excExternal + n) = false := by
    rw [reserved, show excExternal = 16 from rfl]
    simp
    omega
  rw [byteRead, prioByte, if_pos hin, Nat.add_sub_cancel_left]
  simp only [hres, Bool.false_eq_true, if_false]
  rfl

/-- Past the last interrupt there is no priority. -/
theorem byteRead_ipr_past {n : Nat} (h : nIrqImpl ≤ n) (hn : n < 100) : s.byteRead (offIpr + n) = none := by
  rw [show nIrqImpl = 98 from rfl] at h
  rw [byteRead, prioByte, show offIpr = 0x400 from rfl, show nIrqImpl = 98 from rfl, show offShpr1 = 0xD18 from rfl,
    show offCfsr = 0xD28 from rfl, if_neg (by omega), if_neg (by omega)]
  dsimp only
  rw [if_neg (by omega)]

/-- A byte put into a word, and taken out at another place. -/
theorem extractLsb'_byte (b : Byte) {j k : Nat} (hj : j < 4) (hk : k < 4) :
    (b.setWidth 32 <<< (8 * k)).extractLsb' (8 * j) 8 = if j = k then b else 0 := by
  apply BitVec.eq_of_getLsbD_eq
  intro i hi
  rw [BitVec.getLsbD_extractLsb', BitVec.getLsbD_shiftLeft, BitVec.getLsbD_setWidth]
  by_cases hjk : j = k
  · subst hjk
    have h1 : ¬8 * j + i < 8 * j := by omega
    have h2 : 8 * j + i < 32 := by omega
    have h3 : i < 32 := by omega
    simp [hi, h1, h2, h3]
  · rw [if_neg hjk, show (0 : Byte) = 0#8 from rfl, BitVec.getLsbD_zero]
    by_cases hlt : j < k
    · have h1 : 8 * j + i < 8 * k := by omega
      simp [h1]
    · have h1 : b.getLsbD (8 * j + i - 8 * k) = false := BitVec.getLsbD_of_ge _ _ (by omega)
      simp [h1]

theorem extractLsb'_or (x y : Word) (j : Nat) :
    (x ||| y).extractLsb' (8 * j) 8 = x.extractLsb' (8 * j) 8 ||| y.extractLsb' (8 * j) 8 := by
  apply BitVec.eq_of_getLsbD_eq
  intro i hi
  simp only [BitVec.getLsbD_extractLsb', BitVec.getLsbD_or, hi, decide_true, Bool.true_and]

/-- The bytes of a read that is not a word's, if all of them are registers. -/
theorem bytesRead_spec (off : Nat) {size : Nat} (hsize : size ≤ 4) {b : Nat → Byte}
    (hb : ∀ j < size, s.byteRead (off + j) = some (b j)) :
    ∃ v, s.bytesRead off size = some v ∧ ∀ j < 4, v.extractLsb' (8 * j) 8 = if j < size then b j else 0 := by
  induction size with
  | zero => exact ⟨0, rfl, fun j _ => by simp⟩
  | succ size ih =>
    obtain ⟨v, hv, hbytes⟩ := ih (by omega) fun j hj => hb j (by omega)
    refine ⟨v ||| (b size).setWidth 32 <<< (8 * size), ?_, fun j hj => ?_⟩
    · rw [bytesRead, hv, hb size (by omega)]
      rfl
    · rw [extractLsb'_or, hbytes j hj, extractLsb'_byte (b size) hj (by omega)]
      rcases Nat.lt_trichotomy j size with h | h | h
      · have h1 : j ≠ size := by omega
        have h2 : j < size + 1 := by omega
        simp [h, h1, h2]
      · subst h
        simp
      · have h1 : ¬j < size := by omega
        have h2 : j ≠ size := by omega
        have h3 : ¬j < size + 1 := by omega
        simp [h1, h2, h3]

theorem view_bytes {off size : Nat} (hsize : size ≠ 4) {v : Word} (h : s.bytesRead off size = some v) :
    s.view off size = .ok v := by
  rw [view, scsRead, if_neg (by decide), if_neg hsize, h]

/-- Byte by byte, and halfword by halfword, every priority is shown. -/
theorem showsPriorities_narrow {size : Nat} (hsize : size ∈ [1, 2]) : s.ShowsPriorities size := by
  intro n hn hdvd
  have hin : ∀ j < size, n + j < nIrqImpl := by
    intro j hj
    rw [show nIrqImpl = 98 from rfl] at hn ⊢
    rcases List.mem_cons.mp hsize with rfl | h
    · omega
    · obtain rfl := List.mem_singleton.mp h
      omega
  have hle : size ≤ 4 ∧ size ≠ 4 := by
    rcases List.mem_cons.mp hsize with rfl | h
    · decide
    · obtain rfl := List.mem_singleton.mp h
      decide
  obtain ⟨v, hv, hbytes⟩ := bytesRead_spec (s := s) (offIpr + n) hle.1 (b := fun j => s.irqPrio (n + j))
    fun j hj => by rw [Nat.add_assoc]; exact byteRead_ipr (hin j hj)
  refine ⟨v, view_bytes hle.2 hv, fun j hj _ => ?_⟩
  rw [hbytes j (by omega), if_pos hj]

theorem extractLsb'_word (b0 b1 b2 b3 : Byte) {j : Nat} (hj : j < 4) :
    (word b0 b1 b2 b3).extractLsb' (8 * j) 8 =
      if j = 0 then b0 else if j = 1 then b1 else if j = 2 then b2 else b3 := by
  have hword : word b0 b1 b2 b3 = b0.setWidth 32 <<< (8 * 0) ||| b1.setWidth 32 <<< (8 * 1) |||
      b2.setWidth 32 <<< (8 * 2) ||| b3.setWidth 32 <<< (8 * 3) := by
    rw [word, Nat.mul_zero, BitVec.shiftLeft_zero]
  rw [hword, extractLsb'_or, extractLsb'_or, extractLsb'_or, extractLsb'_byte b0 hj (by decide),
    extractLsb'_byte b1 hj (by decide), extractLsb'_byte b2 hj (by decide), extractLsb'_byte b3 hj (by decide)]
  obtain rfl | rfl | rfl | rfl : j = 0 ∨ j = 1 ∨ j = 2 ∨ j = 3 := by omega
  all_goals simp

theorem regAt_ipr : ∀ k < 25, regAt (offIpr + 4 * k) = .bytes := by decide

/-- A word of priorities that are all there. -/
theorem view_ipr {k : Nat} (hk : k < 24) :
    s.view (offIpr + 4 * k) 4 = .ok (word (s.irqPrio (4 * k)) (s.irqPrio (4 * k + 1)) (s.irqPrio (4 * k + 2))
      (s.irqPrio (4 * k + 3))) := by
  have hin : ∀ j < 4, 4 * k + j < nIrqImpl := by
    intro j hj
    rw [show nIrqImpl = 98 from rfl]
    omega
  rw [view_word, wordRead, aligned (by decide), regAt_ipr k (by omega)]
  dsimp only
  rw [byteRead_ipr (n := 4 * k) (hin 0 (by decide)), Nat.add_assoc, Nat.add_assoc, Nat.add_assoc,
    byteRead_ipr (hin 1 (by decide)), byteRead_ipr (hin 2 (by decide)), byteRead_ipr (hin 3 (by decide))]

/-- The last word has two priorities and two bytes that are none, and reads as zero. -/
theorem view_ipr_last : s.view (offIpr + 4 * 24) 4 = .ok 0 := by
  have hnone : s.byteRead (offIpr + 4 * 24 + 2) = none := byteRead_ipr_past (n := 98) (by decide) (by decide)
  rw [view_word, wordRead, aligned (by decide), regAt_ipr 24 (by decide)]
  dsimp only
  rw [hnone]
  cases s.byteRead (offIpr + 4 * 24) <;> cases s.byteRead (offIpr + 4 * 24 + 1) <;> rfl

/-- The interrupts whose priority shares a word with bytes that are none have the priority zero. -/
def LastPrioritiesZero (s : Nvic) : Prop := s.irqPrio 96 = 0 ∧ s.irqPrio 97 = 0

theorem showsPriorities_word_iff : s.ShowsPriorities 4 ↔ s.LastPrioritiesZero := by
  constructor
  · intro h
    obtain ⟨v, hv, hbytes⟩ := h 96 (by decide) ⟨24, rfl⟩
    obtain rfl : 0 = v := Except.ok.inj (view_ipr_last.symm.trans hv)
    exact ⟨(hbytes 0 (by decide) (by decide)).symm, (hbytes 1 (by decide) (by decide)).symm⟩
  · rintro ⟨h96, h97⟩ n hn ⟨k, rfl⟩
    have hk : k < 25 := by
      rw [show nIrqImpl = 98 from rfl] at hn
      omega
    by_cases hlast : k = 24
    · subst hlast
      refine ⟨0, view_ipr_last, fun j hj hin => ?_⟩
      obtain rfl | rfl : j = 0 ∨ j = 1 := by
        rw [show nIrqImpl = 98 from rfl] at hin
        omega
      · exact h96.symm
      · exact h97.symm
    · refine ⟨_, view_ipr (by omega), fun j hj _ => ?_⟩
      rw [extractLsb'_word _ _ _ _ hj]
      obtain rfl | rfl | rfl | rfl : j = 0 ∨ j = 1 ∨ j = 2 ∨ j = 3 := by omega
      all_goals rfl

/-! ## SHCSR -/

theorem getLsbD_orBit (v : Word) (on : Bool) {bit : Nat} (i : Nat) (hbit : bit < 32) :
    (orBit v on bit).getLsbD i = (v.getLsbD i || (on && decide (i = bit))) := by
  rw [orBit, BitVec.getLsbD_or]
  cases on
  · simp
  · rw [if_pos rfl, BitVec.getLsbD_twoPow]
    simp [hbit, eq_comm]

/-- A register put together from bits. -/
theorem getLsbD_foldl_orBit (on : Nat → Bool) (l : List (Nat × Nat)) (hl : ∀ p ∈ l, p.2 < 32) (v : Word) (i : Nat) :
    (l.foldl (fun v p => orBit v (on p.1) p.2) v).getLsbD i =
      (v.getLsbD i || l.any fun p => on p.1 && decide (i = p.2)) := by
  induction l generalizing v with
  | nil => simp
  | cons p rest ih =>
    rw [List.foldl_cons, ih fun q hq => hl q (List.mem_cons_of_mem _ hq), getLsbD_orBit _ _ _ (hl p List.mem_cons_self),
      List.any_cons, Bool.or_assoc]

theorem shcsrRead_getLsbD {i : Nat} (hi : i < 32) : s.shcsrRead.getLsbD i = s.shcsrBit i := by
  have hmask : ∀ i < 32, (0x00070000 : Word).getLsbD i = decide (16 ≤ i ∧ i ≤ 18) := by decide
  rw [shcsrRead, getLsbD_foldl_orBit _ _ (by decide), getLsbD_foldl_orBit _ _ (by decide), BitVec.getLsbD_and,
    hmask i hi, shcsrActive, shcsrPended]
  simp only [List.any_cons, List.any_nil, Bool.or_false]
  unfold shcsrBit
  split
  case h_15 =>
    -- a bit the register does not have
    have hnot : ¬(16 ≤ i ∧ i ≤ 18) := by grind
    simp_all
  all_goals simp

theorem isActive_setActive {exc : Nat} (on : Bool) (h : exc < nExc) (e : Nat) :
    (s.setActive exc on).isActive e = if e = exc then on else s.isActive e := by
  rw [isActive, setActive, bitGet_bitPut]
  by_cases he : e = exc
  · subst he
    simp [h]
  · rw [if_neg he, if_neg he]
    rfl

theorem setPending_eq {exc : Nat} (on : Bool) (h : 2 ≤ exc ∧ exc < nExc) :
    s.setPending exc on = { s with
      pending := bitPut s.pending exc on
      pendingAny := decide (anyWord (bitPut s.pending exc on) nExcWords ≠ 0)
      irqMaybe := on || s.irqMaybe } := by
  rw [setPending, if_pos h]
  cases on <;> rfl

theorem isPending_setPending {exc : Nat} (on : Bool) (h : 2 ≤ exc ∧ exc < nExc) (e : Nat) :
    (s.setPending exc on).isPending e = if e = exc then on else s.isPending e := by
  rw [isPending, setPending_eq on h, bitGet_bitPut]
  by_cases he : e = exc
  · subst he
    simp [h.2]
  · rw [if_neg he, if_neg he]
    rfl

/-- Only the sets of pending and active exceptions and what is kept with them may differ, and the enables of SHCSR. -/
def ExcOnly (s s' : Nvic) : Prop :=
  s' = { s with shcsr := s'.shcsr, active := s'.active, pending := s'.pending, pendingAny := s'.pendingAny,
                irqMaybe := s'.irqMaybe }

theorem ExcOnly.refl (s : Nvic) : s.ExcOnly s := rfl

theorem ExcOnly.trans {s s' s'' : Nvic} (h : s.ExcOnly s') (h' : s'.ExcOnly s'') : s.ExcOnly s'' := by
  rw [ExcOnly] at *
  rw [h', h]

theorem ExcOnly.foldl {α : Type} {f : Nvic → α → Nvic} (hf : ∀ s a, ExcOnly s (f s a)) (l : List α) (s : Nvic) :
    s.ExcOnly (l.foldl f s) := by
  induction l generalizing s with
  | nil => exact .refl s
  | cons a rest ih => exact (hf s a).trans (ih _)

theorem excOnly_setPending (s : Nvic) (exc : Nat) (on : Bool) : s.ExcOnly (s.setPending exc on) := by
  by_cases h : 2 ≤ exc ∧ exc < nExc
  · rw [setPending_eq on h]
    rfl
  · rw [setPending, if_neg h]
    exact .refl s

theorem excOnly_shcsrWrite (s : Nvic) (v : Word) : s.ExcOnly (s.shcsrWrite v) := by
  have hbits : s.ExcOnly { s with shcsr := v &&& 0x00070000 } := rfl
  exact (hbits.trans (ExcOnly.foldl (fun s (p : Nat × Nat) => show s.ExcOnly (s.setActive p.1 _) from rfl) _ _)).trans
    (ExcOnly.foldl (fun s (p : Nat × Nat) => excOnly_setPending s p.1 _) _ _)

/-- What no turn of a loop moves, the loop does not. -/
theorem foldl_keeps {σ α β : Type} {f : σ → α → σ} {g : σ → β} (h : ∀ s a, g (f s a) = g s) (l : List α) (s : σ) :
    g (l.foldl f s) = g s := by
  induction l generalizing s with
  | nil => rfl
  | cons a rest ih => rw [List.foldl_cons, ih, h]

section Puts

variable {get : Nvic → Nat → Bool} {put : Nvic → Nat → Bool → Nvic} {l : List (Nat × Nat)} {v : Word}

/-- Bits of a register put one after the other: an exception that has none keeps its state. -/
theorem foldl_put_of_notMem (hput : ∀ s, ∀ p ∈ l, ∀ on e, get (put s p.1 on) e = if e = p.1 then on else get s e)
    {e : Nat} (he : e ∉ l.map Prod.fst) (s : Nvic) :
    get (l.foldl (fun s p => put s p.1 (v.getLsbD p.2)) s) e = get s e := by
  induction l generalizing s with
  | nil => rfl
  | cons p rest ih =>
    rw [List.map_cons, List.mem_cons, not_or] at he
    rw [List.foldl_cons, ih (fun s q hq => hput s q (List.mem_cons_of_mem _ hq)) he.2,
      hput s p List.mem_cons_self, if_neg he.1]

/-- And one that has a bit gets it. -/
theorem foldl_put_of_mem (hput : ∀ s, ∀ p ∈ l, ∀ on e, get (put s p.1 on) e = if e = p.1 then on else get s e)
    (hnodup : (l.map Prod.fst).Nodup) {p : Nat × Nat} (hp : p ∈ l) (s : Nvic) :
    get (l.foldl (fun s p => put s p.1 (v.getLsbD p.2)) s) p.1 = v.getLsbD p.2 := by
  induction l generalizing s with
  | nil => exact absurd hp List.not_mem_nil
  | cons q rest ih =>
    rw [List.map_cons, List.nodup_cons] at hnodup
    have hrest := fun s r (hr : r ∈ rest) => hput s r (List.mem_cons_of_mem _ hr)
    rw [List.foldl_cons]
    rcases List.mem_cons.mp hp with rfl | hp'
    · rw [foldl_put_of_notMem hrest hnodup.1, hput s p List.mem_cons_self, if_pos rfl]
    · exact ih hrest hnodup.2 hp' _

end Puts

theorem isActive_setPending (exc : Nat) (on : Bool) (e : Nat) : (s.setPending exc on).isActive e = s.isActive e := by
  unfold setPending pendingPut
  split_ifs <;> rfl

theorem isPending_setActive (exc : Nat) (on : Bool) (e : Nat) : (s.setActive exc on).isPending e = s.isPending e := rfl

theorem shcsr_setActive (exc : Nat) (on : Bool) : (s.setActive exc on).shcsr = s.shcsr := rfl

theorem shcsr_setPending (exc : Nat) (on : Bool) : (s.setPending exc on).shcsr = s.shcsr := by
  unfold setPending pendingPut
  split_ifs <;> rfl

theorem isActive_shcsrWrite_mem (v : Word) {p : Nat × Nat} (hp : p ∈ shcsrActive) :
    (s.shcsrWrite v).isActive p.1 = v.getLsbD p.2 := by
  have hlt : ∀ p ∈ shcsrActive, p.1 < nExc := by decide
  rw [shcsrWrite, foldl_keeps (g := fun s => isActive s p.1) fun s q => isActive_setPending _ _ _]
  exact foldl_put_of_mem (fun s p hp on e => isActive_setActive on (hlt p hp) e) (by decide) hp _

theorem isActive_shcsrWrite_notMem (v : Word) {e : Nat} (he : e ∉ shcsrActive.map Prod.fst) :
    (s.shcsrWrite v).isActive e = s.isActive e := by
  have hlt : ∀ p ∈ shcsrActive, p.1 < nExc := by decide
  rw [shcsrWrite, foldl_keeps (g := fun s => isActive s e) fun s q => isActive_setPending _ _ _]
  exact foldl_put_of_notMem (fun s p hp on e => isActive_setActive on (hlt p hp) e) he _

theorem isPending_shcsrWrite_mem (v : Word) {p : Nat × Nat} (hp : p ∈ shcsrPended) :
    (s.shcsrWrite v).isPending p.1 = v.getLsbD p.2 := by
  have hlt : ∀ p ∈ shcsrPended, 2 ≤ p.1 ∧ p.1 < nExc := by decide
  exact foldl_put_of_mem (fun s p hp on e => isPending_setPending on (hlt p hp) e) (by decide) hp _

theorem isPending_shcsrWrite_notMem (v : Word) {e : Nat} (he : e ∉ shcsrPended.map Prod.fst) :
    (s.shcsrWrite v).isPending e = s.isPending e := by
  have hlt : ∀ p ∈ shcsrPended, 2 ≤ p.1 ∧ p.1 < nExc := by decide
  rw [shcsrWrite, foldl_put_of_notMem (fun s p hp on e => isPending_setPending on (hlt p hp) e) he,
    foldl_keeps (g := fun s => isPending s e) fun s q => isPending_setActive _ _ _]
  rfl

theorem shcsr_shcsrWrite (v : Word) : (s.shcsrWrite v).shcsr = v &&& 0x00070000 := by
  rw [shcsrWrite, foldl_keeps (g := Nvic.shcsr) fun s q => shcsr_setPending _ _,
    foldl_keeps (g := Nvic.shcsr) fun s q => shcsr_setActive _ _]

theorem shcsrWrite_bits (v : Word) : ∀ i ∈ shcsrBits, (s.shcsrWrite v).shcsrBit i = v.getLsbD i := by
  have hmask : ∀ i ∈ [16, 17, 18], (v &&& 0x00070000).getLsbD i = v.getLsbD i := by
    intro i hi
    have hbit : ∀ i ∈ [16, 17, 18], (0x00070000 : Word).getLsbD i = true := by decide
    rw [BitVec.getLsbD_and, hbit i hi, Bool.and_true]
  have hact := fun p hp => isActive_shcsrWrite_mem (s := s) v (p := p) hp
  have hpend := fun p hp => isPending_shcsrWrite_mem (s := s) v (p := p) hp
  simp only [shcsrActive, shcsrPended, List.forall_mem_cons] at hact hpend
  simp only [shcsrBits, List.forall_mem_cons, shcsrBit, shcsr_shcsrWrite, hact, hpend, true_and,
    hmask 16 (by decide), hmask 17 (by decide), hmask 18 (by decide)]
  exact fun i hi => absurd hi List.not_mem_nil

theorem shcsrPut_scsWrite (v : Word) : s.ShcsrPut v (s.scsWrite 0xD24 4 true v).2 := by
  have hwrite : (s.scsWrite 0xD24 4 true v).2 = { s with irqMaybe := true }.shcsrWrite v := rfl
  rw [hwrite]
  exact {
    bits := shcsrWrite_bits v
    active := fun e he => isActive_shcsrWrite_notMem v he
    pending := fun e he => isPending_shcsrWrite_notMem v he
    frame := ExcOnly.trans (show s.ExcOnly { s with irqMaybe := true } from rfl) (excOnly_shcsrWrite _ v) }

/-! ## ICSR -/

theorem view_icsr : s.view 0xD04 4 = .ok s.icsrRead := rfl

/-- The words that ISRPENDING is put together from are those of the exceptions below 128. -/
def IsrWords (s : Nvic) : Prop := ∃ exc < 128, bitGet s.pending exc = true

theorem isr_iff : ((List.range (nIrq / 32)).any fun i => decide (s.pending (excExternal / 32 + i) ≠ 0)) = true ↔
    s.IsrWords := by
  rw [List.any_eq_true]
  simp only [List.mem_range, decide_eq_true_eq]
  constructor
  · rintro ⟨w, hw, hne⟩
    have hw4 : w < 4 := hw
    rw [show excExternal / 32 = 0 from rfl, Nat.zero_add] at hne
    have hset : ∃ i < 32, (s.pending w).getLsbD i = true := by
      by_contra hnone
      apply hne
      apply BitVec.eq_of_getLsbD_eq
      intro i hi
      rw [show (0 : Word) = 0#32 from rfl, BitVec.getLsbD_zero]
      exact Bool.eq_false_iff.mpr fun h => hnone ⟨i, hi, h⟩
    obtain ⟨i, hi, hbit⟩ := hset
    exact ⟨32 * w + i, by omega, (bitGet_word s.pending w hi).trans hbit⟩
  · rintro ⟨exc, hexc, hbit⟩
    refine ⟨exc / 32, show exc / 32 < 4 by omega, fun hzero => ?_⟩
    rw [show excExternal / 32 = 0 from rfl, Nat.zero_add] at hzero
    rw [bitGet_eq_bitAt, BitWalk.bitAt, hzero, show (0 : Word) = 0#32 from rfl, BitVec.getLsbD_zero] at hbit
    exact Bool.false_ne_true hbit

theorem rettobase_getLsbD {j : Nat} (hj : 0 < j) : s.rettobase.getLsbD j = false := by
  have hone : (1 : Word).getLsbD j = false := by
    rw [show (1 : Word) = 1#32 from rfl, BitVec.getLsbD_one]
    simp
    omega
  unfold rettobase
  split_ifs
  · exact BitVec.getLsbD_zero
  · exact hone
  · exact BitVec.getLsbD_zero

/-- From VECTPENDING on, up to ISRPENDING, ICSR has the number of the exception that is next. -/
theorem icsrRead_getLsbD {i : Nat} (hi : 12 ≤ i) (hlt : i < 23) :
    s.icsrRead.getLsbD i = ((BitVec.ofNat 9 s.pendingExc.1).getLsbD (i - 12) ||
      (((List.range (nIrq / 32)).any fun i => decide (s.pending (excExternal / 32 + i) ≠ 0)) && decide (i = 22))) := by
  have hipsr : ipsrMask.getLsbD i = false := by
    have : ∀ i < 23, 12 ≤ i → ipsrMask.getLsbD i = false := by decide
    exact this i hlt hi
  have hmask : (0x1FF : Word).getLsbD (i - 12) = decide (i - 12 < 9) := by
    have : ∀ j < 32, (0x1FF : Word).getLsbD j = decide (j < 9) := by decide
    exact this _ (by omega)
  have hret : s.rettobase.getLsbD (i - 11) = false := rettobase_getLsbD (by omega)
  have h26 : i ≠ 26 := by omega
  have h28 : i ≠ 28 := by omega
  have h31 : i ≠ 31 := by omega
  have h32 : i < 32 := by omega
  have h12 : ¬i < 12 := by omega
  have h20 : i - 12 < 32 := by omega
  rw [icsrRead]
  simp only [getLsbD_orBit _ _ _ (show 31 < 32 by decide), getLsbD_orBit _ _ _ (show 28 < 32 by decide),
    getLsbD_orBit _ _ _ (show 26 < 32 by decide), getLsbD_orBit _ _ _ (show 22 < 32 by decide), BitVec.getLsbD_or,
    BitVec.getLsbD_and, BitVec.getLsbD_shiftLeft, BitVec.getLsbD_ofNat, hipsr, hmask, hret, h26, h28, h31, h32, h12, h20,
    decide_true, decide_false, Bool.and_false, Bool.false_or, Bool.or_false, Bool.not_false, Bool.true_and]
  rw [Bool.and_comm (Nat.testBit _ _)]

theorem vectpending_eq : (s.icsrRead.extractLsb' 12 9).toNat = s.pendingExc.1 := by
  have hfield : s.icsrRead.extractLsb' 12 9 = BitVec.ofNat 9 s.pendingExc.1 := by
    apply BitVec.eq_of_getLsbD_eq
    intro k hk
    have hne : 12 + k ≠ 22 := by omega
    rw [BitVec.getLsbD_extractLsb', icsrRead_getLsbD (by omega) (by omega), Nat.add_sub_cancel_left]
    simp [hk, hne]
  rw [hfield, BitVec.toNat_ofNat]
  exact Nat.mod_eq_of_lt (Nat.lt_trans pendingExc_lt (by decide))

theorem isrpending_iff : s.icsrRead.getLsbD 22 = true ↔ s.IsrWords := by
  rw [icsrRead_getLsbD (by decide) (by decide), BitVec.getLsbD_of_ge _ _ (show 9 ≤ 22 - 12 by decide), Bool.false_or,
    show decide (22 = 22) = true from rfl, Bool.and_true, isr_iff]

/-- ISRPENDING is right: of the exceptions in the words it is put together from, and of the interrupts, there is one
pending or there is none. -/
def IsrRight (s : Nvic) : Prop := s.IsrWords ↔ ∃ n < nIrq, s.irqPending n = true

/-- No interrupt from 112 on is pending unless something below it is, and no system exception unless an interrupt is. -/
theorem isrRight_iff : s.IsrRight ↔
    ((∃ exc < excExternal, bitGet s.pending exc = true) → ∃ n < nIrq, s.irqPending n = true) ∧
      ((∃ n < nIrq, 112 ≤ n ∧ s.irqPending n = true) → s.IsrWords) := by
  have hpend (n : Nat) (hn : n < nIrq) : s.irqPending n = bitGet s.pending (excExternal + n) := by
    have hlt : excExternal + n < nExc := by
      rw [show nIrq = 128 from rfl] at hn
      rw [show excExternal = 16 from rfl, show nExc = 144 from rfl]
      omega
    rw [irqPending, isPending]
    simp [hlt]
  constructor
  · intro h
    refine ⟨fun ⟨exc, hlt, hbit⟩ => h.mp ⟨exc, ?_, hbit⟩, fun ⟨n, hn, _, hbit⟩ => h.mpr ⟨n, hn, hbit⟩⟩
    exact Nat.lt_trans hlt (by decide)
  · rintro ⟨hsys, hlast⟩
    constructor
    · rintro ⟨exc, hlt, hbit⟩
      by_cases hexc : exc < excExternal
      · exact hsys ⟨exc, hexc, hbit⟩
      · have hn : exc - excExternal < nIrq := by
          rw [show nIrq = 128 from rfl]
          omega
        refine ⟨exc - excExternal, hn, ?_⟩
        rw [hpend _ hn, Nat.add_sub_cancel' (Nat.le_of_not_lt hexc)]
        exact hbit
    · rintro ⟨n, hn, hbit⟩
      by_cases hlow : 112 ≤ n
      · exact hlast ⟨n, hn, hlow, hbit⟩
      · rw [hpend n hn] at hbit
        refine ⟨excExternal + n, ?_, hbit⟩
        rw [show excExternal = 16 from rfl]
        omega

/-! ## All of them -/

theorem faithful_iff : s.Faithful ↔ s.LastPrioritiesZero ∧ s.IsrRight := by
  constructor
  · intro h
    refine ⟨showsPriorities_word_iff.mp (h.ipr 4 (by decide)), ?_⟩
    obtain ⟨v, hv, hbit⟩ := h.isrpending
    obtain rfl : s.icsrRead = v := Except.ok.inj (view_icsr.symm.trans hv)
    exact isrpending_iff.symm.trans hbit
  · rintro ⟨hprio, hisr⟩
    exact {
      iser := showsBits_iser
      icer := showsBits_icer
      ispr := showsBits_ispr
      icpr := showsBits_icpr
      iabr := showsBits_iabr
      ipr := by
        intro size hsize
        rcases List.mem_cons.mp hsize with rfl | hsize
        · exact showsPriorities_narrow (by decide)
        · rcases List.mem_cons.mp hsize with rfl | hsize
          · exact showsPriorities_narrow (by decide)
          · obtain rfl := List.mem_singleton.mp hsize
            exact showsPriorities_word_iff.mpr hprio
      shcsrRead := ⟨s.shcsrRead, rfl, fun i hi => shcsrRead_getLsbD hi⟩
      shcsrWrite := fun v => shcsrPut_scsWrite v
      vectpending := ⟨_, view_icsr, vectpending_eq⟩
      isrpending := ⟨_, view_icsr, isrpending_iff.trans hisr⟩ }

/-- After any sequence of accesses, from any state, the views are faithful just where the priorities of the interrupts 96
and 97 are zero, no system exception is pending without an interrupt, and no interrupt from 112 on without one below. -/
theorem views_faithful_iff (s : Nvic) (as : List ScsAccess) :
    (s.runAccesses as).Faithful ↔ (s.runAccesses as).LastPrioritiesZero ∧
      ((∃ exc < excExternal, bitGet (s.runAccesses as).pending exc = true) →
        ∃ n < nIrq, (s.runAccesses as).irqPending n = true) ∧
      ((∃ n < nIrq, 112 ≤ n ∧ (s.runAccesses as).irqPending n = true) → (s.runAccesses as).IsrWords) := by
  rw [faithful_iff, isrRight_iff]

/-- PendSV, pended in ICSR after reset. -/
def pendSvPended : Nvic := blank.resetState.runAccesses [⟨0xD04, 4, true, some 0x10000000⟩]

/-- A priority given to interrupt 96 after reset, in a byte. -/
def lastPrioritySet : Nvic := blank.resetState.runAccesses [⟨0x460, 1, true, some 0x50⟩]

/-- A pending PendSV shows as a pending interrupt, and the priority of interrupt 96 does not show in its word. -/
theorem views_not_faithful :
    (¬pendSvPended.Faithful ∧ pendSvPended.view 0xD04 4 = .ok 0x1040E000 ∧
        ∀ n < nIrq, pendSvPended.irqPending n = false) ∧
      ¬lastPrioritySet.Faithful ∧ lastPrioritySet.view 0x460 4 = .ok 0 ∧ lastPrioritySet.irqPrio 96 = 0x50 := by
  have hnone : ∀ n < nIrq, pendSvPended.irqPending n = false := by decide +kernel
  have hset : lastPrioritySet.irqPrio 96 = 0x50 := by decide +kernel
  refine ⟨⟨fun h => ?_, by decide +kernel, hnone⟩, fun h => ?_, by decide +kernel, hset⟩
  · have hwords : pendSvPended.IsrWords := ⟨excPendSv, by decide, by decide +kernel⟩
    obtain ⟨n, hn, hbit⟩ := (faithful_iff.mp h).2.mp hwords
    rw [hnone n hn] at hbit
    exact Bool.false_ne_true hbit
  · have hzero := (faithful_iff.mp h).1.1
    rw [hset] at hzero
    exact absurd hzero (by decide)

end Emu.Arm.Nvic
