-- SUMMARY: Sv32 translation as the privileged specification has it, and the walk's agreement with it.
import Emu.Lib.Masks
import Emu.Rv.Coherent

/-! # The Sv32 algorithm

The algorithm of the privileged specification, over 34-bit physical addresses, in the form that checks the accessed
and dirty bits and leaves them alone. A page table word is read through `rd`, which refuses what protection or the
memory map refuses. -/

namespace Emu.Rv

namespace Sv32

/-! ## Page table entries -/

/-- The physical page number of an entry: 22 bits. -/
def ppn (pte : Word) : Nat := pte.toNat / 2 ^ 10

/-- The part of a virtual page number that indexes a table of this level. -/
def vpn (va : Word) (i : Nat) : Nat := va.toNat / 2 ^ (12 + 10 * i) % 2 ^ 10

def valid (pte : Word) : Bool := pte.getLsbD 0
def readable (pte : Word) : Bool := pte.getLsbD 1
def writable (pte : Word) : Bool := pte.getLsbD 2
def executable (pte : Word) : Bool := pte.getLsbD 3
def user (pte : Word) : Bool := pte.getLsbD 4
def accessed (pte : Word) : Bool := pte.getLsbD 6
def dirty (pte : Word) : Bool := pte.getLsbD 7

def leaf (pte : Word) : Bool := readable pte || executable pte

/-- Invalid, or an encoding that is reserved: writable but not readable, or a pointer with bits only a leaf has. -/
def malformed (pte : Word) : Bool :=
  !valid pte || (writable pte && !readable pte) || (!leaf pte && (dirty pte || accessed pte || user pte))

/-! ## Translation -/

/-- Steps 2 to 4: the leaf, and the level it was found at. -/
def walk (rd : Nat → Option Word) (va : Word) (i a : Nat) : Except WalkFault (Nat × Word) :=
  match rd (a + vpn va i * 4) with
  | none => .error .access
  | some pte =>
    if malformed pte then .error .page
    else if leaf pte then .ok (i, pte)
    else match i with
      | 0 => .error .page
      | i + 1 => walk rd va i (ppn pte * 2 ^ 12)

/-- What the leaf allows, given the privilege and the SUM and MXR bits. -/
def permits (sum mxr : Bool) (priv : Priv) (acc : Access) (pte : Word) : Bool :=
  (if priv = privU then user pte else !user pte || (sum && acc != .fetch)) &&
    (match acc with
      | .fetch => executable pte
      | .load => readable pte || (mxr && executable pte)
      | .store => writable pte) &&
    accessed pte && (acc != .store || dirty pte)

/-- The address a leaf found at level `i` gives. -/
def physical (va : Word) (i : Nat) (pte : Word) : Nat :=
  ppn pte / 2 ^ (10 * i) * 2 ^ (10 * i) * 2 ^ 12 + va.toNat % 2 ^ (12 + 10 * i)

/-- The algorithm, from the root table's page number. -/
def translate (rd : Nat → Option Word) (root : Nat) (sum mxr : Bool) (priv : Priv) (acc : Access) (va : Word) :
    Except WalkFault Nat :=
  match walk rd va 1 (root * 2 ^ 12) with
  | .error f => .error f
  | .ok (i, pte) =>
    if ppn pte % 2 ^ (10 * i) ≠ 0 then .error .page  -- a misaligned superpage
    else if permits sum mxr priv acc pte = false then .error .page
    else .ok (physical va i pte)

end Sv32

namespace Hart

variable {δ : Type}

/-- A page table word at a 34-bit address: there is nothing past the bus, and protection applies as to supervisor
mode. -/
def pteAt (h : Hart δ) (pa : Nat) : Option Word :=
  if 2 ^ 32 ≤ pa then none else h.pteBelow (BitVec.ofNat 32 pa)

/-- What the specification says of an access: machine mode is not translated, and an address past the bus is an
access fault. -/
def sv32 (h : Hart δ) (va : Word) (acc : Access) : Except Exc Word :=
  if h.accPriv acc = privM then .ok va
  else
    match Sv32.translate h.pteAt (h.satp.toNat % 2 ^ 22) (h.mstatus &&& mstatusSum != 0)
      (h.mstatus &&& mstatusMxr != 0) (h.accPriv acc) acc va with
    | .error f => .error (f.exc acc)
    | .ok pa => if 2 ^ 32 ≤ pa then .error (accessFaultFor acc) else .ok (BitVec.ofNat 32 pa)

end Hart

/-! ## Entries, as the code takes them apart -/

section

variable {pte va : Word}

theorem pteV_iff : pte &&& pteV = 0 ↔ Sv32.valid pte = false := Masks.and_twoPow_eq_zero (k := 0) (by decide)
theorem pteR_iff : pte &&& pteR = 0 ↔ Sv32.readable pte = false := Masks.and_twoPow_eq_zero (k := 1) (by decide)
theorem pteW_iff : pte &&& pteW = 0 ↔ Sv32.writable pte = false := Masks.and_twoPow_eq_zero (k := 2) (by decide)
theorem pteX_iff : pte &&& pteX = 0 ↔ Sv32.executable pte = false := Masks.and_twoPow_eq_zero (k := 3) (by decide)
theorem pteU_iff : pte &&& pteU = 0 ↔ Sv32.user pte = false := Masks.and_twoPow_eq_zero (k := 4) (by decide)
theorem pteA_iff : pte &&& pteA = 0 ↔ Sv32.accessed pte = false := Masks.and_twoPow_eq_zero (k := 6) (by decide)
theorem pteD_iff : pte &&& pteD = 0 ↔ Sv32.dirty pte = false := Masks.and_twoPow_eq_zero (k := 7) (by decide)

theorem and_or_eq_zero {x a b : Word} : x &&& (a ||| b) = 0 ↔ x &&& a = 0 ∧ x &&& b = 0 := by
  rw [BitVec.and_or_distrib_left]
  exact BitVec.or_eq_zero_iff

theorem leaf_iff : pte &&& (pteR ||| pteX) = 0 ↔ Sv32.leaf pte = false := by
  rw [and_or_eq_zero, pteR_iff, pteX_iff, Sv32.leaf, Bool.or_eq_false_iff]

theorem malformed_iff :
    Sv32.malformed pte = true ↔
      (pte &&& pteV = 0 ∨ (pte &&& pteW ≠ 0 ∧ pte &&& pteR = 0)) ∨
        (pte &&& (pteR ||| pteX) = 0 ∧ pte &&& (pteD ||| pteA ||| pteU) ≠ 0) := by
  simp only [ne_eq, leaf_iff, and_or_eq_zero (b := pteU), and_or_eq_zero (b := pteA), pteV_iff, pteR_iff, pteW_iff,
    pteU_iff, pteA_iff, pteD_iff, Sv32.malformed]
  cases Sv32.valid pte <;> cases Sv32.writable pte <;> cases Sv32.readable pte <;> cases Sv32.leaf pte <;>
    cases Sv32.dirty pte <;> cases Sv32.accessed pte <;> cases Sv32.user pte <;> decide

theorem ptePpnPastBus_iff : pte &&& ptePpnPastBus = 0 ↔ Sv32.ppn pte < 2 ^ 20 := by
  have hbits : ptePpnPastBus = BitVec.twoPow 32 30 ||| BitVec.twoPow 32 31 := by decide
  rw [hbits, and_or_eq_zero, Masks.and_twoPow_eq_zero (by decide), Masks.and_twoPow_eq_zero (by decide), Sv32.ppn]
  have hlt := pte.isLt
  simp only [BitVec.getLsbD, Nat.testBit_eq_decide_div_mod_eq, decide_eq_false_iff_not]
  omega

theorem toNat_pteBase : (pteBase pte).toNat = Sv32.ppn pte % 2 ^ 20 * 2 ^ 12 := by
  have hmask : ((pte >>> 10) &&& ppnMask).toNat = Sv32.ppn pte % 2 ^ 20 := by
    rw [BitVec.toNat_and, BitVec.toNat_ushiftRight, Nat.shiftRight_eq_div_pow]
    exact Nat.and_two_pow_sub_one_eq_mod _ 20
  rw [pteBase, BitVec.toNat_shiftLeft, hmask, Nat.shiftLeft_eq]
  omega

theorem toNat_rootTable (satp : Word) : (rootTable satp).toNat = satp.toNat % 2 ^ 20 * 2 ^ 12 := by
  have hmask : (satp &&& ppnMask).toNat = satp.toNat % 2 ^ 20 := Nat.and_two_pow_sub_one_eq_mod _ 20
  rw [rootTable, BitVec.toNat_shiftLeft, hmask, Nat.shiftLeft_eq]
  omega

theorem toNat_pteAddr {table : Word} (htable : table.toNat % 2 ^ 12 = 0) (level : Nat) :
    (pteAddr va level table).toNat = table.toNat + Sv32.vpn va level * 4 := by
  have hidx : ((va >>> (12 + 10 * level)) &&& 0x3FF).toNat = Sv32.vpn va level := by
    rw [BitVec.toNat_and, BitVec.toNat_ushiftRight, Nat.shiftRight_eq_div_pow]
    exact Nat.and_two_pow_sub_one_eq_mod _ 10
  have hlt : Sv32.vpn va level < 2 ^ 10 := Nat.mod_lt _ (by decide)
  have htop := table.isLt
  rw [pteAddr, BitVec.toNat_add, BitVec.toNat_mul, hidx]
  simp only [BitVec.reduceToNat]
  omega

theorem misaligned_iff : pteBase pte &&& 0x003FFFFF = 0 ↔ Sv32.ppn pte % 2 ^ 10 = 0 := by
  have hmask : (pteBase pte &&& 0x003FFFFF).toNat = (pteBase pte).toNat % 2 ^ 22 :=
    Nat.and_two_pow_sub_one_eq_mod _ 22
  have hzero : pteBase pte &&& 0x003FFFFF = 0 ↔ (pteBase pte &&& 0x003FFFFF).toNat = 0 := by
    rw [← BitVec.toNat_inj]
    rfl
  rw [hzero, hmask, toNat_pteBase]
  omega

/-- Low bits joined to a base that has none of them. -/
theorem toNat_or_low {base low : Word} {k : Nat} (hbase : base.toNat % 2 ^ k = 0) (hlow : low.toNat < 2 ^ k) :
    (base ||| low).toNat = base.toNat + low.toNat := by
  have hmul : base.toNat = 2 ^ k * (base.toNat / 2 ^ k) := (Nat.mul_div_cancel' (Nat.dvd_of_mod_eq_zero hbase)).symm
  rw [BitVec.toNat_or, hmul, Nat.two_pow_add_eq_or_of_lt hlow]

end

/-! ## The walk -/

section

variable {va satp : Word} {rd : Word → Option Word} {rd' : Nat → Option Word}

/-- What the code makes of a leaf, before it asks whether the access is permitted. -/
def takeLeaf (va : Word) : Nat × Word → Except WalkFault Leaf
  | (0, pte) => .ok ⟨false, pteBase pte, pte⟩
  | (_ + 1, pte) =>
    if Sv32.ppn pte % 2 ^ 10 ≠ 0 then .error .page else .ok ⟨true, pteBase pte ||| (va &&& 0x003FF000), pte⟩

theorem walkLevel_zero (hrd : ∀ a : Word, rd' a.toNat = rd a) {table : Word} (htable : table.toNat % 2 ^ 12 = 0) :
    (match walkLevel rd va 0 table with
      | .error f => .error f
      | .ok (.inl leaf) => .ok leaf
      | .ok (.inr _) => .error .page) = (Sv32.walk rd' va 0 table.toNat).bind (takeLeaf va) := by
  unfold walkLevel Sv32.walk
  rw [← toNat_pteAddr htable, hrd]
  cases rd (pteAddr va 0 table) with
  | none => rfl
  | some pte =>
    dsimp only
    have hbad := @malformed_iff pte
    have hleaf := @leaf_iff pte
    by_cases hinvalid : pte &&& pteV = 0 ∨ (pte &&& pteW ≠ 0 ∧ pte &&& pteR = 0)
    · rw [if_pos hinvalid, if_pos (hbad.mpr (.inl hinvalid))]
      rfl
    rw [if_neg hinvalid]
    by_cases hptr : pte &&& (pteR ||| pteX) = 0
    · have hno : ¬Sv32.leaf pte = true := by rw [hleaf.mp hptr]; decide
      rw [if_pos hptr, if_pos rfl, if_neg hno, ite_self]
      rfl
    · have hyes : Sv32.leaf pte = true := Bool.not_eq_false _ ▸ mt hleaf.mpr hptr
      have hgood : ¬Sv32.malformed pte = true := by
        rw [hbad]
        rintro (h | h)
        · exact hinvalid h
        · exact hptr h.1
      rw [if_neg hptr, if_neg (by decide), if_neg hgood, if_pos hyes]
      rfl

/-- The code's walk is the specification's, up to what it makes of the leaf. -/
theorem walk_eq (hrd : ∀ a : Word, rd' a.toNat = rd a) (hpast : ∀ pa, 2 ^ 32 ≤ pa → rd' pa = none) :
    walk rd satp va = (Sv32.walk rd' va 1 (satp.toNat % 2 ^ 20 * 2 ^ 12)).bind (takeLeaf va) := by
  have hroot : (rootTable satp).toNat % 2 ^ 12 = 0 := by rw [toNat_rootTable]; omega
  rw [← toNat_rootTable]
  unfold walk Sv32.walk
  rw [← toNat_pteAddr hroot, hrd]
  unfold walkLevel
  cases rd (pteAddr va 1 (rootTable satp)) with
  | none => rfl
  | some pte =>
    dsimp only
    have hbad := @malformed_iff pte
    have hleaf := @leaf_iff pte
    by_cases hinvalid : pte &&& pteV = 0 ∨ (pte &&& pteW ≠ 0 ∧ pte &&& pteR = 0)
    · rw [if_pos hinvalid, if_pos (hbad.mpr (.inl hinvalid))]
      rfl
    rw [if_neg hinvalid]
    by_cases hptr : pte &&& (pteR ||| pteX) = 0
    · rw [if_pos hptr, if_neg (by decide)]
      by_cases hres : pte &&& (pteD ||| pteA ||| pteU) ≠ 0
      · rw [if_pos hres, if_pos (hbad.mpr (.inr ⟨hptr, hres⟩))]
        rfl
      have hgood : ¬Sv32.malformed pte = true := by
        rw [hbad]
        rintro (h | h)
        · exact hinvalid h
        · exact hres h.2
      have hno : ¬Sv32.leaf pte = true := by rw [hleaf.mp hptr]; decide
      rw [if_neg hres, if_neg hgood, if_neg hno]
      by_cases hbus : pte &&& ptePpnPastBus = 0
      · have hppn := ptePpnPastBus_iff.mp hbus
        have hbase : (pteBase pte).toNat = Sv32.ppn pte * 2 ^ 12 := by
          rw [toNat_pteBase]
          omega
        rw [if_neg (not_not.mpr hbus), ← hbase]
        exact walkLevel_zero hrd (by omega)
      · -- the next table is past the bus
        have hppn := mt ptePpnPastBus_iff.mpr hbus
        have hnone : rd' (Sv32.ppn pte * 2 ^ 12 + Sv32.vpn va 0 * 4) = none := hpast _ (by omega)
        rw [if_pos hbus]
        unfold Sv32.walk
        rw [hnone]
        rfl
    · have hgood : ¬Sv32.malformed pte = true := by
        rw [hbad]
        rintro (h | h)
        · exact hinvalid h
        · exact hptr h.1
      have hyes : Sv32.leaf pte = true := Bool.not_eq_false _ ▸ mt hleaf.mpr hptr
      rw [if_neg hptr, if_pos rfl, if_neg hgood, if_pos hyes]
      simp only [ne_eq, misaligned_iff, Except.bind, takeLeaf]
      split_ifs <;> rfl

end

/-! ## Translation -/

namespace Hart

variable {δ : Type} {h : Hart δ} {va : Word} {acc : Access}

theorem leafPermits_eq (pte : Word) (priv : Priv) :
    h.leafPermits pte acc priv =
      Sv32.permits (h.mstatus &&& mstatusSum != 0) (h.mstatus &&& mstatusMxr != 0) priv acc pte := by
  have hsum : (h.mstatus &&& mstatusSum = 0) ↔ (h.mstatus &&& mstatusSum != 0) = false := by simp
  have hmxr : (h.mstatus &&& mstatusMxr = 0) ↔ (h.mstatus &&& mstatusMxr != 0) = false := by simp
  unfold leafPermits Sv32.permits
  simp only [ne_eq, pteR_iff, pteW_iff, pteX_iff, pteU_iff, pteA_iff, pteD_iff, hsum, hmxr]
  generalize (h.mstatus &&& mstatusSum != 0) = sum
  generalize (h.mstatus &&& mstatusMxr != 0) = mxr
  have hkind (a b : Access) : (a != b) = !decide (a = b) := rfl
  cases acc <;> by_cases hpriv : priv = privU <;> cases Sv32.user pte <;> simp [hpriv, hkind, Bool.and_assoc]

/-- Where the code's leaf is the specification's, so is the address. -/
theorem toNat_takeLeaf {i : Nat} {pte : Word} {leaf : Leaf} (hi : i ≤ 1) (ht : takeLeaf va (i, pte) = .ok leaf)
    (hbus : Sv32.ppn pte < 2 ^ 20) : (leaf.base ||| pageOffset va).toNat = Sv32.physical va i pte := by
  have hoff : (pageOffset va).toNat < 2 ^ 12 := by rw [toNat_pageOffset]; omega
  have hbase : (pteBase pte).toNat = Sv32.ppn pte * 2 ^ 12 := by rw [toNat_pteBase]; omega
  obtain rfl | rfl : i = 0 ∨ i = 1 := by omega
  · cases ht
    dsimp only
    rw [toNat_or_low (by omega) hoff, hbase, toNat_pageOffset, Sv32.physical]
    omega
  · simp only [takeLeaf] at ht
    split_ifs at ht with hmis
    cases ht
    dsimp only
    have hlow : (va &&& 0x003FF000) ||| pageOffset va = va &&& 0x003FFFFF := by
      rw [pageOffset, ← BitVec.and_or_distrib_left]
      rfl
    have hmask : (va &&& 0x003FFFFF).toNat = va.toNat % 2 ^ 22 := Nat.and_two_pow_sub_one_eq_mod _ 22
    rw [BitVec.or_assoc, hlow, toNat_or_low (k := 22) (by omega) (by omega), hbase, hmask, Sv32.physical]
    omega

theorem takeLeaf_pte {i : Nat} {pte : Word} {leaf : Leaf} (ht : takeLeaf va (i, pte) = .ok leaf) : leaf.pte = pte := by
  cases i with
  | zero =>
    cases ht
    rfl
  | succ i =>
    simp only [takeLeaf] at ht
    split_ifs at ht
    cases ht
    rfl

/-- The code refuses the superpages the specification calls misaligned. -/
theorem takeLeaf_eq (va : Word) {i : Nat} (pte : Word) (hi : i ≤ 1) :
    if Sv32.ppn pte % 2 ^ (10 * i) ≠ 0 then takeLeaf va (i, pte) = .error .page
    else ∃ leaf, takeLeaf va (i, pte) = .ok leaf := by
  obtain rfl | rfl : i = 0 ∨ i = 1 := by omega
  · rw [if_neg (by simp [Nat.mod_one])]
    exact ⟨_, rfl⟩
  · simp only [takeLeaf, Nat.mul_one]
    split_ifs with hmis
    · rfl
    · exact ⟨_, rfl⟩

theorem walk_le {rd : Nat → Option Word} {i a : Nat} {r : Nat × Word} (hw : Sv32.walk rd va i a = .ok r) :
    r.1 ≤ i := by
  induction i generalizing a with
  | zero =>
    unfold Sv32.walk at hw
    split at hw
    · cases hw
    · split_ifs at hw
      cases hw
      exact Nat.le_refl 0
  | succ i ih =>
    unfold Sv32.walk at hw
    split at hw
    · cases hw
    · split_ifs at hw
      · cases hw
        exact Nat.le_refl (i + 1)
      · exact Nat.le_succ_of_le (ih hw)

theorem satpRoot {satp : Word} (hsatp : satp &&& 0x00300000 = 0) : satp.toNat % 2 ^ 22 = satp.toNat % 2 ^ 20 := by
  have hbits : (0x00300000 : Word) = BitVec.twoPow 32 20 ||| BitVec.twoPow 32 21 := by decide
  rw [hbits, and_or_eq_zero, Masks.and_twoPow_eq_zero (by decide), Masks.and_twoPow_eq_zero (by decide)] at hsatp
  simp only [BitVec.getLsbD, Nat.testBit_eq_decide_div_mod_eq, decide_eq_false_iff_not] at hsatp
  omega

/-- With nothing cached, a translation is what the specification says. -/
theorem translate_eq_sv32 (hok : h.Ok) (hsatp : h.satp &&& 0x00300000 = 0) (va : Word) (acc : Access) :
    (h.mmuFlushTlb.translate va acc).1 = h.sv32 va acc := by
  rw [translate_flushTlb, translateFresh, sv32]
  split_ifs with hM
  · rfl
  have hrd (a : Word) : h.pteAt a.toNat = h.readPte a := by
    rw [hok.readPte_eq hM, pteAt, if_neg (by have := a.isLt; omega), BitVec.ofNat_toNat, BitVec.setWidth_eq]
  have hpast (pa : Nat) (hpa : 2 ^ 32 ≤ pa) : h.pteAt pa = none := if_pos hpa
  rw [walk_eq hrd hpast, Sv32.translate, satpRoot hsatp]
  cases hw : Sv32.walk h.pteAt va 1 (h.satp.toNat % 2 ^ 20 * 2 ^ 12) with
  | error f => rfl
  | ok r =>
    obtain ⟨i, pte⟩ := r
    have hi : i ≤ 1 := walk_le hw
    have hleaf := takeLeaf_eq va pte hi
    simp only [Except.bind]
    split_ifs at hleaf with hmis
    · rw [hleaf, if_pos hmis]
    obtain ⟨leaf, hleaf⟩ := hleaf
    have hpte : leaf.pte = pte := takeLeaf_pte hleaf
    rw [hleaf, if_neg hmis]
    simp only [hpte, leafPermits_eq]
    split_ifs with hperm hbus
    · rfl
    · have hpa : 2 ^ 32 ≤ Sv32.physical va i pte := by
        rw [ne_eq, ptePpnPastBus_iff] at hbus
        rw [Sv32.physical]
        obtain rfl | rfl : i = 0 ∨ i = 1 := by omega
        all_goals omega
      simp only [if_pos hpa]
    · have hsmall := ptePpnPastBus_iff.mp (not_not.mp hbus)
      have hpa := toNat_takeLeaf hi hleaf hsmall
      have hlt := (leaf.base ||| pageOffset va).isLt
      simp only [← hpa, BitVec.ofNat_toNat, BitVec.setWidth_eq]
      rw [if_neg (by omega)]

end Hart

end Emu.Rv
