-- SUMMARY: Arithmetic of pages: the parts of an address, and what depends on an address only through its page.
import Emu.Rv.Access

/-! # Page arithmetic -/

namespace Emu.Rv

variable {a b va : Word}

/-- The offset of an address in its page. -/
def pageOffset (a : Word) : Word :=
  a &&& (pageSize - 1)

theorem toNat_pageOffset (a : Word) : (pageOffset a).toNat = a.toNat % 4096 := by
  have hmask : (pageSize - 1 : Word) = 4095#32 := by decide
  rw [pageOffset, hmask, BitVec.toNat_and]
  exact Nat.and_two_pow_sub_one_eq_mod a.toNat 12

theorem pageOf_add_pageOffset (a : Word) : pageOf a + pageOffset a = a := by
  have hdisj : pageOf a &&& pageOffset a = 0#32 := by
    ext i hi
    simp only [pageOf, pageOffset, BitVec.getElem_and, BitVec.getElem_not, BitVec.getElem_zero]
    grind
  rw [BitVec.add_eq_or_of_and_eq_zero _ _ hdisj]
  ext i hi
  simp only [pageOf, pageOffset, BitVec.getElem_or, BitVec.getElem_and, BitVec.getElem_not]
  grind

theorem toNat_pageOf (a : Word) : (pageOf a).toNat = a.toNat - a.toNat % 4096 := by
  have hsum := congrArg BitVec.toNat (pageOf_add_pageOffset a)
  have hoff := toNat_pageOffset a
  have hle : (pageOf a).toNat ≤ a.toNat := by
    rw [pageOf, BitVec.toNat_and]
    exact Nat.and_le_left
  have ha := a.isLt
  rw [BitVec.toNat_add] at hsum
  omega

/-- A page base joined with an offset is their sum. -/
theorem toNat_or_pageOffset {base : Word} (hbase : base &&& (pageSize - 1) = 0) (a : Word) :
    (base ||| pageOffset a).toNat = base.toNat + a.toNat % 4096 := by
  have hdisj : base &&& pageOffset a = 0#32 := by
    rw [pageOffset, ← BitVec.and_assoc, BitVec.and_comm base a, BitVec.and_assoc, hbase]
    simp
  have hb : base.toNat % 4096 = 0 := by
    have h0 := toNat_pageOffset base
    rw [pageOffset, hbase] at h0
    exact h0.symm
  rw [← BitVec.add_eq_or_of_and_eq_zero _ _ hdisj, BitVec.toNat_add, toNat_pageOffset]
  have := base.isLt
  omega

theorem pageOf_or_pageOffset {base : Word} (hbase : base &&& (pageSize - 1) = 0) (a : Word) :
    pageOf (base ||| pageOffset a) = base := by
  have hb : base.toNat % 4096 = 0 := by
    have h0 := toNat_pageOffset base
    rw [pageOffset, hbase] at h0
    exact h0.symm
  apply BitVec.eq_of_toNat_eq
  rw [toNat_pageOf, toNat_or_pageOffset hbase]
  omega

theorem pageOf_and_low (a : Word) : pageOf a &&& (pageSize - 1) = 0 := by
  ext i hi
  simp only [pageOf, BitVec.getElem_and, BitVec.getElem_not]
  grind

theorem pageOf_or_self (a : Word) : pageOf a ||| pageOffset a = a := by
  apply BitVec.eq_of_toNat_eq
  rw [toNat_or_pageOffset (pageOf_and_low a), toNat_pageOf]
  have := Nat.mod_le a.toNat 4096
  omega

/-! ## Page numbers -/

theorem vpn_ne_none (a : Word) : a >>> 12 ≠ dtlbNone := by
  intro h
  have hn := congrArg BitVec.toNat h
  have ha := a.isLt
  simp only [BitVec.toNat_ushiftRight, Nat.shiftRight_eq_div_pow, dtlbNone, BitVec.reduceToNat] at hn
  omega

theorem region_of_vpn (h : a >>> 12 = b >>> 12) : a >>> 22 = b >>> 22 := by
  have hsplit (c : Word) : c >>> 22 = (c >>> 12) >>> 10 := by rw [← BitVec.shiftRight_add]
  rw [hsplit a, hsplit b, h]

theorem pageOf_of_vpn (h : a >>> 12 = b >>> 12) : pageOf a = pageOf b := by
  have hn := congrArg BitVec.toNat h
  simp only [BitVec.toNat_ushiftRight, Nat.shiftRight_eq_div_pow] at hn
  apply BitVec.eq_of_toNat_eq
  rw [toNat_pageOf, toNat_pageOf]
  omega

theorem pteAddr_of_vpn (h : a >>> 12 = b >>> 12) {level : Nat} (hl : level ≤ 1) (table : Word) :
    pteAddr a level table = pteAddr b level table := by
  obtain rfl | rfl : level = 0 ∨ level = 1 := by omega
  · simp only [pteAddr, Nat.mul_zero, Nat.add_zero, h]
  · simp only [pteAddr, Nat.mul_one, Nat.reduceAdd, region_of_vpn h]

theorem walkLevel_of_vpn (h : a >>> 12 = b >>> 12) (rd : Word → Option Word) {level : Nat} (hl : level ≤ 1)
    (table : Word) : walkLevel rd a level table = walkLevel rd b level table := by
  have hmask : ~~~(pageSize - 1) &&& (0x003FF000 : Word) = 0x003FF000 := by decide
  have hmid (c : Word) : c &&& 0x003FF000 = pageOf c &&& 0x003FF000 := by
    rw [pageOf, BitVec.and_assoc, hmask]
  simp only [walkLevel, pteAddr_of_vpn h hl, hmid a, hmid b, pageOf_of_vpn h]

/-- The walk looks at the page number only. -/
theorem walk_of_vpn (h : a >>> 12 = b >>> 12) (rd : Word → Option Word) (satp : Word) :
    walk rd satp a = walk rd satp b := by
  simp only [walk, walkLevel_of_vpn h rd (Nat.le_refl 1), walkLevel_of_vpn h rd (Nat.zero_le 1)]

/-! ## The walk -/

/-- The walk depends on the words it reads only. -/
theorem walk_congr {rd rd' : Word → Option Word} {satp : Word}
    (h : ∀ w ∈ walkWords rd satp va, rd' w = rd w) : walk rd' satp va = walk rd satp va := by
  have hlevel (level : Nat) (table : Word) (hw : rd' (pteAddr va level table) = rd (pteAddr va level table)) :
      walkLevel rd' va level table = walkLevel rd va level table := by
    simp only [walkLevel, hw]
  have hroot := hlevel 1 (rootTable satp) (h _ (List.mem_cons_self ..))
  rw [walk, walk, hroot]
  rcases hr : walkLevel rd va 1 (rootTable satp) with f | leaf | table
  · rfl
  · rfl
  · have hmem : pteAddr va 0 table ∈ walkWords rd satp va := by
      rw [walkWords, hr]
      exact List.mem_cons_of_mem _ (List.mem_singleton_self _)
    simp only [hlevel 0 table (h _ hmem)]

/-- A leaf gives the address of a page. -/
theorem walkLevel_base {rd : Word → Option Word} {level : Nat} {table : Word} {leaf : Leaf}
    (h : walkLevel rd va level table = .ok (.inl leaf)) : leaf.base &&& (pageSize - 1) = 0 := by
  have hpage (pte : Word) : pteBase pte &&& (pageSize - 1) = 0 := by
    apply BitVec.eq_of_toNat_eq
    have hoff := toNat_pageOffset (pteBase pte)
    rw [pageOffset] at hoff
    have hzero : BitVec.toNat (0 : Word) = 0 := rfl
    rw [hoff, hzero, pteBase, BitVec.toNat_shiftLeft, Nat.shiftLeft_eq]
    omega
  have hmask : (0x003FF000 : Word) &&& (pageSize - 1) = 0 := by decide
  rw [walkLevel] at h
  split at h
  · cases h
  · split_ifs at h <;> cases h
    · rw [BitVec.and_or_distrib_right, hpage, BitVec.and_assoc, hmask]
      simp
    · exact hpage _

theorem walk_base {rd : Word → Option Word} {satp : Word} {leaf : Leaf} (h : walk rd satp va = .ok leaf) :
    leaf.base &&& (pageSize - 1) = 0 := by
  rw [walk] at h
  split at h
  · cases h
  next hl =>
    cases h
    exact walkLevel_base hl
  · split at h
    · cases h
    next hl =>
      cases h
      exact walkLevel_base hl
    · cases h

end Emu.Rv
