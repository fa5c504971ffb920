-- SUMMARY: Physical memory protection as the privileged specification has it, and what the four checks say of it.
import Mathlib
import Emu.Rv.Trace

/-! # The specification of physical memory protection

An entry covers a set of bytes of the 34-bit address space. The lowest-numbered entry that covers any byte of an
access decides it: it must cover every byte, and its permissions must allow the access, unless the entry is unlocked
and the access is machine mode's. An access no entry covers a byte of is machine mode's alone. -/

namespace Emu.Rv

variable {δ : Type} {h : Hart δ} {i size : Nat} {addr lo hi : Word} {acc : Access} {eff : Priv}

/-- The address-matching field of an entry. -/
inductive PmpMode where
  | off | tor | na4 | napot
  deriving DecidableEq, Repr

def pmpMode (cfg : Word) : PmpMode :=
  match ((cfg &&& pmpA) >>> 3).toNat with
  | 1 => .tor
  | 2 => .na4
  | 3 => .napot
  | _ => .off

/-- `a` ends in exactly `t` ones. -/
def EndsInOnes (a : Word) (t : Nat) : Prop :=
  (∀ k < t, a.getLsbD k = true) ∧ a.getLsbD t = false

namespace Hart

/-- Where a top-of-range entry begins. -/
def pmpFloor (h : Hart δ) (i : Nat) : Word := if i = 0 then 0 else h.pmpaddr (i - 1)

/-- Entry `i` covers the byte at `x`. -/
def PmpCovers (h : Hart δ) (i x : Nat) : Prop :=
  match pmpMode (h.pmpCfg i) with
  | .off => False
  | .tor => (h.pmpFloor i).toNat ≤ x / 4 ∧ x / 4 < (h.pmpaddr i).toNat
  | .na4 => x / 4 = (h.pmpaddr i).toNat
  | .napot => ∃ t, EndsInOnes (h.pmpaddr i) t ∧ x / 4 / 2 ^ (t + 1) = (h.pmpaddr i).toNat / 2 ^ (t + 1)

/-- Entry `i` covers some byte of the access. -/
def PmpMatches (h : Hart δ) (i addr size : Nat) : Prop :=
  ∃ x, addr ≤ x ∧ x < addr + size ∧ h.PmpCovers i x

/-- Entry `i` lets the access go ahead. -/
def PmpGrants (h : Hart δ) (eff : Priv) (i addr size : Nat) (acc : Access) : Prop :=
  (∀ x, addr ≤ x → x < addr + size → h.PmpCovers i x) ∧
    ((h.pmpCfg i &&& pmpL = 0 ∧ eff = privM) ∨ h.pmpCfg i &&& pmpBit acc ≠ 0)

/-- The specification permits the access. -/
def PmpPermits (h : Hart δ) (eff : Priv) (addr size : Nat) (acc : Access) : Prop :=
  (∃ i < pmpEntries, h.PmpMatches i addr size ∧ (∀ j < i, ¬h.PmpMatches j addr size) ∧
    h.PmpGrants eff i addr size acc) ∨
  ((∀ i < pmpEntries, ¬h.PmpMatches i addr size) ∧ eff = privM)

end Hart

/-! ## Ranges

The code's bounds are those of the specification, counted in words, but for saturation at the top. -/

theorem toNat_pmpBytes (words : BitVec 64) :
    (pmpBytes words).toNat = if 2 ^ 30 ≤ words.toNat then 2 ^ 32 - 1 else 4 * words.toNat := by
  rw [pmpBytes]
  split_ifs with h1 h2 h2
  · rfl
  · bv_omega
  · bv_omega
  · rw [BitVec.toNat_setWidth, BitVec.toNat_shiftLeft, Nat.shiftLeft_eq]
    omega

theorem endsInOnes_unique {a : Word} {t u : Nat} (ht : EndsInOnes a t) (hu : EndsInOnes a u) : t = u := by
  obtain hlt | heq | hlt := Nat.lt_trichotomy t u
  · exact absurd (hu.1 t hlt) (by rw [ht.2]; decide)
  · exact heq
  · exact absurd (ht.1 u hlt) (by rw [hu.2]; decide)

theorem endsInOnes_all {a : Word} (ha : ~~~a = 0) : EndsInOnes a 32 := by
  refine ⟨?_, BitVec.getLsbD_of_ge _ _ (Nat.le_refl 32)⟩
  intro k hk
  have h := congrArg (BitVec.getLsbD · k) ha
  simpa [hk] using h

theorem endsInOnes_ctz {a : Word} (ha : ~~~a ≠ 0) : (~~~a).ctz.toNat < 32 ∧ EndsInOnes a (~~~a).ctz.toNat := by
  have hlt : (~~~a).ctz.toNat < 32 := by
    have h : (~~~a).ctz < 32#32 := BitVec.ctz_lt_iff_ne_zero.mpr ha
    bv_omega
  refine ⟨hlt, ?_, ?_⟩
  · intro k hk
    have h := BitVec.getLsbD_false_of_lt_ctz hk
    rw [BitVec.getLsbD_not] at h
    simpa [show k < 32 by omega] using h
  · have h := BitVec.getLsbD_true_ctz_of_ne_zero ha
    rw [BitVec.getLsbD_not] at h
    simpa [hlt] using h

theorem toNat_napotBase (a : Word) {n : Nat} (hn : n < 32) :
    (a.setWidth 64 &&& ~~~((1#64 <<< (n + 1)) - 1)).toNat = a.toNat / 2 ^ (n + 1) * 2 ^ (n + 1) := by
  have hmasks : ∀ n < 32, ~~~((1#64 <<< (n + 1)) - 1) = BitVec.allOnes 64 <<< (n + 1) := by decide +kernel
  have ha := a.isLt
  have hle := Nat.div_mul_le_self a.toNat (2 ^ (n + 1))
  rw [hmasks n hn, ← BitVec.shiftLeft_ushiftRight, BitVec.toNat_shiftLeft, BitVec.toNat_ushiftRight, Nat.shiftLeft_eq,
    Nat.shiftRight_eq_div_pow, BitVec.toNat_setWidth, Nat.mod_eq_of_lt (a := a.toNat) (by omega),
    Nat.mod_eq_of_lt (by omega)]

namespace Hart

/-- The words `[first, stop)` entry `i` covers, in the part of the address space an access can reach, and the bounds
the code has for them. -/
structure PmpSpan (h : Hart δ) (i : Nat) (lo hi : Word) (first stop : Nat) : Prop where
  nonempty : first < stop
  covers : ∀ x < 2 ^ 34, h.PmpCovers i x ↔ first ≤ x / 4 ∧ x / 4 < stop
  lo : lo.toNat = if 2 ^ 30 ≤ first then 2 ^ 32 - 1 else 4 * first
  hi : hi.toNat = if 2 ^ 30 ≤ stop then 2 ^ 32 - 1 else 4 * stop

theorem pmpRange_eq (h : Hart δ) (i : Nat) (cfg : Word) :
    h.pmpRange i cfg =
      match pmpMode cfg with
      | .off => none
      | .tor =>
        if h.pmpaddr i ≤ h.pmpFloor i then none
        else some (pmpBytes ((h.pmpFloor i).setWidth 64), pmpBytes ((h.pmpaddr i).setWidth 64))
      | .na4 => some (pmpBytes ((h.pmpaddr i).setWidth 64), pmpBytes ((h.pmpaddr i).setWidth 64 + 1))
      | .napot =>
        let n := if ~~~h.pmpaddr i = 0 then 31 else (~~~h.pmpaddr i).ctz.toNat
        let base := (h.pmpaddr i).setWidth 64 &&& ~~~((1#64 <<< (n + 1)) - 1)
        some (pmpBytes base, pmpBytes (base + 1#64 <<< (n + 1))) := by
  unfold pmpRange pmpMode
  generalize ((cfg &&& pmpA) >>> 3).toNat = mode
  match mode with
  | 0 | 1 | 2 | 3 => rfl
  | _ + 4 => rfl

theorem pmpRange_none (hr : h.pmpRange i (h.pmpCfg i) = none) (x : Nat) : ¬h.PmpCovers i x := by
  rw [pmpRange_eq] at hr
  rw [PmpCovers]
  cases hmode : pmpMode (h.pmpCfg i) with
  | off => exact id
  | tor =>
    -- empty or inverted
    simp only [hmode] at hr
    split_ifs at hr with hle
    simp only
    bv_omega
  | na4 => simp [hmode] at hr
  | napot => simp [hmode] at hr

/-- A naturally aligned power of two. -/
theorem pmpSpan_napot {n : Nat} (hn : n < 32)
    (hcovers : ∀ x < 2 ^ 34, h.PmpCovers i x ↔ x / 4 / 2 ^ (n + 1) = (h.pmpaddr i).toNat / 2 ^ (n + 1)) :
    let base := (h.pmpaddr i).setWidth 64 &&& ~~~((1#64 <<< (n + 1)) - 1)
    ∃ first stop, h.PmpSpan i (pmpBytes base) (pmpBytes (base + 1#64 <<< (n + 1))) first stop := by
  intro base
  have hbase : base.toNat = (h.pmpaddr i).toNat / 2 ^ (n + 1) * 2 ^ (n + 1) := toNat_napotBase _ hn
  have hpow : 2 ^ (n + 1) ≤ 2 ^ 32 := Nat.pow_le_pow_right (by decide) (by omega)
  have hpos : 0 < 2 ^ (n + 1) := Nat.two_pow_pos _
  have haddr := (h.pmpaddr i).isLt
  have hle := Nat.div_mul_le_self (h.pmpaddr i).toNat (2 ^ (n + 1))
  have hsize : (1#64 <<< (n + 1)).toNat = 2 ^ (n + 1) := by
    rw [BitVec.toNat_shiftLeft, Nat.shiftLeft_eq]
    simp only [BitVec.toNat_ofNat, Nat.reducePow, Nat.reduceMod, Nat.one_mul]
    omega
  have hstop : (base + 1#64 <<< (n + 1)).toNat = base.toNat + 2 ^ (n + 1) := by
    rw [BitVec.toNat_add, hsize]
    omega
  refine ⟨base.toNat, base.toNat + 2 ^ (n + 1), by omega, ?_, toNat_pmpBytes _, ?_⟩
  · intro x hx
    rw [hcovers x hx, Nat.div_eq_iff hpos, ← hbase]
    omega
  · rw [toNat_pmpBytes, hstop]

theorem pmpRange_some (hr : h.pmpRange i (h.pmpCfg i) = some (lo, hi)) : ∃ first stop, h.PmpSpan i lo hi first stop := by
  have haddr := (h.pmpaddr i).isLt
  have hwide (a : Word) : (a.setWidth 64).toNat = a.toNat := by
    rw [BitVec.toNat_setWidth]
    exact Nat.mod_eq_of_lt (Nat.lt_trans a.isLt (by decide))
  rw [pmpRange_eq] at hr
  cases hmode : pmpMode (h.pmpCfg i) with
  | off => simp [hmode] at hr
  | tor =>
    simp only [hmode] at hr
    split_ifs at hr with hle
    cases hr
    refine ⟨(h.pmpFloor i).toNat, (h.pmpaddr i).toNat, by bv_omega, ?_, ?_, ?_⟩
    · intro x _
      rw [PmpCovers, hmode]
    · rw [toNat_pmpBytes, hwide]
    · rw [toNat_pmpBytes, hwide]
  | na4 =>
    simp only [hmode] at hr
    cases hr
    have hnext : ((h.pmpaddr i).setWidth 64 + 1).toNat = (h.pmpaddr i).toNat + 1 := by
      rw [BitVec.toNat_add, hwide]
      simp only [BitVec.reduceToNat]
      omega
    refine ⟨(h.pmpaddr i).toNat, (h.pmpaddr i).toNat + 1, by omega, ?_, ?_, ?_⟩
    · intro x _
      simp only [PmpCovers, hmode]
      omega
    · rw [toNat_pmpBytes, hwide]
    · rw [toNat_pmpBytes, hnext]
  | napot =>
    simp only [hmode] at hr
    cases hr
    split_ifs with hones
    · -- all ones: the specification has one bit more, out of reach
      apply pmpSpan_napot (by decide)
      intro x hx
      have hends : EndsInOnes (h.pmpaddr i) 32 := endsInOnes_all hones
      have hsmall (n : Nat) (hn : n < 2 ^ 32) : n / 2 ^ 32 = 0 ∧ n / 2 ^ 33 = 0 := by omega
      simp only [PmpCovers, hmode, Nat.reduceAdd, hsmall _ haddr, hsmall (x / 4) (by omega), iff_true]
      exact ⟨32, hends, by simp only [Nat.reduceAdd, hsmall _ haddr, hsmall (x / 4) (by omega)]⟩
    · obtain ⟨hn, hends⟩ := endsInOnes_ctz hones
      apply pmpSpan_napot hn
      intro x _
      simp only [PmpCovers, hmode]
      constructor
      · rintro ⟨t, ht, hx⟩
        rw [endsInOnes_unique hends ht]
        exact hx
      · exact fun hx => ⟨_, hends, hx⟩

/-! ## The check -/

theorem PmpSpan.matches_iff {first stop : Nat} (hs : h.PmpSpan i lo hi first stop) (hsize : 0 < size)
    (htop : addr.toNat + size < 2 ^ 32) :
    h.PmpMatches i addr.toNat size ↔ ¬(addr + BitVec.ofNat 32 size - 1 < lo ∨ addr ≥ hi) := by
  have hlast : (addr + BitVec.ofNat 32 size - 1).toNat = addr.toNat + size - 1 := by bv_omega
  have hne := hs.nonempty
  have hlo := hs.lo
  have hhi := hs.hi
  constructor
  · rintro ⟨x, hge, hlt, hx⟩
    obtain ⟨h1, h2⟩ := (hs.covers x (by omega)).mp hx
    rw [BitVec.lt_def, ge_iff_le, BitVec.le_def, hlast]
    split_ifs at hlo hhi <;> omega
  · intro hin
    rw [BitVec.lt_def, ge_iff_le, BitVec.le_def, hlast] at hin
    -- the first byte of the two ranges' intersection
    refine ⟨max addr.toNat lo.toNat, Nat.le_max_left _ _, ?_, (hs.covers _ ?_).mpr ?_⟩
    all_goals split_ifs at hlo hhi <;> omega

theorem PmpSpan.holds_iff {first stop : Nat} (hs : h.PmpSpan i lo hi first stop) (hsize : 0 < size)
    (htop : addr.toNat + size < 2 ^ 32) :
    (∀ x, addr.toNat ≤ x → x < addr.toNat + size → h.PmpCovers i x) ↔
      ¬(addr < lo ∨ addr + BitVec.ofNat 32 size - 1 ≥ hi) := by
  have hlast : (addr + BitVec.ofNat 32 size - 1).toNat = addr.toNat + size - 1 := by bv_omega
  have hlo := hs.lo
  have hhi := hs.hi
  rw [BitVec.lt_def, ge_iff_le, BitVec.le_def, hlast]
  constructor
  · intro hall
    have h1 := (hs.covers addr.toNat (by omega)).mp (hall _ (Nat.le_refl _) (by omega))
    have h2 := (hs.covers (addr.toNat + size - 1) (by omega)).mp (hall _ (by omega) (by omega))
    split_ifs at hlo hhi <;> omega
  · intro hin x hge hlt
    apply (hs.covers x (by omega)).mpr
    split_ifs at hlo hhi <;> omega

/-- What the entries from `k` on make of the access. -/
def PmpPermitsFrom (h : Hart δ) (k n : Nat) (eff : Priv) (addr size : Nat) (acc : Access) : Prop :=
  (∃ i, k ≤ i ∧ i < k + n ∧ h.PmpMatches i addr size ∧ (∀ j, k ≤ j → j < i → ¬h.PmpMatches j addr size) ∧
    h.PmpGrants eff i addr size acc) ∨
  ((∀ i, k ≤ i → i < k + n → ¬h.PmpMatches i addr size) ∧ eff = privM)

theorem pmpPermitsFrom_skip {k n a : Nat} (hk : ¬h.PmpMatches k a size) :
    h.PmpPermitsFrom k (n + 1) eff a size acc ↔ h.PmpPermitsFrom (k + 1) n eff a size acc := by
  have hlater {i : Nat} (hge : k ≤ i) (hm : h.PmpMatches i a size) : k + 1 ≤ i := by
    obtain rfl | hlt := Nat.eq_or_lt_of_le hge
    · exact absurd hm hk
    · exact hlt
  constructor
  · rintro (⟨i, hge, hlt, hm, hfirst, hg⟩ | ⟨hnone, hM⟩)
    · exact .inl ⟨i, hlater hge hm, by omega, hm, fun j hj => hfirst j (by omega), hg⟩
    · exact .inr ⟨fun i hge hlt => hnone i (by omega) (by omega), hM⟩
  · rintro (⟨i, hge, hlt, hm, hfirst, hg⟩ | ⟨hnone, hM⟩)
    · exact .inl ⟨i, by omega, by omega, hm, fun j hj hji hmj => hfirst j (hlater hj hmj) hji hmj, hg⟩
    · exact .inr ⟨fun i hge hlt hm => hnone i (hlater hge hm) (by omega) hm, hM⟩

theorem pmpPermitsFrom_match {k n a : Nat} (hk : h.PmpMatches k a size) :
    h.PmpPermitsFrom k (n + 1) eff a size acc ↔ h.PmpGrants eff k a size acc := by
  constructor
  · rintro (⟨i, hge, hlt, hm, hfirst, hg⟩ | ⟨hnone, -⟩)
    · obtain rfl | hlt := Nat.eq_or_lt_of_le hge
      · exact hg
      · exact absurd hk (hfirst k (Nat.le_refl k) hlt)
    · exact absurd hk (hnone k (Nat.le_refl k) (by omega))
  · intro hg
    exact .inl ⟨k, Nat.le_refl k, by omega, hk, fun j hge hlt => by omega, hg⟩

theorem pmpScan_iff (hsize : 0 < size) (htop : addr.toNat + size < 2 ^ 32) (k n : Nat) :
    h.pmpScan eff addr (addr + BitVec.ofNat 32 size - 1) acc (List.range' k n) = true ↔
      h.PmpPermitsFrom k n eff addr.toNat size acc := by
  induction n generalizing k with
  | zero =>
    simp only [List.range'_zero, pmpScan, decide_eq_true_iff, PmpPermitsFrom]
    constructor
    · exact fun hM => .inr ⟨fun i hge hlt => by omega, hM⟩
    · rintro (⟨i, hge, hlt, -⟩ | ⟨-, hM⟩)
      · omega
      · exact hM
  | succ n ih =>
    rw [List.range'_succ, pmpScan]
    cases hr : h.pmpRange k (h.pmpCfg k) with
    | none =>
      have hk : ¬h.PmpMatches k addr.toNat size := by
        rintro ⟨x, -, -, hx⟩
        exact pmpRange_none hr x hx
      exact (ih (k + 1)).trans (pmpPermitsFrom_skip hk).symm
    | some range =>
      obtain ⟨lo, hi⟩ := range
      obtain ⟨first, stop, hs⟩ := pmpRange_some hr
      have hm := hs.matches_iff hsize htop
      have hall := hs.holds_iff hsize htop
      dsimp only
      split_ifs with hout hpart hunlocked
      · exact (ih (k + 1)).trans (pmpPermitsFrom_skip (by rw [hm]; exact not_not.mpr hout)).symm
      all_goals rw [pmpPermitsFrom_match (hm.mpr hout), PmpGrants, hall]
      · exact iff_of_false (by decide) fun hg => hg.1 hpart
      · exact iff_of_true rfl ⟨hpart, .inl hunlocked⟩
      · simp only [hpart, hunlocked, not_false_eq_true, true_and, false_or, decide_eq_true_iff]

/-- `rv_pmp_check` permits what the specification permits. -/
theorem pmpCheckAt_iff (hsize : 0 < size) (htop : addr.toNat + size < 2 ^ 32) :
    h.pmpCheckAt eff addr size acc = true ↔ h.PmpPermits eff addr.toNat size acc := by
  rw [pmpCheckAt, List.range_eq_range', pmpScan_iff hsize htop]
  simp only [PmpPermitsFrom, PmpPermits, Nat.zero_le, Nat.zero_add, true_and, true_imp_iff]

/-! ## The approximations -/

/-- `rv_pmp_page_rights` grants what the check grants, wherever in the page. -/
theorem pmpCheckAt_of_pageRights {priv : Priv} (hsize : 0 < size) (hpage : addr.toNat % 4096 + size ≤ 4096)
    (hr : (h.pmpPageRights (pageOf addr) priv).of acc = true) : h.pmpCheckAt priv addr size acc = true := by
  rw [pmpPageRights] at hr
  split_ifs at hr with hM
  · cases acc <;> cases hr
  · have hbase := toNat_pageOf addr
    have haddr := addr.isLt
    have hlen : (pageSize - 1 : Word).toNat = 4095 := by decide
    refine pmpScan_of_pageScan hM ?_ ?_ ?_ hr <;> bv_omega

theorem pmpMode_off {cfg : Word} (ha : cfg &&& pmpA = 0) : pmpMode cfg = .off := by
  rw [pmpMode, ha]
  rfl

/-- An entry covers whole words. -/
theorem pmpCovers_word {x y : Nat} (hxy : x / 4 = y / 4) (hx : h.PmpCovers i x) : h.PmpCovers i y := by
  rw [PmpCovers] at hx ⊢
  rw [← hxy]
  exact hx

/-- An entry that covers a byte binds machine mode only if some entry is locked. -/
theorem pmpL_of_covers {x : Nat} (hlocked : h.pmpLocked = false) (hi : i < pmpEntries) (hx : h.PmpCovers i x) :
    h.pmpCfg i &&& pmpL = 0 := by
  by_contra hl
  have ha : h.pmpCfg i &&& pmpA ≠ 0 := by
    intro ha
    rw [PmpCovers, pmpMode_off ha] at hx
    exact hx
  rw [pmpLocked, List.any_eq_false] at hlocked
  have hno := hlocked i (List.mem_range.mpr hi)
  simp only [Bool.and_eq_true, bne_iff_ne, ne_eq, not_and, not_not] at hno
  exact ha (hno hl)

/-- In machine mode with no entry locked, an access within a word cannot be refused: no entry covers half of it. -/
theorem pmpPermits_of_unlocked {a : Nat} (hgranule : a % 4 + size ≤ 4) (hlocked : h.pmpLocked = false) :
    h.PmpPermits privM a size acc := by
  classical
  by_cases hex : ∃ i, i < pmpEntries ∧ h.PmpMatches i a size
  · obtain ⟨hi, hm⟩ := Nat.find_spec hex
    have hfirst (j : Nat) (hj : j < Nat.find hex) : ¬h.PmpMatches j a size :=
      fun hmj => Nat.find_min hex hj ⟨Nat.lt_trans hj hi, hmj⟩
    have hall (x : Nat) (hge : a ≤ x) (hlt : x < a + size) : h.PmpCovers (Nat.find hex) x := by
      obtain ⟨y, hy, hy', hc⟩ := hm
      exact pmpCovers_word (by omega) hc
    have hunlocked : h.pmpCfg (Nat.find hex) &&& pmpL = 0 := by
      obtain ⟨y, -, -, hc⟩ := hm
      exact pmpL_of_covers hlocked hi hc
    exact .inl ⟨Nat.find hex, hi, hm, hfirst, hall, .inl ⟨hunlocked, rfl⟩⟩
  · exact .inr ⟨fun i hi hm => hex ⟨i, hi, hm⟩, rfl⟩

/-- An access that misses every range is machine mode's. -/
theorem pmpScan_of_miss {last : Word} {is : List Nat}
    (hmiss : ∀ i ∈ is, ∀ lo hi, h.pmpRange i (h.pmpCfg i) = some (lo, hi) → last < lo ∨ addr ≥ hi) :
    h.pmpScan eff addr last acc is = decide (eff = privM) := by
  induction is with
  | nil => rfl
  | cons i is ih =>
    have hrest := ih fun j hj => hmiss j (by simp [hj])
    rw [pmpScan]
    cases hr : h.pmpRange i (h.pmpCfg i) with
    | none => exact hrest
    | some range =>
      obtain ⟨lo, hi⟩ := range
      dsimp only
      rw [if_pos (hmiss i (by simp) lo hi hr)]
      exact hrest

/-- With no entry enabled, machine mode may do anything. -/
theorem pmpCheckAt_of_disabled (hany : h.pmpEnabled = false) : h.pmpCheckAt privM addr size acc = true := by
  apply pmpScan_of_miss
  intro i hi lo hi' hr
  rw [pmpEnabled, List.any_eq_false] at hany
  have ha : h.pmpCfg i &&& pmpA = 0 := by simpa using hany i hi
  simp [pmpRange_eq, pmpMode_off ha] at hr

theorem pmpSimpleScan_some {range : Word × Word} {is : List Nat} {found : Option (Word × Word)}
    (hs : h.pmpSimpleScan found is = some range) :
    (∀ r, found = some r → r = range) ∧ ∀ i ∈ is, ∀ r, h.pmpRange i (h.pmpCfg i) = some r → r = range := by
  induction is generalizing found with
  | nil =>
    rw [pmpSimpleScan] at hs
    exact ⟨fun r hr => Option.some.inj (hr.symm.trans hs), by simp⟩
  | cons i is ih =>
    rw [pmpSimpleScan] at hs
    cases hr : h.pmpRange i (h.pmpCfg i) with
    | none =>
      rw [hr] at hs
      obtain ⟨hfound, hrest⟩ := ih hs
      refine ⟨hfound, List.forall_mem_cons.mpr ⟨?_, hrest⟩⟩
      intro r hr'
      cases hr.symm.trans hr'
    | some r =>
      rw [hr] at hs
      dsimp only at hs
      split_ifs at hs with hsome
      obtain ⟨hfound, hrest⟩ := ih hs
      have hr' := hfound r rfl
      refine ⟨?_, List.forall_mem_cons.mpr ⟨?_, hrest⟩⟩
      · intro r' hf
        simp [hf] at hsome
      · intro r'' hr''
        rw [← hr', ← Option.some.inj (hr.symm.trans hr'')]

/-- `rv_pmp_simple` names the only range a machine-mode access can be refused in. -/
theorem pmpCheckAt_of_simple (hs : h.pmpSimple = some (lo, hi))
    (hout : addr + BitVec.ofNat 32 size - 1 < lo ∨ addr ≥ hi) : h.pmpCheckAt privM addr size acc = true := by
  apply pmpScan_of_miss
  intro i hi lo' hi' hr
  cases (pmpSimpleScan_some hs).2 i hi _ hr
  exact hout

/-- Where `rv_pmp_needed` says the check can be left out, it would have passed. -/
theorem pmpCheck_of_not_needed (hactive : h.pmpActive = (h.belowM || h.pmpLocked)) (hany : h.pmpAny = h.pmpEnabled)
    (hsize : 0 < size) (htop : addr.toNat + size < 2 ^ 32) (hn : h.pmpNeeded addr size = false) :
    h.pmpCheck addr size acc = true := by
  rw [pmpNeeded, hactive, hany, Bool.or_eq_false_iff, Bool.or_eq_false_iff, Bool.and_eq_false_iff] at hn
  obtain ⟨⟨hbelow, hlocked⟩, hword⟩ := hn
  have heff : h.accPriv acc = privM := by
    rw [belowM, Bool.or_eq_false_iff, bne_eq_false_iff_eq, bne_eq_false_iff_eq] at hbelow
    rw [accPriv]
    split_ifs
    · exact hbelow.1
    · exact hbelow.2
  rw [pmpCheck, heff]
  obtain hoff | hgranule := hword
  · exact pmpCheckAt_of_disabled hoff
  · have hmod : (addr &&& 3).toNat = addr.toNat % 4 := Nat.and_two_pow_sub_one_eq_mod addr.toNat 2
    rw [hmod, decide_eq_false_iff_not, Nat.not_lt] at hgranule
    exact (pmpCheckAt_iff hsize htop).mpr (pmpPermits_of_unlocked hgranule hlocked)

/-! ## The four checks -/

/-- The check is the specification's, and its three approximations are safe. The flags `rv_pmp_needed` reads are what
the registers say in every reachable state. -/
theorem pmp_meets_specification (h : Hart δ) :
    (∀ addr size acc, 1 ≤ size → addr.toNat + size - 1 < 2 ^ 32 - 1 →
      (h.pmpCheck addr size acc = true ↔ h.PmpPermits (h.accPriv acc) addr.toNat size acc)) ∧
    (∀ addr size priv acc, 1 ≤ size → addr.toNat % 4096 + size ≤ 4096 →
      (h.pmpPageRights (pageOf addr) priv).of acc = true →
        priv ≠ privM ∧ h.pmpCheckAt priv addr size acc = true) ∧
    (∀ D, Run pteBelow h D → h.pmpActive = (h.belowM || h.pmpLocked) ∧ h.pmpAny = h.pmpEnabled) ∧
    (h.pmpActive = (h.belowM || h.pmpLocked) → h.pmpAny = h.pmpEnabled →
      ∀ addr size acc, 1 ≤ size → addr.toNat + size - 1 < 2 ^ 32 - 1 → h.pmpNeeded addr size = false →
        h.pmpCheck addr size acc = true) ∧
    (∀ lo hi, h.pmpSimple = some (lo, hi) → ∀ addr size acc, 1 ≤ size → addr.toNat + size - 1 < 2 ^ 32 - 1 →
      addr.toNat + size ≤ lo.toNat ∨ hi.toNat ≤ addr.toNat → h.pmpCheckAt privM addr size acc = true) := by
  refine ⟨?_, ?_, ?_, ?_, ?_⟩
  · intro addr size acc hsize htop
    exact pmpCheckAt_iff hsize (by omega)
  · intro addr size priv acc hsize hpage hr
    refine ⟨?_, pmpCheckAt_of_pageRights hsize hpage hr⟩
    rintro rfl
    cases acc <;> cases hr
  · intro D hrun
    exact ⟨hrun.coherent.2.pmpActive, hrun.coherent.2.pmpAny⟩
  · intro hactive hany addr size acc hsize htop hn
    exact pmpCheck_of_not_needed hactive hany hsize (by omega) hn
  · intro lo hi hs addr size acc hsize htop hout
    exact pmpCheckAt_of_simple hs (by bv_omega)

/-- A hart in machine mode with one entry, which lets the modes below read the first 16 KiB. -/
def pmpHart : Hart Unit :=
  { zeroed { regions := [], mem := fun _ => 0, dev := (), bigEndian := false,
             devices := ⟨fun d m _ _ _ => (.error .load, d, m), fun d m _ _ _ _ => (.error .store, d, m)⟩ } with
    priv := privM
    pmpcfg := fun _ => 0x09
    pmpaddr := fun i => if i = 0 then 0x1000 else 0
    pmpAny := true }

theorem pmp_meets_specification_pmpHart :
    pmpHart.PmpPermits privM 0x3FFE 2 .store ∧ ¬pmpHart.PmpPermits privM 0x3FFE 4 .store ∧
      pmpHart.pmpCheckAt privU 0x3000 16 .load = true ∧ pmpHart.pmpCheck 0x100 4 .store = true ∧
      pmpHart.pmpCheckAt privM 0x4000 32 .fetch = true := by
  obtain ⟨hcheck, hpage, -, hneeded, hsimple⟩ := pmp_meets_specification pmpHart
  refine ⟨?_, ?_, ?_, ?_, ?_⟩
  · exact (hcheck 0x3FFE 2 .store (by decide) (by decide)).mp (by decide +kernel)
  · exact fun hp => absurd ((hcheck 0x3FFE 4 .store (by decide) (by decide)).mpr hp) (by decide +kernel)
  · exact (hpage 0x3000 16 privU .load (by decide) (by decide) (by decide +kernel)).2
  · exact hneeded (by decide +kernel) (by decide +kernel) 0x100 4 .store (by decide) (by decide) (by decide +kernel)
  · exact hsimple 0 0x4000 (by decide +kernel) 0x4000 32 .fetch (by decide) (by decide) (.inr (by decide))

end Hart

end Emu.Rv
