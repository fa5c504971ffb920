-- SUMMARY: Physical memory protection: the entries' ranges, the check of an access and of a whole page.
import Emu.Rv.Hart

/-! # Physical memory protection -/

namespace Emu.Rv

def pmpR : Word := 0x01
def pmpW : Word := 0x02
def pmpX : Word := 0x04
def pmpA : Word := 0x18
def pmpL : Word := 0x80

/-- The byte address of a bound counted in words, saturated at the top of the address space. -/
def pmpBytes (words : BitVec 64) : Word :=
  if words ≥ 0x40000000 then 0xFFFFFFFF else (words <<< 2).setWidth 32

/-- The permission bit an access of this kind needs. -/
def pmpBit : Access → Word
  | .fetch => pmpX
  | .load => pmpR
  | .store => pmpW

/-- The three answers `rv_pmp_page_rights` gives. -/
structure Rights where
  read : Bool
  write : Bool
  exec : Bool
  deriving DecidableEq, Repr

/-- The answer for an access of this kind. -/
def Rights.of (r : Rights) : Access → Bool
  | .fetch => r.exec
  | .load => r.read
  | .store => r.write

namespace Hart

variable {δ : Type} {h : Hart δ}

def pmpCfg (h : Hart δ) (i : Nat) : Word :=
  (h.pmpcfg (i / 4) >>> (i % 4 * 8)) &&& 0xFF

/-- `pmp_range`: the bytes `[lo, hi)` entry `i` covers, `none` when it is off or empty. -/
def pmpRange (h : Hart δ) (i : Nat) (cfg : Word) : Option (Word × Word) :=
  let addr := h.pmpaddr i
  match ((cfg &&& pmpA) >>> 3).toNat with
  | 1 =>
    let prev := if i = 0 then 0 else h.pmpaddr (i - 1)
    if addr ≤ prev then none else some (pmpBytes (prev.setWidth 64), pmpBytes (addr.setWidth 64))
  | 2 => some (pmpBytes (addr.setWidth 64), pmpBytes (addr.setWidth 64 + 1))
  | 3 =>
    -- the lowest zero bit marks the boundary
    let inv := ~~~addr
    let n := if inv = 0 then 31 else inv.ctz.toNat
    let size := 1#64 <<< (n + 1)
    let base := addr.setWidth 64 &&& ~~~(size - 1)
    some (pmpBytes base, pmpBytes (base + size))
  | _ => none

/-- The loop of `rv_pmp_check`, over the entries still to be looked at: the first that holds a byte of the access
decides, and it must hold them all. -/
def pmpScan (h : Hart δ) (eff : Priv) (addr last : Word) (acc : Access) : List Nat → Bool
  | [] => eff = privM
  | i :: is =>
    match h.pmpRange i (h.pmpCfg i) with
    | none => h.pmpScan eff addr last acc is
    | some (lo, hi) =>
      if last < lo ∨ addr ≥ hi then h.pmpScan eff addr last acc is
      else if addr < lo ∨ last ≥ hi then false
      else if h.pmpCfg i &&& pmpL = 0 ∧ eff = privM then true
      else h.pmpCfg i &&& pmpBit acc ≠ 0

/-- The verdict of `rv_pmp_check` for an access made at privilege `eff`. -/
def pmpCheckAt (h : Hart δ) (eff : Priv) (addr : Word) (size : Nat) (acc : Access) : Bool :=
  h.pmpScan eff addr (addr + BitVec.ofNat 32 size - 1) acc (List.range pmpEntries)

/-- `rv_pmp_check`. -/
def pmpCheck (h : Hart δ) (addr : Word) (size : Nat) (acc : Access) : Bool :=
  h.pmpCheckAt (h.accPriv acc) addr size acc

/-- The loop of `rv_pmp_page_rights`. -/
def pmpPageScan (h : Hart δ) (page last : Word) : List Nat → Rights
  | [] => ⟨false, false, false⟩
  | i :: is =>
    match h.pmpRange i (h.pmpCfg i) with
    | none => h.pmpPageScan page last is
    | some (lo, hi) =>
      if last < lo ∨ page ≥ hi then h.pmpPageScan page last is
      else if page < lo ∨ last ≥ hi then ⟨false, false, false⟩  -- partly covered
      else ⟨h.pmpCfg i &&& pmpR ≠ 0, h.pmpCfg i &&& pmpW ≠ 0, h.pmpCfg i &&& pmpX ≠ 0⟩

/-- `rv_pmp_page_rights`: what an access below machine mode may do anywhere in the page. -/
def pmpPageRights (h : Hart δ) (page : Word) (priv : Priv) : Rights :=
  if priv = privM then ⟨false, false, false⟩
  else h.pmpPageScan page (page + (pageSize - 1)) (List.range pmpEntries)

/-- The loop of `rv_pmp_simple`: the range of the one entry that has one, `none` when a second is met. -/
def pmpSimpleScan (h : Hart δ) (found : Option (Word × Word)) : List Nat → Option (Word × Word)
  | [] => found
  | i :: is =>
    match h.pmpRange i (h.pmpCfg i) with
    | none => h.pmpSimpleScan found is
    | some range => if found.isSome then none else h.pmpSimpleScan (some range) is

/-- `rv_pmp_simple`: where a machine-mode access has to be checked, if one range can say it. -/
def pmpSimple (h : Hart δ) : Option (Word × Word) :=
  h.pmpSimpleScan none (List.range pmpEntries)

/-- `rv_pmp_needed`. -/
def pmpNeeded (h : Hart δ) (addr : Word) (size : Nat) : Bool :=
  h.pmpActive || (h.pmpAny && decide ((addr &&& 3).toNat + size > 4))

/-- Some entry is enabled. -/
def pmpEnabled (h : Hart δ) : Bool :=
  (List.range pmpEntries).any fun i => h.pmpCfg i &&& pmpA != 0

/-- Some entry is enabled and locked, and so binds machine mode. -/
def pmpLocked (h : Hart δ) : Bool :=
  (List.range pmpEntries).any fun i => h.pmpCfg i &&& pmpL != 0 && h.pmpCfg i &&& pmpA != 0

/-- `rv_pmp_refresh`. -/
def pmpRefresh (h : Hart δ) : Hart δ :=
  refreshFetchGuard { h with pmpAny := h.pmpEnabled, pmpActive := h.belowM || h.pmpLocked }

/-! ## What the verdicts depend on -/

section Congr

variable {h' : Hart δ}

theorem pmpCfg_congr (hcfg : h'.pmpcfg = h.pmpcfg) (i : Nat) : h'.pmpCfg i = h.pmpCfg i := by
  rw [pmpCfg, pmpCfg, hcfg]

theorem pmpRange_congr (haddr : h'.pmpaddr = h.pmpaddr) (i : Nat) (cfg : Word) :
    h'.pmpRange i cfg = h.pmpRange i cfg := by
  unfold pmpRange
  rw [haddr]

theorem pmpPageRights_congr (hcfg : h'.pmpcfg = h.pmpcfg) (haddr : h'.pmpaddr = h.pmpaddr) (page : Word)
    (priv : Priv) : h'.pmpPageRights page priv = h.pmpPageRights page priv := by
  have hscan (last : Word) (is : List Nat) : h'.pmpPageScan page last is = h.pmpPageScan page last is := by
    induction is with
    | nil => rfl
    | cons i is ih => simp only [pmpPageScan, pmpCfg_congr hcfg, pmpRange_congr haddr, ih]
  rw [pmpPageRights, pmpPageRights, hscan]

theorem pmpCheckAt_congr (hcfg : h'.pmpcfg = h.pmpcfg) (haddr : h'.pmpaddr = h.pmpaddr) (eff : Priv) (addr : Word)
    (size : Nat) (acc : Access) : h'.pmpCheckAt eff addr size acc = h.pmpCheckAt eff addr size acc := by
  have hscan (last : Word) (is : List Nat) : h'.pmpScan eff addr last acc is = h.pmpScan eff addr last acc is := by
    induction is with
    | nil => rfl
    | cons i is ih => simp only [pmpScan, pmpCfg_congr hcfg, pmpRange_congr haddr, ih]
  exact hscan _ _

end Congr

/-! ## Below machine mode

Every entry binds below machine mode, so the verdict is the same at every such privilege. -/

theorem pmpScan_below {e₁ e₂ : Priv} (h₁ : e₁ ≠ privM) (h₂ : e₂ ≠ privM) (addr last : Word) (acc : Access)
    (is : List Nat) : h.pmpScan e₁ addr last acc is = h.pmpScan e₂ addr last acc is := by
  induction is with
  | nil => simp [pmpScan, h₁, h₂]
  | cons i is ih => simp only [pmpScan, ih, h₁, h₂, and_false, if_false]

theorem pmpCheckAt_below {e₁ e₂ : Priv} (h₁ : e₁ ≠ privM) (h₂ : e₂ ≠ privM) (addr : Word) (size : Nat)
    (acc : Access) : h.pmpCheckAt e₁ addr size acc = h.pmpCheckAt e₂ addr size acc :=
  pmpScan_below h₁ h₂ addr _ acc _

/-- An access inside a page whose rights are granted: the entry that decides the page decides the access. -/
theorem pmpScan_of_pageScan {eff : Priv} {page plast addr last : Word} {acc : Access} (heff : eff ≠ privM)
    (hlo : page ≤ addr) (hmid : addr ≤ last) (hhi : last ≤ plast) {is : List Nat}
    (hr : (h.pmpPageScan page plast is).of acc = true) : h.pmpScan eff addr last acc is = true := by
  induction is with
  | nil => cases acc <;> simp [pmpPageScan, Rights.of] at hr
  | cons i is ih =>
    rw [pmpPageScan] at hr
    rw [pmpScan]
    split at hr
    next => exact ih hr
    next lo hi _ =>
      split_ifs at hr with hout hpart
      · rw [if_pos (by bv_omega)]
        exact ih hr
      · cases acc <;> simp [Rights.of] at hr
      · have hsome : ¬(last < lo ∨ addr ≥ hi) := by bv_omega
        have hall : ¬(addr < lo ∨ last ≥ hi) := by bv_omega
        rw [if_neg hsome, if_neg hall, if_neg (fun hM => heff hM.2)]
        cases acc <;> exact hr

end Hart

end Emu.Rv
