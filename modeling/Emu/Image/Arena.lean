-- SUMMARY: What holds of the upload state in every run: where an upload lies in the arena, and how far it reaches.
import Mathlib
import Emu.Image

/-! # The shape of an upload

An upload begins where the part of the arena in use ends, on a word boundary, and never reaches past the arena's end.
This holds after any events at all, whatever the hardware refuses. -/

namespace Emu.Image

open Attempt

variable {B : Board}

/-! ## Flash -/

section
variable {f : Flash} {addr : Nat} {data : List Byte}

theorem Flash.write_cells (B : Board) (f : Flash) {addr a : Nat} {data : List Byte}
    (h : a < addr ∨ addr + data.length ≤ a) : (f.write B addr data).2.cells a = f.cells a := by
  rw [Flash.write]
  split_ifs
  · rfl
  · split
    · exact if_neg (by omega)
    · exact if_neg (by rw [List.length_take]; omega)

theorem Flash.write_used (B : Board) (f : Flash) (addr : Nat) (data : List Byte) :
    (f.write B addr data).2.used = f.used ∧ (f.write B addr data).2.erased = f.erased := by
  rw [Flash.write]
  split_ifs
  · exact ⟨rfl, rfl⟩
  · split <;> exact ⟨rfl, rfl⟩

theorem Flash.write_accepted (h : (f.write B addr data).1 = true) :
    (f.write B addr data).2 = f.program B addr data := by
  rw [Flash.write] at h ⊢
  split
  next hend =>
    rw [if_pos hend] at h
    cases h
  next hend =>
    rw [if_neg hend] at h
    split at h
    · rfl
    · cases h

/-- Cells that are erased and in the arena may be programmed. -/
theorem Flash.spoils_eq_false (h : addr + data.length ≤ B.size) (hcells : ∀ i < data.length, f.cells (addr + i) = none) :
    f.spoils B addr data.length = false := by
  rw [Flash.spoils, Bool.or_eq_false_iff, decide_eq_false_iff_not, List.any_eq_false]
  refine ⟨by omega, fun i hi => ?_⟩
  rw [hcells i (List.mem_range.mp hi)]
  simp

theorem Flash.write_misprogrammed (hcells : ∀ i < data.length, f.cells (addr + i) = none) :
    (f.write B addr data).2.misprogrammed = f.misprogrammed := by
  rw [Flash.write]
  split_ifs with hend
  · rfl
  · split
    · rw [Flash.program, Flash.spoils_eq_false (by omega) hcells, Bool.or_false]
    next k _ =>
      have hlen : (data.take k).length ≤ data.length := List.length_take_le' ..
      rw [Flash.program, Flash.spoils_eq_false (by omega) fun i hi => hcells i (by omega), Bool.or_false]

end

/-! ## Rounding -/

theorem le_roundUp (n : Nat) : n ≤ roundUp n := by
  rw [roundUp]
  omega

theorem dvd_roundUp (n : Nat) : 4 ∣ roundUp n :=
  Nat.dvd_mul_left 4 _

/-- What fits in an arena of whole words fits rounded up. -/
theorem add_roundUp_le {used n : Nat} (hused : 4 ∣ used) (h : used + n ≤ B.size) : used + roundUp n ≤ B.size := by
  have hsize := B.aligned
  rw [roundUp]
  omega

/-! ## The invariant -/

/-- Where an upload is and how far it reaches. -/
structure Shape (B : Board) (s : St) : Prop where
  used_le : s.flash.used ≤ B.size
  used_dvd : 4 ∣ s.flash.used
  owned : ∀ a, s.upAddr = some a → s.owner ≠ .none ∧ a = s.flash.used ∧ s.flash.erased = true
  unowned : s.upAddr = none → s.owner = .none
  hwm_le : s.flash.used + s.hwm ≤ B.size
  gfLen_le : s.flash.used + s.gfLen ≤ B.size
  idle : s.owner = .none → s.hwm = 0
  unloaded : s.owner ≠ .gdb → s.gfLen = 0
  carry_le : s.carry ≠ [] → s.owner = .gdb ∧ s.carryOff + s.carry.length ≤ s.gfLen ∧ s.carry.length ≤ 4
  -- what an upload has not tried to program is erased
  blank : s.flash.erased = true → ∀ a, s.flash.used + s.hwm ≤ a → s.flash.cells a = none

/-- The TFTP server's view of the upload it owns. -/
def Transfer (s : St) : Prop :=
  s.owner = .tftp → s.busy = true ∧ s.failed = false ∧ s.complete = false ∧ s.hwm = s.written

namespace Shape

variable {s : St}

theorem upAddr_eq (h : Shape B s) (hown : s.owner ≠ .none) : s.upAddr = some s.flash.used := by
  cases hup : s.upAddr with
  | none => exact absurd (h.unowned hup) hown
  | some a => rw [(h.owned a hup).2.1]

theorem erased (h : Shape B s) (hown : s.owner ≠ .none) : s.flash.erased = true :=
  (h.owned _ (h.upAddr_eq hown)).2.2

theorem carry_nil (h : Shape B s) (hown : s.owner ≠ .gdb) : s.carry = [] := by
  by_contra hne
  exact hown (h.carry_le hne).1

theorem fits_iff (h : Shape B s) (hown : s.owner ≠ .none) (n : Nat) :
    s.fits B n = true ↔ s.flash.used + n ≤ B.size := by
  have hle := h.used_le
  rw [St.fits, h.upAddr_eq hown]
  simp only [Bool.and_eq_true, decide_eq_true_eq]
  omega

/-- A state without an upload. -/
theorem of_none {t : St} (hle : t.flash.used ≤ B.size) (hdvd : 4 ∣ t.flash.used) (howner : t.owner = .none)
    (hup : t.upAddr = none) (hhwm : t.hwm = 0) (hgf : t.gfLen = 0) (hcarry : t.carry = [])
    (hblank : t.flash.erased = true → ∀ a, t.flash.used ≤ a → t.flash.cells a = none) : Shape B t := by
  refine ⟨hle, hdvd, ?_, fun _ => howner, ?_, ?_, fun _ => hhwm, fun _ => hgf, fun hne => absurd hcarry hne, ?_⟩
  · intro a ha
    rw [hup] at ha
    cases ha
  · rw [hhwm]
    exact hle
  · rw [hgf]
    exact hle
  · rw [hhwm]
    exact hblank

end Shape

theorem Shape.init (cells : Nat → Option Byte) : Shape B (St.init cells) :=
  .of_none (Nat.zero_le _) (Nat.dvd_zero 4) rfl rfl rfl rfl rfl nofun

theorem Transfer.of_ne {s : St} (h : s.owner ≠ .tftp) : Transfer s :=
  fun htftp => absurd htftp h

/-! ## Abandoning and erasing -/

section
variable {s : St}

/-- A longer part of the arena is in use. -/
theorem Shape.commit_used (h : Shape B s) (len : Nat) (hlen : s.flash.used + len ≤ B.size) (hhwm : s.hwm ≤ len) :
    (s.flash.commit len).used ≤ B.size ∧ 4 ∣ (s.flash.commit len).used ∧
      ((s.flash.commit len).erased = true →
        ∀ a, (s.flash.commit len).used ≤ a → (s.flash.commit len).cells a = none) := by
  refine ⟨add_roundUp_le h.used_dvd hlen, Nat.dvd_add h.used_dvd (dvd_roundUp len), fun herased a ha => ?_⟩
  have hround := le_roundUp len
  change s.flash.used + roundUp len ≤ a at ha
  exact h.blank herased a (by omega)

theorem Shape.upAbandon (h : Shape B s) : Shape B (upAbandon s) := by
  have hflash : (Image.upAbandon s).flash = s.flash.commit s.hwm := by
    rw [Image.upAbandon]
    dsimp only
    split_ifs with hown
    · rw [h.idle hown]
      rfl
    · rfl
  obtain ⟨hle, hdvd, hblank⟩ := h.commit_used s.hwm h.hwm_le le_rfl
  rw [← hflash] at hle hdvd hblank
  exact .of_none hle hdvd rfl rfl rfl rfl rfl hblank

/-- An upload whose arena is erased is over. -/
theorem Shape.reset (h : Shape B s) (hown : s.owner ≠ .gdb) :
    Shape B { s with flash := s.flash.reset, owner := .none, upAddr := none, hwm := 0 } :=
  .of_none (Nat.zero_le _) (Nat.dvd_zero 4) rfl rfl rfl (h.unloaded hown) (h.carry_nil hown) fun _ _ _ => rfl

/-- A state in which an upload has been committed. -/
theorem Shape.committed {t : St} (h : Shape B s) {len : Nat} (hlen : s.flash.used + len ≤ B.size)
    (hflash : t.flash = (upCommit s len).flash) (howner : t.owner = .none) (hup : t.upAddr = none) (hhwm : t.hwm = 0)
    (hgf : t.gfLen = 0) (hcarry : t.carry = []) : Shape B t := by
  have hle := h.hwm_le
  obtain ⟨hused, hdvd, hblank⟩ := h.commit_used (max len s.hwm) (by omega) (le_max_right ..)
  change t.flash = s.flash.commit (max len s.hwm) at hflash
  rw [← hflash] at hused hdvd hblank
  exact .of_none hused hdvd howner hup hhwm hgf hcarry hblank

end

/-! ## Beginning -/

/-- The arena an upload finds that begins now: as the abandoned one has left it, or erased. -/
structure Begins (B : Board) (s : St) (f : Flash) : Prop where
  used_le : f.used ≤ B.size
  used_dvd : 4 ∣ f.used
  erased : f.erased = true
  blank : ∀ a, f.used ≤ a → f.cells a = none
  clean : f.misprogrammed = s.flash.misprogrammed
  -- an arena in use is erased only when it is full and the board says so
  same : s.flash.erased = true → ¬(B.refusesFull = true ∧ (upAbandon s).flash.used = B.size) → f = (upAbandon s).flash
  reset : s.flash.erased = false ∨ B.refusesFull = true ∧ (upAbandon s).flash.used = B.size → f.used = 0

/-- A state with an upload that has just begun. -/
def begun (s : St) (f : Flash) (who : Owner) : St :=
  { s with flash := f, upAddr := some f.used, owner := who }

section
variable {s : St}

theorem upAbandon_flash (s : St) :
    (upAbandon s).flash.misprogrammed = s.flash.misprogrammed ∧ (upAbandon s).flash.erased = s.flash.erased ∧
      (upAbandon s).flash.cells = s.flash.cells := by
  rw [upAbandon]
  dsimp only
  split_ifs <;> exact ⟨rfl, rfl, rfl⟩

/-- There is always a place to begin an upload at. -/
theorem Shape.beginAt (h : Shape B s) :
    ∃ f, beginAt B (Image.upAbandon s).flash = (some f.used, f) ∧ Begins B s f := by
  obtain ⟨hclean, herased, -⟩ := upAbandon_flash s
  have ha := h.upAbandon
  have hpos := B.pos
  generalize hg : (Image.upAbandon s).flash = g at *
  have hblank : g.erased = true → ∀ a, g.used ≤ a → g.cells a = none := by
    rw [← hg]
    exact ha.blank
  have hle : g.used ≤ B.size := hg ▸ ha.used_le
  have hdvd : 4 ∣ g.used := hg ▸ ha.used_dvd
  -- after a reset there is room, whatever the board
  have hreset : ∀ g' : Flash, g'.reset.begin B = (some g'.reset.used, g'.reset) := by
    intro g'
    have hready : g'.reset.ready = g'.reset := if_pos rfl
    have hzero : g'.reset.used = 0 := rfl
    rw [Flash.begin, hready, if_neg (by rw [hzero]; omega)]
  have hresets : ∀ g' : Flash, g'.misprogrammed = s.flash.misprogrammed →
      (s.flash.erased = true → ¬(B.refusesFull = true ∧ g.used = B.size) → g'.reset = g) → Begins B s g'.reset := by
    intro g' hg' hsame
    exact ⟨Nat.zero_le _, Nat.dvd_zero 4, rfl, fun _ _ => rfl, hg', by rwa [hg], fun _ => rfl⟩
  rw [Image.beginAt, Flash.begin, Flash.ready]
  split_ifs with he hfull hfull
  · refine ⟨g.reset, hreset g, hresets g hclean ?_⟩
    intro _ hne
    exact absurd ⟨hfull.1, le_antisymm hle hfull.2⟩ hne
  · refine ⟨g, rfl, hle, hdvd, he, hblank he, hclean, fun _ _ => hg.symm, ?_⟩
    rintro (hnot | ⟨hrefuses, hused⟩)
    · rw [← herased, he] at hnot
      cases hnot
    · exact absurd ⟨hrefuses, (hg ▸ hused).ge⟩ hfull
  · exact absurd hfull.2 (not_le.mpr hpos)
  · refine ⟨g.reset, rfl, hresets g hclean ?_⟩
    intro he'
    exact absurd (herased.trans he') he

/-- What beginning an upload does: the one under way is abandoned, and the new one begins at the end of the part in
use, or at the start of an arena erased for it. -/
theorem Shape.upBegin_eq (h : Shape B s) (who : Owner) :
    ∃ f, upBegin B s who = (true, Image.begun (Image.upAbandon s) f who) ∧ Begins B s f := by
  obtain ⟨f, hf, hbegins⟩ := h.beginAt
  have hpos := B.pos
  refine ⟨f, ?_, hbegins⟩
  rw [upBegin, if_neg (by omega), hf]
  rfl

theorem Shape.begun {f : Flash} (hf : Begins B s f) {who : Owner} (hwho : who ≠ .none) :
    Shape B (begun (Image.upAbandon s) f who) where
  used_le := hf.used_le
  used_dvd := hf.used_dvd
  owned a ha := ⟨hwho, (Option.some.inj ha).symm, hf.erased⟩
  unowned hup := nomatch hup
  hwm_le := hf.used_le
  gfLen_le := hf.used_le
  idle hnone := absurd hnone hwho
  unloaded _ := rfl
  carry_le hne := absurd rfl hne
  blank _ := hf.blank

end

/-! ## Writing -/

/-- The state after the flash was asked to program some bytes of the upload. -/
def wrote (B : Board) (s : St) (off : Nat) (data : List Byte) : St :=
  { s with
    hwm := max s.hwm (off + data.length), flash := (s.flash.write B (s.flash.used + off) data).2 }

section
variable {s : St}

/-- `up_write`, when there is an upload. -/
theorem Shape.upWrite_eq (h : Shape B s) (hown : s.owner ≠ .none) (off : Nat) (data : List Byte) :
    upWrite B s off data =
      if s.flash.used + (off + data.length) ≤ B.size then
        ((s.flash.write B (s.flash.used + off) data).1, wrote B s off data)
      else (false, s) := by
  have hup := h.upAddr_eq hown
  rw [upWrite]
  split
  next hnone => cases hup.symm.trans hnone
  next a ha =>
    obtain rfl := Option.some.inj (hup.symm.trans ha)
    exact if_congr (h.fits_iff hown _) rfl rfl

theorem wrote_used (B : Board) (s : St) (off : Nat) (data : List Byte) :
    (wrote B s off data).flash.used = s.flash.used ∧ (wrote B s off data).flash.erased = s.flash.erased :=
  Flash.write_used B s.flash _ data

/-- Only the cells of the bytes are touched. -/
theorem wrote_cells (B : Board) (s : St) (off : Nat) (data : List Byte) {a : Nat}
    (ha : a < s.flash.used + off ∨ s.flash.used + (off + data.length) ≤ a) :
    (wrote B s off data).flash.cells a = s.flash.cells a :=
  Flash.write_cells B s.flash (by omega)

theorem Shape.wrote (h : Shape B s) {off : Nat} {data : List Byte} (hown : s.owner ≠ .none)
    (hfits : s.flash.used + (off + data.length) ≤ B.size) : Shape B (wrote B s off data) := by
  obtain ⟨hused, herased⟩ := wrote_used B s off data
  have hle := h.hwm_le
  refine ⟨hused ▸ h.used_le, hused ▸ h.used_dvd, ?_, h.unowned, ?_, hused ▸ h.gfLen_le, fun hnone => absurd hnone hown,
    h.unloaded, h.carry_le, ?_⟩
  · rw [hused, herased]
    exact h.owned
  · rw [hused]
    exact Nat.add_le_of_le_sub' h.used_le (max_le (by omega) (by omega))
  · intro he a ha
    have hmax : max s.hwm (off + data.length) = (Image.wrote B s off data).hwm := rfl
    rw [hused, ← hmax] at ha
    rw [wrote_cells B s off data (by omega)]
    exact h.blank (herased ▸ he) a (by omega)

end

end Emu.Image
