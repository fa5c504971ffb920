-- SUMMARY: Which runs never program a cell of the arena twice, nor one outside it.
import Emu.Image.Clients

/-! # Programming only erased cells

An upload knows which cells it has programmed only through how far it has reached and through the word that waits. That
is enough for TFTP, which goes on where it stopped. The debugger writes where it likes, so its requests have to be
disjoint; and an erase does not begin a load anew while the one before it is unfinished, so they have to be disjoint
from the requests of the loads before the erase as well. -/

namespace Emu.Image

open Attempt

variable {B : Board}

/-! ## What the debugger has asked for -/

/-- Some offsets into an upload. -/
structure Span where
  off : Nat
  len : Nat
  deriving DecidableEq, Repr

def Span.Mem (r : Span) (o : Nat) : Prop := r.off ≤ o ∧ o < r.off + r.len

def Span.Disjoint (r r' : Span) : Prop := r.off + r.len ≤ r'.off ∨ r'.off + r'.len ≤ r.off ∨ r.len = 0 ∨ r'.len = 0

instance (r r' : Span) : Decidable (r.Disjoint r') :=
  inferInstanceAs (Decidable (_ ∨ _ ∨ _ ∨ _))

instance (s : St) (addr : Word) (data : List Byte) : Decidable (Writable B s addr data) :=
  decidable_of_iff
    (s.owner = .gdb ∧ ¬addr < romBase ∧ s.flash.used + (romOff addr + data.length) ≤ B.size)
    ⟨fun h => ⟨h.1, h.2.1, h.2.2⟩, fun h => ⟨h.owner, h.inRom, h.fits⟩⟩

/-- The offsets a write is for. -/
def span (addr : Word) (data : List Byte) : Span := ⟨romOff addr, data.length⟩

/-- What the debugger has asked to be programmed since the erase that began the upload. -/
def asks (B : Board) (s : St) (asked : List Span) : Event → List Span
  | .erase _ => if s.owner = .gdb then asked else []
  | .write addr data => if Writable B s addr data then span addr data :: asked else asked
  | _ => asked

/-- What has to hold of a request: a write is for offsets the upload was not asked for before, and a word the board has
refused to program does not wait any more. -/
def Heeds (B : Board) (s : St) (asked : List Span) : Event → Prop
  | .write addr data => Writable B s addr data → s.carry.length < 4 ∧ ∀ r ∈ asked, (span addr data).Disjoint r
  | .done => s.carry.length < 4
  | _ => True

/-- Every request of a run is such a one. -/
def HeedsAll (B : Board) : St → List Span → List Event → Prop
  | _, _, [] => True
  | s, asked, e :: es => Heeds B s asked e ∧ HeedsAll B (step B s e).2 (asks B s asked e) es

instance (s : St) (asked : List Span) (e : Event) : Decidable (Heeds B s asked e) :=
  match e with
  | .write .. => inferInstanceAs (Decidable (_ → _))
  | .done => inferInstanceAs (Decidable (_ < _))
  | .tftpOpen | .tftpData _ | .tftpClose | .tftpError | .erase _ | .disconnect | .take => .isTrue trivial

instance decidableHeedsAll : (s : St) → (asked : List Span) → (es : List Event) → Decidable (HeedsAll B s asked es)
  | _, _, [] => .isTrue trivial
  | s, asked, e :: es =>
    have := decidableHeedsAll (step B s e).2 (asks B s asked e) es
    inferInstanceAs (Decidable (_ ∧ _))

/-! ## Cells -/

/-- A cell of the upload has been programmed. -/
def St.Programmed (s : St) (o : Nat) : Prop := s.flash.cells (s.flash.used + o) ≠ none

/-- A byte of the word that waits. -/
def St.Waits (s : St) (o : Nat) : Prop := s.carryOff ≤ o ∧ o < s.carryOff + s.carry.length

theorem St.not_waits {s : St} (h : s.carry = []) (o : Nat) : ¬s.Waits o := by
  rw [Waits, h, List.length_nil]
  omega

/-- Programming erased cells of the upload spoils nothing, and programs no others. -/
theorem Shape.upWrite_fresh {s : St} (h : Shape B s) (hown : s.owner ≠ .none) (hclean : s.flash.misprogrammed = false)
    (off : Nat) (data : List Byte) (hfresh : ∀ o, off ≤ o → o < off + data.length → ¬s.Programmed o) :
    (Image.upWrite B s off data).2.flash.misprogrammed = false ∧
      ∀ o, (Image.upWrite B s off data).2.Programmed o → s.Programmed o ∨ off ≤ o ∧ o < off + data.length := by
  rw [h.upWrite_eq hown]
  split_ifs with hfits
  · constructor
    · refine Eq.trans (Flash.write_misprogrammed fun i hi => ?_) hclean
      have hnone := hfresh (off + i) (by omega) (by omega)
      rw [St.Programmed, not_not, ← Nat.add_assoc] at hnone
      exact hnone
    · intro o ho
      by_cases hin : off ≤ o ∧ o < off + data.length
      · exact .inr hin
      · left
        rw [St.Programmed, (wrote_used B s off data).1, wrote_cells B s off data (by omega)] at ho
        exact ho
  · exact ⟨hclean, fun o ho => .inl ho⟩

/-! ## Loads -/

/-- The bytes of a load that are still to be programmed are for erased cells. -/
structure Unspoilt (A : Nat → Prop) (s : St) (off : Nat) (data : List Byte) : Prop where
  clean : s.flash.misprogrammed = false
  programmed : ∀ o, s.Programmed o → A o
  waits : ∀ o, s.Waits o → A o ∧ ¬s.Programmed o
  request : ∀ o, off ≤ o → o < off + data.length → A o ∧ ¬s.Programmed o ∧ ¬s.Waits o

/-- The same of a load between two requests. A word the board has refused to program may be programmed in part. -/
structure Spent (A : Nat → Prop) (s : St) : Prop where
  clean : s.flash.misprogrammed = false
  programmed : ∀ o, s.Programmed o → A o
  waits : ∀ o, s.Waits o → A o
  fresh : s.carry.length < 4 → ∀ o, s.Waits o → ¬s.Programmed o

section
variable {A : Nat → Prop} {s₀ s : St} {off : Nat} {data : List Byte}

theorem Unspoilt.spent (h : Unspoilt A s off data) : Spent A s :=
  ⟨h.clean, h.programmed, fun o ho => (h.waits o ho).1, fun _ o ho => (h.waits o ho).2⟩

/-- The word that waits is programmed. -/
theorem Unspoilt.upWrite_carry (h : Unspoilt A s off data) (hl : Loading B s₀ s off data) :
    Unspoilt A { (upWrite B s s.carryOff s.carry).2 with carry := [] } off data := by
  obtain ⟨hclean, hcells⟩ := hl.shape.upWrite_fresh hl.owned h.clean s.carryOff s.carry fun o hle hlt =>
    (h.waits o ⟨hle, hlt⟩).2
  refine ⟨hclean, ?_, fun o ho => absurd ho (St.not_waits rfl o), ?_⟩
  · intro o ho
    obtain hold | hnew := hcells o ho
    · exact h.programmed o hold
    · exact (h.waits o hnew).1
  · intro o hle hlt
    obtain ⟨hA, hnot, hapart⟩ := h.request o hle hlt
    refine ⟨hA, fun ho => ?_, St.not_waits rfl o⟩
    obtain hold | hnew := hcells o ho
    · exact hnot hold
    · exact hapart hnew

theorem Unspoilt.gfFlush (h : Unspoilt A s off data) (hl : Loading B s₀ s off data) :
    Unspoilt A (gfFlush B s).2 off data := by
  rw [Image.gfFlush]
  split_ifs
  · exact h
  · exact h.upWrite_carry hl

theorem Unspoilt.topUp (h : Unspoilt A s off data) (hjoin : s.carryOff + s.carry.length = off) :
    Unspoilt A (s.topUp data) (off + s.missing data) (data.drop (s.missing data)) := by
  have hmissing := Loading.missing_le s data
  have hwaits : ∀ o, (s.topUp data).Waits o → s.Waits o ∨ off ≤ o ∧ o < off + data.length := by
    intro o ho
    rw [St.Waits, Loading.topUp_length] at ho
    change s.carryOff ≤ o ∧ o < s.carryOff + (s.carry.length + s.missing data) at ho
    rw [St.Waits]
    omega
  refine ⟨h.clean, h.programmed, ?_, ?_⟩
  · intro o ho
    obtain hold | hnew := hwaits o ho
    · exact h.waits o hold
    · obtain ⟨hA, hnot, -⟩ := h.request o hnew.1 hnew.2
      exact ⟨hA, hnot⟩
  · intro o hle hlt
    rw [List.length_drop] at hlt
    obtain ⟨hA, hnot, -⟩ := h.request o (by omega) (by omega)
    refine ⟨hA, hnot, fun ho => ?_⟩
    rw [St.Waits, Loading.topUp_length] at ho
    change s.carryOff ≤ o ∧ o < s.carryOff + (s.carry.length + s.missing data) at ho
    omega

theorem Unspoilt.words (h : Unspoilt A s off data) (hl : Loading B s₀ s off data) (hcarry : s.carry = []) {n : Nat}
    (hn : n ≤ data.length) : Unspoilt A (upWrite B s off (data.take n)).2 (off + n) (data.drop n) := by
  have hlen : (data.take n).length = n := List.length_take_of_le hn
  have hempty : ∀ o, ¬(upWrite B s off (data.take n)).2.Waits o :=
    St.not_waits ((Image.upWrite_carry B s off _).trans hcarry)
  obtain ⟨hclean, hcells⟩ := hl.shape.upWrite_fresh hl.owned h.clean off (data.take n) fun o hle hlt =>
    (h.request o hle (by omega)).2.1
  rw [hlen] at hcells
  refine ⟨hclean, ?_, fun o ho => absurd ho (hempty o), ?_⟩
  · intro o ho
    obtain hold | hnew := hcells o ho
    · exact h.programmed o hold
    · exact (h.request o hnew.1 (by omega)).1
  · intro o hle hlt
    rw [List.length_drop] at hlt
    obtain ⟨hA, hnot, -⟩ := h.request o (by omega) (by omega)
    refine ⟨hA, fun ho => ?_, hempty o⟩
    obtain hold | hnew := hcells o ho
    · exact hnot hold
    · omega

theorem Unspoilt.keep (h : Unspoilt A s off data) :
    Unspoilt A { s with carry := data, carryOff := off } (off + data.length) [] := by
  refine ⟨h.clean, h.programmed, ?_, ?_⟩
  · intro o ho
    obtain ⟨hA, hnot, -⟩ := h.request o ho.1 ho.2
    exact ⟨hA, hnot⟩
  · intro o hle hlt
    rw [List.length_nil] at hlt
    omega

theorem upWrite_waits (B : Board) (s : St) (off : Nat) (data : List Byte) (o : Nat) :
    (upWrite B s off data).2.Waits o ↔ s.Waits o := by
  rw [upWrite]
  split
  · rfl
  · split_ifs <;> rfl

theorem loadRule_fresh (B : Board) (A : Nat → Prop) (s₀ : St) : LoadRule B s₀ (Unspoilt A) (Spent A) where
  flush hl h _ := .of (h.gfFlush hl) (h.gfFlush hl).spent
  topUp _ h _ hjoin := h.topUp hjoin
  word {s off data} hl h hfour := by
    have hword := h.upWrite_carry hl
    refine .of hword ⟨hword.clean, hword.programmed, fun o ho => ?_, fun hlt => ?_⟩
    · exact (h.waits o ((upWrite_waits ..).mp ho)).1
    · rw [upWrite_carry] at hlt
      omega
  words hl h hcarry hn := .of (h.words hl hcarry hn) (h.words hl hcarry hn).spent
  keep _ h _ _ := h.keep

end

/-! ## Every run -/

/-- An offset the debugger has asked for. -/
def Asked (asked : List Span) (o : Nat) : Prop := ∃ r ∈ asked, r.Mem o

/-- No cell was spoilt so far, and none will be by what waits. -/
structure Fresh (B : Board) (s : St) (asked : List Span) : Prop where
  shape : Shape B s
  transfer : Transfer s
  clean : s.flash.misprogrammed = false
  load : s.owner = .gdb → Spent (Asked asked) s

section
variable {s : St} {asked : List Span}

/-- Between two requests nothing is to be placed. -/
theorem Spent.unspoilt {A : Nat → Prop} (h : Spent A s) (hlt : s.carry.length < 4) : Unspoilt A s 0 [] := by
  refine ⟨h.clean, h.programmed, fun o ho => ⟨h.waits o ho, h.fresh hlt o ho⟩, fun o hle hlt => ?_⟩
  rw [List.length_nil] at hlt
  omega

/-- A write for new offsets. -/
theorem Spent.request (h : Spent (Asked asked) s) (hlt : s.carry.length < 4) (addr : Word) (data : List Byte)
    (hapart : ∀ r ∈ asked, (span addr data).Disjoint r) :
    Unspoilt (Asked (span addr data :: asked)) (s.seen (romOff addr + data.length)) (romOff addr) data := by
  have hmore : ∀ o, Asked asked o → Asked (span addr data :: asked) o := by
    rintro o ⟨r, hr, ho⟩
    exact ⟨r, List.mem_cons_of_mem _ hr, ho⟩
  -- an offset of the request was not asked for before
  have hnew : ∀ o, romOff addr ≤ o → o < romOff addr + data.length → ¬Asked asked o := by
    rintro o hle hlt' ⟨r, hr, ho⟩
    have hdis := hapart r hr
    rw [Span.Disjoint, span] at hdis
    rw [Span.Mem] at ho
    dsimp only at hdis
    omega
  refine ⟨h.clean, fun o ho => hmore o (h.programmed o ho), ?_, ?_⟩
  · intro o ho
    exact ⟨hmore o (h.waits o ho), h.fresh hlt o ho⟩
  · intro o hle hlt'
    refine ⟨⟨_, List.mem_cons_self, hle, hlt'⟩, fun ho => ?_, fun ho => ?_⟩
    · exact hnew o hle hlt' (h.programmed o ho)
    · exact hnew o hle hlt' (h.waits o ho)

theorem Fresh.done (h : Fresh B s asked) (hlt : s.carry.length < 4) :
    (gdbFlashDone B s).2.flash.misprogrammed = false ∧
      ((gdbFlashDone B s).2.owner = .gdb → Spent (Asked asked) (gdbFlashDone B s).2) := by
  rw [h.shape.gdbFlashDone_eq]
  split_ifs with hready
  · have hflush := ((h.load hready.1).unspoilt hlt).gfFlush (h.shape.loading hready.1)
    generalize gfFlush B s = r at hflush
    obtain ⟨ok, s'⟩ := r
    cases ok with
    | false => exact ⟨hflush.clean, fun _ => hflush.spent⟩
    | true => exact ⟨hflush.clean, nofun⟩
  · exact ⟨h.clean, h.load⟩

theorem Fresh.write (h : Fresh B s asked) {addr : Word} {data : List Byte} (hw : Writable B s addr data)
    (hlt : s.carry.length < 4) (hapart : ∀ r ∈ asked, (span addr data).Disjoint r) :
    Spent (Asked (span addr data :: asked)) (gdbFlashWrite B s addr data).2 := by
  have hrule := loadRule_fresh B (Asked (span addr data :: asked)) (s.seen (romOff addr + data.length))
  refine Leads.both (p := Spent (Asked (span addr data :: asked))) ?_
  apply (hrule.gdbFlashWrite hw h.shape ((h.load hw.owner).request hlt addr data hapart)).imp
  · intro hs'
    exact hs'.2.spent
  · intro hs'
    exact hs'.2

theorem Fresh.step (h : Fresh B s asked) (e : Event) (he : Heeds B s asked e) :
    (step B s e).2.flash.misprogrammed = false ∧
      ((step B s e).2.owner = .gdb → Spent (Asked (asks B s asked e)) (step B s e).2) := by
  cases e with
  | tftpOpen =>
    obtain ⟨f, heq, hf⟩ := h.shape.tftpOpen
    rw [Image.step, heq]
    exact ⟨hf.clean.trans h.clean, fun hgdb => by cases hgdb⟩
  | tftpData pieces =>
    rw [Image.step]
    by_cases howner : s.owner = .tftp
    · refine Leads.both (p := fun t => t.flash.misprogrammed = false ∧ (t.owner = .gdb → Spent (Asked asked) t)) ?_
      apply (h.shape.tftpData h.transfer howner pieces).imp
      · rintro ⟨s', hsend, heq⟩
        rw [heq]
        split_ifs
        · exact ⟨hsend.clean.trans h.clean, fun hgdb => by cases hgdb⟩
        · refine ⟨hsend.clean.trans h.clean, fun hgdb => ?_⟩
          cases hsend.owner.symm.trans hgdb
      · rintro ⟨s', hfail, heq⟩
        rw [heq]
        exact ⟨hfail.clean.trans h.clean, fun hgdb => by cases hgdb⟩
    · obtain ⟨busy, failed, complete, heq⟩ := tftpData_of_ne (B := B) howner pieces
      rw [heq]
      exact ⟨h.clean, fun hgdb => { h.load hgdb with }⟩
  | tftpClose =>
    rw [Image.step]
    by_cases howner : s.owner = .tftp
    · rw [tftpClose_owned h.transfer howner]
      exact ⟨(upAbandon_flash _).1.trans h.clean, fun hgdb => by cases hgdb⟩
    · rw [tftpClose_of_ne howner]
      exact ⟨h.clean, fun hgdb => { h.load hgdb with }⟩
  | tftpError =>
    rw [Image.step]
    by_cases howner : s.owner = .tftp
    · rw [tftpError_owned h.transfer howner]
      exact ⟨(upAbandon_flash _).1.trans h.clean, fun hgdb => by cases hgdb⟩
    · rw [tftpError_of_ne howner]
      exact ⟨h.clean, fun hgdb => { h.load hgdb with }⟩
  | erase addr =>
    rw [asks]
    obtain ⟨-, heq⟩ | ⟨-, hgdb, heq⟩ | ⟨-, hne, f, heq, hf⟩ := h.shape.erase addr
    · rw [heq]
      refine ⟨h.clean, fun hgdb => ?_⟩
      rw [if_pos hgdb]
      exact h.load hgdb
    · rw [heq, if_pos hgdb]
      exact ⟨h.clean, fun _ => { h.load hgdb with }⟩
    · rw [heq, if_neg hne]
      -- the arena is handed out erased
      have hblank : ∀ o, ¬(restarted s f).Programmed o := fun o ho => ho (hf.blank _ (Nat.le_add_right ..))
      have hclean : f.misprogrammed = false := hf.clean.trans h.clean
      exact ⟨hclean, fun _ => ⟨hclean, fun o ho => absurd ho (hblank o), fun o ho => absurd ho (St.not_waits rfl o),
        fun _ o _ => hblank o⟩⟩
  | write addr data =>
    rw [Image.step, asks]
    split_ifs with hw
    · obtain ⟨hlt, hapart⟩ := he hw
      have hspent := h.write hw hlt hapart
      rw [andThen_touch]
      exact ⟨hspent.clean, fun _ => { hspent with }⟩
    · rw [h.shape.gdbFlashWrite_refused hw]
      exact ⟨h.clean, h.load⟩
  | done =>
    obtain ⟨hclean, hload⟩ := h.done he
    rw [Image.step]
    split_ifs
    · exact ⟨hclean, fun hgdb => { hload hgdb with }⟩
    · exact ⟨h.clean, h.load⟩
  | disconnect => exact ⟨h.clean, h.load⟩
  | take =>
    rw [Image.step, takePending]
    split_ifs
    · exact ⟨h.clean, fun hgdb => { h.load hgdb with }⟩
    · exact ⟨h.clean, h.load⟩

theorem Fresh.run (h : Fresh B s asked) (es : List Event) (hes : HeedsAll B s asked es) :
    (run B s es).flash.misprogrammed = false := by
  induction es generalizing s asked with
  | nil => exact h.clean
  | cons e es ih =>
    obtain ⟨hshape, htransfer⟩ := step_shape h.shape h.transfer e
    obtain ⟨hclean, hload⟩ := h.step e hes.1
    exact ih ⟨hshape, htransfer, hclean, hload⟩ hes.2

end

/-- In every run in which the debugger's writes to one upload are disjoint, also from those of a load it has begun
again, and no request follows a word the board has refused to program, only erased cells of the arena are ever
programmed. -/
theorem flash_never_misprogrammed (B : Board) (cells : Nat → Option Byte) (es : List Event)
    (hes : HeedsAll B (.init cells) [] es) : (run B (.init cells) es).flash.misprogrammed = false :=
  Fresh.run ⟨.init cells, .of_ne nofun, rfl, nofun⟩ es hes

/-- A load that TFTP takes over, and one in two sections that is finished. -/
def loadsAndTransfer : List Event :=
  [.erase romBase, .write romBase [1, 2, 3, 4, 5, 6], .tftpOpen, .tftpData [[7], [8]], .take,
    .erase romBase, .write (romBase + 2) [9, 9], .write romBase [1, 2], .done]

theorem loadsAndTransfer_fresh :
    (run smallBoard (.init fun _ => none) loadsAndTransfer).flash.misprogrammed = false :=
  flash_never_misprogrammed _ _ _ (by decide)

/-- A load of one word, begun again before it was finished. -/
def loadTwice : List Event :=
  [.erase romBase, .write romBase [1, 2, 3, 4], .erase romBase, .write romBase [1, 2, 3, 4]]

/-- The erase that begins a load again does not skip what the unfinished load has programmed. -/
theorem loadTwice_misprogrammed : (run smallBoard (.init fun _ => none) loadTwice).flash.misprogrammed = true := by
  decide

end Emu.Image
