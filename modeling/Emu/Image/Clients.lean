-- SUMMARY: What the two clients' requests do to an upload, and that every run keeps the upload state in shape.
import Emu.Image.Arena

/-! # The clients

Each request either goes on with the upload its client owns, ends it, or leaves it alone. -/

namespace Emu.Image

open Attempt

variable {B : Board}

/-! ## What an upload leaves alone -/

/-- The image that was committed last, and whether it waits to be installed. -/
def St.pending (s : St) : Nat × Nat × Bool × Option (Nat × Nat) :=
  (s.cur, s.curSize, s.reload, s.img)

/-- An upload goes on: what lies before it in the arena stays, and so does what was committed. -/
structure Keeps (s₀ s : St) : Prop where
  used : s.flash.used = s₀.flash.used
  below : ∀ a < s₀.flash.used, s.flash.cells a = s₀.flash.cells a
  pending : s.pending = s₀.pending

theorem Keeps.refl (s : St) : Keeps s s := ⟨rfl, fun _ _ => rfl, rfl⟩

theorem Keeps.wrote {s₀ s : St} (h : Keeps s₀ s) (B : Board) (off : Nat) (data : List Byte) :
    Keeps s₀ (wrote B s off data) := by
  refine ⟨(wrote_used B s off data).1.trans h.used, fun a ha => ?_, h.pending⟩
  rw [wrote_cells B s off data (.inl (by rw [h.used]; omega))]
  exact h.below a ha

/-! ## The debugger's `load` -/

/-- A load goes on, with some bytes of a request still to be placed. -/
structure Loading (B : Board) (s₀ s : St) (off : Nat) (data : List Byte) : Prop extends Keeps s₀ s where
  shape : Shape B s
  owner : s.owner = .gdb
  gfLen : s.gfLen = s₀.gfLen
  le : off + data.length ≤ s.gfLen

namespace Loading

variable {s₀ s : St} {off : Nat} {data : List Byte}

theorem owned (h : Loading B s₀ s off data) : s.owner ≠ .none := by
  rw [h.owner]
  decide

/-- Other bytes are still to be placed. -/
theorem advance (h : Loading B s₀ s off data) {off' : Nat} {data' : List Byte}
    (hle : off' + data'.length ≤ off + data.length) : Loading B s₀ s off' data' :=
  ⟨h.toKeeps, h.shape, h.owner, h.gfLen, hle.trans h.le⟩

theorem withCarry (h : Loading B s₀ s off data) (carry : List Byte) (carryOff : Nat)
    (hle : carryOff + carry.length ≤ s.gfLen) (hlen : carry.length ≤ 4) :
    Loading B s₀ { s with carry := carry, carryOff := carryOff } off data where
  toKeeps := ⟨h.used, h.below, h.pending⟩
  shape := { h.shape with carry_le := fun _ => ⟨h.owner, hle, hlen⟩ }
  owner := h.owner
  gfLen := h.gfLen
  le := h.le

theorem dropCarry (h : Loading B s₀ s off data) : Loading B s₀ { s with carry := [] } off data where
  toKeeps := ⟨h.used, h.below, h.pending⟩
  shape := { h.shape with carry_le := fun hne => absurd rfl hne }
  owner := h.owner
  gfLen := h.gfLen
  le := h.le

theorem upWrite (h : Loading B s₀ s off data) (at' : Nat) (bytes : List Byte) :
    Loading B s₀ (upWrite B s at' bytes).2 off data := by
  rw [h.shape.upWrite_eq h.owned]
  split_ifs with hfits
  · exact ⟨h.toKeeps.wrote B at' bytes, h.shape.wrote h.owned hfits, h.owner, h.gfLen, h.le⟩
  · exact h

theorem gfFlush (h : Loading B s₀ s off data) : Loading B s₀ (gfFlush B s).2 off data := by
  rw [Image.gfFlush]
  split_ifs
  · exact h
  · exact (h.upWrite s.carryOff s.carry).dropCarry

theorem missing_le (s : St) (data : List Byte) : s.missing data ≤ data.length :=
  min_le_right ..

theorem topUp_length (s : St) (data : List Byte) :
    (s.topUp data).carry.length = s.carry.length + s.missing data := by
  rw [St.topUp, List.length_append, List.length_take, Nat.min_eq_left (missing_le s data)]

theorem topUp (h : Loading B s₀ s off data) (hcarry : s.carry ≠ []) (hjoin : s.carryOff + s.carry.length = off) :
    Loading B s₀ (s.topUp data) (off + s.missing data) (data.drop (s.missing data)) := by
  have hlen := topUp_length s data
  have hmissing : s.missing data ≤ 4 - s.carry.length := min_le_left ..
  have hmissing' := missing_le s data
  have hcarry_le := (h.shape.carry_le hcarry).2.2
  have hle := h.le
  refine (h.withCarry (s.topUp data).carry s.carryOff ?_ ?_).advance ?_
  · omega
  · omega
  · rw [List.length_drop]
    omega

theorem keep (h : Loading B s₀ s off data) (hdata : data.length < 4) :
    Loading B s₀ { s with carry := data, carryOff := off } (off + data.length) [] :=
  (h.withCarry data off h.le (by omega)).advance le_rfl

end Loading

/-- What a load keeps, said for each of the things that are done with the bytes of a request: `P` while some are still
to be placed, `Q` once the board has refused one of them. -/
structure LoadRule (B : Board) (s₀ : St) (P : St → Nat → List Byte → Prop) (Q : St → Prop) : Prop where
  flush : ∀ {s off data}, Loading B s₀ s off data → P s off data → s.carry ≠ [] →
    Leads (gfFlush B s) (P · off data) Q
  topUp : ∀ {s off data}, Loading B s₀ s off data → P s off data → s.carry ≠ [] →
    s.carryOff + s.carry.length = off → P (s.topUp data) (off + s.missing data) (data.drop (s.missing data))
  word : ∀ {s off data}, Loading B s₀ s off data → P s off data → s.carry.length = 4 →
    Leads (upWrite B s s.carryOff s.carry) (fun s' => P { s' with carry := [] } off data) Q
  words : ∀ {s off data n}, Loading B s₀ s off data → P s off data → s.carry = [] → n ≤ data.length →
    Leads (upWrite B s off (data.take n)) (fun s' => P s' (off + n) (data.drop n)) Q
  keep : ∀ {s off data}, Loading B s₀ s off data → P s off data → s.carry = [] → data.length < 4 →
    P { s with carry := data, carryOff := off } (off + data.length) []

section
variable {s₀ s : St} {off : Nat} {data : List Byte} {P : St → Nat → List Byte → Prop} {Q : St → Prop}

theorem upWrite_carry (B : Board) (s : St) (off : Nat) (data : List Byte) : (upWrite B s off data).2.carry = s.carry := by
  rw [upWrite]
  split
  · rfl
  · split_ifs <;> rfl

theorem gfFlush_carry (B : Board) (s : St) : (gfFlush B s).2.carry = [] := by
  rw [gfFlush]
  split_ifs with hcarry
  · exact hcarry
  · rfl

theorem LoadRule.gfWords (hR : LoadRule B s₀ P Q) (h : Loading B s₀ s off data) (hP : P s off data)
    (hcarry : s.carry = []) :
    Leads (gfWords B s off data)
      (fun s' => Loading B s₀ s' (off + data.length) [] ∧ P s' (off + data.length) [])
      (fun s' => Loading B s₀ s' 0 [] ∧ Q s') := by
  have hwhole : wholeWords data.length ≤ data.length := Nat.div_mul_le_self ..
  have hrest : (data.drop (wholeWords data.length)).length < 4 := by
    rw [List.length_drop, wholeWords]
    omega
  have hend : off + wholeWords data.length + (data.drop (wholeWords data.length)).length = off + data.length := by
    rw [List.length_drop]
    omega
  have hwords : Leads
      (if wholeWords data.length ≠ 0 then upWrite B s off (data.take (wholeWords data.length)) else (true, s))
      (fun s' => Loading B s₀ s' (off + wholeWords data.length) (data.drop (wholeWords data.length)) ∧
        P s' (off + wholeWords data.length) (data.drop (wholeWords data.length)) ∧ s'.carry = [])
      (fun s' => Loading B s₀ s' 0 [] ∧ Q s') := by
    split_ifs with hzero
    · have hload := h.upWrite off (data.take (wholeWords data.length))
      have hempty := (upWrite_carry B s off (data.take (wholeWords data.length))).trans hcarry
      apply (hR.words h hP hcarry hwhole).imp
      · intro hP'
        exact ⟨hload.advance hend.le, hP', hempty⟩
      · intro hQ
        exact ⟨hload.advance (Nat.zero_le _), hQ⟩
    · rw [not_not] at hzero
      rw [hzero]
      exact .accept ⟨h, hP, hcarry⟩
  apply hwords.andThen
  intro s' hs'
  obtain ⟨hload, hP', hempty⟩ := hs'
  apply Leads.accept
  rw [St.keep]
  split_ifs with htail
  · rw [← hend]
    exact ⟨hload.keep hrest, hR.keep hload hP' hempty hrest⟩
  · have hnil : data.drop (wholeWords data.length) = [] := by
      rw [List.drop_eq_nil_iff]
      omega
    have hall : wholeWords data.length = data.length := by omega
    rw [hnil, hall] at hload hP'
    exact ⟨hload, hP'⟩

theorem LoadRule.gfTopUp (hR : LoadRule B s₀ P Q) (h : Loading B s₀ s off data) (hP : P s off data)
    (hjoin : s.carry ≠ [] → s.carryOff + s.carry.length = off) :
    Leads (gfTopUp B s off data)
      (fun s' => Loading B s₀ s' (off + data.length) [] ∧ P s' (off + data.length) [])
      (fun s' => Loading B s₀ s' 0 [] ∧ Q s') := by
  have hmissing := Loading.missing_le s data
  have hlen := Loading.topUp_length s data
  rw [Image.gfTopUp]
  split_ifs with hcarry hshort
  · exact hR.gfWords h hP hcarry
  · -- the whole request went to the word that waits
    have hload := h.topUp hcarry (hjoin hcarry)
    have hP' := hR.topUp h hP hcarry (hjoin hcarry)
    have hall : s.missing data = data.length := by
      rw [St.missing] at hlen ⊢
      omega
    rw [hall, List.drop_length] at hload hP'
    exact .accept ⟨hload, hP'⟩
  · have hload := h.topUp hcarry (hjoin hcarry)
    have hP' := hR.topUp h hP hcarry (hjoin hcarry)
    have hfour : (s.topUp data).carry.length = 4 := by
      have hle := (hload.shape.carry_le (List.ne_nil_of_length_pos (by omega))).2.2
      omega
    have hend : off + s.missing data + (data.drop (s.missing data)).length = off + data.length := by
      rw [List.length_drop]
      omega
    have hwrote := hload.upWrite s.carryOff (s.topUp data).carry
    apply Leads.andThen (p := fun s' => Loading B s₀ { s' with carry := [] } (off + s.missing data)
      (data.drop (s.missing data)) ∧ P { s' with carry := [] } (off + s.missing data) (data.drop (s.missing data)))
    · apply (hR.word hload hP' hfour).imp
      · intro hP''
        exact ⟨hwrote.dropCarry, hP''⟩
      · intro hQ
        exact ⟨hwrote.advance (Nat.zero_le _), hQ⟩
    · intro s' hs'
      rw [← hend]
      exact hR.gfWords hs'.1 hs'.2 rfl

end

/-- A request that is not refused at once. -/
structure Writable (B : Board) (s : St) (addr : Word) (data : List Byte) : Prop where
  owner : s.owner = .gdb
  inRom : ¬addr < romBase
  fits : s.flash.used + (romOff addr + data.length) ≤ B.size

section
variable {s : St} {addr : Word} {data : List Byte} {P : St → Nat → List Byte → Prop} {Q : St → Prop}

theorem Writable.owned (h : Writable B s addr data) : s.owner ≠ .none := by
  rw [h.owner]
  decide

theorem Shape.gdbFlashWrite_refused (h : Shape B s) (hw : ¬Writable B s addr data) :
    gdbFlashWrite B s addr data = (false, s) := by
  apply if_pos
  by_contra hok
  push Not at hok
  obtain ⟨hgdb, haddr, hfits⟩ := hok
  exact hw ⟨hgdb, haddr, (h.fits_iff (by rw [hgdb]; decide) _).mp (Bool.eq_true_of_not_eq_false hfits)⟩

theorem Writable.gdbFlashWrite_eq (hw : Writable B s addr data) (h : Shape B s) :
    gdbFlashWrite B s addr data =
      andThen (gfJump B (s.seen (romOff addr + data.length)) (romOff addr)) fun s' =>
        gfTopUp B s' (romOff addr) data := by
  apply if_neg
  rintro (hne | hlt | hfits)
  · exact hne hw.owner
  · exact hw.inRom hlt
  · rw [(h.fits_iff hw.owned _).mpr hw.fits] at hfits
    cases hfits

theorem Writable.seen (hw : Writable B s addr data) (h : Shape B s) :
    Loading B (s.seen (romOff addr + data.length)) (s.seen (romOff addr + data.length)) (romOff addr) data where
  toKeeps := .refl _
  shape :=
    { h with
      gfLen_le := by
        have hold := h.gfLen_le
        have hnew := hw.fits
        change s.flash.used + max s.gfLen (romOff addr + data.length) ≤ B.size
        omega
      unloaded := fun hne => absurd hw.owner hne
      carry_le := by
        intro hne
        obtain ⟨hgdb, hle, hlen⟩ := h.carry_le hne
        exact ⟨hgdb, hle.trans (le_max_left ..), hlen⟩ }
  owner := hw.owner
  gfLen := rfl
  le := le_max_right ..

theorem LoadRule.gdbFlashWrite (hR : LoadRule B (s.seen (romOff addr + data.length)) P Q)
    (hw : Writable B s addr data) (h : Shape B s) (hP : P (s.seen (romOff addr + data.length)) (romOff addr) data) :
    Leads (gdbFlashWrite B s addr data)
      (fun s' => Loading B (s.seen (romOff addr + data.length)) s' (romOff addr + data.length) [] ∧
        P s' (romOff addr + data.length) [])
      (fun s' => Loading B (s.seen (romOff addr + data.length)) s' 0 [] ∧ Q s') := by
  have hload := hw.seen h
  rw [hw.gdbFlashWrite_eq h]
  generalize s.seen (romOff addr + data.length) = s₀ at hload hR hP ⊢
  apply Leads.andThen (p := fun s' => Loading B s₀ s' (romOff addr) data ∧ P s' (romOff addr) data ∧
    (s'.carry ≠ [] → s'.carryOff + s'.carry.length = romOff addr))
  · rw [gfJump]
    split_ifs with hjump
    · apply (hR.flush hload hP hjump.1).imp
      · intro hP'
        exact ⟨hload.gfFlush, hP', fun hne => absurd (gfFlush_carry B _) hne⟩
      · intro hQ
        exact ⟨hload.gfFlush.advance (Nat.zero_le _), hQ⟩
    · refine .accept ⟨hload, hP, fun hne => ?_⟩
      by_contra hj
      exact hjump ⟨hne, hj⟩
  · intro s' hs'
    exact hR.gfTopUp hs'.1 hs'.2.1 hs'.2.2

/-- A request keeps the load going, whatever becomes of it. -/
theorem Writable.loading (hw : Writable B s addr data) (h : Shape B s) :
    Loading B (s.seen (romOff addr + data.length)) (gdbFlashWrite B s addr data).2 0 [] := by
  have hR : LoadRule B (s.seen (romOff addr + data.length)) (fun _ _ _ => True) fun _ => True :=
    ⟨fun _ _ _ => .of trivial trivial, fun _ _ _ _ => trivial, fun _ _ _ => .of trivial trivial, fun _ _ _ _ => .of trivial trivial,
      fun _ _ _ _ => trivial⟩
  refine Leads.both (p := fun s' => Loading B (s.seen (romOff addr + data.length)) s' 0 []) ?_
  apply (hR.gdbFlashWrite hw h trivial).imp
  · intro hs'
    exact hs'.1.advance (Nat.zero_le _)
  · intro hs'
    exact hs'.1

/-- A load that may be committed. -/
theorem Shape.gdbFlashDone_eq (h : Shape B s) :
    gdbFlashDone B s =
      if s.owner = .gdb ∧ s.gfLen ≠ 0 then andThen (gfFlush B s) fun s' => (true, s'.finish) else (false, s) := by
  rw [Image.gdbFlashDone]
  split_ifs with hrefused hready hready
  · obtain hne | hzero | hfits := hrefused
    · exact absurd hready.1 hne
    · exact absurd hzero hready.2
    · rw [(h.fits_iff (by rw [hready.1]; decide) _).mpr h.gfLen_le] at hfits
      cases hfits
  · rfl
  · rfl
  · push Not at hrefused
    exact absurd ⟨hrefused.1, hrefused.2.1⟩ hready

theorem Shape.loading (h : Shape B s) (hgdb : s.owner = .gdb) : Loading B s s 0 [] :=
  ⟨.refl s, h, hgdb, rfl, Nat.zero_le _⟩

end

/-! ## TFTP -/

/-- A transfer goes on, some bytes after it was looked at first. -/
structure Sending (B : Board) (s₀ s : St) (sent : List Byte) : Prop extends Keeps s₀ s where
  shape : Shape B s
  owner : s.owner = .tftp
  busy : s.busy = true
  failed : s.failed = false
  complete : s.complete = s₀.complete
  hwm : s.hwm = s.written
  written : s.written = s₀.written + sent.length
  clean : s.flash.misprogrammed = s₀.flash.misprogrammed
  before : ∀ a < s₀.flash.used + s₀.written, s.flash.cells a = s₀.flash.cells a
  cells : ∀ i < sent.length, s.flash.cells (s₀.flash.used + s₀.written + i) = sent[i]?

/-- The board has refused some bytes of a transfer. -/
structure Failing (B : Board) (s₀ s : St) : Prop where
  shape : Shape B s
  owner : s.owner = .tftp
  busy : s.busy = true
  failed : s.failed = true
  clean : s.flash.misprogrammed = s₀.flash.misprogrammed
  pending : s.pending = s₀.pending

section
variable {s₀ s : St} {sent q : List Byte}

theorem Sending.owned (h : Sending B s₀ s sent) : s.owner ≠ .none := by
  rw [h.owner]
  decide

/-- A transfer programs cells that are erased. -/
theorem Sending.wrote_clean (h : Sending B s₀ s sent) (q : List Byte) :
    (wrote B s s.written q).flash.misprogrammed = s₀.flash.misprogrammed := by
  refine Eq.trans ?_ h.clean
  apply Flash.write_misprogrammed
  intro i hi
  have hhwm := h.hwm
  exact h.shape.blank (h.shape.erased h.owned) _ (by omega)

theorem Sending.tftpPiece (h : Sending B s₀ s sent) (q : List Byte) :
    Leads (tftpPiece B s q) (fun s' => Sending B s₀ s' (sent ++ q)) (Failing B s₀) := by
  have hhwm := h.hwm
  rw [Image.tftpPiece, netImageData, if_pos h.owner, h.shape.upWrite_eq h.owned]
  split_ifs with hfits
  · have hshape : Shape B (wrote B s s.written q) := h.shape.wrote h.owned hfits
    have hclean := h.wrote_clean q
    cases hok : (s.flash.write B (s.flash.used + s.written) q).1 with
    | false => exact .refuse ⟨{ hshape with }, h.owner, h.busy, rfl, hclean, h.pending⟩
    | true =>
      have hcells : ∀ a, (wrote B s s.written q).flash.cells a =
          if s.flash.used + s.written ≤ a ∧ a < s.flash.used + s.written + q.length then
            q[a - (s.flash.used + s.written)]?
          else s.flash.cells a :=
        fun a => congrFun (congrArg Flash.cells (Flash.write_accepted hok)) a
      have hused := h.used
      have hwritten := h.written
      apply Leads.accept
      refine ⟨⟨(wrote_used ..).1.trans h.used, ?_, h.pending⟩, { hshape with }, h.owner, h.busy, h.failed, h.complete, ?_, ?_,
        hclean, ?_, ?_⟩
      · intro a ha
        rw [← h.below a ha]
        exact (hcells a).trans (if_neg (by omega))
      · change max s.hwm (s.written + q.length) = s.written + q.length
        omega
      · change s.written + q.length = _
        rw [List.length_append]
        omega
      · intro a ha
        rw [← h.before a ha]
        exact (hcells a).trans (if_neg (by omega))
      · intro i hi
        refine (hcells _).trans ?_
        rw [List.length_append] at hi
        by_cases hold : i < sent.length
        · rw [if_neg (by omega), h.cells i hold, List.getElem?_append_left hold]
        · rw [if_pos (by omega), List.getElem?_append_right (by omega)]
          congr 1
          omega
  · exact .refuse ⟨{ h.shape with }, h.owner, h.busy, rfl, h.clean, h.pending⟩

theorem Sending.tftpPieces (h : Sending B s₀ s sent) (qs : List (List Byte)) :
    Leads (tftpPieces B s qs) (fun s' => Sending B s₀ s' (sent ++ qs.flatten)) (Failing B s₀) := by
  induction qs generalizing s sent with
  | nil => exact .accept (by rwa [List.flatten_nil, List.append_nil])
  | cons q qs ih =>
    rw [Image.tftpPieces]
    apply (h.tftpPiece q).andThen
    intro s' hs'
    rw [List.flatten_cons, ← List.append_assoc]
    exact ih hs'

end

/-- The state in which the pieces of a packet are taken. -/
def St.noted (s : St) (pieces : List (List Byte)) : St :=
  { s with complete := isLast pieces }

/-- A transfer that has failed is over, and the arena is erased. -/
def St.wiped (s : St) : St :=
  { s with busy := false, flash := s.flash.reset, owner := .none, upAddr := none, hwm := 0 }

/-- A transfer that is complete is committed. -/
def St.sent (s : St) : St :=
  upCommit { s with busy := false } s.written

/-- The flags of the TFTP server and of the stub. -/
def St.flagged (s : St) (busy failed complete touched : Bool) : St :=
  { s with busy := busy, failed := failed, complete := complete, flashTouched := touched }

section
variable {s₀ s : St} {sent : List Byte} {pieces : List (List Byte)}

theorem Shape.flagged (h : Shape B s) (busy failed complete touched : Bool) :
    Shape B (s.flagged busy failed complete touched) :=
  { h with }

theorem Failing.tftpClose (h : Failing B s₀ s) : tftpClose B s = s.wiped := by
  rw [Image.tftpClose, if_neg (by rw [h.busy]; decide), tftpEnd, if_pos h.failed, netImageEnd,
    if_neg (not_not.mpr h.owner)]
  rfl

theorem Sending.tftpClose (h : Sending B s₀ s sent) (hc : s₀.complete = true) : tftpClose B s = s.sent := by
  have hfits : s.fits B s.written = true := by
    rw [h.shape.fits_iff h.owned, ← h.hwm]
    exact h.shape.hwm_le
  rw [Image.tftpClose, if_neg (by rw [h.busy]; decide), tftpEnd, if_neg (by rw [h.failed]; decide),
    if_pos (h.complete.trans hc), netImageEnd, if_neg (not_not.mpr h.owner), if_neg (by decide)]
  apply if_neg
  change ¬(!s.fits B s.written) = true
  rw [hfits]
  decide

theorem Shape.noted (h : Shape B s) (ht : Transfer s) (howner : s.owner = .tftp) (pieces : List (List Byte)) :
    Sending B (s.noted pieces) (s.noted pieces) [] := by
  obtain ⟨hbusy, hfailed, -, hhwm⟩ := ht howner
  exact ⟨.refl _, { h with }, howner, hbusy, hfailed, rfl, hhwm, rfl, rfl, fun _ _ => rfl, fun _ hi => nomatch hi⟩

/-- A data packet of the transfer that owns the upload. -/
theorem Shape.tftpData (h : Shape B s) (ht : Transfer s) (howner : s.owner = .tftp) (pieces : List (List Byte)) :
    Leads (tftpData B s pieces)
      (fun t => ∃ s', Sending B (s.noted pieces) s' pieces.flatten ∧ t = if isLast pieces then s'.sent else s')
      (fun t => ∃ s', Failing B (s.noted pieces) s' ∧ t = s'.wiped) := by
  have hpieces := (h.noted ht howner pieces).tftpPieces pieces
  have hwrite : tftpWrite B s pieces = Image.tftpPieces B (s.noted pieces) pieces :=
    if_neg (by rw [(ht howner).1]; decide)
  rw [Image.tftpData, hwrite]
  generalize Image.tftpPieces B (s.noted pieces) pieces = r at hpieces
  obtain ⟨ok, s'⟩ := r
  cases ok with
  | false =>
    have hfail : Failing B (s.noted pieces) s' := hpieces
    exact ⟨s', hfail, hfail.tftpClose⟩
  | true =>
    have hsend : Sending B (s.noted pieces) s' pieces.flatten := hpieces
    refine ⟨s', hsend, ?_⟩
    dsimp only
    cases hlast : isLast pieces with
    | false => rfl
    | true => exact hsend.tftpClose hlast

theorem tftpEnd_of_ne (hne : s.owner ≠ .tftp) : tftpEnd B s = s := by
  rw [tftpEnd, netImageEnd, netImageEnd, netImageAbandon, if_pos hne, if_pos hne, if_pos hne]
  split_ifs <;> rfl

theorem tftpClose_of_ne (hne : s.owner ≠ .tftp) :
    tftpClose B s = s.flagged false s.failed s.complete s.flashTouched := by
  rw [Image.tftpClose]
  split_ifs with hbusy
  · rw [Bool.not_eq_true'] at hbusy
    rw [St.flagged, ← hbusy]
  · exact tftpEnd_of_ne hne

theorem tftpError_of_ne (hne : s.owner ≠ .tftp) :
    tftpError s = s.flagged false s.failed s.complete s.flashTouched := by
  rw [Image.tftpError]
  split_ifs with hbusy
  · exact if_pos hne
  · rw [Bool.not_eq_true] at hbusy
    rw [St.flagged, ← hbusy]

/-- The server learns that it has lost the upload from the first piece it hands over. -/
theorem tftpPieces_of_ne (hne : s.owner ≠ .tftp) (pieces : List (List Byte)) :
    ∃ failed, (tftpPieces B s pieces).2 = s.flagged s.busy failed s.complete s.flashTouched := by
  cases pieces with
  | nil => exact ⟨s.failed, rfl⟩
  | cons q qs =>
    refine ⟨true, ?_⟩
    rw [tftpPieces, tftpPiece, netImageData, if_neg hne]
    rfl

theorem tftpData_of_ne (hne : s.owner ≠ .tftp) (pieces : List (List Byte)) :
    ∃ busy failed complete, (tftpData B s pieces).2 = s.flagged busy failed complete s.flashTouched := by
  have hwrite : ∃ busy failed complete,
      (tftpWrite B s pieces).2 = s.flagged busy failed complete s.flashTouched := by
    rw [tftpWrite]
    split_ifs
    · exact ⟨s.busy, s.failed, s.complete, rfl⟩
    · obtain ⟨failed, hpieces⟩ := tftpPieces_of_ne (B := B) (s := { s with complete := isLast pieces }) hne pieces
      exact ⟨s.busy, failed, isLast pieces, hpieces⟩
  obtain ⟨busy, failed, complete, heq⟩ := hwrite
  rw [tftpData]
  dsimp only
  rw [heq]
  split_ifs
  · exact ⟨false, failed, complete, tftpClose_of_ne hne⟩
  · exact ⟨busy, failed, complete, rfl⟩

/-- A transfer that stops before its last block is abandoned. -/
theorem tftpClose_owned (ht : Transfer s) (howner : s.owner = .tftp) :
    tftpClose B s = upAbandon (s.flagged false s.failed s.complete s.flashTouched) := by
  obtain ⟨hbusy, hfailed, hcomplete, -⟩ := ht howner
  rw [Image.tftpClose, if_neg (by rw [hbusy]; decide), tftpEnd, if_neg (by rw [hfailed]; decide),
    if_neg (by rw [hcomplete]; decide)]
  exact if_neg (not_not.mpr howner)

theorem tftpError_owned (ht : Transfer s) (howner : s.owner = .tftp) :
    tftpError s = upAbandon (s.flagged false s.failed s.complete s.flashTouched) := by
  obtain ⟨hbusy, -, -, -⟩ := ht howner
  rw [Image.tftpError, if_pos hbusy]
  exact if_neg (not_not.mpr howner)

end

/-! ## Requests -/

section
variable {s : St}

/-- An opened transfer: it has taken the upload over. -/
def opened (s : St) (f : Flash) : St :=
  { begun (upAbandon s) f .tftp with written := 0, busy := true, failed := false, complete := false }

/-- An erase that began a load. -/
def restarted (s : St) (f : Flash) : St :=
  { begun (upAbandon s) f .gdb with flashTouched := true }

theorem Shape.tftpOpen (h : Shape B s) :
    ∃ f, tftpOpen B s = (true, opened s f) ∧ Begins B s f := by
  have hbusy : Shape B { s with busy := false } := { h with }
  obtain ⟨f, heq, hf⟩ := hbusy.upBegin_eq .tftp
  refine ⟨f, ?_, ⟨hf.used_le, hf.used_dvd, hf.erased, hf.blank, hf.clean, hf.same, hf.reset⟩⟩
  rw [Image.tftpOpen, heq]
  rfl

/-- The first erase of a load takes the upload over; a later one does nothing. -/
theorem Shape.erase (h : Shape B s) (addr : Word) :
    addr < romBase ∧ step B s (.erase addr) = (false, s) ∨
      ¬addr < romBase ∧ s.owner = .gdb ∧
        step B s (.erase addr) = (true, s.flagged s.busy s.failed s.complete true) ∨
      ¬addr < romBase ∧ s.owner ≠ .gdb ∧ ∃ f, step B s (.erase addr) = (true, restarted s f) ∧ Begins B s f := by
  rw [step, gdbFlashErase]
  split_ifs with haddr hown
  · exact .inl ⟨haddr, rfl⟩
  · obtain ⟨f, heq, hf⟩ := h.upBegin_eq .gdb
    refine .inr (.inr ⟨haddr, hown, f, ?_, hf⟩)
    rw [heq]
    rfl
  · rw [not_not] at hown
    exact .inr (.inl ⟨haddr, hown, rfl⟩)

theorem andThen_touch (r : Bool × St) :
    (andThen r touch).2 = r.2.flagged r.2.busy r.2.failed r.2.complete (r.1 || r.2.flashTouched) := by
  obtain ⟨ok, s⟩ := r
  cases ok <;> rfl

theorem Shape.gdbFlashDone (h : Shape B s) (ht : Transfer s) :
    Shape B (gdbFlashDone B s).2 ∧ Transfer (gdbFlashDone B s).2 := by
  rw [h.gdbFlashDone_eq]
  split_ifs with hready
  · have hload := (h.loading hready.1).gfFlush
    have hcarry := gfFlush_carry B s
    generalize gfFlush B s = r at hload hcarry
    obtain ⟨ok, s'⟩ := r
    cases ok with
    | false =>
      refine ⟨hload.shape, .of_ne ?_⟩
      change s'.owner ≠ .tftp
      rw [hload.owner]
      decide
    | true =>
      exact ⟨hload.shape.committed hload.shape.gfLen_le rfl rfl rfl rfl rfl hcarry, .of_ne nofun⟩
  · exact ⟨h, ht⟩

end

/-! ## Every run -/

section
variable {s : St}

/-- The upload state stays in shape, whatever is asked and whatever the hardware refuses. -/
theorem step_shape (h : Shape B s) (ht : Transfer s) (e : Event) :
    Shape B (step B s e).2 ∧ Transfer (step B s e).2 := by
  cases e with
  | tftpOpen =>
    obtain ⟨f, heq, hf⟩ := h.tftpOpen
    rw [step, heq]
    have hbegun : Shape B (begun (upAbandon s) f .tftp) := .begun hf (by decide)
    exact ⟨{ hbegun with }, fun _ => ⟨rfl, rfl, rfl, rfl⟩⟩
  | tftpData pieces =>
    rw [step]
    by_cases howner : s.owner = .tftp
    · refine (Leads.both (p := fun t => Shape B t ∧ Transfer t) ?_)
      apply (h.tftpData ht howner pieces).imp
      · rintro ⟨s', hsend, heq⟩
        rw [heq]
        cases hlast : isLast pieces with
        | false =>
          exact ⟨hsend.shape, fun _ => ⟨hsend.busy, hsend.failed, hsend.complete.trans hlast, hsend.hwm⟩⟩
        | true =>
          have hwritten : s'.flash.used + s'.written ≤ B.size := hsend.hwm ▸ hsend.shape.hwm_le
          have hne : s'.owner ≠ .gdb := by
            rw [hsend.owner]
            decide
          exact ⟨hsend.shape.committed hwritten rfl rfl rfl rfl (hsend.shape.unloaded hne) (hsend.shape.carry_nil hne),
            .of_ne nofun⟩
      · rintro ⟨s', hfail, heq⟩
        rw [heq]
        have hwiped := hfail.shape.reset (by rw [hfail.owner]; decide)
        exact ⟨{ hwiped with }, .of_ne nofun⟩
    · obtain ⟨busy, failed, complete, heq⟩ := tftpData_of_ne (B := B) howner pieces
      rw [heq]
      exact ⟨h.flagged .., .of_ne howner⟩
  | tftpClose =>
    rw [step]
    by_cases howner : s.owner = .tftp
    · rw [tftpClose_owned ht howner]
      exact ⟨(h.flagged ..).upAbandon, .of_ne nofun⟩
    · rw [tftpClose_of_ne howner]
      exact ⟨h.flagged .., .of_ne howner⟩
  | tftpError =>
    rw [step]
    by_cases howner : s.owner = .tftp
    · rw [tftpError_owned ht howner]
      exact ⟨(h.flagged ..).upAbandon, .of_ne nofun⟩
    · rw [tftpError_of_ne howner]
      exact ⟨h.flagged .., .of_ne howner⟩
  | erase addr =>
    obtain ⟨-, heq⟩ | ⟨-, hgdb, heq⟩ | ⟨-, -, f, heq, hf⟩ := h.erase addr
    · rw [heq]
      exact ⟨h, ht⟩
    · rw [heq]
      exact ⟨h.flagged .., .of_ne (by rw [St.flagged, hgdb]; decide)⟩
    · rw [heq]
      have hbegun : Shape B (begun (upAbandon s) f .gdb) := .begun hf (by decide)
      exact ⟨{ hbegun with }, .of_ne nofun⟩
  | write addr data =>
    rw [step]
    by_cases hw : Writable B s addr data
    · have hload := hw.loading h
      rw [andThen_touch]
      exact ⟨hload.shape.flagged .., .of_ne (by rw [St.flagged, hload.owner]; decide)⟩
    · rw [h.gdbFlashWrite_refused hw]
      exact ⟨h, ht⟩
  | done =>
    rw [step]
    split_ifs
    · obtain ⟨hshape, hne⟩ := h.gdbFlashDone ht
      exact ⟨{ hshape with }, hne⟩
    · exact ⟨h, ht⟩
  | disconnect => exact ⟨h, ht⟩
  | take =>
    rw [step, takePending]
    split_ifs
    · exact ⟨{ h with }, ht⟩
    · exact ⟨h, ht⟩

/-- What holds when a board has just been started and is kept by every step holds after any events. -/
theorem run_invariant {I : St → Prop} (hstep : ∀ s e, I s → I (step B s e).2) (es : List Event) (h : I s) :
    I (run B s es) := by
  induction es generalizing s with
  | nil => exact h
  | cons e es ih => exact ih (hstep s e h)

theorem run_shape (cells : Nat → Option Byte) (es : List Event) :
    Shape B (run B (.init cells) es) ∧ Transfer (run B (.init cells) es) :=
  run_invariant (I := fun s => Shape B s ∧ Transfer s) (fun _ e h => step_shape h.1 h.2 e) es
    ⟨.init cells, .of_ne nofun⟩

end

/-- A board with room for four words. -/
def smallBoard : Board := ⟨16, false, fun _ => none, by decide, by decide⟩

end Emu.Image
