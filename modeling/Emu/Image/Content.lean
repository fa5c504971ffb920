-- SUMMARY: Which bytes an installed image consists of: those of the last upload that was committed.
import Emu.Image.Clients
import Emu.Lib.Overlay

/-! # The bytes of an image

What the clients have sent is kept apart from the state of the uploads, and follows from the requests and their answers
alone. The image that is installed is the last one the clients know to be committed, as long as nothing erases the arena
before it is installed, a load is not begun again before it is finished, and a load is not committed that has failed or
has been made longer by a write of nothing. -/

namespace Emu.Image

open Attempt Overlay

variable {B : Board}

/-! ## What the clients have sent -/

/-- The offset and the bytes of a write of the debugger. -/
abbrev Write := Nat × List Byte

/-- The byte a load has written at an offset. The last write comes first. -/
def bytesOf : List Write → Nat → Option Byte
  | [] => fun _ => none
  | (off, data) :: ws => patch off data (bytesOf ws)

/-- One more than the highest offset a load has written. -/
def topOf : List Write → Nat
  | [] => 0
  | (off, data) :: ws => if data = [] then topOf ws else max (topOf ws) (off + data.length)

/-- The image of a load. -/
def imageOf (ws : List Write) : List Byte :=
  (List.range (topOf ws)).map fun o => (bytesOf ws o).getD 0xFF

/-- An upload that is not finished. -/
inductive Load where
  | tftp (sent : List Byte)
  | gdb (writes : List Write) (refused : Bool)
  deriving DecidableEq, Repr

/-- A write of the load was refused. -/
def Load.refused : Load → Bool
  | .tftp _ => false
  | .gdb _ refused => refused

/-- What the clients know: the upload under way, and the last that was committed. -/
structure Sent where
  load : Option Load
  committed : Option (List Byte)
  deriving DecidableEq, Repr

/-- The packets of a transfer, once one more was answered. -/
def Sent.packet (c : Sent) (pieces : List (List Byte)) (ok : Bool) : Sent :=
  match c.load with
  | some (.tftp sent) =>
    if !ok then { c with load := none }
    else if isLast pieces then ⟨none, some (sent ++ pieces.flatten)⟩
    else { c with load := some (.tftp (sent ++ pieces.flatten)) }
  | _ => c

/-- A transfer is given up. -/
def Sent.giveUp (c : Sent) : Sent :=
  match c.load with
  | some (.tftp _) => { c with load := none }
  | _ => c

/-- The writes of a load, once one more was answered. -/
def Sent.write (c : Sent) (w : Write) (ok : Bool) : Sent :=
  match c.load with
  | some (.gdb ws refused) =>
    if ok then { c with load := some (.gdb (w :: ws) refused) } else { c with load := some (.gdb ws true) }
  | _ => c

/-- A load is finished. One that has failed is no image. -/
def Sent.finish (c : Sent) : Sent :=
  match c.load with
  | some (.gdb ws refused) => ⟨none, if refused then none else some (imageOf ws)⟩
  | _ => c

/-- What the clients know after a request and its answer. -/
def Sent.next (c : Sent) : Event → Bool → Sent
  | .tftpOpen, ok => if ok then { c with load := some (.tftp []) } else c
  | .tftpData pieces, ok => c.packet pieces ok
  | .tftpClose, _ => c.giveUp
  | .tftpError, _ => c.giveUp
  | .erase _, ok => if ok then { c with load := some (.gdb [] false) } else c
  | .write addr data, ok => c.write (romOff addr, data) ok
  | .done, ok => if ok then c.finish else c
  | .disconnect, _ => c
  | .take, _ => c

/-- The part of the arena in use reaches its end, and the board does not begin there. -/
def Full (B : Board) (s : St) : Prop := B.refusesFull = true ∧ (upAbandon s).flash.used = B.size

/-- What has to hold of a request: it does not erase the arena while an image waits to be installed, does not begin a
load again that is not finished, does not write nothing past the end of the image, and does not finish a load that has
failed. -/
def Sound (B : Board) (s : St) (c : Sent) : Event → Prop
  | .tftpOpen => s.reload = true → ¬Full B s
  | .tftpData pieces =>
    s.reload = true → s.owner = .tftp → s.flash.used + s.written + pieces.flatten.length ≤ B.size
  | .erase addr => ¬addr < romBase → if s.owner = .gdb then s.gfLen = 0 else s.reload = true → ¬Full B s
  | .write addr data => data = [] → romOff addr ≤ s.gfLen
  | .done => ∀ l ∈ c.load, l.refused = false
  | _ => True

/-- Every request of a run is such a one. -/
def SoundAll (B : Board) : St → Sent → List Event → Prop
  | _, _, [] => True
  | s, c, e :: es => Sound B s c e ∧ SoundAll B (step B s e).2 (c.next e (step B s e).1) es

instance (s : St) : Decidable (Full B s) := inferInstanceAs (Decidable (_ ∧ _))

instance (s : St) (c : Sent) (e : Event) : Decidable (Sound B s c e) :=
  match e with
  | .tftpOpen | .tftpData _ | .erase _ | .write .. => inferInstanceAs (Decidable (_ → _))
  | .done => inferInstanceAs (Decidable (∀ l ∈ c.load, l.refused = false))
  | .tftpClose | .tftpError | .disconnect | .take => .isTrue trivial

instance decidableSoundAll : (s : St) → (c : Sent) → (es : List Event) → Decidable (SoundAll B s c es)
  | _, _, [] => .isTrue trivial
  | s, c, e :: es =>
    have := decidableSoundAll (step B s e).2 (c.next e (step B s e).1) es
    inferInstanceAs (Decidable (_ ∧ _))

/-- What the clients know after a list of requests. -/
def Sent.after (B : Board) (c : Sent) (s : St) : List Event → Sent
  | [] => c
  | e :: es => Sent.after B (c.next e (step B s e).1) (step B s e).2 es

theorem bytesOf_of_le {ws : List Write} {o : Nat} (h : topOf ws ≤ o) : bytesOf ws o = none := by
  induction ws with
  | nil => rfl
  | cons w ws ih =>
    obtain ⟨off, data⟩ := w
    rw [topOf] at h
    split_ifs at h with hdata
    · rw [bytesOf, hdata, patch_nil]
      exact ih h
    · rw [bytesOf, patch, if_neg (by omega)]
      exact ih (by omega)

/-! ## Reliable boards -/

/-- A board whose flash programs whatever is in the arena. -/
def Board.Reliable (B : Board) : Prop := ∀ k, B.faults k = none

/-- The bytes of the upload, those that wait included. -/
def St.view (s : St) : Nat → Option Byte :=
  patch s.carryOff s.carry fun o => s.flash.cells (s.flash.used + o)

section
variable {s : St} {off : Nat} {data : List Byte}

theorem St.view_of_nil (h : s.carry = []) : s.view = fun o => s.flash.cells (s.flash.used + o) := by
  rw [St.view, h, patch_nil]

theorem Board.Reliable.upWrite (hB : B.Reliable) (h : Shape B s) (hown : s.owner ≠ .none)
    (hfits : s.flash.used + (off + data.length) ≤ B.size) :
    upWrite B s off data = (true, wrote B s off data) ∧
      (wrote B s off data).flash = s.flash.program B (s.flash.used + off) data := by
  have hwrite : s.flash.write B (s.flash.used + off) data = (true, s.flash.program B (s.flash.used + off) data) := by
    rw [Flash.write, if_neg (by omega), hB]
  rw [h.upWrite_eq hown, if_pos hfits, wrote, hwrite]
  exact ⟨rfl, rfl⟩

/-- The bytes of the upload in the arena, after some were programmed. -/
theorem Board.Reliable.wrote_cells (hB : B.Reliable) (h : Shape B s) (hown : s.owner ≠ .none)
    (hfits : s.flash.used + (off + data.length) ≤ B.size) :
    (fun o => (wrote B s off data).flash.cells ((wrote B s off data).flash.used + o)) =
      patch off data fun o => s.flash.cells (s.flash.used + o) := by
  rw [(hB.upWrite h hown hfits).2]
  exact patch_base s.flash.used

end

/-! ## Loads -/

/-- The word that waits is programmed. -/
theorem Loading.word_view {s₀ s : St} {off : Nat} {data : List Byte} (hB : B.Reliable) (hl : Loading B s₀ s off data)
    (hcarry : s.carry ≠ []) :
    Image.upWrite B s s.carryOff s.carry = (true, wrote B s s.carryOff s.carry) ∧
      St.view { wrote B s s.carryOff s.carry with carry := [] } = s.view := by
  have hfits : s.flash.used + (s.carryOff + s.carry.length) ≤ B.size := by
    have hle := (hl.shape.carry_le hcarry).2.1
    have hgf := hl.shape.gfLen_le
    omega
  exact ⟨(hB.upWrite hl.shape hl.owned hfits).1, (St.view_of_nil rfl).trans (hB.wrote_cells hl.shape hl.owned hfits)⟩

/-- Placing the bytes of a request changes nothing about what the upload consists of. -/
theorem loadRule_view (hB : B.Reliable) (g : Nat → Option Byte) (s₀ : St) :
    LoadRule B s₀ (fun s off data => patch off data s.view = g) fun _ => False where
  flush {s off data} hl h hcarry := by
    obtain ⟨hwrite, hview⟩ := hl.word_view hB hcarry
    rw [gfFlush, if_neg hcarry, hwrite]
    apply Leads.accept
    rw [hview]
    exact h
  topUp {s off data} _ h _ hjoin := by
    have hview : (s.topUp data).view = patch off (data.take (s.missing data)) s.view := by
      rw [← hjoin]
      exact patch_append
    rw [hview, patch_split (Loading.missing_le s data)]
    exact h
  word {s off data} hl h hfour := by
    obtain ⟨hwrite, hview⟩ := hl.word_view hB (List.ne_nil_of_length_pos (by omega))
    rw [hwrite]
    apply Leads.accept
    rw [hview]
    exact h
  words {s off data n} hl h hcarry hn := by
    have hlen : (data.take n).length = n := List.length_take_of_le hn
    have hfits : s.flash.used + (off + (data.take n).length) ≤ B.size := by
      have hle := hl.le
      have hgf := hl.shape.gfLen_le
      omega
    have hview : (wrote B s off (data.take n)).view = patch off (data.take n) s.view := by
      have hempty : (wrote B s off (data.take n)).carry = [] := hcarry
      rw [St.view_of_nil hempty, St.view_of_nil hcarry]
      exact hB.wrote_cells hl.shape hl.owned hfits
    rw [(hB.upWrite hl.shape hl.owned hfits).1]
    apply Leads.accept
    rw [hview, patch_split hn]
    exact h
  keep {s off data} _ h hcarry _ := by
    rw [St.view_of_nil hcarry] at h
    rw [patch_nil]
    exact h

/-! ## Transfers -/

section
variable {s₀ s : St} {sent : List Byte}

theorem Sending.tftpPieces_accepted (hB : B.Reliable) (h : Sending B s₀ s sent) (qs : List (List Byte))
    (hroom : s.flash.used + s.written + qs.flatten.length ≤ B.size) : (Image.tftpPieces B s qs).1 = true := by
  induction qs generalizing s sent with
  | nil => rfl
  | cons q qs ih =>
    rw [List.flatten_cons, List.length_append] at hroom
    have hnext := h.tftpPiece q
    have hpiece : Image.tftpPiece B s q =
        (true, { wrote B s s.written q with written := (wrote B s s.written q).written + q.length }) := by
      rw [Image.tftpPiece, netImageData, if_pos h.owner, (hB.upWrite h.shape h.owned (by omega)).1]
    rw [hpiece] at hnext
    rw [Image.tftpPieces, hpiece]
    apply ih hnext
    rw [hnext.used.trans h.used.symm, hnext.written, List.length_append]
    have := h.written
    omega

/-- A packet that fits is accepted. -/
theorem Shape.tftpData_accepted (hB : B.Reliable) (h : Shape B s) (ht : Transfer s) (howner : s.owner = .tftp)
    (pieces : List (List Byte)) (hroom : s.flash.used + s.written + pieces.flatten.length ≤ B.size) :
    (Image.tftpData B s pieces).1 = true := by
  have hwrite : tftpWrite B s pieces = Image.tftpPieces B (s.noted pieces) pieces :=
    if_neg (by rw [(ht howner).1]; decide)
  rw [Image.tftpData, hwrite]
  exact (h.noted ht howner pieces).tftpPieces_accepted hB pieces hroom

end

/-! ## The invariant -/

/-- The upload under way is the one the clients know of. -/
def Agrees (s : St) : Option Load → Prop
  | none => s.owner = .none
  | some (.tftp sent) =>
    s.owner = .tftp ∧ s.written = sent.length ∧ ∀ i < sent.length, s.flash.cells (s.flash.used + i) = sent[i]?
  | some (.gdb ws _) => s.owner = .gdb ∧ s.gfLen = topOf ws ∧ s.view = bytesOf ws

/-- An image that was committed stands in the arena. -/
structure Stands (s : St) (im : List Byte) : Prop where
  erased : s.flash.erased = true
  size : s.curSize = im.length
  le : s.cur + im.length ≤ s.flash.used
  bytes : ∀ i < im.length, im[i]? = some (s.flash.read (s.cur + i))

/-- The image that waits to be installed is the one committed last. -/
def Waiting (s : St) (c : Sent) : Prop :=
  s.reload = true → ∃ im, c.committed = some im ∧ Stands s im

structure Holds (B : Board) (s : St) (c : Sent) : Prop where
  shape : Shape B s
  transfer : Transfer s
  agrees : Agrees s c.load
  waiting : Waiting s c

section
variable {s s' : St} {c : Sent} {im : List Byte}

/-- More of the arena is in use, and what was is untouched. -/
theorem Stands.mono (h : Stands s im) (herased : s'.flash.erased = s.flash.erased)
    (hused : s.flash.used ≤ s'.flash.used) (hcells : ∀ a < s.flash.used, s'.flash.cells a = s.flash.cells a)
    (hcur : s'.cur = s.cur) (hsize : s'.curSize = s.curSize) : Stands s' im := by
  have hle := h.le
  refine ⟨herased.trans h.erased, hsize.trans h.size, by omega, fun i hi => ?_⟩
  rw [Flash.read, hcur, hcells _ (by omega)]
  exact h.bytes i hi

theorem Waiting.mono {c' : Sent} (h : Waiting s c) (hc : c'.committed = c.committed)
    (hpending : s'.pending = s.pending)
    (hflash : s.reload = true → s.flash.erased = true → s'.flash.erased = s.flash.erased ∧
      s.flash.used ≤ s'.flash.used ∧ ∀ a < s.flash.used, s'.flash.cells a = s.flash.cells a) : Waiting s' c' := by
  simp only [St.pending, Prod.mk.injEq] at hpending
  obtain ⟨hcur, hsize, hreload, -⟩ := hpending
  intro hr
  rw [hreload] at hr
  obtain ⟨im, him, hstands⟩ := h hr
  obtain ⟨herased, hused, hcells⟩ := hflash hr hstands.erased
  exact ⟨im, hc.trans him, hstands.mono herased hused hcells hcur hsize⟩

/-- An abandoned upload is skipped. -/
theorem upAbandon_used (s : St) : s.flash.used ≤ (upAbandon s).flash.used := by
  rw [upAbandon]
  dsimp only
  split_ifs
  · exact le_rfl
  · exact Nat.le_add_right ..

theorem Waiting.upAbandon {c' : Sent} (h : Waiting s c) (hc : c'.committed = c.committed) :
    Waiting (upAbandon s) c' := by
  obtain ⟨-, herased, hcells⟩ := upAbandon_flash s
  exact h.mono hc rfl fun _ _ => ⟨herased, upAbandon_used s, fun a _ => congrFun hcells a⟩

/-- An upload that begins without an erase. -/
theorem Waiting.begins {c' : Sent} {f : Flash} (h : Waiting s c) (hf : Begins B s f)
    (hfull : s.reload = true → ¬Full B s) (hc : c'.committed = c.committed) (hflash : s'.flash = f)
    (hpending : s'.pending = s.pending) : Waiting s' c' := by
  apply h.mono hc hpending
  intro hreload herased
  obtain ⟨-, herased', hcells⟩ := upAbandon_flash s
  rw [hflash, hf.same herased (hfull hreload)]
  exact ⟨herased', upAbandon_used s, fun a _ => congrFun hcells a⟩

/-- A committed image stands at the upload's beginning. -/
theorem Stands.commit (h : Shape B s) (hown : s.owner ≠ .none)
    (hflash : s'.flash = s.flash.commit (max im.length s.hwm)) (hcur : s'.cur = s.upAddr.getD 0)
    (hsize : s'.curSize = im.length) (hbytes : ∀ i < im.length, im[i]? = some (s.flash.read (s.flash.used + i))) :
    Stands s' im := by
  rw [h.upAddr_eq hown, Option.getD_some] at hcur
  have hround := le_roundUp (max im.length s.hwm)
  refine ⟨?_, hsize, ?_, fun i hi => ?_⟩
  · rw [hflash]
    exact h.erased hown
  · rw [hflash, hcur]
    change s.flash.used + im.length ≤ s.flash.used + roundUp (max im.length s.hwm)
    omega
  · rw [hflash, hcur]
    exact hbytes i hi

end

/-! ## Requests -/

section
variable {s s' : St} {c : Sent}

theorem Agrees.of_tftp {l : Option Load} (h : Agrees s l) (howner : s.owner = .tftp) :
    ∃ sent, l = some (.tftp sent) ∧ s.written = sent.length ∧
      ∀ i < sent.length, s.flash.cells (s.flash.used + i) = sent[i]? := by
  match l, h with
  | none, h => cases howner.symm.trans h
  | some (.tftp sent), h => exact ⟨sent, rfl, h.2⟩
  | some (.gdb ws _), h => cases howner.symm.trans h.1

theorem Agrees.of_gdb {l : Option Load} (h : Agrees s l) (howner : s.owner = .gdb) :
    ∃ ws refused, l = some (.gdb ws refused) ∧ s.gfLen = topOf ws ∧ s.view = bytesOf ws := by
  match l, h with
  | none, h => cases howner.symm.trans h
  | some (.tftp sent), h => cases howner.symm.trans h.1
  | some (.gdb ws refused), h => exact ⟨ws, refused, rfl, h.2⟩

/-- A transfer that has lost the upload does not matter any more. -/
theorem Agrees.not_tftp (h : Agrees s c.load) (hne : s.owner ≠ .tftp) :
    c.giveUp = c ∧ ∀ pieces ok, c.packet pieces ok = c := by
  obtain ⟨load, committed⟩ := c
  match load, h with
  | none, _ => exact ⟨rfl, fun _ _ => rfl⟩
  | some (.tftp sent), h => exact absurd h.1 hne
  | some (.gdb ws _), _ => exact ⟨rfl, fun _ _ => rfl⟩

theorem Agrees.not_gdb (h : Agrees s c.load) (hne : s.owner ≠ .gdb) (w : Write) (ok : Bool) : c.write w ok = c := by
  obtain ⟨load, committed⟩ := c
  match load, h with
  | none, _ => rfl
  | some (.tftp sent), _ => rfl
  | some (.gdb ws _), h => exact absurd h.1 hne

/-- Installing an image leaves the upload under way alone. -/
theorem Agrees.installed {l : Option Load} (h : Agrees s l) :
    Agrees { s with reload := false, img := some (s.cur, s.curSize) } l := by
  match l, h with
  | none, h => exact h
  | some (.tftp sent), h => exact h
  | some (.gdb ws _), h => exact h

/-- Flags do not matter. -/
theorem Agrees.flagged {l : Option Load} (h : Agrees s l) (busy failed complete touched : Bool) :
    Agrees (s.flagged busy failed complete touched) l := by
  match l, h with
  | none, h => exact h
  | some (.tftp sent), h => exact h
  | some (.gdb ws _), h => exact h

theorem Waiting.flagged (h : Waiting s c) (busy failed complete touched : Bool) :
    Waiting (s.flagged busy failed complete touched) c :=
  h.mono rfl rfl fun _ _ => ⟨rfl, le_rfl, fun _ _ => rfl⟩

theorem Waiting.keeps {s₀ : St} {c' : Sent} (h : Waiting s c) (hc : c'.committed = c.committed) (hkeeps : Keeps s₀ s')
    (hflash : s₀.flash = s.flash) (hpending : s₀.pending = s.pending) (herased : s'.flash.erased = true) :
    Waiting s' c' := by
  refine h.mono hc (hkeeps.pending.trans hpending) fun _ he => ⟨herased.trans he.symm, ?_, ?_⟩
  · rw [hkeeps.used, hflash]
  · intro a ha
    rw [← hflash] at ha ⊢
    exact hkeeps.below a ha

/-- The bytes of a transfer, once some more have come. -/
theorem Sending.content {s₀ : St} {sent more : List Byte} (h : Sending B s₀ s more) (hlen : s₀.written = sent.length)
    (hsent : ∀ i < sent.length, s₀.flash.cells (s₀.flash.used + i) = sent[i]?) :
    s.written = (sent ++ more).length ∧
      ∀ i < (sent ++ more).length, s.flash.cells (s.flash.used + i) = (sent ++ more)[i]? := by
  rw [List.length_append]
  refine ⟨by rw [h.written, hlen], fun i hi => ?_⟩
  rw [h.used]
  by_cases hold : i < sent.length
  · rw [h.before _ (by omega), hsent i hold, List.getElem?_append_left hold]
  · have hcell := h.cells (i - sent.length) (by omega)
    rw [List.getElem?_append_right (by omega), ← hcell]
    congr 1
    omega

/-- A packet of a transfer: the transfer goes on, is committed, or has failed and the arena is erased. -/
theorem Agrees.tftpData {sent : List Byte} (h : Agrees s (some (.tftp sent))) (hs : Shape B s) (ht : Transfer s)
    (pieces : List (List Byte)) :
    Leads (tftpData B s pieces)
      (fun t => if isLast pieces then t.owner = .none ∧ t.reload = true ∧ Stands t (sent ++ pieces.flatten)
        else Agrees t (some (.tftp (sent ++ pieces.flatten))) ∧ Keeps s t ∧ t.flash.erased = true)
      (fun t => t.owner = .none ∧ t.flash.used = 0 ∧ t.flash.erased = true ∧ t.pending = s.pending) := by
  obtain ⟨howner, hlen, hsent⟩ := h
  apply (hs.tftpData ht howner pieces).imp
  · rintro ⟨s', hsend, heq⟩
    obtain ⟨hlen', hcells⟩ := hsend.content hlen hsent
    rw [heq]
    split_ifs
    · refine ⟨rfl, rfl, .commit hsend.shape hsend.owned ?_ rfl hlen' fun i hi => ?_⟩
      · rw [← hlen']
        rfl
      · rw [Flash.read, hcells i hi, List.getElem?_eq_getElem hi, Option.getD_some]
    · exact ⟨⟨hsend.owner, hlen', hcells⟩, ⟨hsend.used, hsend.below, hsend.pending⟩, hsend.shape.erased hsend.owned⟩
  · rintro ⟨s', hfail, heq⟩
    rw [heq]
    exact ⟨rfl, rfl, rfl, hfail.pending⟩

theorem Holds.tftpData (hB : B.Reliable) (h : Holds B s c) (howner : s.owner = .tftp) {pieces : List (List Byte)}
    (hroom : s.reload = true → s.flash.used + s.written + pieces.flatten.length ≤ B.size) :
    Agrees (tftpData B s pieces).2 (c.packet pieces (tftpData B s pieces).1).load ∧
      Waiting (tftpData B s pieces).2 (c.packet pieces (tftpData B s pieces).1) := by
  obtain ⟨sent, hload, hlen, hsent⟩ := h.agrees.of_tftp howner
  have hleads := Agrees.tftpData ⟨howner, hlen, hsent⟩ h.shape h.transfer pieces
  have haccepted := fun hr => h.shape.tftpData_accepted hB h.transfer howner pieces (hroom hr)
  generalize Image.tftpData B s pieces = r at hleads haccepted
  obtain ⟨ok, t⟩ := r
  rw [Sent.packet, hload]
  cases ok with
  | false =>
    obtain ⟨hnone, -, -, hpending⟩ := hleads
    refine ⟨hnone, fun hr => ?_⟩
    simp only [St.pending, Prod.mk.injEq] at hpending
    cases haccepted (hpending.2.2.1 ▸ hr)
  | true =>
    rw [Leads, if_pos rfl] at hleads
    cases hlast : isLast pieces with
    | false =>
      rw [hlast] at hleads
      obtain ⟨hagrees, hkeeps, herased⟩ := hleads
      exact ⟨hagrees, h.waiting.keeps rfl hkeeps rfl rfl herased⟩
    | true =>
      rw [hlast] at hleads
      obtain ⟨hnone, -, hstands⟩ := hleads
      exact ⟨hnone, fun _ => ⟨_, rfl, hstands⟩⟩

theorem Holds.write (hB : B.Reliable) (h : Holds B s c) {addr : Word} {data : List Byte}
    (hw : Writable B s addr data) (hempty : data = [] → romOff addr ≤ s.gfLen) :
    (gdbFlashWrite B s addr data).1 = true ∧
      Agrees (gdbFlashWrite B s addr data).2 (c.write (romOff addr, data) true).load ∧
      Waiting (gdbFlashWrite B s addr data).2 (c.write (romOff addr, data) true) := by
  obtain ⟨ws, refused, hload, hlen, hview⟩ := h.agrees.of_gdb hw.owner
  have hrule := loadRule_view hB (bytesOf ((romOff addr, data) :: ws)) (s.seen (romOff addr + data.length))
  have hstart : patch (romOff addr) data (s.seen (romOff addr + data.length)).view =
      bytesOf ((romOff addr, data) :: ws) := by
    rw [bytesOf, ← hview]
    rfl
  obtain ⟨hok, hl, hview'⟩ := (hrule.gdbFlashWrite hw h.shape hstart).accepted fun hs' => hs'.2
  rw [patch_nil] at hview'
  rw [Sent.write, hload]
  refine ⟨hok, ⟨hl.owner, ?_, hview'⟩, ?_⟩
  · rw [hl.gfLen, topOf]
    change max s.gfLen (romOff addr + data.length) = _
    split_ifs with hdata
    · have hle := hempty hdata
      rw [hdata, List.length_nil]
      omega
    · rw [hlen]
  · exact h.waiting.keeps rfl hl.toKeeps rfl rfl (hl.shape.erased hl.owned)

theorem imageOf_length (ws : List Write) : (imageOf ws).length = topOf ws := by
  rw [imageOf, List.length_map, List.length_range]

theorem imageOf_getElem? {ws : List Write} {i : Nat} (hi : i < (imageOf ws).length) :
    (imageOf ws)[i]? = some ((bytesOf ws i).getD 0xFF) := by
  rw [imageOf_length] at hi
  rw [imageOf, List.getElem?_map, List.getElem?_range hi]
  rfl

/-- A load that is finished is committed, or there was nothing to commit. -/
theorem Holds.done (hB : B.Reliable) (h : Holds B s c) (hrefused : ∀ l ∈ c.load, l.refused = false) :
    (gdbFlashDone B s).1 = true ∧ (gdbFlashDone B s).2.owner = .none ∧ c.finish.load = none ∧
        Waiting (gdbFlashDone B s).2 c.finish ∨
      gdbFlashDone B s = (false, s) := by
  rw [h.shape.gdbFlashDone_eq]
  split_ifs with hready
  · left
    obtain ⟨ws, refused, hload, hlen, hview⟩ := h.agrees.of_gdb hready.1
    obtain rfl : refused = false := hrefused _ hload
    have hl := h.shape.loading hready.1
    have hflush := hl.gfFlush
    have hcarry := gfFlush_carry B s
    have hview' : (gfFlush B s).1 = true ∧ (gfFlush B s).2.view = bytesOf ws := by
      rw [gfFlush]
      split_ifs with hnil
      · exact ⟨rfl, hview⟩
      · obtain ⟨hwrite, hsame⟩ := hl.word_view hB hnil
        rw [hwrite]
        exact ⟨rfl, hsame.trans hview⟩
    generalize gfFlush B s = r at hflush hcarry hview'
    obtain ⟨ok, s'⟩ := r
    obtain ⟨rfl, hview'⟩ := hview'
    rw [St.view_of_nil hcarry] at hview'
    have hlen' : s'.gfLen = (imageOf ws).length := by
      rw [imageOf_length, ← hlen]
      exact hflush.gfLen
    rw [Sent.finish, hload]
    refine ⟨rfl, rfl, rfl, fun _ => ⟨imageOf ws, rfl, ?_⟩⟩
    refine .commit hflush.shape hflush.owned ?_ rfl hlen' fun i hi => ?_
    · rw [← hlen']
      rfl
    · rw [imageOf_getElem? hi, ← hview']
      rfl
  · exact .inr rfl

theorem Holds.step (hB : B.Reliable) (h : Holds B s c) (e : Event) (he : Sound B s c e) :
    Agrees (step B s e).2 (c.next e (step B s e).1).load ∧ Waiting (step B s e).2 (c.next e (step B s e).1) := by
  cases e with
  | tftpOpen =>
    obtain ⟨f, heq, hf⟩ := h.shape.tftpOpen
    rw [Image.step, heq]
    exact ⟨⟨rfl, rfl, fun i hi => by cases hi⟩, h.waiting.begins hf he rfl rfl rfl⟩
  | tftpData pieces =>
    rw [Image.step, Sent.next]
    by_cases howner : s.owner = .tftp
    · exact h.tftpData hB howner fun hr => he hr howner
    · obtain ⟨busy, failed, complete, heq⟩ := tftpData_of_ne (B := B) howner pieces
      rw [(h.agrees.not_tftp howner).2, heq]
      exact ⟨h.agrees.flagged .., h.waiting.flagged _ _ _ _⟩
  | tftpClose =>
    rw [Image.step, Sent.next]
    by_cases howner : s.owner = .tftp
    · obtain ⟨sent, hload, -⟩ := h.agrees.of_tftp howner
      rw [tftpClose_owned h.transfer howner, Sent.giveUp, hload]
      exact ⟨rfl, (h.waiting.flagged _ _ _ _).upAbandon rfl⟩
    · rw [(h.agrees.not_tftp howner).1, tftpClose_of_ne howner]
      exact ⟨h.agrees.flagged .., h.waiting.flagged _ _ _ _⟩
  | tftpError =>
    rw [Image.step, Sent.next]
    by_cases howner : s.owner = .tftp
    · obtain ⟨sent, hload, -⟩ := h.agrees.of_tftp howner
      rw [tftpError_owned h.transfer howner, Sent.giveUp, hload]
      exact ⟨rfl, (h.waiting.flagged _ _ _ _).upAbandon rfl⟩
    · rw [(h.agrees.not_tftp howner).1, tftpError_of_ne howner]
      exact ⟨h.agrees.flagged .., h.waiting.flagged _ _ _ _⟩
  | erase addr =>
    obtain ⟨-, heq⟩ | ⟨haddr, hgdb, heq⟩ | ⟨haddr, hne, f, heq, hf⟩ := h.shape.erase addr
    · rw [heq]
      exact ⟨h.agrees, h.waiting⟩
    · -- nothing was written so far, so the load may as well have begun now
      have hzero := he haddr
      rw [if_pos hgdb] at hzero
      obtain ⟨ws, -, -, hlen, hview⟩ := h.agrees.of_gdb hgdb
      rw [heq]
      refine ⟨⟨hgdb, hzero, hview.trans ?_⟩, h.waiting.mono rfl rfl fun _ _ => ⟨rfl, le_rfl, fun _ _ => rfl⟩⟩
      funext o
      exact bytesOf_of_le (by omega)
    · have hfull := he haddr
      rw [if_neg hne] at hfull
      rw [heq]
      refine ⟨⟨rfl, rfl, ?_⟩, h.waiting.begins hf hfull rfl rfl rfl⟩
      rw [St.view_of_nil rfl]
      funext o
      exact hf.blank _ (Nat.le_add_right ..)
  | write addr data =>
    rw [Image.step, Sent.next]
    by_cases hw : Writable B s addr data
    · obtain ⟨hok, hagrees, hwaiting⟩ := h.write hB hw he
      rw [andThen, if_pos hok]
      exact ⟨hagrees.flagged .., hwaiting.flagged _ _ _ _⟩
    · rw [h.shape.gdbFlashWrite_refused hw]
      by_cases howner : s.owner = .gdb
      · obtain ⟨ws, refused, hload, hlen, hview⟩ := h.agrees.of_gdb howner
        rw [Sent.write, hload]
        exact ⟨⟨howner, hlen, hview⟩, h.waiting⟩
      · rw [h.agrees.not_gdb howner]
        exact ⟨h.agrees, h.waiting⟩
  | done =>
    rw [Image.step]
    split_ifs
    · obtain ⟨hok, howner, hload, hwaiting⟩ | heq := h.done hB he
      · rw [hok, Sent.next, if_pos rfl, hload]
        exact ⟨howner, hwaiting.flagged _ _ _ _⟩
      · rw [heq]
        exact ⟨h.agrees.flagged .., h.waiting.flagged _ _ _ _⟩
    · exact ⟨h.agrees, h.waiting⟩
  | disconnect => exact ⟨h.agrees, h.waiting⟩
  | take =>
    rw [Image.step, takePending]
    split_ifs
    · exact ⟨h.agrees.installed, fun hwait => by cases hwait⟩
    · exact ⟨h.agrees, h.waiting⟩

theorem Holds.run (hB : B.Reliable) (h : Holds B s c) (es : List Event) (hes : SoundAll B s c es) :
    Holds B (run B s es) (c.after B s es) := by
  induction es generalizing s c with
  | nil => exact h
  | cons e es ih =>
    obtain ⟨hshape, htransfer⟩ := step_shape h.shape h.transfer e
    obtain ⟨hagrees, hwaiting⟩ := h.step hB e hes.1
    exact ih ⟨hshape, htransfer, hagrees, hwaiting⟩ hes.2

end

/-- The clients before they have sent anything. -/
def Sent.none : Sent := ⟨Option.none, Option.none⟩

/-- In every run whose requests are sound, an image that is installed is the one committed last, byte for byte. -/
theorem installed_is_committed (hB : B.Reliable) (cells : Nat → Option Byte) (es : List Event)
    (hes : SoundAll B (.init cells) .none es) :
    (step B (run B (.init cells) es) .take).1 = true →
      ∃ im a, (Sent.none.after B (.init cells) es).committed = some im ∧
        (step B (run B (.init cells) es) .take).2.img = some (a, im.length) ∧
        ∀ i < im.length, im[i]? = some ((step B (run B (.init cells) es) .take).2.flash.read (a + i)) := by
  have hinit : Holds B (.init cells) .none :=
    ⟨.init cells, .of_ne (fun howner => by cases howner), rfl, fun hwait => by cases hwait⟩
  have hholds := hinit.run hB es hes
  rw [step, takePending]
  split_ifs with hreload
  · intro _
    obtain ⟨im, hcommitted, hstands⟩ := hholds.waiting hreload
    refine ⟨im, _, hcommitted, ?_, hstands.bytes⟩
    rw [← hstands.size]
  · intro htaken
    cases htaken

/-- A load in two sections, and a transfer that is given up. -/
def loadAndGiveUp : List Event :=
  [.erase romBase, .write (romBase + 6) [7, 8], .write romBase [1, 2, 3, 4, 5], .done, .tftpOpen, .disconnect, .tftpClose]

theorem loadAndGiveUp_installed :
    (step smallBoard (run smallBoard (.init fun _ => none) loadAndGiveUp) .take).1 = true ∧
      ∃ im a, (Sent.none.after smallBoard (.init fun _ => none) loadAndGiveUp).committed = some im ∧
        (step smallBoard (run smallBoard (.init fun _ => none) loadAndGiveUp) .take).2.img = some (a, im.length) ∧
        ∀ i < im.length,
          im[i]? = some ((step smallBoard (run smallBoard (.init fun _ => none) loadAndGiveUp) .take).2.flash.read (a + i)) :=
  ⟨by decide, installed_is_committed (fun _ => rfl) _ _ (by decide) (by decide)⟩

/-- A load that is committed, and a transfer that does not fit before it is installed. -/
def loadThenTooLong : List Event :=
  [.erase romBase, .write romBase [1, 2, 3, 4], .done, .tftpOpen, .tftpData [List.replicate 20 0]]

/-- The transfer that fails erases the arena, and the committed image with it: what is installed reads as erased. -/
theorem loadThenTooLong_erased :
    (Sent.none.after smallBoard (.init fun _ => none) loadThenTooLong).committed = some [1, 2, 3, 4] ∧
      (step smallBoard (run smallBoard (.init fun _ => none) loadThenTooLong) .take).1 = true ∧
      (step smallBoard (run smallBoard (.init fun _ => none) loadThenTooLong) .take).2.img = some (0, 4) ∧
      (step smallBoard (run smallBoard (.init fun _ => none) loadThenTooLong) .take).2.flash.read 0 = 0xFF := by
  decide

end Emu.Image
