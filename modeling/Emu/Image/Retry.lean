-- SUMMARY: What a client achieves that sends an image and, when it is refused, sends it once more.
import Emu.Image.Content

/-! # Sending an image twice

A transfer that does not fit erases the arena, so that the next one begins at its start and fits. A load that does not
fit erases nothing, and as it still owns the upload it begins at the same place the next time. -/

namespace Emu.Image

open Attempt

variable {B : Board}

/-- A client that stops at the first request that is refused. -/
def send (B : Board) (s : St) : List Event → Bool × St
  | [] => (true, s)
  | e :: es => andThen (step B s e) fun s' => send B s' es

/-- An attempt, and one more if it was refused: where each of them leaves the board. -/
def sendTwice (B : Board) (s : St) (es es' : List Event) : Bool × St :=
  if (send B s es).1 then send B s es else send B (send B s es).2 es'

/-! ## TFTP -/

/-- The packets of a transfer of an image: all but the last are full, however they arrive in pieces. -/
structure IsTransfer (image : List Byte) (full : List (List (List Byte))) (last : List (List Byte)) : Prop where
  bytes : (full.map List.flatten).flatten ++ last.flatten = image
  full : ∀ pieces ∈ full, isLast pieces = false
  last : isLast last = true

/-- A transfer of an image. -/
def transfer (full : List (List (List Byte))) (last : List (List Byte)) : List Event :=
  .tftpOpen :: (full ++ [last]).map .tftpData

section
variable {s : St} {sent : List Byte} {last : List (List Byte)}

/-- The arena after a transfer has failed. -/
structure Wiped (B : Board) (s : St) : Prop where
  shape : Shape B s
  transfer : Transfer s
  owner : s.owner = .none
  used : s.flash.used = 0
  erased : s.flash.erased = true

/-- One packet of a transfer that is refused only if it does not fit. -/
theorem step_packet (hB : B.Reliable) (hs : Shape B s) (ht : Transfer s) (h : Agrees s (some (.tftp sent)))
    (pieces : List (List Byte)) :
    Leads (step B s (.tftpData pieces))
      (fun t => (Shape B t ∧ Transfer t) ∧
        if isLast pieces then t.owner = .none ∧ t.reload = true ∧ Stands t (sent ++ pieces.flatten)
        else Agrees t (some (.tftp (sent ++ pieces.flatten))) ∧ Keeps s t ∧ t.flash.erased = true)
      (fun t => Wiped B t ∧ B.size < s.flash.used + (sent ++ pieces.flatten).length) := by
  have hshape := step_shape hs ht (.tftpData pieces)
  have hdata := h.tftpData hs ht pieces
  by_cases hroom : s.flash.used + s.written + pieces.flatten.length ≤ B.size
  · have hok := hs.tftpData_accepted hB ht h.1 pieces hroom
    rw [Leads, if_pos hok] at hdata
    rw [Leads, step, if_pos hok]
    exact ⟨hshape, hdata⟩
  · apply hdata.imp
    · intro hdata
      exact ⟨hshape, hdata⟩
    · intro hwiped
      refine ⟨⟨hshape.1, hshape.2, hwiped.1, hwiped.2.1, hwiped.2.2.1⟩, ?_⟩
      rw [List.length_append, ← h.2.1]
      omega

/-- The rest of a transfer: it is committed, or does not fit and the arena is erased. -/
theorem send_packets (hB : B.Reliable) (hlast : isLast last = true) (full : List (List (List Byte)))
    (hfull : ∀ pieces ∈ full, isLast pieces = false) (hs : Shape B s) (ht : Transfer s)
    (h : Agrees s (some (.tftp sent))) :
    Leads (send B s ((full ++ [last]).map .tftpData))
      (fun t => t.reload = true ∧ Stands t (sent ++ ((full.map List.flatten).flatten ++ last.flatten)))
      (fun t => Wiped B t ∧
        B.size < s.flash.used + (sent ++ ((full.map List.flatten).flatten ++ last.flatten)).length) := by
  induction full generalizing s sent with
  | nil =>
    apply (step_packet hB hs ht h last).andThen
    intro t hstep
    rw [hlast] at hstep
    exact .accept hstep.2.2
  | cons pieces full ih =>
    rw [List.forall_mem_cons] at hfull
    rw [List.map_cons, List.flatten_cons, List.append_assoc, ← List.append_assoc sent]
    have hpacket : Leads (step B s (.tftpData pieces)) _ fun t => Wiped B t ∧ B.size < s.flash.used +
        (sent ++ pieces.flatten ++ ((full.map List.flatten).flatten ++ last.flatten)).length :=
      (step_packet hB hs ht h pieces).refused_imp fun t hwiped =>
        ⟨hwiped.1, by rw [List.length_append]; exact Nat.lt_of_lt_of_le hwiped.2 (by omega)⟩
    apply hpacket.andThen
    intro t hstep
    rw [hfull.1] at hstep
    obtain ⟨⟨hs', ht'⟩, hagrees, hkeeps, -⟩ := hstep
    rw [← hkeeps.used]
    exact ih hfull.2 hs' ht' hagrees

/-- A transfer, from the state it is opened in. -/
theorem send_transfer (hB : B.Reliable) {image : List Byte} {full : List (List (List Byte))}
    (himage : IsTransfer image full last) (hs : Shape B s) :
    ∃ f, Begins B s f ∧
      Leads (send B s (transfer full last)) (fun t => t.reload = true ∧ Stands t image)
        (fun t => Wiped B t ∧ B.size < f.used + image.length) := by
  obtain ⟨f, heq, hf⟩ := hs.tftpOpen
  have hbegun : Shape B (begun (upAbandon s) f .tftp) := .begun hf (by decide)
  have hopened : Agrees (opened s f) (some (.tftp [])) := ⟨rfl, rfl, fun _ hi => nomatch hi⟩
  have hsend := send_packets (s := opened s f) hB himage.last full himage.full { hbegun with }
    (fun _ => ⟨rfl, rfl, rfl, rfl⟩) hopened
  rw [himage.bytes, List.nil_append] at hsend
  refine ⟨f, hf, ?_⟩
  rw [transfer, send, step, heq]
  exact hsend

/-- One of two transfers is committed. -/
theorem sendTwice_transfer (hB : B.Reliable) {image : List Byte} {full full' : List (List (List Byte))}
    {last last' : List (List Byte)} (himage : IsTransfer image full last) (himage' : IsTransfer image full' last')
    (hlen : image.length ≤ B.size) (hs : Shape B s) :
    (sendTwice B s (transfer full last) (transfer full' last')).1 = true ∧
      (sendTwice B s (transfer full last) (transfer full' last')).2.reload = true ∧
      Stands (sendTwice B s (transfer full last) (transfer full' last')).2 image := by
  obtain ⟨f, -, hfirst⟩ := send_transfer hB himage hs
  rw [sendTwice]
  split_ifs with hok
  · rw [Leads, if_pos hok] at hfirst
    exact ⟨hok, hfirst⟩
  · rw [Leads, if_neg hok] at hfirst
    obtain ⟨hwiped, -⟩ := hfirst
    -- the second begins at the start of the erased arena
    obtain ⟨f', hf', hsecond⟩ := send_transfer hB himage' hwiped.shape
    have hflash : (upAbandon (send B s (transfer full last)).2).flash = (send B s (transfer full last)).2.flash :=
      if_pos hwiped.owner
    have hpos := B.pos
    have hzero : f'.used = 0 := by
      rw [hf'.same hwiped.erased (by rw [hflash, hwiped.used]; omega), hflash]
      exact hwiped.used
    exact hsecond.accepted (by rw [hzero]; omega)

end

/-! ## The debugger's `load` -/

/-- The requests of a load. -/
def load (addr : Word) (ws : List (Word × List Byte)) : List Event :=
  .erase addr :: (ws.map fun w => .write w.1 w.2) ++ [.done]

/-- How far the writes of a load reach. -/
def endOf (ws : List (Word × List Byte)) : Nat :=
  ws.foldr (fun w n => max (romOff w.1 + w.2.length) n) 0

/-- A load into the guest's ROM. -/
def InRom (addr : Word) (ws : List (Word × List Byte)) : Prop :=
  ¬addr < romBase ∧ ∀ w ∈ ws, ¬w.1 < romBase

/-- Where a load begins. One that is not finished goes on where it began. -/
def loadStart (B : Board) (s : St) : Nat :=
  if s.owner = .gdb then s.flash.used
  else if s.flash.erased = false ∨ Full B s then 0
  else (upAbandon s).flash.used

/-- The load fits where it begins, and is not empty. -/
def Loadable (B : Board) (s : St) (ws : List (Word × List Byte)) : Prop :=
  loadStart B s + endOf ws ≤ B.size ∧ max s.gfLen (endOf ws) ≠ 0

/-- The debugger owns an upload, and the stub knows of it. -/
structure Owns (B : Board) (s : St) (start : Nat) : Prop where
  shape : Shape B s
  owner : s.owner = .gdb
  used : s.flash.used = start
  touched : s.flashTouched = true

section
variable {s : St} {start : Nat}

/-- The place a new upload begins at. -/
theorem Begins.used_eq {f : Flash} (hf : Begins B s f) (hne : s.owner ≠ .gdb) : f.used = loadStart B s := by
  rw [loadStart, if_neg hne]
  split_ifs with hreset
  · exact hf.reset hreset
  · push Not at hreset
    rw [hf.same (Bool.eq_true_of_not_eq_false hreset.1) hreset.2]

theorem step_erase {addr : Word} (haddr : ¬addr < romBase) (hs : Shape B s) :
    Leads (step B s (.erase addr)) (fun t => Owns B t (loadStart B s) ∧ t.gfLen = s.gfLen) fun _ => False := by
  obtain ⟨hlt, -⟩ | ⟨-, hgdb, heq⟩ | ⟨-, hne, f, heq, hf⟩ := hs.erase addr
  · exact absurd hlt haddr
  · rw [heq]
    refine .accept ⟨⟨hs.flagged .., hgdb, ?_, rfl⟩, rfl⟩
    rw [loadStart, if_pos hgdb]
    rfl
  · rw [heq]
    have hbegun : Shape B (begun (upAbandon s) f .gdb) := .begun hf (by decide)
    exact .accept ⟨⟨{ hbegun with }, rfl, hf.used_eq hne, rfl⟩, (hs.unloaded hne).symm⟩

theorem step_write (hB : B.Reliable) (h : Owns B s start) {addr : Word} (haddr : ¬addr < romBase) (data : List Byte) :
    Leads (step B s (.write addr data))
      (fun t => Owns B t start ∧ t.gfLen = max s.gfLen (romOff addr + data.length) ∧
        start + (romOff addr + data.length) ≤ B.size)
      (fun t => t = s ∧ B.size < start + (romOff addr + data.length)) := by
  by_cases hw : Writable B s addr data
  · have hrule := loadRule_view hB (Overlay.patch (romOff addr) data (s.seen (romOff addr + data.length)).view)
      (s.seen (romOff addr + data.length))
    obtain ⟨hok, hl, -⟩ := (hrule.gdbFlashWrite hw h.shape rfl).accepted fun hs' => hs'.2
    rw [step, andThen, if_pos hok]
    exact .accept ⟨⟨hl.shape.flagged _ _ _ true, hl.owner, hl.used.trans h.used, rfl⟩, hl.gfLen, h.used ▸ hw.fits⟩
  · rw [step, h.shape.gdbFlashWrite_refused hw]
    refine .refuse ⟨rfl, ?_⟩
    by_contra hfits
    exact hw ⟨h.owner, haddr, by rw [h.used]; omega⟩

theorem step_done (hB : B.Reliable) (h : Owns B s start) :
    Leads (step B s .done) (fun t => s.gfLen ≠ 0 ∧ t.reload = true) (fun t => s.gfLen = 0 ∧ t = s.untouched) := by
  rw [step, if_pos h.touched, h.shape.gdbFlashDone_eq]
  by_cases hzero : s.gfLen = 0
  · rw [if_neg (by rw [hzero]; simp)]
    exact .refuse ⟨hzero, rfl⟩
  · rw [if_pos ⟨h.owner, hzero⟩]
    have hflush : (gfFlush B s).1 = true := by
      rw [gfFlush]
      split_ifs with hnil
      · rfl
      · exact congrArg Prod.fst ((h.shape.loading h.owner).word_view hB hnil).1
    rw [andThen, if_pos hflush]
    exact .accept ⟨hzero, rfl⟩

/-- The writes of a load and its end: it is committed, or the upload stays where it is. -/
theorem send_writes (hB : B.Reliable) (ws : List (Word × List Byte)) (hrom : ∀ w ∈ ws, ¬w.1 < romBase)
    (h : Owns B s start) :
    Leads (send B s ((ws.map fun w => .write w.1 w.2) ++ [.done]))
      (fun t => (start + endOf ws ≤ B.size ∧ max s.gfLen (endOf ws) ≠ 0) ∧ t.reload = true)
      (fun t => ¬(start + endOf ws ≤ B.size ∧ max s.gfLen (endOf ws) ≠ 0) ∧ t.owner = .gdb ∧ t.flash.used = start ∧
        Shape B t ∧ (max s.gfLen (endOf ws) = 0 → t.gfLen = 0)) := by
  induction ws generalizing s with
  | nil =>
    have hle := h.used ▸ h.shape.used_le
    have hend : endOf [] = 0 := rfl
    have hdone : Leads (step B s .done) _ fun t =>
        ¬(start + endOf [] ≤ B.size ∧ max s.gfLen (endOf []) ≠ 0) ∧ t.owner = .gdb ∧ t.flash.used = start ∧
          Shape B t ∧ (max s.gfLen (endOf []) = 0 → t.gfLen = 0) :=
      (step_done hB h).refused_imp fun t ht => by
        obtain ⟨hzero, rfl⟩ := ht
        exact ⟨by rw [hzero, hend]; simp, h.owner, h.used, { h.shape with }, fun _ => hzero⟩
    apply hdone.andThen
    intro t ht
    exact .accept ⟨⟨by omega, by rw [hend]; omega⟩, ht.2⟩
  | cons w ws ih =>
    obtain ⟨addr, data⟩ := w
    rw [List.forall_mem_cons] at hrom
    have haddr : ¬addr < romBase := hrom.1
    have hend : endOf ((addr, data) :: ws) = max (romOff addr + data.length) (endOf ws) := rfl
    have hwrite : Leads (step B s (.write addr data)) _ fun t =>
        ¬(start + endOf ((addr, data) :: ws) ≤ B.size ∧ max s.gfLen (endOf ((addr, data) :: ws)) ≠ 0) ∧
          t.owner = .gdb ∧ t.flash.used = start ∧ Shape B t ∧
          (max s.gfLen (endOf ((addr, data) :: ws)) = 0 → t.gfLen = 0) :=
      (step_write hB h haddr data).refused_imp fun t ht => by
        obtain ⟨rfl, hlt⟩ := ht
        exact ⟨by omega, h.owner, h.used, h.shape, by omega⟩
    apply hwrite.andThen
    intro t ht
    obtain ⟨howns, hlen, hfits⟩ := ht
    have hiff : start + endOf ((addr, data) :: ws) ≤ B.size ↔ start + endOf ws ≤ B.size := by omega
    have hmax : max s.gfLen (endOf ((addr, data) :: ws)) = max t.gfLen (endOf ws) := by omega
    rw [hiff, hmax]
    exact ih hrom.2 howns

/-- A load. When it is refused, it is refused again. -/
theorem send_load (hB : B.Reliable) {addr : Word} {ws : List (Word × List Byte)} (hrom : InRom addr ws)
    (hs : Shape B s) :
    Leads (send B s (load addr ws)) (fun t => Loadable B s ws ∧ t.reload = true)
      (fun t => ¬Loadable B s ws ∧ Shape B t ∧ ∀ ws', endOf ws' = endOf ws → ¬Loadable B t ws') := by
  have herase : Leads (step B s (.erase addr)) _ fun t =>
      ¬Loadable B s ws ∧ Shape B t ∧ ∀ ws', endOf ws' = endOf ws → ¬Loadable B t ws' :=
    (step_erase hrom.1 hs).refused_imp fun _ => False.elim
  apply herase.andThen
  intro t ht
  obtain ⟨howns, hlen⟩ := ht
  have hwrites := send_writes hB ws hrom.2 howns
  rw [hlen] at hwrites
  apply hwrites.refused_imp
  intro t' ht'
  obtain ⟨hnot, howner, hused, hshape, hzero⟩ := ht'
  refine ⟨hnot, hshape, fun ws' hws' hload => hnot ?_⟩
  rw [Loadable, loadStart, if_pos howner, hused, hws'] at hload
  refine ⟨hload.1, fun hmax => hload.2 ?_⟩
  have := hzero hmax
  omega

theorem sendTwice_load (hB : B.Reliable) {addr addr' : Word} {ws ws' : List (Word × List Byte)}
    (hrom : InRom addr ws) (hrom' : InRom addr' ws') (hend : endOf ws' = endOf ws) (hs : Shape B s) :
    ((sendTwice B s (load addr ws) (load addr' ws')).1 = true ∧
      (sendTwice B s (load addr ws) (load addr' ws')).2.reload = true) ↔ Loadable B s ws := by
  have hfirst := send_load hB hrom hs
  rw [sendTwice]
  split_ifs with hok
  · rw [Leads, if_pos hok] at hfirst
    exact ⟨fun _ => hfirst.1, fun _ => ⟨hok, hfirst.2⟩⟩
  · rw [Leads, if_neg hok] at hfirst
    obtain ⟨hnot, hshape, hagain⟩ := hfirst
    refine ⟨fun hsecond => ?_, fun hload => absurd hload hnot⟩
    have hload := send_load hB hrom' hshape
    rw [Leads, if_pos hsecond.1] at hload
    exact absurd hload.1 (hagain ws' hend)

end

/-- In every state that can be reached: of two transfers of an image no longer than the arena one is committed, and of
two loads one is committed exactly if the load is not empty and fits where a load begins. -/
theorem sendTwice_commits (hB : B.Reliable) (cells : Nat → Option Byte) (es : List Event) :
    (∀ image full last full' last', IsTransfer image full last → IsTransfer image full' last' →
      image.length ≤ B.size →
        (sendTwice B (run B (.init cells) es) (transfer full last) (transfer full' last')).1 = true ∧
        (sendTwice B (run B (.init cells) es) (transfer full last) (transfer full' last')).2.reload = true ∧
        Stands (sendTwice B (run B (.init cells) es) (transfer full last) (transfer full' last')).2 image) ∧
    ∀ addr ws addr' ws', InRom addr ws → InRom addr' ws' → endOf ws' = endOf ws →
      (((sendTwice B (run B (.init cells) es) (load addr ws) (load addr' ws')).1 = true ∧
        (sendTwice B (run B (.init cells) es) (load addr ws) (load addr' ws')).2.reload = true) ↔
        Loadable B (run B (.init cells) es) ws) := by
  obtain ⟨hs, -⟩ := run_shape (B := B) cells es
  constructor
  · intro image full last full' last' himage himage' hlen
    exact sendTwice_transfer hB himage himage' hlen hs
  · intro addr ws addr' ws' hrom hrom' hend
    exact sendTwice_load hB hrom hrom' hend hs

/-- A transfer that leaves room for one word. -/
def nearlyFull : List Event := [.tftpOpen, .tftpData [List.replicate 12 1]]

/-- Two words that are sent to the board that has room for one of them: the second transfer is committed. -/
theorem sendTwice_nearlyFull :
    (sendTwice smallBoard (run smallBoard (.init fun _ => none) nearlyFull) (transfer [] [List.replicate 8 2])
        (transfer [] [List.replicate 8 2])).1 = true ∧
      (sendTwice smallBoard (run smallBoard (.init fun _ => none) nearlyFull) (transfer [] [List.replicate 8 2])
        (transfer [] [List.replicate 8 2])).2.reload = true ∧
      Stands (sendTwice smallBoard (run smallBoard (.init fun _ => none) nearlyFull) (transfer [] [List.replicate 8 2])
        (transfer [] [List.replicate 8 2])).2 (List.replicate 8 2) :=
  (sendTwice_commits (fun _ => rfl) _ nearlyFull).1 _ _ _ _ _ ⟨rfl, nofun, rfl⟩ ⟨rfl, nofun, rfl⟩ (by decide)

/-- The same two words through the debugger: both loads are refused. -/
theorem load_refused_twice :
    endOf [(romBase, List.replicate 8 2)] ≤ smallBoard.size ∧
      (send smallBoard (run smallBoard (.init fun _ => none) nearlyFull)
        (load romBase [(romBase, List.replicate 8 2)])).1 = false ∧
      (sendTwice smallBoard (run smallBoard (.init fun _ => none) nearlyFull)
        (load romBase [(romBase, List.replicate 8 2)]) (load romBase [(romBase, List.replicate 8 2)])).1 = false := by
  decide

end Emu.Image
