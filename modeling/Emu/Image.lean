-- SUMMARY: Guest images that arrive at run time: the flash arena, the uploads of the two clients, and the install.
import Emu.Ir.Syntax
import Emu.Lib.Attempt

/-! # Image uploads

A new guest image arrives over TFTP or through the debugger's `load`. Both program it into one append-only arena of
flash. An upload has an owner; a client that begins one takes it over from the other, and what the abandoned one
programmed is skipped. A committed image is installed later, between two slices of the guest. -/

namespace Emu.Image

open Attempt

/-! ## The arena -/

/-- A board: the size of its arena, whether a full arena refuses to begin, and which program operations the hardware
gives up, after how many bytes. Sizes are far below 2^32. -/
structure Board where
  size : Nat
  refusesFull : Bool
  faults : Nat → Option Nat
  pos : 0 < size
  aligned : 4 ∣ size

/-- The arena's flash: the cells, `none` where erased, what the board keeps of it, how often it was asked to program,
and whether it was ever asked to program a cell that was not erased or not its own. -/
structure Flash where
  cells : Nat → Option Byte
  used : Nat
  erased : Bool
  programs : Nat
  misprogrammed : Bool

/-- What a cell reads as: all ones when erased. -/
def Flash.read (f : Flash) (a : Nat) : Byte :=
  (f.cells a).getD 0xFF

/-- `board_flash_arena_reset`. -/
def Flash.reset (f : Flash) : Flash :=
  { f with cells := fun _ => none, used := 0, erased := true }

/-- The arena as `board_flash_arena_begin` leaves it: it is erased before its first use. -/
def Flash.ready (f : Flash) : Flash :=
  if f.erased then f else f.reset

/-- `board_flash_arena_begin`. Addresses are offsets from the arena's base. -/
def Flash.begin (B : Board) (f : Flash) : Option Nat × Flash :=
  (if B.refusesFull ∧ f.ready.used ≥ B.size then none else some f.ready.used, f.ready)

/-- A length rounded up to whole words. -/
def roundUp (n : Nat) : Nat := (n + 3) / 4 * 4

/-- `board_flash_arena_commit`. -/
def Flash.commit (f : Flash) (len : Nat) : Flash :=
  { f with used := f.used + roundUp len }

/-- Some of the cells are programmed already, or outside the arena. -/
def Flash.spoils (B : Board) (f : Flash) (addr len : Nat) : Bool :=
  decide (addr + len > B.size) || (List.range len).any fun i => (f.cells (addr + i)).isSome

/-- Program bytes into cells. -/
def Flash.program (B : Board) (f : Flash) (addr : Nat) (data : List Byte) : Flash :=
  { f with
    cells := fun a => if addr ≤ a ∧ a < addr + data.length then data[a - addr]? else f.cells a
    programs := f.programs + 1
    misprogrammed := f.misprogrammed || f.spoils B addr data.length }

/-- `board_flash_write`. -/
def Flash.write (B : Board) (f : Flash) (addr : Nat) (data : List Byte) : Bool × Flash :=
  if addr + data.length > B.size then (false, f)
  else
    match B.faults f.programs with
    | none => (true, f.program B addr data)
    | some k => (false, f.program B addr (data.take k))

/-! ## Uploads -/

/-- `up_owner_t`. -/
inductive Owner where
  | none | tftp | gdb
  deriving DecidableEq, Repr

/-- The state of `emu_image.c`, of the TFTP server and of the debug stub that uploads depend on. -/
structure St where
  flash : Flash
  /-- Where the upload begins, while there is one. -/
  upAddr : Option Nat
  owner : Owner
  /-- How far past its beginning the upload has programmed, or tried to. -/
  hwm : Nat
  /-- The bytes of the debugger's load that wait for the rest of their word, and their offset. -/
  carry : List Byte
  carryOff : Nat
  /-- The highest byte the debugger has written. -/
  gfLen : Nat
  cur : Nat
  curSize : Nat
  reload : Bool
  /-- `board_img` and its size, once an upload has been installed. -/
  img : Option (Nat × Nat)
  written : Nat
  busy : Bool
  failed : Bool
  complete : Bool
  flashTouched : Bool

/-- A board that has just been started, its arena in whatever state it is. -/
def St.init (cells : Nat → Option Byte) : St where
  flash := ⟨cells, 0, false, 0, false⟩
  upAddr := none
  owner := .none
  hwm := 0
  carry := []
  carryOff := 0
  gfLen := 0
  cur := 0
  curSize := 0
  reload := false
  img := none
  written := 0
  busy := false
  failed := false
  complete := false
  flashTouched := false

variable (B : Board)

/-- `fits_arena`. -/
def St.fits (s : St) (len : Nat) : Bool :=
  match s.upAddr with
  | none => false
  | some a => decide (a ≤ B.size) && decide (len ≤ B.size - a)

/-- `up_write`. -/
def upWrite (s : St) (off : Nat) (data : List Byte) : Bool × St :=
  match s.upAddr with
  | none => (false, s)
  | some a =>
    if s.fits B (off + data.length) then
      ((s.flash.write B (a + off) data).1,
        { s with hwm := max s.hwm (off + data.length), flash := (s.flash.write B (a + off) data).2 })
    else (false, s)

/-- `up_abandon`. -/
def upAbandon (s : St) : St :=
  { s with
    flash := if s.owner = .none then s.flash else s.flash.commit s.hwm
    owner := .none, upAddr := none, hwm := 0, carry := [], gfLen := 0 }

/-- Where an upload that begins now will be, and the arena it finds there. A full arena is erased. -/
def beginAt (f : Flash) : Option Nat × Flash :=
  match f.begin B with
  | (some a, f') => (some a, f')
  | (none, f') => f'.reset.begin B

/-- An upload has begun, or has not. -/
def St.begun (s : St) (who : Owner) : Option Nat × Flash → Bool × St
  | (some a, f) => (true, { s with flash := f, upAddr := some a, owner := who })
  | (none, f) => (false, { s with flash := f, upAddr := none, owner := .none })

/-- `up_begin`. -/
def upBegin (s : St) (who : Owner) : Bool × St :=
  if B.size = 0 then (false, upAbandon s) else (upAbandon s).begun who (beginAt B (upAbandon s).flash)

/-- `up_commit`. -/
def upCommit (s : St) (len : Nat) : St :=
  { s with
    flash := s.flash.commit (max len s.hwm)
    cur := s.upAddr.getD 0, curSize := len
    owner := .none, upAddr := none, hwm := 0, reload := true }

/-! ### TFTP -/

/-- `emu_net_image_data`. -/
def netImageData (s : St) (data : List Byte) (off : Nat) : Bool × St :=
  if s.owner = .tftp then upWrite B s off data else (false, s)

/-- `emu_net_image_end`. -/
def netImageEnd (s : St) (len : Nat) (ok : Bool) : St :=
  if s.owner ≠ .tftp then s
  else if !ok then { s with flash := s.flash.reset, owner := .none, upAddr := none, hwm := 0 }
  else if !s.fits B len then upAbandon s
  else upCommit s len

/-- `emu_net_image_abandon`. -/
def netImageAbandon (s : St) : St :=
  if s.owner ≠ .tftp then s else upAbandon s

/-- `EMU_TFTP_BLOCK`. -/
def tftpBlock : Nat := 512

/-- `tftp_open`, for writing. -/
def tftpOpen (s : St) : Bool × St :=
  andThen (upBegin B { s with busy := false } .tftp) fun s =>
    (true, { s with written := 0, busy := true, failed := false, complete := false })

/-- One piece of a packet. -/
def tftpPiece (s : St) (q : List Byte) : Bool × St :=
  match netImageData B s q s.written with
  | (false, s') => (false, { s' with failed := true })
  | (true, s') => (true, { s' with written := s'.written + q.length })

/-- The loop of `tftp_write` over the pieces of a packet. -/
def tftpPieces (s : St) : List (List Byte) → Bool × St
  | [] => (true, s)
  | q :: qs => andThen (tftpPiece B s q) fun s' => tftpPieces s' qs

/-- A block shorter than the others is the last. -/
def isLast (pieces : List (List Byte)) : Bool :=
  decide (pieces.flatten.length < tftpBlock)

/-- `tftp_write`. -/
def tftpWrite (s : St) (pieces : List (List Byte)) : Bool × St :=
  if !s.busy then (false, s) else tftpPieces B { s with complete := isLast pieces } pieces

/-- What `tftp_close` does with the upload. -/
def tftpEnd (s : St) : St :=
  if s.failed then netImageEnd B s s.written false
  else if s.complete then netImageEnd B s s.written true
  else netImageAbandon s

/-- `tftp_close`. -/
def tftpClose (s : St) : St :=
  if !s.busy then s else tftpEnd B { s with busy := false }

/-- `tftp_error`. -/
def tftpError (s : St) : St :=
  if s.busy then netImageAbandon { s with busy := false } else s

/-- A data packet: lwIP closes the transfer after a block that was refused or was the last. -/
def tftpData (s : St) (pieces : List (List Byte)) : Bool × St :=
  ((tftpWrite B s pieces).1,
    if !(tftpWrite B s pieces).1 || isLast pieces then tftpClose B (tftpWrite B s pieces).2
    else (tftpWrite B s pieces).2)

/-! ### The debugger's `load` -/

/-- `EMU_GUEST_ROM_BASE`. -/
def romBase : Word := 0x20000000

/-- `gdb_flash_erase`: only the first erase of a load begins an upload. -/
def gdbFlashErase (s : St) (addr : Word) : Bool × St :=
  if addr < romBase then (false, s)
  else if s.owner ≠ .gdb then upBegin B s .gdb
  else (true, s)

/-- `gf_flush`. -/
def gfFlush (s : St) : Bool × St :=
  if s.carry = [] then (true, s)
  else ((upWrite B s s.carryOff s.carry).1, { (upWrite B s s.carryOff s.carry).2 with carry := [] })

/-- The length of the whole words among `n` bytes. -/
def wholeWords (n : Nat) : Nat := n / 4 * 4

/-- What is left after the whole words waits for the rest of its word. -/
def St.keep (s : St) (off : Nat) (rest : List Byte) : St :=
  if rest.length - wholeWords rest.length ≠ 0 then
    { s with carry := rest.drop (wholeWords rest.length), carryOff := off + wholeWords rest.length }
  else s

/-- The part of `gdb_flash_write` that programs whole words and carries the rest. -/
def gfWords (s : St) (off : Nat) (rest : List Byte) : Bool × St :=
  andThen (if wholeWords rest.length ≠ 0 then upWrite B s off (rest.take (wholeWords rest.length)) else (true, s))
    fun s' => (true, s'.keep off rest)

/-- How many of the bytes of a write go to the word that waits. -/
def St.missing (s : St) (data : List Byte) : Nat :=
  min (4 - s.carry.length) data.length

/-- The word that waits takes the bytes it misses. -/
def St.topUp (s : St) (data : List Byte) : St :=
  { s with carry := s.carry ++ data.take (s.missing data) }

/-- The part of `gdb_flash_write` that makes a word that waits whole first. -/
def gfTopUp (s : St) (off : Nat) (data : List Byte) : Bool × St :=
  if s.carry = [] then gfWords B s off data
  else if (s.topUp data).carry.length < 4 then (true, s.topUp data)
  else
    andThen (upWrite B (s.topUp data) s.carryOff (s.topUp data).carry) fun s' =>
      gfWords B { s' with carry := [] } (off + s.missing data) (data.drop (s.missing data))

/-- A jump to another section: the word held for the old one goes where it belongs. -/
def gfJump (s : St) (off : Nat) : Bool × St :=
  if s.carry ≠ [] ∧ s.carryOff + s.carry.length ≠ off then gfFlush B s else (true, s)

/-- The highest byte seen is the image's length. -/
def St.seen (s : St) (len : Nat) : St :=
  { s with gfLen := max s.gfLen len }

/-- A guest address as an offset into the image. -/
def romOff (addr : Word) : Nat := (addr - romBase).toNat

/-- `gdb_flash_write`. -/
def gdbFlashWrite (s : St) (addr : Word) (data : List Byte) : Bool × St :=
  if s.owner ≠ .gdb ∨ addr < romBase ∨ s.fits B (romOff addr + data.length) = false then (false, s)
  else
    andThen (gfJump B (s.seen (romOff addr + data.length)) (romOff addr)) fun s' =>
      gfTopUp B s' (romOff addr) data

/-- A load is committed. -/
def St.finish (s : St) : St :=
  { upCommit s s.gfLen with gfLen := 0 }

/-- `gdb_flash_done`. -/
def gdbFlashDone (s : St) : Bool × St :=
  if s.owner ≠ .gdb ∨ s.gfLen = 0 ∨ s.fits B s.gfLen = false then (false, s)
  else andThen (gfFlush B s) fun s' => (true, s'.finish)

/-! ## Events -/

/-- `emu_image_take_pending`, up to the restart of the guest. -/
def takePending (s : St) : Bool × St :=
  if s.reload then (true, { s with reload := false, img := some (s.cur, s.curSize) }) else (false, s)

/-- The stub notes that flash was touched. -/
def touch (s : St) : Bool × St := (true, { s with flashTouched := true })

/-- The stub has told the board that the load is done. -/
def St.untouched (s : St) : St := { s with flashTouched := false }

/-- What can happen between two slices of the guest. A transfer that lwIP's timer or the idle watchdog gives up is
closed. -/
inductive Event where
  | tftpOpen
  | tftpData (pieces : List (List Byte))
  | tftpClose
  | tftpError
  | erase (addr : Word)
  | write (addr : Word) (data : List Byte)
  | done
  | disconnect
  | take
  deriving DecidableEq, Repr

/-- One event. The answer is whether it was accepted; that of `done` is whether a load was committed, since the stub
answers OK when there is nothing to do. -/
def step (s : St) : Event → Bool × St
  | .tftpOpen => tftpOpen B s
  | .tftpData pieces => tftpData B s pieces
  | .tftpClose => (true, tftpClose B s)
  | .tftpError => (true, tftpError s)
  | .erase addr => andThen (gdbFlashErase B s addr) touch
  | .write addr data => andThen (gdbFlashWrite B s addr data) touch
  | .done =>
    if s.flashTouched then ((gdbFlashDone B s).1, (gdbFlashDone B s).2.untouched) else (false, s)
  | .disconnect => (true, s)
  | .take => takePending s

/-- The state after a list of events. -/
def run (s : St) : List Event → St
  | [] => s
  | e :: es => run (step B s e).2 es

end Emu.Image
