-- SUMMARY: The virtio block device: a host file, the requests a guest makes of it, and which of them reach the file.
import Mathlib
import Emu.Ir.Syntax

/-! # The block device

A disk is a host file cut into 512-byte sectors. A request names a sector by a 64-bit number the guest chooses, and a
count that is a non-negative `int`. The bound test is done in signed 64-bit arithmetic and the file offset in unsigned
arithmetic narrowed to `long`, so the two can disagree about which sector is meant. -/

namespace Emu.Virtio

/-- `EMU_VIRTIO_SECTOR`. -/
def sectorBytes : Nat := 512

/-- A request's count of sectors: an `int` that is not negative. -/
abbrev Count := Fin (2 ^ 31)

/-- The buffer of a request for `n` sectors. -/
abbrev Buffer (n : Nat) := { bytes : List Byte // bytes.length = sectorBytes * n }

/-! ## The host file -/

/-- A file as `fopen` finds it. Its length is a `long`. -/
structure HostFile where
  bytes : List Byte
  /-- Whether it can be opened for writing too. -/
  mayWrite : Bool
  length_lt : bytes.length < 2 ^ 63

/-- `emu_block_t`. The capacity is fixed when the disk is opened, and the file never gets shorter. -/
structure Disk where
  file : List Byte
  sectors : Nat
  writable : Bool
  held : sectorBytes * sectors ≤ file.length
  addressable : sectorBytes * sectors < 2 ^ 63

/-- The part of `emu_virtio_add_block` that opens the disk: read-write when asked and possible, and refused when
empty. -/
def HostFile.openDisk (f : HostFile) (writable : Bool) : Option Disk :=
  if f.bytes.length = 0 then none
  else
    some {
      file := f.bytes
      sectors := f.bytes.length / sectorBytes
      writable := writable && f.mayWrite
      held := Nat.mul_div_le ..
      addressable := (Nat.mul_div_le ..).trans_lt f.length_lt }

/-- `fseek` to an offset from the start: a negative one is refused. -/
def seek (off : BitVec 64) : Option Nat :=
  if off.toInt < 0 then none else some off.toNat

/-- `fread`: what is left of the file, at most what was asked for. -/
def readAt (file : List Byte) (pos want : Nat) : List Byte :=
  (file.drop pos).take want

/-- `fwrite`: a write past the end of the file makes it longer. -/
def writeAt (file : List Byte) (pos : Nat) (data : List Byte) : List Byte :=
  if data = [] then file
  else file.take pos ++ List.replicate (pos - file.length) 0 ++ data ++ file.drop (pos + data.length)

theorem length_readAt_of_le {file : List Byte} {pos want : Nat} (h : pos + want ≤ file.length) :
    (readAt file pos want).length = want := by
  rw [readAt, List.length_take, List.length_drop]
  omega

theorem le_length_writeAt (file : List Byte) (pos : Nat) (data : List Byte) :
    file.length ≤ (writeAt file pos data).length := by
  rw [writeAt]
  split_ifs
  · exact le_rfl
  · simp only [List.length_append, List.length_take, List.length_replicate, List.length_drop]
    omega

/-! ## Requests -/

/-- What a request comes back with: its status, the part of the file it reached, the disk and the buffer. -/
structure Reply (n : Nat) where
  status : Int
  touched : Option (Nat × Nat)
  disk : Disk
  buf : Buffer n

/-- An error that reached neither the file nor the buffer. -/
def refused (d : Disk) {n : Nat} (buf : Buffer n) : Reply n :=
  ⟨-1, none, d, buf⟩

/-- `(int64_t)sector + n > b->sectors`. The sum is taken modulo 2^64. -/
def beyond (d : Disk) (sector : BitVec 64) (n : Count) : Bool :=
  decide ((sector + BitVec.ofNat 64 n).toInt > d.sectors)

/-- What `fread` leaves in the buffer. -/
def fill {n : Nat} (buf : Buffer n) (got : List Byte) : Buffer n :=
  ⟨got.take (sectorBytes * n) ++ buf.val.drop got.length, by
    have hbuf := buf.property
    simp only [List.length_append, List.length_take, List.length_drop, hbuf]
    omega⟩

/-- `block_read`. -/
def blockRead (d : Disk) (sector : BitVec 64) (n : Count) (buf : Buffer n) : Reply n :=
  if beyond d sector n then refused d buf
  else
    match seek (sector * BitVec.ofNat 64 sectorBytes) with
    | none => refused d buf
    | some pos =>
      let got := readAt d.file pos (sectorBytes * n)
      ⟨if got.length ≠ sectorBytes * n then -1 else 0, some (pos, pos + got.length), d, fill buf got⟩

/-- The disk after `fwrite` at a position. -/
def Disk.put (d : Disk) (pos : Nat) (data : List Byte) : Disk :=
  { d with file := writeAt d.file pos data, held := d.held.trans (le_length_writeAt ..) }

/-- `block_write`: a read-only disk refuses. -/
def blockWrite (d : Disk) (sector : BitVec 64) (n : Count) (buf : Buffer n) : Reply n :=
  if !d.writable || beyond d sector n then refused d buf
  else
    match seek (sector * BitVec.ofNat 64 sectorBytes) with
    | none => refused d buf
    | some pos => ⟨0, some (pos, pos + sectorBytes * n), d.put pos buf.val, buf⟩

/-- A guest's request, with the buffer the device made for it. -/
inductive Request where
  | read (sector : BitVec 64) (n : Count) (buf : Buffer n)
  | write (sector : BitVec 64) (n : Count) (buf : Buffer n)

def Request.sector : Request → BitVec 64
  | .read s _ _ | .write s _ _ => s

def Request.count : Request → Count
  | .read _ n _ | .write _ n _ => n

def Request.serve (d : Disk) : (r : Request) → Reply r.count
  | .read s n buf => blockRead d s n buf
  | .write s n buf => blockWrite d s n buf

/-- The disk after a list of requests. -/
def Disk.after (d : Disk) : List Request → Disk
  | [] => d
  | r :: rs => (r.serve d).disk.after rs

/-! ## What a disk is for -/

/-- The request lies on the disk, the sum being taken without overflow. -/
def Disk.Has (d : Disk) (sector : BitVec 64) (n : Nat) : Prop :=
  sector.toNat + n ≤ d.sectors

instance (d : Disk) (sector : BitVec 64) (n : Nat) : Decidable (d.Has sector n) :=
  inferInstanceAs (Decidable (_ ≤ _))

/-- The range of the file that the sectors of a request are. -/
def span (sector : BitVec 64) (n : Nat) : Nat × Nat :=
  (sectorBytes * sector.toNat, sectorBytes * (sector.toNat + n))

/-- The reply a request ought to get: on the disk, exactly its sectors; off it, or for a write to a read-only disk, an
error and nothing else. -/
def Request.answer (d : Disk) : (r : Request) → Reply r.count
  | .read s n buf =>
    if d.Has s n then ⟨0, some (span s n), d, fill buf (readAt d.file (span s n).1 (sectorBytes * n))⟩
    else refused d buf
  | .write s n buf =>
    if d.writable = true ∧ d.Has s n then ⟨0, some (span s n), d.put (span s n).1 buf.val, buf⟩
    else refused d buf

/-- Every request of the list is answered as it ought to be, on the disk the ones before it left. -/
def Disk.Faithful (d : Disk) : List Request → Prop
  | [] => True
  | r :: rs => r.serve d = r.answer d ∧ (r.serve d).disk.Faithful rs

/-! ## Where the two readings of a sector number part -/

/-- A sector number with its top bit set reads as a negative one in the bound test, and passes it, while the file
offset it is multiplied out to is not negative. -/
def Slips (sectors : Nat) (sector : BitVec 64) (n : Nat) : Prop :=
  2 ^ 63 ≤ sector.toNat ∧ sector.toNat + n ≤ 2 ^ 64 + sectors ∧ sectorBytes * sector.toNat % 2 ^ 64 < 2 ^ 63

/-- A request that is sure to be answered as it ought to be. -/
def Request.Sound (d : Disk) : Request → Prop
  | .read s n _ => ¬Slips d.sectors s n
  | .write s n _ => d.writable = true → ¬Slips d.sectors s n

section
variable {d : Disk} {sector : BitVec 64} {n : Count}

theorem Disk.sectors_lt (d : Disk) : d.sectors < 2 ^ 54 := by
  have := d.addressable
  rw [sectorBytes] at this
  omega

theorem toNat_offset (sector : BitVec 64) :
    (sector * BitVec.ofNat 64 sectorBytes).toNat = sectorBytes * sector.toNat % 2 ^ 64 := by
  rw [BitVec.toNat_mul, BitVec.toNat_ofNat, Nat.mul_comm]
  rfl

theorem seek_eq (sector : BitVec 64) :
    seek (sector * BitVec.ofNat 64 sectorBytes) =
      if 2 ^ 63 ≤ sectorBytes * sector.toNat % 2 ^ 64 then none else some (sectorBytes * sector.toNat % 2 ^ 64) := by
  have hneg : (sector * BitVec.ofNat 64 sectorBytes).toInt < 0 ↔ 2 ^ 63 ≤ sectorBytes * sector.toNat % 2 ^ 64 := by
    rw [BitVec.toInt_neg_iff, toNat_offset]
    omega
  simp only [seek, hneg, toNat_offset]

/-- The signed sum, read back as a natural number. -/
theorem toInt_sum (sector : BitVec 64) (n : Count) :
    (sector + BitVec.ofNat 64 n).toInt =
      if sector.toNat + n < 2 ^ 63 then (sector.toNat + n : Int) else (sector.toNat + n : Int) - 2 ^ 64 := by
  have hs := sector.isLt
  have hn := n.isLt
  rw [BitVec.toInt_eq_toNat_cond, BitVec.toNat_add, BitVec.toNat_ofNat]
  split_ifs <;> omega

/-- Past the bound test and the seek there are two cases: the request lies on the disk and the offset is its own, or
the sector number slipped through. -/
theorem reaches_cases (hbeyond : beyond d sector n = false) {pos : Nat}
    (hseek : seek (sector * BitVec.ofNat 64 sectorBytes) = some pos) :
    (d.Has sector n ∧ pos = (span sector n).1) ∨ Slips d.sectors sector n := by
  have hs := sector.isLt
  have hn := n.isLt
  have hd := d.sectors_lt
  rw [beyond, decide_eq_false_iff_not, toInt_sum] at hbeyond
  rw [seek_eq] at hseek
  split_ifs at hseek with hoff
  obtain rfl := Option.some.inj hseek
  simp only [Disk.Has, Slips, span]
  rw [sectorBytes] at hoff ⊢
  by_cases hneg : 2 ^ 63 ≤ sector.toNat
  · right
    refine ⟨hneg, ?_, by omega⟩
    rw [if_neg (by omega)] at hbeyond
    omega
  · left
    -- a sum that overflows comes from a sector number whose offset is negative
    split_ifs at hbeyond with hsum <;> omega

theorem not_beyond_of_has (h : d.Has sector n) : beyond d sector n = false := by
  have hd := d.sectors_lt
  rw [Disk.Has] at h
  rw [beyond, decide_eq_false_iff_not, toInt_sum, if_pos (by omega)]
  omega

theorem seek_of_has (h : d.Has sector n) :
    seek (sector * BitVec.ofNat 64 sectorBytes) = some (span sector n).1 := by
  have hd := d.addressable
  rw [Disk.Has] at h
  have hmul : sectorBytes * sector.toNat ≤ sectorBytes * d.sectors := Nat.mul_le_mul_left _ (by omega)
  rw [seek_eq, Nat.mod_eq_of_lt (by omega), if_neg (by omega)]
  rfl

theorem not_has_of_slips (h : Slips d.sectors sector n) : ¬d.Has sector n := by
  have hd := d.sectors_lt
  rw [Disk.Has]
  have := h.1
  omega

theorem not_beyond_of_slips (h : Slips d.sectors sector n) : beyond d sector n = false := by
  have hd := d.sectors_lt
  obtain ⟨hneg, hsum, -⟩ := h
  rw [beyond, decide_eq_false_iff_not, toInt_sum, if_neg (by omega)]
  omega

theorem seek_of_slips (h : Slips d.sectors sector n) :
    seek (sector * BitVec.ofNat 64 sectorBytes) = some (sectorBytes * sector.toNat % 2 ^ 64) := by
  rw [seek_eq, if_neg (by have := h.2.2; omega)]

end

/-! ## One request -/

section
variable (d : Disk) (sector : BitVec 64) (n : Count) (buf : Buffer n)

theorem blockRead_of_has (h : d.Has sector n) :
    Request.serve d (.read sector n buf) = Request.answer d (.read sector n buf) := by
  have hlen : (readAt d.file (span sector n).1 (sectorBytes * n)).length = sectorBytes * n := by
    apply length_readAt_of_le
    have hmul : sectorBytes * (sector.toNat + n) ≤ sectorBytes * d.sectors := Nat.mul_le_mul_left _ h
    have := d.held
    simp only [span]
    rw [Nat.mul_add] at hmul
    omega
  simp only [Request.serve, Request.answer, blockRead, not_beyond_of_has h, seek_of_has h, if_pos h, hlen]
  simp only [span, Nat.mul_add, ne_eq, not_true_eq_false, Bool.false_eq_true, if_false]
  rfl

theorem blockWrite_of_has (h : d.Has sector n) (hw : d.writable = true) :
    Request.serve d (.write sector n buf) = Request.answer d (.write sector n buf) := by
  simp only [Request.serve, Request.answer, blockWrite, not_beyond_of_has h, seek_of_has h, hw]
  simp only [h, span, Nat.mul_add, Bool.not_true, Bool.or_false, Bool.false_eq_true, if_false, and_self, if_true]
  rfl

theorem blockRead_touched_of_slips (h : Slips d.sectors sector n) :
    (Request.serve d (.read sector n buf)).touched ≠ none := by
  simp [Request.serve, blockRead, not_beyond_of_slips h, seek_of_slips h]

theorem blockWrite_touched_of_slips (h : Slips d.sectors sector n) (hw : d.writable = true) :
    (Request.serve d (.write sector n buf)).touched ≠ none := by
  simp [Request.serve, blockWrite, not_beyond_of_slips h, seek_of_slips h, hw]

theorem blockRead_refused (hhas : ¬d.Has sector n) (hslip : ¬Slips d.sectors sector n) :
    blockRead d sector n buf = refused d buf := by
  rw [blockRead]
  split
  · rfl
  next hbeyond =>
    split
    · rfl
    next pos hseek =>
      obtain ⟨hin, -⟩ | hin := reaches_cases (by simpa using hbeyond) hseek
      · exact absurd hin hhas
      · exact absurd hin hslip

theorem blockWrite_refused (hhas : ¬d.Has sector n) (hslip : ¬Slips d.sectors sector n) :
    blockWrite d sector n buf = refused d buf := by
  rw [blockWrite]
  split
  · rfl
  next hpass =>
    split
    · rfl
    next pos hseek =>
      have hbeyond : beyond d sector n = false := by simp_all
      obtain ⟨hin, -⟩ | hin := reaches_cases hbeyond hseek
      · exact absurd hin hhas
      · exact absurd hin hslip

theorem blockWrite_readOnly (hw : d.writable = false) : blockWrite d sector n buf = refused d buf := by
  simp [blockWrite, hw]

end

/-- A request is answered as it ought to be exactly when its sector number does not slip. -/
theorem Request.serve_eq_answer_iff (d : Disk) (r : Request) : r.serve d = r.answer d ↔ r.Sound d := by
  cases r with
  | read s n buf =>
    constructor
    · intro heq hslip
      apply blockRead_touched_of_slips d s n buf hslip
      rw [heq, Request.answer, if_neg (not_has_of_slips hslip)]
      rfl
    · intro hslip
      by_cases hhas : d.Has s n
      · exact blockRead_of_has d s n buf hhas
      · rw [Request.serve, Request.answer, if_neg hhas]
        exact blockRead_refused d s n buf hhas hslip
  | write s n buf =>
    constructor
    · intro heq hw hslip
      apply blockWrite_touched_of_slips d s n buf hslip hw
      rw [heq, Request.answer, if_neg (fun h => not_has_of_slips hslip h.2)]
      rfl
    · intro hsound
      cases hw : d.writable with
      | false =>
        rw [Request.serve, Request.answer, if_neg (by simp [hw])]
        exact blockWrite_readOnly d s n buf hw
      | true =>
        by_cases hhas : d.Has s n
        · exact blockWrite_of_has d s n buf hhas hw
        · rw [Request.serve, Request.answer, if_neg (fun h => hhas h.2)]
          exact blockWrite_refused d s n buf hhas (hsound hw)

/-! ## A disk in use -/

theorem Request.serve_disk (d : Disk) (r : Request) :
    (r.serve d).disk.sectors = d.sectors ∧ (r.serve d).disk.writable = d.writable := by
  cases r with
  | read s n buf =>
    simp only [Request.serve, blockRead]
    split
    · exact ⟨rfl, rfl⟩
    · split <;> exact ⟨rfl, rfl⟩
  | write s n buf =>
    simp only [Request.serve, blockWrite]
    split
    · exact ⟨rfl, rfl⟩
    · split <;> exact ⟨rfl, rfl⟩

theorem Request.sound_congr {d d' : Disk} (hs : d'.sectors = d.sectors) (hw : d'.writable = d.writable)
    (r : Request) : r.Sound d' ↔ r.Sound d := by
  cases r <;> simp only [Request.Sound, hs, hw]

theorem Disk.faithful_iff_sound (d : Disk) (rs : List Request) : d.Faithful rs ↔ ∀ r ∈ rs, r.Sound d := by
  induction rs generalizing d with
  | nil => simp [Disk.Faithful]
  | cons r rs ih =>
    obtain ⟨hs, hw⟩ := r.serve_disk d
    simp only [Disk.Faithful, r.serve_eq_answer_iff, ih, List.forall_mem_cons, Request.sound_congr hs hw]

theorem Request.serve_readOnly {d : Disk} (hw : d.writable = false) (r : Request) : (r.serve d).disk = d := by
  cases r with
  | read s n buf =>
    simp only [Request.serve, blockRead]
    split
    · rfl
    · split <;> rfl
  | write s n buf => rw [Request.serve, blockWrite_readOnly d s n buf hw, refused]

theorem Disk.after_readOnly {d : Disk} (hw : d.writable = false) (rs : List Request) : d.after rs = d := by
  induction rs with
  | nil => rfl
  | cons r rs ih => rw [Disk.after, r.serve_readOnly hw, ih]

/-- However a disk was opened and whatever is asked of it, every request gets exactly its sectors or is refused, if and
only if no sector number slips through the bound test. A disk opened read-only keeps its bytes in any case. -/
theorem requests_answered_iff (f : HostFile) (rw : Bool) (d : Disk) (hopen : f.openDisk rw = some d)
    (rs : List Request) :
    (d.Faithful rs ↔ ∀ r ∈ rs, r.Sound d) ∧ (rw = false → (d.after rs).file = f.bytes) := by
  refine ⟨d.faithful_iff_sound rs, ?_⟩
  rintro rfl
  rw [HostFile.openDisk] at hopen
  split_ifs at hopen
  obtain rfl := Option.some.inj hopen
  rw [Disk.after_readOnly (by simp) rs]

/-- A file of one sector. -/
def oneSector : HostFile :=
  ⟨List.replicate 512 0xAA, true, by rw [List.length_replicate]; norm_num⟩

def oneSectorDisk : Disk :=
  ⟨List.replicate 512 0xAA, 1, true, by rw [List.length_replicate, sectorBytes], by rw [sectorBytes]; norm_num⟩

def oneSectorBuf : Buffer (1 : Count) :=
  ⟨List.replicate 512 0, List.length_replicate⟩

theorem oneSector_open : oneSector.openDisk true = some oneSectorDisk := by
  have hlen : oneSector.bytes.length = 512 := List.length_replicate
  rw [HostFile.openDisk, if_neg (by omega)]
  simp only [hlen]
  rfl

theorem requests_answered_oneSector :
    oneSector.openDisk true = some oneSectorDisk ∧ oneSectorDisk.Faithful [.read 0 1 oneSectorBuf] := by
  refine ⟨oneSector_open, ?_⟩
  apply (requests_answered_iff oneSector true oneSectorDisk oneSector_open _).1.mpr
  intro r hr
  obtain rfl := List.mem_singleton.mp hr
  intro hslip
  exact absurd hslip.1 (by decide)

/-- Sector 2^63 of a disk of one sector is answered with the first sector, and the capacity is one. -/
theorem sector_slips_through :
    (blockRead oneSectorDisk 0x8000000000000000 1 oneSectorBuf).status = 0 ∧
      (blockRead oneSectorDisk 0x8000000000000000 1 oneSectorBuf).touched = some (0, 512) ∧
      ¬oneSectorDisk.Has 0x8000000000000000 1 ∧ ¬oneSectorDisk.Faithful [.read 0x8000000000000000 1 oneSectorBuf] := by
  refine ⟨by decide +kernel, by decide +kernel, by decide, ?_⟩
  intro h
  have hsound := (Disk.faithful_iff_sound _ _).mp h _ (List.mem_singleton_self _)
  exact hsound ⟨by decide, by decide, by decide⟩

/-! ## A disk is an array of bytes -/

/-- The byte at a position once a request has been served: the one it writes there, or the old one. -/
def Request.lands (sectors : Nat) (writable : Bool) (p : Nat) (old : Option Byte) : Request → Option Byte
  | .read .. => old
  | .write s n buf =>
    if (writable = true ∧ s.toNat + n ≤ sectors) ∧ (span s n).1 ≤ p ∧ p < (span s n).2 then
      buf.val[p - (span s n).1]?
    else old

theorem getElem?_writeAt {file data : List Byte} {pos : Nat} (h : pos ≤ file.length) (p : Nat) :
    (writeAt file pos data)[p]? = if pos ≤ p ∧ p < pos + data.length then data[p - pos]? else file[p]? := by
  rw [writeAt, Nat.sub_eq_zero_of_le h]
  split_ifs <;> grind

theorem Request.serve_file {d : Disk} {r : Request} (h : r.Sound d) (p : Nat) :
    (r.serve d).disk.file[p]? = r.lands d.sectors d.writable p d.file[p]? := by
  rw [(r.serve_eq_answer_iff d).mpr h]
  cases r with
  | read s n buf => rw [Request.answer]; split_ifs <;> rfl
  | write s n buf =>
    rw [Request.answer, Request.lands]
    by_cases hhas : d.writable = true ∧ d.Has s n
    · have hin : d.writable = true ∧ s.toNat + n ≤ d.sectors := hhas
      have hpos : sectorBytes * s.toNat ≤ d.file.length :=
        (Nat.mul_le_mul_left _ (Nat.le_of_add_right_le hin.2)).trans d.held
      simp [hhas, hin, Disk.put, getElem?_writeAt hpos, buf.property, span, Nat.mul_add]
    · rw [if_neg hhas, if_neg fun h => hhas h.1]
      rfl

/-- Whatever requests a disk has served, each byte of it is the one last written there, or the file's own if none was,
as long as no sector number slips. -/
theorem Disk.file_after (d : Disk) {rs : List Request} (h : ∀ r ∈ rs, r.Sound d) (p : Nat) :
    (d.after rs).file[p]? = rs.foldl (Request.lands d.sectors d.writable p) d.file[p]? := by
  induction rs generalizing d with
  | nil => rfl
  | cons r rs ih =>
    obtain ⟨hs, hw⟩ := r.serve_disk d
    have hrest := ih (r.serve d).disk fun r' hr' => (r'.sound_congr hs hw).mpr (h r' (.tail _ hr'))
    rwa [hs, hw, Request.serve_file (h r (.head _))] at hrest

/-- A sector of zeros over one of 0xAA. -/
theorem file_after_oneSector :
    (oneSectorDisk.after [.write 0 1 oneSectorBuf]).file[7]? = some 0 := by
  rw [Disk.file_after oneSectorDisk]
  · decide +kernel
  · intro r hr
    obtain rfl := List.mem_singleton.mp hr
    exact fun _ hslip => absurd hslip.1 (by decide)

end Emu.Virtio
