-- SUMMARY: The framing of the debug stub's packets: the byte-wise receiver, and the packets of a stream it stands for.
import Mathlib
import Emu.Ir.Syntax

/-! # Receiving packets

A packet is `$`, a body, `#` and two hex digits. The body is escaped: 0x7d says that the next byte has bit 5 flipped.
The receiver takes a stream one byte at a time, unescapes the body into a buffer of fixed size and sums it as it was
sent. A body that does not fit is cut: what comes after the buffer is full is neither kept nor summed. -/

namespace Emu.Gdb

/-- `EMU_GDB_MAX_PACKET`. -/
def maxPacket : Nat := 1024

def dollar : Byte := 0x24
def hash : Byte := 0x23
def escapeMark : Byte := 0x7D
def ctrlC : Byte := 0x03

/-- `hex_val`. -/
def hexVal (c : Byte) : Option Nat :=
  if 0x30 ≤ c ∧ c ≤ 0x39 then some (c.toNat - 0x30)
  else if 0x61 ≤ c ∧ c ≤ 0x66 then some (10 + (c.toNat - 0x61))
  else if 0x41 ≤ c ∧ c ≤ 0x46 then some (10 + (c.toNat - 0x41))
  else none

/-- The byte two hex digits stand for. -/
def hexByte (hi lo : Byte) : Option Byte :=
  match hexVal hi, hexVal lo with
  | some h, some l => some (BitVec.ofNat 8 (h <<< 4 ||| l))
  | _, _ => none

/-! ## The receiver -/

inductive Phase where
  | wait | body | sum
  deriving DecidableEq, Repr

/-- The part of `emu_gdb_t` that receives. Neither buffer is ever overrun. -/
structure Rx where
  phase : Phase
  rx : List Byte
  sum : List Byte
  rawSum : Byte
  escaped : Bool
  rx_fits : rx.length ≤ maxPacket
  sum_fits : phase ≠ .wait → sum.length < 2

/-- What the stub does at a byte: it stops the guest on a raw Ctrl-C, and at the end of a packet it acknowledges it
and, when the checksum is right, dispatches the body. -/
inductive Event where
  | interrupt
  | packet (dispatched : Option (List Byte))
  deriving DecidableEq, Repr

/-- `emu_gdb_init`. -/
def Rx.init : Rx := ⟨.wait, [], [], 0, false, Nat.zero_le _, by simp⟩

/-- `emu_gdb_attach`. -/
def Rx.attach (s : Rx) : Rx :=
  { s with phase := .wait, rx := [], sum := [], rx_fits := Nat.zero_le _, sum_fits := by simp }

/-- A packet begins. -/
def Rx.start : Rx := ⟨.body, [], [], 0, false, Nat.zero_le _, by simp⟩

/-- A byte of the body. Once the buffer is full it is dropped, and does not count in the checksum either. -/
def Rx.store (s : Rx) (c : Byte) : Rx :=
  if h : s.rx.length < maxPacket then
    if s.escaped then
      { s with
        rx := s.rx ++ [c ^^^ 0x20], escaped := false, rawSum := s.rawSum + c
        rx_fits := by rw [List.length_append]; exact h }
    else if c = escapeMark then { s with escaped := true, rawSum := s.rawSum + c }
    else
      { s with
        rx := s.rx ++ [c], rawSum := s.rawSum + c
        rx_fits := by rw [List.length_append]; exact h }
  else s

/-- What is dispatched once both digits are there. -/
def Rx.dispatched (s : Rx) (hi lo : Byte) : Option (List Byte) :=
  if hexByte hi lo = some s.rawSum then some s.rx else none

/-- A digit of the checksum. -/
def Rx.digit (s : Rx) (c : Byte) : Rx × List Event :=
  match s.sum with
  | [] => ({ s with sum := [c], sum_fits := by simp }, [])
  | hi :: _ => ({ s with phase := .wait, sum := [hi, c], sum_fits := by simp }, [.packet (s.dispatched hi c)])

/-- One byte of `emu_gdb_rx`. -/
def Rx.byte (s : Rx) (c : Byte) : Rx × List Event :=
  match hphase : s.phase with
  | .wait =>
    if c = dollar then (Rx.start, [])
    else if c = ctrlC then (s, [.interrupt])
    else (s, [])
  | .body =>
    if c = hash then
      ({ s with phase := .sum, sum_fits := fun _ => s.sum_fits (by rw [hphase]; decide) }, [])
    else (s.store c, [])
  | .sum => s.digit c

/-- `emu_gdb_rx`. -/
def Rx.receive (s : Rx) : List Byte → Rx × List Event
  | [] => (s, [])
  | c :: cs => (((s.byte c).1.receive cs).1, (s.byte c).2 ++ ((s.byte c).1.receive cs).2)

/-- What happens to the stub from outside: data arrives in some chunk, or a debugger connects. -/
inductive Input where
  | rx (data : List Byte)
  | attach

def Rx.run (s : Rx) : List Input → Rx × List Event
  | [] => (s, [])
  | .rx data :: is => (((s.receive data).1.run is).1, (s.receive data).2 ++ ((s.receive data).1.run is).2)
  | .attach :: is => s.attach.run is

/-! ## Packets -/

/-- A packet as it was sent: the body between `$` and `#`, and the two characters after it. -/
structure Frame where
  raw : List Byte
  hi : Byte
  lo : Byte
  deriving DecidableEq, Repr

def Frame.bytes (f : Frame) : List Byte :=
  dollar :: f.raw ++ [hash, f.hi, f.lo]

/-- The body that escaped bytes stand for. `escaped` says that a mark came just before. -/
def decode (escaped : Bool) : List Byte → List Byte
  | [] => []
  | c :: cs =>
    if escaped then (c ^^^ 0x20) :: decode false cs
    else if c = escapeMark then decode true cs
    else c :: decode false cs

def unescape (raw : List Byte) : List Byte := decode false raw

/-- Whether a mark at the end still waits for its byte. -/
def pending (escaped : Bool) : List Byte → Bool
  | [] => escaped
  | c :: cs => pending (!escaped && c == escapeMark) cs

/-- The body is escaped as a debugger does it: every mark has its byte. -/
def Frame.Escaped (f : Frame) : Prop :=
  pending false f.raw = false

instance (f : Frame) : Decidable f.Escaped :=
  inferInstanceAs (Decidable (_ = _))

/-- What ought to be dispatched for a packet: the whole body, if it fits and the checksum is that of all the bytes
sent. -/
def Frame.verdict (f : Frame) : Option (List Byte) :=
  if hexByte f.hi f.lo = some f.raw.sum ∧ (unescape f.raw).length ≤ maxPacket then some (unescape f.raw) else none

/-- How far a stream has got into a packet. -/
inductive Progress where
  | between
  | body (raw : List Byte)
  | check (raw : List Byte) (hi : Option Byte)
  deriving DecidableEq, Repr

def Progress.next : Progress → Byte → Progress × List Frame
  | .between, c => (if c = dollar then .body [] else .between, [])
  | .body raw, c => (if c = hash then .check raw none else .body (raw ++ [c]), [])
  | .check raw none, c => (.check raw (some c), [])
  | .check raw (some hi), c => (.between, [⟨raw, hi, c⟩])

/-- The packets a stream completes. -/
def Progress.frames (p : Progress) : List Byte → Progress × List Frame
  | [] => (p, [])
  | c :: cs => (((p.next c).1.frames cs).1, (p.next c).2 ++ ((p.next c).1.frames cs).2)

/-- A new connection starts between packets. -/
def Progress.sent (p : Progress) : List Input → List Frame
  | [] => []
  | .rx data :: is => (p.frames data).2 ++ (p.frames data).1.sent is
  | .attach :: is => Progress.between.sent is

/-! ### What a stream of packets is -/

theorem Progress.frames_append (p : Progress) (as bs : List Byte) :
    p.frames (as ++ bs) = (((p.frames as).1.frames bs).1, (p.frames as).2 ++ ((p.frames as).1.frames bs).2) := by
  induction as generalizing p with
  | nil => simp [Progress.frames]
  | cons c cs ih => simp [Progress.frames, ih]

theorem Progress.frames_body (raw rest : List Byte) (h : hash ∉ rest) :
    (Progress.body raw).frames rest = (.body (raw ++ rest), []) := by
  induction rest generalizing raw with
  | nil => simp [Progress.frames]
  | cons c cs ih =>
    obtain ⟨hc, hcs⟩ := List.ne_and_not_mem_of_not_mem_cons h
    simp [Progress.frames, Progress.next, hc.symm, ih _ hcs]

theorem Progress.frames_gap (gap : List Byte) (h : dollar ∉ gap) : Progress.between.frames gap = (.between, []) := by
  induction gap with
  | nil => rfl
  | cons c cs ih =>
    obtain ⟨hc, hcs⟩ := List.ne_and_not_mem_of_not_mem_cons h
    simp [Progress.frames, Progress.next, hc.symm, ih hcs]

/-- Between packets anything but a `$` may come, and a packet that is sent whole is the next one of the stream. -/
theorem Progress.frames_packet (gap : List Byte) (f : Frame) (rest : List Byte) (hgap : dollar ∉ gap)
    (hraw : hash ∉ f.raw) :
    Progress.between.frames (gap ++ f.bytes ++ rest) =
      ((Progress.between.frames rest).1, f :: (Progress.between.frames rest).2) := by
  have hbody := Progress.frames_body [] f.raw hraw
  rw [Progress.frames_append, Progress.frames_append, Progress.frames_gap gap hgap, Frame.bytes, List.cons_append,
    Progress.frames]
  simp only [Progress.next, if_true, Progress.frames_append, hbody]
  simp [Progress.frames, Progress.next]

/-- How a debugger escapes a body: `#`, `$`, `*` and the mark itself. -/
def escape : List Byte → List Byte
  | [] => []
  | c :: cs =>
    if c = hash ∨ c = dollar ∨ c = 0x2A ∨ c = escapeMark then escapeMark :: (c ^^^ 0x20) :: escape cs
    else c :: escape cs

/-- Every body can be sent: escaped, it has no `#` in it and every mark its byte, and stands for itself. -/
theorem escape_spec (body : List Byte) :
    hash ∉ escape body ∧ pending false (escape body) = false ∧ unescape (escape body) = body := by
  induction body with
  | nil => simp [escape, pending, unescape, decode]
  | cons c cs ih =>
    obtain ⟨hhash, hmarks, hdecode⟩ := ih
    rw [unescape] at hdecode
    rw [escape]
    split_ifs with hc
    · have hne : hash ≠ c ^^^ 0x20#8 := by obtain rfl | rfl | rfl | rfl := hc <;> decide
      have hback : c ^^^ 0x20#8 ^^^ 0x20#8 = c := by rw [BitVec.xor_assoc, BitVec.xor_self, BitVec.xor_zero]
      refine ⟨?_, by simpa [pending] using hmarks, by simp [unescape, decode, hback, hdecode]⟩
      simp [hhash, hne, show hash ≠ escapeMark by decide]
    · obtain ⟨h1, -, -, h4⟩ : c ≠ hash ∧ c ≠ dollar ∧ c ≠ 0x2A ∧ c ≠ escapeMark := by tauto
      have hmark : (!false && c == escapeMark) = false := by simpa using h4
      refine ⟨by simp [hhash, h1.symm], by rwa [pending, hmark], by simp [unescape, decode, h4, hdecode]⟩

/-! ## What the receiver keeps of a body -/

/-- The part of a body that is taken while the buffer has room for `room` bytes. -/
def kept (room : Nat) (escaped : Bool) : List Byte → List Byte
  | [] => []
  | c :: cs =>
    if room = 0 then []
    else if escaped then c :: kept (room - 1) false cs
    else if c = escapeMark then c :: kept room true cs
    else c :: kept (room - 1) false cs

theorem Rx.store_full {s : Rx} (h : ¬s.rx.length < maxPacket) (c : Byte) : s.store c = s := by
  rw [Rx.store, dif_neg h]

theorem Rx.foldl_store_full {s : Rx} (h : ¬s.rx.length < maxPacket) (raw : List Byte) : raw.foldl Rx.store s = s := by
  induction raw with
  | nil => rfl
  | cons c cs ih => rw [List.foldl_cons, Rx.store_full h, ih]

/-- What a run of body bytes leaves in the buffer and in the checksum. -/
theorem Rx.foldl_store (s : Rx) (raw : List Byte) :
    (raw.foldl Rx.store s).rx = s.rx ++ decode s.escaped (kept (maxPacket - s.rx.length) s.escaped raw) ∧
      (raw.foldl Rx.store s).rawSum = s.rawSum + (kept (maxPacket - s.rx.length) s.escaped raw).sum := by
  induction raw generalizing s with
  | nil => simp [kept, decode]
  | cons c cs ih =>
    by_cases h : s.rx.length < maxPacket
    · have hroom : maxPacket - s.rx.length ≠ 0 := by omega
      obtain ⟨hrx, hsum⟩ := ih (s.store c)
      rw [List.foldl_cons, hrx, hsum, kept, if_neg hroom]
      cases hesc : s.escaped with
      | true => simp [Rx.store, h, hesc, decode, Nat.sub_sub, add_assoc]
      | false =>
        by_cases hc : c = escapeMark
        · simp [Rx.store, h, hesc, hc, decode, add_assoc]
        · simp [Rx.store, h, hesc, hc, decode, Nat.sub_sub, add_assoc]
    · have hroom : maxPacket - s.rx.length = 0 := by omega
      rw [Rx.foldl_store_full h, kept, if_pos hroom]
      simp [decode]

/-- A body that fits is kept whole. -/
theorem kept_eq_of_fits {room : Nat} {escaped : Bool} {raw : List Byte} (hfits : (decode escaped raw).length ≤ room)
    (hmarks : pending escaped raw = false) : kept room escaped raw = raw := by
  induction raw generalizing room escaped with
  | nil => rfl
  | cons c cs ih =>
    cases escaped with
    | true =>
      have hfits' : (decode false cs).length + 1 ≤ room := by simpa [decode] using hfits
      have hrest : kept (room - 1) false cs = cs := ih (by omega) (by simpa [pending] using hmarks)
      rw [kept, if_neg (by omega), if_pos rfl, hrest]
    | false =>
      by_cases hc : c = escapeMark
      · have hfits' : (decode true cs).length ≤ room := by simpa [decode, hc] using hfits
        have hmarks' : pending true cs = false := by simpa [pending, hc] using hmarks
        -- the byte the mark stands before needs a place
        have hroom : room ≠ 0 := by
          rintro rfl
          cases cs with
          | nil => simp [pending] at hmarks'
          | cons d ds => simp [decode] at hfits'
        rw [kept, if_neg hroom, if_neg (by simp), if_pos hc, ih hfits' hmarks']
      · have hfits' : (decode false cs).length + 1 ≤ room := by simpa [decode, hc] using hfits
        have hmarks' : pending false cs = false := by
          rwa [pending, show (!false && c == escapeMark) = false by simpa using hc] at hmarks
        rw [kept, if_neg (by omega), if_neg (by simp), if_neg hc, ih (by omega) hmarks']

/-- The packet is longer than the buffer, and its checksum is that of the part that was kept. -/
def Frame.Cut (f : Frame) : Prop :=
  maxPacket < (unescape f.raw).length ∧ hexByte f.hi f.lo = some (kept maxPacket false f.raw).sum

/-- What the receiver makes of a packet. -/
def Frame.outcome (f : Frame) : Option (List Byte) :=
  (f.raw.foldl Rx.store Rx.start).dispatched f.hi f.lo

theorem Frame.outcome_eq (f : Frame) :
    f.outcome =
      if hexByte f.hi f.lo = some (kept maxPacket false f.raw).sum then some (unescape (kept maxPacket false f.raw))
      else none := by
  obtain ⟨hrx, hsum⟩ := Rx.foldl_store Rx.start f.raw
  rw [Frame.outcome, Rx.dispatched, hrx, hsum]
  simp [Rx.start, unescape]

/-- A packet is treated as it ought to be exactly when it was not cut unnoticed. -/
theorem Frame.outcome_eq_verdict_iff {f : Frame} (hf : f.Escaped) : f.outcome = f.verdict ↔ ¬f.Cut := by
  rw [Frame.outcome_eq, Frame.verdict, Frame.Cut]
  by_cases hfits : (unescape f.raw).length ≤ maxPacket
  · rw [kept_eq_of_fits hfits hf]
    simp [hfits, Nat.not_lt.mpr hfits]
  · simp [hfits, Nat.lt_of_not_le hfits]

/-! ## The receiver follows the stream -/

/-- The receiver is where the stream is. -/
def Progress.Matches : Progress → Rx → Prop
  | .between, s => s.phase = .wait
  | .body raw, s => s = raw.foldl Rx.store Rx.start
  | .check raw hi, s =>
    s.phase = .sum ∧ s.sum = hi.toList ∧ s.rx = (raw.foldl Rx.store Rx.start).rx ∧
      s.rawSum = (raw.foldl Rx.store Rx.start).rawSum

@[simp]
theorem Rx.store_phase (s : Rx) (c : Byte) : (s.store c).phase = s.phase := by
  unfold Rx.store
  split_ifs <;> rfl

@[simp]
theorem Rx.store_sum (s : Rx) (c : Byte) : (s.store c).sum = s.sum := by
  unfold Rx.store
  split_ifs <;> rfl

theorem Rx.foldl_store_frame (s : Rx) (raw : List Byte) :
    (raw.foldl Rx.store s).phase = s.phase ∧ (raw.foldl Rx.store s).sum = s.sum := by
  induction raw generalizing s with
  | nil => exact ⟨rfl, rfl⟩
  | cons c cs ih => simpa using ih (s.store c)

/-- The dispatches among the events, one for each packet. -/
def outcomes : List Event → List (Option (List Byte))
  | [] => []
  | .interrupt :: es => outcomes es
  | .packet d :: es => d :: outcomes es

theorem outcomes_append (es fs : List Event) : outcomes (es ++ fs) = outcomes es ++ outcomes fs := by
  induction es with
  | nil => rfl
  | cons e es ih => cases e <;> simp [outcomes, ih]

theorem Rx.byte_wait {s : Rx} (h : s.phase = .wait) (c : Byte) :
    s.byte c = if c = dollar then (Rx.start, []) else if c = ctrlC then (s, [.interrupt]) else (s, []) := by
  unfold Rx.byte
  split
  · rfl
  · simp_all
  · simp_all

theorem Rx.byte_body {s : Rx} (h : s.phase = .body) {c : Byte} (hc : c ≠ hash) : s.byte c = (s.store c, []) := by
  unfold Rx.byte
  split
  · simp_all
  · rw [if_neg hc]
  · simp_all

theorem Rx.byte_hash {s : Rx} (h : s.phase = .body) :
    (s.byte hash).1.phase = .sum ∧ (s.byte hash).1.sum = s.sum ∧ (s.byte hash).1.rx = s.rx ∧
      (s.byte hash).1.rawSum = s.rawSum ∧ (s.byte hash).2 = [] := by
  unfold Rx.byte
  split
  · simp_all
  · simp
  · simp_all

theorem Rx.byte_sum {s : Rx} (h : s.phase = .sum) (c : Byte) : s.byte c = s.digit c := by
  unfold Rx.byte
  split
  · simp_all
  · simp_all
  · rfl

/-- One byte: the receiver goes on as the stream does, and at the end of a packet it makes of it what it makes of the
packet alone. -/
theorem Progress.Matches.byte {p : Progress} {s : Rx} (h : p.Matches s) (c : Byte) :
    (p.next c).1.Matches (s.byte c).1 ∧ outcomes (s.byte c).2 = (p.next c).2.map Frame.outcome := by
  cases p with
  | between =>
    rw [Rx.byte_wait h]
    by_cases hc : c = dollar
    · simp [Progress.next, hc, Progress.Matches, outcomes]
    · rw [Progress.next, if_neg hc, if_neg hc]
      by_cases hc' : c = ctrlC
      · rw [if_pos hc']
        exact ⟨h, rfl⟩
      · rw [if_neg hc']
        exact ⟨h, rfl⟩
  | body raw =>
    obtain rfl : s = raw.foldl Rx.store Rx.start := h
    obtain ⟨hphase, hsum⟩ := Rx.foldl_store_frame Rx.start raw
    by_cases hc : c = hash
    · subst hc
      obtain ⟨h1, h2, h3, h4, h5⟩ := Rx.byte_hash (s := raw.foldl Rx.store Rx.start) hphase
      rw [Progress.next, if_pos rfl, h5]
      exact ⟨⟨h1, h2.trans hsum, h3, h4⟩, rfl⟩
    · rw [Rx.byte_body hphase hc, Progress.next, if_neg hc]
      exact ⟨by simp [Progress.Matches], rfl⟩
  | check raw hi =>
    obtain ⟨hphase, hsum, hrx, hraw⟩ := h
    rw [Rx.byte_sum hphase]
    cases hi with
    | none =>
      have hsum' : s.sum = [] := hsum
      unfold Rx.digit
      split
      · exact ⟨⟨hphase, rfl, hrx, hraw⟩, rfl⟩
      next heq => simp [hsum'] at heq
    | some d =>
      have hsum' : s.sum = [d] := hsum
      unfold Rx.digit
      split
      next heq => simp [hsum'] at heq
      next heq =>
        obtain ⟨rfl, -⟩ := List.cons.inj (hsum'.symm.trans heq)
        refine ⟨rfl, ?_⟩
        simp only [outcomes, Progress.next, List.map_cons, List.map_nil, Frame.outcome, Rx.dispatched, hrx, hraw]

theorem Progress.Matches.receive {p : Progress} {s : Rx} (h : p.Matches s) (data : List Byte) :
    (p.frames data).1.Matches (s.receive data).1 ∧
      outcomes (s.receive data).2 = (p.frames data).2.map Frame.outcome := by
  induction data generalizing p s with
  | nil => exact ⟨h, rfl⟩
  | cons c cs ih =>
    obtain ⟨hnext, hout⟩ := h.byte c
    obtain ⟨hrest, houts⟩ := ih hnext
    refine ⟨by simpa [Progress.frames, Rx.receive] using hrest, ?_⟩
    simp [Progress.frames, Rx.receive, outcomes_append, hout, houts]

/-- However the stream is cut into chunks and whenever a debugger connects, the stub makes of each packet what it
makes of it alone. -/
theorem Progress.Matches.run {p : Progress} {s : Rx} (h : p.Matches s) (is : List Input) :
    outcomes (s.run is).2 = (p.sent is).map Frame.outcome := by
  induction is generalizing p s with
  | nil => rfl
  | cons i is ih =>
    cases i with
    | rx data =>
      obtain ⟨hnext, hout⟩ := h.receive data
      have hrest := ih hnext
      simp [Rx.run, Progress.sent, outcomes_append, hout, hrest]
    | attach => exact ih (p := .between) (s := s.attach) rfl

/-- In every stream, however split, each escaped packet is dispatched with its whole unescaped body exactly when it
fits and its checksum is right, and is not dispatched otherwise, if and only if no over-long packet of the stream
carries the checksum of the part of it that was kept. -/
theorem packets_dispatched_iff (is : List Input) :
    List.Forall₂ (fun f out => f.Escaped → out = f.verdict) (Progress.between.sent is) (outcomes (Rx.init.run is).2) ↔
      ∀ f ∈ Progress.between.sent is, f.Escaped → ¬f.Cut := by
  have hmatch : Progress.between.Matches Rx.init := rfl
  rw [hmatch.run is, List.forall₂_map_right_iff, List.forall₂_same]
  constructor
  · intro h f hf hesc
    exact (Frame.outcome_eq_verdict_iff hesc).mp (h f hf hesc)
  · intro h f hf hesc
    exact (Frame.outcome_eq_verdict_iff hesc).mpr (h f hf hesc)

/-- A body of 1026 bytes whose last two sum to nothing. -/
def longFrame : Frame :=
  ⟨List.replicate 1024 0x41 ++ [0x80, 0x80], 0x30, 0x30⟩

/-- It is sent whole and escaped, is too long, and its first 1024 bytes are dispatched. -/
theorem longFrame_dispatched :
    Progress.between.sent [.rx longFrame.bytes] = [longFrame] ∧ longFrame.Escaped ∧ longFrame.verdict = none ∧
      outcomes (Rx.init.run [.rx longFrame.bytes]).2 = [some (List.replicate 1024 0x41)] := by
  decide +kernel

/-! ## Commands are delivered -/

/-- `hex_digit`. -/
def hexDigit (v : Byte) : Byte :=
  if v < 10 then 0x30 + v else 0x61 + (v - 10)

/-- A body as it is sent, with the checksum `send_packet` puts behind it. -/
def Frame.sealed (raw : List Byte) : Frame :=
  ⟨raw, hexDigit (raw.sum >>> 4), hexDigit (raw.sum &&& 0xF)⟩

theorem hexByte_hexDigit (x : Byte) : hexByte (hexDigit (x >>> 4)) (hexDigit (x &&& 0xF)) = some x := by
  revert x
  decide +kernel

theorem Frame.outcome_sealed {body : List Byte} (h : body.length ≤ maxPacket) :
    (Frame.sealed (escape body)).outcome = some body := by
  obtain ⟨-, hmarks, hback⟩ := escape_spec body
  have hcut : ¬(Frame.sealed (escape body)).Cut := by simp [Frame.Cut, Frame.sealed, hback, h]
  have hesc : (Frame.sealed (escape body)).Escaped := hmarks
  rw [(Frame.outcome_eq_verdict_iff hesc).mpr hcut, Frame.verdict]
  simpa [Frame.sealed, hback, h] using hexByte_hexDigit (escape body).sum

theorem Progress.sent_chunks (p : Progress) (chunks : List (List Byte)) :
    p.sent (chunks.map .rx) = (p.frames chunks.flatten).2 := by
  induction chunks generalizing p with
  | nil => rfl
  | cons data rest ih => simp [Progress.sent, Progress.frames_append, ih]

/-- Commands of any bytes that fit the buffer, escaped and sent one after another with anything but a `$` in front of
each, are dispatched each once, in order and unchanged, however the connection cuts the stream. -/
theorem commands_delivered (cmds : List (List Byte × List Byte)) (chunks : List (List Byte))
    (hgap : ∀ c ∈ cmds, dollar ∉ c.1) (hfits : ∀ c ∈ cmds, c.2.length ≤ maxPacket)
    (hsent : chunks.flatten = cmds.flatMap fun c => c.1 ++ (Frame.sealed (escape c.2)).bytes) :
    outcomes (Rx.init.run (chunks.map .rx)).2 = cmds.map fun c => some c.2 := by
  have hmatch : Progress.between.Matches Rx.init := rfl
  rw [hmatch.run, Progress.sent_chunks, hsent]
  clear hsent
  induction cmds with
  | nil => rfl
  | cons c cmds ih =>
    have hrest := ih (fun d hd => hgap d (.tail _ hd)) fun d hd => hfits d (.tail _ hd)
    rw [List.flatMap_cons, Progress.frames_packet _ _ _ (hgap c (.head _)) (escape_spec c.2).1]
    simp [hrest, Frame.outcome_sealed (hfits c (.head _))]

/-- An acknowledgement before `#`, which has to be escaped, and a cut within it. -/
theorem commands_delivered_hash :
    outcomes (Rx.init.run ([[0x2B, 0x24, 0x7D], [0x03, 0x23, 0x38, 0x30]].map .rx)).2 = [some [hash]] :=
  commands_delivered [([0x2B], [hash])] _ (by decide) (by decide) (by decide)

end Emu.Gdb
