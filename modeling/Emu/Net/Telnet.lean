-- SUMMARY: The receive side of the telnet console: the filter for in-band commands, against the stream's grammar.
import Emu.Ir.Syntax
import Emu.Lib.RingBuffer

/-! # Receiving

A telnet stream carries data bytes and commands. A command begins with IAC, 255: with WILL, WONT, DO or DONT it has an
option byte, otherwise it ends after its second byte, and IAC IAC is not a command but stands for the data byte 255.
The console filters a stream byte by byte, with a state that outlives the segment, and puts what is left in a ring.
It takes IAC IAC for a command with an option byte: the data byte is lost, and so is the byte after it. -/

namespace Emu.Net

def telnetIac : Byte := 255
def telnetSb : Byte := 250
def telnetSe : Byte := 240
def telnetWill : Byte := 251

/-! ## The filter -/

inductive Iac where
  | none | cmd | opt
  deriving DecidableEq, Repr

/-- The receive side: `g_iac_state` and the ring of `RX_SIZE` bytes. -/
structure Rx where
  iac : Iac
  ring : RingBuffer 32 8 Byte

namespace Rx

/-- A byte of data. With the ring full it is dropped. -/
def store (s : Rx) (c : Byte) : Rx :=
  if h : s.ring.held < 2 ^ 8 then { s with ring := s.ring.push c h } else s

/-- `telnet_rx_byte`. -/
def byte (s : Rx) (c : Byte) : Rx :=
  match s.iac with
  | .cmd => { s with iac := if telnetSb ≤ c ∧ c ≠ telnetSe then .opt else .none }
  | .opt => { s with iac := .none }
  | .none => if c = telnetIac then { s with iac := .cmd } else s.store c

/-- The bytes of one buffer after another. -/
def bytes (s : Rx) : List Byte → Rx
  | [] => s
  | c :: cs => (s.byte c).bytes cs

/-- `telnet_recv`, for a segment in a chain of buffers. -/
def recv (s : Rx) (segment : List (List Byte)) : Rx :=
  s.bytes segment.flatten

/-- `emu_net_console_getc`. -/
def getc (s : Rx) : Option Byte × Rx :=
  if h : 1 ≤ s.ring.held then (some (s.ring.cells (RingBuffer.cell 8 s.ring.tail)), { s with ring := s.ring.drop 1 h })
  else (none, s)

/-- A connection begins: `telnet_accept` drops the one before, and with it the filter's state. -/
def accept (s : Rx) : Rx := { s with iac := .none }

end Rx

/-- What happens during a connection: a segment arrives, or the guest reads a byte. -/
inductive RxInput where
  | segment (buffers : List (List Byte))
  | read

namespace Rx

/-- The bytes the guest has read, and what is left. -/
def run (s : Rx) : List RxInput → List Byte × Rx
  | [] => ([], s)
  | .segment bs :: is => (s.recv bs).run is
  | .read :: is => (s.getc.1.toList ++ (s.getc.2.run is).1, (s.getc.2.run is).2)

/-- The ring has room whenever a byte arrives. -/
def Roomy (s : Rx) : List Byte → Prop
  | [] => True
  | c :: cs => s.ring.held < 2 ^ 8 ∧ (s.byte c).Roomy cs

instance decidableRoomy : (s : Rx) → (cs : List Byte) → Decidable (s.Roomy cs)
  | _, [] => .isTrue trivial
  | s, c :: cs => @instDecidableAnd _ _ _ (decidableRoomy (s.byte c) cs)

/-- The ring is never full. -/
def NeverFull (s : Rx) : List RxInput → Prop
  | [] => True
  | .segment bs :: is => s.Roomy bs.flatten ∧ (s.recv bs).NeverFull is
  | .read :: is => s.getc.2.NeverFull is

instance decidableNeverFull : (s : Rx) → (is : List RxInput) → Decidable (s.NeverFull is)
  | _, [] => .isTrue trivial
  | s, .segment bs :: is => @instDecidableAnd _ _ _ (decidableNeverFull (s.recv bs) is)
  | s, .read :: is => decidableNeverFull s.getc.2 is

end Rx

/-- The stream of a connection. -/
def streamOf (is : List RxInput) : List Byte :=
  is.flatMap fun
    | .segment bs => bs.flatten
    | .read => []

/-! ## The grammar -/

/-- What a stream is made of. -/
inductive Item where
  | data (b : Byte)
  | escaped
  | option (verb opt : Byte)
  | command (c : Byte)
  deriving DecidableEq, Repr

/-- The data an item stands for. -/
def Item.bytes : Item → List Byte
  | .data b => [b]
  | .escaped => [telnetIac]
  | .option _ _ => []
  | .command _ => []

/-- The items of a stream. One that is not complete yet is left out. -/
def items : List Byte → List Item
  | [] => []
  | b :: rest =>
    if b ≠ telnetIac then .data b :: items rest
    else
      match rest with
      | [] => []
      | c :: rest =>
        if c = telnetIac then .escaped :: items rest
        else if telnetWill ≤ c then
          match rest with
          | [] => []
          | opt :: rest => .option c opt :: items rest
        else .command c :: items rest

/-- The data bytes of a stream. -/
def dataOf (bs : List Byte) : List Byte := (items bs).flatMap Item.bytes

/-! ## What the filter keeps -/

namespace Iac

/-- The state after a byte. -/
def next (i : Iac) (c : Byte) : Iac :=
  match i with
  | .cmd => if telnetSb ≤ c ∧ c ≠ telnetSe then .opt else .none
  | .opt => .none
  | .none => if c = telnetIac then .cmd else .none

/-- The byte is taken for data. -/
def takes (i : Iac) (c : Byte) : Bool := i = .none && c ≠ telnetIac

/-- What the filter keeps of a stream. -/
def kept (i : Iac) : List Byte → List Byte
  | [] => []
  | c :: cs => (if i.takes c then [c] else []) ++ (i.next c).kept cs

end Iac

namespace Rx

variable {s : Rx}

theorem byte_iac (c : Byte) : (s.byte c).iac = s.iac.next c := by
  rw [byte]
  cases hs : s.iac with
  | cmd => rfl
  | opt => rfl
  | none =>
    rw [Iac.next]
    dsimp only
    split_ifs with hc
    · rfl
    · rw [store]
      split_ifs <;> exact hs

theorem byte_ring {c : Byte} (h : s.ring.held < 2 ^ 8) :
    (s.byte c).ring.toList = s.ring.toList ++ if s.iac.takes c then [c] else [] := by
  rw [byte, Iac.takes]
  cases s.iac with
  | cmd => exact (List.append_nil _).symm
  | opt => exact (List.append_nil _).symm
  | none =>
    dsimp only
    split_ifs with hc htakes htakes
    · simp [hc] at htakes
    · exact (List.append_nil _).symm
    · rw [store, dif_pos h]
      exact s.ring.toList_push c h
    · simp [hc] at htakes

/-- With room in the ring, a stretch of the stream adds to it what the filter keeps. -/
theorem bytes_ring {cs rest : List Byte} (h : s.Roomy cs) :
    (s.bytes cs).ring.toList ++ (s.bytes cs).iac.kept rest = s.ring.toList ++ s.iac.kept (cs ++ rest) := by
  induction cs generalizing s with
  | nil => rfl
  | cons c cs ih =>
    calc (s.bytes (c :: cs)).ring.toList ++ (s.bytes (c :: cs)).iac.kept rest
        = (s.byte c).ring.toList ++ (s.byte c).iac.kept (cs ++ rest) := ih h.2
      _ = (s.ring.toList ++ if s.iac.takes c then [c] else []) ++ (s.iac.next c).kept (cs ++ rest) := by
        rw [byte_ring h.1, byte_iac]
      _ = s.ring.toList ++ s.iac.kept (c :: cs ++ rest) := by
        rw [List.append_assoc]
        rfl

/-- A read takes the oldest byte. -/
theorem getc_ring (s : Rx) : s.getc.1.toList ++ s.getc.2.ring.toList = s.ring.toList := by
  rw [getc]
  split_ifs with h
  · change [s.ring.cells (RingBuffer.cell 8 s.ring.tail)] ++ (s.ring.drop 1 h).toList = s.ring.toList
    have hfirst : [s.ring.cells (RingBuffer.cell 8 s.ring.tail)] = s.ring.toList.take 1 := (RingBuffer.take_window _ _ h).symm
    rw [hfirst, RingBuffer.toList_drop, List.take_append_drop]
  · rfl

theorem getc_iac (s : Rx) : s.getc.2.iac = s.iac := by
  rw [getc]
  split_ifs <;> rfl

/-- What the guest has read and can still read is what the filter keeps of the stream. -/
theorem run_ring {is : List RxInput} (h : s.NeverFull is) :
    (s.run is).1 ++ (s.run is).2.ring.toList = s.ring.toList ++ s.iac.kept (streamOf is) := by
  induction is generalizing s with
  | nil => exact (List.append_nil _).symm
  | cons i is ih =>
    cases i with
    | segment bs =>
      calc (s.run (.segment bs :: is)).1 ++ (s.run (.segment bs :: is)).2.ring.toList
          = (s.recv bs).ring.toList ++ (s.recv bs).iac.kept (streamOf is) := ih h.2
        _ = s.ring.toList ++ s.iac.kept (bs.flatten ++ streamOf is) := bytes_ring h.1
    | read =>
      calc (s.run (.read :: is)).1 ++ (s.run (.read :: is)).2.ring.toList
          = s.getc.1.toList ++ ((s.getc.2.run is).1 ++ (s.getc.2.run is).2.ring.toList) := List.append_assoc ..
        _ = (s.getc.1.toList ++ s.getc.2.ring.toList) ++ s.getc.2.iac.kept (streamOf is) := by
          rw [ih h, List.append_assoc]
        _ = s.ring.toList ++ s.iac.kept (streamOf is) := by rw [getc_ring, getc_iac]

end Rx

/-! ## The filter and the grammar -/

/-- The filter never takes IAC for data. -/
theorem Iac.iac_not_kept (i : Iac) (bs : List Byte) : telnetIac ∉ i.kept bs := by
  induction bs generalizing i with
  | nil => exact List.not_mem_nil
  | cons c cs ih =>
    rw [kept, List.mem_append]
    rintro (hc | hcs)
    · split_ifs at hc with htakes
      · rw [← List.mem_singleton.mp hc] at htakes
        simp [takes] at htakes
      · cases hc
    · exact ih _ hcs

/-- The second byte of a command with an option. -/
theorem Iac.next_cmd_option {c : Byte} (h : telnetWill ≤ c) : Iac.cmd.next c = .opt := by
  revert c
  decide

/-- The second byte of any other command but a subnegotiation. -/
theorem Iac.next_cmd_plain {c : Byte} (h : ¬telnetWill ≤ c) (hsb : c ≠ telnetSb) : Iac.cmd.next c = .none := by
  revert c
  decide

theorem Iac.kept_iac (bs : List Byte) : Iac.none.kept (telnetIac :: bs) = Iac.cmd.kept bs := rfl

theorem Iac.kept_cmd (c : Byte) (bs : List Byte) : Iac.cmd.kept (c :: bs) = (Iac.cmd.next c).kept bs := rfl

theorem Iac.kept_opt (c : Byte) (bs : List Byte) : Iac.opt.kept (c :: bs) = Iac.none.kept bs := rfl

/-- Without escaped bytes and subnegotiations the filter follows the grammar. -/
theorem kept_eq_dataOf {bs : List Byte} (hesc : .escaped ∉ items bs) (hsub : .command telnetSb ∉ items bs) :
    Iac.none.kept bs = dataOf bs := by
  rw [dataOf]
  fun_induction items bs with
  | case1 => rfl
  | case2 b rest hb ih =>
    rw [List.mem_cons, not_or] at hesc hsub
    have htakes : Iac.none.takes b = true := by simp [Iac.takes, hb]
    have hnext : Iac.none.next b = .none := if_neg hb
    rw [Iac.kept, htakes, hnext, ih hesc.2 hsub.2]
    rfl
  | case3 b hb =>
    rw [not_not.mp hb]
    rfl
  | case4 => exact absurd (List.mem_cons_self ..) hesc
  | case5 b hb c _ hwill =>
    rw [not_not.mp hb, Iac.kept_iac, Iac.kept_cmd]
    rfl
  | case6 b hb c _ hwill opt rest ih =>
    rw [List.mem_cons, not_or] at hesc hsub
    rw [not_not.mp hb, Iac.kept_iac, Iac.kept_cmd, Iac.next_cmd_option hwill, Iac.kept_opt, ih hesc.2 hsub.2]
    rfl
  | case7 b hb c rest _ hplain ih =>
    rw [List.mem_cons, not_or] at hesc hsub
    have hsb : c ≠ telnetSb := fun hc => hsub.1 (congrArg Item.command hc.symm)
    rw [not_not.mp hb, Iac.kept_iac, Iac.kept_cmd, Iac.next_cmd_plain hplain hsb, ih hesc.2 hsub.2]
    rfl

/-- An escaped byte is data. -/
theorem iac_mem_dataOf {bs : List Byte} (h : .escaped ∈ items bs) : telnetIac ∈ dataOf bs :=
  List.mem_flatMap.mpr ⟨.escaped, h, List.mem_singleton_self _⟩

/-- A connection's data reaches the guest exactly when no data byte is escaped: whatever the segments, as long as the
ring is never full, and for a stream without subnegotiations. -/
theorem telnet_delivers (s : Rx) (is : List RxInput) (hfull : s.accept.NeverFull is)
    (hsub : .command telnetSb ∉ items (streamOf is)) :
    (s.accept.run is).1 ++ (s.accept.run is).2.ring.toList = s.ring.toList ++ dataOf (streamOf is) ↔
      .escaped ∉ items (streamOf is) := by
  have hrun : (s.accept.run is).1 ++ (s.accept.run is).2.ring.toList = s.ring.toList ++ Iac.none.kept (streamOf is) :=
    Rx.run_ring hfull
  rw [hrun, List.append_cancel_left_eq]
  constructor
  · intro hkept hesc
    exact Iac.iac_not_kept .none _ (hkept ▸ iac_mem_dataOf hesc)
  · intro hesc
    exact kept_eq_dataOf hesc hsub

/-! ## A doubled IAC -/

/-- Nothing received yet. -/
def Rx.empty : Rx := ⟨.none, .empty (by decide) fun _ => 0⟩

/-- `IAC IAC A B`, in two segments. -/
def doubledIac : List RxInput := [.segment [[telnetIac]], .segment [[telnetIac, 0x41, 0x42]]]

/-- It stands for 255, A and B; only B arrives. -/
theorem doubledIac_lost :
    Rx.empty.NeverFull doubledIac ∧ dataOf (streamOf doubledIac) = [telnetIac, 0x41, 0x42] ∧
      (Rx.empty.run doubledIac).1 ++ (Rx.empty.run doubledIac).2.ring.toList = [0x42] := by
  decide

/-- A command in the middle of data, split across segments, with a read in between. -/
def splitCommand : List RxInput := [.segment [[0x41, telnetIac]], .read, .segment [[telnetWill], [0x01, 0x42]]]

theorem splitCommand_delivered :
    (Rx.empty.accept.run splitCommand).1 ++ (Rx.empty.accept.run splitCommand).2.ring.toList =
        Rx.empty.ring.toList ++ dataOf (streamOf splitCommand) ↔ .escaped ∉ items (streamOf splitCommand) :=
  telnet_delivers Rx.empty splitCommand (by decide) (by decide)

end Emu.Net
