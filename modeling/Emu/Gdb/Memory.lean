-- SUMMARY: The debug stub's memory writes: the M and X packets, what reaches guest memory and what is invalidated.
import Emu.Bus.Guest
import Emu.Gdb.Rx

/-! # Memory writes from the debugger

An `M` packet carries bytes in hex and an `X` packet carries them raw. Both are written one byte at a time through the
bus, and stop at the first byte that is refused. Translations of the range are dropped at the end, when all of it has
been written. -/

namespace Emu.Gdb

open Overlay

variable {δ : Type}

/-! ## Parsing -/

def comma : Byte := 0x2C
def colon : Byte := 0x3A

/-- The loop of `hex_to_u32`: the value modulo 2^32, and what is left. -/
def hexLoop (v : Word) : List Byte → Word × List Byte
  | [] => (v, [])
  | c :: cs =>
    match hexVal c with
    | none => (v, c :: cs)
    | some d => hexLoop (v <<< 4 ||| BitVec.ofNat 32 d) cs

/-- `hex_to_u32`. -/
def hexToU32 (s : List Byte) : Word × List Byte :=
  hexLoop 0 s

/-- What both packets begin with: an address, a length and a colon. -/
def header (p : List Byte) : Option (Word × Word × List Byte) :=
  match hexToU32 p with
  | (addr, c :: rest) =>
    if c ≠ comma then none
    else
      match hexToU32 rest with
      | (n, c' :: rest') => if c' ≠ colon then none else some (addr, n, rest')
      | (_, []) => none
  | (_, []) => none

/-! ## Writing -/

/-- The bytes pairs of hex digits stand for; `none` where they are malformed. -/
def hexPairs : List Byte → List (Option Byte)
  | hi :: lo :: rest => hexByte hi lo :: hexPairs rest
  | _ => []

/-- The loop both packets share. It stops at a byte that is malformed or that the bus refuses. -/
def writeLoop (b : Bus δ) (addr : Word) : List (Option Byte) → Bool × Bus δ
  | [] => (true, b)
  | none :: _ => (false, b)
  | some v :: vs =>
    match b.write addr 1 (v.setWidth 32) with
    | (.error _, b') => (false, b')
    | (.ok (), b') => writeLoop b' (addr + 1#32) vs

inductive Reply where
  | ok
  | err (code : Nat)
  deriving DecidableEq, Repr

/-- What handling a packet comes to: the reply, the bus, and the ranges given to `ops->invalidate`. -/
structure Handled (δ : Type) where
  reply : Reply
  bus : Bus δ
  invalidated : List (Word × Word)

/-- Write the bytes and, when all went well, invalidate the range. -/
def writeAll (b : Bus δ) (addr : Word) (vs : List (Option Byte)) (ranges : List (Word × Word)) : Handled δ :=
  match writeLoop b addr vs with
  | (true, b') => ⟨.ok, b', ranges⟩
  | (false, b') => ⟨.err 14, b', []⟩

/-- `M` and `X`. -/
inductive Packet where
  | hex (payload : List Byte)
  | bin (payload : List Byte)

def Packet.payload : Packet → List Byte
  | .hex p | .bin p => p

/-- The bytes of a packet, given how many it announces and what follows the colon; `none` when there are too few. -/
def Packet.carried (p : Packet) (n : Word) (rest : List Byte) : Option (List (Option Byte)) :=
  match p with
  | .hex _ => if n.toNat > rest.length / 2 then none else some (hexPairs (rest.take (2 * n.toNat)))
  | .bin _ => if n.toNat > rest.length then none else some ((rest.take n.toNat).map some)

/-- The range a packet has dropped once it is written: `X` does not do it for no bytes at all. -/
def Packet.ranges (p : Packet) (addr n : Word) : List (Word × Word) :=
  match p with
  | .hex _ => [(addr, n)]
  | .bin _ => if n ≠ 0 then [(addr, n)] else []

/-- The address, length and bytes of a packet that can be read. -/
def Packet.parse (p : Packet) : Option (Word × Word × List (Option Byte)) :=
  match header p.payload with
  | none => none
  | some (addr, n, rest) =>
    match p.carried n rest with
    | none => none
    | some vs => some (addr, n, vs)

/-- `cmd_mem_write` and `cmd_mem_write_bin`, on a core that has an `invalidate`. -/
def Packet.handle (b : Bus δ) (p : Packet) : Handled δ :=
  match p.parse with
  | none => ⟨.err 1, b, []⟩
  | some (addr, n, vs) => writeAll b addr vs (p.ranges addr n)

/-! ## What handling a packet ought to do -/

/-- The address lies in the range. -/
def InRange (a : Word) (rg : Word × Word) : Prop :=
  (a - rg.1).toNat < rg.2.toNat

/-- Every guest byte that changed is in a range that was invalidated, and an OK means that the bytes carried are at
the address and that nothing else has changed. -/
structure Right (b : Bus δ) (p : Packet) (h : Handled δ) : Prop where
  covered : ∀ a, h.bus.guest a ≠ b.guest a → ∃ rg ∈ h.invalidated, InRange a rg
  written : h.reply = .ok → ∃ addr n, ∃ bytes : List Byte, p.parse = some (addr, n, bytes.map some) ∧
    bytes.length = n.toNat ∧ h.bus.guest = overlay b.guest addr (bytes.map some)

/-! ## What reaches memory -/

/-- A byte written here lands in RAM. -/
def stores (b : Bus δ) (a : Word) : Bool :=
  match b.check a 1 permW with
  | none => false
  | some (r, _) => r.kind == .ram

/-- The bytes that are written before one is refused. -/
def landed (b : Bus δ) (addr : Word) : List (Option Byte) → List Byte
  | some v :: vs => if stores b addr then v :: landed b (addr + 1#32) vs else []
  | _ => []

/-- No byte of the packet is meant for a device. -/
def Spares (b : Bus δ) (addr : Word) : List (Option Byte) → Prop
  | [] => True
  | _ :: vs => (∀ r, b.find addr = some r → r.Memory) ∧ Spares b (addr + 1#32) vs

section
variable {b : Bus δ} {addr : Word} {vs : List (Option Byte)}

theorem stores_congr {b' : Bus δ} (h : b'.regions = b.regions) (a : Word) : stores b' a = stores b a := by
  have hcheck : b'.check a 1 permW = b.check a 1 permW := by rw [Bus.check, Bus.check, Bus.find, Bus.find, h]
  rw [stores, stores, hcheck]

theorem landed_congr {b' : Bus δ} (h : b'.regions = b.regions) (addr : Word) (vs : List (Option Byte)) :
    landed b' addr vs = landed b addr vs := by
  induction vs generalizing addr with
  | nil => rfl
  | cons v vs ih =>
    cases v with
    | none => rfl
    | some v => rw [landed, landed, stores_congr h, ih]

theorem Spares.congr {b' : Bus δ} (h : b'.regions = b.regions) (hs : Spares b addr vs) : Spares b' addr vs := by
  induction vs generalizing addr with
  | nil => trivial
  | cons v vs ih =>
    obtain ⟨hmem, hrest⟩ := hs
    refine ⟨?_, ih hrest⟩
    rw [Bus.find, h]
    exact hmem

/-- A byte of a RAM region that the check lets through is one byte of guest memory. -/
theorem guest_write_of_stores (hun : b.Unshared) (h : stores b addr = true) (v : Byte) :
    (b.write addr 1 (v.setWidth 32)).1 = .ok () ∧
      (b.write addr 1 (v.setWidth 32)).2.guest = Function.update b.guest addr (some v) ∧
      (b.write addr 1 (v.setWidth 32)).2.regions = b.regions := by
  rw [stores] at h
  split at h
  · cases h
  next r off hcheck =>
    have hkind : r.kind = .ram := by simpa using h
    obtain ⟨hfind, rfl, -⟩ := Bus.check_some hcheck
    have hbyte : (b.order (v.setWidth 32) 1).setWidth 8 = v := by
      have hv : (v.setWidth 32).setWidth 8 = v := by
        apply BitVec.eq_of_toNat_eq
        have := v.isLt
        simp only [BitVec.toNat_setWidth]
        omega
      cases hbe : b.bigEndian <;> simpa [Bus.order, hbe, bswap] using hv
    have hwrite : b.write addr 1 (v.setWidth 32) =
        (.ok (), { b with mem := Function.update b.mem (r.hostAt (addr - r.base)) v }) := by
      simp only [Bus.write, hcheck, hkind, HostMem.store, hbyte]
    rw [hwrite]
    exact ⟨rfl, Bus.guest_update (hun r (Bus.find_some hfind).1 (.inl hkind)) hfind (.inl hkind) v, rfl⟩

/-- A byte meant for memory that does not land in RAM is refused, and changes nothing. -/
theorem write_refused (hmem : ∀ r, b.find addr = some r → r.Memory) (h : stores b addr = false) (v : Word) :
    b.write addr 1 v = (.error .store, b) := by
  rw [Bus.write]
  rw [stores] at h
  split
  · rfl
  next r off hcheck =>
    rw [hcheck] at h
    obtain hk | hk := hmem r (Bus.check_some hcheck).1
    · simp [hk] at h
    · simp only [hk]

theorem landed_length_le (b : Bus δ) (addr : Word) (vs : List (Option Byte)) : (landed b addr vs).length ≤ vs.length := by
  induction vs generalizing addr with
  | nil => exact le_rfl
  | cons v vs ih =>
    cases v with
    | none => exact Nat.zero_le _
    | some v =>
      rw [landed]
      split_ifs
      · exact Nat.succ_le_succ (ih (addr + 1#32))
      · exact Nat.zero_le _

/-- When all the bytes land, they are the ones carried. -/
theorem landed_eq_of_length (h : (landed b addr vs).length = vs.length) : vs = (landed b addr vs).map some := by
  induction vs generalizing addr with
  | nil => rfl
  | cons v vs ih =>
    cases v with
    | none => simp [landed] at h
    | some v =>
      rw [landed] at h ⊢
      split_ifs at h ⊢ with hs
      rw [List.map_cons, ← ih (by simpa using h)]

/-- The loop writes the bytes that land, and says whether these were all. -/
theorem writeLoop_spec (hun : b.Unshared) (hs : Spares b addr vs) (hlen : vs.length ≤ 2 ^ 32) :
    (writeLoop b addr vs).2.guest = overlay b.guest addr ((landed b addr vs).map some) ∧
      ((writeLoop b addr vs).1 = true ↔ (landed b addr vs).length = vs.length) := by
  induction vs generalizing b addr with
  | nil => simp [writeLoop, landed]
  | cons v vs ih =>
    cases v with
    | none => simp [writeLoop, landed]
    | some v =>
      obtain ⟨hmem, hrest⟩ := hs
      rw [List.length_cons] at hlen
      rw [writeLoop, landed]
      cases hst : stores b addr with
      | false =>
        rw [write_refused hmem hst]
        simp
      | true =>
        obtain ⟨hok, hguest, hregions⟩ := guest_write_of_stores hun hst v
        have hlanded := landed_length_le b (addr + 1#32) vs
        have hspares : Spares (b.write addr 1 (v.setWidth 32)).2 (addr + 1#32) vs := hrest.congr hregions
        obtain ⟨ihguest, ihok⟩ := ih (hun.congr hregions) hspares (by omega)
        rw [landed_congr hregions] at ihguest ihok
        split
        next e b' heq =>
          rw [heq] at hok
          cases hok
        next b' heq =>
          rw [heq] at ihguest ihok hguest
          refine ⟨?_, by simpa using ihok⟩
          rw [ihguest, hguest, if_pos rfl, List.map_cons, overlay_cons (by rw [List.length_map]; omega)]

end

/-! ## Packets -/

theorem length_hexPairs {l : List Byte} {n : Nat} (h : l.length = 2 * n) : (hexPairs l).length = n := by
  induction n generalizing l with
  | zero =>
    obtain rfl := List.length_eq_zero_iff.mp h
    rfl
  | succ n ih =>
    match l with
    | [] => simp at h
    | [_] => simp at h; omega
    | _ :: _ :: rest => simpa [hexPairs] using ih (l := rest) (by simp at h; omega)

theorem Packet.parse_length {p : Packet} {addr n : Word} {vs : List (Option Byte)}
    (h : p.parse = some (addr, n, vs)) : vs.length = n.toNat := by
  rw [Packet.parse] at h
  split at h
  · cases h
  · split at h
    · cases h
    next hcarried =>
      obtain ⟨rfl, rfl, rfl⟩ : _ ∧ _ ∧ _ := by simpa using h
      cases p with
      | hex payload =>
        rw [Packet.carried] at hcarried
        split_ifs at hcarried with hn
        obtain rfl := Option.some.inj hcarried
        apply length_hexPairs
        rw [List.length_take]
        omega
      | bin payload =>
        rw [Packet.carried] at hcarried
        split_ifs at hcarried with hn
        obtain rfl := Option.some.inj hcarried
        rw [List.length_map, List.length_take]
        omega

/-- All the bytes of the packet land in RAM, or those that do before one is refused are what is already there. -/
def Clean (b : Bus δ) (addr : Word) (vs : List (Option Byte)) : Prop :=
  (landed b addr vs).length = vs.length ∨ overlay b.guest addr ((landed b addr vs).map some) = b.guest

/-- What a whole packet changes is in its range. -/
theorem covered_of_all {b : Bus δ} {p : Packet} {addr n a : Word} {bytes : List Byte} (hlen : bytes.length = n.toNat)
    (hne : overlay b.guest addr (bytes.map some) a ≠ b.guest a) : ∃ rg ∈ p.ranges addr n, InRange a rg := by
  have hin : (a - addr).toNat < n.toNat := by
    by_contra hout
    exact hne (overlay_of_le (by rw [List.length_map]; omega))
  have hn : n ≠ 0 := by
    rintro rfl
    exact absurd hin (Nat.not_lt_zero _)
  refine ⟨(addr, n), ?_, hin⟩
  cases p with
  | hex payload => exact List.mem_singleton_self _
  | bin payload =>
    rw [Packet.ranges, if_pos hn]
    exact List.mem_singleton_self _

/-- A bus with four bytes of RAM. -/
def smallBus : Bus Unit :=
  ⟨[⟨0x80000000, 4, 0x10000, .ram, permR ||| permW ||| permX, wAny⟩], fun _ => 0, (),
    ⟨fun _ m _ _ _ => (.ok 0, (), m), fun _ m _ _ _ _ => (.ok (), (), m)⟩, false⟩

theorem smallBus_unshared : smallBus.Unshared :=
  Bus.unshared_of_buffersApart (by decide) (by decide)

theorem smallBus_spares (addr : Word) (vs : List (Option Byte)) : Spares smallBus addr vs := by
  induction vs generalizing addr with
  | nil => trivial
  | cons v vs ih =>
    refine ⟨?_, ih _⟩
    intro r hr
    obtain ⟨hmem, -⟩ := Bus.find_some hr
    obtain rfl := List.mem_singleton.mp hmem
    exact .inl rfl

/-- `X80000002,2:AB`: both bytes have a place. -/
def fittingPacket : Packet :=
  .bin [0x38, 0x30, 0x30, 0x30, 0x30, 0x30, 0x30, 0x32, 0x2C, 0x32, 0x3A, 0x41, 0x42]

/-- `X80000003,2:AB`: the first byte has a place and the second one has none. -/
def overrunPacket : Packet :=
  .bin [0x38, 0x30, 0x30, 0x30, 0x30, 0x30, 0x30, 0x33, 0x2C, 0x32, 0x3A, 0x41, 0x42]

end Emu.Gdb
