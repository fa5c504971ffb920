-- SUMMARY: The guest physical address space: regions, the check every access goes through, and what lies behind.
import Mathlib
import Emu.Ir.Syntax

/-! # The bus

A bus is a table of disjoint regions. An access is served by the region that holds its first byte, provided the
whole access lies inside it and the region allows the kind of access and its width. RAM and ROM are host memory;
every other region is answered by the devices. This is the bus without its fast paths. -/

namespace Emu

/-- A host address. -/
abbrev Ptr := BitVec 64

/-- `emu_access_t`. -/
inductive Access where
  | fetch | load | store
  deriving DecidableEq, Repr

/-- `emu_fault_t`, without the value that means there was none. -/
inductive Fault where
  | fetch | load | store
  deriving DecidableEq, Repr

/-- `emu_region_kind_t`. -/
inductive RegionKind where
  | ram | rom | mmio | passthru
  deriving DecidableEq, Repr

def permR : Byte := 0x1
def permW : Byte := 0x2
def permX : Byte := 0x4

def w8 : Byte := 0x1
def w16 : Byte := 0x2
def w32 : Byte := 0x4
def wAny : Byte := w8 ||| w16 ||| w32

/-- `emu_region_t`: `host` is the buffer behind RAM and ROM, zero where there is none. -/
structure Region where
  base : Word
  size : Word
  host : Ptr
  kind : RegionKind
  perm : Byte
  widths : Byte
  deriving DecidableEq, Repr

/-! ## Host memory -/

abbrev HostMem := Ptr → Byte

/-- The little-endian value of `n` bytes at `p`. -/
def HostMem.load (m : HostMem) (p : Ptr) : Nat → Word
  | 0 => 0
  | n + 1 => (m p).setWidth 32 ||| HostMem.load m (p + 1) n <<< 8

/-- The low `n` bytes of `val`, stored at `p`. -/
def HostMem.store (m : HostMem) (p : Ptr) (val : Word) : Nat → HostMem
  | 0 => m
  | n + 1 => HostMem.store (Function.update m p (val.setWidth 8)) (p + 1) (val >>> 8) n

/-- `memcpy` into host memory. -/
def HostMem.copy (m : HostMem) (p : Ptr) : List Byte → HostMem
  | [] => m
  | byte :: bytes => HostMem.copy (Function.update m p byte) (p + 1) bytes

/-- `emu_bswap`. -/
def bswap (v : Word) (size : Nat) : Word :=
  match size with
  | 1 => v
  | 2 => ((v &&& 0xFF) <<< 8) ||| ((v >>> 8) &&& 0xFF)
  | _ => (v <<< 24) ||| ((v &&& 0xFF00) <<< 8) ||| ((v >>> 8) &&& 0xFF00) ||| (v >>> 24)

/-- The callbacks behind the regions that are not memory. An access may change the devices' state, and guest memory
too. -/
structure Devices (δ : Type) where
  read : δ → HostMem → Region → Word → Nat → Except Fault Word × δ × HostMem
  write : δ → HostMem → Region → Word → Nat → Word → Except Fault Unit × δ × HostMem

/-- `emu_bus_t`. -/
structure Bus (δ : Type) where
  regions : List Region
  mem : HostMem
  dev : δ
  devices : Devices δ
  /-- The byte order of the guest. -/
  bigEndian : Bool

/-! ## Region lookup -/

/-- One unsigned comparison tests both ends: an address below the base wraps. -/
def Region.inRegion (r : Region) (addr : Word) : Bool :=
  decide (addr - r.base < r.size)

/-- A region `emu_bus_add` accepts: at least a word, and not past the end of the address space. -/
def Region.Valid (r : Region) : Prop :=
  4 ≤ r.size.toNat ∧ r.base.toNat + r.size.toNat ≤ 2 ^ 32

/-- The whole access lies in the region. -/
def Region.Contains (r : Region) (addr : Word) (size : Nat) : Prop :=
  r.base.toNat ≤ addr.toNat ∧ addr.toNat + size ≤ r.base.toNat + r.size.toNat

/-- The host byte behind an address of the region. -/
def Region.hostAt (r : Region) (off : Word) : Ptr :=
  r.host + off.setWidth 64

/-- How many of the bytes to be copied to `addr` the region has room for. -/
def Region.room (r : Region) (addr : Word) (src : List Byte) : Nat :=
  min (r.size - (addr - r.base)).toNat src.length

theorem Region.room_pos {r : Region} {addr : Word} {src : List Byte} (h : r.inRegion addr = true)
    (hsrc : 0 < src.length) : 0 < r.room addr src := by
  rw [Region.inRegion, decide_eq_true_iff] at h
  have hroom : 0 < (r.size - (addr - r.base)).toNat := by bv_omega
  exact Nat.lt_min.mpr ⟨hroom, hsrc⟩

/-- The width bit an access size asks for. -/
def widthBit (size : Nat) : Byte :=
  if size = 4 then w32 else if size = 2 then w16 else w8

namespace Bus

variable {δ : Type} {b : Bus δ} {r : Region} {addr a : Word} {size : Nat} {perm : Byte}

/-- `emu_bus_find`. -/
def find (b : Bus δ) (addr : Word) : Option Region :=
  b.regions.find? (·.inRegion addr)

/-- `check`: the region, and the offset into it, of an access that may go ahead. -/
def check (b : Bus δ) (addr : Word) (size : Nat) (perm : Byte) : Option (Region × Word) :=
  match b.find addr with
  | none => none
  | some r =>
    if addr - r.base > r.size - BitVec.ofNat 32 size then none  -- the access straddles the region's end
    else if r.perm &&& perm = 0 then none
    else if r.widths &&& widthBit size = 0 then none
    else some (r, addr - r.base)

/-- `EMU_BUS_ORDER`: what memory holds is in the guest's byte order. -/
def order (b : Bus δ) (v : Word) (size : Nat) : Word :=
  if b.bigEndian then bswap v size else v

/-- `emu_bus_read`. -/
def read (b : Bus δ) (addr : Word) (size : Nat) : Except Fault Word × Bus δ :=
  match b.check addr size permR with
  | none => (.error .load, b)
  | some (r, off) =>
    match r.kind with
    | .ram | .rom => (.ok (b.order (b.mem.load (r.hostAt off) size) size), b)
    | .mmio | .passthru =>
      let res := b.devices.read b.dev b.mem r off size
      (res.1, { b with dev := res.2.1, mem := res.2.2 })

/-- `emu_bus_write`. -/
def write (b : Bus δ) (addr : Word) (size : Nat) (val : Word) : Except Fault Unit × Bus δ :=
  match b.check addr size permW with
  | none => (.error .store, b)
  | some (r, off) =>
    match r.kind with
    | .ram => (.ok (), { b with mem := b.mem.store (r.hostAt off) (b.order val size) size })
    | .rom => (.error .store, b)
    | .mmio | .passthru =>
      let res := b.devices.write b.dev b.mem r off size val
      (res.1, { b with dev := res.2.1, mem := res.2.2 })

/-- `emu_bus_fetch16`: a virtual device is never executed from, and what lies behind a passed-through region is read
as memory is. -/
def fetch16 (b : Bus δ) (addr : Word) : Except Fault Word :=
  match b.check addr 2 permX with
  | none => .error .fetch
  | some (r, off) =>
    match r.kind with
    | .ram | .rom => .ok (b.order (b.mem.load (r.hostAt off) 2) 2)
    | .passthru => (b.devices.read b.dev b.mem r off 2).1
    | .mmio => .error .fetch

/-! ## Bulk copies -/

theorem find_some (h : b.find addr = some r) : r ∈ b.regions ∧ r.inRegion addr = true :=
  ⟨List.mem_of_find?_eq_some h, by simpa using List.find?_some h⟩

/-- The loop of `emu_bus_load`: it fills the region it is in, then goes on in the one that follows. -/
def loadLoop (b : Bus δ) (addr : Word) (src : List Byte) : Bool × Bus δ :=
  if hsrc : src = [] then (true, b)
  else
    match h : b.find addr with
    | none => (false, b)
    | some r =>
      have : 0 < r.room addr src := Region.room_pos (find_some h).2 (List.length_pos_iff.mpr hsrc)
      have : 0 < src.length := List.length_pos_iff.mpr hsrc
      if r.kind ≠ .ram ∧ r.kind ≠ .rom then (false, b)
      else
        loadLoop { b with mem := b.mem.copy (r.hostAt (addr - r.base)) (src.take (r.room addr src)) }
          (addr + BitVec.ofNat 32 (r.room addr src)) (src.drop (r.room addr src))
termination_by src.length

theorem loadLoop_none {src : List Byte} (hsrc : src ≠ []) (h : b.find addr = none) :
    b.loadLoop addr src = (false, b) := by
  rw [loadLoop, dif_neg hsrc]
  split
  · rfl
  next r hr => cases h.symm.trans hr

theorem loadLoop_some {src : List Byte} (hsrc : src ≠ []) (h : b.find addr = some r) :
    b.loadLoop addr src =
      if r.kind ≠ .ram ∧ r.kind ≠ .rom then (false, b)
      else
        loadLoop { b with mem := b.mem.copy (r.hostAt (addr - r.base)) (src.take (r.room addr src)) }
          (addr + BitVec.ofNat 32 (r.room addr src)) (src.drop (r.room addr src)) := by
  rw [loadLoop, dif_neg hsrc]
  split
  next hnone => cases h.symm.trans hnone
  next r' hr =>
    obtain rfl := Option.some.inj (h.symm.trans hr)
    rfl

/-- `emu_bus_load`, without what it does to the fast paths. -/
def load (b : Bus δ) (addr : Word) (src : List Byte) : Bool × Bus δ :=
  if addr.toNat + src.length > 0x100000000 then (false, b) else b.loadLoop addr src

/-! ## Setup -/

/-- `EMU_MAX_REGIONS`. -/
def maxRegions : Nat := 16

/-- The overlap test of `emu_bus_add`, on the first and last addresses of the two regions. -/
def overlaps (r e : Region) : Bool :=
  decide (r.base ≤ e.base + e.size - 1) && decide (e.base ≤ r.base + r.size - 1)

/-- `emu_bus_add`: `none` when the region is refused. -/
def add (b : Bus δ) (r : Region) : Option (Bus δ) :=
  if b.regions.length ≥ maxRegions ∨ r.size < 4 ∨ r.base.toNat + r.size.toNat > 0x100000000 then none
  else if b.regions.any (overlaps r) then none
  else some { b with regions := b.regions ++ [r] }

/-! ## What set-up guarantees -/

/-- No address lies in two regions. -/
def Apart (r e : Region) : Prop :=
  ∀ addr, r.inRegion addr = true → e.inRegion addr = true → False

/-- The region table of a bus that `emu_bus_add` built. -/
structure Wf (b : Bus δ) : Prop where
  valid : ∀ r ∈ b.regions, r.Valid
  apart : b.regions.Pairwise Apart

theorem Wf.congr {b' : Bus δ} (hb : b.Wf) (h : b'.regions = b.regions) : b'.Wf :=
  ⟨by rw [h]; exact hb.valid, by rw [h]; exact hb.apart⟩

theorem inRegion_iff {r : Region} (hr : r.Valid) :
    r.inRegion addr = true ↔ r.base.toNat ≤ addr.toNat ∧ addr.toNat < r.base.toNat + r.size.toNat := by
  obtain ⟨-, hend⟩ := hr
  have haddr := addr.isLt
  rw [Region.inRegion, decide_eq_true_iff, BitVec.lt_def, BitVec.toNat_sub]
  omega

/-- The test on first and last addresses finds every overlap, since no region wraps. -/
theorem apart_of_not_overlaps {r e : Region} (hr : r.Valid) (he : e.Valid) (h : overlaps r e = false) :
    Apart r e := by
  intro addr hra hea
  obtain ⟨hr0, hr1⟩ := (inRegion_iff hr).mp hra
  obtain ⟨he0, he1⟩ := (inRegion_iff he).mp hea
  obtain ⟨hrs, hre⟩ := hr
  obtain ⟨hes, hee⟩ := he
  rw [overlaps, Bool.and_eq_false_iff, decide_eq_false_iff_not, decide_eq_false_iff_not] at h
  bv_omega

theorem add_wf {b' : Bus δ} (hb : b.Wf) (h : b.add r = some b') : b'.Wf := by
  rw [add] at h
  split_ifs at h with hbad hover
  obtain rfl := Option.some.inj h
  push Not at hbad
  have hr : r.Valid := ⟨by have := hbad.2.1; bv_omega, hbad.2.2⟩
  refine ⟨?_, ?_⟩
  · intro e he
    obtain he | rfl := by simpa using he
    · exact hb.valid e he
    · exact hr
  · rw [List.pairwise_append]
    refine ⟨hb.apart, List.pairwise_singleton _ _, ?_⟩
    intro e he r' hr'
    obtain rfl := List.mem_singleton.mp hr'
    have hno : overlaps r' e = false := by
      rw [Bool.not_eq_true, List.any_eq_false] at hover
      simpa using hover e he
    intro addr hea hra
    exact apart_of_not_overlaps hr (hb.valid e he) hno addr hra hea

/-- The search finds the one region an address lies in. -/
theorem Wf.find_eq (hb : b.Wf) (hr : r ∈ b.regions) (ha : r.inRegion addr = true) : b.find addr = some r := by
  have hsome : (b.find addr).isSome := by
    rw [find, List.find?_isSome]
    exact ⟨r, hr, ha⟩
  obtain ⟨e, he⟩ := Option.isSome_iff_exists.mp hsome
  have hea : e.inRegion addr = true := by simpa using List.find?_some he
  have hmem : e ∈ b.regions := List.mem_of_find?_eq_some he
  by_cases hre : r = e
  · rw [he, hre]
  · have : Std.Symm Apart := ⟨fun _ _ h a h1 h2 => h a h2 h1⟩
    exact (hb.apart.forall hr hmem hre addr ha hea).elim

/-- What the check lets through. -/
theorem check_some {off : Word} (h : b.check addr size perm = some (r, off)) :
    b.find addr = some r ∧ off = addr - r.base ∧ ¬off > r.size - BitVec.ofNat 32 size ∧ r.perm &&& perm ≠ 0 ∧
      r.widths &&& widthBit size ≠ 0 := by
  rw [check] at h
  split at h
  · cases h
  next e hfind =>
    split_ifs at h with hend hperm hwidth
    obtain ⟨rfl, rfl⟩ := Prod.mk.inj (Option.some.inj h)
    exact ⟨hfind, rfl, hend, hperm, hwidth⟩

theorem check_mem {off : Word} (h : b.check addr size perm = some (r, off)) : r ∈ b.regions :=
  (find_some (check_some h).1).1

/-- Every region is memory. -/
def NoDevices (b : Bus δ) : Prop :=
  ∀ r ∈ b.regions, r.kind = .ram ∨ r.kind = .rom

theorem NoDevices.read (hb : b.NoDevices) (a : Word) (n : Nat) : (b.read a n).2 = b := by
  rw [Bus.read]
  split
  · rfl
  next r off hcheck => obtain hk | hk := hb r (check_mem hcheck) <;> rw [hk]

@[simp]
theorem read_regions : (b.read addr size).2.regions = b.regions := by
  rw [read]
  split
  · rfl
  · split <;> rfl

@[simp]
theorem read_bigEndian : (b.read addr size).2.bigEndian = b.bigEndian := by
  rw [read]
  split
  · rfl
  · split <;> rfl

@[simp]
theorem write_regions (val : Word) : (b.write addr size val).2.regions = b.regions := by
  rw [write]
  split
  · rfl
  · split <;> rfl

@[simp]
theorem write_bigEndian (val : Word) : (b.write addr size val).2.bigEndian = b.bigEndian := by
  rw [write]
  split
  · rfl
  · split <;> rfl

theorem loadLoop_regions (b : Bus δ) (addr : Word) (src : List Byte) : (b.loadLoop addr src).2.regions = b.regions := by
  induction hn : src.length using Nat.strong_induction_on generalizing b addr src with
  | _ n ih =>
    by_cases hsrc : src = []
    · rw [loadLoop, dif_pos hsrc]
    cases hfind : b.find addr with
    | none => rw [loadLoop_none hsrc hfind]
    | some r =>
      rw [loadLoop_some hsrc hfind]
      split_ifs
      · rfl
      · have hpos := List.length_pos_iff.mpr hsrc
        have hroom := Region.room_pos (find_some hfind).2 hpos
        refine ih (src.drop (r.room addr src)).length ?_ _ _ _ rfl
        rw [List.length_drop]
        omega

theorem load_regions (addr : Word) (src : List Byte) : (b.load addr src).2.regions = b.regions := by
  rw [load]
  split_ifs
  · rfl
  · exact loadLoop_regions b addr src

end Bus

end Emu
