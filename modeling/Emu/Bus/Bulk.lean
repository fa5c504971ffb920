-- SUMMARY: Bulk copies in and out of guest memory: when a copy that fails has written nothing, and one that succeeds reads back.
import Emu.Bus.Guest

/-! # Bulk copies

`emu_bus_load` and `emu_bus_dump` walk a range region by region. A load that reaches an address without memory fails there,
and what it copied before stays. So all loads of a bus are whole exactly if its memory, once it starts, goes on to the top of
the address space, and no two of its addresses share a host byte. -/

namespace Emu

open Overlay

/-- `memcpy` out of host memory. -/
def HostMem.bytes (m : HostMem) (p : Ptr) : Nat → List Byte
  | 0 => []
  | n + 1 => m p :: HostMem.bytes m (p + 1) n

namespace Bus

variable {δ : Type} {b : Bus δ} {r : Region} {addr a : Word}

/-- `emu_bus_find` with the region of the last hit, which is tried first. -/
def findFrom (b : Bus δ) (last : Nat) (addr : Word) : Option Region :=
  match b.regions[last]? with
  | some r => if r.inRegion addr then some r else b.find addr
  | none => b.find addr

/-- Regions do not overlap, so it does not matter which one is tried first. -/
theorem Wf.findFrom_eq (hwf : b.Wf) (last : Nat) (addr : Word) : b.findFrom last addr = b.find addr := by
  rw [findFrom]
  cases hlast : b.regions[last]? with
  | none => rfl
  | some r =>
    dsimp only
    split_ifs with hin
    · exact (hwf.find_eq (List.mem_of_getElem? hlast) hin).symm
    · rfl

/-- `emu_bus_add` of each region, taken or refused. -/
def addAll (b : Bus δ) : List Region → Bus δ
  | [] => b
  | r :: rs => ((b.add r).getD b).addAll rs

theorem addAll_wf (hb : b.Wf) (rs : List Region) : (b.addAll rs).Wf := by
  induction rs generalizing b with
  | nil => exact hb
  | cons r rs ih =>
    apply ih
    cases h : b.add r with
    | none => exact hb
    | some b' => exact add_wf hb h

/-- Whatever set-up tries to add to an empty bus, and whichever region was hit last, an address is found in the one
region of the table that has it, if any has. -/
theorem findFrom_addAll (b : Bus δ) (rs : List Region) (last : Nat) (addr : Word) (r : Region) :
    let b' := addAll { b with regions := [] } rs
    b'.findFrom last addr = some r ↔ r ∈ b'.regions ∧ r.inRegion addr = true := by
  intro b'
  have hwf : b'.Wf := addAll_wf ⟨by simp, .nil⟩ rs
  rw [hwf.findFrom_eq]
  exact ⟨find_some, fun h => hwf.find_eq h.1 h.2⟩

theorem room_pos_of_find {len : Nat} (h : b.find addr = some r) (hlen : len ≠ 0) :
    0 < min (r.size - (addr - r.base)).toNat len := by
  have hin := (find_some h).2
  rw [Region.inRegion, decide_eq_true_iff] at hin
  exact Nat.lt_min.mpr ⟨by bv_omega, Nat.pos_of_ne_zero hlen⟩

/-- The loop of `emu_bus_dump`: whether it gets to the end, and the bytes it has given by then. -/
def dumpLoop (b : Bus δ) (addr : Word) (len : Nat) : Bool × List Byte :=
  if hlen : len = 0 then (true, [])
  else
    match hfind : b.find addr with
    | none => (false, [])
    | some r =>
      have : len - min (r.size - (addr - r.base)).toNat len < len :=
        Nat.sub_lt (Nat.pos_of_ne_zero hlen) (room_pos_of_find hfind hlen)
      if r.kind ≠ .ram ∧ r.kind ≠ .rom then (false, [])
      else
        let n := min (r.size - (addr - r.base)).toNat len
        let rest := b.dumpLoop (addr + BitVec.ofNat 32 n) (len - n)
        (rest.1, b.mem.bytes (r.hostAt (addr - r.base)) n ++ rest.2)
termination_by len
decreasing_by exact this

/-- `emu_bus_dump`. -/
def dump (b : Bus δ) (addr : Word) (len : Nat) : Bool × List Byte :=
  if addr.toNat + len > 0x100000000 then (false, []) else b.dumpLoop addr len

/-! ## What there is -/

theorem isSome_guest_withMem (b : Bus δ) (m : HostMem) (a : Word) :
    (({ b with mem := m } : Bus δ).guest a).isSome = (b.guest a).isSome := by
  rw [guest, guest, find_withMem]
  cases b.find a with
  | none => rfl
  | some r =>
    dsimp only
    split_ifs <;> rfl

/-- An address with a byte is in a memory region. -/
theorem find_of_isSome_guest (h : (b.guest a).isSome = true) : ∃ r, b.find a = some r ∧ r.Memory := by
  rw [guest] at h
  cases hfind : b.find a with
  | none =>
    rw [hfind] at h
    cases h
  | some r =>
    rw [hfind] at h
    refine ⟨r, rfl, ?_⟩
    by_contra hr
    simp [hr] at h

theorem Region.Memory.kind (h : r.Memory) : ¬(r.kind ≠ .ram ∧ r.kind ≠ .rom) := by
  rw [Region.Memory] at h
  tauto

/-- Bytes copied out of one region are those of its addresses. -/
theorem bytes_eq (hwf : b.Wf) (hfind : b.find addr = some r) (hr : r.Memory) (vs : List Byte)
    (hlen : (addr - r.base).toNat + vs.length ≤ r.size.toNat)
    (h : ∀ k (hk : k < vs.length), b.guest (addr + BitVec.ofNat 32 k) = some vs[k]) :
    b.mem.bytes (r.hostAt (addr - r.base)) vs.length = vs := by
  induction vs generalizing addr with
  | nil => rfl
  | cons v vs ih =>
    obtain ⟨hmem, hin⟩ := find_some hfind
    have hsize := r.size.isLt
    rw [List.length_cons] at hlen
    have hv := h 0 (Nat.succ_pos _)
    rw [BitVec.add_zero, guest_of_find hfind hr] at hv
    rw [List.length_cons, HostMem.bytes, Option.some.inj hv]
    congr 1
    by_cases hvs : vs = []
    · subst hvs
      rfl
    · have hpos : 0 < vs.length := List.length_pos_iff.mpr hvs
      have hroom : addr - r.base + 1#32 < r.size := by bv_omega
      obtain ⟨hin', hhost⟩ := inRegion_succ hroom hin
      rw [show r.hostAt (addr - r.base) + 1 = r.hostAt (addr + 1#32 - r.base) from hhost.symm]
      refine ih (hwf.find_eq hmem hin') (by bv_omega) fun k hk => ?_
      rw [BitVec.add_assoc, ← BitVec.ofNat_add, Nat.add_comm 1 k]
      exact h (k + 1) (Nat.succ_lt_succ hk)

/-- A dump of a range that is all memory gives its bytes. -/
theorem dumpLoop_eq (hwf : b.Wf) (addr : Word) (vs : List Byte)
    (h : ∀ k (hk : k < vs.length), b.guest (addr + BitVec.ofNat 32 k) = some vs[k]) :
    b.dumpLoop addr vs.length = (true, vs) := by
  induction hn : vs.length using Nat.strong_induction_on generalizing addr vs with
  | _ n ih =>
    subst hn
    by_cases hvs : vs = []
    · subst hvs
      rw [dumpLoop, dif_pos List.length_nil]
    have hpos : 0 < vs.length := List.length_pos_iff.mpr hvs
    have hfirst := h 0 hpos
    rw [BitVec.add_zero] at hfirst
    obtain ⟨r, hfind, hr⟩ := find_of_isSome_guest (by rw [hfirst]; rfl)
    have hroom := room_pos_of_find hfind hpos.ne'
    rw [dumpLoop, dif_neg hpos.ne']
    split
    next hnone => cases hfind.symm.trans hnone
    next r' hr' =>
    obtain rfl := Option.some.inj (hfind.symm.trans hr')
    rw [if_neg (Region.Memory.kind hr)]
    set n := min (r.size - (addr - r.base)).toNat vs.length with hn
    have hle : n ≤ vs.length := Nat.min_le_right ..
    have hfits : n ≤ (r.size - (addr - r.base)).toNat := Nat.min_le_left ..
    have hin := (find_some hfind).2
    rw [Region.inRegion, decide_eq_true_iff] at hin
    have htake : (vs.take n).length = n := by
      rw [List.length_take]
      exact Nat.min_eq_left hle
    have hbytes := bytes_eq hwf hfind hr (vs.take n) (by rw [htake]; bv_omega) fun k hk => by
      rw [List.getElem_take]
      exact h k (by omega)
    have hrest := ih (vs.drop n).length (by rw [List.length_drop]; omega) (addr + BitVec.ofNat 32 n) (vs.drop n)
      (fun k hk => by
        rw [BitVec.add_assoc, ← BitVec.ofNat_add, List.getElem_drop]
        exact h (n + k) (by rw [List.length_drop] at hk; omega)) rfl
    rw [htake] at hbytes
    rw [List.length_drop] at hrest
    dsimp only
    rw [hbytes, hrest, List.take_append_drop]

/-- A load into a range that is all memory succeeds. -/
theorem loadLoop_of_isSome (addr : Word) (src : List Byte)
    (h : ∀ k < src.length, (b.guest (addr + BitVec.ofNat 32 k)).isSome = true) : (b.loadLoop addr src).1 = true := by
  induction hn : src.length using Nat.strong_induction_on generalizing b addr src with
  | _ n ih =>
    subst hn
    by_cases hsrc : src = []
    · rw [loadLoop, dif_pos hsrc]
    have hpos : 0 < src.length := List.length_pos_iff.mpr hsrc
    have hfirst := h 0 hpos
    rw [BitVec.add_zero] at hfirst
    obtain ⟨r, hfind, hr⟩ := find_of_isSome_guest hfirst
    have hroom : 0 < r.room addr src := Region.room_pos (find_some hfind).2 hpos
    rw [loadLoop_some hsrc hfind, if_neg (Region.Memory.kind hr)]
    refine ih _ (by rw [List.length_drop]; omega) _ _ (fun k hk => ?_) rfl
    rw [List.length_drop] at hk
    rw [isSome_guest_withMem, BitVec.add_assoc, ← BitVec.ofNat_add]
    exact h _ (by omega)

/-! ## Whole loads -/

/-- What is asked of a load: once it succeeds the same bytes are dumped and nothing else has changed, and if it fails
nothing has. -/
def LoadsWhole (b : Bus δ) (addr : Word) (src : List Byte) : Prop :=
  ((b.load addr src).1 = true →
    (b.load addr src).2.dump addr src.length = (true, src) ∧
      ∀ a, src.length ≤ (a - addr).toNat → (b.load addr src).2.guest a = b.guest a) ∧
  ((b.load addr src).1 = false → (b.load addr src).2.guest = b.guest)

/-- Memory goes on to the top of the address space. -/
def ReachesTop (b : Bus δ) : Prop :=
  ∀ a, (b.guest a).isSome = true → a.toNat + 1 < 2 ^ 32 → (b.guest (a + 1)).isSome = true

theorem ReachesTop.isSome (h : b.ReachesTop) (haddr : (b.guest addr).isSome = true) {k : Nat}
    (hk : addr.toNat + k < 2 ^ 32) : (b.guest (addr + BitVec.ofNat 32 k)).isSome = true := by
  induction k with
  | zero => rwa [BitVec.add_zero]
  | succ k ih =>
    have hnext := h _ (ih (by omega)) (by rw [BitVec.toNat_add, BitVec.toNat_ofNat]; omega)
    rw [BitVec.add_assoc] at hnext
    rw [BitVec.ofNat_add]
    exact hnext

/-- A load of one byte is a store behind its address. -/
theorem load_one (hfind : b.find a = some r) (hr : r.Memory) (v : Byte) :
    b.load a [v] = (true, { b with mem := Function.update b.mem (r.hostAt (a - r.base)) v }) := by
  have hend : ¬a.toNat + [v].length > 0x100000000 := by
    have := a.isLt
    rw [List.length_singleton]
    omega
  have hroom : r.room a [v] = 1 := by
    have hpos : 0 < r.room a [v] := Region.room_pos (find_some hfind).2 (by simp)
    have hle : r.room a [v] ≤ 1 := Nat.min_le_right ..
    omega
  rw [load, if_neg hend, loadLoop_some (by simp) hfind, if_neg (Region.Memory.kind hr), hroom]
  rw [List.drop_one, List.tail_cons, loadLoop, dif_pos rfl]
  rfl

/-- A load that goes past the end of memory has stored the byte before it. -/
theorem load_past_end (hwf : b.Wf) (hfind : b.find a = some r) (hr : r.Memory) (hlt : a.toNat + 1 < 2 ^ 32)
    (hend : (b.guest (a + 1)).isSome = false) (v w : Byte) :
    b.load a [v, w] = (false, { b with mem := Function.update b.mem (r.hostAt (a - r.base)) v }) := by
  obtain ⟨hmem, hin⟩ := find_some hfind
  have hsmall : ¬a.toNat + [v, w].length > 0x100000000 := by
    rw [List.length_cons, List.length_singleton]
    omega
  -- the region ends at `a`, for the next address has no memory
  have hlast : ¬a - r.base + 1#32 < r.size := by
    intro hroom
    have hnext := guest_of_find (hwf.find_eq hmem (inRegion_succ hroom hin).1) hr
    rw [show a + 1 = a + 1#32 from rfl, hnext] at hend
    cases hend
  have hvalid := hwf.valid r hmem
  have hbounds := (inRegion_iff hvalid).mp hin
  have hone : r.room a [v, w] = 1 := by
    rw [Region.room, List.length_cons, List.length_singleton]
    have : (r.size - (a - r.base)).toNat = 1 := by
      obtain ⟨-, htop⟩ := hvalid
      bv_omega
    rw [this]
    rfl
  rw [load, if_neg hsmall, loadLoop_some (by simp) hfind, if_neg (Region.Memory.kind hr), hone, List.drop_one, List.tail_cons,
    List.take_one, List.head?_cons]
  change loadLoop { b with mem := Function.update b.mem (r.hostAt (a - r.base)) v } (a + 1#32) [w] = _
  cases hnext : b.find (a + 1#32) with
  | none => exact loadLoop_none (by simp) hnext
  | some e =>
    rw [loadLoop_some (by simp) (by rw [find_withMem]; exact hnext), if_pos]
    by_contra hkind
    have he : e.Memory := by
      rw [Region.Memory]
      tauto
    rw [show a + 1 = a + 1#32 from rfl, guest_of_find hnext he] at hend
    cases hend

/-- A byte other than a given one. -/
theorem not_ne_self (v : Byte) : ~~~v ≠ v := by
  intro h
  have := congrArg (·.getLsbD 0) h
  simp at this

/-- A successful load is read back, and it leaves the rest. -/
theorem Unshared.read_back (hwf : b.Wf) (hb : b.Unshared) {src : List Byte} (h : (b.load addr src).1 = true) :
    (b.load addr src).2.dump addr src.length = (true, src) ∧
      ∀ a, src.length ≤ (a - addr).toNat → (b.load addr src).2.guest a = b.guest a := by
  have hstored := guest_load hwf addr src (hb.ownsRange addr src.length)
  have hguest := hstored.eq_of_ok h
  have hend : ¬addr.toNat + src.length > 0x100000000 := by
    intro hend
    rw [load, if_pos hend] at h
    cases h
  refine ⟨?_, fun a ha => hstored.outside (by rwa [List.length_map])⟩
  rw [dump, if_neg hend]
  refine dumpLoop_eq (hwf.congr (load_regions addr src)) addr src fun k hk => ?_
  have hoff : (addr + BitVec.ofNat 32 k - addr).toNat = k := by
    rw [BitVec.add_comm, BitVec.add_sub_cancel, BitVec.toNat_ofNat]
    exact Nat.mod_eq_of_lt (by omega)
  rw [hguest, overlay_of_lt (by rw [hoff, List.length_map]; exact hk)]
  simp only [hoff, List.getElem_map]

/-- Where memory goes on to the top, a load that fails has failed at its first byte. -/
theorem ReachesTop.unchanged (h : b.ReachesTop) {src : List Byte} (hfail : (b.load addr src).1 = false) :
    (b.load addr src).2.guest = b.guest := by
  rw [load] at hfail ⊢
  split_ifs at hfail ⊢ with hend
  · rfl
  cases hfirst : (b.guest addr).isSome with
  | true =>
    have hall := loadLoop_of_isSome addr src fun k hk => h.isSome hfirst (by omega)
    exact absurd hfail (by rw [hall]; decide)
  | false =>
    by_cases hsrc : src = []
    · rw [loadLoop, dif_pos hsrc]
    cases hfind : b.find addr with
    | none => rw [loadLoop_none hsrc hfind]
    | some r =>
      rw [loadLoop_some hsrc hfind, if_pos]
      by_contra hkind
      have hr : r.Memory := by
        rw [Region.Memory]
        tauto
      rw [guest_of_find hfind hr] at hfirst
      cases hfirst

/-- A bus with one region of sixteen bytes of RAM, all zero. -/
def ramBus (base : Word) : Bus Unit where
  regions := [⟨base, 16, 0x10000, .ram, permR ||| permW, wAny⟩]
  mem := fun _ => 0
  dev := ()
  devices := ⟨fun d m _ _ _ => (.error .load, d, m), fun d m _ _ _ _ => (.error .store, d, m)⟩
  bigEndian := false

theorem ramBus_wf {base : Word} (h : base.toNat + 16 ≤ 2 ^ 32) : (ramBus base).Wf := by
  refine ⟨fun r hr => ?_, List.pairwise_singleton ..⟩
  obtain rfl := List.mem_singleton.mp hr
  exact ⟨show 4 ≤ 16 by decide, h⟩

end Bus

end Emu
