-- SUMMARY: The pointer a virtio device is given for a guest address, and what it can reach through it.
import Emu.Bus.Guest
import Emu.Lib.Masks

/-! # Device access to guest memory

A virtio device asks for a host pointer to a guest address and then stays inside the page the address is in. The
pointer is given when the rest of the page lies in one region that has something behind it. Neither the region's
permissions nor the direction of the access is looked at. -/

namespace Emu

/-- `emu_bus_host_ptr`. The pointer is what lies behind the region, plus an offset. -/
def Bus.hostPtr {δ : Type} (b : Bus δ) (addr len : Word) : Option (Region × Word) :=
  match b.find addr with
  | none => none
  | some r =>
    if len > r.size - (addr - r.base) then none
    else
      match r.kind with
      | .ram | .rom | .passthru => some (r, addr - r.base)
      | .mmio => none

theorem Bus.Wf.hostPtr_eq_some_iff {δ : Type} {b : Bus δ} (hb : b.Wf) {addr len off : Word} {r : Region}
    (hlen : 0 < len.toNat) :
    b.hostPtr addr len = some (r, off) ↔
      r ∈ b.regions ∧ r.kind ≠ .mmio ∧ r.Contains addr len.toNat ∧ off = addr - r.base := by
  constructor
  · intro h
    rw [Bus.hostPtr] at h
    split at h
    · cases h
    next e hfind =>
      obtain ⟨hmem, hin⟩ := Bus.find_some hfind
      have hvalid := hb.valid e hmem
      obtain ⟨hlo, hhi⟩ := (Bus.inRegion_iff hvalid).mp hin
      obtain ⟨-, htop⟩ := hvalid
      split_ifs at h with hend
      have hcontains : e.Contains addr len.toNat := ⟨hlo, by bv_omega⟩
      split at h
      case h_4 => cases h
      all_goals
        next hkind =>
          obtain ⟨rfl, rfl⟩ := Prod.mk.inj (Option.some.inj h)
          exact ⟨hmem, by rw [hkind]; decide, hcontains, rfl⟩
  · rintro ⟨hmem, hkind, ⟨hlo, hhi⟩, rfl⟩
    have hvalid := hb.valid r hmem
    have hin : r.inRegion addr = true := (Bus.inRegion_iff hvalid).mpr ⟨hlo, by omega⟩
    obtain ⟨-, htop⟩ := hvalid
    have hend : ¬len > r.size - (addr - r.base) := by bv_omega
    simp only [Bus.hostPtr, hb.find_eq hmem hin, if_neg hend]
    cases hk : r.kind <;> simp_all

/-- The guest itself may make the access: a write to writable RAM, a read of what is readable. -/
def Region.Allows (r : Region) (isRw : Bool) : Prop :=
  if isRw then r.kind = .ram ∧ r.perm &&& permW ≠ 0 else r.perm &&& permR ≠ 0

instance (r : Region) (isRw : Bool) : Decidable (r.Allows isRw) := by
  unfold Region.Allows
  exact inferInstance

namespace Virtio

variable {δ : Type} {b : Bus δ} {paddr : BitVec 64} {isRw : Bool} {r : Region} {off : Word}

/-- `VIRTIO_PAGE_SIZE`. -/
def pageSize : Word := 4096

/-- The bytes from an address to the end of its page. -/
def pageRest (paddr : BitVec 64) : Word :=
  pageSize - (paddr &&& 0xFFF).setWidth 32

/-- `phys_mem_get_ram_ptr`. It is told the direction of the access and does not use it. -/
def physMemGetRamPtr (b : Bus δ) (paddr : BitVec 64) (_isRw : Bool) : Option (Region × Word) :=
  if paddr >>> 32 ≠ 0 then none else b.hostPtr (paddr.setWidth 32) (pageRest paddr)

/-- A byte a device stores through the pointer it was given for writing at `paddr`, `k` bytes on. -/
def deviceStore (b : Bus δ) (paddr : BitVec 64) (k : Word) (v : Byte) : Bus δ :=
  match physMemGetRamPtr b paddr true with
  | none => b
  | some (r, off) =>
    match r.kind with
    | .ram | .rom => { b with mem := Function.update b.mem (r.hostAt (off + k)) v }
    | .mmio | .passthru =>
      let res := b.devices.write b.dev b.mem r (off + k) 1 (v.setWidth 32)
      { b with dev := res.2.1, mem := res.2.2 }

/-- One store of a device request: the address it asked a pointer for, how far on it stores, and what. The device
stays inside the page. -/
structure Store where
  paddr : BitVec 64
  k : Word
  v : Byte
  inPage : k < pageRest paddr

def deviceStores (b : Bus δ) : List Store → Bus δ
  | [] => b
  | s :: stores => deviceStores (deviceStore b s.paddr s.k s.v) stores

/-! ## What a device may be given -/

/-- Everything from the address to the end of its page is in one region of the bus, and the guest may access it so. -/
structure Granted (b : Bus δ) (paddr : BitVec 64) (isRw : Bool) (r : Region) (off : Word) : Prop where
  low : paddr.toNat < 2 ^ 32
  mem : r ∈ b.regions
  contains : r.Contains (paddr.setWidth 32) (pageRest paddr).toNat
  offset : off = paddr.setWidth 32 - r.base
  allows : r.Allows isRw

/-- The rest of the page is in a region that has something behind it and that the guest may not access so. -/
def Overreach (b : Bus δ) (paddr : BitVec 64) (isRw : Bool) : Prop :=
  paddr.toNat < 2 ^ 32 ∧
    ∃ r ∈ b.regions, r.kind ≠ .mmio ∧ r.Contains (paddr.setWidth 32) (pageRest paddr).toNat ∧ ¬r.Allows isRw

/-- From `b` to `b'` only bytes of writable RAM have changed. -/
def OnlyRam (b b' : Bus δ) : Prop :=
  b'.dev = b.dev ∧ b'.regions = b.regions ∧
    ∀ a, b'.guest a ≠ b.guest a → ∃ r ∈ b.regions, r.inRegion a = true ∧ r.Allows true

/-! ## The pointer -/

theorem toNat_pageRest (paddr : BitVec 64) : (pageRest paddr).toNat = 4096 - paddr.toNat % 4096 := by
  have hmask : (paddr &&& 0xFFF).toNat = paddr.toNat % 2 ^ 12 := Masks.toNat_and_low paddr rfl
  rw [pageRest, BitVec.toNat_sub, BitVec.toNat_setWidth, hmask, show pageSize.toNat = 4096 from rfl]
  omega

theorem high_zero_iff (paddr : BitVec 64) : paddr >>> 32 = 0 ↔ paddr.toNat < 2 ^ 32 := by
  constructor
  · intro h
    have hdiv : paddr.toNat / 2 ^ 32 = 0 := by
      rw [← Nat.shiftRight_eq_div_pow, ← BitVec.toNat_ushiftRight, h]
      rfl
    omega
  · intro h
    apply BitVec.eq_of_toNat_eq
    rw [BitVec.toNat_ushiftRight, Nat.shiftRight_eq_div_pow, Nat.div_eq_of_lt h]
    rfl

theorem physMemGetRamPtr_eq_some_iff (hb : b.Wf) :
    physMemGetRamPtr b paddr isRw = some (r, off) ↔
      paddr.toNat < 2 ^ 32 ∧ r ∈ b.regions ∧ r.kind ≠ .mmio ∧
        r.Contains (paddr.setWidth 32) (pageRest paddr).toNat ∧ off = paddr.setWidth 32 - r.base := by
  have hpos : 0 < (pageRest paddr).toNat := by
    rw [toNat_pageRest]
    omega
  rw [physMemGetRamPtr, ← hb.hostPtr_eq_some_iff hpos, ← high_zero_iff]
  split_ifs with h
  · constructor
    · intro h'
      cases h'
    · intro h'
      exact absurd h'.1 h
  · simp only [not_not.mp h, true_and]

theorem granted_iff_not_overreach (hb : b.Wf) :
    (∀ r off, physMemGetRamPtr b paddr isRw = some (r, off) → Granted b paddr isRw r off) ↔
      ¬Overreach b paddr isRw := by
  simp only [physMemGetRamPtr_eq_some_iff hb]
  constructor
  · rintro h ⟨hlow, r, hmem, hkind, hcontains, hallows⟩
    exact hallows (h r _ ⟨hlow, hmem, hkind, hcontains, rfl⟩).allows
  · rintro h r off ⟨hlow, hmem, hkind, hcontains, hoff⟩
    refine ⟨hlow, hmem, hcontains, hoff, ?_⟩
    by_contra hallows
    exact h ⟨hlow, r, hmem, hkind, hcontains, hallows⟩

/-! ## Stores through it -/

theorem OnlyRam.refl (b : Bus δ) : OnlyRam b b :=
  ⟨rfl, rfl, fun _ h => absurd rfl h⟩

theorem OnlyRam.trans {b₁ b₂ b₃ : Bus δ} (h : OnlyRam b₁ b₂) (h' : OnlyRam b₂ b₃) : OnlyRam b₁ b₃ := by
  obtain ⟨hdev, hregions, hguest⟩ := h
  obtain ⟨hdev', hregions', hguest'⟩ := h'
  refine ⟨hdev'.trans hdev, hregions'.trans hregions, ?_⟩
  intro a hne
  by_cases hsame : b₃.guest a = b₂.guest a
  · exact hguest a (by rwa [← hsame])
  · rw [← hregions]
    exact hguest' a hsame

/-- Where no pointer overreaches, a device's store lands in writable RAM. -/
theorem deviceStore_onlyRam (hb : b.Wf) (hun : b.Unshared) (s : Store) (hs : ¬Overreach b s.paddr true) :
    OnlyRam b (deviceStore b s.paddr s.k s.v) := by
  rw [deviceStore]
  split
  · exact OnlyRam.refl b
  next r off hptr =>
    obtain ⟨hlow, hmem, ⟨hlo, hhi⟩, rfl, hallows⟩ := (granted_iff_not_overreach hb).mpr hs r off hptr
    have hkind : r.kind = .ram := hallows.1
    have hvalid := hb.valid r hmem
    have hpage := s.inPage
    have hoff : s.paddr.setWidth 32 - r.base + s.k = s.paddr.setWidth 32 + s.k - r.base := by bv_omega
    have hin : r.inRegion (s.paddr.setWidth 32 + s.k) = true := by
      rw [Bus.inRegion_iff hvalid]
      obtain ⟨-, htop⟩ := hvalid
      bv_omega
    have hguest := Bus.guest_update (hun r hmem (.inl hkind)) (hb.find_eq hmem hin) (.inl hkind) s.v
    rw [hkind, hoff]
    refine ⟨rfl, rfl, ?_⟩
    intro a hne
    rw [hguest] at hne
    have ha : a = s.paddr.setWidth 32 + s.k := by
      by_contra h
      exact hne (Function.update_of_ne h ..)
    exact ⟨r, hmem, by rw [ha]; exact hin, hallows⟩

theorem deviceStores_onlyRam (hb : b.Wf) (hun : b.Unshared) (stores : List Store)
    (h : ∀ s ∈ stores, ¬Overreach b s.paddr true) : OnlyRam b (deviceStores b stores) := by
  induction stores generalizing b with
  | nil => exact OnlyRam.refl b
  | cons s stores ih =>
    have hstep := deviceStore_onlyRam hb hun s (h s List.mem_cons_self)
    have hregions := hstep.2.1
    refine hstep.trans (ih (hb.congr hregions) ?_ ?_)
    · exact hun.congr hregions
    · intro t ht
      rw [Overreach, hregions]
      exact h t (List.mem_cons_of_mem s ht)

/-- A guest with 8 KiB of RAM and an image of 8 KiB in ROM. -/
def ramRegion : Region := ⟨0x80000000, 0x2000, 0x10000, .ram, permR ||| permW ||| permX, wAny⟩

def romRegion : Region := ⟨0x20000000, 0x2000, 0x20000, .rom, permR ||| permX, wAny⟩

def guestBus : Bus Unit :=
  ⟨[ramRegion, romRegion], fun _ => 0, (), ⟨fun _ m _ _ _ => (.ok 0, (), m), fun _ m _ _ _ _ => (.ok (), (), m)⟩,
    false⟩

theorem guestBus_wf : guestBus.Wf := by
  have hvalid : ∀ r ∈ guestBus.regions, r.Valid := by simp [guestBus, Region.Valid, ramRegion, romRegion]
  refine ⟨hvalid, ?_⟩
  refine List.pairwise_pair.mpr (Bus.apart_of_not_overlaps (hvalid _ ?_) (hvalid _ ?_) (by decide)) <;>
    simp [guestBus]

theorem guestBus_unshared : guestBus.Unshared :=
  Bus.unshared_of_buffersApart (by decide) (by decide)

end Virtio

end Emu
