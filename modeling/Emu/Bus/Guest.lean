-- SUMMARY: Guest memory: the byte behind each guest address, and what stores and bulk copies do to it.
import Emu.Bus
import Emu.Lib.Overlay

/-! # Guest memory

Guest memory is what lies behind the RAM and ROM regions, by guest address. Where no two regions share a host byte, a
store through the host side of a region is a store at one guest address, and `emu_bus_load` is an overlay. -/

namespace Emu

open Overlay

/-- The region is backed by host memory. -/
def Region.Memory (r : Region) : Prop :=
  r.kind = .ram ∨ r.kind = .rom

instance (r : Region) : Decidable r.Memory :=
  inferInstanceAs (Decidable (_ ∨ _))

theorem Region.toNat_hostAt {r : Region} {i : Word} (h : r.host.toNat + i.toNat < 2 ^ 64) :
    (r.hostAt i).toNat = r.host.toNat + i.toNat := by
  have hi := i.isLt
  rw [Region.hostAt, BitVec.toNat_add, BitVec.toNat_setWidth, Nat.mod_eq_of_lt (a := i.toNat) (by omega),
    Nat.mod_eq_of_lt h]

namespace Bus

variable {δ : Type} {b : Bus δ} {r : Region} {addr a : Word}

/-- The byte at a guest address, where there is memory. -/
def guest (b : Bus δ) (a : Word) : Option Byte :=
  match b.find a with
  | none => none
  | some r => if r.Memory then some (b.mem (r.hostAt (a - r.base))) else none

/-- No other memory region shares a byte of this one's buffer. -/
def Owns (b : Bus δ) (r : Region) : Prop :=
  ∀ e ∈ b.regions, e.Memory → ∀ i j : Word, i < r.size → j < e.size → r.hostAt i = e.hostAt j → r = e ∧ i = j

/-- Every region is given a buffer of its own. -/
def Unshared (b : Bus δ) : Prop :=
  ∀ r ∈ b.regions, r.Memory → b.Owns r

theorem Owns.congr {b' : Bus δ} (h : b.Owns r) (hregions : b'.regions = b.regions) : b'.Owns r := by
  rw [Owns, hregions]
  exact h

theorem Unshared.congr {b' : Bus δ} (h : b.Unshared) (hregions : b'.regions = b.regions) : b'.Unshared := by
  intro r hr hmem
  rw [hregions] at hr
  exact (h r hr hmem).congr hregions

/-- Two regions whose buffers do not overlap. -/
def BuffersApart (r e : Region) : Prop :=
  r.host.toNat + r.size.toNat ≤ e.host.toNat ∨ e.host.toNat + e.size.toNat ≤ r.host.toNat

instance : DecidableRel BuffersApart :=
  fun _ _ => inferInstanceAs (Decidable (_ ∨ _))

theorem unshared_of_buffersApart (hend : ∀ r ∈ b.regions, r.host.toNat + r.size.toNat ≤ 2 ^ 64)
    (hapart : b.regions.Pairwise BuffersApart) : b.Unshared := by
  intro r hr _ e he _ i j hi hj heq
  have hhost := congrArg BitVec.toNat heq
  have hrend := hend r hr
  have heend := hend e he
  rw [BitVec.lt_def] at hi hj
  rw [Region.toNat_hostAt (by omega), Region.toNat_hostAt (by omega)] at hhost
  by_cases hre : r = e
  · subst hre
    exact ⟨rfl, BitVec.eq_of_toNat_eq (by omega)⟩
  · have : Std.Symm BuffersApart := ⟨fun _ _ h => h.symm⟩
    obtain h | h := hapart.forall hr he hre <;> omega

theorem guest_of_find (h : b.find a = some r) (hr : r.Memory) :
    b.guest a = some (b.mem (r.hostAt (a - r.base))) := by
  rw [guest, h]
  exact if_pos hr

theorem find_withMem (b : Bus δ) (m : HostMem) (a : Word) : ({ b with mem := m } : Bus δ).find a = b.find a :=
  rfl

/-- A byte stored behind one guest address is seen at that address only. -/
theorem guest_update (hown : b.Owns r) (hfind : b.find addr = some r) (hr : r.Memory) (v : Byte) :
    ({ b with mem := Function.update b.mem (r.hostAt (addr - r.base)) v } : Bus δ).guest =
      Function.update b.guest addr (some v) := by
  obtain ⟨hmem, hin⟩ := find_some hfind
  have hoff : addr - r.base < r.size := by simpa [Region.inRegion] using hin
  funext a
  by_cases ha : a = addr
  · subst ha
    rw [Function.update_self, guest_of_find (r := r) (by rw [find_withMem, hfind]) hr]
    exact congrArg some (Function.update_self ..)
  · rw [Function.update_of_ne ha, guest, guest, find_withMem]
    cases he : b.find a with
    | none => rfl
    | some e =>
      obtain ⟨hemem, hein⟩ := find_some he
      have heoff : a - e.base < e.size := by simpa [Region.inRegion] using hein
      by_cases hek : e.Memory
      · have hne : e.hostAt (a - e.base) ≠ r.hostAt (addr - r.base) := by
          intro heq
          obtain ⟨rfl, hsub⟩ := hown e hemem hek _ _ hoff heoff heq.symm
          apply ha
          rw [← BitVec.sub_add_cancel a r.base, ← hsub, BitVec.sub_add_cancel]
        simp only [if_pos hek, Function.update_of_ne hne]
      · simp only [if_neg hek]

theorem hostAt_succ {off : Word} (h : off.toNat + 1 < 2 ^ 32) : r.hostAt (off + 1#32) = r.hostAt off + 1#64 := by
  rw [Region.hostAt, Region.hostAt, BitVec.add_assoc]
  congr 1
  apply BitVec.eq_of_toNat_eq
  rw [BitVec.toNat_setWidth, BitVec.toNat_add, BitVec.toNat_add, BitVec.toNat_setWidth, BitVec.toNat_ofNat,
    BitVec.toNat_ofNat]
  omega

/-- The next address of a region with room for more than one byte. -/
theorem inRegion_succ (hroom : a - r.base + 1#32 < r.size) (h : r.inRegion a = true) :
    r.inRegion (a + 1#32) = true ∧ r.hostAt (a + 1#32 - r.base) = r.hostAt (a - r.base) + 1#64 := by
  rw [Region.inRegion, decide_eq_true_iff] at h ⊢
  have hsub : a + 1#32 - r.base = a - r.base + 1#32 := by bv_omega
  rw [hsub]
  exact ⟨hroom, hostAt_succ (by bv_omega)⟩

/-- A copy that stays in one region is an overlay of guest memory. -/
theorem guest_copy (hwf : b.Wf) (hown : b.Owns r) (hfind : b.find addr = some r) (hr : r.Memory) (src : List Byte)
    (hlen : (addr - r.base).toNat + src.length ≤ r.size.toNat) :
    ({ b with mem := b.mem.copy (r.hostAt (addr - r.base)) src } : Bus δ).guest =
      overlay b.guest addr (src.map some) := by
  induction src generalizing b addr with
  | nil => simp [HostMem.copy]
  | cons v src ih =>
    obtain ⟨hmem, hin⟩ := find_some hfind
    have hsize := r.size.isLt
    rw [List.length_cons] at hlen
    rw [List.map_cons, overlay_cons (by rw [List.length_map]; omega), ← guest_update hown hfind hr v]
    by_cases hsrc : src = []
    · subst hsrc
      rfl
    · have hpos : 0 < src.length := List.length_pos_iff.mpr hsrc
      have hroom : addr - r.base + 1#32 < r.size := by bv_omega
      obtain ⟨hin', hhost⟩ := inRegion_succ hroom hin
      have hfind' : b.find (addr + 1#32) = some r := hwf.find_eq hmem hin'
      have hrest := ih (b := { b with mem := Function.update b.mem (r.hostAt (addr - r.base)) v })
        (hwf.congr rfl) hown hfind' (by bv_omega)
      rw [hhost] at hrest
      exact hrest

/-- The host byte behind a guest address. -/
def hostOf (b : Bus δ) (a : Word) : Ptr :=
  match b.find a with
  | some r => r.hostAt (a - r.base)
  | none => 0

theorem hostOf_of_check {off : Word} {n : Nat} {perm : Byte} (h : b.check a n perm = some (r, off)) :
    b.hostOf a = r.hostAt off := by
  obtain ⟨hfind, rfl, -⟩ := check_some h
  rw [hostOf, hfind]

/-! ## Bulk copies -/

/-- Every memory region that the `n` addresses from `addr` on are in has a buffer of its own. -/
def OwnsRange (b : Bus δ) (addr : Word) (n : Nat) : Prop :=
  ∀ k < n, ∀ r, b.find (addr + BitVec.ofNat 32 k) = some r → r.Memory → b.Owns r

theorem Unshared.ownsRange (hb : b.Unshared) (addr : Word) (n : Nat) : b.OwnsRange addr n :=
  fun _ _ r hfind hr => hb r (find_some hfind).1 hr

theorem OwnsRange.head {n : Nat} (h : b.OwnsRange addr n) (hn : 0 < n) (hfind : b.find addr = some r)
    (hr : r.Memory) : b.Owns r := by
  apply h 0 hn r _ hr
  rw [BitVec.add_zero]
  exact hfind

theorem OwnsRange.drop {n k : Nat} (h : b.OwnsRange addr n) (hk : k ≤ n) :
    b.OwnsRange (addr + BitVec.ofNat 32 k) (n - k) := by
  intro i hi r hfind hr
  apply h (k + i) (by omega) r _ hr
  rw [BitVec.ofNat_add, ← BitVec.add_assoc]
  exact hfind

/-- Part of a run of values has been stored from `addr` on, and all of it when `ok` holds. -/
def Stored (g g' : Word → Option Byte) (addr : Word) (vs : List (Option Byte)) (ok : Prop) : Prop :=
  ∃ k ≤ vs.length, g' = overlay g addr (vs.take k) ∧ (ok → k = vs.length)

theorem Stored.none (g : Word → Option Byte) (addr : Word) (vs : List (Option Byte)) {ok : Prop} (h : ok → vs = []) :
    Stored g g addr vs ok :=
  ⟨0, Nat.zero_le _, by simp, fun hok => by simp [h hok]⟩

theorem Stored.all {g : Word → Option Byte} (addr : Word) (vs : List (Option Byte)) {ok : Prop} :
    Stored g (overlay g addr vs) addr vs ok :=
  ⟨vs.length, le_rfl, by rw [List.take_length], fun _ => rfl⟩

/-- The second run is stored after the whole of the first. -/
theorem Stored.append {g g₁ g₂ : Word → Option Byte} {us vs : List (Option Byte)} {ok ok' : Prop}
    {n : Nat} (h : Stored g g₁ addr us ok) (hok : ok) (hn : us.length = n)
    (h' : Stored g₁ g₂ (addr + BitVec.ofNat 32 n) vs ok') (hlen : n + vs.length ≤ 2 ^ 32) :
    Stored g g₂ addr (us ++ vs) ok' := by
  subst hn
  obtain ⟨k, -, hg, hk⟩ := h
  obtain ⟨k', hk', hg', hall⟩ := h'
  rw [hk hok, List.take_length] at hg
  refine ⟨us.length + k', ?_, ?_, fun h => ?_⟩
  · rw [List.length_append]
    omega
  · rw [hg', hg, List.take_length_add_append, overlay_append (by rw [List.length_take]; omega)]
  · rw [List.length_append, hall h]

/-- What has been stored changes nothing outside the run. -/
theorem Stored.outside {g g' : Word → Option Byte} {vs : List (Option Byte)} {ok : Prop}
    (h : Stored g g' addr vs ok) (ha : vs.length ≤ (a - addr).toNat) : g' a = g a := by
  obtain ⟨k, -, rfl, -⟩ := h
  exact overlay_of_le (by rw [List.length_take]; omega)

theorem Stored.eq_of_ok {g g' : Word → Option Byte} {vs : List (Option Byte)} {ok : Prop}
    (h : Stored g g' addr vs ok) (hok : ok) : g' = overlay g addr vs := by
  obtain ⟨k, -, rfl, hk⟩ := h
  rw [hk hok, List.take_length]

/-- However a bulk copy ends, what it has written is an overlay by a part of what it was given, and by all of it when
it says so. -/
theorem guest_loadLoop (hwf : b.Wf) (addr : Word) (src : List Byte) (hown : b.OwnsRange addr src.length)
    (hlen : src.length ≤ 2 ^ 32) :
    Stored b.guest (b.loadLoop addr src).2.guest addr (src.map some) ((b.loadLoop addr src).1 = true) := by
  induction hn : src.length using Nat.strong_induction_on generalizing b addr src with
  | _ n ih =>
    subst hn
    by_cases hsrc : src = []
    · subst hsrc
      simpa [loadLoop] using Stored.none b.guest addr [] fun _ => rfl
    cases hfind : b.find addr with
    | none =>
      rw [loadLoop_none hsrc hfind]
      exact Stored.none _ _ _ (by simp)
    | some r =>
      rw [loadLoop_some hsrc hfind]
      split_ifs with hkind
      · exact Stored.none _ _ _ (by simp)
      · have hr : r.Memory := by
          rw [Region.Memory]
          tauto
        obtain ⟨hmem, hin⟩ := find_some hfind
        have hpos : 0 < src.length := List.length_pos_iff.mpr hsrc
        have hroom : 0 < r.room addr src := Region.room_pos hin hpos
        have hle : r.room addr src ≤ src.length := Nat.min_le_right ..
        have hfits : r.room addr src ≤ (r.size - (addr - r.base)).toNat := Nat.min_le_left ..
        rw [Region.inRegion, decide_eq_true_iff] at hin
        have htake : ((src.take (r.room addr src)).map some).length = r.room addr src := by
          rw [List.length_map, List.length_take]
          omega
        have hcopy := guest_copy hwf (hown.head hpos hfind hr) hfind hr (src.take (r.room addr src))
          (by rw [List.length_take]; bv_omega)
        have hrest := ih (src.drop (r.room addr src)).length (by rw [List.length_drop]; omega)
          (b := { b with mem := b.mem.copy (r.hostAt (addr - r.base)) (src.take (r.room addr src)) })
          (hwf.congr rfl) (addr + BitVec.ofNat 32 (r.room addr src)) (src.drop (r.room addr src))
          (by rw [List.length_drop]; exact hown.drop hle) (by rw [List.length_drop]; omega) rfl
        rw [hcopy] at hrest
        have hfirst : Stored b.guest _ addr ((src.take (r.room addr src)).map some) True := Stored.all _ _
        have hwhole := hfirst.append trivial htake hrest (by rw [List.length_map, List.length_drop]; omega)
        rwa [← List.map_append, List.take_append_drop] at hwhole

/-- What `emu_bus_load` does to guest memory. -/
theorem guest_load (hwf : b.Wf) (addr : Word) (src : List Byte) (hown : b.OwnsRange addr src.length) :
    Stored b.guest (b.load addr src).2.guest addr (src.map some) ((b.load addr src).1 = true) := by
  rw [load]
  split_ifs with hend
  · exact Stored.none _ _ _ (by simp)
  · exact guest_loadLoop hwf addr src hown (by omega)

end Bus

end Emu
