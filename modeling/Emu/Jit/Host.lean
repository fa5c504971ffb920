-- SUMMARY: What the block table takes from the host and the translator: code patching, layouts and emissions.
import Mathlib
import Emu.Ir.Syntax

/-!
# The host's side of the block cache

The block table of `emu_jit.c` writes emitted code through two hooks of `emu_jit_ops_t`, and takes
from the translator a layout that says where a block may be entered and which of its exits may be
aimed at other blocks. Code addresses are offsets from `g_code`.
-/

namespace Emu.Jit

/-- The bytes of the code buffer. -/
abbrev Mem := Nat → Byte

/-! ## Hooks -/

/-- The hooks of `emu_jit_ops_t` that touch emitted code, with what the header says of them:
`patch_link` aims the jump at a site, `emit_jump` writes a jump over what was there. `linkTarget` and
`jumpTarget` read back where such a jump goes. -/
structure Host where
  /-- `patch_link` is not `NULL`. -/
  canLink : Bool
  patchLink : (site target : Nat) → Mem → Mem
  linkBytes : Nat
  linkTarget : Mem → Nat → Nat
  /-- `emit_jump` is not `NULL`. -/
  canRetire : Bool
  emitJump : (entry target : Nat) → Mem → Mem
  jumpBytes : Nat
  jumpTarget : Mem → Nat → Option Nat
  relocatable : Bool
  /-- How far apart a jump and its target may be. -/
  reach : Nat
  patchLink_of_outside : ∀ {site target x : Nat} {m : Mem}, x < site ∨ site + linkBytes ≤ x →
    patchLink site target m x = m x
  linkTarget_patchLink : ∀ {site target : Nat} {m : Mem}, site ≤ reach → target ≤ reach →
    linkTarget (patchLink site target m) site = target
  linkTarget_congr : ∀ {site : Nat} {m m' : Mem},
    (∀ x, site ≤ x → x < site + linkBytes → m' x = m x) → linkTarget m' site = linkTarget m site
  emitJump_of_outside : ∀ {entry target x : Nat} {m : Mem}, x < entry ∨ entry + jumpBytes ≤ x →
    emitJump entry target m x = m x
  jumpTarget_emitJump : ∀ {entry target : Nat} {m : Mem}, entry ≤ reach → target ≤ reach →
    jumpTarget (emitJump entry target m) entry = some target
  jumpTarget_congr : ∀ {entry : Nat} {m m' : Mem},
    (∀ x, entry ≤ x → x < entry + jumpBytes → m' x = m x) → jumpTarget m' entry = jumpTarget m entry

/-! ## The x86-64 hooks -/

namespace X86

/-- The displacement `x86_write_rel32` writes: relative to the end of the four-byte slot. -/
def rel32 (slot target : Nat) : Word := BitVec.ofInt 32 ((target : Int) - (slot + 4))

/-- `x86_write_rel32`: the displacement, little-endian, at the slot. -/
def writeRel32 (slot target : Nat) (m : Mem) : Mem := fun x =>
  if slot ≤ x ∧ x < slot + 4 then (rel32 slot target).extractLsb' (8 * (x - slot)) 8 else m x

/-- The displacement held at a slot. -/
def readRel32 (m : Mem) (slot : Nat) : Word := m (slot + 3) ++ m (slot + 2) ++ m (slot + 1) ++ m slot

/-- Where a jump with the displacement at `slot` goes. -/
def relTarget (m : Mem) (slot : Nat) : Nat := ((slot : Int) + 4 + (readRel32 m slot).toInt).toNat

/-- `ir_emit_jump` of the x86-64 backend: `E9 rel32`. -/
def emitJump (entry target : Nat) (m : Mem) : Mem :=
  writeRel32 (entry + 1) target (Function.update m entry 0xE9)

def jumpTarget (m : Mem) (entry : Nat) : Option Nat :=
  if m entry = 0xE9 then some (relTarget m (entry + 1)) else none

theorem append_bytes (w : Word) :
    w.extractLsb' 24 8 ++ w.extractLsb' 16 8 ++ w.extractLsb' 8 8 ++ w.extractLsb' 0 8 = w := by
  apply BitVec.eq_of_getLsbD_eq
  intro i hi
  simp only [BitVec.getLsbD_append, BitVec.getLsbD_extractLsb']
  grind

theorem readRel32_writeRel32 (slot target : Nat) (m : Mem) :
    readRel32 (writeRel32 slot target m) slot = rel32 slot target := by
  simp only [readRel32, writeRel32]
  simpa using append_bytes (rel32 slot target)

theorem relTarget_writeRel32 {slot target : Nat} {m : Mem} (hs : slot < 2 ^ 30) (ht : target < 2 ^ 30) :
    relTarget (writeRel32 slot target m) slot = target := by
  have h : (rel32 slot target).toInt = (target : Int) - (slot + 4) := by
    rw [rel32, BitVec.toInt_ofInt]
    exact Int.bmod_eq_of_le (by omega) (by omega)
  rw [relTarget, readRel32_writeRel32, h]
  omega

theorem relTarget_congr {slot : Nat} {m m' : Mem} (h : ∀ x, slot ≤ x → x < slot + 4 → m' x = m x) :
    relTarget m' slot = relTarget m slot := by
  simp only [relTarget, readRel32, h _ (Nat.le_refl _) (by omega), h (slot + 1) (by omega) (by omega),
    h (slot + 2) (by omega) (by omega), h (slot + 3) (by omega) (by omega)]

/-- The x86-64 host, with buffers below a gigabyte. -/
def host : Host where
  canLink := true
  patchLink := writeRel32
  linkBytes := 4
  linkTarget := relTarget
  canRetire := true
  emitJump := emitJump
  jumpBytes := 5
  jumpTarget := jumpTarget
  relocatable := true
  reach := 2 ^ 30 - 2
  patchLink_of_outside h := if_neg (by omega)
  linkTarget_patchLink hs ht := relTarget_writeRel32 (by omega) (by omega)
  linkTarget_congr := relTarget_congr
  emitJump_of_outside {entry target x m} h := by
    have hne : x ≠ entry := by omega
    rw [emitJump, writeRel32, if_neg (by omega), Function.update_of_ne hne]
  jumpTarget_emitJump {entry target m} he ht := by
    have hop : emitJump entry target m entry = 0xE9 := by
      rw [emitJump, writeRel32, if_neg (by omega), Function.update_self]
    rw [jumpTarget, if_pos hop, emitJump, relTarget_writeRel32 (by omega) (by omega)]
  jumpTarget_congr {entry m m'} h := by
    have hrel : relTarget m' (entry + 1) = relTarget m (entry + 1) := by
      apply relTarget_congr
      intro x hx hx'
      exact h x (by omega) (by omega)
    rw [jumpTarget, jumpTarget, h entry (Nat.le_refl _) (by omega), hrel]

end X86

/-! ## Layouts and emissions -/

/-- `emu_jit_link_t`. -/
structure Slot where
  targetPc : Word
  site : Nat
  linked : Bool
  deriving DecidableEq

/-- `emu_jit_layout_t`; `link` holds the first `nlink` entries. -/
structure Layout where
  chainEntry : Nat
  tail : Nat
  link : List Slot
  chainable : Bool
  deriving DecidableEq

/-- A layout describes a block of `len` bytes: the places it names are inside the block, and its
patchable sites are apart. -/
structure Layout.Fits (h : Host) (ly : Layout) (len : Nat) : Prop where
  entry_lt : ly.chainEntry < len
  tail_le : ly.tail ≤ len
  site_le : ∀ l ∈ ly.link, l.site + h.linkBytes ≤ len
  apart : ly.link.Pairwise fun l l' => l.site + h.linkBytes ≤ l'.site ∨ l'.site + h.linkBytes ≤ l.site

/-- What a call of `ops->translate` leaves behind: its result, the emit cursor, the overflow flag,
`emu_jit_layout` and the code buffer. -/
structure Emission where
  insns : Nat
  cursor : Nat
  overflow : Bool
  layout : Layout
  mem : Mem

/-- What the emitters and the lowering keep to: nothing below the start is written and nothing past
the limit, a block has fewer than `2 ^ 16` instructions, and an accepted block comes with a layout
that fits it and has no exit linked. -/
structure Emission.Ok (h : Host) (m : Mem) (start limit : Nat) (e : Emission) : Prop where
  start_le : start ≤ e.cursor
  cursor_le : e.cursor ≤ limit
  frame : ∀ x < start, e.mem x = m x
  insns_lt : e.insns < 2 ^ 16
  fits : e.insns ≠ 0 → e.overflow = false → e.layout.Fits h (e.cursor - start)
  fresh : ∀ l ∈ e.layout.link, l.linked = false

/-- A translator at one pc: what it emits into a given buffer from a given start. -/
structure Translator (h : Host) (limit : Nat) where
  emit : Mem → (start : Nat) → Emission
  ok : ∀ m start, start ≤ limit → (emit m start).Ok h m start limit

/-- A translator for blocks of a fixed shape, as the unit tests of the framework have them: the bytes
do not matter, and a block that does not fit overflows. -/
def stub {h : Host} {limit : Nat} (insns len : Nat) (ly : Layout) (hi : insns < 2 ^ 16) (hf : ly.Fits h len)
    (hl : ∀ l ∈ ly.link, l.linked = false) : Translator h limit where
  emit m start := ⟨insns, if start + len ≤ limit then start + len else start, limit < start + len, ly, m⟩
  ok m start hs := by
    refine ⟨?_, ?_, fun _ _ => rfl, hi, ?_, hl⟩
    · dsimp only
      split <;> omega
    · dsimp only
      split <;> omega
    · intro _ hov
      have hle : start + len ≤ limit := by simpa using hov
      simpa [hle] using hf

end Emu.Jit
