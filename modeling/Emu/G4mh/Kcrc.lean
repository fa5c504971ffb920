-- SUMMARY: The CRC unit: its register is the remainder of the message in binary polynomials, for every width up to the word.
import Emu.Ir.Syntax
import Emu.Lib.Masks
import Emu.Lib.ShiftRegister

/-! # The CRC unit

A byte is shifted in bit by bit, with the register's low `w` bits taken out of its 64 and put back. Reflection is a loop over
bits too, and turns up three times: for the polynomial, for a byte of input and for the result. -/

namespace Emu.G4mh

namespace Kcrc

def dinOff : Nat := 0x00
def dout0Off : Nat := 0x80
def dout1Off : Nat := 0x84
def ctlOff : Nat := 0x90
def poly0Off : Nat := 0xA0
def poly1Off : Nat := 0xA4
def xor0Off : Nat := 0xB0
def xor1Off : Nat := 0xB4

def ctlPsizeShift : Nat := 16
def ctlPsizeMask : Word := 0x3F0000
def ctlCmd0 : Word := 0x100
def ctlCmd1 : Word := 0x20
def ctlCmd2 : Word := 0x10
def ctlDwMask : Word := 7
def ctlWritable : Word := ctlPsizeMask ||| ctlCmd0 ||| ctlCmd1 ||| ctlCmd2 ||| ctlDwMask
def ctlReset : Word := 0x001F0000

end Kcrc

/-- `g4mh_kcrc_t`. -/
structure Kcrc where
  state : BitVec 64
  poly : BitVec 64
  mask : BitVec 64
  ctl : Word
  din : Word
  deriving DecidableEq

namespace Kcrc

/-- `g4mh_kcrc_init`. -/
def init : Kcrc where
  state := 0xFFFFFFFF
  poly := 0x04C11DB7
  mask := 0xFFFFFFFF
  ctl := ctlReset
  din := 0

/-- `width`. -/
def width (k : Kcrc) : Nat := ((k.ctl &&& ctlPsizeMask) >>> ctlPsizeShift).toNat + 1

/-- `width_mask`. -/
def widthMask (w : Nat) : BitVec 64 := if 64 ≤ w then ~~~0 else ((1 : BitVec 64) <<< w) - 1

/-- `reflect`. -/
def reflect (v : BitVec 64) (w : Nat) : BitVec 64 :=
  (List.range w).foldl (fun r i => (r <<< 1) ||| ((v >>> i) &&& 1)) 0

/-- `lsb_first`. -/
def lsbFirst (k : Kcrc) : Bool := k.ctl &&& ctlCmd2 ≠ 0

/-- `refin`. -/
def refin (k : Kcrc) : Bool := (k.ctl &&& ctlCmd1 ≠ 0 : Bool) != k.lsbFirst

/-- `refout`. -/
def refout (k : Kcrc) : Bool := (k.ctl &&& ctlCmd0 ≠ 0 : Bool) != k.lsbFirst

/-- The body of `feed_byte`'s loop. -/
def feedBit (wm top poly s : BitVec 64) (b : Bool) : BitVec 64 :=
  if (s &&& top ≠ 0 : Bool) != b then ((s <<< 1) &&& wm) ^^^ poly else (s <<< 1) &&& wm

/-- `feed_byte`. -/
def feedByte (k : Kcrc) (byte : Word) : Kcrc :=
  let w := k.width
  let wm := widthMask w
  let top := (1 : BitVec 64) <<< (w - 1)
  let poly := (if k.lsbFirst then reflect k.poly w else k.poly) &&& wm
  let b : Word := if k.refin then (reflect ((byte &&& 0xFF).setWidth 64) 8).setWidth 32 else byte &&& 0xFF
  let s := ((List.range 8).map fun i => decide ((b >>> (7 - i)) &&& 1 ≠ 0)).foldl (feedBit wm top poly) (k.state &&& wm)
  { k with state := (k.state &&& ~~~wm) ||| s }

/-- `result`. -/
def result (k : Kcrc) : BitVec 64 :=
  let w := k.width
  let s := k.state &&& widthMask w
  ((if k.refout then reflect s w else s) ^^^ k.mask) &&& widthMask w

/-- `kcrc_read`; a load fault is `none`. -/
def read (k : Kcrc) (off size : Nat) : Option Word :=
  if off = dinOff then some k.din
  else if size ≠ 4 ∨ off % 4 ≠ 0 then none
  else if off = dout0Off then some (k.result.setWidth 32)
  else if off = dout1Off then some ((k.result >>> 32).setWidth 32)
  else if off = ctlOff then some k.ctl
  else if off = poly0Off then some (k.poly.setWidth 32)
  else if off = poly1Off then some ((k.poly >>> 32).setWidth 32)
  else if off = xor0Off then some (k.mask.setWidth 32)
  else if off = xor1Off then some ((k.mask >>> 32).setWidth 32)
  else some 0

/-- The bytes of a DIN write that take part. -/
def dinBytes (k : Kcrc) : Nat :=
  let dw := k.ctl &&& ctlDwMask
  if dw = 3 then 1 else if dw = 1 then 2 else 4

/-- A write of DIN. -/
def writeDin (k : Kcrc) (val : Word) : Kcrc :=
  (List.range k.dinBytes).foldl (fun k i => k.feedByte (val >>> (8 * i))) { k with din := val }

def putLow (v : BitVec 64) (val : Word) : BitVec 64 := (v &&& 0xFFFFFFFF00000000) ||| val.setWidth 64

def putHigh (v : BitVec 64) (val : Word) : BitVec 64 := (v &&& 0xFFFFFFFF) ||| (val.setWidth 64 <<< 32)

/-- `kcrc_write`; a store fault is `none`. -/
def write (k : Kcrc) (off size : Nat) (val : Word) : Option Kcrc :=
  if off = dinOff then some (k.writeDin val)
  else if size ≠ 4 ∨ off % 4 ≠ 0 then none
  else if off = dout0Off then some { k with state := putLow k.state val }
  else if off = dout1Off then some { k with state := putHigh k.state val }
  else if off = ctlOff then some { k with ctl := (val &&& ctlWritable) ||| (ctlReset &&& ~~~ctlWritable) }
  else if off = poly0Off then some { k with poly := putLow k.poly val }
  else if off = poly1Off then some { k with poly := putHigh k.poly val }
  else if off = xor0Off then some { k with mask := putLow k.mask val }
  else if off = xor1Off then some { k with mask := putHigh k.mask val }
  else some k

/-! ## Bits -/

theorem width_pos (k : Kcrc) : 0 < k.width := Nat.succ_pos _

theorem width_le (k : Kcrc) : k.width ≤ 64 := by
  have hle : ((k.ctl &&& ctlPsizeMask) >>> ctlPsizeShift).toNat ≤ 63 := by
    rw [BitVec.toNat_ushiftRight, BitVec.toNat_and, Nat.shiftRight_eq_div_pow]
    have hand : k.ctl.toNat &&& ctlPsizeMask.toNat ≤ ctlPsizeMask.toNat := Nat.and_le_right
    exact (Nat.div_le_div_right hand).trans (by decide)
  exact Nat.succ_le_succ hle

theorem getLsbD_widthMask {w : Nat} {i : Nat} (hi : i < 64) : (widthMask w).getLsbD i = decide (i < w) := by
  rw [widthMask]
  split_ifs with hw
  · rw [BitVec.getLsbD_not, decide_eq_true hi, decide_eq_true (hi.trans_le hw), show (0 : BitVec 64) = 0#64 from rfl,
      BitVec.getLsbD_zero]
    rfl
  · have hlow : ((1 : BitVec 64) <<< w - 1) = BitVec.ofNat 64 (2 ^ w - 1) := by
      have hpow : 2 ^ w < 2 ^ 64 := Nat.pow_lt_pow_right (by decide) (not_le.mp hw)
      have hpos := Nat.two_pow_pos w
      apply BitVec.eq_of_toNat_eq
      have hone : ((1 : BitVec 64) <<< w).toNat = 2 ^ w := by
        rw [BitVec.toNat_shiftLeft, show (1 : BitVec 64).toNat = 1 from rfl, Nat.one_shiftLeft]
        exact Nat.mod_eq_of_lt hpow
      rw [BitVec.toNat_sub_of_le, hone, BitVec.toNat_ofNat, Nat.mod_eq_of_lt (by omega)]
      · rfl
      · rw [BitVec.le_def, hone]
        exact hpos
    rw [hlow, BitVec.getLsbD_ofNat, Nat.testBit_two_pow_sub_one, decide_eq_true hi, Bool.true_and]

theorem getLsbD_reflect (v : BitVec 64) {w : Nat} (hw : w ≤ 64) (i : Nat) :
    (reflect v w).getLsbD i = (i < w && v.getLsbD (w - 1 - i)) := by
  induction w generalizing i with
  | zero => simp [reflect]
  | succ w ih =>
    have hnext : reflect v (w + 1) = (reflect v w <<< 1) ||| ((v >>> w) &&& 1) := by
      rw [reflect, List.range_succ, List.foldl_append, List.foldl_cons, List.foldl_nil, ← reflect]
    have hone (j : Nat) : (1 : BitVec 64).getLsbD j = decide (j = 0) := by simp
    rw [hnext, BitVec.getLsbD_or, BitVec.getLsbD_and, BitVec.getLsbD_shiftLeft, BitVec.getLsbD_ushiftRight, hone,
      ih (Nat.le_of_succ_le hw)]
    cases i with
    | zero => simp
    | succ i =>
      have hsub : w - (i + 1) = w - 1 - i := by omega
      have hlt : (i + 1 < w + 1) = (i < w) := propext Nat.succ_lt_succ_iff
      simp only [Nat.add_sub_cancel, hsub, hlt, Nat.succ_ne_zero, decide_false, Bool.and_false, Bool.or_false]
      by_cases hi : i < w
      · have hbound : i + 1 < 64 := by omega
        simp [hi, hbound]
      · simp [hi]

theorem and_top_ne_zero (s : BitVec 64) {n : Nat} (hn : n < 64) : decide (s &&& ((1 : BitVec 64) <<< n) ≠ 0) = s.getLsbD n := by
  have htop : (1 : BitVec 64) <<< n = BitVec.twoPow 64 n := (BitVec.twoPow_eq ..).symm
  have hzero := Masks.and_twoPow_eq_zero (x := s) hn
  rw [htop]
  cases hs : s.getLsbD n
  · exact decide_eq_false (not_not.mpr (hzero.mpr hs))
  · exact decide_eq_true fun h => Bool.false_ne_true ((hzero.mp h).symm.trans hs)

/-! ## The register as a polynomial -/

open ShiftRegister Polynomial

/-- The polynomial's bit at `x ^ i`. -/
def polyBit (k : Kcrc) (i : Nat) : Bool := k.poly.getLsbD (if k.lsbFirst then k.width - 1 - i else i)

/-- The low bits of the register. -/
noncomputable def register (k : Kcrc) : (ZMod 2)[X] := ofBits k.width k.state.getLsbD

/-- The generator without its highest term. -/
noncomputable def generator (k : Kcrc) : (ZMod 2)[X] := ofBits k.width k.polyBit

/-- The bits of a byte of input, in the order they are fed. -/
def byteBits (k : Kcrc) (byte : Word) : List Bool :=
  (List.range 8).map fun i => byte.getLsbD (if k.refin then i else 7 - i)

/-- The bits of a DIN write. -/
def messageBits (k : Kcrc) (val : Word) : List Bool := (List.range k.dinBytes).flatMap fun i => k.byteBits (val >>> (8 * i))

theorem length_byteBits (k : Kcrc) (byte : Word) : (k.byteBits byte).length = 8 := by
  rw [byteBits, List.length_map, List.length_range]

theorem length_messageBits (k : Kcrc) (val : Word) : (k.messageBits val).length = 8 * k.dinBytes := by
  rw [messageBits, List.length_flatMap]
  simp [length_byteBits, Nat.mul_comm]

/-- The generator that `feed_byte` adds. -/
theorem getLsbD_feedPoly (k : Kcrc) {i : Nat} (hi : i < k.width) :
    ((if k.lsbFirst then reflect k.poly k.width else k.poly) &&& widthMask k.width).getLsbD i = k.polyBit i := by
  have hle := k.width_le
  rw [BitVec.getLsbD_and, getLsbD_widthMask (by omega), decide_eq_true hi, Bool.and_true, polyBit]
  split_ifs
  · rw [getLsbD_reflect _ hle, decide_eq_true hi, Bool.true_and]
  · rfl

/-- The bit that `feed_byte` takes at each turn. -/
theorem feedBits_eq (k : Kcrc) (byte : Word) :
    ((List.range 8).map fun i => decide (((if k.refin then (reflect ((byte &&& 0xFF).setWidth 64) 8).setWidth 32
      else byte &&& 0xFF : Word) >>> (7 - i)) &&& 1 ≠ 0)) = k.byteBits byte := by
  refine List.map_congr_left fun i hi => ?_
  have hi' : i < 8 := List.mem_range.mp hi
  have hlow (j : Nat) (hj : j < 8) : (byte &&& 0xFF).getLsbD j = byte.getLsbD j := by
    have hff : ∀ j : Fin 8, (0xFF : Word).getLsbD j = true := by decide
    rw [BitVec.getLsbD_and, hff ⟨j, hj⟩, Bool.and_true]
  have htest (x : Word) (j : Nat) : decide ((x >>> j) &&& 1 ≠ 0) = x.getLsbD j := by
    have hzero := Masks.shiftRight_and_one_eq_zero x j
    cases hx : x.getLsbD j
    · exact decide_eq_false (not_not.mpr (hzero.mpr hx))
    · exact decide_eq_true fun h => Bool.false_ne_true ((hzero.mp h).symm.trans hx)
  rw [htest]
  split_ifs
  · rw [BitVec.getLsbD_setWidth, getLsbD_reflect _ (by decide), BitVec.getLsbD_setWidth, hlow _ (by omega),
      show 8 - 1 - (7 - i) = i by omega, decide_eq_true (by omega : 7 - i < 32), decide_eq_true (by omega : 7 - i < 8),
      decide_eq_true (by omega : i < 64)]
    rfl
  · exact hlow _ (by omega)

theorem getLsbD_feedBit {w : Nat} (hpos : 0 < w) (hle : w ≤ 64) {poly : BitVec 64} {p : Nat → Bool}
    (hpoly : ∀ i < w, poly.getLsbD i = p i) (s : BitVec 64) (b : Bool) :
    ∀ i < w, (feedBit (widthMask w) ((1 : BitVec 64) <<< (w - 1)) poly s b).getLsbD i = shift w p s.getLsbD b i := by
  intro i hi
  have hshift : ((s <<< 1) &&& widthMask w).getLsbD i = (0 < i && s.getLsbD (i - 1)) := by
    rw [BitVec.getLsbD_and, getLsbD_widthMask (by omega), decide_eq_true hi, Bool.and_true, BitVec.getLsbD_shiftLeft,
      decide_eq_true (by omega : i < 64), Bool.true_and]
    cases i <;> rfl
  rw [feedBit, and_top_ne_zero s (by omega), shift, ← hpoly i hi, ← hshift]
  cases s.getLsbD (w - 1) <;> cases b <;> simp

/-- What a byte does to the register. -/
theorem register_feedByte (k : Kcrc) (byte : Word) :
    (k.feedByte byte).register = remainder k.width k.generator k.register (k.byteBits byte) := by
  have hle := k.width_le
  have hfeed := ofBits_foldl k.width_pos (getLsbD_feedBit k.width_pos hle fun _ hi => k.getLsbD_feedPoly hi)
    (k.state &&& widthMask k.width) (k.byteBits byte)
  have hlow : ofBits k.width (k.state &&& widthMask k.width).getLsbD = k.register := by
    refine ofBits_congr fun i hi => ?_
    rw [BitVec.getLsbD_and, getLsbD_widthMask (by omega), decide_eq_true hi, Bool.and_true]
  rw [hlow] at hfeed
  refine Eq.trans (ofBits_congr fun i hi => ?_) hfeed
  change i < k.width at hi
  rw [feedByte]
  dsimp only
  rw [feedBits_eq, BitVec.getLsbD_or, BitVec.getLsbD_and, BitVec.getLsbD_not, getLsbD_widthMask (by omega), decide_eq_true hi,
    Bool.not_true, Bool.and_false, Bool.and_false, Bool.false_or]

/-! ## Runs of input -/

/-- The unit after some input: set up as it was, with the remainder in its register. -/
structure Fed (k : Kcrc) (bits : List Bool) (k' : Kcrc) : Prop where
  poly : k'.poly = k.poly
  mask : k'.mask = k.mask
  ctl : k'.ctl = k.ctl
  register : k'.register = remainder k.width k.generator k.register bits

variable {k k' k'' : Kcrc}

theorem Fed.refl (k : Kcrc) : Fed k [] k where
  poly := rfl
  mask := rfl
  ctl := rfl
  register := (remainder_nil (degree_ofBits_lt ..) (degree_ofBits_lt ..)).symm

theorem Fed.width {bits : List Bool} (h : Fed k bits k') : k'.width = k.width := by
  rw [Kcrc.width, h.ctl]
  rfl

theorem Fed.generator {bits : List Bool} (h : Fed k bits k') : k'.generator = k.generator := by
  have hbit : k'.polyBit = k.polyBit := by
    funext i
    rw [polyBit, lsbFirst, h.width, h.ctl, h.poly]
    rfl
  rw [Kcrc.generator, h.width, hbit]
  rfl

theorem Fed.trans {a b : List Bool} (h : Fed k a k') (h' : Fed k' b k'') : Fed k (a ++ b) k'' where
  poly := h'.poly.trans h.poly
  mask := h'.mask.trans h.mask
  ctl := h'.ctl.trans h.ctl
  register := by
    rw [h'.register, h.width, h.generator, h.register]
    exact remainder_append (degree_ofBits_lt ..) ..

theorem Fed.refout {bits : List Bool} (h : Fed k bits k') : k'.refout = k.refout := by
  rw [Kcrc.refout, lsbFirst, h.ctl]
  rfl

theorem Fed.byteBits {bits : List Bool} (h : Fed k bits k') (byte : Word) : k'.byteBits byte = k.byteBits byte := by
  rw [Kcrc.byteBits, refin, lsbFirst, h.ctl]
  rfl

theorem Fed.messageBits {bits : List Bool} (h : Fed k bits k') (val : Word) : k'.messageBits val = k.messageBits val := by
  rw [Kcrc.messageBits, dinBytes, h.ctl]
  exact List.flatMap_congr fun i _ => h.byteBits _

theorem fed_feedByte (k : Kcrc) (byte : Word) : Fed k (k.byteBits byte) (k.feedByte byte) where
  poly := rfl
  mask := rfl
  ctl := rfl
  register := k.register_feedByte byte

theorem fed_writeDin (k : Kcrc) (val : Word) : Fed k (k.messageBits val) (k.writeDin val) := by
  -- the loop over the bytes, from any point of it
  have hloop (is : List Nat) {bits : List Bool} {k' : Kcrc} (h : Fed k bits k') :
      Fed k (bits ++ is.flatMap fun i => k.byteBits (val >>> (8 * i)))
        (is.foldl (fun k i => k.feedByte (val >>> (8 * i))) k') := by
    induction is generalizing bits k' with
    | nil =>
      rw [List.flatMap_nil, List.append_nil]
      exact h
    | cons i is ih =>
      have hbyte := h.trans (k'.fed_feedByte (val >>> (8 * i)))
      rw [h.byteBits] at hbyte
      rw [List.flatMap_cons, ← List.append_assoc]
      exact ih hbyte
  have hstart : Fed k [] { k with din := val } := { Fed.refl k with }
  exact hloop (List.range k.dinBytes) hstart

/-- A series of writes. -/
def writes (k : Kcrc) (ws : List (Nat × Nat × Word)) : Option Kcrc := ws.foldlM (fun k w => k.write w.1 w.2.1 w.2.2) k

/-- The writes of DIN of a series of sizes and values. -/
def dinWrites (ds : List (Nat × Word)) : List (Nat × Nat × Word) := ds.map fun d => (dinOff, d.1, d.2)

/-- The message of a series of DIN writes. -/
def inputBits (k : Kcrc) (ds : List (Nat × Word)) : List Bool := ds.flatMap fun d => k.messageBits d.2

theorem length_inputBits (k : Kcrc) (ds : List (Nat × Word)) :
    (k.inputBits ds).length = 8 * (k.dinBytes * ds.length) := by
  rw [inputBits, List.length_flatMap]
  simp only [length_messageBits, List.map_const', List.sum_replicate, smul_eq_mul]
  ring

theorem fed_dinWrites (k : Kcrc) (ds : List (Nat × Word)) :
    ∃ k', k.writes (dinWrites ds) = some k' ∧ Fed k (k.inputBits ds) k' := by
  have hrun (ds : List (Nat × Word)) {bits : List Bool} {k₁ : Kcrc} (h : Fed k bits k₁) :
      ∃ k', k₁.writes (dinWrites ds) = some k' ∧ Fed k (bits ++ k.inputBits ds) k' := by
    induction ds generalizing bits k₁ with
    | nil =>
      refine ⟨k₁, rfl, ?_⟩
      rw [inputBits, List.flatMap_nil, List.append_nil]
      exact h
    | cons d ds ih =>
      have hdin := h.trans (k₁.fed_writeDin d.2)
      rw [h.messageBits] at hdin
      rw [inputBits, List.flatMap_cons, ← List.append_assoc]
      exact ih hdin
  exact hrun ds (Fed.refl k)

/-! ## The result -/

theorem getLsbD_result (k : Kcrc) (i : Nat) :
    k.result.getLsbD i = (i < k.width && (k.state.getLsbD (if k.refout then k.width - 1 - i else i) ^^ k.mask.getLsbD i)) := by
  have hle := k.width_le
  rw [result]
  by_cases hi : i < k.width
  · rw [BitVec.getLsbD_and, getLsbD_widthMask (by omega), BitVec.getLsbD_xor, decide_eq_true hi, Bool.and_true, Bool.true_and]
    congr 1
    split_ifs
    · rw [getLsbD_reflect _ hle, decide_eq_true hi, Bool.true_and, BitVec.getLsbD_and, getLsbD_widthMask (by omega),
        decide_eq_true (by omega), Bool.and_true]
    · rw [BitVec.getLsbD_and, getLsbD_widthMask (by omega), decide_eq_true hi, Bool.and_true]
  · rw [decide_eq_false hi, Bool.false_and, BitVec.getLsbD_and]
    by_cases h64 : i < 64
    · rw [getLsbD_widthMask h64, decide_eq_false hi, Bool.and_false]
    · rw [BitVec.getLsbD_of_ge _ _ (not_lt.mp h64), Bool.false_and]

/-- The two halves that are read are the result. -/
theorem halves_result (k : Kcrc) : ((k.result >>> 32).setWidth 32 ++ k.result.setWidth 32 : BitVec 64) = k.result := by
  apply BitVec.eq_of_getLsbD_eq
  intro i hi
  rw [BitVec.getLsbD_append]
  by_cases hlow : i < 32
  · simp [hlow]
  · have hhigh : i - 32 < 32 := by omega
    have hsum : 32 + (i - 32) = i := by omega
    simp [hlow, hhigh, hsum]

/-- Any DIN writes leave in the register the remainder of the message after the register's value, and DOUT shows it: reflected
if the output is, and with the mask added. -/
theorem register_remainder (k : Kcrc) (ds : List (Nat × Word)) :
    ∃ k' lo hi, k.writes (dinWrites ds) = some k' ∧ k'.read dout0Off 4 = some lo ∧ k'.read dout1Off 4 = some hi ∧
      let n := k.dinBytes * ds.length
      let w := k.width
      let value := (k.register * X ^ (8 * n) + message (k.inputBits ds) * X ^ w) %ₘ (X ^ w + k.generator)
      (k.inputBits ds).length = 8 * n ∧ k'.register = value ∧
        ∀ i, bit ((hi ++ lo : BitVec 64).getLsbD i) =
          if i < w then value.coeff (if k.refout then w - 1 - i else i) + bit (k.mask.getLsbD i) else 0 := by
  obtain ⟨k', hwrites, hfed⟩ := k.fed_dinWrites ds
  have hlength := k.length_inputBits ds
  have hvalue := hfed.register
  rw [remainder, hlength] at hvalue
  refine ⟨k', _, _, hwrites, rfl, rfl, hlength, hvalue, fun i => ?_⟩
  rw [halves_result, getLsbD_result, hfed.width, hfed.mask, hfed.refout]
  by_cases hi : i < k.width
  · have hlt : (if k.refout then k.width - 1 - i else i) < k'.width := by
      rw [hfed.width]
      split_ifs <;> omega
    rw [decide_eq_true hi, Bool.true_and, if_pos hi, bit_xor, ← hvalue, register, coeff_ofBits, if_pos hlt]
  · rw [decide_eq_false hi, Bool.false_and, if_neg hi]
    rfl

-- the manual's CCITT sequence: two words and, with DW switched, a byte
example : ((init.writes [(ctlOff, 4, 0x000F0000), (poly0Off, 4, 0x1021), (xor0Off, 4, 0), (dout0Off, 4, 0xFFFF),
    (dinOff, 4, 0x34333231), (dinOff, 4, 0x38373635), (ctlOff, 4, 0x000F0003), (dinOff, 1, 0x39)]).bind
      fun k => k.read dout0Off 4) = some 0x29B1 := by decide +kernel

end Kcrc

end Emu.G4mh
