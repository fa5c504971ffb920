-- SUMMARY: The interrupt controller of the hart: its registers, the source it would deliver and what it tells the outside.
import Emu.Lib.BitWalk
import Emu.Lib.FirstMin
import Emu.Rv.Interrupts

/-! # The APLIC

One interrupt domain in direct delivery mode, for one hart. Its pending and enable bits are rows of words, each source has
a mode and a priority, and two calls leave it: the level of the external interrupt goes to the hart, and the platform is
told of a pending bit that was cleared. Each operation gives the state after it and the calls it makes, in order. -/

namespace Emu.Rv

namespace Aplic

/-! ## Registers -/

/-- `RV_APLIC_SOURCES`. -/
def sources : Nat := 128

/-- `RV_APLIC_WORDS`. -/
def words : Nat := sources / 32

def domaincfgOff : Nat := 0x0000
def sourcecfgOff : Nat := 0x0004
def setipOff : Nat := 0x1C00
def setipnumOff : Nat := 0x1CDC
def inClripOff : Nat := 0x1D00
def clripnumOff : Nat := 0x1DDC
def setieOff : Nat := 0x1E00
def setienumOff : Nat := 0x1EDC
def clrieOff : Nat := 0x1F00
def clrienumOff : Nat := 0x1FDC
def targetOff : Nat := 0x3004
def idcOff : Nat := 0x4000
def ideliveryOff : Nat := 0x00
def iforceOff : Nat := 0x04
def ithresholdOff : Nat := 0x08
def topiOff : Nat := 0x18
def claimiOff : Nat := 0x1C

def domaincfgIe : Word := 1 <<< 8
def domaincfgRo : Word := 0x80000000

/-- `RV_APLIC_SM_INACTIVE`. -/
def smInactive : Byte := 0
def smLevelHigh : Byte := 6
def smLevelLow : Byte := 7

/-- What the controller calls. -/
inductive Call where
  /-- `rv_hart_set_irq`. -/
  | setIrq (cause : Irq) (level : Bool)
  /-- The hook of `rv_aplic_set_eoi`. -/
  | eoi (source : Nat)
  deriving DecidableEq, Repr

end Aplic

/-- `rv_aplic_t`: `hart` and `eoi` say whether there is a hart and a hook. -/
structure Aplic where
  domaincfg : Word
  sourcecfg : Nat → Byte
  target : Nat → Byte
  pending : Nat → Word
  enabled : Nat → Word
  idelivery : Word
  iforce : Word
  ithreshold : Word
  hart : Bool
  eoi : Bool
  targetInt : Irq

namespace Aplic

/-! ## The source that would be delivered -/

/-- `src_active`. -/
def srcActive (a : Aplic) (i : Nat) : Bool :=
  i ≠ 0 && i < sources && (a.sourcecfg i &&& 7) ≠ smInactive

def isPending (a : Aplic) (i : Nat) : Bool := BitWalk.bitAt a.pending i

def isEnabled (a : Aplic) (i : Nat) : Bool := BitWalk.bitAt a.enabled i

/-- The priority of a source: a target of 0 is read as 1. -/
def prio (a : Aplic) (i : Nat) : Nat := if a.target i = 0 then 1 else (a.target i).toNat

/-- The search of `aplic_topi`: the best source so far and its priority. -/
def search (a : Aplic) : Nat × Nat :=
  (List.range' 1 (sources - 1)).foldl (fun best i =>
    if !(a.isPending i && a.isEnabled i) || !a.srcActive i then best
    else if best.1 = 0 || a.prio i < best.2 then (i, a.prio i)
    else best) (0, 0)

/-- What `topi` and `claimi` read for a source. -/
def claimWord (i prio : Nat) : Word := BitVec.ofNat 32 i <<< 16 ||| (BitVec.ofNat 32 prio &&& 0xFF)

/-- `aplic_topi`. -/
def topi (a : Aplic) : Word :=
  if a.search.1 = 0 then 0
  -- only the best is held against the threshold
  else if a.ithreshold ≠ 0 ∧ a.ithreshold.toNat ≤ a.search.2 then 0
  else claimWord a.search.1 a.search.2

/-- The level that `aplic_update` works out. -/
def deliver (a : Aplic) : Bool :=
  a.domaincfg &&& domaincfgIe ≠ 0 && a.idelivery ≠ 0 && (a.topi ≠ 0 || a.iforce ≠ 0)

/-- `aplic_update`. -/
def update (a : Aplic) : List Call := if a.hart then [.setIrq a.targetInt a.deliver] else []

/-- A state and the calls so far, with `aplic_update` at the end. -/
def updated (r : Aplic × List Call) : Aplic × List Call := (r.1, r.2 ++ r.1.update)

/-! ## Pending bits -/

/-- `aplic_clear_pending`. -/
def clearPending (a : Aplic) (word : Nat) (mask : Word) : Aplic × List Call :=
  let cleared := a.pending word &&& mask
  ({ a with pending := Function.update a.pending word (a.pending word &&& ~~~mask) },
    if a.eoi then ((List.range 32).filter cleared.getLsbD).map fun b => .eoi (word * 32 + b) else [])

/-- A turn of `aplic_set_pending`. -/
def setPendingBit (word : Nat) (mask : Word) (a : Aplic) (b : Nat) : Aplic :=
  if mask.getLsbD b && a.srcActive (word * 32 + b) then
    { a with pending := Function.update a.pending word (a.pending word ||| BitVec.twoPow 32 b) }
  else a

/-- `aplic_set_pending`. -/
def setPending (a : Aplic) (word : Nat) (mask : Word) : Aplic := (List.range 32).foldl (setPendingBit word mask) a

/-! ## Accesses -/

/-- The test of a range of registers. -/
def within (base count off : Nat) : Bool := base ≤ off && off < base + 4 * count

/-- What `in_clrip` reads: the pending bits of the level sources of the first word. -/
def rectified (a : Aplic) : Word :=
  (List.range' 1 31).foldl (fun out i =>
    let sm := a.sourcecfg i &&& 7
    if (sm = smLevelHigh ∨ sm = smLevelLow) ∧ (a.pending 0).getLsbD i then out ||| BitVec.twoPow 32 i else out) 0

/-- A read of `claimi`. -/
def claim (a : Aplic) : Word × Aplic × List Call :=
  (a.topi, updated <|
    if a.topi = 0 then ({ a with iforce := 0 }, [])
    else
      let src := (a.topi >>> 16).toNat
      a.clearPending (src / 32) (BitVec.twoPow 32 (src % 32)))

/-- `aplic_read`. -/
def read (a : Aplic) (off size : Nat) : Except Fault (Word × Aplic × List Call) :=
  if size ≠ 4 ∨ off % 4 ≠ 0 then .error .load
  else if off = domaincfgOff then .ok (domaincfgRo ||| (a.domaincfg &&& domaincfgIe), a, [])
  else if within sourcecfgOff 1023 off then
    let i := (off - sourcecfgOff) / 4 + 1
    .ok (if i < sources then (a.sourcecfg i &&& 7).setWidth 32 else 0, a, [])
  else if within targetOff 1023 off then
    let i := (off - targetOff) / 4 + 1
    .ok (if i < sources ∧ a.srcActive i then (a.target i).setWidth 32 else 0, a, [])
  else if within setipOff 32 off then
    let w := (off - setipOff) / 4
    .ok (if w < words then a.pending w else 0, a, [])
  else if within setieOff 32 off then
    let w := (off - setieOff) / 4
    .ok (if w < words then a.enabled w else 0, a, [])
  else if off = inClripOff then .ok (a.rectified, a, [])
  else if off = idcOff + ideliveryOff then .ok (a.idelivery, a, [])
  else if off = idcOff + iforceOff then .ok (a.iforce, a, [])
  else if off = idcOff + ithresholdOff then .ok (a.ithreshold, a, [])
  else if off = idcOff + topiOff then .ok (a.topi, a, [])
  else if off = idcOff + claimiOff then .ok a.claim
  else .ok (0, a, [])

/-- The mode that a value written to `sourcecfg` gives: delegation and the undefined modes leave a source inactive. -/
def modeOf (val : Word) : Byte :=
  let sm := (val &&& 7).setWidth 8
  if val.getLsbD 10 ∨ sm = 2 ∨ sm = 3 then smInactive else sm

/-- A write of `sourcecfg`. -/
def setSourcecfg (a : Aplic) (i : Nat) (val : Word) : Aplic :=
  let a := { a with sourcecfg := Function.update a.sourcecfg i (modeOf val) }
  if modeOf val = smInactive then
    { a with
      pending := Function.update a.pending (i / 32) (a.pending (i / 32) &&& ~~~BitVec.twoPow 32 (i % 32))
      enabled := Function.update a.enabled (i / 32) (a.enabled (i / 32) &&& ~~~BitVec.twoPow 32 (i % 32)) }
  else a

/-- `enabled[w] |= mask`. -/
def enable (a : Aplic) (w : Nat) (mask : Word) : Aplic :=
  { a with enabled := Function.update a.enabled w (a.enabled w ||| mask) }

/-- `enabled[w] &= ~mask`. -/
def disable (a : Aplic) (w : Nat) (mask : Word) : Aplic :=
  { a with enabled := Function.update a.enabled w (a.enabled w &&& ~~~mask) }

/-- `aplic_write`. -/
def write (a : Aplic) (off size : Nat) (val : Word) : Except Fault (Aplic × List Call) :=
  if size ≠ 4 ∨ off % 4 ≠ 0 then .error .store
  else if off = domaincfgOff then .ok (updated ({ a with domaincfg := val &&& domaincfgIe }, []))
  else if within sourcecfgOff 1023 off then
    let i := (off - sourcecfgOff) / 4 + 1
    .ok (if i < sources then updated (a.setSourcecfg i val, []) else (a, []))
  else if within targetOff 1023 off then
    let i := (off - targetOff) / 4 + 1
    .ok (if i < sources then
      updated ({ a with target := Function.update a.target i ((val &&& 0xFF).setWidth 8) }, []) else (a, []))
  else if within setipOff 32 off then
    let w := (off - setipOff) / 4
    .ok (updated (if w < words then a.setPending w val else a, []))
  else if within inClripOff 32 off then
    let w := (off - inClripOff) / 4
    .ok (updated (if w < words then a.clearPending w val else (a, [])))
  else if within setieOff 32 off then
    let w := (off - setieOff) / 4
    .ok (updated (if w < words then a.enable w (if w = 0 then val &&& ~~~1 else val) else a, []))
  else if within clrieOff 32 off then
    let w := (off - clrieOff) / 4
    .ok (updated (if w < words then a.disable w val else a, []))
  else
    let n := val.toNat
    let bit := BitVec.twoPow 32 (n % 32)
    .ok (updated (
      if off = setipnumOff then (if n < sources then a.setPending (n / 32) bit else a, [])
      else if off = clripnumOff then (if n < sources ∧ n ≠ 0 then a.clearPending (n / 32) bit else (a, []))
      else if off = setienumOff then (if n < sources ∧ n ≠ 0 then a.enable (n / 32) bit else a, [])
      else if off = clrienumOff then (if n < sources ∧ n ≠ 0 then a.disable (n / 32) bit else a, [])
      else if off = idcOff + ideliveryOff then ({ a with idelivery := val &&& 1 }, [])
      else if off = idcOff + iforceOff then ({ a with iforce := val &&& 1 }, [])
      else if off = idcOff + ithresholdOff then ({ a with ithreshold := val &&& 0xFF }, [])
      -- topi and claimi are read-only
      else (a, [])))

/-! ## The platform's side -/

/-- `rv_aplic_init`. -/
def init (hart : Bool) : Aplic × List Call :=
  updated ({ domaincfg := 0, sourcecfg := fun _ => 0, target := fun _ => 1, pending := fun _ => 0, enabled := fun _ => 0,
             idelivery := 0, iforce := 0, ithreshold := 0, hart := hart, eoi := false, targetInt := .mExt }, [])

/-- `rv_aplic_set_eoi`. -/
def setEoi (a : Aplic) (hook : Bool) : Aplic := { a with eoi := hook }

/-- `rv_aplic_set_smode`. -/
def setSmode (a : Aplic) (on : Bool) : Aplic := { a with targetInt := if on then .sExt else .mExt }

/-- `rv_aplic_raise`. -/
def raise (a : Aplic) (source : Nat) : Aplic × List Call :=
  if source = 0 ∨ sources ≤ source then (a, [])
  else updated (a.setPending (source / 32) (BitVec.twoPow 32 (source % 32)), [])

/-- The register's number is in its offset. -/
theorem offset_of_within {base count off : Nat} (h : within base count off = true) (hbase : base % 4 = 0)
    (hoff : off % 4 = 0) : base + 4 * ((off - base) / 4) = off := by
  rw [within, Bool.and_eq_true, decide_eq_true_eq] at h
  omega

/-! ## Bits -/

theorem bitAt_update (row : Nat → Word) (w : Nat) (v : Word) (i : Nat) :
    BitWalk.bitAt (Function.update row w v) i = if i / 32 = w then v.getLsbD (i % 32) else BitWalk.bitAt row i := by
  rw [BitWalk.bitAt, BitWalk.bitAt]
  split_ifs with h
  · rw [h, Function.update_self]
  · rw [Function.update_of_ne h]

/-- Which sources a word's mask names. -/
def Names (word : Nat) (mask : Word) (i : Nat) : Prop := i / 32 = word ∧ mask.getLsbD (i % 32) = true

instance (word : Nat) (mask : Word) (i : Nat) : Decidable (Names word mask i) :=
  inferInstanceAs (Decidable (_ ∧ _))

theorem names_twoPow {n i : Nat} : Names (n / 32) (BitVec.twoPow 32 (n % 32)) i ↔ i = n := by
  rw [Names, BitVec.getLsbD_twoPow]
  constructor
  · rintro ⟨hdiv, hbit⟩
    simp only [Bool.and_eq_true, decide_eq_true_eq] at hbit
    omega
  · rintro rfl
    simp [Nat.mod_lt]

theorem bitAt_or (row : Nat → Word) (w : Nat) (mask : Word) (i : Nat) :
    BitWalk.bitAt (Function.update row w (row w ||| mask)) i = (BitWalk.bitAt row i || decide (Names w mask i)) := by
  rw [bitAt_update]
  split_ifs with h
  · rw [BitVec.getLsbD_or, BitWalk.bitAt, h]
    simp [Names, h]
  · simp [Names, h]

theorem bitAt_andNot (row : Nat → Word) (w : Nat) (mask : Word) (i : Nat) :
    BitWalk.bitAt (Function.update row w (row w &&& ~~~mask)) i =
      (BitWalk.bitAt row i && !decide (Names w mask i)) := by
  rw [bitAt_update]
  split_ifs with h
  · rw [BitVec.getLsbD_and, BitVec.getLsbD_not, BitWalk.bitAt, h]
    simp [Names, h, Nat.mod_lt]
  · simp [Names, h]

/-! ## What each operation does to the bits -/

theorem isPending_clearPending (a : Aplic) (w : Nat) (mask : Word) (i : Nat) :
    (a.clearPending w mask).1.isPending i = (a.isPending i && !decide (Names w mask i)) :=
  bitAt_andNot a.pending w mask i

/-- A turn of `aplic_set_pending` only sets pending bits. -/
theorem setPendingBit_eq (word : Nat) (mask : Word) (a : Aplic) (b : Nat) :
    setPendingBit word mask a b = { a with pending := (setPendingBit word mask a b).pending } := by
  rw [setPendingBit]
  split_ifs <;> rfl

theorem foldl_setPendingBit_eq (word : Nat) (mask : Word) (l : List Nat) (a : Aplic) :
    l.foldl (setPendingBit word mask) a = { a with pending := (l.foldl (setPendingBit word mask) a).pending } := by
  induction l generalizing a with
  | nil => rfl
  | cons b l ih =>
    rw [List.foldl_cons, ih, setPendingBit_eq]

theorem setPending_eq (a : Aplic) (w : Nat) (mask : Word) :
    a.setPending w mask = { a with pending := (a.setPending w mask).pending } :=
  foldl_setPendingBit_eq w mask _ a

theorem srcActive_setPending (a : Aplic) (w : Nat) (mask : Word) : (a.setPending w mask).srcActive = a.srcActive := by
  rw [setPending_eq]
  rfl

theorem isEnabled_setPending (a : Aplic) (w : Nat) (mask : Word) : (a.setPending w mask).isEnabled = a.isEnabled := by
  rw [setPending_eq]
  rfl

theorem isPending_setPendingBit (w : Nat) (mask : Word) (a : Aplic) {b : Nat} (hb : b < 32) (i : Nat) :
    (setPendingBit w mask a b).isPending i =
      (a.isPending i || (decide (i = w * 32 + b) && mask.getLsbD b && a.srcActive i)) := by
  have hnames : Names w (BitVec.twoPow 32 b) i ↔ i = w * 32 + b := by
    have h := @names_twoPow (w * 32 + b) i
    rwa [show (w * 32 + b) / 32 = w by omega, show (w * 32 + b) % 32 = b by omega] at h
  rw [setPendingBit]
  split_ifs with hset
  · rw [isPending, bitAt_or, isPending]
    rcases eq_or_ne i (w * 32 + b) with rfl | hne
    · rw [Bool.and_assoc, hset]
      simp [hnames]
    · simp [hnames, hne]
  · rcases eq_or_ne i (w * 32 + b) with rfl | hne
    · rw [Bool.and_assoc, eq_false_of_ne_true hset, Bool.and_false, Bool.or_false]
    · simp [hne]

/-- Only the sources that are named and active become pending. -/
theorem isPending_setPending (a : Aplic) (w : Nat) (mask : Word) (i : Nat) :
    (a.setPending w mask).isPending i = (a.isPending i || (decide (Names w mask i) && a.srcActive i)) := by
  have hturns : ∀ n ≤ 32, ((List.range n).foldl (setPendingBit w mask) a).isPending i =
      (a.isPending i || (decide (i / 32 = w ∧ i % 32 < n) && mask.getLsbD (i % 32) && a.srcActive i)) := by
    intro n hn
    induction n with
    | zero => simp
    | succ n ih =>
      have hactive : ((List.range n).foldl (setPendingBit w mask) a).srcActive = a.srcActive := by
        rw [foldl_setPendingBit_eq]
        rfl
      rw [List.range_succ, List.foldl_append, List.foldl_cons, List.foldl_nil, isPending_setPendingBit w mask _ hn,
        ih (Nat.le_of_succ_le hn), hactive]
      rcases eq_or_ne i (w * 32 + n) with rfl | hne
      · simp [show (w * 32 + n) / 32 = w by omega, show (w * 32 + n) % 32 = n by omega]
      · have hiff : i / 32 = w ∧ i % 32 < n + 1 ↔ i / 32 = w ∧ i % 32 < n := by omega
        simp only [hiff]
        simp [hne]
  rw [setPending, hturns 32 le_rfl]
  simp [Names, Nat.mod_lt]

theorem srcActive_setSourcecfg (a : Aplic) (i : Nat) (val : Word) (j : Nat) :
    (a.setSourcecfg i val).srcActive j =
      if j = i then j ≠ 0 && j < sources && modeOf val ≠ smInactive else a.srcActive j := by
  have hcfg : (a.setSourcecfg i val).sourcecfg = Function.update a.sourcecfg i (modeOf val) := by
    rw [setSourcecfg]
    split_ifs <;> rfl
  -- a mode has three bits
  have hlow : modeOf val &&& 7 = modeOf val := by
    rw [modeOf]
    split_ifs
    · rfl
    · rw [BitVec.setWidth_and, BitVec.and_assoc]
      rfl
  rw [srcActive, srcActive, hcfg]
  split_ifs with h
  · rw [h, Function.update_self, hlow]
  · rw [Function.update_of_ne h]

/-- A source that is made inactive loses both bits, and nothing else changes them. -/
theorem bits_setSourcecfg (a : Aplic) (i : Nat) (val : Word) (j : Nat) :
    (a.setSourcecfg i val).isPending j = (a.isPending j && !decide (j = i ∧ modeOf val = smInactive)) ∧
      (a.setSourcecfg i val).isEnabled j = (a.isEnabled j && !decide (j = i ∧ modeOf val = smInactive)) := by
  rw [setSourcecfg]
  dsimp only
  split_ifs with h
  · rw [isPending, isEnabled, bitAt_andNot, bitAt_andNot]
    simp [names_twoPow, h, isPending, isEnabled]
  · simp [h, isPending, isEnabled]

theorem isEnabled_enable (a : Aplic) (w : Nat) (mask : Word) (i : Nat) :
    (a.enable w mask).isEnabled i = (a.isEnabled i || decide (Names w mask i)) := bitAt_or a.enabled w mask i

theorem isEnabled_disable (a : Aplic) (w : Nat) (mask : Word) (i : Nat) :
    (a.disable w mask).isEnabled i = (a.isEnabled i && !decide (Names w mask i)) := bitAt_andNot a.enabled w mask i

end Aplic

end Emu.Rv
