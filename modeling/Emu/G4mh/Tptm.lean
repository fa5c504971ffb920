-- SUMMARY: The time-protection timers of a core: their registers, an advance by many ticks at once, and the interval timers.
import Mathlib
import Emu.G4mh.Intc
import Emu.Lib.Countdown

/-! # The time-protection timers

A core has two interval timers that count down and are reloaded, a free-run timer, and two up timers with four compare
values each. Each of the three groups has a divider of its own. Time comes in slices, and a slice is not stepped through:
an interval timer is moved by a remainder, and the compare values that an up timer passes are found by tests of an
interval. What a slice does to the interval timers is held against a timer that takes one tick at a time. -/

namespace Emu.G4mh

/-! ## Dividers -/

/-- A count clock of one count for every `div + 1` ticks, with the ticks since the last count. -/
structure Divider where
  div : Byte
  acc : Nat
  acc_le : acc ≤ div.toNat
  deriving DecidableEq

namespace Divider

@[ext] theorem ext_acc {d d' : Divider} (hdiv : d.div = d'.div) (hacc : d.acc = d'.acc) : d = d' := by
  cases d
  cases d'
  subst hdiv
  subst hacc
  rfl

/-- A write of the divider drops the remainder. -/
def set (div : Byte) : Divider := ⟨div, 0, Nat.zero_le _⟩

/-- `steps`: how many counts the ticks buy. -/
def steps (d : Divider) (ticks : Word) : Word × Divider :=
  let period := d.div.toNat + 1
  if period = 1 then (ticks, d)
  else
    let total := d.acc + ticks.toNat
    (BitVec.ofNat 32 (total / period), ⟨d.div, total % period, Nat.le_of_lt_succ (Nat.mod_lt _ (Nat.succ_pos _))⟩)

/-- A single tick: whether it is a count. -/
def tick (d : Divider) : Bool × Divider :=
  if h : d.acc = d.div.toNat then (true, ⟨d.div, 0, Nat.zero_le _⟩)
  else (false, ⟨d.div, d.acc + 1, Nat.succ_le_of_lt (Nat.lt_of_le_of_ne d.acc_le h)⟩)

/-- The counts of so many ticks, and the divider after them. -/
def after (d : Divider) (t : Nat) : Nat × Divider :=
  ((d.acc + t) / (d.div.toNat + 1),
    ⟨d.div, (d.acc + t) % (d.div.toNat + 1), Nat.le_of_lt_succ (Nat.mod_lt _ (Nat.succ_pos _))⟩)

theorem after_zero (d : Divider) : d.after 0 = (0, d) := by
  have hlt := Nat.lt_succ_of_le d.acc_le
  refine Prod.ext (Nat.div_eq_of_lt hlt) (ext_acc rfl ?_)
  exact Nat.mod_eq_of_lt hlt

theorem after_add (d : Divider) (a b : Nat) :
    d.after (a + b) = ((d.after a).1 + ((d.after a).2.after b).1, ((d.after a).2.after b).2) := by
  have hdiv := Nat.div_add_mod (d.acc + a) (d.div.toNat + 1)
  have hsplit : d.acc + (a + b) =
      (d.div.toNat + 1) * ((d.acc + a) / (d.div.toNat + 1)) + ((d.acc + a) % (d.div.toNat + 1) + b) := by omega
  refine Prod.ext ?_ (ext_acc rfl ?_)
  · change (d.acc + (a + b)) / (d.div.toNat + 1) = _ / _ + (_ % _ + b) / (d.div.toNat + 1)
    rw [hsplit, Nat.mul_add_div (Nat.succ_pos _)]
  · change (d.acc + (a + b)) % (d.div.toNat + 1) = (_ % _ + b) % (d.div.toNat + 1)
    rw [hsplit, Nat.mul_add_mod]

/-- A single tick is a count exactly if it is the last of a period. -/
theorem after_one (d : Divider) : d.after 1 = (if d.tick.1 then 1 else 0, d.tick.2) := by
  have hle := d.acc_le
  rw [tick]
  by_cases h : d.acc = d.div.toNat
  · rw [dif_pos h]
    refine Prod.ext ?_ (ext_acc rfl ?_)
    · change (d.acc + 1) / (d.div.toNat + 1) = 1
      rw [h, Nat.div_self (Nat.succ_pos _)]
    · change (d.acc + 1) % (d.div.toNat + 1) = 0
      rw [h, Nat.mod_self]
  · rw [dif_neg h]
    refine Prod.ext (Nat.div_eq_of_lt (by omega)) (ext_acc rfl ?_)
    exact Nat.mod_eq_of_lt (by omega)

theorem after_fst_le (d : Divider) (t : Nat) : (d.after t).1 ≤ t := by
  have hle := d.acc_le
  change (d.acc + t) / (d.div.toNat + 1) ≤ t
  rw [← Nat.lt_succ_iff, Nat.div_lt_iff_lt_mul (Nat.succ_pos _), Nat.succ_mul, Nat.mul_succ]
  omega

theorem steps_eq (d : Divider) (ticks : Word) :
    d.steps ticks = (BitVec.ofNat 32 (d.after ticks.toNat).1, (d.after ticks.toNat).2) := by
  have hle := d.acc_le
  rw [steps]
  dsimp only
  split_ifs with h
  · have hzero : d.acc = 0 := by omega
    refine Prod.ext ?_ (ext_acc rfl ?_)
    · change ticks = BitVec.ofNat 32 ((d.acc + ticks.toNat) / (d.div.toNat + 1))
      rw [h, hzero, Nat.zero_add, Nat.div_one, BitVec.ofNat_toNat, BitVec.setWidth_eq]
    · change d.acc = (d.acc + ticks.toNat) % (d.div.toNat + 1)
      rw [h, Nat.mod_one, hzero]
  · rfl

theorem toNat_steps (d : Divider) (ticks : Word) : (d.steps ticks).1.toNat = (d.after ticks.toNat).1 := by
  rw [steps_eq, BitVec.toNat_ofNat]
  exact Nat.mod_eq_of_lt ((d.after_fst_le _).trans_lt ticks.isLt)

end Divider

/-! ## Registers -/

namespace Tptm

def irunOff : Nat := 0x00
def irrunOff : Nat := 0x04
def istpOff : Nat := 0x08
def iienOff : Nat := 0x10
def iustrOff : Nat := 0x14
def idivOff : Nat := 0x18
def frunOff : Nat := 0x20
def frrunOff : Nat := 0x24
def fstpOff : Nat := 0x28
def fdivOff : Nat := 0x30
def urunOff : Nat := 0x40
def urrunOff : Nat := 0x44
def ustpOff : Nat := 0x48
def uienOff : Nat := 0x50
def ucstrOff : Nat := 0x54
def udivOff : Nat := 0x58
def utrgOff : Nat := 0x5C
def uicfgOff : Nat := 0x60
def icnt0Off : Nat := 0x80
def ild0Off : Nat := 0x84
def icnt1Off : Nat := 0x88
def ild1Off : Nat := 0x8C
def fcntOff : Nat := 0xA0
def ucnt0Off : Nat := 0xC0
def ucmp0Off : Nat := 0xC4
def ucnt1Off : Nat := 0xE0
def ucmp1Off : Nat := 0xE4

/-- The interval timers. -/
structure Intervals where
  irun : Byte
  iien : Byte
  iustr : Byte
  ild : Fin 2 → Word
  icnt : Fin 2 → Word
  clock : Divider
  deriving DecidableEq

/-- The free-run timer. -/
structure FreeRun where
  frun : Byte
  fcnt : Word
  clock : Divider
  deriving DecidableEq

/-- The up timers. -/
structure UpTimers where
  urun : Byte
  uien : BitVec 16
  ucstr : BitVec 16
  uicfg : Byte
  utrg : BitVec 16
  ucnt : Fin 2 → Word
  ucmp : Fin 2 → Fin 4 → Word
  clock : Divider
  deriving DecidableEq

/-- An interrupt that a core's timers ask for. -/
inductive Irq where
  | interval
  | up (m : Fin 2) (i : Fin 4)
  deriving DecidableEq, Repr

end Tptm

/-- `g4mh_tptm_pe_t`. -/
structure Tptm where
  intervals : Tptm.Intervals
  free : Tptm.FreeRun
  ups : Tptm.UpTimers
  deriving DecidableEq

namespace Tptm

/-- Bit `m` of a register that has one for each timer. -/
def runs (reg : Byte) (m : Fin 2) : Bool := reg.getLsbD m

/-! ## Advancing -/

namespace Intervals

/-- The body of the loop over the interval timers. A period of 0 is a division by 0. -/
def advanceOne (n : Word) (v : Intervals) (m : Fin 2) : Option Intervals :=
  if ¬runs v.irun m ∨ n = 0 then some v
  else
    let period := v.ild m + 1
    if v.icnt m < n then
      let left := n - (v.icnt m + 1)
      if period = 0 then none
      else
        some { v with
          iustr := v.iustr ||| BitVec.twoPow 8 m
          icnt := Function.update v.icnt m (v.ild m - left % period) }
    else some { v with icnt := Function.update v.icnt m (v.icnt m - n) }

/-- The interval timers' part of `tptm_advance_pe`, with the interrupt it asks for. -/
def advance (v : Intervals) (ticks : Word) : Option (Intervals × List Irq) :=
  if v.irun = 0 then some (v, [])
  else
    let (n, clock) := v.clock.steps ticks
    ((advanceOne n { v with clock := clock } 0).bind fun v => advanceOne n v 1).map fun v =>
      (v, if v.iustr &&& v.iien ≠ 0 then [.interval] else [])

end Intervals

/-- The free-run timer's part of `tptm_advance_pe`. -/
def FreeRun.advance (f : FreeRun) (ticks : Word) : FreeRun :=
  if f.frun &&& 1 = 0 then f
  else
    let (n, clock) := f.clock.steps ticks
    { f with fcnt := f.fcnt + n, clock := clock }

namespace UpTimers

/-- `U_BIT`. -/
def uBit (m : Fin 2) (i : Fin 4) : Nat := 8 * m + i

/-- Whether a counter passes a value. -/
def hit (fromCnt toCnt cmp : Word) : Bool :=
  if toCnt < fromCnt then fromCnt < cmp || cmp ≤ toCnt else fromCnt < cmp && cmp ≤ toCnt

/-- A compare value that was passed: the flag, and the interrupt unless UICFG holds it back. -/
def passed (m : Fin 2) (r : UpTimers × List Irq) (i : Fin 4) : UpTimers × List Irq :=
  let u := r.1
  let raised := (u.uicfg &&& 1 = 0 || u.ucstr = 0) && u.uien.getLsbD (uBit m i)
  ({ u with ucstr := u.ucstr ||| BitVec.twoPow 16 (uBit m i) }, if raised then r.2 ++ [.up m i] else r.2)

/-- The body of the loop over the up timers. -/
def advanceOne (n : Word) (r : UpTimers × List Irq) (m : Fin 2) : UpTimers × List Irq :=
  if ¬runs r.1.urun m ∨ n = 0 then r
  else
    let fromCnt := r.1.ucnt m
    let toCnt := fromCnt + n
    (List.finRange 4).foldl (fun r i => if hit fromCnt toCnt (r.1.ucmp m i) then passed m r i else r)
      ({ r.1 with ucnt := Function.update r.1.ucnt m toCnt }, r.2)

/-- The up timers' part of `tptm_advance_pe`. -/
def advance (u : UpTimers) (ticks : Word) : UpTimers × List Irq :=
  if u.urun = 0 then (u, [])
  else
    let (n, clock) := u.clock.steps ticks
    (List.finRange 2).foldl (advanceOne n) ({ u with clock := clock }, [])

end UpTimers

/-- `tptm_advance_pe`, and the guard of `g4mh_tptm_advance`. There is no answer where it divides by 0. -/
def advance (t : Tptm) (ticks : Word) : Option (Tptm × List Irq) :=
  if ticks = 0 then some (t, [])
  else
    (t.intervals.advance ticks).map fun iv =>
      let up := t.ups.advance ticks
      ({ intervals := iv.1, free := t.free.advance ticks, ups := up.1 }, iv.2 ++ up.2)

/-! ## Writes -/

/-- Start: the counters named are loaded. -/
def Intervals.start (v : Intervals) (val : Word) : Intervals :=
  { v with
    icnt := fun m => if val.getLsbD m then v.ild m else v.icnt m
    irun := v.irun ||| (val.setWidth 8 &&& 3) }

/-- Restart: the counters named are loaded, if they run. -/
def Intervals.restart (v : Intervals) (val : Word) : Intervals :=
  { v with icnt := fun m => if val.getLsbD m ∧ runs v.irun m then v.ild m else v.icnt m }

def UpTimers.start (u : UpTimers) (val : Word) : UpTimers :=
  { u with
    ucnt := fun m => if val.getLsbD m then 0 else u.ucnt m
    urun := u.urun ||| (val.setWidth 8 &&& 3) }

def UpTimers.restart (u : UpTimers) (val : Word) : UpTimers :=
  { u with ucnt := fun m => if val.getLsbD m ∧ runs u.urun m then 0 else u.ucnt m }

def FreeRun.write (f : FreeRun) (off : Nat) (val : Word) : FreeRun :=
  if off = frunOff then if val &&& 1 ≠ 0 then { f with fcnt := 0, frun := 1 } else f
  else if off = frrunOff then if val &&& 1 ≠ 0 ∧ f.frun ≠ 0 then { f with fcnt := 0 } else f
  else if off = fstpOff then if val &&& 1 ≠ 0 then { f with frun := 0 } else f
  else if off = fdivOff then { f with clock := .set (val.setWidth 8) }
  else if off = fcntOff then { f with fcnt := val }
  else f

def Intervals.write (v : Intervals) (off : Nat) (val : Word) : Intervals × List Irq :=
  if off = irunOff then (v.start val, [])
  else if off = irrunOff then (v.restart val, [])
  else if off = istpOff then ({ v with irun := v.irun &&& ~~~(val &&& 3).setWidth 8 }, [])
  else if off = iienOff then
    -- a flag that is up already asks at once
    let v := { v with iien := (val &&& 3).setWidth 8 }
    (v, if v.iustr &&& v.iien ≠ 0 then [.interval] else [])
  else if off = iustrOff then ({ v with iustr := v.iustr &&& (val &&& 3).setWidth 8 }, [])
  else if off = idivOff then ({ v with clock := .set (val.setWidth 8) }, [])
  else if off = icnt0Off then ({ v with icnt := Function.update v.icnt 0 val }, [])
  else if off = ild0Off then ({ v with ild := Function.update v.ild 0 val }, [])
  else if off = icnt1Off then ({ v with icnt := Function.update v.icnt 1 val }, [])
  else if off = ild1Off then ({ v with ild := Function.update v.ild 1 val }, [])
  else (v, [])

/-- A compare value, by the number of its word. -/
def UpTimers.setCmp (u : UpTimers) (m : Fin 2) (k : Nat) (val : Word) : UpTimers :=
  { u with ucmp := Function.update u.ucmp m fun i => if i = k then val else u.ucmp m i }

def UpTimers.write (u : UpTimers) (off : Nat) (val : Word) : UpTimers :=
  if off = urunOff then u.start val
  else if off = urrunOff then u.restart val
  else if off = ustpOff then { u with urun := u.urun &&& ~~~(val &&& 3).setWidth 8 }
  else if off = uienOff then { u with uien := (val &&& 0x0F0F).setWidth 16 }
  else if off = ucstrOff then { u with ucstr := u.ucstr &&& (val &&& 0x0F0F).setWidth 16 }
  else if off = udivOff then { u with clock := .set (val.setWidth 8) }
  else if off = utrgOff then { u with utrg := val.setWidth 16 }
  else if off = uicfgOff then { u with uicfg := (val &&& 1).setWidth 8 }
  else if off = ucnt0Off then { u with ucnt := Function.update u.ucnt 0 val }
  else if off = ucnt1Off then { u with ucnt := Function.update u.ucnt 1 val }
  else if ucmp0Off ≤ off ∧ off ≤ ucmp0Off + 12 then u.setCmp 0 ((off - ucmp0Off) / 4) val
  else if ucmp1Off ≤ off ∧ off ≤ ucmp1Off + 12 then u.setCmp 1 ((off - ucmp1Off) / 4) val
  else u

/-- `tptm_write`, in the block of one core. -/
def write (t : Tptm) (off : Nat) (val : Word) : Tptm × List Irq :=
  let iv := t.intervals.write off val
  ({ intervals := iv.1, free := t.free.write off val, ups := t.ups.write off val }, iv.2)

/-! ## Interval timers, a tick at a time -/

namespace Intervals

/-- The flag of a timer that is on the step from 0. -/
def zeroFlag (v : Intervals) (m : Fin 2) : Byte := if runs v.irun m ∧ v.icnt m = 0 then BitVec.twoPow 8 m else 0

/-- A count: a timer that runs goes down, and on the step from 0 sets its flag and is reloaded. -/
def count (v : Intervals) : Intervals :=
  { v with
    iustr := v.iustr ||| v.zeroFlag 0 ||| v.zeroFlag 1
    icnt := fun m => if runs v.irun m then (if v.icnt m = 0 then v.ild m else v.icnt m - 1) else v.icnt m }

/-- A single tick of the processor clock. -/
def tick (v : Intervals) : Intervals :=
  if v.irun = 0 then v
  else
    let v' := { v with clock := v.clock.tick.2 }
    if v.clock.tick.1 then v'.count else v'

/-- The flag of a timer after so many counts. -/
def under (v : Intervals) (n : Nat) (m : Fin 2) : Byte :=
  if runs v.irun m ∧ (v.icnt m).toNat < n then BitVec.twoPow 8 m else 0

/-- A timer after so many counts. -/
def cntAfter (v : Intervals) (n : Nat) (m : Fin 2) : Word :=
  if runs v.irun m then BitVec.ofNat 32 ((Countdown.tick (v.ild m).toNat)^[n] (v.icnt m).toNat) else v.icnt m

/-- The timers after so many counts, with the divider given. -/
def counted (v : Intervals) (n : Nat) (clock : Divider) : Intervals :=
  { v with clock := clock, iustr := v.iustr ||| v.under n 0 ||| v.under n 1, icnt := v.cntAfter n }

/-- The timers after so many ticks. -/
def after (v : Intervals) (t : Nat) : Intervals :=
  if v.irun = 0 then v else v.counted (v.clock.after t).1 (v.clock.after t).2

theorem counted_zero (v : Intervals) : v.counted 0 v.clock = v := by
  have hcnt : v.cntAfter 0 = v.icnt := by
    funext m
    rw [cntAfter, Function.iterate_zero_apply, BitVec.ofNat_toNat, BitVec.setWidth_eq, ite_self]
  have hunder (m : Fin 2) : v.under 0 m = 0 := if_neg fun h => Nat.not_lt_zero _ h.2
  have hflags : v.iustr ||| v.under 0 0 ||| v.under 0 1 = v.iustr := by
    rw [hunder, hunder]
    exact BitVec.or_zero.trans BitVec.or_zero
  rw [counted, hcnt, hflags]

theorem toNat_cntAfter {v : Intervals} {m : Fin 2} (h : runs v.irun m = true) (n : Nat) :
    (v.cntAfter n m).toNat = (Countdown.tick (v.ild m).toNat)^[n] (v.icnt m).toNat := by
  have hle := Countdown.iterate_tick_le (Nat.le_sub_one_of_lt (v.ild m).isLt) (Nat.le_sub_one_of_lt (v.icnt m).isLt) n
  rw [cntAfter, if_pos h, BitVec.toNat_ofNat]
  exact Nat.mod_eq_of_lt (Nat.lt_of_le_sub_one (by decide) hle)

/-- The flag is there once there is a count more than the timer has left. -/
theorem under_succ (v : Intervals) (n : Nat) (clock : Divider) (m : Fin 2) :
    v.under (n + 1) m = v.under n m ||| (v.counted n clock).zeroFlag m := by
  have hflag : (v.counted n clock).zeroFlag m = if runs v.irun m ∧ v.cntAfter n m = 0 then BitVec.twoPow 8 m else 0 := rfl
  rw [hflag, under, under]
  by_cases hrun : runs v.irun m = true
  · have hzero : v.cntAfter n m = 0 ↔ (Countdown.tick (v.ild m).toNat)^[n] (v.icnt m).toNat = 0 := by
      rw [← toNat_cntAfter hrun, BitVec.toNat_eq]
      exact Iff.rfl
    simp only [hrun, true_and, hzero]
    rcases Nat.lt_trichotomy (v.icnt m).toNat n with h | h | h
    · -- it is there already
      rw [if_pos (Nat.lt_succ_of_lt h), if_pos h]
      split_ifs
      · exact BitVec.or_self.symm
      · exact BitVec.or_zero.symm
    · have hnow : (Countdown.tick (v.ild m).toNat)^[n] (v.icnt m).toNat = 0 := by
        rw [Countdown.iterate_tick, if_pos h.ge, h, Nat.sub_self]
      rw [if_pos (by omega), if_neg (by omega), if_pos hnow]
      exact BitVec.zero_or.symm
    · have hnow : (Countdown.tick (v.ild m).toNat)^[n] (v.icnt m).toNat ≠ 0 := by
        rw [Countdown.iterate_tick, if_pos (Nat.le_of_lt h)]
        omega
      rw [if_neg (by omega), if_neg (by omega), if_neg hnow]
      rfl
  · rw [if_neg fun h => hrun h.1, if_neg fun h => hrun h.1, if_neg fun h => hrun h.1]
    rfl

theorem cntAfter_succ (v : Intervals) (n : Nat) (m : Fin 2) :
    v.cntAfter (n + 1) m =
      if runs v.irun m then (if v.cntAfter n m = 0 then v.ild m else v.cntAfter n m - 1) else v.cntAfter n m := by
  by_cases hrun : runs v.irun m = true
  · rw [if_pos hrun]
    apply BitVec.eq_of_toNat_eq
    have hnow := toNat_cntAfter hrun n
    rw [toNat_cntAfter hrun, Function.iterate_succ_apply', ← hnow, Countdown.tick]
    by_cases hzero : v.cntAfter n m = 0
    · rw [if_pos hzero, hzero]
      rfl
    · have hne : (v.cntAfter n m).toNat ≠ 0 := fun h => hzero (BitVec.eq_of_toNat_eq h)
      rw [if_neg hzero, if_neg hne, BitVec.toNat_sub_of_le]
      · rfl
      · rw [BitVec.le_def]
        exact Nat.one_le_iff_ne_zero.mpr hne
  · simp only [cntAfter, hrun]
    rfl

theorem count_counted (v : Intervals) (n : Nat) (clock : Divider) :
    (v.counted n clock).count = v.counted (n + 1) clock := by
  have hcnt : v.cntAfter (n + 1) = (v.counted n clock).count.icnt := by
    funext m
    exact cntAfter_succ v n m
  have hflags : (v.counted n clock).count.iustr = v.iustr ||| v.under (n + 1) 0 ||| v.under (n + 1) 1 := by
    rw [v.under_succ n clock 0, v.under_succ n clock 1]
    change v.iustr ||| v.under n 0 ||| v.under n 1 ||| _ ||| _ = _
    generalize v.under n 0 = a, v.under n 1 = b, (v.counted n clock).zeroFlag 0 = c, (v.counted n clock).zeroFlag 1 = d
    ac_rfl
  change { (v.counted n clock).count with } = { v with clock := clock, iustr := _, icnt := _ }
  rw [← hflags, hcnt]
  rfl

theorem tick_counted {v : Intervals} (h : v.irun ≠ 0) (n : Nat) (clock : Divider) :
    (v.counted n clock).tick = v.counted (n + (clock.after 1).1) (clock.after 1).2 := by
  have htick : (v.counted n clock).tick =
      if clock.tick.1 then (v.counted n clock.tick.2).count else v.counted n clock.tick.2 := if_neg h
  rw [htick, clock.after_one]
  split_ifs
  · exact count_counted ..
  · rfl

/-- As many single ticks. -/
theorem iterate_tick_eq (v : Intervals) (t : Nat) : tick^[t] v = v.after t := by
  induction t with
  | zero => rw [Function.iterate_zero_apply, after, Divider.after_zero, counted_zero, ite_self]
  | succ t ih =>
    rw [Function.iterate_succ_apply', ih, after, after]
    by_cases h : v.irun = 0
    · rw [if_pos h, if_pos h, tick, if_pos h]
    · rw [if_neg h, if_neg h, tick_counted h, Divider.after_add]

/-! ## A slice at once -/

/-- A timer that runs with the longest period there is comes to its end. -/
def Overruns (v : Intervals) (ticks : Word) : Prop :=
  ∃ m, runs v.irun m = true ∧ v.ild m = 0xFFFFFFFF ∧ (v.icnt m).toNat < (v.clock.after ticks.toNat).1

/-- What the loop does to one of the timers. -/
theorem cnt_of_lt {v : Intervals} {m : Fin 2} (hrun : runs v.irun m = true) {n : Word} (hlt : v.icnt m < n)
    (hperiod : v.ild m + 1 ≠ 0) :
    v.ild m - (n - (v.icnt m + 1)) % (v.ild m + 1) = v.cntAfter n.toNat m := by
  have hlt' : (v.icnt m).toNat < n.toNat := hlt
  have hild : (v.ild m).toNat + 1 < 2 ^ 32 := by
    have := (v.ild m).isLt
    rcases Nat.lt_or_ge ((v.ild m).toNat + 1) (2 ^ 32) with h | h
    · exact h
    · refine absurd (BitVec.eq_of_toNat_eq ?_) hperiod
      rw [BitVec.toNat_add, show (1 : Word).toNat = 1 from rfl, show (v.ild m).toNat + 1 = 2 ^ 32 by omega]
      rfl
  have hsucc : (v.ild m + 1).toNat = (v.ild m).toNat + 1 := by
    rw [BitVec.toNat_add]
    exact Nat.mod_eq_of_lt hild
  have hicnt : (v.icnt m + 1).toNat = (v.icnt m).toNat + 1 := by
    have hn := n.isLt
    rw [BitVec.toNat_add, show (1 : Word).toNat = 1 from rfl]
    exact Nat.mod_eq_of_lt (by omega)
  have hleft : (n - (v.icnt m + 1)).toNat = n.toNat - (v.icnt m).toNat - 1 := by
    rw [BitVec.toNat_sub_of_le, hicnt, Nat.sub_sub]
    rw [BitVec.le_def, hicnt]
    exact hlt'
  have hmod : ((n - (v.icnt m + 1)) % (v.ild m + 1)).toNat =
      (n.toNat - (v.icnt m).toNat - 1) % ((v.ild m).toNat + 1) := by
    rw [BitVec.toNat_umod, hleft, hsucc]
  apply BitVec.eq_of_toNat_eq
  rw [toNat_cntAfter hrun, Countdown.iterate_tick, if_neg (Nat.not_le.mpr hlt'), BitVec.toNat_sub_of_le, hmod]
  rw [BitVec.le_def, hmod]
  exact Nat.le_of_lt_succ (Nat.mod_lt _ (Nat.succ_pos _))

theorem cnt_of_le {v : Intervals} {m : Fin 2} (hrun : runs v.irun m = true) {n : Word} (hle : ¬v.icnt m < n) :
    v.icnt m - n = v.cntAfter n.toNat m := by
  have hle' : n.toNat ≤ (v.icnt m).toNat := Nat.le_of_not_lt hle
  apply BitVec.eq_of_toNat_eq
  rw [toNat_cntAfter hrun, Countdown.iterate_tick, if_pos hle', BitVec.toNat_sub_of_le (BitVec.le_def.mpr hle')]

/-- The timer that the loop would divide by 0 for. -/
def Stuck (v : Intervals) (n : Word) (m : Fin 2) : Prop := runs v.irun m ∧ v.icnt m < n ∧ v.ild m + 1 = 0

instance (v : Intervals) (n : Word) (m : Fin 2) : Decidable (v.Stuck n m) := inferInstanceAs (Decidable (_ ∧ _))

/-- What the loop leaves of a timer, unless it divides by 0. -/
theorem advanceOne_eq (n : Word) (v : Intervals) (m : Fin 2) :
    advanceOne n v m =
      if v.Stuck n m then none
      else some { v with
        iustr := v.iustr ||| v.under n.toNat m
        icnt := Function.update v.icnt m (v.cntAfter n.toNat m) } := by
  have hor : v.iustr ||| (0 : Byte) = v.iustr := BitVec.or_zero
  rw [advanceOne]
  by_cases hrun : runs v.irun m = true
  · by_cases hn : n = 0
    · subst hn
      have hunder : v.under (0 : Word).toNat m = 0 := if_neg fun h => Nat.not_lt_zero _ h.2
      have hcnt : v.cntAfter (0 : Word).toNat m = v.icnt m :=
        (cnt_of_le hrun BitVec.not_lt_zero).symm.trans (BitVec.sub_zero _)
      rw [if_pos (.inr rfl), if_neg fun h => BitVec.not_lt_zero h.2.1, hunder, hcnt, Function.update_eq_self, hor]
    · rw [if_neg (not_or.mpr ⟨not_not.mpr hrun, hn⟩)]
      dsimp only
      by_cases hlt : v.icnt m < n
      · have hunder : v.under n.toNat m = BitVec.twoPow 8 m := if_pos ⟨hrun, hlt⟩
        rw [if_pos hlt]
        by_cases hperiod : v.ild m + 1 = 0
        · rw [if_pos hperiod, if_pos ⟨hrun, hlt, hperiod⟩]
        · rw [if_neg hperiod, if_neg fun h => hperiod h.2.2, cnt_of_lt hrun hlt hperiod, hunder]
      · have hunder : v.under n.toNat m = 0 := if_neg fun h => hlt h.2
        rw [if_neg hlt, if_neg fun h => hlt h.2.1, cnt_of_le hrun hlt, hunder, hor]
  · have hunder : v.under n.toNat m = 0 := if_neg fun h => hrun h.1
    have hcnt : v.cntAfter n.toNat m = v.icnt m := if_neg hrun
    rw [if_pos (.inl hrun), if_neg fun h => hrun h.1, hunder, hcnt, Function.update_eq_self, hor]

theorem add_one_eq_zero {x : Word} : x + 1 = 0 ↔ x = 0xFFFFFFFF := by
  constructor
  · intro h
    bv_omega
  · rintro rfl
    rfl

/-- Both timers, one after the other. -/
theorem advanceBoth_eq (n : Word) (v : Intervals) :
    ((advanceOne n v 0).bind fun v => advanceOne n v 1) =
      if v.Stuck n 0 ∨ v.Stuck n 1 then none else some (v.counted n.toNat v.clock) := by
  rw [advanceOne_eq]
  by_cases h0 : v.Stuck n 0
  · rw [if_pos h0, if_pos (.inl h0)]
    rfl
  · rw [if_neg h0, Option.bind_some, advanceOne_eq]
    have hboth : Function.update (Function.update v.icnt 0 (v.cntAfter n.toNat 0)) 1 (v.cntAfter n.toNat 1) =
        v.cntAfter n.toNat := by
      funext m
      match m with
      | 0 => rfl
      | 1 => rfl
    -- the first leaves what the second reads
    change (if v.Stuck n 1 then none else some { v with
      iustr := v.iustr ||| v.under n.toNat 0 ||| v.under n.toNat 1
      icnt := Function.update (Function.update v.icnt 0 (v.cntAfter n.toNat 0)) 1 (v.cntAfter n.toNat 1) }) = _
    rw [hboth]
    by_cases h1 : v.Stuck n 1
    · rw [if_pos h1, if_pos (.inr h1)]
    · rw [if_neg h1, if_neg (not_or.mpr ⟨h0, h1⟩)]
      rfl

theorem overruns_iff {v : Intervals} {ticks : Word} :
    v.Overruns ticks ↔ v.Stuck (v.clock.steps ticks).1 0 ∨ v.Stuck (v.clock.steps ticks).1 1 := by
  have hm (m : Fin 2) : (runs v.irun m = true ∧ v.ild m = 0xFFFFFFFF ∧ (v.icnt m).toNat < (v.clock.after ticks.toNat).1) ↔
      v.Stuck (v.clock.steps ticks).1 m := by
    rw [Stuck, add_one_eq_zero, BitVec.lt_def, Divider.toNat_steps, and_comm (a := v.ild m = _)]
  rw [Overruns, ← hm, ← hm, Fin.exists_fin_two]

/-- A slice moves the timers as its ticks would one by one, unless it divides by 0. -/
theorem advance_eq (v : Intervals) (ticks : Word) [Decidable (v.Overruns ticks)] :
    (v.advance ticks).map Prod.fst = if v.Overruns ticks then none else some (v.after ticks.toNat) := by
  rw [advance, after]
  by_cases hrun : v.irun = 0
  · have hno : ¬v.Overruns ticks := by
      rintro ⟨m, hm, -⟩
      rw [runs, hrun] at hm
      exact absurd hm (by simp)
    rw [if_pos hrun, if_pos hrun, if_neg hno]
    rfl
  · rw [if_neg hrun, if_neg hrun]
    have hnum := v.clock.toNat_steps ticks
    have hclock : (v.clock.steps ticks).2 = (v.clock.after ticks.toNat).2 := by rw [Divider.steps_eq]
    have hstuck := @overruns_iff v ticks
    rw [← hnum, ← hclock]
    generalize v.clock.steps ticks = r at hstuck ⊢
    obtain ⟨n, clock⟩ := r
    have hboth : ((advanceOne n { v with clock := clock } 0).bind fun v => advanceOne n v 1) =
        if v.Stuck n 0 ∨ v.Stuck n 1 then none else some (v.counted n.toNat clock) := advanceBoth_eq n { v with clock := clock }
    dsimp only
    rw [hboth]
    by_cases hover : v.Overruns ticks
    · rw [if_pos hover, if_pos (hstuck.mp hover)]
      rfl
    · rw [if_neg hover, if_neg fun h => hover (hstuck.mpr h)]
      rfl

theorem after_add (v : Intervals) (a b : Nat) : (v.after a).after b = v.after (a + b) := by
  rw [← iterate_tick_eq, ← iterate_tick_eq, ← iterate_tick_eq, Nat.add_comm, Function.iterate_add_apply]

/-- A slice in two parts comes to the end of a timer in the first or in the second. -/
theorem overruns_add {v : Intervals} {a b : Word} (h : a.toNat + b.toNat < 2 ^ 32) (ha : ¬v.Overruns a) :
    v.Overruns (a + b) ↔ (v.after a.toNat).Overruns b := by
  have hsum : (a + b).toNat = a.toNat + b.toNat := by
    rw [BitVec.toNat_add]
    exact Nat.mod_eq_of_lt h
  by_cases hrun : v.irun = 0
  · have hno (ticks : Word) : ¬v.Overruns ticks := by
      rintro ⟨m, hm, -⟩
      rw [runs, hrun] at hm
      exact absurd hm (by simp)
    rw [after, if_pos hrun]
    exact iff_of_false (hno _) (hno _)
  · rw [Overruns, Overruns, after, if_neg hrun]
    refine exists_congr fun m => and_congr_right fun hm => and_congr_right fun hild => ?_
    -- it has not come to its end in the first part, so it has only gone down
    have hle : (v.clock.after a.toNat).1 ≤ (v.icnt m).toNat := Nat.le_of_not_lt fun hlt => ha ⟨m, hm, hild, hlt⟩
    have hcnt : (v.cntAfter (v.clock.after a.toNat).1 m).toNat = (v.icnt m).toNat - (v.clock.after a.toNat).1 := by
      rw [toNat_cntAfter hm, Countdown.iterate_tick, if_pos hle]
    change _ ↔ (v.cntAfter _ m).toNat < ((v.clock.after a.toNat).2.after b.toNat).1
    rw [hsum, Divider.after_add, hcnt]
    omega

theorem overruns_of_le {v : Intervals} {a b : Word} (h : a.toNat + b.toNat < 2 ^ 32) (ha : v.Overruns a) :
    v.Overruns (a + b) := by
  obtain ⟨m, hm, hild, hlt⟩ := ha
  refine ⟨m, hm, hild, hlt.trans_le ?_⟩
  rw [BitVec.toNat_add, Nat.mod_eq_of_lt h, Divider.after_add]
  exact Nat.le_add_right ..

end Intervals

/-- `g4mh_tptm_init`. -/
def init : Tptm where
  intervals := ⟨0, 0, 0, fun _ => 0, fun _ => 0, .set 0⟩
  free := ⟨0, 0, .set 0⟩
  ups := ⟨0, 0, 0, 0, 0, fun _ => 0, fun _ _ => 0, .set 0⟩

theorem advance_intervals (t : Tptm) (ticks : Word) [Decidable (t.intervals.Overruns ticks)] :
    (t.advance ticks).map (·.1.intervals) =
      if t.intervals.Overruns ticks then none else some (t.intervals.after ticks.toNat) := by
  rw [advance]
  by_cases h : ticks = 0
  · have hno : ¬t.intervals.Overruns ticks := by
      rintro ⟨m, -, -, hlt⟩
      rw [h, show (0 : Word).toNat = 0 from rfl, Divider.after_zero] at hlt
      exact Nat.not_lt_zero _ hlt
    rw [if_pos h, if_neg hno, h, ← Intervals.iterate_tick_eq]
    rfl
  · rw [if_neg h, Option.map_map, ← Intervals.advance_eq]
    rfl

/-- A slice leaves the interval timers, their flags and their divider as its ticks would one by one, exactly if no timer
that runs with a reload value of 2³² - 1 comes to its end in it: there the code divides by 0. Two slices do what one of
their length does. -/
theorem advance_intervals_iff (t : Tptm) (ticks : Word) :
    ((t.advance ticks).map (·.1.intervals) = some (Intervals.tick^[ticks.toNat] t.intervals) ↔
        ¬t.intervals.Overruns ticks) ∧
      ∀ a b : Word, a.toNat + b.toNat < 2 ^ 32 →
        (t.advance (a + b)).map (·.1.intervals) =
          ((t.advance a).bind fun r => r.1.advance b).map (·.1.intervals) := by
  classical
  refine ⟨?_, fun a b hab => ?_⟩
  · rw [advance_intervals, Intervals.iterate_tick_eq]
    split_ifs with h
    · exact iff_of_false (by simp) (not_not.mpr h)
    · exact iff_of_true rfl h
  · have hsplit := t.advance_intervals a
    rw [advance_intervals]
    by_cases ha : t.intervals.Overruns a
    · rw [if_pos ha, Option.map_eq_none_iff] at hsplit
      rw [if_pos (Intervals.overruns_of_le hab ha), hsplit]
      rfl
    · rw [if_neg ha, Option.map_eq_some_iff] at hsplit
      obtain ⟨r, hr, hiv⟩ := hsplit
      rw [hr, Option.bind_some, advance_intervals, hiv, ← Intervals.overruns_add hab ha, Intervals.after_add,
        BitVec.toNat_add, Nat.mod_eq_of_lt hab]

/-- Interval timer 0 with reload value 2 and 1 left, over five ticks at once and as two and three. -/
theorem advance_intervals_split :
    let t := { init with intervals := ⟨1, 0, 0, fun _ => 2, fun _ => 1, .set 0⟩ }
    (2 : Word).toNat + (3 : Word).toNat < 2 ^ 32 ∧
      (t.advance (2 + 3)).map (·.1.intervals) = ((t.advance 2).bind fun r => r.1.advance 3).map (·.1.intervals) :=
  ⟨by decide, (advance_intervals_iff _ 5).2 2 3 (by decide)⟩

/-- Reload value 2³² - 1, and the counter at 0: the next count divides by 0. -/
theorem longest_period_stuck :
    let t := ((((init.write ild0Off 0xFFFFFFFF).1.write irunOff 1).1).write icnt0Off 0).1
    t.advance 1 = none ∧ (Intervals.tick^[1] t.intervals).icnt 0 = 0xFFFFFFFF := by
  decide

end Tptm

end Emu.G4mh
