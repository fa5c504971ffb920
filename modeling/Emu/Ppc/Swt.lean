-- SUMMARY: The software watchdog: its counter, the service and unlock sequences, the locks, and its registers.
import Mathlib
import Emu.Ir.Syntax

/-! # The software watchdog

A counter that runs down while the watchdog is enabled. Expiry is a system reset, or first an interrupt that loads the
counter again. Two sequences of two writes go through one register: the service sequence, fixed or keyed, which loads the
counter, and the unlock sequence, which clears the soft lock. -/

namespace Emu.Ppc

namespace Swt

def crKey : Word := 0x200
def crRia : Word := 0x100
def crWnd : Word := 0x080
def crItr : Word := 0x040
def crHlk : Word := 0x020
def crSlk : Word := 0x010
def crWen : Word := 0x001

/-- `PPC_SWT_CR_WRITABLE`. -/
def crWritable : Word := 0xFF0003FF

def irTif : Word := 0x1

/-- `PPC_SWT_CR_RESET`. -/
def crReset : Word := 0xFF00011A

/-- `PPC_SWT_TO_RESET`. -/
def toReset : Word := 0x0003FDE0

/-- `PPC_SWT_TO_MIN`. -/
def toMin : Nat := 0x100

def crOff : Nat := 0x00
def irOff : Nat := 0x04
def toOff : Nat := 0x08
def wnOff : Nat := 0x0C
def srOff : Nat := 0x10
def coOff : Nat := 0x14
def skOff : Nat := 0x18

def service1 : Word := 0xA602
def service2 : Word := 0xB480
def unlock1 : Word := 0xC520
def unlock2 : Word := 0xD928

end Swt

/-- `ppc_swt_t`. `reset` is that a system reset was requested. -/
structure Swt where
  cr : Word
  ir : Word
  /-- `to`. -/
  timeout : Word
  wn : Word
  sk : Word
  count : Nat
  expired : Bool
  svcHalf : Bool
  unlHalf : Bool
  reset : Bool
  deriving DecidableEq

namespace Swt

/-- A bit of SWT_CR. -/
def bit (w : Swt) (m : Word) : Bool := w.cr &&& m ≠ 0

/-- `enabled`. -/
def enabled (w : Swt) : Bool := w.bit crWen

/-- `locked`. -/
def locked (w : Swt) : Bool := w.bit (crHlk ||| crSlk)

/-- `period`. -/
def period (w : Swt) : Nat := if toMin < w.timeout.toNat then w.timeout.toNat else toMin

theorem period_pos (w : Swt) : 0 < w.period := by
  rw [period]
  split_ifs with h
  · exact Nat.zero_lt_of_lt h
  · decide

/-- `system_reset`. -/
def systemReset (w : Swt) : Swt := { w with reset := true }

/-- `ppc_swt_reset`. -/
def swtReset : Swt where
  cr := crReset
  ir := 0
  timeout := toReset
  wn := 0
  sk := 0
  count := 0
  expired := false
  svcHalf := false
  unlHalf := false
  reset := false

/-! ## Time -/

/-- `ppc_swt_until`: ticks to the expiry, or 2³² - 1. -/
def until_ (w : Swt) : Nat := if w.enabled && !w.reset then w.count else 0xFFFFFFFF

/-- The first expiry in interrupt mode. -/
def firstExpiry (w : Swt) : Swt := { w with expired := true, ir := w.ir ||| irTif, count := w.period }

/-- The expiry that is a system reset. -/
def lastExpiry (w : Swt) : Swt := { w with count := 0 }.systemReset

/-- The expiry interrupts and does not reset. -/
def interrupts (w : Swt) : Bool := w.bit crItr && !w.expired

/-- The loop of `ppc_swt_advance`, for so many turns at most. -/
def advanceLoop : Nat → Swt → Nat → Swt
  | 0, w, _ => w
  | k + 1, w, ticks =>
    if w.count ≤ ticks then
      if w.interrupts then advanceLoop k w.firstExpiry (ticks - w.count) else w.lastExpiry
    else { w with count := w.count - ticks }

/-- `ppc_swt_advance`. The second turn of the loop is the last: it resets or stops. -/
def advance (w : Swt) (ticks : Nat) : Swt := if !w.enabled || w.reset then w else advanceLoop 2 w ticks

theorem interrupts_firstExpiry (w : Swt) : w.firstExpiry.interrupts = false := by
  simp [interrupts, firstExpiry]

/-- A loop that is let go on longer does nothing more. -/
theorem advanceLoop_add_two (k : Nat) (w : Swt) (ticks : Nat) : advanceLoop (k + 2) w ticks = advanceLoop 2 w ticks := by
  simp only [advanceLoop, interrupts_firstExpiry, Bool.false_eq_true, if_false]

theorem advance_eq_loop {w : Swt} (hen : w.enabled = true) (hr : w.reset = false) (ticks : Nat) :
    w.advance ticks = advanceLoop 2 w ticks := by
  rw [advance, hen, hr]
  rfl

/-- An advance while the watchdog counts: short of the expiry, on through the first one, or into the reset. -/
theorem advance_of_counting {w : Swt} (hen : w.enabled = true) (hr : w.reset = false) (ticks : Nat) :
    w.advance ticks =
      if w.count ≤ ticks then if w.interrupts then w.firstExpiry.advance (ticks - w.count) else w.lastExpiry
      else { w with count := w.count - ticks } := by
  rw [advance_eq_loop hen hr, advance_eq_loop (w := w.firstExpiry) hen hr, ← advanceLoop_add_two 1 w ticks, advanceLoop]

/-- Time moves the counter and what expiry sets, and does not take a reset back. -/
theorem advance_frame (w : Swt) (ticks : Nat) :
    ∃ ir count expired r, w.advance ticks = { w with ir := ir, count := count, expired := expired, reset := r } ∧
      (w.reset = true → r = true) := by
  simp only [advance, advanceLoop, interrupts_firstExpiry, Bool.false_eq_true, if_false]
  split_ifs
  · exact ⟨w.ir, w.count, w.expired, w.reset, rfl, id⟩
  · exact ⟨_, _, _, true, rfl, fun _ => rfl⟩
  · exact ⟨_, _, _, w.reset, rfl, id⟩
  · exact ⟨_, _, _, true, rfl, fun _ => rfl⟩
  · exact ⟨_, _, _, w.reset, rfl, id⟩

theorem advance_of_stopped {w : Swt} (h : ¬(w.enabled = true ∧ w.reset = false)) (ticks : Nat) : w.advance ticks = w := by
  have hstopped : (!w.enabled || w.reset) = true := by
    have hidle : (w.enabled && !w.reset) = false := by simpa using h
    rw [← Bool.not_not w.reset, ← Bool.not_and, hidle]
    rfl
  rw [advance, if_pos hstopped]

/-- An advance short of the expiry may be made first. -/
theorem advance_add_of_short {w : Swt} {a : Nat} (ha : ¬w.count ≤ a) (b : Nat) :
    w.advance (a + b) = (w.advance a).advance b := by
  by_cases hc : w.enabled = true ∧ w.reset = false
  · obtain ⟨hen, hr⟩ := hc
    have hle : w.count - a ≤ b ↔ w.count ≤ a + b := by omega
    have hsub : w.count - (a + b) = w.count - a - b := by omega
    have hrest : a + b - w.count = b - (w.count - a) := by omega
    have hint : { w with count := w.count - a }.interrupts = w.interrupts := rfl
    rw [advance_of_counting hen hr (a + b), advance_of_counting hen hr a, if_neg ha,
      advance_of_counting (w := { w with count := w.count - a }) hen hr]
    simp only [hle, hsub, hrest, hint]
    rfl
  · rw [advance_of_stopped hc, advance_of_stopped hc, advance_of_stopped hc]

/-- An advance of a watchdog whose next expiry is the last. -/
theorem advance_add_of_last {w : Swt} (h : w.interrupts = false) (a b : Nat) :
    w.advance (a + b) = (w.advance a).advance b := by
  by_cases hc : w.enabled = true ∧ w.reset = false
  · by_cases ha : w.count ≤ a
    · have hlast (ticks : Nat) (hle : w.count ≤ ticks) : w.advance ticks = w.lastExpiry := by
        rw [advance_of_counting hc.1 hc.2, if_pos hle, h, if_neg Bool.false_ne_true]
      have hdone : ¬(w.lastExpiry.enabled = true ∧ w.lastExpiry.reset = false) := by
        rintro ⟨-, hr⟩
        exact absurd hr (by simp [lastExpiry, systemReset])
      rw [hlast a ha, hlast (a + b) (Nat.le_add_right_of_le ha), advance_of_stopped hdone]
    · exact advance_add_of_short ha b
  · rw [advance_of_stopped hc, advance_of_stopped hc, advance_of_stopped hc]

/-- An advance may be split anywhere. -/
theorem advance_add (w : Swt) (a b : Nat) : w.advance (a + b) = (w.advance a).advance b := by
  cases hint : w.interrupts with
  | false => exact advance_add_of_last hint a b
  | true =>
    by_cases hc : w.enabled = true ∧ w.reset = false
    · by_cases ha : w.count ≤ a
      · have hfirst (ticks : Nat) (hle : w.count ≤ ticks) : w.advance ticks = w.firstExpiry.advance (ticks - w.count) := by
          rw [advance_of_counting hc.1 hc.2, if_pos hle, hint, if_pos rfl]
        have hrest : a + b - w.count = a - w.count + b := by omega
        rw [hfirst a ha, hfirst (a + b) (Nat.le_add_right_of_le ha), hrest,
          advance_add_of_last (interrupts_firstExpiry w)]
      · exact advance_add_of_short ha b
    · rw [advance_of_stopped hc, advance_of_stopped hc, advance_of_stopped hc]

/-! ## Registers -/

/-- `invalid`: whether the access faults, and the state after it. -/
def invalid (w : Swt) : Bool × Swt := if w.bit crRia && w.enabled then (false, w.systemReset) else (true, w)

/-- `serviced`. -/
def serviced (w : Swt) : Swt := { w with count := w.period, expired := false, svcHalf := false }

/-- Equation 52-1: the key that follows. -/
def nextKey (sk : Word) : Word := (17 * sk + 3) &&& 0xFFFF

/-- The window is shut to service writes. -/
def shut (w : Swt) : Bool := w.bit crWnd && w.enabled && decide (w.wn.toNat ≤ w.count)

/-- `service_write`: whether the write was a valid one, and the state after it. -/
def serviceWrite (w : Swt) (wsc : Word) : Bool × Swt :=
  if wsc = unlock1 then (true, { w with unlHalf := true })
  else if wsc = unlock2 ∧ w.unlHalf = true then (true, { w with unlHalf := false, cr := w.cr &&& ~~~crSlk })
  else if w.shut then (false, w)
  else if w.bit crKey then
    if wsc ≠ nextKey w.sk then (false, w)
    else if w.svcHalf then (true, { w with sk := nextKey w.sk }.serviced)
    else (true, { w with sk := nextKey w.sk, svcHalf := true })
  else if wsc = service1 then (true, { w with svcHalf := true })
  else if wsc = service2 ∧ w.svcHalf = true then (true, w.serviced)
  else (false, w)

/-- An access that no register answers. -/
def bad (off size : Nat) : Bool := size ≠ 4 || off % 4 ≠ 0 || skOff < off

/-- `swt_read`: the value, or a fault, and the state after it. -/
def read (w : Swt) (off size : Nat) : Option Word × Swt :=
  if bad off size then
    -- an access that resets reads whatever was there
    if w.invalid.1 then (none, w.invalid.2) else (some 0, w.invalid.2)
  else if off = crOff then (some w.cr, w)
  else if off = irOff then (some w.ir, w)
  else if off = toOff then (some w.timeout, w)
  else if off = wnOff then (some w.wn, w)
  else if off = coOff then (some (if w.enabled then 0 else BitVec.ofNat 32 w.count), w)
  else (some 0, w)

/-- A write of SWT_CR that is not locked out. -/
def writeCr (w : Swt) (val : Word) : Swt :=
  if val &&& ~~~w.cr &&& crWen ≠ 0 then { w with count := w.period, expired := false, cr := val &&& crWritable }
  else { w with cr := val &&& crWritable }

/-- A write of SWT_SR. -/
def writeSr (w : Swt) (wsc : Word) : Bool × Swt :=
  if (w.serviceWrite wsc).1 then (false, (w.serviceWrite wsc).2)
  else if w.enabled then { w with svcHalf := false, unlHalf := false }.invalid
  else (false, { w with svcHalf := false, unlHalf := false })

/-- `swt_write`: whether it faults, and the state after it. -/
def write (w : Swt) (off size : Nat) (val : Word) : Bool × Swt :=
  if bad off size then w.invalid
  else if off = crOff then if w.locked then w.invalid else (false, w.writeCr val)
  else if off = irOff then (false, if val &&& irTif ≠ 0 then { w with ir := 0 } else w)
  else if off = toOff then if w.locked then w.invalid else (false, { w with timeout := val })
  else if off = wnOff then if w.locked then w.invalid else (false, { w with wn := val })
  else if off = skOff then if w.locked then w.invalid else (false, { w with sk := val &&& 0xFFFF })
  else if off = srOff then w.writeSr (val &&& 0xFFFF)
  else w.invalid

/-- What happens to a watchdog. An access first lets the time up to it pass, which is an advance before it. -/
inductive Op where
  | read (off size : Nat)
  | write (off size : Nat) (val : Word)
  | advance (ticks : Nat)

def apply (w : Swt) : Op → Swt
  | .read off size => (w.read off size).2
  | .write off size val => (w.write off size val).2
  | .advance ticks => w.advance ticks

def run (w : Swt) (ops : List Op) : Swt := ops.foldl apply w

/-- What a write to SWT_SR writes. -/
def Op.wsc : Op → Option Word
  | .write off size val => if off = srOff ∧ size = 4 then some (val &&& 0xFFFF) else none
  | _ => none

/-! ## What an operation can do -/

/-- The value a service write has to have, where the fixed sequence has `fixed`. -/
def expected (w : Swt) (fixed : Word) : Word := if w.bit crKey then nextKey w.sk else fixed

/-- SWT_SK after a service write that is valid. -/
def skAfter (w : Swt) : Word := if w.bit crKey then nextKey w.sk else w.sk

/-- A write that the service sequence does not see. -/
def unlocks (w : Swt) (wsc : Word) : Bool := wsc = unlock1 || wsc = unlock2 && w.unlHalf

/-- What a valid write of SWT_SR does. -/
inductive Served (w : Swt) (wsc : Word) : Swt → Prop where
  | unlock1 (h : wsc = unlock1) : Served w wsc { w with unlHalf := true }
  | unlock2 (h : wsc = unlock2) (hhalf : w.unlHalf = true) :
      Served w wsc { w with unlHalf := false, cr := w.cr &&& ~~~crSlk }
  | first (hu : w.unlocks wsc = false) (hopen : w.shut = false) (h : wsc = w.expected service1)
      (hhalf : w.bit crKey = true → w.svcHalf = false) : Served w wsc { w with sk := w.skAfter, svcHalf := true }
  | second (hu : w.unlocks wsc = false) (hopen : w.shut = false) (hhalf : w.svcHalf = true)
      (h : wsc = w.expected service2) : Served w wsc { w with sk := w.skAfter }.serviced

theorem served {w : Swt} {wsc : Word} (h : (w.serviceWrite wsc).1 = true) : Served w wsc (w.serviceWrite wsc).2 := by
  rw [serviceWrite] at h ⊢
  by_cases h1 : wsc = Swt.unlock1
  · rw [if_pos h1]
    exact .unlock1 h1
  rw [if_neg h1] at h ⊢
  by_cases h2 : wsc = Swt.unlock2 ∧ w.unlHalf = true
  · rw [if_pos h2]
    exact .unlock2 h2.1 h2.2
  rw [if_neg h2] at h ⊢
  have hu : w.unlocks wsc = false := by simpa [unlocks, h1] using h2
  have hsecond (hshut : ¬w.shut = true) (hhalf : w.svcHalf = true) (hv : wsc = w.expected service2) :
      Served w wsc { w with sk := w.skAfter }.serviced := .second hu (by simpa using hshut) hhalf hv
  have hfirst (hshut : ¬w.shut = true) (hv : wsc = w.expected service1) (hhalf : w.bit crKey = true → w.svcHalf = false) :
      Served w wsc { w with sk := w.skAfter, svcHalf := true } := .first hu (by simpa using hshut) hv hhalf
  split_ifs at h ⊢ with hshut hkey hnext hhalf hs1 hs2
  · simpa [skAfter, hkey] using hsecond hshut hhalf (by simpa [expected, hkey] using hnext)
  · simpa [skAfter, hkey] using hfirst hshut (by simpa [expected, hkey] using hnext) fun _ => by simpa using hhalf
  · simpa [skAfter, hkey] using hfirst hshut (by simpa [expected, hkey] using hs1) fun hk => absurd hk hkey
  · simpa [skAfter, hkey] using hsecond hshut hs2.2 (by simpa [expected, hkey] using hs2.1)

/-- What an operation does. -/
inductive Effect (w : Swt) (op : Op) : Swt → Prop where
  | advance (ticks : Nat) (h : op = .advance ticks) : Effect w op (w.advance ticks)
  | accepted (wsc : Word) (h : op.wsc = some wsc) (hok : (w.serviceWrite wsc).1 = true) :
      Effect w op (w.serviceWrite wsc).2
  | rejected (wsc : Word) (h : op.wsc = some wsc) (hok : (w.serviceWrite wsc).1 = false) (r : Bool)
      (hr : w.reset = true → r = true) : Effect w op { w with svcHalf := false, unlHalf := false, reset := r }
  | control (val : Word) (h : op.wsc = none) (hl : w.locked = false) : Effect w op (w.writeCr val)
  | configure (timeout wn sk : Word) (h : op.wsc = none) (hl : w.locked = false) :
      Effect w op { w with timeout := timeout, wn := wn, sk := sk }
  | other (ir : Word) (h : op.wsc = none) (r : Bool) (hr : w.reset = true → r = true) :
      Effect w op { w with ir := ir, reset := r }

theorem effect_invalid {w : Swt} {op : Op} (h : op.wsc = none) : Effect w op w.invalid.2 := by
  rw [invalid]
  split_ifs
  · exact .other w.ir h true fun _ => rfl
  · exact .other w.ir h w.reset id

theorem effect_writeSr {w : Swt} {op : Op} {wsc : Word} (h : op.wsc = some wsc) : Effect w op (w.writeSr wsc).2 := by
  rw [writeSr]
  split_ifs with hok hen
  · exact .accepted wsc h hok
  · rw [invalid]
    split_ifs
    · exact .rejected wsc h (by simpa using hok) true fun _ => rfl
    · exact .rejected wsc h (by simpa using hok) w.reset id
  · exact .rejected wsc h (by simpa using hok) w.reset id

theorem effect_write (w : Swt) (off size : Nat) (val : Word) :
    Effect w (.write off size val) (w.write off size val).2 := by
  rw [write]
  by_cases hbad : bad off size = true
  · rw [if_pos hbad]
    refine effect_invalid (if_neg ?_)
    rintro ⟨rfl, rfl⟩
    exact absurd hbad (by decide)
  · rw [if_neg hbad]
    by_cases hsr : off = srOff
    · subst hsr
      have hsize : size = 4 := by
        by_contra hne
        exact hbad (by simp [bad, hne])
      exact effect_writeSr (if_pos ⟨rfl, hsize⟩)
    · have hnone : (Op.write off size val).wsc = none := if_neg fun h => hsr h.1
      split_ifs with hcr hlcr hir htif hto hlto hwn hlwn hsk hlsk
      · exact effect_invalid hnone
      · exact .control val hnone (by simpa using hlcr)
      · exact .other 0 hnone w.reset id
      · exact .other w.ir hnone w.reset id
      · exact effect_invalid hnone
      · exact .configure val w.wn w.sk hnone (by simpa using hlto)
      · exact effect_invalid hnone
      · exact .configure w.timeout val w.sk hnone (by simpa using hlwn)
      · exact effect_invalid hnone
      · exact .configure w.timeout w.wn (val &&& 0xFFFF) hnone (by simpa using hlsk)
      · exact effect_invalid hnone

theorem effect_read (w : Swt) (off size : Nat) : Effect w (.read off size) (w.read off size).2 := by
  have hsame : Effect w (.read off size) w := .other w.ir rfl w.reset id
  rw [read]
  split_ifs
  · exact effect_invalid rfl
  · exact effect_invalid rfl
  all_goals exact hsame

theorem effect (w : Swt) (op : Op) : Effect w op (w.apply op) := by
  cases op with
  | read off size => exact effect_read w off size
  | write off size val => exact effect_write w off size val
  | advance ticks => exact .advance ticks rfl

end Swt

end Emu.Ppc
