-- SUMMARY: The processor clock: the decrementer, the STM and the watchdog on it, the ticks to the next event, and splits of time.
import Emu.Ppc.Stm
import Emu.Ppc.Swt

/-! # The processor clock

What counts on the processor clock: the time base and the decrementer where HID0 has them there, and the core's STM and
watchdog. A stretch of a run is as long as the ticks to the next event, and is handed to the timers at its end. -/

namespace Emu.Ppc

namespace Clock

def hid0Tben : Word := 0x4000
def hid0SelTbclk : Word := 0x2000
def tsrDis : Word := 0x08000000
def tcrAre : Word := 0x00400000

end Clock

/-- What the clock moves of a core and of its devices, with what it reads. -/
structure Clock where
  hid0 : Word
  tcr : Word
  tsr : Word
  tb : BitVec 64
  dec : Nat
  decar : Nat
  irqDirty : Bool
  stm : Option Stm
  swt : Option Swt
  socUntil : Nat

namespace Clock

/-- `on_core_clock`. -/
def onCoreClock (c : Clock) : Bool := c.hid0 &&& (hid0Tben ||| hid0SelTbclk) = hid0Tben

/-- `soc_recompute`. -/
def socRecompute (c : Clock) : Clock :=
  let u := (c.stm.map Stm.until_).getD 0xFFFFFFFF
  { c with
    socUntil := match c.swt with
      | some w => if w.until_ < u then w.until_ else u
      | none => u }

/-- `ppc_cpu_clock_until`. -/
def clockUntil (c : Clock) : Nat :=
  let dec := if c.onCoreClock && c.dec ≠ 0 then c.dec else 0xFFFFFFFF
  if c.socUntil < dec then c.socUntil else dec

/-- The decrementer once it has expired, so many ticks ago. -/
def reload (c : Clock) (past : Nat) : Nat := if c.tcr &&& tcrAre ≠ 0 ∧ c.decar ≠ 0 then c.decar - past % c.decar else 0

/-- `ppc_cpu_advance`. -/
def advance (c : Clock) (ticks : Nat) : Clock :=
  if ticks = 0 then c
  else
    let c := { c with tb := c.tb + BitVec.ofNat 64 ticks }
    if c.dec = 0 then c
    else if ticks < c.dec then { c with dec := c.dec - ticks }
    else { c with tsr := c.tsr ||| tsrDis, dec := c.reload (ticks - c.dec), irqDirty := true }

/-- The timers on the processor clock move on by so many ticks of it. -/
def elapse (c : Clock) (ticks : Nat) : Clock :=
  let c' := if c.onCoreClock then c.advance ticks else c
  { c' with
    stm := c.stm.map (·.advance ticks)
    swt := c.swt.map (·.advance ticks)
    -- a watchdog's reset ends the stretch
    irqDirty := c'.irqDirty || c.swt.any fun w => !w.reset && (w.advance ticks).reset }

/-! ## Time adds up -/

/-- The decrementer expires within so many ticks. -/
def expires (c : Clock) (ticks : Nat) : Bool := c.dec ≠ 0 ∧ c.dec ≤ ticks

/-- The decrementer after so many ticks. -/
def decAfter (c : Clock) (ticks : Nat) : Nat := if c.expires ticks then c.reload (ticks - c.dec) else c.dec - ticks

/-- An advance in one piece: what the ways out of it would do, it does. -/
theorem advance_eq (c : Clock) (ticks : Nat) :
    c.advance ticks =
      { c with
        tb := c.tb + BitVec.ofNat 64 ticks
        tsr := if c.expires ticks then c.tsr ||| tsrDis else c.tsr
        dec := c.decAfter ticks
        irqDirty := c.irqDirty || c.expires ticks } := by
  rw [advance, decAfter]
  by_cases hexp : c.dec ≠ 0 ∧ c.dec ≤ ticks
  · have hticks : ticks ≠ 0 := by omega
    have hle : ¬ticks < c.dec := Nat.not_lt.mpr hexp.2
    simp only [expires, hexp, hticks, hle, ne_eq, not_false_eq_true, and_self, decide_true, if_true, if_false,
      Bool.or_true]
    rfl
  · simp only [expires, hexp, decide_false, Bool.false_eq_true, if_false, Bool.or_false]
    by_cases hticks : ticks = 0
    · subst hticks
      rw [if_pos rfl, Nat.sub_zero, BitVec.add_zero]
    · rw [if_neg hticks]
      by_cases hdec : c.dec = 0
      · rw [if_pos hdec, hdec, Nat.zero_sub]
      · have hlt : ticks < c.dec := by omega
        rw [if_neg hdec, if_pos hlt]

/-- What is left of a period so many ticks later. -/
theorem reload_add (c : Clock) (past b : Nat) :
    c.reload (past + b) = if c.reload past ≠ 0 ∧ c.reload past ≤ b then c.reload (b - c.reload past) else c.reload past - b := by
  by_cases hare : c.tcr &&& tcrAre ≠ 0 ∧ c.decar ≠ 0
  · have hpos : 0 < c.decar := Nat.pos_of_ne_zero hare.2
    have hmod := Nat.mod_lt past hpos
    have hload (n : Nat) : c.reload n = c.decar - n % c.decar := if_pos hare
    simp only [hload]
    split_ifs with h
    · -- a whole period has gone by
      have hwrap : past % c.decar + b = b - (c.decar - past % c.decar) + c.decar := by omega
      rw [← Nat.mod_add_mod, hwrap, Nat.add_mod_right]
    · have hlt : past % c.decar + b < c.decar := by omega
      rw [← Nat.mod_add_mod, Nat.mod_eq_of_lt hlt]
      omega
  · have hload (n : Nat) : c.reload n = 0 := if_neg hare
    simp only [hload, ne_eq, not_true_eq_false, false_and, if_false, Nat.zero_sub]

theorem decAfter_add (c : Clock) (a b : Nat) :
    c.decAfter (a + b) = (c.advance a).decAfter b ∧
      c.expires (a + b) = (c.expires a || (c.advance a).expires b) := by
  have hdec : (c.advance a).dec = c.decAfter a := by rw [advance_eq]
  have hload (n : Nat) : (c.advance a).reload n = c.reload n := by
    rw [advance_eq]
    rfl
  rw [decAfter, decAfter, expires, expires, expires, hdec, hload]
  by_cases ha : c.dec ≠ 0 ∧ c.dec ≤ a
  · have hafter : c.decAfter a = c.reload (a - c.dec) := if_pos (decide_eq_true ha)
    have hab : c.dec ≠ 0 ∧ c.dec ≤ a + b := ⟨ha.1, Nat.le_add_right_of_le ha.2⟩
    have hpast : a + b - c.dec = a - c.dec + b := by omega
    rw [hafter, decide_eq_true ha, decide_eq_true hab, if_pos rfl, hpast, reload_add, Bool.true_or]
    simp only [decide_eq_true_eq, and_self]
  · have hafter : c.decAfter a = c.dec - a := if_neg (by simpa [expires] using ha)
    have hiff : (c.dec ≠ 0 ∧ c.dec ≤ a + b) ↔ (c.dec - a ≠ 0 ∧ c.dec - a ≤ b) := by omega
    rw [hafter, decide_eq_false ha, Bool.false_or]
    simp only [hiff, and_true]
    split_ifs with h
    · have hpast : a + b - c.dec = b - (c.dec - a) := by
        have := of_decide_eq_true h
        omega
      rw [hpast]
    · omega

/-- An advance may be split anywhere. -/
theorem advance_add (c : Clock) (a b : Nat) : c.advance (a + b) = (c.advance a).advance b := by
  obtain ⟨hdec, hexp⟩ := c.decAfter_add a b
  rw [advance_eq c (a + b), hdec, hexp, advance_eq (c.advance a) b]
  generalize (c.advance a).decAfter b = dec
  generalize (c.advance a).expires b = again
  rw [advance_eq c a, BitVec.ofNat_add, ← BitVec.add_assoc, ← Bool.or_assoc]
  congr 1
  cases c.expires a with
  | false => rfl
  | true =>
    cases again with
    | false => rfl
    | true =>
      change c.tsr ||| tsrDis = c.tsr ||| tsrDis ||| tsrDis
      rw [BitVec.or_assoc, BitVec.or_self]

/-! ## The next event -/

/-- No event is new: no bit of TSR, no channel's flag, not the watchdog's interrupt flag and no reset. -/
structure Quiet (c c' : Clock) : Prop where
  tsr : c'.tsr = c.tsr
  cir : c'.stm.map Stm.cir = c.stm.map Stm.cir
  ir : c'.swt.map Swt.ir = c.swt.map Swt.ir
  reset : c'.swt.map Swt.reset = c.swt.map Swt.reset

/-- An event: the decrementer expires, with DIS set after it; a channel is flagged that was not; the watchdog expires for
the first time, with TIF set after it, or resets. -/
inductive Event (c c' : Clock) : Prop where
  | decrementer (hon : c.onCoreClock = true) (hdec : c.dec ≠ 0) (hdis : c'.tsr &&& tsrDis ≠ 0) (hload : c'.dec = c.reload 0)
  | channel {s s' : Stm} (n : Fin 4) (hs : c.stm = some s) (hs' : c'.stm = some s') (hclear : s.cir n &&& Stm.cirCif = 0)
      (hset : s'.cir n &&& Stm.cirCif ≠ 0)
  | expiry {w w' : Swt} (hw : c.swt = some w) (hw' : c'.swt = some w') (hclear : w.expired = false)
      (hset : w'.expired = true) (htif : w'.ir &&& Swt.irTif ≠ 0)
  | reset {w w' : Swt} (hw : c.swt = some w) (hw' : c'.swt = some w') (hclear : w.reset = false) (hset : w'.reset = true)

theorem eq_of_lt_of_le {t x : Nat} (h : ∀ u < t, u < x) (hle : x ≤ t) : x = t :=
  Nat.le_antisymm hle (Nat.le_of_not_lt fun hlt => Nat.lt_irrefl x (h x hlt))

theorem lt_least_iff {u a b : Nat} : u < (if a < b then a else b) ↔ u < a ∧ u < b := by
  split_ifs with h
  · exact ⟨fun hu => ⟨hu, hu.trans h⟩, And.left⟩
  · exact ⟨fun hu => ⟨hu.trans_le (Nat.le_of_not_lt h), hu⟩, And.right⟩

/-- The ticks before the devices' next event. -/
theorem lt_socUntil_iff {c : Clock} {u : Nat} :
    u < c.socRecompute.socUntil ↔
      u < 0xFFFFFFFF ∧ (∀ s, c.stm = some s → u < s.until_) ∧ ∀ w, c.swt = some w → u < w.until_ := by
  have hstm : u < (c.stm.map Stm.until_).getD 0xFFFFFFFF ↔ u < 0xFFFFFFFF ∧ ∀ s, c.stm = some s → u < s.until_ := by
    cases c.stm with
    | none => simp
    | some s =>
      simp only [Option.map_some, Option.getD_some, Option.some.injEq, forall_eq']
      exact ⟨fun h => ⟨(Stm.lt_until_iff.mp h).1, h⟩, And.right⟩
  rw [socRecompute]
  cases c.swt with
  | none => simp only [hstm, reduceCtorEq, false_imp_iff, implies_true, and_true]
  | some w =>
    simp only [lt_least_iff, hstm, Option.some.injEq, forall_eq']
    rw [and_comm, and_assoc]

/-- The ticks before the next event are those before the decrementer's, the STM's and the watchdog's. -/
theorem lt_clockUntil_iff {c : Clock} {u : Nat} :
    u < c.socRecompute.clockUntil ↔
      u < 0xFFFFFFFF ∧ (c.onCoreClock = true → c.dec ≠ 0 → u < c.dec) ∧ (∀ s, c.stm = some s → u < s.until_) ∧
        ∀ w, c.swt = some w → u < w.until_ := by
  have hdec : u < (if c.onCoreClock && c.dec ≠ 0 then c.dec else 0xFFFFFFFF) ∧ u < 0xFFFFFFFF ↔
      u < 0xFFFFFFFF ∧ (c.onCoreClock = true → c.dec ≠ 0 → u < c.dec) := by
    rw [and_comm]
    refine and_congr_right fun hu => ?_
    split_ifs with h
    · rw [Bool.and_eq_true, decide_eq_true_iff] at h
      exact ⟨fun hlt _ _ => hlt, fun hlt => hlt h.1 h.2⟩
    · rw [Bool.and_eq_true, decide_eq_true_iff] at h
      exact ⟨fun _ hon hne => absurd ⟨hon, hne⟩ h, fun _ => hu⟩
  rw [clockUntil, lt_least_iff, lt_socUntil_iff, and_comm, ← and_assoc, ← and_assoc]
  change ((u < (if c.onCoreClock && c.dec ≠ 0 then c.dec else 0xFFFFFFFF) ∧ u < 0xFFFFFFFF) ∧ _) ∧ _ ↔ _
  rw [hdec, and_assoc, and_assoc]

/-- Short of its expiry the watchdog only counts. -/
theorem quiet_swt {w : Swt} {u : Nat} (h : u < w.until_) :
    (w.advance u).ir = w.ir ∧ (w.advance u).reset = w.reset := by
  by_cases hc : w.enabled = true ∧ w.reset = false
  · have hcount : w.until_ = w.count := if_pos (by simp [hc])
    rw [hcount] at h
    rw [Swt.advance_of_counting hc.1 hc.2, if_neg (Nat.not_le.mpr h)]
    exact ⟨rfl, rfl⟩
  · rw [Swt.advance_of_stopped hc]
    exact ⟨rfl, rfl⟩

/-- Short of a match no flag is set. -/
theorem quiet_stm {s : Stm} {u : Nat} (h : u < s.until_) : (s.advance u).cir = s.cir := by
  rw [Stm.lt_until_iff] at h
  cases hten : s.ten with
  | false => rw [Stm.advance_of_stopped hten]
  | true =>
    funext n
    rw [Stm.cir_advance hten (by omega), if_neg]
    rintro ⟨hw, hle⟩
    exact absurd (h.2 hten n hw) (Nat.not_lt.mpr hle)

theorem quiet_of_lt {c : Clock} {u : Nat} (h : u < c.socRecompute.clockUntil) : Quiet c (c.elapse u) := by
  obtain ⟨-, hdec, hstm, hswt⟩ := lt_clockUntil_iff.mp h
  constructor
  · change (if c.onCoreClock then c.advance u else c).tsr = c.tsr
    split_ifs with hon
    · have hexp : c.expires u = false := by
        rw [expires, decide_eq_false_iff_not]
        rintro ⟨hne, hle⟩
        exact absurd (hdec hon hne) (Nat.not_lt.mpr hle)
      rw [advance_eq, hexp]
      rfl
    · rfl
  · change (c.stm.map (·.advance u)).map Stm.cir = _
    cases hs : c.stm with
    | none => rfl
    | some s => exact congrArg some (quiet_stm (hstm s hs))
  · change (c.swt.map (·.advance u)).map Swt.ir = _
    cases hw : c.swt with
    | none => rfl
    | some w => exact congrArg some (quiet_swt (hswt w hw)).1
  · change (c.swt.map (·.advance u)).map Swt.reset = _
    cases hw : c.swt with
    | none => rfl
    | some w => exact congrArg some (quiet_swt (hswt w hw)).2

/-- The counter at zero is the watchdog's first expiry or its reset. -/
theorem event_swt {w : Swt} (h : w.until_ < 0xFFFFFFFF) :
    (w.expired = false ∧ (w.advance w.until_).expired = true ∧ (w.advance w.until_).ir &&& Swt.irTif ≠ 0) ∨
      (w.reset = false ∧ (w.advance w.until_).reset = true) := by
  by_cases hc : w.enabled = true ∧ w.reset = false
  · have hcount : w.until_ = w.count := if_pos (by simp [hc])
    rw [hcount, Swt.advance_of_counting hc.1 hc.2, if_pos (Nat.le_refl _), Nat.sub_self]
    cases hint : w.interrupts with
    | true =>
      have hfirst : w.expired = false := by
        rw [Swt.interrupts, Bool.and_eq_true, Bool.not_eq_true'] at hint
        exact hint.2
      have hloaded : ¬w.firstExpiry.count ≤ 0 := Nat.not_le.mpr w.period_pos
      rw [if_pos rfl, Swt.advance_of_counting (w := w.firstExpiry) hc.1 hc.2, if_neg hloaded]
      refine .inl ⟨hfirst, rfl, ?_⟩
      change (w.ir ||| Swt.irTif) &&& Swt.irTif ≠ 0
      rw [Masks.or_and_self_right]
      decide
    | false => exact .inr ⟨hc.2, rfl⟩
  · have hnever : w.until_ = 0xFFFFFFFF := if_neg (by simpa using hc)
    rw [hnever] at h
    exact absurd h (Nat.lt_irrefl _)

/-- The channel that the counter comes to is flagged. -/
theorem event_stm {s : Stm} (h : s.until_ < 0xFFFFFFFF) :
    ∃ n, s.cir n &&& Stm.cirCif = 0 ∧ (s.advance s.until_).cir n &&& Stm.cirCif ≠ 0 := by
  have hnot : ¬(s.ten = true → ∀ n, s.waits n = true → s.until_ < s.ticksTo n) := by
    intro hall
    exact absurd (Stm.lt_until_iff.mpr ⟨h, hall⟩) (Nat.lt_irrefl _)
  push Not at hnot
  obtain ⟨hten, n, hw, hle⟩ := hnot
  refine ⟨n, ?_, ?_⟩
  · rw [Stm.waits, Bool.and_eq_true, decide_eq_true_iff, decide_eq_true_iff] at hw
    exact hw.2
  · rw [Stm.cir_advance hten (by omega), if_pos ⟨hw, hle⟩]
    exact Stm.flagged _

theorem event_at {c : Clock} (h : c.socRecompute.clockUntil < 0xFFFFFFFF) :
    Event c (c.elapse c.socRecompute.clockUntil) := by
  generalize ht : c.socRecompute.clockUntil = t at h
  have hiff (u : Nat) := lt_clockUntil_iff (c := c) (u := u)
  rw [ht] at hiff
  -- the ticks are none fewer than each of the three has left, and those of one of them
  have hnot : ¬((c.onCoreClock = true → c.dec ≠ 0 → t < c.dec) ∧ (∀ s, c.stm = some s → t < s.until_) ∧
      ∀ w, c.swt = some w → t < w.until_) := fun hall => absurd ((hiff t).mpr ⟨h, hall⟩) (Nat.lt_irrefl t)
  by_cases hdec : c.onCoreClock = true → c.dec ≠ 0 → t < c.dec
  · by_cases hstm : ∀ s, c.stm = some s → t < s.until_
    · have hswt : ¬∀ w, c.swt = some w → t < w.until_ := fun hall => hnot ⟨hdec, hstm, hall⟩
      push Not at hswt
      obtain ⟨w, hw, hle⟩ := hswt
      have heq : w.until_ = t := eq_of_lt_of_le (fun u hu => ((hiff u).mp hu).2.2.2 w hw) hle
      subst heq
      have hw' : (c.elapse w.until_).swt = some (w.advance w.until_) := by
        change c.swt.map _ = _
        rw [hw]
        rfl
      rcases event_swt h with ⟨hclear, hset, htif⟩ | ⟨hclear, hset⟩
      · exact .expiry hw hw' hclear hset htif
      · exact .reset hw hw' hclear hset
    · push Not at hstm
      obtain ⟨s, hs, hle⟩ := hstm
      have heq : s.until_ = t := eq_of_lt_of_le (fun u hu => ((hiff u).mp hu).2.2.1 s hs) hle
      subst heq
      have hs' : (c.elapse s.until_).stm = some (s.advance s.until_) := by
        change c.stm.map _ = _
        rw [hs]
        rfl
      obtain ⟨n, hclear, hset⟩ := event_stm h
      exact .channel n hs hs' hclear hset
  · push Not at hdec
    obtain ⟨hon, hne, hle⟩ := hdec
    have heq : c.dec = t := eq_of_lt_of_le (fun u hu => ((hiff u).mp hu).2.1 hon hne) hle
    subst heq
    have hexp : c.expires c.dec = true := decide_eq_true ⟨hne, Nat.le_refl _⟩
    have hadv : c.elapse c.dec = { c.elapse c.dec with tsr := c.tsr ||| tsrDis, dec := c.reload 0 } := by
      rw [elapse, if_pos hon, advance_eq, decAfter, hexp, if_pos rfl, if_pos rfl, Nat.sub_self]
    rw [hadv]
    refine .decrementer hon hne ?_ rfl
    rw [Masks.or_and_self_right]
    decide

/-- Up to the next event nothing happens and at it something does; and an advance of the core, of the STM or of the
watchdog is what the advances by its parts are. -/
theorem timers_exact (c : Clock) :
    (∀ u < c.socRecompute.clockUntil, Quiet c (c.elapse u)) ∧
    (c.socRecompute.clockUntil < 0xFFFFFFFF → Event c (c.elapse c.socRecompute.clockUntil)) ∧
    (∀ a b, a + b < 2 ^ 32 → c.advance (a + b) = (c.advance a).advance b) ∧
    (∀ (s : Stm) a b, a + b < 2 ^ 32 → s.advance (a + b) = (s.advance a).advance b) ∧
    ∀ (w : Swt) a b, a + b < 2 ^ 32 → w.advance (a + b) = (w.advance a).advance b :=
  ⟨fun _ => quiet_of_lt, event_at, fun a b _ => c.advance_add a b, fun s _ _ h => s.advance_add h,
    fun w a b _ => w.advance_add a b⟩

/-- An expiry of the decrementer while DIS is still set is not seen in TSR. -/
theorem expiry_unseen :
    let c : Clock := { hid0 := hid0Tben, tcr := 0, tsr := tsrDis, tb := 0, dec := 5, decar := 0, irqDirty := false,
                       stm := none, swt := none, socUntil := 0xFFFFFFFF }
    c.socRecompute.clockUntil = 5 ∧ Quiet c (c.elapse 5) := by
  intro c
  exact ⟨by decide, by decide, rfl, rfl, rfl⟩

end Clock

end Emu.Ppc
