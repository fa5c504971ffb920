-- SUMMARY: The dispatcher of the block backend never passes over an exception that could preempt.
import Emu.Arm.Select
import Emu.Arm.SysTick

/-! # Looking for interrupts

Before a block the dispatcher looks for an exception to take, and only while `irq_maybe` is set. What can happen to the
exception state is a list of operations here: any of them, in any order, while the interpreter or the exception model
runs, and a few while translated code does. The dispatcher is a machine over its points, with the interrupt lines moving
at any of them. -/

namespace Emu.Arm

namespace Nvic

/-! ## Operations -/

/-- What the core does to the exception state. -/
inductive Op where
  /-- `armv7m_set_pending`. -/
  | pend (exc : Nat) (on : Bool)
  /-- `armv7m_set_irq`. -/
  | line (source : Nat) (level : Bool)
  /-- `scs_read`. -/
  | read (off size : Nat) (priv : Bool)
  /-- `scs_write`. -/
  | write (off size : Nat) (priv : Bool) (v : Word)
  /-- The end of `exception_taken`. -/
  | taken (exc : Nat)
  /-- `deactivate`. -/
  | deactivate (exc : Nat)
  /-- MSR and CPS. -/
  | masks (primask faultmask basepri : Word)
  /-- xPSR, the fault status and addresses, what is kept of a deferred FP frame, and whether the core runs. -/
  | status (xpsr cfsr hfsr mmfar bfar fpccr fpcar : Word) (state : RunState)
  /-- An instruction retires in `armv7m_run`. -/
  | retire
  /-- `a7_count`. -/
  | count (n : Word)
  /-- `armv7m_reset_state`. -/
  | reset

def Op.run : Op → Nvic → Nvic
  | .pend exc on, s => s.setPending exc on
  | .line source level, s => s.setIrq source level
  | .read off size priv, s => (s.scsRead off size priv).2
  | .write off size priv v, s => (s.scsWrite off size priv v).2
  | .taken exc, s => s.taken exc
  | .deactivate exc, s => s.deactivate exc
  | .masks primask faultmask basepri, s => { s with primask, faultmask, basepri }
  | .status xpsr cfsr hfsr mmfar bfar fpccr fpcar state, s =>
    { s with xpsr, cfsr, hfsr, mmfar, bfar, fpccr, fpcar, state }
  | .retire, s => s.retire
  | .count n, s => s.a7Count n
  | .reset, s => s.resetState

/-- What translated code does without a helper that stops it: accesses to the System Control Space and to devices, and a
store that pends an imprecise fault. -/
def Op.inBlock : Op → Bool
  | .pend _ on => on
  | .line _ _ | .read _ _ _ | .write _ _ _ _ | .status _ _ _ _ _ _ _ _ => true
  | _ => false

/-! ## What every operation keeps -/

/-- `pending_any` is right, and the two lowest exceptions, which are none, are not pending. -/
structure Wf (s : Nvic) : Prop where
  any : s.pendingAny = decide (anyWord s.pending nExcWords ≠ 0)
  low : ∀ exc < 2, bitGet s.pending exc = false
  prigroup : s.prigroup.toNat < 8

/-- An operation that keeps the invariant and does not clear `irq_maybe`. -/
structure Keeps (s s' : Nvic) : Prop where
  wf : s.Wf → s'.Wf
  irqMaybe : s.irqMaybe = true → s'.irqMaybe = true

variable {s : Nvic}

theorem Keeps.refl (s : Nvic) : s.Keeps s := ⟨id, id⟩

theorem Keeps.trans {s s' s'' : Nvic} (h : s.Keeps s') (h' : s'.Keeps s'') : s.Keeps s'' :=
  ⟨fun hw => h'.wf (h.wf hw), fun hi => h'.irqMaybe (h.irqMaybe hi)⟩

theorem Keeps.foldl {α : Type} {f : Nvic → α → Nvic} (hf : ∀ s a, Keeps s (f s a)) (l : List α) (s : Nvic) :
    s.Keeps (l.foldl f s) := by
  induction l generalizing s with
  | nil => exact .refl s
  | cons a rest ih => exact (hf s a).trans (ih _)

/-- What changes neither the pending words nor PRIGROUP. -/
theorem Keeps.of_eq {s' : Nvic} (hp : s'.pending = s.pending) (ha : s'.pendingAny = s.pendingAny)
    (hg : s'.prigroup = s.prigroup) (hi : s'.irqMaybe = s.irqMaybe) : s.Keeps s' where
  wf h := ⟨by rw [ha, hp]; exact h.any, by rw [hp]; exact h.low, by rw [hg]; exact h.prigroup⟩
  irqMaybe h := hi.trans h

theorem keeps_pendingPut {exc : Nat} {on : Bool} (h : on = true → 2 ≤ exc) : s.Keeps (s.pendingPut exc on) where
  wf hw := by
    refine ⟨rfl, fun e he => ?_, hw.prigroup⟩
    rw [pendingPut, bitGet_bitPut]
    split_ifs with heq
    · cases on with
      | false => rfl
      | true => exact absurd (h rfl) (by omega)
    · exact hw.low e he
  irqMaybe hi := hi

theorem keeps_setPending (exc : Nat) (on : Bool) : s.Keeps (s.setPending exc on) := by
  unfold setPending
  split_ifs with hexc hon
  · exact (keeps_pendingPut fun _ => hexc.1).trans ⟨fun h => ⟨h.any, h.low, h.prigroup⟩, fun _ => rfl⟩
  · exact keeps_pendingPut fun _ => hexc.1
  · exact .refl s

theorem keeps_setIrq (source : Nat) (level : Bool) : s.Keeps (s.setIrq source level) := by
  have hline : s.Keeps { s with line := bitPut s.line source level } := .of_eq rfl rfl rfl rfl
  unfold setIrq
  split_ifs
  · exact .refl s
  · exact hline.trans (keeps_setPending _ _)
  · exact hline

theorem keeps_shcsrWrite (v : Word) : s.Keeps (s.shcsrWrite v) := by
  have hbits : s.Keeps { s with shcsr := v &&& 0x00070000 } := .of_eq rfl rfl rfl rfl
  have hactive (s : Nvic) (p : Nat × Nat) : s.Keeps (s.setActive p.1 (v.getLsbD p.2)) := .of_eq rfl rfl rfl rfl
  exact (hbits.trans (.foldl hactive _ _)).trans (.foldl (fun s p => keeps_setPending _ _) _ _)

theorem keeps_icsrWrite (v : Word) : s.Keeps (s.icsrWrite v) := by
  refine .foldl (fun s b => ?_) _ _
  split_ifs
  · exact keeps_setPending _ _
  · exact .refl s

theorem keeps_irqBankWrite (bank : Nat) (v : Word) (set : Bool) : s.Keeps (s.irqBankWrite bank v set) := by
  unfold irqBankWrite
  split_ifs
  · exact .refl s
  · refine .foldl (fun s i => ?_) _ _
    split_ifs
    · exact keeps_setPending _ _
    · exact .refl s

theorem keeps_byteWrite {off : Nat} {v : Byte} {s' : Nvic} (h : s.byteWrite off v = some s') : s.Keeps s' := by
  unfold byteWrite at h
  split at h
  · cases h
    split_ifs
    · exact .refl s
    · exact .of_eq rfl rfl rfl rfl
  · split_ifs at h
    cases h
    exact .of_eq rfl rfl rfl rfl

theorem keeps_bytesWrite (r : Nat) (v : Word) : s.Keeps (s.bytesWrite r v) := by
  refine .foldl (fun s i => ?_) _ _
  cases h : s.byteWrite (r + i) ((v >>> (8 * i)).setWidth 8) with
  | none => exact .refl s
  | some s' => exact keeps_byteWrite h

theorem keeps_aircrWrite (v : Word) : s.Keeps (s.aircrWrite v) := by
  unfold aircrWrite
  split
  · refine ⟨fun h => ⟨h.any, h.low, ?_⟩, id⟩
    rw [BitVec.toNat_and]
    exact Nat.lt_of_le_of_lt Nat.and_le_right (by decide)
  · exact .refl s

theorem keeps_wordWrite (off : Nat) (v : Word) : s.Keeps (s.wordWrite off v) := by
  unfold wordWrite
  dsimp only
  generalize regAt (off / 4 * 4) = reg
  cases reg
  case icsr => exact keeps_icsrWrite v
  case aircr => exact keeps_aircrWrite v
  case shcsr => exact keeps_shcsrWrite v
  case mpuRbar =>
    unfold mpuRegionWrite
    split_ifs <;> exact .of_eq rfl rfl rfl rfl
  case stir =>
    dsimp only
    split_ifs
    · exact keeps_setPending _ _
    · exact .refl s
  case ispr bank => exact keeps_irqBankWrite bank v true
  case icpr bank => exact keeps_irqBankWrite bank v false
  case iser bank | icer bank =>
    dsimp only
    split_ifs <;> exact .of_eq rfl rfl rfl rfl
  -- the others write registers that are neither, or bytes
  all_goals first
    | exact .of_eq rfl rfl rfl rfl
    | exact keeps_bytesWrite _ _

theorem keeps_scsBytesWrite (off : Nat) (val : Word) (is : List Nat) :
    s.Keeps (scsBytesWrite off val is s).2 := by
  induction is generalizing s with
  | nil => exact .refl s
  | cons i rest ih =>
    rw [scsBytesWrite]
    cases h : s.byteWrite (off + i) ((val >>> (8 * i)).setWidth 8) with
    | none => exact .refl s
    | some s' => exact (keeps_byteWrite h).trans ih

theorem keeps_scsWrite (off size : Nat) (priv : Bool) (val : Word) :
    { s with irqMaybe := true }.Keeps (s.scsWrite off size priv val).2 := by
  unfold scsWrite
  dsimp only
  split_ifs
  · exact .refl _
  · exact keeps_wordWrite off val
  · exact keeps_scsBytesWrite off val _

/-- A read of the System Control Space clears COUNTFLAG at most. -/
theorem scsRead_eq (off size : Nat) (priv : Bool) :
    (s.scsRead off size priv).2 = s ∨ (s.scsRead off size priv).2 = { s with systickCountflag := false } := by
  have hword : (s.wordRead off).2 = s ∨ (s.wordRead off).2 = { s with systickCountflag := false } := by
    unfold wordRead
    dsimp only
    generalize regAt (off / 4 * 4) = reg
    cases reg
    case systCsr =>
      dsimp only
      split_ifs
      · exact .inr rfl
      · exact .inl rfl
    case bytes =>
      dsimp only
      split <;> exact .inl rfl
    all_goals exact .inl rfl
  unfold scsRead
  split_ifs
  · exact .inl rfl
  · exact hword
  · split <;> exact .inl rfl

theorem keeps_scsRead (off size : Nat) (priv : Bool) : s.Keeps (s.scsRead off size priv).2 := by
  rcases scsRead_eq (s := s) off size priv with h | h
  · rw [h]
    exact .refl s
  · rw [h]
    exact .of_eq rfl rfl rfl rfl

theorem keeps_systickTurn : s.Keeps s.systickTurn := by
  have hvalue (s : Nvic) (v : Word) : s.Keeps (s.setSystickValue v) := .of_eq rfl rfl rfl rfl
  have hflag (s : Nvic) : s.Keeps { s with systickCountflag := true } := .of_eq rfl rfl rfl rfl
  unfold systickTurn systickExpire
  split_ifs
  · exact hvalue _ _
  · exact (hvalue _ _).trans ((hflag _).trans (keeps_setPending _ _))
  · exact (hvalue _ _).trans (hflag _)
  · exact hvalue _ _

theorem keeps_iterate_systickTurn (n : Nat) : s.Keeps (systickTurn^[n] s) := by
  induction n generalizing s with
  | zero => exact .refl s
  | succ n ih => exact keeps_systickTurn.trans ih

/-- Instructions counted: ticks, if the counter is enabled. -/
theorem a7Count_cases (n : Word) : s.a7Count n = s.addRetired (n.setWidth 64) ∨
    s.a7Count n = (systickTurn^[n.toNat] s).addRetired (n.setWidth 64) := by
  rw [a7Count_eq_iterate_retire, show n.setWidth 64 = BitVec.ofNat 64 n.toNat from (BitVec.ofNat_toNat 64 n).symm]
  by_cases hen : s.systickCtrl &&& 1 = 0
  · exact .inl (iterate_retire_of_disabled hen _)
  · exact .inr (iterate_retire_of_enabled hen _)

theorem keeps_a7Count (n : Word) : s.Keeps (s.a7Count n) := by
  have hret (s : Nvic) : s.Keeps (s.addRetired (n.setWidth 64)) := .of_eq rfl rfl rfl rfl
  rcases a7Count_cases (s := s) n with h | h
  · rw [h]
    exact hret s
  · rw [h]
    exact (keeps_iterate_systickTurn _).trans (hret _)

theorem wf_resetState (s : Nvic) : s.resetState.Wf := by
  refine ⟨?_, ?_, ?_⟩
  · show false = decide (anyWord (fun _ => 0) nExcWords ≠ 0)
    decide
  · show ∀ exc < 2, bitGet (fun _ => 0) exc = false
    decide
  · show (0 : Word).toNat < 8
    decide

theorem keeps_deactivate (exc : Nat) : s.Keeps (s.deactivate exc) := by
  have hput : s.Keeps { s with
      active := bitPut s.active exc false, faultmask := if exc ≠ excNmi then 0 else s.faultmask } :=
    .of_eq rfl rfl rfl rfl
  rw [deactivate]
  by_cases hext : excExternal ≤ exc ∧ bitGet s.line (exc - excExternal) = true
  · rw [if_pos hext]
    exact hput.trans (keeps_pendingPut fun _ => Nat.le_trans (by decide) hext.1)
  · rw [if_neg hext]
    exact hput

theorem Op.wf (op : Op) (h : s.Wf) : (op.run s).Wf := by
  cases op with
  | pend exc on => exact (keeps_setPending exc on).wf h
  | line source level => exact (keeps_setIrq source level).wf h
  | read off size priv => exact (keeps_scsRead off size priv).wf h
  | write off size priv v => exact (keeps_scsWrite off size priv v).wf ⟨h.any, h.low, h.prigroup⟩
  | taken exc =>
    have hact : s.Keeps { s with active := bitPut s.active exc true } := .of_eq rfl rfl rfl rfl
    exact (hact.trans (keeps_pendingPut (fun hf => absurd hf (by decide)))).wf h
  | deactivate exc => exact (keeps_deactivate exc).wf h
  | masks primask faultmask basepri => exact ⟨h.any, h.low, h.prigroup⟩
  | status xpsr cfsr hfsr mmfar bfar fpccr fpcar state => exact ⟨h.any, h.low, h.prigroup⟩
  | retire =>
    have hone : s.retire = s.a7Count 1 := (a7Count_eq_iterate_retire s 1).symm
    rw [Op.run, hone]
    exact (keeps_a7Count 1).wf h
  | count n => exact (keeps_a7Count n).wf h
  | reset => exact wf_resetState s

/-! ## The flag -/

/-- While `irq_maybe` is clear there is nothing to find. -/
def Calm (s : Nvic) : Prop := s.irqMaybe = false → ¬s.Preempted

theorem Calm.of_irqMaybe (h : s.irqMaybe = true) : s.Calm := fun hf => absurd (h.symm.trans hf) (by decide)

theorem setPending_true_irqMaybe {exc : Nat} (h : 2 ≤ exc ∧ exc < nExc) : (s.setPending exc true).irqMaybe = true := by
  rw [setPending, if_pos h]
  rfl

theorem calm_setPending (h : s.Calm) (exc : Nat) : (s.setPending exc true).Calm := by
  by_cases hexc : 2 ≤ exc ∧ exc < nExc
  · exact .of_irqMaybe (setPending_true_irqMaybe hexc)
  · rw [setPending, if_neg hexc]
    exact h

theorem calm_setIrq (h : s.Calm) (source : Nat) (level : Bool) : (s.setIrq source level).Calm := by
  unfold setIrq
  split_ifs
  · exact h
  · exact calm_setPending (s := { s with line := bitPut s.line source level }) h _
  · exact h

theorem calm_systickTurn (h : s.Calm) : s.systickTurn.Calm := by
  unfold systickTurn systickExpire
  split_ifs
  · exact h
  · exact calm_setPending (s := { s.setSystickValue (s.systickValue - 1) with systickCountflag := true }) h _
  · exact h
  · exact h

theorem calm_iterate_systickTurn (h : s.Calm) (n : Nat) : (systickTurn^[n] s).Calm := by
  induction n generalizing s with
  | zero => exact h
  | succ n ih => exact ih (calm_systickTurn h)

theorem calm_a7Count (h : s.Calm) (n : Word) : (s.a7Count n).Calm := by
  rcases a7Count_cases (s := s) n with heq | heq
  · rw [heq]
    exact h
  · rw [heq]
    exact calm_iterate_systickTurn h n.toNat

/-- What translated code does pends nothing and unmasks nothing behind the flag's back. -/
theorem Op.calm {op : Op} (hop : op.inBlock = true) (h : s.Calm) : (op.run s).Calm := by
  cases op with
  | pend exc on =>
    obtain rfl : on = true := hop
    exact calm_setPending h exc
  | line source level => exact calm_setIrq h source level
  | read off size priv =>
    rcases scsRead_eq (s := s) off size priv with heq | heq
    · rw [Op.run, heq]
      exact h
    · rw [Op.run, heq]
      exact h
  | write off size priv v => exact .of_irqMaybe ((keeps_scsWrite off size priv v).irqMaybe rfl)
  | status xpsr cfsr hfsr mmfar bfar fpccr fpcar state => exact h
  | taken exc | deactivate exc | masks primask faultmask basepri | retire | count n | reset => cases hop

theorem Wf.zero_notMem (h : s.Wf) : 0 ∉ s.candidates := by
  intro hmem
  have := (mem_candidates.mp hmem).2.1
  rw [h.low 0 (by decide)] at this
  exact Bool.false_ne_true this

theorem Wf.preempts_iff (h : s.Wf) : s.pendingExc.2 = true ↔ s.Preempted := pendingExc_preempts_iff h.zero_notMem

/-! ## The choice -/

/-- What `armv7m_pending_exc` is to answer. -/
structure Selects (s : Nvic) : Prop where
  none : s.candidates = [] → s.pendingExc = (0, false)
  /-- Priority first and number second, it is the least of what is pending and may be taken. -/
  least : ∀ exc ∈ s.candidates, s.pendingExc.1 ∈ s.candidates ∧
    toLex (s.excPrio s.pendingExc.1, s.pendingExc.1) ≤ toLex (s.excPrio exc, exc)
  preempts : s.candidates ≠ [] →
    (s.pendingExc.2 = true ↔ s.group (s.excPrio s.pendingExc.1) < s.execPriority)
  /-- The execution priority is the least of the group priorities of what is active and of what the masks raise it to. -/
  priority : ∀ p, p ≤ s.execPriority ↔
    p ≤ 256 ∧ (∀ exc < excBits, bitGet s.active exc = true → p ≤ s.group (s.excPrio exc)) ∧
      (s.basepri &&& 0xF0 ≠ 0 → p ≤ s.group (s.basepri &&& 0xF0).toNat) ∧ (s.primask ≠ 0 → p ≤ 0) ∧
      (s.faultmask ≠ 0 → p ≤ -1)

theorem Wf.selects (h : s.Wf) : s.Selects where
  none := pendingExc_of_nil
  least _ hexc := pendingExc_least hexc
  preempts hne := by
    obtain ⟨hmem, hval⟩ := best_mem hne
    have hbest : s.best.1 ≠ 0 := fun h0 => h.zero_notMem (h0 ▸ hmem)
    rw [pendingExc_of_ne_nil hne]
    simp [hbest, hval]
  priority := le_execPriority_iff h.prigroup

theorem Wf.pendingAny_iff (h : s.Wf) : s.pendingAny = true ↔ ∃ exc < excBits, bitGet s.pending exc = true := by
  rw [h.any, decide_eq_true_iff, Ne, anyWord_eq_zero_iff]
  simp only [not_forall, Bool.not_eq_false, exists_prop]
  exact Iff.rfl

end Nvic

/-! ## The dispatcher -/

/-- Where the dispatcher is. -/
inductive Point where
  /-- Between slices: a debugger, a reset, the interpreter run on its own. -/
  | outside
  /-- The head of the loop of `emu_jit_run`. -/
  | top
  /-- In `a7_take_irq`, with `irq_maybe` cleared and `armv7m_pending_exc` still to be called. -/
  | looking
  /-- In `armv7m_take`. -/
  | taking
  /-- Past the look: a block is next, or the interpreter. -/
  | dispatch
  | interp
  | block
  /-- In a helper of a block that executes an instruction or takes a fault. -/
  | helper
  deriving DecidableEq, Repr

structure Dispatcher where
  nvic : Nvic
  pc : Word
  point : Point

namespace Dispatcher

def setMaybe (s : Nvic) (maybe : Bool) : Nvic := { s with irqMaybe := maybe }

/-- The interpreter recognises a return before it looks for an exception. -/
def returning (d : Dispatcher) : Prop := d.nvic.handlerMode = true ∧ d.pc &&& excReturnMask = excReturnMask

/-- The points at which the core may do anything to the exception state; the flag is set before they are left. -/
def Point.free : Point → Bool
  | .outside | .taking | .interp | .helper => true
  | _ => false

inductive Step : Dispatcher → Dispatcher → Prop where
  /-- A device or an interrupt of the host moves a line, wherever the dispatcher is. -/
  | line (d : Dispatcher) (source : Nat) (level : Bool) : Step d { d with nvic := d.nvic.setIrq source level }
  | work {d : Dispatcher} (h : Point.free d.point = true) (op : Nvic.Op) (pc : Word) :
      Step d { d with nvic := op.run d.nvic, pc := pc }
  /-- `a7_bind`. -/
  | bind {d : Dispatcher} (h : d.point = .outside) : Step d { d with nvic := setMaybe d.nvic true, point := .top }
  | skip {d : Dispatcher} (h : d.point = .top) (hirq : d.nvic.irqMaybe = false) : Step d { d with point := .dispatch }
  /-- `a7_take_irq` at an address that is a return. -/
  | returning {d : Dispatcher} (h : d.point = .top) (hirq : d.nvic.irqMaybe = true) (hret : d.returning) :
      Step d { d with point := .dispatch }
  | clear {d : Dispatcher} (h : d.point = .top) (hirq : d.nvic.irqMaybe = true) (hret : ¬d.returning) :
      Step d { d with nvic := setMaybe d.nvic false, point := .looking }
  | none {d : Dispatcher} (h : d.point = .looking) (hexc : d.nvic.pendingExc.2 = false) :
      Step d { d with point := .dispatch }
  | found {d : Dispatcher} (h : d.point = .looking) (hexc : d.nvic.pendingExc.2 = true) :
      Step d { d with point := .taking }
  | taken {d : Dispatcher} (h : d.point = .taking) : Step d { d with nvic := setMaybe d.nvic true, point := .top }
  | interp {d : Dispatcher} (h : d.point = .dispatch) : Step d { d with point := .interp }
  /-- `a7_after_interp`. -/
  | afterInterp {d : Dispatcher} (h : d.point = .interp) : Step d { d with nvic := setMaybe d.nvic true, point := .top }
  | enter {d : Dispatcher} (h : d.point = .dispatch) : Step d { d with point := .block }
  | block {d : Dispatcher} (h : d.point = .block) {op : Nvic.Op} (hop : op.inBlock = true) (pc : Word) :
      Step d { d with nvic := op.run d.nvic, pc := pc }
  /-- `ir_fault`, `finish_imprecise`, `a7_ir_step`. -/
  | helper {d : Dispatcher} (h : d.point = .block) : Step d { d with point := .helper }
  | afterHelper {d : Dispatcher} (h : d.point = .helper) :
      Step d { d with nvic := setMaybe d.nvic true, point := .block }
  /-- A block returns; its instructions are counted. -/
  | count {d : Dispatcher} (h : d.point = .block) (n : Word) :
      Step d { d with nvic := d.nvic.a7Count n, point := .top }
  | leave {d : Dispatcher} (h : d.point = .top) : Step d { d with point := .outside }

/-- A run from reset. -/
inductive Run : Dispatcher → Prop where
  | reset (s : Nvic) (pc : Word) : Run ⟨s.resetState, pc, .outside⟩
  | step {d d' : Dispatcher} : Run d → Step d d' → Run d'

/-! ## What holds at each point -/

/-- The points at which the flag covers what is pending. -/
def Point.covered : Point → Bool
  | .top | .dispatch | .block => true
  | _ => false

structure Inv (d : Dispatcher) : Prop where
  wf : d.nvic.Wf
  calm : Point.covered d.point = true → d.nvic.Calm

variable {d d' : Dispatcher}

theorem setMaybe_wf {s : Nvic} (h : s.Wf) (maybe : Bool) : (setMaybe s maybe).Wf := ⟨h.any, h.low, h.prigroup⟩

theorem setMaybe_calm (s : Nvic) : (setMaybe s true).Calm := .of_irqMaybe rfl

theorem Step.inv (h : Step d d') (hd : d.Inv) : d'.Inv := by
  cases h with
  | line source level =>
    exact ⟨Nvic.Op.wf (.line source level) hd.wf, fun hp => Nvic.calm_setIrq (hd.calm hp) source level⟩
  | work hfree op pc =>
    refine ⟨op.wf hd.wf, fun hp => ?_⟩
    -- the free points are not covered
    cases hpt : d.point <;> simp [hpt, Point.free, Point.covered] at hfree hp
  | bind hpt => exact ⟨setMaybe_wf hd.wf true, fun _ => setMaybe_calm _⟩
  | skip hpt hirq => exact ⟨hd.wf, fun _ => hd.calm (by rw [hpt]; rfl)⟩
  | returning hpt hirq hret => exact ⟨hd.wf, fun _ => hd.calm (by rw [hpt]; rfl)⟩
  | clear hpt hirq hret => exact ⟨setMaybe_wf hd.wf false, fun hp => absurd hp Bool.false_ne_true⟩
  | none hpt hexc =>
    refine ⟨hd.wf, fun _ _ hpre => ?_⟩
    rw [hd.wf.preempts_iff.mpr hpre] at hexc
    exact absurd hexc (by decide)
  | found hpt hexc => exact ⟨hd.wf, fun hp => absurd hp Bool.false_ne_true⟩
  | taken hpt => exact ⟨setMaybe_wf hd.wf true, fun _ => setMaybe_calm _⟩
  | interp hpt => exact ⟨hd.wf, fun hp => absurd hp Bool.false_ne_true⟩
  | afterInterp hpt => exact ⟨setMaybe_wf hd.wf true, fun _ => setMaybe_calm _⟩
  | enter hpt => exact ⟨hd.wf, fun _ => hd.calm (by rw [hpt]; rfl)⟩
  | block hpt hop pc => exact ⟨Nvic.Op.wf _ hd.wf, fun hp => Nvic.Op.calm hop (hd.calm hp)⟩
  | helper hpt => exact ⟨hd.wf, fun hp => absurd hp Bool.false_ne_true⟩
  | afterHelper hpt => exact ⟨setMaybe_wf hd.wf true, fun _ => setMaybe_calm _⟩
  | count hpt n =>
    exact ⟨Nvic.Op.wf (.count n) hd.wf, fun _ => Nvic.calm_a7Count (hd.calm (by rw [hpt]; rfl)) n⟩
  | leave hpt => exact ⟨hd.wf, fun hp => absurd hp Bool.false_ne_true⟩

theorem Run.inv (h : Run d) : d.Inv := by
  induction h with
  | reset s pc => exact ⟨Nvic.wf_resetState s, fun hp => absurd hp Bool.false_ne_true⟩
  | step _ hstep ih => exact hstep.inv ih

/-- In every run `pending_any` is right and the choice is the architecture's; and a dispatcher that goes on to a block
with the flag clear has nothing to preempt it. -/
theorem preemption_never_missed (h : Run d) :
    (d.nvic.pendingAny = true ↔ ∃ exc < excBits, bitGet d.nvic.pending exc = true) ∧ d.nvic.Selects ∧
      (d.point = .dispatch → d.nvic.irqMaybe = false → d.nvic.pendingExc.2 = false) := by
  have hinv := h.inv
  refine ⟨hinv.wf.pendingAny_iff, hinv.wf.selects, fun hpt hirq => ?_⟩
  rw [Bool.eq_false_iff]
  intro hpre
  exact hinv.calm (by rw [hpt]; rfl) hirq (hinv.wf.preempts_iff.mp hpre)

/-- PendSV pended behind PRIMASK, and a look that finds nothing to take. -/
def masked : Dispatcher where
  nvic := setMaybe (setMaybe ((Nvic.Op.pend 14 true).run ((Nvic.Op.masks 1 0 0).run Nvic.blank.resetState)) true) false
  pc := 0x100
  point := .dispatch

theorem run_masked : Run masked := by
  have h0 : Run ⟨Nvic.blank.resetState, 0, .outside⟩ := .reset _ _
  have h1 := (h0.step (.work rfl (.masks 1 0 0) 0x100)).step (.work rfl (.pend 14 true) 0x100)
  have h2 := (h1.step (.bind rfl)).step (.clear rfl rfl fun hret => absurd hret.1 (by decide))
  exact h2.step (.none rfl (by decide +kernel))

theorem preemption_never_missed_masked :
    (masked.nvic.pendingAny = true ↔ ∃ exc < excBits, bitGet masked.nvic.pending exc = true) ∧ masked.nvic.Selects ∧
      masked.nvic.irqMaybe = false ∧ masked.nvic.pendingExc = (14, false) :=
  ⟨(preemption_never_missed run_masked).1, (preemption_never_missed run_masked).2.1, rfl, by decide +kernel⟩

end Dispatcher

end Emu.Arm
