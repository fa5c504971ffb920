-- SUMMARY: What every memory access keeps, from what its few primitive changes of the hart keep.
import Emu.Lib.Hoare
import Emu.Rv.Machine

/-! # Properties accesses keep

An access changes a hart in a few ways only: a translation fills the buffer, a finished access fills one of the tables,
the bus is read and written, the reservation is given up, and the record of a split access and the registers are set. A
property all of these keep is kept by every access, but for the one that makes a reservation. -/

namespace Emu.Rv

variable {δ ε α : Type} {P : Hart δ → Prop} {va pa pc : Word} {acc : Access} {n : Nat}

open Comp (Keeps)

/-- A property that making a reservation keeps. -/
def Reservable (P : Hart δ → Prop) : Prop :=
  ∀ (h : Hart δ) addr, P h → P { h with resvAddr := addr, resvValid := true }

/-- A property that giving a reservation up keeps. -/
def Unreservable (P : Hart δ → Prop) : Prop :=
  ∀ h : Hart δ, P h → P { h with resvValid := false }

/-- A property of harts that no primitive change of an access disturbs, but for what happens to the reservation and the
registers. -/
structure Calm (P : Hart δ → Prop) : Prop where
  translate : ∀ h va acc, P h → P (h.translate va acc).2
  dtlbFill : ∀ h va pa, P h → P (h.dtlbFill va pa)
  itlbFill : ∀ h va pa, P h → P (h.itlbFill va pa)
  bus : ∀ (h : Hart δ) b, b.regions = h.bus.regions → b.bigEndian = h.bus.bigEndian → P h → P { h with bus := b }
  split : ∀ (h : Hart δ) req at' valid, P h → P { h with splitReq := req, splitAt := at', splitValid := valid }

/-- A property of harts that no primitive change of an access disturbs, but for what happens to the reservation. -/
structure Quiet (P : Hart δ → Prop) : Prop extends Calm P where
  regs : ∀ (h : Hart δ) x, P h → P { h with x := x }

/-- A property of harts that no primitive change of an access disturbs, but for a new reservation and the registers. -/
structure Steady (P : Hart δ → Prop) : Prop extends Calm P where
  unreserve : Unreservable P

/-- A property of harts that no primitive change of an access disturbs, but for a new reservation. -/
structure Stable (P : Hart δ → Prop) : Prop extends Quiet P, Steady P

namespace Calm

variable (hP : Calm P)

include hP

theorem translateActive : Keeps P (Rv.translateActive va acc : HartM δ Exc Word) := by
  apply Keeps.of_state
  intro h hh
  rw [Rv.translateActive]
  split
  · exact hP.translate h va acc hh
  · exact hh

theorem busRead (a : Word) : Keeps P (Rv.busRead a n : HartM δ Exc Word) :=
  Keeps.of_state fun h hh => hP.bus h _ Bus.read_regions Bus.read_bigEndian hh

theorem busWrite (a val : Word) : Keeps P (Rv.busWrite a n val : HartM δ Exc Unit) :=
  Keeps.of_state fun h hh => hP.bus h _ (Bus.write_regions val) (Bus.write_bigEndian val) hh

omit hP in
theorem busFetch16 (a : Word) : Keeps P (Rv.busFetch16 a : HartM δ Exc Word) :=
  Keeps.of_state fun _ hh => hh

theorem translateParts (pieces : List (Word × Nat)) : Keeps P (Rv.translateParts acc pieces : HartM δ _ _) := by
  induction pieces with
  | nil => exact Keeps.ret _
  | cons p rest ih =>
    exact .bind (hP.translateActive.relabel _) fun pa => .bind ih fun parts => Keeps.ret _

end Calm

namespace Quiet

variable (hP : Quiet P)

include hP

/-! ## Atomics -/

theorem setReg (rd : BitVec 5) (v : Word) : Keeps P (Rv.setReg rd v : HartM δ ε Unit) := by
  refine .change fun h hh => ?_
  split_ifs
  · exact hh
  · exact hP.regs h _ hh

theorem amo (op : AmoOp) (hlr : op = .lr → Reservable P) (hsc : op = .sc → Unreservable P) (rd : BitVec 5)
    (addr src : Word) : Keeps P (Rv.amo op rd addr src : HartM δ _ _) := by
  have hrmw (f : Word → Word) (pa : Word) : Keeps P
      (do let old ← (Rv.busRead pa 4).onError fun _ => (Exc.storeAccessFault, id)
          Rv.busWrite pa 4 (f old)
          Rv.setReg rd old : HartM δ Exc Unit) :=
    .bind ((hP.busRead pa).relabel _) fun old => .bind (hP.busWrite pa _) fun _ => hP.setReg rd old
  refine .ite (fun _ => Keeps.fail _) fun _ => .bind hP.translateActive fun pa => ?_
  refine .bind .look fun denied => .ite (fun _ => Keeps.fail _) fun _ => ?_
  cases op with
  | lr =>
    refine .bind (hP.busRead pa) fun v => .bind (.change fun h hh => ?_) fun _ => hP.setReg rd v
    exact hlr rfl h pa hh
  | sc =>
    refine .bind .look fun writable => .ite (fun _ => Keeps.fail _) fun _ => ?_
    refine .bind .look fun held => .ite (fun _ => hP.setReg rd 1) fun _ => ?_
    refine .bind ((hP.busWrite pa src).onError fun _ h hh => hsc rfl h hh) fun _ => ?_
    refine .bind (.change fun h hh => ?_) fun _ => hP.setReg rd 0
    exact hsc rfl h hh
  | cas =>
    refine .bind ((hP.busRead pa).relabel _) fun old => .bind .look fun comparand => ?_
    refine .ite (fun _ => .bind (hP.busWrite pa src) fun _ => hP.setReg rd old) fun _ => ?_
    exact .bind (Keeps.ret ()) fun _ => hP.setReg rd old
  | add => exact hrmw (AmoOp.add.value · src) pa
  | swap => exact hrmw (AmoOp.swap.value · src) pa
  | xor => exact hrmw (AmoOp.xor.value · src) pa
  | or => exact hrmw (AmoOp.or.value · src) pa
  | and => exact hrmw (AmoOp.and.value · src) pa
  | min => exact hrmw (AmoOp.min.value · src) pa
  | max => exact hrmw (AmoOp.max.value · src) pa
  | minu => exact hrmw (AmoOp.minu.value · src) pa
  | maxu => exact hrmw (AmoOp.maxu.value · src) pa

theorem amocasD (rd rs2 : BitVec 5) (addr : Word) : Keeps P (Rv.amocasD rd rs2 addr : HartM δ _ _) := by
  refine .ite (fun _ => Keeps.fail _) fun _ => .bind hP.translateActive fun pa => ?_
  refine .bind .look fun allowed => .ite (fun _ => Keeps.fail _) fun _ => ?_
  refine .bind ((hP.busRead pa).relabel _) fun lo => .bind ((hP.busRead (pa + 4)).relabel _) fun hi => ?_
  refine .bind .look fun cmpLo => .bind .look fun cmpHi => ?_
  have hend : Keeps P
      (if rd = 0 then pure () else do Rv.setReg rd lo; Rv.setReg (rd + 1) hi : HartM δ Exc Unit) :=
    .ite (fun _ => Keeps.ret _) fun _ => .bind (hP.setReg rd lo) fun _ => hP.setReg (rd + 1) hi
  refine .ite (fun _ => ?_) fun _ => .bind (Keeps.ret ()) fun _ => hend
  refine .bind .look fun newLo => .bind .look fun newHi => ?_
  exact .bind (hP.busWrite pa newLo) fun _ => .bind (hP.busWrite (pa + 4) newHi) fun _ => hend

end Quiet

namespace Steady

variable (hP : Steady P)

include hP

theorem breakReservation (a : Word) : Keeps P (Rv.breakReservation a : HartM δ ε Unit) := by
  refine .change fun h hh => ?_
  split_ifs
  · exact hP.unreserve h hh
  · exact hh

/-! ## Loads and stores -/

omit hP in
theorem checkParts (parts : List Part) : Keeps P (Rv.checkParts acc parts : HartM δ _ _) := by
  induction parts with
  | nil => exact Keeps.ret _
  | cons p rest ih =>
    refine .bind .look fun allowed => .ite (fun _ => Keeps.fail _) fun _ => ?_
    exact .bind .look fun held => .ite (fun _ => Keeps.fail _) fun _ => ih

theorem transferPart (fuel : Nat) (a : Word) (left : Nat) (s : Nat × BitVec 64) :
    Keeps P (Rv.transferPart acc va fuel a left s : HartM δ _ _) := by
  induction fuel generalizing a left s with
  | zero => exact Keeps.ret _
  | succ fuel ih =>
    refine .ite (fun _ => Keeps.ret _) fun _ => .ite (fun _ => ?_) fun _ => ?_
    · refine .bind (hP.breakReservation a) fun _ => .bind ((hP.busWrite a _).relabel _) fun _ => ?_
      exact .bind (Keeps.ret _) fun v => ih _ _ _
    · exact .bind ((hP.busRead a).relabel _) fun w => .bind (Keeps.ret _) fun v => ih _ _ _

theorem transferParts (parts : List Part) (s : Nat × BitVec 64) :
    Keeps P (Rv.transferParts acc va parts s : HartM δ _ _) := by
  induction parts generalizing s with
  | nil => exact Keeps.ret _
  | cons p rest ih => exact .bind (hP.transferPart _ _ _ _) fun s => ih s

theorem memWide (val : BitVec 64) : Keeps P (Rv.memWide va n acc val : HartM δ _ _) := by
  refine .bind .look fun pieces => .bind (hP.translateParts pieces) fun parts => ?_
  exact .bind (checkParts parts) fun _ => .bind (hP.transferParts parts _) fun s => Keeps.ret _

theorem splitAccess (val : BitVec 64) : Keeps P (Rv.splitAccess va n acc val : HartM δ _ _) := by
  refine (hP.memWide val).onError fun e h hh => ?_
  dsimp only
  split_ifs
  · exact hh
  · exact hP.split h _ _ _ hh

theorem load64 : Keeps P (Rv.load64 va : HartM δ _ _) :=
  .bind .look fun _ => .ite (fun _ => Keeps.fail _) fun _ => hP.memWide 0

theorem store64 (val : BitVec 64) : Keeps P (Rv.store64 va val : HartM δ _ _) :=
  .bind .look fun _ => .ite (fun _ => Keeps.fail _) fun _ => hP.memWide val

theorem loadSlow : Keeps P (Rv.loadSlow va n : HartM δ _ _) := by
  refine .bind .look fun crosses => .ite (fun _ => ?_) fun _ => ?_
  · exact .bind (hP.splitAccess 0) fun wide => Keeps.ret _
  · refine .bind hP.translateActive fun pa => .bind .look fun allowed => .ite (fun _ => Keeps.fail _) fun _ => ?_
    refine .bind (hP.busRead pa) fun v => .bind (.change fun h hh => ?_) fun _ => Keeps.ret _
    exact hP.dtlbFill h va pa hh

theorem loadGuarded (signed : Bool) : Keeps P (Rv.loadGuarded va n signed : HartM δ _ _) := by
  have hslow : Keeps P (do let v ← Rv.loadSlow va n; pure (extend v n signed) : HartM δ Exc Word) :=
    .bind hP.loadSlow fun v => Keeps.ret _
  intro h hh
  rw [Rv.loadGuarded]
  cases h.dtlbProbe va n false with
  | some e => exact hh
  | none => exact hslow h hh

theorem load (signed : Bool) : Keeps P (Rv.load va n signed : HartM δ _ _) := by
  refine .bind .look fun fires => .ite (fun _ => Keeps.fail _) fun _ => ?_
  refine .bind .look fun guarded => .ite (fun _ => hP.loadGuarded signed) fun _ => ?_
  exact .bind (hP.busRead va) fun v => Keeps.ret _

theorem storeSlow (val : Word) : Keeps P (Rv.storeSlow va n val : HartM δ _ _) := by
  refine .bind .look fun crosses => .ite (fun _ => ?_) fun _ => ?_
  · exact .bind (hP.splitAccess _) fun wide => Keeps.ret _
  · refine .bind hP.translateActive fun pa => .bind .look fun allowed => .ite (fun _ => Keeps.fail _) fun _ => ?_
    refine .bind (hP.breakReservation pa) fun _ => .bind (hP.busWrite pa val) fun _ => .change fun h hh => ?_
    exact hP.dtlbFill h va pa hh

theorem storeGuarded (val : Word) : Keeps P (Rv.storeGuarded va n val : HartM δ _ _) := by
  intro h hh
  rw [Rv.storeGuarded]
  cases (if h.resvValid then none else h.dtlbProbe va n true) with
  | some e => exact hP.bus h _ rfl rfl hh
  | none => exact hP.storeSlow val h hh

theorem store (val : Word) : Keeps P (Rv.store va n val : HartM δ _ _) := by
  refine .bind .look fun fires => .ite (fun _ => Keeps.fail _) fun _ => ?_
  refine .bind .look fun guarded => .ite (fun _ => hP.storeGuarded val) fun _ => ?_
  exact .bind (hP.breakReservation va) fun _ => hP.busWrite va val

/-! ## Cache blocks -/

theorem zeroWords (base pa : Word) (k i : Nat) : Keeps P (Rv.zeroWords base pa k i : HartM δ _ _) := by
  induction k generalizing i with
  | zero => exact Keeps.ret _
  | succ k ih =>
    exact .bind (hP.breakReservation _) fun _ => .bind ((hP.busWrite _ 0).relabel _) fun _ => ih _

theorem cbo (op : CboOp) (addr : Word) : Keeps P (Rv.cbo op addr : HartM δ _ _) := by
  have hmaintain (base : Word) : Keeps P (cboMaintain base : HartM δ _ _) := by
    refine .bind (hP.translateActive.relabel _) fun pa => .bind .look fun allowed => ?_
    refine .ite (fun _ => Keeps.fail _) fun _ => .bind .look fun found => ?_
    exact .ite (fun _ => Keeps.fail _) fun _ => Keeps.ret _
  have hzero (base : Word) : Keeps P (cboZero base : HartM δ _ _) := by
    refine .bind .look fun trigger => ?_
    cases trigger with
    | some word => exact Keeps.fail _
    | none =>
      refine .bind (hP.translateActive.relabel _) fun pa => .bind .look fun allowed => ?_
      refine .ite (fun _ => Keeps.fail _) fun _ => .bind .look fun held => ?_
      exact .ite (fun _ => Keeps.fail _) fun _ => hP.zeroWords base pa _ 0
  refine .bind .look fun permitted => ?_
  cases permitted with
  | none => exact Keeps.fail _
  | some op =>
    cases op with
    | zero => exact hzero _
    | inval => exact hmaintain _
    | clean => exact hmaintain _
    | flush => exact hmaintain _

/-! ## Fetches -/

theorem fetchCheck : Keeps P (Rv.fetchCheck pc : HartM δ _ _) := by
  have hslow : Keeps P (fetchCheckSlow pc : HartM δ _ _) := by
    refine .bind hP.translateActive fun fpc => .bind .look fun allowed => .ite (fun _ => Keeps.fail _) fun _ => ?_
    refine .bind (.change fun h hh => ?_) fun _ => Keeps.ret _
    split_ifs
    · exact hP.itlbFill h pc fpc hh
    · exact hh
  intro h hh
  rw [Rv.fetchCheck]
  cases h.itlbLookup pc with
  | some fpc => exact hh
  | none => exact hslow h hh

theorem fetchInsn : Keeps P (Rv.fetchInsn pc : HartM δ _ _) := by
  have hplace : Keeps P (fetchPlace pc : HartM δ _ _) := by
    refine .bind .look fun guarded => .ite (fun _ => ?_) fun _ => Keeps.ret _
    exact .bind .look fun fires => .ite (fun _ => Keeps.fail _) fun _ => hP.fetchCheck.relabel _
  have hplace2 (fpc : Word) : Keeps P (fetchPlace2 pc fpc : HartM δ _ _) :=
    .bind .look fun separate => .ite (fun _ => hP.translateActive.relabel _) fun _ => Keeps.ret _
  refine .ite (fun _ => Keeps.fail _) fun _ => .bind hplace fun fpc => ?_
  refine .bind ((Calm.busFetch16 fpc).relabel _) fun lo => .ite (fun _ => Keeps.ret _) fun _ => ?_
  refine .bind (hplace2 fpc) fun fpc2 => .bind .look fun allowed => .ite (fun _ => Keeps.fail _) fun _ => ?_
  exact .bind ((Calm.busFetch16 fpc2).relabel _) fun hi => Keeps.ret _

theorem irFetch16 : Keeps P (Rv.irFetch16 va : HartM δ _ _) := by
  have hslow : Keeps P (irFetch16Slow va : HartM δ _ _) := by
    refine .bind hP.translateActive fun pa => .bind .look fun allowed => .ite (fun _ => Keeps.fail _) fun _ => ?_
    refine .bind (Calm.busFetch16 pa) fun parcel => .bind (.change fun h hh => ?_) fun _ => Keeps.ret _
    split_ifs
    · exact hP.itlbFill h va pa hh
    · exact hh
  intro h hh
  rw [Rv.irFetch16]
  cases h.itlbLookup va with
  | some pa => exact Calm.busFetch16 pa h hh
  | none => exact hslow h hh

end Steady

/-- Every access keeps the property, whether it succeeds or not. -/
theorem Stable.mem (hP : Stable P) (m : MemOp) (hlr : (∃ rd addr src, m = .amo .lr rd addr src) → Reservable P) :
    Keeps P (m.run : HartM δ _ _) := by
  cases m with
  | load va size signed => exact .bind ((hP.load signed).relabel _) fun v => Keeps.ret _
  | store va size val => exact .bind ((hP.store val).relabel _) fun _ => Keeps.ret _
  | load64 va => exact hP.load64
  | store64 va val => exact hP.store64 val
  | amo op rd addr src =>
    have hlr' : op = .lr → Reservable P := fun h => hlr ⟨rd, addr, src, by rw [h]⟩
    exact .bind ((hP.amo op hlr' (fun _ => hP.unreserve) rd addr src).relabel _) fun _ => Keeps.ret _
  | amocasD rd rs2 addr => exact .bind ((hP.amocasD rd rs2 addr).relabel _) fun _ => Keeps.ret _
  | cbo op addr => exact .bind (hP.cbo op addr) fun _ => Keeps.ret _
  | fetch pc => exact .bind hP.fetchInsn fun insn => Keeps.ret _
  | irFetch pc => exact .bind (hP.irFetch16.relabel _) fun parcel => Keeps.ret _

end Emu.Rv
