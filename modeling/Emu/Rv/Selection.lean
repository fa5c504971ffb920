-- SUMMARY: The interrupt the privileged architecture selects, and when the hart selects the same one.
import Emu.Lib.Masks
import Emu.Rv.Interrupts

/-! # The interrupt that is selected

The architecture orders interrupts by where they go first: all that go to machine mode come before any that goes to
supervisor mode. The hart has one order for all of them. -/

namespace Emu.Rv

variable {δ : Type}

/-! ## First matches -/

section FirstMatch

variable {α : Type} {p q : α → Bool} {l : List α}

/-- Looking among some of the matches first finds the first match, unless that is not one of them and another is. -/
theorem find?_or_find?_eq_iff :
    l.find? p = (l.find? fun x => p x && q x).or (l.find? fun x => p x && !q x) ↔
      ∀ x, l.find? p = some x → q x = false → ∀ y ∈ l, p y = true → q y = false := by
  induction l with
  | nil => simp
  | cons a l ih =>
    cases hp : p a with
    | false => simpa [hp] using ih
    | true =>
      cases hq : q a with
      | true => simp [hp, hq]
      | false =>
        simp only [List.find?_cons, hp, hq, Bool.and_false, Bool.not_false, Bool.and_true, Option.some.injEq,
          forall_eq', List.mem_cons, forall_eq_or_imp, true_implies, implies_true, true_and]
        -- another match that is preferred is found instead, and it is not the first
        constructor
        · intro heq y hy hpy
          by_contra hqy
          have hsome : (l.find? fun x => p x && q x).isSome = true := by
            rw [List.find?_isSome]
            exact ⟨y, hy, by simp [hpy, hqy]⟩
          obtain ⟨z, hz⟩ := Option.isSome_iff_exists.mp hsome
          rw [hz, Option.some_or] at heq
          have hqz := List.find?_some hz
          rw [← Option.some.inj heq, hq, Bool.and_false] at hqz
          cases hqz
        · intro hall
          have hnone : (l.find? fun x => p x && q x) = none := by
            rw [List.find?_eq_none]
            intro y hy hpq
            rw [Bool.and_eq_true] at hpq
            rw [hall y hy hpq.1] at hpq
            cases hpq.2
          rw [hnone, Option.none_or]

end FirstMatch

/-! ## The selection of the architecture -/

/-- The order of the interrupts that go to one mode. -/
def Irq.order : List Irq := [mExt, mSoft, mTimer, sExt, sSoft, sTimer, lcof]

theorem Irq.mem_order (i : Irq) : i ∈ order := by
  cases i <;> decide

theorem Irq.and_bit_ne_zero (x : Word) (i : Irq) : x &&& i.bit ≠ 0 ↔ x.getLsbD i.code.toNat = true := by
  have hbit : i.bit = BitVec.twoPow 32 i.code.toNat := by
    cases i <;> decide
  have hlt : i.code.toNat < 32 := by
    cases i <;> decide
  rw [hbit, Ne, Masks.and_twoPow_eq_zero hlt]
  simp

namespace Core

variable (c : Core δ)

/-- The mode an interrupt goes to. -/
def dest (i : Irq) : Priv :=
  if c.hart.mideleg &&& i.bit ≠ 0 then privS else privM

/-- The enable bit of a mode interrupts go to. -/
def enabledIn (p : Priv) : Bool :=
  if p = privM then c.hart.mstatus &&& mstatusMie ≠ 0 else c.hart.mstatus &&& mstatusSie ≠ 0

/-- Pending and enabled, and its mode is above the current one, or the current one with its enable bit set. -/
def takeable (i : Irq) : Bool :=
  c.mip &&& i.bit ≠ 0 ∧ c.mie &&& i.bit ≠ 0 ∧
    (c.dest i > c.hart.priv ∨ (c.dest i = c.hart.priv ∧ c.enabledIn (c.dest i) = true))

/-- The interrupt the privileged architecture selects. -/
def selected : Option Irq :=
  (Irq.order.find? fun i => c.takeable i && c.dest i == privM).or
    (Irq.order.find? fun i => c.takeable i && c.dest i != privM)

/-- The hart selects that interrupt, none exactly when none is takeable, and takes it to its mode. -/
def SelectsRight : Prop :=
  c.pendingIrq = c.selected ∧ (c.pendingIrq = none ↔ ∀ i, c.takeable i = false) ∧
    ∀ i, c.pendingIrq = some i → (c.hart.trap (Hart.causeInterrupt ||| i.code) 0).priv = c.dest i

/-- When the first takeable interrupt goes to supervisor mode all of them do; and if none is takeable, nothing is
pending and enabled that is no interrupt of the hart but let through by the mode it is in. -/
def OneOrder : Prop :=
  (∀ i, Irq.order.find? c.takeable = some i → c.dest i = privS → ∀ j, c.takeable j = true → c.dest j = privS) ∧
    ((∀ i, c.takeable i = false) → c.mip &&& c.mie &&& c.lets = 0)

/-! ## What is takeable -/

theorem dest_cases (i : Irq) : c.dest i = privS ∨ c.dest i = privM := by
  rw [dest]
  split
  · exact .inl rfl
  · exact .inr rfl

variable {c}

theorem priv_cases {p : Priv} (hp : p ≠ 2) : p = privU ∨ p = privS ∨ p = privM := by
  revert p
  decide

theorem dest_eq (i : Irq) : c.dest i = if c.hart.mideleg.getLsbD i.code.toNat = true then privS else privM := by
  simp only [dest, Irq.and_bit_ne_zero]

/-- The mode lets an interrupt through when it goes to a higher one, or to this one with its enable bit set. -/
theorem lets_iff (hp : c.hart.priv ≠ 2) (i : Irq) :
    c.lets.getLsbD i.code.toNat = true ↔
      c.dest i > c.hart.priv ∨ (c.dest i = c.hart.priv ∧ c.enabledIn (c.dest i) = true) := by
  have hlt : i.code.toNat < 32 := by
    cases i <;> decide
  have hones : (BitVec.allOnes 32).getLsbD i.code.toNat = true := by
    rw [BitVec.getLsbD_allOnes, decide_eq_true hlt]
  have hnot (x : Word) : (~~~x).getLsbD i.code.toNat = !x.getLsbD i.code.toNat := by
    rw [BitVec.getLsbD_not, decide_eq_true hlt, Bool.true_and]
  have hSM : privS ≠ privM := by decide
  have hup : privM > privS := by decide
  rw [dest_eq, lets, enabledIn]
  obtain hU | hS | hM := priv_cases hp
  · rw [hU, if_neg (by decide), if_neg fun h => absurd h.1 (by decide)]
    refine iff_of_true hones (.inl ?_)
    split <;> decide
  · rw [hS, if_neg hSM]
    by_cases hsie : c.hart.mstatus &&& mstatusSie = 0
    · rw [if_pos ⟨rfl, hsie⟩, hnot]
      cases c.hart.mideleg.getLsbD i.code.toNat <;> simp [hsie, hSM, hup]
    · rw [if_neg fun h => hsie h.2]
      refine iff_of_true hones ?_
      cases c.hart.mideleg.getLsbD i.code.toNat
      · exact .inl hup
      · exact .inr ⟨rfl, decide_eq_true hsie⟩
  · have hnone (p : Priv) : ¬ p > privM := by
      revert p
      decide
    rw [hM, if_pos rfl]
    by_cases hmie : c.hart.mstatus &&& mstatusMie = 0
    · rw [if_pos hmie]
      cases c.hart.mideleg.getLsbD i.code.toNat <;> simp [hmie, hSM, hnone]
    · rw [if_neg hmie, hnot]
      cases c.hart.mideleg.getLsbD i.code.toNat
      · exact iff_of_true rfl (.inr ⟨rfl, decide_eq_true hmie⟩)
      · simp [hSM, hnone]

/-- What is takeable is what is pending, enabled and let through. -/
theorem takeable_iff (hp : c.hart.priv ≠ 2) (i : Irq) :
    c.takeable i = true ↔ c.mip &&& c.mie &&& c.lets &&& i.bit ≠ 0 := by
  rw [Irq.and_bit_ne_zero, BitVec.getLsbD_and, BitVec.getLsbD_and, Bool.and_eq_true, Bool.and_eq_true, lets_iff hp,
    takeable, decide_eq_true_iff, Irq.and_bit_ne_zero, Irq.and_bit_ne_zero, and_assoc]

/-! ## What the hart selects -/

theorem pick_eq (active : Word) :
    pick active = (Irq.order.find? fun i => active &&& i.bit ≠ 0).or (if active = 0 then none else some .lcof) := by
  rw [pick]
  split_ifs with h0 hme hms hmt hse hss hst
  · simp [h0, Irq.order]
  all_goals simp_all [Irq.order]
  split <;> rfl

/-- The first takeable interrupt, or the last there is when only bits of no interrupt are let through. -/
theorem pendingIrq_eq (hp : c.hart.priv ≠ 2) :
    c.pendingIrq = (Irq.order.find? c.takeable).or
      (if c.mip &&& c.mie &&& c.lets = 0 then none else some .lcof) := by
  have hpred : c.takeable = fun i => decide (c.mip &&& c.mie &&& c.lets &&& i.bit ≠ 0) := by
    funext i
    rw [Bool.eq_iff_iff, takeable_iff hp, decide_eq_true_iff]
  rw [pendingIrq_eq_pick, pick_eq, hpred]

theorem find?_takeable_none_iff : Irq.order.find? c.takeable = none ↔ ∀ i, c.takeable i = false := by
  simp [List.find?_eq_none, Irq.mem_order]

theorem dest_ne_privM_iff (i : Irq) : (c.dest i == privM) = false ↔ c.dest i = privS := by
  obtain hd | hd := c.dest_cases i <;> rw [hd] <;> decide

/-- The architecture selects the first takeable interrupt when that goes to machine mode, or when all go below. -/
theorem find?_takeable_eq_selected_iff :
    Irq.order.find? c.takeable = c.selected ↔
      ∀ i, Irq.order.find? c.takeable = some i → c.dest i = privS → ∀ j, c.takeable j = true → c.dest j = privS := by
  refine find?_or_find?_eq_iff.trans ?_
  simp only [dest_ne_privM_iff, Irq.mem_order, true_implies]

theorem selected_none (hnone : ∀ i, c.takeable i = false) : c.selected = none := by
  simp [selected, hnone]

/-- Delegation decides where a trap goes that is not from machine mode. -/
theorem trapToS_iff (i : Irq) :
    c.hart.trapToS (Hart.causeInterrupt ||| i.code) = true ↔ ¬ c.hart.priv > privS ∧ c.dest i = privS := by
  have hcode : (Hart.causeInterrupt ||| i.code) &&& ~~~Hart.causeInterrupt = i.code := by
    cases i <;> decide
  have hirq : (Hart.causeInterrupt ||| i.code) &&& Hart.causeInterrupt ≠ 0 := by
    cases i <;> decide
  have hlt : i.code < 32 := by
    cases i <;> decide
  have hshift : (c.hart.mideleg >>> i.code.toNat) &&& 1 ≠ 0 ↔ c.hart.mideleg.getLsbD i.code.toNat = true := by
    have hbit := Masks.and_twoPow_eq_zero (x := c.hart.mideleg >>> i.code.toNat) (k := 0) (by decide)
    rw [BitVec.getLsbD_ushiftRight, Nat.add_zero] at hbit
    exact (not_congr hbit).trans (by simp)
  rw [dest_eq, Hart.trapToS, hcode, if_pos hirq]
  by_cases hp : c.hart.priv > privS
  · simp [hp]
  · rw [if_neg hp, decide_eq_true_iff, hshift, and_iff_right hlt, and_iff_right hp]
    simp [show privM ≠ privS by decide]

/-- A takeable interrupt is taken to its mode. -/
theorem trap_priv_of_takeable {i : Irq} (ht : c.takeable i = true) :
    (c.hart.trap (Hart.causeInterrupt ||| i.code) 0).priv = c.dest i := by
  cases hS : c.hart.trapToS (Hart.causeInterrupt ||| i.code) with
  | true => exact (trap_toS hS 0).2.1.trans ((trapToS_iff i).mp hS).2.symm
  | false =>
    have hM : c.dest i = privM := by
      refine (c.dest_cases i).resolve_left fun hd => ?_
      -- it would go to supervisor mode from above
      rw [takeable, decide_eq_true_iff, hd] at ht
      have hbelow : ¬ c.hart.priv > privS := by
        obtain hgt | ⟨heq, -⟩ := ht.2.2
        · exact fun hlt => absurd (BitVec.lt_trans hgt hlt) (BitVec.lt_irrefl _)
        · rw [← heq]
          decide
      rw [(trapToS_iff i).mpr ⟨hbelow, hd⟩] at hS
      cases hS
    exact (trap_toM hS 0).1.trans hM.symm

/-- The hart selects what the architecture selects if and only if its one order agrees with that of the modes. -/
theorem selectsRight_iff (c : Core δ) (hp : c.hart.priv ≠ 2) : c.SelectsRight ↔ c.OneOrder := by
  have heq := pendingIrq_eq hp
  constructor
  · intro ⟨hsel, hnone, _⟩
    refine ⟨fun i hfirst => ?_, fun hall => ?_⟩
    · rw [hfirst, Option.some_or] at heq
      exact find?_takeable_eq_selected_iff.mp (hfirst.trans (heq.symm.trans hsel)) i hfirst
    · exact (pendingIrq_none_iff c).mp (hnone.mpr hall)
  · intro ⟨horder, hstray⟩
    cases hfirst : Irq.order.find? c.takeable with
    | none =>
      have hall := find?_takeable_none_iff.mp hfirst
      have hpend := (pendingIrq_none_iff c).mpr (hstray hall)
      refine ⟨hpend.trans (selected_none hall).symm, iff_of_true hpend hall, fun i hi => ?_⟩
      rw [hpend] at hi
      cases hi
    | some i =>
      rw [hfirst, Option.some_or] at heq
      refine ⟨?_, ?_, ?_⟩
      · exact heq.trans (hfirst.symm.trans (find?_takeable_eq_selected_iff.mpr horder))
      · have ht := List.find?_some hfirst
        refine iff_of_false (by simp [heq]) fun hall => ?_
        rw [hall i] at ht
        cases ht
      · intro j hj
        obtain rfl := Option.some.inj (heq.symm.trans hj)
        exact trap_priv_of_takeable (List.find?_some hfirst)

/-- With nothing delegated there is one order. -/
theorem selectsRight_mSoft : (coreAfter (enableSoft ++ [.line 3 true])).SelectsRight := by
  refine (selectsRight_iff _ (by decide +kernel)).mpr ⟨fun i _ hi => ?_, fun hall => ?_⟩
  · have hM : ∀ i, (coreAfter (enableSoft ++ [.line 3 true])).dest i = privM := by
      intro i
      cases i <;> decide +kernel
    rw [hM] at hi
    cases hi
  · have ht : (coreAfter (enableSoft ++ [.line 3 true])).takeable .mSoft = true := by decide +kernel
    rw [hall] at ht
    cases ht

/-- In user mode the delegated external interrupt is selected, and the software interrupt of machine mode waits. -/
theorem delegated_selected_first :
    Run (fun _ _ => True) (coreAfter delegateExt) ∧ (coreAfter delegateExt).pendingIrq = some .sExt ∧
      (coreAfter delegateExt).selected = some .sSoft ∧ ¬ (coreAfter delegateExt).SelectsRight := by
  have hpend : (coreAfter delegateExt).pendingIrq = some .sExt := by decide +kernel
  have hsel : (coreAfter delegateExt).selected = some .sSoft := by decide +kernel
  have hsome : (replay (fun _ _ => true) coldCore delegateExt).isSome = true := by decide +kernel
  refine ⟨coreAfter_run (fun _ _ _ => trivial) hsome, hpend, hsel, fun h => ?_⟩
  have heq := h.1
  rw [hpend, hsel] at heq
  cases heq

end Core

end Emu.Rv
