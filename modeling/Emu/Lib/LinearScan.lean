-- SUMMARY: Linear scan with total eviction: values with live intervals get registers, and no two that share one overlap.
import Mathlib

/-!
# Linear scan

Values are numbered, and each has an interval: where it is defined and where it is last read. The
scan takes the values in order and gives each one a register whose value is no longer read, or one
whose value is read for longer, which then goes without for good. Nothing is emitted while the scan
runs, so a value has at the end one register for its whole life or none.

The scan is right for values numbered in the order they are defined.
-/

namespace Emu.LinearScan

/-- Where each value is defined, if anywhere, and where it is last read. -/
structure Intervals where
  start : Nat → Option Nat
  stop : Nat → Nat

/-- The values are numbered in the order they are defined. -/
def Intervals.Ordered (iv : Intervals) : Prop :=
  ∀ ⦃x y d e : Nat⦄, x < y → iv.start x = some d → iv.start y = some e → d < e

/-- What each register holds, the register each value was given, and how many registers were ever given. -/
structure State where
  inreg : Nat → Option Nat := fun _ => none
  assign : Nat → Option Nat := fun _ => none
  used : Nat := 0

section

variable (iv : Intervals) (nregs : Nat)

namespace State

/-- Free the registers whose value is last read before `d`. -/
def expire (d : Nat) (s : State) : State :=
  { s with inreg := fun r => (s.inreg r).filter fun x => d ≤ iv.stop x }

/-- The first free register. -/
def free (s : State) : Option Nat := (List.range nregs).find? fun r => (s.inreg r).isNone

/-- Where the value in register `r` is last read. -/
def reach (s : State) (r : Nat) : Nat := (s.inreg r).elim 0 iv.stop

/-- The register whose value is read for longest, the first of them. -/
def worst (s : State) : Nat :=
  (List.range' 1 (nregs - 1)).foldl (fun w r => if s.reach iv r > s.reach iv w then r else w) 0

/-- Give register `r` to `x`. -/
def take (s : State) (r x : Nat) : State :=
  { inreg := Function.update s.inreg r (some x)
    assign := Function.update s.assign x (some r)
    used := max s.used (r + 1) }

/-- Take register `r` from the value it holds. -/
def evict (s : State) (r : Nat) : State :=
  { s with
    inreg := Function.update s.inreg r none
    assign := (s.inreg r).elim s.assign fun x => Function.update s.assign x none }

/-- Find a register for `x`, which is defined at `d`. -/
def place (d x : Nat) (s : State) : State :=
  let s := s.expire iv d
  match s.free nregs with
  | some r => s.take r x
  | none =>
    let w := s.worst iv nregs
    if s.reach iv w ≤ iv.stop x then s else (s.evict w).take w x

end State

/-- One turn of the scan. A value that is never defined or never read needs no register, and `skip`
says which others are to have none. -/
def step (skip : Nat → Bool) (s : State) (x : Nat) : State :=
  match iv.start x with
  | none => s
  | some d => if iv.stop x ≤ d ∨ skip x then s else s.place iv nregs d x

/-- The scan over the first `n` values. -/
def scan (skip : Nat → Bool) (n : Nat) : State := (List.range n).foldl (step iv nregs skip) {}

end

variable {iv : Intervals} {nregs n d r x : Nat} {s : State} {skip : Nat → Bool}

theorem scan_succ : scan iv nregs skip (n + 1) = step iv nregs skip (scan iv nregs skip n) n := by
  rw [scan, List.range_succ, List.foldl_append]
  rfl

/-! ## Eviction is for good -/

theorem State.evict_assign (h : s.assign x = none) : (s.evict r).assign x = none := by
  cases hr : s.inreg r with
  | none => simpa [evict, hr] using h
  | some y => simp [evict, hr, Function.update_apply, h]

theorem State.take_assign {y : Nat} (hne : x ≠ y) : (s.take r y).assign x = s.assign x :=
  Function.update_of_ne hne _ _

/-- A turn gives a register to no value but its own. -/
theorem step_assign {y : Nat} (hne : x ≠ y) (h : s.assign x = none) : (step iv nregs skip s y).assign x = none := by
  unfold step
  split
  · exact h
  split
  · exact h
  unfold State.place
  dsimp only
  split
  · rw [State.take_assign hne]
    exact h
  split
  · exact h
  · rw [State.take_assign hne]
    exact State.evict_assign h

/-- A value that has no register once its turn is over never gets one. -/
theorem scan_assign {m : Nat} (hx : x < n) (hnm : n ≤ m) (h : (scan iv nregs skip n).assign x = none) :
    (scan iv nregs skip m).assign x = none := by
  induction hnm with
  | refl => exact h
  | @step m hnm ih =>
    rw [scan_succ]
    exact step_assign (Nat.ne_of_lt (Nat.lt_of_lt_of_le hx hnm)) ih

/-! ## What the scan keeps -/

/-- The state after the turns of the values below `n`. -/
structure Inv (iv : Intervals) (nregs n : Nat) (s : State) : Prop where
  /-- A register holds a value that was given it. -/
  held : ∀ r x, s.inreg r = some x → s.assign x = some r
  /-- A value with a register had its turn, and is read after it is defined. -/
  given : ∀ x r, s.assign x = some r → x < n ∧ r < s.used ∧ ∃ d, iv.start x = some d ∧ d < iv.stop x
  used_le : s.used ≤ nregs
  /-- A value that left its register is no longer read where the values to come are defined. -/
  gone : ∀ x r, s.assign x = some r → s.inreg r ≠ some x → ∀ y d, n ≤ y → iv.start y = some d → iv.stop x < d
  /-- Of two values with one register, the first is no longer read where the second is defined. -/
  apart : ∀ x y r, x < y → s.assign x = some r → s.assign y = some r → ∀ d, iv.start y = some d → iv.stop x < d

theorem Inv.init : Inv iv nregs 0 {} where
  held _ _ h := by cases h
  given _ _ h := by cases h
  used_le := Nat.zero_le _
  gone _ _ h := by cases h
  apart _ _ _ _ h := by cases h

/-- A turn that changes nothing. -/
theorem Inv.pass (h : Inv iv nregs n s) : Inv iv nregs (n + 1) s where
  held := h.held
  given x r hx := ⟨Nat.lt_succ_of_lt (h.given x r hx).1, (h.given x r hx).2⟩
  used_le := h.used_le
  gone x r hx hr y d hy := h.gone x r hx hr y d (Nat.le_of_succ_le hy)
  apart := h.apart

theorem State.expire_inreg : (s.expire iv d).inreg r = some x ↔ s.inreg r = some x ∧ d ≤ iv.stop x := by
  simp [expire, Option.filter_eq_some_iff]

theorem Inv.expire (hord : iv.Ordered) (h : Inv iv nregs n s) (hd : iv.start n = some d) :
    Inv iv nregs n (s.expire iv d) where
  held r x hr := h.held r x (State.expire_inreg.mp hr).1
  given := h.given
  used_le := h.used_le
  gone x r hx hr y e hy he := by
    by_cases hin : s.inreg r = some x
    · -- freed now, because it is last read before `d`
      have hlt : iv.stop x < d := Nat.lt_of_not_le fun hle => hr (State.expire_inreg.mpr ⟨hin, hle⟩)
      rcases Nat.eq_or_lt_of_le hy with rfl | hlt'
      · exact Option.some.inj (hd.symm.trans he) ▸ hlt
      · exact hlt.trans (hord hlt' hd he)
    · exact h.gone x r hx hin y e hy he
  apart := h.apart

theorem State.evict_inreg : (s.evict r).inreg r = none := by simp [evict]

/-- A value that has a register after an eviction had it before, and is not the one evicted. -/
theorem State.evict_some (h : (s.evict r).assign x = some d) : s.assign x = some d ∧ s.inreg r ≠ some x := by
  cases hr : s.inreg r with
  | none => exact ⟨by simpa [evict, hr] using h, by simp⟩
  | some y =>
    by_cases hxy : x = y
    · subst hxy
      simp [evict, hr] at h
    · refine ⟨by simpa [evict, hr, Function.update_of_ne hxy] using h, fun hy => hxy (Option.some.inj hy).symm⟩

theorem Inv.evict (h : Inv iv nregs n s) : Inv iv nregs n (s.evict r) where
  held q x hq := by
    by_cases hqr : q = r
    · subst hqr
      cases State.evict_inreg.symm.trans hq
    · have hin : s.inreg q = some x := by simpa [State.evict, Function.update_of_ne hqr] using hq
      have hx := h.held q x hin
      cases hr : s.inreg r with
      | none => simpa [State.evict, hr] using hx
      | some y =>
        have hxy : x ≠ y := by
          rintro rfl
          exact hqr (Option.some.inj (hx.symm.trans (h.held r x hr)))
        simpa [State.evict, hr, Function.update_of_ne hxy] using hx
  given x q hx := h.given x q (State.evict_some hx).1
  used_le := h.used_le
  gone x q hx hq := by
    obtain ⟨hx', hrx⟩ := State.evict_some hx
    refine h.gone x q hx' fun hin => hq ?_
    have hqr : q ≠ r := by
      rintro rfl
      exact hrx hin
    simpa [State.evict, Function.update_of_ne hqr] using hin
  apart x y q hlt hx hy := h.apart x y q hlt (State.evict_some hx).1 (State.evict_some hy).1

/-- A free register may be given to the value whose turn it is. -/
theorem Inv.take (h : Inv iv nregs n s) (hr : r < nregs) (hfree : s.inreg r = none) (hd : iv.start n = some d)
    (hlt : d < iv.stop n) : Inv iv nregs (n + 1) (s.take r n) := by
  have hassign : ∀ x q, (s.take r n).assign x = some q → x = n ∧ q = r ∨ x < n ∧ s.assign x = some q := by
    intro x q hx
    by_cases hxn : x = n
    · subst hxn
      simp only [State.take, Function.update_self, Option.some.injEq] at hx
      exact .inl ⟨rfl, hx.symm⟩
    · rw [State.take_assign hxn] at hx
      exact .inr ⟨(h.given x q hx).1, hx⟩
  -- whatever else has `r` is out of it, and so no longer read
  have hgone : ∀ x, s.assign x = some r → ∀ y e, n ≤ y → iv.start y = some e → iv.stop x < e :=
    fun x hx => h.gone x r hx (by simp [hfree])
  refine ⟨fun q x hq => ?_, fun x q hx => ?_, ?_, fun x q hx hq y e hy he => ?_, fun x y q hxy hx hy e he => ?_⟩
  · by_cases hqr : q = r
    · subst hqr
      simp only [State.take, Function.update_self, Option.some.injEq] at hq ⊢
      rw [hq, Function.update_self]
    · have hin : s.inreg q = some x := by simpa [State.take, Function.update_of_ne hqr] using hq
      have hx := h.held q x hin
      rw [State.take_assign (Nat.ne_of_lt (h.given x q hx).1)]
      exact hx
  · rcases hassign x q hx with ⟨rfl, rfl⟩ | ⟨-, hx'⟩
    · exact ⟨Nat.lt_succ_self _, Nat.le_max_right _ _, d, hd, hlt⟩
    · obtain ⟨hxn, hq, hint⟩ := h.given x q hx'
      exact ⟨Nat.lt_succ_of_lt hxn, Nat.lt_of_lt_of_le hq (Nat.le_max_left _ _), hint⟩
  · exact Nat.max_le.mpr ⟨h.used_le, hr⟩
  · rcases hassign x q hx with ⟨rfl, rfl⟩ | ⟨-, hx'⟩
    · simp [State.take] at hq
    · by_cases hqr : q = r
      · subst hqr
        exact hgone x hx' y e (Nat.le_of_succ_le hy) he
      · refine h.gone x q hx' ?_ y e (Nat.le_of_succ_le hy) he
        simpa [State.take, Function.update_of_ne hqr] using hq
  · rcases hassign y q hy with ⟨rfl, rfl⟩ | ⟨hyn, hy'⟩
    · obtain ⟨rfl, -⟩ | ⟨-, hx'⟩ := hassign x q hx
      · exact absurd hxy (lt_irrefl _)
      · exact hgone x hx' y e le_rfl he
    · obtain ⟨rfl, -⟩ | ⟨-, hx'⟩ := hassign x q hx
      · exact absurd hxy (Nat.lt_asymm hyn)
      · exact h.apart x y q hxy hx' hy' e he

theorem State.free_some (h : s.free nregs = some r) : r < nregs ∧ s.inreg r = none := by
  have hnone : (s.inreg r).isNone = true := List.find?_some (p := fun r => (s.inreg r).isNone) h
  exact ⟨List.mem_range.mp (List.mem_of_find?_eq_some h), Option.isNone_iff_eq_none.mp hnone⟩

theorem State.worst_lt (h : 0 < nregs) : s.worst iv nregs < nregs := by
  unfold worst
  refine List.foldlRecOn (motive := (· < nregs)) _ _ h fun w hw r hr => ?_
  split
  · obtain ⟨-, hlt⟩ := List.mem_range'_1.mp hr
    omega
  · exact hw

/-- One turn of the scan. -/
theorem Inv.turn (hord : iv.Ordered) (hpos : 0 < nregs) (h : Inv iv nregs n s) :
    Inv iv nregs (n + 1) (step iv nregs skip s n) := by
  unfold step
  split
  · exact h.pass
  next d hd =>
  split
  · exact h.pass
  next hread =>
  have hlt : d < iv.stop n := Nat.lt_of_not_le fun hle => hread (.inl hle)
  have hexp := h.expire hord hd
  unfold State.place
  dsimp only
  split
  next r hfree =>
    obtain ⟨hr, hnone⟩ := State.free_some hfree
    exact hexp.take hr hnone hd hlt
  · split
    · exact hexp.pass
    · exact hexp.evict.take (State.worst_lt hpos) State.evict_inreg hd hlt

/-- The whole scan. -/
theorem scan_inv (hord : iv.Ordered) (hpos : 0 < nregs) (n : Nat) : Inv iv nregs n (scan iv nregs skip n) := by
  induction n with
  | zero => exact .init
  | succ n ih =>
    rw [scan_succ]
    exact ih.turn hord hpos

end Emu.LinearScan
