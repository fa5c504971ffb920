-- SUMMARY: The dead-value pass: pure operations whose result nothing reads.
import Emu.Ir.Equiv

/-!
# Dead values

`pass_dead_values` walks a block backwards with the temps read so far and deletes every pure
operation whose temp is not among them. The two runs agree on the temps still read.
-/

namespace Emu.Ir

open StraightLine

variable {τ σ F : Type} [DecidableEq τ]

/-! ## The pass -/

/-- The block from some point on, with the temps read there and the count of deletions. -/
structure ValueWalk (τ : Type) where
  insns : List (Insn τ)
  used : τ → Bool
  deadRemoved : Nat

/-- The loop body of `pass_dead_values`. -/
def deadValuesStep (i : Insn τ) (w : ValueWalk τ) : ValueWalk τ :=
  if i.dead then { w with insns := i :: w.insns }
  else if i.op.isPure && i.dst.any (fun d => !w.used d) then
    { w with insns := i.kill :: w.insns, deadRemoved := w.deadRemoved + 1 }
  else { w with insns := i :: w.insns, used := fun x => w.used x || i.operands.contains x }

/-- `pass_dead_values`. -/
def passDeadValues (is : List (Insn τ)) : ValueWalk τ := is.foldr deadValuesStep ⟨[], fun _ => false, 0⟩

/-! ## Correctness -/

section Correct

variable {fp : FloatOps F} {t : Target σ} {pc : Word} {D D' : τ → Prop}
variable {i i' : Insn τ} {is is' : List (Insn τ)} {s s' : State τ σ} {w : ValueWalk τ}

/-- What the walk does with an instruction: keep it, with its operands read, or delete a pure one. -/
theorem deadValuesStep_cases (i : Insn τ) (w : ValueWalk τ) :
    ((deadValuesStep i w).insns = i :: w.insns ∧
      ∀ x, (deadValuesStep i w).used x = true ↔ w.used x = true ∨ i.Reads x) ∨
    (i.dead = false ∧ i.op.isPure = true ∧ (deadValuesStep i w).insns = i.kill :: w.insns ∧
      (deadValuesStep i w).used = w.used ∧ ∃ d, i.dst = some d ∧ w.used d = false) := by
  unfold deadValuesStep
  split
  · rename_i hd
    exact .inl ⟨rfl, by simp [Insn.Reads, hd]⟩
  · rename_i hd
    split
    · rename_i hpure
      simp only [Bool.and_eq_true, Option.any_eq_true, Bool.not_eq_eq_eq_not, Bool.not_true] at hpure
      exact .inr ⟨by simpa using hd, hpure.1, rfl, rfl, hpure.2⟩
    · exact .inl ⟨rfl, by simp [Insn.Reads, hd]⟩

theorem passDeadValues_cons : passDeadValues (i :: is) = deadValuesStep i (passDeadValues is) := rfl

/-- One instruction of the walk: the original and what the pass made of it. -/
theorem exec_deadValuesStep (hi' : (deadValuesStep i w).insns = i' :: is')
    (h : AgreeOn (fun x => (deadValuesStep i w).used x = true) s s') :
    Step.Rel (AgreeOn fun x => w.used x = true) SameStop (exec fp t pc i s) (exec fp t pc i' s') := by
  rcases deadValuesStep_cases i w with ⟨hins, hused⟩ | ⟨hd, hpure, hins, hused, d, hdst, hd'⟩
  · obtain ⟨rfl, -⟩ := List.cons.inj (hins.symm.trans hi')
    refine (exec_agree h fun x hx => (hused x).mpr (.inr hx)).mono (fun s s' hag => hag.mono ?_) fun _ _ => id
    exact fun x hx => .inl ((hused x).mpr (.inl hx))
  · obtain ⟨rfl, -⟩ := List.cons.inj (hins.symm.trans hi')
    rw [exec_value hd (Op.isValue_of_isPure hpure), exec_dead rfl]
    refine ⟨h.1, fun x hx => ?_⟩
    have hne : i.dst ≠ some x := by
      rintro heq
      rw [hdst] at heq
      cases heq
      simp [hd'] at hx
    simp only [writeTmp_apply, if_neg hne]
    exact h.2 x (by rw [hused]; exact hx)

/-- The pass only deletes, and only pure operations. -/
theorem passDeadValues_forall₂ :
    List.Forall₂ (fun i i' => i' = i ∨ i.op.isPure = true ∧ i' = i.kill) is (passDeadValues is).insns := by
  induction is with
  | nil => exact .nil
  | cons i is ih =>
    rw [passDeadValues_cons]
    rcases deadValuesStep_cases i (passDeadValues is) with ⟨hins, -⟩ | ⟨-, hpure, hins, -⟩ <;> rw [hins]
    · exact .cons (.inl rfl) ih
    · exact .cons (.inr ⟨hpure, rfl⟩) ih

theorem passDeadValues_retireMark : (passDeadValues is).insns.map Insn.retireMark = is.map Insn.retireMark := by
  refine map_eq_of_forall₂ (passDeadValues_forall₂.imp fun i i' hor => ?_)
  rcases hor with rfl | ⟨hpure, rfl⟩
  · rfl
  · have hret : i.op ≠ .retire := by rintro h; simp [h, Op.isPure] at hpure
    have hobs : i.op.observesState = false := by
      revert hpure; cases i.op <;> first | exact fun _ => rfl | exact fun h => nomatch h
    simp [Insn.retireMark, hret, hobs]

omit [DecidableEq τ] in
theorem modelled_of_isPure (hpure : i.op.isPure = true) (hf : i.op = .fget → t.fregOffset.isSome = true) :
    i.modelled t = true := by
  unfold Insn.modelled
  split <;> simp_all [Op.isPure]

theorem passDeadValues_models (hf : FgetOk t is) : interpModels t (passDeadValues is).insns = interpModels t is := by
  induction is with
  | nil => rfl
  | cons i is ih =>
    have ih := ih fun j hj => hf j (List.mem_cons_of_mem _ hj)
    rw [passDeadValues_cons]
    rcases deadValuesStep_cases i (passDeadValues is) with ⟨hins, -⟩ | ⟨-, hpure, hins, -⟩ <;>
      simp only [hins, interpModels, List.all_cons] at ih ⊢ <;> rw [ih]
    rw [modelled_of_isPure hpure (hf i (by simp))]
    simp [Insn.modelled]

/-- `pass_dead_values` preserves what the block does. -/
theorem passDeadValues_equiv (hf : FgetOk t is) : BlockEquiv fp t pc is (passDeadValues is).insns := by
  refine ⟨(passDeadValues_models hf).symm, fun s => ?_⟩
  refine (run_sim (P := fun is is' s s' => is' = (passDeadValues is).insns ∧
    AgreeOn (fun x => (passDeadValues is).used x = true) s s') ?_ ?_ ⟨rfl, rfl, fun _ _ => rfl⟩).mono
    (fun _ _ h => h.2.1) fun _ _ => id
  · rintro is is' s s' ⟨rfl, -⟩
    exact passDeadValues_forall₂.length_eq
  · rintro i is i' is' s s' ⟨heq, hag⟩
    rw [passDeadValues_cons] at heq hag
    refine (exec_deadValuesStep heq.symm hag).mono (fun s s' hag => ⟨?_, hag⟩) fun _ _ => id
    rcases deadValuesStep_cases i (passDeadValues is) with ⟨hins, -⟩ | ⟨-, -, hins, -⟩ <;>
      exact (List.cons.inj (heq.trans hins)).2

/-- The pass keeps the scoping: what is still read is still written. -/
theorem passDeadValues_scoped (h : Scoped D is) (hsub : ∀ x, D' x → D x)
    (hused : ∀ x, (passDeadValues is).used x = true → D x → D' x) : Scoped D' (passDeadValues is).insns := by
  induction is generalizing D D' with
  | nil => trivial
  | cons i is ih =>
    obtain ⟨hread, hdef, hrest⟩ := h
    rw [passDeadValues_cons] at hused ⊢
    rcases deadValuesStep_cases i (passDeadValues is) with ⟨hins, hu⟩ | ⟨hd, hpure, hins, hu, d, hdst, hnot⟩ <;>
      rw [hins]
    · refine ⟨fun x hx => hused x ((hu x).mpr (.inr hx)) (hread x hx), fun x hx hD => hdef x hx (hsub x hD),
        ih hrest (fun x hx => hx.imp_left (hsub x)) fun x hx hor => ?_⟩
      exact hor.imp_left (hused x ((hu x).mpr (.inl hx)))
    · have hkill : ∀ x, ¬i.kill.Defines x := fun x hx => absurd hx.1 (by simp)
      refine ⟨fun x hx => absurd hx.1 (by simp), fun x hx => absurd hx (hkill x),
        ih hrest (fun x hx => .inl (hsub x (hx.resolve_right (hkill x)))) fun x hx hor => ?_⟩
      rcases hor with hD | hdefx
      · exact .inl (hused x (by rw [hu]; exact hx) hD)
      · have : d = x := Option.some.inj (hdst.symm.trans hdefx.2.2)
        simp [← this, hnot] at hx

end Correct

end Emu.Ir
