-- SUMMARY: Straight-line programs: running a list of instructions, and simulation between two such lists.
import Mathlib

/-!
# Straight-line programs

A block of code with one entry and no joins is a list of instructions, each of which either goes
on in a new state or stops with a result. This module has the run of such a list, how runs compose,
and the simulation rule for two lists that are walked in step.
-/

namespace Emu.StraightLine

/-- What one instruction does: go on in a new state, or stop with a result. -/
inductive Step (S R : Type*) where
  | next (s : S)
  | stop (r : R)

/-- Two steps are related when both go on in related states or both stop with related results. -/
def Step.Rel {S S' R R' : Type*} (P : S → S' → Prop) (Q : R → R' → Prop) : Step S R → Step S' R' → Prop
  | .next s, .next s' => P s s'
  | .stop r, .stop r' => Q r r'
  | _, _ => False

section Rel

variable {S S' R R' : Type*} {P P' : S → S' → Prop} {Q Q' : R → R' → Prop}

@[simp] theorem Step.rel_next {s : S} {s' : S'} : Step.Rel P Q (.next s) (.next s') ↔ P s s' := Iff.rfl

@[simp] theorem Step.rel_stop {r : R} {r' : R'} : Step.Rel P Q (.stop r) (.stop r') ↔ Q r r' := Iff.rfl

theorem Step.Rel.mono {x : Step S R} {x' : Step S' R'} (h : Step.Rel P Q x x')
    (hP : ∀ s s', P s s' → P' s s') (hQ : ∀ r r', Q r r' → Q' r r') : Step.Rel P' Q' x x' := by
  cases x <;> cases x' <;> simp_all [Step.Rel]

theorem Step.Rel.mono_next {x : Step S R} {x' : Step S' R'} (h : Step.Rel P Q x x')
    (hP : ∀ s s', x = .next s → P s s' → P' s s') : Step.Rel P' Q x x' := by
  cases x <;> cases x' <;> simp_all [Step.Rel]

theorem Step.Rel.comp {S'' R'' : Type*} {P₂ : S' → S'' → Prop} {Q₂ : R' → R'' → Prop} {P₃ : S → S'' → Prop}
    {Q₃ : R → R'' → Prop} {x : Step S R} {y : Step S' R'} {z : Step S'' R''} (h : Step.Rel P Q x y)
    (h₂ : Step.Rel P₂ Q₂ y z) (hP : ∀ a b c, P a b → P₂ b c → P₃ a c)
    (hQ : ∀ a b c, Q a b → Q₂ b c → Q₃ a c) : Step.Rel P₃ Q₃ x z := by
  cases x <;> cases y <;> cases z <;> simp only [Step.Rel] at h h₂ ⊢
  · exact hP _ _ _ h h₂
  · exact hQ _ _ _ h h₂

end Rel

section Run

variable {I I' S S' R R' : Type*} {exec : I → S → Step S R} {exec' : I' → S' → Step S' R'}

/-- Run the instructions in order, until one stops or none is left. -/
def run (exec : I → S → Step S R) : List I → S → Step S R
  | [], s => .next s
  | i :: is, s =>
    match exec i s with
    | .next s' => run exec is s'
    | .stop r => .stop r

@[simp] theorem run_nil {s : S} : run exec [] s = .next s := rfl

theorem run_cons_next {i : I} {is : List I} {s s' : S} (h : exec i s = .next s') :
    run exec (i :: is) s = run exec is s' := by
  simp only [run, h]

theorem run_cons_stop {i : I} {is : List I} {s : S} {r : R} (h : exec i s = .stop r) :
    run exec (i :: is) s = .stop r := by
  simp only [run, h]

theorem run_append {is js : List I} {s : S} :
    run exec (is ++ js) s =
      match run exec is s with
      | .next s' => run exec js s'
      | .stop r => .stop r := by
  induction is generalizing s with
  | nil => rfl
  | cons i is ih =>
    rw [List.cons_append]
    cases h : exec i s with
    | next s' => rw [run_cons_next h, run_cons_next h, ih]
    | stop r => rw [run_cons_stop h, run_cons_stop h]

/-- An instruction may be replaced by one that does the same. -/
theorem run_set {is : List I} {i i' : I} {k : Nat} {s : S} (hk : is[k]? = some i) (h : ∀ s, exec i' s = exec i s) :
    run exec (is.set k i') s = run exec is s := by
  induction is generalizing k s with
  | nil => simp at hk
  | cons j is ih =>
    cases k with
    | zero => cases hk; simp only [List.set_cons_zero, run, h]
    | succ k =>
      simp only [List.set_cons_succ, run]
      cases exec j s with
      | next s' => exact ih (by simpa using hk)
      | stop r => rfl

/-- Where the run cannot get past an instruction, what stands behind it does not matter. -/
theorem run_eq_of_take {is is' : List I} {i : I} {n : Nat} {s : S} (hi : is[n]? = some i)
    (hstop : ∀ s s', exec i s ≠ .next s') (htake : is'.take (n + 1) = is.take (n + 1)) :
    run exec is' s = run exec is s := by
  have hnext : ∀ s', run exec (is.take (n + 1)) s ≠ .next s' := by
    intro s' h
    rw [List.take_add_one, hi, Option.toList_some, run_append] at h
    cases hx : run exec (is.take n) s with
    | stop r => rw [hx] at h; cases h
    | next t =>
      rw [hx] at h
      cases hy : exec i t with
      | next t' => exact hstop t t' hy
      | stop r => simp only [run, hy] at h; cases h
  rw [← List.take_append_drop (n + 1) is, ← List.take_append_drop (n + 1) is', htake, run_append, run_append]
  cases hx : run exec (is.take (n + 1)) s with
  | next s' => exact absurd hx (hnext s')
  | stop r => rfl

/-- The simulation rule. `P` relates the states in front of the two remaining lists; where it is
kept by every pair of instructions, the two runs end alike. -/
theorem run_sim {P : List I → List I' → S → S' → Prop} {Q : R → R' → Prop}
    (hlen : ∀ is is' s s', P is is' s s' → is.length = is'.length)
    (hstep : ∀ i is i' is' s s', P (i :: is) (i' :: is') s s' →
      Step.Rel (P is is') Q (exec i s) (exec' i' s'))
    {is : List I} {is' : List I'} {s : S} {s' : S'} (h : P is is' s s') :
    Step.Rel (P [] []) Q (run exec is s) (run exec' is' s') := by
  induction is generalizing is' s s' with
  | nil =>
    cases is' with
    | nil => exact h
    | cons => simpa using hlen _ _ _ _ h
  | cons i is ih =>
    cases is' with
    | nil => simpa using hlen _ _ _ _ h
    | cons i' is' =>
      have hrel := hstep i is i' is' s s' h
      cases hi : exec i s <;> cases hi' : exec' i' s' <;> rw [hi, hi'] at hrel
      · rw [run_cons_next hi, run_cons_next hi']
        exact ih hrel
      · exact hrel.elim
      · exact hrel.elim
      · rw [run_cons_stop hi, run_cons_stop hi']
        exact hrel

/-- What `obs` sees in front of each instruction that a run comes to. -/
def trace {O : Type*} (exec : I → S → Step S R) (obs : I → S → O) : List I → S → List O
  | [], _ => []
  | i :: is, s =>
    obs i s ::
      match exec i s with
      | .next s' => trace exec obs is s'
      | .stop _ => []

/-- The simulation rule for traces: where the pairs also look alike, the two runs are seen alike. -/
theorem trace_sim {O : Type*} {obs : I → S → O} {obs' : I' → S' → O} {P : List I → List I' → S → S' → Prop}
    {Q : R → R' → Prop} (hlen : ∀ is is' s s', P is is' s s' → is.length = is'.length)
    (hstep : ∀ i is i' is' s s', P (i :: is) (i' :: is') s s' →
      obs i s = obs' i' s' ∧ Step.Rel (P is is') Q (exec i s) (exec' i' s'))
    {is : List I} {is' : List I'} {s : S} {s' : S'} (h : P is is' s s') :
    trace exec obs is s = trace exec' obs' is' s' := by
  induction is generalizing is' s s' with
  | nil =>
    cases is' with
    | nil => rfl
    | cons => simpa using hlen _ _ _ _ h
  | cons i is ih =>
    cases is' with
    | nil => simpa using hlen _ _ _ _ h
    | cons i' is' =>
      obtain ⟨hobs, hrel⟩ := hstep i is i' is' s s' h
      cases hi : exec i s <;> cases hi' : exec' i' s' <;> rw [hi, hi'] at hrel
      · simp only [trace, hobs, hi, hi', ih hrel]
      · exact hrel.elim
      · exact hrel.elim
      · simp only [trace, hobs, hi, hi']

/-- Runs that end alike, followed by runs that end alike. -/
theorem run_append_rel {P P' : S → S' → Prop} {Q : R → R' → Prop} {is js : List I} {is' js' : List I'} {s : S}
    {s' : S'} (h : Step.Rel P Q (run exec is s) (run exec' is' s'))
    (hrest : ∀ t t', P t t' → Step.Rel P' Q (run exec js t) (run exec' js' t')) :
    Step.Rel P' Q (run exec (is ++ js) s) (run exec' (is' ++ js') s') := by
  rw [run_append, run_append]
  cases hx : run exec is s <;> cases hy : run exec' is' s' <;> rw [hx, hy] at h
  · exact hrest _ _ h
  · exact h.elim
  · exact h.elim
  · exact h

end Run

end Emu.StraightLine
