-- SUMMARY: Taking what is due again and again, the least first: everything comes out once and in order.
import Mathlib

/-! # Draining in order

Something hands out what is due, one element at a time, and each time the one of least rank. Where it takes that element
away and nothing else, asking until there is nothing left gives every element that was due at the start, once, in
ascending order. -/

namespace Drain

variable {σ ι κ : Type} [DecidableEq ι] [LinearOrder κ]

/-- What is asked: the answer with the state after it, if anything is due. -/
structure Source (σ ι κ : Type) where
  take : σ → Option (ι × σ)
  due : σ → Finset ι
  rank : σ → ι → κ

/-- One answer. -/
structure Source.Fair (S : Source σ ι κ) : Prop where
  empty {s : σ} : S.take s = none → S.due s = ∅
  mem {s s' : σ} {i : ι} : S.take s = some (i, s') → i ∈ S.due s
  least {s s' : σ} {i : ι} : S.take s = some (i, s') → ∀ j ∈ S.due s, j ≠ i → S.rank s i < S.rank s j
  due {s s' : σ} {i : ι} : S.take s = some (i, s') → S.due s' = (S.due s).erase i
  rank {s s' : σ} {i : ι} : S.take s = some (i, s') → S.rank s' = S.rank s

/-- The answers, until there is nothing left. -/
inductive Source.Drained (S : Source σ ι κ) : σ → List ι → σ → Prop
  | done {s : σ} : S.take s = none → S.Drained s [] s
  | more {s s₁ s' : σ} {i : ι} {l : List ι} : S.take s = some (i, s₁) → S.Drained s₁ l s' → S.Drained s (i :: l) s'

variable {S : Source σ ι κ}

/-- What comes out is what was due, in ascending order. -/
theorem Source.Drained.spec (hS : S.Fair) {s s' : σ} {l : List ι} (h : S.Drained s l s') :
    (∀ i, i ∈ l ↔ i ∈ S.due s) ∧ l.Pairwise fun i j => S.rank s i < S.rank s j := by
  induction h with
  | done hnone =>
    rw [hS.empty hnone]
    exact ⟨fun i => iff_of_false List.not_mem_nil (Finset.notMem_empty i), .nil⟩
  | @more s s₁ s' i l htake _ ih =>
    obtain ⟨hmem, hsorted⟩ := ih
    rw [hS.rank htake] at hsorted
    refine ⟨fun j => ?_, List.pairwise_cons.mpr ⟨fun j hj => ?_, hsorted⟩⟩
    · rw [List.mem_cons, hmem, hS.due htake, Finset.mem_erase]
      constructor
      · rintro (rfl | ⟨-, hj⟩)
        · exact hS.mem htake
        · exact hj
      · intro hj
        rcases eq_or_ne j i with heq | hne
        · exact .inl heq
        · exact .inr ⟨hne, hj⟩
    · rw [hmem, hS.due htake, Finset.mem_erase] at hj
      exact hS.least htake j hj.2 hj.1

/-- It comes to an end: every answer leaves one less. -/
theorem Source.exists_drained (hS : S.Fair) (s : σ) : ∃ l s', S.Drained s l s' := by
  induction hn : (S.due s).card generalizing s with
  | zero =>
    cases htake : S.take s with
    | none => exact ⟨[], s, .done htake⟩
    | some p =>
      have hmem := hS.mem htake
      rw [Finset.card_eq_zero.mp hn] at hmem
      exact absurd hmem (Finset.notMem_empty _)
  | succ n ih =>
    cases htake : S.take s with
    | none => exact ⟨[], s, .done htake⟩
    | some p =>
      have hcard : (S.due p.2).card = n := by
        rw [hS.due htake, Finset.card_erase_of_mem (hS.mem htake), hn]
        rfl
      obtain ⟨l, s', h⟩ := ih p.2 hcard
      exact ⟨p.1 :: l, s', .more htake h⟩

end Drain
