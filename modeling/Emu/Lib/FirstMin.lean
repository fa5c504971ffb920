-- SUMMARY: The scan that keeps the first of the least: what it finds in a list in ascending order.
import Mathlib

/-! # The first of the least

A scan over numbers that moves to one whose value is strictly below the best so far ends at the least value and, among
those that share it, at the number that came first. -/

namespace FirstMin

variable {β : Type} [LinearOrder β] (f : Nat → β)

/-- A turn of the scan. -/
def step (best : Nat × β) (e : Nat) : Nat × β := if f e < best.2 then (e, f e) else best

def scan (l : List Nat) (init : Nat × β) : Nat × β := l.foldl (step f) init

variable {f}

/-- The scan keeps what it started with where nothing is below it, and else finds a least element. -/
theorem scan_cases (l : List Nat) (init : Nat × β) :
    (scan f l init = init ∧ ∀ e ∈ l, init.2 ≤ f e) ∨
      ((scan f l init).1 ∈ l ∧ (scan f l init).2 = f (scan f l init).1 ∧ (scan f l init).2 < init.2 ∧
        ∀ e ∈ l, (scan f l init).2 ≤ f e) := by
  induction l generalizing init with
  | nil => exact .inl ⟨rfl, by simp⟩
  | cons e rest ih =>
    rw [scan, List.foldl_cons, ← scan, step]
    by_cases hlt : f e < init.2
    · rw [if_pos hlt]
      refine .inr ?_
      rcases ih (e, f e) with ⟨heq, hle⟩ | ⟨hmem, hval, hbelow, hle⟩
      · rw [heq]
        exact ⟨List.mem_cons_self, rfl, hlt, List.forall_mem_cons.mpr ⟨le_refl _, hle⟩⟩
      · exact ⟨List.mem_cons_of_mem _ hmem, hval, hbelow.trans hlt, List.forall_mem_cons.mpr ⟨hbelow.le, hle⟩⟩
    · rw [if_neg hlt]
      rcases ih init with ⟨heq, hle⟩ | ⟨hmem, hval, hbelow, hle⟩
      · exact .inl ⟨heq, List.forall_mem_cons.mpr ⟨not_lt.mp hlt, hle⟩⟩
      · exact .inr ⟨List.mem_cons_of_mem _ hmem, hval, hbelow,
          List.forall_mem_cons.mpr ⟨hbelow.le.trans (not_lt.mp hlt), hle⟩⟩

/-- In ascending order the number it ends at is the first of the least. -/
theorem scan_fst_le {l : List Nat} (hsorted : l.Pairwise (· < ·)) {init : Nat × β} (hmem : (scan f l init).2 < init.2)
    {e : Nat} (he : e ∈ l) (hval : f e = (scan f l init).2) : (scan f l init).1 ≤ e := by
  induction l generalizing init with
  | nil => exact absurd he List.not_mem_nil
  | cons e' rest ih =>
    rw [List.pairwise_cons] at hsorted
    rw [scan, List.foldl_cons, ← scan, step] at hmem hval ⊢
    by_cases hlt : f e' < init.2
    · rw [if_pos hlt] at hmem hval ⊢
      rcases scan_cases (f := f) rest (e', f e') with ⟨heq, -⟩ | ⟨-, -, hbelow, -⟩
      · -- nothing behind is below the head, which comes first
        rw [heq]
        rcases List.mem_cons.mp he with rfl | he'
        · exact le_refl _
        · exact (hsorted.1 e he').le
      · rcases List.mem_cons.mp he with rfl | he'
        · exact absurd hval hbelow.ne'
        · exact ih hsorted.2 hbelow he' hval
    · rw [if_neg hlt] at hmem hval ⊢
      rcases List.mem_cons.mp he with rfl | he'
      · rw [← hval] at hmem
        exact absurd hmem hlt
      · exact ih hsorted.2 hmem he' hval

/-- Value first and number second, nothing in the list comes before what the scan ends at. -/
theorem scan_least {l : List Nat} (hsorted : l.Pairwise (· < ·)) {init : Nat × β} (hmem : (scan f l init).2 < init.2)
    {e : Nat} (he : e ∈ l) :
    toLex (f (scan f l init).1, (scan f l init).1) ≤ toLex (f e, e) := by
  rcases scan_cases (f := f) l init with ⟨heq, -⟩ | ⟨-, hval, -, hle⟩
  · rw [heq] at hmem
    exact absurd hmem (lt_irrefl _)
  · rw [Prod.Lex.toLex_le_toLex]
    rcases (hle e he).lt_or_eq with hlt | heq
    · rw [hval] at hlt
      exact .inl hlt
    · refine .inr ⟨?_, scan_fst_le hsorted hmem he heq.symm⟩
      rw [← hval]
      exact heq

/-- With a start that everything is below, the scan finds one where there is one. -/
theorem scan_mem {l : List Nat} (init : Nat × β) (htop : ∀ e ∈ l, f e < init.2) (hl : l ≠ []) :
    (scan f l init).1 ∈ l ∧ (scan f l init).2 = f (scan f l init).1 ∧ (scan f l init).2 < init.2 := by
  rcases scan_cases (f := f) l init with ⟨-, hle⟩ | ⟨hmem, hval, hbelow, -⟩
  · obtain ⟨e, he⟩ := List.exists_mem_of_ne_nil l hl
    exact absurd (htop e he) (not_lt.mpr (hle e he))
  · exact ⟨hmem, hval, hbelow⟩

end FirstMin
