-- SUMMARY: Direct-mapped tables: what every entry that answers a key satisfies, kept by fills and flushes.
import Mathlib

/-! # Direct-mapped tables

A table has one entry per slot. A key is looked up in the slot it maps to, and the entry there answers it when its
tag matches. `All` says that every entry which answers a key has a property; it survives a flush, and it survives a
fill as soon as the new entry has the property for the keys it answers. -/

namespace Slots

variable {ι κ α : Type*} {slot : κ → ι} {tag : α → κ → Prop} {P Q : κ → α → Prop} {t : ι → α}

/-- Every key answered from the table is answered with an entry that satisfies `P`. -/
def All (slot : κ → ι) (tag : α → κ → Prop) (P : κ → α → Prop) (t : ι → α) : Prop :=
  ∀ k, tag (t (slot k)) k → P k (t (slot k))

namespace All

theorem mono (h : All slot tag P t) (hPQ : ∀ k, tag (t (slot k)) k → P k (t (slot k)) → Q k (t (slot k))) :
    All slot tag Q t := by
  intro k hk
  exact hPQ k hk (h k hk)

/-- A table none of whose entries answers anything. -/
theorem flushed (ht : ∀ i k, ¬ tag (t i) k) : All slot tag P t := by
  intro k hk
  exact absurd hk (ht _ k)

/-- Filling the slot of a key: the other slots are as they were. -/
theorem update [DecidableEq ι] (h : All slot tag P t) {i : ι} {e : α} (he : ∀ k, slot k = i → tag e k → P k e) :
    All slot tag P (Function.update t i e) := by
  intro k hk
  by_cases hi : slot k = i
  · rw [hi, Function.update_self] at hk ⊢
    exact he k hi hk
  · rw [Function.update_of_ne hi] at hk ⊢
    exact h k hk

end All

end Slots
