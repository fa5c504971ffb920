-- SUMMARY: Stateful, fallible computations, and rules for comparing two runs of one from related states.
import Mathlib

/-! # Computations and their relational rules

A computation reads and changes a state and may stop with an error. `Agrees P m Q E` compares two runs of `m` from
states related by `P`: both have the same outcome, and the states they leave are related by `Q` for a value and by
`E` for an error. Relating a state with itself gives the usual pre- and postconditions. -/

/-- A stateful computation that may stop with an error; what it did to the state until then stays done. -/
def Comp (σ ε α : Type) := σ → Except ε α × σ

namespace Comp

variable {σ ε α β : Type}

instance : Monad (Comp σ ε) where
  pure a s := (.ok a, s)
  bind m f s := match m s with
    | (.ok a, s') => f a s'
    | (.error e, s') => (.error e, s')

/-- Stop with an error. -/
def fail (e : ε) : Comp σ ε α :=
  fun s => (.error e, s)

/-- Look at the state. -/
def view (g : σ → α) : Comp σ ε α :=
  fun s => (.ok (g s), s)

/-- Change the state. -/
def change (g : σ → σ) : Comp σ ε Unit :=
  fun s => (.ok (), g s)

/-- Report another error, and change the state with it. -/
def onError {ε' : Type} (m : Comp σ ε α) (f : ε → ε' × (σ → σ)) : Comp σ ε' α :=
  fun s => match m s with
    | (.ok a, s') => (.ok a, s')
    | (.error e, s') => (.error (f e).1, (f e).2 s')

theorem bind_apply (m : Comp σ ε α) (f : α → Comp σ ε β) (s : σ) :
    (m >>= f) s = match m s with
      | (.ok a, s') => f a s'
      | (.error e, s') => (.error e, s') := rfl

/-! ## Comparing two runs -/

/-- How the states two runs leave are related, by their outcome. -/
def After (Q : α → σ → σ → Prop) (E : σ → σ → Prop) (r : Except ε α) (s t : σ) : Prop :=
  match r with
  | .ok a => Q a s t
  | .error _ => E s t

/-- From related states, the same outcome and related states. -/
def Agrees (P : σ → σ → Prop) (m : Comp σ ε α) (Q : α → σ → σ → Prop) (E : σ → σ → Prop) : Prop :=
  ∀ s t, P s t → (m s).1 = (m t).1 ∧ After Q E (m s).1 (m s).2 (m t).2

namespace Agrees

variable {P P' : σ → σ → Prop} {Q Q' : α → σ → σ → Prop} {R : β → σ → σ → Prop} {E E' : σ → σ → Prop}
variable {m : Comp σ ε α}

theorem ret {a : α} (h : ∀ s t, P s t → Q a s t) : Agrees P (pure a : Comp σ ε α) Q E := by
  intro s t hP
  exact ⟨rfl, h s t hP⟩

theorem fail {e : ε} (h : ∀ s t, P s t → E s t) : Agrees P (Comp.fail e : Comp σ ε α) Q E := by
  intro s t hP
  exact ⟨rfl, h s t hP⟩

theorem view {g : σ → α} (h : ∀ s t, P s t → g s = g t ∧ Q (g s) s t) :
    Agrees P (Comp.view g : Comp σ ε α) Q E := by
  intro s t hP
  obtain ⟨hg, hQ⟩ := h s t hP
  exact ⟨congrArg Except.ok hg, hQ⟩

theorem change {g : σ → σ} {Q : Unit → σ → σ → Prop} (h : ∀ s t, P s t → Q () (g s) (g t)) :
    Agrees P (Comp.change g : Comp σ ε Unit) Q E := by
  intro s t hP
  exact ⟨rfl, h s t hP⟩

theorem bind {f : α → Comp σ ε β} (hm : Agrees P m Q E) (hf : ∀ a, Agrees (Q a) (f a) R E) :
    Agrees P (m >>= f) R E := by
  intro s t hP
  obtain ⟨hr, hQ⟩ := hm s t hP
  rw [bind_apply, bind_apply]
  rcases hs : m s with ⟨_ | a, s'⟩ <;> rcases ht : m t with ⟨_ | b, t'⟩ <;> rw [hs, ht] at hr hQ
  · exact ⟨congrArg Except.error (Except.error.inj hr), hQ⟩
  · cases hr
  · cases hr
  · obtain rfl := Except.ok.inj hr
    exact hf a s' t' hQ

theorem conseq (hm : Agrees P m Q E) (hP : ∀ s t, P' s t → P s t) (hQ : ∀ a s t, Q a s t → Q' a s t)
    (hE : ∀ s t, E s t → E' s t) : Agrees P' m Q' E' := by
  intro s t h
  obtain ⟨hr, hA⟩ := hm s t (hP s t h)
  refine ⟨hr, ?_⟩
  rcases hs : m s with ⟨_ | a, s'⟩ <;> rw [hs] at hA
  · exact hE _ _ hA
  · exact hQ _ _ _ hA

theorem pre (hm : Agrees P m Q E) (hP : ∀ s t, P' s t → P s t) : Agrees P' m Q E :=
  hm.conseq hP (fun _ _ _ h => h) (fun _ _ h => h)

theorem ite {c : Prop} [Decidable c] {n : Comp σ ε α} (hm : c → Agrees P m Q E) (hn : ¬ c → Agrees P n Q E) :
    Agrees P (if c then m else n) Q E := by
  split
  · exact hm ‹_›
  · exact hn ‹_›

theorem onError {ε' : Type} {f : ε → ε' × (σ → σ)} (hm : Agrees P m Q E)
    (hf : ∀ e s t, E s t → E' ((f e).2 s) ((f e).2 t)) : Agrees P (m.onError f) Q E' := by
  intro s t hP
  obtain ⟨hr, hA⟩ := hm s t hP
  unfold Comp.onError
  rcases hs : m s with ⟨e | a, s'⟩ <;> rcases ht : m t with ⟨e' | b, t'⟩ <;> rw [hs, ht] at hr hA
  · obtain rfl := Except.error.inj hr
    exact ⟨rfl, hf e s' t' hA⟩
  · cases hr
  · cases hr
  · obtain rfl := Except.ok.inj hr
    exact ⟨rfl, hA⟩

end Agrees

end Comp
