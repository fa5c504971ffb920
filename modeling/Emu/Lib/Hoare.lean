-- SUMMARY: Pre- and postconditions of stateful, fallible computations.
import Emu.Lib.Relational

/-! # Pre- and postconditions

`Ensures P m Q E`: from a state with `P`, the computation `m` gives a value and leaves a state with `Q`, or stops with
an error and leaves a state with `E`. -/

namespace Comp

variable {σ ε ε' α β : Type}

/-- What holds of an outcome and the state left with it. -/
def Post (Q : α → σ → Prop) (E : ε → σ → Prop) (r : Except ε α × σ) : Prop :=
  match r with
  | (.ok a, s) => Q a s
  | (.error e, s) => E e s

def Ensures (P : σ → Prop) (m : Comp σ ε α) (Q : α → σ → Prop) (E : ε → σ → Prop) : Prop :=
  ∀ s, P s → Post Q E (m s)

namespace Ensures

variable {P P' : σ → Prop} {Q Q' : α → σ → Prop} {R : β → σ → Prop} {E E' : ε → σ → Prop} {m : Comp σ ε α}

theorem ret {a : α} (h : ∀ s, P s → Q a s) : Ensures P (pure a : Comp σ ε α) Q E :=
  h

theorem fail {e : ε} (h : ∀ s, P s → E e s) : Ensures P (Comp.fail e : Comp σ ε α) Q E :=
  h

theorem view {g : σ → α} (h : ∀ s, P s → Q (g s) s) : Ensures P (Comp.view g : Comp σ ε α) Q E :=
  h

/-- A look at the state keeps what is known of it. -/
theorem look {g : σ → α} : Ensures P (Comp.view g : Comp σ ε α) (fun _ => P) E :=
  fun _ h => h

theorem change {g : σ → σ} {Q : Unit → σ → Prop} (h : ∀ s, P s → Q () (g s)) :
    Ensures P (Comp.change g : Comp σ ε Unit) Q E :=
  h

theorem bind {f : α → Comp σ ε β} (hm : Ensures P m Q E) (hf : ∀ a, Ensures (Q a) (f a) R E) :
    Ensures P (m >>= f) R E := by
  intro s hP
  have hpost := hm s hP
  rw [bind_apply]
  rcases hs : m s with ⟨_ | a, s'⟩ <;> rw [hs] at hpost
  · exact hpost
  · exact hf a s' hpost

theorem ite {c : Prop} [Decidable c] {n : Comp σ ε α} (hm : c → Ensures P m Q E) (hn : ¬ c → Ensures P n Q E) :
    Ensures P (if c then m else n) Q E := by
  split
  · exact hm ‹_›
  · exact hn ‹_›

theorem onError {f : ε → ε' × (σ → σ)} {E' : ε' → σ → Prop} (hm : Ensures P m Q E)
    (hf : ∀ e s, E e s → E' (f e).1 ((f e).2 s)) : Ensures P (m.onError f) Q E' := by
  intro s hP
  have hpost := hm s hP
  unfold Comp.onError
  rcases hs : m s with ⟨e | a, s'⟩ <;> rw [hs] at hpost
  · exact hf e s' hpost
  · exact hpost

end Ensures

/-- A computation that keeps a property, however it ends. -/
abbrev Keeps (P : σ → Prop) (m : Comp σ ε α) : Prop :=
  Ensures P m (fun _ => P) fun _ => P

section Keeps

variable {P : σ → Prop} {m : Comp σ ε α}

theorem Keeps.of_state (h : ∀ s, P s → P (m s).2) : Keeps P m := by
  intro s hs
  have hpost := h s hs
  rcases hm : m s with ⟨_ | _, _⟩ <;> rw [hm] at hpost <;> exact hpost

theorem Ensures.state (h : Keeps P m) {s : σ} (hs : P s) : P (m s).2 := by
  have hpost := h s hs
  rcases hm : m s with ⟨_ | _, _⟩ <;> rw [hm] at hpost <;> exact hpost

theorem Keeps.ret (a : α) : Keeps P (pure a : Comp σ ε α) :=
  Ensures.ret fun _ h => h

theorem Keeps.fail (e : ε) : Keeps P (Comp.fail e : Comp σ ε α) :=
  Ensures.fail fun _ h => h

/-- An error reported otherwise, with nothing done to the state. -/
theorem Ensures.relabel (h : Keeps P m) (f : ε → ε') : Keeps P (m.onError fun e => (f e, id)) :=
  h.onError fun _ _ h => h

end Keeps

end Comp
