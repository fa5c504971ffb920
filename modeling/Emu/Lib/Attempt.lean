-- SUMMARY: Operations that are accepted or refused and leave a state either way, with a rule for doing one after another.

/-! # Attempts

An attempt answers whether it was accepted, and leaves a state in both cases. What holds after it is said with one
condition for each answer. -/

namespace Attempt

variable {σ : Type}

/-- Go on in the state an attempt leaves, unless it was refused. -/
def andThen (r : Bool × σ) (k : σ → Bool × σ) : Bool × σ :=
  if r.1 then k r.2 else (false, r.2)

/-- What holds of the state an attempt leaves: one condition if it was accepted, one if it was refused. -/
def Leads (r : Bool × σ) (p q : σ → Prop) : Prop :=
  if r.1 then p r.2 else q r.2

variable {r : Bool × σ} {k : σ → Bool × σ} {p p' q q' : σ → Prop}

theorem Leads.accept {s : σ} (h : p s) : Leads (true, s) p q := h

theorem Leads.refuse {s : σ} (h : q s) : Leads (false, s) p q := h

theorem Leads.andThen (h : Leads r p q) (hk : ∀ s, p s → Leads (k s) p' q) :
    Leads (andThen r k) p' q := by
  unfold Attempt.andThen
  split
  next hr =>
    apply hk
    rwa [Leads, if_pos hr] at h
  next hr => rwa [Leads, if_neg hr] at h

/-- Weaken both conditions, at the state that is left. -/
theorem Leads.imp (h : Leads r p q) (hok : p r.2 → p' r.2) (href : q r.2 → q' r.2) :
    Leads r p' q' := by
  unfold Leads at h ⊢
  split
  next hr => exact hok (by rwa [if_pos hr] at h)
  next hr => exact href (by rwa [if_neg hr] at h)

/-- Weaken what holds of a refused attempt. -/
theorem Leads.refused_imp (h : Leads r p q) (href : ∀ s, q s → q' s) : Leads r p q' :=
  h.imp (fun hp => hp) (href _)

/-- Both conditions hold, whatever the answer. -/
theorem Leads.of (hok : p r.2) (href : q r.2) : Leads r p q := by
  unfold Leads
  split
  · exact hok
  · exact href

/-- What holds in both cases holds of the state that is left. -/
theorem Leads.both (h : Leads r p p) : p r.2 := by
  unfold Leads at h
  split at h <;> exact h

/-- An attempt that cannot have been refused was accepted. -/
theorem Leads.accepted (h : Leads r p q) (hq : ¬q r.2) : r.1 = true ∧ p r.2 := by
  unfold Leads at h
  split at h
  next hr => exact ⟨hr, h⟩
  next => exact absurd h hq

end Attempt
