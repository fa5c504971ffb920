-- SUMMARY: What the watchdog's locks keep, what loads its counter, and that two expiries without service are a reset.
import Emu.Ppc.Swt
import Emu.Lib.Masks

/-! # What the watchdog promises

The hard lock keeps the configuration. The soft lock goes by the unlock sequence alone. The counter is loaded by a service
sequence or by the first expiry, and an expiry that no service comes before is followed by a reset. -/

namespace Emu.Ppc.Swt

/-! ## The hard lock -/

/-- The write is a key that is taken. -/
def takesKey (w : Swt) (op : Op) : Bool :=
  op.wsc.any fun wsc => (w.serviceWrite wsc).1 && w.bit crKey && !w.unlocks wsc

/-- How many keys are taken in a run. -/
def keys : Swt → List Op → Nat
  | _, [] => 0
  | w, op :: ops => (w.takesKey op).toNat + keys (w.apply op) ops

/-- SWT_CR but for the soft lock, SWT_TO and SWT_WN are as they were, and SWT_SK is so many keys on. -/
structure Frozen (w w' : Swt) (n : Nat) : Prop where
  cr : w'.cr &&& ~~~crSlk = w.cr &&& ~~~crSlk
  timeout : w'.timeout = w.timeout
  wn : w'.wn = w.wn
  sk : w'.sk = nextKey^[n] w.sk

theorem Frozen.trans {a b c : Swt} {m n : Nat} (h : Frozen a b m) (h' : Frozen b c n) : Frozen a c (m + n) where
  cr := h'.cr.trans h.cr
  timeout := h'.timeout.trans h.timeout
  wn := h'.wn.trans h.wn
  sk := by rw [h'.sk, h.sk, Nat.add_comm, Function.iterate_add_apply]

/-- The bits other than the soft lock are among those that are kept. -/
theorem Frozen.hlk {w w' : Swt} {n : Nat} (h : Frozen w w' n) : w'.bit crHlk = w.bit crHlk := by
  have hmask (x : Word) : x &&& crHlk = (x &&& ~~~crSlk) &&& crHlk := by
    rw [BitVec.and_assoc]
    rfl
  rw [bit, bit, hmask, h.cr, ← hmask]

theorem locked_of_bit {w : Swt} {m : Word} (hm : (crHlk ||| crSlk) &&& m = m) (h : w.bit m = true) : w.locked = true := by
  rw [bit, decide_eq_true_iff] at h
  rw [locked, bit, decide_eq_true_iff]
  intro hz
  apply h
  rw [← hm, ← BitVec.and_assoc, hz]
  exact BitVec.zero_and

theorem frozen_of_eq {w w' : Swt} (hcr : w'.cr = w.cr) (hto : w'.timeout = w.timeout) (hwn : w'.wn = w.wn)
    (hsk : w'.sk = w.sk) : Frozen w w' 0 :=
  ⟨by rw [hcr], hto, hwn, hsk⟩

/-- A write of SWT_SR that is accepted moves the key on if it is one. -/
theorem frozen_served {w w' : Swt} {wsc : Word} (h : Served w wsc w') :
    Frozen w w' (w.bit crKey && !w.unlocks wsc).toNat := by
  have hsk (hu : w.unlocks wsc = false) : w.skAfter = nextKey^[(w.bit crKey && !w.unlocks wsc).toNat] w.sk := by
    rw [skAfter, hu]
    cases w.bit crKey <;> rfl
  cases h with
  | unlock1 h =>
    have hu : w.unlocks wsc = true := by simp [unlocks, h]
    rw [hu, Bool.not_true, Bool.and_false]
    exact frozen_of_eq rfl rfl rfl rfl
  | unlock2 h hhalf =>
    have hu : w.unlocks wsc = true := by simp [unlocks, h, hhalf]
    rw [hu, Bool.not_true, Bool.and_false]
    refine ⟨?_, rfl, rfl, rfl⟩
    rw [BitVec.and_assoc, BitVec.and_self]
  | first hu hopen h hhalf => exact ⟨rfl, rfl, rfl, hsk hu⟩
  | second hu hopen hhalf h => exact ⟨rfl, rfl, rfl, hsk hu⟩

theorem takesKey_of_none {w : Swt} {op : Op} (h : op.wsc = none) : w.takesKey op = false := by
  rw [takesKey, h]
  rfl

theorem Frozen.effect {w w' : Swt} {op : Op} (hl : w.locked = true) (h : Effect w op w') :
    Frozen w w' (w.takesKey op).toNat := by
  cases h with
  | advance ticks hop =>
    obtain ⟨ir, count, expired, r, heq, -⟩ := advance_frame w ticks
    rw [takesKey_of_none (by rw [hop]; rfl), heq]
    exact frozen_of_eq rfl rfl rfl rfl
  | accepted wsc hop hok =>
    have hk : w.takesKey op = (w.bit crKey && !w.unlocks wsc) := by 
      rw [takesKey, hop, Option.any_some, hok, Bool.true_and]
    rw [hk]
    exact frozen_served (served hok)
  | rejected wsc hop hok r hr =>
    have hk : w.takesKey op = false := by 
      rw [takesKey, hop, Option.any_some, hok, Bool.false_and, Bool.false_and]
    rw [hk]
    exact frozen_of_eq rfl rfl rfl rfl
  | control val hop hl' => exact absurd hl (by simp [hl'])
  | configure timeout wn sk hop hl' => exact absurd hl (by simp [hl'])
  | other ir hop r hr =>
    rw [takesKey_of_none hop]
    exact frozen_of_eq rfl rfl rfl rfl

/-- The hard lock keeps the configuration for as long as there is no reset. -/
theorem frozen_run {w : Swt} (h : w.bit crHlk = true) (ops : List Op) : Frozen w (w.run ops) (w.keys ops) := by
  induction ops generalizing w with
  | nil => exact frozen_of_eq rfl rfl rfl rfl
  | cons op ops ih =>
    have hstep := Frozen.effect (locked_of_bit (by decide) h) (effect w op)
    exact hstep.trans (ih (hstep.hlk.trans h))

/-! ## Histories -/

/-- The watchdog after the operations since its reset, the latest first. -/
def after : List Op → Swt
  | [] => swtReset
  | op :: ops => (after ops).apply op

/-- The operations since the reset, the latest first, each with the state that it met. -/
def past : List Op → List (Swt × Op)
  | [] => []
  | op :: ops => (after ops, op) :: past ops

/-- There was an entry that `P` is true of, and `Q` is true of every later one. -/
def Since (P Q : Swt → Op → Prop) : List (Swt × Op) → Prop
  | [] => False
  | (w, op) :: t => P w op ∨ Q w op ∧ Since P Q t

instance decidableSince (P Q : Swt → Op → Prop) [∀ w op, Decidable (P w op)] [∀ w op, Decidable (Q w op)] :
    (t : List (Swt × Op)) → Decidable (Since P Q t)
  | [] => inferInstanceAs (Decidable False)
  | (_, _) :: t => @instDecidableOr _ _ _ (@instDecidableAnd _ _ _ (decidableSince P Q t))

/-- The write of SWT_SR is turned down. -/
def rejects (w : Swt) (op : Op) : Bool := op.wsc.any fun wsc => !(w.serviceWrite wsc).1

theorem rejects_of_none {w : Swt} {op : Op} (h : op.wsc = none) : w.rejects op = false := by
  rw [rejects, h]
  rfl

theorem rejects_of_ok {w : Swt} {op : Op} {wsc : Word} (h : op.wsc = some wsc) (hok : (w.serviceWrite wsc).1 = true) :
    w.rejects op = false := by
  rw [rejects, h, Option.any_some, hok]
  rfl

/-! ## The soft lock -/

theorem unlHalf_effect {w w' : Swt} {op : Op} (he : Effect w op w') (h : w'.unlHalf = true) :
    op.wsc = some unlock1 ∨ w.rejects op = false ∧ w.unlHalf = true := by
  cases he with
  | advance ticks hop =>
    obtain ⟨ir, count, expired, r, heq, -⟩ := advance_frame w ticks
    rw [heq] at h
    exact .inr ⟨rejects_of_none (by rw [hop]; rfl), h⟩
  | accepted wsc hop hok =>
    have hs := served hok
    generalize (w.serviceWrite wsc).2 = w' at hs h
    cases hs with
    | unlock1 hwsc => exact .inl (by rw [hop, hwsc])
    | unlock2 hwsc hhalf => exact absurd h (by simp)
    | first hu hopen hwsc hhalf => exact .inr ⟨rejects_of_ok hop hok, h⟩
    | second hu hopen hhalf hwsc => exact .inr ⟨rejects_of_ok hop hok, h⟩
  | rejected wsc hop hok r hr => exact absurd h (by simp)
  | control val hop hl =>
    rw [writeCr] at h
    split_ifs at h
    · exact .inr ⟨rejects_of_none hop, h⟩
    · exact .inr ⟨rejects_of_none hop, h⟩
  | configure timeout wn sk hop hl => exact .inr ⟨rejects_of_none hop, h⟩
  | other ir hop r hr => exact .inr ⟨rejects_of_none hop, h⟩

/-- The first half of the unlock sequence was written, and no write was turned down since. -/
def Unlocking : List (Swt × Op) → Prop := Since (fun _ op => op.wsc = some unlock1) fun w op => w.rejects op = false

theorem unlocking_of_unlHalf {ops : List Op} (h : (after ops).unlHalf = true) : Unlocking (past ops) := by
  induction ops with
  | nil => exact absurd h (by decide)
  | cons op ops ih =>
    rcases unlHalf_effect (effect _ op) h with h1 | ⟨hr, hhalf⟩
    · exact .inl h1
    · exact .inr ⟨hr, ih hhalf⟩

/-- Nothing but the second half of the unlock sequence clears the soft lock. -/
theorem unlock2_of_slk {w w' : Swt} {op : Op} (he : Effect w op w') (h : w.bit crSlk = true) (h' : w'.bit crSlk = false) :
    op.wsc = some unlock2 ∧ w.unlHalf = true := by
  have hsame (hcr : w'.cr = w.cr) : op.wsc = some unlock2 ∧ w.unlHalf = true := by
    rw [bit, hcr, ← bit, h] at h'
    exact absurd h' (by decide)
  have hlocked := locked_of_bit (by decide) h
  cases he with
  | advance ticks hop =>
    obtain ⟨ir, count, expired, r, heq, -⟩ := advance_frame w ticks
    exact hsame (by rw [heq])
  | accepted wsc hop hok =>
    have hs := served hok
    generalize (w.serviceWrite wsc).2 = w' at hs hsame
    cases hs with
    | unlock1 hwsc => exact hsame rfl
    | unlock2 hwsc hhalf => exact ⟨by rw [hop, hwsc], hhalf⟩
    | first hu hopen hwsc hhalf => exact hsame rfl
    | second hu hopen hhalf hwsc => exact hsame rfl
  | rejected wsc hop hok r hr => exact hsame rfl
  | control val hop hl => exact absurd hlocked (by simp [hl])
  | configure timeout wn sk hop hl => exact absurd hlocked (by simp [hl])
  | other ir hop r hr => exact hsame rfl

/-! ## Service -/

/-- A write of SWT_SR, to an enabled watchdog whose window is open, of the value that the service sequence is at: the
successor of the key, or `fixed`. -/
def Serves (w : Swt) (op : Op) (fixed : Word) : Prop :=
  w.enabled = true ∧ (w.bit crWnd = true → w.count < w.wn.toNat) ∧ op.wsc = some (w.expected fixed) ∧
    w.unlocks (w.expected fixed) = false

instance (w : Swt) (op : Op) (fixed : Word) : Decidable (w.Serves op fixed) := by
  unfold Serves
  infer_instance

/-- The second write of a service sequence. -/
def Completes (w : Swt) (op : Op) : Prop := w.svcHalf = true ∧ w.Serves op service2

instance (w : Swt) (op : Op) : Decidable (w.Completes op) := by
  unfold Completes
  infer_instance

/-- The first write of a service sequence. -/
def Begins (w : Swt) (op : Op) : Prop := ¬w.Completes op ∧ w.Serves op service1

instance (w : Swt) (op : Op) : Decidable (w.Begins op) := by
  unfold Begins
  infer_instance

/-- The write goes on with a sequence that was begun, and the watchdog is enabled. -/
def Goes (w : Swt) (op : Op) : Prop := w.enabled = true ∧ w.rejects op = false ∧ ¬w.Completes op

instance (w : Swt) (op : Op) : Decidable (w.Goes op) := by
  unfold Goes
  infer_instance

/-- A service sequence was begun, the watchdog was enabled since, no write was turned down and no other sequence
completed. -/
def Serving : List (Swt × Op) → Prop := Since Begins Goes

instance (t : List (Swt × Op)) : Decidable (Serving t) := decidableSince Begins Goes t

theorem not_completes_of_none {w : Swt} {op : Op} (h : op.wsc = none) : ¬w.Completes op := by
  rintro ⟨-, -, -, hop, -⟩
  rw [h] at hop
  exact absurd hop (by simp)

theorem not_completes_of_unlocks {w : Swt} {op : Op} {wsc : Word} (h : op.wsc = some wsc) (hu : w.unlocks wsc = true) :
    ¬w.Completes op := by
  rintro ⟨-, -, -, hop, hu'⟩
  rw [h, Option.some.injEq] at hop
  rw [hop] at hu
  exact absurd hu (by simp [hu'])

theorem inWindow_of_open {w : Swt} (hen : w.enabled = true) (hopen : w.shut = false) :
    w.bit crWnd = true → w.count < w.wn.toNat := by
  intro hwnd
  rw [shut, hwnd, hen] at hopen
  simpa using hopen

/-- The service writes in the two modes differ, but for a keyed one that a half sequence is there for. -/
theorem not_completes_of_first {w : Swt} {op : Op} (hop : op.wsc = some (w.expected service1))
    (hhalf : w.bit crKey = true → w.svcHalf = false) : ¬w.Completes op := by
  rintro ⟨hset, -, -, hop', -⟩
  rw [hop, Option.some.injEq] at hop'
  cases hk : w.bit crKey with
  | true => exact absurd hset (by simp [hhalf hk])
  | false =>
    simp only [expected, hk, Bool.false_eq_true, if_false] at hop'
    exact absurd hop' (by decide)

/-- A half sequence that is there was begun by this write or was there before it. -/
theorem svcHalf_effect {w w' : Swt} {op : Op} (he : Effect w op w') (hen : w'.enabled = true) (h : w'.svcHalf = true) :
    w.Begins op ∨ w.svcHalf = true ∧ w.rejects op = false ∧ ¬w.Completes op := by
  have hkept (hnone : op.wsc = none) (hsame : w'.svcHalf = w.svcHalf) :
      w.Begins op ∨ w.svcHalf = true ∧ w.rejects op = false ∧ ¬w.Completes op :=
    .inr ⟨hsame ▸ h, rejects_of_none hnone, not_completes_of_none hnone⟩
  cases he with
  | advance ticks hop =>
    obtain ⟨ir, count, expired, r, heq, -⟩ := advance_frame w ticks
    exact hkept (by rw [hop]; rfl) (by rw [heq])
  | accepted wsc hop hok =>
    have hs := served hok
    generalize (w.serviceWrite wsc).2 = w' at hs h hen
    cases hs with
    | unlock1 hwsc =>
      exact .inr ⟨h, rejects_of_ok hop hok, not_completes_of_unlocks hop (by simp [unlocks, hwsc])⟩
    | unlock2 hwsc hhalf =>
      exact .inr ⟨h, rejects_of_ok hop hok, not_completes_of_unlocks hop (by simp [unlocks, hwsc, hhalf])⟩
    | first hu hopen hwsc hhalf =>
      subst hwsc
      exact .inl ⟨not_completes_of_first hop hhalf, hen, inWindow_of_open hen hopen, hop, hu⟩
    | second hu hopen hhalf hwsc => exact absurd h (by simp [serviced])
  | rejected wsc hop hok r hr => exact absurd h (by simp)
  | control val hop hl => exact hkept hop (by rw [writeCr]; split_ifs <;> rfl)
  | configure timeout wn sk hop hl => exact hkept hop rfl
  | other ir hop r hr => exact hkept hop rfl

/-- The operation does not enable the watchdog while half a service sequence is there. -/
def Fine (w : Swt) (op : Op) : Prop := w.enabled = false → (w.apply op).enabled = true → w.svcHalf = false

instance (w : Swt) (op : Op) : Decidable (w.Fine op) := by
  unfold Fine
  infer_instance

theorem serving_of_svcHalf {ops : List Op} (hfine : ∀ e ∈ past ops, e.1.Fine e.2) (hen : (after ops).enabled = true)
    (h : (after ops).svcHalf = true) : Serving (past ops) := by
  induction ops with
  | nil => exact absurd h (by decide)
  | cons op ops ih =>
    rcases svcHalf_effect (effect _ op) hen h with hb | ⟨hhalf, hr, hc⟩
    · exact .inl hb
    · have hen' : (after ops).enabled = true := by
        by_contra hdis
        have hnone : (after ops).svcHalf = false := hfine (after ops, op) (.head _) (by simpa using hdis) hen
        exact absurd hhalf (by simp [hnone])
      exact .inr ⟨⟨hen', hr, hc⟩, ih (fun e he => hfine e (.tail _ he)) hen' hhalf⟩

theorem crWen_eq : crWen = BitVec.twoPow 32 0 := by decide

/-- While the watchdog is enabled no access but the second write of a service sequence moves the counter, or takes the
first expiry back. -/
theorem completes_effect {w w' : Swt} {op : Op} (he : Effect w op w') (hen : w.enabled = true)
    (hop : ∀ ticks, op ≠ .advance ticks) : w.Completes op ∨ w'.count = w.count ∧ w'.expired = w.expired := by
  cases he with
  | advance ticks h => exact absurd h (hop ticks)
  | accepted wsc h hok =>
    have hs := served hok
    generalize (w.serviceWrite wsc).2 = w' at hs
    cases hs with
    | unlock1 hwsc => exact .inr ⟨rfl, rfl⟩
    | unlock2 hwsc hhalf => exact .inr ⟨rfl, rfl⟩
    | first hu hopen hwsc hhalf => exact .inr ⟨rfl, rfl⟩
    | second hu hopen hhalf hwsc =>
      subst hwsc
      exact .inl ⟨hhalf, hen, inWindow_of_open hen hopen, h, hu⟩
  | rejected wsc h hok r hr => exact .inr ⟨rfl, rfl⟩
  | control val h hl =>
    -- WEN is set already, so the write does not enable
    have hnot : ¬val &&& ~~~w.cr &&& crWen ≠ 0 := by
      rw [enabled, bit, decide_eq_true_iff] at hen
      rw [not_not]
      rw [crWen_eq, Ne, Masks.and_twoPow_eq_zero (by decide), Bool.not_eq_false] at hen
      rw [crWen_eq, Masks.and_twoPow_eq_zero (by decide), BitVec.getLsbD_and, BitVec.getLsbD_not, hen]
      simp
    rw [writeCr, if_neg hnot]
    exact .inr ⟨rfl, rfl⟩
  | configure timeout wn sk h hl => exact .inr ⟨rfl, rfl⟩
  | other ir h r hr => exact .inr ⟨rfl, rfl⟩

/-! ## Expiries -/

/-- How often the counter gets to zero in an operation. -/
def expiriesIn (w : Swt) : Op → Nat
  | .advance ticks =>
    if w.enabled && !w.reset && w.count ≤ ticks then
      if w.interrupts && w.firstExpiry.count ≤ ticks - w.count then 2 else 1
    else 0
  | _ => 0

/-- How often the counter gets to zero in a run. -/
def expiries : Swt → List Op → Nat
  | _, [] => 0
  | w, op :: ops => w.expiriesIn op + expiries (w.apply op) ops

/-- The watchdog is enabled all along, and no service sequence completes. -/
def Unserviced : Swt → List Op → Prop
  | w, [] => w.enabled = true
  | w, op :: ops => w.enabled = true ∧ ¬w.Completes op ∧ Unserviced (w.apply op) ops

/-- The expiries that the state shows. -/
def shown (w : Swt) : Nat := if w.reset then 2 else w.expired.toNat

theorem shown_lastExpiry (w : Swt) : w.lastExpiry.shown = 2 := rfl

/-- The second expiry that an advance comes to is the reset. -/
theorem shown_advance_firstExpiry {w : Swt} (hen : w.enabled = true) (hr : w.reset = false) (ticks : Nat) :
    (w.firstExpiry.advance ticks).shown = if w.firstExpiry.count ≤ ticks then 2 else 1 := by
  rw [advance_of_counting (w := w.firstExpiry) hen hr, interrupts_firstExpiry, if_neg Bool.false_ne_true]
  split_ifs
  · exact shown_lastExpiry _
  · have hrunning : ¬w.firstExpiry.reset = true := by
      change ¬w.reset = true
      simp [hr]
    rw [shown, if_neg hrunning]
    rfl

theorem shown_advance (w : Swt) (ticks : Nat) : w.shown + w.expiriesIn (.advance ticks) ≤ (w.advance ticks).shown := by
  rw [expiriesIn]
  by_cases hc : w.enabled = true ∧ w.reset = false
  · obtain ⟨hen, hr⟩ := hc
    have hshown : w.shown = w.expired.toNat := if_neg (by simp [hr])
    have hle := Bool.toNat_le w.expired
    rw [advance_of_counting hen hr, hen, hr, hshown, Bool.true_and, Bool.not_false, Bool.true_and]
    by_cases hexp : w.count ≤ ticks
    · rw [if_pos hexp, if_pos (decide_eq_true hexp)]
      cases hint : w.interrupts with
      | true =>
        have hfirst : w.expired = false := by
          rw [interrupts, Bool.and_eq_true, Bool.not_eq_true'] at hint
          exact hint.2
        rw [if_pos rfl, shown_advance_firstExpiry hen hr, hfirst, Bool.true_and]
        split_ifs with hagain hagain' hagain'
        · exact Nat.le_refl 2
        · exact absurd (of_decide_eq_true hagain) hagain'
        · exact absurd (decide_eq_true hagain') hagain
        · exact Nat.le_refl 1
      | false =>
        rw [if_neg Bool.false_ne_true, shown_lastExpiry, Bool.false_and, if_neg Bool.false_ne_true]
        omega
    · rw [if_neg hexp, if_neg (by simpa using hexp), shown, if_neg (by simp)]
      exact Nat.le_refl _
  · have hidle : (w.enabled && !w.reset) = false := by simpa using hc
    rw [hidle, advance_of_stopped hc, Bool.false_and, if_neg Bool.false_ne_true]
    exact Nat.le_refl _

theorem reset_effect {w w' : Swt} {op : Op} (he : Effect w op w') (h : w.reset = true) : w'.reset = true := by
  cases he with
  | advance ticks hop =>
    obtain ⟨ir, count, expired, r, heq, hr⟩ := advance_frame w ticks
    rw [heq]
    exact hr h
  | accepted wsc hop hok =>
    have hs := served hok
    generalize (w.serviceWrite wsc).2 = w' at hs
    cases hs <;> exact h
  | rejected wsc hop hok r hr => exact hr h
  | control val hop hl =>
    rw [writeCr]
    split_ifs
    · exact h
    · exact h
  | configure timeout wn sk hop hl => exact h
  | other ir hop r hr => exact hr h

theorem shown_apply {w : Swt} {op : Op} (hen : w.enabled = true) (hc : ¬w.Completes op) :
    w.shown + w.expiriesIn op ≤ (w.apply op).shown := by
  have haccess (hop : ∀ ticks, op ≠ .advance ticks) : w.shown ≤ (w.apply op).shown := by
    obtain ⟨-, hexpired⟩ := (completes_effect (effect w op) hen hop).resolve_left hc
    rw [shown, shown, hexpired]
    have hreset := reset_effect (effect w op)
    have hle := Bool.toNat_le w.expired
    split_ifs with hr hr'
    · exact Nat.le_refl 2
    · exact absurd (hreset hr) hr'
    · omega
    · exact Nat.le_refl _
  cases op with
  | read off size => exact haccess fun ticks => by simp
  | write off size val => exact haccess fun ticks => by simp
  | advance ticks => exact shown_advance w ticks

theorem shown_run {w : Swt} {ops : List Op} (h : w.Unserviced ops) : w.shown + w.expiries ops ≤ (w.run ops).shown := by
  induction ops generalizing w with
  | nil => exact Nat.le_refl _
  | cons op ops ih =>
    obtain ⟨hen, hc, hrest⟩ := h
    calc w.shown + (w.expiriesIn op + (w.apply op).expiries ops)
        = w.shown + w.expiriesIn op + (w.apply op).expiries ops := (Nat.add_assoc _ _ _).symm
      _ ≤ (w.apply op).shown + (w.apply op).expiries ops := Nat.add_le_add_right (shown_apply hen hc) _
      _ ≤ ((w.apply op).run ops).shown := ih hrest

/-- Two expiries with no service between them end in a reset. -/
theorem reset_of_expiries {w : Swt} {ops : List Op} (h : w.Unserviced ops) (h2 : 2 ≤ w.expiries ops) :
    (w.run ops).reset = true := by
  have hrun := shown_run h
  have hle := Bool.toNat_le (w.run ops).expired
  by_contra hr
  rw [shown, shown, if_neg hr] at hrun
  omega

/-! ## The watchdog -/

/-- In a history that never enables the watchdog with half a service sequence there: the hard lock keeps the
configuration but for the keys that are taken; the soft lock goes by the unlock sequence; while the watchdog is enabled
what loads the counter is a service sequence or the first expiry; and two expiries with no service between them are a
reset. -/
theorem watchdog_keeps {ops : List Op} (hfine : ∀ e ∈ past ops, e.1.Fine e.2) :
    ((after ops).bit crHlk = true → ∀ more, Frozen (after ops) ((after ops).run more) ((after ops).keys more)) ∧
    (∀ op, (after ops).bit crSlk = true → (after (op :: ops)).bit crSlk = false →
      op.wsc = some unlock2 ∧ Unlocking (past ops)) ∧
    (∀ op, (∀ ticks, op ≠ .advance ticks) → (after ops).enabled = true → (after (op :: ops)).enabled = true →
      (after (op :: ops)).count ≠ (after ops).count ∨ (after (op :: ops)).expired ≠ (after ops).expired →
      (after ops).Completes op ∧ Serving (past ops)) ∧
    (∀ ticks, (after ops).enabled = true → (after ops).reset = false →
      after (.advance ticks :: ops) =
        if (after ops).count ≤ ticks then
          if (after ops).interrupts then (after ops).firstExpiry.advance (ticks - (after ops).count)
          else (after ops).lastExpiry
        else { after ops with count := (after ops).count - ticks }) ∧
    ∀ more, (after ops).Unserviced more → 2 ≤ (after ops).expiries more → ((after ops).run more).reset = true := by
  refine ⟨frozen_run, ?_, ?_, fun ticks hen hr => advance_of_counting hen hr ticks, fun more => reset_of_expiries⟩
  · intro op hset hclear
    obtain ⟨hop, hhalf⟩ := unlock2_of_slk (effect _ op) hset hclear
    exact ⟨hop, unlocking_of_unlHalf hhalf⟩
  · intro op hop hen hen' hmoved
    rcases completes_effect (effect _ op) hen hop with hc | ⟨hcount, hexpired⟩
    · exact ⟨hc, serving_of_svcHalf hfine hen hc.1⟩
    · exact absurd hmoved (by simp [after, hcount, hexpired])

/-- A service sequence that loads the counter of a watchdog with a window. -/
theorem watchdog_keeps_serviced :
    let ops : List Op := [.write srOff 4 service1, .advance 0x3FD60, .write crOff 4 (crWnd ||| crWen),
      .write wnOff 4 0x100, .write srOff 4 unlock2, .write srOff 4 unlock1]
    (after (.write srOff 4 service2 :: ops)).count = 0x3FDE0 ∧ (after ops).Completes (.write srOff 4 service2) ∧
      Serving (past ops) := by
  intro ops
  refine ⟨by decide +kernel, ?_⟩
  have hfine : ∀ e ∈ past ops, e.1.Fine e.2 := by decide +kernel
  exact (watchdog_keeps hfine).2.2.1 (.write srOff 4 service2) (fun ticks => by simp)
    (by decide +kernel) (by decide +kernel) (by decide +kernel)

/-- Half a service sequence, written while the watchdog was disabled and its counter was outside the window, outlives the
enabling: one write loads the counter. -/
theorem half_service_kept :
    let ops : List Op := [.advance 0x3FD60, .write crOff 4 (crWnd ||| crWen), .write srOff 4 service1,
      .write crOff 4 crWnd, .write crOff 4 (crWnd ||| crWen), .write wnOff 4 0x100, .write srOff 4 unlock2,
      .write srOff 4 unlock1]
    (after ops).enabled = true ∧ (after (.write srOff 4 service2 :: ops)).enabled = true ∧
      (after ops).count = 0x80 ∧ (after (.write srOff 4 service2 :: ops)).count = 0x3FDE0 ∧ ¬Serving (past ops) := by
  decide +kernel

end Emu.Ppc.Swt
