-- SUMMARY: Runs of the interrupt controller: which cleared bits the platform hears of, and what holds of its bits and its line.
import Mathlib
import Emu.Rv.Aplic

/-! # Runs of the APLIC

Register accesses and raises in any order. What one of them can do is said once (`Effect`); from it follow the bits of
inactive sources, the level the hart was last told, and which pending bits are cleared without a word to the platform. -/

namespace Emu.Rv.Aplic

/-! ## Operations -/

/-- A register access or a raised source. -/
inductive Op where
  | read (off size : Nat)
  | write (off size : Nat) (val : Word)
  | raise (source : Nat)
  deriving DecidableEq, Repr

/-- An access that faults changes nothing. -/
def step (a : Aplic) : Op → Aplic × List Call
  | .read off size =>
    match a.read off size with
    | .ok r => r.2
    | .error _ => (a, [])
  | .write off size val =>
    match a.write off size val with
    | .ok r => r
    | .error _ => (a, [])
  | .raise source => a.raise source

/-- A state and all the calls that were made. -/
def run (r : Aplic × List Call) (ops : List Op) : Aplic × List Call :=
  ops.foldl (fun r op => ((r.1.step op).1, r.2 ++ (r.1.step op).2)) r

theorem run_concat (r : Aplic × List Call) (ops : List Op) (op : Op) :
    run r (ops ++ [op]) = (((run r ops).1.step op).1, (run r ops).2 ++ ((run r ops).1.step op).2) := by
  rw [run, List.foldl_append]
  rfl

/-- The controller as a guest finds it, for one privilege, with or without a hook. -/
def boot (smode hook : Bool) : Aplic × List Call := (((init true).1.setEoi hook).setSmode smode, (init true).2)

/-- The sources that an operation enables. -/
def Op.Enables (op : Op) (i : Nat) : Prop :=
  i ≠ 0 ∧ i < sources ∧ ∃ val : Word,
    (op = .write (setieOff + 4 * (i / 32)) 4 val ∧ val.getLsbD (i % 32) = true) ∨
      (op = .write setienumOff 4 val ∧ val.toNat = i)

/-- The write that makes a source inactive. -/
def Op.Deactivates (op : Op) (i : Nat) : Prop :=
  i ≠ 0 ∧ i < sources ∧ ∃ val, op = .write (sourcecfgOff + 4 * (i - 1)) 4 val ∧ modeOf val = smInactive

/-! ## What an operation can do -/

/-- States that differ in no source's mode or bits, and in nobody to be told. -/
def SameBits (a a' : Aplic) : Prop :=
  a' = { a with domaincfg := a'.domaincfg, target := a'.target, idelivery := a'.idelivery, iforce := a'.iforce,
                ithreshold := a'.ithreshold }

/-- What an operation can do: but for one that does nothing, each ends by telling the hart the level. -/
inductive Effect (a : Aplic) (op : Op) : Aplic × List Call → Prop
  | none : Effect a op (a, [])
  | regs {a' : Aplic} : a.SameBits a' → Effect a op (updated (a', []))
  | mode {i : Nat} {val : Word} : (modeOf val = smInactive → op.Deactivates i) →
      Effect a op (updated (a.setSourcecfg i val, []))
  | setPending (w : Nat) (mask : Word) : Effect a op (updated (a.setPending w mask, []))
  | clearPending (w : Nat) (mask : Word) : Effect a op (updated (a.clearPending w mask))
  | enable {w : Nat} {mask : Word} : (∀ i, Names w mask i → op.Enables i) → Effect a op (updated (a.enable w mask, []))
  | disable (w : Nat) (mask : Word) : Effect a op (updated (a.disable w mask, []))

theorem Effect.same (a : Aplic) (op : Op) : Effect a op (updated (a, [])) := .regs rfl

/-- What holds of the answer to an access, unless it faults. -/
def Answers {β : Type} (P : β → Prop) : Except Fault β → Prop
  | .ok r => P r
  | .error _ => True

theorem Answers.ite {β : Type} {P : β → Prop} {c : Prop} [Decidable c] {x y : Except Fault β} (hx : c → Answers P x)
    (hy : ¬c → Answers P y) : Answers P (if c then x else y) := by
  by_cases h : c
  · rw [if_pos h]
    exact hx h
  · rw [if_neg h]
    exact hy h

/-- The same where only what is answered depends on a test. -/
theorem Effect.ite {a : Aplic} {op : Op} {c : Prop} [Decidable c] {r r' : Aplic × List Call} (h : c → Effect a op r)
    (h' : ¬c → Effect a op r') : Effect a op (if c then r else r') := by
  by_cases hc : c
  · rw [if_pos hc]
    exact h hc
  · rw [if_neg hc]
    exact h' hc

theorem effect_claim (a : Aplic) (op : Op) : Effect a op a.claim.2 := by
  rw [claim]
  dsimp only
  split_ifs
  · exact .regs rfl
  · exact .clearPending ..

/-- A read changes something only at `claimi`. -/
theorem effect_read (a : Aplic) (off size : Nat) : Answers (fun r => Effect a (.read off size) r.2) (a.read off size) := by
  have hnone (v : Word) : Answers (fun r => Effect a (.read off size) r.2) (.ok (v, a, [])) := .none
  rw [read]
  refine .ite (fun _ => trivial) fun _ => .ite (fun _ => hnone _) fun _ => .ite (fun _ => hnone _) fun _ => ?_
  refine .ite (fun _ => hnone _) fun _ => .ite (fun _ => hnone _) fun _ => .ite (fun _ => hnone _) fun _ => ?_
  refine .ite (fun _ => hnone _) fun _ => .ite (fun _ => hnone _) fun _ => .ite (fun _ => hnone _) fun _ => ?_
  refine .ite (fun _ => hnone _) fun _ => .ite (fun _ => hnone _) fun _ => .ite (fun _ => ?_) fun _ => hnone _
  exact effect_claim ..

/-- The words of the enable bits never name source 0. -/
theorem names_setie {w : Nat} {val : Word} {i : Nat} (h : Names w (if w = 0 then val &&& ~~~1 else val) i) :
    i ≠ 0 ∧ val.getLsbD (i % 32) = true := by
  obtain ⟨hdiv, hbit⟩ := h
  split_ifs at hbit with h0
  · rw [BitVec.getLsbD_and, Bool.and_eq_true] at hbit
    refine ⟨?_, hbit.1⟩
    rintro rfl
    exact absurd hbit.2 (by decide)
  · exact ⟨fun hi => h0 (by omega), hbit⟩

/-- The state that is updated in the end, as one of two. -/
theorem Effect.updated_ite {a : Aplic} {op : Op} {c : Prop} [Decidable c] {a' : Aplic}
    (h : c → Effect a op (updated (a', []))) : Effect a op (updated (if c then a' else a, [])) := by
  split_ifs with hc
  · exact h hc
  · exact .same ..

theorem effect_clear {a : Aplic} {op : Op} {c : Prop} [Decidable c] (w : Nat) (mask : Word) :
    Effect a op (updated (if c then a.clearPending w mask else (a, []))) := by
  split_ifs
  · exact .clearPending ..
  · exact .same ..

/-- A write of `sourcecfg`. -/
theorem effect_sourcecfg {a : Aplic} {off : Nat} {val : Word} (hoff : within sourcecfgOff 1023 off = true)
    (halign : off % 4 = 0) (hi : (off - sourcecfgOff) / 4 + 1 < sources) :
    Effect a (.write off 4 val) (updated (a.setSourcecfg ((off - sourcecfgOff) / 4 + 1) val, [])) := by
  -- the number of the source is in the offset
  refine .mode fun hmode => ⟨Nat.succ_ne_zero _, hi, val, ?_, hmode⟩
  rw [Nat.add_sub_cancel, offset_of_within hoff rfl halign]

/-- A write of a word of `setie`. -/
theorem effect_setie {a : Aplic} {off : Nat} {val : Word} (hoff : within setieOff 32 off = true) (halign : off % 4 = 0)
    (hw : (off - setieOff) / 4 < words) :
    Effect a (.write off 4 val)
      (updated (a.enable ((off - setieOff) / 4) (if (off - setieOff) / 4 = 0 then val &&& ~~~1 else val), [])) := by
  refine .enable fun i hi => ?_
  obtain ⟨hne, hbit⟩ := names_setie hi
  have hdiv := hi.1
  refine ⟨hne, ?_, val, .inl ⟨?_, hbit⟩⟩
  · simp only [words, sources] at hw ⊢
    omega
  · rw [hdiv, offset_of_within hoff rfl halign]

/-- A write of `setienum`. -/
theorem effect_setienum {a : Aplic} {val : Word} (h : val.toNat < sources ∧ val.toNat ≠ 0) :
    Effect a (.write setienumOff 4 val)
      (updated (a.enable (val.toNat / 32) (BitVec.twoPow 32 (val.toNat % 32)), [])) := by
  refine .enable fun i hi => ?_
  rw [names_twoPow] at hi
  subst hi
  exact ⟨h.2, h.1, val, .inr ⟨rfl, rfl⟩⟩

theorem effect_write (a : Aplic) (off size : Nat) (val : Word) :
    Answers (Effect a (.write off size val)) (a.write off size val) := by
  rw [write]
  refine .ite (fun _ => trivial) fun hsize => ?_
  obtain ⟨rfl, halign⟩ : size = 4 ∧ off % 4 = 0 := by omega
  refine .ite (fun _ => Effect.regs rfl) fun _ => ?_
  refine .ite (fun hoff => Effect.ite (effect_sourcecfg hoff halign) fun _ => .none) fun _ => ?_
  refine .ite (fun _ => Effect.ite (fun _ => .regs rfl) fun _ => .none) fun _ => ?_
  refine .ite (fun _ => Effect.updated_ite fun _ => .setPending ..) fun _ => ?_
  refine .ite (fun _ => effect_clear ..) fun _ => ?_
  refine .ite (fun hoff => Effect.updated_ite (effect_setie hoff halign)) fun _ => ?_
  refine .ite (fun _ => Effect.updated_ite fun _ => .disable ..) fun _ => ?_
  -- the registers that take the number of a source
  change Effect _ _ (updated (if _ then _ else _))
  split
  · exact Effect.updated_ite fun _ => .setPending ..
  split
  · exact effect_clear ..
  split
  · rename_i hoff
    subst hoff
    exact Effect.updated_ite effect_setienum
  split
  · exact Effect.updated_ite fun _ => .disable ..
  -- the registers of the hart's own part
  split_ifs
  all_goals exact .regs rfl

/-- What an operation can do. -/
theorem effect_step (a : Aplic) (op : Op) : Effect a op (a.step op) := by
  cases op with
  | read off size =>
    have h := effect_read a off size
    rw [step]
    split
    · rename_i r heq
      rw [heq] at h
      exact h
    · exact .none
  | write off size val =>
    have h := effect_write a off size val
    rw [step]
    split
    · rename_i r heq
      rw [heq] at h
      exact h
    · exact .none
  | raise source =>
    rw [step, raise]
    split_ifs
    · exact .none
    · exact .setPending ..

/-! ## The writes that matter -/

theorem within_mul {base count k : Nat} (h : k < count) : within base count (base + 4 * k) = true := by
  rw [within, Bool.and_eq_true, decide_eq_true_eq, decide_eq_true_eq]
  omega

theorem step_deactivates {a : Aplic} {op : Op} {i : Nat} (h : op.Deactivates i) :
    ∃ val, modeOf val = smInactive ∧ a.step op = updated (a.setSourcecfg i val, []) := by
  obtain ⟨hne, hi, val, rfl, hmode⟩ := h
  refine ⟨val, hmode, ?_⟩
  have hnum : (sourcecfgOff + 4 * (i - 1) - sourcecfgOff) / 4 + 1 = i := by omega
  have hin : within sourcecfgOff 1023 (sourcecfgOff + 4 * (i - 1)) = true := by
    apply within_mul
    simp only [sources] at hi
    omega
  have halign : ¬((4 : Nat) ≠ 4 ∨ (sourcecfgOff + 4 * (i - 1)) % 4 ≠ 0) := by
    simp only [sourcecfgOff]
    omega
  have hdomain : sourcecfgOff + 4 * (i - 1) ≠ domaincfgOff := by
    simp only [sourcecfgOff, domaincfgOff]
    omega
  rw [step, write, if_neg halign, if_neg hdomain, if_pos hin, hnum]
  dsimp only
  rw [if_pos hi]

/-- A source is enabled whatever its mode. -/
theorem isEnabled_step_of_enables {a : Aplic} {op : Op} {i : Nat} (h : op.Enables i) :
    (a.step op).1.isEnabled i = true ∧ (a.step op).1.sourcecfg = a.sourcecfg := by
  obtain ⟨hne, hi, val, ⟨rfl, hbit⟩ | ⟨rfl, hnum⟩⟩ := h
  · have hw : i / 32 < words := by
      simp only [words, sources] at hi ⊢
      omega
    have hstep : a.step (.write (setieOff + 4 * (i / 32)) 4 val) =
        updated (a.enable (i / 32) (if i / 32 = 0 then val &&& ~~~1 else val), []) := by
      rw [step]
      simp only [words, sources] at hw
      obtain h0 | h0 | h0 | h0 : i / 32 = 0 ∨ i / 32 = 1 ∨ i / 32 = 2 ∨ i / 32 = 3 := by omega
      all_goals
        rw [h0]
        rfl
    rw [hstep]
    refine ⟨?_, rfl⟩
    change (a.enable _ _).isEnabled i = true
    rw [isEnabled_enable, Bool.or_eq_true, decide_eq_true_iff]
    refine .inr ⟨rfl, ?_⟩
    split_ifs with h0
    · have hone : (1 : Word).getLsbD (i % 32) = false := by
        rw [show (1 : Word) = BitVec.twoPow 32 0 from rfl, BitVec.getLsbD_twoPow, Bool.and_eq_false_imp]
        intro _
        exact decide_eq_false (by omega)
      rw [BitVec.getLsbD_and, hbit, Bool.true_and, BitVec.getLsbD_not, hone, Bool.not_false, Bool.and_true]
      exact decide_eq_true (Nat.mod_lt _ (by decide))
    · exact hbit
  · have hstep : a.step (.write setienumOff 4 val) =
        updated (if val.toNat < sources ∧ val.toNat ≠ 0 then a.enable (val.toNat / 32) (BitVec.twoPow 32 (val.toNat % 32))
          else a, []) := rfl
    rw [hstep, hnum, if_pos ⟨hi, hne⟩]
    refine ⟨?_, rfl⟩
    change (a.enable _ _).isEnabled i = true
    rw [isEnabled_enable, Bool.or_eq_true, decide_eq_true_iff]
    exact .inr (names_twoPow.mpr rfl)

/-! ## What the platform hears of -/

/-- The hook is called for a source whose pending bit the operation clears, once, and for no other. -/
def Exact (a : Aplic) (op : Op) : Prop :=
  ∀ i, (a.step op).2.count (.eoi i) = if a.isPending i ∧ ¬(a.step op).1.isPending i then 1 else 0

/-- A source that is pending is made inactive. -/
def Silences (a : Aplic) (op : Op) : Prop := ∃ i, op.Deactivates i ∧ a.isPending i = true

theorem count_updated (r : Aplic × List Call) (i : Nat) : (updated r).2.count (.eoi i) = r.2.count (.eoi i) := by
  have hupdate : r.1.update.count (.eoi i) = 0 := by
    rw [List.count_eq_zero, update]
    split_ifs <;> simp
  rw [updated, List.count_append, hupdate, Nat.add_zero]

theorem count_clearPending {a : Aplic} (h : a.eoi = true) (w : Nat) (mask : Word) (i : Nat) :
    (a.clearPending w mask).2.count (.eoi i) = if a.isPending i ∧ Names w mask i then 1 else 0 := by
  have hcalls : (a.clearPending w mask).2 =
      ((List.range 32).filter (a.pending w &&& mask).getLsbD).map fun b => .eoi (w * 32 + b) := by
    rw [clearPending]
    dsimp only
    rw [if_pos h]
  have hnodup : (a.clearPending w mask).2.Nodup := by
    rw [hcalls]
    refine List.Nodup.map (fun b b' hb => ?_) (List.nodup_range.filter _)
    injection hb
    omega
  have hmem : Call.eoi i ∈ (a.clearPending w mask).2 ↔ a.isPending i ∧ Names w mask i := by
    rw [hcalls, List.mem_map, isPending, BitWalk.bitAt, Names]
    constructor
    · rintro ⟨b, hb, heq⟩
      injection heq with heq
      subst heq
      rw [List.mem_filter, List.mem_range, BitVec.getLsbD_and, Bool.and_eq_true] at hb
      obtain ⟨hlt, hpend, hmask⟩ := hb
      rw [show (w * 32 + b) / 32 = w by omega, show (w * 32 + b) % 32 = b by omega]
      exact ⟨hpend, rfl, hmask⟩
    · rintro ⟨hpend, rfl, hmask⟩
      refine ⟨i % 32, List.mem_filter.mpr ⟨List.mem_range.mpr (Nat.mod_lt _ (by decide)), ?_⟩, ?_⟩
      · rw [BitVec.getLsbD_and, hpend, hmask]
        rfl
      · rw [Nat.div_add_mod']
  rw [hnodup.count]
  simp only [hmem]

/-- Where a pending bit is cleared, by anything but making its source inactive, the hook is called. -/
theorem Effect.exact {a : Aplic} (heoi : a.eoi = true) {op : Op} (h : Effect a op (a.step op)) (hquiet : ¬a.Silences op) :
    a.Exact op := by
  intro i
  -- nothing is called where no pending bit goes
  have hkept {a' : Aplic} (hpend : ∀ i, a.isPending i = true → a'.isPending i = true) :
      (updated (a', [])).2.count (.eoi i) = if a.isPending i ∧ ¬(updated (a', [])).1.isPending i then 1 else 0 := by
    rw [count_updated, if_neg fun hgone => hgone.2 (hpend i hgone.1)]
    rfl
  generalize a.step op = r at h ⊢
  cases h with
  | none => rw [if_neg fun hgone => hgone.2 hgone.1, List.count_nil]
  | regs hsame =>
    refine hkept fun j hj => ?_
    rw [hsame]
    exact hj
  | mode hmode =>
    refine hkept fun j hj => ?_
    rw [(bits_setSourcecfg a _ _ j).1, hj, Bool.true_and, Bool.not_eq_eq_eq_not, Bool.not_true,
      decide_eq_false_iff_not]
    rintro ⟨rfl, hinactive⟩
    exact hquiet ⟨j, hmode hinactive, hj⟩
  | setPending w mask =>
    refine hkept fun j hj => ?_
    rw [isPending_setPending, hj, Bool.true_or]
  | clearPending w mask =>
    rw [count_updated, count_clearPending heoi]
    congr 1
    rw [eq_iff_iff, and_congr_right_iff]
    intro hpend
    change _ ↔ ¬(a.clearPending w mask).1.isPending i = true
    rw [isPending_clearPending, hpend]
    simp
  | enable _ => exact hkept fun j hj => hj
  | disable w mask => exact hkept fun j hj => hj

theorem exact_iff {a : Aplic} (heoi : a.eoi = true) (op : Op) : a.Exact op ↔ ¬a.Silences op := by
  refine ⟨?_, (effect_step a op).exact heoi⟩
  rintro hexact ⟨i, hoff, hpend⟩
  obtain ⟨val, hmode, hstep⟩ := @step_deactivates a op i hoff
  have hi := hexact i
  have hgone : (a.setSourcecfg i val).isPending i = false := by
    rw [(bits_setSourcecfg a i val i).1]
    simp [hmode]
  rw [hstep, count_updated, if_pos ⟨hpend, by change ¬(a.setSourcecfg i val).isPending i = true; rw [hgone]; decide⟩] at hi
  exact absurd hi (by simp)

/-- The hart and the hook stay what they are. -/
theorem Effect.attached {a : Aplic} {op : Op} {r : Aplic × List Call} (h : Effect a op r) :
    r.1.eoi = a.eoi ∧ r.1.hart = a.hart := by
  cases h with
  | none => exact ⟨rfl, rfl⟩
  | regs hsame =>
    rw [updated, hsame]
    exact ⟨rfl, rfl⟩
  | @mode i val _ =>
    change (a.setSourcecfg i val).eoi = a.eoi ∧ (a.setSourcecfg i val).hart = a.hart
    rw [setSourcecfg]
    split_ifs <;> exact ⟨rfl, rfl⟩
  | setPending w mask =>
    change (a.setPending w mask).eoi = a.eoi ∧ (a.setPending w mask).hart = a.hart
    rw [setPending_eq]
    exact ⟨rfl, rfl⟩
  | clearPending w mask => exact ⟨rfl, rfl⟩
  | enable _ => exact ⟨rfl, rfl⟩
  | disable w mask => exact ⟨rfl, rfl⟩

theorem attached_run (r : Aplic × List Call) (ops : List Op) :
    (run r ops).1.eoi = r.1.eoi ∧ (run r ops).1.hart = r.1.hart := by
  induction ops using List.reverseRecOn with
  | nil => exact ⟨rfl, rfl⟩
  | append_singleton ops op ih =>
    rw [run_concat, ← ih.1, ← ih.2]
    exact (effect_step (run r ops).1 op).attached

/-- Along a run with a hook, every pending bit that is cleared comes with one call of the hook, and no other call is made,
exactly if no source is made inactive while it is pending. -/
theorem eoi_exact_iff (r : Aplic × List Call) (h : r.1.eoi = true) (ops : List Op) :
    (∀ pre op, pre ++ [op] <+: ops → (run r pre).1.Exact op) ↔
      ∀ pre op, pre ++ [op] <+: ops → ¬(run r pre).1.Silences op := by
  have hstep : ∀ pre op, (run r pre).1.Exact op ↔ ¬(run r pre).1.Silences op :=
    fun pre op => exact_iff ((attached_run r pre).1.trans h) op
  simp only [hstep]

/-- Source 5 is made active, enabled, raised and claimed. -/
def claimedRun : List Op :=
  [.write (sourcecfgOff + 4 * 4) 4 1, .write setienumOff 4 5, .raise 5, .read (idcOff + claimiOff) 4]

theorem eoi_exact_claimed :
    (boot false true).1.eoi = true ∧
      ((∀ pre op, pre ++ [op] <+: claimedRun → (run (boot false true) pre).1.Exact op) ↔
        ∀ pre op, pre ++ [op] <+: claimedRun → ¬(run (boot false true) pre).1.Silences op) :=
  ⟨rfl, eoi_exact_iff (boot false true) rfl claimedRun⟩

/-- Source 5 is raised and then made inactive: its pending bit is cleared and the hook is not called. -/
theorem deactivated_unheard :
    let a := (run (boot false true) [.write (sourcecfgOff + 4 * 4) 4 1, .raise 5]).1
    let r := a.step (.write (sourcecfgOff + 4 * 4) 4 0)
    a.isPending 5 = true ∧ r.1.isPending 5 = false ∧ r.2.count (.eoi 5) = 0 := by
  decide +kernel

/-! ## The bits of inactive sources, and the line -/

/-- The level the hart was told last. -/
def lastLevel (calls : List Call) : Option Bool :=
  calls.foldl (fun last c =>
    match c with
    | .setIrq _ level => some level
    | .eoi _ => last) none

/-- What should hold after every operation. -/
structure Consistent (r : Aplic × List Call) : Prop where
  inactive : ∀ i < sources, r.1.sourcecfg i &&& 7 = smInactive → r.1.isPending i = false ∧ r.1.isEnabled i = false
  zero : r.1.isPending 0 = false ∧ r.1.isEnabled 0 = false
  level : lastLevel r.2 = some (decide (r.1.domaincfg &&& domaincfgIe ≠ 0 ∧ r.1.idelivery ≠ 0 ∧
    (r.1.topi ≠ 0 ∨ r.1.iforce ≠ 0)))

/-- A source that is not active is enabled. -/
def EnablesInactive (a : Aplic) (op : Op) : Prop := ∃ i, op.Enables i ∧ a.srcActive i = false

/-- No source that is not active, source 0 among them, is pending or enabled. -/
def Clear (a : Aplic) : Prop := ∀ i, a.srcActive i = false → a.isPending i = false ∧ a.isEnabled i = false

theorem srcActive_eq_false {a : Aplic} {i : Nat} :
    a.srcActive i = false ↔ i = 0 ∨ sources ≤ i ∨ a.sourcecfg i &&& 7 = smInactive := by
  rw [srcActive, Bool.and_eq_false_iff, Bool.and_eq_false_iff, decide_eq_false_iff_not, decide_eq_false_iff_not,
    decide_eq_false_iff_not, or_assoc, not_not, not_lt, not_not]

theorem Effect.clear {a : Aplic} {op : Op} {r : Aplic × List Call} (h : Effect a op r) (hclear : a.Clear)
    (hactive : ¬a.EnablesInactive op) : r.1.Clear := by
  cases h with
  | none => exact hclear
  | regs hsame =>
    intro i hi
    rw [updated, hsame] at hi ⊢
    exact hclear i hi
  | @mode i val _ =>
    intro j hj
    change (a.setSourcecfg i val).srcActive j = false at hj
    change (a.setSourcecfg i val).isPending j = false ∧ (a.setSourcecfg i val).isEnabled j = false
    rw [(bits_setSourcecfg a i val j).1, (bits_setSourcecfg a i val j).2]
    rw [srcActive_setSourcecfg] at hj
    split_ifs at hj with hji
    · -- the source itself: inactive now, or one that never is
      by_cases hmode : modeOf val = smInactive
      · simp [hji, hmode]
      · have hnever : a.srcActive j = false := by
          rw [srcActive_eq_false]
          simp only [hmode, Bool.and_eq_false_iff, decide_eq_false_iff_not, ne_eq, not_not, not_false_eq_true,
            decide_true, Bool.true_eq_false, or_false] at hj
          omega
        obtain ⟨hpend, hen⟩ := hclear j hnever
        rw [hpend, hen, Bool.false_and]
        exact ⟨rfl, rfl⟩
    · obtain ⟨hpend, hen⟩ := hclear j hj
      rw [hpend, hen, Bool.false_and]
      exact ⟨rfl, rfl⟩
  | setPending w mask =>
    intro i hi
    change (a.setPending w mask).srcActive i = false at hi
    change (a.setPending w mask).isPending i = false ∧ (a.setPending w mask).isEnabled i = false
    rw [srcActive_setPending] at hi
    rw [isPending_setPending, isEnabled_setPending, hi, Bool.and_false, Bool.or_false]
    exact hclear i hi
  | clearPending w mask =>
    intro i hi
    change (a.clearPending w mask).1.isPending i = false ∧ a.isEnabled i = false
    rw [isPending_clearPending, (hclear i hi).1, Bool.false_and]
    exact ⟨rfl, (hclear i hi).2⟩
  | @enable w mask hnames =>
    intro i hi
    change a.isPending i = false ∧ (a.enable w mask).isEnabled i = false
    rw [isEnabled_enable, (hclear i hi).2, Bool.false_or, decide_eq_false_iff_not]
    exact ⟨(hclear i hi).1, fun hname => hactive ⟨i, hnames i hname, hi⟩⟩
  | disable w mask =>
    intro i hi
    change a.isPending i = false ∧ (a.disable w mask).isEnabled i = false
    rw [isEnabled_disable, (hclear i hi).2, Bool.false_and]
    exact ⟨(hclear i hi).1, rfl⟩

theorem lastLevel_append_update {a : Aplic} (h : a.hart = true) (calls : List Call) :
    lastLevel (calls ++ a.update) = some a.deliver := by
  rw [lastLevel, List.foldl_append, update, if_pos h]
  rfl

/-- The hart is told the level after whatever may change it. -/
theorem Effect.level {a : Aplic} {op : Op} {r : Aplic × List Call} (h : Effect a op r) (hhart : a.hart = true)
    {calls : List Call} (hlevel : lastLevel calls = some a.deliver) : lastLevel (calls ++ r.2) = some r.1.deliver := by
  have hhart' : r.1.hart = true := h.attached.2.trans hhart
  have hupdated (r' : Aplic × List Call) (hr : r = updated r') : lastLevel (calls ++ r.2) = some r.1.deliver := by
    subst hr
    rw [updated, ← List.append_assoc]
    exact lastLevel_append_update hhart' _
  cases h with
  | none => rwa [List.append_nil]
  | regs _ => exact hupdated _ rfl
  | mode _ => exact hupdated _ rfl
  | setPending w mask => exact hupdated _ rfl
  | clearPending w mask => exact hupdated _ rfl
  | enable _ => exact hupdated _ rfl
  | disable w mask => exact hupdated _ rfl

theorem level_run (smode hook : Bool) (ops : List Op) :
    lastLevel (run (boot smode hook) ops).2 = some (run (boot smode hook) ops).1.deliver := by
  induction ops using List.reverseRecOn with
  | nil => rfl
  | append_singleton ops op ih =>
    rw [run_concat]
    exact (effect_step _ op).level ((attached_run _ ops).2.trans rfl) ih

theorem clear_boot (smode hook : Bool) : (boot smode hook).1.Clear := fun i _ => by
  change (0 : Word).getLsbD _ = false ∧ (0 : Word).getLsbD _ = false
  simp

theorem clear_run {smode hook : Bool} {ops : List Op}
    (h : ∀ pre op, pre ++ [op] <+: ops → ¬(run (boot smode hook) pre).1.EnablesInactive op) :
    (run (boot smode hook) ops).1.Clear := by
  induction ops using List.reverseRecOn with
  | nil => exact clear_boot smode hook
  | append_singleton ops op ih =>
    rw [run_concat]
    refine (effect_step _ op).clear (ih fun pre op' hpre => h pre op' ?_) (h ops op (List.prefix_refl _))
    exact hpre.trans (List.prefix_append _ _)

/-- Along a run, inactive sources and source 0 have both bits clear and the hart was last told the level there is, exactly
if no source is enabled while it is inactive. -/
theorem consistent_iff (smode hook : Bool) (ops : List Op) :
    (∀ pre, pre <+: ops → Consistent (run (boot smode hook) pre)) ↔
      ∀ pre op, pre ++ [op] <+: ops → ¬(run (boot smode hook) pre).1.EnablesInactive op := by
  constructor
  · rintro hall pre op hpre ⟨i, hen, hinactive⟩
    obtain ⟨hbit, hcfg⟩ := @isEnabled_step_of_enables (run (boot smode hook) pre).1 op i hen
    have hmode : (run (boot smode hook) pre).1.sourcecfg i &&& 7 = smInactive := by
      obtain ⟨hne, hlt, -⟩ := hen
      rcases srcActive_eq_false.mp hinactive with h0 | hge | hmode
      · exact absurd h0 hne
      · exact absurd hlt (Nat.not_lt.mpr hge)
      · exact hmode
    have hafter := (hall (pre ++ [op]) hpre).inactive i hen.2.1
    rw [run_concat] at hafter
    dsimp only at hafter
    rw [hcfg, hbit] at hafter
    exact absurd (hafter hmode).2 (by decide)
  · intro hnone pre hpre
    have hclear : (run (boot smode hook) pre).1.Clear :=
      clear_run fun pre' op hpre' => hnone pre' op (hpre'.trans hpre)
    refine ⟨fun i _ hmode => hclear i (srcActive_eq_false.mpr (.inr (.inr hmode))),
      hclear 0 (srcActive_eq_false.mpr (.inl rfl)), ?_⟩
    rw [level_run, deliver]
    simp [Bool.and_assoc]

/-- A source can be enabled before it is made active, and is enabled when it is. -/
theorem enabled_inactive :
    let a := (run (boot false true) [.write setienumOff 4 5]).1
    a.sourcecfg 5 &&& 7 = smInactive ∧ a.isEnabled 5 = true ∧
      (a.step (.write (sourcecfgOff + 4 * 4) 4 1)).1.isEnabled 5 = true := by
  decide +kernel

end Emu.Rv.Aplic
