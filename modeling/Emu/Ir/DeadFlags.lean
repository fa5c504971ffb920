-- SUMMARY: The dead-flag pass: its backward walk, what it takes for flags to be covered, and its correctness.
import Mathlib
import Emu.Ir.Equiv

/-!
# Dead flag elimination

`pass_dead_flags` walks a block backwards with the set of flags still wanted and deletes each
`setf` that defines none of them. The walk takes a flag to be wanted by the operations
`op_reads_flags` lists and at the end of the block. An `exit` in the middle is also an end of the
block, and is not on that list: `FlagsCovered` says for a block that this makes no difference.
-/

namespace Emu.Ir

open StraightLine

variable {τ σ F : Type}

/-! ## The pass -/

/-- The block from some point on, with the set of flags live there and the count of deletions. -/
structure FlagWalk (τ : Type) where
  insns : List (Insn τ)
  live : Byte
  flagsRemoved : Nat

/-- The loop body of `pass_dead_flags`. -/
def deadFlagsStep (i : Insn τ) (w : FlagWalk τ) : FlagWalk τ :=
  if i.dead then { w with insns := i :: w.insns }
  else if i.defs ≠ 0 then
    let i' := { i with live := i.defs &&& w.live }
    if i.op = .setf ∧ i'.live = 0 then ⟨i'.kill :: w.insns, w.live, w.flagsRemoved + 1⟩
    else ⟨i' :: w.insns, (w.live &&& ~~~i.defs) ||| i.op.readsFlags, w.flagsRemoved⟩
  else ⟨i :: w.insns, w.live ||| i.op.readsFlags, w.flagsRemoved⟩

/-- `pass_dead_flags`. -/
def passDeadFlags (liveOut : Byte) (is : List (Insn τ)) : FlagWalk τ := is.foldr deadFlagsStep ⟨[], liveOut, 0⟩

/-- The flags that may still be read before a `setf` defines them again: by a flag reader, or where
the block is left. -/
def flagsNeeded : List (Insn τ) → Byte
  | [] => flagAll
  | i :: is =>
    if i.dead then flagsNeeded is
    else
      match i.op with
      | .setf => flagsNeeded is &&& ~~~i.defs
      | .exit => flagAll
      | op => flagsNeeded is ||| op.readsFlags

/-- Every flag a `setf` defines that may still be read is live in the walk of the pass, up to where the
block is left for certain. -/
def FlagsCovered : List (Insn τ) → Prop
  | [] => True
  | i :: is =>
    (i.dead = false ∧ i.op = .setf → i.defs &&& flagsNeeded is &&& ~~~(passDeadFlags flagAll is).live = 0) ∧
      (i.leaves = false → FlagsCovered is)

instance FlagsCovered.decidable : (is : List (Insn τ)) → Decidable (FlagsCovered is)
  | [] => inferInstanceAs (Decidable True)
  | i :: is =>
    have := FlagsCovered.decidable is
    inferInstanceAs (Decidable ((i.dead = false ∧ i.op = .setf →
      i.defs &&& flagsNeeded is &&& ~~~(passDeadFlags flagAll is).live = 0) ∧ (i.leaves = false → FlagsCovered is)))

/-! ## The flag word -/

section Flags

variable {flagBit : Fin 4 → Word} {live live' need : Byte} {val : Fin 4 → Bool} {w w' : Word} {k : Nat} {f : Fin 4}

theorem setFlag_bit : (setFlag flagBit live val w f).getLsbD k =
    if live.getLsbD f ∧ (flagBit f).getLsbD k then val f else w.getLsbD k := by
  by_cases hb : (flagBit f).getLsbD k = true
  · have hk : k < 32 := BitVec.lt_of_getLsbD hb
    have hne : flagBit f ≠ 0#32 := by rintro h; simp [h] at hb
    by_cases hl : live.getLsbD f = true <;> cases hv : val f <;>
      simp [setFlag, hl, hv, hb, hne, BitVec.getLsbD_or, BitVec.getLsbD_and]
  · simp only [Bool.not_eq_true] at hb
    have hand : (w &&& ~~~flagBit f).getLsbD k = w.getLsbD k := by
      by_cases hk : k < 32
      · simp only [BitVec.getLsbD_and, BitVec.getLsbD_not, hk, hb, decide_true, Bool.not_false, Bool.and_self,
          Bool.and_true]
      · rw [BitVec.getLsbD_of_ge _ _ (by omega), BitVec.getLsbD_of_ge _ _ (by omega)]
    simp only [setFlag, hb, Bool.false_eq_true, and_false, if_false]
    split
    · split
      · simp only [BitVec.getLsbD_or, hand, hb, Bool.or_false]
      · exact hand
    · rfl

/-- Two runs of the flag loop agree on bit `k` when they write the same of the flags it belongs to,
and either agree on it before or write one of those flags. -/
theorem foldl_setFlag_bit {fs : List (Fin 4)}
    (hlive : ∀ f ∈ fs, (flagBit f).getLsbD k = true → live.getLsbD f = live'.getLsbD f)
    (hbit : w.getLsbD k = w'.getLsbD k ∨ ∃ f ∈ fs, live.getLsbD f = true ∧ (flagBit f).getLsbD k = true) :
    (fs.foldl (setFlag flagBit live val) w).getLsbD k = (fs.foldl (setFlag flagBit live' val) w').getLsbD k := by
  induction fs generalizing w w' with
  | nil => simpa using hbit
  | cons f fs ih =>
    refine ih (fun f' hf' => hlive f' (List.mem_cons_of_mem _ hf')) ?_
    rw [setFlag_bit, setFlag_bit]
    by_cases hb : (flagBit f).getLsbD k = true
    · rw [← hlive f (by simp) hb]
      by_cases hl : live.getLsbD f = true
      · simp [hl, hb]
      · simp only [hl, hb]
        simpa [hl] using hbit
    · simpa [hb] using hbit

/-- The flag words agree but for the bits of flags that are not needed. -/
def FlagsAgree (flagBit : Fin 4 → Word) (need : Byte) (w w' : Word) : Prop :=
  ∀ k, (∀ f : Fin 4, need.getLsbD f = false → (flagBit f).getLsbD k = false) → w.getLsbD k = w'.getLsbD k

theorem FlagsAgree.refl : FlagsAgree flagBit need w w := fun _ _ => rfl

theorem FlagsAgree.mono (h : FlagsAgree flagBit need w w')
    (hsub : ∀ f : Fin 4, live'.getLsbD f = true → need.getLsbD f = true) : FlagsAgree flagBit live' w w' :=
  fun k hk => h k fun f hf => hk f (by by_contra hl; simp [hsub f (by simpa using hl)] at hf)

theorem FlagsAgree.eq_of_all (h : FlagsAgree flagBit need w w') (hall : ∀ f : Fin 4, need.getLsbD f = true) :
    w = w' :=
  BitVec.eq_of_getLsbD_eq fun k _ => h k fun f hf => by simp [hall f] at hf

/-- A `setf` brings back into agreement the flags that both sides write, provided what is needed of
its definition is. -/
theorem FlagsAgree.setFlags {defs : Byte} (h : FlagsAgree flagBit (need &&& ~~~defs) w w')
    (hcov : ∀ f : Fin 4, defs.getLsbD f = true → need.getLsbD f = true → live'.getLsbD f = true) :
    FlagsAgree flagBit need (setFlags flagBit defs val w) (setFlags flagBit (defs &&& live') val w') := by
  intro k hk
  have hneed : ∀ f : Fin 4, (flagBit f).getLsbD k = true → need.getLsbD f = true := by
    intro f hb
    by_contra hf
    simp [hk f (by simpa using hf)] at hb
  refine foldl_setFlag_bit (fun f _ hb => ?_) ?_
  · cases hd : defs.getLsbD f with
    | false => simp [hd]
    | true => simp [hd, hcov f hd (hneed f hb)]
  · by_cases hex : ∃ f : Fin 4, defs.getLsbD f = true ∧ (flagBit f).getLsbD k = true
    · obtain ⟨f, hf⟩ := hex
      exact .inr ⟨f, by simp, hf⟩
    · refine .inl (h k fun f hf => ?_)
      by_contra hb
      simp only [Bool.not_eq_false] at hb
      have hd : defs.getLsbD f = false := by
        by_contra hd
        exact hex ⟨f, by simpa using hd, hb⟩
      have hf8 : (f : Nat) < 8 := by omega
      rw [BitVec.getLsbD_and, BitVec.getLsbD_not, hneed f hb, hd] at hf
      simp [hf8] at hf

end Flags

/-! ## Correctness -/

section Correct

variable [DecidableEq τ] {fp : FloatOps F} {t : Target σ} {pc : Word} {U V : Word → Prop}
variable {i : Insn τ} {is : List (Insn τ)} {s s' : State τ σ} {g g' : Guest σ} {need need' : Byte}

/-- The guests agree but for flags that are not needed. -/
structure GuestFlags (t : Target σ) (need : Byte) (g g' : Guest σ) : Prop where
  retired : g.retired = g'.retired
  trace : g.trace = g'.trace
  rest : g.cpu.rest = g'.cpu.rest
  word : ∀ off, off ≠ t.flagsOffset → g.cpu.word off = g'.cpu.word off
  flags : FlagsAgree t.flagBit need (g.cpu.word t.flagsOffset) (g'.cpu.word t.flagsOffset)

omit [DecidableEq τ] in
theorem GuestFlags.eq_of_all (h : GuestFlags t need g g') (hall : ∀ f : Fin 4, need.getLsbD f = true) : g = g' := by
  refine Guest.ext (Cpu.ext (funext fun off => ?_) h.rest) h.retired h.trace
  by_cases hoff : off = t.flagsOffset
  · subst hoff; exact h.flags.eq_of_all hall
  · exact h.word off hoff

omit [DecidableEq τ] in
theorem GuestFlags.mono (h : GuestFlags t need g g')
    (hsub : ∀ f : Fin 4, need'.getLsbD f = true → need.getLsbD f = true) : GuestFlags t need' g g' :=
  { h with flags := h.flags.mono hsub }

omit [DecidableEq τ] in
/-- The same write on both sides keeps the agreement. -/
theorem GuestFlags.set (h : GuestFlags t need g g') (off v : Word) :
    GuestFlags t need { g with cpu := g.cpu.set off v } { g' with cpu := g'.cpu.set off v } := by
  refine { h with word := fun x hx => ?_, flags := ?_ }
  · simp only [Cpu.set_word, h.word x hx]
  · simp only [Cpu.set_word]
    split
    · exact .refl
    · exact h.flags

omit [DecidableEq τ] in
theorem applyFlags_word {aux live : Byte} {v : Operands} {cpu : Cpu σ} {off : Word} :
    (applyFlags t aux live v cpu).word off =
      if off = t.flagsOffset then
        setFlags t.flagBit live (flagVals (FlagSrc.ofAux aux) v.av v.bv) (cpu.word t.flagsOffset)
      else cpu.word off := by
  by_cases hl : live = 0
  · subst hl
    have hzero : ∀ (val : Fin 4 → Bool) (w : Word) (fs : List (Fin 4)),
        fs.foldl (setFlag t.flagBit 0 val) w = w := by
      intro val w fs
      induction fs with
      | nil => rfl
      | cons f fs ih => simpa [setFlag] using ih
    simp only [applyFlags, if_true, setFlags, hzero]
    split
    · simp_all
    · rfl
  · simp only [applyFlags, if_neg hl, Cpu.set_word]

omit [DecidableEq τ] in
theorem applyFlags_rest {aux live : Byte} {v : Operands} {cpu : Cpu σ} :
    (applyFlags t aux live v cpu).rest = cpu.rest := by
  unfold applyFlags; split <;> rfl

omit [DecidableEq τ] in
theorem applyFlags_zero {aux : Byte} {v : Operands} {cpu : Cpu σ} : applyFlags t aux 0 v cpu = cpu := rfl

theorem exec_setf (hd : i.dead = false) (hop : i.op = .setf) :
    exec fp t pc i s =
      .next ⟨{ s.guest with cpu := applyFlags t i.aux i.live (i.read s.tmp) s.guest.cpu }, s.tmp⟩ := by
  rw [exec_live hd, hop]
  cases hdst : i.dst <;> rfl

/-- What the walk of the pass leaves of a `setf`: it writes the flags it defines that are live. -/
theorem exec_deadFlagsStep_setf {w : FlagWalk τ} {i' : Insn τ} {is' : List (Insn τ)} (hd : i.dead = false)
    (hop : i.op = .setf) (hlive : i.live = i.defs) (h : (deadFlagsStep i w).insns = i' :: is') :
    exec fp t pc i' s = .next
      ⟨{ s.guest with cpu := applyFlags t i.aux (i.defs &&& w.live) (i.read s.tmp) s.guest.cpu }, s.tmp⟩ := by
  simp only [deadFlagsStep] at h
  rw [if_neg (by simp [hd])] at h
  split at h
  · split at h
    · rename_i hzero
      cases h
      rw [exec_dead rfl, hzero.2, applyFlags_zero]
    · cases h
      exact exec_setf hd hop
  · rename_i hzero
    cases h
    simp only [ne_eq, not_not] at hzero
    rw [exec_setf hd hop, hlive, hzero]
    simp

/-- The other instructions are left as they are, but for a field that they do not look at. -/
theorem exec_deadFlagsStep {w : FlagWalk τ} {i' : Insn τ} {is' : List (Insn τ)} (hop : i.op ≠ .setf)
    (h : (deadFlagsStep i w).insns = i' :: is') : exec fp t pc i' s = exec fp t pc i s := by
  simp only [deadFlagsStep, hop, false_and, if_false] at h
  split at h
  · cases h; rfl
  · split at h
    · cases h
      simp only [exec, effect_live hop i.live]
      rfl
    · cases h; rfl

theorem flagAll_bit (f : Fin 4) : flagAll.getLsbD f = true := by
  revert f; decide

omit [DecidableEq τ] in
/-- Where the block can be left or the flags are read, all of them are needed. -/
theorem flagsNeeded_all (hd : i.dead = false) (h : i.op = .exit ∨ i.op.readsFlags = flagAll) (f : Fin 4) :
    (flagsNeeded (i :: is)).getLsbD f = true := by
  simp only [flagsNeeded, hd, Bool.false_eq_true, if_false]
  split
  · rename_i hop
    rw [hop] at h
    exact absurd h (by decide)
  · exact flagAll_bit f
  · rename_i hne
    rw [h.resolve_left hne, BitVec.getLsbD_or, flagAll_bit f, Bool.or_true]

omit [DecidableEq τ] in
theorem flagsNeeded_mono (hop : i.op ≠ .setf) (f : Fin 4) (h : (flagsNeeded is).getLsbD f = true) :
    (flagsNeeded (i :: is)).getLsbD f = true := by
  simp only [flagsNeeded]
  split
  · exact h
  · split
    · contradiction
    · exact flagAll_bit f
    · rw [BitVec.getLsbD_or, h, Bool.true_or]

omit [DecidableEq τ] in
/-- An operation that neither reads nor writes flags keeps the agreement on them. -/
theorem effect_guestFlags {op : Op} {aux live : Byte} {imm : Word} {v : Operands} (hlay : Layout t U V)
    (hU : op = .get ∨ op = .put → U imm) (hV : op = .fget ∨ op = .fput → V imm) (hset : op ≠ .setf)
    (hexit : op ≠ .exit) (hreads : op.readsFlags = 0) (h : GuestFlags t need g g') :
    SameEffect (GuestFlags t need) (effect fp t pc op aux imm live v g) (effect fp t pc op aux imm live v g') := by
  have hobs : op.observesState = false := by
    cases op <;> first | rfl | exact absurd rfl hexit | exact absurd hreads (by decide)
  refine .of_unobserved hobs h (fun _ _ => { h with retired := congrArg (· + _) h.retired })
    (fun off w hg => hg.set off w) (fun hop hz => ?_) (fun hop f hf => ?_) fun hop => ?_
  · exact h.word _ (hlay.reg_flags _ (hU (.inl hop)) hz)
  · have hk := hlay.freg f hf imm (hV (.inl hop))
    exact ⟨h.word _ (hk _ (.inl rfl)).1, h.word _ (hk _ (.inr rfl)).1⟩
  · rcases hop with rfl | rfl | rfl
    · exact absurd hreads (by decide)
    · exact absurd hreads (by decide)
    · exact absurd rfl hset

theorem exec_setf_guestFlags {w : FlagWalk τ} {i' : Insn τ} {is' : List (Insn τ)} (hd : i.dead = false)
    (hop : i.op = .setf) (hlive : i.live = i.defs) (hi' : (deadFlagsStep i w).insns = i' :: is')
    (hcov : i.defs &&& flagsNeeded is &&& ~~~w.live = 0) (htmp : s.tmp = s'.tmp)
    (h : GuestFlags t (flagsNeeded (i :: is)) s.guest s'.guest) :
    Step.Rel (fun s s' => GuestFlags t (flagsNeeded is) s.guest s'.guest ∧ s.tmp = s'.tmp) SameStop
      (exec fp t pc i s) (exec fp t pc i' s') := by
  rw [exec_setf hd hop, exec_deadFlagsStep_setf hd hop hlive hi', hlive, htmp]
  have hneed : flagsNeeded (i :: is) = flagsNeeded is &&& ~~~i.defs := by simp [flagsNeeded, hd, hop]
  refine ⟨{ h with rest := ?_, word := fun off hoff => ?_, flags := ?_ }, rfl⟩
  · simp only [applyFlags_rest, h.rest]
  · simp only [applyFlags_word, if_neg hoff, h.word off hoff]
  · simp only [applyFlags_word, if_true]
    refine (hneed ▸ h.flags).setFlags fun f hf hn => ?_
    have hbit := congrArg (fun x : Byte => x.getLsbD f) hcov
    simp only [BitVec.getLsbD_and, BitVec.getLsbD_not, hf, hn] at hbit
    have hf8 : (f : Nat) < 8 := by omega
    simpa [hf8] using hbit

/-- One instruction of the walk: the original and what the pass made of it. -/
theorem exec_deadFlagsStep_sim {w : FlagWalk τ} {i' : Insn τ} {is' : List (Insn τ)} (hlay : Layout t U V)
    (huse : UsesOnly U V (i :: is)) (hlive : i.live = i.defs) (hi' : (deadFlagsStep i w).insns = i' :: is')
    (hcov : i.dead = false ∧ i.op = .setf → i.defs &&& flagsNeeded is &&& ~~~w.live = 0) (htmp : s.tmp = s'.tmp)
    (h : GuestFlags t (flagsNeeded (i :: is)) s.guest s'.guest) :
    Step.Rel (fun s s' => GuestFlags t (flagsNeeded is) s.guest s'.guest ∧ s.tmp = s'.tmp) SameStop
      (exec fp t pc i s) (exec fp t pc i' s') := by
  by_cases hop : i.op = .setf
  · cases hd : i.dead with
    | false => exact exec_setf_guestFlags hd hop hlive hi' (hcov ⟨hd, hop⟩) htmp h
    | true =>
      simp only [deadFlagsStep, hd, if_true] at hi'
      cases hi'
      rw [exec_dead hd, exec_dead hd]
      exact ⟨by simpa [flagsNeeded, hd] using h, htmp⟩
  rw [exec_deadFlagsStep hop hi']
  cases hd : i.dead with
  | true =>
    rw [exec_dead hd, exec_dead hd]
    exact ⟨by simpa [flagsNeeded, hd] using h, htmp⟩
  | false =>
    by_cases hread : i.op = .exit ∨ i.op.readsFlags = flagAll
    · -- the flags agree in full, so the two states are one
      have hs : s = s' := by
        cases s; cases s'
        simp only [State.mk.injEq]
        exact ⟨h.eq_of_all (flagsNeeded_all hd hread), htmp⟩
      subst hs
      cases exec fp t pc i s with
      | next s₁ => exact ⟨⟨rfl, rfl, rfl, fun _ _ => rfl, .refl⟩, rfl⟩
      | stop r => exact ⟨rfl, fun _ => rfl⟩
    · have hzero : i.op.readsFlags = 0 := by
        have : i.op.readsFlags = flagAll ∨ i.op.readsFlags = 0 := by cases i.op <;> first | exact .inl rfl | exact .inr rfl
        tauto
      have huse := huse i (by simp)
      exact (effect_guestFlags hlay huse.1 huse.2 hop (fun h => hread (.inl h)) hzero
        (h.mono (flagsNeeded_mono hop))).exec hd htmp

omit [DecidableEq τ] in
theorem deadFlagsStep_insns (w : FlagWalk τ) :
    ∃ i', (deadFlagsStep i w).insns = i' :: w.insns ∧ i' = { i with live := i'.live, dead := i'.dead } ∧
      (i'.dead = i.dead ∨ i.op = .setf ∧ i'.dead = true) := by
  simp only [deadFlagsStep]
  split
  · exact ⟨i, rfl, rfl, .inl rfl⟩
  · split
    · split
      · rename_i hset
        exact ⟨_, rfl, rfl, .inr ⟨hset.1, rfl⟩⟩
      · exact ⟨_, rfl, rfl, .inl rfl⟩
    · exact ⟨i, rfl, rfl, .inl rfl⟩

omit [DecidableEq τ] in
/-- The pass narrows `live`, and deletes `setf`s. -/
theorem passDeadFlags_forall₂ {liveOut : Byte} :
    List.Forall₂ (fun i i' => i' = { i with live := i'.live, dead := i'.dead } ∧
      (i'.dead = i.dead ∨ i.op = .setf ∧ i'.dead = true)) is (passDeadFlags liveOut is).insns := by
  induction is with
  | nil => exact .nil
  | cons i is ih =>
    obtain ⟨i', hi', h⟩ := deadFlagsStep_insns (i := i) (passDeadFlags liveOut is)
    simp only [passDeadFlags, List.foldr_cons] at hi' ih ⊢
    rw [hi']
    exact .cons h ih

omit [DecidableEq τ] in
theorem passDeadFlags_scoped {D : τ → Prop} {liveOut : Byte} (h : Scoped D is) :
    Scoped D (passDeadFlags liveOut is).insns := by
  refine h.of_forall₂ (passDeadFlags_forall₂.imp fun i i' ⟨heq, hdead⟩ => ?_)
  rw [heq]
  rcases hdead with hdead | ⟨hop, hdead⟩
  · simp [Insn.Reads, Insn.Defines, Insn.operands, hdead]
  · simp [Insn.Reads, Insn.Defines, Insn.operands, hdead, hop, Op.writes]

omit [DecidableEq τ] in
theorem passDeadFlags_accesses {liveOut : Byte} : AccessesFrom is (passDeadFlags liveOut is).insns :=
  accessesFrom_of_forall₂ (passDeadFlags_forall₂.imp fun i i' h => by rw [h.1]; exact ⟨rfl, rfl⟩)

omit [DecidableEq τ] in
theorem passDeadFlags_retireMark {liveOut : Byte} :
    (passDeadFlags liveOut is).insns.map Insn.retireMark = is.map Insn.retireMark := by
  refine map_eq_of_forall₂ (passDeadFlags_forall₂.imp fun i i' ⟨heq, hdead⟩ => ?_)
  rw [heq]
  rcases hdead with hdead | ⟨hop, hdead⟩
  · simp [Insn.retireMark, hdead]
  · simp [Insn.retireMark, hdead, hop, Op.observesState]

omit [DecidableEq τ] in
theorem passDeadFlags_models {liveOut : Byte} :
    interpModels t (passDeadFlags liveOut is).insns = interpModels t is := by
  refine interpModels_of_forall₂ (passDeadFlags_forall₂.imp fun i i' ⟨heq, hdead⟩ => ?_)
  rw [heq]
  rcases hdead with hdead | ⟨hop, hdead⟩
  · simp [Insn.modelled, hdead]
  · simp [Insn.modelled, hdead, hop]

/-- `pass_dead_flags` preserves what the block does, in a block whose flags it covers. -/
theorem passDeadFlags_equiv (hlay : Layout t U V) (huse : UsesOnly U V is) (hlive : ∀ i ∈ is, i.live = i.defs)
    (hcov : FlagsCovered is) : BlockEquiv fp t pc is (passDeadFlags flagAll is).insns := by
  constructor
  · exact passDeadFlags_models.symm
  · intro s
    refine (run_sim (P := fun is is' s s' => is' = (passDeadFlags flagAll is).insns ∧ UsesOnly U V is ∧
      (∀ i ∈ is, i.live = i.defs) ∧ FlagsCovered is ∧ GuestFlags t (flagsNeeded is) s.guest s'.guest ∧
      s.tmp = s'.tmp) (fun is is' s s' h => ?_) ?_ ⟨rfl, huse, hlive, hcov, ⟨rfl, rfl, rfl, fun _ _ => rfl, .refl⟩, rfl⟩).mono
      ?_ fun _ _ => id
    · rw [h.1]; exact passDeadFlags_forall₂.length_eq
    · rintro i is i' is' s s' ⟨heq, huse, hlive, hcov, hg, htmp⟩
      obtain ⟨j, hj, -⟩ := deadFlagsStep_insns (i := i) (passDeadFlags flagAll is)
      have hstep : (deadFlagsStep i (passDeadFlags flagAll is)).insns = i' :: is' := heq.symm
      refine (exec_deadFlagsStep_sim hlay huse (hlive i (by simp)) hstep hcov.1 htmp hg).mono_next ?_
      rintro s s' hnext ⟨hg, htmp⟩
      rw [hj] at hstep
      exact ⟨(List.cons.inj hstep).2.symm, fun k hk => huse k (List.mem_cons_of_mem _ hk),
        fun k hk => hlive k (List.mem_cons_of_mem _ hk), hcov.2 (leaves_eq_false hnext), hg, htmp⟩
    · rintro s s' ⟨-, -, -, -, hg, -⟩
      exact hg.eq_of_all flagAll_bit

end Correct

end Emu.Ir
