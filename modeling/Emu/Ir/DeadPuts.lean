-- SUMMARY: The dead-put pass: register and pc writes that are overwritten unobserved.
import Emu.Ir.RegTraffic

/-!
# Dead register and pc writes

`pass_dead_puts` walks a block backwards and deletes a `put` that a later `put` to the same register
overwrites with nothing in between that could observe it, and a `setpc` that is overwritten likewise.
A `get` is no observer to the pass. That is sound because `pass_reg_traffic` has left no `get` of a
register whose value the block still has (`NoReload`).
-/

namespace Emu.Ir

open StraightLine

variable {τ σ F : Type}

/-! ## The pass -/

/-- The block from some point on: the registers written again before anything observes them, whether
the pc is, and the counts of deletions. -/
structure PutWalk (τ : Type) where
  insns : List (Insn τ)
  seen : Word → Bool
  pcRewritten : Bool
  putsRemoved : Nat
  setpcsRemoved : Nat

/-- The loop body of `pass_dead_puts`. -/
def deadPutsStep (t : Target σ) (i : Insn τ) (w : PutWalk τ) : PutWalk τ :=
  if i.dead then { w with insns := i :: w.insns }
  else
    match i.op with
    | .put =>
      if i.imm < maxGuestRegs then
        if w.seen i.imm then { w with insns := i.kill :: w.insns, putsRemoved := w.putsRemoved + 1 }
        else { w with insns := i :: w.insns, seen := Function.update w.seen i.imm true }
      else { w with insns := i :: w.insns }
    | .setpc =>
      if w.pcRewritten then { w with insns := i.kill :: w.insns, setpcsRemoved := w.setpcsRemoved + 1 }
      else { w with insns := i :: w.insns, pcRewritten := true }
    -- a read of the register that is the pc
    | .get => { w with insns := i :: w.insns, pcRewritten := w.pcRewritten && t.regOffset i.imm ≠ t.pcOffset }
    -- it writes the pc itself
    | .exit => { w with insns := i :: w.insns, seen := fun _ => false, pcRewritten := true }
    -- taken or not, the pc passes through
    | .exitIf => { w with insns := i :: w.insns, seen := fun _ => false }
    | op =>
      if op.observesState then { w with insns := i :: w.insns, seen := fun _ => false, pcRewritten := false }
      else { w with insns := i :: w.insns }

/-- `pass_dead_puts`. -/
def passDeadPuts (t : Target σ) (is : List (Insn τ)) : PutWalk τ :=
  is.foldr (deadPutsStep t) ⟨[], fun _ => false, false, 0, 0⟩

/-! ## Correctness -/

section Correct

variable [DecidableEq τ] {fp : FloatOps F} {t : Target σ} {pc : Word} {U V K K' : Word → Prop}
variable {i i' : Insn τ} {is is' : List (Insn τ)} {s s' : State τ σ} {g g' : Guest σ} {w : PutWalk τ}
variable {seen seen' : Word → Bool} {pcr pcr' : Bool} {n : Word}

/-- The words in which the two runs may differ: the slots of registers of `K` that are written again,
and the pc where it is. -/
def MayDiffer (t : Target σ) (U K : Word → Prop) (seen : Word → Bool) (pcr : Bool) (off : Word) : Prop :=
  (∃ n, seen n = true ∧ K n ∧ U n ∧ t.regIsZero n = false ∧ off = t.regOffset n) ∨ (pcr = true ∧ off = t.pcOffset)

/-- The guests agree but for words that are written again before they are observed. -/
structure PutsAgree (t : Target σ) (U K : Word → Prop) (seen : Word → Bool) (pcr : Bool) (g g' : Guest σ) :
    Prop where
  retired : g.retired = g'.retired
  trace : g.trace = g'.trace
  rest : g.cpu.rest = g'.cpu.rest
  word : ∀ off, ¬MayDiffer t U K seen pcr off → g.cpu.word off = g'.cpu.word off

theorem PutsAgree.refl : PutsAgree t U K seen pcr g g := ⟨rfl, rfl, rfl, fun _ _ => rfl⟩

theorem PutsAgree.mono (h : PutsAgree t U K seen pcr g g')
    (hsub : ∀ off, MayDiffer t U K seen pcr off → MayDiffer t U K' seen' pcr' off) :
    PutsAgree t U K' seen' pcr' g g' :=
  { h with word := fun off hoff => h.word off fun hd => hoff (hsub off hd) }

/-- With nothing pending the two guests are one. -/
theorem PutsAgree.eq_of_none (h : PutsAgree t U K (fun _ => false) false g g') : g = g' :=
  Guest.ext (Cpu.ext (funext fun off => h.word off (by simp [MayDiffer])) h.rest) h.retired h.trace

/-- The same write on both sides, which settles the word it writes. -/
theorem PutsAgree.set (h : PutsAgree t U K seen pcr g g') {off v : Word}
    (hsub : ∀ x, x ≠ off → MayDiffer t U K seen pcr x → MayDiffer t U K' seen' pcr' x) :
    PutsAgree t U K' seen' pcr' { g with cpu := g.cpu.set off v } { g' with cpu := g'.cpu.set off v } := by
  refine { h with word := fun x hx => ?_ }
  simp only [Cpu.set_word]
  split
  · rfl
  · rename_i hne
    exact h.word x fun hd => hx (hsub x hne hd)

/-- A write that only the original makes, of a word that may differ. -/
theorem PutsAgree.set_left (h : PutsAgree t U K seen pcr g g') {off v : Word}
    (hsub : ∀ x, MayDiffer t U K seen pcr x → MayDiffer t U K' seen' pcr' x)
    (hoff : MayDiffer t U K' seen' pcr' off) :
    PutsAgree t U K' seen' pcr' { g with cpu := g.cpu.set off v } g' := by
  refine { h with word := fun x hx => ?_ }
  have hne : x ≠ off := fun heq => hx (heq ▸ hoff)
  exact (Cpu.set_word_ne hne).trans (h.word x fun hd => hx (hsub x hd))

/-- The flag word is never one of those that differ. -/
theorem not_mayDiffer_flags (hlay : Layout t U V) : ¬MayDiffer t U K seen pcr t.flagsOffset := by
  rintro (⟨n, -, -, hU, hz, heq⟩ | ⟨-, heq⟩)
  · exact hlay.reg_flags n hU hz heq.symm
  · exact hlay.pc_flags heq.symm

/-- Nor is a slot of an FP register. -/
theorem not_mayDiffer_freg (hlay : Layout t U V) {f : Word → Word} (hf : t.fregOffset = some f) {k off : Word}
    (hV : V k) (hoff : off = f k ∨ off = f k + 4) : ¬MayDiffer t U K seen pcr off := by
  obtain ⟨-, hpc, hreg⟩ := hlay.freg f hf k hV off hoff
  rintro (⟨n, -, -, hU, hz, heq⟩ | ⟨-, heq⟩)
  · exact hreg n hU hz heq
  · exact hpc heq

/-- Nor is the slot of a register that is not known, unless it is the pc. -/
theorem not_mayDiffer_reg (hlay : Layout t U V) (hU : U n) (hz : t.regIsZero n = false) (hK : ¬K n)
    (hpc : pcr = true → t.regOffset n ≠ t.pcOffset) : ¬MayDiffer t U K seen pcr (t.regOffset n) := by
  rintro (⟨m, -, hKm, hUm, hzm, heq⟩ | ⟨hp, heq⟩)
  · exact hK (hlay.reg_inj n m hU hUm hz hzm heq ▸ hKm)
  · exact hpc hp heq

/-- An operation that does not observe the state keeps the agreement. -/
theorem effect_putsAgree {op : Op} {aux live : Byte} {imm : Word} {v : Operands} (hlay : Layout t U V)
    (hV : op = .fget ∨ op = .fput → V imm)
    (hget : op = .get → t.regIsZero imm = false → ¬MayDiffer t U K seen pcr (t.regOffset imm))
    (hobs : op.observesState = false) (h : PutsAgree t U K seen pcr g g') :
    SameEffect (PutsAgree t U K seen pcr) (effect fp t pc op aux imm live v g)
      (effect fp t pc op aux imm live v g') := by
  refine .of_unobserved hobs h (fun _ _ => { h with retired := congrArg (· + _) h.retired })
    (fun _ _ hg => hg.set fun _ _ => id) (fun hop hz => h.word _ (hget hop hz)) (fun hop f hf => ?_)
    fun _ => h.word _ (not_mayDiffer_flags hlay)
  have hk : ∀ off, off = f imm ∨ off = f imm + 4 → ¬MayDiffer t U K seen pcr off := fun _ =>
    not_mayDiffer_freg hlay hf (hV (.inl hop))
  exact ⟨h.word _ (hk _ (.inl rfl)), h.word _ (hk _ (.inr rfl))⟩

/-- An instruction that leaves the block settles the pc, so that nothing is pending. -/
theorem PutsAgree.leave {off v : Word} (h : PutsAgree t U K (fun _ => false) pcr g g') (hoff : off = t.pcOffset) :
    ({ g with cpu := g.cpu.set off v } : Guest σ) = { g' with cpu := g'.cpu.set off v } := by
  have hset : PutsAgree t U K (fun _ => false) false { g with cpu := g.cpu.set off v }
      { g' with cpu := g'.cpu.set off v } := h.set ?_
  · exact hset.eq_of_none
  rintro x hx (⟨n, hn, -⟩ | ⟨-, heq⟩)
  · cases hn
  · exact absurd (heq.trans hoff.symm) hx

/-- A `put` that stays. -/
theorem effect_put_kept {aux live : Byte} {imm : Word} {v : Operands}
    (hseen : ∀ n, seen' n = true → n ≠ imm → seen n = true) (h : PutsAgree t U K seen' pcr g g') :
    SameEffect (PutsAgree t U (knownAfter t K (some (.put imm))) seen pcr)
      (effect fp t pc .put aux imm live v g) (effect fp t pc .put aux imm live v g') := by
  refine ⟨?_, rfl⟩
  simp only [put]
  split
  · rename_i hz
    refine h.mono ?_
    rintro off (⟨n, hn, hK, hUn, hzn, rfl⟩ | hp)
    · exact .inl ⟨n, hseen n hn (by rintro rfl; simp [hz] at hzn), .inl hK, hUn, hzn, rfl⟩
    · exact .inr hp
  · refine h.set ?_
    rintro off hoff (⟨n, hn, hK, hUn, hzn, rfl⟩ | hp)
    · exact .inl ⟨n, hseen n hn (by rintro rfl; exact hoff rfl), .inl hK, hUn, hzn, rfl⟩
    · exact .inr hp

/-- A `setpc` that stays. -/
theorem effect_setpc_kept {aux live : Byte} {imm : Word} {v : Operands} (h : PutsAgree t U K seen pcr g g') :
    SameEffect (PutsAgree t U (knownAfter t K (some .pc)) seen pcr')
      (effect fp t pc .setpc aux imm live v g) (effect fp t pc .setpc aux imm live v g') := by
  refine ⟨h.set ?_, rfl⟩
  rintro off hoff (⟨n, hn, hK, hUn, hzn, rfl⟩ | hp)
  · exact .inl ⟨n, hn, ⟨hK, hoff⟩, hUn, hzn, rfl⟩
  · exact absurd hp.2 hoff

theorem exec_put (hd : i.dead = false) (hop : i.op = .put) :
    exec fp t pc i s = .next ⟨{ s.guest with cpu := put t i.imm (i.read s.tmp).av s.guest.cpu }, s.tmp⟩ := by
  rw [exec_live hd, hop]
  cases hdst : i.dst <;> rfl

theorem exec_setpc (hd : i.dead = false) (hop : i.op = .setpc) :
    exec fp t pc i s =
      .next ⟨{ s.guest with cpu := s.guest.cpu.set t.pcOffset ((i.read s.tmp).a.getD i.imm) }, s.tmp⟩ := by
  rw [exec_live hd, hop]
  cases hdst : i.dst <;> rfl

/-- One instruction of the walk: the original and what the pass made of it. -/
theorem exec_deadPutsStep (hlay : Layout t U V) (huse : UsesOnly U V (i :: is))
    (hi' : (deadPutsStep t i w).insns = i' :: is') (hget : ∀ n, i.regMark = some (.get n) → ¬K n)
    (htmp : s.tmp = s'.tmp)
    (h : PutsAgree t U K (deadPutsStep t i w).seen (deadPutsStep t i w).pcRewritten s.guest s'.guest) :
    Step.Rel (fun s s' => PutsAgree t U (knownAfter t K i.regMark) w.seen w.pcRewritten s.guest s'.guest ∧
      s.tmp = s'.tmp) SameStop (exec fp t pc i s) (exec fp t pc i' s') := by
  have huse := huse i (by simp)
  cases hd : i.dead with
  | true =>
    simp only [deadPutsStep, hd, if_true] at hi' h
    cases hi'
    rw [exec_dead hd, exec_dead hd]
    exact ⟨by simpa [Insn.regMark, hd] using h, htmp⟩
  | false =>
    unfold deadPutsStep at hi' h
    rw [if_neg (by simp [hd])] at hi' h
    split at hi' <;> rename_i hop <;> simp only [hop] at h
    · -- a `put`: deleted, kept, or of a register the pass does not track
      have hmark : i.regMark = some (.put i.imm) := by simp [Insn.regMark, hd, hop]
      rw [hmark]
      split at hi' <;> rename_i himm <;> simp only [himm, if_true, if_false] at h
      · split at hi' <;> rename_i hseen <;> simp only [hseen, if_true] at h <;> cases hi'
        · rw [exec_put hd hop, exec_dead rfl]
          refine ⟨?_, htmp⟩
          have hsub : ∀ x, MayDiffer t U K w.seen w.pcRewritten x →
              MayDiffer t U (knownAfter t K (some (.put i.imm))) w.seen w.pcRewritten x := by
            rintro x (⟨n, hn, hK, hUn, hzn, rfl⟩ | hp)
            · exact .inl ⟨n, hn, .inl hK, hUn, hzn, rfl⟩
            · exact .inr hp
          simp only [put]
          split
          · exact h.mono hsub
          · rename_i hz
            have hz : t.regIsZero i.imm = false := by simpa using hz
            exact h.set_left hsub (.inl ⟨i.imm, hseen, .inr ⟨rfl, tracked_iff.mpr ⟨himm, hz⟩⟩,
              huse.1 (.inr hop), hz, rfl⟩)
        · refine SameEffect.exec hd htmp ?_
          rw [hop]
          exact effect_put_kept (fun n hn hne => by simpa [Function.update_apply, hne] using hn) h
      · cases hi'
        refine SameEffect.exec hd htmp ?_
        rw [hop]
        exact effect_put_kept (fun n hn _ => hn) h
    · -- a `setpc`: deleted or kept
      have hmark : i.regMark = some .pc := by simp [Insn.regMark, hd, hop]
      rw [hmark]
      split at hi' <;> rename_i hpcr <;> simp only [hpcr, if_true] at h <;> cases hi'
      · rw [exec_setpc hd hop, exec_dead rfl]
        refine ⟨h.set_left ?_ (.inr ⟨hpcr, rfl⟩), htmp⟩
        rintro x (⟨n, hn, hK, hUn, hzn, rfl⟩ | hp)
        · by_cases hpc : t.regOffset n = t.pcOffset
          · exact .inr ⟨hpcr, hpc⟩
          · exact .inl ⟨n, hn, ⟨hK, hpc⟩, hUn, hzn, rfl⟩
        · exact .inr ⟨hpcr, hp.2⟩
      · refine SameEffect.exec hd htmp ?_
        rw [hop]
        exact effect_setpc_kept h
    · -- a `get` reads a slot on which the two agree
      have hmark : i.regMark = some (.get i.imm) := by simp [Insn.regMark, hd, hop]
      cases hi'
      rw [hmark, knownAfter_get]
      refine SameEffect.exec hd htmp ?_
      have hU := huse.1 (.inl hop)
      have hno : ∀ hz : t.regIsZero i.imm = false, ¬MayDiffer t U K w.seen
          (w.pcRewritten && decide (t.regOffset i.imm ≠ t.pcOffset)) (t.regOffset i.imm) := fun hz =>
        not_mayDiffer_reg hlay hU hz (hget _ hmark) fun hp => by simpa using (Bool.and_eq_true_iff.mp hp).2
      have heff : SameEffect _ (effect fp t pc i.op i.aux i.imm i.live (i.read s.tmp) s.guest) _ :=
        effect_putsAgree hlay huse.2 (fun _ hz => hno hz) (by simp [hop, Op.observesState]) h
      refine heff.mono (fun e e' he => ⟨he.1.mono ?_, he.2⟩) fun _ _ => id
      rintro off (hn | ⟨hp, heq⟩)
      · exact .inl hn
      · exact .inr ⟨(Bool.and_eq_true_iff.mp hp).1, heq⟩
    · -- an `exit` writes the pc, with no register pending
      cases hi'
      refine SameEffect.exec hd htmp ?_
      rw [hop]
      exact ⟨rfl, fun _ => h.leave rfl⟩
    · -- an `exitIf` likewise if it is taken; if not, what is pending stays so
      have hmark : i.regMark = none := by simp [Insn.regMark, hop]
      cases hi'
      refine SameEffect.exec hd htmp ?_
      rw [hmark, hop]
      simp only [effect]
      split
      · exact ⟨rfl, fun _ => h.leave rfl⟩
      · refine ⟨h.mono ?_, rfl⟩
        rintro off (⟨n, hn, -⟩ | hp)
        · cases hn
        · exact .inr hp
    · rename_i hput hsetpc hgetop _
      split at hi' <;> rename_i hobs <;> simp only [hobs, if_true] at h <;> cases hi'
      · -- nothing is pending where the state may be observed
        refine SameEffect.exec hd htmp ?_
        rw [h.eq_of_none]
        exact .of_eq (fun _ => .refl) _
      · have hmark : i.regMark = none := by
          unfold Insn.regMark
          rw [if_neg (by simp [hd])]
          split <;> simp_all [Op.observesState]
        rw [hmark, knownAfter_none]
        exact (effect_putsAgree hlay huse.2 (fun hop => absurd hop hgetop) (by simpa using hobs) h).exec hd htmp

omit [DecidableEq τ] in
theorem deadPutsStep_insns (w : PutWalk τ) :
    ∃ i', (deadPutsStep t i w).insns = i' :: w.insns ∧ (i' = i ∨ (i.op = .put ∨ i.op = .setpc) ∧ i' = i.kill) := by
  unfold deadPutsStep
  split
  · exact ⟨i, rfl, .inl rfl⟩
  · split <;> (try split) <;> (try split) <;> first
      | exact ⟨i, rfl, .inl rfl⟩
      | exact ⟨i.kill, rfl, .inr ⟨by simp_all, rfl⟩⟩

omit [DecidableEq τ] in
/-- The pass only deletes, and only `put`s and `setpc`s. -/
theorem passDeadPuts_forall₂ :
    List.Forall₂ (fun i i' => i' = i ∨ (i.op = .put ∨ i.op = .setpc) ∧ i' = i.kill) is (passDeadPuts t is).insns := by
  induction is with
  | nil => exact .nil
  | cons i is ih =>
    obtain ⟨i', hi', hor⟩ := deadPutsStep_insns (t := t) (i := i) (passDeadPuts t is)
    simp only [passDeadPuts, List.foldr_cons] at hi' ih ⊢
    rw [hi']
    exact .cons hor ih

omit [DecidableEq τ] in
theorem passDeadPuts_scoped {D : τ → Prop} (h : Scoped D is) : Scoped D (passDeadPuts t is).insns := by
  refine h.of_forall₂ (passDeadPuts_forall₂.imp fun i i' hor => ?_)
  rcases hor with rfl | ⟨hop, rfl⟩
  · exact ⟨fun _ => id, fun _ => Iff.rfl⟩
  · refine ⟨fun x hx => absurd hx.1 (by simp), fun x => ⟨fun hx => absurd hx.1 (by simp), fun hx => ?_⟩⟩
    have := hx.2.1
    rcases hop with hop | hop <;> simp [hop, Op.writes] at this

omit [DecidableEq τ] in
theorem passDeadPuts_retireMark : (passDeadPuts t is).insns.map Insn.retireMark = is.map Insn.retireMark := by
  refine map_eq_of_forall₂ (passDeadPuts_forall₂.imp fun i i' hor => ?_)
  rcases hor with rfl | ⟨hop, rfl⟩
  · rfl
  · rcases hop with hop | hop <;> simp [Insn.retireMark, hop, Op.observesState]

omit [DecidableEq τ] in
theorem passDeadPuts_models : interpModels t (passDeadPuts t is).insns = interpModels t is := by
  refine interpModels_of_forall₂ (passDeadPuts_forall₂.imp fun i i' hor => ?_)
  rcases hor with rfl | ⟨hop, rfl⟩
  · rfl
  · rcases hop with hop | hop <;> simp [Insn.modelled, hop]

omit [DecidableEq τ] in
theorem passDeadPuts_accesses : AccessesFrom is (passDeadPuts t is).insns := by
  refine accessesFrom_of_forall₂ (passDeadPuts_forall₂.imp fun i i' hor => ?_)
  rcases hor with rfl | ⟨-, rfl⟩ <;> exact ⟨rfl, rfl⟩

/-- `pass_dead_puts` preserves what the block does, where no register is read back. -/
theorem passDeadPuts_equiv (hlay : Layout t U V) (huse : UsesOnly U V is)
    (hre : NoReload t (fun _ => False) (is.map Insn.regMark)) :
    BlockEquiv fp t pc is (passDeadPuts t is).insns := by
  refine ⟨passDeadPuts_models.symm, fun s => ?_⟩
  refine (run_sim (P := fun is is' s s' => is' = (passDeadPuts t is).insns ∧ UsesOnly U V is ∧
    s.tmp = s'.tmp ∧ ∃ K, NoReload t K (is.map Insn.regMark) ∧
      PutsAgree t U K (passDeadPuts t is).seen (passDeadPuts t is).pcRewritten s.guest s'.guest)
    ?_ ?_ ⟨rfl, huse, rfl, _, hre, .refl⟩).mono ?_ fun _ _ => id
  · rintro is is' s s' ⟨rfl, -⟩
    exact passDeadPuts_forall₂.length_eq
  · rintro i is i' is' s s' ⟨heq, huse, htmp, K, ⟨hget, hre⟩, hag⟩
    obtain ⟨j, hj, -⟩ := deadPutsStep_insns (t := t) (i := i) (passDeadPuts t is)
    have hstep : (deadPutsStep t i (passDeadPuts t is)).insns = i' :: is' := heq.symm
    refine (exec_deadPutsStep hlay huse hstep hget htmp hag).mono_next ?_
    rintro s s' hnext ⟨hag, htmp⟩
    rw [hj] at hstep
    exact ⟨(List.cons.inj hstep).2.symm, fun k hk => huse k (List.mem_cons_of_mem _ hk), htmp, _,
      hre (regMark_ne_leave (leaves_eq_false hnext)), hag⟩
  · rintro s s' ⟨-, -, -, K, -, hag⟩
    exact hag.eq_of_none

end Correct

end Emu.Ir
