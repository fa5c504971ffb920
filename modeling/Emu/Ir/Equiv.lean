-- SUMMARY: When two instruction lists are the same block: agreement on temps, scoping, and equivalence.
import Mathlib
import Emu.Ir.Interp

/-!
# Equivalence of instruction lists

The passes rewrite a block in place: an instruction is changed or marked dead, never moved. Two lists
are equivalent when, from the same state, they stop alike with the same guest; the temps are the
block's own and are not compared. In a block whose temps are all defined before their uses the temps
left over from before do not matter either, which is what carries equivalence through the loop.
-/

namespace Emu.Ir

open StraightLine

variable {τ σ F : Type} [DecidableEq τ] {fp : FloatOps F} {t : Target σ} {pc : Word}
variable {i i' : Insn τ} {is is' js : List (Insn τ)} {s s' : State τ σ} {S D : τ → Prop} {x : τ}

/-! ## One instruction -/

theorem exec_dead (h : i.dead = true) : exec fp t pc i s = .next s := by
  simp [exec, h]

theorem exec_live (h : i.dead = false) :
    exec fp t pc i s =
      finish s.tmp i.dst (effect fp t pc i.op i.aux i.imm i.live (i.read s.tmp) s.guest) := by
  simp [exec, h]

section Effect

variable {op : Op} {aux live : Byte} {imm addr val : Word} {v : Operands} {g g' : Guest σ} {r : Option Word}

omit [DecidableEq τ]

theorem effect_value (h : op.isValue = true) :
    effect fp t pc op aux imm live v g = .next (g, some (value fp t op aux imm v g.cpu)) := by
  cases op <;> first | rfl | cases h

theorem effect_bitop (h : op.isBitop = true) : effect fp t pc op aux imm live v g = effectBitop t op imm v g := by
  cases op <;> first | rfl | cases h

theorem effect_helper (h : op.isHelper = true) : effect fp t pc op aux imm live v g = effectHelper t op imm v g := by
  cases op <;> first | rfl | cases h

/-- A load that goes on has changed nothing but the part of the guest that is not in words. -/
theorem doLoad_next {k : Word → Guest σ → Effect σ} {e : Guest σ × Option Word}
    (h : doLoad t addr aux g k = .next e) :
    ∃ w rest, k w { g.note (.load addr aux) with cpu := { g.cpu with rest } } = .next e := by
  unfold doLoad at h
  split at h
  · cases h
  · split at h
    · cases h
    · exact ⟨_, _, h⟩

theorem doStore_next (h : doStore t addr aux val g = .next (g', r)) : g'.cpu.word = g.cpu.word ∧ r = none := by
  unfold doStore at h
  split at h
  · cases h
  · split at h
    · cases h
    · cases h; exact ⟨rfl, rfl⟩

theorem effectBitop_next (h : effectBitop t op imm v g = .next (g', r)) :
    (∀ off, off ≠ t.flagsOffset → g'.cpu.word off = g.cpu.word off) ∧ r = none := by
  simp only [effectBitop] at h
  obtain ⟨w, rest, hk⟩ := doLoad_next h
  split at hk
  · cases hk
    exact ⟨fun off hoff => Cpu.set_word_ne hoff, rfl⟩
  · obtain ⟨hword, hr⟩ := doStore_next hk
    exact ⟨fun off hoff => by rw [hword]; exact Cpu.set_word_ne hoff, hr⟩

/-- The words of `emu_cpu_t` an operation may write when the block goes on after it. -/
def WritesWord (t : Target σ) (op : Op) (imm off : Word) : Prop :=
  match op with
  | .put => t.regIsZero imm = false ∧ off = t.regOffset imm
  | .fput => ∃ f, t.fregOffset = some f ∧ (off = f imm ∨ off = f imm + 4)
  | .setf | .bitopSet | .bitopClr | .bitopInv | .bitopTst => off = t.flagsOffset
  | .setpc => off = t.pcOffset
  | .helper | .helperTrap => True
  | _ => False

/-- The frame rule: what an operation does not write it leaves alone. -/
theorem effect_frame (h : effect fp t pc op aux imm live v g = .next (g', r)) {off : Word}
    (hoff : ¬WritesWord t op imm off) : g'.cpu.word off = g.cpu.word off := by
  induction op using Op.kindCases with
  | value op hv => rw [effect_value hv] at h; cases h; rfl
  | nop | retire => cases h; rfl
  | put =>
    cases h
    simp only [put]
    split
    · rfl
    · exact Cpu.set_word_ne fun heq => hoff ⟨by simp_all, heq⟩
  | fput =>
    simp only [effect] at h
    split at h
    · cases h
    · rename_i f hf
      cases h
      have hlo : off ≠ f imm := fun heq => hoff ⟨f, hf, .inl heq⟩
      have hhi : off ≠ f imm + 4 := fun heq => hoff ⟨f, hf, .inr heq⟩
      simp only [fput]
      split
      · rw [Cpu.set_word_ne hhi, Cpu.set_word_ne hlo]
      · rw [Cpu.set_word_ne hlo]
  | setf =>
    cases h
    simp only [applyFlags]
    split
    · rfl
    · exact Cpu.set_word_ne hoff
  | setpc => cases h; exact Cpu.set_word_ne hoff
  | exit | fsqrt | fma => cases h
  | exitIf =>
    simp only [effect] at h
    split at h <;> cases h
    rfl
  | load =>
    simp only [effect, effectLoad] at h
    split at h
    · cases h; rfl
    · obtain ⟨w, rest, hk⟩ := doLoad_next h
      cases hk; rfl
  | store =>
    simp only [effect, effectStore] at h
    split at h
    · cases h; rfl
    · rw [(doStore_next h).1]
  | bitop op hb =>
    have hne : off ≠ t.flagsOffset := by cases op <;> simp_all [Op.isBitop, WritesWord]
    exact (effectBitop_next (effect_bitop hb ▸ h)).1 off hne
  | helper op hh => cases op <;> simp_all [Op.isHelper, WritesWord]

/-- An operation gives its temp a result exactly when `op_writes` says so. -/
theorem effect_result (h : effect fp t pc op aux imm live v g = .next (g', r)) : r.isSome = op.writes := by
  induction op using Op.kindCases with
  | value op hv => rw [effect_value hv] at h; cases h; simp [Op.writes_of_isValue hv]
  | nop | retire | put | setf | setpc => cases h; rfl
  | exit | fsqrt | fma => cases h
  | fput | exitIf =>
    simp only [effect] at h
    split at h <;> cases h
    rfl
  | load =>
    simp only [effect, effectLoad] at h
    split at h
    · cases h; rfl
    · obtain ⟨w, rest, hk⟩ := doLoad_next h
      cases hk; rfl
  | store =>
    simp only [effect, effectStore] at h
    split at h
    · cases h; rfl
    · rw [(doStore_next h).2]; rfl
  | bitop op hb =>
    have hw : op.writes = false := by cases op <;> simp_all [Op.isBitop, Op.writes]
    rw [effect_bitop hb] at h
    rw [(effectBitop_next h).2, hw]; rfl
  | helper op hh =>
    have hw : op.writes = true := by cases op <;> simp_all [Op.isHelper, Op.writes]
    rw [effect_helper hh] at h
    simp only [effectHelper] at h
    split at h
    · cases h
    · split at h <;> cases h
      simp [hw]

/-- What a value depends on beside its operands: a register's slots, or the flag word. -/
theorem value_congr {cpu cpu' : Cpu σ}
    (hget : op = .get → t.regIsZero imm = false → cpu.word (t.regOffset imm) = cpu'.word (t.regOffset imm))
    (hfget : op = .fget → ∀ f, t.fregOffset = some f →
      cpu.word (f imm) = cpu'.word (f imm) ∧ cpu.word (f imm + 4) = cpu'.word (f imm + 4))
    (hflags : op = .getcond ∨ op = .select → cpu.word t.flagsOffset = cpu'.word t.flagsOffset) :
    value fp t op aux imm v cpu = value fp t op aux imm v cpu' := by
  unfold value
  split
  · cases hz : t.regIsZero imm with
    | true => rfl
    | false => simpa using hget rfl hz
  · cases hf : t.fregOffset with
    | none => rfl
    | some f =>
      obtain ⟨hlo, hhi⟩ := hfget rfl f hf
      simp only [Option.elim_some, fget, hlo, hhi]
  · rw [hflags (.inl rfl)]
  · rw [hflags (.inr rfl)]
  · rfl

/-- Only `setf` looks at `live`. -/
theorem effect_live (h : op ≠ .setf) (live' : Byte) :
    effect fp t pc op aux imm live v g = effect fp t pc op aux imm live' v g := by
  cases op <;> first | rfl | exact absurd rfl h

end Effect

theorem exec_value (hd : i.dead = false) (hv : i.op.isValue = true) :
    exec fp t pc i s =
      .next ⟨s.guest, writeTmp s.tmp i.dst (some (value fp t i.op i.aux i.imm (i.read s.tmp) s.guest.cpu))⟩ := by
  rw [exec_live hd, effect_value hv]
  rfl

omit [DecidableEq τ] in
theorem Insn.read_congr {f f' : τ → Word} (h : ∀ x ∈ i.operands, f x = f' x) : i.read f = i.read f' := by
  have hmap : ∀ o : Option τ, (∀ x ∈ o, x ∈ i.operands) → o.map f = o.map f' := by
    intro o ho
    cases o with
    | none => rfl
    | some x => simp [h x (ho x rfl)]
  simp only [Insn.read]
  congr 1 <;> exact hmap _ fun x hx => by simp_all [Insn.mem_operands]

/-! ## Where the guest keeps its state -/

/-- The registers of `U` and the FP registers of `V` have slots of their own: distinct from each
other, from the flag word and, but for one register at most, from the pc. -/
structure Layout (t : Target σ) (U V : Word → Prop) : Prop where
  reg_inj : ∀ n m, U n → U m → t.regIsZero n = false → t.regIsZero m = false → t.regOffset n = t.regOffset m → n = m
  reg_flags : ∀ n, U n → t.regIsZero n = false → t.regOffset n ≠ t.flagsOffset
  pc_unique : ∀ n m, n < maxGuestRegs → m < maxGuestRegs → t.regOffset n = t.pcOffset → t.regOffset m = t.pcOffset →
    n = m
  pc_flags : t.pcOffset ≠ t.flagsOffset
  freg : ∀ f, t.fregOffset = some f → ∀ k, V k → ∀ off, off = f k ∨ off = f k + 4 →
    off ≠ t.flagsOffset ∧ off ≠ t.pcOffset ∧ ∀ n, U n → t.regIsZero n = false → off ≠ t.regOffset n

/-- The block reads and writes registers of `U` and FP registers of `V` only. -/
def UsesOnly (U V : Word → Prop) (is : List (Insn τ)) : Prop :=
  ∀ i ∈ is, (i.op = .get ∨ i.op = .put → U i.imm) ∧ (i.op = .fget ∨ i.op = .fput → V i.imm)

/-- An unread `fget` is deleted, and with it the reason to decline a block for want of FP registers:
a target without them is given no block that reads one. -/
def FgetOk (t : Target σ) (is : List (Insn τ)) : Prop := ∀ i ∈ is, i.op = .fget → t.fregOffset.isSome = true

/-- Every register access of `is'` is one of `is`. -/
def AccessesFrom (is is' : List (Insn τ)) : Prop :=
  ∀ i' ∈ is', (i'.op = .get ∨ i'.op = .put ∨ i'.op = .fget ∨ i'.op = .fput) → ∃ i ∈ is, i.op = i'.op ∧ i.imm = i'.imm

omit [DecidableEq τ] in
theorem AccessesFrom.usesOnly {U V : Word → Prop} (h : AccessesFrom is is') (huse : UsesOnly U V is) :
    UsesOnly U V is' := by
  intro i' hi'
  constructor <;> intro hop
  · obtain ⟨i, hi, hop', himm⟩ := h i' hi' (by grind)
    exact himm ▸ (huse i hi).1 (hop' ▸ hop)
  · obtain ⟨i, hi, hop', himm⟩ := h i' hi' (by grind)
    exact himm ▸ (huse i hi).2 (hop' ▸ hop)

omit [DecidableEq τ] in
theorem AccessesFrom.fgetOk (h : AccessesFrom is is') (hok : FgetOk t is) : FgetOk t is' := by
  intro i' hi' hop
  obtain ⟨i, hi, hop', -⟩ := h i' hi' (by grind)
  exact hok i hi (hop'.trans hop)

/-- What merging retirements looks at: a count, a place where the total can be read, or the end. -/
inductive RetireMark where
  | count (n : Word)
  | observe
  | leave

def Insn.retireMark (i : Insn τ) : Option RetireMark :=
  if i.dead then none
  else if i.op = .retire then some (.count (retireCount i.imm))
  else if i.op.observesState then some (if i.op = .exit then .leave else .observe)
  else none

omit [DecidableEq τ] in
/-- A pass that keeps what `f` sees of each instruction keeps it for the list. -/
theorem map_eq_of_forall₂ {β : Type} {f : Insn τ → β} (h : List.Forall₂ (fun i i' => f i' = f i) is is') :
    is'.map f = is.map f := by
  induction h with
  | nil => rfl
  | cons hi _ ih => simp [hi, ih]

omit [DecidableEq τ] in
theorem interpModels_of_forall₂ (h : List.Forall₂ (fun i i' => i'.modelled t = i.modelled t) is is') :
    interpModels t is' = interpModels t is := by
  induction h with
  | nil => rfl
  | cons hi _ ih => simp only [interpModels, List.all_cons, hi] at ih ⊢; rw [ih]

omit [DecidableEq τ] in
theorem interpModels_set {i i' : Insn τ} {k : Nat} (hk : is[k]? = some i) (h : i'.modelled t = i.modelled t) :
    interpModels t (is.set k i') = interpModels t is := by
  induction is generalizing k with
  | nil => simp at hk
  | cons j is ih =>
    cases k with
    | zero => cases hk; simp only [interpModels, List.set_cons_zero, List.all_cons, h]
    | succ k => simpa only [interpModels, List.set_cons_succ, List.all_cons] using congrArg _ (ih (by simpa using hk))

omit [DecidableEq τ] in
theorem accessesFrom_of_forall₂ (h : List.Forall₂ (fun i i' => i.op = i'.op ∧ i.imm = i'.imm) is is') :
    AccessesFrom is is' := by
  intro i' hi' _
  induction h with
  | nil => cases hi'
  | cons hi _ ih =>
    rcases List.mem_cons.mp hi' with rfl | hi'
    · exact ⟨_, by simp, hi⟩
    · obtain ⟨i, hmem, hi⟩ := ih hi'
      exact ⟨i, by simp [hmem], hi⟩

/-! ## Agreement -/

/-- The same guest, and the same values in the temps of `S`. -/
def AgreeOn (S : τ → Prop) (s s' : State τ σ) : Prop := s.guest = s'.guest ∧ ∀ x, S x → s.tmp x = s'.tmp x

/-- The two runs fell off the end in the same guest. -/
def SameEnd (s s' : State τ σ) : Prop := s.guest = s'.guest

/-- The two runs stopped for the same reason and, unless they declined, in the same guest. -/
def SameStop (r r' : Exit × State τ σ) : Prop := r.1 = r'.1 ∧ (r.1 ≠ .declined → r.2.guest = r'.2.guest)

omit [DecidableEq τ] in
theorem same_refl (x : Step (State τ σ) (Exit × State τ σ)) : Step.Rel SameEnd SameStop x x := by
  cases x with
  | next s => exact rfl
  | stop r => exact ⟨rfl, fun _ => rfl⟩

omit [DecidableEq τ] in
theorem same_trans {x y z : Step (State τ σ) (Exit × State τ σ)} (h : Step.Rel SameEnd SameStop x y)
    (h' : Step.Rel SameEnd SameStop y z) : Step.Rel SameEnd SameStop x z :=
  h.comp h' (fun _ _ _ => Eq.trans) fun _ _ _ h h' =>
    ⟨h.1.trans h'.1, fun hne => (h.2 hne).trans (h'.2 (h.1 ▸ hne))⟩

/-- The temp an instruction writes when the block goes on after it. -/
def Insn.Defines (i : Insn τ) (x : τ) : Prop := i.dead = false ∧ i.op.writes = true ∧ i.dst = some x

/-- The temps a live instruction reads. -/
def Insn.Reads (i : Insn τ) (x : τ) : Prop := i.dead = false ∧ x ∈ i.operands

omit [DecidableEq τ] in
theorem AgreeOn.mono (h : AgreeOn S s s') (hsub : ∀ x, D x → S x) : AgreeOn D s s' :=
  ⟨h.1, fun x hx => h.2 x (hsub x hx)⟩

/-- The effects of one operation on two guests: both go on with the same result, in guests that `P`
relates, or both stop alike. -/
def SameEffect (P : Guest σ → Guest σ → Prop) : Effect σ → Effect σ → Prop :=
  Step.Rel (fun e e' => P e.1 e'.1 ∧ e.2 = e'.2)
    fun r r' => r.how = r'.how ∧ (r.how ≠ .declined → r.guest = r'.guest)

omit [DecidableEq τ] in
theorem SameEffect.of_eq {P : Guest σ → Guest σ → Prop} (hP : ∀ g, P g g) (e : Effect σ) : SameEffect P e e := by
  cases e with
  | next e => exact ⟨hP e.1, rfl⟩
  | stop r => exact ⟨rfl, fun _ => rfl⟩

omit [DecidableEq τ] in
/-- An operation that observes nothing does the same to two guests that agree on what it reads, where the
agreement survives the writes it makes on both sides. -/
theorem SameEffect.of_unobserved {P : Guest σ → Guest σ → Prop} {op : Op} {aux live : Byte} {imm : Word}
    {v : Operands} {g g' : Guest σ} (hobs : op.observesState = false) (h : P g g')
    (hretire : op = .retire → ∀ c,
      P { g with retired := g.retired + c } { g' with retired := g'.retired + c })
    (hset : ∀ {g g' : Guest σ} (off w : Word), P g g' →
      P { g with cpu := g.cpu.set off w } { g' with cpu := g'.cpu.set off w })
    (hget : op = .get → t.regIsZero imm = false → g.cpu.word (t.regOffset imm) = g'.cpu.word (t.regOffset imm))
    (hfget : op = .fget → ∀ f, t.fregOffset = some f →
      g.cpu.word (f imm) = g'.cpu.word (f imm) ∧ g.cpu.word (f imm + 4) = g'.cpu.word (f imm + 4))
    (hflags : op = .getcond ∨ op = .select ∨ op = .setf → g.cpu.word t.flagsOffset = g'.cpu.word t.flagsOffset) :
    SameEffect P (effect fp t pc op aux imm live v g) (effect fp t pc op aux imm live v g') := by
  induction op using Op.kindCases with
  | value op hv =>
    rw [effect_value hv, effect_value hv]
    exact ⟨h, congrArg some (value_congr hget hfget fun hop => hflags (hop.imp_right .inl))⟩
  | nop => exact ⟨h, rfl⟩
  | retire => exact ⟨hretire rfl _, rfl⟩
  | put =>
    refine ⟨?_, rfl⟩
    simp only [put]
    split
    · exact h
    · exact hset _ _ h
  | fput =>
    simp only [effect]
    split
    · exact ⟨rfl, fun hne => absurd rfl hne⟩
    · refine ⟨?_, rfl⟩
      simp only [fput]
      split
      · exact hset _ _ (hset _ _ h)
      · exact hset _ _ h
  | setf =>
    refine ⟨?_, rfl⟩
    simp only [applyFlags]
    split
    · exact h
    · rw [hflags (.inr (.inr rfl))]
      exact hset _ _ h
  | setpc => exact ⟨hset _ _ h, rfl⟩
  | exit | exitIf | load | store => cases hobs
  | bitop op hb => cases op <;> cases hb <;> cases hobs
  | helper op hh => cases op <;> cases hh <;> cases hobs
  | fsqrt | fma => exact ⟨rfl, fun hne => absurd rfl hne⟩

theorem SameEffect.exec {P : Guest σ → Guest σ → Prop} (hd : i.dead = false) (htmp : s.tmp = s'.tmp)
    (h : SameEffect P (effect fp t pc i.op i.aux i.imm i.live (i.read s.tmp) s.guest)
      (effect fp t pc i.op i.aux i.imm i.live (i.read s.tmp) s'.guest)) :
    Step.Rel (fun s s' => P s.guest s'.guest ∧ s.tmp = s'.tmp) SameStop (exec fp t pc i s) (exec fp t pc i s') := by
  rw [exec_live hd, exec_live hd, ← htmp]
  cases hx : effect fp t pc i.op i.aux i.imm i.live (i.read s.tmp) s.guest <;>
    cases hy : effect fp t pc i.op i.aux i.imm i.live (i.read s.tmp) s'.guest <;> rw [hx, hy] at h
  · exact ⟨h.1, by rw [h.2]⟩
  · exact h.elim
  · exact h.elim
  · exact h

/-- Nothing behind a live `exit` is executed. -/
theorem leaves_eq_false (h : exec fp t pc i s = .next s') : i.leaves = false := by
  cases hd : i.dead with
  | true => simp [Insn.leaves, hd]
  | false =>
    have hop : i.op ≠ .exit := by
      intro hop
      rw [exec_live hd, hop] at h
      cases h
    simp [Insn.leaves, hop]

/-- A temp changes only where an instruction defines it. -/
theorem exec_tmp (h : exec fp t pc i s = .next s') (hx : ¬i.Defines x) : s'.tmp x = s.tmp x := by
  cases hd : i.dead with
  | true => rw [exec_dead hd] at h; cases h; rfl
  | false =>
    rw [exec_live hd] at h
    cases heff : effect fp t pc i.op i.aux i.imm i.live (i.read s.tmp) s.guest with
    | stop r => rw [heff] at h; cases h
    | next gr =>
      rw [heff] at h
      cases h
      have hwrites := effect_result heff
      simp only [writeTmp_apply]
      split
      · rename_i hdst
        cases hr : gr.2 with
        | none => rfl
        | some r => exact absurd ⟨hd, by simpa [hr] using hwrites.symm, hdst⟩ hx
      · rfl

/-- The words of the guest an instruction does not write stay as they are. -/
theorem exec_frame (h : exec fp t pc i s = .next s') {off : Word} (hoff : ¬WritesWord t i.op i.imm off) :
    s'.guest.cpu.word off = s.guest.cpu.word off := by
  cases hd : i.dead with
  | true => rw [exec_dead hd] at h; cases h; rfl
  | false =>
    rw [exec_live hd] at h
    cases heff : effect fp t pc i.op i.aux i.imm i.live (i.read s.tmp) s.guest with
    | stop r => rw [heff] at h; cases h
    | next gr =>
      rw [heff] at h
      cases h
      exact effect_frame heff hoff

/-- An instruction that finds its operands in agreement does the same on both sides, and adds its
result to what is agreed on. -/
theorem exec_agree (h : AgreeOn S s s') (hops : ∀ x, i.Reads x → S x) :
    Step.Rel (AgreeOn fun x => S x ∨ i.Defines x) SameStop (exec fp t pc i s) (exec fp t pc i s') := by
  cases hd : i.dead with
  | true =>
    rw [exec_dead hd, exec_dead hd]
    exact h.mono fun x hx => by simpa [Insn.Defines, hd] using hx
  | false =>
    rw [exec_live hd, exec_live hd, ← h.1, Insn.read_congr fun x hx => h.2 x (hops x ⟨hd, hx⟩)]
    cases heff : effect fp t pc i.op i.aux i.imm i.live (i.read s'.tmp) s.guest with
    | stop r => exact ⟨rfl, fun _ => rfl⟩
    | next gr =>
      refine ⟨rfl, fun x hx => ?_⟩
      have hwrites := effect_result heff
      simp only [writeTmp_apply]
      -- where the result is written both sides hold it; elsewhere `x` was agreed on before
      by_cases hx' : S x
      · rw [h.2 x hx']
      · have hdef : i.Defines x := hx.resolve_left hx'
        obtain ⟨r, hr⟩ : ∃ r, gr.2 = some r := Option.isSome_iff_exists.mp (hwrites.trans hdef.2.1)
        simp [hdef.2.2, hr]

/-! ## Scoping -/

/-- With the temps of `D` already written, every instruction reads only written temps and writes an
unwritten one: each temp is defined once, before its uses. -/
def Scoped : (τ → Prop) → List (Insn τ) → Prop
  | _, [] => True
  | D, i :: is =>
    (∀ x, i.Reads x → D x) ∧ (∀ x, i.Defines x → ¬D x) ∧ Scoped (fun x => D x ∨ i.Defines x) is

/-- The run of a scoped block does not depend on the temps it has not written. -/
theorem run_agree_of_scoped (hsc : Scoped D is) (h : AgreeOn D s s') :
    Step.Rel SameEnd SameStop (run (exec fp t pc) is s) (run (exec fp t pc) is s') := by
  refine (run_sim (P := fun is is' s s' => is = is' ∧ ∃ D, Scoped D is ∧ AgreeOn D s s')
    (fun _ _ _ _ h => by rw [h.1]) ?_ ⟨rfl, D, hsc, h⟩).mono (fun _ _ h => h.2.choose_spec.2.1) fun _ _ => id
  rintro i is i' is' s s' ⟨heq, D, ⟨hread, -, hrest⟩, hagree⟩
  obtain ⟨rfl, rfl⟩ := List.cons.inj heq
  exact (exec_agree hagree hread).mono (fun _ _ h => ⟨rfl, _, hrest, h⟩) fun _ _ => id

omit [DecidableEq τ] in
/-- Scoping carries over to a list that reads no more and writes the same. -/
theorem Scoped.of_forall₂ (h : Scoped D is)
    (hrel : List.Forall₂ (fun i i' => (∀ x, i'.Reads x → i.Reads x) ∧ ∀ x, i'.Defines x ↔ i.Defines x) is is') :
    Scoped D is' := by
  induction hrel generalizing D with
  | nil => trivial
  | cons hi _ ih =>
    obtain ⟨hread, hdef, hrest⟩ := h
    refine ⟨fun x hx => hread x (hi.1 x hx), fun x hx => hdef x ((hi.2 x).mp hx), ?_⟩
    simpa only [hi.2] using ih hrest

/-! ## Equivalence -/

/-- Two lists that the interpreter models alike and that end alike from every state. -/
structure BlockEquiv (fp : FloatOps F) (t : Target σ) (pc : Word) (is is' : List (Insn τ)) : Prop where
  models : interpModels t is = interpModels t is'
  runs : ∀ s, Step.Rel SameEnd SameStop (run (exec fp t pc) is s) (run (exec fp t pc) is' s)

theorem BlockEquiv.trans (h : BlockEquiv fp t pc is is') (h' : BlockEquiv fp t pc is' js) :
    BlockEquiv fp t pc is js :=
  ⟨h.models.trans h'.models, fun s => same_trans (h.runs s) (h'.runs s)⟩

/-- A walk of two equivalent scoped blocks, from the same guest and any temps. -/
theorem BlockEquiv.runs_of_scoped (h : BlockEquiv fp t pc is is') (hsc : Scoped (fun _ => False) is)
    (hg : s.guest = s'.guest) :
    Step.Rel SameEnd SameStop (run (exec fp t pc) is s) (run (exec fp t pc) is' s') :=
  same_trans (run_agree_of_scoped hsc ⟨hg, fun _ => False.elim⟩) (h.runs s')

/-- Two passes over a block that came to the same, each with temps of its own kind. -/
def Once.Same {υ : Type} : Once τ σ → Once υ σ → Prop
  | .declined, .declined => True
  | .done how g, .done how' g' => how = how' ∧ g = g'
  | .loop s, .loop s' => s.guest = s'.guest
  | _, _ => False

section Loop

variable {υ : Type} [DecidableEq υ] {b : Block τ} {b' : Block υ} {u : State υ σ}

/-- Two blocks whose walks end alike come to the same in one pass. -/
theorem interpOnce_of_runs (hmodels : interpModels t b.insns = interpModels t b'.insns)
    (hrun : Step.Rel (fun s u => s.guest = u.guest)
      (fun r r' => r.1 = r'.1 ∧ (r.1 ≠ .declined → r.2.guest = r'.2.guest))
      (run (exec fp t b.startPc) b.insns s) (run (exec fp t b'.startPc) b'.insns u)) :
    (interpOnce fp t b s).Same (interpOnce fp t b' u) := by
  simp only [interpOnce, ← hmodels]
  cases interpModels t b.insns with
  | false => trivial
  | true =>
    cases hx : run (exec fp t b.startPc) b.insns s <;> cases hy : run (exec fp t b'.startPc) b'.insns u <;>
      rw [hx, hy] at hrun
    · exact ⟨rfl, hrun⟩
    · exact hrun.elim
    · exact hrun.elim
    · rename_i r r'
      obtain ⟨how, s₁⟩ := r
      obtain ⟨how', u₁⟩ := r'
      obtain ⟨rfl, hg⟩ : how = how' ∧ (how ≠ .declined → s₁.guest = u₁.guest) := hrun
      cases how with
      | declined => trivial
      | left | trapped => exact ⟨rfl, hg (by simp)⟩
      | loop => exact hg (by simp)

/-- Two blocks whose passes come to the same make the whole of `emu_ir_interp` come to the same. -/
theorem interpLoop_of_once
    (honce : ∀ (s : State τ σ) (u : State υ σ), s.guest = u.guest →
      (interpOnce fp t b s).Same (interpOnce fp t b' u))
    (fuel : Nat) (hg : s.guest = u.guest) : interpLoop fp t b fuel s = interpLoop fp t b' fuel u := by
  induction fuel generalizing s u with
  | zero => simp [interpLoop, hg]
  | succ fuel ih =>
    have hsame := honce s u hg
    rw [interpLoop, interpLoop]
    revert hsame
    cases interpOnce fp t b s <;> cases interpOnce fp t b' u <;> intro hsame
    case declined.declined => rfl
    case done.done => rw [hsame.1, hsame.2]
    case loop.loop s₁ u₁ =>
      have hg₁ : s₁.guest = u₁.guest := hsame
      simp only [hg₁, ih hg₁]
    all_goals exact hsame.elim

end Loop

/-- Equivalent instructions make the whole of `emu_ir_interp` come to the same. -/
theorem BlockEquiv.interpLoop_eq {b b' : Block τ} (hpc : b'.startPc = b.startPc)
    (h : BlockEquiv fp t b.startPc b.insns b'.insns) (hsc : Scoped (fun _ => False) b.insns) (fuel : Nat)
    (hg : s.guest = s'.guest) : interpLoop fp t b fuel s = interpLoop fp t b' fuel s' := by
  refine interpLoop_of_once (fun s s' hg => interpOnce_of_runs h.models ?_) fuel hg
  rw [hpc]
  exact h.runs_of_scoped hsc hg

end Emu.Ir
