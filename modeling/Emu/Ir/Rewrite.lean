-- SUMMARY: Fusing an instruction with the single definition that feeds it: the general rewrite and its correctness.
import Emu.Ir.RegTraffic

/-!
# Fusing two instructions into one

The fusions of `pass_fuse` and `pass_mac` have one shape: an instruction reads a temp that nothing
else reads, and is rewritten to do the work of the temp's definition itself, which is then deleted.
Each temp being written once and before its uses, the definition's equation still holds at the use.
-/

namespace Emu.Ir

open StraightLine

variable {τ σ F : Type} [DecidableEq τ]

/-! ## How often a temp is read -/

/-- The number of operands of a live instruction that are `x`. -/
def Insn.readCount (i : Insn τ) (x : τ) : Nat := if i.dead then 0 else i.operands.count x

/-- The number of reads of `x` in the block. -/
def readCount (is : List (Insn τ)) (x : τ) : Nat := (is.map (·.readCount x)).sum

section

variable {fp : FloatOps F} {t : Target σ} {pc : Word} {D : τ → Prop} {x y : τ}
variable {i i' src : Insn τ} {is is' pre mid post : List (Insn τ)} {s s' : State τ σ}

theorem Insn.reads_iff : i.Reads x ↔ 0 < i.readCount x := by
  unfold Insn.readCount Insn.Reads
  split <;> simp_all

@[simp] theorem readCount_nil : readCount ([] : List (Insn τ)) x = 0 := rfl

@[simp] theorem readCount_cons : readCount (i :: is) x = i.readCount x + readCount is x := by
  simp [readCount]

@[simp] theorem readCount_append : readCount (is ++ is') x = readCount is x + readCount is' x := by
  simp [readCount]

@[simp] theorem Insn.readCount_kill : i.kill.readCount x = 0 := by
  simp [Insn.readCount]

theorem not_reads_of_readCount (h : readCount is x = 0) : ∀ i ∈ is, ¬i.Reads x := by
  induction is with
  | nil => simp
  | cons i is ih =>
    rw [readCount_cons] at h
    intro j hj
    rcases List.mem_cons.mp hj with rfl | hj
    · rw [Insn.reads_iff]; omega
    · exact ih (by omega) j hj

theorem readCount_le_of_mem (h : i ∈ is) : i.readCount x ≤ readCount is x := by
  obtain ⟨pre, post, rfl⟩ := List.append_of_mem h
  simp only [readCount_append, readCount_cons]
  omega

/-! ## Arithmetic -/

/-- The operations whose result depends on their operands and immediate alone. -/
def Op.isAlu : Op → Bool
  | .get | .fget | .getcond | .select => false
  | op => op.isValue

theorem Op.isValue_of_isAlu {op : Op} (h : op.isAlu = true) : op.isValue = true := by
  cases op <;> first | rfl | cases h

theorem value_of_isAlu {op : Op} {aux : Byte} {imm : Word} {v : Operands} {cpu : Cpu σ} (h : op.isAlu = true) :
    value fp t op aux imm v cpu = alu fp op aux imm v.av v.bv v.cv := by
  cases op <;> first | rfl | cases h

/-! ## Runs of a scoped block -/

/-- The temps written once `is` has run. -/
def DefinedBy (D : τ → Prop) (is : List (Insn τ)) (x : τ) : Prop := D x ∨ ∃ i ∈ is, i.Defines x

omit [DecidableEq τ] in
theorem scoped_append : Scoped D (is ++ is') ↔ Scoped D is ∧ Scoped (DefinedBy D is) is' := by
  induction is generalizing D with
  | nil =>
    have hD : DefinedBy D [] = D := by funext x; simp [DefinedBy]
    simp [Scoped, hD]
  | cons i is ih =>
    have hD : DefinedBy (fun x => D x ∨ i.Defines x) is = DefinedBy D (i :: is) := by
      funext x
      simp [DefinedBy, or_assoc]
    simp only [List.cons_append, Scoped, ih, hD, and_assoc]

omit [DecidableEq τ] in
/-- Scoping does not need what is not read. -/
theorem Scoped.drop {D' : τ → Prop} (h : Scoped D is) (hno : ∀ i ∈ is, ¬i.Reads x) (hsub : ∀ y, D' y → D y)
    (hkeep : ∀ y, y ≠ x → D y → D' y) : Scoped D' is := by
  induction is generalizing D D' with
  | nil => trivial
  | cons i is ih =>
    obtain ⟨hread, hdef, hrest⟩ := h
    have hno' : ∀ j ∈ is, ¬j.Reads x := fun j hj => hno j (List.mem_cons_of_mem _ hj)
    refine ⟨fun y hy => hkeep y (fun heq => hno i (by simp) (heq ▸ hy)) (hread y hy),
      fun y hy hD => hdef y hy (hsub y hD), ih hrest hno' (fun y hy => hy.imp_left (hsub y)) fun y hne hy => ?_⟩
    exact hy.imp_left (hkeep y hne)

omit [DecidableEq τ] in
/-- An instruction may be replaced by one that reads written temps and writes the same. -/
theorem Scoped.replace (h : Scoped D (pre ++ i :: post)) (hr : ∀ y, i'.Reads y → DefinedBy D pre y)
    (hd : ∀ y, i'.Defines y ↔ i.Defines y) : Scoped D (pre ++ i' :: post) := by
  rw [scoped_append] at h ⊢
  obtain ⟨hpre, -, hdef, hrest⟩ := h
  refine ⟨hpre, hr, fun y hy => hdef y ((hd y).mp hy), ?_⟩
  simpa only [hd] using hrest

/-- What is written stays as it is. -/
theorem run_tmp (hsc : Scoped D is) (h : run (exec fp t pc) is s = .next s') (hx : D x) : s'.tmp x = s.tmp x := by
  induction is generalizing D s with
  | nil => cases h; rfl
  | cons i is ih =>
    obtain ⟨-, hdef, hrest⟩ := hsc
    cases hi : exec fp t pc i s with
    | next s₁ =>
      rw [run_cons_next hi] at h
      rw [ih hrest h (.inl hx), exec_tmp hi fun hdx => hdef x hdx hx]
    | stop r => rw [run_cons_stop hi] at h; cases h

/-- A definition by arithmetic holds as an equation from there on. -/
theorem run_equation (hsc : Scoped D (i :: is)) (hd : i.dead = false) (halu : i.op.isAlu = true)
    (hdst : i.dst = some x) (h : run (exec fp t pc) (i :: is) s = .next s') (cpu : Cpu σ) :
    s'.tmp x = value fp t i.op i.aux i.imm (i.read s'.tmp) cpu := by
  obtain ⟨hread, hdef, hrest⟩ := hsc
  have hv := Op.isValue_of_isAlu halu
  have hi : exec fp t pc i s = _ := exec_value hd hv
  rw [run_cons_next hi] at h
  have hx : i.Defines x := ⟨hd, Op.writes_of_isValue hv, hdst⟩
  have hops : i.read s'.tmp = i.read s.tmp := by
    refine Insn.read_congr fun y hy => ?_
    have hDy : D y := hread y ⟨hd, hy⟩
    rw [run_tmp hrest h (.inl hDy), exec_tmp hi fun hdy => hdef y hdy hDy]
  rw [run_tmp hrest h (.inr hx), hops, value_of_isAlu halu]
  simp [writeTmp_apply, hdst, value_of_isAlu halu]

/-- A temp that nothing reads may hold anything. -/
theorem run_agree_of_not_reads (hno : ∀ i ∈ is, ¬i.Reads x) (h : AgreeOn (· ≠ x) s s') :
    Step.Rel SameEnd SameStop (run (exec fp t pc) is s) (run (exec fp t pc) is s') := by
  refine (run_sim (P := fun is is' s s' => is = is' ∧ (∀ i ∈ is, ¬i.Reads x) ∧ AgreeOn (· ≠ x) s s')
    (fun _ _ _ _ h => by rw [h.1]) ?_ ⟨rfl, hno, h⟩).mono (fun _ _ h => h.2.2.1) fun _ _ => id
  rintro i is i' is' s s' ⟨heq, hno, hag⟩
  obtain ⟨rfl, rfl⟩ := List.cons.inj heq
  refine (exec_agree hag fun y hy hxy => hno i (by simp) (hxy ▸ hy)).mono (fun s s' hag => ?_) fun _ _ => id
  exact ⟨rfl, fun j hj => hno j (List.mem_cons_of_mem _ hj), hag.mono fun y hy => .inl hy⟩

/-! ## The fusion -/

/-- `i'` does what `i` does with the definition `src` of `x` at hand, and does not read `x`. -/
structure Fusion (fp : FloatOps F) (t : Target σ) (pc : Word) (x : τ) (src i i' : Insn τ) : Prop where
  src_live : src.dead = false
  src_alu : src.op.isAlu = true
  src_dst : src.dst = some x
  defines : ∀ y, i'.Defines y ↔ i.Defines y
  reads : ∀ y, i'.readCount y ≤ i.readCount y + src.readCount y
  gone : i'.readCount x = 0
  same : ∀ s : State τ σ, (∀ cpu, s.tmp x = value fp t src.op src.aux src.imm (src.read s.tmp) cpu) →
    exec fp t pc i' s = exec fp t pc i s

/-- The only read of `x` is that of `i`. -/
theorem readCount_split (hone : readCount (pre ++ src :: mid ++ i :: post) x ≤ 1) (hx : i.Reads x) :
    readCount mid x = 0 ∧ readCount post x = 0 ∧ i.readCount x = 1 := by
  have := Insn.reads_iff.mp hx
  simp only [readCount_append, readCount_cons] at hone
  omega

/-- With the definition in place the rewritten use does what the original does. -/
theorem Fusion.run_use (hf : Fusion fp t pc x src i i') (hsc : Scoped D (pre ++ src :: mid ++ i :: post)) :
    run (exec fp t pc) (pre ++ src :: mid ++ i' :: post) s = run (exec fp t pc) (pre ++ src :: mid ++ i :: post) s := by
  have hsc' : Scoped (DefinedBy D pre) (src :: mid) := by
    rw [List.append_assoc, scoped_append, List.cons_append, ← List.cons_append, scoped_append] at hsc
    exact hsc.2.1
  rw [List.append_assoc, List.append_assoc, run_append, run_append]
  cases hpre : run (exec fp t pc) pre s with
  | stop r => rfl
  | next s₀ =>
    simp only
    rw [run_append, run_append]
    cases hmid : run (exec fp t pc) (src :: mid) s₀ with
    | stop r => rfl
    | next s₁ =>
      have hi := hf.same s₁ (run_equation hsc' hf.src_live hf.src_alu hf.src_dst hmid)
      simp only [run, hi]

/-- With no use of its temp left the definition may go. -/
theorem Fusion.run_def (hf : Fusion fp t pc x src i i') (hmid : readCount mid x = 0) (hpost : readCount post x = 0) :
    Step.Rel SameEnd SameStop (run (exec fp t pc) (pre ++ src :: mid ++ i' :: post) s)
      (run (exec fp t pc) (pre ++ src.kill :: mid ++ i' :: post) s) := by
  rw [List.append_assoc, List.append_assoc, run_append, run_append]
  cases run (exec fp t pc) pre s with
  | stop r => exact ⟨rfl, fun _ => rfl⟩
  | next s₀ =>
    simp only [List.cons_append]
    rw [run_cons_next (exec_value hf.src_live (Op.isValue_of_isAlu hf.src_alu)), run_cons_next (exec_dead rfl)]
    refine run_agree_of_not_reads (x := x) (not_reads_of_readCount ?_) ⟨rfl, fun y hy => ?_⟩
    · simp [hmid, hpost, hf.gone]
    · simp only [hf.src_dst, writeTmp_apply]
      rw [if_neg (by simpa using Ne.symm hy)]

/-- The fused block runs as the original does. -/
theorem Fusion.runs (hf : Fusion fp t pc x src i i') (hsc : Scoped D (pre ++ src :: mid ++ i :: post))
    (hone : readCount (pre ++ src :: mid ++ i :: post) x ≤ 1) (hx : i.Reads x) (s : State τ σ) :
    Step.Rel SameEnd SameStop (run (exec fp t pc) (pre ++ src :: mid ++ i :: post) s)
      (run (exec fp t pc) (pre ++ src.kill :: mid ++ i' :: post) s) := by
  obtain ⟨hmid, hpost, -⟩ := readCount_split hone hx
  rw [← hf.run_use hsc]
  exact hf.run_def hmid hpost

/-- The fused block reads no temp more often. -/
theorem Fusion.readCount_le (hf : Fusion fp t pc x src i i') (y : τ) :
    readCount (pre ++ src.kill :: mid ++ i' :: post) y ≤ readCount (pre ++ src :: mid ++ i :: post) y := by
  have := hf.reads y
  simp only [readCount_append, readCount_cons, Insn.readCount_kill]
  omega

/-- The fused block is scoped as the original is. -/
theorem Fusion.scoped (hf : Fusion fp t pc x src i i') (hsc : Scoped D (pre ++ src :: mid ++ i :: post))
    (hone : readCount (pre ++ src :: mid ++ i :: post) x ≤ 1) (hx : i.Reads x) :
    Scoped D (pre ++ src.kill :: mid ++ i' :: post) := by
  obtain ⟨hmid, hpost, -⟩ := readCount_split hone hx
  rw [List.append_assoc, scoped_append] at hsc ⊢
  obtain ⟨hpre, hread, hdef, hrest⟩ := hsc
  have hkill : (fun y => DefinedBy D pre y ∨ src.kill.Defines y) = DefinedBy D pre := by
    funext y
    simp [Insn.Defines]
  refine ⟨hpre, fun y hy => absurd hy.1 (by simp), fun y hy => absurd hy.1 (by simp), ?_⟩
  rw [hkill]
  -- replace the use first, with `x` still written, then forget `x`
  have huse : Scoped (fun y => DefinedBy D pre y ∨ src.Defines y) (mid ++ i' :: post) := by
    refine hrest.replace (fun y hy => ?_) hf.defines
    have hor : i.Reads y ∨ src.Reads y := by
      rw [Insn.reads_iff] at hy ⊢
      rw [Insn.reads_iff]
      have := hf.reads y
      omega
    rcases hor with hi | hs
    · exact (scoped_append.mp hrest).2.1 y hi
    · exact .inl (.inl (hread y hs))
  refine huse.drop (x := x) (not_reads_of_readCount (by simp [hmid, hpost, hf.gone])) (fun y hy => .inl hy) ?_
  exact fun y hne hy => hy.resolve_right fun hdy => hne (Option.some.inj (hdy.2.2.symm.trans hf.src_dst))

end

/-! ## Use counts and definition sites -/

/-- Count one more read of an operand, saturating at 255. -/
def bumpUse (uses : τ → Nat) (x : τ) : τ → Nat := Function.update uses x (min 255 (uses x + 1))

/-- The `uses` array the passes fill over the live instructions. -/
def useCounts (is : List (Insn τ)) : τ → Nat :=
  is.foldl (fun uses i => if i.dead then uses else i.operands.foldl bumpUse uses) fun _ => 0

/-- The loop that fills the `def` array, from index `k` on. -/
def defSitesFrom (k : Nat) (site : τ → Option Nat) : List (Insn τ) → τ → Option Nat
  | [] => site
  | i :: is =>
    defSitesFrom (k + 1) (if i.dead then site else i.dst.elim site fun d => Function.update site d (some k)) is

/-- The `def` array: where each temp is written. -/
def defSites (is : List (Insn τ)) : τ → Option Nat := defSitesFrom 0 (fun _ => none) is

section

variable {D : τ → Prop} {x : τ} {is : List (Insn τ)} {i : Insn τ} {j k : Nat} {site : τ → Option Nat}

theorem foldl_bumpUse {uses : τ → Nat} {xs : List τ} (h : uses x ≤ 255) :
    (xs.foldl bumpUse uses) x = min 255 (uses x + xs.count x) := by
  induction xs generalizing uses with
  | nil => simp; omega
  | cons y xs ih =>
    simp only [List.foldl_cons]
    by_cases hxy : x = y
    · subst hxy
      rw [ih (by simp [bumpUse])]
      simp only [bumpUse, Function.update_self, List.count_cons_self]
      omega
    · have hval : bumpUse uses y x = uses x := by simp [bumpUse, Function.update_of_ne hxy]
      rw [ih (by rw [hval]; exact h), hval, List.count_cons_of_ne (Ne.symm hxy)]

theorem useCounts_eq : useCounts is x = min 255 (readCount is x) := by
  have key : ∀ (is : List (Insn τ)) (uses : τ → Nat), uses x ≤ 255 →
      (is.foldl (fun uses i => if i.dead then uses else i.operands.foldl bumpUse uses) uses) x =
        min 255 (uses x + readCount is x) := by
    intro is
    induction is with
    | nil => intro uses h; simp; omega
    | cons i is ih =>
      intro uses h
      simp only [List.foldl_cons, readCount_cons, Insn.readCount]
      split
      · rw [ih uses h]; simp
      · have hstep : (i.operands.foldl bumpUse uses) x = _ := foldl_bumpUse h
        rw [ih _ (by rw [hstep]; omega), hstep]
        omega
  simpa [useCounts] using key is (fun _ => 0) (by simp)

/-- A temp that the array says is read once is. -/
theorem readCount_of_useCounts (h : useCounts is x = 1) : readCount is x = 1 := by
  rw [useCounts_eq] at h
  omega

/-- The instructions that have a temp are those that write one. -/
def DstOk (is : List (Insn τ)) : Prop := ∀ i ∈ is, i.dst.isSome = true → i.op.writes = true

theorem defSitesFrom_of_not_defines (hok : DstOk is) (hno : ∀ i ∈ is, ¬i.Defines x) :
    defSitesFrom k site is x = site x := by
  induction is generalizing k site with
  | nil => rfl
  | cons i is ih =>
    have hok' : DstOk is := fun j hj => hok j (List.mem_cons_of_mem _ hj)
    rw [defSitesFrom, ih hok' fun j hj => hno j (List.mem_cons_of_mem _ hj)]
    cases hd : i.dead with
    | true => rfl
    | false =>
      cases hdst : i.dst with
      | none => rfl
      | some d =>
        have hne : x ≠ d := fun heq =>
          hno i (by simp) ⟨hd, hok i (by simp) (by simp [hdst]), by rw [hdst, heq]⟩
        simp [Function.update_of_ne hne]

omit [DecidableEq τ] in
theorem Scoped.not_defines (h : Scoped D is) (hx : D x) : ∀ i ∈ is, ¬i.Defines x := by
  induction is generalizing D with
  | nil => simp
  | cons i is ih =>
    obtain ⟨-, hdef, hrest⟩ := h
    intro j hj
    rcases List.mem_cons.mp hj with rfl | hj
    · exact fun hdx => hdef x hdx hx
    · exact ih hrest (.inl hx) j hj

/-- The array holds the definition of every temp that is defined. -/
theorem defSitesFrom_of_defines (h : Scoped D is) (hok : DstOk is) (hj : is[j]? = some i) (hdef : i.Defines x) :
    defSitesFrom k site is x = some (k + j) := by
  induction is generalizing D j k site with
  | nil => simp at hj
  | cons i' is ih =>
    obtain ⟨-, -, hrest⟩ := h
    have hok' : DstOk is := fun j hj => hok j (List.mem_cons_of_mem _ hj)
    cases j with
    | zero =>
      cases hj
      rw [defSitesFrom, defSitesFrom_of_not_defines hok' (hrest.not_defines (.inr hdef))]
      simp [hdef.1, hdef.2.2]
    | succ j =>
      rw [defSitesFrom, ih hrest hok' (by simpa using hj)]
      congr 1; omega

omit [DecidableEq τ] in
/-- A temp that is read has been defined before. -/
theorem Scoped.exists_def (h : Scoped (fun _ => False) is) (hk : is[k]? = some i) (hx : i.Reads x) :
    ∃ j < k, ∃ src, is[j]? = some src ∧ src.Defines x := by
  obtain ⟨hlt, hget⟩ := List.getElem?_eq_some_iff.mp hk
  have hsplit : is = is.take k ++ i :: is.drop (k + 1) := by
    rw [← hget, List.getElem_cons_drop, List.take_append_drop]
  rw [hsplit, scoped_append] at h
  obtain ⟨-, hread, -⟩ := h
  rcases hread x hx with hf | ⟨src, hmem, hdef⟩
  · exact hf.elim
  · obtain ⟨j, hj, heq⟩ := List.mem_take_iff_getElem.mp hmem
    exact ⟨j, by omega, src, by rw [List.getElem?_eq_getElem (by omega), heq], hdef⟩

end

/-! ## Rewriting a block at two places -/

/-- What the fusions keep of an instruction for the passes after them. -/
structure Insn.Keeps (t : Target σ) (i i' : Insn τ) : Prop where
  dst : i'.dst = i.dst
  writes : i'.op.writes = i.op.writes
  dead : i.dead = true → i'.dead = true
  regMark : i'.regMark = i.regMark
  retireMark : i'.retireMark = i.retireMark
  access : (i'.op = .get ∨ i'.op = .put ∨ i'.op = .fget ∨ i'.op = .fput) → i.op = i'.op ∧ i.imm = i'.imm
  modelled : i'.modelled t = i.modelled t

/-- A block as the fusions leave it: equivalent to the one they started from, still scoped, no temp
read more often than `uses` allows. -/
structure Rewritten (fp : FloatOps F) (t : Target σ) (pc : Word) (uses : τ → Nat) (is is' : List (Insn τ)) :
    Prop where
  equiv : BlockEquiv fp t pc is is'
  inScope : Scoped (fun _ => False) is'
  keeps : List.Forall₂ (Insn.Keeps t) is is'
  once : ∀ x, uses x = 1 → readCount is' x ≤ 1

section

variable {fp : FloatOps F} {t : Target σ} {pc : Word} {uses : τ → Nat} {x : τ}
variable {i i' i'' src : Insn τ} {is is' : List (Insn τ)} {j k : Nat}

omit [DecidableEq τ] in
theorem Insn.Keeps.refl (i : Insn τ) : i.Keeps t i := ⟨rfl, rfl, id, rfl, rfl, fun _ => ⟨rfl, rfl⟩, rfl⟩

omit [DecidableEq τ] in
theorem Insn.Keeps.trans (h : i.Keeps t i') (h' : i'.Keeps t i'') : i.Keeps t i'' where
  dst := h'.dst.trans h.dst
  writes := h'.writes.trans h.writes
  dead := h'.dead ∘ h.dead
  regMark := h'.regMark.trans h.regMark
  retireMark := h'.retireMark.trans h.retireMark
  access hop := by
    obtain ⟨hop', himm'⟩ := h'.access hop
    obtain ⟨hop₀, himm₀⟩ := h.access (by rwa [hop'])
    exact ⟨hop₀.trans hop', himm₀.trans himm'⟩
  modelled := h'.modelled.trans h.modelled

omit [DecidableEq τ] in
theorem Insn.Keeps.defines (h : i.Keeps t i') (hx : i'.Defines x) : i.Defines x :=
  ⟨Bool.eq_false_iff.mpr fun hd => Bool.false_ne_true (hx.1.symm.trans (h.dead hd)), h.writes ▸ hx.2.1,
    h.dst ▸ hx.2.2⟩

omit [DecidableEq τ] in
theorem regMark_of_isAlu (h : i.op.isAlu = true) : i.regMark = none := by
  unfold Insn.regMark
  cases hop : i.op <;> rw [hop] at h <;> first | exact absurd h (by decide) | simp

omit [DecidableEq τ] in
theorem retireMark_of_isAlu (h : i.op.isAlu = true) : i.retireMark = none := by
  unfold Insn.retireMark
  cases hop : i.op <;> rw [hop] at h <;> first | exact absurd h (by decide) | simp [Op.observesState]

omit [DecidableEq τ] in
theorem modelled_of_isAlu (h : i.op.isAlu = true) : i.modelled t = true := by
  unfold Insn.modelled
  cases hop : i.op <;> rw [hop] at h <;> first | exact absurd h (by decide) | simp

theorem Op.not_access_of_isAlu {op : Op} (h : op.isAlu = true) :
    ¬(op = .get ∨ op = .put ∨ op = .fget ∨ op = .fput) := by
  rintro (rfl | rfl | rfl | rfl) <;> cases h

omit [DecidableEq τ] in
/-- Arithmetic may become other arithmetic. -/
theorem Insn.Keeps.of_isAlu (h : i.op.isAlu = true) (h' : i'.op.isAlu = true) (hdst : i'.dst = i.dst)
    (hdead : i'.dead = i.dead) : i.Keeps t i' where
  dst := hdst
  writes := by rw [Op.writes_of_isValue (Op.isValue_of_isAlu h), Op.writes_of_isValue (Op.isValue_of_isAlu h')]
  dead hd := hdead.trans hd
  regMark := by rw [regMark_of_isAlu h, regMark_of_isAlu h']
  retireMark := by rw [retireMark_of_isAlu h, retireMark_of_isAlu h']
  access hop := absurd hop (Op.not_access_of_isAlu h')
  modelled := by rw [modelled_of_isAlu h, modelled_of_isAlu h']

omit [DecidableEq τ] in
/-- Arithmetic may be deleted. -/
theorem Insn.Keeps.kill (h : i.op.isAlu = true) : i.Keeps t i.kill where
  dst := rfl
  writes := rfl
  dead _ := rfl
  regMark := by rw [regMark_of_isAlu h, regMark_of_isAlu (i := i.kill) h]
  retireMark := by rw [retireMark_of_isAlu h, retireMark_of_isAlu (i := i.kill) h]
  access hop := absurd hop (Op.not_access_of_isAlu h)
  modelled := by rw [modelled_of_isAlu h, modelled_of_isAlu (i := i.kill) h]

omit [DecidableEq τ] in
/-- The list around two of its places. -/
theorem exists_split (hjk : j < k) (hj : is[j]? = some src) (hk : is[k]? = some i) :
    ∃ pre mid post, is = pre ++ src :: mid ++ i :: post ∧
      (∀ i' src', (is.set k i').set j src' = pre ++ src' :: mid ++ i' :: post) ∧
      ∀ i ∈ mid, ∃ m, j < m ∧ m < k ∧ is[m]? = some i := by
  induction is generalizing j k with
  | nil => simp at hj
  | cons a is ih =>
    obtain ⟨k, rfl⟩ : ∃ k', k = k' + 1 := ⟨k - 1, by omega⟩
    simp only [List.getElem?_cons_succ] at hk
    cases j with
    | zero =>
      cases hj
      obtain ⟨hlt, hget⟩ := List.getElem?_eq_some_iff.mp hk
      refine ⟨[], is.take k, is.drop (k + 1), ?_, fun i' src' => ?_, fun i' hi' => ?_⟩
      · simp [← hget]
      · simp [List.set_eq_take_append_cons_drop, hlt]
      · obtain ⟨m, hm, hmget⟩ := List.mem_take_iff_getElem.mp hi'
        exact ⟨m + 1, by omega, by omega, by simp [← hmget]⟩
    | succ j =>
      obtain ⟨pre, mid, post, heq, hset, hmid⟩ := ih (Nat.lt_of_succ_lt_succ hjk) (by simpa using hj) hk
      refine ⟨a :: pre, mid, post, by simp [heq], fun i' src' => by simpa using hset i' src', fun i' hi' => ?_⟩
      obtain ⟨m, hjm, hmk, hm⟩ := hmid i' hi'
      exact ⟨m + 1, by omega, by omega, hm⟩

omit [DecidableEq τ] in
theorem forall₂_set {R : Insn τ → Insn τ → Prop} (h : List.Forall₂ R is is') (hk : is'[k]? = some i)
    (hi : ∀ a, R a i → R a i') : List.Forall₂ R is (is'.set k i') := by
  induction h generalizing k with
  | nil => simp at hk
  | cons hhead htail ih =>
    cases k with
    | zero => cases hk; exact .cons (hi _ hhead) htail
    | succ k => exact .cons hhead (ih (by simpa using hk))

theorem Rewritten.site (h : Rewritten fp t pc uses is is') (hsc : Scoped (fun _ => False) is) (hok : DstOk is)
    (hj : is'[j]? = some src) (hdef : src.Defines x) : defSites is x = some j := by
  obtain ⟨i₀, hi₀, hkeep⟩ : ∃ i₀, is[j]? = some i₀ ∧ i₀.Keeps t src := by
    obtain ⟨hlt', hget⟩ := List.getElem?_eq_some_iff.mp hj
    have hlt : j < is.length := h.keeps.length_eq ▸ hlt'
    refine ⟨is[j], List.getElem?_eq_getElem hlt, ?_⟩
    rw [← hget]
    exact (List.forall₂_iff_get.mp h.keeps).2 j hlt hlt'
  rw [defSites, defSitesFrom_of_defines hsc hok hi₀ (hkeep.defines hdef), Nat.zero_add]

/-- The definition a pass finds for an operand stands before it, and does not read its own temp. -/
theorem Rewritten.source (h : Rewritten fp t pc uses is is') (hsc : Scoped (fun _ => False) is) (hok : DstOk is)
    (hk : is'[k]? = some i) (hx : i.Reads x) (hsite : defSites is x = some j) (hj : is'[j]? = some src) :
    j < k ∧ src.Defines x ∧ ¬src.Reads x := by
  obtain ⟨j', hlt, src', hj', hdef⟩ := h.inScope.exists_def hk hx
  obtain rfl : j = j' := Option.some.inj (hsite.symm.trans (h.site hsc hok hj' hdef))
  obtain rfl : src = src' := Option.some.inj (hj.symm.trans hj')
  refine ⟨hlt, hdef, fun hread => ?_⟩
  -- a definition that read its own temp would need another before it, which would be at the same site
  obtain ⟨j₂, hlt₂, src₂, hj₂, hdef₂⟩ := h.inScope.exists_def hj hread
  obtain rfl : j = j₂ := Option.some.inj (hsite.symm.trans (h.site hsc hok hj₂ hdef₂))
  omega

/-- The step of `pass_fuse` and `pass_mac` that fuses `src` into `i`. -/
theorem Rewritten.fuse (h : Rewritten fp t pc uses is is') (hjk : j < k) (hj : is'[j]? = some src)
    (hk : is'[k]? = some i) (hf : Fusion fp t pc x src i i') (hone : uses x = 1) (hx : i.Reads x)
    (hkeep : i.Keeps t i') : Rewritten fp t pc uses is ((is'.set k i').set j src.kill) := by
  obtain ⟨pre, mid, post, heq, hset, -⟩ := exists_split hjk hj hk
  have hcount : readCount is' x ≤ 1 := h.once x hone
  have hkeeps : List.Forall₂ (Insn.Keeps t) is ((is'.set k i').set j src.kill) :=
    forall₂_set (forall₂_set h.keeps hk fun _ ha => ha.trans hkeep)
      (by rw [List.getElem?_set_ne (Nat.ne_of_gt hjk), hj]) fun _ ha => ha.trans (.kill hf.src_alu)
  have hsc := h.inScope
  refine ⟨⟨?_, fun s => same_trans (h.equiv.runs s) ?_⟩, ?_, hkeeps, fun y hy => ?_⟩
  · exact (interpModels_of_forall₂ (hkeeps.imp fun _ _ hi => hi.modelled)).symm
  all_goals rw [hset]
  · rw [heq] at hsc hcount ⊢
    exact hf.runs hsc hcount hx s
  · rw [heq] at hsc hcount
    exact hf.scoped hsc hcount hx
  · exact (hf.readCount_le y).trans (heq ▸ h.once y hy)

/-- The step that rewrites one instruction in place. -/
theorem Rewritten.replace (h : Rewritten fp t pc uses is is') (hk : is'[k]? = some i) (hkeep : i.Keeps t i')
    (hdead : i'.dead = i.dead) (hread : ∀ y, i'.readCount y ≤ i.readCount y)
    (hsame : ∀ s, exec fp t pc i' s = exec fp t pc i s) : Rewritten fp t pc uses is (is'.set k i') := by
  obtain ⟨hlt, hget⟩ := List.getElem?_eq_some_iff.mp hk
  have heq : is' = is'.take k ++ i :: is'.drop (k + 1) := by
    rw [← hget, List.getElem_cons_drop, List.take_append_drop]
  have hset : is'.set k i' = is'.take k ++ i' :: is'.drop (k + 1) := by
    rw [List.set_eq_take_append_cons_drop, if_pos hlt]
  have hkeeps := forall₂_set h.keeps hk fun _ ha => ha.trans hkeep
  have hsc := h.inScope
  rw [heq] at hsc
  refine ⟨⟨?_, fun s => ?_⟩, ?_, hkeeps, fun y hy => ?_⟩
  · exact (interpModels_of_forall₂ (hkeeps.imp fun _ _ hi => hi.modelled)).symm
  · exact run_set hk hsame ▸ h.equiv.runs s
  · rw [hset]
    refine hsc.replace (fun y hy => (scoped_append.mp hsc).2.1 y ?_) fun y => ?_
    · rw [Insn.reads_iff] at hy ⊢
      exact lt_of_lt_of_le hy (hread y)
    · simp only [Insn.Defines, hkeep.dst, hkeep.writes, hdead]
  · have hle := h.once y hy
    rw [heq] at hle
    rw [hset]
    have := hread y
    simp only [readCount_append, readCount_cons] at hle ⊢
    omega

theorem Rewritten.init (hsc : Scoped (fun _ => False) is) : Rewritten fp t pc (useCounts is) is is where
  equiv := ⟨rfl, fun _ => same_refl _⟩
  inScope := hsc
  keeps := List.forall₂_same.mpr fun i _ => .refl i
  once _ hx := (readCount_of_useCounts hx).le

theorem Rewritten.of_uses {uses' : τ → Nat} (h : Rewritten fp t pc uses is is')
    (hsub : ∀ x, uses' x = 1 → uses x = 1) : Rewritten fp t pc uses' is is' :=
  ⟨h.equiv, h.inScope, h.keeps, fun x hx => h.once x (hsub x hx)⟩

end

/-! ## The definition of an operand -/

/-- An operand's temp with the place and the instruction that define it. -/
structure Source (τ : Type) where
  temp : τ
  index : Nat
  insn : Insn τ

/-- The definition of an operand that is there and is read once. -/
def singleDef (is : List (Insn τ)) (uses : τ → Nat) (site : τ → Option Nat) (o : Option τ) : Option (Source τ) :=
  o.bind fun x => if uses x = 1 then (site x).bind fun j => is[j]?.map fun src => ⟨x, j, src⟩ else none

omit [DecidableEq τ] in
theorem singleDef_eq_some {is : List (Insn τ)} {uses : τ → Nat} {site : τ → Option Nat} {o : Option τ}
    {r : Source τ} (h : singleDef is uses site o = some r) :
    o = some r.temp ∧ uses r.temp = 1 ∧ site r.temp = some r.index ∧ is[r.index]? = some r.insn := by
  simp only [singleDef, Option.bind_eq_some_iff] at h
  obtain ⟨x, rfl, h⟩ := h
  split at h
  · simp only [Option.bind_eq_some_iff, Option.map_eq_some_iff] at h
    obtain ⟨j, hj, src, hsrc, rfl⟩ := h
    exact ⟨rfl, ‹_›, hj, hsrc⟩
  · cases h

theorem count_toList_some {x y : τ} : (some x).toList.count y = if y = x then 1 else 0 := by
  simp [List.count_singleton, eq_comm (a := x)]

theorem Insn.readCount_live {i : Insn τ} {x : τ} (hd : i.dead = false) :
    i.readCount x = i.a.toList.count x + i.b.toList.count x + i.c.toList.count x := by
  simp [Insn.readCount, hd, Insn.operands, Nat.add_assoc]

/-- Two instructions that write the same result to the same temp do the same. -/
theorem exec_congr_alu {fp : FloatOps F} {t : Target σ} {pc : Word} {i i' : Insn τ} {s : State τ σ}
    (hd : i.dead = false) (hd' : i'.dead = false) (hv : i.op.isAlu = true) (hv' : i'.op.isAlu = true)
    (hdst : i'.dst = i.dst)
    (h : alu fp i'.op i'.aux i'.imm (i'.read s.tmp).av (i'.read s.tmp).bv (i'.read s.tmp).cv =
      alu fp i.op i.aux i.imm (i.read s.tmp).av (i.read s.tmp).bv (i.read s.tmp).cv) :
    exec fp t pc i' s = exec fp t pc i s := by
  rw [exec_value hd (Op.isValue_of_isAlu hv), exec_value hd' (Op.isValue_of_isAlu hv'), value_of_isAlu hv,
    value_of_isAlu hv', hdst, h]

/-- The rewrite of an instruction by the single definition of one of its operands. -/
theorem Rewritten.fuse_source {fp : FloatOps F} {t : Target σ} {pc : Word} {uses : τ → Nat} {i i' : Insn τ}
    {is is' : List (Insn τ)} {k : Nat} {o : Option τ} {r : Source τ} (h : Rewritten fp t pc uses is is')
    (hsc : Scoped (fun _ => False) is) (hok : DstOk is) (hk : is'[k]? = some i) (hd : i.dead = false)
    (hr : singleDef is' uses (defSites is) o = some r) (ho : ∀ x ∈ o, x ∈ i.operands)
    (halu : r.insn.op.isAlu = true) (hkeep : i.Keeps t i') (hdead : i'.dead = i.dead)
    (hreads : ∀ y, i'.readCount y + (if y = r.temp then 1 else 0) ≤ i.readCount y + r.insn.readCount y)
    (hsame : ∀ s : State τ σ,
      (∀ cpu, s.tmp r.temp = value fp t r.insn.op r.insn.aux r.insn.imm (r.insn.read s.tmp) cpu) →
      exec fp t pc i' s = exec fp t pc i s) :
    Rewritten fp t pc uses is ((is'.set k i').modify r.index Insn.kill) ∧
      ((is'.set k i').modify r.index Insn.kill)[k]? = some i' := by
  obtain ⟨rfl, hone, hsite, hj⟩ := singleDef_eq_some hr
  have hx : i.Reads r.temp := ⟨hd, ho _ rfl⟩
  obtain ⟨hjk, hdef, hself⟩ := h.source hsc hok hk hx hsite hj
  have hmod : (is'.set k i').modify r.index Insn.kill = (is'.set k i').set r.index r.insn.kill := by
    rw [List.modify_eq_set_getElem?, List.getElem?_set_ne (Nat.ne_of_gt hjk), hj]
    rfl
  have hfus : Fusion fp t pc r.temp r.insn i i' :=
    { src_live := hdef.1
      src_alu := halu
      src_dst := hdef.2.2
      defines := fun y => by simp only [Insn.Defines, hkeep.dst, hkeep.writes, hdead]
      reads := fun y => by have := hreads y; omega
      gone := by
        have hle := hreads r.temp
        have hsrc : r.insn.readCount r.temp = 0 := by rw [Insn.reads_iff] at hself; omega
        have hlist : i.readCount r.temp ≤ readCount is' r.temp := readCount_le_of_mem (List.mem_of_getElem? hk)
        have := h.once _ hone
        simp only [if_true] at hle
        omega
      same := hsame }
  rw [hmod]
  refine ⟨h.fuse hjk hj hk hfus hone hx hkeep, ?_⟩
  rw [List.getElem?_set_ne (Nat.ne_of_lt hjk), List.getElem?_set_self (List.getElem?_eq_some_iff.mp hk).1]

end Emu.Ir
