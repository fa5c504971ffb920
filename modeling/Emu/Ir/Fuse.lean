-- SUMMARY: `pass_fuse` and `pass_mac`: constants into immediates, additions into addresses, products into sums.
import Emu.Ir.Rewrite

/-!
# Passes: fuse and multiply-accumulate

What the reference passes leave behind: a constant that feeds an ALU operation, an `addi` that feeds
an access, and arithmetic that computes its own input; and, once the dead writes are gone, a product
that feeds a sum. Every fold is guarded on a single use.
-/

namespace Emu.Ir

open StraightLine

variable {τ σ F : Type} [DecidableEq τ]

/-! ## The fusing pass -/

/-- What the pass works on: the instructions, the use counts and its part of `emu_ir_opt_stats_t`. -/
structure Fuse (τ : Type) where
  insns : List (Insn τ)
  uses : τ → Nat
  folded : Nat := 0
  addrFolded : Nat := 0
  identities : Nat := 0

/-- The constant operand, the right one first, and whether it is the left one. -/
def constSource (is : List (Insn τ)) (uses : τ → Nat) (site : τ → Option Nat) (i : Insn τ) :
    Option (Bool × Source τ) :=
  match (singleDef is uses site i.b).filter (·.insn.op = .const) with
  | some r => some (false, r)
  | none =>
    if i.op.commutes then ((singleDef is uses site i.a).filter (·.insn.op = .const)).map (true, ·) else none

/-- The immediate form of an operation whose constant operand is `imm`. -/
def Insn.foldConst (i : Insn τ) (op : Op) (fromA : Bool) (imm : Word) : Insn τ :=
  -- from the left operand, the right one is what survives
  { i with op, a := if fromA then i.b else i.a, b := none, imm }

/-- A constant operand becomes an immediate, where the backend can lower the immediate form. -/
def fuseConst (canLower : Op → Byte → Bool) (site : τ → Option Nat) (k : Nat) (w : Fuse τ) : Fuse τ :=
  match w.insns[k]? with
  | none => w
  | some i =>
    match i.op.immForm with
    | none => w
    | some op =>
      match constSource w.insns w.uses site i with
      | none => w
      | some (fromA, r) =>
        if op.shiftImmOk r.insn.imm && canLower op i.aux then
          { w with
            insns := (w.insns.set k (i.foldConst op fromA r.insn.imm)).modify r.index Insn.kill
            uses := Function.update w.uses r.temp 0
            folded := w.folded + 1 }
        else w

/-- The access that adds the displacement of the `addi` at `src` itself. -/
def Insn.foldAddr (i src : Insn τ) : Insn τ := { i with imm := i.imm + src.imm, a := src.a }

/-- An `addi` that feeds an access becomes its displacement. -/
def fuseAddr (site : τ → Option Nat) (k : Nat) (w : Fuse τ) : Fuse τ :=
  match w.insns[k]? with
  | none => w
  | some i =>
    if i.op = .load ∨ i.op = .store then
      match singleDef w.insns w.uses site i.a with
      | none => w
      | some r =>
        if r.insn.dead = false ∧ r.insn.op = .addi ∧ r.insn.a.isSome then
          -- the use count of the new base is written back as it is
          { w with
            insns := (w.insns.set k (i.foldAddr r.insn)).modify r.index Insn.kill
            addrFolded := w.addrFolded + 1 }
        else w
    else w

/-- Arithmetic that computes its own input, or nothing but zero. -/
def Insn.identity (i : Insn τ) : Option (Insn τ) :=
  match i.op with
  | .addi | .ori | .xori | .shli | .shri | .sari | .rotli =>
    if i.imm = 0 ∧ i.a.isSome then some { i with op := .mov } else none
  | .andi =>
    if i.imm = 0xFFFFFFFF ∧ i.a.isSome then some { i with op := .mov }
    else if i.imm = 0 then some { i with op := .const, a := none }
    else none
  | _ => none

def fuseIdentity (k : Nat) (w : Fuse τ) : Fuse τ :=
  match w.insns[k]?.bind Insn.identity with
  | none => w
  | some i => { w with insns := w.insns.set k i, identities := w.identities + 1 }

/-- The body of the loop at instruction `k`. -/
def fuseStep (canLower : Op → Byte → Bool) (site : τ → Option Nat) (w : Fuse τ) (k : Nat) : Fuse τ :=
  match w.insns[k]? with
  | none => w
  | some i => if i.dead then w else fuseIdentity k (fuseAddr site k (fuseConst canLower site k w))

/-- `pass_fuse`. -/
def passFuse (canLower : Op → Byte → Bool) (is : List (Insn τ)) : Fuse τ :=
  (List.range is.length).foldl (fuseStep canLower (defSites is)) { insns := is, uses := useCounts is }

/-! ## The arithmetic of the folds -/

section

variable {fp : FloatOps F} {t : Target σ} {pc : Word} {canLower : Op → Byte → Bool} {uses : τ → Nat}
variable {i i' : Insn τ} {is is' : List (Insn τ)} {w : Fuse τ} {k : Nat} {r : Source τ} {fromA : Bool}
variable {op op' : Op} {aux : Byte} {imm a b c : Word}

theorem Op.isAlu_of_immForm (h : op.immForm = some op') : op.isAlu = true ∧ op'.isAlu = true := by
  cases op <;> cases h <;> exact ⟨rfl, rfl⟩

/-- The immediate form computes what the register form does with the immediate as its right operand. -/
theorem alu_immForm (h : op.immForm = some op') (imm' : Word) :
    alu fp op' aux imm a b c = alu fp op aux imm' a imm c := by
  cases op <;> cases h <;> rfl

theorem alu_comm (h : op.commutes = true) : alu fp op aux imm a b c = alu fp op aux imm b a c := by
  cases op <;> cases h
  · exact BitVec.add_comm a b
  · exact BitVec.and_comm a b
  · exact BitVec.or_comm a b
  · exact BitVec.xor_comm a b

/-- Adding, or-ing, xor-ing or shifting by nothing is a move. -/
theorem alu_zero (h : op = .addi ∨ op = .ori ∨ op = .xori ∨ op = .shli ∨ op = .shri ∨ op = .sari ∨ op = .rotli) :
    alu fp op aux 0 a b c = a := by
  rcases h with rfl | rfl | rfl | rfl | rfl | rfl | rfl <;> simp [alu, rotlBy]

theorem alu_andi_ones : alu fp .andi aux 0xFFFFFFFF a b c = a := BitVec.and_allOnes

/-! ## Correctness -/

omit [DecidableEq τ] in
theorem constSource_eq_some {site : τ → Option Nat} (h : constSource is uses site i = some (fromA, r)) :
    r.insn.op = .const ∧ singleDef is uses site (if fromA then i.a else i.b) = some r ∧
      (fromA = true → i.op.commutes = true) := by
  unfold constSource at h
  split at h
  · cases h
    rename_i hr
    obtain ⟨hr, hop⟩ := Option.filter_eq_some_iff.mp hr
    exact ⟨of_decide_eq_true hop, hr, by simp⟩
  · split at h
    · obtain ⟨r', hr, heq⟩ := Option.map_eq_some_iff.mp h
      cases heq
      obtain ⟨hr, hop⟩ := Option.filter_eq_some_iff.mp hr
      exact ⟨of_decide_eq_true hop, hr, fun _ => ‹_›⟩
    · cases h

theorem foldConst_readCount {x y : τ} (hd : i.dead = false) (hx : (if fromA then i.a else i.b) = some x) :
    (i.foldConst op fromA imm).readCount y + (if y = x then 1 else 0) = i.readCount y := by
  rw [Insn.readCount_live (i := i) hd, Insn.readCount_live (i := i.foldConst op fromA imm) hd]
  cases fromA with
  | false =>
    have hb : i.b = some x := hx
    rw [hb, count_toList_some]
    simp [Insn.foldConst]
    omega
  | true =>
    have ha : i.a = some x := hx
    rw [ha, count_toList_some]
    simp [Insn.foldConst]
    omega

theorem exec_foldConst {x : τ} {s : State τ σ} (hd : i.dead = false) (hform : i.op.immForm = some op)
    (hcomm : fromA = true → i.op.commutes = true) (hx : (if fromA then i.a else i.b) = some x)
    (himm : s.tmp x = imm) : exec fp t pc (i.foldConst op fromA imm) s = exec fp t pc i s := by
  obtain ⟨halu, halu'⟩ := Op.isAlu_of_immForm hform
  refine exec_congr_alu hd hd halu halu' rfl ((alu_immForm hform i.imm).trans ?_)
  cases fromA with
  | false =>
    have hb : i.b = some x := hx
    simp [Insn.foldConst, Insn.read, Operands.av, Operands.bv, Operands.cv, hb, himm]
  | true =>
    have ha : i.a = some x := hx
    rw [alu_comm (hcomm rfl)]
    simp [Insn.foldConst, Insn.read, Operands.av, Operands.bv, Operands.cv, ha, himm]

theorem foldAddr_readCount {src : Insn τ} {x y : τ} (hd : i.dead = false) (hds : src.dead = false)
    (hx : i.a = some x) :
    (i.foldAddr src).readCount y + (if y = x then 1 else 0) ≤ i.readCount y + src.readCount y := by
  rw [Insn.readCount_live hd, Insn.readCount_live hds, Insn.readCount_live (i := i.foldAddr src) hd]
  rw [hx, count_toList_some]
  simp only [Insn.foldAddr]
  omega

theorem exec_foldAddr {src : Insn τ} {x : τ} {s : State τ σ} (hd : i.dead = false)
    (hop : i.op = .load ∨ i.op = .store) (hx : i.a = some x) (haddi : s.tmp x = (src.read s.tmp).av + src.imm) :
    exec fp t pc (i.foldAddr src) s = exec fp t pc i s := by
  have haddr : ((i.foldAddr src).read s.tmp).av + (i.foldAddr src).imm = (i.read s.tmp).av + i.imm := by
    have hav : (i.read s.tmp).av = s.tmp x := by simp [Insn.read, Operands.av, hx]
    have hav' : ((i.foldAddr src).read s.tmp).av = (src.read s.tmp).av := rfl
    rw [hav, hav', haddi, Insn.foldAddr, BitVec.add_assoc, BitVec.add_comm src.imm]
  rw [exec_live hd, exec_live (i := i.foldAddr src) hd]
  have hop' : (i.foldAddr src).op = i.op := rfl
  rcases hop with hop | hop <;>
    simp only [hop', hop, effect, effectLoad, effectStore, haddr] <;> rfl

/-- The pass in front of instruction `k`, or in the middle of it. -/
structure FuseInv (fp : FloatOps F) (t : Target σ) (pc : Word) (is : List (Insn τ)) (k : Nat) (w : Fuse τ) : Prop where
  rewritten : Rewritten fp t pc w.uses is w.insns
  live : ∀ i, w.insns[k]? = some i → i.dead = false

theorem fuseConst_inv (h : FuseInv fp t pc is k w) (hsc : Scoped (fun _ => False) is) (hok : DstOk is) :
    FuseInv fp t pc is k (fuseConst canLower (defSites is) k w) := by
  unfold fuseConst
  split
  · exact h
  rename_i i hk
  split
  · exact h
  rename_i op hform
  split
  · exact h
  rename_i fromA r hsrc
  split
  swap
  · exact h
  obtain ⟨hconst, hr, hcomm⟩ := constSource_eq_some hsrc
  obtain ⟨halu, halu'⟩ := Op.isAlu_of_immForm hform
  have hd := h.live i hk
  have hx := (singleDef_eq_some hr).1
  have hkeep : i.Keeps t (i.foldConst op fromA r.insn.imm) := .of_isAlu halu halu' rfl rfl
  have hstep := h.rewritten.fuse_source hsc hok hk hd hr
    (fun x hx => by rw [Insn.mem_operands]; cases fromA <;> simp_all) (by rw [hconst]; rfl)
    hkeep rfl (fun y => by rw [foldConst_readCount hd hx]; omega) fun s heq =>
      exec_foldConst hd hform hcomm hx (by simpa [hconst, value, alu] using heq s.guest.cpu)
  refine ⟨hstep.1.of_uses fun x hx => ?_, fun i' hi' => ?_⟩
  · by_cases hxr : x = r.temp
    · simp [hxr] at hx
    · simpa [Function.update_of_ne hxr] using hx
  · cases hstep.2.symm.trans hi'
    exact hd

omit [DecidableEq τ] in
/-- An access keeps what the later passes see of it when its address is rewritten. -/
theorem keeps_foldAddr {src : Insn τ} (hop : i.op = .load ∨ i.op = .store) : i.Keeps t (i.foldAddr src) := by
  have hop' : (i.foldAddr src).op = i.op := rfl
  have hd' : (i.foldAddr src).dead = i.dead := rfl
  refine ⟨rfl, rfl, id, ?_, ?_, fun h => ?_, ?_⟩
  · rcases hop with hop | hop <;> simp only [Insn.regMark, hop', hd', hop]
  · rcases hop with hop | hop <;> simp only [Insn.retireMark, hop', hd', hop, reduceCtorEq, if_false]
  · rcases hop with hop | hop <;> simp [hop', hop] at h
  · rcases hop with hop | hop <;> simp only [Insn.modelled, hop', hd', hop]

theorem fuseAddr_inv (h : FuseInv fp t pc is k w) (hsc : Scoped (fun _ => False) is) (hok : DstOk is) :
    FuseInv fp t pc is k (fuseAddr (defSites is) k w) := by
  unfold fuseAddr
  split
  · exact h
  rename_i i hk
  split
  swap
  · exact h
  rename_i hop
  split
  · exact h
  rename_i r hr
  split
  swap
  · exact h
  rename_i hcond
  obtain ⟨hds, haddi, -⟩ := hcond
  have hd := h.live i hk
  have hx := (singleDef_eq_some hr).1
  have hstep := h.rewritten.fuse_source hsc hok hk hd hr (fun x hx => Insn.mem_operands.mpr (.inl hx))
    (by rw [haddi]; rfl) (keeps_foldAddr hop) rfl (fun y => foldAddr_readCount hd hds hx) fun s heq =>
      exec_foldAddr hd hop hx (by simpa [haddi, value, alu] using heq s.guest.cpu)
  refine ⟨hstep.1, fun i' hi' => ?_⟩
  cases hstep.2.symm.trans hi'
  exact hd

omit [DecidableEq τ] in
/-- The identities: what is left of the instruction, and that its value is the same. -/
theorem identity_eq_some (h : i.identity = some i') :
    i.op.isAlu = true ∧ i'.op.isAlu = true ∧ i'.dst = i.dst ∧ i'.dead = i.dead ∧ (i'.a = i.a ∨ i'.a = none) ∧
      i'.b = i.b ∧ i'.c = i.c ∧
      ∀ tmp, alu fp i'.op i'.aux i'.imm (i'.read tmp).av (i'.read tmp).bv (i'.read tmp).cv =
        alu fp i.op i.aux i.imm (i.read tmp).av (i.read tmp).bv (i.read tmp).cv := by
  unfold Insn.identity at h
  split at h
  case h_8 hop =>
    split at h
    · cases h
      rename_i himm
      refine ⟨by rw [hop]; rfl, rfl, rfl, rfl, .inl rfl, rfl, rfl, fun tmp => ?_⟩
      rw [hop, himm.1]
      exact alu_andi_ones.symm
    · split at h
      · cases h
        rename_i himm
        refine ⟨by rw [hop]; rfl, rfl, rfl, rfl, .inr rfl, rfl, rfl, fun tmp => ?_⟩
        simp [hop, himm, alu]
      · cases h
  case h_9 => cases h
  all_goals
    rename_i hop
    split at h
    · cases h
      rename_i himm
      refine ⟨by rw [hop]; rfl, rfl, rfl, rfl, .inl rfl, rfl, rfl, fun tmp => ?_⟩
      rw [himm.1]
      exact (alu_zero (by simp [hop])).symm
    · cases h

theorem fuseIdentity_rewritten (h : Rewritten fp t pc w.uses is w.insns) :
    Rewritten fp t pc (fuseIdentity k w).uses is (fuseIdentity k w).insns := by
  unfold fuseIdentity
  split
  · exact h
  rename_i i' hi'
  obtain ⟨i, hk, hid⟩ := Option.bind_eq_some_iff.mp hi'
  obtain ⟨halu, halu', hdst, hdead, ha, hb, hc, hval⟩ := identity_eq_some hid
  refine h.replace hk (.of_isAlu halu halu' hdst hdead) hdead (fun y => ?_) fun s => ?_
  · simp only [Insn.readCount, Insn.operands, hdead, hb, hc]
    rcases ha with ha | ha <;> simp [ha]
    split <;> omega
  · cases hd : i.dead with
    | true => rw [exec_dead hd, exec_dead (hdead.trans hd)]
    | false => exact exec_congr_alu hd (hdead.trans hd) halu halu' hdst (hval s.tmp)

/-- One turn of the loop. -/
theorem fuseStep_rewritten (h : Rewritten fp t pc w.uses is w.insns) (hsc : Scoped (fun _ => False) is)
    (hok : DstOk is) :
    Rewritten fp t pc (fuseStep canLower (defSites is) w k).uses is (fuseStep canLower (defSites is) w k).insns := by
  unfold fuseStep
  split
  · exact h
  rename_i i hk
  split
  · exact h
  rename_i hd
  have hinv : FuseInv fp t pc is k w := ⟨h, fun j hj => by cases hk.symm.trans hj; simpa using hd⟩
  exact fuseIdentity_rewritten (fuseAddr_inv (fuseConst_inv hinv hsc hok) hsc hok).rewritten

/-- The pass leaves an equivalent block. -/
theorem passFuse_rewritten (hsc : Scoped (fun _ => False) is) (hok : DstOk is) :
    Rewritten fp t pc (passFuse canLower is).uses is (passFuse canLower is).insns := by
  have hloop : ∀ (ks : List Nat) (w : Fuse τ), Rewritten fp t pc w.uses is w.insns →
      Rewritten fp t pc (ks.foldl (fuseStep canLower (defSites is)) w).uses is
        (ks.foldl (fuseStep canLower (defSites is)) w).insns := by
    intro ks
    induction ks with
    | nil => exact fun _ h => h
    | cons k ks ih => exact fun w h => ih _ (fuseStep_rewritten h hsc hok)
  exact hloop _ _ (.init hsc)

end

/-! ## The multiply-accumulate pass -/

/-- What the pass works on; the use counts stay as they were counted. -/
structure Mac (τ : Type) where
  insns : List (Insn τ)
  macs : Nat := 0

/-- The product that a sum or difference adds, and the addend. `c - a * b` is what the machine has, so
of a difference only the right operand qualifies. -/
def mulSource (is : List (Insn τ)) (uses : τ → Nat) (site : τ → Option Nat) (i : Insn τ) :
    Option (Source τ × Option τ) :=
  match (singleDef is uses site i.b).filter (fun r => r.insn.op = .mul ∧ r.insn.dead = false) with
  | some r => some (r, i.a)
  | none =>
    if i.op = .sub then none
    else ((singleDef is uses site i.a).filter fun r => r.insn.op = .mul ∧ r.insn.dead = false).map (·, i.b)

/-- `EMU_IR_MAC_SUB` for a difference. -/
def macAux (op : Op) : Byte := if op = .sub then macSub else 0

/-- The sum with the product `src` in place of its operand. -/
def Insn.foldMac (i src : Insn τ) (addend : Option τ) : Insn τ :=
  { i with op := .mac, aux := macAux i.op, a := src.a, b := src.b, c := addend }

/-- The body of the loop at instruction `k`. -/
def macStep (canLower : Op → Byte → Bool) (site : τ → Option Nat) (uses : τ → Nat) (w : Mac τ) (k : Nat) : Mac τ :=
  match w.insns[k]? with
  | none => w
  | some i =>
    if i.dead = false ∧ (i.op = .add ∨ i.op = .sub) then
      match mulSource w.insns uses site i with
      | none => w
      | some (r, addend) =>
        if addend.isSome && canLower .mac (macAux i.op) then
          { insns := (w.insns.set k (i.foldMac r.insn addend)).modify r.index Insn.kill, macs := w.macs + 1 }
        else w
    else w

/-- `pass_mac`. -/
def passMac (canLower : Op → Byte → Bool) (is : List (Insn τ)) : Mac τ :=
  (List.range is.length).foldl (macStep canLower (defSites is) (useCounts is)) { insns := is }

section

variable {fp : FloatOps F} {t : Target σ} {pc : Word} {canLower : Op → Byte → Bool} {uses : τ → Nat}
variable {i src : Insn τ} {is : List (Insn τ)} {w : Mac τ} {k : Nat} {r : Source τ} {addend : Option τ} {x y : τ}

/-- The two ways the operands of a sum hold a product. -/
def MulOperand (i : Insn τ) (x : τ) (addend : Option τ) : Prop :=
  i.b = some x ∧ i.a = addend ∨ i.op ≠ .sub ∧ i.a = some x ∧ i.b = addend

omit [DecidableEq τ] in
theorem mulSource_eq_some {site : τ → Option Nat} (h : mulSource is uses site i = some (r, addend)) :
    r.insn.op = .mul ∧ r.insn.dead = false ∧ MulOperand i r.temp addend ∧
      ∃ o, singleDef is uses site o = some r ∧ ∀ x ∈ o, x ∈ i.operands := by
  unfold mulSource at h
  split at h
  · rename_i hr
    cases h
    obtain ⟨hr, hop⟩ := Option.filter_eq_some_iff.mp hr
    obtain ⟨hop, hd⟩ := of_decide_eq_true hop
    exact ⟨hop, hd, .inl ⟨(singleDef_eq_some hr).1, rfl⟩, i.b, hr, fun x hx => Insn.mem_operands.mpr (by simp_all)⟩
  · split at h
    · cases h
    · rename_i hsub
      obtain ⟨r', hr, heq⟩ := Option.map_eq_some_iff.mp h
      cases heq
      obtain ⟨hr, hop⟩ := Option.filter_eq_some_iff.mp hr
      obtain ⟨hop, hd⟩ := of_decide_eq_true hop
      exact ⟨hop, hd, .inr ⟨hsub, (singleDef_eq_some hr).1, rfl⟩, i.a, hr,
        fun x hx => Insn.mem_operands.mpr (by simp_all)⟩

theorem foldMac_readCount (hd : i.dead = false) (hds : src.dead = false) (hx : MulOperand i x addend) :
    (i.foldMac src addend).readCount y + (if y = x then 1 else 0) ≤ i.readCount y + src.readCount y := by
  rw [Insn.readCount_live hd, Insn.readCount_live hds, Insn.readCount_live (i := i.foldMac src addend) hd]
  obtain ⟨hb, ha⟩ | ⟨-, ha, hb⟩ := hx <;> simp only [Insn.foldMac, ha, hb, count_toList_some] <;> omega

theorem exec_foldMac {s : State τ σ} (hd : i.dead = false) (hop : i.op = .add ∨ i.op = .sub)
    (hx : MulOperand i x addend) (hmul : s.tmp x = (src.read s.tmp).av * (src.read s.tmp).bv) :
    exec fp t pc (i.foldMac src addend) s = exec fp t pc i s := by
  refine exec_congr_alu hd hd (by rcases hop with hop | hop <;> rw [hop] <;> rfl) rfl rfl ?_
  have hmac : ((i.foldMac src addend).read s.tmp).av * ((i.foldMac src addend).read s.tmp).bv = s.tmp x := hmul.symm
  have hcv : ((i.foldMac src addend).read s.tmp).cv = (addend.map s.tmp).getD 0 := rfl
  have hav : (i.read s.tmp).av = (i.a.map s.tmp).getD 0 := rfl
  have hbv : (i.read s.tmp).bv = (i.b.map s.tmp).getD 0 := rfl
  have hop' : (i.foldMac src addend).op = .mac := rfl
  have haux : (i.foldMac src addend).aux = macAux i.op := rfl
  rw [hop', haux, hcv, hav, hbv]
  rcases hop with hop | hop
  · have hadd : macAux .add &&& macSub = 0 := by decide
    obtain ⟨hb, ha⟩ | ⟨-, ha, hb⟩ := hx
    · simp [hop, alu, hmac, ha, hb, hadd]
    · simp [hop, alu, hmac, ha, hb, hadd, BitVec.add_comm]
  · have hsub : macAux .sub &&& macSub = 1 := by decide
    obtain ⟨hb, ha⟩ | ⟨hne, -⟩ := hx
    · simp [hop, alu, hmac, ha, hb, hsub]
    · exact absurd hop hne

/-- One turn of the loop. -/
theorem macStep_rewritten (h : Rewritten fp t pc uses is w.insns) (hsc : Scoped (fun _ => False) is)
    (hok : DstOk is) : Rewritten fp t pc uses is (macStep canLower (defSites is) uses w k).insns := by
  unfold macStep
  split
  · exact h
  rename_i i hk
  split
  swap
  · exact h
  rename_i hcond
  obtain ⟨hd, hop⟩ := hcond
  split
  · exact h
  rename_i r addend hsrc
  split
  swap
  · exact h
  obtain ⟨hmul, hds, hx, o, hr, ho⟩ := mulSource_eq_some hsrc
  have halu : i.op.isAlu = true := by rcases hop with hop | hop <;> rw [hop] <;> rfl
  have hkeep : i.Keeps t (i.foldMac r.insn addend) := .of_isAlu halu rfl rfl rfl
  exact (h.fuse_source hsc hok hk hd hr ho (by rw [hmul]; rfl) hkeep rfl
    (fun y => foldMac_readCount hd hds hx) fun s heq =>
      exec_foldMac hd hop hx (by simpa [hmul, value, alu] using heq s.guest.cpu)).1

/-- The pass leaves an equivalent block. -/
theorem passMac_rewritten (hsc : Scoped (fun _ => False) is) (hok : DstOk is) :
    Rewritten fp t pc (useCounts is) is (passMac canLower is).insns := by
  have hloop : ∀ (ks : List Nat) (w : Mac τ), Rewritten fp t pc (useCounts is) is w.insns →
      Rewritten fp t pc (useCounts is) is
        (ks.foldl (macStep canLower (defSites is) (useCounts is)) w).insns := by
    intro ks
    induction ks with
    | nil => exact fun _ h => h
    | cons k ks ih => exact fun w h => ih _ (macStep_rewritten h hsc hok)
  exact hloop _ _ (.init hsc)

end

end Emu.Ir
