-- SUMMARY: `emu_ir_can_lower`, `lower_one` and `emu_ir_lower` of the two backends, and which optimised blocks they refuse.
import Emu.Ir.Optimise

/-!
# Lowering

A backend answers two questions about an operation. `emu_ir_can_lower` is asked before a block is
built, and by the passes that would create an operation; answering true is a promise. `lower_one` is
the switch that emits the code, and has refusals of its own. Here `lower_one` is the answer it
returns: the code it emits is left out, and with it where the emission runs out of room, which
`emu_ir_lower` below takes as a parameter.

What a backend accepts depends on the operation, its `aux` and its immediate only. The passes change
these in few ways, so that any property of them that survives those ways survives the optimiser.
-/

namespace Emu.Ir

variable {τ σ : Type}

/-- What lowering asks of `emu_ir_target_t`; of `fp_flags` only whether there is one. -/
structure LowerTarget (σ : Type) extends Target σ where
  fpFlags : Bool

/-- `EMU_IR_FRM(aux) == EMU_IR_FRM_RNE`. -/
def roundsNearest (aux : Byte) : Bool := aux &&& 7 = 0

/-- The range `EMU_IR_FADD` to `EMU_IR_FCLASS`, which sets `g_has_fp`. -/
def Op.isFp : Op → Bool
  | .fadd | .fsub | .fmul | .fdiv | .fsqrt | .fma | .fmin | .fmax | .fsgnj | .fcmp | .fcvtToI | .fcvtFromI
  | .fclass => true
  | _ => false

/-- `t->helpers != NULL && in->imm < t->helper_count`. -/
def LowerTarget.hasHelper (t : LowerTarget σ) (imm : Word) : Bool := imm.toNat < t.helpers.length

/-! ## The Thumb-2 backend -/

namespace Thumb2

/-- `T2_MEM_STORE`. -/
def memStore : Byte := 0x80

/-- `T2_BISECT`, as it is defined where the build does not set it. -/
def bisect : Nat := 99

/-- `emu_ir_can_lower`. -/
def canLower (op : Op) (aux : Byte) : Bool :=
  match op with
  | .fget | .fput | .fsgnj => true
  | .fadd | .fsub | .fmul | .fdiv | .fsqrt => roundsNearest aux
  | .fma => roundsNearest aux
  | .mac => true
  | .fmin | .fmax | .fcmp | .fcvtToI | .fcvtFromI | .fclass => false
  | .bext | .bset | .bclr | .binv => false
  | .rotl => false
  | .bitopSet | .bitopClr | .bitopInv | .bitopTst => false
  | _ => true

/-- `bisect_allows`. -/
def bisectAllows : Op → Bool
  | .nop | .retire | .setpc => 0 ≤ bisect
  | .get | .put | .const | .mov => 1 ≤ bisect
  | .add | .sub | .and | .or | .xor | .not | .neg | .addi | .andi | .ori | .xori => 2 ≤ bisect
  | .shl | .shr | .sar | .shli | .shri | .sari | .rotli => 3 ≤ bisect
  | .bswap32 | .bswap16 | .hswap | .clz | .ctz | .sext8 | .sext16 | .zext8 | .zext16 => 4 ≤ bisect
  | .setcc => 5 ≤ bisect
  | .exit | .exitIf => 6 ≤ bisect
  | .mul | .mulhs | .mulhu | .mac | .divs | .divu | .rems | .remu => 7 ≤ bisect
  | .load | .store | .helper | .helperTrap => 7 ≤ bisect
  | .fget | .fput | .fsgnj | .fadd | .fsub | .fmul | .fdiv | .fsqrt | .fma => 8 ≤ bisect
  | .setf => 9 ≤ bisect
  | .getcond => 10 ≤ bisect
  | _ => false

/-- `lower_one`. -/
def lowerOne (t : LowerTarget σ) (i : Insn τ) : Bool :=
  bisectAllows i.op &&
    match i.op with
    | .fget | .fput => t.fregOffset.isSome
    | .fadd | .fsub | .fmul | .fdiv | .fma | .fsqrt => canLower i.op i.aux
    | .load => t.load.isSome && i.aux &&& memStore = 0
    | .store => t.store.isSome && i.aux &&& memStore = 0
    | .helper | .helperTrap => t.hasHelper i.imm
    | .fmin | .fmax | .fcmp | .fcvtToI | .fcvtFromI | .fclass | .select | .bitopSet | .bitopClr | .bitopInv
    | .bitopTst | .popcnt | .bext | .bset | .bclr | .binv | .rotl => false
    | _ => true

end Thumb2

/-! ## The x86-64 backend -/

namespace X86

/-- `emu_ir_can_lower`. -/
def canLower (op : Op) (aux : Byte) : Bool :=
  match op with
  | .addi | .andi | .ori | .xori | .shli | .shri | .sari => true
  | .divs | .divu | .rems | .remu => true
  | .fget | .fput | .fsgnj | .fcmp => true
  | .fadd | .fsub | .fmul | .fdiv | .fsqrt => roundsNearest aux
  | .fma => false
  | .mac => false
  | .fcvtFromI => aux &&& fpUnsigned = 0 && roundsNearest aux
  -- the other mode is `EMU_IR_FRM_RTZ`
  | .fcvtToI => aux &&& fpUnsigned = 0 && (aux &&& 7 = 1 || roundsNearest aux)
  | .rotli => true
  | .bswap32 | .bswap16 | .hswap | .clz | .ctz | .mulhs | .mulhu => true
  | .bitopSet | .bitopClr | .bitopInv | .bitopTst => true
  | _ => false

/-- `lower_one`. -/
def lowerOne (t : LowerTarget σ) (i : Insn τ) : Bool :=
  match i.op with
  | .fget | .fput => t.fregOffset.isSome
  | .fadd | .fsub | .fmul | .fdiv | .fsqrt | .fcvtFromI | .fcvtToI => canLower i.op i.aux
  | .helper | .helperTrap => t.hasHelper i.imm
  | .load => t.load.isSome
  | .store => t.store.isSome
  | .bitopSet | .bitopClr | .bitopInv | .bitopTst => t.load.isSome && t.store.isSome && t.zBit ≠ 0
  -- the enumerators are those of `emu_ir_cond_t`: always, equal, not equal
  | .select => i.aux = 10 || t.zBit ≠ 0 && (i.aux = 0 || i.aux = 1)
  | .fmin | .fmax | .fclass | .popcnt | .rotl | .fma | .mac => false
  | _ => true

end X86

/-! ## Lowering a block -/

/-- The hosts code is emitted for. -/
inductive Backend where
  | thumb2 | x86

namespace Backend

/-- `emu_ir_can_lower`. -/
def canLower : Backend → Op → Byte → Bool
  | .thumb2 => Thumb2.canLower
  | .x86 => X86.canLower

/-- `lower_one`. -/
def lowerOne : Backend → LowerTarget σ → Insn τ → Bool
  | .thumb2 => Thumb2.lowerOne
  | .x86 => X86.lowerOne

end Backend

/-- How `emu_ir_lower` ends. Its two ways to return false are told apart: an instruction or the target
was refused, or there was no room left. -/
inductive Lowering where
  | lowered | refused | noRoom
  deriving DecidableEq

/-- The loop of `emu_ir_lower`, from instruction `k` on: `full k` says that the code buffer, the literal
pool or the table of exits has run out after it, or in the tail if there is none. -/
def lowerLoop (one : Insn τ → Bool) (full : Nat → Bool) : Nat → List (Insn τ) → Lowering
  | k, [] => if full k then .noRoom else .lowered
  | k, i :: is =>
    if i.dead then lowerLoop one full (k + 1) is
    else if !one i then .refused
    else if full k then .noRoom
    else lowerLoop one full (k + 1) is

/-- `emu_ir_lower`. -/
def Backend.lower (be : Backend) (t : LowerTarget σ) (full : Nat → Bool) (b : Block τ) : Lowering :=
  -- the builder ran out of instructions or temps
  if b.overflow then .noRoom
  else if b.insns.any (fun i => !i.dead && i.op.isFp) && !(t.fpFlags && t.fregOffset.isSome) then .refused
  else lowerLoop (be.lowerOne t) full 0 b.insns

/-- Neither `lower_one` nor the check for the FP class refuses the instruction. -/
def Backend.accepts (be : Backend) (t : LowerTarget σ) (i : Insn τ) : Bool :=
  be.lowerOne t i && (!i.op.isFp || t.fpFlags && t.fregOffset.isSome)

/-- Wherever the room ends, nothing of the block is refused. -/
def Backend.Lowers (be : Backend) (t : LowerTarget σ) (b : Block τ) : Prop := ∀ full, be.lower t full b ≠ .refused

section

variable {be : Backend} {t : LowerTarget σ} {b : Block τ} {one : Insn τ → Bool} {full : Nat → Bool} {k : Nat}
variable {i : Insn τ} {is : List (Insn τ)}

theorem lowerLoop_ne_refused (h : ∀ i ∈ is, i.dead = false → one i = true) : lowerLoop one full k is ≠ .refused := by
  induction is generalizing k with
  | nil =>
    rw [lowerLoop]
    split <;> simp
  | cons i is ih =>
    have hrest := ih (k := k + 1) fun j hj => h j (List.mem_cons_of_mem _ hj)
    rw [lowerLoop]
    split
    · exact hrest
    · rename_i hd
      rw [if_neg (by simp [h i List.mem_cons_self (by simpa using hd)])]
      split
      · simp
      · exact hrest

/-- Given the room, the loop comes to every live instruction. -/
theorem one_of_lowerLoop (h : lowerLoop one (fun _ => false) k is ≠ .refused) :
    ∀ i ∈ is, i.dead = false → one i = true := by
  induction is generalizing k with
  | nil => simp
  | cons i is ih =>
    rw [lowerLoop] at h
    intro j hj hd
    split at h
    · rename_i hdead
      rcases List.mem_cons.mp hj with rfl | hj
      · rw [hdead] at hd
        cases hd
      · exact ih h j hj hd
    · split at h
      · exact absurd rfl h
      · rename_i hone
        rcases List.mem_cons.mp hj with rfl | hj
        · simpa using hone
        · exact ih h j hj hd

theorem Backend.lowers_iff :
    be.Lowers t b ↔ (b.overflow = false → ∀ i ∈ b.insns, i.dead = false → be.accepts t i = true) := by
  cases ho : b.overflow with
  | true => simp [Backend.Lowers, Backend.lower, ho]
  | false =>
    simp only [Backend.Lowers, Backend.lower, ho, Bool.false_eq_true, if_false, forall_const]
    constructor
    · intro h i hi hd
      have hroom := h fun _ => false
      split at hroom
      · exact absurd rfl hroom
      · rename_i hfp
        have hone := one_of_lowerLoop hroom i hi hd
        cases hop : i.op.isFp with
        | false => simp [Backend.accepts, hone, hop]
        | true =>
          have hany : b.insns.any (fun i => !i.dead && i.op.isFp) = true :=
            List.any_eq_true.mpr ⟨i, hi, by simp [hd, hop]⟩
          simp only [hany, Bool.true_and, Bool.not_eq_true', Bool.not_eq_false] at hfp
          simp [Backend.accepts, hone, hfp]
    · intro h full
      rw [if_neg]
      · exact lowerLoop_ne_refused fun i hi hd => ((Bool.and_eq_true _ _).mp (h i hi hd)).1
      · intro hfp
        obtain ⟨hany, hno⟩ := (Bool.and_eq_true _ _).mp hfp
        obtain ⟨i, hi, hlive⟩ := List.any_eq_true.mp hany
        simp only [Bool.and_eq_true, Bool.not_eq_true'] at hlive
        have hacc := h i hi hlive.1
        simp_all [Backend.accepts]

end

/-! ## What the passes do to an instruction -/

/-- A property of an operation, its `aux` and its immediate that the ways in which the passes rewrite an
instruction do not leave. -/
structure Closed (canLower : Op → Byte → Bool) (P : Op → Byte → Word → Prop) : Prop where
  mov : ∀ aux imm, P .mov aux imm
  const : ∀ aux imm, P .const aux imm
  immForm : ∀ op op' aux imm, Op.immForm op = some op' → canLower op' aux = true → P op' aux imm
  mac : ∀ aux imm, canLower .mac aux = true → P .mac aux imm
  setImm : ∀ op aux imm imm', op = .load ∨ op = .store ∨ op = .retire → P op aux imm → P op aux imm'

/-- The property holds of every live instruction. -/
def AllLive (P : Op → Byte → Word → Prop) (is : List (Insn τ)) : Prop :=
  ∀ i ∈ is, i.dead = false → P i.op i.aux i.imm

section

variable {P : Op → Byte → Word → Prop} {canLower : Op → Byte → Bool} {t : Target σ}
variable {i i' : Insn τ} {is is' : List (Insn τ)} {k : Nat}

theorem AllLive.set (h : AllLive P is) (hi : i.dead = false → P i.op i.aux i.imm) : AllLive P (is.set k i) := by
  intro j hj hd
  rcases List.mem_or_eq_of_mem_set hj with hj | rfl
  · exact h j hj hd
  · exact hi hd

theorem AllLive.kill (h : AllLive P is) : AllLive P (is.modify k Insn.kill) := by
  intro j hj hd
  rw [List.modify_eq_set_getElem?] at hj
  cases hk : is[k]? with
  | none => exact h j (by simpa [hk] using hj) hd
  | some i =>
    rw [hk] at hj
    exact h.set (i := i.kill) (fun hkill => by cases hkill) j hj hd

/-- The passes that only switch instructions off. -/
theorem AllLive.of_forall₂ (h : AllLive P is)
    (hrel : List.Forall₂ (fun i i' => i'.dead = false →
      i.dead = false ∧ i'.op = i.op ∧ i'.aux = i.aux ∧ i'.imm = i.imm) is is') : AllLive P is' := by
  induction hrel with
  | nil => exact h
  | @cons i i' is is' hi _ ih =>
    intro j hj hd
    rcases List.mem_cons.mp hj with rfl | hj
    · obtain ⟨hdead, hop, haux, himm⟩ := hi hd
      rw [hop, haux, himm]
      exact h i List.mem_cons_self hdead
    · exact ih (fun j hj => h j (List.mem_cons_of_mem _ hj)) j hj hd

theorem AllLive.deadFlags (h : AllLive P is) (liveOut : Byte) : AllLive P (passDeadFlags liveOut is).insns := by
  refine h.of_forall₂ (passDeadFlags_forall₂.imp fun i i' ⟨heq, hdead⟩ hd => ?_)
  rcases hdead with hdead | ⟨-, hdead⟩
  · exact ⟨hdead ▸ hd, by rw [heq], by rw [heq], by rw [heq]⟩
  · rw [hdead] at hd
    cases hd

theorem AllLive.deadPuts (h : AllLive P is) : AllLive P (passDeadPuts t is).insns := by
  refine h.of_forall₂ (passDeadPuts_forall₂.imp fun i i' hor hd => ?_)
  rcases hor with rfl | ⟨-, rfl⟩
  · exact ⟨hd, rfl, rfl, rfl⟩
  · cases hd

theorem AllLive.countUses [DecidableEq τ] (h : AllLive P is) : AllLive P (passCountUses is) := by
  intro i hi hd
  obtain ⟨j, hj, rfl⟩ := List.mem_map.mp hi
  exact h j hj hd

variable [DecidableEq τ]

theorem AllLive.deadValues (h : AllLive P is) : AllLive P (passDeadValues is).insns := by
  refine h.of_forall₂ (passDeadValues_forall₂.imp fun i i' hor hd => ?_)
  rcases hor with rfl | ⟨-, rfl⟩
  · exact ⟨hd, rfl, rfl, rfl⟩
  · cases hd

omit [DecidableEq τ] in
/-- A register read that becomes a copy. -/
theorem Closed.forwardGet (hP : Closed canLower P) {cur : Word → Option τ} (hi : P i.op i.aux i.imm) :
    P (forwardGet t cur i).op (forwardGet t cur i).aux (forwardGet t cur i).imm := by
  unfold Ir.forwardGet
  split
  · split
    · exact hP.mov _ _
    · exact hi
  · exact hi

theorem Closed.trafficLoop (hP : Closed canLower P) (h : AllLive P is) (w : Traffic τ) :
    AllLive P (trafficLoop t w is) := by
  induction is generalizing w with
  | nil => exact h
  | cons i is ih =>
    intro j hj hd
    rcases List.mem_cons.mp hj with rfl | hj
    · cases hdead : i.dead with
      | true =>
        rw [trafficStep, if_pos hdead, hdead] at hd
        cases hd
      | false =>
        rw [trafficStep, if_neg (by simp [hdead])]
        exact hP.forwardGet (h i List.mem_cons_self hdead)
    · exact ih (fun j hj => h j (List.mem_cons_of_mem _ hj)) _ j hj hd

theorem Closed.passRegTraffic (hP : Closed canLower P) (h : AllLive P is) : AllLive P (passRegTraffic t is) :=
  hP.trafficLoop h _

theorem Closed.fuseConst (hP : Closed canLower P) {site : τ → Option Nat} {w : Fuse τ} (h : AllLive P w.insns) :
    AllLive P (fuseConst canLower site k w).insns := by
  unfold Ir.fuseConst
  split
  · exact h
  · split
    · exact h
    · rename_i i _ _ op hform
      split
      · exact h
      · split
        · rename_i hcan
          have hcan := ((Bool.and_eq_true _ _).mp hcan).2
          exact (h.set fun _ => hP.immForm _ _ _ _ hform hcan).kill
        · exact h

omit [DecidableEq τ] in
theorem Closed.fuseAddr (hP : Closed canLower P) {site : τ → Option Nat} {w : Fuse τ} (h : AllLive P w.insns) :
    AllLive P (fuseAddr site k w).insns := by
  unfold Ir.fuseAddr
  split
  · exact h
  · rename_i i hi
    split
    · rename_i hop
      split
      · exact h
      · split
        · refine (h.set fun hd => ?_).kill
          have hold := h i (List.mem_of_getElem? hi) hd
          exact hP.setImm _ _ _ _ (hop.imp_right .inl) hold
        · exact h
    · exact h

omit [DecidableEq τ] in
theorem identity_op (h : i.identity = some i') : i'.op = .mov ∨ i'.op = .const := by
  unfold Insn.identity at h
  split at h
  case h_8 =>
    split at h
    · cases h
      exact .inl rfl
    · split at h
      · cases h
        exact .inr rfl
      · cases h
  case h_9 => cases h
  all_goals
    split at h
    · cases h
      exact .inl rfl
    · cases h

omit [DecidableEq τ] in
theorem Closed.fuseIdentity (hP : Closed canLower P) {w : Fuse τ} (h : AllLive P w.insns) :
    AllLive P (fuseIdentity k w).insns := by
  unfold Ir.fuseIdentity
  split
  · exact h
  · rename_i i hi
    obtain ⟨j, -, hid⟩ := Option.bind_eq_some_iff.mp hi
    refine h.set fun _ => ?_
    rcases identity_op hid with hop | hop
    · rw [hop]
      exact hP.mov _ _
    · rw [hop]
      exact hP.const _ _

theorem Closed.passFuse (hP : Closed canLower P) (h : AllLive P is) : AllLive P (passFuse canLower is).insns := by
  refine List.foldlRecOn (motive := fun w : Fuse τ => AllLive P w.insns) _ _ h fun w hw k _ => ?_
  unfold fuseStep
  split
  · exact hw
  · split
    · exact hw
    · exact hP.fuseIdentity (hP.fuseAddr (hP.fuseConst hw))

theorem Closed.passMac (hP : Closed canLower P) (h : AllLive P is) : AllLive P (passMac canLower is).insns := by
  refine List.foldlRecOn (motive := fun w : Mac τ => AllLive P w.insns) _ _ h fun w hw k _ => ?_
  unfold macStep
  split
  · exact hw
  · split
    · split
      · exact hw
      · split
        · rename_i hcan
          have hcan := ((Bool.and_eq_true _ _).mp hcan).2
          exact (hw.set fun _ => hP.mac _ _ hcan).kill
        · exact hw
    · exact hw

omit [DecidableEq τ] in
theorem Closed.passMergeRetire (hP : Closed canLower P) (h : AllLive P is) : AllLive P (passMergeRetire is).insns := by
  refine List.foldlRecOn (motive := fun w : Merge τ => AllLive P w.insns) _ _ h fun w hw k _ => ?_
  unfold mergeStep
  split
  · exact hw
  · rename_i i hi
    have hset (hop : i.op = .retire) (n : Word) : AllLive P (w.insns.set k (i.setImm n)) :=
      hw.set fun hd => hP.setImm _ _ _ _ (.inr (.inr hop)) (hw i (List.mem_of_getElem? hi) hd)
    split
    · exact hw
    · split
      · rename_i hop
        split
        · exact (hset hop _).kill
        · exact hset hop _
      · split
        · exact hw
        · exact hw

/-- What the rewrites do not leave, the optimiser does not leave. -/
theorem Closed.optimise (hP : Closed canLower P) {liveOut : Byte} {b : Block τ} (h : AllLive P b.insns) :
    AllLive P (optimise canLower t liveOut b).1.insns := by
  unfold Ir.optimise
  split
  · exact h
  · have htraffic := hP.passRegTraffic (t := t) (h.deadFlags liveOut)
    have hvalues := ((hP.passFuse htraffic).deadPuts (t := t)).deadValues
    dsimp only
    exact (hP.passMergeRetire (hP.passMac hvalues)).countUses

theorem optimise_overflow {liveOut : Byte} {b : Block τ} :
    (optimise canLower t liveOut b).1.overflow = b.overflow := by
  unfold optimise
  split <;> rfl

end

/-! ## The promise and the switch -/

/-- The promises that `lower_one` does not keep, whatever the target: the default arm of the Thumb-2
`emu_ir_can_lower` covers two operations that `lower_one` declines, and accesses with the bit set that
the helper's specification uses. -/
def Backend.Breaks (be : Backend) (op : Op) (aux : Byte) : Prop :=
  match be with
  | .thumb2 => op = .popcnt ∨ op = .select ∨ (op = .load ∨ op = .store) ∧ aux &&& Thumb2.memStore ≠ 0
  | .x86 => False

/-- The target has what the instruction needs of it. -/
def LowerTarget.Supplies (t : LowerTarget σ) (i : Insn τ) : Prop :=
  match i.op with
  | .fget | .fput => t.fregOffset.isSome = true
  | .load => t.load.isSome = true
  | .store => t.store.isSome = true
  | .helper | .helperTrap => t.hasHelper i.imm = true
  | .bitopSet | .bitopClr | .bitopInv | .bitopTst =>
    t.load.isSome = true ∧ t.store.isSome = true ∧ t.zBit ≠ 0
  | op => op.isFp = true → t.fpFlags = true ∧ t.fregOffset.isSome = true

/-- The promise is kept for the instruction. -/
def Backend.Honours (be : Backend) (t : LowerTarget σ) (i : Insn τ) : Prop :=
  t.Supplies i ∧ ¬be.Breaks i.op i.aux

section

variable {be : Backend} {t : LowerTarget σ} {i : Insn τ}

/-- The two switches of Thumb-2 side by side, operation by operation. -/
theorem Thumb2.accepts_iff (h : Thumb2.canLower i.op i.aux = true) :
    Backend.thumb2.accepts t i = true ↔ Backend.thumb2.Honours t i := by
  obtain ⟨op, aux, dst, a, b, c, imm, defs, live, uses, dead⟩ := i
  cases op with
  | popcnt => exact iff_of_false Bool.false_ne_true fun hh => hh.2 (.inl rfl)
  | select => exact iff_of_false Bool.false_ne_true fun hh => hh.2 (.inr (.inl rfl))
  | load | store | helper | helperTrap | fget | fput =>
    simp [Backend.accepts, Backend.lowerOne, lowerOne, bisectAllows.eq_def, bisect, Op.isFp.eq_def, Backend.Honours,
      Backend.Breaks, LowerTarget.Supplies]
  | fadd | fsub | fmul | fdiv | fsqrt | fma | fsgnj =>
    simp_all [Backend.accepts, Backend.lowerOne, lowerOne, canLower, bisectAllows.eq_def, bisect, Op.isFp.eq_def, Backend.Honours,
      Backend.Breaks, LowerTarget.Supplies]
  | fmin | fmax | fcmp | fcvtToI | fcvtFromI | fclass | bext | bset | bclr | binv | rotl | bitopSet | bitopClr
  | bitopInv | bitopTst => cases h
  | _ =>
    refine iff_of_true rfl ⟨(fun hfp => by cases hfp), ?_⟩
    rintro (hop | hop | ⟨hop | hop, -⟩) <;> cases hop

/-- And those of x86-64. -/
theorem X86.accepts_iff (h : X86.canLower i.op i.aux = true) :
    Backend.x86.accepts t i = true ↔ Backend.x86.Honours t i := by
  obtain ⟨op, aux, dst, a, b, c, imm, defs, live, uses, dead⟩ := i
  cases op with
  | addi | andi | ori | xori | shli | shri | sari | divs | divu | rems | remu | rotli | bswap32 | bswap16 | hswap
  | clz | ctz | mulhs | mulhu => exact iff_of_true rfl ⟨(fun hfp => by cases hfp), id⟩
  | fget | fput | fsgnj | fcmp | bitopSet | bitopClr | bitopInv | bitopTst =>
    simp [Backend.accepts, Backend.lowerOne, lowerOne, Op.isFp.eq_def, Backend.Honours, Backend.Breaks,
      LowerTarget.Supplies, and_assoc]
  | fadd | fsub | fmul | fdiv | fsqrt | fcvtFromI | fcvtToI =>
    simp_all [Backend.accepts, Backend.lowerOne, lowerOne, canLower, Op.isFp.eq_def, Backend.Honours, Backend.Breaks,
      LowerTarget.Supplies]
  | _ => cases h

theorem Backend.accepts_iff (h : be.canLower i.op i.aux = true) : be.accepts t i = true ↔ be.Honours t i := by
  cases be with
  | thumb2 => exact Thumb2.accepts_iff h
  | x86 => exact X86.accepts_iff h

/-- The answer rests on the operation, its `aux` and its immediate. -/
theorem Backend.accepts_eq : be.accepts t i = be.accepts t ({ op := i.op, aux := i.aux, imm := i.imm } : Insn τ) := by
  cases be <;> rfl

/-- What the two passes that ask may create is accepted whatever the target is. -/
theorem Backend.accepts_created (hop : i.op = .mac ∨ ∃ op, Op.immForm op = some i.op)
    (h : be.canLower i.op i.aux = true) : be.accepts t i = true := by
  refine (Backend.accepts_iff h).mpr ?_
  obtain ⟨op, aux, dst, a, b, c, imm, defs, live, uses, dead⟩ := i
  rcases hop with rfl | ⟨op', hform⟩
  · cases be <;> simp [Backend.Honours, Backend.Breaks, LowerTarget.Supplies, Op.isFp]
  · cases op' <;> cases hform <;> cases be <;>
      simp [Backend.Honours, Backend.Breaks, LowerTarget.Supplies, Op.isFp]

/-- The optimiser does not leave what the backend accepts. -/
theorem Backend.accepts_closed (τ : Type) (be : Backend) (t : LowerTarget σ) :
    Closed be.canLower fun op aux imm => be.accepts t ({ op, aux, imm } : Insn τ) = true where
  mov _ _ := by cases be <;> rfl
  const _ _ := by cases be <;> rfl
  immForm op _ _ _ hform hcan := Backend.accepts_created (.inr ⟨op, hform⟩) hcan
  mac _ _ hcan := Backend.accepts_created (.inl rfl) hcan
  setImm _ _ _ _ hop h := by rcases hop with rfl | rfl | rfl <;> cases be <;> exact h

/-- Nor what it promised, and the copies and constants that are left of an operation. -/
theorem Backend.promised_closed (be : Backend) :
    Closed be.canLower fun op aux _ => be.canLower op aux = true ∨ op = .mov ∨ op = .const where
  mov _ _ := .inr (.inl rfl)
  const _ _ := .inr (.inr rfl)
  immForm _ _ _ _ _ hcan := .inl hcan
  mac _ _ hcan := .inl hcan
  setImm _ _ _ _ _ h := h

theorem Backend.accepts_of_mov_const (h : i.op = .mov ∨ i.op = .const) :
    be.accepts t i = true ∧ be.Honours t i := by
  obtain ⟨op, aux, dst, a, b, c, imm, defs, live, uses, dead⟩ := i
  rcases h with rfl | rfl
  all_goals
    refine ⟨by cases be <;> rfl, ?_⟩
    cases be <;> simp [Backend.Honours, Backend.Breaks, LowerTarget.Supplies, Op.isFp]

variable [DecidableEq τ] {b : Block τ} {liveOut : Byte}

/-- The optimiser creates nothing that the backend refuses. -/
theorem Backend.Lowers.optimise (h : be.Lowers t b) : be.Lowers t (optimise be.canLower t.toTarget liveOut b).1 := by
  rw [Backend.lowers_iff] at h ⊢
  rw [optimise_overflow]
  intro ho i hi hd
  rw [Backend.accepts_eq]
  refine (Backend.accepts_closed τ be t).optimise (fun j hj hjd => ?_) i hi hd
  exact Backend.accepts_eq.symm.trans (h ho j hj hjd)

theorem Backend.lowers_optimise_iff (h : ∀ i ∈ b.insns, i.dead = false → be.canLower i.op i.aux = true) :
    be.Lowers t (optimise be.canLower t.toTarget liveOut b).1 ↔
      (b.overflow = false →
        ∀ i ∈ (optimise be.canLower t.toTarget liveOut b).1.insns, i.dead = false → be.Honours t i) := by
  have hprom : AllLive _ (optimise be.canLower t.toTarget liveOut b).1.insns :=
    be.promised_closed.optimise fun i hi hd => .inl (h i hi hd)
  rw [Backend.lowers_iff, optimise_overflow]
  refine forall_congr' fun _ => forall_congr' fun i => forall_congr' fun hi => forall_congr' fun hd => ?_
  rcases hprom i hi hd with hcan | hop
  · exact Backend.accepts_iff hcan
  · exact iff_of_true (Backend.accepts_of_mov_const hop).1 (Backend.accepts_of_mov_const hop).2

end

/-- `r2` is the number of bits set in `r1`. -/
def popcntBlock : Block Nat :=
  let lim : Limits := ⟨2048, 1024⟩
  let b₁ := ((Block.reset 0).get lim 1).2
  let b₂ := (b₁.alu lim .popcnt (some 0) none).2
  let b₃ := b₂.put lim 2 (some 1)
  let b₄ := (b₃.emit lim .retire 0 none none 0 0).2
  (b₄.emit lim .exit 0 none none 4 0).2

end Emu.Ir
