-- SUMMARY: The block builders `emu_ir_emit*`, and what every block they build without overflow satisfies.
import Emu.Ir.Rewrite

/-!
# Building blocks

A frontend builds a block by appending instructions whose operands are temps it was handed before.
Each instruction that writes is given the next temp, so every temp is written once and before its
uses. A block that ran out of room is marked and discarded.
-/

namespace Emu.Ir

/-- `EMU_IR_MAX_INSNS` and `EMU_IR_MAX_TEMPS`, which differ between builds. -/
structure Limits where
  maxInsns : Nat
  maxTemps : Nat

/-! ## The builders -/

namespace Block

variable (lim : Limits)

/-- `emu_ir_reset`; the frontend then says where the block starts. -/
def reset (startPc : Word) : Block Nat := { startPc }

/-- `emu_ir_temp`. -/
def temp (b : Block Nat) : Option Nat × Block Nat :=
  if b.nextTemp ≥ lim.maxTemps then (none, { b with overflow := true })
  else (some b.nextTemp, { b with nextTemp := b.nextTemp + 1 })

/-- `emu_ir_emit`. -/
def emit (b : Block Nat) (op : Op) (aux : Byte) (a bb : Option Nat) (imm : Word) (defs : Byte) :
    Option Nat × Block Nat :=
  if b.insns.length ≥ lim.maxInsns then (none, { b with overflow := true })
  else
    let (dst, b') := if op.writes then b.temp lim else (none, b)
    -- live until a pass proves otherwise
    (dst, { b' with insns := b.insns ++ [{ op, aux, dst, a, b := bb, imm, defs, live := defs }] })

/-- `b->insn[b->count - 1u].c = c`. -/
def setLastC (b : Block Nat) (c : Option Nat) : Block Nat :=
  { b with insns := b.insns.modify (b.insns.length - 1) fun i => { i with c } }

/-- `emu_ir_emit3`. -/
def emit3 (b : Block Nat) (op : Op) (aux : Byte) (a bb c : Option Nat) : Option Nat × Block Nat :=
  let (dst, b') := b.emit lim op aux a bb 0 0
  (dst, if dst.isSome ∧ b'.insns.length > 0 then b'.setLastC c else b')

/-- `emu_ir_mem_if`. -/
def memIf (b : Block Nat) (op : Op) (aux : Byte) (addr val : Option Nat) (disp : Word) (pred : Option Nat) :
    Option Nat × Block Nat :=
  let (dst, b') := b.emit lim op aux addr val disp 0
  (dst, if b'.insns.length > b.insns.length then b'.setLastC pred else b')

/-- `emu_ir_get`. -/
def get (b : Block Nat) (guestReg : Word) : Option Nat × Block Nat := b.emit lim .get 0 none none guestReg 0

/-- `emu_ir_put`. -/
def put (b : Block Nat) (guestReg : Word) (val : Option Nat) : Block Nat :=
  (b.emit lim .put 0 val none guestReg 0).2

/-- `emu_ir_const`. -/
def const (b : Block Nat) (v : Word) : Option Nat × Block Nat := b.emit lim .const 0 none none v 0

/-- `emu_ir_alu`. -/
def alu (b : Block Nat) (op : Op) (a bb : Option Nat) : Option Nat × Block Nat := b.emit lim op 0 a bb 0 0

/-- `emu_ir_bitop`. -/
def bitop (b : Block Nat) (op : Op) (addr bit : Option Nat) (disp : Word) (width : Byte) : Block Nat :=
  (b.emit lim op width addr bit disp flagZ).2

/-- An operand is no temp, or one that was handed out. -/
def Knows (b : Block Nat) (o : Option Nat) : Prop := ∀ x ∈ o, x < b.nextTemp

instance {b : Block Nat} {o : Option Nat} : Decidable (b.Knows o) :=
  inferInstanceAs (Decidable (∀ x ∈ o, x < b.nextTemp))

end Block

/-- The blocks a frontend can build. The shorthands are calls of `emit`. -/
inductive Built (lim : Limits) : Block Nat → Prop
  | reset (startPc : Word) : Built lim (.reset startPc)
  | emit {b : Block Nat} (op : Op) (aux : Byte) {a bb : Option Nat} (imm : Word) (defs : Byte) (h : Built lim b)
    (ha : b.Knows a) (hbb : b.Knows bb) : Built lim (b.emit lim op aux a bb imm defs).2
  | emit3 {b : Block Nat} (op : Op) (aux : Byte) {a bb c : Option Nat} (h : Built lim b) (ha : b.Knows a)
    (hbb : b.Knows bb) (hc : b.Knows c) : Built lim (b.emit3 lim op aux a bb c).2
  | memIf {b : Block Nat} (op : Op) (aux : Byte) {addr val pred : Option Nat} (disp : Word) (h : Built lim b)
    (ha : b.Knows addr) (hv : b.Knows val) (hp : b.Knows pred) : Built lim (b.memIf lim op aux addr val disp pred).2

/-! ## What they build -/

variable {lim : Limits} {b : Block Nat} {op : Op} {aux defs : Byte} {a bb c : Option Nat} {imm : Word} {i : Insn Nat}

/-- A block as the builders leave it. -/
structure WellBuilt (lim : Limits) (b : Block Nat) : Prop where
  inScope : Scoped (fun _ => False) b.insns
  defined : ∀ x, DefinedBy (fun _ => False) b.insns x ↔ x < b.nextTemp
  dstOk : DstOk b.insns
  fresh : ∀ i ∈ b.insns, i.live = i.defs ∧ i.dead = false
  temps : b.nextTemp ≤ lim.maxTemps

/-- `b` with `i` at its end, given the next temp if it writes. -/
def Block.push (b : Block Nat) (i : Insn Nat) : Block Nat :=
  { b with
    insns := b.insns ++ [{ i with dst := if i.op.writes then some b.nextTemp else none }]
    nextTemp := b.nextTemp + if i.op.writes then 1 else 0 }

/-- Where it does not run out of room, `emit` pushes the instruction. -/
theorem emit_eq (h : (b.emit lim op aux a bb imm defs).2.overflow = false) :
    b.overflow = false ∧ (op.writes = true → b.nextTemp < lim.maxTemps) ∧
      b.emit lim op aux a bb imm defs =
        (if op.writes then some b.nextTemp else none, b.push { op, aux, a, b := bb, imm, defs, live := defs }) := by
  unfold Block.emit at h ⊢
  split
  · rename_i hfull
    simp [hfull] at h
  rename_i hroom
  rw [if_neg hroom] at h
  cases hw : op.writes with
  | false =>
    simp only [hw] at h
    exact ⟨h, by simp, by simp [Block.push, hw]⟩
  | true =>
    simp only [hw, if_true, Block.temp] at h ⊢
    split
    · rename_i hfull
      simp [hfull] at h
    · rename_i htemps
      rw [if_neg htemps] at h
      exact ⟨h, fun _ => by omega, by simp [Block.push, hw]⟩

theorem push_setLastC : (b.push i).setLastC c = b.push { i with c } := by
  simp [Block.push, Block.setLastC, List.modify_eq_set_getElem?]

/-- Where it does not run out of room, `emit3` pushes the instruction with its third operand. -/
theorem emit3_eq (h : (b.emit3 lim op aux a bb c).2.overflow = false) :
    b.overflow = false ∧ (op.writes = true → b.nextTemp < lim.maxTemps) ∧
      b.emit3 lim op aux a bb c =
        (if op.writes then some b.nextTemp else none,
          b.push { op, aux, a, b := bb, c := if op.writes then c else none }) := by
  have hemit : (b.emit lim op aux a bb 0 0).2.overflow = false := by
    revert h
    simp only [Block.emit3]
    split <;> exact id
  obtain ⟨ho, hroom, heq⟩ := emit_eq hemit
  refine ⟨ho, hroom, ?_⟩
  simp only [Block.emit3, heq]
  cases hw : op.writes with
  | false => simp
  | true =>
    have hpos : 0 < (b.push { op, aux, a, b := bb }).insns.length := by simp [Block.push]
    simp only [if_true, Option.isSome_some, gt_iff_lt, hpos, and_self, push_setLastC]

/-- Pushing keeps a block well built. -/
theorem WellBuilt.push (h : WellBuilt lim b) (hops : ∀ x ∈ i.operands, x < b.nextTemp) (hlive : i.live = i.defs)
    (hdead : i.dead = false) (hroom : i.op.writes = true → b.nextTemp < lim.maxTemps) :
    WellBuilt lim (b.push i) := by
  have hdef : ∀ x, ({ i with dst := if i.op.writes then some b.nextTemp else none } : Insn Nat).Defines x ↔
      i.op.writes = true ∧ x = b.nextTemp := by
    intro x
    cases hw : i.op.writes <;> simp [Insn.Defines, hdead, hw, eq_comm]
  refine ⟨?_, fun x => ?_, ?_, ?_, ?_⟩
  · refine scoped_append.mpr ⟨h.inScope, fun x hx => (h.defined x).mpr (hops x hx.2), fun x hx hD => ?_, trivial⟩
    have hlt := (h.defined x).mp hD
    have := ((hdef x).mp hx).2
    omega
  · have hold := h.defined x
    simp only [DefinedBy, Block.push, List.mem_append, List.mem_singleton, or_and_right, exists_or, exists_eq_left,
      hdef, false_or] at hold ⊢
    rw [hold]
    cases i.op.writes with
    | false => simp
    | true => simp; omega
  · intro j hj hdst
    rcases List.mem_append.mp hj with hj | hj
    · exact h.dstOk j hj hdst
    · cases List.mem_singleton.mp hj
      revert hdst
      cases i.op.writes <;> simp
  · intro j hj
    rcases List.mem_append.mp hj with hj | hj
    · exact h.fresh j hj
    · cases List.mem_singleton.mp hj
      exact ⟨hlive, hdead⟩
  · have htemps := h.temps
    simp only [Block.push]
    split
    · exact hroom ‹_›
    · exact htemps

theorem knows_operands (ha : b.Knows i.a) (hb : b.Knows i.b) (hc : b.Knows i.c) :
    ∀ x ∈ i.operands, x < b.nextTemp := by
  intro x hx
  rcases Insn.mem_operands.mp hx with h | h | h
  · exact ha x h
  · exact hb x h
  · exact hc x h

theorem Block.knows_none : b.Knows none := by
  simp [Block.Knows]

/-- A block built without overflow is a run of pushes. -/
theorem Built.push_induction {P : Block Nat → Prop} (hreset : ∀ startPc, P (.reset startPc))
    (hpush : ∀ {b i}, P b → (∀ x ∈ i.operands, x < b.nextTemp) → i.live = i.defs → i.dead = false →
      (i.op.writes = true → b.nextTemp < lim.maxTemps) → P (b.push i))
    (h : Built lim b) (ho : b.overflow = false) : P b := by
  induction h with
  | reset startPc => exact hreset startPc
  | emit op aux imm defs _ ha hbb ih =>
    obtain ⟨ho', hroom, heq⟩ := emit_eq ho
    rw [heq]
    exact hpush (ih ho') (knows_operands ha hbb Block.knows_none) rfl rfl hroom
  | @emit3 b op aux a bb c _ ha hbb hc ih =>
    obtain ⟨ho', hroom, heq⟩ := emit3_eq ho
    rw [heq]
    refine hpush (ih ho') (knows_operands ha hbb ?_) rfl rfl hroom
    exact iteInduction (fun _ => hc) fun _ => Block.knows_none
  | @memIf b op aux addr val pred disp _ ha hv hp ih =>
    have hemit : (b.emit lim op aux addr val disp 0).2.overflow = false := by
      revert ho
      simp only [Block.memIf]
      split <;> exact id
    obtain ⟨ho', hroom, heq⟩ := emit_eq hemit
    simp only [Block.memIf, heq]
    refine iteInduction (fun _ => ?_) fun _ => ?_
    · rw [push_setLastC]
      exact hpush (ih ho') (knows_operands ha hv hp) rfl rfl hroom
    · exact hpush (ih ho') (knows_operands ha hv Block.knows_none) rfl rfl hroom

theorem WellBuilt.reset (startPc : Word) : WellBuilt lim (.reset startPc) :=
  ⟨trivial, by simp [DefinedBy, Block.reset], by simp [DstOk, Block.reset], by simp [Block.reset], Nat.zero_le _⟩

/-- Every block built without overflow is well built. -/
theorem Built.wellBuilt (h : Built lim b) (ho : b.overflow = false) : WellBuilt lim b :=
  h.push_induction .reset .push ho

/-- The temps are numbered in the order of the instructions that write them. -/
def Numbered (is : List (Insn Nat)) : Prop := (is.map Insn.dst).Pairwise fun o o' => ∀ x ∈ o, ∀ y ∈ o', x < y

theorem WellBuilt.dst_lt (h : WellBuilt lim b) {x : Nat} (hi : i ∈ b.insns) (hx : i.dst = some x) : x < b.nextTemp :=
  (h.defined x).mp (.inr ⟨i, hi, (h.fresh i hi).2, h.dstOk i hi (by simp [hx]), hx⟩)

theorem Numbered.push (h : Numbered b.insns) (hb : WellBuilt lim b) : Numbered (b.push i).insns := by
  have hlast : ∀ o ∈ b.insns.map Insn.dst, ∀ x ∈ o, x < b.nextTemp := by
    intro o ho x hx
    obtain ⟨j, hj, rfl⟩ := List.mem_map.mp ho
    exact hb.dst_lt hj hx
  rw [Numbered, Block.push, List.map_append, List.pairwise_append]
  refine ⟨h, List.pairwise_singleton _ _, fun o ho o' ho' x hx y hy => ?_⟩
  cases List.mem_singleton.mp ho'
  -- the temp pushed last is the next one
  cases hw : i.op.writes with
  | false => simp [hw] at hy
  | true =>
    obtain rfl : b.nextTemp = y := by simpa [hw] using hy
    exact hlast o ho x hx

/-- Every block built without overflow has its temps in order. -/
theorem Built.numbered (h : Built lim b) (ho : b.overflow = false) : Numbered b.insns :=
  (h.push_induction (P := fun b => WellBuilt lim b ∧ Numbered b.insns) (fun startPc => ⟨.reset startPc, .nil⟩)
    (fun hb hops hlive hdead hroom => ⟨hb.1.push hops hlive hdead hroom, hb.2.push hb.1⟩) ho).2

end Emu.Ir
