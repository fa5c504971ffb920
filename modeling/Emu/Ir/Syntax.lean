-- SUMMARY: The intermediate representation: operations, instructions and what the passes ask of an operation.
import Mathlib

/-!
# The intermediate representation

The data of `emu_ir.h`: operations, the fields of an instruction, and the questions about an
operation that the builder, the passes and the interpreter ask. A temp is a value of a type `τ`,
so "below `EMU_IR_MAX_TEMPS`" holds by typing; `none` is `EMU_IR_NO_TEMP`.
-/

namespace Emu

/-- A 32-bit machine word: a guest value, an address or a byte offset in `emu_cpu_t`. -/
abbrev Word := BitVec 32

/-- The `uint8_t` fields of an instruction. -/
abbrev Byte := BitVec 8

namespace Ir

/-- `emu_ir_op_t`. -/
inductive Op where
  | nop | get | put | const | mov
  | add | sub | and | or | xor | shl | shr | sar | rotl | mul | mulhs | mulhu
  | divs | divu | rems | remu | mac
  | addi | andi | ori | xori | shli | shri | sari | rotli | neg | not
  | bswap32 | bswap16 | hswap | clz | ctz | popcnt | bext | bset | bclr | binv
  | bitopSet | bitopClr | bitopInv | bitopTst
  | sext8 | sext16 | zext8 | zext16
  | load | store | setf | getcond | setcc | select
  | fget | fput | fadd | fsub | fmul | fdiv | fsqrt | fma | fmin | fmax | fsgnj | fcmp
  | fcvtToI | fcvtFromI | fclass
  | helper | helperTrap | retire | setpc | exit | exitIf
  deriving DecidableEq

/-- `emu_ir_flagsrc_t`: how `setf` derives the flags it defines. -/
inductive FlagSrc where
  | logic | add | sub | zs | shift
  deriving DecidableEq

/-- The `switch` on `aux` in `apply_flags`; what is no enumerator takes the default arm. -/
def FlagSrc.ofAux (aux : Byte) : FlagSrc :=
  if aux = 1 then .add else if aux = 2 then .sub else if aux = 3 then .zs else if aux = 4 then .shift
  else .logic

/-- `emu_ir_cond_t`. -/
inductive Cond where
  | eq | ne | lt | ge | ltu | geu | le | gt | leu | gtu | always | mi | pl | vs | vc
  deriving DecidableEq

/-- The enumerator `aux` names; what is none of them is taken as `EMU_IR_C_ALWAYS`. -/
def Cond.ofAux (aux : Byte) : Cond :=
  ([.eq, .ne, .lt, .ge, .ltu, .geu, .le, .gt, .leu, .gtu, .always, .mi, .pl, .vs, .vc][aux.toNat]?).getD .always

/-! ## Constants -/

/-- `EMU_IR_F_Z`, the flag a memory bit operation defines. -/
def flagZ : Byte := 1

/-- `EMU_IR_F_ALL`. -/
def flagAll : Byte := 15

/-- `EMU_IR_MAC_SUB`. -/
def macSub : Byte := 1

/-- `EMU_IR_FP_BOX`. -/
def fpBox : Byte := 16

/-- `EMU_IR_F_UNSIGNED`. -/
def fpUnsigned : Byte := 8

/-- The canonical NaN of an FP result. -/
def canonicalNan : Word := 0x7FC00000

/-- `IR_MAX_GUEST_REGS`: the guest registers whose traffic the passes track. -/
def maxGuestRegs : Word := 64

/-- `EMU_JIT_LOOP_CAP`: a block that closes on itself is left once this many instructions retired. -/
def jitLoopCap : Word := 128

/-! ## Instructions -/

/-- `emu_ir_insn_t`. -/
structure Insn (τ : Type) where
  op : Op
  aux : Byte := 0
  dst : Option τ := none
  a : Option τ := none
  b : Option τ := none
  c : Option τ := none
  imm : Word := 0
  defs : Byte := 0
  live : Byte := 0
  uses : Nat := 0
  dead : Bool := false
  deriving DecidableEq

variable {τ : Type}

namespace Insn

/-- The temps an instruction reads, as every pass walks them. -/
def operands (i : Insn τ) : List τ := i.a.toList ++ i.b.toList ++ i.c.toList

/-- `in->dead = true`. -/
def kill (i : Insn τ) : Insn τ := { i with dead := true }

@[simp] theorem kill_dead {i : Insn τ} : i.kill.dead = true := rfl
@[simp] theorem kill_dst {i : Insn τ} : i.kill.dst = i.dst := rfl
@[simp] theorem kill_op {i : Insn τ} : i.kill.op = i.op := rfl

theorem mem_operands {i : Insn τ} {x : τ} : x ∈ i.operands ↔ i.a = some x ∨ i.b = some x ∨ i.c = some x := by
  simp [operands]

/-- A live `exit`: what stands behind it in the block is never executed. -/
def leaves (i : Insn τ) : Bool := !i.dead && i.op = .exit

end Insn

/-- `emu_ir_block_t`: the instructions in emission order, and what the builder keeps beside them. -/
structure Block (τ : Type) where
  insns : List (Insn τ) := []
  nextTemp : Nat := 0
  startPc : Word := 0
  overflow : Bool := false

/-! ## What the code asks of an operation -/

namespace Op

/-- `op_writes`: does this op produce a value? -/
def writes : Op → Bool
  | .put | .fput | .store | .setf | .retire | .setpc | .exit | .exitIf | .nop
  | .bitopSet | .bitopClr | .bitopInv | .bitopTst => false
  | _ => true

/-- `op_reads_flags`. -/
def readsFlags : Op → Byte
  | .getcond | .select | .exitIf | .load | .store | .bitopSet | .bitopClr | .bitopInv | .bitopTst
  | .helper | .helperTrap => flagAll
  | _ => 0

/-- `op_observes_state`: may the block be left here, or its state be read from outside? -/
def observesState : Op → Bool
  | .load | .store | .bitopSet | .bitopClr | .bitopInv | .bitopTst | .helper | .helperTrap | .exit
  | .exitIf => true
  | _ => false

/-- `op_is_pure`: is this operation nothing but its result? -/
def isPure : Op → Bool
  | .get | .const | .mov | .add | .sub | .and | .or | .xor | .shl | .shr | .sar | .rotl | .mul | .mulhs
  | .mulhu | .divs | .divu | .rems | .remu | .mac | .addi | .andi | .ori | .xori | .shli | .shri | .sari
  | .rotli | .neg | .not | .bswap32 | .bswap16 | .hswap | .clz | .ctz | .popcnt | .bext | .bset | .bclr
  | .binv | .sext8 | .sext16 | .zext8 | .zext16 | .getcond | .setcc | .select | .fget | .fsgnj
  | .fclass => true
  | _ => false

/-- The memory bit operations. -/
def isBitop : Op → Bool
  | .bitopSet | .bitopClr | .bitopInv | .bitopTst => true
  | _ => false

/-- The calls of a frontend helper. -/
def isHelper : Op → Bool
  | .helper | .helperTrap => true
  | _ => false

/-- The operations that do nothing but write their temp: the default arm of the interpreter. -/
def isValue : Op → Bool
  | .nop | .retire | .put | .fput | .setf | .setpc | .exit | .exitIf | .load | .store | .bitopSet | .bitopClr
  | .bitopInv | .bitopTst | .helper | .helperTrap | .fsqrt | .fma => false
  | _ => true

/-- The operations by what the interpreter does for them. -/
@[elab_as_elim] theorem kindCases {motive : Op → Prop} (op : Op)
    (value : ∀ op, op.isValue = true → motive op)
    (nop : motive .nop) (retire : motive .retire) (put : motive .put) (fput : motive .fput)
    (setf : motive .setf) (setpc : motive .setpc) (exit : motive .exit) (exitIf : motive .exitIf)
    (load : motive .load) (store : motive .store)
    (bitop : ∀ op, op.isBitop = true → motive op) (helper : ∀ op, op.isHelper = true → motive op)
    (fsqrt : motive .fsqrt) (fma : motive .fma) : motive op := by
  cases op with
  | nop => exact nop
  | retire => exact retire
  | put => exact put
  | fput => exact fput
  | setf => exact setf
  | setpc => exact setpc
  | exit => exact exit
  | exitIf => exact exitIf
  | load => exact load
  | store => exact store
  | bitopSet | bitopClr | bitopInv | bitopTst => exact bitop _ rfl
  | helper | helperTrap => exact helper _ rfl
  | fsqrt => exact fsqrt
  | fma => exact fma
  | _ => exact value _ rfl

theorem writes_of_isValue {op : Op} (h : op.isValue = true) : op.writes = true := by
  cases op <;> first | rfl | cases h

theorem isValue_of_isPure {op : Op} (h : op.isPure = true) : op.isValue = true := by
  cases op <;> first | rfl | cases h

/-- `imm_form_of`: the immediate form of a register-register operation. -/
def immForm : Op → Option Op
  | .add => some .addi
  | .and => some .andi
  | .or => some .ori
  | .xor => some .xori
  | .shl => some .shli
  | .shr => some .shri
  | .sar => some .sari
  | .rotl => some .rotli
  | _ => none

/-- `op_commutes`: may the constant come from either operand? -/
def commutes : Op → Bool
  | .add | .and | .or | .xor => true
  | _ => false

/-- `shift_imm_ok`: an immediate shift amount is one the immediate form can mean. -/
def shiftImmOk (op : Op) (imm : Word) : Bool :=
  match op with
  | .shli | .shri | .sari | .rotli => imm < 32
  | _ => true

end Op

end Ir

end Emu
