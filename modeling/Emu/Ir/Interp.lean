-- SUMMARY: The reference interpreter: guest state, targets, one instruction, one pass over a block and the loop.
import Mathlib
import Emu.Ir.Syntax
import Emu.Lib.StraightLine

/-!
# The interpreter

`src/backend/common/interp.c`. The guest's state is the words of `emu_cpu_t`, addressed by byte
offset, together with everything else the callbacks may know (`σ`: memory, devices, the rest of the
hart). Host floats are a parameter: a type with the operations of C's `float`.
-/

namespace Emu.Ir

open StraightLine

variable {τ σ F : Type}

/-! ## Guest state and targets -/

/-- `emu_cpu_t` as the interpreter sees it: 32-bit words at byte offsets, and the rest. -/
@[ext] structure Cpu (σ : Type) where
  word : Word → Word
  rest : σ

/-- `*word_at(cpu, off) = v`. -/
def Cpu.set (cpu : Cpu σ) (off v : Word) : Cpu σ := { cpu with word := Function.update cpu.word off v }

@[simp] theorem Cpu.set_rest {cpu : Cpu σ} {off v : Word} : (cpu.set off v).rest = cpu.rest := rfl

theorem Cpu.set_word {cpu : Cpu σ} {off v x : Word} :
    (cpu.set off v).word x = if x = off then v else cpu.word x := by
  simp [Cpu.set, Function.update_apply]

@[simp] theorem Cpu.set_word_self {cpu : Cpu σ} {off v : Word} : (cpu.set off v).word off = v := by
  simp [Cpu.set_word]

theorem Cpu.set_word_ne {cpu : Cpu σ} {off v x : Word} (h : x ≠ off) : (cpu.set off v).word x = cpu.word x := by
  simp [Cpu.set_word, h]

/-- `emu_ir_target_t`, the guest's description. A null `reg_is_zero` is the constant `false`, a null
`helpers` the empty list. An access that is served leaves the words of `emu_cpu_t` alone; one that
traps (`Except.error`) has entered the trap and may have changed anything. -/
structure Target (σ : Type) where
  regOffset : Word → Word
  flagsOffset : Word
  flagBit : Fin 4 → Word
  regIsZero : Word → Bool
  pcOffset : Word
  helpers : List (Cpu σ → Word → Word → Word × Cpu σ)
  load : Option (Cpu σ → Word → Byte → Except (Cpu σ) (Word × σ))
  store : Option (Cpu σ → Word → Byte → Word → Except (Cpu σ) σ)
  fregOffset : Option (Word → Word)

/-- A call the interpreter makes out of the block. -/
inductive Call where
  | load (addr : Word) (spec : Byte)
  | store (addr : Word) (spec : Byte) (val : Word)
  | helper (index a b : Word)
  deriving DecidableEq

/-- A call, with the guest state and the retired count at the moment it is made. -/
structure Event (σ : Type) where
  call : Call
  cpu : Cpu σ
  retired : Word

/-- The guest as the block runs: its state, the retired count and the calls made so far. -/
@[ext] structure Guest (σ : Type) where
  cpu : Cpu σ
  retired : Word
  trace : List (Event σ)

/-- Note a call in the trace. -/
def Guest.note (g : Guest σ) (c : Call) : Guest σ := { g with trace := ⟨c, g.cpu, g.retired⟩ :: g.trace }

/-- The interpreter's state: the guest and the temps. -/
structure State (τ σ : Type) where
  guest : Guest σ
  tmp : τ → Word

/-- The values of an instruction's operands, `none` where there is none. -/
@[ext] structure Operands where
  a : Option Word
  b : Option Word
  c : Option Word
  deriving DecidableEq

namespace Operands

/-- The first operand's value; `EMU_IR_NO_TEMP` reads as zero. -/
def av (v : Operands) : Word := v.a.getD 0

/-- The second operand's value. -/
def bv (v : Operands) : Word := v.b.getD 0

/-- The third operand's value. -/
def cv (v : Operands) : Word := v.c.getD 0

end Operands

/-- Read an instruction's operands. -/
def Insn.read (i : Insn τ) (tmp : τ → Word) : Operands := ⟨i.a.map tmp, i.b.map tmp, i.c.map tmp⟩

/-- `tmp[in->dst] = r`, for an instruction that comes to its end with a result. -/
def writeTmp [DecidableEq τ] (tmp : τ → Word) (dst : Option τ) (r : Option Word) : τ → Word :=
  match dst, r with
  | some d, some v => Function.update tmp d v
  | _, _ => tmp

theorem writeTmp_apply [DecidableEq τ] {tmp : τ → Word} {d : Option τ} {r : Option Word} {x : τ} :
    writeTmp tmp d r x = if d = some x then r.getD (tmp x) else tmp x := by
  cases d <;> cases r <;> simp [writeTmp, Function.update_apply, eq_comm]

/-! ## Host floats -/

/-- C's `float`: bits in and out, arithmetic, comparison and conversion. -/
structure FloatOps (F : Type) where
  b2f : Word → F
  f2b : F → Word
  add : F → F → F
  sub : F → F → F
  mul : F → F → F
  div : F → F → F
  eq : F → F → Bool
  lt : F → F → Bool
  ofInt : Int → F
  toInt64 : F → Int

namespace FloatOps

variable (fp : FloatOps F)

/-- `ir_isnan`: the only value not equal to itself. -/
def isNan (v : F) : Bool := !fp.eq v v

/-- `canon`. -/
def canon (v : F) : Word := if fp.isNan v then canonicalNan else fp.f2b v

/-- `x <= y` on floats. -/
def le (x y : F) : Bool := fp.lt x y || fp.eq x y

/-- `ir_round`: to an integral float under the rounding mode in `aux`. -/
def round (v : F) (aux : Byte) : F :=
  let t := fp.ofInt (fp.toInt64 v)
  let one := fp.ofInt 1
  let zero := fp.ofInt 0
  let half := fp.b2f 0x3F000000
  let mhalf := fp.b2f 0xBF000000
  let d := fp.sub v t
  let frm := aux &&& 7
  if frm = 1 then t
  else if frm = 2 then if fp.lt v zero && !fp.eq t v then fp.sub t one else t
  else if frm = 3 then if fp.lt zero v && !fp.eq t v then fp.add t one else t
  else if frm = 4 then
    if fp.le half d then fp.add t one else if fp.le d mhalf then fp.sub t one else t
  else
    if fp.lt half d then fp.add t one
    else if fp.lt d mhalf then fp.sub t one
    else if fp.eq d half || fp.eq d mhalf then
      -- ties to even: `t` stays if it already is
      let h := fp.mul t half
      if fp.eq h (fp.ofInt (fp.toInt64 h)) then t else if fp.lt zero d then fp.add t one else fp.sub t one
    else t

/-- The `EMU_IR_FMIN` and `EMU_IR_FMAX` cases. -/
def minMax (isMin : Bool) (a b : Word) : Word :=
  let x := fp.b2f a
  let y := fp.b2f b
  if fp.isNan x && fp.isNan y then canonicalNan
  else if fp.isNan x then b
  else if fp.isNan y then a
  else if fp.eq x y then if isMin then a ||| b else a &&& b
  else if isMin then if fp.lt x y then a else b
  else if fp.lt y x then a else b

/-- The `EMU_IR_FCMP` case. -/
def cmp (aux : Byte) (a b : Word) : Word :=
  let x := fp.b2f a
  let y := fp.b2f b
  if fp.isNan x || fp.isNan y then 0
  else if aux = 0 then (if fp.eq x y then 1 else 0)
  else if aux = 2 then (if fp.lt x y then 1 else 0)
  else if fp.le x y then 1 else 0

/-- The `EMU_IR_FCVT_TO_I` case: saturation and the NaN result are the guest's rule. -/
def cvtToI (aux : Byte) (a : Word) : Word :=
  let x := fp.b2f a
  if fp.isNan x then if aux &&& fpUnsigned ≠ 0 then 0xFFFFFFFF else 0x7FFFFFFF
  else if aux &&& fpUnsigned ≠ 0 then
    if fp.le x (fp.ofInt 0) then 0
    else if fp.le (fp.ofInt 4294967296) x then 0xFFFFFFFF
    else BitVec.ofInt 32 (fp.toInt64 (fp.round x aux))
  else if fp.le x (fp.ofInt (-2147483648)) then 0x80000000
  else if fp.le (fp.ofInt 2147483648) x then 0x7FFFFFFF
  else BitVec.ofInt 32 (fp.toInt64 (fp.round x aux))

/-- The `EMU_IR_FCVT_FROM_I` case. -/
def cvtFromI (aux : Byte) (a : Word) : Word :=
  if aux &&& fpUnsigned ≠ 0 then fp.f2b (fp.ofInt a.toNat) else fp.f2b (fp.ofInt a.toInt)

end FloatOps

/-- `ir_fclass`. -/
def fclass (bits : Word) : Word :=
  let exp := (bits >>> 23) &&& 0xFF
  let frac := bits &&& 0x7FFFFF
  let neg : Bool := bits &&& 0x80000000 ≠ 0
  if exp = 0xFF then
    if frac = 0 then (if neg then 1 else 128) else if frac &&& 0x400000 ≠ 0 then 512 else 256
  else if exp = 0 then
    if frac = 0 then (if neg then 8 else 16) else if neg then 4 else 32
  else if neg then 2 else 64

/-- The `EMU_IR_FSGNJ` case. -/
def fsgnj (aux : Byte) (a b : Word) : Word :=
  (a &&& 0x7FFFFFFF) |||
    (if aux = 1 then ~~~b &&& 0x80000000 else if aux = 2 then (a ^^^ b) &&& 0x80000000 else b &&& 0x80000000)

/-! ## Values -/

/-- `eval_value_cond`: compare two values. -/
def evalValueCond (a b : Word) (cond : Byte) : Bool :=
  match Cond.ofAux cond with
  | .eq => a = b
  | .ne => a ≠ b
  | .lt => a.slt b
  | .ge => !a.slt b
  | .ltu => a < b
  | .geu => b ≤ a
  | .le => a.sle b
  | .gt => !a.sle b
  | .leu => a ≤ b
  | .gtu => b < a
  | .mi => (a - b).slt 0
  | .pl => !(a - b).slt 0
  | .vs => ((a ^^^ b) &&& (a ^^^ (a - b))) >>> 31 ≠ 0
  | .vc => ((a ^^^ b) &&& (a ^^^ (a - b))) >>> 31 = 0
  | .always => true

/-- The rotate of `EMU_IR_ROTL` and `EMU_IR_ROTLI`. -/
def rotlBy (a k : Word) : Word :=
  if k = 0 then a else (a <<< k) ||| (a >>> (32 - k))

/-- `__builtin_clz`, and 32 for zero. -/
def clz (a : Word) : Word := BitVec.ofNat 32 ((List.range 32).findIdx fun k => a.getLsbD (31 - k))

/-- `__builtin_ctz`, and 32 for zero. -/
def ctz (a : Word) : Word := BitVec.ofNat 32 ((List.range 32).findIdx fun k => a.getLsbD k)

/-- `__builtin_popcount`. -/
def popcount (a : Word) : Word := BitVec.ofNat 32 ((List.range 32).countP fun k => a.getLsbD k)

/-- `__builtin_bswap32`. -/
def bswap32 (a : Word) : Word :=
  (a <<< 24) ||| ((a &&& 0xFF00) <<< 8) ||| ((a >>> 8) &&& 0xFF00) ||| (a >>> 24)

/-- The result of an operation that only computes: a function of its operands, `imm` and `aux`. -/
def alu (fp : FloatOps F) (op : Op) (aux : Byte) (imm a b c : Word) : Word :=
  match op with
  | .const => imm
  | .mov => a
  | .add => a + b
  | .sub => a - b
  | .and => a &&& b
  | .or => a ||| b
  | .xor => a ^^^ b
  | .shl => a <<< (b &&& 31)
  | .shr => a >>> (b &&& 31)
  | .sar => a.sshiftRight' (b &&& 31)
  | .rotl => rotlBy a (b &&& 31)
  | .mul => a * b
  | .mulhs => BitVec.ofInt 32 ((a.toInt * b.toInt) / 4294967296)
  | .mulhu => BitVec.ofNat 32 ((a.toNat * b.toNat) / 4294967296)
  -- the caller guarantees the divisor; the cases C leaves undefined are handled all the same
  | .divs => if b = 0 ∨ (a = 0x80000000 ∧ b = 0xFFFFFFFF) then a else a.sdiv b
  | .divu => if b = 0 then a else a / b
  | .rems => if b = 0 ∨ (a = 0x80000000 ∧ b = 0xFFFFFFFF) then 0 else a.srem b
  | .remu => if b = 0 then 0 else a % b
  | .mac => if aux &&& macSub ≠ 0 then c - a * b else c + a * b
  | .addi => a + imm
  | .andi => a &&& imm
  | .ori => a ||| imm
  | .xori => a ^^^ imm
  | .shli => a <<< (imm &&& 31)
  | .shri => a >>> (imm &&& 31)
  | .sari => a.sshiftRight' (imm &&& 31)
  | .rotli => rotlBy a (imm &&& 31)
  | .neg => 0 - a
  | .not => ~~~a
  | .bswap32 => bswap32 a
  | .bswap16 => ((a &&& 0x00FF00FF) <<< 8) ||| ((a &&& 0xFF00FF00) >>> 8)
  | .hswap => (a <<< 16) ||| (a >>> 16)
  | .clz => clz a
  | .ctz => ctz a
  | .popcnt => popcount a
  | .bext => (a >>> (b &&& 31)) &&& 1
  | .bset => a ||| ((1 : Word) <<< (b &&& 31))
  | .bclr => a &&& ~~~((1 : Word) <<< (b &&& 31))
  | .binv => a ^^^ ((1 : Word) <<< (b &&& 31))
  | .sext8 => (a.setWidth 8).signExtend 32
  | .sext16 => (a.setWidth 16).signExtend 32
  | .zext8 => a &&& 0xFF
  | .zext16 => a &&& 0xFFFF
  | .setcc => if evalValueCond a b aux then 1 else 0
  | .fadd => fp.canon (fp.add (fp.b2f a) (fp.b2f b))
  | .fsub => fp.canon (fp.sub (fp.b2f a) (fp.b2f b))
  | .fmul => fp.canon (fp.mul (fp.b2f a) (fp.b2f b))
  | .fdiv => fp.canon (fp.div (fp.b2f a) (fp.b2f b))
  | .fmin => fp.minMax true a b
  | .fmax => fp.minMax false a b
  | .fsgnj => fsgnj aux a b
  | .fcmp => fp.cmp aux a b
  | .fcvtToI => fp.cvtToI aux a
  | .fcvtFromI => fp.cvtFromI aux a
  | .fclass => fclass a
  | _ => 0

/-! ## The flag word -/

/-- The array `val` of `apply_flags`, in the order of `EMU_IR_F_*`. -/
def flagArray (z s v c : Bool) : Fin 4 → Bool
  | 0 => z
  | 1 => s
  | 2 => v
  | 3 => c

/-- The flags `apply_flags` derives from a result and a right operand. -/
def flagVals (src : FlagSrc) (res rhs : Word) : Fin 4 → Bool :=
  match src with
  | .add =>
    let sum := res + rhs
    flagArray (sum = 0) sum.msb (~~~(res ^^^ rhs) &&& (res ^^^ sum)).msb (sum < res)
  | .sub =>
    let d := res - rhs
    flagArray (d = 0) d.msb ((res ^^^ rhs) &&& (res ^^^ d)).msb (res < rhs)
  | .shift => flagArray (res = 0) res.msb false (rhs.getLsbD 0)
  | .logic | .zs => flagArray (res = 0) res.msb false false

/-- One turn of the loop of `apply_flags`: write flag `f` if it is live and the guest has it. -/
def setFlag (flagBit : Fin 4 → Word) (live : Byte) (val : Fin 4 → Bool) (w : Word) (f : Fin 4) : Word :=
  if live.getLsbD f && flagBit f != 0 then
    if val f then (w &&& ~~~flagBit f) ||| flagBit f else w &&& ~~~flagBit f
  else w

/-- The loop of `apply_flags` over the four flags. -/
def setFlags (flagBit : Fin 4 → Word) (live : Byte) (val : Fin 4 → Bool) (w : Word) : Word :=
  (List.finRange 4).foldl (setFlag flagBit live val) w

/-- Is flag `f` set in the flag word `w`? -/
def flagSet (flagBit : Fin 4 → Word) (w : Word) (f : Fin 4) : Bool := flagBit f != 0 && w &&& flagBit f != 0

/-- `eval_cond`: a condition on the guest's flags. -/
def evalCond (flagBit : Fin 4 → Word) (w : Word) (cond : Byte) : Bool :=
  let z := flagSet flagBit w 0
  let s := flagSet flagBit w 1
  let v := flagSet flagBit w 2
  let c := flagSet flagBit w 3
  match Cond.ofAux cond with
  | .eq => z
  | .ne => !z
  | .lt => s != v
  | .ge => s == v
  | .ltu => c
  | .geu => !c
  | .le => z || (s != v)
  | .gt => !z && (s == v)
  | .leu => c || z
  | .gtu => !c && !z
  | .mi => s
  | .pl => !s
  | .vs => v
  | .vc => !v
  | .always => true

/-! ## One instruction -/

/-- How a pass over the block ended before its last instruction. `left` and `trapped` are both
`IR_RUN_DONE`; `loop` is `IR_RUN_LOOP`. -/
inductive Exit where
  | left | trapped | loop | declined
  deriving DecidableEq

/-- Where a pass stopped. -/
structure Stop (σ : Type) where
  how : Exit
  guest : Guest σ

/-- What an instruction does to the guest: go on, perhaps with a result for its temp, or stop. -/
abbrev Effect (σ : Type) := Step (Guest σ × Option Word) (Stop σ)

/-- The `EMU_IR_FGET` case: the low word at `p`, or the canonical NaN where the box is not there. -/
def fget (aux : Byte) (p : Word) (cpu : Cpu σ) : Word :=
  if aux &&& fpBox ≠ 0 ∧ cpu.word (p + 4) ≠ 0xFFFFFFFF then canonicalNan else cpu.word p

/-- The value a value-producing operation computes. -/
def value (fp : FloatOps F) (t : Target σ) (op : Op) (aux : Byte) (imm : Word) (v : Operands) (cpu : Cpu σ) :
    Word :=
  match op with
  | .get => if t.regIsZero imm then 0 else cpu.word (t.regOffset imm)
  | .fget => t.fregOffset.elim 0 fun f => fget aux (f imm) cpu
  | .getcond => if evalCond t.flagBit (cpu.word t.flagsOffset) aux then 1 else 0
  | .select => if evalCond t.flagBit (cpu.word t.flagsOffset) aux then v.av else v.bv
  | op => alu fp op aux imm v.av v.bv v.cv

/-- `apply_flags`. -/
def applyFlags (t : Target σ) (aux live : Byte) (v : Operands) (cpu : Cpu σ) : Cpu σ :=
  if live = 0 then cpu
  else
    cpu.set t.flagsOffset
      (setFlags t.flagBit live (flagVals (FlagSrc.ofAux aux) v.av v.bv) (cpu.word t.flagsOffset))

/-- The `EMU_IR_PUT` case. -/
def put (t : Target σ) (n v : Word) (cpu : Cpu σ) : Cpu σ :=
  if t.regIsZero n then cpu else cpu.set (t.regOffset n) v

/-- The `EMU_IR_FPUT` case. -/
def fput (aux : Byte) (p v : Word) (cpu : Cpu σ) : Cpu σ :=
  if aux &&& fpBox ≠ 0 then (cpu.set p v).set (p + 4) 0xFFFFFFFF else cpu.set p v

/-- The number of instructions a `retire` counts: `imm`, 0 meaning 1. -/
def retireCount (imm : Word) : Word := if imm ≠ 0 then imm else 1

/-- A load of `addr`; `k` goes on with the value read. -/
def doLoad (t : Target σ) (addr : Word) (spec : Byte) (g : Guest σ) (k : Word → Guest σ → Effect σ) : Effect σ :=
  match t.load with
  | none => .stop ⟨.declined, g⟩
  | some ld =>
    match ld g.cpu addr spec with
    | .error cpu => .stop ⟨.trapped, { g.note (.load addr spec) with cpu }⟩
    | .ok (r, rest) => k r { g.note (.load addr spec) with cpu := { g.cpu with rest } }

/-- A store of `val` at `addr`. -/
def doStore (t : Target σ) (addr : Word) (spec : Byte) (val : Word) (g : Guest σ) : Effect σ :=
  match t.store with
  | none => .stop ⟨.declined, g⟩
  | some st =>
    match st g.cpu addr spec val with
    | .error cpu => .stop ⟨.trapped, { g.note (.store addr spec val) with cpu }⟩
    | .ok rest => .next ({ g.note (.store addr spec val) with cpu := { g.cpu with rest } }, none)

/-- The `EMU_IR_LOAD` case; a predicate that is zero skips the access whole. -/
def effectLoad (t : Target σ) (aux : Byte) (imm : Word) (v : Operands) (g : Guest σ) : Effect σ :=
  if v.c = some 0 then .next (g, some 0)
  else doLoad t (v.av + imm) aux g fun r g' => .next (g', some r)

/-- The `EMU_IR_STORE` case. -/
def effectStore (t : Target σ) (aux : Byte) (imm : Word) (v : Operands) (g : Guest σ) : Effect σ :=
  if v.c = some 0 then .next (g, none) else doStore t (v.av + imm) aux v.bv g

/-- What a memory bit operation writes back, `none` for the test-only form. -/
def bitResult (op : Op) (token mask : Word) : Option Word :=
  match op with
  | .bitopTst => none
  | .bitopSet => some (token ||| mask)
  | .bitopClr => some (token &&& ~~~mask)
  | _ => some (token ^^^ mask)

/-- `t->flag_bit[0]`: the Z flag, 0 for a guest without one. -/
def Target.zBit (t : Target σ) : Word := t.flagBit 0

/-- The `EMU_IR_BITOP_*` cases: read the byte, report the bit as it was in Z, write back. -/
def effectBitop (t : Target σ) (op : Op) (imm : Word) (v : Operands) (g : Guest σ) : Effect σ :=
  let addr := v.av + imm
  let mask := (1 : Word) <<< (v.bv &&& 7)
  doLoad t addr 1 g fun token g' =>
    let fw := g'.cpu.word t.flagsOffset
    let fw' := if token &&& mask ≠ 0 then fw &&& ~~~t.flagBit 0 else fw ||| t.flagBit 0
    let g'' := { g' with cpu := g'.cpu.set t.flagsOffset fw' }
    match bitResult op token mask with
    | none => .next (g'', none)
    | some out => doStore t addr 1 out g''

/-- The `EMU_IR_HELPER` and `EMU_IR_HELPER_TRAP` cases. -/
def effectHelper (t : Target σ) (op : Op) (imm : Word) (v : Operands) (g : Guest σ) : Effect σ :=
  match t.helpers[imm.toNat]? with
  | none => .stop ⟨.declined, g⟩
  | some fn =>
    let r := fn g.cpu v.av v.bv
    let g' := { g.note (.helper imm v.av v.bv) with cpu := r.2 }
    if op = .helperTrap ∧ r.1 ≠ 0 then .stop ⟨.trapped, g'⟩ else .next (g', some r.1)

/-- The `switch` of `interp_once`. An exit with no `a` goes to its immediate, which is what
`emu_ir_exit_is_const` asks. -/
def effect (fp : FloatOps F) (t : Target σ) (startPc : Word) (op : Op) (aux : Byte) (imm : Word) (live : Byte)
    (v : Operands) (g : Guest σ) : Effect σ :=
  match op with
  | .nop => .next (g, none)
  | .retire => .next ({ g with retired := g.retired + retireCount imm }, none)
  | .put => .next ({ g with cpu := put t imm v.av g.cpu }, none)
  | .fput =>
    match t.fregOffset with
    | none => .stop ⟨.declined, g⟩
    | some f => .next ({ g with cpu := fput aux (f imm) v.av g.cpu }, none)
  | .setf => .next ({ g with cpu := applyFlags t aux live v g.cpu }, none)
  | .setpc => .next ({ g with cpu := g.cpu.set t.pcOffset (v.a.getD imm) }, none)
  | .exit =>
    .stop ⟨if v.a = none ∧ imm = startPc then .loop else .left,
      { g with cpu := g.cpu.set t.pcOffset (v.a.getD imm) }⟩
  | .exitIf =>
    if evalValueCond v.av v.bv aux then
      .stop ⟨if imm = startPc then .loop else .left, { g with cpu := g.cpu.set t.pcOffset imm }⟩
    else .next (g, none)
  | .load => effectLoad t aux imm v g
  | .store => effectStore t aux imm v g
  | .bitopSet | .bitopClr | .bitopInv | .bitopTst => effectBitop t op imm v g
  | .helper | .helperTrap => effectHelper t op imm v g
  | .fsqrt | .fma => .stop ⟨.declined, g⟩
  | op => .next (g, some (value fp t op aux imm v g.cpu))

variable [DecidableEq τ]

/-- End an instruction: write the temp, if there is a result, and go on, or stop. -/
def finish (tmp : τ → Word) (dst : Option τ) : Effect σ → Step (State τ σ) (Exit × State τ σ)
  | .next (g, r) => .next ⟨g, writeTmp tmp dst r⟩
  | .stop r => .stop (r.how, ⟨r.guest, tmp⟩)

/-- The body of the loop of `interp_once`. -/
def exec (fp : FloatOps F) (t : Target σ) (startPc : Word) (i : Insn τ) (s : State τ σ) :
    Step (State τ σ) (Exit × State τ σ) :=
  if i.dead then .next s
  else finish s.tmp i.dst (effect fp t startPc i.op i.aux i.imm i.live (i.read s.tmp) s.guest)

/-! ## One pass over a block, and the loop -/

/-- The test `interp_models` makes of one instruction. -/
def Insn.modelled (t : Target σ) (i : Insn τ) : Bool :=
  i.dead ||
    match i.op with
    | .fsqrt | .fma => false
    | .fget | .fput => t.fregOffset.isSome
    | .load => t.load.isSome
    | .store => t.store.isSome
    | .bitopSet | .bitopClr | .bitopInv | .bitopTst => t.load.isSome && t.store.isSome
    | .helper | .helperTrap => i.imm.toNat < t.helpers.length
    | _ => true

/-- `interp_models`: everything that declines is found before anything is written. -/
def interpModels (t : Target σ) (is : List (Insn τ)) : Bool := is.all (Insn.modelled t)

/-- How a block came to its end: off its last instruction, by an exit, or by a trap. -/
inductive Ending where
  | fell | left | trapped
  deriving DecidableEq

/-- `ir_run_t`, with the guest, and before another pass also the temps, it was reached in. -/
inductive Once (τ σ : Type) where
  | declined
  | done (how : Ending) (g : Guest σ)
  | loop (s : State τ σ)

/-- The result of `interp_once` for a walk of the block that came to `r`. -/
def Once.ofStep : Step (State τ σ) (Exit × State τ σ) → Once τ σ
  | .next s => .done .fell s.guest
  | .stop (.left, s) => .done .left s.guest
  | .stop (.trapped, s) => .done .trapped s.guest
  | .stop (.loop, s) => .loop s
  | .stop (.declined, _) => .declined

/-- `interp_once`. -/
def interpOnce (fp : FloatOps F) (t : Target σ) (b : Block τ) (s : State τ σ) : Once τ σ :=
  if interpModels t b.insns then Once.ofStep (run (exec fp t b.startPc) b.insns s) else .declined

/-- What `emu_ir_interp` comes to: whether it ran the block, how the block ended and the guest then.
`unfinished` is a run that the fuel did not carry to its end. -/
inductive Result (σ : Type) where
  | declined
  | done (how : Ending) (g : Guest σ)
  | unfinished (g : Guest σ)

/-- The loop of `emu_ir_interp`, for at most `fuel` passes over the block. -/
def interpLoop (fp : FloatOps F) (t : Target σ) (b : Block τ) : Nat → State τ σ → Result σ
  | 0, s => .unfinished s.guest
  | fuel + 1, s =>
    match interpOnce fp t b s with
    | .declined => .declined
    | .done how g => .done how g
    | .loop s' => if s'.guest.retired < jitLoopCap then interpLoop fp t b fuel s' else .done .left s'.guest

/-- `emu_ir_interp`, entered on a guest `cpu`. The temps are a static array: they hold whatever an
earlier block left in them. -/
def interp (fp : FloatOps F) (t : Target σ) (b : Block τ) (fuel : Nat) (cpu : Cpu σ) (tmp : τ → Word) :
    Result σ :=
  if b.overflow then .declined else interpLoop fp t b fuel ⟨⟨cpu, 0, []⟩, tmp⟩

end Emu.Ir
