-- SUMMARY: The register-traffic pass: forwarding guest registers through temps, with copies resolved.
import Emu.Ir.Equiv

/-!
# Guest register traffic

`pass_reg_traffic` walks a block forwards with, for each guest register, the temp that holds its
value, and for each temp the one it is a copy of. A `get` of a register that is already in a temp
becomes a `mov`; every operand is resolved to what it copies. The rewritten block runs through the
very same states.
-/

namespace Emu.Ir

open StraightLine

variable {τ σ F : Type} [DecidableEq τ]

/-! ## The pass -/

/-- `pc_reg`: the guest register that is the pc, if one of those tracked is. -/
def pcReg (t : Target σ) : Option Word :=
  ((List.range maxGuestRegs.toNat).map (BitVec.ofNat 32)).find? fun n => t.regOffset n = t.pcOffset

/-- The registers the passes keep track of: not hardwired, and within the table. -/
def tracked (t : Target σ) (n : Word) : Bool := n < maxGuestRegs && !t.regIsZero n

/-- What the walk knows: `cur`, the temp that holds a register, and `copy`, what a temp copies. -/
structure Traffic (τ : Type) where
  cur : Word → Option τ
  copy : τ → τ

/-- Replace the operands. -/
def Insn.rename (f : τ → τ) (i : Insn τ) : Insn τ := { i with a := i.a.map f, b := i.b.map f, c := i.c.map f }

/-- A `get` of a register that is already in a temp: reuse it instead of reloading. -/
def forwardGet (t : Target σ) (cur : Word → Option τ) (i : Insn τ) : Insn τ :=
  if i.op = .get ∧ tracked t i.imm then
    match cur i.imm with
    | some x => { i with op := .mov, a := some x }
    | none => i
  else i

/-- The temp that holds register `n` after the instruction. -/
def nextCur (t : Target σ) (cur : Word → Option τ) (i : Insn τ) (n : Word) : Option τ :=
  match i.op with
  | .get => if tracked t i.imm ∧ cur i.imm = none ∧ n = i.imm then i.dst else cur n
  | .put => if tracked t i.imm ∧ n = i.imm then i.a else cur n
  -- a helper may touch anything
  | .helper | .helperTrap => none
  -- a write of the pc is a write of the register that is the pc
  | .setpc => if pcReg t = some n then none else cur n
  | _ => cur n

/-- What temp `y` copies after the instruction, which `forwardGet` may have made a `mov`. -/
def nextCopy (copy : τ → τ) (i : Insn τ) (y : τ) : τ :=
  if i.op = .mov ∧ i.dst = some y then i.a.getD (copy y) else copy y

/-- The loop body of `pass_reg_traffic`. -/
def trafficStep (t : Target σ) (w : Traffic τ) (i : Insn τ) : Insn τ × Traffic τ :=
  if i.dead then (i, w)
  else
    let i₁ := i.rename w.copy
    let i₂ := forwardGet t w.cur i₁
    (i₂, ⟨nextCur t w.cur i₁, nextCopy w.copy i₂⟩)

/-- The loop of `pass_reg_traffic`. -/
def trafficLoop (t : Target σ) : Traffic τ → List (Insn τ) → List (Insn τ)
  | _, [] => []
  | w, i :: is => (trafficStep t w i).1 :: trafficLoop t (trafficStep t w i).2 is

/-- `pass_reg_traffic`: no register is in a temp, and each temp is its own copy, at the start. -/
def passRegTraffic (t : Target σ) (is : List (Insn τ)) : List (Insn τ) := trafficLoop t ⟨fun _ => none, id⟩ is

/-- The count of `gets_removed`: the instructions the pass turned from a `get` into a `mov`. -/
def getsRemoved (is is' : List (Insn τ)) : Nat :=
  (is.zip is').countP fun p => !p.1.dead && p.1.op = .get && p.2.op = .mov

/-! ## The invariant of the walk -/

section Correct

variable {fp : FloatOps F} {t : Target σ} {pc : Word} {U V : Word → Prop} {w : Traffic τ} {D : τ → Prop}
variable {i : Insn τ} {is : List (Insn τ)} {s s' : State τ σ} {x : τ} {n : Word}

/-- What the walk refers to has been written, with the temps of `D` written so far. -/
structure TrafficScoped (D : τ → Prop) (w : Traffic τ) : Prop where
  copy_of_not : ∀ x, ¬D x → w.copy x = x
  copy_mem : ∀ x, D x → D (w.copy x)
  cur_mem : ∀ n x, w.cur n = some x → D x

/-- What the walk knows is true of the state `s`. -/
structure TrafficInv (t : Target σ) (U : Word → Prop) (D : τ → Prop) (w : Traffic τ) (s : State τ σ) : Prop
    extends TrafficScoped D w where
  copy_val : ∀ x, D x → s.tmp (w.copy x) = s.tmp x
  cur_tracked : ∀ n x, w.cur n = some x → tracked t n = true ∧ U n
  cur_val : ∀ n x, w.cur n = some x → s.guest.cpu.word (t.regOffset n) = s.tmp x

omit [DecidableEq τ] in
theorem TrafficScoped.init : TrafficScoped (fun _ : τ => False) ⟨fun _ => none, id⟩ := by
  constructor <;> simp

omit [DecidableEq τ] in
theorem TrafficInv.init : TrafficInv t U (fun _ => False) ⟨fun _ => none, id⟩ s := by
  refine ⟨.init, ?_, ?_, ?_⟩ <;> simp

theorem tracked_iff : tracked t n = true ↔ n < maxGuestRegs ∧ t.regIsZero n = false := by
  simp [tracked]

omit [DecidableEq τ] in
theorem mem_operands_rename {f : τ → τ} : x ∈ (i.rename f).operands ↔ ∃ y ∈ i.operands, f y = x := by
  simp only [Insn.mem_operands, Insn.rename, Option.map_eq_some_iff]
  grind

omit [DecidableEq τ] in
theorem read_rename {f : τ → τ} {tmp : τ → Word} (h : ∀ x ∈ i.operands, tmp (f x) = tmp x) :
    (i.rename f).read tmp = i.read tmp := by
  have hmap : ∀ o : Option τ, (∀ x ∈ o, x ∈ i.operands) → (o.map f).map tmp = o.map tmp := by
    intro o ho
    cases o with
    | none => rfl
    | some x => simp [h x (ho x rfl)]
  simp only [Insn.read, Insn.rename]
  congr 1 <;> exact hmap _ fun x hx => by simp_all [Insn.mem_operands]

/-- The rewritten instruction does what the original does. -/
theorem exec_trafficStep (hinv : TrafficInv t U D w s) (hread : ∀ x, i.Reads x → D x) :
    exec fp t pc (trafficStep t w i).1 s = exec fp t pc i s := by
  cases hd : i.dead with
  | true => simp [trafficStep, hd]
  | false =>
    have hreads : (i.rename w.copy).read s.tmp = i.read s.tmp :=
      read_rename fun x hx => hinv.copy_val x (hread x ⟨hd, hx⟩)
    have hren : exec fp t pc (i.rename w.copy) s = exec fp t pc i s := by
      rw [exec_live hd, exec_live (show (i.rename w.copy).dead = false from hd), hreads]
      rfl
    simp only [trafficStep, hd, Bool.false_eq_true, if_false]
    unfold forwardGet
    split
    · rename_i hget
      obtain ⟨hop, htr⟩ := hget
      split
      · rename_i x hx
        -- the register's slot and the temp `x` hold the same word
        have hval := hinv.cur_val _ x hx
        have hz : t.regIsZero i.imm = false := (tracked_iff.mp htr).2
        have hop' : i.op = .get := hop
        rw [exec_value hd (by rw [hop']; rfl)]
        refine (exec_value ?_ rfl).trans ?_
        · exact hd
        · simp only [hop', value, alu, Insn.read, Option.map_some, Operands.av, Option.getD_some, hz,
            Bool.false_eq_true, if_false, ← hval]
          rfl
      · exact hren
    · exact hren

/-- Where the pc is one of the tracked registers, `pc_reg` finds it. -/
theorem pcReg_eq (hlay : Layout t U V) (hn : n < maxGuestRegs) (hpc : t.regOffset n = t.pcOffset) :
    pcReg t = some n := by
  have hmem : n ∈ (List.range maxGuestRegs.toNat).map (BitVec.ofNat 32) :=
    List.mem_map.mpr ⟨n.toNat, List.mem_range.mpr hn, by simp⟩
  cases hfind : pcReg t with
  | none => simpa [hpc] using List.find?_eq_none.mp hfind n hmem
  | some m =>
    have hm : t.regOffset m = t.pcOffset := by simpa using List.find?_some hfind
    have hlt : m < maxGuestRegs := by
      obtain ⟨k, hk, rfl⟩ := List.mem_map.mp (List.mem_of_find?_eq_some hfind)
      have hk64 : k < 64 := List.mem_range.mp hk
      have hmax : maxGuestRegs.toNat = 64 := rfl
      rw [BitVec.lt_def, BitVec.toNat_ofNat]
      omega
    rw [hlay.pc_unique m n hlt hn hm hpc]

omit [DecidableEq τ] in
/-- A register that stays in its temp keeps its slot: the instruction does not write it. -/
theorem not_writesWord_of_cur (hlay : Layout t U V) (huse : UsesOnly U V (i :: is)) (htr : tracked t n = true)
    (hU : U n) (hcur : (nextCur t w.cur (i.rename w.copy) n).isSome) (hput : i.op = .put → n ≠ i.imm) :
    ¬WritesWord t i.op i.imm (t.regOffset n) := by
  have hn := tracked_iff.mp htr
  have huse := huse i (by simp)
  intro hw
  unfold WritesWord at hw
  split at hw
  · rename_i hop
    exact hput hop (hlay.reg_inj _ _ hU (huse.1 (.inr hop)) hn.2 hw.1 hw.2)
  · rename_i hop
    obtain ⟨f, hf, hoff⟩ := hw
    exact (hlay.freg f hf _ (huse.2 (.inr hop)) _ hoff).2.2 n hU hn.2 rfl
  iterate 5 exact hlay.reg_flags n hU hn.2 hw
  · rename_i hop
    simp [nextCur, Insn.rename, hop, pcReg_eq hlay hn.1 hw] at hcur
  iterate 2
    rename_i hop
    simp [nextCur, Insn.rename, hop] at hcur
  · exact hw

omit [DecidableEq τ] in
/-- A register is in `cur` because this instruction put it there, or because it was and stays. -/
theorem nextCur_cases {cur : Word → Option τ} (h : nextCur t cur i n = some x) :
    (i.op = .get ∧ tracked t i.imm = true ∧ n = i.imm ∧ i.dst = some x) ∨
    (i.op = .put ∧ tracked t i.imm = true ∧ n = i.imm ∧ i.a = some x) ∨
    (cur n = some x ∧ (i.op = .put → tracked t n = true → n ≠ i.imm)) := by
  unfold nextCur at h
  split at h
  · rename_i hop
    split at h
    · rename_i hget
      exact .inl ⟨hop, hget.1, hget.2.2, h⟩
    · exact .inr (.inr ⟨h, by simp [hop]⟩)
  · rename_i hop
    split at h
    · rename_i hput
      exact .inr (.inl ⟨hop, hput.1, hput.2, h⟩)
    · rename_i hput
      exact .inr (.inr ⟨h, fun _ htr hn => hput ⟨hn ▸ htr, hn⟩⟩)
  · cases h
  · cases h
  · rename_i hop
    split at h
    · cases h
    · exact .inr (.inr ⟨h, by simp [hop]⟩)
  · rename_i hput _ _ _
    exact .inr (.inr ⟨h, fun hop => absurd hop hput⟩)

/-- The operands of the rewritten instruction have been written. -/
theorem TrafficScoped.reads (hsc : TrafficScoped D w) (hread : ∀ x, i.Reads x → D x) :
    ∀ x, (trafficStep t w i).1.Reads x → D x := by
  rintro x ⟨hd', hx⟩
  cases hd : i.dead with
  | true => simp [trafficStep, hd] at hd'
  | false =>
    have hren : ∀ x ∈ (i.rename w.copy).operands, D x := by
      intro x hx
      obtain ⟨y, hy, rfl⟩ := mem_operands_rename.mp hx
      exact hsc.copy_mem y (hread y ⟨hd, hy⟩)
    simp only [trafficStep, hd, Bool.false_eq_true, if_false] at hx
    unfold forwardGet at hx
    split at hx
    · split at hx
      · rename_i y hy
        rw [Insn.mem_operands] at hx
        rcases hx with hx | hx | hx
        · cases hx; exact hsc.cur_mem _ _ hy
        · exact hren x (Insn.mem_operands.mpr (.inr (.inl hx)))
        · exact hren x (Insn.mem_operands.mpr (.inr (.inr hx)))
      · exact hren x hx
    · exact hren x hx

omit [DecidableEq τ] in
theorem forwardGet_fields (t : Target σ) (cur : Word → Option τ) (i : Insn τ) :
    (forwardGet t cur i).dst = i.dst ∧ (forwardGet t cur i).dead = i.dead ∧
      ((forwardGet t cur i).op = i.op ∨ i.op = .get ∧ (forwardGet t cur i).op = .mov) := by
  unfold forwardGet
  split
  · rename_i hget
    split
    · exact ⟨rfl, rfl, .inr ⟨hget.1, rfl⟩⟩
    · exact ⟨rfl, rfl, .inl rfl⟩
  · exact ⟨rfl, rfl, .inl rfl⟩

theorem trafficStep_live (hd : i.dead = false) :
    trafficStep t w i =
      (forwardGet t w.cur (i.rename w.copy),
        ⟨nextCur t w.cur (i.rename w.copy), nextCopy w.copy (forwardGet t w.cur (i.rename w.copy))⟩) := by
  simp [trafficStep, hd]

/-- The pass changes neither whether an instruction is live nor the temp it writes. -/
theorem trafficStep_defines : (trafficStep t w i).1.Defines x ↔ i.Defines x := by
  cases hd : i.dead with
  | true => simp [trafficStep, hd, Insn.Defines]
  | false =>
    obtain ⟨hdst, hdead, hop⟩ := forwardGet_fields t w.cur (i.rename w.copy)
    simp only [trafficStep_live hd, Insn.Defines, hdst, hdead]
    rcases hop with hop | ⟨hget, hmov⟩
    · rw [hop]; rfl
    · rw [hmov, show i.op = .get from hget]; rfl

/-- A temp copies what it did before, or the instruction is a `mov` that makes it a copy. -/
theorem nextCopy_cases (hd : i.dead = false) (x : τ) :
    (trafficStep t w i).2.copy x = w.copy x ∨
      ((trafficStep t w i).1.op = .mov ∧ (trafficStep t w i).1.dst = some x ∧
        (trafficStep t w i).1.a = some ((trafficStep t w i).2.copy x)) := by
  have heq : (trafficStep t w i).2.copy x = nextCopy w.copy (trafficStep t w i).1 x := by
    rw [trafficStep_live hd]
  rw [heq]
  unfold nextCopy
  split
  · rename_i hm
    cases ha : (trafficStep t w i).1.a with
    | none => exact .inl rfl
    | some z => exact .inr ⟨hm.1, hm.2, rfl⟩
  · exact .inl rfl

theorem trafficStep_dead : (trafficStep t w i).1.dead = i.dead := by
  cases hd : i.dead with
  | true => simp [trafficStep, hd]
  | false => rw [trafficStep_live hd]; exact (forwardGet_fields t w.cur _).2.1.trans hd

/-- The walk refers to written temps after the instruction as well. -/
theorem TrafficScoped.step (hsc : TrafficScoped D w) (hread : ∀ x, i.Reads x → D x) :
    TrafficScoped (fun x => D x ∨ i.Defines x) (trafficStep t w i).2 := by
  cases hd : i.dead with
  | true =>
    have hnd : ∀ x, ¬i.Defines x := by simp [Insn.Defines, hd]
    simpa [trafficStep, hd, hnd] using hsc
  | false =>
    have hcopy : ∀ x, (trafficStep t w i).2.copy x = w.copy x ∨
        i.Defines x ∧ D ((trafficStep t w i).2.copy x) := by
      intro x
      refine (nextCopy_cases hd x).imp_right ?_
      rintro ⟨hop, hdst, ha⟩
      have hlive : (trafficStep t w i).1.dead = false := trafficStep_dead.trans hd
      exact ⟨trafficStep_defines.mp ⟨hlive, by rw [hop]; rfl, hdst⟩,
        hsc.reads hread _ ⟨hlive, by simp [Insn.mem_operands, ha]⟩⟩
    refine ⟨fun x hx => ?_, fun x hx => ?_, fun n x hx => ?_⟩
    · rw [not_or] at hx
      rcases hcopy x with hc | hc
      · rw [hc, hsc.copy_of_not x hx.1]
      · exact absurd hc.1 hx.2
    · rcases hcopy x with hc | hc
      · rw [hc]
        by_cases hD : D x
        · exact .inl (hsc.copy_mem x hD)
        · rw [hsc.copy_of_not x hD]; exact hx
      · exact .inl hc.2
    · rw [trafficStep_live hd] at hx
      rcases nextCur_cases hx with ⟨hop, -, -, hdst⟩ | ⟨-, -, -, ha⟩ | ⟨hc, -⟩
      · exact .inr ⟨hd, by rw [show i.op = .get from hop]; rfl, hdst⟩
      · obtain ⟨y, hy, rfl⟩ : ∃ y, i.a = some y ∧ w.copy y = x := by simpa [Insn.rename] using ha
        exact .inl (hsc.copy_mem y (hread y ⟨hd, by simp [Insn.mem_operands, hy]⟩))
      · exact .inl (hsc.cur_mem n x hc)

/-- The temp of a `mov` of the rewritten block holds its operand's value. -/
theorem TrafficInv.mov (hinv : TrafficInv t U D w s) (hread : ∀ x, i.Reads x → D x) (hd : i.dead = false)
    (h : exec fp t pc i s = .next s') {z : τ} (hop : (trafficStep t w i).1.op = .mov)
    (hdst : (trafficStep t w i).1.dst = some x) (ha : (trafficStep t w i).1.a = some z) :
    D z ∧ s'.tmp x = s.tmp z := by
  have hlive : (trafficStep t w i).1.dead = false := trafficStep_dead.trans hd
  refine ⟨hinv.reads hread z ⟨hlive, by simp [Insn.mem_operands, ha]⟩, ?_⟩
  rw [← exec_trafficStep hinv hread, exec_value hlive (by rw [hop]; rfl)] at h
  cases h
  simp [writeTmp_apply, hdst, hop, value, alu, Insn.read, ha, Operands.av]

/-- A register in a temp has that temp's value in its slot. -/
theorem TrafficInv.cur_step (hlay : Layout t U V) (huse : UsesOnly U V (i :: is)) (hinv : TrafficInv t U D w s)
    (hread : ∀ x, i.Reads x → D x) (hd : i.dead = false) (h : exec fp t pc i s = .next s')
    (htmp : ∀ x, D x → s'.tmp x = s.tmp x) (hx : (trafficStep t w i).2.cur n = some x) :
    (tracked t n = true ∧ U n) ∧ s'.guest.cpu.word (t.regOffset n) = s'.tmp x := by
  have hx' : nextCur t w.cur (i.rename w.copy) n = some x := by rw [trafficStep_live hd] at hx; exact hx
  have hUi := (huse i (by simp)).1
  rcases nextCur_cases hx' with
    ⟨hop, htr, rfl, hdst⟩ | ⟨hop, htr, rfl, ha⟩ | ⟨hc, hput⟩
  · -- a `get` that stays: the temp has just been loaded from the slot
    have hop : i.op = .get := hop
    have hz : t.regIsZero i.imm = false := (tracked_iff.mp htr).2
    refine ⟨⟨htr, hUi (.inl hop)⟩, ?_⟩
    rw [exec_value hd (by rw [hop]; rfl)] at h
    cases h
    simp [writeTmp_apply, show i.dst = some x from hdst, hop, value, hz, Insn.rename]
  · -- a `put`: the slot has just been written from the operand `x` copies
    have hop : i.op = .put := hop
    have hz : t.regIsZero i.imm = false := (tracked_iff.mp htr).2
    obtain ⟨y, hy, rfl⟩ : ∃ y, i.a = some y ∧ w.copy y = x := by simpa [Insn.rename] using ha
    have hDy : D y := hread y ⟨hd, by simp [Insn.mem_operands, hy]⟩
    refine ⟨⟨htr, hUi (.inr hop)⟩, ?_⟩
    rw [htmp _ (hinv.copy_mem y hDy), hinv.copy_val y hDy]
    rw [exec_live hd, hop] at h
    cases h
    simp [put, hz, Insn.read, hy, Operands.av, Insn.rename]
  · obtain ⟨htr, hUn⟩ := hinv.cur_tracked n x hc
    refine ⟨⟨htr, hUn⟩, ?_⟩
    rw [htmp x (hinv.cur_mem n x hc), ← hinv.cur_val n x hc]
    exact exec_frame h (not_writesWord_of_cur hlay huse htr hUn (by rw [hx']; rfl) fun hop => hput hop htr)

/-- The walk's knowledge is true after the instruction as well. -/
theorem TrafficInv.step (hlay : Layout t U V) (huse : UsesOnly U V (i :: is)) (hinv : TrafficInv t U D w s)
    (hread : ∀ x, i.Reads x → D x) (hdef : ∀ x, i.Defines x → ¬D x) (h : exec fp t pc i s = .next s') :
    TrafficInv t U (fun x => D x ∨ i.Defines x) (trafficStep t w i).2 s' := by
  cases hd : i.dead with
  | true =>
    have hnd : ∀ x, ¬i.Defines x := by simp [Insn.Defines, hd]
    rw [exec_dead hd] at h
    cases h
    simpa [trafficStep, hd, hnd] using hinv
  | false =>
    have htmp : ∀ x, D x → s'.tmp x = s.tmp x := fun x hx => exec_tmp h fun hx' => hdef x hx' hx
    have hcur := fun n x => hinv.cur_step (n := n) (x := x) hlay huse hread hd h htmp
    refine ⟨hinv.toTrafficScoped.step hread, fun x hx => ?_, fun n x hx => (hcur n x hx).1,
      fun n x hx => (hcur n x hx).2⟩
    rcases nextCopy_cases hd x with hc | ⟨hop, hdst, ha⟩
    · rw [hc]
      by_cases hD : D x
      · rw [htmp _ (hinv.copy_mem x hD), htmp x hD, hinv.copy_val x hD]
      · rw [hinv.copy_of_not x hD]
    · obtain ⟨hDz, hval⟩ := hinv.mov hread hd h hop hdst ha
      rw [hval, htmp _ hDz]

omit [DecidableEq τ] in
theorem forwardGet_access {cur : Word → Option τ} (h : (forwardGet t cur i).op ≠ .mov) : forwardGet t cur i = i := by
  unfold forwardGet at h ⊢
  split at h
  · split at h
    · exact absurd rfl h
    · simp_all
  · simp_all

theorem trafficLoop_length (w : Traffic τ) : (trafficLoop t w is).length = is.length := by
  induction is generalizing w with
  | nil => rfl
  | cons i is ih => simp [trafficLoop, ih]

theorem trafficStep_modelled : (trafficStep t w i).1.modelled t = i.modelled t := by
  cases hd : i.dead with
  | true => simp [trafficStep, hd]
  | false =>
    rw [trafficStep_live hd]
    by_cases hop : (forwardGet t w.cur (i.rename w.copy)).op = .mov
    · obtain ⟨-, -, h | h⟩ := forwardGet_fields t w.cur (i.rename w.copy)
      · simp [Insn.modelled, hop, show i.op = .mov from h.symm.trans hop]
      · simp [Insn.modelled, hop, show i.op = .get from h.1]
    · rw [forwardGet_access hop]; rfl

/-- `pass_reg_traffic` preserves what the block does. -/
theorem passRegTraffic_equiv (hlay : Layout t U V) (huse : UsesOnly U V is) (hsc : Scoped (fun _ => False) is) :
    BlockEquiv fp t pc is (passRegTraffic t is) := by
  constructor
  · unfold passRegTraffic
    generalize (⟨fun _ => none, id⟩ : Traffic τ) = w
    clear huse hsc
    induction is generalizing w with
    | nil => rfl
    | cons i is ih => simp only [trafficLoop, interpModels, List.all_cons, trafficStep_modelled] at ih ⊢; rw [ih]
  · intro s
    refine (run_sim (P := fun is is' s s' => s = s' ∧ ∃ w D, is' = trafficLoop t w is ∧ Scoped D is ∧
      UsesOnly U V is ∧ TrafficInv t U D w s) ?_ ?_ ⟨rfl, _, _, rfl, hsc, huse, .init⟩).mono
      (fun _ _ h => congrArg State.guest h.1) fun _ _ => id
    · rintro is is' s s' ⟨-, w, D, rfl, -⟩
      exact (trafficLoop_length w).symm
    · rintro i is i' is' s _ ⟨rfl, w, D, heq, ⟨hread, hdef, hsc⟩, huse, hinv⟩
      obtain ⟨rfl, rfl⟩ := List.cons.inj heq
      rw [exec_trafficStep hinv hread]
      cases hx : exec fp t pc i s with
      | next s₁ =>
        exact ⟨rfl, _, _, rfl, hsc, fun j hj => huse j (List.mem_cons_of_mem _ hj),
          hinv.step hlay huse hread hdef hx⟩
      | stop r => exact ⟨rfl, fun _ => rfl⟩

/-- The rewritten block is scoped as the original is. -/
theorem trafficLoop_scoped (hsc : Scoped D is) (hw : TrafficScoped D w) : Scoped D (trafficLoop t w is) := by
  induction is generalizing D w with
  | nil => trivial
  | cons i is ih =>
    obtain ⟨hread, hdef, hrest⟩ := hsc
    refine ⟨hw.reads hread, fun x hx => hdef x (trafficStep_defines.mp hx), ?_⟩
    simpa only [trafficStep_defines] using ih hrest (hw.step hread)

theorem mem_trafficLoop {i' : Insn τ} (h : i' ∈ trafficLoop t w is) :
    ∃ i ∈ is, ∃ w', i' = (trafficStep t w' i).1 := by
  induction is generalizing w with
  | nil => simp [trafficLoop] at h
  | cons i is ih =>
    rcases List.mem_cons.mp h with rfl | h
    · exact ⟨i, by simp, w, rfl⟩
    · obtain ⟨j, hj, w', rfl⟩ := ih h
      exact ⟨j, by simp [hj], w', rfl⟩

theorem passRegTraffic_accesses : AccessesFrom is (passRegTraffic t is) := by
  intro i' hi' hop
  obtain ⟨i, hi, w, rfl⟩ := mem_trafficLoop hi'
  refine ⟨i, hi, ?_⟩
  cases hd : i.dead with
  | true => simp [trafficStep, hd]
  | false =>
    rw [trafficStep_live hd] at hop ⊢
    have hne : (forwardGet t w.cur (i.rename w.copy)).op ≠ .mov := by grind
    rw [forwardGet_access hne]
    exact ⟨rfl, rfl⟩

theorem passRegTraffic_retireMark : (passRegTraffic t is).map Insn.retireMark = is.map Insn.retireMark := by
  unfold passRegTraffic
  generalize (⟨fun _ => none, id⟩ : Traffic τ) = w
  induction is generalizing w with
  | nil => rfl
  | cons i is ih =>
    simp only [trafficLoop, List.map_cons, ih]
    congr 1
    cases hd : i.dead with
    | true => simp [trafficStep, hd]
    | false =>
      rw [trafficStep_live hd]
      by_cases hop : (forwardGet t w.cur (i.rename w.copy)).op = .mov
      · obtain ⟨-, hdead, h | h⟩ := forwardGet_fields t w.cur (i.rename w.copy)
        · simp [Insn.retireMark, hop, show i.op = .mov from h.symm.trans hop, Op.observesState]
        · simp [Insn.retireMark, hop, show i.op = .get from h.1, Op.observesState]
      · rw [forwardGet_access hop]; rfl

/-! ## What is left of the register reads -/

/-- The register traffic of one instruction. -/
inductive RegMark where
  | get (n : Word)
  | put (n : Word)
  | pc
  | clobber
  | leave

omit [DecidableEq τ] in
/-- The register traffic of a live instruction. -/
def Insn.regMark (i : Insn τ) : Option RegMark :=
  if i.dead then none
  else
    match i.op with
    | .get => some (.get i.imm)
    | .put => some (.put i.imm)
    | .setpc => some .pc
    | .helper | .helperTrap => some .clobber
    | .exit => some .leave
    | _ => none

/-- The registers a `put` has written and nothing since may have changed. -/
def knownAfter (t : Target σ) (K : Word → Prop) : Option RegMark → Word → Prop
  | some (.put m), n => K n ∨ n = m ∧ tracked t m = true
  | some .pc, n => K n ∧ t.regOffset n ≠ t.pcOffset
  | some .clobber, _ => False
  | _, n => K n

@[simp] theorem knownAfter_none {K : Word → Prop} : knownAfter t K none = K := rfl
@[simp] theorem knownAfter_get {K : Word → Prop} : knownAfter t K (some (.get n)) = K := rfl

/-- No register of `K`, nor one that a `put` writes on the way, is read back from its slot. -/
def NoReload (t : Target σ) : (Word → Prop) → List (Option RegMark) → Prop
  | _, [] => True
  | K, m :: ms => (∀ n, m = some (.get n) → ¬K n) ∧ (m ≠ some .leave → NoReload t (knownAfter t K m) ms)

/-- Every `put` has a value, up to where the block is left for certain. -/
def PutsOk : List (Insn τ) → Prop
  | [] => True
  | i :: is => (i.dead = false ∧ i.op = .put → i.a.isSome = true) ∧ (i.leaves = false → PutsOk is)

instance PutsOk.decidable : (is : List (Insn τ)) → Decidable (PutsOk is)
  | [] => .isTrue trivial
  | i :: is =>
    have := PutsOk.decidable is
    inferInstanceAs (Decidable ((i.dead = false ∧ i.op = .put → i.a.isSome = true) ∧ (i.leaves = false → PutsOk is)))

omit [DecidableEq τ] in
theorem regMark_ne_leave (h : i.leaves = false) : i.regMark ≠ some .leave := by
  unfold Insn.regMark
  split
  · simp
  · rename_i hd
    have hop : i.op ≠ .exit := by simpa [Insn.leaves, hd] using h
    split <;> simp_all

section NoReload

variable {cur : Word → Option τ} {K : Word → Prop}

omit [DecidableEq τ]

/-- A `get` that the pass leaves alone reads a register that is in no temp. -/
theorem forwardGet_regMark (hK : ∀ n, K n → tracked t n = true ∧ (cur n).isSome = true)
    (h : (forwardGet t cur i).regMark = some (.get n)) : ¬K n := by
  intro hn
  obtain ⟨htr, hcur⟩ := hK n hn
  have hop : (forwardGet t cur i).op = .get ∧ (forwardGet t cur i).imm = n := by
    unfold Insn.regMark at h
    split at h
    · cases h
    · split at h <;> simp_all
  have hsame : forwardGet t cur i = i := forwardGet_access (by rw [hop.1]; simp)
  rw [hsame] at hop
  obtain ⟨x, hx⟩ := Option.isSome_iff_exists.mp hcur
  -- with the register in a temp the `get` would have become a `mov`
  have : (forwardGet t cur i).op = .mov := by simp [forwardGet, hop.1, hop.2, htr, hx]
  rw [hsame, hop.1] at this
  cases this

/-- What is known of the registers by the traffic left in the block is also in the walk's table. -/
theorem nextCur_known (hK : ∀ n, K n → tracked t n = true ∧ (cur n).isSome = true) (hd : i.dead = false)
    (hput : i.op = .put → i.a.isSome = true) (h : knownAfter t K (forwardGet t cur i).regMark n) :
    tracked t n = true ∧ (nextCur t cur i n).isSome = true := by
  by_cases hmov : (forwardGet t cur i).op = .mov
  · have hmark : (forwardGet t cur i).regMark = none := by simp [Insn.regMark, hmov]
    rw [hmark] at h
    obtain ⟨htr, hcur⟩ := hK n h
    refine ⟨htr, ?_⟩
    rcases forwardGet_fields t cur i with ⟨-, -, hop | ⟨hop, -⟩⟩
    · simpa [nextCur, hop.symm.trans hmov] using hcur
    · simp only [nextCur, hop]
      split
      · rename_i hmiss
        rw [hmiss.2.2, hmiss.2.1] at hcur
        cases hcur
      · exact hcur
  · rw [forwardGet_access hmov] at h
    simp only [Insn.regMark, hd, Bool.false_eq_true, if_false] at h
    unfold nextCur
    split <;> rename_i hop <;> simp only [hop, knownAfter] at h
    · obtain ⟨htr, hcur⟩ := hK n h
      refine ⟨htr, ?_⟩
      split
      · rename_i hmiss
        rw [hmiss.2.2, hmiss.2.1] at hcur
        cases hcur
      · exact hcur
    · rcases h with h | ⟨rfl, htr⟩
      · refine ⟨(hK n h).1, ?_⟩
        split
        · exact hput hop
        · exact (hK n h).2
      · exact ⟨htr, by simp [htr, hput hop]⟩
    · obtain ⟨htr, hcur⟩ := hK n h.1
      refine ⟨htr, ?_⟩
      split
      · rename_i hpc
        exact absurd (by simpa using List.find?_some hpc) h.2
      · exact hcur
    · by_cases hexit : i.op = .exit
      · exact hK n (by simpa [hexit] using h)
      · exact hK n (by simp_all)

end NoReload

/-- After the pass no register is read back from its slot while the block still has its value. -/
theorem trafficLoop_noReload {K : Word → Prop} (hput : PutsOk is)
    (hK : ∀ n, K n → tracked t n = true ∧ (w.cur n).isSome = true) :
    NoReload t K ((trafficLoop t w is).map Insn.regMark) := by
  induction is generalizing w K with
  | nil => trivial
  | cons i is ih =>
    cases hd : i.dead with
    | true =>
      have hstep : trafficStep t w i = (i, w) := by simp [trafficStep, hd]
      have hmark : i.regMark = none := by simp [Insn.regMark, hd]
      simp only [trafficLoop, hstep, List.map_cons, NoReload, hmark]
      exact ⟨by simp, fun _ => ih (hput.2 (by simp [Insn.leaves, hd])) hK⟩
    | false =>
      simp only [trafficLoop, trafficStep_live hd, List.map_cons, NoReload]
      refine ⟨fun n hn => forwardGet_regMark hK hn, fun hne => ih (hput.2 ?_) fun n hn => ?_⟩
      · have hop : i.op ≠ .exit := fun hop => hne (by simp [forwardGet, Insn.rename, Insn.regMark, hop, hd])
        simp [Insn.leaves, hop]
      · exact nextCur_known hK hd (fun hop => by simpa [Insn.rename] using hput.1 ⟨hd, hop⟩) hn

end Correct

end Emu.Ir
