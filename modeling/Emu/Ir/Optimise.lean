-- SUMMARY: `emu_ir_optimise`: the eight passes in their order, and that the optimised block runs as the original does.
import Emu.Ir.Build
import Emu.Ir.DeadFlags
import Emu.Ir.DeadPuts
import Emu.Ir.DeadValues
import Emu.Ir.Fuse
import Emu.Ir.Retire

/-!
# The optimiser

Order matters: deleting a `setf` is what makes its operands dead, `pass_dead_puts` relies on
`pass_reg_traffic` having replaced every read of a register that a `put` wrote, and a product has a
single use only once the dead writes are gone.

The passes preserve a block under four conditions on it, each of which some pass takes for granted:
the flags an `exit` in the middle leaves behind are not redefined after it, every `put` has a value,
no stretch of retirements sums to 0, and there is no `fget` for a target without FP registers.
-/

namespace Emu.Ir

variable {τ σ F : Type} [DecidableEq τ]

/-- `emu_ir_opt_stats_t`. -/
structure OptStats where
  singleUse : Nat := 0
  flagsRemoved : Nat := 0
  getsRemoved : Nat := 0
  putsRemoved : Nat := 0
  setpcsRemoved : Nat := 0
  folded : Nat := 0
  addrFolded : Nat := 0
  identities : Nat := 0
  macs : Nat := 0
  deadRemoved : Nat := 0
  retiresMerged : Nat := 0
  deriving DecidableEq

/-- `emu_ir_optimise`. -/
def optimise (canLower : Op → Byte → Bool) (t : Target σ) (liveOut : Byte) (b : Block τ) : Block τ × OptStats :=
  if b.overflow then (b, {})
  else
    let flags := passDeadFlags liveOut b.insns
    let traffic := passRegTraffic t flags.insns
    let fuse := passFuse canLower traffic
    let puts := passDeadPuts t fuse.insns
    let values := passDeadValues puts.insns
    let mac := passMac canLower values.insns
    let merge := passMergeRetire mac.insns
    ({ b with insns := passCountUses merge.insns },
      { singleUse := singleUse merge.insns
        flagsRemoved := flags.flagsRemoved
        getsRemoved := getsRemoved flags.insns traffic
        putsRemoved := puts.putsRemoved
        setpcsRemoved := puts.setpcsRemoved
        folded := fuse.folded
        addrFolded := fuse.addrFolded
        identities := fuse.identities
        macs := mac.macs
        deadRemoved := values.deadRemoved
        retiresMerged := merge.retiresMerged })

/-! ## What the passes keep for each other -/

section

variable {fp : FloatOps F} {t : Target σ} {pc : Word} {U V : Word → Prop} {uses : τ → Nat} {canLower : Op → Byte → Bool}
variable {is is' : List (Insn τ)}

/-- The temp an instruction has, and whether it writes one. -/
def Insn.result (i : Insn τ) : Option τ × Bool := (i.dst, i.op.writes)

omit [DecidableEq τ] in
theorem DstOk.of_results (h : DstOk is) (heq : is'.map Insn.result = is.map Insn.result) : DstOk is' := by
  intro i' hi' hdst
  have hmem : i'.result ∈ is.map Insn.result := heq ▸ List.mem_map_of_mem hi'
  obtain ⟨i, hi, hres⟩ := List.mem_map.mp hmem
  obtain ⟨hd, hw⟩ := Prod.mk.inj hres
  rw [← hw]
  exact h i hi (hd ▸ hdst)

omit [DecidableEq τ] in
theorem passDeadFlags_results {liveOut : Byte} :
    (passDeadFlags liveOut is).insns.map Insn.result = is.map Insn.result :=
  map_eq_of_forall₂ (passDeadFlags_forall₂.imp fun i i' ⟨heq, _⟩ => by rw [heq]; rfl)

theorem trafficStep_result {w : Traffic τ} {i : Insn τ} : (trafficStep t w i).1.result = i.result := by
  cases hd : i.dead with
  | true => simp [trafficStep, hd]
  | false =>
    obtain ⟨hdst, -, hop⟩ := forwardGet_fields t w.cur (i.rename w.copy)
    rw [trafficStep_live hd]
    refine Prod.ext hdst ?_
    rcases hop with hop | ⟨hget, hmov⟩
    · simp only [Insn.result, hop]
      rfl
    · have hget' : i.op = .get := hget
      simp only [Insn.result, hmov, hget']
      rfl

theorem trafficLoop_results {w : Traffic τ} : (trafficLoop t w is).map Insn.result = is.map Insn.result := by
  induction is generalizing w with
  | nil => rfl
  | cons i is ih => simp only [trafficLoop, List.map_cons, trafficStep_result, ih]

theorem Rewritten.results (h : Rewritten fp t pc uses is is') : is'.map Insn.result = is.map Insn.result :=
  map_eq_of_forall₂ (h.keeps.imp fun _ _ hi => Prod.ext hi.dst hi.writes)

omit [DecidableEq τ] in
theorem passDeadPuts_results : (passDeadPuts t is).insns.map Insn.result = is.map Insn.result :=
  map_eq_of_forall₂ (passDeadPuts_forall₂.imp fun i i' hor => by rcases hor with rfl | ⟨-, rfl⟩ <;> rfl)

theorem passDeadValues_results : (passDeadValues is).insns.map Insn.result = is.map Insn.result :=
  map_eq_of_forall₂ (passDeadValues_forall₂.imp fun i i' hor => by rcases hor with rfl | ⟨-, rfl⟩ <;> rfl)

omit [DecidableEq τ] in
theorem passMergeRetire_results : (passMergeRetire is).insns.map Insn.result = is.map Insn.result :=
  map_eq_of_forall₂ (passMergeRetire_merged.imp fun _ _ hi => Prod.ext hi.dst (by simp only [Insn.result, hi.op]))

theorem passCountUses_results : (passCountUses is).map Insn.result = is.map Insn.result := by
  rw [passCountUses, List.map_map]
  rfl

theorem Rewritten.accesses (h : Rewritten fp t pc uses is is') : AccessesFrom is is' := by
  intro i' hi' hop
  obtain ⟨k, hk⟩ := List.getElem?_of_mem hi'
  obtain ⟨hlt', hget⟩ := List.getElem?_eq_some_iff.mp hk
  have hlt : k < is.length := h.keeps.length_eq ▸ hlt'
  have hkeep : (is.get ⟨k, hlt⟩).Keeps t (is'.get ⟨k, hlt'⟩) := (List.forall₂_iff_get.mp h.keeps).2 k hlt hlt'
  refine ⟨is[k], List.getElem_mem hlt, ?_⟩
  rw [← hget] at hop ⊢
  exact hkeep.access hop

theorem Rewritten.regMark (h : Rewritten fp t pc uses is is') : is'.map Insn.regMark = is.map Insn.regMark :=
  map_eq_of_forall₂ (h.keeps.imp fun _ _ hi => hi.regMark)

theorem Rewritten.retireMark (h : Rewritten fp t pc uses is is') :
    is'.map Insn.retireMark = is.map Insn.retireMark :=
  map_eq_of_forall₂ (h.keeps.imp fun _ _ hi => hi.retireMark)

/-! ## The optimised block runs as the original -/

/-- The integer registers a block reads or writes. -/
def usedRegs (is : List (Insn τ)) (n : Word) : Prop := ∃ i ∈ is, (i.op = .get ∨ i.op = .put) ∧ i.imm = n

/-- The FP registers a block reads or writes. -/
def usedFregs (is : List (Insn τ)) (n : Word) : Prop := ∃ i ∈ is, (i.op = .fget ∨ i.op = .fput) ∧ i.imm = n

/-- What the passes take for granted of a block. -/
structure Optimisable (t : Target σ) (is : List (Insn τ)) : Prop where
  flags : FlagsCovered is
  puts : PutsOk is
  retires : RetiresOk none (is.map Insn.retireMark)
  fgets : FgetOk t is

omit [DecidableEq τ] in
theorem usesOnly_used : UsesOnly (usedRegs is) (usedFregs is) is :=
  fun i hi => ⟨fun hop => ⟨i, hi, hop, rfl⟩, fun hop => ⟨i, hi, hop, rfl⟩⟩

omit [DecidableEq τ] in
theorem passDeadFlags_putsOk {liveOut : Byte} (h : PutsOk is) : PutsOk (passDeadFlags liveOut is).insns := by
  have hrel : List.Forall₂ _ is (passDeadFlags liveOut is).insns := passDeadFlags_forall₂
  generalize (passDeadFlags liveOut is).insns = is' at hrel
  induction hrel with
  | nil => trivial
  | @cons i i' _ _ hi _ ih =>
    obtain ⟨heq, hdead⟩ := hi
    refine ⟨fun hput => ?_, fun hleave => ih (h.2 ?_)⟩
    · rw [heq] at hput ⊢
      refine h.1 ⟨?_, hput.2⟩
      rcases hdead with hdead | ⟨hop, -⟩
      · exact hdead.symm.trans hput.1
      · rw [hop] at hput; cases hput.2
    · rw [heq] at hleave
      rcases hdead with hdead | ⟨hop, -⟩
      · simpa [Insn.leaves, hdead] using hleave
      · simp [Insn.leaves, hop]

/-- What a pass finds of the block and leaves for the next. -/
structure PassInv (t : Target σ) (U V : Word → Prop) (is : List (Insn τ)) : Prop where
  inScope : Scoped (fun _ => False) is
  dstOk : DstOk is
  usesOnly : UsesOnly U V is
  fgets : FgetOk t is
  retires : RetiresOk none (is.map Insn.retireMark)

omit [DecidableEq τ] in
theorem PassInv.next (h : PassInv t U V is) (hsc : Scoped (fun _ => False) is') (hdst : DstOk is')
    (hacc : AccessesFrom is is') (hmark : is'.map Insn.retireMark = is.map Insn.retireMark) : PassInv t U V is' :=
  ⟨hsc, hdst, hacc.usesOnly h.usesOnly, hacc.fgetOk h.fgets, hmark ▸ h.retires⟩

theorem PassInv.rewritten (h : PassInv t U V is) (hr : Rewritten fp t pc uses is is') : PassInv t U V is' :=
  h.next hr.inScope (h.dstOk.of_results hr.results) hr.accesses hr.retireMark

/-- The passes, one after another. -/
theorem optimise_equiv {b : Block τ} (ho : b.overflow = false) (hlay : Layout t U V) (h : PassInv t U V b.insns)
    (hlive : ∀ i ∈ b.insns, i.live = i.defs) (hok : Optimisable t b.insns) :
    BlockEquiv fp t pc b.insns (optimise canLower t flagAll b).1.insns := by
  have h₁ : PassInv t U V (passDeadFlags flagAll b.insns).insns :=
    h.next (passDeadFlags_scoped h.inScope) (h.dstOk.of_results passDeadFlags_results) passDeadFlags_accesses
      passDeadFlags_retireMark
  have hput : PutsOk (passDeadFlags flagAll b.insns).insns := passDeadFlags_putsOk hok.puts
  have e₁ : BlockEquiv fp t pc _ _ := passDeadFlags_equiv hlay h.usesOnly hlive hok.flags
  have h₂ : PassInv t U V (passRegTraffic t _) :=
    h₁.next (trafficLoop_scoped h₁.inScope .init) (h₁.dstOk.of_results trafficLoop_results) passRegTraffic_accesses
      passRegTraffic_retireMark
  have e₂ := e₁.trans (passRegTraffic_equiv hlay h₁.usesOnly h₁.inScope)
  have hre : NoReload t (fun _ => False) ((passRegTraffic t _).map Insn.regMark) :=
    trafficLoop_noReload hput fun _ => False.elim
  have r₃ : Rewritten fp t pc _ _ (passFuse canLower _).insns := passFuse_rewritten h₂.inScope h₂.dstOk
  have h₃ := h₂.rewritten r₃
  have e₃ := e₂.trans r₃.equiv
  rw [← r₃.regMark] at hre
  have h₄ : PassInv t U V (passDeadPuts t _).insns :=
    h₃.next (passDeadPuts_scoped h₃.inScope) (h₃.dstOk.of_results passDeadPuts_results) passDeadPuts_accesses
      passDeadPuts_retireMark
  have e₄ := e₃.trans (passDeadPuts_equiv hlay h₃.usesOnly hre)
  have h₅ : PassInv t U V (passDeadValues _).insns :=
    h₄.next (passDeadValues_scoped h₄.inScope (fun _ => id) fun _ _ => id) (h₄.dstOk.of_results passDeadValues_results)
      (accessesFrom_of_forall₂ (passDeadValues_forall₂.imp fun i i' hor => by
        rcases hor with rfl | ⟨-, rfl⟩ <;> exact ⟨rfl, rfl⟩)) passDeadValues_retireMark
  have e₅ := e₄.trans (passDeadValues_equiv h₄.fgets)
  have r₆ : Rewritten fp t pc _ _ (passMac canLower _).insns := passMac_rewritten h₅.inScope h₅.dstOk
  have e₆ := e₅.trans r₆.equiv
  have e₇ := e₆.trans (passMergeRetire_equiv (h₅.rewritten r₆).retires)
  simpa only [optimise, ho, Bool.false_eq_true, if_false] using e₇.trans passCountUses_equiv

end

/-- A guest with its flag word first, then the pc, then the registers. -/
def plainTarget : Target Unit where
  regOffset n := 8 + 4 * n
  flagsOffset := 0
  flagBit f := (1 : Word) <<< f.val
  regIsZero _ := false
  pcOffset := 4
  helpers := []
  load := none
  store := none
  fregOffset := none

/-- Host floats that are all alike. -/
def plainFloat : FloatOps Unit where
  b2f _ := ()
  f2b _ := 0
  add _ _ := ()
  sub _ _ := ()
  mul _ _ := ()
  div _ _ := ()
  eq _ _ := true
  lt _ _ := false
  ofInt _ := ()
  toInt64 _ := 0

theorem plainTarget_layout {U V : Word → Prop} (hU : ∀ n, U n → n < maxGuestRegs) : Layout plainTarget U V := by
  refine ⟨fun n m hn hm _ _ heq => ?_, fun n hn _ => ?_, fun n m hn _ hpc => ?_, by decide, fun f hf => by cases hf⟩
  · have := hU n hn
    have := hU m hm
    simp only [plainTarget, maxGuestRegs] at *
    bv_omega
  · have := hU n hn
    simp only [plainTarget, maxGuestRegs] at *
    bv_omega
  · simp only [plainTarget, maxGuestRegs] at hn hpc
    bv_omega

/-- `r1 = r1 + 5` with its flags, then `r2 = r1 * r1`. -/
def sumBlock : Block Nat :=
  let lim : Limits := ⟨2048, 1024⟩
  let b₁ := ((Block.reset 0).get lim 1).2
  let b₂ := (b₁.const lim 5).2
  let b₃ := (b₂.alu lim .add (some 0) (some 1)).2
  let b₄ := b₃.put lim 1 (some 2)
  let b₅ := (b₄.emit lim .setf 1 (some 0) (some 1) 0 flagAll).2
  let b₆ := (b₅.emit lim .retire 0 none none 0 0).2
  let b₇ := (b₆.get lim 1).2
  let b₈ := (b₇.alu lim .mul (some 3) (some 3)).2
  let b₉ := b₈.put lim 2 (some 4)
  let b₁₀ := (b₉.emit lim .retire 0 none none 0 0).2
  (b₁₀.emit lim .exit 0 none none 8 0).2

theorem sumBlock_built : Built ⟨2048, 1024⟩ sumBlock := by
  iterate 11 refine .emit _ _ _ _ ?_ (by decide) (by decide)
  exact .reset 0

theorem sumBlock_optimisable : Optimisable plainTarget sumBlock.insns :=
  ⟨by decide, by decide, by decide, by unfold FgetOk; decide⟩

theorem sumBlock_layout : Layout plainTarget (usedRegs sumBlock.insns) (usedFregs sumBlock.insns) := by
  refine plainTarget_layout ?_
  rintro n ⟨i, hi, hop, rfl⟩
  revert i
  decide

/-- Flags, an exit, and the same flags again behind it. -/
def exitBlock : Block Nat :=
  let lim : Limits := ⟨2048, 1024⟩
  let b₁ := ((Block.reset 0).emit lim .setf 0 none none 0 flagAll).2
  let b₂ := (b₁.emit lim .exit 0 none none 8 0).2
  (b₂.emit lim .setf 0 none none 0 flagAll).2

theorem exitBlock_built : Built ⟨2048, 1024⟩ exitBlock := by
  iterate 3 refine .emit _ _ _ _ ?_ (by decide) (by decide)
  exact .reset 0

theorem exitBlock_layout : Layout plainTarget (usedRegs exitBlock.insns) (usedFregs exitBlock.insns) := by
  refine plainTarget_layout ?_
  rintro n ⟨i, hi, hop, rfl⟩
  revert i
  decide

/-- The flag word a run ends with. -/
def Result.flags (t : Target σ) : Result σ → Option Word
  | .done _ g => some (g.cpu.word t.flagsOffset)
  | _ => none

end Emu.Ir
