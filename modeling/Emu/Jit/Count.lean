-- SUMMARY: What the block backend counts, against what the interpreter counts for the same execution.
import Mathlib
import Emu.Jit.Loop

/-! # Counting

The block backend charges its budget by the block, the interpreter by the instruction. The instruction counters a guest
can read come out the same. The totals do not: a block that retires something and then traps is charged for what it
retired, where the interpreters of RV32, PowerPC and G4MH also count the trap. On ARMv7-M a block that traps at once is
charged one, where the interpreter counts nothing, and one that stops at a store it has counted aside is charged one too
few. -/

namespace Emu.Jit

/-! ## The frontends -/

/-- The counters of Zicntr, and whether `mcountinhibit` stops them. -/
structure Zicntr where
  mcycle : BitVec 64
  minstret : BitVec 64
  stopsCycle : Bool
  stopsInstret : Bool
  deriving DecidableEq, Repr

namespace Zicntr

/-- Add to the counters that run. -/
def add (c : Zicntr) (n : BitVec 64) : Zicntr :=
  { c with
    mcycle := if c.stopsCycle then c.mcycle else c.mcycle + n
    minstret := if c.stopsInstret then c.minstret else c.minstret + n }

/-- `retired_insn`, after an instruction that writes no counter. -/
def retiredInsn (c : Zicntr) : Zicntr := c.add 1

/-- `rv_hart_trap_unretire`: `retired_insn` follows, and nothing has retired. -/
def trapUnretire (c : Zicntr) : Zicntr := c.add (-1)

/-- `rv_jit_count`. -/
def count (n : Nat) (c : Zicntr) : Zicntr := c.add (BitVec.ofNat 64 n)

theorem add_zero (c : Zicntr) : c.add 0 = c := by
  obtain ⟨cycle, instret, stopsCycle, stopsInstret⟩ := c
  cases stopsCycle <;> cases stopsInstret <;> simp [add]

theorem add_add (c : Zicntr) (m n : BitVec 64) : (c.add m).add n = c.add (m + n) := by
  obtain ⟨cycle, instret, stopsCycle, stopsInstret⟩ := c
  cases stopsCycle <;> cases stopsInstret <;> simp [add, BitVec.add_assoc]

end Zicntr

/-- The frontends. -/
inductive Isa where
  | rv32 | ppc | g4mh | armv7m
  deriving DecidableEq, Repr

/-- The instruction counters: those of Zicntr on RV32, `retired` elsewhere. -/
def Isa.Counters : Isa → Type
  | .rv32 => Zicntr
  | .ppc | .g4mh | .armv7m => BitVec 64

/-- A frontend whose counter is `retired`. -/
def retiredFrontend (irqRetires trapRetires : Bool) : Frontend (BitVec 64) where
  irqRetires := irqRetires
  trapRetires := trapRetires
  retire n := n + 1
  trap := id
  irq := id
  count n k := k + BitVec.ofNat 64 n

/-- The frontend of RV32. A trap and an interrupt go through `retired_insn` too. -/
def rvFrontend : Frontend Zicntr where
  irqRetires := true
  trapRetires := true
  retire := Zicntr.retiredInsn
  trap c := c.trapUnretire.retiredInsn
  irq c := c.trapUnretire.retiredInsn
  count := Zicntr.count

/-- How the frontends count. The interpreter of G4MH counts no interrupt, that of ARMv7-M no fault either. -/
def Isa.frontend : (i : Isa) → Frontend i.Counters
  | .rv32 => rvFrontend
  | .ppc => retiredFrontend true true
  | .g4mh => retiredFrontend false true
  | .armv7m => retiredFrontend false false

/-! ## Counters -/

variable {σ κ : Type}

/-- What the interpreter leaves in the counters. -/
def Frontend.ticks (F : Frontend κ) (tr : List (Did κ)) (k : κ) : κ :=
  tr.foldl (fun k d => F.tick d k) k

/-- What a block does to the counters: its helper counts what stops it aside, and the loop what it reports. A trap inside
a block does nothing to them. -/
def Frontend.blockCounts (F : Frontend κ) (tr : List (Did κ)) (k : κ) : κ :=
  let k := if tr.any Did.isAside then F.count 1 k else k
  if retirements tr ≠ 0 then F.count (retirements tr) k else k

/-- What a pass of the block backend does to the counters. `take_irq` does nothing to them. -/
def Frontend.pass (F : Frontend κ) (k : κ) : Pass κ → κ
  | .irq => k
  | .interp tr => F.ticks tr k
  | .block tr => F.blockCounts tr k

/-- What the block backend leaves in the counters. -/
def Frontend.passes (F : Frontend κ) (ps : List (Pass κ)) (k : κ) : κ :=
  ps.foldl F.pass k

/-- Counting a block at once is counting its instructions, and only retired instructions count. -/
structure Frontend.Lawful (F : Frontend κ) : Prop where
  count : ∀ n, F.count n = F.retire^[n]
  trap : ∀ k, F.trap k = k
  irq : ∀ k, F.irq k = k

theorem count_eq_iterate {f : κ → κ} {g : Nat → κ → κ} (hzero : ∀ k, g 0 k = k)
    (hsucc : ∀ n k, g (n + 1) k = g n (f k)) (n : Nat) : g n = f^[n] := by
  induction n with
  | zero => exact funext hzero
  | succ n ih =>
    funext k
    rw [hsucc, ih, Function.iterate_succ_apply]

theorem retiredFrontend_lawful (irqRetires trapRetires : Bool) : (retiredFrontend irqRetires trapRetires).Lawful where
  count := by
    apply count_eq_iterate
    · intro k
      exact BitVec.add_zero k
    · intro n k
      change k + BitVec.ofNat 64 (n + 1) = k + 1 + BitVec.ofNat 64 n
      rw [BitVec.ofNat_add, BitVec.add_assoc, BitVec.add_comm (BitVec.ofNat 64 n)]
      rfl
  trap _ := rfl
  irq _ := rfl

theorem Zicntr.trapUnretire_retiredInsn (c : Zicntr) : c.trapUnretire.retiredInsn = c := by
  rw [Zicntr.trapUnretire, Zicntr.retiredInsn, Zicntr.add_add]
  exact c.add_zero

theorem rvFrontend_lawful : rvFrontend.Lawful where
  count := by
    apply count_eq_iterate
    · intro c
      exact c.add_zero
    · intro n c
      change c.add (BitVec.ofNat 64 (n + 1)) = (c.add 1).add (BitVec.ofNat 64 n)
      rw [Zicntr.add_add, BitVec.ofNat_add, BitVec.add_comm]
      rfl
  trap := Zicntr.trapUnretire_retiredInsn
  irq := Zicntr.trapUnretire_retiredInsn

theorem Isa.lawful (i : Isa) : i.frontend.Lawful := by
  cases i with
  | rv32 => exact rvFrontend_lawful
  | ppc => exact retiredFrontend_lawful true true
  | g4mh => exact retiredFrontend_lawful false true
  | armv7m => exact retiredFrontend_lawful false false

/-! ## Blocks -/

/-- What a block can end with. -/
inductive Did.Ends : Did κ → Prop where
  | retired (pc : Word) : Ends (.retired pc)
  | aside (pc : Word) : Ends (.aside pc)
  | trapped (pc : Word) : Ends (.trapped pc)

/-- What a block and its chain do: instructions that retire, and one that may stop it. -/
structure Retires (tr : List (Did κ)) : Prop where
  split : ∃ rs d, tr = rs ++ [d] ∧ (∀ r ∈ rs, r.isRetired = true) ∧ d.Ends

/-- What a block does not report. -/
def unreported (tr : List (Did κ)) : List (Did κ) := tr.filter fun d => !d.isRetired

/-- A block that is charged less than the interpreter counts: it retires something, and what stops it counts too. -/
def Frontend.undercharges (F : Frontend κ) : Pass κ → Bool
  | .block tr => decide (retirements tr ≠ 0 ∧ F.paid (unreported tr) ≠ 0)
  | .irq | .interp _ => false

/-- A block that is charged for nothing. -/
def Frontend.overcharges (F : Frontend κ) : Pass κ → Bool
  | .block tr => decide (F.paid tr = 0)
  | .irq | .interp _ => false

section
variable {G : Guest σ κ} {F : Frontend κ} {s t : σ} {L : LinkSet} {tr : List (Did κ)}

theorem Guest.exec_ends (G : Guest σ κ) (s : σ) (h : ∀ pc f, (G.exec s).1 ≠ .counter pc f) : (G.exec s).1.Ends := by
  have hpc := G.exec_pc s
  cases hd : (G.exec s).1 with
  | retired pc => exact .retired pc
  | aside pc => exact .aside pc
  | trapped pc => exact .trapped pc
  | counter pc f => exact absurd hd (h pc f)
  | irq =>
    rw [hd] at hpc
    cases hpc

theorem BlockRun.retires {start : Word} (h : BlockRun G start s tr t) : Retires tr := by
  induction h with
  | last _ hplain => exact ⟨[], _, rfl, by simp, G.exec_ends _ hplain⟩
  | more _ hret _ ih =>
    obtain ⟨rs, d, rfl, hrs, hd⟩ := ih.split
    refine ⟨_ :: rs, d, rfl, ?_, hd⟩
    rw [List.forall_mem_cons, hret]
    exact ⟨rfl, hrs⟩

theorem ChainRun.retires (h : ChainRun G L s tr t) : Retires tr := by
  induction h with
  | block hb => exact hb.retires
  | chain _ hall _ _ ih =>
    obtain ⟨rs, d, rfl, hrs, hd⟩ := ih.split
    refine ⟨_ ++ rs, d, (List.append_assoc ..).symm, ?_, hd⟩
    intro r hr
    obtain hr | hr := List.mem_append.mp hr
    · exact hall r hr
    · exact hrs r hr

theorem Frontend.paid_append (F : Frontend κ) (tr tr' : List (Did κ)) :
    F.paid (tr ++ tr') = F.paid tr + F.paid tr' := by
  rw [Frontend.paid, List.map_append, List.sum_append]
  rfl

/-- The budget of an interpreter pays for what a block reports, and for what it does not. -/
theorem Frontend.paid_eq (F : Frontend κ) (tr : List (Did κ)) :
    F.paid tr = retirements tr + F.paid (unreported tr) := by
  induction tr with
  | nil => rfl
  | cons d tr ih =>
    have hretired : retirements (d :: tr) = retirements tr + if d.isRetired then 1 else 0 := List.countP_cons
    have hreport : unreported (d :: tr) = if !d.isRetired then d :: unreported tr else unreported tr := List.filter_cons
    rw [Frontend.paid_cons, ih, hretired, hreport]
    cases d with
    | retired => exact Nat.add_left_comm 1 _ _ |>.trans (Nat.add_assoc _ 1 _).symm
    | aside | trapped | counter | irq => exact Nat.add_left_comm _ _ _

/-- At most one thing goes unreported. -/
theorem Retires.unreported_le (h : Retires tr) (F : Frontend κ) : F.paid (unreported tr) ≤ 1 := by
  obtain ⟨rs, d, rfl, hrs, hd⟩ := h.split
  have hnone : unreported rs = [] := by
    rw [unreported, List.filter_eq_nil_iff]
    intro r hr
    rw [hrs r hr]
    exact Bool.false_ne_true
  rw [unreported, List.filter_append, ← unreported, hnone, List.nil_append]
  cases hd with
  | retired => exact Nat.zero_le 1
  | aside => exact le_rfl
  | trapped => exact Bool.toNat_le F.trapRetires

/-- What a block is charged, against what the interpreter counts for it. -/
theorem Retires.charge (h : Retires tr) (F : Frontend κ) :
    F.charge (.block tr) + (F.undercharges (.block tr)).toNat = F.paid tr + (F.overcharges (.block tr)).toNat := by
  have hle := h.unreported_le F
  rw [Frontend.charge, Frontend.undercharges, Frontend.overcharges, F.paid_eq tr]
  simp only [Bool.toNat, Bool.cond_decide]
  split_ifs <;> omega

/-- The interpreter's counters after a block. -/
theorem Retires.ticks (h : Retires tr) (hF : F.Lawful) (k : κ) : F.ticks tr k = F.blockCounts tr k := by
  obtain ⟨rs, d, rfl, hrs, hd⟩ := h.split
  have hticks : ∀ (rs : List (Did κ)) (k : κ), (∀ r ∈ rs, r.isRetired = true) →
      F.ticks rs k = F.retire^[rs.length] k := by
    intro rs
    induction rs with
    | nil => exact fun _ _ => rfl
    | cons r rs ih =>
      intro k hrs
      obtain ⟨hr, hrs'⟩ := List.forall_mem_cons.mp hrs
      cases r with
      | retired pc => exact ih (F.retire k) hrs'
      | aside | trapped | counter | irq => cases hr
  have hcount : ∀ n k, (if n ≠ 0 then F.count n k else k) = F.retire^[n] k := by
    intro n k
    rw [hF.count]
    split_ifs with hne
    · rfl
    · rw [not_not.mp hne]
      rfl
  have hretired : rs.countP Did.isRetired = rs.length := List.countP_eq_length.mpr hrs
  have haside : rs.any Did.isAside = false := by
    rw [List.any_eq_false]
    intro r hr
    have hret := hrs r hr
    cases r with
    | retired => exact Bool.false_ne_true
    | aside | trapped | counter | irq => cases hret
  have happ : F.ticks (rs ++ [d]) k = F.tick d (F.ticks rs k) := List.foldl_append
  rw [happ, hticks rs k hrs, Frontend.blockCounts, hcount, retirements, List.countP_append, hretired, List.any_append,
    haside, Bool.false_or]
  cases hd with
  | retired => exact (Function.iterate_succ_apply' ..).symm
  | aside =>
    change F.retire (F.retire^[rs.length] k) = F.retire^[rs.length] (F.count 1 k)
    rw [hF.count, ← Function.iterate_succ_apply' F.retire, Function.iterate_succ_apply]
    rfl
  | trapped => exact hF.trap _

end

/-! ## Runs -/

section
variable {G : Guest σ κ} {F : Frontend κ} {s t : σ} {tr : List (Did κ)}

/-- The interpreter returns the sum of what its budget paid for. -/
theorem InterpRun.returns {left n : Nat} {why : Why} (h : InterpRun G F left s tr n why t) : n = F.paid tr := by
  induction h with
  | spent => rfl
  | stopped => rfl
  | yielded => rfl
  | did _ _ _ _ ih =>
    rw [ih]
    rfl

/-- The blocks among the passes retire instructions, and at most one thing stops each. -/
def WellFormed (ps : List (Pass κ)) : Prop := ∀ tr, Pass.block tr ∈ ps → Retires tr

theorem JitRun.wellFormed {budget done : Nat} {prev : Option Word} {L L' : LinkSet} {ps : List (Pass κ)} {why : Why}
    (h : JitRun G F budget done prev s L ps why t L') : WellFormed ps := by
  induction h with
  | spent | stopped => exact fun _ hmem => nomatch hmem
  | irq _ _ _ _ ih =>
    intro tr hmem
    cases hmem with
    | tail _ hmem => exact ih tr hmem
  | interpStops =>
    intro tr hmem
    cases List.mem_singleton.mp hmem
  | interp _ _ _ _ _ _ _ _ _ ih =>
    intro tr hmem
    cases hmem with
    | tail _ hmem => exact ih tr hmem
  | block _ _ _ _ hchain _ ih =>
    intro tr hmem
    cases hmem with
    | head => exact hchain.retires
    | tail _ hmem => exact ih tr hmem

/-- Calls of `emu_jit_run`, one after another, with any budgets. Between two calls links may be dropped or asked to be
undone. -/
inductive JitCalls (G : Guest σ κ) (F : Frontend κ) : σ → Cache → List (Pass κ) → σ → Prop where
  | done (s : σ) (c : Cache) : JitCalls G F s c [] s
  | call {s t u : σ} {c c₁ c₂ : Cache} {budget : Nat} {ps qs : List (Pass κ)} {why : Why} :
      JitCall G F budget s c ps why t c₁ → c₂.links ⊆ c₁.links → JitCalls G F t c₂ qs u →
      JitCalls G F s c (ps ++ qs) u

theorem JitCalls.wellFormed {c : Cache} {ps : List (Pass κ)} (h : JitCalls G F s c ps t) : WellFormed ps := by
  induction h with
  | done => exact fun _ hmem => nomatch hmem
  | call hcall _ _ ih =>
    obtain ⟨L, hrun, -⟩ := hcall
    intro tr hmem
    obtain hmem | hmem := List.mem_append.mp hmem
    · exact hrun.wellFormed tr hmem
    · exact ih tr hmem

theorem WellFormed.cons {p : Pass κ} {ps : List (Pass κ)} (h : WellFormed (p :: ps)) :
    (∀ tr, p = .block tr → Retires tr) ∧ WellFormed ps :=
  ⟨fun tr htr => h tr (htr ▸ List.mem_cons_self ..), fun tr hmem => h tr (List.mem_cons_of_mem _ hmem)⟩

/-- A pass leaves in the counters what the interpreter leaves there. -/
theorem Frontend.Lawful.pass (hF : F.Lawful) (p : Pass κ) (hp : ∀ tr, p = .block tr → Retires tr) (k : κ) :
    F.pass k p = F.ticks p.trace k := by
  cases p with
  | irq => exact (hF.irq k).symm
  | interp tr => rfl
  | block tr => exact ((hp tr rfl).ticks hF k).symm

theorem Frontend.Lawful.passes (hF : F.Lawful) {ps : List (Pass κ)} (hps : WellFormed ps) (k : κ) :
    F.passes ps k = F.ticks (traceOf ps) k := by
  induction ps generalizing k with
  | nil => rfl
  | cons p ps ih =>
    obtain ⟨hp, hps⟩ := hps.cons
    calc F.passes (p :: ps) k
        = F.passes ps (F.pass k p) := rfl
      _ = F.ticks (traceOf ps) (F.ticks p.trace k) := by rw [hF.pass p hp, ih hps]
      _ = F.ticks (p.trace ++ traceOf ps) k := List.foldl_append.symm

/-- A pass is charged what the interpreter counts, up to one. -/
theorem charge_eq (p : Pass κ) (hp : ∀ tr, p = .block tr → Retires tr) :
    F.charge p + (F.undercharges p).toNat = F.paid p.trace + (F.overcharges p).toNat := by
  cases p with
  | irq => rfl
  | interp tr => rfl
  | block tr => exact (hp tr rfl).charge F

/-- What is charged too little, and what too much, is one for each such block. -/
theorem total_eq {ps : List (Pass κ)} (hps : WellFormed ps) :
    F.total ps + ps.countP F.undercharges = F.paid (traceOf ps) + ps.countP F.overcharges := by
  induction ps with
  | nil => rfl
  | cons p ps ih =>
    obtain ⟨hp, hps⟩ := hps.cons
    have hcharge := charge_eq (F := F) p hp
    have htotal : F.total (p :: ps) = F.charge p + F.total ps := rfl
    have hpaid : F.paid (traceOf (p :: ps)) = F.paid p.trace + F.paid (traceOf ps) := F.paid_append ..
    have hcons : ∀ f : Pass κ → Bool, (p :: ps).countP f = ps.countP f + (f p).toNat := by
      intro f
      rw [List.countP_cons, Bool.toNat, Bool.cond_eq_ite]
    have := ih hps
    rw [htotal, hpaid, hcons, hcons]
    omega

end

/-! ## A block that traps later -/

/-- A guest that executes an instruction, traps on the next one, and halts. -/
def trapsLater : Guest (Fin 3) Zicntr where
  pc s := BitVec.ofNat 32 (4 * s)
  status s := if s = 2 then .halted else .running
  irq _ := none
  exec s := if s = 0 then (.retired 0, 1) else (.trapped (BitVec.ofNat 32 (4 * s)), 2)
  yields _ := false
  exec_pc := by decide
  yields_retires := nofun

/-- What it does. -/
def trapsLaterTrace : List (Did Zicntr) := [.retired 0, .trapped 4]

theorem trapsLater_interp : InterpRun trapsLater rvFrontend 10 0 trapsLaterTrace 2 .halted 2 := by
  have hstop : InterpRun trapsLater rvFrontend 8 2 [] 0 .halted 2 := .stopped (by decide)
  have htraps : InterpRun trapsLater rvFrontend 9 1 [.trapped 4] 1 .halted 2 :=
    InterpRun.did (G := trapsLater) (F := rvFrontend) (s := 1) (Nat.succ_pos 8) rfl (fun _ => rfl) hstop
  exact InterpRun.did (G := trapsLater) (F := rvFrontend) (s := 0) (Nat.succ_pos 9) rfl (fun _ => rfl) htraps

theorem trapsLater_block (links : LinkSet) : ChainRun trapsLater links 0 trapsLaterTrace 2 := by
  apply ChainRun.block
  apply BlockRun.more (by decide) rfl
  exact BlockRun.last (by decide) nofun

theorem trapsLater_jit :
    JitCall trapsLater rvFrontend 10 0 ⟨∅, false⟩ [.block trapsLaterTrace] .halted 2 ⟨∅, false⟩ := by
  refine ⟨∅, ?_, rfl⟩
  apply JitRun.block (by decide) rfl rfl (fun _ hl => .inl hl) (trapsLater_block ∅)
  exact .stopped (by decide) (by decide)

end Emu.Jit
