-- SUMMARY: The run loops of an interpreter and of the block backend, over any guest: what they execute and what they count.
import Mathlib
import Emu.Ir.Syntax
import Emu.Cpu

/-! # Run loops

A guest is seen from outside: at each point it takes an interrupt or executes the instruction at its pc, which retires
or traps. The interpreter does one of these at a time. The block backend runs translated blocks between which it looks
for interrupts; which pcs have a block, which are interpreted and which exits are linked is up to the cache, so its runs
are a relation. -/

namespace Emu.Jit

/-- What a core does at a time. `aside` is an instruction that retires but stops a block, whose helper has counted it: a
store of ARMv7-M that pends an imprecise fault. An instruction that writes the instruction counters says what it does to
them, its own increment included. -/
inductive Did (κ : Type) where
  | retired (pc : Word)
  | aside (pc : Word)
  | trapped (pc : Word)
  | counter (pc : Word) (f : κ → κ)
  | irq

/-- The instruction that was executed. -/
def Did.pc? {κ : Type} : Did κ → Option Word
  | .retired pc => some pc
  | .aside pc => some pc
  | .trapped pc => some pc
  | .counter pc _ => some pc
  | .irq => none

def Did.isRetired {κ : Type} : Did κ → Bool
  | .retired _ => true
  | _ => false

def Did.isAside {κ : Type} : Did κ → Bool
  | .aside _ => true
  | _ => false

/-- A guest, with what a pass of a run loop finds: whether it runs (a core that sleeps has been woken if it can be), the
interrupt it takes, and what the instruction at its pc does. An exception return of ARMv7-M, which is no instruction, is
among the interrupts. After an instruction that yields, the interpreter returns. -/
structure Guest (σ κ : Type) where
  pc : σ → Word
  status : σ → RunState
  irq : σ → Option σ
  exec : σ → Did κ × σ
  yields : σ → Bool
  exec_pc : ∀ s, (exec s).1.pc? = some (pc s)
  yields_retires : ∀ s, yields s = true → (exec s).1 = .retired (pc s)

/-- How a frontend counts. `irqRetires` and `trapRetires` say whether the interpreter's budget pays for an interrupt
and for an instruction that traps; the functions are what the interpreter does to the instruction counters, and
`count` is the callback of the block backend. -/
structure Frontend (κ : Type) where
  irqRetires : Bool
  trapRetires : Bool
  retire : κ → κ
  trap : κ → κ
  irq : κ → κ
  count : Nat → κ → κ

/-- `emu_run_reason_t`. -/
inductive Why where
  | budget | halted | wfi | yield
  deriving DecidableEq, Repr

/-- Why a core that does not run stops a loop. -/
def Why.of : RunState → Why
  | .running => .budget
  | .wfi => .wfi
  | .halted => .halted

variable {σ κ : Type} (G : Guest σ κ) (F : Frontend κ)

/-- What the budget pays for. -/
def Frontend.cost : Did κ → Nat
  | .retired _ => 1
  | .aside _ => 1
  | .trapped _ => F.trapRetires.toNat
  | .counter _ _ => 1
  | .irq => F.irqRetires.toNat

/-- What the budget pays for an execution. -/
def Frontend.paid (tr : List (Did κ)) : Nat := (tr.map F.cost).sum

/-- What the interpreter does to the counters. -/
def Frontend.tick : Did κ → κ → κ
  | .retired _ => F.retire
  | .aside _ => F.retire
  | .trapped _ => F.trap
  | .counter _ f => f
  | .irq => F.irq

/-! ## The interpreter -/

/-- What the interpreter does next: it looks for an interrupt before every instruction. -/
def Guest.next (s : σ) : Did κ × σ :=
  match G.irq s with
  | some s' => (.irq, s')
  | none => G.exec s

/-- `run` of a frontend's interpreter, with what is left of the budget. Whether a core that stops with the last of its
budget is reported as stopped differs between the frontends. -/
inductive InterpRun : Nat → σ → List (Did κ) → Nat → Why → σ → Prop where
  | spent (s : σ) : InterpRun 0 s [] 0 .budget s
  | stopped {left : Nat} {s : σ} : G.status s ≠ .running → InterpRun left s [] 0 (Why.of (G.status s)) s
  | yielded {left : Nat} {s : σ} : 0 < left → G.status s = .running → G.irq s = none → G.yields s = true →
      InterpRun left s [(G.exec s).1] (F.cost (G.exec s).1) .yield (G.exec s).2
  | did {left n : Nat} {s t : σ} {tr : List (Did κ)} {why : Why} : 0 < left → G.status s = .running →
      (G.irq s = none → G.yields s = false) → InterpRun (left - F.cost (G.next s).1) (G.next s).2 tr n why t →
      InterpRun left s ((G.next s).1 :: tr) (F.cost (G.next s).1 + n) why t

/-! ## Blocks -/

/-- The most bytes a block covers: 64 instructions of 6. -/
def blockBytes : Nat := 384

/-- A pc in the block that starts at `start`. Addresses wrap around. -/
def InBlock (start pc : Word) : Prop := (pc - start).toNat < blockBytes

instance (start pc : Word) : Decidable (InBlock start pc) := inferInstanceAs (Decidable (_ < _))

/-- A block runs from its start, until it leaves its range, traps or exits. It has no instructions that touch the
counters. -/
inductive BlockRun (start : Word) : σ → List (Did κ) → σ → Prop where
  | last {s : σ} : InBlock start (G.pc s) → (∀ pc f, (G.exec s).1 ≠ .counter pc f) →
      BlockRun start s [(G.exec s).1] (G.exec s).2
  | more {s t : σ} {tr : List (Did κ)} : InBlock start (G.pc s) → (G.exec s).1 = .retired (G.pc s) →
      BlockRun start (G.exec s).2 tr t → BlockRun start s ((G.exec s).1 :: tr) t

/-- Linked exits: the start of a block, and the pc it goes on at without returning to the loop. -/
abbrev LinkSet := Set (Word × Word)

/-- A block and the ones chained to it. A block that traps returns. -/
inductive ChainRun (links : LinkSet) : σ → List (Did κ) → σ → Prop where
  | block {s t : σ} {tr : List (Did κ)} : BlockRun G (G.pc s) s tr t → ChainRun links s tr t
  | chain {s t u : σ} {tr tr' : List (Did κ)} : BlockRun G (G.pc s) s tr t → (∀ d ∈ tr, d.isRetired = true) →
      (G.pc s, G.pc t) ∈ links → ChainRun links t tr' u → ChainRun links s (tr ++ tr') u

/-! ## The dispatcher -/

/-- A pass of the loop of `emu_jit_run`: an interrupt between blocks, a fallback to the interpreter, or a block and
what is chained to it. -/
inductive Pass (κ : Type) where
  | irq
  | interp (tr : List (Did κ))
  | block (tr : List (Did κ))

/-- What a pass did. -/
def Pass.trace : Pass κ → List (Did κ)
  | .irq => [.irq]
  | .interp tr => tr
  | .block tr => tr

/-- What passes did. -/
def traceOf (ps : List (Pass κ)) : List (Did κ) := ps.flatMap Pass.trace

/-- How many instructions a block reports. -/
def retirements (tr : List (Did κ)) : Nat := tr.countP Did.isRetired

/-- What a pass adds to `done`. A block that retires nothing is charged one. -/
def Frontend.charge : Pass κ → Nat
  | .irq => F.irqRetires.toNat
  | .interp tr => F.paid tr
  | .block tr => if retirements tr ≠ 0 then retirements tr else 1

/-- What `emu_jit_run` returns: the `done` it ends with. -/
def Frontend.total (ps : List (Pass κ)) : Nat := (ps.map F.charge).sum

/-- `emu_jit_run`, from some point of its loop: `done`, `prev`, the guest and the links; the passes it still makes, and
what it leaves. A fallback interprets no more than is left of the budget and forgets `prev`; `prev` may be linked to the
block that is about to run; anything may drop links. -/
inductive JitRun (budget : Nat) : Nat → Option Word → σ → LinkSet → List (Pass κ) → Why → σ → LinkSet → Prop where
  | spent {done : Nat} {prev : Option Word} {s : σ} {L : LinkSet} : budget ≤ done →
      JitRun budget done prev s L [] .budget s L
  | stopped {done : Nat} {prev : Option Word} {s : σ} {L : LinkSet} : done < budget → G.status s ≠ .running →
      JitRun budget done prev s L [] (Why.of (G.status s)) s L
  | irq {done : Nat} {prev : Option Word} {s s' t : σ} {L L' : LinkSet} {ps : List (Pass κ)} {why : Why} :
      done < budget → G.status s = .running → G.irq s = some s' →
      JitRun budget (done + F.charge .irq) prev s' L ps why t L' →
      JitRun budget done prev s L (.irq :: ps) why t L'
  | interpStops {done want n : Nat} {prev : Option Word} {s t : σ} {L L' : LinkSet} {tr : List (Did κ)} {why : Why} :
      done < budget → G.status s = .running → G.irq s = none → 0 < want → want ≤ budget - done →
      InterpRun G F want s tr n why t → why = .halted ∨ why = .wfi → L' ⊆ L →
      JitRun budget done prev s L [.interp tr] why t L'
  | interp {done want n : Nat} {prev : Option Word} {s t u : σ} {L L₁ L' : LinkSet} {tr : List (Did κ)}
      {ps : List (Pass κ)} {r why : Why} :
      done < budget → G.status s = .running → G.irq s = none → 0 < want → want ≤ budget - done →
      InterpRun G F want s tr n r t → r = .budget ∨ r = .yield → L₁ ⊆ L →
      JitRun budget (done + F.charge (.interp tr)) none t L₁ ps why u L' →
      JitRun budget done prev s L (.interp tr :: ps) why u L'
  | block {done : Nat} {prev : Option Word} {s t u : σ} {L L₁ L' : LinkSet} {tr : List (Did κ)}
      {ps : List (Pass κ)} {why : Why} :
      done < budget → G.status s = .running → G.irq s = none →
      (∀ l ∈ L₁, l ∈ L ∨ prev = some l.1 ∧ l.2 = G.pc s) → ChainRun G L₁ s tr t →
      JitRun budget (done + F.charge (.block tr)) (some (G.pc s)) t L₁ ps why u L' →
      JitRun budget done prev s L (.block tr :: ps) why u L'

/-- What the cache keeps between calls: the links, and whether they are to be undone. -/
structure Cache where
  links : LinkSet
  unchain : Bool

/-- A call of `emu_jit_run`: the links are undone first if that was asked for. -/
def JitCall (budget : Nat) (s : σ) (c : Cache) (ps : List (Pass κ)) (why : Why) (t : σ) (c' : Cache) : Prop :=
  ∃ L, JitRun G F budget 0 none s (if c.unchain then ∅ else c.links) ps why t L ∧ c' = ⟨L, false⟩

/-- `emu_jit_step`: one instruction of the interpreter. -/
def JitStep (s : σ) (tr : List (Did κ)) (why : Why) (t : σ) : Prop :=
  ∃ n, InterpRun G F 1 s tr n why t

/-! ## Runs of one -/

section
variable {G F}
variable {s t : σ} {tr : List (Did κ)}

theorem InterpRun.spent_nil {n : Nat} {why : Why} (h : InterpRun G F 0 s tr n why t) : tr = [] := by
  cases h with
  | spent => rfl
  | stopped => rfl
  | yielded hleft => exact absurd hleft (Nat.lt_irrefl 0)
  | did hleft => exact absurd hleft (Nat.lt_irrefl 0)

theorem Why.of_ne {r : RunState} (h : r ≠ .running) : Why.of r = .halted ∨ Why.of r = .wfi := by
  cases r with
  | running => exact absurd rfl h
  | wfi => exact .inr rfl
  | halted => exact .inl rfl

theorem Frontend.paid_cons (F : Frontend κ) (d : Did κ) (tr : List (Did κ)) :
    F.paid (d :: tr) = F.cost d + F.paid tr := rfl

/-- A run that goes on has spent something. -/
theorem InterpRun.spends {left n : Nat} {why : Why} (h : InterpRun G F left s tr n why t) (hleft : 0 < left)
    (hwhy : why = .budget ∨ why = .yield) : 0 < F.paid tr := by
  induction h with
  | spent => exact absurd hleft (Nat.lt_irrefl 0)
  | stopped hstatus =>
    obtain h | h := Why.of_ne hstatus
    all_goals
      rw [h] at hwhy
      cases hwhy <;> contradiction
  | @yielded left s _ _ _ hyields =>
    rw [G.yields_retires s hyields]
    exact Nat.one_pos
  | @did left n s t tr why _ _ _ _ ih =>
    rw [Frontend.paid_cons]
    cases hcost : F.cost (G.next s).1 with
    | zero =>
      rw [hcost] at ih
      exact Nat.add_pos_right _ (ih hleft hwhy)
    | succ n => exact Nat.add_pos_left (Nat.succ_pos n) _

theorem BlockRun.inBlock {start : Word} (h : BlockRun G start s tr t) :
    ∀ d ∈ tr, ∀ pc, d.pc? = some pc → InBlock start pc := by
  have hexec : ∀ {s}, InBlock start (G.pc s) → ∀ pc, (G.exec s).1.pc? = some pc → InBlock start pc := by
    intro s hin pc hpc
    rw [G.exec_pc] at hpc
    cases hpc
    exact hin
  induction h with
  | last hin _ =>
    intro d hd
    cases List.mem_singleton.mp hd
    exact hexec hin
  | more hin _ _ ih =>
    rw [List.forall_mem_cons]
    exact ⟨hexec hin, ih⟩

/-- Without links a block runs alone. -/
theorem ChainRun.alone (h : ChainRun G ∅ s tr t) : BlockRun G (G.pc s) s tr t := by
  cases h with
  | block hb => exact hb
  | chain _ _ hlink => exact absurd hlink (Set.notMem_empty _)

theorem Frontend.charge_block_pos (F : Frontend κ) (tr : List (Did κ)) : 0 < F.charge (.block tr) := by
  rw [Frontend.charge]
  split_ifs with hne
  · exact Nat.pos_of_ne_zero hne
  · exact Nat.one_pos

theorem JitRun.spent_nil {budget done : Nat} {prev : Option Word} {L L' : LinkSet} {ps : List (Pass κ)} {why : Why}
    (h : JitRun G F budget done prev s L ps why t L') (hdone : budget ≤ done) : ps = [] ∧ L' = L := by
  cases h with
  | spent => exact ⟨rfl, rfl⟩
  | stopped hlt | irq hlt | interpStops hlt | interp hlt | block hlt => exact absurd hlt (Nat.not_lt.mpr hdone)

end

end Emu.Jit
