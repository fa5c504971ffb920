-- SUMMARY: When a breakpoint stops the guest before the instruction it is set on.
import Emu.Gdb.Run
import Emu.Jit.Count

/-! # Breakpoints

A breakpoint is kept when the instruction it is set on is executed only as the first one after a resume from it. The
stub keeps its breakpoints as long as nothing runs behind its back: links made by a slice that ran freely while it took
them to be undone, an interrupt or a fault whose entry the frontend does not count, a breakpoint set on the pc of a guest
that runs, a block that wraps around the address space. -/

namespace Emu.Gdb.Control

open Emu.Jit

variable {σ κ : Type}

/-! ## Kept breakpoints -/

/-- Every instruction executed at a breakpoint comes right after a resume from there. The log has the latest first. -/
def Kept : List Seen → Prop
  | [] => True
  | .exec pc brk :: log => (pc ∈ brk → log.head? = some (.resume pc)) ∧ Kept log
  | .resume _ :: log => Kept log
  | .stop _ :: log => Kept log

/-- The instruction at `pc` may be executed. -/
def Clear (brk : List Word) (log : List Seen) (pc : Word) : Prop :=
  pc ∈ brk → log.head? = some (.resume pc)

theorem Clear.of_not_mem {brk : List Word} {log : List Seen} {pc : Word} (h : pc ∉ brk) : Clear brk log pc :=
  fun hmem => absurd hmem h

/-- No instruction of the trace is at a breakpoint. -/
def Misses (brk : List Word) (tr : List (Did κ)) : Prop :=
  ∀ d ∈ tr, ∀ pc, d.pc? = some pc → pc ∉ brk

theorem kept_noted {brk : List Word} {log : List Seen} {d : Did κ} (hlog : Kept log)
    (hd : ∀ pc, d.pc? = some pc → Clear brk log pc) : Kept (noted brk log d) := by
  rw [noted]
  split
  · rename_i pc hpc
    exact ⟨hd pc hpc, hlog⟩
  · exact hlog

theorem kept_logged {brk : List Word} {log : List Seen} {tr : List (Did κ)} (hlog : Kept log) (htr : Misses brk tr) :
    Kept (logged brk log tr) := by
  induction tr generalizing log with
  | nil => exact hlog
  | cons d tr ih =>
    obtain ⟨hd, htr⟩ := List.forall_mem_cons.mp htr
    exact ih (kept_noted hlog fun pc hpc => .of_not_mem (hd pc hpc)) htr

theorem misses_nil (tr : List (Did κ)) : Misses [] tr :=
  fun _ _ _ _ => List.not_mem_nil

/-! ## Where the guest is watched -/

variable (G : Guest σ κ) (F : Frontend κ)

/-- An interrupt, an exception return or a fault that the frontend's interpreter does not count: the same step goes on
where it leads. -/
def Uncounted (s s' : σ) : Prop :=
  F.irqRetires = false ∧ G.irq s = some s' ∨
    F.trapRetires = false ∧ (∃ pc, (G.exec s).1 = .trapped pc) ∧ s' = (G.exec s).2

/-- Nothing that is entered uncounted is near a breakpoint, and no block reaches a breakpoint past the end of the address
space. -/
structure Watchable (brk : List Word) : Prop where
  entries : ∀ s s', Uncounted G F s s' → breakNear brk (G.pc s') = false
  ahead : ∀ s, ∀ a ∈ brk, InBlock (G.pc s) a → G.pc s ≤ a

/-- What may happen to a stub. -/
def Meets (x : Session σ) : Event σ → Prop
  | .insert a => a = G.pc x.guest → x.stub.halted = true ∨ a ∈ x.stub.brk
  | .outside t _ => G.pc t ∈ x.stub.brk → x.stub.halted = true ∨ G.pc t = G.pc x.guest
  | .slice _ =>
    if x.stub.attached then Watchable G F x.stub.brk else x.stub.brk = [] ∧ x.stub.unchained = false
  | .attach | .detach | .interrupt | .remove _ | .resume _ _ => True

variable {G F}

theorem breakNear_of_mem {brk : List Word} {a pc : Word} (ha : a ∈ brk) (hle : pc ≤ a)
    (hlt : (a - pc).toNat < breakWindow) : breakNear brk pc = true := by
  rw [breakNear, List.any_eq_true]
  refine ⟨a, ha, ?_⟩
  rw [Bool.and_eq_true, decide_eq_true_iff, decide_eq_true_iff]
  exact ⟨hle, hlt⟩

theorem not_mem_of_far {brk : List Word} {pc : Word} (h : breakNear brk pc = false) : pc ∉ brk := by
  intro hmem
  have hself : (pc - pc).toNat < breakWindow := by
    rw [BitVec.sub_self]
    decide
  rw [breakNear_of_mem hmem (BitVec.le_refl pc) hself] at h
  cases h

/-- A block that starts where no breakpoint is near reaches none. -/
theorem Watchable.block_far {brk : List Word} (hw : Watchable G F brk) {s : σ}
    (hfar : breakNear brk (G.pc s) = false) {a : Word} (ha : InBlock (G.pc s) a) : a ∉ brk := by
  intro hmem
  have hlt : (a - G.pc s).toNat < breakWindow := Nat.lt_trans ha (by decide)
  rw [breakNear_of_mem hmem (hw.ahead s a hmem ha) hlt] at hfar
  cases hfar

/-! ## Steps and blocks -/

section
variable {s t : σ} {tr : List (Did κ)} {brk : List Word} {log : List Seen}

/-- A step of the interpreter executes the instruction at the pc, and goes on only where that was not counted. -/
theorem kept_step {left n : Nat} {why : Why} (hw : Watchable G F brk) (h : InterpRun G F left s tr n why t)
    (hleft : left ≤ 1) (hlog : Kept log) (hpc : Clear brk log (G.pc s)) : Kept (logged brk log tr) := by
  induction h generalizing log with
  | spent => exact hlog
  | stopped => exact hlog
  | @yielded left s _ _ _ _ =>
    apply kept_noted hlog
    intro pc heq
    rw [G.exec_pc] at heq
    cases heq
    exact hpc
  | @did left n s t tr why hpos _ _ hrest ih =>
    have hone : left = 1 := Nat.le_antisymm hleft hpos
    subst hone
    have hclear : ∀ pc, (G.next s).1.pc? = some pc → Clear brk log pc := by
      intro pc heq
      rw [Guest.next] at heq
      split at heq
      · cases heq
      · rw [G.exec_pc] at heq
        cases heq
        exact hpc
    have hnoted : Kept (noted brk log (G.next s).1) := kept_noted hlog hclear
    -- either the budget is spent, or an entry was free
    have hnext : F.cost (G.next s).1 = 1 ∨ Uncounted G F s (G.next s).2 := by
      rw [Guest.next, Uncounted]
      split
      · rename_i s' hirq
        cases hret : F.irqRetires with
        | true => exact .inl (congrArg Bool.toNat hret)
        | false => exact .inr (.inl ⟨rfl, hirq⟩)
      · cases hd : (G.exec s).1 with
        | retired => exact .inl rfl
        | aside => exact .inl rfl
        | counter => exact .inl rfl
        | irq =>
          have hpc := G.exec_pc s
          rw [hd] at hpc
          cases hpc
        | trapped pc =>
          cases hret : F.trapRetires with
          | true => exact .inl (congrArg Bool.toNat hret)
          | false => exact .inr (.inr ⟨rfl, ⟨pc, rfl⟩, rfl⟩)
    obtain hcost | hentry := hnext
    · rw [hcost] at hrest
      rw [hrest.spent_nil]
      exact hnoted
    · exact ih (Nat.le_trans (Nat.sub_le ..) hleft) hnoted (.of_not_mem (not_mem_of_far (hw.entries s _ hentry)))

/-- A single block, run where no breakpoint is near, misses the breakpoints. -/
theorem Watchable.misses_block (hw : Watchable G F brk) (hfar : breakNear brk (G.pc s) = false)
    (h : ChainRun G ∅ s tr t) : Misses brk tr := by
  intro d hd pc hpc
  exact hw.block_far hfar (h.alone.inBlock d hd pc hpc)

/-- With the links undone, `emu_jit_run` with a budget of one runs a single block, a single instruction or a handler's
first block, and links nothing. -/
theorem kept_one {done : Nat} {ps : List (Pass κ)} {why : Why} {L L' : LinkSet} {prev : Option Word}
    (hw : Watchable G F brk) (h : JitRun G F 1 done prev s L ps why t L') (hprev : prev = none) (hL : L = ∅)
    (hfar : done = 0 → breakNear brk (G.pc s) = false) (hlog : Kept log) :
    Kept (logged brk log (traceOf ps)) ∧ L' = ∅ := by
  induction h generalizing log with
  | spent => exact ⟨hlog, hL⟩
  | stopped => exact ⟨hlog, hL⟩
  | @irq done prev s s' t L L' ps why hlt _ hirq _ ih =>
    have hdone : done = 0 := Nat.lt_one_iff.mp hlt
    apply ih hprev hL ?_ hlog
    intro hzero
    have hret : F.irqRetires = false := by
      cases hret : F.irqRetires with
      | false => rfl
      | true =>
        rw [hdone, Frontend.charge, hret] at hzero
        cases hzero
    exact hw.entries s s' (.inl ⟨hret, hirq⟩)
  | interpStops hlt _ _ _ hwant hrun _ hdrop =>
    subst hL
    have hmiss := not_mem_of_far (hfar (Nat.lt_one_iff.mp hlt))
    have hkept := kept_step hw hrun (Nat.le_trans hwant (Nat.sub_le ..)) hlog (.of_not_mem hmiss)
    rw [traceOf, List.flatMap_singleton]
    exact ⟨hkept, Set.subset_empty_iff.mp hdrop⟩
  | @interp done want n prev s t u L L₁ L' tr ps r why hlt _ _ hpos hwant hrun hr hdrop hrest =>
    have hmiss := not_mem_of_far (hfar (Nat.lt_one_iff.mp hlt))
    have hkept := kept_step hw hrun (Nat.le_trans hwant (Nat.sub_le ..)) hlog (.of_not_mem hmiss)
    have hspent : 1 ≤ done + F.charge (.interp tr) :=
      Nat.le_trans (hrun.spends hpos hr) (Nat.le_add_left ..)
    obtain ⟨rfl, rfl⟩ := hrest.spent_nil hspent
    rw [traceOf, List.flatMap_singleton]
    exact ⟨hkept, Set.subset_empty_iff.mp (hL ▸ hdrop)⟩
  | @block done prev s t u L L₁ L' tr ps why hlt _ _ hlinks hchain hrest =>
    have hnone : L₁ = ∅ := by
      apply Set.eq_empty_of_forall_notMem
      intro l hl
      obtain hl | ⟨hsome, -⟩ := hlinks l hl
      · exact absurd (hL ▸ hl) (Set.notMem_empty _)
      · cases hprev.symm.trans hsome
    subst hnone
    have hmiss := hw.misses_block (hfar (Nat.lt_one_iff.mp hlt)) hchain
    have hspent : 1 ≤ done + F.charge (.block tr) := Nat.le_trans (F.charge_block_pos tr) (Nat.le_add_left ..)
    obtain ⟨rfl, rfl⟩ := hrest.spent_nil hspent
    rw [traceOf, List.flatMap_singleton]
    exact ⟨kept_logged hlog hmiss, rfl⟩

end

/-! ## Slices -/

/-- The links are undone, or will be before the guest runs. -/
def Unlinked (c : Cache) : Prop := c.unchain = true ∨ c.links = ∅

/-- What the stub keeps. When it takes the links to be undone they are; and a guest that runs is at a breakpoint only if
it has just been resumed from there. -/
structure Inv (G : Guest σ κ) (x : Session σ) : Prop where
  links : x.stub.unchained = true → Unlinked x.cache
  clear : x.stub.halted = false → Clear x.stub.brk x.log (G.pc x.guest)
  kept : Kept x.log

section
variable {x y : Session σ}

theorem Inv.stops (hlinks : x.stub.unchained = true → Unlinked x.cache) (hkept : Kept x.log) :
    Inv G (x.stops G) where
  links := hlinks
  clear := nofun
  kept := hkept

theorem Unlinked.drop {c : Cache} {links : LinkSet} (h : Unlinked c) (hdrop : links ⊆ c.links) :
    Unlinked { c with links := links } := by
  obtain hun | hnone := h
  · exact .inl hun
  · rw [hnone] at hdrop
    exact .inr (Set.subset_empty_iff.mp hdrop)

theorem Inv.unchain (h : Inv G x) : Inv G x.unchain ∧ Unlinked x.unchain.cache := by
  rw [Session.unchain]
  split
  · rename_i hun
    exact ⟨h, h.links hun⟩
  · exact ⟨⟨fun _ => .inl rfl, h.clear, h.kept⟩, .inl rfl⟩

theorem unchain_brk (x : Session σ) : x.unchain.stub.brk = x.stub.brk := by
  rw [Session.unchain]
  split <;> rfl

theorem unchain_halted (x : Session σ) : x.unchain.stub.halted = x.stub.halted := by
  rw [Session.unchain]
  split <;> rfl

/-- A pass of the loop keeps the breakpoints, and the links undone. -/
theorem Advance.keeps {n : Nat} {why : Why} (hw : Watchable G F x.stub.brk) (h : Inv G x)
    (hrun : x.stub.halted = false) (hun : Unlinked x.cache) (ha : Advance G F x n why y) :
    Kept y.log ∧ Unlinked y.cache ∧ y.stub = x.stub := by
  cases ha with
  | step _ hstep hdrop =>
    obtain ⟨n, hstep⟩ := hstep
    exact ⟨kept_step hw hstep le_rfl h.kept (h.clear hrun), hun.drop hdrop, rfl⟩
  | run hfar hcall =>
    obtain ⟨L, hrun, rfl⟩ := hcall
    have hnone : (if x.cache.unchain then ∅ else x.cache.links) = ∅ := by
      split
      · rfl
      · rename_i hkeep
        exact hun.resolve_left hkeep
    obtain ⟨hkept, hlinks⟩ := kept_one hw hrun rfl hnone (fun _ => hfar) h.kept
    exact ⟨hkept, .inr hlinks, rfl⟩

theorem BreakLoop.inv {budget retired : Nat} (hw : Watchable G F x.stub.brk) (h : Inv G x)
    (hrun : x.stub.halted = false) (hloop : BreakLoop G F budget retired x y) : Inv G y := by
  -- what a pass leaves, from any point of the loop
  have hpass : ∀ {x y : Session σ} {n : Nat} {why : Why}, Watchable G F x.stub.brk → Inv G x → x.stub.halted = false →
      Advance G F x.unchain n why y → Kept y.log ∧ Unlinked y.cache ∧ y.stub.brk = x.stub.brk ∧
        y.stub.halted = false := by
    intro x y n why hw h hrun ha
    obtain ⟨hinv, hun⟩ := h.unchain
    rw [← unchain_brk] at hw
    obtain ⟨hkept, hlinks, hstub⟩ := ha.keeps hw hinv ((unchain_halted x).trans hrun) hun
    rw [hstub]
    exact ⟨hkept, hlinks, unchain_brk x, (unchain_halted x).trans hrun⟩
  induction hloop with
  | spent => exact h
  | stopped _ ha _ =>
    obtain ⟨hkept, hlinks, -, -⟩ := hpass hw h hrun ha
    exact .stops (fun _ => hlinks) hkept
  | hit _ ha _ =>
    obtain ⟨hkept, hlinks, -, -⟩ := hpass hw h hrun ha
    exact .stops (fun _ => hlinks) hkept
  | stuck _ ha hpc =>
    obtain ⟨hkept, hlinks, -, -⟩ := hpass hw h hrun ha
    exact ⟨fun _ => hlinks, fun _ => .of_not_mem hpc, hkept⟩
  | again _ ha hpc _ _ ih =>
    obtain ⟨hkept, hlinks, hbrk, hhalted⟩ := hpass hw h hrun ha
    exact ih (hbrk ▸ hw) ⟨fun _ => hlinks, fun _ => .of_not_mem hpc, hkept⟩ hhalted

/-- Without breakpoints there is nothing to keep. -/
theorem Inv.ran_free (h : Inv G x) (hbrk : x.stub.brk = []) (hun : x.stub.unchained = false) (t : σ) (c : Cache)
    (tr : List (Did κ)) : Inv G (x.ran t c tr) where
  links := by
    intro hun'
    cases hun.symm.trans hun'
  clear := by
    intro _
    apply Clear.of_not_mem
    change G.pc t ∉ x.stub.brk
    rw [hbrk]
    exact List.not_mem_nil
  kept := by
    apply kept_logged h.kept
    rw [hbrk]
    exact misses_nil tr

theorem Inv.rechain (h : Inv G x) : Inv G x.rechain :=
  { h with links := nofun }

theorem GdbRun.inv {budget : Nat} (hw : Watchable G F x.stub.brk) (h : Inv G x) (hrun : GdbRun G F budget x y) :
    Inv G y := by
  cases hrun with
  | halted => exact h
  | step hrun _ hstep hdrop =>
    obtain ⟨n, hstep⟩ := hstep
    apply Inv.stops
    · exact fun hun => Unlinked.drop (h.links hun) hdrop
    · exact kept_step hw hstep le_rfl h.kept (h.clear hrun)
  | free _ _ hbrk _ => exact h.rechain.ran_free hbrk rfl ..
  | stopped _ _ hbrk _ _ =>
    have hran := h.rechain.ran_free (x := x.rechain) hbrk rfl
    exact .stops (hran ..).links (hran ..).kept
  | breaks hrun _ _ hloop => exact BreakLoop.inv hw h hrun hloop

theorem Step.inv {e : Event σ} (h : Inv G x) (hmeets : Meets G F x e) (hstep : Step G F x e y) : Inv G y := by
  cases hstep with
  | attach => exact ⟨h.links, nofun, h.kept⟩
  | detach => exact ⟨h.links, fun _ => .of_not_mem List.not_mem_nil, h.kept⟩
  | interrupt => exact .stops h.links h.kept
  | insert a =>
    refine ⟨h.links, ?_, h.kept⟩
    intro hrun hmem
    apply h.clear hrun
    change G.pc x.guest ∈ breakAdd x.stub.brk a at hmem
    rw [breakAdd] at hmem
    split_ifs at hmem
    · exact hmem
    · cases hmem with
      | tail _ hmem => exact hmem
      | head => exact (hmeets rfl).resolve_left (Bool.eq_false_iff.mp hrun)
  | remove a =>
    refine ⟨h.links, ?_, h.kept⟩
    intro hrun hmem
    exact h.clear hrun (List.mem_filter.mp hmem).1
  | resume step t => exact ⟨h.links, fun _ _ => rfl, h.kept⟩
  | outside t links hdrop =>
    refine ⟨fun hun => Unlinked.drop (h.links hun) hdrop, ?_, h.kept⟩
    intro hrun hmem
    have hpc : G.pc t = G.pc x.guest := (hmeets hmem).resolve_left (Bool.eq_false_iff.mp hrun)
    change x.log.head? = some (.resume (G.pc t))
    rw [hpc]
    exact h.clear hrun (hpc ▸ hmem)
  | debugged hatt hrun =>
    rw [Meets, if_pos hatt] at hmeets
    exact hrun.inv hmeets h
  | free hatt _ =>
    rw [Meets, if_neg (Bool.eq_false_iff.mp hatt)] at hmeets
    exact h.ran_free hmeets.1 hmeets.2 ..

theorem Run.inv (h : Inv G x) (hrun : Run G F (Meets G F) x y) : Inv G y := by
  induction hrun with
  | refl => exact h
  | step _ hmeets hstep ih => exact hstep.inv ih hmeets

theorem start_inv (s : σ) (c : Cache) : Inv G (Session.start s c) where
  links := nofun
  clear _ := .of_not_mem List.not_mem_nil
  kept := trivial

end

/-! ## A chain that a session does not undo -/

/-- Two instructions that jump to each other. -/
def pingPong : Guest Bool Zicntr where
  pc s := if s then 0x2000 else 0x1000
  status _ := .running
  irq _ := none
  exec s := (.retired (if s then 0x2000 else 0x1000), !s)
  yields _ := false
  exec_pc _ := rfl
  yields_retires := nofun

/-- Each is a block. -/
theorem pingPong_block (s : Bool) : BlockRun pingPong (pingPong.pc s) s [.retired (pingPong.pc s)] (!s) := by
  apply BlockRun.last
  · cases s <;> decide
  · nofun

/-- A single block, with the links undone. -/
theorem pingPong_one (s : Bool) (c : Cache) (h : Unlinked c) :
    JitCall pingPong rvFrontend 1 s c [.block [.retired (pingPong.pc s)]] .budget (!s) ⟨∅, false⟩ := by
  refine ⟨∅, ?_, rfl⟩
  have hnone : (if c.unchain then ∅ else c.links) = ∅ := by
    split
    · rfl
    · rename_i hkeep
      exact h.resolve_left hkeep
  rw [hnone]
  exact .block (by decide) rfl rfl (fun _ hl => .inl hl) (.block (pingPong_block s)) (.spent le_rfl)

/-- Both exits linked. -/
def bothWays : LinkSet := {(0x1000, 0x2000), (0x2000, 0x1000)}

/-- Three blocks in a row, from the lower one, link both exits. -/
theorem pingPong_links :
    JitCall pingPong rvFrontend 3 false ⟨∅, false⟩
      [.block [.retired 0x1000], .block [.retired 0x2000], .block [.retired 0x1000]] .budget true ⟨bothWays, false⟩ := by
  have hthird : ∀ l ∈ bothWays, l ∈ ({(0x1000, 0x2000)} : LinkSet) ∨ some (0x2000 : Word) = some l.1 ∧ l.2 = 0x1000 := by
    intro l hl
    obtain rfl | rfl := hl
    · exact .inl rfl
    · exact .inr ⟨rfl, rfl⟩
  have hsecond : ∀ l ∈ ({(0x1000, 0x2000)} : LinkSet), l ∈ (∅ : LinkSet) ∨ some (0x1000 : Word) = some l.1 ∧ l.2 = 0x2000 := by
    intro l hl
    cases hl
    exact .inr ⟨rfl, rfl⟩
  refine ⟨bothWays, ?_, rfl⟩
  apply JitRun.block (by decide) rfl rfl (fun _ hl => .inl hl) (.block (pingPong_block false))
  apply JitRun.block (by decide) rfl rfl hsecond (.block (pingPong_block true))
  exact JitRun.block (by decide) rfl rfl hthird (.block (pingPong_block false)) (.spent (by decide))

/-- Then a budget of one runs both. -/
theorem pingPong_chain :
    JitCall pingPong rvFrontend 1 true ⟨bothWays, false⟩ [.block [.retired 0x2000, .retired 0x1000]] .budget true
      ⟨bothWays, false⟩ := by
  refine ⟨bothWays, ?_, rfl⟩
  have hchain : ChainRun pingPong bothWays true ([.retired 0x2000] ++ [.retired 0x1000]) true :=
    .chain (pingPong_block true) (by simp [Did.isRetired]) (.inr rfl) (.block (pingPong_block false))
  exact .block (by decide) rfl rfl (fun _ hl => .inl hl) hchain (.spent (by decide))

/-- A slice of one pass that hits nothing. -/
theorem Step.passes {x y : Session σ} {G : Guest σ κ} {F : Frontend κ} {n : Nat} (hatt : x.stub.attached = true)
    (hrun : x.stub.halted = false ∧ x.stub.stepping = false) (hbrk : x.stub.brk ≠ [])
    (ha : Advance G F x.unchain n .budget y) (hpc : G.pc y.guest ∉ y.stub.brk) (hn : 0 < n) :
    Step G F x (.slice 1) y := by
  apply Step.debugged hatt
  apply GdbRun.breaks hrun.1 hrun.2 hbrk
  apply BreakLoop.again Nat.one_pos ha hpc (Nat.ne_of_gt hn)
  rw [Nat.zero_add]
  exact .spent hn

/-- Resumed at the upper instruction, with a breakpoint set and exits that may be linked. -/
def resumedWith (a : Word) : Session Bool where
  guest := true
  cache := ⟨∅, false⟩
  stub := ⟨true, false, false, false, [a]⟩
  log := [.resume 0x2000]

/-- After a first session, whose breakpoint is far away: the stub has undone the links, and its client has left. -/
def afterFirst : Session Bool where
  guest := false
  cache := ⟨∅, false⟩
  stub := ⟨false, false, false, true, []⟩
  log := [.exec 0x2000 [0x8000], .resume 0x2000]

/-- A second session, after the guest has run freely, with a breakpoint on the lower instruction. -/
def inSecond : Session Bool where
  guest := true
  cache := ⟨bothWays, false⟩
  stub := ⟨true, false, false, true, [0x1000]⟩
  log := .resume 0x2000 :: .exec 0x1000 [] :: .exec 0x2000 [] :: .exec 0x1000 [] :: afterFirst.log

theorem afterFirst_reached : Run pingPong rvFrontend (fun _ _ => True) (.start true ⟨∅, false⟩) afterFirst := by
  have hresumed : Run pingPong rvFrontend (fun _ _ => True) (.start true ⟨∅, false⟩) (resumedWith 0x8000) :=
    .step (.step (.step .refl trivial .attach) trivial (.insert 0x8000)) trivial (.resume false true)
  have hpass := Advance.run (x := (resumedWith 0x8000).unchain) rfl (pingPong_one true _ (.inl rfl))
  exact .step (.step hresumed trivial (.passes rfl ⟨rfl, rfl⟩ (by decide) hpass (by decide) (by decide))) trivial .detach

theorem inSecond_reached : Run pingPong rvFrontend (fun _ _ => True) (.start true ⟨∅, false⟩) inSecond :=
  .step (.step (.step (.step afterFirst_reached trivial (.free rfl pingPong_links)) trivial .attach) trivial
    (.insert 0x1000)) trivial (.resume false true)

theorem pingPong_watchable : Watchable pingPong rvFrontend [0x1000] where
  entries s s' h := by
    obtain ⟨hret, -⟩ | ⟨hret, -⟩ := h
    · cases hret
    · cases hret
  ahead s a ha := by
    cases List.mem_singleton.mp ha
    cases s <;> decide

/-- At the breakpoint, after its stop reply. -/
def atBreak : Session Bool where
  guest := false
  cache := ⟨∅, false⟩
  stub := ⟨true, true, false, true, [0x1000]⟩
  log := [.stop 0x1000, .exec 0x2000 [0x1000], .resume 0x2000]

theorem atBreak_reached : Run pingPong rvFrontend (Meets pingPong rvFrontend) (.start true ⟨∅, false⟩) atBreak := by
  have hresumed : Run pingPong rvFrontend (Meets pingPong rvFrontend) (.start true ⟨∅, false⟩) (resumedWith 0x1000) :=
    .step (e := .resume false true)
      (.step (e := .insert 0x1000) (.step (e := .attach) .refl trivial .attach) (fun _ => .inl rfl) (.insert 0x1000))
      trivial (.resume false true)
  have hpass := Advance.run (x := (resumedWith 0x1000).unchain) rfl (pingPong_one true _ (.inl rfl))
  have hhit : GdbRun pingPong rvFrontend 1 _ atBreak :=
    .breaks rfl rfl (by decide) (.hit Nat.one_pos hpass (List.mem_singleton_self _))
  exact .step (e := .slice 1) hresumed pingPong_watchable (.debugged rfl hhit)

theorem pingPong_step : JitStep pingPong rvFrontend false [.retired 0x1000] .budget true :=
  ⟨1, InterpRun.did (G := pingPong) (F := rvFrontend) (s := false) Nat.one_pos rfl (fun _ => rfl) (.spent _)⟩

end Emu.Gdb.Control
