-- SUMMARY: `emu_ir_regalloc`: host registers for the temps of an optimised block, and that they can stand for the temps.
import Emu.Ir.Optimise
import Emu.Lib.LinearScan

/-!
# Register allocation

The allocator gives some temps a host register for their whole life and leaves the others in their
frame slots. It is a linear scan: temps are numbered as they are emitted and no pass moves an
instruction or gives it another temp, so walking them in order is walking their intervals by start.

A block placed by it is the block with every temp replaced by its register or its slot. The
interpreter finds the same operands in both at every instruction.
-/

namespace Emu.Ir

open StraightLine

variable {σ F : Type}

/-! ## The allocator -/

/-- `EMU_IR_MAX_HOST_REGS`. -/
def maxHostRegs : Nat := 8

/-- The loop that fills `g_last`, from index `k` on. -/
def lastReadsFrom (k : Nat) (last : Nat → Nat) : List (Insn Nat) → Nat → Nat
  | [] => last
  | i :: is =>
    lastReadsFrom (k + 1) (if i.dead then last else i.operands.foldl (fun l x => Function.update l x k) last) is

/-- `g_def` and `g_last`. Both limits on instructions are below `IR_NO_POS`, so no position is cut. -/
def intervals (is : List (Insn Nat)) : LinearScan.Intervals where
  start := defSites is
  stop := lastReadsFrom 0 (fun _ => 0) is

/-- The first live instruction behind `d`. -/
def nextLive (is : List (Insn Nat)) (d : Nat) : Nat := d + 1 + ((is.drop (d + 1)).takeWhile (·.dead)).length

/-- A temp read once, by the next live instruction, is left to the reload elision. -/
def elided (is : List (Insn Nat)) (x : Nat) : Bool :=
  match defSites is x with
  | none => false
  | some d => is[d]?.any (·.uses = 1) && nextLive is d = (intervals is).stop x

/-- The state of `emu_ir_regalloc` after `n` turns of its last loop. -/
def regallocTurns (b : Block Nat) (nregs n : Nat) : LinearScan.State :=
  LinearScan.scan (intervals b.insns) nregs (elided b.insns) n

/-- `emu_ir_regalloc`: the number of registers used, and the register of each temp. -/
def regalloc (lim : Limits) (b : Block Nat) (nregs : Nat) : Nat × (Nat → Option Nat) :=
  if nregs = 0 ∨ nregs > maxHostRegs ∨ b.overflow then (0, fun _ => none)
  else
    let s := regallocTurns b nregs (min b.nextTemp lim.maxTemps)
    (s.used, s.assign)

/-! ## Placing a block -/

/-- Where a temp is kept: in a host register, or in its slot of the frame. -/
inductive Loc where
  | reg (r : Nat)
  | slot (x : Nat)
  deriving DecidableEq

/-- The place `assign` gives a temp. -/
def locOf (assign : Nat → Option Nat) (x : Nat) : Loc := (assign x).elim (.slot x) .reg

/-- The instruction with its temps replaced. -/
def Insn.mapTemps {τ υ : Type} (f : τ → υ) (i : Insn τ) : Insn υ where
  op := i.op
  aux := i.aux
  dst := i.dst.map f
  a := i.a.map f
  b := i.b.map f
  c := i.c.map f
  imm := i.imm
  defs := i.defs
  live := i.live
  uses := i.uses
  dead := i.dead

/-- The block with every temp replaced by its place. -/
def Block.place (b : Block Nat) (assign : Nat → Option Nat) : Block Loc where
  insns := b.insns.map (Insn.mapTemps (locOf assign))
  nextTemp := b.nextTemp
  startPc := b.startPc
  overflow := b.overflow

/-! ## What the interpreter reads -/

section

variable {τ : Type}

/-- The operand values an instruction reads, if it is live. -/
def Insn.sees (i : Insn τ) (s : State τ σ) : Option Operands := if i.dead then none else some (i.read s.tmp)

/-- What `emu_ir_interp` reads, instruction after instruction, in at most `fuel` passes over the block. -/
def readsLoop [DecidableEq τ] (fp : FloatOps F) (t : Target σ) (b : Block τ) :
    Nat → State τ σ → List (Option Operands)
  | 0, _ => []
  | fuel + 1, s =>
    (if interpModels t b.insns then trace (exec fp t b.startPc) Insn.sees b.insns s else []) ++
      match interpOnce fp t b s with
      | .loop s' => if s'.guest.retired < jitLoopCap then readsLoop fp t b fuel s' else []
      | _ => []

/-- What `emu_ir_interp` reads when it is entered on a guest `cpu`. -/
def interpReads [DecidableEq τ] (fp : FloatOps F) (t : Target σ) (b : Block τ) (fuel : Nat) (cpu : Cpu σ)
    (tmp : τ → Word) : List (Option Operands) :=
  if b.overflow then [] else readsLoop fp t b fuel ⟨⟨cpu, 0, []⟩, tmp⟩

end

/-! ## Intervals -/

section Intervals

variable {is : List (Insn Nat)} {i j : Insn Nat} {x y k m d e : Nat} {last : Nat → Nat}

theorem foldl_update_apply {xs : List Nat} :
    (xs.foldl (fun l x => Function.update l x k) last) x = if x ∈ xs then k else last x := by
  induction xs generalizing last with
  | nil => rfl
  | cons y xs ih =>
    rw [List.foldl_cons, ih]
    by_cases hx : x ∈ xs
    · simp [hx]
    · simp [hx, Function.update_apply]

theorem le_lastReadsFrom (h : last x ≤ k) : last x ≤ lastReadsFrom k last is x := by
  induction is generalizing k last with
  | nil => exact Nat.le_refl _
  | cons i is ih =>
    rw [lastReadsFrom]
    split
    · exact ih (Nat.le_succ_of_le h)
    · refine Nat.le_trans ?_ (ih ?_) <;> rw [foldl_update_apply] <;> split <;> omega

/-- No read stands behind the last one. -/
theorem reads_le_lastReadsFrom (hm : is[m]? = some i) (hx : i.Reads x) (h : last x ≤ k) :
    k + m ≤ lastReadsFrom k last is x := by
  induction is generalizing k m last with
  | nil => simp at hm
  | cons i' is ih =>
    rw [lastReadsFrom]
    cases m with
    | zero =>
      obtain rfl : i' = i := by simpa using hm
      have hlast : (i'.operands.foldl (fun l y => Function.update l y k) last) x = k := by
        rw [foldl_update_apply, if_pos hx.2]
      rw [hx.1, if_neg Bool.false_ne_true, Nat.add_zero]
      exact hlast.ge.trans (le_lastReadsFrom (hlast.le.trans (Nat.le_succ k)))
    | succ m =>
      rw [← Nat.succ_add_eq_add_succ]
      refine ih (by simpa using hm) ?_
      split
      · exact Nat.le_succ_of_le h
      · rw [foldl_update_apply]
        split <;> omega

theorem reads_le_stop (hm : is[m]? = some i) (hx : i.Reads x) : m ≤ (intervals is).stop x := by
  have hle : 0 + m ≤ lastReadsFrom 0 (fun _ => 0) is x := reads_le_lastReadsFrom hm hx (Nat.le_refl 0)
  rwa [Nat.zero_add] at hle

theorem start_of_defines (hsc : Scoped (fun _ => False) is) (hok : DstOk is) (hm : is[m]? = some i)
    (hx : i.Defines x) : (intervals is).start x = some m := by
  have hsite : defSites is x = some (0 + m) := defSitesFrom_of_defines hsc hok hm hx
  rwa [Nat.zero_add] at hsite

/-- What the array says of a definition is so. -/
theorem defines_of_start (hsc : Scoped (fun _ => False) is) (hok : DstOk is) (h : (intervals is).start x = some d) :
    ∃ i, is[d]? = some i ∧ i.Defines x := by
  by_cases hdef : ∃ i ∈ is, i.Defines x
  · obtain ⟨i, hi, hx⟩ := hdef
    obtain ⟨m, hm⟩ := List.getElem?_of_mem hi
    obtain rfl : m = d := Option.some.inj ((start_of_defines hsc hok hm hx).symm.trans h)
    exact ⟨i, hm, hx⟩
  · have hnone : defSites is x = none := defSitesFrom_of_not_defines hok fun i hi hx => hdef ⟨i, hi, hx⟩
    cases hnone.symm.trans h

theorem Numbered.lt (h : Numbered is) (hm : is[m]? = some i) (hk : is[k]? = some j) (hx : i.dst = some x)
    (hy : j.dst = some y) (hlt : m < k) : x < y := by
  obtain ⟨hm', rfl⟩ := List.getElem?_eq_some_iff.mp hm
  obtain ⟨hk', rfl⟩ := List.getElem?_eq_some_iff.mp hk
  have hpair := List.pairwise_iff_getElem.mp h m k (by simpa using hm') (by simpa using hk') hlt
  rw [List.getElem_map, List.getElem_map] at hpair
  exact hpair x hx y hy

/-- Temps numbered in the order they are written have their intervals in that order. -/
theorem intervals_ordered (hsc : Scoped (fun _ => False) is) (hok : DstOk is) (hnum : Numbered is) :
    (intervals is).Ordered := by
  intro x y d e hxy hd he
  obtain ⟨i, hi, hdx⟩ := defines_of_start hsc hok hd
  obtain ⟨j, hj, hdy⟩ := defines_of_start hsc hok he
  rcases Nat.lt_trichotomy d e with hlt | rfl | hgt
  · exact hlt
  · obtain rfl : i = j := Option.some.inj (hi.symm.trans hj)
    exact absurd (Option.some.inj (hdx.2.2.symm.trans hdy.2.2)) (Nat.ne_of_lt hxy)
  · exact absurd (hnum.lt hj hi hdy.2.2 hdx.2.2 hgt) (Nat.lt_asymm hxy)

end Intervals

/-! ## What the passes leave for the allocator -/

/-- A block the allocator can work on. -/
structure Allocatable (is : List (Insn Nat)) : Prop where
  inScope : Scoped (fun _ => False) is
  dstOk : DstOk is
  numbered : Numbered is

theorem Numbered.of_results {is is' : List (Insn Nat)} (h : Numbered is)
    (heq : is'.map Insn.result = is.map Insn.result) : Numbered is' := by
  have hdst : is'.map Insn.dst = is.map Insn.dst := by
    have hfst := congrArg (List.map Prod.fst) heq
    rw [List.map_map, List.map_map] at hfst
    exact hfst
  rw [Numbered, hdst]
  exact h

theorem Allocatable.next {is is' : List (Insn Nat)} (h : Allocatable is) (hsc : Scoped (fun _ => False) is')
    (heq : is'.map Insn.result = is.map Insn.result) : Allocatable is' :=
  ⟨hsc, h.dstOk.of_results heq, h.numbered.of_results heq⟩

theorem Built.allocatable {lim : Limits} {b : Block Nat} (hb : Built lim b) (ho : b.overflow = false) :
    Allocatable b.insns :=
  ⟨(hb.wellBuilt ho).inScope, (hb.wellBuilt ho).dstOk, hb.numbered ho⟩

/-! Every pass leaves each instruction its temp, and reads what is written. -/

section

variable {canLower : Op → Byte → Bool} {t : Target σ} {is : List (Insn Nat)}

theorem Allocatable.passFuse (canLower : Op → Byte → Bool) (h : Allocatable is) : Allocatable (passFuse canLower is).insns := by
  have hrw : Rewritten plainFloat plainTarget 0 (Ir.passFuse canLower is).uses is (Ir.passFuse canLower is).insns :=
    passFuse_rewritten h.inScope h.dstOk
  exact h.next hrw.inScope hrw.results

theorem Allocatable.passDeadPuts (t : Target σ) (h : Allocatable is) : Allocatable (passDeadPuts t is).insns :=
  h.next (passDeadPuts_scoped h.inScope) passDeadPuts_results

theorem Allocatable.passDeadValues (h : Allocatable is) : Allocatable (passDeadValues is).insns :=
  h.next (passDeadValues_scoped h.inScope (fun _ => id) fun _ _ => id) passDeadValues_results

theorem Allocatable.passMac (canLower : Op → Byte → Bool) (h : Allocatable is) : Allocatable (passMac canLower is).insns := by
  have hrw : Rewritten plainFloat plainTarget 0 (useCounts is) is (Ir.passMac canLower is).insns :=
    passMac_rewritten h.inScope h.dstOk
  exact h.next hrw.inScope hrw.results

theorem Allocatable.passMergeRetire (h : Allocatable is) : Allocatable (passMergeRetire is).insns :=
  h.next (passMergeRetire_scoped h.inScope) passMergeRetire_results

theorem Allocatable.passCountUses (h : Allocatable is) : Allocatable (passCountUses is) :=
  h.next (passCountUses_scoped h.inScope) passCountUses_results

theorem optimise_allocatable {liveOut : Byte} {b : Block Nat}
    (ho : b.overflow = false) (h : Allocatable b.insns) : Allocatable (optimise canLower t liveOut b).1.insns := by
  have hflags : Allocatable (passDeadFlags liveOut b.insns).insns :=
    h.next (passDeadFlags_scoped h.inScope) passDeadFlags_results
  have htraffic : Allocatable (passRegTraffic t (passDeadFlags liveOut b.insns).insns) :=
    hflags.next (trafficLoop_scoped hflags.inScope .init) trafficLoop_results
  have hvalues := ((htraffic.passFuse canLower).passDeadPuts t).passDeadValues
  rw [optimise, if_neg (by simp [ho])]
  dsimp only
  exact (hvalues.passMac canLower).passMergeRetire.passCountUses

end

/-! ## What the allocator gives -/

/-- Every live read of `x` stands before the definition of `y`. -/
def DiesBefore (is : List (Insn Nat)) (x y : Nat) : Prop :=
  ∀ (k m : Nat) (i j : Insn Nat), is[k]? = some i → is[m]? = some j → i.Reads x → j.Defines y → k < m

/-- Two temps with the same register, in the order of their numbers, are one dead before the other. -/
def RegsApart (is : List (Insn Nat)) (assign : Nat → Option Nat) : Prop :=
  ∀ x y r, x < y → assign x = some r → assign y = some r → DiesBefore is x y

section Alloc

variable {lim : Limits} {b : Block Nat} {nregs : Nat} {x y r : Nat}

theorem regalloc_cases (lim : Limits) (b : Block Nat) (nregs : Nat) :
    regalloc lim b nregs = (0, fun _ => none) ∨
      0 < nregs ∧ b.overflow = false ∧ regalloc lim b nregs =
        ((regallocTurns b nregs (min b.nextTemp lim.maxTemps)).used,
          (regallocTurns b nregs (min b.nextTemp lim.maxTemps)).assign) := by
  unfold regalloc
  split
  · exact .inl rfl
  next hok =>
    simp only [not_or, Bool.not_eq_true] at hok
    exact .inr ⟨Nat.pos_of_ne_zero hok.1, hok.2.2, rfl⟩

theorem regalloc_apart (h : b.overflow = false → Allocatable b.insns) : RegsApart b.insns (regalloc lim b nregs).2 := by
  intro x y r hxy hx hy k m i j hk hm hread hdef
  obtain heq | ⟨hpos, ho, heq⟩ := regalloc_cases lim b nregs
  · rw [heq] at hx
    cases hx
  · rw [heq] at hx hy
    obtain ⟨hsc, hok, hnum⟩ := h ho
    have hinv : LinearScan.Inv (intervals b.insns) nregs _ (regallocTurns b nregs (min b.nextTemp lim.maxTemps)) :=
      LinearScan.scan_inv (intervals_ordered hsc hok hnum) hpos _
    exact (reads_le_stop hk hread).trans_lt (hinv.apart x y r hxy hx hy m (start_of_defines hsc hok hm hdef))

theorem regalloc_bound (h : b.overflow = false → Allocatable b.insns) :
    (∀ x r, (regalloc lim b nregs).2 x = some r → r < (regalloc lim b nregs).1) ∧ (regalloc lim b nregs).1 ≤ nregs := by
  obtain heq | ⟨hpos, ho, heq⟩ := regalloc_cases lim b nregs
  · rw [heq]
    exact ⟨fun x r hx => (Option.some_ne_none r hx.symm).elim, Nat.zero_le _⟩
  · rw [heq]
    obtain ⟨hsc, hok, hnum⟩ := h ho
    have hinv : LinearScan.Inv (intervals b.insns) nregs _ (regallocTurns b nregs (min b.nextTemp lim.maxTemps)) :=
      LinearScan.scan_inv (intervals_ordered hsc hok hnum) hpos _
    exact ⟨fun x r hx => (hinv.given x r hx).2.1, hinv.used_le⟩

/-- A temp without a register once its turn is over, be it refused or evicted later, ends without one. -/
theorem regalloc_evicted {n : Nat} (hx : x < n) (hn : n ≤ min b.nextTemp lim.maxTemps)
    (h : (regallocTurns b nregs n).assign x = none) : (regalloc lim b nregs).2 x = none := by
  obtain heq | ⟨-, -, heq⟩ := regalloc_cases lim b nregs
  · rw [heq]
  · rw [heq]
    exact LinearScan.scan_assign hx hn h

end Alloc

/-! ## A placed block reads what the block reads -/

section Place

variable {fp : FloatOps F} {t : Target σ} {pc : Word} {f : Nat → Loc} {D : Nat → Prop} {i : Insn Nat}
variable {is : List (Insn Nat)} {s : State Nat σ} {u : State Loc σ}

/-- With the temps of `D` written, no instruction writes where a temp is kept that is read later on. -/
def Respects (f : Nat → Loc) : (Nat → Prop) → List (Insn Nat) → Prop
  | _, [] => True
  | D, i :: is =>
    (∀ x y, D x → (∃ j ∈ is, j.Reads x) → i.Defines y → f x ≠ f y) ∧ Respects f (fun x => D x ∨ i.Defines x) is

/-- The same guest, and every written temp that is still read in its place. -/
def Kept (f : Nat → Loc) (D : Nat → Prop) (is : List (Insn Nat)) (s : State Nat σ) (u : State Loc σ) : Prop :=
  s.guest = u.guest ∧ ∀ x, D x → (∃ i ∈ is, i.Reads x) → u.tmp (f x) = s.tmp x

theorem read_mapTemps {tmp : Nat → Word} {loc : Loc → Word} (h : ∀ x ∈ i.operands, loc (f x) = tmp x) :
    (i.mapTemps f).read loc = i.read tmp := by
  have hmap : ∀ o : Option Nat, (∀ x ∈ o, x ∈ i.operands) → (o.map f).map loc = o.map tmp := by
    intro o ho
    cases o with
    | none => rfl
    | some x => simp [h x (ho x rfl)]
  simp only [Insn.read, Insn.mapTemps]
  congr 1 <;> exact hmap _ fun x hx => by simp_all [Insn.mem_operands]

theorem Kept.read (h : Kept f D (i :: is) s u) (hread : ∀ x, i.Reads x → D x) (hd : i.dead = false) :
    (i.mapTemps f).read u.tmp = i.read s.tmp :=
  read_mapTemps fun x hx => h.2 x (hread x ⟨hd, hx⟩) ⟨i, List.mem_cons_self, hd, hx⟩

theorem Kept.sees (h : Kept f D (i :: is) s u) (hread : ∀ x, i.Reads x → D x) :
    (i.mapTemps f).sees u = i.sees s := by
  cases hd : i.dead with
  | true => simp [Insn.sees, Insn.mapTemps, hd]
  | false =>
    have hd' : (i.mapTemps f).dead = false := hd
    simp only [Insn.sees, hd, hd', Bool.false_eq_true, if_false, h.read hread hd]

/-- One instruction: both sides do the same, and what is read behind it is in its place again. -/
theorem Kept.exec (h : Kept f D (i :: is) s u) (hread : ∀ x, i.Reads x → D x)
    (hresp : ∀ x y, D x → (∃ j ∈ is, j.Reads x) → i.Defines y → f x ≠ f y) :
    Step.Rel (Kept f (fun x => D x ∨ i.Defines x) is) (fun r r' => r.1 = r'.1 ∧ r.2.guest = r'.2.guest)
      (exec fp t pc i s) (exec fp t pc (i.mapTemps f) u) := by
  obtain ⟨hg, hkept⟩ := h
  have htail : ∀ x, (∃ j ∈ is, j.Reads x) → ∃ j ∈ i :: is, j.Reads x :=
    fun x ⟨j, hj, hx⟩ => ⟨j, List.mem_cons_of_mem _ hj, hx⟩
  cases hd : i.dead with
  | true =>
    have hd' : (i.mapTemps f).dead = true := hd
    have hno : ∀ x, ¬i.Defines x := fun x hx => by cases hd.symm.trans hx.1
    rw [exec_dead hd, exec_dead hd']
    exact ⟨hg, fun x hx hr => hkept x (hx.resolve_right (hno x)) (htail x hr)⟩
  | false =>
    have hd' : (i.mapTemps f).dead = false := hd
    have hvals : (i.mapTemps f).read u.tmp = i.read s.tmp := Kept.read ⟨hg, hkept⟩ hread hd
    rw [exec_live hd, exec_live hd', hvals, ← hg]
    show Step.Rel _ _ _ (finish u.tmp (i.dst.map f) (effect fp t pc i.op i.aux i.imm i.live (i.read s.tmp) s.guest))
    cases heff : effect fp t pc i.op i.aux i.imm i.live (i.read s.tmp) s.guest with
    | stop r => exact ⟨rfl, rfl⟩
    | next gr =>
      obtain ⟨g, res⟩ := gr
      have hwrites := effect_result heff
      refine ⟨rfl, fun x hx hr => ?_⟩
      show writeTmp u.tmp (i.dst.map f) res (f x) = writeTmp s.tmp i.dst res x
      rw [writeTmp_apply, writeTmp_apply]
      cases hdst : i.dst with
      | none =>
        have hno : ¬i.Defines x := fun hdx => by cases hdst.symm.trans hdx.2.2
        simpa using hkept x (hx.resolve_right hno) (htail x hr)
      | some y =>
        by_cases hxy : y = x
        · subst hxy
          cases hres : res with
          | some v => simp
          | none =>
            -- the operation wrote nothing, so it is one that does not write
            have hno : ¬i.Defines y := fun hdy => by simp [hres, hdy.2.1] at hwrites
            simpa using hkept y (hx.resolve_right hno) (htail y hr)
        · have hno : ¬i.Defines x := fun hdx => hxy (Option.some.inj (hdst.symm.trans hdx.2.2))
          have hDx := hx.resolve_right hno
          have hold := hkept x hDx (htail x hr)
          cases hres : res with
          | none => simpa [hxy] using hold
          | some v =>
            have hdef : i.Defines y := ⟨hd, by simpa [hres] using hwrites.symm, hdst⟩
            have hne : f y ≠ f x := Ne.symm (hresp x y hDx hr hdef)
            simpa [hne, hxy] using hold

/-- A walk of the block and of the placed block, from the same guest and any temps. -/
theorem run_placed (hsc : Scoped (fun _ => False) is) (hresp : Respects f (fun _ => False) is) (hg : s.guest = u.guest) :
    Step.Rel (fun s u => s.guest = u.guest) (fun r r' => r.1 = r'.1 ∧ r.2.guest = r'.2.guest)
        (run (exec fp t pc) is s) (run (exec fp t pc) (is.map (Insn.mapTemps f)) u) ∧
      trace (exec fp t pc) Insn.sees is s = trace (exec fp t pc) Insn.sees (is.map (Insn.mapTemps f)) u := by
  let P := fun (is : List (Insn Nat)) (is' : List (Insn Loc)) (s : State Nat σ) (u : State Loc σ) =>
    is' = is.map (Insn.mapTemps f) ∧ ∃ D, Scoped D is ∧ Respects f D is ∧ Kept f D is s u
  have hlen : ∀ is is' s u, P is is' s u → is.length = is'.length := by
    rintro is is' s u ⟨rfl, -⟩
    exact List.length_map _ |>.symm
  have hstep : ∀ i is i' is' s u, P (i :: is) (i' :: is') s u → i.sees s = i'.sees u ∧
      Step.Rel (P is is') (fun r r' => r.1 = r'.1 ∧ r.2.guest = r'.2.guest) (exec fp t pc i s) (exec fp t pc i' u) := by
    rintro i is i' is' s u ⟨heq, D, ⟨hread, -, hrest⟩, ⟨hnow, hlater⟩, hkept⟩
    obtain ⟨rfl, rfl⟩ := List.cons.inj heq
    refine ⟨(hkept.sees hread).symm, (hkept.exec hread hnow).mono (fun _ _ h => ?_) fun _ _ => id⟩
    exact ⟨rfl, _, hrest, hlater, h⟩
  have hstart : P is (is.map (Insn.mapTemps f)) s u := ⟨rfl, _, hsc, hresp, hg, fun _ hx => hx.elim⟩
  refine ⟨(run_sim hlen (fun i is i' is' s u h => (hstep i is i' is' s u h).2) hstart).mono ?_ fun _ _ => id,
    trace_sim hlen hstep hstart⟩
  rintro s u ⟨-, D, -, -, hg, -⟩
  exact hg

/-- A block whose registers are apart is placed with respect for what is still read. -/
theorem respects_of_apart {assign : Nat → Option Nat} (h : Allocatable is) (hapart : RegsApart is assign) :
    Respects (locOf assign) (fun _ => False) is := by
  -- over the rest of the block, with what stands before it at hand
  suffices key : ∀ post pre, is = pre ++ post → Respects (locOf assign) (DefinedBy (fun _ => False) pre) post by
    have hnil : DefinedBy (fun _ => False) ([] : List (Insn Nat)) = fun _ => False := by
      funext x
      simp [DefinedBy]
    exact hnil ▸ key is [] rfl
  intro post
  induction post with
  | nil => exact fun _ _ => trivial
  | cons i post ih =>
    intro pre heq
    have hcons : (fun x => DefinedBy (fun _ => False) pre x ∨ i.Defines x) = DefinedBy (fun _ => False) (pre ++ [i]) := by
      funext x
      simp [DefinedBy, or_and_right, exists_or]
    refine ⟨fun x y hx hr hy hloc => ?_, ?_⟩
    · obtain ⟨src, hsrc, hdx⟩ := hx.resolve_left id
      obtain ⟨j, hj, hread⟩ := hr
      obtain ⟨m, hm⟩ := List.getElem?_of_mem hsrc
      obtain ⟨k, hk⟩ := List.getElem?_of_mem hj
      have hmlt : m < pre.length := (List.getElem?_eq_some_iff.mp hm).1
      have hm' : is[m]? = some src := by rw [heq, List.getElem?_append_left hmlt, hm]
      have hi' : is[pre.length]? = some i := by simp [heq]
      have hk' : is[pre.length + (k + 1)]? = some j := by simp [heq, List.getElem?_append_right, hk]
      have hxy : x < y := h.numbered.lt hm' hi' hdx.2.2 hy.2.2 hmlt
      obtain ⟨r, hrx, hry⟩ : ∃ r, assign x = some r ∧ assign y = some r := by
        revert hloc
        simp only [locOf]
        cases hax : assign x with
        | none => cases hay : assign y <;> simp [Nat.ne_of_lt hxy]
        | some r =>
          cases hay : assign y with
          | none => simp
          | some q => exact fun hloc => ⟨r, rfl, congrArg some (Loc.reg.inj hloc).symm⟩
      have hlt := hapart x y r hxy hrx hry _ _ j i hk' hi' hread hy
      omega
    · rw [hcons]
      exact ih (pre ++ [i]) (by rw [heq, List.append_assoc, List.singleton_append])

end Place

/-! ## The allocator is right -/

section Main

variable {fp : FloatOps F} {t : Target σ} {b : Block Nat} {assign : Nat → Option Nat}

theorem modelled_mapTemps {f : Nat → Loc} {i : Insn Nat} : (i.mapTemps f).modelled t = i.modelled t := rfl

theorem interpModels_place : interpModels t (b.place assign).insns = interpModels t b.insns := by
  simp only [interpModels, Block.place, List.all_map, Function.comp_def, modelled_mapTemps]

variable (h : Allocatable b.insns) (hapart : RegsApart b.insns assign)

include h hapart

theorem interpOnce_place {s : State Nat σ} {u : State Loc σ} (hg : s.guest = u.guest) :
    (interpOnce fp t b s).Same (interpOnce fp t (b.place assign) u) := by
  refine interpOnce_of_runs interpModels_place.symm ?_
  exact (run_placed h.inScope (respects_of_apart h hapart) hg).1.mono (fun _ _ => id) fun _ _ h => ⟨h.1, fun _ => h.2⟩

theorem readsLoop_place (fuel : Nat) {s : State Nat σ} {u : State Loc σ} (hg : s.guest = u.guest) :
    readsLoop fp t (b.place assign) fuel u = readsLoop fp t b fuel s := by
  induction fuel generalizing s u with
  | zero => rfl
  | succ fuel ih =>
    have htrace : trace (exec fp t b.startPc) Insn.sees b.insns s = trace (exec fp t b.startPc) Insn.sees _ u :=
      (run_placed h.inScope (respects_of_apart h hapart) hg).2
    have hsame : (interpOnce fp t b s).Same (interpOnce fp t (b.place assign) u) := interpOnce_place h hapart hg
    rw [readsLoop, readsLoop, interpModels_place, htrace]
    congr 1
    revert hsame
    cases interpOnce fp t b s <;> cases interpOnce fp t (b.place assign) u <;> intro hsame
    case declined.declined => rfl
    case done.done => rfl
    case loop.loop s₁ u₁ =>
      have hg₁ : s₁.guest = u₁.guest := hsame
      simp only [hg₁, ih hg₁]
    all_goals exact hsame.elim

end Main

/-- Of every block the optimiser leaves, and for every number of registers: two temps with one register
are never live at once, every register is below the count, which is at most what was asked for, and a
temp that is out of its register stays out. The block with its temps replaced by their registers and
slots reads the same operands as the block, instruction after instruction, and comes to the same. -/
theorem regalloc_right {lim : Limits} {canLower : Op → Byte → Bool} {t : Target σ} {liveOut : Byte} {b : Block Nat}
    (hb : Built lim b) (nregs : Nat) :
    let o := (optimise canLower t liveOut b).1
    let used := (regalloc lim o nregs).1
    let assign := (regalloc lim o nregs).2
    (∀ x y r, x ≠ y → assign x = some r → assign y = some r →
        DiesBefore o.insns x y ∨ DiesBefore o.insns y x) ∧
      (∀ x r, assign x = some r → r < used) ∧ used ≤ nregs ∧
      (∀ x n, x < n → n ≤ min o.nextTemp lim.maxTemps → (regallocTurns o nregs n).assign x = none → assign x = none) ∧
      ∀ (fp : FloatOps F) (fuel : Nat) (cpu : Cpu σ) (tmp : Nat → Word) (loc : Loc → Word),
        interpReads fp t (o.place assign) fuel cpu loc = interpReads fp t o fuel cpu tmp ∧
          interp fp t (o.place assign) fuel cpu loc = interp fp t o fuel cpu tmp := by
  intro o used assign
  have hover : o.overflow = b.overflow := by
    simp only [o, optimise]
    split <;> rfl
  have halloc : o.overflow = false → Allocatable o.insns := fun ho =>
    optimise_allocatable (hover ▸ ho) (hb.allocatable (hover ▸ ho))
  have hapart : RegsApart o.insns assign := regalloc_apart halloc
  refine ⟨fun x y r hne hx hy => ?_, (regalloc_bound halloc).1, (regalloc_bound halloc).2,
    fun x n hx hn h => regalloc_evicted hx hn h, fun fp fuel cpu tmp loc => ?_⟩
  · rcases Nat.lt_or_gt_of_ne hne with hlt | hgt
    · exact .inl (hapart x y r hlt hx hy)
    · exact .inr (hapart y x r hgt hy hx)
  · have hplace : (o.place assign).overflow = o.overflow := rfl
    simp only [interpReads, interp, hplace]
    cases ho : o.overflow with
    | true => exact ⟨rfl, rfl⟩
    | false =>
      have honce : ∀ (s : State Nat σ) (u : State Loc σ), s.guest = u.guest →
          (interpOnce fp t o s).Same (interpOnce fp t (o.place assign) u) :=
        fun s u hg => interpOnce_place (halloc ho) hapart hg
      exact ⟨readsLoop_place (halloc ho) hapart fuel rfl, (interpLoop_of_once honce fuel rfl).symm⟩

/-- `r3 = (r1 + 2 * r2) ^ 2`: the first temp is read behind the second's last read. -/
def squareBlock : Block Nat :=
  let lim : Limits := ⟨2048, 1024⟩
  let b₁ := ((Block.reset 0).get lim 1).2
  let b₂ := (b₁.get lim 2).2
  let b₃ := (b₂.alu lim .add (some 1) (some 1)).2
  let b₄ := (b₃.alu lim .add (some 0) (some 2)).2
  let b₅ := (b₄.alu lim .mul (some 3) (some 3)).2
  let b₆ := b₅.put lim 3 (some 4)
  (b₆.emit lim .exit 0 none none 8 0).2

theorem squareBlock_built : Built ⟨2048, 1024⟩ squareBlock := by
  iterate 7 refine .emit _ _ _ _ ?_ (by decide) (by decide)
  exact .reset 0

/-- With one register, the first temp is evicted for the second, and the fourth has the register after it. -/
theorem regalloc_right_square :
    (List.range 5).map (regalloc ⟨2048, 1024⟩ (optimise (fun _ _ => true) plainTarget flagAll squareBlock).1 1).2 =
        [none, some 0, none, some 0, none] ∧
      (DiesBefore (optimise (fun _ _ => true) plainTarget flagAll squareBlock).1.insns 1 3 ∨
        DiesBefore (optimise (fun _ _ => true) plainTarget flagAll squareBlock).1.insns 3 1) :=
  ⟨by decide, (regalloc_right (F := Unit) squareBlock_built 1).1 1 3 0 (by decide) (by decide) (by decide)⟩

/-! ## The two together -/

/-- What a back end is given runs as what the frontend built: a block that is built without overflow,
optimised, and has its temps put in registers and slots comes to what it would have come to as it was,
whatever the registers and slots held before. -/
theorem compiled_refines {lim : Limits} {fp : FloatOps F} {t : Target σ} {canLower : Op → Byte → Bool} {b : Block Nat}
    (hb : Built lim b) (ho : b.overflow = false) (hlay : Layout t (usedRegs b.insns) (usedFregs b.insns))
    (hok : Optimisable t b.insns) (nregs fuel : Nat) (cpu : Cpu σ) (tmp : Nat → Word) (loc : Loc → Word) :
    let o := (optimise canLower t flagAll b).1
    interp fp t (o.place (regalloc lim o nregs).2) fuel cpu loc = interp fp t b fuel cpu tmp := by
  intro o
  have hwell := hb.wellBuilt ho
  have hequiv : BlockEquiv fp t b.startPc b.insns o.insns :=
    optimise_equiv ho hlay ⟨hwell.inScope, hwell.dstOk, usesOnly_used, hok.fgets, hok.retires⟩
      (fun i hi => (hwell.fresh i hi).1) hok
  have hpc : o.startPc = b.startPc := by simp [o, optimise, ho]
  have hover : o.overflow = false := by simp [o, optimise, ho]
  have halloc : Allocatable o.insns := optimise_allocatable ho (hb.allocatable ho)
  have honce : ∀ (s : State Nat σ) (u : State Loc σ), s.guest = u.guest →
      (interpOnce fp t o s).Same (interpOnce fp t (o.place (regalloc lim o nregs).2) u) :=
    fun s u hg => interpOnce_place halloc (regalloc_apart fun _ => halloc) hg
  have hplace : (o.place (regalloc lim o nregs).2).overflow = o.overflow := rfl
  simp only [interp, ho, hplace, hover, Bool.false_eq_true, if_false]
  -- the optimised block, still in its temps, stands between the two
  have hopt : interpLoop fp t b fuel ⟨⟨cpu, 0, []⟩, tmp⟩ = interpLoop fp t o fuel ⟨⟨cpu, 0, []⟩, tmp⟩ :=
    hequiv.interpLoop_eq hpc hwell.inScope fuel rfl
  exact (hopt.trans (interpLoop_of_once honce fuel rfl)).symm

/-- With a single host register. -/
theorem compiled_refines_sumBlock :
    let o := (optimise (fun _ _ => true) plainTarget flagAll sumBlock).1
    (regalloc ⟨2048, 1024⟩ o 1).1 = 1 ∧
      interp plainFloat plainTarget (o.place (regalloc ⟨2048, 1024⟩ o 1).2) 1 ⟨fun _ => 0, ()⟩ (fun _ => 1) =
        interp plainFloat plainTarget sumBlock 1 ⟨fun _ => 0, ()⟩ fun _ => 0 :=
  ⟨by decide, compiled_refines sumBlock_built (by decide) sumBlock_layout sumBlock_optimisable 1 1 _ _ _⟩

end Emu.Ir
