-- SUMMARY: `pass_merge_retire`, one retirement per stretch between observation points, and `pass_count_uses`.
import Emu.Ir.Rewrite

/-!
# Passes: merge retirements, count uses

The retirement count is read only where the block can be left, so between two such points the
retirements can be one, provided it stands before the second. The count of a `retire` is its
immediate, 0 meaning 1, so a stretch whose counts sum to 0 modulo 2^32 cannot be merged rightly.
-/

namespace Emu.Ir

open StraightLine

variable {τ σ F : Type} [DecidableEq τ]

/-! ## The merging pass -/

/-- What the pass works on; `carry` is the place of the last `retire` of the stretch. -/
structure Merge (τ : Type) where
  insns : List (Insn τ)
  carry : Option Nat := none
  retiresMerged : Nat := 0

/-- The `retire` that the stretch carries, with its place. -/
def Merge.carried (w : Merge τ) : Option (Nat × Insn τ) := w.carry.bind fun j => w.insns[j]?.map (j, ·)

/-- `in->imm = imm`. -/
def Insn.setImm (i : Insn τ) (imm : Word) : Insn τ := { i with imm }

/-- The body of the loop at instruction `k`. -/
def mergeStep (w : Merge τ) (k : Nat) : Merge τ :=
  match w.insns[k]? with
  | none => w
  | some i =>
    if i.dead then w
    else if i.op = .retire then
      match w.carried with
      | some (j, c) =>
        { insns := (w.insns.set k (i.setImm (retireCount i.imm + c.imm))).modify j Insn.kill
          carry := some k
          retiresMerged := w.retiresMerged + 1 }
      | none => { w with insns := w.insns.set k (i.setImm (retireCount i.imm)), carry := some k }
    else if i.op.observesState then { w with carry := none }
    else w

/-- `pass_merge_retire`. -/
def passMergeRetire (is : List (Insn τ)) : Merge τ := (List.range is.length).foldl mergeStep { insns := is }

/-- The counts of a stretch sum up to something: with `c` carried, no merged count is 0, up to where the
block is left for certain. -/
def RetiresOk : Option Word → List (Option RetireMark) → Prop
  | _, [] => True
  | c, none :: ms => RetiresOk c ms
  | _, some .observe :: ms => RetiresOk none ms
  | _, some .leave :: _ => True
  | none, some (.count n) :: ms => RetiresOk (some n) ms
  | some c, some (.count n) :: ms => n + c ≠ 0 ∧ RetiresOk (some (n + c)) ms

instance RetiresOk.decidable : (c : Option Word) → (ms : List (Option RetireMark)) → Decidable (RetiresOk c ms)
  | _, [] => .isTrue trivial
  | c, none :: ms => RetiresOk.decidable c ms
  | _, some .observe :: ms => RetiresOk.decidable none ms
  | _, some .leave :: _ => .isTrue trivial
  | none, some (.count n) :: ms => RetiresOk.decidable (some n) ms
  | some c, some (.count n) :: ms =>
    have := RetiresOk.decidable (some (n + c)) ms
    inferInstanceAs (Decidable (n + c ≠ 0 ∧ RetiresOk (some (n + c)) ms))

/-! ## What retirements commute with -/

section

variable {fp : FloatOps F} {t : Target σ} {pc : Word} {c : Word} {i i' src : Insn τ}
variable {is is' pre mid post : List (Insn τ)} {s s' : State τ σ} {w : Merge τ} {k : Nat}

/-- Count `c` more retired instructions. -/
def Guest.retire (g : Guest σ) (c : Word) : Guest σ := { g with retired := g.retired + c }

omit [DecidableEq τ] in
theorem Guest.retire_retire {g : Guest σ} {n : Word} : (g.retire c).retire n = g.retire (n + c) := by
  simp only [Guest.retire, BitVec.add_assoc, BitVec.add_comm n]

/-- The same temps, and the count `c` ahead on the left. -/
def Ahead (c : Word) (s s' : State τ σ) : Prop := s.guest = s'.guest.retire c ∧ s.tmp = s'.tmp

omit [DecidableEq τ] in
theorem mark_none (h : i.retireMark = none) (hd : i.dead = false) : i.op ≠ .retire ∧ i.op.observesState = false := by
  unfold Insn.retireMark at h
  rw [hd] at h
  simp only [Bool.false_eq_true, if_false] at h
  split at h
  · cases h
  · split at h
    · cases h
    · exact ⟨‹_›, Bool.eq_false_iff.mpr ‹_›⟩

omit [DecidableEq τ] in
/-- What is no retirement and no observation point neither reads nor writes the count. -/
theorem effect_ahead {op : Op} {aux live : Byte} {imm : Word} {v : Operands} {g g' : Guest σ} (hr : op ≠ .retire)
    (ho : op.observesState = false) (h : g = g'.retire c) :
    SameEffect (fun g g' => g = g'.retire c) (effect fp t pc op aux imm live v g) (effect fp t pc op aux imm live v g') := by
  subst h
  exact .of_unobserved ho rfl (fun hop => absurd hop hr) (fun _ _ hg => by rw [hg]; rfl) (fun _ _ => rfl)
    (fun _ _ _ => ⟨rfl, rfl⟩) fun _ => rfl

theorem exec_ahead (hm : i.retireMark = none) (h : Ahead c s s') :
    Step.Rel (Ahead c) SameStop (exec fp t pc i s) (exec fp t pc i s') := by
  cases hd : i.dead with
  | true => rw [exec_dead hd, exec_dead hd]; exact h
  | false =>
    obtain ⟨hr, ho⟩ := mark_none hm hd
    exact SameEffect.exec hd h.2 (effect_ahead hr ho h.1)

/-- So the count may be added at the end of a stretch instead of its beginning. -/
theorem run_ahead (hm : ∀ i ∈ mid, i.retireMark = none) (h : Ahead c s s') :
    Step.Rel (Ahead c) SameStop (run (exec fp t pc) mid s) (run (exec fp t pc) mid s') := by
  induction mid generalizing s s' with
  | nil => exact h
  | cons i mid ih =>
    have hrel : Step.Rel _ _ (exec fp t pc i s) (exec fp t pc i s') := exec_ahead (hm i (by simp)) h
    cases hx : exec fp t pc i s <;> cases hy : exec fp t pc i s' <;> rw [hx, hy] at hrel
    · rw [run_cons_next hx, run_cons_next hy]
      exact ih (fun j hj => hm j (List.mem_cons_of_mem _ hj)) hrel
    · exact hrel.elim
    · exact hrel.elim
    · rw [run_cons_stop hx, run_cons_stop hy]
      exact hrel

theorem retireCount_of_ne (h : c ≠ 0) : retireCount c = c := if_pos h

theorem retireCount_ne_zero : retireCount c ≠ 0 := by
  unfold retireCount
  split
  · assumption
  · decide

theorem exec_retire (hd : i.dead = false) (hop : i.op = .retire) :
    exec fp t pc i s = .next ⟨s.guest.retire (retireCount i.imm), s.tmp⟩ := by
  rw [exec_live hd, hop]
  cases i.dst <;> rfl

theorem exec_setImm (hd : i.dead = false) (hop : i.op = .retire) (hc : c ≠ 0) :
    exec fp t pc (i.setImm c) s = .next ⟨s.guest.retire c, s.tmp⟩ := by
  have h : exec fp t pc (i.setImm c) s = .next ⟨s.guest.retire (retireCount c), s.tmp⟩ :=
    exec_retire (i := i.setImm c) hd hop
  rwa [retireCount_of_ne hc] at h

/-- Two retirements of one stretch become one. -/
theorem run_merge (hsd : src.dead = false) (hsop : src.op = .retire) (hsimm : src.imm ≠ 0) (hd : i.dead = false)
    (hop : i.op = .retire) (hm : ∀ i ∈ mid, i.retireMark = none) (hsum : retireCount i.imm + src.imm ≠ 0) :
    Step.Rel SameEnd SameStop (run (exec fp t pc) (pre ++ src :: mid ++ i :: post) s)
      (run (exec fp t pc) (pre ++ src.kill :: mid ++ i.setImm (retireCount i.imm + src.imm) :: post) s) := by
  rw [List.append_assoc, List.append_assoc, run_append, run_append]
  cases run (exec fp t pc) pre s with
  | stop r => exact ⟨rfl, fun _ => rfl⟩
  | next s₀ =>
    simp only [List.cons_append]
    rw [run_cons_next (exec_retire hsd hsop), run_cons_next (exec_dead rfl), retireCount_of_ne hsimm]
    refine run_append_rel (run_ahead (c := src.imm) hm ⟨rfl, rfl⟩) fun s₁ s₂ hs => ?_
    rw [run_cons_next (exec_retire hd hop), run_cons_next (exec_setImm hd hop hsum), hs.1, hs.2, Guest.retire_retire]
    exact same_refl _

/-! ## Correctness of merging -/

/-- The stretch since `carry` has no retirement and no observation point, and what is left of the block
can be merged with the count carried. -/
structure Merging (k : Nat) (w : Merge τ) : Prop where
  imm : ∀ j c, w.carried = some (j, c) → c.imm ≠ 0
  stretch : ∀ j, w.carry = some j → ∀ m, j < m → m < k → ∀ i, w.insns[m]? = some i → i.retireMark = none
  ok : RetiresOk (w.carried.map (·.2.imm)) ((w.insns.drop k).map Insn.retireMark)

/-- The block has been left for certain, and whatever the pass does it does behind that. -/
def Past (k : Nat) (w : Merge τ) : Prop :=
  ∃ e x, e < k ∧ w.insns[e]? = some x ∧ x.leaves = true ∧ ∀ j, w.carry = some j → e < j

/-- The pass in front of instruction `k`. -/
structure MergeInv (fp : FloatOps F) (t : Target σ) (pc : Word) (is : List (Insn τ)) (k : Nat) (w : Merge τ) :
    Prop where
  equiv : BlockEquiv fp t pc is w.insns
  carried : ∀ j c, w.carried = some (j, c) → j < k ∧ c.dead = false ∧ c.op = .retire
  phase : Merging k w ∨ Past k w

section

variable {j n : Nat} {insns : List (Insn τ)}

omit [DecidableEq τ]

theorem Merge.carried_iff : w.carried = some (j, src) ↔ w.carry = some j ∧ w.insns[j]? = some src := by
  simp only [Merge.carried, Option.bind_eq_some_iff, Option.map_eq_some_iff, Prod.mk.injEq]
  constructor
  · rintro ⟨j', hj', c, hc, rfl, rfl⟩
    exact ⟨hj', hc⟩
  · rintro ⟨hc, hj⟩
    exact ⟨j, hc, src, hj, rfl, rfl⟩

theorem drop_cons (hk : is[k]? = some i) : is.drop k = i :: is.drop (k + 1) := by
  obtain ⟨hlt, hget⟩ := List.getElem?_eq_some_iff.mp hk
  rw [← hget, List.getElem_cons_drop]

theorem Past.succ (h : Past k w) : Past (k + 1) w := by
  obtain ⟨e, x, he, hx⟩ := h
  exact ⟨e, x, by omega, hx⟩

/-- An instruction without a mark passes through. -/
theorem Merging.pass (h : Merging k w) (hk : w.insns[k]? = some i) (hm : i.retireMark = none) :
    Merging (k + 1) w where
  imm := h.imm
  stretch j hj m hjm hmk i' hi' := by
    rcases Nat.lt_succ_iff_lt_or_eq.mp hmk with hlt | rfl
    · exact h.stretch j hj m hjm hlt i' hi'
    · cases hk.symm.trans hi'
      exact hm
  ok := by
    have hok := h.ok
    rw [drop_cons hk, List.map_cons, hm] at hok
    exact hok

/-- An observation point ends the stretch. -/
theorem Merging.observe (h : Merging k w) (hk : w.insns[k]? = some i) (hm : i.retireMark = some .observe) :
    Merging (k + 1) { w with carry := none } where
  imm j c hc := by cases (Merge.carried_iff.mp hc).1
  stretch j hj := by cases hj
  ok := by
    have hok := h.ok
    rw [drop_cons hk, List.map_cons, hm] at hok
    cases hc : w.carried.map (·.2.imm) <;> rw [hc] at hok <;> exact hok

/-- Behind a `retire` that has just been given the count `c`. -/
theorem Merging.behind (hk : insns[k]? = some (i.setImm c)) (hc : c ≠ 0)
    (hok : RetiresOk (some c) ((insns.drop (k + 1)).map Insn.retireMark)) : Merging (k + 1) ⟨insns, some k, n⟩ where
  imm j c' hc' := by
    obtain ⟨hj, hget⟩ := Merge.carried_iff.mp hc'
    cases hj
    cases hk.symm.trans hget
    exact hc
  stretch j hj m hjm hmk := by
    cases hj
    omega
  ok := by
    rw [Merge.carried_iff.mpr ⟨rfl, hk⟩]
    exact hok

theorem carried_behind (hk : insns[k]? = some (i.setImm c)) (hd : i.dead = false) (hop : i.op = .retire) :
    ∀ j c', (⟨insns, some k, n⟩ : Merge τ).carried = some (j, c') → j < k + 1 ∧ c'.dead = false ∧ c'.op = .retire := by
  intro j c' hc'
  obtain ⟨hj, hget⟩ := Merge.carried_iff.mp hc'
  cases hj
  cases hk.symm.trans hget
  exact ⟨Nat.lt_succ_self k, hd, hop⟩

theorem Past.behind (h : Past k w) (heq : insns.take k = w.insns.take k) : Past (k + 1) ⟨insns, some k, n⟩ := by
  obtain ⟨e, x, he, hx, hl, -⟩ := h
  refine ⟨e, x, by omega, ?_, hl, fun j hj => by cases hj; exact he⟩
  rw [← hx, ← List.getElem?_take_of_lt he, heq, List.getElem?_take_of_lt he]

theorem modelled_setImm (hop : i.op = .retire) : (i.setImm c).modelled t = i.modelled t := by
  simp [Insn.modelled, Insn.setImm, hop]

theorem modelled_kill (hop : i.op = .retire) : i.kill.modelled t = i.modelled t := by
  simp [Insn.modelled, hop]

theorem retireMark_retire (hd : i.dead = false) (hop : i.op = .retire) :
    i.retireMark = some (.count (retireCount i.imm)) := by
  simp [Insn.retireMark, hd, hop]

end

/-- The `retire` at `k` alone: a count in place of 0 changes nothing. -/
theorem equiv_setImm (h : BlockEquiv fp t pc is w.insns) (hk : w.insns[k]? = some i) (hd : i.dead = false)
    (hop : i.op = .retire) : BlockEquiv fp t pc is (w.insns.set k (i.setImm (retireCount i.imm))) := by
  refine ⟨?_, fun s => ?_⟩
  · rw [h.models, interpModels_set hk (modelled_setImm hop)]
  · refine (run_set hk fun s => ?_) ▸ h.runs s
    rw [exec_setImm hd hop retireCount_ne_zero, exec_retire hd hop]

/-- The first retirement of a stretch. -/
theorem MergeInv.first (h : MergeInv fp t pc is k w) (hcarry : w.carried = none) (hk : w.insns[k]? = some i)
    (hd : i.dead = false) (hop : i.op = .retire) :
    MergeInv fp t pc is (k + 1)
      { w with insns := w.insns.set k (i.setImm (retireCount i.imm)), carry := some k } := by
  have hget : (w.insns.set k (i.setImm (retireCount i.imm)))[k]? = some (i.setImm (retireCount i.imm)) :=
    List.getElem?_set_self (List.getElem?_eq_some_iff.mp hk).1
  refine ⟨equiv_setImm h.equiv hk hd hop, carried_behind hget hd hop, ?_⟩
  rcases h.phase with hm | hp
  · refine .inl (.behind hget retireCount_ne_zero ?_)
    have hok := hm.ok
    rw [drop_cons hk, List.map_cons, retireMark_retire hd hop, hcarry] at hok
    rwa [List.drop_set_of_lt (Nat.lt_succ_self k)]
  · exact .inr (hp.behind (List.take_set_of_le (Nat.le_refl k)))

/-- A further retirement of the stretch. -/
theorem MergeInv.merge {j n : Nat} (h : MergeInv fp t pc is k w) (hcarry : w.carried = some (j, src))
    (hk : w.insns[k]? = some i) (hd : i.dead = false) (hop : i.op = .retire) :
    MergeInv fp t pc is (k + 1)
      ⟨(w.insns.set k (i.setImm (retireCount i.imm + src.imm))).modify j Insn.kill, some k, n⟩ := by
  obtain ⟨hjk, hsd, hsop⟩ := h.carried j src hcarry
  obtain ⟨hc, hj⟩ := Merge.carried_iff.mp hcarry
  have hj' : (w.insns.set k (i.setImm (retireCount i.imm + src.imm)))[j]? = some src := by
    rw [List.getElem?_set_ne (Nat.ne_of_gt hjk), hj]
  have hmod : (w.insns.set k (i.setImm (retireCount i.imm + src.imm))).modify j Insn.kill =
      (w.insns.set k (i.setImm (retireCount i.imm + src.imm))).set j src.kill := by
    rw [List.modify_eq_set_getElem?, hj']
    rfl
  rw [hmod]
  have hget : ((w.insns.set k (i.setImm (retireCount i.imm + src.imm))).set j src.kill)[k]? =
      some (i.setImm (retireCount i.imm + src.imm)) := by
    rw [List.getElem?_set_ne (Nat.ne_of_lt hjk), List.getElem?_set_self (List.getElem?_eq_some_iff.mp hk).1]
  have hmodels : interpModels t is =
      interpModels t ((w.insns.set k (i.setImm (retireCount i.imm + src.imm))).set j src.kill) := by
    rw [interpModels_set hj' (modelled_kill hsop), interpModels_set hk (modelled_setImm hop), h.equiv.models]
  rcases h.phase with hm | hp
  · obtain ⟨hsum, hok⟩ : retireCount i.imm + src.imm ≠ 0 ∧
        RetiresOk (some (retireCount i.imm + src.imm)) ((w.insns.drop (k + 1)).map Insn.retireMark) := by
      have hok := hm.ok
      rw [drop_cons hk, List.map_cons, retireMark_retire hd hop, hcarry] at hok
      exact hok
    refine ⟨⟨hmodels, fun s => same_trans (h.equiv.runs s) ?_⟩, carried_behind hget hd hop, .inl (.behind hget hsum ?_)⟩
    · obtain ⟨pre, mid, post, heq, hset, hmid⟩ := exists_split hjk hj hk
      rw [hset, heq]
      refine run_merge hsd hsop (hm.imm j src hcarry) hd hop (fun i' hi' => ?_) hsum
      obtain ⟨m, hjm, hmk, hm'⟩ := hmid i' hi'
      exact hm.stretch j hc m hjm hmk i' hm'
    · rwa [List.drop_set_of_lt (by omega), List.drop_set_of_lt (Nat.lt_succ_self k)]
  · -- both places are behind the `exit`
    obtain ⟨e, x, he, hx, hl, hej⟩ := hp
    have hlt := hej j hc
    have htake : ((w.insns.set k (i.setImm (retireCount i.imm + src.imm))).set j src.kill).take (e + 1) =
        w.insns.take (e + 1) := by
      rw [List.take_set_of_le (by omega), List.take_set_of_le (by omega)]
    refine ⟨⟨hmodels, fun s => ?_⟩, carried_behind hget hd hop,
      .inr ⟨e, x, by omega, ?_, hl, fun j' hj' => by cases hj'; exact he⟩⟩
    · have hrun : run (exec fp t pc) _ s = run (exec fp t pc) w.insns s :=
        run_eq_of_take hx (fun s s' hnext => by simp [leaves_eq_false hnext] at hl) htake
      exact hrun ▸ h.equiv.runs s
    · rw [List.getElem?_set_ne (by omega), List.getElem?_set_ne (by omega), hx]

/-- One turn of the loop. -/
theorem mergeStep_inv (h : MergeInv fp t pc is k w) (hk : k < w.insns.length) :
    MergeInv fp t pc is (k + 1) (mergeStep w k) := by
  have hget : w.insns[k]? = some w.insns[k] := List.getElem?_eq_getElem hk
  generalize w.insns[k] = i at hget
  have hcarried : ∀ j c, w.carried = some (j, c) → j < k + 1 ∧ c.dead = false ∧ c.op = .retire :=
    fun j c hc => (h.carried j c hc).imp_left fun hlt => by omega
  have hpass (hm : i.retireMark = none) : MergeInv fp t pc is (k + 1) w :=
    ⟨h.equiv, hcarried, h.phase.imp (·.pass hget hm) Past.succ⟩
  simp only [mergeStep, hget]
  split
  · exact hpass (by simp [Insn.retireMark, *])
  rename_i hd
  have hd : i.dead = false := by simpa using hd
  split
  · rename_i hop
    split
    · exact h.merge ‹_› hget hd hop
    · exact h.first ‹_› hget hd hop
  rename_i hop
  split
  · rename_i hobs
    refine ⟨h.equiv, fun j c hc => ?_, ?_⟩
    · cases (Merge.carried_iff.mp hc).1
    by_cases hexit : i.op = .exit
    · exact .inr ⟨k, i, Nat.lt_succ_self k, hget, by simp [Insn.leaves, hd, hexit], fun j hj => by cases hj⟩
    · rcases h.phase with hm | ⟨e, x, he, hx, hl, -⟩
      · exact .inl (hm.observe hget (by simp [Insn.retireMark, *]))
      · exact .inr ⟨e, x, by omega, hx, hl, fun j hj => by cases hj⟩
  · exact hpass (by simp [Insn.retireMark, *])

omit [DecidableEq τ] in
theorem mergeStep_length : (mergeStep w k).insns.length = w.insns.length := by
  unfold mergeStep
  split
  · rfl
  · split
    · rfl
    · split
      · split <;> simp
      · split <;> rfl

/-- The pass leaves an equivalent block. -/
theorem passMergeRetire_equiv (hok : RetiresOk none (is.map Insn.retireMark)) :
    BlockEquiv fp t pc is (passMergeRetire is).insns := by
  have hloop : ∀ k ≤ is.length,
      MergeInv fp t pc is k ((List.range k).foldl mergeStep { insns := is }) ∧
        ((List.range k).foldl mergeStep { insns := is }).insns.length = is.length := by
    intro k
    induction k with
    | zero =>
      intro _
      refine ⟨⟨⟨rfl, fun s => same_refl _⟩, fun j c hc => ?_, .inl ⟨fun j c hc => ?_, fun j hj => ?_, hok⟩⟩, rfl⟩
      · cases (Merge.carried_iff.mp hc).1
      · cases (Merge.carried_iff.mp hc).1
      · cases hj
    | succ k ih =>
      intro hk
      obtain ⟨hinv, hlen⟩ := ih (by omega)
      rw [List.range_succ, List.foldl_append, List.foldl_cons, List.foldl_nil]
      exact ⟨mergeStep_inv hinv (by omega), mergeStep_length.trans hlen⟩
  exact (hloop is.length (Nat.le_refl _)).1.equiv

/-! ## What the merging leaves alone -/

/-- The pass gives a `retire` a count or deletes it, and does nothing else. -/
structure Insn.Merged (i i' : Insn τ) : Prop where
  op : i'.op = i.op
  dst : i'.dst = i.dst
  operands : i'.operands = i.operands
  dead : i'.dead = i.dead ∨ i.op = .retire ∧ i'.dead = true

omit [DecidableEq τ] in
theorem Insn.Merged.refl (i : Insn τ) : i.Merged i := ⟨rfl, rfl, rfl, .inl rfl⟩

omit [DecidableEq τ] in
theorem Insn.Merged.setImm (h : i.Merged i') : i.Merged (i'.setImm c) := ⟨h.op, h.dst, h.operands, h.dead⟩

omit [DecidableEq τ] in
theorem Insn.Merged.kill (h : i.Merged i') (hop : i'.op = .retire) : i.Merged i'.kill :=
  ⟨h.op, h.dst, h.operands, .inr ⟨h.op.symm.trans hop, rfl⟩⟩

omit [DecidableEq τ] in
/-- What the pass has in hand: instructions merged so far, with a `retire` carried. -/
theorem mergeStep_merged (h : List.Forall₂ Insn.Merged is w.insns)
    (hcarry : ∀ j src, w.carried = some (j, src) → src.op = .retire) :
    List.Forall₂ Insn.Merged is (mergeStep w k).insns ∧
      ∀ j src, (mergeStep w k).carried = some (j, src) → src.op = .retire := by
  unfold mergeStep
  cases hk : w.insns[k]? with
  | none => exact ⟨h, hcarry⟩
  | some i =>
    dsimp only
    split_ifs with hd hop hobs
    · exact ⟨h, hcarry⟩
    · -- whichever `retire` is at `j` now, it is one
      have hset : ∀ n, List.Forall₂ Insn.Merged is (w.insns.set k (i.setImm n)) := fun n =>
        forall₂_set h hk fun _ ha => ha.setImm
      have hat : ∀ n j src, (w.insns.set k (i.setImm n))[j]? = some src → j = k → src.op = .retire := by
        rintro n j src hj rfl
        rw [List.getElem?_set_self (List.getElem?_eq_some_iff.mp hk).1] at hj
        cases hj
        exact hop
      cases hc : w.carried with
      | none =>
        refine ⟨hset _, fun j src hsrc => ?_⟩
        obtain ⟨hj, hsrc⟩ := Merge.carried_iff.mp hsrc
        exact hat _ j src hsrc (Option.some.inj hj).symm
      | some p =>
        obtain ⟨j, src⟩ := p
        have hjs := (Merge.carried_iff.mp hc).2
        have hkill : ∀ n x, (w.insns.set k (i.setImm n))[j]? = some x → x.op = .retire := by
          intro n x hx
          by_cases hjk : j = k
          · exact hat n j x hx hjk
          · rw [List.getElem?_set_ne (Ne.symm hjk), hjs] at hx
            cases hx
            exact hcarry j src hc
        dsimp only
        rw [List.modify_eq_set_getElem?]
        cases hx : (w.insns.set k (i.setImm (retireCount i.imm + src.imm)))[j]? with
        | none =>
          refine ⟨hset _, fun j' src' hsrc => ?_⟩
          obtain ⟨hj, hsrc⟩ := Merge.carried_iff.mp hsrc
          exact hat _ j' src' hsrc (Option.some.inj hj).symm
        | some x =>
          refine ⟨forall₂_set (hset _) hx fun _ ha => ha.kill (hkill _ x hx), fun j' src' hsrc => ?_⟩
          obtain ⟨hj, hsrc⟩ := Merge.carried_iff.mp hsrc
          by_cases hjj : j' = j
          · subst hjj
            rw [Option.map_eq_map, Option.map_some, Option.getD_some,
              List.getElem?_set_self (List.getElem?_eq_some_iff.mp hx).1] at hsrc
            cases hsrc
            exact hkill _ x hx
          · rw [Option.map_eq_map, Option.map_some, Option.getD_some, List.getElem?_set_ne (Ne.symm hjj)] at hsrc
            exact hat _ j' src' hsrc (Option.some.inj hj).symm
    · exact ⟨h, fun j src hsrc => by cases (Merge.carried_iff.mp hsrc).1⟩
    · exact ⟨h, hcarry⟩

omit [DecidableEq τ] in
theorem passMergeRetire_merged : List.Forall₂ Insn.Merged is (passMergeRetire is).insns := by
  refine (List.foldlRecOn (motive := fun w : Merge τ => List.Forall₂ Insn.Merged is w.insns ∧
      ∀ j src, w.carried = some (j, src) → src.op = .retire) (List.range is.length) mergeStep
    ⟨List.forall₂_same.mpr fun i _ => .refl i, fun j src hsrc => ?_⟩ fun w hw k _ => mergeStep_merged hw.1 hw.2).1
  cases (Merge.carried_iff.mp hsrc).1

omit [DecidableEq τ] in
theorem passMergeRetire_scoped {D : τ → Prop} (h : Scoped D is) : Scoped D (passMergeRetire is).insns := by
  refine h.of_forall₂ (passMergeRetire_merged.imp fun i i' hi => ⟨fun x hx => ?_, fun x => ?_⟩)
  · rcases hi.dead with hdead | ⟨-, hdead⟩
    · exact ⟨hdead.symm.trans hx.1, hi.operands ▸ hx.2⟩
    · cases hdead.symm.trans hx.1
  · rcases hi.dead with hdead | ⟨hop, hdead⟩
    · simp [Insn.Defines, hi.op, hi.dst, hdead]
    · simp [Insn.Defines, hi.op, hop, Op.writes]

end

/-! ## Counting uses -/

/-- The second loop of `pass_count_uses`. -/
def Insn.countUses (uses : τ → Nat) (i : Insn τ) : Insn τ :=
  { i with uses := if i.dead then 0 else i.dst.elim 0 uses }

/-- `pass_count_uses`. -/
def passCountUses (is : List (Insn τ)) : List (Insn τ) := is.map (Insn.countUses (useCounts is))

/-- The `single_use` statistic. -/
def singleUse (is : List (Insn τ)) : Nat := (passCountUses is).countP (·.uses = 1)

/-- The counts change nothing about the block. -/
theorem passCountUses_equiv {fp : FloatOps F} {t : Target σ} {pc : Word} {is : List (Insn τ)} :
    BlockEquiv fp t pc is (passCountUses is) := by
  have hrun : ∀ (uses : τ → Nat) (js : List (Insn τ)) (s : State τ σ),
      run (exec fp t pc) (js.map (Insn.countUses uses)) s = run (exec fp t pc) js s := by
    intro uses js
    induction js with
    | nil => exact fun _ => rfl
    | cons i js ih =>
      intro s
      have hi : exec fp t pc (i.countUses uses) s = exec fp t pc i s := rfl
      simp only [List.map_cons, run, hi, ih]
  refine ⟨?_, fun s => ?_⟩
  · simp only [interpModels, passCountUses, List.all_map]
    rfl
  · rw [passCountUses, hrun]
    exact same_refl _

theorem passCountUses_scoped {D : τ → Prop} {is : List (Insn τ)} (h : Scoped D is) : Scoped D (passCountUses is) := by
  refine h.of_forall₂ (List.forall₂_map_right_iff.mpr (List.forall₂_same.mpr fun i _ => ⟨fun x hx => hx, fun x => ?_⟩))
  exact Iff.rfl

end Emu.Ir
