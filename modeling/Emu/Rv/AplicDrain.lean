-- SUMMARY: Reading claimi until it is 0: every source that may be delivered comes out once, in order of priority.
import Emu.Lib.Drain
import Emu.Rv.Aplic

/-! # Claiming until nothing is left

The search of `topi` holds only the best source against the threshold. The best is the least in priority and then in
number, so where it fails no other would pass, and a guest that reads `claimi` until it is 0 has seen every source that
passes. -/

namespace Emu.Rv.Aplic

/-! ## What the search finds -/

/-- The sources the search looks at. -/
def candidates (a : Aplic) : List Nat :=
  (List.range' 1 (sources - 1)).filter fun i => a.isPending i && a.isEnabled i && a.srcActive i

theorem prio_lt (a : Aplic) (i : Nat) : a.prio i < 256 := by
  rw [prio]
  split_ifs
  · decide
  · exact (a.target i).isLt

theorem lt_of_srcActive {a : Aplic} {i : Nat} (h : a.srcActive i = true) : i ≠ 0 ∧ i < sources := by
  rw [srcActive, Bool.and_eq_true, Bool.and_eq_true, decide_eq_true_iff, decide_eq_true_iff] at h
  exact h.1

theorem mem_candidates {a : Aplic} {i : Nat} :
    i ∈ a.candidates ↔ a.isPending i = true ∧ a.isEnabled i = true ∧ a.srcActive i = true := by
  rw [candidates, List.mem_filter, List.mem_range'_1, Bool.and_eq_true, Bool.and_eq_true]
  constructor
  · rintro ⟨-, ⟨hpend, hen⟩, hactive⟩
    exact ⟨hpend, hen, hactive⟩
  · rintro ⟨hpend, hen, hactive⟩
    obtain ⟨hne, hlt⟩ := lt_of_srcActive hactive
    refine ⟨?_, ⟨hpend, hen⟩, hactive⟩
    simp only [sources] at hlt ⊢
    omega

/-- A turn of the search. -/
def consider (a : Aplic) (best : Nat × Nat) (i : Nat) : Nat × Nat :=
  if best.1 = 0 || a.prio i < best.2 then (i, a.prio i) else best

theorem search_eq_foldl (a : Aplic) : a.search = a.candidates.foldl a.consider (0, 0) := by
  rw [search, candidates, List.foldl_filter]
  congr 1
  funext best i
  cases a.isPending i <;> cases a.isEnabled i <;> cases a.srcActive i <;> rfl

/-- With a source found, it is the scan for the first of the least. -/
theorem foldl_consider (a : Aplic) {l : List Nat} (hl : ∀ i ∈ l, i ≠ 0) {best : Nat × Nat} (hbest : best.1 ≠ 0) :
    l.foldl a.consider best = FirstMin.scan a.prio l best := by
  induction l generalizing best with
  | nil => rfl
  | cons i l ih =>
    obtain ⟨hi, hl⟩ := List.forall_mem_cons.mp hl
    have hturn : a.consider best i = FirstMin.step a.prio best i := by
      rw [consider, FirstMin.step]
      simp [hbest]
    have hnext : (FirstMin.step a.prio best i).1 ≠ 0 := by
      rw [FirstMin.step]
      split_ifs
      · exact hi
      · exact hbest
    rw [List.foldl_cons, hturn, ih hl hnext]
    rfl

theorem search_eq_scan {a : Aplic} (h : a.candidates ≠ []) : a.search = FirstMin.scan a.prio a.candidates (0, 256) := by
  have hne : ∀ i ∈ a.candidates, i ≠ 0 := fun i hi => (lt_of_srcActive (mem_candidates.mp hi).2.2).1
  rw [search_eq_foldl]
  cases hl : a.candidates with
  | nil => exact absurd hl h
  | cons i l =>
    rw [hl] at hne
    obtain ⟨hi, hne⟩ := List.forall_mem_cons.mp hne
    have hfirst : a.consider (0, 0) i = (i, a.prio i) := rfl
    have hstep : FirstMin.step a.prio (0, 256) i = (i, a.prio i) := by rw [FirstMin.step, if_pos (prio_lt a i)]
    rw [List.foldl_cons, hfirst, foldl_consider a hne hi, FirstMin.scan, FirstMin.scan, List.foldl_cons, hstep]

/-- The order of delivery. -/
def rank (a : Aplic) (i : Nat) : Lex (Nat × Nat) := toLex (a.prio i, i)

/-- A source may be delivered, but for the two bits that switch delivery off. -/
def Due (a : Aplic) (i : Nat) : Prop :=
  a.isPending i = true ∧ a.isEnabled i = true ∧ a.srcActive i = true ∧
    (a.ithreshold = 0 ∨ a.prio i < a.ithreshold.toNat)

instance (a : Aplic) (i : Nat) : Decidable (a.Due i) := inferInstanceAs (Decidable (_ ∧ _))

/-- `topi` is 0 where nothing is due, and else names the first of what is. -/
theorem topi_cases (a : Aplic) :
    (a.topi = 0 ∧ ∀ i, ¬a.Due i) ∨
      ∃ i, a.Due i ∧ a.topi = claimWord i (a.prio i) ∧ ∀ j, a.Due j → a.rank i ≤ a.rank j := by
  by_cases hnil : a.candidates = []
  · refine .inl ⟨?_, fun i hi => ?_⟩
    · rw [topi, search_eq_foldl, hnil]
      rfl
    · have hmem := mem_candidates.mpr ⟨hi.1, hi.2.1, hi.2.2.1⟩
      rw [hnil] at hmem
      exact absurd hmem List.not_mem_nil
  · have hsorted : a.candidates.Pairwise (· < ·) := (List.pairwise_lt_range' ..).filter _
    obtain ⟨hmem, hval, hbelow⟩ := FirstMin.scan_mem (0, 256) (fun i _ => prio_lt a i) hnil
    have hleast : ∀ j ∈ a.candidates, a.rank (FirstMin.scan a.prio a.candidates (0, 256)).1 ≤ a.rank j :=
      fun j hj => FirstMin.scan_least hsorted hbelow hj
    rw [← search_eq_scan hnil] at hmem hval hleast
    obtain ⟨hpend, hen, hactive⟩ := mem_candidates.mp hmem
    rw [topi, if_neg (lt_of_srcActive hactive).1]
    split_ifs with hthr
    · -- the best fails, and so do all behind it
      refine .inl ⟨rfl, fun j ⟨hpend', hen', hactive', hbelow'⟩ => ?_⟩
      have hle := hleast j (mem_candidates.mpr ⟨hpend', hen', hactive'⟩)
      rw [rank, rank, Prod.Lex.toLex_le_toLex, ← hval] at hle
      rcases hbelow' with h0 | hlt
      · exact hthr.1 h0
      · omega
    · refine .inr ⟨a.search.1, ⟨hpend, hen, hactive, ?_⟩, by rw [hval], fun j hj => ?_⟩
      · rw [← hval]
        by_cases h0 : a.ithreshold = 0
        · exact .inl h0
        · exact .inr (Nat.lt_of_not_le fun hle => hthr ⟨h0, hle⟩)
      · exact hleast j (mem_candidates.mpr ⟨hj.1, hj.2.1, hj.2.2.1⟩)

/-! ## What a claim reads -/

theorem Due.lt {a : Aplic} {i : Nat} (h : a.Due i) : i ≠ 0 ∧ i < sources := lt_of_srcActive h.2.2.1

theorem toNat_claimWord {i p : Nat} (hi : i < sources) (hp : p < 256) : (claimWord i p).toNat = i * 65536 + p := by
  simp only [sources] at hi
  have hlow : (BitVec.ofNat 32 p &&& 0xFF : Word).toNat = p := by
    rw [BitVec.toNat_and, BitVec.toNat_ofNat, Nat.mod_eq_of_lt (by omega)]
    exact (Nat.and_two_pow_sub_one_eq_mod p 8).trans (Nat.mod_eq_of_lt hp)
  have hhigh : (BitVec.ofNat 32 i <<< 16 : Word).toNat = i <<< 16 := by
    rw [BitVec.toNat_shiftLeft, BitVec.toNat_ofNat, Nat.mod_eq_of_lt (show i < 2 ^ 32 by omega), Nat.shiftLeft_eq,
      Nat.mod_eq_of_lt (by omega)]
  rw [claimWord, BitVec.toNat_or, hlow, hhigh, ← Nat.shiftLeft_add_eq_or_of_lt (by omega), Nat.shiftLeft_eq]

theorem claimWord_source {i p : Nat} (hi : i < sources) (hp : p < 256) : (claimWord i p >>> 16).toNat = i := by
  rw [BitVec.toNat_ushiftRight, toNat_claimWord hi hp, Nat.shiftRight_eq_div_pow]
  omega

theorem claimWord_ne_zero {i p : Nat} (hi : i < sources) (hp : p < 256) (hne : i ≠ 0) : claimWord i p ≠ 0 := by
  intro h0
  have h := toNat_claimWord hi hp
  rw [h0] at h
  change 0 = _ at h
  omega

/-- The state once a source is claimed. -/
def claimed (a : Aplic) (i : Nat) : Aplic := (a.clearPending (i / 32) (BitVec.twoPow 32 (i % 32))).1

theorem isPending_claimed (a : Aplic) (i j : Nat) :
    (a.claimed i).isPending j = (a.isPending j && !decide (j = i)) := by
  rw [claimed, isPending_clearPending]
  simp only [names_twoPow]

@[simp] theorem prio_claimed (a : Aplic) (i : Nat) : (a.claimed i).prio = a.prio := rfl

theorem rank_claimed (a : Aplic) (i : Nat) : (a.claimed i).rank = a.rank := rfl

theorem due_claimed {a : Aplic} {i j : Nat} : (a.claimed i).Due j ↔ j ≠ i ∧ a.Due j := by
  have hsame : (a.claimed i).Due j ↔ (a.claimed i).isPending j = true ∧ a.isEnabled j = true ∧ a.srcActive j = true ∧
      (a.ithreshold = 0 ∨ a.prio j < a.ithreshold.toNat) := Iff.rfl
  rw [hsame, isPending_claimed, Due, Bool.and_eq_true, Bool.not_eq_true', decide_eq_false_iff_not]
  exact ⟨fun ⟨⟨hpend, hne⟩, hrest⟩ => ⟨hne, hpend, hrest⟩, fun ⟨hne, hpend, hrest⟩ => ⟨⟨hpend, hne⟩, hrest⟩⟩

theorem claim_of_due {a : Aplic} {i : Nat} (h : a.Due i) (htopi : a.topi = claimWord i (a.prio i)) :
    a.topi ≠ 0 ∧ (a.topi >>> 16).toNat = i ∧ a.claim.2.1 = a.claimed i := by
  have hne : a.topi ≠ 0 := by
    rw [htopi]
    exact claimWord_ne_zero h.lt.2 (a.prio_lt i) h.lt.1
  have hsrc : (a.topi >>> 16).toNat = i := by
    rw [htopi]
    exact claimWord_source h.lt.2 (a.prio_lt i)
  refine ⟨hne, hsrc, ?_⟩
  rw [claim, if_neg hne]
  dsimp only
  rw [hsrc]
  rfl

/-! ## Reading until there is nothing left -/

/-- The controller as something that hands out what is due. -/
def claims : Drain.Source Aplic Nat (Lex (Nat × Nat)) where
  take a := if a.topi = 0 then none else some ((a.topi >>> 16).toNat, a.claim.2.1)
  due a := (Finset.range sources).filter a.Due
  rank := rank

theorem mem_due {a : Aplic} {i : Nat} : i ∈ claims.due a ↔ a.Due i := by
  rw [claims, Finset.mem_filter, Finset.mem_range]
  exact ⟨And.right, fun h => ⟨h.lt.2, h⟩⟩

theorem take_eq_none {a : Aplic} (h : claims.take a = none) : a.topi = 0 ∧ ∀ i, ¬a.Due i := by
  have h0 : a.topi = 0 := by
    change (if a.topi = 0 then none else some _) = none at h
    split_ifs at h with h0
    exact h0
  rcases topi_cases a with hnone | ⟨i, hdue, htopi, -⟩
  · exact hnone
  · exact absurd h0 (claim_of_due hdue htopi).1

theorem take_eq_some {a a' : Aplic} {i : Nat} (h : claims.take a = some (i, a')) :
    a.Due i ∧ a.topi = claimWord i (a.prio i) ∧ (∀ j, a.Due j → a.rank i ≤ a.rank j) ∧ a' = a.claimed i := by
  change (if a.topi = 0 then none else some _) = _ at h
  rcases topi_cases a with ⟨h0, -⟩ | ⟨i', hdue, htopi, hleast⟩
  · rw [if_pos h0] at h
    cases h
  · obtain ⟨hne, hsrc, hclaim⟩ := claim_of_due hdue htopi
    rw [if_neg hne, hsrc, hclaim] at h
    obtain ⟨rfl, rfl⟩ := Prod.mk.inj (Option.some.inj h)
    exact ⟨hdue, htopi, hleast, rfl⟩

theorem claims_fair : claims.Fair where
  empty h := Finset.eq_empty_of_forall_notMem fun i hi => (take_eq_none h).2 i (mem_due.mp hi)
  mem h := mem_due.mpr (take_eq_some h).1
  least h j hj hne :=
    lt_of_le_of_ne ((take_eq_some h).2.2.1 j (mem_due.mp hj)) fun heq =>
      hne (congrArg (fun k => (ofLex k).2) heq).symm
  due h := by
    obtain ⟨-, -, -, rfl⟩ := take_eq_some h
    ext j
    rw [Finset.mem_erase, mem_due, mem_due, due_claimed]
  rank h := by
    obtain ⟨-, -, -, rfl⟩ := take_eq_some h
    exact rank_claimed ..

/-- Reads of `claimi` until it is 0, each after a read of `topi` that gave the same. -/
inductive ClaimRun : Aplic → List Word → Aplic → Prop
  | last {a a' : Aplic} {calls : List Call} : a.read (idcOff + topiOff) 4 = .ok (0, a, []) →
      a.read (idcOff + claimiOff) 4 = .ok (0, a', calls) → ClaimRun a [0] a'
  | more {a a₁ a' : Aplic} {v : Word} {vs : List Word} {calls : List Call} : v ≠ 0 →
      a.read (idcOff + topiOff) 4 = .ok (v, a, []) → a.read (idcOff + claimiOff) 4 = .ok (v, a₁, calls) →
      ClaimRun a₁ vs a' → ClaimRun a (v :: vs) a'

theorem read_topi (a : Aplic) : a.read (idcOff + topiOff) 4 = .ok (a.topi, a, []) := rfl

theorem read_claimi (a : Aplic) : a.read (idcOff + claimiOff) 4 = .ok (a.topi, a.claim.2.1, a.claim.2.2) := rfl

/-- What the reads give, and what is left pending. -/
theorem claimRun_of_drained {a a' : Aplic} {l : List Nat} (h : claims.Drained a l a') :
    ClaimRun a (l.map (fun i => claimWord i (a.prio i)) ++ [0]) { a' with iforce := 0 } ∧
      ∀ i, a'.isPending i = (a.isPending i && !decide (i ∈ l)) := by
  induction h with
  | @done a hnone =>
    have h0 := (take_eq_none hnone).1
    have hclaim : a.claim.2.1 = { a with iforce := 0 } := by
      rw [claim, if_pos h0]
      rfl
    have hread := read_claimi a
    rw [h0, hclaim] at hread
    refine ⟨.last ?_ hread, fun i => by simp⟩
    rw [read_topi, h0]
  | @more a a₁ a' i l htake _ ih =>
    obtain ⟨hdue, htopi, -, rfl⟩ := take_eq_some htake
    obtain ⟨hne, -, hclaim⟩ := claim_of_due hdue htopi
    have hread := read_claimi a
    rw [htopi] at hne
    rw [htopi, hclaim] at hread
    refine ⟨.more hne ?_ hread ih.1, fun j => ?_⟩
    · rw [read_topi, htopi]
    · rw [ih.2 j, isPending_claimed]
      by_cases hji : j = i <;> simp [hji]

/-- Reading `claimi` until it is 0 gives the sources that are pending, enabled and active with a priority below the
threshold, each once and in order of priority and number. Their pending bits are cleared and no other, `iforce` is cleared,
and each read of `topi` on the way gave what was claimed next. -/
theorem claimi_drains (a : Aplic) :
    ∃ (l : List Nat) (a' : Aplic), (∀ i, i ∈ l ↔ a.Due i) ∧
      l.Pairwise (fun i j => a.prio i < a.prio j ∨ (a.prio i = a.prio j ∧ i < j)) ∧
      ClaimRun a (l.map (fun i => claimWord i (a.prio i)) ++ [0]) a' ∧
      (∀ i ∈ l, (claimWord i (a.prio i) >>> 16).toNat = i) ∧
      (∀ i, a'.isPending i = (a.isPending i && !decide (i ∈ l))) ∧ a'.iforce = 0 := by
  obtain ⟨l, a', hdrained⟩ := Drain.Source.exists_drained claims_fair a
  obtain ⟨hmem, hsorted⟩ := hdrained.spec claims_fair
  obtain ⟨hrun, hpend⟩ := claimRun_of_drained hdrained
  have hdue : ∀ i, i ∈ l ↔ a.Due i := fun i => (hmem i).trans mem_due
  refine ⟨l, { a' with iforce := 0 }, hdue, hsorted.imp fun h => ?_, hrun, fun i hi => ?_, hpend, rfl⟩
  · exact Prod.Lex.toLex_lt_toLex.mp h
  · exact claimWord_source ((hdue i).mp hi).lt.2 (a.prio_lt i)

end Emu.Rv.Aplic
