-- SUMMARY: Chained indexes: buckets of node numbers threaded through link cells, with insertion, removal and search.
import Mathlib

/-!
# Chained indexes

An array of nodes with a `next` field each, and an array of bucket heads: the usual chained hash
table, where a pointer to a link points either at a head or at some node's `next`. A chain is the
list of nodes found by following the links from a cell; an index is represented when every bucket's
chain holds exactly the nodes that belong to the bucket.
-/

namespace Emu.Chain

/-- A cell that holds a link: the head of a bucket or the `next` field of a node. -/
inductive Cell (β : Type*) where
  | head (b : β)
  | next (i : Nat)
  deriving DecidableEq

/-- The content of every cell; `none` ends a chain. -/
abbrev Links (β : Type*) := Cell β → Option Nat

section Chains

variable {β : Type*} {c c' : Links β} {a : Cell β} {i j : Nat} {l pre post : List Nat}

/-- Following the links from cell `a` visits the nodes `l` and then ends. -/
inductive IsChain (c : Links β) : Cell β → List Nat → Prop
  | nil {a : Cell β} : c a = none → IsChain c a []
  | cons {a : Cell β} {i : Nat} {l : List Nat} : c a = some i → IsChain c (.next i) l → IsChain c a (i :: l)

namespace IsChain

theorem cons_iff : IsChain c a (i :: l) ↔ c a = some i ∧ IsChain c (.next i) l := by
  constructor
  · rintro ⟨⟩
    exact ⟨‹_›, ‹_›⟩
  · rintro ⟨h, hl⟩
    exact .cons h hl

theorem unique {l' : List Nat} (h : IsChain c a l) (h' : IsChain c a l') : l = l' := by
  induction h generalizing l' with
  | nil h =>
    cases h' with
    | nil => rfl
    | cons h' => simp [h] at h'
  | cons h _ ih =>
    cases h' with
    | nil h' => simp [h] at h'
    | cons h' hl' =>
      obtain rfl : _ = _ := Option.some.inj (h.symm.trans h')
      rw [ih hl']

/-- The links of the rest of a chain lead on from any of its nodes. -/
theorem drop (h : IsChain c a (pre ++ i :: l)) : IsChain c (.next i) l := by
  induction pre generalizing a with
  | nil => exact (cons_iff.1 h).2
  | cons j pre ih => exact ih (cons_iff.1 h).2

/-- A chain that ends is acyclic: coming back to a node would make the rest of the chain its own
proper part. -/
theorem nodup (h : IsChain c a l) : l.Nodup := by
  induction l generalizing a with
  | nil => exact List.nodup_nil
  | cons i l ih =>
    have hl : IsChain c (.next i) l := (cons_iff.1 h).2
    refine List.nodup_cons.2 ⟨?_, ih hl⟩
    intro hi
    obtain ⟨pre, post, rfl⟩ := List.append_of_mem hi
    have := congrArg List.length (hl.unique hl.drop)
    simp at this
    omega

/-- A chain depends only on the cells it goes through, and may be entered from any cell that leads
to its first node. -/
theorem congr {a' : Cell β} (h : IsChain c a l) (ha : c' a' = c a)
    (hl : ∀ i ∈ l, c' (.next i) = c (.next i)) : IsChain c' a' l := by
  induction h generalizing a' with
  | nil h => exact .nil (ha.trans h)
  | cons h _ ih =>
    refine .cons (ha.trans h) (ih (hl _ List.mem_cons_self) ?_)
    intro j hj
    exact hl j (List.mem_cons_of_mem _ hj)

end IsChain

/-- The cell reached from `a` after the nodes `pre`. -/
def cellAfter (a : Cell β) : List Nat → Cell β
  | [] => a
  | i :: pre => cellAfter (.next i) pre

theorem cellAfter_append_singleton (a : Cell β) (pre : List Nat) (i : Nat) :
    cellAfter a (pre ++ [i]) = .next i := by
  induction pre generalizing a with
  | nil => rfl
  | cons j pre ih => exact ih _

theorem IsChain.cellAfter (h : IsChain c a (pre ++ l)) : IsChain c (cellAfter a pre) l := by
  induction pre generalizing a with
  | nil => exact h
  | cons j pre ih => exact ih (cons_iff.1 h).2

theorem cellAfter_eq (a : Cell β) (pre : List Nat) :
    cellAfter a pre = a ∨ ∃ i ∈ pre, cellAfter a pre = .next i := by
  induction pre generalizing a with
  | nil => exact .inl rfl
  | cons i pre ih =>
    rcases ih (.next i) with h | ⟨j, hj, h⟩
    · exact .inr ⟨i, List.mem_cons_self, h⟩
    · exact .inr ⟨j, List.mem_cons_of_mem _ hj, h⟩

end Chains

section Operations

variable {β : Type*} [DecidableEq β] {c c' : Links β} {a : Cell β} {b : β} {i : Nat} {l pre post : List Nat}

/-- Empty every bucket; the `next` fields keep what they hold. -/
def Links.clear (c : Links β) : Links β
  | .head _ => none
  | .next i => c (.next i)

/-- Put node `i` at the head of bucket `b`. -/
def Links.insert (c : Links β) (b : β) (i : Nat) : Links β :=
  Function.update (Function.update c (.next i) (c (.head b))) (.head b) (some i)

/-- Take node `i` out of the chain at the cell `a` that leads to it. -/
def Links.removeAt (c : Links β) (a : Cell β) (i : Nat) : Links β :=
  Function.update (Function.update c a (c (.next i))) (.next i) none

/-- Walk from cell `a` to the cell that leads to node `i`, and take the node out there. -/
def Links.unlink : Nat → Links β → Cell β → Nat → Links β
  | 0, c, _, _ => c
  | fuel + 1, c, a, i =>
    match c a with
    | none => c
    | some j => if j = i then c.removeAt a i else c.unlink fuel (.next j) i

omit [DecidableEq β] in
/-- The first node from cell `a` on that satisfies `p`. -/
def Links.find (c : Links β) (p : Nat → Bool) : Nat → Cell β → Option Nat
  | 0, _ => none
  | fuel + 1, a =>
    match c a with
    | none => none
    | some j => if p j then some j else c.find p fuel (.next j)

omit [DecidableEq β] in
theorem IsChain.find_eq (p : Nat → Bool) {fuel : Nat} (h : IsChain c a l) (hf : l.length ≤ fuel) :
    c.find p fuel a = l.find? p := by
  induction fuel generalizing a l with
  | zero =>
    obtain rfl := List.eq_nil_of_length_eq_zero (Nat.le_zero.1 hf)
    rfl
  | succ fuel ih =>
    cases h with
    | nil h => simp [Links.find, h]
    | @cons _ i l h hl =>
      have hl' := ih hl (by simpa using hf)
      simp only [Links.find, h, hl', List.find?_cons]
      cases p i <;> rfl

/-- Walking to a node of the chain and taking it out is removal at the cell after the nodes before
it. -/
theorem IsChain.unlink_eq {fuel : Nat} (h : IsChain c a (pre ++ i :: post)) (hf : pre.length < fuel) :
    c.unlink fuel a i = c.removeAt (Chain.cellAfter a pre) i := by
  have hn : i ∉ pre := fun hi => by
    have := h.nodup
    rw [List.nodup_append] at this
    exact this.2.2 i hi i List.mem_cons_self rfl
  induction pre generalizing a fuel with
  | nil =>
    obtain ⟨fuel, rfl⟩ : ∃ n, fuel = n + 1 := ⟨fuel - 1, by simp at hf; omega⟩
    simp [Links.unlink, (IsChain.cons_iff.1 h).1, Chain.cellAfter]
  | cons j pre ih =>
    obtain ⟨fuel, rfl⟩ : ∃ n, fuel = n + 1 := ⟨fuel - 1, by simp at hf; omega⟩
    obtain ⟨hj, hl⟩ := IsChain.cons_iff.1 h
    obtain ⟨hji, hn⟩ := not_or.1 (mt List.mem_cons.2 hn)
    simp only [Links.unlink, hj, if_neg (Ne.symm hji)]
    exact ih hl (by simpa using hf) hn

theorem removeAt_of_ne {x : Cell β} (ha : x ≠ a) (hi : x ≠ .next i) : c.removeAt a i x = c x := by
  simp [Links.removeAt, ha, hi]

theorem IsChain.removeAt (h : IsChain c a (pre ++ i :: post)) (ha : ∀ j ∈ pre ++ i :: post, a ≠ .next j) :
    IsChain (c.removeAt (Chain.cellAfter a pre) i) a (pre ++ post) := by
  have hn := h.nodup
  induction pre generalizing a with
  | nil =>
    have hpost : i ∉ post := (List.nodup_cons.1 hn).1
    -- the cell that led to `i` now leads where `i` did
    refine (IsChain.cons_iff.1 h).2.congr ?_ ?_
    · simp [Links.removeAt, Chain.cellAfter, ha i (by simp)]
    · intro j hj
      refine removeAt_of_ne (Ne.symm (ha j (by simp [hj]))) ?_
      rintro ⟨⟩
      exact hpost hj
  | cons k pre ih =>
    obtain ⟨hk, hl⟩ := IsChain.cons_iff.1 h
    obtain ⟨hkn, hn⟩ := List.nodup_cons.1 hn
    refine .cons (.trans (removeAt_of_ne ?_ (ha i (by simp))) hk) (ih hl ?_ hn)
    · rcases cellAfter_eq (Cell.next k : Cell β) pre with h | ⟨j, hj, h⟩
      · simpa [Chain.cellAfter, h] using ha k (by simp)
      · simpa [Chain.cellAfter, h] using ha j (by simp [hj])
    · rintro j hj ⟨⟩
      exact hkn hj

end Operations

/-! ## Represented indexes -/

section Represents

variable {β : Type*} {c : Links β} {M : β → Nat → Prop} {b : β} {i : Nat}

/-- Every bucket's chain holds exactly the nodes that belong to the bucket. -/
def Represents (c : Links β) (M : β → Nat → Prop) : Prop :=
  ∀ b, ∃ l, IsChain c (.head b) l ∧ ∀ i, i ∈ l ↔ M b i

theorem Represents.iff {M' : β → Nat → Prop} (h : Represents c M) (hM : ∀ b i, M b i ↔ M' b i) :
    Represents c M' := by
  intro b
  obtain ⟨l, hl, hmem⟩ := h b
  exact ⟨l, hl, fun i => (hmem i).trans (hM b i)⟩

theorem represents_clear (c : Links β) : Represents c.clear (fun _ _ => False) :=
  fun _ => ⟨[], .nil rfl, fun _ => by simp⟩

/-- A chain whose nodes are numbered below `n` is no longer than `n`. -/
theorem IsChain.length_le {a : Cell β} {l : List Nat} {n : Nat} (h : IsChain c a l) (hl : ∀ i ∈ l, i < n) :
    l.length ≤ n := by
  have hsub : l ⊆ List.range n := fun i hi => List.mem_range.2 (hl i hi)
  simpa using (List.subperm_of_subset h.nodup hsub).length_le

/-- Searching a bucket finds a node that satisfies `p` exactly when the bucket has one. -/
theorem Represents.find {n : Nat} (h : Represents c M) (hn : ∀ b i, M b i → i < n) (p : Nat → Bool) :
    (∀ i, c.find p n (.head b) = some i → M b i ∧ p i) ∧
      (c.find p n (.head b) = none → ∀ i, M b i → p i = false) := by
  obtain ⟨l, hl, hmem⟩ := h b
  rw [hl.find_eq p (hl.length_le fun i hi => hn b i ((hmem i).1 hi))]
  constructor
  · intro i hi
    exact ⟨(hmem i).1 (List.mem_of_find?_eq_some hi), List.find?_some hi⟩
  · intro hnone i hi
    simpa using List.find?_eq_none.1 hnone i ((hmem i).2 hi)

variable [DecidableEq β]

theorem Represents.insert (h : Represents c M) (hi : ∀ b, ¬ M b i) :
    Represents (c.insert b i) (fun b' j => M b' j ∨ b' = b ∧ j = i) := by
  intro b'
  obtain ⟨l, hl, hmem⟩ := h b'
  have hne : ∀ j ∈ l, c.insert b i (.next j) = c (.next j) := by
    intro j hj
    have hji : j ≠ i := fun h => hi b' (h ▸ (hmem j).1 hj)
    simp [Links.insert, hji]
  by_cases hb : b' = b
  · subst hb
    refine ⟨i :: l, .cons (by simp [Links.insert]) (hl.congr (by simp [Links.insert]) hne), ?_⟩
    intro j
    simp [hmem, or_comm]
  · refine ⟨l, hl.congr (by simp [Links.insert, hb]) hne, ?_⟩
    intro j
    simp [hmem, hb]

/-- The `next` field of a node that is in no bucket may hold anything. -/
theorem Represents.update_next {v : Option Nat} (h : Represents c M) (hi : ∀ b, ¬ M b i) :
    Represents (Function.update c (.next i) v) M := by
  intro b
  obtain ⟨l, hl, hmem⟩ := h b
  refine ⟨l, hl.congr (by simp) ?_, hmem⟩
  intro j hj
  have hji : j ≠ i := fun h => hi b (h ▸ (hmem j).1 hj)
  simp [hji]

/-- Removal at the cell that leads to a node takes the node out of the index, if no other bucket has
it. -/
theorem Represents.removeAt {pre post : List Nat} (h : Represents c M)
    (hc : IsChain c (.head b) (pre ++ i :: post)) (hb : ∀ b', M b' i → b' = b)
    (hM : ∀ b b' j, M b j → M b' j → b = b') :
    Represents (c.removeAt (cellAfter (.head b) pre) i) (fun b' j => M b' j ∧ j ≠ i) := by
  obtain ⟨l, hl, hmem⟩ := h b
  obtain rfl := hc.unique hl
  have hn := hc.nodup
  intro b'
  by_cases hbb : b' = b
  · subst hbb
    refine ⟨pre ++ post, hc.removeAt (by simp), ?_⟩
    intro j
    change j ∈ pre ++ post ↔ M b' j ∧ j ≠ i
    rw [← hmem j]
    have hi : i ∉ pre ++ post := (List.nodup_middle.1 hn).notMem
    constructor
    · intro hj
      refine ⟨?_, fun hji => hi (hji ▸ hj)⟩
      simp only [List.mem_append, List.mem_cons] at hj ⊢
      tauto
    · rintro ⟨hj, hji⟩
      simp only [List.mem_append, List.mem_cons] at hj ⊢
      tauto
  · obtain ⟨l', hl', hmem'⟩ := h b'
    -- the other chains go through none of the cells that change
    have hdis : ∀ j ∈ l', j ∉ pre ++ i :: post := fun j hj hj' =>
      hbb (hM _ _ _ ((hmem' j).1 hj) ((hmem j).1 hj'))
    have hcell : ∀ j ∈ l', cellAfter (.head b) pre ≠ Cell.next j := by
      intro j hj heq
      rcases cellAfter_eq (.head b) pre with h | ⟨k, hk, h⟩
      · simp [h] at heq
      · obtain rfl : k = j := by simpa [h] using heq
        exact hdis k hj (by simp [hk])
    refine ⟨l', hl'.congr (removeAt_of_ne ?_ (by simp)) ?_, ?_⟩
    · rcases cellAfter_eq (.head b) pre with h | ⟨k, hk, h⟩ <;> simp [h, hbb]
    · intro j hj
      refine removeAt_of_ne (Ne.symm (hcell j hj)) ?_
      rintro ⟨⟩
      exact hdis i hj (by simp)
    · intro j
      change j ∈ l' ↔ M b' j ∧ j ≠ i
      rw [hmem' j]
      refine ⟨fun hj => ⟨hj, ?_⟩, And.left⟩
      rintro rfl
      exact hbb (hb b' hj)

theorem Represents.unlink {n : Nat} (h : Represents c M) (hn : ∀ b i, M b i → i < n) (hi : M b i)
    (hM : ∀ b b' j, M b j → M b' j → b = b') :
    Represents (c.unlink n (.head b) i) (fun b' j => M b' j ∧ j ≠ i) := by
  obtain ⟨l, hl, hmem⟩ := h b
  obtain ⟨pre, post, rfl⟩ := List.append_of_mem ((hmem i).2 hi)
  have hlen := hl.length_le fun i hi => hn b i ((hmem i).1 hi)
  rw [hl.unlink_eq (by simp at hlen; omega)]
  exact h.removeAt hl (fun b' hb' => hM _ _ _ hb' hi) hM

end Represents

end Emu.Chain
