-- SUMMARY: A stack on a ring of cells: pushed beyond its size it forgets the oldest entry.
import Mathlib

/-! # Short stacks

A stack is kept on a ring of `n` cells, with the place of the next push and a depth that stops at `n`. A push onto a full
one overwrites the oldest entry, so it holds the last `n` of what a stack without a bound would. -/

/-- A ring of `n` cells, the place of the next push and how many entries a pop can return. -/
structure ShortStack (n : Nat) (α : Type) where
  cells : Nat → α
  head : Nat
  depth : Nat
  head_lt : head < n
  depth_le : depth ≤ n

namespace ShortStack

variable {n : Nat} {α : Type}

/-- No entries, over cells that hold anything. -/
def empty (cells : Nat → α) (h : 0 < n) : ShortStack n α := ⟨cells, 0, 0, h, Nat.zero_le n⟩

def push (s : ShortStack n α) (x : α) : ShortStack n α where
  cells := Function.update s.cells s.head x
  head := (s.head + 1) % n
  depth := if s.depth < n then s.depth + 1 else s.depth
  head_lt := Nat.mod_lt _ (Nat.zero_lt_of_lt s.head_lt)
  depth_le := by
    have := s.depth_le
    split <;> omega

/-- The entry on top and what is under it, if there is one. -/
def pop (s : ShortStack n α) : Option (α × ShortStack n α) :=
  if s.depth = 0 then none
  else
    some (s.cells ((s.head + n - 1) % n),
      { s with
        head := (s.head + n - 1) % n
        depth := s.depth - 1
        head_lt := Nat.mod_lt _ (Nat.zero_lt_of_lt s.head_lt)
        depth_le := Nat.le_trans (Nat.sub_le _ _) s.depth_le })

/-- The cell of the entry that `i` others are on top of. -/
def cellOf (s : ShortStack n α) (i : Nat) : Nat := (s.head + n - 1 - i) % n

/-- The entries, from the top. -/
def held (s : ShortStack n α) : List α := (List.range s.depth).map fun i => s.cells (s.cellOf i)

@[simp]
theorem length_held (s : ShortStack n α) : s.held.length = s.depth := by
  rw [held, List.length_map, List.length_range]

@[simp]
theorem held_empty (cells : Nat → α) (h : 0 < n) : (empty cells h).held = [] := rfl

theorem cellOf_push_zero (s : ShortStack n α) (x : α) : (s.push x).cellOf 0 = s.head := by
  have hlt := s.head_lt
  change ((s.head + 1) % n + n - 1 - 0) % n = s.head
  rcases Nat.lt_or_ge (s.head + 1) n with h | h
  · rw [Nat.mod_eq_of_lt h, Nat.sub_zero, show s.head + 1 + n - 1 = s.head + n by omega, Nat.add_mod_right,
      Nat.mod_eq_of_lt hlt]
  · rw [show s.head + 1 = n by omega, Nat.mod_self, Nat.zero_add, Nat.sub_zero, Nat.mod_eq_of_lt (by omega)]
    omega

theorem cellOf_push_succ (s : ShortStack n α) (x : α) {i : Nat} (hi : i + 1 < n) :
    (s.push x).cellOf (i + 1) = s.cellOf i := by
  have hlt := s.head_lt
  change ((s.head + 1) % n + n - 1 - (i + 1)) % n = (s.head + n - 1 - i) % n
  rcases Nat.lt_or_ge (s.head + 1) n with h | h
  · rw [Nat.mod_eq_of_lt h]
    congr 1
    omega
  · rw [show s.head + 1 = n by omega, Nat.mod_self, show 0 + n - 1 - (i + 1) = n - 2 - i by omega,
      show s.head + n - 1 - i = n - 2 - i + n by omega, Nat.add_mod_right]

/-- One goes round the ring before one comes to the place of the next push. -/
theorem cellOf_ne_head (s : ShortStack n α) {i : Nat} (hi : i + 1 < n) : s.cellOf i ≠ s.head := by
  have hlt := s.head_lt
  rw [cellOf]
  rcases Nat.lt_or_ge i s.head with h | h
  · rw [show s.head + n - 1 - i = s.head - 1 - i + n by omega, Nat.add_mod_right, Nat.mod_eq_of_lt (by omega)]
    omega
  · rw [Nat.mod_eq_of_lt (by omega)]
    omega

/-- A push puts its entry on top, and the bound takes the oldest away. -/
theorem held_push (s : ShortStack n α) (x : α) : (s.push x).held = (x :: s.held).take n := by
  have hle := s.depth_le
  have hlt := s.head_lt
  have hdepth : (s.push x).depth = min n (s.depth + 1) := by
    change (if s.depth < n then s.depth + 1 else s.depth) = _
    split <;> omega
  apply List.ext_getElem
  · rw [length_held, hdepth, List.length_take, List.length_cons, length_held]
  · intro i hi hi'
    rw [length_held, hdepth] at hi
    rw [List.getElem_take]
    cases i with
    | zero =>
      simp only [held, List.getElem_map, List.getElem_range, List.getElem_cons_zero, cellOf_push_zero]
      exact Function.update_self s.head x s.cells
    | succ i =>
      have hin : i + 1 < n := by omega
      simp only [held, List.getElem_map, List.getElem_range, List.getElem_cons_succ]
      rw [cellOf_push_succ s x hin]
      exact Function.update_of_ne (s.cellOf_ne_head hin) x s.cells

theorem pop_of_nil {s : ShortStack n α} (h : s.held = []) : s.pop = none := by
  have hd : s.depth = 0 := by rw [← length_held, h, List.length_nil]
  exact if_pos hd

/-- A pop takes the entry on top. -/
theorem pop_of_cons {s : ShortStack n α} {x : α} {xs : List α} (h : s.held = x :: xs) :
    ∃ s', s.pop = some (x, s') ∧ s'.held = xs := by
  have hd : s.depth = xs.length + 1 := by rw [← length_held, h, List.length_cons]
  have hlt := s.head_lt
  have hle := s.depth_le
  have htop : s.cells ((s.head + n - 1) % n) = x := by
    rw [held, hd, List.range_succ_eq_map, List.map_cons] at h
    exact (List.cons.inj h).1
  refine ⟨_, by rw [pop, if_neg (by omega), htop], ?_⟩
  rw [held, hd, List.range_succ_eq_map, List.map_cons, List.map_map] at h
  rw [← (List.cons.inj h).2]
  change (List.range (s.depth - 1)).map (fun i => s.cells (((s.head + n - 1) % n + n - 1 - i) % n)) = _
  rw [hd, Nat.add_sub_cancel]
  apply List.map_congr_left
  intro i hi
  have hi' : i < xs.length := List.mem_range.mp hi
  change s.cells (_ % n) = s.cells (_ % n)
  congr 1
  rcases Nat.eq_zero_or_pos s.head with h0 | h0
  · rw [h0, Nat.zero_add, Nat.mod_eq_of_lt (by omega : n - 1 < n), show n - 1 + n - 1 - i = n - 1 - (i + 1) + n by omega,
      Nat.add_mod_right]
  · rw [show s.head + n - 1 = s.head - 1 + n by omega, Nat.add_mod_right, Nat.mod_eq_of_lt (by omega : s.head - 1 < n)]
    congr 1
    simp only [Nat.succ_eq_add_one]
    omega

end ShortStack
