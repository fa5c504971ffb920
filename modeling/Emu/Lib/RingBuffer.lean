-- SUMMARY: RingBuffer buffers with free-running counters: what they hold, as a list, and how taking from and adding to either end changes it.
import Mathlib
import Emu.Lib.Overlay

/-! # Rings

A ring of `2 ^ k` cells is filled at its head and emptied at its tail. Both are counters of `w` bits that are never
brought back into range: the cell of a counter is given by its low `k` bits, and how much the ring holds is the
difference of the two. A counter is wider than a cell number, or a full ring would look empty. -/

open Overlay

/-! ## Reading a run of cells -/

namespace RingBuffer

variable {k : Nat} {α : Type}

/-- The `n` cells from `p` on. -/
def window (m : BitVec k → α) (p : BitVec k) : Nat → List α
  | 0 => []
  | n + 1 => m p :: window m (p + 1#k) n

@[simp]
theorem length_window (m : BitVec k → α) (p : BitVec k) (n : Nat) : (window m p n).length = n := by
  induction n generalizing p with
  | zero => rfl
  | succ n ih => rw [window, List.length_cons, ih]

theorem add_ofNat_succ (p : BitVec k) (n : Nat) : p + 1#k + BitVec.ofNat k n = p + BitVec.ofNat k (n + 1) := by
  rw [BitVec.ofNat_add, BitVec.add_assoc, BitVec.add_comm 1#k]

theorem window_append (m : BitVec k → α) (p : BitVec k) (a b : Nat) :
    window m p (a + b) = window m p a ++ window m (p + BitVec.ofNat k a) b := by
  induction a generalizing p with
  | zero => simp [window]
  | succ a ih => rw [Nat.succ_add, window, window, ih, add_ofNat_succ, List.cons_append]

theorem window_congr {m m' : BitVec k → α} {p : BitVec k} {n : Nat}
    (h : ∀ i < n, m (p + BitVec.ofNat k i) = m' (p + BitVec.ofNat k i)) : window m p n = window m' p n := by
  induction n generalizing p with
  | zero => rfl
  | succ n ih =>
    have hp := h 0 (Nat.succ_pos n)
    rw [show BitVec.ofNat k 0 = 0#k from rfl, BitVec.add_zero] at hp
    rw [window, window, hp]
    congr 1
    apply ih
    intro i hi
    rw [add_ofNat_succ]
    exact h (i + 1) (Nat.succ_lt_succ hi)

theorem take_window (m : BitVec k → α) (p : BitVec k) {a n : Nat} (h : a ≤ n) :
    (window m p n).take a = window m p a := by
  obtain ⟨b, rfl⟩ := Nat.exists_eq_add_of_le h
  rw [window_append, List.take_left' (length_window m p a)]

theorem drop_window (m : BitVec k → α) (p : BitVec k) {a n : Nat} (h : a ≤ n) :
    (window m p n).drop a = window m (p + BitVec.ofNat k a) (n - a) := by
  obtain ⟨b, rfl⟩ := Nat.exists_eq_add_of_le h
  rw [window_append, List.drop_left' (length_window m p a), Nat.add_sub_cancel_left]

/-- How far a cell is from the start of a window. -/
theorem toNat_add_sub {p : BitVec k} {i : Nat} (h : i < 2 ^ k) : (p + BitVec.ofNat k i - p).toNat = i := by
  rw [BitVec.add_comm, BitVec.add_sub_cancel, BitVec.toNat_ofNat, Nat.mod_eq_of_lt h]

/-- The values laid over the cells are read back. -/
theorem window_overlay {m : BitVec k → α} {p : BitVec k} {vs : List α} (h : vs.length ≤ 2 ^ k) :
    window (overlay m p vs) p vs.length = vs := by
  induction vs generalizing m p with
  | nil => rfl
  | cons v vs ih =>
    rw [List.length_cons] at h
    rw [List.length_cons, window, overlay_cons h, ih (Nat.le_of_succ_le h), ← overlay_cons h]
    have hp : (p - p).toNat < (v :: vs).length := by
      rw [BitVec.sub_self]
      exact Nat.succ_pos _
    rw [overlay_of_lt hp]
    simp

/-- The cells after the values laid over them are the old ones. -/
theorem window_overlay_after {m : BitVec k → α} {p : BitVec k} {vs : List α} {n : Nat} (h : vs.length + n ≤ 2 ^ k) :
    window (overlay m p vs) (p + BitVec.ofNat k vs.length) n = window m (p + BitVec.ofNat k vs.length) n := by
  apply window_congr
  intro i hi
  apply overlay_of_le
  rw [BitVec.add_assoc, ← BitVec.ofNat_add, toNat_add_sub (by omega)]
  exact Nat.le_add_right ..

/-- So are those before them. -/
theorem window_overlay_before {m : BitVec k → α} {p : BitVec k} {vs : List α} {n : Nat} (h : n + vs.length ≤ 2 ^ k) :
    window (overlay m (p + BitVec.ofNat k n) vs) p n = window m p n := by
  apply window_congr
  intro i hi
  apply overlay_of_le
  -- going on from the end of the values one comes round to cell `i` after all the others
  have hround : p + BitVec.ofNat k i - (p + BitVec.ofNat k n) = BitVec.ofNat k (2 ^ k + i - n) := by
    have hsum : BitVec.ofNat k (2 ^ k + i - n) + BitVec.ofNat k n = BitVec.ofNat k i := by
      rw [← BitVec.ofNat_add, Nat.sub_add_cancel (by omega)]
      apply BitVec.eq_of_toNat_eq
      rw [BitVec.toNat_ofNat, BitVec.toNat_ofNat, Nat.add_mod_left]
    rw [← hsum, ← BitVec.add_assoc, BitVec.add_comm p, BitVec.add_assoc, BitVec.add_sub_cancel]
  rw [hround, BitVec.toNat_ofNat, Nat.mod_eq_of_lt (by omega)]
  omega

end RingBuffer

/-! ## Rings -/

/-- A ring that holds no more than it has cells. -/
structure RingBuffer (w k : Nat) (α : Type) where
  cells : BitVec k → α
  head : BitVec w
  tail : BitVec w
  narrow : k < w
  held_le : (head - tail).toNat ≤ 2 ^ k

namespace RingBuffer

variable {w k : Nat} {α : Type}

/-- How much the ring holds. -/
def held (r : RingBuffer w k α) : Nat := (r.head - r.tail).toNat

/-- The cell of a counter. -/
def cell (k : Nat) (c : BitVec w) : BitVec k := c.setWidth k

/-- What the ring holds, the oldest first. -/
def toList (r : RingBuffer w k α) : List α := window r.cells (cell k r.tail) r.held

/-- The cell after the last one that is held. -/
theorem cell_head (r : RingBuffer w k α) : cell k r.head = cell k r.tail + BitVec.ofNat k r.held := by
  have hcell : BitVec.ofNat k r.held = cell k (r.head - r.tail) := by
    rw [held, cell, ← BitVec.ofNat_toNat]
  rw [hcell, cell, cell, cell, ← BitVec.setWidth_add _ _ (Nat.le_of_lt r.narrow), BitVec.add_comm, BitVec.sub_add_cancel]

theorem cell_add (r : RingBuffer w k α) (c : BitVec w) (n : Nat) :
    cell k (c + BitVec.ofNat w n) = cell k c + BitVec.ofNat k n := by
  rw [cell, cell, BitVec.setWidth_add _ _ (Nat.le_of_lt r.narrow), BitVec.setWidth_ofNat_of_le (Nat.le_of_lt r.narrow)]

@[simp]
theorem length_toList (r : RingBuffer w k α) : r.toList.length = r.held := length_window ..

theorem held_lt (r : RingBuffer w k α) {n : Nat} (h : r.held + n ≤ 2 ^ k) : r.held + n < 2 ^ w :=
  Nat.lt_of_le_of_lt h (Nat.pow_lt_pow_right (by decide) r.narrow)

/-- An empty ring. -/
def empty (h : k < w) (m : BitVec k → α) : RingBuffer w k α where
  cells := m
  head := 0
  tail := 0
  narrow := h
  held_le := by simp

@[simp]
theorem toList_empty (h : k < w) (m : BitVec k → α) : (empty h m).toList = [] := by
  have hheld : (empty h m).held = 0 := by simp [held, empty]
  rw [toList, hheld]
  rfl

/-! ## Both ends -/

theorem held_ahead (r : RingBuffer w k α) {n : Nat} (h : r.held + n ≤ 2 ^ k) :
    (r.head + BitVec.ofNat w n - r.tail).toNat = r.held + n := by
  have hlt := r.held_lt h
  have hcomm : r.head + BitVec.ofNat w n - r.tail = (r.head - r.tail) + BitVec.ofNat w n := by
    rw [BitVec.sub_eq_add_neg, BitVec.sub_eq_add_neg, BitVec.add_assoc, BitVec.add_assoc, BitVec.add_comm (-r.tail)]
  rw [hcomm, BitVec.toNat_add, BitVec.toNat_ofNat, Nat.mod_eq_of_lt (Nat.lt_of_le_of_lt (Nat.le_add_left ..) hlt)]
  exact Nat.mod_eq_of_lt hlt

theorem held_behind (r : RingBuffer w k α) {n : Nat} (h : r.held + n ≤ 2 ^ k) :
    (r.head - (r.tail - BitVec.ofNat w n)).toNat = r.held + n := by
  have hcomm : r.head - (r.tail - BitVec.ofNat w n) = r.head + BitVec.ofNat w n - r.tail := by
    rw [BitVec.sub_eq_add_neg r.head, BitVec.neg_sub, BitVec.sub_eq_add_neg, BitVec.add_assoc, BitVec.add_comm (-r.tail)]
  rw [hcomm, r.held_ahead h]

theorem held_shrunk (r : RingBuffer w k α) {n : Nat} (h : n ≤ r.held) :
    (r.head - (r.tail + BitVec.ofNat w n)).toNat = r.held - n := by
  have hlt : r.held < 2 ^ w := (r.head - r.tail).isLt
  have hn : (BitVec.ofNat w n).toNat = n := by
    rw [BitVec.toNat_ofNat, Nat.mod_eq_of_lt (Nat.lt_of_le_of_lt h hlt)]
  have hle : BitVec.ofNat w n ≤ r.head - r.tail := by
    rw [BitVec.le_def, hn]
    exact h
  rw [← BitVec.sub_sub, BitVec.toNat_sub_of_le hle, hn]
  rfl

/-- Add at the head. -/
def push (r : RingBuffer w k α) (x : α) (h : r.held < 2 ^ k) : RingBuffer w k α where
  cells := Function.update r.cells (cell k r.head) x
  head := r.head + 1#w
  tail := r.tail
  narrow := r.narrow
  held_le := (r.held_ahead (n := 1) h).trans_le h

/-- Take from the tail. -/
def drop (r : RingBuffer w k α) (n : Nat) (h : n ≤ r.held) : RingBuffer w k α where
  cells := r.cells
  head := r.head
  tail := r.tail + BitVec.ofNat w n
  narrow := r.narrow
  held_le := (r.held_shrunk h).trans_le (Nat.le_trans (Nat.sub_le ..) r.held_le)

/-- Put back at the tail. -/
def unget (r : RingBuffer w k α) (xs : List α) (h : r.held + xs.length ≤ 2 ^ k) : RingBuffer w k α where
  cells := overlay r.cells (cell k (r.tail - BitVec.ofNat w xs.length)) xs
  head := r.head
  tail := r.tail - BitVec.ofNat w xs.length
  narrow := r.narrow
  held_le := (r.held_behind h).trans_le h

theorem toList_push (r : RingBuffer w k α) (x : α) (h : r.held < 2 ^ k) : (r.push x h).toList = r.toList ++ [x] := by
  have hheld : (r.push x h).held = r.held + 1 := r.held_ahead (n := 1) h
  have hcells : (r.push x h).cells = overlay r.cells (cell k r.tail + BitVec.ofNat k r.held) [x] := by
    rw [overlay_cons (Nat.pow_pos Nat.two_pos), overlay_nil, ← r.cell_head]
    rfl
  rw [toList, hheld, hcells, window_append]
  congr 1
  · exact window_overlay_before h
  · change window (overlay r.cells _ [x]) _ [x].length = [x]
    exact window_overlay Nat.one_le_two_pow

theorem toList_drop (r : RingBuffer w k α) (n : Nat) (h : n ≤ r.held) : (r.drop n h).toList = r.toList.drop n := by
  have hheld : (r.drop n h).held = r.held - n := r.held_shrunk h
  rw [toList, hheld, toList, drop_window _ _ h, ← r.cell_add]
  rfl

theorem toList_unget (r : RingBuffer w k α) (xs : List α) (h : r.held + xs.length ≤ 2 ^ k) :
    (r.unget xs h).toList = xs ++ r.toList := by
  have hheld : (r.unget xs h).held = xs.length + r.held := (r.held_behind h).trans (Nat.add_comm ..)
  have htail : cell k (r.tail - BitVec.ofNat w xs.length) + BitVec.ofNat k xs.length = cell k r.tail := by
    rw [← r.cell_add, BitVec.sub_add_cancel]
  rw [toList, hheld, window_append]
  congr 1
  · exact window_overlay (Nat.le_trans (Nat.le_add_left ..) h)
  · rw [toList, ← htail]
    exact window_overlay_after ((Nat.add_comm ..).trans_le h)

end RingBuffer
