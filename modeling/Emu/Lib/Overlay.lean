-- SUMMARY: A run of values laid over a memory, as one function and as the loop that stores them one after another.
import Mathlib

/-! # Overlays

`overlay m p vs` is the memory `m` with the values `vs` at `p`, `p + 1` and so on. Addresses are bit vectors, so a run
may go past the top of the address space and on at its bottom; it never comes back to where it started as long as it
is no longer than the space. -/

namespace Overlay

variable {w : Nat} {β : Type*} {m : BitVec w → β} {p x : BitVec w} {v : β} {vs us : List β}

/-- The memory `m` with `vs` laid over it from `p` on. -/
def overlay (m : BitVec w → β) (p : BitVec w) (vs : List β) : BitVec w → β :=
  fun x => (vs[(x - p).toNat]?).getD (m x)

@[simp]
theorem overlay_nil : overlay m p [] = m := by
  funext x
  rfl

/-- Outside the run nothing changes. -/
theorem overlay_of_le (h : vs.length ≤ (x - p).toNat) : overlay m p vs x = m x := by
  rw [overlay, List.getElem?_eq_none h, Option.getD_none]

theorem overlay_of_lt (h : (x - p).toNat < vs.length) : overlay m p vs x = vs[(x - p).toNat] := by
  rw [overlay, List.getElem?_eq_getElem h, Option.getD_some]

/-- How far `x` is from the address after `p`. -/
theorem toNat_sub_succ (h : x ≠ p) : (x - (p + 1#w)).toNat + 1 = (x - p).toNat := by
  have hpos : 0 < (x - p).toNat := by
    apply Nat.pos_of_ne_zero
    intro h0
    have hsub : x - p = 0#w := BitVec.eq_of_toNat_eq (by simpa using h0)
    exact h (by rw [← BitVec.sub_add_cancel x p, hsub, BitVec.zero_add])
  have hlt := (x - p).isLt
  have hw : w ≠ 0 := by
    rintro rfl
    omega
  have hone : (1#w).toNat = 1 := by rw [BitVec.toNat_ofNat, Nat.mod_eq_of_lt (Nat.one_lt_two_pow hw)]
  rw [← BitVec.sub_sub, BitVec.toNat_sub_of_le (by rw [BitVec.le_def, hone]; exact hpos), hone]
  omega

/-- The loop that stores one value and goes on at the next address. -/
theorem overlay_cons (h : vs.length < 2 ^ w) :
    overlay m p (v :: vs) = overlay (Function.update m p v) (p + 1#w) vs := by
  funext x
  by_cases hx : x = p
  · subst hx
    -- the rest of the run is too short to come round to its first address
    have hfar : vs.length ≤ (x - (x + 1#w)).toNat := by
      rw [← BitVec.sub_sub, BitVec.sub_self, BitVec.zero_sub, BitVec.neg_one_eq_allOnes, BitVec.toNat_allOnes]
      omega
    rw [overlay_of_le hfar, Function.update_self, overlay_of_lt (by simp)]
    simp
  · have hsub := toNat_sub_succ hx
    simp only [overlay, Function.update_of_ne hx, ← hsub, List.getElem?_cons_succ]

theorem overlay_append (h : us.length + vs.length ≤ 2 ^ w) :
    overlay m p (us ++ vs) = overlay (overlay m p us) (p + BitVec.ofNat w us.length) vs := by
  induction us generalizing m p with
  | nil => simp
  | cons u us ih =>
    have hadd : p + 1#w + BitVec.ofNat w us.length = p + BitVec.ofNat w (us.length + 1) := by
      rw [BitVec.ofNat_add, BitVec.add_assoc, BitVec.add_comm 1#w]
    simp only [List.length_cons] at h
    rw [List.cons_append, overlay_cons (by rw [List.length_append]; omega), ih (by omega),
      overlay_cons (by omega), List.length_cons, hadd]

/-! ## Over the naturals -/

section
variable {α : Type*} {g : Nat → Option α} {k : Nat} {us vs : List α}

/-- The cells `g` with the values `vs` from `k` on. -/
def patch (k : Nat) (vs : List α) (g : Nat → Option α) : Nat → Option α :=
  fun i => if k ≤ i ∧ i < k + vs.length then vs[i - k]? else g i

@[simp]
theorem patch_nil : patch k ([] : List α) g = g := by
  funext i
  exact if_neg (by rw [List.length_nil]; omega)

theorem patch_append : patch k (us ++ vs) g = patch (k + us.length) vs (patch k us g) := by
  funext i
  rw [patch, patch, patch, List.length_append]
  by_cases hus : i < k + us.length
  · rw [if_neg (c := k + us.length ≤ i ∧ _) (by omega)]
    by_cases hk : k ≤ i
    · rw [if_pos (by omega), if_pos (by omega), List.getElem?_append_left (by omega)]
    · rw [if_neg (by omega), if_neg (by omega)]
  · rw [if_neg (c := k ≤ i ∧ i < k + us.length) (by omega)]
    by_cases hvs : i < k + us.length + vs.length
    · rw [if_pos (by omega), if_pos (by omega), List.getElem?_append_right (by omega), Nat.sub_add_eq]
    · rw [if_neg (by omega), if_neg (by omega)]

/-- The first values may be laid down before the others. -/
theorem patch_split {n : Nat} (h : n ≤ vs.length) :
    patch (k + n) (vs.drop n) (patch k (vs.take n) g) = patch k vs g := by
  have happend : patch k (vs.take n ++ vs.drop n) g = _ := patch_append
  rw [List.length_take_of_le h, List.take_append_drop] at happend
  exact happend.symm

/-- The cells seen from a base. -/
theorem patch_base (b : Nat) : (fun i => patch (b + k) vs g (b + i)) = patch k vs fun i => g (b + i) := by
  funext i
  rw [patch, patch, Nat.add_sub_add_left]
  exact if_congr (by omega) rfl rfl

end

end Overlay
