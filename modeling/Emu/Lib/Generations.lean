-- SUMMARY: A cache behind a generation word: entries are used only while the word has not moved since they were right.
import Mathlib

/-! # Generations

A cache whose entries are right for the environment they were built in. The environment has a word that moves whenever an
entry may stop being right, and the word is looked at before an entry is used: if it is not the one seen last, all entries
go. The word wraps, so what is asked is that it moves fewer times between two looks than it has values. -/

namespace Emu.Generations

/-- The entries, the word as it was seen last, and how often it moved since. -/
structure Cache (ε : Type) (w : Nat) where
  entries : List ε
  seen : Option (BitVec w)
  moves : Nat

variable {σ ε : Type} {w : Nat}

namespace Cache

def empty : Cache ε w := ⟨[], none, 0⟩

/-- The look. -/
def check (g : BitVec w) (c : Cache ε w) : Cache ε w :=
  if c.seen = none ∨ c.seen = some g then ⟨c.entries, some g, 0⟩ else ⟨[], some g, 0⟩

def add (e : ε) (c : Cache ε w) : Cache ε w := { c with entries := e :: c.entries }

/-- Entries may go at any time. -/
def keep (p : ε → Bool) (c : Cache ε w) : Cache ε w := { c with entries := c.entries.filter p }

/-- The environment's word goes from one value to another. -/
def moved (g g' : BitVec w) (c : Cache ε w) : Cache ε w := if g' = g then c else { c with moves := c.moves + 1 }

end Cache

/-- The word tells how often it moved, up to its width; as long as it did not, every entry is right. -/
structure Valid (gen : σ → BitVec w) (Good : σ → ε → Prop) (s : σ) (c : Cache ε w) : Prop where
  none : c.seen = .none → c.entries = []
  gen : ∀ g ∈ c.seen, gen s = g + BitVec.ofNat w c.moves
  good : c.moves = 0 → ∀ e ∈ c.entries, Good s e

variable {gen : σ → BitVec w} {Good : σ → ε → Prop} {s s' : σ} {c : Cache ε w}

theorem valid_empty (s : σ) : Valid gen Good s Cache.empty :=
  ⟨fun _ => rfl, fun g hg => absurd hg (Option.not_mem_none g), fun _ _ he => absurd he List.not_mem_nil⟩

namespace Valid

theorem keep (h : Valid gen Good s c) (p : ε → Bool) : Valid gen Good s (c.keep p) where
  none hn := by rw [Cache.keep, h.none hn, List.filter_nil]
  gen := h.gen
  good hm e he := h.good hm e (List.mem_of_mem_filter he)

/-- A step of the environment keeps every entry right, or moves the word. -/
theorem step (h : Valid gen Good s c)
    (hstep : (gen s' = gen s ∧ ∀ e ∈ c.entries, Good s e → Good s' e) ∨ (0 < w ∧ gen s' = gen s + 1)) :
    Valid gen Good s' (c.moved (gen s) (gen s')) := by
  rcases hstep with ⟨hgen, hgood⟩ | ⟨hw, hgen⟩
  · rw [Cache.moved, if_pos hgen]
    exact ⟨h.none, fun g hg => hgen.trans (h.gen g hg), fun hm e he => hgood e he (h.good hm e he)⟩
  · have hne : gen s' ≠ gen s := by
      rw [hgen]
      intro heq
      have hone : (1 : BitVec w) = 0 := by simpa using heq
      have := congrArg BitVec.toNat hone
      simp [Nat.one_mod_two_pow_eq_one.mpr hw] at this
    rw [Cache.moved, if_neg hne]
    refine ⟨h.none, fun g hg => ?_, fun hm => absurd hm (Nat.succ_ne_zero _)⟩
    rw [hgen, h.gen g hg, BitVec.ofNat_add, BitVec.add_assoc]
    rfl

/-- A look in time leaves only entries that are right. -/
theorem check (h : Valid gen Good s c) (hm : c.moves < 2 ^ w) : Valid gen Good s (c.check (gen s)) := by
  have hgen (g : BitVec w) (hg : g ∈ some (gen s)) : gen s = g + BitVec.ofNat w 0 := by
    rw [Option.mem_some_iff.mp hg]
    exact (BitVec.add_zero g).symm
  unfold Cache.check
  split_ifs with hseen
  · refine ⟨fun hn => absurd hn (Option.some_ne_none _), hgen, fun _ => ?_⟩
    rcases hseen with hnone | hsome
    · rw [h.none hnone]
      exact fun e he => absurd he List.not_mem_nil
    · -- the word is the one seen, so it did not move
      have hmoves := h.gen _ hsome
      rw [left_eq_add] at hmoves
      have hzero := congrArg BitVec.toNat hmoves
      rw [BitVec.toNat_ofNat, Nat.mod_eq_of_lt hm] at hzero
      exact h.good (hzero.trans BitVec.toNat_zero)
  · exact ⟨fun _ => rfl, hgen, fun _ e he => absurd he List.not_mem_nil⟩

theorem add {e : ε} (h : Valid gen Good s c) (hseen : c.seen ≠ .none) (he : Good s e) :
    Valid gen Good s (c.add e) where
  none hn := absurd hn hseen
  gen := h.gen
  good hm := List.forall_mem_cons.mpr ⟨he, h.good hm⟩

end Valid

theorem check_moves (g : BitVec w) (c : Cache ε w) : (c.check g).moves = 0 := by
  unfold Cache.check
  split_ifs <;> rfl

theorem check_seen (g : BitVec w) (c : Cache ε w) : (c.check g).seen = some g := by
  unfold Cache.check
  split_ifs <;> rfl

end Emu.Generations
