-- SUMMARY: The negative cache: declined, heating and thrashing pcs, invalidated by an epoch.
import Mathlib
import Emu.Ir.Syntax

/-!
# The negative cache

`g_neg` of `emu_jit.c`: which pcs the translator has refused, how often a pc without a block has
missed, and how often compaction has evicted one. An entry counts only in the epoch it was written
in, and forgetting everything is a new epoch.
-/

namespace Emu.Jit

/-- `ctx_fold`. -/
def ctxFold (context : BitVec 64) : Word :=
  context.setWidth 32 ^^^ ((context >>> 32).setWidth 32 * 0x9E3779B9)

/-- What is configured before a run, within the bounds its setters clamp to. -/
structure Tuning where
  hotThreshold : Nat
  thrashEvictions : Nat
  thrashMarks : Nat
  thrashRetry : Nat
  chainHeat : Bool
  hotThreshold_le : hotThreshold ≤ 127
  thrashEvictions_le : thrashEvictions ≤ 0x7D

/-- An entry of `g_neg`; the epoch is in the tag's upper bits and the answer in its low eight. -/
structure SeenEntry where
  pc : Word
  context : Word
  tag : Nat

/-- `g_neg`, `g_neg_epoch`, `g_thrash_marks_left` and `g_thrash_interps`. -/
structure Seen where
  entry : Nat → SeenEntry
  epoch : Nat
  marksLeft : Nat
  thrashInterps : Nat

/-- `JIT_SEEN_DECLINED`. -/
def seenDeclined : Nat := 0xFF

/-- `JIT_SEEN_THRASH`. -/
def seenThrash : Nat := 0xFE

/-- `JIT_SEEN_EVICTED`. -/
def seenEvicted : Nat := 0x80

/-- `JIT_SEEN_EPOCH_MAX`. -/
def seenEpochMax : Nat := 0x00FFFFFF

/-- `neg_slot`. -/
def negSlot (pc context : Word) : Nat :=
  let h : Word := ((pc >>> 1) ^^^ (context * 2654435761)) * 2654435761
  ((h >>> 16) &&& 1023).toNat

namespace Seen

/-- The zeroed table a process starts with. -/
def init : Seen where
  entry _ := ⟨0, 0, 0⟩
  epoch := 1
  marksLeft := 0
  thrashInterps := 0

/-- `seen_get`. -/
def get (s : Seen) (k : Nat) (pc context : Word) : Nat :=
  if (s.entry k).tag >>> 8 ≠ s.epoch ∨ (s.entry k).pc ≠ pc ∨ (s.entry k).context ≠ context then 0
  else (s.entry k).tag &&& 0xFF

/-- `seen_set`. -/
def set (s : Seen) (k : Nat) (pc context : Word) (v : Nat) : Seen :=
  { s with entry := Function.update s.entry k ⟨pc, context, s.epoch <<< 8 ||| v⟩ }

/-- `seen_of`. -/
def of (s : Seen) (pc : Word) (key : BitVec 64) : Nat :=
  s.get (negSlot pc (ctxFold key)) pc (ctxFold key)

/-- The eviction count `evict_note` goes on with, from the entry's answer so far. -/
def evictions (v : Nat) : Nat :=
  if v &&& seenEvicted ≠ 0 then v % seenEvicted + 1 else 1

/-- `evict_note`. -/
def evictNote (tn : Tuning) (s : Seen) (pc : Word) (key : BitVec 64) : Seen :=
  if tn.thrashEvictions = 0 then s
  else
    let context := ctxFold key
    let k := negSlot pc context
    let v := s.get k pc context
    if v = seenDeclined ∨ v = seenThrash then s
    else
      let n := evictions v
      if tn.thrashEvictions ≤ n ∧ s.marksLeft ≠ 0 then
        { s with marksLeft := s.marksLeft - 1 }.set k pc context seenThrash
      else if tn.thrashEvictions ≤ n then s.set k pc context (seenEvicted ||| (n - 1))
      else s.set k pc context (seenEvicted ||| n)

/-- `neg_note`. -/
def negNote (s : Seen) (pc : Word) (key : BitVec 64) : Seen :=
  s.set (negSlot pc (ctxFold key)) pc (ctxFold key) seenDeclined

/-- `heat_bump`: whether the pc is hot enough to be translated. -/
def heatBump (tn : Tuning) (s : Seen) (pc : Word) (key : BitVec 64) : Bool × Seen :=
  if tn.hotThreshold ≤ 1 then (true, s)
  else
    let context := ctxFold key
    let k := negSlot pc context
    let n := s.get k pc context + 1
    if tn.hotThreshold ≤ n then (true, s) else (false, s.set k pc context n)

/-- `neg_invalidate`. -/
def invalidate (s : Seen) : Seen :=
  if seenEpochMax < s.epoch + 1 then { s with entry := fun _ => ⟨0, 0, 0⟩, epoch := 1 }
  else { s with epoch := s.epoch + 1 }

/-- The loop that ends `emu_jit_invalidate_range`: every entry for a pc in the range goes. -/
def forgetRange (s : Seen) (lo hi : Word) : Seen :=
  { s with entry := fun k => if (s.entry k).pc - lo ≤ hi - lo then { s.entry k with tag := 0 } else s.entry k }

/-- The accounting of `run_interp_to_jump`. -/
def thrashTick (tn : Tuning) (s : Seen) : Seen :=
  if tn.thrashRetry ≤ s.thrashInterps + 1 then { s with thrashInterps := 0 }.invalidate
  else { s with thrashInterps := s.thrashInterps + 1 }

/-- The epoch is never 0, fits its 24 bits, and no entry is from a later one. -/
structure Ok (s : Seen) : Prop where
  epoch_pos : 1 ≤ s.epoch
  epoch_le : s.epoch ≤ seenEpochMax
  tag_le : ∀ k, (s.entry k).tag >>> 8 ≤ s.epoch

theorem init_ok : init.Ok := ⟨by decide, by decide, fun _ => by simp [init]⟩

variable {s : Seen} {tn : Tuning} {pc : Word} {key : BitVec 64}

theorem tag_shiftRight (epoch : Nat) {v : Nat} (hv : v < 256) : (epoch <<< 8 ||| v) >>> 8 = epoch := by
  rw [Nat.shiftRight_or_distrib, Nat.shiftLeft_shiftRight, Nat.shiftRight_eq_div_pow v, Nat.div_eq_of_lt hv, Nat.or_zero]

theorem Ok.set {k v : Nat} {context : Word} (h : s.Ok) (hv : v < 256) : (s.set k pc context v).Ok := by
  refine ⟨h.epoch_pos, h.epoch_le, ?_⟩
  intro j
  by_cases hj : j = k
  · subst hj
    simp [Seen.set, tag_shiftRight s.epoch hv]
  · simpa [Seen.set, hj] using h.tag_le j

theorem Ok.marksLeft (h : s.Ok) (n : Nat) : { s with marksLeft := n }.Ok :=
  ⟨h.epoch_pos, h.epoch_le, h.tag_le⟩

theorem Ok.thrashInterps (h : s.Ok) (n : Nat) : { s with thrashInterps := n }.Ok :=
  ⟨h.epoch_pos, h.epoch_le, h.tag_le⟩

theorem Ok.invalidate (h : s.Ok) : s.invalidate.Ok := by
  unfold Seen.invalidate
  split
  · exact ⟨Nat.le_refl 1, show 1 ≤ seenEpochMax by decide, fun _ => by simp⟩
  · exact ⟨Nat.le_add_left 1 _, Nat.not_lt.1 ‹_›, fun k => Nat.le_succ_of_le (h.tag_le k)⟩

/-- No entry of the epochs before is believed after a new one has started. -/
theorem Ok.get_invalidate (h : s.Ok) (k : Nat) (pc context : Word) : s.invalidate.get k pc context = 0 := by
  rw [get]
  apply if_pos
  left
  rw [Seen.invalidate]
  split_ifs
  · simp
  · have := h.tag_le k
    simp only [ne_eq]
    omega

/-- A new epoch forgets every answer. -/
theorem Ok.of_invalidate (h : s.Ok) (pc : Word) (key : BitVec 64) : s.invalidate.of pc key = 0 := h.get_invalidate ..

theorem Ok.forgetRange {lo hi : Word} (h : s.Ok) : (s.forgetRange lo hi).Ok := by
  refine ⟨h.epoch_pos, h.epoch_le, ?_⟩
  intro k
  simp only [Seen.forgetRange]
  split
  · simp
  · exact h.tag_le k

theorem entry_forgetRange (s : Seen) (lo hi : Word) (k : Nat) :
    (s.forgetRange lo hi).entry k =
      if (s.entry k).pc - lo ≤ hi - lo then { s.entry k with tag := 0 } else s.entry k := rfl

theorem Ok.get_forgetRange {lo hi : Word} (h : s.Ok) (k : Nat) (pc context : Word) :
    (s.forgetRange lo hi).get k pc context = if pc - lo ≤ hi - lo then 0 else s.get k pc context := by
  have hepoch : (s.forgetRange lo hi).epoch = s.epoch := rfl
  rw [get, entry_forgetRange, hepoch]
  by_cases hpc : (s.entry k).pc = pc
  · rw [hpc]
    by_cases hin : pc - lo ≤ hi - lo
    · -- the tag is cleared, and epoch 0 is never the current one
      have hpos := h.epoch_pos
      rw [if_pos hin, if_pos hin]
      exact if_pos (.inl (by rw [Nat.zero_shiftRight]; omega))
    · rw [if_neg hin, if_neg hin, get]
  · have hget : s.get k pc context = 0 := if_pos (.inr (.inl hpc))
    rw [hget, ite_self]
    apply if_pos
    right
    left
    split_ifs <;> exact hpc

/-- The loop forgets what was answered for a pc of the range; the one compare is the range test. -/
theorem Ok.of_forgetRange {lo hi : Word} (h : s.Ok) (hlo : lo ≤ pc) (hhi : pc ≤ hi) :
    (s.forgetRange lo hi).of pc key = 0 := by
  rw [of, h.get_forgetRange, if_pos]
  bv_omega

theorem Ok.negNote (h : s.Ok) : (s.negNote pc key).Ok := h.set (by decide)

theorem Ok.heatBump (h : s.Ok) : (s.heatBump tn pc key).2.Ok := by
  have := tn.hotThreshold_le
  simp only [Seen.heatBump]
  split_ifs
  · exact h
  · exact h
  · exact h.set (by omega)

theorem evictions_le (v : Nat) : evictions v ≤ 128 := by
  unfold evictions
  split
  · exact Nat.mod_lt v (by decide)
  · decide

theorem seenEvicted_or_lt {n : Nat} (hn : n < 128) : seenEvicted ||| n < 256 :=
  Nat.or_lt_two_pow (n := 8) (by decide) (by omega)

theorem Ok.evictNote (h : s.Ok) : (s.evictNote tn pc key).Ok := by
  have hmax := tn.thrashEvictions_le
  have hle := evictions_le (s.get (negSlot pc (ctxFold key)) pc (ctxFold key))
  simp only [Seen.evictNote]
  split_ifs
  · exact h
  · exact h
  · exact (h.marksLeft (s.marksLeft - 1)).set (by decide)
  · exact h.set (seenEvicted_or_lt (by omega))
  · exact h.set (seenEvicted_or_lt (by omega))

theorem Ok.thrashTick (h : s.Ok) : (s.thrashTick tn).Ok := by
  unfold Seen.thrashTick
  split
  · exact (h.thrashInterps 0).invalidate
  · exact h.thrashInterps _

end Seen

end Emu.Jit
