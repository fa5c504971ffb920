-- SUMMARY: The negative cache over whole runs: what an answer says has happened, since it was last forgotten.
import Emu.Jit.Table

/-! # The negative cache over whole runs

One byte holds a count of misses, a count of evictions or one of two marks, under an epoch that comes round. Over any
sequence of operations a byte that is believed is one of the four (`Answer`), and what it says has happened since the last
change of epoch and the last invalidation of a range with the pc in it (`Answer.Backed`). -/

namespace Emu.Jit

/-- `emu_jit_set_hot_threshold`. -/
def Tuning.setHot (tn : Tuning) (misses : Nat) : Tuning :=
  { tn with
    hotThreshold := if misses < 1 then 1 else if 127 < misses then 127 else misses
    hotThreshold_le := by split_ifs <;> omega }

/-- `emu_jit_set_thrash_evictions`. -/
def Tuning.setThrash (tn : Tuning) (evictions : Nat) : Tuning :=
  { tn with
    thrashEvictions := if 0x7D < evictions then 0x7D else evictions
    thrashEvictions_le := by split_ifs <;> omega }

/-- What `emu_jit_invalidate_range` does to the table. -/
def Seen.invalidateRange (s : Seen) (lo hi : Word) : Seen :=
  if hi < lo then s
  else if pageWalkMax <<< pageShift ≤ (hi - lo).toNat then s.invalidate
  else s.forgetRange lo hi

/-! ## Runs -/

inductive SeenOp where
  | miss (pc : Word) (key : BitVec 64)
  | decline (pc : Word) (key : BitVec 64)
  /-- Compaction starts, with its marks to give. -/
  | compact
  | evict (pc : Word) (key : BitVec 64)
  | setHot (misses : Nat)
  | setThrash (evictions : Nat)
  | invalidateRange (lo hi : Word)
  | newEpoch

structure SeenState where
  tuning : Tuning
  seen : Seen

def SeenState.step (s : SeenState) : SeenOp → SeenState
  | .miss pc key => { s with seen := (s.seen.heatBump s.tuning pc key).2 }
  | .decline pc key => { s with seen := s.seen.negNote pc key }
  | .compact => { s with seen := { s.seen with marksLeft := s.tuning.thrashMarks } }
  | .evict pc key => { s with seen := s.seen.evictNote s.tuning pc key }
  | .setHot misses => { s with tuning := s.tuning.setHot misses }
  | .setThrash evictions => { s with tuning := s.tuning.setThrash evictions }
  | .invalidateRange lo hi => { s with seen := s.seen.invalidateRange lo hi }
  | .newEpoch => { s with seen := s.seen.invalidate }

/-- The state after a history, whose last operation comes first. -/
def seenAfter (tn : Tuning) : List SeenOp → SeenState
  | [] => ⟨tn, Seen.init⟩
  | op :: hist => (seenAfter tn hist).step op

/-! ## What has happened -/

namespace SeenOp

/-- A change of epoch, or the invalidation of a range with the pc in it. -/
def forgets (pc : Word) : SeenOp → Bool
  | .newEpoch => true
  | .invalidateRange lo hi =>
    decide (lo ≤ hi) && (decide (pageWalkMax <<< pageShift ≤ (hi - lo).toNat) || decide (lo ≤ pc) && decide (pc ≤ hi))
  | _ => false

def misses (pc context : Word) : SeenOp → Bool
  | .miss pc' key => decide (pc' = pc) && decide (ctxFold key = context)
  | _ => false

def declines (pc context : Word) : SeenOp → Bool
  | .decline pc' key => decide (pc' = pc) && decide (ctxFold key = context)
  | _ => false

def evicts (pc context : Word) : SeenOp → Bool
  | .evict pc' key => decide (pc' = pc) && decide (ctxFold key = context)
  | _ => false

end SeenOp

/-- Since what was known of the pc was last forgotten, there was an operation with `p` of it and of what came before. -/
inductive Since (pc : Word) (p : SeenOp → List SeenOp → Prop) : List SeenOp → Prop where
  | now {op : SeenOp} {hist : List SeenOp} (h : p op hist) : Since pc p (op :: hist)
  | later {op : SeenOp} {hist : List SeenOp} (hop : op.forgets pc = false) (h : Since pc p hist) : Since pc p (op :: hist)

theorem Since.mono {pc : Word} {p q : SeenOp → List SeenOp → Prop} {hist : List SeenOp} (h : Since pc p hist)
    (hpq : ∀ op hist, p op hist → q op hist) : Since pc q hist := by
  induction h with
  | now h => exact .now (hpq _ _ h)
  | later hop _ ih => exact .later hop ih

/-- How often the pc has been evicted since then. -/
def evictedSince (pc context : Word) : List SeenOp → Nat
  | [] => 0
  | op :: hist => if op.forgets pc then 0 else evictedSince pc context hist + (op.evicts pc context).toNat

/-- The operation evicts the pc, for at least the number of times that the threshold then asks for. -/
def Thrashes (tn : Tuning) (pc context : Word) (op : SeenOp) (hist : List SeenOp) : Prop :=
  op.evicts pc context = true ∧ 0 < (seenAfter tn hist).tuning.thrashEvictions ∧
    (seenAfter tn hist).tuning.thrashEvictions ≤ evictedSince pc context (op :: hist)

/-! ## Answers -/

inductive Answer where
  | misses (n : Nat)
  | evictions (n : Nat)
  | thrash
  | declined
  deriving DecidableEq

namespace Answer

/-- How the table has it in a tag. -/
def byte : Answer → Nat
  | misses n => n
  | evictions n => seenEvicted ||| n
  | thrash => seenThrash
  | declined => seenDeclined

/-- The counts are short enough for their part of the byte. -/
def Fits : Answer → Prop
  | misses n => 1 ≤ n ∧ n < 0x7F
  | evictions n => n < 0x7D
  | thrash | declined => True

/-- What the answer says has happened. -/
def Backed (tn : Tuning) (pc context : Word) (hist : List SeenOp) : Answer → Prop
  | misses _ => Since pc (fun op _ => op.misses pc context = true) hist
  | evictions n => Since pc (fun op _ => op.evicts pc context = true) hist ∧ n ≤ evictedSince pc context hist
  | thrash => Since pc (Thrashes tn pc context) hist
  | declined => Since pc (fun op _ => op.declines pc context = true) hist

theorem byte_evictions {n : Nat} (h : n < 0x7D) : (evictions n).byte = 128 + n := by
  have hor := Nat.two_pow_add_eq_or_of_lt (i := 7) (b := n) (by omega) 1
  exact hor.symm

/-- How a byte is read: the marks, the bit of the eviction counts, and else a count of misses. -/
def ofByte (v : Nat) : Answer :=
  if v = seenDeclined then declined
  else if v = seenThrash then thrash
  else if seenEvicted ≤ v then evictions (v - seenEvicted)
  else misses v

/-- The four kinds of answer share no byte. -/
theorem ofByte_byte {a : Answer} (h : a.Fits) : ofByte a.byte = a := by
  cases a with
  | misses n =>
    have hlt : n < 127 := h.2
    rw [byte, ofByte, if_neg (by unfold seenDeclined; omega), if_neg (by unfold seenThrash; omega),
      if_neg (by unfold seenEvicted; omega)]
  | evictions n =>
    have hlt : n < 125 := h
    rw [byte_evictions h, ofByte, if_neg (by unfold seenDeclined; omega), if_neg (by unfold seenThrash; omega),
      if_pos (by unfold seenEvicted; omega), seenEvicted, Nat.add_sub_cancel_left]
  | thrash => rfl
  | declined => rfl

theorem byte_lt {a : Answer} (h : a.Fits) : a.byte < 256 := by
  cases a with
  | misses n => exact Nat.lt_trans h.2 (by decide)
  | evictions n =>
    have hlt : n < 125 := h
    rw [byte_evictions h]
    omega
  | thrash => decide
  | declined => decide

/-- An operation that does not forget the pc takes nothing back. -/
theorem Backed.later {tn : Tuning} {pc context : Word} {hist : List SeenOp} {op : SeenOp} {a : Answer}
    (h : a.Backed tn pc context hist) (hop : op.forgets pc = false) : a.Backed tn pc context (op :: hist) := by
  cases a with
  | misses n => exact Since.later hop h
  | evictions n =>
    refine ⟨h.1.later hop, h.2.trans ?_⟩
    rw [evictedSince, hop]
    exact Nat.le_add_right ..
  | thrash => exact Since.later hop h
  | declined => exact Since.later hop h

end Answer

/-! ## The table -/

namespace Seen

variable {s : Seen} {k : Nat} {pc context : Word}

theorem tag_and (epoch : Nat) {v : Nat} (hv : v < 256) : (epoch <<< 8 ||| v) &&& 0xFF = v := by
  rw [Nat.shiftLeft_eq, Nat.mul_comm, ← Nat.two_pow_add_eq_or_of_lt (i := 8) hv, Nat.and_two_pow_sub_one_eq_mod _ 8,
    Nat.mul_add_mod, Nat.mod_eq_of_lt hv]

/-- What is set is answered, and every other slot answers as before. -/
theorem get_set (s : Seen) (k : Nat) (pc context : Word) {v : Nat} (hv : v < 256) (j : Nat) (pc' context' : Word) :
    (s.set k pc context v).get j pc' context' =
      if j = k then if pc = pc' ∧ context = context' then v else 0 else s.get j pc' context' := by
  by_cases hj : j = k
  · subst hj
    rw [if_pos rfl]
    simp only [get, set, Function.update_self, tag_shiftRight s.epoch hv, tag_and s.epoch hv, ne_eq, not_true_eq_false,
      false_or]
    by_cases h : pc = pc' ∧ context = context'
    · rw [if_pos h, if_neg (by simp [h])]
    · rw [if_neg h, if_pos (by tauto)]
  · rw [if_neg hj]
    simp only [get, set, Function.update_of_ne hj]

theorem Ok.invalidateRange {lo hi : Word} (h : s.Ok) : (s.invalidateRange lo hi).Ok := by
  rw [Seen.invalidateRange]
  split_ifs
  · exact h
  · exact h.invalidate
  · exact h.forgetRange

end Seen

theorem Seen.Ok.step {s : SeenState} (h : s.seen.Ok) (op : SeenOp) : (s.step op).seen.Ok := by
  cases op with
  | miss pc key => exact h.heatBump
  | decline pc key => exact h.negNote
  | compact => exact h.marksLeft _
  | evict pc key => exact h.evictNote
  | setHot n => exact h
  | setThrash n => exact h
  | invalidateRange lo hi => exact h.invalidateRange
  | newEpoch => exact h.invalidate

theorem ok_seenAfter (tn : Tuning) (hist : List SeenOp) : (seenAfter tn hist).seen.Ok := by
  induction hist with
  | nil => exact Seen.init_ok
  | cons op hist ih => exact ih.step op

/-- Every answer of the table is one of the four, and has happened. -/
def Told (tn : Tuning) (hist : List SeenOp) (s : Seen) : Prop :=
  ∀ k pc context, s.get k pc context = 0 ∨
    ∃ a : Answer, s.get k pc context = a.byte ∧ a.Fits ∧ a.Backed tn pc context hist

namespace Told

variable {tn : Tuning} {hist : List SeenOp} {s s' : Seen} {op : SeenOp}

/-- An operation that sets nothing may forget, and has to forget the pcs that it says. -/
theorem mono (h : Told tn hist s)
    (hget : ∀ k pc context, s'.get k pc context = 0 ∨
      op.forgets pc = false ∧ s'.get k pc context = s.get k pc context) : Told tn (op :: hist) s' := by
  intro k pc context
  rcases hget k pc context with hzero | ⟨hop, heq⟩
  · exact .inl hzero
  · rw [heq]
    refine (h k pc context).imp_right ?_
    rintro ⟨a, hbyte, hfits, hbacked⟩
    exact ⟨a, hbyte, hfits, hbacked.later hop⟩

theorem later (h : Told tn hist s) (hop : ∀ pc, op.forgets pc = false) : Told tn (op :: hist) s :=
  h.mono fun _ pc _ => .inr ⟨hop pc, rfl⟩

/-- An answer that is set has to have happened. -/
theorem set (h : Told tn hist s) (hop : ∀ pc, op.forgets pc = false) {k : Nat} {pc context : Word} (a : Answer)
    (hfits : a.Fits) (hbacked : a.Backed tn pc context (op :: hist)) :
    Told tn (op :: hist) (s.set k pc context a.byte) := by
  intro j pc' context'
  rw [s.get_set k pc context (Answer.byte_lt hfits)]
  split_ifs with hj heq
  · obtain ⟨rfl, rfl⟩ := heq
    exact .inr ⟨a, rfl, hfits, hbacked⟩
  · exact .inl rfl
  · exact h.later hop j pc' context'

/-- The count that an eviction goes on with is at most that of the evictions there have been. -/
theorem evictions_le {k : Nat} {pc context : Word} (h : Told tn hist s)
    (hdeclined : s.get k pc context ≠ seenDeclined) (hthrash : s.get k pc context ≠ seenThrash) :
    1 ≤ Seen.evictions (s.get k pc context) ∧ Seen.evictions (s.get k pc context) ≤ 0x7D ∧
      Seen.evictions (s.get k pc context) ≤ evictedSince pc context hist + 1 := by
  rcases h k pc context with hzero | ⟨a, hbyte, hfits, hbacked⟩
  · rw [hzero]
    exact ⟨by decide, by decide, Nat.le_add_left ..⟩
  rw [hbyte] at hdeclined hthrash ⊢
  cases a with
  | misses n =>
    have hone : ∀ n < 127, Seen.evictions n = 1 := by decide
    rw [Answer.byte, hone n hfits.2]
    exact ⟨Nat.le_refl 1, by decide, Nat.le_add_left ..⟩
  | evictions n =>
    have hsucc : ∀ n < 125, Seen.evictions (seenEvicted ||| n) = n + 1 := by decide
    rw [Answer.byte, hsucc n hfits]
    exact ⟨Nat.le_add_left .., hfits, Nat.succ_le_succ hbacked.2⟩
  | thrash => exact absurd rfl hthrash
  | declined => exact absurd rfl hdeclined

theorem miss (h : Told tn hist s) (tn' : Tuning) (pc : Word) (key : BitVec 64) :
    Told tn (.miss pc key :: hist) (s.heatBump tn' pc key).2 := by
  have hle := tn'.hotThreshold_le
  rw [Seen.heatBump]
  dsimp only
  split
  · exact h.later fun _ => rfl
  split
  · exact h.later fun _ => rfl
  · exact h.set (fun _ => rfl) (.misses _) ⟨Nat.le_add_left .., by omega⟩ (.now (by simp [SeenOp.misses]))

theorem decline (h : Told tn hist s) (pc : Word) (key : BitVec 64) :
    Told tn (.decline pc key :: hist) (s.negNote pc key) :=
  h.set (fun _ => rfl) .declined trivial (.now (by simp [SeenOp.declines]))

theorem evict (h : Told tn hist (seenAfter tn hist).seen) (pc : Word) (key : BitVec 64) :
    Told tn (.evict pc key :: hist) ((seenAfter tn hist).seen.evictNote (seenAfter tn hist).tuning pc key) := by
  have hle := (seenAfter tn hist).tuning.thrashEvictions_le
  have hevicts : SeenOp.evicts pc (ctxFold key) (.evict pc key) = true := by simp [SeenOp.evicts]
  have hcount : evictedSince pc (ctxFold key) (.evict pc key :: hist) = evictedSince pc (ctxFold key) hist + 1 := by
    rw [evictedSince, hevicts]
    rfl
  rw [Seen.evictNote]
  dsimp only
  split_ifs with hoff hmark hthrash hlimit
  · exact h.later fun _ => rfl
  · exact h.later fun _ => rfl
  all_goals obtain ⟨hpos, hmax, hsince⟩ := h.evictions_le (fun hv => hmark (.inl hv)) (fun hv => hmark (.inr hv))
  all_goals rw [← hcount] at hsince
  · have hbacked : Thrashes tn pc (ctxFold key) (.evict pc key) hist :=
      ⟨hevicts, Nat.pos_of_ne_zero hoff, hthrash.1.trans hsince⟩
    exact Told.set (h : Told tn hist { (seenAfter tn hist).seen with marksLeft := _ }) (fun _ => rfl) .thrash trivial
      (.now hbacked)
  · exact h.set (fun _ => rfl) (.evictions _) (show _ < 0x7D by omega) ⟨.now hevicts, by omega⟩
  · exact h.set (fun _ => rfl) (.evictions _) (show _ < 0x7D by omega) ⟨.now hevicts, hsince⟩

theorem invalidateRange (h : Told tn hist s) (hs : s.Ok) (lo hi : Word) :
    Told tn (.invalidateRange lo hi :: hist) (s.invalidateRange lo hi) := by
  refine h.mono fun k pc context => ?_
  rw [Seen.invalidateRange, SeenOp.forgets]
  split_ifs with hempty hwide
  · exact .inr ⟨by rw [decide_eq_false (BitVec.not_le.mpr hempty), Bool.false_and], rfl⟩
  · exact .inl (hs.get_invalidate k pc context)
  · rw [hs.get_forgetRange]
    split_ifs with hin
    · exact .inl rfl
    · refine .inr ⟨?_, rfl⟩
      have hout : ¬(lo ≤ pc ∧ pc ≤ hi) := by
        rintro ⟨hlo, hhi⟩
        exact hin (by bv_omega)
      simp only [decide_eq_false hwide, Bool.false_or, Bool.and_eq_false_iff, decide_eq_false_iff_not]
      tauto

end Told

theorem told_seenAfter (tn : Tuning) (hist : List SeenOp) : Told tn hist (seenAfter tn hist).seen := by
  induction hist with
  | nil => exact fun k pc context => .inl (if_pos (.inl (by simp [seenAfter, Seen.init])))
  | cons op hist ih =>
    have hok := ok_seenAfter tn hist
    cases op with
    | miss pc key => exact ih.miss _ pc key
    | decline pc key => exact ih.decline pc key
    | compact => exact ih.later fun _ => rfl
    | evict pc key => exact ih.evict pc key
    | setHot n => exact ih.later fun _ => rfl
    | setThrash n => exact ih.later fun _ => rfl
    | invalidateRange lo hi => exact ih.invalidateRange hok lo hi
    | newEpoch => exact ih.mono fun k pc context => .inl (hok.get_invalidate k pc context)

/-- What `seen_of` answers after any history, whatever the thresholds were at first: a pc is declined, or thrashing, only if
it was declined, or evicted as often as the threshold asked, since it was last forgotten; an answer that is none of the two
is one count of one kind; and an answer at all is one to an operation on the same pc and context since then, so that none is
of an epoch before. -/
theorem seen_answers (tn : Tuning) (hist : List SeenOp) (pc : Word) (key : BitVec 64) :
    ((seenAfter tn hist).seen.of pc key = seenDeclined →
      Since pc (fun op _ => op.declines pc (ctxFold key) = true) hist) ∧
    ((seenAfter tn hist).seen.of pc key = seenThrash → Since pc (Thrashes tn pc (ctxFold key)) hist) ∧
    ((seenAfter tn hist).seen.of pc key ≠ 0 →
      ∃! a : Answer, a.Fits ∧ (seenAfter tn hist).seen.of pc key = a.byte ∧ a.Backed tn pc (ctxFold key) hist) ∧
    ((seenAfter tn hist).seen.of pc key ≠ 0 →
      Since pc (fun op _ => op.misses pc (ctxFold key) = true ∨ op.evicts pc (ctxFold key) = true ∨
        op.declines pc (ctxFold key) = true) hist) := by
  have htold := told_seenAfter tn hist (negSlot pc (ctxFold key)) pc (ctxFold key)
  rw [← Seen.of] at htold
  generalize (seenAfter tn hist).seen.of pc key = v at htold ⊢
  rcases htold with rfl | ⟨a, rfl, hfits, hbacked⟩
  · exact ⟨fun h => absurd h (by decide), fun h => absurd h (by decide), fun h => absurd rfl h, fun h => absurd rfl h⟩
  refine ⟨fun h => ?_, fun h => ?_, fun _ => ⟨a, ⟨hfits, rfl, hbacked⟩, fun b hb => ?_⟩, fun _ => ?_⟩
  · obtain rfl : a = .declined := by rw [← Answer.ofByte_byte hfits, h]; rfl
    exact hbacked
  · obtain rfl : a = .thrash := by rw [← Answer.ofByte_byte hfits, h]; rfl
    exact hbacked
  · rw [← Answer.ofByte_byte hb.1, ← hb.2.1, Answer.ofByte_byte hfits]
  · cases a with
    | misses n => exact Since.mono hbacked fun _ _ h => .inl h
    | evictions n => exact hbacked.1.mono fun _ _ h => .inr (.inl h)
    | thrash => exact Since.mono hbacked fun _ _ h => .inr (.inl h.1)
    | declined => exact Since.mono hbacked fun _ _ h => .inr (.inr h)

end Emu.Jit
