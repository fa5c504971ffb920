-- SUMMARY: The up timers: which compare values a slice passes and which interrupts it asks for, against a timer that compares after every count.
import Emu.G4mh.Tptm

/-! # The up timers

A slice finds the compare values that a counter passes by a test of an interval, in the order of the registers. The
counters and the flags come out as if each count had been compared. With UICFG set an interrupt is asked for only while
no flag is up, so of the values a slice passes it is the first in the order of the registers, and not the first in time,
that is heard of. -/

namespace Emu.G4mh.Tptm.UpTimers

/-! ## Compare values -/

/-- A compare value: the timer and the number. -/
abbrev Key := Fin 2 × Fin 4

/-- The compare values in the order of the loops. -/
def keys : List Key := (List.finRange 2).flatMap fun m => (List.finRange 4).map fun i => (m, i)

def bit (k : Key) : BitVec 16 := BitVec.twoPow 16 (uBit k.1 k.2)

def enabled (u : UpTimers) (k : Key) : Bool := u.uien.getLsbD (uBit k.1 k.2)

/-- The counts after which a counter stands at a compare value, if it is not there now. -/
def dist (u : UpTimers) (k : Key) : Nat := (u.ucmp k.1 k.2 - u.ucnt k.1).toNat

/-- The compare values that so many counts pass. -/
def hits (u : UpTimers) (n : Nat) : List Key :=
  keys.filter fun k => runs u.urun k.1 && 0 < u.dist k && u.dist k ≤ n

theorem mem_keys (k : Key) : k ∈ keys :=
  List.mem_flatMap.mpr ⟨k.1, List.mem_finRange _, List.mem_map.mpr ⟨k.2, List.mem_finRange _, rfl⟩⟩

theorem mem_hits {u : UpTimers} {n : Nat} {k : Key} :
    k ∈ u.hits n ↔ runs u.urun k.1 = true ∧ 0 < u.dist k ∧ u.dist k ≤ n := by
  rw [hits, List.mem_filter, Bool.and_eq_true, Bool.and_eq_true, decide_eq_true_iff, decide_eq_true_iff, and_assoc]
  exact and_iff_right (mem_keys k)

/-- The two comparisons of the interval test. -/
theorem hit_iff {c n cmp : Word} (hn : n ≠ 0) :
    hit c (c + n) cmp = true ↔ 0 < (cmp - c).toNat ∧ (cmp - c).toNat ≤ n.toNat := by
  have hpos : 0 < n.toNat := Nat.pos_of_ne_zero fun h => hn (BitVec.eq_of_toNat_eq h)
  have hc := c.isLt
  have hcmp := cmp.isLt
  have hlt := n.isLt
  rw [hit, BitVec.toNat_sub]
  split_ifs with h
  · rw [BitVec.lt_def, BitVec.toNat_add] at h
    rw [Bool.or_eq_true, decide_eq_true_iff, decide_eq_true_iff, BitVec.lt_def, BitVec.le_def, BitVec.toNat_add]
    omega
  · rw [BitVec.lt_def, BitVec.toNat_add] at h
    rw [Bool.and_eq_true, decide_eq_true_iff, decide_eq_true_iff, BitVec.lt_def, BitVec.le_def, BitVec.toNat_add]
    omega

/-! ## Flags and interrupts -/

/-- The flags once some values have been passed. -/
def flags (ks : List Key) (s : BitVec 16) : BitVec 16 := ks.foldl (fun s k => s ||| bit k) s

/-- The values that are heard of, of those passed in this order: UICFG is clear, or no flag is up. -/
def hear (uicfg : Byte) (uien : BitVec 16) : BitVec 16 → List Key → List Key
  | _, [] => []
  | s, k :: ks =>
    (if (uicfg &&& 1 = 0 || s = 0) && uien.getLsbD (uBit k.1 k.2) then [k] else []) ++ hear uicfg uien (s ||| bit k) ks

def heard (u : UpTimers) (ks : List Key) : List Key := hear u.uicfg u.uien u.ucstr ks

def irq (k : Key) : Irq := .up k.1 k.2

/-- What the loops do for the values that were passed. -/
theorem foldl_passed (u : UpTimers) (ks : List Key) (l : List Irq) :
    ks.foldl (fun r k => passed k.1 r k.2) (u, l) =
      ({ u with ucstr := flags ks u.ucstr }, l ++ (u.heard ks).map irq) := by
  induction ks generalizing u l with
  | nil => simp [flags, heard, hear]
  | cons k ks ih =>
    have hpassed : passed k.1 (u, l) k.2 = ({ u with ucstr := u.ucstr ||| bit k },
        l ++ (if (u.uicfg &&& 1 = 0 || u.ucstr = 0) && u.uien.getLsbD (uBit k.1 k.2) then [k] else []).map irq) := by
      rw [passed]
      dsimp only
      split_ifs
      · rfl
      · rw [List.map_nil, List.append_nil]
        rfl
    rw [List.foldl_cons, hpassed, ih, heard, heard, hear, List.map_append, List.append_assoc]
    rfl

theorem hear_append (uicfg : Byte) (uien s : BitVec 16) (ks ks' : List Key) :
    hear uicfg uien s (ks ++ ks') = hear uicfg uien s ks ++ hear uicfg uien (flags ks s) ks' := by
  induction ks generalizing s with
  | nil => rfl
  | cons k ks ih =>
    rw [List.cons_append, hear, hear, ih, List.append_assoc]
    rfl

/-! ## A slice in closed form -/

/-- The values of one timer that so many counts pass. -/
def hitsOf (u : UpTimers) (n : Nat) (m : Fin 2) : List Key :=
  ((List.finRange 4).filter fun i => runs u.urun m && 0 < u.dist (m, i) && u.dist (m, i) ≤ n).map fun i => (m, i)

theorem hits_eq (u : UpTimers) (n : Nat) : u.hits n = u.hitsOf n 0 ++ u.hitsOf n 1 := by
  have hkeys : keys = (List.finRange 4).map (fun i => ((0 : Fin 2), i)) ++ (List.finRange 4).map fun i => ((1 : Fin 2), i) :=
    rfl
  rw [hits, hkeys, List.filter_append, List.filter_map, List.filter_map]
  rfl

/-- A counter after so many counts. -/
def cntAfter (u : UpTimers) (n : Nat) (m : Fin 2) : Word :=
  if runs u.urun m then u.ucnt m + BitVec.ofNat 32 n else u.ucnt m

/-- The timers after so many counts, with the divider given. -/
def counted (u : UpTimers) (n : Nat) (clock : Divider) : UpTimers :=
  { u with clock := clock, ucnt := u.cntAfter n, ucstr := flags (u.hits n) u.ucstr }

/-- The timers after so many ticks, and the interrupts on the way. -/
def after (u : UpTimers) (t : Nat) : UpTimers × List Irq :=
  if u.urun = 0 then (u, [])
  else
    let n := (u.clock.after t).1
    (u.counted n (u.clock.after t).2, (u.heard (u.hits n)).map irq)

theorem after_stopped {u : UpTimers} (h : u.urun = 0) (t : Nat) : u.after t = (u, []) := if_pos h

theorem after_running {u : UpTimers} (h : u.urun ≠ 0) (t : Nat) :
    u.after t = (u.counted (u.clock.after t).1 (u.clock.after t).2, (u.heard (u.hits (u.clock.after t).1)).map irq) :=
  if_neg h

/-- The loop over the values of a timer. -/
theorem foldl_hit (m : Fin 2) (c c' : Word) (l : List (Fin 4)) (r : UpTimers × List Irq) :
    l.foldl (fun r i => if hit c c' (r.1.ucmp m i) then passed m r i else r) r =
      ((l.filter fun i => hit c c' (r.1.ucmp m i)).map fun i => (m, i)).foldl (fun r k => passed k.1 r k.2) r := by
  rw [List.foldl_map, List.foldl_filter]
  induction l generalizing r with
  | nil => rfl
  | cons i l ih =>
    rw [List.foldl_cons, List.foldl_cons, ih]
    split_ifs <;> rfl

theorem advanceOne_eq (n : Word) (u : UpTimers) (l : List Irq) (m : Fin 2) :
    advanceOne n (u, l) m =
      ({ u with
         ucnt := Function.update u.ucnt m (u.cntAfter n.toNat m)
         ucstr := flags (u.hitsOf n.toNat m) u.ucstr },
        l ++ (u.heard (u.hitsOf n.toNat m)).map irq) := by
  have hof : BitVec.ofNat 32 n.toNat = n := by rw [BitVec.ofNat_toNat, BitVec.setWidth_eq]
  rw [advanceOne]
  by_cases hidle : ¬runs u.urun m = true ∨ n = 0
  · have hcnt : u.cntAfter n.toNat m = u.ucnt m := by
      rw [cntAfter, hof]
      rcases hidle with hstop | rfl
      · exact if_neg hstop
      · exact (if_congr Iff.rfl (BitVec.add_zero _) rfl).trans (ite_self _)
    have hhits : u.hitsOf n.toNat m = [] := by
      rw [hitsOf, List.map_eq_nil_iff, List.filter_eq_nil_iff]
      intro i _ hi
      rw [Bool.and_eq_true, Bool.and_eq_true, decide_eq_true_iff, decide_eq_true_iff] at hi
      obtain ⟨⟨hrun, hpos⟩, hle⟩ := hi
      rcases hidle with hstop | rfl
      · exact hstop hrun
      · exact absurd (hpos.trans_le hle) (by decide)
    rw [if_pos hidle, hhits, hcnt, Function.update_eq_self]
    change _ = (_, l ++ [])
    rw [List.append_nil]
    rfl
  · obtain ⟨hrun, hn⟩ := not_or.mp hidle
    rw [not_not] at hrun
    have hcnt : u.cntAfter n.toNat m = u.ucnt m + n := by rw [cntAfter, if_pos hrun, hof]
    have hhits : ((List.finRange 4).filter fun i => hit (u.ucnt m) (u.ucnt m + n) (u.ucmp m i)).map (fun i => (m, i)) =
        u.hitsOf n.toNat m := by
      rw [hitsOf]
      congr 1
      refine List.filter_congr fun i _ => ?_
      rw [Bool.eq_iff_iff, hit_iff hn, hrun, Bool.true_and, Bool.and_eq_true, decide_eq_true_iff, decide_eq_true_iff]
      exact Iff.rfl
    rw [if_neg hidle]
    dsimp only
    rw [foldl_hit, hcnt]
    dsimp only
    rw [hhits, foldl_passed]
    rfl

theorem advance_eq (u : UpTimers) (ticks : Word) : u.advance ticks = u.after ticks.toNat := by
  rw [advance, after]
  by_cases h : u.urun = 0
  · rw [if_pos h, if_pos h]
  · have hnum := u.clock.toNat_steps ticks
    have hclock : (u.clock.steps ticks).2 = (u.clock.after ticks.toNat).2 := by rw [Divider.steps_eq]
    rw [if_neg h, if_neg h, ← hnum, ← hclock]
    generalize u.clock.steps ticks = r
    obtain ⟨n, clock⟩ := r
    have hboth : Function.update (Function.update u.ucnt 0 (u.cntAfter n.toNat 0)) 1 (u.cntAfter n.toNat 1) =
        u.cntAfter n.toNat := by
      funext m
      match m with
      | 0 => rfl
      | 1 => rfl
    change advanceOne n (advanceOne n ({ u with clock := clock }, []) 0) 1 = _
    rw [advanceOne_eq, advanceOne_eq]
    change ({ u with
        clock := clock
        ucnt := Function.update (Function.update u.ucnt 0 (u.cntAfter n.toNat 0)) 1 (u.cntAfter n.toNat 1)
        ucstr := flags (u.hitsOf n.toNat 1) (flags (u.hitsOf n.toNat 0) u.ucstr) }, _) = _
    rw [hboth]
    refine Prod.ext ?_ ?_
    · dsimp only
      rw [counted, hits_eq, flags, flags, flags, List.foldl_append]
    · dsimp only
      rw [hits_eq, heard, heard, heard, hear_append, List.map_append, List.nil_append]
      rfl

/-! ## Two slices -/

theorem getLsbD_flags (ks : List Key) (s : BitVec 16) (j : Nat) :
    (flags ks s).getLsbD j = (s.getLsbD j || ks.any fun k => (bit k).getLsbD j) := by
  induction ks generalizing s with
  | nil => rw [List.any_nil, Bool.or_false, flags, List.foldl_nil]
  | cons k ks ih =>
    rw [flags, List.foldl_cons, ← flags, ih, BitVec.getLsbD_or, List.any_cons, Bool.or_assoc]

theorem bit_ne_zero (k : Key) : bit k ≠ 0 := by
  have hlt : uBit k.1 k.2 < 16 := by
    rw [uBit]
    omega
  intro h
  have hbit := congrArg (BitVec.getLsbD · (uBit k.1 k.2)) h
  simp [bit, hlt] at hbit

theorem flags_eq_zero {ks : List Key} {s : BitVec 16} : flags ks s = 0 ↔ s = 0 ∧ ks = [] := by
  induction ks generalizing s with
  | nil => exact ⟨fun h => ⟨h, rfl⟩, And.left⟩
  | cons k ks ih =>
    rw [flags, List.foldl_cons, ← flags, ih]
    refine iff_of_false (fun h => ?_) fun h => absurd h.2 (List.cons_ne_nil _ _)
    exact bit_ne_zero k (BitVec.or_eq_zero_iff.mp h.1).2

theorem hits_mono (u : UpTimers) {n n' : Nat} (h : n ≤ n') {k : Key} (hk : k ∈ u.hits n) : k ∈ u.hits n' := by
  rw [mem_hits] at hk ⊢
  exact ⟨hk.1, hk.2.1, hk.2.2.trans h⟩

/-- What a second slice passes is what both pass and the first does not. -/
theorem mem_hits_counted {u : UpTimers} {n n' : Nat} (h : n + n' < 2 ^ 32) (clock : Divider) {k : Key} :
    k ∈ (u.counted n clock).hits n' ↔ k ∈ u.hits (n + n') ∧ k ∉ u.hits n := by
  rw [mem_hits, mem_hits, mem_hits]
  change runs u.urun k.1 = true ∧ _ ↔ _
  by_cases hrun : runs u.urun k.1 = true
  · have hdist : (u.counted n clock).dist k = (u.ucmp k.1 k.2 - (u.ucnt k.1 + BitVec.ofNat 32 n)).toNat := by
      change (u.ucmp k.1 k.2 - u.cntAfter n k.1).toNat = _
      rw [cntAfter, if_pos hrun]
    simp only [hrun, true_and]
    rw [hdist, dist, BitVec.toNat_sub, BitVec.toNat_sub, BitVec.toNat_add, BitVec.toNat_ofNat]
    have hcmp := (u.ucmp k.1 k.2).isLt
    have hcnt := (u.ucnt k.1).isLt
    omega
  · exact iff_of_false (fun hk => hrun hk.1) fun hk => hrun hk.1.1

/-- The counters and the flags do not tell how the counts were split. -/
theorem counted_counted {u : UpTimers} {n n' : Nat} (h : n + n' < 2 ^ 32) (clock clock' : Divider) :
    (u.counted n clock).counted n' clock' = u.counted (n + n') clock' := by
  have hcnt : (u.counted n clock).cntAfter n' = u.cntAfter (n + n') := by
    funext m
    change (if runs u.urun m then u.cntAfter n m + _ else u.cntAfter n m) = _
    rw [cntAfter, cntAfter]
    split_ifs
    · rw [BitVec.add_assoc, ← BitVec.ofNat_add]
    · rfl
  have hflags : flags ((u.counted n clock).hits n') (flags (u.hits n) u.ucstr) = flags (u.hits (n + n')) u.ucstr := by
    apply BitVec.eq_of_getLsbD_eq
    intro j _
    rw [getLsbD_flags, getLsbD_flags, getLsbD_flags, Bool.or_assoc]
    congr 1
    rw [Bool.eq_iff_iff, Bool.or_eq_true, List.any_eq_true, List.any_eq_true, List.any_eq_true]
    constructor
    · rintro (⟨k, hk, hbit⟩ | ⟨k, hk, hbit⟩)
      · exact ⟨k, hits_mono u (Nat.le_add_right ..) hk, hbit⟩
      · exact ⟨k, ((mem_hits_counted h clock).mp hk).1, hbit⟩
    · rintro ⟨k, hk, hbit⟩
      by_cases hfirst : k ∈ u.hits n
      · exact .inl ⟨k, hfirst, hbit⟩
      · exact .inr ⟨k, (mem_hits_counted h clock).mpr ⟨hk, hfirst⟩, hbit⟩
  change { u with clock := clock', ucnt := _, ucstr := flags _ (flags (u.hits n) u.ucstr) } = _
  rw [hflags, hcnt]
  rfl

/-- Nothing is passed without a timer that runs. -/
theorem hits_of_stopped {u : UpTimers} (h : u.urun = 0) (n : Nat) : u.hits n = [] := by
  rw [List.eq_nil_iff_forall_not_mem]
  intro k hk
  have hrun := (mem_hits.mp hk).1
  rw [runs, h] at hrun
  exact absurd hrun (by simp)

/-! ## What is heard of -/

theorem hear_open {uicfg : Byte} (h : uicfg &&& 1 = 0) (uien s : BitVec 16) (ks : List Key) :
    hear uicfg uien s ks = ks.filter fun k => uien.getLsbD (uBit k.1 k.2) := by
  induction ks generalizing s with
  | nil => rfl
  | cons k ks ih =>
    rw [hear, ih, List.filter_cons, decide_eq_true h, Bool.true_or, Bool.true_and]
    split_ifs <;> rfl

theorem hear_shut {uicfg : Byte} (h : uicfg &&& 1 ≠ 0) (uien : BitVec 16) {s : BitVec 16} (hs : s ≠ 0) (ks : List Key) :
    hear uicfg uien s ks = [] := by
  induction ks generalizing s with
  | nil => rfl
  | cons k ks ih =>
    have hnext : s ||| bit k ≠ 0 := fun h0 => hs (BitVec.or_eq_zero_iff.mp h0).1
    rw [hear, ih hnext, decide_eq_false h, decide_eq_false hs]
    rfl

/-- With no flag up, the first value is heard of, if it is enabled. -/
theorem hear_first {uicfg : Byte} (h : uicfg &&& 1 ≠ 0) (uien : BitVec 16) (ks : List Key) :
    hear uicfg uien 0 ks = (ks.head?.filter fun k => uien.getLsbD (uBit k.1 k.2)).toList := by
  cases ks with
  | nil => rfl
  | cons k ks =>
    have hnext : (0 : BitVec 16) ||| bit k ≠ 0 := fun h0 => bit_ne_zero k (BitVec.or_eq_zero_iff.mp h0).2
    rw [hear, hear_shut h uien hnext, List.append_nil, decide_eq_false h, decide_eq_true rfl, List.head?_cons]
    cases hen : uien.getLsbD (uBit k.1 k.2) <;> simp [Option.filter, hen]

/-- The value that is heard of where so many counts are compared at once with no flag up and UICFG set. -/
def first (u : UpTimers) (n : Nat) : Option Key := (u.hits n).head?.filter u.enabled

/-- Comparing after `n'` counts and later is heard the same as comparing at once after `n`. -/
def Agrees (u : UpTimers) (n' n : Nat) : Prop :=
  u.uicfg &&& 1 = 0 ∨ u.ucstr ≠ 0 ∨ u.hits n' = [] ∨ u.first n' = u.first n

theorem heard_open {u : UpTimers} (h : u.uicfg &&& 1 = 0) (ks : List Key) : u.heard ks = ks.filter u.enabled :=
  hear_open h ..

theorem heard_shut {u : UpTimers} (h : u.uicfg &&& 1 ≠ 0) (hs : u.ucstr ≠ 0) (ks : List Key) : u.heard ks = [] :=
  hear_shut h _ hs _

theorem heard_hits {u : UpTimers} (h : u.uicfg &&& 1 ≠ 0) (hs : u.ucstr = 0) (n : Nat) :
    u.heard (u.hits n) = (u.first n).toList := by
  rw [heard, hs, hear_first h]
  rfl

/-- What a second slice is heard of: with UICFG set, of nothing if the first passed a value. -/
theorem heard_counted {u : UpTimers} {n n' : Nat} (h : n + n' < 2 ^ 32) (clock : Divider)
    (hcfg : u.uicfg &&& 1 ≠ 0) (hs : u.ucstr = 0) :
    (u.counted n clock).heard ((u.counted n clock).hits n') =
      if u.hits n = [] then (u.first (n + n')).toList else [] := by
  change hear u.uicfg u.uien (flags (u.hits n) u.ucstr) _ = _
  split_ifs with hnone
  · have hsame : (u.counted n clock).hits n' = u.hits (n + n') := by
      rw [hits, hits]
      refine List.filter_congr fun k _ => ?_
      have hmem := @mem_hits_counted u n n' h clock k
      rw [mem_hits, mem_hits, hnone] at hmem
      simp only [List.not_mem_nil, not_false_eq_true, and_true] at hmem
      rw [Bool.eq_iff_iff, Bool.and_eq_true, Bool.and_eq_true, Bool.and_eq_true, Bool.and_eq_true, decide_eq_true_iff,
        decide_eq_true_iff, decide_eq_true_iff, decide_eq_true_iff, and_assoc, and_assoc]
      exact hmem
    rw [hsame, hnone, hs, flags, List.foldl_nil, hear_first hcfg]
    rfl
  · exact hear_shut hcfg _ (fun h0 => hnone (flags_eq_zero.mp h0).2) _

theorem mem_toList_iff {o o' : Option Key} : (∀ k, k ∈ o.toList ↔ k ∈ o'.toList) ↔ o = o' := by
  constructor
  · intro h
    ext k
    rw [← Option.mem_toList, ← Option.mem_toList, h]
  · rintro rfl k
    exact Iff.rfl

/-- Two slices are heard as one exactly if the first of both is the first of the first, or neither is enabled. -/
theorem heard_split {u : UpTimers} {n n' : Nat} (h : n + n' < 2 ^ 32) (clock : Divider) :
    (∀ k, k ∈ u.heard (u.hits (n + n')) ↔
        k ∈ u.heard (u.hits n) ++ (u.counted n clock).heard ((u.counted n clock).hits n')) ↔
      u.Agrees n (n + n') := by
  by_cases hcfg : u.uicfg &&& 1 = 0
  · refine iff_of_true (fun k => ?_) (.inl hcfg)
    have hcfg' : (u.counted n clock).uicfg &&& 1 = 0 := hcfg
    rw [heard_open hcfg, heard_open hcfg, heard_open hcfg', List.mem_append, List.mem_filter, List.mem_filter,
      List.mem_filter, mem_hits_counted h]
    have hmono := @hits_mono u n (n + n') (Nat.le_add_right ..) k
    change _ ∧ u.enabled k = true ↔ _ ∨ _ ∧ u.enabled k = true
    tauto
  · by_cases hs : u.ucstr = 0
    · rw [heard_hits hcfg hs, heard_hits hcfg hs, heard_counted h clock hcfg hs, Agrees]
      by_cases hnone : u.hits n = []
      · have hfirst : u.first n = none := by rw [first, hnone]; rfl
        rw [if_pos hnone, hfirst]
        exact iff_of_true (fun k => Iff.rfl) (.inr (.inr (.inl hnone)))
      · rw [if_neg hnone, List.append_nil, mem_toList_iff]
        simp only [hcfg, hs, hnone, ne_eq, not_true_eq_false, false_or]
        exact eq_comm
    · have hs' : (u.counted n clock).ucstr ≠ 0 := fun h0 => hs (flags_eq_zero.mp h0).1
      have hcfg' : (u.counted n clock).uicfg &&& 1 ≠ 0 := hcfg
      rw [heard_shut hcfg hs, heard_shut hcfg hs, heard_shut hcfg' hs']
      exact iff_of_true (fun k => Iff.rfl) (.inr (.inl hs))

/-! ## A timer that compares after every count -/

/-- A count: the timers that run go up by one, and each value that a counter then stands at is passed. -/
def count (u : UpTimers) : UpTimers × List Irq :=
  let u := { u with ucnt := fun m => if runs u.urun m then u.ucnt m + 1 else u.ucnt m }
  (keys.filter fun k => runs u.urun k.1 && u.ucmp k.1 k.2 = u.ucnt k.1).foldl (fun r k => passed k.1 r k.2) (u, [])

/-- A single tick of the processor clock. -/
def tick (u : UpTimers) : UpTimers × List Irq :=
  if u.urun = 0 then (u, [])
  else
    let u' := { u with clock := u.clock.tick.2 }
    if u.clock.tick.1 then u'.count else (u', [])

/-- So many ticks, with all the interrupts. -/
def ticks (u : UpTimers) : Nat → UpTimers × List Irq
  | 0 => (u, [])
  | t + 1 => ((u.ticks t).1.tick.1, (u.ticks t).2 ++ (u.ticks t).1.tick.2)

theorem hits_zero (u : UpTimers) : u.hits 0 = [] := by
  rw [List.eq_nil_iff_forall_not_mem]
  intro k hk
  have := mem_hits.mp hk
  omega

theorem counted_zero (u : UpTimers) (clock : Divider) : u.counted 0 clock = { u with clock := clock } := by
  have hcnt : u.cntAfter 0 = u.ucnt := by
    funext m
    exact (if_congr Iff.rfl (BitVec.add_zero _) rfl).trans (ite_self _)
  rw [counted, hcnt, hits_zero, flags, List.foldl_nil]

/-- The values a count passes are those one away. -/
theorem hits_one (u : UpTimers) :
    u.hits 1 = keys.filter fun k => runs u.urun k.1 && u.ucmp k.1 k.2 = u.cntAfter 1 k.1 := by
  rw [hits]
  refine List.filter_congr fun k _ => ?_
  rw [Bool.and_assoc]
  cases hrun : runs u.urun k.1
  · rfl
  · have hone : 0 < u.dist k ∧ u.dist k ≤ 1 ↔ u.ucmp k.1 k.2 = u.ucnt k.1 + 1 := by
      rw [dist]
      generalize u.ucmp k.1 k.2 = x
      generalize u.ucnt k.1 = y
      constructor
      · intro h
        bv_omega
      · rintro rfl
        bv_omega
    rw [Bool.true_and, Bool.true_and, Bool.eq_iff_iff, Bool.and_eq_true, decide_eq_true_iff, decide_eq_true_iff,
      decide_eq_true_iff, hone, cntAfter, if_pos hrun]
    exact Iff.rfl

theorem count_eq (u : UpTimers) : u.count = (u.counted 1 u.clock, (u.heard (u.hits 1)).map irq) := by
  have hcount : u.count =
      (keys.filter fun k => runs u.urun k.1 && u.ucmp k.1 k.2 = u.cntAfter 1 k.1).foldl (fun r k => passed k.1 r k.2)
        ({ u with ucnt := u.cntAfter 1 }, []) := rfl
  rw [hcount, ← hits_one, foldl_passed, List.nil_append]
  rfl

/-- A slice of one tick compares after its count, if it has one. -/
theorem tick_eq (u : UpTimers) : u.tick = u.after 1 := by
  rw [tick, after, Divider.after_one]
  dsimp only
  split_ifs
  · rfl
  · exact count_eq { u with clock := u.clock.tick.2 }
  · rw [counted_zero, hits_zero]
    rfl

/-- The count at which the first value is passed, if one is. -/
def firstCount (u : UpTimers) : Nat → Nat
  | 0 => 0
  | n + 1 => if u.hits n = [] then n + 1 else u.firstCount n

theorem hits_eq_nil_of_le {u : UpTimers} {n n' : Nat} (h : n' ≤ n) (hnone : u.hits n = []) : u.hits n' = [] := by
  rw [List.eq_nil_iff_forall_not_mem]
  intro k hk
  have hmem := hits_mono u h hk
  rw [hnone] at hmem
  exact absurd hmem List.not_mem_nil

theorem hits_firstCount {u : UpTimers} {n : Nat} : u.hits (u.firstCount n) = [] ↔ u.hits n = [] := by
  induction n with
  | zero => exact Iff.rfl
  | succ n ih =>
    rw [firstCount]
    split_ifs with hnone
    · exact Iff.rfl
    · refine iff_of_false (fun h => hnone (ih.mp h)) fun h => hnone (hits_eq_nil_of_le (Nat.le_succ n) h)

theorem counts_lt (d : Divider) {a b : Nat} (h : a + b < 2 ^ 32) : (d.after a).1 + ((d.after a).2.after b).1 < 2 ^ 32 := by
  have hle := d.after_fst_le (a + b)
  rw [Divider.after_add] at hle
  exact hle.trans_lt h

/-- The counters, the flags and the divider do not tell how the ticks were split. -/
theorem after_after {u : UpTimers} {a b : Nat} (h : a + b < 2 ^ 32) : ((u.after a).1.after b).1 = (u.after (a + b)).1 := by
  by_cases hrun : u.urun = 0
  · rw [after_stopped hrun, after_stopped hrun, after_stopped hrun]
  · have hrun' : (u.counted (u.clock.after a).1 (u.clock.after a).2).urun ≠ 0 := hrun
    rw [after_running hrun, after_running hrun', after_running hrun, Divider.after_add]
    exact counted_counted (counts_lt u.clock h) ..

theorem ticks_fst {u : UpTimers} {t : Nat} (h : t < 2 ^ 32) : (u.ticks t).1 = (u.after t).1 := by
  induction t with
  | zero =>
    rw [ticks, after, Divider.after_zero]
    split_ifs
    · rfl
    · exact (counted_zero u u.clock).symm
  | succ t ih =>
    rw [ticks, ih (Nat.lt_of_succ_lt h), tick_eq]
    exact after_after h

/-- What is heard of where every count is compared. -/
def heardInTime (u : UpTimers) (n : Nat) : List Key :=
  if u.uicfg &&& 1 = 0 ∨ u.ucstr ≠ 0 then u.heard (u.hits n) else u.heard (u.hits (u.firstCount n))

/-- A tick more: of what the slice of it is heard, if anything. -/
theorem mem_heardInTime {u : UpTimers} {t : Nat} (h : t + 1 < 2 ^ 32) {k : Key} :
    k ∈ u.heardInTime (u.clock.after (t + 1)).1 ↔
      k ∈ u.heardInTime (u.clock.after t).1 ∨
        k ∈ (u.counted (u.clock.after t).1 (u.clock.after t).2).heard
          ((u.counted (u.clock.after t).1 (u.clock.after t).2).hits ((u.clock.after t).2.after 1).1) := by
  have hlt := counts_lt u.clock h
  have hone := (u.clock.after t).2.after_fst_le 1
  rw [Divider.after_add]
  dsimp only
  generalize (u.clock.after t).1 = n at hlt ⊢
  generalize ((u.clock.after t).2.after 1).1 = n' at hlt hone ⊢
  generalize (u.clock.after t).2 = clock
  by_cases hgate : u.uicfg &&& 1 = 0 ∨ u.ucstr ≠ 0
  · have hagrees : u.Agrees n (n + n') := hgate.elim .inl fun hs => .inr (.inl hs)
    rw [heardInTime, heardInTime, if_pos hgate, if_pos hgate, (heard_split hlt clock).mpr hagrees k, List.mem_append]
  · obtain ⟨hcfg, hs⟩ := not_or.mp hgate
    rw [not_not] at hs
    rw [heardInTime, heardInTime, if_neg hgate, if_neg hgate, heard_counted hlt clock hcfg hs]
    obtain rfl | rfl : n' = 0 ∨ n' = 1 := by omega
    · -- no count: nothing new
      rw [Nat.add_zero]
      split_ifs with hnone
      · have hfirst : u.first n = none := by rw [first, hnone]; rfl
        rw [heard_hits hcfg hs, hfirst]
        simp
      · simp
    · rw [firstCount]
      split_ifs with hnone
      · have hfirst : u.first (u.firstCount n) = none := by rw [first, hits_firstCount.mpr hnone]; rfl
        rw [heard_hits hcfg hs, heard_hits hcfg hs, hfirst]
        simp
      · simp

/-- The interrupts of single ticks. -/
theorem mem_ticks {u : UpTimers} (hrun : u.urun ≠ 0) {t : Nat} (h : t < 2 ^ 32) {q : Irq} :
    q ∈ (u.ticks t).2 ↔ q ∈ (u.heardInTime (u.clock.after t).1).map irq := by
  induction t with
  | zero =>
    have hnone : u.heardInTime 0 = [] := by
      rw [heardInTime, firstCount, hits_zero, ite_self]
      rfl
    rw [Divider.after_zero, hnone]
    exact Iff.rfl
  | succ t ih =>
    have hrun' : (u.counted (u.clock.after t).1 (u.clock.after t).2).urun ≠ 0 := hrun
    rw [ticks, List.mem_append, ih (Nat.lt_of_succ_lt h), ticks_fst (Nat.lt_of_succ_lt h), tick_eq, after_running hrun,
      after_running hrun', List.mem_map, List.mem_map, List.mem_map]
    simp only [mem_heardInTime h, or_and_right, exists_or]
    exact Iff.rfl

theorem irq_injective {k k' : Key} (h : irq k = irq k') : k = k' := by
  injection h with hm hi
  exact Prod.ext hm hi

/-- The same interrupts. -/
def SameIrqs (l l' : List Irq) : Prop := ∀ q, q ∈ l ↔ q ∈ l'

theorem sameIrqs_map {l l' : List Key} : SameIrqs (l.map irq) (l'.map irq) ↔ ∀ k, k ∈ l ↔ k ∈ l' := by
  have hmem (l : List Key) (k : Key) : irq k ∈ l.map irq ↔ k ∈ l := by
    rw [List.mem_map]
    exact ⟨fun ⟨k', hk', heq⟩ => irq_injective heq ▸ hk', fun hk => ⟨k, hk, rfl⟩⟩
  constructor
  · intro h k
    rw [← hmem l, ← hmem l', h]
  · intro h q
    simp only [List.mem_map, h]

/-- How a slice is heard against single ticks. -/
theorem heard_inTime {u : UpTimers} (n : Nat) :
    (∀ k, k ∈ u.heard (u.hits n) ↔ k ∈ u.heardInTime n) ↔ u.Agrees (u.firstCount n) n := by
  by_cases hgate : u.uicfg &&& 1 = 0 ∨ u.ucstr ≠ 0
  · rw [heardInTime, if_pos hgate]
    exact iff_of_true (fun k => Iff.rfl) (hgate.elim .inl fun hs => .inr (.inl hs))
  · obtain ⟨hcfg, hs⟩ := not_or.mp hgate
    rw [not_not] at hs
    rw [heardInTime, if_neg hgate, heard_hits hcfg hs, heard_hits hcfg hs, mem_toList_iff, Agrees]
    by_cases hnone : u.hits n = []
    · have hnone' : u.hits (u.firstCount n) = [] := hits_firstCount.mpr hnone
      refine iff_of_true ?_ (.inr (.inr (.inl hnone')))
      rw [first, first, hnone, hnone']
    · have hsome : u.hits (u.firstCount n) ≠ [] := fun h => hnone (hits_firstCount.mp h)
      simp only [hcfg, hs, hsome, ne_eq, not_true_eq_false, false_or]
      exact eq_comm

/-- A slice leaves the counters and the flags as two slices of the same length do, and as its ticks would one by one. It
asks for the interrupts that the two ask for exactly if UICFG is clear, a flag is up, the first of the two passes no
value, or the first value in the order of the registers is the same for it as for the whole, or not enabled in either;
and for those of its ticks exactly if the same holds of the count at which the first value is passed. -/
theorem advance_ups_iff (u : UpTimers) (a b : Word) (h : a.toNat + b.toNat < 2 ^ 32) :
    (u.advance (a + b)).1 = ((u.advance a).1.advance b).1 ∧
      (u.advance (a + b)).1 = (u.ticks (a.toNat + b.toNat)).1 ∧
      (SameIrqs (u.advance (a + b)).2 ((u.advance a).2 ++ ((u.advance a).1.advance b).2) ↔
        u.Agrees (u.clock.after a.toNat).1 (u.clock.after (a.toNat + b.toNat)).1) ∧
      (SameIrqs (u.advance (a + b)).2 (u.ticks (a.toNat + b.toNat)).2 ↔
        u.Agrees (u.firstCount (u.clock.after (a.toNat + b.toNat)).1) (u.clock.after (a.toNat + b.toNat)).1) := by
  have hsum : (a + b).toNat = a.toNat + b.toNat := by
    rw [BitVec.toNat_add]
    exact Nat.mod_eq_of_lt h
  rw [advance_eq, advance_eq, advance_eq, hsum]
  refine ⟨(after_after h).symm, (ticks_fst h).symm, ?_⟩
  by_cases hrun : u.urun = 0
  · have hticks : ∀ t < 2 ^ 32, (u.ticks t).2 = [] := by
      intro t ht
      induction t with
      | zero => rfl
      | succ t ih =>
        rw [ticks, ih (Nat.lt_of_succ_lt ht), ticks_fst (Nat.lt_of_succ_lt ht), after_stopped hrun, tick_eq,
          after_stopped hrun]
        rfl
    have hagrees (n n' : Nat) : u.Agrees n n' := .inr (.inr (.inl (hits_of_stopped hrun n)))
    rw [after_stopped hrun, after_stopped hrun, after_stopped hrun, hticks _ h]
    exact ⟨iff_of_true (fun q => Iff.rfl) (hagrees ..), iff_of_true (fun q => Iff.rfl) (hagrees ..)⟩
  · have hrun' : (u.counted (u.clock.after a.toNat).1 (u.clock.after a.toNat).2).urun ≠ 0 := hrun
    have hsame : SameIrqs (u.after (a.toNat + b.toNat)).2 (u.ticks (a.toNat + b.toNat)).2 ↔
        SameIrqs (u.after (a.toNat + b.toNat)).2 ((u.heardInTime (u.clock.after (a.toNat + b.toNat)).1).map irq) :=
      forall_congr' fun q => iff_congr Iff.rfl (mem_ticks hrun h)
    rw [hsame, after_running hrun, after_running hrun, after_running hrun']
    refine ⟨?_, sameIrqs_map.trans (heard_inTime _)⟩
    dsimp only
    rw [← List.map_append, sameIrqs_map, Divider.after_add]
    exact heard_split (counts_lt u.clock h) _

/-- Up timer 0 counting from 0, with UICFG set and two values enabled: 10 first and then 5. -/
def reversed : UpTimers :=
  { urun := 1, uien := 3, ucstr := 0, uicfg := 1, utrg := 0, ucnt := fun _ => 0,
    ucmp := fun m i => if m.val = 0 then (if i.val = 0 then 10 else if i.val = 1 then 5 else 0) else 0, clock := .set 0 }

/-- Twenty ticks at once ask for the interrupt of the first value, and seven and thirteen for that of the second. -/
theorem reversed_split :
    (reversed.advance 20).2 = [.up 0 0] ∧
      (reversed.advance 7).2 ++ ((reversed.advance 7).1.advance 13).2 = [.up 0 1] ∧
      (reversed.ticks 20).2 = [.up 0 1] := by
  decide +kernel

theorem advance_ups_reversed :
    (7 : Word).toNat + (13 : Word).toNat < 2 ^ 32 ∧
      (reversed.advance (7 + 13)).1 = ((reversed.advance 7).1.advance 13).1 :=
  ⟨by decide, (advance_ups_iff reversed 7 13 (by decide)).1⟩

end Emu.G4mh.Tptm.UpTimers
