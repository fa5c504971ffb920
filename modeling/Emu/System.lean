-- SUMMARY: Rounds of a multicore system: each core in turn, and the same round with a task for every core past the first.
import Mathlib
import Emu.Ir.Syntax

/-! # Rounds

A round gives every core that can run one quantum, in the order of the cores. `emu_system_step` asks a core when its turn
comes. `emu_os_system_step` asks all of them before the round and releases a task for each that can run; under a
cooperative kernel of one core the tasks run in the order of their release, once the coordinator blocks. What a quantum on a
core does is left to its frontend: it may change the other cores too. -/

namespace Emu.System

/-- `emu_state_t`. -/
inductive State where
  | running | wfi | halted | held
  deriving DecidableEq, Repr

/-- `emu_cpu_status_t`, as far as a round looks at it. -/
structure Status where
  state : State
  wakeable : Bool
  deriving DecidableEq, Repr

/-- `emu_system_t`: how many cores there are, what `emu_core_status` says of each, and what `emu_core_run` of a quantum
retires and leaves of the system. -/
structure Cores (σ : Type) where
  ncores : Nat
  status : σ → Nat → Status
  run : Word → Nat → σ → Word × σ

/-- What `emu_core_slice` returns, and the system after it. -/
structure Slice (σ : Type) where
  did : Word
  live : Bool
  sys : σ

/-- A round so far. `ran` has the cores that were given their quantum, in order. -/
structure Round (σ : Type) where
  total : Word
  idle : Bool
  ran : List Nat
  sys : σ
  deriving DecidableEq, Repr

/-- `core_task_t`. -/
structure Task where
  did : Word
  live : Bool
  /-- Where in the round the core ran. -/
  pos : Nat

/-- `g_core`, `g_round_pos` and the system while the tasks run. -/
structure Tasks (σ : Type) where
  core : Nat → Task
  pos : Nat
  ran : List Nat
  sys : σ

variable {σ : Type} (c : Cores σ) (quantum : Word)

/-- `emu_core_runnable`. -/
def coreRunnable (s : σ) (k : Nat) : Bool :=
  let st := c.status s k
  decide (st.state ≠ .halted) && decide (st.state ≠ .held) && !(decide (st.state = .wfi) && !st.wakeable)

/-- `emu_core_slice`. -/
def coreSlice (s : σ) (k : Nat) : Slice σ :=
  let st := c.status s k
  if st.state = .halted then ⟨0, false, s⟩
  else if st.state = .held then ⟨0, false, s⟩
  else if st.state = .wfi ∧ st.wakeable = false then ⟨0, false, s⟩
  else ⟨(c.run quantum k s).1, true, (c.run quantum k s).2⟩

/-! ## One core after the other -/

/-- The round before its first slice. -/
def Round.start (s : σ) : Round σ := ⟨0, true, [], s⟩

/-- A pass of the loop of `emu_system_step`. -/
def slice (r : Round σ) (k : Nat) : Round σ :=
  let sl := coreSlice c quantum r.sys k
  ⟨r.total + sl.did, r.idle && !sl.live, if sl.live then r.ran ++ [k] else r.ran, sl.sys⟩

/-- `emu_system_step`. -/
def systemStep (s : σ) : Round σ := (List.range c.ncores).foldl (slice c quantum) (Round.start s)

/-- The system when the turn of core `k` comes. -/
def before (s : σ) (k : Nat) : σ := ((List.range k).foldl (slice c quantum) (Round.start s)).sys

/-! ## With a task for each core -/

/-- A turn of `core_task`. -/
def coreTask (t : Tasks σ) (k : Nat) : Tasks σ :=
  let sl := coreSlice c quantum t.sys k
  ⟨Function.update t.core k ⟨sl.did, sl.live, t.pos⟩, t.pos + 1, if sl.live then t.ran ++ [k] else t.ran, sl.sys⟩

/-- The cores past the first that can run before the round. -/
def released (s : σ) : List Nat := (List.range' 1 (c.ncores - 1)).filter (coreRunnable c s)

/-- What the coordinator adds up from the records of the released tasks. -/
def collect (core : Nat → Task) (run : List Nat) (total : Word) (idle : Bool) : Word × Bool :=
  run.foldl (fun sum k => (sum.1 + (core k).did, sum.2 && !(core k).live)) (total, idle)

/-- The tasks after the coordinator has run core 0 and waited for all it released, from the records of the last round. -/
def runTasks (core : Nat → Task) (s : σ) : Tasks σ :=
  let first := coreSlice c quantum s 0
  (released c s).foldl (coreTask c quantum) ⟨core, 1, if first.live then [0] else [], first.sys⟩

/-- `emu_os_system_step` in a build with tasks for `maxCores` cores. -/
def osSystemStep (maxCores : Nat) (serial : Bool) (core : Nat → Task) (s : σ) : Round σ :=
  if c.ncores ≤ 1 ∨ maxCores < c.ncores ∨ serial = true then systemStep c quantum s
  else
    let first := coreSlice c quantum s 0
    if released c s = [] then ⟨first.did, !first.live, if first.live then [0] else [], first.sys⟩
    else
      let t := runTasks c quantum core s
      let sum := collect t.core (released c s) first.did (!first.live)
      ⟨sum.1, sum.2, t.ran, t.sys⟩

/-! ## Slices -/

variable {c quantum}

theorem coreSlice_eq (s : σ) (k : Nat) :
    coreSlice c quantum s k =
      if coreRunnable c s k then ⟨(c.run quantum k s).1, true, (c.run quantum k s).2⟩ else ⟨0, false, s⟩ := by
  rcases hst : c.status s k with ⟨state, wakeable⟩
  cases state <;> cases wakeable <;> simp [coreSlice, coreRunnable, hst]

theorem live_coreSlice (s : σ) (k : Nat) : (coreSlice c quantum s k).live = coreRunnable c s k := by
  rw [coreSlice_eq]
  cases coreRunnable c s k <;> rfl

/-- The turn of a core that cannot run changes nothing. -/
theorem slice_of_not_runnable {r : Round σ} {k : Nat} (h : coreRunnable c r.sys k = false) : slice c quantum r k = r := by
  rw [slice, coreSlice_eq, h]
  simp

theorem ran_slice (r : Round σ) (k : Nat) :
    (slice c quantum r k).ran = if coreRunnable c r.sys k then r.ran ++ [k] else r.ran := by
  rw [slice, live_coreSlice]

/-- No round gives a quantum to a core that has no turn in it. -/
theorem mem_of_mem_ran (l : List Nat) (r : Round σ) {k : Nat} (h : k ∈ (l.foldl (slice c quantum) r).ran) :
    k ∈ r.ran ∨ k ∈ l := by
  induction l generalizing r with
  | nil => exact .inl h
  | cons j l ih =>
    rcases ih _ h with hr | hl
    · rw [ran_slice] at hr
      split_ifs at hr
      · rcases List.mem_append.mp hr with hr | hj
        · exact .inl hr
        · exact .inr (List.mem_cons.mpr (.inl (List.mem_singleton.mp hj)))
      · exact .inl hr
    · exact .inr (List.mem_cons_of_mem j hl)

/-- In the round of all cores, exactly those run that can when their turn comes. -/
theorem mem_ran_range (s : σ) (n : Nat) {k : Nat} :
    k ∈ ((List.range n).foldl (slice c quantum) (Round.start s)).ran ↔
      k < n ∧ coreRunnable c (before c quantum s k) k = true := by
  induction n with
  | zero => simp [Round.start]
  | succ n ih =>
    rw [List.range_succ, List.foldl_append, List.foldl_cons, List.foldl_nil, ran_slice]
    change k ∈ (if coreRunnable c (before c quantum s n) n = true then _ else _) ↔ _
    have hlt : k < n + 1 ↔ k < n ∨ k = n := by omega
    split_ifs with hn
    · rw [List.mem_append, ih, List.mem_singleton, hlt]
      constructor
      · rintro (⟨hk, hrun⟩ | rfl)
        · exact ⟨.inl hk, hrun⟩
        · exact ⟨.inr rfl, hn⟩
      · rintro ⟨hk | rfl, hrun⟩
        · exact .inl ⟨hk, hrun⟩
        · exact .inr rfl
    · rw [ih, hlt]
      constructor
      · rintro ⟨hk, hrun⟩
        exact ⟨.inl hk, hrun⟩
      · rintro ⟨hk | rfl, hrun⟩
        · exact ⟨hk, hrun⟩
        · exact absurd hrun hn

/-- A round is idle if none of its cores can run at its start: until one runs, nothing changes. -/
theorem idle_foldl (l : List Nat) (r : Round σ) :
    (l.foldl (slice c quantum) r).idle = (r.idle && l.all fun k => !coreRunnable c r.sys k) := by
  induction l generalizing r with
  | nil => simp
  | cons k l ih =>
    rw [List.foldl_cons, ih, List.all_cons]
    cases hk : coreRunnable c r.sys k with
    | true => simp [slice, live_coreSlice, hk]
    | false => rw [slice_of_not_runnable hk, Bool.not_false, Bool.true_and]

/-! ## Tasks -/

theorem core_foldl_of_notMem (l : List Nat) (t : Tasks σ) {k : Nat} (h : k ∉ l) :
    (l.foldl (coreTask c quantum) t).core k = t.core k := by
  induction l generalizing t with
  | nil => rfl
  | cons j l ih =>
    obtain ⟨hne, hl⟩ := List.ne_and_not_mem_of_not_mem_cons h
    rw [List.foldl_cons, ih _ hl]
    exact Function.update_of_ne hne _ _

/-- The tasks do what the same slices do one after the other, and their records add up to the same. -/
theorem tasks_eq (l : List Nat) (hnodup : l.Nodup) (t : Tasks σ) (r : Round σ) (hran : t.ran = r.ran) (hsys : t.sys = r.sys) :
    let t' := l.foldl (coreTask c quantum) t
    let r' := l.foldl (slice c quantum) r
    collect t'.core l r.total r.idle = (r'.total, r'.idle) ∧ t'.ran = r'.ran ∧ t'.sys = r'.sys := by
  induction l generalizing t r with
  | nil => exact ⟨rfl, hran, hsys⟩
  | cons k l ih =>
    obtain ⟨hk, hnodup⟩ := List.nodup_cons.mp hnodup
    obtain ⟨hsum, hran', hsys'⟩ := ih hnodup (coreTask c quantum t k) (slice c quantum r k)
      (by rw [coreTask, slice, hran, hsys]) (by rw [coreTask, slice, hsys])
    refine ⟨?_, hran', hsys'⟩
    -- the record of the first task is still there: no other task writes it
    have hcore : ((k :: l).foldl (coreTask c quantum) t).core k =
        ⟨(coreSlice c quantum r.sys k).did, (coreSlice c quantum r.sys k).live, t.pos⟩ := by
      rw [List.foldl_cons, core_foldl_of_notMem l _ hk, coreTask, hsys]
      exact Function.update_self ..
    rw [collect, List.foldl_cons, hcore]
    exact hsum

theorem nodup_released (s : σ) : (released c s).Nodup := List.Nodup.filter _ (List.nodup_range' ..)

/-! ## The two rounds -/

/-- With tasks, a round is core 0 and then the cores that could run before it. -/
theorem osSystemStep_eq_foldl {maxCores : Nat} {serial : Bool} (core : Nat → Task) (s : σ)
    (h : ¬(c.ncores ≤ 1 ∨ maxCores < c.ncores ∨ serial = true)) :
    osSystemStep c quantum maxCores serial core s = (0 :: released c s).foldl (slice c quantum) (Round.start s) := by
  have hfirst : slice c quantum (Round.start s) 0 =
      ⟨(coreSlice c quantum s 0).did, !(coreSlice c quantum s 0).live,
        if (coreSlice c quantum s 0).live then [0] else [], (coreSlice c quantum s 0).sys⟩ := by
    change (⟨0#32 + _, _, _, _⟩ : Round σ) = _
    rw [BitVec.zero_add]
    rfl
  rw [osSystemStep, if_neg h, List.foldl_cons]
  by_cases hnone : released c s = []
  · rw [if_pos hnone, hnone, List.foldl_nil, hfirst]
  · rw [if_neg hnone]
    obtain ⟨hsum, hran, hsys⟩ := tasks_eq (released c s) (nodup_released s)
      ⟨core, 1, (slice c quantum (Round.start s) 0).ran, (slice c quantum (Round.start s) 0).sys⟩ _ rfl rfl
    rw [hfirst] at hsum hran hsys ⊢
    dsimp only [runTasks] at hsum ⊢
    rw [hsum, hran, hsys]

theorem range_eq_cons {n : Nat} (h : ¬n ≤ 1) : List.range n = 0 :: List.range' 1 (n - 1) := by
  obtain ⟨m, rfl⟩ : ∃ m, n = m + 1 := ⟨n - 1, by omega⟩
  rw [List.range_eq_range', List.range'_succ, Nat.add_sub_cancel]

/-- Cores whose turns change nothing can be left out. -/
theorem foldl_filter_eq (s : σ) (p : Nat → Bool) (n : Nat)
    (h : ∀ k < n, p k = false → coreRunnable c (before c quantum s k) k = false) :
    ((List.range n).filter p).foldl (slice c quantum) (Round.start s) =
      (List.range n).foldl (slice c quantum) (Round.start s) := by
  induction n with
  | zero => rfl
  | succ n ih =>
    rw [List.range_succ, List.filter_append, List.foldl_append, List.foldl_append,
      ih fun k hk => h k (Nat.lt_succ_of_lt hk)]
    cases hp : p n with
    | true => rw [List.filter_cons_of_pos hp, List.filter_nil]
    | false =>
      rw [List.filter_cons_of_neg (by simp [hp]), List.filter_nil, List.foldl_nil, List.foldl_cons, List.foldl_nil,
        slice_of_not_runnable (h n (Nat.lt_succ_self n) hp)]

/-- A round with tasks gives the same quanta, total, idle answer and system as a round without exactly if no core that could
not run before the round can when its turn comes; in any case it says the same about being idle. -/
theorem osSystemStep_eq_iff (c : Cores σ) (quantum : Word) (maxCores : Nat) (serial : Bool) (core : Nat → Task) (s : σ) :
    (osSystemStep c quantum maxCores serial core s = systemStep c quantum s ↔
      maxCores < c.ncores ∨ serial = true ∨
        ∀ k, 1 ≤ k → k < c.ncores → coreRunnable c s k = false → coreRunnable c (before c quantum s k) k = false) ∧
      (osSystemStep c quantum maxCores serial core s).idle = (systemStep c quantum s).idle := by
  by_cases hserial : c.ncores ≤ 1 ∨ maxCores < c.ncores ∨ serial = true
  · rw [osSystemStep, if_pos hserial]
    refine ⟨iff_of_true rfl ?_, rfl⟩
    rcases hserial with h | h
    · exact .inr (.inr fun k hk hlt => absurd h (by omega))
    · exact h.imp_right .inl
  have hsome : ¬c.ncores ≤ 1 := fun h => hserial (.inl h)
  rw [osSystemStep_eq_foldl core s hserial, systemStep]
  constructor
  · constructor
    · intro heq
      refine .inr (.inr fun k hk hlt hnot => ?_)
      rw [← Bool.not_eq_true]
      intro hrun
      -- the core runs in the round without tasks, so it must have been released
      have hmem := (mem_ran_range s c.ncores).mpr ⟨hlt, hrun⟩
      rw [← heq] at hmem
      rcases mem_of_mem_ran _ _ hmem with hmem | hmem
      · exact absurd hmem (List.not_mem_nil)
      · rcases List.mem_cons.mp hmem with rfl | hmem
        · exact absurd hk (by decide)
        · rw [(List.mem_filter.mp hmem).2] at hnot
          exact absurd hnot (by decide)
    · rintro (h | h | hlate)
      · exact absurd (.inr (.inl h)) hserial
      · exact absurd (.inr (.inr h)) hserial
      · have hfilter : 0 :: released c s = (List.range c.ncores).filter fun k => k == 0 || coreRunnable c s k := by
          rw [range_eq_cons hsome, List.filter_cons_of_pos (by simp), released]
          congr 1
          refine List.filter_congr fun k hk => ?_
          rw [beq_false_of_ne (by have := (List.mem_range'_1.mp hk).1; omega), Bool.false_or]
        rw [hfilter]
        refine foldl_filter_eq s _ _ fun k hk hp => ?_
        obtain ⟨hzero, hnot⟩ := Bool.or_eq_false_iff.mp hp
        exact hlate k (Nat.one_le_iff_ne_zero.mpr (by simpa using hzero)) hk hnot
  · rw [idle_foldl, idle_foldl, range_eq_cons hsome, List.all_cons, List.all_cons]
    rw [released, List.all_filter]
    simp [Round.start]

/-- Two cores, the second held at reset until a quantum on the first releases it. -/
def bootPair : Cores Bool where
  ncores := 2
  status released k := ⟨if k = 0 ∨ released = true then .running else .held, false⟩
  run _ _ _ := (1, true)

/-- The second core runs in the round that releases it, or not, as there are tasks or not. -/
theorem released_core_waits :
    systemStep bootPair 64 false = ⟨2, false, [0, 1], true⟩ ∧
      osSystemStep bootPair 64 2 false (fun _ => ⟨0, false, 0⟩) false = ⟨1, false, [0], true⟩ := by
  constructor <;> decide

end Emu.System
