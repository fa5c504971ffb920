-- SUMMARY: Debug triggers and event counters, and that every flag derived from the control registers is up to date.
import Emu.Rv.Modes

/-! # Derived flags

The hart keeps seven summaries of its control registers: which accesses protection, translation and the triggers have to
be asked about, and which counters count. Each is worked out again where one of its inputs is written. -/

namespace Emu.Rv

variable {δ : Type}

/-! ## Fields of the trigger registers -/

def mcTypeShift : Nat := 28
def mcTypeMcontrol : Word := 2
def mcM : Word := 1 <<< 6
def mcS : Word := 1 <<< 4
def mcU : Word := 1 <<< 3
def mcExecute : Word := 1 <<< 2
def mcStore : Word := 1 <<< 1
def mcLoad : Word := 1 <<< 0

/-- `MC_WMASK`. -/
def mcWmask : Word := mcM ||| mcS ||| mcU ||| mcExecute ||| mcStore ||| mcLoad

/-- `RV_TRIG_COUNT`. -/
def trigCount : Nat := 2

/-! ## Fields of the event registers -/

/-- `RV_HPM_FIRST`: the number of the first counter. -/
def hpmFirst : Nat := 3

/-- `RV_HPM_COUNT`. -/
def hpmCount : Nat := 29

def hpmEventNone : Word := 0x000
def hpmEventException : Word := 0x001
def hpmEventInterrupt : Word := 0x002
def hpmEventExcCause : Word := 0x100
def hpmEventIrqCause : Word := 0x200
def hpmEventCauses : Word := 16

def mhpmeventhOf : Word := 1 <<< 31
def mhpmeventhMinh : Word := 1 <<< 30
def mhpmeventhSinh : Word := 1 <<< 29
def mhpmeventhUinh : Word := 1 <<< 28

/-- `MHPMEVENTH_WMASK`. -/
def mhpmeventhWmask : Word := mhpmeventhOf ||| mhpmeventhMinh ||| mhpmeventhSinh ||| mhpmeventhUinh

/-- `COUNTINHIBIT_WMASK`. -/
def countinhibitWmask : Word := 0xFFFFFFFD

/-- A hart with its debug triggers and its event counters. -/
structure Monitored (δ : Type) where
  hart : Hart δ
  tselect : Word
  tdata1 : Nat → Word
  tdata2 : Nat → Word
  mcountinhibit : Word
  mhpmcounter : Nat → BitVec 64
  mhpmevent : Nat → Word
  mhpmeventh : Nat → Word
  /-- The counters that count something. -/
  hpmArmed : Word

namespace Monitored

/-! ## Triggers -/

/-- A trigger of the kind there is, enabled in some mode and watching something. -/
def armedTrigger (d : Word) : Bool :=
  d >>> mcTypeShift = mcTypeMcontrol ∧ d &&& (mcM ||| mcS ||| mcU) ≠ 0 ∧ d &&& (mcExecute ||| mcStore ||| mcLoad) ≠ 0

/-- Some trigger is armed. -/
def watching (s : Monitored δ) : Bool :=
  (List.range trigCount).any fun i => armedTrigger (s.tdata1 i)

/-- `rv_trig_refresh`. -/
def trigRefresh (s : Monitored δ) : Monitored δ :=
  { s with hart := Hart.refreshFetchGuard { s.hart with trigActive := s.watching } }

/-- `rv_trig_write_tdata1`: a kind there is not disables the trigger. -/
def trigWriteTdata1 (s : Monitored δ) (val : Word) : Monitored δ :=
  if s.tselect.toNat ≥ trigCount then s
  else
    let d := if val >>> mcTypeShift ≠ mcTypeMcontrol then 0 else (mcTypeMcontrol <<< mcTypeShift) ||| (val &&& mcWmask)
    trigRefresh { s with tdata1 := Function.update s.tdata1 s.tselect.toNat d }

/-- `mode_bit`. -/
def modeBit (priv : Priv) : Word :=
  if priv = privM then mcM else if priv = privS then mcS else mcU

/-- `may_match`: no trigger fires in the handler of its own breakpoint. -/
def mayMatch (h : Hart δ) : Bool :=
  if h.priv = privM then h.mstatus &&& mstatusMie ≠ 0
  else if h.priv = privS then
    (h.medeleg >>> Exc.breakpoint.code.toNat) &&& 1 = 0 ∨ h.mstatus &&& mstatusSie ≠ 0
  else true

/-- `rv_trig_check`. -/
def trigCheck (s : Monitored δ) (addr : Word) (acc : Access) : Bool :=
  let want := match acc with
    | .fetch => mcExecute
    | .load => mcLoad
    | .store => mcStore
  mayMatch s.hart && (List.range trigCount).any fun i =>
    s.tdata1 i >>> mcTypeShift = mcTypeMcontrol ∧ s.tdata1 i &&& modeBit s.hart.priv ≠ 0 ∧ s.tdata1 i &&& want ≠ 0 ∧
      s.tdata2 i = addr

/-! ## Counters -/

/-- `hpm_event_known`. -/
def hpmEventKnown (ev : Word) : Bool :=
  let kind := ev &&& ~~~(hpmEventCauses - 1)
  ev = hpmEventException ∨ ev = hpmEventInterrupt ∨ kind = hpmEventExcCause ∨ kind = hpmEventIrqCause

/-- The counters that have an event and are not inhibited. -/
def counting (s : Monitored δ) : Word :=
  (List.range hpmCount).foldl (fun armed i =>
    if s.mhpmevent i ≠ hpmEventNone ∧ s.mcountinhibit &&& (1 <<< (i + hpmFirst)) = 0 then armed ||| (1 <<< i)
    else armed) 0

/-- `rv_hpm_rearm`. -/
def hpmRearm (s : Monitored δ) : Monitored δ :=
  { s with hpmArmed := s.counting }

/-- `hpm_inhibit_for`. -/
def hpmInhibitFor (priv : Priv) : Word :=
  if priv = privM then mhpmeventhMinh else if priv = privS then mhpmeventhSinh else mhpmeventhUinh

/-- One counter counts an event, unless it is inhibited in that mode. The flag says that it raises the overflow
interrupt. -/
def hpmCountOne (s : Monitored δ) (inh : Word) (i : Nat) : Monitored δ × Bool :=
  if s.mhpmeventh i &&& inh ≠ 0 then (s, false)
  else
    let next := s.mhpmcounter i + 1
    let counted := { s with mhpmcounter := Function.update s.mhpmcounter i next }
    if next = 0 ∧ s.mhpmeventh i &&& mhpmeventhOf = 0 then
      ({ counted with mhpmeventh := Function.update s.mhpmeventh i (s.mhpmeventh i ||| mhpmeventhOf) }, true)
    else (counted, false)

/-- The loop of `rv_hpm_note_trap`, over the counters from `i` on that are armed. -/
def hpmNoteFrom (any exact inh : Word) : Nat → Nat → Word → Monitored δ → Monitored δ × Bool
  | 0, _, _, s => (s, false)
  | fuel + 1, i, armed, s =>
    if armed = 0 then (s, false)
    else if armed &&& 1 = 0 ∨ (s.mhpmevent i ≠ any ∧ s.mhpmevent i ≠ exact) then
      hpmNoteFrom any exact inh fuel (i + 1) (armed >>> 1) s
    else
      let one := s.hpmCountOne inh i
      let rest := hpmNoteFrom any exact inh fuel (i + 1) (armed >>> 1) one.1
      (rest.1, one.2 || rest.2)

/-- `rv_hpm_note_trap`: a trap from this mode is counted. The flag says that a counter raised its interrupt. -/
def hpmNoteTrap (s : Monitored δ) (cause : Word) (from' : Priv) : Monitored δ × Bool :=
  let irq := decide (cause &&& Hart.causeInterrupt ≠ 0)
  let code := cause &&& ~~~Hart.causeInterrupt
  let any := if irq then hpmEventInterrupt else hpmEventException
  let exact :=
    if code < hpmEventCauses then (if irq then hpmEventIrqCause else hpmEventExcCause) ||| code else hpmEventNone
  s.hpmNoteFrom any exact (hpmInhibitFor from') 32 0 s.hpmArmed

/-! ## Steps -/

/-- The control registers of the triggers and counters. -/
inductive Csr where
  | tselect | tdata1 | tdata2 | tdata3 | mcountinhibit
  | mhpmcounter (i : Fin 29)
  | mhpmcounterh (i : Fin 29)
  | mhpmevent (i : Fin 29)
  | mhpmeventh (i : Fin 29)
  deriving DecidableEq, Repr

/-- `rv_csr_write`, for these registers. All of them are machine mode's. -/
def csrWrite (s : Monitored δ) (c : Csr) (val : Word) : Option (Monitored δ) :=
  if privM > s.hart.priv then none
  else match c with
    | .tselect => some (if val.toNat < trigCount then { s with tselect := val } else s)
    | .tdata1 => some (s.trigWriteTdata1 val)
    | .tdata2 =>
      some (if s.tselect.toNat < trigCount then { s with tdata2 := Function.update s.tdata2 s.tselect.toNat val } else s)
    | .tdata3 => some s
    | .mcountinhibit => some (hpmRearm { s with mcountinhibit := val &&& countinhibitWmask })
    | .mhpmcounter i =>
      let next := (s.mhpmcounter i &&& 0xFFFFFFFF00000000) ||| val.setWidth 64
      some { s with mhpmcounter := Function.update s.mhpmcounter i next }
    | .mhpmcounterh i =>
      let next := (s.mhpmcounter i &&& 0xFFFFFFFF) ||| (val.setWidth 64 <<< 32)
      some { s with mhpmcounter := Function.update s.mhpmcounter i next }
    | .mhpmevent i =>
      let ev := if hpmEventKnown val then val else hpmEventNone
      some (hpmRearm { s with mhpmevent := Function.update s.mhpmevent i ev })
    | .mhpmeventh i => some { s with mhpmeventh := Function.update s.mhpmeventh i (val &&& mhpmeventhWmask) }

/-- `rv_hart_reset`. -/
def reset (s : Monitored δ) (bus : Bus δ) (pc : Word) : Monitored δ :=
  hpmRearm { s with
    hart := s.hart.reset bus pc
    tselect := 0
    tdata1 := fun _ => 0
    tdata2 := fun _ => 0
    mcountinhibit := 0
    mhpmcounter := fun _ => 0
    mhpmevent := fun _ => 0
    mhpmeventh := fun _ => 0 }

/-- The hart, with the triggers its accesses ask. -/
def asked (s : Monitored δ) : Hart δ :=
  { s.hart with trigCheck := s.trigCheck }

/-- A trap is counted, if anything is. -/
def noted (s : Monitored δ) (from' : Priv) : Op δ → Monitored δ
  | .ctl (.trap cause _) => if s.hpmArmed ≠ 0 then (s.hpmNoteTrap cause from').1 else s
  | _ => s

/-- The triggers are written through their own registers. -/
def direct : Op δ → Bool
  | .ctl (.trigger ..) => false
  | _ => true

inductive Step (s : Monitored δ) : Monitored δ → Prop where
  | op (o : Op δ) (hd : direct o = true) {h' : Hart δ} (ho : o.run s.asked = some h') :
      Step s (noted { s with hart := h' } s.hart.priv o)
  | csr (c : Csr) (val : Word) {s' : Monitored δ} (hc : s.csrWrite c val = some s') : Step s s'
  | reset (bus : Bus δ) (pc : Word) : Step s (s.reset bus pc)

end Monitored

/-- The flags of the hart are what its control registers make them, with `watching` for the triggers. -/
structure Hart.FlagsRight (watching : Bool) (h : Hart δ) : Prop where
  pmpActive : h.pmpActive = (h.belowM || h.pmpLocked)
  pmpAny : h.pmpAny = h.pmpEnabled
  vmActive : h.vmActive = (h.paging && h.belowM)
  trigActive : h.trigActive = watching
  fetchGuard : h.fetchGuard = (watching || (h.belowM || h.pmpLocked) || (h.paging && h.belowM))
  dataGuard : h.dataGuard = ((h.belowM || h.pmpLocked) || h.pmpEnabled || (h.paging && h.belowM))

/-- Every derived field is what the control registers and the mode make it. -/
structure Monitored.DerivedRight (s : Monitored δ) : Prop where
  flags : s.hart.FlagsRight s.watching
  hpmArmed : s.hpmArmed = s.counting

namespace Hart.FlagsRight

variable {watching : Bool} {h h' : Hart δ}

/-- After both refreshes the flags are right, whatever they were. -/
theorem refreshed (ht : h.trigActive = watching) : FlagsRight watching h.pmpRefresh.mmuRefresh := by
  subst ht
  exact ⟨rfl, rfl, rfl, rfl, rfl, rfl⟩

/-- Flags that stay, while what they are about does. -/
theorem kept (hf : FlagsRight watching h) (hb : h'.belowM = h.belowM) (hcfg : h'.pmpcfg = h.pmpcfg)
    (hs : h'.satp = h.satp) (hactive : h'.pmpActive = h.pmpActive) (hany : h'.pmpAny = h.pmpAny)
    (hvm : h'.vmActive = h.vmActive) (htrig : h'.trigActive = h.trigActive) (hfetch : h'.fetchGuard = h.fetchGuard)
    (hdata : h'.dataGuard = h.dataGuard) : FlagsRight watching h' := by
  have hlocked : h'.pmpLocked = h.pmpLocked := by
    simp only [pmpLocked, pmpCfg_congr hcfg]
  have henabled : h'.pmpEnabled = h.pmpEnabled := by
    simp only [pmpEnabled, pmpCfg_congr hcfg]
  have hpaging : h'.paging = h.paging := by
    rw [paging, paging, hs]
  constructor
  · rw [hactive, hb, hlocked, hf.pmpActive]
  · rw [hany, henabled, hf.pmpAny]
  · rw [hvm, hpaging, hb, hf.vmActive]
  · rw [htrig, hf.trigActive]
  · rw [hfetch, hb, hlocked, hpaging, hf.fetchGuard]
  · rw [hdata, hb, hlocked, henabled, hpaging, hf.dataGuard]

/-- A write to `satp` looks at translation again. -/
theorem translation (hf : FlagsRight watching h) (satp : Word) :
    FlagsRight watching (mmuFlushTlb { h with satp := satp }).mmuRefresh := by
  refine ⟨hf.pmpActive, hf.pmpAny, rfl, hf.trigActive, ?_, ?_⟩
  · show (h.trigActive || h.pmpActive || _) = _
    rw [hf.trigActive, hf.pmpActive]
    rfl
  · show (h.pmpActive || h.pmpAny || _) = _
    rw [hf.pmpActive, hf.pmpAny]
    rfl

/-- A write to a configuration register looks at protection again. -/
theorem protection (hf : FlagsRight watching h) (pmpcfg : Nat → Word) :
    FlagsRight watching (dtlbFlush { h with pmpcfg := pmpcfg }).pmpRefresh := by
  refine ⟨rfl, rfl, hf.vmActive, hf.trigActive, ?_, ?_⟩
  · show (h.trigActive || _ || h.vmActive) = _
    rw [hf.trigActive, hf.vmActive]
    rfl
  · show (_ || _ || h.vmActive) = _
    rw [hf.vmActive]
    rfl

theorem congr (hc : h'.control = h.control) (hf : FlagsRight watching h) : FlagsRight watching h' := by
  have hbelow : h'.belowM = h.belowM := by
    have hp : h'.priv = h.priv := congrArg ControlRegs.priv hc
    have hs : h'.mstatus = h.mstatus := congrArg ControlRegs.mstatus hc
    rw [belowM, belowM, dataPriv, dataPriv, hp, hs]
  exact hf.kept hbelow (congrArg ControlRegs.pmpcfg hc) (congrArg ControlRegs.satp hc) (congrArg ControlRegs.pmpActive hc)
    (congrArg ControlRegs.pmpAny hc) (congrArg ControlRegs.vmActive hc) (congrArg ControlRegs.trigActive hc)
    (congrArg ControlRegs.fetchGuard hc) (congrArg ControlRegs.dataGuard hc)

/-- The flags depend on two fields of `mstatus`. -/
theorem setMstatus (hf : FlagsRight watching h) {m : Word} (hmprv : m &&& mstatusMprv = h.mstatus &&& mstatusMprv)
    (hmpp : m &&& mstatusMppMask = h.mstatus &&& mstatusMppMask) : FlagsRight watching { h with mstatus := m } := by
  refine hf.kept ?_ rfl rfl rfl rfl rfl rfl rfl rfl
  simp only [belowM, dataPriv, hmprv, hmpp]

theorem written (hf : FlagsRight watching h) (val : Word) (c : Csr) : FlagsRight watching (h.written val c) := by
  cases c with
  | mstatus => exact refreshed hf.trigActive
  | sstatus =>
    have hkeep {k : Word} (hk : sstatusWmask &&& k = 0) :
        (h.mstatus &&& ~~~sstatusWmask ||| val &&& sstatusWmask) &&& k = h.mstatus &&& k := by
      refine Hart.and_update_disjoint hk ?_
      rw [BitVec.and_assoc, hk]
      exact BitVec.and_zero
    exact hf.setMstatus (hkeep (by decide)) (hkeep (by decide))
  | satp => exact hf.translation _
  | pmpcfg i => exact hf.protection _
  | pmpaddr i =>
    rw [Hart.written]
    split
    · exact hf
    · exact hf.kept rfl rfl rfl rfl rfl rfl rfl rfl rfl

theorem enterTrap (hf : FlagsRight watching h) (cause tval : Word) : FlagsRight watching (h.enterTrap cause tval) := by
  have hentered : FlagsRight watching
      (if h.trapToS cause then h.enterS cause tval else h.enterM cause tval).pmpRefresh.mmuRefresh := by
    apply refreshed
    split <;> exact hf.trigActive
  exact hentered.kept rfl rfl rfl rfl rfl rfl rfl rfl rfl

theorem mret (hf : FlagsRight watching h) : FlagsRight watching h.mret := by
  have hr : FlagsRight watching (pmpRefresh { h with mstatus := h.mret.mstatus, priv := h.mret.priv }).mmuRefresh :=
    refreshed hf.trigActive
  exact hr.kept rfl rfl rfl rfl rfl rfl rfl rfl rfl

theorem sret (hf : FlagsRight watching h) : FlagsRight watching h.sret := by
  have hr : FlagsRight watching (pmpRefresh { h with mstatus := h.sret.mstatus, priv := h.sret.priv }).mmuRefresh :=
    refreshed hf.trigActive
  exact hr.kept rfl rfl rfl rfl rfl rfl rfl rfl rfl

theorem dirtyFp (hf : FlagsRight watching h) : FlagsRight watching { h with mstatus := h.mstatus ||| mstatusFsMask } := by
  have hkeep {k : Word} (hk : mstatusFsMask &&& k = 0) : (h.mstatus ||| mstatusFsMask) &&& k = h.mstatus &&& k := by
    rw [BitVec.and_or_distrib_right, hk]
    exact BitVec.or_zero
  exact hf.setMstatus (hkeep (by decide)) (hkeep (by decide))

theorem invariant : ControlInvariant (fun _ o => Monitored.direct o = true) (FlagsRight (δ := δ) watching) where
  congr := congr
  csr hf _ hw := by
    rw [csrWrite_eq_written hw]
    exact hf.written _ _
  enterTrap cause tval hf := hf.enterTrap cause tval
  mret := mret
  sret := sret
  dirtyFp := dirtyFp
  trigger _ ha := nomatch ha

end Hart.FlagsRight

namespace Monitored

variable {s s' : Monitored δ}

/-! ## Counting leaves what the flags are about alone -/

/-- What the derived fields depend on, and they themselves. -/
def inputs (s : Monitored δ) : Hart δ × (Nat → Word) × (Nat → Word) × Word × Word :=
  (s.hart, s.tdata1, s.mhpmevent, s.mcountinhibit, s.hpmArmed)

theorem DerivedRight.congr (hi : s'.inputs = s.inputs) (hd : s.DerivedRight) : s'.DerivedRight := by
  obtain ⟨hhart, htdata, hevent, hinhibit, harmed⟩ : s'.hart = s.hart ∧ s'.tdata1 = s.tdata1 ∧
      s'.mhpmevent = s.mhpmevent ∧ s'.mcountinhibit = s.mcountinhibit ∧ s'.hpmArmed = s.hpmArmed := by
    simpa only [inputs, Prod.mk.injEq] using hi
  have hwatching : s'.watching = s.watching := by rw [watching, watching, htdata]
  have hcounting : s'.counting = s.counting := by rw [counting, counting, hevent, hinhibit]
  constructor
  · rw [hhart, hwatching]
    exact hd.flags
  · rw [harmed, hcounting, hd.hpmArmed]

theorem hpmCountOne_inputs (s : Monitored δ) (inh : Word) (i : Nat) : (s.hpmCountOne inh i).1.inputs = s.inputs := by
  rw [hpmCountOne]
  split
  · rfl
  · dsimp only
    split <;> rfl

theorem hpmNoteFrom_inputs (any exact inh : Word) (fuel i : Nat) (armed : Word) (s : Monitored δ) :
    (hpmNoteFrom any exact inh fuel i armed s).1.inputs = s.inputs := by
  induction fuel generalizing i armed s with
  | zero => rfl
  | succ fuel ih =>
    rw [hpmNoteFrom]
    split
    · rfl
    split
    · exact ih ..
    · exact (ih ..).trans (s.hpmCountOne_inputs inh i)

theorem noted_inputs (s : Monitored δ) (from' : Priv) (o : Op δ) : (s.noted from' o).inputs = s.inputs := by
  unfold noted
  split
  · split
    · exact hpmNoteFrom_inputs ..
    · rfl
  · rfl

/-! ## Steps -/

theorem DerivedRight.trigRefresh (hd : s.DerivedRight) (tdata1 : Nat → Word) :
    (Monitored.trigRefresh { s with tdata1 := tdata1 }).DerivedRight := by
  refine ⟨⟨hd.flags.pmpActive, hd.flags.pmpAny, hd.flags.vmActive, rfl, ?_, ?_⟩, hd.hpmArmed⟩
  · show (_ || s.hart.pmpActive || s.hart.vmActive) = _
    rw [hd.flags.pmpActive, hd.flags.vmActive]
    rfl
  · show (s.hart.pmpActive || s.hart.pmpAny || s.hart.vmActive) = _
    rw [hd.flags.pmpActive, hd.flags.pmpAny, hd.flags.vmActive]
    rfl

theorem DerivedRight.csrWrite (hd : s.DerivedRight) {c : Csr} {val : Word} (hc : s.csrWrite c val = some s') :
    s'.DerivedRight := by
  unfold Monitored.csrWrite at hc
  split at hc
  · cases hc
  cases c with
  | tdata1 =>
    obtain rfl := Option.some.inj hc
    rw [trigWriteTdata1]
    split
    · exact hd
    · exact hd.trigRefresh _
  | mcountinhibit =>
    obtain rfl := Option.some.inj hc
    exact ⟨hd.flags, rfl⟩
  | mhpmevent i =>
    obtain rfl := Option.some.inj hc
    exact ⟨hd.flags, rfl⟩
  | tselect =>
    obtain rfl := Option.some.inj hc
    refine hd.congr ?_
    split <;> rfl
  | tdata2 =>
    obtain rfl := Option.some.inj hc
    refine hd.congr ?_
    split <;> rfl
  | _ =>
    obtain rfl := Option.some.inj hc
    exact hd.congr (s := s) rfl

theorem reset_derivedRight (s : Monitored δ) (bus : Bus δ) (pc : Word) : (s.reset bus pc).DerivedRight := by
  obtain ⟨hbelow, hpaging, hlocked, henabled⟩ := s.hart.reset_free bus pc
  have hflags : (s.hart.reset bus pc).FlagsRight false := by
    constructor
    · rw [hbelow, hlocked]
      rfl
    · exact henabled.symm
    · rw [hpaging]
      rfl
    · rfl
    · rw [hbelow, hlocked, hpaging]
      rfl
    · rw [hbelow, hlocked, henabled, hpaging]
      rfl
  have hwatching : (s.reset bus pc).watching = false := by
    show (List.range trigCount).any (fun _ => armedTrigger 0) = false
    decide
  refine ⟨?_, rfl⟩
  rw [hwatching]
  exact hflags

theorem DerivedRight.step (hs : Step s s') (hd : s.DerivedRight) : s'.DerivedRight := by
  cases hs with
  | @op o hdirect h' ho =>
    have hflags : h'.FlagsRight s.watching :=
      Hart.FlagsRight.invariant.step ⟨o, hdirect, ho⟩ (.congr (h := s.hart) rfl hd.flags)
    have hset : DerivedRight { s with hart := h' } := ⟨hflags, hd.hpmArmed⟩
    exact hset.congr (noted_inputs ..)
  | csr c val hc => exact hd.csrWrite hc
  | reset bus pc => exact s.reset_derivedRight bus pc

/-- In every state a hart can reach, each derived field is what the control registers and the mode make it. -/
theorem derived_right {s₀ : Monitored δ} {bus : Bus δ} {pc : Word} (hr : Relation.ReflTransGen Step (s₀.reset bus pc) s) :
    s.DerivedRight := by
  induction hr with
  | refl => exact s₀.reset_derivedRight bus pc
  | tail _ hs ih => exact ih.step hs

/-- A trigger on stores in machine mode, set just after reset. -/
def storeTrigger : Monitored Unit :=
  let s : Monitored Unit := ⟨.zeroed megaBus, 0, fun _ => 0, fun _ => 0, 0, fun _ => 0, fun _ => 0, fun _ => 0, 0⟩
  (s.reset megaBus 0).trigWriteTdata1 0x20000042

theorem derived_right_storeTrigger : storeTrigger.hart.trigActive = true ∧ storeTrigger.DerivedRight :=
  ⟨by decide, derived_right (.single (.csr .tdata1 0x20000042 rfl))⟩

end Monitored

end Emu.Rv
