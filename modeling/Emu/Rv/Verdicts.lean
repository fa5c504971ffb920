-- SUMMARY: In every run, accesses end as a fresh walk, PMP and the bus decide, unless a translation is stale.
import Emu.Lib.Hoare
import Emu.Rv.Trace

/-! # Verdicts

What a hart with its caches gives, against the reference: a walk with nothing cached, then PMP, then the bus. -/

namespace Emu.Rv

variable {δ : Type} {h h' : Hart δ} {rd : Word → Option Word} {va pa pc : Word} {acc : Access}
variable {D : Stale} {n : Nat} {r : Region}

/-! ## The reference -/

/-- The physical address of an access, from a walk with nothing cached, if PMP allows it there. -/
def Hart.freshAddr (h : Hart δ) (va : Word) (size : Nat) (acc : Access) : Except Exc Word :=
  match (translateActive va acc h.mmuFlushTlb).1 with
  | .error e => .error e
  | .ok pa => if h.pmpCheck pa size acc then .ok pa else .error (accessFaultFor acc)

/-- The outcome of a load by the reference. -/
def Hart.freshLoad (h : Hart δ) (va : Word) (size : Nat) (signed : Bool) : Except Exc Word :=
  match h.freshAddr va size .load with
  | .error e => .error e
  | .ok pa => ((h.bus.read pa size).1.mapError excFromFault).map (extend · size signed)

/-- The outcome of a store by the reference, and the bus after it. -/
def Hart.freshStore (h : Hart δ) (va : Word) (size : Nat) (val : Word) : Except Exc Unit × Bus δ :=
  match h.freshAddr va size .store with
  | .error e => (.error e, h.bus)
  | .ok pa => ((h.bus.write pa size val).1.mapError excFromFault, (h.bus.write pa size val).2)

/-- The outcome of a fetch of a halfword by the reference. -/
def Hart.freshFetch (h : Hart δ) (va : Word) : Except Exc Word :=
  match h.freshAddr va 2 .fetch with
  | .error e => .error e
  | .ok pa => (h.bus.fetch16 pa).mapError excFromFault

theorem Vouched.freshAddr (hv : Vouched h va n acc pa r) : h.freshAddr va n acc = .ok pa := by
  rw [Hart.freshAddr, Hart.translateActive_flushTlb, hv.translated]
  simp only [hv.pmp, if_true]

/-! ## Loads and stores -/

/-- Below machine mode every access asks PMP. -/
theorem Hart.Ok.pmpAllows (hok : h.Ok) (hp : h.accPriv acc ≠ privM) (a : Word) :
    (!h.pmpNeeded a n || h.pmpCheck a n acc) = h.pmpCheck a n acc := by
  rw [pmpNeeded, hok.pmpActive_of hp]
  rfl

/-- The way to the bus, whatever comes of it. -/
theorem Coh.freshAddr_eq {out : Except Exc Word} {h₁ : Hart δ} (hc : Coh h.pteBelow D h) (hok : h.Ok) (hD : ¬ D.Has va)
    (hp : h.accPriv acc ≠ privM) (htr : translateActive va acc h = (out, h₁)) :
    h₁.bus = h.bus ∧ (∀ a, (!h₁.pmpNeeded a n || h₁.pmpCheck a n acc) = h₁.pmpCheck a n acc) ∧ h₁.pmpActive = true ∧
      h.freshAddr va n acc =
        match out with
        | .error e => .error e
        | .ok pa => if h₁.pmpCheck pa n acc then .ok pa else .error (accessFaultFor acc) := by
  have hf := hc.translateActive_fills hok rfl va acc
  have hout : (translateActive va acc h).1 = if h.vmActive then h.translateFresh va acc else .ok va :=
    hc.translateActive_eq hok rfl fun he => hD he.has
  rw [htr] at hf hout
  have hok₁ : h₁.Ok := hok.sameButCaches hf.same
  have hp₁ : h₁.accPriv acc ≠ privM := by
    rw [← hf.same.accPriv]
    exact hp
  refine ⟨(hf.same.agree (g := (·.bus)) fun _ _ => rfl).symm, hok₁.pmpAllows hp₁, hok₁.pmpActive_of hp₁, ?_⟩
  rw [Hart.freshAddr, Hart.translateActive_flushTlb, ← hout]
  cases out with
  | error e => rfl
  | ok pa =>
    dsimp only
    rw [hf.same.pmpCheck]

theorem Coh.load_fresh (hc : Coh h.pteBelow D h) (hok : h.Ok) (hD : ¬ D.Has va) (hn : IsWidth n)
    (hfit : va.toNat % 4096 + n ≤ 4096) (hp : h.dataPriv ≠ privM)
    (htrig : (h.trigActive && h.trigCheck va .load) = false) (signed : Bool) :
    (load va n signed h).1 = h.freshLoad va n signed := by
  have hp : h.accPriv .load ≠ privM := hp
  have hguard : h.dataGuard = true := by
    rw [hok.dataGuard, hok.pmpActive_of hp, Bool.true_or, Bool.true_or]
  have hload : load va n signed h = loadGuarded va n signed h := by
    simp only [load, Comp.bind_apply, Comp.view, htrig, hguard, Bool.false_eq_true, if_false, if_true]
  rw [hload, loadGuarded]
  cases hprobe : h.dtlbProbe va n false with
  | some e =>
    obtain ⟨pa, r, hv, hhost⟩ := hc.dtlb_vouches hok (fun he => hD he.has) hn hprobe
    have hv : Vouched h va n .load pa r := hv
    rw [Hart.freshLoad, hv.freshAddr]
    dsimp only
    rw [hv.busRead hok, hhost]
    rfl
  | none =>
    rcases htr : translateActive va .load h with ⟨out, h₁⟩
    obtain ⟨hbus, hpmp, -, hfresh⟩ := hc.freshAddr_eq (n := n) hok hD hp htr
    rw [Hart.freshLoad, hfresh]
    simp only [loadSlow, Comp.bind_apply, crossesPage, Comp.view, h.not_crossesPage hfit, Bool.false_eq_true, if_false,
      htr, pmpAllows]
    cases out with
    | error e => rfl
    | ok pa =>
      simp only [hpmp]
      cases h₁.pmpCheck pa n .load with
      | false => rfl
      | true =>
        simp only [Bool.true_eq_false, if_false, if_true, Comp.bind_apply, busRead, hbus]
        cases (h.bus.read pa n).1 <;> rfl

theorem Coh.store_fresh (hc : Coh h.pteBelow D h) (hok : h.Ok) (hD : ¬ D.Has va) (hn : IsWidth n)
    (hfit : va.toNat % 4096 + n ≤ 4096) (hp : h.dataPriv ≠ privM)
    (htrig : (h.trigActive && h.trigCheck va .store) = false) (val : Word) :
    ((store va n val h).1, (store va n val h).2.bus) = h.freshStore va n val := by
  have hp : h.accPriv .store ≠ privM := hp
  have hguard : h.dataGuard = true := by
    rw [hok.dataGuard, hok.pmpActive_of hp, Bool.true_or, Bool.true_or]
  have hstore : store va n val h = storeGuarded va n val h := by
    simp only [store, Comp.bind_apply, Comp.view, htrig, hguard, Bool.false_eq_true, if_false, if_true]
  rw [hstore, storeGuarded]
  cases hprobe : if h.resvValid then none else h.dtlbProbe va n true with
  | some e =>
    split at hprobe
    · cases hprobe
    obtain ⟨pa, r, hv, hhost⟩ := hc.dtlb_vouches hok (fun he => hD he.has) hn hprobe
    have hv : Vouched h va n .store pa r := hv
    rw [Hart.freshStore, hv.freshAddr]
    dsimp only
    rw [hv.busWrite hok, hhost]
    rfl
  | none =>
    rcases htr : translateActive va .store h with ⟨out, h₁⟩
    obtain ⟨hbus, hpmp, -, hfresh⟩ := hc.freshAddr_eq (n := n) hok hD hp htr
    rw [Hart.freshStore, hfresh]
    simp only [storeSlow, Comp.bind_apply, crossesPage, Comp.view, h.not_crossesPage hfit, Bool.false_eq_true, if_false,
      htr, pmpAllows]
    cases out with
    | error e =>
      dsimp only
      rw [hbus]
    | ok pa =>
      simp only [hpmp]
      cases h₁.pmpCheck pa n .store with
      | false =>
        simp only [if_true, Bool.false_eq_true, if_false, Comp.fail, hbus]
        rfl
      | true =>
        -- the reservation is not the bus's business
        have hbreak : ∃ h₂ : Hart δ, (breakReservation pa : HartM δ Exc Unit) h₁ = (.ok (), h₂) ∧ h₂.bus = h.bus := by
          rw [breakReservation, Comp.change]
          split
          · exact ⟨_, rfl, hbus⟩
          · exact ⟨_, rfl, hbus⟩
        obtain ⟨h₂, hbreak, hbus₂⟩ := hbreak
        simp only [Bool.true_eq_false, if_false, if_true, Comp.bind_apply, hbreak, busWrite, hbus₂]
        cases (h.bus.write pa n val).1 with
        | error f => rfl
        | ok _ =>
          simp only [Except.mapError, Comp.change]
          rw [Hart.dtlbFill_eq]

/-! ## Fetches -/

theorem Coh.fetch_fresh (hc : Coh h.pteBelow D h) (hok : h.Ok) (hD : ¬ D.Has pc) (he : pc &&& 1 = 0)
    (hp : h.priv ≠ privM) : (irFetch16 pc h).1 = h.freshFetch pc := by
  have hp : h.accPriv .fetch ≠ privM := hp
  rw [irFetch16]
  cases hl : h.itlbLookup pc with
  | some fpc =>
    obtain ⟨r, hv⟩ := hc.itlb_vouches hok (fun hex => hD hex.has) (even_fits he) hl
    rw [Hart.freshFetch, hv.freshAddr]
    rfl
  | none =>
    rcases htr : translateActive pc .fetch h with ⟨out, h₁⟩
    obtain ⟨hbus, -, hactive, hfresh⟩ := hc.freshAddr_eq (n := 2) hok hD hp htr
    rw [Hart.freshFetch, hfresh]
    simp only [irFetch16Slow, Comp.bind_apply, htr, pmpFetches, Comp.view]
    cases out with
    | error e => rfl
    | ok pa =>
      simp only [hactive, Bool.not_true, Bool.false_or]
      cases h₁.pmpCheck pa 2 .fetch with
      | false => rfl
      | true =>
        simp only [Bool.true_eq_false, if_false, if_true, Comp.bind_apply, busFetch16, hbus]
        cases h.bus.fetch16 pa <;> rfl

theorem Coh.fetchCheck_fresh (hc : Coh h.pteBelow D h) (hok : h.Ok) (hD : ¬ D.Has pc) (he : pc &&& 1 = 0)
    (hp : h.priv ≠ privM) : (fetchCheck pc h).1 = h.freshAddr pc 2 .fetch := by
  have hp : h.accPriv .fetch ≠ privM := hp
  rw [fetchCheck]
  cases hl : h.itlbLookup pc with
  | some fpc =>
    obtain ⟨r, hv⟩ := hc.itlb_vouches hok (fun hex => hD hex.has) (even_fits he) hl
    exact hv.freshAddr.symm
  | none =>
    rcases htr : translateActive pc .fetch h with ⟨out, h₁⟩
    obtain ⟨-, -, hactive, hfresh⟩ := hc.freshAddr_eq (n := 2) hok hD hp htr
    rw [hfresh]
    simp only [fetchCheckSlow, Comp.bind_apply, htr, pmpFetches, Comp.view]
    cases out with
    | error e => rfl
    | ok pa =>
      simp only [hactive, Bool.not_true, Bool.false_or]
      cases h₁.pmpCheck pa 2 .fetch <;> rfl

/-! ## Every run -/

/-- What the caches answer about pages that are not stale is what the reference says. -/
structure AnswersFresh (D : Stale) (h : Hart δ) : Prop where
  /-- An access ends as it would with nothing cached. -/
  access : ∀ m : MemOp, m.legal = true → (∀ a, m.Touches a → ¬ D.Has a) →
    (m.run h).1 = (m.run h.mmuFlushTlb).1 ∧ (m.run h).2.SameButCaches (m.run h.mmuFlushTlb).2
  /-- The buffer in front of the walk gives what the walk gives. -/
  walk : ∀ va acc, ¬ D.Has va → (translateActive va acc h).1 = (translateActive va acc h.mmuFlushTlb).1
  load : ∀ va n signed, ¬ D.Has va → IsWidth n → va.toNat % 4096 + n ≤ 4096 → h.dataPriv ≠ privM →
    (h.trigActive && h.trigCheck va .load) = false → (load va n signed h).1 = h.freshLoad va n signed
  store : ∀ va n val, ¬ D.Has va → IsWidth n → va.toNat % 4096 + n ≤ 4096 → h.dataPriv ≠ privM →
    (h.trigActive && h.trigCheck va .store) = false →
    ((store va n val h).1, (store va n val h).2.bus) = h.freshStore va n val
  fetch : ∀ pc, ¬ D.Has pc → pc &&& 1 = 0 → h.priv ≠ privM →
    (fetchCheck pc h).1 = h.freshAddr pc 2 .fetch ∧ (irFetch16 pc h).1 = h.freshFetch pc
  /-- The data table gives the host address of the byte. -/
  data : ∀ va n isStore e, ¬ D.Has va → IsWidth n → h.dtlbProbe va n isStore = some e →
    ∃ r off, h.fresh va n (accOf isStore) = .ok (r, off) ∧ r.hostAt off = va.setWidth 64 + e.addend
  /-- The fetch table gives its physical address. -/
  code : ∀ pc pa, ¬ D.Has pc → pc &&& 1 = 0 → h.itlbLookup pc = some pa →
    ∃ r, h.fresh pc 2 .fetch = .ok (r, pa - r.base)

/-- In every run, as long as the page table words behind a translation, and whether they may be read, stay what they
were until a fence covers it, the caches answer as the reference does. -/
theorem Run.answersFresh (hr : Run Hart.pteBelow h D) : AnswersFresh D h where
  access m hl hfresh := by
    obtain ⟨hc, hok⟩ := hr.coherent
    have htwin : Twin h.pteBelow D m.Touches (Reads h.pteBelow) h h.mmuFlushTlb :=
      ⟨hc, .flushTlb, hok, hok.sameButCaches rfl, rfl, rfl, .inr ⟨rfl, hfresh⟩⟩
    obtain ⟨hout, hafter⟩ := keeps_mem m hl (fun _ ht => ht) h h.mmuFlushTlb htwin
    refine ⟨hout, ?_⟩
    have hsame : (m.run h).2 = (m.run h.mmuFlushTlb).2 ∨
        (m.run h).2.SameButCaches (m.run h.mmuFlushTlb).2 ∧ ∀ va, m.Touches va → ¬ D.Has va := by
      cases hm : (m.run h).1 <;> rw [hm] at hafter <;> exact Twin.same hafter
    obtain heq | ⟨hs, -⟩ := hsame
    · rw [heq]
      exact .refl _
    · exact hs
  walk va acc hD := by
    obtain ⟨hc, hok⟩ := hr.coherent
    rw [Hart.translateActive_flushTlb]
    exact hc.translateActive_eq hok rfl fun he => hD he.has
  load va n signed hD hn hfit hp htrig := hr.coherent.1.load_fresh hr.coherent.2 hD hn hfit hp htrig signed
  store va n val hD hn hfit hp htrig := hr.coherent.1.store_fresh hr.coherent.2 hD hn hfit hp htrig val
  fetch pc hD he hp := ⟨hr.coherent.1.fetchCheck_fresh hr.coherent.2 hD he hp,
    hr.coherent.1.fetch_fresh hr.coherent.2 hD he hp⟩
  data va n isStore e hD hn hprobe := by
    obtain ⟨hc, hok⟩ := hr.coherent
    obtain ⟨pa, r, hv, hhost⟩ := hc.dtlb_vouches hok (fun he => hD he.has) hn hprobe
    exact ⟨r, pa - r.base, hv.fresh, hhost⟩
  code pc pa hD he hl := by
    obtain ⟨hc, hok⟩ := hr.coherent
    obtain ⟨r, hv⟩ := hc.itlb_vouches hok (fun hex => hD hex.has) (even_fits he) hl
    exact ⟨r, hv.fresh⟩

/-! ### A run

Supervisor mode on one megapage. Machine mode then takes the page of the root table away from it, without a fence. -/

/-- A list of steps, all of them legal. -/
def Op.replay (h : Hart δ) : List (Op δ) → Option (Hart δ)
  | [] => some h
  | o :: os => (o.run h).bind fun h' => replay h' os

theorem Op.replay_keeps {I : Hart δ → Prop} {os : List (Op δ)} (hI : I h) (hos : Op.replay h os = some h')
    (hstep : ∀ o ∈ os, ∀ g g', I g → o.run g = some g' → I g') : I h' := by
  induction os generalizing h with
  | nil =>
    obtain rfl := Option.some.inj hos
    exact hI
  | cons o os ih =>
    obtain ⟨g, ho, hrest⟩ := Option.bind_eq_some_iff.mp hos
    exact ih (hstep o (List.mem_cons_self ..) h g hI ho) hrest fun o' ho' => hstep o' (List.mem_cons_of_mem _ ho')

/-- A step after which nothing is newly stale. -/
theorem Run.calm {seen : Hart δ → Word → Option Word} {o : Op δ} (hr : Run seen h ∅) (ho : o.run h = some h')
    (hm : marks seen h h' = ∅) : Run seen h' ∅ := by
  have hfenced : o.fenced ∅ = ∅ := by
    unfold Op.fenced
    split
    · rfl
    · exact Set.sep_empty _
    · rfl
    · rfl
  have hstep := hr.step ho
  rw [hfenced, hm, Set.union_empty] at hstep
  exact hstep

/-- Steps that change nothing `seen` sees make nothing stale. -/
theorem Run.replay {seen : Hart δ → Word → Option Word} {I : Hart δ → Prop} {os : List (Op δ)} (hr : Run seen h ∅)
    (hI : I h) (hos : Op.replay h os = some h')
    (hquiet : ∀ o ∈ os, ∀ g g', I g → o.run g = some g' → I g' ∧ seen g' = seen g) : Run seen h' ∅ := by
  induction os generalizing h with
  | nil =>
    obtain rfl := Option.some.inj hos
    exact hr
  | cons o os ih =>
    obtain ⟨g, ho, hrest⟩ := Option.bind_eq_some_iff.mp hos
    obtain ⟨hI', hseen⟩ := hquiet o (List.mem_cons_self ..) h g hI ho
    have hmarks : marks seen h g = ∅ := by
      rw [Set.eq_empty_iff_forall_notMem]
      rintro x ⟨va, -, -, ⟨w, -, hw⟩, -⟩
      rw [hseen] at hw
      exact hw rfl
    exact ih (hr.calm ho hmarks) hI' hrest fun o' ho' => hquiet o' (List.mem_cons_of_mem _ ho')

/-- Nor do steps made while nothing is translated. -/
theorem Run.replay_bare {seen : Hart δ → Word → Option Word} {os : List (Op δ)} (hr : Run seen h ∅)
    (hos : Op.replay h os = some h') (hp : h.paging = false)
    (hbare : ∀ o ∈ os, ∀ g g', o.run g = some g' → g'.satp = g.satp) : Run seen h' ∅ := by
  induction os generalizing h with
  | nil =>
    obtain rfl := Option.some.inj hos
    exact hr
  | cons o os ih =>
    obtain ⟨g, ho, hrest⟩ := Option.bind_eq_some_iff.mp hos
    have hp' : g.paging = false := by
      rw [Hart.paging, hbare o (List.mem_cons_self ..) h g ho]
      exact hp
    have hmarks : marks seen h g = ∅ := by
      rw [Set.eq_empty_iff_forall_notMem]
      rintro x ⟨va, -, hpg, -⟩
      rw [hp'] at hpg
      cases hpg
    exact ih (hr.calm ho hmarks) hrest hp' fun o' ho' => hbare o' (List.mem_cons_of_mem _ ho')

theorem Op.replay_append (h : Hart δ) (os os' : List (Op δ)) :
    Op.replay h (os ++ os') = (Op.replay h os).bind (Op.replay · os') := by
  induction os generalizing h with
  | nil => rfl
  | cons o os ih =>
    rw [List.cons_append, Op.replay, Op.replay]
    cases o.run h with
    | none => rfl
    | some g => exact ih g

theorem Hart.sameButCaches_translateActive (h : Hart δ) (va : Word) (acc : Access) :
    h.SameButCaches (translateActive va acc h).2 := by
  rw [translateActive]
  split
  · obtain heq | ⟨leaf, -, -, -, heq⟩ := h.translate_cases va acc <;> rw [heq] <;> rfl
  · rfl

/-- A load within a page changes nothing but the caches, if no device is read. -/
theorem Hart.sameButCaches_load (h : Hart δ) (hb : Bus.NoDevices h.bus) (hfit : va.toNat % 4096 + n ≤ 4096)
    (signed : Bool) : h.SameButCaches (load va n signed h).2 := by
  have hread (a : Word) : Comp.Keeps h.SameButCaches (busRead a n : HartM δ _ _) := by
    intro s hs
    have hbus : h.bus = s.bus := hs.agree (g := (·.bus)) fun _ _ => rfl
    have hsame : { s with bus := (s.bus.read a n).2 } = s := by
      rw [← hbus, hb.read, hbus]
    rw [busRead, hsame]
    cases (s.bus.read a n).1 <;> exact hs
  have hslow : Comp.Keeps h.SameButCaches (loadSlow va n : HartM δ _ _) := by
    refine .bind (Q := fun crosses s => crosses = false ∧ h.SameButCaches s) (.view fun s hs => ?_) fun crosses => ?_
    · exact ⟨s.not_crossesPage hfit, hs⟩
    refine .ite (fun hc s hs => ?_) fun _ => .bind (Q := fun _ => h.SameButCaches) (fun s hs => ?_) fun pa => ?_
    · rw [hs.1] at hc
      cases hc
    · have hsame := hs.2.trans (s.sameButCaches_translateActive va .load)
      rcases htr : translateActive va .load s with ⟨_ | _, _⟩ <;> rw [htr] at hsame <;> exact hsame
    refine .bind .look fun allowed => .ite (fun _ => .fail fun _ hs => hs) fun _ => ?_
    refine .bind (hread pa) fun v => ?_
    exact .bind (.change fun s hs => hs.trans (s.sameButCaches_dtlbFill va pa)) fun _ => .ret fun _ hs => hs
  have hload : Comp.Keeps h.SameButCaches (load va n signed : HartM δ _ _) := by
    refine .bind .look fun fires => .ite (fun _ => .fail fun _ hs => hs) fun _ => ?_
    refine .bind .look fun guarded => .ite (fun _ s hs => ?_) fun _ => ?_
    · rw [loadGuarded]
      cases s.dtlbProbe va n false with
      | some e => exact hs
      | none =>
        have hm : Comp.Keeps h.SameButCaches
            (do let v ← loadSlow va n; pure (extend v n signed) : HartM δ Exc Word) :=
          .bind hslow fun v => .ret fun _ hs => hs
        exact hm s hs
    · exact .bind (hread va) fun v => .ret fun _ hs => hs
  have hpost := hload h (.refl h)
  rcases hrun : load va n signed h with ⟨_ | _, _⟩ <;> rw [hrun] at hpost <;> exact hpost

theorem MemOp.run_load_state (h : Hart δ) (va : Word) (size : Width) (signed : Bool) :
    ((MemOp.load va size signed).run h).2 = (Rv.load va size.bytes signed h).2 := by
  rw [MemOp.run, Comp.bind_apply, blame, Comp.onError]
  rcases Rv.load va size.bytes signed h with ⟨_ | _, _⟩ <;> rfl

/-- A write to a control register leaves memory alone, and `satp` and the PMP registers unless it is to them. -/
theorem Hart.csrWrite_frame {c : Csr} {val : Word} (hw : h.csrWrite c val = some h') :
    h'.bus = h.bus ∧ (c ≠ .satp → h'.satp = h.satp) ∧ ((∀ i, c ≠ .pmpcfg i) → h'.pmpcfg = h.pmpcfg) ∧
      ((∀ i, c ≠ .pmpaddr i) → h'.pmpaddr = h.pmpaddr) := by
  unfold csrWrite at hw
  split at hw
  · cases hw
  cases c with
  | mstatus | sstatus =>
    obtain rfl := Option.some.inj hw
    exact ⟨rfl, fun _ => rfl, fun _ => rfl, fun _ => rfl⟩
  | pmpcfg i =>
    obtain rfl := Option.some.inj hw
    exact ⟨rfl, fun _ => rfl, fun hc => absurd rfl (hc i), fun _ => rfl⟩
  | satp =>
    dsimp only at hw
    split_ifs at hw
    obtain rfl := Option.some.inj hw
    exact ⟨rfl, fun hc => absurd rfl hc, fun _ => rfl, fun _ => rfl⟩
  | pmpaddr i =>
    dsimp only at hw
    split_ifs at hw <;> obtain rfl := Option.some.inj hw
    · exact ⟨rfl, fun _ => rfl, fun _ => rfl, fun _ => rfl⟩
    · exact ⟨rfl, fun _ => rfl, fun _ => rfl, fun hc => absurd rfl (hc i)⟩

theorem Hart.trap_bus (h : Hart δ) (cause tval : Word) : (h.trap cause tval).bus = h.bus := by
  have hvalue : (h.trapValue cause tval).2.bus = h.bus := by
    rw [trapValue]
    split
    · rw [illegalTval_state]
      have hsame := Hart.sameButCaches_translateActive { h with splitValid := false } h.pc .fetch
      exact (hsame.agree (g := (·.bus)) fun _ _ => rfl).symm
    · rfl
  have henter (g : Hart δ) (v : Word) : (g.enterTrap cause v).bus = g.bus := by
    rw [enterTrap]
    cases g.trapToS cause <;> rfl
  exact (henter _ _).trans hvalue

/-- 64 KiB of memory at `0x80000000`, with a root table at `0x80001000` that maps a megapage onto itself. -/
def megaBus : Bus Unit where
  regions := [⟨0x80000000, 0x10000, 0x1000, .ram, permR ||| permW ||| permX, wAny⟩]
  mem p := if p = 0x2800 then 0xCF else if p = 0x2803 then 0x20 else 0
  dev := ()
  devices := ⟨fun d m _ _ _ => (.error .load, d, m), fun d m _ _ _ _ => (.error .store, d, m)⟩
  bigEndian := false

theorem megaBus_wf : megaBus.Wf :=
  ⟨by simp [megaBus, Region.Valid], List.pairwise_singleton _ _⟩

/-- A load in the megapage. -/
def megaLoad (va : Word) : MemOp := .load va .word false

/-- There are four configuration registers. -/
theorem pmpcfg_pos : 0 < 4 := by decide

/-- Machine mode grants all of memory, one word of it by an entry of its own. -/
def grantMemory : List (Op Unit) :=
  [.ctl (.csr (.pmpaddr 1) 0x20001001), .ctl (.csr (.pmpaddr 2) 0x3FFFFFFF), .ctl (.csr (.pmpcfg ⟨0, pmpcfg_pos⟩) 0x1F1100)]

/-- Supervisor mode is entered, and loads. -/
def loadMega : List (Op Unit) :=
  [.ctl (.csr .satp 0x80080001), .ctl (.csr .mstatus 0x800), .ctl .mret, .mem (megaLoad 0x80004000),
    .mem (megaLoad 0x80005000)]

def enterSupervisor : List (Op Unit) :=
  grantMemory ++ loadMega

/-- It traps, and machine mode takes the page of the root table away. -/
def denyRoot : List (Op Unit) :=
  [.ctl (.trap Exc.ecallS.code 0), .ctl (.csr (.pmpaddr 0) 0x200005FF), .ctl (.csr (.pmpcfg ⟨0, pmpcfg_pos⟩) 0x1F1118),
    .ctl (.csr .mstatus 0x800), .ctl .mret]

/-- The hart these steps lead to. -/
def megaHart (os : List (Op Unit)) : Hart Unit :=
  (Op.replay ((Hart.zeroed megaBus).reset megaBus 0x80000000) os).getD (.zeroed megaBus)

theorem megaHart_eq {os : List (Op Unit)}
    (hs : (Op.replay ((Hart.zeroed megaBus).reset megaBus 0x80000000) os).isSome = true) :
    Op.replay ((Hart.zeroed megaBus).reset megaBus 0x80000000) os = some (megaHart os) := by
  obtain ⟨g, hg⟩ := Option.isSome_iff_exists.mp hs
  rw [megaHart, hg, Option.getD_some]

/-- What is in memory at a page table word, whether or not the walk may read it. -/
def busWord (h : Hart δ) (a : Word) : Option Word :=
  (h.bus.read a 4).1.toOption

theorem megaLoad_same (hfit : va.toNat % 4096 + 4 ≤ 4096) {g g' : Hart Unit} (hb : g.bus = megaBus)
    (hr : Op.run g (.mem (megaLoad va)) = some g') : g'.SameButCaches g := by
  have hmem : Bus.NoDevices g.bus := by
    rw [hb]
    simp [Bus.NoDevices, megaBus]
  obtain rfl := Option.some.inj hr
  rw [megaLoad, MemOp.run_load_state]
  exact (g.sameButCaches_load hmem hfit false).symm

/-- None of these steps writes to memory. -/
theorem megaHart_bus {o : Op Unit} (ho : o ∈ enterSupervisor ++ denyRoot) {g g' : Hart Unit} (hb : g.bus = megaBus)
    (hr : o.run g = some g') : g'.bus = g.bus := by
  have hload (va : Word) (hfit : va.toNat % 4096 + 4 ≤ 4096) (hl : o = .mem (megaLoad va)) : g'.bus = g.bus := by
    subst hl
    exact (megaLoad_same hfit hb hr).agree (g := (·.bus)) fun _ _ => rfl
  have hcsr (c : Hart.Csr) (val : Word) (hc : o = .ctl (.csr c val)) : g'.bus = g.bus := by
    subst hc
    exact (Hart.csrWrite_frame hr).1
  have hmret (hm : o = .ctl .mret) : g'.bus = g.bus := by
    subst hm
    rw [Op.run, CtlOp.run] at hr
    split_ifs at hr
    obtain rfl := Option.some.inj hr
    rfl
  have htrap (htr : o = .ctl (.trap Exc.ecallS.code 0)) : g'.bus = g.bus := by
    subst htr
    obtain rfl := Option.some.inj hr
    exact g.trap_bus _ _
  simp only [enterSupervisor, grantMemory, loadMega, denyRoot, List.mem_append, List.mem_cons, List.not_mem_nil,
    or_false] at ho
  rcases ho with ((h | h | h) | (h | h | h | h | h)) | (h | h | h | h | h)
  all_goals first | exact hload _ (by decide) h | exact hcsr _ _ h | exact hmret h | exact htrap h

theorem megaHart_run {os : List (Op Unit)} (hos : os ⊆ enterSupervisor ++ denyRoot)
    (hs : (Op.replay ((Hart.zeroed megaBus).reset megaBus 0x80000000) os).isSome = true) :
    Run busWord (megaHart os) ∅ := by
  refine (Run.reset megaBus_wf rfl).replay (I := (·.bus = megaBus)) rfl (megaHart_eq hs) fun o ho g g' hb hr => ?_
  have hbus := megaHart_bus (hos ho) hb hr
  refine ⟨hbus.trans hb, ?_⟩
  funext a
  rw [busWord, busWord, hbus]

/-- Page table words that stay what they are do not suffice: once PMP denies the walk a word it has read before, the
buffer still answers. Nor does PMP decide byte by byte: an access that is only partly in an entry is refused. -/
theorem not_answersFresh_megaHart :
    (Run busWord (megaHart (enterSupervisor ++ denyRoot)) ∅ ∧
      ((megaLoad 0x80004000).run (megaHart (enterSupervisor ++ denyRoot))).1 = .ok 0 ∧
      (megaHart (enterSupervisor ++ denyRoot)).freshAddr 0x80004000 4 .load = .error .loadAccessFault) ∧
    Run busWord (megaHart enterSupervisor) ∅ ∧
      ((megaLoad 0x80004002).run (megaHart enterSupervisor)).1 = .error (.loadAccessFault, 0x80004002) ∧
      ∀ i < 4, (megaHart enterSupervisor).freshAddr (0x80004002 + BitVec.ofNat 32 i) 1 .load =
        .ok (0x80004002 + BitVec.ofNat 32 i) := by
  refine ⟨⟨megaHart_run (List.Subset.refl _) (by decide +kernel), by decide +kernel, by decide +kernel⟩,
    megaHart_run (List.subset_append_left _ _) (by decide +kernel), by decide +kernel, by decide +kernel⟩

theorem Hart.pteBelow_congr (hbus : h'.bus = h.bus) (hcfg : h'.pmpcfg = h.pmpcfg) (haddr : h'.pmpaddr = h.pmpaddr) :
    h'.pteBelow = h.pteBelow := by
  funext a
  rw [pteBelow, pteBelow, hbus, pmpCheckAt_congr hcfg haddr]

/-- Supervisor mode, with its pages in the caches. -/
theorem answersFresh_megaHart :
    ((megaHart enterSupervisor).dtlbProbe 0x80005000 4 false).isSome = true ∧
      AnswersFresh ∅ (megaHart enterSupervisor) := by
  refine ⟨by decide +kernel, Run.answersFresh ?_⟩
  have hgranted : Run Hart.pteBelow (megaHart grantMemory) ∅ := by
    refine (Run.reset megaBus_wf rfl).replay_bare (megaHart_eq (by decide +kernel)) (by decide +kernel) fun o ho g g' hr => ?_
    simp only [grantMemory, List.mem_cons, List.not_mem_nil, or_false] at ho
    obtain rfl | rfl | rfl := ho <;> exact (Hart.csrWrite_frame hr).2.1 (by decide)
  have hrest : Op.replay (megaHart grantMemory) loadMega = some (megaHart enterSupervisor) := by
    have hall : Op.replay _ enterSupervisor = some (megaHart enterSupervisor) := megaHart_eq (by decide +kernel)
    rw [enterSupervisor, Op.replay_append, megaHart_eq (by decide +kernel), Option.bind_some] at hall
    exact hall
  have hbus : (megaHart grantMemory).bus = megaBus :=
    Op.replay_keeps (I := (·.bus = megaBus)) rfl (megaHart_eq (by decide +kernel)) fun o ho g g' hb hr =>
      (megaHart_bus (List.mem_append_left _ (List.mem_append_left _ ho)) hb hr).trans hb
  refine hgranted.replay (I := (·.bus = megaBus)) hbus hrest fun o ho g g' hb hr => ?_
  refine ⟨(megaHart_bus (List.mem_append_left _ (List.mem_append_right _ ho)) hb hr).trans hb, ?_⟩
  have hcsr (c : Hart.Csr) (val : Word) (hc : (∀ i, c ≠ .pmpcfg i) ∧ ∀ i, c ≠ .pmpaddr i)
      (hw : g.csrWrite c val = some g') : g'.pteBelow = g.pteBelow := by
    obtain ⟨hbus, -, hcfg, haddr⟩ := Hart.csrWrite_frame hw
    exact Hart.pteBelow_congr hbus (hcfg hc.1) (haddr hc.2)
  have hload (va : Word) (hfit : va.toNat % 4096 + 4 ≤ 4096) (hl : Op.run g (.mem (megaLoad va)) = some g') :
      g'.pteBelow = g.pteBelow := by
    have hsame := megaLoad_same hfit hb hl
    exact Hart.pteBelow_congr (hsame.agree fun _ _ => rfl) (hsame.agree fun _ _ => rfl) (hsame.agree fun _ _ => rfl)
  simp only [loadMega, List.mem_cons, List.not_mem_nil, or_false] at ho
  obtain rfl | rfl | rfl | rfl | rfl := ho
  · exact hcsr .satp _ ⟨nofun, nofun⟩ hr
  · exact hcsr .mstatus _ ⟨nofun, nofun⟩ hr
  · rw [Op.run, CtlOp.run] at hr
    split_ifs at hr
    obtain rfl := Option.some.inj hr
    exact Hart.pteBelow_congr rfl rfl rfl
  · exact hload _ (by decide) hr
  · exact hload _ (by decide) hr

end Emu.Rv
