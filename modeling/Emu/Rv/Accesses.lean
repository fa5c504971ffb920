-- SUMMARY: Every memory access of the hart keeps twins twins, and has the same outcome on both.
import Emu.Rv.Twins

/-! # Accesses of twins -/

namespace Emu.Rv

variable {δ ε α : Type} {h : Hart δ} {rd : Word → Option Word} {va pa pc : Word} {acc : Access}
variable {D : Stale} {V : Word → Prop} {F : Hart δ → Prop} {n : Nat} {r : Region}

open Comp (Agrees)

/-- The bytes of an access. -/
def Span (va : Word) (n : Nat) (a : Word) : Prop :=
  ∃ i < n, a = va + BitVec.ofNat 32 i

theorem Span.first (hn : 0 < n) : Span va n va :=
  ⟨0, hn, by simp⟩

/-- A computation that keeps twins, and nothing more is known of them. -/
abbrev KeepsTwins (rd : Word → Option Word) (D : Stale) (V : Word → Prop) (F : Hart δ → Prop) (m : HartM δ ε α) :
    Prop :=
  Agrees (Twin rd D V F) m (fun _ => Twin.Any rd D V) (Twin.Any rd D V)

theorem keeps_ret (a : α) : KeepsTwins rd D V F (pure a : HartM δ ε α) :=
  .ret fun _ _ ht => ht.any

theorem keeps_fail (e : ε) : KeepsTwins rd D V F (Comp.fail e : HartM δ ε α) :=
  .fail fun _ _ ht => ht.any

theorem keeps_busRead (a : Word) : KeepsTwins rd D V F (busRead a n) :=
  twin_busRead a fun _ _ _ _ => trivial

theorem keeps_busWrite (a val : Word) : KeepsTwins rd D V F (busWrite a n val) :=
  twin_busWrite a val fun _ _ _ _ => trivial

theorem keeps_breakReservation (a : Word) : KeepsTwins rd D V F (breakReservation a : HartM δ ε Unit) :=
  twin_breakReservation a (fun _ _ => trivial) fun _ _ => trivial

/-- An error reported otherwise, with nothing done to the hart. -/
theorem twin_relabel {ε' : Type} {m : HartM δ ε α} {Q : α → Hart δ → Hart δ → Prop} {f : ε → ε'}
    (hm : Agrees (Twin rd D V F) m Q (Twin.Any rd D V)) :
    Agrees (Twin rd D V F) (m.onError fun e => (f e, id)) Q (Twin.Any rd D V) :=
  hm.onError fun _ _ _ ht => ht

/-! ## Wide and split accesses -/

theorem twin_translateParts {pieces : List (Word × Nat)} (hV : ∀ p ∈ pieces, V p.1) :
    Agrees (Twin rd D V (Reads rd)) (translateParts acc pieces : HartM δ _ _) (fun _ => Twin rd D V (Reads rd))
      (Twin.Any rd D V) := by
  induction pieces with
  | nil => exact .ret fun _ _ ht => ht
  | cons p rest ih =>
    refine .bind (twin_relabel (twin_translate (hV p (List.mem_cons_self ..)))) fun pa => ?_
    refine .bind ((ih fun q hq => hV q (List.mem_cons_of_mem _ hq)).pre fun _ _ ht => ?_) fun parts => ?_
    · exact ht.imp And.left And.left
    · exact .ret fun _ _ ht => ht

theorem keeps_checkParts (parts : List Part) : KeepsTwins rd D V F (checkParts acc parts : HartM δ _ _) := by
  induction parts with
  | nil => exact keeps_ret ()
  | cons p rest ih =>
    refine .bind (twin_pmpAllows p.pa) fun allowed => .ite (fun _ => keeps_fail _) fun _ => ?_
    refine .bind (twin_view fun _ _ => rfl) fun held => .ite (fun _ => keeps_fail _) fun _ => ?_
    exact ih

theorem keeps_transferPart (fuel : Nat) (a : Word) (left : Nat) (s : Nat × BitVec 64) :
    KeepsTwins rd D V F (transferPart acc va fuel a left s : HartM δ _ _) := by
  induction fuel generalizing a left s F with
  | zero => exact keeps_ret s
  | succ fuel ih =>
    refine .ite (fun _ => keeps_ret _) fun _ => .ite (fun _ => ?_) fun _ => ?_
    · refine .bind (keeps_breakReservation a) fun _ => .bind (twin_relabel (keeps_busWrite a _)) fun _ => ?_
      exact .bind (keeps_ret _) fun v => ih _ _ _
    · exact .bind (twin_relabel (keeps_busRead a)) fun w => .bind (keeps_ret _) fun v => ih _ _ _

theorem keeps_transferParts (parts : List Part) (s : Nat × BitVec 64) :
    KeepsTwins rd D V F (transferParts acc va parts s : HartM δ _ _) := by
  induction parts generalizing s F with
  | nil => exact keeps_ret s
  | cons p rest ih => exact .bind (keeps_transferPart _ _ _ _) fun s => ih s

/-- Both pages of a split access hold bytes of it. -/
theorem Hart.parts_span (hn : 0 < n) {p : Word × Nat} (hp : p ∈ h.parts va n) : Span va n p.1 := by
  rw [parts] at hp
  split_ifs at hp with hsplit
  · rw [List.mem_cons, List.mem_singleton] at hp
    obtain rfl | rfl := hp
    · exact .first hn
    · exact ⟨_, hsplit.2, rfl⟩
  · rw [List.mem_singleton] at hp
    rw [hp]
    exact .first hn

theorem keeps_memWide (hn : 0 < n) (hV : ∀ a, Span va n a → V a) (val : BitVec 64) :
    KeepsTwins rd D V (Reads rd) (memWide va n acc val : HartM δ _ _) := by
  -- the pieces are those of either hart, so they are what `Hart.parts` gives
  refine .bind (Q := fun pieces s t => Twin rd D V (Reads rd) s t ∧ pieces = s.parts va n) (.view fun s t ht => ?_)
    fun pieces => ?_
  · exact ⟨ht.agree (g := fun h => h.parts va n) fun _ _ => rfl, ht, rfl⟩
  intro s t ⟨ht, hpieces⟩
  have hspan : ∀ p ∈ pieces, V p.1 := fun p hp => hV _ (Hart.parts_span hn (hpieces ▸ hp))
  refine Agrees.bind (twin_translateParts hspan) (fun parts => ?_) s t ht
  refine .bind (keeps_checkParts parts) fun _ => .bind (keeps_transferParts parts _) fun s => ?_
  exact keeps_ret s.2

theorem keeps_splitAccess (hn : 0 < n) (hV : ∀ a, Span va n a → V a) (val : BitVec 64) :
    KeepsTwins rd D V (Reads rd) (splitAccess va n acc val : HartM δ _ _) :=
  (keeps_memWide hn hV val).onError fun e _ _ ht => (neutral_split va e.2).twin ht fun _ _ => trivial

theorem keeps_load64 (hV : ∀ a, Span va 8 a → V a) : KeepsTwins rd D V (Reads rd) (load64 va : HartM δ _ _) :=
  .bind (twin_view fun _ _ => rfl) fun _ => .ite (fun _ => keeps_fail _) fun _ => keeps_memWide (by decide) hV 0

theorem keeps_store64 (hV : ∀ a, Span va 8 a → V a) (val : BitVec 64) :
    KeepsTwins rd D V (Reads rd) (store64 va val : HartM δ _ _) :=
  .bind (twin_view fun _ _ => rfl) fun _ => .ite (fun _ => keeps_fail _) fun _ => keeps_memWide (by decide) hV val

/-! ## Atomics and cache blocks -/

theorem keeps_setReg (x : BitVec 5) (v : Word) : KeepsTwins rd D V F (setReg x v : HartM δ ε Unit) :=
  (twin_setReg x v).pre fun _ _ ht => ht.any

/-- A translation, where it does not matter where the page is. -/
theorem keeps_translate (hV : V va) :
    Agrees (Twin rd D V (Reads rd)) (translateActive va acc : HartM δ Exc Word) (fun _ => Twin.Any rd D V)
      (Twin.Any rd D V) :=
  (twin_translate hV).conseq (fun _ _ ht => ht) (fun _ _ _ ht => ht.any) fun _ _ ht => ht

theorem keeps_setResv (valid : Bool) (addr : Hart δ → Word) (haddr : ∀ h c, addr (h.withCaches c) = addr h) :
    KeepsTwins rd D V F
      (Comp.change fun h : Hart δ => { h with resvValid := valid, resvAddr := addr h } : HartM δ ε Unit) :=
  twin_change (neutral_resv valid addr haddr) fun _ _ => trivial

theorem keeps_amo (op : AmoOp) (x : BitVec 5) (addr src : Word) (hV : V addr) :
    KeepsTwins rd D V (Reads rd) (amo op x addr src : HartM δ _ _) := by
  -- what reads, computes and writes
  have hrmw (f : Word → Word) (pa : Word) : KeepsTwins rd D V (fun _ => True)
      (do
        let old ← (busRead pa 4).onError fun _ => (.storeAccessFault, id)
        busWrite pa 4 (f old)
        setReg x old : HartM δ Exc Unit) :=
    .bind (twin_relabel (keeps_busRead pa)) fun old => .bind (keeps_busWrite pa _) fun _ => keeps_setReg x old
  refine .ite (fun _ => keeps_fail _) fun _ => .bind (keeps_translate hV) fun pa => ?_
  refine .bind (twin_view fun _ _ => rfl) fun denied => .ite (fun _ => keeps_fail _) fun _ => ?_
  cases op with
  | lr =>
    refine .bind (keeps_busRead pa) fun v => ?_
    exact .bind (keeps_setResv true (fun _ => pa) fun _ _ => rfl) fun _ => keeps_setReg x v
  | sc =>
    have hclear : Neutral fun h : Hart δ => { h with resvValid := false } :=
      neutral_resv false (·.resvAddr) fun _ _ => rfl
    refine .bind (twin_view fun _ _ => rfl) fun writable => .ite (fun _ => keeps_fail _) fun _ => ?_
    refine .bind (twin_view fun _ _ => rfl) fun held => .ite (fun _ => keeps_setReg x 1) fun _ => ?_
    refine .bind ((keeps_busWrite pa src).onError fun _ _ _ ht => hclear.twin ht fun _ _ => trivial) fun _ => ?_
    exact .bind (keeps_setResv false (·.resvAddr) fun _ _ => rfl) fun _ => keeps_setReg x 0
  | cas =>
    refine .bind (twin_relabel (keeps_busRead pa)) fun old => .bind (twin_view fun _ _ => rfl) fun comparand => ?_
    exact .ite (fun _ => .bind (keeps_busWrite pa src) fun _ => keeps_setReg x old) fun _ =>
      .bind (keeps_ret ()) fun _ => keeps_setReg x old
  | add | swap | xor | or | and | min | max | minu | maxu => exact hrmw _ pa

theorem keeps_amocasD (x y : BitVec 5) (addr : Word) (hV : V addr) :
    KeepsTwins rd D V (Reads rd) (amocasD x y addr : HartM δ _ _) := by
  have hreg (z : BitVec 5) (hi : Bool) : Agrees (Twin.Any rd D V) (pairReg z hi : HartM δ Exc Word)
      (fun _ => Twin.Any rd D V) (Twin.Any rd D V) := twin_view fun _ _ => rfl
  have hend (lo hi : Word) : KeepsTwins rd D V (fun _ => True)
      (if x = 0 then pure () else do setReg x lo; setReg (x + 1) hi : HartM δ Exc Unit) :=
    .ite (fun _ => keeps_ret ()) fun _ => .bind (keeps_setReg x lo) fun _ => keeps_setReg _ hi
  refine .ite (fun _ => keeps_fail _) fun _ => .bind (keeps_translate hV) fun pa => ?_
  refine .bind (twin_pmpAllows pa) fun allowed => .ite (fun _ => keeps_fail _) fun _ => ?_
  refine .bind (twin_relabel (keeps_busRead pa)) fun lo => .bind (twin_relabel (keeps_busRead (pa + 4))) fun hi => ?_
  refine .bind (hreg x false) fun cmpLo => .bind (hreg x true) fun cmpHi => .ite (fun _ => ?_) fun _ => ?_
  · refine .bind (hreg y false) fun newLo => .bind (hreg y true) fun newHi => ?_
    exact .bind (keeps_busWrite pa newLo) fun _ => .bind (keeps_busWrite (pa + 4) newHi) fun _ => hend lo hi
  · exact .bind (keeps_ret ()) fun _ => hend lo hi

theorem keeps_zeroWords (base pa : Word) (k i : Nat) :
    KeepsTwins rd D V F (zeroWords base pa k i : HartM δ _ _) := by
  induction k generalizing i F with
  | zero => exact keeps_ret ()
  | succ k ih =>
    refine .bind (keeps_breakReservation _) fun _ => .bind (twin_relabel (keeps_busWrite _ 0)) fun _ => ?_
    exact ih (i + 4)

theorem keeps_cbo (op : CboOp) (addr : Word) (hV : V (addr &&& ~~~(BitVec.ofNat 32 cacheBlockSize - 1))) :
    KeepsTwins rd D V (Reads rd) (cbo op addr : HartM δ _ _) := by
  have hmaintain : KeepsTwins rd D V (Reads rd)
      (cboMaintain (addr &&& ~~~(BitVec.ofNat 32 cacheBlockSize - 1)) : HartM δ _ _) := by
    refine .bind (twin_relabel (keeps_translate hV)) fun pa => ?_
    refine .bind (twin_view fun _ _ => rfl) fun allowed => .ite (fun _ => keeps_fail _) fun _ => ?_
    exact .bind (twin_view fun _ _ => rfl) fun found => .ite (fun _ => keeps_fail _) fun _ => keeps_ret ()
  refine .bind (twin_view fun _ _ => rfl) fun permitted => ?_
  match permitted with
  | none => exact keeps_fail _
  | some .zero =>
    refine .bind (twin_view fun _ _ => rfl) fun trigger => ?_
    cases trigger with
    | some word => exact keeps_fail _
    | none =>
      refine .bind (twin_relabel (keeps_translate hV)) fun pa => ?_
      refine .bind (twin_pmpAllows pa) fun allowed => .ite (fun _ => keeps_fail _) fun _ => ?_
      refine .bind (twin_view fun _ _ => rfl) fun held => .ite (fun _ => keeps_fail _) fun _ => ?_
      exact keeps_zeroWords _ _ _ _
  | some .inval => exact hmaintain
  | some .clean => exact hmaintain
  | some .flush => exact hmaintain

/-! ## Loads and stores -/

theorem keeps_loadSlow (hn : 0 < n) (hV : ∀ a, Span va n a → V a) :
    KeepsTwins rd D V (Reads rd) (loadSlow va n : HartM δ _ _) := by
  refine .bind (twin_view fun _ _ => rfl) fun crosses => .ite (fun _ => ?_) fun _ => ?_
  · exact .bind (keeps_splitAccess hn hV 0) fun wide => keeps_ret _
  refine .bind (twin_translate (hV va (.first hn))) fun pa => ?_
  refine .bind (twin_pmpAllows pa) fun allowed => .ite (fun _ => keeps_fail _) fun _ => ?_
  -- where the page is does not depend on what the bus holds
  refine .bind (twin_busRead pa (G := PlacedIn rd D va .load pa) fun _ _ hF _ => hF.2) fun v => ?_
  refine .bind (Q := fun _ => Twin.Any rd D V) ?_ fun _ => keeps_ret v
  exact twin_fill (fun h hc _ hF => hc.dtlbFill_fills hF (by decide)) fun _ _ _ => trivial

theorem keeps_storeSlow (hn : 0 < n) (hV : ∀ a, Span va n a → V a) (val : Word) :
    KeepsTwins rd D V (Reads rd) (storeSlow va n val : HartM δ _ _) := by
  refine .bind (twin_view fun _ _ => rfl) fun crosses => .ite (fun _ => ?_) fun _ => ?_
  · exact .bind (keeps_splitAccess hn hV _) fun _ => keeps_ret _
  refine .bind (twin_translate (hV va (.first hn))) fun pa => ?_
  refine .bind (twin_pmpAllows pa) fun allowed => .ite (fun _ => keeps_fail _) fun _ => ?_
  refine .bind (twin_breakReservation pa (G := PlacedIn rd D va .store pa) (fun _ hF => hF.2) fun _ hF => hF.2)
    fun _ => ?_
  refine .bind (twin_busWrite pa val (G := PlacedIn rd D va .store pa) fun _ _ hF _ => hF) fun _ => ?_
  exact twin_fill (fun h hc _ hF => hc.dtlbFill_fills hF (by decide)) fun _ _ _ => trivial

/-! ### What the tables answer

Where a table vouches for an access, the long way round gives the same and ends at the same place. -/

theorem Hart.Ok.order (hok : h.Ok) (v : Word) (size : Nat) : h.bus.order v size = v := by
  rw [Bus.order, hok.little]
  rfl

theorem Vouched.busRead (hv : Vouched h va n .load pa r) (hok : h.Ok) :
    h.bus.read pa n = (.ok (h.bus.mem.load (r.hostAt (pa - r.base)) n), h.bus) := by
  have hcheck : h.bus.check pa n permR = some (r, pa - r.base) := hv.check
  rw [Bus.read, hcheck]
  obtain hk | ⟨hk, -⟩ := hv.memory <;> simp only [hk, hok.order]

theorem Vouched.busWrite (hv : Vouched h va n .store pa r) (hok : h.Ok) (val : Word) :
    h.bus.write pa n val =
      (.ok (), { h.bus with mem := h.bus.mem.store (r.hostAt (pa - r.base)) val n }) := by
  have hcheck : h.bus.check pa n permW = some (r, pa - r.base) := hv.check
  rw [Bus.write, hcheck]
  obtain hk | ⟨-, hk⟩ := hv.memory
  · simp only [hk, hok.order]
  · exact absurd rfl hk

/-- The way to the bus, for an access that is allowed. -/
theorem Coh.toBus (hc : Coh rd D h) (hok : h.Ok) (hr : Reads rd h) (hD : ¬ D.Has va) (hv : Vouched h va n acc pa r) :
    (translateActive va acc h).1 = .ok pa ∧ h.SameButCaches (translateActive va acc h).2 ∧
      (translateActive va acc h).2.bus = h.bus ∧ (translateActive va acc h).2.pmpCheck pa n acc = true := by
  have hf := hc.translateActive_fills hok hr va acc
  refine ⟨?_, hf.same, ?_, ?_⟩
  · rw [hc.translateActive_eq hok hr fun he => hD he.has]
    exact hv.translated
  · exact (hf.same.agree (g := (·.bus)) fun _ _ => rfl).symm
  · rw [← hf.same.pmpCheck]
    exact hv.pmp

theorem Hart.sameButCaches_dtlbFill (h : Hart δ) (va pa : Word) : h.SameButCaches (h.dtlbFill va pa) := by
  rw [dtlbFill_eq]
  rfl

theorem Hart.sameButCaches_itlbFill (h : Hart δ) (va pa : Word) : h.SameButCaches (h.itlbFill va pa) := by
  rw [itlbFill_eq]
  rfl

theorem Hart.not_crossesPage (h : Hart δ) (hfit : va.toNat % 4096 + n ≤ 4096) :
    (h.vmActive && decide ((va &&& 0xFFF).toNat + n > 0x1000)) = false := by
  have hoff : (va &&& 0xFFF).toNat = va.toNat % 4096 := by
    rw [BitVec.toNat_and]
    exact Nat.and_two_pow_sub_one_eq_mod va.toNat 12
  rw [hoff, decide_eq_false (by omega), Bool.and_false]

theorem Coh.loadSlow_vouched (hc : Coh rd D h) (hok : h.Ok) (hr : Reads rd h) (hD : ¬ D.Has va)
    (hfit : va.toNat % 4096 + n ≤ 4096) (hv : Vouched h va n .load pa r) :
    (loadSlow va n h).1 = .ok (h.bus.mem.load (r.hostAt (pa - r.base)) n) ∧
      h.SameButCaches (loadSlow va n h).2 := by
  obtain ⟨hout, hsame, hbus, hpmp⟩ := hc.toBus hok hr hD hv
  have hcross := h.not_crossesPage hfit
  set h₁ := (translateActive va .load h).2 with hh₁
  have htr : translateActive va .load h = (.ok pa, h₁) := by rw [← hout]
  have hread : busRead pa n h₁ = (.ok (h.bus.mem.load (r.hostAt (pa - r.base)) n), h₁) := by
    rw [Rv.busRead, hbus, hv.busRead hok, ← hbus]
    rfl
  have hrun : loadSlow va n h = (.ok (h.bus.mem.load (r.hostAt (pa - r.base)) n), h₁.dtlbFill va pa) := by
    simp only [loadSlow, Comp.bind_apply, crossesPage, Comp.view, hcross, htr, pmpAllows, hpmp, Bool.or_true,
      Bool.true_eq_false, Bool.false_eq_true, if_false, hread, Comp.change]
    rfl
  rw [hrun]
  exact ⟨rfl, hsame.trans (h₁.sameButCaches_dtlbFill va pa)⟩

theorem Coh.storeSlow_vouched (hc : Coh rd D h) (hok : h.Ok) (hr : Reads rd h) (hD : ¬ D.Has va)
    (hfit : va.toNat % 4096 + n ≤ 4096) (hresv : h.resvValid = false) (hv : Vouched h va n .store pa r) (val : Word) :
    (storeSlow va n val h).1 = .ok () ∧
      Hart.SameButCaches { h with bus := { h.bus with mem := h.bus.mem.store (r.hostAt (pa - r.base)) val n } }
        (storeSlow va n val h).2 := by
  obtain ⟨hout, hsame, hbus, hpmp⟩ := hc.toBus hok hr hD hv
  have hcross := h.not_crossesPage hfit
  set h₁ := (translateActive va .store h).2 with hh₁
  have htr : translateActive va .store h = (.ok pa, h₁) := by rw [← hout]
  have hresv₁ : h₁.resvValid = false := by
    rw [← hresv]
    exact (hsame.agree (g := (·.resvValid)) fun _ _ => rfl).symm
  have hbreak : (breakReservation pa : HartM δ Exc Unit) h₁ = (.ok (), h₁) := by
    rw [breakReservation, Comp.change, hresv₁, if_neg (fun hbad => Bool.false_ne_true hbad.1)]
  have hwrite : Rv.busWrite pa n val h₁ = (.ok (), { h₁ with bus := (h.bus.write pa n val).2 }) := by
    rw [Rv.busWrite, hbus, hv.busWrite hok]
    rfl
  have hrun : storeSlow va n val h =
      (.ok (), Hart.dtlbFill { h₁ with bus := (h.bus.write pa n val).2 } va pa) := by
    simp only [storeSlow, Comp.bind_apply, crossesPage, Comp.view, hcross, htr, pmpAllows, hpmp, Bool.or_true,
      Bool.true_eq_false, Bool.false_eq_true, if_false, hbreak, hwrite, Comp.change]
  rw [hrun, hv.busWrite hok]
  exact ⟨rfl, (hsame.setBus _).trans (Hart.sameButCaches_dtlbFill _ va pa)⟩

theorem keeps_loadGuarded (hn : IsWidth n) (hV : ∀ a, Span va n a → V a) (signed : Bool) :
    KeepsTwins rd D V (Reads rd) (loadGuarded va n signed : HartM δ _ _) := by
  have hpos : 0 < n := by
    obtain rfl | rfl | rfl := hn <;> decide
  refine twin_shortcut (H := fun _ _ => True) (hV va (.first hpos))
    (.bind (keeps_loadSlow hpos hV) fun v => keeps_ret (extend v n signed)) fun h hc hok hr => ?_
  rw [loadGuarded]
  cases hprobe : h.dtlbProbe va n false with
  | none => exact .inl rfl
  | some e =>
    refine .inr ⟨hc, hok, fun _ _ => trivial, fun hD => ?_⟩
    have hfit := aligned_fits hn (Hart.dtlbProbe_some hprobe).2.1
    obtain ⟨pa, r, hv, hhost⟩ := Coh.dtlb_vouches (hr.symm ▸ hc) hok (fun he => hD he.has) hn hprobe
    obtain ⟨hout, hsame⟩ := hc.loadSlow_vouched hok hr hD hfit hv
    have hslow : loadSlow va n h = (.ok (h.bus.mem.load (va.setWidth 64 + e.addend) n), (loadSlow va n h).2) := by
      rw [← hhost, ← hout]
    rw [Comp.bind_apply, hslow]
    exact ⟨rfl, hsame⟩

theorem keeps_storeGuarded (hn : IsWidth n) (hV : ∀ a, Span va n a → V a) (val : Word) :
    KeepsTwins rd D V (Reads rd) (storeGuarded va n val : HartM δ _ _) := by
  have hpos : 0 < n := by
    obtain rfl | rfl | rfl := hn <;> decide
  refine twin_shortcut (H := fun _ _ => True) (hV va (.first hpos)) (keeps_storeSlow hpos hV val)
    fun h hc hok hr => ?_
  rw [storeGuarded]
  cases hprobe : if h.resvValid then none else h.dtlbProbe va n true with
  | none => exact .inl rfl
  | some e =>
    have hneutral : Neutral fun h : Hart δ =>
        { h with bus := { h.bus with mem := h.bus.mem.store (va.setWidth 64 + e.addend) val n } } :=
      neutral_setBus (fun _ _ => rfl) (fun _ => rfl) fun _ => rfl
    refine .inr ⟨hneutral.coh hc, hneutral.ok h hok, fun _ _ => trivial, fun hD => ?_⟩
    split at hprobe
    · cases hprobe
    next hresv =>
      rw [Bool.not_eq_true] at hresv
      have hfit := aligned_fits hn (Hart.dtlbProbe_some hprobe).2.1
      obtain ⟨pa, r, hv, hhost⟩ := Coh.dtlb_vouches (hr.symm ▸ hc) hok (fun he => hD he.has) hn hprobe
      obtain ⟨hout, hsame⟩ := hc.storeSlow_vouched hok hr hD hfit hresv hv val
      rw [hhost] at hsame
      exact ⟨hout.symm, hsame⟩

theorem keeps_load (hn : IsWidth n) (hV : ∀ a, Span va n a → V a) (signed : Bool) :
    KeepsTwins rd D V (Reads rd) (load va n signed : HartM δ _ _) := by
  refine .bind (twin_view fun _ _ => rfl) fun fires => .ite (fun _ => keeps_fail _) fun _ => ?_
  refine .bind (twin_view fun _ _ => rfl) fun guarded => .ite (fun _ => keeps_loadGuarded hn hV signed) fun _ => ?_
  exact .bind (keeps_busRead va) fun v => keeps_ret _

theorem keeps_store (hn : IsWidth n) (hV : ∀ a, Span va n a → V a) (val : Word) :
    KeepsTwins rd D V (Reads rd) (store va n val : HartM δ _ _) := by
  refine .bind (twin_view fun _ _ => rfl) fun fires => .ite (fun _ => keeps_fail _) fun _ => ?_
  refine .bind (twin_view fun _ _ => rfl) fun guarded => .ite (fun _ => keeps_storeGuarded hn hV val) fun _ => ?_
  exact .bind (keeps_breakReservation va) fun _ => keeps_busWrite va val

end Emu.Rv
