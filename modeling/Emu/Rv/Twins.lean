-- SUMMARY: Two harts that differ in their cached translations only: every access runs alike on both.
import Emu.Rv.Answers

/-! # Twins

Two harts that agree on everything but their caches, both of them coherent, are twins. An access has the same
outcome on twins and leaves twins, as long as the pages it touches are not stale. Taking a hart for its own twin
gives that accesses keep the caches coherent, whatever page they touch. -/

namespace Emu.Rv

variable {δ ε α : Type} {h s t u : Hart δ} {rd : Word → Option Word} {va pa pc : Word} {acc : Access}
variable {D : Stale} {V : Word → Prop} {F G : Hart δ → Prop} {n : Nat} {e : DtlbEntry}

/-- The cached translations of a hart. -/
structure Caches where
  tlb : Word → TlbEntry
  megaRegions : Word → Bool
  dtlb : Nat → Word → DtlbEntry
  itlb : Nat → Word → DtlbEntry

def Hart.caches (h : Hart δ) : Caches :=
  ⟨h.tlb, h.megaRegions, h.dtlb, h.itlb⟩

def Hart.withCaches (h : Hart δ) (c : Caches) : Hart δ :=
  { h with tlb := c.tlb, megaRegions := c.megaRegions, dtlb := c.dtlb, itlb := c.itlb }

/-- The harts differ in their cached translations only. -/
def Hart.SameButCaches (s t : Hart δ) : Prop :=
  t = s.withCaches t.caches

namespace Hart.SameButCaches

theorem refl (s : Hart δ) : s.SameButCaches s := rfl

theorem symm (hst : s.SameButCaches t) : t.SameButCaches s := by
  rw [SameButCaches] at hst ⊢
  rw [hst]
  rfl

theorem trans (hst : s.SameButCaches t) (htu : t.SameButCaches u) : s.SameButCaches u := by
  rw [SameButCaches] at hst htu ⊢
  rw [hst] at htu
  exact htu

/-- What does not look at the caches is the same of both. -/
theorem agree {g : Hart δ → α} (hg : ∀ (h : Hart δ) c, g (h.withCaches c) = g h) (hst : s.SameButCaches t) :
    g s = g t := by
  rw [SameButCaches] at hst
  rw [hst]
  exact (hg s _).symm

theorem setBus (hst : s.SameButCaches t) (b : Bus δ) : Hart.SameButCaches { s with bus := b } { t with bus := b } := by
  rw [SameButCaches] at hst ⊢
  rw [hst]
  rfl

theorem pmpCheck (hst : s.SameButCaches t) (a : Word) (n : Nat) (acc : Access) :
    s.pmpCheck a n acc = t.pmpCheck a n acc := by
  have hsame (h : Hart δ) (c : Caches) : (h.withCaches c).pmpCheck a n acc = h.pmpCheck a n acc := rfl
  exact hst.agree (g := fun h => h.pmpCheck a n acc) hsame

end Hart.SameButCaches

/-- Twins, with a property both have. Pages in `V` are the ones an access is about. -/
structure Twin (rd : Word → Option Word) (D : Stale) (V : Word → Prop) (F : Hart δ → Prop) (s t : Hart δ) :
    Prop where
  left : Coh rd D s
  right : Coh rd D t
  okLeft : s.Ok
  okRight : t.Ok
  propLeft : F s
  propRight : F t
  same : s = t ∨ s.SameButCaches t ∧ ∀ va, V va → ¬ D.Has va

/-- Nothing more is known of the twins. -/
abbrev Twin.Any (rd : Word → Option Word) (D : Stale) (V : Word → Prop) : Hart δ → Hart δ → Prop :=
  Twin rd D V fun _ => True

/-- Page table words are read as `rd` says. -/
def Reads (rd : Word → Option Word) (h : Hart δ) : Prop :=
  h.pteBelow = rd

/-- The address a translation for this access has given, unless the page may be stale or is not translated. -/
def PlacedIn (rd : Word → Option Word) (D : Stale) (va : Word) (acc : Access) (pa : Word) (h : Hart δ) : Prop :=
  ¬ D.Excuses h.space va → h.accPriv acc ≠ privM → Placed rd h.space va pa

namespace Twin

theorem imp (ht : Twin rd D V F s t) (hs' : F s → G s) (ht' : F t → G t) : Twin rd D V G s t :=
  { ht with propLeft := hs' ht.propLeft, propRight := ht' ht.propRight }

theorem any (ht : Twin rd D V F s t) : Twin.Any rd D V s t :=
  ht.imp (fun _ => trivial) fun _ => trivial

/-- What does not look at the caches is the same of both. -/
theorem agree {g : Hart δ → α} (ht : Twin rd D V F s t) (hg : ∀ (h : Hart δ) c, g (h.withCaches c) = g h) :
    g s = g t := by
  obtain rfl | ⟨hsame, -⟩ := ht.same
  · rfl
  · exact hsame.agree hg

end Twin

/-! ## Steps that leave the caches alone -/

/-- A change that leaves alone what cached translations rest on, and the flags. -/
structure Neutral (f : Hart δ → Hart δ) : Prop where
  space : ∀ h, (f h).space = h.space
  ok : ∀ h, h.Ok → (f h).Ok
  caches : ∀ (h : Hart δ) c, f (h.withCaches c) = (f h).withCaches c

namespace Neutral

variable {f : Hart δ → Hart δ}

theorem coh (hf : Neutral f) (hc : Coh rd D h) : Coh rd D (f h) := by
  have heq : f h = (f h).withCaches h.caches := hf.caches h h.caches
  refine hc.frame (hf.space h) ?_ ?_ ?_ <;> rw [heq] <;> rfl

theorem sameButCaches (hf : Neutral f) (hst : s.SameButCaches t) : (f s).SameButCaches (f t) := by
  rw [Hart.SameButCaches] at hst ⊢
  rw [hst, hf.caches]
  rfl

theorem twin (hf : Neutral f) (ht : Twin rd D V F s t) (hF : ∀ h, F h → G (f h)) : Twin rd D V G (f s) (f t) where
  left := hf.coh ht.left
  right := hf.coh ht.right
  okLeft := hf.ok s ht.okLeft
  okRight := hf.ok t ht.okRight
  propLeft := hF s ht.propLeft
  propRight := hF t ht.propRight
  same := ht.same.imp (congrArg f) (And.imp_left hf.sameButCaches)

/-- A change made or not, by a condition that does not look at the caches. -/
theorem ite {p : Hart δ → Prop} [DecidablePred p] (hp : ∀ (h : Hart δ) c, p (h.withCaches c) ↔ p h)
    (hf : Neutral f) : Neutral fun h => if p h then f h else h where
  space h := by
    split
    · exact hf.space h
    · rfl
  ok h hok := by
    split
    · exact hf.ok h hok
    · exact hok
  caches h c := by
    by_cases hh : p h
    · rw [if_pos hh, if_pos ((hp h c).mpr hh), hf.caches]
    · rw [if_neg hh, if_neg (mt (hp h c).mp hh)]

end Neutral

theorem neutral_setX (rd : BitVec 5) (v : Word) :
    Neutral fun h : Hart δ => if rd = 0 then h else { h with x := Function.update h.x rd v } where
  space h := by split <;> rfl
  ok h hok := by
    split
    · exact hok
    · exact ⟨hok.bus, hok.little, hok.pmpActive, hok.pmpAny, hok.vmActive, hok.fetchGuard, hok.dataGuard, hok.mprv⟩
  caches h c := by split <;> rfl

theorem neutral_resv (valid : Bool) (addr : Hart δ → Word) (haddr : ∀ h c, addr (h.withCaches c) = addr h) :
    Neutral fun h : Hart δ => { h with resvValid := valid, resvAddr := addr h } where
  space _ := rfl
  ok _ hok := ⟨hok.bus, hok.little, hok.pmpActive, hok.pmpAny, hok.vmActive, hok.fetchGuard, hok.dataGuard, hok.mprv⟩
  caches h c := by
    rw [haddr]
    rfl

theorem neutral_split (req part : Word) :
    Neutral fun h : Hart δ =>
      if part = req then h else { h with splitReq := req, splitAt := part, splitValid := true } where
  space h := by split <;> rfl
  ok h hok := by
    split
    · exact hok
    · exact ⟨hok.bus, hok.little, hok.pmpActive, hok.pmpAny, hok.vmActive, hok.fetchGuard, hok.dataGuard, hok.mprv⟩
  caches h c := by split <;> rfl

/-- A change of what the bus holds. -/
theorem neutral_setBus {b : Hart δ → Bus δ} (hb : ∀ h c, b (h.withCaches c) = b h)
    (hr : ∀ h, (b h).regions = h.bus.regions) (he : ∀ h, (b h).bigEndian = h.bus.bigEndian) :
    Neutral fun h : Hart δ => { h with bus := b h } where
  space h := by
    have hfind : (b h).find = h.bus.find := by
      funext a
      rw [Bus.find, Bus.find, hr]
    show Space.mk _ _ _ (b h).find = _
    rw [hfind]
    rfl
  ok h hok := by
    have hwf : (b h).Wf := by
      refine ⟨?_, ?_⟩ <;> rw [hr]
      · exact hok.bus.valid
      · exact hok.bus.apart
    exact ⟨hwf, (he h).trans hok.little, hok.pmpActive, hok.pmpAny, hok.vmActive, hok.fetchGuard, hok.dataGuard,
      hok.mprv⟩
  caches h c := by
    rw [hb]
    rfl

/-! ## Rules for twins -/

open Comp (Agrees)

section Rules

variable {Q : α → Hart δ → Hart δ → Prop} {E : Hart δ → Hart δ → Prop}

theorem twin_view {g : Hart δ → α} (hg : ∀ (h : Hart δ) c, g (h.withCaches c) = g h) :
    Agrees (Twin rd D V F) (Comp.view g : HartM δ ε α) (fun _ => Twin rd D V F) E :=
  .view fun _ _ ht => ⟨ht.agree hg, ht⟩

theorem twin_change {f : Hart δ → Hart δ} (hf : Neutral f) (hF : ∀ h, F h → G (f h)) :
    Agrees (Twin rd D V F) (Comp.change f : HartM δ ε Unit) (fun _ => Twin rd D V G) E :=
  .change fun _ _ ht => hf.twin ht hF

theorem twin_pmpAllows (a : Word) :
    Agrees (Twin rd D V F) (pmpAllows a n acc : HartM δ ε Bool) (fun _ => Twin rd D V F) E :=
  twin_view fun _ _ => rfl

theorem twin_pmpFetches (a : Word) :
    Agrees (Twin rd D V F) (pmpFetches a : HartM δ ε Bool) (fun _ => Twin rd D V F) E :=
  twin_view fun _ _ => rfl

theorem twin_breakReservation (a : Word) (hF : ∀ h : Hart δ, F h → G { h with resvValid := false })
    (hF' : ∀ h, F h → G h) :
    Agrees (Twin rd D V F) (breakReservation a : HartM δ ε Unit) (fun _ => Twin rd D V G) E := by
  have hneutral : Neutral fun h : Hart δ => { h with resvValid := false } :=
    neutral_resv false (·.resvAddr) fun _ _ => rfl
  refine twin_change (hneutral.ite fun _ _ => Iff.rfl) fun h hh => ?_
  split
  · exact hF h hh
  · exact hF' h hh

theorem twin_setReg (x : BitVec 5) (v : Word) :
    Agrees (Twin.Any rd D V) (setReg x v : HartM δ ε Unit) (fun _ => Twin.Any rd D V) E :=
  twin_change (neutral_setX x v) fun _ _ => trivial

theorem twin_busFetch16 (a : Word) :
    Agrees (Twin rd D V F) (busFetch16 a) (fun _ => Twin rd D V F) (Twin.Any rd D V) := by
  intro s t ht
  have hbus : s.bus = t.bus := ht.agree fun _ _ => rfl
  show _ = _ ∧ Comp.After _ _ (Except.mapError excFromFault (s.bus.fetch16 a)) s t
  refine ⟨by rw [busFetch16, busFetch16, hbus], ?_⟩
  cases s.bus.fetch16 a with
  | error f => exact ht.any
  | ok v => exact ht

/-- An access of the bus that may change what is behind it. -/
theorem twin_bus {f : Bus δ → Except Fault α × Bus δ} (hr : ∀ b, (f b).2.regions = b.regions)
    (he : ∀ b, (f b).2.bigEndian = b.bigEndian)
    (hF : ∀ (h : Hart δ) b, F h → b.regions = h.bus.regions → G { h with bus := b }) :
    Agrees (Twin rd D V F)
      (fun h => ((f h.bus).1.mapError excFromFault, { h with bus := (f h.bus).2 }) : HartM δ Exc α)
      (fun _ => Twin rd D V G) (Twin.Any rd D V) := by
  intro s t ht
  have hbus : s.bus = t.bus := ht.agree fun _ _ => rfl
  have hneutral : Neutral fun h : Hart δ => { h with bus := (f h.bus).2 } :=
    neutral_setBus (fun _ _ => rfl) (fun h => hr h.bus) fun h => he h.bus
  have hafter := hneutral.twin ht fun h hh => hF h _ hh (hr h.bus)
  show _ = _ ∧ Comp.After _ _ (Except.mapError excFromFault (f s.bus).1) _ _
  refine ⟨by simp only [hbus], ?_⟩
  cases (f s.bus).1 with
  | error f => exact hafter.any
  | ok v => exact hafter

/-- A device may change any page table word when it is read, so that only what does not speak of them survives it. -/
theorem twin_busRead (a : Word) (hF : ∀ (h : Hart δ) b, F h → b.regions = h.bus.regions → G { h with bus := b }) :
    Agrees (Twin rd D V F) (busRead a n) (fun _ => Twin rd D V G) (Twin.Any rd D V) :=
  twin_bus (fun _ => Bus.read_regions) (fun _ => Bus.read_bigEndian) hF

/-- So may a write. -/
theorem twin_busWrite (a val : Word) (hF : ∀ (h : Hart δ) b, F h → b.regions = h.bus.regions → G { h with bus := b }) :
    Agrees (Twin rd D V F) (busWrite a n val) (fun _ => Twin rd D V G) (Twin.Any rd D V) :=
  twin_bus (fun _ => Bus.write_regions val) (fun _ => Bus.write_bigEndian val) hF

end Rules

/-! ## Steps that fill the caches -/

theorem Hart.Ok.sameButCaches (hok : s.Ok) (hst : s.SameButCaches t) : t.Ok := by
  rw [Hart.SameButCaches] at hst
  rw [hst]
  exact ⟨hok.bus, hok.little, hok.pmpActive, hok.pmpAny, hok.vmActive, hok.fetchGuard, hok.dataGuard, hok.mprv⟩

theorem Reads.sameButCaches (hr : Reads rd s) (hst : s.SameButCaches t) : Reads rd t := by
  have hpte : s.pteBelow = t.pteBelow := hst.agree fun _ _ => rfl
  exact hpte.symm.trans hr

theorem Hart.SameButCaches.accPriv (hst : s.SameButCaches t) : s.accPriv acc = t.accPriv acc :=
  hst.agree (g := fun h => h.accPriv acc) fun _ _ => rfl

/-- A step that fills caches and does nothing else. -/
structure Fills (rd : Word → Option Word) (D : Stale) (h h' : Hart δ) : Prop where
  same : h.SameButCaches h'
  grows : h.space.Grows h'.space
  coh : Coh rd D h'

namespace Fills

theorem refl (hc : Coh rd D h) : Fills rd D h h :=
  ⟨.refl h, ⟨rfl, rfl, rfl, fun _ hi => hi⟩, hc⟩

theorem not_excuses {h' : Hart δ} (hf : Fills rd D h h') (he : ¬ D.Excuses h'.space va) : ¬ D.Excuses h.space va :=
  fun hex => he (hex.grow hf.grows)

theorem placed {h' : Hart δ} (hf : Fills rd D h h') (hp : PlacedIn rd D va acc pa h) :
    PlacedIn rd D va acc pa h' := by
  intro he hpriv
  have hpl := hp (hf.not_excuses he) (by rw [hf.same.accPriv]; exact hpriv)
  rw [Placed] at hpl ⊢
  rw [hf.grows.paging, hf.grows.satp]
  exact hpl

end Fills

theorem Hart.fillTlb_grows (va : Word) (leaf : Leaf) : h.space.Grows (h.fillTlb va leaf).space := by
  refine ⟨rfl, rfl, rfl, fun i hi => ?_⟩
  show (if leaf.mega then Function.update h.megaRegions (va >>> 22) true else h.megaRegions) i = true
  split_ifs
  · by_cases hv : i = va >>> 22
    · rw [hv, Function.update_self]
    · rw [Function.update_of_ne hv]
      exact hi
  · exact hi

theorem Coh.translateActive_fills (hc : Coh rd D h) (hok : h.Ok) (hr : Reads rd h) (va : Word) (acc : Access) :
    Fills rd D h (translateActive va acc h).2 := by
  rw [translateActive]
  split
  · refine ⟨?_, ?_, hc.translate hok hr va acc⟩
    · obtain heq | ⟨leaf, -, -, -, heq⟩ := h.translate_cases va acc <;> rw [heq] <;> rfl
    · obtain heq | ⟨leaf, -, -, -, heq⟩ := h.translate_cases va acc <;> rw [heq]
      · exact ⟨rfl, rfl, rfl, fun _ hi => hi⟩
      · exact Hart.fillTlb_grows va leaf
  · exact .refl hc

/-- The address a fresh walk gives is where its leaf says. -/
theorem Hart.placed_of_fresh (hok : h.Ok) (hp : h.accPriv acc ≠ privM)
    (hf : (if h.vmActive then h.translateFresh va acc else .ok va) = .ok pa) :
    Placed h.pteBelow h.space va pa := by
  have hvm : h.vmActive = h.space.paging := hok.vmActive_of hp
  rw [hvm] at hf
  rw [Placed]
  split_ifs at hf ⊢ with hpg
  · rw [translateFresh, if_neg hp, hok.readPte_eq hp] at hf
    split at hf
    · cases hf
    next leaf hw =>
      split_ifs at hf
      exact ⟨leaf, hw, (Except.ok.inj hf).symm⟩
  · exact (Except.ok.inj hf).symm

/-- A coherent hart translates as a fresh walk does. -/
theorem Coh.translateActive_eq (hc : Coh rd D h) (hok : h.Ok) (hr : Reads rd h) (hD : ¬ D.Excuses h.space va) :
    (translateActive va acc h).1 = if h.vmActive then h.translateFresh va acc else .ok va := by
  rw [translateActive]
  split
  next hv => exact hc.translate_eq hok hr (hok.paging_of_vmActive hv) hD
  · rfl

theorem twin_translate (hV : V va) :
    Agrees (Twin rd D V (Reads rd)) (translateActive va acc : HartM δ Exc Word)
      (fun pa => Twin rd D V fun h => Reads rd h ∧ PlacedIn rd D va acc pa h) (Twin.Any rd D V) := by
  intro s t ht
  have hfs := ht.left.translateActive_fills ht.okLeft ht.propLeft va acc
  have hft := ht.right.translateActive_fills ht.okRight ht.propRight va acc
  have hout : (translateActive va acc s).1 = (translateActive va acc t).1 := by
    obtain rfl | ⟨hsame, hfresh⟩ := ht.same
    · rfl
    · have hD := hfresh va hV
      rw [ht.left.translateActive_eq ht.okLeft ht.propLeft fun he => hD he.has,
        ht.right.translateActive_eq ht.okRight ht.propRight fun he => hD he.has]
      exact hsame.agree (g := fun h => if h.vmActive then h.translateFresh va acc else .ok va) fun _ _ => rfl
  -- the address is placed, in either hart, if its page may be trusted there
  have hplaced {h : Hart δ} {pa : Word} (hc : Coh rd D h) (hok : h.Ok) (hr : Reads rd h)
      (hf : Fills rd D h (translateActive va acc h).2) (hpa : (translateActive va acc h).1 = .ok pa) :
      PlacedIn rd D va acc pa (translateActive va acc h).2 := by
    refine hf.placed fun he hp => ?_
    rw [hc.translateActive_eq hok hr he] at hpa
    have hpl := Hart.placed_of_fresh hok hp hpa
    rw [show h.pteBelow = rd from hr] at hpl
    exact hpl
  have htwin : Twin.Any rd D V (translateActive va acc s).2 (translateActive va acc t).2 :=
    { left := hfs.coh
      right := hft.coh
      okLeft := ht.okLeft.sameButCaches hfs.same
      okRight := ht.okRight.sameButCaches hft.same
      propLeft := trivial
      propRight := trivial
      same := by
        obtain rfl | ⟨hsame, hfresh⟩ := ht.same
        · exact .inl rfl
        · exact .inr ⟨(hfs.same.symm.trans hsame).trans hft.same, hfresh⟩ }
  refine ⟨hout, ?_⟩
  cases hs : (translateActive va acc s).1 with
  | error e => exact htwin
  | ok pa =>
    exact { htwin with
      propLeft := ⟨ht.propLeft.sameButCaches hfs.same, hplaced ht.left ht.okLeft ht.propLeft hfs hs⟩
      propRight := ⟨ht.propRight.sameButCaches hft.same,
        hplaced ht.right ht.okRight ht.propRight hft (hout.symm.trans hs)⟩ }

/-- Only the data tables change when one of them is filled. -/
theorem Hart.dtlbFill_eq (h : Hart δ) (va pa : Word) : h.dtlbFill va pa = { h with dtlb := (h.dtlbFill va pa).dtlb } := by
  rw [dtlbFill]
  dsimp only
  repeat' split
  all_goals rfl

theorem Hart.itlbFill_eq (h : Hart δ) (va pa : Word) : h.itlbFill va pa = { h with itlb := (h.itlbFill va pa).itlb } := by
  rw [itlbFill]
  dsimp only
  repeat' split
  all_goals rfl

theorem Coh.dtlbFill_fills (hc : Coh rd D h) (hp : PlacedIn rd D va acc pa h) (hacc : acc ≠ .fetch) :
    Fills rd D h (h.dtlbFill va pa) := by
  have hpriv : h.accPriv acc = h.dataPriv := if_neg hacc
  refine ⟨?_, ?_, hc.dtlbFill fun he hd => hp he (by rw [hpriv]; exact hd)⟩
  · rw [Hart.dtlbFill_eq]
    rfl
  · rw [Hart.dtlbFill_eq]
    exact ⟨rfl, rfl, rfl, fun _ hi => hi⟩

theorem Coh.itlbFill_fills (hc : Coh rd D h) (hp : PlacedIn rd D va .fetch pa h) :
    Fills rd D h (h.itlbFill va pa) := by
  refine ⟨?_, ?_, hc.itlbFill hp⟩
  · rw [Hart.itlbFill_eq]
    rfl
  · rw [Hart.itlbFill_eq]
    exact ⟨rfl, rfl, rfl, fun _ hi => hi⟩

/-- A change that only fills caches, in whichever way it does on either twin. -/
theorem twin_fill {f : Hart δ → Hart δ} {E : Hart δ → Hart δ → Prop}
    (hf : ∀ h, Coh rd D h → h.Ok → F h → Fills rd D h (f h)) (hFG : ∀ h, F h → Fills rd D h (f h) → G (f h)) :
    Agrees (Twin rd D V F) (Comp.change f : HartM δ ε Unit) (fun _ => Twin rd D V G) E := by
  refine .change fun s t ht => ?_
  have hfs := hf s ht.left ht.okLeft ht.propLeft
  have hft := hf t ht.right ht.okRight ht.propRight
  exact
    { left := hfs.coh
      right := hft.coh
      okLeft := ht.okLeft.sameButCaches hfs.same
      okRight := ht.okRight.sameButCaches hft.same
      propLeft := hFG s ht.propLeft hfs
      propRight := hFG t ht.propRight hft
      same := by
        obtain rfl | ⟨hsame, hfresh⟩ := ht.same
        · exact .inl rfl
        · exact .inr ⟨(hfs.same.symm.trans hsame).trans hft.same, hfresh⟩ }

/-- A hart is its own twin. -/
theorem Twin.self (hc : Coh rd D h) (hok : h.Ok) (hF : F h) : Twin rd D V F h h :=
  ⟨hc, hc, hok, hok, hF, hF, .inl rfl⟩

/-- A computation with a shortcut: where a table answers, the outcome is the one the full computation would have
had, and the hart is left as that would have left it, up to the caches. -/
theorem twin_shortcut {m fast : HartM δ ε α} {H : α → Hart δ → Prop} (hV : V va)
    (hm : Agrees (Twin rd D V (Reads rd)) m (fun a => Twin rd D V (H a)) (Twin.Any rd D V))
    (hfast : ∀ h, Coh rd D h → h.Ok → Reads rd h → fast h = m h ∨
      Coh rd D (fast h).2 ∧ (fast h).2.Ok ∧ (∀ a, (fast h).1 = .ok a → H a (fast h).2) ∧
        (¬ D.Has va → (fast h).1 = (m h).1 ∧ (fast h).2.SameButCaches (m h).2)) :
    Agrees (Twin rd D V (Reads rd)) fast (fun a => Twin rd D V (H a)) (Twin.Any rd D V) := by
  -- the hart the shortcut leaves has what the full computation's has
  have hleft (h : Hart δ) (hc : Coh rd D h) (hok : h.Ok) (hr : Reads rd h) :
      Coh rd D (fast h).2 ∧ (fast h).2.Ok ∧ ∀ a, (fast h).1 = .ok a → H a (fast h).2 := by
    obtain heq | ⟨hc', hok', hF, -⟩ := hfast h hc hok hr
    · have hafter := (hm h h (.self hc hok hr)).2
      rw [heq]
      cases hout : (m h).1 with
      | error e =>
        rw [hout] at hafter
        have htwin : Twin.Any rd D V (m h).2 (m h).2 := hafter
        exact ⟨htwin.left, htwin.okLeft, fun a ha => nomatch ha⟩
      | ok a =>
        rw [hout] at hafter
        have htwin : Twin rd D V (H a) (m h).2 (m h).2 := hafter
        refine ⟨htwin.left, htwin.okLeft, fun b hb => ?_⟩
        obtain rfl := Except.ok.inj hb
        exact htwin.propLeft
    · exact ⟨hc', hok', hF⟩
  intro s t ht
  obtain ⟨hcs, hoks, hFs⟩ := hleft s ht.left ht.okLeft ht.propLeft
  obtain ⟨hct, hokt, hFt⟩ := hleft t ht.right ht.okRight ht.propRight
  have hboth : (fast s).1 = (fast t).1 ∧
      ((fast s).2 = (fast t).2 ∨ (fast s).2.SameButCaches (fast t).2 ∧ ∀ va, V va → ¬ D.Has va) := by
    obtain rfl | ⟨-, hfresh⟩ := ht.same
    · exact ⟨rfl, .inl rfl⟩
    -- through the full computation on either side
    have hagree (h : Hart δ) (hc : Coh rd D h) (hok : h.Ok) (hr : Reads rd h) :
        (fast h).1 = (m h).1 ∧ (fast h).2.SameButCaches (m h).2 := by
      obtain heq | ⟨-, -, -, hrest⟩ := hfast h hc hok hr
      · rw [heq]
        exact ⟨rfl, .refl _⟩
      · exact hrest (hfresh va hV)
    obtain ⟨hs1, hs2⟩ := hagree s ht.left ht.okLeft ht.propLeft
    obtain ⟨ht1, ht2⟩ := hagree t ht.right ht.okRight ht.propRight
    obtain ⟨hout, hafter⟩ := hm s t ht
    have hmid : (m s).2.SameButCaches (m t).2 := by
      have hsame : (m s).2 = (m t).2 ∨ (m s).2.SameButCaches (m t).2 ∧ ∀ va, V va → ¬ D.Has va := by
        cases hms : (m s).1 <;> rw [hms] at hafter <;> exact Twin.same hafter
      obtain heq | ⟨hst, -⟩ := hsame
      · rw [heq]
        exact .refl _
      · exact hst
    exact ⟨hs1.trans (hout.trans ht1.symm), .inr ⟨(hs2.trans hmid).trans ht2.symm, hfresh⟩⟩
  obtain ⟨hout, hsame⟩ := hboth
  refine ⟨hout, ?_⟩
  cases hfs : (fast s).1 with
  | error e => exact ⟨hcs, hct, hoks, hokt, trivial, trivial, hsame⟩
  | ok a => exact ⟨hcs, hct, hoks, hokt, hFs a hfs, hFt a (hout.symm.trans hfs), hsame⟩

end Emu.Rv
