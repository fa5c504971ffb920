-- SUMMARY: Instruction fetches keep twins twins, and fetch the same on both.
import Emu.Rv.Accesses

/-! # Fetches of twins -/

namespace Emu.Rv

variable {δ ε α : Type} {h : Hart δ} {rd : Word → Option Word} {va pa pc fpc fpc2 : Word} {acc : Access}
variable {D : Stale} {V : Word → Prop} {F : Hart δ → Prop} {n : Nat} {r : Region}

open Comp (Agrees)

/-- An instruction address and where its first halfword is fetched from. -/
abbrev FetchedAt (rd : Word → Option Word) (D : Stale) (pc fpc : Word) (h : Hart δ) : Prop :=
  Reads rd h ∧ PlacedIn rd D pc .fetch fpc h

/-- The second halfword follows the first, unless that is the last of its page. -/
abbrev FollowedAt (rd : Word → Option Word) (D : Stale) (pc fpc fpc2 : Word) (h : Hart δ) : Prop :=
  Reads rd h ∧ (atPageEnd pc = false → PlacedIn rd D pc .fetch fpc h ∧ fpc2 = fpc + 2)

theorem Fills.fetchedAt {h' : Hart δ} (hf : Fills rd D h h') (hF : FetchedAt rd D pc fpc h) :
    FetchedAt rd D pc fpc h' :=
  ⟨hF.1.sameButCaches hf.same, hf.placed hF.2⟩

/-- The view, and what it saw. -/
theorem twin_view_eq {g : Hart δ → α} {E : Hart δ → Hart δ → Prop} (hg : ∀ (h : Hart δ) c, g (h.withCaches c) = g h) :
    Agrees (Twin rd D V F) (Comp.view g : HartM δ ε α) (fun a => Twin rd D V fun h => F h ∧ g h = a) E :=
  .view fun _ _ ht =>
    ⟨ht.agree hg, { ht with propLeft := ⟨ht.propLeft, rfl⟩, propRight := ⟨ht.propRight, (ht.agree hg).symm⟩ }⟩

/-! ## The fetch table -/

theorem even_iff : pc &&& 1 = 0 ↔ pc.toNat % 2 = 0 := by
  have hmod : (pc &&& 1).toNat = pc.toNat % 2 := by
    rw [BitVec.toNat_and]
    exact Nat.and_two_pow_sub_one_eq_mod pc.toNat 1
  rw [← hmod]
  exact ⟨congrArg BitVec.toNat, fun hz => BitVec.eq_of_toNat_eq hz⟩

theorem even_fits (he : pc &&& 1 = 0) : pc.toNat % 4096 + 2 ≤ 4096 :=
  aligned_fits (.inr (.inl rfl)) he

/-- The fetch table's answer is where the page is. -/
theorem Coh.itlb_placed (hc : Coh rd D h) (hok : h.Ok) (hr : Reads rd h) (he : pc &&& 1 = 0)
    (hl : h.itlbLookup pc = some fpc) : PlacedIn rd D pc .fetch fpc h := by
  intro hex hp
  obtain ⟨r, hv⟩ := Coh.itlb_vouches (hr.symm ▸ hc) hok hex (even_fits he) hl
  have hpl := Hart.placed_of_fresh hok hp hv.translated
  rw [show h.pteBelow = rd from hr] at hpl
  exact hpl

theorem Placed.unique {c : Space} {pa' : Word} (h₁ : Placed rd c va pa) (h₂ : Placed rd c va pa') : pa = pa' := by
  rw [Placed] at h₁ h₂
  split_ifs at h₁ h₂
  · obtain ⟨leaf, hw, rfl⟩ := h₁
    obtain ⟨leaf', hw', rfl⟩ := h₂
    obtain rfl := Except.ok.inj (hw.symm.trans hw')
    rfl
  · exact h₁.trans h₂.symm

/-- The second halfword is in the page of the first, unless that is the page's last. -/
theorem vpn_second (he : pc &&& 1 = 0) (hend : atPageEnd pc = false) : (pc + 2) >>> 12 = pc >>> 12 := by
  have hfit := even_fits he
  have hlow : (pc &&& (pageSize - 1)).toNat = pc.toNat % 4096 := toNat_pageOffset pc
  have heven := even_iff.mp he
  have hne : pc.toNat % 4096 ≠ 4094 := by
    intro hbad
    rw [atPageEnd, decide_eq_false_iff_not] at hend
    apply hend
    apply BitVec.eq_of_toNat_eq
    rw [hlow, hbad]
    decide
  have hlt := pc.isLt
  have h2 : (2 : Word).toNat = 2 := rfl
  apply BitVec.eq_of_toNat_eq
  rw [BitVec.toNat_ushiftRight, BitVec.toNat_ushiftRight, BitVec.toNat_add, h2, Nat.shiftRight_eq_div_pow,
    Nat.shiftRight_eq_div_pow]
  omega

theorem Hart.itlbLookup_second (he : pc &&& 1 = 0) (hend : atPageEnd pc = false) (hl : h.itlbLookup pc = some fpc) :
    h.itlbLookup (pc + 2) = some (fpc + 2) := by
  have hv := vpn_second he hend
  have hentry : h.itlbEntry (pc + 2) = h.itlbEntry pc := by rw [itlbEntry, itlbEntry, hv]
  rw [itlbLookup, hentry, hv]
  rw [itlbLookup] at hl
  cases hent : h.itlbEntry pc with
  | none =>
    rw [hent] at hl
    cases hl
  | some e =>
    rw [hent] at hl
    dsimp only at hl ⊢
    split_ifs at hl ⊢
    rw [← Option.some.inj hl]
    congr 1
    bv_omega

/-- PMP need not be asked for a second halfword in a page the fetch table holds. -/
theorem Coh.fetchPmp2_eq (hc : Coh rd D h) (hok : h.Ok) (hF : FollowedAt rd D pc fpc fpc2 h) (hD : ¬ D.Has pc)
    (he : pc &&& 1 = 0) : h.fetchPmp2 pc fpc2 = h.pmpCheck fpc2 2 .fetch := by
  rw [Hart.fetchPmp2]
  split_ifs with hcond
  · obtain ⟨hend, hsome⟩ := hcond
    obtain ⟨pa, hl⟩ := Option.isSome_iff_exists.mp hsome
    have hl2 := Hart.itlbLookup_second he hend hl
    have hp : h.accPriv .fetch ≠ privM := (Hart.itlbLookup_some hl).1
    have hex : ¬ D.Excuses h.space pc := fun hex => hD hex.has
    have hex2 : ¬ D.Excuses h.space (pc + 2) := fun hbad =>
      hex ((Stale.excuses_of_vpn (vpn_second he hend)).mp hbad)
    have he2 : (pc + 2) &&& 1 = 0 := by
      have heven := even_iff.mp he
      have htwo : (2 : Word).toNat = 2 := rfl
      rw [even_iff, BitVec.toNat_add, htwo]
      omega
    obtain ⟨r, hv⟩ := Coh.itlb_vouches (hF.1.symm ▸ hc) hok hex2 (even_fits he2) hl2
    obtain ⟨hplaced, h2⟩ := hF.2 hend
    have hsame : fpc = pa := (hplaced hex hp).unique (hc.itlb_placed hok hF.1 he hl hex hp)
    rw [h2, hsame]
    exact hv.pmp.symm
  · rfl

/-! ## Fetching -/

theorem twin_fetchCheckSlow (hV : V pc) :
    Agrees (Twin rd D V (Reads rd)) (fetchCheckSlow pc : HartM δ _ _) (fun fpc => Twin rd D V (FetchedAt rd D pc fpc))
      (Twin.Any rd D V) := by
  refine .bind (twin_translate hV) fun fpc => .bind (twin_pmpFetches fpc) fun allowed => ?_
  refine .ite (fun _ => keeps_fail _) fun _ => ?_
  refine .bind (Q := fun _ => Twin rd D V (FetchedAt rd D pc fpc)) (twin_fill (fun h hc _ hF => ?_) ?_) fun _ => ?_
  · split
    · exact hc.itlbFill_fills hF.2
    · exact .refl hc
  · exact fun h hF hf => hf.fetchedAt hF
  · exact .ret fun _ _ ht => ht

theorem twin_fetchCheck (hV : V pc) (he : pc &&& 1 = 0) :
    Agrees (Twin rd D V (Reads rd)) (fetchCheck pc : HartM δ _ _) (fun fpc => Twin rd D V (FetchedAt rd D pc fpc))
      (Twin.Any rd D V) := by
  refine twin_shortcut hV (twin_fetchCheckSlow hV) fun h hc hok hr => ?_
  rw [fetchCheck]
  cases hl : h.itlbLookup pc with
  | none => exact .inl rfl
  | some fpc =>
    refine .inr ⟨hc, hok, fun a ha => ?_, fun hD => ?_⟩
    · obtain rfl := Except.ok.inj ha
      exact ⟨hr, hc.itlb_placed hok hr he hl⟩
    obtain ⟨r, hv⟩ := Coh.itlb_vouches (hr.symm ▸ hc) hok (fun hex => hD hex.has) (even_fits he) hl
    obtain ⟨hout, hsame, hbus, hpmp⟩ := hc.toBus hok hr hD hv
    set h₁ := (translateActive pc .fetch h).2
    have htr : translateActive pc .fetch h = (.ok fpc, h₁) := by rw [← hout]
    have hrun : fetchCheckSlow pc h =
        (.ok fpc, if (h₁.itlbEntry pc).any fun e => e.write ≠ pc >>> 12 then h₁.itlbFill pc fpc else h₁) := by
      simp only [fetchCheckSlow, Comp.bind_apply, htr, pmpFetches, Comp.view, hpmp, Bool.or_true, Bool.true_eq_false,
        if_false, Comp.change]
      rfl
    rw [hrun]
    refine ⟨rfl, ?_⟩
    dsimp only
    split
    · exact hsame.trans (h₁.sameButCaches_itlbFill pc fpc)
    · exact hsame

theorem twin_fetchPlace (hV : V pc) (he : pc &&& 1 = 0) :
    Agrees (Twin rd D V (Reads rd)) (fetchPlace pc : HartM δ _ _) (fun fpc => Twin rd D V (FetchedAt rd D pc fpc))
      (Twin.Any rd D V) := by
  refine .bind (twin_view_eq fun _ _ => rfl) fun guarded => .ite (fun _ => ?_) fun hguard => ?_
  · refine .bind (twin_view fun _ _ => rfl) fun fires => .ite (fun _ => keeps_fail _) fun _ => ?_
    exact (twin_relabel (twin_fetchCheck hV he)).pre fun _ _ ht => ht.imp And.left And.left
  · -- without the guard the hart is in machine mode, where nothing is translated
    have hfetched (h : Hart δ) (hok : h.Ok) (hF : Reads rd h ∧ h.fetchGuard = guarded) : FetchedAt rd D pc pc h := by
      refine ⟨hF.1, fun _ hp => absurd (hok.pmpActive_of hp) fun hactive => hguard ?_⟩
      rw [← hF.2, hok.fetchGuard, hactive, Bool.or_true, Bool.true_or]
    exact .ret fun _ _ ht => ht.imp (hfetched _ ht.okLeft) (hfetched _ ht.okRight)

theorem twin_fetchPlace2 (hV : V (pc + 2)) :
    Agrees (Twin rd D V (FetchedAt rd D pc fpc)) (fetchPlace2 pc fpc : HartM δ _ _)
      (fun fpc2 => Twin rd D V (FollowedAt rd D pc fpc fpc2)) (Twin.Any rd D V) := by
  refine .bind (twin_view_eq fun _ _ => rfl) fun separate => .ite (fun hsep => ?_) fun _ => ?_
  · intro s t ht
    have hend : atPageEnd pc = true := by
      have hboth := ht.propLeft.2.trans hsep
      rw [Bool.and_eq_true] at hboth
      exact hboth.2
    refine (twin_relabel ((twin_translate hV).conseq (fun _ _ ht => ht) (fun fpc2 _ _ ht => ?_) fun _ _ ht => ht)) s t
      (ht.imp (fun hF => hF.1.1) fun hF => hF.1.1)
    have hfollowed (h : Hart δ) (hF : Reads rd h ∧ PlacedIn rd D (pc + 2) .fetch fpc2 h) :
        FollowedAt rd D pc fpc fpc2 h :=
      ⟨hF.1, fun hbad => absurd (hend.symm.trans hbad) Bool.noConfusion⟩
    exact ht.imp (hfollowed _) (hfollowed _)
  · have hfollowed (h : Hart δ) (hF : FetchedAt rd D pc fpc h ∧ (h.vmActive && atPageEnd pc) = separate) :
        FollowedAt rd D pc fpc (fpc + 2) h :=
      ⟨hF.1.1, fun _ => ⟨hF.1.2, rfl⟩⟩
    exact .ret fun _ _ ht => ht.imp (hfollowed _) (hfollowed _)

/-- PMP's answer for the second halfword, given with the help of the fetch table. -/
theorem twin_fetchPmp2 {E : Hart δ → Hart δ → Prop} (hV : V pc) (he : pc &&& 1 = 0) :
    Agrees (Twin rd D V (FollowedAt rd D pc fpc fpc2))
      (Comp.view fun h => !(h.pmpActive && decide (pc &&& 2 ≠ 0)) || h.fetchPmp2 pc fpc2 : HartM δ ε Bool)
      (fun _ => Twin rd D V (FollowedAt rd D pc fpc fpc2)) E := by
  refine .view fun s t ht => ⟨?_, ht⟩
  obtain rfl | ⟨hsame, hfresh⟩ := ht.same
  · rfl
  · have hactive : s.pmpActive = t.pmpActive := hsame.agree fun _ _ => rfl
    rw [ht.left.fetchPmp2_eq ht.okLeft ht.propLeft (hfresh pc hV) he,
      ht.right.fetchPmp2_eq ht.okRight ht.propRight (hfresh pc hV) he, hsame.pmpCheck, hactive]

theorem keeps_fetchInsn (hV : ∀ a, Span pc 4 a → V a) : KeepsTwins rd D V (Reads rd) (fetchInsn pc : HartM δ _ _) := by
  refine .ite (fun _ => keeps_fail _) fun hodd => ?_
  have he : pc &&& 1 = 0 := not_not.mp hodd
  have hV0 : V pc := hV pc (.first (by decide))
  have hV2 : V (pc + 2) := hV _ ⟨2, by decide, rfl⟩
  refine .bind (twin_fetchPlace hV0 he) fun fpc => .bind (twin_relabel (twin_busFetch16 fpc)) fun lo => ?_
  refine .ite (fun _ => keeps_ret _) fun _ => .bind (twin_fetchPlace2 hV2) fun fpc2 => ?_
  refine .bind (twin_fetchPmp2 hV0 he) fun allowed => .ite (fun _ => keeps_fail _) fun _ => ?_
  exact .bind (twin_relabel (twin_busFetch16 fpc2)) fun hi => keeps_ret _

theorem keeps_irFetch16 (hV : V pc) (he : pc &&& 1 = 0) :
    KeepsTwins rd D V (Reads rd) (irFetch16 pc : HartM δ _ _) := by
  have hslow : KeepsTwins rd D V (Reads rd) (irFetch16Slow pc : HartM δ _ _) := by
    refine .bind (twin_translate hV) fun fpc => .bind (twin_pmpFetches fpc) fun allowed => ?_
    refine .ite (fun _ => keeps_fail _) fun _ => .bind (twin_busFetch16 fpc) fun parcel => ?_
    refine .bind (Q := fun _ => Twin.Any rd D V) (twin_fill (fun h hc _ hF => ?_) fun _ _ _ => trivial) fun _ =>
      keeps_ret parcel
    split
    · exact hc.itlbFill_fills hF.2
    · exact .refl hc
  refine twin_shortcut (H := fun _ _ => True) hV hslow fun h hc hok hr => ?_
  rw [irFetch16]
  cases hl : h.itlbLookup pc with
  | none => exact .inl rfl
  | some fpc =>
    refine .inr ⟨hc, hok, fun _ _ => trivial, fun hD => ?_⟩
    obtain ⟨r, hv⟩ := Coh.itlb_vouches (hr.symm ▸ hc) hok (fun hex => hD hex.has) (even_fits he) hl
    obtain ⟨hout, hsame, hbus, hpmp⟩ := hc.toBus hok hr hD hv
    set h₁ := (translateActive pc .fetch h).2
    have htr : translateActive pc .fetch h = (.ok fpc, h₁) := by rw [← hout]
    simp only [irFetch16Slow, Comp.bind_apply, htr, pmpFetches, Comp.view, hpmp, Bool.or_true, Bool.true_eq_false,
      if_false, Comp.change, busFetch16, hbus]
    cases h.bus.fetch16 fpc with
    | error f => exact ⟨rfl, hsame⟩
    | ok parcel =>
      refine ⟨rfl, ?_⟩
      show h.SameButCaches (if h₁.fetchGuard = true then h₁.itlbFill pc fpc else h₁)
      split
      · exact hsame.trans (h₁.sameButCaches_itlbFill pc fpc)
      · exact hsame

end Emu.Rv
