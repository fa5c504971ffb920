-- SUMMARY: Page and range invalidation: what is retired, what stays, and that the walk and the scan agree.
import Emu.Jit.Operations

/-!
# Invalidation

`emu_jit_invalidate_page` and `emu_jit_invalidate_range` retire every block whose guest range touches a
range of pages. A narrow range walks the page chains of the pages a touching block can start on, which
`g_max_span` bounds; a wide one scans the table and rebuilds the page chains.
-/

namespace Emu.Jit

open Emu.Chain

/-! ## Guest ranges -/

namespace Block

/-- The block's pages, as the code derives them, meet the pages from `lo` to `hi`. -/
def Reaches (lo hi : Nat) (b : Block) : Prop := b.pageLo ≤ hi ∧ lo ≤ b.pageHi

/-- The guest range of the block, four bytes an instruction and cut off at the top of memory. -/
def Covers (b : Block) (addr : Nat) : Prop :=
  b.guestPc.toNat ≤ addr ∧ addr ≤ b.guestPc.toNat + 4 * b.insns - 1 ∧ addr < 2 ^ 32

/-- The guest range of the block touches a page from `lo` to `hi`. -/
def Touches (lo hi : Nat) (b : Block) : Prop :=
  ∃ addr, b.Covers addr ∧ lo ≤ addr >>> pageShift ∧ addr >>> pageShift ≤ hi

theorem pageHi_eq {b : Block} (hb : 0 < b.insns) :
    b.pageHi = min (b.guestPc.toNat + 4 * b.insns - 1) (2 ^ 32 - 1) / 2 ^ 12 := by
  simp only [pageHi, pageShift, Nat.shiftRight_eq_div_pow]
  split_ifs <;> omega

/-- The pages the code derives are those the guest range touches. -/
theorem touches_iff_reaches {b : Block} {lo hi : Nat} (hb : 0 < b.insns) (hle : lo ≤ hi) :
    b.Touches lo hi ↔ b.Reaches lo hi := by
  have hpc := b.guestPc.isLt
  simp only [Touches, Reaches, Covers, pageHi_eq hb, pageLo, pageShift, Nat.shiftRight_eq_div_pow]
  constructor
  · rintro ⟨addr, ⟨hlo, hhi, htop⟩, hpage, hpage'⟩
    omega
  · rintro ⟨hlo, hhi⟩
    -- the first byte of the block on a page of the range
    by_cases hin : lo ≤ b.guestPc.toNat / 2 ^ 12
    · exact ⟨b.guestPc.toNat, by omega, by omega, hlo⟩
    · exact ⟨lo * 2 ^ 12, by omega, by omega, by omega⟩

end Block

namespace Table

variable {cfg : Config} {P : BitVec 64 → BitVec 64 → Prop} {t t' t'' : Table} {i : Nat} {b : Block}
  {S S' : Block → Prop} {lo hi p : Nat}

/-! ## Rebuilding the page chains -/

/-- The page chains hold the live blocks below `n`. -/
structure PagedBelow (cfg : Config) (n : Nat) (t : Table) : Prop where
  chains : Represents t.phash fun k i => LiveIn t.blocks (fun b => cfg.pageBucket b.pageLo) k i ∧ i < n
  span : ∀ {i : Nat} {b : Block}, t.blocks[i]? = some b → b.live = true → i < n → b.pageHi - b.pageLo ≤ t.maxSpan

theorem rebuildPage_eq (cfg : Config) (t : Table) (i : Nat) :
    t.rebuildPage cfg i = { t with phash := (t.rebuildPage cfg i).phash, maxSpan := (t.rebuildPage cfg i).maxSpan } := by
  unfold rebuildPage pageInsert
  cases t.blocks[i]? with
  | none => rfl
  | some b =>
    dsimp only
    split <;> rfl

theorem PagedBelow.rebuildPage {n : Nat} (h : t.PagedBelow cfg n) (hb : t.blocks[n]? = some b) :
    (t.rebuildPage cfg n).PagedBelow cfg (n + 1) := by
  have hnot : ∀ k, ¬ (LiveIn t.blocks (fun b => cfg.pageBucket b.pageLo) k n ∧ n < n) := fun k hk => hk.2.false
  cases hlive : b.live with
  | true =>
    simp only [Table.rebuildPage, hb, hlive, if_true, pageInsert]
    refine ⟨(h.chains.insert hnot).iff ?_, ?_⟩
    · intro k j
      constructor
      · rintro (⟨hj, hlt⟩ | ⟨rfl, rfl⟩)
        · exact ⟨hj, by omega⟩
        · exact ⟨⟨b, hb, hlive, rfl⟩, by omega⟩
      · rintro ⟨hj, hlt⟩
        rcases Nat.lt_succ_iff_lt_or_eq.1 hlt with hlt | rfl
        · exact .inl ⟨hj, hlt⟩
        · exact .inr ⟨hj.key_unique ⟨b, hb, hlive, rfl⟩, rfl⟩
    · intro j c hc hlc hlt
      dsimp only at hc ⊢
      rcases Nat.lt_succ_iff_lt_or_eq.1 hlt with hlt | rfl
      · have := h.span hc hlc hlt
        split <;> omega
      · obtain rfl := Option.some.inj (hb.symm.trans hc)
        split <;> omega
  | false =>
    simp only [Table.rebuildPage, hb, hlive, Bool.false_eq_true, if_false]
    have hdead : ∀ {k : Nat}, ¬ LiveIn t.blocks (fun b => cfg.pageBucket b.pageLo) k n := by
      rintro k ⟨c, hc, hlc, -⟩
      obtain rfl := Option.some.inj (hb.symm.trans hc)
      rw [hlive] at hlc
      cases hlc
    refine ⟨(h.chains.update_next hnot).iff ?_, ?_⟩
    · intro k j
      constructor
      · rintro ⟨hj, hlt⟩
        exact ⟨hj, by omega⟩
      · rintro ⟨hj, hlt⟩
        rcases Nat.lt_succ_iff_lt_or_eq.1 hlt with hlt | rfl
        · exact ⟨hj, hlt⟩
        · exact absurd hj hdead
    · intro j c hc hlc hlt
      rcases Nat.lt_succ_iff_lt_or_eq.1 hlt with hlt | rfl
      · exact h.span hc hlc hlt
      · obtain rfl := Option.some.inj (hb.symm.trans hc)
        rw [hlive] at hlc
        cases hlc

/-- The loop of `rebuild_pages` touches only the page chains, and after `n` turns they hold the live
blocks below `n`. -/
theorem rebuildPages_loop (cfg : Config) (t : Table) {n : Nat} (hn : n ≤ t.blocks.length) :
    ∃ ph ms, (List.range n).foldl (rebuildPage cfg) { t with phash := t.phash.clear, maxSpan := 0 } =
        { t with phash := ph, maxSpan := ms } ∧
      PagedBelow cfg n { t with phash := ph, maxSpan := ms } := by
  induction n with
  | zero => exact ⟨_, _, rfl, (represents_clear _).iff (by simp), by simp⟩
  | succ n ih =>
    obtain ⟨ph, ms, heq, hpaged⟩ := ih (by omega)
    have hb : t.blocks[n]? = some t.blocks[n] := List.getElem?_eq_getElem (by omega)
    rw [List.range_succ, List.foldl_append, heq, List.foldl_cons, List.foldl_nil]
    have hstep := hpaged.rebuildPage hb
    rw [rebuildPage_eq] at hstep
    exact ⟨_, _, rebuildPage_eq .., hstep⟩

theorem rebuildPages_spec (cfg : Config) (t : Table) :
    ∃ ph ms, t.rebuildPages cfg = { t with phash := ph, maxSpan := ms } ∧ Paged cfg t.blocks ph ms := by
  obtain ⟨ph, ms, heq, hpaged⟩ := rebuildPages_loop cfg t (Nat.le_refl _)
  refine ⟨ph, ms, heq, hpaged.chains.iff fun k i => ⟨And.left, fun hi => ⟨hi, hi.lt_length⟩⟩, ?_⟩
  intro i b hb hlive
  exact hpaged.span hb hlive (List.getElem?_eq_some_iff.1 hb).1

theorem Core.rebuildPages (h : t.Core cfg P) : (t.rebuildPages cfg).Wf cfg P := by
  obtain ⟨ph, ms, heq, hpaged⟩ := rebuildPages_spec cfg t
  rw [heq]
  exact ⟨⟨h.placed, h.wired, h.hashed, h.seen, h.count⟩, hpaged⟩

/-! ## Retiring some blocks -/

/-- Some live blocks in `S` have been retired, and nothing else has happened to the blocks. -/
structure Shrinks (S : Block → Prop) (t t' : Table) : Prop where
  length : t'.blocks.length = t.blocks.length
  at_eq : ∀ {i : Nat} {b : Block}, t.blocks[i]? = some b →
    t'.blocks[i]? = some b ∨ b.live = true ∧ S b ∧ t'.blocks[i]? = some b.retired

namespace Shrinks

theorem of_blocks (h : t'.blocks = t.blocks) : Shrinks S t t' := by
  refine ⟨by rw [h], ?_⟩
  intro i b hb
  rw [h]
  exact .inl hb

theorem retire (hb : t.blocks[i]? = some b) (hlive : b.live = true) (hS : S b)
    (h : t'.blocks = t.blocks.set i b.retired) : Shrinks S t t' := by
  refine ⟨by rw [h, List.length_set], ?_⟩
  intro j c hc
  by_cases hj : j = i
  · subst hj
    obtain rfl := Option.some.inj (hb.symm.trans hc)
    rw [h, List.getElem?_set_self (List.getElem?_eq_some_iff.1 hb).1]
    exact .inr ⟨hlive, hS, rfl⟩
  · rw [h, List.getElem?_set_ne (Ne.symm hj)]
    exact .inl hc

theorem trans (h : Shrinks S t t') (h' : Shrinks S t' t'') : Shrinks S t t'' := by
  refine ⟨h'.length.trans h.length, ?_⟩
  intro i b hb
  rcases h.at_eq hb with hb' | ⟨hlive, hS, hb'⟩
  · exact h'.at_eq hb'
  · rcases h'.at_eq hb' with hb'' | ⟨hdead, -⟩
    · exact .inr ⟨hlive, hS, hb''⟩
    · cases hdead

theorem mono (h : Shrinks S t t') (hS : ∀ b, S b → S' b) : Shrinks S' t t' := by
  refine ⟨h.length, ?_⟩
  intro i b hb
  exact (h.at_eq hb).imp id fun ⟨hlive, hb, heq⟩ => ⟨hlive, hS _ hb, heq⟩

/-- What is live afterwards was live and is as it was. -/
theorem live (h : Shrinks S t t') (hb : t'.blocks[i]? = some b) (hlive : b.live = true) : t.blocks[i]? = some b := by
  have hi : i < t.blocks.length := h.length ▸ (List.getElem?_eq_some_iff.1 hb).1
  rcases h.at_eq (List.getElem?_eq_getElem hi) with heq | ⟨-, -, heq⟩
  · rw [List.getElem?_eq_getElem hi, Option.some.inj (heq.symm.trans hb)]
  · obtain rfl := Option.some.inj (heq.symm.trans hb)
    cases hlive

end Shrinks

/-- No live block starts on page `p` and reaches page `lo`. -/
def CleanAt (p lo : Nat) (t : Table) : Prop :=
  ∀ (i : Nat) (b : Block), t.blocks[i]? = some b → b.live = true → ¬ (b.pageLo = p ∧ lo ≤ b.pageHi)

theorem CleanAt.shrinks (hc : t.CleanAt p lo) (h : Shrinks S t t') : t'.CleanAt p lo := by
  intro i b hb hlive
  exact hc i b (h.live hb hlive) hlive

/-- The blocks of a page chain that has been walked to its end are all there are. -/
theorem Wf.cleanAt {l : List Nat} (h : t.Wf cfg P) (hchain : IsChain t.phash (.head (cfg.pageBucket p)) l)
    (hl : ∀ i ∈ l, ∀ b, t.blocks[i]? = some b → ¬ (b.pageLo = p ∧ lo ≤ b.pageHi)) : t.CleanAt p lo := by
  obtain ⟨l', hl', hmem⟩ := h.paged.chains (cfg.pageBucket p)
  obtain rfl := hchain.unique hl'
  intro i b hb hlive hbad
  exact hl i ((hmem i).2 ⟨b, hb, hlive, congrArg cfg.pageBucket hbad.1⟩) b hb hbad

/-- A walk over page `p` has discarded everything, or has retired the blocks that start there and reach
page `lo`. -/
structure Swept (cfg : Config) (P : BitVec 64 → BitVec 64 → Prop) (p lo : Nat) (t : Table) (r : Bool × Table) :
    Prop where
  wf : r.2.Wf cfg P
  flushed : r.1 = false → r.2.blocks = []
  shrinks : r.1 = true → Shrinks (fun b => b.pageLo = p ∧ lo ≤ b.pageHi) t r.2
  clean : r.1 = true → r.2.CleanAt p lo

theorem Swept.stop {l : List Nat} (h : t.Wf cfg P) (hchain : IsChain t.phash (.head (cfg.pageBucket p)) (l ++ []))
    (hl : ∀ i ∈ l, ∀ b, t.blocks[i]? = some b → ¬ (b.pageLo = p ∧ lo ≤ b.pageHi)) :
    Swept cfg P p lo t (true, t) := by
  rw [List.append_nil] at hchain
  exact ⟨h, by simp, fun _ => .of_blocks rfl, fun _ => h.cleanAt hchain hl⟩

theorem Swept.after {r : Bool × Table} (h : Shrinks (fun b => b.pageLo = p ∧ lo ≤ b.pageHi) t t')
    (hs : Swept cfg P p lo t' r) : Swept cfg P p lo t r :=
  ⟨hs.wf, hs.flushed, fun hr => h.trans (hs.shrinks hr), hs.clean⟩

/-- The walk over the bucket of page `p`, from the cell after the blocks `pre` that it has left in the
chain: by induction on the rest of the chain, which loses a block whether it is kept or retired. -/
theorem Wf.sweepBucket {fuel : Nat} {post : List Nat} (h : t.Wf cfg P) (lo : Nat)
    (hbytes : cfg.host.jumpBytes ≠ 0) (pre : List Nat)
    (hchain : IsChain t.phash (.head (cfg.pageBucket p)) (pre ++ post)) (hfuel : post.length ≤ fuel)
    (hpre : ∀ i ∈ pre, ∀ b, t.blocks[i]? = some b → ¬ (b.pageLo = p ∧ lo ≤ b.pageHi)) :
    Swept cfg P p lo t (t.sweepBucket cfg p lo fuel (cellAfter (.head (cfg.pageBucket p)) pre)) := by
  induction fuel generalizing t pre post with
  | zero =>
    obtain rfl := List.eq_nil_of_length_eq_zero (Nat.le_zero.1 hfuel)
    exact .stop h hchain hpre
  | succ fuel ih =>
    cases hchain.cellAfter with
    | nil hnone =>
      simp only [Table.sweepBucket, hnone]
      exact .stop h hchain hpre
    | @cons _ i post hi hrest =>
      obtain ⟨l, hl, hmem⟩ := h.paged.chains (cfg.pageBucket p)
      obtain rfl := hchain.unique hl
      obtain ⟨b, hb, hlive, hkey⟩ := (hmem i).1 (by simp)
      have hfuel : post.length ≤ fuel := by simpa using hfuel
      simp only [Table.sweepBucket, hi, hb, hlive, Bool.true_eq_false, if_false]
      split
      next hmatch =>
        have hcore : Core cfg P { t with phash := t.phash.removeAt (cellAfter (.head (cfg.pageBucket p)) pre) i } :=
          ⟨h.placed, h.wired, h.hashed, h.seen, h.count⟩
        rcases hcore.retireOne hbytes hb hlive with hflush | ⟨t', heq, hcore', hblocks, hphash, hspan⟩
        · rw [hflush]
          exact ⟨wf_flush hcore.seen, fun _ => rfl, by simp, by simp⟩
        · rw [heq]
          have hwf : t'.Wf cfg P := by
            refine ⟨hcore', ?_⟩
            rw [hblocks, hphash, hspan]
            exact h.paged.retireAt hchain
          refine .after (.retire hb hlive hmatch hblocks) (ih hwf pre ?_ hfuel ?_)
          · rw [hphash]
            exact hchain.removeAt (by simp)
          · intro j hj c hc
            rw [hblocks] at hc
            rcases getElem?_set_cases hc with ⟨rfl, -⟩ | ⟨-, hc⟩
            · exact absurd hj ((List.nodup_append.1 hchain.nodup).2.2 j · j (by simp) rfl)
            · exact hpre j hj c hc
      next hno =>
        rw [← cellAfter_append_singleton (.head (cfg.pageBucket p)) pre i]
        have hchain' : IsChain t.phash (.head (cfg.pageBucket p)) ((pre ++ [i]) ++ post) := by simpa using hchain
        refine ih h (pre ++ [i]) hchain' hfuel ?_
        intro j hj c hc
        rcases List.mem_append.1 hj with hj | hj
        · exact hpre j hj c hc
        · obtain rfl := List.mem_singleton.1 hj
          rwa [← Option.some.inj (hb.symm.trans hc)]

/-- The walk over the pages of a narrow range discards everything, or retires the blocks that start on
one of the pages and reach page `lo`. -/
theorem Wf.sweepPages {ps : List Nat} (h : t.Wf cfg P) (lo : Nat) (hbytes : cfg.host.jumpBytes ≠ 0)
    (hps : ∀ p ∈ ps, p ≤ hi) :
    (t.sweepPages cfg lo ps).Wf cfg P ∧ ((t.sweepPages cfg lo ps).blocks = [] ∨
      Shrinks (·.Reaches lo hi) t (t.sweepPages cfg lo ps) ∧ ∀ p ∈ ps, (t.sweepPages cfg lo ps).CleanAt p lo) := by
  induction ps generalizing t with
  | nil => exact ⟨h, .inr ⟨.of_blocks rfl, by simp⟩⟩
  | cons p ps ih =>
    obtain ⟨l, hl, hmem⟩ := h.paged.chains (cfg.pageBucket p)
    have hfuel := hl.length_le fun i hi => ((hmem i).1 hi).lt_length
    have hs := h.sweepBucket lo hbytes [] hl hfuel (by simp)
    simp only [cellAfter] at hs
    simp only [Table.sweepPages]
    split
    next t' heq =>
      rw [heq] at hs
      exact ⟨hs.wf, .inl (hs.flushed rfl)⟩
    next t' heq =>
      rw [heq] at hs
      have hshrinks : Shrinks (·.Reaches lo hi) t t' :=
        (hs.shrinks rfl).mono fun b hb => ⟨hb.1.le.trans (hps p List.mem_cons_self), hb.2⟩
      obtain ⟨hwf, hnil | ⟨hrest, hclean⟩⟩ := ih hs.wf fun q hq => hps q (List.mem_cons_of_mem _ hq)
      · exact ⟨hwf, .inl hnil⟩
      · refine ⟨hwf, .inr ⟨hshrinks.trans hrest, ?_⟩⟩
        intro q hq
        rcases List.mem_cons.1 hq with rfl | hq
        · exact (hs.clean rfl).shrinks hrest
        · exact hclean q hq

/-- The scan of the whole table discards everything, or retires the blocks that reach the range. -/
theorem Core.scanBlocks (h : t.Core cfg P) (lo hi : Nat) (is : List Nat) (hbytes : cfg.host.jumpBytes ≠ 0) :
    (t.scanBlocks cfg lo hi is).Wf cfg P ∧ ((t.scanBlocks cfg lo hi is).blocks = [] ∨
      Shrinks (·.Reaches lo hi) t (t.scanBlocks cfg lo hi is) ∧ ∀ i ∈ is, ∀ b,
        (t.scanBlocks cfg lo hi is).blocks[i]? = some b → b.live = true → ¬ b.Reaches lo hi) := by
  induction is generalizing t with
  | nil =>
    obtain ⟨ph, ms, heq, -⟩ := rebuildPages_spec cfg t
    refine ⟨h.rebuildPages, .inr ⟨.of_blocks ?_, by simp⟩⟩
    simp only [Table.scanBlocks, heq]
  | cons i is ih =>
    -- one turn leaves a table where block `i` is done with; the rest of the scan keeps that
    have hgo : ∀ {t' : Table}, t'.Core cfg P → Shrinks (·.Reaches lo hi) t t' →
        (∀ b, t'.blocks[i]? = some b → b.live = true → ¬ b.Reaches lo hi) →
        (t'.scanBlocks cfg lo hi is).Wf cfg P ∧ ((t'.scanBlocks cfg lo hi is).blocks = [] ∨
          Shrinks (·.Reaches lo hi) t (t'.scanBlocks cfg lo hi is) ∧ ∀ j ∈ i :: is, ∀ b,
            (t'.scanBlocks cfg lo hi is).blocks[j]? = some b → b.live = true → ¬ b.Reaches lo hi) := by
      intro t' hcore hshrinks hdone
      obtain ⟨hwf, hnil | ⟨hrest, hclean⟩⟩ := ih hcore
      · exact ⟨hwf, .inl hnil⟩
      · refine ⟨hwf, .inr ⟨hshrinks.trans hrest, ?_⟩⟩
        intro j hj b hb hlive
        rcases List.mem_cons.1 hj with rfl | hj
        · exact hdone b (hrest.live hb hlive) hlive
        · exact hclean j hj b hb hlive
    simp only [Table.scanBlocks]
    cases hb : t.blocks[i]? with
    | none => exact hgo h (.of_blocks rfl) (by simp [hb])
    | some b =>
      dsimp only
      split
      next hout =>
        refine hgo h (.of_blocks rfl) ?_
        intro c hc hlive hreach
        obtain rfl := Option.some.inj (hb.symm.trans hc)
        obtain ⟨hlo, hhi⟩ := hreach
        rcases hout with hdead | hout | hout
        · exact absurd (hlive.symm.trans hdead) (by simp)
        · omega
        · omega
      next hin =>
        obtain ⟨hlive, hlo, hhi⟩ : b.live = true ∧ b.pageLo ≤ hi ∧ lo ≤ b.pageHi := by simpa using hin
        rcases h.retireOne hbytes hb hlive with hflush | ⟨t', heq, hcore, hblocks, -, -⟩
        · rw [hflush]
          exact ⟨wf_flush h.seen, .inl rfl⟩
        · rw [heq]
          refine hgo hcore (.retire hb hlive ⟨hlo, hhi⟩ hblocks) ?_
          intro c hc hlc
          rw [hblocks] at hc
          rcases getElem?_set_cases hc with ⟨-, rfl⟩ | ⟨hne, -⟩
          · cases hlc
          · exact absurd rfl hne

/-- `retire_pages` keeps the invariant, leaves no live block that reaches the range, and, unless it
discards everything, retires only blocks that do. -/
theorem Wf.retirePages (h : t.Wf cfg P) (lo hi : Nat) :
    (t.retirePages cfg lo hi).Wf cfg P ∧
      ((t.retirePages cfg lo hi).blocks = [] ∨ Shrinks (·.Reaches lo hi) t (t.retirePages cfg lo hi)) ∧
      ∀ (i : Nat) (b : Block), (t.retirePages cfg lo hi).blocks[i]? = some b → b.live = true →
        ¬ b.Reaches lo hi := by
  unfold Table.retirePages
  split
  · exact ⟨wf_flush h.seen, .inl rfl, by simp [flush]⟩
  next hhost =>
    rw [not_or] at hhost
    split
    · -- the narrow walk: a block that reaches the range starts at most `maxSpan` pages before it
      have hpages : ∀ p ∈ List.range' (lo - t.maxSpan) (hi + 1 - (lo - t.maxSpan)), p ≤ hi := by
        intro p hp
        have := List.mem_range'_1.1 hp
        omega
      obtain ⟨hwf, hnil | ⟨hshrinks, hclean⟩⟩ := h.sweepPages lo hhost.2 hpages
      · exact ⟨hwf, .inl hnil, by simp [hnil]⟩
      · refine ⟨hwf, .inr hshrinks, ?_⟩
        intro i b hb hlive hreach
        have hspan := h.paged.span (hshrinks.live hb hlive) hlive
        refine hclean b.pageLo (List.mem_range'_1.2 ?_) i b hb hlive ⟨rfl, hreach.2⟩
        obtain ⟨hlo, hhi⟩ := hreach
        omega
    · obtain ⟨hwf, hnil | ⟨hshrinks, hclean⟩⟩ := h.toCore.scanBlocks lo hi _ hhost.2
      · exact ⟨hwf, .inl hnil, by simp [hnil]⟩
      · refine ⟨hwf, .inr hshrinks, ?_⟩
        intro i b hb hlive
        refine hclean i (List.mem_range.2 ?_) b hb hlive
        exact hshrinks.length ▸ (List.getElem?_eq_some_iff.1 hb).1

end Table

end Emu.Jit
