-- SUMMARY: Each operation of the block table keeps the table's invariant, and lookup finds the block it names.
import Emu.Jit.Invariant

/-!
# The operations keep the invariant

Lookup, linking and unlinking of exits, retirement of one block, a flush and one translation. `Core` is
the invariant without the page chains, which a wide invalidation leaves behind until it has retired
everything.
-/

namespace Emu.Jit

open Emu.Chain

namespace Table

/-- The invariant of the table but for its page chains. -/
structure Core (cfg : Config) (P : BitVec 64 → BitVec 64 → Prop) (t : Table) : Prop where
  placed : Placed cfg t.blocks t.used
  wired : Wired cfg P t.blocks t.mem
  hashed : Hashed cfg t.blocks t.hash
  seen : t.seen.Ok
  count : t.blocks.length ≤ cfg.maxBlocks

/-- The invariant of the table. -/
structure Wf (cfg : Config) (P : BitVec 64 → BitVec 64 → Prop) (t : Table) : Prop extends Core cfg P t where
  paged : Paged cfg t.blocks t.phash t.maxSpan

variable {cfg : Config} {P : BitVec 64 → BitVec 64 → Prop} {t t' : Table} {i j : Nat} {a b : Block}
  {pc : Word} {context : BitVec 64}

theorem wf_flush (h : t.seen.Ok) : t.flush.Wf cfg P where
  placed := .nil cfg
  wired := .nil cfg P _
  hashed := .nil cfg _
  seen := h.invalidate
  count := Nat.zero_le _
  paged := .nil cfg _

/-- An operation that changes blocks in place only in what the indexes do not see. -/
theorem Wf.of_face (h : t.Wf cfg P) (hf : t'.blocks.map Block.face = t.blocks.map Block.face)
    (hw : Wired cfg P t'.blocks t'.mem) (hh : t'.hash = t.hash) (hp : t'.phash = t.phash)
    (hs : t'.maxSpan = t.maxSpan) (hu : t'.used = t.used) (hn : t'.seen = t.seen) : t'.Wf cfg P where
  placed := hu ▸ h.placed.of_bare (map_bare_of_face hf)
  wired := hw
  hashed := hh ▸ h.hashed.of_face hf
  seen := hn ▸ h.seen
  count := by
    have := congrArg List.length hf
    simp only [List.length_map] at this
    exact this ▸ h.count
  paged := hp ▸ hs ▸ h.paged.of_face hf

/-! ## Lookup -/

/-- No live block is for the pc and context. -/
def Misses (t : Table) (pc : Word) (context : BitVec 64) : Prop :=
  ∀ (i : Nat) (b : Block), t.blocks[i]? = some b → b.live = true → b.guestPc = pc → b.context ≠ context

theorem isFor_iff (hb : t.blocks[i]? = some b) :
    t.isFor pc context i = true ↔ b.guestPc = pc ∧ b.context = context := by
  simp [isFor, hb]

/-- `find_block` finds the live block for the pc and context. -/
theorem Core.findBlock_eq_some (h : t.Core cfg P) :
    t.findBlock cfg pc context = some i ↔
      ∃ b, t.blocks[i]? = some b ∧ b.live = true ∧ b.guestPc = pc ∧ b.context = context := by
  obtain ⟨hsome, hnone⟩ := h.hashed.chains.find (b := cfg.pcHash pc context) (fun _ _ hi => hi.lt_length)
    (t.isFor pc context)
  constructor
  · intro hi
    obtain ⟨⟨b, hb, hlive, -⟩, hfor⟩ := hsome i hi
    exact ⟨b, hb, hlive, (isFor_iff hb).1 hfor⟩
  · rintro ⟨b, hb, hlive, rfl, rfl⟩
    cases hf : t.findBlock cfg b.guestPc b.context with
    | none =>
      have := hnone hf i ⟨b, hb, hlive, rfl⟩
      rw [(isFor_iff hb).2 ⟨rfl, rfl⟩] at this
      cases this
    | some j =>
      obtain ⟨⟨c, hc, hlc, -⟩, hfor⟩ := hsome j hf
      obtain ⟨hpc, hctx⟩ := (isFor_iff hc).1 hfor
      rw [h.hashed.unique hc hb hlc hlive hpc hctx]

theorem Core.findBlock_eq_none (h : t.Core cfg P) :
    t.findBlock cfg pc context = none ↔ t.Misses pc context := by
  constructor
  · intro hnone i b hb hlive hpc hctx
    have := h.findBlock_eq_some.2 ⟨b, hb, hlive, hpc, hctx⟩
    rw [hnone] at this
    cases this
  · intro hmiss
    cases hf : t.findBlock cfg pc context with
    | none => rfl
    | some i =>
      obtain ⟨b, hb, hlive, hpc, hctx⟩ := h.findBlock_eq_some.1 hf
      exact absurd hctx (hmiss i b hb hlive hpc)

theorem setHits_blocks (ha : t.blocks[i]? = some a) (n : Nat) :
    (t.setHits i n).blocks = t.blocks.set i { a with hits := n } := by
  rw [setHits, List.modify_eq_set_getElem?, ha]
  rfl

theorem setHits_of_none (ha : t.blocks[i]? = none) (n : Nat) : t.setHits i n = t := by
  rw [setHits, List.modify_eq_set_getElem?, ha]
  rfl

theorem map_face_setHits (t : Table) (i n : Nat) :
    (t.setHits i n).blocks.map Block.face = t.blocks.map Block.face := by
  cases ha : t.blocks[i]? with
  | none => rw [setHits_of_none ha]
  | some a =>
    rw [setHits_blocks ha]
    exact map_face_set ha rfl rfl

theorem Wf.setHits (h : t.Wf cfg P) (i n : Nat) : (t.setHits i n).Wf cfg P := by
  cases ha : t.blocks[i]? with
  | none => rwa [setHits_of_none ha]
  | some a =>
    refine h.of_face (map_face_setHits t i n) ?_ rfl rfl rfl rfl rfl
    rw [setHits_blocks ha]
    exact h.wired.set h.placed ha rfl (fun _ _ => rfl) (fun hd hc => h.wired.entries (b := a) ha hd hc)
      (fun l hl hlk => h.wired.canLink ha hl hlk) (fun hlive l hl hlk => h.wired.links (a := a) ha hlive hl hlk)

theorem lookup_fst (cfg : Config) (t : Table) (pc : Word) (context : BitVec 64) :
    (t.lookup cfg pc context).1 = t.findBlock cfg pc context := by
  unfold lookup
  cases t.findBlock cfg pc context <;> rfl

theorem lookup_cases (cfg : Config) (t : Table) (pc : Word) (context : BitVec 64) :
    (t.lookup cfg pc context).2 = t ∨ ∃ i n, (t.lookup cfg pc context).2 = t.setHits i n := by
  unfold lookup
  cases t.findBlock cfg pc context with
  | none => exact .inl rfl
  | some i =>
    simp only
    split
    · exact .inr ⟨i, _, rfl⟩
    · exact .inl rfl

theorem lookup_of_miss (h : (t.lookup cfg pc context).1 = none) : t.lookup cfg pc context = (none, t) := by
  rw [lookup_fst] at h
  unfold lookup
  rw [h]

theorem Wf.lookup (h : t.Wf cfg P) : (t.lookup cfg pc context).2.Wf cfg P := by
  rcases t.lookup_cases cfg pc context with heq | ⟨i, n, heq⟩
  · rwa [heq]
  · rw [heq]
    exact h.setHits i n

/-! ## Chained exits -/

/-- What a call of `patch_link` does not write. -/
theorem apply_of_outside {h : Host} {p : Patch} {m : Mem} {x : Nat}
    (hx : ∀ code, p.source = some code → x < code + p.site ∨ code + p.site + h.linkBytes ≤ x) :
    p.apply h m x = m x := by
  unfold Patch.apply
  cases hs : p.source with
  | none => rfl
  | some code => exact h.patchLink_of_outside (hx code hs)

theorem foldl_apply_of_outside {h : Host} {calls : List Patch} {m : Mem} {x : Nat}
    (hx : ∀ p ∈ calls, ∀ code, p.source = some code → x < code + p.site ∨ code + p.site + h.linkBytes ≤ x) :
    calls.foldl (fun m p => p.apply h m) m x = m x := by
  induction calls generalizing m with
  | nil => rfl
  | cons p calls ih =>
    rw [List.foldl_cons, ih fun q hq => hx q (List.mem_cons_of_mem _ hq)]
    exact apply_of_outside (hx p List.mem_cons_self)

/-- A call that unlinks an exit is for a live block of the table and writes inside it. -/
theorem mem_unlinkCalls {p : Patch} (hp : p ∈ (t.blocks.filter (·.live)).flatMap Block.unlinkCalls) :
    ∃ (i : Nat) (b : Block) (l : Slot), t.blocks[i]? = some b ∧ b.live = true ∧ l ∈ b.layout.link ∧ p = ⟨some b.code, l.site, b.exitTail⟩ := by
  obtain ⟨b, hb, hp⟩ := List.mem_flatMap.1 hp
  obtain ⟨hmem, hlive⟩ := List.mem_filter.1 hb
  obtain ⟨i, hi⟩ := List.getElem?_of_mem hmem
  obtain ⟨l, hl, rfl⟩ := List.mem_map.1 hp
  exact ⟨i, b, l, hi, hlive, (List.mem_filter.1 hl).1, by simp [Block.codePtr, hlive]⟩

theorem unlinkAll_blocks (hc : cfg.host.canLink = true) :
    (t.unlinkAll cfg).blocks = t.blocks.map fun b => if b.live then b.unlinked else b := by
  simp [unlinkAll, hc, patch]

theorem map_face_unlinkAll (cfg : Config) (t : Table) :
    (t.unlinkAll cfg).blocks.map Block.face = t.blocks.map Block.face := by
  unfold unlinkAll
  split
  · simp only [patch, List.map_map]
    apply List.map_congr_left
    intro b _
    simp only [Function.comp_apply, Block.face]
    split
    · rw [Block.bare_unlinked]
      rfl
    · rfl
  · rfl

/-- Unlinking leaves a retired block's bytes alone. -/
theorem Core.unlinkAll_mem {x : Nat} (h : t.Core cfg P) (hb : t.blocks[i]? = some b) (hdead : b.live = false)
    (hx : b.code ≤ x) (hx' : x < b.code + b.len) : (t.unlinkAll cfg).mem x = t.mem x := by
  unfold unlinkAll
  split
  · apply foldl_apply_of_outside
    intro p hp code hcode
    obtain ⟨j, c, l, hc, hlive, hl, rfl⟩ := mem_unlinkCalls hp
    obtain rfl : c.code = code := Option.some.inj hcode
    have hsite := (h.placed.fits hc).site_le l hl
    have hij : i ≠ j := by
      rintro rfl
      rw [Option.some.inj (hb.symm.trans hc), hlive] at hdead
      cases hdead
    dsimp only
    rcases h.placed.apart hij hb hc with hlt | hgt <;> omega
  · rfl

/-- After `unlink_all` no live block has a linked exit. -/
theorem Core.unlinkAll_unlinked {l : Slot} (h : t.Core cfg P) (hb : (t.unlinkAll cfg).blocks[i]? = some b)
    (hlive : b.live = true) (hl : l ∈ b.layout.link) : l.linked = false := by
  cases hc : cfg.host.canLink with
  | true =>
    rw [unlinkAll_blocks hc, List.getElem?_map] at hb
    obtain ⟨a, ha, rfl⟩ := Option.map_eq_some_iff.1 hb
    split at hl
    · obtain ⟨l', -, rfl⟩ := List.mem_map.1 hl
      rfl
    · simp_all
  | false =>
    simp only [unlinkAll, hc, Bool.false_eq_true, if_false] at hb
    cases hlk : l.linked with
    | false => rfl
    | true => exact absurd ((h.wired.canLink hb hl hlk).symm.trans hc) (by simp)

theorem Core.unlinkAll_wired (h : t.Core cfg P) :
    Wired cfg P (t.unlinkAll cfg).blocks (t.unlinkAll cfg).mem := by
  have hface := map_face_unlinkAll cfg t
  refine ⟨?_, ?_, ?_⟩
  · intro i b hb hdead hchain
    obtain ⟨a, ha, hbare, hlive⟩ := exists_face hface hb
    have hab := Block.alike hbare
    have htail : b.layout.tail = a.layout.tail := (congrArg (·.layout.tail) hbare :)
    have hentry : b.layout.chainEntry = a.layout.chainEntry := (congrArg (·.layout.chainEntry) hbare :)
    have hdead' : a.live = false := hlive.symm.trans hdead
    obtain ⟨hroom, hjump⟩ := h.wired.entries ha hdead' (hab.chainable.symm.trans hchain)
    rw [hab.entry, hab.exitTail, htail, hentry]
    refine ⟨hroom, (h.placed.jumpTarget_eq ha hroom ?_).trans hjump⟩
    intro x hx hx'
    exact h.unlinkAll_mem ha hdead' hx hx'
  · intro i b l hb hl hlk
    cases hc : cfg.host.canLink with
    | true => rfl
    | false =>
      simp only [unlinkAll, hc, Bool.false_eq_true, if_false] at hb
      exact hc.symm.trans (h.wired.canLink hb hl hlk)
  · intro i b l hb hlive hl hlk
    exact absurd (hlk.symm.trans (h.unlinkAll_unlinked hb hlive hl)) (by simp)

theorem Wf.unlinkAll (h : t.Wf cfg P) : (t.unlinkAll cfg).Wf cfg P := by
  refine h.of_face (map_face_unlinkAll cfg t) h.unlinkAll_wired ?_ ?_ ?_ ?_ ?_ <;>
    (unfold Table.unlinkAll; split <;> rfl)

/-- `link_exit` finds something to do: block `i` is `a`, the block about to run is `b` and can be chained
into, and exit `k` of `a` is the first that leads to `b`'s pc and is not linked. -/
structure LinkStep (cfg : Config) (t : Table) (i dst : Nat) (a b : Block) (k : Nat) (l : Slot) : Prop where
  src : t.blocks[i]? = some a
  dst : t.blocks[dst]? = some b
  canLink : cfg.host.canLink = true
  chainable : b.layout.chainable = true
  first : a.layout.link.findIdx? (fun l => !l.linked && l.targetPc == b.guestPc) = some k
  slot : a.layout.link[k]? = some l

namespace LinkStep

variable {dst k : Nat} {l : Slot}

theorem linkExit_eq (h : LinkStep cfg t i dst a b k l) :
    t.linkExit cfg (some i) dst =
      { t.patch cfg [⟨a.codePtr, l.site, b.entry⟩] with blocks := t.blocks.set i (a.linked k) } := by
  simp [linkExit, h.src, h.dst, h.canLink, h.chainable, h.first, h.slot, patch]

theorem targetPc_eq (h : LinkStep cfg t i dst a b k l) : l.targetPc = b.guestPc := by
  obtain ⟨hk, hp, -⟩ := List.findIdx?_eq_some_iff_getElem.1 h.first
  have hl : a.layout.link[k] = l := (List.getElem?_eq_some_iff.1 h.slot).2
  rw [hl] at hp
  simpa using (Bool.and_eq_true_iff.1 hp).2

theorem linked_eq (h : LinkStep cfg t i dst a b k l) : l.linked = false := by
  obtain ⟨hk, hp, -⟩ := List.findIdx?_eq_some_iff_getElem.1 h.first
  have hl : a.layout.link[k] = l := (List.getElem?_eq_some_iff.1 h.slot).2
  rw [hl] at hp
  simpa using (Bool.and_eq_true_iff.1 hp).1

end LinkStep

/-- `link_exit` does nothing, or makes the one call and marks the exit. -/
theorem linkExit_cases (cfg : Config) (t : Table) (src : Option Nat) (dst : Nat) :
    t.linkExit cfg src dst = t ∨
      ∃ i a b k l, src = some i ∧ LinkStep cfg t i dst a b k l := by
  cases src with
  | none => exact .inl rfl
  | some i =>
    simp only [linkExit]
    split
    next a b ha hb =>
      split
      · exact .inl rfl
      next hno =>
        split
        · exact .inl rfl
        next k hk =>
          obtain ⟨hlt, -⟩ := List.findIdx?_eq_some_iff_getElem.1 hk
          rw [not_or, Bool.not_eq_false, Bool.not_eq_false] at hno
          exact .inr ⟨i, a, b, k, a.layout.link[k], rfl, ha, hb, hno.1, hno.2, hk, List.getElem?_eq_getElem hlt⟩
    · exact .inl rfl

/-- The sites of two different exits of a block are apart. -/
theorem fits_apart {h : Host} {ly : Layout} {len k k' : Nat} {l l' : Slot} (hf : ly.Fits h len) (hk : k ≠ k')
    (hl : ly.link[k]? = some l) (hl' : ly.link[k']? = some l') :
    l.site + h.linkBytes ≤ l'.site ∨ l'.site + h.linkBytes ≤ l.site := by
  obtain ⟨hlt, rfl⟩ := List.getElem?_eq_some_iff.1 hl
  obtain ⟨hlt', rfl⟩ := List.getElem?_eq_some_iff.1 hl'
  have hpair := List.pairwise_iff_getElem.1 hf.apart
  rcases Nat.lt_or_gt_of_ne hk with hlt₂ | hgt
  · exact hpair k k' hlt hlt' hlt₂
  · exact (hpair k' k hlt' hlt hgt).symm

/-- The exit just linked leads to the chain entry of the block about to run. -/
theorem LinkStep.linkTarget_eq {dst k : Nat} {l : Slot} (hs : LinkStep cfg t i dst a b k l) (h : t.Core cfg P)
    (hlive : a.live = true) :
    cfg.host.linkTarget (t.linkExit cfg (some i) dst).mem (a.code + l.site) = b.entry := by
  have hsite := (h.placed.fits hs.src).site_le l (List.mem_of_getElem? hs.slot)
  have hreach := h.placed.le_reach hs.src
  have hentry := (h.placed.entry_lt hs.dst).le.trans (h.placed.le_reach hs.dst)
  have hreach' : a.code + l.site ≤ cfg.host.reach := by omega
  have hptr : a.codePtr = some a.code := by simp [Block.codePtr, hlive]
  rw [hs.linkExit_eq]
  simp only [patch, Patch.apply, hptr, List.foldl_cons, List.foldl_nil]
  exact cfg.host.linkTarget_patchLink hreach' hentry

/-- Linking an exit keeps the wiring, if the two blocks' contexts are related. Nothing is asked of a
retired source: its call of `patch_link` writes nothing of the buffer. -/
theorem LinkStep.wired {dst k : Nat} {l : Slot} (hs : LinkStep cfg t i dst a b k l) (h : t.Core cfg P)
    (hP : a.live = true → P a.context b.context) :
    Wired cfg P (t.linkExit cfg (some i) dst).blocks (t.linkExit cfg (some i) dst).mem := by
  have hfits := h.placed.fits hs.src
  have hsite := hfits.site_le l (List.mem_of_getElem? hs.slot)
  have htarget := hs.linkTarget_eq h
  rw [hs.linkExit_eq] at htarget ⊢
  refine h.wired.set h.placed hs.src (Block.bare_linked a k) ?_ ?_ (fun _ _ _ => hs.canLink) ?_
  · intro x hx
    apply apply_of_outside
    intro code hcode
    obtain rfl : a.code = code := by
      cases hlive : a.live <;> simp_all [Block.codePtr]
    dsimp only
    omega
  · intro hdead hchain
    have hptr : a.codePtr = none := by
      have : a.live = false := hdead
      simp [Block.codePtr, this]
    simp only [patch, Patch.apply, hptr, List.foldl_cons, List.foldl_nil]
    exact h.wired.entries (b := a) hs.src hdead hchain
  · intro hlive l' hl' hlk
    have hptr : a.codePtr = some a.code := by
      have : a.live = true := hlive
      simp [Block.codePtr, this]
    obtain ⟨k', hk'⟩ := List.getElem?_of_mem hl'
    have hmod : (a.layout.link.modify k fun l => { l with linked := true })[k']? = some l' := hk'
    by_cases hkk : k = k'
    · -- the exit just linked
      subst hkk
      rw [List.getElem?_modify_eq, hs.slot] at hmod
      obtain rfl := Option.some.inj hmod
      exact ⟨dst, b, hs.dst, hs.chainable, hs.targetPc_eq.symm, hP hlive, htarget hlive⟩
    · rw [List.getElem?_modify_ne _ _ hkk] at hmod
      simp only [patch, Patch.apply, hptr, List.foldl_cons, List.foldl_nil]
      obtain ⟨j, c, hc, hchain, hpc, hPc, hlt⟩ := h.wired.links hs.src hlive (List.mem_of_getElem? hmod) hlk
      refine ⟨j, c, hc, hchain, hpc, hPc, .trans ?_ hlt⟩
      apply cfg.host.linkTarget_congr
      intro x hx hx'
      apply cfg.host.patchLink_of_outside
      have hx : a.code + l'.site ≤ x := hx
      have hx' : x < a.code + l'.site + cfg.host.linkBytes := hx'
      rcases fits_apart hfits hkk hs.slot hmod with hlt | hgt <;> omega

theorem map_face_linkExit (cfg : Config) (t : Table) (src : Option Nat) (dst : Nat) :
    (t.linkExit cfg src dst).blocks.map Block.face = t.blocks.map Block.face := by
  rcases linkExit_cases cfg t src dst with heq | ⟨i, a, b, k, l, rfl, hs⟩
  · rw [heq]
  · rw [hs.linkExit_eq]
    exact map_face_set hs.src (Block.bare_linked a k) rfl

theorem Wf.linkExit {dst : Nat} {src : Option Nat} (h : t.Wf cfg P)
    (hP : ∀ i a b k l, src = some i → LinkStep cfg t i dst a b k l → a.live = true → P a.context b.context) :
    (t.linkExit cfg src dst).Wf cfg P := by
  rcases linkExit_cases cfg t src dst with heq | ⟨i, a, b, k, l, rfl, hs⟩
  · rwa [heq]
  · have hw := hs.wired h.toCore (hP i a b k l rfl hs)
    refine h.of_face (map_face_linkExit cfg t (some i) dst) hw ?_ ?_ ?_ ?_ ?_ <;>
      (rw [hs.linkExit_eq]; rfl)

/-! ## Retirement of one block -/

/-- The bytes of the buffer once block `b` is retired. -/
def retireMem (cfg : Config) (b : Block) (m : Mem) : Mem :=
  if b.layout.chainable then cfg.host.emitJump b.entry b.exitTail m else m

theorem retireOne_of_room (hb : t.blocks[i]? = some b)
    (hroom : ¬ (b.layout.chainable = true ∧ b.layout.tail - b.layout.chainEntry < cfg.host.jumpBytes)) :
    t.retireOne cfg i = (true, { t with
      mem := retireMem cfg b t.mem
      hash := t.hash.unlink t.blocks.length (.head (cfg.bucket b)) i
      blocks := t.blocks.set i b.retired }) := by
  simp only [retireOne, hb, hroom, if_false, retireMem]
  split <;> simp [unhash, hb, Block.retired]

/-- `retire_one` discards everything, or retires the block and keeps the invariant but for the page
chains, which it does not touch. -/
theorem Core.retireOne (h : t.Core cfg P) (hbytes : cfg.host.jumpBytes ≠ 0) (hb : t.blocks[i]? = some b)
    (hlive : b.live = true) :
    t.retireOne cfg i = (false, t.flush) ∨
      ∃ t', t.retireOne cfg i = (true, t') ∧ t'.Core cfg P ∧ t'.blocks = t.blocks.set i b.retired ∧
        t'.phash = t.phash ∧ t'.maxSpan = t.maxSpan := by
  by_cases hroom : b.layout.chainable = true ∧ b.layout.tail - b.layout.chainEntry < cfg.host.jumpBytes
  · left
    simp only [Table.retireOne, hb, hroom, and_self, if_true]
  right
  refine ⟨_, retireOne_of_room hb hroom, ?_, rfl, rfl, rfl⟩
  have hlen : (t.blocks.set i b.retired).length = t.blocks.length := List.length_set
  refine ⟨h.placed.of_bare (map_bare_set hb b.bare_retired), ?_, h.hashed.retire hb hlive, h.seen, hlen ▸ h.count⟩
  have htail := (h.placed.fits hb).tail_le
  have hreach := h.placed.le_reach hb
  refine h.wired.set h.placed hb b.bare_retired ?_ ?_ (fun l hl hlk => h.wired.canLink hb hl hlk) ?_
  · intro x hx
    simp only [retireMem]
    split
    next hchain =>
      rw [not_and] at hroom
      have := hroom hchain
      apply cfg.host.emitJump_of_outside
      rw [Block.entry]
      omega
    · rfl
  · intro _ hchain
    have hchain : b.layout.chainable = true := hchain
    rw [not_and] at hroom
    have hroom := hroom hchain
    have hentry := (h.placed.fits hb).entry_lt
    simp only [retireMem, hchain, if_true]
    refine ⟨?_, cfg.host.jumpTarget_emitJump ?_ ?_⟩
    · change b.layout.chainEntry + _ ≤ b.layout.tail
      omega
    · rw [Block.entry]
      omega
    · rw [Block.exitTail]
      omega
  · intro hdead
    cases hdead

/-! ## Translation -/

theorem not_spaceLow (h : t.spaceLow cfg = false) :
    t.blocks.length < cfg.maxBlocks ∧ (t.used + 3) / 4 * 4 ≤ cfg.size := by
  simp only [spaceLow, decide_eq_false_iff_not, not_or, not_le] at h
  have := cfg.reserve_ge
  omega

/-- What an attempt leaves of the table: the block is for the pc and context it was asked for, or the
blocks are as they were. -/
theorem translateOnce_cases (tr : Translator cfg.host cfg.size) (pc : Word) (context : BitVec 64) (t : Table) :
    (∃ b, (t.translateOnce cfg tr pc context).block = some t.blocks.length ∧
      (t.translateOnce cfg tr pc context).table.blocks = t.blocks ++ [b] ∧ b.live = true ∧ b.guestPc = pc ∧
        b.context = context) ∨
    (t.translateOnce cfg tr pc context).block = none ∧
      (t.translateOnce cfg tr pc context).table.blocks = t.blocks := by
  simp only [translateOnce]
  split
  · right
    refine ⟨rfl, ?_⟩
    dsimp only
    split <;> rfl
  · left
    simp only [chainInsert, pageInsert, List.getElem?_concat_length]
    exact ⟨_, trivial, rfl, rfl, rfl, rfl⟩

/-- One attempt at a pc without a block keeps the invariant. -/
theorem Wf.translateOnce (tr : Translator cfg.host cfg.size) (h : t.Wf cfg P) (hmiss : t.Misses pc context)
    (hcount : t.blocks.length < cfg.maxBlocks) (hroom : (t.used + 3) / 4 * 4 ≤ cfg.size) :
    (t.translateOnce cfg tr pc context).table.Wf cfg P := by
  have hok := tr.ok t.mem _ hroom
  have hle : t.used ≤ (t.used + 3) / 4 * 4 := by omega
  -- the emission writes above every block
  have hplaced : Placed cfg t.blocks ((t.used + 3) / 4 * 4) :=
    { h.placed with inside := fun hb => (h.placed.inside hb).trans hle, used_le := hroom }
  have hwired := h.wired.frame hplaced hok.frame
  simp only [Table.translateOnce]
  split
  · dsimp only
    split
    · exact ⟨⟨hplaced, hwired, h.hashed, h.seen, h.count⟩, h.paged⟩
    · exact ⟨⟨hplaced, hwired, h.hashed, h.seen.negNote, h.count⟩, h.paged⟩
  next hacc =>
    rw [not_or, Bool.not_eq_true] at hacc
    have hfits := hok.fits hacc.1 hacc.2
    have hstart := hok.start_le
    have hinsns := hok.insns_lt
    simp only [chainInsert, pageInsert, List.getElem?_concat_length]
    refine ⟨⟨?_, ?_, ?_, h.seen, ?_⟩, ?_⟩
    · refine h.placed.append hle ?_ hfits ?_ ?_ hok.cursor_le
      · dsimp only
        omega
      · dsimp only
        omega
      · dsimp only
        omega
    · exact hwired.append rfl hok.fresh
    · exact h.hashed.append rfl fun ha hlive hpc => hmiss _ _ ha hlive hpc
    · rw [List.length_append]
      exact hcount
    · exact h.paged.append rfl

end Table

end Emu.Jit
