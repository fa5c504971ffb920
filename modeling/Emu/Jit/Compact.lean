-- SUMMARY: Compaction slides the surviving blocks down without changing their bytes, and rebuilds both indexes.
import Emu.Jit.Invalidate

/-!
# Compaction

`compact` ranks the blocks, points every linked exit back at its own tail, slides the survivors down to
the start of the buffer and rebuilds the chains. The blocks are in address order, so a survivor never
moves up and the bytes of a block still to be moved are intact when its turn comes.
-/

namespace Emu.Jit

open Emu.Chain

/-- The block with its hit count cleared. -/
def Block.cool (b : Block) : Block := { b with hits := 0 }

namespace Table

variable {cfg : Config} {P : BitVec 64 → BitVec 64 → Prop} {t t' : Table} {i : Nat} {a b : Block}

/-! ## Ranking -/

/-- `chain_heat` does nothing but set hit counts. -/
theorem chainHeat_induction {Q : Table → Prop} (hQ : ∀ t i n, Q t → Q (t.setHits i n)) (passes : Nat) (h : Q t) :
    Q (t.chainHeat cfg passes) := by
  have hslot : ∀ i context (st : Bool × Table) l, Q st.2 → Q (heatSlot cfg i context st l).2 := by
    intro i context st l hst
    unfold heatSlot
    split
    · exact hst
    · split
      · exact hst
      · split
        · exact hQ _ _ _ hst
        · exact hst
  have hslots : ∀ (ls : List Slot) i context (st : Bool × Table), Q st.2 →
      Q (ls.foldl (heatSlot cfg i context) st).2 := by
    intro ls i context
    induction ls with
    | nil => exact fun _ => id
    | cons l ls ih => exact fun st hst => ih _ (hslot i context st l hst)
  have hblock : ∀ (st : Bool × Table) i, Q st.2 → Q (heatBlock cfg st i).2 := by
    intro st i hst
    unfold heatBlock
    split
    · exact hst
    · split
      · exact hslots _ _ _ _ hst
      · exact hst
  have hblocks : ∀ (is : List Nat) (st : Bool × Table), Q st.2 → Q (is.foldl (heatBlock cfg) st).2 := by
    intro is
    induction is with
    | nil => exact fun _ => id
    | cons i is ih => exact fun st hst => ih _ (hblock st i hst)
  induction passes generalizing t with
  | zero => exact h
  | succ passes ih =>
    have hpass := hblocks (List.range t.blocks.length) (false, t) h
    simp only [chainHeat]
    split
    · exact ih hpass
    · exact hpass

/-- The tables differ in hit counts only. -/
structure SameButHits (t t' : Table) : Prop where
  blocks : t'.blocks.map Block.cool = t.blocks.map Block.cool
  rest : t' = { t with blocks := t'.blocks }

theorem SameButHits.symm (h : SameButHits t t') : SameButHits t' t :=
  ⟨h.blocks.symm, by rw [h.rest]⟩

theorem SameButHits.setHits (h : SameButHits t t') (i n : Nat) : SameButHits t (t'.setHits i n) := by
  refine ⟨.trans ?_ h.blocks, by rw [Table.setHits, h.rest]⟩
  apply List.ext_getElem?
  intro j
  simp only [Table.setHits, List.getElem?_map, List.getElem?_modify]
  cases t'.blocks[j]? with
  | none => rfl
  | some b =>
    simp only [Option.map_eq_map, Option.map_some]
    split <;> rfl

theorem SameButHits.chainHeat (cfg : Config) (t : Table) (passes : Nat) : SameButHits t (t.chainHeat cfg passes) :=
  chainHeat_induction (fun _ i n h => h.setHits i n) passes ⟨rfl, rfl⟩

theorem Wf.chainHeat (h : t.Wf cfg P) (passes : Nat) : (t.chainHeat cfg passes).Wf cfg P :=
  chainHeat_induction (fun _ i n h => h.setHits i n) passes h

theorem SameButHits.exists_cool (h : SameButHits t t') (hb : t'.blocks[i]? = some b) :
    ∃ a, t.blocks[i]? = some a ∧ b.cool = a.cool := by
  have := congrArg (·[i]?) h.blocks
  simp only [List.getElem?_map, hb, Option.map_some] at this
  obtain ⟨a, ha, hab⟩ := Option.map_eq_some_iff.1 this.symm
  exact ⟨a, ha, hab.symm⟩

/-- The hit counts have no part in unlinking. -/
theorem unlinkCalls_cool (bs : List Block) :
    ((bs.map Block.cool).filter (·.live)).flatMap Block.unlinkCalls =
      (bs.filter (·.live)).flatMap Block.unlinkCalls := by
  rw [List.filter_map, List.flatMap_map]
  rfl

theorem SameButHits.unlinkAll_mem (h : SameButHits t t') : (t'.unlinkAll cfg).mem = (t.unlinkAll cfg).mem := by
  have hcalls : (t'.blocks.filter (·.live)).flatMap Block.unlinkCalls =
      (t.blocks.filter (·.live)).flatMap Block.unlinkCalls := by
    rw [← unlinkCalls_cool, h.blocks, unlinkCalls_cool]
  have hmem : t'.mem = t.mem := by rw [h.rest]
  simp only [unlinkAll, patch, hcalls, hmem]
  split
  · rfl
  · exact hmem

/-! ## Sliding -/

theorem le_alignPtr (cfg : Config) (d : Nat) : d ≤ alignPtr cfg d := by
  unfold alignPtr
  omega

theorem alignPtr_mod (cfg : Config) (d : Nat) : alignPtr cfg d % 4 = 0 := by
  have := cfg.base_aligned
  unfold alignPtr
  omega

/-- Rounding up does not pass a multiple of four: a block never moves up. -/
theorem alignPtr_le (cfg : Config) {d c : Nat} (hc : c % 4 = 0) (hd : d ≤ c) : alignPtr cfg d ≤ c := by
  have := cfg.base_aligned
  unfold alignPtr
  omega

theorem memmove_inside {dst src len k : Nat} {m : Mem} (hk : k < len) :
    memmove dst src len m (dst + k) = m (src + k) := by
  rw [memmove, if_pos (by omega), Nat.add_sub_cancel_left]

theorem memmove_outside {dst src len x : Nat} {m : Mem} (hx : x < dst ∨ dst + len ≤ x) :
    memmove dst src len m x = m x :=
  if_neg (by omega)

/-- The keys of the live blocks. -/
def keys (bs : List Block) : List (Word × BitVec 64) :=
  (bs.filter (·.live)).map fun b => (b.guestPc, b.context)

/-- The survivor `c` is block `b` moved, with the bytes it had in `m`. -/
structure Moved (m : Mem) (b : Block) (m' : Mem) (c : Block) : Prop where
  live : b.live = true
  eq : c = { b with code := c.code, hits := c.hits }
  bytes : ∀ k < b.len, m' (c.code + k) = m (b.code + k)

/-- The sliding loop after the blocks `done`, over the buffer `m`: the survivors are packed at the start
and are blocks of `done` moved; everything from the destination on is untouched, and the destination has
not passed the end of what is done. -/
structure Slid (cfg : Config) (m : Mem) (done : List Block) (s : Slide) : Prop where
  placed : Placed cfg s.kept s.dst
  moved : ∀ {i : Nat} {c : Block}, s.kept[i]? = some c → ∃ b ∈ done, Moved m b s.mem c
  keys : (Table.keys s.kept).Sublist (Table.keys done)
  above : ∀ x, s.dst ≤ x → s.mem x = m x
  low : ∀ e, (∀ b ∈ done, b.code + b.len ≤ e) → s.dst ≤ e
  seen : s.seen.Ok
  count : s.kept.length ≤ done.length

theorem Slid.nil {m : Mem} {seen : Seen} (h : seen.Ok) : Slid cfg m [] ⟨0, [], m, seen⟩ where
  placed := .nil cfg
  moved := by simp
  keys := by simp [Table.keys]
  above _ _ := rfl
  low _ _ := Nat.zero_le _
  seen := h
  count := Nat.le_refl _

/-- A block that is not kept. -/
theorem Slid.skip {m : Mem} {done : List Block} {s : Slide} {seen : Seen} (h : Slid cfg m done s) (b : Block)
    (hseen : seen.Ok) : Slid cfg m (done ++ [b]) { s with seen := seen } where
  placed := h.placed
  moved hc := by
    obtain ⟨a, ha, hmoved⟩ := h.moved hc
    exact ⟨a, by simp [ha], hmoved⟩
  keys := by
    refine h.keys.trans ?_
    simp only [Table.keys, List.filter_append, List.map_append]
    exact List.sublist_append_left _ _
  above := h.above
  low e he := h.low e fun a ha => he a (by simp [ha])
  seen := hseen
  count := h.count.trans (by simp)

/-- A block that is kept moves down to the rounded destination. -/
theorem Slid.keep {m : Mem} {done : List Block} {s : Slide} {hits : Nat} (h : Slid cfg m done s)
    (hlive : b.live = true) (hal : b.code % 4 = 0) (hfits : b.layout.Fits cfg.host b.len) (hpos : 0 < b.insns)
    (hend : b.code + b.len ≤ cfg.size) (hdst : s.dst ≤ b.code) :
    Slid cfg m (done ++ [b])
      { s with
        dst := alignPtr cfg s.dst + b.len
        kept := s.kept ++ [{ b with code := alignPtr cfg s.dst, hits := hits }]
        mem := if alignPtr cfg s.dst ≠ b.code then memmove (alignPtr cfg s.dst) b.code b.len s.mem else s.mem } := by
  have hup := le_alignPtr cfg s.dst
  have hdown := alignPtr_le cfg hal hdst
  have hmem : ∀ x, x < alignPtr cfg s.dst ∨ alignPtr cfg s.dst + b.len ≤ x →
      (if alignPtr cfg s.dst ≠ b.code then memmove (alignPtr cfg s.dst) b.code b.len s.mem else s.mem) x = s.mem x := by
    intro x hx
    split
    · exact memmove_outside hx
    · rfl
  constructor
  · exact h.placed.append hup (alignPtr_mod cfg _) hfits hpos (Nat.le_refl _) (by dsimp only; omega)
  · intro i c hc
    rcases getElem?_append_singleton hc with hc | ⟨-, rfl⟩
    · -- an earlier survivor lies below the destination
      obtain ⟨a, ha, hmoved⟩ := h.moved hc
      refine ⟨a, by simp [ha], hmoved.live, hmoved.eq, ?_⟩
      intro k hk
      have hlen : c.len = a.len := by rw [hmoved.eq]
      have hin := h.placed.inside hc
      exact (hmem _ (by omega)).trans (hmoved.bytes k hk)
    · refine ⟨b, by simp, hlive, rfl, ?_⟩
      intro k hk
      dsimp only
      split
      · rw [memmove_inside hk]
        exact h.above _ (by omega)
      next heq =>
        rw [not_not.1 heq]
        exact h.above _ (by omega)
  · simp only [Table.keys, List.filter_append, List.map_append]
    refine h.keys.append ?_
    simp [hlive]
  · intro x hx
    dsimp only at hx ⊢
    exact (hmem x (.inr hx)).trans (h.above x (by omega))
  · intro e he
    have := he b (by simp)
    dsimp only
    omega
  · exact h.seen
  · have := h.count
    simp only [List.length_append, List.length_singleton]
    omega

theorem Slid.step {m : Mem} {bs done rest : List Block} {s : Slide} {used : Nat} (hp : Placed cfg bs used)
    (hbs : bs = done ++ b :: rest) (h : Slid cfg m done s) (threshold : Nat) :
    Slid cfg m (done ++ [b]) (slideBlock cfg threshold s b) := by
  have hb : bs[done.length]? = some b := by simp [hbs]
  have hbefore : ∀ a ∈ done, a.code + a.len ≤ b.code := by
    intro a ha
    obtain ⟨i, hi⟩ := List.getElem?_of_mem ha
    have hlt := (List.getElem?_eq_some_iff.1 hi).1
    exact hp.ranges hlt (by rw [hbs, List.getElem?_append_left hlt, hi]) hb
  unfold slideBlock
  split
  · exact h.skip b h.seen
  next hlive =>
    split
    · exact h.skip b h.seen.evictNote
    · exact h.keep (by simpa using hlive) (hp.aligned hb) (hp.fits hb) (hp.insns_pos hb)
        ((hp.inside hb).trans hp.used_le) (h.low b.code hbefore)

theorem Slid.run {m : Mem} {bs : List Block} {used : Nat} (hp : Placed cfg bs used) (threshold : Nat)
    (done rest : List Block) {s : Slide} (hbs : bs = done ++ rest) (h : Slid cfg m done s) :
    Slid cfg m bs (rest.foldl (slideBlock cfg threshold) s) := by
  induction rest generalizing done s with
  | nil => simpa [hbs] using h
  | cons b rest ih => exact ih (done ++ [b]) (by simp [hbs]) (h.step hp hbs threshold)

/-! ## Rebuilding the hash -/

theorem rebuildHash_loop (cfg : Config) (t : Table) (hall : ∀ b ∈ t.blocks, b.live = true) {n : Nat}
    (hn : n ≤ t.blocks.length) :
    ∃ h, (List.range n).foldl (chainInsert cfg) { t with hash := t.hash.clear } = { t with hash := h } ∧
      Represents h fun k i => LiveIn t.blocks cfg.bucket k i ∧ i < n := by
  induction n with
  | zero => exact ⟨_, rfl, (represents_clear _).iff (by simp)⟩
  | succ n ih =>
    obtain ⟨h, heq, hchains⟩ := ih (by omega)
    have hb : t.blocks[n]? = some t.blocks[n] := List.getElem?_eq_getElem (by omega)
    have hlive := hall _ (List.mem_of_getElem? hb)
    rw [List.range_succ, List.foldl_append, heq, List.foldl_cons, List.foldl_nil]
    refine ⟨h.insert (cfg.bucket t.blocks[n]) n, by simp [chainInsert, hb], ?_⟩
    refine (hchains.insert fun k hk => hk.2.false).iff ?_
    intro k j
    constructor
    · rintro (⟨hj, hlt⟩ | ⟨rfl, rfl⟩)
      · exact ⟨hj, by omega⟩
      · exact ⟨⟨_, hb, hlive, rfl⟩, by omega⟩
    · rintro ⟨hj, hlt⟩
      rcases Nat.lt_succ_iff_lt_or_eq.1 hlt with hlt | rfl
      · exact .inl ⟨hj, hlt⟩
      · exact .inr ⟨hj.key_unique ⟨_, hb, hlive, rfl⟩, rfl⟩

/-- `rebuild_hash` indexes a table of live blocks with distinct keys. -/
theorem rebuildHash_spec (cfg : Config) (t : Table) (hall : ∀ b ∈ t.blocks, b.live = true)
    (hkeys : (keys t.blocks).Nodup) :
    ∃ h ph ms, t.rebuildHash cfg = { t with hash := h, phash := ph, maxSpan := ms } ∧
      Hashed cfg t.blocks h ∧ Paged cfg t.blocks ph ms := by
  obtain ⟨h, heq, hchains⟩ := rebuildHash_loop cfg t hall (Nat.le_refl _)
  obtain ⟨ph, ms, heq', hpaged⟩ := rebuildPages_spec cfg { t with hash := h }
  refine ⟨h, ph, ms, by rw [rebuildHash, heq, heq'], ⟨?_, ?_⟩, hpaged⟩
  · exact hchains.iff fun k i => ⟨And.left, fun hi => ⟨hi, hi.lt_length⟩⟩
  · intro i j a b ha hb _ _ hpc hctx
    have hfilter : t.blocks.filter (·.live) = t.blocks := List.filter_eq_self.2 hall
    rw [keys, hfilter] at hkeys
    have hi := (List.getElem?_eq_some_iff.1 ha).1
    refine (List.getElem?_inj (by simpa using hi) hkeys).1 ?_
    simp [ha, hb, hpc, hctx]

/-- Distinct live blocks have distinct keys. -/
theorem Hashed.keys_nodup {bs : List Block} {hash : Links Word} (h : Hashed cfg bs hash) : (keys bs).Nodup := by
  rw [keys, List.Nodup, List.pairwise_map, List.pairwise_filter, List.pairwise_iff_getElem]
  intro i j hi hj hij hli hlj heq
  obtain ⟨hpc, hctx⟩ := Prod.mk.inj heq
  exact hij.ne (h.unique (List.getElem?_eq_getElem hi) (List.getElem?_eq_getElem hj) hli hlj hpc hctx)

/-! ## The whole of `compact` -/

/-- The table `compact` ranks. -/
def heated (cfg : Config) (t : Table) : Table :=
  if cfg.tuning.chainHeat then t.chainHeat cfg 8 else t

theorem heated_spec (cfg : Config) (t : Table) : SameButHits t (t.heated cfg) := by
  unfold heated
  split
  · exact .chainHeat cfg t 8
  · exact ⟨rfl, rfl⟩

theorem Wf.heated (h : t.Wf cfg P) : (t.heated cfg).Wf cfg P := by
  unfold Table.heated
  split
  · exact h.chainHeat 8
  · exact h

/-- The sliding loop of `compact`, over the ranked and unlinked table. -/
def slide (cfg : Config) (t : Table) : Slide :=
  let u := (t.heated cfg).unlinkAll cfg
  u.blocks.foldl (slideBlock cfg ((t.heated cfg).threshold cfg))
    ⟨0, [], u.mem, { u.seen with marksLeft := cfg.tuning.thrashMarks }⟩

theorem Wf.slide (h : t.Wf cfg P) :
    Slid cfg (t.unlinkAll cfg).mem ((t.heated cfg).unlinkAll cfg).blocks (t.slide cfg) := by
  have hu := h.heated.unlinkAll
  rw [← (heated_spec cfg t).unlinkAll_mem]
  exact .run hu.placed _ [] _ rfl (.nil (hu.seen.marksLeft _))

/-- Each survivor of `compact` is a live block of the table, moved with its bytes. -/
theorem Wf.exists_moved {c : Block} (h : t.Wf cfg P) (hc : (t.slide cfg).kept[i]? = some c) :
    c.live = true ∧ (∀ l ∈ c.layout.link, l.linked = false) ∧
      ∃ (j : Nat) (b : Block), t.blocks[j]? = some b ∧ b.live = true ∧ c.bare = { b.bare with code := c.code } ∧
        ∀ k < b.len, (t.slide cfg).mem (c.code + k) = (t.unlinkAll cfg).mem (b.code + k) := by
  obtain ⟨b₂, hb₂, hmoved⟩ := h.slide.moved hc
  obtain ⟨j, hj⟩ := List.getElem?_of_mem hb₂
  obtain ⟨b₁, hb₁, hbare, hlive⟩ := exists_face (map_face_unlinkAll cfg _) hj
  obtain ⟨b, hb, hcool⟩ := (heated_spec cfg t).exists_cool hb₁
  have hbare₁ : b₂.bare = b.bare := hbare.trans (congrArg Block.bare hcool :)
  have hlive₁ : b₁.live = b.live := (congrArg Block.live hcool :)
  have hlayout : c.layout = b₂.layout := (congrArg Block.layout hmoved.eq :)
  refine ⟨(congrArg Block.live hmoved.eq).trans hmoved.live, ?_, j, b, hb, ?_, ?_, ?_⟩
  · intro l hl
    rw [hlayout] at hl
    exact h.heated.unlinkAll_unlinked hj hmoved.live hl
  · rw [← hlive₁, ← hlive, hmoved.live]
  · have : c.bare = { b₂.bare with code := c.code } := (congrArg Block.bare hmoved.eq :)
    rw [this, hbare₁]
  · intro k hk
    have hab := Block.alike hbare₁
    rw [← hab.code]
    exact hmoved.bytes k (hab.len ▸ hk)

theorem Wf.compact_eq (h : t.Wf cfg P) :
    ∃ hash ph ms, t.compact cfg = { (t.heated cfg).unlinkAll cfg with
        blocks := (t.slide cfg).kept
        used := (t.slide cfg).dst
        mem := (t.slide cfg).mem
        seen := (t.slide cfg).seen
        hash := hash
        phash := ph
        maxSpan := ms } ∧
      Hashed cfg (t.slide cfg).kept hash ∧ Paged cfg (t.slide cfg).kept ph ms := by
  have hall : ∀ c ∈ (t.slide cfg).kept, c.live = true := by
    intro c hc
    obtain ⟨i, hi⟩ := List.getElem?_of_mem hc
    exact (h.exists_moved hi).1
  exact rebuildHash_spec cfg { (t.heated cfg).unlinkAll cfg with
    blocks := (t.slide cfg).kept
    used := (t.slide cfg).dst
    mem := (t.slide cfg).mem
    seen := (t.slide cfg).seen } hall (h.slide.keys.nodup (Hashed.keys_nodup h.heated.unlinkAll.hashed))

theorem Wf.compact (h : t.Wf cfg P) : (t.compact cfg).Wf cfg P := by
  obtain ⟨hash, ph, ms, heq, hhashed, hpaged⟩ := h.compact_eq
  rw [heq]
  refine ⟨⟨h.slide.placed, ⟨?_, ?_, ?_⟩, hhashed, h.slide.seen,
    h.slide.count.trans h.heated.unlinkAll.count⟩, hpaged⟩
  · intro i c hc hdead
    exact absurd ((h.exists_moved hc).1.symm.trans hdead) (by simp)
  · intro i c l hc hl hlk
    exact absurd (hlk.symm.trans ((h.exists_moved hc).2.1 l hl)) (by simp)
  · intro i c l hc _ hl hlk
    exact absurd (hlk.symm.trans ((h.exists_moved hc).2.1 l hl)) (by simp)

/-- Compaction keeps every survivor's bytes, as they are once its exits point at its tail. -/
theorem Wf.compact_bytes {c : Block} (h : t.Wf cfg P) (hc : (t.compact cfg).blocks[i]? = some c) :
    ∃ (j : Nat) (b : Block), t.blocks[j]? = some b ∧ b.live = true ∧ c.bare = { b.bare with code := c.code } ∧
      ∀ k < b.len, (t.compact cfg).mem (c.code + k) = (t.unlinkAll cfg).mem (b.code + k) := by
  obtain ⟨hash, ph, ms, heq, -⟩ := h.compact_eq
  rw [heq] at hc ⊢
  exact (h.exists_moved hc).2.2

/-! ## Translation -/

variable {pc : Word} {context : BitVec 64}

theorem Wf.misses_compact (h : t.Wf cfg P) (hmiss : t.Misses pc context) : (t.compact cfg).Misses pc context := by
  intro i c hc _ hpc hctx
  obtain ⟨j, b, hb, hlive, hbare, -⟩ := h.compact_bytes hc
  have hpc' : c.guestPc = b.guestPc := (congrArg Block.guestPc hbare :)
  have hctx' : c.context = b.context := (congrArg Block.context hbare :)
  exact hmiss j b hb hlive (hpc' ▸ hpc) (hctx' ▸ hctx)

/-- What is known of an attempt to translate: the table is well formed, a block it returns is the live
block for the pc, and without one the pc still has none. -/
structure Attempt.Ok (cfg : Config) (P : BitVec 64 → BitVec 64 → Prop) (pc : Word) (context : BitVec 64)
    (r : Option Nat × Table) : Prop where
  wf : r.2.Wf cfg P
  found : ∀ {i : Nat}, r.1 = some i →
    ∃ b, r.2.blocks[i]? = some b ∧ b.live = true ∧ b.guestPc = pc ∧ b.context = context
  missing : r.1 = none → r.2.Misses pc context

theorem Wf.translateOnce_ok (tr : Translator cfg.host cfg.size) (h : t.Wf cfg P) (hmiss : t.Misses pc context)
    (hcount : t.blocks.length < cfg.maxBlocks) (hroom : (t.used + 3) / 4 * 4 ≤ cfg.size) :
    Attempt.Ok cfg P pc context
      ((t.translateOnce cfg tr pc context).block, (t.translateOnce cfg tr pc context).table) := by
  refine ⟨h.translateOnce tr hmiss hcount hroom, ?_, ?_⟩
  · intro i hi
    rcases translateOnce_cases tr pc context t with ⟨b, hblock, hblocks, hb⟩ | ⟨hblock, -⟩
    · dsimp only at hi ⊢
      obtain rfl : t.blocks.length = i := Option.some.inj (hblock.symm.trans hi)
      exact ⟨b, by rw [hblocks, List.getElem?_concat_length], hb⟩
    · cases hblock.symm.trans hi
  · intro hi
    rcases translateOnce_cases tr pc context t with ⟨b, hblock, -⟩ | ⟨-, hblocks⟩
    · cases hblock.symm.trans hi
    · intro i b hb
      dsimp only at hb
      rw [hblocks] at hb
      exact hmiss i b hb

theorem Wf.attempt (tr : Translator cfg.host cfg.size) (h : t.Wf cfg P) (hmiss : t.Misses pc context) :
    Attempt.Ok cfg P pc context ((t.attempt cfg tr pc context).block, (t.attempt cfg tr pc context).table) := by
  unfold Table.attempt
  split
  · exact ⟨h, by simp, fun _ => hmiss⟩
  next hlow =>
    obtain ⟨hcount, hroom⟩ := not_spaceLow (by simpa using hlow)
    exact h.translateOnce_ok tr hmiss hcount hroom

/-- After a flush there is room for an attempt. -/
theorem Wf.translateOnce_flush (tr : Translator cfg.host cfg.size) (h : t.Wf cfg P) :
    Attempt.Ok cfg P pc context ((t.flush.translateOnce cfg tr pc context).block,
      (t.flush.translateOnce cfg tr pc context).table) := by
  refine (wf_flush h.seen).translateOnce_ok tr ?_ cfg.maxBlocks_pos (by simp [flush])
  intro i b hb
  simp [flush] at hb

/-- `translate` at a pc without a block: each attempt that leads to the next has found no block. -/
theorem Wf.translate (tr : Translator cfg.host cfg.size) (h : t.Wf cfg P) (hmiss : t.Misses pc context) :
    Attempt.Ok cfg P pc context (t.translate cfg tr pc context) := by
  have hfirst := h.attempt tr hmiss
  simp only [Table.translate]
  split
  · exact hfirst
  next hgo =>
    have hnone := (not_or.1 hgo).1
    rw [Option.not_isSome_iff_eq_none] at hnone
    have hmiss' := hfirst.missing hnone
    have hwf := hfirst.wf
    dsimp only at hwf hmiss'
    cases cfg.host.relocatable with
    | true =>
      have hsecond := hwf.compact.attempt tr (hwf.misses_compact hmiss')
      simp only [if_true]
      split
      · exact hsecond
      · exact hsecond.wf.translateOnce_flush tr
    | false =>
      simp only [Bool.false_eq_true, if_false, Option.isSome_none, Bool.true_eq_false, or_self]
      exact hwf.translateOnce_flush tr

end Table

end Emu.Jit
