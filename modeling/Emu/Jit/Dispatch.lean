-- SUMMARY: The dispatch loop: when it links exits, and when that keeps every chained jump inside one context.
import Emu.Jit.Reach

/-!
# The dispatcher

`emu_jit_run` looks a block up for each pc it comes to, translates where there is none, and aims the exit
of the block it ran before at the one it is about to run. A pass of its loop is one step here; what the
guest and the callbacks do in a pass is what the step is given. Code that runs under the loop (a block's
helpers, the interpreter, an interrupt's delivery, a platform callback) may invalidate, flush and ask to
unchain at any time, which are steps of their own.
-/

namespace Emu.Jit

open Emu.Chain

/-- The cache and the dispatcher's own state: `prev`, the generation last seen and `g_unchain`. -/
structure Machine where
  table : Table
  prev : Option Nat
  generation : Option Word
  unchain : Bool

/-- What a pass of the loop meets: whether the guest is running, whether `take_irq` delivers an interrupt,
the generation word if the frontend has one, whether the guard is up, the pc and context read, and what the
translator does at the pc. -/
structure Turn (cfg : Config) where
  running : Bool
  irq : Bool
  gen : Option Word
  blocked : Bool
  pc : Word
  context : BitVec 64
  translator : Translator cfg.host cfg.size

namespace Machine

/-- Nothing translated and no generation seen. -/
def init (m : Mem) : Machine := ⟨Table.init m, none, none, false⟩

variable (cfg : Config)

/-- The entry of `emu_jit_run`, where `prev` starts as `NULL`. The flushes it may make (another core's
epoch, a frontend's `bind`) are steps of their own. -/
def enter (m : Machine) : Machine :=
  { m with table := if m.unchain then m.table.unlinkAll cfg else m.table, unchain := false, prev := none }

/-- The generation check: a change flushes, and forgets `prev`. -/
def checkGeneration (gen : Option Word) (m : Machine) : Machine :=
  match gen with
  | none => m
  | some g =>
    if m.generation = none ∨ m.generation = some g then { m with generation := some g }
    else { m with table := m.table.flush, prev := none, generation := some g }

/-- A pc without a block: interpreted if it is known to be declined or to thrash or is not hot yet, and
translated otherwise. `prev` is `NULL` whichever it is, unless a block was made, which then runs. -/
def miss (t : Turn cfg) (m : Machine) : Machine :=
  let seen := m.table.seen.of t.pc t.context
  if seen = seenDeclined then { m with prev := none }
  else if seen = seenThrash then
    { m with table := { m.table with seen := m.table.seen.thrashTick cfg.tuning }, prev := none }
  else
    let (hot, s) := m.table.seen.heatBump cfg.tuning t.pc t.context
    let table := { m.table with seen := s }
    if hot then
      let (block, table) := table.translate cfg t.translator t.pc t.context
      { m with table := table, prev := block }
    else { m with table := table, prev := none }

/-- The lookup and what follows it, up to the block's start: the exit of `prev` is linked to the block. -/
def dispatch (t : Turn cfg) (m : Machine) : Machine :=
  match m.table.lookup cfg t.pc t.context with
  | (some i, table) => { m with table := table.linkExit cfg m.prev i, prev := some i }
  | (none, table) => { m with table := table }.miss cfg t

/-- A pass of the loop of `emu_jit_run`. An interrupt goes back to the head of the loop with `prev` as it
was; the guard interprets; the end of the loop forgets `prev` with the call. -/
def pass (t : Turn cfg) (m : Machine) : Machine :=
  if t.running = false then { m with prev := none }
  else if t.irq then m
  else
    let m := m.checkGeneration t.gen
    if t.blocked then { m with prev := none } else m.dispatch cfg t

end Machine

/-- The steps of the dispatcher and of the code that runs under it. -/
inductive Event (cfg : Config) where
  | enter
  | pass (t : Turn cfg)
  | invalidatePage (vaddr : Word)
  | invalidateRange (lo hi : Word)
  | flush
  | unchain

namespace Event

variable {cfg : Config}

def apply (m : Machine) : Event cfg → Machine
  | .enter => m.enter cfg
  | .pass t => m.pass cfg t
  | .invalidatePage vaddr => { m with table := m.table.invalidatePage cfg vaddr }
  | .invalidateRange lo hi => { m with table := m.table.invalidateRange cfg lo hi }
  | .flush => { m with table := m.table.flush }
  | .unchain => { m with unchain := true }

end Event

/-! ## What is asked of the chained exits -/

/-- Every linked exit of a live block leads to the chain entry of a live block for the exit's pc in the
same context, or to the chain entry of a retired block that is a jump to the block's own tail. -/
def Table.ExitsSound (cfg : Config) (t : Table) : Prop :=
  ∀ a ∈ t.blocks, a.live = true → ∀ l ∈ a.layout.link, l.linked = true →
    ∃ b ∈ t.blocks, cfg.host.linkTarget t.mem (a.code + l.site) = b.entry ∧
      (b.live = true ∧ b.guestPc = l.targetPc ∧ b.context = a.context ∨
        b.live = false ∧ cfg.host.jumpTarget t.mem b.entry = some b.exitTail)

/-- No call of `patch_link` was made for a block whose `code` was `NULL`. -/
def Table.PatchesLive (t : Table) : Prop := ∀ p ∈ t.patches, p.source ≠ none

instance (cfg : Config) (t : Table) : Decidable (t.ExitsSound cfg) := by
  unfold Table.ExitsSound
  infer_instance

instance (t : Table) : Decidable t.PatchesLive := by
  unfold Table.PatchesLive
  infer_instance

/-- The pass gets as far as the lookup with `prev` as it is. -/
def Turn.Dispatches {cfg : Config} (t : Turn cfg) (m : Machine) : Prop :=
  t.running = true ∧ t.irq = false ∧ t.blocked = false ∧
    (t.gen = none ∨ m.generation = none ∨ m.generation = t.gen)

/-- If there is a block for the pc and context, and an exit of the block `prev` that is to be linked to it,
then `prev` is still live and its context is the one just read. -/
def Turn.LinkSafe {cfg : Config} (t : Turn cfg) (m : Machine) : Prop :=
  cfg.host.canLink = true → ∀ i ∈ m.prev, ∀ a ∈ m.table.blocks[i]?, ∀ b ∈ m.table.blocks,
    (b.live = true ∧ b.guestPc = t.pc ∧ b.context = t.context ∧ b.layout.chainable = true) →
    (∃ l ∈ a.layout.link, l.linked = false ∧ l.targetPc = t.pc) → a.live = true ∧ a.context = t.context

instance {cfg : Config} (t : Turn cfg) (m : Machine) : Decidable (t.Dispatches m) := by
  unfold Turn.Dispatches
  infer_instance

instance {cfg : Config} (t : Turn cfg) (m : Machine) : Decidable (t.LinkSafe m) := by
  unfold Turn.LinkSafe
  infer_instance

/-- The step links no exit of a retired block, and none across contexts. -/
def Event.LinkOk {cfg : Config} (m : Machine) : Event cfg → Prop
  | .pass t => t.Dispatches m → t.LinkSafe m
  | _ => True

/-! ## Calls of `patch_link` -/

namespace Table

variable {cfg : Config} {P : BitVec 64 → BitVec 64 → Prop} {t : Table} {pc : Word} {context : BitVec 64}

theorem retireOne_patches (cfg : Config) (t : Table) (i : Nat) : (t.retireOne cfg i).2.patches = t.patches := by
  cases hb : t.blocks[i]? with
  | none => simp [retireOne, hb]
  | some b =>
    by_cases hroom : b.layout.chainable = true ∧ b.layout.tail - b.layout.chainEntry < cfg.host.jumpBytes
    · simp only [retireOne, hb, hroom, and_self, if_true]
      rfl
    · rw [retireOne_of_room hb hroom]

theorem sweepBucket_patches (cfg : Config) (p lo fuel : Nat) (a : Cell Nat) (t : Table) :
    (t.sweepBucket cfg p lo fuel a).2.patches = t.patches := by
  induction fuel generalizing a t with
  | zero => rfl
  | succ fuel ih =>
    simp only [sweepBucket]
    split
    · rfl
    next i _ =>
      split
      · rfl
      · split
        · exact ih ..
        · split
          · have hr := retireOne_patches cfg { t with phash := t.phash.removeAt a i } i
            split <;> rename_i heq <;> rw [heq] at hr
            · exact hr
            · exact (ih ..).trans hr
          · exact ih ..

theorem sweepPages_patches (cfg : Config) (lo : Nat) (ps : List Nat) (t : Table) :
    (t.sweepPages cfg lo ps).patches = t.patches := by
  induction ps generalizing t with
  | nil => rfl
  | cons p ps ih =>
    have hs := sweepBucket_patches cfg p lo t.blocks.length (.head (cfg.pageBucket p)) t
    simp only [sweepPages]
    split <;> rename_i heq <;> rw [heq] at hs
    · exact hs
    · exact (ih _).trans hs

theorem scanBlocks_patches (cfg : Config) (lo hi : Nat) (is : List Nat) (t : Table) :
    (t.scanBlocks cfg lo hi is).patches = t.patches := by
  induction is generalizing t with
  | nil =>
    obtain ⟨ph, ms, heq, -⟩ := rebuildPages_spec cfg t
    simp only [scanBlocks, heq]
  | cons i is ih =>
    simp only [scanBlocks]
    split
    · exact ih t
    · split
      · exact ih t
      · have hr := retireOne_patches cfg t i
        split <;> rename_i heq <;> rw [heq] at hr
        · exact hr
        · exact (ih _).trans hr

/-- Invalidation calls `patch_link` for no block. -/
theorem retirePages_patches (cfg : Config) (lo hi : Nat) (t : Table) :
    (t.retirePages cfg lo hi).patches = t.patches := by
  simp only [retirePages]
  split
  · rfl
  · split
    · exact sweepPages_patches ..
    · exact scanBlocks_patches ..

theorem invalidateRange_patches (cfg : Config) (lo hi : Word) (t : Table) :
    (t.invalidateRange cfg lo hi).patches = t.patches := by
  simp only [invalidateRange]
  split
  · rfl
  · split <;> exact retirePages_patches ..

theorem lookup_patches (cfg : Config) (t : Table) (pc : Word) (context : BitVec 64) :
    (t.lookup cfg pc context).2.patches = t.patches := by
  rcases t.lookup_cases cfg pc context with heq | ⟨i, n, heq⟩ <;> rw [heq]
  rfl

theorem PatchesLive.of_eq {t' : Table} (h : t.PatchesLive) (he : t'.patches = t.patches) : t'.PatchesLive := by
  intro p hp
  exact h p (he ▸ hp)

/-- `unlink_all` passes over retired blocks. -/
theorem PatchesLive.unlinkAll (h : t.PatchesLive) : (t.unlinkAll cfg).PatchesLive := by
  unfold Table.unlinkAll
  split
  · intro p hp
    rcases List.mem_append.1 hp with hp | hp
    · exact h p hp
    · obtain ⟨i, b, l, -, -, -, rfl⟩ := mem_unlinkCalls hp
      simp
  · exact h

theorem PatchesLive.compact (h : t.PatchesLive) (hwf : t.Wf cfg P) : (t.compact cfg).PatchesLive := by
  obtain ⟨hash, ph, ms, heq, -⟩ := hwf.compact_eq
  have hheated : (t.heated cfg).PatchesLive := by
    rw [(heated_spec cfg t).rest]
    exact h
  rw [heq]
  exact hheated.unlinkAll

theorem translateOnce_patches (tr : Translator cfg.host cfg.size) (pc : Word) (context : BitVec 64) (t : Table) :
    (t.translateOnce cfg tr pc context).table.patches = t.patches := by
  simp only [translateOnce]
  split
  · dsimp only
    split <;> rfl
  · simp [chainInsert, pageInsert]

theorem attempt_patches (tr : Translator cfg.host cfg.size) (pc : Word) (context : BitVec 64) (t : Table) :
    (t.attempt cfg tr pc context).table.patches = t.patches := by
  unfold attempt
  split
  · rfl
  · exact translateOnce_patches ..

theorem PatchesLive.translate (tr : Translator cfg.host cfg.size) (h : t.PatchesLive) (hwf : t.Wf cfg P)
    (hmiss : t.Misses pc context) : (t.translate cfg tr pc context).2.PatchesLive := by
  have hfirst := h.of_eq (attempt_patches tr pc context t)
  simp only [Table.translate]
  split
  · exact hfirst
  · have hsecond := hfirst.compact (hwf.attempt tr hmiss).wf
    cases cfg.host.relocatable with
    | true =>
      simp only [if_true]
      split
      · exact hsecond.of_eq (attempt_patches tr pc context _)
      · exact hsecond.of_eq ((translateOnce_patches tr pc context _).trans (attempt_patches tr pc context _))
    | false =>
      simp only [Bool.false_eq_true, if_false, Option.isSome_none, Bool.true_eq_false, or_self]
      exact hfirst.of_eq (translateOnce_patches tr pc context _)

/-! ## Soundness of the exits -/

theorem Wf.exitsSound (h : t.Wf cfg Eq) : t.ExitsSound cfg := by
  intro a ha hlive l hl hlk
  obtain ⟨i, ha⟩ := List.mem_iff_getElem?.1 ha
  obtain ⟨j, b, hb, hchain, hpc, hctx, htarget⟩ := h.wired.links ha hlive hl hlk
  refine ⟨b, List.mem_of_getElem? hb, htarget, ?_⟩
  cases hb' : b.live with
  | true => exact .inl ⟨rfl, hpc, hctx.symm⟩
  | false => exact .inr ⟨rfl, (h.wired.entries hb hb' hchain).2⟩

theorem lookup_sameButHits (cfg : Config) (t : Table) (pc : Word) (context : BitVec 64) :
    SameButHits t (t.lookup cfg pc context).2 := by
  rcases t.lookup_cases cfg pc context with heq | ⟨i, n, heq⟩ <;> rw [heq]
  · exact ⟨rfl, rfl⟩
  · exact SameButHits.setHits ⟨rfl, rfl⟩ i n

theorem exists_linkStep {i dst : Nat} {a b : Block} (ha : t.blocks[i]? = some a) (hb : t.blocks[dst]? = some b)
    (hcan : cfg.host.canLink = true) (hchain : b.layout.chainable = true)
    (hl : ∃ l ∈ a.layout.link, l.linked = false ∧ l.targetPc = b.guestPc) :
    ∃ k l, LinkStep cfg t i dst a b k l := by
  obtain ⟨l, hl, hlk, hpc⟩ := hl
  cases hf : a.layout.link.findIdx? (fun l => !l.linked && l.targetPc == b.guestPc) with
  | none =>
    have := List.findIdx?_eq_none_iff.1 hf l hl
    simp [hlk, hpc] at this
  | some k =>
    obtain ⟨hk, -⟩ := List.findIdx?_eq_some_iff_getElem.1 hf
    exact ⟨k, _, ha, hb, hcan, hchain, hf, List.getElem?_eq_getElem hk⟩

/-- Linking is sound exactly if the source is live and in the target's context. -/
theorem LinkStep.sound_iff {i dst k : Nat} {a b : Block} {l : Slot} (hs : LinkStep cfg t i dst a b k l)
    (h : t.Wf cfg Eq) (hp : t.PatchesLive) (hlive : b.live = true) :
    ((t.linkExit cfg (some i) dst).ExitsSound cfg ∧ (t.linkExit cfg (some i) dst).PatchesLive) ↔
      a.live = true ∧ a.context = b.context := by
  constructor
  · rintro ⟨hexits, hpatches⟩
    have ha : a.live = true := by
      -- the call just made is in the record
      have := hpatches ⟨a.codePtr, l.site, b.entry⟩ (by rw [hs.linkExit_eq]; simp [patch])
      cases ha : a.live with
      | true => rfl
      | false => simp [Block.codePtr, ha] at this
    refine ⟨ha, ?_⟩
    have hi := (List.getElem?_eq_some_iff.1 hs.src).1
    have hsrc : (t.linkExit cfg (some i) dst).blocks[i]? = some (a.linked k) := by
      rw [hs.linkExit_eq, List.getElem?_set_self hi]
    have hslot : { l with linked := true } ∈ (a.linked k).layout.link := by
      refine List.mem_of_getElem? (i := k) ?_
      simp only [Block.linked, List.getElem?_modify_eq, hs.slot]
      rfl
    obtain ⟨c, hc, htarget, hc'⟩ := hexits (a.linked k) (List.mem_of_getElem? hsrc) ha _ hslot rfl
    obtain ⟨j, hc⟩ := List.mem_iff_getElem?.1 hc
    -- the exit leads to the entry of `b`, which is no other block's
    have hface := map_face_linkExit cfg t (some i) dst
    obtain ⟨c₀, hc₀, hbare, hl⟩ := exists_face hface hc
    have hentry : b.entry = c₀.entry :=
      (hs.linkTarget_eq h.toCore ha).symm.trans (htarget.trans (Block.alike hbare).entry)
    obtain rfl := h.placed.entry_inj hs.dst hc₀ hentry
    obtain rfl := Option.some.inj (hs.dst.symm.trans hc₀)
    rcases hc' with ⟨-, -, hctx⟩ | ⟨hdead, -⟩
    · exact hctx.symm.trans (Block.alike hbare).context
    · exact absurd (hdead.symm.trans (hl.trans hlive)) (by simp)
  · rintro ⟨ha, hctx⟩
    constructor
    · refine (h.linkExit ?_).exitsSound
      rintro i' a' b' k' l' ⟨⟩ hs' -
      rw [← Option.some.inj (hs.src.symm.trans hs'.src), ← Option.some.inj (hs.dst.symm.trans hs'.dst), hctx]
    · rw [hs.linkExit_eq]
      intro p hp'
      rcases List.mem_append.1 hp' with hp' | hp'
      · exact hp p hp'
      · obtain rfl := List.mem_singleton.1 hp'
        simp [Block.codePtr, ha]

end Table

/-! ## Runs of the dispatcher -/

/-- The invariant of the runs that link nothing unsafe. A dangling `prev` is left only by a flush, and
then there is no block to link it to. -/
structure Machine.Ok (cfg : Config) (m : Machine) : Prop where
  wf : m.table.Wf cfg Eq
  patches : m.table.PatchesLive
  prev : ∀ {i : Nat}, m.prev = some i → m.table.blocks = [] ∨ i < m.table.blocks.length

/-- What is asked of every state. -/
def Machine.Sound (cfg : Config) (m : Machine) : Prop := m.table.ExitsSound cfg ∧ m.table.PatchesLive

namespace Machine

variable {cfg : Config} {m : Machine} {t : Turn cfg} {table : Table} {j : Nat}

theorem Ok.sound (h : m.Ok cfg) : m.Sound cfg := ⟨h.wf.exitsSound, h.patches⟩

/-- `LinkSafe` says of the table before the lookup what linking asks of the table after it. -/
theorem linkSafe_iff (h : m.table.Wf cfg Eq) (hl : m.table.lookup cfg t.pc t.context = (some j, table)) :
    t.LinkSafe m ↔ ∀ i a b k l, m.prev = some i → Table.LinkStep cfg table i j a b k l →
      a.live = true ∧ a.context = b.context := by
  have hsame : Table.SameButHits m.table table := by
    have := Table.lookup_sameButHits cfg m.table t.pc t.context
    rwa [hl] at this
  obtain ⟨b₀, hb₀, hlive, hpc, hctx⟩ := (h.lookupExact t.pc t.context).1 j |>.1 (by rw [hl])
  constructor
  · intro hsafe i a b k l hprev hs
    obtain ⟨a₀, ha₀, ha⟩ := hsame.exists_cool hs.src
    obtain ⟨b₁, hb₁, hb⟩ := hsame.exists_cool hs.dst
    obtain rfl := Option.some.inj (hb₀.symm.trans hb₁)
    have hbpc : b.guestPc = t.pc := (congrArg Block.guestPc hb :).trans hpc
    have hbctx : b.context = t.context := (congrArg Block.context hb :).trans hctx
    have hlay : a.layout = a₀.layout := (congrArg Block.layout ha :)
    obtain ⟨halive, hactx⟩ := hsafe hs.canLink i hprev a₀ ha₀ b₀ (List.mem_of_getElem? hb₀)
      ⟨hlive, hpc, hctx, (congrArg (·.layout.chainable) hb :).symm.trans hs.chainable⟩
      ⟨l, hlay ▸ List.mem_of_getElem? hs.slot, hs.linked_eq, hs.targetPc_eq.trans hbpc⟩
    exact ⟨(congrArg Block.live ha :).trans halive,
      (congrArg Block.context ha :).trans (hactx.trans hbctx.symm)⟩
  · intro hsteps hcan i hprev a ha b hb ⟨hblive, hbpc, hbctx, hchain⟩ hl'
    obtain ⟨j', hb⟩ := List.mem_iff_getElem?.1 hb
    have hj : (m.table.lookup cfg t.pc t.context).1 = some j' :=
      (h.lookupExact t.pc t.context).1 j' |>.2 ⟨b, hb, hblive, hbpc, hbctx⟩
    rw [hl] at hj
    obtain rfl := Option.some.inj hj
    obtain ⟨a₁, ha₁, hacool⟩ := hsame.symm.exists_cool ha
    obtain ⟨b₁, hb₁, hbcool⟩ := hsame.symm.exists_cool hb
    replace hacool := hacool.symm
    replace hbcool := hbcool.symm
    have hlay : a₁.layout = a.layout := (congrArg Block.layout hacool :)
    have hb₁pc : b₁.guestPc = t.pc := (congrArg Block.guestPc hbcool :).trans hbpc
    obtain ⟨k, l, hs⟩ := Table.exists_linkStep ha₁ hb₁ hcan ((congrArg (·.layout.chainable) hbcool :).trans hchain)
      (by rwa [hlay, hb₁pc])
    obtain ⟨halive, hactx⟩ := hsteps i a₁ b₁ k l hprev hs
    exact ⟨(congrArg Block.live hacool :).symm.trans halive,
      (congrArg Block.context hacool :).symm.trans (hactx.trans ((congrArg Block.context hbcool :).trans hbctx))⟩

/-- The links of a lookup's hit keep the invariant if they are safe. -/
theorem Ok.linkExit (h : m.Ok cfg) (hl : m.table.lookup cfg t.pc t.context = (some j, table))
    (hsafe : t.LinkSafe m) :
    (table.linkExit cfg m.prev j).Wf cfg Eq ∧ (table.linkExit cfg m.prev j).PatchesLive := by
  have hsteps := (linkSafe_iff h.wf hl).1 hsafe
  obtain rfl : (m.table.lookup cfg t.pc t.context).2 = table := by rw [hl]
  have hpatches := h.patches.of_eq (Table.lookup_patches cfg m.table t.pc t.context)
  constructor
  · exact h.wf.lookup.linkExit fun i a b k l hprev hs _ => (hsteps i a b k l hprev hs).2
  · rcases Table.linkExit_cases cfg (m.table.lookup cfg t.pc t.context).2 m.prev j with heq | ⟨i, a, b, k, l, hprev, hs⟩
    · rwa [heq]
    · rw [hprev, hs.linkExit_eq]
      intro p hp
      rcases List.mem_append.1 hp with hp | hp
      · exact hpatches p hp
      · obtain rfl := List.mem_singleton.1 hp
        simp [Block.codePtr, (hsteps i a b k l hprev hs).1]

/-- A pc without a block is no reason for a link. -/
theorem Ok.miss (h : m.Ok cfg) (hmiss : m.table.Misses t.pc t.context) : (m.miss cfg t).Ok cfg := by
  have hseen {s : Seen} (hs : s.Ok) : { m with table := { m.table with seen := s }, prev := none }.Ok cfg :=
    ⟨h.wf.setSeen hs, h.patches, by simp⟩
  simp only [Machine.miss]
  split
  · exact hseen h.wf.seen
  · split
    · exact hseen h.wf.seen.thrashTick
    · split
      · have hs : (m.table.seen.heatBump cfg.tuning t.pc t.context).2.Ok := h.wf.seen.heatBump
        have hheat := h.wf.setSeen hs
        have hok := hheat.translate t.translator hmiss
        refine ⟨hok.wf, Table.PatchesLive.translate t.translator ?_ hheat hmiss, ?_⟩
        · exact h.patches
        · intro i hi
          obtain ⟨b, hb, -⟩ := hok.found hi
          exact .inr (List.getElem?_eq_some_iff.1 hb).1
      · exact hseen h.wf.seen.heatBump

theorem Ok.checkGeneration (h : m.Ok cfg) (gen : Option Word) : (m.checkGeneration gen).Ok cfg := by
  unfold Machine.checkGeneration
  split
  · exact h
  · split
    · exact ⟨h.wf, h.patches, h.prev⟩
    · exact ⟨Table.wf_flush h.wf.seen, h.patches, by simp⟩

/-- A pass that comes to the lookup with the block it ran before finds the table as it was. -/
theorem checkGeneration_of_dispatches (hd : t.Dispatches m) :
    (m.checkGeneration t.gen).table = m.table ∧ (m.checkGeneration t.gen).prev = m.prev := by
  obtain ⟨-, -, -, hgen⟩ := hd
  unfold Machine.checkGeneration
  cases hg : t.gen with
  | none => exact ⟨rfl, rfl⟩
  | some g =>
    rw [hg] at hgen
    have : m.generation = none ∨ m.generation = some g := by simpa using hgen
    simp only [this, if_true, and_self]

/-- After the check either the pass is as `Dispatches` says or `prev` is `NULL`. -/
theorem linkSafe_checkGeneration (hrun : t.running = true) (hirq : t.irq = false) (hblocked : t.blocked = false)
    (hsafe : t.Dispatches m → t.LinkSafe m) : t.LinkSafe (m.checkGeneration t.gen) := by
  by_cases hd : t.Dispatches m
  · obtain ⟨htable, hprev⟩ := checkGeneration_of_dispatches hd
    unfold Turn.LinkSafe
    rw [htable, hprev]
    exact hsafe hd
  · have hnone : (m.checkGeneration t.gen).prev = none := by
      unfold Machine.checkGeneration
      cases hg : t.gen with
      | none => exact absurd ⟨hrun, hirq, hblocked, .inl hg⟩ hd
      | some g =>
        have : ¬ (m.generation = none ∨ m.generation = some g) := fun hgen =>
          hd ⟨hrun, hirq, hblocked, .inr (hg ▸ hgen)⟩
        simp only [this, if_false]
    intro _ i hprev
    rw [hnone] at hprev
    cases hprev

theorem Ok.dispatch (h : m.Ok cfg) (hsafe : t.LinkSafe m) : (m.dispatch cfg t).Ok cfg := by
  unfold Machine.dispatch
  split
  next i table hl =>
    obtain ⟨hwf, hpatches⟩ := h.linkExit hl hsafe
    refine ⟨hwf, hpatches, ?_⟩
    rintro i' ⟨⟩
    obtain ⟨b, hb, -⟩ := (h.wf.lookupExact t.pc t.context).1 i |>.1 (by rw [hl])
    have hlookup := congrArg List.length (Table.lookup_sameButHits cfg m.table t.pc t.context).blocks
    have hlink := congrArg List.length (Table.map_face_linkExit cfg table m.prev i)
    rw [hl] at hlookup
    rw [List.length_map, List.length_map] at hlookup hlink
    dsimp only at hlookup ⊢
    rw [hlink, hlookup]
    exact .inr (List.getElem?_eq_some_iff.1 hb).1
  next table hl =>
    have hnone : (m.table.lookup cfg t.pc t.context).1 = none := by rw [hl]
    obtain ⟨-, rfl⟩ := Prod.mk.inj (hl.symm.trans (Table.lookup_of_miss hnone))
    exact h.miss (h.wf.misses hnone)

theorem Ok.pass (h : m.Ok cfg) (hsafe : t.Dispatches m → t.LinkSafe m) : (m.pass cfg t).Ok cfg := by
  have hforget {m : Machine} (h : m.Ok cfg) : { m with prev := none }.Ok cfg := ⟨h.wf, h.patches, by simp⟩
  unfold Machine.pass
  split
  · exact hforget h
  · split
    · exact h
    · have hgen := h.checkGeneration t.gen
      dsimp only
      split
      · exact hforget hgen
      · apply hgen.dispatch
        apply linkSafe_checkGeneration <;> simp_all

/-- Retiring the blocks of some pages leaves `prev` where it was, or no block at all. -/
theorem Ok.retirePages (h : m.Ok cfg) (lo hi : Nat) {i : Nat} (hi' : m.prev = some i) :
    (m.table.retirePages cfg lo hi).blocks = [] ∨ i < (m.table.retirePages cfg lo hi).blocks.length := by
  obtain ⟨-, hkept, -⟩ := h.wf.retirePages lo hi
  rcases hkept with hnil | hshrinks
  · exact .inl hnil
  · rw [hshrinks.length, ← List.length_eq_zero_iff, hshrinks.length, List.length_eq_zero_iff]
    exact h.prev hi'

theorem invalidateRange_blocks (cfg : Config) (t : Table) (lo hi : Word) :
    (t.invalidateRange cfg lo hi).blocks = t.blocks ∨
      (t.invalidateRange cfg lo hi).blocks =
        (t.retirePages cfg (lo.toNat >>> pageShift) (hi.toNat >>> pageShift)).blocks := by
  simp only [Table.invalidateRange]
  split
  · exact .inl rfl
  · split <;> exact .inr rfl

/-- One step. -/
theorem Ok.apply (h : m.Ok cfg) (e : Event cfg) (he : e.LinkOk m) : (e.apply m).Ok cfg := by
  cases e with
  | enter =>
    refine ⟨?_, ?_, by simp [Event.apply, Machine.enter]⟩ <;> simp only [Event.apply, Machine.enter] <;> split
    · exact h.wf.unlinkAll
    · exact h.wf
    · exact h.patches.unlinkAll
    · exact h.patches
  | pass t => exact h.pass he
  | invalidatePage vaddr =>
    exact ⟨h.wf.invalidatePage vaddr, h.patches.of_eq (Table.retirePages_patches ..), h.retirePages _ _⟩
  | invalidateRange lo hi =>
    refine ⟨h.wf.invalidateRange lo hi, h.patches.of_eq (Table.invalidateRange_patches ..), ?_⟩
    intro i hi'
    simp only [Event.apply]
    rcases invalidateRange_blocks cfg m.table lo hi with heq | heq <;> rw [heq]
    · exact h.prev hi'
    · exact h.retirePages _ _ hi'
  | flush => exact ⟨Table.wf_flush h.wf.seen, h.patches, fun _ => .inl rfl⟩
  | unchain => exact ⟨h.wf, h.patches, h.prev⟩

/-- Only the links of a hit can go wrong, and they do exactly if they are not safe. -/
theorem Ok.sound_apply_iff (h : m.Ok cfg) (e : Event cfg) : (e.apply m).Sound cfg ↔ e.LinkOk m := by
  refine ⟨?_, fun he => (h.apply e he).sound⟩
  cases e with
  | pass t =>
    rintro ⟨hexits, hpatches⟩ hd
    obtain ⟨htable, hprev⟩ := checkGeneration_of_dispatches hd
    obtain ⟨hrun, hirq, hblocked, -⟩ := hd
    simp only [Event.apply, Machine.pass, hrun, hirq, hblocked, Bool.true_eq_false, Bool.false_eq_true, if_false,
      Machine.dispatch, htable, hprev] at hexits hpatches
    cases hl : m.table.lookup cfg t.pc t.context with
    | mk found table =>
      cases found with
      | none =>
        have hnone : (m.table.lookup cfg t.pc t.context).1 = none := by rw [hl]
        rintro - i - a - b hb ⟨hlive, hpc, hctx, -⟩
        obtain ⟨j, hb⟩ := List.mem_iff_getElem?.1 hb
        exact absurd hctx (h.wf.misses hnone j b hb hlive hpc)
      | some j =>
        simp only [hl] at hexits hpatches
        obtain rfl : (m.table.lookup cfg t.pc t.context).2 = table := by rw [hl]
        refine (linkSafe_iff h.wf hl).2 fun i a b k l hprev' hs => ?_
        rw [hprev'] at hexits hpatches
        obtain ⟨b₀, hb₀, hlive₀, -⟩ := (h.wf.lookupExact t.pc t.context).1 j |>.1 (by rw [hl])
        obtain ⟨b₁, hb₁, hcool⟩ := (Table.lookup_sameButHits cfg m.table t.pc t.context).exists_cool hs.dst
        obtain rfl := Option.some.inj (hb₀.symm.trans hb₁)
        refine (hs.sound_iff h.wf.lookup ?_ ((congrArg Block.live hcool :).trans hlive₀)).1 ⟨hexits, hpatches⟩
        exact h.patches.of_eq (Table.lookup_patches cfg m.table t.pc t.context)
  | _ => exact fun _ => trivial

/-- The states of the runs in which every step meets `LinkOk`. -/
inductive Run (cfg : Config) : Machine → Prop
  | init (mem : Mem) : Run cfg (init mem)
  | step {m : Machine} (e : Event cfg) : Run cfg m → e.LinkOk m → Run cfg (e.apply m)

theorem Run.ok (h : Run cfg m) : m.Ok cfg := by
  induction h with
  | init mem => exact ⟨Table.wf_init cfg _ mem, by simp [Machine.init, Table.init, Table.PatchesLive],
      by simp [Machine.init]⟩
  | step e _ he ih => exact ih.apply e he

/-- In every state of a run whose links were all made from a live block to one in its own context, the
linked exits lead where they should and `patch_link` was called for live blocks only; and the next step
keeps that exactly if it links safely too. -/
theorem run_sound (h : Run cfg m) : m.Sound cfg ∧ ∀ e : Event cfg, (e.apply m).Sound cfg ↔ e.LinkOk m :=
  ⟨h.ok.sound, h.ok.sound_apply_iff⟩

/-- A pass of a running guest that no interrupt or guard stops. -/
def turn (pc : Word) (context : BitVec 64) (target : Word) : Turn Table.smallConfig :=
  ⟨true, false, none, false, pc, context, Table.jumpTo target⟩

/-- The state after some steps from a fresh cache. -/
def after (es : List (Event Table.smallConfig)) : Machine := es.foldl Event.apply (init fun _ => 0)

/-- Two blocks that jump to each other; the second pass at the first links the second to it. -/
def linkedPair : List (Event Table.smallConfig) :=
  [.enter, .pass (turn 0x1000 0 0x2000), .pass (turn 0x2000 0 0x1000), .pass (turn 0x1000 0 0x2000)]

theorem run_linkedPair : Run Table.smallConfig (after linkedPair) := by
  refine .step (m := after (linkedPair.take 3)) (.pass (turn 0x1000 0 0x2000)) ?_ (fun _ => by decide)
  refine .step (m := after (linkedPair.take 2)) (.pass (turn 0x2000 0 0x1000)) ?_ (fun _ => by decide)
  refine .step (m := after (linkedPair.take 1)) (.pass (turn 0x1000 0 0x2000)) ?_ (fun _ => by decide)
  exact .step .enter (.init _) trivial

theorem run_sound_linkedPair :
    (after linkedPair).table.patches.length = 1 ∧ (after linkedPair).Sound Table.smallConfig ∧
      ∀ e : Event Table.smallConfig, (e.apply (after linkedPair)).Sound Table.smallConfig ↔ e.LinkOk (after linkedPair) :=
  ⟨by decide, run_sound run_linkedPair⟩

/-- A handler at `0x2000` in machine mode, then a block in user mode that ends in a jump to `0x2000` of
its own address space. An interrupt is delivered where the block ends. -/
def interrupted : List (Event Table.smallConfig) :=
  [.enter, .pass (turn 0x2000 3 0x1000), .pass (turn 0x1000 0 0x2000),
    .pass { turn 0x1000 0 0x2000 with irq := true }, .pass (turn 0x2000 3 0x1000)]

/-- A block that invalidates its own page and goes on to one that is there. -/
def selfInvalidated : List (Event Table.smallConfig) :=
  [.enter, .pass (turn 0x2000 0 0x1000), .pass (turn 0x1000 0 0x2000), .invalidatePage 0x1000,
    .pass (turn 0x2000 0 0x1000)]

/-- The user's exit is aimed at the machine-mode handler, and `patch_link` is called for a retired block. -/
theorem linkExit_unsafe :
    ¬ (after interrupted).table.ExitsSound Table.smallConfig ∧ ¬ (after selfInvalidated).table.PatchesLive := by
  decide

end Machine

end Emu.Jit
