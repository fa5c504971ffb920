-- SUMMARY: The tables the block cache can reach, what lookup, the chains and the code ranges are in them, and invalidation.
import Emu.Jit.Compact

/-!
# Reachable tables

Any sequence of the table's operations, from the empty table of `emu_jit_init`. Only translation has a
precondition: the dispatcher asks for it when a lookup has found nothing. A single attempt is an
operation too, so that the table `compact` is called on inside `translate` is one of these.
-/

namespace Emu.Jit

open Emu.Chain

namespace Table

/-- The table after `emu_jit_init`: nothing translated, over whatever the buffer holds. -/
def init (m : Mem) : Table :=
  { blocks := [], hash := fun _ => none, phash := fun _ => none, maxSpan := 0, used := 0, mem := m,
    seen := Seen.init.invalidate, patches := [] }

/-- The operations on the table. -/
inductive Op (cfg : Config) where
  | lookup (pc : Word) (context : BitVec 64)
  | translate (tr : Translator cfg.host cfg.size) (pc : Word) (context : BitVec 64)
  | attempt (tr : Translator cfg.host cfg.size) (pc : Word) (context : BitVec 64)
  | invalidatePage (vaddr : Word)
  | invalidateRange (lo hi : Word)
  | flush
  | compact
  | linkExit (src : Option Nat) (dst : Nat)
  | unlinkAll
  | heatBump (pc : Word) (context : BitVec 64)
  | thrashTick

namespace Op

variable {cfg : Config}

/-- What the operation leaves. -/
def apply (t : Table) : Op cfg → Table
  | .lookup pc context => (t.lookup cfg pc context).2
  | .translate tr pc context => (t.translate cfg tr pc context).2
  | .attempt tr pc context => (t.attempt cfg tr pc context).table
  | .invalidatePage vaddr => t.invalidatePage cfg vaddr
  | .invalidateRange lo hi => t.invalidateRange cfg lo hi
  | .flush => t.flush
  | .compact => t.compact cfg
  | .linkExit src dst => t.linkExit cfg src dst
  | .unlinkAll => t.unlinkAll cfg
  | .heatBump pc context => { t with seen := (t.seen.heatBump cfg.tuning pc context).2 }
  | .thrashTick => { t with seen := t.seen.thrashTick cfg.tuning }

/-- A pc is translated when a lookup has missed. -/
def Allowed (t : Table) : Op cfg → Prop
  | .translate _ pc context => (t.lookup cfg pc context).1 = none
  | .attempt _ pc context => (t.lookup cfg pc context).1 = none
  | _ => True

end Op

/-- The tables some sequence of operations leads to. -/
inductive Reachable (cfg : Config) : Table → Prop
  | init (m : Mem) : Reachable cfg (init m)
  | step {t : Table} (op : Op cfg) : Reachable cfg t → op.Allowed t → Reachable cfg (op.apply t)

variable {cfg : Config} {P : BitVec 64 → BitVec 64 → Prop} {t t' : Table} {i : Nat} {b : Block}

/-! ## The invariant holds -/

theorem wf_init (cfg : Config) (P : BitVec 64 → BitVec 64 → Prop) (m : Mem) : (init m).Wf cfg P where
  placed := .nil cfg
  wired := .nil cfg P m
  hashed := ⟨fun _ => ⟨[], .nil rfl, by simp [LiveIn, init]⟩, by simp [init]⟩
  seen := Seen.init_ok.invalidate
  count := Nat.zero_le _
  paged := ⟨fun _ => ⟨[], .nil rfl, by simp [LiveIn, init]⟩, by simp [init]⟩

theorem Wf.setSeen {seen : Seen} (h : t.Wf cfg P) (hs : seen.Ok) : { t with seen := seen }.Wf cfg P :=
  ⟨⟨h.placed, h.wired, h.hashed, hs, h.count⟩, h.paged⟩

theorem Wf.invalidatePage (h : t.Wf cfg P) (vaddr : Word) : (t.invalidatePage cfg vaddr).Wf cfg P :=
  (h.retirePages _ _).1

theorem Wf.invalidateRange (h : t.Wf cfg P) (lo hi : Word) : (t.invalidateRange cfg lo hi).Wf cfg P := by
  have hr := (h.retirePages (lo.toNat >>> pageShift) (hi.toNat >>> pageShift)).1
  simp only [Table.invalidateRange]
  split
  · exact h
  · split
    · exact hr.setSeen hr.seen.invalidate
    · exact hr.setSeen hr.seen.forgetRange

theorem Wf.misses {pc : Word} {context : BitVec 64} (h : t.Wf cfg P) (hmiss : (t.lookup cfg pc context).1 = none) :
    t.Misses pc context := by
  rw [lookup_fst] at hmiss
  exact h.findBlock_eq_none.1 hmiss

/-- One operation. Linking asks for nothing when every two contexts may be linked. -/
theorem Wf.apply {op : Op cfg} (h : t.Wf cfg fun _ _ => True) (hop : op.Allowed t) :
    (op.apply t).Wf cfg fun _ _ => True := by
  cases op with
  | lookup pc context => exact h.lookup
  | translate tr pc context =>
    exact (h.translate tr (h.misses hop)).wf
  | attempt tr pc context =>
    exact (h.attempt tr (h.misses hop)).wf
  | invalidatePage vaddr => exact h.invalidatePage vaddr
  | invalidateRange lo hi => exact h.invalidateRange lo hi
  | flush => exact wf_flush h.seen
  | compact => exact h.compact
  | linkExit src dst => exact h.linkExit fun _ _ _ _ _ _ _ _ => trivial
  | unlinkAll => exact h.unlinkAll
  | heatBump pc context => exact h.setSeen h.seen.heatBump
  | thrashTick => exact h.setSeen h.seen.thrashTick

theorem Reachable.wf (h : Reachable cfg t) : t.Wf cfg fun _ _ => True := by
  induction h with
  | init m => exact wf_init cfg _ m
  | step op _ hop ih => exact ih.apply hop

/-! ## Lookup, chains and ranges -/

/-- `lookup` answers with the one live block for the pc and context, and with nothing when there is
none. -/
def LookupExact (cfg : Config) (t : Table) : Prop :=
  ∀ (pc : Word) (context : BitVec 64),
    (∀ i, (t.lookup cfg pc context).1 = some i ↔
      ∃ b, t.blocks[i]? = some b ∧ b.live = true ∧ b.guestPc = pc ∧ b.context = context) ∧
    ((t.lookup cfg pc context).1 = none ↔
      ∀ (i : Nat) (b : Block), t.blocks[i]? = some b → b.live = true → ¬ (b.guestPc = pc ∧ b.context = context))

/-- Each live block is on its own bucket's chain, which ends and visits no block twice, and on no other;
`key` gives a block's bucket. -/
def Threaded {β : Type*} (links : Links β) (key : Block → β) (t : Table) : Prop :=
  ∀ (i : Nat) (b : Block), t.blocks[i]? = some b → b.live = true →
    (∃ l, IsChain links (.head (key b)) l ∧ l.Nodup ∧ i ∈ l) ∧
      ∀ k l, IsChain links (.head k) l → i ∈ l → k = key b

/-- The code of the live blocks is apart, in table order, in the used part of the buffer. -/
def RangesOk (cfg : Config) (t : Table) : Prop :=
  (∀ (i j : Nat) (a b : Block), i < j → t.blocks[i]? = some a → t.blocks[j]? = some b → a.live = true →
    b.live = true → a.code + a.len ≤ b.code) ∧
  (∀ (i : Nat) (b : Block), t.blocks[i]? = some b → b.live = true → b.code + b.len ≤ t.used) ∧ t.used ≤ cfg.size

/-- Every block `compact` keeps is a live block of the table with the same identity, and has the bytes it
had once its linked exits pointed back at its tail. -/
def CompactKeepsBytes (cfg : Config) (t : Table) : Prop :=
  ∀ (i : Nat) (c : Block), (t.compact cfg).blocks[i]? = some c →
    ∃ (j : Nat) (b : Block), t.blocks[j]? = some b ∧ b.live = true ∧ c.guestPc = b.guestPc ∧
      c.context = b.context ∧ c.len = b.len ∧
        ∀ k < b.len, (t.compact cfg).mem (c.code + k) = (t.unlinkAll cfg).mem (b.code + k)

theorem Wf.lookupExact (h : t.Wf cfg P) : t.LookupExact cfg := by
  intro pc context
  rw [lookup_fst]
  refine ⟨fun i => h.findBlock_eq_some, h.findBlock_eq_none.trans ?_⟩
  constructor
  · rintro hmiss i b hb hlive ⟨hpc, hctx⟩
    exact hmiss i b hb hlive hpc hctx
  · intro hnone i b hb hlive hpc hctx
    exact hnone i b hb hlive ⟨hpc, hctx⟩

theorem threaded_of_represents {β : Type*} {links : Links β} {key : Block → β}
    (h : Represents links (LiveIn t.blocks key)) : Threaded links key t := by
  intro i b hb hlive
  have hin : LiveIn t.blocks key (key b) i := ⟨b, hb, hlive, rfl⟩
  constructor
  · obtain ⟨l, hl, hmem⟩ := h (key b)
    exact ⟨l, hl, hl.nodup, (hmem i).2 hin⟩
  · intro k l hl hi
    obtain ⟨l', hl', hmem⟩ := h k
    obtain rfl := hl.unique hl'
    exact ((hmem i).1 hi).key_unique hin

theorem Wf.rangesOk (h : t.Wf cfg P) : t.RangesOk cfg :=
  ⟨fun _ _ _ _ hij ha hb _ _ => h.placed.ranges hij ha hb, fun _ _ hb _ => h.placed.inside hb, h.placed.used_le⟩

theorem Wf.compactKeepsBytes (h : t.Wf cfg P) : t.CompactKeepsBytes cfg := by
  intro i c hc
  obtain ⟨j, b, hb, hlive, hbare, hbytes⟩ := h.compact_bytes hc
  exact ⟨j, b, hb, hlive, (congrArg Block.guestPc hbare :), (congrArg Block.context hbare :),
    (congrArg Block.len hbare :), hbytes⟩

/-- In every reachable table lookup is exact, every live block is on one acyclic hash chain and one page
chain, the code ranges are in order, and compaction keeps the survivors' bytes. -/
theorem reachable_sound (h : Reachable cfg t) :
    t.LookupExact cfg ∧ Threaded t.hash cfg.bucket t ∧ Threaded t.phash (fun b => cfg.pageBucket b.pageLo) t ∧
      t.RangesOk cfg ∧ t.CompactKeepsBytes cfg :=
  ⟨h.wf.lookupExact, threaded_of_represents h.wf.hashed.chains, threaded_of_represents h.wf.paged.chains,
    h.wf.rangesOk, h.wf.compactKeepsBytes⟩

/-- A cache of four blocks over a page of x86-64 code. -/
def smallConfig : Config where
  host := X86.host
  tuning := ⟨1, 4, 4, 65536, true, by decide, by decide⟩
  base := 0
  size := 4096
  maxBlocks := 4
  hashSize := 16
  pageHashSize := 4
  reserve := 64
  base_aligned := by decide
  size_le := by decide
  size_lt := by decide
  reserve_ge := by decide
  maxBlocks_pos := by decide

/-- A block of one instruction that ends in a chained exit to `target`. -/
def jumpTo (target : Word) : Translator smallConfig.host smallConfig.size :=
  stub 1 16 ⟨0, 9, [⟨target, 5, false⟩], true⟩ (by decide)
    ⟨by simp, by simp, by simp [smallConfig, X86.host], by simp⟩ (by simp)

/-- The table with the block at `0x1000`, which jumps to `0x2000`. -/
def oneBlock : Table := (Op.translate (jumpTo 0x2000) 0x1000 0).apply (init fun _ => 0)

theorem reachable_oneBlock : Reachable smallConfig oneBlock := .step _ (.init _) rfl

theorem reachable_sound_oneBlock :
    oneBlock.blocks.map (·.guestPc) = [0x1000] ∧ oneBlock.LookupExact smallConfig ∧
      Threaded oneBlock.hash smallConfig.bucket oneBlock ∧
      Threaded oneBlock.phash (fun b => smallConfig.pageBucket b.pageLo) oneBlock ∧
      oneBlock.RangesOk smallConfig ∧ oneBlock.CompactKeepsBytes smallConfig :=
  ⟨rfl, reachable_sound reachable_oneBlock⟩

/-! ## Invalidation -/

/-- What invalidating the pages from `lo` to `hi` leaves of a table: no live block touches them; a retired
block that can be chained into is a jump to its own tail at its chain entry, and that or the entry of a
live block is where every linked exit of a live block leads; and unless everything was discarded, a live
block that touches none of the pages is unchanged and found. -/
structure Invalidated (cfg : Config) (lo hi : Nat) (t t' : Table) : Prop where
  gone : ∀ (i : Nat) (b : Block), t'.blocks[i]? = some b → b.live = true → ¬ b.Touches lo hi
  entries : ∀ (i : Nat) (b : Block), t'.blocks[i]? = some b → b.live = false → b.layout.chainable = true →
    cfg.host.jumpTarget t'.mem b.entry = some b.exitTail
  exits : ∀ (i : Nat) (a : Block), t'.blocks[i]? = some a → a.live = true → ∀ l ∈ a.layout.link, l.linked = true →
    ∃ (j : Nat) (b : Block), t'.blocks[j]? = some b ∧ cfg.host.linkTarget t'.mem (a.code + l.site) = b.entry ∧
      (b.live = true ∨ cfg.host.jumpTarget t'.mem b.entry = some b.exitTail)
  kept : t'.blocks = [] ∨ ∀ (i : Nat) (b : Block), t.blocks[i]? = some b → b.live = true → ¬ b.Touches lo hi →
    t'.blocks[i]? = some b ∧ (t'.lookup cfg b.guestPc b.context).1 = some i

theorem Wf.invalidated {lo hi : Nat} (h : t.Wf cfg P) (hle : lo ≤ hi) :
    Invalidated cfg lo hi t (t.retirePages cfg lo hi) := by
  obtain ⟨hwf, hkept, hgone⟩ := h.retirePages lo hi
  refine ⟨?_, fun i b hb hdead hc => (hwf.wired.entries hb hdead hc).2, ?_, hkept.imp id ?_⟩
  · intro i b hb hlive
    rw [Block.touches_iff_reaches (hwf.placed.insns_pos hb) hle]
    exact hgone i b hb hlive
  · intro i a ha hlive l hl hlk
    obtain ⟨j, b, hb, hc, -, -, heq⟩ := hwf.wired.links ha hlive hl hlk
    refine ⟨j, b, hb, heq, ?_⟩
    cases hb' : b.live with
    | true => exact .inl rfl
    | false => exact .inr (hwf.wired.entries hb hb' hc).2
  · intro hshrinks i b hb hlive htouch
    rw [Block.touches_iff_reaches (h.placed.insns_pos hb) hle] at htouch
    have hb' : (t.retirePages cfg lo hi).blocks[i]? = some b :=
      (hshrinks.at_eq hb).resolve_right fun hr => htouch hr.2.1
    exact ⟨hb', (hwf.lookupExact b.guestPc b.context).1 i |>.2 ⟨b, hb', hlive, rfl, rfl⟩⟩

/-- The negative cache has no part in what is invalidated. -/
theorem Invalidated.setSeen {lo hi : Nat} {seen : Seen} (h : Invalidated cfg lo hi t t') :
    Invalidated cfg lo hi t { t' with seen := seen } := by
  refine ⟨h.gone, h.entries, h.exits, h.kept.imp id ?_⟩
  intro hk i b hb hlive htouch
  rw [lookup_fst]
  obtain ⟨hb', hfound⟩ := hk i b hb hlive htouch
  rw [lookup_fst] at hfound
  exact ⟨hb', hfound⟩

/-- After `emu_jit_invalidate_range` the pages of the range are invalidated and no pc of it is marked as
declined; after `emu_jit_invalidate_page` the page is invalidated. -/
theorem reachable_invalidate (h : Reachable cfg t) :
    (∀ lo hi : Word, lo ≤ hi →
      Invalidated cfg (lo.toNat >>> pageShift) (hi.toNat >>> pageShift) t (t.invalidateRange cfg lo hi) ∧
        ∀ pc : Word, lo ≤ pc → pc ≤ hi → ∀ context, (t.invalidateRange cfg lo hi).seen.of pc context ≠ seenDeclined) ∧
    ∀ vaddr : Word,
      Invalidated cfg (vaddr.toNat >>> pageShift) (vaddr.toNat >>> pageShift) t (t.invalidatePage cfg vaddr) := by
  refine ⟨?_, fun vaddr => h.wf.invalidated (Nat.le_refl _)⟩
  intro lo hi hle
  have hpages : lo.toNat >>> pageShift ≤ hi.toNat >>> pageShift := by
    rw [Nat.shiftRight_eq_div_pow, Nat.shiftRight_eq_div_pow]
    exact Nat.div_le_div_right hle
  have hinv := h.wf.invalidated hpages
  have hseen := (h.wf.retirePages (lo.toNat >>> pageShift) (hi.toNat >>> pageShift)).1.seen
  have hnot : ¬ hi < lo := by bv_omega
  simp only [Table.invalidateRange, if_neg hnot]
  split
  · refine ⟨hinv.setSeen, fun pc _ _ context => ?_⟩
    rw [hseen.of_invalidate]
    decide
  · refine ⟨hinv.setSeen, fun pc hlo hhi context => ?_⟩
    rw [hseen.of_forgetRange hlo hhi]
    decide

theorem reachable_invalidate_oneBlock :
    (oneBlock.invalidatePage smallConfig 0x1000).blocks.map (·.live) = [false] ∧
      ((∀ lo hi : Word, lo ≤ hi →
        Invalidated smallConfig (lo.toNat >>> pageShift) (hi.toNat >>> pageShift) oneBlock
            (oneBlock.invalidateRange smallConfig lo hi) ∧
          ∀ pc : Word, lo ≤ pc → pc ≤ hi → ∀ context,
            (oneBlock.invalidateRange smallConfig lo hi).seen.of pc context ≠ seenDeclined) ∧
      ∀ vaddr : Word, Invalidated smallConfig (vaddr.toNat >>> pageShift) (vaddr.toNat >>> pageShift) oneBlock
        (oneBlock.invalidatePage smallConfig vaddr)) :=
  ⟨by decide, reachable_invalidate reachable_oneBlock⟩

/-- A block that cannot be chained into, or with no instruction, a pc the translator declines. -/
def plain (insns : Nat) (h : insns < 2 ^ 16) : Translator smallConfig.host smallConfig.size :=
  stub insns 16 ⟨0, 9, [], false⟩ h ⟨by simp, by simp, by simp, by simp⟩ (by simp)

def declinedPc : Table := (Op.translate (plain 0 (by decide)) 0x1000 0).apply (init fun _ => 0)

def plainBlock : Table := (Op.translate (plain 1 (by decide)) 0x1000 0).apply (init fun _ => 0)

/-- `emu_jit_invalidate_page` leaves the mark of a declined pc of the page, and a retired block that
cannot be chained into keeps the code at its entry. -/
theorem invalidatePage_leaves :
    (Reachable smallConfig declinedPc ∧
      (declinedPc.invalidatePage smallConfig 0x1000).seen.of 0x1000 0 = seenDeclined) ∧
    Reachable smallConfig plainBlock ∧
      (plainBlock.invalidatePage smallConfig 0x1000).blocks.map
        (fun b => (b.live, smallConfig.host.jumpTarget (plainBlock.invalidatePage smallConfig 0x1000).mem b.entry)) =
          [(false, none)] :=
  ⟨⟨.step _ (.init _) rfl, by decide⟩, .step _ (.init _) rfl, by decide⟩

end Table

end Emu.Jit
