-- SUMMARY: The block table: hash and page chains, lookup, linking, retirement, translation and compaction.
import Emu.Jit.Host
import Emu.Jit.Seen
import Emu.Lib.Chain

/-!
# The block table

The functions of `emu_jit.c` that keep translated blocks: an append-only array of blocks, chained
into buckets by pc and context and again by the guest page they start on, over a bump-allocated code
buffer. The `next` and `pnext` fields of the blocks live in `hash` and `phash` beside the bucket heads,
and a walk is bounded by the number of blocks. Counters that nothing reads (`g_stats`) and the cache
maintenance hook are left out.
-/

namespace Emu.Jit

open Emu.Chain

/-- `jit_block_t`. A retired block has `code == NULL`, which is `live = false` here: `code` stays, so
that one can speak of the bytes the block had. -/
structure Block where
  context : BitVec 64
  guestPc : Word
  layout : Layout
  live : Bool
  code : Nat
  len : Nat
  insns : Nat
  hits : Nat

/-- A call of `ops->patch_link` with the site of an exit of a block; `source` is the block's `code`
pointer, `none` for `NULL`. -/
structure Patch where
  source : Option Nat
  site : Nat
  target : Nat

/-- The host, the sizes the table is built with, and the code buffer: the callers of `emu_jit_init`
and `emu_jit_set_buffer` pass aligned buffers far below 4 GiB, within reach of the host's jumps. -/
structure Config where
  host : Host
  tuning : Tuning
  base : Nat
  size : Nat
  maxBlocks : Nat
  hashSize : Nat
  pageHashSize : Nat
  reserve : Nat
  base_aligned : base % 4 = 0
  size_le : size ≤ host.reach
  size_lt : size + reserve < 2 ^ 32
  reserve_ge : 3 ≤ reserve
  maxBlocks_pos : 0 < maxBlocks

/-- The table, the code buffer and the negative cache. `patches` records every call of `patch_link`. -/
structure Table where
  blocks : List Block
  hash : Links Word
  phash : Links Nat
  maxSpan : Nat
  used : Nat
  mem : Mem
  seen : Seen
  patches : List Patch

/-- `JIT_PAGE_SHIFT`. -/
def pageShift : Nat := 12

/-- `JIT_PAGE_WALK_MAX`. -/
def pageWalkMax : Nat := 64

namespace Block

/-- `block_page_lo`. -/
def pageLo (b : Block) : Nat := b.guestPc.toNat >>> pageShift

/-- `block_page_hi`. -/
def pageHi (b : Block) : Nat :=
  let span := if b.insns ≠ 0 then b.insns * 4 - 1 else 0
  let stop := b.guestPc.toNat + span
  if 0xFFFFFFFF < stop then 0xFFFFFFFF >>> pageShift else stop >>> pageShift

/-- The `code` pointer of the block. -/
def codePtr (b : Block) : Option Nat := if b.live then some b.code else none

/-- Where a block that chains into this one jumps to. -/
def entry (b : Block) : Nat := b.code + b.layout.chainEntry

/-- Where a chained exit goes when it is not linked. -/
def exitTail (b : Block) : Nat := b.code + b.layout.tail

/-- The calls of `patch_link` that point the block's linked exits back at its own tail. -/
def unlinkCalls (b : Block) : List Patch :=
  (b.layout.link.filter (·.linked)).map fun l => ⟨b.codePtr, l.site, b.exitTail⟩

/-- The block with no exit linked. -/
def unlinked (b : Block) : Block :=
  { b with layout := { b.layout with link := b.layout.link.map fun l => { l with linked := false } } }

/-- The block with exit `k` linked. -/
def linked (b : Block) (k : Nat) : Block :=
  { b with layout := { b.layout with link := b.layout.link.modify k fun l => { l with linked := true } } }

end Block

namespace Config

variable (cfg : Config)

/-- `pc_hash`. -/
def pcHash (pc : Word) (context : BitVec 64) : Word :=
  ((pc >>> 1) ^^^ (ctxFold context * 2654435761)) &&& (BitVec.ofNat 32 cfg.hashSize - 1)

/-- The hash bucket of a block. -/
def bucket (b : Block) : Word := cfg.pcHash b.guestPc b.context

/-- `page_bucket`. -/
def pageBucket (page : Nat) : Nat := page &&& (cfg.pageHashSize - 1)

end Config

/-- Write through the hook, if the pointer is one into the buffer. -/
def Patch.apply (h : Host) (p : Patch) (m : Mem) : Mem :=
  match p.source with
  | none => m
  | some code => h.patchLink (code + p.site) p.target m

namespace Table

variable (cfg : Config)

/-! ## The chains -/

/-- `chain_insert`. -/
def chainInsert (t : Table) (i : Nat) : Table :=
  match t.blocks[i]? with
  | none => t
  | some b => { t with hash := t.hash.insert (cfg.bucket b) i }

/-- `page_insert`. -/
def pageInsert (t : Table) (i : Nat) : Table :=
  match t.blocks[i]? with
  | none => t
  | some b =>
    { t with
      phash := t.phash.insert (cfg.pageBucket b.pageLo) i
      maxSpan := if t.maxSpan < b.pageHi - b.pageLo then b.pageHi - b.pageLo else t.maxSpan }

/-- One turn of the loop of `rebuild_pages`. -/
def rebuildPage (t : Table) (i : Nat) : Table :=
  match t.blocks[i]? with
  | none => t
  | some b =>
    if b.live then t.pageInsert cfg i else { t with phash := Function.update t.phash (.next i) none }

/-- `rebuild_pages`. -/
def rebuildPages (t : Table) : Table :=
  (List.range t.blocks.length).foldl (rebuildPage cfg) { t with phash := t.phash.clear, maxSpan := 0 }

/-- `rebuild_hash`. -/
def rebuildHash (t : Table) : Table :=
  ((List.range t.blocks.length).foldl (chainInsert cfg) { t with hash := t.hash.clear }).rebuildPages cfg

/-- `unhash`. -/
def unhash (t : Table) (i : Nat) : Table :=
  match t.blocks[i]? with
  | none => t
  | some b => { t with hash := t.hash.unlink t.blocks.length (.head (cfg.bucket b)) i }

/-- `emu_jit_flush`. -/
def flush (t : Table) : Table :=
  { t with
    hash := t.hash.clear
    phash := t.phash.clear
    maxSpan := 0
    blocks := []
    used := 0
    seen := t.seen.invalidate }

/-! ## Invalidation -/

/-- `retire_one`; `false` if every block went instead. -/
def retireOne (t : Table) (i : Nat) : Bool × Table :=
  match t.blocks[i]? with
  | none => (true, t)
  | some b =>
    -- the subtraction is cut off at 0, as in the source
    if b.layout.chainable ∧ b.layout.tail - b.layout.chainEntry < cfg.host.jumpBytes then (false, t.flush)
    else
      let t := if b.layout.chainable then { t with mem := cfg.host.emitJump b.entry b.exitTail t.mem } else t
      let t := t.unhash cfg i
      (true, { t with blocks := t.blocks.set i { b with live := false, hits := 0 } })

/-- The `while` loop of `retire_pages` over the bucket of page `p`, from the cell `a` on. -/
def sweepBucket (p pageLo : Nat) : Nat → Cell Nat → Table → Bool × Table
  | 0, _, t => (true, t)
  | fuel + 1, a, t =>
    match t.phash a with
    | none => (true, t)
    | some i =>
      match t.blocks[i]? with
      | none => (true, t)
      | some b =>
        if b.live = false then sweepBucket p pageLo fuel a { t with phash := t.phash.removeAt a i }
        else if b.pageLo = p ∧ pageLo ≤ b.pageHi then
          match retireOne cfg { t with phash := t.phash.removeAt a i } i with
          | (false, t) => (false, t)
          | (true, t) => sweepBucket p pageLo fuel a t
        else sweepBucket p pageLo fuel (.next i) t

/-- The `for` loop of `retire_pages` over the pages of a narrow range. -/
def sweepPages (pageLo : Nat) : List Nat → Table → Table
  | [], t => t
  | p :: ps, t =>
    match sweepBucket cfg p pageLo t.blocks.length (.head (cfg.pageBucket p)) t with
    | (false, t) => t
    | (true, t) => sweepPages pageLo ps t

/-- The loop of `retire_pages` over the whole table, for a wide range. -/
def scanBlocks (pageLo pageHi : Nat) : List Nat → Table → Table
  | [], t => t.rebuildPages cfg
  | i :: is, t =>
    match t.blocks[i]? with
    | none => scanBlocks pageLo pageHi is t
    | some b =>
      if b.live = false ∨ pageHi < b.pageLo ∨ b.pageHi < pageLo then scanBlocks pageLo pageHi is t
      else
        match retireOne cfg t i with
        | (false, t) => t
        | (true, t) => scanBlocks pageLo pageHi is t

/-- `retire_pages`. -/
def retirePages (pageLo pageHi : Nat) (t : Table) : Table :=
  if cfg.host.canRetire = false ∨ cfg.host.jumpBytes = 0 then t.flush
  else if pageHi - pageLo < pageWalkMax then
    let first := pageLo - t.maxSpan
    t.sweepPages cfg pageLo (List.range' first (pageHi + 1 - first))
  else t.scanBlocks cfg pageLo pageHi (List.range t.blocks.length)

/-- `emu_jit_invalidate_page`. -/
def invalidatePage (vaddr : Word) (t : Table) : Table :=
  t.retirePages cfg (vaddr.toNat >>> pageShift) (vaddr.toNat >>> pageShift)

/-- `emu_jit_invalidate_range`. -/
def invalidateRange (lo hi : Word) (t : Table) : Table :=
  if hi < lo then t
  else
    let t := t.retirePages cfg (lo.toNat >>> pageShift) (hi.toNat >>> pageShift)
    if pageWalkMax <<< pageShift ≤ (hi - lo).toNat then { t with seen := t.seen.invalidate }
    else { t with seen := t.seen.forgetRange lo hi }

/-! ## Chained exits -/

/-- Make some calls of `patch_link`, one after the other. -/
def patch (calls : List Patch) (t : Table) : Table :=
  { t with mem := calls.foldl (fun m p => p.apply cfg.host m) t.mem, patches := t.patches ++ calls }

/-- `unlink_all`. -/
def unlinkAll (t : Table) : Table :=
  if cfg.host.canLink then
    let t := t.patch cfg ((t.blocks.filter (·.live)).flatMap Block.unlinkCalls)
    { t with blocks := t.blocks.map fun b => if b.live then b.unlinked else b }
  else t

/-- `link_exit`, from the block `src` the dispatcher has noted to the block `dst` about to run. -/
def linkExit (src : Option Nat) (dst : Nat) (t : Table) : Table :=
  match src with
  | none => t
  | some i =>
    match t.blocks[i]?, t.blocks[dst]? with
    | some a, some b =>
      if cfg.host.canLink = false ∨ b.layout.chainable = false then t
      else
        match a.layout.link.findIdx? (fun l => !l.linked && l.targetPc == b.guestPc) with
        | none => t
        | some k =>
          let t := t.patch cfg ((a.layout.link[k]?).toList.map fun l => ⟨a.codePtr, l.site, b.entry⟩)
          { t with blocks := t.blocks.set i (a.linked k) }
    | _, _ => t

/-! ## Lookup -/

/-- Is block `i` the one for this pc and context? -/
def isFor (t : Table) (pc : Word) (context : BitVec 64) (i : Nat) : Bool :=
  match t.blocks[i]? with
  | none => false
  | some b => b.guestPc = pc ∧ b.context = context

/-- `find_block`. -/
def findBlock (t : Table) (pc : Word) (context : BitVec 64) : Option Nat :=
  t.hash.find (t.isFor pc context) t.blocks.length (.head (cfg.pcHash pc context))

/-- The table with another hit count for block `i`. -/
def setHits (t : Table) (i n : Nat) : Table :=
  { t with blocks := t.blocks.modify i fun b => { b with hits := n } }

/-- The hit count of block `i`. -/
def hitsOf (t : Table) (i : Nat) : Nat := (t.blocks[i]?).elim 0 (·.hits)

/-- `lookup`: the block found, with its saturating hit count raised. -/
def lookup (t : Table) (pc : Word) (context : BitVec 64) : Option Nat × Table :=
  match t.findBlock cfg pc context with
  | none => (none, t)
  | some i => (some i, if t.hitsOf i ≠ 0xFFFF then t.setHits i (t.hitsOf i + 1) else t)

/-! ## Compaction -/

/-- One linked exit in `chain_heat`: the block it leads to gets at least the count of block `i`. -/
def heatSlot (i : Nat) (context : BitVec 64) (st : Bool × Table) (l : Slot) : Bool × Table :=
  if l.linked = false then st
  else
    match st.2.findBlock cfg l.targetPc context with
    | none => st
    | some j =>
      if (st.2.blocks[j]?).any (·.live) ∧ st.2.hitsOf j < st.2.hitsOf i then
        (true, st.2.setHits j (st.2.hitsOf i))
      else st

/-- The exits of block `i` in one pass of `chain_heat`. -/
def heatBlock (st : Bool × Table) (i : Nat) : Bool × Table :=
  match st.2.blocks[i]? with
  | none => st
  | some a => if a.live then a.layout.link.foldl (heatSlot cfg i a.context) st else st

/-- `chain_heat`, with the passes that are left. -/
def chainHeat : Nat → Table → Table
  | 0, t => t
  | pass + 1, t =>
    let (moved, t) := (List.range t.blocks.length).foldl (heatBlock cfg) (false, t)
    if moved then chainHeat pass t else t

/-- `hit_bin`, of `HIT_BINS` = 16. -/
def hitBin (hits : Nat) : Nat := if 16 ≤ hits then 15 else hits

/-- The bytes of the live blocks in a bin. -/
def binBytes (t : Table) (bin : Nat) : Nat :=
  ((t.blocks.filter fun b => b.live && hitBin b.hits == bin).map (·.len)).sum

/-- The walk of `compact` from the hottest bin down, taking bins while they fit the budget. -/
def takeBins (bytes : Nat → Nat) (budget : Nat) : Nat → (acc threshold : Nat) → Nat
  | 0, _, threshold => threshold
  | bin + 1, acc, threshold =>
    if budget < acc + bytes bin then threshold else takeBins bytes budget bin (acc + bytes bin) bin

/-- The bin below which `compact` evicts; the budget is 32-bit arithmetic. -/
def threshold (t : Table) : Nat :=
  let budget : Word := BitVec.ofNat 32 cfg.size - BitVec.ofNat 32 (cfg.size / 4) - BitVec.ofNat 32 cfg.reserve
  max 2 (takeBins t.binBytes budget.toNat 16 0 16)

/-- `memmove` within the code buffer. -/
def memmove (dst src len : Nat) (m : Mem) : Mem := fun x =>
  if dst ≤ x ∧ x < dst + len then m (src + (x - dst)) else m x

/-- Rounding up the pointer `g_code + d` to a multiple of four. -/
def alignPtr (d : Nat) : Nat := (cfg.base + d + 3) / 4 * 4 - cfg.base

/-- The locals of the sliding loop of `compact`: where the next survivor goes, the survivors so far,
and the state it writes. -/
structure Slide where
  dst : Nat
  kept : List Block
  mem : Mem
  seen : Seen

/-- One turn of the sliding loop of `compact`. -/
def slideBlock (threshold : Nat) (s : Slide) (b : Block) : Slide :=
  if b.live = false then s
  else if hitBin b.hits < threshold then
    { s with seen := s.seen.evictNote cfg.tuning b.guestPc b.context }
  else
    let dst := alignPtr cfg s.dst
    { s with
      dst := dst + b.len
      kept := s.kept ++ [{ b with code := dst, hits := b.hits >>> 1 }]
      mem := if dst ≠ b.code then memmove dst b.code b.len s.mem else s.mem }

/-- `compact`. -/
def compact (t : Table) : Table :=
  let t := if cfg.tuning.chainHeat then t.chainHeat cfg 8 else t
  let threshold := t.threshold cfg
  let t := t.unlinkAll cfg
  let seen := { t.seen with marksLeft := cfg.tuning.thrashMarks }
  let s := t.blocks.foldl (slideBlock cfg threshold) ⟨0, [], t.mem, seen⟩
  { t with blocks := s.kept, used := s.dst, mem := s.mem, seen := s.seen }.rebuildHash cfg

/-! ## Translation -/

/-- `space_low`. -/
def spaceLow (t : Table) : Bool :=
  cfg.maxBlocks ≤ t.blocks.length ∨ cfg.size ≤ t.used + cfg.reserve

/-- The result of a translation: the block, whether the buffer overflowed, the table. -/
structure Attempt where
  block : Option Nat
  overflowed : Bool
  table : Table

/-- `translate_once`. -/
def translateOnce (tr : Translator cfg.host cfg.size) (pc : Word) (context : BitVec 64) (t : Table) : Attempt :=
  let start := (t.used + 3) / 4 * 4
  let e := tr.emit t.mem start
  let t := { t with used := start, mem := e.mem }
  if e.insns = 0 ∨ e.overflow then
    ⟨none, e.overflow, if e.overflow then t else { t with seen := t.seen.negNote pc context }⟩
  else
    let b : Block :=
      { context, guestPc := pc, layout := e.layout, live := true, code := start, len := e.cursor - start,
        insns := e.insns % 2 ^ 16, hits := 0 }
    let i := t.blocks.length
    let t := { t with blocks := t.blocks ++ [b], used := e.cursor }
    ⟨some i, false, (t.chainInsert cfg i).pageInsert cfg i⟩

/-- An attempt into the space that is there; too little of it counts as an overflow. -/
def attempt (tr : Translator cfg.host cfg.size) (pc : Word) (context : BitVec 64) (t : Table) : Attempt :=
  if t.spaceLow cfg then ⟨none, true, t⟩ else t.translateOnce cfg tr pc context

/-- `translate`: reclaim space when that is what stands in the way. -/
def translate (tr : Translator cfg.host cfg.size) (pc : Word) (context : BitVec 64) (t : Table) : Option Nat × Table :=
  let first := t.attempt cfg tr pc context
  if first.block.isSome ∨ first.overflowed = false then (first.block, first.table)
  else
    let second :=
      if cfg.host.relocatable then (first.table.compact cfg).attempt cfg tr pc context
      else ⟨none, true, first.table⟩
    if second.block.isSome ∨ second.overflowed = false then (second.block, second.table)
    else
      let third := second.table.flush.translateOnce cfg tr pc context
      (third.block, third.table)

end Table

end Emu.Jit
