-- SUMMARY: What holds of the block table: placement of the code, chained exits, and the two indexes.
import Emu.Jit.Table

/-!
# The invariant of the block table

In three parts. The blocks lie one after the other in the code buffer. Their chained exits lead to
chain entries, and a retired block's entry is a jump to its own tail. The hash and the page chains
hold exactly the live blocks, and no two live blocks have one pc and context.
-/

namespace Emu.Jit

open Emu.Chain

/-! ## What an operation on a block in place keeps -/

namespace Block

/-- The block without what changes while it is in the table: its liveness, its hit count and which
exits are linked. -/
def bare (b : Block) : Block := { b.unlinked with live := true, hits := 0 }

/-- The block retired. -/
def retired (b : Block) : Block := { b with live := false, hits := 0 }

variable {a b : Block}

theorem bare_retired (b : Block) : b.retired.bare = b.bare := rfl

theorem bare_unlinked (b : Block) : b.unlinked.bare = b.bare := by
  simp [bare, unlinked, Function.comp_def]

theorem bare_linked (b : Block) (k : Nat) : (b.linked k).bare = b.bare := by
  simp only [bare, unlinked, linked]
  congr 2
  apply List.ext_getElem?
  intro i
  simp only [List.getElem?_map, List.getElem?_modify]
  split <;> simp [Function.comp_def]

/-- What two blocks that are bare alike share. -/
structure Alike (a b : Block) : Prop where
  code : a.code = b.code
  len : a.len = b.len
  insns : a.insns = b.insns
  guestPc : a.guestPc = b.guestPc
  context : a.context = b.context
  chainable : a.layout.chainable = b.layout.chainable
  entry : a.entry = b.entry
  exitTail : a.exitTail = b.exitTail
  pageLo : a.pageLo = b.pageLo
  pageHi : a.pageHi = b.pageHi
  bucket : ∀ cfg : Config, cfg.bucket a = cfg.bucket b

theorem alike (h : a.bare = b.bare) : Alike a b where
  code := (congrArg Block.code h :)
  len := (congrArg Block.len h :)
  insns := (congrArg Block.insns h :)
  guestPc := (congrArg Block.guestPc h :)
  context := (congrArg Block.context h :)
  chainable := (congrArg (·.layout.chainable) h :)
  entry := (congrArg Block.entry h :)
  exitTail := (congrArg Block.exitTail h :)
  pageLo := (congrArg Block.pageLo h :)
  pageHi := (congrArg Block.pageHi h :)
  bucket cfg := (congrArg cfg.bucket h :)

end Block

/-- Whether a layout fits does not depend on which of its exits are linked. -/
theorem Layout.fits_bare {h : Host} {b : Block} {len : Nat} :
    b.bare.layout.Fits h len ↔ b.layout.Fits h len := by
  constructor
  · intro hf
    refine ⟨hf.entry_lt, hf.tail_le, ?_, List.pairwise_map.1 hf.apart⟩
    intro l hl
    exact hf.site_le { l with linked := false } (List.mem_map_of_mem hl)
  · intro hf
    refine ⟨hf.entry_lt, hf.tail_le, ?_, List.pairwise_map.2 hf.apart⟩
    intro l hl
    obtain ⟨l, hl', rfl⟩ := List.mem_map.1 hl
    exact hf.site_le l hl'

section Lists

variable {bs bs' : List Block} {i : Nat} {a b : Block}

theorem map_bare_set (hb : bs[i]? = some b) (h : a.bare = b.bare) :
    (bs.set i a).map Block.bare = bs.map Block.bare := by
  apply List.ext_getElem?
  intro j
  simp only [List.map_set, List.getElem?_set, List.getElem?_map, List.length_map]
  split
  · subst j
    obtain ⟨hi, hb⟩ := List.getElem?_eq_some_iff.1 hb
    simp [hb, h, hi]
  · rfl

theorem getElem?_append_singleton (h : (bs ++ [b])[i]? = some a) : bs[i]? = some a ∨ i = bs.length ∧ a = b := by
  rcases Nat.lt_trichotomy i bs.length with hlt | rfl | hgt
  · rw [List.getElem?_append_left hlt] at h
    exact .inl h
  · rw [List.getElem?_concat_length] at h
    exact .inr ⟨rfl, (Option.some.inj h).symm⟩
  · rw [List.getElem?_eq_none (by simp; omega)] at h
    cases h

theorem getElem?_set_cases {j : Nat} (h : (bs.set i b)[j]? = some a) :
    j = i ∧ a = b ∨ j ≠ i ∧ bs[j]? = some a := by
  by_cases hj : j = i
  · subst hj
    have hi : j < bs.length := by simpa using (List.getElem?_eq_some_iff.1 h).1
    rw [List.getElem?_set_self hi] at h
    exact .inl ⟨rfl, (Option.some.inj h).symm⟩
  · rw [List.getElem?_set_ne (Ne.symm hj)] at h
    exact .inr ⟨hj, h⟩

/-- A block of the one list stands for the block at the same place of the other. -/
theorem exists_bare (h : bs'.map Block.bare = bs.map Block.bare) (hb : bs'[i]? = some b) :
    ∃ a, bs[i]? = some a ∧ b.bare = a.bare := by
  have := congrArg (·[i]?) h
  simp only [List.getElem?_map, hb, Option.map_some] at this
  obtain ⟨a, ha, hab⟩ := Option.map_eq_some_iff.1 this.symm
  exact ⟨a, ha, hab.symm⟩

end Lists

/-! ## Placement -/

/-- The blocks lie in table order, apart and aligned, below `used`; each layout fits its block, and
each block has at least one instruction. -/
structure Placed (cfg : Config) (bs : List Block) (used : Nat) : Prop where
  ranges : ∀ {i j : Nat} {a b : Block}, i < j → bs[i]? = some a → bs[j]? = some b → a.code + a.len ≤ b.code
  inside : ∀ {i : Nat} {b : Block}, bs[i]? = some b → b.code + b.len ≤ used
  aligned : ∀ {i : Nat} {b : Block}, bs[i]? = some b → b.code % 4 = 0
  fits : ∀ {i : Nat} {b : Block}, bs[i]? = some b → b.layout.Fits cfg.host b.len
  insns_pos : ∀ {i : Nat} {b : Block}, bs[i]? = some b → 0 < b.insns
  used_le : used ≤ cfg.size

namespace Placed

variable {cfg : Config} {bs bs' : List Block} {used : Nat} {i j : Nat} {a b : Block}

theorem nil (cfg : Config) : Placed cfg [] 0 := by
  constructor <;> simp

theorem of_bare (h : Placed cfg bs used) (hb : bs'.map Block.bare = bs.map Block.bare) : Placed cfg bs' used := by
  constructor
  · intro i j a b hij ha hb'
    obtain ⟨a', ha', haa⟩ := exists_bare hb ha
    obtain ⟨b', hb', hbb⟩ := exists_bare hb hb'
    rw [(Block.alike haa).code, (Block.alike haa).len, (Block.alike hbb).code]
    exact h.ranges hij ha' hb'
  · intro i b hb'
    obtain ⟨b', hb', hbb⟩ := exists_bare hb hb'
    rw [(Block.alike hbb).code, (Block.alike hbb).len]
    exact h.inside hb'
  · intro i b hb'
    obtain ⟨b', hb', hbb⟩ := exists_bare hb hb'
    rw [(Block.alike hbb).code]
    exact h.aligned hb'
  · intro i b hb'
    obtain ⟨b', hb', hbb⟩ := exists_bare hb hb'
    rw [← Layout.fits_bare, hbb, Layout.fits_bare, (Block.alike hbb).len]
    exact h.fits hb'
  · intro i b hb'
    obtain ⟨b', hb', hbb⟩ := exists_bare hb hb'
    rw [(Block.alike hbb).insns]
    exact h.insns_pos hb'
  · exact h.used_le

/-- The bytes of two different blocks are apart. -/
theorem apart (h : Placed cfg bs used) (hij : i ≠ j) (ha : bs[i]? = some a) (hb : bs[j]? = some b) :
    a.code + a.len ≤ b.code ∨ b.code + b.len ≤ a.code := by
  rcases Nat.lt_or_gt_of_ne hij with hlt | hgt
  · exact .inl (h.ranges hlt ha hb)
  · exact .inr (h.ranges hgt hb ha)

theorem entry_lt (h : Placed cfg bs used) (hb : bs[i]? = some b) : b.entry < b.code + b.len :=
  Nat.add_lt_add_left (h.fits hb).entry_lt _

/-- A chain entry belongs to one block. -/
theorem entry_inj (h : Placed cfg bs used) (ha : bs[i]? = some a) (hb : bs[j]? = some b) (he : a.entry = b.entry) :
    i = j := by
  by_contra hij
  have hea := h.entry_lt ha
  have heb := h.entry_lt hb
  have hca : a.code ≤ a.entry := Nat.le_add_right _ _
  have hcb : b.code ≤ b.entry := Nat.le_add_right _ _
  rcases h.apart hij ha hb with hlt | hgt <;> omega

theorem le_reach (h : Placed cfg bs used) (hb : bs[i]? = some b) : b.code + b.len ≤ cfg.host.reach :=
  (h.inside hb).trans (h.used_le.trans cfg.size_le)

/-- A new block above `used` may be appended. -/
theorem append {used' : Nat} (h : Placed cfg bs used) (hstart : used ≤ b.code) (hal : b.code % 4 = 0)
    (hfit : b.layout.Fits cfg.host b.len) (hpos : 0 < b.insns) (hend : b.code + b.len ≤ used')
    (hle : used' ≤ cfg.size) : Placed cfg (bs ++ [b]) used' := by
  constructor
  · intro i j a c hij ha hc
    rcases getElem?_append_singleton hc with hc' | ⟨rfl, rfl⟩
    · have hj := (List.getElem?_eq_some_iff.1 hc').1
      rcases getElem?_append_singleton ha with ha | ⟨rfl, rfl⟩
      · exact h.ranges hij ha hc'
      · omega
    · rcases getElem?_append_singleton ha with ha | ⟨rfl, rfl⟩
      · exact (h.inside ha).trans hstart
      · omega
  · intro i a ha
    rcases getElem?_append_singleton ha with ha | ⟨rfl, rfl⟩
    · have := h.inside ha
      omega
    · exact hend
  · intro i a ha
    rcases getElem?_append_singleton ha with ha | ⟨rfl, rfl⟩
    · exact h.aligned ha
    · exact hal
  · intro i a ha
    rcases getElem?_append_singleton ha with ha | ⟨rfl, rfl⟩
    · exact h.fits ha
    · exact hfit
  · intro i a ha
    rcases getElem?_append_singleton ha with ha | ⟨rfl, rfl⟩
    · exact h.insns_pos ha
    · exact hpos
  · exact hle

/-- A retired block's entry jump is read from the block's own bytes. -/
theorem jumpTarget_eq {m m' : Mem} (h : Placed cfg bs used) (hb : bs[i]? = some b)
    (hj : b.layout.chainEntry + cfg.host.jumpBytes ≤ b.layout.tail)
    (hm : ∀ x, b.code ≤ x → x < b.code + b.len → m' x = m x) :
    cfg.host.jumpTarget m' b.entry = cfg.host.jumpTarget m b.entry := by
  have htail := (h.fits hb).tail_le
  apply cfg.host.jumpTarget_congr
  intro x hx hx'
  rw [Block.entry] at hx hx'
  exact hm x (by omega) (by omega)

/-- An exit's jump is read from the block's own bytes. -/
theorem linkTarget_eq {m m' : Mem} {l : Slot} (h : Placed cfg bs used) (hb : bs[i]? = some b)
    (hl : l ∈ b.layout.link) (hm : ∀ x, b.code ≤ x → x < b.code + b.len → m' x = m x) :
    cfg.host.linkTarget m' (b.code + l.site) = cfg.host.linkTarget m (b.code + l.site) := by
  have hsite := (h.fits hb).site_le l hl
  apply cfg.host.linkTarget_congr
  intro x hx hx'
  exact hm x (by omega) (by omega)

end Placed

/-! ## Chained exits -/

/-- A retired block that can be chained into has its entry turned into a jump to its own tail, and
every linked exit of a live block leads to the chain entry of a block for the exit's pc. `P` relates
the contexts at the two ends of a linked exit. -/
structure Wired (cfg : Config) (P : BitVec 64 → BitVec 64 → Prop) (bs : List Block) (m : Mem) : Prop where
  entries : ∀ {i : Nat} {b : Block}, bs[i]? = some b → b.live = false → b.layout.chainable = true →
    b.layout.chainEntry + cfg.host.jumpBytes ≤ b.layout.tail ∧ cfg.host.jumpTarget m b.entry = some b.exitTail
  canLink : ∀ {i : Nat} {a : Block} {l : Slot}, bs[i]? = some a → l ∈ a.layout.link → l.linked = true →
    cfg.host.canLink = true
  links : ∀ {i : Nat} {a : Block} {l : Slot}, bs[i]? = some a → a.live = true → l ∈ a.layout.link →
    l.linked = true → ∃ (j : Nat) (b : Block), bs[j]? = some b ∧ b.layout.chainable = true ∧
      b.guestPc = l.targetPc ∧ P a.context b.context ∧ cfg.host.linkTarget m (a.code + l.site) = b.entry

namespace Wired

variable {cfg : Config} {P : BitVec 64 → BitVec 64 → Prop} {bs bs' : List Block} {used : Nat} {m m' : Mem}
  {i j : Nat} {a b : Block}

theorem nil (cfg : Config) (P : BitVec 64 → BitVec 64 → Prop) (m : Mem) : Wired cfg P [] m := by
  constructor <;> simp

/-- Only the blocks' own bytes matter. -/
theorem frame (h : Wired cfg P bs m) (hp : Placed cfg bs used) (hm : ∀ x < used, m' x = m x) :
    Wired cfg P bs m' := by
  have hbytes : ∀ {i : Nat} {b : Block}, bs[i]? = some b → ∀ x, b.code ≤ x → x < b.code + b.len → m' x = m x :=
    fun hb x _ hx => hm x (hx.trans_le (hp.inside hb))
  refine ⟨?_, h.canLink, ?_⟩
  · intro i b hb hlive hc
    obtain ⟨hroom, hjump⟩ := h.entries hb hlive hc
    exact ⟨hroom, (hp.jumpTarget_eq hb hroom (hbytes hb)).trans hjump⟩
  · intro i a l ha hlive hl hlinked
    obtain ⟨j, b, hb, hc, hpc, hP, hlink⟩ := h.links ha hlive hl hlinked
    exact ⟨j, b, hb, hc, hpc, hP, (hp.linkTarget_eq ha hl (hbytes ha)).trans hlink⟩

/-- A fresh block may be appended. -/
theorem append (h : Wired cfg P bs m) (hlive : b.live = true) (hfresh : ∀ l ∈ b.layout.link, l.linked = false) :
    Wired cfg P (bs ++ [b]) m := by
  refine ⟨?_, ?_, ?_⟩
  · intro i c hc hdead hchain
    rcases getElem?_append_singleton hc with hc | ⟨rfl, rfl⟩
    · exact h.entries hc hdead hchain
    · exact absurd (hlive.symm.trans hdead) (by simp)
  · intro i c l hc hl hlinked
    rcases getElem?_append_singleton hc with hc | ⟨rfl, rfl⟩
    · exact h.canLink hc hl hlinked
    · exact absurd (hlinked.symm.trans (hfresh l hl)) (by simp)
  · intro i c l hc hl hlinked
    rcases getElem?_append_singleton hc with hc | ⟨rfl, rfl⟩
    · intro hlk
      obtain ⟨j, d, hd, hrest⟩ := h.links hc hl hlinked hlk
      have hj := (List.getElem?_eq_some_iff.1 hd).1
      exact ⟨j, d, by rw [List.getElem?_append_left hj, hd], hrest⟩
    · intro hlk
      exact absurd (hlk.symm.trans (hfresh l hlinked)) (by simp)

/-- Block `i` is replaced by one that is bare alike, and only bytes of that block change: the other
blocks keep what they had, so only block `i` is left to look at. -/
theorem set (h : Wired cfg P bs m) (hp : Placed cfg bs used) (ha : bs[i]? = some a) (hb : b.bare = a.bare)
    (hm : ∀ x, x < a.code ∨ a.code + a.len ≤ x → m' x = m x)
    (hentry : b.live = false → b.layout.chainable = true →
      b.layout.chainEntry + cfg.host.jumpBytes ≤ b.layout.tail ∧ cfg.host.jumpTarget m' b.entry = some b.exitTail)
    (hcan : ∀ l ∈ b.layout.link, l.linked = true → cfg.host.canLink = true)
    (hlink : b.live = true → ∀ l ∈ b.layout.link, l.linked = true → ∃ (j : Nat) (c : Block), bs[j]? = some c ∧
      c.layout.chainable = true ∧ c.guestPc = l.targetPc ∧ P b.context c.context ∧
        cfg.host.linkTarget m' (b.code + l.site) = c.entry) :
    Wired cfg P (bs.set i b) m' := by
  have hi := (List.getElem?_eq_some_iff.1 ha).1
  have hbytes : ∀ {j : Nat} {c : Block}, j ≠ i → bs[j]? = some c →
      ∀ x, c.code ≤ x → x < c.code + c.len → m' x = m x := by
    intro j c hj hc x hx hx'
    rcases hp.apart hj hc ha with h | h
    · exact hm x (.inl (by omega))
    · exact hm x (.inr (by omega))
  -- the block an exit leads to may be block `i` itself, which is still alike
  have hdst : ∀ {j : Nat} {c : Block} {l : Slot} {ctx : BitVec 64} {s : Nat}, bs[j]? = some c →
      c.layout.chainable = true → c.guestPc = l.targetPc → P ctx c.context → s = c.entry →
      ∃ (j : Nat) (c : Block), (bs.set i b)[j]? = some c ∧ c.layout.chainable = true ∧
        c.guestPc = l.targetPc ∧ P ctx c.context ∧ s = c.entry := by
    intro j c l ctx s hc hchain hpc hP hs
    by_cases hj : j = i
    · subst hj
      obtain rfl : a = c := Option.some.inj (ha.symm.trans hc)
      have hab := Block.alike hb
      exact ⟨j, b, List.getElem?_set_self hi, hab.chainable.trans hchain, hab.guestPc.trans hpc,
        hab.context ▸ hP, hs.trans hab.entry.symm⟩
    · exact ⟨j, c, by rw [List.getElem?_set_ne (Ne.symm hj), hc], hchain, hpc, hP, hs⟩
  refine ⟨?_, ?_, ?_⟩
  · intro j c hc hdead hchain
    rcases getElem?_set_cases hc with ⟨rfl, rfl⟩ | ⟨hj, hc⟩
    · exact hentry hdead hchain
    · obtain ⟨hroom, hjump⟩ := h.entries hc hdead hchain
      exact ⟨hroom, (hp.jumpTarget_eq hc hroom (hbytes hj hc)).trans hjump⟩
  · intro j c l hc hl hlk
    rcases getElem?_set_cases hc with ⟨rfl, rfl⟩ | ⟨hj, hc⟩
    · exact hcan l hl hlk
    · exact h.canLink hc hl hlk
  · intro j c l hc hlive hl hlk
    rcases getElem?_set_cases hc with ⟨rfl, rfl⟩ | ⟨hj, hc⟩
    · obtain ⟨k, d, hd, hchain, hpc, hP, hs⟩ := hlink hlive l hl hlk
      exact hdst hd hchain hpc hP hs
    · obtain ⟨k, d, hd, hchain, hpc, hP, hs⟩ := h.links hc hlive hl hlk
      exact hdst hd hchain hpc hP ((hp.linkTarget_eq hc hl (hbytes hj hc)).trans hs)

end Wired

/-! ## The indexes -/

/-- Block `i` is live and in bucket `k`, where `key` gives a block's bucket. -/
def LiveIn {β : Type*} (bs : List Block) (key : Block → β) (k : β) (i : Nat) : Prop :=
  ∃ b, bs[i]? = some b ∧ b.live = true ∧ key b = k

namespace LiveIn

variable {β : Type*} {bs bs' : List Block} {key : Block → β} {k k' : β} {i j : Nat} {a b : Block}

theorem lt_length (h : LiveIn bs key k i) : i < bs.length := by
  obtain ⟨b, hb, -⟩ := h
  exact (List.getElem?_eq_some_iff.1 hb).1

theorem key_unique (h : LiveIn bs key k i) (h' : LiveIn bs key k' i) : k = k' := by
  obtain ⟨b, hb, -, rfl⟩ := h
  obtain ⟨b', hb', -, rfl⟩ := h'
  rw [Option.some.inj (hb.symm.trans hb')]

theorem append_iff (hb : b.live = true) :
    LiveIn (bs ++ [b]) key k i ↔ LiveIn bs key k i ∨ k = key b ∧ i = bs.length := by
  constructor
  · rintro ⟨a, ha, hlive, rfl⟩
    rcases getElem?_append_singleton ha with ha | ⟨rfl, rfl⟩
    · exact .inl ⟨a, ha, hlive, rfl⟩
    · exact .inr ⟨rfl, rfl⟩
  · rintro (⟨a, ha, hlive, rfl⟩ | ⟨rfl, rfl⟩)
    · have hi := (List.getElem?_eq_some_iff.1 ha).1
      exact ⟨a, by rw [List.getElem?_append_left hi, ha], hlive, rfl⟩
    · exact ⟨b, List.getElem?_concat_length, hb, rfl⟩

/-- Retiring a block takes it out of its bucket. -/
theorem set_dead_iff (hb : b.live = false) : LiveIn (bs.set i b) key k j ↔ LiveIn bs key k j ∧ j ≠ i := by
  constructor
  · rintro ⟨a, ha, hlive, rfl⟩
    rcases getElem?_set_cases ha with ⟨rfl, rfl⟩ | ⟨hj, ha⟩
    · exact absurd (hlive.symm.trans hb) (by simp)
    · exact ⟨⟨a, ha, hlive, rfl⟩, hj⟩
  · rintro ⟨⟨a, ha, hlive, rfl⟩, hj⟩
    exact ⟨a, by rw [List.getElem?_set_ne (Ne.symm hj), ha], hlive, rfl⟩

end LiveIn

/-- What the indexes see of a block. -/
def Block.face (b : Block) : Block × Bool := (b.bare, b.live)

section Face

variable {bs bs' : List Block} {i : Nat} {a b : Block}

theorem map_bare_of_face (h : bs'.map Block.face = bs.map Block.face) : bs'.map Block.bare = bs.map Block.bare := by
  simpa [Block.face, Function.comp_def] using congrArg (List.map Prod.fst) h

theorem exists_face (h : bs'.map Block.face = bs.map Block.face) (hb : bs'[i]? = some b) :
    ∃ a, bs[i]? = some a ∧ b.bare = a.bare ∧ b.live = a.live := by
  have := congrArg (·[i]?) h
  simp only [List.getElem?_map, hb, Option.map_some] at this
  obtain ⟨a, ha, hab⟩ := Option.map_eq_some_iff.1 this.symm
  obtain ⟨hbare, hlive⟩ := Prod.mk.inj hab
  exact ⟨a, ha, hbare.symm, hlive.symm⟩

theorem map_face_set (hb : bs[i]? = some b) (h : a.bare = b.bare) (hl : a.live = b.live) :
    (bs.set i a).map Block.face = bs.map Block.face := by
  apply List.ext_getElem?
  intro j
  simp only [List.map_set, List.getElem?_set, List.getElem?_map, List.length_map]
  split
  · subst j
    obtain ⟨hi, hb⟩ := List.getElem?_eq_some_iff.1 hb
    simp [hb, Block.face, h, hl, hi]
  · rfl

theorem LiveIn.of_face {β : Type*} {key : Block → β} {k : β} (hkey : ∀ b, key b.bare = key b)
    (h : bs'.map Block.face = bs.map Block.face) (hi : LiveIn bs' key k i) : LiveIn bs key k i := by
  obtain ⟨b, hb, hlive, rfl⟩ := hi
  obtain ⟨a, ha, hbare, hl⟩ := exists_face h hb
  exact ⟨a, ha, hl.symm.trans hlive, by rw [← hkey a, ← hbare, hkey b]⟩

end Face

/-- The hash chains hold exactly the live blocks, each in its own bucket, and a live block is known by
its pc and context. -/
structure Hashed (cfg : Config) (bs : List Block) (hash : Links Word) : Prop where
  chains : Represents hash (LiveIn bs cfg.bucket)
  unique : ∀ {i j : Nat} {a b : Block}, bs[i]? = some a → bs[j]? = some b → a.live = true → b.live = true →
    a.guestPc = b.guestPc → a.context = b.context → i = j

/-- The page chains hold exactly the live blocks, each in the bucket of the page it starts on, and no
live block reaches more than `maxSpan` pages further. -/
structure Paged (cfg : Config) (bs : List Block) (phash : Links Nat) (maxSpan : Nat) : Prop where
  chains : Represents phash (LiveIn bs fun b => cfg.pageBucket b.pageLo)
  span : ∀ {i : Nat} {b : Block}, bs[i]? = some b → b.live = true → b.pageHi - b.pageLo ≤ maxSpan

section Indexes

variable {cfg : Config} {bs bs' : List Block} {hash : Links Word} {phash : Links Nat} {maxSpan i : Nat} {a b : Block}

theorem Hashed.nil (cfg : Config) (hash : Links Word) : Hashed cfg [] hash.clear :=
  ⟨(represents_clear hash).iff (by simp [LiveIn]), by simp⟩

theorem Paged.nil (cfg : Config) (phash : Links Nat) : Paged cfg [] phash.clear 0 :=
  ⟨(represents_clear phash).iff (by simp [LiveIn]), by simp⟩

theorem Hashed.of_face (h : Hashed cfg bs hash) (hf : bs'.map Block.face = bs.map Block.face) :
    Hashed cfg bs' hash := by
  refine ⟨h.chains.iff fun k i => ⟨.of_face (fun _ => rfl) hf.symm, .of_face (fun _ => rfl) hf⟩, ?_⟩
  intro i j a b ha hb hla hlb hpc hctx
  obtain ⟨a', ha', hab, hl⟩ := exists_face hf ha
  obtain ⟨b', hb', hbb, hl'⟩ := exists_face hf hb
  have haa := Block.alike hab
  have hbb := Block.alike hbb
  exact h.unique ha' hb' (hl.symm.trans hla) (hl'.symm.trans hlb) (by rw [← haa.guestPc, hpc, hbb.guestPc])
    (by rw [← haa.context, hctx, hbb.context])

theorem Paged.of_face (h : Paged cfg bs phash maxSpan) (hf : bs'.map Block.face = bs.map Block.face) :
    Paged cfg bs' phash maxSpan := by
  refine ⟨h.chains.iff fun k i => ⟨.of_face (fun _ => rfl) hf.symm, .of_face (fun _ => rfl) hf⟩, ?_⟩
  intro i b hb hlive
  obtain ⟨b', hb', hbb, hl⟩ := exists_face hf hb
  rw [(Block.alike hbb).pageHi, (Block.alike hbb).pageLo]
  exact h.span hb' (hl.symm.trans hlive)

/-- Unhashing a live block and retiring it. -/
theorem Hashed.retire (h : Hashed cfg bs hash) (ha : bs[i]? = some a) (hlive : a.live = true) :
    Hashed cfg (bs.set i a.retired) (hash.unlink bs.length (.head (cfg.bucket a)) i) := by
  refine ⟨?_, ?_⟩
  · refine (h.chains.unlink (fun _ _ hi => hi.lt_length) ⟨a, ha, hlive, rfl⟩ fun _ _ _ => LiveIn.key_unique).iff ?_
    intro k j
    exact (LiveIn.set_dead_iff rfl).symm
  · intro j j' b b' hb hb' hlb hlb' hpc hctx
    rcases getElem?_set_cases hb with ⟨rfl, rfl⟩ | ⟨-, hb⟩
    · cases hlb
    · rcases getElem?_set_cases hb' with ⟨rfl, rfl⟩ | ⟨-, hb'⟩
      · cases hlb'
      · exact h.unique hb hb' hlb hlb' hpc hctx

/-- Taking a block out of its page chain where the walk stands, and retiring it. -/
theorem Paged.retireAt {k : Nat} {pre post : List Nat} (h : Paged cfg bs phash maxSpan)
    (hc : IsChain phash (.head k) (pre ++ i :: post)) :
    Paged cfg (bs.set i a.retired) (phash.removeAt (cellAfter (.head k) pre) i) maxSpan := by
  refine ⟨?_, ?_⟩
  · obtain ⟨l, hl, hmem⟩ := h.chains k
    have hi : LiveIn bs (fun b => cfg.pageBucket b.pageLo) k i := (hmem i).1 (hl.unique hc ▸ by simp)
    refine (h.chains.removeAt hc (fun _ hk' => hk'.key_unique hi) fun _ _ _ => LiveIn.key_unique).iff ?_
    intro k j
    exact (LiveIn.set_dead_iff rfl).symm
  · intro j b hb hlive
    rcases getElem?_set_cases hb with ⟨rfl, rfl⟩ | ⟨-, hb⟩
    · cases hlive
    · exact h.span hb hlive

theorem Hashed.append (h : Hashed cfg bs hash) (hlive : b.live = true)
    (hnew : ∀ {i : Nat} {a : Block}, bs[i]? = some a → a.live = true → a.guestPc = b.guestPc → a.context ≠ b.context) :
    Hashed cfg (bs ++ [b]) (hash.insert (cfg.bucket b) bs.length) := by
  refine ⟨?_, ?_⟩
  · refine (h.chains.insert fun k hk => (hk.lt_length).false).iff fun k i => ?_
    exact (LiveIn.append_iff hlive).symm
  · intro i j a c ha hc hla hlc hpc hctx
    rcases getElem?_append_singleton ha with ha' | ⟨rfl, rfl⟩
    · rcases getElem?_append_singleton hc with hc' | ⟨rfl, rfl⟩
      · exact h.unique ha' hc' hla hlc hpc hctx
      · exact absurd hctx (hnew ha' hla hpc)
    · rcases getElem?_append_singleton hc with hc' | ⟨rfl, -⟩
      · exact absurd hctx.symm (hnew hc' hlc hpc.symm)
      · rfl

theorem Paged.append (h : Paged cfg bs phash maxSpan) (hlive : b.live = true) :
    Paged cfg (bs ++ [b]) (phash.insert (cfg.pageBucket b.pageLo) bs.length)
      (if maxSpan < b.pageHi - b.pageLo then b.pageHi - b.pageLo else maxSpan) := by
  refine ⟨?_, ?_⟩
  · refine (h.chains.insert fun k hk => (hk.lt_length).false).iff fun k i => ?_
    exact (LiveIn.append_iff hlive).symm
  · intro i a ha hla
    rcases getElem?_append_singleton ha with ha | ⟨rfl, rfl⟩
    · have := h.span ha hla
      split <;> omega
    · split <;> omega

end Indexes

end Emu.Jit
