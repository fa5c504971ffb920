-- SUMMARY: Nested service of interrupts: each end of service brings back the priority from before its acknowledgement.
import Emu.Ppc.Intc

/-! # Nesting

The controller saves CPR at each acknowledgement on a LIFO of 14 entries, and there are 16 priorities, so that 15
acknowledgements may be nested. The oldest entry is then overwritten and popped as 0. Since every acknowledgement raises
CPR, the entry that was overwritten had been 0. -/

namespace Emu.Ppc.Intc

/-! ## Histories -/

/-- The operation is a write of CPR's priority. -/
def Op.setsCpr : Op → Bool
  | .write off size _ => (word off size).any fun l => l.1 = cprOff && (maskOf size <<< l.2) &&& priMax ≠ 0
  | _ => false

/-- The priorities before the acknowledgements in service, the latest first, after one more operation. -/
def saved (ic : Intc) (op : Op) (s : List Nat) : List Nat :=
  if ic.acks op then ic.cpr :: s else if op.eoir then s.tail else s

/-- A history since reset in which CPR is written with no interrupt in service only and an interrupt's service is ended
with one in service only; with the priorities before the acknowledgements in service. -/
inductive History : Intc → List Nat → Prop where
  | reset (irqDirty : Bool) : History (reset irqDirty) []
  | step {ic : Intc} {s : List Nat} {op : Op} : History ic s → (op.setsCpr = true → s = []) →
      (op.eoir = true → s ≠ []) → History (ic.apply op) (ic.saved op s)

/-! ## The invariant -/

/-- What the LIFO has is the latest of what is saved, and the rest was 0. -/
structure Keeps (ic : Intc) (s : List Nat) : Prop where
  above : ic.req = true → ic.cpr < ic.intpri
  rising : (ic.cpr :: s).Pairwise (· > ·)
  cpr_le : ic.cpr ≤ 15
  intpri_le : ic.req = true → ic.intpri ≤ 15
  psr_le : ∀ n, ic.pri n ≤ 15
  lifo : ∃ k, s = ic.lifo.held.map BitVec.toNat ++ List.replicate k 0

/-- In a list that falls an entry is its place below the head. -/
theorem add_length_lt {a y : Nat} {xs ys : List Nat} (h : (a :: (xs ++ y :: ys)).Pairwise (· > ·)) :
    y + xs.length < a := by
  induction xs generalizing a with
  | nil => exact (List.pairwise_cons.mp h).1 y List.mem_cons_self
  | cons b xs ih =>
    obtain ⟨hab, hl⟩ := List.pairwise_cons.mp h
    have hb : b < a := hab b List.mem_cons_self
    have := ih hl
    rw [List.length_cons]
    omega

/-- So there are at most 15 under a priority. -/
theorem Keeps.length_le {ic : Intc} {s : List Nat} (h : ic.Keeps s) : s.length ≤ 15 := by
  rcases List.eq_nil_or_concat' s with rfl | ⟨xs, y, rfl⟩
  · exact Nat.zero_le 15
  · have hlt := add_length_lt h.rising
    have hle := h.cpr_le
    rw [List.length_append, List.length_singleton]
    omega

theorem arbitrate_le {ic : Intc} (h : ∀ n, ic.pri n ≤ 15) : ic.arbitrate.2 ≤ 15 := by
  rw [arbitrate_eq_scan]
  rcases FirstMin.scan_cases (f := fun n => OrderDual.toDual (ic.pri n)) ic.flagged (0, OrderDual.toDual 0) with
    ⟨heq, -⟩ | ⟨-, hval, -, -⟩
  · rw [heq]
    exact Nat.zero_le 15
  · rw [hval]
    exact h _

/-! ## Operations keep it -/

theorem keeps_reset (irqDirty : Bool) : (reset irqDirty).Keeps [] where
  above := by simp [Intc.reset]
  rising := List.pairwise_singleton _ _
  cpr_le := Nat.le_refl 15
  intpri_le := by simp [Intc.reset]
  psr_le := fun _ => Nat.zero_le 15
  lifo := ⟨0, rfl⟩

theorem Keeps.update {ic : Intc} {s : List Nat} (h : ic.Keeps s) : ic.update.Keeps s := by
  rw [Intc.update]
  split_ifs with hr hlt
  · exact h
  · exact { h with above := fun _ => hlt, intpri_le := fun _ => arbitrate_le h.psr_le }
  · exact h

theorem Keeps.flagPut {ic : Intc} {s : List Nat} (h : ic.Keeps s) (n : Nat) (on : Bool) : (ic.flagPut n on).Keeps s :=
  { h with }

theorem Keeps.byteWrite {ic : Intc} {s : List Nat} (h : ic.Keeps s) (off : Nat) (v : Byte) :
    (ic.byteWrite off v).Keeps s := by
  rw [Intc.byteWrite]
  split_ifs
  · refine { h with psr_le := fun n => ?_ }
    change (Function.update ic.psr (off - psr0Off) (v &&& priMax.setWidth 8) n).toNat ≤ 15
    rw [Function.update_apply]
    split_ifs
    · rw [BitVec.toNat_and]
      exact Nat.and_le_right
    · exact h.psr_le n
  · exact h
  · exact h.flagPut _ _
  · exact h.flagPut _ _
  · exact h

theorem Keeps.setSource {ic : Intc} {s : List Nat} (h : ic.Keeps s) (source : Nat) (level : Bool) :
    (ic.setSource source level).Keeps s := by
  rw [Intc.setSource]
  split_ifs
  · exact h
  · exact (h.flagPut _ _).update
  · exact h.flagPut _ _

theorem toNat_ofNat_cpr {n : Nat} (h : n ≤ 15) : (BitVec.ofNat 8 n).toNat = n := by
  rw [BitVec.toNat_ofNat, Nat.mod_eq_of_lt (by omega)]

/-- The LIFO after a push: if it was full, what is lost is a 0. -/
theorem Keeps.lifo_push {ic : Intc} {s : List Nat} (h : ic.Keeps s) (hr : ic.req = true) :
    ∃ k, ic.cpr :: s = (ic.lifo.push (BitVec.ofNat 8 ic.cpr)).held.map BitVec.toNat ++ List.replicate k 0 := by
  obtain ⟨k, hk⟩ := h.lifo
  have hdepth : ic.lifo.held.length ≤ 14 := by
    rw [ShortStack.length_held]
    exact ic.lifo.depth_le
  rw [ShortStack.held_push]
  rcases hdepth.lt_or_eq with hlt | hfull
  · refine ⟨k, ?_⟩
    rw [List.take_of_length_le (by rw [List.length_cons]; exact hlt), List.map_cons, toNat_ofNat_cpr h.cpr_le, hk]
    rfl
  · obtain h0 | ⟨xs, y, hheld⟩ := List.eq_nil_or_concat' ic.lifo.held
    · rw [h0] at hfull
      exact absurd hfull (by decide)
    rw [hheld, List.length_append, List.length_singleton] at hfull
    rw [hheld, List.map_append, List.map_singleton, List.append_assoc] at hk
    -- 15 priorities one above the other, up to the request's
    have hy : y.toNat = 0 := by
      have hrising := h.rising
      rw [hk] at hrising
      have hlt := add_length_lt hrising
      have habove := h.above hr
      have hle := h.intpri_le hr
      rw [List.length_map] at hlt
      omega
    refine ⟨k + 1, ?_⟩
    have htake : ((BitVec.ofNat 8 ic.cpr :: (xs ++ [y])).take 14) = BitVec.ofNat 8 ic.cpr :: xs := by
      rw [← List.cons_append]
      exact List.take_left' (by rw [List.length_cons]; omega)
    rw [hheld, htake, List.map_cons, toNat_ofNat_cpr h.cpr_le, hk, hy, List.replicate_succ]
    rfl

theorem Keeps.acknowledge {ic : Intc} {s : List Nat} (h : ic.Keeps s) (hr : ic.req = true) :
    ic.acknowledge.Keeps (ic.cpr :: s) := by
  refine Keeps.update ⟨fun hr' => absurd hr' (by simp), ?_, h.intpri_le hr, fun hr' => absurd hr' (by simp), h.psr_le,
    h.lifo_push hr⟩
  refine List.pairwise_cons.mpr ⟨?_, h.rising⟩
  intro b hb
  rcases List.mem_cons.mp hb with rfl | hb'
  · exact h.above hr
  · exact ((List.pairwise_cons.mp h.rising).1 b hb').trans (h.above hr)

/-- An end of service pops what was saved last. -/
theorem Keeps.pop {ic : Intc} {c : Nat} {s : List Nat} (h : ic.Keeps (c :: s)) : ic.pop.Keeps s ∧ ic.pop.cpr = c := by
  obtain ⟨hall, hrising⟩ := List.pairwise_cons.mp h.rising
  have hc : c < ic.cpr := hall c List.mem_cons_self
  have habove : ic.req = true → c < ic.intpri := fun hr => hc.trans (h.above hr)
  have hle : c ≤ 15 := hc.le.trans h.cpr_le
  obtain ⟨k, hk⟩ := h.lifo
  rw [Intc.pop]
  cases hheld : ic.lifo.held with
  | nil =>
    rw [ShortStack.pop_of_nil hheld]
    rw [hheld, List.map_nil, List.nil_append] at hk
    cases k with
    | zero => exact absurd hk (by simp)
    | succ k =>
      rw [List.replicate_succ] at hk
      obtain ⟨rfl, rfl⟩ := List.cons.inj hk
      exact ⟨⟨habove, hrising, hle, h.intpri_le, h.psr_le, k, by rw [hheld]; rfl⟩, rfl⟩
  | cons x xs =>
    obtain ⟨rest, hpop, hrest⟩ := ShortStack.pop_of_cons hheld
    rw [hpop]
    rw [hheld, List.map_cons, List.cons_append] at hk
    obtain ⟨rfl, rfl⟩ := List.cons.inj hk
    exact ⟨⟨habove, hrising, hle, h.intpri_le, h.psr_le, k, by rw [hrest]⟩, rfl⟩

/-! ## Histories keep it -/

theorem Keeps.put {ic : Intc} {s : List Nat} (h : ic.Keeps s) {base : Nat} (hb : base ≠ eoirOff) (m v : Word)
    (hcpr : base = cprOff → m &&& priMax ≠ 0 → s = []) : (ic.put base m v).Keeps s := by
  rw [Intc.put]
  split_ifs with hbcr hc hm hiackr
  · exact { h with }
  · obtain rfl := hcpr hc hm
    refine { h with above := by simp, rising := List.pairwise_singleton _ _, cpr_le := ?_, intpri_le := by simp }
    rw [BitVec.toNat_and]
    exact Nat.and_le_right
  · exact h
  · exact { h with }
  · exact bankWrite_induction (motive := fun ic => ic.Keeps s) base m v h fun _ off b h' => h'.byteWrite off b

/-- The two operations that may acknowledge do nothing else. -/
theorem Keeps.acks {ic : Intc} {s : List Nat} (h : ic.Keeps s) {op : Op} (he : op.eoir = false)
    (hop : ic.apply op = if ic.acks op then ic.acknowledge else ic) : (ic.apply op).Keeps (ic.saved op s) := by
  rw [hop, saved, he]
  cases hacks : ic.acks op with
  | true => exact h.acknowledge (req_of_acks hacks)
  | false => exact h

theorem Keeps.write {ic : Intc} {s : List Nat} (h : ic.Keeps s) (off size : Nat) (val : Word)
    (hcpr : (Op.write off size val).setsCpr = true → s = []) (heoir : (Op.write off size val).eoir = true → s ≠ []) :
    (ic.apply (.write off size val)).Keeps (ic.saved (.write off size val) s) := by
  have hacks : ic.acks (.write off size val) = false := rfl
  rw [Op.setsCpr] at hcpr
  rw [apply, Intc.write, saved, hacks, if_neg Bool.false_ne_true]
  rw [Op.eoir] at heoir ⊢
  cases hw : word off size with
  | none => exact h
  | some l =>
    obtain ⟨base, shift⟩ := l
    rw [hw] at hcpr heoir
    by_cases hb : base = eoirOff
    · subst hb
      cases s with
      | nil => exact absurd rfl (heoir (by simp))
      | cons c s => exact h.pop.1.update
    · have hk := h.put hb (maskOf size <<< shift) (val <<< shift &&& maskOf size <<< shift) (by simpa using hcpr)
      simpa [hb] using hk.update

theorem History.keeps {ic : Intc} {s : List Nat} (h : History ic s) : ic.Keeps s := by
  induction h with
  | reset irqDirty => exact keeps_reset irqDirty
  | @step ic s op _ hcpr heoir ih =>
    cases op with
    | setSource source level => exact ih.setSource source level
    | read off size => exact ih.acks rfl (apply_read _ off size)
    | write off size val => exact ih.write off size val hcpr heoir
    | ack => exact ih.acks rfl rfl

/-- An end of service brings back the priority from before the acknowledgement it belongs to, however many are nested; and
there are never more than 15. -/
theorem History.end_restores {ic : Intc} {c : Nat} {s : List Nat} (h : History ic (c :: s)) {op : Op}
    (hop : op.eoir = true) : (ic.apply op).cpr = c ∧ (c :: s).length ≤ 15 := by
  refine ⟨?_, h.keeps.length_le⟩
  cases op with
  | setSource source level => exact absurd hop (by simp [Op.eoir])
  | read off size => exact absurd hop (by simp [Op.eoir])
  | ack => exact absurd hop (by simp [Op.eoir])
  | write off size val =>
    rw [Op.eoir] at hop
    rw [apply, Intc.write]
    cases hw : word off size with
    | none => simp [hw] at hop
    | some l =>
      obtain ⟨base, shift⟩ := l
      have hb : base = eoirOff := by simpa [hw] using hop
      subst hb
      exact (cpr_update _).trans h.keeps.pop.2

/-- The controller and what is saved after operations, if they are a history's. -/
def follow : List Op → Intc → List Nat → Option (Intc × List Nat)
  | [], ic, s => some (ic, s)
  | op :: ops, ic, s =>
    if (op.setsCpr = true → s = []) ∧ (op.eoir = true → s ≠ []) then follow ops (ic.apply op) (ic.saved op s) else none

theorem History.follow {ops : List Op} {ic ic' : Intc} {s s' : List Nat} (h : History ic s)
    (hf : follow ops ic s = some (ic', s')) : History ic' s' := by
  induction ops generalizing ic s with
  | nil =>
    obtain ⟨rfl, rfl⟩ := Prod.mk.inj (Option.some.inj hf)
    exact h
  | cons op ops ih =>
    rw [Intc.follow] at hf
    split_ifs at hf with hok
    exact ih (h.step hok.1 hok.2) hf

/-- Fifteen sources, each above the one before, asserted and acknowledged one inside the other. -/
def fifteen : List Op :=
  .write 0x0B 1 0 :: (List.range 15).flatMap fun k =>
    [.write (0x48 + k) 1 (BitVec.ofNat 32 (k + 1)), .setSource (8 + k) true, .ack]

theorem end_restores_fifteen : ∃ ic s, History ic (14 :: s) ∧ s.length = 14 ∧
    (ic.apply (.write 0x18 4 0)).cpr = 14 ∧ (14 :: s).length ≤ 15 := by
  have hsaved : (follow fifteen (reset false) []).map Prod.snd = some (List.range 15).reverse := by decide +kernel
  obtain ⟨⟨ic, s⟩, hf, hs⟩ := Option.map_eq_some_iff.mp hsaved
  subst hs
  have h : History ic (14 :: (List.range 14).reverse) := (History.reset false).follow hf
  exact ⟨ic, _, h, by decide, h.end_restores (by decide)⟩

end Emu.Ppc.Intc
