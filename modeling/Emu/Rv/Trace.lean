-- SUMMARY: Runs of a hart, the translations that go stale in them, and that every other one is right.
import Emu.Rv.Control
import Emu.Rv.Fetches

/-! # Runs and stale translations

A run keeps the set of translations that were cached when one of the page table words behind them changed. A fence
that covers a translation takes it out of the set. -/

namespace Emu.Rv

variable {δ : Type} {h h' : Hart δ} {rd : Word → Option Word} {va pa : Word} {acc : Access}
variable {D : Stale} {V : Word → Prop} {n : Nat}

/-! ## What a step fences, and what it makes stale -/

/-- The stale translations a step leaves: a fence covers some, and a write to `satp` all of them. -/
def Op.fenced (D : Stale) : Op δ → Stale
  | ctl .fence => ∅
  | ctl (.fencePage va) => D.fence va
  | ctl (.csr .satp _) => ∅
  | _ => D

/-- The translations a step makes stale: those in the caches after it that rest on a word it changed. What a page
table word is, is for `seen` to say. -/
def marks (seen : Hart δ → Word → Option Word) (h h' : Hart δ) : Stale :=
  {x | ∃ va, h'.Cached va ∧ h'.paging = true ∧ (∃ w ∈ walkWords (seen h) h'.satp va, seen h' w ≠ seen h w) ∧
    x = (va >>> 12, walkMega (seen h) h'.satp va)}

/-- The states a hart can reach from reset on a little-endian bus, each with its stale translations. -/
inductive Run (seen : Hart δ → Word → Option Word) : Hart δ → Stale → Prop where
  | reset {h : Hart δ} {bus : Bus δ} {pc : Word} (hb : bus.Wf) (hl : bus.bigEndian = false) :
      Run seen (h.reset bus pc) ∅
  | step {h h' : Hart δ} {D : Stale} {o : Op δ} (hr : Run seen h D) (ho : o.run h = some h') :
      Run seen h' (o.fenced D ∪ marks seen h h')

/-- What a step does not mark it has not changed. -/
theorem marked (D : Stale) : Marked h.pteBelow h'.pteBelow D (D ∪ marks Hart.pteBelow h h') h' where
  excuses va _ he := by
    obtain he | ⟨he, hm⟩ := he
    · exact .inl (.inl he)
    · exact .inr ⟨.inl he, hm⟩
  marks va hva hp hne := by
    refine .inr ⟨va, hva, hp, ?_, rfl⟩
    by_contra hall
    push Not at hall
    exact hne (walk_congr hall)

/-! ## Accesses -/

/-- The addresses an access is about. -/
def MemOp.Touches : MemOp → Word → Prop
  | load va size _ => Span va size.bytes
  | store va size _ => Span va size.bytes
  | load64 va => Span va 8
  | store64 va _ => Span va 8
  | amo _ _ addr _ => Span addr 4
  | amocasD _ _ addr => Span addr 8
  | cbo _ addr => Span (addr &&& ~~~(BitVec.ofNat 32 cacheBlockSize - 1)) cacheBlockSize
  | fetch pc => Span pc 4
  | irFetch pc => Span pc 2

theorem Width.isWidth (w : Width) : IsWidth w.bytes := by
  cases w
  · exact .inl rfl
  · exact .inr (.inl rfl)
  · exact .inr (.inr rfl)

theorem keeps_mem (m : MemOp) (hl : m.legal = true) (hV : ∀ a, m.Touches a → V a) :
    KeepsTwins rd D V (Reads rd) (m.run : HartM δ _ _) := by
  cases m with
  | load va size signed => exact .bind (twin_relabel (keeps_load size.isWidth hV signed)) fun v => keeps_ret _
  | store va size val => exact .bind (twin_relabel (keeps_store size.isWidth hV val)) fun _ => keeps_ret _
  | load64 va => exact keeps_load64 hV
  | store64 va val => exact keeps_store64 hV val
  | amo op rd addr src =>
    exact .bind (twin_relabel (keeps_amo op rd addr src (hV addr (.first (by decide))))) fun _ => keeps_ret _
  | amocasD rd rs2 addr =>
    exact .bind (twin_relabel (keeps_amocasD rd rs2 addr (hV addr (.first (by decide))))) fun _ => keeps_ret _
  | cbo op addr => exact .bind (keeps_cbo op addr (hV _ (.first (by decide)))) fun _ => keeps_ret _
  | fetch pc => exact .bind (keeps_fetchInsn hV) fun _ => keeps_ret _
  | irFetch pc =>
    have he : pc &&& 1 = 0 := of_decide_eq_true hl
    exact .bind (twin_relabel (keeps_irFetch16 (hV pc (.first (by decide))) he)) fun _ => keeps_ret _

/-- An access keeps the caches coherent, by the page table words it started from. -/
theorem Coh.mem (hc : Coh h.pteBelow D h) (hok : h.Ok) (m : MemOp) (hl : m.legal = true) :
    Coh h.pteBelow D (m.run h).2 ∧ (m.run h).2.Ok := by
  have hafter := (keeps_mem m hl (fun _ _ => trivial) h h
    (.self (F := Reads h.pteBelow) (V := fun _ => True) hc hok rfl)).2
  cases hout : (m.run h).1 <;> rw [hout] at hafter
  all_goals exact ⟨Twin.left hafter, Twin.okLeft hafter⟩

/-! ## Privileged steps -/

theorem Coh.ctl {c : CtlOp δ} (hc : Coh h.pteBelow D h) (hok : h.Ok) (hr : c.run h = some h') :
    Coh h.pteBelow (Op.fenced D (.ctl c)) h' ∧ h'.Ok := by
  cases c with
  | fence =>
    rw [CtlOp.run] at hr
    split_ifs at hr
    obtain rfl := Option.some.inj hr
    exact ⟨.flush, hok.flush⟩
  | fencePage va =>
    rw [CtlOp.run] at hr
    split_ifs at hr
    obtain rfl := Option.some.inj hr
    exact ⟨hc.flushPage va, hok.flushPage va⟩
  | csr c val =>
    obtain ⟨hcoh, hok'⟩ := hc.csrWrite hok hr
    refine ⟨?_, hok'⟩
    cases c with
    | satp => exact .writeSatp hr
    | mstatus | sstatus | pmpcfg i | pmpaddr i => exact hcoh
  | trap cause tval =>
    obtain rfl := Option.some.inj hr
    obtain ⟨hcoh, hok'⟩ := hc.trapValue hok rfl cause tval
    exact ⟨hcoh.enterTrap cause _, hok'.enterTrap cause _⟩
  | mret =>
    rw [CtlOp.run] at hr
    split_ifs at hr
    obtain rfl := Option.some.inj hr
    exact ⟨hc.mret, hok.mret⟩
  | sret =>
    rw [CtlOp.run] at hr
    split_ifs at hr
    obtain rfl := Option.some.inj hr
    exact ⟨hc.sret, hok.sret⟩
  | plain p =>
    obtain rfl := Option.some.inj hr
    exact ⟨hc.frame (Hart.space_congr rfl rfl rfl rfl rfl) rfl rfl rfl,
      hok.bus, hok.little, hok.pmpActive, hok.pmpAny, hok.vmActive, hok.fetchGuard, hok.dataGuard, hok.mprv⟩
  | dirtyFp =>
    obtain rfl := Option.some.inj hr
    exact ⟨hc.frame (Hart.space_congr rfl rfl rfl rfl rfl) rfl rfl rfl, hok.dirtyFp⟩
  | trigger active check =>
    obtain rfl := Option.some.inj hr
    exact ⟨hc.frame (Hart.space_congr rfl rfl rfl rfl rfl) rfl rfl rfl,
      hok.bus, hok.little, hok.pmpActive, hok.pmpAny, hok.vmActive, rfl, rfl, hok.mprv⟩
  | outside mem dev =>
    obtain rfl := Option.some.inj hr
    have hneutral : Neutral fun h : Hart δ => { h with bus := { h.bus with mem := mem, dev := dev } } :=
      neutral_setBus (fun _ _ => rfl) (fun _ => rfl) fun _ => rfl
    exact ⟨hneutral.coh hc, hneutral.ok h hok⟩

/-! ## Runs -/

/-- One step: what it fences need not be excused any more, and what it changes is marked. -/
theorem Coh.step {o : Op δ} (hc : Coh h.pteBelow D h) (hok : h.Ok) (ho : o.run h = some h') :
    Coh h'.pteBelow (o.fenced D ∪ marks Hart.pteBelow h h') h' ∧ h'.Ok := by
  have hstep : Coh h.pteBelow (o.fenced D) h' ∧ h'.Ok := by
    cases o with
    | mem m =>
      rw [Op.run] at ho
      split_ifs at ho with hl
      obtain rfl := Option.some.inj ho
      exact hc.mem hok m hl
    | ctl c => exact hc.ctl hok ho
  exact ⟨hstep.1.restale (marked _), hstep.2⟩

/-- In every state a hart can reach, every translation that is not stale is right. -/
theorem Run.coherent (hr : Run Hart.pteBelow h D) : Coh h.pteBelow D h ∧ h.Ok := by
  induction hr with
  | reset hb hl => exact ⟨Coh.flush.frame rfl rfl rfl rfl, .reset hb hl _⟩
  | step _ ho ih => exact ih.1.step ih.2 ho

end Emu.Rv
