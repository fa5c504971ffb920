-- SUMMARY: The interrupt controller: sources, priorities, the request it latches and the registers that change them.
import Emu.Ir.Syntax
import Emu.Lib.BitWalk
import Emu.Lib.FirstMin
import Emu.Lib.ShortStack

/-! # The interrupt controller

The state behind one core's INTC and what changes it: the sources' levels, the registers as the bus writes and reads them
at any width, and the core's acknowledgement. A request is latched with its vector and priority when it is asserted, and a
write of CPR is the only thing that decides it again. -/

namespace Emu.Ppc

namespace Intc

/-- `PPC_INTC_NSRC`. -/
def nSrc : Nat := 337

/-- `PPC_INTC_NSW`: the sources that software sets. -/
def nSw : Nat := 8

/-- `PPC_INTC_PRI_MAX`. -/
def priMax : Word := 15

/-- `PPC_INTC_LIFO`. -/
abbrev lifoSize : Nat := 14

/-- `PPC_INTC_SIZE`. -/
def windowSize : Nat := 0x4000

def bcrOff : Nat := 0x00
def cprOff : Nat := 0x08
def iackrOff : Nat := 0x10
def eoirOff : Nat := 0x18
def sscir0Off : Nat := 0x20
def sscir4Off : Nat := 0x24
def psr0Off : Nat := 0x40

def bcrVtes : Word := 0x20
def bcrHven : Word := 0x01
def sscirSet : Byte := 0x02
def sscirClr : Byte := 0x01

end Intc

/-- `ppc_intc_t`, with the flag of the core it requests from. Priorities are numbers from 0 to 15. -/
structure Intc where
  bcr : Word
  cpr : Nat
  vtba : Word
  intvec : Nat
  intpri : Nat
  req : Bool
  lifo : ShortStack Intc.lifoSize Byte
  psr : Nat → Byte
  flag : Nat → Word
  irqDirty : Bool

namespace Intc

/-! ## The request -/

/-- `flag_get`. -/
def flagGet (ic : Intc) (n : Nat) : Bool := BitWalk.bitAt ic.flag n

/-- `flag_put`. -/
def flagPut (ic : Intc) (n : Nat) (on : Bool) : Intc := { ic with flag := BitWalk.setBit ic.flag n on }

/-- The priority of a source. -/
def pri (ic : Intc) (n : Nat) : Nat := (ic.psr n).toNat

/-- `arbitrate`: the winner and its priority. -/
def arbitrate (ic : Intc) : Nat × Nat :=
  BitWalk.walkWords (fun best n => if best.2 < ic.pri n then (n, ic.pri n) else best) ((nSrc + 31) / 32) ic.flag (0, 0)

/-- `update`. -/
def update (ic : Intc) : Intc :=
  if ic.req then ic
  else if ic.cpr < ic.arbitrate.2 then
    { ic with req := true, intvec := ic.arbitrate.1, intpri := ic.arbitrate.2, irqDirty := true }
  else ic

/-- `push`. -/
def push (ic : Intc) : Intc := { ic with lifo := ic.lifo.push (BitVec.ofNat 8 ic.cpr) }

/-- `pop`, into CPR: an empty LIFO pops 0s. -/
def pop (ic : Intc) : Intc :=
  match ic.lifo.pop with
  | none => { ic with cpr := 0 }
  | some (p, rest) => { ic with cpr := p.toNat, lifo := rest }

/-- `acknowledge`. -/
def acknowledge (ic : Intc) : Intc := ({ ic.push with cpr := ic.intpri, req := false } : Intc).update

/-- `ppc_intc_reset`. The flag of the core is none of its own. -/
def reset (irqDirty : Bool) : Intc where
  bcr := 0
  cpr := priMax.toNat
  vtba := 0
  intvec := 0
  intpri := 0
  req := false
  lifo := .empty (fun _ => 0) (by decide)
  psr := fun _ => 0
  flag := fun _ => 0
  irqDirty := irqDirty

/-- `ppc_intc_set_source`. -/
def setSource (ic : Intc) (source : Nat) (level : Bool) : Intc :=
  if source < nSw ∨ nSrc ≤ source then ic
  else if level then (ic.flagPut source level).update else ic.flagPut source level

/-- `ppc_intc_hw_vectored`. -/
def hwVectored (ic : Intc) : Bool := ic.bcr &&& bcrHven ≠ 0

/-- `ppc_intc_ack`. -/
def ack (ic : Intc) : Nat × Intc := (ic.intvec, if ic.req then ic.acknowledge else ic)

/-! ## Registers -/

/-- `iackr`. -/
def iackr (ic : Intc) : Word :=
  if ic.bcr &&& bcrVtes ≠ 0 then (ic.vtba &&& 0xFFFFF000) ||| BitVec.ofNat 32 ic.intvec <<< 3
  else (ic.vtba &&& 0xFFFFF800) ||| BitVec.ofNat 32 ic.intvec <<< 2

/-- `lane`: the word and the shift of an access within one. -/
def lane (off size : Nat) : Option (Nat × Nat) :=
  if (size ≠ 1 ∧ size ≠ 2 ∧ size ≠ 4) ∨ 4 < off % 4 + size ∨ windowSize < off + size then none
  else some (off - off % 4, (4 - off % 4 - size) * 8)

/-- `mask_of`. -/
def maskOf (size : Nat) : Word := if size = 4 then 0xFFFFFFFF else (1 <<< (8 * size)) - 1

/-- `mapped`. -/
def mapped (base : Nat) : Bool :=
  base = bcrOff || base = cprOff || base = iackrOff || base = eoirOff || base = sscir0Off || base = sscir4Off ||
    (psr0Off ≤ base && base < psr0Off + nSrc)

/-- The word and the shift of an access that is not a bus error. -/
def word (off size : Nat) : Option (Nat × Nat) := (lane off size).filter fun l => mapped l.1

/-- `byte_read`. -/
def byteRead (ic : Intc) (off : Nat) : Byte :=
  if psr0Off ≤ off then if off - psr0Off < nSrc then ic.psr (off - psr0Off) else 0
  else if ic.flagGet (off - sscir0Off) then sscirClr else 0

/-- `byte_write`. -/
def byteWrite (ic : Intc) (off : Nat) (v : Byte) : Intc :=
  if psr0Off ≤ off then
    if off - psr0Off < nSrc then
      { ic with psr := Function.update ic.psr (off - psr0Off) (v &&& priMax.setWidth 8) }
    else ic
  else if v &&& sscirSet ≠ 0 then ic.flagPut (off - sscir0Off) true
  else if v &&& sscirClr ≠ 0 then ic.flagPut (off - sscir0Off) false
  else ic

/-- The word at `base` of a bank with a byte for each entry. -/
def bankRead (ic : Intc) (base : Nat) : Word :=
  (List.range 4).foldl (fun w i => w ||| (ic.byteRead (base + i)).setWidth 32 <<< (24 - 8 * i)) 0

/-- The bytes of a word that a mask selects, into such a bank. -/
def bankWrite (ic : Intc) (base : Nat) (m v : Word) : Intc :=
  (List.range 4).foldl (fun ic i =>
    if (m >>> (24 - 8 * i)) &&& 0xFF ≠ 0 then ic.byteWrite (base + i) ((v >>> (24 - 8 * i)).setWidth 8) else ic) ic

/-- `intc_read`: what is read and the state after it, or a fault. -/
def read (ic : Intc) (off size : Nat) : Option (Word × Intc) :=
  match word off size with
  | none => none
  | some (base, shift) =>
    let out (w : Word) := (w >>> shift) &&& maskOf size
    if base = bcrOff then some (out ic.bcr, ic)
    else if base = cprOff then some (out (BitVec.ofNat 32 ic.cpr), ic)
    else if base = iackrOff then some (out ic.iackr, if !ic.hwVectored && ic.req then ic.acknowledge else ic)
    else if base = eoirOff then some (out 0, ic)
    else some (out (ic.bankRead base), ic)

/-- What a write of `v` under the mask `m` does to the word at `base`. -/
def put (ic : Intc) (base : Nat) (m v : Word) : Intc :=
  if base = bcrOff then { ic with bcr := ((ic.bcr &&& ~~~m) ||| v) &&& (bcrVtes ||| bcrHven) }
  else if base = cprOff then
    if m &&& priMax ≠ 0 then
      -- decided again against the new priority
      { ic with cpr := (((BitVec.ofNat 32 ic.cpr &&& ~~~m) ||| v) &&& priMax).toNat, req := false }
    else ic
  else if base = iackrOff then { ic with vtba := ((ic.vtba &&& ~~~m) ||| v) &&& 0xFFFFF800 }
  else if base = eoirOff then ic.pop
  else ic.bankWrite base m v

/-- `intc_write`: the state after it, or a fault. -/
def write (ic : Intc) (off size : Nat) (val : Word) : Option Intc :=
  match word off size with
  | none => none
  | some (base, shift) =>
    let m := maskOf size <<< shift
    some (ic.put base m (val <<< shift &&& m)).update

/-! ## Operations -/

/-- What happens to a controller. -/
inductive Op where
  | setSource (source : Nat) (level : Bool)
  | read (off size : Nat)
  | write (off size : Nat) (val : Word)
  | ack

def apply (ic : Intc) : Op → Intc
  | .setSource source level => ic.setSource source level
  | .read off size => ((ic.read off size).map Prod.snd).getD ic
  | .write off size val => (ic.write off size val).getD ic
  | .ack => ic.ack.2

/-- The operation acknowledges the request. -/
def acks (ic : Intc) : Op → Bool
  | .read off size => (word off size).any (fun l => l.1 = iackrOff) && !ic.hwVectored && ic.req
  | .ack => ic.req
  | _ => false

/-- A read is an acknowledgement or changes nothing. -/
theorem apply_read (ic : Intc) (off size : Nat) :
    ic.apply (.read off size) = if ic.acks (.read off size) then ic.acknowledge else ic := by
  rw [apply, Intc.read, acks]
  cases word off size with
  | none => rfl
  | some l =>
    obtain ⟨base, shift⟩ := l
    by_cases hb : base = iackrOff
    · subst hb
      simp only [Option.any_some, decide_true, Bool.true_and]
      rfl
    · simp only [Option.any_some, hb, decide_false, Bool.false_and, Bool.false_eq_true, if_false]
      split_ifs <;> rfl

theorem req_of_acks {ic : Intc} {op : Op} (h : ic.acks op = true) : ic.req = true := by
  cases op with
  | setSource source level => exact absurd h Bool.false_ne_true
  | read off size => exact (Bool.and_eq_true_iff.mp h).2
  | write off size val => exact absurd h Bool.false_ne_true
  | ack => exact h

/-! ## What the request says -/

/-- With no request no source is above CPR, and with one its priority is. -/
structure Settled (ic : Intc) : Prop where
  quiet : ic.req = false → ∀ n < nSrc, ic.flagGet n = true → ic.pri n ≤ ic.cpr
  above : ic.req = true → ic.cpr < ic.intpri

/-- The sources that are flagged, in order. -/
def flagged (ic : Intc) : List Nat := (List.range (32 * ((nSrc + 31) / 32))).filter ic.flagGet

theorem arbitrate_eq_scan (ic : Intc) :
    ic.arbitrate = FirstMin.scan (fun n => OrderDual.toDual (ic.pri n)) ic.flagged (0, OrderDual.toDual 0) := by
  rw [arbitrate, BitWalk.walkWords_eq_foldl]
  rfl

theorem mem_flagged {ic : Intc} {n : Nat} (hn : n < nSrc) (hf : ic.flagGet n = true) : n ∈ ic.flagged := by
  rw [flagged, List.mem_filter, List.mem_range]
  exact ⟨hn.trans (by decide), hf⟩

/-- No source is above the winner. -/
theorem pri_le_arbitrate {ic : Intc} {n : Nat} (hn : n < nSrc) (hf : ic.flagGet n = true) :
    ic.pri n ≤ ic.arbitrate.2 := by
  rw [arbitrate_eq_scan]
  rcases FirstMin.scan_cases (f := fun n => OrderDual.toDual (ic.pri n)) ic.flagged (0, OrderDual.toDual 0) with
    ⟨heq, hle⟩ | ⟨-, -, -, hle⟩
  · rw [heq]
    exact hle n (mem_flagged hn hf)
  · exact hle n (mem_flagged hn hf)

theorem update_of_req {ic : Intc} (h : ic.req = true) : ic.update = ic := by
  rw [update, if_pos h]

/-- Once the request has been looked at, nothing is missed. -/
theorem settled_update {ic : Intc} (h : ic.req = true → ic.cpr < ic.intpri) : ic.update.Settled := by
  cases hr : ic.req with
  | true =>
    rw [update_of_req hr]
    exact ⟨fun h' => absurd (hr.symm.trans h') (by simp), fun _ => h hr⟩
  | false =>
    rw [update, hr, if_neg (by simp)]
    split
    · next hlt => exact ⟨fun h' => absurd h' (by simp), fun _ => hlt⟩
    · next hle =>
      refine ⟨fun _ n hn hf => ?_, fun h' => absurd (hr.symm.trans h') (by simp)⟩
      exact (pri_le_arbitrate hn hf).trans (not_lt.mp hle)

theorem settled_acknowledge (ic : Intc) : ic.acknowledge.Settled :=
  settled_update fun h => absurd h (by simp)

theorem cpr_update (ic : Intc) : ic.update.cpr = ic.cpr := by
  rw [update]
  split_ifs <;> rfl

/-- An acknowledgement raises the priority to that of the request. -/
theorem cpr_acknowledge (ic : Intc) : ic.acknowledge.cpr = ic.intpri := by
  rw [acknowledge, cpr_update]

theorem flagGet_flagPut (ic : Intc) (n : Nat) (on : Bool) (k : Nat) :
    (ic.flagPut n on).flagGet k = if k = n then on else ic.flagGet k :=
  BitWalk.bitAt_setBit (by decide) ic.flag n on k

theorem Settled.setSource {ic : Intc} (h : ic.Settled) (source : Nat) (level : Bool) :
    (ic.setSource source level).Settled := by
  rw [Intc.setSource]
  split_ifs with hout hlevel
  · exact h
  · exact settled_update h.above
  · -- a source that goes away leaves less to miss
    refine ⟨fun hr n hn hf => h.quiet hr n hn ?_, h.above⟩
    rw [flagGet_flagPut] at hf
    split_ifs at hf with hn'
    · exact absurd hf hlevel
    · exact hf

theorem Settled.acks {ic : Intc} (h : ic.Settled) {op : Op}
    (hop : ic.apply op = if ic.acks op then ic.acknowledge else ic) : (ic.apply op).Settled := by
  rw [hop]
  split_ifs
  · exact settled_acknowledge ic
  · exact h

/-! ## Writes -/

/-- A controller that differs from another in its sources at most. -/
structure SameCore (ic ic' : Intc) : Prop where
  req : ic'.req = ic.req
  cpr : ic'.cpr = ic.cpr
  intpri : ic'.intpri = ic.intpri
  lifo : ic'.lifo = ic.lifo

theorem SameCore.refl (ic : Intc) : SameCore ic ic := ⟨rfl, rfl, rfl, rfl⟩

theorem SameCore.trans {a b c : Intc} (h : SameCore a b) (h' : SameCore b c) : SameCore a c :=
  ⟨h'.req.trans h.req, h'.cpr.trans h.cpr, h'.intpri.trans h.intpri, h'.lifo.trans h.lifo⟩

theorem sameCore_byteWrite (ic : Intc) (off : Nat) (v : Byte) : SameCore ic (ic.byteWrite off v) := by
  rw [byteWrite]
  split_ifs <;> exact ⟨rfl, rfl, rfl, rfl⟩

/-- What every byte's write keeps a bank's keeps. -/
theorem bankWrite_induction {motive : Intc → Prop} {ic : Intc} (base : Nat) (m v : Word) (h : motive ic)
    (hstep : ∀ ic off b, motive ic → motive (ic.byteWrite off b)) : motive (ic.bankWrite base m v) := by
  refine List.foldlRecOn (List.range 4) _ h fun ic' hic' i _ => ?_
  split_ifs
  · exact hstep ic' _ _ hic'
  · exact hic'

theorem sameCore_bankWrite (ic : Intc) (base : Nat) (m v : Word) : SameCore ic (ic.bankWrite base m v) :=
  bankWrite_induction base m v (.refl ic) fun ic' off b h => h.trans (sameCore_byteWrite ic' off b)

/-- The write ends the service of an interrupt. -/
def Op.eoir : Op → Bool
  | .write off size _ => (word off size).any fun l => l.1 = eoirOff
  | _ => false

/-- An end of service does not bring CPR up to a request that is asserted. -/
def Fine (ic : Intc) (op : Op) : Prop := op.eoir = true → ic.req = true → ic.pop.cpr < ic.intpri

theorem pop_req (ic : Intc) : ic.pop.req = ic.req := by
  rw [pop]
  split <;> rfl

theorem pop_intpri (ic : Intc) : ic.pop.intpri = ic.intpri := by
  rw [pop]
  split <;> rfl

/-- A write other than of EOIR leaves the request above CPR or drops it. -/
theorem above_put {ic : Intc} (h : ic.req = true → ic.cpr < ic.intpri) {base : Nat} (hb : base ≠ eoirOff) (m v : Word)
    (hr : (ic.put base m v).req = true) : (ic.put base m v).cpr < (ic.put base m v).intpri := by
  rw [put] at hr ⊢
  split_ifs at hr ⊢ with hbcr hcpr hm hiackr
  · exact h hr
  · exact h hr
  · exact h hr
  · have hsame := sameCore_bankWrite ic base m v
    rw [hsame.req] at hr
    rw [hsame.cpr, hsame.intpri]
    exact h hr

theorem Settled.write {ic : Intc} (h : ic.Settled) {off size : Nat} (val : Word) (hb : (Op.write off size val).eoir = false) :
    (ic.apply (.write off size val)).Settled := by
  rw [Op.eoir] at hb
  rw [apply, Intc.write]
  cases hw : word off size with
  | none => exact h
  | some l =>
    rw [hw] at hb
    exact settled_update (above_put h.above (by simpa using hb) _ _)

/-- At an end of service the request is left as it was. -/
theorem settled_eoir_iff {ic : Intc} {off size : Nat} (val : Word)
    (hb : (Op.write off size val).eoir = true) :
    (ic.apply (.write off size val)).Settled ↔ (ic.req = true → ic.pop.cpr < ic.intpri) := by
  rw [Op.eoir] at hb
  rw [apply, Intc.write]
  cases hw : word off size with
  | none => simp [hw] at hb
  | some l =>
    obtain ⟨base, shift⟩ := l
    have hbase : base = eoirOff := by simpa [hw] using hb
    subst hbase
    change ic.pop.update.Settled ↔ _
    constructor
    · intro hset hr
      have hr' : ic.pop.req = true := (pop_req ic).trans hr
      rw [update_of_req hr'] at hset
      rw [← pop_intpri]
      exact hset.above hr'
    · intro hlt
      refine settled_update fun hr => ?_
      rw [pop_intpri]
      exact hlt ((pop_req ic).symm.trans hr)

/-! ## Whole runs -/

/-- The controller after operations since reset, none of which brings CPR up to a request that is asserted. -/
inductive Run : Intc → Prop where
  | reset (irqDirty : Bool) : Run (reset irqDirty)
  | step {ic : Intc} {op : Op} : Run ic → ic.Fine op → Run (ic.apply op)

theorem Settled.apply_iff {ic : Intc} (h : ic.Settled) (op : Op) : (ic.apply op).Settled ↔ ic.Fine op := by
  cases op with
  | setSource source level => exact iff_of_true (h.setSource source level) (by simp [Fine, Op.eoir])
  | read off size => exact iff_of_true (h.acks (apply_read ic off size)) (by simp [Fine, Op.eoir])
  | ack => exact iff_of_true (h.acks rfl) (by simp [Fine, Op.eoir])
  | write off size val =>
    cases hb : (Op.write off size val).eoir with
    | false => exact iff_of_true (h.write val hb) (by simp [Fine, hb])
    | true =>
      rw [settled_eoir_iff val hb, Fine]
      exact ⟨fun hlt _ => hlt, fun hfine => hfine hb⟩

theorem settled_reset (irqDirty : Bool) : (reset irqDirty).Settled := by
  refine ⟨fun _ n _ hf => ?_, fun hr => absurd hr (by simp [Intc.reset])⟩
  exact absurd hf (by simp [flagGet, Intc.reset, BitWalk.bitAt])

theorem Run.settled {ic : Intc} (h : Run ic) : ic.Settled := by
  induction h with
  | reset irqDirty => exact settled_reset irqDirty
  | step _ hfine ih => exact (ih.apply_iff _).mpr hfine

/-- With no request no source is above CPR, and with one its priority is above CPR, which an acknowledgement then raises;
and that stays so after an operation exactly if it is no end of service that brings CPR up to the request. -/
theorem Run.serves {ic : Intc} (h : Run ic) :
    (ic.req = false → ∀ n < nSrc, ic.flagGet n = true → ic.pri n ≤ ic.cpr) ∧
      (ic.req = true → ic.cpr < ic.intpri ∧ ic.cpr < ic.acknowledge.cpr) ∧
      ∀ op, (ic.apply op).Settled ↔ ic.Fine op := by
  refine ⟨h.settled.quiet, fun hr => ⟨h.settled.above hr, ?_⟩, h.settled.apply_iff⟩
  rw [cpr_acknowledge]
  exact h.settled.above hr

/-- Source 8 asks at 12 while CPR is 10. -/
theorem serves_source :
    let ic := (((reset false).apply (.write 0x48 1 12)).apply (.write 0x0B 1 10)).apply (.setSource 8 true)
    ic.req = true ∧ ic.cpr < ic.intpri ∧ ic.cpr < ic.acknowledge.cpr ∧ (ic.apply .ack).Settled := by
  have hpsr : Run ((reset false).apply (.write 0x48 1 12)) := .step (.reset false) fun h => absurd h (by decide)
  have hcpr := hpsr.step (fun h => absurd h (by decide) : Intc.Fine _ (.write 0x0B 1 10))
  have hsrc := hcpr.step (fun h => absurd h (by decide) : Intc.Fine _ (.setSource 8 true))
  have hreq : ((((reset false).apply (.write 0x48 1 12)).apply (.write 0x0B 1 10)).apply (.setSource 8 true)).req =
      true := by decide +kernel
  obtain ⟨-, habove, hop⟩ := hsrc.serves
  exact ⟨hreq, (habove hreq).1, (habove hreq).2, (hop .ack).mpr fun h => absurd h (by decide)⟩

/-- What is asserted is not above CPR here: source 8 is served at 12 over 10, CPR is lowered, source 9 asks at 5, and the
end of service brings CPR back to 10. -/
def lateEnd : List Op :=
  [.write 0x48 1 12, .write 0x49 1 5, .write 0x0B 1 10, .setSource 8 true, .read 0x10 4, .setSource 8 false,
    .write 0x0B 1 0, .setSource 9 true, .write 0x18 4 0]

theorem request_below_cpr :
    (lateEnd.foldl apply (reset false)).req = true ∧ (lateEnd.foldl apply (reset false)).intpri = 5 ∧
      (lateEnd.foldl apply (reset false)).cpr = 10 := by
  decide +kernel

end Intc

end Emu.Ppc
