-- SUMMARY: SET1, NOT1, CLR1 and TST1 in their three implementations, and exactly where they are atomic and agree.
import Emu.G4mh.Access
import Emu.Lib.Masks

/-! # Bit operations

A bit operation loads a byte, sets Z from the bit as it was, and stores the byte with the bit changed. The checks of the
protection unit are made for both accesses before anything moves. The bus's are not: memory that may be read and not written
refuses the store when Z has already been set. Where cores run at once, the operation is one host atomic on what is RAM, and
then the bus is not asked at all. -/

/-- A device answers at an address. -/
def Emu.Bus.deviceAt {δ : Type} (b : Emu.Bus δ) (a : Emu.Word) : Bool :=
  match b.find a with
  | none => false
  | some r => r.kind = .mmio || r.kind = .passthru

namespace Emu.G4mh

def Exc.dRmw : Exc := 1 <<< 22

/-- The four operations, as both encodings number them. -/
inductive BitOp where
  | set
  | not
  | clr
  | tst
  deriving DecidableEq, Repr

namespace BitOp

/-- The operation's number. -/
def num : BitOp → Word
  | .set => 0
  | .not => 1
  | .clr => 2
  | .tst => 3

def ofNum (n : Word) : BitOp := if n = 0 then .set else if n = 1 then .not else if n = 2 then .clr else .tst

/-- What is written back. -/
def apply {w : Nat} (op : BitOp) (v mask : BitVec w) : BitVec w :=
  match op with
  | .set => v ||| mask
  | .not => v ^^^ mask
  | .clr => v &&& ~~~mask
  | .tst => v

end BitOp

/-- The mask of a bit number, of which the low three bits count. -/
def bitMask (bit : Word) : Word := (1 : Word) <<< (bit &&& 7).toNat

namespace Cpu

variable {δ : Type}

def pswZ : Word := 1

/-- Z set or cleared. -/
def withZ (c : Cpu δ) (z : Bool) : Cpu δ := { c with psw := if z then c.psw ||| pswZ else c.psw &&& ~~~pswZ }

/-! ## The implementations -/

/-- `g4mh_rmw_ptr`: the host byte of an access to plain RAM that the protection unit permits. -/
def rmwPtr (c : Cpu δ) (addr : Word) (size : Nat) (write : Bool) : Except Exc (Option Ptr) × Cpu δ :=
  if addr &&& (BitVec.ofNat 32 size - 1) ≠ 0 then (.error Exc.mae, c.setSr 2 srMea addr)
  else
    let rdBad := c.refused addr size .read
    let wrBad := write && c.refused addr size .write
    if rdBad || wrBad then (.error (c.mdp rdBad wrBad Exc.dRmw), c.setSr 2 srMea addr)
    else
      match c.bus.find addr with
      | none => (.ok none, c)
      | some r =>
        if r.kind ≠ .ram ∨ r.host = 0 ∨ addr - r.base > r.size - BitVec.ofNat 32 size then (.ok none, c)
        else (.ok (some (r.hostAt (addr - r.base))), c)

/-- The load, Z, and the store: what one core at a time does. -/
def loadStore (c : Cpu δ) (op : BitOp) (adr bit : Word) : Except Exc Unit × Cpu δ :=
  match c.load adr 1 false with
  | (.error e, c') => (.error e, c')
  | (.ok token, c') =>
    let c' := c'.withZ (token &&& bitMask bit = 0)
    if op = .tst then (.ok (), c') else c'.store adr 1 (op.apply token (bitMask bit))

/-- The host atomic. -/
def atomic (c : Cpu δ) (op : BitOp) (p : Ptr) (bit : Word) : Cpu δ :=
  let m : Byte := (bitMask bit).setWidth 8
  let old := c.bus.mem p
  { c.withZ (old &&& m = 0) with bus := { c.bus with mem := Function.update c.bus.mem p (op.apply old m) } }

/-- `g4mh_bitop`, built for cores that run at once or for one at a time. -/
def bitop (smp : Bool) (c : Cpu δ) (op : BitOp) (adr bit : Word) : Except Exc Unit × Cpu δ :=
  match if smp ∧ op ≠ .tst then c.rmwPtr adr 1 true else (.ok none, c) with
  | (.error e, c') => (.error e, c')
  | (.ok (some p), c') => (.ok (), c'.atomic op p bit)
  | (.ok none, c') =>
    match if op ≠ .tst ∧ c'.mpuActive = true then c'.rmwPtr adr 1 true else (.ok none, c') with
    | (.error e, c'') => (.error e, c'')
    | (.ok _, c'') => c''.loadStore op adr bit

/-- The end of the instruction: the exception that it raised, entered. -/
def trapped (pc : Word) : Except Exc Unit × Cpu δ → Option Exc × Cpu δ
  | (.ok _, c) => (none, c)
  | (.error e, c) => (some e, c.exception e pc)

/-- `g4mh_ir_bitop_helper`. -/
def irBitopHelper (smp : Bool) (c : Cpu δ) (adr opBit : Word) : Option Exc × Cpu δ :=
  trapped c.pc (bitop smp c (.ofNum ((opBit >>> 3) &&& 3)) adr (opBit &&& 7))

/-- `EMU_IR_BITOP_*` in `interp_once`, with the frontend's accessors. -/
def irBitop (c : Cpu δ) (op : BitOp) (adr bit : Word) : Option Exc × Cpu δ :=
  match c.load adr 1 false with
  | (.error e, c') => (some e, c'.exception e c'.pc)
  | (.ok token, c') =>
    let c' := c'.withZ (token &&& bitMask bit = 0)
    if op = .tst then (none, c')
    else
      match c'.store adr 1 (op.apply token (bitMask bit)) with
      | (.error e, c'') => (some e, c''.exception e c''.pc)
      | (.ok _, c'') => (none, c'')

/-- The ways to a bit operation. -/
inductive BitPath where
  | interp (smp : Bool)
  | helper (smp : Bool)
  | lowered

/-- `lower_bitop` does not lower it while the protection unit is on. -/
def BitPath.Taken (c : Cpu δ) : BitPath → Prop
  | .lowered => c.mpuActive = false
  | _ => True

def BitPath.run (c : Cpu δ) (op : BitOp) (adr bit : Word) : BitPath → Option Exc × Cpu δ
  | .interp smp => trapped c.pc (bitop smp c op adr bit)
  | .helper smp => irBitopHelper smp c adr ((bit &&& (7 : Word)) ||| (op.num <<< 3))
  | .lowered => irBitop c op adr bit

/-! ## What is asked of them -/

/-- PSW as an exception saved it. -/
def savedPsw (c : Cpu δ) (e : Exc) : Word := if Exc.isFe e then c.sr 0 srFepsw else c.sr 0 srEipsw

/-- The addressed bit as it was: of the byte in memory, or of what a device gives when it is read. -/
def addressedBit (c : Cpu δ) (adr bit : Word) : Bool :=
  let k := (bit &&& 7).toNat
  if c.bus.deviceAt adr then
    match (c.load adr 1 false).1 with
    | .ok token => token.getLsbD k
    | .error _ => false
  else (c.bus.mem (c.bus.hostOf adr)).getLsbD k

/-- The addressed bit is what the operation makes of it, and nothing else of memory has changed. -/
def OnlyBit (c : Cpu δ) (op : BitOp) (adr bit : Word) (mem : HostMem) : Prop :=
  let p := c.bus.hostOf adr
  let k := (bit &&& 7).toNat
  (∀ q, q ≠ p → mem q = c.bus.mem q) ∧
    ∀ i < 8, (mem p).getLsbD i =
      if i = k then (op.apply (BitVec.ofBool ((c.bus.mem p).getLsbD k)) 1).getLsbD 0 else (c.bus.mem p).getLsbD i

/-- An exception leaves memory and saves PSW as it was. Otherwise Z is the complement of the bit as it was, and only the bit has
changed. What an access to a device does to memory is the device's own. -/
def Right (c : Cpu δ) (op : BitOp) (adr bit : Word) (res : Option Exc × Cpu δ) : Prop :=
  match res.1 with
  | some e => (c.bus.deviceAt adr = false → res.2.bus.mem = c.bus.mem) ∧ res.2.savedPsw e = c.psw
  | none =>
    (res.2.psw &&& pswZ ≠ 0 ↔ c.addressedBit adr bit = false) ∧
      (c.bus.deviceAt adr = false → OnlyBit c op adr bit res.2.bus.mem)

/-- Every path is right, and all give the same. -/
def AllRight (c : Cpu δ) (op : BitOp) (adr bit : Word) : Prop :=
  (∀ path : BitPath, path.Taken c → Right c op adr bit (path.run c op adr bit)) ∧
    ∀ path path' : BitPath, path.Taken c → path'.Taken c → path.run c op adr bit = path'.run c op adr bit

end Cpu

end Emu.G4mh

/-! ## Bytes of memory -/

namespace Emu.Bus

variable {δ : Type} {b : Bus δ} {a : Word}

/-- A byte may be read. -/
def byteReadable (b : Bus δ) (a : Word) : Bool := (b.check a 1 permR).isSome

/-- A byte of RAM may be written. -/
def byteWritable (b : Bus δ) (a : Word) : Bool :=
  match b.check a 1 permW with
  | none => false
  | some (r, _) => r.kind = .ram

/-- A byte of RAM that is host memory, whether or not it may be read or written. -/
def hostRam (b : Bus δ) (a : Word) : Bool :=
  match b.find a with
  | none => false
  | some r => r.kind = .ram && r.host ≠ 0

/-- The byte behind an address set. -/
def putByte (b : Bus δ) (a : Word) (v : Byte) : Bus δ := { b with mem := Function.update b.mem (b.hostOf a) v }

theorem kind_of_deviceAt (h : b.deviceAt a = false) {r : Region} (hr : b.find a = some r) : r.kind = .ram ∨ r.kind = .rom := by
  rw [deviceAt, hr] at h
  cases hkind : r.kind with
  | ram => exact .inl rfl
  | rom => exact .inr rfl
  | mmio => simp [hkind] at h
  | passthru => simp [hkind] at h

theorem hostRam_of_deviceAt (h : b.deviceAt a = true) : b.hostRam a = false := by
  rw [deviceAt] at h
  rw [hostRam]
  cases hr : b.find a with
  | none => rfl
  | some r =>
    rw [hr] at h
    cases hkind : r.kind with
    | ram => simp [hkind] at h
    | rom => simp [hkind]
    | mmio => simp [hkind]
    | passthru => simp [hkind]

theorem order_one (b : Bus δ) (v : Word) : b.order v 1 = v := by
  rw [order]
  split_ifs <;> rfl

theorem read_byte (h : b.deviceAt a = false) :
    b.read a 1 = if b.byteReadable a then (.ok ((b.mem (b.hostOf a)).setWidth 32), b) else (.error .load, b) := by
  rw [read, byteReadable]
  cases hcheck : b.check a 1 permR with
  | none => rfl
  | some ro =>
    obtain ⟨r, off⟩ := ro
    have hload : b.mem.load (r.hostAt off) 1 = (b.mem (b.hostOf a)).setWidth 32 := by
      rw [hostOf_of_check hcheck, HostMem.load, HostMem.load]
      exact BitVec.or_zero
    dsimp only
    rw [order_one, hload]
    rcases kind_of_deviceAt h (check_some hcheck).1 with hkind | hkind
    · rw [hkind]
      rfl
    · rw [hkind]
      rfl

theorem write_byte (h : b.deviceAt a = false) (v : Word) :
    b.write a 1 v = if b.byteWritable a then (.ok (), b.putByte a (v.setWidth 8)) else (.error .store, b) := by
  rw [write, byteWritable, putByte]
  cases hcheck : b.check a 1 permW with
  | none => rfl
  | some ro =>
    obtain ⟨r, off⟩ := ro
    dsimp only
    rw [order_one, hostOf_of_check hcheck]
    rcases kind_of_deviceAt h (check_some hcheck).1 with hkind | hkind
    · simp only [hkind, decide_true, if_true]
      rfl
    · simp only [hkind, reduceCtorEq, decide_false, Bool.false_eq_true, if_false]

end Emu.Bus

namespace Emu.G4mh.Cpu

variable {δ : Type} {c : Cpu δ} {adr : Word}

theorem one_aligned (a : Word) : ¬a &&& (BitVec.ofNat 32 1 - 1) ≠ 0 := by
  rw [not_not]
  exact BitVec.and_zero

theorem load_byte (h : c.bus.deviceAt adr = false) (hread : c.refused adr 1 .read = false) :
    c.load adr 1 false =
      if c.bus.byteReadable adr then (.ok ((c.bus.mem (c.bus.hostOf adr)).setWidth 32), c)
      else (.error (Exc.ofFault .load), c.setSr 2 srMea adr) := by
  rw [load, if_neg (one_aligned adr), hread, if_neg Bool.false_ne_true, Bus.read_byte h]
  cases c.bus.byteReadable adr <;> rfl

theorem store_byte (h : c.bus.deviceAt adr = false) (hwrite : c.refused adr 1 .write = false) (v : Word) :
    c.store adr 1 v =
      if c.bus.byteWritable adr then (.ok (), { c with bus := c.bus.putByte adr (v.setWidth 8) })
      else (.error (Exc.ofFault .store), c.setSr 2 srMea adr) := by
  rw [store, if_neg (one_aligned adr), hwrite, if_neg Bool.false_ne_true, Bus.write_byte h]
  cases c.bus.byteWritable adr <;> rfl

/-- Z has no part in what the protection unit permits. -/
theorem refused_withZ (c : Cpu δ) (z : Bool) (adr : Word) (size : Nat) (acc : Mpu.Acc) :
    (c.withZ z).refused adr size acc = c.refused adr size acc := by
  have hmode : (c.withZ z).userMode = c.userMode := by
    rw [userMode, userMode, withZ]
    cases z
    · change decide (c.psw &&& ~~~pswZ &&& pswUm ≠ 0) = _
      rw [BitVec.and_assoc, show ~~~pswZ &&& pswUm = pswUm by decide]
    · change decide ((c.psw ||| pswZ) &&& pswUm ≠ 0) = _
      rw [BitVec.and_comm, BitVec.and_or_distrib_left, show pswUm &&& pswZ = 0 by decide, BitVec.and_comm pswUm]
      have hzero (x : Word) : x ||| (0 : Word) = x := BitVec.or_zero
      rw [hzero]
  rw [refused, refused, hmode]
  rfl

/-! ## The outcome -/

/-- The operation's permissions: one of the two accesses is refused. -/
def refusedRmw (c : Cpu δ) (adr : Word) : Bool := c.refused adr 1 .read || c.refused adr 1 .write

/-- The bit as it was. -/
def oldBit (c : Cpu δ) (adr bit : Word) : Bool := (c.bus.mem (c.bus.hostOf adr)).getLsbD (bit &&& 7).toNat

/-- The operation done. -/
def done (c : Cpu δ) (op : BitOp) (adr bit : Word) : Cpu δ := c.atomic op (c.bus.hostOf adr) bit

theorem rmwPtr_refused (h : c.refusedRmw adr = true) :
    c.rmwPtr adr 1 true = (.error (c.mdp (c.refused adr 1 .read) (c.refused adr 1 .write) Exc.dRmw), c.setSr 2 srMea adr) := by
  rw [rmwPtr, if_neg (one_aligned adr), Bool.true_and]
  exact if_pos h

theorem rmwPtr_permitted (h : c.refusedRmw adr = false) :
    c.rmwPtr adr 1 true = (.ok (if c.bus.hostRam adr then some (c.bus.hostOf adr) else none), c) := by
  have hnot : ¬(c.refused adr 1 .read || c.refused adr 1 .write) = true := by
    rw [← refusedRmw, h]
    exact Bool.false_ne_true
  rw [rmwPtr, if_neg (one_aligned adr), Bool.true_and]
  refine (if_neg hnot).trans ?_
  rw [Bus.hostRam, Bus.hostOf]
  cases hfind : c.bus.find adr with
  | none => rfl
  | some r =>
    have hin : ¬adr - r.base > r.size - BitVec.ofNat 32 1 := by
      have hlt := (Bus.find_some hfind).2
      rw [Region.inRegion, decide_eq_true_iff] at hlt
      bv_omega
    dsimp only
    by_cases hkind : r.kind = .ram
    · by_cases hhost : r.host = 0
      · rw [if_pos (.inr (.inl hhost))]
        simp [hhost]
      · have hall : ¬(r.kind ≠ .ram ∨ r.host = 0 ∨ adr - r.base > r.size - BitVec.ofNat 32 1) := by
          rintro (hk | hh | ho)
          · exact hk hkind
          · exact hhost hh
          · exact hin ho
        rw [if_neg hall]
        simp only [hkind, ne_eq, hhost, not_false_eq_true, decide_true, Bool.and_true, if_true]
    · rw [if_pos (.inl hkind)]
      simp [hkind]

theorem bitNumber_lt (bit : Word) : (bit &&& 7).toNat < 8 := by
  rw [BitVec.toNat_and]
  exact Nat.lt_of_le_of_lt Nat.and_le_right (by decide)

theorem bitMask_word (bit : Word) : bitMask bit = BitVec.twoPow 32 (bit &&& 7).toNat := (BitVec.twoPow_eq ..).symm

theorem bitMask_byte (bit : Word) : (bitMask bit).setWidth 8 = BitVec.twoPow 8 (bit &&& 7).toNat := by
  have hall : ∀ k : Fin 8, (BitVec.twoPow 32 k.val).setWidth 8 = BitVec.twoPow 8 k.val := by decide
  rw [bitMask_word]
  exact hall ⟨_, bitNumber_lt bit⟩

theorem decide_and_twoPow {w k : Nat} (v : BitVec w) (hk : k < w) :
    decide (v &&& BitVec.twoPow w k = 0) = !v.getLsbD k := by
  have hzero := Masks.and_twoPow_eq_zero (x := v) hk
  cases hv : v.getLsbD k
  · exact decide_eq_true (hzero.mpr hv)
  · exact decide_eq_false fun h => Bool.false_ne_true ((hzero.mp h).symm.trans hv)

/-- Z from the byte as it is loaded. -/
theorem tokenTest (c : Cpu δ) (adr bit : Word) :
    decide ((c.bus.mem (c.bus.hostOf adr)).setWidth 32 &&& bitMask bit = 0) = !c.oldBit adr bit := by
  have hk := bitNumber_lt bit
  rw [bitMask_word, decide_and_twoPow _ (by omega), BitVec.getLsbD_setWidth, decide_eq_true (by omega), Bool.true_and, oldBit]

/-- Z from the byte as the atomic gives it. -/
theorem byteTest (c : Cpu δ) (adr bit : Word) :
    decide (c.bus.mem (c.bus.hostOf adr) &&& (bitMask bit).setWidth 8 = 0) = !c.oldBit adr bit := by
  rw [bitMask_byte, decide_and_twoPow _ (bitNumber_lt bit), oldBit]

theorem setWidth_apply (op : BitOp) (v mask : Word) :
    (op.apply v mask).setWidth 8 = op.apply (v.setWidth 8 : Byte) (mask.setWidth 8) := by
  cases op with
  | set => exact BitVec.setWidth_or
  | not => exact BitVec.setWidth_xor
  | clr => rw [BitOp.apply, BitOp.apply, BitVec.setWidth_and, BitVec.setWidth_not (by decide)]
  | tst => rfl

theorem done_eq (c : Cpu δ) (op : BitOp) (adr bit : Word) :
    let token : Word := (c.bus.mem (c.bus.hostOf adr)).setWidth 32
    c.done op adr bit =
      { c.withZ (!c.oldBit adr bit) with bus := c.bus.putByte adr ((op.apply token (bitMask bit)).setWidth 8) } := by
  have hwidth : ((c.bus.mem (c.bus.hostOf adr)).setWidth 32).setWidth 8 = c.bus.mem (c.bus.hostOf adr) := by
    rw [BitVec.setWidth_setWidth_of_le _ (by decide), BitVec.setWidth_eq]
  intro token
  rw [done, atomic, Bus.putByte, setWidth_apply, hwidth, ← byteTest]

theorem loadStore_eq (h : c.bus.deviceAt adr = false) (hperm : c.refusedRmw adr = false) {op : BitOp} (hop : op ≠ .tst)
    (bit : Word) :
    c.loadStore op adr bit =
      if ¬c.bus.byteReadable adr then (.error (Exc.ofFault .load), c.setSr 2 srMea adr)
      else if c.bus.byteWritable adr then (.ok (), c.done op adr bit)
      else (.error (Exc.ofFault .store), (c.withZ (!c.oldBit adr bit)).setSr 2 srMea adr) := by
  rw [refusedRmw, Bool.or_eq_false_iff] at hperm
  rw [loadStore, load_byte h hperm.1]
  by_cases hread : c.bus.byteReadable adr = true
  · have hwrite : (c.withZ (!c.oldBit adr bit)).refused adr 1 .write = false := (refused_withZ ..).trans hperm.2
    rw [if_pos hread, if_neg (not_not.mpr hread)]
    dsimp only
    rw [tokenTest, if_neg hop, store_byte (c := c.withZ _) h hwrite, done_eq]
    rfl
  · rw [if_neg hread, if_pos hread]

/-- TST1 loads and sets Z. -/
theorem loadStore_tst (h : c.bus.deviceAt adr = false) (bit : Word) :
    c.loadStore .tst adr bit =
      if c.refused adr 1 .read then (.error (c.mdp true false 0), c.setSr 2 srMea adr)
      else if c.bus.byteReadable adr then (.ok (), c.withZ (!c.oldBit adr bit))
      else (.error (Exc.ofFault .load), c.setSr 2 srMea adr) := by
  rw [loadStore]
  cases hperm : c.refused adr 1 .read
  · rw [load_byte h hperm, if_neg Bool.false_ne_true]
    by_cases hread : c.bus.byteReadable adr = true
    · rw [if_pos hread, if_pos hread]
      dsimp only
      rw [tokenTest, if_pos rfl]
    · rw [if_neg hread, if_neg hread]
  · rw [load, if_neg (one_aligned adr), hperm]
    rfl

theorem bitop_eq (smp : Bool) {op : BitOp} (hop : op ≠ .tst) (bit : Word) :
    bitop smp c op adr bit =
      if c.refusedRmw adr then
        (.error (c.mdp (c.refused adr 1 .read) (c.refused adr 1 .write) Exc.dRmw), c.setSr 2 srMea adr)
      else if smp && c.bus.hostRam adr then (.ok (), c.done op adr bit)
      else c.loadStore op adr bit := by
  cases hperm : c.refusedRmw adr
  · -- permitted: the second look, if it is made, finds the same
    have hsecond : (match if op ≠ .tst ∧ c.mpuActive = true then c.rmwPtr adr 1 true else (.ok none, c) with
        | (.error e, c'') => (.error e, c'')
        | (.ok _, c'') => c''.loadStore op adr bit) = c.loadStore op adr bit := by
      rw [rmwPtr_permitted hperm]
      split_ifs <;> rfl
    rw [bitop, rmwPtr_permitted hperm, if_neg Bool.false_ne_true]
    cases smp
    · rw [if_neg (by simp), Bool.false_and, if_neg Bool.false_ne_true]
      exact hsecond
    · rw [if_pos ⟨rfl, hop⟩, Bool.true_and]
      cases c.bus.hostRam adr
      · exact hsecond
      · rfl
  · have hactive : c.mpuActive = true := by
      rw [refusedRmw, refused, refused, ← Bool.and_or_distrib_left, Bool.and_eq_true] at hperm
      exact hperm.1
    rw [bitop, rmwPtr_refused hperm]
    cases smp
    · rw [if_neg (by simp)]
      dsimp only
      rw [if_pos ⟨hop, hactive⟩, rmwPtr_refused hperm]
      rfl
    · rw [if_pos ⟨rfl, hop⟩]
      rfl

theorem bitop_tst (smp : Bool) (c : Cpu δ) (adr bit : Word) : bitop smp c .tst adr bit = c.loadStore .tst adr bit := by
  rw [bitop, if_neg (by simp)]
  dsimp only
  rw [if_neg (by simp)]

/-! ## Right or not -/

theorem savedPsw_exception (c : Cpu δ) (e : Exc) (pc : Word) : (c.exception e pc).savedPsw e = c.psw := by
  change (if Exc.isFe e then (c.saveContext e pc).sr 0 srFepsw else (c.saveContext e pc).sr 0 srEipsw) = c.psw
  rw [saveContext]
  split_ifs <;> simp [srFepsw, srFeic, srEipsw, srEiic]

/-- An exception is right if what was done before it left memory and PSW. -/
theorem right_error {c₁ : Cpu δ} (op : BitOp) (bit : Word) (e : Exc) (pc : Word) :
    Right c op adr bit (trapped pc (.error e, c₁)) ↔
      (c.bus.deviceAt adr = false → c₁.bus.mem = c.bus.mem) ∧ c₁.psw = c.psw := by
  change (_ → (c₁.exception e pc).bus.mem = c.bus.mem) ∧ (c₁.exception e pc).savedPsw e = c.psw ↔ _
  rw [savedPsw_exception, exception, (exceptionTo_rest ..).1]

theorem right_error_mea (op : BitOp) (bit : Word) (e : Exc) (pc : Word) :
    Right c op adr bit (trapped pc (.error e, c.setSr 2 srMea adr)) := (right_error op bit e pc).mpr ⟨fun _ => rfl, rfl⟩

theorem withZ_ne_zero (c : Cpu δ) (z : Bool) : (c.withZ z).psw &&& pswZ ≠ 0 ↔ z = true := by
  cases z
  · have hclear : c.psw &&& ~~~pswZ &&& pswZ = 0 := by
      rw [BitVec.and_assoc, show ~~~pswZ &&& pswZ = 0 by decide]
      exact BitVec.and_zero
    exact iff_of_false (not_not.mpr hclear) Bool.false_ne_true
  · have hset : (c.psw ||| pswZ) &&& pswZ = pswZ := Masks.or_and_self_right ..
    refine iff_of_true ?_ rfl
    change (c.psw ||| pswZ) &&& pswZ ≠ 0
    rw [hset]
    decide

theorem getLsbD_apply (op : BitOp) (v : Byte) {k i : Nat} (hi : i < 8) :
    (op.apply v (BitVec.twoPow 8 k)).getLsbD i =
      if i = k then (op.apply (BitVec.ofBool (v.getLsbD k)) 1).getLsbD 0 else v.getLsbD i := by
  have hmask : (BitVec.twoPow 8 k).getLsbD i = decide (k = i) := by
    rw [BitVec.getLsbD_twoPow]
    by_cases hk : k = i
    · subst hk
      simp [hi]
    · simp [hk]
  by_cases hk : i = k
  · subst hk
    rw [decide_eq_true rfl] at hmask
    rw [if_pos rfl]
    cases op <;>
      simp only [BitOp.apply, BitVec.getLsbD_or, BitVec.getLsbD_xor, BitVec.getLsbD_and, BitVec.getLsbD_not, hmask, hi] <;>
      cases v.getLsbD i <;> rfl
  · rw [decide_eq_false fun h => hk h.symm] at hmask
    rw [if_neg hk]
    cases op <;>
      simp only [BitOp.apply, BitVec.getLsbD_or, BitVec.getLsbD_xor, BitVec.getLsbD_and, BitVec.getLsbD_not, hmask, hi] <;>
      simp

theorem addressedBit_memory (h : c.bus.deviceAt adr = false) (bit : Word) : c.addressedBit adr bit = c.oldBit adr bit := by
  rw [addressedBit, h, oldBit]
  rfl

/-- On memory, the operation done is right. -/
theorem right_done (h : c.bus.deviceAt adr = false) (op : BitOp) (bit : Word) :
    Right c op adr bit (none, c.done op adr bit) := by
  refine ⟨?_, fun _ => ⟨fun q hq => Function.update_of_ne hq _ _, fun i hi => ?_⟩⟩
  · change (c.withZ (decide (c.bus.mem (c.bus.hostOf adr) &&& (bitMask bit).setWidth 8 = 0))).psw &&& pswZ ≠ 0 ↔ _
    rw [withZ_ne_zero, byteTest, Bool.not_eq_true', addressedBit_memory h]
  · change (Function.update c.bus.mem (c.bus.hostOf adr) _ (c.bus.hostOf adr)).getLsbD i = _
    rw [Function.update_self, bitMask_byte]
    exact getLsbD_apply op _ hi

theorem done_tst (c : Cpu δ) (adr bit : Word) : c.done .tst adr bit = c.withZ (!c.oldBit adr bit) := by
  rw [done, atomic, byteTest, BitOp.apply, Function.update_eq_self]
  rfl

/-! ## The paths -/

/-- Of the bit number, the mask alone is used. -/
theorem bitop_congr (smp : Bool) (c : Cpu δ) (op : BitOp) (adr : Word) {bit bit' : Word} (h : bitMask bit = bitMask bit') :
    bitop smp c op adr bit = bitop smp c op adr bit' := by
  simp only [bitop, loadStore, atomic, h]

/-- The helper unpacks what the lowering packed. -/
theorem run_helper (c : Cpu δ) (op : BitOp) (adr bit : Word) (smp : Bool) :
    (BitPath.helper smp).run c op adr bit = (BitPath.interp smp).run c op adr bit := by
  have hlow : (bit &&& 7) &&& 7 = bit &&& 7 := by rw [BitVec.and_assoc, BitVec.and_self]
  have hunpack : ∀ (op : BitOp) (k : Fin 8), BitOp.ofNum (((BitVec.ofNat 32 k ||| (op.num <<< 3)) >>> 3) &&& 3) = op ∧
      (BitVec.ofNat 32 k ||| (op.num <<< 3)) &&& 7 = BitVec.ofNat 32 k := by
    intro op
    cases op <;> decide
  obtain ⟨hop, hbit⟩ := hunpack op ⟨_, bitNumber_lt bit⟩
  rw [BitVec.ofNat_toNat, BitVec.setWidth_eq] at hop hbit
  change trapped c.pc (bitop smp c (.ofNum _) adr _) = trapped c.pc (bitop smp c op adr bit)
  have hmask : bitMask (bit &&& 7) = bitMask bit := congrArg (fun b => (1 : Word) <<< b.toNat) hlow
  rw [hop, hbit, bitop_congr smp c op adr hmask]

theorem Accessed.pc {c' : Cpu δ} (h : Accessed c c') : c'.pc = c.pc := by
  obtain ⟨b, v, -, rfl⟩ := h
  rfl

/-- The IR operation is the load, Z and the store. -/
theorem irBitop_eq (c : Cpu δ) (op : BitOp) (adr bit : Word) :
    irBitop c op adr bit = trapped c.pc (c.loadStore op adr bit) := by
  have hload := accessed_load c adr 1 false
  rw [irBitop, loadStore]
  cases hres : c.load adr 1 false with
  | mk res c' =>
    rw [hres] at hload
    cases res with
    | error e =>
      rw [show c.pc = c'.pc from hload.pc.symm]
      rfl
    | ok token =>
      dsimp only
      split_ifs
      · rfl
      · have hstore := accessed_store (c'.withZ (decide (token &&& bitMask bit = 0))) adr 1 (op.apply token (bitMask bit))
        cases hres' : (c'.withZ (decide (token &&& bitMask bit = 0))).store adr 1 (op.apply token (bitMask bit)) with
        | mk res' c'' =>
          rw [hres'] at hstore
          have hpc : c''.pc = c.pc := hstore.pc.trans hload.pc
          cases res' with
          | error e =>
            rw [← hpc]
            rfl
          | ok _ => rfl

/-- Where it is lowered, it is what the interpreter does one core at a time. -/
theorem run_lowered (h : c.mpuActive = false) (op : BitOp) (adr bit : Word) :
    BitPath.lowered.run c op adr bit = (BitPath.interp false).run c op adr bit := by
  have hbitop : bitop false c op adr bit = c.loadStore op adr bit := by
    rw [bitop, if_neg (by simp)]
    dsimp only
    rw [if_neg (by simp [h])]
  change irBitop c op adr bit = trapped c.pc (bitop false c op adr bit)
  rw [hbitop, irBitop_eq]

/-- Two paths are all there is to look at. -/
theorem allRight_iff (c : Cpu δ) (op : BitOp) (adr bit : Word) :
    AllRight c op adr bit ↔
      Right c op adr bit (trapped c.pc (bitop true c op adr bit)) ∧
        Right c op adr bit (trapped c.pc (bitop false c op adr bit)) ∧
        trapped c.pc (bitop true c op adr bit) = trapped c.pc (bitop false c op adr bit) := by
  constructor
  · rintro ⟨hright, hsame⟩
    exact ⟨hright (.interp true) trivial, hright (.interp false) trivial, hsame (.interp true) (.interp false) trivial trivial⟩
  · rintro ⟨htrue, hfalse, hsame⟩
    have hall (path : BitPath) (h : path.Taken c) : path.run c op adr bit = trapped c.pc (bitop false c op adr bit) := by
      cases path with
      | interp smp => cases smp with
        | false => rfl
        | true => exact hsame
      | helper smp =>
        rw [run_helper]
        cases smp with
        | false => rfl
        | true => exact hsame
      | lowered => exact run_lowered h op adr bit
    refine ⟨fun path h => ?_, fun path path' h h' => (hall path h).trans (hall path' h').symm⟩
    rw [hall path h]
    exact hfalse

/-- The load is made and the store refused. -/
def storeRefused (c : Cpu δ) (op : BitOp) (adr bit : Word) : Bool :=
  match c.load adr 1 false with
  | (.error _, _) => false
  | (.ok token, c') =>
    match ((c'.withZ (token &&& bitMask bit = 0)).store adr 1 (op.apply token (bitMask bit))).1 with
    | .ok _ => false
    | .error _ => true

/-- The operation stores nothing, or is refused by the protection unit, or the bus does not come between: RAM of the host may be
both read and written, and what may be read may be written, or Z is already what the bit makes it. -/
def Fine (c : Cpu δ) (op : BitOp) (adr bit : Word) : Prop :=
  op = .tst ∨ c.refusedRmw adr = true ∨
    (c.bus.hostRam adr = true → c.bus.byteReadable adr = true ∧ c.bus.byteWritable adr = true) ∧
      (c.storeRefused op adr bit = true → (c.withZ (!c.addressedBit adr bit)).psw = c.psw)

theorem withZ_psw {c' : Cpu δ} (h : c'.psw = c.psw) (z : Bool) : (c'.withZ z).psw = (c.withZ z).psw := by
  rw [withZ, withZ, h]

/-- On a device, the load and the store are wrong only if the store is refused and Z has moved. -/
theorem right_loadStore_device (h : c.bus.deviceAt adr = true) (op : BitOp) (bit : Word) :
    Right c op adr bit (trapped c.pc (c.loadStore op adr bit)) ↔
      op = .tst ∨ (c.storeRefused op adr bit = true → (c.withZ (!c.addressedBit adr bit)).psw = c.psw) := by
  have hdevice : ¬c.bus.deviceAt adr = false := by rw [h]; exact Bool.noConfusion
  have hload := accessed_load c adr 1 false
  rw [loadStore, storeRefused, addressedBit, if_pos h]
  cases hres : c.load adr 1 false with
  | mk res c' =>
    rw [hres] at hload
    cases res with
    | error e =>
      dsimp only
      rw [right_error]
      exact iff_of_true ⟨fun hmem => absurd hmem hdevice, hload.psw⟩ (.inr fun hfalse => Bool.noConfusion hfalse)
    | ok token =>
      have hk := bitNumber_lt bit
      have hbit : c.addressedBit adr bit = token.getLsbD (bit &&& 7).toNat := by
        rw [addressedBit, if_pos h, hres]
      have hz : decide (token &&& bitMask bit = 0) = !token.getLsbD (bit &&& 7).toNat := by
        rw [bitMask_word, decide_and_twoPow _ (by omega)]
      have hpsw := withZ_psw hload.psw (!token.getLsbD (bit &&& 7).toNat)
      -- Z as the load left it is right where no exception follows
      have hdone {c'' : Cpu δ} (heq : c''.psw = (c'.withZ (!token.getLsbD (bit &&& 7).toNat)).psw) :
          Right c op adr bit (none, c'') := by
        refine ⟨?_, fun hmem => absurd hmem hdevice⟩
        rw [heq, withZ_ne_zero, hbit, Bool.not_eq_true']
      dsimp only
      rw [hz]
      by_cases hop : op = .tst
      · rw [if_pos hop]
        exact iff_of_true (hdone rfl) (.inl hop)
      · have hstore := accessed_store (c'.withZ (!token.getLsbD (bit &&& 7).toNat)) adr 1 (op.apply token (bitMask bit))
        rw [if_neg hop]
        simp only [hop, false_or]
        cases hres' : (c'.withZ (!token.getLsbD (bit &&& 7).toNat)).store adr 1 (op.apply token (bitMask bit)) with
        | mk res' c'' =>
          rw [hres'] at hstore
          cases res' with
          | error e =>
            rw [right_error, hstore.psw, hpsw]
            exact ⟨fun hright _ => hright.2, fun hsame => ⟨fun hmem => absurd hmem hdevice, hsame rfl⟩⟩
          | ok _ => exact iff_of_true (hdone hstore.psw) fun hfalse => Bool.noConfusion hfalse

theorem storeRefused_memory (h : c.bus.deviceAt adr = false) (hperm : c.refusedRmw adr = false) (op : BitOp) (bit : Word) :
    c.storeRefused op adr bit = (c.bus.byteReadable adr && !c.bus.byteWritable adr) := by
  rw [refusedRmw, Bool.or_eq_false_iff] at hperm
  rw [storeRefused, load_byte h hperm.1]
  cases c.bus.byteReadable adr
  · rfl
  · rw [if_pos rfl]
    dsimp only
    rw [store_byte (c := c.withZ _) h ((refused_withZ ..).trans hperm.2)]
    change (match (if c.bus.byteWritable adr then _ else _ : Except Exc Unit × Cpu δ).1 with
      | .ok _ => false
      | .error _ => true) = _
    cases c.bus.byteWritable adr <;> rfl

/-- So it is on memory. -/
theorem right_loadStore_memory (h : c.bus.deviceAt adr = false) (hperm : c.refusedRmw adr = false) {op : BitOp} (hop : op ≠ .tst)
    (bit : Word) :
    Right c op adr bit (trapped c.pc (c.loadStore op adr bit)) ↔
      (c.storeRefused op adr bit = true → (c.withZ (!c.addressedBit adr bit)).psw = c.psw) := by
  rw [storeRefused_memory h hperm, loadStore_eq h hperm hop, addressedBit_memory h]
  cases c.bus.byteReadable adr
  · exact iff_of_true (right_error_mea ..) fun hfalse => Bool.noConfusion hfalse
  · rw [if_neg (by simp), Bool.true_and]
    cases c.bus.byteWritable adr
    · rw [if_neg Bool.false_ne_true, right_error]
      exact ⟨fun hright _ => hright.2, fun hsame => ⟨fun _ => rfl, hsame rfl⟩⟩
    · exact iff_of_true (right_done h op bit) fun hfalse => Bool.noConfusion hfalse

/-- The atomic and the load and store agree where the bus permits both. -/
theorem atomic_agrees_iff (h : c.bus.deviceAt adr = false) (hperm : c.refusedRmw adr = false) {op : BitOp} (hop : op ≠ .tst)
    (bit : Word) :
    trapped c.pc (.ok (), c.done op adr bit) = trapped c.pc (c.loadStore op adr bit) ↔
      c.bus.byteReadable adr = true ∧ c.bus.byteWritable adr = true := by
  rw [loadStore_eq h hperm hop]
  cases c.bus.byteReadable adr
  · exact iff_of_false (fun heq => Option.some_ne_none _ (congrArg Prod.fst heq).symm) fun hboth => Bool.noConfusion hboth.1
  · rw [if_neg (by simp)]
    cases c.bus.byteWritable adr
    · exact iff_of_false (fun heq => Option.some_ne_none _ (congrArg Prod.fst heq).symm) fun hboth => Bool.noConfusion hboth.2
    · exact iff_of_true rfl ⟨rfl, rfl⟩

theorem right_tst (c : Cpu δ) (adr bit : Word) : Right c .tst adr bit (trapped c.pc (c.loadStore .tst adr bit)) := by
  cases h : c.bus.deviceAt adr
  · rw [loadStore_tst h]
    split_ifs
    · exact right_error_mea ..
    · have hdone := right_done h .tst bit
      rw [done_tst] at hdone
      exact hdone
    · exact right_error_mea ..
  · exact (right_loadStore_device h .tst bit).mpr (.inl rfl)

/-- The paths are right and agree exactly where the bus does not refuse the store alone, and the atomic is not made where the
bus would have refused. -/
theorem bitop_allRight_iff (c : Cpu δ) (op : BitOp) (adr bit : Word) : AllRight c op adr bit ↔ Fine c op adr bit := by
  rw [allRight_iff, Fine]
  by_cases hop : op = .tst
  · subst hop
    rw [bitop_tst, bitop_tst]
    exact iff_of_true ⟨right_tst c adr bit, right_tst c adr bit, rfl⟩ (.inl rfl)
  rw [bitop_eq true hop, bitop_eq false hop]
  cases hperm : c.refusedRmw adr
  · rw [if_neg Bool.false_ne_true, Bool.true_and, if_neg Bool.false_ne_true, Bool.false_and, if_neg Bool.false_ne_true]
    simp only [hop, Bool.false_eq_true, false_or]
    have hright : Right c op adr bit (trapped c.pc (c.loadStore op adr bit)) ↔
        (c.storeRefused op adr bit = true → (c.withZ (!c.addressedBit adr bit)).psw = c.psw) := by
      cases h : c.bus.deviceAt adr
      · exact right_loadStore_memory h hperm hop bit
      · exact (right_loadStore_device h op bit).trans (or_iff_right hop)
    rw [hright]
    cases hram : c.bus.hostRam adr
    · -- no atomic: both are the load and the store
      rw [if_neg Bool.false_ne_true, hright]
      exact ⟨fun hall => ⟨fun hfalse => Bool.noConfusion hfalse, hall.1⟩, fun hfine => ⟨hfine.2, hfine.2, rfl⟩⟩
    · have h : c.bus.deviceAt adr = false := by
        cases h : c.bus.deviceAt adr
        · rfl
        · exact absurd (Bus.hostRam_of_deviceAt h) (by rw [hram]; exact Bool.noConfusion)
      have hsame := atomic_agrees_iff h hperm hop bit
      rw [if_pos rfl]
      exact ⟨fun hall => ⟨fun _ => hsame.mp hall.2.2, hall.2.1⟩,
        fun hfine => ⟨right_done h op bit, hfine.2, hsame.mpr (hfine.1 rfl)⟩⟩
  · have hright : Right c op adr bit (trapped c.pc
        (.error (c.mdp (c.refused adr 1 .read) (c.refused adr 1 .write) Exc.dRmw), c.setSr 2 srMea adr)) := right_error_mea ..
    exact iff_of_true ⟨hright, hright, rfl⟩ (.inr (.inl rfl))

/-- 256 bytes that may be read and not written, of either kind. -/
def readOnly (kind : RegionKind) : Cpu Unit := fresh [⟨0x1000, 0x100, 0x5000, kind, permR, wAny⟩]

/-- SET1 on ROM saves a PSW with Z set that it had not; and on RAM that may not be written it sets the bit where cores run at
once, and is an exception where they do not. -/
theorem bitop_readOnly :
    ¬Right (readOnly .rom) .set 0x1000 0 ((BitPath.interp false).run (readOnly .rom) .set 0x1000 0) ∧
      ((BitPath.interp false).run (readOnly .ram) .set 0x1000 0).1 = some (Exc.ofFault .store) ∧
      ((BitPath.interp true).run (readOnly .ram) .set 0x1000 0).1 = none ∧
      ((BitPath.interp true).run (readOnly .ram) .set 0x1000 0).2.bus.mem 0x5000 = 1 := by
  have hpsw : ((BitPath.interp false).run (readOnly .rom) .set 0x1000 0).2.savedPsw (Exc.ofFault .store) ≠ (readOnly .rom).psw := by
    decide +kernel
  refine ⟨fun h => hpsw h.2, ?_, ?_, ?_⟩
  all_goals decide +kernel

end Emu.G4mh.Cpu
