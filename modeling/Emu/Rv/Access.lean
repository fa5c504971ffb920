-- SUMMARY: Loads, stores, atomics, cache-block operations and fetches of the hart, through its tables and the bus.
import Emu.Lib.Relational
import Emu.Rv.Mmu

/-! # Memory accesses

Every access translates its address, asks PMP and then the bus; the data and fetch tables answer all of it at once
for a page they hold. Misaligned accesses are emulated, as in the default build. -/

namespace Emu.Rv

variable {δ ε : Type}

/-- A computation of the hart. -/
abbrev HartM (δ ε α : Type) := Comp (Hart δ) ε α

/-! ## The parts accesses are made of -/

/-- Translation, where it is on. -/
def translateActive (va : Word) (acc : Access) : HartM δ Exc Word :=
  fun h => if h.vmActive then h.translate va acc else (.ok va, h)

def busRead (addr : Word) (size : Nat) : HartM δ Exc Word :=
  fun h =>
    let res := h.bus.read addr size
    (res.1.mapError excFromFault, { h with bus := res.2 })

def busWrite (addr : Word) (size : Nat) (val : Word) : HartM δ Exc Unit :=
  fun h =>
    let res := h.bus.write addr size val
    (res.1.mapError excFromFault, { h with bus := res.2 })

def busFetch16 (addr : Word) : HartM δ Exc Word :=
  fun h => ((h.bus.fetch16 addr).mapError excFromFault, h)

/-- PMP's answer to a data access, where it has to be asked. -/
def pmpAllows (addr : Word) (size : Nat) (acc : Access) : HartM δ ε Bool :=
  Comp.view fun h => !h.pmpNeeded addr size || h.pmpCheck addr size acc

/-- A store to the reserved word breaks the reservation. -/
def breakReservation (addr : Word) : HartM δ ε Unit :=
  Comp.change fun h =>
    if h.resvValid = true ∧ addr &&& ~~~3 = h.resvAddr then { h with resvValid := false } else h

/-- The value of a load of `size` bytes. -/
def extend (v : Word) (size : Nat) (signed : Bool) : Word :=
  if signed = true ∧ size < 4 then (v.setWidth (size * 8)).signExtend 32 else v

def permFor : Access → Byte
  | .fetch => permX
  | .load => permR
  | .store => permW

/-- The bus, asked without doing anything: a region that allows the access and holds all of it. -/
def busHolds (b : Bus δ) (pa : Word) (len : Nat) (perm : Byte) : Bool :=
  match b.find pa with
  | none => false
  | some r => r.perm &&& perm ≠ 0 ∧ pa - r.base + BitVec.ofNat 32 len ≤ r.size

/-! ## Accesses wider than the bus, or across a page boundary -/

/-- A part of an access that lies in one page. -/
structure Part where
  va : Word
  pa : Word
  len : Nat

/-- The parts of an access: two where translation is on and it crosses a page boundary. -/
def Hart.parts (h : Hart δ) (va : Word) (size : Nat) : List (Word × Nat) :=
  let room := 0x1000 - (va &&& 0xFFF).toNat
  if h.vmActive = true ∧ room < size then [(va, room), (va + BitVec.ofNat 32 room, size - room)] else [(va, size)]

def translateParts (acc : Access) : List (Word × Nat) → HartM δ (Exc × Word) (List Part)
  | [] => pure []
  | (va, len) :: rest => do
    let pa ← (translateActive va acc).onError fun e => ((e, va), id)
    let parts ← translateParts acc rest
    pure (⟨va, pa, len⟩ :: parts)

def checkParts (acc : Access) : List Part → HartM δ (Exc × Word) Unit
  | [] => pure ()
  | p :: rest => do
    let allowed ← pmpAllows p.pa p.len acc
    if allowed = false then Comp.fail (accessFaultFor acc, p.va)
    else
      let held ← Comp.view fun h => busHolds h.bus p.pa p.len (permFor acc)
      if held = false then Comp.fail (accessFaultFor acc, p.va)
      else checkParts acc rest

/-- The largest naturally aligned transaction that fits. -/
def transferWidth (a : Word) (left : Nat) : Nat :=
  if a &&& 3 = 0 ∧ 4 ≤ left then 4 else if a &&& 1 = 0 ∧ 2 ≤ left then 2 else 1

/-- The transactions of one part: `done` bytes are behind, and `v` is the value to store or the value so far. A
round moves at least a byte, so the part's length is fuel enough. -/
def transferPart (acc : Access) (va : Word) :
    Nat → Word → Nat → Nat × BitVec 64 → HartM δ (Exc × Word) (Nat × BitVec 64)
  | 0, _, _, acc => pure acc
  | fuel + 1, a, left, (done, v) =>
    if left = 0 then pure (done, v)
    else do
      let n := transferWidth a left
      let v ← if acc = .store then do
          breakReservation a
          (busWrite a n ((v >>> (done * 8)).setWidth 32)).onError fun e => ((e, va + BitVec.ofNat 32 done), id)
          pure v
        else do
          let w ← (busRead a n).onError fun e => ((e, va + BitVec.ofNat 32 done), id)
          pure (v ||| (w.setWidth 64 <<< (done * 8)))
      transferPart acc va fuel (a + BitVec.ofNat 32 n) (left - n) (done + n, v)

def transferParts (acc : Access) (va : Word) :
    List Part → Nat × BitVec 64 → HartM δ (Exc × Word) (Nat × BitVec 64)
  | [], s => pure s
  | p :: rest, s => do
    let s ← transferPart acc va p.len p.pa p.len s
    transferParts acc va rest s

/-- `mem_wide`: every part is translated and checked before the first byte moves. An error carries the address it
is about. -/
def memWide (va : Word) (size : Nat) (acc : Access) (val : BitVec 64) : HartM δ (Exc × Word) (BitVec 64) := do
  let pieces ← Comp.view (·.parts va size)
  let parts ← translateParts acc pieces
  checkParts acc parts
  let s ← transferParts acc va parts (0, val)
  pure s.2

/-- `split_access`: a refusal in the second page is recorded for the trap. -/
def splitAccess (va : Word) (size : Nat) (acc : Access) (val : BitVec 64) : HartM δ Exc (BitVec 64) :=
  (memWide va size acc val).onError fun (e, part) =>
    (e, fun h => if part = va then h else { h with splitReq := va, splitAt := part, splitValid := true })

/-- `wide_trigger`: a trigger may be set on either word of a double. -/
def wideTrigger (addr : Word) (acc : Access) : HartM δ ε Bool :=
  Comp.view fun h => h.trigActive && (h.trigCheck addr acc || h.trigCheck (addr + 4) acc)

/-- `rv_hart_load64`. -/
def load64 (addr : Word) : HartM δ (Exc × Word) (BitVec 64) := do
  let fires ← wideTrigger addr .load
  if fires = true then Comp.fail (.breakpoint, addr) else memWide addr 8 .load 0

/-- `rv_hart_store64`. -/
def store64 (addr : Word) (val : BitVec 64) : HartM δ (Exc × Word) (BitVec 64) := do
  let fires ← wideTrigger addr .store
  if fires = true then Comp.fail (.breakpoint, addr) else memWide addr 8 .store val

/-! ## Loads and stores -/

/-- An access that runs over the end of its page while translation is on. -/
def crossesPage (va : Word) (size : Nat) : HartM δ ε Bool :=
  Comp.view fun h => h.vmActive && decide ((va &&& 0xFFF).toNat + size > 0x1000)

/-- A load the data table does not answer. -/
def loadSlow (va : Word) (size : Nat) : HartM δ Exc Word := do
  let crosses ← crossesPage va size
  if crosses = true then do
    let wide ← splitAccess va size .load 0
    pure (wide.setWidth 32)
  else
    let pa ← translateActive va .load
    let allowed ← pmpAllows pa size .load
    if allowed = false then Comp.fail .loadAccessFault
    else
      let v ← busRead pa size
      Comp.change (·.dtlbFill va pa)
      pure v

/-- `load_guarded`. -/
def loadGuarded (va : Word) (size : Nat) (signed : Bool) : HartM δ Exc Word := fun h =>
  match h.dtlbProbe va size false with
  | some e => (.ok (extend (h.bus.mem.load (va.setWidth 64 + e.addend) size) size signed), h)
  | none => (do let v ← loadSlow va size; pure (extend v size signed) : HartM δ Exc Word) h

/-- `rv_hart_load`. -/
def load (va : Word) (size : Nat) (signed : Bool) : HartM δ Exc Word := do
  let fires ← Comp.view fun h => h.trigActive && h.trigCheck va .load
  if fires = true then Comp.fail .breakpoint
  else
    let guarded ← Comp.view (·.dataGuard)
    if guarded = true then loadGuarded va size signed
    else
      let v ← busRead va size
      pure (extend v size signed)

/-- A store the data table does not answer. -/
def storeSlow (va : Word) (size : Nat) (val : Word) : HartM δ Exc Unit := do
  let crosses ← crossesPage va size
  if crosses = true then do
    let _ ← splitAccess va size .store (val.setWidth 64)
    pure ()
  else
    let pa ← translateActive va .store
    let allowed ← pmpAllows pa size .store
    if allowed = false then Comp.fail .storeAccessFault
    else
      breakReservation pa
      busWrite pa size val
      Comp.change (·.dtlbFill va pa)

/-- `store_guarded`: the table is not asked while a reservation is outstanding. -/
def storeGuarded (va : Word) (size : Nat) (val : Word) : HartM δ Exc Unit := fun h =>
  match if h.resvValid then none else h.dtlbProbe va size true with
  | some e => (.ok (), { h with bus := { h.bus with mem := h.bus.mem.store (va.setWidth 64 + e.addend) val size } })
  | none => storeSlow va size val h

/-- `rv_hart_store`. -/
def store (va : Word) (size : Nat) (val : Word) : HartM δ Exc Unit := do
  let fires ← Comp.view fun h => h.trigActive && h.trigCheck va .store
  if fires = true then Comp.fail .breakpoint
  else
    let guarded ← Comp.view (·.dataGuard)
    if guarded = true then storeGuarded va size val
    else
      breakReservation va
      busWrite va size val

/-! ## Atomics -/

/-- The operations `rv_amo_valid` accepts. -/
inductive AmoOp where
  | add | swap | lr | sc | xor | or | and | min | max | minu | maxu | cas
  deriving DecidableEq, Repr

/-- What a read-modify-write stores. -/
def AmoOp.value (op : AmoOp) (old src : Word) : Word :=
  match op with
  | add => old + src
  | swap => src
  | xor => old ^^^ src
  | or => old ||| src
  | and => old &&& src
  | min => if old.slt src then old else src
  | max => if src.slt old then old else src
  | minu => if old < src then old else src
  | _ => if old > src then old else src

def setReg (rd : BitVec 5) (v : Word) : HartM δ ε Unit :=
  Comp.change fun h => if rd = 0 then h else { h with x := Function.update h.x rd v }

/-- `rv_hart_amo`. -/
def amo (op : AmoOp) (rd : BitVec 5) (addr src : Word) : HartM δ Exc Unit :=
  let acc : Access := if op = .lr then .load else .store
  if addr &&& 3 ≠ 0 then Comp.fail (if op = .lr then .loadMisaligned else .storeMisaligned)
  else do
    let pa ← translateActive addr acc
    let denied ← Comp.view fun h => h.pmpActive && !h.pmpCheck pa 4 acc
    if denied = true then Comp.fail (accessFaultFor acc)
    else match op with
      | .lr => do
        let v ← busRead pa 4
        Comp.change fun h => { h with resvAddr := pa, resvValid := true }
        setReg rd v
      | .sc => do
        -- whether the store could land is asked before whether it will
        let writable ← Comp.view fun h => (h.bus.find pa).any fun r => r.perm &&& permW ≠ 0
        if writable = false then Comp.fail .storeAccessFault
        else
          let held ← Comp.view fun h => h.resvValid && h.resvAddr = pa
          if held = false then setReg rd 1
          else
            (busWrite pa 4 src).onError fun e => (e, fun h => { h with resvValid := false })
            Comp.change fun h => { h with resvValid := false }
            setReg rd 0
      | .cas => do
        let old ← (busRead pa 4).onError fun _ => (.storeAccessFault, id)
        let comparand ← Comp.view (·.x rd)
        if old = comparand then busWrite pa 4 src else pure ()
        setReg rd old
      | op => do
        let old ← (busRead pa 4).onError fun _ => (.storeAccessFault, id)
        busWrite pa 4 (op.value old src)
        setReg rd old

/-- A register of a pair: `x0` names a pair that reads as zero in both halves. -/
def pairReg (r : BitVec 5) (hi : Bool) : HartM δ ε Word :=
  Comp.view fun h => if r = 0 then 0 else h.x (if hi then r + 1 else r)

/-- `rv_hart_amocas_d`. -/
def amocasD (rd rs2 : BitVec 5) (addr : Word) : HartM δ Exc Unit :=
  if addr &&& 7 ≠ 0 then Comp.fail .storeMisaligned
  else do
    let pa ← translateActive addr .store
    let allowed ← pmpAllows pa 8 .store
    if allowed = false then Comp.fail .storeAccessFault
    else
      let lo ← (busRead pa 4).onError fun _ => (.storeAccessFault, id)
      let hi ← (busRead (pa + 4) 4).onError fun _ => (.storeAccessFault, id)
      let cmpLo ← pairReg rd false
      let cmpHi ← pairReg rd true
      if lo = cmpLo ∧ hi = cmpHi then do
        let newLo ← pairReg rs2 false
        let newHi ← pairReg rs2 true
        busWrite pa 4 newLo
        busWrite (pa + 4) 4 newHi
      else pure ()
      if rd = 0 then pure ()
      else do
        setReg rd lo
        setReg (rd + 1) hi

/-! ## Cache-block operations -/

inductive CboOp where
  | inval | clean | flush | zero
  deriving DecidableEq, Repr

/-- `RV_CACHE_BLOCK_SIZE`. -/
def cacheBlockSize : Nat := 64

def envcfgCbie : Word := 3 <<< 4
def envcfgCbieFlush : Word := 1 <<< 4
def envcfgCbcfe : Word := 1 <<< 6
def envcfgCbze : Word := 1 <<< 7

/-- `cbo_permitted`: what the operation runs as, if this privilege may run it. -/
def Hart.cboPermitted (h : Hart δ) (op : CboOp) : Option CboOp :=
  let m := h.menvcfg
  let s := if h.priv = privU then h.senvcfg else m
  if h.priv = privM then some op
  else match op with
    | .zero => if m &&& s &&& envcfgCbze ≠ 0 then some op else none
    | .clean | .flush => if m &&& s &&& envcfgCbcfe ≠ 0 then some op else none
    | .inval =>
      if m &&& envcfgCbie = 0 ∨ s &&& envcfgCbie = 0 then none
      else if m &&& envcfgCbie = envcfgCbieFlush ∨ s &&& envcfgCbie = envcfgCbieFlush then some .flush
      else some op

/-- The stores of `cbo.zero`, from the `i`-th word on. -/
def zeroWords (base pa : Word) : Nat → Nat → HartM δ (Exc × Word) Unit
  | 0, _ => pure ()
  | n + 1, i => do
    breakReservation (pa + BitVec.ofNat 32 i)
    (busWrite (pa + BitVec.ofNat 32 i) 4 0).onError fun e => ((e, base + BitVec.ofNat 32 i), id)
    zeroWords base pa n (i + 4)

/-- The address of a cache block's first word that a trigger is set on. -/
def Hart.blockTrigger (h : Hart δ) (base : Word) : Option Word :=
  if h.trigActive then
    ((List.range (cacheBlockSize / 4)).map fun i => base + BitVec.ofNat 32 (4 * i)).find? (h.trigCheck · .store)
  else none

/-- `cbo.zero`: checked as one store of the whole block. -/
def cboZero (base : Word) : HartM δ (Exc × Word) Unit := do
  let trigger ← Comp.view (·.blockTrigger base)
  match trigger with
  | some word => Comp.fail (.breakpoint, word)
  | none =>
    let pa ← (translateActive base .store).onError fun e => ((e, base), id)
    let allowed ← pmpAllows pa cacheBlockSize .store
    if allowed = false then Comp.fail (.storeAccessFault, base)
    else
      let held ← Comp.view fun h => busHolds h.bus pa cacheBlockSize permW
      if held = false then Comp.fail (.storeAccessFault, base)
      else zeroWords base pa (cacheBlockSize / 4) 0

/-- The maintenance operations: permitted where a load or a store would be, refused as a store. What they do to
the host's caches is not modelled. -/
def cboMaintain (base : Word) : HartM δ (Exc × Word) Unit := do
  let pa ← (translateActive base .load).onError fun e =>
    ((if e = .loadPageFault then .storePageFault else .storeAccessFault, base), id)
  let allowed ← Comp.view fun h =>
    !h.pmpNeeded pa cacheBlockSize || h.pmpCheck pa cacheBlockSize .load || h.pmpCheck pa cacheBlockSize .store
  if allowed = false then Comp.fail (.storeAccessFault, base)
  else
    let found ← Comp.view fun h => (h.bus.find pa).isSome
    if found = false then Comp.fail (.storeAccessFault, base) else pure ()

/-- `rv_hart_cbo`. An error carries the address it is about. -/
def cbo (op : CboOp) (addr : Word) : HartM δ (Exc × Word) Unit := do
  let base := addr &&& ~~~(BitVec.ofNat 32 cacheBlockSize - 1)
  let permitted ← Comp.view (·.cboPermitted op)
  match permitted with
  | none => Comp.fail (.illegalInsn, base)
  | some .zero => cboZero base
  | some _ => cboMaintain base

/-! ## Fetches -/

/-- PMP's answer to a fetch of one halfword. -/
def pmpFetches (pa : Word) : HartM δ ε Bool :=
  Comp.view fun h => !h.pmpActive || h.pmpCheck pa 2 .fetch

/-- `fetch_check` past the fetch table. -/
def fetchCheckSlow (pc : Word) : HartM δ Exc Word := do
  let fpc ← translateActive pc .fetch
  let allowed ← pmpFetches fpc
  if allowed = false then Comp.fail .insnAccessFault
  else
    -- offer the page, unless the fill has refused it already
    Comp.change fun h => if (h.itlbEntry pc).any fun e => e.write ≠ pc >>> 12 then h.itlbFill pc fpc else h
    pure fpc

/-- `fetch_check`: where the first halfword of an instruction is fetched from. -/
def fetchCheck (pc : Word) : HartM δ Exc Word := fun h =>
  match h.itlbLookup pc with
  | some fpc => (.ok fpc, h)
  | none => fetchCheckSlow pc h

/-- The last halfword of a page. -/
def atPageEnd (pc : Word) : Bool :=
  pc &&& (pageSize - 1) = pageSize - 2

/-- `fetch_pmp2`: PMP for the second halfword of an instruction. -/
def Hart.fetchPmp2 (h : Hart δ) (pc fpc2 : Word) : Bool :=
  if atPageEnd pc = false ∧ (h.itlbLookup pc).isSome then true else h.pmpCheck fpc2 2 .fetch

/-- `rv_is_32bit`. -/
def is32bit (parcel : Word) : Bool :=
  parcel &&& 3 = 3

/-- Where the interpreter fetches the first halfword of an instruction from. -/
def fetchPlace (pc : Word) : HartM δ (Exc × Word) Word := do
  let guarded ← Comp.view (·.fetchGuard)
  if guarded = true then do
    let fires ← Comp.view fun h => h.trigActive && h.trigCheck pc .fetch
    if fires = true then Comp.fail (.breakpoint, pc)
    else (fetchCheck pc).onError fun e => ((e, pc), id)
  else pure pc

/-- Where the second halfword is fetched from: translated again if it lies in another page. -/
def fetchPlace2 (pc fpc : Word) : HartM δ (Exc × Word) Word := do
  let separate ← Comp.view fun h => h.vmActive && atPageEnd pc
  if separate = true then (translateActive (pc + 2) .fetch).onError fun e => ((e, pc + 2), id)
  else pure (fpc + 2)

/-- The fetch of one instruction by the interpreter: its bytes, two or four. An error carries the address it is
about. -/
def fetchInsn (pc : Word) : HartM δ (Exc × Word) (Word × Nat) :=
  if pc &&& 1 ≠ 0 then Comp.fail (.insnMisaligned, pc)
  else do
    let fpc ← fetchPlace pc
    let lo ← (busFetch16 fpc).onError fun e => ((e, pc), id)
    if is32bit lo = false then pure (lo, 2)
    else
      let fpc2 ← fetchPlace2 pc fpc
      let allowed ← Comp.view fun h => !(h.pmpActive && decide (pc &&& 2 ≠ 0)) || h.fetchPmp2 pc fpc2
      if allowed = false then Comp.fail (.insnAccessFault, pc + 2)
      else
        let hi ← (busFetch16 fpc2).onError fun e => ((e, pc + 2), id)
        pure (lo ||| (hi <<< 16), 4)

/-- `ir_fetch16` past the fetch table. -/
def irFetch16Slow (va : Word) : HartM δ Exc Word := do
  let pa ← translateActive va .fetch
  let allowed ← pmpFetches pa
  if allowed = false then Comp.fail .insnAccessFault
  else
    let parcel ← busFetch16 pa
    Comp.change fun h => if h.fetchGuard then h.itlbFill va pa else h
    pure parcel

/-- `ir_fetch16`: the translator's fetch. The source reports only that it failed; which exception the interpreter
would raise is kept here. -/
def irFetch16 (va : Word) : HartM δ Exc Word := fun h =>
  match h.itlbLookup va with
  | some pa => busFetch16 pa h
  | none => irFetch16Slow va h

end Emu.Rv
