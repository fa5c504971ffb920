-- SUMMARY: The G4MH interrupt controllers: channels, the bitmaps of what is pending, and the search for the best.
import Mathlib
import Emu.Ir.Syntax
import Emu.Lib.BitWalk
import Emu.Lib.FirstMin

/-! # The interrupt controllers

Every core has a controller of its own for channels 0 to 31, and all share one for the channels above, each bound to a
core. A channel is one word, in the layout of EEIC; EIC and IMR are views of it. Beside the words there is a bit for every
channel, set while it is requested and not masked, and the search for the channel to take visits those bits. -/

namespace Emu.G4mh

namespace Intc

/-- `G4MH_INTC1_CHANNELS`. -/
def ownChannels : Nat := 32

/-- `G4MH_INT_CHANNELS`. -/
def intChannels : Nat := 1024

/-- `G4MH_INTC2_WORDS`. -/
def intc2Words : Nat := 31

/-- `G4MH_TPTM_EI_CHANNEL`. -/
def tptmEiChannel : Nat := 31

/-! ## The channel word -/

def eict : Word := 0x80000000
def eirf : Word := 0x10000000
def eimk : Word := 0x00800000
def eitb : Word := 0x00400000
def eiov : Word := 0x00008000
def eipMask : Word := 0x3F

/-- `G4MH_EEIC_RESET`. -/
def eeicReset : Word := 0x0080000F

def eicEipMask : BitVec 16 := 0x000F
def eicEiov : BitVec 16 := 0x0020
def eicEitb : BitVec 16 := 0x0040
def eicEimk : BitVec 16 := 0x0080
def eicEirf : BitVec 16 := 0x1000
def eicEict : BitVec 16 := 0x8000

/-- `G4MH_EIBD_PEID_MASK`. -/
def eibdPeidMask : Word := 0x7

/-- `chan_merge`: EICT is not software's to set, nor EIRF while EICT is set. -/
def chanMerge (cur val : Word) (eipKeep : Bool) : Word :=
  let ro := eict ||| if cur &&& eict ≠ 0 then eirf else 0
  let out := (val &&& ~~~ro) ||| (cur &&& ro)
  if eipKeep then (out &&& ~~~eipMask) ||| (cur &&& 0x30) ||| (val &&& 0x0F) else out

/-- `eic_to_chan`. -/
def eicToChan (cur : Word) (v : BitVec 16) : Word :=
  let flag (window : BitVec 16) (bit : Word) : Word := if v &&& window ≠ 0 then bit else 0
  chanMerge cur
    ((v &&& eicEipMask).setWidth 32 ||| flag eicEict eict ||| flag eicEirf eirf ||| flag eicEimk eimk |||
      flag eicEitb eitb ||| flag eicEiov eiov) true

/-- `eeic_to_chan`. -/
def eeicToChan (cur v : Word) : Word := chanMerge cur (v &&& (eict ||| eirf ||| eimk ||| eitb ||| eiov ||| eipMask)) false

/-- `requested`. -/
def requested (c : Word) : Bool := c &&& eirf ≠ 0 && c &&& eimk = 0

end Intc

/-! ## State -/

/-- What of `g4mh_intc_t` is a core's own: its channels and their bits, and the FE level's requests. -/
structure Intc1 where
  chan : Nat → Word
  pend : Word
  feint : Bool
  fenmi : Bool

/-- `g4mh_intc2_t`. -/
structure Intc2 where
  chan : Nat → Word
  eibd : Nat → Word
  pend : Nat → Word

/-- The controllers of a system, with the cores' flags. -/
structure Intc where
  own : Fin 8 → Intc1
  intc2 : Intc2
  tptmsel : Word
  nmif : Bool
  irqDirty : Fin 8 → Bool

/-- A channel word and its bit. -/
def Intc1.put (ic : Intc1) (n : Nat) (v : Word) : Intc1 :=
  let bit := BitVec.twoPow 32 n
  { ic with
    chan := Function.update ic.chan n v
    pend := if Intc.requested v then ic.pend ||| bit else ic.pend &&& ~~~bit }

/-- A channel word of the shared controller and its bit. -/
def Intc2.put (g : Intc2) (i : Nat) (v : Word) : Intc2 :=
  { g with chan := Function.update g.chan i v, pend := BitWalk.setBit g.pend i (Intc.requested v) }

namespace Intc

/-- `g4mh_intc_init`, of every core's controller. -/
def init (irqDirty : Fin 8 → Bool) : Intc where
  own := fun _ => { chan := fun _ => eeicReset, pend := 0, feint := false, fenmi := false }
  intc2 := { chan := fun _ => eeicReset, eibd := fun _ => 0, pend := fun _ => 0 }
  tptmsel := 0
  nmif := false
  irqDirty := irqDirty

/-- `chan_get`. -/
def chanGet (s : Intc) (pe : Fin 8) (n : Nat) : Word :=
  if n < ownChannels then (s.own pe).chan n else s.intc2.chan (n - ownChannels)

/-- `chan_put`. -/
def chanPut (s : Intc) (pe : Fin 8) (n : Nat) (v : Word) : Intc :=
  if n < ownChannels then { s with own := Function.update s.own pe ((s.own pe).put n v) }
  else { s with intc2 := s.intc2.put (n - ownChannels) v }

/-- `notify`: a core's own channel is its own news, and a shared one may be any core's. -/
def notify (s : Intc) (pe : Fin 8) (n : Nat) : Intc :=
  if n < ownChannels then { s with irqDirty := Function.update s.irqDirty pe true } else { s with irqDirty := fun _ => true }

/-- `g4mh_intc_raise`. -/
def raise (s : Intc) (pe : Fin 8) (channel : Nat) : Intc :=
  if intChannels ≤ channel then s
  else
    let c := s.chanGet pe channel
    let c := if c &&& eict = 0 ∧ c &&& eirf ≠ 0 then c ||| eiov else c
    (s.chanPut pe channel (c ||| eirf)).notify pe channel

/-- `g4mh_intc_ack`. -/
def ack (s : Intc) (pe : Fin 8) (channel : Nat) : Intc :=
  if intChannels ≤ channel then s
  else
    let c := s.chanGet pe channel
    if c &&& eict = 0 then s.chanPut pe channel (c &&& ~~~eirf) else s

/-- `g4mh_intc_chan_is_table`. -/
def chanIsTable (s : Intc) (pe : Fin 8) (channel : Nat) : Bool :=
  channel < intChannels && s.chanGet pe channel &&& eitb ≠ 0

/-- The priority of a channel. -/
def pri (s : Intc) (pe : Fin 8) (n : Nat) : Nat := (s.chanGet pe n &&& eipMask).toNat

/-! ## The search -/

/-- `consider`. -/
def consider (word : Word) (n : Nat) (best : Option Nat × Nat) : Option Nat × Nat :=
  if (word &&& eipMask).toNat < best.2 then (some n, (word &&& eipMask).toNat) else best

/-- `g4mh_intc_pending_pri`: the channel and its priority. -/
def pendingPri (s : Intc) (pe : Fin 8) : Option Nat × Nat :=
  let best := BitWalk.walk (fun best n => consider ((s.own pe).chan n) n best) 32 (s.own pe).pend (none, 64)
  BitWalk.walkWords
    (fun best i =>
      if (s.intc2.eibd i &&& eibdPeidMask).toNat ≠ pe then best
      else consider (s.intc2.chan i) (i + ownChannels) best)
    intc2Words s.intc2.pend best

/-! ## Registers -/

/-- `chan_store`. -/
def chanStore (s : Intc) (pe : Fin 8) (ch : Nat) (val : Word) : Intc := (s.chanPut pe ch val).notify pe ch

/-- `eic_write`. -/
def eicWrite (s : Intc) (pe : Fin 8) (ch : Nat) (val : BitVec 16) : Intc :=
  s.chanStore pe ch (eicToChan (s.chanGet pe ch) val)

/-- `eeic_write`. -/
def eeicWrite (s : Intc) (pe : Fin 8) (ch : Nat) (val : Word) : Intc :=
  s.chanStore pe ch (eeicToChan (s.chanGet pe ch) val)

/-- A turn of the loop of `imr_write`. -/
def imrBit (s : Intc) (pe : Fin 8) (m : Nat) (val : Word) (b : Nat) : Intc :=
  let ch := m * 32 + b
  if intChannels ≤ ch then s
  else
    let cur := s.chanGet pe ch
    let want := if val.getLsbD b then cur ||| eimk else cur &&& ~~~eimk
    if want ≠ cur then s.chanStore pe ch want else s

/-- `imr_write`. -/
def imrWrite (s : Intc) (pe : Fin 8) (m : Nat) (val : Word) : Intc :=
  (List.range 32).foldl (fun s b => s.imrBit pe m val b) s

def intc1Imr0 : Nat := 0x00F0
def intc1Eeic : Nat := 0x0200
def intc2Imr : Nat := 0x1000
def intc2Eibd : Nat := 0x2000
def intc2Eeic : Nat := 0x4000
def intifTptmsel : Nat := 0x0200
def fencFenmic : Nat := 0x8

/-- `intc1_write`, of a core's controller; the width is not asked. The other registers are stored and read by nothing. -/
def intc1Write (s : Intc) (pe : Fin 8) (off : Nat) (val : Word) : Intc :=
  if off < ownChannels * 2 then s.eicWrite pe (off / 2) (val.setWidth 16)
  else if off = intc1Imr0 then s.imrWrite pe 0 val
  else if intc1Eeic ≤ off ∧ off < intc1Eeic + ownChannels * 4 then s.eeicWrite pe ((off - intc1Eeic) / 4) val
  else s

/-- `intc2_write`, through a core's controller; the width is not asked. -/
def intc2Write (s : Intc) (pe : Fin 8) (off : Nat) (val : Word) : Intc :=
  if ownChannels * 2 ≤ off ∧ off < intChannels * 2 then s.eicWrite pe (off / 2) (val.setWidth 16)
  else if intc2Imr ≤ off ∧ off < intc2Imr + 32 * 4 then
    let m := (off - intc2Imr) / 4
    if m ≠ 0 then s.imrWrite pe m val else s
  else if intc2Eibd ≤ off ∧ off < intc2Eibd + intChannels * 4 then
    let n := (off - intc2Eibd) / 4
    if ownChannels ≤ n then
      ({ s with intc2 := { s.intc2 with eibd := Function.update s.intc2.eibd (n - ownChannels) val } } : Intc).notify pe n
    else s
  else if intc2Eeic ≤ off ∧ off < intc2Eeic + intChannels * 4 then
    let n := (off - intc2Eeic) / 4
    if ownChannels ≤ n then s.eeicWrite pe n val else s
  else s

/-- `g4mh_intc_raise_tptm`: TPTMSEL routes the timer of a core. -/
def raiseTptm (s : Intc) (pe : Fin 8) : Intc :=
  if s.tptmsel.getLsbD pe then s.raise pe tptmEiChannel
  else
    { s with
      own := Function.update s.own pe { s.own pe with feint := true }
      irqDirty := Function.update s.irqDirty pe true }

/-- `g4mh_intc_ack_fe`. -/
def ackFe (s : Intc) (pe : Fin 8) : Intc := { s with own := Function.update s.own pe { s.own pe with feint := false } }

/-- `g4mh_intc_raise_nmi`. -/
def raiseNmi (s : Intc) : Intc :=
  { s with nmif := true, own := fun pe => { s.own pe with fenmi := true }, irqDirty := fun _ => true }

/-- `g4mh_intc_ack_fenmi`. -/
def ackFenmi (s : Intc) (pe : Fin 8) : Intc := { s with own := Function.update s.own pe { s.own pe with fenmi := false } }

/-- `intif_write`. -/
def intifWrite (s : Intc) (off : Nat) (val : Word) : Intc :=
  if off = intifTptmsel then { s with tptmsel := val &&& 0x3F } else s

/-- `fenc_write`. -/
def fencWrite (s : Intc) (off : Nat) (val : Word) : Intc :=
  if off = fencFenmic ∧ val &&& 1 ≠ 0 then { s with nmif := false } else s

/-- What happens to the controllers, through a core's own. -/
inductive Op where
  | raise (pe : Fin 8) (channel : Nat)
  | ack (pe : Fin 8) (channel : Nat)
  | intc1 (pe : Fin 8) (off : Nat) (val : Word)
  | intc2 (pe : Fin 8) (off : Nat) (val : Word)
  | raiseTptm (pe : Fin 8)
  | ackFe (pe : Fin 8)
  | raiseNmi
  | ackFenmi (pe : Fin 8)
  | intif (off : Nat) (val : Word)
  | fenc (off : Nat) (val : Word)

def apply (s : Intc) : Op → Intc
  | .raise pe channel => s.raise pe channel
  | .ack pe channel => s.ack pe channel
  | .intc1 pe off val => s.intc1Write pe off val
  | .intc2 pe off val => s.intc2Write pe off val
  | .raiseTptm pe => s.raiseTptm pe
  | .ackFe pe => s.ackFe pe
  | .raiseNmi => s.raiseNmi
  | .ackFenmi pe => s.ackFenmi pe
  | .intif off val => s.intifWrite off val
  | .fenc off val => s.fencWrite off val

def run (s : Intc) (ops : List Op) : Intc := ops.foldl apply s

/-! ## What an operation can do -/

/-- The changes that operations are made of. -/
inductive Change : Intc → Intc → Prop where
  | store (s : Intc) (pe : Fin 8) (n : Nat) (v : Word) : Change s (s.chanStore pe n v)
  | ack (s : Intc) (pe : Fin 8) (n : Nat) : Change s (s.chanPut pe n (s.chanGet pe n &&& ~~~eirf))
  | bind (s : Intc) (pe : Fin 8) (n : Nat) (v : Word) (h : ownChannels ≤ n) :
      Change s
        (({ s with intc2 := { s.intc2 with eibd := Function.update s.intc2.eibd (n - ownChannels) v } } : Intc).notify pe n)
  | feint (s : Intc) (pe : Fin 8) :
      Change s
        { s with
          own := Function.update s.own pe { s.own pe with feint := true }
          irqDirty := Function.update s.irqDirty pe true }
  | ackFe (s : Intc) (pe : Fin 8) : Change s (s.ackFe pe)
  | raiseNmi (s : Intc) : Change s s.raiseNmi
  | ackFenmi (s : Intc) (pe : Fin 8) : Change s (s.ackFenmi pe)
  | other (s : Intc) (tptmsel : Word) (nmif : Bool) : Change s { s with tptmsel := tptmsel, nmif := nmif }

/-- A series of changes. -/
abbrev Changes : Intc → Intc → Prop := Relation.ReflTransGen Change

theorem changes_raise (s : Intc) (pe : Fin 8) (channel : Nat) : Changes s (s.raise pe channel) := by
  rw [raise]
  split_ifs
  · exact .refl
  · exact .single (.store ..)

theorem changes_imrWrite (s : Intc) (pe : Fin 8) (m : Nat) (val : Word) : Changes s (s.imrWrite pe m val) := by
  rw [imrWrite]
  generalize List.range 32 = l
  induction l generalizing s with
  | nil => exact .refl
  | cons b l ih =>
    have hbit : Changes s (s.imrBit pe m val b) := by
      rw [imrBit]
      dsimp only
      split_ifs
      · exact .refl
      · exact .single (.store ..)
      · exact .refl
      · exact .single (.store ..)
      · exact .refl
    exact hbit.trans (ih _)

theorem changes_intc1Write (s : Intc) (pe : Fin 8) (off : Nat) (val : Word) : Changes s (s.intc1Write pe off val) := by
  rw [intc1Write]
  split_ifs
  · exact .single (.store ..)
  · exact changes_imrWrite ..
  · exact .single (.store ..)
  · exact .refl

theorem changes_intc2Write (s : Intc) (pe : Fin 8) (off : Nat) (val : Word) : Changes s (s.intc2Write pe off val) := by
  rw [intc2Write]
  dsimp only
  split_ifs with _ _ _ _ hbind
  · exact .single (.store ..)
  · exact changes_imrWrite ..
  · exact .refl
  · exact .single (.bind _ _ _ _ hbind)
  · exact .refl
  · exact .single (.store ..)
  · exact .refl
  · exact .refl

theorem changes (s : Intc) (op : Op) : Changes s (s.apply op) := by
  cases op with
  | raise pe channel => exact changes_raise s pe channel
  | ack pe channel =>
    change Changes s (s.ack pe channel)
    rw [ack]
    dsimp only
    split_ifs
    · exact .refl
    · exact .single (.ack ..)
    · exact .refl
  | intc1 pe off val => exact changes_intc1Write s pe off val
  | intc2 pe off val => exact changes_intc2Write s pe off val
  | raiseTptm pe =>
    change Changes s (s.raiseTptm pe)
    rw [raiseTptm]
    split_ifs
    · exact changes_raise s pe _
    · exact .single (.feint s pe)
  | ackFe pe => exact .single (.ackFe s pe)
  | raiseNmi => exact .single (.raiseNmi s)
  | ackFenmi pe => exact .single (.ackFenmi s pe)
  | intif off val =>
    change Changes s (s.intifWrite off val)
    rw [intifWrite]
    split_ifs
    · exact .single (.other s _ s.nmif)
    · exact .refl
  | fenc off val =>
    change Changes s (s.fencWrite off val)
    rw [fencWrite]
    split_ifs
    · exact .single (.other s s.tptmsel _)
    · exact .refl

/-! ## The bitmaps -/

/-- The bit of a channel. -/
def pendBit (s : Intc) (pe : Fin 8) (n : Nat) : Bool :=
  if n < ownChannels then (s.own pe).pend.getLsbD n else BitWalk.bitAt s.intc2.pend (n - ownChannels)

/-- The bits are those of the channels that are requested and not masked. -/
def Agrees (s : Intc) : Prop := ∀ pe n, s.pendBit pe n = requested (s.chanGet pe n)

/-- Two cores' channels of one number are the same one from the shared controller's on. -/
def Same (pe pe' : Fin 8) (n n' : Nat) : Prop := n = n' ∧ (n < ownChannels → pe = pe')

instance (pe pe' : Fin 8) (n n' : Nat) : Decidable (Same pe pe' n n') := by
  unfold Same
  infer_instance

theorem own_chanPut {n : Nat} (hn : n < ownChannels) (s : Intc) (pe pe' : Fin 8) (v : Word) :
    (s.chanPut pe n v).own pe' = if pe = pe' then (s.own pe').put n v else s.own pe' := by
  rw [chanPut, if_pos hn]
  change Function.update s.own pe _ pe' = _
  rw [Function.update_apply]
  by_cases h : pe = pe'
  · subst h
    rfl
  · rw [if_neg h, if_neg fun heq => h heq.symm]

theorem intc2_chanPut_own {n : Nat} (hn : n < ownChannels) (s : Intc) (pe : Fin 8) (v : Word) :
    (s.chanPut pe n v).intc2 = s.intc2 := by
  rw [chanPut, if_pos hn]

theorem chanPut_shared {n : Nat} (hn : ¬n < ownChannels) (s : Intc) (pe : Fin 8) (v : Word) :
    s.chanPut pe n v = { s with intc2 := s.intc2.put (n - ownChannels) v } := if_neg hn

/-- Whatever reads a core's channel off its own word or off the shared one reads what was put, or what was there. -/
theorem read_chanPut {β : Type} (own : Intc1 → Nat → β) (shared : Intc2 → Nat → β) (f : Word → β)
    (hown : ∀ ic n n' v, n < ownChannels → n' < ownChannels → own (ic.put n v) n' = if n = n' then f v else own ic n')
    (hshared : ∀ g i i' v, shared (g.put i v) i' = if i = i' then f v else shared g i')
    (s : Intc) (pe pe' : Fin 8) (n n' : Nat) (v : Word) :
    (if n' < ownChannels then own ((s.chanPut pe n v).own pe') n'
      else shared (s.chanPut pe n v).intc2 (n' - ownChannels)) =
      if Same pe pe' n n' then f v
      else if n' < ownChannels then own (s.own pe') n' else shared s.intc2 (n' - ownChannels) := by
  by_cases hn : n < ownChannels
  · by_cases hn' : n' < ownChannels
    · rw [if_pos hn', if_pos hn', own_chanPut hn]
      by_cases hpe : pe = pe'
      · rw [if_pos hpe, hown _ _ _ _ hn hn']
        simp only [Same, hpe, implies_true, and_true]
      · have hnot : ¬Same pe pe' n n' := fun h => hpe (h.2 hn)
        rw [if_neg hpe, if_neg hnot]
    · have hnot : ¬Same pe pe' n n' := fun h => hn' (h.1 ▸ hn)
      rw [if_neg hn', if_neg hn', if_neg hnot, intc2_chanPut_own hn]
  · rw [chanPut_shared hn]
    by_cases hn' : n' < ownChannels
    · have hnot : ¬Same pe pe' n n' := fun h => hn (h.1 ▸ hn')
      rw [if_pos hn', if_pos hn', if_neg hnot]
    · have hsub : n - ownChannels = n' - ownChannels ↔ n = n' := by omega
      rw [if_neg hn', if_neg hn', hshared]
      simp only [Same, hn, hsub, false_imp_iff, and_true]

theorem chanGet_chanPut (s : Intc) (pe pe' : Fin 8) (n n' : Nat) (v : Word) :
    (s.chanPut pe n v).chanGet pe' n' = if Same pe pe' n n' then v else s.chanGet pe' n' := by
  refine read_chanPut Intc1.chan Intc2.chan id (fun ic n n' v _ _ => ?_) (fun g i i' v => ?_) s pe pe' n n' v
  · change Function.update ic.chan n v n' = _
    simp only [Function.update_apply, eq_comm, id]
  · change Function.update g.chan i v i' = _
    simp only [Function.update_apply, eq_comm, id]

theorem pendBit_chanPut (s : Intc) (pe pe' : Fin 8) (n n' : Nat) (v : Word) :
    (s.chanPut pe n v).pendBit pe' n' = if Same pe pe' n n' then requested v else s.pendBit pe' n' := by
  refine read_chanPut (fun ic n => ic.pend.getLsbD n) (fun g i => BitWalk.bitAt g.pend i) requested
    (fun ic n n' v hn hn' => ?_) (fun g i i' v => ?_) s pe pe' n n' v
  · -- one word is a row of one
    have hrow := BitWalk.bitAt_setBit (w := 32) (by decide) (fun _ => ic.pend) n (requested v) n'
    have hlt : n < 32 := hn
    have hlt' : n' < 32 := hn'
    rw [BitWalk.bitAt, BitWalk.bitAt, BitWalk.setBit, Nat.div_eq_of_lt hlt, Nat.div_eq_of_lt hlt', Nat.mod_eq_of_lt hlt,
      Nat.mod_eq_of_lt hlt', Function.update_self] at hrow
    simp only [eq_comm (a := n)]
    exact hrow
  · have hbit := BitWalk.bitAt_setBit (w := 32) (by decide) g.pend i (requested v) i'
    simp only [eq_comm (a := i)]
    exact hbit

theorem Agrees.chanPut {s : Intc} (h : s.Agrees) (pe : Fin 8) (n : Nat) (v : Word) : (s.chanPut pe n v).Agrees := by
  intro pe' n'
  rw [pendBit_chanPut, chanGet_chanPut]
  split_ifs
  · rfl
  · exact h pe' n'

/-- The channels are in every core's controller what they were. -/
structure SameChannels (s s' : Intc) : Prop where
  ownChan : ∀ pe, (s'.own pe).chan = (s.own pe).chan
  ownPend : ∀ pe, (s'.own pe).pend = (s.own pe).pend
  chan : s'.intc2.chan = s.intc2.chan
  pend : s'.intc2.pend = s.intc2.pend

theorem SameChannels.chanGet_eq {s s' : Intc} (h : SameChannels s s') (pe : Fin 8) (n : Nat) :
    s'.chanGet pe n = s.chanGet pe n := by
  rw [chanGet, chanGet, h.ownChan, h.chan]

theorem SameChannels.pendBit_eq {s s' : Intc} (h : SameChannels s s') (pe : Fin 8) (n : Nat) :
    s'.pendBit pe n = s.pendBit pe n := by
  rw [pendBit, pendBit, h.ownPend, h.pend]

theorem Agrees.congr {s s' : Intc} (h : s.Agrees) (hs : SameChannels s s') : s'.Agrees := by
  intro pe n
  rw [hs.pendBit_eq, hs.chanGet_eq]
  exact h pe n

theorem sameChannels_notify (s : Intc) (pe : Fin 8) (n : Nat) : SameChannels s (s.notify pe n) := by
  rw [notify]
  split_ifs
  · exact ⟨fun _ => rfl, fun _ => rfl, rfl, rfl⟩
  · exact ⟨fun _ => rfl, fun _ => rfl, rfl, rfl⟩

theorem sameChannels_own (s : Intc) (pe : Fin 8) (feint fenmi : Bool) (irqDirty : Fin 8 → Bool) :
    SameChannels s { s with
      own := Function.update s.own pe { s.own pe with feint := feint, fenmi := fenmi }
      irqDirty := irqDirty } := by
  refine ⟨fun pe' => ?_, fun pe' => ?_, rfl, rfl⟩
  · change (Function.update s.own pe _ pe').chan = _
    rw [Function.update_apply]
    split_ifs with h
    · rw [h]
    · rfl
  · change (Function.update s.own pe _ pe').pend = _
    rw [Function.update_apply]
    split_ifs with h
    · rw [h]
    · rfl

theorem Agrees.change {s s' : Intc} (h : s.Agrees) (hc : Change s s') : s'.Agrees := by
  cases hc with
  | store pe n v => exact (h.chanPut pe n v).congr (sameChannels_notify _ pe n)
  | ack pe n => exact h.chanPut pe n _
  | bind pe n v hn =>
    have hbound : Agrees { s with intc2 := { s.intc2 with eibd := Function.update s.intc2.eibd (n - ownChannels) v } } :=
      h.congr ⟨fun _ => rfl, fun _ => rfl, rfl, rfl⟩
    exact hbound.congr (sameChannels_notify _ pe n)
  | feint pe => exact h.congr (sameChannels_own s pe true (s.own pe).fenmi _)
  | ackFe pe => exact h.congr (sameChannels_own s pe false (s.own pe).fenmi s.irqDirty)
  | raiseNmi => exact h.congr ⟨fun _ => rfl, fun _ => rfl, rfl, rfl⟩
  | ackFenmi pe => exact h.congr (sameChannels_own s pe (s.own pe).feint false s.irqDirty)
  | other tptmsel nmif => exact h.congr ⟨fun _ => rfl, fun _ => rfl, rfl, rfl⟩

theorem agrees_init (irqDirty : Fin 8 → Bool) : (init irqDirty).Agrees := by
  intro pe n
  have hmasked : requested eeicReset = false := by decide
  rw [pendBit, chanGet]
  split_ifs
  · exact BitVec.getLsbD_zero.trans hmasked.symm
  · exact BitVec.getLsbD_zero.trans hmasked.symm

theorem Agrees.changes {s s' : Intc} (h : s.Agrees) (hc : Changes s s') : s'.Agrees := by
  induction hc with
  | refl => exact h
  | tail _ hlast ih => exact ih.change hlast

/-- The bitmaps agree with the words after any operations. -/
theorem Agrees.run {s : Intc} (h : s.Agrees) (ops : List Op) : (s.run ops).Agrees := by
  induction ops generalizing s with
  | nil => exact h
  | cons op ops ih => exact ih (h.changes (Intc.changes s op))

/-! ## What the search finds -/

/-- A channel is a core's: its own, or a shared one that EIBD binds to it. -/
def Bound (s : Intc) (pe : Fin 8) (n : Nat) : Prop :=
  n < ownChannels ∨ n < intChannels ∧ (s.intc2.eibd (n - ownChannels) &&& eibdPeidMask).toNat = pe

/-- A core's channel that is requested and not masked. -/
def Pending (s : Intc) (pe : Fin 8) (n : Nat) : Prop := s.Bound pe n ∧ requested (s.chanGet pe n) = true

/-- The shared channels that the search visits, in order. -/
def visitedShared (s : Intc) (pe : Fin 8) : List Nat :=
  ((List.range (32 * intc2Words)).filter (BitWalk.bitAt s.intc2.pend)).filter fun i =>
    (s.intc2.eibd i &&& eibdPeidMask).toNat = pe

/-- What the search visits, in order. -/
def visited (s : Intc) (pe : Fin 8) : List Nat :=
  BitWalk.bitsOf (s.own pe).pend ++ (s.visitedShared pe).map (· + ownChannels)

theorem mem_bitsOf_own {s : Intc} {pe : Fin 8} {n : Nat} :
    n ∈ BitWalk.bitsOf (s.own pe).pend ↔ n < ownChannels ∧ s.pendBit pe n = true := by
  rw [BitWalk.bitsOf, List.mem_filter, List.mem_range, pendBit]
  change n < ownChannels ∧ _ ↔ _
  refine and_congr_right fun hn => ?_
  rw [if_pos hn]

theorem mem_visitedShared {s : Intc} {pe : Fin 8} {i : Nat} :
    i ∈ s.visitedShared pe ↔
      i + ownChannels < intChannels ∧ (s.intc2.eibd i &&& eibdPeidMask).toNat = pe ∧
        s.pendBit pe (i + ownChannels) = true := by
  have hbit : s.pendBit pe (i + ownChannels) = BitWalk.bitAt s.intc2.pend i := by
    rw [pendBit, if_neg (Nat.not_lt.mpr (Nat.le_add_left ..)), Nat.add_sub_cancel]
  have hlt : i < 32 * intc2Words ↔ i + ownChannels < intChannels := by
    unfold intc2Words ownChannels intChannels
    omega
  rw [visitedShared, List.mem_filter, List.mem_filter, List.mem_range, hbit, hlt, decide_eq_true_iff, and_assoc,
    and_comm (a := BitWalk.bitAt s.intc2.pend i = true)]

/-- The search visits the core's channels whose bits are set. -/
theorem mem_visited {s : Intc} {pe : Fin 8} {n : Nat} :
    n ∈ s.visited pe ↔ s.Bound pe n ∧ s.pendBit pe n = true := by
  rw [visited, List.mem_append, mem_bitsOf_own, List.mem_map, Bound]
  constructor
  · rintro (⟨hn, hbit⟩ | ⟨i, hi, rfl⟩)
    · exact ⟨.inl hn, hbit⟩
    · obtain ⟨hlt, hpe, hbit⟩ := mem_visitedShared.mp hi
      rw [Nat.add_sub_cancel]
      exact ⟨.inr ⟨hlt, hpe⟩, hbit⟩
  · rintro ⟨hbound, hbit⟩
    by_cases hn : n < ownChannels
    · exact .inl ⟨hn, hbit⟩
    · have hsub : n - ownChannels + ownChannels = n := Nat.sub_add_cancel (Nat.not_lt.mp hn)
      obtain ⟨hlt, hpe⟩ := hbound.resolve_left hn
      refine .inr ⟨n - ownChannels, mem_visitedShared.mpr ?_, hsub⟩
      rw [hsub]
      exact ⟨hlt, hpe, hbit⟩

theorem pairwise_visited (s : Intc) (pe : Fin 8) : (s.visited pe).Pairwise (· < ·) := by
  have hshared : (s.visitedShared pe).Pairwise (· < ·) := (List.pairwise_lt_range.filter _).filter _
  rw [visited, List.pairwise_append]
  refine ⟨List.pairwise_lt_range.filter _, hshared.map _ fun i j h => Nat.add_lt_add_right h _, ?_⟩
  -- the core's own come first
  intro n hn n' hn'
  obtain ⟨i, -, rfl⟩ := List.mem_map.mp hn'
  exact (mem_bitsOf_own.mp hn).1.trans_le (Nat.le_add_left ..)

/-- What the search answers with: no channel while the priority is the one it started with. -/
def answer (best : Nat × Nat) : Option Nat × Nat := (if best.2 < 64 then some best.1 else none, best.2)

theorem pri_lt (s : Intc) (pe : Fin 8) (n : Nat) : s.pri pe n < 64 := by
  have hle : s.pri pe n ≤ eipMask.toNat := by
    rw [pri, BitVec.toNat_and]
    exact Nat.and_le_right
  exact hle.trans_lt (by decide)

theorem consider_answer (s : Intc) (pe : Fin 8) (n : Nat) (best : Nat × Nat) :
    consider (s.chanGet pe n) n (answer best) = answer (FirstMin.step (s.pri pe) best n) := by
  rw [consider, ← pri, FirstMin.step]
  change (if s.pri pe n < best.2 then _ else _) = _
  split_ifs
  · rw [answer, if_pos (s.pri_lt pe n)]
  · rfl

/-- The search is the scan for the first of the least. -/
theorem pendingPri_eq_scan (s : Intc) (pe : Fin 8) :
    s.pendingPri pe = answer (FirstMin.scan (s.pri pe) (s.visited pe) (0, 64)) := by
  have hown : ∀ best, ∀ n ∈ BitWalk.bitsOf (s.own pe).pend,
      consider ((s.own pe).chan n) n best = consider (s.chanGet pe n) n best := by
    intro best n hn
    rw [chanGet, if_pos (mem_bitsOf_own.mp hn).1]
  have hshared : ∀ best i, consider (s.intc2.chan i) (i + ownChannels) best =
      consider (s.chanGet pe (i + ownChannels)) (i + ownChannels) best := by
    intro best i
    rw [chanGet, if_neg (Nat.not_lt.mpr (Nat.le_add_left ..)), Nat.add_sub_cancel]
  have hhom : (s.visited pe).foldl (fun best n => consider (s.chanGet pe n) n best) (answer (0, 64)) =
      answer ((s.visited pe).foldl _ (0, 64)) := List.foldl_hom answer fun best n => s.consider_answer pe n best
  rw [FirstMin.scan, ← hhom, visited, List.foldl_append, List.foldl_map, ← List.foldl_ext _ _ _ hown, visitedShared,
    List.foldl_filter, pendingPri, BitWalk.walk_width, BitWalk.walkWords_eq_foldl]
  congr 1
  funext best i
  simp only [hshared, decide_eq_true_iff, ite_not]

theorem pendingPri_of_visited_nil {s : Intc} {pe : Fin 8} (h : s.visited pe = []) : s.pendingPri pe = (none, 64) := by
  rw [pendingPri_eq_scan, h]
  rfl

/-- Priority first and number second, the search ends at the least of what it visits. -/
theorem pendingPri_of_visited {s : Intc} {pe : Fin 8} (h : s.visited pe ≠ []) :
    ∃ n ∈ s.visited pe, s.pendingPri pe = (some n, s.pri pe n) ∧
      ∀ n' ∈ s.visited pe, toLex (s.pri pe n, n) ≤ toLex (s.pri pe n', n') := by
  obtain ⟨hmem, hval, hlt⟩ := FirstMin.scan_mem (f := s.pri pe) (0, 64) (fun n _ => s.pri_lt pe n) h
  refine ⟨_, hmem, ?_, fun n' hn' => FirstMin.scan_least (s.pairwise_visited pe) hlt hn'⟩
  rw [pendingPri_eq_scan, answer, if_pos hlt, hval]

theorem mem_visited_iff_pending {s : Intc} (h : s.Agrees) {pe : Fin 8} {n : Nat} : n ∈ s.visited pe ↔ s.Pending pe n := by
  rw [mem_visited, h, Pending]

/-- A channel that comes first among those that are pending for a core. -/
def Best (s : Intc) (pe : Fin 8) (n : Nat) : Prop :=
  s.Pending pe n ∧ ∀ n', s.Pending pe n' → toLex (s.pri pe n, n) ≤ toLex (s.pri pe n', n')

theorem Best.unique {s : Intc} {pe : Fin 8} {n n' : Nat} (h : s.Best pe n) (h' : s.Best pe n') : n = n' := by
  have heq := le_antisymm (h.2 n' h'.1) (h'.2 n h.1)
  exact congrArg (fun p => (ofLex p).2) heq

/-- The search answers with the core's best channel, or with none where none is pending. -/
theorem pendingPri_cases {s : Intc} (h : s.Agrees) (pe : Fin 8) :
    (s.pendingPri pe = (none, 64) ∧ ∀ n, ¬s.Pending pe n) ∨
      ∃ n, s.pendingPri pe = (some n, s.pri pe n) ∧ s.Best pe n := by
  by_cases hnil : s.visited pe = []
  · refine .inl ⟨pendingPri_of_visited_nil hnil, fun n hn => ?_⟩
    have hmem := (mem_visited_iff_pending h).mpr hn
    rw [hnil] at hmem
    exact List.not_mem_nil hmem
  · obtain ⟨n, hmem, heq, hle⟩ := pendingPri_of_visited hnil
    exact .inr ⟨n, heq, (mem_visited_iff_pending h).mp hmem, fun n' hn' => hle n' ((mem_visited_iff_pending h).mpr hn')⟩

end Intc

end Emu.G4mh
