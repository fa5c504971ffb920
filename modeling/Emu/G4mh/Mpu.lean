-- SUMMARY: The G4MH memory protection unit: what an access is permitted, the check of a span at once, and that they agree.
import Mathlib
import Emu.Ir.Syntax

/-! # The memory protection unit

Thirty-two areas, each with the rights of either mode and a gate on the SPID of the master. An access is permitted if one
enabled area has the whole of it and permits it. The setting check answers for a span, for both modes and the three kinds of
access at once. -/

namespace Emu.G4mh

namespace Mpu

/-! ## Bits and register numbers -/

def mpmMpe : Nat := 0
def mpmSvp : Nat := 1

def mpatUr : Nat := 0
def mpatUw : Nat := 1
def mpatUx : Nat := 2
def mpatSr : Nat := 3
def mpatSw : Nat := 4
def mpatSx : Nat := 5
def mpatE : Nat := 7
def mpatRg : Nat := 14
def mpatWg : Nat := 15
def mpatRmpidShift : Nat := 16
def mpatWmpidShift : Nat := 24

def mcrUre : Nat := 0
def mcrUwe : Nat := 1
def mcrUxe : Nat := 2
def mcrSre : Nat := 3
def mcrSwe : Nat := 4
def mcrSxe : Nat := 5
def mcrOv : Nat := 8

/-- `G4MH_MCR_ATTR`. -/
def mcrAttr : Word := 0x3F

/-- `G4MH_MPID_SPID_MASK`. -/
def mpidSpidMask : Word := 0x1F

/-- `G4MH_MPCFG_VALUE`. -/
def mpcfgValue : Word := 0x2001F

def srMpm : Nat := 0
def srMpcfg : Nat := 2
def srMca : Nat := 8
def srMcs : Nat := 9
def srMcc : Nat := 10
def srMcr : Nat := 11
def srMci : Nat := 12
def srMpidx : Nat := 16
def srMpbk : Nat := 17
def srMpla : Nat := 20
def srMpua : Nat := 21
def srMpat : Nat := 22
def srMpid0 : Nat := 24

/-- `g4mh_mpu_acc_t`. -/
inductive Acc where
  | fetch
  | read
  | write
  deriving DecidableEq

end Mpu

/-- `g4mh_mpu_t`. -/
structure Mpu where
  mpla : Fin 32 → Word
  mpua : Fin 32 → Word
  mpat : Fin 32 → Word
  mpid : Fin 8 → Word
  mpm : Word
  mpidx : Word
  mca : Word
  mcs : Word
  mcr : Word
  mci : Word

namespace Mpu

/-- `g4mh_mpu_reset`. -/
def mpuReset : Mpu where
  mpla := fun _ => 0
  mpua := fun _ => 0
  mpat := fun _ => 0
  mpid := fun _ => 0
  mpm := 0
  mpidx := 0
  mca := 0
  mcs := 0
  mcr := 0
  mci := 0

/-- `g4mh_mpu_is_active`. -/
def isActive (m : Mpu) : Bool := m.mpm.getLsbD mpmMpe

/-! ## An access -/

/-- `spid_permits`. -/
def spidPermits (m : Mpu) (attr : Word) (write : Bool) (spid : Word) : Bool :=
  attr.getLsbD (if write then mpatWg else mpatRg) ||
    let perm := attr >>> (if write then mpatWmpidShift else mpatRmpidShift)
    (List.finRange 8).any fun i => perm.getLsbD i && m.mpid i &&& mpidSpidMask = spid

/-- The right of the mode group that an access needs. -/
def need (acc : Acc) (userMode : Bool) : Nat :=
  match acc with
  | .fetch => if userMode then mpatUx else mpatSx
  | .write => if userMode then mpatUw else mpatSw
  | .read => if userMode then mpatUr else mpatSr

/-- An enabled area has all of the addresses. -/
def covers (m : Mpu) (lo hi : Word) (i : Fin 32) : Bool :=
  (m.mpat i).getLsbD mpatE && (m.mpla i &&& ~~~3) ≤ lo && hi ≤ (m.mpua i ||| 3)

/-- `g4mh_mpu_permits`. -/
def permits (m : Mpu) (addr size : Word) (acc : Acc) (userMode : Bool) (spid : Word) : Bool :=
  if !userMode && !m.mpm.getLsbD mpmSvp then true
  else
    let last := addr + size - 1
    if last < addr then false
    else
      (List.finRange 32).any fun i =>
        m.covers addr last i && ((m.mpat i).getLsbD (need acc userMode) && m.spidPermits (m.mpat i) (acc = .write) spid)

/-! ## The setting check -/

/-- A bit of MCR for a right. -/
def grant (attr : Word) (right bit : Nat) : Word := if attr.getLsbD right then BitVec.twoPow 32 bit else 0

/-- What an area that has the span adds to MCR. -/
def rights (m : Mpu) (i : Fin 32) : Word :=
  let attr := m.mpat i
  (if m.spidPermits attr false m.mci then
      grant attr mpatSx mcrSxe ||| grant attr mpatSr mcrSre ||| grant attr mpatUx mcrUxe ||| grant attr mpatUr mcrUre
    else 0) |||
    if m.spidPermits attr true m.mci then grant attr mpatSw mcrSwe ||| grant attr mpatUw mcrUwe else 0

/-- The supervisor's bits while MPM.SVP is clear. -/
def svFree (m : Mpu) : Word :=
  if m.mpm.getLsbD mpmSvp then 0 else BitVec.twoPow 32 mcrSxe ||| BitVec.twoPow 32 mcrSwe ||| BitVec.twoPow 32 mcrSre

/-- `check_span`. -/
def checkSpan (m : Mpu) : Word :=
  if !m.mpm.getLsbD mpmMpe then mcrAttr
  else
    let lo := m.mca
    let hi := m.mca + (m.mcs - 1)
    if hi < lo ∨ lo ≤ 0x7FFFFFFF ∧ 0x80000000 ≤ hi then BitVec.twoPow 32 mcrOv ||| m.svFree
    else (List.finRange 32).foldl (fun r i => r ||| if m.covers lo hi i then m.rights i else 0) 0 ||| m.svFree

/-! ## The registers of selID 5 -/

/-- `entry_index`: five bits name one of thirty-two entries. -/
def entryIndex (m : Mpu) : Fin 32 :=
  ⟨(m.mpidx &&& 0x1F).toNat, by
    rw [BitVec.toNat_and]
    exact Nat.lt_of_le_of_lt Nat.and_le_right (by decide)⟩

/-- `g4mh_mpu_sr_read`. -/
def srRead (m : Mpu) (reg : Nat) : Option Word :=
  if reg = srMpm then some m.mpm
  else if reg = srMpcfg then some mpcfgValue
  else if reg = srMpidx then some m.mpidx
  else if reg = srMpbk then some 0
  else if reg = srMca then some m.mca
  else if reg = srMcs then some m.mcs
  else if reg = srMcc then some 0
  else if reg = srMcr then some m.mcr
  else if reg = srMci then some m.mci
  else if reg = srMpla then some (m.mpla m.entryIndex)
  else if reg = srMpua then some (m.mpua m.entryIndex)
  else if reg = srMpat then some (m.mpat m.entryIndex)
  else if h : srMpid0 ≤ reg ∧ reg < srMpid0 + 8 then some (m.mpid ⟨reg - srMpid0, by omega⟩)
  else none

/-- `g4mh_mpu_entry_write`. -/
def entryWrite (m : Mpu) (e : Fin 32) (reg : Nat) (val : Word) : Mpu :=
  if reg = srMpla then { m with mpla := Function.update m.mpla e (val &&& ~~~3) }
  else if reg = srMpua then { m with mpua := Function.update m.mpua e (val &&& ~~~3) }
  else if reg = srMpat then { m with mpat := Function.update m.mpat e (val &&& 0xFFFFC0BF) }
  else m

/-- `g4mh_mpu_sr_write`: none for a register that is not the unit's. -/
def srWrite (m : Mpu) (reg : Nat) (val : Word) : Option Mpu :=
  if reg = srMpm then some { m with mpm := val &&& (BitVec.twoPow 32 mpmMpe ||| BitVec.twoPow 32 mpmSvp) }
  else if reg = srMpcfg ∨ reg = srMpbk then some m
  else if reg = srMpidx then some { m with mpidx := val &&& 0x1F }
  else if reg = srMca then some { m with mca := val }
  else if reg = srMcs then some { m with mcs := val }
  else if reg = srMcc then some { m with mcr := m.checkSpan }
  else if reg = srMcr then some { m with mcr := val &&& (BitVec.twoPow 32 mcrOv ||| mcrAttr) }
  else if reg = srMci then some { m with mci := val &&& mpidSpidMask }
  else if reg = srMpla ∨ reg = srMpua ∨ reg = srMpat then some (m.entryWrite m.entryIndex reg val)
  else if h : srMpid0 ≤ reg ∧ reg < srMpid0 + 8 then
    some { m with mpid := Function.update m.mpid ⟨reg - srMpid0, by omega⟩ (val &&& mpidSpidMask) }
  else none

/-! ## The check is the judgement of an access -/

/-- The bit of MCR for an access. -/
def mcrBit (acc : Acc) (userMode : Bool) : Nat :=
  match acc with
  | .fetch => if userMode then mcrUxe else mcrSxe
  | .write => if userMode then mcrUwe else mcrSwe
  | .read => if userMode then mcrUre else mcrSre

/-- The bytes of the span: MCS, or 2³² for 0. -/
def spanSize (m : Mpu) : Nat := if m.mcs = 0 then 2 ^ 32 else m.mcs.toNat

/-- The span goes on from 0xFFFFFFFF to 0, or from 0x7FFFFFFF to 0x80000000. -/
def Crosses (m : Mpu) : Prop :=
  2 ^ 32 < m.mca.toNat + m.spanSize ∨ m.mca.toNat < 2 ^ 31 ∧ 2 ^ 31 < m.mca.toNat + m.spanSize

/-- The span has all of an access. -/
def Inside (m : Mpu) (addr size : Word) : Prop :=
  0 < size.toNat ∧ m.mca.toNat ≤ addr.toNat ∧ addr.toNat + size.toNat ≤ m.mca.toNat + m.spanSize

theorem getLsbD_if (c : Bool) (x : Word) (k : Nat) : (if c then x else 0).getLsbD k = (c && x.getLsbD k) := by
  cases c with
  | false => exact BitVec.getLsbD_zero
  | true => rfl

theorem getLsbD_grant (attr : Word) (right : Nat) {bit : Nat} (h : bit < 32) (k : Nat) :
    (grant attr right bit).getLsbD k = (attr.getLsbD right && decide (bit = k)) := by
  rw [grant, getLsbD_if, BitVec.getLsbD_twoPow, decide_eq_true h, Bool.true_and]

theorem getLsbD_rights (m : Mpu) (i : Fin 32) (k : Nat) :
    (m.rights i).getLsbD k =
      (m.spidPermits (m.mpat i) false m.mci &&
          ((m.mpat i).getLsbD mpatSx && decide (mcrSxe = k) || (m.mpat i).getLsbD mpatSr && decide (mcrSre = k) ||
            (m.mpat i).getLsbD mpatUx && decide (mcrUxe = k) || (m.mpat i).getLsbD mpatUr && decide (mcrUre = k)) ||
        m.spidPermits (m.mpat i) true m.mci &&
          ((m.mpat i).getLsbD mpatSw && decide (mcrSwe = k) || (m.mpat i).getLsbD mpatUw && decide (mcrUwe = k))) := by
  rw [rights, BitVec.getLsbD_or, getLsbD_if, getLsbD_if]
  simp only [BitVec.getLsbD_or, getLsbD_grant _ _ (show mcrSxe < 32 by decide), getLsbD_grant _ _ (show mcrSre < 32 by decide),
    getLsbD_grant _ _ (show mcrUxe < 32 by decide), getLsbD_grant _ _ (show mcrUre < 32 by decide),
    getLsbD_grant _ _ (show mcrSwe < 32 by decide), getLsbD_grant _ _ (show mcrUwe < 32 by decide)]

/-- An area adds the bit of an access that it permits. -/
theorem getLsbD_rights_mcrBit (m : Mpu) (i : Fin 32) (acc : Acc) (userMode : Bool) :
    (m.rights i).getLsbD (mcrBit acc userMode) =
      ((m.mpat i).getLsbD (need acc userMode) && m.spidPermits (m.mpat i) (acc = .write) m.mci) := by
  rw [getLsbD_rights]
  cases acc <;> cases userMode <;>
    simp [mcrBit, need, mcrUre, mcrUwe, mcrUxe, mcrSre, mcrSwe, mcrSxe, Bool.and_comm]

theorem getLsbD_rights_ov (m : Mpu) (i : Fin 32) : (m.rights i).getLsbD mcrOv = false := by
  rw [getLsbD_rights]
  simp [mcrOv, mcrUre, mcrUwe, mcrUxe, mcrSre, mcrSwe, mcrSxe]

theorem getLsbD_svFree (m : Mpu) (acc : Acc) (userMode : Bool) :
    m.svFree.getLsbD (mcrBit acc userMode) = (!userMode && !m.mpm.getLsbD mpmSvp) := by
  rw [svFree]
  cases m.mpm.getLsbD mpmSvp <;> cases acc <;> cases userMode <;> decide

theorem getLsbD_svFree_ov (m : Mpu) : m.svFree.getLsbD mcrOv = false := by
  rw [svFree]
  cases m.mpm.getLsbD mpmSvp <;> decide

/-- A bit of what the areas add is one that some area adds. -/
theorem getLsbD_foldl_or (f : Fin 32 → Word) (k : Nat) (l : List (Fin 32)) (r : Word) :
    (l.foldl (fun r i => r ||| f i) r).getLsbD k = (r.getLsbD k || l.any fun i => (f i).getLsbD k) := by
  induction l generalizing r with
  | nil => simp
  | cons i l ih => rw [List.foldl_cons, ih, BitVec.getLsbD_or, List.any_cons, Bool.or_assoc]

/-- The check's test of the span is that it crosses. -/
theorem crosses_iff (m : Mpu) :
    (m.mca + (m.mcs - 1) < m.mca ∨ m.mca ≤ 0x7FFFFFFF ∧ 0x80000000 ≤ m.mca + (m.mcs - 1)) ↔ m.Crosses := by
  rw [Crosses, spanSize]
  generalize m.mca = lo
  generalize m.mcs = n
  by_cases hn : n = 0
  · subst hn
    rw [if_pos rfl]
    bv_omega
  · rw [if_neg hn]
    have hpos : n.toNat ≠ 0 := fun h => hn (BitVec.eq_of_toNat_eq h)
    bv_omega

/-- The last address of a span that does not cross. -/
theorem toNat_last {m : Mpu} (h : ¬m.Crosses) : (m.mca + m.mcs - 1).toNat + 1 = m.mca.toNat + m.spanSize := by
  rw [Crosses, spanSize] at h
  rw [spanSize]
  generalize m.mca = lo at h ⊢
  generalize m.mcs = n at h ⊢
  split_ifs at h ⊢ with hn
  · omega
  · have hpos : n.toNat ≠ 0 := fun h => hn (BitVec.eq_of_toNat_eq h)
    bv_omega

theorem checkSpan_of_crosses {m : Mpu} (hmpe : m.isActive = true) (h : m.Crosses) :
    m.checkSpan = BitVec.twoPow 32 mcrOv ||| m.svFree := by
  rw [isActive] at hmpe
  rw [checkSpan, hmpe]
  exact if_pos ((crosses_iff m).mpr h)

theorem checkSpan_of_not_crosses {m : Mpu} (hmpe : m.isActive = true) (h : ¬m.Crosses) :
    m.checkSpan = (List.finRange 32).foldl
      (fun r i => r ||| if m.covers m.mca (m.mca + (m.mcs - 1)) i then m.rights i else 0) 0 ||| m.svFree := by
  rw [isActive] at hmpe
  rw [checkSpan, hmpe]
  exact if_neg (mt (crosses_iff m).mp h)

/-- A bit that the check gives is the judgement of the access to the whole span. -/
theorem getLsbD_checkSpan {m : Mpu} (hmpe : m.isActive = true) (h : ¬m.Crosses) (acc : Acc) (userMode : Bool) :
    m.checkSpan.getLsbD (mcrBit acc userMode) = m.permits m.mca m.mcs acc userMode m.mci := by
  have hlast : m.mca + m.mcs - 1 = m.mca + (m.mcs - 1) := by bv_omega
  have hnowrap : ¬m.mca + (m.mcs - 1) < m.mca := fun hlt => h ((crosses_iff m).mp (.inl hlt))
  have harea (i : Fin 32) :
      (if m.covers m.mca (m.mca + (m.mcs - 1)) i then m.rights i else 0).getLsbD (mcrBit acc userMode) =
        (m.covers m.mca (m.mca + (m.mcs - 1)) i &&
          ((m.mpat i).getLsbD (need acc userMode) && m.spidPermits (m.mpat i) (acc = .write) m.mci)) := by
    rw [getLsbD_if, getLsbD_rights_mcrBit]
  rw [checkSpan_of_not_crosses hmpe h, BitVec.getLsbD_or, getLsbD_foldl_or, getLsbD_svFree, permits]
  simp only [harea, hlast]
  split_ifs with hfree
  · rw [hfree, Bool.or_true]
  · rw [Bool.not_eq_true] at hfree
    rw [hfree, Bool.or_false]
    simp

/-- An area that has a span has every part of it. -/
theorem covers_mono {m : Mpu} {lo hi lo' hi' : Word} {i : Fin 32} (h : m.covers lo hi i = true) (hlo : lo ≤ lo')
    (hhi : hi' ≤ hi) : m.covers lo' hi' i = true := by
  rw [covers, Bool.and_eq_true, Bool.and_eq_true, decide_eq_true_iff, decide_eq_true_iff] at h ⊢
  exact ⟨⟨h.1.1, BitVec.le_trans h.1.2 hlo⟩, BitVec.le_trans hhi h.2⟩

/-- A right to a span is a right to each access in it. -/
theorem permits_of_inside {m : Mpu} (h : ¬m.Crosses) {acc : Acc} {userMode : Bool} {spid : Word}
    (hp : m.permits m.mca m.mcs acc userMode spid = true) {addr size : Word} (hin : m.Inside addr size) :
    m.permits addr size acc userMode spid = true := by
  obtain ⟨hpos, hlo, hhi⟩ := hin
  have hlast := toNat_last h
  have hend := (m.mca + m.mcs - 1).isLt
  have hsize : (addr + size - 1).toNat + 1 = addr.toNat + size.toNat := by bv_omega
  rw [permits] at hp ⊢
  cases hfree : (!userMode && !m.mpm.getLsbD mpmSvp) with
  | true => rfl
  | false =>
    have hwrap : ¬addr + size - 1 < addr := by
      rw [BitVec.lt_def]
      omega
    have hwrap' : ¬m.mca + m.mcs - 1 < m.mca := by
      rw [BitVec.lt_def]
      omega
    simp only [hfree, hwrap, hwrap', Bool.false_eq_true, if_false, List.any_eq_true] at hp ⊢
    obtain ⟨i, hi, hok⟩ := hp
    rw [Bool.and_eq_true] at hok
    refine ⟨i, hi, ?_⟩
    rw [Bool.and_eq_true]
    refine ⟨covers_mono hok.1 ?_ ?_, hok.2⟩
    · exact BitVec.le_def.mpr hlo
    · rw [BitVec.le_def]
      omega

theorem srWrite_mcc (m : Mpu) (val : Word) : m.srWrite srMcc val = some { m with mcr := m.checkSpan } := rfl

/-- What a write of MCC leaves in MCR: for a span that does not cross, the judgement of an access to all of it, which is a
right to each access in it; and else OV, with what the supervisor has while MPM.SVP is clear. -/
theorem mcc_checks {m : Mpu} (hmpe : m.isActive = true) (val : Word) :
    ∃ m', m.srWrite srMcc val = some m' ∧
      (¬m.Crosses →
        m'.mcr.getLsbD mcrOv = false ∧
          ∀ acc userMode,
            m'.mcr.getLsbD (mcrBit acc userMode) = m.permits m.mca m.mcs acc userMode m.mci ∧
              (m.permits m.mca m.mcs acc userMode m.mci = true →
                ∀ addr size, m.Inside addr size → m.permits addr size acc userMode m.mci = true)) ∧
      (m.Crosses →
        m'.mcr.getLsbD mcrOv = true ∧
          ∀ acc, m'.mcr.getLsbD (mcrBit acc true) = false ∧
            m'.mcr.getLsbD (mcrBit acc false) = !m.mpm.getLsbD mpmSvp) := by
  refine ⟨_, srWrite_mcc m val, fun h => ⟨?_, fun acc userMode => ⟨?_, ?_⟩⟩, fun h => ?_⟩
  · change m.checkSpan.getLsbD mcrOv = false
    rw [checkSpan_of_not_crosses hmpe h, BitVec.getLsbD_or, getLsbD_foldl_or, getLsbD_svFree_ov]
    simp only [getLsbD_if, getLsbD_rights_ov, Bool.and_false, Bool.or_false]
    exact List.any_eq_false.mpr fun _ _ => Bool.false_ne_true
  · exact getLsbD_checkSpan hmpe h acc userMode
  · exact fun hp addr size hin => permits_of_inside h hp hin
  · change m.checkSpan.getLsbD mcrOv = true ∧ ∀ acc, m.checkSpan.getLsbD _ = _ ∧ m.checkSpan.getLsbD _ = _
    rw [checkSpan_of_crosses hmpe h]
    refine ⟨by rw [BitVec.getLsbD_or]; rfl, fun acc => ?_⟩
    have hov (userMode : Bool) : (BitVec.twoPow 32 mcrOv).getLsbD (mcrBit acc userMode) = false := by
      cases acc <;> cases userMode <;> decide
    rw [BitVec.getLsbD_or, BitVec.getLsbD_or, hov, hov, getLsbD_svFree, getLsbD_svFree]
    exact ⟨rfl, rfl⟩

/-- Two areas that overlap, the one to read and the other to write: a span in both. -/
theorem mcc_checks_overlap :
    let m : Mpu := { mpuReset with
      mpm := 3, mca := 0x1100, mcs := 0x10, mci := 5, mpla := fun _ => 0x1000,
      mpua := fun i => if i = 1 then 0x1FFC else 0x117C,
      mpat := fun i => if i = 1 then 0xC081 else if i = 2 then 0x01000082 else 0,
      mpid := fun _ => 5 }
    m.isActive = true ∧ ¬m.Crosses ∧ m.checkSpan = 3 ∧ m.permits 0x1104 4 .write true 5 = true := by
  intro m
  have hc : ¬m.Crosses := by
    rintro (h | ⟨-, h⟩)
    · exact absurd h (by decide)
    · exact absurd h (by decide)
  obtain ⟨m', -, hin, -⟩ := mcc_checks (m := m) (by decide) 0
  refine ⟨by decide, hc, by decide +kernel, ?_⟩
  exact ((hin hc).2 .write true).2 (by decide +kernel) 0x1104 4 ⟨by decide, by decide, by decide⟩

end Mpu

end Emu.G4mh
