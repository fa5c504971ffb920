-- SUMMARY: The send side of the telnet console: the ring between the guest's output and the connections that carry it.
import Emu.Ir.Syntax
import Emu.Lib.RingBuffer

/-! # Sending

The guest's output goes into a ring, and from there to whatever client is connected, as far as the connection takes it.
A new client is greeted with nine option bytes, which are put in front of what the ring holds, and is told when output
was dropped before it came. What a connection has not taken stays in the ring for the next one, the greeting included. -/

namespace Emu.Net

/-- Where a byte in the ring comes from, which the ring does not record. -/
inductive Origin where
  | option | console
  deriving DecidableEq, Repr

structure Sent where
  origin : Origin
  byte : Byte
  deriving DecidableEq, Repr

/-- `k_opts`: WILL ECHO, WILL SUPPRESS-GO-AHEAD, DONT ECHO. -/
def kOpts : List Sent := [255, 251, 1, 255, 251, 3, 255, 254, 1].map (Sent.mk .option)

/-- The line that says that output was dropped. -/
def notice : List Byte :=
  "\n[telnet: console output was dropped before connect]\n".toList.map fun c => BitVec.ofNat 8 c.toNat

/-! ## The model -/

/-- The send side: whether there is a connection, the ring of `TX_SIZE` bytes, and `g_tx_dropped`. -/
structure Console where
  conn : Bool
  tx : RingBuffer 32 12 Sent
  dropped : Word

namespace Console

/-- `emu_net_console_putc`. -/
def putc (s : Console) (c : Byte) : Console :=
  if h : s.tx.held < 2 ^ 12 then { s with tx := s.tx.push ⟨.console, c⟩ h } else { s with dropped := s.dropped + 1 }

/-- `console_puts`. -/
def puts (s : Console) : List Byte → Console
  | [] => s
  | c :: cs => (s.putc c).puts cs

/-- How much `telnet_flush` offers to the connection at a time: what the ring holds, up to its end and up to what the
connection has space for. -/
def piece (s : Console) (space : Nat) : Nat :=
  min (min s.tx.held (2 ^ 12 - (RingBuffer.cell 12 s.tx.tail).toNat)) space

theorem piece_le (s : Console) (space : Nat) : s.piece space ≤ s.tx.held :=
  Nat.le_trans (Nat.min_le_left ..) (Nat.min_le_left ..)

/-- `n` bytes have been handed on. -/
def took (s : Console) (n : Nat) (h : n ≤ s.tx.held) : Console := { s with tx := s.tx.drop n h }

/-- `telnet_flush`, with what it hands to `tcp_write`. It goes on until the ring is empty, the connection has no space
or refuses. -/
inductive Flush : Console → List Sent → Console → Prop where
  | done (s : Console) : Flush s [] s
  | wrote {s t : Console} {l : List Sent} {space : Nat} : s.conn = true → s.tx.held ≠ 0 → 0 < space → space < 2 ^ 16 →
      Flush (s.took (s.piece space) (s.piece_le space)) l t →
      Flush s (RingBuffer.window s.tx.cells (RingBuffer.cell 12 s.tx.tail) (s.piece space) ++ l) t

/-- The greeting, if there is room for it. -/
def greet (s : Console) : Console :=
  if h : s.tx.held + kOpts.length ≤ 2 ^ 12 then { s with tx := s.tx.unget kOpts h } else s

/-- The notice, if anything was dropped. -/
def announce (s : Console) : Console :=
  if s.dropped ≠ 0 then { s.puts notice with dropped := 0 } else s

/-- `telnet_accept`, up to the flush. -/
def accept (s : Console) : Console := { s.greet.announce with conn := true }

/-- `telnet_drop`, and `telnet_err`. -/
def hangUp (s : Console) : Console := { s with conn := false }

/-- The bytes of a line that `console_puts` gets into the ring. -/
def taken (s : Console) : List Byte → List Byte
  | [] => []
  | c :: cs => (if s.tx.held < 2 ^ 12 then [c] else []) ++ (s.putc c).taken cs

end Console

/-! ## Runs -/

/-- A connection: whether there was room to greet it, whether output had been lost before it, what was queued for it of
the notice, and what was handed to it. -/
structure Conn where
  greeted : Bool
  owed : Bool
  queued : List Byte
  handed : List Sent

/-- The console with its history: the output accepted so far, how much was lost since the last connection, and the
connections, the latest first. -/
structure Session where
  console : Console
  accepted : List Byte
  lost : Nat
  conns : List Conn

/-- What can happen. A `sent` callback does what a poll does. -/
inductive Event where
  | putc (c : Byte)
  | accept
  | drop
  | poll

namespace Session

def start : Session := ⟨⟨false, .empty (by decide) fun _ => ⟨.console, 0⟩, 0⟩, [], 0, []⟩

def putc (x : Session) (c : Byte) : Session :=
  { x with
    console := x.console.putc c
    accepted := x.accepted ++ x.console.taken [c]
    lost := if x.console.tx.held < 2 ^ 12 then x.lost else x.lost + 1 }

/-- A client connects. What is queued of the notice is console output. -/
def accept (x : Session) : Session where
  console := x.console.accept
  accepted := x.accepted ++ if x.console.dropped ≠ 0 then x.console.greet.taken notice else []
  lost := 0
  conns :=
    { greeted := decide (x.console.tx.held + kOpts.length ≤ 2 ^ 12)
      owed := decide (x.lost ≠ 0)
      queued := if x.console.dropped ≠ 0 then x.console.greet.taken notice else []
      handed := [] } :: x.conns

/-- Bytes go to the latest connection. -/
def handOn (x : Session) (l : List Sent) (t : Console) : Session :=
  { x with
    console := t
    conns := match x.conns with
      | c :: cs => { c with handed := c.handed ++ l } :: cs
      | [] => [] }

end Session

inductive Step (x : Session) : Event → Session → Prop where
  | putc (c : Byte) : Step x (.putc c) (x.putc c)
  | accept {l : List Sent} {t : Console} : x.accept.console.Flush l t → Step x .accept (x.accept.handOn l t)
  | drop : Step x .drop { x with console := x.console.hangUp }
  | poll {l : List Sent} {t : Console} : x.console.Flush l t → Step x .poll (x.handOn l t)

/-- Any number of events, each allowed where it happens. -/
inductive Run (allowed : Session → Event → Prop) : Session → Prop where
  | start : Run allowed .start
  | step {x y : Session} {e : Event} : Run allowed x → allowed x e → Step x e y → Run allowed y

/-! ## What is claimed of a run -/

/-- The console output among the bytes. -/
def output (l : List Sent) : List Byte := (l.filter (·.origin = .console)).map Sent.byte

/-- What a connection is to be handed: the greeting, once and first, and then output only. -/
def Proper (greeted : Bool) (l : List Sent) : Prop :=
  ∃ rest, l = (if greeted then kOpts else []) ++ rest ∧ ∀ b ∈ rest, b.origin = .console

/-- The connection has been handed a beginning of that, and was told what was lost. -/
structure Conn.Served (c : Conn) : Prop where
  proper : ∃ rest, Proper c.greeted (c.handed ++ rest)
  told : c.owed = true → c.queued = notice

/-- Everything that was handed on, in order. -/
def Session.handed (x : Session) : List Sent := x.conns.reverse.flatMap Conn.handed

/-- A connection can be accepted: no greeting is left over from the one before, and if output was lost there is room for
the notice, and a count of it. -/
def Ready (x : Session) : Prop :=
  (∀ b ∈ x.console.tx.toList, b.origin = .console) ∧
    (x.lost ≠ 0 → x.lost % 2 ^ 32 ≠ 0 ∧
      x.console.tx.held + (if x.console.tx.held + kOpts.length ≤ 2 ^ 12 then kOpts.length else 0) + notice.length ≤ 2 ^ 12)

def Meets (x : Session) : Event → Prop
  | .accept => Ready x
  | .putc _ | .drop | .poll => True

/-! ## The ring -/

namespace Console

/-- Output as it stands in the ring. -/
def asOutput (cs : List Byte) : List Sent := cs.map (Sent.mk .console)

theorem putc_toList (s : Console) (c : Byte) :
    (s.putc c).tx.toList = s.tx.toList ++ asOutput (if s.tx.held < 2 ^ 12 then [c] else []) := by
  rw [putc]
  split_ifs with h
  · exact s.tx.toList_push ⟨.console, c⟩ h
  · exact (List.append_nil _).symm

/-- A line adds to the ring what is taken of it. -/
theorem puts_toList (s : Console) (cs : List Byte) : (s.puts cs).tx.toList = s.tx.toList ++ asOutput (s.taken cs) := by
  induction cs generalizing s with
  | nil => exact (List.append_nil _).symm
  | cons c cs ih => rw [puts, ih, putc_toList, taken, asOutput, asOutput, asOutput, List.map_append, List.append_assoc]

theorem putc_held (s : Console) (c : Byte) (h : s.tx.held < 2 ^ 12) : (s.putc c).tx.held = s.tx.held + 1 := by
  rw [← RingBuffer.length_toList, putc_toList, if_pos h, List.length_append, RingBuffer.length_toList]
  rfl

/-- With room for it all of a line is taken. -/
theorem taken_of_room (s : Console) {cs : List Byte} (h : s.tx.held + cs.length ≤ 2 ^ 12) : s.taken cs = cs := by
  induction cs generalizing s with
  | nil => rfl
  | cons c cs ih =>
    rw [List.length_cons] at h
    have hroom : s.tx.held < 2 ^ 12 := by omega
    have hrest : (s.putc c).tx.held + cs.length ≤ 2 ^ 12 := by
      rw [putc_held s c hroom]
      omega
    rw [taken, if_pos hroom, ih _ hrest]
    rfl

theorem greet_toList (s : Console) :
    s.greet.tx.toList = (if s.tx.held + kOpts.length ≤ 2 ^ 12 then kOpts else []) ++ s.tx.toList := by
  rw [greet]
  split_ifs with h
  · exact s.tx.toList_unget kOpts h
  · rfl

theorem greet_held (s : Console) :
    s.greet.tx.held = s.tx.held + if s.tx.held + kOpts.length ≤ 2 ^ 12 then kOpts.length else 0 := by
  rw [← RingBuffer.length_toList, greet_toList, List.length_append, RingBuffer.length_toList, Nat.add_comm]
  split_ifs <;> rfl

theorem greet_dropped (s : Console) : s.greet.dropped = s.dropped := by
  rw [greet]
  split_ifs <;> rfl

theorem accept_toList (s : Console) :
    s.accept.tx.toList = s.greet.tx.toList ++ asOutput (if s.dropped ≠ 0 then s.greet.taken notice else []) := by
  change s.greet.announce.tx.toList = _
  rw [announce, greet_dropped]
  split_ifs
  · rw [← puts_toList]
  · exact (List.append_nil _).symm

theorem accept_dropped (s : Console) : s.accept.dropped = 0 := by
  change s.greet.announce.dropped = 0
  rw [announce]
  split_ifs with h
  · rfl
  · exact not_not.mp h

/-- A flush hands on what was first in the ring, and only to a connection. -/
theorem Flush.spec {s t : Console} {l : List Sent} (h : Flush s l t) :
    l ++ t.tx.toList = s.tx.toList ∧ t.conn = s.conn ∧ t.dropped = s.dropped ∧ (l ≠ [] → s.conn = true) := by
  induction h with
  | done s => exact ⟨rfl, rfl, rfl, fun h => absurd rfl h⟩
  | @wrote s t l space hconn _ _ _ _ ih =>
    obtain ⟨hlist, hc, hd, -⟩ := ih
    refine ⟨?_, hc, hd, fun _ => hconn⟩
    have htook : (s.took (s.piece space) (s.piece_le space)).tx.toList = s.tx.toList.drop (s.piece space) :=
      s.tx.toList_drop _ (s.piece_le space)
    have hfirst : RingBuffer.window s.tx.cells (RingBuffer.cell 12 s.tx.tail) (s.piece space) =
        s.tx.toList.take (s.piece space) := (RingBuffer.take_window _ _ (s.piece_le space)).symm
    rw [List.append_assoc, hlist, htook, hfirst, List.take_append_drop]

end Console

/-! ## Output in order -/

theorem output_append (l l' : List Sent) : output (l ++ l') = output l ++ output l' := by
  rw [output, List.filter_append, List.map_append]
  rfl

theorem output_asOutput (cs : List Byte) : output (Console.asOutput cs) = cs := by
  rw [output, Console.asOutput, List.filter_eq_self.mpr, List.map_map]
  · exact List.map_id cs
  · intro b hb
    obtain ⟨c, -, rfl⟩ := List.mem_map.mp hb
    rfl

namespace Session

theorem handOn_handed (x : Session) {l : List Sent} {t : Console} (h : l ≠ [] → x.conns ≠ []) :
    (x.handOn l t).handed = x.handed ++ l := by
  rw [handed, handed, handOn]
  cases hc : x.conns with
  | nil =>
    have hl : l = [] := by
      by_contra hl
      exact h hl hc
    rw [hl]
    rfl
  | cons c cs =>
    simp [List.flatMap_append]

end Session

/-- What holds in any run: the output is handed on in order, and the count of what was lost is right up to its width. -/
structure Inv (x : Session) : Prop where
  ordered : output x.handed ++ output x.console.tx.toList = x.accepted
  counted : x.console.dropped = BitVec.ofNat 32 x.lost
  connected : x.console.conn = true → x.conns ≠ []

theorem Inv.handOn {x : Session} (h : Inv x) {l : List Sent} {t : Console} (hflush : x.console.Flush l t) :
    Inv (x.handOn l t) := by
  obtain ⟨hlist, hconn, hdropped, hl⟩ := hflush.spec
  refine ⟨?_, hdropped.trans h.counted, ?_⟩
  · rw [x.handOn_handed fun hne => h.connected (hl hne), output_append, List.append_assoc]
    change output x.handed ++ (output l ++ output t.tx.toList) = x.accepted
    rw [← output_append, hlist, h.ordered]
  · intro ht
    have hconns := h.connected (hconn ▸ ht)
    rw [Session.handOn]
    cases hc : x.conns with
    | nil => exact absurd hc hconns
    | cons => exact List.cons_ne_nil _ _

theorem Inv.putc {x : Session} (h : Inv x) (c : Byte) : Inv (x.putc c) := by
  refine ⟨?_, ?_, ?_⟩
  · change output x.handed ++ output (x.console.putc c).tx.toList = x.accepted ++ x.console.taken [c]
    rw [Console.putc_toList, output_append, output_asOutput, ← List.append_assoc, h.ordered, Console.taken]
    exact congrArg _ (List.append_nil _).symm
  · rw [Session.putc]
    dsimp only
    rw [Console.putc]
    split_ifs
    · exact h.counted
    · change x.console.dropped + 1 = _
      rw [h.counted, BitVec.ofNat_add]
      rfl
  · intro hconn
    apply h.connected
    change (x.console.putc c).conn = true at hconn
    rw [Console.putc] at hconn
    split_ifs at hconn <;> exact hconn

theorem Inv.accept {x : Session} (h : Inv x) : Inv x.accept := by
  refine ⟨?_, x.console.accept_dropped, fun _ => List.cons_ne_nil _ _⟩
  have hhanded : x.accept.handed = x.handed := by simp [Session.handed, Session.accept]
  have hgreet : output x.console.greet.tx.toList = output x.console.tx.toList := by
    rw [Console.greet_toList, output_append]
    split_ifs <;> rfl
  rw [hhanded]
  change output x.handed ++ output x.console.accept.tx.toList = x.accepted ++ _
  rw [Console.accept_toList, output_append, output_asOutput, hgreet, ← List.append_assoc, h.ordered]

theorem Step.inv {x y : Session} {e : Event} (h : Inv x) (hstep : Step x e y) : Inv y := by
  cases hstep with
  | putc c => exact h.putc c
  | accept hflush => exact h.accept.handOn hflush
  | drop => exact { h with connected := nofun }
  | poll hflush => exact h.handOn hflush

theorem Run.inv {allowed : Session → Event → Prop} {x : Session} (h : Run allowed x) : Inv x := by
  induction h with
  | start => exact ⟨by simp [Session.handed, Session.start, output], rfl, nofun⟩
  | step _ _ hstep ih => exact hstep.inv ih

/-! ## Connections that are served -/

theorem asOutput_origin {cs : List Byte} {b : Sent} (h : b ∈ Console.asOutput cs) : b.origin = .console := by
  obtain ⟨c, -, rfl⟩ := List.mem_map.mp h
  rfl

/-- More output may follow. -/
theorem Proper.more {greeted : Bool} {l : List Sent} (h : Proper greeted l) (cs : List Byte) :
    Proper greeted (l ++ Console.asOutput cs) := by
  obtain ⟨rest, rfl, hrest⟩ := h
  refine ⟨rest ++ Console.asOutput cs, List.append_assoc .., ?_⟩
  intro b hb
  obtain hb | hb := List.mem_append.mp hb
  · exact hrest b hb
  · exact asOutput_origin hb

/-- Every connection is served, and what the ring holds is what the latest is still to be handed. -/
structure Serving (x : Session) : Prop where
  served : ∀ c ∈ x.conns, c.Served
  latest : x.console.conn = true →
    ∃ c cs, x.conns = c :: cs ∧ Proper c.greeted (c.handed ++ x.console.tx.toList)

theorem Serving.handOn {x : Session} (h : Serving x) {l : List Sent} {t : Console} (hflush : x.console.Flush l t) :
    Serving (x.handOn l t) := by
  obtain ⟨hlist, hconn, -, hl⟩ := hflush.spec
  cases hx : x.console.conn with
  | false =>
    -- nothing is handed on without a connection
    have hnil : l = [] := by
      by_contra hne
      exact Bool.false_ne_true (hx.symm.trans (hl hne))
    have hconns : (x.handOn l t).conns = x.conns := by
      rw [Session.handOn, hnil]
      cases x.conns with
      | nil => rfl
      | cons c cs => simp
    refine ⟨hconns ▸ h.served, ?_⟩
    intro ht
    cases ht.symm.trans (hconn.trans hx)
  | true =>
    obtain ⟨c, cs, hcons, hproper⟩ := h.latest hx
    have hconns : (x.handOn l t).conns = { c with handed := c.handed ++ l } :: cs := by rw [Session.handOn, hcons]
    have hnow : Proper c.greeted (c.handed ++ l ++ t.tx.toList) := by
      rw [List.append_assoc, hlist]
      exact hproper
    refine ⟨?_, fun _ => ⟨_, cs, hconns, hnow⟩⟩
    rw [hconns, List.forall_mem_cons]
    have hserved := h.served
    rw [hcons, List.forall_mem_cons] at hserved
    exact ⟨⟨⟨t.tx.toList, hnow⟩, hserved.1.told⟩, hserved.2⟩

theorem Serving.putc {x : Session} (h : Serving x) (c : Byte) : Serving (x.putc c) where
  served := h.served
  latest := by
    intro hconn
    have hx : x.console.conn = true := by
      change (x.console.putc c).conn = true at hconn
      rw [Console.putc] at hconn
      split_ifs at hconn <;> exact hconn
    obtain ⟨d, ds, hcons, hproper⟩ := h.latest hx
    refine ⟨d, ds, hcons, ?_⟩
    change Proper d.greeted (d.handed ++ (x.console.putc c).tx.toList)
    rw [Console.putc_toList, ← List.append_assoc]
    exact hproper.more _

/-- A client that is accepted when all is ready is greeted, and told what was lost. -/
theorem Serving.accept {x : Session} (h : Serving x) (hinv : Inv x) (hready : Ready x) : Serving x.accept := by
  have hproper : Proper (decide (x.console.tx.held + kOpts.length ≤ 2 ^ 12)) x.console.accept.tx.toList := by
    rw [Console.accept_toList]
    apply Proper.more
    refine ⟨x.console.tx.toList, ?_, hready.1⟩
    rw [Console.greet_toList]
    simp only [decide_eq_true_eq]
  have htold : x.lost ≠ 0 → (if x.console.dropped ≠ 0 then x.console.greet.taken notice else []) = notice := by
    intro hlost
    obtain ⟨hcount, hroom⟩ := hready.2 hlost
    have hdropped : x.console.dropped ≠ 0 := by
      rw [hinv.counted]
      intro hzero
      apply hcount
      rw [← BitVec.toNat_ofNat, hzero]
      rfl
    rw [if_pos hdropped]
    apply Console.taken_of_room
    rw [Console.greet_held]
    exact hroom
  refine ⟨?_, fun _ => ⟨_, x.conns, rfl, hproper⟩⟩
  intro c hc
  cases hc with
  | head => exact ⟨⟨_, hproper⟩, fun howed => htold (of_decide_eq_true howed)⟩
  | tail _ hc => exact h.served c hc

theorem Step.serving {x y : Session} {e : Event} (h : Serving x) (hinv : Inv x) (hmeets : Meets x e)
    (hstep : Step x e y) : Serving y := by
  cases hstep with
  | putc c => exact h.putc c
  | accept hflush => exact (h.accept hinv hmeets).handOn hflush
  | drop => exact ⟨h.served, nofun⟩
  | poll hflush => exact h.handOn hflush

theorem Run.serving {allowed : Session → Event → Prop} {x : Session} (h : Run allowed x)
    (hallowed : ∀ y e, allowed y e → Meets y e) : Serving x := by
  induction h with
  | start => exact ⟨nofun, nofun⟩
  | step hrun hok hstep ih => exact hstep.serving ih hrun.inv (hallowed _ _ hok)

/-- In any run the output that was accepted is handed on exactly once, in order, over all connections; what has not been
handed on is in the ring. When every client comes while all is ready, each is handed its greeting once and first and then
output only, and is told when output was lost. -/
theorem console_served {allowed : Session → Event → Prop} {x : Session} (h : Run allowed x) :
    output x.handed ++ output x.console.tx.toList = x.accepted ∧
      ((∀ y e, allowed y e → Meets y e) → ∀ c ∈ x.conns, c.Served) :=
  ⟨h.inv.ordered, fun hallowed => (h.serving hallowed).served⟩

/-! ## A greeting that is left over -/

/-- Two clients come one after the other. The first had no space for its greeting. -/
def secondClient : Session := Session.start.accept.accept

theorem secondClient_flush : secondClient.console.Flush (kOpts ++ kOpts) (secondClient.console.took 18 (by decide)) := by
  have hpiece : secondClient.console.piece 100 = 18 := by decide
  have hlist : RingBuffer.window secondClient.console.tx.cells (RingBuffer.cell 12 secondClient.console.tx.tail) 18 =
      kOpts ++ kOpts := by decide
  have hflush := Console.Flush.wrote (s := secondClient.console) (l := []) rfl (by decide) (Nat.succ_pos 99) (by decide)
    (.done _)
  simp only [hpiece, hlist, List.append_nil] at hflush
  exact hflush

/-- The second is greeted twice. -/
theorem secondClient_greetedTwice :
    ∃ x c, Run (fun _ _ => True) x ∧ c ∈ x.conns ∧ c.handed = kOpts ++ kOpts ∧ ¬c.Served := by
  have hfirst : Run (fun _ _ => True) (Session.start.accept.handOn [] Session.start.accept.console) :=
    .step .start trivial (.accept (.done _))
  refine ⟨_, _, .step hfirst trivial (.accept secondClient_flush), List.mem_cons_self .., rfl, ?_⟩
  intro hserved
  obtain ⟨later, rest, heq, hrest⟩ := hserved.proper
  -- after the first greeting comes an option byte
  have htwice : kOpts ++ (kOpts ++ later) = kOpts ++ rest := by
    rw [← List.append_assoc]
    exact heq
  have hsecond : kOpts ++ later = rest := List.append_cancel_left htwice
  have hoption := hrest ⟨.option, 255⟩ (hsecond ▸ List.mem_cons_self ..)
  cases hoption

/-- A client that comes first is served. -/
theorem firstClient_served :
    let x := Session.start.accept.handOn [] Session.start.accept.console
    output x.handed ++ output x.console.tx.toList = x.accepted ∧
      ((∀ y e, Meets y e → Meets y e) → ∀ c ∈ x.conns, c.Served) :=
  console_served (.step (e := .accept) .start ⟨(fun _ hb => nomatch hb), fun h => absurd rfl h⟩ (.accept (.done _)))

end Emu.Net
