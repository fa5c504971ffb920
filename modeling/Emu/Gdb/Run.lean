-- SUMMARY: The debug stub's run control: sessions, breakpoints and resumes, and the slices a guest runs under it.
import Emu.Jit.Loop

/-! # Run control

The stub keeps breakpoints in a list and never patches the guest. While one is set it runs the guest a block at a time,
with the links between blocks undone, looks at the pc after each, and steps where a breakpoint may lie ahead in the
block. Between sessions the guest runs freely and blocks are linked again. -/

namespace Emu.Gdb.Control

open Emu.Jit

/-! ## The stub -/

def maxBreak : Nat := 16

def breakWindow : Nat := 4096

/-- The part of `emu_gdb_t` that controls the run. The breakpoints are the used ones. -/
structure Stub where
  attached : Bool
  halted : Bool
  stepping : Bool
  unchained : Bool
  brk : List Word
  deriving DecidableEq, Repr

/-- `break_add`. A list that is full stays as it is. -/
def breakAdd (brk : List Word) (a : Word) : List Word :=
  if a ∈ brk ∨ maxBreak ≤ brk.length then brk else a :: brk

/-- `break_del`. -/
def breakDel (brk : List Word) (a : Word) : List Word :=
  brk.filter (· ≠ a)

/-- `break_near`: a breakpoint lies ahead of `pc`, within a block's reach. -/
def breakNear (brk : List Word) (pc : Word) : Bool :=
  brk.any fun a => pc ≤ a && decide ((a - pc).toNat < breakWindow)

/-- `emu_gdb_init`. -/
def Stub.init : Stub := ⟨false, false, false, false, []⟩

/-- `emu_gdb_attach`. -/
def Stub.attach (g : Stub) : Stub := { g with attached := true, halted := true, stepping := false }

/-- `emu_gdb_detach`. It leaves `unchained` alone. -/
def Stub.detach (g : Stub) : Stub := { g with attached := false, halted := false, stepping := false, brk := [] }

/-! ## What is seen of a run -/

/-- An instruction executed, with the breakpoints set at the time; a resume; a stop reply. -/
inductive Seen where
  | exec (pc : Word) (brk : List Word)
  | resume (pc : Word)
  | stop (pc : Word)
  deriving DecidableEq, Repr

variable {σ κ : Type}

/-- Log what the guest did, the latest first. -/
def noted (brk : List Word) (log : List Seen) (d : Did κ) : List Seen :=
  match d.pc? with
  | some pc => .exec pc brk :: log
  | none => log

def logged (brk : List Word) (log : List Seen) (tr : List (Did κ)) : List Seen :=
  tr.foldl (noted brk) log

/-- A guest, its translation cache and the stub, with a log. -/
structure Session (σ : Type) where
  guest : σ
  cache : Cache
  stub : Stub
  log : List Seen

namespace Session

/-- A stub that no debugger has talked to. -/
def start (s : σ) (c : Cache) : Session σ := ⟨s, c, Stub.init, []⟩

/-- The guest has run. -/
def ran (x : Session σ) (t : σ) (c : Cache) (tr : List (Did κ)) : Session σ :=
  { x with guest := t, cache := c, log := logged x.stub.brk x.log tr }

/-- The stub stops the guest and sends a stop reply. -/
def stops (G : Guest σ κ) (x : Session σ) : Session σ :=
  { x with stub := { x.stub with halted := true, stepping := false }, log := .stop (G.pc x.guest) :: x.log }

/-- `emu_jit_unchain`, once. -/
def unchain (x : Session σ) : Session σ :=
  if x.stub.unchained then x
  else { x with cache := { x.cache with unchain := true }, stub := { x.stub with unchained := true } }

/-- Whole budgets link exits again. -/
def rechain (x : Session σ) : Session σ :=
  { x with stub := { x.stub with unchained := false } }

/-- A `c`, `s` or `vCont` packet. `t` is the guest as the packet's address, if it has one, leaves it. -/
def resume (G : Guest σ κ) (x : Session σ) (step : Bool) (t : σ) : Session σ :=
  { x with guest := t, stub := { x.stub with stepping := step, halted := false }, log := .resume (G.pc t) :: x.log }

/-- Other breakpoints. -/
def breaks (x : Session σ) (brk : List Word) : Session σ :=
  { x with stub := { x.stub with brk := brk } }

end Session

/-! ## `emu_gdb_run` -/

variable (G : Guest σ κ) (F : Frontend κ)

/-- A pass of the loop: a step where a breakpoint could be, and a single block elsewhere. Stores may drop links. -/
inductive Advance (x : Session σ) : Nat → Why → Session σ → Prop where
  | step {tr : List (Did κ)} {why : Why} {t : σ} {links : LinkSet} : breakNear x.stub.brk (G.pc x.guest) = true →
      JitStep G F x.guest tr why t → links ⊆ x.cache.links →
      Advance x 1 why (x.ran t { x.cache with links := links } tr)
  | run {ps : List (Pass κ)} {why : Why} {t : σ} {c : Cache} : breakNear x.stub.brk (G.pc x.guest) = false →
      JitCall G F 1 x.guest x.cache ps why t c → Advance x (F.total ps) why (x.ran t c (traceOf ps))

/-- The loop, from some value of `retired` on. -/
inductive BreakLoop (budget : Nat) : Nat → Session σ → Session σ → Prop where
  | spent {retired : Nat} {x : Session σ} : budget ≤ retired → BreakLoop budget retired x x
  | stopped {retired n : Nat} {x y : Session σ} {why : Why} : retired < budget → Advance G F x.unchain n why y →
      why ≠ .budget → BreakLoop budget retired x (y.stops G)
  | hit {retired n : Nat} {x y : Session σ} : retired < budget → Advance G F x.unchain n .budget y →
      G.pc y.guest ∈ y.stub.brk → BreakLoop budget retired x (y.stops G)
  | stuck {retired : Nat} {x y : Session σ} : retired < budget → Advance G F x.unchain 0 .budget y →
      G.pc y.guest ∉ y.stub.brk → BreakLoop budget retired x y
  | again {retired n : Nat} {x y z : Session σ} : retired < budget → Advance G F x.unchain n .budget y →
      G.pc y.guest ∉ y.stub.brk → n ≠ 0 → BreakLoop budget (retired + n) y z → BreakLoop budget retired x z

/-- `emu_gdb_run`. -/
inductive GdbRun (budget : Nat) (x : Session σ) : Session σ → Prop where
  | halted : x.stub.halted = true → GdbRun budget x x
  | step {tr : List (Did κ)} {why : Why} {t : σ} {links : LinkSet} : x.stub.halted = false → x.stub.stepping = true →
      JitStep G F x.guest tr why t → links ⊆ x.cache.links →
      GdbRun budget x ((x.ran t { x.cache with links := links } tr).stops G)
  | free {ps : List (Pass κ)} {t : σ} {c : Cache} : x.stub.halted = false → x.stub.stepping = false → x.stub.brk = [] →
      JitCall G F budget x.guest x.cache ps .budget t c → GdbRun budget x (x.rechain.ran t c (traceOf ps))
  | stopped {ps : List (Pass κ)} {why : Why} {t : σ} {c : Cache} : x.stub.halted = false → x.stub.stepping = false →
      x.stub.brk = [] → JitCall G F budget x.guest x.cache ps why t c → why ≠ .budget →
      GdbRun budget x ((x.rechain.ran t c (traceOf ps)).stops G)
  | breaks {y : Session σ} : x.stub.halted = false → x.stub.stepping = false → x.stub.brk ≠ [] →
      BreakLoop G F budget 0 x y → GdbRun budget x y

/-! ## Sessions -/

/-- What happens to a stub. `outside` is what changes the guest between two slices, devices and the debugger's writes;
it may drop links. -/
inductive Event (σ : Type) where
  | attach
  | detach
  | interrupt
  | insert (a : Word)
  | remove (a : Word)
  | resume (step : Bool) (t : σ)
  | outside (t : σ) (links : LinkSet)
  | slice (budget : Nat)

/-- A slice runs under the stub while a debugger is attached, and freely otherwise. -/
inductive Step (x : Session σ) : Event σ → Session σ → Prop where
  | attach : Step x .attach { x with stub := x.stub.attach }
  | detach : Step x .detach { x with stub := x.stub.detach }
  | interrupt : Step x .interrupt (x.stops G)
  | insert (a : Word) : Step x (.insert a) (x.breaks (breakAdd x.stub.brk a))
  | remove (a : Word) : Step x (.remove a) (x.breaks (breakDel x.stub.brk a))
  | resume (step : Bool) (t : σ) : Step x (.resume step t) (x.resume G step t)
  | outside (t : σ) (links : LinkSet) : links ⊆ x.cache.links →
      Step x (.outside t links) { x with guest := t, cache := { x.cache with links := links } }
  | debugged {budget : Nat} {y : Session σ} : x.stub.attached = true → GdbRun G F budget x y → Step x (.slice budget) y
  | free {budget : Nat} {ps : List (Pass κ)} {why : Why} {t : σ} {c : Cache} : x.stub.attached = false →
      JitCall G F budget x.guest x.cache ps why t c → Step x (.slice budget) (x.ran t c (traceOf ps))

/-- Any number of events, each allowed where it happens. -/
inductive Run (allowed : Session σ → Event σ → Prop) (x : Session σ) : Session σ → Prop where
  | refl : Run allowed x x
  | step {y z : Session σ} {e : Event σ} : Run allowed x y → allowed y e → Step G F y e z → Run allowed x z

end Emu.Gdb.Control
