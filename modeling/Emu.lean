import Emu.Lib.Masks
import Emu.Lib.StraightLine
import Emu.Lib.Chain
import Emu.Lib.Slots
import Emu.Lib.Relational
import Emu.Lib.Hoare
import Emu.Lib.Overlay
import Emu.Lib.Attempt
import Emu.Lib.RingBuffer
import Emu.Ir.Syntax
import Emu.Ir.Interp
import Emu.Ir.Equiv
import Emu.Ir.DeadFlags
import Emu.Ir.RegTraffic
import Emu.Ir.DeadPuts
import Emu.Ir.DeadValues
import Emu.Ir.Rewrite
import Emu.Ir.Fuse
import Emu.Ir.Retire
import Emu.Ir.Build
import Emu.Ir.Optimise
import Emu.Lib.LinearScan
import Emu.Ir.Regalloc
import Emu.Jit.Host
import Emu.Jit.Seen
import Emu.Jit.SeenRuns
import Emu.Jit.Table
import Emu.Jit.Invariant
import Emu.Jit.Operations
import Emu.Jit.Invalidate
import Emu.Jit.Compact
import Emu.Jit.Reach
import Emu.Jit.Dispatch
import Emu.Bus
import Emu.Cpu
import Emu.System
import Emu.Bus.Guest
import Emu.Bus.Bulk
import Emu.Rv.Hart
import Emu.Rv.Pmp
import Emu.Rv.Mmu
import Emu.Rv.Access
import Emu.Rv.System
import Emu.Rv.Machine
import Emu.Rv.Page
import Emu.Rv.Coherent
import Emu.Rv.Fills
import Emu.Rv.Answers
import Emu.Rv.Twins
import Emu.Rv.Accesses
import Emu.Rv.Fetches
import Emu.Rv.Control
import Emu.Rv.Trace
import Emu.Rv.Verdicts
import Emu.Rv.PmpSpec
import Emu.Rv.Stable
import Emu.Rv.Sv32
import Emu.Rv.Fence
import Emu.Rv.Interrupts
import Emu.Rv.Selection
import Emu.Rv.Modes
import Emu.Rv.PmpLock
import Emu.Rv.Derived
import Emu.Arm.Cpu
import Emu.Lib.BitWalk
import Emu.Lib.FirstMin
import Emu.Lib.Generations
import Emu.Arm.Nvic
import Emu.Arm.SysTick
import Emu.Arm.Select
import Emu.Arm.Views
import Emu.Arm.Irq
import Emu.Arm.FetchKey
import Emu.Virtio.Block
import Emu.Virtio.Glue
import Emu.Gdb.Rx
import Emu.Gdb.Memory
import Emu.Image
import Emu.Image.Arena
import Emu.Image.Clients
import Emu.Image.Fresh
import Emu.Image.Content
import Emu.Image.Retry
import Emu.Jit.Loop
import Emu.Jit.Count
import Emu.Gdb.Run
import Emu.Gdb.Breaks
import Emu.Net.Telnet
import Emu.Net.Console
import Emu.Ppc.Mmu
import Emu.Ppc.Pages
import Emu.Lib.ShortStack
import Emu.Ppc.Intc
import Emu.Ppc.Nesting
import Emu.Ppc.Swt
import Emu.Ppc.Watchdog
import Emu.Ppc.Stm
import Emu.Ppc.Clock
import Emu.G4mh.Mpu
import Emu.G4mh.Intc
import Emu.G4mh.Cpu
import Emu.G4mh.Ceiling
import Emu.G4mh.Access
import Emu.G4mh.Nesting
import Emu.Lib.Drain
import Emu.Rv.Aplic
import Emu.Rv.AplicRuns
import Emu.Rv.AplicDrain
import Emu.Lib.Countdown
import Emu.G4mh.Tptm
import Emu.G4mh.UpTimers
import Emu.G4mh.Insns
import Emu.G4mh.SvLock
import Emu.Lib.ShiftRegister
import Emu.G4mh.Kcrc
import Emu.Ir.Lower
import Emu.G4mh.Bitop
