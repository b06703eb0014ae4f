import Bolgenos.Lib.FuelLoop
import Bolgenos.Lib.Chain
import Bolgenos.Lib.Dyadic
import Bolgenos.Lib.ByteMemory
import Bolgenos.Lib.Ring
import Bolgenos.Lib.FaultState
import Bolgenos.Lib.InterruptController
import Bolgenos.Lib.Numeral
import Bolgenos.Lib.Ledger
import Bolgenos.Lib.Bitfields
import Bolgenos.Lib.Ia32
import Bolgenos.Lib.Ia32Tables
import Bolgenos.Machine
import Bolgenos.Memory.FreeList
import Bolgenos.Memory.BuddyAllocator
import Bolgenos.Memory.BuddyInvariant
import Bolgenos.Memory.BuddyRuns
import Bolgenos.Memory.FreeListCheck
import Bolgenos.Memory.FreeListPut
import Bolgenos.Memory.BuddyOperations
import Bolgenos.Memory.BitArray
import Bolgenos.Memory.BitArrayRuns
import Bolgenos.Memory.PageAllocator
import Bolgenos.Memory.Slab
import Bolgenos.Memory.Mallocator
import Bolgenos.Memory.HeapInvariant
import Bolgenos.Memory.HeapStart
import Bolgenos.Memory.HeapRuns
import Bolgenos.Memory.RequestSizes
import Bolgenos.Memory.SlabRuns
import Bolgenos.Memory.HeapAlignment
import Bolgenos.Devices.Keyboard
import Bolgenos.Devices.KbdStateMachine
import Bolgenos.Devices.KbdDecoding
import Bolgenos.Cxx.CxaGuard
import Bolgenos.Cxx.Algorithm
import Bolgenos.Devices.VgaConsole
import Bolgenos.Irq.IrqGuard
import Bolgenos.Irq.InterruptsManager
import Bolgenos.Sched.CircularIntrusiveList
import Bolgenos.Sched.CircularListRuns
import Bolgenos.Sched.Scheduler
import Bolgenos.Sched.SchedulerPass
import Bolgenos.Sched.SchedulerIrq
import Bolgenos.Memory.Boot
import Bolgenos.Devices.Ps2Controller
import Bolgenos.KernelMain
import Bolgenos.Time.Sleep
import Bolgenos.Time.FrequencyDivider
import Bolgenos.Cxx.Backtrace
import Bolgenos.Cxx.LibString
import Bolgenos.Cxx.Ostream
import Bolgenos.Cxx.NumberFormat
import Bolgenos.Cxx.FormatGuard
import Bolgenos.Cxx.SnprintfStream
import Bolgenos.Cxx.Optional
import Bolgenos.Cxx.ForwardList
import Bolgenos.Cxx.ForwardListRuns
import Bolgenos.Log.LogBuf
import Bolgenos.Log.LineFraming
import Bolgenos.X86.Descriptors
import Bolgenos.X86.Gdt
import Bolgenos.X86.Idt
import Bolgenos.X86.Processor
import Bolgenos.X86.Traps
import Bolgenos.X86.FrameDump
import Bolgenos.Devices.Pit
import Bolgenos.Devices.Serial
import Bolgenos.Irq.HandlerLists
import Bolgenos.Sched.ContextRuns
