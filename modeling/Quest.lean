import Quest.Blocking.Buffers
import Quest.Blocking.Semaphores
import Quest.Blocking.Sleepqueue
import Quest.Boot.MemoryMap
import Quest.Boot.ModuleImage
import Quest.Drivers.Ata
import Quest.Drivers.AtaPolling
import Quest.Drivers.E1000
import Quest.Drivers.UhciQueues
import Quest.Drivers.UmscCommands
import Quest.Drivers.UsbDescriptors
import Quest.Fs.BlockList
import Quest.Fs.DirectoryScan
import Quest.Fs.Lookup
import Quest.Fs.Reassembly
import Quest.Fs.VfatFailures
import Quest.Libc.Format
import Quest.Libc.Malloc
import Quest.Libc.Stream
import Quest.Mem.CloneFailure
import Quest.Mem.Contiguous
import Quest.Mem.Pow2Calls
import Quest.Mem.Pow2Exhaustion
import Quest.Mem.Walk
import Quest.Modules.Loading
import Quest.Proc.Determined
import Quest.Sched.Accounting
import Quest.Sched.Bandwidth
import Quest.Sched.Inheritance
import Quest.Sched.Isolation
import Quest.Sched.PreemptionTimer
import Quest.Sched.Published
import Quest.Sched.RoundRobin
import Quest.Sched.SecondLevel
import Quest.Smp.Firmware
import Quest.Smp.Ioapic
import Quest.Smp.Spinlock
import Quest.Util.Logger
import Quest.Util.Perfmon
import Quest.Util.Printf
import Quest.Util.Screen
import Quest.Vm.PortIo
import Quest.Vm.ProtectedMode
import Quest.Vm.VirtualIf
