import Racoon.Machine
import Racoon.Lib.Run
import Racoon.Lib.Prefix
import Racoon.Lib.Bitmap
import Racoon.Lib.Slots
import Racoon.Lib.Scatter
import Racoon.Ds.Aqueue
import Racoon.Scheduler.RunQueue
import Racoon.Mm.Physmem
import Racoon.Mm.PhysmemSearch
import Racoon.Mm.PhysmemSet
import Racoon.Ds.Htable
import Racoon.Mm.Slabs
import Racoon.Mm.VmemRuns
import Racoon.Ipc.Messages
import Racoon.Ipc.Pulses
import Racoon.Ipc.PortTable
import Racoon.Processes.WakeUps
import Racoon.Env.EnvironmentRuns
import Racoon.Env.EnvSyscall
import Racoon.Irq.HookInvariant
import Racoon.Paging.Mappings
import Racoon.Sharing.AccessControl
import Racoon.Sharing.Detachment
import Racoon.Sharing.FailingCalls
import Racoon.Ds.Probing
import Racoon.Processes.Issuing
import Racoon.Mm.VmemSizes
import Racoon.Mm.VmemChoice
import Racoon.Mm.VmemReject
import Racoon.Mm.VmemOrder
import Racoon.Mm.VmemUndo
import Racoon.Mm.Layers
import Racoon.Ds.Rwlock
import Racoon.Scheduler.ThreadState
import Racoon.Lib.Packing
import Racoon.Mm.Liballoc
import Racoon.Mm.HeapLayout
import Racoon.Mm.HeapMajors
import Racoon.Mm.HeapSearch
import Racoon.Mm.HeapRuns
import Racoon.Lib.Pairing
import Racoon.Mm.SlabLayout
import Racoon.Mm.SlabSpaces
import Racoon.Mm.SlabCalls
import Racoon.Mm.SlabRuns
import Racoon.Mm.KallocRuns
import Racoon.Mm.SlabHooks
import Racoon.Mm.SlabLedger
import Racoon.Paging.Teardown
import Racoon.Scheduler.RoundRobin
import Racoon.Scheduler.Locks
import Racoon.Lib.Ascending
import Racoon.Scheduler.Sleepers
import Racoon.Ds.Iqueue
import Racoon.Ipc.Draining
import Racoon.Ipc.MessageCopies
import Racoon.Ipc.PortMasks
import Racoon.Irq.Strangers
import Racoon.Irq.HandOffRuns
import Racoon.Mm.HeapBlocks
import Racoon.Sharing.LockedCalls
import Racoon.Ds.ProbeFaults
import Racoon.Sharing.CleaningRuns
import Racoon.Ualloc.Records
import Racoon.Dmesg.Termination
import Racoon.Mm.PhysmemLedger
import Racoon.Dmesg.Numbers
import Racoon.Gc.GivenBack
import Racoon.Ds.Forests
import Racoon.Ds.Adoption
import Racoon.Env.Atomicity
import Racoon.Processes.Listing
import Racoon.Paging.FirstFit
import Racoon.Paging.Access
import Racoon.Ualloc.Ensuring
import Racoon.Gdt.Descriptors
import Racoon.Pci.Scanning
import Racoon.Paging.ByteCopies
import Racoon.Time.Stats
import Racoon.Time.Bogomips
import Racoon.Dmesg.KernelLog
import Racoon.Console.Puts
import Racoon.Exec.Loader
import Racoon.Mm.PhysmemPages
import Racoon.Ualloc.Growth
import Racoon.Ualloc.RegionCalls
import Racoon.Ualloc.Handles
import Racoon.Ualloc.Returned
import Racoon.Exec.Segments
import Racoon.Exec.ModuleNames
import Racoon.Processes.Threads
import Racoon.Processes.ThreadWalks
import Racoon.Gc.FamilyTrees
import Racoon.Mm.BootPages
import Racoon.Fpu.LazySwitching
import Racoon.Scheduler.Starvation
import Racoon.Irq.Delivery
import Racoon.Processes.Switching
import Racoon.Processes.ProcessWalks
import Racoon.Gc.Queue
import Racoon.Gdt.Vectors
import Racoon.Lib.Custody
import Racoon.Paging.Isolation
