import PbsCow.Lib.Hoare
import PbsCow.Lib.Bytes
import PbsCow.Lib.Counting
import PbsCow.Lib.Ring
import PbsCow.Riscv
import PbsCow.Kalloc
import PbsCow.Vm
import PbsCow.PageTable
import PbsCow.Walk
import PbsCow.Mappages
import PbsCow.Spaces
import PbsCow.Unmap
import PbsCow.Fresh
import PbsCow.Uvmalloc
import PbsCow.Uvmcopy
import PbsCow.Cowalloc
import PbsCow.CowallocContract
import PbsCow.CopyoutPages
import PbsCow.FailedFork
import PbsCow.UserBytes
import PbsCow.AllOrNothing
import PbsCow.CopyRoundTrip
import PbsCow.Copyout
import PbsCow.Mmu
import PbsCow.Freewalk
import PbsCow.Uvmfree
import PbsCow.ProcPagetable
import PbsCow.Proc
import PbsCow.Exec
import PbsCow.Trap
import PbsCow.Boot
import PbsCow.SysInv
import PbsCow.Slots
import PbsCow.View
import PbsCow.Lifecycle
import PbsCow.Fork
import PbsCow.Growproc
import PbsCow.Quiet
import PbsCow.Wait
import PbsCow.Image
import PbsCow.Commit
import PbsCow.Held
import PbsCow.Syscall
import PbsCow.Eager
import PbsCow.Usertrap
import PbsCow.PageFault
import PbsCow.Step
import PbsCow.Kvmmake
import PbsCow.Userinit
import PbsCow.Refinement
import PbsCow.Accounting
import PbsCow.Exclusive
import PbsCow.Progress
import PbsCow.SharedText
import PbsCow.GuardPage
import PbsCow.AddressSpace
import PbsCow.Sbrk
import PbsCow.Tidy
import PbsCow.Framed
import PbsCow.CleanSlots
import PbsCow.Unkilled
import PbsCow.Lib.Runs
import PbsCow.Scheduler
import PbsCow.Pick
import PbsCow.Priority
import PbsCow.BootTable
import PbsCow.Rounds
import PbsCow.DynamicPriority
import PbsCow.Rbi
import PbsCow.Clocks
import PbsCow.Switches
import PbsCow.Turns
import PbsCow.LoneRuns
import PbsCow.ResetRbi
import PbsCow.SetPriority
import PbsCow.RecentTicks
import PbsCow.Lib.Threads
import PbsCow.Lib.Pthreads
import PbsCow.Smp
import PbsCow.ScanLocks
import PbsCow.ModestKernel
import PbsCow.Deadlock
import PbsCow.KernelInv
import PbsCow.KernelSteps
import PbsCow.KernelLocks
import PbsCow.KernelActs
import PbsCow.KernelSwitch
import PbsCow.KernelScheduler
import PbsCow.KernelScan
import PbsCow.KernelForks
import PbsCow.KernelExits
import PbsCow.KernelWait
import PbsCow.KernelCalls
import PbsCow.KernelRuns
import PbsCow.RunTime
import PbsCow.Waitx
import PbsCow.Cafe
import PbsCow.CafeClock
import PbsCow.CafeFarewell
import PbsCow.CafeBaristas
import PbsCow.CafeHandlers
import PbsCow.Parlour
import PbsCow.ParlourSteps
import PbsCow.ParlourRuns
import PbsCow.ParlourThreads
import PbsCow.ParlourIcecreams
import PbsCow.ParlourGates
import PbsCow.ParlourCapacity
import PbsCow.ParlourMap
import PbsCow.ParlourTables
import PbsCow.ParlourToppings
import PbsCow.ParlourMachines
import PbsCow.ParlourOutcome
import PbsCow.PipeStream
import PbsCow.Console
import PbsCow.LineDiscipline
import PbsCow.VirtioIntegrity
import PbsCow.BufCacheCoherence
import PbsCow.InodeTableIdentity
import PbsCow.FailedExec
import PbsCow.FlatMap
import PbsCow.Copyinstr
import PbsCow.ParlourInput
import PbsCow.PathLookup
import PbsCow.InodeView
import PbsCow.InodeCalls
import PbsCow.Namei
import PbsCow.LogSpace
import PbsCow.Lib.SortedRing
import PbsCow.FreeBlocks
import PbsCow.Umalloc
import PbsCow.UmallocSafe
import PbsCow.UmallocRuns
import PbsCow.ShellParser
import PbsCow.ShellTokens
import PbsCow.ShellGrammar
import PbsCow.ShellSoundness
import PbsCow.ShellCompleteness
import PbsCow.ShellStrings
import PbsCow.Lib.Allots
import PbsCow.Lib.BlockBytes
import PbsCow.Lib.IndexGate
import PbsCow.ParlourOrder
import PbsCow.ParlourPassing
import PbsCow.InodeBlocks
import PbsCow.BlockMap
import PbsCow.BlockFills
import PbsCow.ReadWrite
import PbsCow.WriteRead
import PbsCow.Itrunc
import PbsCow.BlockRuns
import PbsCow.FileWrite
import PbsCow.LogCrash
import PbsCow.OpenFileRuns
import PbsCow.FileStoreSteps
import PbsCow.DirectoryRuns
import PbsCow.MkfsSound
import PbsCow.Grep
