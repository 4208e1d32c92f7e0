import ZuluOs.Outcome
import ZuluOs.Transition
import ZuluOs.Preemption
import ZuluOs.CriticalSections
import ZuluOs.Paging
import ZuluOs.UserSlice
import ZuluOs.VgaBuffer
import ZuluOs.VgaTerminal
import ZuluOs.Interrupts
import ZuluOs.InterruptAcknowledgement
import ZuluOs.SyscallHandler
import ZuluOs.BumpAllocator
import ZuluOs.BumpRuns
import ZuluOs.BumpThreads
import ZuluOs.FrameAllocator
import ZuluOs.Mapper
import ZuluOs.ElfLoad
import ZuluOs.ElfPermissions
import ZuluOs.FrameOwnership
import ZuluOs.FrameSupply
import ZuluOs.ElfImage
import ZuluOs.ElfRelocation
import ZuluOs.ElfContents
import ZuluOs.ElfReturns
import ZuluOs.ElfStale
import ZuluOs.Boot
import ZuluOs.SyscallReplies
import ZuluOs.UserMemory
import ZuluOs.BootHeap
import ZuluOs.ByteMemory
import ZuluOs.Cpu
import ZuluOs.SyscallEntry
import ZuluOs.SyscallContext
import ZuluOs.SyscallSession
import ZuluOs.SyscallInterrupts
import ZuluOs.BootEntry
import ZuluOs.BootReturns
import ZuluOs.Exceptions
import ZuluOs.Breakpoint
import ZuluOs.ArrayQueue
import ZuluOs.Executor
import ZuluOs.ExecutorQueue
import ZuluOs.ExecutorFairness
import ZuluOs.ExecutorTasks
import ZuluOs.Keyboard
import ZuluOs.KeyboardTiming
import ZuluOs.RoundRobin
import ZuluOs.SimpleExecutor
import ZuluOs.ExecutorAgreement
import ZuluOs.InterruptedSession
