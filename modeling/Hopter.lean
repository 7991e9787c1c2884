import Hopter.Lib.TicketQueue
import Hopter.SoftLock.LoneAccess
import Hopter.SoftLock.Preempt
import Hopter.SoftLock.Refine
import Hopter.SoftLock.Unwind
import Hopter.SoftLock.DrainLoop
import Hopter.SoftLock.Progress
import Hopter.SoftLock.Livelock
import Hopter.SoftLock.MutexEnds
import Hopter.SoftLock.MutexReport
import Hopter.SoftLock.SoftReport
import Hopter.SplitStack.Morestack
import Hopter.SplitStack.Unwinding
import Hopter.SplitStack.Handler
import Hopter.SplitStack.Vla
import Hopter.SplitStack.Runtime
import Hopter.SplitStack.Limit
import Hopter.SplitStack.Ownership
import Hopter.SplitStack.Program
import Hopter.SplitStack.Threads
import Hopter.SplitStack.NoFalseAlarm
import Hopter.SplitStack.OnStack
import Hopter.Bump.Disjoint
import Hopter.Bump.Retry
import Hopter.Bump.Address
import Hopter.Bump.Capacity
import Hopter.Bump.Memory
import Hopter.Uart.Backtrace
import Hopter.Unwind.Task
import Hopter.SoftLock.AccessEnds
import Hopter.SoftLock.LoneConsumer
import Hopter.SoftLock.SoftEnds
