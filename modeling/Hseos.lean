import Hseos.Asm.SegmentLengths
import Hseos.Asm.Strcmp
import Hseos.Atomic.ListPush
import Hseos.Atomic.QueueSafety
import Hseos.Atomic.QueueWrap
import Hseos.Bufread.Nextchar
import Hseos.CppThread.Semaphore
import Hseos.Dl.CombinePath
import Hseos.DlRt.Reload
import Hseos.Files.MergeLoop
import Hseos.Fork.DivisorBounds
import Hseos.Fork.DivisorLoop
import Hseos.Fork.EnsureWrite
import Hseos.Fork.EvfdToken
import Hseos.Fork.Nonblocking
import Hseos.Fork.PipeSendFlow
import Hseos.Fork.RunOutput
import Hseos.Mmap.Blocks
import Hseos.Mmap.HexCode
import Hseos.Mmap.Shifts
import Hseos.Nn.AllocationFailure
import Hseos.Nn.Calculus
import Hseos.Nn.History
import Hseos.Pthread.Container
import Hseos.Readall.ReadAll
import Hseos.Sample2.ClearedVector
import Hseos.Sample2.FailedGrowth
import Hseos.Sample2.VectorList
import Hseos.Sample4.FailedPush
import Hseos.Sample5.ConcatLeft
import Hseos.Signal.NumberRecords
import Hseos.Signal.PingPongRuns
import Hseos.Signal.SequenceWakeup
import Hseos.Signal.SharedReaders
import Hseos.Signal.SigReader
import Hseos.Sockets.Client
import Hseos.Sockets.PortText
import Hseos.Sockets.Server
import Hseos.Atomic.PushProgress
import Hseos.Atomic.QueueLinearizable
import Hseos.CppThread.RunMutex
import Hseos.CppThread.RunSemaphore
import Hseos.CppThread.SpinLock
import Hseos.Fork.ReadReversed
import Hseos.Fork.RecursiveFork
import Hseos.Lib.ExpressionCalculus
import Hseos.Mmap.ForkUpdates
import Hseos.Nn.Analysis
import Hseos.Pthread.Race
import Hseos.Pthread.RaceMutex
import Hseos.Pthread.ThreadLocal
import Hseos.Signal.SigtermPrint
import Hseos.Sockets.Echo
