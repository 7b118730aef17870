import UKernel.Disk.ChannelSafety
import UKernel.Disk.FilesysInit
import UKernel.Disk.ScanBuffers
import UKernel.Disk.SectorTransfer
import UKernel.Fs.DirectoryCorrect
import UKernel.Fs.DirectoryDelete
import UKernel.Fs.DirectoryEmpty
import UKernel.Fs.EntryNames
import UKernel.Fs.FileContent
import UKernel.Fs.FileLimit
import UKernel.Fs.Format
import UKernel.Fs.IoBuffer
import UKernel.Fs.KernelHeap
import UKernel.Fs.OpenCounts
import UKernel.Fs.OpenFailure
import UKernel.Fs.Release
import UKernel.Fs.Search
import UKernel.Fs.SharedSlots
import UKernel.Fs.SmallTree
import UKernel.Fs.StoredTree
import UKernel.Fs.Tree
import UKernel.Fs.Unlink
import UKernel.Library.Fault
import UKernel.Library.Names
import UKernel.Library.RingBuffer
import UKernel.Library.Transition
import UKernel.Memory.BitmapScan
import UKernel.Memory.CopyPages
import UKernel.Memory.ForkCopy
import UKernel.Memory.ForkIsolation
import UKernel.Memory.MallocAnswer
import UKernel.Memory.MallocPage
import UKernel.Memory.PageLeak
import UKernel.Memory.PoolLayout
import UKernel.Memory.Tlb
import UKernel.Pipe.FileTasks
import UKernel.Pipe.PageBounds
import UKernel.Pipe.References
import UKernel.Pipe.RingQueue
import UKernel.Pipe.Transfer
import UKernel.Pipe.WakeUp
import UKernel.Process.ExecFailure
import UKernel.Process.ForkFailure
import UKernel.Process.ForkedTask
import UKernel.Process.LoadConfined
import UKernel.Process.LoadImage
import UKernel.Process.LoadReach
import UKernel.Process.MappedPages
import UKernel.Process.ProgramFile
import UKernel.Process.ReapedOnce
import UKernel.Process.Segments
import UKernel.Process.UserPages
import UKernel.Shell.WashPath
import UKernel.Thread.LockOwner
import UKernel.Thread.ReadyQueue
import UKernel.Thread.Scheduler
import UKernel.Thread.Semaphore
import UKernel.Library.Links
import UKernel.Kernel.LinkedList
import UKernel.Kernel.Strings
import UKernel.Shell.CommandLine
import UKernel.Console.Format
import UKernel.Shell.MyShell
import UKernel.Shell.Pipeline
import UKernel.Shell.ReadLine
import UKernel.Fs.PathBuffer
import UKernel.Shell.WashBuffer
import UKernel.Console.Keyboard
import UKernel.Console.Screen
import UKernel.Library.TableWalk
import UKernel.Memory.RecursiveMap
import UKernel.Fs.NameBuffer
import UKernel.Shell.NameBuffer
import UKernel.Fs.WorkingDirectory
import UKernel.Library.Cpu
import UKernel.Thread.ContextCode
import UKernel.Thread.ContextMachine
import UKernel.Thread.ContextSound
import UKernel.Thread.ContextKept
import UKernel.Thread.SystemCalls
import UKernel.Library.Ledger
import UKernel.Memory.FrameIsolation
import UKernel.Memory.ProcessIsolation
