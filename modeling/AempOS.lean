import AempOS.Lib.Population
import AempOS.Lib.Transition
import AempOS.Lib.DoublyLinked
import AempOS.Lib.Family
import AempOS.Lib.Scan
import AempOS.Proc
import AempOS.Sync.Semaphore
import AempOS.Sync.SemaphoreBalance
import AempOS.Sync.SemaphoreProperties
import AempOS.Sched.ReadyQueue
import AempOS.Sched.QueueLists
import AempOS.Sched.ReadyQueueProperties
import AempOS.Sched.Schedule
import AempOS.Sched.ScheduleProperties
import AempOS.Sched.Selection
import AempOS.Sched.SelectionProperties
import AempOS.Lib.Blocks
import AempOS.Lib.Cells
import AempOS.Memory.Memman
import AempOS.Memory.MemmanEntries
import AempOS.Memory.MemmanProperties
import AempOS.Memory.PageTable
import AempOS.Memory.FrameOwnership
import AempOS.Memory.PageTableProperties
import AempOS.Memory.LinMapping
import AempOS.Memory.AddressSpace
import AempOS.Memory.PageMapProperties
import AempOS.Memory.Fork
import AempOS.Memory.ForkSteps
import AempOS.Memory.ForkRuns
import AempOS.Memory.ForkIsolation
import AempOS.Memory.UserPages
import AempOS.Ipc.MsgQueue
import AempOS.Ipc.MsgQueueCells
import AempOS.Ipc.MsgQueueProperties
import AempOS.Fs.Disk
import AempOS.Fs.Maps
import AempOS.Fs.Directory
import AempOS.Fs.Files
import AempOS.Fs.DiskProperties
import AempOS.Fs.MapsProperties
import AempOS.Fs.Volume
import AempOS.Fs.FilesProperties
import AempOS.Fs.Consistency
import AempOS.Fs.SoundProperties
import AempOS.Fs.MkfsProperties
import AempOS.Fs.SpaceProperties
import AempOS.Fs.LookupProperties
import AempOS.Hd.RequestQueue
import AempOS.Hd.DiskSleep
import AempOS.Hd.Interrupt
import AempOS.Hd.InterruptProperties
import AempOS.Hd.Rdwt
import AempOS.Hd.RdwtProperties
import AempOS.Memory.ForkCopies
import AempOS.Ipc.MsgQueueWaits
import AempOS.Ipc.MsgQueueWakeUps
import AempOS.Ipc.MsgQueueEras
import AempOS.Ipc.MsgQueueRefinement
import AempOS.Sched.StableProperties
import AempOS.Task.ProcTable
import AempOS.Task.TreeProperties
import AempOS.Task.Creation
import AempOS.Task.CreationProperties
import AempOS.Memory.KernelHalf
import AempOS.Task.Spaces
import AempOS.Task.SpacesProperties
import AempOS.Task.KernelPages
import AempOS.Task.MallocProperties
import AempOS.Task.OutOfFrames
import AempOS.Task.CarveUp
import AempOS.Memory.MemmanInit
import AempOS.Fs.References
import AempOS.Fs.ReferencesProperties
import AempOS.Fs.SharedFiles
import AempOS.Fs.SharedFilesProperties
import AempOS.Lib.Program
import AempOS.Task.Exec
import AempOS.Task.ExecReads
import AempOS.Ipc.Box
import AempOS.Ipc.BoxSimulation
import AempOS.Ipc.BoxProperties
import AempOS.Ipc.Release
import AempOS.Ipc.ReleaseProperties
import AempOS.Task.ExecMemory
import AempOS.Task.ExecMemoryProperties
import AempOS.Lib.LastWrite
import AempOS.Task.OwnPages
import AempOS.Task.ExecRuns
import AempOS.Task.ExecImage
import AempOS.Lib.Coalesced
import AempOS.Memory.MemmanUnion
import AempOS.Fs.DirectoryProperties
import AempOS.Fs.MapRuns
import AempOS.Fs.ReadWrite
import AempOS.Fs.ReadWriteProperties
import AempOS.Fs.WriteProperties
import AempOS.Fs.DriveWrites
import AempOS.Fs.OpenProperties
import AempOS.Ipc.MsgQueueNames
import AempOS.Lib.Ring
import AempOS.Keyboard.Buffer
import AempOS.Keyboard.BufferProperties
import AempOS.Keyboard.Keymap
import AempOS.Keyboard.Read
import AempOS.Keyboard.ReadProperties
import AempOS.Task.ExecFailure
import AempOS.Fs.PathNames
import AempOS.Fs.SmapRun
import AempOS.Hd.RequestNodes
import AempOS.Boot.Floppy
import AempOS.Boot.FatEntry
import AempOS.Boot.RootSearch
import AempOS.Boot.RootSearchProperties
import AempOS.Console.Display
import AempOS.Console.DisplayProperties
import AempOS.Hd.Partition
import AempOS.Hd.PartitionProperties
import AempOS.Hd.SectorAddress
import AempOS.Smp.MpTable
import AempOS.Smp.MpTableProperties
import AempOS.Ipc.Arguments
import AempOS.Ipc.ArgumentsProperties
import AempOS.Kernel.Cpu
import AempOS.Kernel.Entry
import AempOS.Fs.Accounts
import AempOS.Fs.BareState
import AempOS.Fs.StoreMoves
import AempOS.Fs.StoreRuns
import AempOS.Kernel.EntryProperties
import AempOS.Kernel.Following
import AempOS.Kernel.FollowingCode
import AempOS.Kernel.FollowingRuns
import AempOS.Kernel.Transparency
import AempOS.Boot.FileLoad
import AempOS.Boot.FileLoadProperties
import AempOS.Boot.FreeMemoryProperties
import AempOS.Boot.KernelImage
import AempOS.Fs.SmapCalls
