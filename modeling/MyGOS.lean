import MyGOS.Mm.TrackerRuns
import MyGOS.Mm.KernelWrites
import MyGOS.Fat32.CacheHandles
import MyGOS.Fs.OpenExits
import MyGOS.Fs.LostWrites
import MyGOS.Fs.AbsolutePath
import MyGOS.Fs.Pipe
import MyGOS.Fs.FdExits
import MyGOS.Fs.FdDiscipline
import MyGOS.Mm.PteBits
import MyGOS.Mm.PageWalk
import MyGOS.Mm.PageMap
import MyGOS.Mm.MappedBuffer
import MyGOS.Lib.LittleEndian
import MyGOS.Lib.Chunks
import MyGOS.Task.TrapContext
import MyGOS.Task.Signal
import MyGOS.Task.SignalReturn
import MyGOS.Task.SignalMasks
import MyGOS.Task.SignalCalls
import MyGOS.Task.TrapSlots
import MyGOS.Task.FutexWakes
import MyGOS.Fat32.Lookup
import MyGOS.Fat32.Layout
import MyGOS.Fat32.Table
import MyGOS.Fat32.Alloc
import MyGOS.Fat32.Bytes
import MyGOS.Fat32.Grow
import MyGOS.Fat32.EntryFields
import MyGOS.Fat32.Handle
import MyGOS.Fat32.Mirror
import MyGOS.Fat32.Records
import MyGOS.Fat32.Beside
import MyGOS.Fat32.Append
import MyGOS.Fat32.NewEntries
import MyGOS.Fat32.Names
import MyGOS.Fat32.Search
import MyGOS.Fat32.Found
import MyGOS.Fat32.Create
import MyGOS.Fat32.TwoHandles
import MyGOS.Mm.Layout
import MyGOS.Mm.ForkLayout
import MyGOS.Mm.LayoutRuns
import MyGOS.Mm.ProgramBreak
import MyGOS.Mm.MmapPlacement
import MyGOS.Mm.FaultRegions
import MyGOS.Mm.MmapUse
import MyGOS.Mm.WriteProtection
import MyGOS.Mm.SparedFrames
import MyGOS.Mm.BufferCover
import MyGOS.Task.KillCalls
import MyGOS.Mm.BufferViews
import MyGOS.Task.SignalSelection
import MyGOS.Task.ActionTable
import MyGOS.Task.FutexChains
import MyGOS.Task.WaitOutcomes
import MyGOS.Mm.MprotectPages
import MyGOS.Mm.FilePages
import MyGOS.Mm.LoadedSegments
import MyGOS.Lib.CMemory
import MyGOS.Mm.StackCopies
import MyGOS.Lib.StartupStack
import MyGOS.Task.Exec
import MyGOS.Task.ExecStrings
import MyGOS.Task.InitUstack
import MyGOS.Time.TimeVal
import MyGOS.Time.Clocks
import MyGOS.Time.IntervalTimer
import MyGOS.Time.CpuTime
import MyGOS.Task.Sleep
import MyGOS.Fs.CloseOnExec
import MyGOS.Fs.FdSet
import MyGOS.Lib.Portions
import MyGOS.Fat32.DirInfo
import MyGOS.Fs.Getdents
import MyGOS.Fs.Sendfile
import MyGOS.Fs.FlatWrites
import MyGOS.Fs.Vectored
import MyGOS.Fs.Pselect
import MyGOS.Fs.PselectRuns
import MyGOS.Fat32.Walkers
import MyGOS.Fat32.Blanks
import MyGOS.Fs.DirentNames
import MyGOS.Fs.PipeWriters
import MyGOS.Fat32.Chains
import MyGOS.Fat32.Slack
import MyGOS.Fs.Truncate
import MyGOS.Fat32.Rewrites
import MyGOS.Fs.Sync
import MyGOS.Fat32.Listing
import MyGOS.Fat32.LegalNames
import MyGOS.Fat32.DirRuns
import MyGOS.Fat32.HandleRuns
import MyGOS.Fat32.BlankScan
import MyGOS.Fat32.LongNames
import MyGOS.Mm.FlatBuffer
import MyGOS.Fat32.WalkEnds
import MyGOS.Mm.DeviceRegions
import MyGOS.Fs.RamFile
import MyGOS.Fs.RamDir
import MyGOS.Fs.RamPaths
import MyGOS.Fs.RamTrees
import MyGOS.Fat32.SectorSizes
import MyGOS.Fat32.FailedCreate
import MyGOS.Lib.WriteLog
import MyGOS.Fat32.FileRuns
import MyGOS.Mm.EagerForks
import MyGOS.Mm.AttachCounts
import MyGOS.Task.VirtualCpus
import MyGOS.Task.Switch
import MyGOS.Task.ReadyQueue
import MyGOS.Task.ExitStatus
import MyGOS.Mm.SharedContents
import MyGOS.Mm.FrameConservation
