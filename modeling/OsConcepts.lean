import OsConcepts.Lib.Bytes
import OsConcepts.Lib.Client
import OsConcepts.Lib.Fairness
import OsConcepts.Lib.FileStore
import OsConcepts.Lib.FirstFit
import OsConcepts.Lib.Interrupt
import OsConcepts.Lib.Journal
import OsConcepts.Lib.Layout
import OsConcepts.Lib.Ledger
import OsConcepts.Lib.Processes
import OsConcepts.Lib.Queue
import OsConcepts.Lib.Refinement
import OsConcepts.Lib.Splice
import OsConcepts.Lib.System
import OsConcepts.Lib.TailQueue
import OsConcepts.Lib.Volume
import OsConcepts.Disk.Emulator
import OsConcepts.Disk.Transfers
import OsConcepts.Disk.Replay
import OsConcepts.Disk.Requests
import OsConcepts.Proofs.InPlace
import OsConcepts.Sfs.State
import OsConcepts.Sfs.Image
import OsConcepts.Sfs.Api
import OsConcepts.Sfs.References
import OsConcepts.Sfs.Runs
import OsConcepts.Sfs.Stored
import OsConcepts.Sfs.Layouts
import OsConcepts.Sfs.Session
import OsConcepts.Sfs.Fuse
import OsConcepts.Proofs.SfsBlocks
import OsConcepts.Proofs.SfsAssign
import OsConcepts.Proofs.SfsTurn
import OsConcepts.Proofs.SfsChoose
import OsConcepts.Proofs.SfsLoop
import OsConcepts.Proofs.SfsRead
import OsConcepts.Proofs.SfsWrite
import OsConcepts.Proofs.SfsLoad
import OsConcepts.Proofs.SfsCalls
import OsConcepts.Proofs.SfsFormat
import OsConcepts.Proofs.NewFile
import OsConcepts.Proofs.Chunks
import OsConcepts.Proofs.Touches
import OsConcepts.Proofs.SizeRange
import OsConcepts.Proofs.OtherFiles
import OsConcepts.Proofs.WriteSplice
import OsConcepts.Proofs.WriteFrame
import OsConcepts.Proofs.WriteOne
import OsConcepts.Proofs.WriteCompose
import OsConcepts.Proofs.WriteResult
import OsConcepts.Proofs.StrayWrite
import OsConcepts.Proofs.FailedWrite
import OsConcepts.Proofs.WriteInput
import OsConcepts.Proofs.CrashWrite
import OsConcepts.Proofs.CrashPrefix
import OsConcepts.Proofs.Descriptors
import OsConcepts.Proofs.Sharing
import OsConcepts.Proofs.Isolation
import OsConcepts.Proofs.Directory
import OsConcepts.Proofs.Names
import OsConcepts.Proofs.Conservation
import OsConcepts.Proofs.Listing
import OsConcepts.Proofs.Mount
import OsConcepts.Proofs.Remount
import OsConcepts.Proofs.StoredTable
import OsConcepts.Proofs.Formats
import OsConcepts.Proofs.StoreView
import OsConcepts.Proofs.StoreSteps
import OsConcepts.Proofs.StoreWrite
import OsConcepts.Proofs.StoreMount
import OsConcepts.Proofs.StoreRefines
import OsConcepts.Proofs.FuseSteps
import OsConcepts.Proofs.FuseRefines
import OsConcepts.Shelly.Jobs
import OsConcepts.Proofs.JobTable
import OsConcepts.Proofs.LostJobs
import OsConcepts.Shelly.Getcmd
import OsConcepts.Proofs.Words
import OsConcepts.Shelly.Child
import OsConcepts.Proofs.Launch
import OsConcepts.Sut.Task
import OsConcepts.Sut.Scheduler
import OsConcepts.Proofs.SchedulerSteps
import OsConcepts.Proofs.TaskPlaces
import OsConcepts.Proofs.IoRequests
import OsConcepts.Proofs.IoResults
import OsConcepts.Proofs.Shutdown
import OsConcepts.Proofs.RoundRobin
import OsConcepts.Proofs.Progress
import OsConcepts.Proofs.ShutdownEnds
import OsConcepts.Sut.Queue
import OsConcepts.Proofs.QueueLists
import OsConcepts.Sut.Linked
import OsConcepts.Proofs.LinkedQueues
