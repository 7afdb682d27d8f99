import PicoShell.Lib.Bytes
import PicoShell.Lib.Walk
import PicoShell.Lib.DotTree
import PicoShell.Lib.Recency
import PicoShell.Lib.Exchange
import PicoShell.Lib.Linked
import PicoShell.Lib.Pool
import PicoShell.Lib.Slots
import PicoShell.Lib.Rounds
import PicoShell.Lib.Rotation
import PicoShell.Lib.Lockstep
import PicoShell.Lib.LastWrite
import PicoShell.Lib.Fields
import PicoShell.Lib.Calls
import PicoShell.Lib.Shuffle
import PicoShell.Lib.Names
import PicoShell.Fault
import PicoShell.Fs.Layout
import PicoShell.Fs.Disk
import PicoShell.Fs.Bitmap
import PicoShell.Fs.Inode
import PicoShell.Fs.Allocation
import PicoShell.Fs.Updates
import PicoShell.Fs.File
import PicoShell.Fs.FileWrite
import PicoShell.Fs.FreedBlocks
import PicoShell.Fs.WellFormed
import PicoShell.Fs.Directory
import PicoShell.Fs.DirectoryOps
import PicoShell.Fs.DirectoryMap
import PicoShell.Fs.DirectoryRemove
import PicoShell.Fs.ReadWrite
import PicoShell.Fs.EndOfFile
import PicoShell.Fs.Accesses
import PicoShell.Fs.FailedWrites
import PicoShell.Fs.Pathname
import PicoShell.Fs.Fs
import PicoShell.Fs.Budget
import PicoShell.Fs.Tree
import PicoShell.Fs.Create
import PicoShell.Fs.Boot
import PicoShell.Fs.Lookup
import PicoShell.Fs.CreateRuns
import PicoShell.Fs.CreateTree
import PicoShell.Fs.CreateLookup
import PicoShell.Fs.Atomic
import PicoShell.Fs.WorkingDirectory
import PicoShell.Fs.Delete
import PicoShell.Fs.DeleteRuns
import PicoShell.Fs.RootPath
import PicoShell.Fs.PathCommands
import PicoShell.Fs.ChangeDirectory
import PicoShell.Fs.Superblock
import PicoShell.Fs.Catalog
import PicoShell.Fs.FileStore
import PicoShell.Memory.VariableStore
import PicoShell.Memory.Machine
import PicoShell.Memory.Frames
import PicoShell.Memory.Lru
import PicoShell.Scheduling.ReadyQueue
import PicoShell.Scheduling.LinkedQueue
import PicoShell.Scheduling.Scheduler
import PicoShell.Scheduling.Consistent
import PicoShell.Scheduling.Paging
import PicoShell.Scheduling.Sorting
import PicoShell.Scheduling.Priorities
import PicoShell.Scheduling.Entries
import PicoShell.Scheduling.Build
import PicoShell.Scheduling.Rejected
import PicoShell.Scheduling.Run
import PicoShell.Scheduling.Execution
import PicoShell.Scheduling.Exclusive
import PicoShell.Scheduling.Faults
import PicoShell.Scheduling.Transparent
import PicoShell.Scheduling.Idle
import PicoShell.Scheduling.Sequential
import PicoShell.Scheduling.Duplicates
import PicoShell.Scheduling.RoundRobin
import PicoShell.Scheduling.Coherence
import PicoShell.Scheduling.Fairness
import PicoShell.Scheduling.Gridlock
import PicoShell.Scheduling.Aging
import PicoShell.Core.Shell
import PicoShell.Core.Words
import PicoShell.Core.Arguments
import PicoShell.Core.Codes
import PicoShell.Scheduling.ErrorCodes
import PicoShell.Scheduling.Suspended
import PicoShell.Scheduling.Orderly
import PicoShell.Scheduling.Interleaving
import PicoShell.Scheduling.Termination
import PicoShell.Core.Interpreter
import PicoShell.Core.Process
import PicoShell.Core.Answers
import PicoShell.Core.Nested
import PicoShell.Core.MappedPages
import PicoShell.Core.TableEntries
import PicoShell.Core.NestedRuns
import PicoShell.Core.Exits
import PicoShell.Core.Reads
import PicoShell.Core.Progress
import PicoShell.Core.Calls
import PicoShell.Core.Plain
import PicoShell.Core.Scripts
import PicoShell.Core.Completion
import PicoShell.Core.Rendering
import PicoShell.Core.View
import PicoShell.Core.Sessions
import PicoShell.Core.Storage
