import MiniRunner.Main
import MiniRunner.Refinement.Jobs
import MiniRunner.Refinement.Services
import MiniRunner.Refinement.RoundTrip
import MiniRunner.Daemon
import MiniRunner.TimeShift
import MiniRunner.Sync.Writers
import MiniRunner.Sync.Readers
import MiniRunner.Sync.Updates
import MiniRunner.Restart.Closing
import MiniRunner.Restart.Safety
import MiniRunner.Restart.Durable
import MiniRunner.Crash.Interrupted
import MiniRunner.Crash.Killed
import MiniRunner.Argv.Commands
import MiniRunner.Names.Isolation
import MiniRunner.Names.Integrity
import MiniRunner.Names.Rename
import MiniRunner.Names.Undo
import MiniRunner.Kernel.Limits
import MiniRunner.Kernel.Pids
import MiniRunner.Kernel.ShowLimit
import MiniRunner.Refinement.Settled
import MiniRunner.Names.Folders
import MiniRunner.Names.Shifted
import MiniRunner.Kernel.Handshake
import MiniRunner.Kernel.Signals
import MiniRunner.Recovery.Backups
import MiniRunner.Ops.Bounds
import MiniRunner.Recovery.Commit
import MiniRunner.Ops.EnvBounds
import MiniRunner.Ops.LimitBounds
import MiniRunner.Ops.DaemonBounds
import MiniRunner.Ops.Removal
import MiniRunner.Refinement.EnvMap
import MiniRunner.Ops.Arguments
import MiniRunner.Ops.JobLimits
import MiniRunner.Argv.Sizes
import MiniRunner.Argv.Intervals
import MiniRunner.Kernel.MemoryMax
import MiniRunner.Interpreter.Run
import MiniRunner.Usage.CpuParser
import MiniRunner.Search.Results
import MiniRunner.Schedule
import MiniRunner.Refinement.Copies
import MiniRunner.Ops.Relaunch
import MiniRunner.Store.Numeral
import MiniRunner.Entry.Mman
import MiniRunner.Entry.Arena
import MiniRunner.Kernel.FileCalls
import MiniRunner.Ops.DeleteFolder
import MiniRunner.Clib.Descriptors
import MiniRunner.Daemon.Descriptors
import MiniRunner.Sync.Stale
import MiniRunner.Daemon.Lifecycle
import MiniRunner.Daemon.JobStart
import MiniRunner.Daemon.Limits
import MiniRunner.Clib.Transitions
import MiniRunner.System.Reread
import MiniRunner.System.Database
import MiniRunner.System.Saving
import MiniRunner.System.Commands
import MiniRunner.System.Processes
import MiniRunner.System.History
import MiniRunner.System.Overlapping
import MiniRunner.System.Scripts
import MiniRunner.System.Updates
import MiniRunner.Sync.Status
import MiniRunner.System.Gate
