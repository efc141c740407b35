import LabsOS.Program.Logic
import LabsOS.Program.Framing
import LabsOS.Program.Walk
import LabsOS.Kernel.Exec
import LabsOS.Archiver.Archiver
import LabsOS.Archiver.Copy
import LabsOS.Archiver.Extract
import LabsOS.Archiver.Add
import LabsOS.Archiver.Display
import LabsOS.Archiver.Refinement
import LabsOS.Archiver.Halting
import LabsOS.Archiver.Faithful
import LabsOS.Archiver.FailedAdd
import LabsOS.Archiver.RoundTrip
import LabsOS.Archiver.SelfExtract
import LabsOS.Archiver.Concurrent
import LabsOS.Archiver.Compaction
import LabsOS.Archiver.Reported
import LabsOS.Archiver.Attributes
import LabsOS.Archiver.Agreement
import LabsOS.Archiver.Chunks
import LabsOS.Concurrency.Steps
import LabsOS.Concurrency.Monitor
import LabsOS.Condvar.Lines
import LabsOS.Condvar.Progress
import LabsOS.Condvar.Termination
import LabsOS.Concurrency.Team
import LabsOS.Concurrency.Launch
import LabsOS.Concurrency.Signals
import LabsOS.Concurrency.Crew
import LabsOS.Concurrency.Register
import LabsOS.Mtx.Buffer
import LabsOS.Mtx.Main
import LabsOS.Concurrency.Fairness
import LabsOS.Concurrency.Ending
import LabsOS.Mtx.Progress
import LabsOS.Rwlock.Snapshots
import LabsOS.Rwlock.LastDisplay
import LabsOS.Rwlock.Main
import LabsOS.Rwlock.Progress
import LabsOS.Kernel.SystemV
import LabsOS.Kernel.Pipe
import LabsOS.Fork.Fork
import LabsOS.Fork.Story
import LabsOS.Fork.Runs
import LabsOS.Fork.Undisturbed
import LabsOS.PipeFifo.Messages
import LabsOS.PipeFifo.Pipe
import LabsOS.PipeFifo.Fifo
import LabsOS.PipeFifo.FifoRuns
import LabsOS.Sems.Exchange
import LabsOS.Sems.Startup
import LabsOS.Sems.Senders
import LabsOS.Sems.Threads
import LabsOS.Sems.Turns
import LabsOS.Sems.TurnsProgress
import LabsOS.Shmem.Send
import LabsOS.Shmem.Senders
import LabsOS.Shmem.Exchange
import LabsOS.Shmem.Mixtures
import LabsOS.Ls.Listing
import LabsOS.Ls.Ledger
import LabsOS.Ls.Selection
import LabsOS.Ls.Main
import LabsOS.CatGrep.Numbering
import LabsOS.CatGrep.Grep
import LabsOS.Chmod.Language
import LabsOS.CatGrep.Dispatch
import LabsOS.Program.Ownership
import LabsOS.Kernel.Descriptors
import LabsOS.Kernel.Footprint
import LabsOS.Archiver.Main
import LabsOS.Archiver.Descriptors
import LabsOS.Archiver.Footprint
