import Dthreads.Memory.Registration
import Dthreads.Memory.MultiWriter
import Dthreads.Scheduler.Exclusion
import Dthreads.Scheduler.Serial
import Dthreads.Scheduler.CondWait
import Dthreads.Scheduler.Index
import Dthreads.Scheduler.Wakeups
import Dthreads.Scheduler.RoundRobin
import Dthreads.Memory.Notify
import Dthreads.Scheduler.Strands
import Dthreads.Memory.Twins
import Dthreads.Memory.Diffs
import Dthreads.Memory.Versions
import Dthreads.Memory.Wrappers
import Dthreads.Memory.Protection
import Dthreads.Memory.Destroy
import Dthreads.Memory.FinalCommit
import Dthreads.Memory.Cancellation
import Dthreads.Memory.BlockTable
import Dthreads.Memory.Operations
import Dthreads.Memory.Stages
import Dthreads.Memory.Users
import Dthreads.Memory.Coherence
import Dthreads.Memory.Actions
import Dthreads.Memory.JoinResult
import Dthreads.Memory.Access
import Dthreads.Memory.Parallel
import Dthreads.Memory.Isolation
import Dthreads.Allocator.Requests
import Dthreads.Transition.Simulation
import Dthreads.Allocator.Ledger
import Dthreads.Allocator.Contract
import Dthreads.Allocator.Threaded
import Dthreads.Allocator.Refinement
import Dthreads.Allocator.Program
import Dthreads.Bytes.Words
import Dthreads.Scheduler.Episodes
import Dthreads.Scheduler.Cancel
import Dthreads.Scheduler.Sigwait
import Dthreads.Scheduler.Releases
import Dthreads.Scheduler.Children
import Dthreads.Scheduler.WaitLoop
import Dthreads.Scheduler.Reuse
import Dthreads.Scheduler.ListOps
import Dthreads.Scheduler.Budget
import Dthreads.Transition.Lockstep
import Dthreads.Memory.Seats
import Dthreads.Machine.Determinism
