import Dthreads.Scheduler.Crossing
import Dthreads.Scheduler.Places

/-! # Cancellation

What the scheduler has to put right when a thread is cancelled. -/

namespace Dthreads.Scheduler

open Transition

namespace Determ

variable {d : Determ} {q : Queue} {L : List ℕ} {i : ℕ}

end Determ

namespace State

variable {s w : State} {v t : Tid} {rest : List Instr}

/-- The counts of the scheduler: each is the length of its list, and `_currthreads` is the number of
threads inside the fence. -/
structure Accounts (s : State) : Prop where
  waiters : ∀ c L, s.determ.Lists (.cond c) L → s.determ.waiters c = L.length
  maxthreads : ∀ L, s.determ.Lists .active L → s.determ.maxthreads = L.length
  currthreads : s.determ.currthreads =
    (s.procs.filter fun u => (s.locals u).live && (s.locals u).waits).length

namespace Placed

variable {ls : Queue → List ℕ}

end Placed

end State

end Dthreads.Scheduler
