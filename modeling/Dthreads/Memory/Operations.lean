import Dthreads.Memory.Commit
import Dthreads.Memory.Dirty

/-! # The operations of the runtime on the pages

Each operation of `xrun` ends a transaction and starts the next one. What it does to the protected
memory is a short script; the scripts of all processes interleave in any way. -/

namespace Dthreads.Memory

/-- Where the `result` of `pthread_join` points to. The stack is not protected. -/
inductive Dest where
  | null
  | stack
  | region (o : SyncAddr)
  deriving DecidableEq

/-- One step of a script. -/
inductive Phase where
  | openProtection
  | begin
  | commit
  /-- `checkandcommit`, with the entries it has still to visit. -/
  | entries (ks : List ℕ)
  | finalcommit (release : Bool)
  /-- `cond_init`, for an object without an entry: the store of `setSyncEntry`. -/
  | condInit (o : SyncAddr) (entry : Word)
  /-- The `mem_write` of `setSyncEntry`. -/
  | memWrite (o : SyncAddr) (entry : Word)
  /-- `xbitmap::cleanup`. -/
  | cleanup
  | clone (child : Tid)
  /-- Wait until the joinee has `STATUS_EXIT`. -/
  | await (child : Tid)
  /-- `*result = t->retval`. -/
  | result (child : Tid) (dest : Dest)
  /-- `closeMemoryProtection`, if `isSingleAliveThread`. -/
  | closeProtection
  | deregister
  /-- `t->retval = result`. -/
  | retval (r : Word)
  | exit
  deriving DecidableEq

/-- The calls that commit. A pass of `mutex_lock` through the token path is a call of its own. -/
inductive Op where
  | mutexLock
  | mutexUnlock
  | condSignal (o : SyncAddr) (entry : Word)
  | condBroadcast (o : SyncAddr) (entry : Word)
  | condWait (o : SyncAddr) (entry : Word)
  | barrierWait (lastThread : Bool)
  | join (child : Tid) (result : Dest)
  | spawn (child : Tid)
  /-- `threadDeregister` and the end of `run_thread`. -/
  | exit (result : Word)

/-- The script of a call. -/
def Op.script (isProtected : Bool) : Op → List Phase
  | .mutexLock | .mutexUnlock => [.commit, .begin]
  | .condSignal o e | .condBroadcast o e | .condWait o e => [.commit, .condInit o e, .begin]
  | .barrierWait lastThread => .commit :: if lastThread then [.cleanup, .begin] else [.begin]
  | .join child result =>
      [.commit, .finalcommit true, .await child, .result child result, .begin, .closeProtection]
  | .spawn child =>
      (if isProtected then [] else [.openProtection, .begin]) ++
        [.commit, .finalcommit true, .clone child, .begin]
  | .exit result => [.finalcommit false, .commit, .deregister, .retval result, .exit]

/-- Without protection there is one thread, and only `spawn` and `join` do anything. -/
def Op.enabled (isProtected : Bool) : Op → Bool
  | .spawn _ | .join _ _ => true
  | _ => isProtected

structure Runtime where
  mem : Mem
  /-- The processes created so far. -/
  threads : List Tid
  /-- What each process has still to do of its call. -/
  todo : Tid → List Phase
  /-- `STATUS_EXIT`. -/
  exited : Tid → Bool
  /-- `ThreadStatus::retval`, in shared memory. -/
  retval : Tid → Word
  /-- The word on the stack that `result` points to. -/
  stack : Tid → Word

inductive Event where
  /-- The program's own code. -/
  | user (t : Tid) (a : Act)
  | call (t : Tid) (op : Op)
  /-- The next step of the script. -/
  | next (t : Tid)
  /-- The page fault of a store that the script makes. -/
  | fault (t : Tid) (a : Act)
  /-- Delivery of a `SIGUSR1`. -/
  | signal (t : Tid) (p : ℕ)

/-- What code of the program can do: it accesses pages in use. -/
def Mem.allows (m : Mem) (t : Tid) : Act → Bool
  | .load u _ | .store u _ _ | .fault u _ | .mprotectRead u _ | .setWord u _ _
  | .memWrite u _ _ | .superblock u _ => u = t
  | .notify u p => u = t ∧ (m.spaces t).prot p = .none ∧ p < m.position
  | _ => false

/-- `atomicBegin(true)`, which returns at once without protection. -/
def Mem.atomicBegin (m : Mem) (t : Tid) : Mem :=
  if (m.spaces t).isProtected then m.updateAll t else m

/-- The entries that `atomicEnd(false)` visits, those of the heap first. -/
def Mem.atomicEnd (m : Mem) (t : Tid) (isHeap : ℕ → Bool) : List ℕ :=
  if (m.spaces t).isProtected then m.entriesOf t isHeap ++ m.entriesOf t fun p => !isHeap p else []

/-- What the fault handler does for an access to page `p`. -/
def Mem.handles (m : Mem) (t : Tid) (p : ℕ) : Act → Bool
  | .fault u q | .mprotectRead u q => u = t ∧ q = p
  | .notify u q => u = t ∧ q = p ∧ (m.spaces t).prot p = .none ∧ p < m.position
  | _ => false

namespace Runtime

/-- `_alivethreads == 1`. -/
def isSingleAliveThread (s : Runtime) : Bool := s.threads.countP (fun u => !s.exited u) = 1

/-- The page the script of `t` accesses next. -/
def target (s : Runtime) (t : Tid) : Option ℕ :=
  match s.todo t with
  | .condInit o _ :: _ =>
      if (s.mem.spaces t).prot o.page = .none ∨ s.mem.getSyncEntry t o = fun _ => 0 then some o.page
      else none
  | .result _ (.region o) :: _ => some o.page
  | _ => none

/-- The script of `t` goes on with `rest`, in memory `m`. -/
def advance (s : Runtime) (t : Tid) (m : Mem) (rest : List Phase) : Runtime :=
  { s with mem := m, todo := Function.update s.todo t rest }

variable (isHeap : ℕ → Bool)

/-- One step of the script of `t`. -/
def next (s : Runtime) (t : Tid) : Option Runtime :=
  match s.todo t with
  | [] => none
  | .openProtection :: rest =>
      some (s.advance t
        (if (s.mem.spaces t).isProtected then s.mem else s.mem.openProtection t) rest)
  | .begin :: rest => some (s.advance t (s.mem.atomicBegin t) rest)
  | .commit :: rest => some (s.advance t s.mem (.entries (s.mem.atomicEnd t isHeap) :: rest))
  | .entries [] :: rest => some (s.advance t s.mem rest)
  | .entries (k :: ks) :: rest => (s.mem.commitEntry t k).map (s.advance t · (.entries ks :: rest))
  | .finalcommit release :: rest =>
      match s.mem.nextOwned t with
      | some p =>
          some (s.advance t (s.mem.finalcommitPage t p release) (.finalcommit release :: rest))
      | none => some (s.advance t s.mem rest)
  | .condInit o entry :: rest =>
      if (s.mem.spaces t).prot o.page = .none then none
      else if s.mem.getSyncEntry t o ≠ fun _ => 0 then some (s.advance t s.mem rest)
      else if s.mem.writable t o.page then
        some (s.advance t (s.mem.storeWord t o.page o.word entry) (.memWrite o entry :: rest))
      else none
  | .memWrite o entry :: rest => some (s.advance t (s.mem.memWrite o entry) rest)
  | .cleanup :: rest => some (s.advance t { s.mem with bitmap := s.mem.bitmap.cleanup } rest)
  | .clone child :: rest =>
      if child ∈ s.threads then none
      else some
        { mem := s.mem.fork t child
          threads := s.threads ++ [child]
          todo := Function.update (Function.update s.todo t rest) child [.begin]
          exited := Function.update s.exited child false
          retval := Function.update s.retval child fun _ => 0
          stack := s.stack }
  | .await child :: rest => if s.exited child then some (s.advance t s.mem rest) else none
  | .result _ .null :: rest => some (s.advance t s.mem rest)
  | .result child .stack :: rest =>
      some { s.advance t s.mem rest with stack := Function.update s.stack t (s.retval child) }
  | .result child (.region o) :: rest =>
      if s.mem.writable t o.page then
        some (s.advance t (s.mem.storeWord t o.page o.word (s.retval child)) rest)
      else none
  | .closeProtection :: rest =>
      some (s.advance t (if s.isSingleAliveThread then s.mem.closeProtection t else s.mem) rest)
  | .deregister :: rest =>
      some { s.advance t s.mem rest with exited := Function.update s.exited t true }
  | .retval r :: rest =>
      some { s.advance t s.mem rest with retval := Function.update s.retval t r }
  | .exit :: rest => some (s.advance t (s.mem.exit t) rest)

/-- The effect of an event, `none` when it is not enabled. -/
def step (s : Runtime) : Event → Option Runtime
  | .user t a =>
      if t ∈ s.threads ∧ s.exited t = false ∧ s.todo t = [] ∧ s.mem.allows t a then
        (s.mem.step a).map (s.advance t · [])
      else none
  | .call t op =>
      if t ∈ s.threads ∧ s.exited t = false ∧ s.todo t = [] ∧
          op.enabled (s.mem.spaces t).isProtected then
        some (s.advance t s.mem (op.script (s.mem.spaces t).isProtected))
      else none
  | .next t => s.next isHeap t
  | .fault t a =>
      if (s.target t).any (s.mem.handles t · a) then
        (s.mem.step a).map (s.advance t · (s.todo t))
      else none
  | .signal t p =>
      if t ∈ s.threads ∧ s.mem.alive t then
        (s.mem.step (.signal t p)).map (s.advance t · (s.todo t))
      else none

/-- The program starts with one thread. -/
def boot (position : ℕ) : Runtime where
  mem := .boot position
  threads := [1]
  todo _ := []
  exited _ := false
  retval _ := fun _ => 0
  stack _ := fun _ => 0

end Runtime

end Dthreads.Memory
