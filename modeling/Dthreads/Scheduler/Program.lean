import Dthreads.Scheduler.Determ

/-! # The operations of `xrun`

An operation is the list of its instructions. An instruction is what a process does between two
points where another process may run: one access to shared data, one critical section of
`_mutex`, or one turn of a waiting loop. -/

namespace Dthreads.Scheduler

/-- Where `lock_acquire` is called from: the path without the token, the retry loop of
`mutex_lock`, or `cond_wait`. -/
inductive Caller where
  | direct
  | retry
  | condWait
  deriving DecidableEq, Repr

inductive Instr where
  /-- `waitFence` up to the first wait. -/
  | fenceEnter (keepBitmap : Bool)
  /-- The busy wait for the arrival phase; `_mutex` is taken again without another test. -/
  | spinArrival (keepBitmap : Bool)
  | fenceArrive (keepBitmap : Bool)
  /-- The wait for the arrival phase on the condition variable. -/
  | condArrival (keepBitmap : Bool)
  /-- The busy wait for the others, and the leave in a critical section of its own. -/
  | spinRelease (keepBitmap : Bool)
  | fenceLeave (keepBitmap : Bool)
  /-- The wait for the others on the condition variable, which ends with the leave. -/
  | condRelease (keepBitmap : Bool)
  | getToken
  | putToken
  | openMemoryProtection
  | atomicBegin
  | atomicEnd
  | finalcommit (release : Bool)
  | startFence
  | notifyWaitingChildren
  /-- `_fence_enabled = false; _children_threads_count = 0`. -/
  | disableFence
  | countChild
  | forkSpawn (child : Tid)
  | childRegister (parentindex : ℕ)
  | waitParentNotify
  /-- The wait of a new thread on `_cond_children`. -/
  | waitNotified
  | waitChildRegistered
  | countLock
  | discountLock
  | lockIsowner (m : Obj)
  | isSingleWorkingThread (m : Obj)
  | getLockAgain (m : Obj)
  /-- `lock_acquire`, split at the test of `is_acquired`. -/
  | lockTest (m : Obj) (k : Caller)
  | lockSet (m : Obj) (k : Caller)
  | setTokenHolding (b : Bool)
  | lockRelease (m : Obj)
  | endCriticalSection
  | condLookup (c : Obj)
  | condEnter (c m : Obj)
  /-- A return from the wait on the condition variable. -/
  | condBlock (m : Obj)
  | condToken
  | condSignal (c : Obj)
  | condBroadcast (c : Obj)
  | barrierEnter (b : Obj)
  | barrierArrive (b : Obj)
  | barrierBlock (b : Obj) (generation : ℕ)
  | detJoin (v : Tid) (wakeup : Bool)
  /-- A return from the wait on `_cond_join`. -/
  | joinBlock (guest : ℕ)
  | joinToken
  /-- `xthread::join`: store the result if the caller asks for it. -/
  | storeResult (v : Tid)
  | closeIfSingle
  | kill (v : Tid)
  | detCancel (v : Tid)
  | deregister
  | procExit
  | mutexInit (m : Obj)
  | condInit (c : Obj)
  | barrierInit (b : Obj) (count : ℕ)
  deriving DecidableEq, Repr

/-- The operations of the pthreads interface. A thread handle is the pid of the thread. -/
inductive Op where
  | mutexLock (m : Obj)
  | mutexUnlock (m : Obj)
  | condWait (c m : Obj)
  | condSignal (c : Obj)
  | condBroadcast (c : Obj)
  | barrierWait (b : Obj)
  | spawn (child : Tid)
  | join (v : Tid)
  | cancel (v : Tid)
  | threadDeregister
  | mutexInit (m : Obj)
  | condInit (c : Obj)
  | barrierInit (b : Obj) (count : ℕ)
  deriving DecidableEq, Repr

/-- The static variables of `xrun` in one process, and where the process is: the instructions
its operation has left. The last two fields are history variables: the thread obtained the
token and did not pass it on, and the mutexes it is inside. -/
structure Local where
  fenceEnabled : Bool
  tokenHolding : Bool
  protectionEnabled : Bool
  lockCount : ℕ
  childrenThreadsCount : ℕ
  threadIndex : ℕ
  live : Bool
  notified : Bool
  pending : List Instr
  hasToken : Bool
  inside : List Obj
  deriving DecidableEq, Repr

namespace Local

def waitFence (keepBitmap : Bool) : List Instr := [.fenceEnter keepBitmap]

def waitToken : List Instr := waitFence true ++ [.getToken]

/-- `startFence` before the first synchronisation after spawning. -/
def wakeChildren (l : Local) (rest : List Instr) : List Instr :=
  if l.fenceEnabled then rest
  else if l.childrenThreadsCount = 0 then []
  else [.startFence, .notifyWaitingChildren] ++ rest

def mutexLock (l : Local) (m : Obj) : List Instr := l.wakeChildren [.countLock, .lockIsowner m]

/-- The label `getLockAgain` of `mutex_lock`. -/
def getLockAgain (l : Local) (m : Obj) : List Instr :=
  (if l.tokenHolding then [] else waitToken ++ [.setTokenHolding true, .atomicEnd, .atomicBegin]) ++
    [.lockTest m .retry]

/-- What `mutex_lock` and `cond_wait` do when `lock_acquire` returns false. -/
def lockFailed (m : Obj) : Caller → List Instr
  | .direct => [.getLockAgain m]
  | .retry => [.atomicEnd, .putToken, .atomicBegin] ++ waitFence false ++
      [.setTokenHolding false, .getLockAgain m]
  | .condWait => []

def mutexUnlock (l : Local) (m : Obj) : List Instr :=
  if l.fenceEnabled then [.discountLock, .lockRelease m, .endCriticalSection] else []

def endCriticalSection (l : Local) : List Instr :=
  if l.lockCount = 0 ∧ l.tokenHolding then
    [.atomicEnd, .putToken, .setTokenHolding false, .atomicBegin] ++ waitFence false
  else []

def condWait (c m : Obj) : List Instr :=
  [.atomicEnd, .condLookup c, .condEnter c m, .condBlock m, .condToken, .lockTest m .condWait,
    .atomicBegin]

/-- `body` under the token, which is waited for unless the thread holds it already. -/
def underToken (l : Local) (body : List Instr) : List Instr :=
  if l.tokenHolding then body else waitToken ++ body ++ [.putToken] ++ waitFence false

def condSignal (l : Local) (c : Obj) : List Instr :=
  if l.fenceEnabled then l.underToken [.atomicEnd, .condLookup c, .condSignal c, .atomicBegin]
  else []

def condBroadcast (l : Local) (c : Obj) : List Instr :=
  if l.fenceEnabled then l.underToken [.atomicEnd, .condLookup c, .condBroadcast c, .atomicBegin]
  else []

def barrierWait (l : Local) (b : Obj) : List Instr :=
  l.wakeChildren (waitToken ++ [.atomicEnd, .barrierEnter b])

def spawn (l : Local) (child : Tid) : List Instr :=
  (if l.protectionEnabled then [] else [.openMemoryProtection, .atomicBegin]) ++
  [.atomicEnd, .finalcommit true] ++
  (if l.fenceEnabled then waitToken ++ [.disableFence] else []) ++
  [.countChild, .forkSpawn child, .waitChildRegistered, .atomicBegin]

def join (l : Local) (v : Tid) : List Instr :=
  (if l.fenceEnabled then waitToken else []) ++
  [.atomicEnd, .finalcommit true] ++
  (if l.fenceEnabled then [] else [.startFence]) ++
  [.detJoin v (!l.fenceEnabled), .putToken, .storeResult v] ++ waitFence false ++
  [.atomicBegin, .closeIfSingle]

def cancel (l : Local) (v : Tid) : List Instr :=
  l.underToken [.atomicEnd, .atomicBegin, .kill v, .detCancel v]

def threadDeregister : List Instr :=
  waitToken ++ [.finalcommit false, .atomicEnd, .deregister, .procExit]

/-- What a new process runs before the thread function. -/
def childStart (parentindex : ℕ) : List Instr :=
  [.childRegister parentindex, .waitParentNotify, .waitNotified, .atomicBegin]

def program (l : Local) : Op → List Instr
  | .mutexLock m => l.mutexLock m
  | .mutexUnlock m => l.mutexUnlock m
  | .condWait c m => condWait c m
  | .condSignal c => l.condSignal c
  | .condBroadcast c => l.condBroadcast c
  | .barrierWait b => l.barrierWait b
  | .spawn child => l.spawn child
  | .join v => l.join v
  | .cancel v => l.cancel v
  | .threadDeregister => threadDeregister
  | .mutexInit m => [.mutexInit m]
  | .condInit c => [.condInit c]
  | .barrierInit b count => [.barrierInit b count]

end Local

end Dthreads.Scheduler
