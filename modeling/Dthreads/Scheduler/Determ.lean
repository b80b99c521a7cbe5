import Dthreads.Memory.Page

/-! # The shared scheduler object

`determ` as it lies in shared memory: the thread entries, linked into the active list and into
the waiting lists by the functions of `list.h`, and the counters of the fence. -/

namespace Dthreads.Scheduler

/-- The address of a mutex, a condition variable or a barrier. -/
abbrev Obj := ℕ

/-- `threadStatus`. -/
inductive Status where
  | condWaiting
  | barrWaiting
  | ready
  | exit
  | joining
  deriving DecidableEq, Repr

/-- A thread entry; entries are named by their index in `_entries`. -/
structure ThreadEntry where
  prev : ℕ
  next : ℕ
  tid : Tid
  threadindex : ℕ
  status : Status
  /-- The thread index of the parent, in spite of its name. -/
  tidParent : ℕ
  cond : Option Obj
  wait : Bool
  joineeThreadIndex : ℕ
  deriving DecidableEq, Repr

structure LockEntry where
  totalUsers : ℕ
  lastThread : Tid
  isAcquired : Bool
  lockBudget : ℤ
  deriving DecidableEq, Repr

structure CondEntry where
  waiters : ℕ
  head : Option ℕ
  deriving DecidableEq, Repr

/-- A barrier entry. The last two fields are those of the `pthread_barrier_t` inside. -/
structure BarrierEntry where
  maxthreads : ℕ
  threads : ℕ
  head : Option ℕ
  arrived : ℕ
  generation : ℕ
  deriving DecidableEq, Repr

/-- `xdefines::LOCK_OWNER_BUDGET`. -/
def lockOwnerBudget : ℤ := 10

/-- `lock_acquire` on an entry that is not acquired: the first user becomes the owner, another
one ends the ownership, and an owner without budget has to let the others go first. -/
def LockEntry.acquire (e : LockEntry) (pid : Tid) (single : Bool) : LockEntry × Bool :=
  let e := { e with isAcquired := true }
  if e.totalUsers = 0 then
    ({ e with totalUsers := 1, lastThread := pid, lockBudget := lockOwnerBudget }, true)
  else if e.totalUsers = 1 then
    if e.lastThread ≠ pid then ({ e with totalUsers := e.totalUsers + 1 }, true)
    else
      let e := { e with lockBudget := e.lockBudget - 1 }
      if e.lockBudget = 0 then
        let e := { e with lockBudget := lockOwnerBudget }
        if single then (e, true) else ({ e with isAcquired := false }, false)
      else (e, true)
  else (e, true)

theorem LockEntry.acquire_isAcquired (e : LockEntry) (pid : Tid) (single : Bool) :
    (e.acquire pid single).1.isAcquired = (e.acquire pid single).2 := by
  unfold acquire
  dsimp only
  split
  · rfl
  · split
    · split
      · rfl
      · split
        · split <;> rfl
        · rfl
    · rfl

/-! ## Lists -/

/-- The array `_entries`, whose `prev` and `next` fields link the lists. -/
abbrev Entries := ℕ → ThreadEntry

namespace Entries

def setNext (es : Entries) (i n : ℕ) : Entries := Function.update es i { es i with next := n }

def setPrev (es : Entries) (i n : ℕ) : Entries := Function.update es i { es i with prev := n }

def insertTail (es : Entries) (e : ℕ) : Option ℕ → Entries × Option ℕ
  | none => ((es.setPrev e e).setNext e e, some e)
  | some header =>
      let tail := (es header).prev
      ((((es.setNext tail e).setPrev header e).setPrev e tail).setNext e header, some header)

/-- Insert `e` after the entry `header`. -/
def insertHead (es : Entries) (e header : ℕ) : Entries :=
  let next := (es header).next
  (((es.setNext header e).setPrev next e).setPrev e header).setNext e next

/-- Unlink `e`, whose own links stay. -/
def removeEntry (es : Entries) (e : ℕ) (head : Option ℕ) : Entries × Option ℕ :=
  let prev := (es e).prev
  let next := (es e).next
  if prev = e ∧ next = e then (es, none)
  else ((es.setNext prev next).setPrev next prev, if head = some e then some next else head)

/-- Splice the list `src` in after the entry `prev`. -/
def moveWholeList (es : Entries) (prev : ℕ) : Option ℕ → Entries
  | none => es
  | some srchead =>
      let next := (es prev).next
      let srctail := (es srchead).prev
      (((es.setPrev next srctail).setPrev srchead prev).setNext srctail next).setNext prev srchead

def setStatus (es : Entries) (i : ℕ) (x : Status) : Entries :=
  Function.update es i { es i with status := x }

end Entries

/-! ## The scheduler object -/

/-- `_tokenpos` is an index: it is never `NULL` once main is registered. The maps from objects
to their entries stand for `getSyncEntry`; the counter of thread indices is that of `xglobals`. -/
structure Determ where
  entries : Entries
  activelist : Option ℕ
  tokenpos : ℕ
  maxthreads : ℕ
  currthreads : ℕ
  alivethreads : ℕ
  isArrivalPhase : Bool
  childregistered : Bool
  coresNumb : ℕ
  threadIndex : ℕ
  locks : Obj → Option LockEntry
  conds : Obj → Option CondEntry
  barriers : Obj → Option BarrierEntry

/-- `--` on a `size_t`. -/
def dec (n : ℕ) : ℕ := if n = 0 then 2 ^ 64 - 1 else n - 1

theorem dec_of_pos {n : ℕ} (h : 0 < n) : dec n = n - 1 := by
  simp [dec, Nat.pos_iff_ne_zero.mp h]

namespace Determ

/-- The pid of the entry the token is at. -/
def holder (d : Determ) : Tid := (d.entries d.tokenpos).tid

def isSingleWorkingThread (d : Determ) : Bool := d.maxthreads = 1

def isSingleAliveThread (d : Determ) : Bool := d.maxthreads = 1 ∧ d.alivethreads = 1

/-! ## The fence -/

def startFence (d : Determ) (threads : ℕ) : Determ :=
  { d with
    maxthreads := d.maxthreads + threads
    alivethreads := d.alivethreads + threads
    isArrivalPhase := true }

def incrFence (d : Determ) (num : ℕ) : Determ := { d with maxthreads := d.maxthreads + num }

/-- One thread less; if all others have arrived, the fence opens. -/
def decrFence (d : Determ) : Determ :=
  let d := { d with maxthreads := dec d.maxthreads }
  if d.currthreads ≥ d.maxthreads ∧ d.isArrivalPhase ∧ d.maxthreads ≠ 0 then
    { d with isArrivalPhase := false }
  else d

def setWait (d : Determ) (i : ℕ) (b : Bool) : Determ :=
  { d with entries := Function.update d.entries i { d.entries i with wait := b } }

/-- The end of `waitFence`: the last thread that leaves starts the next arrival phase. -/
def leaveFence (d : Determ) : Determ :=
  let d := { d with currthreads := dec d.currthreads }
  if d.currthreads = 0 then { d with isArrivalPhase := true } else d

/-- The arrival of a thread; the last one opens the fence. -/
def arriveFence (d : Determ) : Determ :=
  let d := { d with currthreads := d.currthreads + 1 }
  if d.currthreads ≥ d.maxthreads then { d with isArrivalPhase := false } else d

def putToken (d : Determ) : Determ := { d with tokenpos := (d.entries d.tokenpos).next }

/-! ## Threads -/

/-- The constructor of a `ThreadEntry` sets three fields; the links are set by `insertTail`. -/
def registerThread (d : Determ) (threadindex : ℕ) (pid : Tid) (parentindex : ℕ) : Determ :=
  let entry :=
    { d.entries threadindex with
      tid := pid, threadindex := threadindex, wait := false, tidParent := parentindex, status := .ready }
  let (es, head) := Entries.insertTail (Function.update d.entries threadindex entry) threadindex
    d.activelist
  { d with entries := es, activelist := head }

/-- The first part of `join`, for a joinee that is alive: leave the token queue, and pass the
token if it is here. -/
def joinLeave (d : Determ) (guest my : ℕ) : Determ :=
  let (es, head) := d.entries.removeEntry my d.activelist
  let es := Function.update es my
    { es my with status := .joining, joineeThreadIndex := guest }
  { d with entries := es, activelist := head }

/-- One turn of the loop of `join`, up to the wait. -/
def joinPass (d : Determ) (my : ℕ) : Determ :=
  let d := d.decrFence
  if (d.entries d.tokenpos).threadindex = my ∧ d.activelist.isSome then
    { d with tokenpos := (d.entries d.tokenpos).next }
  else d

def setReady (d : Determ) (my : ℕ) : Determ := { d with entries := d.entries.setStatus my .ready }

/-- The exit of a thread, which holds the token. A parent that joins it enters the token queue
next. -/
def deregisterThread (d : Determ) (threadindex : ℕ) : Determ :=
  let parent := (d.entries threadindex).tidParent
  let d :=
    if (d.entries parent).status = .joining ∧
        (d.entries parent).joineeThreadIndex = threadindex then
      { d with entries := d.entries.insertHead parent d.tokenpos }
    else d
  let d :=
    if 0 < d.alivethreads then ({ d with alivethreads := d.alivethreads - 1 }).decrFence else d
  let nextentry := (d.entries threadindex).next
  let (es, head) := d.entries.removeEntry threadindex d.activelist
  { d with entries := es.setStatus threadindex .exit, activelist := head, tokenpos := nextentry }

/-- `determ::cancel`: only a thread that waits on a condition variable is found. -/
def cancel (d : Determ) (threadindex : ℕ) : Determ :=
  let entry := d.entries threadindex
  match entry.status, entry.cond with
  | .condWaiting, some c =>
      let ce := (d.conds c).getD ⟨0, none⟩
      let (es, head) := d.entries.removeEntry threadindex ce.head
      let d :=
        { d with
          entries := es
          conds := Function.update d.conds c (some { ce with head := head })
          alivethreads := dec d.alivethreads }
      let d :=
        if entry.wait then
          { d with currthreads := dec d.currthreads, maxthreads := dec d.maxthreads }
        else d
      let d := if d.maxthreads = 1 then { d with isArrivalPhase := true } else d
      { d with entries := d.entries.setStatus threadindex .exit }
  | _, _ => d

/-! ## Mutexes -/

def setLock (d : Determ) (m : Obj) (e : LockEntry) : Determ :=
  { d with locks := Function.update d.locks m (some e) }

/-- `lock_init`; the budget is not initialised. -/
def lockInit (d : Determ) (m : Obj) : Determ :=
  d.setLock m { totalUsers := 0, lastThread := 0, isAcquired := false, lockBudget := 0 }

/-- The caller is the only user of the lock so far. A second user is counted here, without the
token. -/
def lockIsowner (d : Determ) (m : Obj) (pid : Tid) : Determ × Bool :=
  match d.locks m with
  | none => (d, false)
  | some e =>
      if e.totalUsers = 1 then
        if e.lastThread ≠ pid then (d.setLock m { e with totalUsers := e.totalUsers + 1 }, false)
        else (d, true)
      else (d, false)

/-- `lock_acquire` up to the test of `is_acquired`; the lock is initialised lazily. -/
def lockTest (d : Determ) (m : Obj) : Determ × Bool :=
  let d := if d.locks m = none then d.lockInit m else d
  (d, (d.locks m).all fun e => !e.isAcquired)

/-- The rest of `lock_acquire`. -/
def lockSet (d : Determ) (m : Obj) (pid : Tid) : Determ × Bool :=
  match d.locks m with
  | none => (d, false)
  | some e =>
      (d.setLock m (e.acquire pid d.isSingleWorkingThread).1,
        (e.acquire pid d.isSingleWorkingThread).2)

def lockRelease (d : Determ) (m : Obj) : Determ :=
  match d.locks m with
  | none => d
  | some e => d.setLock m { e with isAcquired := false }

/-! ## Condition variables -/

def setCond (d : Determ) (c : Obj) (e : CondEntry) : Determ :=
  { d with conds := Function.update d.conds c (some e) }

def condInit (d : Determ) (c : Obj) : Determ := d.setCond c { waiters := 0, head := none }

/-- `cond_wait` up to the first release of the mutex, in one hold of `_mutex`: the thread moves
from the token queue to the waiting list. -/
def condEnter (d : Determ) (my : ℕ) (c m : Obj) : Determ :=
  let ce := (d.conds c).getD ⟨0, none⟩
  let next := (d.entries my).next
  let (es, active) := d.entries.removeEntry my d.activelist
  let (es, head) := es.insertTail my ce.head
  let es := Function.update es my { es my with cond := some c, status := .condWaiting }
  let d :=
    ({ d with entries := es, activelist := active }).setCond c
      { waiters := ce.waiters + 1, head := head }
  ({ d.decrFence with tokenpos := next }).lockRelease m

/-- `cond_signal` once the entry is found: the first waiter follows the signaller in the token
queue. -/
def condSignal (d : Determ) (c : Obj) : Determ :=
  match d.conds c with
  | none => d
  | some ce =>
      match ce.waiters, ce.head with
      | k + 1, some h =>
          let (es, head) := d.entries.removeEntry h ce.head
          let es := es.insertHead h d.tokenpos
          let es := Function.update es h { es h with cond := none, status := .ready }
          (({ d with entries := es }).setCond c { waiters := k, head := head }).incrFence 1
      | _, _ => d

/-- Mark `n` entries from `i` on as ready. -/
def readyFrom (es : Entries) : ℕ → ℕ → Entries
  | 0, _ => es
  | n + 1, i =>
      readyFrom (Function.update es i { es i with cond := none, status := .ready }) n (es i).next

def condBroadcast (d : Determ) (c : Obj) : Determ :=
  match d.conds c with
  | none => d
  | some ce =>
      match ce.head with
      | some h =>
          if ce.waiters = 0 then d
          else
            let es := readyFrom d.entries ce.waiters h
            (({ d with entries := es.moveWholeList d.tokenpos ce.head }).setCond c
              { waiters := 0, head := none }).incrFence ce.waiters
      | none => d

/-! ## Barriers -/

def setBarrier (d : Determ) (b : Obj) (e : BarrierEntry) : Determ :=
  { d with barriers := Function.update d.barriers b (some e) }

def barrierInit (d : Determ) (b : Obj) (count : ℕ) : Determ :=
  d.setBarrier b { maxthreads := count, threads := 0, head := none, arrived := 0, generation := 0 }

/-- `barrier_wait` up to the wait on the real barrier: the last thread brings the others back,
the others leave the token queue. The flag says whether the thread is the last one. -/
def barrierEnter (d : Determ) (my : ℕ) (b : Obj) : Determ × Bool :=
  match d.barriers b with
  | none => (d, false)
  | some be =>
      let be := { be with threads := be.threads + 1 }
      if be.threads = be.maxthreads then
        let es := d.entries.moveWholeList d.tokenpos be.head
        let d :=
          (({ d with entries := es }).setBarrier b { be with threads := 0, head := none }).incrFence
            (be.maxthreads - 1)
        ({ d with tokenpos := (d.entries my).next }, true)
      else
        let next := (d.entries my).next
        let (es, active) := d.entries.removeEntry my d.activelist
        let (es, head) := es.insertTail my be.head
        let es := es.setStatus my .barrWaiting
        let d := ({ d with entries := es, activelist := active }).setBarrier b { be with head := head }
        ({ d.decrFence with tokenpos := next }, false)

/-! ## What touches the locks -/

variable (d : Determ) (m c b : Obj) (i j n : ℕ) (pid : Tid)

@[simp] theorem startFence_locks : (d.startFence n).locks = d.locks := rfl
@[simp] theorem incrFence_locks : (d.incrFence n).locks = d.locks := rfl
@[simp] theorem setWait_locks (x : Bool) : (d.setWait i x).locks = d.locks := rfl
@[simp] theorem putToken_locks : d.putToken.locks = d.locks := rfl
@[simp] theorem setReady_locks : (d.setReady i).locks = d.locks := rfl
@[simp] theorem joinLeave_locks : (d.joinLeave i j).locks = d.locks := rfl
@[simp] theorem setCond_locks (e : CondEntry) : (d.setCond c e).locks = d.locks := rfl
@[simp] theorem condInit_locks : (d.condInit c).locks = d.locks := rfl
@[simp] theorem setBarrier_locks (e : BarrierEntry) : (d.setBarrier b e).locks = d.locks := rfl
@[simp] theorem barrierInit_locks : (d.barrierInit b n).locks = d.locks := rfl
@[simp] theorem registerThread_locks : (d.registerThread i pid j).locks = d.locks := rfl

@[simp] theorem decrFence_locks : d.decrFence.locks = d.locks := by
  unfold decrFence
  dsimp only
  split <;> rfl

@[simp] theorem leaveFence_locks : d.leaveFence.locks = d.locks := by
  unfold leaveFence
  dsimp only
  split <;> rfl

@[simp] theorem arriveFence_locks : d.arriveFence.locks = d.locks := by
  unfold arriveFence
  dsimp only
  split <;> rfl

@[simp] theorem joinPass_locks : (d.joinPass i).locks = d.locks := by
  unfold joinPass
  dsimp only
  split <;> simp

@[simp] theorem deregisterThread_locks : (d.deregisterThread i).locks = d.locks := by
  unfold deregisterThread
  dsimp only
  split <;> split <;> simp

@[simp] theorem cancel_locks : (d.cancel i).locks = d.locks := by
  unfold cancel
  dsimp only
  split
  · split <;> split <;> rfl
  · rfl

@[simp] theorem condSignal_locks : (d.condSignal c).locks = d.locks := by
  unfold condSignal
  split
  · rfl
  · split <;> rfl

@[simp] theorem condBroadcast_locks : (d.condBroadcast c).locks = d.locks := by
  unfold condBroadcast
  split
  · rfl
  · split
    · split <;> rfl
    · rfl

@[simp] theorem barrierEnter_locks : (d.barrierEnter i b).1.locks = d.locks := by
  unfold barrierEnter
  split
  · rfl
  · dsimp only
    split <;> simp

/-! ## What touches the token -/

@[simp] theorem leaveFence_tokenpos : d.leaveFence.tokenpos = d.tokenpos := by
  unfold leaveFence
  dsimp only
  split <;> rfl

@[simp] theorem arriveFence_tokenpos : d.arriveFence.tokenpos = d.tokenpos := by
  unfold arriveFence
  dsimp only
  split <;> rfl

@[simp] theorem decrFence_tokenpos : d.decrFence.tokenpos = d.tokenpos := by
  unfold decrFence
  dsimp only
  split <;> rfl

@[simp] theorem startFence_tokenpos : (d.startFence n).tokenpos = d.tokenpos := rfl
@[simp] theorem setWait_tokenpos (x : Bool) : (d.setWait i x).tokenpos = d.tokenpos := rfl
@[simp] theorem lockInit_tokenpos : (d.lockInit m).tokenpos = d.tokenpos := rfl
@[simp] theorem condInit_tokenpos : (d.condInit c).tokenpos = d.tokenpos := rfl
@[simp] theorem barrierInit_tokenpos : (d.barrierInit b n).tokenpos = d.tokenpos := rfl

@[simp] theorem lockIsowner_tokenpos : (d.lockIsowner m pid).1.tokenpos = d.tokenpos := by
  unfold lockIsowner
  (repeat' split) <;> rfl

@[simp] theorem lockTest_tokenpos : (d.lockTest m).1.tokenpos = d.tokenpos := by
  unfold lockTest
  dsimp only
  split <;> rfl

@[simp] theorem lockSet_tokenpos : (d.lockSet m pid).1.tokenpos = d.tokenpos := by
  unfold lockSet
  split <;> rfl

@[simp] theorem lockRelease_tokenpos : (d.lockRelease m).tokenpos = d.tokenpos := by
  unfold lockRelease
  split <;> rfl

@[simp] theorem condSignal_tokenpos : (d.condSignal c).tokenpos = d.tokenpos := by
  unfold condSignal
  (repeat' split) <;> rfl

@[simp] theorem condBroadcast_tokenpos : (d.condBroadcast c).tokenpos = d.tokenpos := by
  unfold condBroadcast
  (repeat' split) <;> rfl

@[simp] theorem cancel_tokenpos : (d.cancel i).tokenpos = d.tokenpos := by
  unfold cancel
  dsimp only
  split
  · split <;> split <;> rfl
  · rfl

/-! ## What touches the registration of children -/

/-- What only the registration of children and the closing of the fence change. -/
def fixed (d : Determ) : Bool × ℕ × ℕ := (d.childregistered, d.coresNumb, d.threadIndex)

@[simp] theorem startFence_fixed : (d.startFence n).fixed = d.fixed := rfl
@[simp] theorem incrFence_fixed : (d.incrFence n).fixed = d.fixed := rfl
@[simp] theorem setWait_fixed (x : Bool) : (d.setWait i x).fixed = d.fixed := rfl
@[simp] theorem putToken_fixed : d.putToken.fixed = d.fixed := rfl
@[simp] theorem setReady_fixed : (d.setReady i).fixed = d.fixed := rfl
@[simp] theorem joinLeave_fixed : (d.joinLeave i j).fixed = d.fixed := rfl
@[simp] theorem condInit_fixed : (d.condInit c).fixed = d.fixed := rfl
@[simp] theorem barrierInit_fixed : (d.barrierInit b n).fixed = d.fixed := rfl
@[simp] theorem registerThread_fixed : (d.registerThread i pid j).fixed = d.fixed := rfl
@[simp] theorem lockInit_fixed : (d.lockInit m).fixed = d.fixed := rfl

@[simp] theorem decrFence_fixed : d.decrFence.fixed = d.fixed := by
  unfold decrFence
  dsimp only
  split <;> rfl

@[simp] theorem leaveFence_fixed : d.leaveFence.fixed = d.fixed := by
  unfold leaveFence
  dsimp only
  split <;> rfl

@[simp] theorem arriveFence_fixed : d.arriveFence.fixed = d.fixed := by
  unfold arriveFence
  dsimp only
  split <;> rfl

@[simp] theorem joinPass_fixed : (d.joinPass i).fixed = d.fixed := by
  unfold joinPass
  dsimp only
  split <;> exact decrFence_fixed d

@[simp] theorem deregisterThread_fixed : (d.deregisterThread i).fixed = d.fixed := by
  unfold deregisterThread
  dsimp only
  split <;> split
  · exact decrFence_fixed _
  · rfl
  · exact decrFence_fixed _
  · rfl

@[simp] theorem cancel_fixed : (d.cancel i).fixed = d.fixed := by
  unfold cancel
  dsimp only
  split
  · split <;> split <;> rfl
  · rfl

@[simp] theorem lockIsowner_fixed : (d.lockIsowner m pid).1.fixed = d.fixed := by
  unfold lockIsowner
  (repeat' split) <;> rfl

@[simp] theorem lockTest_fixed : (d.lockTest m).1.fixed = d.fixed := by
  unfold lockTest
  dsimp only
  split <;> rfl

@[simp] theorem lockSet_fixed : (d.lockSet m pid).1.fixed = d.fixed := by
  unfold lockSet
  split <;> rfl

@[simp] theorem lockRelease_fixed : (d.lockRelease m).fixed = d.fixed := by
  unfold lockRelease
  split <;> rfl

@[simp] theorem condSignal_fixed : (d.condSignal c).fixed = d.fixed := by
  unfold condSignal
  (repeat' split) <;> rfl

@[simp] theorem condBroadcast_fixed : (d.condBroadcast c).fixed = d.fixed := by
  unfold condBroadcast
  (repeat' split) <;> rfl

@[simp] theorem condEnter_fixed : (d.condEnter i c m).fixed = d.fixed := by
  unfold condEnter
  dsimp only
  rw [lockRelease_fixed]
  exact decrFence_fixed _

@[simp] theorem barrierEnter_fixed : (d.barrierEnter i b).1.fixed = d.fixed := by
  unfold barrierEnter
  split
  · rfl
  · dsimp only
    split
    · rfl
    · exact decrFence_fixed _

/-- `is_acquired` of the entry of `m`, if it has one. -/
def acquired (d : Determ) (m : Obj) : Bool := (d.locks m).any (·.isAcquired)

variable {d} {m}

theorem acquired_congr {d' : Determ} (h : d'.locks = d.locks) : d'.acquired m = d.acquired m := by
  rw [acquired, acquired, h]

theorem acquired_setLock (m' : Obj) (e : LockEntry) :
    (d.setLock m e).acquired m' = if m' = m then e.isAcquired else d.acquired m' := by
  unfold acquired setLock
  by_cases h : m' = m
  · subst h; simp
  · simp [h]

theorem lockIsowner_acquired (m' : Obj) : (d.lockIsowner m pid).1.acquired m' = d.acquired m' := by
  unfold lockIsowner
  split
  · rfl
  · rename_i e he
    split
    · split
      · rw [acquired_setLock]
        split
        · rename_i hm
          rw [hm, acquired, he]
          rfl
        · rfl
      · rfl
    · rfl

theorem lockTest_acquired (m' : Obj) : (d.lockTest m).1.acquired m' = d.acquired m' := by
  unfold lockTest
  dsimp only
  split
  · rename_i hn
    rw [lockInit, acquired_setLock]
    split
    · rename_i hm
      rw [hm, acquired, hn]
      rfl
    · rfl
  · rfl

theorem lockTest_snd : (d.lockTest m).2 = !d.acquired m := by
  unfold lockTest
  dsimp only
  split
  · rename_i hn
    simp [lockInit, setLock, acquired, hn]
  · unfold acquired
    cases d.locks m <;> simp

theorem lockSet_acquired_of_ne {m' : Obj} (h : m' ≠ m) :
    (d.lockSet m pid).1.acquired m' = d.acquired m' := by
  unfold lockSet
  split
  · rfl
  · rw [acquired_setLock, if_neg h]

/-- The mutex is acquired exactly when `lock_acquire` says so. -/
theorem lockSet_acquired : (d.lockSet m pid).1.acquired m = (d.lockSet m pid).2 := by
  unfold lockSet
  split
  · rename_i hn
    rw [acquired, hn]
    rfl
  · rw [acquired_setLock, if_pos rfl, LockEntry.acquire_isAcquired]

theorem lockRelease_acquired (m' : Obj) :
    (d.lockRelease m).acquired m' = if m' = m then false else d.acquired m' := by
  unfold lockRelease
  split
  · rename_i hn
    split
    · rename_i hm
      rw [hm, acquired, hn]
      rfl
    · rfl
  · rw [acquired_setLock]

theorem condEnter_acquired (m' : Obj) :
    (d.condEnter i c m).acquired m' = if m' = m then false else d.acquired m' := by
  unfold condEnter
  dsimp only
  rw [lockRelease_acquired]
  split
  · rfl
  · exact acquired_congr (by simp)

end Determ

end Dthreads.Scheduler
