import Dthreads.Scheduler.Program
import Dthreads.Transition.Run

/-! # The scheduler machine

The shared object and the processes. A label lets one process start an operation or run its next
instruction; loads and stores of the program are no steps here. A waiting instruction is enabled
when the wait is over. -/

namespace Dthreads.Scheduler

/-- The shared object and the processes; `procs` lists the processes created so far. -/
structure State where
  determ : Determ
  locals : Tid → Local
  procs : List Tid

namespace Local

def goto (l : Local) (is : List Instr) : Local := { l with pending := is }

@[simp] theorem goto_pending (l : Local) (is : List Instr) : (l.goto is).pending = is := rfl
@[simp] theorem goto_inside (l : Local) (is : List Instr) : (l.goto is).inside = l.inside := rfl
@[simp] theorem goto_hasToken (l : Local) (is : List Instr) : (l.goto is).hasToken = l.hasToken := rfl

/-- The variables of a new process, in which `childRegister` has yet to run. -/
def forked (l : Local) : Local :=
  { l with
    live := true
    notified := false
    hasToken := false
    inside := []
    pending := childStart l.threadIndex }

end Local

namespace Determ

/-- The arrival at the fence, with the leave of the last thread in the same critical section. -/
def arrive (d : Determ) (l : Local) (keepBitmap : Bool) (rest : List Instr) : Determ × Local :=
  if d.currthreads + 1 ≥ d.maxthreads then (d.arriveFence.leaveFence, l.goto rest)
  else
    (d.arriveFence.setWait l.threadIndex true,
      l.goto ((if d.maxthreads ≤ d.coresNumb then .spinRelease keepBitmap else .condRelease keepBitmap) ::
        rest))

/-- The rest of `childRegister`. -/
def childRegister (d : Determ) (l : Local) (t : Tid) (parentindex : ℕ) (rest : List Instr) :
    Determ × Local :=
  (({ d with threadIndex := d.threadIndex + 1 }).registerThread d.threadIndex t parentindex,
    { l with
      threadIndex := d.threadIndex
      lockCount := 0
      tokenHolding := false
      fenceEnabled := true
      pending := rest })

end Determ

namespace State

/-- What an instruction does to the shared object and to the variables of its process `t`, before
the instructions `rest`. -/
def own (s : State) (t : Tid) (rest : List Instr) : Instr → Option (Determ × Local) :=
  let d := s.determ
  let l := s.locals t
  let my := l.threadIndex
  fun
  | .fenceEnter keep =>
      if d.isArrivalPhase then some (d.arrive l keep rest)
      else if d.maxthreads ≤ d.coresNumb then some (d, l.goto (.spinArrival keep :: rest))
      else some (d, l.goto (.condArrival keep :: rest))
  | .spinArrival keep =>
      if d.isArrivalPhase then some (d, l.goto (.fenceArrive keep :: rest)) else none
  | .fenceArrive keep => some (d.arrive l keep rest)
  | .condArrival keep => if d.isArrivalPhase then some (d.arrive l keep rest) else none
  | .spinRelease keep =>
      if d.isArrivalPhase then none
      else some (d.setWait my false, l.goto (.fenceLeave keep :: rest))
  | .fenceLeave _ => some (d.leaveFence, l.goto rest)
  | .condRelease _ => if d.isArrivalPhase then none else some (d.leaveFence, l.goto rest)
  | .getToken => if d.holder = t then some (d, { l with hasToken := true, pending := rest }) else none
  | .putToken => some (d.putToken, { l with hasToken := false, pending := rest })
  | .openMemoryProtection => some (d, { l with protectionEnabled := true, pending := rest })
  | .atomicBegin | .atomicEnd | .finalcommit _ => some (d, l.goto rest)
  | .startFence =>
      some (d.startFence l.childrenThreadsCount,
        { l with childrenThreadsCount := 0, fenceEnabled := true, pending := rest })
  | .notifyWaitingChildren => some (d, l.goto rest)
  | .disableFence =>
      some (d, { l with fenceEnabled := false, childrenThreadsCount := 0, pending := rest })
  | .countChild =>
      some (d, { l with childrenThreadsCount := l.childrenThreadsCount + 1, pending := rest })
  | .forkSpawn child =>
      if child ≠ t ∧ (s.locals child).live = false then some (d, l.goto rest) else none
  | .childRegister parentindex => some (d.childRegister l t parentindex rest)
  | .waitParentNotify => some ({ d with childregistered := true }, l.goto rest)
  | .waitNotified => if l.notified then some (d, l.goto rest) else none
  | .waitChildRegistered =>
      if d.childregistered then some ({ d with childregistered := false }, l.goto rest) else none
  | .countLock => some (d, { l with lockCount := l.lockCount + 1, pending := rest })
  | .discountLock => some (d, { l with lockCount := dec l.lockCount, pending := rest })
  | .lockIsowner m =>
      some ((d.lockIsowner m t).1,
        l.goto ((if (d.lockIsowner m t).2 then .lockTest m .direct else .isSingleWorkingThread m) ::
          rest))
  | .isSingleWorkingThread m =>
      some (d, l.goto ((if d.isSingleWorkingThread then .lockTest m .direct else .getLockAgain m) ::
        rest))
  | .getLockAgain m => some (d, l.goto (l.getLockAgain m ++ rest))
  | .lockTest m k =>
      if (d.lockTest m).2 then some ((d.lockTest m).1, l.goto (.lockSet m k :: rest))
      else
        some ((d.lockTest m).1,
          { l with
            pending := Local.lockFailed m k ++ rest
            inside := if k = .condWait then m :: l.inside else l.inside })
  | .lockSet m k =>
      if (d.lockSet m t).2 then
        some ((d.lockSet m t).1, { l with pending := rest, inside := m :: l.inside })
      else
        some ((d.lockSet m t).1,
          { l with
            pending := Local.lockFailed m k ++ rest
            inside := if k = .condWait then m :: l.inside else l.inside })
  | .setTokenHolding b => some (d, { l with tokenHolding := b, pending := rest })
  | .lockRelease m =>
      some (d.lockRelease m, { l with inside := l.inside.erase m, pending := rest })
  | .endCriticalSection => some (d, l.goto (l.endCriticalSection ++ rest))
  | .condLookup c => some (if d.conds c = none then d.condInit c else d, l.goto rest)
  | .condEnter c m =>
      some (d.condEnter my c m,
        { l with hasToken := false, inside := l.inside.erase m, pending := rest })
  | .condBlock m =>
      if (d.entries my).status = .ready then some (d, l.goto rest)
      else some (d.lockRelease m, l.goto (.condBlock m :: rest))
  | .condToken =>
      if (d.entries d.tokenpos).threadindex = my then
        some (d, { l with hasToken := true, pending := rest })
      else none
  | .condSignal c => some (d.condSignal c, l.goto rest)
  | .condBroadcast c => some (d.condBroadcast c, l.goto rest)
  | .barrierEnter b =>
      some ((d.barrierEnter my b).1,
        { l with
          hasToken := false
          pending := (if (d.barrierEnter my b).2 then [.barrierArrive b, .atomicBegin]
            else [.atomicBegin, .barrierArrive b]) ++ rest })
  | .barrierArrive b =>
      (d.barriers b).map fun be =>
        if be.arrived + 1 = be.maxthreads then
          (d.setBarrier b { be with arrived := 0, generation := be.generation + 1 }, l.goto rest)
        else
          (d.setBarrier b { be with arrived := be.arrived + 1 },
            l.goto (.barrierBlock b be.generation :: rest))
  | .barrierBlock b generation =>
      if (d.barriers b).any (fun be => be.generation ≠ generation) then some (d, l.goto rest) else none
  | .detJoin v _ =>
      let guest := (s.locals v).threadIndex
      if (d.entries guest).status = .exit then some (d.setReady my, l.goto rest)
      else
        some ((d.joinLeave guest my).joinPass my,
          { l with hasToken := false, pending := .joinBlock guest :: rest })
  | .joinBlock guest =>
      if (d.entries guest).status = .exit then
        some ((d.incrFence 1).setReady my, l.goto (.joinToken :: rest))
      else some ((d.incrFence 1).joinPass my, l.goto (.joinBlock guest :: rest))
  | .joinToken =>
      if (d.entries d.tokenpos).threadindex = my then
        some (d, { l with hasToken := true, pending := rest })
      else none
  | .storeResult _ => some (d, l.goto rest)
  | .closeIfSingle =>
      if d.isSingleAliveThread then
        some ({ d with threadIndex := 1 },
          { l with
            protectionEnabled := false
            fenceEnabled := false
            childrenThreadsCount := 0
            pending := rest })
      else some (d, l.goto rest)
  | .kill v => some (d, { l with live := v ≠ t, pending := rest })
  | .detCancel v => some (d.cancel (s.locals v).threadIndex, l.goto rest)
  | .deregister => some (d.deregisterThread my, { l with hasToken := false, pending := rest })
  | .procExit => some (d, { l with live := false, pending := [] })
  | .mutexInit m => some (d.lockInit m, l.goto rest)
  | .condInit c => some (d.condInit c, l.goto rest)
  | .barrierInit b count => some (d.barrierInit b count, l.goto rest)

/-- A broadcast on `_cond_children`. -/
def notifyChildren (s : State) : Tid → Local := fun u =>
  match (s.locals u).pending with
  | .waitNotified :: _ => { s.locals u with notified := true }
  | _ => s.locals u

/-- What an instruction of `t` does to the other processes. -/
def others (s : State) (t : Tid) : Instr → Tid → Local
  | .notifyWaitingChildren => s.notifyChildren
  | .detJoin _ true => s.notifyChildren
  | .forkSpawn child => Function.update s.locals child (s.locals t).forked
  | .kill v => Function.update s.locals v { s.locals v with live := false }
  | _ => s.locals

/-- The processes after an instruction. -/
def created (s : State) : Instr → List Tid
  | .forkSpawn child => if child ∈ s.procs then s.procs else s.procs ++ [child]
  | _ => s.procs

/-- One instruction of process `t`, before the instructions `rest`. -/
def exec (s : State) (t : Tid) (i : Instr) (rest : List Instr) : Option State :=
  (s.own t rest i).map fun (d, l) => ⟨d, Function.update (s.others t i) t l, s.created i⟩

end State

/-- Process `t` calls an operation, or runs its next instruction. -/
inductive Label where
  | call (t : Tid) (op : Op)
  | run (t : Tid)
  deriving DecidableEq, Repr

/-- Process `t` runs its next `n` instructions. -/
def Label.runs (t : Tid) (n : ℕ) : List Label := List.replicate n (.run t)

namespace State

/-- Process `t` is about to run operation `op`. -/
def called (s : State) (t : Tid) (op : Op) : State :=
  { s with locals := Function.update s.locals t ((s.locals t).goto ((s.locals t).program op)) }

def step (s : State) : Label → Option State
  | .call t op =>
      if (s.locals t).live ∧ (s.locals t).pending = [] then some (s.called t op) else none
  | .run t =>
      match (s.locals t).live, (s.locals t).pending with
      | true, i :: rest => s.exec t i rest
      | _, _ => none

@[simp] theorem called_determ (s : State) (t : Tid) (op : Op) : (s.called t op).determ = s.determ := rfl

@[simp] theorem called_procs (s : State) (t : Tid) (op : Op) : (s.called t op).procs = s.procs := rfl

theorem called_locals (s : State) (t : Tid) (op : Op) (u : Tid) :
    (s.called t op).locals u =
      if u = t then (s.locals t).goto ((s.locals t).program op) else s.locals u := by
  unfold called
  by_cases h : u = t
  · subst h; simp
  · simp [h]

theorem step_call {s s' : State} {t : Tid} {op : Op} (h : s.step (.call t op) = some s') :
    (s.locals t).live = true ∧ (s.locals t).pending = [] ∧ s' = s.called t op := by
  simp only [step, Option.ite_none_right_eq_some, Option.some.injEq] at h
  exact ⟨h.1.1, h.1.2, h.2.symm⟩

/-- A step runs the first pending instruction of a live process. -/
theorem step_run {s s' : State} {t : Tid} (h : s.step (.run t) = some s') :
    ∃ i rest d l, (s.locals t).live = true ∧ (s.locals t).pending = i :: rest ∧
      s.own t rest i = some (d, l) ∧ s' = ⟨d, Function.update (s.others t i) t l, s.created i⟩ := by
  simp only [step] at h
  split at h
  · rename_i i rest hl hp
    rw [exec, Option.map_eq_some_iff] at h
    obtain ⟨⟨d, l⟩, ho, rfl⟩ := h
    exact ⟨i, rest, d, l, hl, hp, ho, rfl⟩
  · cases h

/-- The other processes go on as they are, but for those that are notified, forked or killed. -/
theorem others_cases (s : State) (t : Tid) (i : Instr) (u : Tid) :
    s.others t i u = s.locals u ∨
    (s.others t i u = { s.locals u with notified := true } ∧
      ∃ rest, (s.locals u).pending = .waitNotified :: rest) ∨
    (i = .forkSpawn u ∧ s.others t i u = (s.locals t).forked) ∨
    (i = .kill u ∧ s.others t i u = { s.locals u with live := false }) := by
  have hn : s.notifyChildren u = s.locals u ∨
      (s.notifyChildren u = { s.locals u with notified := true } ∧
        ∃ rest, (s.locals u).pending = .waitNotified :: rest) := by
    unfold notifyChildren
    split
    · rename_i rest hp
      exact .inr ⟨rfl, rest, hp⟩
    · exact .inl rfl
  cases i with
  | notifyWaitingChildren => exact hn.imp_right .inl
  | detJoin v w =>
      cases w with
      | false => exact .inl rfl
      | true => exact hn.imp_right .inl
  | forkSpawn child =>
      by_cases hu : u = child
      · subst hu
        exact .inr (.inr (.inl ⟨rfl, Function.update_self ..⟩))
      · exact .inl (Function.update_of_ne hu ..)
  | kill v =>
      by_cases hu : u = v
      · subst hu
        exact .inr (.inr (.inr ⟨rfl, Function.update_self ..⟩))
      · exact .inl (Function.update_of_ne hu ..)
  | _ => exact .inl rfl

theorem mem_created {s : State} {i : Instr} {u : Tid} (h : u ∈ s.procs) : u ∈ s.created i := by
  cases i with
  | forkSpawn child =>
      simp only [created]
      split
      · exact h
      · exact List.mem_append_left _ h
  | _ => exact h

/-- Only main is registered. -/
def boot (coresNumb : ℕ) : State where
  determ :=
    { entries := fun i =>
        { prev := 0, next := 0, tid := if i = 0 then 1 else 0, threadindex := 0
          status := if i = 0 then .ready else .condWaiting, tidParent := 0, cond := none
          wait := false, joineeThreadIndex := 0 }
      activelist := some 0
      tokenpos := 0
      maxthreads := 1
      currthreads := 0
      alivethreads := 1
      isArrivalPhase := true
      childregistered := false
      coresNumb := coresNumb
      threadIndex := 1
      locks := fun _ => none
      conds := fun _ => none
      barriers := fun _ => none }
  locals t :=
    { fenceEnabled := false, tokenHolding := false, protectionEnabled := false, lockCount := 0
      childrenThreadsCount := 0, threadIndex := 0, live := t = 1, notified := false, pending := []
      hasToken := false, inside := [] }
  procs := [1]

/-- The processes `1, …, n` in the token queue in this order, all of them started. -/
def ring (n coresNumb : ℕ) : State where
  determ :=
    { (boot coresNumb).determ with
      entries := fun i =>
        { prev := (i + n - 1) % n, next := (i + 1) % n, tid := if i < n then i + 1 else 0
          threadindex := i, status := if i < n then .ready else .condWaiting, tidParent := 0
          cond := none, wait := false, joineeThreadIndex := 0 }
      maxthreads := n
      alivethreads := n
      threadIndex := n }
  locals t :=
    { (boot coresNumb).locals t with
      fenceEnabled := true, protectionEnabled := true, threadIndex := t - 1
      live := 1 ≤ t ∧ t ≤ n }
  procs := List.range' 1 n

end State

end Dthreads.Scheduler
