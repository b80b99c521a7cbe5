import Dthreads.Scheduler.Places

/-! # The budget of an owner

The only user of a mutex owns it and takes it without the token, `LOCK_OWNER_BUDGET - 1` times; then
`lock_acquire` refuses once and sends the owner to the token. -/

namespace Dthreads.Scheduler

open Transition

namespace LockEntry

/-- The entry `lock_init` makes. -/
def fresh : LockEntry := { totalUsers := 0, lastThread := 0, isAcquired := false, lockBudget := 0 }

/-- A single user has something left to spend, and not more than the whole budget. -/
def Funded (e : LockEntry) : Prop :=
  e.totalUsers = 1 → 1 ≤ e.lockBudget ∧ e.lockBudget ≤ lockOwnerBudget

variable {e : LockEntry} {t : Tid} {single : Bool}

/-- The outcomes of `lock_acquire`: a first user, a second user, the owner within its budget or
alone, the owner refused, one more of several users. -/
theorem acquire_cases (e : LockEntry) (t : Tid) (single : Bool) :
    (e.totalUsers = 0 ∧ e.acquire t single =
      ({ e with isAcquired := true, totalUsers := 1, lastThread := t, lockBudget := lockOwnerBudget },
        true)) ∨
    (e.totalUsers = 1 ∧ e.lastThread ≠ t ∧ e.acquire t single =
      ({ e with isAcquired := true, totalUsers := 2 }, true)) ∨
    (e.totalUsers = 1 ∧ e.lastThread = t ∧ e.lockBudget ≠ 1 ∧ e.acquire t single =
      ({ e with isAcquired := true, lockBudget := e.lockBudget - 1 }, true)) ∨
    (e.totalUsers = 1 ∧ e.lastThread = t ∧ e.lockBudget = 1 ∧ e.acquire t single =
      ({ e with isAcquired := single, lockBudget := lockOwnerBudget }, single)) ∨
    (2 ≤ e.totalUsers ∧ e.acquire t single = ({ e with isAcquired := true }, true)) := by
  unfold acquire
  dsimp only
  by_cases h0 : e.totalUsers = 0
  · exact .inl ⟨h0, if_pos h0⟩
  by_cases h1 : e.totalUsers = 1
  · by_cases hl : e.lastThread = t
    · by_cases hb : e.lockBudget = 1
      · refine .inr (.inr (.inr (.inl ⟨h1, hl, hb, ?_⟩)))
        cases single <;> simp [h1, hl, hb]
      · refine .inr (.inr (.inl ⟨h1, hl, hb, ?_⟩))
        have hb' : e.lockBudget - 1 ≠ 0 := by omega
        simp [h1, hl, hb']
    · exact .inr (.inl ⟨h1, hl, by simp [h1, hl]⟩)
  · exact .inr (.inr (.inr (.inr ⟨by omega, by simp [h0, h1]⟩)))

theorem Funded.acquire (h : e.Funded) : (e.acquire t single).1.Funded := by
  rcases acquire_cases e t single with ⟨-, he⟩ | ⟨-, -, he⟩ | ⟨h1, -, hb, he⟩ | ⟨-, -, -, he⟩ |
    ⟨h2, he⟩ <;> rw [he]
  · exact fun _ => ⟨show 1 ≤ lockOwnerBudget by decide, le_refl _⟩
  · exact nofun
  · have hf := h h1
    exact fun _ => ⟨by dsimp only; omega, by dsimp only; omega⟩
  · exact fun _ => ⟨show 1 ≤ lockOwnerBudget by decide, le_refl _⟩
  · exact fun h1 => absurd h1 (by dsimp only; omega)

end LockEntry

/-! ## What an instruction does to a lock entry -/

namespace State

variable {s : State} {t : Tid} {m : Obj} {rest : List Instr} {i : Instr} {d : Determ} {l : Local}

/-- The entry of `m` after an instruction. -/
def lockAfter (s : State) (t : Tid) (m : Obj) : Instr → Option LockEntry
  | .lockIsowner m' =>
      (s.determ.locks m).map fun e =>
        if m = m' ∧ e.totalUsers = 1 ∧ e.lastThread ≠ t then { e with totalUsers := 2 } else e
  | .lockTest m' _ => if m = m' then some ((s.determ.locks m).getD .fresh) else s.determ.locks m
  | .lockSet m' _ =>
      (s.determ.locks m).map fun e =>
        if m = m' then (e.acquire t s.determ.isSingleWorkingThread).1 else e
  | .lockRelease m' | .condEnter _ m' =>
      (s.determ.locks m).map fun e => if m = m' then { e with isAcquired := false } else e
  | .condBlock m' =>
      (s.determ.locks m).map fun e =>
        if m = m' ∧ (s.determ.entries (s.locals t).threadIndex).status ≠ .ready then
          { e with isAcquired := false }
        else e
  | .mutexInit m' => if m = m' then some .fresh else s.determ.locks m
  | _ => s.determ.locks m

theorem setLock_locks (d : Determ) (m m' : Obj) (e : LockEntry) :
    (d.setLock m' e).locks m = if m = m' then some e else d.locks m := by
  unfold Determ.setLock
  by_cases h : m = m'
  · subst h; simp
  · simp [h]

theorem lockRelease_locks (d : Determ) (m m' : Obj) : (d.lockRelease m').locks m =
    (d.locks m).map fun e => if m = m' then { e with isAcquired := false } else e := by
  unfold Determ.lockRelease
  by_cases h : m = m'
  · subst h
    cases he : d.locks m <;> simp [he, setLock_locks]
  · cases he : d.locks m' <;> simp [h, setLock_locks]

theorem own_locks (h : s.own t rest i = some (d, l)) (m : Obj) :
    d.locks m = s.lockAfter t m i := by
  cases i with
  | fenceEnter k =>
      simp only [own] at h
      split at h
      · exact congrFun (arrive_locks h).1 m
      · split at h <;> cases h <;> rfl
  | fenceArrive k => exact congrFun (arrive_locks h).1 m
  | condArrival k =>
      simp only [own] at h
      split at h
      · exact congrFun (arrive_locks h).1 m
      · cases h
  | lockIsowner m' =>
      cases h
      simp only [lockAfter, Determ.lockIsowner]
      by_cases hm : m = m'
      · subst hm
        cases he : s.determ.locks m with
        | none => simp [he]
        | some e =>
            by_cases h1 : e.totalUsers = 1 <;> by_cases hl : e.lastThread = t <;>
              simp [he, h1, hl, setLock_locks]
      · cases he : s.determ.locks m' with
        | none => simp [hm]
        | some e => (repeat' split) <;> simp [hm, setLock_locks]
  | lockTest m' k =>
      have hd : d = (s.determ.lockTest m').1 := by
        simp only [own] at h
        split at h <;> cases h <;> rfl
      rw [hd, lockAfter]
      unfold Determ.lockTest
      by_cases hm : m = m'
      · subst hm
        cases he : s.determ.locks m with
        | none => simp [Determ.lockInit, setLock_locks, he, LockEntry.fresh]
        | some e => simp [he]
      · dsimp only
        split <;> simp [hm, Determ.lockInit, setLock_locks]
  | lockSet m' k =>
      have hd : d = (s.determ.lockSet m' t).1 := by
        simp only [own] at h
        split at h <;> cases h <;> rfl
      rw [hd, lockAfter]
      unfold Determ.lockSet
      by_cases hm : m = m'
      · subst hm
        cases he : s.determ.locks m <;> simp [he, setLock_locks]
      · cases he : s.determ.locks m' <;> simp [hm, setLock_locks]
  | lockRelease m' =>
      cases h
      exact lockRelease_locks ..
  | condEnter c m' =>
      cases h
      simp only [Determ.condEnter, lockAfter, lockRelease_locks]
      simp
  | condBlock m' =>
      simp only [own] at h
      split at h
      · rename_i hr
        cases h
        simp [lockAfter, hr]
      · rename_i hr
        cases h
        simp [lockAfter, hr, lockRelease_locks]
  | mutexInit m' =>
      cases h
      exact setLock_locks ..
  | barrierArrive b =>
      simp only [own, Option.map_eq_some_iff] at h
      obtain ⟨be, -, h⟩ := h
      split at h <;> cases h <;> rfl
  | _ =>
      simp only [own] at h
      (repeat' split at h) <;> cases h <;> simp [lockAfter]

/-- Every lock entry is funded. -/
def Funded (s : State) : Prop := ∀ m e, s.determ.locks m = some e → e.Funded

/-- No instruction leaves a single user without a budget. -/
theorem Funded.own (hf : s.Funded) (h : s.own t rest i = some (d, l)) {e' : LockEntry}
    (he' : d.locks m = some e') : e'.Funded := by
  rw [own_locks h] at he'
  have hmap : ∀ f : LockEntry → LockEntry, (∀ e : LockEntry, e.Funded → (f e).Funded) →
      (s.determ.locks m).map f = some e' → e'.Funded := by
    intro f hkeep hm
    obtain ⟨e, he, rfl⟩ := Option.map_eq_some_iff.mp hm
    exact hkeep e (hf m e he)
  cases i with
  | lockIsowner m' =>
      refine hmap _ (fun e he => ?_) he'
      split
      · exact nofun
      · exact he
  | lockTest m' k =>
      simp only [lockAfter] at he'
      split at he'
      · cases hm : s.determ.locks m with
        | none =>
            rw [hm] at he'
            cases he'
            exact nofun
        | some e =>
            rw [hm] at he'
            cases he'
            exact hf m e hm
      · exact hf m e' he'
  | lockSet m' k =>
      refine hmap _ (fun e he => ?_) he'
      split
      · exact he.acquire
      · exact he
  | lockRelease m' | condEnter c m' | condBlock m' =>
      refine hmap _ (fun e he => ?_) he'
      split <;> exact he
  | mutexInit m' =>
      simp only [lockAfter] at he'
      split at he'
      · cases he'
        exact nofun
      · exact hf m e' he'
  | _ => exact hf m e' he'

theorem Funded.step {w : State} {a : Label} (hf : s.Funded) (hs : s.step a = some w) : w.Funded := by
  cases a with
  | call t op =>
      obtain ⟨-, -, rfl⟩ := step_call hs
      exact hf
  | run t =>
      obtain ⟨i, rest, d, l, -, -, ho, rfl⟩ := step_run hs
      exact fun m e he => hf.own ho he

theorem Opening.funded (h : s.Opening) : s.Funded := by
  obtain ⟨c, rfl⟩ | ⟨n, c, -, rfl⟩ := h <;> exact nofun

/-! ## The operations -/

/-- Process `t` calls `mutex_lock`, or `mutex_unlock` for a mutex it holds. -/
def mutexCalls (s : State) : Label → Bool
  | .call _ (.mutexLock _) | .run _ => true
  | .call t (.mutexUnlock m) => m ∈ (s.locals t).inside
  | _ => false

end State

/-- The instructions `mutex_lock` and `mutex_unlock` consist of. -/
def Instr.ofMutex : Instr → Bool
  | .fenceEnter _ | .spinArrival _ | .fenceArrive _ | .condArrival _ | .spinRelease _
  | .fenceLeave _ | .condRelease _ | .getToken | .putToken | .atomicBegin | .atomicEnd | .startFence
  | .notifyWaitingChildren | .countLock | .discountLock | .lockIsowner _ | .isSingleWorkingThread _
  | .getLockAgain _ | .setTokenHolding _ | .lockRelease _ | .endCriticalSection => true
  | .lockTest _ k | .lockSet _ k => k ≠ .condWait
  | _ => false

theorem Pushes.ofMutex {l : Local} {i : Instr} {js : List Instr} (h : Pushes l i js)
    (hi : i.ofMutex = true) : ∀ j ∈ js, j.ofMutex = true := by
  cases h with
  | again m =>
      unfold Local.getLockAgain
      split <;> simp [Instr.ofMutex, Local.waitToken, Local.waitFence]
  | endCritical =>
      unfold Local.endCriticalSection
      split <;> simp [Instr.ofMutex, Local.waitFence]
  | free m k => simpa [Instr.ofMutex] using hi
  | taken m k => cases k <;> simp [Instr.ofMutex, Local.lockFailed, Local.waitFence]
  | exhausted m k => cases k <;> simp [Instr.ofMutex, Local.lockFailed, Local.waitFence]
  | condAgain | barrierLast | barrierWait | barrierBlock | joinBlock | joinAgain | joined => cases hi
  | _ => simp [Instr.ofMutex]

/-- Only `lock_acquire` itself goes from the test to the assignment. -/
theorem Pushes.lockSet {l : Local} {i : Instr} {js : List Instr} {m : Obj} {k : Caller}
    (h : Pushes l i js) (hj : Instr.lockSet m k ∈ js) : i = .lockTest m k := by
  cases h with
  | again m =>
      unfold Local.getLockAgain at hj
      split at hj <;> simp [Local.waitToken, Local.waitFence] at hj
  | endCritical =>
      unfold Local.endCriticalSection at hj
      split at hj <;> simp [Local.waitFence] at hj
  | free m' k' =>
      obtain ⟨rfl, rfl⟩ : m = m' ∧ k = k' := by simpa using hj
      rfl
  | taken m' k' => cases k' <;> simp [Local.lockFailed, Local.waitFence] at hj
  | exhausted m' k' => cases k' <;> simp [Local.lockFailed, Local.waitFence] at hj
  | _ => simp at hj

theorem program_ofMutex {s : State} {t : Tid} {op : Op} (h : s.mutexCalls (.call t op) = true)
    (l : Local) : ∀ j ∈ l.program op, j.ofMutex = true := by
  cases op with
  | mutexLock m =>
      simp only [Local.program, Local.mutexLock, Local.wakeChildren]
      (repeat' split) <;> simp [Instr.ofMutex]
  | mutexUnlock m =>
      simp only [Local.program, Local.mutexUnlock]
      split <;> simp [Instr.ofMutex]
  | _ => cases h

/-! ## How far a call of `mutex_lock` is -/

/-- Before `lock_isowner`; past it, not as the owner; on the path without the token; in the loop
under the token. -/
inductive LockStage where
  | start
  | single
  | direct
  | retry
  deriving DecidableEq

def Instr.lockStage : Instr → Option (Obj × LockStage)
  | .lockIsowner m => some (m, .start)
  | .isSingleWorkingThread m => some (m, .single)
  | .lockTest m .direct | .lockSet m .direct => some (m, .direct)
  | .getLockAgain m | .lockTest m .retry | .lockSet m .retry => some (m, .retry)
  | _ => none

def Local.lockStages (l : Local) : List (Obj × LockStage) := l.pending.filterMap Instr.lockStage

namespace State

variable {s w : State} {t u : Tid} {m : Obj} {rest : List Instr} {i : Instr} {d : Determ} {l : Local}
  {k : Caller} {a : Label}

/-- How far the call is after an instruction. -/
def lockStagesAfter (s : State) (t : Tid) : Instr → List (Obj × LockStage)
  | .lockIsowner m => [(m, if (s.determ.lockIsowner m t).2 then .direct else .single)]
  | .isSingleWorkingThread m => [(m, if s.determ.isSingleWorkingThread then .direct else .retry)]
  | .lockTest m .direct => [(m, if s.determ.acquired m then .retry else .direct)]
  | .getLockAgain m | .lockTest m .retry => [(m, .retry)]
  | .lockSet m .direct | .lockSet m .retry => if (s.determ.lockSet m t).2 then [] else [(m, .retry)]
  | _ => []

theorem lockFailed_stages (m : Obj) (hk : k ≠ .condWait) :
    (Local.lockFailed m k).filterMap Instr.lockStage = [(m, .retry)] := by
  cases k with
  | condWait => exact absurd rfl hk
  | _ => rfl

theorem own_stages (h : s.own t rest i = some (d, l)) (hi : i.ofMutex = true) :
    l.lockStages = s.lockStagesAfter t i ++ rest.filterMap Instr.lockStage := by
  have harrive : ∀ b, some (s.determ.arrive (s.locals t) b rest) = some (d, l) →
      l.lockStages = rest.filterMap Instr.lockStage := by
    intro b ha
    unfold Determ.arrive at ha
    split at ha <;> cases ha
    · rfl
    · simp only [Local.lockStages, Local.goto]
      split <;> rfl
  cases i with
  | fenceEnter b =>
      simp only [own] at h
      split at h
      · exact harrive b h
      · split at h <;> cases h <;> rfl
  | fenceArrive b => exact harrive b h
  | condArrival b =>
      simp only [own] at h
      split at h
      · exact harrive b h
      · cases h
  | lockIsowner m =>
      cases h
      simp only [Local.lockStages, Local.goto_pending, lockStagesAfter]
      split <;> rfl
  | isSingleWorkingThread m =>
      cases h
      simp only [Local.lockStages, Local.goto_pending, lockStagesAfter]
      split <;> rfl
  | getLockAgain m =>
      cases h
      simp only [Local.lockStages, Local.goto_pending, Local.getLockAgain, List.filterMap_append]
      split <;> rfl
  | lockTest m k =>
      have hk : k ≠ .condWait := by simpa [Instr.ofMutex] using hi
      simp only [own, Determ.lockTest_snd] at h
      cases ha : s.determ.acquired m <;> rw [ha] at h <;> cases h
      · cases k <;> simp [Local.lockStages, Instr.lockStage, lockStagesAfter, ha] at hk ⊢
      · simp only [Local.lockStages, List.filterMap_append, lockFailed_stages m hk]
        cases k <;> simp [lockStagesAfter, ha] at hk ⊢
  | lockSet m k =>
      have hk : k ≠ .condWait := by simpa [Instr.ofMutex] using hi
      simp only [own] at h
      split at h <;> rename_i hr <;> cases h
      · cases k <;> simp [Local.lockStages, lockStagesAfter, hr] at hk ⊢
      · simp only [Local.lockStages, List.filterMap_append, lockFailed_stages m hk]
        cases k <;> simp [lockStagesAfter, hr] at hk ⊢
  | endCriticalSection =>
      cases h
      simp only [Local.lockStages, Local.goto_pending, Local.endCriticalSection, List.filterMap_append]
      split <;> rfl
  | _ =>
      first
      | exact absurd hi Bool.false_ne_true
      | simp only [own] at h
        (repeat' split at h) <;> cases h <;> rfl

/-- What holds between the instructions of a program that only locks and unlocks mutexes. -/
structure Locking (s : State) : Prop where
  funded : s.Funded
  ofMutex : ∀ t, (s.locals t).live = true → ∀ i ∈ (s.locals t).pending, i.ofMutex = true
  one : ∀ t, (s.locals t).live = true → (s.locals t).lockStages.length ≤ 1
  entry : ∀ t, (s.locals t).live = true → ∀ m k, .lockSet m k ∈ (s.locals t).pending →
    ∃ e, s.determ.locks m = some e

/-- The other processes keep their instructions. -/
theorem others_ofMutex (hi : i.ofMutex = true) (u : Tid) :
    (s.others t i u).pending = (s.locals u).pending ∧ (s.others t i u).live = (s.locals u).live := by
  rcases s.others_cases t i u with h | ⟨h, -⟩ | ⟨rfl, -⟩ | ⟨rfl, -⟩
  · rw [h]; exact ⟨rfl, rfl⟩
  · rw [h]; exact ⟨rfl, rfl⟩
  · cases hi
  · cases hi

/-- An entry stays, for good. -/
theorem lockAfter_of_some {e : LockEntry} (he : s.determ.locks m = some e) :
    ∃ e', s.lockAfter t m i = some e' := by
  cases i <;> simp only [lockAfter, he, Option.map_some, Option.getD_some] <;>
    first | exact ⟨_, rfl⟩ | (split <;> exact ⟨_, rfl⟩)

theorem program_stages {op : Op} (h : s.mutexCalls (.call t op) = true) (l : Local) :
    ((l.program op).filterMap Instr.lockStage).length ≤ 1 ∧
      (∀ x, (m, x) ∈ (l.program op).filterMap Instr.lockStage → x = .start) ∧
      ∀ k, .lockSet m k ∉ l.program op := by
  cases op with
  | mutexLock m' =>
      simp only [Local.program, Local.mutexLock, Local.wakeChildren]
      (repeat' split) <;> simp [List.filterMap_cons, Instr.lockStage]
  | mutexUnlock m' =>
      simp only [Local.program, Local.mutexUnlock]
      split <;> simp [List.filterMap_cons, Instr.lockStage]
  | _ => cases h

theorem stagesAfter_length : (s.lockStagesAfter t i).length ≤ i.lockStage.toList.length := by
  unfold lockStagesAfter
  split <;> first | exact Nat.zero_le _ | (split <;> simp [Instr.lockStage]) | simp [Instr.lockStage]

theorem stages_cons (hp : (s.locals t).pending = i :: rest) :
    (s.locals t).lockStages = i.lockStage.toList ++ rest.filterMap Instr.lockStage := by
  rw [Local.lockStages, hp]
  cases hi : i.lockStage <;> simp [hi]

/-- What a step of a program that only locks and unlocks mutexes can be. -/
theorem Locking.step_run (h : Locking s) (hs : s.step (.run u) = some w) :
    ∃ i rest, (s.locals u).live = true ∧ (s.locals u).pending = i :: rest ∧ i.ofMutex = true ∧
      (∀ m, w.determ.locks m = s.lockAfter u m i) ∧
      (w.locals u).lockStages = s.lockStagesAfter u i ++ rest.filterMap Instr.lockStage ∧
      (∃ js, Pushes (s.locals u) i js ∧ (w.locals u).pending = js ++ rest) ∧
      ∀ v, v ≠ u → (w.locals v).pending = (s.locals v).pending ∧
        (w.locals v).live = (s.locals v).live := by
  obtain ⟨i, rest, d, l, hl, hp, ho, rfl⟩ := State.step_run hs
  have hi : i.ofMutex = true := h.ofMutex u hl i (by simp [hp])
  refine ⟨i, rest, hl, hp, hi, fun m => own_locks ho m, ?_, ?_, fun v hv => ?_⟩
  · simpa using own_stages ho hi
  · simpa using own_pending ho (by rintro rfl; cases hi)
  · simpa [hv] using others_ofMutex hi v

theorem Locking.step (h : Locking s) (hg : s.mutexCalls a = true) (hs : s.step a = some w) :
    Locking w := by
  cases a with
  | call u op =>
      obtain ⟨-, hp, rfl⟩ := step_call hs
      have hloc : ∀ v, (s.called u op).locals v =
          if v = u then (s.locals u).goto ((s.locals u).program op) else s.locals v :=
        s.called_locals u op
      refine ⟨h.funded, fun v hl j hj => ?_, fun v hl => ?_, fun v hl m k hk => ?_⟩ <;>
        rw [hloc] at hl <;> by_cases hv : v = u
      · rw [hloc, if_pos hv] at hj
        exact program_ofMutex hg _ j hj
      · rw [if_neg hv] at hl
        rw [hloc, if_neg hv] at hj
        exact h.ofMutex v hl j hj
      · rw [hloc, if_pos hv]
        exact (program_stages (m := 0) hg _).1
      · rw [if_neg hv] at hl
        rw [hloc, if_neg hv]
        exact h.one v hl
      · rw [hloc, if_pos hv] at hk
        exact absurd hk ((program_stages hg _).2.2 k)
      · rw [if_neg hv] at hl
        rw [hloc, if_neg hv] at hk
        exact h.entry v hl m k hk
  | run u =>
      obtain ⟨i, rest, hl, hp, hi, hlocks, hst, ⟨js, hpush, hpend⟩, hoth⟩ := h.step_run hs
      have hkeep : ∀ m, (∃ e, s.determ.locks m = some e) → ∃ e, w.determ.locks m = some e := by
        rintro m ⟨e, he⟩
        rw [hlocks]
        exact lockAfter_of_some he
      refine ⟨h.funded.step hs, fun v hv j hj => ?_, fun v hv => ?_, fun v hv m k hk => ?_⟩ <;>
        by_cases hvu : v = u
      · subst hvu
        rw [hpend] at hj
        rcases List.mem_append.mp hj with hj | hj
        · exact hpush.ofMutex hi j hj
        · exact h.ofMutex v hl j (by simp [hp, hj])
      · rw [(hoth v hvu).2] at hv
        rw [(hoth v hvu).1] at hj
        exact h.ofMutex v hv j hj
      · subst hvu
        have hone := h.one v hl
        rw [stages_cons hp, List.length_append] at hone
        rw [hst, List.length_append]
        exact le_trans (Nat.add_le_add_right stagesAfter_length _) hone
      · rw [(hoth v hvu).2] at hv
        rw [Local.lockStages, (hoth v hvu).1]
        exact h.one v hv
      · subst hvu
        rw [hpend] at hk
        rcases List.mem_append.mp hk with hk | hk
        · obtain rfl := hpush.lockSet hk
          rw [hlocks]
          exact ⟨_, if_pos rfl⟩
        · exact hkeep m (h.entry v hl m k (by simp [hp, hk]))
      · rw [(hoth v hvu).2] at hv
        rw [(hoth v hvu).1] at hk
        exact hkeep m (h.entry v hv m k hk)

/-! ## Spending the budget -/

/-- An instruction of another process on the entry of `m`, whose single user is not that process:
the entry stays up to `is_acquired`, or there are several users now. -/
theorem lockAfter_other {e : LockEntry} (hi : i.ofMutex = true) (he : s.determ.locks m = some e)
    (h1 : 1 ≤ e.totalUsers) (hu : e.totalUsers = 1 → e.lastThread ≠ u) :
    ∃ e', s.lockAfter u m i = some e' ∧
      (e'.totalUsers = e.totalUsers ∧ e'.lastThread = e.lastThread ∧ e'.lockBudget = e.lockBudget ∨
        2 ≤ e'.totalUsers) := by
  cases i with
  | lockIsowner m' =>
      simp only [lockAfter, he, Option.map_some]
      split
      · exact ⟨_, rfl, .inr (le_refl 2)⟩
      · exact ⟨_, rfl, .inl ⟨rfl, rfl, rfl⟩⟩
  | lockTest m' k =>
      simp only [lockAfter, he, Option.getD_some, ite_self]
      exact ⟨_, rfl, .inl ⟨rfl, rfl, rfl⟩⟩
  | lockSet m' k =>
      simp only [lockAfter, he, Option.map_some]
      split
      · refine ⟨_, rfl, .inr ?_⟩
        rcases LockEntry.acquire_cases e u s.determ.isSingleWorkingThread with ⟨h0, -⟩ |
          ⟨-, -, ha⟩ | ⟨h1, hl, -⟩ | ⟨h1, hl, -⟩ | ⟨h2, ha⟩
        · omega
        · rw [ha]
        · exact absurd hl (hu h1)
        · exact absurd hl (hu h1)
        · rw [ha]
          exact h2
      · exact ⟨_, rfl, .inl ⟨rfl, rfl, rfl⟩⟩
  | lockRelease m' =>
      simp only [lockAfter, he, Option.map_some]
      split <;> exact ⟨_, rfl, .inl ⟨rfl, rfl, rfl⟩⟩
  | condEnter | condBlock | mutexInit => cases hi
  | _ => exact ⟨e, he, .inl ⟨rfl, rfl, rfl⟩⟩

/-- An instruction that is not about acquiring `m` leaves the entry as it is, up to
`is_acquired`. -/
theorem lockAfter_plain {e : LockEntry} (hi : i.ofMutex = true) (hm : ∀ x, i.lockStage ≠ some (m, x))
    (he : s.determ.locks m = some e) :
    ∃ e', s.lockAfter u m i = some e' ∧ e'.totalUsers = e.totalUsers ∧
      e'.lastThread = e.lastThread ∧ e'.lockBudget = e.lockBudget := by
  cases i with
  | lockIsowner m' =>
      have hne : m ≠ m' := fun h => hm .start (by rw [h]; rfl)
      simp only [lockAfter, he, Option.map_some, hne, false_and, if_false]
      exact ⟨e, rfl, rfl, rfl, rfl⟩
  | lockTest m' k =>
      simp only [lockAfter, he, Option.getD_some, ite_self]
      exact ⟨e, rfl, rfl, rfl, rfl⟩
  | lockSet m' k =>
      have hne : m ≠ m' := by
        rintro rfl
        cases k with
        | direct => exact hm .direct rfl
        | retry => exact hm .retry rfl
        | condWait => cases hi
      simp only [lockAfter, he, Option.map_some, hne, if_false]
      exact ⟨e, rfl, rfl, rfl, rfl⟩
  | lockRelease m' =>
      simp only [lockAfter, he, Option.map_some]
      split <;> exact ⟨_, rfl, rfl, rfl, rfl⟩
  | condEnter | condBlock | mutexInit => cases hi
  | _ => exact ⟨e, he, rfl, rfl, rfl⟩

/-- With the next step `lock_acquire`, called from `k`, gives `m` to process `t`. -/
def acquires (s : State) (t : Tid) (m : Obj) (k : Caller) : Label → Bool
  | .run u =>
      u = t ∧ (s.locals t).live = true ∧ (s.locals t).pending.head? = some (.lockSet m k) ∧
        (s.determ.lockSet m t).2 = true
  | .call _ _ => false

/-- A mutex call while several threads are working and `t` does not get `m` under the token. -/
def Untokened (t : Tid) (m : Obj) (s : State) (a : Label) : Prop :=
  s.mutexCalls a = true ∧ s.determ.isSingleWorkingThread = false ∧ s.acquires t m .retry a = false

/-- What is left of the budget after `n` acquisitions without the token: the owner, an owner that
was sent to the token, or a former owner. -/
inductive Spent (t : Tid) (m : Obj) (s : State) (n : ℕ) : Prop where
  | owner (e : LockEntry) (he : s.determ.locks m = some e) (h1 : e.totalUsers = 1)
      (hl : e.lastThread = t) (hb : n + e.lockBudget ≤ lockOwnerBudget)
      (hx : (m, .single) ∉ (s.locals t).lockStages)
  | refused (e : LockEntry) (he : s.determ.locks m = some e) (h1 : e.totalUsers = 1)
      (hl : e.lastThread = t) (hn : n + 1 ≤ lockOwnerBudget) (hx : (m, .retry) ∈ (s.locals t).lockStages)
  | shared (e : LockEntry) (he : s.determ.locks m = some e) (h2 : 2 ≤ e.totalUsers)
      (hn : n ≤ lockOwnerBudget)
      (hx : (m, .direct) ∈ (s.locals t).lockStages → n + 1 ≤ lockOwnerBudget)

variable {n : ℕ}

theorem mem_stagesAfter {x : LockStage} (h : (m, x) ∈ s.lockStagesAfter t i) : ∃ y, i.lockStage = some (m, y) := by
  unfold lockStagesAfter at h
  split at h
  · obtain ⟨rfl, -⟩ : m = _ ∧ _ := by simpa using h
    exact ⟨_, rfl⟩
  · obtain ⟨rfl, -⟩ : m = _ ∧ _ := by simpa using h
    exact ⟨_, rfl⟩
  · obtain ⟨rfl, -⟩ : m = _ ∧ _ := by simpa using h
    exact ⟨_, rfl⟩
  · obtain ⟨rfl, -⟩ : m = _ ∧ _ := by simpa using h
    exact ⟨_, rfl⟩
  · obtain ⟨rfl, -⟩ : m = _ ∧ _ := by simpa using h
    exact ⟨_, rfl⟩
  · split at h
    · cases h
    · obtain ⟨rfl, -⟩ : m = _ ∧ _ := by simpa using h
      exact ⟨_, rfl⟩
  · split at h
    · cases h
    · obtain ⟨rfl, -⟩ : m = _ ∧ _ := by simpa using h
      exact ⟨_, rfl⟩
  · cases h

theorem Spent.entry (h : Spent t m s n) :
    ∃ e, s.determ.locks m = some e ∧ 1 ≤ e.totalUsers ∧ (e.totalUsers = 1 → e.lastThread = t) := by
  cases h with
  | owner e he h1 hl | refused e he h1 hl => exact ⟨e, he, h1.ge, fun _ => hl⟩
  | shared e he h2 => exact ⟨e, he, by omega, fun h1 => by omega⟩

/-- The owner has something left. -/
theorem Spent.le_pred (h : Spent t m s n) (hf : s.Funded) {e : LockEntry}
    (he : s.determ.locks m = some e) (h1 : e.totalUsers = 1) : (n : ℤ) + 1 ≤ lockOwnerBudget := by
  cases h with
  | owner e' he' _ _ hb _ =>
      obtain rfl : e = e' := Option.some.inj (he.symm.trans he')
      have := hf m e he h1
      omega
  | refused _ _ _ _ hn _ => exact hn
  | shared e' he' h2 _ _ =>
      obtain rfl : e = e' := Option.some.inj (he.symm.trans he')
      omega

/-- A step after which the entry is the same up to `is_acquired`, or has several users, and `t` is
where it was. -/
theorem Spent.transfer (h : Spent t m s n) (hf : s.Funded)
    (hst : ∀ x, (m, x) ∈ (w.locals t).lockStages ↔ (m, x) ∈ (s.locals t).lockStages)
    (hlock : ∀ e, s.determ.locks m = some e → ∃ e', w.determ.locks m = some e' ∧
      (e'.totalUsers = e.totalUsers ∧ e'.lastThread = e.lastThread ∧ e'.lockBudget = e.lockBudget ∨
        2 ≤ e'.totalUsers)) : Spent t m w n := by
  have hmany : ∀ e e', s.determ.locks m = some e → e.totalUsers = 1 →
      w.determ.locks m = some e' → 2 ≤ e'.totalUsers → Spent t m w n := fun e e' he h1 he' h2 => by
    have hn := h.le_pred hf he h1
    exact .shared e' he' h2 (by omega) fun _ => hn
  cases h with
  | owner e he h1 hl hb hx =>
      obtain ⟨e', he', ⟨hu, hlast, hbud⟩ | h2⟩ := hlock e he
      · exact .owner e' he' (hu.trans h1) (hlast.trans hl) (hbud ▸ hb) (mt (hst _).mp hx)
      · exact hmany e e' he h1 he' h2
  | refused e he h1 hl hn hx =>
      obtain ⟨e', he', ⟨hu, hlast, -⟩ | h2⟩ := hlock e he
      · exact .refused e' he' (hu.trans h1) (hlast.trans hl) hn ((hst _).mpr hx)
      · exact hmany e e' he h1 he' h2
  | shared e he h2 hn hx =>
      obtain ⟨e', he', ⟨hu, -⟩ | h2'⟩ := hlock e he
      · exact .shared e' he' (hu ▸ h2) hn fun hd => hx ((hst _).mp hd)
      · exact .shared e' he' h2' hn fun hd => hx ((hst _).mp hd)

theorem lockIsowner_snd {e : LockEntry} (he : s.determ.locks m = some e) :
    (s.determ.lockIsowner m t).2 = decide (e.totalUsers = 1 ∧ e.lastThread = t) := by
  unfold Determ.lockIsowner
  by_cases h1 : e.totalUsers = 1 <;> by_cases hl : e.lastThread = t <;> simp [he, h1, hl]

theorem lockSet_snd {e : LockEntry} (he : s.determ.locks m = some e) :
    (s.determ.lockSet m t).2 = (e.acquire t s.determ.isSingleWorkingThread).2 := by
  unfold Determ.lockSet
  rw [he]

theorem acquires_of_head (hl : (s.locals t).live = true) (hp : (s.locals t).pending = i :: rest) :
    s.acquires t m k (.run t) = (decide (i = .lockSet m k) && (s.determ.lockSet m t).2) := by
  simp [acquires, hl, hp]

/-- Before the call reaches `lock_acquire` nothing is spent. -/
theorem Spent.approach {e : LockEntry} {x y : LockStage} (h : Spent t m s n)
    (he : s.determ.locks m = some e) (hold : (s.locals t).lockStages = [(m, x)])
    (he' : w.determ.locks m = some e) (hnew : (w.locals t).lockStages = [(m, y)])
    (hretry : x = .retry → y = .retry) (hsingle : y = .single → 2 ≤ e.totalUsers)
    (hdirect : y = .direct → x = .direct ∨ e.totalUsers = 1) : Spent t m w n := by
  cases h with
  | owner e₀ he₀ h1 hl hb hx =>
      obtain rfl : e = e₀ := Option.some.inj (he.symm.trans he₀)
      refine .owner e he' h1 hl hb ?_
      rw [hnew]
      intro hmem
      have hy : .single = y := by simpa using hmem
      have h2 := hsingle hy.symm
      omega
  | refused e₀ he₀ h1 hl hn hx =>
      obtain rfl : e = e₀ := Option.some.inj (he.symm.trans he₀)
      rw [hold] at hx
      have hxr : .retry = x := by simpa using hx
      exact .refused e he' h1 hl hn (by simp [hnew, hretry hxr.symm])
  | shared e₀ he₀ h2 hn hx =>
      obtain rfl : e = e₀ := Option.some.inj (he.symm.trans he₀)
      refine .shared e he' h2 hn fun hmem => hx ?_
      rw [hnew] at hmem
      have hy : .direct = y := by simpa using hmem
      rcases hdirect hy.symm with hxd | h1
      · simp [hold, hxd]
      · omega

/-- The owner path of `lock_acquire`. -/
theorem Spent.direct (h : Spent t m s n) (hs : s.determ.isSingleWorkingThread = false)
    (hold : (s.locals t).lockStages = [(m, .direct)])
    (hlock : w.determ.locks m = (s.determ.locks m).map fun e =>
      (e.acquire t s.determ.isSingleWorkingThread).1)
    (hnew : (w.locals t).lockStages = if (s.determ.lockSet m t).2 then [] else [(m, .retry)]) :
    Spent t m w (n + (s.determ.lockSet m t).2.toNat) := by
  rw [hs] at hlock
  cases h with
  | owner e he h1 hl hb hx =>
      rw [lockSet_snd he, hs] at hnew ⊢
      rw [he, Option.map_some] at hlock
      rcases LockEntry.acquire_cases e t false with ⟨h0, -⟩ | ⟨-, hne, -⟩ | ⟨-, -, hb1, ha⟩ |
        ⟨-, -, hb1, ha⟩ | ⟨h2, -⟩
      · omega
      · exact absurd hl hne
      · rw [ha] at hlock hnew ⊢
        refine .owner _ hlock h1 hl ?_ (by simp [hnew])
        change ((n + 1 : ℕ) : ℤ) + (e.lockBudget - 1) ≤ lockOwnerBudget
        omega
      · rw [ha] at hlock hnew ⊢
        refine .refused _ hlock h1 hl ?_ (by simp [hnew])
        simp only [Bool.toNat_false, Nat.add_zero]
        omega
      · omega
  | refused e he h1 hl hn hx => simp [hold] at hx
  | shared e he h2 hn hx =>
      rw [lockSet_snd he, hs] at hnew ⊢
      rw [he, Option.map_some] at hlock
      rcases LockEntry.acquire_cases e t false with ⟨h0, -⟩ | ⟨h1, -⟩ | ⟨h1, -⟩ | ⟨h1, -⟩ | ⟨-, ha⟩
      · omega
      · omega
      · omega
      · omega
      · rw [ha] at hlock hnew ⊢
        refine .shared _ hlock h2 ?_ (by simp [hnew])
        simpa using hx (by simp [hold])

/-- A refusal under the token. -/
theorem Spent.retry (h : Spent t m s n) (hf : s.Funded) (hs : s.determ.isSingleWorkingThread = false)
    (hno : (s.determ.lockSet m t).2 = false)
    (hlock : w.determ.locks m = (s.determ.locks m).map fun e =>
      (e.acquire t s.determ.isSingleWorkingThread).1)
    (hnew : (w.locals t).lockStages = [(m, .retry)]) : Spent t m w n := by
  have hrefused : ∀ e, s.determ.locks m = some e → e.lastThread = t ∧
      e.totalUsers = 1 ∧ w.determ.locks m = some { e with
        isAcquired := false, lockBudget := lockOwnerBudget } := fun e he => by
    rw [lockSet_snd he, hs] at hno
    rw [he, hs, Option.map_some] at hlock
    rcases LockEntry.acquire_cases e t false with ⟨-, ha⟩ | ⟨-, -, ha⟩ | ⟨-, -, -, ha⟩ |
      ⟨h1, hl, -, ha⟩ | ⟨-, ha⟩ <;> rw [ha] at hno hlock
    · cases hno
    · cases hno
    · cases hno
    · exact ⟨hl, h1, hlock⟩
    · cases hno
  obtain ⟨e, he, -⟩ := h.entry
  obtain ⟨hl, h1, he'⟩ := hrefused e he
  exact .refused _ he' h1 hl (h.le_pred hf he h1) (by simp [hnew])

theorem Spent.run_self (h : Spent t m s n) (hL : s.Locking) (hg : Untokened t m s (.run t))
    (hs : s.step (.run t) = some w) : Spent t m w (n + (s.acquires t m .direct (.run t)).toNat) := by
  obtain ⟨i, rest, hl, hp, hi, hlocks, hst, -, -⟩ := hL.step_run hs
  obtain ⟨-, hsingle, hno⟩ := hg
  rw [acquires_of_head hl hp] at hno ⊢
  have hold := stages_cons hp
  by_cases hm : ∀ x, i.lockStage ≠ some (m, x)
  · -- the instruction is not about acquiring `m`
    have hset : i ≠ .lockSet m .direct := by
      rintro rfl
      exact hm .direct rfl
    rw [decide_eq_false hset, Bool.false_and]
    refine h.transfer hL.funded (fun x => ?_) fun e he => ?_
    · have h1 : (m, x) ∉ s.lockStagesAfter t i := fun hx => (mem_stagesAfter hx).elim hm
      have h2 : (m, x) ∉ i.lockStage.toList := fun hx => hm x (by simpa using hx)
      simp [hold, hst, h1, h2]
    · rw [hlocks]
      obtain ⟨e', he', hsame⟩ := lockAfter_plain hi hm he
      exact ⟨e', he', .inl hsame⟩
  push Not at hm
  obtain ⟨x, hx⟩ := hm
  have hrest : rest.filterMap Instr.lockStage = [] := by
    have hone := hL.one t hl
    rw [hold, hx, List.length_append, Option.toList_some, List.length_singleton] at hone
    exact List.length_eq_zero_iff.mp (by omega)
  rw [hx, hrest] at hold
  rw [hrest, List.append_nil] at hst
  obtain ⟨e, he, hpos⟩ := h.entry
  have hlock := hlocks m
  cases i with
  | lockIsowner m' =>
      obtain ⟨rfl, rfl⟩ : m' = m ∧ LockStage.start = x := by simpa [Instr.lockStage] using hx
      have hsame : w.determ.locks m' = some e := by
        simp only [hlock, lockAfter, he, Option.map_some]
        rw [if_neg fun hc => hc.2.2 (hpos.2 hc.2.1)]
      refine h.approach he hold hsame hst nofun (fun hy => ?_) fun hy => ?_
      · rw [lockIsowner_snd he] at hy
        have hmany : e.totalUsers ≠ 1 := fun h1 => by simp [h1, hpos.2 h1] at hy
        omega
      · rw [lockIsowner_snd he] at hy
        by_cases h1 : e.totalUsers = 1
        · exact .inr h1
        · simp [h1] at hy
  | isSingleWorkingThread m' =>
      obtain ⟨rfl, rfl⟩ : m' = m ∧ LockStage.single = x := by simpa [Instr.lockStage] using hx
      simp only [lockStagesAfter, hsingle, Bool.false_eq_true, if_false] at hst
      exact h.approach he hold (hlock.trans he) hst nofun nofun nofun
  | getLockAgain m' =>
      obtain ⟨rfl, rfl⟩ : m' = m ∧ LockStage.retry = x := by simpa [Instr.lockStage] using hx
      exact h.approach he hold (hlock.trans he) hst id nofun nofun
  | lockTest m' k =>
      have hm : m' = m := by cases k <;> simp [Instr.lockStage] at hx <;> exact hx.1
      subst hm
      have hsame : w.determ.locks m' = some e := by simp [hlock, lockAfter, he]
      cases k with
      | direct =>
          obtain rfl : LockStage.direct = x := by simpa [Instr.lockStage] using hx
          exact h.approach he hold hsame hst nofun (fun hy => by split at hy <;> cases hy)
            fun _ => .inl rfl
      | retry =>
          obtain rfl : LockStage.retry = x := by simpa [Instr.lockStage] using hx
          exact h.approach he hold hsame hst id nofun nofun
      | condWait => cases hi
  | lockSet m' k =>
      have hm : m' = m := by cases k <;> simp [Instr.lockStage] at hx <;> exact hx.1
      subst hm
      have hafter : w.determ.locks m' = (s.determ.locks m').map fun e =>
          (e.acquire t s.determ.isSingleWorkingThread).1 := by simp [hlock, lockAfter]
      cases k with
      | direct =>
          obtain rfl : LockStage.direct = x := by simpa [Instr.lockStage] using hx
          simpa using h.direct hsingle hold hafter hst
      | retry =>
          have hno' : (s.determ.lockSet m' t).2 = false := by simpa using hno
          simp only [lockStagesAfter, hno', Bool.false_eq_true, if_false] at hst
          simpa using h.retry hL.funded hsingle hno' hafter hst
      | condWait => cases hi
  | _ => cases hx

/-- A step while several threads are working costs the owner a part of its budget, or is no
acquisition without the token. -/
theorem Spent.step (h : Spent t m s n) (hL : s.Locking) (hg : Untokened t m s a)
    (hs : s.step a = some w) : Spent t m w (n + (s.acquires t m .direct a).toNat) := by
  cases a with
  | call u op =>
      obtain ⟨-, hp, rfl⟩ := step_call hs
      have hown : ∀ e, s.determ.locks m = some e → ∃ e', (s.called u op).determ.locks m = some e' ∧
          (e'.totalUsers = e.totalUsers ∧ e'.lastThread = e.lastThread ∧
            e'.lockBudget = e.lockBudget ∨ 2 ≤ e'.totalUsers) :=
        fun e he => ⟨e, he, .inl ⟨rfl, rfl, rfl⟩⟩
      by_cases hu : u = t
      · subst hu
        have hold : (s.locals u).lockStages = [] := by simp [Local.lockStages, hp]
        have hnew : ∀ x, (m, x) ∈ ((s.called u op).locals u).lockStages → x = .start := by
          rw [s.called_locals, if_pos rfl]
          exact (program_stages hg.1 _).2.1
        cases h with
        | owner e he h1 hl hb hx => exact .owner e he h1 hl hb fun hmem => nomatch hnew _ hmem
        | refused e he h1 hl hn hx => simp [hold] at hx
        | shared e he h2 hn hx => exact .shared e he h2 hn fun hmem => nomatch hnew _ hmem
      · refine h.transfer hL.funded (fun x => ?_) hown
        rw [s.called_locals, if_neg (Ne.symm hu)]
  | run u =>
      by_cases hu : u = t
      · subst hu
        exact h.run_self hL hg hs
      · have hcount : s.acquires t m .direct (.run u) = false := by simp [acquires, hu]
        rw [hcount]
        obtain ⟨i, rest, -, -, hi, hlocks, -, -, hoth⟩ := hL.step_run hs
        refine h.transfer hL.funded (fun x => ?_) fun e he => ?_
        · rw [Local.lockStages, (hoth t (Ne.symm hu)).1]
          rfl
        · rw [hlocks]
          obtain ⟨e', he', hpos⟩ := h.entry
          obtain rfl : e = e' := Option.some.inj (he.symm.trans he')
          refine lockAfter_other hi he hpos.1 fun h1 => ?_
          rw [hpos.2 h1]
          exact Ne.symm hu

/-- An acquisition under the token leaves at most the whole budget. -/
theorem Spent.begin (hL : s.Locking) (ha : s.acquires t m .retry a = true)
    (hs : s.step a = some w) : Spent t m w 0 := by
  cases a with
  | call u op => cases ha
  | run u =>
      obtain ⟨rfl, hl, hhead, hset⟩ : u = t ∧ (s.locals t).live = true ∧
          (s.locals t).pending.head? = some (.lockSet m .retry) ∧
          (s.determ.lockSet m t).2 = true := by simpa [acquires] using ha
      obtain ⟨i, rest, -, hp, -, hlocks, hst, -, -⟩ := hL.step_run hs
      obtain rfl : i = .lockSet m .retry := by simpa [hp] using hhead
      have hnew : (w.locals u).lockStages = [] := by
        have hone := hL.one u hl
        rw [stages_cons hp, List.length_append] at hone
        have hrest : rest.filterMap Instr.lockStage = [] :=
          List.length_eq_zero_iff.mp (by simp only [Instr.lockStage, Option.toList_some,
            List.length_singleton] at hone; omega)
        simp [hst, lockStagesAfter, hset, hrest]
      obtain ⟨e, he⟩ := hL.entry u hl m .retry (by simp [hp])
      have hf := hL.funded m e he
      have hlock : w.determ.locks m = some (e.acquire u s.determ.isSingleWorkingThread).1 := by
        simp [hlocks, lockAfter, he]
      rw [lockSet_snd he] at hset
      rcases LockEntry.acquire_cases e u s.determ.isSingleWorkingThread with ⟨-, ha⟩ | ⟨-, -, ha⟩ |
        ⟨h1, hlast, hb, ha⟩ | ⟨h1, hlast, -, ha⟩ | ⟨h2, ha⟩ <;> rw [ha] at hlock hset
      · exact .owner _ hlock rfl rfl (by simp) (by simp [hnew])
      · exact .shared _ hlock (le_refl 2) (by decide) (by simp [hnew])
      · refine .owner _ hlock h1 hlast ?_ (by simp [hnew])
        have hle := (hf h1).2
        change ((0 : ℕ) : ℤ) + (e.lockBudget - 1) ≤ lockOwnerBudget
        omega
      · exact .owner _ hlock h1 hlast (by simp) (by simp [hnew])
      · exact .shared _ hlock h2 (by decide) (by simp [hnew])

theorem Spent.le (h : Spent t m s n) (hf : s.Funded) : (n : ℤ) ≤ lockOwnerBudget := by
  cases h with
  | owner e he h1 hl hb hx =>
      have := hf m e he h1
      omega
  | refused e he h1 hl hn hx => omega
  | shared e he h2 hn hx => exact hn

/-! ## A refusal -/

/-- Process `t` is about to be refused `m` by the budget test. -/
def refused (s : State) (t : Tid) (m : Obj) : Prop :=
  (∃ k, (s.locals t).pending.head? = some (.lockSet m k)) ∧ (s.determ.lockSet m t).2 = false

/-- The label starts an operation of process `t`. -/
def startedBy (t : Tid) : Label → Bool
  | .call u _ => u = t
  | .run _ => false

/-- Process `t` comes back to `m` with the whole budget, or already has it. -/
def Returning (t : Tid) (m : Obj) (s : State) : Prop :=
  (s.locals t).lockStages = [] ∨
    (s.locals t).lockStages = [(m, .retry)] ∧ ∃ e, s.determ.locks m = some e ∧ 1 ≤ e.totalUsers ∧
      (e.totalUsers = 1 → e.lastThread = t ∧ e.lockBudget = lockOwnerBudget)

theorem Returning.begin (hL : s.Locking) (hr : s.refused t m) (hs : s.step (.run t) = some w) :
    w.determ.acquired m = false ∧ Returning t m w := by
  obtain ⟨⟨k, hhead⟩, hset⟩ := hr
  obtain ⟨i, rest, hl, hp, hi, hlocks, hst, -, -⟩ := hL.step_run hs
  obtain rfl : i = .lockSet m k := by simpa [hp] using hhead
  obtain ⟨e, he⟩ := hL.entry t hl m k (by simp [hp])
  have hlock : w.determ.locks m = some (e.acquire t s.determ.isSingleWorkingThread).1 := by
    simp [hlocks, lockAfter, he]
  have hnew : (w.locals t).lockStages = [(m, .retry)] := by
    have hone := hL.one t hl
    rw [stages_cons hp, List.length_append] at hone
    cases k with
    | condWait => cases hi
    | direct | retry =>
        simp only [Instr.lockStage, Option.toList_some, List.length_singleton] at hone
        have hrest : rest.filterMap Instr.lockStage = [] := List.length_eq_zero_iff.mp (by omega)
        simp [hst, lockStagesAfter, hset, hrest]
  rw [lockSet_snd he] at hset
  refine ⟨?_, .inr ⟨hnew, ?_⟩⟩
  · rw [Determ.acquired, hlock, Option.any_some, LockEntry.acquire_isAcquired, hset]
  · rcases LockEntry.acquire_cases e t s.determ.isSingleWorkingThread with ⟨-, ha⟩ | ⟨-, -, ha⟩ |
      ⟨-, -, -, ha⟩ | ⟨h1, hlast, -, ha⟩ | ⟨-, ha⟩ <;> rw [ha] at hlock hset
    · cases hset
    · cases hset
    · cases hset
    · exact ⟨_, hlock, h1.ge, fun _ => ⟨hlast, rfl⟩⟩
    · cases hset

/-- With the whole budget `lock_acquire` does not refuse. -/
theorem Returning.not_refused (h : Returning t m s) (hone : (s.locals t).lockStages = [(m, .retry)]) :
    (s.determ.lockSet m t).2 = true := by
  rcases h with h | ⟨-, e, he, hpos, hbud⟩
  · rw [h] at hone
    cases hone
  rw [lockSet_snd he]
  rcases LockEntry.acquire_cases e t s.determ.isSingleWorkingThread with ⟨-, ha⟩ | ⟨-, -, ha⟩ |
    ⟨-, -, -, ha⟩ | ⟨h1, -, hb, -⟩ | ⟨-, ha⟩
  · rw [ha]
  · rw [ha]
  · rw [ha]
  · rw [(hbud h1).2] at hb
    exact absurd hb (by decide)
  · rw [ha]

theorem Returning.step (h : Returning t m s) (hL : s.Locking)
    (hg : s.mutexCalls a = true ∧ startedBy t a = false) (hs : s.step a = some w) :
    Returning t m w := by
  cases a with
  | call u op =>
      obtain ⟨-, -, rfl⟩ := step_call hs
      have hu : t ≠ u := fun hu => by simp [startedBy, hu] at hg
      unfold Returning
      rw [s.called_locals, if_neg hu]
      exact h
  | run u =>
      obtain ⟨i, rest, hl, hp, hi, hlocks, hst, -, hoth⟩ := hL.step_run hs
      by_cases hu : t = u
      · subst hu
        have hold := stages_cons hp
        have hlen := stagesAfter_length (s := s) (t := t) (i := i)
        rcases h with h | ⟨h, e, he, hpos, hbud⟩
        · rw [hold, List.append_eq_nil_iff] at h
          rw [h.1, List.length_nil, Nat.le_zero, List.length_eq_zero_iff] at hlen
          exact .inl (by rw [hst, hlen, h.2]; rfl)
        have hback := h.symm.trans hold
        cases hx : i.lockStage with
        | none =>
            rw [hx] at hback hlen
            rw [Option.toList_none, List.length_nil, Nat.le_zero, List.length_eq_zero_iff] at hlen
            obtain ⟨e', he', hu', hlast', hbud'⟩ :=
              lockAfter_plain (u := t) (m := m) hi (by simp [hx]) he
            refine .inr ⟨by rw [hst, hlen]; exact hback.symm, e', (hlocks m).trans he', ?_⟩
            rw [hu', hlast', hbud']
            exact ⟨hpos, hbud⟩
        | some x =>
            rw [hx, Option.toList_some, List.singleton_append, List.cons.injEq] at hback
            obtain ⟨rfl, hrest⟩ := hback
            rw [← hrest, List.append_nil] at hst
            have hmine := hlocks m
            cases i with
            | getLockAgain m' =>
                obtain rfl : m' = m := by simpa [Instr.lockStage] using hx
                exact .inr ⟨hst, e, hmine.trans he, hpos, hbud⟩
            | lockTest m' k =>
                cases k with
                | retry =>
                    obtain rfl : m' = m := by simpa [Instr.lockStage] using hx
                    exact .inr ⟨hst, e, by simp [hmine, lockAfter, he], hpos, hbud⟩
                | direct => simp [Instr.lockStage] at hx
                | condWait => cases hx
            | lockSet m' k =>
                cases k with
                | retry =>
                    obtain rfl : m' = m := by simpa [Instr.lockStage] using hx
                    have hset := Returning.not_refused (.inr ⟨h, e, he, hpos, hbud⟩) h
                    exact .inl (by simp [hst, lockStagesAfter, hset])
                | direct => simp [Instr.lockStage] at hx
                | condWait => cases hx
            | lockIsowner | isSingleWorkingThread => simp [Instr.lockStage] at hx
            | _ => cases hx
      · have hsame : (w.locals t).lockStages = (s.locals t).lockStages := by
          rw [Local.lockStages, (hoth t hu).1]
          rfl
        unfold Returning
        rw [hsame]
        refine h.imp_right fun ⟨h, e, he, hpos, hbud⟩ => ⟨h, ?_⟩
        obtain ⟨e', he', ⟨hu', hlast, hbud'⟩ | h2⟩ := lockAfter_other (u := u) hi he hpos fun h1 => by
          rw [(hbud h1).1]
          exact hu
        · refine ⟨e', (hlocks m).trans he', ?_⟩
          rw [hu', hlast, hbud']
          exact ⟨hpos, hbud⟩
        · exact ⟨e', (hlocks m).trans he', by omega, fun h1 => by omega⟩

/-! ## The bound -/

instance (s : State) (t : Tid) (m : Obj) (a : Label) : Decidable (Untokened t m s a) :=
  inferInstanceAs (Decidable (_ ∧ _))

instance (s : State) (t : Tid) (m : Obj) : Decidable (s.refused t m) :=
  decidable_of_iff ((s.locals t).pending.head?.any (fun
      | .lockSet m' _ => m' = m
      | _ => false) = true ∧ (s.determ.lockSet m t).2 = false) <| by
    refine and_congr_left fun _ => ?_
    cases (s.locals t).pending.head? with
    | none => simp
    | some i => cases i <;> simp

theorem locking_start {s₀ : State} {ls : List Label} (hs : s.Opening)
    (h₀ : Run State.step (fun _ _ => True) s ls s₀)
    (hidle : ∀ t, (s₀.locals t).live = true → (s₀.locals t).pending = []) : s₀.Locking where
  funded := h₀.invariant (fun _ _ _ hf _ hs => hf.step hs) hs.funded
  ofMutex t hl i hi := by simp [hidle t hl] at hi
  one t hl := by simp [Local.lockStages, hidle t hl]
  entry t hl m k hk := by simp [hidle t hl] at hk

theorem Locking.run {as : List Label} {guard : State → Label → Prop} (hL : s.Locking)
    (hg : ∀ s a, guard s a → s.mutexCalls a = true) (h : Run State.step guard s as w) : w.Locking :=
  h.invariant (fun _ _ _ hL ha hs => hL.step (hg _ _ ha) hs) hL

/-- While several threads are working, an owner acquires its mutex at most `LOCK_OWNER_BUDGET` times
without the token after it got it under the token, and the last of these times only together with a
second user. The budget test leaves the mutex alone, and does not refuse again under the token. -/
theorem owner_path_bounded {s₀ u : State} {ls as : List Label} (hs : s.Opening)
    (h₀ : Run State.step (fun _ _ => True) s ls s₀)
    (hidle : ∀ t, (s₀.locals t).live = true → (s₀.locals t).pending = [])
    (h : Run State.step (fun s a => s.mutexCalls a = true) s₀ as u) (t : Tid) (m : Obj) :
    (∀ a u' bs w, u.acquires t m .retry a = true → u.step a = some u' →
      Run State.step (Untokened t m) u' bs w →
      (occurrences State.step (fun s a => s.acquires t m .direct a) u' bs : ℤ) ≤ lockOwnerBudget ∧
      ∀ e, w.determ.locks m = some e → e.totalUsers = 1 →
        (occurrences State.step (fun s a => s.acquires t m .direct a) u' bs : ℤ) ≤
          lockOwnerBudget - 1) ∧
    ∀ u', u.refused t m → u.step (.run t) = some u' → u'.determ.acquired m = false ∧
      ∀ bs w k, Run State.step (fun s a => s.mutexCalls a = true ∧ startedBy t a = false) u' bs w →
        (w.locals t).live = true → (w.locals t).pending.head? = some (.lockSet m k) →
        k = .retry ∧ (w.determ.lockSet m t).2 = true := by
  have hL : u.Locking := (locking_start hs h₀ hidle).run (fun _ _ hg => hg) h
  refine ⟨fun a u' bs w ha hs' hr => ?_, fun u' href hs' => ?_⟩
  · have hmutex : u.mutexCalls a = true := by
      cases a with
      | call v op => cases ha
      | run v => rfl
    have hkeep : ∀ s n a w, (s.Locking ∧ Spent t m s n) → Untokened t m s a →
        s.step a = some w → w.Locking ∧ Spent t m w (n + (s.acquires t m .direct a).toNat) :=
      fun _ _ _ _ hsp hg hs => ⟨hsp.1.step hg.1 hs, hsp.2.step hsp.1 hg hs⟩
    have hend := hr.counted _ hkeep ⟨hL.step hmutex hs', .begin hL ha hs'⟩
    refine ⟨hend.2.le hend.1.funded, fun e he h1 => ?_⟩
    exact Int.le_sub_right_of_add_le (hend.2.le_pred hend.1.funded he h1)
  · obtain ⟨hacq, hret⟩ := Returning.begin hL href hs'
    refine ⟨hacq, fun bs w k hr hlive hhead => ?_⟩
    have hkeep : ∀ s a w, (s.Locking ∧ Returning t m s) →
        (s.mutexCalls a = true ∧ startedBy t a = false) → s.step a = some w →
        w.Locking ∧ Returning t m w :=
      fun _ _ _ h hg hs => ⟨h.1.step hg.1 hs, h.2.step h.1 hg hs⟩
    obtain ⟨hLw, hretw⟩ := hr.invariant hkeep ⟨hL.step rfl hs', hret⟩
    obtain ⟨rest, hp⟩ := List.head?_eq_some_iff.mp hhead
    have hi := hLw.ofMutex t hlive (.lockSet m k) (by simp [hp])
    have hstage := stages_cons hp
    cases k with
    | condWait => cases hi
    | direct =>
        rcases hretw with h | ⟨h, -⟩ <;> simp [h, Instr.lockStage] at hstage
    | retry =>
        refine ⟨rfl, hretw.not_refused ?_⟩
        rcases hretw with h | ⟨h, -⟩
        · simp [h, Instr.lockStage] at hstage
        · exact h

/-! ## Ten times without the token -/

/-- The owner locks and unlocks `m` without the token. -/
def ownerPath (t : Tid) (m : Obj) : List Label :=
  .call t (.mutexLock m) :: Label.runs t 4 ++ .call t (.mutexUnlock m) :: Label.runs t 3

/-- Thread 1 waits for the token and is about to acquire mutex 0, thread 2 waits with mutex 1. -/
def toToken : List Label :=
  .call 1 (.mutexLock 0) :: Label.runs 1 4 ++ .call 2 (.mutexLock 1) :: Label.runs 2 4 ++
    [.run 1, .run 2] ++ Label.runs 1 7

/-- Thread 1 passes the token to thread 2, which passes it back. -/
def aroundRing : List Label :=
  .call 1 (.mutexUnlock 0) :: Label.runs 1 8 ++ Label.runs 2 6 ++
    .call 2 (.mutexUnlock 1) :: Label.runs 2 8 ++ Label.runs 1 2

/-- Nine times; then thread 2 counts itself between thread 1's `lock_isowner` and its
`lock_acquire`. Thread 1 then comes to the token. -/
def tenTimes : List Label :=
  (List.replicate 9 (ownerPath 1 0)).flatten ++ .call 1 (.mutexLock 0) :: Label.runs 1 2 ++
    .call 2 (.mutexLock 0) :: Label.runs 2 2 ++ Label.runs 1 2 ++
    .call 1 (.mutexUnlock 0) :: Label.runs 1 3 ++
    .call 1 (.mutexLock 0) :: Label.runs 1 5 ++ Label.runs 2 3 ++ Label.runs 1 7

/-- Nine times, up to the refusal. -/
def nineTimes : List Label :=
  (List.replicate 9 (ownerPath 1 0)).flatten ++ .call 1 (.mutexLock 0) :: Label.runs 1 3

theorem tenTimes_run : ∃ u, Run State.step (fun s a => s.mutexCalls a = true) (ring 2 4) toToken u ∧
    ∃ u', (u.acquires 1 0 .retry (.run 1) = true ∧ u.step (.run 1) = some u') ∧
    ∃ w, Run State.step (Untokened 1 0) u' (aroundRing ++ tenTimes) w ∧
      w.acquires 1 0 .retry (.run 1) = true ∧ (w.step (.run 1)).isSome = true ∧
      occurrences State.step (fun s a => s.acquires 1 0 .direct a) u' (aroundRing ++ tenTimes) = 10 := by
  have hrun : (execGuarded State.step (fun s a => s.mutexCalls a = true) (ring 2 4) toToken).any
      (fun u => decide (u.acquires 1 0 .retry (.run 1) = true ∧ (u.step (.run 1)).any (fun u' =>
        (execGuarded State.step (Untokened 1 0) u' (aroundRing ++ tenTimes)).any fun w =>
          decide (w.acquires 1 0 .retry (.run 1) = true ∧ (w.step (.run 1)).isSome = true ∧
            occurrences State.step (fun s a => s.acquires 1 0 .direct a) u'
              (aroundRing ++ tenTimes) = 10)) = true)) = true := by
    decide +kernel
  obtain ⟨u, hu, ha, hstep⟩ := exists_run_of_any hrun
  obtain ⟨u', hu', hw⟩ := (Option.any_eq_true ..).mp hstep
  exact ⟨u, hu, u', ⟨ha, hu'⟩, exists_run_of_any hw⟩

/-- Thread 1 acquires mutex 0 ten times without the token, between two acquisitions under the
token, while two threads are working. -/
theorem owner_path_exceeds_budget : ¬ ∀ as u a u' bs w b w',
    Run State.step (fun s a => s.mutexCalls a = true) (ring 2 4) as u →
    u.acquires 1 0 .retry a = true → u.step a = some u' →
    Run State.step (Untokened 1 0) u' bs w →
    w.acquires 1 0 .retry b = true → w.step b = some w' →
    (occurrences State.step (fun s a => s.acquires 1 0 .direct a) u' bs : ℤ) ≤
      lockOwnerBudget - 1 := by
  intro h
  obtain ⟨u, hu, u', ⟨ha, hs⟩, w, hw, hb, hsome, hten⟩ := tenTimes_run
  obtain ⟨w', hw'⟩ := Option.isSome_iff_exists.mp hsome
  have hle := h _ u _ u' _ w _ w' hu ha hs hw hb hw'
  rw [hten] at hle
  exact absurd hle (by decide)

theorem nineTimes_run : ∃ u, Run State.step (fun s a => s.mutexCalls a = true) (ring 2 4)
    (toToken ++ .run 1 :: aroundRing ++ nineTimes) u ∧ u.refused 1 0 ∧
    ∃ u', u.step (.run 1) = some u' ∧
    ∃ w, Run State.step (fun s a => s.mutexCalls a = true ∧ startedBy 1 a = false) u'
      (.call 2 (.mutexLock 2) :: Label.runs 1 2 ++ Label.runs 2 5 ++ Label.runs 1 7) w ∧
      (w.locals 1).live = true ∧ (w.locals 1).pending.head? = some (.lockSet 0 .retry) := by
  have hrun : (execGuarded State.step (fun s a => s.mutexCalls a = true) (ring 2 4)
      (toToken ++ .run 1 :: aroundRing ++ nineTimes)).any
      (fun u => decide (u.refused 1 0 ∧ (u.step (.run 1)).any (fun u' =>
        (execGuarded State.step (fun s a => s.mutexCalls a = true ∧ startedBy 1 a = false) u'
          (.call 2 (.mutexLock 2) :: Label.runs 1 2 ++ Label.runs 2 5 ++ Label.runs 1 7)).any
          fun w => decide ((w.locals 1).live = true ∧
            (w.locals 1).pending.head? = some (.lockSet 0 .retry))) = true)) = true := by
    decide +kernel
  obtain ⟨u, hu, ha, hstep⟩ := exists_run_of_any hrun
  obtain ⟨u', hu', hw⟩ := (Option.any_eq_true ..).mp hstep
  exact ⟨u, hu, ha, u', hu', exists_run_of_any hw⟩

/-- The ten acquisitions are the bound; after nine of them the tenth is refused when thread 2 stays
away, and thread 1 gets the mutex under the token. -/
theorem owner_path_bounded_ring :
    (∃ u' w bs, Run State.step (Untokened 1 0) u' bs w ∧
      occurrences State.step (fun s a => s.acquires 1 0 .direct a) u' bs = 10 ∧
      (occurrences State.step (fun s a => s.acquires 1 0 .direct a) u' bs : ℤ) ≤ lockOwnerBudget) ∧
    ∃ u u' w : State, u.refused 1 0 ∧ u.step (.run 1) = some u' ∧ u'.determ.acquired 0 = false ∧
      (w.locals 1).pending.head? = some (.lockSet 0 .retry) ∧ (w.determ.lockSet 0 1).2 = true := by
  have hs : (ring 2 4).Opening := .inr ⟨2, 4, by decide, rfl⟩
  constructor
  · obtain ⟨u, hu, u', ⟨ha, hu'⟩, w, hw, -, -, hten⟩ := tenTimes_run
    exact ⟨u', w, _, hw, hten, ((owner_path_bounded hs (.nil _) (fun _ _ => rfl) hu 1 0).1 _ u' _ w
      ha hu' hw).1⟩
  · obtain ⟨u, hu, href, u', hu', w, hw, hl, hhead⟩ := nineTimes_run
    obtain ⟨hacq, hret⟩ := (owner_path_bounded hs (.nil _) (fun _ _ => rfl) hu 1 0).2 u' href hu'
    exact ⟨u, u', w, href, hu', hacq, hhead, (hret _ w .retry hw hl hhead).2⟩

end State

end Dthreads.Scheduler
