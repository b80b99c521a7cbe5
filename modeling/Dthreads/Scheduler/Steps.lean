import Dthreads.Scheduler.Machine

/-! # What an instruction can do

The instructions that replace an instruction, and the fields of its process that it changes. The
later modules never unfold `State.own` for these. -/

namespace Dthreads.Scheduler

/-- The instructions that can come in place of an instruction of a process with variables `l`. -/
inductive Pushes (l : Local) : Instr → List Instr → Prop where
  | done (i) : Pushes l i []
  | fenceSpin (k) : Pushes l (.fenceEnter k) [.spinArrival k]
  | fenceWait (k) : Pushes l (.fenceEnter k) [.condArrival k]
  | fenceRespin (k) : Pushes l (.spinArrival k) [.fenceArrive k]
  | arrivedSpin (k i) (hi : i = .fenceEnter k ∨ i = .fenceArrive k ∨ i = .condArrival k) :
      Pushes l i [.spinRelease k]
  | arrivedWait (k i) (hi : i = .fenceEnter k ∨ i = .fenceArrive k ∨ i = .condArrival k) :
      Pushes l i [.condRelease k]
  | released (k) : Pushes l (.spinRelease k) [.fenceLeave k]
  | owner (m) : Pushes l (.lockIsowner m) [.lockTest m .direct]
  | notOwner (m) : Pushes l (.lockIsowner m) [.isSingleWorkingThread m]
  | single (m) : Pushes l (.isSingleWorkingThread m) [.lockTest m .direct]
  | notSingle (m) : Pushes l (.isSingleWorkingThread m) [.getLockAgain m]
  | again (m) : Pushes l (.getLockAgain m) (l.getLockAgain m)
  | free (m k) : Pushes l (.lockTest m k) [.lockSet m k]
  | taken (m k) : Pushes l (.lockTest m k) (Local.lockFailed m k)
  | exhausted (m k) : Pushes l (.lockSet m k) (Local.lockFailed m k)
  | endCritical : Pushes l .endCriticalSection l.endCriticalSection
  | condAgain (m) : Pushes l (.condBlock m) [.condBlock m]
  | barrierLast (b) : Pushes l (.barrierEnter b) [.barrierArrive b, .atomicBegin]
  | barrierWait (b) : Pushes l (.barrierEnter b) [.atomicBegin, .barrierArrive b]
  | barrierBlock (b g) : Pushes l (.barrierArrive b) [.barrierBlock b g]
  | joinBlock (v w g) : Pushes l (.detJoin v w) [.joinBlock g]
  | joinAgain (g) : Pushes l (.joinBlock g) [.joinBlock g]
  | joined (g) : Pushes l (.joinBlock g) [.joinToken]

/-- The mutex an instruction releases on behalf of a thread that is inside it. -/
def releasesOf : Instr → Option Obj
  | .lockRelease m => some m
  | .condEnter _ m => some m
  | _ => none

namespace State

variable {s : State} {t : Tid} {rest : List Instr} {i : Instr} {d : Determ} {l : Local}

theorem arrive_pending (d : Determ) (l : Local) (k : Bool) (rest : List Instr) :
    ∃ js, (d.arrive l k rest).2 = l.goto (js ++ rest) ∧
      (js = [] ∨ js = [.spinRelease k] ∨ js = [.condRelease k]) := by
  unfold Determ.arrive
  split
  · exact ⟨[], rfl, .inl rfl⟩
  · split
    · exact ⟨[.spinRelease k], rfl, .inr (.inl rfl)⟩
    · exact ⟨[.condRelease k], rfl, .inr (.inr rfl)⟩

theorem arrive_pushes {k : Bool} (hi : i = .fenceEnter k ∨ i = .fenceArrive k ∨ i = .condArrival k)
    (h : some (s.determ.arrive (s.locals t) k rest) = some (d, l)) :
    ∃ js, Pushes (s.locals t) i js ∧ l = (s.locals t).goto (js ++ rest) := by
  obtain ⟨js, hl, hjs⟩ := arrive_pending s.determ (s.locals t) k rest
  have hl' : l = (s.determ.arrive (s.locals t) k rest).2 := congrArg Prod.snd (Option.some.inj h).symm
  rw [hl] at hl'
  refine ⟨js, ?_, hl'⟩
  rcases hjs with rfl | rfl | rfl
  · exact .done i
  · exact .arrivedSpin k i hi
  · exact .arrivedWait k i hi

/-- An instruction other than the exit replaces itself by what it pushes. -/
theorem own_pending (h : s.own t rest i = some (d, l)) (hi : i ≠ .procExit) :
    ∃ js, Pushes (s.locals t) i js ∧ l.pending = js ++ rest := by
  have harrive : ∀ k, (i = .fenceEnter k ∨ i = .fenceArrive k ∨ i = .condArrival k) →
      some (s.determ.arrive (s.locals t) k rest) = some (d, l) →
      ∃ js, Pushes (s.locals t) i js ∧ l.pending = js ++ rest := by
    intro k hk ha
    obtain ⟨js, hp, rfl⟩ := arrive_pushes hk ha
    exact ⟨js, hp, rfl⟩
  cases i with
  | fenceEnter k =>
      simp only [own] at h
      split at h
      · exact harrive k (.inl rfl) h
      · split at h <;> cases h
        · exact ⟨_, .fenceSpin k, rfl⟩
        · exact ⟨_, .fenceWait k, rfl⟩
  | fenceArrive k => exact harrive k (.inr (.inl rfl)) h
  | condArrival k =>
      simp only [own] at h
      split at h
      · exact harrive k (.inr (.inr rfl)) h
      · cases h
  | spinArrival k =>
      simp only [own] at h
      split at h <;> cases h
      exact ⟨_, .fenceRespin k, rfl⟩
  | spinRelease k =>
      simp only [own] at h
      split at h <;> cases h
      exact ⟨_, .released k, rfl⟩
  | lockIsowner m =>
      cases h
      cases (s.determ.lockIsowner m t).2
      · exact ⟨_, .notOwner m, rfl⟩
      · exact ⟨_, .owner m, rfl⟩
  | isSingleWorkingThread m =>
      cases h
      cases s.determ.isSingleWorkingThread
      · exact ⟨_, .notSingle m, rfl⟩
      · exact ⟨_, .single m, rfl⟩
  | getLockAgain m =>
      cases h
      exact ⟨_, .again m, rfl⟩
  | lockTest m k =>
      simp only [own] at h
      split at h <;> cases h
      · exact ⟨_, .free m k, rfl⟩
      · exact ⟨_, .taken m k, rfl⟩
  | lockSet m k =>
      simp only [own] at h
      split at h <;> cases h
      · exact ⟨_, .done _, rfl⟩
      · exact ⟨_, .exhausted m k, rfl⟩
  | endCriticalSection =>
      cases h
      exact ⟨_, .endCritical, rfl⟩
  | condBlock m =>
      simp only [own] at h
      split at h <;> cases h
      · exact ⟨_, .done _, rfl⟩
      · exact ⟨_, .condAgain m, rfl⟩
  | barrierEnter b =>
      cases h
      cases (s.determ.barrierEnter (s.locals t).threadIndex b).2
      · exact ⟨_, .barrierWait b, rfl⟩
      · exact ⟨_, .barrierLast b, rfl⟩
  | barrierArrive b =>
      simp only [own, Option.map_eq_some_iff] at h
      obtain ⟨be, -, h⟩ := h
      split at h <;> cases h
      · exact ⟨_, .done _, rfl⟩
      · exact ⟨_, .barrierBlock b be.generation, rfl⟩
  | detJoin v w =>
      simp only [own] at h
      split at h <;> cases h
      · exact ⟨_, .done _, rfl⟩
      · exact ⟨_, .joinBlock v w _, rfl⟩
  | joinBlock g =>
      simp only [own] at h
      split at h <;> cases h
      · exact ⟨_, .joined g, rfl⟩
      · exact ⟨_, .joinAgain g, rfl⟩
  | procExit => exact absurd rfl hi
  | _ =>
      simp only [own] at h
      (repeat' split at h) <;> cases h <;> exact ⟨[], .done _, rfl⟩

theorem arrive_locks {k : Bool} (h : some (s.determ.arrive (s.locals t) k rest) = some (d, l)) :
    d.locks = s.determ.locks ∧ l.inside = (s.locals t).inside := by
  unfold Determ.arrive at h
  split at h <;> cases h <;> simp

/-- The mutexes a thread is inside after an instruction. -/
def insideAfter (s : State) (t : Tid) : Instr → List Obj
  | .lockTest m .condWait =>
      if s.determ.acquired m then m :: (s.locals t).inside else (s.locals t).inside
  | .lockSet m k =>
      if (s.determ.lockSet m t).2 ∨ k = .condWait then m :: (s.locals t).inside
      else (s.locals t).inside
  | .lockRelease m => (s.locals t).inside.erase m
  | .condEnter _ m => (s.locals t).inside.erase m
  | _ => (s.locals t).inside

theorem own_inside (h : s.own t rest i = some (d, l)) : l.inside = s.insideAfter t i := by
  cases i with
  | fenceEnter k =>
      simp only [own] at h
      split at h
      · exact (arrive_locks h).2
      · split at h <;> cases h <;> rfl
  | fenceArrive k => exact (arrive_locks h).2
  | condArrival k =>
      simp only [own] at h
      split at h
      · exact (arrive_locks h).2
      · cases h
  | lockTest m k =>
      simp only [own, Determ.lockTest_snd] at h
      cases ha : s.determ.acquired m <;> simp only [ha, Bool.not_true, Bool.not_false] at h
      · cases h
        cases k <;> simp [insideAfter, ha]
      · cases h
        cases k <;> simp [insideAfter, ha]
  | lockSet m k =>
      simp only [own] at h
      split at h
      · rename_i hr
        cases h
        simp [insideAfter, hr]
      · rename_i hr
        cases h
        cases k <;> simp [insideAfter, hr]
  | barrierArrive b =>
      simp only [own, Option.map_eq_some_iff] at h
      obtain ⟨be, -, h⟩ := h
      split at h <;> cases h <;> rfl
  | _ =>
      simp only [own] at h
      (repeat' split at h) <;> cases h <;> rfl

/-- `is_acquired` of mutex `m` after an instruction. -/
def acquiredAfter (s : State) (t : Tid) (m : Obj) : Instr → Bool
  | .lockSet m' _ => if m = m' then (s.determ.lockSet m' t).2 else s.determ.acquired m
  | .lockRelease m' => if m = m' then false else s.determ.acquired m
  | .condEnter _ m' => if m = m' then false else s.determ.acquired m
  | .condBlock m' =>
      if m = m' ∧ (s.determ.entries (s.locals t).threadIndex).status ≠ .ready then false
      else s.determ.acquired m
  | .mutexInit m' => if m = m' then false else s.determ.acquired m
  | _ => s.determ.acquired m

theorem own_acquired (h : s.own t rest i = some (d, l)) (m : Obj) :
    d.acquired m = s.acquiredAfter t m i := by
  cases i with
  | fenceEnter k =>
      simp only [own] at h
      split at h
      · exact Determ.acquired_congr (arrive_locks h).1
      · split at h <;> cases h <;> rfl
  | fenceArrive k => exact Determ.acquired_congr (arrive_locks h).1
  | condArrival k =>
      simp only [own] at h
      split at h
      · exact Determ.acquired_congr (arrive_locks h).1
      · cases h
  | lockIsowner m' =>
      cases h
      exact Determ.lockIsowner_acquired ..
  | lockTest m' k =>
      simp only [own] at h
      split at h <;> cases h <;> exact Determ.lockTest_acquired ..
  | lockSet m' k =>
      have hd : d = (s.determ.lockSet m' t).1 := by
        simp only [own] at h
        split at h <;> cases h <;> rfl
      rw [hd, acquiredAfter]
      split
      · rename_i hm
        rw [hm, Determ.lockSet_acquired]
      · rename_i hm
        exact Determ.lockSet_acquired_of_ne _ hm
  | lockRelease m' =>
      cases h
      exact Determ.lockRelease_acquired m
  | condEnter c m' =>
      cases h
      exact Determ.condEnter_acquired _ _ m
  | condBlock m' =>
      simp only [own] at h
      split at h
      · rename_i hr
        cases h
        exact (if_neg fun hc => hc.2 hr).symm
      · rename_i hr
        cases h
        simp [Determ.lockRelease_acquired, acquiredAfter, hr]
  | mutexInit m' =>
      cases h
      exact Determ.acquired_setLock ..
  | barrierArrive b =>
      simp only [own, Option.map_eq_some_iff] at h
      obtain ⟨be, -, h⟩ := h
      split at h <;> cases h <;> rfl
  | _ =>
      simp only [own] at h
      (repeat' split at h) <;> cases h <;> exact Determ.acquired_congr (by simp)

end State

end Dthreads.Scheduler
