import Dthreads.Scheduler.Steps

/-! # The wait loop of `cond_wait`

The loop `while (status != STATUS_READY)` calls `lock_release` before each wait for the real
condition variable, so that a thread that is woken before it is signalled calls it again. -/

namespace Dthreads.Scheduler

open Transition

/-! ## The instructions of `cond_wait` -/

/-- Not one of the instructions only `cond_wait` runs. -/
def Instr.plain : Instr → Bool
  | .condEnter _ _ | .condBlock _ | .condToken => false
  | _ => true

/-- What is left of a `cond_wait`, or instructions of another operation. -/
def WaitShape (is : List Instr) : Prop :=
  (∃ c m, is <:+ Local.condWait c m) ∨ ∀ i ∈ is, i.plain = true

/-- The thread is past the first release: it is in the loop, or waits for the token after it. -/
def Entered (is : List Instr) : Prop :=
  (∃ m, is.head? = some (.condBlock m)) ∨ is.head? = some .condToken

theorem program_shape (l : Local) (op : Op) : WaitShape (l.program op) := by
  cases op with
  | condWait c m => exact .inl ⟨c, m, List.suffix_refl _⟩
  | _ =>
      refine .inr ?_
      simp only [Local.program, Local.mutexLock, Local.mutexUnlock, Local.condSignal,
        Local.condBroadcast, Local.barrierWait, Local.spawn, Local.join, Local.cancel,
        Local.threadDeregister, Local.wakeChildren, Local.underToken, Local.waitToken, Local.waitFence]
      (repeat' split) <;> simp [Instr.plain]

theorem program_not_entered (l : Local) (op : Op) : ¬ Entered (l.program op) := by
  unfold Entered
  cases op <;>
    simp only [Local.program, Local.mutexLock, Local.mutexUnlock, Local.condWait, Local.condSignal,
      Local.condBroadcast, Local.barrierWait, Local.spawn, Local.join, Local.cancel,
      Local.threadDeregister, Local.wakeChildren, Local.underToken, Local.waitToken, Local.waitFence] <;>
    (repeat' split) <;> simp

/-- No other operation comes to run them. -/
theorem Pushes.plain {l : Local} {i : Instr} {js : List Instr} (h : Pushes l i js)
    (hi : i.plain = true) : ∀ j ∈ js, j.plain = true := by
  cases h with
  | again m =>
      unfold Local.getLockAgain
      split <;> simp [Instr.plain, Local.waitToken, Local.waitFence]
  | endCritical =>
      unfold Local.endCriticalSection
      split <;> simp [Instr.plain, Local.waitFence]
  | taken m k => cases k <;> simp [Instr.plain, Local.lockFailed, Local.waitFence]
  | exhausted m k => cases k <;> simp [Instr.plain, Local.lockFailed, Local.waitFence]
  | condAgain m => cases hi
  | _ => simp [Instr.plain]

theorem not_entered_of_plain {is : List Instr} (h : ∀ i ∈ is, i.plain = true) : ¬ Entered is := by
  rintro (⟨m, hm⟩ | hm) <;> cases h _ (List.mem_of_head? hm)

theorem WaitShape.pushed_plain {l : Local} {i : Instr} {js rest : List Instr}
    (h : ∀ j ∈ i :: rest, j.plain = true) (hp : Pushes l i js) : WaitShape (js ++ rest) ∧
      (Entered (js ++ rest) → (∃ c m, i = .condEnter c m) ∨ Entered (i :: rest)) := by
  have hplain : ∀ j ∈ js ++ rest, j.plain = true := fun j hj => by
    rcases List.mem_append.mp hj with hj | hj
    · exact hp.plain (h i List.mem_cons_self) j hj
    · exact h j (List.mem_cons_of_mem i hj)
  exact ⟨.inr hplain, fun he => absurd he (not_entered_of_plain hplain)⟩

/-- Before the reacquisition only the loop repeats itself. -/
theorem Pushes.condWait {l : Local} {i : Instr} {js rest : List Instr} {c m : Obj}
    (h : Pushes l i js) (hs : i :: rest <:+ Local.condWait c m) :
    (∀ j ∈ i :: rest, j.plain = true) ∨ js = [] ∨ i = .condBlock m ∧ js = [.condBlock m] := by
  simp only [Local.condWait, List.suffix_cons_iff, List.suffix_nil, List.cons.injEq,
    reduceCtorEq, or_false] at hs
  rcases hs with ⟨rfl, rfl⟩ | ⟨rfl, rfl⟩ | ⟨rfl, rfl⟩ | ⟨rfl, rfl⟩ | ⟨rfl, rfl⟩ | ⟨rfl, rfl⟩ |
    ⟨rfl, rfl⟩
  case inr.inr.inr.inr.inr.inl | inr.inr.inr.inr.inr.inr => exact .inl (by simp [Instr.plain])
  case inr.inr.inr.inl =>
    cases h with
    | done => exact .inr (.inl rfl)
    | condAgain => exact .inr (.inr ⟨rfl, rfl⟩)
    | arrivedSpin k i hi => simp at hi
    | arrivedWait k i hi => simp at hi
  all_goals
    cases h with
    | done => exact .inr (.inl rfl)
    | arrivedSpin k i hi => simp at hi
    | arrivedWait k i hi => simp at hi

/-- An instruction keeps the shape, and the loop is entered from `condEnter` only. -/
theorem WaitShape.pushed {l : Local} {i : Instr} {js rest : List Instr} (h : WaitShape (i :: rest))
    (hp : Pushes l i js) : WaitShape (js ++ rest) ∧
      (Entered (js ++ rest) → (∃ c m, i = .condEnter c m) ∨ Entered (i :: rest)) := by
  rcases h with ⟨c, m, hs⟩ | h
  · rcases hp.condWait hs with h | rfl | ⟨rfl, rfl⟩
    · exact pushed_plain h hp
    · refine ⟨.inl ⟨c, m, (List.suffix_cons i rest).trans hs⟩, fun he => ?_⟩
      simp only [Local.condWait, List.suffix_cons_iff, List.suffix_nil, List.cons.injEq,
        reduceCtorEq, or_false] at hs
      rcases hs with ⟨rfl, rfl⟩ | ⟨rfl, rfl⟩ | ⟨rfl, rfl⟩ | ⟨rfl, rfl⟩ | ⟨rfl, rfl⟩ | ⟨rfl, rfl⟩ |
        ⟨rfl, rfl⟩ <;> simp [Entered] at he ⊢
    · exact ⟨.inl ⟨c, m, hs⟩, fun _ => .inr (.inl ⟨m, rfl⟩)⟩
  · exact pushed_plain h hp

/-! ## Counting the releases -/

namespace State

/-- The thread that runs has been signalled if it wakes up in the loop. -/
def signalled (s : State) : Label → Bool
  | .call _ _ => true
  | .run t =>
      match (s.locals t).pending with
      | .condBlock _ :: _ => (s.determ.entries (s.locals t).threadIndex).status = .ready
      | _ => true

variable {s w : State} {t : Tid} {m : Obj} {rest : List Instr}

theorem signalled_condBlock (hp : (s.locals t).pending = .condBlock m :: rest) :
    s.signalled (.run t) = true ↔
      (s.determ.entries (s.locals t).threadIndex).status = .ready := by
  simp [signalled, hp]

/-- A turn of the loop. -/
theorem step_condBlock (hp : (s.locals t).pending = .condBlock m :: rest)
    (hs : s.step (.run t) = some w) :
    if (s.determ.entries (s.locals t).threadIndex).status = .ready then
      w.determ = s.determ ∧ (w.locals t).pending = rest
    else w.determ = s.determ.lockRelease m ∧ (w.locals t).pending = .condBlock m :: rest := by
  obtain ⟨i, is, d, l, -, hp', ho, rfl⟩ := step_run hs
  obtain ⟨rfl, rfl⟩ := List.cons.inj (hp.symm.trans hp')
  simp only [own] at ho
  split at ho <;> rename_i hr <;> cases ho
  · rw [if_pos hr]
    exact ⟨rfl, by simp⟩
  · rw [if_neg hr]
    exact ⟨rfl, by simp⟩

end State

theorem Determ.lockRelease_locks_iff {d : Determ} {m : Obj} :
    (d.lockRelease m).locks = d.locks ↔ d.acquired m = false := by
  unfold Determ.lockRelease Determ.acquired
  cases he : d.locks m with
  | none => simp
  | some e =>
      simp only [Determ.setLock, Option.any_some]
      constructor
      · intro h
        have := congrFun h m
        rw [Function.update_self, he, Option.some.injEq] at this
        rw [← this]
      · intro h
        have he' : { e with isAcquired := false } = e := by rw [← h]
        rw [he', ← he, Function.update_eq_self]

/-- The machine, and how often the `cond_wait` a thread is in, or was in last, has called
`lock_release`. -/
structure Calls where
  state : State
  released : Tid → ℕ

namespace Calls

/-- `condEnter` ends with the first turn of the loop, `condBlock` is another one. -/
def count (x : Calls) (t : Tid) : ℕ :=
  match (x.state.locals t).pending with
  | .condEnter _ _ :: _ => 1
  | .condBlock _ :: _ =>
      if (x.state.determ.entries (x.state.locals t).threadIndex).status = .ready then x.released t
      else x.released t + 1
  | _ => x.released t

def releasedAfter (x : Calls) : Label → Tid → ℕ
  | .call _ _ => x.released
  | .run t => Function.update x.released t (x.count t)

def step (x : Calls) (a : Label) : Option Calls :=
  (x.state.step a).map fun w => ⟨w, x.releasedAfter a⟩

/-- The step leaves every thread in `cond_wait` with one call of `lock_release`, and a wake-up of a
thread that is not signalled changes no lock. -/
def ReleasesOnce (x : Calls) (a : Label) : Prop :=
  ∀ y, x.step a = some y → (∀ t, Entered (y.state.locals t).pending → y.released t = 1) ∧
    (x.state.signalled a = false → y.state.determ.locks = x.state.determ.locks)

variable {x y w : Calls} {t : Tid} {a : Label}

theorem step_eq (h : x.step a = some y) :
    x.state.step a = some y.state ∧ y.released = x.releasedAfter a := by
  rw [step, Option.map_eq_some_iff] at h
  obtain ⟨s, hs, rfl⟩ := h
  exact ⟨hs, rfl⟩

/-! ## The law -/

/-- Every thread in `cond_wait` has called `lock_release` once. -/
structure Counted (x : Calls) : Prop where
  shape : ∀ t, WaitShape (x.state.locals t).pending
  once : ∀ t, Entered (x.state.locals t).pending → x.released t = 1

namespace Counted

theorem of_pending_nil (h : ∀ t, (x.state.locals t).pending = []) : x.Counted where
  shape t := .inr (by simp [h])
  once t he := by simp [Entered, h] at he

theorem call {op : Op} (h : x.Counted) (hs : x.step (.call t op) = some y) : y.Counted := by
  obtain ⟨hs, hr⟩ := step_eq hs
  obtain ⟨-, -, hy⟩ := State.step_call hs
  refine ⟨fun u => ?_, fun u he => ?_⟩
  · rw [hy, State.called_locals]
    split
    · exact program_shape _ op
    · exact h.shape u
  · rw [hy, State.called_locals] at he
    split at he
    · exact absurd he (program_not_entered _ op)
    · rw [hr]
      exact h.once u he

theorem childStart_shape (n : ℕ) : WaitShape (Local.childStart n) :=
  .inr (by simp [Local.childStart, Instr.plain])

theorem childStart_not_entered (n : ℕ) : ¬ Entered (Local.childStart n) := by
  simp [Entered, Local.childStart]

/-- A step of a thread that is not woken before its signal. -/
theorem count_of_signalled {i : Instr} {rest : List Instr} (hg : x.state.signalled (.run t) = true)
    (hp : (x.state.locals t).pending = i :: rest) :
    (∃ c m, i = .condEnter c m) ∧ x.count t = 1 ∨
      (∀ c m, i ≠ .condEnter c m) ∧ x.count t = x.released t := by
  unfold count
  rw [hp]
  cases i with
  | condEnter c m => exact .inl ⟨⟨c, m, rfl⟩, rfl⟩
  | condBlock m => exact .inr ⟨nofun, if_pos ((State.signalled_condBlock hp).mp hg)⟩
  | _ => exact .inr ⟨nofun, rfl⟩

theorem run (h : x.Counted) (hg : x.state.signalled (.run t) = true)
    (hs : x.step (.run t) = some y) : y.Counted := by
  obtain ⟨hs, hr⟩ := step_eq hs
  obtain ⟨i, rest, d, l, -, hp, ho, hy⟩ := State.step_run hs
  have hother : ∀ u, u ≠ t → WaitShape (y.state.locals u).pending ∧
      (Entered (y.state.locals u).pending → y.released u = 1) := by
    intro u hu
    rw [hy, hr, releasedAfter, Function.update_of_ne hu]
    simp only [Function.update_of_ne hu]
    rcases x.state.others_cases t i u with ho | ⟨ho, -⟩ | ⟨-, ho⟩ | ⟨-, ho⟩ <;> rw [ho]
    · exact ⟨h.shape u, h.once u⟩
    · exact ⟨h.shape u, h.once u⟩
    · exact ⟨childStart_shape _, fun he => absurd he (childStart_not_entered _)⟩
    · exact ⟨h.shape u, h.once u⟩
  have hself : WaitShape (y.state.locals t).pending ∧
      (Entered (y.state.locals t).pending → y.released t = 1) := by
    rw [hy, hr, releasedAfter, Function.update_self]
    simp only [Function.update_self]
    by_cases hx : i = .procExit
    · subst hx
      cases ho
      exact ⟨.inr (by simp), by simp [Entered]⟩
    obtain ⟨js, hjs, hl⟩ := State.own_pending ho hx
    obtain ⟨hshape, he⟩ := (hp ▸ h.shape t : WaitShape (i :: rest)).pushed hjs
    rw [hl]
    refine ⟨hshape, fun hent => ?_⟩
    rcases count_of_signalled hg hp with ⟨-, hc⟩ | ⟨hne, hc⟩
    · exact hc
    · rw [hc]
      obtain ⟨c, m, hi⟩ | hent := he hent
      · exact absurd hi (hne c m)
      · exact h.once t (hp ▸ hent)
  refine ⟨fun u => ?_, fun u => ?_⟩ <;> by_cases hu : u = t
  · exact hu ▸ hself.1
  · exact (hother u hu).1
  · exact hu ▸ hself.2
  · exact (hother u hu).2

theorem step (h : x.Counted) (hg : x.state.signalled a = true) (hs : x.step a = some y) :
    y.Counted := by
  cases a with
  | call t op => exact h.call hs
  | run t => exact h.run hg hs

/-- A wake-up before the signal is a second call of `lock_release`. -/
theorem released_twice (h : x.Counted) (hg : x.state.signalled a = false)
    (hs : x.step a = some y) :
    ∃ t, Entered (y.state.locals t).pending ∧ y.released t = 2 := by
  cases a with
  | call t op => cases hg
  | run t =>
      obtain ⟨hs, hr⟩ := step_eq hs
      obtain ⟨i, rest, -, -, -, hp, -⟩ := State.step_run hs
      obtain ⟨m, rfl⟩ : ∃ m, i = .condBlock m := by
        cases i with
        | condBlock m => exact ⟨m, rfl⟩
        | _ => simp [State.signalled, hp] at hg
      have hready : ¬ (x.state.determ.entries (x.state.locals t).threadIndex).status = .ready :=
        fun hready => by simp [(State.signalled_condBlock hp).mpr hready] at hg
      have hstep := State.step_condBlock hp hs
      rw [if_neg hready] at hstep
      refine ⟨t, .inl ⟨m, by rw [hstep.2]; rfl⟩, ?_⟩
      rw [hr, releasedAfter, Function.update_self, count, hp]
      simp only [if_neg hready]
      rw [h.once t (.inl ⟨m, by rw [hp]; rfl⟩)]

theorem releasesOnce_iff (h : x.Counted) (hs : x.step a = some y) :
    x.ReleasesOnce a ↔ x.state.signalled a = true := by
  constructor
  · intro ho
    by_contra hg
    rw [Bool.not_eq_true] at hg
    obtain ⟨t, he, hr⟩ := h.released_twice hg hs
    rw [(ho y hs).1 t he] at hr
    cases hr
  · intro hg z hz
    exact ⟨(h.step hg hz).once, fun hf => by rw [hg] at hf; cases hf⟩

end Counted

/-- In a run each wait releases its mutex once if and only if nobody is woken before its signal. A
wake-up that comes too early changes a lock if and only if the mutex is acquired by then. -/
theorem condWait_releases_once_iff {as : List Label} (hx : ∀ t, (x.state.locals t).pending = []) :
    (Run Calls.step (fun x a => x.ReleasesOnce a) x as w ↔
      Run Calls.step (fun x a => x.state.signalled a = true) x as w) ∧
    ∀ (s s' : State) (t : Tid) (m : Obj) (rest : List Instr), (s.locals t).pending = .condBlock m :: rest →
      s.signalled (.run t) = false → s.step (.run t) = some s' →
      (s'.determ.locks = s.determ.locks ↔ s.determ.acquired m = false) := by
  refine ⟨Run.guard_iff (fun x a w h hg hs => h.step hg hs) (fun x a w h hs => h.releasesOnce_iff hs)
    (Counted.of_pending_nil hx), fun s s' t m rest hp hg hs => ?_⟩
  have hready : ¬ (s.determ.entries (s.locals t).threadIndex).status = .ready :=
    fun hready => by simp [(State.signalled_condBlock hp).mpr hready] at hg
  have hstep := State.step_condBlock hp hs
  rw [if_neg hready] at hstep
  rw [hstep.1]
  exact Determ.lockRelease_locks_iff

/-- Threads 1 and 2 wait on condition variable 9 with mutex 0; thread 3 locks the mutex, and signals
while it is inside. -/
def signalInside : List Label :=
  .call 1 (.mutexLock 0) :: Label.runs 1 5 ++ .call 2 (.mutexLock 0) :: Label.runs 2 5 ++
  .call 3 (.mutexLock 0) :: Label.runs 3 5 ++ Label.runs 1 8 ++ .call 1 (.condWait 9 0) ::
  Label.runs 1 3 ++ Label.runs 2 8 ++ .call 2 (.condWait 9 0) :: Label.runs 2 3 ++ Label.runs 3 6 ++
  .call 3 (.condSignal 9) :: Label.runs 3 4

/-- Thread 1, which is signalled, goes on. -/
theorem condWait_releases_once_signalled : ∃ w,
    Run Calls.step (fun x a => x.ReleasesOnce a) ⟨State.ring 3 4, fun _ => 0⟩
      (signalInside ++ Label.runs 1 1) w ∧ Entered (w.state.locals 1).pending ∧ w.released 1 = 1 := by
  have hrun : (execGuarded Calls.step (fun x a => x.state.signalled a = true)
      ⟨State.ring 3 4, fun _ => 0⟩ (signalInside ++ Label.runs 1 1)).any
      (fun w => decide ((w.state.locals 1).pending.head? = some .condToken ∧ w.released 1 = 1)) =
      true := by decide +kernel
  obtain ⟨w, hr, hp, hw⟩ := exists_run_of_any hrun
  exact ⟨w, (condWait_releases_once_iff fun _ => rfl).1.mpr hr, .inr hp, hw⟩

/-- Thread 2, which the broadcast of the signal wakes as well, takes the mutex away from thread 3. -/
theorem condWait_releases_twice : ∃ w s,
    exec Calls.step ⟨State.ring 3 4, fun _ => 0⟩ signalInside = some w ∧
      w.step (.run 2) = some s ∧ ¬ w.ReleasesOnce (.run 2) ∧ s.released 2 = 2 ∧
      0 ∈ (s.state.locals 3).inside ∧ w.state.determ.acquired 0 = true ∧
      s.state.determ.acquired 0 = false := by
  have hrun : (exec Calls.step ⟨State.ring 3 4, fun _ => 0⟩ signalInside).any
      (fun w => decide (w.state.determ.acquired 0 = true ∧ (w.step (.run 2)).any fun s =>
        decide ((s.state.locals 2).pending.head? = some (.condBlock 0) ∧ s.released 2 = 2 ∧
          0 ∈ (s.state.locals 3).inside ∧ s.state.determ.acquired 0 = false))) = true := by
    decide +kernel
  obtain ⟨w, hw, ha, hs⟩ := exists_exec_of_any hrun
  obtain ⟨s, hs, hc⟩ := (Option.any_eq_true ..).mp hs
  obtain ⟨hp, htwo, hin, hfree⟩ := of_decide_eq_true hc
  refine ⟨w, s, hw, hs, fun ho => ?_, htwo, hin, ha, hfree⟩
  have hone := (ho s hs).1 2 (.inl ⟨0, hp⟩)
  rw [htwo] at hone
  cases hone

end Calls

end Dthreads.Scheduler
