import Dthreads.Scheduler.Steps

/-! # Mutual exclusion

A thread is inside a mutex from the moment `lock_acquire` succeeds for it, or `cond_wait` returns
to it, until `lock_release` runs for it. -/

namespace Dthreads.Scheduler

open Transition

/-- The mutex whose `is_acquired` an instruction sets. -/
def lockSetOf : Instr → Option Obj
  | .lockSet m _ => some m
  | _ => none

namespace State

/-- Process `u` has found `m` free and is about to set `is_acquired`. -/
def acquiring (s : State) (u : Tid) (m : Obj) : Prop :=
  (s.locals u).live = true ∧ (s.locals u).pending.head?.bind lockSetOf = some m

instance (s : State) (u : Tid) (m : Obj) : Decidable (s.acquiring u m) :=
  inferInstanceAs (Decidable (_ ∧ _))

/-- Process `u` is inside `m`, or about to be. -/
def owns (s : State) (u : Tid) (m : Obj) : Prop := m ∈ (s.locals u).inside ∨ s.acquiring u m

end State

/-! ## The condition -/

/-- The program uses mutexes properly: with the fence enabled, a thread unlocks a mutex or waits
on a condition variable only while it is inside. -/
def proper (s : State) : Label → Bool
  | .call t (.mutexUnlock m) => (s.locals t).fenceEnabled ∧ m ∈ (s.locals t).inside
  | .call t (.condWait _ m) => (s.locals t).fenceEnabled ∧ m ∈ (s.locals t).inside
  | .call t _ => (s.locals t).fenceEnabled
  | .run _ => true

/-- The owner of `m` has no budget left and is not alone, so that `lock_acquire` fails. -/
def exhausted (d : Determ) (m : Obj) (pid : Tid) : Bool :=
  (d.locks m).all fun e =>
    e.totalUsers = 1 ∧ e.lastThread = pid ∧ e.lockBudget = 1 ∧ ¬ d.isSingleWorkingThread

/-- No two threads are between the test and the set of one mutex, `cond_wait` finds its mutex
free and the caller has a budget for it, a thread that wakes up in `cond_wait` without being
signalled finds its mutex free, and so does `mutex_init`. -/
def clear (s : State) : Label → Bool
  | .call _ _ => true
  | .run t =>
      match (s.locals t).pending with
      | .lockTest m k :: _ =>
          if s.determ.acquired m then k ≠ .condWait else ∀ u ∈ s.procs, ¬ s.acquiring u m
      | .lockSet m .condWait :: _ => !exhausted s.determ m t
      | .condBlock m :: _ =>
          (s.determ.entries (s.locals t).threadIndex).status = .ready ∨ ¬ s.determ.acquired m
      | .mutexInit m :: _ => ¬ s.determ.acquired m
      | _ => true

theorem lockSet_of_not_exhausted {d : Determ} {m : Obj} {pid : Tid}
    (h : exhausted d m pid = false) : (d.lockSet m pid).2 = true := by
  unfold Determ.lockSet
  cases he : d.locks m with
  | none => simp [exhausted, he] at h
  | some e =>
      simp only [exhausted, he, Option.all_some, decide_eq_false_iff_not] at h
      simp only [LockEntry.acquire]
      split
      · rfl
      · split
        · split
          · rfl
          · split
            · rename_i hu hl hb
              split
              · rfl
              · rename_i hs
                exact absurd ⟨hu, not_not.mp hl, by omega, hs⟩ h
            · rfl
        · rfl

/-! ## Pending instructions -/

/-- The mutexes a list of instructions releases. -/
def releases (is : List Instr) : List Obj := is.filterMap releasesOf

theorem releases_append (is js : List Instr) : releases (is ++ js) = releases is ++ releases js :=
  List.filterMap_append

theorem releases_cons (i : Instr) (is : List Instr) :
    releases (i :: is) = (releasesOf i).toList ++ releases is := by
  unfold releases
  cases h : releasesOf i <;> simp [h]

/-- What is pushed releases nothing, and sets `is_acquired` only first, after a test. -/
theorem Pushes.spec {l : Local} {i : Instr} {js : List Instr} (h : Pushes l i js) :
    releases js = [] ∧ (∀ j ∈ js.tail, lockSetOf j = none) ∧
      ∀ m, js.head?.bind lockSetOf = some m → ∃ k, i = .lockTest m k ∧ js = [.lockSet m k] := by
  cases h with
  | again m =>
      unfold Local.getLockAgain
      split <;> simp [releases, releasesOf, lockSetOf, Local.waitToken, Local.waitFence]
  | endCritical =>
      unfold Local.endCriticalSection
      split <;> simp [releases, releasesOf, lockSetOf, Local.waitFence]
  | free m k => simp [releases, releasesOf, lockSetOf]
  | taken m k =>
      cases k <;> simp [Local.lockFailed, releases, releasesOf, lockSetOf, Local.waitFence]
  | exhausted m k =>
      cases k <;> simp [Local.lockFailed, releases, releasesOf, lockSetOf, Local.waitFence]
  | _ => simp [releases, releasesOf, lockSetOf]

/-- An operation releases at most the mutex it is called with. -/
theorem program_spec (l : Local) (op : Op) :
    (releases (l.program op) = [] ∨ ∃ m, (op = .mutexUnlock m ∨ ∃ c, op = .condWait c m) ∧
      releases (l.program op) = [m]) ∧
    ∀ j ∈ l.program op, lockSetOf j = none := by
  cases op with
  | mutexUnlock m =>
      simp only [Local.program, Local.mutexUnlock]
      split
      · exact ⟨.inr ⟨m, .inl rfl, rfl⟩, by simp [lockSetOf]⟩
      · simp [releases]
  | condWait c m =>
      exact ⟨.inr ⟨m, .inr ⟨c, rfl⟩, rfl⟩, by simp [Local.program, Local.condWait, lockSetOf]⟩
  | mutexLock m =>
      simp only [Local.program, Local.mutexLock, Local.wakeChildren]
      split
      · simp [releases, releasesOf, lockSetOf]
      · split <;> simp [releases, releasesOf, lockSetOf]
  | barrierWait b =>
      simp only [Local.program, Local.barrierWait, Local.wakeChildren]
      split
      · simp [releases, releasesOf, lockSetOf, Local.waitToken, Local.waitFence]
      · split <;> simp [releases, releasesOf, lockSetOf, Local.waitToken, Local.waitFence]
  | condSignal c =>
      simp only [Local.program, Local.condSignal, Local.underToken]
      split
      · split <;> simp [releases, releasesOf, lockSetOf, Local.waitToken, Local.waitFence]
      · simp [releases]
  | condBroadcast c =>
      simp only [Local.program, Local.condBroadcast, Local.underToken]
      split
      · split <;> simp [releases, releasesOf, lockSetOf, Local.waitToken, Local.waitFence]
      · simp [releases]
  | cancel v =>
      simp only [Local.program, Local.cancel, Local.underToken]
      split <;> simp [releases, releasesOf, lockSetOf, Local.waitToken, Local.waitFence]
  | spawn child =>
      simp only [Local.program, Local.spawn]
      split <;> split <;> simp [releases, releasesOf, lockSetOf, Local.waitToken, Local.waitFence]
  | join v =>
      simp only [Local.program, Local.join]
      split <;> simp [releases, releasesOf, lockSetOf, Local.waitToken, Local.waitFence]
  | threadDeregister =>
      simp [Local.program, Local.threadDeregister, releases, releasesOf, lockSetOf, Local.waitToken,
        Local.waitFence]
  | mutexInit m => simp [Local.program, releases, releasesOf, lockSetOf]
  | condInit c => simp [Local.program, releases, releasesOf, lockSetOf]
  | barrierInit b n => simp [Local.program, releases, releasesOf, lockSetOf]

/-- A thread that is about to release a mutex is inside it. -/
def Local.ReleasesHeld (l : Local) : Prop :=
  releases l.pending = [] ∨ ∃ m ∈ l.inside, releases l.pending = [m]

theorem releasesHeld_program {l : Local} {op : Op}
    (h : ∀ m, (op = .mutexUnlock m ∨ ∃ c, op = .condWait c m) → m ∈ l.inside) :
    (l.goto (l.program op)).ReleasesHeld := by
  rcases (program_spec l op).1 with hr | ⟨m, hop, hr⟩
  · exact .inl hr
  · exact .inr ⟨m, h m hop, hr⟩

/-! ## The invariant -/

structure Exclusive (s : State) : Prop where
  procs : ∀ t, (s.locals t).live = true → t ∈ s.procs
  acquired : ∀ t, ∀ m ∈ (s.locals t).inside, s.determ.acquired m = true
  unique : ∀ t u m, s.owns t m → s.owns u m → t = u
  fresh : ∀ t m, s.acquiring t m → m ∉ (s.locals t).inside
  nodup : ∀ t, (s.locals t).inside.Nodup
  /-- A thread that is about to release a mutex is inside it. -/
  releasing : ∀ t, releases (s.locals t).pending = [] ∨
    ∃ m ∈ (s.locals t).inside, releases (s.locals t).pending = [m]
  /-- `is_acquired` is set right after the test. -/
  tail : ∀ t, ∀ j ∈ (s.locals t).pending.tail, lockSetOf j = none

namespace Exclusive

variable {s s' : State} {t u : Tid} {m : Obj}

/-- At most one thread is inside a mutex. -/
theorem inside_unique (h : Exclusive s) (ht : m ∈ (s.locals t).inside) (hu : m ∈ (s.locals u).inside) :
    t = u :=
  h.unique t u m (.inl ht) (.inl hu)

/-! ## The steps -/

theorem call {op : Op} (h : Exclusive s) (hp : proper s (.call t op) = true)
    (hs : s.step (.call t op) = some s') : Exclusive s' := by
  obtain ⟨-, hnil, rfl⟩ := State.step_call hs
  have hset := (program_spec (s.locals t) op).2
  have hinside : ∀ u, ((s.called t op).locals u).inside = (s.locals u).inside := fun u => by
    rw [State.called_locals]
    split
    · rename_i hu
      rw [hu, Local.goto_inside]
    · rfl
  have hlive : ∀ u, ((s.called t op).locals u).live = (s.locals u).live := fun u => by
    rw [State.called_locals]
    split
    · rename_i hu
      rw [hu]
      rfl
    · rfl
  have hacq : ∀ u m, (s.called t op).acquiring u m → s.acquiring u m := by
    rintro u m ⟨hl, ha⟩
    rw [hlive] at hl
    refine ⟨hl, ?_⟩
    rw [State.called_locals] at ha
    split at ha
    · rw [Local.goto_pending, Option.bind_eq_some_iff] at ha
      obtain ⟨j, hj, ha⟩ := ha
      rw [hset j (List.mem_of_head? hj)] at ha
      cases ha
    · exact ha
  have howns : ∀ u m, (s.called t op).owns u m → s.owns u m := by
    rintro u m (ho | ho)
    · exact .inl (hinside u ▸ ho)
    · exact .inr (hacq u m ho)
  exact
    { procs := fun u hu => h.procs u (hlive u ▸ hu)
      acquired := fun u m hm => h.acquired u m (hinside u ▸ hm)
      unique := fun a b m ha hb => h.unique a b m (howns a m ha) (howns b m hb)
      fresh := fun u m ha => hinside u ▸ h.fresh u m (hacq u m ha)
      nodup := fun u => hinside u ▸ h.nodup u
      releasing := fun u => by
        rw [hinside, State.called_locals]
        split
        · rename_i hu
          subst hu
          refine releasesHeld_program ?_
          rintro m (rfl | ⟨c, rfl⟩) <;> simp only [proper, decide_eq_true_eq] at hp <;> exact hp.2
        · exact h.releasing u
      tail := fun u j hj => by
        rw [State.called_locals] at hj
        split at hj
        · exact hset j (List.mem_of_mem_tail hj)
        · exact h.tail u j hj }

/-- Another process keeps what it is inside and what it is about to do, or it has just been
forked. -/
theorem others_spec (s : State) (t : Tid) (i : Instr) (u : Tid) :
    ((s.others t i u).inside = (s.locals u).inside ∧
      (s.others t i u).pending = (s.locals u).pending ∧
      ((s.others t i u).live = true → (s.locals u).live = true)) ∨
    (i = .forkSpawn u ∧ (s.others t i u).inside = [] ∧
      ∃ n, (s.others t i u).pending = Local.childStart n) := by
  rcases s.others_cases t i u with h | ⟨h, -⟩ | ⟨hi, h⟩ | ⟨-, h⟩
  · exact .inl (by simp [h])
  · exact .inl (by simp [h])
  · exact .inr ⟨hi, by rw [h]; rfl, (s.locals t).threadIndex, by rw [h]; rfl⟩
  · exact .inl (by simp [h])

/-- How a thread gets inside a mutex. -/
theorem insideAfter_cases {i : Instr} (hm : m ∈ s.insideAfter t i) :
    m ∈ (s.locals t).inside ∨ lockSetOf i = some m ∨
      (i = .lockTest m .condWait ∧ s.determ.acquired m = true) := by
  cases i with
  | lockTest m' k =>
      cases k with
      | condWait =>
          simp only [State.insideAfter] at hm
          split at hm
          · rename_i ha
            rcases List.mem_cons.mp hm with rfl | hm
            · exact .inr (.inr ⟨rfl, ha⟩)
            · exact .inl hm
          · exact .inl hm
      | direct => exact .inl hm
      | retry => exact .inl hm
  | lockSet m' k =>
      simp only [State.insideAfter] at hm
      split at hm
      · rcases List.mem_cons.mp hm with rfl | hm
        · exact .inr (.inl rfl)
        · exact .inl hm
      · exact .inl hm
  | lockRelease m' => exact .inl (List.mem_of_mem_erase hm)
  | condEnter c m' => exact .inl (List.mem_of_mem_erase hm)
  | _ => exact .inl hm

/-- The test of `is_acquired`. -/
theorem own_lockTest {k : Caller} {rest : List Instr} {d : Determ} {l : Local}
    (h : s.own t rest (.lockTest m k) = some (d, l)) :
    l.pending = if s.determ.acquired m then Local.lockFailed m k ++ rest else .lockSet m k :: rest := by
  simp only [State.own, Determ.lockTest_snd] at h
  cases ha : s.determ.acquired m <;> simp only [ha, Bool.not_true, Bool.not_false] at h <;> cases h <;>
    rfl

theorem mem_insideAfter {i : Instr} (hi : releasesOf i = none) (hm : m ∈ (s.locals t).inside) :
    m ∈ s.insideAfter t i := by
  cases i with
  | lockTest m' k =>
      cases k with
      | condWait =>
          simp only [State.insideAfter]
          split
          · exact List.mem_cons_of_mem _ hm
          · exact hm
      | direct => exact hm
      | retry => exact hm
  | lockSet m' k =>
      simp only [State.insideAfter]
      split
      · exact List.mem_cons_of_mem _ hm
      · exact hm
  | lockRelease m' => cases hi
  | condEnter c m' => cases hi
  | _ => exact hm

section Run

variable {i : Instr} {rest : List Instr} {d : Determ} {l : Local}

/-- The state after the instruction `i` of `t`. -/
def ran (s : State) (t : Tid) (i : Instr) (d : Determ) (l : Local) : State :=
  ⟨d, Function.update (s.others t i) t l, s.created i⟩

theorem ran_self : (ran s t i d l).locals t = l := Function.update_self ..

theorem ran_of_ne (hu : u ≠ t) : (ran s t i d l).locals u = s.others t i u :=
  Function.update_of_ne hu ..

/-- What is left of the instructions. -/
theorem own_pending_spec (ho : s.own t rest i = some (d, l)) :
    ∃ js rest', l.pending = js ++ rest' ∧ (rest' = rest ∨ rest' = []) ∧ releases js = [] ∧
      (∀ j ∈ js.tail, lockSetOf j = none) ∧
      ∀ m, js.head?.bind lockSetOf = some m → ∃ k, i = .lockTest m k := by
  by_cases hi : i = .procExit
  · subst hi
    cases ho
    exact ⟨[], [], rfl, .inr rfl, rfl, by simp, by simp⟩
  · obtain ⟨js, hjs, hl⟩ := State.own_pending ho hi
    obtain ⟨hr, ht, hh⟩ := hjs.spec
    exact ⟨js, rest, hl, .inl rfl, hr, ht, fun m hm => (hh m hm).imp fun k hk => hk.1⟩

theorem releasesHeld_own (hr : (s.locals t).ReleasesHeld) (hpend : (s.locals t).pending = i :: rest)
    (ho : s.own t rest i = some (d, l)) : l.ReleasesHeld := by
  obtain ⟨js, rest', hl, hrest, hjs, -, -⟩ := own_pending_spec ho
  rw [Local.ReleasesHeld, hl, releases_append, hjs, List.nil_append, State.own_inside ho]
  rcases hrest with rfl | rfl
  · rw [Local.ReleasesHeld, hpend, releases_cons] at hr
    cases hi : releasesOf i with
    | none =>
        rw [hi] at hr
        exact hr.imp_right fun ⟨m, hm, hr⟩ => ⟨m, mem_insideAfter hi hm, hr⟩
    | some m =>
        rw [hi] at hr
        rcases hr with hr | ⟨m', -, hr⟩
        · cases hr
        · exact .inl (List.cons.inj hr).2
  · exact .inl rfl

theorem releasesHeld_others (hr : (s.locals u).ReleasesHeld) : (s.others t i u).ReleasesHeld := by
  rcases others_spec s t i u with ⟨hi, hpe, -⟩ | ⟨-, -, n, hpe⟩
  · rw [Local.ReleasesHeld, hi, hpe]
    exact hr
  · rw [Local.ReleasesHeld, hpe]
    exact .inl rfl

variable (h : Exclusive s) (hpend : (s.locals t).pending = i :: rest)
  (ho : s.own t rest i = some (d, l))
include h hpend ho

/-- A thread is about to set `is_acquired` only after the test. -/
theorem acquiring_ran (ha : (ran s t i d l).acquiring u m) :
    (u ≠ t ∧ s.acquiring u m) ∨ (u = t ∧ s.determ.acquired m = false ∧ ∃ k, i = .lockTest m k) := by
  obtain ⟨hlive, ha⟩ := ha
  by_cases hu : u = t
  · subst hu
    rw [ran_self] at ha
    obtain ⟨js, rest', hl, hrest, -, -, hhead⟩ := own_pending_spec ho
    cases js with
    | nil =>
        rw [hl, List.nil_append, Option.bind_eq_some_iff] at ha
        obtain ⟨j, hj, hset⟩ := ha
        rcases hrest with rfl | rfl
        · have := h.tail u j (by rw [hpend]; exact List.mem_of_head? hj)
          rw [this] at hset
          cases hset
        · cases hj
    | cons j js =>
        rw [hl] at ha
        obtain ⟨k, rfl⟩ := hhead m ha
        refine .inr ⟨rfl, ?_, k, rfl⟩
        cases hacq : s.determ.acquired m with
        | false => rfl
        | true =>
            have hl' := own_lockTest ho
            rw [hacq, if_pos rfl] at hl'
            rw [hl.symm.trans hl'] at ha
            cases k <;> simp [Local.lockFailed, lockSetOf] at ha
            · rw [Option.bind_eq_some_iff] at ha
              obtain ⟨j, hj, hset⟩ := ha
              have := h.tail u j (by rw [hpend]; exact List.mem_of_head? hj)
              rw [this] at hset
              cases hset
  · rw [ran_of_ne hu] at ha hlive
    rcases others_spec s t i u with ⟨-, hp, hlv⟩ | ⟨-, -, n, hp⟩
    · exact .inl ⟨hu, hlv hlive, hp ▸ ha⟩
    · rw [hp] at ha
      cases ha

omit h hpend in
/-- A thread gets inside a mutex by setting `is_acquired`. -/
theorem inside_ran (hc : ∀ k, i = .lockTest m k → s.determ.acquired m = true → k ≠ .condWait)
    (hm : m ∈ ((ran s t i d l).locals u).inside) :
    m ∈ (s.locals u).inside ∨ (u = t ∧ lockSetOf i = some m) := by
  by_cases hu : u = t
  · subst hu
    rw [ran_self, State.own_inside ho] at hm
    rcases insideAfter_cases hm with hm | hm | ⟨hi, ha⟩
    · exact .inl hm
    · exact .inr ⟨rfl, hm⟩
    · exact absurd rfl (hc _ hi ha)
  · rw [ran_of_ne hu] at hm
    rcases others_spec s t i u with ⟨hi, -⟩ | ⟨-, hi, -⟩
    · exact .inl (hi ▸ hm)
    · rw [hi] at hm
      cases hm

/-- The thread that releases a mutex leaves it, and no other thread is inside. -/
theorem not_inside_erase (hi : releasesOf i = some m) (herase : s.insideAfter t i =
    (s.locals t).inside.erase m) (hm : m ∈ (s.locals u).inside) :
    m ∉ ((ran s t i d l).locals u).inside := by
  have hin : m ∈ (s.locals t).inside := by
    rcases h.releasing t with hr | ⟨m', hm', hr⟩
    · rw [hpend, releases_cons, hi] at hr
      cases hr
    · rw [hpend, releases_cons, hi] at hr
      exact (List.cons.inj hr).1 ▸ hm'
  obtain rfl := h.inside_unique hm hin
  rw [ran_self, State.own_inside ho, herase]
  exact (h.nodup u).not_mem_erase

/-- A thread comes to own a mutex by finding it free. -/
theorem owns_ran (hc : ∀ k, i = .lockTest m k → s.determ.acquired m = true → k ≠ .condWait)
    (hlive : (s.locals t).live = true)
    (hm : (ran s t i d l).owns u m) :
    s.owns u m ∨ (u = t ∧ s.determ.acquired m = false ∧ ∃ k, i = .lockTest m k) := by
  rcases hm with hm | hm
  · rcases inside_ran ho hc hm with hm | ⟨rfl, hi⟩
    · exact .inl (.inl hm)
    · exact .inl (.inr ⟨hlive, by rw [hpend]; exact hi⟩)
  · rcases acquiring_ran h hpend ho hm with ⟨-, hm⟩ | hm
    · exact .inl (.inr hm)
    · exact .inr hm

/-- A mutex stays acquired while a thread is inside it. -/
theorem acquired_ran (hc : clear s (.run t) = true)
    (hlive : (s.locals t).live = true) (hm : m ∈ ((ran s t i d l).locals u).inside) :
    d.acquired m = true := by
  have hacqt : lockSetOf i = some m → s.acquiring t m := fun hi =>
    ⟨hlive, by rw [hpend]; exact hi⟩
  simp only [clear, hpend] at hc
  rw [State.own_acquired ho]
  rcases inside_ran ho (fun k hi ha => by subst hi; simpa [ha] using hc) hm with hm' | ⟨rfl, hi⟩
  · have hold := h.acquired u m hm'
    cases i with
    | lockSet m' k =>
        simp only [State.acquiredAfter]
        split
        · rename_i hmm
          subst hmm
          have ha := hacqt rfl
          have hut := h.unique u t m (.inl hm') (.inr ha)
          exact absurd (hut ▸ hm') (h.fresh t m ha)
        · exact hold
    | lockRelease m' =>
        simp only [State.acquiredAfter]
        split
        · rename_i hmm
          subst hmm
          exact absurd hm (h.not_inside_erase hpend ho rfl rfl hm')
        · exact hold
    | condEnter c m' =>
        simp only [State.acquiredAfter]
        split
        · rename_i hmm
          subst hmm
          exact absurd hm (h.not_inside_erase hpend ho rfl rfl hm')
        · exact hold
    | condBlock m' =>
        simp only [State.acquiredAfter]
        split
        · rename_i hmm
          obtain ⟨rfl, hns⟩ := hmm
          simp [hns, hold] at hc
        · exact hold
    | mutexInit m' =>
        simp only [State.acquiredAfter]
        split
        · rename_i hmm
          subst hmm
          simp [hold] at hc
        · exact hold
    | _ => exact hold
  · cases i with
    | lockSet m' k =>
        obtain rfl : m' = m := Option.some.inj hi
        simp only [State.acquiredAfter, if_true]
        have hin : m' ∈ s.insideAfter u (.lockSet m' k) := by
          rw [ran_self, State.own_inside ho] at hm
          exact hm
        simp only [State.insideAfter] at hin
        split at hin
        · rename_i hr
          rcases hr with hr | rfl
          · exact hr
          · exact lockSet_of_not_exhausted (by simpa using hc)
        · exact absurd hin (h.fresh u m' (hacqt rfl))
    | _ => cases hi

omit ho in
theorem nodup_insideAfter (hlive : (s.locals t).live = true)
    (hct : ∀ m k, i = .lockTest m k → s.determ.acquired m = true → k ≠ .condWait) :
    (s.insideAfter t i).Nodup := by
  cases i with
  | lockTest m' k =>
      cases k with
      | condWait =>
          simp only [State.insideAfter]
          split
          · rename_i ha
            exact absurd rfl (hct m' _ rfl ha)
          · exact h.nodup t
      | direct => exact h.nodup t
      | retry => exact h.nodup t
  | lockSet m' k =>
      simp only [State.insideAfter]
      split
      · exact List.nodup_cons.mpr
          ⟨h.fresh t m' ⟨hlive, by rw [hpend]; rfl⟩, h.nodup t⟩
      · exact h.nodup t
  | lockRelease m' => exact (h.nodup t).erase m'
  | condEnter c m' => exact (h.nodup t).erase m'
  | _ => exact h.nodup t

theorem tail_own : ∀ j ∈ l.pending.tail, lockSetOf j = none := by
  intro j hj
  obtain ⟨js, rest', hl, hrest, -, hjs, -⟩ := own_pending_spec ho
  have hold : ∀ j ∈ rest', lockSetOf j = none := by
    rcases hrest with rfl | rfl
    · intro j hj
      exact h.tail t j (by rw [hpend]; exact hj)
    · simp
  rw [hl] at hj
  cases js with
  | nil => exact hold j (List.mem_of_mem_tail hj)
  | cons a js =>
      rcases List.mem_append.mp hj with hj | hj
      · exact hjs j hj
      · exact hold j hj

/-- An instruction keeps the invariant. -/
theorem run (hc : clear s (.run t) = true) (hlive : (s.locals t).live = true) : Exclusive (ran s t i d l) := by
  have hct : ∀ m k, i = .lockTest m k → s.determ.acquired m = true → k ≠ .condWait := by
    rintro m k rfl ha
    simpa [clear, hpend, ha] using hc
  have hnew : ∀ m k, i = .lockTest m k → s.determ.acquired m = false → ∀ u, ¬ s.owns u m := by
    rintro m k rfl ha u (hu | hu)
    · simp [h.acquired u m hu] at ha
    · simp only [clear, hpend, ha] at hc
      exact of_decide_eq_true hc u (h.procs u hu.1) hu
  exact
    { procs := fun u hu => by
        by_cases hut : u = t
        · exact State.mem_created (h.procs u (hut ▸ hlive))
        · rw [ran_of_ne hut] at hu
          rcases others_spec s t i u with ⟨-, -, hl⟩ | ⟨rfl, -⟩
          · exact State.mem_created (h.procs u (hl hu))
          · simp only [ran, State.created]
            split
            · assumption
            · simp
      acquired := fun u m hm => h.acquired_ran hpend ho hc hlive hm
      unique := fun a b m ha hb => by
        rcases h.owns_ran hpend ho (hct m) hlive ha with ha' | ⟨rfl, hf, k, hi⟩ <;>
          rcases h.owns_ran hpend ho (hct m) hlive hb with hb' | ⟨rfl, hf', k', hi'⟩
        · exact h.unique a b m ha' hb'
        · exact absurd ha' (hnew m k' hi' hf' a)
        · exact absurd hb' (hnew m k hi hf b)
        · rfl
      fresh := fun u m ha hm => by
        rcases h.acquiring_ran hpend ho ha with ⟨hu, ha⟩ | ⟨rfl, hf, k, rfl⟩
        · rcases inside_ran ho (hct m) hm with hm | ⟨rfl, -⟩
          · exact h.fresh u m ha hm
          · exact hu rfl
        · rcases inside_ran ho (hct m) hm with hm | ⟨-, hi⟩
          · exact hnew m k rfl hf u (.inl hm)
          · cases hi
      nodup := fun u => by
        by_cases hu : u = t
        · subst hu
          rw [ran_self, State.own_inside ho]
          exact h.nodup_insideAfter hpend hlive hct
        · rw [ran_of_ne hu]
          rcases others_spec s t i u with ⟨hi, -⟩ | ⟨-, hi, -⟩
          · exact hi ▸ h.nodup u
          · exact hi ▸ List.nodup_nil
      releasing := fun u => by
        by_cases hu : u = t
        · subst hu
          rw [ran_self]
          exact releasesHeld_own (h.releasing u) hpend ho
        · rw [ran_of_ne hu]
          exact releasesHeld_others (h.releasing u)
      tail := fun u j hj => by
        by_cases hu : u = t
        · subst hu
          rw [ran_self] at hj
          exact h.tail_own hpend ho j hj
        · rw [ran_of_ne hu] at hj
          rcases others_spec s t i u with ⟨-, hpe, -⟩ | ⟨-, -, n, hpe⟩
          · exact h.tail u j (hpe ▸ hj)
          · rw [hpe] at hj
            simp only [Local.childStart, List.tail_cons, List.mem_cons, List.not_mem_nil,
              or_false] at hj
            rcases hj with rfl | rfl | rfl <;> rfl }

end Run

/-- A step under the condition keeps the invariant. -/
theorem step {a : Label} (h : Exclusive s) (hg : proper s a = true ∧ clear s a = true)
    (hs : s.step a = some s') : Exclusive s' := by
  cases a with
  | call t op => exact h.call hg.1 hs
  | run t =>
      obtain ⟨i, rest, d, l, hlive, hpend, ho, rfl⟩ := State.step_run hs
      exact h.run hpend ho hg.2 hlive

end Exclusive

/-! ## Mutual exclusion -/

/-- No process is inside an operation or a mutex. -/
structure Idle (s : State) : Prop where
  procs : ∀ t, (s.locals t).live = true → t ∈ s.procs
  inside : ∀ t, (s.locals t).inside = []
  pending : ∀ t, (s.locals t).pending = []

theorem Idle.exclusive {s : State} (h : Idle s) : Exclusive s where
  procs := h.procs
  acquired t m hm := by simp [h.inside] at hm
  unique t u m ht hu := by simp [State.owns, State.acquiring, h.inside, h.pending] at ht
  fresh t m _ := by simp [h.inside]
  nodup t := by simp [h.inside]
  releasing t := by simp [h.pending, releases]
  tail t j hj := by simp [h.pending] at hj

theorem idle_ring (n coresNumb : ℕ) : Idle (State.ring n coresNumb) where
  procs t ht := by
    have h : 1 ≤ t ∧ t ≤ n := of_decide_eq_true ht
    exact List.mem_range'_1.mpr ⟨h.1, Nat.lt_one_add_iff.mpr h.2⟩
  inside _ := rfl
  pending _ := rfl

/-- In a run under the condition at most one thread is inside a mutex. -/
theorem mutual_exclusion {s w : State} {ls : List Label} {t u : Tid} {m : Obj} (hs : Idle s)
    (hr : Run State.step (fun s a => proper s a = true ∧ clear s a = true) s ls w)
    (ht : m ∈ (w.locals t).inside) (hu : m ∈ (w.locals u).inside) : t = u :=
  (hr.invariant (fun _ _ _ h hg hs => h.step hg hs) hs.exclusive).inside_unique ht hu

/-- Thread 2 waits on condition variable 9 with mutex 0, which leaves thread 1 alone; thread 1
locks the mutex without the token. -/
def lonely : List Label :=
  .call 1 (.mutexLock 1) :: Label.runs 1 5 ++ .call 2 (.mutexLock 0) :: Label.runs 2 5 ++
  Label.runs 1 8 ++ .call 1 (.mutexUnlock 1) :: Label.runs 1 8 ++ Label.runs 2 6 ++
  .call 2 (.condWait 9 0) :: Label.runs 2 3 ++ Label.runs 1 2 ++
  .call 1 (.mutexLock 0) :: Label.runs 1 5

/-- Thread 1 unlocks the mutex before it signals: thread 2 returns from `cond_wait` alone. -/
theorem mutual_exclusion_signalled :
    ∃ w, Run State.step (fun s a => proper s a = true ∧ clear s a = true) (State.ring 2 4)
      (lonely ++ .call 1 (.mutexUnlock 0) :: Label.runs 1 3 ++
        .call 1 (.condSignal 9) :: Label.runs 1 8 ++ Label.runs 2 5) w ∧
      0 ∈ (w.locals 2).inside ∧ ∀ u, 0 ∈ (w.locals u).inside → u = 2 := by
  have hrun : (execGuarded State.step (fun s a => proper s a = true ∧ clear s a = true)
      (State.ring 2 4) (lonely ++ .call 1 (.mutexUnlock 0) :: Label.runs 1 3 ++
        .call 1 (.condSignal 9) :: Label.runs 1 8 ++ Label.runs 2 5)).any
      (fun w => decide (0 ∈ (w.locals 2).inside)) = true := by decide +kernel
  obtain ⟨w, hr, hm⟩ := exists_run_of_any hrun
  exact ⟨w, hr, hm, fun u hu => mutual_exclusion (idle_ring 2 4) hr hu hm⟩

/-- Thread 1 signals while it holds the mutex: `cond_wait` ignores that `lock_acquire` fails, and
both threads are inside. -/
theorem mutual_exclusion_lost :
    ¬ ∀ (s w : State) (ls : List Label), Idle s →
      Run State.step (fun s a => proper s a = true) s ls w →
      ∀ t u m, m ∈ (w.locals t).inside → m ∈ (w.locals u).inside → t = u := by
  intro h
  have hrun : (execGuarded State.step (fun s a => proper s a = true) (State.ring 2 4)
      (lonely ++ .call 1 (.condSignal 9) :: Label.runs 1 8 ++ Label.runs 2 4)).any
      (fun w => decide (0 ∈ (w.locals 1).inside ∧ 0 ∈ (w.locals 2).inside)) = true := by
    decide +kernel
  obtain ⟨w, hr, h1, h2⟩ := exists_run_of_any hrun
  exact absurd (h _ w _ (idle_ring 2 4) hr 1 2 0 h1 h2) (by decide)

end Dthreads.Scheduler
