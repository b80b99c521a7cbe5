import Dthreads.Scheduler.Joiners

/-! # Wake-ups

The threads that wait on a condition variable, and the thread that wakes them up. -/

namespace Dthreads.Scheduler

open Transition

/-! ## One call -/

/-- The thread is ready and in the token queue. -/
def Determ.Awake (d : Determ) (x : ℕ) : Prop :=
  (d.entries x).status = .ready ∧ ∃ L, d.Lists .active L ∧ x ∈ L

/-- The waiting threads that a signal is for, and those that a broadcast is for. -/
def chosen (all : Bool) (W : List ℕ) (x : ℕ) : Prop := if all then x ∈ W else W.head? = some x

theorem chosen.mem {all : Bool} {W : List ℕ} {x : ℕ} (h : chosen all W x) : x ∈ W := by
  unfold chosen at h
  split at h
  · exact h
  · exact List.mem_of_head? h

/-- The step of the call that wakes threads up. -/
def wakeInstr (all : Bool) (c : Obj) : Instr := if all then .condBroadcast c else .condSignal c

namespace State

/-- While `t` runs its operation it is not killed, and the thread with index `x` is not cancelled. -/
def During (t : Tid) (x : ℕ) (s : State) (a : Label) : Prop :=
  s.Next Regular a ∧ (s.locals t).live = true ∧ (∀ op, a ≠ .call t op) ∧
    s.Next (fun s _ i => ∀ v, i = .detCancel v → (s.locals v).threadIndex ≠ x) a

/-- When the operation that `t` calls has returned, the thread with index `x` has woken up. -/
def Delivers (s : State) (t : Tid) (op : Op) (x : ℕ) : Prop :=
  ∀ as w, Run State.step (During t x) (s.called t op) as w → (w.locals t).live = true →
    (w.locals t).pending = [] →
    ∃ cs u, cs <+: as ∧ Transition.exec State.step (s.called t op) cs = some u ∧ u.determ.Awake x

/-! ## While the thread waits -/

variable {s w : State} {t u : Tid} {rest : List Instr} {i : Instr} {d : Determ} {l : Local}
  {ls ls' : Queue → List ℕ} {all : Bool} {c : Obj} {x : ℕ}

theorem Placed.awake (h : Placed s ls) (hs : (s.determ.entries x).status = .ready)
    (hx : x ∈ ls .active) : s.determ.Awake x :=
  ⟨hs, _, h.queued.lists .active, hx⟩

/-- A step does not end a thread that waits on a condition variable, unless it cancels it. -/
theorem Placed.not_exit (h : Placed s ls) (hl : (s.locals t).live = true)
    (hp : (s.locals t).pending = i :: rest) (ho : s.own t rest i = some (d, l))
    (hreg : s.Regular t i) (hv : ∀ v, i = .detCancel v → (s.locals v).threadIndex ≠ x)
    (hx : x ∈ ls (.cond c)) : (d.entries x).status ≠ .exit := by
  have hw : (s.determ.entries x).status = .condWaiting := (h.queued.fits _ x hx).1
  intro he
  by_cases hc : ∃ p, i = .childRegister p
  · obtain ⟨p, rfl⟩ := hc
    cases ho
    have hr : (((s.determ.childRegister (s.locals t) t p rest).1.entries x).role =
        if x = s.determ.threadIndex then _ else (s.determ.entries x).role) :=
      Determ.Queued.registerThread_role ..
    split at hr
    · exact absurd ((congrArg Prod.fst hr).symm.trans he) nofun
    · exact absurd (hw.symm.trans ((role_status hr).symm.trans he)) nofun
  · rcases own_role ho (fun p hip => hc ⟨p, hip⟩) x with
      hr | ⟨hne, -⟩ | ⟨_, _, -, -, -, -, hj⟩ | ⟨rfl, hmy, -⟩ | ⟨v, hi, hmy, -⟩
    · exact absurd (((role_status hr).trans hw).symm.trans he) nofun
    · exact hne he
    · exact absurd (hj.symm.trans he) nofun
    · have hat := h.place t hl
      rw [hp, ← hmy] at hat
      exact absurd (h.queued.linking.disjoint hx (show x ∈ ls .active from hat)) nofun
    · exact hv v hi hmy.symm

/-- A waiting thread goes on waiting at its place, or wakes up. -/
theorem Placed.waits (h : Placed s ls) (hl : (s.locals t).live = true)
    (hp : (s.locals t).pending = i :: rest) (ho : s.own t rest i = some (d, l))
    (hreg : s.Regular t i) (hv : ∀ v, i = .detCancel v → (s.locals v).threadIndex ≠ x)
    (hw : Placed ⟨d, Function.update (s.others t i) t l, s.created i⟩ ls')
    (hs : Determ.Shift l.threadIndex s.determ ls d ls') (hx : chosen all (ls (.cond c)) x) :
    chosen all (ls' (.cond c)) x ∨ d.Awake x := by
  have hne := h.not_exit hl hp ho hreg hv hx.mem
  cases all with
  | false =>
      rcases hs.front c x hx with hf | ⟨hr, ha⟩ | he
      · exact .inl hf
      · exact .inr (hw.awake hr ha)
      · exact absurd he hne
  | true =>
      have hx : x ∈ ls (.cond c) := hx
      obtain ⟨hst, hc⟩ := h.queued.fits _ x hx
      have hsame : (d.entries x).role = (s.determ.entries x).role → x ∈ ls' (.cond c) := fun hr =>
        hw.queued.waiting x c ((role_status hr).trans hst) ((role_cond hr).trans hc)
      by_cases hmy : x = l.threadIndex
      · refine .inl (hsame ?_)
        by_cases hreg' : ∃ p, i = .childRegister p
        · obtain ⟨p, rfl⟩ := hreg'
          cases ho
          have hun := hreg.2.1.1
          rw [← show x = s.determ.threadIndex from hmy] at hun
          rcases hun with he | ⟨-, hn⟩
          · exact absurd (hst.symm.trans he) nofun
          · exact absurd (hc.symm.trans hn) nofun
        · have hreg'' : ∀ p, i ≠ .childRegister p := fun p hip => hreg' ⟨p, hip⟩
          by_cases hq : touchesQueues i = false
          · exact (own_same ho hq).role x
          exfalso
          have hidx := (own_entries ho hreg'').2.1
          rw [hidx] at hmy
          have ht := h.touches hl hp hreg'' (Bool.eq_true_of_not_eq_false hq)
          rw [← hmy] at ht
          rcases ht with ha | ⟨b, hb⟩ | hj
          · exact absurd (h.queued.linking.disjoint hx ha) nofun
          · exact absurd (h.queued.linking.disjoint hx hb) nofun
          · exact absurd (hst.symm.trans hj) nofun
      · rcases hs.role x hmy with hr | ⟨-, ⟨hr, ha⟩ | he⟩
        · exact .inl (hsame hr)
        · exact .inr (hw.awake hr ha)
        · exact absurd he hne

/-- The step that wakes the threads up. -/
theorem Placed.wakes (h : Placed s ls) (hl : (s.locals t).live = true)
    (hp : (s.locals t).pending = wakeInstr all c :: rest)
    (ho : s.own t rest (wakeInstr all c) = some (d, l)) (hx : chosen all (ls (.cond c)) x) :
    d.Awake x := by
  have hat := h.place t hl
  rw [hp] at hat
  cases all with
  | false =>
      cases ho
      obtain ⟨ls', hq, -, hr, ha⟩ := h.queued.condSignal (List.ne_nil_of_mem hat) hx
      exact ⟨hr, _, hq.lists .active, ha⟩
  | true =>
      cases ho
      obtain ⟨ls', hq, -, hall⟩ := h.queued.condBroadcast (List.ne_nil_of_mem hat)
        (List.ne_nil_of_mem hx)
      exact ⟨(hall x hx).1, _, hq.lists .active, (hall x hx).2⟩

/-! ## The call -/

/-- The thread with index `x` waits, and `t` has yet to wake it up. -/
def Pends (s : State) (t : Tid) (all : Bool) (c : Obj) (x : ℕ) : Prop :=
  ∃ ls, Placed s ls ∧ chosen all (ls (.cond c)) x ∧
    ((s.locals t).live = true → wakeInstr all c ∈ (s.locals t).pending)

/-- Another process leaves what a live process has to do. -/
theorem others_pending (ho : s.own t rest i = some (d, l)) (hu : (s.locals u).live = true) :
    (s.others t i u).pending = (s.locals u).pending := by
  rcases s.others_cases t i u with h | ⟨h, -⟩ | ⟨rfl, -⟩ | ⟨-, h⟩
  · rw [h]
  · rw [h]
  · simp only [own, Option.ite_none_right_eq_some] at ho
    rw [ho.1.2] at hu
    cases hu
  · rw [h]

theorem Pends.step {a : Label} (h : Pends s t all c x) (hg : During t x s a)
    (hs : s.step a = some w) : Pends w t all c x ∨ w.determ.Awake x := by
  obtain ⟨ls, hpl, hx, hi⟩ := h
  obtain ⟨hreg, hlive, hnc, hv⟩ := hg
  cases a with
  | call u op =>
      obtain ⟨hl, hp, rfl⟩ := step_call hs
      have hut : t ≠ u := fun he => hnc op (he ▸ rfl)
      refine .inl ⟨ls, hpl.called hl hp, hx, fun hlv => ?_⟩
      rw [called_locals, if_neg hut] at hlv ⊢
      exact hi hlv
  | run u =>
      obtain ⟨i, rest, d, l, hl, hp, ho, rfl⟩ := step_run hs
      have hri : s.Regular u i := hreg i (by simp [hp])
      have hvi : ∀ v, i = .detCancel v → (s.locals v).threadIndex ≠ x := hv i (by simp [hp])
      obtain ⟨ls', hw, hsh⟩ := hpl.ran hl hp hri ho
      by_cases hwake : u = t ∧ i = wakeInstr all c
      · obtain ⟨rfl, rfl⟩ := hwake
        exact .inr (hpl.wakes hl hp ho hx)
      refine (hpl.waits hl hp ho hri hvi hw hsh hx).imp_left fun hx' => ⟨ls', hw, hx', fun hlv => ?_⟩
      by_cases hut : t = u
      · subst hut
        simp only [Function.update_self] at hlv ⊢
        have hpe : i ≠ .procExit := by
          rintro rfl
          cases ho
          cases hlv
        obtain ⟨js, -, hlp⟩ := own_pending ho hpe
        have hm := hi hl
        rw [hp] at hm
        rw [hlp]
        refine List.mem_append_right js ((List.mem_cons.mp hm).resolve_left fun he => ?_)
        exact hwake ⟨rfl, he.symm⟩
      · simp only [Function.update_of_ne hut]
        rw [others_pending ho hlive]
        exact hi hlive

/-- The thread waits until the call wakes it up. -/
theorem Pends.run {as : List Label} (h : Pends s t all c x) (hr : Run State.step (During t x) s as w) :
    Pends w t all c x ∨ ∃ cs u, cs <+: as ∧ Transition.exec State.step s cs = some u ∧ u.determ.Awake x := by
  induction hr with
  | nil => exact .inl h
  | snoc hr hg hs ih =>
      rcases ih with hp | ⟨cs, u, hcs, he, ha⟩
      · refine (hp.step hg hs).imp_right fun ha => ⟨_, _, List.prefix_rfl, ?_, ha⟩
        rw [exec_append, hr.exec_eq, Option.bind_some, exec_cons, hs]
        rfl
      · exact .inr ⟨cs, u, hcs.trans (List.prefix_append ..), he, ha⟩

end State

/-! ## The law -/

end Dthreads.Scheduler
