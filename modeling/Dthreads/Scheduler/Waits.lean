import Dthreads.Scheduler.Token

/-! # Who waits for the token

Possession of the token is spread over `_tokenpos`, `_token_holding` and `_fence_enabled`. What an
instruction does to the flags of its thread depends on the instruction alone, so that the operations
can be followed thread by thread. -/

namespace Dthreads.Scheduler

open Transition

/-! ## The discipline -/

/-- A thread that starts with `tok` (it has the token), `flag` (`_token_holding`) and `fence`
(`_fence_enabled`) waits for the token only while it does not have it. If the set of threads is
`closed` (nobody is created or joined), it passes the token on only while it has it. At the end the
flags tell whether it has the token. -/
def Waits (closed : Prop) : Bool → Bool → Bool → List Instr → Prop
  | tok, flag, fence, [] =>
      (flag = true → tok = true ∧ fence = true) ∧ (tok = true → flag = true ∨ fence = false) ∧
        (closed → fence = true)
  | tok, flag, fence, i :: rest =>
      match i with
      | .fenceEnter keep => (keep = true → tok = false) ∧ Waits closed tok flag fence rest
      | .getToken | .condToken | .joinToken => Waits closed true flag fence rest
      | .joinBlock _ => ¬ closed ∧ Waits closed true flag fence rest
      | .putToken | .condEnter _ _ | .barrierEnter _ | .deregister =>
          (closed → tok = true) ∧ Waits closed false flag fence rest
      | .detJoin _ _ => ¬ closed ∧ Waits closed tok flag fence rest ∧ Waits closed true flag fence rest
      | .startFence => Waits closed tok flag true rest
      | .disableFence => Waits closed tok flag false rest
      | .closeIfSingle => Waits closed tok flag fence rest ∧ Waits closed tok flag false rest
      | .forkSpawn _ => ¬ closed ∧ Waits closed tok flag fence rest
      | .childRegister _ => ¬ closed ∧ tok = false ∧ Waits closed false false true rest
      | .setTokenHolding b => Waits closed tok b fence rest
      | .getLockAgain _ => tok = flag ∧ Waits closed true true fence rest
      | .lockIsowner _ | .isSingleWorkingThread _ | .lockTest _ .direct | .lockSet _ .direct =>
          tok = flag ∧ Waits closed tok flag fence rest ∧ Waits closed true true fence rest
      | .lockTest _ .retry | .lockSet _ .retry =>
          tok = true ∧ flag = true ∧ Waits closed true true fence rest
      | .endCriticalSection =>
          (flag = true → tok = true) ∧ Waits closed tok flag fence rest ∧
            Waits closed false false fence rest
      | .procExit => True
      | _ => Waits closed tok flag fence rest

/-- The retry loop of `mutex_lock` passes the token on before it waits for it again. -/
theorem Waits.again {closed : Prop} {tok flag fence : Bool} {m : Obj} {rest : List Instr}
    (h : Waits closed tok flag fence (.lockTest m .retry :: rest)) :
    Waits closed tok flag fence (Local.lockFailed m .retry ++ rest) := by
  obtain ⟨ht, -, hr⟩ := h
  simp only [Local.lockFailed, Local.waitFence, List.cons_append, List.nil_append, Waits]
  exact ⟨fun _ => ht, by simp, trivial, hr⟩

/-! ## The condition -/

namespace Local

/-- A `spawn` with the fence enabled waited for the token, and the thread still has it. -/
def spawning (l : Local) : Bool := !l.fenceEnabled && l.hasToken

end Local

/-- The operation does not wait for a token that the thread has: `spawn` leaves it to `join` to pass
the token on, and only `mutex_lock` and `cond_wait` know of `_token_holding`. -/
def polite (l : Local) : Op → Bool
  | .spawn _ | .join _ => !l.tokenHolding
  | .barrierWait _ | .threadDeregister => !l.tokenHolding && !l.spawning
  | .mutexLock _ | .cancel _ => !l.spawning
  | .condWait _ _ => l.tokenHolding
  | _ => true

/-- Every operation keeps the discipline when it is called where it should be. -/
theorem program_waits {closed : Prop} {l : Local} {op : Op}
    (hend : Waits closed l.hasToken l.tokenHolding l.fenceEnabled []) (hp : polite l op = true)
    (hclosed : closed → ∀ v, op ≠ .spawn v ∧ op ≠ .join v) :
    Waits closed l.hasToken l.tokenHolding l.fenceEnabled (l.program op) := by
  have hend' := hend
  obtain ⟨hflag, htok, hfence⟩ := hend'
  have hheld : l.fenceEnabled = true → l.hasToken = l.tokenHolding := by
    intro hf
    cases ht : l.hasToken <;> cases hfl : l.tokenHolding <;> simp_all
  have hfree : l.spawning = false → l.tokenHolding = false → l.hasToken = false := by
    intro hs hfl
    by_contra ht
    rcases htok (by simpa using ht) with hx | hx
    · simp [hfl] at hx
    · simp [Local.spawning, hx, ht] at hs
  cases op with
  | mutexLock m =>
      simp only [Local.program, Local.mutexLock, Local.wakeChildren]
      split
      · rename_i hf
        simp [Waits, hheld hf, hf]
      · rename_i hf
        split
        · exact hend
        · have hfl : l.tokenHolding = false := by
            by_contra hfl
            exact hf (hflag (by simpa using hfl)).2
          simp [Waits, hfl, hfree (by simpa [polite] using hp) hfl]
  | mutexUnlock m =>
      simp only [Local.program, Local.mutexUnlock]
      split
      · rename_i hf
        simp [Waits, hheld hf, hf]
      · exact hend
  | condWait c m =>
      have hfl : l.tokenHolding = true := by simpa [polite] using hp
      simp [Local.program, Local.condWait, Waits, hfl, hflag hfl]
  | condSignal c =>
      simp only [Local.program, Local.condSignal, Local.underToken]
      split
      · rename_i hf
        split
        · exact hend
        · rename_i hfl
          simp only [Bool.not_eq_true] at hfl
          simpa [Waits, Local.waitToken, Local.waitFence, hfl, hheld hf] using hfence
      · exact hend
  | condBroadcast c =>
      simp only [Local.program, Local.condBroadcast, Local.underToken]
      split
      · rename_i hf
        split
        · exact hend
        · rename_i hfl
          simp only [Bool.not_eq_true] at hfl
          simpa [Waits, Local.waitToken, Local.waitFence, hfl, hheld hf] using hfence
      · exact hend
  | barrierWait b =>
      obtain ⟨hfl, hs⟩ : l.tokenHolding = false ∧ l.spawning = false := by simpa [polite] using hp
      simp only [Local.program, Local.barrierWait, Local.wakeChildren]
      split
      · simpa [Waits, Local.waitToken, Local.waitFence, hfl, hfree hs hfl] using hfence
      · split
        · exact hend
        · simp [Waits, Local.waitToken, Local.waitFence, hfl, hfree hs hfl]
  | spawn v =>
      have hfl : l.tokenHolding = false := by simpa [polite] using hp
      have hnc : ¬ closed := fun hc => (hclosed hc v).1 rfl
      simp only [Local.program, Local.spawn]
      cases hf : l.fenceEnabled <;> cases l.protectionEnabled <;>
        simp [Waits, Local.waitToken, Local.waitFence, hfl, hheld, hf, hnc]
  | join v =>
      have hfl : l.tokenHolding = false := by simpa [polite] using hp
      have hnc : ¬ closed := fun hc => (hclosed hc v).2 rfl
      simp only [Local.program, Local.join]
      cases hf : l.fenceEnabled
      · simp [Waits, Local.waitFence, hfl, hnc]
      · simp [Waits, Local.waitToken, Local.waitFence, hfl, hheld, hf, hnc]
  | cancel v =>
      simp only [Local.program, Local.cancel, Local.underToken]
      split
      · exact hend
      · rename_i hfl
        simp only [Bool.not_eq_true] at hfl
        simpa [Waits, Local.waitToken, Local.waitFence, hfl, hfree (by simpa [polite] using hp) hfl]
          using hfence
  | threadDeregister =>
      obtain ⟨hfl, hs⟩ : l.tokenHolding = false ∧ l.spawning = false := by simpa [polite] using hp
      simp [Local.program, Local.threadDeregister, Waits, Local.waitToken, Local.waitFence, hfl,
        hfree hs hfl]
  | mutexInit m => exact hend
  | condInit c => exact hend
  | barrierInit b n => exact hend

namespace State

variable {s : State} {t : Tid} {rest : List Instr} {i : Instr} {d : Determ} {l : Local} {closed : Prop}

theorem arrive_waits {k : Bool} (h : some (s.determ.arrive (s.locals t) k rest) = some (d, l))
    (hw : Waits closed (s.locals t).hasToken (s.locals t).tokenHolding (s.locals t).fenceEnabled rest) :
    Waits closed l.hasToken l.tokenHolding l.fenceEnabled l.pending := by
  unfold Determ.arrive at h
  split at h <;> cases h
  · exact hw
  · simp only [Local.goto]
    split <;> exact hw

/-- Every instruction keeps the discipline. -/
theorem own_waits (h : s.own t rest i = some (d, l)) (hi : i ≠ .procExit)
    (hw : Waits closed (s.locals t).hasToken (s.locals t).tokenHolding (s.locals t).fenceEnabled
      (i :: rest)) :
    Waits closed l.hasToken l.tokenHolding l.fenceEnabled l.pending := by
  cases i with
  | fenceEnter k =>
      simp only [own] at h
      split at h
      · exact arrive_waits h hw.2
      · split at h <;> cases h <;> exact hw.2
  | fenceArrive k => exact arrive_waits h hw
  | condArrival k =>
      simp only [own] at h
      split at h
      · exact arrive_waits h hw
      · cases h
  | putToken => cases h; exact hw.2
  | condEnter c m => cases h; exact hw.2
  | deregister => cases h; exact hw.2
  | forkSpawn v =>
      simp only [own] at h
      split at h <;> cases h
      exact hw.2
  | detJoin v w =>
      simp only [own] at h
      split at h <;> cases h
      · exact hw.2.1
      · exact ⟨hw.1, hw.2.2⟩
  | joinBlock g =>
      simp only [own] at h
      split at h <;> cases h
      · exact hw.2
      · exact hw
  | closeIfSingle =>
      simp only [own] at h
      split at h <;> cases h
      · exact hw.2
      · exact hw.1
  | childRegister p =>
      obtain ⟨rfl, rfl⟩ : s.determ.childRegister (s.locals t) t p rest = (d, l) := Option.some.inj h
      change Waits closed (s.locals t).hasToken false true rest
      rw [hw.2.1]
      exact hw.2.2
  | lockIsowner m =>
      cases h
      simp only [Local.goto]
      split <;> exact hw
  | isSingleWorkingThread m =>
      cases h
      simp only [Local.goto]
      split
      · exact hw
      · exact ⟨hw.1, hw.2.2⟩
  | getLockAgain m =>
      cases h
      obtain ⟨heq, hrest⟩ := hw
      simp only [Local.goto, Local.getLockAgain]
      split
      · rename_i hflag
        exact ⟨heq.trans hflag, hflag, hrest⟩
      · rename_i hflag
        exact ⟨fun _ => by simpa [hflag] using heq, rfl, rfl, hrest⟩
  | lockTest m k =>
      simp only [own] at h
      cases k with
      | direct =>
          split at h <;> cases h
          · exact hw
          · exact ⟨hw.1, hw.2.2⟩
      | retry =>
          split at h <;> cases h
          · exact hw
          · exact hw.again
      | condWait => split at h <;> cases h <;> exact hw
  | lockSet m k =>
      simp only [own] at h
      cases k with
      | direct =>
          split at h <;> cases h
          · exact hw.2.1
          · exact ⟨hw.1, hw.2.2⟩
      | retry =>
          split at h <;> cases h
          · obtain ⟨ht, hf, hr⟩ := hw
            simpa only [ht, hf] using hr
          · exact hw.again
      | condWait => split at h <;> cases h <;> exact hw
  | endCriticalSection =>
      cases h
      simp only [Local.goto, Local.endCriticalSection]
      split
      · rename_i hf
        exact ⟨fun _ => hw.1 hf.2, by simpa [Waits, Local.waitFence] using hw.2.2⟩
      · exact hw.2.1
  | barrierEnter b =>
      cases h
      dsimp only
      split <;> exact hw.2
  | barrierArrive b =>
      simp only [own, Option.map_eq_some_iff] at h
      obtain ⟨be, -, h⟩ := h
      split at h <;> cases h <;> exact hw
  | procExit => exact absurd rfl hi
  | _ =>
      simp only [own] at h
      (repeat' split at h) <;> cases h <;> exact hw

/-- Every live process keeps the discipline. -/
def Disciplined (closed : Prop) (s : State) : Prop :=
  ∀ t, (s.locals t).live = true →
    Waits closed (s.locals t).hasToken (s.locals t).tokenHolding (s.locals t).fenceEnabled
      (s.locals t).pending

namespace Disciplined

variable {s' : State} {closed : Prop}

theorem called {op : Op} (h : Disciplined closed s) (hnil : (s.locals t).pending = [])
    (hp : polite (s.locals t) op = true)
    (hclosed : closed → ∀ v, op ≠ .spawn v ∧ op ≠ .join v) :
    Disciplined closed (s.called t op) := by
  intro u hu
  rw [called_locals] at hu ⊢
  split at hu
  · rename_i hut
    rw [if_pos hut]
    have hend := h t hu
    rw [hnil] at hend
    exact program_waits hend hp hclosed
  · rename_i hut
    rw [if_neg hut]
    exact h u hu

theorem ran (h : Disciplined closed s) (hl : (s.locals t).live = true)
    (hp : (s.locals t).pending = i :: rest) (ho : s.own t rest i = some (d, l)) :
    Disciplined closed ⟨d, Function.update (s.others t i) t l, s.created i⟩ := by
  intro u hu
  dsimp only at hu ⊢
  by_cases hut : u = t
  · subst hut
    rw [Function.update_self] at hu ⊢
    have hw := h u hl
    rw [hp] at hw
    refine own_waits ho ?_ hw
    rintro rfl
    cases ho
    cases hu
  · rw [Function.update_of_ne hut] at hu ⊢
    rcases s.others_cases t i u with ho | ⟨ho, -⟩ | ⟨rfl, ho⟩ | ⟨-, ho⟩ <;> rw [ho] at hu ⊢
    · exact h u hu
    · exact h u hu
    · have hw := h t hl
      rw [hp] at hw
      exact ⟨hw.1, rfl, by simp [Waits]⟩
    · cases hu

end Disciplined

/-- No process is inside an operation, or has the token. -/
structure Quiet (s : State) : Prop where
  pending : ∀ t, (s.locals t).pending = []
  hasToken : ∀ t, (s.locals t).hasToken = false
  tokenHolding : ∀ t, (s.locals t).tokenHolding = false

theorem Quiet.disciplined {s : State} {closed : Prop} (h : Quiet s)
    (hf : closed → ∀ t, (s.locals t).fenceEnabled = true) : Disciplined closed s := by
  intro t _
  simpa [h.pending, h.hasToken, h.tokenHolding, Waits] using fun hc => hf hc t

theorem quiet_boot (coresNumb : ℕ) : Quiet (boot coresNumb) := ⟨fun _ => rfl, fun _ => rfl, fun _ => rfl⟩

theorem quiet_ring (n coresNumb : ℕ) : Quiet (ring n coresNumb) :=
  ⟨fun _ => rfl, fun _ => rfl, fun _ => rfl⟩

end State

/-! ## The law -/

/-- Threads create and join threads, lock and unlock mutexes, wait at barriers and exit. -/
def forkJoin : Label → Bool
  | .call _ (.condWait _ _) | .call _ (.condSignal _) | .call _ (.condBroadcast _) => false
  | .call _ (.cancel _) => false
  | _ => true

/-- The thread whose operation it is calls it where it should. -/
def courteous (s : State) : Label → Bool
  | .call t op => polite (s.locals t) op
  | .run _ => true

/-- In a run under the condition no thread waits for a token that it has. -/
theorem waitToken_without_token {s w : State} {ls : List Label} {t : Tid} {rest : List Instr}
    (hs : s.Quiet)
    (hr : Run State.step (fun s a => forkJoin a = true ∧ courteous s a = true) s ls w)
    (hl : (w.locals t).live = true) (hp : (w.locals t).pending = .fenceEnter true :: rest) :
    (w.locals t).hasToken = false := by
  have hw : w.Disciplined False := by
    refine Run.invariant (fun s a s' h hg hstep => ?_) hr (hs.disciplined False.elim)
    cases a with
    | call u op =>
        obtain ⟨-, hnil, rfl⟩ := State.step_call hstep
        exact h.called hnil hg.2 False.elim
    | run u =>
        obtain ⟨i, rest, d, l, hl, hp, ho, rfl⟩ := State.step_run hstep
        exact h.ran hl hp ho
  have hw := hw t hl
  rw [hp] at hw
  exact hw.1 rfl

/-- Three threads take a mutex each in turn. -/
def rounds : List Label :=
  .call 1 (.mutexLock 0) :: Label.runs 1 5 ++ .call 2 (.mutexLock 1) :: Label.runs 2 5 ++
  .call 3 (.mutexLock 2) :: Label.runs 3 5 ++ Label.runs 1 8 ++
  .call 1 (.mutexUnlock 0) :: Label.runs 1 8 ++ Label.runs 2 8 ++
  .call 2 (.mutexUnlock 1) :: Label.runs 2 8 ++ Label.runs 3 6 ++
  .call 3 (.mutexUnlock 2) :: Label.runs 3 8 ++ Label.runs 1 2 ++ Label.runs 2 2 ++ Label.runs 3 2

/-- After a round of all three threads the first one waits for the token again. -/
theorem waitToken_without_token_again : ∃ w rest,
    Run State.step (fun s a => forkJoin a = true ∧ courteous s a = true) (State.ring 3 4)
      (rounds ++ .call 1 (.mutexLock 1) :: Label.runs 1 4) w ∧
      (w.locals 1).pending = .fenceEnter true :: rest ∧ (w.locals 1).hasToken = false := by
  have hrun : (execGuarded State.step (fun s a => forkJoin a = true ∧ courteous s a = true)
      (State.ring 3 4) (rounds ++ .call 1 (.mutexLock 1) :: Label.runs 1 4)).any
      (fun w => decide ((w.locals 1).live = true ∧
        (w.locals 1).pending.head? = some (.fenceEnter true))) = true := by
    decide +kernel
  obtain ⟨w, hr, hl, hh⟩ := exists_run_of_any hrun
  obtain ⟨rest, hp⟩ := List.head?_eq_some_iff.mp hh
  exact ⟨w, rest, hr, hp, waitToken_without_token (State.quiet_ring 3 4) hr hl hp⟩

/-- Thread 1 creates thread 4 in its parallel phase, which takes the token, and locks a mutex: it
waits at the fence for threads 2 and 3, which wait for its token. -/
theorem waitToken_with_token :
    ¬ ∀ (n coresNumb : ℕ) (ls : List Label) (w : State) (t : Tid) (rest : List Instr), 3 ≤ n →
      Run State.step (fun _ a => forkJoin a = true) (State.ring n coresNumb) ls w →
      (w.locals t).live = true → (w.locals t).pending = .fenceEnter true :: rest →
      (w.locals t).hasToken = false := by
  intro h
  have hrun : (execGuarded State.step (fun _ a => forkJoin a = true) (State.ring 3 4)
      (.call 1 (.spawn 4) :: Label.runs 1 3 ++ .call 2 (.mutexLock 1) :: Label.runs 2 5 ++
        .call 3 (.mutexLock 2) :: Label.runs 3 5 ++ Label.runs 1 6 ++ Label.runs 4 2 ++
        Label.runs 1 2 ++ .call 1 (.mutexLock 0) :: Label.runs 1 6)).any
      (fun w => decide ((w.locals 1).live = true ∧ (w.locals 1).hasToken = true ∧
        (w.locals 1).pending.head? = some (.fenceEnter true))) = true := by
    decide +kernel
  obtain ⟨w, hr, hl, ht, hh⟩ := exists_run_of_any hrun
  obtain ⟨rest, hp⟩ := List.head?_eq_some_iff.mp hh
  simp [h 3 4 _ w 1 rest le_rfl hr hl hp] at ht

end Dthreads.Scheduler
