import Dthreads.Scheduler.Links

/-! # Commits are serialised by the token

Each operation decides by itself whether to wait for the token before it commits. The discipline
of an instruction list says that every commit in it comes with the token, or while all other
processes wait for their parents. -/

namespace Dthreads.Scheduler

open Transition

namespace Local

/-- The process has yet to return from `waitParentNotify`. -/
def newborn (l : Local) : Bool :=
  match l.pending with
  | .childRegister _ :: .waitParentNotify :: .waitNotified :: _ => true
  | .waitParentNotify :: .waitNotified :: _ => true
  | .waitNotified :: _ => true
  | _ => false

/-- The process has left the thread list and is about to exit. -/
def exiting (l : Local) : Bool := l.pending = [.procExit]

/-- The process is blocked in `waitParentNotify`. -/
def blocked (l : Local) : Bool := l.pending.head? = some .waitNotified ∧ l.notified = false

/-- The process calls `checkandcommit` or `finalcommit` next. -/
def commits (l : Local) : Bool :=
  match l.pending with
  | .atomicEnd :: _ => true
  | .finalcommit _ :: _ => true
  | _ => false

/-- The process does not run until a parent notifies it. -/
def still (l : Local) : Bool := (l.newborn && !l.notified) || l.exiting

end Local

namespace State

/-- No process but `t` runs. -/
def alone (s : State) (t : Tid) : Prop :=
  ∀ u ∈ s.procs, u ≠ t → (s.locals u).live = true → (s.locals u).still = true

instance (s : State) (t : Tid) : Decidable (s.alone t) :=
  inferInstanceAs (Decidable (∀ u ∈ s.procs, _))

end State

/-! ## The condition -/

/-- `spawn` is called with the fence disabled, `cond_wait` with `_token_holding` set, as it
asserts, `join` and `barrier_wait` with `_token_holding` clear, and `cancel` not between a `spawn`
and the end of this fork phase, unless the thread runs alone. The index of a new thread is not in
use, `putToken` is called at `_tokenpos`, as it checks, and `join` closes the fence only when the
thread is alone. -/
def steady (s : State) : Label → Bool
  | .call t (.spawn _) => !(s.locals t).fenceEnabled || (s.locals t).hasToken || s.alone t
  | .call t (.condWait _ _) => (s.locals t).tokenHolding || s.alone t
  | .call t (.join _) => !(s.locals t).tokenHolding
  | .call t (.barrierWait _) => !(s.locals t).tokenHolding
  | .call t (.cancel _) => (s.locals t).fenceEnabled || (s.locals t).tokenHolding || s.alone t
  | .call _ _ => true
  | .run t =>
      match (s.locals t).pending with
      | .childRegister _ :: _ =>
          s.determ.threadIndex ≠ s.determ.tokenpos ∧
            ∀ u ∈ s.procs, u ≠ t → (s.locals u).live = true →
              (s.locals u).threadIndex ≠ s.determ.threadIndex
      | .putToken :: _ =>
          (s.determ.entries s.determ.tokenpos).threadindex = (s.locals t).threadIndex
      | .closeIfSingle :: _ => s.determ.isSingleAliveThread = true → s.alone t
      | _ => true

/-! ## The discipline -/

/-- A thread that starts with `tok` (it has the token), `flag` (`_token_holding`), `fence`
(`_fence_enabled`) and `solo` (the others do not run) runs these instructions: it commits, forks
and kills only with the token or alone, and at the end `_token_holding` tells the truth and the
fence is enabled unless it has the token or is alone. -/
def Safe : Prop → Bool → Bool → Bool → List Instr → Prop
  | solo, tok, flag, fence, [] => (flag = true → tok = true) ∧ (fence = false → tok = true ∨ solo)
  | solo, tok, flag, fence, i :: rest =>
      match i with
      | .getToken | .condToken | .joinToken => Safe solo true flag fence rest
      | .joinBlock _ => tok = false ∧ Safe solo true flag fence rest
      | .putToken => Safe solo false flag fence rest
      | .atomicEnd | .finalcommit _ | .kill _ | .waitChildRegistered =>
          (tok = true ∨ solo) ∧ Safe solo tok flag fence rest
      | .forkSpawn _ =>
          (tok = true ∨ solo) ∧ rest.head? = some .waitChildRegistered ∧ Safe solo tok flag fence rest
      | .startFence => Safe solo tok flag true rest
      | .notifyWaitingChildren => Safe False tok flag fence rest
      | .disableFence => Safe solo tok flag false rest
      | .childRegister _ => tok = false ∧ Safe solo false false true rest
      | .waitParentNotify | .waitNotified => tok = false ∧ Safe solo false flag fence rest
      | .setTokenHolding b => Safe solo tok b fence rest
      | .getLockAgain _ => (flag = true → tok = true) ∧ Safe solo true true fence rest
      | .lockIsowner _ | .isSingleWorkingThread _ | .lockTest _ .direct | .lockSet _ .direct =>
          (flag = true → tok = true) ∧ Safe solo tok flag fence rest ∧ Safe solo true true fence rest
      | .lockTest _ .retry | .lockSet _ .retry =>
          tok = true ∧ flag = true ∧ Safe solo true true fence rest
      | .endCriticalSection =>
          (flag = true → tok = true) ∧ Safe solo tok flag fence rest ∧ Safe solo false false fence rest
      | .condEnter _ _ => (tok = true ∨ solo) ∧ Safe solo false flag fence rest
      | .barrierEnter _ => tok = true ∧ Safe solo false flag fence rest
      | .detJoin _ wakeup =>
          Safe (solo ∧ wakeup = false) tok flag fence rest ∧
            Safe (solo ∧ wakeup = false) true flag fence rest
      | .deregister => tok = true ∧ Safe solo false flag fence rest
      | .procExit => tok = false
      | .closeIfSingle => Safe solo tok flag fence rest ∧ Safe True tok flag false rest
      | _ => Safe solo tok flag fence rest

theorem Safe.mono {p q : Prop} (hpq : p → q) {tok flag fence : Bool} {is : List Instr}
    (h : Safe p tok flag fence is) : Safe q tok flag fence is := by
  induction is generalizing p q tok flag fence with
  | nil => exact ⟨h.1, fun hf => (h.2 hf).imp_right hpq⟩
  | cons i rest ih =>
      cases i with
      | lockTest m k => cases k <;> simp only [Safe] at h ⊢ <;> grind
      | lockSet m k => cases k <;> simp only [Safe] at h ⊢ <;> grind
      | _ => simp only [Safe] at h ⊢; grind

/-- The retry loop of `mutex_lock` gives the token up before it waits for it again. -/
theorem Safe.again {solo : Prop} {tok flag fence : Bool} {m : Obj} {rest : List Instr}
    (h : Safe solo tok flag fence (.lockTest m .retry :: rest)) :
    Safe solo tok flag fence (Local.lockFailed m .retry ++ rest) := by
  obtain ⟨ht, -, hr⟩ := h
  simp only [Local.lockFailed, Local.waitFence, List.cons_append, List.nil_append, Safe]
  exact ⟨.inl ht, by simp, hr⟩

/-- The instruction wakes up the new threads. -/
def notifies : Instr → Bool
  | .notifyWaitingChildren => true
  | .detJoin _ w => w
  | _ => false

/-- Every operation keeps the discipline, unless it is called where it should not be. -/
theorem program_safe {solo : Prop} {l : Local} {op : Op}
    (hend : Safe solo l.hasToken l.tokenHolding l.fenceEnabled [])
    (hspawn : ∀ v, op = .spawn v → l.fenceEnabled = false ∨ l.hasToken = true ∨ solo)
    (hwait : ∀ c m, op = .condWait c m → l.tokenHolding = true ∨ solo)
    (hflag : ∀ v, op = .join v ∨ op = .barrierWait v → l.tokenHolding = false)
    (hcancel : ∀ v, op = .cancel v →
      l.fenceEnabled = true ∨ l.tokenHolding = true ∨ solo) :
    Safe solo l.hasToken l.tokenHolding l.fenceEnabled (l.program op) := by
  obtain ⟨hf, he⟩ := hend
  cases op with
  | mutexLock m =>
      simp only [Local.program, Local.mutexLock, Local.wakeChildren]
      split
      · rename_i hfe
        simp only [Safe, hfe]
        exact ⟨hf, ⟨hf, by simp⟩, by simp⟩
      · split
        · exact ⟨hf, he⟩
        · simp only [Safe, List.cons_append, List.nil_append]
          exact ⟨hf, ⟨hf, by simp⟩, by simp⟩
  | mutexUnlock m =>
      simp only [Local.program, Local.mutexUnlock]
      split
      · rename_i hfe
        simp only [Safe, hfe]
        exact ⟨hf, ⟨hf, by simp⟩, by simp⟩
      · exact ⟨hf, he⟩
  | condWait c m =>
      have hts := (hwait c m rfl).imp_left hf
      exact ⟨hts, hts, fun _ => rfl, fun _ => .inl rfl⟩
  | condSignal c =>
      simp only [Local.program, Local.condSignal, Local.underToken]
      split
      · rename_i hfe
        split
        · rename_i hfl
          exact ⟨.inl (hf hfl), hf, he⟩
        · rename_i hfl
          simp [Safe, Local.waitToken, Local.waitFence, hfe, hfl]
      · exact ⟨hf, he⟩
  | condBroadcast c =>
      simp only [Local.program, Local.condBroadcast, Local.underToken]
      split
      · rename_i hfe
        split
        · rename_i hfl
          exact ⟨.inl (hf hfl), hf, he⟩
        · rename_i hfl
          simp [Safe, Local.waitToken, Local.waitFence, hfe, hfl]
      · exact ⟨hf, he⟩
  | barrierWait b =>
      have hfl := hflag b (.inr rfl)
      simp only [Local.program, Local.barrierWait, Local.wakeChildren]
      split
      · rename_i hfe
        simp [Safe, Local.waitToken, Local.waitFence, hfe, hfl]
      · split
        · exact ⟨hf, he⟩
        · simp [Safe, Local.waitToken, Local.waitFence, hfl]
  | spawn v =>
      have hts : l.hasToken = true ∨ solo := by
        rcases hspawn v rfl with h | h
        · exact he h
        · exact h
      simp only [Local.program, Local.spawn]
      cases hfe : l.fenceEnabled <;> cases l.protectionEnabled <;>
        simp [Safe, Local.waitToken, Local.waitFence, hts] <;> exact hf
  | join v =>
      have hfl := hflag v (.inl rfl)
      simp only [Local.program, Local.join]
      cases hfe : l.fenceEnabled
      · simp [Safe, Local.waitFence, hfl, he hfe]
      · simp [Safe, Local.waitToken, Local.waitFence, hfl]
  | cancel v =>
      simp only [Local.program, Local.cancel, Local.underToken]
      split
      · rename_i hfl
        have ht := hf hfl
        exact ⟨.inl ht, .inl ht, hf, he⟩
      · rename_i hfl
        have := hcancel v rfl
        simp only [hfl, false_or, Bool.false_eq_true] at this
        simp only [Safe, Local.waitToken, Local.waitFence, List.cons_append, List.nil_append, hfl,
          true_or, true_and, Bool.false_eq_true, false_implies, false_or]
        intro hfe
        simpa [hfe] using this
  | threadDeregister =>
      simp [Local.program, Local.threadDeregister, Safe, Local.waitToken, Local.waitFence]
  | mutexInit m => exact ⟨hf, he⟩
  | condInit c => exact ⟨hf, he⟩
  | barrierInit b n => exact ⟨hf, he⟩

namespace State

variable {s : State} {t : Tid} {rest : List Instr} {i : Instr} {d : Determ} {l : Local}

theorem arrive_safe {solo : Prop} {k : Bool}
    (h : some (s.determ.arrive (s.locals t) k rest) = some (d, l))
    (hs : Safe solo (s.locals t).hasToken (s.locals t).tokenHolding (s.locals t).fenceEnabled rest) :
    Safe solo l.hasToken l.tokenHolding l.fenceEnabled l.pending := by
  unfold Determ.arrive at h
  split at h <;> cases h
  · exact hs
  · simp only [Local.goto]
    split <;> exact hs

/-- Every instruction keeps the discipline. -/
theorem own_safe {solo : Prop} (h : s.own t rest i = some (d, l))
    (hs : Safe solo (s.locals t).hasToken (s.locals t).tokenHolding (s.locals t).fenceEnabled
      (i :: rest))
    (hi : i ≠ .procExit) (hclose : i = .closeIfSingle → s.determ.isSingleAliveThread = true → solo) :
    Safe (solo ∧ notifies i = false) l.hasToken l.tokenHolding l.fenceEnabled l.pending := by
  have hmono : ∀ {p : Prop} {a b c : Bool} {is : List Instr}, notifies i = false → Safe p a b c is →
      Safe (p ∧ notifies i = false) a b c is := fun hn hp => hp.mono fun hp => ⟨hp, hn⟩
  cases i with
  | fenceEnter k =>
      simp only [own] at h
      refine hmono rfl ?_
      split at h
      · exact arrive_safe h hs
      · split at h <;> cases h <;> exact hs
  | fenceArrive k => exact hmono rfl (arrive_safe h hs)
  | condArrival k =>
      simp only [own] at h
      split at h
      · exact hmono rfl (arrive_safe h hs)
      · cases h
  | notifyWaitingChildren =>
      cases h
      exact Safe.mono False.elim hs
  | detJoin v w =>
      simp only [own] at h
      split at h <;> cases h
      · exact hs.1
      · exact ⟨rfl, hs.2⟩
  | lockIsowner m =>
      cases h
      refine hmono rfl ?_
      simp only [Local.goto]
      split <;> exact hs
  | isSingleWorkingThread m =>
      cases h
      refine hmono rfl ?_
      simp only [Local.goto]
      split
      · exact hs
      · exact ⟨hs.1, hs.2.2⟩
  | getLockAgain m =>
      cases h
      refine hmono rfl ?_
      simp only [Local.goto, Local.getLockAgain]
      split
      · rename_i hfl
        exact ⟨hs.1 hfl, hfl, hs.2⟩
      · exact ⟨.inl rfl, rfl, rfl, hs.2⟩
  | lockTest m k =>
      simp only [own] at h
      refine hmono rfl ?_
      cases k
      · split at h <;> cases h
        · exact hs
        · exact ⟨hs.1, hs.2.2⟩
      · split at h <;> cases h
        · exact hs
        · exact hs.again
      · split at h <;> cases h <;> exact hs
  | lockSet m k =>
      simp only [own] at h
      refine hmono rfl ?_
      cases k
      · split at h <;> cases h
        · exact hs.2.1
        · exact ⟨hs.1, hs.2.2⟩
      · split at h <;> cases h
        · obtain ⟨ht, hf, hr⟩ := hs
          simpa only [ht, hf] using hr
        · exact hs.again
      · split at h <;> cases h <;> exact hs
  | endCriticalSection =>
      cases h
      refine hmono rfl ?_
      simp only [Local.goto, Local.endCriticalSection]
      split
      · rename_i hfl
        exact ⟨.inl (hs.1 hfl.2), hs.2.2⟩
      · exact hs.2.1
  | barrierEnter b =>
      cases h
      refine hmono rfl ?_
      dsimp only
      split <;> exact hs.2
  | barrierArrive b =>
      simp only [own, Option.map_eq_some_iff] at h
      obtain ⟨be, -, h⟩ := h
      split at h <;> cases h <;> exact hmono rfl hs
  | joinBlock g =>
      simp only [own] at h
      split at h <;> cases h
      · exact hmono rfl hs.2
      · exact hmono rfl hs
  | closeIfSingle =>
      simp only [own] at h
      split at h <;> cases h
      · rename_i hsingle
        exact hmono rfl (hs.2.mono fun _ => hclose rfl hsingle)
      · exact hmono rfl hs.1
  | atomicEnd => cases h; exact hmono rfl hs.2
  | finalcommit r => cases h; exact hmono rfl hs.2
  | kill v => cases h; exact hmono rfl hs.2
  | forkSpawn v =>
      simp only [own] at h
      split at h <;> cases h
      exact hmono rfl hs.2.2
  | waitChildRegistered =>
      simp only [own] at h
      split at h <;> cases h
      exact hmono rfl hs.2
  | childRegister p =>
      obtain ⟨rfl, rfl⟩ : s.determ.childRegister (s.locals t) t p rest = (d, l) := Option.some.inj h
      refine hmono rfl ?_
      change Safe solo (s.locals t).hasToken false true rest
      rw [hs.1]
      exact hs.2
  | waitParentNotify =>
      cases h
      refine hmono rfl ?_
      change Safe solo (s.locals t).hasToken (s.locals t).tokenHolding (s.locals t).fenceEnabled rest
      rw [hs.1]
      exact hs.2
  | waitNotified =>
      simp only [own] at h
      split at h <;> cases h
      refine hmono rfl ?_
      change Safe solo (s.locals t).hasToken (s.locals t).tokenHolding (s.locals t).fenceEnabled rest
      rw [hs.1]
      exact hs.2
  | condEnter c m => cases h; exact hmono rfl hs.2
  | deregister => cases h; exact hmono rfl hs.2
  | procExit => exact absurd rfl hi
  | _ =>
      simp only [own] at h
      (repeat' split at h) <;> cases h <;> exact hmono rfl hs

/-! ## Who moves the token -/

/-- The instruction moves `_tokenpos`. -/
def movesToken : Instr → Bool
  | .putToken | .condEnter _ _ | .barrierEnter _ | .detJoin _ _ | .joinBlock _ | .deregister => true
  | _ => false

theorem own_tokenpos (h : s.own t rest i = some (d, l)) (hi : movesToken i = false) :
    d.tokenpos = s.determ.tokenpos := by
  have harrive : ∀ k, some (s.determ.arrive (s.locals t) k rest) = some (d, l) →
      d.tokenpos = s.determ.tokenpos := by
    intro k ha
    unfold Determ.arrive at ha
    split at ha <;> cases ha <;> simp
  cases i with
  | fenceEnter k =>
      simp only [own] at h
      split at h
      · exact harrive k h
      · split at h <;> cases h <;> rfl
  | fenceArrive k => exact harrive k h
  | condArrival k =>
      simp only [own] at h
      split at h
      · exact harrive k h
      · cases h
  | childRegister p =>
      obtain ⟨rfl, rfl⟩ : s.determ.childRegister (s.locals t) t p rest = (d, l) := Option.some.inj h
      rfl
  | barrierArrive b =>
      simp only [own, Option.map_eq_some_iff] at h
      obtain ⟨be, -, h⟩ := h
      split at h <;> cases h <;> rfl
  | condLookup c =>
      cases h
      split <;> rfl
  | putToken => cases hi
  | condEnter c m => cases hi
  | barrierEnter b => cases hi
  | detJoin v w => cases hi
  | joinBlock g => cases hi
  | deregister => cases hi
  | _ =>
      simp only [own] at h
      (repeat' split at h) <;> cases h <;> simp

/-- The instructions that take part in the registration of children, or close the fence. -/
theorem own_fixed (h : s.own t rest i = some (d, l)) :
    d.fixed = s.determ.fixed ∨
    (i = .waitParentNotify ∧ d.fixed = { s.determ with childregistered := true }.fixed) ∨
    (i = .waitChildRegistered ∧ s.determ.childregistered = true ∧
      d.fixed = { s.determ with childregistered := false }.fixed) ∨
    ((∃ p, i = .childRegister p) ∧
      d.fixed = { s.determ with threadIndex := s.determ.threadIndex + 1 }.fixed) ∨
    (i = .closeIfSingle ∧ s.determ.isSingleAliveThread = true ∧
      d.fixed = { s.determ with threadIndex := 1 }.fixed) := by
  have harrive : ∀ k, some (s.determ.arrive (s.locals t) k rest) = some (d, l) →
      d.fixed = s.determ.fixed := by
    intro k ha
    unfold Determ.arrive at ha
    split at ha <;> cases ha <;> simp
  cases i with
  | fenceEnter k =>
      simp only [own] at h
      split at h
      · exact .inl (harrive k h)
      · split at h <;> cases h <;> exact .inl rfl
  | fenceArrive k => exact .inl (harrive k h)
  | condArrival k =>
      simp only [own] at h
      split at h
      · exact .inl (harrive k h)
      · cases h
  | childRegister p =>
      obtain ⟨rfl, rfl⟩ : s.determ.childRegister (s.locals t) t p rest = (d, l) := Option.some.inj h
      exact .inr (.inr (.inr (.inl ⟨⟨p, rfl⟩, rfl⟩)))
  | waitParentNotify =>
      cases h
      exact .inr (.inl ⟨rfl, rfl⟩)
  | waitChildRegistered =>
      simp only [own] at h
      split at h
      · rename_i hc
        cases h
        exact .inr (.inr (.inl ⟨rfl, hc, rfl⟩))
      · cases h
  | closeIfSingle =>
      simp only [own] at h
      split at h
      · rename_i hc
        cases h
        exact .inr (.inr (.inr (.inr ⟨rfl, hc, rfl⟩)))
      · cases h
        exact .inl rfl
  | barrierArrive b =>
      simp only [own, Option.map_eq_some_iff] at h
      obtain ⟨be, -, h⟩ := h
      split at h <;> cases h <;> exact .inl rfl
  | condLookup c =>
      cases h
      refine .inl ?_
      split <;> rfl
  | _ =>
      simp only [own] at h
      (repeat' split at h) <;> cases h <;> exact .inl (by simp)

/-- The handshake between a parent and its new child. -/
theorem own_childregistered (h : s.own t rest i = some (d, l)) :
    d.childregistered = s.determ.childregistered ∨ (i = .waitParentNotify ∧ d.childregistered = true) ∨
      (i = .waitChildRegistered ∧ s.determ.childregistered = true ∧ d.childregistered = false) := by
  rcases own_fixed h with hd | ⟨hi, hd⟩ | ⟨hi, hs, hd⟩ | ⟨-, hd⟩ | ⟨-, -, hd⟩
  · exact .inl (congrArg Prod.fst hd)
  · exact .inr (.inl ⟨hi, congrArg Prod.fst hd⟩)
  · exact .inr (.inr ⟨hi, hs, congrArg Prod.fst hd⟩)
  · exact .inl (congrArg Prod.fst hd)
  · exact .inl (congrArg Prod.fst hd)

theorem own_holder (h : s.own t rest i = some (d, l)) (ht : d.tokenpos = s.determ.tokenpos)
    (hreg : ∀ p, i = .childRegister p → s.determ.threadIndex ≠ s.determ.tokenpos) :
    d.holder = s.determ.holder := by
  unfold Determ.holder
  rw [ht]
  by_cases hi : ∃ p, i = .childRegister p
  · obtain ⟨p, rfl⟩ := hi
    have hid : ((s.determ.childRegister (s.locals t) t p rest).1.entries s.determ.tokenpos).ident =
        if s.determ.tokenpos = s.determ.threadIndex then (t, s.determ.threadIndex, p)
        else (s.determ.entries s.determ.tokenpos).ident := Determ.registerThread_ident
    rw [if_neg (hreg p rfl).symm] at hid
    obtain ⟨rfl, rfl⟩ : s.determ.childRegister (s.locals t) t p rest = (d, l) := Option.some.inj h
    exact congrArg Prod.fst hid
  · exact congrArg Prod.fst ((own_entries h fun p hp => hi ⟨p, hp⟩).1 _)

/-- A thread has the token after an instruction if it obtains it there, or had it and nobody
moved it. -/
theorem own_hasToken (h : s.own t rest i = some (d, l)) (hl : l.hasToken = true) :
    (d.tokenpos = s.determ.tokenpos ∧ ((s.locals t).hasToken = true ∨ s.determ.holder = t ∨
      ((i = .condToken ∨ i = .joinToken) ∧
        (s.determ.entries s.determ.tokenpos).threadindex = (s.locals t).threadIndex))) ∨
    ∃ g, i = .joinBlock g := by
  have harrive : ∀ k, some (s.determ.arrive (s.locals t) k rest) = some (d, l) →
      (s.locals t).hasToken = true := by
    intro k ha
    unfold Determ.arrive at ha
    split at ha <;> cases ha <;> exact hl
  cases hm : movesToken i with
  | false =>
      refine .inl ⟨own_tokenpos h hm, ?_⟩
      cases i with
      | fenceEnter k =>
          simp only [own] at h
          split at h
          · exact .inl (harrive k h)
          · split at h <;> cases h <;> exact .inl hl
      | fenceArrive k => exact .inl (harrive k h)
      | condArrival k =>
          simp only [own] at h
          split at h
          · exact .inl (harrive k h)
          · cases h
      | getToken =>
          simp only [own] at h
          split at h
          · rename_i hh
            exact .inr (.inl hh)
          · cases h
      | condToken =>
          simp only [own] at h
          split at h
          · rename_i hh
            exact .inr (.inr ⟨.inl rfl, hh⟩)
          · cases h
      | joinToken =>
          simp only [own] at h
          split at h
          · rename_i hh
            exact .inr (.inr ⟨.inr rfl, hh⟩)
          · cases h
      | childRegister p =>
          obtain ⟨rfl, rfl⟩ : s.determ.childRegister (s.locals t) t p rest = (d, l) :=
            Option.some.inj h
          exact .inl hl
      | barrierArrive b =>
          simp only [own, Option.map_eq_some_iff] at h
          obtain ⟨be, -, h⟩ := h
          split at h <;> cases h <;> exact .inl hl
      | _ =>
          simp only [own] at h
          (repeat' split at h) <;> cases h <;> first | exact .inl hl | cases hm
  | true =>
      cases i with
      | joinBlock g => exact .inr ⟨g, rfl⟩
      | detJoin v w =>
          simp only [own] at h
          split at h <;> cases h
          · exact .inl ⟨rfl, .inl hl⟩
          · cases hl
      | putToken => cases h; cases hl
      | condEnter c m => cases h; cases hl
      | barrierEnter b => cases h; cases hl
      | deregister => cases h; cases hl
      | _ => cases hm

theorem others_of_not_notifies (s : State) (t : Tid) (hi : notifies i = false) (u : Tid) :
    s.others t i u = s.locals u ∨
    (i = .forkSpawn u ∧ s.others t i u = (s.locals t).forked) ∨
    (i = .kill u ∧ s.others t i u = { s.locals u with live := false }) := by
  cases i with
  | notifyWaitingChildren => cases hi
  | detJoin v w =>
      cases w with
      | false => exact .inl rfl
      | true => cases hi
  | forkSpawn child =>
      by_cases hu : u = child
      · subst hu
        exact .inr (.inl ⟨rfl, Function.update_self ..⟩)
      · exact .inl (Function.update_of_ne hu ..)
  | kill v =>
      by_cases hu : u = v
      · subst hu
        exact .inr (.inr ⟨rfl, Function.update_self ..⟩)
      · exact .inl (Function.update_of_ne hu ..)
  | _ => exact .inl rfl

end State

/-! ## Threads that stand still -/

namespace Local

theorem newborn_cases {l : Local} (h : l.newborn = true) :
    (∃ p r, l.pending = .childRegister p :: .waitParentNotify :: .waitNotified :: r) ∨
    (∃ r, l.pending = .waitParentNotify :: .waitNotified :: r) ∨
    ∃ r, l.pending = .waitNotified :: r := by
  unfold newborn at h
  split at h
  · rename_i p r hp
    exact .inl ⟨p, r, hp⟩
  · rename_i r hp
    exact .inr (.inl ⟨r, hp⟩)
  · rename_i r hp
    exact .inr (.inr ⟨r, hp⟩)
  · cases h

theorem still_cases {l : Local} (h : l.still = true) :
    (l.newborn = true ∧ l.notified = false) ∨ l.pending = [.procExit] := by
  simpa [still, exiting] using h

theorem newborn_forked (l : Local) : l.forked.still = true := rfl

end Local

namespace State

variable {s : State} {t u : Tid} {rest : List Instr} {i : Instr} {d : Determ} {l : Local}

/-- A thread that stands still goes on to stand still, and leaves the others alone. -/
theorem still_own (hs : (s.locals t).still = true) (hp : (s.locals t).pending = i :: rest)
    (h : s.own t rest i = some (d, l)) :
    (l.live = true → l.still = true) ∧ s.others t i = s.locals := by
  rcases Local.still_cases hs with ⟨hb, hn⟩ | he
  · rcases Local.newborn_cases hb with ⟨p, r, hr⟩ | ⟨r, hr⟩ | ⟨r, hr⟩
    · obtain ⟨rfl, rfl⟩ := List.cons.inj (hp.symm.trans hr)
      obtain ⟨rfl, rfl⟩ : s.determ.childRegister (s.locals t) t p _ = (d, l) := Option.some.inj h
      exact ⟨fun _ => by simp [Local.still, Local.newborn, hn], rfl⟩
    · obtain ⟨rfl, rfl⟩ := List.cons.inj (hp.symm.trans hr)
      cases h
      exact ⟨fun _ => by simp [Local.still, Local.newborn, Local.goto, hn], rfl⟩
    · obtain ⟨rfl, rfl⟩ := List.cons.inj (hp.symm.trans hr)
      simp [own, hn] at h
  · obtain ⟨rfl, rfl⟩ := List.cons.inj (hp.symm.trans he)
    cases h
    exact ⟨by simp, rfl⟩

/-- A thread that runs alone stays alone until it notifies the new threads. -/
theorem alone_ran (ha : s.alone u) (hi : u = t → notifies i = false)
    (hlive : (s.locals t).live = true) (hmem : t ∈ s.procs) (hp : (s.locals t).pending = i :: rest)
    (h : s.own t rest i = some (d, l)) (hprocs : ∀ w, (s.locals w).live = true → w ∈ s.procs) :
    State.alone ⟨d, Function.update (s.others t i) t l, s.created i⟩ u := by
  rintro w - hwu hwl
  dsimp only at hwl ⊢
  by_cases hut : u = t
  · subst hut
    rw [Function.update_of_ne hwu] at hwl ⊢
    rcases s.others_of_not_notifies u (hi rfl) w with ho | ⟨-, ho⟩ | ⟨-, ho⟩ <;> rw [ho] at hwl ⊢
    · exact ha w (hprocs w hwl) hwu hwl
    · rfl
    · cases hwl
  · obtain ⟨hst, hot⟩ := still_own (ha t hmem (Ne.symm hut) hlive) hp h
    by_cases hwt : w = t
    · subst hwt
      rw [Function.update_self] at hwl ⊢
      exact hst hwl
    · rw [Function.update_of_ne hwt, hot] at hwl ⊢
      exact ha w (hprocs w hwl) hwu hwl

end State

end Dthreads.Scheduler
