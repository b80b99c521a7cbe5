import Dthreads.Scheduler.Serial
import Dthreads.Scheduler.Sigwait

/-! # The release of spawned threads

A new thread waits in `waitParentNotify` until its parent ends the fork phase. The parent counts its
children in `_children_threads_count`, adds them to the fence and wakes them up in the next operation
that starts with `startFence`. -/

namespace Dthreads.Scheduler

open Transition

/-! ## The discipline of a spawner -/

namespace Local

/-- No child is counted in `_children_threads_count` and not in the fence. -/
def Clear (l : Local) : Prop := l.fenceEnabled = true ∨ l.childrenThreadsCount = 0

/-- The thread has children that it has yet to add to the fence, or to wake up. -/
def tending (l : Local) : Bool :=
  !l.registering &&
    (!l.fenceEnabled && l.childrenThreadsCount ≠ 0 || l.pending.head?.any notifies)

/-- The thread creates a process next. -/
def forking (l : Local) : Bool :=
  match l.pending with
  | .forkSpawn _ :: _ => true
  | _ => false

theorem clear_of_not_tending {l : Local} (h : l.tending = false) (hr : l.registering = false) :
    l.Clear ∧ l.pending.head?.any notifies = false := by
  simp only [tending, hr, Bool.not_false, Bool.true_and, Bool.or_eq_false_iff, Bool.and_eq_false_iff,
    Bool.not_eq_false', decide_eq_false_iff_not, not_not] at h
  exact h

end Local

/-- The instruction passes the token on, or makes way for one that does. -/
def yields : Instr → Bool
  | .lockIsowner _ | .isSingleWorkingThread _ | .getLockAgain _ | .lockTest _ _ | .lockSet _ _
  | .endCriticalSection | .procExit => true
  | i => State.movesToken i

/-- The instruction belongs to the creation of a thread, or begins or ends a fork phase. -/
def phases : Instr → Bool
  | .startFence | .disableFence | .countChild | .forkSpawn _ | .waitChildRegistered
  | .notifyWaitingChildren | .detJoin _ true | .childRegister _ | .waitParentNotify | .waitNotified
  | .closeIfSingle => true
  | _ => false

/-- The second instruction may come right after the first one. -/
def precedes (i : Instr) : Instr → Bool
  | .forkSpawn _ => i = .countChild
  | .waitNotified => i = .waitParentNotify
  | _ => true

/-- A thread that starts with `fence` (`_fence_enabled`) and `n` (`_children_threads_count`) runs these
instructions: it passes the token on only with no child to count, it counts a child right before it
creates it, and it wakes its children up right after `startFence`. -/
def Lawful : Bool → ℕ → List Instr → Prop
  | _, _, [] => True
  | fence, n, i :: rest =>
      (yields i = true → fence = true ∨ n = 0) ∧
      rest.head?.all (precedes i) = true ∧
      match i with
      | .startFence => fence = false ∧ rest.head?.any notifies = true ∧ Lawful true 0 rest
      | .disableFence => fence = true ∧ Lawful false 0 rest
      | .countChild =>
          fence = false ∧ (∃ c, rest.head? = some (.forkSpawn c)) ∧ Lawful fence (n + 1) rest
      | .forkSpawn _ =>
          fence = false ∧ rest.head? = some .waitChildRegistered ∧ Lawful fence n rest
      | .waitChildRegistered => fence = false ∧ n ≠ 0 ∧ Lawful fence n rest
      | .notifyWaitingChildren | .detJoin _ true | .waitParentNotify =>
          fence = true ∧ Lawful fence n rest
      | .childRegister _ => Lawful true n rest
      | .closeIfSingle => fence = true ∧ rest = []
      | _ => Lawful fence n rest

/-- An instruction that may come first may come after any other. -/
theorem precedes_of {i j : Instr} (h : phases j = false) : precedes i j = true := by
  cases j <;> first | rfl | cases h

/-- Instructions that belong to no phase may come before a lawful list. -/
theorem Lawful.append {fence : Bool} {n : ℕ} {js rest : List Instr} (hr : Lawful fence n rest)
    (hjs : ∀ j ∈ js, phases j = false ∧ (yields j = true → fence = true ∨ n = 0))
    (hf : ∀ i, rest.head?.all (precedes i) = true) : Lawful fence n (js ++ rest) := by
  induction js with
  | nil => exact hr
  | cons j js ih =>
      obtain ⟨hp, hy⟩ := hjs j List.mem_cons_self
      have hrest := ih fun k hk => hjs k (List.mem_cons_of_mem _ hk)
      have hhead : (js ++ rest).head?.all (precedes j) = true := by
        cases js with
        | nil => exact hf j
        | cons k js => exact precedes_of (hjs k (List.mem_cons_of_mem _ List.mem_cons_self)).1
      refine ⟨hy, hhead, ?_⟩
      cases j with
      | detJoin v w =>
          cases w with
          | false => exact hrest
          | true => cases hp
      | _ => first | exact hrest | cases hp

/-- What an operation needs that passes the token on and has no code for new threads. -/
def Op.mayPass (l : Local) : Op → Prop
  | .condWait _ _ | .threadDeregister => l.Clear
  | .cancel _ => l.tokenHolding = true ∨ l.Clear
  | _ => True

theorem Local.wakeChildren_lawful {l : Local} {rest : List Instr}
    (hr : ∀ n, Lawful true n rest) (hf : ∀ i, rest.head?.all (precedes i) = true) :
    Lawful l.fenceEnabled l.childrenThreadsCount (l.wakeChildren rest) := by
  unfold Local.wakeChildren
  split
  · rename_i hfe
    rw [hfe]
    exact hr _
  · rename_i hfe
    split
    · trivial
    · exact ⟨nofun, rfl, by simpa using hfe, rfl, nofun, hf _, rfl, hr 0⟩

/-- Every operation wakes the children up before it passes the token on, but for those that have no
code for it. -/
theorem program_lawful {l : Local} {op : Op} (h : op.mayPass l) :
    Lawful l.fenceEnabled l.childrenThreadsCount (l.program op) := by
  cases op with
  | mutexLock m => exact l.wakeChildren_lawful (fun n => by simp [Lawful, yields, precedes]) (by simp [precedes])
  | barrierWait b =>
      refine l.wakeChildren_lawful (fun n => ?_) (by simp [Local.waitToken, Local.waitFence, precedes])
      simp [Local.waitToken, Local.waitFence, Lawful, yields, precedes]
  | spawn c =>
      simp only [Local.program, Local.spawn]
      cases hfe : l.fenceEnabled <;> cases l.protectionEnabled <;>
        simp [Lawful, yields, precedes, Local.waitToken, Local.waitFence, State.movesToken]
  | mutexUnlock m =>
      simp only [Local.program, Local.mutexUnlock]
      split
      · rename_i hfe
        simp [Lawful, yields, precedes, hfe]
      · trivial
  | condWait c m =>
      have hclear : l.fenceEnabled = true ∨ l.childrenThreadsCount = 0 := h
      simp [Local.program, Local.condWait, Lawful, precedes, hclear]
  | condSignal c =>
      simp only [Local.program, Local.condSignal, Local.underToken]
      split
      · rename_i hfe
        split <;> simp [Lawful, precedes, Local.waitToken, Local.waitFence, hfe]
      · trivial
  | condBroadcast c =>
      simp only [Local.program, Local.condBroadcast, Local.underToken]
      split
      · rename_i hfe
        split <;> simp [Lawful, precedes, Local.waitToken, Local.waitFence, hfe]
      · trivial
  | join v =>
      simp only [Local.program, Local.join]
      cases hfe : l.fenceEnabled <;>
        simp [Lawful, yields, precedes, Local.waitToken, Local.waitFence, State.movesToken, notifies, precedes]
  | cancel v =>
      simp only [Local.program, Local.cancel, Local.underToken]
      split
      · simp [Lawful, yields, precedes, State.movesToken]
      · rename_i ht
        have hclear : l.fenceEnabled = true ∨ l.childrenThreadsCount = 0 := h.resolve_left ht
        simp [Lawful, precedes, Local.waitToken, Local.waitFence, precedes, hclear]
  | threadDeregister =>
      have hclear : l.fenceEnabled = true ∨ l.childrenThreadsCount = 0 := h
      simp [Local.program, Local.threadDeregister, Local.waitToken, Local.waitFence, Lawful, precedes, hclear]
  | mutexInit m => simp [Local.program, Lawful, yields, State.movesToken]
  | condInit c => simp [Local.program, Lawful, yields, State.movesToken]
  | barrierInit b n => simp [Local.program, Lawful, yields, State.movesToken]

/-- What an instruction pushes passes the token on only if the instruction makes way for it. -/
theorem Pushes.passes {l : Local} {i : Instr} {js : List Instr} (h : Pushes l i js) :
    ∀ j ∈ js, phases j = false ∧ (yields j = true → yields i = true) := by
  cases h with
  | done => simp
  | arrivedSpin k i hi =>
      simp [phases, yields, State.movesToken]
  | arrivedWait k i hi =>
      simp [phases, yields, State.movesToken]
  | again m =>
      unfold Local.getLockAgain
      split <;> simp [Local.waitToken, Local.waitFence, phases, yields, State.movesToken]
  | endCritical =>
      unfold Local.endCriticalSection
      split <;> simp [Local.waitFence, phases, yields, State.movesToken]
  | taken m k =>
      cases k <;> simp [Local.lockFailed, Local.waitFence, phases, yields, State.movesToken]
  | exhausted m k =>
      cases k <;> simp [Local.lockFailed, Local.waitFence, phases, yields, State.movesToken]
  | _ => simp [phases, yields, State.movesToken]

/-- An operation begins with an instruction that may come first. -/
theorem program_head (l : Local) (op : Op) :
    (l.program op).head?.all (precedes .procExit) = true := by
  cases op <;>
    simp only [Local.program, Local.mutexLock, Local.mutexUnlock, Local.condWait, Local.condSignal,
      Local.condBroadcast, Local.barrierWait, Local.spawn, Local.join, Local.cancel,
      Local.threadDeregister, Local.wakeChildren, Local.underToken, Local.waitToken, Local.waitFence] <;>
    (repeat' split) <;> rfl

namespace State

variable {s : State} {t : Tid} {rest : List Instr} {i : Instr} {d : Determ} {l : Local}

/-- The instructions that change `_fence_enabled` or `_children_threads_count`, the exit, and the one
that another must follow. -/
def setsPhase : Instr → Bool
  | .startFence | .disableFence | .countChild | .childRegister _ | .closeIfSingle | .procExit
  | .waitParentNotify => true
  | _ => false

theorem own_phase (h : s.own t rest i = some (d, l)) (hi : setsPhase i = false) :
    l.fenceEnabled = (s.locals t).fenceEnabled ∧
      l.childrenThreadsCount = (s.locals t).childrenThreadsCount := by
  have harrive : ∀ k, some (s.determ.arrive (s.locals t) k rest) = some (d, l) →
      l.fenceEnabled = (s.locals t).fenceEnabled ∧
        l.childrenThreadsCount = (s.locals t).childrenThreadsCount := by
    intro k ha
    unfold Determ.arrive at ha
    split at ha <;> cases ha <;> exact ⟨rfl, rfl⟩
  cases i with
  | fenceEnter k =>
      simp only [own] at h
      split at h
      · exact harrive k h
      · split at h <;> cases h <;> exact ⟨rfl, rfl⟩
  | fenceArrive k => exact harrive k h
  | condArrival k =>
      simp only [own] at h
      split at h
      · exact harrive k h
      · cases h
  | barrierArrive b =>
      simp only [own, Option.map_eq_some_iff] at h
      obtain ⟨be, -, h⟩ := h
      split at h <;> cases h <;> exact ⟨rfl, rfl⟩
  | startFence | disableFence | countChild | childRegister | closeIfSingle | procExit => cases hi
  | waitParentNotify => cases hi
  | _ =>
      simp only [own] at h
      (repeat' split at h) <;> cases h <;> exact ⟨rfl, rfl⟩

/-- A thread stops with its exit, or when it cancels itself. -/
theorem own_live (h : s.own t rest i = some (d, l)) (hl : (s.locals t).live = true)
    (hn : l.live = false) : i = .procExit ∨ i = .kill t := by
  have harrive : ∀ k, some (s.determ.arrive (s.locals t) k rest) = some (d, l) → l.live = true := by
    intro k ha
    unfold Determ.arrive at ha
    split at ha <;> cases ha <;> exact hl
  have hstay : l.live = true → i = .procExit ∨ i = .kill t := fun hlive => by
    rw [hlive] at hn
    cases hn
  cases i with
  | fenceEnter k =>
      refine hstay ?_
      simp only [own] at h
      split at h
      · exact harrive k h
      · split at h <;> cases h <;> exact hl
  | fenceArrive k => exact hstay (harrive k h)
  | condArrival k =>
      simp only [own] at h
      split at h
      · exact hstay (harrive k h)
      · cases h
  | childRegister p =>
      obtain ⟨rfl, rfl⟩ : s.determ.childRegister (s.locals t) t p rest = (d, l) := Option.some.inj h
      exact hstay hl
  | barrierArrive b =>
      simp only [own, Option.map_eq_some_iff] at h
      obtain ⟨be, -, h⟩ := h
      split at h <;> cases h <;> exact hstay hl
  | kill v =>
      cases h
      obtain rfl : v = t := of_decide_eq_false hn |> not_not.mp
      exact .inr rfl
  | procExit => exact .inl rfl
  | _ =>
      simp only [own] at h
      (repeat' split at h) <;> cases h <;> exact hstay hl

/-- An instruction that changes neither variable leaves the rest of its operation lawful. -/
theorem Lawful.rest_of {fence : Bool} {n : ℕ} (h : Lawful fence n (i :: rest))
    (hi : setsPhase i = false) :
    Lawful fence n rest ∧ ∀ j, rest.head?.all (precedes j) = true := by
  obtain ⟨-, hf, hm⟩ := h
  constructor
  · cases i with
    | detJoin v w =>
        cases w with
        | false => exact hm
        | true => exact hm.2
    | forkSpawn c => exact hm.2.2
    | waitChildRegistered => exact hm.2.2
    | notifyWaitingChildren => exact hm.2
    | startFence | disableFence | countChild | childRegister | closeIfSingle | procExit => cases hi
    | waitParentNotify => cases hi
    | _ => exact hm
  · intro j
    cases hr : rest.head? with
    | none => rfl
    | some k =>
        rw [hr] at hf
        cases k with
        | forkSpawn c =>
            obtain rfl : i = .countChild := of_decide_eq_true hf
            cases hi
        | waitNotified =>
            obtain rfl : i = .waitParentNotify := of_decide_eq_true hf
            cases hi
        | _ => rfl

/-- Every instruction keeps the discipline. -/
theorem own_lawful (h : s.own t rest i = some (d, l))
    (hs : Lawful (s.locals t).fenceEnabled (s.locals t).childrenThreadsCount (i :: rest)) :
    Lawful l.fenceEnabled l.childrenThreadsCount l.pending := by
  cases hi : setsPhase i with
  | true =>
      obtain ⟨-, -, hm⟩ := hs
      cases i with
      | disableFence =>
          cases h
          exact hm.2
      | startFence | countChild =>
          cases h
          exact hm.2.2
      | childRegister p =>
          obtain ⟨rfl, rfl⟩ : s.determ.childRegister (s.locals t) t p rest = (d, l) := Option.some.inj h
          exact hm
      | closeIfSingle =>
          obtain ⟨hf, rfl⟩ := hm
          simp only [own] at h
          split at h <;> cases h <;> trivial
      | waitParentNotify =>
          cases h
          exact hm.2
      | procExit =>
          cases h
          trivial
      | _ => cases hi
  | false =>
      have hne : i ≠ .procExit := by
        rintro rfl
        cases hi
      obtain ⟨hrest, hf⟩ := Lawful.rest_of hs hi
      obtain ⟨js, hjs, hp⟩ := own_pending h hne
      obtain ⟨hfe, hn⟩ := own_phase h hi
      rw [hfe, hn, hp]
      exact hrest.append (fun j hj => ⟨(hjs.passes j hj).1, fun hy => hs.1 ((hjs.passes j hj).2 hy)⟩) hf

end State

/-! ## The history -/

/-- The parent of each process, the children that a thread has created since it last ran `startFence`,
the children that `startFence` has counted, and the children whose parent has passed the token on or
exited since. -/
structure Kin where
  parent : Tid → Option Tid
  brood : Tid → List Tid
  counted : Tid → Bool
  left : Tid → Bool

namespace Kin

def fork (k : Kin) (t c : Tid) : Kin where
  parent := Function.update k.parent c (some t)
  brood := Function.update (Function.update k.brood c []) t (c :: k.brood t)
  counted := Function.update k.counted c false
  left := Function.update k.left c false

def count (k : Kin) (t : Tid) : Kin :=
  { k with
    brood := Function.update k.brood t []
    counted := fun c => k.counted c || k.parent c = some t }

def leave (k : Kin) (t : Tid) : Kin :=
  { k with left := fun c => k.left c || k.parent c = some t }

/-- The history after an instruction of `t`. -/
def ran (k : Kin) (t : Tid) : Instr → Kin
  | .forkSpawn c => k.fork t c
  | .startFence => k.count t
  | .kill v => k.leave v
  | .procExit => k.leave t
  | i => if State.movesToken i then k.leave t else k

theorem ran_brood {k : Kin} {t : Tid} {i : Instr} (hf : ∀ c, i ≠ .forkSpawn c)
    (hs : i ≠ .startFence) : (k.ran t i).brood = k.brood := by
  cases i with
  | forkSpawn c => exact absurd rfl (hf c)
  | startFence => exact absurd rfl hs
  | _ => rfl

section Ran

variable {k : Kin} {t c : Tid} {i : Instr}

theorem ran_parent (hf : i ≠ .forkSpawn c) : (k.ran t i).parent c = k.parent c := by
  cases i with
  | forkSpawn v =>
      have hcv : c ≠ v := fun he => hf (congrArg _ he.symm)
      exact Function.update_of_ne hcv ..
  | _ => rfl

theorem ran_brood_of_ne {u : Tid} (hut : u ≠ t) (hf : i ≠ .forkSpawn u) :
    (k.ran t i).brood u = k.brood u := by
  cases i with
  | forkSpawn v =>
      have huv : u ≠ v := fun he => hf (congrArg _ he.symm)
      simp [ran, fork, hut, huv]
  | startFence => exact Function.update_of_ne hut ..
  | _ => rfl

theorem ran_counted (hf : i ≠ .forkSpawn c) : (k.ran t i).counted c =
    (k.counted c || (i = .startFence ∧ k.parent c = some t : Bool)) := by
  cases i with
  | forkSpawn v =>
      have hcv : c ≠ v := fun he => hf (congrArg _ he.symm)
      simp [ran, fork, hcv]
  | startFence => simp [ran, count]
  | _ =>
      change k.counted c = _
      simp

/-- The children that a step leaves behind. -/
theorem ran_left (h : (k.ran t i).left c = true) :
    k.left c = true ∨ ∃ p, k.parent c = some p ∧ (i = .kill p ∨ p = t ∧ yields i = true) := by
  have hleave : ∀ p, (k.leave p).left c = true → k.left c = true ∨ k.parent c = some p := by
    intro p hc
    simpa [leave] using hc
  cases i with
  | forkSpawn v =>
      by_cases hc : c = v
      · subst hc
        simp [ran, fork] at h
      · exact .inl (by simpa [ran, fork, hc] using h)
  | kill v => exact (hleave v h).imp_right fun hp => ⟨v, hp, .inl rfl⟩
  | procExit => exact (hleave t h).imp_right fun hp => ⟨t, hp, .inr ⟨rfl, rfl⟩⟩
  | startFence => exact .inl h
  | putToken | condEnter | barrierEnter | detJoin | joinBlock | deregister =>
      exact (hleave t h).imp_right fun hp => ⟨t, hp, .inr ⟨rfl, rfl⟩⟩
  | _ => exact .inl h

theorem ran_fork_left : (k.ran t (.forkSpawn c)).left c = false := Function.update_self ..

end Ran

def after (k : Kin) (S : SigState) : SigLabel → Kin
  | .step (.run t) =>
      match (S.base.locals t).pending with
      | i :: _ => k.ran t i
      | [] => k
  | .leave t => k.leave t
  | _ => k

end Kin

/-- The machine with the history of its threads. -/
structure Family where
  sig : SigState
  kin : Kin

namespace Family

def start (s : State) : Family :=
  ⟨SigState.start s, ⟨fun _ => none, fun _ => [], fun _ => false, fun _ => false⟩⟩

def step (F : Family) (a : SigLabel) : Option Family :=
  (F.sig.step a).map fun S => ⟨S, F.kin.after F.sig a⟩

/-- A thread with children to count or to wake up does not exit, wait or leave, and is not cancelled,
and no thread creates a process while another one waits for its child. -/
def Tended (F : Family) : SigLabel → Prop
  | .step (.call t op) => op.mayPass (F.sig.base.locals t)
  | .step (.run t) =>
      match (F.sig.base.locals t).pending with
      | .forkSpawn _ :: _ => ∀ p ∈ F.sig.base.procs, (F.sig.base.locals p).live = true →
          (F.sig.base.locals p).awaiting = false
      | .kill v :: _ => (F.sig.base.locals v).tending = false
      | _ => True
  | .leave t => (F.sig.base.locals t).Clear
  | _ => True

end Family

instance (l : Local) : Decidable l.Clear := inferInstanceAs (Decidable (_ ∨ _))

instance (l : Local) : (op : Op) → Decidable (op.mayPass l)
  | .condWait _ _ | .threadDeregister => inferInstanceAs (Decidable l.Clear)
  | .cancel _ => inferInstanceAs (Decidable (_ ∨ _))
  | .mutexLock _ | .mutexUnlock _ | .condSignal _ | .condBroadcast _ | .barrierWait _ | .spawn _
  | .join _ | .mutexInit _ | .condInit _ | .barrierInit _ _ => .isTrue trivial

instance (F : Family) (a : SigLabel) : Decidable (F.Tended a) := by
  unfold Family.Tended
  split <;> first | infer_instance | (split <;> infer_instance)

/-! ## The invariant -/

namespace Local

/-- The new process has yet to run `childRegister`. -/
def unregistered (l : Local) : Bool :=
  match l.pending with
  | .childRegister _ :: _ => true
  | _ => false

end Local

/-- `_children_threads_count` counts the children that are not in the fence. -/
def Tally (l : Local) (brood : List Tid) : Prop :=
  if l.fenceEnabled = true ∨ l.unregistered = true then brood = []
  else l.childrenThreadsCount = brood.length + if l.forking then 1 else 0

theorem Tally.nil {l : Local} {b : List Tid} (h : Tally l b)
    (hc : l.fenceEnabled = true ∨ l.unregistered = true ∨ l.childrenThreadsCount = 0) : b = [] := by
  unfold Tally at h
  split at h
  · exact h
  · rename_i hn
    obtain ⟨hf, hu⟩ := not_or.mp hn
    have h0 := (hc.resolve_left hf).resolve_left hu
    exact List.length_eq_zero_iff.mp (by omega)

theorem Tally.of_nil {l : Local} (h : l.fenceEnabled = true ∨ l.unregistered = true) : Tally l [] := by
  unfold Tally
  rw [if_pos h]

namespace State

variable {s : State} {t : Tid} {rest : List Instr} {i : Instr} {d : Determ} {l : Local}

/-- What comes next may come after the instruction. -/
theorem own_precedes {j : Instr} (h : s.own t rest i = some (d, l))
    (hs : Lawful (s.locals t).fenceEnabled (s.locals t).childrenThreadsCount (i :: rest))
    (hj : l.pending.head? = some j) : precedes i j = true := by
  have hne : i ≠ .procExit := by
    rintro rfl
    cases h
    cases hj
  obtain ⟨js, hjs, hp⟩ := own_pending h hne
  rw [hp] at hj
  cases js with
  | nil =>
      have hhead := hs.2.1
      rw [show rest.head? = some j from hj] at hhead
      exact hhead
  | cons k js =>
      obtain rfl : k = j := Option.some.inj hj
      exact precedes_of (hjs.passes _ List.mem_cons_self).1

/-- No instruction brings a thread before `childRegister`, and only `countChild` before `forkSpawn`. -/
theorem own_forking (h : s.own t rest i = some (d, l)) (hh : Handshake s)
    (hp : (s.locals t).pending = i :: rest)
    (hs : Lawful (s.locals t).fenceEnabled (s.locals t).childrenThreadsCount (i :: rest)) :
    l.unregistered = false ∧ (l.forking = true → i = .countChild) := by
  constructor
  · by_contra hu
    unfold Local.unregistered at hu
    split at hu
    · rename_i p r hl
      have hmem : Instr.childRegister p ∈ l.pending := by
        rw [hl]
        exact List.mem_cons_self
      have hstart := (hh.start_own hp h hmem rfl).2
      rw [hl] at hstart
      cases hstart
    · exact hu rfl
  · intro hf
    unfold Local.forking at hf
    split at hf
    · rename_i c r hl
      exact of_decide_eq_true (own_precedes h hs (j := .forkSpawn c) (by rw [hl]; rfl))
    · cases hf

/-- A broadcast on `_cond_children` leaves no thread blocked. -/
theorem others_not_blocked (s : State) (t u : Tid) (hi : notifies i = true) :
    (s.others t i u).blocked = false := by
  have hn : (s.notifyChildren u).blocked = false := by
    unfold notifyChildren
    split
    · simp [Local.blocked]
    · rename_i hu
      by_contra hb
      simp only [Local.blocked, Bool.decide_and, Bool.not_eq_false, Bool.and_eq_true,
        decide_eq_true_eq] at hb
      obtain ⟨r, hr⟩ := List.head?_eq_some_iff.mp hb.1
      exact hu r hr
  cases i with
  | notifyWaitingChildren => exact hn
  | detJoin v w =>
      cases w with
      | true => exact hn
      | false => cases hi
  | _ => cases hi

/-- Every instruction keeps the count of the children. -/
theorem own_tally {k : Kin} (h : s.own t rest i = some (d, l)) (hh : Handshake s)
    (hp : (s.locals t).pending = i :: rest)
    (hs : Lawful (s.locals t).fenceEnabled (s.locals t).childrenThreadsCount (i :: rest))
    (hi : i ≠ .procExit) (ht : Tally (s.locals t) (k.brood t)) : Tally l ((k.ran t i).brood t) := by
  obtain ⟨hun, hfork⟩ := own_forking h hh hp hs
  have hnf : i ≠ .countChild → l.forking = false := fun hne => by
    by_contra hf
    exact hne (hfork (by simpa using hf))
  cases i with
  | startFence =>
      cases h
      rw [Kin.ran, Kin.count]
      dsimp only
      rw [Function.update_self]
      exact .of_nil (.inl rfl)
  | disableFence =>
      have hb := ht.nil (.inl hs.2.2.1)
      cases h
      rw [Kin.ran_brood (by simp) (by simp), hb]
      simp [Tally, hun, hnf (by simp)]
  | countChild =>
      obtain ⟨hf, ⟨c, hc⟩, -⟩ := hs.2.2
      obtain ⟨r, rfl⟩ := List.head?_eq_some_iff.mp hc
      cases h
      rw [Kin.ran_brood (by simp) (by simp)]
      simp only [Tally, hf, Local.unregistered, Local.forking, hp] at ht ⊢
      simpa using ht
  | forkSpawn c =>
      have hf := hs.2.2.1
      simp only [own, Option.ite_none_right_eq_some, Option.some.injEq, Prod.mk.injEq] at h
      obtain ⟨hct, rfl, rfl⟩ := h
      have hnf := hnf (by simp)
      rw [Kin.ran, Kin.fork]
      dsimp only
      rw [Function.update_self]
      have hun' : (s.locals t).unregistered = false := by simp [Local.unregistered, hp]
      have hnf' : (s.locals t).forking = true := by simp [Local.forking, hp]
      simp only [Tally, hun', hnf', hf] at ht
      simp only [Tally, hun, hnf]
      simpa [Local.goto, hf] using ht
  | childRegister p =>
      have hb : k.brood t = [] := ht.nil (.inr (.inl (by simp [Local.unregistered, hp])))
      obtain ⟨rfl, rfl⟩ : s.determ.childRegister (s.locals t) t p rest = (d, l) := Option.some.inj h
      rw [Kin.ran_brood (by simp) (by simp), hb]
      exact .of_nil (.inl rfl)
  | closeIfSingle =>
      have hb := ht.nil (.inl hs.2.2.1)
      rw [Kin.ran_brood (by simp) (by simp), hb]
      have hnf := hnf (by simp)
      simp only [own] at h
      split at h <;> cases h
      · simp [Tally, hun, hnf]
      · exact .of_nil (.inl hs.2.2.1)
  | waitParentNotify =>
      have hb := ht.nil (.inl hs.2.2.1)
      cases h
      rw [Kin.ran_brood (by simp) (by simp), hb]
      exact .of_nil (.inl hs.2.2.1)
  | procExit => exact absurd rfl hi
  | _ =>
      rw [Kin.ran_brood (by simp) (by simp)]
      obtain ⟨hf, hn⟩ := own_phase h rfl
      have hun' : (s.locals t).unregistered = false := by simp [Local.unregistered, hp]
      have hnf' : (s.locals t).forking = false := by simp [Local.forking, hp]
      have hnf := hnf (by simp)
      simp only [Tally, hun', hnf'] at ht
      simp only [Tally, hun, hnf, hf, hn]
      exact ht

end State

namespace Family

/-- The process runs, or waits for a signal. -/
def Present (F : Family) (t : Tid) : Prop :=
  (F.sig.base.locals t).live = true ∨ F.sig.mode t = .asleep

/-- The machine after an instruction of `t`. -/
def ran (F : Family) (t : Tid) (i : Instr) (d : Determ) (l : Local) : Family :=
  ⟨⟨⟨d, Function.update (F.sig.base.others t i) t l, F.sig.base.created i⟩,
    F.sig.modeAfter (.run t)⟩, F.kin.ran t i⟩

structure Kept (F : Family) : Prop where
  handshake : Handshake F.sig.base
  procs : ∀ t, F.Present t → t ∈ F.sig.base.procs
  lawful : ∀ t, (F.sig.base.locals t).live = true →
    Lawful (F.sig.base.locals t).fenceEnabled (F.sig.base.locals t).childrenThreadsCount
      (F.sig.base.locals t).pending
  asleep : ∀ t, F.sig.mode t = .asleep → (F.sig.base.locals t).pending = []
  tally : ∀ t, F.Present t → Tally (F.sig.base.locals t) (F.kin.brood t)
  gone : ∀ t, ¬ F.Present t → F.kin.brood t = []
  uncounted : ∀ c p, F.kin.parent c = some p → F.kin.counted c = false → c ∈ F.kin.brood p
  left : ∀ c, F.kin.left c = true → F.kin.counted c = true
  registering : ∀ c, (F.sig.base.locals c).live = true → (F.sig.base.locals c).registering = true →
    F.kin.left c = false ∧ F.kin.counted c = false ∧
      ∃ p, F.kin.parent c = some p ∧ (F.sig.base.locals p).live = true ∧
        (F.sig.base.locals p).awaiting = true
  blocked : ∀ c, (F.sig.base.locals c).live = true → (F.sig.base.locals c).blocked = true →
    F.kin.left c = false ∧ ∃ p, F.kin.parent c = some p ∧ (F.sig.base.locals p).live = true ∧
      (F.kin.counted c = true → (F.sig.base.locals p).pending.head?.any notifies = true)

namespace Kept

variable {F : Family} {t u p c : Tid} {i : Instr} {rest : List Instr} {d : Determ} {l : Local}

theorem brood_of_clear (h : Kept F) (ht : F.Present t) (hc : (F.sig.base.locals t).Clear) :
    F.kin.brood t = [] :=
  (h.tally t ht).nil (hc.imp_right .inr)

theorem registering_of_not_live (h : Kept F) (ha : F.sig.mode t = .asleep) :
    (F.sig.base.locals t).registering = false := by
  simp [Local.registering, h.asleep t ha]

theorem brood_nil (h : Kept F) (ht : (F.sig.base.locals t).tending = false) :
    F.kin.brood t = [] := by
  by_cases hp : F.Present t
  · cases hr : (F.sig.base.locals t).registering with
    | false => exact h.brood_of_clear hp (Local.clear_of_not_tending ht hr).1
    | true =>
        refine (h.tally t hp).nil ?_
        have hl : (F.sig.base.locals t).live = true := by
          refine hp.resolve_right fun ha => ?_
          rw [h.registering_of_not_live ha] at hr
          cases hr
        obtain ⟨j, hj, hs⟩ := (Option.any_eq_true ..).mp hr
        obtain ⟨r, hj⟩ := List.head?_eq_some_iff.mp hj
        have hlaw := h.lawful t hl
        rw [hj] at hlaw
        cases j with
        | childRegister n => exact .inr (.inl (by simp [Local.unregistered, hj]))
        | waitParentNotify => exact .inl hlaw.2.2.1
        | _ => cases hs
  · exact h.gone t hp

theorem counted_of (h : Kept F) (hb : F.kin.brood p = []) (hp : F.kin.parent c = some p) :
    F.kin.counted c = true := by
  by_contra hc
  have hmem := h.uncounted c p hp (by simpa using hc)
  rw [hb] at hmem
  cases hmem

/-- Without a child to count, a thread has a blocked child only if it wakes it up next. -/
theorem notifies_of (h : Kept F) (hb : F.kin.brood p = []) (hp : F.kin.parent c = some p)
    (hl : (F.sig.base.locals c).live = true) (hc : (F.sig.base.locals c).blocked = true) :
    (F.sig.base.locals p).pending.head?.any notifies = true := by
  obtain ⟨-, q, hq, -, hn⟩ := h.blocked c hl hc
  obtain rfl := Option.some.inj (hp.symm.trans hq)
  exact hn (h.counted_of hb hp)

theorem not_blocked (h : Kept F) (ht : (F.sig.base.locals p).tending = false)
    (hp : F.kin.parent c = some p) (hl : (F.sig.base.locals c).live = true) :
    (F.sig.base.locals c).blocked = false := by
  by_contra hb
  have hn := h.notifies_of (h.brood_nil ht) hp hl (by simpa using hb)
  have hr : (F.sig.base.locals p).registering = false := by
    obtain ⟨j, hj, hs⟩ := (Option.any_eq_true ..).mp hn
    rw [Local.registering, hj]
    cases j <;> first | rfl | cases hs
  rw [(Local.clear_of_not_tending ht hr).2] at hn
  cases hn

/-- A thread that waits for its child tends it. -/
theorem tending_of_awaiting (h : Kept F) (hl : (F.sig.base.locals p).live = true)
    (ha : (F.sig.base.locals p).awaiting = true) : (F.sig.base.locals p).tending = true := by
  obtain ⟨r, hr⟩ := List.head?_eq_some_iff.mp (by simpa [Local.awaiting] using ha :
    (F.sig.base.locals p).pending.head? = some .waitChildRegistered)
  have hlaw := h.lawful p hl
  rw [hr] at hlaw
  simp [Local.tending, Local.registering, startsUp, hr, hlaw.2.2.1, hlaw.2.2.2.1]

section Ran

variable (h : Kept F) (hal : F.sig.allows (.run t) = true) (hg : F.Tended (.step (.run t)))
  (hl : (F.sig.base.locals t).live = true) (hp : (F.sig.base.locals t).pending = i :: rest)
  (ho : F.sig.base.own t rest i = some (d, l))
include h hal hg hl hp ho

omit h hal hl ho in
theorem not_tending {v : Tid} (hi : i = .kill v) : (F.sig.base.locals v).tending = false := by
  subst hi
  simpa [Tended, hp] using hg

omit hal ho in
theorem forks : Handshake.Forks F.sig.base i rest := by
  rintro c rfl
  have hlaw := h.lawful t hl
  rw [hp] at hlaw
  refine ⟨hlaw.2.2.2.1, fun p hpl => ?_⟩
  simp only [Tended, hp] at hg
  exact hg p (h.procs p (.inl hpl)) hpl

omit hal hl ho in
theorem spares : Handshake.Spares F.sig.base t i := by
  intro p hi _ hpl
  by_contra ha
  have ht := h.tending_of_awaiting hpl (by simpa using ha)
  rw [not_tending hg hp hi] at ht
  cases ht

omit h hal hg hl ho in
theorem asleep_iff : (F.ran t i d l).sig.mode u = .asleep ↔ F.sig.mode u = .asleep ∧ i ≠ .kill u := by
  simp only [ran, SigState.modeAfter, hp, List.head?_cons]
  cases i with
  | kill v =>
      by_cases hu : u = v
      · subst hu
        simp
      · simp [hu, Ne.symm hu]
  | _ => simp

omit hal hg hl ho in
theorem awake : F.sig.mode t ≠ .asleep := by
  intro ha
  rw [h.asleep t ha] at hp
  cases hp

omit h hg hl ho in
theorem fork_awake (hi : i = .forkSpawn c) : F.sig.mode c ≠ .asleep := by
  subst hi
  simp only [SigState.allows, hp, List.head?_cons] at hal
  exact of_decide_eq_true hal

omit h hal hg hl ho in
/-- What another thread is after the instruction. -/
theorem present_ran (hut : u ≠ t) (hu : (F.ran t i d l).Present u) :
    (i = .forkSpawn u ∧ (F.ran t i d l).sig.base.locals u = (F.sig.base.locals t).forked) ∨
    (F.Present u ∧ i ≠ .kill u ∧
      ((F.ran t i d l).sig.base.locals u = F.sig.base.locals u ∨
        (F.ran t i d l).sig.base.locals u = { F.sig.base.locals u with notified := true })) := by
  have hloc : (F.ran t i d l).sig.base.locals u = F.sig.base.others t i u :=
    Function.update_of_ne hut ..
  unfold Present at hu
  rw [asleep_iff hp, hloc] at hu
  rw [hloc]
  have hk : i ≠ .kill u := by
    rintro rfl
    simp [State.others] at hu
  rcases F.sig.base.others_cases t i u with he | ⟨he, -⟩ | ⟨hi, he⟩ | ⟨hi, he⟩
  · rw [he] at hu ⊢
    exact .inr ⟨hu.imp_right And.left, hk, .inl rfl⟩
  · rw [he] at hu ⊢
    exact .inr ⟨hu.imp_right And.left, hk, .inr rfl⟩
  · exact .inl ⟨hi, he⟩
  · exact absurd hi hk

omit h hg hl in
theorem absent_of_fork (hi : i = .forkSpawn c) : ¬ F.Present c := by
  rintro (hc | hc)
  · subst hi
    simp [State.own, hc] at ho
  · exact fork_awake hal hp hi hc

omit hal ho in
/-- A thread that leaves its children behind has counted them. -/
theorem brood_of_left (hi : i = .kill p ∨ p = t ∧ yields i = true) : F.kin.brood p = [] := by
  rcases hi with hi | ⟨rfl, hy⟩
  · exact h.brood_nil (not_tending hg hp hi)
  · have hlaw := h.lawful p hl
    rw [hp] at hlaw
    exact h.brood_of_clear (.inl hl) (hlaw.1 hy)

omit hg in
theorem tally_ran (hu : (F.ran t i d l).Present u) :
    Tally ((F.ran t i d l).sig.base.locals u) ((F.kin.ran t i).brood u) := by
  by_cases hut : u = t
  · subst hut
    have hself : (F.ran u i d l).sig.base.locals u = l := Function.update_self ..
    rw [hself]
    have hlaw := h.lawful u hl
    rw [hp] at hlaw
    refine State.own_tally ho h.handshake hp hlaw ?_ (h.tally u (.inl hl))
    rintro rfl
    cases ho
    rcases hu with hu | hu
    · rw [hself] at hu
      cases hu
    · exact h.awake hp ((asleep_iff hp).mp hu).1
  · rcases present_ran hp hut hu with ⟨rfl, he⟩ | ⟨hpu, -, he⟩
    · have hb : (F.kin.ran t (.forkSpawn u)).brood u = [] := by
        simp [Kin.ran, Kin.fork, hut]
      rw [he, hb]
      exact .of_nil (.inr rfl)
    · have ht := h.tally u hpu
      rw [Kin.ran_brood_of_ne hut fun hi => absent_of_fork hal hp ho hi hpu]
      rcases he with he | he <;> rw [he] <;> exact ht

omit hal in
theorem gone_ran (hu : ¬ (F.ran t i d l).Present u) : (F.kin.ran t i).brood u = [] := by
  by_cases hut : u = t
  · subst hut
    have hn : l.live = false := by
      by_contra hn
      refine hu (.inl ?_)
      rw [show (F.ran u i d l).sig.base.locals u = l from Function.update_self ..]
      simpa using hn
    rcases State.own_live ho hl hn with rfl | rfl
    · rw [Kin.ran_brood (by simp) (by simp)]
      exact h.brood_of_left hg hl hp (.inr ⟨rfl, rfl⟩)
    · rw [Kin.ran_brood (by simp) (by simp)]
      exact h.brood_of_left hg hl hp (.inl rfl)
  · by_cases hf : i = .forkSpawn u
    · subst hf
      simp [Kin.ran, Kin.fork, hut]
    · rw [Kin.ran_brood_of_ne hut hf]
      by_cases hk : i = .kill u
      · exact h.brood_nil (not_tending hg hp hk)
      · refine h.gone u fun hpu => hu (hpu.imp (fun hul => ?_) fun ha => (asleep_iff hp).mpr ⟨ha, hk⟩)
        rw [show (F.ran t i d l).sig.base.locals u = F.sig.base.others t i u from
          Function.update_of_ne hut ..]
        rcases F.sig.base.others_cases t i u with he | ⟨he, -⟩ | ⟨hi, -⟩ | ⟨hi, -⟩
        · rw [he]
          exact hul
        · rw [he]
          exact hul
        · exact absurd hi hf
        · exact absurd hi hk

omit hg hl in
theorem uncounted_ran (hpar : (F.kin.ran t i).parent c = some p)
    (hc : (F.kin.ran t i).counted c = false) : c ∈ (F.kin.ran t i).brood p := by
  by_cases hi : i = .forkSpawn c
  · subst hi
    obtain rfl : t = p := by simpa [Kin.ran, Kin.fork] using hpar
    simp [Kin.ran, Kin.fork]
  · rw [Kin.ran_parent hi] at hpar
    rw [Kin.ran_counted hi, Bool.or_eq_false_iff, decide_eq_false_iff_not] at hc
    have hmem := h.uncounted c p hpar hc.1
    by_cases hpt : p = t
    · subst hpt
      by_cases hf : ∃ v, i = .forkSpawn v
      · obtain ⟨v, rfl⟩ := hf
        simp [Kin.ran, Kin.fork, hmem]
      · rwa [Kin.ran_brood (fun v hv => hf ⟨v, hv⟩) fun hs => hc.2 ⟨hs, hpar⟩]
    · rw [Kin.ran_brood_of_ne hpt]
      · exact hmem
      · intro hf
        rw [h.gone p (absent_of_fork hal hp ho hf)] at hmem
        cases hmem

omit hal ho in
theorem left_ran (hc : (F.kin.ran t i).left c = true) : (F.kin.ran t i).counted c = true := by
  have hi : i ≠ .forkSpawn c := by
    rintro rfl
    rw [Kin.ran_fork_left] at hc
    cases hc
  rw [Kin.ran_counted hi]
  have hold : F.kin.counted c = true := by
    rcases Kin.ran_left hc with hc | ⟨p, hpar, hp'⟩
    · exact h.left c hc
    · exact h.counted_of (h.brood_of_left hg hl hp hp') hpar
  rw [hold, Bool.true_or]

omit hal in
theorem registering_ran (hc : ((F.ran t i d l).sig.base.locals c).live = true)
    (hr : ((F.ran t i d l).sig.base.locals c).registering = true) :
    (F.kin.ran t i).left c = false ∧ (F.kin.ran t i).counted c = false ∧
      ∃ p, (F.kin.ran t i).parent c = some p ∧ ((F.ran t i d l).sig.base.locals p).live = true ∧
        ((F.ran t i d l).sig.base.locals p).awaiting = true := by
  have hfork := h.forks hg hl hp
  rcases h.handshake.registering_cases hl hp ho hc hr with rfl | ⟨hcl, hcr, -⟩
  · refine ⟨Kin.ran_fork_left, Function.update_self .., t, Function.update_self .., ?_⟩
    have hself : (F.ran t (.forkSpawn c) d l).sig.base.locals t = l := Function.update_self ..
    rw [hself]
    simp only [State.own, Option.ite_none_right_eq_some, Option.some.injEq, Prod.mk.injEq] at ho
    obtain ⟨-, -, rfl⟩ := ho
    exact ⟨hl, decide_eq_true (hfork c rfl).1⟩
  · obtain ⟨hleft, hcount, p, hpar, hpl, hpa⟩ := h.registering c hcl hcr
    have hi : ∀ v, i ≠ .forkSpawn v := by
      rintro v rfl
      rw [(hfork v rfl).2 p hpl] at hpa
      cases hpa
    have hpt : p ≠ t := by
      rintro rfl
      obtain rfl : i = .waitChildRegistered := by simpa [Local.awaiting, hp] using hpa
      have hfalse := (h.handshake.parent c hcl hcr).1
      simp [State.own, hfalse] at ho
    refine ⟨?_, ?_, p, (Kin.ran_parent (hi c)).trans hpar, ?_⟩
    · by_contra hn
      rcases Kin.ran_left (by simpa using hn) with hn | ⟨q, hq, hk⟩
      · rw [hn] at hleft
        cases hleft
      · rw [h.counted_of (h.brood_of_left hg hl hp hk) hq] at hcount
        cases hcount
    · rw [Kin.ran_counted (hi c), hcount, Bool.false_or, decide_eq_false_iff_not]
      exact fun hs => hpt (Option.some.inj (hpar.symm.trans hs.2))
    · rw [show (F.ran t i d l).sig.base.locals p = F.sig.base.others t i p from
          Function.update_of_ne hpt ..]
      exact Handshake.awaiting_ran (h.spares hg hp) ho hpl hpa hpt

omit hal in
/-- A blocked child that is not woken up keeps its parent. -/
theorem blocked_other (hnot : notifies i = false) (hc : (F.sig.base.locals c).live = true)
    (hb : (F.sig.base.locals c).blocked = true) :
    (F.kin.ran t i).left c = false ∧
      ∃ p, (F.kin.ran t i).parent c = some p ∧ ((F.ran t i d l).sig.base.locals p).live = true ∧
        ((F.kin.ran t i).counted c = true →
          ((F.ran t i d l).sig.base.locals p).pending.head?.any notifies = true) := by
  obtain ⟨hleft, p, hpar, hpl, hn⟩ := h.blocked c hc hb
  have hfork : ∀ v, (F.sig.base.locals v).live = true → i ≠ .forkSpawn v := by
    rintro v hv rfl
    simp [State.own, hv] at ho
  have hi := hfork c hc
  have hstay : ∀ q, F.kin.parent c = some q → ¬ (i = .kill q ∨ q = t ∧ yields i = true) := by
    intro q hq hk
    have hq' := h.notifies_of (h.brood_of_left hg hl hp hk) hq hc hb
    rcases hk with hk | ⟨rfl, -⟩
    · rw [h.not_blocked (not_tending hg hp hk) hq hc] at hb
      cases hb
    · rw [hp] at hq'
      exact absurd (hnot.symm.trans hq') (by rintro ⟨⟩)
  refine ⟨?_, p, (Kin.ran_parent hi).trans hpar, ?_⟩
  · by_contra hf
    rcases Kin.ran_left (by simpa using hf) with hf | ⟨q, hq, hk⟩
    · rw [hf] at hleft
      cases hleft
    · exact hstay q hq hk
  · rw [Kin.ran_counted hi, Bool.or_eq_true, decide_eq_true_eq]
    by_cases hpt : p = t
    · subst hpt
      rw [show (F.ran p i d l).sig.base.locals p = l from Function.update_self ..]
      constructor
      · by_contra hf
        rcases State.own_live ho hl (by simpa using hf) with rfl | rfl
        · exact hstay p hpar (.inr ⟨rfl, rfl⟩)
        · exact hstay p hpar (.inl rfl)
      · rintro (hk | ⟨rfl, -⟩)
        · have hi := hn hk
          rw [hp] at hi
          exact absurd (hnot.symm.trans hi) (by rintro ⟨⟩)
        · have hlaw := h.lawful p hl
          rw [hp] at hlaw
          cases ho
          exact hlaw.2.2.2.1
    · rw [show (F.ran t i d l).sig.base.locals p = F.sig.base.others t i p from
        Function.update_of_ne hpt ..]
      rcases F.sig.base.others_of_not_notifies t hnot p with he | ⟨hf, -⟩ | ⟨hk, -⟩
      · rw [he]
        exact ⟨hpl, fun hk => hn (hk.resolve_right fun hs =>
          hpt (Option.some.inj (hpar.symm.trans hs.2)))⟩
      · exact absurd hf (hfork p hpl)
      · exact absurd (.inl hk) (hstay p hpar)

omit hal in
theorem blocked_ran (hc : ((F.ran t i d l).sig.base.locals c).live = true)
    (hb : ((F.ran t i d l).sig.base.locals c).blocked = true) :
    (F.kin.ran t i).left c = false ∧
      ∃ p, (F.kin.ran t i).parent c = some p ∧ ((F.ran t i d l).sig.base.locals p).live = true ∧
        ((F.kin.ran t i).counted c = true →
          ((F.ran t i d l).sig.base.locals p).pending.head?.any notifies = true) := by
  have hlaw := h.lawful t hl
  rw [hp] at hlaw
  by_cases hct : c = t
  · subst hct
    rw [show (F.ran c i d l).sig.base.locals c = l from Function.update_self ..] at hb
    simp only [Local.blocked, Bool.decide_and, Bool.and_eq_true, decide_eq_true_eq] at hb
    obtain rfl : i = .waitParentNotify := of_decide_eq_true (State.own_precedes ho hlaw hb.1)
    obtain ⟨hleft, hcount, p, hpar, hpl, hpa⟩ := h.registering c hl (by simp [Local.registering, hp, startsUp])
    have hpc : p ≠ c := by
      rintro rfl
      simp [Local.awaiting, hp] at hpa
    refine ⟨hleft, p, hpar, ?_, fun hn => ?_⟩
    · rw [show (F.ran c .waitParentNotify d l).sig.base.locals p = F.sig.base.locals p from
        Function.update_of_ne hpc ..]
      exact hpl
    · rw [show (F.kin.ran c .waitParentNotify).counted c = F.kin.counted c from rfl, hcount] at hn
      cases hn
  · have hloc : (F.ran t i d l).sig.base.locals c = F.sig.base.others t i c :=
      Function.update_of_ne hct ..
    rw [hloc] at hc hb
    have hnot : notifies i = false := by
      by_contra hn
      rw [State.others_not_blocked _ _ _ (by simpa using hn)] at hb
      cases hb
    rcases F.sig.base.others_of_not_notifies t hnot c with he | ⟨-, he⟩ | ⟨-, he⟩
    · rw [he] at hc hb
      exact h.blocked_other hg hl hp ho hnot hc hb
    · rw [he] at hb
      simp [Local.blocked, Local.forked, Local.childStart] at hb
    · rw [he] at hc
      cases hc

theorem ran : Kept (F.ran t i d l) where
  handshake := h.handshake.ran (h.forks hg hl hp) (h.spares hg hp) hl hp ho
  procs u hu := by
    by_cases hut : u = t
    · exact State.mem_created (h.procs u (.inl (hut ▸ hl)))
    · rcases present_ran hp hut hu with ⟨rfl, -⟩ | ⟨hu, -⟩
      · simp only [Family.ran, State.created]
        split
        · assumption
        · simp
      · exact State.mem_created (h.procs u hu)
  lawful u hu := by
    by_cases hut : u = t
    · subst hut
      rw [show (F.ran u i d l).sig.base.locals u = l from Function.update_self ..]
      have hlaw := h.lawful u hl
      rw [hp] at hlaw
      exact State.own_lawful ho hlaw
    · rcases present_ran hp hut (.inl hu) with ⟨-, he⟩ | ⟨-, -, he | he⟩ <;> rw [he] at hu ⊢
      · simp [Local.forked, Local.childStart, Lawful, yields, precedes, State.movesToken]
      · exact h.lawful u hu
      · exact h.lawful u hu
  asleep u hu := by
    have hut : u ≠ t := by
      rintro rfl
      exact h.awake hp ((asleep_iff hp).mp hu).1
    rcases present_ran hp hut (.inr hu) with ⟨hi, -⟩ | ⟨-, -, he | he⟩
    · exact absurd ((asleep_iff hp).mp hu).1 (fork_awake hal hp hi)
    · rw [he]
      exact h.asleep u ((asleep_iff hp).mp hu).1
    · rw [he]
      exact h.asleep u ((asleep_iff hp).mp hu).1
  tally u hu := h.tally_ran hal hl hp ho hu
  gone u hu := h.gone_ran hg hl hp ho hu
  uncounted c p hpar hc := h.uncounted_ran hal hp ho hpar hc
  left c hc := h.left_ran hg hl hp hc
  registering c hc hr := h.registering_ran hg hl hp ho hc hr
  blocked c hc hb := h.blocked_ran hg hl hp ho hc hb

end Ran

/-- A thread between two operations calls one, or takes part in `sig_wait`. -/
theorem alter (h : Kept F) {mode : Tid → SigPhase} {k : Kin}
    (hnil : (F.sig.base.locals t).pending = [])
    (hd : d.childregistered = F.sig.base.determ.childregistered)
    (hf : l.fenceEnabled = (F.sig.base.locals t).fenceEnabled)
    (hn : l.childrenThreadsCount = (F.sig.base.locals t).childrenThreadsCount)
    (hs : ∀ j ∈ l.pending, startsUp j = false)
    (hhead : l.pending.head?.all (precedes .procExit) = true)
    (hlaw : l.live = true → Lawful l.fenceEnabled l.childrenThreadsCount l.pending)
    (hpres : F.Present t) (hpres' : l.live = true ∨ mode t = .asleep)
    (hmode : ∀ u, u ≠ t → mode u = F.sig.mode u) (hrest : mode t = .asleep → l.pending = [])
    (hk : k = F.kin ∧ l.live = true ∨ k = F.kin.leave t ∧ (F.sig.base.locals t).Clear) :
    Kept ⟨⟨⟨d, Function.update F.sig.base.locals t l, F.sig.base.procs⟩, mode⟩, k⟩ := by
  have hpar : k.parent = F.kin.parent ∧ k.brood = F.kin.brood ∧ k.counted = F.kin.counted := by
    rcases hk with ⟨rfl, -⟩ | ⟨rfl, -⟩ <;> exact ⟨rfl, rfl, rfl⟩
  obtain ⟨hkp, hkb, hkc⟩ := hpar
  have hbrood : k = F.kin.leave t ∧ (F.sig.base.locals t).Clear → F.kin.brood t = [] :=
    fun hk => h.brood_of_clear hpres hk.2
  have hother : ∀ u, u ≠ t → Function.update F.sig.base.locals t l u = F.sig.base.locals u :=
    fun u hu => Function.update_of_ne hu ..
  have hreg : ∀ u, (Function.update F.sig.base.locals t l u).registering = true → u ≠ t := by
    rintro u hr rfl
    rw [Function.update_self] at hr
    obtain ⟨j, hj, hst⟩ := (Option.any_eq_true ..).mp hr
    rw [hs j (List.mem_of_head? hj)] at hst
    cases hst
  have hblk : ∀ u, (Function.update F.sig.base.locals t l u).blocked = true → u ≠ t := by
    rintro u hb rfl
    rw [Function.update_self] at hb
    simp only [Local.blocked, Bool.decide_and, Bool.and_eq_true, decide_eq_true_eq] at hb
    rw [hb.1] at hhead
    cases hhead
  have hpresent : ∀ u, u ≠ t → (Present ⟨⟨⟨d, Function.update F.sig.base.locals t l,
      F.sig.base.procs⟩, mode⟩, k⟩ u ↔ F.Present u) := by
    intro u hut
    simp only [Present, hother u hut, hmode u hut]
  have hleft : ∀ c p, F.kin.parent c = some p → p ≠ t → F.kin.left c = false → k.left c = false := by
    intro c p hp hpt hc
    rcases hk with ⟨rfl, -⟩ | ⟨rfl, -⟩
    · exact hc
    · simpa [Kin.leave, hc, hp] using hpt
  refine
    { handshake := h.handshake.alter hnil hd hs
      procs := fun u hu => ?_
      lawful := fun u hu => ?_
      asleep := fun u hu => ?_
      tally := fun u hu => ?_
      gone := fun u hu => ?_
      uncounted := by rw [hkp, hkb, hkc]; exact h.uncounted
      left := fun c hc => ?_
      registering := fun c hc hr => ?_
      blocked := fun c hc hb => ?_ }
  · by_cases hut : u = t
    · exact hut ▸ h.procs t hpres
    · exact h.procs u ((hpresent u hut).mp hu)
  · dsimp only at hu ⊢
    by_cases hut : u = t
    · subst hut
      rw [Function.update_self] at hu ⊢
      exact hlaw hu
    · rw [hother u hut] at hu ⊢
      exact h.lawful u hu
  · dsimp only at hu ⊢
    by_cases hut : u = t
    · subst hut
      rw [Function.update_self]
      exact hrest hu
    · rw [hother u hut]
      exact h.asleep u (hmode u hut ▸ hu)
  · dsimp only
    rw [hkb]
    by_cases hut : u = t
    · subst hut
      rw [Function.update_self]
      have hfork : l.forking = false := by
        unfold Local.forking
        split
        · rename_i hp
          rw [hp] at hhead
          cases hhead
        · rfl
      have hun : l.unregistered = false := by
        unfold Local.unregistered
        split
        · rename_i hp
          exact hs _ (by rw [hp]; exact List.mem_cons_self)
        · rfl
      have ht := h.tally u hpres
      simp only [Tally, Local.unregistered, Local.forking, hnil] at ht
      simp only [Tally, hun, hfork, hf, hn]
      exact ht
    · rw [hother u hut]
      exact h.tally u ((hpresent u hut).mp hu)
  · dsimp only
    rw [hkb]
    by_cases hut : u = t
    · subst hut
      refine absurd (hpres'.imp_left fun hl => ?_) hu
      dsimp only
      rw [Function.update_self]
      exact hl
    · exact h.gone u fun hu' => hu ((hpresent u hut).mpr hu')
  · dsimp only at hc ⊢
    rw [hkc]
    rcases hk with ⟨rfl, -⟩ | hk
    · exact h.left c hc
    · have hb := hbrood hk
      obtain ⟨rfl, -⟩ := hk
      simp only [Kin.leave, Bool.or_eq_true, decide_eq_true_eq] at hc
      exact hc.elim (h.left c) (h.counted_of hb)
  · dsimp only at hc hr ⊢
    rw [hother c (hreg c hr)] at hc hr
    obtain ⟨hl, hcount, p, hp, hpl, hpa⟩ := h.registering c hc hr
    have hpt : p ≠ t := by
      rintro rfl
      simp [Local.awaiting, hnil] at hpa
    rw [hkp, hkc]
    refine ⟨hleft c p hp hpt hl, hcount, p, hp, ?_⟩
    rw [hother p hpt]
    exact ⟨hpl, hpa⟩
  · dsimp only at hc hb ⊢
    rw [hother c (hblk c hb)] at hc hb
    obtain ⟨hl, p, hp, hpl, hpn⟩ := h.blocked c hc hb
    rw [hkp, hkc]
    by_cases hpt : p = t
    · subst hpt
      have hcount : F.kin.counted c = false := by
        by_contra hct
        have := hpn (by simpa using hct)
        simp [hnil] at this
      rcases hk with ⟨rfl, hlive⟩ | hk
      · refine ⟨hl, p, hp, ?_, fun hct => ?_⟩
        · rw [Function.update_self]
          exact hlive
        · rw [hcount] at hct
          cases hct
      · rw [h.counted_of (hbrood hk) hp] at hcount
        cases hcount
    · refine ⟨hleft c p hp hpt hl, p, hp, ?_⟩
      rw [hother p hpt]
      exact ⟨hpl, hpn⟩

theorem step {F' : Family} {a : SigLabel} (h : Kept F) (hg : F.Tended a) (hs : F.step a = some F') :
    Kept F' := by
  rw [Family.step, Option.map_eq_some_iff] at hs
  obtain ⟨S, hs, rfl⟩ := hs
  cases a with
  | step a =>
      simp only [SigState.step, Option.ite_none_right_eq_some, Option.map_eq_some_iff] at hs
      obtain ⟨hal, s, hs, rfl⟩ := hs
      cases a with
      | call t op =>
          obtain ⟨hl, hnil, rfl⟩ := State.step_call hs
          exact h.alter hnil rfl rfl rfl (program_not_startsUp _ _) (program_head _ _)
            (fun _ => program_lawful hg) (.inl hl) (.inl hl) (fun _ _ => rfl)
            (fun ha => absurd (ha.symm.trans (of_decide_eq_true hal)) (by rintro ⟨⟩)) (.inl ⟨rfl, hl⟩)
      | run t =>
          obtain ⟨i, rest, d, l, hl, hp, ho, rfl⟩ := State.step_run hs
          have hk : F.kin.after F.sig (.step (.run t)) = F.kin.ran t i := by
            simp only [Kin.after, hp]
          rw [hk]
          exact h.ran hal hg hl hp ho
  | call t =>
      simp only [SigState.step, Option.ite_none_right_eq_some, Option.some.injEq] at hs
      obtain ⟨⟨hl, hnil, hm⟩, rfl⟩ := hs
      refine h.alter hnil rfl rfl rfl ?_ rfl (fun _ => ?_) (.inl hl) (.inl hl)
        (fun u hu => Function.update_of_ne hu ..) (fun ha => ?_) (.inl ⟨rfl, hl⟩)
      · simp [Local.sigWait, Local.waitToken, Local.waitFence, startsUp]
      · simp [Local.sigWait, Local.waitToken, Local.waitFence, Local.goto, Lawful, yields, precedes,
          State.movesToken]
      · simp at ha
  | leave t =>
      simp only [SigState.step, Option.ite_none_right_eq_some, Option.some.injEq] at hs
      obtain ⟨⟨hl, hnil, hm⟩, rfl⟩ := hs
      have hd : (F.sig.base.determ.sigLeave (F.sig.base.idx t)).childregistered =
          F.sig.base.determ.childregistered := by
        unfold Determ.sigLeave Determ.decrFence
        dsimp only
        split <;> rfl
      exact h.alter hnil hd rfl rfl (by simp [hnil]) (by simp [hnil]) (by rintro ⟨⟩) (.inl hl)
        (.inr (Function.update_self ..)) (fun u hu => Function.update_of_ne hu ..) (fun _ => hnil)
        (.inr ⟨rfl, hg⟩)
  | back t ok =>
      simp only [SigState.step, Option.ite_none_right_eq_some, Option.some.injEq] at hs
      obtain ⟨hm, rfl⟩ := hs
      have hd : (if ok then F.sig.base.determ.sigReturn (F.sig.base.idx t)
          else F.sig.base.determ).childregistered = F.sig.base.determ.childregistered := by
        cases ok <;> rfl
      refine h.alter (h.asleep t hm) hd rfl rfl ?_ ?_ (fun _ => ?_) (.inr hm) (.inl rfl)
        (fun u hu => Function.update_of_ne hu ..) (fun ha => ?_) (.inl ⟨rfl, rfl⟩)
      · cases ok <;> simp [startsUp]
      · cases ok <;> rfl
      · cases ok <;> simp [Lawful, yields, State.movesToken]
      · simp at ha

end Kept

theorem kept_start {s : State} (hs : s.Opening) : Kept (start s) := by
  have hidle : ∀ u, (s.locals u).pending = [] := by
    obtain ⟨c, rfl⟩ | ⟨n, c, -, rfl⟩ := hs <;> exact fun _ => rfl
  have hcount : ∀ u, (s.locals u).childrenThreadsCount = 0 := by
    obtain ⟨c, rfl⟩ | ⟨n, c, -, rfl⟩ := hs <;> exact fun _ => rfl
  have hreported : s.determ.childregistered = false := by
    obtain ⟨c, rfl⟩ | ⟨n, c, -, rfl⟩ := hs <;> rfl
  have hprocs : ∀ u, (s.locals u).live = true → u ∈ s.procs := by
    obtain ⟨c, rfl⟩ | ⟨n, c, -, rfl⟩ := hs
    · intro u hu
      simpa [State.boot] using hu
    · intro u hu
      obtain ⟨h1, hn⟩ : 1 ≤ u ∧ u ≤ n := of_decide_eq_true hu
      exact List.mem_range'_1.mpr ⟨h1, Nat.lt_one_add_iff.mpr hn⟩
  have hreg : ∀ u, (s.locals u).registering = false := fun u => by simp [Local.registering, hidle u]
  have hblk : ∀ u, (s.locals u).blocked = false := fun u => by simp [Local.blocked, hidle u]
  exact
    { handshake :=
        { parent := fun u _ hr => absurd ((hreg u).symm.trans hr) (by rintro ⟨⟩)
          reported := fun hc => absurd (hreported.symm.trans hc) (by rintro ⟨⟩)
          unique := fun u _ _ _ hr => absurd ((hreg u).symm.trans hr) (by rintro ⟨⟩)
          start := fun u j hj => by
            rw [show (start s).sig.base.locals u = s.locals u from rfl, hidle u] at hj
            cases hj }
      procs := fun u hu => hprocs u (hu.resolve_right (by rintro ⟨⟩))
      lawful := fun u _ => by
        rw [show (start s).sig.base.locals u = s.locals u from rfl, hidle u]
        trivial
      asleep := fun u _ => hidle u
      tally := fun u _ => by
        change Tally (s.locals u) []
        unfold Tally
        split
        · rfl
        · simp [hcount u, Local.forking, hidle u]
      gone := fun _ _ => rfl
      uncounted := fun c p hp => by cases hp
      left := fun c hc => by cases hc
      registering := fun c _ hr => absurd ((hreg c).symm.trans hr) (by rintro ⟨⟩)
      blocked := fun c _ hb => absurd ((hblk c).symm.trans hb) (by rintro ⟨⟩) }

/-! ## The law -/

/-- In a run in which the threads tend their children, a thread that has passed the token on or exited
leaves only children that are counted and released. A child that is blocked has a parent that counts it
in `_children_threads_count`, or has counted it in the fence and wakes it up next. `startFence` adds
exactly the children that the thread has created since its last `startFence`. -/
theorem no_child_stranded {s : State} {F : Family} {as : List SigLabel} (hs : s.Opening)
    (hr : Run Family.step Tended (start s) as F) :
    (∀ c p, F.kin.parent c = some p → F.kin.left c = true → F.kin.counted c = true ∧
      ((F.sig.base.locals c).live = true → (F.sig.base.locals c).blocked = false)) ∧
    (∀ c, (F.sig.base.locals c).live = true → (F.sig.base.locals c).blocked = true →
      ∃ p, F.kin.parent c = some p ∧ (F.sig.base.locals p).live = true ∧
        ((F.sig.base.locals p).fenceEnabled = false ∧ c ∈ F.kin.brood p ∧
            (F.kin.brood p).length ≤ (F.sig.base.locals p).childrenThreadsCount ∨
          F.kin.counted c = true ∧ (F.sig.base.locals p).pending.head?.any notifies = true)) ∧
    ∀ t, (F.sig.base.locals t).live = true →
      (F.sig.base.locals t).pending.head? = some .startFence →
      (F.sig.base.locals t).childrenThreadsCount = (F.kin.brood t).length := by
  have h : Kept F := Run.invariant (fun _ _ _ h hg hs => h.step hg hs) hr (kept_start hs)
  refine ⟨fun c p hp hl => ⟨h.left c hl, fun hc => ?_⟩, fun c hc hb => ?_, fun t ht hh => ?_⟩
  · by_contra hb
    have hleft := (h.blocked c hc (by simpa using hb)).1
    rw [hl] at hleft
    cases hleft
  · obtain ⟨-, p, hp, hpl, hn⟩ := h.blocked c hc hb
    refine ⟨p, hp, hpl, ?_⟩
    cases hcount : F.kin.counted c with
    | true => exact .inr ⟨rfl, hn hcount⟩
    | false =>
        have hmem := h.uncounted c p hp hcount
        have htally := h.tally p (.inl hpl)
        unfold Tally at htally
        split at htally
        · rw [htally] at hmem
          cases hmem
        · rename_i hnot
          refine .inl ⟨by simpa using (not_or.mp hnot).1, hmem, ?_⟩
          rw [htally]
          exact Nat.le_add_right ..
  · have htally := h.tally t (.inl ht)
    obtain ⟨r, hr⟩ := List.head?_eq_some_iff.mp hh
    have hlaw := h.lawful t ht
    rw [hr] at hlaw
    simp only [Tally, Local.unregistered, Local.forking, hr, hlaw.2.2.1] at htally
    simpa using htally

/-- Main spawns thread 2, locks a mutex and gives it back with the token. -/
theorem no_child_stranded_lock : ∃ F, Run Family.step Tended (start (State.boot 4))
      ((forkPhase ++ Label.runs 1 5 ++ Label.runs 2 2 ++ .call 2 (.mutexLock 1) :: Label.runs 2 5 ++
        Label.runs 1 8 ++ .call 1 (.mutexUnlock 0) :: Label.runs 1 5).map .step) F ∧
    F.kin.parent 2 = some 1 ∧ F.kin.left 2 = true ∧ F.kin.counted 2 = true ∧
      (F.sig.base.locals 2).blocked = false := by
  have hrun : (execGuarded Family.step Tended (start (State.boot 4))
      ((forkPhase ++ Label.runs 1 5 ++ Label.runs 2 2 ++ .call 2 (.mutexLock 1) :: Label.runs 2 5 ++
        Label.runs 1 8 ++ .call 1 (.mutexUnlock 0) :: Label.runs 1 5).map .step)).any
      (fun F => decide (F.kin.parent 2 = some 1 ∧ F.kin.left 2 = true ∧
        (F.sig.base.locals 2).live = true)) = true := by
    decide +kernel
  obtain ⟨F, hr, hp, hl, hlive⟩ := exists_run_of_any hrun
  obtain ⟨hcount, hb⟩ := (no_child_stranded (.inl ⟨4, rfl⟩) hr).1 2 1 hp hl
  exact ⟨F, hr, hp, hl, hcount, hb hlive⟩

/-- Between `startFence` and the broadcast `_mutex` is free, the child is blocked and main counts it no
longer. -/
theorem released_after_startFence : ¬ ∀ (n : ℕ) (as : List SigLabel) (F : Family),
    exec Family.step (start (State.boot n)) as = some F →
      (∀ c p, F.kin.parent c = some p → F.kin.left c = true → F.kin.counted c = true ∧
        ((F.sig.base.locals c).live = true → (F.sig.base.locals c).blocked = false)) ∧
      ∀ c, (F.sig.base.locals c).live = true → (F.sig.base.locals c).blocked = true →
        ∃ p, F.kin.parent c = some p ∧ (F.sig.base.locals p).live = true ∧ c ∈ F.kin.brood p ∧
          (F.kin.brood p).length ≤ (F.sig.base.locals p).childrenThreadsCount := by
  intro h
  have hrun : (exec Family.step (start (State.boot 4))
      ((.call 1 (.spawn 2) :: Label.runs 1 6 ++ Label.runs 2 2 ++ Label.runs 1 2 ++
        .call 1 (.mutexLock 0) :: Label.runs 1 1).map .step)).any
      (fun F => decide ((F.sig.base.locals 2).live = true ∧ (F.sig.base.locals 2).blocked = true ∧
        F.kin.parent 2 = some 1 ∧ (F.sig.base.locals 1).childrenThreadsCount = 0)) = true := by
    decide +kernel
  obtain ⟨F, hr, hl, hb, hp, hz⟩ := exists_exec_of_any hrun
  obtain ⟨p, hpar, -, hmem, hle⟩ := (h 4 _ F hr).2 2 hl hb
  obtain rfl : 1 = p := Option.some.inj (hp.symm.trans hpar)
  rw [hz] at hle
  rw [List.length_eq_zero_iff.mp (Nat.le_zero.mp hle)] at hmem
  cases hmem

end Family

end Dthreads.Scheduler
