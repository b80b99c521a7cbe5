import Dthreads.Memory.Seats
import Dthreads.Scheduler.Machine

/-! # The whole runtime

The scheduler and the protected memory in one machine. Every thread runs code of its own, which
loads, stores, and calls the library; the instructions of a call drive the pages. Any thread may
take the next step at any time. -/

namespace Dthreads

namespace Machine

open Scheduler Memory

/-- The calls of a program that synchronises by mutexes. -/
inductive Call where
  | lock (m : Obj)
  | unlock (m : Obj)
  /-- The return from the start function. -/
  | exit (result : Word)
  deriving DecidableEq

def Call.op : Call → Scheduler.Op
  | .lock m => .mutexLock m
  | .unlock m => .mutexUnlock m
  | .exit _ => .threadDeregister

/-- What the code of a thread does next, with the local state that follows. -/
inductive Action (σ : Type*) where
  | load (a : Addr) (next : Byte → σ)
  | store (a : Addr) (b : Byte) (next : σ)
  | call (c : Call) (next : σ)

/-- The move on the pages, none for a call. -/
def Action.move {σ : Type*} : Action σ → Move σ
  | .load a next => .load a next
  | .store a b next => .store a b next
  | .call _ _ => .call

/-- The code returns from the start function. -/
def Action.exits {σ : Type*} : Action σ → Bool
  | .call (.exit _) _ => true
  | _ => false

/-- The phase is one of those that the instruction drives. -/
def drives : Instr → Memory.Phase → Bool
  | .atomicEnd, .commit | .atomicEnd, .entries _ | .atomicBegin, .begin
  | .finalcommit _, .finalcommit _ | .deregister, .deregister
  | .procExit, .retval _ | .procExit, .exit => true
  | _, _ => false

/-- The scheduler, and the pages with the local states of the threads. `grants` is a history
variable: the threads that got the token. -/
structure World (σ : Type*) where
  sched : Scheduler.State
  exec : Execution σ
  grants : List Tid

variable {σ : Type*} (isHeap : ℕ → Bool) (code : Tid → σ → Action σ)

/-- The moves of the code on the pages. -/
def moves (t : Tid) (l : σ) : Move σ := (code t l).move

end Machine

namespace Memory.Execution

open Scheduler Machine

variable {σ : Type*} (isHeap : ℕ → Bool)

/-- The next phase of `t` belongs to the instruction. -/
def driven (x : Execution σ) (t : Tid) (i : Instr) : Bool :=
  (x.runtime.todo t).head?.any (drives i)

/-- The code of `t` calls the library. The script of an exit is known at once. -/
def enter (x : Execution σ) (t : Tid) (c : Call) (next : σ) : Option (Execution σ) :=
  let entered : Option (Execution σ) :=
    match c with
    | .exit result => x.call isHeap t (.exit result)
    | _ => some x
  entered.map fun y => { y with locals := Function.update y.locals t next }

/-- A pass through the token path is a call of its own on the pages: it starts when the instructions
`is`, in front of `rest`, bring a commit. -/
def opens (x : Execution σ) (t : Tid) (rest is : List Instr) : Option (Execution σ) :=
  if rest.count .atomicEnd < is.count .atomicEnd then x.call isHeap t .mutexLock else some x

end Memory.Execution

namespace Machine

open Scheduler Memory

variable {σ : Type*} (isHeap : ℕ → Bool) (code : Tid → σ → Action σ)

namespace World

/-- The next step of `t`: of its code, of the pages, or of the scheduler. -/
def step (x : World σ) (t : Tid) : Option (World σ) :=
  match (x.sched.locals t).live, (x.sched.locals t).pending with
  | true, [] =>
      match code t (x.exec.locals t) with
      | .call c next =>
          (x.sched.step (.call t c.op)).bind fun s =>
            (x.exec.enter isHeap t c next).map fun e => { x with sched := s, exec := e }
      | _ => (x.exec.move isHeap (moves code) t).map fun e => { x with exec := e }
  | true, i :: rest =>
      if x.exec.driven t i then (x.exec.next isHeap t).map fun e => { x with exec := e }
      else
        (x.sched.step (.run t)).bind fun s =>
          (x.exec.opens isHeap t rest (s.locals t).pending).map fun e =>
            { sched := s
              exec := e
              grants := x.grants ++ if i = .getToken then [t] else [] }
  | _, _ => none

/-- The threads have exited. -/
def Exited (x : World σ) (order : List Tid) : Prop := ∀ t ∈ order, (x.sched.locals t).live = false

instance (x : World σ) (order : List Tid) : Decidable (x.Exited order) :=
  inferInstanceAs (Decidable (∀ t ∈ order, _))

/-- The next step of `t` is no exit inside a critical section. -/
def Prudent (x : World σ) (t : Tid) : Prop :=
  (x.sched.locals t).pending = [] → (code t (x.exec.locals t)).exits = true →
    (x.sched.locals t).tokenHolding = false

instance (x : World σ) (t : Tid) : Decidable (x.Prudent code t) :=
  inferInstanceAs (Decidable (_ → _ → _))

variable {isHeap : ℕ → Bool} {code : Tid → σ → Action σ} {x y : World σ} {t : Tid} {e : Execution σ}
  {i : Instr} {rest : List Instr} {d : Determ} {l : Local}

/-! ## The steps of the machine -/

theorem step_call {k : Call} {next : σ} (hl : (x.sched.locals t).live = true)
    (hp : (x.sched.locals t).pending = []) (hc : code t (x.exec.locals t) = .call k next)
    (he : x.exec.enter isHeap t k next = some e) :
    x.step isHeap code t = some { x with sched := x.sched.called t k.op, exec := e } := by
  have hs : x.sched.step (.call t k.op) = some (x.sched.called t k.op) := if_pos ⟨hl, hp⟩
  unfold step
  simp only [hl, hp, hc, hs, Option.bind_some, he, Option.map_some]

theorem step_move (hl : (x.sched.locals t).live = true) (hp : (x.sched.locals t).pending = [])
    (hc : ∀ k next, code t (x.exec.locals t) ≠ .call k next)
    (he : x.exec.move isHeap (moves code) t = some e) :
    x.step isHeap code t = some { x with exec := e } := by
  unfold step
  simp only [hl, hp, he, Option.map_some]

theorem step_page (hl : (x.sched.locals t).live = true)
    (hp : (x.sched.locals t).pending = i :: rest) (hd : x.exec.driven t i = true)
    (he : x.exec.next isHeap t = some e) :
    x.step isHeap code t = some { x with exec := e } := by
  unfold step
  simp only [hl, hp, hd, if_true, he, Option.map_some]

/-- The state of the scheduler after an instruction. -/
abbrev served (x : World σ) (t : Tid) (i : Instr) (d : Determ) (l : Local) : Scheduler.State :=
  ⟨d, Function.update (x.sched.others t i) t l, x.sched.created i⟩

theorem step_run (hl : (x.sched.locals t).live = true) (hp : (x.sched.locals t).pending = i :: rest)
    (hd : x.exec.driven t i = false) (ho : x.sched.own t rest i = some (d, l))
    (he : x.exec.opens isHeap t rest l.pending = some e) :
    x.step isHeap code t = some
      ⟨x.served t i d l, e, x.grants ++ if i = .getToken then [t] else []⟩ := by
  have hs : x.sched.step (.run t) = some (x.served t i d l) := by
    simp only [Scheduler.State.step, hl, hp, Scheduler.State.exec, ho, Option.map_some]
  unfold step
  simp only [hl, hp, hd, Bool.false_eq_true, if_false, hs, Option.bind_some, Function.update_self,
    he, Option.map_some]

/-- The cases of a step. -/
theorem step_cases (hs : x.step isHeap code t = some y) : (x.sched.locals t).live = true ∧
    ((∃ k next e, (x.sched.locals t).pending = [] ∧ code t (x.exec.locals t) = .call k next ∧
      x.exec.enter isHeap t k next = some e ∧
        y = { x with sched := x.sched.called t k.op, exec := e }) ∨
    (∃ e, (x.sched.locals t).pending = [] ∧ (∀ k next, code t (x.exec.locals t) ≠ .call k next) ∧
      x.exec.move isHeap (moves code) t = some e ∧ y = { x with exec := e }) ∨
    (∃ i rest e, (x.sched.locals t).pending = i :: rest ∧ x.exec.driven t i = true ∧
      x.exec.next isHeap t = some e ∧ y = { x with exec := e }) ∨
    ∃ i rest d l e, (x.sched.locals t).pending = i :: rest ∧ x.exec.driven t i = false ∧
      x.sched.own t rest i = some (d, l) ∧ x.exec.opens isHeap t rest l.pending = some e ∧
        y = ⟨x.served t i d l, e, x.grants ++ if i = .getToken then [t] else []⟩) := by
  unfold step at hs
  split at hs
  · rename_i hl hp
    refine ⟨hl, ?_⟩
    split at hs
    · rename_i k next hc
      obtain ⟨s, hcall, hs⟩ := Option.bind_eq_some_iff.mp hs
      obtain ⟨-, -, rfl⟩ := Scheduler.State.step_call hcall
      obtain ⟨e, he, rfl⟩ := Option.map_eq_some_iff.mp hs
      exact .inl ⟨k, next, e, hp, hc, he, rfl⟩
    · rename_i hc
      obtain ⟨e, he, rfl⟩ := Option.map_eq_some_iff.mp hs
      exact .inr (.inl ⟨e, hp, fun k next hk => hc k next hk, he, rfl⟩)
  · rename_i i rest hl hp
    refine ⟨hl, .inr (.inr ?_)⟩
    split at hs
    · rename_i hd
      obtain ⟨e, he, rfl⟩ := Option.map_eq_some_iff.mp hs
      exact .inl ⟨i, rest, e, hp, hd, he, rfl⟩
    · rename_i hd
      rw [Bool.not_eq_true] at hd
      obtain ⟨s, hrun, hs⟩ := Option.bind_eq_some_iff.mp hs
      obtain ⟨i', rest', d, l, -, hp', ho, rfl⟩ := Scheduler.State.step_run hrun
      obtain ⟨rfl, rfl⟩ := List.cons.inj (hp'.symm.trans hp)
      obtain ⟨e, he, rfl⟩ := Option.map_eq_some_iff.mp hs
      dsimp only at he
      rw [Function.update_self] at he
      exact .inr ⟨i', rest', d, l, e, hp, hd, ho, he, rfl⟩
  · cases hs

end World

end Machine

end Dthreads
