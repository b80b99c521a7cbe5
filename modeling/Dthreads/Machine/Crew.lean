import Dthreads.Machine.World
import Dthreads.Scheduler.Budget
import Dthreads.Transition.Lockstep

/-! # The threads as a crew

The threads of the runtime without its token queue and its fence: what each of them does, and
whether another one may notice. -/

namespace Dthreads

open Scheduler

/-! ## Instructions -/

namespace Scheduler.Instr

/-- The instruction touches the mutexes and the variables of its thread only. -/
def inner : Instr → Bool
  | .countLock | .discountLock | .lockIsowner _ | .getLockAgain _ | .lockTest _ _ | .lockSet _ _
  | .setTokenHolding _ | .lockRelease _ | .endCriticalSection | .atomicBegin | .atomicEnd
  | .finalcommit _ => true
  | _ => false

/-- The mutex that the instruction is to acquire. -/
def mutex : Instr → Option Obj
  | .lockIsowner m | .isSingleWorkingThread m | .getLockAgain m | .lockTest m _ | .lockSet m _ =>
      some m
  | _ => none

open Transition in
def duty : Instr → Option Duty
  | .fenceEnter _ => some .pass
  | .getToken => some .take
  | .putToken => some .put
  | .deregister => some .leave
  | .isSingleWorkingThread _ | .lockRelease _ => some .work
  | .lockTest _ _ | .lockSet _ _ => some .solo
  | .atomicBegin | .atomicEnd | .finalcommit _ | .setTokenHolding _ | .countLock | .discountLock
  | .getLockAgain _ | .endCriticalSection | .lockIsowner _ | .procExit => some .quiet
  | _ => none

open Transition in
/-- The duty of a thread whose instruction drives the pages. -/
def pageDuty : Instr → Duty
  | .atomicEnd | .finalcommit _ => .serial
  | _ => .quiet

end Scheduler.Instr

/-- The mutex has had two users, and has no owner any more. -/
def Scheduler.Determ.Shared (d : Determ) (m : Obj) : Prop :=
  ∃ e, d.locks m = some e ∧ 2 ≤ e.totalUsers

namespace Machine

open Memory Transition

/-- What an instruction does to the mutexes and to the variables of its thread. The token and the
fence are not its business here. -/
def effect (alone : Bool) (d : Determ) (l : Local) (t : Tid) (rest : List Instr) :
    Instr → Option (Determ × Local)
  | .fenceEnter _ => some (d, l.goto rest)
  | .getToken => some (d, { l with hasToken := true, pending := rest })
  | .putToken | .deregister => some (d, { l with hasToken := false, pending := rest })
  | .isSingleWorkingThread m =>
      some (d, l.goto ((if alone then .lockTest m .direct else .getLockAgain m) :: rest))
  | .procExit => some (d, { l with live := false, pending := [] })
  | i => if i.inner then State.own ⟨d, fun _ => l, []⟩ t rest i else none

/-- The threads: of the scheduler only the mutexes and the variables of the threads. -/
structure Threads (σ : Type*) where
  determ : Determ
  locals : Tid → Local
  exec : Execution σ

variable {σ : Type*} (isHeap : ℕ → Bool) (code : Tid → σ → Action σ)

namespace Threads

def duty (s : Threads σ) (t : Tid) : Option Duty :=
  match (s.locals t).live, (s.locals t).pending with
  | true, [] =>
      match code t (s.exec.locals t) with
      | .call _ _ => some .quiet
      | _ => some .work
  | true, i :: _ => if s.exec.driven t i then some i.pageDuty else i.duty
  | _, _ => none

def act (alone : Bool) (s : Threads σ) (t : Tid) : Option (Threads σ) :=
  match (s.locals t).pending with
  | [] =>
      match code t (s.exec.locals t) with
      | .call c next =>
          (s.exec.enter isHeap t c next).map fun e =>
            { s with
              locals := Function.update s.locals t ((s.locals t).goto ((s.locals t).program c.op))
              exec := e }
      | _ => (s.exec.move isHeap (moves code) t).map fun e => { s with exec := e }
  | i :: rest =>
      if s.exec.driven t i then (s.exec.next isHeap t).map fun e => { s with exec := e }
      else
        (effect alone s.determ (s.locals t) t rest i).bind fun r =>
          (s.exec.opens isHeap t rest r.2.pending).map fun e =>
            { determ := r.1, locals := Function.update s.locals t r.2, exec := e }

end Threads

def crew : Crew (Threads σ) Tid where
  duty := Threads.duty code
  act := Threads.act isHeap code

namespace Threads

variable {isHeap code} {a : Bool} {s : Threads σ} {t : Tid} {c : Call} {next : σ} {i : Instr}
  {rest : List Instr}

theorem duty_of_call (hl : (s.locals t).live = true) (hp : (s.locals t).pending = [])
    (hc : code t (s.exec.locals t) = .call c next) : duty code s t = some .quiet := by
  unfold duty
  simp only [hl, hp, hc]

theorem duty_of_driven (hl : (s.locals t).live = true) (hp : (s.locals t).pending = i :: rest)
    (hd : s.exec.driven t i = true) : duty code s t = some i.pageDuty := by
  unfold duty
  simp only [hl, hp, hd, if_true]

theorem duty_of_not_driven (hl : (s.locals t).live = true) (hp : (s.locals t).pending = i :: rest)
    (hd : s.exec.driven t i = false) : duty code s t = i.duty := by
  unfold duty
  simp only [hl, hp, hd, Bool.false_eq_true, if_false]

theorem act_of_call (hp : (s.locals t).pending = [])
    (hc : code t (s.exec.locals t) = .call c next) :
    act isHeap code a s t = (s.exec.enter isHeap t c next).map fun e =>
      { s with
        locals := Function.update s.locals t ((s.locals t).goto ((s.locals t).program c.op))
        exec := e } := by
  unfold act
  simp only [hp, hc]

theorem act_of_driven (hp : (s.locals t).pending = i :: rest) (hd : s.exec.driven t i = true) :
    act isHeap code a s t = (s.exec.next isHeap t).map fun e => { s with exec := e } := by
  unfold act
  simp only [hp, hd, if_true]

theorem act_of_not_driven (hp : (s.locals t).pending = i :: rest)
    (hd : s.exec.driven t i = false) :
    act isHeap code a s t = (effect a s.determ (s.locals t) t rest i).bind fun r =>
      (s.exec.opens isHeap t rest r.2.pending).map fun e =>
        { determ := r.1, locals := Function.update s.locals t r.2, exec := e } := by
  unfold act
  simp only [hp, hd, Bool.false_eq_true, if_false]

end Threads

end Machine

/-! ## The parts of a step -/

namespace Memory.Execution

open Machine

variable {σ : Type*} {isHeap : ℕ → Bool} {x y : Execution σ} {t u : Tid} {i : Instr} {r : Seat σ}

/-- No phase belongs to the instruction. -/
theorem not_driven (h : ∀ ph, drives i ph = false) : x.driven t i = false := by
  unfold driven
  cases (x.runtime.todo t).head? with
  | none => rfl
  | some ph => exact h ph

theorem plain_of_drives {ph : Memory.Phase} (h : drives i ph = true) : ph.plain = true := by
  cases ph with
  | begin | commit | entries | finalcommit | deregister | retval | exit => rfl
  | _ => cases i <;> cases h

/-- An instruction that is not loud drives no phase that looks at the pages. -/
theorem quiet_of_drives {ph : Memory.Phase} (h : drives i ph = true)
    (hi : i.pageDuty.loud = false) : ph.quiet = true := by
  cases ph with
  | begin | deregister | retval | exit => rfl
  | commit | entries | finalcommit =>
      cases i with
      | atomicEnd | finalcommit => cases hi
      | _ => cases h
  | _ => cases i <;> cases h

theorem plain_of_driven (h : x.driven t i = true) :
    (x.runtime.todo t).head?.any Memory.Phase.plain = true := by
  unfold driven at h
  cases htodo : x.runtime.todo t with
  | nil => simp [htodo] at h
  | cons ph rest => exact plain_of_drives (by simpa [htodo] using h)

theorem quiet_of_driven (h : x.driven t i = true) (hi : i.pageDuty.loud = false) :
    (x.runtime.todo t).head?.any Memory.Phase.quiet = true := by
  unfold driven at h
  cases htodo : x.runtime.todo t with
  | nil => simp [htodo] at h
  | cons ph rest => exact quiet_of_drives (by simpa [htodo] using h) hi

section Other

variable (h : t ≠ u)
include h

theorem setSeat_enter (c : Call) (next : σ) :
    (x.setSeat u r).enter isHeap t c next = (x.enter isHeap t c next).map (·.setSeat u r) := by
  have hlocals : ∀ y : Execution σ,
      ({ y.setSeat u r with
          locals := Function.update (y.setSeat u r).locals t next } : Execution σ) =
        ({ y with locals := Function.update y.locals t next } : Execution σ).setSeat u r := by
    intro y
    simp [setSeat, Function.update_comm h.symm]
  unfold enter
  cases c with
  | lock m | unlock m =>
      simp only [Option.map_some]
      exact congrArg some (hlocals x)
  | exit result =>
      simp only [setSeat_call h, Option.map_map]
      exact congrArg (Option.map · _) (funext hlocals)

theorem setSeat_opens (rest is : List Instr) :
    (x.setSeat u r).opens isHeap t rest is = (x.opens isHeap t rest is).map (·.setSeat u r) := by
  unfold opens
  rw [setSeat_call h]
  split <;> rfl

end Other

end Memory.Execution

/-- A call, seen from its thread. -/
def Memory.Seat.enter {σ : Type*} (r : Seat σ) (c : Machine.Call)
    (next : σ) : Option (Seat σ) :=
  let entered : Option (Seat σ) :=
    match c with
    | .exit result => r.call (.exit result)
    | _ => some r
  entered.map fun r => { r with own := next }

namespace Memory.Execution

open Machine

variable {σ : Type*} {isHeap : ℕ → Bool} {x y : Execution σ} {t u : Tid} {i : Instr} {r : Seat σ}

theorem setSeat_own (next : σ) : { x with locals := Function.update x.locals t next } =
    x.setSeat t { x.seat t with own := next } := by
  simp [setSeat, Runtime.setSeat, seat, Mem.setSeat]

theorem enter_eq (c : Call) (next : σ) (ht : (∃ w, c = .exit w) → t ∈ x.runtime.threads) :
    x.enter isHeap t c next = ((x.seat t).enter c next).map (x.setSeat t) := by
  have hown : ∀ r : Seat σ, ({ x.setSeat t r with
      locals := Function.update (x.setSeat t r).locals t next } : Execution σ) =
        x.setSeat t { r with own := next } := by
    intro r
    simp only [setSeat, Function.update_idem]
    rfl
  unfold enter Seat.enter
  cases c with
  | lock m | unlock m => exact congrArg some (setSeat_own next)
  | exit result =>
      simp only [call_eq _ (ht ⟨result, rfl⟩), Option.map_map]
      exact congrArg (Option.map · _) (funext hown)

/-- The threads of the runtime stay. -/
theorem threads_of_enter {c : Call} {next : σ} (h : x.enter isHeap t c next = some y) :
    y.runtime.threads = x.runtime.threads ∧ ((∃ w, c = .exit w) → t ∈ x.runtime.threads) := by
  unfold enter at h
  cases c with
  | lock m | unlock m =>
      obtain rfl := Option.some.inj h
      exact ⟨rfl, fun ⟨w, hw⟩ => by cases hw⟩
  | exit result =>
      obtain ⟨z, hz, rfl⟩ := Option.map_eq_some_iff.mp h
      obtain ⟨ht, hsame⟩ := threads_of_call hz
      exact ⟨hsame, fun _ => ht⟩

theorem threads_of_opens {rest is : List Instr} (h : x.opens isHeap t rest is = some y) :
    y.runtime.threads = x.runtime.threads := by
  unfold opens at h
  split at h
  · exact (threads_of_call h).2
  · obtain rfl := Option.some.inj h
    rfl

theorem guarded_of_enter {c : Call} {next : σ} (hg : x.runtime.Guarded)
    (h : x.enter isHeap t c next = some y) : y.runtime.Guarded := by
  unfold enter at h
  cases c with
  | lock m | unlock m =>
      obtain rfl := Option.some.inj h
      exact hg
  | exit result =>
      obtain ⟨z, hz, rfl⟩ := Option.map_eq_some_iff.mp h
      have hguarded : z.runtime.Guarded := guarded_of_call hg hz
      exact hguarded

theorem guarded_of_opens {rest is : List Instr} (hg : x.runtime.Guarded)
    (h : x.opens isHeap t rest is = some y) : y.runtime.Guarded := by
  unfold opens at h
  split at h
  · exact guarded_of_call hg h
  · obtain rfl := Option.some.inj h
    exact hg

end Memory.Execution

/-! ## Seats of threads -/

namespace Machine

open Memory Transition

variable {σ : Type*} {isHeap : ℕ → Bool} {code : Tid → σ → Action σ}

namespace Threads

variable {s w v : Threads σ} {t u : Tid} {a b : Bool} {l : Local} {r : Seat σ}

def setSeat (s : Threads σ) (u : Tid) (l : Local) (r : Seat σ) : Threads σ :=
  { s with locals := Function.update s.locals u l, exec := s.exec.setSeat u r }

theorem setSeat_self : s.setSeat t (s.locals t) (s.exec.seat t) = s := by
  simp [setSeat, Execution.setSeat_seat]

/-- The threads agree on what `t` has to itself. -/
structure Same (s w : Threads σ) (t : Tid) : Prop where
  locals : w.locals t = s.locals t
  seat : w.exec.seat t = s.exec.seat t

namespace Same

theorem todo (h : Same s w t) : w.exec.runtime.todo t = s.exec.runtime.todo t :=
  congrArg Seat.todo h.seat

theorem own (h : Same s w t) : w.exec.locals t = s.exec.locals t := congrArg Seat.own h.seat

theorem driven (h : Same s w t) (i : Instr) : w.exec.driven t i = s.exec.driven t i := by
  rw [Execution.driven, Execution.driven, h.todo]

theorem duty (h : Same s w t) : duty code w t = duty code s t := by
  unfold Threads.duty
  rw [h.locals, h.own]
  simp only [h.driven]

end Same

theorem same_setSeat (h : t ≠ u) : Same s (s.setSeat u l r) t where
  locals := Function.update_of_ne h ..
  seat := Execution.seat_setSeat_of_ne h

/-- What a thread does does not depend on what the others have to themselves. -/
theorem setSeat_act (h : t ≠ u) :
    act isHeap code a (s.setSeat u l r) t = (act isHeap code a s t).map (·.setSeat u l r) := by
  have hsame : Same s (s.setSeat u l r) t := same_setSeat h
  have hexec : (s.setSeat u l r).exec = s.exec.setSeat u r := rfl
  have hmap : ∀ (o : Option (Execution σ)) (d : Determ) (l' : Local),
      (o.map (·.setSeat u r)).map (fun e =>
        (⟨d, Function.update (Function.update s.locals u l) t l', e⟩ : Threads σ)) =
        (o.map fun e => (⟨d, Function.update s.locals t l', e⟩ : Threads σ)).map
          (·.setSeat u l r) := by
    intro o d l'
    rw [Option.map_map, Option.map_map]
    refine congrArg (Option.map · o) (funext fun e => ?_)
    simp [setSeat, Function.update_comm h.symm]
  have hstay : ∀ o : Option (Execution σ),
      (o.map (·.setSeat u r)).map (fun e => { s.setSeat u l r with exec := e }) =
        (o.map fun e => { s with exec := e }).map (·.setSeat u l r) := by
    intro o
    rw [Option.map_map, Option.map_map]
    rfl
  unfold act
  simp only [hsame.locals, hsame.own, hsame.driven]
  split
  · split
    · rw [hexec, Execution.setSeat_enter h]
      exact hmap _ _ _
    · rw [hexec, Execution.setSeat_move h]
      exact hstay _
  · rename_i i rest hpending
    split
    · rename_i hd
      rw [hexec, Execution.setSeat_next h (Execution.plain_of_driven hd)]
      exact hstay _
    · have hdeterm : (s.setSeat u l r).determ = s.determ := rfl
      rw [hdeterm]
      cases effect a s.determ (s.locals t) t rest i with
      | none => rfl
      | some x =>
          simp only [Option.bind_some, hexec, Execution.setSeat_opens h]
          exact hmap _ _ _

/-- A thread leaves what the others have to themselves. -/
theorem act_same (h : u ≠ t) (ha : act isHeap code a s t = some w) : Same s w u := by
  have hself : act isHeap code a (s.setSeat u (s.locals u) (s.exec.seat u)) t =
      (act isHeap code a s t).map (·.setSeat u (s.locals u) (s.exec.seat u)) := setSeat_act h.symm
  rw [setSeat_self, ha, Option.map_some, Option.some.injEq] at hself
  constructor
  · rw [hself]
    exact Function.update_self ..
  · rw [hself]
    exact Execution.seat_setSeat

theorem act_threads (ha : act isHeap code a s t = some w) :
    w.exec.runtime.threads = s.exec.runtime.threads := by
  unfold act at ha
  split at ha
  · split at ha
    · obtain ⟨e, he, rfl⟩ := Option.map_eq_some_iff.mp ha
      exact (Execution.threads_of_enter he).1
    · obtain ⟨e, he, rfl⟩ := Option.map_eq_some_iff.mp ha
      exact Execution.threads_of_move he
  · split at ha
    · rename_i hd
      obtain ⟨e, he, rfl⟩ := Option.map_eq_some_iff.mp ha
      exact Execution.threads_of_next (Execution.plain_of_driven hd) he
    · obtain ⟨x, -, ha⟩ := Option.bind_eq_some_iff.mp ha
      obtain ⟨e, he, rfl⟩ := Option.map_eq_some_iff.mp ha
      exact Execution.threads_of_opens he

end Threads

/-! ## Quiet steps -/

theorem lockIsowner_of_shared {d : Determ} {m : Obj} (h : d.Shared m) (t : Tid) :
    d.lockIsowner m t = (d, false) := by
  obtain ⟨e, he, hu⟩ := h
  unfold Determ.lockIsowner
  rw [he]
  exact if_neg (by omega)

theorem effect_of_plain {i : Instr} (hi : i.inner = true) (a : Bool) (d : Determ) (l : Local)
    (t : Tid) (rest : List Instr) :
    effect a d l t rest i = State.own ⟨d, fun _ => l, []⟩ t rest i := by
  cases i <;> first | rfl | cases hi

/-- A quiet instruction leaves the mutexes alone, and does not depend on them. -/
theorem effect_quiet {i : Instr} {d : Duty} (hi : i.duty = some d) (hq : d.loud = false) (l : Local)
    (t : Tid) (rest : List Instr) : ∃ l', ∀ a (k : Determ), (∀ m ∈ i.mutex, k.Shared m) →
      effect a k l t rest i = some (k, l') := by
  cases i with
  | lockIsowner m =>
      refine ⟨l.goto (.isSingleWorkingThread m :: rest), fun a k hk => ?_⟩
      rw [effect_of_plain rfl]
      simp only [State.own, lockIsowner_of_shared (hk m rfl)]
      rfl
  | atomicBegin | atomicEnd | finalcommit => exact ⟨l.goto rest, fun _ _ _ => rfl⟩
  | setTokenHolding b => exact ⟨{ l with tokenHolding := b, pending := rest }, fun _ _ _ => rfl⟩
  | countLock =>
      exact ⟨{ l with lockCount := l.lockCount + 1, pending := rest }, fun _ _ _ => rfl⟩
  | discountLock =>
      exact ⟨{ l with lockCount := dec l.lockCount, pending := rest }, fun _ _ _ => rfl⟩
  | getLockAgain m => exact ⟨l.goto (l.getLockAgain m ++ rest), fun _ _ _ => rfl⟩
  | endCriticalSection => exact ⟨l.goto (l.endCriticalSection ++ rest), fun _ _ _ => rfl⟩
  | fenceEnter | getToken | putToken | deregister | procExit => exact ⟨_, fun _ _ _ => rfl⟩
  | isSingleWorkingThread | lockRelease | lockTest | lockSet =>
      obtain rfl := Option.some.inj hi
      cases hq
  | _ => cases hi

/-- The mutexes in `M` have no owners, and no other mutex is asked for. -/
structure Good (M : Set Obj) (s : Threads σ) : Prop where
  guarded : s.exec.runtime.Guarded
  shared : ∀ m ∈ M, s.determ.Shared m
  mutexes : ∀ t, ∀ i ∈ (s.locals t).pending, ∀ m ∈ i.mutex, m ∈ M

theorem Good.shared_of_pending {M : Set Obj} {s : Threads σ} {t : Tid} {i : Instr}
    {rest : List Instr} (h : Good M s) (hp : (s.locals t).pending = i :: rest) :
    ∀ m ∈ i.mutex, s.determ.Shared m := fun m hm =>
  h.shared m (h.mutexes t i (hp ▸ List.mem_cons_self) m hm)

/-- The code locks no other mutexes. -/
def Uses (code : Tid → σ → Action σ) (M : Set Obj) : Prop :=
  ∀ t l m next, code t l = .call (.lock m) next → m ∈ M

namespace Threads

variable {M : Set Obj} {s w v : Threads σ} {t u : Tid} {a b : Bool} {l : Local} {r : Seat σ}

/-- Whatever the others do, `t` goes on with `l` and `r`. -/
def Steady (isHeap : ℕ → Bool) (code : Tid → σ → Action σ) (M : Set Obj) (b : Bool) (s : Threads σ)
    (t : Tid) (l : Local) (r : Seat σ) : Prop :=
  ∀ s', Good M s' → Same s s' t → s'.exec.runtime.threads = s.exec.runtime.threads →
    act isHeap code b s' t = some (s'.setSeat t l r)

theorem Steady.commute (h : Steady isHeap code M a s t l r) (htu : t ≠ u)
    (hw : act isHeap code b s u = some w) (hg : Good M w) :
    ∃ z, act isHeap code b (s.setSeat t l r) u = some z ∧ act isHeap code a w t = some z := by
  refine ⟨w.setSeat t l r, ?_, h w hg (act_same htu hw) (act_threads hw)⟩
  rw [setSeat_act htu.symm, hw, Option.map_some]

theorem setSeat_of_exec {e : Execution σ} (he : e = s.exec.setSeat t r) :
    ({ s with exec := e } : Threads σ) = s.setSeat t (s.locals t) r := by
  subst he
  simp [setSeat]

/-- The pass through the token path, seen from its thread. -/
theorem opens_eq {x : Execution σ} (rest is : List Instr) (ht : t ∈ x.runtime.threads ∨
    ¬rest.count .atomicEnd < is.count .atomicEnd) :
    x.opens isHeap t rest is = (if rest.count .atomicEnd < is.count .atomicEnd then
      (x.seat t).call .mutexLock else some (x.seat t)).map (x.setSeat t) := by
  unfold Execution.opens
  split
  · rename_i hc
    exact Execution.call_eq _ (ht.resolve_right (not_not.mpr hc))
  · exact congrArg some Execution.setSeat_seat.symm

/-- An instruction that leaves the mutexes alone. -/
theorem steady_of_effect {i : Instr} {rest : List Instr} {l' : Local} {B : Bool → Prop}
    (hp : (s.locals t).pending = i :: rest) (hd : s.exec.driven t i = false)
    (he : ∀ b, B b → ∀ k, (∀ m ∈ i.mutex, k.Shared m) →
      effect b k (s.locals t) t rest i = some (k, l'))
    (hg : Good M s) (hb : B a) (ha : act isHeap code a s t = some w) :
    ∃ r, ∀ b, B b → Steady isHeap code M b s t l' r := by
  have hmut : ∀ m ∈ i.mutex, m ∈ M := hg.mutexes t i (hp ▸ List.mem_cons_self)
  have hact : ∀ b, B b → ∀ s', Good M s' → Same s s' t → act isHeap code b s' t =
      (s'.exec.opens isHeap t rest l'.pending).map fun e =>
        { determ := s'.determ, locals := Function.update s'.locals t l', exec := e } := by
    intro b hb s' hg' hsame
    rw [act_of_not_driven (by rw [hsame.locals, hp]) (by rw [hsame.driven, hd]), hsame.locals,
      he b hb s'.determ fun m hm => hg'.shared m (hmut m hm), Option.bind_some]
  rw [hact a hb s hg ⟨rfl, rfl⟩, Option.map_eq_some_iff] at ha
  obtain ⟨e, hopen, rfl⟩ := ha
  have hmem : t ∈ s.exec.runtime.threads ∨
      ¬rest.count .atomicEnd < l'.pending.count .atomicEnd := by
    by_cases hc : rest.count .atomicEnd < l'.pending.count .atomicEnd
    · rw [Execution.opens, if_pos hc] at hopen
      exact .inl (Execution.threads_of_call hopen).1
    · exact .inr hc
  rw [opens_eq rest l'.pending hmem, Option.map_eq_some_iff] at hopen
  obtain ⟨r, hr, rfl⟩ := hopen
  refine ⟨r, fun b hb s' hg' hsame hthreads => ?_⟩
  rw [hact b hb s' hg' hsame, opens_eq rest l'.pending (hthreads ▸ hmem), hsame.seat, hr]
  rfl

/-- Nobody notices a quiet step, and it does not notice the others. -/
theorem steady_of_quiet {d : Duty} (hg : Good M s) (hd : duty code s t = some d)
    (hq : d.loud = false) (ha : act isHeap code a s t = some w) :
    ∃ l r, ∀ b, Steady isHeap code M b s t l r := by
  unfold duty at hd
  split at hd
  · rename_i hpending
    split at hd
    · rename_i c next hcode
      have hact : ∀ b s', Same s s' t → act isHeap code b s' t =
          (s'.exec.enter isHeap t c next).map fun e =>
            { s' with
              locals := Function.update s'.locals t ((s.locals t).goto ((s.locals t).program c.op))
              exec := e } := by
        intro b s' hsame
        rw [act_of_call (by rw [hsame.locals, hpending]) (by rw [hsame.own, hcode]), hsame.locals]
      rw [hact a s ⟨rfl, rfl⟩, Option.map_eq_some_iff] at ha
      obtain ⟨e, henter, -⟩ := ha
      have hmem := (Execution.threads_of_enter henter).2
      have hseat : ∀ s' : Threads σ, Same s s' t →
          s'.exec.runtime.threads = s.exec.runtime.threads →
            s'.exec.enter isHeap t c next =
              ((s.exec.seat t).enter c next).map (s'.exec.setSeat t) := by
        intro s' hsame hthreads
        rw [Execution.enter_eq c next fun hc => hthreads ▸ hmem hc, hsame.seat]
      rw [hseat s ⟨rfl, rfl⟩ rfl, Option.map_eq_some_iff] at henter
      obtain ⟨r, hr, -⟩ := henter
      refine ⟨(s.locals t).goto ((s.locals t).program c.op), r, fun b s' _ hsame hthreads => ?_⟩
      rw [hact b s' hsame, hseat s' hsame hthreads, hr]
      rfl
    · obtain rfl := Option.some.inj hd
      cases hq
  · rename_i i rest hlive hpending
    split at hd
    · rename_i hdriven
      obtain rfl := Option.some.inj hd
      have hquiet := Execution.quiet_of_driven hdriven hq
      have hact : ∀ b s', Same s s' t → act isHeap code b s' t =
          ((s.exec.seat t).next.map (s'.exec.setSeat t)).map fun e => { s' with exec := e } := by
        intro b s' hsame
        rw [act_of_driven (by rw [hsame.locals, hpending]) (by rw [hsame.driven, hdriven]),
          Execution.next_eq (by rw [hsame.todo]; exact hquiet), hsame.seat]
      rw [hact a s ⟨rfl, rfl⟩, Option.map_map, Option.map_eq_some_iff] at ha
      obtain ⟨r, hr, -⟩ := ha
      refine ⟨s.locals t, r, fun b s' _ hsame _ => ?_⟩
      rw [hact b s' hsame, hr, Option.map_some, Option.map_some, setSeat_of_exec rfl, hsame.locals]
    · rename_i hdriven
      rw [Bool.not_eq_true] at hdriven
      obtain ⟨l', he⟩ := effect_quiet hd hq (s.locals t) t rest
      obtain ⟨r, hr⟩ := steady_of_effect hpending hdriven (fun b _ k hk => he b k hk) hg
        (B := fun _ => True) trivial ha
      exact ⟨l', r, fun b => hr b trivial⟩
  · cases hd

/-! ## Work side by side -/

/-- The code of `t` accesses the memory next. -/
structure Moves (code : Tid → σ → Action σ) (s : Threads σ) (t : Tid) : Prop where
  pending : (s.locals t).pending = []
  code : ∀ c next, code t (s.exec.locals t) ≠ .call c next

/-- The next step of `t` is the instruction `i`. -/
structure Runs (s : Threads σ) (t : Tid) (i : Instr) (rest : List Instr) : Prop where
  pending : (s.locals t).pending = i :: rest
  driven : s.exec.driven t i = false

theorem Moves.same (h : Moves code s t) (hs : Same s w t) : Moves code w t where
  pending := (congrArg Local.pending hs.locals).trans h.pending
  code c next := by
    rw [hs.own]
    exact h.code c next

theorem Runs.same {i : Instr} {rest : List Instr} (h : Runs s t i rest) (hs : Same s w t) :
    Runs w t i rest where
  pending := (congrArg Local.pending hs.locals).trans h.pending
  driven := (hs.driven i).trans h.driven

theorem Moves.duty (h : Moves code s t) (hl : (s.locals t).live = true) :
    duty code s t = some .work := by
  unfold Threads.duty
  simp only [hl, h.pending]
  split
  · rename_i c next hc
    exact absurd hc (h.code c next)
  · rfl

theorem Moves.act (h : Moves code s t) : act isHeap code a s t =
    (s.exec.move isHeap (moves code) t).map fun e => { s with exec := e } := by
  unfold Threads.act
  simp only [h.pending]
  split
  · rename_i c next hc
    exact absurd hc (h.code c next)
  · rfl

/-- The thread after the release of `m`. -/
def released (s : Threads σ) (t : Tid) (m : Obj) (rest : List Instr) : Threads σ :=
  { s with
    determ := s.determ.lockRelease m
    locals := Function.update s.locals t
      { s.locals t with inside := (s.locals t).inside.erase m, pending := rest } }

theorem Runs.act_release {m : Obj} {rest : List Instr} (h : Runs s t (.lockRelease m) rest) :
    act isHeap code a s t = some (released s t m rest) := by
  have heffect : effect a s.determ (s.locals t) t rest (.lockRelease m) =
      some (s.determ.lockRelease m,
        { s.locals t with inside := (s.locals t).inside.erase m, pending := rest }) := rfl
  rw [act_of_not_driven h.pending h.driven, heffect, Option.bind_some, Execution.opens,
    if_neg (Nat.lt_irrefl _)]
  rfl

theorem lockRelease_comm (d : Determ) (m n : Obj) :
    (d.lockRelease m).lockRelease n = (d.lockRelease n).lockRelease m := by
  by_cases hmn : m = n
  · rw [hmn]
  · have hother : ∀ {m n : Obj}, m ≠ n → (d.lockRelease m).locks n = d.locks n := by
      intro m n hmn
      unfold Determ.lockRelease
      split
      · rfl
      · exact Function.update_of_ne (Ne.symm hmn) ..
    have hm := hother hmn
    have hn := hother (Ne.symm hmn)
    unfold Determ.lockRelease at hm hn ⊢
    cases hdm : d.locks m with
    | none =>
        cases hdn : d.locks n with
        | none => simp [hdm]
        | some e => simp_all
    | some e =>
        cases hdn : d.locks n with
        | none => simp_all
        | some e' =>
            simp_all [Determ.setLock, Function.update_comm hmn]

theorem work_cases (hd : duty code s t = some .work) : Moves code s t ∨
    ∃ i rest m, Runs s t i rest ∧ (i = .isSingleWorkingThread m ∨ i = .lockRelease m) := by
  unfold duty at hd
  split at hd
  · rename_i hlive hpending
    split at hd
    · cases hd
    · rename_i hcode
      exact .inl ⟨hpending, fun c next hc => hcode c next hc⟩
  · rename_i i rest hlive hpending
    split at hd
    · cases i <;> cases hd
    · rename_i hdriven
      rw [Bool.not_eq_true] at hdriven
      have hruns : Runs s t i rest := ⟨hpending, hdriven⟩
      cases i with
      | isSingleWorkingThread m => exact .inr ⟨_, rest, m, hruns, .inl rfl⟩
      | lockRelease m => exact .inr ⟨_, rest, m, hruns, .inr rfl⟩
      | _ => cases hd
  · cases hd

/-- The test of `isSingleWorkingThread` looks at nothing but the ring. -/
theorem steady_of_single {m : Obj} {rest : List Instr} (hg : Good M s)
    (h : Runs s t (.isSingleWorkingThread m) rest) (ha : act isHeap code a s t = some w) :
    ∃ l r, Steady isHeap code M a s t l r := by
  have he : ∀ b, b = a → ∀ k, (∀ n ∈ (Instr.isSingleWorkingThread m).mutex, k.Shared n) →
      effect b k (s.locals t) t rest (.isSingleWorkingThread m) = some (k, (s.locals t).goto
        ((if a then .lockTest m .direct else .getLockAgain m) :: rest)) := by
    rintro b rfl k -
    rfl
  obtain ⟨r, hr⟩ := steady_of_effect (B := fun b => b = a) h.pending h.driven he hg rfl ha
  exact ⟨_, r, hr a rfl⟩

theorem commute_moves (hg : Good M s) (htu : t ≠ u) (ht : Moves code s t) (hu : Moves code s u)
    (ha : act isHeap code a s t = some v) (hb : act isHeap code b s u = some w) :
    ∃ z, act isHeap code b v u = some z ∧ act isHeap code a w t = some z := by
  have hu' := hu.same (act_same htu.symm ha)
  have ht' := ht.same (act_same htu hb)
  rw [ht.act, Option.map_eq_some_iff] at ha
  rw [hu.act, Option.map_eq_some_iff] at hb
  obtain ⟨e, he, rfl⟩ := ha
  obtain ⟨e', he', rfl⟩ := hb
  obtain ⟨x, hx, hx'⟩ := Execution.commute hg.guarded htu he he'
  refine ⟨{ s with exec := x }, ?_, ?_⟩
  · rw [hu'.act, hx]
    rfl
  · rw [ht'.act, hx']
    rfl

theorem commute_move_release {m : Obj} {rest : List Instr} (htu : t ≠ u) (ht : Moves code s t)
    (hu : Runs s u (.lockRelease m) rest) (ha : act isHeap code a s t = some v)
    (hb : act isHeap code b s u = some w) :
    ∃ z, act isHeap code b v u = some z ∧ act isHeap code a w t = some z := by
  have hu' := hu.same (act_same htu.symm ha)
  have ht' := ht.same (act_same htu hb)
  rw [ht.act, Option.map_eq_some_iff] at ha
  rw [hu.act_release, Option.some.injEq] at hb
  obtain ⟨e, he, rfl⟩ := ha
  subst hb
  refine ⟨_, hu'.act_release, ?_⟩
  have hexec : (released s u m rest).exec = s.exec := rfl
  rw [ht'.act, hexec, he]
  rfl

theorem commute_releases {m n : Obj} {rest rest' : List Instr} (htu : t ≠ u)
    (ht : Runs s t (.lockRelease m) rest) (hu : Runs s u (.lockRelease n) rest')
    (ha : act isHeap code a s t = some v) (hb : act isHeap code b s u = some w) :
    ∃ z, act isHeap code b v u = some z ∧ act isHeap code a w t = some z := by
  have hu' := hu.same (act_same htu.symm ha)
  have ht' := ht.same (act_same htu hb)
  rw [ht.act_release, Option.some.injEq] at ha
  rw [hu.act_release, Option.some.injEq] at hb
  subst ha hb
  refine ⟨_, hu'.act_release, ?_⟩
  rw [ht'.act_release]
  simp only [released, lockRelease_comm s.determ m n, Function.update_of_ne htu,
    Function.update_of_ne htu.symm, Function.update_comm htu]

/-- Work side by side commutes. -/
theorem commute_work (hg : Good M s) (hv : Good M v) (hw : Good M w) (htu : t ≠ u)
    (hd : duty code s t = some .work) (he : duty code s u = some .work)
    (ha : act isHeap code a s t = some v) (hb : act isHeap code b s u = some w) :
    ∃ z, act isHeap code b v u = some z ∧ act isHeap code a w t = some z := by
  have hsingle : ∀ {v w : Threads σ} {t u : Tid} {a b : Bool} {m : Obj} {rest : List Instr},
      Runs s t (.isSingleWorkingThread m) rest → Good M w → t ≠ u →
        act isHeap code a s t = some v → act isHeap code b s u = some w →
          ∃ z, act isHeap code b v u = some z ∧ act isHeap code a w t = some z := by
    intro v w t u a b m rest hr hw htu ha hb
    obtain ⟨l, r, h⟩ := steady_of_single hg hr ha
    obtain rfl : v = s.setSeat t l r := Option.some.inj (ha.symm.trans (h s hg ⟨rfl, rfl⟩ rfl))
    exact h.commute htu hb hw
  rcases work_cases hd with hm | ⟨i, rest, m, hr, rfl | rfl⟩
  · rcases work_cases he with hm' | ⟨i', rest', m', hr', rfl | rfl⟩
    · exact commute_moves hg htu hm hm' ha hb
    · obtain ⟨z, hz, hz'⟩ := hsingle hr' hv htu.symm hb ha
      exact ⟨z, hz', hz⟩
    · exact commute_move_release htu hm hr' ha hb
  · exact hsingle hr hw htu ha hb
  · rcases work_cases he with hm' | ⟨i', rest', m', hr', rfl | rfl⟩
    · obtain ⟨z, hz, hz'⟩ := commute_move_release htu.symm hm' hr hb ha
      exact ⟨z, hz', hz⟩
    · obtain ⟨z, hz, hz'⟩ := hsingle hr' hv htu.symm hb ha
      exact ⟨z, hz', hz⟩
    · exact commute_releases htu hr hr' ha hb

end Threads

/-! ## What the steps keep -/

/-- A mutex that has had two users keeps them. -/
theorem shared_setLock {d : Determ} {m n : Obj} {e : LockEntry} (h : d.Shared m)
    (he : ∀ e', d.locks n = some e' → e'.totalUsers ≤ e.totalUsers) : (d.setLock n e).Shared m := by
  obtain ⟨e', hm, hu⟩ := h
  by_cases hmn : m = n
  · subst hmn
    exact ⟨e, Function.update_self .., hu.trans (he e' hm)⟩
  · exact ⟨e', (Function.update_of_ne hmn ..).trans hm, hu⟩

theorem effect_shared {a : Bool} {d d' : Determ} {l l' : Local} {t : Tid} {rest : List Instr}
    {i : Instr} {m : Obj} (h : effect a d l t rest i = some (d', l')) (hm : d.Shared m) :
    d'.Shared m := by
  cases i with
  | lockIsowner n =>
      obtain ⟨rfl, -⟩ := Prod.mk.inj (Option.some.inj h)
      change (d.lockIsowner n t).1.Shared m
      unfold Determ.lockIsowner
      split
      · exact hm
      · rename_i e he
        split
        · split
          · refine shared_setLock hm fun e' he' => ?_
            obtain rfl := Option.some.inj (he.symm.trans he')
            exact Nat.le_succ _
          · exact hm
        · exact hm
  | lockTest n k =>
      have hd : d' = (d.lockTest n).1 := by
        simp only [effect, Instr.inner, State.own, if_true] at h
        split at h <;> obtain ⟨rfl, -⟩ := Prod.mk.inj (Option.some.inj h) <;> rfl
      rw [hd, Determ.lockTest]
      split
      · rename_i hn
        exact shared_setLock hm fun e' he' => absurd (he'.symm.trans hn) (Option.some_ne_none e')
      · exact hm
  | lockSet n k =>
      have hd : d' = (d.lockSet n t).1 := by
        simp only [effect, Instr.inner, State.own, if_true] at h
        split at h <;> obtain ⟨rfl, -⟩ := Prod.mk.inj (Option.some.inj h) <;> rfl
      rw [hd, Determ.lockSet]
      split
      · exact hm
      · rename_i e he
        refine shared_setLock hm fun e' he' => ?_
        obtain rfl := Option.some.inj (he.symm.trans he')
        rcases e.acquire_cases t d.isSingleWorkingThread with ⟨h0, ha⟩ | ⟨h1, -, ha⟩ |
          ⟨-, -, -, ha⟩ | ⟨-, -, -, ha⟩ | ⟨-, ha⟩ <;> rw [ha]
        · exact h0.le.trans (Nat.zero_le _)
        · exact h1.le.trans (Nat.le_succ 1)
  | lockRelease n =>
      obtain ⟨rfl, -⟩ := Prod.mk.inj (Option.some.inj h)
      change (d.lockRelease n).Shared m
      unfold Determ.lockRelease
      split
      · exact hm
      · rename_i e he
        refine shared_setLock hm fun e' he' => ?_
        obtain rfl := Option.some.inj (he.symm.trans he')
        exact Nat.le_refl _
  | fenceEnter | getToken | putToken | deregister | isSingleWorkingThread | procExit | countLock
  | discountLock | getLockAgain | setTokenHolding | endCriticalSection | atomicBegin | atomicEnd
  | finalcommit =>
      obtain ⟨rfl, -⟩ := Prod.mk.inj (Option.some.inj h)
      exact hm
  | _ => cases h

theorem mutex_of_pushes {l : Local} {i : Instr} {js : List Instr} (h : Pushes l i js) :
    ∀ j ∈ js, ∀ m ∈ j.mutex, m ∈ i.mutex := by
  cases h with
  | again n =>
      unfold Local.getLockAgain
      split <;> simp [Local.waitToken, Local.waitFence, Instr.mutex]
  | endCritical =>
      unfold Local.endCriticalSection
      split <;> simp [Local.waitFence, Instr.mutex]
  | taken n k => cases k <;> simp [Local.lockFailed, Local.waitFence, Instr.mutex]
  | exhausted n k => cases k <;> simp [Local.lockFailed, Local.waitFence, Instr.mutex]
  | _ => simp [Instr.mutex]

/-- No instruction asks for a mutex of its own accord. -/
theorem effect_mutex {a : Bool} {d d' : Determ} {l l' : Local} {t : Tid} {rest : List Instr}
    {i j : Instr} {m : Obj} (h : effect a d l t rest i = some (d', l')) (hj : j ∈ l'.pending)
    (hm : m ∈ j.mutex) : ∃ k ∈ i :: rest, m ∈ k.mutex := by
  have hpush : ∀ js, Pushes l i js → l'.pending = js ++ rest → ∃ k ∈ i :: rest, m ∈ k.mutex := by
    intro js hjs hp
    rw [hp, List.mem_append] at hj
    rcases hj with hj | hj
    · exact ⟨i, List.mem_cons_self, mutex_of_pushes hjs j hj m hm⟩
    · exact ⟨j, List.mem_cons_of_mem i hj, hm⟩
  by_cases hi : i.inner = true
  · rw [effect_of_plain hi] at h
    obtain ⟨js, hjs, hp⟩ := State.own_pending h (by rintro rfl; cases hi)
    exact hpush js hjs hp
  · cases i with
    | fenceEnter | getToken | putToken | deregister =>
        obtain ⟨-, rfl⟩ := Prod.mk.inj (Option.some.inj h)
        exact hpush [] (.done _) rfl
    | isSingleWorkingThread n =>
        obtain ⟨-, rfl⟩ := Prod.mk.inj (Option.some.inj h)
        cases a with
        | true => exact hpush [_] (.single n) rfl
        | false => exact hpush [_] (.notSingle n) rfl
    | procExit =>
        obtain ⟨-, rfl⟩ := Prod.mk.inj (Option.some.inj h)
        cases hj
    | _ => first | exact absurd rfl hi | cases h

theorem program_mutex (l : Local) (c : Call) :
    ∀ j ∈ l.program c.op, ∀ m ∈ j.mutex, c = .lock m := by
  cases c with
  | lock n =>
      change ∀ j ∈ l.mutexLock n, _
      unfold Local.mutexLock Local.wakeChildren
      split
      · simp [Instr.mutex]
      · split <;> simp [Instr.mutex]
  | unlock n =>
      change ∀ j ∈ l.mutexUnlock n, _
      unfold Local.mutexUnlock
      split <;> simp [Instr.mutex]
  | exit w =>
      change ∀ j ∈ Local.threadDeregister, _
      simp [Local.threadDeregister, Local.waitToken, Local.waitFence, Instr.mutex]

namespace Threads

variable {M : Set Obj} {s w v : Threads σ} {t u : Tid} {a b : Bool} {d e : Duty}

theorem good_act (hu : Uses code M) (hg : Good M s) (h : act isHeap code a s t = some w) :
    Good M w := by
  have hmutexes : ∀ {l : Local}, (∀ i ∈ l.pending, ∀ m ∈ i.mutex, m ∈ M) →
      ∀ v, ∀ i ∈ (Function.update s.locals t l v).pending, ∀ m ∈ i.mutex, m ∈ M := by
    intro l hl v
    by_cases hv : v = t
    · subst hv
      rwa [Function.update_self]
    · rw [Function.update_of_ne hv]
      exact hg.mutexes v
  unfold act at h
  split at h
  · split at h
    · rename_i c next hcode
      obtain ⟨x, hx, rfl⟩ := Option.map_eq_some_iff.mp h
      refine ⟨Execution.guarded_of_enter hg.guarded hx, hg.shared, hmutexes fun i hi m hm => ?_⟩
      obtain rfl := program_mutex _ c i hi m hm
      exact hu t _ m next hcode
    · obtain ⟨x, hx, rfl⟩ := Option.map_eq_some_iff.mp h
      exact ⟨Execution.guarded_of_move hg.guarded hx, hg.shared, hg.mutexes⟩
  · rename_i i rest hpending
    split at h
    · obtain ⟨x, hx, rfl⟩ := Option.map_eq_some_iff.mp h
      exact ⟨Execution.guarded_of_next hg.guarded hx, hg.shared, hg.mutexes⟩
    · obtain ⟨⟨d, l⟩, he, h⟩ := Option.bind_eq_some_iff.mp h
      obtain ⟨x, hx, rfl⟩ := Option.map_eq_some_iff.mp h
      refine ⟨Execution.guarded_of_opens hg.guarded hx,
        fun m hm => effect_shared he (hg.shared m hm), hmutexes fun j hj m hm => ?_⟩
      obtain ⟨k, hk, hmk⟩ := effect_mutex he hj hm
      exact hg.mutexes t k (hpending ▸ hk) m hmk

/-- Whether the thread is alone matters to loud steps only. -/
theorem act_flag (hg : Good M s) (hd : duty code s t = some d) (hq : d.loud = false) (a b : Bool) :
    act isHeap code a s t = act isHeap code b s t := by
  have hsome : ∀ {a b : Bool} {w : Threads σ}, act isHeap code a s t = some w →
      act isHeap code b s t = some w := by
    intro a b w ha
    obtain ⟨l, r, hr⟩ := steady_of_quiet hg hd hq ha
    rw [← ha, hr a s hg ⟨rfl, rfl⟩ rfl]
    exact hr b s hg ⟨rfl, rfl⟩ rfl
  cases ha : act isHeap code a s t with
  | some w => exact (hsome ha).symm
  | none =>
      cases hb : act isHeap code b s t with
      | some w => exact absurd (ha.symm.trans (hsome hb)) nofun
      | none => rfl

theorem act_commute (hu : Uses code M) (hg : Good M s) (htu : t ≠ u) (hd : duty code s t = some d)
    (he : duty code s u = some e) (hloud : d.loud = true → e.loud = true → d = .work ∧ e = .work)
    (ha : act isHeap code a s t = some v) (hb : act isHeap code b s u = some w) :
    ∃ z, act isHeap code b v u = some z ∧ act isHeap code a w t = some z := by
  have hv := good_act hu hg ha
  have hw := good_act hu hg hb
  have hquiet : ∀ {v w : Threads σ} {t u : Tid} {d : Duty} {a b : Bool}, Good M w → t ≠ u →
      duty code s t = some d → d.loud = false → act isHeap code a s t = some v →
        act isHeap code b s u = some w →
          ∃ z, act isHeap code b v u = some z ∧ act isHeap code a w t = some z := by
    intro v w t u d a b hw htu hd hq ha hb
    obtain ⟨l, r, hr⟩ := steady_of_quiet hg hd hq ha
    obtain rfl : v = s.setSeat t l r := Option.some.inj (ha.symm.trans (hr a s hg ⟨rfl, rfl⟩ rfl))
    exact (hr a).commute htu hb hw
  cases hdl : d.loud with
  | false => exact hquiet hw htu hd hdl ha hb
  | true =>
      cases hel : e.loud with
      | false =>
          obtain ⟨z, hz, hz'⟩ := hquiet hv htu.symm he hel hb ha
          exact ⟨z, hz', hz⟩
      | true =>
          obtain ⟨rfl, rfl⟩ := hloud hdl hel
          exact commute_work hg hv hw htu hd he ha hb

end Threads

/-- Threads on shared mutexes are a crew. -/
theorem crew_lawful {M : Set Obj} (hu : Uses code M) : (crew isHeap code).Lawful (Good M) where
  keep hg h := Threads.good_act hu hg h
  duty_of_ne _ h hut := (Threads.act_same hut h).duty
  flag a b hg hd hq := Threads.act_flag hg hd hq a b
  commute hg htu hd he hl ha hb := Threads.act_commute hu hg htu hd he hl ha hb

end Machine

end Dthreads
