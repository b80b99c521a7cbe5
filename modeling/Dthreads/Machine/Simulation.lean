import Dthreads.Machine.Discipline
import Dthreads.Scheduler.InStep

/-! # The machine follows the crew

The whole runtime takes the steps of its threads as a crew in rounds. Only the way through the fence
takes it more than one step. -/

namespace Dthreads

open Scheduler Transition

namespace Scheduler

/-- An instruction of the fence, seen from outside. -/
def Instr.gather (i : Instr) : Instr := if i.arrives || i.leaves then .fenceEnter i.keep else i

/-- The variables of a thread, wherever it is in the fence. -/
def Local.gather (l : Local) : Local := { l with pending := l.pending.modifyHead Instr.gather }

theorem Instr.gather_of_fence {i : Instr} (h : i.arrives = true ∨ i.leaves = true) :
    i.gather = .fenceEnter i.keep :=
  if_pos (by simpa using h)

theorem Instr.gather_of_not_fence {i : Instr} (h : ¬(i.arrives = true ∨ i.leaves = true)) :
    i.gather = i :=
  if_neg (by simpa using h)

theorem Local.gather_eq {l : Local} (h : ∀ i ∈ l.pending.head?, i.gather = i) : l.gather = l := by
  unfold Local.gather
  cases hp : l.pending with
  | nil => rw [List.modifyHead_nil, ← hp]
  | cons i rest =>
      rw [List.modifyHead_cons, h i (by rw [hp]; rfl), ← hp]

theorem Local.gather_pending {l : Local} {i : Instr} {rest : List Instr}
    (h : l.pending = i :: rest) : l.gather.pending = i.gather :: rest := by
  unfold Local.gather
  rw [h]
  rfl

end Scheduler

namespace Machine

variable {p : Prop} {g : Transition.Stage} {holding : Bool} {i : Instr} {rest : List Instr}
  {l : Local} {d : Determ} {t : Tid}

/-- Only the fence itself goes into the fence. -/
theorem Fits.gather (h : Fits p g holding l.pending) : l.gather = l := by
  refine Local.gather_eq fun i hi => ?_
  obtain ⟨rest, hp⟩ := List.head?_eq_some_iff.mp hi
  rw [hp] at h
  cases i <;> first | rfl | exact h.elim

/-- Who has left runs no more instructions on mutexes. -/
theorem Fits.not_gone (h : Fits p g holding (i :: rest))
    (hi : i.inner = true ∨ ∃ m, i = .isSingleWorkingThread m) : g ≠ .gone := by
  rintro rfl
  rcases hi with hi | ⟨m, rfl⟩
  · cases i with
    | lockTest m k | lockSet m k => cases k <;> simp [Fits, AtHome] at h
    | _ => first | (simp [Fits, AtHome] at h; done) | cases hi
  · simp [Fits, AtHome] at h

theorem inner_change {c : Change} (hi : i.inner = true ∨ ∃ m, i = .isSingleWorkingThread m)
    (hc : i.duty.bind g.change = some c) : c = .stay ∨ c = .alone := by
  obtain ⟨e, he, hc⟩ := Option.bind_eq_some_iff.mp hc
  have hkind : e = .work ∨ e = .solo ∨ e = .quiet := by
    rcases hi with hi | ⟨m, rfl⟩
    · cases i <;> first | (obtain rfl := Option.some.inj he; simp; done) | cases hi
    · obtain rfl := Option.some.inj he
      exact .inl rfl
  have hm := Transition.Stage.moves_of_change hc
  rcases hkind with rfl | rfl | rfl <;> cases hm <;> simp

theorem program_gather (c : Call) (hl : l.fenceEnabled = true) :
    (l.goto (l.program c.op)).gather = l.goto (l.program c.op) := by
  refine Local.gather_eq fun i hi => ?_
  cases c <;>
    simp [Call.op, Local.program, Local.mutexLock, Local.mutexUnlock, Local.wakeChildren, hl,
      Local.threadDeregister, Local.waitToken, Local.waitFence] at hi <;> subst hi <;> rfl

/-- The scheduler object with the mutexes of another one. -/
theorem own_effect {s : Scheduler.State} (hi : i.inner = true ∨ ∃ m, i = .isSingleWorkingThread m)
    (hd : d.locks = s.determ.locks) (hm : ∀ m ∈ i.mutex, d.Shared m) :
    s.own t rest i = (effect s.determ.isSingleWorkingThread d (s.locals t) t rest i).map
      fun r => ({ s.determ with locks := r.1.locks }, r.2) := by
  have hsame : { s.determ with locks := d.locks } = s.determ := by rw [hd]
  cases i with
  | countLock | discountLock | setTokenHolding | atomicBegin | atomicEnd | finalcommit
  | getLockAgain | endCriticalSection | isSingleWorkingThread =>
      refine Eq.trans ?_ (congrArg (fun e => some (e, _)) hsame.symm)
      rfl
  | lockIsowner m =>
      have hshared := hm m rfl
      have hshared' : s.determ.Shared m := by
        obtain ⟨e, he, hu⟩ := hshared
        exact ⟨e, hd ▸ he, hu⟩
      rw [effect_of_plain rfl]
      simp only [State.own, lockIsowner_of_shared hshared, lockIsowner_of_shared hshared',
        Option.map_some, hsame]
  | lockTest m k =>
      obtain ⟨e, he, -⟩ := hm m rfl
      have he' : s.determ.locks m = some e := hd ▸ he
      rw [effect_of_plain rfl]
      simp only [State.own, Determ.lockTest, he, he', Option.all_some, reduceCtorEq, if_false]
      split <;> rw [Option.map_some, hsame]
  | lockSet m k =>
      obtain ⟨e, he, hu⟩ := hm m rfl
      have he' : s.determ.locks m = some e := hd ▸ he
      have hacquire : ∀ single, e.acquire t single = ({ e with isAcquired := true }, true) := by
        intro single
        rcases e.acquire_cases t single with ⟨h0, -⟩ | ⟨h1, -⟩ | ⟨h1, -⟩ | ⟨h1, -⟩ | ⟨-, ha⟩
        · omega
        · omega
        · omega
        · omega
        · exact ha
      rw [effect_of_plain rfl]
      simp only [State.own, Determ.lockSet, he', hacquire, if_true, Option.map_some,
        Determ.setLock, hd]
  | lockRelease m =>
      have hlocks : s.determ.lockRelease m =
          { s.determ with locks := (d.lockRelease m).locks } := by
        unfold Determ.lockRelease
        rw [← hd]
        split
        · exact hsame.symm
        · rw [Determ.setLock, Determ.setLock, ← hd]
      exact congrArg (fun e => some (e, _)) hlocks
  | _ => rcases hi with hi | ⟨m, hi⟩ <;> cases hi

theorem program_outside (c : Call) (hl : l.fenceEnabled = true) :
    outside (l.goto (l.program c.op)).pending = true := by
  cases c <;>
    simp [Call.op, Local.program, Local.mutexLock, Local.mutexUnlock, Local.wakeChildren, hl,
      Local.threadDeregister, Local.waitToken, Local.waitFence, outside, Instr.leaves,
      Instr.committed]

/-! ## The simulation -/

variable {σ : Type*} {isHeap : ℕ → Bool} {code : Tid → σ → Action σ} {M : Set Obj}

/-- The machine, seen as a crew in rounds. -/
structure Sim (idx : Tid → ℕ) (x : World σ) (p : Party (Threads σ) Tid) : Prop where
  exec : p.state.exec = x.exec
  locks : p.state.determ.locks = x.sched.determ.locks
  locals : ∀ t, p.state.locals t = (x.sched.locals t).gather
  grants : p.grants = x.grants
  inStep : x.sched.InStep idx p.ring p.passed

namespace Sim

variable {idx : Tid → ℕ} {x y : World σ} {p q : Party (Threads σ) Tid} {c : Change} {l' : Local}
  {d' : Determ} {procs : List Tid} {e : Memory.Execution σ} {u : Tid}

/-- Outside the fence the two machines agree on the variables of a thread. -/
theorem local_eq (h : Sim idx x p) (hp : ∀ i ∈ (x.sched.locals t).pending.head?, i.gather = i) :
    p.state.locals t = x.sched.locals t :=
  (h.locals t).trans (Local.gather_eq hp)

theorem local_of_gather (h : Sim idx x p) (hp : (x.sched.locals t).pending = i :: rest)
    (hi : i.gather = i) : p.state.locals t = x.sched.locals t := by
  refine h.local_eq fun j hj => ?_
  rw [hp, List.head?_cons, Option.mem_some_iff] at hj
  exact hj ▸ hi

theorem live (h : Sim idx x p) (t : Tid) :
    (p.state.locals t).live = (x.sched.locals t).live := by
  rw [h.locals]
  rfl

/-- A step of the pages. -/
theorem paged (h : Sim idx x p) :
    Sim idx { x with exec := e } (p.after t .stay { p.state with exec := e }) where
  exec := rfl
  locks := h.locks
  locals := h.locals
  grants := (List.append_nil _).trans h.grants
  inStep := by
    have hpassed : (p.after t .stay { p.state with exec := e }).passed = p.passed :=
      Function.update_eq_self t p.passed
    rw [hpassed]
    exact h.inStep

/-- A step of the scheduler. -/
theorem stepped (h : Sim idx x p) (hlocks : d'.locks = d.locks) (hl : l.gather = l')
    {gs : List Tid} (hgs : c.grants t = gs)
    (hin : (⟨d, Function.update x.sched.locals t l, procs⟩ : Scheduler.State).InStep idx
      (c.ring t p.ring) (Function.update p.passed t (p.passed t + c.crossings))) :
    Sim idx ⟨⟨d, Function.update x.sched.locals t l, procs⟩, e, x.grants ++ gs⟩
      (p.after t c ⟨d', Function.update p.state.locals t l', e⟩) where
  exec := rfl
  locks := hlocks
  locals u := by
    change Function.update p.state.locals t l' u = (Function.update x.sched.locals t l u).gather
    by_cases hu : u = t
    · rw [hu, Function.update_self, Function.update_self, hl]
    · rw [Function.update_of_ne hu, Function.update_of_ne hu, h.locals]
  grants := by rw [← hgs, ← h.grants]; rfl
  inStep := hin

/-- A step in which nobody passes the fence, and the queue stays. -/
theorem inStep_stay (hring : c.turns = false) (hcross : c.crossings = 0)
    (hin : (⟨d, Function.update x.sched.locals t l, procs⟩ : Scheduler.State).InStep idx p.ring
      p.passed) :
    (⟨d, Function.update x.sched.locals t l, procs⟩ : Scheduler.State).InStep idx (c.ring t p.ring)
      (Function.update p.passed t (p.passed t + c.crossings)) := by
  rw [Change.ring_of_not_turns hring, hcross, Nat.add_zero, Function.update_eq_self]
  exact hin

/-- What an instruction outside the fence does to the scheduler, the crew does in one move. -/
structure Served (C : Crew (Threads σ) Tid) (idx : Tid → ℕ) (x : World σ)
    (p : Party (Threads σ) Tid) (t : Tid) (i : Instr) (rest : List Instr) (d : Determ) (l : Local)
    (c : Change) : Prop where
  effect : ∃ d', Machine.effect (p.ring = [t]) p.state.determ (p.state.locals t) t rest i =
    some (d', l) ∧ d'.locks = d.locks
  admits : p.Admits C t c
  grants : c.grants t = if i = .getToken then [t] else []
  others : x.sched.others t i = x.sched.locals
  inStep : ∀ procs, outside l.pending = true →
    (⟨d, Function.update x.sched.locals t l, procs⟩ : Scheduler.State).InStep idx (c.ring t p.ring)
      (Function.update p.passed t (p.passed t + c.crossings))

/-- An instruction on mutexes and variables. -/
theorem serves_inner (h : Sim idx x p) (ho : Party.Orderly (crew isHeap code) (Good M) p)
    (hfits : Fits (p.ring = [t]) (p.stage t) holding (i :: rest))
    (hp : (x.sched.locals t).pending = i :: rest) (hpl : p.state.locals t = x.sched.locals t)
    (hi : i.inner = true ∨ ∃ m, i = .isSingleWorkingThread m)
    (hc : i.duty.bind (p.stage t).change = some c) (hown : x.sched.own t rest i = some (d, l)) :
    Served (crew isHeap code) idx x p t i rest d l c := by
  have hm : t ∈ p.ring := (ho.member t).mpr (hfits.not_gone hi)
  have hkind := inner_change hi hc
  have halone : c = .alone → p.ring = [t] := by
    obtain ⟨e, c', he, hc', ha⟩ := hfits.change
    rw [he, Option.bind_some, hc', Option.some.injEq] at hc
    exact hc ▸ ha
  have hmutex := ho.good.shared_of_pending ((congrArg Local.pending hpl).trans hp)
  rw [own_effect hi h.locks hmutex, h.inStep.single hm, Option.map_eq_some_iff] at hown
  obtain ⟨⟨d', l'⟩, he, hr⟩ := hown
  obtain ⟨rfl, rfl⟩ := Prod.mk.inj hr
  rw [← hpl] at he
  have hget : i ≠ .getToken := by
    rintro rfl
    rcases hi with hi | ⟨m, hi⟩ <;> cases hi
  refine ⟨⟨d', he, rfl⟩, ?_, ?_, ?_, fun procs hout' => ?_⟩
  · rcases hkind with rfl | rfl
    · trivial
    · exact halone rfl
  · rw [if_neg hget]
    rcases hkind with rfl | rfl <;> rfl
  · rcases hi with hi | ⟨m, rfl⟩
    · cases i <;> first | rfl | cases hi
    · rfl
  · have hturn : c.turns = false := by rcases hkind with rfl | rfl <;> rfl
    have hcross : c.crossings = 0 := by rcases hkind with rfl | rfl <;> rfl
    refine inStep_stay hturn hcross ?_
    refine h.inStep.still (.congr rfl rfl rfl rfl rfl) rfl rfl ?_ (by rw [hp]; exact hfits.outside)
      hout'
    rw [(effect_fields he).1, hpl, h.inStep.index]

theorem serves (h : Sim idx x p) (ho : Party.Orderly (crew isHeap code) (Good M) p)
    (hfits : Fits (p.ring = [t]) (p.stage t) holding (i :: rest))
    (hp : (x.sched.locals t).pending = i :: rest) (hpl : p.state.locals t = x.sched.locals t)
    (hfence : ¬(i.arrives = true ∨ i.leaves = true)) (hc : i.duty.bind (p.stage t).change = some c)
    (hown : x.sched.own t rest i = some (d, l)) :
    Served (crew isHeap code) idx x p t i rest d l c := by
  have hmem : ∀ {g}, p.stage t = g → g ≠ .gone → t ∈ p.ring := fun hg hne =>
    (ho.member t).mpr (hg ▸ hne)
  have hhead : p.stage t = .serial → ∃ X, p.ring = t :: X := fun hg =>
    List.head?_eq_some_iff.mp (ho.holder t hg)
  have hpassed : c.crossings = 0 →
      Function.update p.passed t (p.passed t + c.crossings) = p.passed := by
    intro hc
    rw [hc, Nat.add_zero, Function.update_eq_self]
  have hinner := fun hi => h.serves_inner ho hfits hp hpl hi hc hown
  cases i with
  | getToken =>
      obtain ⟨hg, -⟩ := hfits
      rw [hg] at hc
      obtain rfl := Option.some.inj hc
      have hm := hmem hg nofun
      simp only [State.own, Option.ite_none_right_eq_some] at hown
      obtain ⟨hholder, hown⟩ := hown
      obtain ⟨rfl, rfl⟩ := Prod.mk.inj (Option.some.inj hown)
      refine ⟨⟨_, by rw [hpl]; rfl, h.locks⟩, (h.inStep.holder hm).mp hholder, rfl, rfl,
        fun procs hout => ?_⟩
      refine inStep_stay rfl rfl ?_
      exact h.inStep.still (.refl _) rfl rfl (h.inStep.index t) (by rw [hp]; rfl) hout
  | putToken =>
      obtain ⟨hg, -⟩ := hfits
      rw [hg] at hc
      obtain rfl := Option.some.inj hc
      obtain ⟨X, hX⟩ := hhead hg
      obtain ⟨rfl, rfl⟩ := Prod.mk.inj (Option.some.inj hown)
      have hin := h.inStep
      rw [hX] at hin
      refine ⟨⟨_, by rw [hpl]; rfl, h.locks⟩, trivial, rfl, rfl, fun procs hout => ?_⟩
      rw [show Change.put.ring t p.ring = X ++ [t] by rw [hX]; rfl, hpassed rfl]
      exact hin.puts (hin.index t) (by rw [hp]; rfl) hout
  | deregister =>
      obtain ⟨hg, -⟩ := hfits
      rw [hg] at hc
      obtain rfl := Option.some.inj hc
      obtain ⟨X, hX⟩ := hhead hg
      obtain ⟨rfl, rfl⟩ := Prod.mk.inj (Option.some.inj hown)
      have hin := h.inStep
      rw [hX] at hin
      refine ⟨⟨_, by rw [hpl]; rfl, h.locks.trans (Determ.deregisterThread_locks ..).symm⟩, trivial,
        rfl, rfl, fun procs _ => ?_⟩
      rw [show Change.leave.ring t p.ring = X by rw [hX]; rfl, hpassed rfl, hin.index t]
      exact hin.leaves rfl (by rw [hp]; rfl)
  | procExit =>
      obtain ⟨hg, -⟩ := hfits
      have hm : t ∉ p.ring := fun hm => (ho.member t).mp hm hg
      rw [hg] at hc
      obtain rfl := Option.some.inj hc
      obtain ⟨rfl, rfl⟩ := Prod.mk.inj (Option.some.inj hown)
      refine ⟨⟨_, by rw [hpl]; rfl, h.locks⟩, trivial, rfl, rfl,
        fun procs _ => inStep_stay rfl rfl ?_⟩
      exact h.inStep.ends hm (h.inStep.index t)
  | isSingleWorkingThread m => exact hinner (.inr ⟨m, rfl⟩)
  | countLock | discountLock | setTokenHolding | atomicBegin | atomicEnd | finalcommit
  | getLockAgain | endCriticalSection | lockIsowner | lockTest | lockSet | lockRelease =>
      exact hinner (.inl rfl)
  | fenceEnter => exact absurd (.inl rfl) hfence
  | _ => exact hfits.elim

/-! ## The fence -/

/-- The instructions of the fence, from outside. -/
theorem gather_fence (h : Sim idx x p) (hp : (x.sched.locals t).pending = i :: rest)
    (hi : i.arrives = true ∨ i.leaves = true) :
    p.state.locals t = (x.sched.locals t).goto (.fenceEnter i.keep :: rest) := by
  rw [h.locals, Local.gather, hp, List.modifyHead_cons, Instr.gather_of_fence hi]
  rfl

/-- A thread in the fence is a member of the ring. -/
theorem stage_of_fence (hfits : Fits (p.ring = [t]) (p.stage t) holding (.fenceEnter b :: rest)) :
    ∃ g, (p.stage t).Moves .pass (.cross g) ∧ Fits (p.ring = [t]) g holding rest := by
  rcases hfits with ⟨hg, hrest⟩ | ⟨hg, hrest⟩ <;> rw [hg]
  · exact ⟨.waiting, .arrive, hrest⟩
  · exact ⟨.parallel, .depart, hrest⟩

/-- Who is gathered at the fence passes it. -/
theorem gate (h : Sim idx x p) (hd : Disciplined p)
    (hg : x.sched.Gathered p.ring p.passed t) : p.Gate (crew isHeap code) t := by
  intro u hu
  refine (hg u hu).imp_right fun ⟨hpassed, hhead⟩ => ⟨hpassed, ?_⟩
  cases hp : (x.sched.locals u).pending with
  | nil =>
      rw [hp] at hhead
      cases hhead
  | cons i rest =>
      rw [hp] at hhead
      have hi : i.arrives = true ∨ i.leaves = true := by simpa using hhead
      refine Threads.duty_of_fence (k := i.keep) (hd.live u hu) ?_
      rw [h.gather_fence hp hi]
      rfl

/-- A step in the fence. -/
theorem crossed (h : Sim idx x p) (procs : List Tid)
    (ho : Party.Orderly (crew isHeap code) (Good M) p)
    (hd : Disciplined p) (hlive : (x.sched.locals t).live = true)
    (hp : (x.sched.locals t).pending = i :: rest) (hi : i.arrives = true ∨ i.leaves = true)
    (hown : x.sched.own t rest i = some (d, l)) :
    rest.count .atomicEnd = l.pending.count .atomicEnd ∧
      ((t ∈ p.ring ∧ (∃ j, l.pending = j :: rest ∧ Turns.InLap.price j < Turns.InLap.price i) ∧
        Sim idx ⟨⟨d, Function.update x.sched.locals t l, procs⟩, x.exec, x.grants ++ []⟩ p) ∨
      ∃ q, p.step (crew isHeap code) t = some q ∧
        Sim idx ⟨⟨d, Function.update x.sched.locals t l, procs⟩, x.exec, x.grants ++ []⟩ q) := by
  have hlocal := h.gather_fence hp hi
  have hlive' : (p.state.locals t).live = true := (h.live t).trans hlive
  have hfits := hd.fits t hlive'
  rw [hlocal] at hfits
  obtain ⟨g, hmoves, hrest⟩ := stage_of_fence hfits
  have hm : t ∈ p.ring := (ho.member t).mpr hmoves.cross.2.2.1
  have hlocks : d.locks = x.sched.determ.locks := by
    funext m
    rw [State.own_locks hown m]
    cases i <;> first | rfl | rcases hi with hi | hi <;> cases hi
  have hcost : Turns.InLap.cost l.pending < Turns.InLap.cost (i :: rest) :=
    (Turns.InLap.own_cost (by simp only [Turns.InLap.inRounds, Bool.or_eq_true]; tauto) hown).1
  rcases h.inStep.crosses procs hm hp hrest.outside hi hown with
    ⟨j, hj, hk, rfl, hin⟩ | ⟨rfl, hgathered, hin⟩
  · have hne : j ≠ .atomicEnd := by
      rintro rfl
      rcases hj with hj | hj <;> cases hj
    refine ⟨by simp [hne], .inl ⟨hm, ⟨j, rfl, ?_⟩, ?_⟩⟩
    · rw [Local.goto_pending, Turns.InLap.cost_cons, Turns.InLap.cost_cons] at hcost
      omega
    · refine ⟨h.exec, ?_, fun u => ?_, by rw [List.append_nil]; exact h.grants, hin⟩
      · exact h.locks.trans hlocks.symm
      · by_cases hu : u = t
        · subst hu
          dsimp only
          rw [Function.update_self, hlocal, Local.gather, Local.goto_pending, List.modifyHead_cons,
            Instr.gather_of_fence hj, hk]
          rfl
        · dsimp only
          rw [Function.update_of_ne hu, h.locals]
  · have hpend : (p.state.locals t).pending = .fenceEnter i.keep :: rest := by
      rw [hlocal]
      rfl
    have hgoto : (p.state.locals t).goto rest = (x.sched.locals t).goto rest := by
      rw [hlocal]
      rfl
    have hmoved : Party.Moved (crew isHeap code) p t .pass (.cross g)
        ⟨p.state.determ, Function.update p.state.locals t ((p.state.locals t).goto rest),
          x.exec⟩ := by
      refine ⟨Threads.duty_of_fence hlive' (by rw [hpend]; rfl), hmoves, h.gate hd hgathered, ?_⟩
      have hdriven : p.state.exec.driven t (.fenceEnter i.keep) = false :=
        Memory.Execution.not_driven fun _ => rfl
      refine (Threads.act_of_not_driven hpend hdriven).trans ?_
      simp only [effect, Option.bind_some, Memory.Execution.opens, Local.goto_pending,
        Nat.lt_irrefl, if_false, Option.map_some, h.exec]
    refine ⟨rfl, .inr ⟨_, Party.step_of_moved hmoved, ?_⟩⟩
    refine h.stepped (h.locks.trans hlocks.symm) ?_ rfl hin
    rw [hgoto]
    exact hrest.gather (l := (x.sched.locals t).goto rest)

/-! ## The steps -/

/-- The thread has nothing left of its last call. -/
theorem atHome (h : Sim idx x p) (hd : Disciplined p) (hlive : (x.sched.locals t).live = true)
    (hp : (x.sched.locals t).pending = []) :
    p.state.locals t = x.sched.locals t ∧ AtHome (p.stage t) (x.sched.locals t).tokenHolding ∧
      (x.sched.locals t).fenceEnabled = true := by
  have hpl : p.state.locals t = x.sched.locals t := h.local_eq (by rw [hp]; exact nofun)
  have hlive' : (p.state.locals t).live = true := (h.live t).trans hlive
  have hfits := hd.fits t hlive'
  have henabled := hd.enabled t hlive'
  rw [hpl] at hfits henabled
  rw [hp] at hfits
  exact ⟨hpl, hfits, henabled⟩

/-- A call of the library. -/
theorem follow_call (h : Sim idx x p) (hd : Disciplined p) {k : Call} {next : σ}
    (hlive : (x.sched.locals t).live = true) (hp : (x.sched.locals t).pending = [])
    (hcode : code t (x.exec.locals t) = .call k next)
    (henter : x.exec.enter isHeap t k next = some e) :
    ∃ q, p.step (crew isHeap code) t = some q ∧
      Sim idx ⟨x.sched.called t k.op, e, x.grants ++ []⟩ q := by
  obtain ⟨hpl, hhome, henabled⟩ := h.atHome hd hlive hp
  have hmoved : Party.Moved (crew isHeap code) p t .quiet .stay
      ⟨p.state.determ, Function.update p.state.locals t
        ((x.sched.locals t).goto ((x.sched.locals t).program k.op)), e⟩ := by
    rw [← h.exec] at hcode henter
    refine ⟨Threads.duty_of_call (hpl ▸ hlive) (hpl ▸ hp) hcode, .quiet hhome.not_waiting, trivial,
      (Threads.act_of_call (hpl ▸ hp) hcode).trans ?_⟩
    rw [henter, hpl]
    rfl
  refine ⟨_, Party.step_of_moved hmoved, h.stepped h.locks (program_gather k henabled) rfl ?_⟩
  refine inStep_stay rfl rfl
    (h.inStep.still (.refl _) rfl rfl (h.inStep.index t) (by rw [hp]; rfl) ?_)
  exact program_outside k henabled

/-- A load or store. -/
theorem follow_move (h : Sim idx x p) (hd : Disciplined p) (hlive : (x.sched.locals t).live = true)
    (hp : (x.sched.locals t).pending = [])
    (hcode : ∀ k next, code t (x.exec.locals t) ≠ .call k next)
    (hmove : x.exec.move isHeap (moves code) t = some e) :
    ∃ q, p.step (crew isHeap code) t = some q ∧ Sim idx { x with exec := e } q := by
  obtain ⟨hpl, hhome, -⟩ := h.atHome hd hlive hp
  have hmoved : Party.Moved (crew isHeap code) p t .work .stay { p.state with exec := e } := by
    have hm : Threads.Moves code p.state t := ⟨by rw [hpl, hp], by rw [h.exec]; exact hcode⟩
    refine ⟨hm.duty (hpl ▸ hlive), ?_, trivial, hm.act.trans ?_⟩
    · rcases hhome with ⟨hg, -⟩ | ⟨hg, -⟩ <;> rw [hg]
      · exact .work
      · exact .serial rfl
    · rw [h.exec, hmove]
      rfl
  exact ⟨_, Party.step_of_moved hmoved, h.paged⟩

/-- A step of the pages in a call. -/
theorem follow_page (h : Sim idx x p) (hd : Disciplined p) (hlive : (x.sched.locals t).live = true)
    (hp : (x.sched.locals t).pending = i :: rest) (hdriven : x.exec.driven t i = true)
    (hnext : x.exec.next isHeap t = some e) :
    ∃ q, p.step (crew isHeap code) t = some q ∧ Sim idx { x with exec := e } q := by
  obtain ⟨ph, hph⟩ : ∃ ph, drives i ph = true := by
    by_contra hn
    rw [Memory.Execution.not_driven fun ph => Bool.eq_false_iff.mpr fun hd => hn ⟨ph, hd⟩]
      at hdriven
    cases hdriven
  have hpl : p.state.locals t = x.sched.locals t :=
    h.local_of_gather hp (by cases i <;> first | rfl | cases hph)
  have hlive' : (p.state.locals t).live = true := (h.live t).trans hlive
  have hfits := hd.fits t hlive'
  rw [hpl, hp] at hfits
  have hmoved : Party.Moved (crew isHeap code) p t i.pageDuty .stay { p.state with exec := e } := by
    rw [← h.exec] at hdriven hnext
    refine ⟨Threads.duty_of_driven hlive' (hpl ▸ hp) hdriven,
      Transition.Stage.moves_of_change (hfits.page hph), trivial,
      (Threads.act_of_driven (hpl ▸ hp) hdriven).trans ?_⟩
    rw [hnext]
    rfl
  exact ⟨_, Party.step_of_moved hmoved, h.paged⟩

/-- An instruction outside the fence. -/
theorem follow_instr (h : Sim idx x p) (procs : List Tid)
    (ho : Party.Orderly (crew isHeap code) (Good M) p)
    (hd : Disciplined p) (hlive : (x.sched.locals t).live = true)
    (hp : (x.sched.locals t).pending = i :: rest) (hdriven : x.exec.driven t i = false)
    (hfence : ¬(i.arrives = true ∨ i.leaves = true)) (hown : x.sched.own t rest i = some (d, l))
    (hopen : x.exec.opens isHeap t rest l.pending = some e) :
    x.sched.others t i = x.sched.locals ∧ ∃ q, p.step (crew isHeap code) t = some q ∧
      Sim idx ⟨⟨d, Function.update x.sched.locals t l, procs⟩, e,
        x.grants ++ if i = .getToken then [t] else []⟩ q := by
  have hpl : p.state.locals t = x.sched.locals t :=
    h.local_of_gather hp (Instr.gather_of_not_fence hfence)
  have hlive' : (p.state.locals t).live = true := (h.live t).trans hlive
  have hfits := hd.fits t hlive'
  rw [hpl, hp] at hfits
  obtain ⟨duty, c, hduty, hc, -⟩ := hfits.change
  have hbind : i.duty.bind (p.stage t).change = some c := by rw [hduty, Option.bind_some, hc]
  have hserved := h.serves ho hfits hp hpl hfence hbind hown
  obtain ⟨d', heffect, hlocks⟩ := hserved.effect
  have hafter : l.gather = l ∧ outside l.pending = true := by
    by_cases hi : i = .procExit
    · subst hi
      obtain ⟨-, rfl⟩ := Prod.mk.inj (Option.some.inj hown)
      exact ⟨rfl, rfl⟩
    · have hmutex := ho.good.shared_of_pending ((congrArg Local.pending hpl).trans hp)
      have hfits' := Fits.effect (l := p.state.locals t)
        (by
          rw [hpl]
          exact hfits.mono (q := decide (p.ring = [t]) = true) fun h => decide_eq_true h)
        heffect hbind hmutex hi
      exact ⟨hfits'.gather, hfits'.outside⟩
  have hmoved : Party.Moved (crew isHeap code) p t duty c
      ⟨d', Function.update p.state.locals t l, e⟩ := by
    rw [← h.exec] at hdriven hopen
    refine ⟨(Threads.duty_of_not_driven hlive' (hpl ▸ hp) hdriven).trans hduty,
      Transition.Stage.moves_of_change hc, hserved.admits,
      (Threads.act_of_not_driven (hpl ▸ hp) hdriven).trans ?_⟩
    rw [heffect, Option.bind_some, hopen]
    rfl
  exact ⟨hserved.others, _, Party.step_of_moved hmoved,
    h.stepped hlocks hafter.1 hserved.grants (hserved.inStep procs hafter.2)⟩

/-- A bound on the steps that a thread may take in the fence before it passes it. -/
def ahead (l : Local) : ℕ := (l.pending.head?.map Turns.InLap.price).getD 0

/-- A step of the machine is a move of the crew, or a step in the fence. -/
theorem follow (h : Sim idx x p) (ho : Party.Orderly (crew isHeap code) (Good M) p)
    (hd : Disciplined p) (hs : x.step isHeap code t = some y) :
    ∃ l, y.sched.locals = Function.update x.sched.locals t l ∧
      ((t ∈ p.ring ∧ Sim idx y p ∧ ahead l < ahead (x.sched.locals t)) ∨
        ∃ q, p.step (crew isHeap code) t = some q ∧ Sim idx y q) := by
  have hstay : x.sched.locals = Function.update x.sched.locals t (x.sched.locals t) :=
    (Function.update_eq_self ..).symm
  have hnil : ∀ s e, (⟨s, e, x.grants ++ []⟩ : World σ) = ⟨s, e, x.grants⟩ := fun s e => by
    rw [List.append_nil]
  obtain ⟨hlive, ⟨k, next, e, hp, hc, he, rfl⟩ | ⟨e, hp, hc, he, rfl⟩ |
    ⟨i, rest, e, hp, hdr, he, rfl⟩ | ⟨i, rest, d, l, e, hp, hdr, hown, he, rfl⟩⟩ :=
      World.step_cases hs
  · have hfollow := h.follow_call hd hlive hp hc he
    rw [hnil] at hfollow
    exact ⟨_, rfl, .inr hfollow⟩
  · exact ⟨_, hstay, .inr (h.follow_move hd hlive hp hc he)⟩
  · exact ⟨_, hstay, .inr (h.follow_page hd hlive hp hdr he)⟩
  · by_cases hi : i.arrives = true ∨ i.leaves = true
    · have hget : i ≠ .getToken := by
        rintro rfl
        rcases hi with hi | hi <;> cases hi
      have hothers := State.others_of_fence (s := x.sched) (t := t) hi
      obtain ⟨hcount, hcross⟩ := h.crossed (x.sched.created i) ho hd hlive hp hi hown
      obtain rfl : x.exec = e := by
        rw [Memory.Execution.opens, hcount, if_neg (Nat.lt_irrefl _)] at he
        exact Option.some.inj he
      rw [if_neg hget, World.served, hothers]
      refine ⟨l, rfl, hcross.imp_left ?_⟩
      rintro ⟨hm, ⟨j, hj, hprice⟩, hsim⟩
      refine ⟨hm, hsim, ?_⟩
      rw [ahead, ahead, hj, hp]
      exact hprice
    · obtain ⟨hothers, hfollow⟩ := h.follow_instr (x.sched.created i) ho hd hlive hp hdr hi
        hown he
      rw [World.served, hothers]
      exact ⟨l, rfl, .inr hfollow⟩

/-! ## Progress -/

/-- What the crew can do outside the fence the scheduler can do. -/
theorem owns (h : Sim idx x p) (ho : Party.Orderly (crew isHeap code) (Good M) p)
    (hfits : Fits (p.ring = [t]) (p.stage t) holding (i :: rest))
    (hp : (x.sched.locals t).pending = i :: rest) (hpl : p.state.locals t = x.sched.locals t)
    (hfence : ¬(i.arrives = true ∨ i.leaves = true)) (hc : i.duty.bind (p.stage t).change = some c)
    (hadmits : p.Admits (crew isHeap code) t c)
    (he : effect (p.ring = [t]) p.state.determ (p.state.locals t) t rest i = some (d', l)) :
    ∃ d, x.sched.own t rest i = some (d, l) := by
  have hinner : (i.inner = true ∨ ∃ m, i = .isSingleWorkingThread m) →
      ∃ d, x.sched.own t rest i = some (d, l) := by
    intro hi
    have hm : t ∈ p.ring := (ho.member t).mpr (hfits.not_gone hi)
    have hmutex := ho.good.shared_of_pending ((congrArg Local.pending hpl).trans hp)
    rw [own_effect hi h.locks hmutex, h.inStep.single hm, ← hpl, he]
    exact ⟨_, rfl⟩
  rw [hpl] at he
  cases i with
  | getToken =>
      obtain ⟨hg, -⟩ := hfits
      rw [hg] at hc
      obtain rfl := Option.some.inj hc
      have hm : t ∈ p.ring := (ho.member t).mpr (hg ▸ nofun)
      obtain ⟨-, rfl⟩ := Prod.mk.inj (Option.some.inj he)
      exact ⟨_, if_pos ((h.inStep.holder hm).mpr hadmits)⟩
  | putToken | deregister | procExit =>
      obtain ⟨-, rfl⟩ := Prod.mk.inj (Option.some.inj he)
      exact ⟨_, rfl⟩
  | isSingleWorkingThread m => exact hinner (.inr ⟨m, rfl⟩)
  | countLock | discountLock | setTokenHolding | atomicBegin | atomicEnd | finalcommit
  | getLockAgain | endCriticalSection | lockIsowner | lockTest | lockSet | lockRelease =>
      exact hinner (.inl rfl)
  | fenceEnter => exact absurd (.inl rfl) hfence
  | _ => exact hfits.elim

/-- Whoever passes in the crew is in the fence. -/
theorem fence_of_pass (h : Sim idx x p) (hduty : (crew isHeap code).duty p.state t = some .pass) :
    (x.sched.locals t).pending.head?.any (fun i => i.arrives || i.leaves) = true := by
  change Threads.duty code p.state t = some .pass at hduty
  unfold Threads.duty at hduty
  rw [h.locals] at hduty
  cases hp : (x.sched.locals t).pending with
  | nil =>
      have hnil : (x.sched.locals t).gather.pending = [] := by
        rw [Local.gather, hp]
        rfl
      simp only [hnil] at hduty
      split at hduty
      · split at hduty <;> cases hduty
      · rename_i hcons
        cases hcons
      · cases hduty
  | cons i rest =>
      have hcons : (x.sched.locals t).gather.pending = i.gather :: rest := Local.gather_pending hp
      simp only [hcons] at hduty
      by_contra hi
      have hnot : ¬(i.arrives = true ∨ i.leaves = true) := by simpa using hi
      rw [Instr.gather_of_not_fence hnot] at hduty
      split at hduty
      · rename_i hnil
        cases hnil
      · rename_i j js hlive hj
        obtain ⟨rfl, rfl⟩ := List.cons.inj hj
        split at hduty
        · cases i <;> cases hduty
        · cases i with
          | fenceEnter k => exact hnot (.inl rfl)
          | _ => cases hduty
      · cases hduty

section Moved

variable {duty : Duty} {s : Threads σ} (h : Sim idx x p)
  (hm : Party.Moved (crew isHeap code) p t duty c s)
include h hm

theorem live_of_moved : (x.sched.locals t).live = true :=
  (h.live t).symm.trans (Disciplined.local_cases hm).1

/-- What the code of a thread does in the crew it does in the machine. -/
theorem progress_code (hd : Disciplined p) (hp : (x.sched.locals t).pending = []) :
    ∃ y, x.step isHeap code t = some y := by
  have hlive := h.live_of_moved hm
  obtain ⟨hpl, -⟩ := h.atHome hd hlive hp
  have hact : Threads.act isHeap code (p.ring = [t]) p.state t = some s := hm.act
  unfold Threads.act at hact
  simp only [hpl, hp, h.exec] at hact
  split at hact
  · rename_i k next hc
    obtain ⟨e, he, -⟩ := Option.map_eq_some_iff.mp hact
    exact ⟨_, World.step_call hlive hp hc he⟩
  · rename_i hc
    obtain ⟨e, he, -⟩ := Option.map_eq_some_iff.mp hact
    exact ⟨_, World.step_move hlive hp (fun k next hk => hc k next hk) he⟩

/-- Whom the gate of the crew is open for is gathered at the fence with the others. -/
theorem gathered_of_moved (ho : Party.Orderly (crew isHeap code) (Good M) p) (hd : Disciplined p)
    (hp : (x.sched.locals t).pending = i :: rest) (hi : i.arrives = true ∨ i.leaves = true) :
    t ∈ p.ring ∧ x.sched.Gathered p.ring p.passed t := by
  have hlive := (Disciplined.local_cases hm).1
  have hpass : (crew isHeap code).duty p.state t = some .pass :=
    Threads.duty_of_fence (k := i.keep) hlive (by rw [h.gather_fence hp hi]; rfl)
  obtain rfl := Option.some.inj (hm.duty.symm.trans hpass)
  have hfits := hd.fits t hlive
  rw [h.gather_fence hp hi] at hfits
  obtain ⟨g, hg, -⟩ := stage_of_fence hfits
  obtain rfl := Option.some.inj
    ((Transition.Stage.change_of_moves hm.moves).symm.trans
      (Transition.Stage.change_of_moves hg))
  have hgate : p.Gate (crew isHeap code) t := hm.admits
  exact ⟨(ho.member t).mpr hg.cross.2.2.1, fun u hu =>
    (hgate u hu).imp_right fun hp => ⟨hp.1, h.fence_of_pass hp.2⟩⟩

/-- Somebody at the fence can go on. -/
theorem progress_fence (ho : Party.Orderly (crew isHeap code) (Good M) p) (hd : Disciplined p)
    (hp : (x.sched.locals t).pending = i :: rest) (hi : i.arrives = true ∨ i.leaves = true) :
    ∃ u y, x.step isHeap code u = some y := by
  obtain ⟨hmem, hgathered⟩ := h.gathered_of_moved hm ho hd hp hi
  obtain ⟨u, hu, j, rest', hpu, hj, hopens⟩ := h.inStep.opens hmem hgathered
  obtain ⟨⟨d, l⟩, hown⟩ := Option.isSome_iff_exists.mp hopens
  have hlive : (x.sched.locals u).live = true := (h.live u).symm.trans (hd.live u hu)
  have hcount := (h.crossed [] ho hd hlive hpu hj hown).1
  have hdriven : x.exec.driven u j = false :=
    Memory.Execution.not_driven fun ph => by
      cases j <;> first | rfl | rcases hj with hj | hj <;> cases hj
  refine ⟨u, _, World.step_run hlive hpu hdriven hown (e := x.exec) ?_⟩
  rw [Memory.Execution.opens, hcount, if_neg (Nat.lt_irrefl _)]

/-- What an instruction outside the fence does in the crew it does in the machine. -/
theorem progress_instr (ho : Party.Orderly (crew isHeap code) (Good M) p) (hd : Disciplined p)
    (hp : (x.sched.locals t).pending = i :: rest) (hi : ¬(i.arrives = true ∨ i.leaves = true)) :
    ∃ y, x.step isHeap code t = some y := by
  have hlive := h.live_of_moved hm
  have hlive' := (Disciplined.local_cases hm).1
  have hpl : p.state.locals t = x.sched.locals t :=
    h.local_of_gather hp (Instr.gather_of_not_fence hi)
  have hact : Threads.act isHeap code (p.ring = [t]) p.state t = some s := hm.act
  by_cases hdriven : x.exec.driven t i = true
  · rw [Threads.act_of_driven (hpl ▸ hp) (h.exec ▸ hdriven), h.exec] at hact
    obtain ⟨e, he, -⟩ := Option.map_eq_some_iff.mp hact
    exact ⟨_, World.step_page hlive hp hdriven he⟩
  · rw [Bool.not_eq_true] at hdriven
    rw [Threads.act_of_not_driven (hpl ▸ hp) (h.exec ▸ hdriven), h.exec] at hact
    obtain ⟨⟨d', l⟩, he, hact⟩ := Option.bind_eq_some_iff.mp hact
    obtain ⟨e, hopen, -⟩ := Option.map_eq_some_iff.mp hact
    have hfits := hd.fits t hlive'
    rw [hpl, hp] at hfits
    have hduty : Threads.duty code p.state t = i.duty :=
      Threads.duty_of_not_driven hlive' (hpl ▸ hp) (h.exec ▸ hdriven)
    have hc : i.duty.bind (p.stage t).change = some c := by
      rw [← hduty, show Threads.duty code p.state t = _ from hm.duty, Option.bind_some]
      exact Transition.Stage.change_of_moves hm.moves
    obtain ⟨d, hown⟩ := h.owns ho hfits hp hpl hi hc hm.admits he
    exact ⟨_, World.step_run hlive hp hdriven hown hopen⟩

end Moved

/-- What the crew can do the machine can do, or it can take a step in the fence first. -/
theorem progress (h : Sim idx x p) (ho : Party.Orderly (crew isHeap code) (Good M) p)
    (hd : Disciplined p) (hs : p.step (crew isHeap code) t = some q) :
    ∃ u y, x.step isHeap code u = some y := by
  obtain ⟨duty, c, s, hm, -⟩ := Party.moved_of_step hs
  cases hp : (x.sched.locals t).pending with
  | nil => exact ⟨t, h.progress_code hm hd hp⟩
  | cons i rest =>
      by_cases hi : i.arrives = true ∨ i.leaves = true
      · exact h.progress_fence hm ho hd hp hi
      · exact ⟨t, h.progress_instr hm ho hd hp hi⟩

end Sim

end Machine

end Dthreads
