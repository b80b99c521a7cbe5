import Dthreads.Scheduler.Joiners

/-! # `sig_wait`

A thread leaves the token queue, waits for a signal outside of the scheduler, and comes back behind
the thread that the token is at then. -/

namespace Dthreads.Scheduler

open Ring Transition

/-! ## The scheduler object -/

namespace Determ

/-- `determ::sig_wait` up to the real `sigwait`. -/
def sigLeave (d : Determ) (my : ℕ) : Determ :=
  let next := (d.entries my).next
  let (es, active) := d.entries.removeEntry my d.activelist
  { ({ d with entries := es, activelist := active }).decrFence with tokenpos := next }

/-- The rest of it, after a real `sigwait` that succeeded. -/
def sigReturn (d : Determ) (my : ℕ) : Determ :=
  ({ d with entries := d.entries.insertHead my d.tokenpos }).incrFence 1

variable {d : Determ} {ls : Queue → List ℕ} {my : ℕ}

theorem sigLeave_role (d : Determ) (my i : ℕ) :
    ((d.sigLeave my).entries i).role = (d.entries i).role := by
  unfold sigLeave
  dsimp only
  rw [decrFence_entries]
  exact Entries.removeEntry_role ..

theorem sigLeave_ident (d : Determ) (my i : ℕ) :
    ((d.sigLeave my).entries i).ident = (d.entries i).ident := by
  unfold sigLeave
  dsimp only
  rw [decrFence_entries]
  exact Entries.removeEntry_ident ..

theorem sigLeave_maxthreads (d : Determ) (my : ℕ) :
    (d.sigLeave my).maxthreads = dec d.maxthreads := by
  unfold sigLeave Determ.decrFence
  dsimp only
  split <;> rfl

theorem sigReturn_role (d : Determ) (my i : ℕ) :
    ((d.sigReturn my).entries i).role = (d.entries i).role := Entries.insertHead_role ..

theorem sigReturn_ident (d : Determ) (my i : ℕ) :
    ((d.sigReturn my).entries i).ident = (d.entries i).ident := Entries.insertHead_ident ..

theorem condEnter_status (d : Determ) (my c m : ℕ) :
    ((d.condEnter my c m).entries my).status = .condWaiting := by
  unfold condEnter
  dsimp only
  rw [lockRelease_entries]
  dsimp only
  rw [decrFence_entries]
  simp [setCond]

namespace Queued

/-- The caller is in no queue while it waits for the signal. -/
theorem sigLeave (h : Queued d ls) (hmy : my ∈ ls .active) :
    ∃ ls', Queued (d.sigLeave my) ls' ∧ Shift my d ls (d.sigLeave my) ls' ∧ ∀ q, my ∉ ls' q := by
  obtain ⟨es, hE, hlink, -, -, -⟩ := h.removed hmy
  obtain ⟨hact, hconds, hbarriers⟩ :=
    decrFence_lists { d with entries := es, activelist := ((ls .active).erase my).head? }
  have hleave : d.sigLeave my =
      { ({ d with entries := es, activelist := ((ls .active).erase my).head? }).decrFence with
        tokenpos := (d.entries my).next } := by
    unfold Determ.sigLeave
    rw [show d.entries.removeEntry my d.activelist = _ from hE]
  have hself : Function.update ls .active ((ls .active).erase my) .active = (ls .active).erase my :=
    Function.update_self ..
  have hother : ∀ q, q ≠ .active → Function.update ls .active ((ls .active).erase my) q = ls q :=
    fun q hq => Function.update_of_ne hq ..
  have hout : ∀ q, my ∉ Function.update ls .active ((ls .active).erase my) q := by
    intro q
    by_cases hq : q = .active
    · rw [hq, hself]
      exact h.not_mem_erase .active my
    · rw [hother q hq]
      exact fun hm => hq (h.linking.disjoint hm hmy)
  refine ⟨Function.update ls .active ((ls .active).erase my), and_assoc.mp ⟨?_, hout⟩⟩
  refine h.leave hmy ?_ (fun q => ?_) (fun ha => ?_) ?_ (fun i _ => sigLeave_role d my i)
    (sigLeave_ident d my) (fun q i hi => ?_) (hout .active) (fun q hm => absurd hm (hout q))
    (fun c hs => ?_) (fun c => ?_) (fun b => ?_) fun c i hi => ?_
  · rw [hleave]
    dsimp only
    rw [decrFence_entries]
    exact hlink
  · rw [hleave]
    cases q with
    | active => exact hact.trans (congrArg List.head? hself.symm)
    | cond c =>
        rw [hother _ (by simp), ← h.head]
        simp only [Determ.head, hconds]
    | barrier b =>
        rw [hother _ (by simp), ← h.head]
        simp only [Determ.head, hbarriers]
  · rw [hself] at ha ⊢
    rw [hleave]
    exact h.linking.next_mem_erase hmy ha
  · rw [hleave]
    exact .inr (h.linking.next_mem hmy)
  · by_cases hq : q = .active
    · rw [hq, hself]
      exact List.mem_erase_of_ne hi
    · rw [hother q hq]
  · rw [role_status (sigLeave_role d my my)] at hs
    exact absurd hs (h.fits _ my hmy).2
  · rw [hother _ (by simp), hleave, Determ.waiters]
    dsimp only
    rw [hconds]
    exact h.waiters c
  · rw [hleave, Determ.generation, Determ.generation]
    dsimp only
    rw [hbarriers]
  · rwa [hother _ (by simp)]

/-- The caller comes back to a token queue that is not empty. -/
theorem sigReturn (h : Queued d ls) (ha : ls .active ≠ []) (hout : ∀ q, my ∉ ls q)
    (hst : (d.entries my).status = .ready ∨ (d.entries my).status = .barrWaiting)
    (hx : (d.entries my).threadindex = my) :
    ∃ ls', Queued (d.sigReturn my) ls' ∧ Shift my d ls (d.sigReturn my) ls' ∧ my ∈ ls' .active := by
  obtain ⟨X, hlink, hhead, hmem⟩ := h.linking.insertHead hout (h.token ha)
  have hself : Function.update ls .active X .active = X := Function.update_self ..
  have hother : ∀ q, q ≠ .active → Function.update ls .active X q = ls q := fun q hq =>
    Function.update_of_ne hq ..
  have hmyX : ∀ q, my ∈ Function.update ls .active X q → q = .active := fun q hm =>
    by_contra fun hq => hout q (by rwa [hother q hq] at hm)
  have hold : ∀ q i, i ≠ my → (i ∈ Function.update ls .active X q ↔ i ∈ ls q) := by
    intro q i hi
    by_cases hq : q = .active
    · rw [hq, hself, hmem]
      exact or_iff_right hi
    · rw [hother q hq]
  have hst' : ((d.sigReturn my).entries my).status = (d.entries my).status :=
    role_status (sigReturn_role d my my)
  refine ⟨Function.update ls .active X, ?_, ?_, ?_⟩
  · refine h.alter (k := my) hlink (fun q => ?_) (fun _ => ?_) ?_ (fun i _ => sigReturn_role d my i)
      (fun i _ => ident_threadindex (sigReturn_ident d my i)) (fun q i hi hm => .inl ((hold q i hi).mp hm))
      (fun q hm => ?_) ((ident_threadindex (sigReturn_ident d my my)).trans hx)
      (fun c i hi hne => (hold _ i hne).mpr hi) (fun c hs => ?_) (fun c => ?_) fun i hs hj hm => ?_
    · by_cases hq : q = .active
      · subst hq
        rw [hself, hhead]
        exact h.head .active
      · rw [hother q hq, ← h.head]
        cases q with
        | active => exact absurd rfl hq
        | _ => rfl
    · rw [hself]
      exact (hmem _).mpr (.inr (h.token ha))
    · exact (ident_threadindex (sigReturn_ident d my _)).trans h.seat
    · rw [hmyX q hm]
      constructor
      · intro he
        have he' := hst'.symm.trans he
        rcases hst with hst | hst <;> exact absurd (hst.symm.trans he') nofun
      · intro he
        have he' := hst'.symm.trans he
        rcases hst with hst | hst <;> exact absurd (hst.symm.trans he') nofun
    · rcases hst with hst | hst <;> exact absurd ((hst'.trans hst).symm.trans hs) nofun
    · rw [hother _ (by simp)]
      exact h.waiters c
    · have hr := sigReturn_role d my i
      have hs' := (role_status hr).symm.trans hs
      rw [role_joinee hr, role_status (sigReturn_role d my _)] at hj
      have hne : i ≠ my := by
        rintro rfl
        rcases hst with hst | hst <;> exact absurd (hst.symm.trans hs') nofun
      exact h.joining i hs' hj ((hold .active i hne).mp hm)
  · exact
      { active := fun i hi hne => (hold .active i hne).mpr hi
        barrier := fun b i hi hne => .inr ((hold _ i hne).mpr hi)
        token := .inl rfl
        role := fun i _ => .inl (sigReturn_role d my i)
        tid := fun i _ => ident_tid (sigReturn_ident d my i)
        generation := fun b _ => rfl
        exited := fun i he hne => absurd ((role_status (sigReturn_role d my i)).symm.trans he) hne
        front := fun c i hi => .inl (by rwa [hother _ (by simp)])
        source := fun q i hi hne => .inl ⟨q, (hold q i hne).mp hi⟩ }
  · rw [hself]
    exact (hmem my).mpr (.inl rfl)

end Queued

end Determ

/-! ## Who stands at a barrier -/

/-- The program point is between the arrival at the barrier `b` and its opening. -/
def Phase.atBarrier (b : Obj) : Phase → Prop
  | .barrier b' | .barrierBlock b' _ => b' = b
  | _ => False

/-- Only `cond_wait` waits for a signal, and the wait for the token comes from the wait of `join`. -/
def Leads : List Instr → Prop
  | [] => True
  | i :: rest => (∀ m, rest.head? = some (.condBlock m) → ∃ c m', i = .condEnter c m') ∧
      rest.head? ≠ some .joinToken ∧ Leads rest

theorem phase_condBlock {is : List Instr} (h : phase is = .condBlock) :
    ∃ m, is.head? = some (.condBlock m) := by
  unfold phase at h
  split at h <;> cases h
  exact ⟨_, rfl⟩

theorem phase_joinToken {is : List Instr} (h : phase is = .joinToken) :
    is.head? = some .joinToken := by
  unfold phase at h
  split at h <;> cases h
  rfl

theorem program_leads (l : Local) (op : Op) : Leads (l.program op) := by
  cases op <;>
    simp only [Local.program, Local.mutexLock, Local.mutexUnlock, Local.condWait, Local.condSignal,
      Local.condBroadcast, Local.barrierWait, Local.spawn, Local.join, Local.cancel,
      Local.threadDeregister, Local.wakeChildren, Local.underToken, Local.waitToken, Local.waitFence] <;>
    (repeat' split) <;> simp [Leads]

theorem Pushes.leads {l : Local} {i : Instr} {js rest : List Instr} (h : Pushes l i js)
    (hs : Leads (i :: rest)) : Leads (js ++ rest) := by
  obtain ⟨hc, hj, hr⟩ := hs
  by_cases hi : ∃ c m, i = .condEnter c m
  · obtain ⟨c, m, rfl⟩ := hi
    cases h with
    | done => exact hr
    | arrivedSpin k i hi => simp at hi
    | arrivedWait k i hi => simp at hi
  have hn : ∀ m, rest.head? ≠ some (.condBlock m) := fun m hm => hi (hc m hm)
  cases h with
  | done => exact hr
  | again m =>
      unfold Local.getLockAgain
      split <;> simp [Leads, Local.waitToken, Local.waitFence, hn, hj, hr]
  | endCritical =>
      unfold Local.endCriticalSection
      split <;> simp [Leads, Local.waitFence, hn, hj, hr]
  | taken m k => cases k <;> simp [Leads, Local.lockFailed, Local.waitFence, hn, hj, hr]
  | exhausted m k => cases k <;> simp [Leads, Local.lockFailed, Local.waitFence, hn, hj, hr]
  | _ => simp [Leads, hn, hj, hr]

/-- Where the two waits come from. -/
theorem Pushes.waits {l : Local} {i j : Instr} {js rest : List Instr} (h : Pushes l i js)
    (hj : (∃ m, j = .condBlock m) ∨ j = .joinToken) (hh : (js ++ rest).head? = some j) :
    rest.head? = some j ∨ i = j ∨ ∃ g, i = .joinBlock g ∧ j = .joinToken := by
  cases h with
  | done => exact .inl hh
  | condAgain m =>
      simp only [List.cons_append, List.nil_append, List.head?_cons, Option.some.injEq] at hh
      exact .inr (.inl hh)
  | joined g =>
      simp only [List.cons_append, List.nil_append, List.head?_cons, Option.some.injEq] at hh
      exact .inr (.inr ⟨g, rfl, hh.symm⟩)
  | again m =>
      rcases hj with ⟨m', rfl⟩ | rfl <;> unfold Local.getLockAgain at hh <;> split at hh <;>
        simp [Local.waitToken, Local.waitFence] at hh
  | endCritical =>
      rcases hj with ⟨m', rfl⟩ | rfl <;> unfold Local.endCriticalSection at hh <;> split at hh <;>
        simp_all
  | taken m k =>
      rcases hj with ⟨m', rfl⟩ | rfl <;> cases k <;> simp_all [Local.lockFailed]
  | exhausted m k =>
      rcases hj with ⟨m', rfl⟩ | rfl <;> cases k <;> simp_all [Local.lockFailed]
  | _ => rcases hj with ⟨m', rfl⟩ | rfl <;> simp at hh

namespace State

variable {s : State} {t : Tid} {rest : List Instr} {i : Instr} {d : Determ} {l : Local}
  {ls ls' : Queue → List ℕ}

/-- A thread in the wait of `cond_wait`, or for the token after `join`, does not have the status of a
barrier. -/
def Apart (s : State) : Prop :=
  s.Avoids .barrWaiting fun ph => ph = .condBlock ∨ ph = .joinToken

theorem Apart.ran (ha : Apart s) (h : Placed s ls) (hl : (s.locals t).live = true)
    (hp : (s.locals t).pending = i :: rest) (hlead : Leads (i :: rest)) (hreg : s.Regular t i)
    (ho : s.own t rest i = some (d, l)) :
    Apart ⟨d, Function.update (s.others t i) t l, s.created i⟩ := by
  by_cases hx : i = .procExit
  · subst hx
    cases ho
    exact ha.procExit
  by_cases hc : ∃ p, i = .childRegister p
  · obtain ⟨p, rfl⟩ := hc
    exact ha.childRegister nofun nofun h hl hp hreg ho
  have hc' : ∀ p, i ≠ .childRegister p := fun p hip => hc ⟨p, hip⟩
  obtain ⟨ls', -, hs⟩ := h.ran hl hp hreg ho
  obtain ⟨-, hidx, -⟩ := own_entries ho hc'
  have hr : (s.locals t).enrolled := Placed.enrolled_of hp hc' hx
  obtain ⟨js, hjs, hlp⟩ := own_pending ho hx
  refine ha.move nofun nofun h hs (fun u hut hu hur => ?_) fun _ _ hph hj => ?_
  · rw [hidx]
    exact h.distinct hl hr hut hu hur
  rw [hidx] at hj
  have hsame : touchesQueues i = false → phase (i :: rest) = phase l.pending → False := fun hq hpe => by
    have hrole := (own_same ho hq).role (s.locals t).threadIndex
    exact ha t hl hr (by rw [hp, hpe]; exact hph) ((role_status hrole).symm.trans hj)
  obtain ⟨j, hj', hwait⟩ : ∃ j, l.pending.head? = some j ∧ ((∃ m, j = .condBlock m) ∨ j = .joinToken) := by
    rcases hph with hph | hph
    · obtain ⟨m, hm⟩ := phase_condBlock hph
      exact ⟨_, hm, .inl ⟨m, rfl⟩⟩
    · exact ⟨_, phase_joinToken hph, .inr rfl⟩
  rcases hjs.waits hwait (show (js ++ rest).head? = some j from hlp ▸ hj') with hrest | rfl |
    ⟨g, rfl, rfl⟩
  · rcases hwait with ⟨m, rfl⟩ | rfl
    · obtain ⟨c, m', rfl⟩ := hlead.1 m hrest
      cases ho
      exact absurd ((Determ.condEnter_status ..).symm.trans hj) nofun
    · exact hlead.2.1 hrest
  · obtain ⟨is, his⟩ := List.head?_eq_some_iff.mp hj'
    rw [his] at hsame
    rcases hwait with ⟨m, rfl⟩ | rfl <;> exact hsame rfl rfl
  · simp only [own] at ho
    split at ho <;> cases ho
    · simp [Determ.setReady, Entries.setStatus] at hj
    · cases hj'

end State

/-! ## The machine -/

/-- Where a thread is in `sig_wait`: before the real `sigwait`, or in it. -/
inductive SigPhase where
  | outside
  | entering
  | asleep
  deriving DecidableEq, Repr

/-- The scheduler machine and the threads in `sig_wait`. A thread in the real `sigwait` takes no step
of the machine. -/
structure SigState where
  base : State
  mode : Tid → SigPhase

/-- A step of the machine, and the three parts of `sig_wait`; the real `sigwait` succeeds or returns an
error code. -/
inductive SigLabel where
  | step (a : Label)
  | call (t : Tid)
  | leave (t : Tid)
  | back (t : Tid) (ok : Bool)
  deriving DecidableEq, Repr

/-- `xrun::sig_wait` up to `determ::sig_wait`. -/
def Local.sigWait : List Instr := Local.waitToken ++ [.atomicEnd]

namespace State

def idx (s : State) (t : Tid) : ℕ := (s.locals t).threadIndex

def setLocal (s : State) (t : Tid) (l : Local) : State :=
  { s with locals := Function.update s.locals t l }

/-- The first part of `determ::sig_wait`. -/
def sigLeave (s : State) (t : Tid) : State :=
  { s.setLocal t { s.locals t with live := false, hasToken := false } with
    determ := s.determ.sigLeave (s.idx t) }

/-- The return from the real `sigwait`, the rest of `determ::sig_wait` and of `xrun::sig_wait`. -/
def sigBack (s : State) (t : Tid) (ok : Bool) : State :=
  { s.setLocal t { s.locals t with live := true, pending := if ok then [.atomicBegin] else [] } with
    determ := if ok then s.determ.sigReturn (s.idx t) else s.determ }

end State

namespace SigState

def start (s : State) : SigState := ⟨s, fun _ => .outside⟩

/-- A thread calls nothing else inside `sig_wait`, and the pid of a thread in it is not given away. -/
def allows (S : SigState) : Label → Bool
  | .call t _ => S.mode t = .outside
  | .run t =>
      match (S.base.locals t).pending.head? with
      | some (.forkSpawn v) => S.mode v ≠ .asleep
      | _ => true

/-- A thread that is killed is not in `sig_wait` any more. -/
def modeAfter (S : SigState) : Label → Tid → SigPhase
  | .call _ _ => S.mode
  | .run t =>
      match (S.base.locals t).pending.head? with
      | some (.kill v) => Function.update S.mode v .outside
      | _ => S.mode

def step (S : SigState) : SigLabel → Option SigState
  | .step a => if S.allows a then (S.base.step a).map fun s => ⟨s, S.modeAfter a⟩ else none
  | .call t =>
      if (S.base.locals t).live ∧ (S.base.locals t).pending = [] ∧ S.mode t = .outside then
        some ⟨S.base.setLocal t ((S.base.locals t).goto Local.sigWait),
          Function.update S.mode t .entering⟩
      else none
  | .leave t =>
      if (S.base.locals t).live ∧ (S.base.locals t).pending = [] ∧ S.mode t = .entering then
        some ⟨S.base.sigLeave t, Function.update S.mode t .asleep⟩
      else none
  | .back t ok =>
      if S.mode t = .asleep then some ⟨S.base.sigBack t ok, Function.update S.mode t .outside⟩
      else none

end SigState

/-! ## The invariant -/

namespace State

variable {s : State} {t v : Tid} {rest : List Instr} {i : Instr} {d : Determ} {l : Local}
  {ls ls' : Queue → List ℕ}

/-- A thread in the real `sigwait`: its entry is in no queue, and nobody changes it. -/
structure Asleep (s : State) (ls : Queue → List ℕ) (v : Tid) : Prop where
  still : (s.locals v).live = false
  idle : (s.locals v).pending = []
  owner : (s.determ.entries (s.idx v)).tid = v
  index : (s.determ.entries (s.idx v)).threadindex = s.idx v
  status : (s.determ.entries (s.idx v)).status = .ready ∨
    (s.determ.entries (s.idx v)).status = .barrWaiting
  out : ∀ q, s.idx v ∉ ls q

theorem Asleep.others (hv : Asleep s ls v) (hf : i ≠ .forkSpawn v) :
    (s.others t i v).live = false ∧ (s.others t i v).pending = [] ∧
      (s.others t i v).threadIndex = s.idx v := by
  rcases s.others_cases t i v with ho | ⟨-, rest, hp⟩ | ⟨hi, -⟩ | ⟨-, ho⟩
  · rw [ho]
    exact ⟨hv.still, hv.idle, rfl⟩
  · exact absurd (hv.idle.symm.trans hp) nofun
  · exact absurd hi hf
  · rw [ho]
    exact ⟨rfl, hv.idle, rfl⟩

/-- A step of `t` that leaves the entry of the sleeping thread alone. -/
theorem Asleep.move (hv : Asleep s ls v) (hf : i ≠ .forkSpawn v) (hvt : v ≠ t)
    (hid : (d.entries (s.idx v)).ident = (s.determ.entries (s.idx v)).ident)
    (hrole : (d.entries (s.idx v)).role = (s.determ.entries (s.idx v)).role)
    (hout : ∀ q, s.idx v ∉ ls' q) :
    Asleep ⟨d, Function.update (s.others t i) t l, s.created i⟩ ls' v := by
  obtain ⟨hl, hp, hx⟩ := hv.others (t := t) hf
  have hloc : Function.update (s.others t i) t l v = s.others t i v := Function.update_of_ne hvt ..
  have hidx : State.idx ⟨d, Function.update (s.others t i) t l, s.created i⟩ v = s.idx v := by
    rw [State.idx]
    dsimp only
    rw [hloc, hx]
  exact
    { still := by dsimp only; rw [hloc, hl]
      idle := by dsimp only; rw [hloc, hp]
      owner := by rw [hidx]; exact (ident_tid hid).trans hv.owner
      index := by rw [hidx]; exact (ident_threadindex hid).trans hv.index
      status := by rw [hidx]; dsimp only; rw [role_status hrole]; exact hv.status
      out := by rw [hidx]; exact hout }

/-- The steps of the other threads leave a sleeping thread alone. -/
theorem Asleep.ran (hv : Asleep s ls v) (h : Placed s ls) (hl : (s.locals t).live = true)
    (hp : (s.locals t).pending = i :: rest) (hreg : s.Regular t i)
    (ho : s.own t rest i = some (d, l)) (hf : i ≠ .forkSpawn v)
    (hw : Placed ⟨d, Function.update (s.others t i) t l, s.created i⟩ ls')
    (hs : Determ.Shift l.threadIndex s.determ ls d ls') :
    Asleep ⟨d, Function.update (s.others t i) t l, s.created i⟩ ls' v := by
  have hvt : v ≠ t := by
    rintro rfl
    exact absurd (hv.still.symm.trans hl) nofun
  by_cases hx : i = .procExit
  · subst hx
    cases ho
    exact hv.move hf hvt rfl rfl fun q hm =>
      hv.out q ((hw.queued.lists q).mem_of (h.queued.lists q) hm)
  have hkept : s.idx v ≠ l.threadIndex → (d.entries (s.idx v)).ident = (s.determ.entries (s.idx v)).ident →
      Asleep ⟨d, Function.update (s.others t i) t l, s.created i⟩ ls' v := by
    intro hne hid
    refine hv.move hf hvt hid ?_ fun q hm => ?_
    · exact (hs.role _ hne).resolve_right fun ⟨⟨_, hc⟩, _⟩ => hv.out _ hc
    · rcases hs.source q _ hm hne with ⟨q', hq'⟩ | hj
      · exact hv.out q' hq'
      · rcases hv.status with hst | hst <;> exact absurd (hst.symm.trans hj) nofun
  by_cases hc : ∃ p, i = .childRegister p
  · obtain ⟨p, rfl⟩ := hc
    obtain ⟨rfl, rfl⟩ : s.determ.childRegister (s.locals t) t p rest = (d, l) := Option.some.inj ho
    have hne : s.idx v ≠ s.determ.threadIndex := by
      intro he
      rcases hreg.2.1.1 with hst | ⟨hst, -⟩ <;> rw [← he] at hst <;>
        rcases hv.status with hst' | hst' <;> exact absurd (hst'.symm.trans hst) nofun
    refine hkept hne ?_
    exact (Determ.registerThread_ident ..).trans (if_neg hne)
  · have hc' : ∀ p, i ≠ .childRegister p := fun p hip => hc ⟨p, hip⟩
    obtain ⟨hid, hidx, -⟩ := own_entries ho hc'
    have hr : (s.locals t).enrolled := Placed.enrolled_of hp hc' hx
    refine hkept (fun he => hvt ?_) (hid _)
    rw [hidx] at he
    rw [← hv.owner, he, h.owner t hl hr]

/-- The threads keep to their places, with the statuses that belong there. -/
structure Orderly (s : State) (ls : Queue → List ℕ) : Prop extends Placed s ls where
  busy : Busy s
  apart : Apart s
  leads : ∀ u, (s.locals u).live = true → Leads (s.locals u).pending

namespace Orderly

theorem called {op : Op} (h : Orderly s ls) (hl : (s.locals t).live = true)
    (hp : (s.locals t).pending = []) : Orderly (s.called t op) ls where
  toPlaced := h.toPlaced.called hl hp
  busy := h.busy.called hl hp
  apart := h.apart.called hl hp
  leads u hu := by
    rw [called_locals] at hu ⊢
    split
    · exact program_leads _ op
    · rename_i hut
      rw [if_neg hut] at hu
      exact h.leads u hu

theorem ran (h : Orderly s ls) (hl : (s.locals t).live = true)
    (hp : (s.locals t).pending = i :: rest) (hreg : s.Regular t i)
    (ho : s.own t rest i = some (d, l)) :
    ∃ ls', Orderly ⟨d, Function.update (s.others t i) t l, s.created i⟩ ls' ∧
      Determ.Shift l.threadIndex s.determ ls d ls' := by
  obtain ⟨ls', hw, hs⟩ := h.toPlaced.ran hl hp hreg ho
  have hlead : Leads (i :: rest) := hp ▸ h.leads t hl
  refine ⟨ls', ⟨hw, h.busy.ran h.toPlaced hl hp hreg ho,
    h.apart.ran h.toPlaced hl hp hlead hreg ho, fun u hu => ?_⟩, hs⟩
  dsimp only at hu ⊢
  by_cases hut : u = t
  · subst hut
    rw [Function.update_self]
    by_cases hx : i = .procExit
    · subst hx
      cases ho
      trivial
    · obtain ⟨js, hjs, hlp⟩ := own_pending ho hx
      rw [hlp]
      exact hjs.leads hlead
  · rw [Function.update_of_ne hut] at hu ⊢
    rcases h.toPlaced.other hu with ⟨hp', -, hlu⟩ | ⟨p, hp'⟩ <;> rw [hp']
    · exact h.leads u hlu
    · simp [Local.childStart, Leads]

/-- A thread changes to other instructions in the token queue, or stops. -/
theorem alter (h : Orderly s ls) (t : Tid) (l : Local) (d : Determ) (hq : d.Queued ls')
    (hs : Determ.Shift (s.idx t) s.determ ls d ls') (hx : l.threadIndex = s.idx t)
    (ht : (s.determ.entries (s.idx t)).tid = t)
    (hid : ∀ j, (d.entries j).ident = (s.determ.entries j).ident)
    (hrole : ∀ j, (d.entries j).role = (s.determ.entries j).role)
    (hown : l.live = true → s.idx t ∈ ls' .active ∧ phase l.pending = .active ∧ Sequel l.pending ∧
      Leads l.pending ∧ (s.determ.entries (s.idx t)).status ≠ .joining) :
    Orderly ⟨d, Function.update s.locals t l, s.procs⟩ ls' := by
  have hne : ∀ u, u ≠ t → (s.locals u).live = true → (s.locals u).enrolled →
      (s.locals u).threadIndex ≠ s.idx t := by
    intro u hut hu hur he
    exact hut ((h.owner u hu hur).symm.trans (he ▸ ht))
  have hav : ∀ x Q, s.Avoids x Q → (l.live = true → Q (phase l.pending) →
      (s.determ.entries (s.idx t)).status ≠ x) →
      State.Avoids ⟨d, Function.update s.locals t l, s.procs⟩ x Q := by
    intro x Q hb hself u hu hur hph
    dsimp only at hu hur hph ⊢
    rw [role_status (hrole _)]
    by_cases hut : u = t
    · subst hut
      rw [Function.update_self] at hu hur hph ⊢
      rw [hx]
      exact hself hu hph
    · rw [Function.update_of_ne hut] at hu hur hph ⊢
      exact hb u hu hur hph
  refine ⟨⟨hq, fun u hu hur => ?_, fun u hu => ?_, fun u hu => ?_⟩, hav _ _ h.busy fun hl _ =>
    (hown hl).2.2.2.2, hav _ _ h.apart fun hl hph => ?_, fun u hu => ?_⟩
  · rw [ident_tid (hid _)]
    dsimp only at hu hur ⊢
    by_cases hut : u = t
    · subst hut
      rw [Function.update_self] at hu hur ⊢
      rw [hx]
      exact ht
    · rw [Function.update_of_ne hut] at hu hur ⊢
      exact h.owner u hu hur
  · dsimp only at hu ⊢
    by_cases hut : u = t
    · subst hut
      rw [Function.update_self] at hu ⊢
      rw [hx, (hown hu).2.1]
      exact (hown hu).1
    · rw [Function.update_of_ne hut] at hu ⊢
      by_cases hr : (s.locals u).enrolled
      · exact At.shift h.queued hs (hne u hut hu hr) (h.place u hu)
      · rw [Local.enrolled, not_and_or, not_not, not_not] at hr
        rcases hr with hr | hr <;> rw [hr] <;> trivial
  · dsimp only at hu ⊢
    by_cases hut : u = t
    · subst hut
      rw [Function.update_self] at hu ⊢
      exact (hown hu).2.2.1
    · rw [Function.update_of_ne hut] at hu ⊢
      exact h.sequel u hu
  · rw [(hown hl).2.1] at hph
    rcases hph with hph | hph <;> cases hph
  · dsimp only at hu ⊢
    by_cases hut : u = t
    · subst hut
      rw [Function.update_self] at hu ⊢
      exact (hown hu).2.2.2.1
    · rw [Function.update_of_ne hut] at hu ⊢
      exact h.leads u hu

/-- A thread that is idle is in the token queue and no joiner. -/
theorem idle (h : Orderly s ls) (hl : (s.locals t).live = true) (hp : (s.locals t).pending = []) :
    s.idx t ∈ ls .active ∧ (s.determ.entries (s.idx t)).tid = t ∧
      ((s.determ.entries (s.idx t)).status = .ready ∨
        (s.determ.entries (s.idx t)).status = .barrWaiting) := by
  have hat := h.place t hl
  rw [hp] at hat
  have hr : (s.locals t).enrolled := by
    rw [Local.enrolled, hp]
    exact ⟨by rintro ⟨⟩, by rintro ⟨⟩⟩
  have hf := h.queued.fits _ _ (show s.idx t ∈ ls .active from hat)
  have hj := h.busy t hl hr (by rw [hp]; rintro g ⟨⟩)
  refine ⟨hat, h.owner t hl hr, ?_⟩
  obtain ⟨he, hc⟩ := hf
  change (s.determ.entries (s.idx t)).status ≠ _ at he hc
  change (s.determ.entries (s.idx t)).status ≠ _ at hj
  cases hst : (s.determ.entries (s.idx t)).status with
  | ready => exact .inl rfl
  | barrWaiting => exact .inr rfl
  | condWaiting => exact absurd hst hc
  | exit => exact absurd hst he
  | joining => exact absurd hst hj

/-- A thread is in the list of a barrier if and only if it stands at the barrier and is not in the token
queue. -/
theorem barrier_iff (h : Orderly s ls) (hl : (s.locals t).live = true) (hr : (s.locals t).enrolled)
    (b : Obj) : s.idx t ∈ ls (.barrier b) ↔
      (phase (s.locals t).pending).atBarrier b ∧ s.idx t ∉ ls .active := by
  have hat := h.place t hl
  change At s.determ ls (s.idx t) _ at hat
  constructor
  · intro hm
    have hna : s.idx t ∉ ls .active := fun ha => absurd (h.queued.linking.disjoint hm ha) nofun
    refine ⟨?_, hna⟩
    have hst : (s.determ.entries (s.idx t)).status = .barrWaiting := h.queued.fits _ _ hm
    cases hph : phase (s.locals t).pending with
    | starting => exact absurd hph hr.1
    | gone => exact absurd hph hr.2
    | active => exact absurd (by rwa [hph] at hat) hna
    | condBlock => exact h.apart t hl hr (.inl hph) hst
    | joinToken => exact h.apart t hl hr (.inr hph) hst
    | joinBlock g =>
        rw [hph] at hat
        exact absurd (hst.symm.trans hat.1) nofun
    | barrier b' =>
        rw [hph] at hat
        exact Queue.barrier.inj (h.queued.linking.disjoint (hat.resolve_left hna) hm)
    | barrierBlock b' g =>
        rw [hph] at hat
        exact Queue.barrier.inj (h.queued.linking.disjoint (hat.resolve_left hna).1 hm)
  · rintro ⟨hb, hna⟩
    cases hph : phase (s.locals t).pending with
    | barrier b' =>
        rw [hph] at hat hb
        obtain rfl : b' = b := hb
        exact hat.resolve_left hna
    | barrierBlock b' g =>
        rw [hph] at hat hb
        obtain rfl : b' = b := hb
        exact (hat.resolve_left hna).1
    | _ =>
        rw [hph] at hb
        exact hb.elim

end Orderly

/-- The parts of `sig_wait` leave the other sleeping threads alone. -/
theorem Asleep.alter (hv : Asleep s ls v) (t : Tid) (l : Local) (d : Determ) (hvt : v ≠ t)
    (ht : (s.determ.entries (s.idx t)).tid = t)
    (hs : Determ.Shift (s.idx t) s.determ ls d ls')
    (hid : ∀ j, (d.entries j).ident = (s.determ.entries j).ident)
    (hrole : ∀ j, (d.entries j).role = (s.determ.entries j).role) :
    Asleep ⟨d, Function.update s.locals t l, s.procs⟩ ls' v := by
  have hne : s.idx v ≠ s.idx t := fun he => hvt (hv.owner.symm.trans (he ▸ ht))
  have hidx : State.idx ⟨d, Function.update s.locals t l, s.procs⟩ v = s.idx v := by
    simp [State.idx, hvt]
  refine ⟨?_, ?_, ?_, ?_, ?_, fun q hm => ?_⟩
  · simpa [hvt] using hv.still
  · simpa [hvt] using hv.idle
  · rw [hidx]
    exact (ident_tid (hid _)).trans hv.owner
  · rw [hidx]
    exact (ident_threadindex (hid _)).trans hv.index
  · rw [hidx]
    dsimp only
    rw [role_status (hrole _)]
    exact hv.status
  · rw [hidx] at hm
    rcases hs.source q _ hm hne with ⟨q', hq'⟩ | hj
    · exact hv.out q' hq'
    · rcases hv.status with hst | hst <;> exact absurd (hst.symm.trans hj) nofun

end State

namespace SigState

variable {S : SigState} {ls : Queue → List ℕ} {t : Tid}

/-- The threads that can run are in their places, the threads in the real `sigwait` are in no queue. -/
structure Resting (S : SigState) (ls : Queue → List ℕ) : Prop extends State.Orderly S.base ls where
  asleep : ∀ v, S.mode v = .asleep → S.base.Asleep ls v

namespace Resting

/-- A step of the machine. -/
theorem step {s : State} {a : Label} (h : Resting S ls) (hal : S.allows a = true)
    (hreg : S.base.Next State.Regular a) (hs : S.base.step a = some s) :
    ∃ ls', Resting ⟨s, S.modeAfter a⟩ ls' := by
  cases a with
  | call t op =>
      obtain ⟨hl, hp, rfl⟩ := State.step_call hs
      refine ⟨ls, h.toOrderly.called hl hp, fun v hv => ?_⟩
      have hvt : v ≠ t := by
        rintro rfl
        exact absurd (hv.symm.trans (of_decide_eq_true hal)) nofun
      obtain ⟨h₁, h₂, h₃, h₄, h₅, h₆⟩ := h.asleep v hv
      simp only [State.idx] at h₃ h₄ h₅ h₆
      refine ⟨?_, ?_, ?_, ?_, ?_, ?_⟩ <;>
        simpa only [State.idx, State.called_locals, if_neg hvt, State.called_determ]
  | run t =>
      obtain ⟨i, rest, d, l, hl, hp, ho, rfl⟩ := State.step_run hs
      have hreg' : S.base.Regular t i := hreg i (by simp [hp])
      obtain ⟨ls', hw, hsh⟩ := h.toOrderly.ran hl hp hreg' ho
      refine ⟨ls', hw, fun v hv => ?_⟩
      have hv' : S.mode v = .asleep := by
        by_cases hk : ∃ u, i = .kill u
        · obtain ⟨u, rfl⟩ := hk
          simp only [modeAfter, hp, List.head?_cons] at hv
          by_cases hvu : v = u
          · subst hvu
            simp at hv
          · rwa [Function.update_of_ne hvu] at hv
        · simp only [modeAfter, hp, List.head?_cons] at hv
          cases i with
          | kill u => exact absurd ⟨u, rfl⟩ hk
          | _ => exact hv
      refine (h.asleep v hv').ran h.toPlaced hl hp hreg' ho ?_ hw.toPlaced hsh
      rintro rfl
      simp only [allows, hp, List.head?_cons] at hal
      exact absurd hv' (of_decide_eq_true hal)

/-- The call of `sig_wait`. -/
theorem call (h : Resting S ls) (hl : (S.base.locals t).live = true)
    (hp : (S.base.locals t).pending = []) (hm : S.mode t = .outside) :
    Resting ⟨S.base.setLocal t ((S.base.locals t).goto Local.sigWait),
      Function.update S.mode t .entering⟩ ls := by
  obtain ⟨hin, htid, hst⟩ := h.toOrderly.idle hl hp
  have hsh : Determ.Shift (S.base.idx t) S.base.determ ls S.base.determ ls :=
    h.queued.frame_shift (.refl _)
  refine ⟨h.toOrderly.alter t _ _ h.queued hsh rfl htid (fun _ => rfl) (fun _ => rfl) fun _ =>
    ⟨hin, rfl, ?_, ?_, ?_⟩, fun v hv => ?_⟩
  · simp [Local.sigWait, Local.waitToken, Local.waitFence, Sequel, Follows]
  · simp [Local.sigWait, Local.waitToken, Local.waitFence, Leads]
  · rcases hst with hst | hst <;> rw [hst] <;> rintro ⟨⟩
  · dsimp only at hv
    have hvt : v ≠ t := by
      rintro rfl
      simp at hv
    rw [Function.update_of_ne hvt] at hv
    exact (h.asleep v hv).alter t _ _ hvt htid hsh (fun _ => rfl) fun _ => rfl

/-- The caller leaves the token queue. -/
theorem leave (h : Resting S ls) (hl : (S.base.locals t).live = true)
    (hp : (S.base.locals t).pending = []) :
    ∃ ls', Resting ⟨S.base.sigLeave t, Function.update S.mode t .asleep⟩ ls' := by
  obtain ⟨hin, htid, hst⟩ := h.toOrderly.idle hl hp
  obtain ⟨ls', hq, hsh, hout⟩ := h.queued.sigLeave hin
  have hid := Determ.sigLeave_ident S.base.determ (S.base.idx t)
  have hrole := Determ.sigLeave_role S.base.determ (S.base.idx t)
  have hidx : (S.base.sigLeave t).idx t = S.base.idx t := by
    simp [State.sigLeave, State.setLocal, State.idx]
  refine ⟨ls', h.toOrderly.alter t _ _ hq hsh rfl htid hid hrole nofun, fun v hv => ?_⟩
  by_cases hvt : v = t
  · subst hvt
    refine ⟨by simp [State.sigLeave, State.setLocal], by simpa [State.sigLeave, State.setLocal] using hp,
      ?_, ?_, ?_, ?_⟩ <;> dsimp only <;> rw [hidx]
    · exact (ident_tid (hid _)).trans htid
    · exact (ident_threadindex (hid _)).trans (h.queued.index _ _ hin)
    · exact (role_status (hrole _)).symm ▸ hst
    · exact hout
  · dsimp only at hv
    rw [Function.update_of_ne hvt] at hv
    exact (h.asleep v hv).alter t _ _ hvt htid hsh hid hrole

/-- The caller comes back to a token queue that is not empty. -/
theorem back (h : Resting S ls) (hm : S.mode t = .asleep) (ha : S.base.determ.activelist ≠ none) :
    ∃ ls', Resting ⟨S.base.sigBack t true, Function.update S.mode t .outside⟩ ls' ∧
      S.base.idx t ∈ ls' .active := by
  obtain ⟨-, -, htid, hix, hst, hout⟩ := h.asleep t hm
  have hne : ls .active ≠ [] := fun hn => ha (h.queued.head_none (q := .active) |>.mpr hn)
  obtain ⟨ls', hq, hsh, hin⟩ := h.queued.sigReturn hne hout hst hix
  have hid := Determ.sigReturn_ident S.base.determ (S.base.idx t)
  have hrole := Determ.sigReturn_role S.base.determ (S.base.idx t)
  refine ⟨ls', ⟨h.toOrderly.alter t _ _ hq hsh rfl htid hid hrole fun _ =>
    ⟨hin, rfl, by simp [Sequel, Follows], by simp [Leads], ?_⟩, fun v hv => ?_⟩, hin⟩
  · rcases hst with hst | hst <;> rw [hst] <;> rintro ⟨⟩
  · dsimp only at hv
    have hvt : v ≠ t := by
      rintro rfl
      simp at hv
    rw [Function.update_of_ne hvt] at hv
    exact (h.asleep v hv).alter t _ _ hvt htid hsh hid hrole

end Resting

end SigState

theorem State.Opening.orderly {s : State} (h : s.Opening) : ∃ ls, s.Orderly ls := by
  have hidle : ∀ u, (s.locals u).pending = [] := by
    obtain ⟨c, rfl⟩ | ⟨n, c, -, rfl⟩ := h <;> exact fun _ => rfl
  obtain ⟨ls, hj⟩ := h.joined
  refine ⟨ls, hj.toPlaced, hj.busy, fun u _ _ hph => ?_, fun u _ => ?_⟩ <;> rw [hidle u] at *
  · rcases hph with hph | hph <;> cases hph
  · trivial

/-! ## The law -/

/-- What `sig_wait` has to leave when it returns to `t`: the caller and the token are in the active
list, and the list of a condition variable or a barrier holds the threads that wait there. -/
structure State.Settled (s : State) (t : Tid) (ls : Queue → List ℕ) : Prop where
  lists : ∀ q, s.determ.Lists q (ls q)
  active : s.determ.activelist ≠ none
  caller : s.idx t ∈ ls .active
  token : s.determ.tokenpos ∈ ls .active
  waiting : ∀ c i, i ∈ ls (.cond c) ↔
    (s.determ.entries i).status = .condWaiting ∧ (s.determ.entries i).cond = some c
  blocked : ∀ b, ∀ i ∈ ls (.barrier b), (s.determ.entries i).status = .barrWaiting
  barrier : ∀ b u, (s.locals u).live = true → (s.locals u).enrolled →
    (s.idx u ∈ ls (.barrier b) ↔
      (phase (s.locals u).pending).atBarrier b ∧ s.idx u ∉ ls .active)

theorem State.Orderly.settled {s : State} {t : Tid} {ls : Queue → List ℕ} (h : s.Orderly ls)
    (ht : s.idx t ∈ ls .active) : s.Settled t ls where
  lists := h.queued.lists
  active hn := List.ne_nil_of_mem ht (h.queued.head_none (q := .active) |>.mp hn)
  caller := ht
  token := h.queued.token (List.ne_nil_of_mem ht)
  waiting c i := ⟨h.queued.fits _ i, fun ⟨hst, hc⟩ => h.queued.waiting i c hst hc⟩
  blocked _ i hi := h.queued.fits _ i hi
  barrier b _ hu hr := h.barrier_iff hu hr b

namespace SigState

/-- The real `sigwait` succeeds, and some thread is in the active list when it returns. -/
def Returns (S : SigState) : SigLabel → Prop
  | .step a => S.base.Next State.Regular a
  | .back _ ok => ok = true ∧ S.base.determ.activelist ≠ none
  | _ => True

/-- Threads in `sig_wait` do not disturb the others. -/
theorem resting_run {s : State} {W : SigState} {as : List SigLabel} (hs : s.Opening)
    (hr : Run SigState.step Returns (start s) as W) : ∃ ls, Resting W ls := by
  have keep : ∀ S a W, (∃ ls, Resting S ls) → Returns S a → SigState.step S a = some W →
      ∃ ls, Resting W ls := by
    rintro S a W ⟨ls, h⟩ hg hstep
    cases a with
    | step a =>
        simp only [SigState.step, Option.ite_none_right_eq_some, Option.map_eq_some_iff] at hstep
        obtain ⟨hal, s, hs, rfl⟩ := hstep
        exact h.step hal hg hs
    | call t =>
        simp only [SigState.step, Option.ite_none_right_eq_some, Option.some.injEq] at hstep
        obtain ⟨⟨hl, hp, hm⟩, rfl⟩ := hstep
        exact ⟨ls, h.call hl hp hm⟩
    | leave t =>
        simp only [SigState.step, Option.ite_none_right_eq_some, Option.some.injEq] at hstep
        obtain ⟨⟨hl, hp, -⟩, rfl⟩ := hstep
        exact h.leave hl hp
    | back t ok =>
        simp only [SigState.step, Option.ite_none_right_eq_some, Option.some.injEq] at hstep
        obtain ⟨hm, rfl⟩ := hstep
        obtain ⟨rfl, ha⟩ := hg
        obtain ⟨ls', hw, -⟩ := h.back hm ha
        exact ⟨ls', hw⟩
  obtain ⟨ls, ho⟩ := hs.orderly
  exact Run.invariant keep hr ⟨ls, ho, fun v hv => by cases hv⟩

/-- In a run in which every `sig_wait` so far returned well, the next one leaves the scheduler in order
if and only if the real `sigwait` succeeds and the active list is not empty. -/
theorem sig_wait_settles_iff {s : State} {W : SigState} {as : List SigLabel} (hs : s.Opening)
    (hr : Run SigState.step Returns (start s) as W) (t : Tid) :
    (∀ W', W.step (.leave t) = some W' →
      W'.base.determ.maxthreads = dec W.base.determ.maxthreads) ∧
    ∀ ok W', W.step (.back t ok) = some W' →
      ((∃ ls, W'.base.Settled t ls) ∧
          W'.base.determ.maxthreads = W.base.determ.maxthreads + 1 ↔
        ok = true ∧ W.base.determ.activelist ≠ none) := by
  constructor
  · intro W' hstep
    simp only [SigState.step, Option.ite_none_right_eq_some, Option.some.injEq] at hstep
    obtain ⟨-, rfl⟩ := hstep
    exact Determ.sigLeave_maxthreads ..
  · intro ok W' hstep
    simp only [SigState.step, Option.ite_none_right_eq_some, Option.some.injEq] at hstep
    obtain ⟨hm, rfl⟩ := hstep
    obtain ⟨ls, h⟩ := resting_run hs hr
    have hidx : (W.base.sigBack t ok).idx t = W.base.idx t := by
      simp [State.sigBack, State.setLocal, State.idx]
    constructor
    · rintro ⟨⟨L, hL⟩, -⟩
      have hcaller := hL.caller
      rw [hidx] at hcaller
      cases ok with
      | false =>
          exact absurd ((hL.lists .active).mem_of (h.queued.lists .active) hcaller)
            ((h.asleep t hm).out .active)
      | true => exact ⟨rfl, hL.active⟩
    · rintro ⟨rfl, ha⟩
      obtain ⟨ls', hw, hin⟩ := h.back hm ha
      exact ⟨⟨ls', hw.toOrderly.settled (by dsimp only; rw [hidx]; exact hin)⟩, rfl⟩

/-- `Returns` as a test. -/
def returns (S : SigState) : SigLabel → Bool
  | .step a => S.base.plain a
  | .back _ ok => ok && S.base.determ.activelist.isSome
  | _ => true

theorem returns_of {S : SigState} {a : SigLabel} (h : S.returns a = true) : S.Returns a := by
  cases a with
  | step a => exact State.regular_of_plain h
  | back t ok =>
      simp only [returns, Bool.and_eq_true] at h
      exact ⟨h.1, Option.isSome_iff_ne_none.mp h.2⟩
  | _ => trivial

/-- Thread 1 of two threads waits for a signal, and comes back behind thread 2. -/
theorem sig_wait_settles_iff_two : ∃ W W', Run SigState.step Returns (start (State.ring 2 4))
      (.call 1 :: .step (.run 1) :: .step (.call 2 .threadDeregister) :: .step (.run 2) ::
        (Label.runs 1 4).map .step ++ [.leave 1]) W ∧
    W.step (.back 1 true) = some W' ∧ (∃ ls, W'.base.Settled 1 ls) ∧
      W'.base.determ.maxthreads = W.base.determ.maxthreads + 1 := by
  have hrun : (execGuarded SigState.step (fun S a => S.returns a = true) (start (State.ring 2 4))
      (.call 1 :: .step (.run 1) :: .step (.call 2 .threadDeregister) :: .step (.run 2) ::
        (Label.runs 1 4).map .step ++ [.leave 1])).any
      (fun W => decide (W.mode 1 = .asleep ∧ W.base.determ.activelist ≠ none)) = true := by
    decide +kernel
  obtain ⟨W, hr, hm, ha⟩ := exists_run_of_any hrun
  have hr' := hr.mono fun _ _ => returns_of
  have hstep : W.step (.back 1 true) = some ⟨W.base.sigBack 1 true, _⟩ := if_pos hm
  obtain ⟨-, hback⟩ := sig_wait_settles_iff (.inr ⟨2, 4, Nat.two_pos, rfl⟩) hr' 1
  obtain ⟨hL, hmax⟩ := (hback true _ hstep).mpr ⟨rfl, ha⟩
  exact ⟨W, _, hr', hstep, hL, hmax⟩

/-- Whatever the real `sigwait` returns: if main is the only thread, the active list stays empty after
a success; if the real `sigwait` fails, main does not come back to the list of thread 2. -/
theorem sig_wait_unsettled :
    ¬ ∃ ok : Bool, ∀ (n c : ℕ) (as : List SigLabel) (W W' : SigState), 0 < n →
      exec SigState.step (start (State.ring n c)) as = some W →
      W.step (.back 1 ok) = some W' → ∃ ls, W'.base.Settled 1 ls := by
  rintro ⟨ok, h⟩
  cases ok with
  | true =>
      have hrun : ((exec SigState.step (start (State.ring 1 4))
          (.call 1 :: (Label.runs 1 3).map .step ++ [.leave 1])).bind (·.step (.back 1 true))).any
          (fun W => decide (W.base.determ.activelist = none)) = true := by
        decide +kernel
      rw [Option.any_eq_true] at hrun
      obtain ⟨W', hW', ha⟩ := hrun
      obtain ⟨W, hW, hback⟩ := Option.bind_eq_some_iff.mp hW'
      obtain ⟨ls, hs⟩ := h 1 4 _ W W' Nat.one_pos hW hback
      exact hs.active (of_decide_eq_true ha)
  | false =>
      have hrun : ((exec SigState.step (start (State.ring 2 4))
          (.call 1 :: .step (.run 1) :: .step (.call 2 .threadDeregister) :: .step (.run 2) ::
            (Label.runs 1 4).map .step ++ [.leave 1])).bind (·.step (.back 1 false))).any
          (fun W => decide (W.base.idx 1 = 0 ∧ W.base.determ.activelist = some 1 ∧
            (W.base.determ.entries 1).next = 1 ∧ (W.base.determ.entries 1).prev = 1)) = true := by
        decide +kernel
      rw [Option.any_eq_true] at hrun
      obtain ⟨W', hW', ha⟩ := hrun
      obtain ⟨W, hW, hback⟩ := Option.bind_eq_some_iff.mp hW'
      obtain ⟨hidx, hact, hn, hp⟩ := of_decide_eq_true ha
      obtain ⟨ls, hs⟩ := h 2 4 _ W W' Nat.two_pos hW hback
      have hin := (hs.lists .active).mem_of (Determ.lists_singleton hn hp hact) hs.caller
      rw [hidx] at hin
      simp at hin

end SigState

end Dthreads.Scheduler
