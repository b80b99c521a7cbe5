import Dthreads.Scheduler.Token

/-! # Commits are serialised -/

namespace Dthreads.Scheduler

open Transition

/-- The token is where the thread that has it believes it to be, and every thread is disciplined. -/
structure Serial (s : State) : Prop where
  procs : ∀ t, (s.locals t).live = true → t ∈ s.procs
  linked : ∃ R, s.Linked R
  /-- A registered thread is the one of its entry. -/
  entry : ∀ t, (s.locals t).live = true → (∀ p, (s.locals t).pending.head? ≠ some (.childRegister p)) →
    (s.determ.entries (s.locals t).threadIndex).tid = t
  token : ∀ t, (s.locals t).live = true → (s.locals t).hasToken = true → s.determ.holder = t
  safe : ∀ t, (s.locals t).live = true →
    Safe (s.alone t) (s.locals t).hasToken (s.locals t).tokenHolding (s.locals t).fenceEnabled
      (s.locals t).pending

/-- The instruction is one that a thread runs only with the token, or alone. -/
def serialInstr : Instr → Bool
  | .atomicEnd | .finalcommit _ | .kill _ | .forkSpawn _ | .waitChildRegistered => true
  | _ => false

namespace Serial

variable {s s' : State} {t u : Tid} {i : Instr} {rest : List Instr} {d : Determ} {l : Local}

theorem hasToken_of_still (h : Serial s) (hl : (s.locals t).live = true)
    (hs : (s.locals t).still = true) : (s.locals t).hasToken = false := by
  have hsafe := h.safe t hl
  rcases Local.still_cases hs with ⟨hb, -⟩ | hp
  · rcases Local.newborn_cases hb with ⟨p, r, hp⟩ | ⟨r, hp⟩ | ⟨r, hp⟩ <;> rw [hp] at hsafe <;>
      exact hsafe.1
  · rw [hp] at hsafe
    exact hsafe

/-- If the token is at the entry of a registered thread, it is the thread of this entry. -/
theorem holder_of_index (h : Serial s) (hl : (s.locals t).live = true)
    (hr : ∀ p, (s.locals t).pending.head? ≠ some (.childRegister p))
    (hi : (s.determ.entries s.determ.tokenpos).threadindex = (s.locals t).threadIndex) :
    s.determ.holder = t := by
  obtain ⟨R, hR⟩ := h.linked
  have hpos : s.determ.tokenpos = (s.locals t).threadIndex :=
    (hR.index _ hR.points.token).symm.trans hi
  rw [Determ.holder, hpos]
  exact h.entry t hl hr

theorem entitled (h : Serial s) (hl : (s.locals t).live = true)
    (hp : (s.locals t).pending = i :: rest) (hi : serialInstr i = true) :
    ((s.locals t).hasToken = true ∨ s.alone t) ∧ (s.locals t).still = false := by
  have hsafe := h.safe t hl
  rw [hp] at hsafe
  have hstill : ∀ {j}, (s.locals t).pending = j :: rest → serialInstr j = true →
      (s.locals t).still = false := by
    intro j hj hs
    cases j <;> simp [serialInstr] at hs <;> simp [Local.still, Local.newborn, Local.exiting, hj]
  refine ⟨?_, hstill hp hi⟩
  cases i with
  | atomicEnd => exact hsafe.1
  | finalcommit r => exact hsafe.1
  | kill v => exact hsafe.1
  | forkSpawn v => exact hsafe.1
  | waitChildRegistered => exact hsafe.1
  | _ => cases hi

/-- Two threads are not both at an instruction of a serial phase. -/
theorem serial_unique (h : Serial s) {j : Instr} {rest' : List Instr}
    (ht : (s.locals t).live = true) (hu : (s.locals u).live = true)
    (hpt : (s.locals t).pending = i :: rest) (hpu : (s.locals u).pending = j :: rest')
    (hi : serialInstr i = true) (hj : serialInstr j = true) : t = u := by
  obtain ⟨het, hts⟩ := h.entitled ht hpt hi
  obtain ⟨heu, hus⟩ := h.entitled hu hpu hj
  by_contra hne
  rcases het with het | het
  · rcases heu with heu | heu
    · exact hne ((h.token t ht het).symm.trans (h.token u hu heu))
    · simp [heu t (h.procs t ht) hne ht] at hts
  · simp [het u (h.procs u hu) (Ne.symm hne) hu] at hus

/-! ## The steps -/

theorem called {op : Op} (h : Serial s) (hg : steady s (.call t op) = true)
    (hl : (s.locals t).live = true) (hnil : (s.locals t).pending = []) : Serial (s.called t op) := by
  have hlive : ∀ u, ((s.called t op).locals u).live = (s.locals u).live := fun u => by
    rw [State.called_locals]
    split
    · rename_i hu
      rw [hu]
      rfl
    · rfl
  have halone : ∀ u, s.alone u → (s.called t op).alone u := by
    intro u hu w hw hwu hwl
    by_cases hwt : w = t
    · subst hwt
      have hst := hu w (h.procs w hl) hwu hl
      simp [Local.still, Local.newborn, Local.exiting, hnil] at hst
    · rw [State.called_locals, if_neg hwt] at hwl ⊢
      exact hu w hw hwu hwl
  exact
    { procs := fun u hu => h.procs u (hlive u ▸ hu)
      linked := h.linked.imp fun _ hR => hR.called
      entry := fun u hu hr => by
        rw [State.called_locals] at hr ⊢
        split
        · rename_i hut
          exact hut ▸ h.entry t hl (by simp [hnil])
        · rename_i hut
          rw [if_neg hut] at hr
          exact h.entry u (hlive u ▸ hu) hr
      token := fun u hu ht => by
        rw [State.called_locals] at ht
        split at ht
        · rename_i hut
          exact hut ▸ h.token t hl ht
        · exact h.token u (hlive u ▸ hu) ht
      safe := fun u hu => by
        rw [hlive] at hu
        have hsafe := (h.safe u hu).mono (halone u)
        rw [State.called_locals]
        split
        · rename_i hut
          subst hut
          rw [hnil] at hsafe
          refine program_safe hsafe ?_ ?_ ?_ ?_
          · rintro v rfl
            simp only [steady, Bool.or_eq_true, Bool.not_eq_true', decide_eq_true_eq] at hg
            exact (or_assoc.mp hg).imp_right (.imp_right (halone u))
          · rintro c m rfl
            simp only [steady, Bool.or_eq_true, decide_eq_true_eq] at hg
            exact hg.imp_right (halone u)
          · rintro v (rfl | rfl) <;> change (s.locals u).tokenHolding = false <;>
              simpa [steady] using hg
          · rintro v rfl
            simp only [steady, Bool.or_eq_true, decide_eq_true_eq] at hg
            exact (or_assoc.mp hg).imp_right (.imp_right (halone u))
        · exact hsafe }

section Ran

variable (h : Serial s) (hg : steady s (.run t) = true) (hl : (s.locals t).live = true)
  (hp : (s.locals t).pending = i :: rest) (ho : s.own t rest i = some (d, l))
include h hg hl hp ho

/-- An instruction moves the token only if no other thread has it. -/
theorem tokenpos_ran (hu : (s.locals u).live = true) (hut : u ≠ t)
    (htok : (s.locals u).hasToken = true) : d.tokenpos = s.determ.tokenpos := by
  have hsafe := h.safe t hl
  rw [hp] at hsafe
  have hhead : ∀ p, (s.locals t).pending.head? = some (.childRegister p) → i = .childRegister p := by
    intro p hh
    rw [hp] at hh
    exact Option.some.inj hh
  have hne : s.determ.holder ≠ t := fun hh => hut ((h.token u hu htok).symm.trans hh)
  have hnt : ¬ ((s.locals t).hasToken = true ∨ s.alone t) := by
    rintro (ht | ha)
    · exact hne (h.token t hl ht)
    · rw [h.hasToken_of_still hu (ha u (h.procs u hu) hut hu)] at htok
      cases htok
  have hni : (∀ p, i ≠ .childRegister p) →
      (s.determ.entries s.determ.tokenpos).threadindex ≠ (s.locals t).threadIndex :=
    fun hi hh => hne (h.holder_of_index hl (fun p hp => hi p (hhead p hp)) hh)
  cases hm : State.movesToken i with
  | false => exact State.own_tokenpos ho hm
  | true =>
      cases i with
      | putToken =>
          simp only [steady, hp, decide_eq_true_eq] at hg
          exact absurd hg (hni (by simp))
      | condEnter c m => exact absurd hsafe.1 hnt
      | barrierEnter b => exact absurd (.inl hsafe.1) hnt
      | deregister => exact absurd (.inl hsafe.1) hnt
      | detJoin v w =>
          have hpass := hni (by simp)
          simp only [State.own] at ho
          split at ho <;> cases ho
          · rfl
          · refine Determ.joinPass_tokenpos _ _ ?_
            have hid := s.determ.joinLeave_ident s.determ.tokenpos (s.locals t).threadIndex
              (s.locals v).threadIndex
            simp only [ThreadEntry.ident, Prod.mk.injEq] at hid
            exact hid.2.1 ▸ hpass
      | joinBlock g =>
          have hpass := hni (by simp)
          simp only [State.own] at ho
          split at ho <;> cases ho
          · rfl
          · exact Determ.joinPass_tokenpos _ _ hpass
      | _ => cases hm

theorem holder_ran (hu : (s.locals u).live = true) (hut : u ≠ t)
    (htok : (s.locals u).hasToken = true) : d.holder = u := by
  rw [State.own_holder ho (h.tokenpos_ran hg hl hp ho hu hut htok), h.token u hu htok]
  rintro p rfl
  simp only [steady, hp, decide_eq_true_eq] at hg
  exact hg.1

/-- A thread that has the token after its instruction is at it. -/
theorem holder_own (htok : l.hasToken = true) : d.holder = t := by
  have hsafe := h.safe t hl
  rw [hp] at hsafe
  rcases State.own_hasToken ho htok with ⟨hpos, hcase⟩ | ⟨g, rfl⟩
  · rw [State.own_holder ho hpos]
    · rcases hcase with ht | ht | ⟨hi, hidx⟩
      · exact h.token t hl ht
      · exact ht
      · refine h.holder_of_index hl ?_ hidx
        rw [hp]
        rintro p hpp
        rcases hi with rfl | rfl <;> cases hpp
    · rintro p rfl
      simp only [steady, hp, decide_eq_true_eq] at hg
      exact hg.1
  · have hold : (s.locals t).hasToken = true := by
      simp only [State.own] at ho
      split at ho <;> cases ho <;> exact htok
    rw [hsafe.1] at hold
    cases hold

/-- The entries of the registered threads stay theirs. -/
theorem entry_ran (hu : ((Function.update (s.others t i) t l) u).live = true)
    (hr : ∀ p, ((Function.update (s.others t i) t l) u).pending.head? ≠ some (.childRegister p)) :
    (d.entries ((Function.update (s.others t i) t l) u).threadIndex).tid = u := by
  have hid : ∀ p, i = .childRegister p → ∀ j,
      (d.entries j).tid = if j = s.determ.threadIndex then t else (s.determ.entries j).tid := by
    rintro p rfl j
    obtain ⟨rfl, rfl⟩ : s.determ.childRegister (s.locals t) t p rest = (d, l) := Option.some.inj ho
    have hj : ((s.determ.childRegister (s.locals t) t p rest).1.entries j).ident =
        if j = s.determ.threadIndex then (t, s.determ.threadIndex, p)
        else (s.determ.entries j).ident := Determ.registerThread_ident
    have := congrArg Prod.fst hj
    rw [apply_ite Prod.fst] at this
    exact this
  by_cases hut : u = t
  · subst hut
    rw [Function.update_self] at hu hr ⊢
    by_cases hi : ∃ p, i = .childRegister p
    · obtain ⟨p, rfl⟩ := hi
      rw [hid p rfl, if_pos]
      obtain ⟨rfl, rfl⟩ : s.determ.childRegister (s.locals u) u p rest = (d, l) := Option.some.inj ho
      rfl
    · obtain ⟨hent, hidx, -⟩ := State.own_entries ho fun p hp => hi ⟨p, hp⟩
      rw [hidx]
      refine (congrArg Prod.fst (hent _)).trans (h.entry u hl fun p hh => hi ⟨p, ?_⟩)
      rw [hp] at hh
      exact Option.some.inj hh
  · rw [Function.update_of_ne hut] at hu hr ⊢
    have hold : (s.others t i u).threadIndex = (s.locals u).threadIndex ∧ (s.locals u).live = true ∧
        ∀ p, (s.locals u).pending.head? ≠ some (.childRegister p) := by
      rcases s.others_cases t i u with ho | ⟨ho, -⟩ | ⟨-, ho⟩ | ⟨-, ho⟩ <;> rw [ho] at hu hr ⊢
      · exact ⟨rfl, hu, hr⟩
      · exact ⟨rfl, hu, hr⟩
      · exact absurd rfl (hr _)
      · cases hu
    obtain ⟨hidx, hul, hur⟩ := hold
    rw [hidx]
    by_cases hi : ∃ p, i = .childRegister p
    · obtain ⟨p, rfl⟩ := hi
      simp only [steady, hp, decide_eq_true_eq] at hg
      rw [hid p rfl, if_neg (hg.2 u (h.procs u hul) hut hul)]
      exact h.entry u hul hur
    · exact (congrArg Prod.fst ((State.own_entries ho fun p hp => hi ⟨p, hp⟩).1 _)).trans
        (h.entry u hul hur)

omit hg hl in
theorem linked_ran : ∃ R, State.Linked R ⟨d, Function.update (s.others t i) t l, s.created i⟩ := by
  obtain ⟨R, hR⟩ := h.linked
  by_cases hi : ∃ p, i = .childRegister p
  · obtain ⟨p, rfl⟩ := hi
    exact ⟨_, hR.registered hp ho⟩
  · exact ⟨R, hR.ran hp ho fun p hp => hi ⟨p, hp⟩⟩

theorem ran : Serial ⟨d, Function.update (s.others t i) t l, s.created i⟩ where
  procs u hu := by
    dsimp only at hu ⊢
    by_cases hut : u = t
    · exact State.mem_created (h.procs u (hut ▸ hl))
    · rw [Function.update_of_ne hut] at hu
      rcases s.others_cases t i u with ho | ⟨ho, -⟩ | ⟨rfl, -⟩ | ⟨-, ho⟩
      · exact State.mem_created (h.procs u (ho ▸ hu))
      · rw [ho] at hu
        exact State.mem_created (h.procs u hu)
      · simp only [State.created]
        split
        · assumption
        · simp
      · rw [ho] at hu
        cases hu
  linked := h.linked_ran hp ho
  entry u hu hr := h.entry_ran hg hl hp ho hu hr
  token u hu ht := by
    dsimp only at hu ht ⊢
    by_cases hut : u = t
    · subst hut
      rw [Function.update_self] at ht
      exact h.holder_own hg hl hp ho ht
    · rw [Function.update_of_ne hut] at hu ht
      rcases s.others_cases t i u with hou | ⟨hou, -⟩ | ⟨-, hou⟩ | ⟨-, hou⟩ <;> rw [hou] at hu ht
      · exact h.holder_ran hg hl hp ho hu hut ht
      · exact h.holder_ran hg hl hp ho hu hut ht
      · cases ht
      · cases hu
  safe u hu := by
    dsimp only at hu ⊢
    by_cases hut : u = t
    · subst hut
      rw [Function.update_self] at hu ⊢
      have hi : i ≠ .procExit := by
        rintro rfl
        cases ho
        cases hu
      have hsafe := h.safe u hl
      rw [hp] at hsafe
      refine (State.own_safe ho hsafe hi ?_).mono fun ha =>
        State.alone_ran ha.1 (fun _ => ha.2) hl (h.procs u hl) hp ho h.procs
      rintro rfl hs
      simp only [steady, hp, decide_eq_true_eq] at hg
      exact hg hs
    · rw [Function.update_of_ne hut] at hu ⊢
      have halone : s.alone u →
          State.alone ⟨d, Function.update (s.others t i) t l, s.created i⟩ u :=
        fun ha => State.alone_ran ha (fun he => absurd he hut) hl (h.procs t hl) hp ho h.procs
      rcases s.others_cases t i u with hou | ⟨hou, -⟩ | ⟨-, hou⟩ | ⟨-, hou⟩ <;> rw [hou] at hu ⊢
      · exact (h.safe u hu).mono halone
      · exact (h.safe u hu).mono halone
      · simp [Local.forked, Local.childStart, Safe]
      · cases hu

end Ran

theorem step {a : Label} (h : Serial s) (hg : steady s a = true) (hs : s.step a = some s') :
    Serial s' := by
  cases a with
  | call t op =>
      obtain ⟨hl, hnil, rfl⟩ := State.step_call hs
      exact h.called hg hl hnil
  | run t =>
      obtain ⟨i, rest, d, l, hl, hp, ho, rfl⟩ := State.step_run hs
      exact h.ran hg hl hp ho

end Serial

/-! ## The handshake of a parent with its new child -/

namespace Local

/-- The process is new and has yet to report to its parent. -/
def registering (l : Local) : Bool := l.pending.head?.any startsUp

/-- The process waits for its new child. -/
def awaiting (l : Local) : Bool := l.pending.head? = some .waitChildRegistered

end Local

/-- At most one new thread has yet to report, and its parent waits for it. -/
structure Handshake (s : State) : Prop where
  parent : ∀ u, (s.locals u).live = true → (s.locals u).registering = true →
    s.determ.childregistered = false ∧ ∃ p, (s.locals p).live = true ∧ (s.locals p).awaiting = true
  reported : s.determ.childregistered = true →
    ∃ p, (s.locals p).live = true ∧ (s.locals p).awaiting = true
  unique : ∀ u v, (s.locals u).live = true → (s.locals v).live = true →
    (s.locals u).registering = true → (s.locals v).registering = true → u = v
  /-- A thread starts up as `childStart` says. -/
  start : ∀ u, ∀ j ∈ (s.locals u).pending, startsUp j = true →
    (∃ n, (s.locals u).pending = Local.childStart n) ∨
      (s.locals u).pending = [.waitParentNotify, .waitNotified, .atomicBegin]

/-- Nobody waits for a child while another thread is in a serial phase. -/
theorem Serial.not_awaiting {s : State} {t p : Tid} {i : Instr} {rest : List Instr} (h : Serial s)
    (hl : (s.locals t).live = true) (hp : (s.locals t).pending = i :: rest)
    (hi : serialInstr i = true) (hne : i ≠ .waitChildRegistered) (hpl : (s.locals p).live = true) :
    (s.locals p).awaiting = false := by
  by_contra ha
  obtain ⟨r, hr⟩ := List.head?_eq_some_iff.mp (by simpa [Local.awaiting] using ha :
    (s.locals p).pending.head? = some .waitChildRegistered)
  obtain rfl := h.serial_unique hpl hl hr hp rfl hi
  exact hne (List.cons.inj (hp.symm.trans hr)).1

namespace Handshake

variable {s s' : State} {t u : Tid} {i : Instr} {rest : List Instr} {d : Determ} {l : Local}

/-- A thread between two operations takes no part in the handshake. -/
theorem alter (h : Handshake s) (hnil : (s.locals t).pending = [])
    (hd : d.childregistered = s.determ.childregistered) (hs : ∀ j ∈ l.pending, startsUp j = false) :
    Handshake ⟨d, Function.update s.locals t l, s.procs⟩ := by
  have hreg : ∀ u, (Function.update s.locals t l u).registering = true → u ≠ t := by
    rintro u hr rfl
    rw [Function.update_self] at hr
    simp only [Local.registering, Option.any_eq_true] at hr
    obtain ⟨j, hj, hst⟩ := hr
    rw [hs j (List.mem_of_head? hj)] at hst
    cases hst
  have hawait : ∀ p, (s.locals p).live = true ∧ (s.locals p).awaiting = true →
      (Function.update s.locals t l p).live = true ∧ (Function.update s.locals t l p).awaiting = true := by
    rintro p ⟨hl, ha⟩
    have hpt : p ≠ t := by
      rintro rfl
      simp [Local.awaiting, hnil] at ha
    rw [Function.update_of_ne hpt]
    exact ⟨hl, ha⟩
  exact
    { parent := fun u hu hr => by
        dsimp only at hu hr ⊢
        rw [Function.update_of_ne (hreg u hr)] at hu hr
        obtain ⟨hc, p, hp⟩ := h.parent u hu hr
        exact ⟨hd.trans hc, p, hawait p hp⟩
      reported := fun hc => (h.reported (hd.symm.trans hc)).imp hawait
      unique := fun u v hu hv hru hrv => by
        dsimp only at hu hv hru hrv
        rw [Function.update_of_ne (hreg u hru)] at hu hru
        rw [Function.update_of_ne (hreg v hrv)] at hv hrv
        exact h.unique u v hu hv hru hrv
      start := fun u j hj hst => by
        dsimp only at hj ⊢
        by_cases hut : u = t
        · subst hut
          rw [Function.update_self] at hj
          rw [hs j hj] at hst
          cases hst
        · rw [Function.update_of_ne hut] at hj ⊢
          exact h.start u j hj hst }

theorem called {op : Op} (h : Handshake s) (hnil : (s.locals t).pending = []) :
    Handshake (s.called t op) :=
  h.alter hnil rfl (program_not_startsUp _ _)

section Ran

/-- A thread that forks goes on to wait for its child, and nobody waits for another child then. -/
def Forks (s : State) (i : Instr) (rest : List Instr) : Prop :=
  ∀ c, i = .forkSpawn c → rest.head? = some .waitChildRegistered ∧
    ∀ p, (s.locals p).live = true → (s.locals p).awaiting = false

/-- No other thread is cancelled while it waits for its child. -/
def Spares (s : State) (t : Tid) (i : Instr) : Prop :=
  ∀ p, i = .kill p → p ≠ t → (s.locals p).live = true → (s.locals p).awaiting = false

variable (h : Handshake s) (hfork : Forks s i rest) (hkill : Spares s t i)
  (hl : (s.locals t).live = true) (hp : (s.locals t).pending = i :: rest)
  (ho : s.own t rest i = some (d, l))
include h hfork hkill hl hp ho

omit hfork hkill hl in
/-- Only the registration of a new thread is followed by another instruction of its start. -/
theorem start_own {j : Instr} (hj : j ∈ l.pending) (hs : startsUp j = true) :
    (∃ n, i = .childRegister n) ∧ l.pending = [.waitParentNotify, .waitNotified, .atomicBegin] := by
  by_cases hi : i = .procExit
  · subst hi
    cases ho
    cases hj
  · obtain ⟨js, hjs, hlp⟩ := State.own_pending ho hi
    rw [hlp, List.mem_append] at hj
    rcases hj with hj | hj
    · rw [hjs.not_startsUp j hj] at hs
      cases hs
    · have hmem : j ∈ (s.locals t).pending := by
        rw [hp]
        exact List.mem_cons_of_mem _ hj
      rcases h.start t j hmem hs with ⟨n, hn⟩ | hn
      · obtain ⟨rfl, rfl⟩ := List.cons.inj (hp.symm.trans hn)
        obtain ⟨rfl, rfl⟩ : s.determ.childRegister (s.locals t) t n _ = (d, l) := Option.some.inj ho
        exact ⟨⟨n, rfl⟩, rfl⟩
      · obtain ⟨rfl, rfl⟩ := List.cons.inj (hp.symm.trans hn)
        simp only [List.mem_cons, List.not_mem_nil, or_false] at hj
        rcases hj with rfl | rfl <;> cases hs

omit h hfork hl hp in
/-- A parent goes on to wait for its child: nobody else may cancel a thread meanwhile. -/
theorem awaiting_ran {p : Tid} (hpl : (s.locals p).live = true) (hpa : (s.locals p).awaiting = true)
    (hpt : p ≠ t) : (s.others t i p).live = true ∧ (s.others t i p).awaiting = true := by
  rcases s.others_cases t i p with ho | ⟨ho, rest, hr⟩ | ⟨rfl, -⟩ | ⟨rfl, -⟩
  · rw [ho]
    exact ⟨hpl, hpa⟩
  · rw [ho]
    exact ⟨hpl, hpa⟩
  · simp only [State.own, Option.ite_none_right_eq_some] at ho
    simp [hpl] at ho
  · rw [hkill p rfl hpt hpl] at hpa
    cases hpa

omit h hfork hl in
/-- The parent that waits for a child is another thread than the one that runs, unless the child
has reported. -/
theorem awaiting_keeps (hc : s.determ.childregistered = false ∨ d.childregistered = true)
    (hex : ∃ p, (s.locals p).live = true ∧ (s.locals p).awaiting = true) :
    ∃ p, ((Function.update (s.others t i) t l) p).live = true ∧
      ((Function.update (s.others t i) t l) p).awaiting = true := by
  obtain ⟨p, hpl, hpa⟩ := hex
  have hpt : p ≠ t := by
    rintro rfl
    obtain rfl : i = .waitChildRegistered := by simpa [Local.awaiting, hp] using hpa
    simp only [State.own] at ho
    split at ho
    · rename_i htrue
      cases ho
      rcases hc with hc | hc
      · rw [htrue] at hc
        cases hc
      · cases hc
    · cases ho
  refine ⟨p, ?_⟩
  rw [Function.update_of_ne hpt]
  exact awaiting_ran hkill ho hpl hpa hpt

omit hfork hkill in
/-- The threads that have yet to report after an instruction. -/
theorem registering_cases (hu : ((Function.update (s.others t i) t l) u).live = true)
    (hr : ((Function.update (s.others t i) t l) u).registering = true) :
    i = .forkSpawn u ∨
      ((s.locals u).live = true ∧ (s.locals u).registering = true ∧ i ≠ .waitParentNotify) := by
  by_cases hut : u = t
  · subst hut
    rw [Function.update_self] at hr
    simp only [Local.registering, Option.any_eq_true] at hr
    obtain ⟨j, hj, hs⟩ := hr
    obtain ⟨⟨n, rfl⟩, -⟩ := h.start_own hp ho (List.mem_of_head? hj) hs
    exact .inr ⟨hl, by simp [Local.registering, hp, startsUp], by simp⟩
  · rw [Function.update_of_ne hut] at hu hr
    have hold : (s.locals u).live = true → (s.locals u).registering = true →
        i ≠ .waitParentNotify := by
      rintro hul hur rfl
      exact hut (h.unique u t hul hl hur (by simp [Local.registering, hp, startsUp]))
    rcases s.others_cases t i u with ho | ⟨ho, -⟩ | ⟨hi, -⟩ | ⟨-, ho⟩
    · rw [ho] at hu hr
      exact .inr ⟨hu, hr, hold hu hr⟩
    · rw [ho] at hu hr
      exact .inr ⟨hu, hr, hold hu hr⟩
    · exact .inl hi
    · rw [ho] at hu
      cases hu

theorem ran : Handshake ⟨d, Function.update (s.others t i) t l, s.created i⟩ where
  parent u hu hr := by
    rcases h.registering_cases hl hp ho hu hr with rfl | ⟨hul, hur, hi⟩
    · have hfalse : s.determ.childregistered = false := by
        by_contra hc
        obtain ⟨p, hpl, hpa⟩ := h.reported (by simpa using hc)
        rw [(hfork u rfl).2 p hpl] at hpa
        cases hpa
      have hhead := (hfork u rfl).1
      simp only [State.own, Option.ite_none_right_eq_some, Option.some.injEq, Prod.mk.injEq] at ho
      obtain ⟨-, rfl, rfl⟩ := ho
      refine ⟨hfalse, t, ?_⟩
      dsimp only
      rw [Function.update_self]
      exact ⟨hl, decide_eq_true hhead⟩
    · obtain ⟨hc, hex⟩ := h.parent u hul hur
      refine ⟨?_, awaiting_keeps hkill hp ho (.inl hc) hex⟩
      rcases State.own_childregistered ho with hd | ⟨rfl, -⟩ | ⟨-, -, hd⟩
      · exact hd.trans hc
      · exact absurd rfl hi
      · exact hd
  reported hc := by
    refine awaiting_keeps hkill hp ho (.inr hc) ?_
    rcases State.own_childregistered ho with hd | ⟨rfl, -⟩ | ⟨-, hs, -⟩
    · exact h.reported (hd.symm.trans hc)
    · exact (h.parent t hl (by simp [Local.registering, hp, startsUp])).2
    · exact h.reported hs
  unique u v hu hv hru hrv := by
    have hnone : ∀ c, i = .forkSpawn c → ∀ w, (s.locals w).live = true →
        (s.locals w).registering = true → False := by
      rintro c rfl w hwl hwr
      obtain ⟨-, p, hpl, hpa⟩ := h.parent w hwl hwr
      rw [(hfork c rfl).2 p hpl] at hpa
      cases hpa
    rcases h.registering_cases hl hp ho hu hru with hfu | ⟨hul, hur, -⟩ <;>
      rcases h.registering_cases hl hp ho hv hrv with hfv | ⟨hvl, hvr, -⟩
    · exact Instr.forkSpawn.inj (hfu.symm.trans hfv)
    · exact absurd (hnone u hfu v hvl hvr) id
    · exact absurd (hnone v hfv u hul hur) id
    · exact h.unique u v hul hvl hur hvr
  start u j hj hs := by
    dsimp only at hj ⊢
    by_cases hut : u = t
    · subst hut
      rw [Function.update_self] at hj ⊢
      exact .inr (h.start_own hp ho hj hs).2
    · rw [Function.update_of_ne hut] at hj ⊢
      rcases s.others_cases t i u with ho | ⟨ho, -⟩ | ⟨-, ho⟩ | ⟨-, ho⟩ <;> rw [ho] at hj ⊢
      · exact h.start u j hj hs
      · exact h.start u j hj hs
      · exact .inl ⟨_, rfl⟩
      · exact h.start u j hj hs

end Ran

theorem step {a : Label} (h : Handshake s) (hser : Serial s) (hs : s.step a = some s') :
    Handshake s' := by
  cases a with
  | call t op =>
      obtain ⟨-, hnil, rfl⟩ := State.step_call hs
      exact h.called hnil
  | run t =>
      obtain ⟨i, rest, d, l, hl, hp, ho, rfl⟩ := State.step_run hs
      refine h.ran (fun c hi => ?_) (fun p hi _ hpl => ?_) hl hp ho <;> subst hi
      · have hsafe := hser.safe t hl
        rw [hp] at hsafe
        exact ⟨hsafe.2.1, fun p hpl => hser.not_awaiting hl hp rfl nofun hpl⟩
      · exact hser.not_awaiting hl hp rfl nofun hpl

end Handshake

/-! ## The law -/

theorem serial_boot (coresNumb : ℕ) : Serial (State.boot coresNumb) where
  procs t ht := by simpa [State.boot] using ht
  linked := ⟨_, State.linked_boot coresNumb⟩
  entry t ht _ := by
    obtain rfl : t = 1 := by simpa [State.boot] using ht
    rfl
  token t _ ht := by cases ht
  safe t ht := by
    obtain rfl : t = 1 := by simpa [State.boot] using ht
    have halone : (State.boot coresNumb).alone 1 := fun u hu hne =>
      absurd (by simpa [State.boot] using hu) hne
    exact ⟨by simp [State.boot], fun _ => .inr halone⟩

theorem handshake_boot (coresNumb : ℕ) : Handshake (State.boot coresNumb) where
  parent u _ hr := by cases hr
  reported hc := by cases hc
  unique u v _ _ hr := by cases hr
  start u j hj := by cases hj

/-- Thread `t` is at `_tokenpos` and obtained the token, or every other thread is blocked in
`waitParentNotify` or has left the thread list. -/
def State.serialised (s : State) (t : Tid) : Prop :=
  ((s.locals t).hasToken = true ∧ s.determ.holder = t) ∨
    ∀ u ∈ s.procs, u ≠ t → (s.locals u).live = true →
      (s.locals u).blocked = true ∨ (s.locals u).exiting = true

instance (s : State) (t : Tid) : Decidable (s.serialised t) :=
  inferInstanceAs (Decidable ((_ ∧ _) ∨ ∀ u ∈ s.procs, _))

/-- A thread that stands still and has reported to its parent is blocked. -/
theorem Local.blocked_of_still {l : Local} (hs : l.still = true) (hr : l.registering = false) :
    l.blocked = true ∨ l.exiting = true := by
  rcases Local.still_cases hs with ⟨hb, hn⟩ | hp
  · rcases Local.newborn_cases hb with ⟨p, r, hp⟩ | ⟨r, hp⟩ | ⟨r, hp⟩
    · simp [Local.registering, hp, startsUp] at hr
    · simp [Local.registering, hp, startsUp] at hr
    · exact .inl (by simp [Local.blocked, hp, hn])
  · exact .inr (by simp [Local.exiting, hp])

/-- In a run under the condition every commit is made by the thread at the token, or by the only
thread that runs. -/
theorem commits_serialised {n : ℕ} {ls : List Label} {w : State} {t : Tid}
    (hr : Run State.step (fun s a => steady s a = true) (State.boot n) ls w)
    (hl : (w.locals t).live = true) (hc : (w.locals t).commits = true) : w.serialised t := by
  obtain ⟨hser, hhand⟩ : Serial w ∧ Handshake w :=
    Run.invariant (fun s a w (h : Serial s ∧ Handshake s) hg hs =>
      (⟨h.1.step hg hs, h.2.step h.1 hs⟩ : Serial w ∧ Handshake w)) hr
      ⟨serial_boot n, handshake_boot n⟩
  have hhead : ∃ i rest, (w.locals t).pending = i :: rest ∧ serialInstr i = true ∧
      i ≠ .waitChildRegistered := by
    unfold Local.commits at hc
    split at hc
    · rename_i rest hp
      exact ⟨_, rest, hp, rfl, by simp⟩
    · rename_i r rest hp
      exact ⟨_, rest, hp, rfl, by simp⟩
    · cases hc
  obtain ⟨i, rest, hp, hi, hne⟩ := hhead
  rcases (hser.entitled hl hp hi).1 with htok | halone
  · exact .inl ⟨htok, hser.token t hl htok⟩
  · refine .inr fun u hu hut hul => Local.blocked_of_still (halone u hu hut hul) ?_
    by_contra hreg
    obtain ⟨-, p, hpl, hpa⟩ := hhand.parent u hul (by simpa using hreg)
    rw [hser.not_awaiting hl hp hi hne hpl] at hpa
    cases hpa

/-- Main spawns thread 2 and ends the fork phase with its first `mutex_lock`. -/
def forkPhase : List Label :=
  .call 1 (.spawn 2) :: Label.runs 1 6 ++ Label.runs 2 2 ++ Label.runs 1 2 ++
  .call 1 (.mutexLock 0) :: Label.runs 1 2

/-- Main and thread 2 lock a mutex each: main commits with the token. -/
theorem commits_serialised_fork : ∃ w,
    Run State.step (fun s a => steady s a = true) (State.boot 4)
      (forkPhase ++ Label.runs 1 5 ++ Label.runs 2 2 ++ .call 2 (.mutexLock 1) :: Label.runs 2 5 ++
        Label.runs 1 4) w ∧
      (w.locals 1).commits = true ∧ (w.locals 2).blocked = false ∧ w.serialised 1 := by
  have hrun : (execGuarded State.step (fun s a => steady s a = true) (State.boot 4)
      (forkPhase ++ Label.runs 1 5 ++ Label.runs 2 2 ++ .call 2 (.mutexLock 1) :: Label.runs 2 5 ++
        Label.runs 1 4)).any (fun w => decide ((w.locals 1).live = true ∧
          (w.locals 1).commits = true ∧ (w.locals 2).blocked = false)) = true := by
    decide +kernel
  obtain ⟨w, hr, hl, hc, hb⟩ := exists_run_of_any hrun
  exact ⟨w, hr, hc, hb, commits_serialised hr hl hc⟩

/-- Thread 2 spawns while main runs its parallel phase: `spawn` commits before it waits for the
token. -/
theorem spawn_commits_early :
    ¬ ∀ (n : ℕ) (ls : List Label) (w : State) (t : Tid),
      exec State.step (State.boot n) ls = some w → (w.locals t).live = true →
      (w.locals t).protectionEnabled = true → (w.locals t).commits = true → w.serialised t := by
  intro h
  have hrun : (exec State.step (State.boot 4)
      (forkPhase ++ Label.runs 2 2 ++ [.call 2 (.spawn 3)])).any (fun w =>
        decide ((w.locals 2).live = true ∧ (w.locals 2).protectionEnabled = true ∧
          (w.locals 2).commits = true ∧ ¬ w.serialised 2)) = true := by
    decide +kernel
  obtain ⟨w, hr, hl, hp, hc, hns⟩ := exists_exec_of_any hrun
  exact hns (h 4 _ w 2 hr hl hp hc)

end Dthreads.Scheduler
