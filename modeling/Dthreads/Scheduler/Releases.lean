import Dthreads.Fence.Generations
import Dthreads.Scheduler.Crossing
import Dthreads.Scheduler.Places

/-! # Who the fence releases

A thread that waits in `waitFence` remembers how often the fence had opened when it arrived. The start
of new threads sets the phase without a look at the threads that are about to leave. -/

namespace Dthreads.Scheduler

open Fence Transition

/-! ## The phase -/

namespace Determ

variable (d : Determ)

/-- The number of arrivals stays as it is, and the fence does not close. -/
def Holds (d d' : Determ) : Prop :=
  d'.currthreads = d.currthreads ∧
    (d'.isArrivalPhase = d.isArrivalPhase ∨ d'.isArrivalPhase = false)

theorem Holds.refl : d.Holds d := ⟨rfl, .inl rfl⟩

theorem Holds.congr {d d' : Determ} (hc : d'.currthreads = d.currthreads)
    (ha : d'.isArrivalPhase = d.isArrivalPhase) : d.Holds d' := ⟨hc, .inl ha⟩

theorem holds_decrFence : d.Holds d.decrFence := by
  unfold decrFence Holds
  dsimp only
  split
  · exact ⟨rfl, .inr rfl⟩
  · exact ⟨rfl, .inl rfl⟩

theorem holds_condEnter (my : ℕ) (c m : Obj) : d.Holds (d.condEnter my c m) := by
  unfold condEnter
  dsimp only
  unfold lockRelease
  split <;> exact holds_decrFence _

theorem holds_joinPass (my : ℕ) : d.Holds (d.joinPass my) := by
  unfold joinPass
  dsimp only
  split <;> exact holds_decrFence _

theorem holds_barrierEnter (my : ℕ) (b : Obj) : d.Holds (d.barrierEnter my b).1 := by
  unfold barrierEnter
  split
  · exact .refl d
  · dsimp only
    split
    · exact .congr rfl rfl
    · exact holds_decrFence _

theorem holds_deregisterThread (my : ℕ) : d.Holds (d.deregisterThread my) := by
  unfold deregisterThread
  dsimp only
  split <;> split
  · exact holds_decrFence _
  · exact .congr rfl rfl
  · exact holds_decrFence _
  · exact .congr rfl rfl

theorem holds_condSignal (c : Obj) : d.Holds (d.condSignal c) := by
  unfold condSignal
  (repeat' split) <;> exact .congr rfl rfl

theorem holds_condBroadcast (c : Obj) : d.Holds (d.condBroadcast c) := by
  unfold condBroadcast
  (repeat' split) <;> exact .congr rfl rfl

end Determ

namespace State

/-- The fence is started while it is closed, and no thread is cancelled whose `wait` flag is left over
from the fence, or that leaves one thread while the fence is open. -/
def Undisturbed (s : State) : Instr → Prop
  | .startFence => s.determ.isArrivalPhase = true
  | .detCancel v =>
      let e := s.determ.entries (s.locals v).threadIndex
      e.status = .condWaiting → e.cond ≠ none →
        e.wait = false ∧ (s.determ.maxthreads = 1 → s.determ.isArrivalPhase = true)
  | _ => True

instance (s : State) (i : Instr) : Decidable (s.Undisturbed i) := by
  cases i <;> unfold Undisturbed <;> infer_instance

variable {s : State} {t u : Tid} {rest : List Instr} {i : Instr} {d : Determ} {l : Local}

theorem holds_cancel {v : Tid} (hg : s.Undisturbed (.detCancel v)) :
    s.determ.Holds (s.determ.cancel (s.locals v).threadIndex) := by
  unfold Undisturbed at hg
  unfold Determ.cancel
  dsimp only at hg ⊢
  split
  · rename_i c hst hc
    obtain ⟨hw, hm⟩ := hg hst (by rw [hc]; exact nofun)
    rw [hw, if_neg Bool.false_ne_true]
    split
    · rename_i h1
      exact ⟨rfl, .inl (hm h1).symm⟩
    · exact .congr rfl rfl
  · exact .refl _

/-- Outside `waitFence` no thread arrives or leaves. -/
theorem own_holds (h : s.own t rest i = some (d, l)) (hi : i.arrives = false) (hl : i.leaves = false)
    (hg : s.Undisturbed i) : s.determ.Holds d := by
  cases i with
  | fenceEnter | spinArrival | fenceArrive | condArrival => cases hi
  | spinRelease | fenceLeave | condRelease => cases hl
  | startFence =>
      cases h
      exact ⟨rfl, .inl (show true = _ from hg.symm)⟩
  | lockIsowner m =>
      cases h
      unfold Determ.lockIsowner
      (repeat' split) <;> exact .congr rfl rfl
  | lockTest m k =>
      have hd : d = (s.determ.lockTest m).1 := by
        simp only [own] at h
        split at h <;> cases h <;> rfl
      rw [hd]
      unfold Determ.lockTest
      dsimp only
      split <;> exact .congr rfl rfl
  | lockSet m k =>
      have hd : d = (s.determ.lockSet m t).1 := by
        simp only [own] at h
        split at h <;> cases h <;> rfl
      rw [hd]
      unfold Determ.lockSet
      split <;> exact .congr rfl rfl
  | lockRelease m =>
      cases h
      unfold Determ.lockRelease
      split <;> exact .congr rfl rfl
  | condBlock m =>
      simp only [own] at h
      split at h <;> cases h
      · exact .refl _
      · unfold Determ.lockRelease
        split <;> exact .congr rfl rfl
  | condLookup c =>
      cases h
      split <;> exact .congr rfl rfl
  | condEnter c m =>
      cases h
      exact Determ.holds_condEnter ..
  | condSignal c =>
      cases h
      exact Determ.holds_condSignal ..
  | condBroadcast c =>
      cases h
      exact Determ.holds_condBroadcast ..
  | barrierEnter b =>
      cases h
      exact Determ.holds_barrierEnter ..
  | barrierArrive b =>
      simp only [own, Option.map_eq_some_iff] at h
      obtain ⟨be, -, h⟩ := h
      split at h <;> cases h <;> exact .congr rfl rfl
  | detJoin v w =>
      simp only [own] at h
      split at h <;> cases h
      · exact .congr rfl rfl
      · exact Determ.holds_joinPass (s.determ.joinLeave _ _) _
  | joinBlock g =>
      simp only [own] at h
      split at h <;> cases h
      · exact .congr rfl rfl
      · exact Determ.holds_joinPass (s.determ.incrFence 1) _
  | detCancel v =>
      cases h
      exact holds_cancel hg
  | deregister =>
      cases h
      exact Determ.holds_deregisterThread ..
  | _ =>
      simp only [own] at h
      (repeat' split at h) <;> cases h <;> exact .congr rfl rfl

/-! ## The code of the fence -/

/-- Only the next instruction is a wait for the others. -/
def Settles (is : List Instr) : Prop := ∀ j ∈ is.tail, j.leaves = false

theorem program_settles (l : Local) (op : Op) : ∀ j ∈ l.program op, j.leaves = false := by
  cases op <;>
    simp only [Local.program, Local.mutexLock, Local.mutexUnlock, Local.condWait, Local.condSignal,
      Local.condBroadcast, Local.barrierWait, Local.spawn, Local.join, Local.cancel,
      Local.threadDeregister, Local.wakeChildren, Local.underToken, Local.waitToken, Local.waitFence] <;>
    (repeat' split) <;> simp [Instr.leaves]

/-- An instruction outside the fence pushes no wait for the others. -/
theorem Pushes.settles {l : Local} {js : List Instr} (h : Pushes l i js) (hi : i.arrives = false)
    (hl : i.leaves = false) : ∀ j ∈ js, j.leaves = false := by
  cases h with
  | done => simp
  | fenceSpin | fenceWait | fenceRespin => cases hi
  | released => cases hl
  | arrivedSpin k i h => rcases h with rfl | rfl | rfl <;> cases hi
  | arrivedWait k i h => rcases h with rfl | rfl | rfl <;> cases hi
  | again m =>
      unfold Local.getLockAgain
      split <;> simp [Local.waitToken, Local.waitFence, Instr.leaves]
  | endCritical =>
      unfold Local.endCriticalSection
      split <;> simp [Local.waitFence, Instr.leaves]
  | taken m k => cases k <;> simp [Local.lockFailed, Local.waitFence, Instr.leaves]
  | exhausted m k => cases k <;> simp [Local.lockFailed, Local.waitFence, Instr.leaves]
  | _ => simp [Instr.leaves]

end State

/-! ## The history -/

/-- The threads that are counted in `_currthreads`: how often the fence had opened when they arrived,
the arrivals of threads that were killed in the fence, and how often the fence has opened. -/
structure Crowd where
  inside : Finset Tid
  since : Tid → ℕ
  lost : List ℕ
  releases : ℕ

namespace Crowd

def kill (g : Crowd) (v : Tid) : Crowd :=
  if v ∈ g.inside then { g with inside := g.inside.erase v, lost := g.since v :: g.lost } else g

/-- The history after a step. -/
def after (g : Crowd) (s s' : State) : Label → Crowd
  | .call _ _ => g
  | .run t =>
      let g := { g with releases := s.determ.fence.opened s'.determ.fence g.releases }
      match (s.locals t).waits, (s'.locals t).waits with
      | false, true =>
          { g with inside := insert t g.inside, since := Function.update g.since t g.releases }
      | true, false => { g with inside := g.inside.erase t }
      | _, _ =>
          match (s.locals t).pending.head? with
          | some (.kill v) => g.kill v
          | _ => g

section After

variable {g : Crowd} {s s' : State} {t v : Tid}

/-- The history when nobody comes or leaves. -/
def opened (g : Crowd) (s s' : State) : Crowd :=
  { g with releases := s.determ.fence.opened s'.determ.fence g.releases }

theorem after_enter (hb : (s.locals t).waits = false) (ha : (s'.locals t).waits = true) :
    g.after s s' (.run t) = { g.opened s s' with
      inside := insert t g.inside
      since := Function.update g.since t (g.opened s s').releases } := by
  simp only [after, hb, ha]
  rfl

theorem after_leave (hb : (s.locals t).waits = true) (ha : (s'.locals t).waits = false) :
    g.after s s' (.run t) = { g.opened s s' with inside := g.inside.erase t } := by
  simp only [after, hb, ha]
  rfl

theorem after_kill (h : (s'.locals t).waits = (s.locals t).waits)
    (hk : (s.locals t).pending.head? = some (.kill v)) :
    g.after s s' (.run t) = (g.opened s s').kill v := by
  simp only [after, h, hk]
  cases (s.locals t).waits <;> rfl

theorem after_stay (h : (s'.locals t).waits = (s.locals t).waits)
    (hk : ∀ v, (s.locals t).pending.head? ≠ some (.kill v)) :
    g.after s s' (.run t) = g.opened s s' := by
  simp only [after, h]
  cases hi : (s.locals t).pending.head? with
  | none => cases (s.locals t).waits <;> rfl
  | some i =>
      cases i with
      | kill v => exact absurd hi (hk v)
      | _ => cases (s.locals t).waits <;> rfl

end After

end Crowd

/-- The machine with the history of its fence. -/
structure Watched where
  state : State
  crowd : Crowd

namespace Watched

def start (s : State) : Watched := ⟨s, ⟨∅, fun _ => 0, [], 0⟩⟩

def step (w : Watched) (a : Label) : Option Watched :=
  (w.state.step a).map fun s => ⟨s, w.crowd.after w.state s a⟩

/-- The history tells who is in the fence and how often it has opened. -/
structure Crowded (w : Watched) : Prop where
  inside : ∀ u, u ∈ w.crowd.inside ↔
    (w.state.locals u).live = true ∧ (w.state.locals u).waits = true
  generations : Generations w.state.determ.fence w.crowd.inside w.crowd.since w.crowd.lost
    w.crowd.releases
  settles : ∀ u, (w.state.locals u).live = true → State.Settles (w.state.locals u).pending

variable {w w' : Watched} {t u : Tid} {rest : List Instr} {i : Instr} {d : Determ} {l : Local}

/-- A thread that runs into the rest of its operation is not in the fence. -/
theorem waits_append {js : List Instr} {l : Local} (hl : l.pending = js ++ rest)
    (hjs : ∀ j ∈ js, j.leaves = false) (hr : ∀ j ∈ rest, j.leaves = false) :
    l.waits = false ∧ State.Settles l.pending := by
  have hall : ∀ j ∈ l.pending, j.leaves = false := by
    intro j hj
    rw [hl] at hj
    exact (List.mem_append.mp hj).elim (hjs j) (hr j)
  refine ⟨?_, fun j hj => hall j (List.mem_of_mem_tail hj)⟩
  unfold Local.waits
  cases hp : l.pending with
  | nil => rfl
  | cons j is => exact hall j (by rw [hp]; exact List.mem_cons_self)

/-- A thread in the fence. -/
theorem waits_cons {l : Local} {j : Instr} (hl : l.pending = j :: rest)
    (hr : ∀ j ∈ rest, j.leaves = false) : l.waits = j.leaves ∧ State.Settles l.pending :=
  ⟨Local.waits_cons hl, by rw [hl]; exact hr⟩

/-- A step in which the other threads stay as they are. -/
theorem Crowded.solo (h : w.Crowded) {g : Crowd}
    (hin : ∀ u, u ∈ g.inside ↔ if u = t then l.live = true ∧ l.waits = true else u ∈ w.crowd.inside)
    (hg : Generations d.fence g.inside g.since g.lost g.releases)
    (hs : l.live = true → State.Settles l.pending)
    (ho : ∀ u, u ≠ t → (w.state.others t i u).live = (w.state.locals u).live ∧
      (w.state.others t i u).pending = (w.state.locals u).pending) :
    Crowded ⟨⟨d, Function.update (w.state.others t i) t l, w.state.created i⟩, g⟩ := by
  refine ⟨fun u => ?_, hg, fun u hu => ?_⟩
  · rw [hin]
    dsimp only
    by_cases hut : u = t
    · subst hut
      rw [if_pos rfl, Function.update_self]
    · obtain ⟨hl, hp⟩ := ho u hut
      rw [if_neg hut, Function.update_of_ne hut, h.inside u, hl, Local.waits, Local.waits, hp]
  · dsimp only at hu ⊢
    by_cases hut : u = t
    · subst hut
      rw [Function.update_self] at hu ⊢
      exact hs hu
    · obtain ⟨hl, hp⟩ := ho u hut
      rw [Function.update_of_ne hut] at hu ⊢
      rw [hp]
      exact h.settles u (hl ▸ hu)

/-- An instruction of the fence. -/
theorem Crowded.fence (h : w.Crowded) (hl : (w.state.locals t).live = true)
    (hp : (w.state.locals t).pending = i :: rest) (ho : w.state.own t rest i = some (d, l))
    (hi : i.arrives = true ∨ i.leaves = true) {s : State}
    (hs : s = ⟨d, Function.update (w.state.others t i) t l, w.state.created i⟩) :
    Crowded ⟨s, w.crowd.after w.state s (.run t)⟩ := by
  have hb : (w.state.locals t).waits = i.leaves := Local.waits_cons hp
  have hrest : ∀ j ∈ rest, j.leaves = false := by
    have hset := h.settles t hl
    rw [hp] at hset
    exact hset
  have hothers : ∀ u, u ≠ t → (w.state.others t i u).live = (w.state.locals u).live ∧
      (w.state.others t i u).pending = (w.state.locals u).pending := fun u _ => by
    rw [State.others_of_fence hi]
    exact ⟨rfl, rfl⟩
  have hmem : t ∈ w.crowd.inside ↔ i.leaves = true := by
    rw [h.inside, hb]
    exact and_iff_right hl
  have hpos : i.leaves = true → 0 < w.state.determ.currthreads := fun hlv => by
    have hc : w.state.determ.currthreads = _ := h.generations.arrived
    rw [hc]
    exact Nat.add_pos_left (Finset.card_pos.mpr ⟨t, hmem.mpr hlv⟩) _
  have hk : ∀ v, (w.state.locals t).pending.head? ≠ some (.kill v) := by
    intro v hv
    rw [hp, List.head?_cons, Option.some.injEq] at hv
    subst hv
    rcases hi with hi | hi <;> cases hi
  have hsl : s.locals t = l := by
    rw [hs]
    exact Function.update_self ..
  have hsd : s.determ = d := by rw [hs]
  obtain ⟨js, hc, rfl⟩ := State.own_cross ho hi hpos
  -- a thread that stays on its side of the arrival
  have hstay : ∀ x, ((w.state.locals t).goto (js ++ rest)).waits = x → i.leaves = x →
      State.Settles ((w.state.locals t).goto (js ++ rest)).pending →
      Generations d.fence w.crowd.inside w.crowd.since w.crowd.lost
        (w.state.determ.fence.opened d.fence w.crowd.releases) →
      Crowded ⟨s, w.crowd.after w.state s (.run t)⟩ := by
    intro x hx hix hset hg
    rw [Crowd.after_stay (by rw [hsl, hx, hb, hix]) hk, Crowd.opened, hsd, hs]
    refine h.solo (fun u => ?_) hg (fun _ => hset) hothers
    by_cases hut : u = t
    · rw [if_pos hut, hx, ← hix, hut, hmem]
      exact (and_iff_right hl).symm
    · rw [if_neg hut]
  generalize hcf : d.fence = cf at hc hstay
  cases hc with
  | look hiA hj _ _ =>
      obtain ⟨hw, hset⟩ := waits_cons (l := (w.state.locals t).goto ([_] ++ rest)) rfl hrest
      refine hstay false (hw.trans (Instr.not_leaves_of_arrives hj)) (Instr.not_leaves_of_arrives hiA)
        hset ?_
      rw [Counters.opened_same rfl]
      exact h.generations
  | pass hiA _ _ =>
      have hgo : ((w.state.locals t).goto ([] ++ rest)).pending = [] ++ rest := rfl
      obtain ⟨hw, hset⟩ := waits_append hgo (by simp) hrest
      exact hstay false hw (Instr.not_leaves_of_arrives hiA) hset h.generations.pass
  | see hiL _ hj _ =>
      obtain ⟨hw, hset⟩ := waits_cons (l := (w.state.locals t).goto ([_] ++ rest)) rfl hrest
      refine hstay true (hw.trans hj) hiL hset ?_
      rw [Counters.opened_same rfl]
      exact h.generations
  | wait hiA _ _ hj _ _ =>
      obtain ⟨hw, hset⟩ := waits_cons (l := (w.state.locals t).goto ([_] ++ rest)) rfl hrest
      rw [hj] at hw
      have hiL := Instr.not_leaves_of_arrives hiA
      rw [Crowd.after_enter (hb.trans hiL) (by rw [hsl, hw]), Crowd.opened, hsd, hs]
      refine h.solo (fun u => ?_) ?_ (fun _ => hset) hothers
      · rw [hw, Finset.mem_insert]
        by_cases hut : u = t
        · rw [if_pos hut]
          exact iff_of_true (.inl hut) ⟨hl, rfl⟩
        · simp [hut]
      · have hn : w.state.determ.fence.opened w.state.determ.fence.wait w.crowd.releases =
          w.crowd.releases := Counters.opened_same rfl
        rw [hcf]
        dsimp only
        rw [hn]
        exact h.generations.wait fun hm => absurd (hiL.symm.trans (hmem.mp hm)) nofun
  | leave hiL _ =>
      have hgo : ((w.state.locals t).goto ([] ++ rest)).pending = [] ++ rest := rfl
      obtain ⟨hw, hset⟩ := waits_append hgo (by simp) hrest
      rw [Crowd.after_leave (hb.trans hiL) (by rw [hsl, hw]), Crowd.opened, hsd, hs]
      refine h.solo (fun u => ?_) ?_ (fun _ => hset) hothers
      · rw [hw, Finset.mem_erase]
        by_cases hut : u = t
        · simp [hut]
        · simp [hut]
      · rw [hcf]
        exact h.generations.leave (hmem.mpr hiL)

/-- An instruction outside the fence. -/
theorem Crowded.other (h : w.Crowded) (hl : (w.state.locals t).live = true)
    (hp : (w.state.locals t).pending = i :: rest) (ho : w.state.own t rest i = some (d, l))
    (hi : i.arrives = false) (hL : i.leaves = false) (hg : w.state.Undisturbed i) {s : State}
    (hs : s = ⟨d, Function.update (w.state.others t i) t l, w.state.created i⟩) :
    Crowded ⟨s, w.crowd.after w.state s (.run t)⟩ := by
  have hb : (w.state.locals t).waits = false := (Local.waits_cons hp).trans hL
  have hmem : t ∉ w.crowd.inside := fun hm => by
    have hw := ((h.inside t).mp hm).2
    rw [hb] at hw
    cases hw
  have hrest : ∀ j ∈ rest, j.leaves = false := by
    have hset := h.settles t hl
    rw [hp] at hset
    exact hset
  obtain ⟨hw, hset⟩ : l.waits = false ∧ State.Settles l.pending := by
    by_cases hx : i = .procExit
    · subst hx
      cases ho
      exact ⟨rfl, by rintro _ ⟨⟩⟩
    · obtain ⟨js, hjs, hlp⟩ := State.own_pending ho hx
      exact waits_append hlp (State.Pushes.settles hjs hi hL) hrest
  have hst : s.locals t = l := by
    rw [hs]
    exact Function.update_self ..
  have hsd : s.determ = d := by rw [hs]
  have hsame : (s.locals t).waits = (w.state.locals t).waits := by rw [hst, hw, hb]
  obtain ⟨hcur, hph⟩ := State.own_holds ho hi hL hg
  have hgen : Generations d.fence w.crowd.inside w.crowd.since w.crowd.lost
      (w.state.determ.fence.opened d.fence w.crowd.releases) := h.generations.frame hcur hph
  by_cases hkill : ∃ v, i = .kill v
  · obtain ⟨v, rfl⟩ := hkill
    have hoth : w.state.others t (.kill v) =
        Function.update w.state.locals v { w.state.locals v with live := false } := rfl
    rw [Crowd.after_kill hsame (by rw [hp]; rfl), Crowd.opened, hsd]
    have hin : ∀ u, ((s.locals u).live = true ∧ (s.locals u).waits = true ↔
        u ≠ v ∧ u ∈ w.crowd.inside) := by
      intro u
      by_cases hut : u = t
      · rw [hut, hst, hw]
        exact iff_of_false (fun hc => (by cases hc.2)) fun hc => hmem hc.2
      · rw [hs]
        dsimp only
        rw [Function.update_of_ne hut, hoth]
        by_cases huv : u = v
        · rw [huv, Function.update_self]
          exact iff_of_false (fun hc => (by cases hc.1)) fun hc => hc.1 rfl
        · rw [Function.update_of_ne huv, h.inside]
          exact (and_iff_right huv).symm
    have hsettle : ∀ u, (s.locals u).live = true → State.Settles (s.locals u).pending := by
      intro u hu
      by_cases hut : u = t
      · rw [hut, hst]
        exact hset
      · rw [hs] at hu ⊢
        dsimp only at hu ⊢
        rw [Function.update_of_ne hut, hoth] at hu ⊢
        by_cases huv : u = v
        · rw [huv, Function.update_self] at hu
          cases hu
        · rw [Function.update_of_ne huv] at hu ⊢
          exact h.settles u hu
    unfold Crowd.kill
    split
    · rename_i hv
      refine ⟨fun u => ?_, ?_, hsettle⟩
      · rw [hin]
        exact Finset.mem_erase
      · rw [hsd]
        exact hgen.lose hv
    · rename_i hv
      refine ⟨fun u => ?_, by rw [hsd]; exact hgen, hsettle⟩
      rw [hin]
      exact ⟨fun hu => ⟨fun he => hv (he ▸ hu), hu⟩, And.right⟩
  rw [Crowd.after_stay hsame (by rw [hp]; rintro v hv; exact hkill ⟨v, Option.some.inj hv⟩),
    Crowd.opened, hsd]
  by_cases hfork : ∃ c, i = .forkSpawn c
  · obtain ⟨c, rfl⟩ := hfork
    simp only [State.own, Option.ite_none_right_eq_some] at ho
    obtain ⟨⟨hct, hcl⟩, -⟩ := ho
    have hoth : w.state.others t (.forkSpawn c) =
        Function.update w.state.locals c (w.state.locals t).forked := rfl
    have hcm : c ∉ w.crowd.inside := fun hm => by
      have hlc := ((h.inside c).mp hm).1
      rw [hcl] at hlc
      cases hlc
    refine ⟨fun u => ?_, by rw [hsd]; exact hgen, fun u hu => ?_⟩
    · dsimp only
      by_cases hut : u = t
      · rw [hut, hst, hw]
        exact iff_of_false hmem fun hc => by cases hc.2
      · rw [hs]
        dsimp only
        rw [Function.update_of_ne hut, hoth]
        by_cases huc : u = c
        · rw [huc, Function.update_self]
          exact iff_of_false hcm fun hc => by cases hc.2
        · rw [Function.update_of_ne huc]
          exact h.inside u
    · dsimp only at hu ⊢
      by_cases hut : u = t
      · rw [hut, hst]
        exact hset
      · rw [hs] at hu ⊢
        dsimp only at hu ⊢
        rw [Function.update_of_ne hut, hoth] at hu ⊢
        by_cases huc : u = c
        · rw [huc, Function.update_self]
          simp [State.Settles, Local.forked, Local.childStart, Instr.leaves]
        · rw [Function.update_of_ne huc] at hu ⊢
          exact h.settles u hu
  rw [hs]
  refine h.solo (fun u => ?_) hgen (fun _ => hset) fun u _ => ?_
  · by_cases hut : u = t
    · rw [if_pos hut, hw, hut]
      exact iff_of_false hmem fun hc => by cases hc.2
    · rw [if_neg hut]
  · rcases w.state.others_cases t i u with he | ⟨he, -⟩ | ⟨he, -⟩ | ⟨he, -⟩
    · rw [he]
      exact ⟨rfl, rfl⟩
    · rw [he]
      exact ⟨rfl, rfl⟩
    · exact absurd ⟨u, he⟩ hfork
    · exact absurd ⟨u, he⟩ hkill

theorem Crowded.called {op : Op} (h : w.Crowded)
    (hp : (w.state.locals t).pending = []) : Crowded ⟨w.state.called t op, w.crowd⟩ := by
  have hprog := State.program_settles (w.state.locals t) op
  have hnil : ((w.state.locals t).goto ((w.state.locals t).program op)).pending =
      [] ++ (w.state.locals t).program op := rfl
  obtain ⟨hw, hset⟩ := waits_append hnil (by simp) hprog
  refine ⟨fun u => ?_, h.generations, fun u hu => ?_⟩
  · rw [h.inside]
    dsimp only
    rw [State.called_locals]
    split
    · rename_i hut
      rw [hut, hw, Local.waits, hp]
      exact iff_of_false (fun hc => (by cases hc.2)) fun hc => by cases hc.2
    · rfl
  · dsimp only at hu ⊢
    rw [State.called_locals] at hu ⊢
    split
    · exact hset
    · rename_i hut
      rw [if_neg hut] at hu
      exact h.settles u hu

/-- The start of new threads and the cancellations leave the fence alone. -/
def Quiet (w : Watched) (a : Label) : Prop := w.state.Next (fun s _ i => s.Undisturbed i) a

theorem Crowded.step {a : Label} (h : w.Crowded) (hg : w.Quiet a) (hs : w.step a = some w') :
    w'.Crowded := by
  simp only [Watched.step, Option.map_eq_some_iff] at hs
  obtain ⟨s, hs, rfl⟩ := hs
  cases a with
  | call t op =>
      obtain ⟨-, hp, rfl⟩ := State.step_call hs
      exact h.called hp
  | run t =>
      obtain ⟨i, rest, d, l, hl, hp, ho, hs⟩ := State.step_run hs
      by_cases hi : i.arrives = true ∨ i.leaves = true
      · exact h.fence hl hp ho hi hs
      · obtain ⟨hA, hL⟩ := not_or.mp hi
        exact h.other hl hp ho (Bool.eq_false_of_not_eq_true hA) (Bool.eq_false_of_not_eq_true hL)
          (hg i (by simp [hp])) hs

theorem crowded_start {s : State} (h : s.Opening) : (start s).Crowded := by
  have hidle : ∀ u, (s.locals u).pending = [] := by
    obtain ⟨c, rfl⟩ | ⟨n, c, -, rfl⟩ := h <;> exact fun _ => rfl
  have h0 : s.determ.currthreads = 0 := by
    obtain ⟨c, rfl⟩ | ⟨n, c, -, rfl⟩ := h <;> rfl
  refine ⟨fun u => ?_, ⟨h0, fun _ hu => absurd hu (Finset.notMem_empty _),
    fun _ hk => absurd hk List.not_mem_nil⟩, fun u _ => ?_⟩
  · refine iff_of_false (Finset.notMem_empty u) fun hc => ?_
    have hw := hc.2
    rw [Local.waits, show (start s).state.locals u = s.locals u from rfl, hidle] at hw
    cases hw
  · rw [show (start s).state.locals u = s.locals u from rfl, hidle]
    rintro _ ⟨⟩

/-! ## The law -/

/-- A thread that has been released leaves the fence before it opens again, and does not wait. While
the fence is closed, `_currthreads` counts the threads that arrived since it opened last. -/
structure Undivided (w : Watched) : Prop where
  released : ∀ u, (w.state.locals u).live = true → (w.state.locals u).waits = true →
    w.crowd.since u < w.crowd.releases →
      w.crowd.releases = w.crowd.since u + 1 ∧ w.state.determ.isArrivalPhase = false ∧
        (w.state.step (.run u)).isSome
  counts : w.state.determ.isArrivalPhase = true →
    (∀ u, u ∈ w.crowd.inside ↔ (w.state.locals u).live = true ∧ (w.state.locals u).waits = true) ∧
      w.state.determ.currthreads = w.crowd.inside.card + w.crowd.lost.length ∧
      (∀ u ∈ w.crowd.inside, w.crowd.since u = w.crowd.releases) ∧
      ∀ k ∈ w.crowd.lost, k = w.crowd.releases

/-- Who waits for the others goes on when the fence is open. -/
theorem step_of_waits {s : State} (hl : (s.locals u).live = true) (hw : (s.locals u).waits = true)
    (ha : s.determ.isArrivalPhase = false) : (s.step (.run u)).isSome := by
  cases hp : (s.locals u).pending with
  | nil =>
      rw [Local.waits, hp] at hw
      cases hw
  | cons i rest =>
      rw [Local.waits_cons hp] at hw
      simp only [State.step, hl, hp, State.exec]
      cases i with
      | spinRelease k => simp [State.own, ha]
      | fenceLeave k => simp [State.own]
      | condRelease k => simp [State.own, ha]
      | _ => cases hw

theorem Crowded.undivided (h : w.Crowded) : w.Undivided where
  released u hl hw hn := by
    obtain ⟨hr, ha⟩ := h.generations.released ((h.inside u).mpr ⟨hl, hw⟩) hn
    exact ⟨hr, ha, step_of_waits hl hw ha⟩
  counts ha := ⟨h.inside, h.generations.arrived, h.generations.current ha⟩

/-- In a run that starts the fence only while it is closed, no generation of the fence is disturbed. -/
theorem fence_undivided {s : State} {as : List Label} (hs : s.Opening)
    (hr : Run Watched.step Quiet (start s) as w) : w.Undivided :=
  (Run.invariant (fun _ _ _ h hg hstep => h.step hg hstep) hr (crowded_start hs)).undivided

/-- `Quiet` as a test. -/
def quiet (w : Watched) : Label → Bool
  | .call _ _ => true
  | .run t => (w.state.locals t).pending.head?.all fun i => decide (w.state.Undisturbed i)

theorem quiet_of {a : Label} (h : w.quiet a = true) : w.Quiet a := by
  cases a with
  | call t op => trivial
  | run t =>
      intro i hi
      simp only [quiet, Option.mem_def.mp hi, Option.all_some] at h
      exact of_decide_eq_true h

/-- Thread 1 creates thread 3 after it has met thread 2 at the fence. -/
def spawning : List Label :=
  .call 2 .threadDeregister :: Label.runs 2 1 ++ .call 1 (.spawn 3) :: Label.runs 1 7 ++
    Label.runs 3 2 ++ Label.runs 1 2

/-- Thread 2 has left the fence when thread 1 starts it again. -/
theorem fence_undivided_spawn : ∃ w,
    Run Watched.step Quiet (start (State.ring 2 4))
      (spawning ++ Label.runs 2 2 ++ .call 1 (.mutexLock 7) :: Label.runs 1 1) w ∧
    w.crowd.releases = 1 ∧ w.Undivided := by
  have hrun : (execGuarded Watched.step (fun w a => w.quiet a = true) (start (State.ring 2 4))
      (spawning ++ Label.runs 2 2 ++ .call 1 (.mutexLock 7) :: Label.runs 1 1)).any
      (fun w => decide (w.crowd.releases = 1)) = true := by
    decide +kernel
  obtain ⟨w, hr, hn⟩ := exists_run_of_any hrun
  have hr' := hr.mono fun _ _ => quiet_of
  exact ⟨w, hr', hn, fence_undivided (.inr ⟨2, 4, Nat.two_pos, rfl⟩) hr'⟩

/-- Thread 1 starts the fence again while thread 2, which it has released, is about to leave. -/
theorem fence_divided :
    ¬ ∀ (n c : ℕ) (as : List Label) (w : Watched), 0 < n →
      exec Watched.step (start (State.ring n c)) as = some w → w.Undivided := by
  intro h
  have hrun : (exec Watched.step (start (State.ring 2 4))
      (spawning ++ .call 1 (.mutexLock 7) :: Label.runs 1 1)).any
      (fun w => decide ((w.state.locals 2).live = true ∧ (w.state.locals 2).waits = true ∧
        w.crowd.since 2 < w.crowd.releases ∧ w.state.determ.isArrivalPhase = true)) = true := by
    decide +kernel
  obtain ⟨w, hw, hl, hwaits, hlt, ha⟩ := exists_exec_of_any hrun
  have hopen := ((h 2 4 _ w Nat.two_pos hw).released 2 hl hwaits hlt).2.1
  exact absurd (ha.symm.trans hopen) nofun

end Watched

end Dthreads.Scheduler
