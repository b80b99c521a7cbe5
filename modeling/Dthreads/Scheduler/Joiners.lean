import Dthreads.Scheduler.Places

/-! # Joiners

A joiner leaves the token queue and counts on the exit of its joinee to bring it back. The exit only
looks at the recorded parent. -/

namespace Dthreads.Scheduler

open Transition

/-! ## What changes a role -/

namespace Determ

variable (d : Determ) (my guest c m b i : ℕ)

theorem setReady_role : ((d.setReady my).entries i).role = (d.entries i).role ∨
    ((d.setReady my).entries i).status = .ready := by
  have h : ((d.setReady my).entries i).role = if i = my then _ else (d.entries i).role :=
    Entries.update_role ..
  by_cases hi : i = my
  · rw [if_pos hi] at h
    exact .inr (congrArg Prod.fst h)
  · rw [if_neg hi] at h
    exact .inl h

theorem join_role : (((d.joinLeave guest my).joinPass my).entries i).role = (d.entries i).role ∨
    i = my ∧ (((d.joinLeave guest my).joinPass my).entries i).status = .joining ∧
      (((d.joinLeave guest my).joinPass my).entries i).joineeThreadIndex = guest := by
  rw [joinPass_entries]
  unfold joinLeave
  dsimp only
  by_cases hi : i = my
  · subst hi
    exact .inr ⟨rfl, by simp⟩
  · rw [Function.update_of_ne hi, Entries.removeEntry_role]
    exact .inl rfl

theorem deregisterThread_role : ((d.deregisterThread my).entries i).role = (d.entries i).role ∨
    i = my ∧ ((d.deregisterThread my).entries i).status = .exit := by
  unfold deregisterThread
  dsimp only
  by_cases hi : i = my
  · subst hi
    exact .inr ⟨rfl, by simp [Entries.setStatus]⟩
  · left
    simp only [Entries.setStatus, Function.update_of_ne hi, Entries.removeEntry_role]
    split <;> split <;> simp [decrFence_entries]

theorem cancel_role : ((d.cancel my).entries i).role = (d.entries i).role ∨
    i = my ∧ (d.entries my).status = .condWaiting ∧ (d.entries my).cond ≠ none ∧
      ((d.cancel my).entries i).status = .exit := by
  unfold cancel
  dsimp only
  split
  · rename_i c hs hc
    by_cases hi : i = my
    · subst hi
      exact .inr ⟨rfl, hs, by simp [hc], by simp [Entries.setStatus]⟩
    · left
      simp only [Entries.setStatus, Function.update_of_ne hi]
      split <;> split <;> exact Entries.removeEntry_role ..
  · exact .inl rfl

theorem condEnter_role : ((d.condEnter my c m).entries i).role = (d.entries i).role ∨
    ((d.condEnter my c m).entries i).status = .condWaiting := by
  unfold condEnter
  dsimp only
  rw [lockRelease_entries]
  dsimp only
  rw [decrFence_entries]
  by_cases hi : i = my
  · subst hi
    exact .inr (by simp [setCond])
  · refine .inl ((Entries.update_role ..).trans ?_)
    rw [if_neg hi]
    exact (Entries.insertTail_role ..).trans (Entries.removeEntry_role ..)

theorem condSignal_role : ((d.condSignal c).entries i).role = (d.entries i).role ∨
    ((d.condSignal c).entries i).status = .ready := by
  unfold condSignal
  split
  · exact .inl rfl
  · split
    · rename_i h _ _
      by_cases hi : i = h
      · subst hi
        exact .inr (by simp [setCond, incrFence])
      · refine .inl ((Entries.update_role ..).trans ?_)
        rw [if_neg hi]
        exact (Entries.insertHead_role ..).trans (Entries.removeEntry_role ..)
    · exact .inl rfl

theorem condBroadcast_role : ((d.condBroadcast c).entries i).role = (d.entries i).role ∨
    ((d.condBroadcast c).entries i).status = .ready := by
  unfold condBroadcast
  split
  · exact .inl rfl
  · rename_i ce hce
    split
    · rename_i x hx
      split
      · exact .inl rfl
      · have h := Queued.readyFrom_role d.entries ce.waiters x i
        rw [← Entries.moveWholeList_role _ d.tokenpos i ce.head, hx] at h
        dsimp only
        rw [hx]
        split at h
        · exact .inr (congrArg Prod.fst h)
        · exact .inl h
    · exact .inl rfl

theorem barrierEnter_role : ((d.barrierEnter my b).1.entries i).role = (d.entries i).role ∨
    ((d.barrierEnter my b).1.entries i).status = .barrWaiting := by
  unfold barrierEnter
  split
  · exact .inl rfl
  · dsimp only
    split
    · exact .inl (Entries.moveWholeList_role ..)
    · dsimp only
      rw [decrFence_entries]
      by_cases hi : i = my
      · subst hi
        exact .inr (by simp [setBarrier, Entries.setStatus])
      · refine .inl ((Entries.update_role ..).trans ?_)
        rw [if_neg hi]
        exact (Entries.insertTail_role ..).trans (Entries.removeEntry_role ..)

end Determ

namespace State

variable {s : State} {t : Tid} {rest : List Instr} {i : Instr} {d : Determ} {l : Local}

/-- Only the exit and a cancellation end a thread, and only `join` makes it a joiner. -/
theorem own_role (h : s.own t rest i = some (d, l)) (hc : ∀ p, i ≠ .childRegister p) (j : ℕ) :
    (d.entries j).role = (s.determ.entries j).role ∨
    ((d.entries j).status ≠ .exit ∧ (d.entries j).status ≠ .joining) ∨
    (∃ v w, i = .detJoin v w ∧ j = (s.locals t).threadIndex ∧
      (s.determ.entries (s.locals v).threadIndex).status ≠ .exit ∧
      (d.entries j).joineeThreadIndex = (s.locals v).threadIndex ∧ (d.entries j).status = .joining) ∨
    (i = .deregister ∧ j = (s.locals t).threadIndex ∧ (d.entries j).status = .exit) ∨
    ∃ v, i = .detCancel v ∧ j = (s.locals v).threadIndex ∧
      (s.determ.entries j).status = .condWaiting ∧ (s.determ.entries j).cond ≠ none ∧
      (d.entries j).status = .exit := by
  have hother : ∀ x : Status, x ≠ .exit ∧ x ≠ .joining → (d.entries j).status = x →
      (d.entries j).status ≠ .exit ∧ (d.entries j).status ≠ .joining := by
    rintro x hx rfl
    exact hx
  by_cases hq : touchesQueues i = false
  · exact .inl ((own_same h hq).role j)
  cases i with
  | childRegister p => exact absurd rfl (hc p)
  | putToken =>
      cases h
      exact .inl rfl
  | condLookup c =>
      cases h
      left
      split <;> rfl
  | condInit c =>
      cases h
      exact .inl rfl
  | barrierInit b n =>
      cases h
      exact .inl rfl
  | condEnter c m =>
      cases h
      exact (Determ.condEnter_role ..).imp_right fun hw => .inl (hother .condWaiting (by decide) hw)
  | condSignal c =>
      cases h
      exact (Determ.condSignal_role ..).imp_right fun hw => .inl (hother .ready (by decide) hw)
  | condBroadcast c =>
      cases h
      exact (Determ.condBroadcast_role ..).imp_right fun hw => .inl (hother .ready (by decide) hw)
  | barrierEnter b =>
      cases h
      exact (Determ.barrierEnter_role ..).imp_right fun hw => .inl (hother .barrWaiting (by decide) hw)
  | barrierArrive b =>
      simp only [own, Option.map_eq_some_iff] at h
      obtain ⟨be, -, h⟩ := h
      split at h <;> cases h <;> exact .inl rfl
  | detJoin v w =>
      simp only [own] at h
      split at h
      · cases h
        exact (Determ.setReady_role ..).imp_right fun hw => .inl (hother .ready (by decide) hw)
      · rename_i hne
        cases h
        refine (Determ.join_role ..).imp_right ?_
        rintro ⟨hj, hs, hg⟩
        exact .inr (.inl ⟨v, w, rfl, hj, hne, hg, hs⟩)
  | joinBlock g =>
      simp only [own] at h
      split at h
      · cases h
        exact (Determ.setReady_role (s.determ.incrFence 1) _ j).imp_right fun hw =>
          .inl (hother .ready (by decide) hw)
      · cases h
        rw [Determ.joinPass_entries]
        exact .inl rfl
  | detCancel v =>
      cases h
      refine (Determ.cancel_role ..).imp_right ?_
      rintro ⟨hj, hs, hcn, he⟩
      exact .inr (.inr (.inr ⟨v, rfl, hj, by rwa [hj], by rwa [hj], he⟩))
  | deregister =>
      cases h
      refine (Determ.deregisterThread_role ..).imp_right ?_
      rintro ⟨hj, he⟩
      exact .inr (.inr (.inl ⟨rfl, hj, he⟩))
  | _ => exact absurd rfl hq

/-! ## The condition -/

/-- A thread is joined by its recorded parent, unless it has exited, and no thread is cancelled that
another one joins. -/
def JoinsOwn (s : State) (t : Tid) : Instr → Prop
  | .detJoin v _ =>
      (s.determ.entries (s.locals v).threadIndex).status = .exit ∨
        (s.determ.entries (s.locals v).threadIndex).tidParent = (s.locals t).threadIndex
  | .detCancel v =>
      (s.determ.entries (s.locals v).threadIndex).status = .condWaiting →
        ∀ i, (s.determ.entries i).status = .joining →
          (s.determ.entries i).joineeThreadIndex ≠ (s.locals v).threadIndex
  | _ => True

end State

/-! ## The invariant -/

namespace State

variable {s : State} {t u : Tid} {rest : List Instr} {i : Instr} {d : Determ} {l : Local}
  {ls ls' : Queue → List ℕ}

/-- No thread at a program point in `Q` has the status `x`. -/
def Avoids (s : State) (x : Status) (Q : Phase → Prop) : Prop :=
  ∀ u, (s.locals u).live = true → (s.locals u).enrolled → Q (phase (s.locals u).pending) →
    (s.determ.entries (s.locals u).threadIndex).status ≠ x

namespace Avoids

variable {x : Status} {Q : Phase → Prop}

theorem called {op : Op} (hb : s.Avoids x Q) (hl : (s.locals t).live = true)
    (hp : (s.locals t).pending = []) : (s.called t op).Avoids x Q := by
  intro u hu hr hph
  rw [called_locals] at hu hr hph ⊢
  split
  · rename_i hut
    rw [if_pos hut, Local.goto_pending, program_phase] at hph
    refine hb t hl ?_ (by rw [hp]; exact hph)
    rw [Local.enrolled, hp]
    exact ⟨by rintro ⟨⟩, by rintro ⟨⟩⟩
  · rename_i hut
    rw [if_neg hut] at hu hr hph
    exact hb u hu hr hph

/-- A step of `t` that moves the other threads as it may. -/
theorem move (hb : s.Avoids x Q) (hready : x ≠ .ready) (hexit : x ≠ .exit) (h : Placed s ls)
    (hs : Determ.Shift l.threadIndex s.determ ls d ls')
    (hne : ∀ u, u ≠ t → (s.locals u).live = true → (s.locals u).enrolled →
      (s.locals u).threadIndex ≠ l.threadIndex)
    (hown : l.live = true → l.enrolled → Q (phase l.pending) →
      (d.entries l.threadIndex).status ≠ x) :
    State.Avoids ⟨d, Function.update (s.others t i) t l, s.created i⟩ x Q := by
  intro u hu hr hph
  dsimp only at hu hr hph ⊢
  by_cases hut : u = t
  · subst hut
    rw [Function.update_self] at hu hr hph ⊢
    exact hown hu hr hph
  · rw [Function.update_of_ne hut] at hu hr hph ⊢
    rcases h.other hu with ⟨hp, hx, hlu⟩ | ⟨p, hp⟩
    · rw [Local.enrolled, hp] at hr
      rw [hp] at hph
      rw [hx]
      rcases hs.role _ (hne u hut hlu hr) with hrole | ⟨-, ⟨hw, -⟩ | hw⟩
      · rw [role_status hrole]
        exact hb u hlu hr hph
      · rw [hw]
        exact hready.symm
      · rw [hw]
        exact hexit.symm
    · rw [Local.enrolled, hp] at hr
      exact absurd rfl hr.1

/-- The exit of the process itself. -/
theorem procExit (hb : s.Avoids x Q) :
    State.Avoids ⟨s.determ, Function.update (s.others t .procExit) t
      { s.locals t with live := false, pending := [] }, s.created .procExit⟩ x Q := by
  intro u hu hr hph
  by_cases hut : u = t
  · subst hut
    simp at hu
  · simp only [Function.update_of_ne hut] at hu hr hph ⊢
    exact hb u hu hr hph

/-- A thread starts as ready. -/
theorem childRegister (hb : s.Avoids x Q) (hready : x ≠ .ready) (hexit : x ≠ .exit) (h : Placed s ls)
    {p : ℕ} (hl : (s.locals t).live = true) (hp : (s.locals t).pending = .childRegister p :: rest)
    (hreg : s.Regular t (.childRegister p)) (ho : s.own t rest (.childRegister p) = some (d, l)) :
    State.Avoids ⟨d, Function.update (s.others t (.childRegister p)) t l,
      s.created (.childRegister p)⟩ x Q := by
  obtain ⟨ls', -, hs⟩ := h.ran hl hp hreg ho
  obtain ⟨rfl, rfl⟩ : s.determ.childRegister (s.locals t) t p rest = (d, l) := Option.some.inj ho
  have hr : (({ s.determ with threadIndex := s.determ.threadIndex + 1 }).registerThread
      s.determ.threadIndex t p |>.entries s.determ.threadIndex).role = _ :=
    (Determ.Queued.registerThread_role ..).trans (if_pos rfl)
  have hst := congrArg Prod.fst hr
  refine hb.move hready hexit h hs (fun u hut hu hur => hreg.2.2 u hut hu hur) fun _ _ _ hj => ?_
  exact hready (hj.symm.trans hst)

end Avoids

/-- A live thread that is not in the wait of `join` is no joiner. -/
def Busy (s : State) : Prop := s.Avoids .joining fun ph => ∀ g, ph ≠ .joinBlock g

namespace Busy

theorem ran (hb : Busy s) (h : Placed s ls) (hl : (s.locals t).live = true)
    (hp : (s.locals t).pending = i :: rest) (hreg : s.Regular t i)
    (ho : s.own t rest i = some (d, l)) :
    Busy ⟨d, Function.update (s.others t i) t l, s.created i⟩ := by
  by_cases hx : i = .procExit
  · subst hx
    cases ho
    exact hb.procExit
  by_cases hc : ∃ p, i = .childRegister p
  · obtain ⟨p, rfl⟩ := hc
    exact hb.childRegister (by rintro ⟨⟩) (by rintro ⟨⟩) h hl hp hreg ho
  have hc' : ∀ p, i ≠ .childRegister p := fun p hip => hc ⟨p, hip⟩
  obtain ⟨ls', -, hs⟩ := h.ran hl hp hreg ho
  obtain ⟨-, hidx, -⟩ := own_entries ho hc'
  have hr : (s.locals t).enrolled := Placed.enrolled_of hp hc' hx
  refine hb.move (by rintro ⟨⟩) (by rintro ⟨⟩) h hs (fun u hut hu hur => ?_) fun _ _ hnj hj => ?_
  · rw [hidx]
    exact h.distinct hl hr hut hu hur
  · rw [hidx] at hj
    by_cases hjb : ∃ g, i = .joinBlock g
    · obtain ⟨g, rfl⟩ := hjb
      simp only [own] at ho
      split at ho <;> cases ho
      · simp [Determ.setReady, Entries.setStatus] at hj
      · exact hnj g rfl
    · rcases own_role ho hc' (s.locals t).threadIndex with hrm | ⟨-, hne⟩ |
        ⟨v, w, rfl, -, hne, -, -⟩ | ⟨-, -, he⟩ | ⟨v, -, -, -, -, he⟩
      · refine hb t hl hr (fun g hph => ?_) ((role_status hrm).symm.trans hj)
        rw [hp] at hph
        unfold phase at hph
        split at hph <;> simp_all
      · exact hne hj
      · simp only [own, if_neg hne] at ho
        cases ho
        exact hnj _ rfl
      · exact absurd (he.symm.trans hj) (by rintro ⟨⟩)
      · exact absurd (he.symm.trans hj) (by rintro ⟨⟩)

end Busy

/-- A joiner is in the token queue from the exit of its joinee on, its joinee is its child, and a
thread that does something else is no joiner. -/
structure Joined (s : State) (ls : Queue → List ℕ) : Prop extends Placed s ls where
  back : ∀ i, (s.determ.entries i).status = .joining →
    (s.determ.entries (s.determ.entries i).joineeThreadIndex).status = .exit → i ∈ ls .active
  parent : ∀ i, (s.determ.entries i).status = .joining →
    (s.determ.entries (s.determ.entries i).joineeThreadIndex).status ≠ .exit →
    (s.determ.entries (s.determ.entries i).joineeThreadIndex).tidParent = i
  busy : ∀ u, (s.locals u).live = true → (s.locals u).enrolled →
    (∀ g, phase (s.locals u).pending ≠ .joinBlock g) →
    (s.determ.entries (s.locals u).threadIndex).status ≠ .joining

/-- An entry of a thread that has exited stays as it is until it is registered again. -/
theorem Placed.exit_kept (h : Placed s ls) (hl : (s.locals t).live = true)
    (hp : (s.locals t).pending = i :: rest) (ho : s.own t rest i = some (d, l))
    (hc : ∀ p, i ≠ .childRegister p) (hs : Determ.Shift (s.locals t).threadIndex s.determ ls d ls')
    {j : ℕ} (hj : (s.determ.entries j).status = .exit) : (d.entries j).status = .exit := by
  by_cases hjm : j = (s.locals t).threadIndex
  · by_cases hq : touchesQueues i = false
    · exact (role_status ((own_same ho hq).role j)).trans hj
    have hin : ∀ q, j ∉ ls q := h.queued.unlisted (.inl hj)
    rcases h.touches hl hp hc (Bool.eq_true_of_not_eq_false hq) with ha | ⟨b, hb⟩ | hjo
    · exact absurd (hjm ▸ ha) (hin _)
    · exact absurd (hjm ▸ hb) (hin _)
    · exact absurd ((hjm ▸ hj).symm.trans hjo) nofun
  · rcases hs.role j hjm with hr | ⟨⟨c, hjc⟩, -⟩
    · exact (role_status hr).trans hj
    · exact absurd ((h.queued.fits _ j hjc).1.symm.trans hj) nofun

namespace Joined

theorem called {op : Op} (h : Joined s ls) (hl : (s.locals t).live = true)
    (hp : (s.locals t).pending = []) : Joined (s.called t op) ls where
  toPlaced := h.toPlaced.called hl hp
  back := h.back
  parent := h.parent
  busy := Avoids.called (show Busy s from h.busy) hl hp

/-- The registration of a thread. -/
theorem childRegister (h : Joined s ls) {p : ℕ} (hl : (s.locals t).live = true)
    (hp : (s.locals t).pending = .childRegister p :: rest) (hreg : s.Regular t (.childRegister p))
    (ho : s.own t rest (.childRegister p) = some (d, l)) :
    ∃ ls', Joined ⟨d, Function.update (s.others t (.childRegister p)) t l,
      s.created (.childRegister p)⟩ ls' := by
  obtain ⟨ls', hw, hs⟩ := h.toPlaced.ran hl hp hreg ho
  have hcr : s.determ.childRegister (s.locals t) t p rest = (d, l) := Option.some.inj ho
  have hd : (s.determ.childRegister (s.locals t) t p rest).1 = d := congrArg Prod.fst hcr
  obtain ⟨k, hk⟩ : ∃ k, s.determ.threadIndex = k := ⟨_, rfl⟩
  have hlk : l.threadIndex = k := (congrArg (fun x => x.2.threadIndex) hcr).symm.trans hk
  obtain ⟨-, hun, -⟩ := id hreg
  rw [hk] at hun
  have hr : ∀ j, (d.entries j).role = if j = k then
      (.ready, (s.determ.entries k).cond, (s.determ.entries k).joineeThreadIndex)
      else (s.determ.entries j).role := fun j => by
    rw [← hd, ← hk]
    exact Determ.Queued.registerThread_role ..
  have hpar : ∀ j, j ≠ k → (d.entries j).tidParent = (s.determ.entries j).tidParent := by
    intro j hj
    have hid := @Determ.registerThread_ident { s.determ with
      threadIndex := s.determ.threadIndex + 1 } s.determ.threadIndex j p t
    rw [hk, if_neg hj] at hid
    rw [← hd]
    exact congrArg (fun x => x.2.2) (hk ▸ hid)
  have hrole : ∀ j, j ≠ k → (d.entries j).role = (s.determ.entries j).role := fun j hj => by
    rw [hr, if_neg hj]
  have hready : (d.entries k).status = .ready := by
    have hk' := congrArg Prod.fst (hr k)
    rwa [if_pos rfl] at hk'
  have hjoin : ∀ j, (d.entries j).status = .joining → j ≠ k ∧
      (s.determ.entries j).status = .joining ∧
      (d.entries j).joineeThreadIndex = (s.determ.entries j).joineeThreadIndex ∧
      (s.determ.entries j).joineeThreadIndex ≠ k := by
    intro j hj
    have hjk : j ≠ k := by
      rintro rfl
      exact absurd (hready.symm.trans hj) nofun
    have hj' := (role_status (hrole j hjk)).symm.trans hj
    exact ⟨hjk, hj', role_joinee (hrole j hjk), hun.2 j hj'⟩
  refine ⟨ls', hw, fun j hj he => ?_, fun j hj he => ?_, Busy.ran h.busy h.toPlaced hl hp hreg ho⟩
  · obtain ⟨hjk, hj', hg, hgk⟩ := hjoin j hj
    dsimp only at he
    rw [hg, role_status (hrole _ hgk)] at he
    exact hs.active j (h.back j hj' he) (by rwa [hlk])
  · obtain ⟨hjk, hj', hg, hgk⟩ := hjoin j hj
    dsimp only at he ⊢
    rw [hg, role_status (hrole _ hgk)] at he
    rw [hg, hpar _ hgk]
    exact h.parent j hj' he

/-- Who joins an exited thread is in the token queue after the step. -/
theorem back_ran (h : Joined s ls) {my j : ℕ} (hl : (s.locals t).live = true)
    (hp : (s.locals t).pending = i :: rest) (hown : s.JoinsOwn t i)
    (hc : ∀ p, i ≠ .childRegister p) (ho : s.own t rest i = some (d, l))
    (hw : Placed ⟨d, Function.update (s.others t i) t l, s.created i⟩ ls')
    (hs : Determ.Shift my s.determ ls d ls') (hmy : (s.locals t).threadIndex = my)
    (hj : (s.determ.entries j).status = .joining) (hj' : (d.entries j).status = .joining)
    (he : (d.entries (s.determ.entries j).joineeThreadIndex).status = .exit) : j ∈ ls' .active := by
  by_cases hg : (s.determ.entries (s.determ.entries j).joineeThreadIndex).status = .exit
  · have hja := h.back j hj hg
    by_cases hjm : j = my
    · subst hjm
      by_cases hx : i = .procExit
      · subst hx
        cases ho
        exact (h.queued.lists _).mem_of (hw.queued.lists _) hja
      exfalso
      by_cases hb : ∃ g, phase (s.locals t).pending = .joinBlock g
      · obtain ⟨g, hb⟩ := hb
        have hat := h.place t hl
        rw [hb, hmy] at hat
        obtain ⟨-, hgj, -⟩ := hat
        obtain rfl : i = .joinBlock g := by
          rw [hp] at hb
          unfold phase at hb
          split at hb <;> simp_all
        rw [hgj] at hg
        simp only [own, if_pos hg, hmy] at ho
        cases ho
        simp [Determ.setReady, Entries.setStatus] at hj'
      · refine h.busy t hl (Placed.enrolled_of hp hc hx) (fun g hph => hb ⟨g, hph⟩) ?_
        rw [hmy]
        exact hj
    · exact hs.active j hja hjm
  · rcases own_role ho hc (s.determ.entries j).joineeThreadIndex with
      hr | ⟨hx, -⟩ | ⟨_, _, -, -, -, -, hx⟩ | ⟨rfl, hgm, -⟩ | ⟨v, rfl, hgv, hcw, -⟩
    · exact absurd ((role_status hr).symm.trans he) hg
    · exact absurd he hx
    · exact absurd (hx.symm.trans he) (by rintro ⟨⟩)
    · have hat := h.place t hl
      rw [hp, hmy] at hat
      cases ho
      rw [hmy] at hgm hw
      obtain ⟨ls'', hq, -, -, hback⟩ := h.queued.deregisterThread (show my ∈ ls .active from hat)
      have hpar := h.parent j hj hg
      rw [hgm] at hpar
      rw [hpar] at hback
      exact (hq.lists _).mem_of (hw.queued.lists _) (hback hj hgm)
    · exact absurd hgv (hown (hgv ▸ hcw) j hj)

/-- The other instructions. -/
theorem ran (h : Joined s ls) (hl : (s.locals t).live = true)
    (hp : (s.locals t).pending = i :: rest) (hreg : s.Regular t i) (hown : s.JoinsOwn t i)
    (hc : ∀ p, i ≠ .childRegister p) (ho : s.own t rest i = some (d, l)) :
    ∃ ls', Joined ⟨d, Function.update (s.others t i) t l, s.created i⟩ ls' := by
  obtain ⟨ls', hw, hs⟩ := h.toPlaced.ran hl hp hreg ho
  obtain ⟨hid, hidx, -⟩ := own_entries ho hc
  obtain ⟨my, hmy⟩ : ∃ my, (s.locals t).threadIndex = my := ⟨_, rfl⟩
  have hs' : Determ.Shift my s.determ ls d ls' := by rwa [hidx, hmy] at hs
  have hpar : ∀ j, (d.entries j).tidParent = (s.determ.entries j).tidParent := fun j =>
    congrArg (fun x => x.2.2) (hid j)
  have hkept : ∀ {j}, (s.determ.entries j).status = .exit → (d.entries j).status = .exit := fun hj =>
    h.toPlaced.exit_kept hl hp ho hc (by rwa [hmy]) hj
  have hrole := own_role ho hc
  have hwas : ∀ j, (d.entries j).status = .joining →
      (d.entries j).role = (s.determ.entries j).role ∨
      ∃ v w, i = .detJoin v w ∧ j = my ∧
        (s.determ.entries (s.locals v).threadIndex).status ≠ .exit ∧
        (d.entries j).joineeThreadIndex = (s.locals v).threadIndex := by
    intro j hj
    rcases hrole j with hr | ⟨-, hne⟩ | ⟨v, w, hi, hjm, hne, hg, -⟩ | ⟨-, -, he⟩ | ⟨v, -, -, -, -, he⟩
    · exact .inl hr
    · exact absurd hj hne
    · exact .inr ⟨v, w, hi, hjm.trans hmy, hne, hg⟩
    · exact absurd (he.symm.trans hj) nofun
    · exact absurd (he.symm.trans hj) nofun
  refine ⟨ls', hw, fun j hj he => ?_, fun j hj he => ?_, Busy.ran h.busy h.toPlaced hl hp hreg ho⟩
  · rcases hwas j hj with hr | ⟨v, w, rfl, rfl, hne, hg⟩
    · have hj' := (role_status hr).symm.trans hj
      dsimp only at he
      rw [role_joinee hr] at he
      exact h.back_ran hl hp hown hc ho hw hs' hmy hj' hj he
    · exfalso
      dsimp only at he
      rw [hg] at he
      rcases hrole (s.locals v).threadIndex with hr | ⟨hx, -⟩ | ⟨_, _, -, -, -, -, hx⟩ | ⟨hx, -⟩ |
        ⟨_, hx, -⟩
      · exact hne ((role_status hr).symm.trans he)
      · exact hx he
      · exact absurd (hx.symm.trans he) nofun
      · cases hx
      · cases hx
  · dsimp only at hj he ⊢
    have hne : (s.determ.entries (d.entries j).joineeThreadIndex).status ≠ .exit :=
      fun hx => he (hkept hx)
    rw [hpar]
    rcases hwas j hj with hr | ⟨v, w, rfl, rfl, -, hg⟩
    · rw [role_joinee hr] at hne ⊢
      exact h.parent j ((role_status hr).symm.trans hj) hne
    · rw [hg] at hne ⊢
      exact (hown.resolve_left hne).trans hmy

/-- A joiner is brought back by the exit of its joinee. -/
theorem step {w : State} {a : Label} (h : Joined s ls) (hg : s.Next State.Regular a)
    (hown : s.Next State.JoinsOwn a) (hs : s.step a = some w) : ∃ ls', Joined w ls' := by
  cases a with
  | call t op =>
      obtain ⟨hl, hp, rfl⟩ := step_call hs
      exact ⟨ls, h.called hl hp⟩
  | run t =>
      obtain ⟨i, rest, d, l, hl, hp, ho, rfl⟩ := step_run hs
      have hreg : s.Regular t i := hg i (by simp [hp])
      by_cases hc : ∃ p, i = .childRegister p
      · obtain ⟨p, rfl⟩ := hc
        exact h.childRegister hl hp hreg ho
      · exact h.ran hl hp hreg (hown i (by simp [hp])) (fun p hip => hc ⟨p, hip⟩) ho

end Joined

theorem Opening.joined (h : Opening s) : ∃ ls, Joined s ls := by
  obtain ⟨ls, hp⟩ := h.placed
  have hj : ∀ i, (s.determ.entries i).status ≠ .joining := by
    obtain ⟨c, rfl⟩ | ⟨n, c, -, rfl⟩ := h
    · intro i hi
      change (if i = 0 then Status.ready else .condWaiting) = .joining at hi
      split at hi <;> cases hi
    · intro i hi
      change (if i < n then Status.ready else .condWaiting) = .joining at hi
      split at hi <;> cases hi
  exact ⟨ls, hp, fun i hi => absurd hi (hj i), fun i hi => absurd hi (hj i), fun u _ _ _ => hj _⟩

end State

/-! ## The law -/

/-- In a run under the condition a joiner is back in the token queue, at one place in it, if and only
if its joinee has exited. -/
theorem no_joiner_left {s w : State} {as : List Label} (hs : s.Opening)
    (hr : Run State.step (fun s a => s.Next State.Regular a ∧ s.Next State.JoinsOwn a) s as w) :
    ∃ L, w.determ.Lists .active L ∧ ∀ i, (w.determ.entries i).status = .joining →
      ((w.determ.entries (w.determ.entries i).joineeThreadIndex).status = .exit ↔ i ∈ L) := by
  have keep : ∀ s a w, (∃ ls, State.Joined s ls) →
      s.Next State.Regular a ∧ s.Next State.JoinsOwn a → s.step a = some w →
      ∃ ls, State.Joined w ls := by
    rintro s a w ⟨ls, h⟩ ⟨hreg, hown⟩ hstep
    exact h.step hreg hown hstep
  obtain ⟨ls, h⟩ := Run.invariant keep hr hs.joined
  refine ⟨ls .active, h.queued.lists .active, fun i hi => ⟨h.back i hi, fun hm => ?_⟩⟩
  by_contra hne
  exact h.queued.joining i hi hne hm

/-- `JoinsOwn` of a run without cancellations, as a test. -/
def joinsOwn (s : State) : Label → Bool
  | .call _ _ => true
  | .run t =>
      match (s.locals t).pending.head? with
      | some (.detJoin v _) =>
          (s.determ.entries (s.locals v).threadIndex).tidParent = (s.locals t).threadIndex
      | some (.detCancel _) => false
      | _ => true

theorem joinsOwn_next {s : State} {a : Label} (h : joinsOwn s a = true) : s.Next State.JoinsOwn a := by
  cases a with
  | call t op => trivial
  | run t =>
      intro i hi
      simp only [joinsOwn, Option.mem_def.mp hi] at h
      cases i with
      | detJoin v w => exact .inr (of_decide_eq_true h)
      | detCancel v => cases h
      | _ => trivial

theorem no_joiner_left_again : ∃ w L,
    Run State.step (fun s a => s.Next State.Regular a ∧ s.Next State.JoinsOwn a) (State.ring 2 4)
      (.call 1 (.join 2) :: Label.runs 1 1 ++ .call 2 .threadDeregister :: Label.runs 2 1 ++
        Label.runs 1 6 ++ Label.runs 2 4) w ∧
      w.determ.Lists .active L ∧ (w.determ.entries 0).status = .joining ∧ 0 ∈ L := by
  have hrun : (execGuarded State.step (fun s a => s.plain a = true ∧ joinsOwn s a = true)
      (State.ring 2 4) (.call 1 (.join 2) :: Label.runs 1 1 ++
        .call 2 .threadDeregister :: Label.runs 2 1 ++ Label.runs 1 6 ++ Label.runs 2 4)).any
      (fun w => decide ((w.determ.entries 0).status = .joining ∧
        (w.determ.entries 0).joineeThreadIndex = 1 ∧ (w.determ.entries 1).status = .exit)) = true := by
    decide +kernel
  obtain ⟨w, hr, hj, hjoinee, he⟩ := exists_run_of_any hrun
  have hg : ∀ s a, s.plain a = true ∧ joinsOwn s a = true →
      s.Next State.Regular a ∧ s.Next State.JoinsOwn a :=
    fun s a ⟨hp, hj⟩ => ⟨State.regular_of_plain hp, joinsOwn_next hj⟩
  obtain ⟨L, hL, h⟩ := no_joiner_left (.inr ⟨2, 4, Nat.two_pos, rfl⟩) (hr.mono hg)
  exact ⟨w, L, hr.mono hg, hL, hj, (h 0 hj).mp (hjoinee.symm ▸ he)⟩

/-- Creation, join and exit. -/
def forkJoinExit : Label → Bool
  | .call _ (.spawn _) | .call _ (.join _) | .call _ .threadDeregister | .run _ => true
  | _ => false

/-- Main creates threads 2 and 3, and joins thread 2, which joins thread 3: the exit of thread 3 looks
at its parent only. -/
theorem joiner_left :
    ¬ ∀ (c : ℕ) (as : List Label) (w : State),
      Run State.step (fun _ a => forkJoinExit a = true) (State.boot c) as w →
      ∃ L, w.determ.Lists .active L ∧ ∀ i, (w.determ.entries i).status = .joining →
        (w.determ.entries (w.determ.entries i).joineeThreadIndex).status = .exit → i ∈ L := by
  intro h
  have hrun : (execGuarded State.step (fun _ a => forkJoinExit a = true) (State.boot 4)
      (.call 1 (.spawn 2) :: Label.runs 1 6 ++ Label.runs 2 2 ++ Label.runs 1 2 ++
        .call 1 (.spawn 3) :: Label.runs 1 4 ++ Label.runs 3 2 ++ Label.runs 1 2 ++
        .call 1 (.join 2) :: Label.runs 1 4 ++ Label.runs 2 2 ++ Label.runs 3 2 ++
        .call 2 (.join 3) :: Label.runs 2 1 ++ .call 3 .threadDeregister :: Label.runs 3 1 ++
        Label.runs 2 6 ++ Label.runs 3 5)).any
      (fun w => decide (w.determ.activelist = none ∧ (w.determ.entries 1).status = .joining ∧
        (w.determ.entries (w.determ.entries 1).joineeThreadIndex).status = .exit)) = true := by
    decide +kernel
  obtain ⟨w, hr, ha, hj, he⟩ := exists_run_of_any hrun
  obtain ⟨L, hL, hw⟩ := h 4 _ w hr
  have hnil : L = [] := List.head?_eq_none_iff.mp (hL.head.symm.trans ha)
  exact List.not_mem_nil (hnil ▸ hw 1 hj he)

end Dthreads.Scheduler
