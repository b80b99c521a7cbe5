import Mathlib.Data.List.Nodup
import Dthreads.Transition.Agents

/-! # Lockstep

Agents that go through rounds together. In the first part of a round they work side by side; in the
second part each of them takes the token in its turn, and has the shared state to itself until it
puts the token. A fence separates the two parts. -/

namespace Dthreads.Transition

/-! ## Crews -/

/-- What an agent does next. -/
inductive Duty where
  /-- Work side by side with the others. -/
  | work
  /-- Work of an agent without company. -/
  | solo
  /-- Work that needs the token. -/
  | serial
  /-- Nobody else notices. -/
  | quiet
  | pass
  | take
  | put
  | leave
  deriving DecidableEq

namespace Duty

/-- The others may notice. -/
def loud : Duty → Bool
  | work | solo | serial => true
  | _ => false

end Duty

/-- Where an agent is in its round. -/
inductive Stage where
  | parallel
  | waiting
  | serial
  | departing
  | gone
  deriving DecidableEq

/-- What a move means for the round. -/
inductive Change where
  | stay
  | alone
  /-- Through the fence. -/
  | cross (g : Stage)
  | take
  | put
  | leave

namespace Change

variable {ι : Type*}

def ring (t : ι) (r : List ι) : Change → List ι
  | put => r.tail ++ [t]
  | leave => r.tail
  | _ => r

def crossings : Change → ℕ
  | cross _ => 1
  | _ => 0

def stage (g : Stage) : Change → Stage
  | cross g' => g'
  | take => .serial
  | put => .departing
  | leave => .gone
  | _ => g

def grants (t : ι) : Change → List ι
  | take => [t]
  | _ => []

/-- The move turns the ring. -/
def turns : Change → Bool
  | put | leave => true
  | _ => false

theorem ring_of_not_turns {c : Change} (h : c.turns = false) (t : ι) (r : List ι) :
    c.ring t r = r := by
  cases c <;> first | rfl | cases h

end Change

/-- An agent does in each stage what it is for. -/
def Stage.change : Stage → Duty → Option Change
  | .parallel, .work | .parallel, .quiet => some .stay
  | .parallel, .solo => some .alone
  | .parallel, .pass => some (.cross .waiting)
  | .waiting, .take => some .take
  | .serial, .work | .serial, .solo | .serial, .serial | .serial, .quiet => some .stay
  | .serial, .put => some .put
  | .serial, .leave => some .leave
  | .departing, .quiet => some .stay
  | .departing, .pass => some (.cross .parallel)
  | .gone, .quiet => some .stay
  | _, _ => none

/-- Agents on a shared state. A move may depend on whether the agent is alone. -/
structure Crew (σ ι : Type*) where
  duty : σ → ι → Option Duty
  act : Bool → σ → ι → Option σ

/-- The moves that may meet in a round commute. -/
structure Crew.Lawful {σ ι : Type*} (C : Crew σ ι) (Inv : σ → Prop) : Prop where
  keep : ∀ {s w t b}, Inv s → C.act b s t = some w → Inv w
  duty_of_ne : ∀ {s w t u b}, Inv s → C.act b s t = some w → u ≠ t → C.duty w u = C.duty s u
  flag : ∀ {s t d} (a b : Bool), Inv s → C.duty s t = some d → d.loud = false →
    C.act a s t = C.act b s t
  commute : ∀ {s v w t u d e a b}, Inv s → t ≠ u → C.duty s t = some d → C.duty s u = some e →
    (d.loud = true → e.loud = true → d = .work ∧ e = .work) →
      C.act a s t = some v → C.act b s u = some w → ∃ z, C.act b v u = some z ∧ C.act a w t = some z

/-! ## Rounds -/

/-- A crew in its rounds: the members of the ring from the token on, how often each has passed the
fence, and who was given the token so far. -/
structure Party (σ ι : Type*) where
  state : σ
  ring : List ι
  passed : ι → ℕ
  stage : ι → Stage
  grants : List ι

namespace Party

variable {σ ι : Type*} [DecidableEq ι] (C : Crew σ ι) {x y z : Party σ ι} {t u v : ι}

/-- All have come to the fence, and some may have passed it already. -/
def Gate (x : Party σ ι) (t : ι) : Prop :=
  ∀ u ∈ x.ring,
    x.passed u = x.passed t + 1 ∨ (x.passed u = x.passed t ∧ C.duty x.state u = some .pass)

def Admits (x : Party σ ι) (t : ι) : Change → Prop
  | .alone => x.ring = [t]
  | .cross _ => x.Gate C t
  | .take => x.ring.head? = some t
  | _ => True

instance (x : Party σ ι) (t : ι) : Decidable (x.Gate C t) :=
  inferInstanceAs (Decidable (∀ u ∈ x.ring, _ ∨ _))

instance (x : Party σ ι) (t : ι) : (c : Change) → Decidable (x.Admits C t c)
  | .alone => inferInstanceAs (Decidable (x.ring = [t]))
  | .cross _ => inferInstanceAs (Decidable (x.Gate C t))
  | .take => inferInstanceAs (Decidable (x.ring.head? = some t))
  | .stay | .put | .leave => .isTrue trivial

def after (x : Party σ ι) (t : ι) (c : Change) (s : σ) : Party σ ι where
  state := s
  ring := c.ring t x.ring
  passed := Function.update x.passed t (x.passed t + c.crossings)
  stage := Function.update x.stage t (c.stage (x.stage t))
  grants := x.grants ++ c.grants t

/-- The next move of `t`. -/
def step (x : Party σ ι) (t : ι) : Option (Party σ ι) :=
  ((C.duty x.state t).bind (x.stage t).change).bind fun c =>
    if x.Admits C t c then (C.act (x.ring = [t]) x.state t).map (x.after t c) else none

variable {C}

theorem step_iff : x.step C t = some y ↔
    ∃ d c s, C.duty x.state t = some d ∧ (x.stage t).change d = some c ∧ x.Admits C t c ∧
      C.act (x.ring = [t]) x.state t = some s ∧ x.after t c s = y := by
  simp only [step, Option.bind_eq_some_iff, Option.ite_none_right_eq_some, Option.map_eq_some_iff]
  constructor
  · rintro ⟨c, ⟨d, hd, hc⟩, ha, s, hs, rfl⟩
    exact ⟨d, c, s, hd, hc, ha, hs, rfl⟩
  · rintro ⟨d, c, s, hd, hc, ha, hs, rfl⟩
    exact ⟨c, ⟨d, hd, hc⟩, ha, s, hs, rfl⟩

end Party

/-! ## What the stages say -/

namespace Stage

/-- The moves of the stages. -/
inductive Moves : Stage → Duty → Change → Prop where
  | work : Moves .parallel .work .stay
  | solo : Moves .parallel .solo .alone
  | arrive : Moves .parallel .pass (.cross .waiting)
  | take : Moves .waiting .take .take
  | serial {d : Duty} (h : d.loud = true) : Moves .serial d .stay
  | put : Moves .serial .put .put
  | leave : Moves .serial .leave .leave
  | depart : Moves .departing .pass (.cross .parallel)
  | quiet {g : Stage} (h : g ≠ .waiting) : Moves g .quiet .stay

variable {g : Stage} {d : Duty} {c : Change}

theorem moves_of_change (h : g.change d = some c) : g.Moves d c := by
  cases g <;> cases d <;> cases h
  · exact .work
  · exact .solo
  · exact .quiet (by rintro ⟨⟩)
  · exact .arrive
  · exact .take
  · exact .serial rfl
  · exact .serial rfl
  · exact .serial rfl
  · exact .quiet (by rintro ⟨⟩)
  · exact .put
  · exact .leave
  · exact .quiet (by rintro ⟨⟩)
  · exact .depart
  · exact .quiet (by rintro ⟨⟩)

theorem change_of_moves (h : g.Moves d c) : g.change d = some c := by
  cases h with
  | serial hl => cases d <;> first | rfl | cases hl
  | quiet hg => cases g <;> first | rfl | exact absurd rfl hg
  | _ => rfl

namespace Moves

/-- Loud moves need the token, or are made side by side. -/
theorem loud (h : g.Moves d c) (hl : d.loud = true) :
    g = .serial ∨ (g = .parallel ∧ (d = .work ∨ c = .alone)) := by
  cases h with
  | work => exact .inr ⟨rfl, .inl rfl⟩
  | solo => exact .inr ⟨rfl, .inr rfl⟩
  | serial => exact .inl rfl
  | _ => cases hl

/-- Work and the like is no part of the round. -/
theorem stays (h : g.Moves d c) (hd : d = .work ∨ d = .serial ∨ d = .quiet) : c = .stay := by
  rcases hd with rfl | rfl | rfl <;> cases h <;> rfl

theorem turns (h : g.Moves d c) (ht : c.turns = true) : g = .serial := by
  cases h <;> first | rfl | cases ht

theorem cross {g' : Stage} (h : g.Moves d (.cross g')) :
    d = .pass ∧ (g' = .parallel ↔ g ≠ .parallel) ∧ g ≠ .gone ∧ g' ≠ .gone ∧ g' ≠ .serial := by
  cases h <;> simp

/-- Who does not pass the fence has other things to do. -/
theorem not_pass (h : g.Moves d c) (hc : c.crossings = 0) : d ≠ .pass := by
  rintro rfl
  cases h with
  | serial hl => cases hl
  | _ => cases hc

/-- Only the fence separates the parallel stage from the others. -/
theorem parallel (h : g.Moves d c) (hc : c.crossings = 0) :
    c.stage g = .parallel ↔ g = .parallel := by
  cases h with
  | arrive | depart => cases hc
  | _ => simp [Change.stage]

theorem serial_of (h : g.Moves d c) (hs : c.stage g = .serial) :
    (g = .serial ∧ c.turns = false) ∨ c = .take := by
  cases h <;> simp_all [Change.stage, Change.turns]

theorem gone (h : g.Moves d c) : c.stage g = .gone ↔ g = .gone ∨ c = .leave := by
  cases h <;> simp [Change.stage]

end Moves

end Stage

namespace Party

variable {σ ι : Type*} [DecidableEq ι] {C : Crew σ ι} {Inv : σ → Prop} {x y z : Party σ ι}
  {t u v : ι}

/-- A move of `t`, with what it means for the round. -/
structure Moved (C : Crew σ ι) (x : Party σ ι) (t : ι) (d : Duty) (c : Change) (s : σ) : Prop where
  duty : C.duty x.state t = some d
  moves : (x.stage t).Moves d c
  admits : x.Admits C t c
  act : C.act (x.ring = [t]) x.state t = some s

theorem moved_of_step (h : x.step C t = some y) :
    ∃ d c s, Moved C x t d c s ∧ x.after t c s = y := by
  obtain ⟨d, c, s, hd, hc, ha, hs, hy⟩ := step_iff.mp h
  exact ⟨d, c, s, ⟨hd, Stage.moves_of_change hc, ha, hs⟩, hy⟩

theorem step_of_moved {d : Duty} {c : Change} {s : σ} (h : Moved C x t d c s) :
    x.step C t = some (x.after t c s) :=
  step_iff.mpr ⟨d, c, s, h.duty, Stage.change_of_moves h.moves, h.admits, h.act, rfl⟩

/-! ## The rounds in order -/

/-- The token is with the first of the ring, and no member is more than one crossing ahead of
another, which is at the fence then. -/
structure Orderly (C : Crew σ ι) (Inv : σ → Prop) (x : Party σ ι) : Prop where
  good : Inv x.state
  nodup : x.ring.Nodup
  member : ∀ t, t ∈ x.ring ↔ x.stage t ≠ .gone
  holder : ∀ t, x.stage t = .serial → x.ring.head? = some t
  parity : ∀ t ∈ x.ring, x.passed t % 2 = 0 ↔ x.stage t = .parallel
  close : ∀ t ∈ x.ring, ∀ u ∈ x.ring, x.passed t ≤ x.passed u ∨
    (x.passed t = x.passed u + 1 ∧ C.duty x.state u = some .pass)

namespace Orderly

variable {d e : Duty} {c c' : Change} {s s' : σ}

omit [DecidableEq ι] in
theorem mem (h : Orderly C Inv x) {g : Stage} (hs : x.stage t = g) (hg : g ≠ .gone) : t ∈ x.ring :=
  (h.member t).mpr (hs ▸ hg)

omit [DecidableEq ι] in
/-- Who works with the token has nobody at work beside it. -/
theorem apart (h : Orderly C Inv x) (ht : x.stage t = .serial) (hd : C.duty x.state t ≠ some .pass)
    (hu : x.stage u = .parallel) : C.duty x.state u = some .pass := by
  have htm := h.mem ht (by rintro ⟨⟩)
  have hum := h.mem hu (by rintro ⟨⟩)
  have hne : x.passed t ≠ x.passed u := by
    intro he
    have hpar := (h.parity u hum).mpr hu
    rw [← he, h.parity t htm, ht] at hpar
    cases hpar
  rcases h.close u hum t htm with hle | ⟨-, hp⟩
  · rcases h.close t htm u hum with hle' | ⟨-, hp⟩
    · exact absurd (Nat.le_antisymm hle' hle) hne
    · exact hp
  · exact absurd hp hd

/-- The move turns the ring if it is the token's holder who makes it. -/
theorem mem_ring (h : Orderly C Inv x) (hm : Moved C x t d c s) :
    v ∈ (x.after t c s).ring ↔ v ∈ x.ring ∧ ¬(v = t ∧ c = .leave) := by
  have hhead : c.turns = true → ∃ r, x.ring = t :: r ∧ t ∉ r := by
    intro hc
    obtain ⟨r, hr⟩ := List.head?_eq_some_iff.mp (h.holder t (hm.moves.turns hc))
    have hn := h.nodup
    rw [hr] at hn
    exact ⟨r, hr, (List.nodup_cons.mp hn).1⟩
  cases c with
  | put =>
      obtain ⟨r, hr, -⟩ := hhead rfl
      simp [after, Change.ring, hr, or_comm]
  | leave =>
      obtain ⟨r, hr, htr⟩ := hhead rfl
      simp only [after, Change.ring, hr, List.tail_cons, List.mem_cons, and_true]
      constructor
      · intro hv
        exact ⟨.inr hv, fun he => htr (he ▸ hv)⟩
      · rintro ⟨hv | hv, hne⟩
        · exact absurd hv hne
        · exact hv
  | _ => simp [after, Change.ring]

theorem passed_self : (x.after t c s).passed t = x.passed t + c.crossings := Function.update_self ..

theorem passed_of_ne (hu : u ≠ t) : (x.after t c s).passed u = x.passed u :=
  Function.update_of_ne hu ..

theorem stage_self : (x.after t c s).stage t = c.stage (x.stage t) := Function.update_self ..

theorem stage_of_ne (hu : u ≠ t) : (x.after t c s).stage u = x.stage u :=
  Function.update_of_ne hu ..

/-- Only the holder of the token turns the ring. -/
theorem not_turns (h : Orderly C Inv x) (hm : Moved C x t d c s) (hu : x.ring.head? = some u)
    (htu : t ≠ u) : c.turns = false := by
  rw [Bool.eq_false_iff]
  intro hc
  exact htu (Option.some.inj ((h.holder t (hm.moves.turns hc)).symm.trans hu))

theorem nodup_after (h : Orderly C Inv x) (hm : Moved C x t d c s) :
    (x.after t c s).ring.Nodup := by
  cases c with
  | put =>
      obtain ⟨r, hr⟩ := List.head?_eq_some_iff.mp (h.holder t (hm.moves.turns rfl))
      have hn := h.nodup
      rw [hr] at hn
      simp only [after, Change.ring, hr, List.tail_cons]
      exact List.nodup_append_comm.mpr hn
  | leave => exact h.nodup.sublist (List.tail_sublist _)
  | _ => exact h.nodup

theorem member_after (h : Orderly C Inv x) (hm : Moved C x t d c s) (v : ι) :
    v ∈ (x.after t c s).ring ↔ (x.after t c s).stage v ≠ .gone := by
  rw [h.mem_ring hm, h.member v]
  by_cases hvt : v = t
  · subst hvt
    rw [stage_self, ne_eq, ne_eq, hm.moves.gone]
    tauto
  · rw [stage_of_ne hvt]
    tauto

theorem holder_after (h : Orderly C Inv x) (hm : Moved C x t d c s)
    (hv : (x.after t c s).stage v = .serial) : (x.after t c s).ring.head? = some v := by
  by_cases hvt : v = t
  · subst hvt
    rw [stage_self] at hv
    rcases hm.moves.serial_of hv with ⟨hser, hturn⟩ | rfl
    · rw [after, Change.ring_of_not_turns hturn]
      exact h.holder v hser
    · exact hm.admits
  · rw [stage_of_ne hvt] at hv
    have hhead := h.holder v hv
    rw [after, Change.ring_of_not_turns (h.not_turns hm hhead (Ne.symm hvt))]
    exact hhead

theorem parity_after (h : Orderly C Inv x) (hm : Moved C x t d c s)
    (hv : v ∈ (x.after t c s).ring) :
    (x.after t c s).passed v % 2 = 0 ↔ (x.after t c s).stage v = .parallel := by
  have hpar := h.parity v ((h.mem_ring hm).mp hv).1
  by_cases hvt : v = t
  · subst hvt
    rw [passed_self, stage_self]
    cases c with
    | cross g =>
        obtain ⟨-, hg, -⟩ := hm.moves.cross
        have hc : (Change.cross g).crossings = 1 := rfl
        have hstage : (Change.cross g).stage (x.stage v) = g := rfl
        rw [hc, hstage, hg, ne_eq, ← hpar]
        omega
    | _ =>
        rw [hm.moves.parallel rfl, ← hpar]
        rfl
  · rw [passed_of_ne hvt, stage_of_ne hvt]
    exact hpar

theorem passed_of_not_crossing (hc : c.crossings = 0) (u : ι) :
    (x.after t c s).passed u = x.passed u := by
  by_cases hut : u = t
  · subst hut
    rw [passed_self, hc, Nat.add_zero]
  · exact passed_of_ne hut

/-- Who passes the fence is as far as the others then, or ahead of them by one. -/
theorem close_after (hC : C.Lawful Inv) (h : Orderly C Inv x) (hm : Moved C x t d c s)
    (hv : v ∈ (x.after t c s).ring) (hu : u ∈ (x.after t c s).ring) :
    (x.after t c s).passed v ≤ (x.after t c s).passed u ∨
      ((x.after t c s).passed v = (x.after t c s).passed u + 1 ∧ C.duty s u = some .pass) := by
  obtain ⟨hvx, -⟩ := (h.mem_ring hm).mp hv
  obtain ⟨hux, -⟩ := (h.mem_ring hm).mp hu
  have hduty : u ≠ t → C.duty s u = C.duty x.state u := hC.duty_of_ne h.good hm.act
  have hclose := h.close v hvx u hux
  by_cases hcross : c.crossings = 0
  · rw [passed_of_not_crossing hcross, passed_of_not_crossing hcross]
    refine hclose.imp_right fun hp => ⟨hp.1, ?_⟩
    by_cases hut : u = t
    · subst hut
      exact absurd (Option.some.inj (hm.duty.symm.trans hp.2)) (hm.moves.not_pass hcross)
    · rw [hduty hut]
      exact hp.2
  · obtain ⟨g, rfl⟩ : ∃ g, c = .cross g := by
      cases c with
      | cross g => exact ⟨g, rfl⟩
      | _ => exact absurd rfl hcross
    have hc : (Change.cross g).crossings = 1 := rfl
    have hgate : x.Gate C t := hm.admits
    by_cases hvt : v = t
    · subst hvt
      rw [passed_self, hc]
      by_cases huv : u = v
      · subst huv
        rw [passed_self, hc]
        exact .inl (Nat.le_refl _)
      · rw [passed_of_ne huv, hduty huv]
        rcases hgate u hux with hp | ⟨hp, hd⟩
        · exact .inl (Nat.le_of_eq hp.symm)
        · exact .inr ⟨by rw [hp], hd⟩
    · rw [passed_of_ne hvt]
      by_cases hut : u = t
      · subst hut
        rw [passed_self, hc]
        rcases hgate v hvx with hp | ⟨hp, -⟩
        · exact .inl (Nat.le_of_eq hp)
        · exact .inl (Nat.le_succ_of_le (Nat.le_of_eq hp))
      · rw [passed_of_ne hut, hduty hut]
        exact hclose

/-- A move keeps the order. -/
theorem step (hC : C.Lawful Inv) (h : Orderly C Inv x) (hs : x.step C t = some y) :
    Orderly C Inv y := by
  obtain ⟨d, c, s, hm, rfl⟩ := moved_of_step hs
  exact {
    good := hC.keep h.good hm.act
    nodup := h.nodup_after hm
    member := h.member_after hm
    holder := fun _ hv => h.holder_after hm hv
    parity := fun _ hv => h.parity_after hm hv
    close := fun _ hv _ hu => h.close_after hC hm hv hu }

/-! ## Two moves -/

/-- Only one agent turns the ring or takes the token. -/
theorem turns_alone (h : Orderly C Inv x) (hm : Moved C x t d c s) (hm' : Moved C x u e c' s')
    (htu : t ≠ u) (hc : c.turns = true) : c'.turns = false ∧ c' ≠ .take := by
  have hhead := h.holder t (hm.moves.turns hc)
  refine ⟨h.not_turns hm' hhead htu.symm, ?_⟩
  rintro rfl
  exact htu (Option.some.inj (hhead.symm.trans hm'.admits))

/-- Two loud moves are moves of the parallel part. -/
theorem work_of_loud (h : Orderly C Inv x) (hm : Moved C x t d c s) (hm' : Moved C x u e c' s')
    (htu : t ≠ u) (hd : d.loud = true) (he : e.loud = true) : d = .work ∧ e = .work := by
  have hnot : ∀ {v : ι} {d : Duty}, C.duty x.state v = some d → d.loud = true →
      C.duty x.state v ≠ some .pass := by
    rintro v d hv hl hp
    obtain rfl := Option.some.inj (hv.symm.trans hp)
    cases hl
  have halone : ∀ {v w : ι}, v ≠ w → x.ring = [v] → x.stage w = .gone := by
    intro v w hne hr
    by_contra hg
    have hw := (h.member w).mpr hg
    rw [hr, List.mem_singleton] at hw
    exact hne hw.symm
  rcases hm.moves.loud hd with hs | ⟨hp, hwork⟩
  · rcases hm'.moves.loud he with hs' | ⟨hp', -⟩
    · exact absurd (Option.some.inj ((h.holder t hs).symm.trans (h.holder u hs'))) htu
    · exact absurd (h.apart hs (hnot hm.duty hd) hp') (hnot hm'.duty he)
  · rcases hm'.moves.loud he with hs' | ⟨hp', hwork'⟩
    · exact absurd (h.apart hs' (hnot hm'.duty he) hp) (hnot hm.duty hd)
    · refine ⟨hwork.resolve_right ?_, hwork'.resolve_right ?_⟩
      · rintro rfl
        have hg := halone htu hm.admits
        rw [hp'] at hg
        cases hg
      · rintro rfl
        have hg := halone htu.symm hm'.admits
        rw [hp] at hg
        cases hg

/-- A loud move does not see the ring turn. -/
theorem still_of_loud (h : Orderly C Inv x) (hm : Moved C x t d c s) (hm' : Moved C x u e c' s')
    (htu : t ≠ u) (he : e.loud = true) : c.turns = false := by
  rw [Bool.eq_false_iff]
  intro hc
  have hser := hm.moves.turns hc
  have hd : C.duty x.state t ≠ some .pass := by
    rw [hm.duty]
    intro hp
    obtain rfl := Option.some.inj hp
    have hmoves := hm.moves
    rw [hser] at hmoves
    cases hmoves with
    | serial hl => cases hl
  rcases hm'.moves.loud he with hs' | ⟨hp', -⟩
  · exact htu (Option.some.inj ((h.holder t hser).symm.trans (h.holder u hs')))
  · have hp := h.apart hser hd hp'
    rw [hm'.duty] at hp
    obtain rfl := Option.some.inj hp
    cases he

/-- The gate stays open for an agent when another one moves. -/
theorem gate_after (hC : C.Lawful Inv) (h : Orderly C Inv x) (hm : Moved C x t d c s)
    (hum : u ∈ x.ring) (htu : t ≠ u) (hgate : x.Gate C u) : (x.after t c s).Gate C u := by
  intro v hv
  have hvx := ((h.mem_ring hm).mp hv).1
  have hstate : (x.after t c s).state = s := rfl
  rw [passed_of_ne htu.symm, hstate]
  by_cases hvt : v = t
  · subst hvt
    rw [passed_self]
    rcases hgate v hvx with hp | ⟨hp, hd⟩
    · -- a member ahead of another one does not come to the fence again
      have hcross : c.crossings = 0 := by
        by_contra hne
        cases c with
        | cross g' =>
            have hback : x.Gate C v := hm.admits
            rcases hback u hum with hq | ⟨hq, -⟩ <;> omega
        | _ => exact hne rfl
      exact .inl (by omega)
    · obtain rfl := Option.some.inj (hm.duty.symm.trans hd)
      have hcross : c.crossings = 1 := by
        by_contra hne
        cases c with
        | cross g' => exact hne rfl
        | _ => exact hm.moves.not_pass rfl rfl
      exact .inl (by omega)
  · rw [passed_of_ne hvt, hC.duty_of_ne h.good hm.act hvt]
    exact hgate v hvx

/-- What an agent may do it may still do after a move of another one. -/
theorem admits_after (hC : C.Lawful Inv) (h : Orderly C Inv x) (hm : Moved C x t d c s)
    (hm' : Moved C x u e c' s') (htu : t ≠ u) : (x.after t c s).Admits C u c' := by
  have hadmits := hm'.admits
  cases c' with
  | alone =>
      have hring : x.ring = [u] := hadmits
      have hturn : c.turns = false := h.not_turns hm (by rw [hring]; rfl) htu
      change c.ring t x.ring = [u]
      rw [Change.ring_of_not_turns hturn, hring]
  | take =>
      have hhead : x.ring.head? = some u := hadmits
      have hturn : c.turns = false := h.not_turns hm hhead htu
      change (c.ring t x.ring).head? = some u
      rw [Change.ring_of_not_turns hturn, hhead]
  | cross g => exact h.gate_after hC hm ((h.member u).mpr hm'.moves.cross.2.2.1) htu hadmits
  | stay | put | leave => trivial

omit [DecidableEq ι] in
theorem ring_comm {r : List ι} (hc : c.turns = true → c'.turns = false) :
    c'.ring u (c.ring t r) = c.ring t (c'.ring u r) := by
  by_cases h : c.turns = true
  · rw [Change.ring_of_not_turns (hc h), Change.ring_of_not_turns (hc h)]
  · rw [Bool.not_eq_true] at h
    rw [Change.ring_of_not_turns h, Change.ring_of_not_turns h]

theorem after_comm (htu : t ≠ u) (hring : c.turns = true → c'.turns = false)
    (hgrant : c = .take → c' ≠ .take) (w : σ) :
    (x.after t c s).after u c' w = (x.after u c' s').after t c w := by
  have hgrants : c.grants t ++ c'.grants u = c'.grants u ++ c.grants t := by
    cases c with
    | take =>
        cases c' with
        | take => exact absurd rfl (hgrant rfl)
        | _ => rfl
    | _ => exact (List.append_nil _).symm
  simp only [after, ring_comm hring, Function.update_of_ne htu, Function.update_of_ne htu.symm,
    Function.update_comm htu, List.append_assoc, hgrants]

/-- The move of `u` after a move of `t`. -/
theorem moved_after (hC : C.Lawful Inv) (h : Orderly C Inv x) (hm : Moved C x t d c s)
    (hm' : Moved C x u e c' s') (htu : t ≠ u) {w : σ} (hw : C.act (x.ring = [u]) s u = some w) :
    Moved C (x.after t c s) u e c' w := by
  have hduty : C.duty s u = some e :=
    (hC.duty_of_ne h.good hm.act htu.symm).trans hm'.duty
  refine ⟨hduty, ?_, h.admits_after hC hm hm' htu, ?_⟩
  · rw [stage_of_ne htu.symm]
    exact hm'.moves
  · by_cases he : e.loud = true
    · have hring : (x.after t c s).ring = x.ring :=
        Change.ring_of_not_turns (h.still_of_loud hm hm' htu he) t x.ring
      rw [hring]
      exact hw
    · rw [Bool.not_eq_true] at he
      exact (hC.flag _ _ (hC.keep h.good hm.act) hduty he).trans hw

/-- The moves of two agents commute. -/
theorem commute (hC : C.Lawful Inv) (h : Orderly C Inv x) (htu : t ≠ u) (hy : x.step C t = some y)
    (hz : x.step C u = some z) : ∃ w, y.step C u = some w ∧ z.step C t = some w := by
  obtain ⟨d, c, s, hm, rfl⟩ := moved_of_step hy
  obtain ⟨e, c', s', hm', rfl⟩ := moved_of_step hz
  obtain ⟨w, hw, hw'⟩ := hC.commute h.good htu hm.duty hm'.duty (h.work_of_loud hm hm' htu)
    hm.act hm'.act
  have hfirst := step_of_moved (h.moved_after hC hm hm' htu hw)
  have hsecond := step_of_moved (h.moved_after hC hm' hm htu.symm hw')
  have hring : c.turns = true → c'.turns = false := fun hc => (h.turns_alone hm hm' htu hc).1
  have hgrant : c = .take → c' ≠ .take := by
    rintro rfl rfl
    exact htu (Option.some.inj (Eq.trans (Eq.symm hm.admits) hm'.admits))
  refine ⟨_, hfirst, ?_⟩
  rw [hsecond, after_comm htu hring hgrant]

end Orderly

/-- The agent is not where it should be for what it does next. -/
def Barred (C : Crew σ ι) (x : Party σ ι) (t : ι) : Prop :=
  (C.duty x.state t).bind (x.stage t).change = none

/-- Only the agent itself could change that, and it does not move. -/
theorem Barred.exec (hC : C.Lawful Inv) (h : Orderly C Inv x) (hb : x.Barred C t) {ts : List ι}
    (hx : Transition.exec (step C) x ts = some y) :
    t ∉ ts ∧ C.duty y.state t = C.duty x.state t ∧ y.stage t = x.stage t := by
  induction ts generalizing x with
  | nil =>
      obtain rfl : x = y := by simpa using hx
      exact ⟨List.not_mem_nil, rfl, rfl⟩
  | cons u ts ih =>
      rw [exec_cons, Option.bind_eq_some_iff] at hx
      obtain ⟨z, hz, hx⟩ := hx
      obtain ⟨d, c, s, hm, rfl⟩ := moved_of_step hz
      have htu : t ≠ u := by
        rintro rfl
        rw [Barred, hm.duty, Option.bind_some, Stage.change_of_moves hm.moves] at hb
        cases hb
      have hduty : C.duty s t = C.duty x.state t := hC.duty_of_ne h.good hm.act htu
      have hstage : (x.after u c s).stage t = x.stage t := Orderly.stage_of_ne htu
      have hb' : (x.after u c s).Barred C t := by
        rw [Barred, hstage]
        exact (congrArg (Option.bind · _) hduty).trans hb
      obtain ⟨hts, hd, hg⟩ := ih (h.step hC hz) hb' hx
      refine ⟨fun hmem => ?_, hd.trans hduty, hg.trans hstage⟩
      rcases List.mem_cons.mp hmem with he | hmem
      · exact htu he
      · exact hts hmem

end Party

end Dthreads.Transition
