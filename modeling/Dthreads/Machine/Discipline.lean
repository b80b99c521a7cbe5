import Dthreads.Machine.Crew
import Dthreads.Scheduler.Crossing

/-! # Code that fits its stage

The instructions that a thread has left take it through the stages of a round, so that it comes to
its own code again side by side with the others, or as the holder of the token. -/

namespace Dthreads

open Scheduler Transition

namespace Machine

/-- The thread runs its own code here, and `_token_holding` tells whether it has the token. -/
def AtHome (g : Transition.Stage) (holding : Bool) : Prop :=
  (g = .parallel ∧ holding = false) ∨ (g = .serial ∧ holding = true)

theorem AtHome.not_waiting {g : Transition.Stage} {holding : Bool} (h : AtHome g holding) :
    g ≠ .waiting := by
  rcases h with ⟨rfl, -⟩ | ⟨rfl, -⟩ <;> exact nofun

/-- A thread in stage `g`, whose `_token_holding` is `holding`, runs these instructions. Without the
token it takes a mutex only if it is `alone`. -/
def Fits (alone : Prop) : Transition.Stage → Bool → List Instr → Prop
  | g, holding, [] => AtHome g holding
  | g, holding, i :: rest =>
      match i with
      | .fenceEnter _ =>
          (g = .parallel ∧ Fits alone .waiting holding rest) ∨
            (g = .departing ∧ Fits alone .parallel holding rest)
      | .getToken => g = .waiting ∧ Fits alone .serial holding rest
      | .putToken => g = .serial ∧ Fits alone .departing holding rest
      | .deregister => g = .serial ∧ rest = [.procExit]
      | .procExit => g = .gone ∧ rest = []
      | .setTokenHolding b => g ≠ .waiting ∧ g ≠ .gone ∧ Fits alone g b rest
      | .atomicEnd | .finalcommit _ => g = .serial ∧ Fits alone g holding rest
      | .atomicBegin => (g = .serial ∨ g = .departing) ∧ Fits alone g holding rest
      | .countLock | .discountLock | .lockRelease _ => AtHome g holding ∧ Fits alone g holding rest
      | .lockIsowner _ | .isSingleWorkingThread _ | .getLockAgain _ | .endCriticalSection =>
          AtHome g holding ∧ rest = []
      | .lockTest _ .direct | .lockSet _ .direct =>
          AtHome g holding ∧ (g = .parallel → alone) ∧ rest = []
      | .lockTest _ .retry | .lockSet _ .retry => g = .serial ∧ holding = true ∧ rest = []
      | _ => False

variable {p q : Prop} {g : Transition.Stage} {holding : Bool} {i : Instr} {is rest : List Instr}
  {c : Change} {l l' : Local} {d d' : Determ} {t : Tid}

namespace Fits

theorem mono (hpq : p → q) (h : Fits p g holding is) : Fits q g holding is := by
  induction is generalizing g holding with
  | nil => exact h
  | cons i rest ih =>
      cases i with
      | lockTest m k => cases k <;> simp only [Fits] at h ⊢ <;> grind
      | lockSet m k => cases k <;> simp only [Fits] at h ⊢ <;> grind
      | _ => simp only [Fits] at h ⊢ <;> grind

/-- Who has left takes no mutex. -/
theorem gone (h : Fits p .gone holding is) : Fits q .gone holding is := by
  cases is with
  | nil => exact h
  | cons i rest =>
      cases i with
      | lockTest m k | lockSet m k => cases k <;> simp [Fits, AtHome] at h
      | setTokenHolding b => exact absurd rfl h.2.1
      | procExit => exact h
      | _ => simp [Fits, AtHome] at h

/-- Only the fence itself goes into the fence. -/
theorem outside (h : Fits p g holding is) : outside is = true := by
  cases is with
  | nil => rfl
  | cons i rest => cases i <;> first | rfl | exact h.elim

/-- The next instruction is one of the stage. -/
theorem change (h : Fits p g holding (i :: rest)) :
    ∃ d c, i.duty = some d ∧ g.change d = some c ∧ (c = .alone → p) := by
  cases i with
  | fenceEnter k =>
      rcases h with ⟨rfl, -⟩ | ⟨rfl, -⟩
      · exact ⟨_, _, rfl, rfl, nofun⟩
      · exact ⟨_, _, rfl, rfl, nofun⟩
  | getToken | putToken | deregister | procExit | atomicEnd | finalcommit =>
      obtain ⟨rfl, -⟩ := h
      exact ⟨_, _, rfl, rfl, nofun⟩
  | setTokenHolding b =>
      obtain ⟨hg, -⟩ := h
      exact ⟨_, .stay, rfl, Transition.Stage.change_of_moves (.quiet hg), nofun⟩
  | atomicBegin => rcases h with ⟨rfl | rfl, -⟩ <;> exact ⟨_, _, rfl, rfl, nofun⟩
  | countLock | discountLock | lockRelease | lockIsowner | isSingleWorkingThread | getLockAgain
  | endCriticalSection =>
      rcases h with ⟨⟨rfl, -⟩ | ⟨rfl, -⟩, -⟩ <;> exact ⟨_, _, rfl, rfl, nofun⟩
  | lockTest m k | lockSet m k =>
      cases k with
      | direct =>
          rcases h with ⟨⟨rfl, -⟩ | ⟨rfl, -⟩, hp, -⟩
          · exact ⟨_, _, rfl, rfl, fun _ => hp rfl⟩
          · exact ⟨_, _, rfl, rfl, nofun⟩
      | retry =>
          obtain ⟨rfl, -⟩ := h
          exact ⟨_, _, rfl, rfl, nofun⟩
      | condWait => exact h.elim
  | _ => exact h.elim

/-- The pages are driven in the same stage. -/
theorem page {ph : Memory.Phase} (h : Fits p g holding (i :: rest)) (hd : drives i ph = true) :
    g.change i.pageDuty = some .stay := by
  cases i with
  | atomicEnd | finalcommit | deregister | procExit =>
      obtain ⟨rfl, -⟩ := h
      rfl
  | atomicBegin => rcases h with ⟨rfl | rfl, -⟩ <;> rfl
  | _ => exact absurd hd (by unfold drives; simp)

/-- What is left of `mutex_lock` when it has to wait for the token. -/
theorem getLockAgain {m : Obj} (h : AtHome g l.tokenHolding) :
    Fits p g l.tokenHolding (l.getLockAgain m) := by
  unfold Local.getLockAgain
  rcases h with ⟨rfl, hb⟩ | ⟨rfl, hb⟩
  · simp [hb, Local.waitToken, Local.waitFence, Fits]
  · simp [hb, Fits]

theorem lockFailed {m : Obj} {k : Caller} (h : Fits p g holding [.lockTest m k]) :
    Fits p g holding (Local.lockFailed m k) := by
  cases k with
  | direct => exact ⟨h.1, rfl⟩
  | retry =>
      obtain ⟨rfl, rfl, -⟩ := h
      simp [Local.lockFailed, Local.waitFence, Fits, AtHome]
  | condWait => exact h.elim

theorem rest_nil {m : Obj} {k : Caller} (h : Fits p g holding (.lockTest m k :: rest)) :
    rest = [] := by
  cases k with
  | direct => exact h.2.2
  | retry => exact h.2.2
  | condWait => exact h.elim

theorem endCriticalSection (h : AtHome g l.tokenHolding) :
    Fits p g l.tokenHolding l.endCriticalSection := by
  unfold Local.endCriticalSection
  split
  · rename_i hb
    rcases h with ⟨-, hn⟩ | ⟨rfl, -⟩
    · exact absurd (hb.2.symm.trans hn) nofun
    · simp [Local.waitFence, Fits, AtHome]
  · exact h

/-- A call fits, unless it exits with the token. -/
theorem program {k : Call} (h : AtHome g l.tokenHolding) (hf : l.fenceEnabled = true)
    (hk : (∃ w, k = .exit w) → l.tokenHolding = false) :
    Fits p g l.tokenHolding (l.program k.op) := by
  cases k with
  | lock m =>
      simp only [Call.op, Local.program, Local.mutexLock, Local.wakeChildren, hf, if_true]
      exact ⟨h, h, rfl⟩
  | unlock m =>
      simp only [Call.op, Local.program, Local.mutexUnlock, hf, if_true]
      exact ⟨h, h, h, rfl⟩
  | exit w =>
      have hb := hk ⟨w, rfl⟩
      rcases h with ⟨rfl, -⟩ | ⟨-, hn⟩
      · simp [Call.op, Local.program, Local.threadDeregister, Local.waitToken, Local.waitFence,
          Fits]
      · exact absurd (hb.symm.trans hn) Bool.false_ne_true

/-- An instruction that stays in its stage. -/
theorem stay (h : i.duty.bind g.change = some c)
    (hi : ∀ d ∈ i.duty, d = .work ∨ d = .solo ∨ d = .quiet) : c.stage g = g := by
  obtain ⟨d, hd, hc⟩ := Option.bind_eq_some_iff.mp h
  have hm := Transition.Stage.moves_of_change hc
  rcases hi d hd with rfl | rfl | rfl <;> cases hm <;> rfl

/-- A step leaves code that fits the stage it leads to. -/
theorem effect {a : Bool} (h : Fits (a = true) g l.tokenHolding (i :: rest))
    (he : effect a d l t rest i = some (d', l')) (hc : i.duty.bind g.change = some c)
    (hm : ∀ m ∈ i.mutex, d.Shared m) (hi : i ≠ .procExit) :
    Fits (a = true) (c.stage g) l'.tokenHolding l'.pending := by
  have hgoto : ∀ {is : List Instr}, (Fits (a = true) g l.tokenHolding is) →
      Fits (a = true) g (l.goto (is ++ [])).tokenHolding (l.goto (is ++ [])).pending := by
    intro is hf
    rw [List.append_nil]
    exact hf
  cases i with
  | fenceEnter k =>
      obtain ⟨-, rfl⟩ := Prod.mk.inj (Option.some.inj he)
      rcases h with ⟨rfl, h⟩ | ⟨rfl, h⟩ <;> obtain rfl := Option.some.inj hc <;> exact h
  | getToken | putToken =>
      obtain ⟨-, rfl⟩ := Prod.mk.inj (Option.some.inj he)
      obtain ⟨rfl, h⟩ := h
      obtain rfl := Option.some.inj hc
      exact h
  | deregister =>
      obtain ⟨-, rfl⟩ := Prod.mk.inj (Option.some.inj he)
      obtain ⟨rfl, rfl⟩ := h
      obtain rfl := Option.some.inj hc
      exact ⟨rfl, rfl⟩
  | procExit => exact absurd rfl hi
  | setTokenHolding b =>
      obtain ⟨-, rfl⟩ := Prod.mk.inj (Option.some.inj he)
      rw [stay hc (by simp [Instr.duty])]
      exact h.2.2
  | atomicEnd | finalcommit | atomicBegin | countLock | discountLock | lockRelease =>
      obtain ⟨-, rfl⟩ := Prod.mk.inj (Option.some.inj he)
      rw [stay hc (by simp [Instr.duty])]
      exact h.2
  | lockIsowner m =>
      obtain ⟨-, rfl⟩ := Prod.mk.inj (Option.some.inj he)
      rw [stay hc (by simp [Instr.duty]), lockIsowner_of_shared (hm m rfl)]
      exact h
  | isSingleWorkingThread m =>
      obtain ⟨-, rfl⟩ := Prod.mk.inj (Option.some.inj he)
      rw [stay hc (by simp [Instr.duty])]
      cases a with
      | true => exact ⟨h.1, fun _ => rfl, h.2⟩
      | false => exact h
  | getLockAgain m =>
      obtain ⟨-, rfl⟩ := Prod.mk.inj (Option.some.inj he)
      rw [stay hc (by simp [Instr.duty])]
      obtain ⟨hg, rfl⟩ := h
      exact hgoto (.getLockAgain hg)
  | endCriticalSection =>
      obtain ⟨-, rfl⟩ := Prod.mk.inj (Option.some.inj he)
      rw [stay hc (by simp [Instr.duty])]
      obtain ⟨hg, rfl⟩ := h
      exact hgoto (.endCriticalSection hg)
  | lockTest m k =>
      rw [stay hc (by simp [Instr.duty])]
      have hset : Fits (a = true) g l.tokenHolding (.lockSet m k :: rest) := by
        cases k <;> exact h
      have hfail : Fits (a = true) g l.tokenHolding (Local.lockFailed m k ++ rest) := by
        obtain rfl := rest_nil h
        rw [List.append_nil]
        exact lockFailed h
      simp only [Machine.effect, Instr.inner, State.own, if_true] at he
      split at he <;> obtain ⟨-, rfl⟩ := Prod.mk.inj (Option.some.inj he)
      · exact hset
      · exact hfail
  | lockSet m k =>
      rw [stay hc (by simp [Instr.duty])]
      have htest : Fits (a = true) g l.tokenHolding (.lockTest m k :: rest) := by
        cases k <;> exact h
      obtain rfl := rest_nil htest
      have hnil : Fits (a = true) g l.tokenHolding [] := by
        cases k with
        | direct => exact h.1
        | retry => exact .inr ⟨h.1, h.2.1⟩
        | condWait => exact h.elim
      have hfail : Fits (a = true) g l.tokenHolding (Local.lockFailed m k ++ []) := by
        rw [List.append_nil]
        exact lockFailed htest
      simp only [Machine.effect, Instr.inner, State.own, if_true] at he
      split at he <;> obtain ⟨-, rfl⟩ := Prod.mk.inj (Option.some.inj he)
      · exact hnil
      · exact hfail
  | _ => exact h.elim

end Fits

/-- What an instruction leaves alone. -/
theorem effect_fields {a : Bool} (he : effect a d l t rest i = some (d', l')) :
    l'.threadIndex = l.threadIndex ∧ l'.fenceEnabled = l.fenceEnabled ∧
      (i ≠ .procExit → l'.live = l.live) := by
  cases i with
  | procExit =>
      obtain ⟨-, rfl⟩ := Prod.mk.inj (Option.some.inj he)
      exact ⟨rfl, rfl, fun h => absurd rfl h⟩
  | lockTest m k | lockSet m k =>
      simp only [effect, Instr.inner, State.own, if_true] at he
      split at he <;> obtain ⟨-, rfl⟩ := Prod.mk.inj (Option.some.inj he) <;>
        exact ⟨rfl, rfl, fun _ => rfl⟩
  | fenceEnter | getToken | putToken | deregister | isSingleWorkingThread | countLock | discountLock
  | getLockAgain | setTokenHolding | endCriticalSection | atomicBegin | atomicEnd | finalcommit
  | lockIsowner | lockRelease =>
      obtain ⟨-, rfl⟩ := Prod.mk.inj (Option.some.inj he)
      exact ⟨rfl, rfl, fun _ => rfl⟩
  | _ => cases he

/-! ## The discipline of a run -/

variable {σ : Type*} {isHeap : ℕ → Bool} {code : Tid → σ → Action σ} {M : Set Obj}

/-- The next step of `t` is no exit with the token. -/
def Threads.Prudent (code : Tid → σ → Action σ) (s : Threads σ) (t : Tid) : Prop :=
  (s.locals t).pending = [] → (code t (s.exec.locals t)).exits = true →
    (s.locals t).tokenHolding = false

theorem Threads.duty_of_fence {s : Threads σ} {k : Bool} (hl : (s.locals t).live = true)
    (hh : (s.locals t).pending.head? = some (.fenceEnter k)) : duty code s t = some .pass := by
  obtain ⟨rest, hr⟩ := List.head?_eq_some_iff.mp hh
  have hd : s.exec.driven t (.fenceEnter k) = false := Memory.Execution.not_driven fun _ => rfl
  exact duty_of_not_driven hl hr hd

/-- The code of every thread fits its stage. -/
structure Disciplined (p : Party (Threads σ) Tid) : Prop where
  live : ∀ t ∈ p.ring, (p.state.locals t).live = true
  enabled : ∀ t, (p.state.locals t).live = true → (p.state.locals t).fenceEnabled = true
  fits : ∀ t, (p.state.locals t).live = true →
    Fits (p.ring = [t]) (p.stage t) (p.state.locals t).tokenHolding (p.state.locals t).pending

namespace Disciplined

variable {x y : Party (Threads σ) Tid} {u : Tid}

/-- Who is alone stays alone. -/
theorem alone_after {s : Threads σ} {e : Duty} (ho : Party.Orderly (crew isHeap code) (Good M) x)
    (hm : Party.Moved (crew isHeap code) x t e c s) (hl : c = .leave → u ≠ t) (h : x.ring = [u]) :
    (x.after t c s).ring = [u] := by
  cases hturn : c.turns with
  | false => exact (Change.ring_of_not_turns hturn t x.ring).trans h
  | true =>
      have hhead := ho.holder t (hm.moves.turns hturn)
      rw [h, List.head?_cons, Option.some.injEq] at hhead
      subst hhead
      cases c with
      | put =>
          change x.ring.tail ++ [u] = [u]
          rw [h]
          rfl
      | leave => exact absurd rfl (hl rfl)
      | _ => cases hturn

/-- What a move does to the variables of its thread. -/
theorem local_cases {s : Threads σ} {e : Duty} (hm : Party.Moved (crew isHeap code) x t e c s) :
    (x.state.locals t).live = true ∧
      ((s.locals t = x.state.locals t ∧ c = .stay) ∨
      (∃ k next, (x.state.locals t).pending = [] ∧ code t (x.state.exec.locals t) = .call k next ∧
        s.locals t = (x.state.locals t).goto ((x.state.locals t).program k.op) ∧ c = .stay) ∨
      ∃ i rest d', (x.state.locals t).pending = i :: rest ∧
        Machine.effect (x.ring = [t]) x.state.determ (x.state.locals t) t rest i =
          some (d', s.locals t) ∧ i.duty.bind (x.stage t).change = some c) := by
  have hmoves := hm.moves
  have hduty : Threads.duty code x.state t = some e := hm.duty
  have hact : Threads.act isHeap code (x.ring = [t]) x.state t = some s := hm.act
  unfold Threads.duty at hduty
  unfold Threads.act at hact
  split at hduty
  · rename_i hlive hpending
    refine ⟨hlive, ?_⟩
    simp only [hpending] at hact
    split at hduty
    · rename_i k next hcode
      obtain rfl := Option.some.inj hduty
      simp only [hcode, Option.map_eq_some_iff] at hact
      obtain ⟨z, -, rfl⟩ := hact
      exact .inr (.inl ⟨k, next, hpending, hcode, Function.update_self ..,
        hmoves.stays (.inr (.inr rfl))⟩)
    · rename_i hcode
      obtain rfl := Option.some.inj hduty
      have hstay : s.locals = x.state.locals := by
        split at hact
        · rename_i k next hk
          exact absurd hk (hcode k next)
        · obtain ⟨z, -, rfl⟩ := Option.map_eq_some_iff.mp hact
          rfl
      exact .inl ⟨congrFun hstay t, hmoves.stays (.inl rfl)⟩
  · rename_i i rest hlive hpending
    refine ⟨hlive, ?_⟩
    simp only [hpending] at hact
    split at hduty
    · rename_i hdriven
      obtain rfl := Option.some.inj hduty
      rw [if_pos hdriven, Option.map_eq_some_iff] at hact
      obtain ⟨z, -, rfl⟩ := hact
      refine .inl ⟨rfl, hmoves.stays (.inr ?_)⟩
      cases i <;> first | exact .inl rfl | exact .inr rfl
    · rename_i hdriven
      rw [if_neg hdriven, Option.bind_eq_some_iff] at hact
      obtain ⟨⟨d', l'⟩, he, hact⟩ := hact
      obtain ⟨z, -, rfl⟩ := Option.map_eq_some_iff.mp hact
      refine .inr (.inr ⟨i, rest, d', hpending, ?_, ?_⟩)
      · dsimp only
        rw [Function.update_self]
        exact he
      · rw [hduty, Option.bind_some]
        exact Transition.Stage.change_of_moves hmoves
  · cases hduty

/-- The process ends outside the ring. -/
theorem exits_after {s : Threads σ} {rest : List Instr} {d' : Determ} {b : Bool}
    (h : Disciplined x) (hlive : (x.state.locals t).live = true)
    (hpend : (x.state.locals t).pending = .procExit :: rest)
    (he : Machine.effect b x.state.determ (x.state.locals t) t rest .procExit =
      some (d', s.locals t)) : x.stage t = .gone ∧ (s.locals t).live = false := by
  have hfits := h.fits t hlive
  rw [hpend] at hfits
  exact ⟨hfits.1, by rw [← (Prod.mk.inj (Option.some.inj he)).2]⟩

theorem live_after {s : Threads σ} {e : Duty} (ho : Party.Orderly (crew isHeap code) (Good M) x)
    (h : Disciplined x) (hm : Party.Moved (crew isHeap code) x t e c s)
    (hmem : t ∈ (x.after t c s).ring) : (s.locals t).live = true := by
  have hring := ((ho.mem_ring hm).mp hmem).1
  obtain ⟨hlive, hcases⟩ := local_cases hm
  rcases hcases with ⟨he, -⟩ | ⟨k, next, -, -, he, -⟩ | ⟨i, rest, d', hpend, he, -⟩
  · rw [he]
    exact hlive
  · rw [he]
    exact hlive
  · refine ((effect_fields he).2.2 ?_).trans hlive
    rintro rfl
    exact (ho.member t).mp hring (h.exits_after hlive hpend he).1

/-- The thread that moves goes on with code that fits its stage. -/
theorem fits_after {s : Threads σ} {e : Duty} (ho : Party.Orderly (crew isHeap code) (Good M) x)
    (h : Disciplined x) (hp : x.state.Prudent code t)
    (hm : Party.Moved (crew isHeap code) x t e c s) (hl : (s.locals t).live = true) :
    (s.locals t).fenceEnabled = true ∧
      Fits ((x.after t c s).ring = [t]) (c.stage (x.stage t)) (s.locals t).tokenHolding
        (s.locals t).pending := by
  obtain ⟨hlive, hcases⟩ := local_cases hm
  have henabled := h.enabled t hlive
  have hfits := h.fits t hlive
  rcases hcases with ⟨he, rfl⟩ | ⟨k, next, hpend, hcode, he, rfl⟩ | ⟨i, rest, d', hpend, he, hc⟩
  · rw [he]
    exact ⟨henabled, hfits⟩
  · rw [hpend] at hfits
    rw [he]
    refine ⟨henabled, Fits.program (l := x.state.locals t) hfits henabled ?_⟩
    rintro ⟨w, rfl⟩
    exact hp hpend (by rw [hcode]; rfl)
  · rw [hpend] at hfits
    by_cases hi : i = .procExit
    · subst hi
      exact absurd ((h.exits_after hlive hpend he).2.symm.trans hl) Bool.false_ne_true
    refine ⟨(effect_fields he).2.1.trans henabled, ?_⟩
    have hafter :=
      (hfits.mono (q := decide (x.ring = [t]) = true) fun h => decide_eq_true h).effect he hc
        (ho.good.shared_of_pending hpend) hi
    by_cases hleave : c = .leave
    · subst hleave
      exact hafter.gone
    · exact hafter.mono fun ha =>
        alone_after ho hm (fun hc => absurd hc hleave) (of_decide_eq_true ha)

/-- A move of a prudent thread keeps the discipline. -/
theorem step (ho : Party.Orderly (crew isHeap code) (Good M) x)
    (h : Disciplined x) (hp : x.state.Prudent code t) (hs : x.step (crew isHeap code) t = some y) :
    Disciplined y := by
  obtain ⟨e, c, s, hm, rfl⟩ := Party.moved_of_step hs
  have hother : ∀ u, u ≠ t → s.locals u = x.state.locals u := fun u hut =>
    (Threads.act_same hut hm.act).locals
  refine ⟨fun u hu => ?_, fun u hl => ?_, fun u hl => ?_⟩
  · by_cases hut : u = t
    · subst hut
      exact h.live_after ho hm hu
    · have hux := ((ho.mem_ring hm).mp hu).1
      exact (congrArg Local.live (hother u hut)).trans (h.live u hux)
  · by_cases hut : u = t
    · subst hut
      exact (h.fits_after ho hp hm hl).1
    · change (s.locals u).fenceEnabled = true
      change (s.locals u).live = true at hl
      rw [hother u hut] at hl ⊢
      exact h.enabled u hl
  · by_cases hut : u = t
    · subst hut
      rw [Party.Orderly.stage_self]
      exact (h.fits_after ho hp hm hl).2
    · rw [Party.Orderly.stage_of_ne hut]
      change Fits _ _ (s.locals u).tokenHolding (s.locals u).pending
      change (s.locals u).live = true at hl
      rw [hother u hut] at hl ⊢
      exact (h.fits u hl).mono (alone_after ho hm fun _ => hut)

end Disciplined

end Machine

end Dthreads
