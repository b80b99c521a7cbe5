import Mathlib.Data.List.Forall2
import Dthreads.Transition.Run

/-! # Simulation

A relation between the states of two systems is a simulation if every guarded step of the first
system is answered by a run of the second that leads to related states. -/

namespace Dthreads.Transition

variable {σ τ α β : Type*} {step : σ → α → Option σ} {guard : σ → α → Prop}
  {step' : τ → β → Option τ} {guard' : τ → β → Prop}

theorem Run.single {s w : σ} {a : α} (hg : guard s a) (hs : step s a = some w) :
    Run step guard s [a] w :=
  .cons hg hs (.nil w)

/-- Every step of the first system is answered, by labels that `L` allows for it. -/
structure Simulation (step : σ → α → Option σ) (guard : σ → α → Prop)
    (step' : τ → β → Option τ) (guard' : τ → β → Prop) (R : σ → τ → Prop)
    (L : α → List β → Prop) : Prop where
  answer : ∀ s a w t, R s t → guard s a → step s a = some w →
    ∃ bs u, L a bs ∧ Run step' guard' t bs u ∧ R w u

/-- A simulation carries over to runs: the steps are answered one after the other. -/
theorem Simulation.run {R : σ → τ → Prop} {L : α → List β → Prop}
    (hsim : Simulation step guard step' guard' R L) {s w : σ} {t : τ} {as : List α}
    (h : Run step guard s as w) (ht : R s t) :
    ∃ bss u, List.Forall₂ L as bss ∧ Run step' guard' t bss.flatten u ∧ R w u := by
  induction h with
  | nil => exact ⟨[], t, .nil, .nil t, ht⟩
  | snoc _ hg hs ih =>
      obtain ⟨bss, u, hL, hr, hu⟩ := ih
      obtain ⟨bs, v, hL', hr', hv⟩ := hsim.answer _ _ _ _ hu hg hs
      refine ⟨bss ++ [bs], v, List.rel_append hL (.cons hL' .nil), ?_, hv⟩
      rw [List.flatten_append, List.flatten_singleton]
      exact hr.append hr'

end Dthreads.Transition
