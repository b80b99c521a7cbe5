import Mathlib.Data.List.Induction

/-! # Runs of a labelled transition system

A step is a partial function of the state once its label is chosen. A guard on the
state before a step selects the runs whose steps all meet a side condition. -/

namespace Dthreads.Transition

variable {σ α : Type*}

/-- Execute a schedule, stopping when a label is not enabled. -/
def exec (step : σ → α → Option σ) : σ → List α → Option σ
  | s, [] => some s
  | s, a :: as => (step s a).bind (exec step · as)

@[simp] theorem exec_nil (step : σ → α → Option σ) (s : σ) : exec step s [] = some s := rfl

theorem exec_cons (step : σ → α → Option σ) (s : σ) (a : α) (as : List α) :
    exec step s (a :: as) = (step s a).bind (exec step · as) := rfl

theorem exec_append (step : σ → α → Option σ) (s : σ) (as bs : List α) :
    exec step s (as ++ bs) = (exec step s as).bind (exec step · bs) := by
  induction as generalizing s with
  | nil => simp
  | cons a as ih =>
      rw [List.cons_append, exec_cons, exec_cons]
      cases h : step s a with
      | none => simp
      | some u => simpa using ih u

/-- A finite run whose steps all satisfy `guard` in the state they are taken from. -/
inductive Run (step : σ → α → Option σ) (guard : σ → α → Prop) : σ → List α → σ → Prop where
  | nil (s) : Run step guard s [] s
  | snoc {s u w as a} : Run step guard s as u → guard u a → step u a = some w →
      Run step guard s (as ++ [a]) w

namespace Run

variable {step : σ → α → Option σ} {guard : σ → α → Prop}

theorem exec_eq {s w : σ} {as : List α} (h : Run step guard s as w) :
    exec step s as = some w := by
  induction h with
  | nil => rfl
  | snoc _ _ hs ih => simp [exec_append, ih, exec_cons, hs]

theorem cons {s u w : σ} {a : α} {as : List α} (hg : guard s a) (hs : step s a = some u)
    (h : Run step guard u as w) : Run step guard s (a :: as) w := by
  induction h with
  | nil => exact .snoc (.nil s) hg hs
  | snoc _ hg' hs' ih =>
      rw [← List.cons_append]
      exact .snoc ih hg' hs'

theorem append {s u w : σ} {as bs : List α} (h : Run step guard s as u)
    (h' : Run step guard u bs w) : Run step guard s (as ++ bs) w := by
  induction h' with
  | nil => simpa using h
  | snoc _ hg hs ih =>
      rw [← List.append_assoc]
      exact .snoc ih hg hs

/-- A nonempty run splits at its first step. -/
theorem cons_iff {s w : σ} {a : α} {as : List α} :
    Run step guard s (a :: as) w ↔
      ∃ u, guard s a ∧ step s a = some u ∧ Run step guard u as w := by
  constructor
  · intro h
    induction as using List.reverseRecOn generalizing w with
    | nil =>
        rw [← List.nil_append [a]] at h
        generalize hl : [] ++ [a] = l at h
        cases h with
        | nil => simp at hl
        | snoc h hg hs =>
            obtain ⟨rfl, he⟩ := List.append_inj' hl rfl
            obtain rfl : a = _ := by simpa using he
            cases hn : h.exec_eq
            exact ⟨w, hg, hs, .nil w⟩
    | append_singleton as b ih =>
        generalize hl : a :: (as ++ [b]) = l at h
        cases h with
        | nil => simp at hl
        | snoc h hg hs =>
            rw [← List.cons_append] at hl
            obtain ⟨rfl, he⟩ := List.append_inj' hl rfl
            obtain rfl : b = _ := by simpa using he
            obtain ⟨u, hgu, hsu, hr⟩ := ih h
            exact ⟨u, hgu, hsu, .snoc hr hg hs⟩
  · rintro ⟨u, hg, hs, h⟩
    exact .cons hg hs h

/-- A nonempty run splits at its last step. -/
theorem snoc_iff {s w : σ} {a : α} {as : List α} :
    Run step guard s (as ++ [a]) w ↔
      ∃ u, Run step guard s as u ∧ guard u a ∧ step u a = some w := by
  constructor
  · intro h
    generalize hl : as ++ [a] = l at h
    cases h with
    | nil => simp at hl
    | snoc h hg hs =>
        obtain ⟨rfl, he⟩ := List.append_inj' hl rfl
        obtain rfl : a = _ := by simpa using he
        exact ⟨_, h, hg, hs⟩
  · rintro ⟨u, h, hg, hs⟩
    exact .snoc h hg hs

theorem nil_iff {s w : σ} : Run step guard s [] w ↔ s = w := by
  constructor
  · intro h
    simpa using h.exec_eq
  · rintro rfl
    exact .nil s

/-- A property established at the start and kept by every guarded step holds in every
state a guarded run reaches. -/
theorem invariant {Inv : σ → Prop}
    (keep : ∀ s a w, Inv s → guard s a → step s a = some w → Inv w)
    {s w : σ} {as : List α} (h : Run step guard s as w) (h0 : Inv s) : Inv w := by
  induction h with
  | nil => exact h0
  | snoc _ hg hs ih => exact keep _ _ _ ih hg hs

theorem mono {guard' : σ → α → Prop} (hle : ∀ s a, guard s a → guard' s a)
    {s w : σ} {as : List α} (h : Run step guard s as w) : Run step guard' s as w := by
  induction h with
  | nil => exact .nil _
  | snoc _ hg hs ih => exact .snoc ih (hle _ _ hg) hs

/-- Two side conditions that agree where an invariant of the one holds select the same runs. -/
theorem guard_iff {guard' : σ → α → Prop} {Inv : σ → Prop}
    (keep : ∀ s a w, Inv s → guard s a → step s a = some w → Inv w)
    (agree : ∀ s a w, Inv s → step s a = some w → (guard' s a ↔ guard s a))
    {s w : σ} {as : List α} (h0 : Inv s) : Run step guard' s as w ↔ Run step guard s as w := by
  constructor
  · intro h
    have hw : Run step guard s as w ∧ Inv w := by
      induction h with
      | nil => exact ⟨.nil _, h0⟩
      | snoc _ hg hs ih =>
          obtain ⟨hr, hi⟩ := ih
          have hg' := (agree _ _ _ hi hs).mp hg
          exact ⟨.snoc hr hg' hs, keep _ _ _ hi hg' hs⟩
    exact hw.1
  · intro h
    have hw : Run step guard' s as w ∧ Inv w := by
      induction h with
      | nil => exact ⟨.nil _, h0⟩
      | snoc _ hg hs ih =>
          obtain ⟨hr, hi⟩ := ih
          exact ⟨.snoc hr ((agree _ _ _ hi hs).mpr hg) hs, keep _ _ _ hi hg hs⟩
    exact hw.1

end Run

/-- Every schedule that executes is a run without a side condition. -/
theorem run_of_exec {step : σ → α → Option σ} {s w : σ} {as : List α}
    (h : exec step s as = some w) : Run step (fun _ _ => True) s as w := by
  induction as generalizing s with
  | nil =>
      obtain rfl : s = w := by simpa using h
      exact .nil s
  | cons a as ih =>
      rw [exec_cons, Option.bind_eq_some_iff] at h
      obtain ⟨u, hs, hr⟩ := h
      exact .cons trivial hs (ih hr)

theorem exists_exec_of_any {step : σ → α → Option σ} {s : σ} {as : List α} {P : σ → Prop}
    [DecidablePred P] (h : (exec step s as).any (fun w => decide (P w)) = true) :
    ∃ w, exec step s as = some w ∧ P w := by
  cases hw : exec step s as with
  | none => simp [hw] at h
  | some w => exact ⟨w, rfl, by simpa [hw] using h⟩

/-- The guard of a schedule can be checked while it executes. -/
def execGuarded (step : σ → α → Option σ) (guard : σ → α → Prop)
    [∀ s a, Decidable (guard s a)] : σ → List α → Option σ
  | s, [] => some s
  | s, a :: as => if guard s a then (step s a).bind (execGuarded step guard · as) else none

theorem run_of_execGuarded {step : σ → α → Option σ} {guard : σ → α → Prop}
    [∀ s a, Decidable (guard s a)] {s w : σ} {as : List α}
    (h : execGuarded step guard s as = some w) : Run step guard s as w := by
  induction as generalizing s with
  | nil =>
      obtain rfl : s = w := by simpa [execGuarded] using h
      exact .nil s
  | cons a as ih =>
      rw [execGuarded] at h
      split at h
      · rename_i hg
        rw [Option.bind_eq_some_iff] at h
        obtain ⟨u, hs, hr⟩ := h
        exact .cons hg hs (ih hr)
      · simp at h

theorem exists_run_of_any {step : σ → α → Option σ} {guard : σ → α → Prop}
    [∀ s a, Decidable (guard s a)] {s : σ} {as : List α} {P : σ → Prop} [DecidablePred P]
    (h : (execGuarded step guard s as).any (fun w => decide (P w)) = true) :
    ∃ w, Run step guard s as w ∧ P w := by
  cases hw : execGuarded step guard s as with
  | none => simp [hw] at h
  | some w => exact ⟨w, run_of_execGuarded hw, by simpa [hw] using h⟩

/-! ## Counting steps -/

/-- How many steps of a schedule satisfy `p` in the state they are taken from. -/
def occurrences (step : σ → α → Option σ) (p : σ → α → Bool) : σ → List α → ℕ
  | _, [] => 0
  | s, a :: as => (p s a).toNat + (step s a).elim 0 (occurrences step p · as)

theorem occurrences_append {step : σ → α → Option σ} (p : σ → α → Bool) {s w : σ} {as : List α}
    (h : exec step s as = some w) (bs : List α) :
    occurrences step p s (as ++ bs) = occurrences step p s as + occurrences step p w bs := by
  induction as generalizing s with
  | nil =>
      obtain rfl : s = w := by simpa using h
      simp [occurrences]
  | cons a as ih =>
      rw [exec_cons, Option.bind_eq_some_iff] at h
      obtain ⟨u, hs, hr⟩ := h
      simp only [List.cons_append, occurrences, hs, Option.elim_some, ih hr, Nat.add_assoc]

/-- An invariant of the state and of the number of steps counted so far. -/
theorem Run.counted {step : σ → α → Option σ} {guard : σ → α → Prop} (p : σ → α → Bool)
    {Inv : σ → ℕ → Prop}
    (keep : ∀ s n a w, Inv s n → guard s a → step s a = some w → Inv w (n + (p s a).toNat))
    {s w : σ} {as : List α} (h : Run step guard s as w) (h0 : Inv s 0) :
    Inv w (occurrences step p s as) := by
  induction h with
  | nil => exact h0
  | @snoc u w as a hr hg hs ih =>
      have hc := keep _ _ _ _ ih hg hs
      rw [occurrences_append p hr.exec_eq]
      simpa [occurrences, hs] using hc

/-! ## Loops in lock step -/

/-- Two loops over one list whose turns keep a relation fail together or end related. The relation
may depend on the turns that are left. -/
theorem foldlM_lockstep {ι τ : Type*} {R : List ι → σ → τ → Prop} {f : σ → ι → Option σ}
    {g : τ → ι → Option τ}
    (turn : ∀ i is s t, R (i :: is) s t → (f s i = none ∧ g t i = none) ∨
      ∃ s' t', f s i = some s' ∧ g t i = some t' ∧ R is s' t')
    {is : List ι} {s : σ} {t : τ} (h : R is s t) :
    (is.foldlM f s = none ∧ is.foldlM g t = none) ∨
      ∃ s' t', is.foldlM f s = some s' ∧ is.foldlM g t = some t' ∧ R [] s' t' := by
  induction is generalizing s t with
  | nil => exact .inr ⟨s, t, rfl, rfl, h⟩
  | cons i is ih =>
      rw [List.foldlM_cons, List.foldlM_cons]
      rcases turn i is s t h with ⟨hf, hg⟩ | ⟨s', t', hf, hg, h'⟩
      · exact .inl ⟨by rw [hf]; rfl, by rw [hg]; rfl⟩
      · rw [hf, hg]
        exact ih h'

end Dthreads.Transition
