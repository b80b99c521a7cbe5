import Dthreads.Fence.Counters

/-! # Generations of a fence

The fence opens for the members that have arrived, and it closes when all of them have left. Every
member remembers how often the fence had opened when it arrived. -/

namespace Dthreads.Fence

/-- How often a fence has opened, after a change of its counters. -/
def Counters.opened (c c' : Counters) (n : ℕ) : ℕ := if c.arrival && !c'.arrival then n + 1 else n

variable {ι : Type*} {c c' : Counters} {inside : Finset ι} {since : ι → ℕ}
  {lost : List ℕ} {n : ℕ} {t : ι}

/-- An arrival before opening `k + 1` fits a fence that has opened `n` times. -/
def Fresh (c : Counters) (n k : ℕ) : Prop := k = n ∨ c.arrival = false ∧ k + 1 = n

/-- The members `inside` have arrived and not left, the arrivals `lost` belong to members that will
never leave. While the fence is closed all of them wait for its next opening. -/
structure Generations (c : Counters) (inside : Finset ι) (since : ι → ℕ) (lost : List ℕ) (n : ℕ) :
    Prop where
  arrived : c.arrived = inside.card + lost.length
  fresh : ∀ u ∈ inside, Fresh c n (since u)
  stale : ∀ k ∈ lost, Fresh c n k

theorem Counters.opened_of_open (h : c.arrival = false) : c.opened c' n = n := by
  simp [opened, h]

theorem Counters.opened_of_closed (h : c'.arrival = true) : c.opened c' n = n := by
  simp [opened, h]

theorem Counters.opened_same (h : c'.arrival = c.arrival) : c.opened c' n = n := by
  unfold opened
  rw [h]
  cases c.arrival <;> rfl

/-- The fence opens, or its phase does not change. -/
theorem Fresh.frame {k : ℕ} (h : Fresh c n k) (ha : c'.arrival = c.arrival ∨ c'.arrival = false) :
    Fresh c' (c.opened c' n) k := by
  by_cases hs : c'.arrival = c.arrival
  · rw [Counters.opened_same hs, Fresh, hs]
    exact h
  · have hf := ha.resolve_left hs
    cases hc : c.arrival with
    | false => exact absurd (hf.trans hc.symm) hs
    | true =>
        have hk : k = n := h.resolve_right fun h' => absurd (hc.symm.trans h'.1) nofun
        exact .inr ⟨hf, by simp [Counters.opened, hc, hf, hk]⟩

namespace Generations

/-- The counter of arrivals stays as it is. -/
theorem frame (h : Generations c inside since lost n) (hc : c'.arrived = c.arrived)
    (ha : c'.arrival = c.arrival ∨ c'.arrival = false) :
    Generations c' inside since lost (c.opened c' n) where
  arrived := hc.trans h.arrived
  fresh u hu := (h.fresh u hu).frame ha
  stale k hk := (h.stale k hk).frame ha

/-- The fence closes when nobody is left in it. -/
theorem closes (h : Generations c inside since lost n) (h0 : c.arrived = 0) :
    inside = ∅ ∧ lost = [] := by
  rw [h.arrived, Nat.add_eq_zero_iff, Finset.card_eq_zero, List.length_eq_zero_iff] at h0
  exact h0

/-- A member arrives as the last one, and passes. -/
theorem pass (h : Generations c inside since lost n) :
    Generations c.pass inside since lost (c.opened c.pass n) := by
  by_cases h0 : c.arrived = 0
  · obtain ⟨rfl, rfl⟩ := h.closes h0
    exact ⟨h.arrived, fun _ hu => absurd hu (Finset.notMem_empty _),
      fun _ hk => absurd hk List.not_mem_nil⟩
  · exact h.frame rfl (.inr (if_neg h0))

/-- Who has been released finds the fence open. -/
theorem released (h : Generations c inside since lost n) {u : ι} (hu : u ∈ inside)
    (hn : since u < n) : n = since u + 1 ∧ c.arrival = false := by
  rcases h.fresh u hu with he | ⟨ha, he⟩
  · omega
  · exact ⟨he.symm, ha⟩

/-- While the fence is closed, it counts the arrivals since it opened last. -/
theorem current (h : Generations c inside since lost n) (ha : c.arrival = true) :
    (∀ u ∈ inside, since u = n) ∧ ∀ k ∈ lost, k = n := by
  have hf : ∀ k, Fresh c n k → k = n := fun k hk =>
    hk.resolve_right fun h' => absurd (ha.symm.trans h'.1) nofun
  exact ⟨fun u hu => hf _ (h.fresh u hu), fun k hk => hf k (h.stale k hk)⟩

variable [DecidableEq ι]

/-- A member arrives and waits. -/
theorem wait (h : Generations c inside since lost n) (ht : t ∉ inside) :
    Generations c.wait (insert t inside) (Function.update since t n) lost n where
  arrived := by
    have hc : c.wait.arrived = c.arrived + 1 := rfl
    rw [Finset.card_insert_of_notMem ht, hc, h.arrived]
    omega
  fresh u hu := by
    by_cases hut : u = t
    · rw [hut, Function.update_self]
      exact .inl rfl
    · rw [Function.update_of_ne hut]
      exact h.fresh u ((Finset.mem_insert.mp hu).resolve_left hut)
  stale := h.stale

/-- A member leaves. -/
theorem leave (h : Generations c inside since lost n) (ht : t ∈ inside) :
    Generations c.leave (inside.erase t) since lost (c.opened c.leave n) := by
  have hcard : c.arrived - 1 = (inside.erase t).card + lost.length := by
    rw [Finset.card_erase_of_mem ht, h.arrived]
    have hpos := Finset.card_pos.mpr ⟨t, ht⟩
    omega
  by_cases h0 : c.arrived - 1 = 0
  · rw [h0] at hcard
    obtain ⟨he, hl⟩ := Nat.add_eq_zero_iff.mp hcard.symm
    rw [Finset.card_eq_zero] at he
    rw [List.length_eq_zero_iff] at hl
    subst hl
    rw [he]
    exact ⟨by simp [Counters.leave, h0], fun _ hu => absurd hu (Finset.notMem_empty _),
      fun _ hk => absurd hk List.not_mem_nil⟩
  · have hs : c.leave.arrival = c.arrival := if_neg h0
    have hf : ∀ k, Fresh c n k → Fresh c.leave (c.opened c.leave n) k := fun _ hk => hk.frame (.inl hs)
    exact ⟨hcard, fun u hu => hf _ (h.fresh u (Finset.mem_of_mem_erase hu)),
      fun k hk => hf _ (h.stale k hk)⟩

/-- A member will never leave. -/
theorem lose (h : Generations c inside since lost n) (ht : t ∈ inside) :
    Generations c (inside.erase t) since (since t :: lost) n where
  arrived := by
    rw [Finset.card_erase_of_mem ht, List.length_cons, h.arrived]
    have hpos := Finset.card_pos.mpr ⟨t, ht⟩
    omega
  fresh u hu := h.fresh u (Finset.mem_of_mem_erase hu)
  stale k hk := by
    rcases List.mem_cons.mp hk with rfl | hk
    · exact h.fresh t ht
    · exact h.stale k hk

end Generations

end Dthreads.Fence
