import Mathlib.Data.Finset.Card

/-! # A gate for a fixed number of members

The members are counted when they enlist, and the gate opens when `size` of them have come to it. They
enlist one at a time, and no two groups are on their way to the gate at once. -/

namespace Dthreads.Fence

variable {ι : Type*} [DecidableEq ι] {size enlisted arrived : ℕ} {coming blocked placed : Finset ι}
  {t : ι}

/-- The members `coming` are on their way to the gate, and the members `blocked` wait at it. Until
the group is complete they are the `placed` ones, and afterwards nobody is placed. -/
structure Gate (size enlisted arrived : ℕ) (coming blocked placed : Finset ι) : Prop where
  disjoint : Disjoint coming blocked
  arrived : arrived = blocked.card
  stage : (coming ∪ blocked = placed ∧ enlisted = placed.card ∧ (enlisted < size ∨ size = 0)) ∨
    (placed = ∅ ∧ enlisted = 0 ∧ (coming ∪ blocked).card = size ∧ 0 < size)

namespace Gate

/-- Who is placed is at the gate. -/
theorem placed_sub (h : Gate size enlisted arrived coming blocked placed) :
    placed ⊆ coming ∪ blocked := by
  rcases h.stage with ⟨he, -, -⟩ | ⟨he, -, -, -⟩
  · exact he ▸ subset_rfl
  · exact he ▸ Finset.empty_subset _

/-- While no complete group is at the gate, who is at it is placed. -/
theorem eq_placed (h : Gate size enlisted arrived coming blocked placed)
    (hp : ∀ u ∈ coming ∪ blocked, u ∈ placed) :
    coming ∪ blocked = placed ∧ enlisted = placed.card ∧ (enlisted < size ∨ size = 0) := by
  refine h.stage.resolve_right ?_
  rintro ⟨he, -, hc, hpos⟩
  rw [← hc, Finset.card_pos] at hpos
  obtain ⟨u, hu⟩ := hpos
  exact Finset.notMem_empty u (he ▸ hp u hu)

/-- A member enlists that does not complete the group. -/
theorem enlist (h : Gate size enlisted arrived coming blocked placed)
    (hp : ∀ u ∈ coming ∪ blocked, u ∈ placed) (ht : t ∉ coming ∪ blocked)
    (hl : enlisted + 1 ≠ size) :
    Gate size (enlisted + 1) arrived (insert t coming) blocked (insert t placed) := by
  obtain ⟨he, hc, hs⟩ := h.eq_placed hp
  have htb : t ∉ blocked := fun hb => ht (Finset.mem_union_right _ hb)
  refine ⟨Finset.disjoint_insert_left.mpr ⟨htb, h.disjoint⟩, h.arrived, .inl ⟨?_, ?_, by omega⟩⟩
  · rw [Finset.insert_union, he]
  · rw [Finset.card_insert_of_notMem (he ▸ ht), hc]

/-- The last member of a group enlists. -/
theorem complete (h : Gate size enlisted arrived coming blocked placed)
    (hp : ∀ u ∈ coming ∪ blocked, u ∈ placed) (ht : t ∉ coming ∪ blocked)
    (hl : enlisted + 1 = size) : Gate size 0 arrived (insert t coming) blocked ∅ := by
  obtain ⟨he, hc, -⟩ := h.eq_placed hp
  have htb : t ∉ blocked := fun hb => ht (Finset.mem_union_right _ hb)
  refine ⟨Finset.disjoint_insert_left.mpr ⟨htb, h.disjoint⟩, h.arrived,
    .inr ⟨rfl, rfl, ?_, hl ▸ Nat.succ_pos _⟩⟩
  rw [Finset.insert_union, Finset.card_insert_of_notMem ht, he, ← hc, hl]

/-- A member comes to the gate and waits. -/
theorem wait (h : Gate size enlisted arrived coming blocked placed) (ht : t ∈ coming) :
    Gate size enlisted (arrived + 1) (coming.erase t) (insert t blocked) placed := by
  have htb : t ∉ blocked := Finset.disjoint_left.mp h.disjoint ht
  have hu : coming.erase t ∪ insert t blocked = coming ∪ blocked := by
    rw [Finset.union_insert, ← Finset.insert_union, Finset.insert_erase ht]
  refine ⟨?_, ?_, ?_⟩
  · rw [Finset.disjoint_insert_right]
    exact ⟨Finset.notMem_erase t _, h.disjoint.mono_left (Finset.erase_subset t _)⟩
  · rw [Finset.card_insert_of_notMem htb, h.arrived]
  · rw [hu]
    exact h.stage

/-- The last member of a group comes to the gate, and nobody is left there. -/
theorem opens (h : Gate size enlisted arrived coming blocked placed) (ht : t ∈ coming)
    (hl : arrived + 1 = size) :
    placed = ∅ ∧ coming = {t} ∧ Gate size enlisted 0 (coming.erase t) ∅ placed := by
  have htb : t ∉ blocked := Finset.disjoint_left.mp h.disjoint ht
  have hle : (insert t blocked).card ≤ (coming ∪ blocked).card :=
    Finset.card_le_card (Finset.insert_subset (Finset.mem_union_left _ ht) Finset.subset_union_right)
  rw [Finset.card_insert_of_notMem htb, ← h.arrived, hl] at hle
  rcases h.stage with ⟨he, hc, hs⟩ | ⟨he, h0, hc, hpos⟩
  · rw [he, ← hc] at hle
    omega
  · have hct : coming = {t} := by
      have hcard : coming.card = 1 := by
        rw [Finset.card_union_of_disjoint h.disjoint, ← h.arrived] at hc
        omega
      obtain ⟨u, hu⟩ := Finset.card_eq_one.mp hcard
      rw [hu, Finset.mem_singleton] at ht
      rw [hu, ht]
    refine ⟨he, hct, Finset.disjoint_empty_right _, rfl, .inl ⟨?_, ?_, .inl (h0 ▸ hpos)⟩⟩
    · rw [hct, Finset.erase_singleton, Finset.union_empty, he]
    · rw [he, h0]
      rfl

end Gate

end Dthreads.Fence
