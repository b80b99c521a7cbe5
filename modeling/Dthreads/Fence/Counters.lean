import Mathlib.Data.Finset.Card
import Mathlib.Logic.Function.Basic

/-! # A fence with an arrival and a departure phase

The last member that arrives opens the fence, and the last one that leaves closes it again. A member
that has left may come back before the others have left. -/

namespace Dthreads.Fence

/-- The shared variables of a fence. -/
structure Counters where
  arrival : Bool
  arrived : ℕ
  members : ℕ

namespace Counters

variable (c : Counters)

/-- A member leaves the open fence. -/
def leave : Counters :=
  { c with
    arrived := c.arrived - 1
    arrival := if c.arrived - 1 = 0 then true else c.arrival }

/-- A member arrives before others. -/
def wait : Counters := { c with arrived := c.arrived + 1 }

/-- The last member arrives, and leaves at once. -/
def pass : Counters := { c with arrival := if c.arrived = 0 then true else false }

/-- A member goes away for good. -/
def drop : Counters :=
  { c with
    members := c.members - 1
    arrival := if c.members - 1 ≤ c.arrived ∧ c.members - 1 ≠ 0 then false else c.arrival }

end Counters

variable {ι σ : Type*} [DecidableEq ι] {c : Counters} {next : σ → σ} {M A : Finset ι} {side : ι → σ}
  {t : ι}

/-- The members `M`, of which `A` have arrived and not left. `side` says how often a member has
passed the fence, and `next` counts. -/
structure Meets (c : Counters) (next : σ → σ) (M A : Finset ι) (side : ι → σ) : Prop where
  sub : A ⊆ M
  members : c.members = M.card
  arrived : c.arrived = A.card
  closed : c.arrival = true → A = M → M = ∅
  opened : c.arrival = false → A.Nonempty
  same : c.arrival = true → ∀ u ∈ M, ∀ v ∈ M, side u = side v
  sides : c.arrival = false → ∀ u ∈ A, ∀ v ∈ M, side v = if v ∈ A then side u else next (side u)

namespace Meets

/-- Someone is missing while the fence is closed. -/
theorem missing (h : Meets c next M A side) (ha : c.arrival = true) (hM : M.Nonempty) :
    ∃ u ∈ M, u ∉ A := by
  by_contra hc
  push Not at hc
  exact hM.ne_empty (h.closed ha (h.sub.antisymm hc))

/-- While a member is missing the fence is closed or has been left. -/
theorem arrived_lt (h : Meets c next M A side) (ht : t ∈ M) (htA : t ∉ A) :
    c.arrived < c.members := by
  rw [h.arrived, h.members]
  exact Finset.card_lt_card (Finset.ssubset_iff_subset_ne.mpr ⟨h.sub, fun he => htA (he ▸ ht)⟩)

/-- The members that have not arrived are on the same side. -/
theorem same_missing {u v : ι} (h : Meets c next M A side) (hu : u ∈ M) (huA : u ∉ A) (hv : v ∈ M)
    (hvA : v ∉ A) : side u = side v := by
  cases ha : c.arrival with
  | true => exact h.same ha u hu v hv
  | false =>
      obtain ⟨x, hx⟩ := h.opened ha
      have hxu := h.sides ha x hx u hu
      have hxv := h.sides ha x hx v hv
      rw [if_neg huA] at hxu
      rw [if_neg hvA] at hxv
      rw [hxu, hxv]

/-- Only the fence counts. -/
theorem congr {side' : ι → σ} (h : Meets c next M A side) (hs : ∀ u ∈ M, side' u = side u) :
    Meets c next M A side' where
  sub := h.sub
  members := h.members
  arrived := h.arrived
  closed := h.closed
  opened := h.opened
  same ha u hu v hv := by
    rw [hs u hu, hs v hv]
    exact h.same ha u hu v hv
  sides ha u hu v hv := by
    rw [hs u (h.sub hu), hs v hv]
    exact h.sides ha u hu v hv

/-- The others have all arrived when the last member comes. -/
theorem last (h : Meets c next M A side) (ht : t ∈ M) (htA : t ∉ A)
    (hl : c.members ≤ c.arrived + 1) : A = M.erase t := by
  have hsub : A ⊆ M.erase t := fun u hu =>
    Finset.mem_erase.mpr ⟨fun he => htA (he ▸ hu), h.sub hu⟩
  refine Finset.eq_of_subset_of_card_le hsub ?_
  rw [Finset.card_erase_of_mem ht, ← h.members, ← h.arrived]
  omega

/-- The last member arrives. -/
theorem pass (h : Meets c next M A side) (ha : c.arrival = true) (ht : t ∈ M) (htA : t ∉ A)
    (hl : c.members ≤ c.arrived + 1) :
    Meets c.pass next M A (Function.update side t (next (side t))) := by
  have hA := h.last ht htA hl
  have hother : ∀ u ∈ A, u ≠ t := fun u hu he => htA (he ▸ hu)
  have hopen : c.pass.arrival = true ↔ A = ∅ := by
    simp [Counters.pass, h.arrived]
  refine ⟨h.sub, h.members, h.arrived, fun _ he => absurd (he ▸ ht) htA, fun hf => ?_,
    fun hc u hu v hv => ?_, fun hf u hu v hv => ?_⟩
  · rw [Finset.nonempty_iff_ne_empty]
    intro he
    rw [hopen.mpr he] at hf
    cases hf
  · have hM : ∀ u ∈ M, u = t := by
      intro u hu
      by_contra hne
      have hm : u ∈ A := hA ▸ Finset.mem_erase.mpr ⟨hne, hu⟩
      rw [hopen.mp hc] at hm
      exact Finset.notMem_empty u hm
    rw [hM u hu, hM v hv]
  · rw [Function.update_of_ne (hother u hu)]
    by_cases hv' : v ∈ A
    · rw [if_pos hv', Function.update_of_ne (hother v hv')]
      exact h.same ha v hv u (h.sub hu)
    · have hvt : v = t := by
        by_contra hne
        exact hv' (hA ▸ Finset.mem_erase.mpr ⟨hne, hv⟩)
      rw [if_neg hv', hvt, Function.update_self, h.same ha t ht u (h.sub hu)]

/-- A member arrives that is not the last one. -/
theorem wait (h : Meets c next M A side) (ha : c.arrival = true) (ht : t ∈ M) (htA : t ∉ A)
    (hl : c.arrived + 1 < c.members) : Meets c.wait next M (insert t A) side where
  sub := Finset.insert_subset ht h.sub
  members := h.members
  arrived := by rw [Finset.card_insert_of_notMem htA, ← h.arrived]; rfl
  closed _ he := by
    have hc := congrArg Finset.card he
    rw [Finset.card_insert_of_notMem htA, ← h.arrived, ← h.members] at hc
    omega
  opened hf := absurd (ha.symm.trans hf) nofun
  same := h.same
  sides hf := absurd (ha.symm.trans hf) nofun

/-- The fence closes when nobody is left in it. -/
theorem leave_closes (h : Meets c next M A side) (ha : c.arrival = false) (htA : t ∈ A) :
    c.leave.arrival = true ↔ A.erase t = ∅ := by
  rw [← Finset.card_eq_zero, Finset.card_erase_of_mem htA, ← h.arrived]
  simp [Counters.leave, ha]

/-- A member leaves. -/
theorem leave (h : Meets c next M A side) (ha : c.arrival = false) (htA : t ∈ A) :
    Meets c.leave next M (A.erase t) (Function.update side t (next (side t))) := by
  have hcard : (A.erase t).card = c.arrived - 1 := by
    rw [Finset.card_erase_of_mem htA, h.arrived]
  have hclose := h.leave_closes ha htA
  refine ⟨(Finset.erase_subset t A).trans h.sub, h.members, hcard.symm, fun _ he => ?_, fun hf => ?_,
    fun hc u hu v hv => ?_, fun _ u hu v hv => ?_⟩
  · exact absurd (he ▸ h.sub htA) (Finset.notMem_erase t A)
  · rw [Finset.nonempty_iff_ne_empty]
    intro he
    rw [hclose.mpr he] at hf
    cases hf
  · have hside : ∀ u ∈ M, Function.update side t (next (side t)) u = next (side t) := by
      intro u hu
      by_cases hut : u = t
      · rw [hut, Function.update_self]
      · have huA : u ∉ A := fun hm => by
          have hm' := Finset.mem_erase.mpr ⟨hut, hm⟩
          rw [hclose.mp hc] at hm'
          exact Finset.notMem_empty u hm'
        rw [Function.update_of_ne hut, h.sides ha t htA u hu, if_neg huA]
    rw [hside u hu, hside v hv]
  · obtain ⟨hut, huA⟩ := Finset.mem_erase.mp hu
    rw [Function.update_of_ne hut]
    by_cases hvt : v = t
    · rw [hvt, Function.update_self, if_neg (Finset.notMem_erase t A),
        h.sides ha u huA t (h.sub htA), if_pos htA]
    · rw [Function.update_of_ne hvt, h.sides ha u huA v hv]
      simp [hvt]

/-- The fence opens when all the others have arrived. -/
theorem drop_opens (h : Meets c next M A side) (ht : t ∈ M) (htA : t ∉ A)
    (hc : c.members - 1 ≤ c.arrived) : A = M.erase t := by
  have hsub : A ⊆ M.erase t := fun u hu =>
    Finset.mem_erase.mpr ⟨fun he => htA (he ▸ hu), h.sub hu⟩
  refine Finset.eq_of_subset_of_card_le hsub ?_
  rw [Finset.card_erase_of_mem ht, ← h.members, ← h.arrived]
  exact hc

/-- A member that has not arrived goes away. -/
theorem drop (h : Meets c next M A side) (ht : t ∈ M) (htA : t ∉ A) :
    Meets c.drop next (M.erase t) A side := by
  have hsub : A ⊆ M.erase t := fun u hu =>
    Finset.mem_erase.mpr ⟨fun he => htA (he ▸ hu), h.sub hu⟩
  have hcard : (M.erase t).card = c.members - 1 := by
    rw [Finset.card_erase_of_mem ht, h.members]
  have hopen : c.members - 1 ≤ c.arrived ∧ c.members - 1 ≠ 0 → A = M.erase t := fun hc =>
    h.drop_opens ht htA hc.1
  refine ⟨hsub, hcard.symm, h.arrived, fun hc he => ?_, fun hf => ?_, fun hc u hu v hv => ?_,
    fun hf u hu v hv => ?_⟩
  · by_contra hne
    rw [← Finset.card_eq_zero, hcard] at hne
    have hfalse : c.drop.arrival = false := if_pos ⟨by rw [h.arrived, ← hcard, he], hne⟩
    exact absurd (hfalse.symm.trans hc) nofun
  · by_cases hc : c.members - 1 ≤ c.arrived ∧ c.members - 1 ≠ 0
    · rw [hopen hc, ← Finset.card_pos, hcard]
      omega
    · exact h.opened ((if_neg hc).symm.trans hf)
  · have ha : c.arrival = true := by
      by_cases hcond : c.members - 1 ≤ c.arrived ∧ c.members - 1 ≠ 0
      · exact absurd ((if_pos hcond).symm.trans hc) nofun
      · exact (if_neg hcond).symm.trans hc
    exact h.same ha u (Finset.mem_of_mem_erase hu) v (Finset.mem_of_mem_erase hv)
  · cases ha : c.arrival with
    | false => exact h.sides ha u hu v (Finset.mem_of_mem_erase hv)
    | true =>
        by_cases hcond : c.members - 1 ≤ c.arrived ∧ c.members - 1 ≠ 0
        · rw [if_pos (hopen hcond ▸ hv)]
          exact h.same ha v (Finset.mem_of_mem_erase hv) u (h.sub hu)
        · exact absurd (((if_neg hcond).symm.trans hf).symm.trans ha) nofun

end Meets

end Dthreads.Fence
