import Mathlib.Algebra.Order.Monoid.NatCast
import Mathlib.Data.Nat.Notation
import Mathlib.Tactic.NormNum

/-! # Size classes

The size classes of the Kingsley heap are the powers of two from 8 to `2 ^ 31`. -/

namespace Dthreads.Allocator.Kingsley

/-- `NUMBINS`. -/
def numBins : ℕ := 29

def class2Size (i : ℕ) : ℕ := 2 ^ (i + 3) % 2 ^ 64

/-- The classes of the objects of 8 to 128 bytes. -/
def cl : List ℕ := [0, 1, 2, 2, 3, 3, 3, 3, 4, 4, 4, 4, 4, 4, 4, 4]

/-- The loop of `size2Class`; a `size_t` cannot be halved more than 64 times. -/
def halve : ℕ → ℕ → ℕ → ℕ
  | 0, _, c => c
  | fuel + 1, sz1, c => if 7 < sz1 then halve fuel (sz1 / 2) (c + 1) else c

def size2Class (sz : ℕ) : ℕ :=
  let sz := if sz < 8 then 8 else sz
  if sz ≤ 128 then cl.getD ((sz - 1) / 8) 0 else halve 64 ((sz - 1) / 32) 5

/-- The largest object that has a size class. -/
def maxObjectSize : ℕ := class2Size (numBins - 1)

/-- The loop of `free` that goes down to a class that is not larger than the object. -/
def classDown : ℕ → ℕ → ℕ
  | 0, _ => 0
  | c + 1, objectSize => if objectSize < class2Size (c + 1) then classDown c objectSize else c + 1

theorem maxObjectSize_eq : maxObjectSize = 2 ^ 31 := by decide +kernel

theorem class2Size_of_lt {k : ℕ} (h : k < numBins) : class2Size k = 2 ^ (k + 3) := by
  refine Nat.mod_eq_of_lt (Nat.pow_lt_pow_right (by omega) ?_)
  have : k < 29 := h
  omega

/-- The loop stops at the number of halvings that bring the value to 7 or less. -/
theorem halve_spec {fuel s c : ℕ} (h : s < 2 ^ (fuel + 3)) :
    ∃ j, halve fuel s c = c + j ∧ s < 2 ^ (j + 3) ∧ (j = 0 ∨ 2 ^ (j + 2) ≤ s) := by
  induction fuel generalizing s c with
  | zero => exact ⟨0, rfl, h, .inl rfl⟩
  | succ fuel ih =>
      rw [halve]
      split
      · rename_i h7
        have hhalf : s / 2 < 2 ^ (fuel + 3) := by
          rw [Nat.div_lt_iff_lt_mul Nat.two_pos, ← Nat.pow_succ]
          exact h
        obtain ⟨j, hj, hlt, hge⟩ := ih (c := c + 1) hhalf
        refine ⟨j + 1, by omega, ?_, .inr ?_⟩
        · rw [Nat.div_lt_iff_lt_mul Nat.two_pos, ← Nat.pow_succ] at hlt
          exact hlt
        · rcases hge with rfl | hge
          · exact h7
          · rw [Nat.le_div_iff_mul_le Nat.two_pos, ← Nat.pow_succ] at hge
            exact hge
      · rename_i h7
        exact ⟨0, rfl, by omega, .inl rfl⟩

/-- A size up to the largest object fits its class. -/
theorem size2Class_spec {sz : ℕ} (h : sz ≤ maxObjectSize) :
    size2Class sz < numBins ∧ sz ≤ class2Size (size2Class sz) := by
  rw [maxObjectSize_eq] at h
  unfold size2Class
  dsimp only
  by_cases h128 : (if sz < 8 then 8 else sz) ≤ 128
  · rw [if_pos h128]
    have hsmall : ∀ k < 129, cl.getD ((k - 1) / 8) 0 < numBins ∧
        k ≤ class2Size (cl.getD ((k - 1) / 8) 0) := by decide +kernel
    obtain ⟨h₁, h₂⟩ := hsmall (if sz < 8 then 8 else sz) (by omega)
    refine ⟨h₁, le_trans ?_ h₂⟩
    split <;> omega
  · rw [if_neg h128]
    have hsz : (if sz < 8 then 8 else sz) = sz := by
      split
      · rw [if_pos ‹_›] at h128
        omega
      · rfl
    rw [hsz] at h128 ⊢
    obtain ⟨j, hj, hlt, hge⟩ := halve_spec (c := 5)
      (show (sz - 1) / 32 < 2 ^ (64 + 3) by omega)
    have hbin : 5 + j < numBins := by
      have h26 : (sz - 1) / 32 < 2 ^ 26 := by omega
      rcases hge with rfl | hge
      · decide
      · have hj26 : j + 2 < 26 := (Nat.pow_lt_pow_iff_right Nat.one_lt_two).mp (hge.trans_lt h26)
        change 5 + j < 29
        omega
    rw [hj, class2Size_of_lt hbin]
    refine ⟨hbin, ?_⟩
    have hpow : 2 ^ (5 + j + 3) = 2 ^ (j + 3) * 32 := by
      rw [show 5 + j + 3 = j + 3 + 5 by omega, Nat.pow_add]
    rw [hpow]
    omega

/-- The class is found again from the size of an object of this class. -/
theorem size2Class_class2Size {k : ℕ} (h : k < numBins) : size2Class (class2Size k) = k := by
  have hall : ∀ k < numBins, size2Class (class2Size k) = k := by decide +kernel
  exact hall k h

theorem class2Size_le_max {k : ℕ} (h : k < numBins) : class2Size k ≤ maxObjectSize := by
  have hall : ∀ k < numBins, class2Size k ≤ maxObjectSize := by decide +kernel
  exact hall k h

/-- The class an object of at least 8 bytes goes to is not larger than the object. -/
theorem classDown_le {c sz : ℕ} (h : 8 ≤ sz) : class2Size (classDown c sz) ≤ sz := by
  induction c with
  | zero => exact h
  | succ c ih =>
      rw [classDown]
      split
      · exact ih
      · omega

theorem classDown_self (c : ℕ) : classDown c (class2Size c) = c := by
  cases c with
  | zero => rfl
  | succ c => exact if_neg (lt_irrefl _)

end Dthreads.Allocator.Kingsley
