import Mathlib.Algebra.Order.Monoid.NatCast
import Mathlib.Logic.Function.Basic
import Mathlib.Tactic.Ring

/-! # Words in a memory of bytes

A word of `n` bytes is stored with its low byte first. -/

namespace Dthreads.Bytes

variable {m m' : ℕ → UInt8} {a b n v : ℕ}

/-- The word of `n` bytes at `a`. -/
def load (m : ℕ → UInt8) (a : ℕ) : ℕ → ℕ
  | 0 => 0
  | n + 1 => (m a).toNat + 256 * load m (a + 1) n

/-- The low `n` bytes of `v` are stored at `a`. -/
def store (m : ℕ → UInt8) (a v : ℕ) : ℕ → ℕ → UInt8
  | 0 => m
  | n + 1 => store (Function.update m a (UInt8.ofNat v)) (a + 1) (v / 256) n

theorem load_lt : load m a n < 256 ^ n := by
  induction n generalizing a with
  | zero => simp [load]
  | succ n ih =>
      have hbyte : (m a).toNat < 256 := (m a).toNat_lt
      have hrest := ih (a := a + 1)
      rw [load, Nat.pow_succ]
      omega

theorem load_congr (h : ∀ i < n, m' (a + i) = m (a + i)) : load m' a n = load m a n := by
  induction n generalizing a with
  | zero => rfl
  | succ n ih =>
      have hhead : m' a = m a := h 0 n.succ_pos
      have htail : load m' (a + 1) n = load m (a + 1) n := by
        apply ih
        intro i hi
        rw [Nat.add_assoc, Nat.add_comm 1 i]
        exact h (i + 1) (Nat.succ_lt_succ hi)
      rw [load, load, hhead, htail]

theorem store_of_outside (h : b < a ∨ a + n ≤ b) : store m a v n b = m b := by
  induction n generalizing m a v with
  | zero => rfl
  | succ n ih =>
      rw [store, ih (by omega), Function.update_of_ne (by omega)]

theorem load_store_of_outside {k : ℕ} (h : b + k ≤ a ∨ a + n ≤ b) :
    load (store m a v n) b k = load m b k := by
  apply load_congr
  intro i hi
  exact store_of_outside (by omega)

theorem load_store_self (h : v < 256 ^ n) : load (store m a v n) a n = v := by
  induction n generalizing m a v with
  | zero =>
      rw [Nat.pow_zero] at h
      rw [load]
      omega
  | succ n ih =>
      have hhead : store (Function.update m a (UInt8.ofNat v)) (a + 1) (v / 256) n a =
          UInt8.ofNat v := by
        rw [store_of_outside (.inl (Nat.lt_succ_self a)), Function.update_self]
      have htail : v / 256 < 256 ^ n := by
        rw [Nat.div_lt_iff_lt_mul (by decide), ← Nat.pow_succ]
        exact h
      rw [store, load, hhead, ih htail, UInt8.toNat_ofNat']
      omega

/-! ## Runs of bytes -/

/-- The bytes `a`, ..., `a + n - 1` are those of `f`. -/
def overwrite (m : ℕ → UInt8) (a n : ℕ) (f : ℕ → UInt8) : ℕ → UInt8 := fun b =>
  if a ≤ b ∧ b < a + n then f b else m b

theorem overwrite_of_outside {f : ℕ → UInt8} (h : b < a ∨ a + n ≤ b) : overwrite m a n f b = m b :=
  if_neg (by omega)

theorem overwrite_of_inside {f : ℕ → UInt8} (h : a ≤ b) (h' : b < a + n) :
    overwrite m a n f b = f b :=
  if_pos ⟨h, h'⟩

end Dthreads.Bytes
