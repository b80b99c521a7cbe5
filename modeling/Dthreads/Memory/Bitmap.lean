import Dthreads.Memory.Page

/-! # Twin storage

`xbitmap` keeps its allocation counter, the version slots and the twin pages in one shared
mapping. Twin pages start two pages into the mapping, and the version slots grow upwards from
its second word, so a large index writes its version inside an earlier twin page. -/

namespace Dthreads.Memory

/-- `INITIAL_PAGES`. -/
def initialPages : ℕ := 81920

/-- The shared mapping of `xbitmap`: its counter `*_cur`, and its bytes by offset. -/
structure Bitmap where
  cur : ℕ
  bytes : ℕ → Byte

namespace Bitmap

/-- Take the next index. Past the capacity test the source returns an uninitialised value,
its assertion being compiled out. -/
def get (b : Bitmap) : Option (ℕ × Bitmap) :=
  if b.cur + 1 < initialPages then some (b.cur, { b with cur := b.cur + 1 }) else none

/-- Offset of the twin page of `index` in the mapping. -/
def getAddress (index : ℕ) : ℕ := 2 * pageSize + index * pageSize

/-- The page found at `getAddress index`. -/
def twin (b : Bitmap) (index : ℕ) : Page :=
  fun i j => b.bytes (getAddress index + 8 * i + j)

/-- `memcpy` of a page to `getAddress index`. -/
def setTwin (b : Bitmap) (index : ℕ) (p : Page) : Bitmap :=
  { b with
    bytes := fun o =>
      if h : getAddress index ≤ o ∧ o < getAddress index + pageSize then
        p ⟨(o - getAddress index) / 8, by unfold pageSize at h; omega⟩
          ⟨(o - getAddress index) % 8, by omega⟩
      else b.bytes o }

/-- Offset of the version slot of `index`. -/
def versionSlot (index : ℕ) : ℕ := 4 + 4 * index

/-- Store the four bytes of a version. -/
def setVersion (b : Bitmap) (index : ℕ) (v : BitVec 32) : Bitmap :=
  { b with
    bytes := fun o =>
      if versionSlot index ≤ o ∧ o < versionSlot index + 4 then
        UInt8.ofNat (v.toNat / 256 ^ (o - versionSlot index))
      else b.bytes o }

/-- Run by the last thread that leaves a departure fence. -/
def cleanup (b : Bitmap) : Bitmap := { b with cur := 1 }

@[simp] theorem setTwin_cur (b : Bitmap) (index : ℕ) (p : Page) : (b.setTwin index p).cur = b.cur :=
  rfl

@[simp] theorem setVersion_cur (b : Bitmap) (index : ℕ) (v : BitVec 32) :
    (b.setVersion index v).cur = b.cur := rfl

@[simp] theorem twin_cleanup (b : Bitmap) (index : ℕ) : b.cleanup.twin index = b.twin index := rfl

@[simp] theorem twin_setTwin (b : Bitmap) (index : ℕ) (p : Page) :
    (b.setTwin index p).twin index = p := by
  funext i j
  have hi := i.isLt
  have hj := j.isLt
  simp only [twin, setTwin]
  rw [dif_pos (by unfold pageSize; omega)]
  have hw : (getAddress index + 8 * i + j - getAddress index) / 8 = i := by omega
  have hb : (getAddress index + 8 * i + j - getAddress index) % 8 = j := by omega
  exact congrArg₂ p (Fin.ext hw) (Fin.ext hb)

/-- Different indices designate disjoint pages. -/
theorem twin_setTwin_of_ne (b : Bitmap) {index k : ℕ} (p : Page) (h : k ≠ index) :
    (b.setTwin index p).twin k = b.twin k := by
  funext i j
  have hi := i.isLt
  have hj := j.isLt
  simp only [twin, setTwin]
  rw [dif_neg]
  unfold getAddress pageSize
  omega

/-- A version slot that ends below a twin page leaves it alone. -/
theorem twin_setVersion (b : Bitmap) {index k : ℕ} (v : BitVec 32)
    (h : versionSlot index + 4 ≤ getAddress k) :
    (b.setVersion index v).twin k = b.twin k := by
  funext i j
  simp only [twin, setVersion]
  rw [if_neg]
  omega

theorem versionSlot_le_self (index : ℕ) : versionSlot index + 4 ≤ getAddress index := by
  unfold versionSlot getAddress pageSize
  omega

/-- The slots of the first 3070 indices lie below every twin page. -/
theorem versionSlot_le {index k : ℕ} (hk : 0 < k) (h : index ≤ 3070) :
    versionSlot index + 4 ≤ getAddress k := by
  unfold versionSlot getAddress pageSize
  omega

theorem get_eq_some {b b' : Bitmap} {index : ℕ} (h : b.get = some (index, b')) :
    index = b.cur ∧ b' = { b with cur := b.cur + 1 } := by
  unfold get at h
  split at h
  · simp only [Option.some.injEq, Prod.mk.injEq] at h
    exact ⟨h.1.symm, h.2.symm⟩
  · simp at h

theorem get_isSome {b : Bitmap} (h : b.cur + 1 < initialPages) :
    b.get = some (b.cur, { b with cur := b.cur + 1 }) := by
  simp [get, h]

end Bitmap

end Dthreads.Memory
