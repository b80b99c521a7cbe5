import Mathlib.Data.Fintype.Pi
import Dthreads.Merge.Overlay

/-! # Pages

A page is seen as the array of `long long` words that `writePageDiffs` walks, each word as
its eight bytes. -/

namespace Dthreads

/-- A thread is a process; it is named by its pid. -/
abbrev Tid := ℕ

namespace Memory

abbrev Byte := UInt8

/-- `sizeof(long long)`. -/
abbrev Word := Fin 8 → Byte

/-- `xdefines::PageSize / sizeof(long long)` words. -/
abbrev Page := Fin 512 → Word

instance instNeZeroWord : @NeZero ℕ Zero.ofOfNat0 8 := ⟨by decide⟩

instance instNeZeroPage : @NeZero ℕ Zero.ofOfNat0 512 := ⟨by decide⟩

/-- A condition on the page, if there is one, is decided on this page, not on all pages. -/
instance {P : Page → Prop} [DecidablePred P] (c : Option Page) : Decidable (∀ b ∈ c, P b) :=
  Option.decidableForallMem c

/-- `xdefines::PageSize`. -/
def pageSize : ℕ := 4096

/-- A byte of the protected region: page number, word of the page, byte of the word. -/
structure Addr where
  page : ℕ
  word : Fin 512
  byte : Fin 8
  deriving DecidableEq, Repr

/-- The first word of a synchronisation object. -/
structure SyncAddr where
  page : ℕ
  word : Fin 512
  deriving DecidableEq, Repr

def SyncAddr.bytes (o : SyncAddr) (j : Fin 8) : Addr := ⟨o.page, o.word, j⟩

/-- Copy the bytes of `src` that differ from `twin`. -/
def commitWord (src twin dest : Word) : Word :=
  fun j => if src j ≠ twin j then src j else dest j

/-- The word-then-byte path: only differing words reach `commitWord`. -/
def writePageDiffs (loc twin dest : Page) : Page :=
  fun i => if loc i ≠ twin i then commitWord (loc i) (twin i) (dest i) else dest i

/-- `writePageDiffs` decides every byte of the page on its own. -/
theorem writePageDiffs_apply (loc twin dest : Page) (i : Fin 512) (j : Fin 8) :
    writePageDiffs loc twin dest i j =
      if loc i j ≠ twin i j then loc i j else dest i j := by
  unfold writePageDiffs
  by_cases h : loc i = twin i
  · simp [h]
  · simp [h, commitWord]

theorem writePageDiffs_of_eq {loc twin : Page} (dest : Page) {i : Fin 512} {j : Fin 8}
    (h : loc i j = twin i j) : writePageDiffs loc twin dest i j = dest i j := by
  simp [writePageDiffs_apply, h]

theorem writePageDiffs_of_ne {loc twin : Page} (dest : Page) {i : Fin 512} {j : Fin 8}
    (h : loc i j ≠ twin i j) : writePageDiffs loc twin dest i j = loc i j := by
  simp [writePageDiffs_apply, h]

/-- A whole word that agrees with the twin is left alone. -/
theorem writePageDiffs_word_of_eq {loc twin : Page} (dest : Page) {i : Fin 512}
    (h : loc i = twin i) : writePageDiffs loc twin dest i = dest i := by
  simp [writePageDiffs, h]

/-- The cells of a page, one for each byte. -/
def Page.cell (p : Page) : Fin 512 × Fin 8 → Byte := fun c => p c.1 c.2

@[simp] theorem Page.cell_apply (p : Page) (i : Fin 512) (j : Fin 8) :
    p.cell (i, j) = p i j := rfl

theorem Page.ext_cell {p q : Page} (h : p.cell = q.cell) : p = q := by
  funext i j
  exact congrFun h (i, j)

/-- The page diff is the overlay of the two copies. -/
theorem writePageDiffs_cell (loc twin dest : Page) :
    (writePageDiffs loc twin dest).cell = Merge.overlay loc.cell twin.cell dest.cell := by
  funext ⟨i, j⟩
  exact writePageDiffs_apply loc twin dest i j

/-- Against the content the copy was taken from, the diff is the copy. -/
theorem writePageDiffs_base (loc base : Page) : writePageDiffs loc base base = loc := by
  apply Page.ext_cell
  rw [writePageDiffs_cell, Merge.overlay_self_base]

/-- A page that has the bytes of the copy already is left alone, whatever the twin. -/
theorem writePageDiffs_same (loc twin : Page) : writePageDiffs loc twin loc = loc := by
  funext i j
  rw [writePageDiffs_apply, ite_self]

/-- Replace one word of a page. -/
def Page.setWord (p : Page) (i : Fin 512) (w : Word) : Page := Function.update p i w

@[simp] theorem Page.setWord_same (p : Page) (i : Fin 512) (w : Word) : p.setWord i w i = w := by
  simp [Page.setWord]

@[simp] theorem Page.setWord_of_ne (p : Page) {i k : Fin 512} (w : Word) (h : k ≠ i) :
    p.setWord i w k = p k := by
  simp [Page.setWord, h]

end Memory

end Dthreads
