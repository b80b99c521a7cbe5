import Mathlib.Data.List.Induction
import Mathlib.Data.List.Pairwise

/-! # Overlays

An overlay writes into a destination the cells of a modified copy that differ from the
base it was taken from. Folding overlays over a sequence of transactions gives
last-committer-wins for each cell. -/

namespace Dthreads.Merge

variable {ι β : Type*} [DecidableEq β]

/-- Write the cells of `copy` that differ from `base` into `dest`. -/
def overlay (copy base dest : ι → β) : ι → β :=
  fun i => if copy i ≠ base i then copy i else dest i

theorem overlay_apply (copy base dest : ι → β) (i : ι) :
    overlay copy base dest i = if copy i ≠ base i then copy i else dest i := rfl

theorem overlay_of_ne {copy base : ι → β} (dest : ι → β) {i : ι} (h : copy i ≠ base i) :
    overlay copy base dest i = copy i := by
  simp [overlay, h]

theorem overlay_of_eq {copy base : ι → β} (dest : ι → β) {i : ι} (h : copy i = base i) :
    overlay copy base dest i = dest i := by
  simp [overlay, h]

/-- Copying the whole of `copy` over its own base writes no more than the overlay does. -/
@[simp] theorem overlay_self_base (copy base : ι → β) : overlay copy base base = copy := by
  funext i
  by_cases h : copy i = base i <;> simp [overlay, h]

/-- A transaction: the content it started from and the content it ended with. -/
structure Txn (ι β : Type*) where
  base : ι → β
  copy : ι → β

/-- The cells a transaction changed. -/
def Txn.Changes (x : Txn ι β) (i : ι) : Prop := x.copy i ≠ x.base i

/-- The value of cell `i` after the transactions of the list committed in order: the value
written by the last one that changed it, or the initial value. -/
def lastWriter (init : ι → β) (xs : List (Txn ι β)) : ι → β :=
  xs.foldl (fun dest x => overlay x.copy x.base dest) init

@[simp] theorem lastWriter_nil (init : ι → β) : lastWriter init [] = init := rfl

theorem lastWriter_append_singleton (init : ι → β) (xs : List (Txn ι β)) (x : Txn ι β) :
    lastWriter init (xs ++ [x]) = overlay x.copy x.base (lastWriter init xs) := by
  simp [lastWriter, List.foldl_append]

/-- No cell is changed by both. -/
def Txn.Disjoint (x y : Txn ι β) : Prop := ∀ i, ¬ (x.Changes i ∧ y.Changes i)

omit [DecidableEq β] in
theorem Txn.Disjoint.symm {x y : Txn ι β} (h : x.Disjoint y) : y.Disjoint x :=
  fun i hi => h i hi.symm

theorem overlay_comm {x y : Txn ι β} (h : x.Disjoint y) (dest : ι → β) :
    overlay y.copy y.base (overlay x.copy x.base dest) =
      overlay x.copy x.base (overlay y.copy y.base dest) := by
  funext i
  by_cases hx : x.Changes i
  · have hy : y.copy i = y.base i := not_not.mp fun hy => h i ⟨hx, hy⟩
    rw [overlay_of_eq _ hy, overlay_of_ne _ hx, overlay_of_ne _ hx]
  · rw [overlay_of_eq _ (not_not.mp hx)]
    by_cases hy : y.Changes i
    · rw [overlay_of_ne _ hy, overlay_of_ne _ hy]
    · rw [overlay_of_eq _ (not_not.mp hy), overlay_of_eq _ (not_not.mp hy),
        overlay_of_eq _ (not_not.mp hx)]

/-- Transactions that change different cells can be committed in any order. -/
theorem lastWriter_perm {init : ι → β} {xs ys : List (Txn ι β)} (hp : xs.Perm ys)
    (hd : xs.Pairwise Txn.Disjoint) : lastWriter init xs = lastWriter init ys := by
  have : Std.Symm (Txn.Disjoint (ι := ι) (β := β)) := ⟨fun _ _ => Txn.Disjoint.symm⟩
  refine hp.foldl_eq' (fun x hx y hy dest => ?_) init
  by_cases hxy : x = y
  · rw [hxy]
  · exact overlay_comm (hd.forall hx hy hxy) dest

end Dthreads.Merge
