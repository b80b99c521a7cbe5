import Mathlib.Data.List.Perm.Basic
import Dthreads.Allocator.Layers
import Dthreads.Bytes.Words

/-! # What a heap is for

A program asks for objects, stores to them and gives them back. All that it may rely on is written in
a ledger: an object is given out only if it lies in the region and shares no byte with an object that
the program holds, and the bytes of an object change only when the program stores to them. -/

namespace Dthreads.Allocator

/-- `size` bytes that were asked for, from `ptr` on. -/
structure Object where
  ptr : ℕ
  size : ℕ
  deriving DecidableEq, Repr

namespace Object

def span (o : Object) : Span := ⟨o.ptr, o.size⟩

/-- The objects have different addresses and no byte in common. -/
def Apart (o o' : Object) : Prop := o.ptr ≠ o'.ptr ∧ o.span.Disjoint o'.span

/-- The address is that of a byte of the object. -/
def Has (o : Object) (a : ℕ) : Prop := o.ptr ≤ a ∧ a < o.ptr + o.size

/-- An object is found by its address. -/
theorem find_ptr {os : List Object} {o : Object} (hos : os.Pairwise Apart) (ho : o ∈ os) :
    os.find? (fun o' => o'.ptr = o.ptr) = some o := by
  induction os with
  | nil => cases ho
  | cons x os ih =>
      rcases List.mem_cons.mp ho with rfl | hmem
      · simp
      · have hne : x.ptr ≠ o.ptr := (List.rel_of_pairwise_cons hos hmem).1
        rw [List.find?_cons_of_neg (by simpa using hne)]
        exact ih hos.tail hmem

end Object

/-- The objects that a program holds, and their bytes. -/
structure Ledger (r : Region) where
  held : List Object
  bytes : ℕ → UInt8
  inside : ∀ o ∈ held, o.span.Within ⟨r.base, 2 ^ 32⟩
  apart : held.Pairwise Object.Apart

namespace Ledger

variable {r : Region}

def empty (r : Region) (m : ℕ → UInt8) : Ledger r := ⟨[], m, by simp, .nil⟩

/-- The object may be given to the program. -/
def Free (l : Ledger r) (o : Object) : Prop :=
  o.span.Within ⟨r.base, 2 ^ 32⟩ ∧ ∀ o' ∈ l.held, o.Apart o'

/-- The object is written down, with its bytes. -/
def enter (l : Ledger r) (o : Object) (f : ℕ → UInt8) (h : l.Free o) : Ledger r where
  held := o :: l.held
  bytes := Bytes.overwrite l.bytes o.ptr o.size f
  inside o' ho' := by
    rcases List.mem_cons.mp ho' with rfl | ho'
    · exact h.1
    · exact l.inside o' ho'
  apart := List.pairwise_cons.mpr ⟨h.2, l.apart⟩

/-- The object at `p` is struck out. -/
def strike (l : Ledger r) (p : ℕ) : Ledger r where
  held := l.held.filter fun o => o.ptr ≠ p
  bytes := l.bytes
  inside o ho := l.inside o (List.mem_filter.mp ho).1
  apart := l.apart.filter _

/-- A byte of an object is changed. -/
def put (l : Ledger r) (a : ℕ) (b : UInt8) : Ledger r :=
  { l with bytes := Function.update l.bytes a b }

/-- The bytes of the object `o`, as far as `o'` has as many, are those of `o'`. -/
def copied (l : Ledger r) (o' o : Object) (f : ℕ → UInt8) : ℕ → UInt8 := fun a =>
  if a - o.ptr < o'.size then l.bytes (o'.ptr + (a - o.ptr)) else f a

/-- What happens between the program and the heap. -/
inductive Event where
  /-- The program is given `o`, with the bytes of `f`. -/
  | give (o : Object) (f : ℕ → UInt8)
  | take (p : ℕ)
  /-- `o` is given for the object at `p`; the bytes that this has not are those of `f`. -/
  | resize (p : ℕ) (o : Object) (f : ℕ → UInt8)
  | store (a : ℕ) (b : UInt8)

open Classical in
noncomputable def step (l : Ledger r) : Event → Option (Ledger r)
  | .give o f => if h : l.Free o then some (l.enter o f h) else none
  | .take p => if ∃ o ∈ l.held, o.ptr = p then some (l.strike p) else none
  | .resize p o f =>
      (l.held.find? (fun o' => o'.ptr = p)).bind fun o' =>
        if h : l.Free o then some ((l.enter o (l.copied o' o f) h).strike p) else none
  | .store a b => if ∃ o ∈ l.held, o.Has a then some (l.put a b) else none

variable {l : Ledger r} {o o' : Object} {p a : ℕ} {f : ℕ → UInt8} {b : UInt8}

theorem step_give (h : l.Free o) : l.step (.give o f) = some (l.enter o f h) :=
  dif_pos h

theorem step_take (h : ∃ o ∈ l.held, o.ptr = p) : l.step (.take p) = some (l.strike p) :=
  if_pos h

theorem step_store (h : ∃ o ∈ l.held, o.Has a) : l.step (.store a b) = some (l.put a b) :=
  if_pos h

theorem step_resize (ho : o' ∈ l.held) (h : l.Free o) :
    l.step (.resize o'.ptr o f) = some ((l.enter o (l.copied o' o f) h).strike o'.ptr) := by
  have hfind := Object.find_ptr l.apart ho
  simp only [step, hfind, Option.bind_some, dif_pos h]

end Ledger

end Dthreads.Allocator
