import Dthreads.Allocator.Kingsley
import Mathlib.Logic.Function.Basic

/-! # The layers of the heap

What one `malloc`, `calloc` or `free` does on its way through the heap layers. Memory is one address
space here, a free list is the list of its objects, and every addition of sizes is modulo `2 ^ 64`.
`NULL` is 0, and `none` is a process that exits or aborts. -/

namespace Dthreads.Allocator

open Kingsley

/-- A `size_t`. -/
abbrev SizeT := Fin (2 ^ 64)

/-- An index below `NUM_HEAPS`. -/
abbrev HeapId := Fin 32

/-- The bytes from `start` on, `length` of them. -/
structure Span where
  start : ℕ
  length : ℕ
  deriving DecidableEq, Repr

namespace Span

def stop (s : Span) : ℕ := s.start + s.length

def Within (s t : Span) : Prop := t.start ≤ s.start ∧ s.stop ≤ t.stop

def Disjoint (s t : Span) : Prop := s.stop ≤ t.start ∨ t.stop ≤ s.start

end Span

/-- `align`: up to a multiple of `sizeof(double)`. -/
def align (sz : ℕ) : ℕ := (sz + 7) % 2 ^ 64 / 8 * 8

/-! ## The page-grained bump allocator -/

structure XHeap where
  position : ℕ
  remaining : ℕ
  deriving DecidableEq, Repr

/-- Up to whole pages. -/
def pageRound (sz : ℕ) : ℕ := 4096 * ((sz + 4095) % 2 ^ 64 / 4096) % 2 ^ 64

/-- `xheap::malloc`; the ownership of the pages is the business of the page machine. -/
def XHeap.malloc (x : XHeap) (sz : ℕ) : Option (ℕ × XHeap) :=
  if x.remaining = 0 then none
  else if x.remaining < pageRound sz then none
  else some (x.position,
    { position := x.position + pageRound sz, remaining := x.remaining - pageRound sz })

/-! ## Arenas -/

/-- `Arena`, which lies in the first 32 bytes of its chunk. -/
structure Arena where
  remaining : ℕ
  arenaSpace : ℕ
  deriving DecidableEq, Repr

def Arena.malloc (a : Arena) (sz : ℕ) : ℕ × Arena :=
  if a.remaining < sz then (0, a)
  else (a.arenaSpace, { remaining := a.remaining - sz, arenaSpace := a.arenaSpace + sz })

/-- The heaps of all heap ids over one `xheap`. `header` holds the sizes in the object headers, by the
address of the object. The last two fields record what was handed out: the chunks of `xheap`, and the
blocks of the arenas. -/
structure Heap where
  xheap : XHeap
  arena : HeapId → Option Arena
  bins : HeapId → ℕ → List ℕ
  header : ℕ → Option ℕ
  chunks : List (HeapId × Span)
  blocks : List Span

/-- `PROTECTEDHEAP_CHUNK`. -/
def chunkSize : ℕ := 10485760

namespace Heap

/-- `Arena::malloc` on an arena that is, or becomes, the current one. -/
def carve (h : Heap) (id : HeapId) (a : Arena) (sz : ℕ) : ℕ × Heap :=
  ((a.malloc sz).1,
    { h with
      arena := Function.update h.arena id (some (a.malloc sz).2)
      blocks := ⟨(a.malloc sz).1, sz⟩ :: h.blocks })

/-- The bytes of a new arena, in which a block of `sz` bytes has room. -/
def allocSize (sz : ℕ) : ℕ := if chunkSize < sz then sz else chunkSize

/-- The heap after `xheap` gave a chunk. -/
def chunked (h : Heap) (id : HeapId) (buf : ℕ) (x : XHeap) : Heap :=
  { h with xheap := x, chunks := (id, ⟨buf, x.position - buf⟩) :: h.chunks }

/-- `slowMalloc`: a new arena. -/
def slowMalloc (h : Heap) (id : HeapId) (sz : ℕ) : Option (ℕ × Heap) :=
  (h.xheap.malloc ((32 + allocSize sz) % 2 ^ 64)).map fun (buf, x) =>
    if buf = 0 then (0, { h.chunked id buf x with arena := Function.update h.arena id none })
    else (h.chunked id buf x).carve id { remaining := allocSize sz, arenaSpace := buf + 32 } sz

def zoneMalloc (h : Heap) (id : HeapId) (sz : ℕ) : Option (ℕ × Heap) :=
  let sz := align sz
  match h.arena id with
  | some a => if sz ≤ a.remaining then some (h.carve id a sz) else h.slowMalloc id sz
  | none => h.slowMalloc id sz

/-- `NewSourceHeap::malloc`: an object behind a header of 16 bytes. -/
def newSourceMalloc (h : Heap) (id : HeapId) (sz : ℕ) : Option (ℕ × Heap) :=
  (h.zoneMalloc id ((sz + 16) % 2 ^ 64)).map fun (p, h) =>
    if p = 0 then (0, h)
    else (p + 16, { h with header := Function.update h.header (p + 16) (some sz) })

/-- `StrictSegHeap::malloc`. -/
def strictSegMalloc (h : Heap) (id : HeapId) (sz : ℕ) : Option (ℕ × Heap) :=
  if sz ≤ maxObjectSize then
    match h.bins id (size2Class sz) with
    | p :: ps =>
        some (p, { h with
          bins := Function.update h.bins id (Function.update (h.bins id) (size2Class sz) ps) })
    | [] => h.newSourceMalloc id (class2Size (size2Class sz))
  else h.newSourceMalloc id sz

/-- `ANSIWrapper::malloc`, `PPHeap::malloc` and `xmemory::malloc`. -/
def malloc (h : Heap) (id : HeapId) (sz : ℕ) : Option (ℕ × Heap) :=
  h.strictSegMalloc id (align (if sz < 16 then 16 else sz))

/-- `memset` on the object at `p`. Addresses end at `2 ^ 47`; a store beyond is a map error, on which
the fault handler aborts. -/
def memset (h : Heap) (p n : ℕ) : Option Heap :=
  if p + n ≤ 2 ^ 47 then some h else none

/-- `xrun::calloc`. -/
def xrunCalloc (h : Heap) (id : HeapId) (nmemb sz : ℕ) : Option (ℕ × Heap) :=
  (h.malloc id (nmemb * sz % 2 ^ 64)).bind fun (p, h) =>
    (h.memset p (nmemb * sz % 2 ^ 64)).map fun h => (p, h)

/-- `calloc`. -/
def calloc (h : Heap) (id : HeapId) (nmemb sz : ℕ) : Option (ℕ × Heap) :=
  (h.xrunCalloc id nmemb sz).bind fun (p, h) =>
    if p = 0 then none
    else (h.memset p (sz * nmemb % 2 ^ 64)).map fun h => (p, h)

/-- `StrictSegHeap::free` below `ANSIWrapper` and `PPHeap`; a header without the magic number aborts. -/
def free (h : Heap) (id : HeapId) (p : ℕ) : Option Heap :=
  if p = 0 then some h
  else
    (h.header p).map fun objectSize =>
      if objectSize = 0 ∨ maxObjectSize < objectSize then h
      else
        let c := classDown (size2Class objectSize) objectSize
        { h with
          bins := Function.update h.bins id (Function.update (h.bins id) c (p :: h.bins id c)) }

end Heap

/-! ## Requests -/

/-- Where the kernel mapped the region of `PROTECTEDHEAP_SIZE` bytes. -/
structure Region where
  base : ℕ
  pos : 0 < base
  aligned : 4096 ∣ base
  le : base + 2 ^ 32 ≤ 2 ^ 47

/-- The heap set up by the constructors. -/
def boot (r : Region) : Heap where
  xheap := { position := r.base, remaining := 2 ^ 32 }
  arena _ := none
  bins _ _ := []
  header _ := none
  chunks := []
  blocks := []

/-- A call of a thread whose heap id is `id`. -/
inductive Request where
  | malloc (id : HeapId) (sz : SizeT)
  | calloc (id : HeapId) (nmemb sz : SizeT)
  | free (id : HeapId) (p : ℕ)

def Heap.step (h : Heap) : Request → Option Heap
  | .malloc id sz => (h.malloc id sz).map (·.2)
  | .calloc id nmemb sz => (h.calloc id nmemb sz).map (·.2)
  | .free id p => h.free id p

end Dthreads.Allocator
