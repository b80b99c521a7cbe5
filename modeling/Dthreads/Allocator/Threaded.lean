import Dthreads.Allocator.Layers
import Dthreads.Bytes.Words

/-! # The heap in its own memory

The layers again, with their data where the program has it: an arena keeps its counters in the first
bytes of its chunk, an object its size in the 16 bytes before it, and a free list is threaded through
the objects that are free. All this is memory that a program can store to. -/

namespace Dthreads.Allocator

open Kingsley Bytes

/-- The memory of the region, and what the heap keeps outside of it. -/
structure Threaded where
  memory : ℕ → UInt8
  xheap : XHeap
  currentArena : HeapId → ℕ
  pastArenas : HeapId → ℕ
  /-- `head.next` of the free list of a class. -/
  head : HeapId → ℕ → ℕ

namespace Threaded

def word (t : Threaded) (a : ℕ) : ℕ := load t.memory a 8

def setWord (t : Threaded) (a v : ℕ) : Threaded := { t with memory := store t.memory a v 8 }

/-! ## Arenas

`_remaining`, `_nextArena` and `_arenaSpace` are the first three words of an arena. -/

/-- `new (buf) Arena (sz)`. -/
def newArena (t : Threaded) (buf sz : ℕ) : Threaded :=
  ((t.setWord buf sz).setWord (buf + 8) 0).setWord (buf + 16) (buf + 32)

def arenaMalloc (t : Threaded) (arena sz : ℕ) : ℕ × Threaded :=
  if t.word arena < sz then (0, t)
  else
    let t := t.setWord arena (t.word arena - sz)
    (t.word (arena + 16), t.setWord (arena + 16) (t.word (arena + 16) + sz))

/-- The current arena goes to the past arenas. -/
def retire (t : Threaded) (id : HeapId) : Threaded :=
  if t.currentArena id = 0 then t
  else
    { t.setWord (t.currentArena id + 8) (t.pastArenas id) with
      pastArenas := Function.update t.pastArenas id (t.currentArena id)
      currentArena := Function.update t.currentArena id 0 }

def slowMalloc (t : Threaded) (id : HeapId) (sz : ℕ) : Option (ℕ × Threaded) :=
  let t := t.retire id
  (t.xheap.malloc ((32 + Heap.allocSize sz) % 2 ^ 64)).map fun (buf, x) =>
    if buf = 0 then (0, { t with xheap := x })
    else
      { t.newArena buf (Heap.allocSize sz) with
        xheap := x
        currentArena := Function.update t.currentArena id buf }.arenaMalloc buf sz

def zoneMalloc (t : Threaded) (id : HeapId) (sz : ℕ) : Option (ℕ × Threaded) :=
  let sz := align sz
  if t.currentArena id ≠ 0 ∧ sz ≤ t.word (t.currentArena id) then
    some (t.arenaMalloc (t.currentArena id) sz)
  else t.slowMalloc id sz

/-! ## Objects -/

/-- `objectHeader::MAGIC`. -/
def magic : ℕ := 0xCAFEBABE

/-- `new (ptr) objectHeader (sz)`: `_magic`, then `_size`. -/
def newHeader (t : Threaded) (ptr sz : ℕ) : Threaded :=
  (t.setWord ptr magic).setWord (ptr + 8) sz

def newSourceMalloc (t : Threaded) (id : HeapId) (sz : ℕ) : Option (ℕ × Threaded) :=
  (t.zoneMalloc id ((sz + 16) % 2 ^ 64)).map fun (p, t) =>
    if p = 0 then (0, t) else (p + 16, t.newHeader p sz)

/-- `NewSourceHeap::getSize`, which aborts without the magic number. -/
def getSize (t : Threaded) (p : ℕ) : Option ℕ :=
  if t.word (p - 16) = magic then some (t.word (p - 8)) else none

/-- `SLList::get`. -/
def get (t : Threaded) (id : HeapId) (c : ℕ) : ℕ × Threaded :=
  if t.head id c = 0 then (0, t)
  else
    (t.head id c, { t with
      head := Function.update t.head id (Function.update (t.head id) c (t.word (t.head id c))) })

/-- `SLList::insert`. -/
def insert (t : Threaded) (id : HeapId) (c e : ℕ) : Threaded :=
  { t.setWord e (t.head id c) with
    head := Function.update t.head id (Function.update (t.head id) c e) }

def strictSegMalloc (t : Threaded) (id : HeapId) (sz : ℕ) : Option (ℕ × Threaded) :=
  if sz ≤ maxObjectSize then
    let (p, t) := t.get id (size2Class sz)
    if p = 0 then t.newSourceMalloc id (class2Size (size2Class sz)) else some (p, t)
  else t.newSourceMalloc id sz

def strictSegFree (t : Threaded) (id : HeapId) (p : ℕ) : Option Threaded :=
  (t.getSize p).map fun objectSize =>
    if objectSize = 0 ∨ maxObjectSize < objectSize then t
    else t.insert id (classDown (size2Class objectSize) objectSize) p

/-! ## The calls -/

def malloc (t : Threaded) (id : HeapId) (sz : ℕ) : Option (ℕ × Threaded) :=
  t.strictSegMalloc id (align (if sz < 16 then 16 else sz))

def free (t : Threaded) (id : HeapId) (p : ℕ) : Option Threaded :=
  if p = 0 then some t else t.strictSegFree id p

/-- `memset (p, 0, n)`. Addresses end at `2 ^ 47`. -/
def memset (t : Threaded) (p n : ℕ) : Option Threaded :=
  if p + n ≤ 2 ^ 47 then some { t with memory := overwrite t.memory p n fun _ => 0 } else none

/-- `memcpy (q, p, n)`. -/
def memcpy (t : Threaded) (q p n : ℕ) : Option Threaded :=
  if q + n ≤ 2 ^ 47 ∧ p + n ≤ 2 ^ 47 then
    some { t with memory := overwrite t.memory q n fun b => t.memory (b - q + p) }
  else none

/-- `xrun::calloc`. -/
def xrunCalloc (t : Threaded) (id : HeapId) (nmemb sz : ℕ) : Option (ℕ × Threaded) :=
  (t.malloc id (nmemb * sz % 2 ^ 64)).bind fun (p, t) =>
    (t.memset p (nmemb * sz % 2 ^ 64)).map fun t => (p, t)

/-- `calloc`. -/
def calloc (t : Threaded) (id : HeapId) (nmemb sz : ℕ) : Option (ℕ × Threaded) :=
  (t.xrunCalloc id nmemb sz).bind fun (p, t) =>
    if p = 0 then none
    else (t.memset p (sz * nmemb % 2 ^ 64)).map fun t => (p, t)

/-- `xmemory::realloc`. -/
def xmemoryRealloc (t : Threaded) (id : HeapId) (p sz : ℕ) : Option (ℕ × Threaded) :=
  (t.getSize p).bind fun s =>
    (t.malloc id sz).bind fun (q, t) =>
      (if q = 0 then some t else t.memcpy q p (if s < sz then s else sz)).bind fun t =>
        (t.free id p).map fun t => (q, t)

/-- `xrun::realloc`. -/
def realloc (t : Threaded) (id : HeapId) (p sz : ℕ) : Option (ℕ × Threaded) :=
  if p = 0 then t.malloc id sz
  else if sz = 0 then (t.free id p).map fun t => (0, t)
  else t.xmemoryRealloc id p sz

/-- The heap set up by the constructors, over any bytes. -/
def boot (r : Region) (m : ℕ → UInt8) : Threaded where
  memory := m
  xheap := { position := r.base, remaining := 2 ^ 32 }
  currentArena _ := 0
  pastArenas _ := 0
  head _ _ := 0

/-! ## Reading and storing words -/

variable {t : Threaded} {a b v : ℕ}

@[simp] theorem setWord_xheap : (t.setWord a v).xheap = t.xheap := rfl
@[simp] theorem setWord_currentArena : (t.setWord a v).currentArena = t.currentArena := rfl
@[simp] theorem setWord_pastArenas : (t.setWord a v).pastArenas = t.pastArenas := rfl
@[simp] theorem setWord_head : (t.setWord a v).head = t.head := rfl

theorem word_lt : t.word a < 2 ^ 64 := load_lt

theorem word_setWord_self (h : v < 2 ^ 64) : (t.setWord a v).word a = v := load_store_self h

theorem word_setWord_of_outside (h : b + 8 ≤ a ∨ a + 8 ≤ b) :
    (t.setWord a v).word b = t.word b :=
  load_store_of_outside h

theorem memory_setWord_of_outside (h : b < a ∨ a + 8 ≤ b) :
    (t.setWord a v).memory b = t.memory b :=
  store_of_outside h

/-- Words are equal where the bytes are. -/
theorem word_congr {t' : Threaded} (h : ∀ i < 8, t'.memory (a + i) = t.memory (a + i)) :
    t'.word a = t.word a :=
  load_congr h

end Threaded

end Dthreads.Allocator
