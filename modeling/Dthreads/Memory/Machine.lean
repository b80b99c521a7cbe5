import Dthreads.Memory.Persist
import Dthreads.Transition.Run

/-! # The page machine

One label for each atomic action a process takes on the protected memory. The machine lets
any process take any enabled action at any time; the order in which the runtime issues them
is the business of the modules built on it. -/

namespace Dthreads.Memory

/-- An action of process `t`. -/
inductive Act where
  /-- A load from a readable page. -/
  | load (t : Tid) (a : Addr)
  /-- A store to writable pages: the new bytes are computed from the view of the process. -/
  | store (t : Tid) (as : List Addr) (f : (Addr → Byte) → Addr → Byte)
  /-- A write fault on an accessible page, handled by `handleWrite`. -/
  | fault (t : Tid) (p : ℕ)
  /-- A fault on an inaccessible page: `notifyOwnerToCommit`, once for each `sigqueue`. -/
  | notify (t : Tid) (p : ℕ)
  /-- The rest of that fault, once the page is shared. -/
  | mprotectRead (t : Tid) (p : ℕ)
  /-- The two stores of `setSyncEntry`. -/
  | setWord (t : Tid) (o : SyncAddr) (w : Word)
  | memWrite (t : Tid) (o : SyncAddr) (w : Word)
  /-- One turn of the loop of `checkandcommit(false)`. -/
  | commitEntry (t : Tid) (k : ℕ)
  /-- `begin(true)`. -/
  | begin (t : Tid)
  /-- One page of `finalcommit`. -/
  | finalcommit (t : Tid) (p : ℕ) (release : Bool)
  | superblock (t : Tid) (pages : ℕ)
  /-- Delivery of a queued `SIGUSR1`. -/
  | signal (t : Tid) (p : ℕ)
  /-- `xbitmap::cleanup`. -/
  | cleanup
  | openProtection (t : Tid)
  | closeProtection (t : Tid)
  | fork (t child : Tid)
  | exit (t : Tid)

namespace Mem

/-- The address can be stored to without a fault. -/
def writable (m : Mem) (t : Tid) (p : ℕ) : Prop := (m.spaces t).prot p = .readWrite

instance (m : Mem) (t : Tid) (p : ℕ) : Decidable (m.writable t p) :=
  inferInstanceAs (Decidable ((m.spaces t).prot p = .readWrite))

/-- The effect of an action, `none` when it is not enabled (or when the process aborts). -/
def step (m : Mem) : Act → Option Mem
  | .load t a => if (m.spaces t).prot a.page ≠ .none then some m else none
  | .store t as f =>
      if ∀ a ∈ as, m.writable t a.page then some (m.storeBytes t (f (m.viewByte t)) as) else none
  | .fault t p =>
      if ¬ m.writable t p ∧ (m.spaces t).access p ≠ .none then m.handleWrite t p else none
  | .notify t p => if (m.spaces t).access p = .none then some (m.notifyOwnerToCommit t p) else none
  | .mprotectRead t p =>
      if (m.spaces t).prot p = .none ∧ (m.pages p).owner = .shared then some (m.mprotectRead t p)
      else none
  | .setWord t o w => if m.writable t o.page then some (m.storeWord t o.page o.word w) else none
  | .memWrite _ o w => some (m.memWrite o w)
  | .commitEntry t k => m.commitEntry t k
  | .begin t => some (m.updateAll t)
  | .finalcommit t p release =>
      if (m.pages p).owner = .thread t then some (m.finalcommitPage t p release) else none
  | .superblock t pages => some (m.superblock t pages)
  | .signal t p => if p ∈ m.signals t then some (m.signalHandler t p) else none
  | .cleanup => some { m with bitmap := m.bitmap.cleanup }
  | .openProtection t => some (m.openProtection t)
  | .closeProtection t => some (m.closeProtection t)
  | .fork t child => some (m.fork t child)
  | .exit t => some (m.exit t)

/-- The memory set up by `xmemory::initialize`, before the first thread is created: main is
process 1, and `position` pages of globals and heap are in use. -/
def boot (position : ℕ) : Mem where
  pages _ := { content := fun _ _ => 0, version := 0, users := 0, bitmapIndex := 0, owner := .none }
  bitmap := { cur := 1, bytes := fun _ => 0 }
  spaces _ :=
    { priv := fun _ => none, prot := fun _ => .readWrite, access := fun _ => .none, dirty := []
      release := fun _ => false, cur := 0, ownedBlocks := [], isProtected := false }
  signals _ := []
  alive t := t = 1
  position := position

/-- `getSyncEntry`: the word the process sees. -/
def getSyncEntry (m : Mem) (t : Tid) (o : SyncAddr) : Word := m.view t o.page o.word

end Mem

end Dthreads.Memory
