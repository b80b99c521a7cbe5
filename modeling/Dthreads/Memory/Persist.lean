import Dthreads.Memory.Bitmap

/-! # The protected memory

Globals and heap form one region of numbered pages. `Mem` holds what all processes share
(the backing file, the per-page tables, the twin storage) and, for each process, its private
view of the region. The `LAZY_COMMIT` build is modelled. -/

namespace Dthreads.Memory

/-- A value of `_pageOwner`: 0, `SHARED_PAGE` or a pid. -/
inductive Owner where
  | none
  | shared
  | thread (t : Tid)
  deriving DecidableEq, Repr

/-- Hardware protection of a page in one process. -/
inductive Prot where
  | none
  | read
  | readWrite
  deriving DecidableEq, Repr

/-- `page_access_info`, the value kept in `_pageInfo`. -/
inductive Access where
  | none
  | read
  | write
  deriving DecidableEq, Repr

/-- The shared data of one page: its content in the backing file, `_persistentVersions`,
`_pageUsers` and `_pageOwner`. There are never `2 ^ 16` threads, so `users` does not carry
into `bitmapIndex`. -/
structure SharedPage where
  content : Page
  version : BitVec 64
  users : ℕ
  bitmapIndex : ℕ
  owner : Owner

/-- An `xpageinfo`. Its `release` flag is kept in the slot it was allocated from, since a
fault does not set it. `processed` is a history variable: `checkandcommit` has handled it. -/
structure PageInfo where
  pageNo : ℕ
  version : BitVec 32
  isUpdated : Bool
  slot : ℕ
  processed : Bool
  deriving DecidableEq, Repr

/-- The private memory state of one process. -/
structure Space where
  /-- The copy a `MAP_PRIVATE` page gets at its first store. -/
  priv : ℕ → Option Page
  prot : ℕ → Prot
  /-- `_pageInfo`. -/
  access : ℕ → Access
  /-- `_dirtiedPagesList`, ordered by page number. -/
  dirty : List PageInfo
  /-- The `release` flags of the slots of `xpageentry`. -/
  release : ℕ → Bool
  /-- `xpageentry::_cur`. -/
  cur : ℕ
  /-- `_ownedblockinfo`: first page and end page of each block. -/
  ownedBlocks : List (ℕ × ℕ)
  isProtected : Bool

structure Mem where
  pages : ℕ → SharedPage
  bitmap : Bitmap
  spaces : Tid → Space
  /-- Queued `SIGUSR1` signals: the pages each process still has to commit. -/
  signals : Tid → List ℕ
  /-- The processes `sigqueue` can reach. -/
  alive : Tid → Bool
  /-- The first heap page that no superblock has taken. -/
  position : ℕ

namespace Mem

def setPage (m : Mem) (p : ℕ) (g : SharedPage) : Mem :=
  { m with pages := Function.update m.pages p g }

def setSpace (m : Mem) (t : Tid) (s : Space) : Mem :=
  { m with spaces := Function.update m.spaces t s }

section Setters

variable (m : Mem) (p q : ℕ) (g : SharedPage) (t u : Tid) (s : Space)

@[simp] theorem setPage_pages_same : (m.setPage p g).pages p = g := by simp [setPage]
@[simp] theorem setPage_pages_of_ne (h : q ≠ p) : (m.setPage p g).pages q = m.pages q := by
  simp [setPage, h]
@[simp] theorem setPage_bitmap : (m.setPage p g).bitmap = m.bitmap := rfl
@[simp] theorem setPage_spaces : (m.setPage p g).spaces = m.spaces := rfl
@[simp] theorem setPage_signals : (m.setPage p g).signals = m.signals := rfl
@[simp] theorem setPage_alive : (m.setPage p g).alive = m.alive := rfl
@[simp] theorem setPage_position : (m.setPage p g).position = m.position := rfl

@[simp] theorem setSpace_spaces_same : (m.setSpace t s).spaces t = s := by simp [setSpace]
@[simp] theorem setSpace_spaces_of_ne (h : u ≠ t) : (m.setSpace t s).spaces u = m.spaces u := by
  simp [setSpace, h]
@[simp] theorem setSpace_pages : (m.setSpace t s).pages = m.pages := rfl
@[simp] theorem setSpace_bitmap : (m.setSpace t s).bitmap = m.bitmap := rfl
@[simp] theorem setSpace_signals : (m.setSpace t s).signals = m.signals := rfl
@[simp] theorem setSpace_alive : (m.setSpace t s).alive = m.alive := rfl
@[simp] theorem setSpace_position : (m.setSpace t s).position = m.position := rfl

end Setters

/-- What process `t` reads in page `p`: its copy, or through to the file. -/
def view (m : Mem) (t : Tid) (p : ℕ) : Page :=
  ((m.spaces t).priv p).getD (m.pages p).content

def viewByte (m : Mem) (t : Tid) (a : Addr) : Byte := m.view t a.page a.word a.byte

theorem view_of_none {m : Mem} {t : Tid} {p : ℕ} (h : (m.spaces t).priv p = none) :
    m.view t p = (m.pages p).content := by
  simp [view, h]

theorem view_of_some {m : Mem} {t : Tid} {p : ℕ} {c : Page} (h : (m.spaces t).priv p = some c) :
    m.view t p = c := by
  simp [view, h]

end Mem

namespace Space

/-- `MADV_DONTNEED`. -/
def dontneed (s : Space) (p : ℕ) : Space := { s with priv := Function.update s.priv p none }

def setProt (s : Space) (p : ℕ) (x : Prot) : Space := { s with prot := Function.update s.prot p x }

def setAccess (s : Space) (p : ℕ) (x : Access) : Space :=
  { s with access := Function.update s.access p x }

def setPriv (s : Space) (p : ℕ) (c : Page) : Space :=
  { s with priv := Function.update s.priv p (some c) }

/-- Insertion into the multimap: after the entries with the same key. -/
def insertDirty (e : PageInfo) : List PageInfo → List PageInfo
  | [] => [e]
  | d :: ds => if e.pageNo < d.pageNo then e :: d :: ds else d :: insertDirty e ds

theorem mem_insertDirty {e d : PageInfo} {ds : List PageInfo} :
    d ∈ insertDirty e ds ↔ d = e ∨ d ∈ ds := by
  induction ds with
  | nil => simp [insertDirty]
  | cons x xs ih =>
      rw [insertDirty]
      split
      · simp
      · simp only [List.mem_cons, ih]
        tauto

theorem insertDirty_perm (e : PageInfo) (ds : List PageInfo) :
    (insertDirty e ds).Perm (e :: ds) := by
  induction ds with
  | nil => exact List.Perm.refl _
  | cons x xs ih =>
      rw [insertDirty]
      split
      · exact List.Perm.refl _
      · exact (ih.cons x).trans (List.Perm.swap e x xs)

end Space

/-- `PAGE_ENTRY_NUM`. -/
def pageEntryNum : ℕ := 800000

/-- The recorded `int` is converted to `unsigned long` before it is compared. -/
def sameVersion (recorded : BitVec 32) (version : BitVec 64) : Bool :=
  recorded.signExtend 64 = version

theorem sameVersion_setWidth {v : BitVec 64} (h : v.toNat < 2 ^ 31) :
    sameVersion (v.setWidth 32) v = true := by
  unfold sameVersion
  rw [BitVec.signExtend_eq_setWidth_of_msb_false]
  · simp only [decide_eq_true_eq]
    apply BitVec.eq_of_toNat_eq
    simp
    omega
  · rw [BitVec.msb_eq_decide]
    simp
    omega

theorem sameVersion_iff {r : BitVec 32} {v w : BitVec 64} (hr : r = w.setWidth 32)
    (hw : w.toNat < 2 ^ 31) : sameVersion r v = true ↔ v = w := by
  have h : r.signExtend 64 = w := by
    have hs := sameVersion_setWidth hw
    rw [← hr] at hs
    simpa [sameVersion] using hs
  unfold sameVersion
  rw [h, decide_eq_true_eq, eq_comm]

/-- `users--` on an `unsigned short`. -/
def decUsers (n : ℕ) : ℕ := if n = 0 then 65535 else n - 1

theorem decUsers_of_pos {n : ℕ} (h : 0 < n) : decUsers n = n - 1 := by
  simp [decUsers, Nat.pos_iff_ne_zero.mp h]

namespace Mem

/-! ## Ownership -/

def setSharedPage (m : Mem) (t : Tid) (p : ℕ) : Mem :=
  if (m.pages p).owner ≠ .shared then
    (m.setPage p { m.pages p with owner := .shared }).setSpace t ((m.spaces t).setAccess p .read)
  else m

/-- Copy a page of `t` to the file, also run by the signal handler. -/
def commitOwnedPage (m : Mem) (t : Tid) (p : ℕ) (setShared : Bool) : Mem :=
  let m₁ := m.setPage p { m.pages p with content := m.view t p }
  let m₂ :=
    if setShared then
      let m' := m₁.setSharedPage t p
      m'.setSpace t ((m'.spaces t).dontneed p)
    else m₁
  m₂.setPage p { m₂.pages p with version := (m₂.pages p).version + 1 }

/-- Take over the pages of a new superblock. -/
def setOwnedPage (m : Mem) (t : Tid) (startPage pages : ℕ) : Mem :=
  let s := m.spaces t
  if s.isProtected then
    let inside := fun p => startPage ≤ p ∧ p < startPage + pages
    { m with
      pages := fun p => if inside p then { m.pages p with owner := .thread t } else m.pages p
      spaces := Function.update m.spaces t
        { s with
          prot := fun p => if inside p then .read else s.prot p
          access := fun p => if inside p then .read else s.access p
          ownedBlocks := s.ownedBlocks ++ [(startPage, startPage + pages)] } }
  else m

/-- The bump allocation of `xheap::malloc`, followed by `setOwnedPage`. -/
def superblock (m : Mem) (t : Tid) (pages : ℕ) : Mem :=
  ({ m with position := m.position + pages }).setOwnedPage t m.position pages

/-- `sigqueue` to the owner; when it fails the page is shared by the caller. -/
def notifyOwnerToCommit (m : Mem) (t : Tid) (p : ℕ) : Mem :=
  match (m.pages p).owner with
  | .shared => m
  | .none => m.setSharedPage t p
  | .thread o =>
      if m.alive o then { m with signals := Function.update m.signals o (m.signals o ++ [p]) }
      else m.setSharedPage t p

/-- The handler of `SIGUSR1`: one queued signal for `p` is taken and the page committed. -/
def signalHandler (m : Mem) (t : Tid) (p : ℕ) : Mem :=
  ({ m with signals := Function.update m.signals t ((m.signals t).erase p) }).commitOwnedPage t p true

/-! ## Faults -/

def mprotectRead (m : Mem) (t : Tid) (p : ℕ) : Mem :=
  m.setSpace t (((m.spaces t).setAccess p .read).setProt p .read)

def mprotectWrite (m : Mem) (t : Tid) (p : ℕ) : Mem :=
  let s := if (m.pages p).owner = .thread t then (m.spaces t).setAccess p .write else m.spaces t
  m.setSpace t (s.setProt p .readWrite)

/-- Count one more user of the page and add it to the dirty set. The entry's `release` flag
is whatever the last use of its slot left. -/
def addDirty (m : Mem) (t : Tid) (p : ℕ) : Option Mem :=
  let s := m.spaces t
  if s.cur < pageEntryNum then
    let e : PageInfo :=
      { pageNo := p, version := (m.pages p).version.setWidth 32, isUpdated := false, slot := s.cur,
        processed := false }
    some ((m.setPage p { m.pages p with users := (m.pages p).users + 1 }).setSpace t
      { s with cur := s.cur + 1, dirty := Space.insertDirty e s.dirty })
  else none

/-- The fault handler on a page whose access type is not `PAGE_ACCESS_NONE`. -/
def handleWrite (m : Mem) (t : Tid) (p : ℕ) : Option Mem :=
  match (m.spaces t).access p with
  | .write => ((m.mprotectWrite t p).commitOwnedPage t p false).addDirty t p
  | _ => (m.mprotectWrite t p).addDirty t p

/-! ## Stores -/

/-- Store a word to a writable page. -/
def storeWord (m : Mem) (t : Tid) (p : ℕ) (i : Fin 512) (w : Word) : Mem :=
  if (m.spaces t).isProtected then
    m.setSpace t ((m.spaces t).setPriv p ((m.view t p).setWord i w))
  else m.setPage p { m.pages p with content := (m.pages p).content.setWord i w }

def storeByte (m : Mem) (t : Tid) (a : Addr) (v : Byte) : Mem :=
  m.storeWord t a.page a.word (Function.update (m.view t a.page a.word) a.byte v)

/-- Store the values `val` to the addresses of the list, in order. -/
def storeBytes (m : Mem) (t : Tid) (val : Addr → Byte) (as : List Addr) : Mem :=
  as.foldl (fun m a => m.storeByte t a (val a)) m

/-- `mem_write`: store to the shared mapping. -/
def memWrite (m : Mem) (o : SyncAddr) (w : Word) : Mem :=
  m.setPage o.page
    { m.pages o.page with content := (m.pages o.page).content.setWord o.word w }

/-! ## Commits -/

def createTwinPage (m : Mem) (p : ℕ) : Option Mem :=
  m.bitmap.get.map fun (index, b) =>
    ({ m with
      bitmap := (b.setTwin index (m.pages p).content).setVersion index
        ((m.pages p).version.setWidth 32) }).setPage p
      { m.pages p with bitmapIndex := index % 65536 }

/-- With several users, the first commit of the page creates the twin. -/
def ensureTwin (m : Mem) (p : ℕ) : Option Mem :=
  if 1 < (m.pages p).users ∧ (m.pages p).bitmapIndex = 0 then m.createTwinPage p else some m

/-- Record in entry `k` of the dirty list that it was handled, and set its `release` flag. -/
def finishEntry (m : Mem) (t : Tid) (k : ℕ) (e : PageInfo) (release : Bool) : Mem :=
  let s := m.spaces t
  m.setSpace t { s with
    dirty := s.dirty.set k { e with processed := true }
    release := Function.update s.release e.slot release }

/-- The end of a commit that modified the page. -/
def endCommit (g : SharedPage) : SharedPage :=
  { g with
    bitmapIndex := if g.users = 1 then 0 else g.bitmapIndex
    users := decUsers g.users
    version := g.version + 1 }

/-- Publish the local copy of `p`: whole if no commit came in between, else by its
difference to the twin, which is looked up even if none was created. -/
def publish (m : Mem) (t : Tid) (p : ℕ) (recorded : BitVec 32) : Mem :=
  if sameVersion recorded (m.pages p).version then
    m.setPage p { m.pages p with content := m.view t p }
  else
    let m' := m.setSharedPage t p
    m'.setPage p { m'.pages p with
      content := writePageDiffs (m'.view t p) (m'.bitmap.twin (m'.pages p).bitmapIndex)
        (m'.pages p).content }

/-- The loop body of `checkandcommit(false)` for entry `k` of the dirty list. -/
def commitEntry (m : Mem) (t : Tid) (k : ℕ) : Option Mem := do
  let e ← (m.spaces t).dirty[k]?
  let p := e.pageNo
  let m ← m.ensureTwin p
  if e.isUpdated then some (m.finishEntry t k e ((m.spaces t).release e.slot))
  else if (m.pages p).users ≠ 1 ∨ (m.pages p).owner ≠ .thread t then
    let m := m.publish t p e.version
    let m := m.setPage p (endCommit (m.pages p))
    some (m.finishEntry t k e true)
  else
    let m := m.setPage p { m.pages p with users := decUsers (m.pages p).users }
    some (m.finishEntry t k e false)

/-- `updateAll(true)`: pages of the dirty list become read-only again, and their copies are
dropped if the `release` flag of their entry is set. -/
def updateAll (m : Mem) (t : Tid) : Mem :=
  let s := m.spaces t
  let listed := fun p => s.dirty.any fun e => e.pageNo = p ∧ ¬ e.isUpdated
  let released := fun p => s.dirty.any fun e => e.pageNo = p ∧ ¬ e.isUpdated ∧ s.release e.slot
  m.setSpace t { s with
    priv := fun p => if released p then none else s.priv p
    prot := fun p => if listed p then .read else s.prot p
    dirty := []
    cur := 0 }

/-- The next page `finalcommit` has to publish. -/
def nextOwned (m : Mem) (t : Tid) : Option ℕ :=
  ((m.spaces t).ownedBlocks.flatMap fun b => List.range' b.1 (b.2 - b.1)).find?
    fun p => (m.pages p).owner = .thread t

/-- One page of `finalcommit(release)`. -/
def finalcommitPage (m : Mem) (t : Tid) (p : ℕ) (release : Bool) : Mem :=
  if release then m.commitOwnedPage t p true
  else (m.commitOwnedPage t p false).setSharedPage t p

/-! ## Protection and processes -/

/-- Pages below the heap position are shared, those above are nobody's and inaccessible. -/
def openProtection (m : Mem) (t : Tid) : Mem :=
  let s := m.spaces t
  { m with
    pages := fun p =>
      { m.pages p with owner := if p < m.position then .shared else .none }
    spaces := Function.update m.spaces t
      { s with
        priv := fun _ => none
        prot := fun p => if p < m.position then .read else .none
        access := fun p => if p < m.position then .read else .none
        ownedBlocks := []
        isProtected := true } }

def closeProtection (m : Mem) (t : Tid) : Mem :=
  m.setSpace t { m.spaces t with
    priv := fun _ => none
    prot := fun _ => .readWrite
    isProtected := false }

/-- `clone`: the child starts with a copy of the private state of its parent, and
`childRegister` clears the owned blocks. -/
def fork (m : Mem) (t child : Tid) : Mem :=
  { m with
    spaces := Function.update m.spaces child { m.spaces t with ownedBlocks := [] }
    signals := Function.update m.signals child []
    alive := Function.update m.alive child true }

def exit (m : Mem) (t : Tid) : Mem := { m with alive := Function.update m.alive t false }

end Mem

end Dthreads.Memory
