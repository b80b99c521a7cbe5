import Dthreads.Allocator.Layers
import Dthreads.Memory.Persist
import Dthreads.Transition.Run

/-! # The table of owned blocks

A thread writes down the blocks it took from `xheap` in `_ownedblockinfo`, and `finalcommit` looks
for its pages there. The table is one page. -/

namespace Dthreads.Memory

open Allocator Transition

/-- The unsigned longs in the page that is mapped for `_ownedblockinfo`. -/
def tableWords : ℕ := 4096 / 8

/-- What `setOwnedPage` and `finalcommit` of one thread work on. Addresses count from `base()`;
`ownedblockinfo` goes on behind the table. -/
structure BlockTable where
  xheap : XHeap
  pageOwner : ℕ → Owner
  prot : ℕ → Prot
  pageInfo : ℕ → Access
  ownedblockinfo : ℕ → ℕ
  ownedblocks : ℕ
  isProtected : Bool

namespace BlockTable

variable (b : BlockTable) (pid : Tid)

/-- `setOwnedPage`; `none` is the exit of a thread that owns too many blocks. -/
def setOwnedPage (addr size : ℕ) : Option BlockTable :=
  if b.isProtected then
    let startPage := addr / 4096
    let pages := size / 4096
    let inside := fun p => startPage ≤ p ∧ p < startPage + pages
    let blocks := b.ownedblocks
    let b := { b with
      prot := fun p => if inside p then .read else b.prot p
      pageOwner := fun p => if inside p then .thread pid else b.pageOwner p
      pageInfo := fun p => if inside p then .read else b.pageInfo p
      ownedblockinfo := Function.update (Function.update b.ownedblockinfo (blocks * 2) startPage)
        (blocks * 2 + 1) (startPage + pages)
      ownedblocks := b.ownedblocks + 1 }
    if b.ownedblocks = 4096 / 2 then none else some b
  else some b

/-- The slots of `_ownedblockinfo` a call of `setOwnedPage` writes. -/
def slots : List ℕ := if b.isProtected then [b.ownedblocks * 2, b.ownedblocks * 2 + 1] else []

/-- `xheap::malloc`. -/
def malloc (sz : ℕ) : Option BlockTable :=
  (b.xheap.malloc sz).bind fun (p, x) => ({ b with xheap := x }).setOwnedPage pid p (pageRound sz)

/-- `xheap::malloc` in another process, whose region is protected or not. -/
def mallocBy (other : Tid) (isProtected : Bool) (sz : ℕ) : Option BlockTable :=
  (b.xheap.malloc sz).map fun (p, x) =>
    { b with
      xheap := x
      pageOwner := fun q =>
        if isProtected ∧ p / 4096 ≤ q ∧ q < p / 4096 + pageRound sz / 4096 then .thread other
        else b.pageOwner q }

def setSharedPage (p : ℕ) : BlockTable :=
  { b with
    pageOwner := Function.update b.pageOwner p .shared
    pageInfo := Function.update b.pageInfo p .read }

/-- `openProtection` of the heap. -/
def openProtection : BlockTable :=
  { b with
    pageOwner := fun p => if p < b.xheap.position / 4096 then .shared else .none
    prot := fun p => if p < b.xheap.position / 4096 then .read else .none
    pageInfo := fun p => if p < b.xheap.position / 4096 then .read else .none
    ownedblocks := 0
    isProtected := true }

def closeProtection : BlockTable := { b with prot := fun _ => .readWrite, isProtected := false }

def cleanupOwnedBlocks : BlockTable := { b with ownedblocks := 0 }

/-- The pages of the recorded blocks, in the order of the loops of `finalcommit`. -/
def blockPages : List ℕ :=
  (List.range b.ownedblocks).flatMap fun i =>
    List.range' (b.ownedblockinfo (i * 2)) (b.ownedblockinfo (i * 2 + 1) - b.ownedblockinfo (i * 2))

/-- One turn of the inner loops of `finalcommit`: a page that is still owned is committed and becomes
shared. The list holds the committed pages. -/
def visit (x : BlockTable × List ℕ) (p : ℕ) : BlockTable × List ℕ :=
  if x.1.pageOwner p = .thread pid then (x.1.setSharedPage p, x.2 ++ [p]) else x

def finalcommit : BlockTable × List ℕ := b.blockPages.foldl (visit pid) (b, [])

end BlockTable

/-- The thread, or another one, takes a block; a page becomes shared; the protection is closed. -/
inductive BlockAct where
  | malloc (sz : ℕ)
  | mallocBy (other : Tid) (isProtected : Bool) (sz : ℕ)
  | share (p : ℕ)
  | closeProtection

namespace BlockTable

variable {b b' w : BlockTable} {pid : Tid} {a : BlockAct} {as : List BlockAct}

def step (pid : Tid) (b : BlockTable) : BlockAct → Option BlockTable
  | .malloc sz => b.malloc pid sz
  | .mallocBy other isProtected sz => if other = pid then none else b.mallocBy other isProtected sz
  | .share p => some (b.setSharedPage p)
  | .closeProtection => some b.closeProtection

/-- The step records a block: a call of `setOwnedPage` under protection. -/
def records (b : BlockTable) : BlockAct → Bool
  | .malloc _ => b.isProtected
  | _ => false

/-- What the step writes to `_ownedblockinfo` lies inside the mapped page. -/
def InTable (b : BlockTable) : BlockAct → Prop
  | .malloc _ => ∀ k ∈ b.slots, k < tableWords
  | _ => True

/-- Right after `openProtection`, or after the `cleanupOwnedBlocks` of a new process. -/
inductive Reset (pid : Tid) : BlockTable → Prop where
  | opened (b : BlockTable) : Reset pid b.openProtection
  | cleaned (b : BlockTable) (h : ∀ p, b.pageOwner p ≠ .thread pid) : Reset pid b.cleanupOwnedBlocks

/-! ## Recording -/

/-- Every owned page lies in a recorded block. -/
def Recorded (pid : Tid) (b : BlockTable) : Prop :=
  ∀ p, b.pageOwner p = .thread pid →
    ∃ i < b.ownedblocks, b.ownedblockinfo (i * 2) ≤ p ∧ p < b.ownedblockinfo (i * 2 + 1)

theorem Reset.ownedblocks (h : Reset pid b) : b.ownedblocks = 0 := by
  cases h <;> rfl

theorem Reset.recorded (h : Reset pid b) : Recorded pid b := by
  intro p hp
  cases h with
  | opened b =>
      simp only [openProtection] at hp
      split at hp <;> cases hp
  | cleaned b hne => exact absurd hp (hne p)

theorem Recorded.setOwnedPage {addr size : ℕ} (h : Recorded pid b)
    (hs : b.setOwnedPage pid addr size = some b') : Recorded pid b' := by
  unfold BlockTable.setOwnedPage at hs
  split at hs
  · dsimp only at hs
    split at hs
    · cases hs
    · cases hs
      intro p hp
      dsimp only at hp ⊢
      split at hp
      · rename_i hin
        refine ⟨b.ownedblocks, Nat.lt_succ_self _, ?_⟩
        rw [Function.update_of_ne (by omega), Function.update_self, Function.update_self]
        exact hin
      · obtain ⟨i, hi, hlo, hhi⟩ := h p hp
        refine ⟨i, Nat.lt_succ_of_lt hi, ?_⟩
        rw [Function.update_of_ne (by omega), Function.update_of_ne (by omega),
          Function.update_of_ne (by omega), Function.update_of_ne (by omega)]
        exact ⟨hlo, hhi⟩
  · cases hs
    exact h

theorem setOwnedPage_ownedblocks {addr size : ℕ} (hs : b.setOwnedPage pid addr size = some b') :
    b'.ownedblocks = b.ownedblocks + b.isProtected.toNat := by
  unfold setOwnedPage at hs
  split at hs
  · rename_i hp
    dsimp only at hs
    split at hs
    · cases hs
    · cases hs
      simp [hp]
  · rename_i hp
    cases hs
    simp [hp]

/-- A step keeps the pages recorded, and counts the calls. -/
theorem Recorded.step (h : Recorded pid b) (hs : b.step pid a = some b') :
    Recorded pid b' ∧ b'.ownedblocks = b.ownedblocks + (b.records a).toNat := by
  cases a with
  | malloc sz =>
      obtain ⟨⟨p, x⟩, -, ho⟩ := Option.bind_eq_some_iff.mp hs
      exact ⟨setOwnedPage (b := { b with xheap := x }) h ho, setOwnedPage_ownedblocks (b := { b with xheap := x }) ho⟩
  | mallocBy other isProtected sz =>
      simp only [BlockTable.step] at hs
      split at hs
      · cases hs
      · rename_i hne
        obtain ⟨⟨p, x⟩, -, rfl⟩ := Option.map_eq_some_iff.mp hs
        refine ⟨fun q hq => ?_, rfl⟩
        dsimp only at hq
        split at hq
        · exact absurd (Owner.thread.inj hq) hne
        · exact h q hq
  | share p =>
      cases hs
      refine ⟨fun q hq => ?_, rfl⟩
      by_cases hqp : q = p
      · subst hqp
        simp [setSharedPage] at hq
      · simp only [setSharedPage, Function.update_of_ne hqp] at hq
        exact h q hq
  | closeProtection =>
      cases hs
      exact ⟨h, rfl⟩

/-! ## The final commit -/

theorem mem_blockPages {p : ℕ} : p ∈ b.blockPages ↔
    ∃ i < b.ownedblocks, b.ownedblockinfo (i * 2) ≤ p ∧ p < b.ownedblockinfo (i * 2 + 1) := by
  simp only [blockPages, List.mem_flatMap, List.mem_range, List.mem_range'_1]
  refine exists_congr fun i => and_congr_right fun _ => ?_
  omega

theorem subset_visits (ps : List ℕ) (x : BlockTable × List ℕ) {p : ℕ} (hp : p ∈ x.2) :
    p ∈ (ps.foldl (visit pid) x).2 := by
  induction ps generalizing x with
  | nil => exact hp
  | cons q ps ih =>
      refine ih _ ?_
      unfold visit
      split
      · exact List.mem_append_left _ hp
      · exact hp

/-- The loops commit each owned page they come to. -/
theorem mem_visits (ps : List ℕ) (x : BlockTable × List ℕ) {p : ℕ} (hp : p ∈ ps)
    (ho : x.1.pageOwner p = .thread pid) : p ∈ (ps.foldl (visit pid) x).2 := by
  induction ps generalizing x with
  | nil => cases hp
  | cons q ps ih =>
      by_cases hq : p = q
      · subst hq
        refine subset_visits ps _ ?_
        rw [visit, if_pos ho]
        exact List.mem_append_right _ (List.mem_singleton_self p)
      · refine ih _ (List.mem_of_ne_of_mem hq hp) ?_
        unfold visit
        split
        · simpa [setSharedPage, hq] using ho
        · exact ho

theorem Recorded.finalcommit (h : Recorded pid b) {p : ℕ} (hp : b.pageOwner p = .thread pid) :
    p ∈ (b.finalcommit pid).2 :=
  mem_visits _ _ (mem_blockPages.mpr (h p hp)) hp

/-! ## The bound -/

/-- The number of recorded blocks is the number of calls, and every owned page is recorded. -/
theorem recorded_run (hb : Reset pid b)
    (h : Run (step pid) (fun _ _ => True) b as w) :
    Recorded pid w ∧ w.ownedblocks = occurrences (step pid) records b as := by
  have hkeep : ∀ b n a b', (Recorded pid b ∧ b.ownedblocks = n) → True →
      step pid b a = some b' → Recorded pid b' ∧ b'.ownedblocks = n + (records b a).toNat :=
    fun _ _ _ _ hr _ hs => by
      obtain ⟨hrec, hcount⟩ := hr.1.step hs
      exact ⟨hrec, by rw [hcount, hr.2]⟩
  exact h.counted records hkeep ⟨hb.recorded, hb.ownedblocks⟩

theorem inTable_iff (hb : Reset pid b) (h : Run (step pid) (fun _ _ => True) b as w) :
    Run (step pid) InTable b as w ↔ occurrences (step pid) records b as ≤ tableWords / 2 := by
  induction h with
  | nil => exact ⟨fun _ => Nat.zero_le _, fun _ => .nil _⟩
  | @snoc u w as a h _ hs ih =>
      have hcount := (recorded_run hb h).2
      have hlast : occurrences (step pid) records b (as ++ [a]) =
          u.ownedblocks + (u.records a).toNat := by
        rw [occurrences_append _ h.exec_eq, hcount]
        simp [occurrences, hs]
      have hguard : u.InTable a ↔ (u.records a = true → u.ownedblocks < tableWords / 2) := by
        cases a with
        | malloc sz =>
            simp only [InTable, slots, records, tableWords]
            cases u.isProtected with
            | false => simp
            | true =>
                simp only [if_true, List.mem_cons, List.not_mem_nil, or_false, forall_eq_or_imp,
                  forall_eq, true_imp_iff]
                omega
        | _ => exact ⟨fun _ hc => (by cases hc), fun _ => trivial⟩
      rw [Run.snoc_iff, hlast]
      constructor
      · rintro ⟨u', hr, hg, hs'⟩
        obtain rfl : u = u' := Option.some.inj (h.exec_eq.symm.trans hr.exec_eq)
        rw [hguard] at hg
        have hle := ih.mp hr
        cases hrec : u.records a with
        | false =>
            rw [← hcount] at hle
            simpa [hrec] using hle
        | true => exact hg hrec
      · intro hle
        refine ⟨u, ih.mpr (by omega), hguard.mpr fun hrec => ?_, hs⟩
        simp only [hrec, Bool.toNat_true] at hle
        omega

/-- As long as the thread does not exit, its table holds the blocks and `finalcommit` finds all its
pages, if and only if it took at most 256 blocks under protection since the reset. -/
theorem table_suffices_iff (hb : Reset pid b) (h : Run (step pid) (fun _ _ => True) b as w) :
    (Run (step pid) InTable b as w ∧
      ∀ p, w.pageOwner p = .thread pid → p ∈ (w.finalcommit pid).2) ↔
    occurrences (step pid) records b as ≤ 256 := by
  rw [and_iff_left fun p hp => (recorded_run hb h).1.finalcommit hp]
  exact inTable_iff hb h

/-! ## Too many blocks -/

/-- The heap of `PROTECTEDHEAP_SIZE` bytes, before the first allocation. -/
def emptyHeap : BlockTable :=
  { xheap := { position := 0, remaining := 4096 * 1048576 }
    pageOwner := fun _ => .none
    prot := fun _ => .readWrite
    pageInfo := fun _ => .none
    ownedblockinfo := fun _ => 0
    ownedblocks := 0
    isProtected := false }

/-- The size of the chunk that an arena asks for. -/
def arenaChunk : ℕ := 32 + chunkSize

/-- Thread 1 takes 257 chunks, all of which fit in the heap. -/
theorem table_overflows : ¬ ∀ as w,
    Run (step 1) (fun _ _ => True) emptyHeap.openProtection as w →
    Run (step 1) InTable emptyHeap.openProtection as w ∧
      ∀ p, w.pageOwner p = .thread 1 → p ∈ (w.finalcommit 1).2 := by
  intro h
  have hsome : (exec (step 1) emptyHeap.openProtection
      (List.replicate 257 (.malloc arenaChunk))).any (fun w => decide (w.ownedblocks = 257)) = true := by
    decide +kernel
  obtain ⟨w, hw, hcount⟩ := exists_exec_of_any hsome
  have hrun := run_of_exec hw
  have hle := (inTable_iff (.opened _) hrun).mp (h _ w hrun).1
  rw [← (recorded_run (.opened _) hrun).2, hcount] at hle
  exact absurd hle (by decide)

theorem table_suffices_iff_three : ∃ w,
    Run (step 1) (fun _ _ => True) emptyHeap.openProtection
      [.malloc arenaChunk, .mallocBy 2 true arenaChunk, .malloc 4096, .share 0, .malloc arenaChunk] w ∧
    Run (step 1) InTable emptyHeap.openProtection
      [.malloc arenaChunk, .mallocBy 2 true arenaChunk, .malloc 4096, .share 0, .malloc arenaChunk] w ∧
    ∀ p, w.pageOwner p = .thread 1 → p ∈ (w.finalcommit 1).2 := by
  have hsome : (exec (step 1) emptyHeap.openProtection
      [.malloc arenaChunk, .mallocBy 2 true arenaChunk, .malloc 4096, .share 0,
        .malloc arenaChunk]).any (fun w => decide (w.ownedblocks = 3)) = true := by
    decide +kernel
  obtain ⟨w, hw, -⟩ := exists_exec_of_any hsome
  have hrun := run_of_exec hw
  exact ⟨w, hrun, (table_suffices_iff (.opened _) hrun).mpr (by decide +kernel)⟩

end BlockTable

end Dthreads.Memory
