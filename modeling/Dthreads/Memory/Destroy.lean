import Dthreads.Memory.Registration
import Dthreads.Memory.Dirty

/-! # Destroying a synchronisation object

`clearSyncEntry` stores null to the first word of the object in the caller's view, and then
passes the word it has just cleared, not its address, to `mem_write`. -/

namespace Dthreads.Memory

/-- A null pointer. -/
def nullWord : Word := fun _ => 0

/-- Where the address in a word lies in the protected region, if it does (`inRange`). -/
structure Layout where
  inRange : Word → Option SyncAddr
  null : inRange nullWord = none

/-- The memory, the counters of objects, and the entries given back to the internal heap. -/
structure SyncState where
  mem : Mem
  condnum : ℤ
  barriernum : ℤ
  freed : List Word

variable (L : Layout)

namespace Mem

/-- The write fault before a store to a page that is not writable. -/
def makeWritable (m : Mem) (t : Tid) (p : ℕ) : Option Mem :=
  if m.writable t p then some m else m.step (.fault t p)

def storeSync (m : Mem) (t : Tid) (o : SyncAddr) (w : Word) : Option Mem := do
  let m ← m.makeWritable t o.page
  m.step (.setWord t o w)

/-- `xmemory::mem_write`: an address outside the region is ignored. -/
def memWriteAt (m : Mem) (dest w : Word) : Mem :=
  match L.inRange dest with
  | some o => m.memWrite o w
  | none => m

/-- `clearSyncEntry`. -/
def clearSyncEntry (m : Mem) (t : Tid) (o : SyncAddr) : Option Mem := do
  let m ← m.storeSync t o nullWord
  some (m.memWriteAt L (m.getSyncEntry t o) nullWord)

end Mem

namespace SyncState

/-- `getSyncEntry`, once the page can be read. -/
def getSyncEntry (s : SyncState) (t : Tid) (o : SyncAddr) : Option Word :=
  (s.mem.step (.load t (o.bytes 0))).map fun m => m.getSyncEntry t o

def clearSyncEntry (s : SyncState) (t : Tid) (o : SyncAddr) : Option SyncState :=
  (s.mem.clearSyncEntry L t o).map fun m => { s with mem := m }

def freeSyncEntry (s : SyncState) (e : Word) : SyncState :=
  if e ≠ nullWord then { s with freed := e :: s.freed } else s

def lockDestroy (s : SyncState) (t : Tid) (o : SyncAddr) : Option SyncState := do
  let entry ← s.getSyncEntry t o
  let s ← s.clearSyncEntry L t o
  some (s.freeSyncEntry entry)

def condDestroy (s : SyncState) (t : Tid) (o : SyncAddr) : Option SyncState := do
  let s := { s with condnum := s.condnum - 1 }
  let entry ← s.getSyncEntry t o
  let s ← s.clearSyncEntry L t o
  some (s.freeSyncEntry entry)

/-- The entry is freed before the word is cleared. -/
def barrierDestroy (s : SyncState) (t : Tid) (o : SyncAddr) : Option SyncState := do
  let entry ← s.getSyncEntry t o
  let s := s.freeSyncEntry entry
  let s ← s.clearSyncEntry L t o
  some { s with barriernum := s.barriernum - 1 }

/-- The three kinds of objects. -/
inductive Kind where
  | cond
  | barrier
  | mutex
  deriving DecidableEq, Repr

def destroy : Kind → SyncState → Tid → SyncAddr → Option SyncState
  | .cond => condDestroy L
  | .barrier => barrierDestroy L
  | .mutex => lockDestroy L

end SyncState

/-! ## The claim and its condition -/

/-- The object is gone from both copies, and nothing else changed in either. -/
structure Removed (m m' : Mem) (t : Tid) (o : SyncAddr) : Prop where
  caller : m'.getSyncEntry t o = nullWord
  shared : (m'.pages o.page).content o.word = nullWord
  others : ∀ p i, ¬ (p = o.page ∧ i = o.word) →
    m'.view t p i = m.view t p i ∧ (m'.pages p).content i = (m.pages p).content i

namespace Mem

/-- The shared content of page `p` once a store of `t` to it has been let through: the fault on a
page that its owner wrote before publishes it. -/
def faulted (m : Mem) (t : Tid) (p : ℕ) : Page :=
  if ¬ m.writable t p ∧ (m.spaces t).access p = .write then m.view t p else (m.pages p).content

/-- The process stores to the shared mapping, or there is nothing to remove from it and the store
publishes nothing else. -/
def Clean (m : Mem) (t : Tid) (o : SyncAddr) : Prop :=
  (m.spaces t).isProtected = true → m.faulted t o.page o.word = nullWord ∧
    ∀ i ≠ o.word, m.faulted t o.page i = (m.pages o.page).content i

variable {m m' : Mem} {t u : Tid} {o : SyncAddr} {p q : ℕ} {w : Word} {a : Act} {as : List Act}

/-! ## Copies -/

/-- A shared mapping has no private copies. -/
def Mapped (m : Mem) : Prop := ∀ t, (m.spaces t).isProtected = false → ∀ p, (m.spaces t).priv p = none

theorem Mapped.keep (h : m.Mapped)
    (hs : ∀ u, (m'.spaces u).isProtected = (m.spaces u).isProtected ∧
      ((m.spaces u).isProtected = false → ∀ q, (m.spaces u).priv q = none →
        (m'.spaces u).priv q = none)) : m'.Mapped := by
  intro u hu q
  have hp := (hs u).1.symm.trans hu
  exact (hs u).2 hp q (h u hp q)

theorem Mapped.keep_priv (h : m.Mapped) (hs : ∀ u, (m.spaces u).SameDirty (m'.spaces u))
    (hp : ∀ u q, (m.spaces u).isProtected = false → (m.spaces u).priv q = none →
      (m'.spaces u).priv q = none) : m'.Mapped :=
  h.keep fun u => ⟨(hs u).isProtected, fun hu q => hp u q hu⟩

theorem storeWord_unprotected {i : Fin 512} (hu : (m.spaces u).isProtected = false) :
    ((m.storeWord t p i w).spaces u).priv q = (m.spaces u).priv q := by
  rw [storeWord_priv, if_neg]
  rintro ⟨rfl, -, hp⟩
  rw [hu] at hp
  cases hp

theorem storeBytes_unprotected {val : Addr → Byte} {bs : List Addr}
    (hu : (m.spaces u).isProtected = false) :
    ((m.storeBytes t val bs).spaces u).priv q = (m.spaces u).priv q := by
  induction bs generalizing m with
  | nil => rfl
  | cons b bs ih =>
      refine (ih (m := m.storeByte t b (val b)) ?_).trans (storeWord_unprotected hu)
      rw [storeByte, storeWord_isProtected, hu]

/-- Private copies are made for protected processes only. -/
theorem step_mapped (h : m.Mapped) (hs : m.step a = some m') : m'.Mapped := by
  cases a <;> simp only [step, Option.ite_none_right_eq_some, Option.some.injEq] at hs
  case load => exact hs.2 ▸ h
  case store t as f =>
    obtain ⟨-, rfl⟩ := hs
    exact h.keep_priv (fun u => storeBytes_sameDirty m t u _ as) fun u q hu hq => by
      rwa [storeBytes_unprotected hu]
  case fault t p =>
    obtain ⟨-, hs⟩ := hs
    refine h.keep fun u => ?_
    rw [handleWrite_priv hs]
    refine ⟨?_, fun _ _ hq => hq⟩
    by_cases hu : u = t
    · subst hu
      obtain ⟨e, he, -⟩ := handleWrite_space hs
      exact he.isProtected
    · rw [handleWrite_spaces_of_ne hs hu]
  case notify t p =>
    obtain ⟨-, rfl⟩ := hs
    exact h.keep_priv (fun u => notifyOwnerToCommit_sameDirty m t u p) fun u q _ hq => by
      rwa [notifyOwnerToCommit_priv]
  case mprotectRead t p =>
    obtain ⟨-, rfl⟩ := hs
    refine h.keep fun u => ?_
    rw [mprotectRead_priv]
    refine ⟨?_, fun _ _ hq => hq⟩
    by_cases hu : u = t
    · subst hu; simp [mprotectRead, Space.setAccess, Space.setProt]
    · simp [mprotectRead, hu]
  case setWord t o w =>
    obtain ⟨-, rfl⟩ := hs
    exact h.keep_priv (fun u => storeWord_sameDirty m t u _ _ _) fun u q hu hq => by
      rwa [storeWord_unprotected hu]
  case memWrite => exact hs ▸ h
  case commitEntry t k =>
    refine h.keep fun u => ?_
    rw [commitEntry_priv hs]
    refine ⟨?_, fun _ _ hq => hq⟩
    by_cases hu : u = t
    · subst hu
      obtain ⟨d, hc⟩ := commitEntry_space hs
      exact hc.isProtected
    · exact (commitEntry_spaces_of_ne hs hu).isProtected
  case begin t =>
    obtain rfl := hs
    refine h.keep fun u => ⟨updateAll_isProtected, fun _ q hq => ?_⟩
    by_cases hu : u = t
    · subst hu
      by_cases hr : m.released u q
      · exact updateAll_priv_of_released hr
      · rw [updateAll_priv_of_not_released hr, hq]
    · rw [updateAll_priv_of_ne hu, hq]
  case finalcommit t p r =>
    obtain ⟨-, rfl⟩ := hs
    exact h.keep_priv (fun u => finalcommitPage_sameDirty m t u p r) fun u q _ hq => by
      rw [finalcommitPage_priv, hq, ite_self]
  case superblock t n =>
    obtain rfl := hs
    refine h.keep fun u => ?_
    rw [superblock_priv]
    refine ⟨?_, fun _ _ hq => hq⟩
    unfold superblock setOwnedPage
    dsimp only
    split
    · by_cases hu : u = t
      · subst hu; simp
      · simp [hu]
    · rfl
  case signal t p =>
    obtain ⟨-, rfl⟩ := hs
    exact h.keep_priv (fun u => signalHandler_sameDirty m t u p) fun u q _ hq => by
      rw [signalHandler_priv, hq, ite_self]
  case cleanup => exact hs ▸ h
  case openProtection t =>
    obtain rfl := hs
    intro u hu q
    by_cases hut : u = t
    · subst hut; simp [openProtection]
    · simp only [openProtection, Function.update_of_ne hut] at hu ⊢
      exact h u hu q
  case closeProtection t =>
    obtain rfl := hs
    intro u hu q
    by_cases hut : u = t
    · subst hut; simp [closeProtection]
    · simp only [closeProtection, setSpace_spaces_of_ne _ _ _ _ hut] at hu ⊢
      exact h u hu q
  case fork t child =>
    obtain rfl := hs
    intro u hu q
    by_cases huc : u = child
    · subst huc
      simp only [fork, Function.update_self] at hu ⊢
      exact h t hu q
    · simp only [fork, Function.update_of_ne huc] at hu ⊢
      exact h u hu q
  case exit => exact hs ▸ h

theorem mapped_of_exec {n : ℕ} (h : Transition.exec step (boot n) as = some m) : m.Mapped :=
  (Transition.run_of_exec h).invariant (fun _ _ _ hi _ hs => step_mapped hi hs)
    fun _ _ _ => rfl

/-! ## The store -/

theorem makeWritable_eq (h : m.makeWritable t p = some m') :
    (m'.spaces t).isProtected = (m.spaces t).isProtected ∧ (m'.spaces t).priv = (m.spaces t).priv ∧
      (∀ q, m'.view t q = m.view t q) ∧
      ∀ q, (m'.pages q).content = if q = p then m.faulted t q else (m.pages q).content := by
  unfold makeWritable at h
  split at h
  · rename_i hw
    obtain rfl := Option.some.inj h
    refine ⟨rfl, rfl, fun _ => rfl, fun q => ?_⟩
    split
    · rename_i hq
      subst hq
      rw [faulted, if_neg fun hc => hc.1 hw]
    · rfl
  · rename_i hw
    simp only [step, Option.ite_none_right_eq_some] at h
    obtain ⟨e, he, -⟩ := handleWrite_space h.2
    refine ⟨he.isProtected, handleWrite_priv h.2, fun q => handleWrite_view h.2, fun q => ?_⟩
    rw [handleWrite_content h.2]
    by_cases hq : q = p
    · subst hq
      simp only [faulted, hw, not_false_eq_true, true_and, if_true]
    · rw [if_neg fun hc => hq hc.1, if_neg hq]

/-- What the store leaves of the shared content and of what its process sees. -/
theorem storeSync_eq (hm : (m.spaces t).isProtected = false → (m.spaces t).priv o.page = none)
    (h : m.storeSync t o w = some m') :
    (∀ q, (m'.pages q).content =
      if q = o.page then
        if (m.spaces t).isProtected then m.faulted t q else (m.faulted t q).setWord o.word w
      else (m.pages q).content) ∧
    ∀ q, m'.view t q = if q = o.page then (m.view t q).setWord o.word w else m.view t q := by
  rw [storeSync, Option.bind_eq_bind, Option.bind_eq_some_iff] at h
  obtain ⟨n, hn, hs⟩ := h
  simp only [step, Option.ite_none_right_eq_some, Option.some.injEq] at hs
  obtain ⟨-, rfl⟩ := hs
  obtain ⟨hp, hpriv, hview, hc⟩ := makeWritable_eq hn
  refine ⟨fun q => ?_, fun q => ?_⟩
  · rw [storeWord_content, hc q, hc o.page, hp, if_pos rfl]
    by_cases hq : q = o.page
    · subst hq
      cases hx : (m.spaces t).isProtected <;> simp
    · simp [hq]
  · have hcase : m.view t q = ((m.spaces t).priv q).getD (n.pages q).content := by
      rw [← hview q, view, hpriv]
    rw [view, storeWord_priv, storeWord_content, hp, hpriv, hview]
    by_cases hq : q = o.page
    · subst hq
      cases hx : (m.spaces t).isProtected with
      | true => simp
      | false => simp [hm hx, hcase]
    · simp [hq, hcase]

variable {L}

/-- The second store of `clearSyncEntry` goes nowhere: the word it takes for an address is null. -/
theorem clearSyncEntry_eq (hm : (m.spaces t).isProtected = false → (m.spaces t).priv o.page = none) :
    m.clearSyncEntry L t o = m.storeSync t o nullWord := by
  rw [clearSyncEntry]
  cases hs : m.storeSync t o nullWord with
  | none => rfl
  | some n =>
      have hnull : n.getSyncEntry t o = nullWord := by
        rw [getSyncEntry, (storeSync_eq hm hs).2, if_pos rfl, Page.setWord_same]
      change some (n.memWriteAt L (n.getSyncEntry t o) nullWord) = some n
      rw [hnull, memWriteAt, L.null]

theorem removed_iff_clean
    (hm : (m.spaces t).isProtected = false → (m.spaces t).priv o.page = none)
    (h : m.clearSyncEntry L t o = some m') : Removed m m' t o ↔ m.Clean t o := by
  rw [clearSyncEntry_eq hm] at h
  obtain ⟨hc, hv⟩ := storeSync_eq hm h
  have hcaller : m'.getSyncEntry t o = nullWord := by
    rw [getSyncEntry, hv, if_pos rfl, Page.setWord_same]
  have hview : ∀ p i, ¬ (p = o.page ∧ i = o.word) → m'.view t p i = m.view t p i := by
    intro p i hi
    rw [hv]
    split
    · rename_i hp
      rw [Page.setWord_of_ne _ _ fun hw => hi ⟨hp, hw⟩]
    · rfl
  have hpage := hc o.page
  rw [if_pos rfl] at hpage
  constructor
  · intro hr hprot
    rw [if_pos hprot] at hpage
    rw [← hpage]
    exact ⟨hr.shared, fun i hi => (hr.others o.page i fun h => hi h.2).2⟩
  · intro hclean
    cases hprot : (m.spaces t).isProtected with
    | true =>
        rw [if_pos hprot] at hpage
        obtain ⟨hnull, hrest⟩ := hclean hprot
        refine ⟨hcaller, by rw [hpage, hnull], fun p i hi => ⟨hview p i hi, ?_⟩⟩
        by_cases hp : p = o.page
        · subst hp
          rw [hpage]
          exact hrest i fun hw => hi ⟨rfl, hw⟩
        · rw [hc p, if_neg hp]
    | false =>
        have hfault : m.faulted t o.page = (m.pages o.page).content := by
          unfold faulted
          split
          · exact view_of_none (hm hprot)
          · rfl
        rw [hprot, if_neg Bool.false_ne_true, hfault] at hpage
        refine ⟨hcaller, by rw [hpage, Page.setWord_same], fun p i hi => ⟨hview p i hi, ?_⟩⟩
        by_cases hp : p = o.page
        · subst hp
          rw [hpage, Page.setWord_of_ne _ _ fun hw => hi ⟨rfl, hw⟩]
        · rw [hc p, if_neg hp]

end Mem

/-! ## The three operations -/

namespace SyncState

variable {L} {s s' : SyncState} {t u : Tid} {o : SyncAddr} {kind : Kind}

theorem clearSyncEntry_mem (h : s.clearSyncEntry L t o = some s') :
    s.mem.clearSyncEntry L t o = some s'.mem := by
  rw [clearSyncEntry, Option.map_eq_some_iff] at h
  obtain ⟨m, hm, rfl⟩ := h
  exact hm

@[simp] theorem freeSyncEntry_mem (e : Word) : (s.freeSyncEntry e).mem = s.mem := by
  unfold freeSyncEntry
  split <;> rfl

/-- Each of them clears the word once, and does nothing else to the memory. -/
theorem destroy_mem (h : s.destroy L kind t o = some s') :
    s.mem.clearSyncEntry L t o = some s'.mem := by
  cases kind with
  | cond =>
      simp only [destroy, condDestroy, Option.bind_eq_bind, Option.bind_eq_some_iff,
        Option.some.injEq] at h
      obtain ⟨e, -, s₁, hc, rfl⟩ := h
      simpa using clearSyncEntry_mem hc
  | barrier =>
      simp only [destroy, barrierDestroy, Option.bind_eq_bind, Option.bind_eq_some_iff,
        Option.some.injEq] at h
      obtain ⟨e, -, s₁, hc, rfl⟩ := h
      simpa using clearSyncEntry_mem hc
  | mutex =>
      simp only [destroy, lockDestroy, Option.bind_eq_bind, Option.bind_eq_some_iff,
        Option.some.injEq] at h
      obtain ⟨e, -, s₁, hc, rfl⟩ := h
      simpa using clearSyncEntry_mem hc

end SyncState

/-- Destroying an object removes it from both copies, and changes nothing else, if and only if its
word in the shared copy was null already (or the process stores to the shared copy); and then a
process in a later transaction finds null, as long as no stale copy of the page is published over
the word or kept. -/
theorem destroy_removes_iff {L : Layout} {kind : SyncState.Kind} {s s' : SyncState} {t : Tid}
    {o : SyncAddr} (hm : s.mem.Mapped) (h : s.destroy L kind t o = some s') :
    (Removed s.mem s'.mem t o ↔ s.mem.Clean t o) ∧
      (s.mem.Clean t o → ∀ as w, Transition.Run Session.step
        (fun s a => Untouched o a ∧ Keeps o nullWord s a) ⟨s'.mem, fun _ => false⟩ as w →
          ∀ u, w.later u = true → w.mem.getSyncEntry u o = nullWord) := by
  have hiff := Mem.removed_iff_clean (fun hp => hm t hp _) (SyncState.destroy_mem h)
  refine ⟨hiff, fun hc as w hr u hu => ?_⟩
  have hstart : Registered o nullWord ⟨s'.mem, fun _ => false⟩ :=
    ⟨(hiff.mpr hc).shared, fun _ hl => absurd hl Bool.false_ne_true⟩
  exact (hr.invariant (fun _ _ _ hi hg hs => hi.step hg.1 hg.2 hs) hstart).later u hu

/-! ## Runs -/

/-- A heap of 16 pages at address 4096. -/
def smallLayout : Layout where
  inRange w :=
    let a := (w 0).toNat + 256 * (w 1).toNat + 65536 * (w 2).toNat
    if 4096 ≤ a ∧ a < 4096 + 16 * 4096 then
      some ⟨(a - 4096) / 4096, ⟨a % 4096 / 8, by omega⟩⟩
    else none
  null := rfl

/-- The address of the entry of the object. -/
def sampleEntry : Word := fun _ => 7

/-- An object registered by the only thread and destroyed before any other was created. -/
theorem destroy_removes_unprotected :
    ∃ s', SyncState.destroy smallLayout .cond
        ⟨(Mem.boot 16).memWrite ⟨2, 5⟩ sampleEntry, 1, 0, []⟩ 1 ⟨2, 5⟩ = some s' ∧
      Removed ((Mem.boot 16).memWrite ⟨2, 5⟩ sampleEntry) s'.mem 1 ⟨2, 5⟩ := by
  have hrun : (SyncState.destroy smallLayout .cond
      ⟨(Mem.boot 16).memWrite ⟨2, 5⟩ sampleEntry, 1, 0, []⟩ 1 ⟨2, 5⟩).isSome = true := by
    decide +kernel
  obtain ⟨s', hs⟩ := Option.isSome_iff_exists.mp hrun
  exact ⟨s', hs, (destroy_removes_iff (fun _ _ _ => rfl) hs).1.mpr fun hp => nomatch hp⟩

/-- Process 1 registers the object and commits. -/
def registering : List Act :=
  [.openProtection 1, .fork 1 2, .fault 1 2, .setWord 1 ⟨2, 5⟩ sampleEntry,
    .memWrite 1 ⟨2, 5⟩ sampleEntry, .commitEntry 1 0, .begin 1]

/-- Once process 1 has destroyed the object, process 2 begins and still finds the freed entry. -/
def Resurrects (kind : SyncState.Kind) : Prop :=
  ∃ m, Transition.exec Mem.step (Mem.boot 16) registering = some m ∧
    ∃ s', SyncState.destroy smallLayout kind ⟨m, 1, 1, []⟩ 1 ⟨2, 5⟩ = some s' ∧
      ¬ Removed m s'.mem 1 ⟨2, 5⟩ ∧
      ∃ w, s'.mem.step (.begin 2) = some w ∧ w.getSyncEntry 2 ⟨2, 5⟩ ∈ s'.freed

theorem resurrects_of_any {kind : SyncState.Kind}
    (h : (Transition.exec Mem.step (Mem.boot 16) registering).any (fun m =>
      decide ((SyncState.destroy smallLayout kind ⟨m, 1, 1, []⟩ 1 ⟨2, 5⟩).any (fun s' =>
        decide ((s'.mem.pages 2).content 5 ≠ nullWord ∧
          (s'.mem.updateAll 2).getSyncEntry 2 ⟨2, 5⟩ ∈ s'.freed)) = true)) = true) :
    Resurrects kind := by
  obtain ⟨m, hm, hd⟩ := Transition.exists_exec_of_any h
  refine ⟨m, hm, ?_⟩
  rw [Option.any_eq_true] at hd
  obtain ⟨s', hs, hp⟩ := hd
  obtain ⟨hshared, hfreed⟩ := of_decide_eq_true hp
  exact ⟨s', hs, fun hr => hshared hr.shared, _, rfl, hfreed⟩

/-- Each kind of object outlives its destruction in the shared copy. -/
theorem destroy_resurrects : Resurrects .cond ∧ Resurrects .barrier ∧ Resurrects .mutex :=
  ⟨resurrects_of_any (by decide +kernel), resurrects_of_any (by decide +kernel),
    resurrects_of_any (by decide +kernel)⟩

end Dthreads.Memory
