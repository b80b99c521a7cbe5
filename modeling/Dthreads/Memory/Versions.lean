import Mathlib
import Dthreads.Memory.Dirty

/-! # Recorded versions

A fault keeps the version of its page in an `int`; the counter it is compared with at the
commit is an `unsigned long`. -/

namespace Dthreads.Memory

open Transition

/-- The `int` is sign-extended, so it gives the counter back when the upper half of the counter
repeats its bit 31. -/
theorem sameVersion_recorded_iff (v : BitVec 64) :
    sameVersion (v.setWidth 32) v = true ↔ v.toNat < 2 ^ 31 ∨ 2 ^ 64 - 2 ^ 31 ≤ v.toNat := by
  have hv := v.isLt
  have hmod : (v.setWidth 32).toNat = v.toNat % 2 ^ 32 := BitVec.toNat_setWidth _ _
  unfold sameVersion
  rw [decide_eq_true_eq, ← BitVec.toNat_inj, BitVec.toNat_signExtend, BitVec.toNat_setWidth, hmod,
    BitVec.msb_eq_decide, hmod]
  by_cases h : 2 ^ 31 ≤ v.toNat % 2 ^ 32
  · rw [if_pos (by simpa using h)]
    omega
  · rw [if_neg (by simpa using h)]
    omega

namespace Mem

variable {m m' m₁ m₂ m₃ : Mem} {t : Tid} {p q k n : ℕ} {a : Act} {as : List Act} {e : PageInfo}
  {v : Byte}

/-! ## New versions -/

/-- The action commits page `p`, and so makes a new version of it. -/
def commits (m : Mem) (p : ℕ) : Act → Prop
  | .fault t q => q = p ∧ (m.spaces t).access q = .write
  | .commitEntry t k => ∃ e ∈ (m.spaces t).dirty[k]?, e.pageNo = p ∧ m.publishes t e
  | .finalcommit _ q _ => q = p
  | .signal _ q => q = p
  | _ => False

theorem setSharedPage_version :
    ((m.setSharedPage t p).pages q).version = (m.pages q).version := by
  have h := congrArg Table.version (setSharedPage_table (m := m) (t := t) (p := p) (q := q))
  rw [table_version] at h
  rw [h]
  split <;> rfl

theorem notifyOwnerToCommit_version :
    ((m.notifyOwnerToCommit t p).pages q).version = (m.pages q).version := by
  unfold notifyOwnerToCommit
  split
  · rfl
  · exact setSharedPage_version
  · split
    · rfl
    · exact setSharedPage_version

theorem superblock_version :
    ((m.superblock t n).pages q).version = (m.pages q).version := by
  unfold superblock setOwnedPage
  dsimp only
  split
  · dsimp only
    split <;> rfl
  · rfl

theorem commitEntry_version (h : m.commitEntry t k = some m')
    (hc : ¬ m.commits p (.commitEntry t k)) : (m'.pages p).version = (m.pages p).version := by
  obtain ⟨d, n, hd, hn, -, ht⟩ := commitEntry_table h
  have hp := congrArg Table.version (ht p)
  rw [table_version] at hp
  rw [hp, ← ensureTwin_version hn]
  split
  · rfl
  · rename_i hq
    push Not at hq
    rw [if_neg fun hpub => hc ⟨d, hd, hq.1.symm, hpub⟩]
    rfl

/-- Only a commit of the page makes a new version. -/
theorem step_version (h : m.step a = some m') (hc : ¬ m.commits p a) :
    (m'.pages p).version = (m.pages p).version := by
  cases a <;> simp only [step, Option.ite_none_right_eq_some, Option.some.injEq] at h
  case load => rw [← h.2]
  case store => rw [← h.2, ← table_version, storeBytes_table, table_version]
  case fault t q =>
    rw [← table_version, handleWrite_table h.2]
    split
    · rename_i hq
      subst hq
      rw [if_neg fun ha => hc ⟨rfl, ha⟩]
    · rfl
  case notify => rw [← h.2, notifyOwnerToCommit_version]
  case mprotectRead => rw [← h.2, mprotectRead_pages]
  case setWord => rw [← h.2, ← table_version, storeWord_table, table_version]
  case memWrite => rw [← h, ← table_version, memWrite_table, table_version]
  case commitEntry => exact commitEntry_version h hc
  case begin => rw [← h, updateAll_pages]
  case finalcommit t q r =>
    rw [← h.2, ← table_version, finalcommitPage_table r fun he => hc he.symm, table_version]
  case superblock => rw [← h, superblock_version]
  case signal t q =>
    rw [← h.2, ← table_version, signalHandler_table fun he => hc he.symm, table_version]
  case cleanup => rw [← h]
  case openProtection => rw [← h]; rfl
  case closeProtection => rw [← h]; rfl
  case fork => rw [← h]; rfl
  case exit => rw [← h]; rfl

theorem run_version (h : Run Mem.step (fun m a => ¬ m.commits p a) m as m') :
    (m'.pages p).version = (m.pages p).version := by
  induction h with
  | nil => rfl
  | snoc _ hg hs ih => exact (step_version hs hg).trans ih

/-! ## The commit after a fault -/

/-- The version a fault of `t` on page `p` records. -/
def versionAt (m : Mem) (t : Tid) (p : ℕ) : BitVec 64 :=
  if (m.spaces t).access p = .write then (m.pages p).version + 1 else (m.pages p).version

theorem handleWrite_version (h : m.handleWrite t p = some m') :
    (m'.pages p).version = m.versionAt t p := by
  rw [← table_version, handleWrite_table h, if_pos rfl]
  rfl

/-- The entry of a fault has the version, cut to an `int`. -/
theorem handleWrite_entry (h : m.handleWrite t p = some m')
    (he : (m'.spaces t).dirty = Space.insertDirty e (m.spaces t).dirty) :
    e.pageNo = p ∧ e.version = (m.versionAt t p).setWidth 32 := by
  obtain ⟨x, hx, hv⟩ := handleWrite_space h
  have hperm : (e :: (m.spaces t).dirty).Perm (x :: (m.spaces t).dirty) := by
    refine (Space.insertDirty_perm e _).symm.trans ?_
    rw [← he, hx.dirty]
    exact Space.insertDirty_perm x _
  obtain rfl : e = x := by
    by_contra hne
    have hcount := hperm.count_eq e
    rw [List.count_cons_self, List.count_cons_of_ne (Ne.symm hne)] at hcount
    omega
  exact ⟨hx.pageNo, by rw [hv, handleWrite_version h]⟩

/-- The commit of entry `e` finds the recorded version current, and so copies the page if it
commits it. -/
def FastCommit (m m' : Mem) (t : Tid) (e : PageInfo) : Prop :=
  sameVersion e.version (m.pages e.pageNo).version = true ∧
    (m.publishes t e → (m'.pages e.pageNo).content = m.view t e.pageNo)

/-- A page that nobody else committed since the fault takes the fast commit if and only if the
counter was below `2 ^ 31` or has come within `2 ^ 31` of its wrap. -/
theorem fastCommit_iff (hf : m.step (.fault t p) = some m₁)
    (he : (m₁.spaces t).dirty = Space.insertDirty e (m.spaces t).dirty)
    (hr : Run Mem.step (fun m a => ¬ m.commits p a) m₁ as m₂)
    (hk : (m₂.spaces t).dirty[k]? = some e) (hc : m₂.step (.commitEntry t k) = some m₃) :
    FastCommit m₂ m₃ t e ↔
      (m.versionAt t p).toNat < 2 ^ 31 ∨ 2 ^ 64 - 2 ^ 31 ≤ (m.versionAt t p).toNat := by
  simp only [step, Option.ite_none_right_eq_some] at hf
  obtain ⟨hp, hv⟩ := handleWrite_entry hf.2 he
  have hcur : (m₂.pages e.pageNo).version = m.versionAt t p := by
    rw [hp, run_version hr, handleWrite_version hf.2]
  rw [← sameVersion_recorded_iff, FastCommit, hcur, hv]
  refine ⟨And.left, fun hs => ⟨hs, fun hpub => ?_⟩⟩
  obtain ⟨d, b, hd, -, hcontent⟩ := commitEntry_content (show m₂.commitEntry t k = some m₃ from hc)
  obtain rfl : e = d := Option.some.inj (hk.symm.trans hd)
  rw [hcontent, if_pos ⟨rfl, hpub⟩, hcur, hv, if_pos hs]

/-! ## A run of many commits -/

/-- Page 0 between two transactions of its only writer, after `n` commits. Its first byte is 7. -/
structure Resting (n : ℕ) (m : Mem) : Prop where
  page : ∃ c, m.pages 0 = ⟨c, BitVec.ofNat 64 n, 0, 0, .shared⟩ ∧ c 0 0 = 7
  twin : m.bitmap.twin 0 = fun _ _ => 0
  isProtected : (m.spaces 1).isProtected = true
  access : (m.spaces 1).access 0 = .read
  prot : (m.spaces 1).prot 0 = .read
  dirty : (m.spaces 1).dirty = []
  cur : (m.spaces 1).cur = 0
  priv : (m.spaces 1).priv 0 = none

/-- One transaction: fault, store the byte, commit, begin. -/
def transaction (v : Byte) : List Act :=
  [.fault 1 0, .store 1 [⟨0, 0, 0⟩] (fun _ _ => v), .commitEntry 1 0, .begin 1]

/-- The entry of the page after `n` commits. -/
def restingEntry (n : ℕ) : PageInfo :=
  { pageNo := 0, version := BitVec.ofNat 32 n, isUpdated := false, slot := 0, processed := false }

/-- The page has been faulted on, and `v` was stored to its first byte. -/
structure Stored (n : ℕ) (v : Byte) (m : Mem) : Prop where
  page : ∃ c, m.pages 0 = ⟨c, BitVec.ofNat 64 n, 1, 0, .shared⟩ ∧ c 0 0 = 7
  twin : m.bitmap.twin 0 = fun _ _ => 0
  isProtected : (m.spaces 1).isProtected = true
  access : (m.spaces 1).access 0 = .read
  dirty : (m.spaces 1).dirty = [restingEntry n]
  byte : m.view 1 0 0 0 = v

theorem Resting.store (h : Resting n m) (v : Byte) :
    ∃ m₁, m.step (.fault 1 0) = some m₁ ∧ (m₁.spaces 1).dirty = [restingEntry n] ∧
      ∃ m₂, m₁.step (.store 1 [⟨0, 0, 0⟩] (fun _ _ => v)) = some m₂ ∧ Stored n v m₂ := by
  obtain ⟨c, hc, hb⟩ := h.page
  have hfault : ∃ m₁, m.step (.fault 1 0) = some m₁ ∧
      m₁.pages 0 = ⟨c, BitVec.ofNat 64 n, 1, 0, .shared⟩ ∧ m₁.bitmap = m.bitmap ∧
      m₁.spaces 1 = { m.spaces 1 with
        prot := Function.update (m.spaces 1).prot 0 .readWrite
        cur := 1
        dirty := [restingEntry n] } := by
    simp [step, writable, handleWrite, h.prot, h.access, h.cur, h.dirty, hc, mprotectWrite,
      addDirty, pageEntryNum, Space.setProt, Space.insertDirty, restingEntry]
  obtain ⟨m₁, hs, hpage, hbit, hspace⟩ := hfault
  refine ⟨m₁, hs, by rw [hspace], m₁.storeBytes 1 (fun _ => v) [⟨0, 0, 0⟩], ?_, ?_⟩
  · simp [step, writable, hspace]
  · have hprot : (m₁.spaces 1).isProtected = true := by rw [hspace, h.isProtected]
    have hstored : m₁.storeBytes 1 (fun _ => v) [⟨0, 0, 0⟩] =
        m₁.setSpace 1 ((m₁.spaces 1).setPriv 0
          ((m₁.view 1 0).setWord 0 (Function.update (m₁.view 1 0 0) 0 v))) := by
      simp [storeBytes, storeByte, storeWord, hprot]
    rw [hstored]
    exact {
      page := ⟨c, hpage, hb⟩
      twin := by rw [setSpace_bitmap, hbit, h.twin]
      isProtected := by simp [Space.setPriv, hprot]
      access := by simp [Space.setPriv, hspace, h.access]
      dirty := by simp [Space.setPriv, hspace]
      byte := by simp [view, Space.setPriv] }

theorem Stored.commit (h : Stored n 7 m) (hn : n < 2 ^ 31) :
    ∃ m₁, m.step (.commitEntry 1 0) = some m₁ ∧
      ∃ m₂, m₁.step (.begin 1) = some m₂ ∧ Resting (n + 1) m₂ := by
  obtain ⟨c, hc, hb⟩ := h.page
  have hv : sameVersion (BitVec.ofNat 32 n) (BitVec.ofNat 64 n) = true := by
    have hlt : (BitVec.ofNat 64 n).toNat < 2 ^ 31 := by
      rw [BitVec.toNat_ofNat]
      omega
    simpa using sameVersion_setWidth hlt
  have hcommit : ∃ m₁, m.step (.commitEntry 1 0) = some m₁ ∧
      m₁.pages 0 = ⟨m.view 1 0, BitVec.ofNat 64 n + 1, 0, 0, .shared⟩ ∧ m₁.bitmap = m.bitmap ∧
      m₁.spaces 1 = { m.spaces 1 with
        dirty := [{ restingEntry n with processed := true }]
        release := Function.update (m.spaces 1).release 0 true } := by
    simp [step, commitEntry, h.dirty, restingEntry, ensureTwin, hc, publish, hv, endCommit,
      finishEntry, decUsers]
  obtain ⟨m₁, hs, hpage, hbit, hspace⟩ := hcommit
  refine ⟨m₁, hs, m₁.updateAll 1, rfl, ?_⟩
  exact {
    page := ⟨m.view 1 0, by rw [updateAll_pages, hpage, BitVec.ofNat_add]; rfl, h.byte⟩
    twin := by
      change m₁.bitmap.twin 0 = _
      rw [hbit, h.twin]
    isProtected := by simp [updateAll, hspace, h.isProtected]
    access := by simp [updateAll, hspace, h.access]
    prot := by simp [updateAll, hspace, restingEntry]
    dirty := by simp [updateAll]
    cur := by simp [updateAll]
    priv := by simp [updateAll, hspace, restingEntry] }

theorem exists_resting (hn : n ≤ 2 ^ 31) : ∃ as m, exec step (boot 8) as = some m ∧ Resting n m := by
  induction n with
  | zero =>
      refine ⟨[.store 1 [⟨0, 0, 0⟩] (fun _ _ => 7), .openProtection 1], _, rfl, ?_⟩
      exact {
        page := ⟨_, rfl, rfl⟩
        twin := rfl
        isProtected := rfl
        access := rfl
        prot := rfl
        dirty := rfl
        cur := rfl
        priv := rfl }
  | succ n ih =>
      obtain ⟨as, m, hr, h⟩ := ih (by omega)
      obtain ⟨m₁, h₁, -, m₂, h₂, hs⟩ := h.store 7
      obtain ⟨m₃, h₃, m₄, h₄, h'⟩ := hs.commit (by omega)
      refine ⟨as ++ transaction 7, m₄, ?_, h'⟩
      rw [exec_append, hr]
      simp [transaction, exec_cons, h₁, h₂, h₃, h₄]

/-- With a recorded version that does not match, the page is compared with twin page 0. -/
theorem Stored.lose (h : Stored n 0 m)
    (hv : sameVersion (BitVec.ofNat 32 n) (BitVec.ofNat 64 n) = false) :
    ∃ m', m.step (.commitEntry 1 0) = some m' ∧ ¬ FastCommit m m' 1 (restingEntry n) ∧
      (m'.pages 0).content 0 0 = 7 := by
  obtain ⟨c, hc, hb⟩ := h.page
  have hcommit : ∃ m', m.step (.commitEntry 1 0) = some m' ∧
      (m'.pages 0).content = writePageDiffs (m.view 1 0) (fun _ _ => 0) c := by
    simp [step, commitEntry, h.dirty, restingEntry, ensureTwin, hc, publish, hv, endCommit,
      finishEntry, setSharedPage, h.twin]
  obtain ⟨m', hs, hcontent⟩ := hcommit
  refine ⟨m', hs, ?_, ?_⟩
  · rintro ⟨hsame, -⟩
    simp [restingEntry, hc, hv] at hsame
  · rw [hcontent, writePageDiffs_of_eq _ h.byte, hb]

/-- After `2 ^ 31` transactions of its only writer the page is compared with a twin that was never
created, and the zero the writer stored over 7 is dropped. -/
theorem slow_commit_undisturbed : ∃ (as : List Act) (m m₁ m₂ m₃ : Mem) (e : PageInfo),
    exec step (boot 8) as = some m ∧
    (m.pages 0).version = 2 ^ 31 ∧ m.step (.fault 1 0) = some m₁ ∧
    (m₁.spaces 1).dirty = Space.insertDirty e (m.spaces 1).dirty ∧
    Run step (fun m a => ¬ m.commits 0 a) m₁ [.store 1 [⟨0, 0, 0⟩] (fun _ _ => 0)] m₂ ∧
    (m₂.spaces 1).dirty[0]? = some e ∧ m₂.step (.commitEntry 1 0) = some m₃ ∧
    ¬ FastCommit m₂ m₃ 1 e ∧ m₂.view 1 0 0 0 = 0 ∧ (m₃.pages 0).content 0 0 = 7 := by
  obtain ⟨as, m, hr, h⟩ := exists_resting (le_refl (2 ^ 31))
  obtain ⟨c, hpage, -⟩ := h.page
  obtain ⟨m₁, h₁, hd, m₂, h₂, hs⟩ := h.store 0
  obtain ⟨m₃, h₃, hslow, hbyte⟩ := hs.lose (by decide)
  refine ⟨as, m, m₁, m₂, m₃, restingEntry (2 ^ 31), hr, by rw [hpage]; rfl, h₁,
    by rw [hd, h.dirty]; rfl, .cons (fun hc => hc) h₂ (.nil m₂), by rw [hs.dirty]; rfl, h₃, hslow,
    hs.byte, hbyte⟩

theorem fastCommit_iff_three : ∃ (m m₁ m₂ m₃ : Mem) (e : PageInfo), (m.pages 0).version = 3 ∧
    m.step (.fault 1 0) = some m₁ ∧
    m₁.step (.store 1 [⟨0, 0, 0⟩] (fun _ _ => 7)) = some m₂ ∧
    m₂.step (.commitEntry 1 0) = some m₃ ∧ (m₂.spaces 1).dirty[0]? = some e ∧
    FastCommit m₂ m₃ 1 e := by
  obtain ⟨-, m, -, h⟩ := exists_resting (by decide : 3 ≤ 2 ^ 31)
  obtain ⟨c, hpage, -⟩ := h.page
  obtain ⟨m₁, h₁, hd, m₂, h₂, hs⟩ := h.store 7
  obtain ⟨m₃, h₃, -⟩ := hs.commit (by decide)
  have hr : Run step (fun m a => ¬ m.commits 0 a) m₁ [.store 1 [⟨0, 0, 0⟩] (fun _ _ => 7)] m₂ :=
    .cons (fun hc => hc) h₂ (.nil m₂)
  have hiff := fastCommit_iff h₁ (by rw [hd, h.dirty]; rfl) hr
    (show (m₂.spaces 1).dirty[0]? = some (restingEntry 3) by rw [hs.dirty]; rfl) h₃
  refine ⟨m, m₁, m₂, m₃, restingEntry 3, by rw [hpage]; rfl, h₁, h₂, h₃, by rw [hs.dirty]; rfl,
    hiff.mpr (.inl ?_)⟩
  simp [versionAt, h.access, hpage]

end Mem

end Dthreads.Memory
