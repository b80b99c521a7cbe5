import Dthreads.Memory.Machine

/-! # What each action does to the bytes of a page

For every function of the page machine: the shared content it leaves, and the private copies
it leaves. The later modules never unfold these functions for their bytes. -/

namespace Dthreads.Memory.Mem

open Space

variable {m m' : Mem} {t u : Tid} {p q k : ℕ}

/-! ## Ownership -/

@[simp] theorem setSharedPage_content : ((m.setSharedPage t p).pages q).content = (m.pages q).content := by
  unfold setSharedPage
  split
  · by_cases h : q = p
    · subst h; simp
    · simp [h]
  · rfl

@[simp] theorem setSharedPage_priv : ((m.setSharedPage t p).spaces u).priv = (m.spaces u).priv := by
  unfold setSharedPage
  split
  · by_cases h : u = t
    · subst h; simp [setAccess]
    · simp [h]
  · rfl

@[simp] theorem setSharedPage_bitmap : (m.setSharedPage t p).bitmap = m.bitmap := by
  unfold setSharedPage
  split <;> rfl

@[simp] theorem setSharedPage_view : (m.setSharedPage t p).view u q = m.view u q := by
  simp [view]

theorem commitOwnedPage_content (s : Bool) :
    ((m.commitOwnedPage t p s).pages q).content =
      if q = p then m.view t p else (m.pages q).content := by
  unfold commitOwnedPage
  by_cases h : q = p
  · subst h; cases s <;> simp
  · cases s <;> simp [h]

theorem commitOwnedPage_priv (s : Bool) :
    ((m.commitOwnedPage t p s).spaces u).priv q =
      if s ∧ u = t ∧ q = p then none else (m.spaces u).priv q := by
  unfold commitOwnedPage
  by_cases hu : u = t
  · subst hu
    by_cases hq : q = p
    · subst hq; cases s <;> simp [dontneed]
    · cases s <;> simp [dontneed, hq]
  · cases s <;> simp [hu]

@[simp] theorem setOwnedPage_content {a n : ℕ} :
    ((m.setOwnedPage t a n).pages q).content = (m.pages q).content := by
  unfold setOwnedPage
  dsimp only
  split
  · dsimp only
    split <;> rfl
  · rfl

@[simp] theorem setOwnedPage_priv {a n : ℕ} :
    ((m.setOwnedPage t a n).spaces u).priv = (m.spaces u).priv := by
  unfold setOwnedPage
  dsimp only
  split
  · by_cases h : u = t
    · subst h; simp
    · simp [h]
  · rfl

@[simp] theorem superblock_content {n : ℕ} :
    ((m.superblock t n).pages q).content = (m.pages q).content := by
  simp [superblock]

@[simp] theorem superblock_priv {n : ℕ} :
    ((m.superblock t n).spaces u).priv = (m.spaces u).priv := by
  simp [superblock]

@[simp] theorem notifyOwnerToCommit_content :
    ((m.notifyOwnerToCommit t p).pages q).content = (m.pages q).content := by
  unfold notifyOwnerToCommit
  split
  · rfl
  · simp
  · split
    · rfl
    · simp

@[simp] theorem notifyOwnerToCommit_priv :
    ((m.notifyOwnerToCommit t p).spaces u).priv = (m.spaces u).priv := by
  unfold notifyOwnerToCommit
  split
  · rfl
  · simp
  · split
    · rfl
    · simp

theorem signalHandler_content :
    ((m.signalHandler t p).pages q).content = if q = p then m.view t p else (m.pages q).content := by
  rw [signalHandler, commitOwnedPage_content]
  rfl

theorem signalHandler_priv :
    ((m.signalHandler t p).spaces u).priv q =
      if u = t ∧ q = p then none else (m.spaces u).priv q := by
  rw [signalHandler, commitOwnedPage_priv]
  simp

theorem finalcommitPage_content (r : Bool) :
    ((m.finalcommitPage t p r).pages q).content =
      if q = p then m.view t p else (m.pages q).content := by
  unfold finalcommitPage
  split <;> simp [commitOwnedPage_content]

theorem finalcommitPage_priv (r : Bool) :
    ((m.finalcommitPage t p r).spaces u).priv q =
      if r ∧ u = t ∧ q = p then none else (m.spaces u).priv q := by
  cases r <;> simp [finalcommitPage, commitOwnedPage_priv]

/-! ## Faults -/

@[simp] theorem mprotectRead_pages : (m.mprotectRead t p).pages = m.pages := rfl

@[simp] theorem mprotectRead_priv : ((m.mprotectRead t p).spaces u).priv = (m.spaces u).priv := by
  unfold mprotectRead
  by_cases h : u = t
  · subst h; simp [setAccess, setProt]
  · simp [h]

@[simp] theorem mprotectWrite_pages : (m.mprotectWrite t p).pages = m.pages := rfl

@[simp] theorem mprotectWrite_priv : ((m.mprotectWrite t p).spaces u).priv = (m.spaces u).priv := by
  unfold mprotectWrite
  by_cases h : u = t
  · subst h
    simp only [setSpace_spaces_same, setProt]
    split <;> rfl
  · simp [h]

@[simp] theorem mprotectWrite_view : (m.mprotectWrite t p).view u q = m.view u q := by
  simp [view]

theorem addDirty_content (h : m.addDirty t p = some m') :
    (m'.pages q).content = (m.pages q).content := by
  unfold addDirty at h
  dsimp only at h
  split at h
  · obtain rfl := Option.some.inj h
    by_cases hq : q = p
    · subst hq; simp
    · simp [hq]
  · simp at h

theorem addDirty_priv (h : m.addDirty t p = some m') :
    (m'.spaces u).priv = (m.spaces u).priv := by
  unfold addDirty at h
  dsimp only at h
  split at h
  · obtain rfl := Option.some.inj h
    by_cases hu : u = t
    · subst hu; simp
    · simp [hu]
  · simp at h

/-- A fault publishes the copy only when the page was written before by its owner. -/
theorem handleWrite_content (h : m.handleWrite t p = some m') :
    (m'.pages q).content =
      if q = p ∧ (m.spaces t).access p = .write then m.view t p else (m.pages q).content := by
  unfold handleWrite at h
  split at h
  · rename_i ha
    rw [addDirty_content h, commitOwnedPage_content]
    simp [ha]
  · rename_i ha
    rw [addDirty_content h, if_neg (fun hc => ha hc.2), mprotectWrite_pages]

theorem handleWrite_priv (h : m.handleWrite t p = some m') :
    (m'.spaces u).priv = (m.spaces u).priv := by
  unfold handleWrite at h
  split at h
  · rw [addDirty_priv h]
    funext q
    simp [commitOwnedPage_priv]
  · rw [addDirty_priv h]
    simp

/-- The fault handler changes nothing the process sees. -/
theorem handleWrite_view (h : m.handleWrite t p = some m') : m'.view t q = m.view t q := by
  unfold view
  rw [handleWrite_priv h, handleWrite_content h]
  split
  · rename_i hq
    obtain ⟨rfl, -⟩ := hq
    cases hp : (m.spaces t).priv q <;> simp [view, hp]
  · rfl

/-! ## Stores -/

theorem storeWord_content (i : Fin 512) (w : Word) :
    ((m.storeWord t p i w).pages q).content =
      if q = p ∧ (m.spaces t).isProtected = false then (m.pages p).content.setWord i w
      else (m.pages q).content := by
  unfold storeWord
  cases hp : (m.spaces t).isProtected with
  | true => simp
  | false =>
      by_cases hq : q = p
      · subst hq; simp
      · simp [hq]

theorem storeWord_priv (i : Fin 512) (w : Word) :
    ((m.storeWord t p i w).spaces u).priv q =
      if u = t ∧ q = p ∧ (m.spaces t).isProtected = true then some ((m.view t p).setWord i w)
      else (m.spaces u).priv q := by
  unfold storeWord
  cases hp : (m.spaces t).isProtected with
  | true =>
      by_cases hu : u = t
      · subst hu
        by_cases hq : q = p
        · subst hq; simp [setPriv]
        · simp [setPriv, hq]
      · simp [hu]
  | false => simp

@[simp] theorem storeWord_isProtected (i : Fin 512) (w : Word) :
    ((m.storeWord t p i w).spaces u).isProtected = (m.spaces u).isProtected := by
  unfold storeWord
  cases hp : (m.spaces t).isProtected with
  | true =>
      by_cases hu : u = t
      · subst hu; simp [setPriv]
      · simp [hu]
  | false => simp

theorem memWrite_content (o : SyncAddr) (w : Word) :
    ((m.memWrite o w).pages q).content =
      if q = o.page then (m.pages q).content.setWord o.word w else (m.pages q).content := by
  unfold memWrite
  by_cases h : q = o.page
  · subst h; simp
  · simp [h]

@[simp] theorem memWrite_spaces (o : SyncAddr) (w : Word) : (m.memWrite o w).spaces = m.spaces := rfl

/-- A store elsewhere changes the word in no view. -/
theorem storeWord_view_word {i j : Fin 512} (w : Word) (h : ¬ (p = q ∧ i = j)) :
    (m.storeWord t p i w).view u q j = m.view u q j := by
  have hj : p = q → j ≠ i := fun hp hj => h ⟨hp, hj.symm⟩
  unfold view
  rw [storeWord_priv, storeWord_content]
  by_cases hp : p = q
  · subst hp
    cases hs : (m.spaces t).isProtected with
    | true =>
        by_cases hu : u = t
        · subst hu
          simp [hj rfl, view]
        · simp [hu]
    | false =>
        cases hc : (m.spaces u).priv p with
        | none => simp [hj rfl]
        | some c => simp
  · simp [Ne.symm hp]

theorem storeWord_content_word {i j : Fin 512} (w : Word) (h : ¬ (p = q ∧ i = j)) :
    ((m.storeWord t p i w).pages q).content j = (m.pages q).content j := by
  have hj : p = q → j ≠ i := fun hp hj => h ⟨hp, hj.symm⟩
  rw [storeWord_content]
  split
  · rename_i hq
    obtain ⟨rfl, -⟩ := hq
    rw [Page.setWord_of_ne _ _ (hj rfl)]
  · rfl

/-- Stores to other words change the word neither in the file nor in any view. -/
theorem storeBytes_word {val : Addr → Byte} {as : List Addr} {j : Fin 512}
    (h : ∀ a ∈ as, ¬ (a.page = q ∧ a.word = j)) :
    ((m.storeBytes t val as).pages q).content j = (m.pages q).content j ∧
      (m.storeBytes t val as).view u q j = m.view u q j := by
  induction as generalizing m with
  | nil => exact ⟨rfl, rfl⟩
  | cons a as ih =>
      have ha := h a (by simp)
      have hr := ih (m := m.storeByte t a (val a)) fun b hb => h b (by simp [hb])
      exact ⟨hr.1.trans (storeWord_content_word _ ha), hr.2.trans (storeWord_view_word _ ha)⟩

/-- A protected process stores to its copies, of pages it can write. -/
theorem storeBytes_priv {val : Addr → Byte} {as : List Addr} (h : ∀ a ∈ as, a.page ≠ q ∨ u ≠ t) :
    ((m.storeBytes t val as).spaces u).priv q = (m.spaces u).priv q := by
  induction as generalizing m with
  | nil => rfl
  | cons a as ih =>
      refine (ih (m := m.storeByte t a (val a)) fun b hb => h b (by simp [hb])).trans ?_
      rw [storeByte, storeWord_priv, if_neg]
      rintro ⟨rfl, rfl, -⟩
      exact (h a (by simp)).elim (fun hc => hc rfl) (fun hc => hc rfl)

theorem storeBytes_content {val : Addr → Byte} {as : List Addr}
    (h : (m.spaces t).isProtected = true) :
    ((m.storeBytes t val as).pages q).content = (m.pages q).content := by
  induction as generalizing m with
  | nil => rfl
  | cons a as ih =>
      refine (ih (m := m.storeByte t a (val a)) ?_).trans ?_
      · rw [storeByte, storeWord_isProtected, h]
      · rw [storeByte, storeWord_content, if_neg (by simp [h])]

/-! ## Commits -/

theorem createTwinPage_eq (h : m.createTwinPage p = some m') :
    m.bitmap.cur + 1 < initialPages ∧
    m' = ({ m with
      bitmap := (({ m.bitmap with cur := m.bitmap.cur + 1 } : Bitmap).setTwin m.bitmap.cur
        (m.pages p).content).setVersion m.bitmap.cur ((m.pages p).version.setWidth 32) }).setPage p
      { m.pages p with bitmapIndex := m.bitmap.cur % 65536 } := by
  unfold createTwinPage Bitmap.get at h
  split at h
  · rename_i hc
    exact ⟨hc, (Option.some.inj h).symm⟩
  · simp at h

/-- A new twin is the shared content at that moment. -/
theorem createTwinPage_twin (h : m.createTwinPage p = some m') :
    m'.bitmap.twin m.bitmap.cur = (m.pages p).content := by
  obtain ⟨_, rfl⟩ := createTwinPage_eq h
  rw [setPage_bitmap, Bitmap.twin_setVersion _ _ (Bitmap.versionSlot_le_self _), Bitmap.twin_setTwin]

theorem createTwinPage_pages (h : m.createTwinPage p = some m') :
    m'.pages = Function.update m.pages p
      { m.pages p with bitmapIndex := m.bitmap.cur % 65536 } := by
  obtain ⟨_, rfl⟩ := createTwinPage_eq h
  rfl

theorem createTwinPage_spaces (h : m.createTwinPage p = some m') : m'.spaces = m.spaces := by
  obtain ⟨_, rfl⟩ := createTwinPage_eq h
  rfl

/-- Only the twin index of the page can change. -/
theorem ensureTwin_pages (h : m.ensureTwin p = some m') :
    ∃ i, m'.pages = Function.update m.pages p { m.pages p with bitmapIndex := i } := by
  unfold ensureTwin at h
  split at h
  · exact ⟨_, createTwinPage_pages h⟩
  · obtain rfl := Option.some.inj h
    exact ⟨(m.pages p).bitmapIndex, (Function.update_eq_self p m.pages).symm⟩

theorem ensureTwin_spaces (h : m.ensureTwin p = some m') : m'.spaces = m.spaces := by
  unfold ensureTwin at h
  split at h
  · exact createTwinPage_spaces h
  · obtain rfl := Option.some.inj h
    rfl

theorem ensureTwin_content (h : m.ensureTwin p = some m') :
    (m'.pages q).content = (m.pages q).content := by
  obtain ⟨i, hi⟩ := ensureTwin_pages h
  rw [hi]
  by_cases hq : q = p
  · subst hq; simp
  · simp [hq]

theorem ensureTwin_view (h : m.ensureTwin p = some m') : m'.view u q = m.view u q := by
  rw [view, view, ensureTwin_spaces h, ensureTwin_content h]

theorem ensureTwin_version (h : m.ensureTwin p = some m') :
    (m'.pages q).version = (m.pages q).version := by
  obtain ⟨i, hi⟩ := ensureTwin_pages h
  rw [hi]
  by_cases hq : q = p
  · subst hq; simp
  · simp [hq]

theorem ensureTwin_users (h : m.ensureTwin p = some m') :
    (m'.pages q).users = (m.pages q).users := by
  obtain ⟨i, hi⟩ := ensureTwin_pages h
  rw [hi]
  by_cases hq : q = p
  · subst hq; simp
  · simp [hq]

theorem ensureTwin_owner (h : m.ensureTwin p = some m') :
    (m'.pages q).owner = (m.pages q).owner := by
  obtain ⟨i, hi⟩ := ensureTwin_pages h
  rw [hi]
  by_cases hq : q = p
  · subst hq; simp
  · simp [hq]

@[simp] theorem finishEntry_pages (e : PageInfo) (r : Bool) :
    (m.finishEntry t k e r).pages = m.pages := rfl

@[simp] theorem finishEntry_bitmap (e : PageInfo) (r : Bool) :
    (m.finishEntry t k e r).bitmap = m.bitmap := rfl

@[simp] theorem finishEntry_priv (e : PageInfo) (r : Bool) :
    ((m.finishEntry t k e r).spaces u).priv = (m.spaces u).priv := by
  unfold finishEntry
  by_cases h : u = t
  · subst h; simp
  · simp [h]

theorem publish_content (v : BitVec 32) :
    ((m.publish t p v).pages q).content =
      if q = p then
        if sameVersion v (m.pages p).version then m.view t p
        else writePageDiffs (m.view t p) (m.bitmap.twin (m.setSharedPage t p |>.pages p).bitmapIndex)
          (m.pages p).content
      else (m.pages q).content := by
  unfold publish
  split
  · by_cases h : q = p
    · subst h; simp
    · simp [h]
  · by_cases h : q = p
    · subst h; simp
    · simp [h]

@[simp] theorem setSharedPage_bitmapIndex :
    ((m.setSharedPage t p).pages q).bitmapIndex = (m.pages q).bitmapIndex := by
  unfold setSharedPage
  split
  · by_cases h : q = p
    · subst h; simp
    · simp [h]
  · rfl

@[simp] theorem publish_priv (v : BitVec 32) :
    ((m.publish t p v).spaces u).priv = (m.spaces u).priv := by
  unfold publish
  split <;> simp

/-- What one turn of the commit loop can do: nothing but its bookkeeping for an updated
entry, publish the page, or leave the page to its owner. -/
theorem commitEntry_cases (h : m.commitEntry t k = some m') :
    ∃ d n, (m.spaces t).dirty[k]? = some d ∧ m.ensureTwin d.pageNo = some n ∧
      ((d.isUpdated = true ∧ m' = n.finishEntry t k d ((n.spaces t).release d.slot)) ∨
      (d.isUpdated = false ∧ ((n.pages d.pageNo).users ≠ 1 ∨ (n.pages d.pageNo).owner ≠ .thread t) ∧
        m' = ((n.publish t d.pageNo d.version).setPage d.pageNo
          (endCommit ((n.publish t d.pageNo d.version).pages d.pageNo))).finishEntry t k d true) ∨
      (d.isUpdated = false ∧ (n.pages d.pageNo).users = 1 ∧ (n.pages d.pageNo).owner = .thread t ∧
        m' = (n.setPage d.pageNo { n.pages d.pageNo with
          users := decUsers (n.pages d.pageNo).users }).finishEntry t k d false)) := by
  unfold commitEntry at h
  simp only [Option.bind_eq_bind, Option.bind_eq_some_iff] at h
  obtain ⟨d, hd, n, hn, h⟩ := h
  refine ⟨d, n, hd, hn, ?_⟩
  split at h
  · rename_i hu
    exact .inl ⟨hu, (Option.some.inj h).symm⟩
  · rename_i hu
    have hu : d.isUpdated = false := by simpa using hu
    split at h
    · rename_i hc
      exact .inr (.inl ⟨hu, hc, (Option.some.inj h).symm⟩)
    · rename_i hc
      push Not at hc
      exact .inr (.inr ⟨hu, hc.1, hc.2, (Option.some.inj h).symm⟩)

theorem commitEntry_priv (h : m.commitEntry t k = some m') :
    (m'.spaces u).priv = (m.spaces u).priv := by
  obtain ⟨d, n, -, hn, ⟨-, rfl⟩ | ⟨-, -, rfl⟩ | ⟨-, -, -, rfl⟩⟩ := commitEntry_cases h
  · rw [finishEntry_priv, ensureTwin_spaces hn]
  · rw [finishEntry_priv, setPage_spaces, publish_priv, ensureTwin_spaces hn]
  · rw [finishEntry_priv, setPage_spaces, ensureTwin_spaces hn]

/-- The commit of entry `d` by `t` publishes its page. -/
def publishes (m : Mem) (t : Tid) (d : PageInfo) : Prop :=
  d.isUpdated = false ∧ ((m.pages d.pageNo).users ≠ 1 ∨ (m.pages d.pageNo).owner ≠ .thread t)

instance (m : Mem) (t : Tid) (d : PageInfo) : Decidable (m.publishes t d) :=
  inferInstanceAs (Decidable (_ ∧ (_ ∨ _)))

theorem ensureTwin_publishes {d : PageInfo} (h : m.ensureTwin p = some m') :
    m'.publishes t d ↔ m.publishes t d := by
  rw [publishes, publishes, ensureTwin_users h, ensureTwin_owner h]

/-- The page a diff of `p` is taken against once `checkandcommit` made sure of a twin. -/
def diffBase (m : Mem) (p : ℕ) : Option Page :=
  (m.ensureTwin p).map fun m => m.bitmap.twin (m.pages p).bitmapIndex

/-- The content a turn of the commit loop leaves. -/
theorem commitEntry_content (h : m.commitEntry t k = some m') :
    ∃ d b, (m.spaces t).dirty[k]? = some d ∧ m.diffBase d.pageNo = some b ∧
      ∀ q, (m'.pages q).content =
        if q = d.pageNo ∧ m.publishes t d then
          if sameVersion d.version (m.pages q).version then m.view t q
          else writePageDiffs (m.view t q) b (m.pages q).content
        else (m.pages q).content := by
  obtain ⟨d, n, hd, hn, hc⟩ := commitEntry_cases h
  refine ⟨d, _, hd, by rw [diffBase, hn, Option.map_some], fun q => ?_⟩
  have hpub := ensureTwin_publishes (t := t) (d := d) hn
  obtain ⟨hu, rfl⟩ | ⟨hu, ho, rfl⟩ | ⟨-, hs, ho, rfl⟩ := hc
  · have hnot : ¬ m.publishes t d := fun hp => Bool.false_ne_true (hp.1.symm.trans hu)
    rw [if_neg (fun hp => hnot hp.2), finishEntry_pages, ensureTwin_content hn]
  · have hyes : m.publishes t d := hpub.mp ⟨hu, ho⟩
    rw [finishEntry_pages]
    by_cases hq : q = d.pageNo
    · subst hq
      rw [if_pos ⟨rfl, hyes⟩, setPage_pages_same, endCommit, publish_content, if_pos rfl,
        ensureTwin_version hn, ensureTwin_view hn, ensureTwin_content hn, setSharedPage_bitmapIndex]
    · rw [if_neg (fun hp => hq hp.1), setPage_pages_of_ne _ _ _ _ hq, publish_content, if_neg hq,
        ensureTwin_content hn]
  · have hnot : ¬ m.publishes t d := by
      intro hp
      rcases (hpub.mpr hp).2 with h1 | h1
      · exact h1 hs
      · exact h1 ho
    rw [if_neg (fun hp => hnot hp.2), finishEntry_pages]
    by_cases hq : q = d.pageNo
    · subst hq
      rw [setPage_pages_same, ensureTwin_content hn]
    · rw [setPage_pages_of_ne _ _ _ _ hq, ensureTwin_content hn]

/-! ## Transaction boundaries -/

@[simp] theorem updateAll_pages : (m.updateAll t).pages = m.pages := rfl

/-- The entry of the dirty list makes `begin` drop the copy of page `p`. -/
def released (m : Mem) (t : Tid) (p : ℕ) : Prop :=
  ∃ e ∈ (m.spaces t).dirty, e.pageNo = p ∧ e.isUpdated = false ∧ (m.spaces t).release e.slot = true

theorem updateAll_priv_of_ne (h : u ≠ t) : ((m.updateAll t).spaces u) = m.spaces u := by
  simp [updateAll, h]

theorem updateAll_priv_of_released (h : m.released t p) : ((m.updateAll t).spaces t).priv p = none := by
  obtain ⟨e, he, rfl, hu, hr⟩ := h
  simp only [updateAll, setSpace_spaces_same, ite_eq_left_iff, Bool.not_eq_true, List.any_eq_false]
  intro hn
  exact absurd (hn e he) (by simp [hu, hr])

theorem updateAll_priv_of_not_released (h : ¬ m.released t p) :
    ((m.updateAll t).spaces t).priv p = (m.spaces t).priv p := by
  simp only [updateAll, setSpace_spaces_same, ite_eq_right_iff, List.any_eq_true]
  rintro ⟨e, he, hc⟩
  simp only [decide_eq_true_eq, Bool.not_eq_true] at hc
  exact absurd ⟨e, he, hc.1, hc.2.1, hc.2.2⟩ h

end Dthreads.Memory.Mem
