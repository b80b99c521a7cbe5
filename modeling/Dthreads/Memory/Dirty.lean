import Dthreads.Memory.Content

/-! # Dirty pages and page tables

What each action does to the dirty lists and to the tables of a page: its version, its users,
its twin index and its owner. -/

namespace Dthreads.Memory

/-! ## Lists with distinct keys -/

theorem mem_set_of_nodup_map {α κ : Type*} {f : α → κ} {l : List α} {k : ℕ} {a b x : α}
    (hn : (l.map f).Nodup) (hk : l[k]? = some a) (hf : f b = f a) :
    x ∈ l.set k b ↔ x = b ∨ (x ∈ l ∧ f x ≠ f a) := by
  induction l generalizing k with
  | nil => simp at hk
  | cons y l ih =>
      rw [List.map_cons, List.nodup_cons] at hn
      cases k with
      | zero =>
          obtain rfl : y = a := by simpa using hk
          have hl : x ∈ l → f x ≠ f y := fun hx he => hn.1 (he ▸ List.mem_map_of_mem hx)
          simp only [List.set_cons_zero, List.mem_cons]
          constructor
          · rintro (rfl | hx)
            · exact .inl rfl
            · exact .inr ⟨.inr hx, hl hx⟩
          · rintro (rfl | ⟨rfl | hx, hne⟩)
            · exact .inl rfl
            · exact absurd rfl hne
            · exact .inr hx
      | succ k =>
          have ha : f y ≠ f a := by
            intro he
            exact hn.1 (he ▸ List.mem_map_of_mem (List.mem_of_getElem? hk))
          simp only [List.set_cons_succ, List.mem_cons, ih hn.2 hk]
          constructor
          · rintro (rfl | rfl | ⟨hx, hne⟩)
            · exact .inr ⟨.inl rfl, ha⟩
            · exact .inl rfl
            · exact .inr ⟨.inr hx, hne⟩
          · rintro (rfl | ⟨rfl | hx, hne⟩)
            · exact .inr (.inl rfl)
            · exact .inl rfl
            · exact .inr (.inr ⟨hx, hne⟩)

theorem map_set_of_eq {α κ : Type*} {f : α → κ} {l : List α} {k : ℕ} {a b : α}
    (hk : l[k]? = some a) (hf : f b = f a) : (l.set k b).map f = l.map f := by
  have hm : (l.map f)[k]? = some (f a) := by rw [List.getElem?_map, hk, Option.map_some]
  rw [List.map_set, hf]
  exact List.ext_getElem? fun i => by
    rw [List.getElem?_set]
    split
    · rename_i hi
      subst hi
      split <;> simp_all
    · rfl

/-! ## Dirty lists -/

/-- The same dirty list over the same protections; pages may have become accessible. -/
structure Space.SameDirty (s s' : Space) : Prop where
  dirty : s'.dirty = s.dirty
  release : s'.release = s.release
  cur : s'.cur = s.cur
  prot : s'.prot = s.prot
  isProtected : s'.isProtected = s.isProtected
  access : ∀ q, s.access q ≠ .none → s'.access q ≠ .none
  written : ∀ q, s'.access q = .write → s.access q = .write

namespace Space.SameDirty

theorem refl (s : Space) : s.SameDirty s := ⟨rfl, rfl, rfl, rfl, rfl, fun _ h => h, fun _ h => h⟩

theorem trans {s s' s'' : Space} (h : s.SameDirty s') (h' : s'.SameDirty s'') :
    s.SameDirty s'' :=
  ⟨h'.dirty.trans h.dirty, h'.release.trans h.release, h'.cur.trans h.cur, h'.prot.trans h.prot,
    h'.isProtected.trans h.isProtected, fun q hq => h'.access q (h.access q hq),
    fun q hq => h.written q (h'.written q hq)⟩

theorem setAccess_read (s : Space) (p : ℕ) : s.SameDirty (s.setAccess p .read) := by
  refine ⟨rfl, rfl, rfl, rfl, rfl, fun q hq => ?_, fun q hq => ?_⟩
  · by_cases h : q = p
    · subst h; simp [Space.setAccess]
    · simpa [Space.setAccess, h] using hq
  · by_cases h : q = p
    · subst h; simp [Space.setAccess] at hq
    · simpa [Space.setAccess, h] using hq

end Space.SameDirty

namespace Mem

variable (m : Mem) (t u : Tid) (p : ℕ)

theorem setSharedPage_sameDirty : (m.spaces u).SameDirty ((m.setSharedPage t p).spaces u) := by
  unfold setSharedPage
  split
  · by_cases h : u = t
    · subst h
      rw [setSpace_spaces_same]
      exact .setAccess_read _ _
    · rw [setSpace_spaces_of_ne _ _ _ _ h]
      exact .refl _
  · exact .refl _

theorem commitOwnedPage_sameDirty (s : Bool) :
    (m.spaces u).SameDirty ((m.commitOwnedPage t p s).spaces u) := by
  cases s with
  | false => exact .refl _
  | true =>
      have hs := setSharedPage_sameDirty (m.setPage p { m.pages p with content := m.view t p }) t u p
      refine hs.trans ?_
      by_cases h : u = t
      · subst h
        simp only [commitOwnedPage, if_true, setPage_spaces, setSpace_spaces_same]
        exact ⟨rfl, rfl, rfl, rfl, rfl, fun _ h => h, fun _ h => h⟩
      · simp only [commitOwnedPage, if_true, setPage_spaces, setSpace_spaces_of_ne _ _ _ _ h]
        exact .refl _

theorem notifyOwnerToCommit_sameDirty :
    (m.spaces u).SameDirty ((m.notifyOwnerToCommit t p).spaces u) := by
  unfold notifyOwnerToCommit
  split
  · exact .refl _
  · exact setSharedPage_sameDirty m t u p
  · split
    · exact .refl _
    · exact setSharedPage_sameDirty m t u p

theorem signalHandler_sameDirty : (m.spaces u).SameDirty ((m.signalHandler t p).spaces u) :=
  commitOwnedPage_sameDirty
    { m with signals := Function.update m.signals t ((m.signals t).erase p) } t u p true

theorem finalcommitPage_sameDirty (r : Bool) :
    (m.spaces u).SameDirty ((m.finalcommitPage t p r).spaces u) := by
  cases r with
  | true => exact commitOwnedPage_sameDirty m t u p true
  | false =>
      exact (commitOwnedPage_sameDirty m t u p false).trans
        (setSharedPage_sameDirty (m.commitOwnedPage t p false) t u p)

theorem storeWord_sameDirty (i : Fin 512) (w : Word) :
    (m.spaces u).SameDirty ((m.storeWord t p i w).spaces u) := by
  unfold storeWord
  split
  · by_cases h : u = t
    · subst h
      rw [setSpace_spaces_same]
      exact ⟨rfl, rfl, rfl, rfl, rfl, fun _ h => h, fun _ h => h⟩
    · rw [setSpace_spaces_of_ne _ _ _ _ h]
      exact .refl _
  · exact .refl _

theorem storeBytes_sameDirty (val : Addr → Byte) (as : List Addr) :
    (m.spaces u).SameDirty ((m.storeBytes t val as).spaces u) := by
  induction as generalizing m with
  | nil => exact .refl _
  | cons a as ih => exact (storeWord_sameDirty _ _ _ _ _ _).trans (ih _)

theorem publish_sameDirty (v : BitVec 32) :
    (m.spaces u).SameDirty ((m.publish t p v).spaces u) := by
  unfold publish
  split
  · exact .refl _
  · exact setSharedPage_sameDirty m t u p

/-! ## Faults, commits and begins -/

end Mem

/-- A fault of `t` on page `p` added the entry `e`. -/
structure Space.Faulted (s s' : Space) (p : ℕ) (e : PageInfo) : Prop where
  pageNo : e.pageNo = p
  slot : e.slot = s.cur
  unprocessed : e.processed = false
  not_updated : e.isUpdated = false
  dirty : s'.dirty = insertDirty e s.dirty
  release : s'.release = s.release
  cur : s'.cur = s.cur + 1
  prot : s'.prot = Function.update s.prot p .readWrite
  isProtected : s'.isProtected = s.isProtected
  access : ∀ q, s.access q ≠ .none → s'.access q ≠ .none

/-- The commit loop handled the entry `d`, which it found at index `k`. -/
structure Space.Committed (s s' : Space) (k : ℕ) (d : PageInfo) (release : Bool) : Prop where
  getElem : s.dirty[k]? = some d
  dirty : s'.dirty = s.dirty.set k { d with processed := true }
  release : s'.release = Function.update s.release d.slot release
  cur : s'.cur = s.cur
  prot : s'.prot = s.prot
  isProtected : s'.isProtected = s.isProtected
  access : ∀ q, s.access q ≠ .none → s'.access q ≠ .none
  written : ∀ q, s'.access q = .write → s.access q = .write

namespace Mem

variable {m m' : Mem} {t u : Tid} {p q k : ℕ}

theorem addDirty_eq (h : m.addDirty t p = some m') :
    m' = (m.setPage p { m.pages p with users := (m.pages p).users + 1 }).setSpace t
      { m.spaces t with
        cur := (m.spaces t).cur + 1
        dirty := Space.insertDirty
          { pageNo := p, version := (m.pages p).version.setWidth 32, isUpdated := false
            slot := (m.spaces t).cur, processed := false } (m.spaces t).dirty } := by
  unfold addDirty at h
  dsimp only at h
  split at h
  · exact (Option.some.inj h).symm
  · cases h

theorem mprotectWrite_space :
    ((m.mprotectWrite t p).spaces t).prot = Function.update (m.spaces t).prot p .readWrite ∧
      (∀ q, (m.spaces t).access q ≠ .none → ((m.mprotectWrite t p).spaces t).access q ≠ .none) := by
  unfold mprotectWrite
  rw [setSpace_spaces_same]
  split
  · refine ⟨rfl, fun q hq => ?_⟩
    by_cases h : q = p
    · subst h; simp [Space.setAccess, Space.setProt]
    · simpa [Space.setAccess, Space.setProt, h] using hq
  · exact ⟨rfl, fun _ h => h⟩

theorem mprotectWrite_dirty : ((m.mprotectWrite t p).spaces t).dirty = (m.spaces t).dirty ∧
    ((m.mprotectWrite t p).spaces t).release = (m.spaces t).release ∧
    ((m.mprotectWrite t p).spaces t).cur = (m.spaces t).cur ∧
    ((m.mprotectWrite t p).spaces t).isProtected = (m.spaces t).isProtected := by
  unfold mprotectWrite
  rw [setSpace_spaces_same]
  split <;> exact ⟨rfl, rfl, rfl, rfl⟩

theorem handleWrite_space (h : m.handleWrite t p = some m') :
    ∃ e, (m.spaces t).Faulted (m'.spaces t) p e ∧
      e.version = (m'.pages p).version.setWidth 32 := by
  have hw := mprotectWrite_space (m := m) (t := t) (p := p)
  have hd := mprotectWrite_dirty (m := m) (t := t) (p := p)
  unfold handleWrite at h
  split at h
  · have hs := commitOwnedPage_sameDirty (m.mprotectWrite t p) t t p false
    rw [addDirty_eq h, setSpace_spaces_same]
    exact ⟨_, ⟨rfl, hs.cur.trans hd.2.2.1, rfl, rfl, by rw [hs.dirty, hd.1],
      hs.release.trans hd.2.1, by rw [hs.cur, hd.2.2.1], hs.prot.trans hw.1,
      hs.isProtected.trans hd.2.2.2, fun q hq => hs.access q (hw.2 q hq)⟩, by simp⟩
  · rw [addDirty_eq h, setSpace_spaces_same]
    exact ⟨_, ⟨rfl, hd.2.2.1, rfl, rfl, by rw [hd.1], hd.2.1, by rw [hd.2.2.1], hw.1, hd.2.2.2,
      hw.2⟩, by simp⟩

/-- A fault makes a page a written one only if its process owns it. -/
theorem handleWrite_written (h : m.handleWrite t p = some m')
    (hq : (m'.spaces t).access q = .write) :
    (m.spaces t).access q = .write ∨ (q = p ∧ (m.pages p).owner = .thread t) := by
  have hw : ((m.mprotectWrite t p).spaces t).access q = .write := by
    unfold handleWrite at h
    split at h
    · rw [addDirty_eq h, setSpace_spaces_same] at hq
      exact (commitOwnedPage_sameDirty (m.mprotectWrite t p) t t p false).written q hq
    · rw [addDirty_eq h, setSpace_spaces_same] at hq
      exact hq
  unfold mprotectWrite at hw
  rw [setSpace_spaces_same] at hw
  split at hw
  · rename_i ho
    by_cases hp : q = p
    · exact .inr ⟨hp, ho⟩
    · left
      simpa [Space.setAccess, Space.setProt, hp] using hw
  · exact .inl hw

theorem mprotectWrite_spaces_of_ne (hu : u ≠ t) :
    (m.mprotectWrite t p).spaces u = m.spaces u :=
  setSpace_spaces_of_ne _ _ _ _ hu

theorem handleWrite_spaces_of_ne (h : m.handleWrite t p = some m') (hu : u ≠ t) :
    m'.spaces u = m.spaces u := by
  unfold handleWrite at h
  split at h
  · rw [addDirty_eq h, setSpace_spaces_of_ne _ _ _ _ hu]
    exact mprotectWrite_spaces_of_ne hu
  · rw [addDirty_eq h, setSpace_spaces_of_ne _ _ _ _ hu]
    exact mprotectWrite_spaces_of_ne hu

theorem commitOwnedPage_bitmap (s : Bool) : (m.commitOwnedPage t p s).bitmap = m.bitmap := by
  unfold commitOwnedPage
  cases s <;> simp

theorem notifyOwnerToCommit_bitmap : (m.notifyOwnerToCommit t p).bitmap = m.bitmap := by
  unfold notifyOwnerToCommit
  split
  · rfl
  · simp
  · split
    · rfl
    · simp

theorem signalHandler_bitmap : (m.signalHandler t p).bitmap = m.bitmap :=
  commitOwnedPage_bitmap
    (m := { m with signals := Function.update m.signals t ((m.signals t).erase p) }) true

theorem finalcommitPage_bitmap (r : Bool) : (m.finalcommitPage t p r).bitmap = m.bitmap := by
  cases r with
  | true => exact commitOwnedPage_bitmap true
  | false => simp [finalcommitPage, commitOwnedPage_bitmap]

@[simp] theorem storeWord_bitmap (i : Fin 512) (w : Word) :
    (m.storeWord t p i w).bitmap = m.bitmap := by
  unfold storeWord
  split <;> rfl

theorem storeBytes_bitmap (val : Addr → Byte) (as : List Addr) :
    (m.storeBytes t val as).bitmap = m.bitmap := by
  induction as generalizing m with
  | nil => rfl
  | cons a as ih => exact (ih (m := m.storeByte t a (val a))).trans (storeWord_bitmap _ _)

theorem handleWrite_bitmap (h : m.handleWrite t p = some m') : m'.bitmap = m.bitmap := by
  unfold handleWrite at h
  split at h
  · rw [addDirty_eq h]
    exact commitOwnedPage_bitmap (m := m.mprotectWrite t p) (t := t) (p := p) false
  · rw [addDirty_eq h]
    rfl

theorem finishEntry_space (e : PageInfo) (r : Bool) (n : Mem)
    (hs : (m.spaces t).SameDirty (n.spaces t)) (hd : (m.spaces t).dirty[k]? = some e) :
    (m.spaces t).Committed ((n.finishEntry t k e r).spaces t) k e r := by
  unfold finishEntry
  rw [setSpace_spaces_same]
  exact ⟨hd, by rw [hs.dirty], by rw [hs.release], hs.cur, hs.prot, hs.isProtected,
    hs.access, hs.written⟩

/-- The commit loop sets the `release` flag of a published entry and clears that of a page
left to its owner. -/
theorem commitEntry_space (h : m.commitEntry t k = some m') :
    ∃ d, (m.spaces t).Committed (m'.spaces t) k d
      (if d.isUpdated then (m.spaces t).release d.slot else decide (m.publishes t d)) := by
  obtain ⟨d, n, hd, hn, hc⟩ := commitEntry_cases h
  have hpub := ensureTwin_publishes (t := t) (d := d) hn
  have hs : (m.spaces t).SameDirty (n.spaces t) := by
    rw [ensureTwin_spaces hn]
    exact .refl _
  refine ⟨d, ?_⟩
  obtain ⟨hu, rfl⟩ | ⟨hu, ho, rfl⟩ | ⟨hu, h1, ho, rfl⟩ := hc
  · rw [if_pos hu, ← hs.release]
    exact finishEntry_space d _ n hs hd
  · have hyes : m.publishes t d := hpub.mp ⟨hu, ho⟩
    rw [hu, if_neg Bool.false_ne_true, decide_eq_true hyes]
    refine finishEntry_space d true _ (hs.trans ?_) hd
    exact publish_sameDirty n t t d.pageNo d.version
  · have hnot : ¬ m.publishes t d := by
      intro hp
      rcases (hpub.mpr hp).2 with h' | h'
      · exact h' h1
      · exact h' ho
    rw [hu, if_neg Bool.false_ne_true, decide_eq_false hnot]
    exact finishEntry_space d false _ hs hd

theorem commitEntry_spaces_of_ne (h : m.commitEntry t k = some m') (hu : u ≠ t) :
    (m.spaces u).SameDirty (m'.spaces u) := by
  obtain ⟨d, n, -, hn, hc⟩ := commitEntry_cases h
  have hs : m.spaces u = n.spaces u := by rw [ensureTwin_spaces hn]
  obtain ⟨-, rfl⟩ | ⟨-, -, rfl⟩ | ⟨-, -, -, rfl⟩ := hc
  · rw [hs, finishEntry, setSpace_spaces_of_ne _ _ _ _ hu]
    exact .refl _
  · rw [hs, finishEntry, setSpace_spaces_of_ne _ _ _ _ hu]
    exact publish_sameDirty n t u d.pageNo d.version
  · rw [hs, finishEntry, setSpace_spaces_of_ne _ _ _ _ hu]
    exact .refl _

@[simp] theorem updateAll_dirty : ((m.updateAll t).spaces t).dirty = [] := by simp [updateAll]
@[simp] theorem updateAll_cur : ((m.updateAll t).spaces t).cur = 0 := by simp [updateAll]
@[simp] theorem updateAll_access : ((m.updateAll t).spaces u).access = (m.spaces u).access := by
  by_cases h : u = t
  · subst h; simp [updateAll]
  · simp [updateAll, h]
@[simp] theorem updateAll_isProtected :
    ((m.updateAll t).spaces u).isProtected = (m.spaces u).isProtected := by
  by_cases h : u = t
  · subst h; simp [updateAll]
  · simp [updateAll, h]

theorem updateAll_prot :
    ((m.updateAll t).spaces t).prot p =
      if ∃ e ∈ (m.spaces t).dirty, e.pageNo = p ∧ e.isUpdated = false then .read
      else (m.spaces t).prot p := by
  simp [updateAll]

end Mem

/-! ## Tidy dirty lists -/

/-- A dirty list is a set of writable pages, each in a slot of its own. -/
structure Space.Tidy (s : Space) : Prop where
  slot_nodup : (s.dirty.map (·.slot)).Nodup
  slot_lt : ∀ d ∈ s.dirty, d.slot < s.cur
  page_nodup : (s.dirty.map (·.pageNo)).Nodup
  writable : ∀ d ∈ s.dirty, s.prot d.pageNo = .readWrite
  accessible : ∀ d ∈ s.dirty, s.access d.pageNo ≠ .none
  not_updated : ∀ d ∈ s.dirty, d.isUpdated = false

namespace Space.Tidy

variable {s s' : Space} {p k : ℕ} {e d : PageInfo} {r : Bool}

theorem of_sameDirty (h : s.Tidy) (hs : s.SameDirty s') : s'.Tidy where
  slot_nodup := hs.dirty ▸ h.slot_nodup
  slot_lt := by rw [hs.dirty, hs.cur]; exact h.slot_lt
  page_nodup := hs.dirty ▸ h.page_nodup
  writable := by rw [hs.dirty, hs.prot]; exact h.writable
  accessible := by rw [hs.dirty]; exact fun d hd => hs.access _ (h.accessible d hd)
  not_updated := hs.dirty ▸ h.not_updated

/-- A fault happens on a page that is not listed. -/
theorem of_faulted (h : s.Tidy) (hf : s.Faulted s' p e) (hw : s.prot p ≠ .readWrite)
    (ha : s.access p ≠ .none) : s'.Tidy := by
  have hmem : ∀ d, d ∈ s'.dirty ↔ d = e ∨ d ∈ s.dirty := fun d => by
    rw [hf.dirty, mem_insertDirty]
  have hperm : s'.dirty.Perm (e :: s.dirty) := hf.dirty ▸ insertDirty_perm e s.dirty
  refine ⟨?_, fun d hd => ?_, ?_, fun d hd => ?_, fun d hd => ?_, fun d hd => ?_⟩
  · rw [(hperm.map _).nodup_iff, List.map_cons, List.nodup_cons]
    refine ⟨fun hm => ?_, h.slot_nodup⟩
    obtain ⟨d, hd, he⟩ := List.mem_map.mp hm
    have := h.slot_lt d hd
    rw [hf.slot] at he
    omega
  · rw [hf.cur]
    rcases (hmem d).mp hd with rfl | hd
    · rw [hf.slot]
      exact Nat.lt_succ_self _
    · exact (h.slot_lt d hd).trans (Nat.lt_succ_self _)
  · rw [(hperm.map _).nodup_iff, List.map_cons, List.nodup_cons]
    refine ⟨fun hm => ?_, h.page_nodup⟩
    obtain ⟨d, hd, he⟩ := List.mem_map.mp hm
    rw [hf.pageNo] at he
    exact hw (he ▸ h.writable d hd)
  · rw [hf.prot]
    by_cases hp : d.pageNo = p
    · rw [hp, Function.update_self]
    · rw [Function.update_of_ne hp]
      exact h.writable d (((hmem d).mp hd).resolve_left fun he => hp (he ▸ hf.pageNo))
  · rcases (hmem d).mp hd with rfl | hd
    · exact hf.access _ (hf.pageNo ▸ ha)
    · exact hf.access _ (h.accessible d hd)
  · rcases (hmem d).mp hd with rfl | hd
    · exact hf.not_updated
    · exact h.not_updated d hd

/-- Entries are told apart by their pages, so a commit changes no other entry. -/
theorem mem_committed (h : s.Tidy) (hc : s.Committed s' k d r) {x : PageInfo} :
    x ∈ s'.dirty ↔ x = { d with processed := true } ∨ (x ∈ s.dirty ∧ x.pageNo ≠ d.pageNo) := by
  rw [hc.dirty]
  exact mem_set_of_nodup_map h.page_nodup hc.getElem rfl

theorem of_committed (h : s.Tidy) (hc : s.Committed s' k d r) : s'.Tidy := by
  have hd : d ∈ s.dirty := List.mem_of_getElem? hc.getElem
  refine ⟨?_, fun x hx => ?_, ?_, fun x hx => ?_, fun x hx => ?_, fun x hx => ?_⟩
  · rw [hc.dirty, map_set_of_eq hc.getElem (by rfl)]
    exact h.slot_nodup
  · rw [hc.cur]
    rcases (h.mem_committed hc).mp hx with rfl | hx
    · exact h.slot_lt d hd
    · exact h.slot_lt x hx.1
  · rw [hc.dirty, map_set_of_eq hc.getElem (by rfl)]
    exact h.page_nodup
  · rw [hc.prot]
    rcases (h.mem_committed hc).mp hx with rfl | hx
    · exact h.writable d hd
    · exact h.writable x hx.1
  · rcases (h.mem_committed hc).mp hx with rfl | hx
    · exact hc.access _ (h.accessible d hd)
    · exact hc.access _ (h.accessible x hx.1)
  · rcases (h.mem_committed hc).mp hx with rfl | hx
    · exact h.not_updated d hd
    · exact h.not_updated x hx.1

theorem of_nil (h : s.dirty = []) : s.Tidy := by
  constructor <;> simp [h]

end Space.Tidy

namespace Mem

variable {m m' : Mem} {t u : Tid} {p q k : ℕ}

/-- Steps that keep dirty lists tidy: a superblock takes fresh pages, and protection is opened
outside a transaction. -/
def Orderly (m : Mem) : Act → Prop
  | .superblock t _ => ∀ d ∈ (m.spaces t).dirty, d.pageNo < m.position
  | .openProtection t => (m.spaces t).dirty = []
  | _ => True

theorem superblock_spaces_of_ne {n : ℕ} (hu : u ≠ t) :
    (m.superblock t n).spaces u = m.spaces u := by
  unfold superblock setOwnedPage
  dsimp only
  split
  · simp [hu]
  · rfl

theorem tidy_superblock {n : ℕ} (h : (m.spaces t).Tidy)
    (ho : ∀ d ∈ (m.spaces t).dirty, d.pageNo < m.position) :
    ((m.superblock t n).spaces t).Tidy := by
  unfold superblock setOwnedPage
  dsimp only
  split
  · simp only [Function.update_self]
    exact
      { slot_nodup := h.slot_nodup
        slot_lt := h.slot_lt
        page_nodup := h.page_nodup
        writable := fun d hd => by
          have hp := ho d hd
          simpa [show ¬ m.position ≤ d.pageNo by omega] using h.writable d hd
        accessible := fun d hd => by
          have hp := ho d hd
          simpa [show ¬ m.position ≤ d.pageNo by omega] using h.accessible d hd
        not_updated := h.not_updated }
  · exact h

theorem tidy_step {a : Act} (h : ∀ u, (m.spaces u).Tidy) (ho : m.Orderly a)
    (hs : m.step a = some m') : ∀ u, (m'.spaces u).Tidy := by
  intro u
  cases a with
  | load t a =>
      simp only [step, Option.ite_none_right_eq_some, Option.some.injEq] at hs
      obtain ⟨-, rfl⟩ := hs
      exact h u
  | store t as f =>
      simp only [step, Option.ite_none_right_eq_some, Option.some.injEq] at hs
      obtain ⟨-, rfl⟩ := hs
      exact (h u).of_sameDirty (storeBytes_sameDirty m t u _ as)
  | fault t p =>
      simp only [step, Option.ite_none_right_eq_some] at hs
      obtain ⟨⟨hw, ha⟩, hs⟩ := hs
      by_cases hu : u = t
      · subst hu
        obtain ⟨e, hf, -⟩ := handleWrite_space hs
        exact (h u).of_faulted hf hw ha
      · rw [handleWrite_spaces_of_ne hs hu]
        exact h u
  | notify t p =>
      simp only [step, Option.ite_none_right_eq_some, Option.some.injEq] at hs
      obtain ⟨-, rfl⟩ := hs
      exact (h u).of_sameDirty (notifyOwnerToCommit_sameDirty m t u p)
  | mprotectRead t p =>
      simp only [step, Option.ite_none_right_eq_some, Option.some.injEq] at hs
      obtain ⟨⟨ha, -⟩, rfl⟩ := hs
      by_cases hu : u = t
      · subst hu
        have hne : ∀ d ∈ (m.spaces u).dirty, d.pageNo ≠ p := by
          rintro d hd rfl
          exact absurd (ha.symm.trans ((h u).writable d hd)) (by decide)
        simp only [mprotectRead, setSpace_spaces_same]
        exact
          { slot_nodup := (h u).slot_nodup
            slot_lt := (h u).slot_lt
            page_nodup := (h u).page_nodup
            writable := fun d hd => by
              simpa [Space.setProt, Space.setAccess, hne d hd] using (h u).writable d hd
            accessible := fun d hd => by
              simpa [Space.setProt, Space.setAccess, hne d hd] using (h u).accessible d hd
            not_updated := (h u).not_updated }
      · rw [mprotectRead, setSpace_spaces_of_ne _ _ _ _ hu]
        exact h u
  | setWord t o w =>
      simp only [step, Option.ite_none_right_eq_some, Option.some.injEq] at hs
      obtain ⟨-, rfl⟩ := hs
      exact (h u).of_sameDirty (storeWord_sameDirty m t u _ _ _)
  | memWrite t o w =>
      obtain rfl := Option.some.inj hs
      exact h u
  | commitEntry t k =>
      by_cases hu : u = t
      · subst hu
        obtain ⟨d, hc⟩ := commitEntry_space hs
        exact (h u).of_committed hc
      · exact (h u).of_sameDirty (commitEntry_spaces_of_ne hs hu)
  | begin t =>
      obtain rfl := Option.some.inj hs
      by_cases hu : u = t
      · subst hu
        exact .of_nil updateAll_dirty
      · rw [updateAll_priv_of_ne hu]
        exact h u
  | finalcommit t p r =>
      simp only [step, Option.ite_none_right_eq_some, Option.some.injEq] at hs
      obtain ⟨-, rfl⟩ := hs
      exact (h u).of_sameDirty (finalcommitPage_sameDirty m t u p r)
  | superblock t n =>
      obtain rfl := Option.some.inj hs
      by_cases hu : u = t
      · subst hu
        exact tidy_superblock (h u) ho
      · rw [superblock_spaces_of_ne hu]
        exact h u
  | signal t p =>
      simp only [step, Option.ite_none_right_eq_some, Option.some.injEq] at hs
      obtain ⟨-, rfl⟩ := hs
      exact (h u).of_sameDirty (signalHandler_sameDirty m t u p)
  | cleanup =>
      obtain rfl := Option.some.inj hs
      exact h u
  | openProtection t =>
      obtain rfl := Option.some.inj hs
      by_cases hu : u = t
      · subst hu
        refine .of_nil ?_
        simp only [openProtection, Function.update_self]
        exact ho
      · simp only [openProtection, Function.update_of_ne hu]
        exact h u
  | closeProtection t =>
      obtain rfl := Option.some.inj hs
      by_cases hu : u = t
      · subst hu
        simp only [closeProtection, setSpace_spaces_same]
        exact { h u with writable := fun _ _ => rfl }
      · rw [closeProtection, setSpace_spaces_of_ne _ _ _ _ hu]
        exact h u
  | fork t child =>
      obtain rfl := Option.some.inj hs
      by_cases hu : u = child
      · subst hu
        simp only [fork, Function.update_self]
        exact { h t with }
      · simp only [fork, Function.update_of_ne hu]
        exact h u
  | exit t =>
      obtain rfl := Option.some.inj hs
      exact h u

end Mem

/-! ## Page tables -/

/-- The tables of a page: `_persistentVersions`, `_pageUsers` and `_pageOwner`. -/
structure Table where
  version : BitVec 64
  users : ℕ
  bitmapIndex : ℕ
  owner : Owner
  deriving DecidableEq

/-- The end of a commit: with the last user the twin goes. -/
def Table.endCommit (x : Table) : Table :=
  { x with
    version := x.version + 1
    users := decUsers x.users
    bitmapIndex := if x.users = 1 then 0 else x.bitmapIndex }

def SharedPage.table (g : SharedPage) : Table := ⟨g.version, g.users, g.bitmapIndex, g.owner⟩

@[simp] theorem SharedPage.table_mk (c : Page) (v : BitVec 64) (n i : ℕ) (o : Owner) :
    SharedPage.table ⟨c, v, n, i, o⟩ = ⟨v, n, i, o⟩ := rfl

namespace Mem

variable {m m' : Mem} {t u : Tid} {p q k : ℕ}

/-- The tables of page `p`. -/
def table (m : Mem) (p : ℕ) : Table := (m.pages p).table

@[simp] theorem table_version : (m.table p).version = (m.pages p).version := rfl
@[simp] theorem table_users : (m.table p).users = (m.pages p).users := rfl
@[simp] theorem table_bitmapIndex : (m.table p).bitmapIndex = (m.pages p).bitmapIndex := rfl
@[simp] theorem table_owner : (m.table p).owner = (m.pages p).owner := rfl

theorem setPage_table (g : SharedPage) :
    (m.setPage p g).table q = if q = p then g.table else m.table q := by
  unfold table
  split
  · rename_i h
    rw [h, setPage_pages_same]
  · rename_i h
    rw [setPage_pages_of_ne _ _ _ _ h]

@[simp] theorem setSpace_table (s : Space) : (m.setSpace t s).table q = m.table q := rfl

theorem setSharedPage_table :
    (m.setSharedPage t p).table q =
      if q = p then { m.table q with owner := .shared } else m.table q := by
  unfold setSharedPage
  split
  · rw [setSpace_table, setPage_table]
    split
    · rename_i h
      rw [h]
      rfl
    · rfl
  · rename_i ho
    have ho : (m.pages p).owner = .shared := not_not.mp ho
    split
    · rename_i h
      rw [h]
      unfold table SharedPage.table
      rw [ho]
    · rfl

theorem commitOwnedPage_table (s : Bool) :
    (m.commitOwnedPage t p s).table q =
      if q = p then
        { m.table q with
          version := (m.pages q).version + 1
          owner := if s then .shared else (m.pages q).owner }
      else m.table q := by
  unfold commitOwnedPage
  cases s with
  | false =>
      simp only [Bool.false_eq_true, if_false, setPage_table, setPage_pages_same]
      split
      · rename_i h
        subst h
        rfl
      · rfl
  | true =>
      simp only [if_true, setPage_table, setSpace_table, setSharedPage_table]
      split
      · rename_i h
        subst h
        have ht := setSharedPage_table (m := m.setPage q { m.pages q with content := m.view t q })
          (t := t) (p := q) (q := q)
        rw [if_pos rfl, setPage_table, if_pos rfl] at ht
        simp only [table, SharedPage.table, setSpace_pages, Table.mk.injEq] at ht ⊢
        obtain ⟨h1, h2, h3, h4⟩ := ht
        exact ⟨by rw [h1], h2, h3, h4⟩
      · rfl

theorem signalHandler_table (hq : q ≠ p) : (m.signalHandler t p).table q = m.table q := by
  rw [signalHandler, commitOwnedPage_table, if_neg hq]
  rfl

theorem finalcommitPage_table (r : Bool) (hq : q ≠ p) :
    (m.finalcommitPage t p r).table q = m.table q := by
  cases r with
  | true => exact (commitOwnedPage_table true).trans (if_neg hq)
  | false =>
      rw [finalcommitPage, if_neg Bool.false_ne_true, setSharedPage_table, if_neg hq,
        commitOwnedPage_table, if_neg hq]

/-- Nobody has to be notified of a shared page. -/
theorem notifyOwnerToCommit_table (hq : (m.pages q).owner = .shared) :
    (m.notifyOwnerToCommit t p).table q = m.table q := by
  unfold notifyOwnerToCommit
  by_cases hp : q = p
  · subst hp
    rw [hq]
  · split
    · rfl
    · rw [setSharedPage_table, if_neg hp]
    · split
      · rfl
      · rw [setSharedPage_table, if_neg hp]

theorem mprotectWrite_table : (m.mprotectWrite t p).table q = m.table q := rfl

theorem addDirty_table (h : m.addDirty t p = some m') :
    m'.table q = if q = p then { m.table q with users := (m.pages q).users + 1 } else m.table q := by
  rw [addDirty_eq h, setSpace_table, setPage_table]
  split
  · rename_i hq
    subst hq
    rfl
  · rfl

theorem handleWrite_table (h : m.handleWrite t p = some m') :
    m'.table q =
      if q = p then
        { m.table q with
          version := if (m.spaces t).access p = .write then (m.pages q).version + 1
            else (m.pages q).version
          users := (m.pages q).users + 1 }
      else m.table q := by
  unfold handleWrite at h
  split at h
  · rename_i ha
    rw [addDirty_table h, commitOwnedPage_table, mprotectWrite_table]
    split
    · rename_i hq
      subst hq
      have hc := commitOwnedPage_table (m := m.mprotectWrite t q) (t := t) (p := q) (q := q) false
      rw [if_pos rfl] at hc
      have hu : _ = (m.pages q).users := congrArg Table.users hc
      rw [table_users] at hu
      rw [hu]
      rfl
    · rfl
  · rename_i ha
    rw [addDirty_table h, mprotectWrite_table]
    simp only [if_neg (show ¬ (m.spaces t).access p = .write from ha), mprotectWrite_pages]
    rfl

theorem storeWord_table (i : Fin 512) (w : Word) : (m.storeWord t p i w).table q = m.table q := by
  unfold storeWord
  split
  · rfl
  · rw [setPage_table]
    split
    · rename_i h
      rw [h]
      rfl
    · rfl

theorem storeBytes_table (val : Addr → Byte) (as : List Addr) :
    (m.storeBytes t val as).table q = m.table q := by
  induction as generalizing m with
  | nil => rfl
  | cons a as ih => exact (ih (m := m.storeByte t a (val a))).trans (storeWord_table _ _)

theorem memWrite_table (o : SyncAddr) (w : Word) : (m.memWrite o w).table q = m.table q := by
  unfold memWrite
  rw [setPage_table]
  split
  · rename_i h
    rw [h]
    rfl
  · rfl

theorem ensureTwin_table (h : m.ensureTwin p = some m') :
    m'.table q =
      if q = p then { m.table q with
        bitmapIndex := if 1 < (m.pages p).users ∧ (m.pages p).bitmapIndex = 0
          then m.bitmap.cur % 65536 else (m.pages p).bitmapIndex }
      else m.table q := by
  unfold ensureTwin at h
  split at h
  · rename_i hc
    unfold table
    rw [createTwinPage_pages h]
    by_cases hq : q = p
    · subst hq
      rw [Function.update_self, if_pos rfl, if_pos hc]
      rfl
    · rw [Function.update_of_ne hq, if_neg hq]
  · rename_i hc
    obtain rfl := Option.some.inj h
    rw [if_neg hc]
    split
    · rename_i hq
      subst hq
      rfl
    · rfl

/-! ## Twins -/

theorem createTwinPage_bitmap (h : m.createTwinPage p = some m') :
    m'.bitmap = (({ m.bitmap with cur := m.bitmap.cur + 1 } : Bitmap).setTwin m.bitmap.cur
      (m.pages p).content).setVersion m.bitmap.cur ((m.pages p).version.setWidth 32) := by
  obtain ⟨-, rfl⟩ := createTwinPage_eq h
  rfl

/-- A new twin leaves a twin at another index alone, if its version slot misses it. -/
theorem createTwinPage_twin_of_ne (h : m.createTwinPage p = some m') {i : ℕ}
    (hi : i < m.bitmap.cur)
    (hs : Bitmap.versionSlot m.bitmap.cur + 4 ≤ Bitmap.getAddress i) :
    m'.bitmap.twin i = m.bitmap.twin i := by
  rw [createTwinPage_bitmap h, Bitmap.twin_setVersion _ _ hs, Bitmap.twin_setTwin_of_ne _ _ hi.ne]
  rfl

theorem ensureTwin_cur (h : m.ensureTwin p = some m') : m.bitmap.cur ≤ m'.bitmap.cur := by
  unfold ensureTwin at h
  split at h
  · rw [createTwinPage_bitmap h]
    exact Nat.le_succ _
  · exact (congrArg (·.bitmap.cur) (Option.some.inj h)).le

theorem publish_table (v : BitVec 32) :
    (m.publish t p v).table q =
      if q = p ∧ sameVersion v (m.pages p).version = false then { m.table q with owner := .shared }
      else m.table q := by
  unfold publish
  cases hv : sameVersion v (m.pages p).version with
  | true =>
      rw [if_pos rfl, if_neg (fun h => Bool.false_ne_true h.2.symm), setPage_table]
      split
      · rename_i hq
        rw [hq]
        rfl
      · rfl
  | false =>
      rw [if_neg Bool.false_ne_true, setPage_table]
      have hs := setSharedPage_table (m := m) (t := t) (p := p) (q := q)
      by_cases hq : q = p
      · subst hq
        rw [if_pos rfl] at hs
        rw [if_pos rfl, if_pos ⟨rfl, rfl⟩, ← hs]
        rfl
      · rw [if_neg hq, if_neg (fun h => hq h.1), hs, if_neg hq]

/-- A published entry ends one use of its page and makes a new version; an entry left to the
owner ends one use. -/
theorem commitEntry_table (h : m.commitEntry t k = some m') :
    ∃ d n, (m.spaces t).dirty[k]? = some d ∧ m.ensureTwin d.pageNo = some n ∧
      m'.bitmap = n.bitmap ∧ ∀ q, m'.table q =
        if q ≠ d.pageNo ∨ d.isUpdated = true then n.table q
        else if m.publishes t d then ((n.publish t d.pageNo d.version).table q).endCommit
        else { n.table q with users := decUsers (n.pages q).users } := by
  obtain ⟨d, n, hd, hn, hc⟩ := commitEntry_cases h
  have hpub := ensureTwin_publishes (t := t) (d := d) hn
  refine ⟨d, n, hd, hn, ?_⟩
  obtain ⟨hu, rfl⟩ | ⟨hu, ho, rfl⟩ | ⟨hu, h1, ho, rfl⟩ := hc
  · refine ⟨rfl, fun q => ?_⟩
    rw [if_pos (.inr hu)]
    rfl
  · refine ⟨?_, fun q => ?_⟩
    · unfold publish
      split <;> simp
    · change ((n.publish t d.pageNo d.version).setPage d.pageNo _).table q = _
      rw [setPage_table, hu]
      by_cases hq : q = d.pageNo
      · rw [if_pos hq, if_neg (by simp [hq]), if_pos (hpub.mp ⟨hu, ho⟩), hq]
        rfl
      · rw [if_neg hq, if_pos (.inl hq), publish_table, if_neg (fun h => hq h.1)]
  · have hnot : ¬ m.publishes t d := by
      intro hp
      rcases (hpub.mpr hp).2 with h' | h'
      · exact h' h1
      · exact h' ho
    refine ⟨rfl, fun q => ?_⟩
    change (n.setPage d.pageNo _).table q = _
    rw [setPage_table, hu, if_neg hnot]
    by_cases hq : q = d.pageNo
    · rw [if_pos hq, if_neg (by simp [hq]), hq]
      rfl
    · rw [if_neg hq, if_pos (.inl hq)]

end Mem

end Dthreads.Memory
