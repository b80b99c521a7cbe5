import Dthreads.Memory.Content

/-! # Whole commits

The loops of `checkandcommit(false)` and `finalcommit`, and what one turn of each does to the
page it is about. -/

namespace Dthreads.Memory

/-! ## One turn, seen from its page -/

/-- `createTwinPage`, if the page has several users and no twin. -/
def SharedPage.ensureTwin (g : SharedPage) (b : Bitmap) : Option (SharedPage × Bitmap) :=
  if 1 < g.users ∧ g.bitmapIndex = 0 then
    b.get.map fun x => ({ g with bitmapIndex := x.1 % 65536 },
      (x.2.setTwin x.1 g.content).setVersion x.1 (g.version.setWidth 32))
  else some (g, b)

/-- The page after its publication from the copy `loc`. -/
def SharedPage.publish (g : SharedPage) (b : Bitmap) (loc : Page) (recorded : BitVec 32) :
    SharedPage :=
  if sameVersion recorded g.version then { g with content := loc }
  else { g with
    content := writePageDiffs loc (b.twin g.bitmapIndex) g.content
    owner := .shared }

/-- The page after the turn of the loop for entry `e` of process `t`. -/
def SharedPage.commit (g : SharedPage) (b : Bitmap) (t : Tid) (e : PageInfo) (loc : Page) :
    SharedPage :=
  if e.isUpdated then g
  else if g.users ≠ 1 ∨ g.owner ≠ .thread t then Mem.endCommit (g.publish b loc e.version)
  else { g with users := decUsers g.users }

theorem SharedPage.publish_owner (g : SharedPage) (b : Bitmap) (loc : Page) (r : BitVec 32) :
    (g.publish b loc r).owner = g.owner ∨ (g.publish b loc r).owner = .shared := by
  unfold SharedPage.publish
  split
  · exact .inl rfl
  · exact .inr rfl

/-- A commit gives a page to nobody. -/
theorem SharedPage.commit_owner (g : SharedPage) (b : Bitmap) (t : Tid) (e : PageInfo) (loc : Page) :
    (g.commit b t e loc).owner = g.owner ∨ (g.commit b t e loc).owner = .shared := by
  unfold SharedPage.commit
  split
  · exact .inl rfl
  · split
    · exact g.publish_owner b loc e.version
    · exact .inl rfl

theorem SharedPage.ensureTwin_owner {g g' : SharedPage} {b b' : Bitmap}
    (h : g.ensureTwin b = some (g', b')) : g'.owner = g.owner := by
  unfold SharedPage.ensureTwin at h
  split at h
  · rw [Option.map_eq_some_iff] at h
    obtain ⟨x, -, hx⟩ := h
    rw [← (Prod.mk.inj hx).1]
  · rw [← (Prod.mk.inj (Option.some.inj h)).1]

/-- A page with one user gets no twin. -/
theorem SharedPage.ensureTwin_of_sole {g : SharedPage} (b : Bitmap) (h : g.users = 1) :
    g.ensureTwin b = some (g, b) := by
  rw [SharedPage.ensureTwin, if_neg fun hc => by omega]

namespace Mem

variable {m m' n : Mem} {t u : Tid} {p q k : ℕ} {e : PageInfo}

theorem ensureTwin_eq : m.ensureTwin p =
    ((m.pages p).ensureTwin m.bitmap).map fun x => ({ m with bitmap := x.2 }).setPage p x.1 := by
  unfold ensureTwin SharedPage.ensureTwin createTwinPage
  split
  · rw [Option.map_map]
    rfl
  · simp only [Option.map_some]
    congr 1
    unfold setPage
    rw [Function.update_eq_self]

theorem setSharedPage_page :
    (m.setSharedPage t p).pages p = { m.pages p with owner := .shared } := by
  unfold setSharedPage
  split
  · rw [setSpace_pages, setPage_pages_same]
  · rename_i h
    rw [← not_not.mp h]

theorem setSharedPage_pages_of_ne (hq : q ≠ p) : (m.setSharedPage t p).pages q = m.pages q := by
  unfold setSharedPage
  split
  · rw [setSpace_pages, setPage_pages_of_ne _ _ _ _ hq]
  · rfl

theorem publish_pages (v : BitVec 32) : (m.publish t p v).pages q =
    if q = p then (m.pages p).publish m.bitmap (m.view t p) v else m.pages q := by
  unfold publish SharedPage.publish
  by_cases hq : q = p
  · subst hq
    split
    · rw [setPage_pages_same, if_pos rfl]
    · rw [setPage_pages_same, if_pos rfl, setSharedPage_view, setSharedPage_bitmap,
        setSharedPage_page]
  · rw [if_neg hq]
    split
    · rw [setPage_pages_of_ne _ _ _ _ hq]
    · rw [setPage_pages_of_ne _ _ _ _ hq, setSharedPage_pages_of_ne hq]

theorem publish_bitmap (v : BitVec 32) : (m.publish t p v).bitmap = m.bitmap := by
  unfold publish
  split <;> simp

/-- One turn of the commit loop touches the page of its entry and the twin storage. -/
theorem commitEntry_pages (h : m.commitEntry t k = some m') :
    ∃ e g b, (m.spaces t).dirty[k]? = some e ∧
      (m.pages e.pageNo).ensureTwin m.bitmap = some (g, b) ∧ m'.bitmap = b ∧
      ∀ q, m'.pages q = if q = e.pageNo then g.commit b t e (m.view t e.pageNo) else m.pages q := by
  obtain ⟨e, n, he, hn, hc⟩ := commitEntry_cases h
  have hview : n.view t e.pageNo = m.view t e.pageNo := ensureTwin_view hn
  rw [ensureTwin_eq, Option.map_eq_some_iff] at hn
  obtain ⟨⟨g, b⟩, hg, rfl⟩ := hn
  refine ⟨e, g, b, he, hg, ?_, fun q => ?_⟩
  · obtain ⟨-, rfl⟩ | ⟨-, -, rfl⟩ | ⟨-, -, -, rfl⟩ := hc
    · rfl
    · rw [finishEntry_bitmap, setPage_bitmap, publish_bitmap, setPage_bitmap]
    · rfl
  · dsimp only at hc hview
    simp only [setPage_pages_same] at hc
    unfold SharedPage.commit
    by_cases hq : q = e.pageNo
    · subst hq
      rw [if_pos rfl]
      obtain ⟨hu, rfl⟩ | ⟨hu, ho, rfl⟩ | ⟨hu, h1, ho, rfl⟩ := hc
      · rw [if_pos hu, finishEntry_pages, setPage_pages_same]
      · rw [hu, if_neg Bool.false_ne_true, if_pos ho, finishEntry_pages, setPage_pages_same,
          publish_pages, if_pos rfl, setPage_pages_same, setPage_bitmap, hview]
      · rw [hu, if_neg Bool.false_ne_true, if_neg (by simp [h1, ho]), finishEntry_pages,
          setPage_pages_same]
    · rw [if_neg hq]
      obtain ⟨-, rfl⟩ | ⟨-, -, rfl⟩ | ⟨-, -, -, rfl⟩ := hc
      · rw [finishEntry_pages, setPage_pages_of_ne _ _ _ _ hq]
      · rw [finishEntry_pages, setPage_pages_of_ne _ _ _ _ hq, publish_pages, if_neg hq,
          setPage_pages_of_ne _ _ _ _ hq]
      · rw [finishEntry_pages, setPage_pages_of_ne _ _ _ _ hq, setPage_pages_of_ne _ _ _ _ hq]

@[simp] theorem setSharedPage_ownedBlocks :
    ((m.setSharedPage u p).spaces t).ownedBlocks = (m.spaces t).ownedBlocks := by
  unfold setSharedPage
  split
  · by_cases h : t = u
    · subst h
      simp [Space.setAccess]
    · simp [h]
  · rfl

theorem publish_ownedBlocks (v : BitVec 32) :
    ((m.publish u p v).spaces t).ownedBlocks = (m.spaces t).ownedBlocks := by
  unfold publish
  split <;> simp

theorem finishEntry_ownedBlocks (r : Bool) :
    ((m.finishEntry u k e r).spaces t).ownedBlocks = (m.spaces t).ownedBlocks := by
  unfold finishEntry
  by_cases h : t = u
  · subst h
    simp
  · simp [h]

/-- A commit leaves the recorded blocks alone. -/
theorem commitEntry_ownedBlocks (h : m.commitEntry u k = some m') :
    (m'.spaces t).ownedBlocks = (m.spaces t).ownedBlocks := by
  obtain ⟨e, n, -, hn, hc⟩ := commitEntry_cases h
  obtain ⟨-, rfl⟩ | ⟨-, -, rfl⟩ | ⟨-, -, -, rfl⟩ := hc
  · rw [finishEntry_ownedBlocks, ensureTwin_spaces hn]
  · rw [finishEntry_ownedBlocks, setPage_spaces, publish_ownedBlocks, ensureTwin_spaces hn]
  · rw [finishEntry_ownedBlocks, setPage_spaces, ensureTwin_spaces hn]

/-- A turn fails only when there is no entry, or no room for a twin. -/
theorem commitEntry_isSome : (m.commitEntry t k).isSome = true ↔
    ∃ e ∈ (m.spaces t).dirty[k]?, ((m.pages e.pageNo).ensureTwin m.bitmap).isSome = true := by
  unfold commitEntry
  cases he : (m.spaces t).dirty[k]? with
  | none => simp
  | some e =>
      simp only [Option.bind_eq_bind, Option.bind_some, ensureTwin_eq, Option.mem_def,
        Option.some.injEq, exists_eq_left']
      cases (m.pages e.pageNo).ensureTwin m.bitmap with
      | none => simp
      | some x =>
          simp only [Option.map_some, Option.bind_some, Option.isSome_some, iff_true]
          split
          · rfl
          · split <;> rfl

/-! ## The loops -/

/-- The entries of the pages in a region, in the order of the dirty list. -/
def entriesOf (m : Mem) (t : Tid) (inRegion : ℕ → Bool) : List ℕ :=
  (List.range (m.spaces t).dirty.length).filter fun k =>
    (m.spaces t).dirty[k]?.any fun e => inRegion e.pageNo

/-- `checkandcommit(false)` on the entries of the list. -/
def checkandcommit (m : Mem) (t : Tid) (ks : List ℕ) : Option Mem :=
  ks.foldlM (fun m k => m.commitEntry t k) m

/-- `xmemory::commit(false)`: the heap, then the globals. -/
def commit (m : Mem) (t : Tid) (isHeap : ℕ → Bool) : Option Mem :=
  m.checkandcommit t (m.entriesOf t isHeap ++ m.entriesOf t fun p => !isHeap p)

/-- The pages of the owned blocks, in the order `finalcommit` visits them. -/
def blockPages (m : Mem) (t : Tid) : List ℕ :=
  (m.spaces t).ownedBlocks.flatMap fun b => List.range' b.1 (b.2 - b.1)

/-- `finalcommit(release)`. -/
def finalcommit (m : Mem) (t : Tid) (release : Bool) : Mem :=
  (m.blockPages t).foldl
    (fun m p => if (m.pages p).owner = .thread t then m.finalcommitPage t p release else m) m

theorem mem_blockPages :
    p ∈ m.blockPages t ↔ ∃ b ∈ (m.spaces t).ownedBlocks, b.1 ≤ p ∧ p < b.2 := by
  unfold blockPages
  simp only [List.mem_flatMap, List.mem_range'_1]
  refine exists_congr fun b => and_congr_right fun _ => and_congr_right fun h => ?_
  omega

/-- The two lists together name every entry once. -/
theorem nodup_entries (isHeap : ℕ → Bool) :
    (m.entriesOf t isHeap ++ m.entriesOf t fun p => !isHeap p).Nodup := by
  refine List.Nodup.append (List.nodup_range.filter _) (List.nodup_range.filter _) ?_
  intro k h1 h2
  have h1 := (List.mem_filter.mp h1).2
  have h2 := (List.mem_filter.mp h2).2
  cases he : (m.spaces t).dirty[k]? with
  | none => simp [he] at h1
  | some e => simp_all

end Mem

end Dthreads.Memory
