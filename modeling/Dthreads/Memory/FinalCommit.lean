import Dthreads.Memory.Commit
import Dthreads.Memory.Dirty
import Dthreads.Transition.Run

/-! # The two orders of the final commit

A thread that exits publishes the pages it owns and then commits its dirty list; `join` and
`spawn` commit first and publish afterwards. -/

namespace Dthreads.Memory.Mem

variable {m m' : Mem} {t : Tid} {p q k : ℕ} {e : PageInfo}

/-! ## Publishing the owned pages -/

/-- The page after its owner published the copy `loc`. -/
def published (g : SharedPage) (loc : Page) : SharedPage :=
  { g with content := loc, version := g.version + 1, owner := .shared }

theorem finalcommitPage_pages (r : Bool) : (m.finalcommitPage t p r).pages q =
    if q = p then published (m.pages p) (m.view t p) else m.pages q := by
  unfold finalcommitPage commitOwnedPage published
  by_cases hq : q = p
  · subst hq
    cases r <;> simp [setSharedPage_page]
  · cases r <;> simp [hq, setSharedPage_pages_of_ne]

theorem finalcommitPage_view (r : Bool) : (m.finalcommitPage t p r).view t q = m.view t q := by
  rw [view, finalcommitPage_priv, finalcommitPage_content]
  by_cases hq : q = p
  · subst hq
    cases r with
    | true => simp
    | false => cases hp : (m.spaces t).priv q <;> simp [view, hp]
  · simp [hq, view]

/-- What the loop of `finalcommit` leaves: the owned pages it visits are published, and nothing
else changes but the copies of these pages. -/
theorem finalcommit_loop (r : Bool) (ps : List ℕ) (m : Mem) :
    let m' := ps.foldl
      (fun m p => if (m.pages p).owner = .thread t then m.finalcommitPage t p r else m) m
    (∀ q, m'.pages q = if (m.pages q).owner = .thread t ∧ q ∈ ps then
      published (m.pages q) (m.view t q) else m.pages q) ∧
    m'.bitmap = m.bitmap ∧ (∀ q, m'.view t q = m.view t q) ∧
    (m.spaces t).SameDirty (m'.spaces t) ∧
    ∀ q, (m.pages q).owner ≠ .thread t → (m'.spaces t).priv q = (m.spaces t).priv q := by
  induction ps generalizing m with
  | nil => exact ⟨fun q => by simp, rfl, fun _ => rfl, .refl _, fun _ _ => rfl⟩
  | cons p ps ih =>
      rw [List.foldl_cons]
      split
      · rename_i ho
        obtain ⟨h1, h2, h3, h4, h5⟩ := ih (m.finalcommitPage t p r)
        refine ⟨fun q => ?_, h2.trans (finalcommitPage_bitmap r),
          fun q => (h3 q).trans (finalcommitPage_view r),
          (finalcommitPage_sameDirty m t t p r).trans h4, fun q hq => ?_⟩
        · rw [h1 q, finalcommitPage_pages, finalcommitPage_view]
          by_cases hq : q = p
          · subst hq
            simp [published, ho]
          · simp [hq]
        · have hne : q ≠ p := by
            rintro rfl
            exact hq ho
          rw [h5 q (by rwa [finalcommitPage_pages, if_neg hne]), finalcommitPage_priv,
            if_neg fun h => hne h.2.2]
      · rename_i ho
        obtain ⟨h1, h2, h3, h4, h5⟩ := ih m
        refine ⟨fun q => ?_, h2, h3, h4, h5⟩
        rw [h1 q]
        by_cases hq : q = p
        · subst hq
          simp [ho]
        · simp [hq]

/-! ## The commits after and before it -/

/-- Memories `a` and `b` run the same commit loop, with the entries `ks` left, the one after and the
other before the pages that `t` owned in `m` are published. -/
structure InStep (m : Mem) (t : Tid) (ks : List ℕ) (a b : Mem) : Prop where
  nodup : ks.Nodup
  bitmap : a.bitmap = b.bitmap
  blocks : (b.spaces t).ownedBlocks = (m.spaces t).ownedBlocks
  dirty : (a.spaces t).dirty = (b.spaces t).dirty
  distinct : ((a.spaces t).dirty.map (·.pageNo)).Nodup
  same : ∀ p, (m.pages p).owner ≠ .thread t → a.pages p = b.pages p ∧
    (a.pages p).owner ≠ .thread t ∧ (a.spaces t).priv p = (b.spaces t).priv p
  owned : ∀ p, (m.pages p).owner = .thread t → (a.pages p).content = m.view t p ∧
    (a.pages p).owner = .shared ∧ (b.pages p).owner = .thread t ∧
    a.view t p = m.view t p ∧ b.view t p = m.view t p
  sole : ∀ k ∈ ks, ∀ e ∈ (a.spaces t).dirty[k]?, (m.pages e.pageNo).owner = .thread t →
    (a.pages e.pageNo).users = 1 ∧ (b.pages e.pageNo).users = 1

namespace InStep

variable {a b a' b' : Mem} {ks : List ℕ}

theorem isSome_iff (h : InStep m t (k :: ks) a b) :
    (a.commitEntry t k).isSome = true ↔ (b.commitEntry t k).isSome = true := by
  rw [commitEntry_isSome, commitEntry_isSome, h.dirty]
  refine exists_congr fun e => and_congr_right fun he => ?_
  by_cases ho : (m.pages e.pageNo).owner = .thread t
  · obtain ⟨ha, hb⟩ := h.sole k (by simp) e (h.dirty ▸ he) ho
    simp [SharedPage.ensureTwin_of_sole _ ha, SharedPage.ensureTwin_of_sole _ hb]
  · rw [(h.same _ ho).1, h.bitmap]

/-- After its publication a page is committed without effect on its content, whatever version was
recorded and whatever the twin slot holds. -/
theorem commit_published {g : SharedPage} (bm : Bitmap) {loc : Page} (hc : g.content = loc)
    (ho : g.owner = .shared) :
    (g.commit bm t e loc).content = loc ∧ (g.commit bm t e loc).owner = .shared := by
  have hpub : (g.publish bm loc e.version).content = loc ∧
      (g.publish bm loc e.version).owner = .shared := by
    unfold SharedPage.publish
    split
    · exact ⟨rfl, ho⟩
    · exact ⟨by rw [hc, writePageDiffs_same], rfl⟩
  unfold SharedPage.commit
  split
  · exact ⟨hc, ho⟩
  · rw [if_pos (.inr (by rw [ho]; exact nofun))]
    exact hpub

/-- Before it, the commit leaves the page to its owner. -/
theorem commit_own {g : SharedPage} (bm : Bitmap) (loc : Page) (hu : g.users = 1)
    (ho : g.owner = .thread t) :
    (g.commit bm t e loc).content = g.content ∧ (g.commit bm t e loc).owner = .thread t := by
  unfold SharedPage.commit
  split
  · exact ⟨rfl, ho⟩
  · rw [if_neg (by simp [hu, ho])]
    exact ⟨rfl, ho⟩

/-- The entry becomes a handled one in both lists. -/
theorem commitEntry_dirty {n n' : Mem} (hn : n.commitEntry t k = some n')
    (he : (n.spaces t).dirty[k]? = some e) :
    (n'.spaces t).dirty = (n.spaces t).dirty.set k { e with processed := true } := by
  obtain ⟨d, hc⟩ := commitEntry_space hn
  obtain rfl : e = d := Option.some.inj (he.symm.trans hc.getElem)
  exact hc.dirty

/-- Another entry is about another page. -/
theorem other_page (h : InStep m t (k :: ks) a b) (he : (a.spaces t).dirty[k]? = some e) {j : ℕ}
    (hj : j ∈ ks) {d : PageInfo}
    (hd : d ∈ ((a.spaces t).dirty.set k { e with processed := true })[j]?) :
    d ∈ (a.spaces t).dirty[j]? ∧ d.pageNo ≠ e.pageNo := by
  have hne : k ≠ j := by
    rintro rfl
    exact (List.nodup_cons.mp h.nodup).1 hj
  rw [List.getElem?_set_ne hne] at hd
  refine ⟨hd, fun hp => hne ?_⟩
  have hk : ((a.spaces t).dirty.map (·.pageNo))[k]? = some e.pageNo := by
    rw [List.getElem?_map, he]
    rfl
  have hj : ((a.spaces t).dirty.map (·.pageNo))[j]? = some e.pageNo := by
    rw [List.getElem?_map, Option.mem_def.mp hd, ← hp]
    rfl
  obtain ⟨hlt, -⟩ := List.getElem?_eq_some_iff.mp hk
  exact (List.getElem?_inj hlt h.distinct).mp (hk.trans hj.symm)

theorem view_of_eq {n n' : Mem} (hp : (n'.spaces t).priv q = (n.spaces t).priv q)
    (hc : (n'.pages q).content = (n.pages q).content) : n'.view t q = n.view t q := by
  rw [view, view, hp, hc]

/-- A page whose content becomes what its process sees. -/
theorem view_of_content {n n' : Mem} {c : Page} (hp : (n'.spaces t).priv q = (n.spaces t).priv q)
    (hv : n.view t q = c) (hc : (n'.pages q).content = c) : n'.view t q = c := by
  cases hn : (n.spaces t).priv q with
  | none => rw [view_of_none (hp.trans hn), hc]
  | some x => rw [view_of_some (hp.trans hn), ← hv, view_of_some hn]

/-- What a turn of both loops does to the lists, whatever the page is. -/
theorem lists (h : InStep m t (k :: ks) a b) (ha : a.commitEntry t k = some a')
    (hb : b.commitEntry t k = some b') (he : (a.spaces t).dirty[k]? = some e) :
    (a'.spaces t).dirty = (a.spaces t).dirty.set k { e with processed := true } ∧
    (a'.spaces t).dirty = (b'.spaces t).dirty ∧
    ((a'.spaces t).dirty.map (·.pageNo)).Nodup := by
  have hda := commitEntry_dirty ha he
  have hdb := commitEntry_dirty hb (h.dirty ▸ he)
  have hmap : ((a.spaces t).dirty.set k { e with processed := true }).map (·.pageNo) =
      (a.spaces t).dirty.map (·.pageNo) := map_set_of_eq he rfl
  refine ⟨hda, by rw [hda, hdb, h.dirty], ?_⟩
  rw [hda, hmap]
  exact h.distinct

/-- The pages of the entries that are left are not touched. -/
theorem sole_left (h : InStep m t (k :: ks) a b) (he : (a.spaces t).dirty[k]? = some e)
    (hd : (a'.spaces t).dirty = (a.spaces t).dirty.set k { e with processed := true })
    (hpa : ∀ q ≠ e.pageNo, a'.pages q = a.pages q) (hpb : ∀ q ≠ e.pageNo, b'.pages q = b.pages q) :
    ∀ j ∈ ks, ∀ d ∈ (a'.spaces t).dirty[j]?, (m.pages d.pageNo).owner = .thread t →
      (a'.pages d.pageNo).users = 1 ∧ (b'.pages d.pageNo).users = 1 := by
  intro j hj d hmem ho
  rw [hd] at hmem
  obtain ⟨hmem, hne⟩ := h.other_page he hj hmem
  rw [hpa _ hne, hpb _ hne]
  exact h.sole j (List.mem_cons_of_mem k hj) d hmem ho

/-- A turn about a page that `t` owned. -/
theorem step_owned (h : InStep m t (k :: ks) a b) (ha : a.commitEntry t k = some a')
    (hb : b.commitEntry t k = some b') (he : (a.spaces t).dirty[k]? = some e)
    (ho : (m.pages e.pageNo).owner = .thread t) : InStep m t ks a' b' := by
  obtain ⟨d, g, bm, hd, hg, hbm, hpa⟩ := commitEntry_pages ha
  obtain rfl : e = d := Option.some.inj (he.symm.trans hd)
  obtain ⟨d, g', bm', hd, hg', hbm', hpb⟩ := commitEntry_pages hb
  obtain rfl : e = d := Option.some.inj (he.symm.trans (h.dirty ▸ hd))
  obtain ⟨hda, hdirty, hdistinct⟩ := h.lists ha hb he
  have hpriva : ∀ q, (a'.spaces t).priv q = (a.spaces t).priv q := fun q => by
    rw [commitEntry_priv ha]
  have hprivb : ∀ q, (b'.spaces t).priv q = (b.spaces t).priv q := fun q => by
    rw [commitEntry_priv hb]
  obtain ⟨hua, hub⟩ := h.sole k List.mem_cons_self e he ho
  obtain ⟨hca, hoa, hob, hva, hvb⟩ := h.owned _ ho
  rw [SharedPage.ensureTwin_of_sole _ hua] at hg
  rw [SharedPage.ensureTwin_of_sole _ hub] at hg'
  obtain ⟨rfl, rfl⟩ := Prod.mk.inj (Option.some.inj hg)
  obtain ⟨rfl, rfl⟩ := Prod.mk.inj (Option.some.inj hg')
  obtain ⟨hca', hoa'⟩ := commit_published (t := t) (e := e) a.bitmap (hca.trans hva.symm) hoa
  obtain ⟨hcb', hob'⟩ := commit_own (e := e) b.bitmap (b.view t e.pageNo) hub hob
  have hne : ∀ q, (m.pages q).owner ≠ .thread t → q ≠ e.pageNo := fun q hq hqe => hq (hqe ▸ ho)
  refine ⟨(List.nodup_cons.mp h.nodup).2, by rw [hbm, hbm', h.bitmap],
    (commitEntry_ownedBlocks hb).trans h.blocks, hdirty, hdistinct,
    fun q hq => ?_, fun q hq => ?_, h.sole_left he hda (fun q hq => by rw [hpa, if_neg hq])
      fun q hq => by rw [hpb, if_neg hq]⟩
  · rw [hpa, hpb, if_neg (hne q hq), if_neg (hne q hq), hpriva, hprivb]
    exact h.same q hq
  · by_cases hqe : q = e.pageNo
    · subst hqe
      have hc : (a'.pages e.pageNo).content = m.view t e.pageNo := by
        rw [hpa, if_pos rfl, hca', hva]
      refine ⟨hc, by rw [hpa, if_pos rfl, hoa'], by rw [hpb, if_pos rfl, hob'],
        view_of_content (hpriva _) hva hc, ?_⟩
      rw [view_of_eq (hprivb _) (by rw [hpb, if_pos rfl, hcb']), hvb]
    · obtain ⟨h1, h2, h3, h4, h5⟩ := h.owned q hq
      rw [hpa, hpb, if_neg hqe, if_neg hqe]
      refine ⟨h1, h2, h3, ?_, ?_⟩
      · rw [view_of_eq (hpriva q) (by rw [hpa, if_neg hqe]), h4]
      · rw [view_of_eq (hprivb q) (by rw [hpb, if_neg hqe]), h5]

/-- A turn about a page that was not its own: both memories do the same. -/
theorem step_other (h : InStep m t (k :: ks) a b) (ha : a.commitEntry t k = some a')
    (hb : b.commitEntry t k = some b') (he : (a.spaces t).dirty[k]? = some e)
    (ho : (m.pages e.pageNo).owner ≠ .thread t) : InStep m t ks a' b' := by
  obtain ⟨d, g, bm, hd, hg, hbm, hpa⟩ := commitEntry_pages ha
  obtain rfl : e = d := Option.some.inj (he.symm.trans hd)
  obtain ⟨d, g', bm', hd, hg', hbm', hpb⟩ := commitEntry_pages hb
  obtain rfl : e = d := Option.some.inj (he.symm.trans (h.dirty ▸ hd))
  obtain ⟨hda, hdirty, hdistinct⟩ := h.lists ha hb he
  have hpriva : ∀ q, (a'.spaces t).priv q = (a.spaces t).priv q := fun q => by
    rw [commitEntry_priv ha]
  have hprivb : ∀ q, (b'.spaces t).priv q = (b.spaces t).priv q := fun q => by
    rw [commitEntry_priv hb]
  obtain ⟨hpage, howner, hpriv⟩ := h.same _ ho
  rw [← hpage, ← h.bitmap, hg] at hg'
  obtain ⟨rfl, rfl⟩ := Prod.mk.inj (Option.some.inj hg')
  have hview : a.view t e.pageNo = b.view t e.pageNo := by rw [view, view, hpriv, hpage]
  have hne : ∀ q, (m.pages q).owner = .thread t → q ≠ e.pageNo := fun q hq hqe => ho (hqe ▸ hq)
  refine ⟨(List.nodup_cons.mp h.nodup).2, by rw [hbm, hbm'],
    (commitEntry_ownedBlocks hb).trans h.blocks, hdirty, hdistinct,
    fun q hq => ?_, fun q hq => ?_, h.sole_left he hda (fun q hq => by rw [hpa, if_neg hq])
      fun q hq => by rw [hpb, if_neg hq]⟩
  · obtain ⟨h1, h2, h3⟩ := h.same q hq
    refine ⟨by rw [hpa, hpb, hview, h1], ?_, by rw [hpriva, hprivb, h3]⟩
    rw [hpa]
    split
    · rcases g.commit_owner bm t e (a.view t e.pageNo) with hc | hc
      · rw [hc, SharedPage.ensureTwin_owner hg]
        exact howner
      · rw [hc]
        rintro ⟨⟩
    · exact h2
  · obtain ⟨h1, h2, h3, h4, h5⟩ := h.owned q hq
    rw [hpa, hpb, if_neg (hne q hq), if_neg (hne q hq)]
    refine ⟨h1, h2, h3, ?_, ?_⟩
    · rw [view_of_eq (hpriva q) (by rw [hpa, if_neg (hne q hq)]), h4]
    · rw [view_of_eq (hprivb q) (by rw [hpb, if_neg (hne q hq)]), h5]

/-- A turn of both loops fails in both, or keeps them in step. -/
theorem turn (h : InStep m t (k :: ks) a b) :
    (a.commitEntry t k = none ∧ b.commitEntry t k = none) ∨
      ∃ a' b', a.commitEntry t k = some a' ∧ b.commitEntry t k = some b' ∧ InStep m t ks a' b' := by
  have hsome := h.isSome_iff
  cases ha : a.commitEntry t k with
  | none =>
      rw [ha, Option.isSome_none] at hsome
      refine .inl ⟨rfl, ?_⟩
      cases hb : b.commitEntry t k with
      | none => rfl
      | some b' => simp [hb] at hsome
  | some a' =>
      rw [ha, Option.isSome_some] at hsome
      obtain ⟨b', hb⟩ := Option.isSome_iff_exists.mp (hsome.mp rfl)
      obtain ⟨e, g, bm, he, -⟩ := commitEntry_pages ha
      refine .inr ⟨a', b', rfl, hb, ?_⟩
      by_cases ho : (m.pages e.pageNo).owner = .thread t
      · exact h.step_owned ha hb he ho
      · exact h.step_other ha hb he ho

end InStep

/-! ## Both orders -/

/-- The owned pages of `t` lie in its recorded blocks and have no other user, and its dirty list
has one entry for a page. -/
structure SoleOwner (m : Mem) (t : Tid) : Prop where
  recorded : ∀ p, (m.pages p).owner = .thread t → p ∈ m.blockPages t
  sole : ∀ e ∈ (m.spaces t).dirty, (m.pages e.pageNo).owner = .thread t →
    (m.pages e.pageNo).users = 1
  distinct : ((m.spaces t).dirty.map (·.pageNo)).Nodup

/-- `threadDeregister`: publish the owned pages, then commit. -/
def publishFirst (m : Mem) (t : Tid) (isHeap : ℕ → Bool) : Option Mem :=
  (m.finalcommit t false).commit t isHeap

/-- `join` and `spawn`: commit, then publish what is still owned. -/
def commitFirst (m : Mem) (t : Tid) (isHeap : ℕ → Bool) : Option Mem :=
  (m.commit t isHeap).map (·.finalcommit t true)

theorem finalcommit_pages (r : Bool) (h : ∀ p, (m.pages p).owner = .thread t → p ∈ m.blockPages t) :
    (m.finalcommit t r).pages q = if (m.pages q).owner = .thread t then
      published (m.pages q) (m.view t q) else m.pages q := by
  rw [finalcommit, (finalcommit_loop r (m.blockPages t) m).1]
  refine if_congr ⟨fun hq => hq.1, fun hq => ⟨hq, h q hq⟩⟩ rfl rfl

/-- The two orders start in step. -/
theorem SoleOwner.inStep (h : m.SoleOwner t) {ks : List ℕ} (hk : ks.Nodup) :
    InStep m t ks (m.finalcommit t false) m := by
  obtain ⟨-, hbm, hview, hs, hpriv⟩ := finalcommit_loop (t := t) false (m.blockPages t) m
  have hpages := fun q => finalcommit_pages (q := q) false h.recorded
  refine ⟨hk, hbm, rfl, hs.dirty, hs.dirty ▸ h.distinct, fun p hp => ?_, fun p hp => ?_,
    fun k _ e he ho => ?_⟩
  · rw [hpages, if_neg hp]
    exact ⟨rfl, hp, hpriv p hp⟩
  · rw [hpages, if_pos hp]
    exact ⟨rfl, rfl, hp, hview p, rfl⟩
  · have hu := h.sole e (hs.dirty ▸ List.mem_of_getElem? he) ho
    rw [hpages, if_pos ho]
    exact ⟨hu, hu⟩

/-- Publishing the owned pages before or after the commit: both orders fail together, or they leave
the same shared pages, the pages that `t` owned hold what it saw, and it owns none. -/
theorem publishFirst_commitFirst (isHeap : ℕ → Bool) (h : m.SoleOwner t) :
    (m.publishFirst t isHeap = none ∧ m.commitFirst t isHeap = none) ∨
    ∃ a b, m.publishFirst t isHeap = some a ∧ m.commitFirst t isHeap = some b ∧
      (∀ p, (a.pages p).content = (b.pages p).content) ∧
      (∀ p, (m.pages p).owner = .thread t →
        (a.pages p).content = m.view t p ∧ (b.pages p).content = m.view t p) ∧
      ∀ p, (a.pages p).owner ≠ .thread t ∧ (b.pages p).owner ≠ .thread t := by
  have hdirty : ((m.finalcommit t false).spaces t).dirty = (m.spaces t).dirty :=
    (h.inStep List.nodup_nil).dirty
  have hks : (m.finalcommit t false).entriesOf t = m.entriesOf t := by
    unfold entriesOf
    rw [hdirty]
  unfold publishFirst commitFirst commit checkandcommit
  rw [hks]
  rcases Transition.foldlM_lockstep (fun _ _ _ _ => InStep.turn)
    (h.inStep (m.nodup_entries (t := t) isHeap)) with ⟨ha, hb⟩ | ⟨a, b, ha, hb, hab⟩
  · exact .inl ⟨ha, by rw [hb]; rfl⟩
  · refine .inr ⟨a, b.finalcommit t true, ha, by rw [hb]; rfl, ?_⟩
    have hrec : ∀ p, (b.pages p).owner = .thread t → p ∈ b.blockPages t := fun p hp => by
      rw [blockPages, hab.blocks]
      refine h.recorded p (by_contra fun ho => ?_)
      obtain ⟨hpage, howner, -⟩ := hab.same p ho
      exact howner (hpage ▸ hp)
    have hpages := fun p => finalcommit_pages (q := p) true hrec
    have key : ∀ p, (a.pages p).content = ((b.finalcommit t true).pages p).content ∧
        ((m.pages p).owner = .thread t → (a.pages p).content = m.view t p) ∧
        (a.pages p).owner ≠ .thread t ∧ ((b.finalcommit t true).pages p).owner ≠ .thread t := by
      intro p
      rw [hpages]
      by_cases ho : (m.pages p).owner = .thread t
      · obtain ⟨hc, hoa, hob, -, hv⟩ := hab.owned p ho
        rw [if_pos hob, hoa]
        exact ⟨hc.trans hv.symm, fun _ => hc, nofun, nofun⟩
      · obtain ⟨hpage, howner, -⟩ := hab.same p ho
        rw [if_neg (hpage ▸ howner), hpage]
        exact ⟨rfl, fun hp => absurd hp ho, hpage ▸ howner, hpage ▸ howner⟩
    exact ⟨fun p => (key p).1,
      fun p hp => ⟨(key p).2.1 hp, (key p).1.symm.trans ((key p).2.1 hp)⟩, fun p => (key p).2.2⟩

/-- A thread that owns page 1, wrote to it and to the shared page 0, and was overtaken on page 0. -/
def twoDirty : Mem :=
  let entry : ℕ → ℕ → PageInfo := fun p slot =>
    { pageNo := p, version := 0, isUpdated := false, slot := slot, processed := false }
  let page : Owner → SharedPage := fun o =>
    { content := fun _ _ => 0, version := 1, users := 1, bitmapIndex := 0, owner := o }
  { boot 2 with
    pages := fun p => page (if p = 1 then .thread 1 else .shared)
    spaces := fun _ =>
      { priv := fun p => if p < 2 then some fun _ _ => 7 else none, prot := fun _ => .readWrite
        access := fun _ => .write, dirty := [entry 0 0, entry 1 1], release := fun _ => false
        cur := 2, ownedBlocks := [(1, 2)], isProtected := true } }

theorem publishFirst_commitFirst_twoDirty :
    twoDirty.SoleOwner 1 ∧ ∃ a b, twoDirty.publishFirst 1 (fun _ => true) = some a ∧
      twoDirty.commitFirst 1 (fun _ => true) = some b ∧
      (∀ p, (a.pages p).content = (b.pages p).content) ∧ (a.pages 1).content = twoDirty.view 1 1 := by
  have hs : twoDirty.SoleOwner 1 := by
    refine ⟨fun p hp => ?_, fun _ _ _ => rfl, by decide⟩
    have h1 : p = 1 := by
      by_contra h
      simp [twoDirty, h] at hp
    subst h1
    decide
  refine ⟨hs, ?_⟩
  rcases publishFirst_commitFirst (fun _ => true) hs with ⟨h, -⟩ | ⟨a, b, ha, hb, h1, h2, -⟩
  · exact absurd h (by decide)
  · exact ⟨a, b, ha, hb, h1, (h2 1 rfl).1⟩

end Dthreads.Memory.Mem
