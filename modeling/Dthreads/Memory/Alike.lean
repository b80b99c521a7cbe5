import Dthreads.Memory.Ownership

/-! # Memories that differ in the file only

Every action does the same to two such memories, as far as they show its process the same pages. -/

namespace Dthreads.Memory

namespace Mem

variable {m m' n n' : Mem} {t u : Tid} {p q k : ℕ}

/-- The same memory over another file. -/
structure Alike (m n : Mem) : Prop where
  spaces : n.spaces = m.spaces
  bitmap : n.bitmap = m.bitmap
  mail : n.mail = m.mail
  table : ∀ p, n.table p = m.table p

theorem storeWord_view (h : (m.spaces t).isProtected = true) (i : Fin 512) (w : Word) :
    (m.storeWord t p i w).view t q = if q = p then (m.view t p).setWord i w else m.view t q := by
  unfold view
  rw [storeWord_priv, storeWord_content]
  by_cases hq : q = p
  · simp [hq, h, view]
  · simp [hq]

/-- A store takes no copy away. -/
theorem storeWord_copied {i : Fin 512} {w : Word} (h : (m.spaces u).priv q ≠ none) :
    ((m.storeWord t p i w).spaces u).priv q ≠ none := by
  rw [storeWord_priv]
  split
  · simp
  · exact h

theorem storeBytes_copied {val : Addr → Byte} {as : List Addr} (h : (m.spaces u).priv q ≠ none) :
    ((m.storeBytes t val as).spaces u).priv q ≠ none := by
  induction as generalizing m with
  | nil => exact h
  | cons a as ih => exact ih (m := m.storeByte t a (val a)) (storeWord_copied h)

theorem storeBytes_congr {val val' : Addr → Byte} {as : List Addr} (h : ∀ b ∈ as, val b = val' b) :
    m.storeBytes t val as = m.storeBytes t val' as := by
  induction as generalizing m with
  | nil => rfl
  | cons a as ih =>
      refine (ih (m := m.storeByte t a (val a)) fun b hb => h b (by simp [hb])).trans ?_
      rw [h a (by simp)]
      rfl

namespace Alike

theorem refl (m : Mem) : Alike m m := ⟨rfl, rfl, rfl, fun _ => rfl⟩

theorem owner (h : Alike m n) (p : ℕ) : (n.pages p).owner = (m.pages p).owner :=
  congrArg Table.owner (h.table p)

theorem users (h : Alike m n) (p : ℕ) : (n.pages p).users = (m.pages p).users :=
  congrArg Table.users (h.table p)

theorem version (h : Alike m n) (p : ℕ) : (n.pages p).version = (m.pages p).version :=
  congrArg Table.version (h.table p)

theorem bitmapIndex (h : Alike m n) (p : ℕ) : (n.pages p).bitmapIndex = (m.pages p).bitmapIndex :=
  congrArg Table.bitmapIndex (h.table p)

theorem signals (h : Alike m n) : n.signals = m.signals := congrArg Prod.fst h.mail

theorem alive (h : Alike m n) : n.alive = m.alive := congrArg (fun x => x.2.1) h.mail

theorem position (h : Alike m n) : n.position = m.position := congrArg (fun x => x.2.2) h.mail

theorem view (h : Alike m n) (hp : (m.spaces t).priv p = none →
    (n.pages p).content = (m.pages p).content) : n.view t p = m.view t p := by
  unfold Mem.view
  rw [h.spaces]
  cases hc : (m.spaces t).priv p with
  | none => exact hp hc
  | some x => rfl

theorem setPage (h : Alike m n) {g g' : SharedPage} (hg : g'.table = g.table) :
    Alike (m.setPage p g) (n.setPage p g') := by
  refine ⟨h.spaces, h.bitmap, h.mail, fun q => ?_⟩
  rw [setPage_table, setPage_table, hg, h.table]

theorem setContent (h : Alike m n) (x : Page) :
    Alike m (n.setPage p { n.pages p with content := x }) := by
  refine ⟨h.spaces, h.bitmap, h.mail, fun q => ?_⟩
  rw [setPage_table, ← h.table]
  split
  · rename_i hq
    rw [hq]
    rfl
  · rfl

theorem setSpace (h : Alike m n) {s s' : Space} (hs : s' = s) :
    Alike (m.setSpace t s) (n.setSpace t s') := by
  refine ⟨?_, h.bitmap, h.mail, h.table⟩
  unfold Mem.setSpace
  rw [h.spaces, hs]

/-- The same change of the tables of a page. -/
theorem modify (h : Alike m n) (f : Table → Table) {x y : Page} :
    Alike (m.setPage p ⟨x, (f (m.table p)).version, (f (m.table p)).users, (f (m.table p)).bitmapIndex,
      (f (m.table p)).owner⟩) (n.setPage p ⟨y, (f (n.table p)).version, (f (n.table p)).users,
      (f (n.table p)).bitmapIndex, (f (n.table p)).owner⟩) :=
  h.setPage (by rw [h.table]; rfl)

theorem setSharedPage (h : Alike m n) : Alike (m.setSharedPage t p) (n.setSharedPage t p) := by
  unfold Mem.setSharedPage
  rw [h.owner]
  split
  · exact (h.modify fun g => { g with owner := .shared }).setSpace (by rw [h.spaces])
  · exact h

theorem commitOwnedPage (h : Alike m n) (s : Bool) :
    Alike (m.commitOwnedPage t p s) (n.commitOwnedPage t p s) := by
  have h1 : Alike (m.setPage p { m.pages p with content := m.view t p })
      (n.setPage p { n.pages p with content := n.view t p }) := h.setPage (h.table p)
  unfold Mem.commitOwnedPage
  cases s with
  | false => exact h1.modify fun g => { g with version := g.version + 1 }
  | true =>
      have h2 := h1.setSharedPage (t := t) (p := p)
      exact (h2.setSpace (by rw [h2.spaces])).modify fun g => { g with version := g.version + 1 }

theorem notifyOwnerToCommit (h : Alike m n) :
    Alike (m.notifyOwnerToCommit t p) (n.notifyOwnerToCommit t p) := by
  unfold Mem.notifyOwnerToCommit
  rw [h.owner, h.alive, h.signals]
  split
  · exact h
  · exact h.setSharedPage
  · split
    · refine ⟨h.spaces, h.bitmap, ?_, h.table⟩
      unfold Mem.mail
      rw [h.position]
    · exact h.setSharedPage

theorem signalHandler (h : Alike m n) : Alike (m.signalHandler t p) (n.signalHandler t p) := by
  have h1 : Alike { m with signals := Function.update m.signals t ((m.signals t).erase p) }
      { n with signals := Function.update n.signals t ((n.signals t).erase p) } := by
    refine ⟨h.spaces, h.bitmap, ?_, h.table⟩
    unfold Mem.mail
    rw [h.signals, h.alive, h.position]
  exact h1.commitOwnedPage true

theorem finalcommitPage (h : Alike m n) (r : Bool) :
    Alike (m.finalcommitPage t p r) (n.finalcommitPage t p r) := by
  unfold Mem.finalcommitPage
  split
  · exact h.commitOwnedPage true
  · exact (h.commitOwnedPage false).setSharedPage

theorem mprotectRead (h : Alike m n) : Alike (m.mprotectRead t p) (n.mprotectRead t p) :=
  h.setSpace (by rw [h.spaces])

theorem mprotectWrite (h : Alike m n) : Alike (m.mprotectWrite t p) (n.mprotectWrite t p) :=
  h.setSpace (by rw [h.spaces, h.owner])

theorem addDirty (h : Alike m n) (hm : m.addDirty t p = some m') :
    ∃ n', n.addDirty t p = some n' ∧ Alike m' n' := by
  unfold Mem.addDirty at hm ⊢
  rw [h.spaces]
  dsimp only at hm ⊢
  split at hm
  · rename_i hc
    obtain rfl := Option.some.inj hm
    rw [if_pos hc]
    refine ⟨_, rfl, (h.modify fun g => { g with users := g.users + 1 }).setSpace ?_⟩
    rw [h.version]
  · cases hm

theorem handleWrite (h : Alike m n) (hm : m.handleWrite t p = some m') :
    ∃ n', n.handleWrite t p = some n' ∧ Alike m' n' := by
  unfold Mem.handleWrite at hm ⊢
  rw [h.spaces]
  split at hm
  · exact (h.mprotectWrite.commitOwnedPage false).addDirty hm
  · exact h.mprotectWrite.addDirty hm

theorem storeWord (h : Alike m n) {i : Fin 512} {w : Word} (hv : n.view t p = m.view t p) :
    Alike (m.storeWord t p i w) (n.storeWord t p i w) := by
  unfold Mem.storeWord
  rw [h.spaces, hv]
  split
  · exact h.setSpace rfl
  · exact h.setPage (h.table p)

theorem memWrite (h : Alike m n) (o : SyncAddr) (w : Word) : Alike (m.memWrite o w) (n.memWrite o w) :=
  h.setPage (h.table o.page)

theorem updateAll (h : Alike m n) : Alike (m.updateAll t) (n.updateAll t) :=
  h.setSpace (by rw [h.spaces])

theorem finishEntry (h : Alike m n) (e : PageInfo) {r r' : Bool} (hr : r' = r) :
    Alike (m.finishEntry t k e r) (n.finishEntry t k e r') :=
  h.setSpace (by rw [h.spaces, hr])

theorem publish (h : Alike m n) (x : BitVec 32) : Alike (m.publish t p x) (n.publish t p x) := by
  unfold Mem.publish
  rw [h.version]
  split
  · exact h.setPage (h.table p)
  · exact h.setSharedPage.setPage (h.setSharedPage.table p)

theorem ensureTwin (h : Alike m n) (hc : (n.pages p).content = (m.pages p).content)
    (hm : m.ensureTwin p = some m') : ∃ n', n.ensureTwin p = some n' ∧ Alike m' n' := by
  unfold Mem.ensureTwin at hm ⊢
  rw [h.users, h.bitmapIndex]
  split at hm
  · rename_i hu
    rw [if_pos hu]
    unfold createTwinPage at hm ⊢
    rw [Option.map_eq_some_iff] at hm
    obtain ⟨⟨i, b⟩, hb, rfl⟩ := hm
    rw [h.bitmap, hb]
    have h1 : Alike
        { m with bitmap :=
            (b.setTwin i (m.pages p).content).setVersion i ((m.pages p).version.setWidth 32) }
        { n with bitmap :=
            (b.setTwin i (n.pages p).content).setVersion i ((n.pages p).version.setWidth 32) } :=
      ⟨h.spaces, by rw [hc, h.version], h.mail, h.table⟩
    exact ⟨_, rfl, h1.modify fun g => { g with bitmapIndex := i % 65536 }⟩
  · rename_i hu
    obtain rfl := Option.some.inj hm
    exact ⟨n, by rw [if_neg hu], h⟩

theorem commitEntry (h : Alike m n) (hm : m.commitEntry t k = some m')
    (hc : ∀ d ∈ (m.spaces t).dirty[k]?, (n.pages d.pageNo).content = (m.pages d.pageNo).content) :
    ∃ n', n.commitEntry t k = some n' ∧ Alike m' n' := by
  unfold Mem.commitEntry at hm ⊢
  rw [h.spaces]
  simp only [Option.bind_eq_bind, Option.bind_eq_some_iff] at hm ⊢
  obtain ⟨d, hd, m₁, hm₁, hm⟩ := hm
  obtain ⟨n₁, hn₁, h₁⟩ := h.ensureTwin (hc d hd) hm₁
  have hrest : ∃ n', (if d.isUpdated then some (n₁.finishEntry t k d ((n₁.spaces t).release d.slot))
      else if (n₁.pages d.pageNo).users ≠ 1 ∨ (n₁.pages d.pageNo).owner ≠ .thread t then
        some (((n₁.publish t d.pageNo d.version).setPage d.pageNo
          (endCommit ((n₁.publish t d.pageNo d.version).pages d.pageNo))).finishEntry t k d true)
      else some ((n₁.setPage d.pageNo { n₁.pages d.pageNo with
        users := decUsers (n₁.pages d.pageNo).users }).finishEntry t k d false)) = some n' ∧
      Alike m' n' := by
    rw [h₁.users, h₁.owner]
    split at hm
    · rename_i hu
      obtain rfl := Option.some.inj hm
      exact ⟨_, if_pos hu, h₁.finishEntry d (by rw [h₁.spaces])⟩
    · rename_i hu
      rw [if_neg hu]
      split at hm
      · rename_i ho
        obtain rfl := Option.some.inj hm
        refine ⟨_, if_pos ho, ((h₁.publish d.version).modify Table.endCommit).finishEntry d rfl⟩
      · rename_i ho
        obtain rfl := Option.some.inj hm
        rw [if_neg ho]
        refine ⟨_, rfl, finishEntry (h₁.setPage ?_) d rfl⟩
        have ht := h₁.table d.pageNo
        unfold Mem.table SharedPage.table at ht
        simp_all [SharedPage.table]
  obtain ⟨n', hn', h'⟩ := hrest
  exact ⟨n', ⟨d, hd, n₁, hn₁, hn'⟩, h'⟩

theorem superblock (h : Alike m n) {j : ℕ} : Alike (m.superblock t j) (n.superblock t j) := by
  unfold Mem.superblock setOwnedPage
  dsimp only
  rw [h.spaces, h.position]
  have hmail : (n.signals, n.alive, m.position + j) = (m.signals, m.alive, m.position + j) := by
    rw [h.signals, h.alive]
  split
  · refine ⟨rfl, h.bitmap, hmail, fun q => ?_⟩
    have ht := h.table q
    unfold Mem.table SharedPage.table at ht ⊢
    dsimp only
    split <;> simp_all
  · exact ⟨rfl, h.bitmap, hmail, h.table⟩

theorem fork (h : Alike m n) {child : Tid} : Alike (m.fork t child) (n.fork t child) := by
  refine ⟨?_, h.bitmap, ?_, h.table⟩
  · unfold Mem.fork
    rw [h.spaces]
  · unfold Mem.mail Mem.fork
    rw [h.signals, h.alive, h.position]

theorem exit (h : Alike m n) : Alike (m.exit t) (n.exit t) := by
  refine ⟨h.spaces, h.bitmap, ?_, h.table⟩
  unfold Mem.mail Mem.exit
  rw [h.signals, h.alive, h.position]

theorem cleanup (h : Alike m n) :
    Alike { m with bitmap := m.bitmap.cleanup } { n with bitmap := n.bitmap.cleanup } :=
  ⟨h.spaces, by rw [h.bitmap], h.mail, h.table⟩

theorem page (h : Alike m n) (hc : (n.pages p).content = (m.pages p).content) :
    n.pages p = m.pages p := by
  have ht := h.table p
  unfold Mem.table SharedPage.table at ht
  cases hn : n.pages p
  cases hm : m.pages p
  simp_all

/-- Commits of a page with equal contents leave equal contents. -/
theorem commitEntry_content (h : Alike m n) (hm : m.commitEntry t k = some m')
    (hn : n.commitEntry t k = some n')
    (hc : ∀ d ∈ (m.spaces t).dirty[k]?, (n.pages d.pageNo).content = (m.pages d.pageNo).content)
    (q : ℕ) : (n'.pages q).content = (m'.pages q).content ∨
      ((∀ d ∈ (m.spaces t).dirty[k]?, d.pageNo ≠ q) ∧
        (n'.pages q).content = (n.pages q).content ∧
        (m'.pages q).content = (m.pages q).content) := by
  obtain ⟨d, g, b, hd, hg, -, hmq⟩ := commitEntry_pages hm
  obtain ⟨d', g', b', hd', hg', -, hnq⟩ := commitEntry_pages hn
  rw [h.spaces, hd] at hd'
  obtain rfl := Option.some.inj hd'
  rw [h.page (hc d hd), h.bitmap, hg] at hg'
  obtain ⟨rfl, rfl⟩ := Prod.mk.inj (Option.some.inj hg')
  rw [hmq, hnq]
  by_cases hq : q = d.pageNo
  · subst hq
    left
    rw [if_pos rfl, if_pos rfl, h.view fun _ => hc d hd]
  · right
    rw [if_neg hq, if_neg hq]
    refine ⟨fun x hx => ?_, rfl, rfl⟩
    rw [hd] at hx
    obtain rfl := Option.some.inj hx
    exact Ne.symm hq

/-- Stores of a process with protected pages that both memories show it alike. -/
theorem storeBytes (h : Alike m n) {val : Addr → Byte} {as : List Addr}
    (hprot : (m.spaces t).isProtected = true)
    (hv : ∀ b ∈ as, n.view t b.page = m.view t b.page) :
    Alike (m.storeBytes t val as) (n.storeBytes t val as) := by
  induction as generalizing m n with
  | nil => exact h
  | cons a as ih =>
      have ha := hv a (by simp)
      have hprot' : (n.spaces t).isProtected = true := by rw [h.spaces, hprot]
      have h1 : Alike (m.storeByte t a (val a)) (n.storeByte t a (val a)) := by
        unfold storeByte
        rw [ha]
        exact h.storeWord ha
      have hprot₁ : ((m.storeByte t a (val a)).spaces t).isProtected = true :=
        (storeWord_isProtected _ _).trans hprot
      refine ih h1 hprot₁ fun b hb => ?_
      refine (storeWord_view hprot' _ _).trans (Eq.trans ?_ (storeWord_view hprot _ _).symm)
      rw [ha, hv b (by simp [hb])]

end Alike

end Mem

end Dthreads.Memory
