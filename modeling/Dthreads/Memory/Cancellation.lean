import Dthreads.Memory.Alike

/-! # Cancelled owners

A transaction on an owned page ends without a publication: the page is copied to the shared mapping
by the next write fault of its owner, or when somebody asks for it. `xrun::cancel` kills the owner
before it does. -/

namespace Dthreads.Memory

open Transition

namespace Mem

variable {m m' n n' : Mem} {t u v r : Tid} {p q k : ℕ}

/-! ## Publication at the end of each transaction -/

/-- The commit of a page that is left to its owner `v` publishes the page as well. -/
def publishEnd (m m' : Mem) (v : Tid) : Act → Mem
  | .commitEntry t k =>
      match (m.spaces t).dirty[k]? with
      | some d =>
          if t = v ∧ ¬ m.publishes t d then
            m'.setPage d.pageNo { m'.pages d.pageNo with content := m.view t d.pageNo }
          else m'
      | none => m'
  | _ => m'

/-- The machine in which the transactions of `v` are published at their ends. -/
def eagerStep (v : Tid) (m : Mem) (a : Act) : Option Mem :=
  (m.step a).map fun m' => m.publishEnd m' v a

/-- Process `v` owns the page and has ended a transaction on it, which nobody asked for and no
write fault has published. -/
structure Behind (v : Tid) (m : Mem) (p : ℕ) : Prop where
  owner : (m.pages p).owner = .thread v
  copied : (m.spaces v).priv p ≠ none
  written : (m.spaces v).access p = .write
  ended : ∀ d ∈ (m.spaces v).dirty, d.pageNo = p →
    d.processed = true ∧ (m.spaces v).release d.slot = false

/-- The memory of the machine that publishes `n`, and that of the code `m`. -/
structure Lags (v : Tid) (m n : Mem) : Prop where
  exclusive : Exclusive m
  alike : Alike m n
  behind : ∀ p, (n.pages p).content ≠ (m.pages p).content → Behind v m p
  alive : ∀ p, (m.pages p).owner = .thread v → m.alive v = true
  marked : ∀ d ∈ (m.spaces v).dirty, (m.pages d.pageNo).owner = .thread v →
    (m.spaces v).access d.pageNo = .write

/-- What `Behind` depends on. -/
structure Undisturbed (v : Tid) (m m' : Mem) (q : ℕ) : Prop where
  owner : (m'.pages q).owner = (m.pages q).owner
  copied : (m.spaces v).priv q ≠ none → (m'.spaces v).priv q ≠ none
  access : (m'.spaces v).access q = (m.spaces v).access q
  entries : ∀ d ∈ (m'.spaces v).dirty, d.pageNo = q →
    d ∈ (m.spaces v).dirty ∧ (m'.spaces v).release d.slot = (m.spaces v).release d.slot

theorem Behind.undisturbed (h : Behind v m q) (hu : Undisturbed v m m' q) : Behind v m' q where
  owner := hu.owner.trans h.owner
  copied := hu.copied h.copied
  written := hu.access.trans h.written
  ended d hd hq := by
    obtain ⟨hd', hr⟩ := hu.entries d hd hq
    obtain ⟨h1, h2⟩ := h.ended d hd' hq
    exact ⟨h1, hr.trans h2⟩

namespace Lags

/-- The pages of other processes are the same in both files. -/
theorem content_eq (h : Lags v m n) (ho : (m.pages p).owner ≠ .thread v) :
    (n.pages p).content = (m.pages p).content := by
  by_contra hc
  exact ho (h.behind p hc).owner

/-- Both machines show a process the same pages, as far as it can access them. -/
theorem view_eq (h : Lags v m n) (hp : (m.pages p).owner = .thread v → t = v) :
    n.view t p = m.view t p := by
  refine h.alike.view fun hn => ?_
  by_contra hc
  have hb := h.behind p hc
  obtain rfl := hp hb.owner
  exact hb.copied hn

theorem frame (h : Lags v m n) (hx : Exclusive m') (ha : Alike m' n')
    (hlive : ∀ p, (m'.pages p).owner = .thread v → m'.alive v = true)
    (hq : ∀ q, (n'.pages q).content ≠ (m'.pages q).content →
      (n.pages q).content ≠ (m.pages q).content ∧ Undisturbed v m m' q)
    (hmarked : ∀ d ∈ (m'.spaces v).dirty, (m'.pages d.pageNo).owner = .thread v →
      (m'.spaces v).access d.pageNo = .write) : Lags v m' n' :=
  ⟨hx, ha, fun q hc => (h.behind q (hq q hc).1).undisturbed (hq q hc).2, hlive, hmarked⟩

/-- A step that leaves the dirty list, and gives no process a page. -/
theorem frame_of_sameDirty (h : Lags v m n) (hx : Exclusive m') (ha : Alike m' n')
    (halive : m'.alive = m.alive) (hs : (m.spaces v).SameDirty (m'.spaces v))
    (hown : ∀ q, (m'.pages q).owner = .thread v →
      (m.pages q).owner = .thread v ∧ (m'.spaces v).access q = (m.spaces v).access q)
    (hq : ∀ q, (n'.pages q).content ≠ (m'.pages q).content →
      (n.pages q).content ≠ (m.pages q).content ∧ (m'.pages q).owner = (m.pages q).owner ∧
        ((m.spaces v).priv q ≠ none → (m'.spaces v).priv q ≠ none)) : Lags v m' n' := by
  refine h.frame hx ha (fun p ho => halive ▸ h.alive p (hown p ho).1) (fun q hc => ?_) fun d hd ho => ?_
  · obtain ⟨hc', ho, hp⟩ := hq q hc
    refine ⟨hc', ho, hp, (hown q (ho.trans (h.behind q hc').owner)).2, fun d hd _ => ?_⟩
    rw [hs.dirty] at hd
    exact ⟨hd, by rw [hs.release]⟩
  · rw [hs.dirty] at hd
    obtain ⟨ho', ha'⟩ := hown d.pageNo ho
    exact ha'.trans (h.marked d hd ho')

theorem committed (h : Lags v m n) (s : Bool) (hx : Exclusive (m.commitOwnedPage t p s))
    (hp : (m.pages p).owner = .thread v → t = v) :
    Lags v (m.commitOwnedPage t p s) (n.commitOwnedPage t p s) := by
  have hmail := congrArg (fun x => x.2.1) (commitOwnedPage_mail (m := m) (t := t) (p := p) s)
  refine h.frame_of_sameDirty hx (h.alike.commitOwnedPage s) hmail (commitOwnedPage_sameDirty m t v p s)
    (fun q ho => ?_) fun q hc => ?_
  · rw [commitOwnedPage_owner] at ho
    cases s with
    | false => exact ⟨by simpa using ho, rfl⟩
    | true =>
        split at ho
        · cases ho
        · rename_i hq
          exact ⟨ho, commitOwnedPage_access true (.inr fun he => hq ⟨he, rfl⟩)⟩
  · rw [commitOwnedPage_content, commitOwnedPage_content] at hc
    have hq : q ≠ p := by
      rintro rfl
      rw [if_pos rfl, if_pos rfl, h.view_eq hp] at hc
      exact hc rfl
    rw [if_neg hq, if_neg hq] at hc
    refine ⟨hc, by rw [commitOwnedPage_owner, if_neg fun he => hq he.1], fun hn => ?_⟩
    rwa [commitOwnedPage_priv, if_neg fun he => hq he.2.2]

theorem shared (h : Lags v m n) (hx : Exclusive (m.setSharedPage t p))
    (hp : (n.pages p).content = (m.pages p).content) :
    Lags v (m.setSharedPage t p) (n.setSharedPage t p) := by
  have hmail := congrArg (fun x => x.2.1) (setSharedPage_mail (m := m) (t := t) (p := p))
  refine h.frame_of_sameDirty hx h.alike.setSharedPage hmail (setSharedPage_sameDirty m t v p)
    (fun q ho => ?_) fun q hc => ?_
  · obtain ⟨hq, ho⟩ := Addressed.owner_setSharedPage ho
    exact ⟨ho, setSharedPage_access (.inr hq)⟩
  · rw [setSharedPage_content, setSharedPage_content] at hc
    have hq : q ≠ p := fun he => hc (he ▸ hp)
    exact ⟨hc, by rw [setSharedPage_pages_of_ne hq], fun hn => by rwa [setSharedPage_priv]⟩

theorem notify (h : Lags v m n) (hx : Exclusive (m.notifyOwnerToCommit t p)) :
    Lags v (m.notifyOwnerToCommit t p) (n.notifyOwnerToCommit t p) := by
  have hshare : (m.pages p).owner ≠ .thread v → Exclusive (m.setSharedPage t p) →
      Lags v (m.setSharedPage t p) (n.setSharedPage t p) := fun ho hx => h.shared hx (h.content_eq ho)
  have ha := h.alike.notifyOwnerToCommit (t := t) (p := p)
  have hno := h.alike.owner p
  cases ho : (m.pages p).owner with
  | shared =>
      rw [ho] at hno
      simpa [notifyOwnerToCommit, ho, hno] using h
  | none =>
      rw [ho] at hno
      simp only [notifyOwnerToCommit, ho, hno] at hx ⊢
      exact hshare (by simp [ho]) hx
  | thread o =>
      rw [ho] at hno
      by_cases hlive : m.alive o = true
      · simp only [notifyOwnerToCommit, ho, hno, h.alike.alive, if_pos hlive] at hx ha ⊢
        exact h.frame_of_sameDirty hx ha rfl (.refl _) (fun _ ho => ⟨ho, rfl⟩) fun q hc => ⟨hc, rfl, id⟩
      · simp only [notifyOwnerToCommit, ho, hno, h.alike.alive, if_neg hlive] at hx ⊢
        refine hshare (fun hv => hlive ?_) hx
        obtain rfl := Owner.thread.inj (ho.symm.trans hv)
        exact h.alive p hv

theorem signalHandler (h : Lags v m n) (hx : Exclusive (m.signalHandler t p))
    (hp : ∀ o, (m.pages p).owner = .thread o → o = t) :
    Lags v (m.signalHandler t p) (n.signalHandler t p) := by
  have herase : Lags v { m with signals := Function.update m.signals t ((m.signals t).erase p) }
      { n with signals := Function.update n.signals t ((n.signals t).erase p) } := by
    refine h.frame_of_sameDirty h.exclusive.erase ⟨h.alike.spaces, h.alike.bitmap, ?_, h.alike.table⟩
      rfl (.refl _) (fun _ ho => ⟨ho, rfl⟩) fun q hc => ⟨hc, rfl, id⟩
    unfold Mem.mail
    rw [h.alike.signals, h.alike.alive, h.alike.position]
  exact herase.committed true hx fun ho => (hp v ho).symm

theorem finalcommit {r : Bool} (h : Lags v m n) (ho : (m.pages p).owner = .thread t) :
    Lags v (m.finalcommitPage t p r) (n.finalcommitPage t p r) := by
  have hp : p < m.position := h.exclusive.used p (by simp [ho])
  have hv : (m.pages p).owner = .thread v → t = v := fun hv => Owner.thread.inj (ho.symm.trans hv)
  cases r with
  | true => exact h.committed true (h.exclusive.committed hp true) hv
  | false =>
      refine (h.committed false (h.exclusive.committed hp false) hv).shared
        ((h.exclusive.committed hp false).shared hp) ?_
      rw [commitOwnedPage_content, commitOwnedPage_content, if_pos rfl, if_pos rfl, h.view_eq hv]

/-- Both machines show a process alike what it can read. -/
theorem view_of_readable (h : Lags v m n) (ht : m.alive t = true)
    (hp : (m.spaces t).prot p ≠ .none) : n.view t p = m.view t p := by
  refine h.view_eq fun ho => ?_
  by_contra hne
  exact hp (h.exclusive.hides t ht p (.inr ⟨v, Ne.symm hne, ho⟩)).prot

theorem store (h : Lags v m n) {as : List Addr} {f : (Addr → Byte) → Addr → Byte}
    (hl : m.Lawful (.store t as f)) (hw : ∀ a ∈ as, m.writable t a.page) :
    Lags v (m.storeBytes t (f (m.viewByte t)) as) (n.storeBytes t (f (n.viewByte t)) as) := by
  have ht : m.alive t = true := hl.1 t rfl
  have hprot : (m.spaces t).isProtected = true := h.exclusive.isProtected t ht
  have hprot' : (n.spaces t).isProtected = true := by rw [h.alike.spaces, hprot]
  have hread : ∀ b : Addr, (m.spaces t).prot b.page ≠ .none → n.viewByte t b = m.viewByte t b := by
    intro b hb
    rw [viewByte, viewByte, h.view_of_readable ht hb]
  have hstep : m.step (.store t as f) = some (m.storeBytes t (f (m.viewByte t)) as) := if_pos hw
  rw [storeBytes_congr (hl.2 _ _ hread)]
  refine h.frame_of_sameDirty (h.exclusive.step hl hstep) (h.alike.storeBytes hprot fun b hb => ?_)
    (congrArg (fun x => x.2.1) (storeBytes_mail _ as)) (storeBytes_sameDirty m t v _ as)
    (fun q ho => ?_) fun q hc => ?_
  · exact h.view_of_readable ht (by rw [show (m.spaces t).prot b.page = .readWrite from hw b hb]; decide)
  · have hq := congrArg Table.owner (storeBytes_table (m := m) (t := t) (q := q) (f (m.viewByte t)) as)
    exact ⟨hq.symm.trans ho, by rw [storeBytes_access]⟩
  · rw [storeBytes_content hprot, storeBytes_content hprot'] at hc
    exact ⟨hc, congrArg Table.owner (storeBytes_table _ as), storeBytes_copied⟩

theorem setWord (h : Lags v m n) {o : SyncAddr} {w : Word} (hl : m.Lawful (.setWord t o w))
    (hw : m.writable t o.page) :
    Lags v (m.storeWord t o.page o.word w) (n.storeWord t o.page o.word w) := by
  have ht : m.alive t = true := hl.1 t rfl
  have hprot : (m.spaces t).isProtected = true := h.exclusive.isProtected t ht
  have hprot' : (n.spaces t).isProtected = true := by rw [h.alike.spaces, hprot]
  have hstep : m.step (.setWord t o w) = some (m.storeWord t o.page o.word w) := if_pos hw
  refine h.frame_of_sameDirty (h.exclusive.step hl hstep) (h.alike.storeWord ?_)
    (congrArg (fun x => x.2.1) (storeWord_mail o.word w)) (storeWord_sameDirty m t v _ _ _)
    (fun q ho => ?_) fun q hc => ?_
  · exact h.view_of_readable ht (by rw [show (m.spaces t).prot o.page = .readWrite from hw]; decide)
  · have hq := congrArg Table.owner
      (storeWord_table (m := m) (t := t) (p := o.page) (q := q) o.word w)
    exact ⟨hq.symm.trans ho, by rw [storeWord_access]⟩
  · simp only [storeWord_content, hprot, hprot', Bool.true_eq_false, and_false, if_false] at hc
    exact ⟨hc, congrArg Table.owner (storeWord_table o.word w), storeWord_copied⟩

theorem memWrite (h : Lags v m n) {o : SyncAddr} {w : Word} (hl : m.Lawful (.memWrite t o w)) :
    Lags v (m.memWrite o w) (n.memWrite o w) := by
  refine h.frame_of_sameDirty (h.exclusive.step hl rfl) (h.alike.memWrite o w) rfl (.refl _)
    (fun q ho => ?_) fun q hc => ?_
  · have hq := congrArg Table.owner (memWrite_table (m := m) (q := q) o w)
    exact ⟨hq.symm.trans ho, rfl⟩
  · rw [memWrite_content, memWrite_content] at hc
    refine ⟨fun he => hc ?_, congrArg Table.owner (memWrite_table o w), id⟩
    rw [he]

theorem mprotectRead (h : Lags v m n) (hl : m.Lawful (.mprotectRead t p))
    (hs : m.step (.mprotectRead t p) = some (m.mprotectRead t p))
    (hp : (m.pages p).owner = .shared) : Lags v (m.mprotectRead t p) (n.mprotectRead t p) := by
  have hsame : ∀ q, q ≠ p → ((m.mprotectRead t p).spaces v).access q = (m.spaces v).access q := by
    intro q hq
    by_cases hv : v = t
    · subst hv; simp [Mem.mprotectRead, Space.setProt, Space.setAccess, hq]
    · simp [Mem.mprotectRead, hv]
  have hdirty : ((m.mprotectRead t p).spaces v).dirty = (m.spaces v).dirty ∧
      ((m.mprotectRead t p).spaces v).release = (m.spaces v).release := by
    by_cases hv : v = t
    · subst hv; simp [Mem.mprotectRead, Space.setProt, Space.setAccess]
    · simp [Mem.mprotectRead, hv]
  have hne : ∀ q, (m.pages q).owner = .thread v → q ≠ p := by
    rintro q ho rfl
    rw [hp] at ho
    cases ho
  refine h.frame (h.exclusive.step hl hs) h.alike.mprotectRead (fun q ho => h.alive q ho)
    (fun q hc => ⟨hc, rfl, fun hn => by rwa [mprotectRead_priv],
      hsame q (hne q (h.behind q hc).owner), fun d hd _ => ?_⟩) fun d hd ho => ?_
  · rw [hdirty.1] at hd
    exact ⟨hd, by rw [hdirty.2]⟩
  · rw [hdirty.1] at hd
    rw [hsame _ (hne _ ho)]
    exact h.marked d hd ho

/-- A write fault of the owner publishes what its last transaction left. -/
theorem fault (h : Lags v m n) (hl : m.Lawful (.fault t p)) (hs : m.step (.fault t p) = some m') :
    ∃ n', n.handleWrite t p = some n' ∧ Lags v m' n' := by
  have hx := h.exclusive.step hl hs
  simp only [Mem.step, Option.ite_none_right_eq_some] at hs
  obtain ⟨⟨-, hacc⟩, hs⟩ := hs
  obtain ⟨n', hn, ha⟩ := h.alike.handleWrite hs
  have hown : ∀ q, (m'.pages q).owner = (m.pages q).owner := by
    intro q
    have ht := congrArg Table.owner (handleWrite_table (q := q) hs)
    rw [table_owner] at ht
    split at ht <;> exact ht
  have htv : (m.pages p).owner = .thread v → t = v := by
    intro ho
    by_contra hne
    exact hacc (h.exclusive.hides t (hl.1 t rfl) p (.inr ⟨v, Ne.symm hne, ho⟩)).access
  have halive : m'.alive = m.alive := congrArg (fun x => x.2.1) (handleWrite_mail hs)
  refine ⟨n', hn, h.frame hx ha (fun q ho => halive ▸ h.alive q (hown q ▸ ho)) (fun q hc => ?_) fun d hd ho => ?_⟩
  · rw [handleWrite_content hs, handleWrite_content hn, h.alike.spaces] at hc
    have hnot : ¬ (q = p ∧ (m.spaces t).access p = .write) := by
      intro hw
      rw [if_pos hw, if_pos hw, h.view_eq htv] at hc
      exact hc rfl
    rw [if_neg hnot, if_neg hnot] at hc
    have hb := h.behind q hc
    have hqp : q ≠ p := by
      rintro rfl
      obtain rfl := htv hb.owner
      exact hnot ⟨rfl, hb.written⟩
    refine ⟨hc, hown q, fun hn => by rwa [handleWrite_priv hs], ?_, fun d hd hdq => ?_⟩
    · by_cases hv : v = t
      · subst hv
        rw [handleWrite_access hs, if_neg fun he => hqp he.1]
      · rw [handleWrite_spaces_of_ne hs hv]
    · by_cases hv : v = t
      · subst hv
        obtain ⟨e, hf, -⟩ := handleWrite_space hs
        rw [hf.dirty, Space.mem_insertDirty] at hd
        rcases hd with rfl | hd
        · exact absurd (hdq.symm.trans hf.pageNo) hqp
        · exact ⟨hd, by rw [hf.release]⟩
      · rw [handleWrite_spaces_of_ne hs hv] at hd ⊢
        exact ⟨hd, rfl⟩
  · rw [hown] at ho
    by_cases hv : v = t
    · subst hv
      rw [handleWrite_access hs]
      split
      · rfl
      · rename_i hne
        obtain ⟨e, hf, -⟩ := handleWrite_space hs
        rw [hf.dirty, Space.mem_insertDirty] at hd
        rcases hd with rfl | hd
        · exact absurd ⟨hf.pageNo, hf.pageNo ▸ ho⟩ hne
        · exact h.marked d hd ho
    · rw [handleWrite_spaces_of_ne hs hv] at hd ⊢
      exact h.marked d hd ho

theorem begin (h : Lags v m n) (hl : m.Lawful (.begin t)) : Lags v (m.updateAll t) (n.updateAll t) := by
  refine h.frame (h.exclusive.step hl rfl) h.alike.updateAll h.alive (fun q hc => ⟨hc, rfl, fun hn => ?_,
    by rw [updateAll_access], fun d hd _ => ?_⟩) fun d hd ho => ?_
  · by_cases hv : v = t
    · subst hv
      rwa [updateAll_priv_of_not_released]
      rintro ⟨d, hd, hdq, -, hr⟩
      rw [((h.behind q hc).ended d hd hdq).2] at hr
      cases hr
    · rwa [updateAll_priv_of_ne hv]
  · by_cases hv : v = t
    · subst hv
      rw [updateAll_dirty] at hd
      cases hd
    · rw [updateAll_priv_of_ne hv] at hd ⊢
      exact ⟨hd, rfl⟩
  · rw [updateAll_access]
    by_cases hv : v = t
    · subst hv
      rw [updateAll_dirty] at hd
      cases hd
    · rw [updateAll_priv_of_ne hv] at hd
      exact h.marked d hd ho

theorem fork {child : Tid} (h : Lags v m n) (hl : m.Lawful (.fork t child)) :
    Lags v (m.fork t child) (n.fork t child) := by
  have hchild : ∀ q, (m.pages q).owner = .thread v → v ≠ child := by
    rintro q ho rfl
    exact (hl.2.2 q).2 ho
  have hspace : v ≠ child → (m.fork t child).spaces v = m.spaces v := fun hv => by simp [Mem.fork, hv]
  refine h.frame (h.exclusive.step hl rfl) h.alike.fork (fun q ho => ?_) (fun q hc => ?_) fun d hd ho => ?_
  · have hv := hchild q ho
    simpa [Mem.fork, hv] using h.alive q ho
  · have hv := hchild q (h.behind q hc).owner
    refine ⟨hc, rfl, fun hn => by rwa [hspace hv], by rw [hspace hv], fun d hd _ => ?_⟩
    rw [hspace hv] at hd ⊢
    exact ⟨hd, rfl⟩
  · have hv := hchild d.pageNo ho
    rw [hspace hv] at hd ⊢
    exact h.marked d hd ho

theorem superblock {j : ℕ} (h : Lags v m n) (hl : m.Lawful (.superblock t j)) :
    Lags v (m.superblock t j) (n.superblock t j) := by
  have ht : m.alive t = true := hl.1 t rfl
  have hx := h.exclusive.step hl rfl
  have ha := h.alike.superblock (t := t) (j := j)
  have hcontent : ∀ q, (n.pages q).content ≠ (m.pages q).content → q < m.position := fun q hc =>
    h.exclusive.used q (by simp [(h.behind q hc).owner])
  have heq := superblock_eq j (h.exclusive.isProtected t ht)
  have hspace : (m.superblock t j).spaces v = m.spaces v ∨ v = t := by
    by_cases hv : v = t
    · exact .inr hv
    · exact .inl (superblock_spaces_of_ne hv)
  have hdirty : ((m.superblock t j).spaces v).dirty = (m.spaces v).dirty ∧
      ((m.superblock t j).spaces v).release = (m.spaces v).release := by
    rcases hspace with hs | rfl
    · rw [hs]
      exact ⟨rfl, rfl⟩
    · rw [heq]
      simp
  have haccess : ∀ q, q < m.position →
      ((m.superblock t j).spaces v).access q = (m.spaces v).access q := by
    intro q hq
    rcases hspace with hs | rfl
    · rw [hs]
    · rw [heq]
      simp [show ¬ m.position ≤ q by omega]
  have howner : ∀ q, ((m.superblock t j).pages q).owner = (m.pages q).owner ∨
      (m.position ≤ q ∧ ((m.superblock t j).pages q).owner = .thread t) := by
    intro q
    rw [heq]
    dsimp only
    split
    · rename_i hin
      exact .inr ⟨hin.1, rfl⟩
    · exact .inl rfl
  refine h.frame hx ha (fun q ho => ?_) (fun q hc => ?_) fun d hd ho => ?_
  · have hlive : (m.superblock t j).alive = m.alive := by rw [heq]
    rw [hlive]
    rcases howner q with hq | ⟨-, hq⟩
    · exact h.alive q (hq ▸ ho)
    · obtain rfl := Owner.thread.inj (hq.symm.trans ho)
      exact ht
  · rw [superblock_content, superblock_content] at hc
    have hq := hcontent q hc
    refine ⟨hc, (howner q).resolve_right fun hn => ?_, fun hn => by rwa [superblock_priv], haccess q hq,
      fun d hd _ => ?_⟩
    · omega
    · rw [hdirty.1] at hd
      exact ⟨hd, by rw [hdirty.2]⟩
  · rw [hdirty.1] at hd
    rcases howner d.pageNo with hq | ⟨hq, hot⟩
    · rw [haccess _ (h.exclusive.used _ (by simp [← hq, ho]))]
      exact h.marked d hd (hq ▸ ho)
    · obtain rfl := Owner.thread.inj (hot.symm.trans ho)
      exact absurd (.inl hq) (h.exclusive.not_foreign ht hd)

/-- A commit of another page. -/
theorem undisturbed_commitEntry {d : PageInfo} (h : Lags v m n) (hm : m.commitEntry t k = some m')
    (hd : (m.spaces t).dirty[k]? = some d) (hq : q ≠ d.pageNo) (ho : (m.pages q).owner = .thread v) :
    Undisturbed v m m' q := by
  have hown : (m'.pages q).owner = (m.pages q).owner := by
    rcases Addressed.commitEntry_owner hm q with h' | ⟨-, x, hx, -, rfl⟩
    · exact h'
    · rw [hd] at hx
      obtain rfl := Option.some.inj hx
      exact absurd rfl hq
  refine ⟨hown, fun hn => by rwa [commitEntry_priv hm], commitEntry_access hm (by simp [hown, ho]),
    fun x hx hxq => ?_⟩
  by_cases hv : v = t
  · subst hv
    obtain ⟨d', hc⟩ := commitEntry_space hm
    obtain rfl : d = d' := Option.some.inj (hd.symm.trans hc.getElem)
    rcases ((h.exclusive.tidy v).mem_committed hc).mp hx with rfl | ⟨hx, hne⟩
    · exact absurd hxq.symm hq
    · refine ⟨hx, ?_⟩
      rw [hc.release, Function.update_of_ne]
      intro hslot
      have hxd := List.inj_on_of_nodup_map (h.exclusive.tidy v).slot_nodup hx
        (List.mem_of_getElem? hd) hslot
      exact hne (congrArg _ hxd)
  · have hs := commitEntry_spaces_of_ne hm hv
    rw [hs.dirty] at hx
    exact ⟨hx, by rw [hs.release]⟩

theorem marked_commitEntry (h : Lags v m n) (hm : m.commitEntry t k = some m') :
    ∀ d ∈ (m'.spaces v).dirty, (m'.pages d.pageNo).owner = .thread v →
      (m'.spaces v).access d.pageNo = .write := by
  intro x hx ho
  have hown : (m.pages x.pageNo).owner = .thread v := by
    rcases Addressed.commitEntry_owner hm x.pageNo with h' | ⟨h', -⟩
    · exact h' ▸ ho
    · rw [h'] at ho
      cases ho
  rw [commitEntry_access hm (by simp [ho])]
  by_cases hv : v = t
  · subst hv
    obtain ⟨d, hc⟩ := commitEntry_space hm
    rcases ((h.exclusive.tidy v).mem_committed hc).mp hx with rfl | ⟨hx, -⟩
    · exact h.marked d (List.mem_of_getElem? hc.getElem) hown
    · exact h.marked x hx hown
  · rw [(commitEntry_spaces_of_ne hm hv).dirty] at hx
    exact h.marked x hx hown

/-- A page whose transaction ends was published by its write fault. -/
theorem content_eq_of_listed {d : PageInfo} (h : Lags v m n) (ht : m.alive t = true)
    (hd : d ∈ (m.spaces t).dirty) (hp : d.processed = false) :
    (n.pages d.pageNo).content = (m.pages d.pageNo).content := by
  by_contra hc
  have hb := h.behind _ hc
  by_cases hv : t = v
  · subst hv
    rw [(hb.ended d hd rfl).1] at hp
    cases hp
  · exact h.exclusive.not_foreign ht hd (.inr ⟨v, Ne.symm hv, hb.owner⟩)

theorem commitEntry (h : Lags v m n) (hl : m.Lawful (.commitEntry t k))
    (hs : m.step (.commitEntry t k) = some m') :
    ∃ n', n.eagerStep v (.commitEntry t k) = some n' ∧ Lags v m' n' := by
  have hx := h.exclusive.step hl hs
  have hm : m.commitEntry t k = some m' := hs
  obtain ⟨d, hd⟩ : ∃ d, (m.spaces t).dirty[k]? = some d := by
    obtain ⟨d, hc⟩ := commitEntry_space hm
    exact ⟨d, hc.getElem⟩
  have hpage : ∀ x ∈ (m.spaces t).dirty[k]?, (n.pages x.pageNo).content = (m.pages x.pageNo).content :=
    fun x hx => h.content_eq_of_listed (hl.1 t rfl) (List.mem_of_getElem? hx) (hl.2 x hx)
  obtain ⟨n₁, hn₁, ha⟩ := h.alike.commitEntry hm hpage
  have hcontent := h.alike.commitEntry_content hm hn₁ hpage
  have halive : m'.alive = m.alive := congrArg (fun x => x.2.1) (commitEntry_mail hm)
  have hlive : ∀ p, (m'.pages p).owner = .thread v → m'.alive v = true := by
    intro p ho
    rw [halive]
    rcases Addressed.commitEntry_owner hm p with h' | ⟨h', -⟩
    · exact h.alive p (h' ▸ ho)
    · rw [h'] at ho
      cases ho
  have hother : ∀ q, q ≠ d.pageNo → (n₁.pages q).content ≠ (m'.pages q).content → Behind v m' q := by
    intro q hq hc
    obtain ⟨-, hnq, hmq⟩ := (hcontent q).resolve_left hc
    have hb := h.behind q (by rwa [hnq, hmq] at hc)
    exact hb.undisturbed (h.undisturbed_commitEntry hm hd hq hb.owner)
  have hpub : n.publishes t d ↔ m.publishes t d := by
    rw [publishes, publishes, h.alike.users, h.alike.owner]
  have hstep : n.eagerStep v (.commitEntry t k) = some (if t = v ∧ ¬ m.publishes t d then
      n₁.setPage d.pageNo { n₁.pages d.pageNo with content := n.view t d.pageNo } else n₁) := by
    unfold eagerStep publishEnd
    rw [show n.step (.commitEntry t k) = some n₁ from hn₁, Option.map_some, h.alike.spaces]
    simp only [hd, hpub]
  refine ⟨_, hstep, ?_⟩
  split
  · rename_i hown
    obtain ⟨rfl, hnot⟩ := hown
    obtain ⟨d', hc⟩ := commitEntry_space hm
    obtain rfl : d = d' := Option.some.inj (hd.symm.trans hc.getElem)
    have hup : d.isUpdated = false := (h.exclusive.tidy t).not_updated d (List.mem_of_getElem? hd)
    have hsole : (m.pages d.pageNo).owner = .thread t := by
      by_contra ho
      exact hnot ⟨hup, .inr ho⟩
    refine ⟨hx, ha.setContent _, fun q hcq => ?_, hlive, h.marked_commitEntry hm⟩
    by_cases hq : q = d.pageNo
    · subst hq
      have hkeep : (m'.pages d.pageNo).content = (m.pages d.pageNo).content := by
        obtain ⟨d', b, hd', -, hcm⟩ := Mem.commitEntry_content hm
        obtain rfl : d = d' := Option.some.inj (hd.symm.trans hd')
        rw [hcm, if_neg fun he => hnot he.2]
      rw [setPage_pages_same, hkeep, h.view_eq fun _ => rfl] at hcq
      have howner : (m'.pages d.pageNo).owner = .thread t := by
        rcases Addressed.commitEntry_owner hm d.pageNo with h' | ⟨-, x, hx, hpx, -⟩
        · exact h'.trans hsole
        · obtain rfl : d = x := Option.some.inj (hd.symm.trans hx)
          exact absurd hpx hnot
      refine ⟨howner, fun hn => hcq ?_, ?_, fun x hx hxq => ?_⟩
      · rw [commitEntry_priv hm] at hn
        exact view_of_none hn
      · rw [commitEntry_access hm (by simp [howner])]
        exact h.marked d (List.mem_of_getElem? hd) hsole
      · rcases ((h.exclusive.tidy t).mem_committed hc).mp hx with rfl | ⟨-, hne⟩
        · refine ⟨rfl, ?_⟩
          rw [hc.release, Function.update_self, hup, if_neg Bool.false_ne_true]
          exact decide_eq_false hnot
        · exact absurd hxq hne
    · rw [setPage_pages_of_ne _ _ _ _ hq] at hcq
      exact hother q hq hcq
  · rename_i hown
    refine ⟨hx, ha, fun q hcq => ?_, hlive, h.marked_commitEntry hm⟩
    refine hother q ?_ hcq
    rintro rfl
    exact ((hcontent d.pageNo).resolve_left hcq).1 d hd rfl

theorem step {a : Act} (h : Lags v m n) (hl : m.Lawful a) (hv : a.exits ≠ some v)
    (hs : m.step a = some m') : ∃ n', n.eagerStep v a = some n' ∧ Lags v m' n' := by
  have hcommon : ∀ {n'}, n.step a = some n' → (∀ t k, a ≠ .commitEntry t k) → Lags v m' n' →
      ∃ n', n.eagerStep v a = some n' ∧ Lags v m' n' := by
    intro n' hn ha h'
    refine ⟨n', ?_, h'⟩
    rw [eagerStep, hn, Option.map_some]
    cases a <;> first | rfl | exact absurd rfl (ha _ _)
  have hsp := h.alike.spaces
  cases a with
  | load t a =>
      simp only [Mem.step, Option.ite_none_right_eq_some, Option.some.injEq] at hs
      obtain ⟨hp, rfl⟩ := hs
      exact hcommon (by rw [Mem.step, hsp, if_pos hp]) (by rintro _ _ ⟨⟩) h
  | store t as f =>
      simp only [Mem.step, Option.ite_none_right_eq_some, Option.some.injEq] at hs
      obtain ⟨hw, rfl⟩ := hs
      have hw' : ∀ a ∈ as, n.writable t a.page := by simpa [writable, hsp] using hw
      exact hcommon (by rw [Mem.step, if_pos hw']) (by rintro _ _ ⟨⟩) (h.store hl hw)
  | fault t p =>
      obtain ⟨n', hn, h'⟩ := h.fault hl hs
      simp only [Mem.step, Option.ite_none_right_eq_some] at hs
      have hf : ¬ n.writable t p ∧ (n.spaces t).access p ≠ .none := by
        rw [writable, hsp]
        exact hs.1
      exact hcommon (by rw [Mem.step, if_pos hf, hn]) (by rintro _ _ ⟨⟩) h'
  | notify t p =>
      have hx := h.exclusive.step hl hs
      simp only [Mem.step, Option.ite_none_right_eq_some, Option.some.injEq] at hs
      obtain ⟨hp, rfl⟩ := hs
      exact hcommon (by rw [Mem.step, hsp, if_pos hp]) (by rintro _ _ ⟨⟩) (h.notify hx)
  | mprotectRead t p =>
      have hs' := hs
      simp only [Mem.step, Option.ite_none_right_eq_some, Option.some.injEq] at hs
      obtain ⟨hp, rfl⟩ := hs
      exact hcommon (by rw [Mem.step, hsp, h.alike.owner, if_pos hp]) (by rintro _ _ ⟨⟩)
        (h.mprotectRead hl hs' hp.2)
  | setWord t o w =>
      simp only [Mem.step, Option.ite_none_right_eq_some, Option.some.injEq] at hs
      obtain ⟨hw, rfl⟩ := hs
      have hw' : n.writable t o.page := by rwa [writable, hsp]
      exact hcommon (by rw [Mem.step, if_pos hw']) (by rintro _ _ ⟨⟩) (h.setWord hl hw)
  | memWrite t o w =>
      obtain rfl := Option.some.inj hs
      exact hcommon rfl (by rintro _ _ ⟨⟩) (h.memWrite hl)
  | commitEntry t k => exact h.commitEntry hl hs
  | begin t =>
      obtain rfl := Option.some.inj hs
      exact hcommon rfl (by rintro _ _ ⟨⟩) (h.begin hl)
  | finalcommit t p r =>
      simp only [Mem.step, Option.ite_none_right_eq_some, Option.some.injEq] at hs
      obtain ⟨ho, rfl⟩ := hs
      exact hcommon (by rw [Mem.step, h.alike.owner, if_pos ho]) (by rintro _ _ ⟨⟩) (h.finalcommit ho)
  | superblock t j =>
      obtain rfl := Option.some.inj hs
      exact hcommon rfl (by rintro _ _ ⟨⟩) (h.superblock hl)
  | signal t p =>
      have hx := h.exclusive.step hl hs
      simp only [Mem.step, Option.ite_none_right_eq_some, Option.some.injEq] at hs
      obtain ⟨hp, rfl⟩ := hs
      exact hcommon (by rw [Mem.step, h.alike.signals, if_pos hp]) (by rintro _ _ ⟨⟩)
        (h.signalHandler hx (h.exclusive.queued t (hl.1 t rfl) p hp).2)
  | cleanup =>
      have hx := h.exclusive.step hl hs
      obtain rfl := Option.some.inj hs
      exact hcommon rfl (by rintro _ _ ⟨⟩) (h.frame_of_sameDirty hx h.alike.cleanup rfl (.refl _)
        (fun _ ho => ⟨ho, rfl⟩) fun q hc => ⟨hc, rfl, id⟩)
  | openProtection t => exact hl.2.elim
  | closeProtection t => exact hl.2.elim
  | fork t child =>
      obtain rfl := Option.some.inj hs
      exact hcommon rfl (by rintro _ _ ⟨⟩) (h.fork hl)
  | exit t =>
      have hx := h.exclusive.step hl hs
      obtain rfl := Option.some.inj hs
      have hvt : v ≠ t := fun he => hv (congrArg some he.symm)
      refine hcommon rfl (by rintro _ _ ⟨⟩) (h.frame hx h.alike.exit (fun p ho => ?_)
        (fun q hc => ⟨hc, rfl, id, rfl, fun d hd _ => ⟨hd, rfl⟩⟩) h.marked)
      simpa [Mem.exit, hvt] using h.alive p ho

/-- The machine that publishes takes every run of the code. -/
theorem run {as : List Act} (h : Lags v m n)
    (hr : Run Mem.step (fun m a => m.Lawful a ∧ a.exits ≠ some v) m as m') :
    ∃ n', exec (eagerStep v) n as = some n' ∧ Lags v m' n' := by
  induction hr with
  | nil => exact ⟨n, rfl, h⟩
  | snoc _ hg hs ih =>
      obtain ⟨n₁, hn₁, h₁⟩ := ih
      obtain ⟨n₂, hn₂, h₂⟩ := h₁.step hg.1 hg.2 hs
      exact ⟨n₂, by rw [exec_append, hn₁, Option.bind_some, exec_cons, hn₂]; rfl, h₂⟩

end Lags

/-! ## Cancellation -/

/-- `forceCommitOwnedPages`: the owner is asked for each of its pages. -/
def forceThreadCommit (m : Mem) (r v : Tid) : List Act :=
  ((List.range m.position).filter fun p => (m.pages p).owner = .thread v).map (.notify r)

/-- What `xrun::cancel` does to the memory before the kill. Its `isFound` is set after the test. -/
def cancel (m : Mem) (isHeap : ℕ → Bool) (r v : Tid) : List Act :=
  let isFound := false
  (m.entriesOf r isHeap ++ m.entriesOf r fun p => !isHeap p).map (.commitEntry r) ++
    (if isFound then m.forceThreadCommit r v else []) ++ [.begin r]

/-- The running transaction of `v` has written each page that `v` owns, or the file has the page
as the machine that publishes has it. -/
def Settled (v : Tid) (m n : Mem) : Prop :=
  ∀ p, (m.pages p).owner = .thread v →
    (∃ d ∈ (m.spaces v).dirty, d.pageNo = p ∧ d.processed = false) ∨
      (n.pages p).content = (m.pages p).content

end Mem

open Mem

/-- The part of `Lawful` that a run of these actions has to check. -/
def Mem.Checked (m : Mem) : Act → Prop
  | .commitEntry t k => ∀ d ∈ (m.spaces t).dirty[k]?, d.processed = false
  | .superblock .. | .fault .. | .setWord .. | .begin .. => True
  | _ => False

instance (m : Mem) : DecidablePred m.Checked
  | .commitEntry t k => inferInstanceAs (Decidable (∀ d ∈ (m.spaces t).dirty[k]?, d.processed = false))
  | .superblock .. | .fault .. | .setWord .. | .begin .. => .isTrue trivial
  | .load .. | .store .. | .notify .. | .mprotectRead .. | .memWrite .. | .finalcommit .. => .isFalse id
  | .signal .. | .cleanup | .openProtection .. | .closeProtection .. | .fork .. | .exit .. => .isFalse id

theorem Mem.Checked.lawful {m : Mem} {a : Act} (h : m.Checked a) (ha : m.Acts a) (v : Tid) :
    m.Lawful a ∧ a.exits ≠ some v := by
  cases a <;> first | exact h.elim | exact ⟨⟨ha, h⟩, nofun⟩

end Dthreads.Memory
