import Dthreads.Memory.Users
import Dthreads.Memory.Destroy

/-! # Private copies

A page gets a private copy at its first store. The begin of the next transaction drops the copies of
the pages whose entries have their `release` flag set, and keeps the others. -/

namespace Dthreads.Memory

/-- A protected process can write to the pages of its dirty list. -/
def Space.Listed (s : Space) : Prop :=
  s.isProtected = true → ∀ p, s.prot p = .readWrite → ∃ d ∈ s.dirty, d.pageNo = p

namespace Mem

variable {m m' : Mem} {t u : Tid} {p q k : ℕ} {a : Act}

theorem Listed.of_sameDirty {s s' : Space} (h : s.Listed) (hs : s.SameDirty s') : s'.Listed := by
  intro hp q hq
  rw [hs.dirty]
  exact h (hs.isProtected ▸ hp) q (hs.prot ▸ hq)

theorem listed_step (h : ∀ u, (m.spaces u).Listed) (ht : ∀ u, (m.spaces u).Tidy)
    (hs : m.step a = some m') : ∀ u, (m'.spaces u).Listed := by
  intro u
  cases a with
  | load t a =>
      simp only [step, Option.ite_none_right_eq_some, Option.some.injEq] at hs
      obtain ⟨-, rfl⟩ := hs
      exact h u
  | store t as f =>
      simp only [step, Option.ite_none_right_eq_some, Option.some.injEq] at hs
      obtain ⟨-, rfl⟩ := hs
      exact Listed.of_sameDirty (h u) (storeBytes_sameDirty m t u _ as)
  | fault t p =>
      simp only [step, Option.ite_none_right_eq_some] at hs
      by_cases hu : u = t
      · subst hu
        obtain ⟨e, hf, -⟩ := handleWrite_space hs.2
        intro hp q hq
        by_cases hqp : q = p
        · exact ⟨e, by rw [hf.dirty, Space.mem_insertDirty]; exact .inl rfl, hf.pageNo.trans hqp.symm⟩
        · rw [hf.prot, Function.update_of_ne hqp] at hq
          obtain ⟨d, hd, rfl⟩ := h u (hf.isProtected ▸ hp) q hq
          exact ⟨d, by rw [hf.dirty, Space.mem_insertDirty]; exact .inr hd, rfl⟩
      · rw [handleWrite_spaces_of_ne hs.2 hu]
        exact h u
  | notify t p =>
      simp only [step, Option.ite_none_right_eq_some, Option.some.injEq] at hs
      obtain ⟨-, rfl⟩ := hs
      exact Listed.of_sameDirty (h u) (notifyOwnerToCommit_sameDirty m t u p)
  | mprotectRead t p =>
      simp only [step, Option.ite_none_right_eq_some, Option.some.injEq] at hs
      obtain ⟨-, rfl⟩ := hs
      by_cases hu : u = t
      · subst hu
        intro hp q hq
        by_cases hqp : q = p
        · subst hqp
          simp [mprotectRead, Space.setProt, Space.setAccess] at hq
        · have hq : (m.spaces u).prot q = .readWrite := by
            simpa [mprotectRead, Space.setProt, Space.setAccess, hqp] using hq
          have hp : (m.spaces u).isProtected = true := by
            simpa [mprotectRead, Space.setProt, Space.setAccess] using hp
          simpa [mprotectRead, Space.setProt, Space.setAccess] using h u hp q hq
      · rw [mprotectRead, setSpace_spaces_of_ne _ _ _ _ hu]
        exact h u
  | setWord t o w =>
      simp only [step, Option.ite_none_right_eq_some, Option.some.injEq] at hs
      obtain ⟨-, rfl⟩ := hs
      exact Listed.of_sameDirty (h u) (storeWord_sameDirty m t u _ _ _)
  | memWrite t o w =>
      obtain rfl := Option.some.inj hs
      exact h u
  | commitEntry t k =>
      by_cases hu : u = t
      · subst hu
        obtain ⟨d, hc⟩ := commitEntry_space hs
        intro hp q hq
        obtain ⟨e, he, rfl⟩ := h u (hc.isProtected ▸ hp) q (hc.prot ▸ hq)
        have hpages : (m'.spaces u).dirty.map (·.pageNo) = (m.spaces u).dirty.map (·.pageNo) := by
          rw [hc.dirty]
          exact map_set_of_eq hc.getElem rfl
        have hmem : e.pageNo ∈ (m'.spaces u).dirty.map (·.pageNo) :=
          hpages ▸ List.mem_map.mpr ⟨e, he, rfl⟩
        exact List.mem_map.mp hmem
      · exact Listed.of_sameDirty (h u) (commitEntry_spaces_of_ne hs hu)
  | begin t =>
      obtain rfl := Option.some.inj hs
      by_cases hu : u = t
      · subst hu
        intro hp q hq
        rw [updateAll_prot] at hq
        split at hq
        · cases hq
        · rename_i hn
          rw [updateAll_isProtected] at hp
          obtain ⟨d, hd, rfl⟩ := h u hp q hq
          exact absurd ⟨d, hd, rfl, (ht u).not_updated d hd⟩ hn
      · rw [updateAll_priv_of_ne hu]
        exact h u
  | finalcommit t p r =>
      simp only [step, Option.ite_none_right_eq_some, Option.some.injEq] at hs
      obtain ⟨-, rfl⟩ := hs
      exact Listed.of_sameDirty (h u) (finalcommitPage_sameDirty m t u p r)
  | superblock t n =>
      obtain rfl := Option.some.inj hs
      by_cases hu : u = t
      · subst hu
        unfold superblock setOwnedPage
        dsimp only
        split
        · intro hp q hq
          simp only [Function.update_self] at hp hq ⊢
          split at hq
          · cases hq
          · exact h u hp q hq
        · exact h u
      · rw [superblock_spaces_of_ne hu]
        exact h u
  | signal t p =>
      simp only [step, Option.ite_none_right_eq_some, Option.some.injEq] at hs
      obtain ⟨-, rfl⟩ := hs
      exact Listed.of_sameDirty (h u) (signalHandler_sameDirty m t u p)
  | cleanup =>
      obtain rfl := Option.some.inj hs
      exact h u
  | openProtection t =>
      obtain rfl := Option.some.inj hs
      by_cases hu : u = t
      · subst hu
        intro _ q hq
        simp only [openProtection, Function.update_self] at hq
        split at hq <;> cases hq
      · simp only [openProtection, Function.update_of_ne hu]
        exact h u
  | closeProtection t =>
      obtain rfl := Option.some.inj hs
      by_cases hu : u = t
      · subst hu
        intro hp
        simp [closeProtection] at hp
      · rw [closeProtection, setSpace_spaces_of_ne _ _ _ _ hu]
        exact h u
  | fork t child =>
      obtain rfl := Option.some.inj hs
      by_cases hu : u = child
      · subst hu
        simp only [fork, Function.update_self]
        exact h t
      · simp only [fork, Function.update_of_ne hu]
        exact h u
  | exit t =>
      obtain rfl := Option.some.inj hs
      exact h u

/-- The copies of a process are of its own pages, or will be dropped by the next begin. The flag
counts from the commit of the entry on, and is all that counts `past` the commit. -/
def Kept (m : Mem) (t : Tid) (past : Bool) : Prop :=
  ∀ p, (m.spaces t).priv p ≠ none → (m.pages p).owner = .thread t ∨
    ∃ d ∈ (m.spaces t).dirty, d.pageNo = p ∧
      (past = true ∨ d.processed = true → (m.spaces t).release d.slot = true)

/-! ## The copies of the others -/

/-- A living owner is notified, and keeps its page until it handles the signal. -/
theorem notifyOwnerToCommit_owner (hu : m.alive u = true) (ho : (m.pages q).owner = .thread u) :
    ((m.notifyOwnerToCommit t p).pages q).owner = .thread u := by
  have hshared : (m.pages p).owner ≠ .thread u →
      ((m.setSharedPage t p).pages q).owner = .thread u := by
    intro hp
    have hqp : q ≠ p := by
      rintro rfl
      exact hp ho
    rw [setSharedPage_pages_of_ne hqp, ho]
  unfold notifyOwnerToCommit
  split
  · exact ho
  · rename_i hp
    exact hshared (by simp [hp])
  · rename_i o hp
    split
    · exact ho
    · rename_i hdead
      refine hshared fun hpu => hdead ?_
      obtain rfl := Owner.thread.inj (hp.symm.trans hpu)
      exact hu

theorem superblock_owner {n : ℕ} (hp : m.Partitioned) (ho : (m.pages q).owner = .thread u) :
    ((m.superblock t n).pages q).owner = .thread u := by
  have hlt := hp.used q (by simp [ho])
  unfold superblock setOwnedPage
  dsimp only
  split
  · simp only [show ¬ (m.position ≤ q ∧ q < m.position + n) by omega, if_false, ho]
  · exact ho

/-- A step of another process leaves a living process its copies and its pages. -/
theorem copies_of_actor_ne (hp : m.Partitioned) (hl : m.Proper a) (hs : m.step a = some m')
    (hu : m.alive u = true) (hne : ∀ t ∈ a.actor, u ≠ t) (hopen : ∀ t, a ≠ .openProtection t)
    (hfork : ∀ t, a ≠ .fork t u) :
    (m'.spaces u).priv = (m.spaces u).priv ∧
      ∀ q, (m.pages q).owner = .thread u → (m'.pages q).owner = .thread u := by
  cases a with
  | load t a =>
      simp only [step, Option.ite_none_right_eq_some, Option.some.injEq] at hs
      obtain ⟨-, rfl⟩ := hs
      exact ⟨rfl, fun _ h => h⟩
  | store t as f =>
      simp only [step, Option.ite_none_right_eq_some, Option.some.injEq] at hs
      obtain ⟨-, rfl⟩ := hs
      exact ⟨funext fun q => storeBytes_priv fun _ _ => .inr (hne t rfl),
        fun q hq => (congrArg Table.owner (storeBytes_table (q := q) _ as)).trans hq⟩
  | fault t p =>
      simp only [step, Option.ite_none_right_eq_some] at hs
      refine ⟨by rw [handleWrite_priv hs.2], fun q hq => ?_⟩
      have ht := congrArg Table.owner (handleWrite_table (q := q) hs.2)
      rw [table_owner] at ht
      split at ht <;> exact ht.trans hq
  | notify t p =>
      simp only [step, Option.ite_none_right_eq_some, Option.some.injEq] at hs
      obtain ⟨-, rfl⟩ := hs
      exact ⟨by rw [notifyOwnerToCommit_priv], fun q => notifyOwnerToCommit_owner hu⟩
  | mprotectRead t p =>
      simp only [step, Option.ite_none_right_eq_some, Option.some.injEq] at hs
      obtain ⟨-, rfl⟩ := hs
      exact ⟨by rw [mprotectRead_priv], fun _ h => h⟩
  | setWord t o w =>
      simp only [step, Option.ite_none_right_eq_some, Option.some.injEq] at hs
      obtain ⟨-, rfl⟩ := hs
      refine ⟨funext fun q => ?_,
        fun q hq => (congrArg Table.owner (storeWord_table (q := q) _ w)).trans hq⟩
      rw [storeWord_priv, if_neg fun hc => hne t rfl hc.1]
  | memWrite t o w =>
      obtain rfl := Option.some.inj hs
      exact ⟨rfl, fun q hq => (congrArg Table.owner (memWrite_table (q := q) o w)).trans hq⟩
  | commitEntry t k =>
      refine ⟨by rw [commitEntry_priv hs], fun q hq => ?_⟩
      rcases Addressed.commitEntry_owner hs q with ho | ⟨-, d, hd, -, rfl⟩
      · exact ho.trans hq
      · have haccess := (hp.tidy t).accessible d (List.mem_of_getElem? hd)
        exact absurd (hp.owner_eq (hl.1 t rfl) haccess hq) (hne t rfl)
  | begin t =>
      obtain rfl := Option.some.inj hs
      exact ⟨by rw [updateAll_priv_of_ne (hne t rfl)], fun _ h => h⟩
  | finalcommit t p r =>
      simp only [step, Option.ite_none_right_eq_some, Option.some.injEq] at hs
      obtain ⟨ho, rfl⟩ := hs
      refine ⟨funext fun q => ?_, fun q hq => ?_⟩
      · rw [finalcommitPage_priv, if_neg fun hc => hne t rfl hc.2.1]
      · have hqp : q ≠ p := by
          rintro rfl
          exact hne t rfl (Owner.thread.inj (hq.symm.trans ho))
        exact (congrArg Table.owner (finalcommitPage_table r hqp)).trans hq
  | superblock t n =>
      obtain rfl := Option.some.inj hs
      exact ⟨by rw [superblock_priv], fun q => superblock_owner hp⟩
  | signal t p =>
      simp only [step, Option.ite_none_right_eq_some, Option.some.injEq] at hs
      obtain ⟨hmem, rfl⟩ := hs
      refine ⟨funext fun q => ?_, fun q hq => ?_⟩
      · rw [signalHandler_priv, if_neg fun hc => hne t rfl hc.1]
      · have hqp : q ≠ p := by
          rintro rfl
          exact hne t rfl ((hp.queued t q hmem).2 u hq)
        exact (congrArg Table.owner (signalHandler_table hqp)).trans hq
  | cleanup =>
      obtain rfl := Option.some.inj hs
      exact ⟨rfl, fun _ h => h⟩
  | openProtection t => exact absurd rfl (hopen t)
  | closeProtection t =>
      obtain rfl := Option.some.inj hs
      exact ⟨by simp [closeProtection, hne t rfl], fun _ h => h⟩
  | fork t child =>
      obtain rfl := Option.some.inj hs
      have huc : u ≠ child := by
        rintro rfl
        exact hfork t rfl
      exact ⟨by simp [fork, huc], fun _ h => h⟩
  | exit t =>
      obtain rfl := Option.some.inj hs
      exact ⟨rfl, fun _ h => h⟩

namespace Kept

variable {past : Bool}

/-- The process has no new copy and keeps its pages and its entries. -/
theorem frame (h : Kept m t past)
    (hpriv : ∀ q, (m'.spaces t).priv q ≠ none → (m.spaces t).priv q ≠ none)
    (howner : ∀ q, (m.spaces t).priv q ≠ none → (m'.spaces t).priv q ≠ none →
      (m.pages q).owner = .thread t → (m'.pages q).owner = .thread t)
    (hdirty : ∀ d ∈ (m.spaces t).dirty, d ∈ (m'.spaces t).dirty)
    (hrelease : (m'.spaces t).release = (m.spaces t).release) : Kept m' t past := by
  intro q hq
  rcases h q (hpriv q hq) with ho | ⟨d, hd, hdq, hflag⟩
  · exact .inl (howner q (hpriv q hq) hq ho)
  · exact .inr ⟨d, hdirty d hd, hdq, by rw [hrelease]; exact hflag⟩

theorem of_actor_ne (h : Kept m u past) (hp : m.Partitioned) (hl : m.Proper a)
    (hs : m.step a = some m') (hu : m.alive u = true) (hne : ∀ t ∈ a.actor, u ≠ t)
    (hopen : ∀ t, a ≠ .openProtection t) (hfork : ∀ t, a ≠ .fork t u) : Kept m' u past := by
  have hconcerns : a.concerns ≠ some u := by
    intro hc
    cases a with
    | fork t child => exact hfork t (congrArg (Act.fork t) (Option.some.inj hc))
    | fault t | commitEntry t | begin t | superblock t | openProtection t | closeProtection t
    | exit t => exact hne t rfl (Option.some.inj hc).symm
    | _ => cases hc
  obtain ⟨hpriv, howner⟩ := copies_of_actor_ne hp hl hs hu hne hopen hfork
  have hb := bystander hs hconcerns
  exact h.frame (fun q => by rw [hpriv]; exact id) (fun q _ _ => howner q)
    (fun d hd => by rw [hb.dirty]; exact hd) hb.release

/-- The dirty list is not touched, and the owned pages with a copy are kept. -/
theorem frame_sameDirty (h : Kept m t past) (hs : (m.spaces t).SameDirty (m'.spaces t))
    (hpriv : ∀ q, (m'.spaces t).priv q ≠ none → (m.spaces t).priv q ≠ none)
    (howner : ∀ q, (m'.spaces t).priv q ≠ none →
      (m.pages q).owner = .thread t → (m'.pages q).owner = .thread t) : Kept m' t past :=
  h.frame hpriv (fun q _ => howner q) (fun d hd => by rw [hs.dirty]; exact hd) hs.release

/-- A store makes copies of the pages it goes to. -/
theorem stored (h : Kept m t past) (hs : (m.spaces t).SameDirty (m'.spaces t))
    (howner : ∀ q, (m'.pages q).owner = (m.pages q).owner)
    (hpriv : ∀ q, (m'.spaces t).priv q ≠ none → (m.spaces t).priv q ≠ none ∨
      (m.pages q).owner = .thread t ∨ ∃ d ∈ (m.spaces t).dirty, d.pageNo = q ∧
        (past = true ∨ d.processed = true → (m.spaces t).release d.slot = true)) :
    Kept m' t past := by
  intro q hq
  rw [howner, hs.dirty, hs.release]
  rcases hpriv q hq with hq | hq
  · exact h q hq
  · exact hq

theorem storeWord {i : Fin 512} {w : Word} (h : Kept m t past)
    (hp : (m.spaces t).isProtected = true → (m.pages p).owner = .thread t ∨
      ∃ d ∈ (m.spaces t).dirty, d.pageNo = p ∧
        (past = true ∨ d.processed = true → (m.spaces t).release d.slot = true)) :
    Kept (m.storeWord t p i w) t past := by
  refine h.stored (storeWord_sameDirty m t t p i w)
    (fun q => congrArg Table.owner (storeWord_table (q := q) i w)) fun q hq => ?_
  rw [storeWord_priv] at hq
  split at hq
  · rename_i hc
    obtain ⟨-, rfl, hprot⟩ := hc
    exact .inr (hp hprot)
  · exact .inl hq

/-- A store of the program goes to pages whose entries wait for the commit. -/
theorem storeBytes {val : Addr → Byte} {as : List Addr} (h : Kept m t false)
    (hl : (m.spaces t).Listed) (hw : ∀ d ∈ (m.spaces t).dirty, d.processed = false)
    (ha : ∀ b ∈ as, m.writable t b.page) : Kept (m.storeBytes t val as) t false := by
  refine h.stored (storeBytes_sameDirty m t t val as)
    (fun q => congrArg Table.owner (storeBytes_table (q := q) val as)) fun q hq => ?_
  by_cases hmem : ∃ b ∈ as, b.page = q
  · obtain ⟨b, hb, rfl⟩ := hmem
    cases hprot : (m.spaces t).isProtected with
    | false =>
        rw [storeBytes_unprotected hprot] at hq
        exact .inl hq
    | true =>
        obtain ⟨d, hd, hdb⟩ := hl hprot b.page (ha b hb)
        exact .inr (.inr ⟨d, hd, hdb, by simp [hw d hd]⟩)
  · rw [storeBytes_priv fun b hb => .inl fun he => hmem ⟨b, hb, he⟩] at hq
    exact .inl hq

theorem fault (h : Kept m t past) (hs : m.handleWrite t p = some m') : Kept m' t past := by
  obtain ⟨e, hf, -⟩ := handleWrite_space hs
  refine h.frame (fun q => by rw [handleWrite_priv hs]; exact id) (fun q _ _ ho => ?_)
    (fun d hd => by rw [hf.dirty, Space.mem_insertDirty]; exact .inr hd) hf.release
  have ht := congrArg Table.owner (handleWrite_table (q := q) hs)
  rw [table_owner] at ht
  split at ht <;> exact ht.trans ho

/-- The commit sets the flag of a page it publishes; a page it leaves alone is its owner's. -/
theorem commitEntry (h : Kept m t false) (htidy : (m.spaces t).Tidy)
    (hs : m.commitEntry t k = some m') : Kept m' t false := by
  obtain ⟨d, hc⟩ := commitEntry_space hs
  have hdmem := List.mem_of_getElem? hc.getElem
  have hup : d.isUpdated = false := htidy.not_updated d hdmem
  have hrelease := hc.release
  rw [hup, if_neg Bool.false_ne_true] at hrelease
  have howner : ∀ q, q ≠ d.pageNo → (m'.pages q).owner = (m.pages q).owner := by
    intro q hq
    rcases Addressed.commitEntry_owner hs q with ho | ⟨-, e, he, -, heq⟩
    · exact ho
    · obtain rfl : d = e := Option.some.inj (hc.getElem.symm.trans he)
      exact absurd heq.symm hq
  intro q hq
  rw [commitEntry_priv hs] at hq
  by_cases hqd : q = d.pageNo
  · subst hqd
    by_cases hpub : m.publishes t d
    · refine .inr ⟨_, (htidy.mem_committed hc).mpr (.inl rfl), rfl, fun _ => ?_⟩
      rw [hrelease]
      simp [hpub]
    · have ho : (m.pages d.pageNo).owner = .thread t := by
        by_contra ho
        exact hpub ⟨hup, .inr ho⟩
      rcases Addressed.commitEntry_owner hs d.pageNo with ho' | ⟨-, e, he, hpub', -⟩
      · exact .inl (ho'.trans ho)
      · obtain rfl : d = e := Option.some.inj (hc.getElem.symm.trans he)
        exact absurd hpub' hpub
  · rcases h q hq with ho | ⟨e, he, rfl, hflag⟩
    · exact .inl ((howner q hqd).trans ho)
    · refine .inr ⟨e, (htidy.mem_committed hc).mpr (.inr ⟨he, hqd⟩), rfl, fun hpast => ?_⟩
      have hslot : e.slot ≠ d.slot := by
        intro hslot
        have := List.inj_on_of_nodup_map htidy.slot_nodup he hdmem hslot
        exact hqd (congrArg PageInfo.pageNo this)
      rw [hrelease, Function.update_of_ne hslot]
      exact hflag hpast

/-- After the begin only owned pages have copies. -/
theorem begin (h : Kept m t true) (htidy : (m.spaces t).Tidy) (past : Bool) :
    Kept (m.updateAll t) t past := by
  intro q hq
  by_cases hr : m.released t q
  · exact absurd (updateAll_priv_of_released hr) hq
  · rw [updateAll_priv_of_not_released hr] at hq
    rcases h q hq with ho | ⟨d, hd, hdq, hflag⟩
    · exact .inl ho
    · exact absurd ⟨d, hd, hdq, htidy.not_updated d hd, hflag (.inl rfl)⟩ hr

theorem finalcommit (h : Kept m t past) (p : ℕ) : Kept (m.finalcommitPage t p true) t past := by
  refine h.frame_sameDirty (finalcommitPage_sameDirty m t t p true) (fun q hq => ?_)
    fun q hq ho => ?_
  · rw [finalcommitPage_priv] at hq
    split at hq
    · exact absurd rfl hq
    · exact hq
  · have hqp : q ≠ p := by
      rintro rfl
      rw [finalcommitPage_priv, if_pos ⟨rfl, rfl, rfl⟩] at hq
      exact hq rfl
    exact (congrArg Table.owner (finalcommitPage_table true hqp)).trans ho

theorem signal (h : Kept m t past) (p : ℕ) : Kept (m.signalHandler t p) t past := by
  refine h.frame_sameDirty (signalHandler_sameDirty m t t p) (fun q hq => ?_) fun q hq ho => ?_
  · rw [signalHandler_priv] at hq
    split at hq
    · exact absurd rfl hq
    · exact hq
  · have hqp : q ≠ p := by
      rintro rfl
      rw [signalHandler_priv, if_pos ⟨rfl, rfl⟩] at hq
      exact hq rfl
    exact (congrArg Table.owner (signalHandler_table hqp)).trans ho

theorem notify (h : Kept m t past) (ht : m.alive t = true) (p : ℕ) :
    Kept (m.notifyOwnerToCommit t p) t past :=
  h.frame_sameDirty (notifyOwnerToCommit_sameDirty m t t p)
    (fun q => by rw [notifyOwnerToCommit_priv]; exact id)
    fun q _ => notifyOwnerToCommit_owner ht

theorem mprotectRead (h : Kept m t past) (p : ℕ) : Kept (m.mprotectRead t p) t past :=
  h.frame (fun q => by rw [mprotectRead_priv]; exact id) (fun _ _ _ ho => ho)
    (fun d hd => by simpa [Mem.mprotectRead, Space.setProt, Space.setAccess] using hd)
    (by simp [Mem.mprotectRead, Space.setProt, Space.setAccess])

theorem memWrite (h : Kept m t past) (o : SyncAddr) (w : Word) : Kept (m.memWrite o w) t past :=
  h.frame (fun _ => id)
    (fun q _ _ ho => (congrArg Table.owner (memWrite_table (q := q) o w)).trans ho)
    (fun _ => id) rfl

theorem superblock (h : Kept m t past) (hp : m.Partitioned) (n : ℕ) :
    Kept (m.superblock t n) t past := by
  refine h.frame (fun q => by rw [superblock_priv]; exact id)
    (fun q _ _ => superblock_owner hp) (fun d hd => ?_) ?_
  · unfold Mem.superblock setOwnedPage
    dsimp only
    split
    · simpa using hd
    · exact hd
  · unfold Mem.superblock setOwnedPage
    dsimp only
    split
    · simp
    · rfl

theorem of_none (h : ∀ q, (m.spaces t).priv q = none) : Kept m t past :=
  fun q hq => absurd (h q) hq

/-- Once every entry is committed, only the flags count. -/
theorem of_processed (h : Kept m t false) (hd : ∀ d ∈ (m.spaces t).dirty, d.processed = true) :
    Kept m t past := by
  intro q hq
  rcases h q hq with ho | ⟨d, hmem, hdq, hflag⟩
  · exact .inl ho
  · exact .inr ⟨d, hmem, hdq, fun _ => hflag (.inr (hd d hmem))⟩

/-- The child has the copies of its parent, which owns nothing. -/
theorem fork {child : Tid} (h : Kept m t past) (hnone : ∀ q, (m.pages q).owner ≠ .thread t) :
    Kept (m.fork t child) child past := by
  intro q hq
  simp only [Mem.fork, Function.update_self] at hq ⊢
  rcases h q hq with ho | hd
  · exact absurd ho (hnone q)
  · exact .inr hd

end Kept

end Mem

/-- The process sees the shared content of every page that it does not own, and has no copy of it. -/
structure Mem.Coherent (m : Mem) (t : Tid) : Prop where
  view : ∀ p, (m.pages p).owner ≠ .thread t → m.view t p = (m.pages p).content
  priv : ∀ p, (m.pages p).owner ≠ .thread t → (m.spaces t).priv p = none

/-- With no entry left, the copies are of owned pages. -/
theorem Mem.Kept.coherent {m : Mem} {t : Tid} {past : Bool} (h : m.Kept t past)
    (hd : (m.spaces t).dirty = []) : m.Coherent t := by
  have hpriv : ∀ p, (m.pages p).owner ≠ .thread t → (m.spaces t).priv p = none := by
    intro p ho
    by_contra hq
    rcases h p hq with ho' | ⟨d, hmem, -⟩
    · exact ho ho'
    · simp [hd] at hmem
  exact ⟨fun p ho => Mem.view_of_none (hpriv p ho), hpriv⟩

instance (m : Mem) (t : Tid) (p : ℕ) : Decidable (m.released t p) :=
  inferInstanceAs (Decidable (∃ e ∈ (m.spaces t).dirty,
    e.pageNo = p ∧ e.isUpdated = false ∧ (m.spaces t).release e.slot = true))

/-! ## Runs -/

/-- The script comes to a begin before it comes to a commit. -/
def Phase.forgets : List Phase → Bool
  | [] => false
  | .begin :: _ => true
  | .commit :: _ | .entries _ :: _ => false
  | _ :: rest => forgets rest

/-- A thread that has committed and does not leave comes to a begin. -/
theorem Mode.forgets_of_fits {md : Mode} {rest : List Phase} (hfits : md.fits rest = true)
    (hl : md.leaving = false) (hs : md.stage = .committed) : Phase.forgets rest = true := by
  induction rest generalizing md with
  | nil => simp [Mode.fits, hs] at hfits
  | cons ph rest ih =>
      obtain ⟨md', hafter, hrest⟩ := Mode.fits_cons.mp hfits
      obtain ⟨stage, r, g, l⟩ := md
      obtain rfl : l = false := hl
      obtain rfl : stage = .committed := hs
      cases ph with
      | begin => rfl
      | finalcommit release =>
          cases release with
          | false => simp [Mode.after] at hafter
          | true =>
              obtain rfl : _ = md' := by simpa [Mode.after] using hafter
              exact ih hrest rfl rfl
      | condInit | memWrite | cleanup | await | result =>
          obtain rfl : _ = md' := by simpa [Mode.after] using hafter
          exact ih hrest rfl rfl
      | clone child =>
          cases r <;> cases g <;> simp [Mode.after] at hafter
          subst hafter
          exact ih hrest rfl rfl
      | _ => simp [Mode.after] at hafter

/-- The last phases of a script. -/
theorem Mode.last {md md' : Mode} {ph : Phase} (hafter : md.after ph = some md')
    (hfits : md'.fits [] = true) : ph = .begin ∨ ph = .closeProtection ∨ ph = .exit := by
  unfold Mode.after at hafter
  split at hafter
  case h_2 => exact .inl rfl
  case h_14 => exact .inr (.inl rfl)
  case h_17 => exact .inr (.inr rfl)
  case h_5 =>
      obtain ⟨-, hmd⟩ := Option.ite_none_right_eq_some.mp hafter
      obtain rfl := Option.some.inj hmd
      simp [Mode.fits] at hfits
  case h_18 => cases hafter
  all_goals
    obtain rfl := Option.some.inj hafter
    simp [Mode.fits] at hfits

namespace Runtime

variable {isHeap : ℕ → Bool} {s s' : Runtime} {t u : Tid} {m' : Mem} {ph : Phase}
  {rest : List Phase} {a : Act}

/-- A thread that goes on after its call. -/
def Returns (s : Runtime) (t : Tid) : Prop := s.exited t = false ∧ Phase.exit ∉ s.todo t

/-- Copies are of owned pages, or will be dropped. -/
structure Copied (s : Runtime) : Prop where
  staged : Staged False s
  mapped : s.mem.Mapped
  listed : ∀ u, (s.mem.spaces u).Listed
  kept : ∀ t ∈ s.threads, s.Returns t → s.mem.Kept t (Phase.forgets (s.todo t))

/-- What a process keeps of its own stores to protected memory, between the commit and the begin:
nothing, unless it owns the page. -/
def StoresDropped (s : Runtime) : Event → Prop
  | .next t => ∀ p ∈ s.target t, (s.mem.pages p).owner = .thread t ∨ s.mem.released t p
  | _ => True

instance (s : Runtime) : (e : Event) → Decidable (StoresDropped s e)
  | .next t => inferInstanceAs
      (Decidable (∀ p ∈ s.target t, (s.mem.pages p).owner = .thread t ∨ s.mem.released t p))
  | .user .. | .call .. | .fault .. | .signal .. => .isTrue trivial

/-- The step of `t` ends a begin, or its call. -/
def Begins (s : Runtime) (t : Tid) (s' : Runtime) : Prop :=
  (∃ rest, s.todo t = .begin :: rest) ∨ (s'.todo t = [] ∧ s'.exited t = false)

namespace Copied

theorem alive (h : Copied s) (ht : t ∈ s.threads) (hr : s.exited t = false) :
    s.mem.alive t = true := by
  obtain ⟨md, hmd, -⟩ := h.staged.modes t ht
  rw [hmd.alive]
  intro hg
  exact Bool.false_ne_true (hr.symm.trans (hmd.exited.mpr (.inr hg)))

/-- Process `t` takes an action. -/
theorem acted (h : Copied s) (hstaged : Staged False s') (hthreads : s'.threads = s.threads)
    (htodo : ∀ u, u ≠ t → s'.todo u = s.todo u) (hexited : ∀ u, u ≠ t → s'.exited u = s.exited u)
    (ha : s.mem.Proper a) (hs : s.mem.step a = some s'.mem) (hactor : ∀ v ∈ a.actor, v = t)
    (hfork : ∀ v c, a ≠ .fork v c)
    (hopen : ∀ v, a = .openProtection v → ∀ u ∈ s.threads, u ≠ t → s.exited u = true)
    (hown : t ∈ s.threads → s'.Returns t → s'.mem.Kept t (Phase.forgets (s'.todo t))) :
    Copied s' where
  staged := hstaged
  mapped := Mem.step_mapped h.mapped hs
  listed := Mem.listed_step h.listed h.staged.partitioned.tidy hs
  kept u hu hr := by
    rw [hthreads] at hu
    by_cases hut : u = t
    · subst hut
      exact hown hu hr
    · have hr' : s.Returns u := by
        rw [Returns, ← hexited u hut, ← htodo u hut]
        exact hr
      rw [htodo u hut]
      refine (h.kept u hu hr').of_actor_ne h.staged.partitioned ha hs (h.alive hu hr'.1)
        (fun v hv he => hut (he.trans (hactor v hv))) (fun v hv => ?_) fun v => hfork v u
      exact Bool.false_ne_true (hr'.1.symm.trans (hopen v hv u hu hut))

/-- Process `t` goes on in its script. -/
theorem turned (h : Copied s) (hstaged : Staged False s') (hmem : s'.mem = s.mem)
    (hthreads : s'.threads = s.threads) (htodo : ∀ u, u ≠ t → s'.todo u = s.todo u)
    (hexited : ∀ u, u ≠ t → s'.exited u = s.exited u)
    (hown : t ∈ s.threads → s'.Returns t → s.mem.Kept t (Phase.forgets (s'.todo t))) :
    Copied s' where
  staged := hstaged
  mapped := hmem ▸ h.mapped
  listed := hmem ▸ h.listed
  kept u hu hr := by
    rw [hthreads] at hu
    rw [hmem]
    by_cases hut : u = t
    · subst hut
      exact hown hu hr
    · rw [htodo u hut]
      refine h.kept u hu ?_
      rw [Returns, ← hexited u hut, ← htodo u hut]
      exact hr

/-- The program's own code makes copies of pages whose entries wait for the commit. -/
theorem kept_of_allows (h : s.mem.Kept t false) (hp : s.mem.Partitioned)
    (hl : (s.mem.spaces t).Listed) (ht : s.mem.alive t = true)
    (hw : ∀ d ∈ (s.mem.spaces t).dirty, d.processed = false) (ha : s.mem.allows t a = true)
    (hs : s.mem.step a = some m') : m'.Kept t false := by
  cases a with
  | load u a =>
      simp only [Mem.step, Option.ite_none_right_eq_some, Option.some.injEq] at hs
      obtain ⟨-, rfl⟩ := hs
      exact h
  | store u as f =>
      obtain rfl : u = t := by simpa [Mem.allows] using ha
      simp only [Mem.step, Option.ite_none_right_eq_some, Option.some.injEq] at hs
      obtain ⟨hwrite, rfl⟩ := hs
      exact h.storeBytes hl hw hwrite
  | fault u p =>
      obtain rfl : u = t := by simpa [Mem.allows] using ha
      simp only [Mem.step, Option.ite_none_right_eq_some] at hs
      exact h.fault hs.2
  | notify u p =>
      obtain ⟨rfl, -⟩ : u = t ∧ _ := by simpa [Mem.allows] using ha
      simp only [Mem.step, Option.ite_none_right_eq_some, Option.some.injEq] at hs
      obtain ⟨-, rfl⟩ := hs
      exact h.notify ht p
  | mprotectRead u p =>
      obtain rfl : u = t := by simpa [Mem.allows] using ha
      simp only [Mem.step, Option.ite_none_right_eq_some, Option.some.injEq] at hs
      obtain ⟨-, rfl⟩ := hs
      exact h.mprotectRead p
  | setWord u o w =>
      obtain rfl : u = t := by simpa [Mem.allows] using ha
      simp only [Mem.step, Option.ite_none_right_eq_some, Option.some.injEq] at hs
      obtain ⟨hwrite, rfl⟩ := hs
      refine h.storeWord fun hprot => ?_
      obtain ⟨d, hd, hdo⟩ := hl hprot o.page hwrite
      exact .inr ⟨d, hd, hdo, by simp [hw d hd]⟩
  | memWrite u o w =>
      obtain rfl := Option.some.inj hs
      exact h.memWrite o w
  | superblock u n =>
      obtain rfl : u = t := by simpa [Mem.allows] using ha
      obtain rfl := Option.some.inj hs
      exact h.superblock hp n
  | _ => simp [Mem.allows] at ha

/-- The store of a script goes to a page whose copy is not kept. -/
theorem kept_of_target {p : ℕ} {i : Fin 512} {w : Word} {past : Bool} (h : s.mem.Kept t past)
    (hg : StoresDropped s (.next t)) (ht : s.target t = some p) :
    (s.mem.storeWord t p i w).Kept t past := by
  apply h.storeWord
  intro _
  rcases hg p ht with ho | ⟨d, hd, hdp, -, hr⟩
  · exact .inl ho
  · exact .inr ⟨d, hd, hdp, fun _ => hr⟩

theorem call {op : Op} (h : Copied s) (hx : s.exited t = false) (htodo : s.todo t = [])
    (hstaged : Staged False (s.advance t s.mem (op.script (s.mem.spaces t).isProtected))) :
    Copied (s.advance t s.mem (op.script (s.mem.spaces t).isProtected)) := by
  refine h.turned (t := t) hstaged rfl rfl (fun u hu => by simp [advance, hu]) (fun _ _ => rfl)
    fun ht _ => ?_
  have hold : s.mem.Kept t false := by
    simpa [htodo, Phase.forgets] using h.kept t ht ⟨hx, by simp [htodo]⟩
  cases hp : (s.mem.spaces t).isProtected with
  | false => exact .of_none (h.mapped t hp)
  | true =>
      have hforgets : Phase.forgets (op.script true) = false := by
        cases op <;> simp [Op.script, Phase.forgets]
      simpa [advance, hforgets] using hold

/-- The child begins with the copies of its parent, and drops them with it. -/
theorem clone {child : Tid} (h : Copied s) (htodo : s.todo t = .clone child :: rest)
    (hfresh : child ∉ s.threads)
    (hstaged : Staged False
      { mem := s.mem.fork t child
        threads := s.threads ++ [child]
        todo := Function.update (Function.update s.todo t rest) child [.begin]
        exited := Function.update s.exited child false
        retval := Function.update s.retval child fun _ => 0
        stack := s.stack }) :
    Copied
      { mem := s.mem.fork t child
        threads := s.threads ++ [child]
        todo := Function.update (Function.update s.todo t rest) child [.begin]
        exited := Function.update s.exited child false
        retval := Function.update s.retval child fun _ => 0
        stack := s.stack } := by
  obtain ⟨md, md', hmd, hafter, hfits⟩ := h.staged.mode_of_todo htodo
  have ht := h.staged.of_mem_todo htodo
  obtain ⟨rfl, rfl⟩ : md = ⟨.committed, true, true, false⟩ ∧ md' = ⟨.committed, true, true, false⟩ := by
    obtain ⟨stage, r, g, l⟩ := md
    cases stage <;> cases r <;> cases g <;> cases l <;> simp_all [Mode.after]
  have hrest : Phase.forgets rest = true := Mode.forgets_of_fits hfits rfl rfl
  have hx : s.exited t = false := by simpa using hmd.exited
  have hexit : Phase.exit ∉ rest := Mode.not_exit_of_fits hfits rfl (by simp) (by simp)
  have hdead : s.mem.alive child = false := by
    by_contra hn
    exact hfresh (h.staged.alive child (by simpa using hn))
  have hnone : ∀ q, (s.mem.pages q).owner ≠ .thread t := hmd.released rfl
  have hproper : s.mem.Proper (.fork t child) :=
    ⟨Staged.acts hmd (by simp) (by simp [Act.actor]), hdead, hnone⟩
  have hkept : s.mem.Kept t true := by
    have hold := h.kept t ht ⟨hx, by simp [htodo, hexit]⟩
    rwa [htodo, show Phase.forgets (.clone child :: rest) = true from hrest] at hold
  refine ⟨hstaged, Mem.step_mapped (a := .fork t child) h.mapped rfl,
    Mem.listed_step (a := .fork t child) h.listed h.staged.partitioned.tidy rfl, fun u hu hr => ?_⟩
  by_cases huc : u = child
  · subst huc
    simpa [Phase.forgets] using hkept.fork hnone
  · have hmem : u ∈ s.threads := by simpa [huc] using hu
    by_cases hut : u = t
    · subst hut
      simp only [Function.update_of_ne huc, Function.update_self, hrest]
      exact hkept.frame (fun q => by simp [Mem.fork, huc]) (fun _ _ _ ho => ho)
        (fun d => by simp [Mem.fork, huc]) (by simp [Mem.fork, huc])
    · have hr' : s.Returns u := by simpa [Returns, huc, hut] using hr
      have hold := (h.kept u hmem hr').of_actor_ne h.staged.partitioned hproper rfl
        (h.alive hmem hr'.1) (by simpa [Act.actor] using hut) (by simp) (by simp [Ne.symm huc])
      simpa [huc, hut] using hold

/-- A thread that stores its result has deregistered. -/
theorem exited_of_after {md md' : Mode} (hmd : md.Holds False s t) (hafter : md.after ph = some md')
    (hph : (∃ x, ph = .retval x) ∨ ph = .exit) : s.exited t = true := by
  obtain ⟨stage, r, g, l⟩ := md
  apply hmd.exited.mpr
  obtain ⟨x, rfl⟩ | rfl := hph <;> cases stage <;> simp_all [Mode.after]

/-- What a thread had before a phase that is not its last. -/
theorem before {m : Mem} {l : List Phase} (h : Copied s) (htodo : s.todo t = ph :: rest)
    (hph : ph ≠ .exit) (hl : Phase.exit ∉ l → Phase.exit ∉ rest) (hr : (s.advance t m l).Returns t) :
    s.mem.Kept t (Phase.forgets (ph :: rest)) := by
  obtain ⟨hx, hexit⟩ := hr
  have hrest : Phase.exit ∉ rest := hl (by simpa [advance] using hexit)
  rw [← htodo]
  exact h.kept t (h.staged.of_mem_todo htodo) ⟨hx, by simp [htodo, Ne.symm hph, hrest]⟩

/-- A phase that leaves the memory alone. -/
theorem passed {l : List Phase} (h : Copied s) (hstaged : Staged False (s.advance t s.mem l))
    (htodo : s.todo t = ph :: rest) (hph : ph ≠ .exit) (hl : Phase.exit ∉ l → Phase.exit ∉ rest)
    (hneutral : Phase.forgets (ph :: rest) = Phase.forgets l) : Copied (s.advance t s.mem l) := by
  refine h.turned (t := t) hstaged rfl rfl (fun u hu => by simp [advance, hu]) (fun _ _ => rfl)
    fun _ hr => ?_
  have hold := h.before htodo hph hl hr
  rw [hneutral] at hold
  simpa [advance] using hold

/-- A phase that acts on the memory. -/
theorem worked {l : List Phase} (h : Copied s) (hstaged : Staged False (s.advance t m' l))
    (ha : s.mem.Proper a) (hs : s.mem.step a = some m') (hactor : ∀ v ∈ a.actor, v = t)
    (hfork : ∀ v c, a ≠ .fork v c) (hopen : ∀ v, a ≠ .openProtection v)
    (hown : (s.advance t m' l).Returns t → m'.Kept t (Phase.forgets l)) :
    Copied (s.advance t m' l) := by
  refine h.acted hstaged rfl (fun u hu => by simp [advance, hu]) (fun _ _ => rfl) ha hs hactor hfork
    (fun v hv => absurd hv (hopen v)) fun _ hr => ?_
  simpa [advance] using hown hr

/-- A store of the script. -/
theorem stored {o : SyncAddr} {w : Word} {l : List Phase} (h : Copied s)
    (hstaged : Staged False (s.advance t (s.mem.storeWord t o.page o.word w) l))
    (hacts : s.mem.Acts (.setWord t o w)) (hg : StoresDropped s (.next t))
    (htarget : s.target t = some o.page) (hw : s.mem.writable t o.page)
    (htodo : s.todo t = ph :: rest) (hph : ph ≠ .exit) (hl : Phase.exit ∉ l → Phase.exit ∉ rest)
    (hneutral : Phase.forgets (ph :: rest) = Phase.forgets l) :
    Copied (s.advance t (s.mem.storeWord t o.page o.word w) l) := by
  refine h.worked (a := .setWord t o w) hstaged ⟨hacts, trivial⟩ (if_pos hw) (by simp [Act.actor])
    (by simp) (by simp) fun hr => ?_
  have hold := h.before htodo hph hl hr
  rw [hneutral] at hold
  exact kept_of_target hold hg htarget

theorem next (h : Copied s) (hg : StoresDropped s (.next t)) (hs : s.next isHeap t = some s') :
    Copied s' := by
  have hstaged : Staged False s' := h.staged.next hs
  cases htodo : s.todo t with
  | nil => simp [Runtime.next, htodo] at hs
  | cons ph rest =>
      obtain ⟨md, md', hmd, hafter, hfits⟩ := h.staged.mode_of_todo htodo
      have ht := h.staged.of_mem_todo htodo
      have hlive : md.stage ≠ .gone := by
        intro hgone
        obtain ⟨stage, r, g, l⟩ := md
        obtain rfl : stage = .gone := hgone
        simp [Mode.after] at hafter
      have hacts : ∀ {a : Act}, (∀ u ∈ a.actor, u = t) → s.mem.Acts a := Staged.acts hmd hlive
      unfold Runtime.next at hs
      rw [htodo] at hs
      cases ph with
      | openProtection =>
          obtain rfl := Option.some.inj hs
          obtain ⟨stage, r, g, l⟩ := md
          obtain rfl : stage = .begun := by cases stage <;> simp_all [Mode.after]
          split at hstaged
          · rename_i hopen
            rw [if_pos hopen]
            exact h.passed hstaged htodo (by simp) id rfl
          · rename_i hopen
            rw [if_neg hopen]
            refine h.acted (a := .openProtection t) hstaged rfl (fun u hu => by simp [advance, hu])
              (fun _ _ => rfl) ⟨hacts (by simp [Act.actor]), hmd.stage⟩ rfl (by simp [Act.actor])
              (by simp) (fun _ _ => h.staged.alone t ht (by simpa using hopen)) fun _ _ => ?_
            exact .of_none fun q => by simp [advance, Mem.openProtection]
      | begin =>
          obtain rfl := Option.some.inj hs
          unfold Mem.atomicBegin at hstaged ⊢
          split at hstaged
          · rename_i hopen
            rw [if_pos hopen]
            refine h.worked (a := .begin t) hstaged ⟨hacts (by simp [Act.actor]), trivial⟩ rfl
              (by simp [Act.actor]) (by simp) (by simp) fun hr => ?_
            have hold := h.before htodo (by simp) id hr
            exact Mem.Kept.begin hold (h.staged.partitioned.tidy t) _
          · rename_i hopen
            rw [if_neg hopen]
            refine h.turned (t := t) hstaged rfl rfl (fun u hu => by simp [advance, hu])
              (fun _ _ => rfl) fun _ _ => ?_
            exact .of_none (h.mapped t (by simpa using hopen))
      | commit =>
          obtain rfl := Option.some.inj hs
          exact h.passed hstaged htodo (by simp) (by simp) rfl
      | entries ks =>
          obtain ⟨stage, r, g, l⟩ := md
          obtain rfl : stage = .entries ks := by cases stage <;> simp_all [Mode.after]
          cases ks with
          | nil =>
              obtain rfl := Option.some.inj hs
              refine h.turned (t := t) hstaged rfl rfl (fun u hu => by simp [advance, hu])
                (fun _ _ => rfl) fun _ hr => ?_
              have hold := h.before htodo (by simp) id hr
              refine Mem.Kept.of_processed hold fun d hd => ?_
              obtain ⟨k, hk⟩ := List.mem_iff_getElem?.mp hd
              simpa using hmd.stage.2 k d hk
          | cons k ks =>
              rw [Option.map_eq_some_iff] at hs
              obtain ⟨m', hm, rfl⟩ := hs
              refine h.worked (a := .commitEntry t k) hstaged ⟨hacts (by simp [Act.actor]), trivial⟩
                hm (by simp [Act.actor]) (by simp) (by simp) fun hr => ?_
              have hold := h.before htodo (by simp) (by simp) hr
              exact Mem.Kept.commitEntry hold (h.staged.partitioned.tidy t) hm
      | finalcommit release =>
          cases hn : s.mem.nextOwned t with
          | none =>
              rw [hn] at hs
              obtain rfl := Option.some.inj hs
              exact h.passed hstaged htodo (by simp) id rfl
          | some p =>
              rw [hn] at hs
              obtain rfl := Option.some.inj hs
              refine h.worked (a := .finalcommit t p release) hstaged
                ⟨hacts (by simp [Act.actor]), trivial⟩ (if_pos (Mem.nextOwned_owner hn))
                (by simp [Act.actor]) (by simp) (by simp) fun hr => ?_
              cases release with
              | true => exact (h.before htodo (by simp) (by simp) hr).finalcommit p
              | false =>
                  obtain ⟨hl, hg⟩ : md'.leaving = true ∧ md'.stage ≠ .gone := by
                    obtain ⟨stage, r, g, l⟩ := md
                    cases stage <;> simp_all [Mode.after]
                    subst hafter
                    simp
                  have hexit := Mode.exit_of_fits hfits hl hg
                  exact absurd hr.2 (by simp [advance, hexit])
      | condInit o e =>
          simp only [Option.ite_none_left_eq_some] at hs
          obtain ⟨-, hs⟩ := hs
          split at hs
          · obtain rfl := Option.some.inj hs
            exact h.passed hstaged htodo (by simp) id rfl
          · rename_i hzero
            simp only [Option.ite_none_right_eq_some, Option.some.injEq] at hs
            obtain ⟨hw, rfl⟩ := hs
            have htarget : s.target t = some o.page := by
              simp only [target, htodo]
              exact if_pos (.inr (by simpa using hzero))
            exact h.stored hstaged (hacts (by simp [Act.actor])) hg htarget hw htodo (by simp)
              (by simp) rfl
      | memWrite o e =>
          obtain rfl := Option.some.inj hs
          refine h.worked (a := .memWrite t o e) hstaged ⟨hacts (by simp [Act.actor]), trivial⟩ rfl
            (by simp [Act.actor]) (by simp) (by simp) fun hr => ?_
          exact (h.before htodo (by simp) id hr).memWrite o e
      | cleanup =>
          obtain rfl := Option.some.inj hs
          refine h.worked (a := .cleanup) hstaged ⟨hacts (by simp [Act.actor]), trivial⟩ rfl
            (by simp [Act.actor]) (by simp) (by simp) fun hr => ?_
          exact h.before htodo (by simp) id hr
      | clone child =>
          simp only [Option.ite_none_left_eq_some, Option.some.injEq] at hs
          obtain ⟨hfresh, rfl⟩ := hs
          exact h.clone htodo hfresh hstaged
      | await child =>
          simp only [Option.ite_none_right_eq_some, Option.some.injEq] at hs
          obtain ⟨-, rfl⟩ := hs
          exact h.passed hstaged htodo (by simp) id rfl
      | result child dest =>
          cases dest with
          | null =>
              obtain rfl := Option.some.inj hs
              exact h.passed hstaged htodo (by simp) id rfl
          | stack =>
              obtain rfl := Option.some.inj hs
              refine h.turned (t := t) hstaged rfl rfl (fun u hu => by simp [advance, hu])
                (fun _ _ => rfl) fun _ hr => ?_
              have hold : s.mem.Kept t (Phase.forgets rest) :=
                h.before (m := s.mem) htodo (by simp) id hr
              simpa [advance] using hold
          | region o =>
              simp only [Option.ite_none_right_eq_some, Option.some.injEq] at hs
              obtain ⟨hw, rfl⟩ := hs
              exact h.stored hstaged (hacts (by simp [Act.actor])) hg (by simp [target, htodo]) hw
                htodo (by simp) id rfl
      | closeProtection =>
          obtain rfl := Option.some.inj hs
          obtain ⟨stage, r, g, l⟩ := md
          obtain rfl : stage = .begun := by cases stage <;> simp_all [Mode.after]
          split at hstaged
          · rename_i hsingle
            rw [if_pos hsingle]
            refine h.worked (a := .closeProtection t) hstaged
              ⟨hacts (by simp [Act.actor]), hmd.stage⟩ rfl (by simp [Act.actor]) (by simp) (by simp)
              fun _ => ?_
            exact .of_none fun q => by simp [Mem.closeProtection]
          · rename_i hsingle
            rw [if_neg hsingle]
            exact h.passed hstaged htodo (by simp) id rfl
      | deregister =>
          obtain rfl := Option.some.inj hs
          refine h.turned (t := t) hstaged rfl rfl (fun u hu => by simp [advance, hu])
            (fun u hu => by simp [hu]) fun _ hr => ?_
          exact absurd hr.1 (by simp)
      | retval x =>
          obtain rfl := Option.some.inj hs
          have hx := exited_of_after hmd hafter (.inl ⟨x, rfl⟩)
          refine h.turned (t := t) hstaged rfl rfl (fun u hu => by simp [advance, hu])
            (fun _ _ => rfl) fun _ hr => ?_
          exact absurd (hx.symm.trans hr.1) (by simp)
      | exit =>
          obtain rfl := Option.some.inj hs
          have hx := exited_of_after hmd hafter (.inr rfl)
          obtain ⟨stage, r, g, l⟩ := md
          obtain rfl : r = true := by cases stage <;> cases r <;> simp_all [Mode.after]
          refine h.worked (a := .exit t) hstaged ⟨hacts (by simp [Act.actor]), hmd.released rfl⟩ rfl
            (by simp [Act.actor]) (by simp) (by simp) fun hr => ?_
          exact absurd (hx.symm.trans hr.1) (by simp)

theorem step {e : Event} (h : Copied s) (hg : StoresDropped s e) (hs : s.step isHeap e = some s') :
    Copied s' := by
  have hstaged : Staged False s' := h.staged.step (fun hf => hf.elim) hs
  cases e with
  | user t a =>
      simp only [Runtime.step, Option.ite_none_right_eq_some, Option.map_eq_some_iff] at hs
      obtain ⟨⟨ht, hx, htodo, ha⟩, m', hm, rfl⟩ := hs
      have hmd := h.staged.working ht hx htodo
      have halive := h.alive ht hx
      have hkept : s.mem.Kept t false := by
        simpa [htodo, Phase.forgets] using h.kept t ht ⟨hx, by simp [htodo]⟩
      obtain ⟨hproper, -⟩ := Staged.allows_proper ha halive
      have hactor : (∀ v ∈ a.actor, v = t) ∧ (∀ v c, a ≠ .fork v c) ∧ ∀ v, a ≠ .openProtection v := by
        cases a <;> simp_all [Mem.allows, Act.actor]
      refine h.worked hstaged hproper hm hactor.1 hactor.2.1 hactor.2.2 fun _ => ?_
      exact kept_of_allows hkept h.staged.partitioned (h.listed t) halive hmd.stage ha hm
  | call t op =>
      simp only [Runtime.step, Option.ite_none_right_eq_some, Option.some.injEq] at hs
      obtain ⟨⟨-, hx, htodo, -⟩, rfl⟩ := hs
      exact h.call hx htodo hstaged
  | next t => exact h.next hg hs
  | fault t a =>
      simp only [Runtime.step, Option.ite_none_right_eq_some, Option.map_eq_some_iff,
        Option.any_eq_true] at hs
      obtain ⟨⟨p, htarget, ha⟩, m', hm, rfl⟩ := hs
      obtain ⟨ht, md, hmd, -, hstage⟩ := h.staged.committed_of_target htarget
      have hacts : ∀ {a : Act}, (∀ u ∈ a.actor, u = t) → s.mem.Acts a :=
        Staged.acts hmd (by simp [hstage])
      have halive : s.mem.alive t = true := hmd.alive.mpr (by simp [hstage])
      have hold : ∀ {m : Mem}, (s.advance t m (s.todo t)).Returns t →
          s.mem.Kept t (Phase.forgets (s.todo t)) := fun hr =>
        h.kept t ht ⟨hr.1, by simpa [advance] using hr.2⟩
      cases a with
      | notify u q =>
          obtain ⟨rfl, rfl, -, hp⟩ : u = t ∧ q = p ∧ _ ∧ p < s.mem.position := by
            simpa [Mem.handles] using ha
          refine h.worked hstaged ⟨hacts (by simp [Act.actor]), hp⟩ hm (by simp [Act.actor])
            (by simp) (by simp) fun hr => ?_
          simp only [Mem.step, Option.ite_none_right_eq_some, Option.some.injEq] at hm
          obtain ⟨-, rfl⟩ := hm
          exact (hold hr).notify halive q
      | mprotectRead u q =>
          obtain ⟨rfl, rfl⟩ : u = t ∧ q = p := by simpa [Mem.handles] using ha
          refine h.worked hstaged ⟨hacts (by simp [Act.actor]), trivial⟩ hm (by simp [Act.actor])
            (by simp) (by simp) fun hr => ?_
          simp only [Mem.step, Option.ite_none_right_eq_some, Option.some.injEq] at hm
          obtain ⟨-, rfl⟩ := hm
          exact (hold hr).mprotectRead q
      | fault u q =>
          obtain ⟨rfl, rfl⟩ : u = t ∧ q = p := by simpa [Mem.handles] using ha
          refine h.worked hstaged ⟨hacts (by simp [Act.actor]), trivial⟩ hm (by simp [Act.actor])
            (by simp) (by simp) fun hr => ?_
          simp only [Mem.step, Option.ite_none_right_eq_some] at hm
          exact (hold hr).fault hm.2
      | _ => simp [Mem.handles] at ha
  | signal t p =>
      simp only [Runtime.step, Option.ite_none_right_eq_some, Option.map_eq_some_iff] at hs
      obtain ⟨⟨ht, halive⟩, m', hm, rfl⟩ := hs
      have hacts : s.mem.Acts (.signal t p) := by simp [Mem.Acts, Act.actor, halive]
      refine h.worked hstaged ⟨hacts, trivial⟩ hm (by simp [Act.actor]) (by simp) (by simp)
        fun hr => ?_
      have hold := h.kept t ht ⟨hr.1, by simpa [advance] using hr.2⟩
      simp only [Mem.step, Option.ite_none_right_eq_some, Option.some.injEq] at hm
      obtain ⟨-, rfl⟩ := hm
      exact hold.signal p

theorem boot (position : ℕ) : Copied (boot position) where
  staged := boot_staged False position
  mapped _ _ _ := rfl
  listed u hu := by simp [Runtime.boot, Mem.boot] at hu
  kept t _ _ := .of_none fun _ => rfl

/-- A thread that has begun has no entry yet. -/
theorem begun (h : Copied s) (hs : s.next isHeap t = some s') (hb : Begins s t s') :
    s.target t = none ∧ t ∈ s'.threads ∧ s'.Returns t ∧ (s'.mem.spaces t).dirty = [] := by
  cases htodo : s.todo t with
  | nil => simp [Runtime.next, htodo] at hs
  | cons ph rest =>
      obtain ⟨md, md', hmd, hafter, hfits⟩ := h.staged.mode_of_todo htodo
      have ht := h.staged.of_mem_todo htodo
      have hph : ph = .begin ∨ (ph = .closeProtection ∧ s'.todo t = [] ∧ s'.exited t = false) := by
        rcases hb with ⟨l, hl⟩ | ⟨hl, hx⟩
        · rw [htodo] at hl
          exact .inl (List.cons.inj hl).1
        · have hsuffix := h.staged.rest_suffix htodo hs
          rw [hl, List.suffix_nil] at hsuffix
          rw [hsuffix] at hfits
          rcases Mode.last hafter hfits with rfl | rfl | rfl
          · exact .inl rfl
          · exact .inr ⟨rfl, hl, hx⟩
          · have hold := exited_of_after hmd hafter (.inr rfl)
            simp only [Runtime.next, htodo, Option.some.injEq] at hs
            obtain rfl := hs
            exact absurd (hold.symm.trans hx) (by simp)
      rcases hph with rfl | ⟨rfl, hl, hx⟩
      · obtain ⟨stage, r, g, l⟩ := md
        obtain ⟨rfl, rfl, rfl⟩ : stage = .committed ∧ l = false ∧ md' = ⟨.begun, false, g, false⟩ := by
          cases stage <;> cases l <;> simp_all [Mode.after]
        have hexit : Phase.exit ∉ rest := Mode.not_exit_of_fits hfits rfl (by simp) (by simp)
        simp only [Runtime.next, htodo, Option.some.injEq] at hs
        obtain rfl := hs
        refine ⟨by simp [target, htodo], ht, ⟨by simpa [advance] using hmd.exited, ?_⟩, ?_⟩
        · simpa [advance] using hexit
        · simp only [advance, Mem.atomicBegin]
          split
          · exact Mem.updateAll_dirty
          · rename_i hp
            exact (h.staged.unfaulted t (by simpa using hp)).2
      · obtain ⟨stage, r, g, l⟩ := md
        obtain rfl : stage = .begun := by cases stage <;> simp_all [Mode.after]
        have hd : (s.mem.spaces t).dirty = [] := hmd.stage
        simp only [Runtime.next, htodo, Option.some.injEq] at hs
        obtain rfl := hs
        refine ⟨by simp [target, htodo], ht, ⟨hx, by simp [hl]⟩, ?_⟩
        simp only [advance]
        split
        · simp [Mem.closeProtection, hd]
        · exact hd

end Copied

/-- As long as every store of the runtime between a commit and the next begin goes to a page of the
process or to one whose copy the begin drops, a process starts each transaction, and returns from
each call, with the shared content of all pages that it does not own. -/
theorem coherent_of_begins {position : ℕ} {es : List Event}
    (h : Transition.Run (step isHeap) StoresDropped (boot position) es s)
    (hs : s.step isHeap (.next t) = some s') (hb : Begins s t s') : s'.mem.Coherent t := by
  have hc : Copied s := h.invariant (fun _ _ _ hi hg hs => hi.step hg hs) (.boot position)
  obtain ⟨htarget, ht, hr, hd⟩ := hc.begun hs hb
  have hc' : Copied s' := hc.step (by simp [StoresDropped, htarget]) hs
  exact (hc'.kept t ht hr).coherent hd

/-- Thread 2 writes the page of the variable in the transaction that its signal ends. -/
theorem coherent_of_begins_stored : ∃ s s', Transition.Run (step fun _ => false) StoresDropped (boot 8)
    (spawning ++ [.user 2 (.fault 2 0)] ++ signalling ++ List.replicate 3 (.next 2)) s ∧
      s.step (fun _ => false) (.next 2) = some s' ∧ Begins s 2 s' ∧ s'.mem.Coherent 2 := by
  have h : (Transition.execGuarded (step fun _ => false) StoresDropped (boot 8)
      (spawning ++ [.user 2 (.fault 2 0)] ++ signalling ++ List.replicate 3 (.next 2))).any
        (fun s => decide ((s.step (fun _ => false) (.next 2)).any
          (fun s' => decide (s'.todo 2 = [] ∧ s'.exited 2 = false)) = true)) = true := by
    decide +kernel
  obtain ⟨s, hr, hany⟩ := Transition.exists_run_of_any h
  obtain ⟨s', hs, hdone⟩ := (Option.any_eq_true _ _).mp hany
  have hb : Begins s 2 s' := .inr (by simpa using hdone)
  exact ⟨s, s', hr, hs, hb, coherent_of_begins hr hs hb⟩

/-- Main spawns thread 3 after thread 2, and both start their first transaction. -/
def spawningTwo : List Event :=
  spawning ++ .call 1 (.spawn 3) :: List.replicate 5 (.next 1) ++ [.next 3]

/-- Thread 2 signals a variable whose page it has not written. -/
def keeping : List Event := signalling ++ [.fault 2 (.fault 2 0)] ++ List.replicate 3 (.next 2)

/-- Thread 3 stores to the page of the variable and publishes it. -/
def publishing : List Event :=
  [.user 3 (.fault 3 0), .user 3 (.store 3 [⟨0, 1, 0⟩] fun _ _ => 7), .call 3 .mutexLock] ++
    List.replicate 4 (.next 3)

/-- The entry of the page that `cond_init` stores to has no `release` flag, so that the copy survives
the begin. Thread 2 then locks a mutex after thread 3 has committed, and does not see the commit. -/
theorem stale_copy : ∃ s s', Transition.Run (step fun _ => false) (fun _ _ => True) (boot 8)
    (spawningTwo ++ keeping ++ publishing ++ .call 2 .mutexLock :: List.replicate 2 (.next 2)) s ∧
      s.step (fun _ => false) (.next 2) = some s' ∧ Begins s 2 s' ∧
        (s'.mem.pages 0).owner = .shared ∧ s'.mem.view 2 0 ⟨1, by decide⟩ 0 = 0 ∧
          (s'.mem.pages 0).content ⟨1, by decide⟩ 0 = 7 ∧ ¬ s'.mem.Coherent 2 := by
  have h : (Transition.exec (step fun _ => false) (boot 8)
      (spawningTwo ++ keeping ++ publishing ++ .call 2 .mutexLock :: List.replicate 2 (.next 2))).any
        (fun s => decide ((s.step (fun _ => false) (.next 2)).any
          (fun s' => decide ((s'.todo 2 = [] ∧ s'.exited 2 = false) ∧
            (s'.mem.pages 0).owner = .shared ∧ s'.mem.view 2 0 ⟨1, by decide⟩ 0 = 0 ∧
              (s'.mem.pages 0).content ⟨1, by decide⟩ 0 = 7)) = true)) = true := by
    decide +kernel
  obtain ⟨s, he, hany⟩ := Transition.exists_exec_of_any h
  obtain ⟨s', hs, hdone⟩ := (Option.any_eq_true _ _).mp hany
  obtain ⟨hb, ho, hv, hc⟩ := of_decide_eq_true hdone
  refine ⟨s, s', Transition.run_of_exec he, hs, .inr hb, ho, hv, hc, fun hco => ?_⟩
  have hview := hco.view 0 (by simp [ho])
  rw [hview, hc] at hv
  cases hv

end Runtime

end Dthreads.Memory
