import Dthreads.Memory.JoinResult

/-! # Access to the pages

A page that a process owns is out of reach of all others, and every page in use can be made
writable by everyone, through the fault handler and the signals it sends. -/

namespace Dthreads.Memory

namespace Mem

variable {m m' : Mem} {t u : Tid} {p q k : ℕ} {a : Act}

/-- The table of access types agrees with the hardware protection, with the owners and with the
private copies of process `u`. -/
structure Guards (m : Mem) (u : Tid) : Prop where
  prot : (m.spaces u).isProtected = true → ∀ p, (m.spaces u).access p = .none →
    (m.spaces u).prot p = .none
  written : ∀ p, (m.spaces u).access p = .write → (m.pages p).owner = .thread u
  owned : ∀ p, (m.pages p).owner = .thread u → (m.spaces u).access p ≠ .none
  copy : ∀ p, (m.spaces u).priv p ≠ none → (m.spaces u).access p ≠ .none

/-! ## What a step does to the access of its process -/

/-- A page that is given up is accessible for reading. -/
theorem setSharedPage_access_self (ho : (m.pages p).owner ≠ .shared) :
    ((m.setSharedPage t p).spaces t).access p = .read := by
  rw [setSharedPage, if_pos ho, setSpace_spaces_same]
  simp [Space.setAccess]

theorem commitEntry_access_of_ne (h : m.commitEntry t k = some m') (hu : u ≠ t) :
    (m'.spaces u).access q = (m.spaces u).access q := by
  obtain ⟨d, n, -, hn, hc⟩ := commitEntry_cases h
  obtain ⟨-, rfl⟩ | ⟨-, -, rfl⟩ | ⟨-, -, -, rfl⟩ := hc
  · rw [finishEntry_access, ensureTwin_spaces hn]
  · rw [finishEntry_access, setPage_spaces, publish]
    split
    · rw [setPage_spaces, ensureTwin_spaces hn]
    · rw [setPage_spaces, setSharedPage_access (.inl hu), ensureTwin_spaces hn]
  · rw [finishEntry_access, setPage_spaces, ensureTwin_spaces hn]

/-- A commit that shares a page of its process leaves it readable. -/
theorem commitEntry_given (h : m.commitEntry t k = some m') (ho : (m.pages q).owner = .thread t)
    (ho' : (m'.pages q).owner ≠ .thread t) : (m'.spaces t).access q = .read := by
  obtain ⟨d, n, -, hn, hc⟩ := commitEntry_cases h
  have hon : (n.pages q).owner = .thread t := (ensureTwin_owner hn).trans ho
  obtain ⟨-, rfl⟩ | ⟨-, -, rfl⟩ | ⟨-, -, -, rfl⟩ := hc
  · rw [finishEntry_pages] at ho'
    exact absurd hon ho'
  · by_cases hq : q = d.pageNo
    · subst hq
      rw [finishEntry_access, setPage_spaces]
      rw [finishEntry_pages, setPage_pages_same] at ho'
      unfold publish at ho' ⊢
      split
      · rename_i hv
        rw [if_pos hv, setPage_pages_same] at ho'
        exact absurd hon ho'
      · rw [setPage_spaces, setSharedPage_access_self (by simp [hon])]
    · rw [finishEntry_pages, setPage_pages_of_ne _ _ _ _ hq, publish_pages, if_neg hq] at ho'
      exact absurd hon ho'
  · rw [finishEntry_pages] at ho'
    by_cases hq : q = d.pageNo
    · subst hq
      rw [setPage_pages_same] at ho'
      exact absurd hon ho'
    · rw [setPage_pages_of_ne _ _ _ _ hq] at ho'
      exact absurd hon ho'

/-- An action touches the space of its own process only, unless it creates one. -/
theorem spaces_of_actor_ne (hs : m.step a = some m') (hne : ∀ t ∈ a.actor, u ≠ t)
    (hfork : ∀ t, a ≠ .fork t u) : (m'.spaces u).prot = (m.spaces u).prot ∧
      (m'.spaces u).access = (m.spaces u).access ∧
        (m'.spaces u).isProtected = (m.spaces u).isProtected := by
  cases a with
  | load t a =>
      simp only [step, Option.ite_none_right_eq_some, Option.some.injEq] at hs
      obtain ⟨-, rfl⟩ := hs
      exact ⟨rfl, rfl, rfl⟩
  | store t as f =>
      simp only [step, Option.ite_none_right_eq_some, Option.some.injEq] at hs
      obtain ⟨-, rfl⟩ := hs
      have hsame := storeBytes_sameDirty m t u (f (m.viewByte t)) as
      exact ⟨hsame.prot, storeBytes_access _ as, hsame.isProtected⟩
  | fault t p =>
      simp only [step, Option.ite_none_right_eq_some] at hs
      rw [handleWrite_spaces_of_ne hs.2 (hne t rfl)]
      exact ⟨rfl, rfl, rfl⟩
  | notify t p =>
      simp only [step, Option.ite_none_right_eq_some, Option.some.injEq] at hs
      obtain ⟨-, rfl⟩ := hs
      have hsame := notifyOwnerToCommit_sameDirty m t u p
      refine ⟨hsame.prot, funext fun q => ?_, hsame.isProtected⟩
      have hshare := setSharedPage_access (m := m) (t := t) (p := p) (q := q) (.inl (hne t rfl))
      unfold notifyOwnerToCommit
      split
      · rfl
      · exact hshare
      · split
        · rfl
        · exact hshare
  | mprotectRead t p =>
      simp only [step, Option.ite_none_right_eq_some, Option.some.injEq] at hs
      obtain ⟨-, rfl⟩ := hs
      rw [mprotectRead, setSpace_spaces_of_ne _ _ _ _ (hne t rfl)]
      exact ⟨rfl, rfl, rfl⟩
  | setWord t o w =>
      simp only [step, Option.ite_none_right_eq_some, Option.some.injEq] at hs
      obtain ⟨-, rfl⟩ := hs
      have hsame := storeWord_sameDirty m t u o.page o.word w
      exact ⟨hsame.prot, storeWord_access _ w, hsame.isProtected⟩
  | commitEntry t k =>
      have hsame := (commitEntry_spaces_of_ne hs (hne t rfl))
      refine ⟨hsame.prot, funext fun q => ?_, hsame.isProtected⟩
      exact commitEntry_access_of_ne hs (hne t rfl)
  | begin t =>
      obtain rfl := Option.some.inj hs
      rw [updateAll_priv_of_ne (hne t rfl)]
      exact ⟨rfl, rfl, rfl⟩
  | finalcommit t p r =>
      simp only [step, Option.ite_none_right_eq_some, Option.some.injEq] at hs
      obtain ⟨-, rfl⟩ := hs
      have hsame := finalcommitPage_sameDirty m t u p r
      refine ⟨hsame.prot, funext fun q => ?_, hsame.isProtected⟩
      cases r with
      | true => exact commitOwnedPage_access true (.inl (hne t rfl))
      | false =>
          exact (setSharedPage_access (.inl (hne t rfl))).trans
            (commitOwnedPage_access false (.inl (hne t rfl)))
  | superblock t n =>
      obtain rfl := Option.some.inj hs
      rw [superblock_spaces_of_ne (hne t rfl)]
      exact ⟨rfl, rfl, rfl⟩
  | signal t p =>
      simp only [step, Option.ite_none_right_eq_some, Option.some.injEq] at hs
      obtain ⟨-, rfl⟩ := hs
      have hsame := signalHandler_sameDirty m t u p
      exact ⟨hsame.prot, funext fun q => commitOwnedPage_access true (.inl (hne t rfl)),
        hsame.isProtected⟩
  | memWrite | cleanup | exit =>
      obtain rfl := Option.some.inj hs
      exact ⟨rfl, rfl, rfl⟩
  | openProtection t =>
      obtain rfl := Option.some.inj hs
      simp [openProtection, hne t rfl]
  | closeProtection t =>
      obtain rfl := Option.some.inj hs
      simp [closeProtection, hne t rfl]
  | fork t child =>
      obtain rfl := Option.some.inj hs
      have huc : u ≠ child := by
        rintro rfl
        exact hfork t rfl
      simp [fork, huc]

/-! ## Steps keep the guards -/

namespace Guards

/-- A step over the same protections, after which pages that were given up are not written. -/
theorem frame (h : m.Guards t) (hprot : (m'.spaces t).prot = (m.spaces t).prot)
    (hprotected : (m'.spaces t).isProtected = (m.spaces t).isProtected)
    (haccess : ∀ q, (m.spaces t).access q ≠ .none → (m'.spaces t).access q ≠ .none)
    (hwritten : ∀ q, (m'.spaces t).access q = .write → (m.spaces t).access q = .write)
    (howner : ∀ q, (m'.pages q).owner = .thread t → (m.pages q).owner = .thread t)
    (hgiven : ∀ q, (m.pages q).owner = .thread t → (m'.pages q).owner ≠ .thread t →
      (m'.spaces t).access q ≠ .write)
    (hcopy : ∀ q, (m'.spaces t).priv q ≠ none →
      (m.spaces t).priv q ≠ none ∨ (m.spaces t).access q ≠ .none) : m'.Guards t where
  prot hp q hq := by
    rw [hprot]
    refine h.prot (hprotected ▸ hp) q ?_
    by_contra hn
    exact haccess q hn hq
  written q hq := by
    have ho := h.written q (hwritten q hq)
    by_contra hn
    exact hgiven q ho hn hq
  owned q hq := haccess q (h.owned q (howner q hq))
  copy q hq := haccess q ((hcopy q hq).elim (h.copy q) id)

theorem frame_sameDirty (h : m.Guards t) (hs : (m.spaces t).SameDirty (m'.spaces t))
    (howner : ∀ q, (m'.pages q).owner = .thread t → (m.pages q).owner = .thread t)
    (hgiven : ∀ q, (m.pages q).owner = .thread t → (m'.pages q).owner ≠ .thread t →
      (m'.spaces t).access q ≠ .write)
    (hcopy : ∀ q, (m'.spaces t).priv q ≠ none →
      (m.spaces t).priv q ≠ none ∨ (m.spaces t).access q ≠ .none) : m'.Guards t :=
  h.frame hs.prot hs.isProtected hs.access hs.written howner hgiven hcopy

/-- Stores go to pages that can be written. -/
theorem stored (h : m.Guards t) (hs : (m.spaces t).SameDirty (m'.spaces t))
    (htable : ∀ q, (m'.pages q).owner = (m.pages q).owner)
    (hpriv : ∀ q, (m'.spaces t).priv q ≠ none → (m.spaces t).priv q ≠ none ∨
      ((m.spaces t).isProtected = true ∧ m.writable t q)) : m'.Guards t := by
  refine h.frame_sameDirty hs (fun q hq => htable q ▸ hq) (fun q ho hn => absurd (htable q ▸ ho) hn)
    fun q hq => (hpriv q hq).imp_right ?_
  rintro ⟨hp, hw⟩ hnone
  exact absurd (hw.symm.trans (h.prot hp q hnone)) (by decide)

theorem fault (h : m.Guards t) (hs : m.handleWrite t p = some m')
    (ha : (m.spaces t).access p ≠ .none) : m'.Guards t := by
  obtain ⟨e, hf, -⟩ := handleWrite_space hs
  have howner : ∀ q, (m'.pages q).owner = (m.pages q).owner := by
    intro q
    have ht := congrArg Table.owner (handleWrite_table (q := q) hs)
    rw [table_owner] at ht
    split at ht <;> exact ht
  have haccess := fun q => handleWrite_access (q := q) hs
  refine ⟨fun hp q hq => ?_, fun q hq => ?_, fun q hq => ?_, fun q hq => ?_⟩
  · have hne : q ≠ p := by
      rintro rfl
      exact hf.access q ha hq
    rw [haccess, if_neg fun hc => hne hc.1] at hq
    rw [hf.prot, Function.update_of_ne hne]
    exact h.prot (hf.isProtected ▸ hp) q hq
  · rw [haccess] at hq
    rw [howner]
    split at hq
    · rename_i hc
      exact hc.1 ▸ hc.2
    · exact h.written q hq
  · exact hf.access q (h.owned q (howner q ▸ hq))
  · rw [handleWrite_priv hs] at hq
    exact hf.access q (h.copy q hq)

theorem notify (h : m.Guards t) (ht : m.alive t = true) : (m.notifyOwnerToCommit t p).Guards t := by
  refine h.frame_sameDirty (notifyOwnerToCommit_sameDirty m t t p) (fun q hq => ?_)
    (fun q ho hn => absurd (notifyOwnerToCommit_owner ht ho) hn) fun q hq => ?_
  · unfold notifyOwnerToCommit at hq
    have hshare : ((m.setSharedPage t p).pages q).owner = .thread t → (m.pages q).owner = .thread t := by
      intro hc
      rcases setSharedPage_owner_or (m := m) (t := t) (p := p) (q := q) with ho | ho
      · exact ho ▸ hc
      · rw [ho] at hc
        cases hc
    split at hq
    · exact hq
    · exact hshare hq
    · split at hq
      · exact hq
      · exact hshare hq
  · rw [notifyOwnerToCommit_priv] at hq
    exact .inl hq

theorem mprotectRead (h : m.Guards t) : (m.mprotectRead t p).Guards t := by
  have hspace : (m.mprotectRead t p).spaces t =
      ((m.spaces t).setAccess p .read).setProt p .read := setSpace_spaces_same m t _
  have haccess : ∀ q, ((m.mprotectRead t p).spaces t).access q =
      if q = p then .read else (m.spaces t).access q := by
    intro q
    rw [hspace]
    by_cases hq : q = p <;> simp [Space.setAccess, Space.setProt, hq]
  refine ⟨fun hp q hq => ?_, fun q hq => ?_, fun q hq => ?_, fun q hq => ?_⟩
  · rw [haccess] at hq
    split at hq
    · cases hq
    · rename_i hqp
      rw [hspace] at hp ⊢
      simp only [Space.setAccess, Space.setProt, Function.update_of_ne hqp] at hp ⊢
      exact h.prot hp q hq
  · rw [haccess] at hq
    split at hq
    · cases hq
    · exact h.written q hq
  · rw [haccess]
    split
    · simp
    · exact h.owned q hq
  · rw [haccess]
    split
    · simp
    · rw [mprotectRead_priv] at hq
      exact h.copy q hq

theorem begin (h : m.Guards t) (htidy : (m.spaces t).Tidy) : (m.updateAll t).Guards t := by
  refine ⟨fun hp q hq => ?_, fun q hq => ?_, fun q hq => ?_, fun q hq => ?_⟩
  · rw [updateAll_isProtected] at hp
    rw [updateAll_access] at hq
    rw [updateAll_prot, if_neg]
    · exact h.prot hp q hq
    · rintro ⟨d, hd, rfl, -⟩
      exact htidy.accessible d hd hq
  · rw [updateAll_access] at hq
    exact h.written q hq
  · rw [updateAll_access]
    exact h.owned q hq
  · rw [updateAll_access]
    refine h.copy q fun hn => hq ?_
    by_cases hr : m.released t q
    · exact updateAll_priv_of_released hr
    · rw [updateAll_priv_of_not_released hr, hn]

/-- The pages a process gives up, or publishes, stay readable. -/
theorem committed (h : m.Guards t) (r : Bool) : (m.commitOwnedPage t p r).Guards t := by
  refine h.frame_sameDirty (commitOwnedPage_sameDirty m t t p r) (fun q hq => ?_)
    (fun q ho hn => ?_) fun q hq => ?_
  · rcases commitOwnedPage_owner_or (m := m) (t := t) (p := p) (q := q) r with ho | ho
    · exact ho ▸ hq
    · rw [ho] at hq
      cases hq
  · rw [commitOwnedPage_owner] at hn
    split at hn
    · rename_i hc
      obtain ⟨rfl, rfl⟩ := hc
      have hread := setSharedPage_access_self (t := t)
        (m := m.setPage q { m.pages q with content := m.view t q }) (p := q) (by simp [ho])
      simp [commitOwnedPage, Space.dontneed, hread]
    · exact absurd ho hn
  · rw [commitOwnedPage_priv] at hq
    split at hq
    · exact absurd rfl hq
    · exact .inl hq

theorem shared (h : m.Guards t) : (m.setSharedPage t p).Guards t := by
  refine h.frame_sameDirty (setSharedPage_sameDirty m t t p) (fun q hq => ?_) (fun q ho hn => ?_)
    fun q hq => ?_
  · rcases setSharedPage_owner_or (m := m) (t := t) (p := p) (q := q) with ho | ho
    · exact ho ▸ hq
    · rw [ho] at hq
      cases hq
  · by_cases hqp : q = p
    · subst hqp
      rw [setSharedPage_access_self (by simp [ho])]
      simp
    · rw [setSharedPage_pages_of_ne hqp] at hn
      exact absurd ho hn
  · rw [setSharedPage_priv] at hq
    exact .inl hq

theorem superblock {n : ℕ} (h : m.Guards t) : (m.superblock t n).Guards t := by
  cases hprot : (m.spaces t).isProtected with
  | false =>
      have heq : m.superblock t n = { m with position := m.position + n } := by
        unfold Mem.superblock setOwnedPage
        exact if_neg (by simp [hprot])
      rw [heq]
      exact ⟨h.prot, h.written, h.owned, h.copy⟩
  | true =>
      rw [superblock_eq n hprot]
      refine ⟨fun hp q hq => ?_, fun q hq => ?_, fun q hq => ?_, fun q hq => ?_⟩
      · simp only [Function.update_self] at hq hp ⊢
        split at hq
        · cases hq
        · rename_i hin
          rw [if_neg hin]
          exact h.prot hp q hq
      · simp only [Function.update_self] at hq
        split at hq
        · cases hq
        · rename_i hin
          dsimp only
          rw [if_neg hin]
          exact h.written q hq
      · simp only [Function.update_self]
        split
        · simp
        · rename_i hin
          dsimp only at hq
          rw [if_neg hin] at hq
          exact h.owned q hq
      · simp only [Function.update_self] at hq ⊢
        split
        · simp
        · exact h.copy q hq

theorem openProtection (m : Mem) (t : Tid) : (m.openProtection t).Guards t := by
  refine ⟨fun _ q hq => ?_, fun q hq => ?_, fun q hq => ?_, fun q hq => ?_⟩
  · simp only [Mem.openProtection, Function.update_self] at hq ⊢
    split at hq
    · cases hq
    · rename_i hlt
      exact if_neg hlt
  · simp only [Mem.openProtection, Function.update_self] at hq
    split at hq <;> cases hq
  · simp only [Mem.openProtection] at hq
    split at hq <;> cases hq
  · simp [Mem.openProtection] at hq

theorem closeProtection (h : m.Guards t) : (m.closeProtection t).Guards t := by
  have hspace : (m.closeProtection t).spaces t = { m.spaces t with
      priv := fun _ => none
      prot := fun _ => .readWrite
      isProtected := false } := setSpace_spaces_same m t _
  refine ⟨fun hp => ?_, fun q hq => ?_, fun q hq => ?_, fun q hq => ?_⟩
  · rw [hspace] at hp
    cases hp
  · rw [hspace] at hq
    exact h.written q hq
  · rw [hspace]
    exact h.owned q hq
  · rw [hspace] at hq
    exact absurd rfl hq

/-- The child gets the pages that its parent shares with all. -/
theorem fork {child : Tid} (h : m.Guards t) (hp : m.Partitioned)
    (hl : m.Proper (.fork t child)) : (m.fork t child).Guards child := by
  obtain ⟨-, hdead, hnone⟩ := hl
  have hchild : ∀ q, (m.pages q).owner ≠ .thread child := by
    intro q hq
    rw [(hp.owned q child hq).1] at hdead
    cases hdead
  refine ⟨fun hp q hq => ?_, fun q hq => ?_, fun q hq => absurd hq (hchild q), fun q hq => ?_⟩
  · simp only [Mem.fork, Function.update_self] at hp hq ⊢
    exact h.prot hp q hq
  · simp only [Mem.fork, Function.update_self] at hq
    exact absurd (h.written q hq) (hnone q)
  · simp only [Mem.fork, Function.update_self] at hq ⊢
    exact h.copy q hq

/-- A step of the process itself. -/
theorem own (h : m.Guards t) (hp : m.Partitioned) (hmapped : m.Mapped) (hl : m.Proper a)
    (ha : a.actor = some t) (hs : m.step a = some m') : m'.Guards t := by
  have hmapped' : ∀ q, (m.spaces t).isProtected ≠ true → (m.spaces t).priv q = none :=
    fun q hn => hmapped t (by simpa using hn) q
  cases a with
  | load v a =>
      simp only [step, Option.ite_none_right_eq_some, Option.some.injEq] at hs
      obtain ⟨-, rfl⟩ := hs
      exact h
  | store v as f =>
      obtain rfl := Option.some.inj ha
      simp only [step, Option.ite_none_right_eq_some, Option.some.injEq] at hs
      obtain ⟨hw, rfl⟩ := hs
      refine h.stored (storeBytes_sameDirty m v v _ as)
        (fun q => congrArg Table.owner (storeBytes_table (q := q) _ as)) fun q hq => ?_
      by_cases hprot : (m.spaces v).isProtected = true
      · by_cases hmem : ∃ b ∈ as, b.page = q
        · obtain ⟨b, hb, rfl⟩ := hmem
          exact .inr ⟨hprot, hw b hb⟩
        · push Not at hmem
          rw [storeBytes_priv fun b hb => .inl (hmem b hb)] at hq
          exact .inl hq
      · rw [storeBytes_unprotected (by simpa using hprot)] at hq
        exact .inl hq
  | fault v p =>
      obtain rfl := Option.some.inj ha
      simp only [step, Option.ite_none_right_eq_some] at hs
      exact h.fault hs.2 hs.1.2
  | notify v p =>
      obtain rfl := Option.some.inj ha
      simp only [step, Option.ite_none_right_eq_some, Option.some.injEq] at hs
      obtain ⟨-, rfl⟩ := hs
      exact h.notify (hl.1 v rfl)
  | mprotectRead v p =>
      obtain rfl := Option.some.inj ha
      simp only [step, Option.ite_none_right_eq_some, Option.some.injEq] at hs
      obtain ⟨-, rfl⟩ := hs
      exact h.mprotectRead
  | setWord v o w =>
      obtain rfl := Option.some.inj ha
      simp only [step, Option.ite_none_right_eq_some, Option.some.injEq] at hs
      obtain ⟨hw, rfl⟩ := hs
      refine h.stored (storeWord_sameDirty m v v o.page o.word w)
        (fun q => congrArg Table.owner (storeWord_table (q := q) _ w)) fun q hq => ?_
      rw [storeWord_priv] at hq
      split at hq
      · rename_i hc
        obtain ⟨-, rfl, hprot⟩ := hc
        exact .inr ⟨hprot, hw⟩
      · exact .inl hq
  | memWrite v o w =>
      obtain rfl := Option.some.inj hs
      exact h.stored (.refl _) (fun q => congrArg Table.owner (memWrite_table (q := q) o w))
        fun q hq => .inl hq
  | commitEntry v k =>
      obtain rfl := Option.some.inj ha
      obtain ⟨d, hd⟩ := commitEntry_space hs
      refine h.frame hd.prot hd.isProtected hd.access hd.written (fun q hq => ?_)
        (fun q ho hn => ?_) fun q hq => ?_
      · rcases Addressed.commitEntry_owner hs q with ho | ⟨ho, -⟩
        · exact ho ▸ hq
        · rw [ho] at hq
          cases hq
      · rw [commitEntry_given hs ho hn]
        simp
      · rw [commitEntry_priv hs] at hq
        exact .inl hq
  | begin v =>
      obtain rfl := Option.some.inj ha
      obtain rfl := Option.some.inj hs
      exact h.begin (hp.tidy v)
  | finalcommit v p r =>
      obtain rfl := Option.some.inj ha
      simp only [step, Option.ite_none_right_eq_some, Option.some.injEq] at hs
      obtain ⟨-, rfl⟩ := hs
      cases r with
      | true => exact h.committed true
      | false => exact (h.committed false).shared
  | superblock v n =>
      obtain rfl := Option.some.inj ha
      obtain rfl := Option.some.inj hs
      exact h.superblock
  | signal v p =>
      obtain rfl := Option.some.inj ha
      simp only [step, Option.ite_none_right_eq_some, Option.some.injEq] at hs
      obtain ⟨-, rfl⟩ := hs
      exact Guards.committed (m := { m with
        signals := Function.update m.signals v ((m.signals v).erase p) })
          ⟨h.prot, h.written, h.owned, h.copy⟩ true
  | cleanup => cases ha
  | openProtection v =>
      obtain rfl := Option.some.inj ha
      obtain rfl := Option.some.inj hs
      exact openProtection m v
  | closeProtection v =>
      obtain rfl := Option.some.inj ha
      obtain rfl := Option.some.inj hs
      exact h.closeProtection
  | fork v child =>
      obtain rfl := Option.some.inj ha
      obtain rfl := Option.some.inj hs
      have hne : v ≠ child := by
        rintro rfl
        have hdead := hl.2.1
        rw [hl.1 v rfl] at hdead
        cases hdead
      have hspace : (m.fork v child).spaces v = m.spaces v := by simp [Mem.fork, hne]
      exact ⟨hspace ▸ h.prot, hspace ▸ h.written, hspace ▸ h.owned, hspace ▸ h.copy⟩
  | exit v =>
      obtain rfl := Option.some.inj hs
      exact ⟨h.prot, h.written, h.owned, h.copy⟩

/-- A step of another process. -/
theorem of_actor_ne (h : m.Guards u) (hp : m.Partitioned) (hl : m.Proper a)
    (hs : m.step a = some m') (hu : m.alive u = true) (hne : ∀ t ∈ a.actor, u ≠ t)
    (hfork : ∀ t, a ≠ .fork t u) (hopen : ∀ t, a ≠ .openProtection t) : m'.Guards u := by
  obtain ⟨hprot, haccess, hprotected⟩ := spaces_of_actor_ne hs hne hfork
  obtain ⟨hpriv, hkept⟩ := copies_of_actor_ne hp hl hs hu hne hopen hfork
  have hconcerns : a.concerns ≠ some u := by
    intro hc
    cases a with
    | fork t child =>
        obtain rfl : child = u := Option.some.inj hc
        exact hfork t rfl
    | fault | commitEntry | begin | superblock | openProtection | closeProtection | exit =>
        exact hne u hc rfl
    | _ => cases hc
  refine h.frame hprot hprotected (fun q hq => haccess ▸ hq) (fun q hq => haccess ▸ hq)
    (bystander hs hconcerns).owner (fun q ho hn => absurd (hkept q ho) hn) fun q hq => ?_
  rw [hpriv] at hq
  exact .inl hq

end Guards

/-- Processes come to life by a fork only. -/
theorem alive_of_step (hs : m.step a = some m') (hfork : ∀ t, a ≠ .fork t u)
    (hu : m'.alive u = true) : m.alive u = true := by
  by_cases hc : a.concerns = some u
  · have hmail : m'.mail = m.mail → m.alive u = true := by
      intro h
      have hsame : m'.alive = m.alive := congrArg (·.2.1) h
      rwa [hsame] at hu
    cases a with
    | fork t child =>
        obtain rfl : child = u := Option.some.inj hc
        exact absurd rfl (hfork t)
    | fault t p =>
        simp only [step, Option.ite_none_right_eq_some] at hs
        exact hmail (handleWrite_mail hs.2)
    | commitEntry t k => exact hmail (commitEntry_mail hs)
    | superblock t n =>
        obtain rfl := Option.some.inj hs
        unfold superblock setOwnedPage at hu
        dsimp only at hu
        split at hu <;> exact hu
    | exit t =>
        obtain rfl : t = u := Option.some.inj hc
        obtain rfl := Option.some.inj hs
        simp [exit] at hu
    | begin | openProtection | closeProtection =>
        obtain rfl := Option.some.inj hs
        exact hu
    | _ => cases hc
  · rwa [(bystander hs hc).alive] at hu

end Mem

namespace Runtime

variable {isHeap : ℕ → Bool} {strict : Prop} {s s' : Runtime} {t u : Tid} {p : ℕ} {e : Event}

/-- The owner of a page has neither deregistered nor exited. -/
theorem Staged.owner (h : Staged strict s) (ho : (s.mem.pages p).owner = .thread t) :
    t ∈ s.threads ∧ s.exited t = false := by
  have halive := (h.partitioned.owned p t ho).1
  have ht := h.alive t halive
  refine ⟨ht, ?_⟩
  by_contra hx
  rw [Bool.not_eq_false] at hx
  obtain ⟨⟨stage, r, g, l⟩, hmd, hfits⟩ := h.modes t ht
  obtain rfl : stage = .deregistered :=
    (hmd.exited.mp hx).resolve_right (hmd.alive.mp halive)
  obtain rfl : r = true := by
    cases htodo : s.todo t with
    | nil =>
        rw [htodo] at hfits
        simp [Mode.fits] at hfits
    | cons ph rest =>
        rw [htodo, Mode.fits_cons] at hfits
        obtain ⟨md', hafter, -⟩ := hfits
        cases ph <;> cases r <;> simp_all [Mode.after]
  exact hmd.released rfl p ho

/-- The accesses of the living processes, over a run. -/
structure Guarded (s : Runtime) : Prop where
  sound : Sound s
  guards : ∀ u, s.mem.alive u = true → s.mem.Guards u

namespace Guarded

theorem boot (position : ℕ) : Guarded (boot position) where
  sound := .boot position
  guards u _ := by
    refine ⟨fun hp => ?_, fun q hq => ?_, fun q hq => ?_, fun q hq => absurd rfl hq⟩
    · cases hp
    · cases hq
    · cases hq

theorem step (h : Guarded s) (hs : s.step isHeap e = some s') : Guarded s' where
  sound := h.sound.step hs
  guards u hu := by
    have hst := h.sound.staged
    rcases hst.action hs with hmem | ⟨a, ha⟩
    · rw [hmem] at hu ⊢
      exact h.guards u hu
    · by_cases hfork : ∃ v, a = .fork v u
      · obtain ⟨v, rfl⟩ := hfork
        obtain hm := Option.some.inj ha.step
        rw [← hm]
        exact (h.guards v (ha.proper.1 v rfl)).fork hst.partitioned ha.proper
      · push Not at hfork
        have halive := Mem.alive_of_step ha.step hfork hu
        have hg := h.guards u halive
        by_cases hself : a.actor = some u
        · exact hg.own hst.partitioned h.sound.mapped ha.proper hself ha.step
        · have hne : ∀ v ∈ a.actor, u ≠ v := by
            rintro v hv rfl
            exact hself hv
          by_cases hopen : ∃ v, a = .openProtection v
          · obtain ⟨v, rfl⟩ := hopen
            obtain hm := Option.some.inj ha.step
            -- the other living processes have deregistered, and own nothing
            have huv : u ≠ v := hne v rfl
            have hx : s.exited u = true := by
              refine ha.alone v rfl u (hst.alive u halive) fun hue => huv ?_
              exact hue.trans (ha.actor v rfl).symm
            have hspace : (s.mem.openProtection v).spaces u = s.mem.spaces u := by
              simp [Mem.openProtection, huv]
            rw [← hm]
            refine ⟨hspace ▸ hg.prot, fun q hq => ?_, fun q hq => ?_, hspace ▸ hg.copy⟩
            · rw [hspace] at hq
              have hlive := (hst.owner (hg.written q hq)).2
              rw [hx] at hlive
              cases hlive
            · simp only [Mem.openProtection] at hq
              split at hq <;> cases hq
          · push Not at hopen
            exact hg.of_actor_ne hst.partitioned ha.proper ha.step halive hne hfork hopen

theorem run {position : ℕ} {es : List Event}
    (h : Transition.Run (Runtime.step isHeap) (fun _ _ => True) (Runtime.boot position) es s) :
    Guarded s :=
  h.invariant (fun _ _ _ hi _ hs => hi.step hs) (.boot position)

end Guarded

/-- A step with which the handlers answer the fault of `t` on page `p`. -/
def answers (t : Tid) (p : ℕ) : Event → Bool
  | .user u (.fault v q) | .user u (.notify v q) | .user u (.mprotectRead v q) =>
      u = t ∧ v = t ∧ q = p
  | .signal _ q => q = p
  | _ => false

/-- Process `t` is in the program's code, and has an entry left for page `p`. -/
structure Faulting (s : Runtime) (t : Tid) (p : ℕ) : Prop where
  member : t ∈ s.threads
  running : s.exited t = false
  todo : s.todo t = []
  inUse : p < s.mem.position
  room : (s.mem.spaces t).cur < pageEntryNum

/-- Page `p` becomes writable for `t` in at most `n` steps of the handlers. -/
def Resolves (isHeap : ℕ → Bool) (t : Tid) (p n : ℕ) (s : Runtime) : Prop :=
  ∃ es s', es.length ≤ n ∧ (∀ e ∈ es, answers t p e = true) ∧
    Transition.Run (Runtime.step isHeap) (fun _ _ => True) s es s' ∧ s'.mem.writable t p

theorem Resolves.cons {n : ℕ} (he : answers t p e = true) (hs : s.step isHeap e = some s')
    (h : Resolves isHeap t p n s') : Resolves isHeap t p (n + 1) s := by
  obtain ⟨es, w, hlen, hall, hrun, hw⟩ := h
  refine ⟨e :: es, w, by simpa using hlen, fun e' he' => ?_, .cons trivial hs hrun, hw⟩
  rcases List.mem_cons.mp he' with rfl | he'
  · exact he
  · exact hall e' he'

theorem Resolves.mono {n k : ℕ} (h : Resolves isHeap t p n s) (hle : n ≤ k) :
    Resolves isHeap t p k s := by
  obtain ⟨es, w, hlen, hall, hrun, hw⟩ := h
  exact ⟨es, w, hlen.trans hle, hall, hrun, hw⟩

namespace Faulting

theorem user {a : Act} {m' : Mem} (h : Faulting s t p) (ha : s.mem.allows t a = true)
    (hs : s.mem.step a = some m') : s.step isHeap (.user t a) = some (s.advance t m' []) := by
  rw [Runtime.step, if_pos ⟨h.member, h.running, h.todo, ha⟩, hs, Option.map_some]

/-- The handler goes on after a step that leaves the dirty list alone. -/
theorem advance {m' : Mem} (h : Faulting s t p) (v : Tid)
    (hposition : m'.position = s.mem.position) (hcur : (m'.spaces t).cur = (s.mem.spaces t).cur) :
    Faulting (s.advance v m' (s.todo v)) t p where
  member := h.member
  running := h.running
  todo := by
    by_cases htv : t = v
    · subst htv
      simpa [Runtime.advance] using h.todo
    · simpa [Runtime.advance, htv] using h.todo
  inUse := hposition ▸ h.inUse
  room := hcur ▸ h.room

/-- The write fault. -/
theorem fault (h : Faulting s t p) (ha : (s.mem.spaces t).access p ≠ .none) :
    Resolves isHeap t p 1 s := by
  by_cases hw : s.mem.writable t p
  · exact ⟨[], s, by simp, by simp, .nil s, hw⟩
  · obtain ⟨m', hm⟩ : ∃ m', s.mem.handleWrite t p = some m' := by
      have hcur : ((s.mem.mprotectWrite t p).spaces t).cur = (s.mem.spaces t).cur :=
        (Mem.mprotectWrite_dirty (m := s.mem) (t := t) (p := p)).2.2.1
      have hroom : ((s.mem.mprotectWrite t p).spaces t).cur < pageEntryNum := hcur ▸ h.room
      unfold Mem.handleWrite Mem.addDirty
      split
      · exact ⟨_, if_pos hroom⟩
      · exact ⟨_, if_pos hroom⟩
    obtain ⟨d, hd, -⟩ := Mem.handleWrite_space hm
    refine .cons (n := 0) (e := .user t (.fault t p)) (by simp [answers])
      (h.user (by simp [Mem.allows]) (if_pos ⟨hw, ha⟩ |>.trans hm)) ?_
    refine ⟨[], _, le_rfl, by simp, .nil _, ?_⟩
    simp [Runtime.advance, Mem.writable, hd.prot]

/-- A page that has been shared is made readable first. -/
theorem read (h : Faulting s t p) (hprot : (s.mem.spaces t).prot p = .none)
    (ho : (s.mem.pages p).owner = .shared) : Resolves isHeap t p 2 s := by
  have hspace : (s.mem.mprotectRead t p).spaces t =
      ((s.mem.spaces t).setAccess p .read).setProt p .read := Mem.setSpace_spaces_same s.mem t _
  refine .cons (e := .user t (.mprotectRead t p)) (by simp [answers])
    (h.user (by simp [Mem.allows]) (if_pos ⟨hprot, ho⟩)) ?_
  have hnext : Faulting (s.advance t (s.mem.mprotectRead t p) (s.todo t)) t p :=
    h.advance t rfl (by rw [hspace]; rfl)
  rw [h.todo] at hnext
  refine hnext.fault ?_
  simp [Runtime.advance, hspace, Space.setAccess, Space.setProt]

/-- The owner of a page commits it when the signal arrives. -/
theorem signal {o : Tid} (h : Faulting s t p) (hprot : (s.mem.spaces t).prot p = .none)
    (hmem : o ∈ s.threads) (halive : s.mem.alive o = true) (hq : p ∈ s.mem.signals o) : Resolves isHeap t p 3 s := by
  have hs : s.step isHeap (.signal o p) =
      some (s.advance o (s.mem.signalHandler o p) (s.todo o)) := by
    rw [Runtime.step, if_pos ⟨hmem, halive⟩, Mem.step, if_pos hq, Option.map_some]
  have hsame := Mem.signalHandler_sameDirty s.mem o t p
  have hposition : (s.mem.signalHandler o p).position = s.mem.position :=
    congrArg (·.2.2) (Mem.commitOwnedPage_mail (m := { s.mem with
      signals := Function.update s.mem.signals o ((s.mem.signals o).erase p) }) (t := o) (p := p) true)
  refine .cons (by simp [answers]) hs ((h.advance o hposition hsame.cur).read ?_ ?_)
  · exact (congrFun hsame.prot p).trans hprot
  · change ((s.mem.signalHandler o p).pages p).owner = .shared
    rw [Mem.signalHandler, Mem.commitOwnedPage_owner, if_pos ⟨rfl, rfl⟩]

end Faulting

end Runtime

end Dthreads.Memory
