import Dthreads.Memory.Ownership
import Dthreads.Memory.Operations

/-! # Stages of a transaction

Where each process stands in its transaction, and which of its dirty pages have been committed,
follows from what is left of its script. -/

namespace Dthreads.Memory

/-! ## Pages and their owners -/

namespace Mem

variable {m m' : Mem} {t u : Tid} {p q k : ℕ} {a : Act}

/-- The owned pages are used by their owners alone, who find them in their blocks. -/
structure Partitioned (m : Mem) : Prop where
  tidy : ∀ u, (m.spaces u).Tidy
  used : ∀ p, (m.pages p).owner ≠ .none → p < m.position
  queued : ∀ u, ∀ p ∈ m.signals u,
    p < m.position ∧ ∀ o, (m.pages p).owner = .thread o → o = u
  hides : ∀ u, m.alive u = true → ∀ p, m.Foreign u p → (m.spaces u).access p = .none
  owned : ∀ p u, (m.pages p).owner = .thread u →
    m.alive u = true ∧ ∃ b ∈ (m.spaces u).ownedBlocks, b.1 ≤ p ∧ p < b.2

/-- Steps of living processes that access pages in use, and fork or exit without pages of their
own. -/
def Proper (m : Mem) (a : Act) : Prop :=
  m.Acts a ∧ match a with
    | .notify _ p => p < m.position
    | .openProtection t | .closeProtection t => (m.spaces t).dirty = []
    | .fork t child => m.alive child = false ∧ ∀ p, (m.pages p).owner ≠ .thread t
    | .exit t => ∀ p, (m.pages p).owner ≠ .thread t
    | _ => True

theorem storeWord_ownedBlocks (i : Fin 512) (w : Word) :
    ((m.storeWord t p i w).spaces u).ownedBlocks = (m.spaces u).ownedBlocks := by
  unfold storeWord
  split
  · by_cases h : u = t
    · subst h; simp [Space.setPriv]
    · simp [h]
  · rfl

theorem storeBytes_ownedBlocks (val : Addr → Byte) (as : List Addr) :
    ((m.storeBytes t val as).spaces u).ownedBlocks = (m.spaces u).ownedBlocks := by
  induction as generalizing m with
  | nil => rfl
  | cons a as ih => exact (ih (m := m.storeByte t a (val a))).trans (storeWord_ownedBlocks _ _)

theorem commitOwnedPage_ownedBlocks (s : Bool) :
    ((m.commitOwnedPage t p s).spaces u).ownedBlocks = (m.spaces u).ownedBlocks := by
  unfold commitOwnedPage
  cases s with
  | false => rfl
  | true =>
      by_cases h : u = t
      · subst h
        simp [Space.dontneed]
      · simp [h]

theorem handleWrite_ownedBlocks (h : m.handleWrite t p = some m') :
    (m'.spaces u).ownedBlocks = (m.spaces u).ownedBlocks := by
  by_cases hu : u = t
  · subst hu
    have hw : ((m.mprotectWrite u p).spaces u).ownedBlocks = (m.spaces u).ownedBlocks := by
      unfold mprotectWrite
      rw [setSpace_spaces_same]
      split <;> rfl
    unfold handleWrite at h
    split at h
    · rw [addDirty_eq h, setSpace_spaces_same]
      exact (commitOwnedPage_ownedBlocks false).trans hw
    · rw [addDirty_eq h, setSpace_spaces_same]
      exact hw
  · rw [handleWrite_spaces_of_ne h hu]

theorem updateAll_ownedBlocks :
    ((m.updateAll t).spaces u).ownedBlocks = (m.spaces u).ownedBlocks := by
  by_cases h : u = t
  · subst h; simp [updateAll]
  · rw [updateAll_priv_of_ne h]

namespace Partitioned

theorem not_foreign (h : Partitioned m) (ht : m.alive t = true)
    (ha : (m.spaces t).access p ≠ .none) : ¬ m.Foreign t p := fun hf => ha (h.hides t ht p hf)

theorem lt_position (h : Partitioned m) (ht : m.alive t = true)
    (ha : (m.spaces t).access p ≠ .none) : p < m.position :=
  Nat.lt_of_not_le fun hp => h.not_foreign ht ha (.inl hp)

/-- A process with access to an owned page is its owner. -/
theorem owner_eq (h : Partitioned m) (ht : m.alive t = true)
    (ha : (m.spaces t).access p ≠ .none) (ho : (m.pages p).owner = .thread u) : u = t := by
  by_contra hne
  exact h.not_foreign ht ha (.inr ⟨u, hne, ho⟩)

/-- A step that queues no notification, takes no page and gives access to shared pages only. -/
theorem frame (h : Partitioned m) (hmail : m'.mail = m.mail) (htidy : ∀ u, (m'.spaces u).Tidy)
    (howner : ∀ p, (m'.pages p).owner = (m.pages p).owner ∨
      ((m'.pages p).owner = .shared ∧ p < m.position))
    (haccess : ∀ u p, (m.spaces u).access p = .none →
      (m'.spaces u).access p = .none ∨ (m'.pages p).owner = .shared)
    (hblocks : ∀ u, (m'.spaces u).ownedBlocks = (m.spaces u).ownedBlocks) : Partitioned m' := by
  obtain ⟨hs, ha, hp⟩ : m'.signals = m.signals ∧ m'.alive = m.alive ∧ m'.position = m.position := by
    simpa [mail] using hmail
  have hthread : ∀ p o, (m'.pages p).owner = .thread o → (m.pages p).owner = .thread o := by
    intro p o ho
    rcases howner p with hq | ⟨hq, -⟩
    · exact hq ▸ ho
    · rw [hq] at ho
      cases ho
  have hused : ∀ p, (m'.pages p).owner ≠ .none → p < m.position := by
    intro p ho
    rcases howner p with hq | ⟨-, hq⟩
    · exact h.used p (hq ▸ ho)
    · exact hq
  exact
    { tidy := htidy
      used := fun p ho => hp ▸ hused p ho
      queued := by
        intro u p hq
        obtain ⟨h1, h2⟩ := h.queued u p (hs ▸ hq)
        exact ⟨hp ▸ h1, fun o ho => h2 o (hthread p o ho)⟩
      hides := by
        intro u hu p hf
        have hf' : m.Foreign u p := by
          rcases hf with hf | ⟨o, ho, hf⟩
          · exact .inl (hp ▸ hf)
          · exact .inr ⟨o, ho, hthread p o hf⟩
        refine (haccess u p (h.hides u (ha ▸ hu) p hf')).resolve_right fun hc => ?_
        rcases hf with hf | ⟨o, -, hf⟩
        · have := hused p (by simp [hc])
          omega
        · rw [hc] at hf
          cases hf
      owned := by
        intro p u ho
        rw [ha, hblocks]
        exact h.owned p u (hthread p u ho) }

theorem shared (h : Partitioned m) (hp : p < m.position) : Partitioned (m.setSharedPage t p) := by
  refine h.frame setSharedPage_mail
    (fun u => (h.tidy u).of_sameDirty (setSharedPage_sameDirty m t u p)) (fun q => ?_)
    (fun u q hq => ?_) fun _ => setSharedPage_ownedBlocks
  · by_cases hq : q = p
    · subst hq
      exact .inr ⟨by rw [setSharedPage_page], hp⟩
    · exact .inl (by rw [setSharedPage_pages_of_ne hq])
  · by_cases hqp : q = p
    · subst hqp
      exact .inr (by rw [setSharedPage_page])
    · exact .inl ((setSharedPage_access (.inr hqp)).trans hq)

theorem committed (h : Partitioned m) (hp : p < m.position) (s : Bool) :
    Partitioned (m.commitOwnedPage t p s) := by
  have howner := fun q => commitOwnedPage_owner (m := m) (t := t) (p := p) (q := q) s
  refine h.frame (commitOwnedPage_mail s)
    (fun u => (h.tidy u).of_sameDirty (commitOwnedPage_sameDirty m t u p s)) (fun q => ?_)
    (fun u q hq => ?_) fun _ => commitOwnedPage_ownedBlocks s
  · rw [howner]
    split
    · rename_i hq
      exact .inr ⟨rfl, hq.1 ▸ hp⟩
    · exact .inl rfl
  · by_cases hqp : q = p ∧ s = true
    · exact .inr (by rw [howner, if_pos hqp])
    · by_cases hqe : q = p
      · cases s with
        | false => exact .inl hq
        | true => exact absurd ⟨hqe, rfl⟩ hqp
      · exact .inl ((commitOwnedPage_access s (.inr hqe)).trans hq)

theorem notify (h : Partitioned m) (hp : p < m.position) :
    Partitioned (m.notifyOwnerToCommit t p) := by
  have hshare : Partitioned (m.setSharedPage t p) := h.shared hp
  unfold notifyOwnerToCommit
  split
  · exact h
  · exact hshare
  · rename_i o ho
    split
    · exact
        { tidy := h.tidy
          used := h.used
          queued := by
            intro u q hq
            by_cases huo : u = o
            · subst huo
              simp only [Function.update_self, List.mem_append, List.mem_singleton] at hq
              rcases hq with hq | rfl
              · exact h.queued u q hq
              · exact ⟨hp, fun o' ho' => Owner.thread.inj (ho'.symm.trans ho)⟩
            · exact h.queued u q (by simpa [huo] using hq)
          hides := h.hides
          owned := h.owned }
    · exact hshare

theorem handled (h : Partitioned m) (hp : p ∈ m.signals t) : Partitioned (m.signalHandler t p) := by
  have herase : Partitioned
      { m with signals := Function.update m.signals t ((m.signals t).erase p) } :=
    { tidy := h.tidy
      used := h.used
      queued := by
        intro u q hq
        by_cases hut : u = t
        · subst hut
          exact h.queued u q (List.mem_of_mem_erase (by simpa using hq))
        · exact h.queued u q (by simpa [hut] using hq)
      hides := h.hides
      owned := h.owned }
  exact herase.committed (h.queued t p hp).1 true

theorem finalcommit {r : Bool} (h : Partitioned m) (hp : p < m.position) :
    Partitioned (m.finalcommitPage t p r) := by
  cases r with
  | true => exact h.committed hp true
  | false => exact (h.committed hp false).shared hp

theorem orderly (h : Partitioned m) (hl : m.Proper a) : m.Orderly a := by
  cases a with
  | superblock t n =>
      intro d hd
      exact h.lt_position (hl.1 t rfl) ((h.tidy t).accessible d hd)
  | openProtection t => exact hl.2
  | _ => trivial

theorem superblock {n : ℕ} (h : Partitioned m) (ht : m.alive t = true) :
    Partitioned (m.superblock t n) := by
  have hproper : m.Proper (.superblock t n) := ⟨by simp [Acts, Act.actor, ht], trivial⟩
  have htidy := tidy_step (a := .superblock t n) h.tidy (h.orderly hproper) rfl
  cases hprot : (m.spaces t).isProtected with
  | false =>
      have heq : m.superblock t n = { m with position := m.position + n } := by
        unfold Mem.superblock setOwnedPage
        exact if_neg (by simp [hprot])
      rw [heq] at htidy ⊢
      refine ⟨htidy, fun p ho => ?_, fun u p hp => ?_, fun u hu p hf => ?_, h.owned⟩
      · exact Nat.lt_add_right n (h.used p ho)
      · exact ⟨Nat.lt_add_right n (h.queued u p hp).1, (h.queued u p hp).2⟩
      · refine h.hides u hu p ?_
        rcases hf with hf | hf
        · exact .inl (Nat.le_of_add_right_le hf)
        · exact .inr hf
  | true =>
      have heq := superblock_eq n hprot
      rw [heq] at htidy ⊢
      refine ⟨htidy, fun p ho => ?_, fun u p hp => ?_, fun u hu p hf => ?_, fun p u ho => ?_⟩
      · dsimp only at ho ⊢
        split at ho
        · omega
        · exact Nat.lt_add_right n (h.used p ho)
      · obtain ⟨h1, h2⟩ := h.queued u p hp
        refine ⟨Nat.lt_add_right n h1, fun o ho => h2 o ?_⟩
        dsimp only at ho
        rwa [if_neg (by omega)] at ho
      · have hf' : m.Foreign u p := by
          rcases hf with hf | ⟨o, ho, hf⟩
          · dsimp only at hf
            exact .inl (by omega)
          · dsimp only at hf
            split at hf
            · rename_i hin
              exact .inl hin.1
            · exact .inr ⟨o, ho, hf⟩
        have hnone := h.hides u hu p hf'
        by_cases hut : u = t
        · subst hut
          have hin : ¬ (m.position ≤ p ∧ p < m.position + n) := by
            rintro hin
            rcases hf with hf | ⟨o, ho, hf⟩
            · dsimp only at hf
              omega
            · simp only [if_pos hin, Owner.thread.injEq] at hf
              exact ho hf.symm
          simpa [hin] using hnone
        · simpa [hut] using hnone
      · dsimp only at ho ⊢
        split at ho
        · rename_i hin
          obtain rfl := Owner.thread.inj ho
          exact ⟨ht, (m.position, m.position + n), by simp, hin⟩
        · obtain ⟨hu, b, hb, hin⟩ := h.owned p u ho
          refine ⟨hu, b, ?_, hin⟩
          by_cases hut : u = t
          · subst hut
            simp [hb]
          · simpa [hut] using hb

/-- The child gets the access of its parent, which owns nothing. -/
theorem fork {child : Tid} (h : Partitioned m) (hl : m.Proper (.fork t child)) :
    Partitioned (m.fork t child) := by
  obtain ⟨hacts, hdead, hnone⟩ := hl
  have ht : m.alive t = true := hacts t rfl
  have htidy := tidy_step (a := .fork t child) h.tidy trivial rfl
  have halive : ∀ {u}, u ≠ child → (m.fork t child).alive u = m.alive u := by
    intro u hu
    simp [Mem.fork, hu]
  refine ⟨htidy, h.used, fun u p hp => ?_, fun u hu p hf => ?_, fun p u ho => ?_⟩
  · by_cases huc : u = child
    · subst huc
      simp [Mem.fork] at hp
    · exact h.queued u p (by simpa [Mem.fork, huc] using hp)
  · by_cases huc : u = child
    · subst huc
      have hf' : m.Foreign t p := by
        rcases hf with hf | ⟨o, -, hf⟩
        · exact .inl hf
        · exact .inr ⟨o, fun he => hnone p (he ▸ hf), hf⟩
      simpa [Mem.fork] using h.hides t ht p hf'
    · simpa [Mem.fork, huc] using h.hides u (halive huc ▸ hu) p hf
  · obtain ⟨hu, hb⟩ := h.owned p u ho
    have huc : u ≠ child := by
      rintro rfl
      simp [hdead] at hu
    exact ⟨by rw [halive huc, hu], by simpa [Mem.fork, huc] using hb⟩

theorem openProtection (h : Partitioned m) (hd : (m.spaces t).dirty = []) :
    Partitioned (m.openProtection t) := by
  have htidy := tidy_step (a := .openProtection t) h.tidy hd rfl
  have howner : ∀ p u, ((m.openProtection t).pages p).owner ≠ .thread u := by
    intro p u
    simp only [Mem.openProtection]
    split <;> simp
  refine ⟨htidy, fun p ho => ?_,
    fun u p hp => ⟨(h.queued u p hp).1, fun o ho => absurd ho (howner p o)⟩,
    fun u hu p hf => ?_, fun p u ho => ?_⟩
  · by_contra hn
    exact ho (if_neg hn)
  · rcases hf with hf | ⟨o, -, hf⟩
    · by_cases hut : u = t
      · subst hut
        have hp : ¬ p < m.position := not_lt.mpr hf
        simp [Mem.openProtection, hp]
      · simpa [Mem.openProtection, hut] using h.hides u hu p (.inl hf)
    · exact absurd hf (howner p o)
  · exact absurd ho (howner p u)

theorem closeProtection (h : Partitioned m) : Partitioned (m.closeProtection t) := by
  refine h.frame rfl (tidy_step (a := .closeProtection t) h.tidy trivial rfl) (fun _ => .inl rfl)
    (fun u p hp => .inl ?_) fun u => ?_
  · by_cases hut : u = t
    · subst hut
      simpa [Mem.closeProtection] using hp
    · simpa [Mem.closeProtection, hut] using hp
  · by_cases hut : u = t
    · subst hut
      simp [Mem.closeProtection]
    · simp [Mem.closeProtection, hut]

theorem exit (h : Partitioned m) (hnone : ∀ p, (m.pages p).owner ≠ .thread t) :
    Partitioned (m.exit t) := by
  have hold : ∀ {u}, (m.exit t).alive u = true → m.alive u = true := by
    intro u hu
    by_cases hut : u = t
    · subst hut
      simp [Mem.exit] at hu
    · simpa [Mem.exit, hut] using hu
  refine ⟨h.tidy, h.used, h.queued, fun u hu => h.hides u (hold hu), fun p u ho => ?_⟩
  obtain ⟨hu, hb⟩ := h.owned p u ho
  have hut : u ≠ t := by
    rintro rfl
    exact hnone p ho
  exact ⟨by simpa [Mem.exit, hut] using hu, hb⟩

theorem step (h : Partitioned m) (hl : m.Proper a) (hs : m.step a = some m') :
    Partitioned m' := by
  have htidy := tidy_step h.tidy (h.orderly hl) hs
  cases a with
  | load t a =>
      simp only [Mem.step, Option.ite_none_right_eq_some, Option.some.injEq] at hs
      obtain ⟨-, rfl⟩ := hs
      exact h
  | store t as f =>
      simp only [Mem.step, Option.ite_none_right_eq_some, Option.some.injEq] at hs
      obtain ⟨-, rfl⟩ := hs
      exact h.frame (storeBytes_mail _ as) htidy
        (fun p => .inl (congrArg Table.owner (storeBytes_table (q := p) _ as)))
        (fun u p hp => .inl (by rw [storeBytes_access, hp])) fun u => storeBytes_ownedBlocks _ as
  | fault t p =>
      simp only [Mem.step, Option.ite_none_right_eq_some] at hs
      obtain ⟨⟨-, ha⟩, hs⟩ := hs
      refine h.frame (handleWrite_mail hs) htidy (fun q => .inl ?_) (fun u q hq => .inl ?_)
        fun u => handleWrite_ownedBlocks hs
      · have ht := congrArg Table.owner (handleWrite_table (q := q) hs)
        rw [table_owner] at ht
        split at ht <;> exact ht
      · by_cases hu : u = t
        · subst hu
          rw [handleWrite_access hs, if_neg, hq]
          rintro ⟨rfl, -⟩
          exact ha hq
        · rw [handleWrite_spaces_of_ne hs hu, hq]
  | notify t p =>
      simp only [Mem.step, Option.ite_none_right_eq_some, Option.some.injEq] at hs
      obtain ⟨-, rfl⟩ := hs
      exact h.notify hl.2
  | mprotectRead t p =>
      simp only [Mem.step, Option.ite_none_right_eq_some, Option.some.injEq] at hs
      obtain ⟨⟨-, ho⟩, rfl⟩ := hs
      refine h.frame rfl htidy (fun _ => .inl rfl) (fun u q hq => ?_) fun u => ?_
      · by_cases hqp : q = p
        · exact .inr (hqp ▸ ho)
        · by_cases hu : u = t
          · subst hu
            exact .inl (by simpa [mprotectRead, Space.setProt, Space.setAccess, hqp] using hq)
          · exact .inl (by simpa [mprotectRead, hu] using hq)
      · by_cases hu : u = t
        · subst hu
          simp [mprotectRead, Space.setProt, Space.setAccess]
        · simp [mprotectRead, hu]
  | setWord t o w =>
      simp only [Mem.step, Option.ite_none_right_eq_some, Option.some.injEq] at hs
      obtain ⟨-, rfl⟩ := hs
      exact h.frame (storeWord_mail _ w) htidy
        (fun p => .inl (congrArg Table.owner (storeWord_table (q := p) _ w)))
        (fun u p hp => .inl (by rw [storeWord_access, hp])) fun u => storeWord_ownedBlocks _ w
  | memWrite t o w =>
      obtain rfl := Option.some.inj hs
      exact h.frame rfl htidy (fun p => .inl (congrArg Table.owner (memWrite_table (q := p) o w)))
        (fun _ _ hp => .inl hp) fun _ => rfl
  | commitEntry t k =>
      refine h.frame (commitEntry_mail hs) htidy (fun q => ?_) (fun u q hq => ?_)
        fun u => commitEntry_ownedBlocks hs
      · rcases Addressed.commitEntry_owner hs q with hq | ⟨hq, d, hd, -, rfl⟩
        · exact .inl hq
        · exact .inr ⟨hq, h.lt_position (hl.1 t rfl)
            ((h.tidy t).accessible d (List.mem_of_getElem? hd))⟩
      · by_cases ho : (m'.pages q).owner = .shared
        · exact .inr ho
        · exact .inl ((commitEntry_access hs ho).trans hq)
  | begin t =>
      obtain rfl := Option.some.inj hs
      exact h.frame rfl htidy (fun _ => .inl rfl) (fun u q hq => .inl (by rw [updateAll_access, hq]))
        fun u => updateAll_ownedBlocks
  | finalcommit t p r =>
      simp only [Mem.step, Option.ite_none_right_eq_some, Option.some.injEq] at hs
      obtain ⟨ho, rfl⟩ := hs
      exact h.finalcommit (h.used p (by simp [ho]))
  | superblock t n =>
      obtain rfl := Option.some.inj hs
      exact h.superblock (hl.1 t rfl)
  | signal t p =>
      simp only [Mem.step, Option.ite_none_right_eq_some, Option.some.injEq] at hs
      obtain ⟨hp, rfl⟩ := hs
      exact h.handled hp
  | cleanup =>
      obtain rfl := Option.some.inj hs
      exact h.frame rfl htidy (fun _ => .inl rfl) (fun _ _ hp => .inl hp) fun _ => rfl
  | openProtection t =>
      obtain rfl := Option.some.inj hs
      exact h.openProtection hl.2
  | closeProtection t =>
      obtain rfl := Option.some.inj hs
      exact h.closeProtection
  | fork t child =>
      obtain rfl := Option.some.inj hs
      exact h.fork hl
  | exit t =>
      obtain rfl := Option.some.inj hs
      exact h.exit hl.2

/-- `finalcommit` finds every page that its process owns. -/
theorem nextOwned_eq_none (h : Partitioned m) (hn : m.nextOwned t = none) :
    (m.pages p).owner ≠ .thread t := by
  intro ho
  obtain ⟨-, b, hb, hin⟩ := h.owned p t ho
  rw [nextOwned, List.find?_eq_none] at hn
  refine hn p (List.mem_flatMap.mpr ⟨b, hb, ?_⟩) (by simpa using ho)
  rw [List.mem_range'_1]
  omega

end Partitioned

theorem nextOwned_owner (h : m.nextOwned t = some p) : (m.pages p).owner = .thread t := by
  simpa using List.find?_some h

/-- A process without protection faults on no page. -/
def Unfaulted (m : Mem) : Prop :=
  ∀ u, (m.spaces u).isProtected = false →
    (∀ p, (m.spaces u).prot p = .readWrite) ∧ (m.spaces u).dirty = []

theorem Unfaulted.frame (h : Unfaulted m) (hs : ∀ u, (m.spaces u).SameDirty (m'.spaces u)) :
    Unfaulted m' := by
  intro u hu
  rw [(hs u).prot, (hs u).dirty]
  exact h u ((hs u).isProtected.symm.trans hu)

/-- A step of `t` that leaves the spaces of the others alone, and `t` protected. -/
theorem Unfaulted.frame_protected (h : Unfaulted m) (hu : ∀ u, u ≠ t → m'.spaces u = m.spaces u)
    (ht : (m'.spaces t).isProtected = true) : Unfaulted m' := by
  intro u hp
  have hut : u ≠ t := by
    rintro rfl
    rw [ht] at hp
    cases hp
  rw [hu u hut] at hp ⊢
  exact h u hp

theorem Unfaulted.step (h : Unfaulted m) (hl : m.Proper a) (hs : m.step a = some m') :
    Unfaulted m' := by
  cases a with
  | load t a =>
      simp only [Mem.step, Option.ite_none_right_eq_some, Option.some.injEq] at hs
      obtain ⟨-, rfl⟩ := hs
      exact h
  | store t as f =>
      simp only [Mem.step, Option.ite_none_right_eq_some, Option.some.injEq] at hs
      obtain ⟨-, rfl⟩ := hs
      exact h.frame fun u => storeBytes_sameDirty m t u _ as
  | fault t p =>
      simp only [Mem.step, Option.ite_none_right_eq_some] at hs
      obtain ⟨⟨hw, -⟩, hs⟩ := hs
      obtain ⟨e, hf, -⟩ := handleWrite_space hs
      refine h.frame_protected (fun u => handleWrite_spaces_of_ne hs) ?_
      rw [hf.isProtected]
      by_contra hp
      exact hw ((h t (Bool.eq_false_iff.mpr hp)).1 p)
  | notify t p =>
      simp only [Mem.step, Option.ite_none_right_eq_some, Option.some.injEq] at hs
      obtain ⟨-, rfl⟩ := hs
      exact h.frame fun u => notifyOwnerToCommit_sameDirty m t u p
  | mprotectRead t p =>
      simp only [Mem.step, Option.ite_none_right_eq_some, Option.some.injEq] at hs
      obtain ⟨⟨hw, -⟩, rfl⟩ := hs
      refine h.frame_protected (t := t) (fun u hu => by simp [mprotectRead, hu]) ?_
      have hp : (m.spaces t).isProtected = true := by
        by_contra hp
        have hrw := (h t (Bool.eq_false_iff.mpr hp)).1 p
        rw [hw] at hrw
        cases hrw
      simpa [mprotectRead, Space.setProt, Space.setAccess] using hp
  | setWord t o w =>
      simp only [Mem.step, Option.ite_none_right_eq_some, Option.some.injEq] at hs
      obtain ⟨-, rfl⟩ := hs
      exact h.frame fun u => storeWord_sameDirty m t u _ _ _
  | memWrite t o w =>
      obtain rfl := Option.some.inj hs
      exact h
  | commitEntry t k =>
      intro u hu
      by_cases hut : u = t
      · subst hut
        obtain ⟨d, hc⟩ := commitEntry_space hs
        have hd := (h u (hc.isProtected.symm.trans hu)).2
        have hk := hc.getElem
        rw [hd] at hk
        cases hk
      · have hsame := commitEntry_spaces_of_ne hs hut
        rw [hsame.prot, hsame.dirty]
        exact h u (hsame.isProtected.symm.trans hu)
  | begin t =>
      obtain rfl := Option.some.inj hs
      intro u hu
      by_cases hut : u = t
      · subst hut
        rw [updateAll_isProtected] at hu
        refine ⟨fun p => ?_, updateAll_dirty⟩
        rw [updateAll_prot, (h u hu).2, if_neg (by simp), (h u hu).1]
      · rw [updateAll_priv_of_ne hut] at hu ⊢
        exact h u hu
  | finalcommit t p r =>
      simp only [Mem.step, Option.ite_none_right_eq_some, Option.some.injEq] at hs
      obtain ⟨-, rfl⟩ := hs
      exact h.frame fun u => finalcommitPage_sameDirty m t u p r
  | superblock t n =>
      obtain rfl := Option.some.inj hs
      cases hp : (m.spaces t).isProtected with
      | false =>
          have heq : m.superblock t n = { m with position := m.position + n } := by
            unfold superblock setOwnedPage
            exact if_neg (by simp [hp])
          rw [heq]
          exact h
      | true =>
          refine h.frame_protected (fun u => superblock_spaces_of_ne) ?_
          rw [superblock_eq n hp]
          simpa using hp
  | signal t p =>
      simp only [Mem.step, Option.ite_none_right_eq_some, Option.some.injEq] at hs
      obtain ⟨-, rfl⟩ := hs
      exact h.frame fun u => signalHandler_sameDirty m t u p
  | cleanup =>
      obtain rfl := Option.some.inj hs
      exact h
  | openProtection t =>
      obtain rfl := Option.some.inj hs
      exact h.frame_protected (t := t) (fun u hu => by simp [openProtection, hu])
        (by simp [openProtection])
  | closeProtection t =>
      obtain rfl := Option.some.inj hs
      intro u hu
      by_cases hut : u = t
      · subst hut
        have hd : (m.spaces u).dirty = [] := hl.2
        simp [closeProtection, hd]
      · simp only [closeProtection, setSpace_spaces_of_ne _ _ _ _ hut] at hu ⊢
        exact h u hu
  | fork t child =>
      obtain rfl := Option.some.inj hs
      intro u hu
      by_cases huc : u = child
      · subst huc
        simp only [fork, Function.update_self] at hu ⊢
        exact h t hu
      · simp only [fork, Function.update_of_ne huc] at hu ⊢
        exact h u hu
  | exit t =>
      obtain rfl := Option.some.inj hs
      exact h

end Mem

/-! ## Bystanders -/

/-- The process whose dirty list, pages, protection or life an action may change. -/
def Act.concerns : Act → Option Tid
  | .fault t _ | .commitEntry t _ | .begin t | .superblock t _ | .openProtection t
  | .closeProtection t | .exit t => some t
  | .fork _ child => some child
  | _ => none

/-- Process `u` keeps its dirty list and lives on; it gets no page. -/
structure Mem.Bystander (m m' : Mem) (u : Tid) : Prop where
  dirty : (m'.spaces u).dirty = (m.spaces u).dirty
  release : (m'.spaces u).release = (m.spaces u).release
  isProtected : (m'.spaces u).isProtected = (m.spaces u).isProtected
  owner : ∀ p, (m'.pages p).owner = .thread u → (m.pages p).owner = .thread u
  alive : m'.alive u = m.alive u

namespace Mem

variable {m m' : Mem} {t u : Tid} {p q k : ℕ} {a : Act}

theorem Bystander.refl (m : Mem) (u : Tid) : Bystander m m u :=
  ⟨rfl, rfl, rfl, fun _ h => h, rfl⟩

theorem Bystander.of_sameDirty (hs : (m.spaces u).SameDirty (m'.spaces u))
    (ho : ∀ p, (m'.pages p).owner = (m.pages p).owner ∨ (m'.pages p).owner = .shared)
    (ha : m'.alive = m.alive) : Bystander m m' u := by
  refine ⟨hs.dirty, hs.release, hs.isProtected, fun p hp => ?_, by rw [ha]⟩
  rcases ho p with h | h
  · exact h ▸ hp
  · rw [h] at hp
    cases hp

theorem setSharedPage_owner_or : ((m.setSharedPage t p).pages q).owner = (m.pages q).owner ∨
    ((m.setSharedPage t p).pages q).owner = .shared := by
  by_cases hq : q = p
  · subst hq
    exact .inr (by rw [setSharedPage_page])
  · exact .inl (by rw [setSharedPage_pages_of_ne hq])

theorem commitOwnedPage_owner_or (s : Bool) :
    ((m.commitOwnedPage t p s).pages q).owner = (m.pages q).owner ∨
      ((m.commitOwnedPage t p s).pages q).owner = .shared := by
  rw [commitOwnedPage_owner]
  split
  · exact .inr rfl
  · exact .inl rfl

theorem commitOwnedPage_alive (s : Bool) : (m.commitOwnedPage t p s).alive = m.alive := by
  have h := congrArg (fun x => x.2.1) (commitOwnedPage_mail (m := m) (t := t) (p := p) s)
  exact h

theorem bystander (hs : m.step a = some m') (hu : a.concerns ≠ some u) : Bystander m m' u := by
  cases a with
  | load t a =>
      simp only [step, Option.ite_none_right_eq_some, Option.some.injEq] at hs
      obtain ⟨-, rfl⟩ := hs
      exact .refl m u
  | store t as f =>
      simp only [step, Option.ite_none_right_eq_some, Option.some.injEq] at hs
      obtain ⟨-, rfl⟩ := hs
      exact .of_sameDirty (storeBytes_sameDirty m t u _ as)
        (fun p => .inl (congrArg Table.owner (storeBytes_table (q := p) _ as)))
        (congrArg (fun x => x.2.1) (storeBytes_mail (m := m) (t := t) _ as))
  | fault t p =>
      simp only [step, Option.ite_none_right_eq_some] at hs
      have hut : u ≠ t := fun he => hu (by rw [he]; rfl)
      have hspace := handleWrite_spaces_of_ne hs.2 hut
      refine ⟨by rw [hspace], by rw [hspace], by rw [hspace], fun q hq => ?_,
        congrArg (fun x => x.2.1 u) (handleWrite_mail hs.2)⟩
      have ht := congrArg Table.owner (handleWrite_table (q := q) hs.2)
      rw [table_owner] at ht
      split at ht <;> exact ht.symm.trans hq
  | notify t p =>
      simp only [step, Option.ite_none_right_eq_some, Option.some.injEq] at hs
      obtain ⟨-, rfl⟩ := hs
      have hshared : Bystander m (m.setSharedPage t p) u :=
        .of_sameDirty (setSharedPage_sameDirty m t u p) (fun _ => setSharedPage_owner_or)
          (congrArg (fun x => x.2.1) (setSharedPage_mail (m := m) (t := t) (p := p)))
      unfold notifyOwnerToCommit
      split
      · exact .refl m u
      · exact hshared
      · split
        · exact ⟨rfl, rfl, rfl, fun _ h => h, rfl⟩
        · exact hshared
  | mprotectRead t p =>
      simp only [step, Option.ite_none_right_eq_some, Option.some.injEq] at hs
      obtain ⟨-, rfl⟩ := hs
      by_cases hut : u = t
      · subst hut
        exact ⟨by simp [mprotectRead, Space.setProt, Space.setAccess],
          by simp [mprotectRead, Space.setProt, Space.setAccess],
          by simp [mprotectRead, Space.setProt, Space.setAccess], fun _ h => h, rfl⟩
      · have hspace : (m.mprotectRead t p).spaces u = m.spaces u := by simp [mprotectRead, hut]
        exact ⟨by rw [hspace], by rw [hspace], by rw [hspace], fun _ h => h, rfl⟩
  | setWord t o w =>
      simp only [step, Option.ite_none_right_eq_some, Option.some.injEq] at hs
      obtain ⟨-, rfl⟩ := hs
      exact .of_sameDirty (storeWord_sameDirty m t u _ _ _)
        (fun p => .inl (congrArg Table.owner (storeWord_table (q := p) _ w)))
        (congrArg (fun x => x.2.1) (storeWord_mail (m := m) (t := t) _ w))
  | memWrite t o w =>
      obtain rfl := Option.some.inj hs
      exact ⟨rfl, rfl, rfl, fun p hp =>
        (congrArg Table.owner (memWrite_table (q := p) o w)).symm.trans hp, rfl⟩
  | commitEntry t k =>
      have hut : u ≠ t := fun he => hu (by rw [he]; rfl)
      refine .of_sameDirty (commitEntry_spaces_of_ne hs hut) (fun q => ?_)
        (congrArg (fun x => x.2.1) (commitEntry_mail hs))
      rcases Addressed.commitEntry_owner hs q with hq | ⟨hq, -⟩
      · exact .inl hq
      · exact .inr hq
  | begin t =>
      obtain rfl := Option.some.inj hs
      have hut : u ≠ t := fun he => hu (by rw [he]; rfl)
      have hspace : (m.updateAll t).spaces u = m.spaces u := updateAll_priv_of_ne hut
      exact ⟨by rw [hspace], by rw [hspace], by rw [hspace], fun _ h => h, rfl⟩
  | finalcommit t p r =>
      simp only [step, Option.ite_none_right_eq_some, Option.some.injEq] at hs
      obtain ⟨-, rfl⟩ := hs
      refine .of_sameDirty (finalcommitPage_sameDirty m t u p r) (fun q => ?_)
        (congrArg (fun x => x.2.1) (finalcommitPage_mail (m := m) (t := t) (p := p) r))
      cases r with
      | true => exact commitOwnedPage_owner_or true
      | false =>
          rcases setSharedPage_owner_or (m := m.commitOwnedPage t p false) (t := t) (p := p)
            (q := q) with h | h
          · rw [commitOwnedPage_owner, if_neg (by simp)] at h
            exact .inl h
          · exact .inr h
  | superblock t n =>
      obtain rfl := Option.some.inj hs
      have hut : u ≠ t := fun he => hu (by rw [he]; rfl)
      have hspace : (m.superblock t n).spaces u = m.spaces u := superblock_spaces_of_ne hut
      refine ⟨by rw [hspace], by rw [hspace], by rw [hspace], fun p hp => ?_, ?_⟩
      · unfold superblock setOwnedPage at hp
        dsimp only at hp
        split at hp
        · dsimp only at hp
          split at hp
          · exact absurd (Owner.thread.inj hp).symm hut
          · exact hp
        · exact hp
      · unfold superblock setOwnedPage
        dsimp only
        split <;> rfl
  | signal t p =>
      simp only [step, Option.ite_none_right_eq_some, Option.some.injEq] at hs
      obtain ⟨-, rfl⟩ := hs
      exact .of_sameDirty (signalHandler_sameDirty m t u p) (fun q => commitOwnedPage_owner_or true)
        (commitOwnedPage_alive true)
  | cleanup =>
      obtain rfl := Option.some.inj hs
      exact ⟨rfl, rfl, rfl, fun _ h => h, rfl⟩
  | openProtection t =>
      obtain rfl := Option.some.inj hs
      have hut : u ≠ t := fun he => hu (by rw [he]; rfl)
      refine ⟨by simp [openProtection, hut], by simp [openProtection, hut],
        by simp [openProtection, hut], fun p hp => ?_, rfl⟩
      simp only [openProtection] at hp
      split at hp <;> cases hp
  | closeProtection t =>
      obtain rfl := Option.some.inj hs
      have hut : u ≠ t := fun he => hu (by rw [he]; rfl)
      exact ⟨by simp [closeProtection, hut], by simp [closeProtection, hut],
        by simp [closeProtection, hut], fun _ h => h, rfl⟩
  | fork t child =>
      obtain rfl := Option.some.inj hs
      have huc : u ≠ child := fun he => hu (by rw [he]; rfl)
      exact ⟨by simp [fork, huc], by simp [fork, huc], by simp [fork, huc], fun _ h => h,
        by simp [fork, huc]⟩
  | exit t =>
      obtain rfl := Option.some.inj hs
      have hut : u ≠ t := fun he => hu (by rw [he]; rfl)
      exact ⟨rfl, rfl, rfl, fun _ h => h, by simp [exit, hut]⟩

end Mem

/-! ## Where a process stands -/

/-- The part of its transaction that a process is in. -/
inductive Stage where
  /-- Its entries wait for a commit. -/
  | working
  /-- The commit has still to visit these entries. -/
  | entries (ks : List ℕ)
  | committed
  /-- The next transaction has begun, and nothing has been stored in it. -/
  | begun
  | deregistered
  | gone
  deriving DecidableEq

structure Mode where
  stage : Stage
  /-- The process owns no page. -/
  released : Bool
  /-- The protection is known to be open. -/
  isProtected : Bool
  /-- The thread exits, so that this is its last commit. -/
  leaving : Bool
  deriving DecidableEq

namespace Mode

/-- What a phase of the script does to the mode, `none` where it has no place. -/
def after : Mode → Phase → Option Mode
  | ⟨.begun, _, _, false⟩, .openProtection => some ⟨.committed, false, true, false⟩
  | ⟨.committed, _, g, false⟩, .begin => some ⟨.begun, false, g, false⟩
  | ⟨.working, r, g, l⟩, .commit | ⟨.begun, r, g, l⟩, .commit => some ⟨.committed, r, g, l⟩
  | ⟨.entries ks, r, g, l⟩, .entries js => if ks = js then some ⟨.committed, r, g, l⟩ else none
  | ⟨.working, _, g, _⟩, .finalcommit false => some ⟨.working, true, g, true⟩
  | ⟨.committed, _, g, l⟩, .finalcommit true => some ⟨.committed, true, g, l⟩
  | ⟨.committed, r, g, l⟩, .condInit _ _ | ⟨.committed, r, g, l⟩, .memWrite _ _
  | ⟨.committed, r, g, l⟩, .cleanup | ⟨.committed, r, g, l⟩, .await _
  | ⟨.committed, r, g, l⟩, .result _ _ => some ⟨.committed, r, g, l⟩
  | ⟨.committed, true, true, false⟩, .clone _ => some ⟨.committed, true, true, false⟩
  | ⟨.begun, r, _, false⟩, .closeProtection => some ⟨.begun, r, false, false⟩
  | ⟨.committed, true, g, true⟩, .deregister => some ⟨.deregistered, true, g, true⟩
  | ⟨.deregistered, true, g, l⟩, .retval _ => some ⟨.deregistered, true, g, l⟩
  | ⟨.deregistered, true, g, l⟩, .exit => some ⟨.gone, true, g, l⟩
  | _, _ => none

/-- The script fits the mode it is started in, and ends in the program's code. -/
def fits : Mode → List Phase → Bool
  | md, [] => ((md.stage = .working || md.stage = .begun) && !md.leaving) || md.stage = .gone
  | md, ph :: rest => (md.after ph).any (·.fits rest)

/-- Process `t` is where the mode says. The entries that a commit has left behind it are processed
if the account is `strict`: then the runtime adds none before the next begin. -/
structure Holds (strict : Prop) (md : Mode) (s : Runtime) (t : Tid) : Prop where
  stage : match md.stage with
    | .working => ∀ d ∈ (s.mem.spaces t).dirty, d.processed = false
    | .entries ks => ks.Nodup ∧
        ∀ k d, (s.mem.spaces t).dirty[k]? = some d → (d.processed = false ↔ k ∈ ks)
    | .begun => (s.mem.spaces t).dirty = []
    | .committed | .deregistered | .gone =>
        strict → ∀ d ∈ (s.mem.spaces t).dirty, d.processed = true
  released : md.released = true → ∀ p, (s.mem.pages p).owner ≠ .thread t
  isProtected : md.isProtected = true → (s.mem.spaces t).isProtected = true
  exited : s.exited t = true ↔ md.stage = .deregistered ∨ md.stage = .gone
  alive : s.mem.alive t = true ↔ md.stage ≠ .gone

variable {strict : Prop} {md md' : Mode} {s s' : Runtime} {t : Tid} {ph : Phase} {rest : List Phase}

theorem fits_cons : md.fits (ph :: rest) = true ↔
    ∃ md', md.after ph = some md' ∧ md'.fits rest = true := by
  rw [fits, Option.any_eq_true]

theorem Holds.keep (h : md.Holds strict s t) (hb : s.mem.Bystander s'.mem t)
    (hx : s'.exited t = s.exited t) : md.Holds strict s' t where
  stage := by
    rw [hb.dirty]
    exact h.stage
  released hr p hp := h.released hr p (hb.owner p hp)
  isProtected hp := hb.isProtected.trans (h.isProtected hp)
  exited := by rw [hx, h.exited]
  alive := by rw [hb.alive, h.alive]

/-- A call made in the middle of a transaction. -/
theorem fits_script (r : Bool) (op : Op) :
    fits ⟨.working, r, true, false⟩ (op.script true) = true := by
  cases op with
  | barrierWait lastThread => cases lastThread <;> rfl
  | _ => rfl

/-- Without protection there is no dirty page. -/
theorem fits_script_unprotected (r : Bool) {op : Op} (h : op.enabled false = true) :
    fits ⟨.begun, r, false, false⟩ (op.script false) = true := by
  cases op with
  | spawn child | join child result => rfl
  | _ => cases h

/-- A transaction that has come to its commit is the last one only of a thread that exits. -/
theorem not_exit_of_fits (hfits : md.fits rest = true) (hl : md.leaving = false)
    (hw : md.stage ≠ .working) (hd : md.stage ≠ .deregistered) : Phase.exit ∉ rest := by
  induction rest generalizing md with
  | nil => simp
  | cons ph rest ih =>
      obtain ⟨md', hafter, hrest⟩ := fits_cons.mp hfits
      obtain ⟨stage, r, g, l⟩ := md
      obtain rfl : l = false := hl
      have hnext : ph ≠ .exit ∧ md'.leaving = false ∧ md'.stage ≠ .working ∧
          md'.stage ≠ .deregistered := by
        unfold after at hafter
        split at hafter <;> simp_all
        all_goals
          obtain ⟨-, rfl⟩ := hafter
          simp
      rw [List.mem_cons, not_or]
      exact ⟨hnext.1.symm, ih hrest hnext.2.1 hnext.2.2.1 hnext.2.2.2⟩

/-- A thread that leaves has its exit before it. -/
theorem exit_of_fits (hfits : md.fits rest = true) (hl : md.leaving = true)
    (hg : md.stage ≠ .gone) : Phase.exit ∈ rest := by
  induction rest generalizing md with
  | nil => simp [fits, hl, hg] at hfits
  | cons ph rest ih =>
      obtain ⟨md', hafter, hrest⟩ := fits_cons.mp hfits
      obtain ⟨stage, r, g, l⟩ := md
      obtain rfl : l = true := hl
      have hnext : ph = .exit ∨ (md'.leaving = true ∧ md'.stage ≠ .gone) := by
        unfold after at hafter
        split at hafter <;> simp_all
        all_goals
          obtain ⟨-, rfl⟩ := hafter
          simp
      rcases hnext with rfl | ⟨hl', hg'⟩
      · exact List.mem_cons_self
      · exact List.mem_cons_of_mem ph (ih hrest hl' hg')

end Mode

namespace Runtime

variable {isHeap : ℕ → Bool} {strict : Prop} {s s' : Runtime} {t u : Tid} {m' : Mem} {ph : Phase}
  {rest : List Phase} {a : Act}

/-- Every process is where its script says. -/
structure Staged (strict : Prop) (s : Runtime) : Prop where
  nodup : s.threads.Nodup
  partitioned : s.mem.Partitioned
  unfaulted : s.mem.Unfaulted
  alive : ∀ u, s.mem.alive u = true → u ∈ s.threads
  idle : ∀ u, u ∉ s.threads → s.todo u = []
  /-- The protection is closed only for the last thread. -/
  alone : ∀ t ∈ s.threads, (s.mem.spaces t).isProtected = false →
    ∀ u ∈ s.threads, u ≠ t → s.exited u = true
  modes : ∀ u ∈ s.threads, ∃ md : Mode, md.Holds strict s u ∧ md.fits (s.todo u) = true

/-- The runtime stores to no page between a commit and the next begin that it must first make
writable. -/
def StoresWritable (_ : Runtime) : Event → Prop
  | .fault _ (.fault _ _) => False
  | _ => True

instance (s : Runtime) : (e : Event) → Decidable (StoresWritable s e)
  | .fault _ (.fault _ _) => .isFalse id
  | .fault _ (.load ..) | .fault _ (.store ..) | .fault _ (.notify ..) | .fault _ (.mprotectRead ..)
  | .fault _ (.setWord ..) | .fault _ (.memWrite ..) | .fault _ (.commitEntry ..)
  | .fault _ (.begin ..) | .fault _ (.finalcommit ..) | .fault _ (.superblock ..)
  | .fault _ (.signal ..) | .fault _ .cleanup | .fault _ (.openProtection ..)
  | .fault _ (.closeProtection ..) | .fault _ (.fork ..) | .fault _ (.exit ..)
  | .user .. | .call .. | .next .. | .signal .. => .isTrue trivial

theorem boot_staged (strict : Prop) (position : ℕ) : Staged strict (boot position) where
  nodup := by simp [boot]
  partitioned := by
    refine ⟨fun u => .of_nil rfl, fun p hp => absurd rfl hp, fun u p hp => ?_, fun _ _ _ _ => rfl,
      fun p u hp => ?_⟩
    · simp [boot, Mem.boot] at hp
    · simp [boot, Mem.boot] at hp
  unfaulted _ _ := ⟨fun _ => rfl, rfl⟩
  alive u hu := by simpa [boot, Mem.boot] using hu
  idle _ _ := rfl
  alone t ht _ u hu hut := by
    simp only [boot, List.mem_singleton] at ht hu
    exact absurd (hu.trans ht.symm) hut
  modes u hu := by
    obtain rfl : u = 1 := by simpa [boot] using hu
    refine ⟨⟨.begun, false, false, false⟩, ⟨rfl, by simp, by simp, ?_, ?_⟩, rfl⟩
    · simp [boot]
    · simp [boot, Mem.boot]

namespace Staged

theorem of_mem_todo (h : Staged strict s) (ht : s.todo t = ph :: rest) : t ∈ s.threads := by
  by_contra hn
  rw [h.idle t hn] at ht
  cases ht

/-- Where a process stands that has a phase to go through. -/
theorem mode_of_todo (h : Staged strict s) (ht : s.todo t = ph :: rest) :
    ∃ md md' : Mode, md.Holds strict s t ∧ md.after ph = some md' ∧ md'.fits rest = true := by
  obtain ⟨md, hmd, hfits⟩ := h.modes t (h.of_mem_todo ht)
  rw [ht, Mode.fits_cons] at hfits
  obtain ⟨md', hafter, hrest⟩ := hfits
  exact ⟨md, md', hmd, hafter, hrest⟩

/-- A process in the program's code works in a transaction. -/
theorem working (h : Staged strict s) (ht : t ∈ s.threads) (hx : s.exited t = false)
    (htodo : s.todo t = []) :
    Mode.Holds strict ⟨.working, false, (s.mem.spaces t).isProtected, false⟩ s t := by
  obtain ⟨⟨stage, r, g, l⟩, hmd, hfits⟩ := h.modes t ht
  rw [htodo] at hfits
  have hne : stage ≠ .gone := by
    rintro rfl
    exact Bool.false_ne_true (hx.symm.trans (hmd.exited.mpr (.inr rfl)))
  obtain ⟨hstage, -⟩ : (stage = .working ∨ stage = .begun) ∧ l = false := by
    simpa [Mode.fits, hne] using hfits
  have hw : ∀ d ∈ (s.mem.spaces t).dirty, d.processed = false := by
    rcases hstage with rfl | rfl
    · exact hmd.stage
    · have hd : (s.mem.spaces t).dirty = [] := hmd.stage
      simp [hd]
  exact ⟨hw, by simp, id, by simp [hx], by simpa [hne] using hmd.alive⟩

/-- The words that the threads hand over have no part in it. -/
theorem congr (h : Staged strict s) (hmem : s'.mem = s.mem) (hthreads : s'.threads = s.threads)
    (htodo : s'.todo = s.todo) (hexited : s'.exited = s.exited) : Staged strict s' := by
  cases s
  cases s'
  cases hmem
  cases hthreads
  cases htodo
  cases hexited
  exact ⟨h.nodup, h.partitioned, h.unfaulted, h.alive, h.idle, h.alone, fun u hu => by
    obtain ⟨md, hmd, hfits⟩ := h.modes u hu
    exact ⟨md, ⟨hmd.stage, hmd.released, hmd.isProtected, hmd.exited, hmd.alive⟩, hfits⟩⟩

/-- A step of process `t`. -/
theorem moved (h : Staged strict s) (ht : t ∈ s.threads) (hthreads : s'.threads = s.threads)
    (htodo : ∀ u, u ≠ t → s'.todo u = s.todo u) (hexited : ∀ u, u ≠ t → s'.exited u = s.exited u)
    (hexit : s.exited t = true → s'.exited t = true)
    (hopen : (s'.mem.spaces t).isProtected = false → (s.mem.spaces t).isProtected = false ∨
      ∀ u ∈ s.threads, u ≠ t → s.exited u = true)
    (hpart : s'.mem.Partitioned) (hun : s'.mem.Unfaulted)
    (hby : ∀ u, u ≠ t → s.mem.Bystander s'.mem u)
    (hmode : ∃ md : Mode, md.Holds strict s' t ∧ md.fits (s'.todo t) = true) : Staged strict s' where
  nodup := hthreads ▸ h.nodup
  partitioned := hpart
  unfaulted := hun
  alive u hu := by
    rw [hthreads]
    by_cases hut : u = t
    · exact hut ▸ ht
    · exact h.alive u ((hby u hut).alive.symm.trans hu)
  idle u hu := by
    rw [hthreads] at hu
    have hut : u ≠ t := fun he => hu (he ▸ ht)
    rw [htodo u hut, h.idle u hu]
  alone v hv hp u hu huv := by
    rw [hthreads] at hv hu
    have hx : s.exited u = true := by
      by_cases hvt : v = t
      · subst hvt
        rcases hopen hp with hp | hx
        · exact h.alone v hv hp u hu huv
        · exact hx u hu huv
      · exact h.alone v hv ((hby v hvt).isProtected.symm.trans hp) u hu huv
    by_cases hut : u = t
    · subst hut
      exact hexit hx
    · rw [hexited u hut, hx]
  modes u hu := by
    by_cases hut : u = t
    · exact hut ▸ hmode
    · obtain ⟨md, hmd, hfits⟩ := h.modes u (hthreads ▸ hu)
      exact ⟨md, hmd.keep (hby u hut) (hexited u hut), by rw [htodo u hut, hfits]⟩

/-- Process `t` takes an action on the memory. -/
theorem acted (h : Staged strict s) (ht : t ∈ s.threads) (ha : s.mem.Proper a)
    (hs : s.mem.step a = some m') (hc : ∀ u ∈ a.concerns, u = t)
    (hopen : (m'.spaces t).isProtected = false → (s.mem.spaces t).isProtected = false ∨
      ∀ u ∈ s.threads, u ≠ t → s.exited u = true)
    (hmode : ∃ md : Mode, md.Holds strict (s.advance t m' rest) t ∧ md.fits rest = true) :
    Staged strict (s.advance t m' rest) := by
  refine h.moved ht rfl (fun u hu => by simp [advance, hu]) (fun _ _ => rfl) id hopen
    (h.partitioned.step ha hs) (h.unfaulted.step ha hs) (fun u hu => ?_) ?_
  · exact Mem.bystander hs fun he => hu (hc u he)
  · simpa [advance] using hmode

/-- Process `t` takes an action that concerns nobody, and its mode stays. -/
theorem acted_aside (h : Staged strict s) (ht : t ∈ s.threads) (ha : s.mem.Proper a)
    (hs : s.mem.step a = some m') (hc : a.concerns = none) {md : Mode} (hmd : md.Holds strict s t)
    (hfits : md.fits rest = true) : Staged strict (s.advance t m' rest) := by
  have hb : s.mem.Bystander m' t := Mem.bystander hs (by simp [hc])
  exact h.acted ht ha hs (by simp [hc]) (fun hp => .inl (hb.isProtected.symm.trans hp))
    ⟨md, hmd.keep hb rfl, hfits⟩

/-- Process `t` goes on in its script. -/
theorem turned (h : Staged strict s) (ht : t ∈ s.threads) {md : Mode}
    (hmd : md.Holds strict s t) (hfits : md.fits rest = true) : Staged strict (s.advance t s.mem rest) :=
  h.moved ht rfl (fun u hu => by simp [advance, hu]) (fun _ _ => rfl) id .inl h.partitioned
    h.unfaulted (fun u _ => .refl _ u) ⟨md, hmd.keep (.refl _ t) rfl, by simpa [advance] using hfits⟩

/-! ## The program's code -/

theorem allows_proper (ha : s.mem.allows t a = true) (ht : s.mem.alive t = true) :
    s.mem.Proper a ∧ ∀ u ∈ a.concerns, u = t := by
  cases a with
  | notify u p =>
      obtain ⟨rfl, -, hp⟩ : u = t ∧ _ ∧ p < s.mem.position := by simpa [Mem.allows] using ha
      exact ⟨⟨by simp [Mem.Acts, Act.actor, ht], hp⟩, by simp [Act.concerns]⟩
  | commitEntry | begin | finalcommit | signal | cleanup | openProtection | closeProtection | fork
  | exit => simp [Mem.allows] at ha
  | _ =>
      obtain rfl : _ = t := by simpa [Mem.allows] using ha
      exact ⟨⟨by simp [Mem.Acts, Act.actor, ht], trivial⟩, by simp [Act.concerns]⟩

/-- What the program does leaves its entries to the next commit. -/
theorem dirty_of_allows (ha : s.mem.allows t a = true) (hs : s.mem.step a = some m')
    (hw : ∀ d ∈ (s.mem.spaces t).dirty, d.processed = false) :
    (∀ d ∈ (m'.spaces t).dirty, d.processed = false) ∧ m'.alive = s.mem.alive ∧
      (m'.spaces t).isProtected = (s.mem.spaces t).isProtected := by
  by_cases hc : a.concerns = none
  · have hb : ∀ u, s.mem.Bystander m' u := fun u => Mem.bystander hs (by simp [hc])
    exact ⟨by rw [(hb t).dirty]; exact hw, funext fun u => (hb u).alive, (hb t).isProtected⟩
  · cases a with
    | fault u p =>
        obtain rfl : u = t := by simpa [Mem.allows] using ha
        simp only [Mem.step, Option.ite_none_right_eq_some] at hs
        obtain ⟨e, hf, -⟩ := Mem.handleWrite_space hs.2
        refine ⟨fun d hd => ?_, congrArg (fun x => x.2.1) (Mem.handleWrite_mail hs.2),
          hf.isProtected⟩
        rw [hf.dirty, Space.mem_insertDirty] at hd
        rcases hd with rfl | hd
        · exact hf.unprocessed
        · exact hw d hd
    | superblock u n =>
        obtain rfl : u = t := by simpa [Mem.allows] using ha
        obtain rfl := Option.some.inj hs
        unfold Mem.superblock Mem.setOwnedPage
        dsimp only
        split
        · exact ⟨by simpa using hw, rfl, by simp⟩
        · exact ⟨hw, rfl, rfl⟩
    | commitEntry | begin | exit | fork | openProtection | closeProtection => simp [Mem.allows] at ha
    | _ => exact absurd rfl hc

theorem user (h : Staged strict s) (ht : t ∈ s.threads) (hx : s.exited t = false)
    (htodo : s.todo t = []) (ha : s.mem.allows t a = true) (hs : s.mem.step a = some m') :
    Staged strict (s.advance t m' []) := by
  have hmd := h.working ht hx htodo
  obtain ⟨hproper, hc⟩ := allows_proper ha (hmd.alive.mpr (by simp))
  obtain ⟨hw, halive, hprot⟩ := dirty_of_allows ha hs hmd.stage
  refine h.acted ht hproper hs hc (fun hp => .inl (hprot.symm.trans hp))
    ⟨⟨.working, false, false, false⟩, ⟨hw, by simp, by simp, ?_, ?_⟩, rfl⟩
  · simpa [advance] using hmd.exited
  · simp only [advance, halive]
    simpa using hmd.alive

theorem call (h : Staged strict s) (ht : t ∈ s.threads) (hx : s.exited t = false)
    (htodo : s.todo t = []) {op : Op} (hop : op.enabled (s.mem.spaces t).isProtected = true) :
    Staged strict (s.advance t s.mem (op.script (s.mem.spaces t).isProtected)) := by
  have hmd := h.working ht hx htodo
  cases hp : (s.mem.spaces t).isProtected with
  | true =>
      rw [hp] at hmd
      exact h.turned ht hmd (Mode.fits_script false op)
  | false =>
      have hbegun : Mode.Holds strict ⟨.begun, false, false, false⟩ s t :=
        ⟨(h.unfaulted t hp).2, by simp, by simp, by simpa using hmd.exited, by simpa using hmd.alive⟩
      exact h.turned ht hbegun (Mode.fits_script_unprotected false (hp ▸ hop))

/-! ## The phases -/

theorem nodup_atomicEnd (m : Mem) (t : Tid) : (m.atomicEnd t isHeap).Nodup := by
  unfold Mem.atomicEnd
  split
  · exact Mem.nodup_entries isHeap
  · exact List.nodup_nil

/-- The commit visits every entry. -/
theorem mem_atomicEnd {m : Mem} {k : ℕ} {d : PageInfo} (hun : m.Unfaulted)
    (hd : (m.spaces t).dirty[k]? = some d) : k ∈ m.atomicEnd t isHeap := by
  unfold Mem.atomicEnd
  split
  · have hk : k < (m.spaces t).dirty.length := (List.getElem?_eq_some_iff.mp hd).1
    simp only [Mem.entriesOf, List.mem_append, List.mem_filter, List.mem_range, hd]
    cases hh : isHeap d.pageNo with
    | true => exact .inl ⟨hk, by simpa using hh⟩
    | false => exact .inr ⟨hk, by simpa using hh⟩
  · rename_i hp
    rw [(hun t (by simpa using hp)).2] at hd
    simp at hd

theorem entries_of_working (hun : s.mem.Unfaulted) {r g l : Bool}
    (hw : ∀ d ∈ (s.mem.spaces t).dirty, d.processed = false)
    (hmd : Mode.Holds False ⟨.committed, r, g, l⟩ s t) :
    Mode.Holds strict ⟨.entries (s.mem.atomicEnd t isHeap), r, g, l⟩ s t where
  stage := by
    refine ⟨nodup_atomicEnd s.mem t, fun k d hd => ?_⟩
    have hw : d.processed = false := hw d (List.mem_of_getElem? hd)
    simp [hw, mem_atomicEnd hun hd]
  released := hmd.released
  isProtected := hmd.isProtected
  exited := by simpa using hmd.exited
  alive := by simpa using hmd.alive

/-- One turn of the commit loop. -/
theorem commitEntry_holds {k : ℕ} {ks : List ℕ} {r g l : Bool}
    (hmd : Mode.Holds strict ⟨.entries (k :: ks), r, g, l⟩ s t)
    (hs : s.mem.commitEntry t k = some m') :
    Mode.Holds strict ⟨.entries ks, r, g, l⟩ (s.advance t m' rest) t := by
  obtain ⟨d, hc⟩ := Mem.commitEntry_space hs
  obtain ⟨hnodup, hiff⟩ := hmd.stage
  obtain ⟨hk, hnodup⟩ := List.nodup_cons.mp hnodup
  refine ⟨⟨hnodup, fun j e he => ?_⟩, fun hr p hp => ?_,
    fun hg => hc.isProtected.trans (hmd.isProtected hg), ?_, ?_⟩
  · simp only [advance] at he
    rw [hc.dirty, List.getElem?_set] at he
    split at he
    · rename_i hj
      subst hj
      split at he
      · obtain rfl := Option.some.inj he
        simpa using hk
      · cases he
    · rename_i hj
      rw [hiff j e he, List.mem_cons]
      exact or_iff_right fun he => hj he.symm
  · rcases Mem.Addressed.commitEntry_owner hs p with hq | ⟨hq, -⟩
    · exact hmd.released hr p (hq.symm.trans hp)
    · exact absurd (hq.symm.trans hp) (by simp)
  · simpa [advance] using hmd.exited
  · have ha : m'.alive t = s.mem.alive t := congrArg (fun x => x.2.1 t) (Mem.commitEntry_mail hs)
    simpa [advance, ha] using hmd.alive

/-- A phase between the commit and the begin. -/
theorem committed_of_after {md md' : Mode} (hafter : md.after ph = some md')
    (hph : (∃ o e, ph = .condInit o e) ∨ (∃ o e, ph = .memWrite o e) ∨ ph = .cleanup ∨
      (∃ c, ph = .await c) ∨ ∃ c d, ph = .result c d) : md' = md ∧ md.stage = .committed := by
  obtain ⟨stage, r, g, l⟩ := md
  obtain ⟨o, e, rfl⟩ | ⟨o, e, rfl⟩ | rfl | ⟨c, rfl⟩ | ⟨c, d, rfl⟩ := hph <;>
    cases stage <;> simp_all [Mode.after]

theorem acts {md : Mode} (hmd : md.Holds strict s t) (hne : md.stage ≠ .gone)
    (ha : ∀ u ∈ a.actor, u = t) : s.mem.Acts a := by
  intro u hu
  rw [ha u hu]
  exact hmd.alive.mpr hne

/-- A store between the commit and the begin. -/
theorem stored {md : Mode} {o : SyncAddr} {w : Word} (h : Staged strict s) (ht : t ∈ s.threads)
    (hmd : md.Holds strict s t) (hstage : md.stage = .committed) (hw : s.mem.writable t o.page)
    (hfits : md.fits rest = true) :
    Staged strict (s.advance t (s.mem.storeWord t o.page o.word w) rest) := by
  have hacts : s.mem.Acts (.setWord t o w) := acts hmd (by simp [hstage]) (by simp [Act.actor])
  exact h.acted_aside ht ⟨hacts, trivial⟩ (if_pos hw) rfl hmd hfits

theorem clone (h : Staged strict s) {child : Tid} (htodo : s.todo t = .clone child :: rest)
    (hfresh : child ∉ s.threads) :
    Staged strict
      { mem := s.mem.fork t child
        threads := s.threads ++ [child]
        todo := Function.update (Function.update s.todo t rest) child [.begin]
        exited := Function.update s.exited child false
        retval := Function.update s.retval child fun _ => 0
        stack := s.stack } := by
  obtain ⟨md, md', hmd, hafter, hfits⟩ := h.mode_of_todo htodo
  have ht := h.of_mem_todo htodo
  obtain ⟨rfl, rfl⟩ : md = ⟨.committed, true, true, false⟩ ∧ md' = ⟨.committed, true, true, false⟩ := by
    obtain ⟨stage, r, g, l⟩ := md
    cases stage <;> cases r <;> cases g <;> cases l <;> simp_all [Mode.after]
  have htc : t ≠ child := fun he => hfresh (he ▸ ht)
  have hdead : s.mem.alive child = false := by
    by_contra hn
    exact hfresh (h.alive child (by simpa using hn))
  have hproper : s.mem.Proper (.fork t child) :=
    ⟨acts hmd (by simp) (by simp [Act.actor]), hdead, hmd.released rfl⟩
  have hby : ∀ u, u ≠ child → s.mem.Bystander (s.mem.fork t child) u := fun u hu =>
    Mem.bystander (a := .fork t child) rfl (by simp [Act.concerns, hu.symm])
  have hopen : (s.mem.spaces t).isProtected = true := hmd.isProtected rfl
  refine ⟨?_, h.partitioned.step hproper rfl, h.unfaulted.step hproper rfl, fun u hu => ?_,
    fun u hu => ?_, fun v hv hp => ?_, fun u hu => ?_⟩
  · exact List.Nodup.append h.nodup (List.nodup_singleton child) (by simpa using hfresh)
  · rw [List.mem_append, List.mem_singleton]
    by_cases huc : u = child
    · exact .inr huc
    · exact .inl (h.alive u ((hby u huc).alive.symm.trans hu))
  · rw [List.mem_append, List.mem_singleton, not_or] at hu
    have hut : u ≠ t := fun he => hu.1 (he ▸ ht)
    simpa [hu.2, hut] using h.idle u hu.1
  · exfalso
    by_cases hvc : v = child
    · subst hvc
      simp [Mem.fork, hopen] at hp
    · have hv : v ∈ s.threads := by simpa [hvc] using hv
      have hp := (hby v hvc).isProtected.symm.trans hp
      have htv : t ≠ v := by
        rintro rfl
        rw [hopen] at hp
        cases hp
      have hx := hmd.exited.mp (h.alone v hv hp t ht htv)
      simp at hx
  · by_cases huc : u = child
    · subst huc
      refine ⟨⟨.committed, false, false, false⟩,
        ⟨fun hstrict => ?_, by simp, by simp, by simp, by simp [Mem.fork]⟩, ?_⟩
      · simpa [Mem.fork] using hmd.stage hstrict
      · simp only [Function.update_self]
        rfl
    · have hmem : u ∈ s.threads := by simpa [huc] using hu
      obtain ⟨md, hold, hf⟩ := h.modes u hmem
      by_cases hut : u = t
      · subst hut
        exact ⟨_, hmd.keep (hby u huc) (by simp [huc]), by simpa [huc] using hfits⟩
      · exact ⟨md, hold.keep (hby u huc) (by simp [huc]), by simpa [huc, hut] using hf⟩

/-- With one thread alive, the others have exited. -/
theorem others_exited (h : Staged strict s) (hsingle : s.isSingleAliveThread = true)
    (ht : t ∈ s.threads) (hx : s.exited t = false) :
    ∀ u ∈ s.threads, u ≠ t → s.exited u = true := by
  intro u hu hut
  by_contra hn
  have hsub : List.Subperm [u, t] (s.threads.filter fun v => !s.exited v) := by
    refine (List.nodup_cons.mpr ⟨by simpa using hut, List.nodup_singleton t⟩).subperm fun v hv => ?_
    rcases List.mem_cons.mp hv with rfl | hv
    · exact List.mem_filter.mpr ⟨hu, by simpa using hn⟩
    · obtain rfl := List.mem_singleton.mp hv
      exact List.mem_filter.mpr ⟨ht, by simp [hx]⟩
  have hlen := hsub.length_le
  have hone : s.threads.countP (fun v => !s.exited v) = 1 := by
    simpa [isSingleAliveThread] using hsingle
  rw [← List.countP_eq_length_filter, hone] at hlen
  simp at hlen

theorem next (h : Staged strict s) (hs : s.next isHeap t = some s') : Staged strict s' := by
  cases htodo : s.todo t with
  | nil => simp [Runtime.next, htodo] at hs
  | cons ph rest =>
      obtain ⟨md, md', hmd, hafter, hfits⟩ := h.mode_of_todo htodo
      have ht := h.of_mem_todo htodo
      unfold Runtime.next at hs
      rw [htodo] at hs
      cases ph with
      | openProtection =>
          obtain rfl := Option.some.inj hs
          obtain ⟨stage, r, g, l⟩ := md
          obtain ⟨rfl, rfl⟩ : stage = .begun ∧ md' = ⟨.committed, false, true, false⟩ := by
            cases stage <;> cases l <;> simp_all [Mode.after]
          have hd : (s.mem.spaces t).dirty = [] := hmd.stage
          split
          · rename_i hopen
            have hheld : Mode.Holds strict ⟨.committed, false, true, false⟩ s t :=
              ⟨fun _ => by simp [hd], by simp, fun _ => hopen, by simpa using hmd.exited,
                by simpa using hmd.alive⟩
            exact h.turned ht hheld hfits
          · have hproper : s.mem.Proper (.openProtection t) :=
              ⟨acts hmd (by simp) (by simp [Act.actor]), hd⟩
            have hopen : ((s.mem.openProtection t).spaces t).isProtected = true := by
              simp [Mem.openProtection]
            refine h.acted ht hproper rfl (by simp [Act.concerns]) (by simp [hopen])
              ⟨⟨.committed, false, true, false⟩,
                ⟨fun _ => ?_, by simp, fun _ => hopen, ?_, ?_⟩, hfits⟩
            · simp [advance, Mem.openProtection, hd]
            · simpa [advance] using hmd.exited
            · simpa [advance, Mem.openProtection] using hmd.alive
      | begin =>
          obtain rfl := Option.some.inj hs
          obtain ⟨stage, r, g, l⟩ := md
          obtain ⟨rfl, rfl⟩ : stage = .committed ∧ md' = ⟨.begun, false, g, false⟩ := by
            cases stage <;> cases l <;> simp_all [Mode.after]
          unfold Mem.atomicBegin
          split
          · have hacts : s.mem.Acts (.begin t) := acts hmd (by simp) (by simp [Act.actor])
            refine h.acted ht ⟨hacts, trivial⟩ rfl (by simp [Act.concerns])
              (by simp only [Mem.updateAll_isProtected]; exact .inl)
              ⟨⟨.begun, false, g, false⟩, ⟨?_, by simp, fun hg => ?_, ?_, ?_⟩, hfits⟩
            · simp [advance]
            · simpa [advance] using hmd.isProtected hg
            · simpa [advance] using hmd.exited
            · simpa [advance, Mem.updateAll] using hmd.alive
          · rename_i hp
            have hheld : Mode.Holds strict ⟨.begun, false, g, false⟩ s t :=
              ⟨(h.unfaulted t (by simpa using hp)).2, by simp, hmd.isProtected,
                by simpa using hmd.exited, by simpa using hmd.alive⟩
            exact h.turned ht hheld hfits
      | commit =>
          obtain rfl := Option.some.inj hs
          obtain ⟨stage, r, g, l⟩ := md
          obtain ⟨hstage, rfl⟩ : (stage = .working ∨ stage = .begun) ∧ md' = ⟨.committed, r, g, l⟩ := by
            cases stage <;> simp_all [Mode.after]
          have hw : ∀ d ∈ (s.mem.spaces t).dirty, d.processed = false := by
            rcases hstage with rfl | rfl
            · exact hmd.stage
            · have hd : (s.mem.spaces t).dirty = [] := hmd.stage
              simp [hd]
          have hloose : Mode.Holds False ⟨.committed, r, g, l⟩ s t := by
            have hx := hmd.exited
            have ha := hmd.alive
            refine ⟨fun hf => hf.elim, hmd.released, hmd.isProtected, ?_, ?_⟩
            · rcases hstage with rfl | rfl <;> simpa using hx
            · rcases hstage with rfl | rfl <;> simpa using ha
          have hentries : Mode.Holds strict ⟨.entries (s.mem.atomicEnd t isHeap), r, g, l⟩ s t :=
            entries_of_working h.unfaulted hw hloose
          exact h.turned ht hentries (by simpa [Mode.fits, Mode.after] using hfits)
      | entries ks =>
          obtain ⟨stage, r, g, l⟩ := md
          obtain ⟨rfl, rfl⟩ : stage = .entries ks ∧ md' = ⟨.committed, r, g, l⟩ := by
            cases stage <;> simp_all [Mode.after]
          cases ks with
          | nil =>
              obtain rfl := Option.some.inj hs
              have hdone : Mode.Holds strict ⟨.committed, r, g, l⟩ s t := by
                refine ⟨fun _ d hd => ?_, hmd.released, hmd.isProtected, ?_, ?_⟩
                · obtain ⟨k, hk⟩ := List.mem_iff_getElem?.mp hd
                  simpa using hmd.stage.2 k d hk
                · simpa using hmd.exited
                · simpa using hmd.alive
              exact h.turned ht hdone hfits
          | cons k ks =>
              rw [Option.map_eq_some_iff] at hs
              obtain ⟨m', hm, rfl⟩ := hs
              have hacts : s.mem.Acts (.commitEntry t k) := acts hmd (by simp) (by simp [Act.actor])
              have hheld : Mode.Holds strict ⟨.entries ks, r, g, l⟩
                  (s.advance t m' (.entries ks :: rest)) t := commitEntry_holds hmd hm
              refine h.acted ht ⟨hacts, trivial⟩ hm (by simp [Act.concerns]) (fun hp => .inl ?_)
                ⟨_, hheld, by simpa [Mode.fits, Mode.after] using hfits⟩
              obtain ⟨d, hc⟩ := Mem.commitEntry_space hm
              exact hc.isProtected.symm.trans hp
      | finalcommit release =>
          have hne : md.stage ≠ .gone := by
            obtain ⟨stage, r, g, l⟩ := md
            cases stage <;> cases release <;> simp_all [Mode.after]
          have hheld : (∀ p, (s.mem.pages p).owner ≠ .thread t) → md'.Holds strict s t := by
            intro hnone
            obtain ⟨stage, r, g, l⟩ := md
            have hx := hmd.exited
            have ha := hmd.alive
            cases release with
            | false =>
                obtain ⟨rfl, rfl⟩ : stage = .working ∧ md' = ⟨.working, true, g, true⟩ := by
                  cases stage <;> simp_all [Mode.after]
                exact ⟨hmd.stage, fun _ => hnone, hmd.isProtected, by simpa using hx,
                  by simpa using ha⟩
            | true =>
                obtain ⟨rfl, rfl⟩ : stage = .committed ∧ md' = ⟨.committed, true, g, l⟩ := by
                  cases stage <;> simp_all [Mode.after]
                exact ⟨hmd.stage, fun _ => hnone, hmd.isProtected, hx, ha⟩
          cases hn : s.mem.nextOwned t with
          | none =>
              rw [hn] at hs
              obtain rfl := Option.some.inj hs
              exact h.turned ht (hheld fun p => h.partitioned.nextOwned_eq_none hn) hfits
          | some p =>
              rw [hn] at hs
              obtain rfl := Option.some.inj hs
              have ho := Mem.nextOwned_owner hn
              have hacts : s.mem.Acts (.finalcommit t p release) :=
                acts hmd hne (by simp [Act.actor])
              refine h.acted_aside ht ⟨hacts, trivial⟩ (if_pos ho) rfl hmd ?_
              rw [Mode.fits_cons]
              exact ⟨md', hafter, hfits⟩
      | condInit o e =>
          obtain ⟨rfl, hstage⟩ := committed_of_after hafter (.inl ⟨o, e, rfl⟩)
          simp only [Option.ite_none_left_eq_some] at hs
          obtain ⟨-, hs⟩ := hs
          split at hs
          · obtain rfl := Option.some.inj hs
            exact h.turned ht hmd hfits
          · simp only [Option.ite_none_right_eq_some, Option.some.injEq] at hs
            obtain ⟨hw, rfl⟩ := hs
            refine h.stored ht hmd hstage hw ?_
            rw [Mode.fits_cons]
            refine ⟨md', ?_, hfits⟩
            obtain ⟨stage, r, g, l⟩ := md'
            subst hstage
            simp [Mode.after]
      | memWrite o e =>
          obtain ⟨rfl, hstage⟩ := committed_of_after hafter (.inr (.inl ⟨o, e, rfl⟩))
          obtain rfl := Option.some.inj hs
          have hacts : s.mem.Acts (.memWrite t o e) :=
            acts hmd (by simp [hstage]) (by simp [Act.actor])
          exact h.acted_aside ht ⟨hacts, trivial⟩ rfl rfl hmd hfits
      | cleanup =>
          obtain ⟨rfl, hstage⟩ := committed_of_after hafter (.inr (.inr (.inl rfl)))
          obtain rfl := Option.some.inj hs
          have hacts : s.mem.Acts .cleanup := acts hmd (by simp [hstage]) (by simp [Act.actor])
          exact h.acted_aside ht ⟨hacts, trivial⟩ rfl rfl hmd hfits
      | clone child =>
          simp only [Option.ite_none_left_eq_some, Option.some.injEq] at hs
          obtain ⟨hfresh, rfl⟩ := hs
          exact h.clone htodo hfresh
      | await child =>
          obtain ⟨rfl, hstage⟩ := committed_of_after hafter
            (.inr (.inr (.inr (.inl ⟨child, rfl⟩))))
          simp only [Option.ite_none_right_eq_some, Option.some.injEq] at hs
          obtain ⟨-, rfl⟩ := hs
          exact h.turned ht hmd hfits
      | result child dest =>
          obtain ⟨rfl, hstage⟩ := committed_of_after hafter
            (.inr (.inr (.inr (.inr ⟨child, dest, rfl⟩))))
          cases dest with
          | null =>
              obtain rfl := Option.some.inj hs
              exact h.turned ht hmd hfits
          | stack =>
              obtain rfl := Option.some.inj hs
              exact (h.turned ht hmd hfits).congr rfl rfl rfl rfl
          | region o =>
              simp only [Option.ite_none_right_eq_some, Option.some.injEq] at hs
              obtain ⟨hw, rfl⟩ := hs
              exact h.stored ht hmd hstage hw hfits
      | closeProtection =>
          obtain rfl := Option.some.inj hs
          obtain ⟨stage, r, g, l⟩ := md
          obtain ⟨rfl, rfl⟩ : stage = .begun ∧ md' = ⟨.begun, r, false, false⟩ := by
            cases stage <;> cases l <;> simp_all [Mode.after]
          have hd : (s.mem.spaces t).dirty = [] := hmd.stage
          have hheld : Mode.Holds strict ⟨.begun, r, false, false⟩ s t :=
            ⟨hmd.stage, hmd.released, by simp, hmd.exited, hmd.alive⟩
          split
          · rename_i hsingle
            have hacts : s.mem.Acts (.closeProtection t) :=
              acts hmd (by simp) (by simp [Act.actor])
            refine h.acted ht ⟨hacts, hd⟩ rfl (by simp [Act.concerns]) (fun _ => .inr ?_)
              ⟨⟨.begun, r, false, false⟩, ⟨?_, hmd.released, by simp, ?_, ?_⟩, hfits⟩
            · exact h.others_exited hsingle ht (by simpa using hmd.exited)
            · simp [advance, Mem.closeProtection, hd]
            · simpa [advance] using hmd.exited
            · simpa [advance, Mem.closeProtection] using hmd.alive
          · exact h.turned ht hheld hfits
      | deregister =>
          obtain rfl := Option.some.inj hs
          obtain ⟨stage, r, g, l⟩ := md
          obtain ⟨rfl, rfl, rfl⟩ : stage = .committed ∧ r = true ∧
              md' = ⟨.deregistered, true, g, true⟩ := by
            cases stage <;> cases r <;> cases l <;> simp_all [Mode.after]
          refine h.moved ht rfl (fun u hu => by simp [advance, hu]) (fun u hu => by simp [hu])
            (by simp) .inl h.partitioned h.unfaulted (fun u _ => .refl _ u)
            ⟨⟨.deregistered, true, g, true⟩, ⟨hmd.stage, hmd.released, hmd.isProtected, ?_, ?_⟩, ?_⟩
          · simp
          · simpa [advance] using hmd.alive
          · simpa [advance] using hfits
      | retval x =>
          obtain rfl := Option.some.inj hs
          obtain ⟨stage, r, g, l⟩ := md
          obtain ⟨rfl, rfl, rfl⟩ : stage = .deregistered ∧ r = true ∧
              md' = ⟨.deregistered, true, g, l⟩ := by
            cases stage <;> cases r <;> simp_all [Mode.after]
          exact (h.turned ht hmd hfits).congr rfl rfl rfl rfl
      | exit =>
          obtain rfl := Option.some.inj hs
          obtain ⟨stage, r, g, l⟩ := md
          obtain ⟨rfl, rfl, rfl⟩ : stage = .deregistered ∧ r = true ∧ md' = ⟨.gone, true, g, l⟩ := by
            cases stage <;> cases r <;> simp_all [Mode.after]
          have hacts : s.mem.Acts (.exit t) := acts hmd (by simp) (by simp [Act.actor])
          refine h.acted ht ⟨hacts, hmd.released rfl⟩ rfl (by simp [Act.concerns]) .inl
            ⟨⟨.gone, true, g, l⟩, ⟨hmd.stage, hmd.released, hmd.isProtected, ?_, ?_⟩, hfits⟩
          · simpa [advance] using hmd.exited
          · simp [advance, Mem.exit]

/-- What is left of the script after a step. -/
theorem rest_suffix (h : Staged strict s) (htodo : s.todo t = ph :: rest)
    (hs : s.next isHeap t = some s') : rest <:+ s'.todo t := by
  unfold Runtime.next at hs
  rw [htodo] at hs
  cases ph with
  | entries ks =>
      cases ks with
      | nil =>
          obtain rfl := Option.some.inj hs
          simp [advance]
      | cons k ks =>
          obtain ⟨m', -, rfl⟩ := Option.map_eq_some_iff.mp hs
          simp [advance]
  | finalcommit release =>
      dsimp only at hs
      split at hs <;> obtain rfl := Option.some.inj hs <;> simp [advance]
  | condInit o e =>
      simp only [Option.ite_none_left_eq_some] at hs
      obtain ⟨-, hs⟩ := hs
      split at hs
      · obtain rfl := Option.some.inj hs
        simp [advance]
      · obtain ⟨-, rfl⟩ := by simpa using hs
        simp [advance]
  | clone child =>
      simp only [Option.ite_none_left_eq_some, Option.some.injEq] at hs
      obtain ⟨hfresh, rfl⟩ := hs
      have htc : t ≠ child := by
        rintro rfl
        exact hfresh (h.of_mem_todo htodo)
      simp [htc]
  | await child =>
      obtain ⟨-, rfl⟩ := by simpa using hs
      simp [advance]
  | result child dest =>
      cases dest with
      | null | stack =>
          obtain rfl := Option.some.inj hs
          simp [advance]
      | region o =>
          obtain ⟨-, rfl⟩ := by simpa using hs
          simp [advance]
  | _ =>
      obtain rfl := Option.some.inj hs
      simp [advance]

/-- A script that is about to store is between a commit and a begin. -/
theorem committed_of_target {p : ℕ} (h : Staged strict s) (ht : s.target t = some p) :
    t ∈ s.threads ∧ ∃ md : Mode, md.Holds strict s t ∧ md.fits (s.todo t) = true ∧ md.stage = .committed := by
  cases htodo : s.todo t with
  | nil => simp [target, htodo] at ht
  | cons ph rest =>
      have hmem := h.of_mem_todo htodo
      obtain ⟨md, hmd, hfits⟩ := h.modes t hmem
      refine ⟨hmem, md, hmd, by rw [← htodo, hfits], ?_⟩
      rw [htodo, Mode.fits_cons] at hfits
      obtain ⟨md', hafter, -⟩ := hfits
      cases ph with
      | condInit o e => exact (committed_of_after hafter (.inl ⟨o, e, rfl⟩)).2
      | result c d =>
          exact (committed_of_after hafter (.inr (.inr (.inr (.inr ⟨c, d, rfl⟩))))).2
      | _ => simp [target, htodo] at ht

theorem step {e : Event} (h : Staged strict s) (hg : strict → StoresWritable s e)
    (hs : s.step isHeap e = some s') : Staged strict s' := by
  cases e with
  | user t a =>
      simp only [Runtime.step, Option.ite_none_right_eq_some, Option.map_eq_some_iff] at hs
      obtain ⟨⟨ht, hx, htodo, ha⟩, m', hm, rfl⟩ := hs
      exact h.user ht hx htodo ha hm
  | call t op =>
      simp only [Runtime.step, Option.ite_none_right_eq_some, Option.some.injEq] at hs
      obtain ⟨⟨ht, hx, htodo, hop⟩, rfl⟩ := hs
      exact h.call ht hx htodo hop
  | next t => exact h.next hs
  | fault t a =>
      simp only [Runtime.step, Option.ite_none_right_eq_some, Option.map_eq_some_iff,
        Option.any_eq_true] at hs
      obtain ⟨⟨p, htarget, ha⟩, m', hm, rfl⟩ := hs
      obtain ⟨ht, md, hmd, hfits, hstage⟩ := h.committed_of_target htarget
      have hne : md.stage ≠ .gone := by simp [hstage]
      cases a with
      | notify u q =>
          obtain ⟨rfl, rfl, -, hp⟩ : u = t ∧ q = p ∧ _ ∧ p < s.mem.position := by
            simpa [Mem.handles] using ha
          exact h.acted_aside ht ⟨acts hmd hne (by simp [Act.actor]), hp⟩ hm rfl hmd hfits
      | mprotectRead u q =>
          obtain ⟨rfl, rfl⟩ : u = t ∧ q = p := by simpa [Mem.handles] using ha
          exact h.acted_aside ht ⟨acts hmd hne (by simp [Act.actor]), trivial⟩ hm rfl hmd hfits
      | fault u q =>
          obtain ⟨rfl, rfl⟩ : u = t ∧ q = p := by simpa [Mem.handles] using ha
          have hproper : s.mem.Proper (.fault u q) :=
            ⟨acts hmd hne (by simp [Act.actor]), trivial⟩
          have hm' := hm
          simp only [Mem.step, Option.ite_none_right_eq_some] at hm'
          obtain ⟨d, hf, -⟩ := Mem.handleWrite_space hm'.2
          have halive : m'.alive = s.mem.alive :=
            congrArg (fun x => x.2.1) (Mem.handleWrite_mail hm'.2)
          refine h.acted ht hproper hm (by simp [Act.concerns])
            (fun hp => .inl (hf.isProtected.symm.trans hp))
            ⟨md, ⟨?_, fun hr x hx => ?_, fun hp => hf.isProtected.trans (hmd.isProtected hp),
              hmd.exited, ?_⟩, hfits⟩
          · rw [hstage]
            exact fun hstrict => (hg hstrict).elim
          · have hown := congrArg Table.owner (Mem.handleWrite_table (q := x) hm'.2)
            rw [Mem.table_owner] at hown
            refine hmd.released hr x ?_
            split at hown <;> exact hown.symm.trans hx
          · simpa [advance, halive] using hmd.alive
      | _ => simp [Mem.handles] at ha
  | signal t p =>
      simp only [Runtime.step, Option.ite_none_right_eq_some, Option.map_eq_some_iff] at hs
      obtain ⟨⟨ht, halive⟩, m', hm, rfl⟩ := hs
      obtain ⟨md, hmd, hfits⟩ := h.modes t ht
      have hacts : s.mem.Acts (.signal t p) := by simp [Mem.Acts, Act.actor, halive]
      exact h.acted_aside ht ⟨hacts, trivial⟩ hm rfl hmd hfits

end Staged

end Runtime

end Dthreads.Memory
