import Dthreads.Memory.Notify
import Dthreads.Memory.Commit

/-! # Exclusive ownership

The pages of a superblock are accessible to the process that took it and to no other: they come
from the unused end of the heap, where nobody has access, and a process that wants one of them
first has its owner give it up. -/

namespace Dthreads.Memory

open Transition

/-- A process without access to page `p`. -/
structure Space.Hides (s : Space) (p : ℕ) : Prop where
  prot : s.prot p = .none
  access : s.access p = .none
  priv : s.priv p = none

namespace Mem

variable {m m' : Mem} {t u v : Tid} {p q k : ℕ}

/-- How the runtime uses the machine between two openings of the protection. Exited processes take
no action, a process computes what it stores from pages it can read and accesses pages in use only,
every entry is committed once, and a process gives up its pages before it forks. -/
def Lawful (m : Mem) (a : Act) : Prop :=
  m.Acts a ∧ match a with
    | .store t as f => ∀ x y : Addr → Byte, (∀ b : Addr, (m.spaces t).prot b.page ≠ .none → x b = y b) →
        ∀ b ∈ as, f x b = f y b
    | .notify _ p => p < m.position
    | .commitEntry t k => ∀ d ∈ (m.spaces t).dirty[k]?, d.processed = false
    | .fork t child => m.alive child = false ∧
        ∀ p, (m.pages p).owner ≠ .thread t ∧ (m.pages p).owner ≠ .thread child
    | .openProtection _ | .closeProtection _ => False
    | _ => True

/-- A page of the unused end of the heap, or of another process. -/
def Foreign (m : Mem) (u : Tid) (p : ℕ) : Prop :=
  m.position ≤ p ∨ ∃ o, o ≠ u ∧ (m.pages p).owner = .thread o

/-- No process has access to pages that are not in use or that another process owns. -/
structure Exclusive (m : Mem) : Prop where
  tidy : ∀ u, (m.spaces u).Tidy
  used : ∀ p, (m.pages p).owner ≠ .none → p < m.position
  queued : ∀ u, m.alive u = true → ∀ p ∈ m.signals u,
    p < m.position ∧ ∀ o, (m.pages p).owner = .thread o → o = u
  isProtected : ∀ u, m.alive u = true → (m.spaces u).isProtected = true
  hides : ∀ u, m.alive u = true → ∀ p, m.Foreign u p → (m.spaces u).Hides p

/-! ## Access under each action -/

/-- Process `u` gets access to no page but such as are shared from now on. -/
def Screens (m m' : Mem) (u : Tid) : Prop :=
  ∀ q, (m.spaces u).Hides q → (m'.spaces u).Hides q ∨ (m'.pages q).owner = .shared

theorem Screens.of_eq (hp : (m'.spaces u).prot = (m.spaces u).prot)
    (ha : (m'.spaces u).access = (m.spaces u).access)
    (hc : ∀ q, (m.spaces u).prot q = .none → (m'.spaces u).priv q = (m.spaces u).priv q) :
    m.Screens m' u := fun q hq =>
  .inl ⟨by rw [hp, hq.prot], by rw [ha, hq.access], by rw [hc q hq.prot, hq.priv]⟩

theorem setSharedPage_access (hu : u ≠ t ∨ q ≠ p) :
    ((m.setSharedPage t p).spaces u).access q = (m.spaces u).access q := by
  unfold setSharedPage
  split
  · by_cases h : u = t
    · subst h
      simp [Space.setAccess, hu.resolve_left (by simp)]
    · simp [h]
  · rfl

theorem setSharedPage_screens : m.Screens (m.setSharedPage t p) u := by
  intro q hq
  by_cases h : u ≠ t ∨ q ≠ p
  · exact .inl ⟨by rw [(setSharedPage_sameDirty m t u p).prot, hq.prot],
      by rw [setSharedPage_access h, hq.access], by rw [setSharedPage_priv, hq.priv]⟩
  · push Not at h
    obtain ⟨rfl, rfl⟩ := h
    exact .inr (by rw [setSharedPage_page])

theorem commitOwnedPage_access (s : Bool) (hu : u ≠ t ∨ q ≠ p) :
    ((m.commitOwnedPage t p s).spaces u).access q = (m.spaces u).access q := by
  cases s with
  | false => rfl
  | true =>
      have ha := setSharedPage_access (m := m.setPage p { m.pages p with content := m.view t p }) hu
      simp only [commitOwnedPage, if_true, setPage_spaces]
      by_cases h : u = t
      · subst h
        simpa [Space.dontneed] using ha
      · simpa [h] using ha

theorem commitOwnedPage_owner (s : Bool) : ((m.commitOwnedPage t p s).pages q).owner =
    if q = p ∧ s = true then .shared else (m.pages q).owner := by
  have ht := congrArg Table.owner (commitOwnedPage_table (m := m) (t := t) (p := p) (q := q) s)
  rw [table_owner] at ht
  rw [ht]
  by_cases hq : q = p
  · cases s <;> simp [hq]
  · simp [hq]

theorem commitOwnedPage_screens (s : Bool) : m.Screens (m.commitOwnedPage t p s) u := by
  intro q hq
  by_cases h : u ≠ t ∨ q ≠ p
  · exact .inl ⟨by rw [(commitOwnedPage_sameDirty m t u p s).prot, hq.prot],
      by rw [commitOwnedPage_access s h, hq.access],
      by rw [commitOwnedPage_priv, if_neg fun hc => h.elim (fun h => h hc.2.1) fun h => h hc.2.2,
        hq.priv]⟩
  · push Not at h
    cases s with
    | false => exact .inl hq
    | true => exact .inr (by rw [commitOwnedPage_owner, if_pos ⟨h.2, rfl⟩])

theorem handleWrite_access (h : m.handleWrite t p = some m') : (m'.spaces t).access q =
    if q = p ∧ (m.pages p).owner = .thread t then .write else (m.spaces t).access q := by
  have hw : ((m.mprotectWrite t p).spaces t).access q =
      if q = p ∧ (m.pages p).owner = .thread t then .write else (m.spaces t).access q := by
    unfold mprotectWrite
    rw [setSpace_spaces_same]
    by_cases ho : (m.pages p).owner = .thread t
    · by_cases hq : q = p
      · subst hq
        simp [ho, Space.setProt, Space.setAccess]
      · simp [ho, hq, Space.setProt, Space.setAccess]
    · simp [ho, Space.setProt]
  rw [← hw]
  unfold handleWrite at h
  split at h <;> rw [addDirty_eq h, setSpace_spaces_same] <;> rfl

theorem handleWrite_screens (h : m.handleWrite t p = some m')
    (ha : (m.spaces t).access p ≠ .none) : m.Screens m' u := by
  by_cases hu : u = t
  · subst hu
    intro q hq
    have hne : q ≠ p := fun he => ha (he ▸ hq.access)
    obtain ⟨e, hf, -⟩ := handleWrite_space h
    exact .inl ⟨by rw [hf.prot, Function.update_of_ne hne, hq.prot],
      by rw [handleWrite_access h, if_neg fun hc => hne hc.1, hq.access],
      by rw [handleWrite_priv h, hq.priv]⟩
  · rw [Screens, handleWrite_spaces_of_ne h hu]
    exact fun q hq => .inl hq

theorem storeWord_access (i : Fin 512) (w : Word) :
    ((m.storeWord t p i w).spaces u).access = (m.spaces u).access := by
  unfold storeWord
  split
  · by_cases h : u = t
    · subst h; simp [Space.setPriv]
    · simp [h]
  · rfl

theorem storeBytes_access (val : Addr → Byte) (as : List Addr) :
    ((m.storeBytes t val as).spaces u).access = (m.spaces u).access := by
  induction as generalizing m with
  | nil => rfl
  | cons a as ih => exact (ih (m := m.storeByte t a (val a))).trans (storeWord_access _ _)

theorem finishEntry_access (e : PageInfo) (r : Bool) :
    ((m.finishEntry t k e r).spaces u).access = (m.spaces u).access := by
  unfold finishEntry
  by_cases h : u = t
  · subst h; simp
  · simp [h]

/-- A commit touches no access but that to a page it shares. -/
theorem commitEntry_access (h : m.commitEntry t k = some m') (ho : (m'.pages q).owner ≠ .shared) :
    (m'.spaces u).access q = (m.spaces u).access q := by
  obtain ⟨d, n, -, hn, hc⟩ := commitEntry_cases h
  obtain ⟨-, rfl⟩ | ⟨-, -, rfl⟩ | ⟨-, -, -, rfl⟩ := hc
  · rw [finishEntry_access, ensureTwin_spaces hn]
  · rw [finishEntry_access, setPage_spaces]
    unfold publish
    split
    · rw [setPage_spaces, ensureTwin_spaces hn]
    · rename_i hv
      rw [setPage_spaces, setSharedPage_access, ensureTwin_spaces hn]
      by_contra hne
      push Not at hne
      obtain ⟨-, rfl⟩ := hne
      refine ho ?_
      rw [finishEntry_pages, setPage_pages_same, publish, if_neg hv]
      simp [endCommit, setSharedPage_page]
  · rw [finishEntry_access, setPage_spaces, ensureTwin_spaces hn]

theorem commitEntry_screens (h : m.commitEntry t k = some m') : m.Screens m' u := by
  intro q hq
  have hprot : (m'.spaces u).prot = (m.spaces u).prot := by
    by_cases hu : u = t
    · subst hu
      obtain ⟨d, hd⟩ := commitEntry_space h
      exact hd.prot
    · exact (commitEntry_spaces_of_ne h hu).prot
  by_cases ho : (m'.pages q).owner = .shared
  · exact .inr ho
  · exact .inl ⟨by rw [hprot, hq.prot], by rw [commitEntry_access h ho, hq.access],
      by rw [commitEntry_priv h, hq.priv]⟩

theorem updateAll_screens (ht : (m.spaces t).Tidy) : m.Screens (m.updateAll t) u := by
  by_cases hu : u = t
  · subst hu
    intro q hq
    have hn : ∀ d ∈ (m.spaces u).dirty, d.pageNo ≠ q := by
      rintro d hd rfl
      exact absurd ((ht.writable d hd).symm.trans hq.prot) (by decide)
    refine .inl ⟨?_, by rw [updateAll_access, hq.access], ?_⟩
    · rw [updateAll_prot, if_neg]
      · exact hq.prot
      · rintro ⟨d, hd, hdq, -⟩
        exact hn d hd hdq
    · rw [updateAll_priv_of_not_released]
      · exact hq.priv
      · rintro ⟨d, hd, hdq, -⟩
        exact hn d hd hdq
  · rw [Screens, updateAll_priv_of_ne hu]
    exact fun q hq => .inl hq

theorem superblock_eq (n : ℕ) (h : (m.spaces t).isProtected = true) : m.superblock t n = { m with
    position := m.position + n
    pages := fun p => if m.position ≤ p ∧ p < m.position + n
      then { m.pages p with owner := .thread t } else m.pages p
    spaces := Function.update m.spaces t { m.spaces t with
      prot := fun p => if m.position ≤ p ∧ p < m.position + n then .read else (m.spaces t).prot p
      access := fun p => if m.position ≤ p ∧ p < m.position + n then .read else (m.spaces t).access p
      ownedBlocks := (m.spaces t).ownedBlocks ++ [(m.position, m.position + n)] } } := by
  unfold superblock setOwnedPage
  exact if_pos h

namespace Exclusive

/-- A listed page is accessible. -/
theorem not_foreign (h : Exclusive m) (ht : m.alive t = true) {d : PageInfo}
    (hd : d ∈ (m.spaces t).dirty) : ¬ m.Foreign t d.pageNo := fun hf =>
  (h.tidy t).accessible d hd (h.hides t ht _ hf).access

/-- A step that queues no notification, takes no page and gives access to shared pages only. -/
theorem frame (h : Exclusive m) (hmail : m'.mail = m.mail) (htidy : ∀ u, (m'.spaces u).Tidy)
    (howner : ∀ p, (m'.pages p).owner = (m.pages p).owner ∨
      ((m'.pages p).owner = .shared ∧ p < m.position))
    (hprotected : ∀ u, (m'.spaces u).isProtected = (m.spaces u).isProtected)
    (hscreens : ∀ u, m.Screens m' u) : Exclusive m' := by
  obtain ⟨hs, ha, hp⟩ : m'.signals = m.signals ∧ m'.alive = m.alive ∧ m'.position = m.position := by
    simpa [mail] using hmail
  have hused : ∀ p, (m'.pages p).owner ≠ .none → p < m.position := by
    intro p ho
    rcases howner p with hq | ⟨-, hq⟩
    · exact h.used p (hq ▸ ho)
    · exact hq
  have hthread : ∀ p o, (m'.pages p).owner = .thread o → (m.pages p).owner = .thread o := by
    intro p o ho
    rcases howner p with hq | ⟨hq, -⟩
    · exact hq ▸ ho
    · rw [hq] at ho
      cases ho
  exact
    { tidy := htidy
      used := fun p ho => hp ▸ hused p ho
      queued := fun u hu p hq => by
        obtain ⟨h1, h2⟩ := h.queued u (ha ▸ hu) p (hs ▸ hq)
        exact ⟨hp ▸ h1, fun o ho => h2 o (hthread p o ho)⟩
      isProtected := fun u hu => (hprotected u).trans (h.isProtected u (ha ▸ hu))
      hides := fun u hu p hf => by
        have hf' : m.Foreign u p := by
          rcases hf with hf | ⟨o, ho, hf⟩
          · exact .inl (hp ▸ hf)
          · exact .inr ⟨o, ho, hthread p o hf⟩
        refine (hscreens u p (h.hides u (ha ▸ hu) p hf')).resolve_right fun hc => ?_
        rcases hf with hf | ⟨o, -, hf⟩
        · have := hused p (by simp [hc])
          omega
        · rw [hc] at hf
          cases hf }

theorem orderly {a : Act} (h : Exclusive m) (hl : m.Lawful a) : m.Orderly a := by
  cases a with
  | superblock t n =>
      intro d hd
      by_contra hp
      exact h.not_foreign (hl.1 t rfl) hd (.inl (not_lt.mp hp))
  | openProtection t => exact hl.2.elim
  | _ => trivial

theorem shared (h : Exclusive m) (hp : p < m.position) : Exclusive (m.setSharedPage t p) :=
  h.frame setSharedPage_mail (fun u => (h.tidy u).of_sameDirty (setSharedPage_sameDirty m t u p))
    (fun q => by
      by_cases hq : q = p
      · subst hq
        exact .inr ⟨by rw [setSharedPage_page], hp⟩
      · exact .inl (by rw [setSharedPage_pages_of_ne hq]))
    (fun u => (setSharedPage_sameDirty m t u p).isProtected) fun _ => setSharedPage_screens

/-- A notification goes to the owner of the page. -/
theorem notify (h : Exclusive m) (hp : p < m.position) : Exclusive (m.notifyOwnerToCommit t p) := by
  have hshare : Exclusive (m.setSharedPage t p) := h.shared hp
  unfold notifyOwnerToCommit
  split
  · exact h
  · exact hshare
  · rename_i o ho
    split
    · exact
        { tidy := h.tidy
          used := h.used
          queued := fun u hu q hq => by
            by_cases huo : u = o
            · subst huo
              simp only [Function.update_self, List.mem_append, List.mem_singleton] at hq
              rcases hq with hq | rfl
              · exact h.queued u hu q hq
              · exact ⟨hp, fun o' ho' => Owner.thread.inj (ho'.symm.trans ho)⟩
            · exact h.queued u hu q (by simpa [huo] using hq)
          isProtected := h.isProtected
          hides := h.hides }
    · exact hshare

theorem superblock {n : ℕ} (h : Exclusive m) (ht : m.alive t = true) :
    Exclusive (m.superblock t n) := by
  have horderly : m.Orderly (.superblock t n) := fun d hd => by
    by_contra hp
    exact h.not_foreign ht hd (.inl (not_lt.mp hp))
  have heq := superblock_eq n (h.isProtected t ht)
  have htidy := tidy_step (a := .superblock t n) h.tidy horderly rfl
  rw [heq] at htidy ⊢
  refine ⟨htidy, fun p ho => ?_, fun u hu p hp => ?_, fun u hu => ?_, fun u hu p hf => ?_⟩
  · dsimp only at ho ⊢
    split at ho
    · omega
    · have := h.used p ho
      omega
  · obtain ⟨h1, h2⟩ := h.queued u hu p hp
    refine ⟨by dsimp only; omega, fun o ho => h2 o ?_⟩
    dsimp only at ho
    rwa [if_neg (by omega)] at ho
  · by_cases hut : u = t
    · subst hut
      simpa using h.isProtected u ht
    · simpa [hut] using h.isProtected u hu
  · have hnot : ¬ (u = t ∧ m.position ≤ p ∧ p < m.position + n) := by
      rintro ⟨rfl, hin⟩
      rcases hf with hf | ⟨o, ho, hf⟩
      · dsimp only at hf
        omega
      · simp only [if_pos hin, Owner.thread.injEq] at hf
        exact ho hf.symm
    have hf' : m.Foreign u p := by
      rcases hf with hf | ⟨o, ho, hf⟩
      · dsimp only at hf
        exact .inl (by omega)
      · dsimp only at hf
        split at hf
        · rename_i hin
          exact .inl hin.1
        · exact .inr ⟨o, ho, hf⟩
    obtain ⟨h1, h2, h3⟩ := h.hides u hu p hf'
    by_cases hut : u = t
    · subst hut
      have hin : ¬ (m.position ≤ p ∧ p < m.position + n) := fun hin => hnot ⟨rfl, hin⟩
      exact ⟨by simpa [hin] using h1, by simpa [hin] using h2, by simpa using h3⟩
    · exact ⟨by simpa [hut] using h1, by simpa [hut] using h2, by simpa [hut] using h3⟩

/-- The child gets the access of its parent, which owns nothing. -/
theorem fork {child : Tid} (h : Exclusive m) (hl : m.Lawful (.fork t child)) :
    Exclusive (m.fork t child) := by
  have hold : ∀ {u}, u ≠ child → (m.fork t child).alive u = true → m.alive u = true := by
    intro u hu ha
    simpa [Mem.fork, hu] using ha
  have ht : m.alive t = true := hl.1 t rfl
  refine ⟨tidy_step (a := .fork t child) h.tidy trivial rfl, h.used, fun u hu p hp => ?_,
    fun u hu => ?_, fun u hu p hf => ?_⟩
  · by_cases huc : u = child
    · subst huc
      simp [Mem.fork] at hp
    · exact h.queued u (hold huc hu) p (by simpa [Mem.fork, huc] using hp)
  · by_cases huc : u = child
    · subst huc
      simpa [Mem.fork] using h.isProtected t ht
    · simpa [Mem.fork, huc] using h.isProtected u (hold huc hu)
  · by_cases huc : u = child
    · subst huc
      have hf' : m.Foreign t p := hf.imp_right <| by
        rintro ⟨o, -, ho⟩
        exact ⟨o, fun he => (hl.2.2 p).1 (he ▸ ho), ho⟩
      obtain ⟨h1, h2, h3⟩ := h.hides t ht p hf'
      exact ⟨by simpa [Mem.fork] using h1, by simpa [Mem.fork] using h2, by simpa [Mem.fork] using h3⟩
    · obtain ⟨h1, h2, h3⟩ := h.hides u (hold huc hu) p hf
      exact ⟨by simpa [Mem.fork, huc] using h1, by simpa [Mem.fork, huc] using h2,
        by simpa [Mem.fork, huc] using h3⟩

theorem committed (h : Exclusive m) (hp : p < m.position) (s : Bool) :
    Exclusive (m.commitOwnedPage t p s) := by
  refine h.frame (commitOwnedPage_mail s)
    (fun u => (h.tidy u).of_sameDirty (commitOwnedPage_sameDirty m t u p s)) (fun q => ?_)
    (fun u => (commitOwnedPage_sameDirty m t u p s).isProtected) fun _ => commitOwnedPage_screens s
  rw [commitOwnedPage_owner]
  split
  · rename_i hq
    exact .inr ⟨rfl, hq.1 ▸ hp⟩
  · exact .inl rfl

/-- A notification is taken from the queue. -/
theorem erase (h : Exclusive m) :
    Exclusive { m with signals := Function.update m.signals t ((m.signals t).erase p) } :=
  { tidy := h.tidy
    used := h.used
    queued := fun u hu q hq => by
      by_cases hut : u = t
      · subst hut
        exact h.queued u hu q (List.mem_of_mem_erase (by simpa using hq))
      · exact h.queued u hu q (by simpa [hut] using hq)
    isProtected := h.isProtected
    hides := h.hides }

theorem handled (h : Exclusive m) (ht : m.alive t = true) (hp : p ∈ m.signals t) :
    Exclusive (m.signalHandler t p) :=
  h.erase.committed (h.queued t ht p hp).1 true

theorem finalcommit {r : Bool} (h : Exclusive m) (hp : p < m.position) :
    Exclusive (m.finalcommitPage t p r) := by
  cases r with
  | true => exact h.committed hp true
  | false => exact (h.committed hp false).shared hp

/-- Protection is opened by the only process. -/
theorem openProtection (htidy : ∀ u, (m.spaces u).Tidy) (halone : ∀ u, m.alive u = true → u = t)
    (hdirty : (m.spaces t).dirty = []) (hqueued : ∀ p ∈ m.signals t, p < m.position) :
    Exclusive (m.openProtection t) := by
  refine ⟨tidy_step (a := .openProtection t) htidy hdirty rfl, fun p hp => ?_, fun u hu p hq => ?_,
    fun u hu => ?_, fun u hu p hf => ?_⟩
  · by_contra hn
    exact hp (if_neg hn)
  · obtain rfl := halone u hu
    refine ⟨hqueued p hq, fun o ho => ?_⟩
    simp only [Mem.openProtection] at ho
    split at ho <;> cases ho
  · obtain rfl := halone u hu
    simp [Mem.openProtection]
  · obtain rfl := halone u hu
    rcases hf with hf | ⟨o, -, ho⟩
    · have hp : ¬ p < m.position := not_lt.mpr hf
      exact ⟨by simp [Mem.openProtection, hp], by simp [Mem.openProtection, hp],
        by simp [Mem.openProtection]⟩
    · simp only [Mem.openProtection] at ho
      split at ho <;> cases ho

/-- An owned page stays inaccessible to the others. -/
theorem step {a : Act} (h : Exclusive m) (hl : m.Lawful a) (hs : m.step a = some m') :
    Exclusive m' := by
  have htidy := tidy_step h.tidy (h.orderly hl) hs
  cases a with
  | load t a =>
      simp only [Mem.step, Option.ite_none_right_eq_some, Option.some.injEq] at hs
      obtain ⟨-, rfl⟩ := hs
      exact h
  | store t as f =>
      simp only [Mem.step, Option.ite_none_right_eq_some, Option.some.injEq] at hs
      obtain ⟨hw, rfl⟩ := hs
      refine h.frame (storeBytes_mail _ as) htidy
        (fun p => .inl (congrArg Table.owner (storeBytes_table (q := p) _ as)))
        (fun u => (storeBytes_sameDirty m t u _ as).isProtected)
        fun u => .of_eq (storeBytes_sameDirty m t u _ as).prot (storeBytes_access _ as) fun q hq => ?_
      refine storeBytes_priv fun a ha => ?_
      by_contra hc
      push Not at hc
      obtain ⟨rfl, rfl⟩ := hc
      exact absurd (hq.symm.trans (hw a ha)) (by decide)
  | fault t p =>
      simp only [Mem.step, Option.ite_none_right_eq_some] at hs
      refine h.frame (handleWrite_mail hs.2) htidy (fun q => .inl ?_) (fun u => ?_)
        fun u => handleWrite_screens hs.2 hs.1.2
      · have ht := congrArg Table.owner (handleWrite_table (q := q) hs.2)
        rw [table_owner] at ht
        split at ht <;> exact ht
      · by_cases hu : u = t
        · subst hu
          obtain ⟨e, hf, -⟩ := handleWrite_space hs.2
          exact hf.isProtected
        · rw [handleWrite_spaces_of_ne hs.2 hu]
  | notify t p =>
      simp only [Mem.step, Option.ite_none_right_eq_some, Option.some.injEq] at hs
      obtain ⟨-, rfl⟩ := hs
      exact h.notify hl.2
  | mprotectRead t p =>
      simp only [Mem.step, Option.ite_none_right_eq_some, Option.some.injEq] at hs
      obtain ⟨⟨-, ho⟩, rfl⟩ := hs
      refine h.frame rfl htidy (fun _ => .inl rfl) (fun u => ?_) fun u q hq => ?_
      · by_cases hu : u = t
        · subst hu; simp [mprotectRead, Space.setProt, Space.setAccess]
        · simp [mprotectRead, hu]
      · by_cases hqp : q = p
        · exact .inr (hqp ▸ ho)
        · by_cases hu : u = t
          · subst hu
            exact .inl ⟨by simpa [mprotectRead, Space.setProt, Space.setAccess, hqp] using hq.prot,
              by simpa [mprotectRead, Space.setProt, Space.setAccess, hqp] using hq.access,
              by rw [mprotectRead_priv, hq.priv]⟩
          · rw [mprotectRead, setSpace_spaces_of_ne _ _ _ _ hu]
            exact .inl hq
  | setWord t o w =>
      simp only [Mem.step, Option.ite_none_right_eq_some, Option.some.injEq] at hs
      obtain ⟨hw, rfl⟩ := hs
      have hsame := fun u => storeWord_sameDirty m t u o.page o.word w
      refine h.frame (storeWord_mail _ w) htidy
        (fun p => .inl (congrArg Table.owner (storeWord_table (q := p) _ w)))
        (fun u => (hsame u).isProtected) fun u => .of_eq (hsame u).prot (storeWord_access _ w)
          fun q hq => ?_
      rw [storeWord_priv, if_neg]
      rintro ⟨rfl, rfl, -⟩
      exact absurd (hq.symm.trans hw) (by decide)
  | memWrite t o w =>
      obtain rfl := Option.some.inj hs
      exact h.frame rfl htidy (fun p => .inl (congrArg Table.owner (memWrite_table (q := p) o w)))
        (fun _ => rfl) fun _ => .of_eq rfl rfl fun _ _ => rfl
  | commitEntry t k =>
      refine h.frame (commitEntry_mail hs) htidy (fun q => ?_) (fun u => ?_)
        fun u => commitEntry_screens hs
      · rcases Addressed.commitEntry_owner hs q with hq | ⟨hq, d, hd, -, rfl⟩
        · exact .inl hq
        · refine .inr ⟨hq, ?_⟩
          by_contra hp
          exact h.not_foreign (hl.1 t rfl) (List.mem_of_getElem? hd) (.inl (not_lt.mp hp))
      · by_cases hu : u = t
        · subst hu
          obtain ⟨d, hd⟩ := commitEntry_space hs
          exact hd.isProtected
        · exact (commitEntry_spaces_of_ne hs hu).isProtected
  | begin t =>
      obtain rfl := Option.some.inj hs
      exact h.frame rfl htidy (fun _ => .inl rfl) (fun _ => updateAll_isProtected)
        fun u => updateAll_screens (h.tidy t)
  | finalcommit t p r =>
      simp only [Mem.step, Option.ite_none_right_eq_some, Option.some.injEq] at hs
      obtain ⟨ho, rfl⟩ := hs
      exact h.finalcommit (h.used p (by simp [ho]))
  | superblock t n =>
      obtain rfl := Option.some.inj hs
      exact h.superblock (hl.1 t rfl)
  | signal t p =>
      simp only [Mem.step, Option.ite_none_right_eq_some, Option.some.injEq] at hs
      obtain ⟨hp, rfl⟩ := hs
      exact h.handled (hl.1 t rfl) hp
  | cleanup =>
      obtain rfl := Option.some.inj hs
      exact h.frame rfl htidy (fun _ => .inl rfl) (fun _ => rfl) fun _ => .of_eq rfl rfl fun _ _ => rfl
  | openProtection t => exact hl.2.elim
  | closeProtection t => exact hl.2.elim
  | fork t child =>
      obtain rfl := Option.some.inj hs
      exact h.fork hl
  | exit t =>
      obtain rfl := Option.some.inj hs
      have hold : ∀ {u}, (m.exit t).alive u = true → m.alive u = true := by
        intro u hu
        by_cases hut : u = t
        · subst hut
          simp [Mem.exit] at hu
        · simpa [Mem.exit, hut] using hu
      exact ⟨h.tidy, h.used, fun u hu => h.queued u (hold hu),
        fun u hu => h.isProtected u (hold hu), fun u hu => h.hides u (hold hu)⟩

end Exclusive

end Mem

end Dthreads.Memory
