import Dthreads.Memory.Stages

/-! # The users of a page

`_pageUsers` counts the processes that have dirtied a page and not committed it yet. A fault raises
the count, a turn of the commit loop lowers it, and `begin` forgets the list. -/

namespace Dthreads.Memory

/-- An entry for page `p` waits for its commit. -/
def Space.Pending (s : Space) (p : ℕ) : Prop :=
  ∃ d ∈ s.dirty, d.pageNo = p ∧ d.processed = false

instance (s : Space) (p : ℕ) : Decidable (s.Pending p) :=
  inferInstanceAs (Decidable (∃ d ∈ s.dirty, d.pageNo = p ∧ d.processed = false))

namespace Mem

/-- How many of the processes have an entry for page `p` to commit. -/
def pending (m : Mem) (ts : List Tid) (p : ℕ) : ℕ := ts.countP fun t => (m.spaces t).Pending p

/-- The users are counted, and only a page with users has a twin. -/
structure Accounted (m : Mem) (ts : List Tid) : Prop where
  users : ∀ p, (m.pages p).users = m.pending ts p
  twin : ∀ p, (m.pages p).users = 0 → (m.pages p).bitmapIndex = 0
  owned : ∀ p t, (m.pages p).owner = .thread t → (m.pages p).bitmapIndex = 0

/-! ## Counting -/

theorem countP_congr_of_ne {α : Type*} {f g : α → Bool} {l : List α} {a : α} (hl : l.Nodup)
    (ha : a ∈ l) (hf : f a = false) (hg : g a = true) (hne : ∀ b ∈ l, b ≠ a → f b = g b) :
    l.countP g = l.countP f + 1 := by
  induction l with
  | nil => simp at ha
  | cons b l ih =>
      rw [List.nodup_cons] at hl
      by_cases hb : b = a
      · subst hb
        have hrest : l.countP g = l.countP f := by
          refine List.countP_congr fun c hc => ?_
          have hcb : c ≠ b := fun he => hl.1 (he ▸ hc)
          rw [hne c (List.mem_cons_of_mem b hc) hcb]
        rw [List.countP_cons_of_pos hg, List.countP_cons_of_neg (by simp [hf]), hrest]
      · have ha : a ∈ l := (List.mem_cons.mp ha).resolve_left fun he => hb he.symm
        have hrest := ih hl.2 ha fun c hc => hne c (List.mem_cons_of_mem b hc)
        have hfg := hne b List.mem_cons_self hb
        simp only [List.countP_cons, hrest, hfg]
        omega

theorem countP_le_one {α : Type*} {f : α → Bool} {l : List α} {a : α} (hl : l.Nodup)
    (h : ∀ b ∈ l, f b = true → b = a) : l.countP f ≤ 1 := by
  rw [List.countP_eq_length_filter]
  have hsub : l.filter f ⊆ [a] := by
    intro b hb
    rw [List.mem_filter] at hb
    exact List.mem_singleton.mpr (h b hb.1 hb.2)
  exact ((hl.filter f).subperm hsub).length_le

variable {m m' : Mem} {t u : Tid} {p q k : ℕ} {a : Act} {ts : List Tid}

/-- Entries are committed once, and forgotten after their commit. -/
def Books (m : Mem) : Act → Prop
  | .commitEntry t k => ∀ d ∈ (m.spaces t).dirty[k]?, d.processed = false
  | .begin t => ∀ d ∈ (m.spaces t).dirty, d.processed = true
  | .fork _ _ => False
  | _ => True

/-! ## Steps that count nothing -/

/-- Only faults and commits change the users and the twin of a page. -/
theorem step_usage (hs : m.step a = some m') (hf : ∀ t p, a ≠ .fault t p)
    (hc : ∀ t k, a ≠ .commitEntry t k) :
    (m'.pages p).users = (m.pages p).users ∧ (m'.pages p).bitmapIndex = (m.pages p).bitmapIndex := by
  have htable : ∀ {n : Mem}, n.table p = m.table p →
      (n.pages p).users = (m.pages p).users ∧ (n.pages p).bitmapIndex = (m.pages p).bitmapIndex :=
    fun h => ⟨congrArg Table.users h, congrArg Table.bitmapIndex h⟩
  have hcommitted : ∀ (n : Mem) (t : Tid) (q : ℕ) (r : Bool),
      ((n.commitOwnedPage t q r).pages p).users = (n.pages p).users ∧
        ((n.commitOwnedPage t q r).pages p).bitmapIndex = (n.pages p).bitmapIndex := by
    intro n t q r
    have h := commitOwnedPage_table (m := n) (t := t) (p := q) (q := p) r
    split at h
    · exact ⟨congrArg Table.users h, congrArg Table.bitmapIndex h⟩
    · exact ⟨congrArg Table.users h, congrArg Table.bitmapIndex h⟩
  have hshared : ∀ (n : Mem) (t : Tid) (q : ℕ),
      ((n.setSharedPage t q).pages p).users = (n.pages p).users ∧
        ((n.setSharedPage t q).pages p).bitmapIndex = (n.pages p).bitmapIndex := by
    intro n t q
    have h := setSharedPage_table (m := n) (t := t) (p := q) (q := p)
    split at h
    · exact ⟨congrArg Table.users h, congrArg Table.bitmapIndex h⟩
    · exact ⟨congrArg Table.users h, congrArg Table.bitmapIndex h⟩
  cases a with
  | load t a =>
      simp only [step, Option.ite_none_right_eq_some, Option.some.injEq] at hs
      obtain ⟨-, rfl⟩ := hs
      exact ⟨rfl, rfl⟩
  | store t as f =>
      simp only [step, Option.ite_none_right_eq_some, Option.some.injEq] at hs
      obtain ⟨-, rfl⟩ := hs
      exact htable (storeBytes_table _ as)
  | fault t p => exact absurd rfl (hf t p)
  | notify t p =>
      simp only [step, Option.ite_none_right_eq_some, Option.some.injEq] at hs
      obtain ⟨-, rfl⟩ := hs
      unfold notifyOwnerToCommit
      split
      · exact ⟨rfl, rfl⟩
      · exact hshared m t p
      · split
        · exact ⟨rfl, rfl⟩
        · exact hshared m t p
  | mprotectRead t p =>
      simp only [step, Option.ite_none_right_eq_some, Option.some.injEq] at hs
      obtain ⟨-, rfl⟩ := hs
      exact ⟨rfl, rfl⟩
  | setWord t o w =>
      simp only [step, Option.ite_none_right_eq_some, Option.some.injEq] at hs
      obtain ⟨-, rfl⟩ := hs
      exact htable (storeWord_table _ w)
  | memWrite t o w =>
      obtain rfl := Option.some.inj hs
      exact htable (memWrite_table o w)
  | commitEntry t k => exact absurd rfl (hc t k)
  | begin t =>
      obtain rfl := Option.some.inj hs
      exact ⟨rfl, rfl⟩
  | finalcommit t q r =>
      simp only [step, Option.ite_none_right_eq_some, Option.some.injEq] at hs
      obtain ⟨-, rfl⟩ := hs
      cases r with
      | true => exact hcommitted m t q true
      | false =>
          obtain ⟨h1, h2⟩ := hshared (m.commitOwnedPage t q false) t q
          obtain ⟨h3, h4⟩ := hcommitted m t q false
          exact ⟨h1.trans h3, h2.trans h4⟩
  | superblock t n =>
      obtain rfl := Option.some.inj hs
      unfold superblock setOwnedPage
      dsimp only
      split
      · dsimp only
        split <;> exact ⟨rfl, rfl⟩
      · exact ⟨rfl, rfl⟩
  | signal t q =>
      simp only [step, Option.ite_none_right_eq_some, Option.some.injEq] at hs
      obtain ⟨-, rfl⟩ := hs
      exact hcommitted { m with
        signals := Function.update m.signals t ((m.signals t).erase q) } t q true
  | cleanup | openProtection | closeProtection | fork | exit =>
      obtain rfl := Option.some.inj hs
      exact ⟨rfl, rfl⟩

theorem publish_users (v : BitVec 32) :
    ((m.publish t p v).pages q).users = (m.pages q).users := by
  rw [← table_users, publish_table]
  split <;> rfl

namespace Accounted

/-- A step that changes no count. -/
theorem frame (h : Accounted m ts)
    (husage : ∀ p, (m'.pages p).users = (m.pages p).users ∧
      (m'.pages p).bitmapIndex = (m.pages p).bitmapIndex)
    (howner : ∀ p t, (m'.pages p).owner = .thread t →
      (m.pages p).owner = .thread t ∨ (m.pages p).users = 0)
    (hpending : ∀ u ∈ ts, ∀ p, (m'.spaces u).Pending p ↔ (m.spaces u).Pending p) :
    Accounted m' ts where
  users p := by
    rw [(husage p).1, h.users p]
    refine List.countP_congr fun u hu => ?_
    simpa using (hpending u hu p).symm
  twin p hp := by
    rw [(husage p).2]
    exact h.twin p ((husage p).1.symm.trans hp)
  owned p t ho := by
    rw [(husage p).2]
    rcases howner p t ho with ho | hz
    · exact h.owned p t ho
    · exact h.twin p hz

/-- A page that nobody accesses has no users. -/
theorem users_eq_zero (h : Accounted m ts) (hp : m.Partitioned)
    (hlive : ∀ u ∈ ts, ∀ p, (m.spaces u).Pending p → m.alive u = true) (hq : m.position ≤ q) :
    (m.pages q).users = 0 := by
  rw [h.users, pending, List.countP_eq_zero]
  intro u hu hpend
  obtain ⟨d, hd, rfl, hproc⟩ : (m.spaces u).Pending q := by simpa using hpend
  have halive := hlive u hu _ ⟨d, hd, rfl, hproc⟩
  exact (hp.tidy u).accessible d hd (hp.hides u halive _ (.inl hq))

/-- An owned page has one user at most. -/
theorem users_le_one (h : Accounted m ts) (hp : m.Partitioned) (hnodup : ts.Nodup)
    (hlive : ∀ u ∈ ts, ∀ p, (m.spaces u).Pending p → m.alive u = true)
    (ho : (m.pages q).owner = .thread t) : (m.pages q).users ≤ 1 := by
  rw [h.users]
  refine countP_le_one (a := t) hnodup fun u hu hpend => ?_
  obtain ⟨d, hd, rfl, hproc⟩ : (m.spaces u).Pending q := by simpa using hpend
  have halive := hlive u hu _ ⟨d, hd, rfl, hproc⟩
  exact (hp.owner_eq halive ((hp.tidy u).accessible d hd) ho).symm

/-! ## Faults and commits -/

theorem fault (h : Accounted m ts) (hp : m.Partitioned) (hnodup : ts.Nodup) (ht : t ∈ ts)
    (hw : ¬ m.writable t p) (hs : m.handleWrite t p = some m') : Accounted m' ts := by
  obtain ⟨e, hf, -⟩ := handleWrite_space hs
  have htable := fun q => handleWrite_table (q := q) hs
  have hpend : ∀ q, (m'.spaces t).Pending q ↔ q = p ∨ (m.spaces t).Pending q := by
    intro q
    simp only [Space.Pending, hf.dirty, Space.mem_insertDirty, or_and_right, exists_or, exists_eq_left,
      hf.pageNo, hf.unprocessed, and_true]
    exact or_congr_left eq_comm
  have hother : ∀ u, u ≠ t → ∀ q, (m'.spaces u).Pending q ↔ (m.spaces u).Pending q := by
    intro u hu q
    rw [handleWrite_spaces_of_ne hs hu]
  have hnot : ¬ (m.spaces t).Pending p := by
    rintro ⟨d, hd, rfl, -⟩
    exact hw ((hp.tidy t).writable d hd)
  have hcount : ∀ q, m'.pending ts q = m.pending ts q + if q = p then 1 else 0 := by
    intro q
    by_cases hq : q = p
    · subst hq
      rw [if_pos rfl]
      refine countP_congr_of_ne hnodup ht (by simpa using hnot) (by simp [hpend]) fun u _ hu => ?_
      simp [hother u hu]
    · rw [if_neg hq, Nat.add_zero]
      refine List.countP_congr fun u _ => ?_
      by_cases hu : u = t
      · subst hu
        simp [hpend, hq]
      · simp [hother u hu]
  have husers : ∀ q, (m'.pages q).users = (m.pages q).users + if q = p then 1 else 0 := by
    intro q
    have hq := congrArg Table.users (htable q)
    rw [table_users] at hq
    rw [hq]
    split <;> rfl
  refine ⟨fun q => by rw [husers, hcount, h.users], fun q hz => ?_, fun q u ho => ?_⟩
  · have hi := congrArg Table.bitmapIndex (htable q)
    rw [table_bitmapIndex] at hi
    rw [husers] at hz
    have hq : q ≠ p := by
      rintro rfl
      simp at hz
    rw [hi, if_neg hq]
    exact h.twin q (by omega)
  · have hi := congrArg Table.bitmapIndex (htable q)
    have hown := congrArg Table.owner (htable q)
    rw [table_bitmapIndex] at hi
    rw [table_owner, ho] at hown
    rw [hi]
    split at hown <;> split <;> exact h.owned q u hown.symm

/-- A turn of the commit loop takes its process from the users of the page. -/
theorem pending_commit {d : PageInfo} (htidy : (m.spaces t).Tidy) (hnodup : ts.Nodup) (ht : t ∈ ts)
    (hd : (m.spaces t).dirty[k]? = some d) (hproc : d.processed = false)
    (hs : m.commitEntry t k = some m') (q : ℕ) :
    m.pending ts q = m'.pending ts q + if q = d.pageNo then 1 else 0 := by
  obtain ⟨d', hc⟩ := commitEntry_space hs
  obtain rfl : d = d' := Option.some.inj (hd.symm.trans hc.getElem)
  have hpend : ∀ q, (m'.spaces t).Pending q ↔ (m.spaces t).Pending q ∧ q ≠ d.pageNo := by
    intro q
    constructor
    · rintro ⟨x, hx, rfl, hxp⟩
      rcases (htidy.mem_committed hc).mp hx with rfl | ⟨hx, hne⟩
      · cases hxp
      · exact ⟨⟨x, hx, rfl, hxp⟩, hne⟩
    · rintro ⟨⟨x, hx, rfl, hxp⟩, hne⟩
      exact ⟨x, (htidy.mem_committed hc).mpr (.inr ⟨hx, hne⟩), rfl, hxp⟩
  have hother : ∀ u, u ≠ t → ∀ q, (m'.spaces u).Pending q ↔ (m.spaces u).Pending q := by
    intro u hu q
    rw [Space.Pending, (commitEntry_spaces_of_ne hs hu).dirty]
    rfl
  have hmem : (m.spaces t).Pending d.pageNo := ⟨d, List.mem_of_getElem? hd, rfl, hproc⟩
  by_cases hq : q = d.pageNo
  · subst hq
    rw [if_pos rfl]
    refine countP_congr_of_ne hnodup ht (by simp [hpend]) (by simpa using hmem) fun u _ hu => ?_
    simp [hother u hu]
  · rw [if_neg hq, Nat.add_zero]
    refine List.countP_congr fun u _ => ?_
    by_cases hu : u = t
    · subst hu
      simp [hpend, hq]
    · simp [hother u hu]

theorem commit (h : Accounted m ts) (hp : m.Partitioned) (hnodup : ts.Nodup)
    (hlive : ∀ u ∈ ts, ∀ p, (m.spaces u).Pending p → m.alive u = true) (ht : t ∈ ts)
    (hproc : ∀ d ∈ (m.spaces t).dirty[k]?, d.processed = false)
    (hs : m.commitEntry t k = some m') : Accounted m' ts := by
  obtain ⟨d, n, hd, hn, -, htable⟩ := commitEntry_table hs
  have hmem := List.mem_of_getElem? hd
  have hproc : d.processed = false := hproc d hd
  have hup : d.isUpdated = false := (hp.tidy t).not_updated d hmem
  have halive : m.alive t = true := hlive t ht _ ⟨d, hmem, rfl, hproc⟩
  have haccess := (hp.tidy t).accessible d hmem
  have hcount := pending_commit (hp.tidy t) hnodup ht hd hproc hs
  have hpos : 0 < (m.pages d.pageNo).users := by
    rw [h.users, hcount, if_pos rfl]
    omega
  have hother : ∀ q, q ≠ d.pageNo → m'.table q = m.table q := by
    intro q hq
    rw [htable q, if_pos (.inl hq), ensureTwin_table hn, if_neg hq]
  have hself := htable d.pageNo
  rw [if_neg (by simp [hup])] at hself
  have hnusers : (n.pages d.pageNo).users = (m.pages d.pageNo).users := ensureTwin_users hn
  have husers : (m'.pages d.pageNo).users = (m.pages d.pageNo).users - 1 := by
    have hu := congrArg Table.users hself
    rw [table_users] at hu
    rw [hu]
    split
    · simp only [Table.endCommit, publish_users, table_users, hnusers, decUsers_of_pos hpos]
    · simp only [hnusers, decUsers_of_pos hpos]
  refine ⟨fun q => ?_, fun q hz => ?_, fun q u ho => ?_⟩
  · by_cases hq : q = d.pageNo
    · subst hq
      have hc := hcount d.pageNo
      rw [if_pos rfl, ← h.users] at hc
      omega
    · have hu := congrArg Table.users (hother q hq)
      have hc := hcount q
      rw [if_neg hq, ← h.users] at hc
      rw [table_users, table_users] at hu
      omega
  · by_cases hq : q = d.pageNo
    · subst hq
      have hone : (m.pages d.pageNo).users = 1 := by omega
      have hi := congrArg Table.bitmapIndex hself
      rw [table_bitmapIndex] at hi
      rw [hi]
      split
      · simp only [Table.endCommit, publish_users, table_users, hnusers, hone, if_true]
      · rename_i hnot
        have ho : (m.pages d.pageNo).owner = .thread t := by
          by_contra ho
          exact hnot ⟨hup, .inr ho⟩
        have hni := congrArg Table.bitmapIndex (ensureTwin_table (q := d.pageNo) hn)
        rw [table_bitmapIndex, if_pos rfl, if_neg (by omega)] at hni
        exact hni.trans (h.owned _ _ ho)
    · have hu := congrArg Table.users (hother q hq)
      have hi := congrArg Table.bitmapIndex (hother q hq)
      rw [table_bitmapIndex, table_bitmapIndex] at hi
      rw [table_users, table_users] at hu
      rw [hi]
      exact h.twin q (hu.symm.trans hz)
  · by_cases hq : q = d.pageNo
    · subst hq
      have howner : (m.pages d.pageNo).owner = .thread u := by
        rcases Addressed.commitEntry_owner hs d.pageNo with hq | ⟨hq, -⟩
        · exact hq.symm.trans ho
        · rw [hq] at ho
          cases ho
      obtain rfl := hp.owner_eq halive haccess howner
      have hone : (m.pages d.pageNo).users = 1 := by
        have := h.users_le_one hp hnodup hlive howner
        omega
      have hnot : ¬ m.publishes u d := by
        rintro ⟨-, hne | hne⟩
        · exact hne hone
        · exact hne howner
      have hi := congrArg Table.bitmapIndex hself
      rw [if_neg hnot, table_bitmapIndex] at hi
      have hni := congrArg Table.bitmapIndex (ensureTwin_table (q := d.pageNo) hn)
      rw [table_bitmapIndex, if_pos rfl, if_neg (by omega)] at hni
      exact (hi.trans hni).trans (h.owned _ _ howner)
    · have hi := congrArg Table.bitmapIndex (hother q hq)
      have hown := congrArg Table.owner (hother q hq)
      rw [table_bitmapIndex, table_bitmapIndex] at hi
      rw [table_owner, table_owner] at hown
      rw [hi]
      exact h.owned q u (hown.symm.trans ho)

/-- Every action of a process keeps the account that commits each entry once and forgets it
afterwards. -/
theorem step (h : Accounted m ts) (hp : m.Partitioned) (hnodup : ts.Nodup)
    (hlive : ∀ u ∈ ts, ∀ p, (m.spaces u).Pending p → m.alive u = true)
    (ht : ∀ t ∈ a.actor, t ∈ ts) (hb : m.Books a) (hs : m.step a = some m') : Accounted m' ts := by
  by_cases hc : a.concerns = none
  · have hby : ∀ u, m.Bystander m' u := fun u => bystander hs (by simp [hc])
    refine h.frame (fun p => step_usage hs (fun t p => ?_) fun t k => ?_)
      (fun p t ho => .inl ((hby t).owner p ho)) fun u _ p => ?_
    · rintro rfl
      cases hc
    · rintro rfl
      cases hc
    · rw [Space.Pending, (hby u).dirty]
      rfl
  · cases a with
    | fault t p =>
        simp only [Mem.step, Option.ite_none_right_eq_some] at hs
        exact h.fault hp hnodup (ht t rfl) hs.1.1 hs.2
    | commitEntry t k => exact h.commit hp hnodup hlive (ht t rfl) hb hs
    | begin t =>
        refine h.frame (fun p => step_usage hs (by simp) (by simp)) (fun p u ho => .inl ?_)
          fun u _ p => ?_
        · obtain rfl := Option.some.inj hs
          exact ho
        · obtain rfl := Option.some.inj hs
          by_cases hut : u = t
          · subst hut
            have hnone : ¬ (m.spaces u).Pending p := by
              rintro ⟨d, hd, -, hproc⟩
              rw [hb d hd] at hproc
              cases hproc
            rw [iff_false_right hnone]
            simp [Space.Pending]
          · rw [updateAll_priv_of_ne hut]
    | superblock t n =>
        obtain rfl := Option.some.inj hs
        refine h.frame (fun p => step_usage (a := .superblock t n) rfl (by simp) (by simp))
          (fun p u ho => ?_) fun u _ p => ?_
        · unfold superblock setOwnedPage at ho
          dsimp only at ho
          split at ho
          · dsimp only at ho
            split at ho
            · rename_i hin
              exact .inr (h.users_eq_zero hp hlive hin.1)
            · exact .inl ho
          · exact .inl ho
        · unfold superblock setOwnedPage
          dsimp only
          split
          · by_cases hut : u = t
            · subst hut
              simp [Space.Pending]
            · simp [hut]
          · exact Iff.rfl
    | openProtection t =>
        obtain rfl := Option.some.inj hs
        refine h.frame (fun _ => ⟨rfl, rfl⟩) (fun p u ho => ?_) fun u _ p => ?_
        · simp only [openProtection] at ho
          split at ho <;> cases ho
        · by_cases hut : u = t
          · subst hut
            simp [openProtection, Space.Pending]
          · simp [openProtection, hut]
    | closeProtection t =>
        obtain rfl := Option.some.inj hs
        refine h.frame (fun _ => ⟨rfl, rfl⟩) (fun _ _ ho => .inl ho) fun u _ p => ?_
        by_cases hut : u = t
        · subst hut
          simp [closeProtection, Space.Pending]
        · simp [closeProtection, hut]
    | exit t =>
        obtain rfl := Option.some.inj hs
        exact h.frame (fun _ => ⟨rfl, rfl⟩) (fun _ _ ho => .inl ho) fun _ _ _ => Iff.rfl
    | fork t child => exact hb.elim
    | _ => exact absurd rfl hc

/-- The child has nothing to commit. -/
theorem fork {child : Tid} (h : Accounted m ts) (hfresh : child ∉ ts)
    (hproc : ∀ d ∈ (m.spaces t).dirty, d.processed = true) :
    Accounted (m.fork t child) (ts ++ [child]) := by
  refine ⟨fun p => ?_, h.twin, h.owned⟩
  have hnone : ¬ ((m.fork t child).spaces child).Pending p := by
    rintro ⟨d, hd, -, hd'⟩
    have hd : d ∈ (m.spaces t).dirty := by simpa [Mem.fork] using hd
    rw [hproc d hd] at hd'
    cases hd'
  rw [pending, List.countP_append, List.countP_singleton, if_neg (by simpa using hnone), Nat.add_zero]
  refine (h.users p).trans (List.countP_congr fun u hu => ?_)
  have huc : u ≠ child := fun he => hfresh (he ▸ hu)
  simp [Mem.fork, huc]

end Accounted

end Mem

namespace Runtime

variable {isHeap : ℕ → Bool} {s s' : Runtime} {t u : Tid} {m' : Mem}

/-- The counts are right, and what a `begin` forgets has been committed. -/
structure Accounts (s : Runtime) : Prop where
  users : ∀ p, (s.mem.pages p).users = s.mem.pending s.threads p
  twin : ∀ p, (s.mem.pages p).users = 0 → (s.mem.pages p).bitmapIndex = 0
  forgets : ∀ t rest, s.todo t = .begin :: rest →
    ∀ d ∈ (s.mem.spaces t).dirty, d.processed = true

namespace Staged

theorem pending_alive (h : Staged True s) (hu : u ∈ s.threads) {p : ℕ}
    (hp : (s.mem.spaces u).Pending p) : s.mem.alive u = true := by
  obtain ⟨⟨stage, r, g, l⟩, hmd, -⟩ := h.modes u hu
  rw [hmd.alive]
  rintro rfl
  obtain ⟨d, hd, -, hproc⟩ := hp
  have hdone : ∀ d ∈ (s.mem.spaces u).dirty, d.processed = true := hmd.stage trivial
  rw [hdone d hd] at hproc
  cases hproc

theorem processed_of_begin (h : Staged True s) {rest : List Phase} (htodo : s.todo t = .begin :: rest) :
    ∀ d ∈ (s.mem.spaces t).dirty, d.processed = true := by
  obtain ⟨⟨stage, r, g, l⟩, md', hmd, hafter, -⟩ := h.mode_of_todo htodo
  obtain rfl : stage = .committed := by
    cases stage <;> simp_all [Mode.after]
  exact hmd.stage trivial

/-- A step of the memory that some process takes. -/
theorem account (h : Staged True s) (ha : s.mem.Accounted s.threads) {a : Act}
    (hact : ∀ t ∈ a.actor, t ∈ s.threads) (hb : s.mem.Books a) (hs : s.mem.step a = some m') :
    m'.Accounted s.threads :=
  ha.step h.partitioned h.nodup (fun _ hu _ => h.pending_alive hu) hact hb hs

theorem account_next (h : Staged True s) (ha : s.mem.Accounted s.threads)
    (hs : s.next isHeap t = some s') : s'.mem.Accounted s'.threads := by
  cases htodo : s.todo t with
  | nil => simp [Runtime.next, htodo] at hs
  | cons ph rest =>
      have ht := h.of_mem_todo htodo
      have hact : ∀ {a : Act}, a.actor = some t → ∀ u ∈ a.actor, u ∈ s.threads := by
        intro a ha u hu
        obtain rfl : t = u := by simpa [ha] using hu
        exact ht
      unfold Runtime.next at hs
      rw [htodo] at hs
      cases ph with
      | openProtection =>
          obtain rfl := Option.some.inj hs
          dsimp only [advance]
          split
          · exact ha
          · exact h.account (a := .openProtection t) ha (hact rfl) trivial rfl
      | begin =>
          obtain rfl := Option.some.inj hs
          dsimp only [advance, Mem.atomicBegin]
          split
          · exact h.account (a := .begin t) ha (hact rfl) (h.processed_of_begin htodo) rfl
          · exact ha
      | commit =>
          obtain rfl := Option.some.inj hs
          exact ha
      | entries ks =>
          cases ks with
          | nil =>
              obtain rfl := Option.some.inj hs
              exact ha
          | cons k ks =>
              rw [Option.map_eq_some_iff] at hs
              obtain ⟨m', hm, rfl⟩ := hs
              refine h.account (a := .commitEntry t k) ha (hact rfl) (fun d hd => ?_) hm
              obtain ⟨⟨stage, r, g, l⟩, md', hmd, hafter, -⟩ := h.mode_of_todo htodo
              obtain rfl : stage = .entries (k :: ks) := by
                cases stage <;> simp_all [Mode.after]
              exact (hmd.stage.2 k d hd).mpr List.mem_cons_self
      | finalcommit release =>
          cases hn : s.mem.nextOwned t with
          | none =>
              rw [hn] at hs
              obtain rfl := Option.some.inj hs
              exact ha
          | some p =>
              rw [hn] at hs
              obtain rfl := Option.some.inj hs
              exact h.account (a := .finalcommit t p release) ha (hact rfl) trivial
                (if_pos (Mem.nextOwned_owner hn))
      | condInit o e =>
          simp only [Option.ite_none_left_eq_some] at hs
          obtain ⟨-, hs⟩ := hs
          split at hs
          · obtain rfl := Option.some.inj hs
            exact ha
          · simp only [Option.ite_none_right_eq_some, Option.some.injEq] at hs
            obtain ⟨hw, rfl⟩ := hs
            exact h.account (a := .setWord t o e) ha (hact rfl) trivial (if_pos hw)
      | memWrite o e =>
          obtain rfl := Option.some.inj hs
          exact h.account (a := .memWrite t o e) ha (hact rfl) trivial rfl
      | cleanup =>
          obtain rfl := Option.some.inj hs
          exact h.account (a := .cleanup) ha (by simp [Act.actor]) trivial rfl
      | clone child =>
          simp only [Option.ite_none_left_eq_some, Option.some.injEq] at hs
          obtain ⟨hfresh, rfl⟩ := hs
          refine ha.fork hfresh ?_
          obtain ⟨⟨stage, r, g, l⟩, md', hmd, hafter, -⟩ := h.mode_of_todo htodo
          obtain rfl : stage = .committed := by
            cases stage <;> simp_all [Mode.after]
          exact hmd.stage trivial
      | await child =>
          simp only [Option.ite_none_right_eq_some, Option.some.injEq] at hs
          obtain ⟨-, rfl⟩ := hs
          exact ha
      | result child dest =>
          cases dest with
          | null | stack =>
              obtain rfl := Option.some.inj hs
              exact ha
          | region o =>
              simp only [Option.ite_none_right_eq_some, Option.some.injEq] at hs
              obtain ⟨hw, rfl⟩ := hs
              exact h.account (a := .setWord t o (s.retval child)) ha (hact rfl) trivial (if_pos hw)
      | closeProtection =>
          obtain rfl := Option.some.inj hs
          dsimp only [advance]
          split
          · exact h.account (a := .closeProtection t) ha (hact rfl) trivial rfl
          · exact ha
      | deregister | retval =>
          obtain rfl := Option.some.inj hs
          exact ha
      | exit =>
          obtain rfl := Option.some.inj hs
          exact h.account (a := .exit t) ha (hact rfl) trivial rfl

theorem account_step {e : Event} (h : Staged True s) (ha : s.mem.Accounted s.threads)
    (hg : StoresWritable s e) (hs : s.step isHeap e = some s') : s'.mem.Accounted s'.threads := by
  cases e with
  | user t a =>
      simp only [Runtime.step, Option.ite_none_right_eq_some, Option.map_eq_some_iff] at hs
      obtain ⟨⟨ht, -, -, hallow⟩, m', hm, rfl⟩ := hs
      refine h.account ha (fun u hu => ?_) ?_ hm
      · cases a <;> simp_all [Mem.allows, Act.actor]
      · cases a <;> trivial
  | call t op =>
      simp only [Runtime.step, Option.ite_none_right_eq_some, Option.some.injEq] at hs
      obtain ⟨-, rfl⟩ := hs
      exact ha
  | next t => exact h.account_next ha hs
  | fault t a =>
      simp only [Runtime.step, Option.ite_none_right_eq_some, Option.map_eq_some_iff,
        Option.any_eq_true] at hs
      obtain ⟨⟨p, htarget, hh⟩, m', hm, rfl⟩ := hs
      obtain ⟨ht, -⟩ := h.committed_of_target htarget
      refine h.account ha (fun u hu => ?_) ?_ hm
      · cases a <;> simp_all [Mem.handles, Act.actor]
      · cases a <;> trivial
  | signal t p =>
      simp only [Runtime.step, Option.ite_none_right_eq_some, Option.map_eq_some_iff] at hs
      obtain ⟨⟨ht, -⟩, m', hm, rfl⟩ := hs
      exact h.account (a := .signal t p) ha (by simp [Act.actor, ht]) trivial hm

end Staged

/-- What runs preserve. -/
structure Settled (s : Runtime) : Prop where
  staged : Staged True s
  accounted : s.mem.Accounted s.threads

theorem Settled.step {e : Event} (h : Settled s) (hg : StoresWritable s e)
    (hs : s.step isHeap e = some s') : Settled s' :=
  ⟨h.staged.step (fun _ => hg) hs, h.staged.account_step h.accounted hg hs⟩

theorem Settled.boot (position : ℕ) : Settled (boot position) where
  staged := boot_staged True position
  accounted :=
    { users := fun p => by simp [Runtime.boot, Mem.boot, Mem.pending, Space.Pending]
      twin := fun _ _ => rfl
      owned := fun _ _ _ => rfl }

/-- As long as the runtime makes no page writable between a commit and the next begin, the users of
every page are counted in every state of every run. -/
theorem page_users_accounted {position : ℕ} {es : List Event}
    (h : Transition.Run (step isHeap) StoresWritable (boot position) es s) : s.Accounts := by
  have hi : Settled s := h.invariant (fun _ _ _ hi hg hs => hi.step hg hs) (.boot position)
  exact ⟨hi.accounted.users, hi.accounted.twin, fun t rest => hi.staged.processed_of_begin⟩

/-- Main spawns thread 2, which starts its first transaction. -/
def spawning : List Event :=
  .call 1 (.spawn 2) :: List.replicate 7 (.next 1) ++ [.next 2]

/-- Thread 2 signals the condition variable at the start of page 0. -/
def signalling : List Event :=
  .call 2 (.condSignal ⟨0, 0⟩ fun _ => 1) :: List.replicate 2 (.next 2)

/-- The page of the variable is written in the transaction that the signal ends. -/
theorem page_users_accounted_stored : ∃ s, Transition.Run (step fun _ => false) StoresWritable (boot 8)
    (spawning ++ [.user 2 (.fault 2 0)] ++ signalling ++ List.replicate 4 (.next 2)) s ∧
      s.todo 2 = [] ∧ s.Accounts := by
  have h : (Transition.execGuarded (step fun _ => false) StoresWritable (boot 8)
      (spawning ++ [.user 2 (.fault 2 0)] ++ signalling ++ List.replicate 4 (.next 2))).any
        (fun s => decide (s.todo 2 = [])) = true := by
    decide +kernel
  obtain ⟨s, hr, htodo⟩ := Transition.exists_run_of_any h
  exact ⟨s, hr, htodo, page_users_accounted hr⟩

/-- `cond_init` makes the page of the variable writable after the commit, and the begin forgets it:
a user is left that no thread accounts for. -/
theorem page_users_leak : ∃ s, Transition.Run (step fun _ => false) (fun _ _ => True) (boot 8)
    (spawning ++ signalling ++ [.fault 2 (.fault 2 0)] ++ List.replicate 3 (.next 2)) s ∧
      s.todo 2 = [] ∧ (s.mem.pages 0).users = 1 ∧ s.mem.pending s.threads 0 = 0 ∧ ¬ s.Accounts := by
  have h : (Transition.exec (step fun _ => false) (boot 8)
      (spawning ++ signalling ++ [.fault 2 (.fault 2 0)] ++ List.replicate 3 (.next 2))).any
        (fun s => decide (s.todo 2 = [] ∧ (s.mem.pages 0).users = 1 ∧
          s.mem.pending s.threads 0 = 0)) = true := by
    decide +kernel
  obtain ⟨s, he, htodo, husers, hpending⟩ := Transition.exists_exec_of_any h
  refine ⟨s, Transition.run_of_exec he, htodo, husers, hpending, fun ha => ?_⟩
  have hu := ha.users 0
  omega

end Runtime

end Dthreads.Memory
