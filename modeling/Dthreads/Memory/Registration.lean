import Dthreads.Memory.Content

/-! # Registered synchronisation objects

`setSyncEntry` stores the entry of an object in the first word of the object, in the caller's
view and in the shared mapping. What can undo it is a commit that publishes a copy of the page
taken before. -/

namespace Dthreads.Memory

variable {o : SyncAddr} {e : Word} {m m' : Mem} {t u : Tid} {p : ℕ}

/-! ## Sessions -/

/-- The memory, and the processes that began a transaction since the registration. -/
structure Session where
  mem : Mem
  later : Tid → Bool

namespace Session

/-- Which processes are in a later transaction after an action. -/
def laterAfter (later : Tid → Bool) : Act → Tid → Bool
  | .begin t => Function.update later t true
  | .fork _ child => Function.update later child false
  | _ => later

def step (s : Session) (a : Act) : Option Session :=
  (s.mem.step a).map fun m => ⟨m, laterAfter s.later a⟩

/-- `setSyncEntry o e` has just run in memory `m`: its last store goes to the shared mapping. -/
def registered (m : Mem) (o : SyncAddr) (e : Word) : Session := ⟨m.memWrite o e, fun _ => false⟩

end Session

/-! ## The condition -/

/-- The program leaves the object alone: it does not store to its word, and it neither
registers it again nor destroys it. -/
def Untouched (o : SyncAddr) : Act → Prop
  | .store _ as _ => ∀ a ∈ as, ¬ (a.page = o.page ∧ a.word = o.word)
  | .setWord _ o' _ => o' ≠ o
  | .memWrite _ o' _ => o' ≠ o
  | _ => True

instance (o : SyncAddr) : DecidablePred (Untouched o)
  | .store _ as _ => inferInstanceAs (Decidable (∀ a ∈ as, ¬ (a.page = o.page ∧ a.word = o.word)))
  | .setWord _ o' _ => inferInstanceAs (Decidable (o' ≠ o))
  | .memWrite _ o' _ => inferInstanceAs (Decidable (o' ≠ o))
  | .load .. | .fault .. | .notify .. | .mprotectRead .. | .commitEntry .. | .begin .. => .isTrue trivial
  | .finalcommit .. | .superblock .. | .signal .. | .cleanup | .openProtection .. => .isTrue trivial
  | .closeProtection .. | .fork .. | .exit .. => .isTrue trivial

/-- Process `t` has no copy of the page of `o` without the entry. -/
def NoStaleCopy (m : Mem) (t : Tid) (o : SyncAddr) (e : Word) : Prop :=
  ∀ c ∈ (m.spaces t).priv o.page, c o.word = e

instance (m : Mem) (t : Tid) (o : SyncAddr) (e : Word) : Decidable (NoStaleCopy m t o e) :=
  inferInstanceAs (Decidable (∀ c ∈ (m.spaces t).priv o.page, c o.word = e))

/-- The commit of entry `d` by `t` leaves the word of `o` alone: the page is not published, or
the copy has the entry, or other commits came in between and the word of the copy agrees with
the twin wherever it differs from the entry. -/
def CommitKeeps (m : Mem) (t : Tid) (o : SyncAddr) (e : Word) (d : PageInfo) : Prop :=
  m.publishes t d → NoStaleCopy m t o e ∨
  (sameVersion d.version (m.pages o.page).version = false ∧
    ∀ b ∈ m.diffBase o.page,
      ∀ j, m.view t o.page o.word j = e j ∨ m.view t o.page o.word j = b o.word j)

/-- No stale copy of the page of `o` is published over the word or kept by `begin`. -/
def Keeps (o : SyncAddr) (e : Word) (s : Session) : Act → Prop
  | .fault t p =>
      p = o.page → (s.mem.spaces t).access p = .write → NoStaleCopy s.mem t o e
  | .signal t p => p = o.page → NoStaleCopy s.mem t o e
  | .finalcommit t p _ => p = o.page → NoStaleCopy s.mem t o e
  | .commitEntry t k =>
      ∀ d ∈ (s.mem.spaces t).dirty[k]?, d.pageNo = o.page → CommitKeeps s.mem t o e d
  | .begin t => NoStaleCopy s.mem t o e ∨ s.mem.released t o.page
  | _ => True

instance (m : Mem) (t : Tid) (p : ℕ) : Decidable (m.released t p) :=
  inferInstanceAs (Decidable (∃ e ∈ (m.spaces t).dirty,
    e.pageNo = p ∧ e.isUpdated = false ∧ (m.spaces t).release e.slot = true))

instance (m : Mem) (t : Tid) (o : SyncAddr) (e : Word) (d : PageInfo) :
    Decidable (CommitKeeps m t o e d) :=
  inferInstanceAs (Decidable (_ → _ ∨ (_ ∧ ∀ b ∈ m.diffBase o.page,
    ∀ j, m.view t o.page o.word j = e j ∨ m.view t o.page o.word j = b o.word j)))

instance (o : SyncAddr) (e : Word) (s : Session) : DecidablePred (Keeps o e s)
  | .fault .. | .signal .. | .finalcommit .. => inferInstanceAs (Decidable (_ → _))
  | .commitEntry t k => inferInstanceAs (Decidable (∀ d ∈ (s.mem.spaces t).dirty[k]?,
      d.pageNo = o.page → CommitKeeps s.mem t o e d))
  | .begin _ => inferInstanceAs (Decidable (_ ∨ _))
  | .load .. | .store .. | .notify .. | .mprotectRead .. | .setWord .. | .memWrite .. => .isTrue trivial
  | .superblock .. | .cleanup | .openProtection .. | .closeProtection .. => .isTrue trivial
  | .fork .. | .exit .. => .isTrue trivial

/-- The registration of `o` stands. -/
structure Registered (o : SyncAddr) (e : Word) (s : Session) : Prop where
  shared : (s.mem.pages o.page).content o.word = e
  later : ∀ t, s.later t = true → s.mem.getSyncEntry t o = e

/-! ## The word under each action -/

theorem getSyncEntry_of_priv (hs : (m.pages o.page).content o.word = e)
    (h : (m.spaces t).priv o.page = none) : m.getSyncEntry t o = e := by
  rw [Mem.getSyncEntry, Mem.view_of_none h, hs]

theorem getSyncEntry_of_some {c : Page} (h : (m.spaces t).priv o.page = some c) :
    m.getSyncEntry t o = c o.word := by
  rw [Mem.getSyncEntry, Mem.view_of_some h]

/-- With the entry in the file, a process sees it unless it has a stale copy. -/
theorem noStaleCopy_iff (hs : (m.pages o.page).content o.word = e) :
    NoStaleCopy m t o e ↔ m.getSyncEntry t o = e := by
  cases hc : (m.spaces t).priv o.page with
  | none => simp [NoStaleCopy, hc, getSyncEntry_of_priv hs hc]
  | some c => simp [NoStaleCopy, hc, getSyncEntry_of_some hc]

/-- With the entry in the file, a process whose copy is kept or dropped goes on seeing it. -/
theorem getSyncEntry_keep (hs : (m'.pages o.page).content o.word = e)
    (hp : (m'.spaces t).priv o.page = (m.spaces t).priv o.page ∨
      (m'.spaces t).priv o.page = none)
    (h : m.getSyncEntry t o = e) : m'.getSyncEntry t o = e := by
  rcases hp with hp | hp
  · cases hc : (m.spaces t).priv o.page with
    | none => exact getSyncEntry_of_priv hs (hp.trans hc)
    | some c =>
        rw [getSyncEntry_of_some hc] at h
        rw [getSyncEntry_of_some (hp.trans hc), h]
  · exact getSyncEntry_of_priv hs hp

/-- An action that keeps the entry in the file, and gives nobody a new copy, keeps the
registration. -/
theorem Registered.keep {s : Session} {later : Tid → Bool} (h : Registered o e s)
    (hs : (m'.pages o.page).content o.word = e)
    (hp : ∀ u, later u = true → s.later u = true ∧
      ((m'.spaces u).priv o.page = (s.mem.spaces u).priv o.page ∨
        (m'.spaces u).priv o.page = none)) : Registered o e ⟨m', later⟩ :=
  ⟨hs, fun u hu => getSyncEntry_keep hs (hp u hu).2 (h.later u (hp u hu).1)⟩

theorem memWrite_keep {o' : SyncAddr} (w : Word) (ho : o' ≠ o) :
    ((m.memWrite o' w).pages o.page).content o.word = (m.pages o.page).content o.word := by
  rw [Mem.memWrite_content]
  split
  · rename_i hp
    have hw : o.word ≠ o'.word := fun hw => ho (by cases o; cases o'; simp_all)
    rw [Page.setWord_of_ne _ _ hw]
  · rfl

/-- A diff brings the word to the entry exactly when no byte of the copy is in its way. -/
theorem writePageDiffs_eq_entry {loc twin dest : Page} (hs : dest o.word = e) :
    writePageDiffs loc twin dest o.word = e ↔
      ∀ j, loc o.word j = e j ∨ loc o.word j = twin o.word j := by
  rw [funext_iff]
  refine forall_congr' fun j => ?_
  rw [writePageDiffs_apply, hs]
  by_cases h : loc o.word j = twin o.word j
  · simp [h]
  · simp [h]

/-- One turn of the commit loop keeps the entry exactly when the condition on the copy, the
twin and the version of the page holds. -/
theorem commitEntry_keeps_iff {k : ℕ} (hs : (m.pages o.page).content o.word = e)
    (h : m.commitEntry t k = some m') :
    (m'.pages o.page).content o.word = e ↔
      ∀ d ∈ (m.spaces t).dirty[k]?, d.pageNo = o.page → CommitKeeps m t o e d := by
  obtain ⟨d, b, hd, hb, hc⟩ := Mem.commitEntry_content h
  simp only [hd, Option.mem_def, Option.some.injEq, forall_eq']
  rw [hc o.page]
  by_cases hp : o.page = d.pageNo ∧ m.publishes t d
  · obtain ⟨hp, hpub⟩ := hp
    have hview : m.view t o.page o.word = m.getSyncEntry t o := rfl
    rw [← hp] at hb
    simp only [hp.symm, hpub, CommitKeeps, hb, and_self, if_true, forall_const, Option.mem_def,
      Option.some.injEq, forall_eq']
    cases hv : sameVersion d.version (m.pages o.page).version with
    | true => simp [noStaleCopy_iff hs, hview]
    | false =>
        simp only [Bool.false_eq_true, if_false, true_and, writePageDiffs_eq_entry hs,
          noStaleCopy_iff hs, hview]
        constructor
        · exact .inr
        · rintro (hw | hw) j
          · exact .inl (congrFun hw j)
          · exact hw j
  · simp only [hp, if_false, hs, true_iff]
    exact fun hpage hpub => absurd ⟨hpage.symm, hpub⟩ hp

/-! ## The run -/

/-- A step that meets the condition keeps the registration. -/
theorem Registered.step {s s' : Session} {a : Act} (h : Registered o e s) (ho : Untouched o a)
    (hk : Keeps o e s a) (hs : s.step a = some s') : Registered o e s' := by
  unfold Session.step at hs
  rw [Option.map_eq_some_iff] at hs
  obtain ⟨m', hm, rfl⟩ := hs
  cases a with
  | load t a =>
      simp only [Mem.step, Option.ite_none_right_eq_some, Option.some.injEq] at hm
      obtain ⟨-, rfl⟩ := hm
      exact h
  | store t as f =>
      simp only [Mem.step, Option.ite_none_right_eq_some, Option.some.injEq] at hm
      obtain ⟨-, rfl⟩ := hm
      exact ⟨(Mem.storeBytes_word (u := t) ho).1.trans h.shared, fun u hu =>
        (Mem.storeBytes_word (u := u) ho).2.trans (h.later u hu)⟩
  | fault t p =>
      simp only [Mem.step, Option.ite_none_right_eq_some] at hm
      obtain ⟨-, hm⟩ := hm
      refine h.keep ?_ fun u hu => ⟨hu, .inl (by rw [Mem.handleWrite_priv hm])⟩
      rw [Mem.handleWrite_content hm]
      split
      · rename_i hc
        rw [← hc.1]
        exact (noStaleCopy_iff h.shared).mp (hk hc.1.symm hc.2)
      · exact h.shared
  | notify t p =>
      simp only [Mem.step, Option.ite_none_right_eq_some, Option.some.injEq] at hm
      obtain ⟨-, rfl⟩ := hm
      exact h.keep (by rw [Mem.notifyOwnerToCommit_content, h.shared])
        fun u hu => ⟨hu, .inl (by rw [Mem.notifyOwnerToCommit_priv])⟩
  | mprotectRead t p =>
      simp only [Mem.step, Option.ite_none_right_eq_some, Option.some.injEq] at hm
      obtain ⟨-, rfl⟩ := hm
      exact h.keep h.shared fun u hu => ⟨hu, .inl (by rw [Mem.mprotectRead_priv])⟩
  | setWord t o' w =>
      simp only [Mem.step, Option.ite_none_right_eq_some, Option.some.injEq] at hm
      obtain ⟨-, rfl⟩ := hm
      have hne : ¬ (o'.page = o.page ∧ o'.word = o.word) := by
        intro hc
        exact ho (by cases o; cases o'; simp_all)
      exact ⟨(Mem.storeWord_content_word w hne).trans h.shared, fun u hu =>
        (Mem.storeWord_view_word w hne).trans (h.later u hu)⟩
  | memWrite t o' w =>
      obtain rfl := Option.some.inj hm
      exact h.keep ((memWrite_keep w ho).trans h.shared) fun u hu => ⟨hu, .inl rfl⟩
  | commitEntry t k =>
      exact h.keep ((commitEntry_keeps_iff h.shared hm).mpr hk)
        fun u hu => ⟨hu, .inl (by rw [Mem.commitEntry_priv hm])⟩
  | begin t =>
      obtain rfl := Option.some.inj hm
      refine ⟨h.shared, fun u hu => ?_⟩
      by_cases hut : u = t
      · subst hut
        by_cases hr : s.mem.released u o.page
        · exact getSyncEntry_of_priv h.shared (Mem.updateAll_priv_of_released hr)
        · exact getSyncEntry_keep h.shared (.inl (Mem.updateAll_priv_of_not_released hr))
            ((noStaleCopy_iff h.shared).mp (hk.resolve_right hr))
      · have hu : s.later u = true := by simpa [Session.laterAfter, hut] using hu
        exact getSyncEntry_keep h.shared (.inl (by rw [Mem.updateAll_priv_of_ne hut]))
          (h.later u hu)
  | finalcommit t p r =>
      simp only [Mem.step, Option.ite_none_right_eq_some, Option.some.injEq] at hm
      obtain ⟨-, rfl⟩ := hm
      refine h.keep ?_ fun u hu => ⟨hu, ?_⟩
      · rw [Mem.finalcommitPage_content]
        split
        · rename_i hp
          rw [← hp]
          exact (noStaleCopy_iff h.shared).mp (hk hp.symm)
        · exact h.shared
      · rw [Mem.finalcommitPage_priv]
        split
        · exact .inr rfl
        · exact .inl rfl
  | superblock t n =>
      obtain rfl := Option.some.inj hm
      exact h.keep (by rw [Mem.superblock_content, h.shared])
        fun u hu => ⟨hu, .inl (by rw [Mem.superblock_priv])⟩
  | signal t p =>
      simp only [Mem.step, Option.ite_none_right_eq_some, Option.some.injEq] at hm
      obtain ⟨-, rfl⟩ := hm
      refine h.keep ?_ fun u hu => ⟨hu, ?_⟩
      · rw [Mem.signalHandler_content]
        split
        · rename_i hp
          rw [← hp]
          exact (noStaleCopy_iff h.shared).mp (hk hp.symm)
        · exact h.shared
      · rw [Mem.signalHandler_priv]
        split
        · exact .inr rfl
        · exact .inl rfl
  | cleanup =>
      obtain rfl := Option.some.inj hm
      exact h.keep h.shared fun u hu => ⟨hu, .inl rfl⟩
  | openProtection t =>
      obtain rfl := Option.some.inj hm
      refine h.keep h.shared fun u hu => ⟨hu, ?_⟩
      by_cases hut : u = t
      · subst hut
        exact .inr (by simp [Mem.openProtection])
      · exact .inl (by simp [Mem.openProtection, hut])
  | closeProtection t =>
      obtain rfl := Option.some.inj hm
      refine h.keep h.shared fun u hu => ⟨hu, ?_⟩
      by_cases hut : u = t
      · subst hut
        exact .inr (by simp [Mem.closeProtection])
      · exact .inl (by simp [Mem.closeProtection, hut])
  | fork t child =>
      obtain rfl := Option.some.inj hm
      refine h.keep h.shared fun u hu => ?_
      have hne : u ≠ child := by
        rintro rfl
        simp [Session.laterAfter] at hu
      exact ⟨by simpa [Session.laterAfter, hne] using hu, .inl (by simp [Mem.fork, hne])⟩
  | exit t =>
      obtain rfl := Option.some.inj hm
      exact h.keep h.shared fun u hu => ⟨hu, .inl rfl⟩

theorem Registered.start (m : Mem) (o : SyncAddr) (e : Word) :
    Registered o e (.registered m o e) where
  shared := by simp [Session.registered, Mem.memWrite_content]
  later := fun _ h => absurd h Bool.false_ne_true

/-- Once `setSyncEntry o e` has run, a process in a later transaction finds the entry, as long
as no stale copy of the page is published over it or kept. -/
theorem getSyncEntry_later {as : List Act} {s : Session}
    (h : Transition.Run Session.step (fun s a => Untouched o a ∧ Keeps o e s a)
      (.registered m o e) as s) (ht : s.later t = true) : s.mem.getSyncEntry t o = e :=
  (h.invariant (fun _ _ _ hi hg hs => hi.step hg.1 hg.2 hs) (Registered.start m o e)).later t ht

/-- Process 2 has a stale copy, but the twin it is compared with is as old. -/
theorem getSyncEntry_later_old_twin :
    ∃ m, Transition.exec Mem.step (Mem.boot 1)
      [.openProtection 1, .fork 1 2, .fork 1 3, .fault 2 0, .fault 3 0,
        .store 3 [⟨0, 1, 1⟩] (fun _ _ => 5), .commitEntry 3 0, .begin 3, .fault 1 0,
        .setWord 1 ⟨0, 0⟩ (fun _ => 1)] = some m ∧
    ∃ s, Transition.exec Session.step (.registered m ⟨0, 0⟩ fun _ => 1)
      [.store 2 [⟨0, 1, 0⟩] (fun _ _ => 7), .commitEntry 1 0, .begin 1, .commitEntry 2 0,
        .begin 2] = some s ∧ s.mem.getSyncEntry 2 ⟨0, 0⟩ = fun _ => 1 := by
  have h : (Transition.exec Mem.step (Mem.boot 1)
      [.openProtection 1, .fork 1 2, .fork 1 3, .fault 2 0, .fault 3 0,
        .store 3 [⟨0, 1, 1⟩] (fun _ _ => 5), .commitEntry 3 0, .begin 3, .fault 1 0,
        .setWord 1 ⟨0, 0⟩ (fun _ => 1)]).any (fun m =>
      decide ((Transition.execGuarded Session.step
        (fun s a => Untouched ⟨0, 0⟩ a ∧ Keeps ⟨0, 0⟩ (fun _ => 1) s a)
        (.registered m ⟨0, 0⟩ fun _ => 1)
        [.store 2 [⟨0, 1, 0⟩] (fun _ _ => 7), .commitEntry 1 0, .begin 1, .commitEntry 2 0,
          .begin 2]).any (fun s => decide (s.later 2 = true)) = true)) = true := by
    decide +kernel
  obtain ⟨m, hm, hs⟩ := Transition.exists_exec_of_any h
  obtain ⟨s, hr, hs⟩ := Transition.exists_run_of_any hs
  exact ⟨m, hm, s, hr.exec_eq, getSyncEntry_later hr hs⟩

/-! ## Races

Object `⟨0, 0⟩` shares page 0 with ordinary data, which process 2 stores to in the parallel
phase in which the object is still unknown. -/

/-- Process 2 dirties the page, then process 1 finds the object unregistered and stores the
entry in its own view. -/
def raceStart : List Act :=
  [.openProtection 1, .fork 1 2, .fault 2 0, .store 2 [⟨0, 1, 0⟩] (fun _ _ => 7),
    .fault 1 0, .setWord 1 ⟨0, 0⟩ (fun _ => 1)]

/-- `cond_signal` registered the object after its commit: process 2 commits first. -/
def raceMemcpy : List Act := [.begin 1, .commitEntry 2 0, .begin 2]

/-- `mutex_lock` registered the object in a transaction that `mutex_unlock` commits: the commit
of process 2 is a diff against a twin that has the entry. -/
def raceTwin : List Act := [.commitEntry 1 0, .begin 1, .commitEntry 2 0, .begin 2]

/-- These steps after the registration leave process 2 without the entry. -/
def Loses (as : List Act) : Prop :=
  ∃ m, Transition.exec Mem.step (Mem.boot 1) raceStart = some m ∧
    ∃ s, Transition.Run Session.step (fun _ a => Untouched ⟨0, 0⟩ a)
      (.registered m ⟨0, 0⟩ fun _ => 1) as s ∧
      s.later 2 = true ∧ s.mem.getSyncEntry 2 ⟨0, 0⟩ ≠ fun _ => 1

theorem loses_of_any {as : List Act} (h : (Transition.exec Mem.step (Mem.boot 1) raceStart).any
    (fun m => decide ((Transition.execGuarded Session.step (fun _ a => Untouched ⟨0, 0⟩ a)
      (.registered m ⟨0, 0⟩ fun _ => 1) as).any (fun s =>
        decide (s.later 2 = true ∧ s.mem.getSyncEntry 2 ⟨0, 0⟩ ≠ fun _ => 1)) = true)) = true) :
    Loses as := by
  obtain ⟨m, hm, hs⟩ := Transition.exists_exec_of_any h
  exact ⟨m, hm, Transition.exists_run_of_any hs⟩

set_option maxRecDepth 4000 in
/-- A commit of the page by a process that had dirtied it before the registration loses the
entry, by the memcpy path and by the twin path. -/
theorem registration_lost : Loses raceMemcpy ∧ Loses raceTwin :=
  ⟨loses_of_any (by decide +kernel), loses_of_any (by decide +kernel)⟩

end Dthreads.Memory
