import Dthreads.Memory.Dirty

/-! # Notifications of page owners

A `SIGUSR1` asks a process to commit a page and to give it up. The handler copies the page to the
shared mapping without a look at `_pageOwner`. -/

namespace Dthreads.Memory

open Transition

/-- The process that takes the action. -/
def Act.actor : Act → Option Tid
  | .load t _ | .store t _ _ | .fault t _ | .notify t _ | .mprotectRead t _ | .setWord t _ _
  | .memWrite t _ _ | .commitEntry t _ | .begin t | .finalcommit t _ _ | .superblock t _
  | .signal t _ | .openProtection t | .closeProtection t | .fork t _ | .exit t => some t
  | .cleanup => none

/-- The process that opens the protection. -/
def Act.opens : Act → Option Tid
  | .openProtection t => some t
  | _ => none

/-- The process that exits. -/
def Act.exits : Act → Option Tid
  | .exit t => some t
  | _ => none

namespace Mem

variable {m m' : Mem} {t u : Tid} {p q k : ℕ}

/-- The queued notifications, the processes they can reach, and the pages in use. -/
def mail (m : Mem) : (Tid → List ℕ) × (Tid → Bool) × ℕ := (m.signals, m.alive, m.position)

@[simp] theorem setPage_mail (g : SharedPage) : (m.setPage p g).mail = m.mail := rfl

@[simp] theorem setSpace_mail (s : Space) : (m.setSpace t s).mail = m.mail := rfl

@[simp] theorem setSharedPage_mail : (m.setSharedPage t p).mail = m.mail := by
  unfold setSharedPage
  split <;> rfl

@[simp] theorem commitOwnedPage_mail (s : Bool) : (m.commitOwnedPage t p s).mail = m.mail := by
  unfold commitOwnedPage
  cases s <;> simp

@[simp] theorem finalcommitPage_mail (r : Bool) : (m.finalcommitPage t p r).mail = m.mail := by
  unfold finalcommitPage
  split <;> simp

theorem handleWrite_mail (h : m.handleWrite t p = some m') : m'.mail = m.mail := by
  have hadd : ∀ {n : Mem}, n.addDirty t p = some m' → m'.mail = n.mail := fun hn => by
    rw [addDirty_eq hn]
    rfl
  unfold handleWrite at h
  split at h
  · rw [hadd h, commitOwnedPage_mail]
    rfl
  · rw [hadd h]
    rfl

@[simp] theorem storeWord_mail (i : Fin 512) (w : Word) : (m.storeWord t p i w).mail = m.mail := by
  unfold storeWord
  split <;> rfl

theorem storeBytes_mail (val : Addr → Byte) (as : List Addr) :
    (m.storeBytes t val as).mail = m.mail := by
  induction as generalizing m with
  | nil => rfl
  | cons a as ih => exact (ih (m := m.storeByte t a (val a))).trans (storeWord_mail _ _)

theorem commitEntry_mail (h : m.commitEntry t k = some m') : m'.mail = m.mail := by
  have htwin : ∀ {n : Mem} {q : ℕ}, m.ensureTwin q = some n → n.mail = m.mail := by
    intro n q hn
    unfold ensureTwin at hn
    split at hn
    · obtain ⟨-, rfl⟩ := createTwinPage_eq hn
      rfl
    · rw [Option.some.inj hn]
  obtain ⟨d, n, -, hn, ⟨-, rfl⟩ | ⟨-, -, rfl⟩ | ⟨-, -, -, rfl⟩⟩ := commitEntry_cases h <;>
    rw [← htwin hn]
  · rfl
  · change (n.publish t d.pageNo d.version).mail = n.mail
    unfold publish
    split
    · rfl
    · exact setSharedPage_mail
  · rfl

/-! ## The condition -/

/-- A process stores to a page only when no notification of this page is queued for it, unless it
owns the page. No other step than the handler takes a page from an owner that has such a
notification. -/
def Prompt (m : Mem) : Act → Prop
  | .store t as _ => ∀ a ∈ as, (m.pages a.page).owner = .thread t ∨ a.page ∉ m.signals t
  | .setWord t o _ => (m.pages o.page).owner = .thread t ∨ o.page ∉ m.signals t
  | .finalcommit t p release => release = true ∨ p ∉ m.signals t
  | .commitEntry t k => ∀ d ∈ (m.spaces t).dirty[k]?, m.publishes t d →
      match (m.pages d.pageNo).owner with
      | .thread o => d.pageNo ∉ m.signals o
      | _ => True
  | _ => True

instance (m : Mem) (t : Tid) (d : PageInfo) : Decidable (m.publishes t d) :=
  inferInstanceAs (Decidable (_ ∧ _))

instance (m : Mem) (a : Act) : Decidable (m.Prompt a) :=
  match a with
  | .store t as _ => inferInstanceAs
      (Decidable (∀ a ∈ as, (m.pages a.page).owner = .thread t ∨ a.page ∉ m.signals t))
  | .setWord t o _ => inferInstanceAs
      (Decidable ((m.pages o.page).owner = .thread t ∨ o.page ∉ m.signals t))
  | .finalcommit t p release => inferInstanceAs (Decidable (release = true ∨ p ∉ m.signals t))
  | .commitEntry t k =>
      have : ∀ d : PageInfo, Decidable (match (m.pages d.pageNo).owner with
          | .thread o => d.pageNo ∉ m.signals o
          | _ => True) := fun d => by split <;> infer_instance
      inferInstanceAs (Decidable (∀ d ∈ (m.spaces t).dirty[k]?, _))
  | .load .. | .fault .. | .notify .. | .mprotectRead .. | .memWrite .. | .begin .. | .superblock ..
  | .signal .. | .cleanup | .openProtection .. | .closeProtection .. | .fork .. | .exit .. =>
      inferInstanceAs (Decidable True)

/-- Protection is opened when no other live process has a notification queued. -/
def OpensAlone (m : Mem) (a : Act) : Prop :=
  ∀ t ∈ a.opens, ∀ u, u ≠ t → m.alive u = true → m.signals u = []

/-! ## The invariant -/

/-- A notification is queued for the owner of its page, or for a process without a copy of it. -/
structure Addressed (m : Mem) : Prop where
  owned : ∀ p o, (m.pages p).owner = .thread o → p < m.position
  queued : ∀ t, ∀ p ∈ m.signals t, p < m.position
  addressee : ∀ t, ∀ p ∈ m.signals t, ∀ o, (m.pages p).owner = .thread o → o = t
  late : ∀ t, m.alive t = true → ∀ p ∈ m.signals t,
    (m.pages p).owner = .thread t ∨ (m.spaces t).priv p = none

namespace Addressed

/-- A step that queues no notification and gives no page an owner. -/
theorem frame (h : Addressed m) (hmail : m'.mail = m.mail)
    (howner : ∀ p o, (m'.pages p).owner = .thread o → (m.pages p).owner = .thread o)
    (hlate : ∀ t, m.alive t = true → ∀ p ∈ m.signals t,
      (m'.pages p).owner = .thread t ∨ (m'.spaces t).priv p = none) : Addressed m' := by
  obtain ⟨hs, ha, hp⟩ : m'.signals = m.signals ∧ m'.alive = m.alive ∧ m'.position = m.position := by
    simpa [mail] using hmail
  exact
    { owned := fun p o ho => hp ▸ h.owned p o (howner p o ho)
      queued := fun t p ht => hp ▸ h.queued t p (hs ▸ ht)
      addressee := fun t p ht o ho => h.addressee t p (hs ▸ ht) o (howner p o ho)
      late := fun t ht p hq => hlate t (ha ▸ ht) p (hs ▸ hq) }

/-- A step that leaves the owners and makes no copies. -/
theorem frame_of_drop (h : Addressed m) (hmail : m'.mail = m.mail)
    (howner : ∀ p, (m'.pages p).owner = (m.pages p).owner)
    (hpriv : ∀ t p, (m'.spaces t).priv p = (m.spaces t).priv p ∨ (m'.spaces t).priv p = none) :
    Addressed m' := by
  refine h.frame hmail (fun p o ho => howner p ▸ ho) fun t ht p hq => ?_
  rw [howner]
  refine (h.late t ht p hq).imp_right fun hn => ?_
  rcases hpriv t p with hp | hp
  · rw [hp, hn]
  · exact hp

theorem owner_setSharedPage {o : Tid} (ho : ((m.setSharedPage t p).pages q).owner = .thread o) :
    q ≠ p ∧ (m.pages q).owner = .thread o := by
  have ht := congrArg Table.owner (setSharedPage_table (m := m) (t := t) (p := p) (q := q))
  rw [table_owner, ho] at ht
  split at ht
  · cases ht
  · exact ⟨by assumption, ht.symm⟩

/-- The owner of a page is notified, or the page is shared. -/
theorem notify (h : Addressed m) : Addressed (m.notifyOwnerToCommit t p) := by
  have hshare : (∀ u, (m.pages p).owner = .thread u → m.alive u = false) →
      Addressed (m.setSharedPage t p) := by
    intro hdead
    refine h.frame setSharedPage_mail (fun q o ho => (owner_setSharedPage ho).2) fun u hu q hq => ?_
    rw [setSharedPage_priv]
    rcases h.late u hu q hq with ho | hn
    · left
      have hqp : q ≠ p := by
        rintro rfl
        rw [hdead u ho] at hu
        cases hu
      have ht := congrArg Table.owner (setSharedPage_table (m := m) (t := t) (p := p) (q := q))
      rw [if_neg hqp] at ht
      exact ht.trans ho
    · exact .inr hn
  unfold notifyOwnerToCommit
  split
  · exact h
  · rename_i ho
    exact hshare fun u hu => Owner.noConfusion (ho.symm.trans hu)
  · rename_i o ho
    split
    · have hmem : ∀ u, ∀ q ∈ Function.update m.signals o (m.signals o ++ [p]) u,
          q ∈ m.signals u ∨ (u = o ∧ q = p) := by
        intro u q hq
        by_cases huo : u = o
        · subst huo
          rw [Function.update_self, List.mem_append, List.mem_singleton] at hq
          exact hq.imp_right fun hq => ⟨rfl, hq⟩
        · rw [Function.update_of_ne huo] at hq
          exact .inl hq
      exact
        { owned := h.owned
          queued := fun u q hq => by
            rcases hmem u q hq with hq | ⟨-, rfl⟩
            · exact h.queued u q hq
            · exact h.owned q o ho
          addressee := fun u q hq v hv => by
            rcases hmem u q hq with hq | ⟨rfl, rfl⟩
            · exact h.addressee u q hq v hv
            · exact Owner.thread.inj (hv.symm.trans ho)
          late := fun u hu q hq => by
            rcases hmem u q hq with hq | ⟨rfl, rfl⟩
            · exact h.late u hu q hq
            · exact .inl ho }
    · rename_i hdead
      refine hshare fun u hu => ?_
      obtain rfl := Owner.thread.inj (ho.symm.trans hu)
      simpa using hdead

/-- A page that is given up with its copy. -/
theorem given_up (h : Addressed m) (hp : ∀ u, (m.pages p).owner = .thread u → u = t) :
    Addressed (m.commitOwnedPage t p true) := by
  have howner : ∀ q, ((m.commitOwnedPage t p true).pages q).owner =
      if q = p then .shared else (m.pages q).owner := fun q => by
    have ht := congrArg Table.owner (commitOwnedPage_table (m := m) (t := t) (p := p) (q := q) true)
    rw [apply_ite Table.owner] at ht
    exact ht
  refine h.frame (commitOwnedPage_mail true) (fun q o ho => ?_) fun u hu q hq => ?_
  · rw [howner] at ho
    split at ho
    · cases ho
    · exact ho
  · rw [howner, commitOwnedPage_priv]
    by_cases hqp : q = p
    · subst hqp
      right
      by_cases hut : u = t
      · simp [hut]
      · rw [if_neg (by simp [hut])]
        exact (h.late u hu q hq).resolve_left fun ho => hut (hp u ho)
    · rw [if_neg hqp, if_neg (by simp [hqp])]
      exact h.late u hu q hq

/-- The handler takes one notification and gives the page up. -/
theorem handled (h : Addressed m) (hp : p ∈ m.signals t) : Addressed (m.signalHandler t p) := by
  have hmem : ∀ u, ∀ q ∈ Function.update m.signals t ((m.signals t).erase p) u, q ∈ m.signals u := by
    intro u q hq
    by_cases hut : u = t
    · subst hut
      rw [Function.update_self] at hq
      exact List.mem_of_mem_erase hq
    · rwa [Function.update_of_ne hut] at hq
  have herase : Addressed { m with signals := Function.update m.signals t ((m.signals t).erase p) } :=
    { owned := h.owned
      queued := fun u q hq => h.queued u q (hmem u q hq)
      addressee := fun u q hq => h.addressee u q (hmem u q hq)
      late := fun u hu q hq => h.late u hu q (hmem u q hq) }
  exact herase.given_up (h.addressee t p hp)

theorem finalcommit {r : Bool} (h : Addressed m) (ho : (m.pages p).owner = .thread t)
    (hg : r = true ∨ p ∉ m.signals t) : Addressed (m.finalcommitPage t p r) := by
  have hp : ∀ u, (m.pages p).owner = .thread u → u = t := fun u hu =>
    Owner.thread.inj (hu.symm.trans ho)
  cases r with
  | true => exact h.given_up hp
  | false =>
      have howner : ∀ q, ((m.commitOwnedPage t p false).pages q).owner = (m.pages q).owner := by
        intro q
        have ht := congrArg Table.owner
          (commitOwnedPage_table (m := m) (t := t) (p := p) (q := q) false)
        rw [table_owner] at ht
        split at ht <;> exact ht
      refine h.frame (finalcommitPage_mail false) (fun q o hq => ?_) fun u hu q hq => ?_
      · rw [← howner]
        exact (owner_setSharedPage hq).2
      · rw [finalcommitPage_priv, if_neg (by simp)]
        rcases h.late u hu q hq with hq' | hn
        · left
          have hqp : q ≠ p := by
            rintro rfl
            obtain rfl := hp u hq'
            exact hg.elim (by simp) fun hn => hn hq
          have ht := congrArg Table.owner (finalcommitPage_table (m := m) (t := t) false hqp)
          exact ht.trans hq'
        · exact .inr hn

theorem superblock {n : ℕ} (h : Addressed m) : Addressed (m.superblock t n) := by
  have hs : (m.superblock t n).signals = m.signals ∧ (m.superblock t n).alive = m.alive ∧
      (m.superblock t n).position = m.position + n := by
    unfold Mem.superblock setOwnedPage
    dsimp only
    split <;> exact ⟨rfl, rfl, rfl⟩
  have howner : ∀ q, ((m.superblock t n).pages q).owner = (m.pages q).owner ∨
      (m.position ≤ q ∧ q < m.position + n ∧ ((m.superblock t n).pages q).owner = .thread t) := by
    intro q
    unfold Mem.superblock setOwnedPage
    dsimp only
    split
    · dsimp only
      split
      · rename_i hq
        exact .inr ⟨hq.1, hq.2, rfl⟩
      · exact .inl rfl
    · exact .inl rfl
  have hold : ∀ u, ∀ q ∈ m.signals u,
      ((m.superblock t n).pages q).owner = (m.pages q).owner := fun u q hq =>
    (howner q).resolve_right fun hn => absurd (h.queued u q hq) (by omega)
  exact
    { owned := fun q o ho => by
        rw [hs.2.2]
        rcases howner q with hq | ⟨-, hq, -⟩
        · have := h.owned q o (hq ▸ ho)
          omega
        · exact hq
      queued := fun u q hq => by
        rw [hs.2.2]
        have := h.queued u q (hs.1 ▸ hq)
        omega
      addressee := fun u q hq o ho => by
        rw [hs.1] at hq
        exact h.addressee u q hq o (hold u q hq ▸ ho)
      late := fun u hu q hq => by
        rw [hs.1] at hq
        rw [hold u q hq, superblock_priv]
        exact h.late u (hs.2.1 ▸ hu) q hq }

/-- A store makes a copy of a page only if no notification of it is queued. -/
theorem stored (h : Addressed m) (hmail : m'.mail = m.mail)
    (howner : ∀ q, (m'.pages q).owner = (m.pages q).owner)
    (hpriv : ∀ u q, (m'.spaces u).priv q = (m.spaces u).priv q ∨
      (u = t ∧ ((m.pages q).owner = .thread t ∨ q ∉ m.signals t))) : Addressed m' := by
  refine h.frame hmail (fun q o ho => howner q ▸ ho) fun u hu q hq => ?_
  rw [howner]
  rcases hpriv u q with hp | ⟨rfl, ho | hn⟩
  · rw [hp]
    exact h.late u hu q hq
  · exact .inl ho
  · exact absurd hq hn

/-- A commit takes a page from its owner only if it publishes the page. -/
theorem commitEntry_owner (hs : m.commitEntry t k = some m') (q : ℕ) :
    (m'.pages q).owner = (m.pages q).owner ∨
      ((m'.pages q).owner = .shared ∧ ∃ d ∈ (m.spaces t).dirty[k]?, m.publishes t d ∧ d.pageNo = q) := by
  obtain ⟨d, n, hd, hn, -, ht⟩ := commitEntry_table hs
  have ho := congrArg Table.owner (ht q)
  rw [table_owner] at ho
  rw [ho]
  split
  · exact .inl (ensureTwin_owner hn)
  · rename_i hq
    have hq : q = d.pageNo := by
      by_contra hne
      exact hq (.inl hne)
    split
    · rename_i hpub
      have hp := congrArg Table.owner (publish_table (m := n) (t := t) (p := d.pageNo) (q := q) d.version)
      split at hp
      · exact .inr ⟨hp, d, hd, hpub, hq.symm⟩
      · exact .inl (hp.trans (ensureTwin_owner hn))
    · exact .inl (ensureTwin_owner hn)

theorem committed (h : Addressed m) (hs : m.commitEntry t k = some m')
    (hg : m.Prompt (.commitEntry t k)) : Addressed m' := by
  refine h.frame (commitEntry_mail hs) (fun q o ho => ?_) fun u hu q hq => ?_
  · rcases commitEntry_owner hs q with hq | ⟨hq, -⟩
    · exact hq ▸ ho
    · rw [hq] at ho
      cases ho
  · rw [commitEntry_priv hs]
    rcases h.late u hu q hq with ho | hn
    · left
      rcases commitEntry_owner hs q with hq' | ⟨-, d, hd, hpub, rfl⟩
      · exact hq'.trans ho
      · have hn := hg d hd hpub
        rw [ho] at hn
        exact absurd hq hn
    · exact .inr hn

theorem fork {child : Tid} (h : Addressed m) : Addressed (m.fork t child) where
  owned := h.owned
  queued u q hq := by
    by_cases huc : u = child
    · subst huc
      simp [Mem.fork] at hq
    · exact h.queued u q (by simpa [Mem.fork, huc] using hq)
  addressee u q hq := by
    by_cases huc : u = child
    · subst huc
      simp [Mem.fork] at hq
    · exact h.addressee u q (by simpa [Mem.fork, huc] using hq)
  late u hu q hq := by
    by_cases huc : u = child
    · subst huc
      simp [Mem.fork] at hq
    · simpa [Mem.fork, huc] using
        h.late u (by simpa [Mem.fork, huc] using hu) q (by simpa [Mem.fork, huc] using hq)

theorem exit (h : Addressed m) : Addressed (m.exit t) where
  owned := h.owned
  queued := h.queued
  addressee := h.addressee
  late u hu q hq := by
    by_cases hut : u = t
    · subst hut
      simp [Mem.exit] at hu
    · exact h.late u (by simpa [Mem.exit, hut] using hu) q hq

theorem openProtection (h : Addressed m)
    (hq : ∀ u, u ≠ t → m.alive u = true → m.signals u = []) : Addressed (m.openProtection t) where
  owned p o ho := by
    simp only [Mem.openProtection] at ho
    split at ho <;> cases ho
  queued := h.queued
  addressee u p _ o ho := by
    simp only [Mem.openProtection] at ho
    split at ho <;> cases ho
  late u hu p hp := by
    by_cases hut : u = t
    · subst hut
      simp [Mem.openProtection]
    · rw [show (m.openProtection t).signals u = [] from hq u hut hu] at hp
      cases hp

theorem step {a : Act} (h : Addressed m) (hg : m.Prompt a) (ha : m.OpensAlone a)
    (hs : m.step a = some m') :
    Addressed m' := by
  cases a with
  | load t a =>
      simp only [Mem.step, Option.ite_none_right_eq_some, Option.some.injEq] at hs
      obtain ⟨-, rfl⟩ := hs
      exact h
  | store t as f =>
      simp only [Mem.step, Option.ite_none_right_eq_some, Option.some.injEq] at hs
      obtain ⟨-, rfl⟩ := hs
      refine h.stored (t := t) (storeBytes_mail _ as)
        (fun q => congrArg Table.owner (storeBytes_table (m := m) (q := q) _ as)) fun u q => ?_
      by_cases hq : ∀ a ∈ as, a.page ≠ q ∨ u ≠ t
      · exact .inl (storeBytes_priv hq)
      · push Not at hq
        obtain ⟨b, hb, rfl, rfl⟩ := hq
        exact .inr ⟨rfl, hg b hb⟩
  | fault t p =>
      simp only [Mem.step, Option.ite_none_right_eq_some] at hs
      refine h.frame_of_drop (handleWrite_mail hs.2) (fun q => ?_) fun u q => .inl ?_
      · have := congrArg Table.owner (handleWrite_table (q := q) hs.2)
        rw [table_owner] at this
        split at this <;> exact this
      · rw [handleWrite_priv hs.2]
  | notify t p =>
      simp only [Mem.step, Option.ite_none_right_eq_some, Option.some.injEq] at hs
      obtain ⟨-, rfl⟩ := hs
      exact h.notify
  | mprotectRead t p =>
      simp only [Mem.step, Option.ite_none_right_eq_some, Option.some.injEq] at hs
      obtain ⟨-, rfl⟩ := hs
      exact h.frame_of_drop rfl (fun _ => rfl) fun u q => .inl (by rw [mprotectRead_priv])
  | setWord t o w =>
      simp only [Mem.step, Option.ite_none_right_eq_some, Option.some.injEq] at hs
      obtain ⟨-, rfl⟩ := hs
      refine h.stored (t := t) (storeWord_mail o.word w)
        (fun q => congrArg Table.owner (storeWord_table (m := m) (q := q) o.word w)) fun u q => ?_
      rw [storeWord_priv]
      split
      · rename_i hq
        obtain ⟨rfl, rfl, -⟩ := hq
        exact .inr ⟨rfl, hg⟩
      · exact .inl rfl
  | memWrite t o w =>
      obtain rfl := Option.some.inj hs
      refine h.frame_of_drop rfl (fun q => ?_) fun u q => .inl rfl
      exact congrArg Table.owner (memWrite_table (m := m) (q := q) o w)
  | commitEntry t k => exact h.committed hs hg
  | begin t =>
      obtain rfl := Option.some.inj hs
      refine h.frame_of_drop rfl (fun _ => rfl) fun u q => ?_
      by_cases hut : u = t
      · subst hut
        by_cases hr : m.released u q
        · exact .inr (updateAll_priv_of_released hr)
        · exact .inl (updateAll_priv_of_not_released hr)
      · rw [updateAll_priv_of_ne hut]
        exact .inl rfl
  | finalcommit t p r =>
      simp only [Mem.step, Option.ite_none_right_eq_some, Option.some.injEq] at hs
      obtain ⟨ho, rfl⟩ := hs
      exact h.finalcommit ho hg
  | superblock t n =>
      obtain rfl := Option.some.inj hs
      exact h.superblock
  | signal t p =>
      simp only [Mem.step, Option.ite_none_right_eq_some, Option.some.injEq] at hs
      obtain ⟨hp, rfl⟩ := hs
      exact h.handled hp
  | cleanup =>
      obtain rfl := Option.some.inj hs
      exact h.frame_of_drop rfl (fun _ => rfl) fun _ _ => .inl rfl
  | openProtection t =>
      obtain rfl := Option.some.inj hs
      exact h.openProtection (ha t rfl)
  | closeProtection t =>
      obtain rfl := Option.some.inj hs
      refine h.frame_of_drop rfl (fun _ => rfl) fun u q => ?_
      by_cases hut : u = t
      · subst hut
        exact .inr (by simp [Mem.closeProtection])
      · exact .inl (by simp [Mem.closeProtection, hut])
  | fork t child =>
      obtain rfl := Option.some.inj hs
      exact h.fork
  | exit t =>
      obtain rfl := Option.some.inj hs
      exact h.exit

end Addressed

/-- Owned pages are in use, and no notification is queued. -/
structure Unnotified (m : Mem) : Prop where
  owned : ∀ p o, (m.pages p).owner = .thread o → p < m.position
  signals : ∀ t, m.signals t = []

theorem Unnotified.addressed (h : Unnotified m) : Addressed m where
  owned := h.owned
  queued t p hp := by simp [h.signals] at hp
  addressee t p hp := by simp [h.signals] at hp
  late t _ p hp := by simp [h.signals] at hp

theorem unnotified_boot (position : ℕ) : Unnotified (boot position) := ⟨fun _ _ => nofun, fun _ => rfl⟩

/-- The process that takes the action has not exited. -/
def Acts (m : Mem) (a : Act) : Prop := ∀ t ∈ a.actor, m.alive t = true

instance (m : Mem) (a : Act) : Decidable (m.Acts a) := inferInstanceAs (Decidable (∀ t ∈ a.actor, _))

end Mem

/-! ## The law -/

/-- In a run under the condition a notification that its receiver handles when it does not own the
page any more leaves the shared mapping unchanged. -/
theorem late_notification_harmless {m w w' : Mem} {as : List Act} {t : Tid} {p : ℕ}
    (h0 : m.Unnotified)
    (hr : Run Mem.step (fun m a => m.Acts a ∧ m.Prompt a ∧ m.OpensAlone a) m as w)
    (ht : w.alive t = true) (hs : w.step (.signal t p) = some w')
    (ho : (w.pages p).owner ≠ .thread t) (q : ℕ) : (w'.pages q).content = (w.pages q).content := by
  have h : w.Addressed := Run.invariant (fun _ _ _ h hg hs => h.step hg.2.1 hg.2.2 hs) hr h0.addressed
  simp only [Mem.step, Option.ite_none_right_eq_some, Option.some.injEq] at hs
  obtain ⟨hp, rfl⟩ := hs
  rw [Mem.signalHandler_content]
  split
  · rename_i hq
    rw [hq, Mem.view_of_none ((h.late t ht p hp).resolve_left ho)]
  · rfl

/-- Process 2 owns page 1 and stores to it; processes 1 and 3 ask for the page. -/
def asked : List Act :=
  [.openProtection 1, .fork 1 2, .fork 1 3, .superblock 2 1, .fault 2 1,
    .store 2 [⟨1, 0, 0⟩] (fun _ _ => 7), .notify 1 1, .notify 3 1, .signal 2 1, .mprotectRead 3 1]

/-- The second notification is handled before process 2 stores to the page again. -/
theorem late_notification_harmless_prompt : ∃ w w',
    Run Mem.step (fun m a => m.Acts a ∧ m.Prompt a ∧ m.OpensAlone a) (Mem.boot 1) asked w ∧
      w.step (.signal 2 1) = some w' ∧ (w.pages 1).content 0 0 = 7 ∧
      (w'.pages 1).content = (w.pages 1).content := by
  have hrun : (execGuarded Mem.step (fun m a => m.Acts a ∧ m.Prompt a ∧ a.opens = none)
      ((Mem.boot 1).openProtection 1) asked.tail).any (fun w => decide (w.alive 2 = true ∧
        (w.step (.signal 2 1)).isSome = true ∧ (w.pages 1).owner ≠ .thread 2 ∧
        (w.pages 1).content 0 0 = 7)) = true := by
    decide +kernel
  obtain ⟨w, hr, ht, hs, ho, h7⟩ := exists_run_of_any hrun
  obtain ⟨w', hs⟩ := Option.isSome_iff_exists.mp hs
  have hr' : Run Mem.step (fun m a => m.Acts a ∧ m.Prompt a ∧ m.OpensAlone a) (Mem.boot 1) asked w :=
    .cons ⟨by decide, trivial, fun _ _ _ _ _ => rfl⟩ rfl
      (hr.mono fun m a h => ⟨h.1, h.2.1, fun t ht => by simp [h.2.2] at ht⟩)
  exact ⟨w, w', hr', hs, h7, late_notification_harmless (Mem.unnotified_boot 1) hr' ht hs ho 1⟩

/-- Process 2 stores to the page again and process 3 commits another byte of it before the second
notification is handled: the handler copies the old page over this byte. -/
theorem late_notification_harmful :
    ¬ ∀ (m w w' : Mem) (as : List Act) (t : Tid) (p : ℕ), m.Unnotified →
      Run Mem.step (fun m a => m.Acts a) m as w → w.alive t = true →
      w.step (.signal t p) = some w' → (w.pages p).owner ≠ .thread t →
      ∀ q, (w'.pages q).content = (w.pages q).content := by
  intro h
  have hrun : (execGuarded Mem.step (fun m a => m.Acts a) (Mem.boot 1)
      (asked ++ [.store 2 [⟨1, 0, 0⟩] (fun _ _ => 8), .fault 3 1,
        .store 3 [⟨1, 0, 1⟩] (fun _ _ => 9), .commitEntry 3 0])).any (fun w =>
      decide (w.alive 2 = true ∧ (w.pages 1).owner ≠ .thread 2 ∧ (w.pages 1).content 0 1 = 9 ∧
        (w.step (.signal 2 1)).any (fun w' => (w'.pages 1).content 0 1 = 0) = true)) = true := by
    decide +kernel
  obtain ⟨w, hr, ht, ho, h9, hs⟩ := exists_run_of_any hrun
  obtain ⟨w', hs, h0⟩ := Option.any_eq_true _ _ |>.mp hs
  have hc := h _ w w' _ 2 1 (Mem.unnotified_boot 1) hr ht hs ho 1
  rw [hc, h9] at h0
  exact absurd h0 (by decide)

end Dthreads.Memory
