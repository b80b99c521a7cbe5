import Dthreads.Scheduler.Steps

/-! # The links of the entries

Every pointer of the scheduler object leads to a registered entry, and no function but
`registerThread` changes whose entry an entry is. -/

namespace Dthreads.Scheduler

/-- Whose entry it is. -/
def ThreadEntry.ident (e : ThreadEntry) : Tid × ℕ × ℕ := (e.tid, e.threadindex, e.tidParent)

namespace Entries

variable (es : Entries) (i j n : ℕ)

@[simp] theorem setNext_ident : (es.setNext i n j).ident = (es j).ident := by
  by_cases h : j = i
  · subst h; simp [setNext, ThreadEntry.ident]
  · simp [setNext, h]

@[simp] theorem setPrev_ident : (es.setPrev i n j).ident = (es j).ident := by
  by_cases h : j = i
  · subst h; simp [setPrev, ThreadEntry.ident]
  · simp [setPrev, h]

theorem update_ident {e : ThreadEntry} (he : e.ident = (es i).ident) :
    (Function.update es i e j).ident = (es j).ident := by
  by_cases h : j = i
  · subst h; simp [he]
  · simp [h]

@[simp] theorem setStatus_ident (x : Status) : (es.setStatus i x j).ident = (es j).ident :=
  update_ident es i j rfl

@[simp] theorem insertTail_ident (head : Option ℕ) :
    ((es.insertTail i head).1 j).ident = (es j).ident := by
  cases head <;> simp [insertTail]

@[simp] theorem insertHead_ident : (es.insertHead i n j).ident = (es j).ident := by
  simp [insertHead]

@[simp] theorem removeEntry_ident (head : Option ℕ) :
    ((es.removeEntry i head).1 j).ident = (es j).ident := by
  unfold removeEntry
  dsimp only
  split <;> simp

@[simp] theorem moveWholeList_ident (src : Option ℕ) :
    (es.moveWholeList i src j).ident = (es j).ident := by
  cases src <;> simp [moveWholeList]

/-- All links lead into `R`. -/
def LinksIn (R : ℕ → Prop) (es : Entries) : Prop := ∀ i, R (es i).prev ∧ R (es i).next

variable {es i j n} {R : ℕ → Prop}

theorem LinksIn.update {e : ThreadEntry} (h : LinksIn R es) (he : R e.prev ∧ R e.next) :
    LinksIn R (Function.update es i e) := by
  intro j
  by_cases hj : j = i
  · subst hj; simpa using he
  · simpa [hj] using h j

theorem LinksIn.setNext (h : LinksIn R es) (hn : R n) : LinksIn R (es.setNext i n) :=
  h.update ⟨(h i).1, hn⟩

theorem LinksIn.setPrev (h : LinksIn R es) (hn : R n) : LinksIn R (es.setPrev i n) :=
  h.update ⟨hn, (h i).2⟩

theorem LinksIn.setStatus (h : LinksIn R es) (x : Status) : LinksIn R (es.setStatus i x) :=
  h.update (h i)

theorem LinksIn.insertTail {head : Option ℕ} (h : LinksIn R es) (hi : R i) (hh : ∀ k ∈ head, R k) :
    LinksIn R (es.insertTail i head).1 ∧ ∀ k ∈ (es.insertTail i head).2, R k := by
  cases head with
  | none => exact ⟨(h.setPrev hi).setNext hi, by simpa [Entries.insertTail] using hi⟩
  | some k =>
      have hk := hh k rfl
      exact ⟨(((h.setNext hi).setPrev hi).setPrev (h k).1).setNext hk, hh⟩

theorem LinksIn.insertHead (h : LinksIn R es) (hi : R i) (hn : R n) : LinksIn R (es.insertHead i n) :=
  (((h.setNext hi).setPrev hi).setPrev hn).setNext (h n).2

theorem LinksIn.removeEntry {head : Option ℕ} (h : LinksIn R es) (hh : ∀ k ∈ head, R k) :
    LinksIn R (es.removeEntry i head).1 ∧ ∀ k ∈ (es.removeEntry i head).2, R k := by
  unfold Entries.removeEntry
  dsimp only
  split
  · exact ⟨h, by simp⟩
  · refine ⟨(h.setNext (h i).2).setPrev (h i).1, ?_⟩
    intro k hk
    dsimp only at hk
    split at hk
    · cases hk
      exact (h i).2
    · exact hh k hk

theorem LinksIn.moveWholeList {src : Option ℕ} (h : LinksIn R es) (hi : R i) (hs : ∀ k ∈ src, R k) :
    LinksIn R (es.moveWholeList i src) := by
  cases src with
  | none => exact h
  | some k => exact (((h.setPrev (h k).1).setPrev hi).setNext (h i).2).setNext (hs k rfl)

end Entries

namespace Determ

theorem readyFrom_ident (es : Entries) (n i j : ℕ) : (readyFrom es n i j).ident = (es j).ident := by
  induction n generalizing es i with
  | zero => rfl
  | succ n ih => exact (ih _ _).trans (es.update_ident i j rfl)

theorem readyFrom_linksIn {R : ℕ → Prop} {es : Entries} (h : es.LinksIn R) (n i : ℕ) :
    (readyFrom es n i).LinksIn R := by
  induction n generalizing es i with
  | zero => exact h
  | succ n ih =>
      have hu : Entries.LinksIn R
          (Function.update es i { es i with cond := none, status := .ready }) := h.update (h i)
      exact ih hu _

/-! ## Identities -/

section Ident

variable (d : Determ) (i my guest c m b : ℕ)

theorem decrFence_entries : d.decrFence.entries = d.entries := by
  unfold decrFence
  dsimp only
  split <;> rfl

theorem leaveFence_entries : d.leaveFence.entries = d.entries := by
  unfold leaveFence
  dsimp only
  split <;> rfl

theorem arriveFence_entries : d.arriveFence.entries = d.entries := by
  unfold arriveFence
  dsimp only
  split <;> rfl

theorem joinPass_entries : (d.joinPass my).entries = d.entries := by
  unfold joinPass
  dsimp only
  split <;> exact decrFence_entries d

theorem joinPass_tokenpos (h : (d.entries d.tokenpos).threadindex ≠ my) :
    (d.joinPass my).tokenpos = d.tokenpos := by
  unfold joinPass
  dsimp only
  rw [decrFence_entries, decrFence_tokenpos, if_neg fun hc => h hc.1, decrFence_tokenpos]

theorem lockRelease_entries : (d.lockRelease m).entries = d.entries := by
  unfold lockRelease
  split <;> rfl

theorem joinLeave_ident : ((d.joinLeave guest my).entries i).ident = (d.entries i).ident := by
  unfold joinLeave
  dsimp only
  rw [Entries.update_ident, Entries.removeEntry_ident]
  rfl

theorem deregisterThread_ident : ((d.deregisterThread my).entries i).ident = (d.entries i).ident := by
  unfold deregisterThread
  dsimp only
  split <;> split <;> simp [decrFence_entries]

theorem cancel_ident : ((d.cancel my).entries i).ident = (d.entries i).ident := by
  unfold cancel
  dsimp only
  split
  · split <;> split <;> simp
  · rfl

theorem condEnter_ident : ((d.condEnter my c m).entries i).ident = (d.entries i).ident := by
  unfold condEnter
  dsimp only
  rw [lockRelease_entries]
  dsimp only
  rw [decrFence_entries]
  refine (Entries.update_ident _ _ _ ?_).trans ?_
  · rfl
  · simp

theorem condSignal_ident : ((d.condSignal c).entries i).ident = (d.entries i).ident := by
  unfold condSignal
  split
  · rfl
  · split
    · refine (Entries.update_ident _ _ _ ?_).trans ?_
      · rfl
      · exact (Entries.insertHead_ident ..).trans (Entries.removeEntry_ident ..)
    · rfl

theorem condBroadcast_ident : ((d.condBroadcast c).entries i).ident = (d.entries i).ident := by
  unfold condBroadcast
  split
  · rfl
  · split
    · split
      · rfl
      · simp [incrFence, setCond, readyFrom_ident]
    · rfl

theorem barrierEnter_ident : ((d.barrierEnter my b).1.entries i).ident = (d.entries i).ident := by
  unfold barrierEnter
  split
  · rfl
  · dsimp only
    split
    · simp [incrFence, setBarrier]
    · dsimp only
      rw [decrFence_entries]
      simp [setBarrier]

end Ident

/-! ## Pointers -/

/-- All pointers lead into `R`. -/
structure PointsInto (R : ℕ → Prop) (d : Determ) : Prop where
  links : d.entries.LinksIn R
  token : R d.tokenpos
  active : ∀ k ∈ d.activelist, R k
  conds : ∀ c, ∀ e ∈ d.conds c, ∀ k ∈ e.head, R k
  barriers : ∀ b, ∀ e ∈ d.barriers b, ∀ k ∈ e.head, R k

namespace PointsInto

variable {R : ℕ → Prop} {d d' : Determ} {my guest c m b i n : ℕ}

/-- A function that touches no pointer keeps the pointers. -/
theorem congr (h : PointsInto R d) (he : d'.entries = d.entries) (ht : d'.tokenpos = d.tokenpos)
    (ha : d'.activelist = d.activelist) (hc : d'.conds = d.conds) (hb : d'.barriers = d.barriers) :
    PointsInto R d' where
  links := he ▸ h.links
  token := ht ▸ h.token
  active := ha ▸ h.active
  conds := hc ▸ h.conds
  barriers := hb ▸ h.barriers

theorem update_entry {α : Type} {P : α → Prop} {f : Obj → Option α} {e : α}
    (h : ∀ c, ∀ e ∈ f c, P e) (he : P e) : ∀ c', ∀ e' ∈ Function.update f c (some e) c', P e' := by
  intro c' e' he'
  by_cases hc : c' = c
  · subst hc
    obtain rfl : e = e' := by simpa using he'
    exact he
  · exact h c' e' (by simpa [hc] using he')

theorem setCond {e : CondEntry} (h : PointsInto R d) (he : ∀ k ∈ e.head, R k) :
    PointsInto R (d.setCond c e) :=
  ⟨h.links, h.token, h.active, update_entry h.conds he, h.barriers⟩

theorem setBarrier {e : BarrierEntry} (h : PointsInto R d) (he : ∀ k ∈ e.head, R k) :
    PointsInto R (d.setBarrier b e) :=
  ⟨h.links, h.token, h.active, h.conds, update_entry h.barriers he⟩

theorem setEntries {es : Entries} (h : PointsInto R d) (he : es.LinksIn R) :
    PointsInto R { d with entries := es } :=
  ⟨he, h.token, h.active, h.conds, h.barriers⟩

theorem setActive {es : Entries} {head : Option ℕ} (h : PointsInto R d)
    (he : es.LinksIn R ∧ ∀ k ∈ head, R k) :
    PointsInto R { d with entries := es, activelist := head } :=
  ⟨he.1, h.token, he.2, h.conds, h.barriers⟩

theorem setToken (h : PointsInto R d) (hi : R i) : PointsInto R { d with tokenpos := i } :=
  ⟨h.links, hi, h.active, h.conds, h.barriers⟩

theorem next (h : PointsInto R d) : R (d.entries i).next := (h.links i).2

theorem decrFence (h : PointsInto R d) : PointsInto R d.decrFence := by
  unfold Determ.decrFence
  dsimp only
  split <;> exact h.congr rfl rfl rfl rfl rfl

theorem leaveFence (h : PointsInto R d) : PointsInto R d.leaveFence := by
  unfold Determ.leaveFence
  dsimp only
  split <;> exact h.congr rfl rfl rfl rfl rfl

theorem arriveFence (h : PointsInto R d) : PointsInto R d.arriveFence := by
  unfold Determ.arriveFence
  dsimp only
  split <;> exact h.congr rfl rfl rfl rfl rfl

theorem setWait {x : Bool} (h : PointsInto R d) : PointsInto R (d.setWait i x) :=
  h.setEntries (h.links.update (h.links i))

theorem setReady (h : PointsInto R d) : PointsInto R (d.setReady i) :=
  h.setEntries (h.links.setStatus _)

theorem putToken (h : PointsInto R d) : PointsInto R d.putToken := h.setToken h.next

theorem lockRelease (h : PointsInto R d) : PointsInto R (d.lockRelease m) := by
  unfold Determ.lockRelease
  split
  · exact h
  · exact h.congr rfl rfl rfl rfl rfl

theorem joinLeave (h : PointsInto R d) : PointsInto R (d.joinLeave guest my) := by
  have hr : (d.entries.removeEntry my d.activelist).1.LinksIn R ∧
      ∀ k ∈ (d.entries.removeEntry my d.activelist).2, R k := h.links.removeEntry h.active
  exact h.setActive ⟨hr.1.update (hr.1 my), hr.2⟩

theorem joinPass (h : PointsInto R d) : PointsInto R (d.joinPass my) := by
  unfold Determ.joinPass
  dsimp only
  split
  · exact h.decrFence.setToken h.decrFence.next
  · exact h.decrFence

theorem deregisterThread (h : PointsInto R d) (hp : ∀ i, R (d.entries i).tidParent) :
    PointsInto R (d.deregisterThread my) := by
  unfold Determ.deregisterThread
  extract_lets parent d1 d2 nextentry
  have h1 : PointsInto R d1 := by
    unfold d1
    split
    · exact h.setEntries (h.links.insertHead (hp my) h.token)
    · exact h
  have h2 : PointsInto R d2 := by
    unfold d2
    split
    · exact PointsInto.decrFence (h1.congr rfl rfl rfl rfl rfl)
    · exact h1
  have hr : (d2.entries.removeEntry my d2.activelist).1.LinksIn R ∧
      ∀ k ∈ (d2.entries.removeEntry my d2.activelist).2, R k := h2.links.removeEntry h2.active
  exact (h2.setActive ⟨hr.1.setStatus _, hr.2⟩).setToken h2.next

theorem condHead (h : PointsInto R d) (c : ℕ) :
    ∀ k ∈ ((d.conds c).getD ⟨0, none⟩).head, R k := by
  intro k hk
  cases he : d.conds c with
  | none => simp [he] at hk
  | some e => exact h.conds c e he k (by simpa [he] using hk)

theorem cancel (h : PointsInto R d) : PointsInto R (d.cancel my) := by
  unfold Determ.cancel
  dsimp only
  split
  · rename_i c hs hc
    have hr : (d.entries.removeEntry my ((d.conds c).getD ⟨0, none⟩).head).1.LinksIn R ∧
        ∀ k ∈ (d.entries.removeEntry my ((d.conds c).getD ⟨0, none⟩).head).2, R k :=
      h.links.removeEntry (h.condHead c)
    split <;> split <;>
      exact ⟨hr.1.setStatus _, h.token, h.active, update_entry h.conds hr.2, h.barriers⟩
  · exact h

theorem condEnter (h : PointsInto R d) (hmy : R my) : PointsInto R (d.condEnter my c m) := by
  have hr : (d.entries.removeEntry my d.activelist).1.LinksIn R ∧
      ∀ k ∈ (d.entries.removeEntry my d.activelist).2, R k := h.links.removeEntry h.active
  have hi := hr.1.insertTail hmy (h.condHead c)
  unfold Determ.condEnter
  dsimp only
  refine PointsInto.lockRelease (PointsInto.setToken (PointsInto.decrFence ?_) h.next)
  exact ⟨hi.1.update (hi.1 my), h.token, hr.2, update_entry h.conds hi.2, h.barriers⟩

theorem condSignal (h : PointsInto R d) : PointsInto R (d.condSignal c) := by
  unfold Determ.condSignal
  split
  · exact h
  · rename_i ce hce
    split
    · rename_i k i hw hi
      have hr : (d.entries.removeEntry i ce.head).1.LinksIn R ∧
          ∀ k ∈ (d.entries.removeEntry i ce.head).2, R k := h.links.removeEntry (h.conds c ce hce)
      have hi' := hr.1.insertHead (h.conds c ce hce i hi) h.token
      exact ⟨hi'.update (hi' i), h.token, h.active, update_entry h.conds hr.2, h.barriers⟩
    · exact h

theorem condBroadcast (h : PointsInto R d) : PointsInto R (d.condBroadcast c) := by
  unfold Determ.condBroadcast
  split
  · exact h
  · rename_i ce hce
    split
    · rename_i i hi
      split
      · exact h
      · have he := (readyFrom_linksIn h.links ce.waiters i).moveWholeList h.token (h.conds c ce hce)
        exact ⟨he, h.token, h.active, update_entry h.conds (by simp), h.barriers⟩
    · exact h

theorem barrierEnter (h : PointsInto R d) (hmy : R my) : PointsInto R (d.barrierEnter my b).1 := by
  unfold Determ.barrierEnter
  split
  · exact h
  · rename_i be hbe
    dsimp only
    split
    · have he := h.links.moveWholeList h.token (h.barriers b be hbe)
      exact ⟨he, (he my).2, h.active, h.conds, update_entry h.barriers (by simp)⟩
    · have hr : (d.entries.removeEntry my d.activelist).1.LinksIn R ∧
          ∀ k ∈ (d.entries.removeEntry my d.activelist).2, R k := h.links.removeEntry h.active
      have hi := hr.1.insertTail hmy (h.barriers b be hbe)
      refine PointsInto.setToken (PointsInto.decrFence ?_) h.next
      exact ⟨hi.1.setStatus _, h.token, hr.2, h.conds, update_entry h.barriers hi.2⟩

theorem registerThread {pid : Tid} (h : PointsInto R d) (hi : R i) :
    PointsInto R (d.registerThread i pid n) := by
  refine PointsInto.setActive h (Entries.LinksIn.insertTail ?_ hi h.active)
  exact h.links.update (h.links i)

theorem mono {R' : ℕ → Prop} (hle : ∀ i, R i → R' i) (h : PointsInto R d) : PointsInto R' d where
  links i := ⟨hle _ (h.links i).1, hle _ (h.links i).2⟩
  token := hle _ h.token
  active k hk := hle _ (h.active k hk)
  conds c e he k hk := hle _ (h.conds c e he k hk)
  barriers b e he k hk := hle _ (h.barriers b e he k hk)

end PointsInto

theorem registerThread_ident {d : Determ} {i j n : ℕ} {pid : Tid} :
    ((d.registerThread i pid n).entries j).ident =
      if j = i then (pid, i, n) else (d.entries j).ident := by
  unfold registerThread
  dsimp only
  rw [Entries.insertTail_ident]
  by_cases hj : j = i
  · subst hj; simp [ThreadEntry.ident]
  · simp [hj]

end Determ

/-! ## Instructions -/

namespace State

variable {s : State} {t : Tid} {rest : List Instr} {i : Instr} {d : Determ} {l : Local}

theorem arrive_entries {k : Bool} (h : some (s.determ.arrive (s.locals t) k rest) = some (d, l)) :
    (∀ j, (d.entries j).ident = (s.determ.entries j).ident) ∧
      l.threadIndex = (s.locals t).threadIndex ∧
      ∀ R, s.determ.PointsInto R → d.PointsInto R := by
  unfold Determ.arrive at h
  split at h <;> cases h
  · exact ⟨fun j => by rw [Determ.leaveFence_entries, Determ.arriveFence_entries], rfl,
      fun R hR => hR.arriveFence.leaveFence⟩
  · refine ⟨fun j => ?_, rfl, fun R hR => hR.arriveFence.setWait⟩
    rw [← Determ.arriveFence_entries s.determ]
    exact Entries.update_ident _ _ _ rfl

/-- No instruction but the registration of a child changes whose entry an entry is, or leads a
pointer to an entry that is not registered. -/
theorem own_entries (h : s.own t rest i = some (d, l)) (hi : ∀ p, i ≠ .childRegister p) :
    (∀ j, (d.entries j).ident = (s.determ.entries j).ident) ∧
      l.threadIndex = (s.locals t).threadIndex ∧
      ∀ R, s.determ.PointsInto R → (∀ j, R (s.determ.entries j).tidParent) →
        (∀ u, R (s.locals u).threadIndex) → d.PointsInto R := by
  have harrive : ∀ k, some (s.determ.arrive (s.locals t) k rest) = some (d, l) →
      (∀ j, (d.entries j).ident = (s.determ.entries j).ident) ∧
        l.threadIndex = (s.locals t).threadIndex ∧
        ∀ R, s.determ.PointsInto R → (∀ j, R (s.determ.entries j).tidParent) →
          (∀ u, R (s.locals u).threadIndex) → d.PointsInto R := fun k ha =>
    let ⟨h1, h2, h3⟩ := arrive_entries ha
    ⟨h1, h2, fun R hR _ _ => h3 R hR⟩
  cases i with
  | childRegister p => exact absurd rfl (hi p)
  | fenceEnter k =>
      simp only [own] at h
      split at h
      · exact harrive k h
      · split at h <;> cases h <;> exact ⟨fun _ => rfl, rfl, fun _ hR _ _ => hR⟩
  | fenceArrive k => exact harrive k h
  | condArrival k =>
      simp only [own] at h
      split at h
      · exact harrive k h
      · cases h
  | spinRelease k =>
      simp only [own] at h
      split at h <;> cases h
      exact ⟨fun j => Entries.update_ident _ _ _ rfl, rfl, fun _ hR _ _ => hR.setWait⟩
  | fenceLeave k =>
      cases h
      exact ⟨fun j => by rw [Determ.leaveFence_entries], rfl, fun _ hR _ _ => hR.leaveFence⟩
  | condRelease k =>
      simp only [own] at h
      split at h <;> cases h
      exact ⟨fun j => by rw [Determ.leaveFence_entries], rfl, fun _ hR _ _ => hR.leaveFence⟩
  | putToken =>
      cases h
      exact ⟨fun j => rfl, rfl, fun _ hR _ _ => hR.putToken⟩
  | lockIsowner m =>
      cases h
      have hd : (s.determ.lockIsowner m t).1.entries = s.determ.entries := by
        unfold Determ.lockIsowner
        (repeat' split) <;> rfl
      exact ⟨fun j => by rw [hd], rfl, fun _ hR _ _ => by
        unfold Determ.lockIsowner
        (repeat' split) <;> exact hR.congr rfl rfl rfl rfl rfl⟩
  | lockTest m k =>
      have hd : d = (s.determ.lockTest m).1 ∧ l.threadIndex = (s.locals t).threadIndex := by
        simp only [own] at h
        split at h <;> cases h <;> exact ⟨rfl, rfl⟩
      obtain ⟨rfl, hl⟩ := hd
      refine ⟨fun j => ?_, hl, fun _ hR _ _ => ?_⟩
      · unfold Determ.lockTest
        dsimp only
        split <;> rfl
      · unfold Determ.lockTest
        dsimp only
        split <;> exact hR.congr rfl rfl rfl rfl rfl
  | lockSet m k =>
      have hd : d = (s.determ.lockSet m t).1 ∧ l.threadIndex = (s.locals t).threadIndex := by
        simp only [own] at h
        split at h <;> cases h <;> exact ⟨rfl, rfl⟩
      obtain ⟨rfl, hl⟩ := hd
      refine ⟨fun j => ?_, hl, fun _ hR _ _ => ?_⟩
      · unfold Determ.lockSet
        split <;> rfl
      · unfold Determ.lockSet
        split <;> exact hR.congr rfl rfl rfl rfl rfl
  | lockRelease m =>
      cases h
      exact ⟨fun j => by rw [Determ.lockRelease_entries], rfl, fun _ hR _ _ => hR.lockRelease⟩
  | condLookup c =>
      cases h
      refine ⟨fun j => ?_, rfl, fun _ hR _ _ => ?_⟩
      · split <;> rfl
      · split
        · exact hR.setCond (by simp)
        · exact hR
  | condEnter c m =>
      cases h
      exact ⟨fun j => Determ.condEnter_ident .., rfl, fun _ hR _ hl => hR.condEnter (hl t)⟩
  | condBlock m =>
      simp only [own] at h
      split at h <;> cases h
      · exact ⟨fun _ => rfl, rfl, fun _ hR _ _ => hR⟩
      · exact ⟨fun j => by rw [Determ.lockRelease_entries], rfl, fun _ hR _ _ => hR.lockRelease⟩
  | condSignal c =>
      cases h
      exact ⟨fun j => Determ.condSignal_ident .., rfl, fun _ hR _ _ => hR.condSignal⟩
  | condBroadcast c =>
      cases h
      exact ⟨fun j => Determ.condBroadcast_ident .., rfl, fun _ hR _ _ => hR.condBroadcast⟩
  | condInit c =>
      cases h
      exact ⟨fun _ => rfl, rfl, fun _ hR _ _ => hR.setCond (by simp)⟩
  | barrierInit b n =>
      cases h
      exact ⟨fun _ => rfl, rfl, fun _ hR _ _ => hR.setBarrier (by simp)⟩
  | barrierEnter b =>
      cases h
      exact ⟨fun j => Determ.barrierEnter_ident .., rfl, fun _ hR _ hl => hR.barrierEnter (hl t)⟩
  | barrierArrive b =>
      simp only [own, Option.map_eq_some_iff] at h
      obtain ⟨be, hbe, h⟩ := h
      split at h <;> cases h <;>
        exact ⟨fun _ => rfl, rfl, fun _ hR _ _ => hR.setBarrier (hR.barriers b be hbe)⟩
  | detJoin v w =>
      simp only [own] at h
      split at h <;> cases h
      · exact ⟨fun j => Entries.setStatus_ident .., rfl, fun _ hR _ _ => hR.setReady⟩
      · exact ⟨fun j => by rw [Determ.joinPass_entries, Determ.joinLeave_ident], rfl,
          fun _ hR _ _ => hR.joinLeave.joinPass⟩
  | joinBlock g =>
      simp only [own] at h
      split at h <;> cases h
      · exact ⟨fun j => Entries.setStatus_ident .., rfl, fun _ hR _ _ =>
          Determ.PointsInto.setReady (hR.congr rfl rfl rfl rfl rfl)⟩
      · exact ⟨fun j => by rw [Determ.joinPass_entries]; rfl, rfl, fun _ hR _ _ =>
          Determ.PointsInto.joinPass (hR.congr rfl rfl rfl rfl rfl)⟩
  | detCancel v =>
      cases h
      exact ⟨fun j => Determ.cancel_ident .., rfl, fun _ hR _ _ => hR.cancel⟩
  | deregister =>
      cases h
      exact ⟨fun j => Determ.deregisterThread_ident .., rfl,
        fun _ hR hp _ => hR.deregisterThread hp⟩
  | _ =>
      simp only [own] at h
      (repeat' split at h) <;> cases h <;>
        exact ⟨fun _ => rfl, rfl, fun _ hR _ _ => hR.congr rfl rfl rfl rfl rfl⟩

/-! ## The invariant -/

/-- The pointers lead to registered entries, and an entry knows its own index. -/
structure Linked (R : ℕ → Prop) (s : State) : Prop where
  points : s.determ.PointsInto R
  index : ∀ i, R i → (s.determ.entries i).threadindex = i
  parent : ∀ i, R (s.determ.entries i).tidParent
  locals : ∀ t, R (s.locals t).threadIndex
  pending : ∀ t p, .childRegister p ∈ (s.locals t).pending → R p

end State

/-- The instruction belongs to the start of a new thread, before it waits for its parent. -/
def startsUp : Instr → Bool
  | .childRegister _ | .waitParentNotify => true
  | _ => false

theorem Pushes.not_startsUp {l : Local} {i : Instr} {js : List Instr} (h : Pushes l i js) :
    ∀ j ∈ js, startsUp j = false := by
  cases h with
  | again m =>
      unfold Local.getLockAgain
      split <;> simp [Local.waitToken, Local.waitFence, startsUp]
  | endCritical =>
      unfold Local.endCriticalSection
      split <;> simp [Local.waitFence, startsUp]
  | taken m k => cases k <;> simp [Local.lockFailed, Local.waitFence, startsUp]
  | exhausted m k => cases k <;> simp [Local.lockFailed, Local.waitFence, startsUp]
  | _ => simp [startsUp]

theorem program_not_startsUp (l : Local) (op : Op) : ∀ j ∈ l.program op, startsUp j = false := by
  cases op <;>
    simp only [Local.program, Local.mutexLock, Local.mutexUnlock, Local.condWait, Local.condSignal,
      Local.condBroadcast, Local.barrierWait, Local.spawn, Local.join, Local.cancel,
      Local.threadDeregister, Local.wakeChildren, Local.underToken, Local.waitToken, Local.waitFence] <;>
    (repeat' split) <;> simp [startsUp]

namespace State.Linked

variable {R : ℕ → Prop} {s s' : State} {t : Tid}

theorem called {op : Op} (h : Linked R s) : Linked R (s.called t op) where
  points := h.points
  index := h.index
  parent := h.parent
  locals u := by
    rw [called_locals]
    split
    · exact h.locals t
    · exact h.locals u
  pending u p hp := by
    rw [called_locals] at hp
    split at hp
    · exact absurd (program_not_startsUp _ _ _ hp) (by simp [startsUp])
    · exact h.pending u p hp

/-- What the others have after an instruction. -/
theorem others (h : Linked R s) (i : Instr) (u : Tid) :
    R (s.others t i u).threadIndex ∧ ∀ p, .childRegister p ∈ (s.others t i u).pending → R p := by
  rcases s.others_cases t i u with hu | ⟨hu, -⟩ | ⟨-, hu⟩ | ⟨-, hu⟩ <;> rw [hu]
  · exact ⟨h.locals u, h.pending u⟩
  · exact ⟨h.locals u, h.pending u⟩
  · refine ⟨h.locals t, fun p hp => ?_⟩
    obtain rfl : p = (s.locals t).threadIndex := by
      simpa [Local.forked, Local.childStart] using hp
    exact h.locals t
  · exact ⟨h.locals u, h.pending u⟩

theorem ran {i : Instr} {rest : List Instr} {d : Determ} {l : Local} (h : Linked R s)
    (hp : (s.locals t).pending = i :: rest) (ho : s.own t rest i = some (d, l))
    (hi : ∀ p, i ≠ .childRegister p) :
    Linked R ⟨d, Function.update (s.others t i) t l, s.created i⟩ := by
  obtain ⟨hid, hl, hpt⟩ := own_entries ho hi
  have hpend : ∀ p, .childRegister p ∈ l.pending → R p := by
    intro p hmem
    by_cases hx : i = .procExit
    · subst hx
      cases ho
      simp at hmem
    · obtain ⟨js, hjs, hl⟩ := own_pending ho hx
      rw [hl, List.mem_append] at hmem
      rcases hmem with hmem | hmem
      · exact absurd (hjs.not_startsUp _ hmem) (by simp [startsUp])
      · exact h.pending t p (by rw [hp]; exact List.mem_cons_of_mem _ hmem)
  have hident : ∀ j, (d.entries j).threadindex = (s.determ.entries j).threadindex ∧
      (d.entries j).tidParent = (s.determ.entries j).tidParent := fun j => by
    have := hid j
    simp only [ThreadEntry.ident, Prod.mk.injEq] at this
    exact this.2
  exact
    { points := hpt R h.points h.parent h.locals
      index := fun j hj => (hident j).1.trans (h.index j hj)
      parent := fun j => (hident j).2 ▸ h.parent j
      locals := fun u => by
        by_cases hu : u = t
        · subst hu
          simpa [hl] using h.locals u
        · simpa [hu] using (h.others i u).1
      pending := fun u p hmem => by
        by_cases hu : u = t
        · subst hu
          exact hpend p (by simpa using hmem)
        · exact (h.others i u).2 p (by simpa [hu] using hmem) }

theorem registered {p : ℕ} {rest : List Instr} {d : Determ} {l : Local} (h : Linked R s)
    (hp : (s.locals t).pending = .childRegister p :: rest)
    (ho : s.own t rest (.childRegister p) = some (d, l)) :
    Linked (fun i => R i ∨ i = s.determ.threadIndex)
      ⟨d, Function.update (s.others t (.childRegister p)) t l, s.created (.childRegister p)⟩ := by
  obtain ⟨rfl, rfl⟩ : s.determ.childRegister (s.locals t) t p rest = (d, l) := Option.some.inj ho
  have hRp : R p := h.pending t p (by rw [hp]; exact List.mem_cons_self)
  have hid : ∀ j, ((s.determ.childRegister (s.locals t) t p rest).1.entries j).ident =
      if j = s.determ.threadIndex then (t, s.determ.threadIndex, p)
      else (s.determ.entries j).ident := fun j => Determ.registerThread_ident
  simp only [ThreadEntry.ident] at hid
  exact
    { points := Determ.PointsInto.registerThread
        ((h.points.mono fun _ => .inl).congr rfl rfl rfl rfl rfl) (.inr rfl)
      index := fun j hj => by
        have hj' := hid j
        split at hj'
        · rename_i he
          simp only [Prod.mk.injEq] at hj'
          exact hj'.2.1.trans he.symm
        · rename_i he
          simp only [Prod.mk.injEq] at hj'
          exact hj'.2.1.trans (h.index j (hj.resolve_right he))
      parent := fun j => by
        have hj' := hid j
        refine .inl ?_
        change R ((s.determ.childRegister (s.locals t) t p rest).1.entries j).tidParent
        split at hj' <;> simp only [Prod.mk.injEq] at hj' <;> rw [hj'.2.2]
        · exact hRp
        · exact h.parent j
      locals := fun u => by
        by_cases hu : u = t
        · subst hu
          simp
        · simpa [hu] using Or.inl (h.others (.childRegister p) u).1
      pending := fun u q hmem => by
        by_cases hu : u = t
        · subst hu
          refine .inl (h.pending u q ?_)
          rw [hp]
          exact List.mem_cons_of_mem _ (by simpa [Determ.childRegister] using hmem)
        · exact .inl ((h.others (t := t) (.childRegister p) u).2 q (by simpa [hu] using hmem)) }

/-- Every step keeps the links, to one more entry at most. -/
theorem step {a : Label} (h : Linked R s) (hs : s.step a = some s') : ∃ R', Linked R' s' := by
  cases a with
  | call t op =>
      obtain ⟨-, -, rfl⟩ := step_call hs
      exact ⟨R, h.called⟩
  | run t =>
      obtain ⟨i, rest, d, l, -, hp, ho, rfl⟩ := step_run hs
      by_cases hi : ∃ p, i = .childRegister p
      · obtain ⟨p, rfl⟩ := hi
        exact ⟨_, h.registered hp ho⟩
      · exact ⟨R, h.ran hp ho fun p hp => hi ⟨p, hp⟩⟩

end State.Linked

namespace State

theorem linked_boot (coresNumb : ℕ) : Linked (fun i => i = 0) (boot coresNumb) where
  points := ⟨fun i => ⟨rfl, rfl⟩, rfl, by simp [boot], by simp [boot], by simp [boot]⟩
  index i hi := by simp [boot, hi]
  parent i := rfl
  locals t := rfl
  pending t p := by simp [boot]

end State

end Dthreads.Scheduler
