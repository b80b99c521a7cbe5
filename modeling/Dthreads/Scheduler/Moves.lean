import Dthreads.Scheduler.Queues

/-! # The operations on the queues

What each function of the scheduler object does to the token queue and the waiting lists. -/

namespace Dthreads.Scheduler.Determ

open Ring

variable {d d' : Determ} {ls ls' : Queue → List ℕ} {my k : ℕ}

namespace Queued

/-- The token goes to another member. -/
theorem setToken (h : Queued d ls) {i : ℕ} (hi : i ∈ ls .active) :
    Queued { d with tokenpos := i } ls where
  linking := h.linking
  head q := by
    rw [← h.head q]
    cases q <;> rfl
  token _ := hi
  seat := h.index _ i hi
  fits := h.fits
  index := h.index
  self := h.self
  waiting := h.waiting
  waiters := h.waiters
  joining := h.joining

theorem setToken_shift {i : ℕ} (hi : i ∈ ls .active) : Shift my d ls { d with tokenpos := i } ls where
  active _ hi _ := hi
  barrier _ _ hi _ := .inr hi
  token := .inr (.inl hi)
  role _ _ := .inl rfl
  tid _ _ := rfl
  generation _ _ := rfl
  exited _ he hne := absurd he hne
  front _ _ hi := .inl hi
  source q _ hi _ := .inl ⟨q, hi⟩

/-- The token goes on. -/
theorem putToken (h : Queued d ls) (ha : ls .active ≠ []) :
    Queued d.putToken ls ∧ ∀ my, Shift my d ls d.putToken ls :=
  ⟨h.setToken (h.linking.next_mem (h.token ha)), fun _ =>
    setToken_shift (h.linking.next_mem (h.token ha))⟩

/-- The caller of `join`, or a joiner that wakes up, becomes ready. -/
theorem setReady (h : Queued d ls) (hmy : my ∈ ls .active ∨ (d.entries my).status = .joining) :
    Queued (d.setReady my) ls := by
  have hr : ∀ i, ((d.setReady my).entries i).role =
      if i = my then (.ready, (d.entries my).cond, (d.entries my).joineeThreadIndex)
      else (d.entries i).role := fun i => Entries.update_role ..
  have hl : (d.setReady my).entries.Linking ls := h.linking.update rfl rfl
  have hx : ∀ i, ((d.setReady my).entries i).threadindex = (d.entries i).threadindex := fun i =>
    congrArg (fun x => x.2.1) (Entries.setStatus_ident d.entries my i .ready)
  refine h.alter (k := my) hl ?_ h.token ((hx _).trans h.seat) (fun i hi => ?_) (fun i _ => hx i) (fun q i _ hi => .inl hi)
    ?_ ((hx my).trans (hmy.elim (h.index _ my) (h.self my))) (fun c i hi _ => hi) (fun c hs => ?_) h.waiters fun i hs hj => ?_
  · intro q
    rw [← h.head q]
    cases q <;> rfl
  · rw [hr, if_neg hi]
  · intro q hq
    rw [hr, if_pos rfl]
    cases q with
    | active => exact ⟨nofun, nofun⟩
    | cond c =>
        have hf := (h.fits _ _ hq).1
        rcases hmy with ha | hs
        · exact absurd hf (h.fits _ _ ha).2
        · exact absurd (hs.symm.trans hf) (by decide)
    | barrier b =>
        rcases hmy with ha | hs
        · exact absurd (h.linking.disjoint ha hq) (by simp)
        · have hf : (d.entries my).status = .barrWaiting := h.fits _ _ hq
          exact absurd (hs.symm.trans hf) (by decide)
  · have hk := congrArg Prod.fst (hr my)
    rw [if_pos rfl] at hk
    exact absurd (hk.symm.trans hs) nofun
  · have hi := hr i
    have hne : i ≠ my := by
      rintro rfl
      rw [if_pos rfl] at hi
      exact absurd ((congrArg Prod.fst hi).symm.trans hs) nofun
    rw [if_neg hne] at hi
    refine h.joining i (role_status hi ▸ hs) fun he => hj ?_
    rw [role_joinee hi]
    have hg := hr (d.entries i).joineeThreadIndex
    rw [if_neg] at hg
    · exact (role_status hg).trans he
    · intro hg
      rw [hg] at he
      exact hmy.elim (fun ha => (h.fits _ _ ha).1 he) fun hs => absurd (hs.symm.trans he) (by decide)

theorem setReady_shift : Shift my d ls (d.setReady my) ls := by
  have hr : ∀ i, i ≠ my → ((d.setReady my).entries i).role = (d.entries i).role := fun i hi =>
    (Entries.update_role ..).trans (if_neg hi)
  refine ⟨fun i hi _ => hi, fun b i hi _ => .inr hi, .inl rfl, fun i hi => .inl (hr i hi),
    fun i _ => congrArg Prod.fst (Entries.setStatus_ident d.entries my i .ready), fun b _ => rfl,
    fun i he hne => ?_, fun c i hi => .inl hi, fun q i hi _ => .inl ⟨q, hi⟩⟩
  by_cases hi : i = my
  · subst hi
    simp [Determ.setReady, Entries.setStatus] at he
  · exact absurd ((role_status (hr i hi)).symm.trans he) hne

theorem not_mem_erase (h : Queued d ls) (q : Queue) (i : ℕ) : i ∉ (ls q).erase i :=
  (h.linking.nodup q).not_mem_erase

theorem decrFence_lists (d : Determ) : d.decrFence.activelist = d.activelist ∧
    d.decrFence.conds = d.conds ∧ d.decrFence.barriers = d.barriers := by
  unfold Determ.decrFence
  dsimp only
  split <;> exact ⟨rfl, rfl, rfl⟩

theorem joinPass_lists (d : Determ) (my : ℕ) : (d.joinPass my).activelist = d.activelist ∧
    (d.joinPass my).conds = d.conds ∧ (d.joinPass my).barriers = d.barriers := by
  unfold Determ.joinPass
  dsimp only
  split <;> exact decrFence_lists d

/-- Where the token is after one turn of the loop of `join`. -/
theorem joinPass_token (d : Determ) (my : ℕ) : (d.joinPass my).tokenpos =
    if (d.entries d.tokenpos).threadindex = my ∧ d.activelist.isSome
      then (d.entries d.tokenpos).next else d.tokenpos := by
  unfold Determ.joinPass
  dsimp only
  rw [decrFence_entries, (decrFence_lists d).1, decrFence_tokenpos]
  split
  · rfl
  · exact decrFence_tokenpos d

/-- A member is taken out of its queue. -/
theorem removed (h : Queued d ls) {q : Queue} {e : ℕ} (he : e ∈ ls q) :
    ∃ es, d.entries.removeEntry e (d.head q) = (es, ((ls q).erase e).head?) ∧
      es.Linking (Function.update ls q ((ls q).erase e)) ∧
      (∀ i, (es i).role = (d.entries i).role) ∧ (∀ i, (es i).ident = (d.entries i).ident) ∧
      (es e).next = (d.entries e).next := by
  obtain ⟨hlink, hhead⟩ := h.linking.removeEntry (d.head q) he (h.head q)
  refine ⟨_, Prod.ext rfl hhead, hlink, fun i => Entries.removeEntry_role ..,
    fun i => Entries.removeEntry_ident .., ?_⟩
  unfold Entries.removeEntry
  dsimp only
  split
  · rfl
  · rename_i hal
    have hp : (d.entries e).prev ≠ e := by
      intro hp
      have hn : d.entries.nexts (d.entries.prevs e) = e := by
        obtain ⟨l₁, l₂, hq⟩ := List.append_of_mem he
        exact (getLast?_of_chain (h.linking.chain_rotate hq)).2
      rw [show d.entries.prevs e = e from hp] at hn
      exact hal ⟨hp, hn⟩
    change Entries.nexts _ e = _
    rw [Entries.setPrev_nexts, Entries.setNext_nexts, Function.update_of_ne hp.symm]
    rfl

/-- `join` of a thread that is alive: the caller leaves the token queue. -/
theorem join (h : Queued d ls) (guest : ℕ) (hmy : my ∈ ls .active) :
    Queued ((d.joinLeave guest my).joinPass my)
        (Function.update ls .active ((ls .active).erase my)) ∧
      Shift my d ls ((d.joinLeave guest my).joinPass my)
        (Function.update ls .active ((ls .active).erase my)) ∧
      ∀ i, (((d.joinLeave guest my).joinPass my).entries i).role =
        if i = my then (.joining, (d.entries my).cond, guest) else (d.entries i).role := by
  obtain ⟨es, hE, hlink, hrole, hident, hnext⟩ := h.removed hmy
  have hleave : d.joinLeave guest my =
      { d with
        entries := Function.update es my
          { es my with status := .joining, joineeThreadIndex := guest }
        activelist := ((ls .active).erase my).head? } := by
    unfold joinLeave
    rw [show d.entries.removeEntry my d.activelist = _ from hE]
  obtain ⟨d', hd⟩ : ∃ d', d.joinLeave guest my = d' := ⟨_, rfl⟩
  have hent : d'.entries = Function.update es my
      { es my with status := .joining, joineeThreadIndex := guest } := by rw [← hd, hleave]
  have hr : ∀ i, (d'.entries i).role =
      if i = my then (.joining, (d.entries my).cond, guest) else (d.entries i).role := by
    intro i
    rw [hent, Entries.update_role, hrole, ← role_cond (hrole my)]
    rfl
  have hi : ∀ i, (d'.entries i).ident = (d.entries i).ident := fun i => by
    rw [← hd, joinLeave_ident]
  rw [hd]
  have hne : d'.tokenpos = d.tokenpos ∧ d'.activelist = ((ls .active).erase my).head? ∧
      d'.conds = d.conds ∧ d'.barriers = d.barriers := by
    rw [← hd, hleave]
    exact ⟨rfl, rfl, rfl, rfl⟩
  obtain ⟨htok, hact, hconds, hbarriers⟩ := hne
  have hnext' : (d'.entries my).next = (d.entries my).next := by
    rw [hent, Function.update_self]
    exact hnext
  have hupd : ∀ q, q ≠ .active →
      Function.update ls .active ((ls .active).erase my) q = ls q := fun q hq =>
    Function.update_of_ne hq ..
  obtain ⟨hact', hconds', hbarriers'⟩ := joinPass_lists d' my
  have hhead : ∀ q, (d'.joinPass my).head q =
      (Function.update ls .active ((ls .active).erase my) q).head? := by
    intro q
    cases q with
    | active => exact hact'.trans hact
    | cond c =>
        rw [hupd _ (by simp), ← h.head]
        simp only [Determ.head, hconds', hconds]
    | barrier b =>
        rw [hupd _ (by simp), ← h.head]
        simp only [Determ.head, hbarriers', hbarriers]
  have hpos : (d'.joinPass my).tokenpos = if (d.entries d.tokenpos).threadindex = my ∧
      ((ls .active).erase my).head?.isSome then (d'.entries d.tokenpos).next else d.tokenpos := by
    rw [joinPass_token, htok, hact, show (d'.entries d.tokenpos).threadindex =
      (d.entries d.tokenpos).threadindex from congrArg (fun x => x.2.1) (hi _)]
  rw [← and_assoc]
  refine ⟨?_, fun i => by rw [joinPass_entries, hr]⟩
  refine h.leave hmy ?_ hhead (fun ha => ?_) ?_ (fun i hi => ?_) (fun i => ?_)
    (fun q i hi => ?_) ?_ (fun q hq => ?_) (fun c hs => ?_) (fun c => ?_) (fun b => ?_) fun c i hi => ?_
  · rw [joinPass_entries, hent]
    exact hlink.update rfl rfl
  · rw [Function.update_self] at ha ⊢
    have htm := h.token (List.ne_nil_of_mem hmy)
    rw [hpos, h.index _ _ htm]
    split
    · rename_i hc
      rw [hc.1, hnext']
      exact h.linking.next_mem_erase hmy ha
    · rename_i hc
      refine (List.mem_erase_of_ne fun he => hc ⟨he, ?_⟩).mpr htm
      rwa [List.isSome_head?]
  · rw [hpos, h.index _ _ (h.token (List.ne_nil_of_mem hmy))]
    split
    · rename_i hc
      rw [hc.1, hnext']
      exact .inr (h.linking.next_mem hmy)
    · exact .inl rfl
  · rw [joinPass_entries, hr, if_neg hi]
  · rw [joinPass_entries, hi]
  · by_cases hqa : q = .active
    · subst hqa
      rw [Function.update_self, List.mem_erase_of_ne hi]
    · rw [hupd q hqa]
  · rw [Function.update_self]
    exact h.not_mem_erase _ _
  · by_cases hqa : q = .active
    · subst hqa
      rw [Function.update_self] at hq
      exact absurd hq (h.not_mem_erase _ _)
    · rw [hupd q hqa] at hq
      exact absurd (h.linking.disjoint hq hmy) hqa
  · rw [joinPass_entries] at hs
    have hk := congrArg Prod.fst (hr my)
    rw [if_pos rfl] at hk
    exact absurd (hk.symm.trans hs) (by rintro ⟨⟩)
  · rw [hupd _ (by simp)]
    simpa only [Determ.waiters, hconds', hconds] using h.waiters c
  · simp only [Determ.generation, hbarriers', hbarriers]
  · rwa [hupd _ (by simp)]

/-- A joiner that has left the token queue passes no token. -/
theorem joinPass_same (h : Queued d ls) (hmy : my ∉ ls .active) : SameQueues d (d.joinPass my) := by
  obtain ⟨ha, hc, hb⟩ := joinPass_lists d my
  refine .congr (joinPass_entries d my) ha hc hb ?_
  rw [joinPass_token, if_neg]
  rintro ⟨hx, hs⟩
  have hne : ls .active ≠ [] := List.isSome_head?.mp (h.head .active ▸ hs)
  have htm := h.token hne
  rw [h.index _ _ htm] at hx
  exact hmy (hx ▸ htm)

/-- A thread that has left the token queue is in no queue. -/
theorem gone (h : Queued d ls) (hmy : my ∈ ls .active) (q : Queue) :
    my ∉ Function.update ls .active ((ls .active).erase my) q := by
  by_cases hq : q = .active
  · subst hq
    rw [Function.update_self]
    exact h.not_mem_erase _ _
  · rw [Function.update_of_ne hq]
    exact fun hm => hq (h.linking.disjoint hm hmy)

/-- The queues when `my` has moved from the token queue to the waiting list `q`. -/
def moved (ls : Queue → List ℕ) (my : ℕ) (q : Queue) : Queue → List ℕ :=
  Function.update (Function.update ls .active ((ls .active).erase my)) q (ls q ++ [my])

theorem moved_self {q : Queue} : moved ls my q q = ls q ++ [my] := Function.update_self ..

theorem moved_of_ne {q q' : Queue} (h : q' ≠ q) (ha : q' ≠ .active) : moved ls my q q' = ls q' := by
  rw [moved, Function.update_of_ne h, Function.update_of_ne ha]

theorem moved_active {q : Queue} (hq : q ≠ .active) :
    moved ls my q .active = (ls .active).erase my := by
  rw [moved, Function.update_of_ne hq.symm, Function.update_self]

theorem mem_moved {q q' : Queue} {i : ℕ} (hi : i ≠ my) (hq : q ≠ .active) :
    i ∈ moved ls my q q' ↔ i ∈ ls q' := by
  by_cases h1 : q' = q
  · subst h1
    rw [moved_self]
    simp [hi]
  · by_cases h2 : q' = .active
    · subst h2
      rw [moved_active hq, List.mem_erase_of_ne hi]
    · rw [moved_of_ne h1 h2]

theorem eq_of_mem_moved (h : Queued d ls) (hmy : my ∈ ls .active) {q q' : Queue} (hq : q ≠ .active)
    (hm : my ∈ moved ls my q q') : q' = q := by
  by_contra h1
  by_cases h2 : q' = .active
  · subst h2
    rw [moved_active hq] at hm
    exact h.not_mem_erase _ _ hm
  · rw [moved_of_ne h1 h2] at hm
    exact h2 (h.linking.disjoint hm hmy)

theorem moved_front {q : Queue} {c : Obj} {i : ℕ} (h : (ls (.cond c)).head? = some i) :
    (moved ls my q (.cond c)).head? = some i := by
  by_cases hc : .cond c = q
  · subst hc
    rw [moved_self, List.head?_append, h]
    rfl
  · rw [moved_of_ne hc (by simp), h]

/-- The entries when `my` has moved to the waiting list `q`. -/
theorem moved_entries (h : Queued d ls) (hmy : my ∈ ls .active) {q : Queue} (hq : q ≠ .active) :
    ∃ es es', d.entries.removeEntry my d.activelist = (es, ((ls .active).erase my).head?) ∧
      es.insertTail my (d.head q) = (es', (ls q ++ [my]).head?) ∧ es'.Linking (moved ls my q) ∧
      (∀ i, (es' i).role = (d.entries i).role) ∧ ∀ i, (es' i).ident = (d.entries i).ident := by
  obtain ⟨es, hE, hlink, hrole, hident, -⟩ := h.removed hmy
  have hls : Function.update ls .active ((ls .active).erase my) q = ls q :=
    Function.update_of_ne hq ..
  obtain ⟨hins, hhead⟩ := hlink.insertTail (q := q) (d.head q) (h.gone hmy)
    (by rw [hls, h.head])
  rw [hls] at hins hhead
  exact ⟨es, _, hE, Prod.ext rfl hhead, hins,
    fun i => (Entries.insertTail_role ..).trans (hrole i),
    fun i => (Entries.insertTail_ident ..).trans (hident i)⟩

/-- The wait on a condition variable. -/
theorem condEnter (h : Queued d ls) (c m : Obj) (hmy : my ∈ ls .active) :
    Queued (d.condEnter my c m) (moved ls my (.cond c)) ∧
      Shift my d ls (d.condEnter my c m) (moved ls my (.cond c)) := by
  obtain ⟨es, es', hE, hI, hlink, hrole, hident⟩ := h.moved_entries hmy (q := .cond c) (by simp)
  have hce : ((d.conds c).getD ⟨0, none⟩).head = d.head (.cond c) := by
    change _ = (d.conds c).bind (·.head)
    cases d.conds c <;> rfl
  have hcw : ((d.conds c).getD ⟨0, none⟩).waiters = d.waiters c := by
    unfold Determ.waiters
    cases d.conds c <;> rfl
  let d1 : Determ := { d with
    entries := Function.update es' my { es' my with cond := some c, status := .condWaiting }
    activelist := ((ls .active).erase my).head?
    conds := Function.update d.conds c (some ⟨d.waiters c + 1, (ls (.cond c) ++ [my]).head?⟩)
    tokenpos := (d.entries my).next }
  have hs : SameQueues d1 (d.condEnter my c m) := by
    unfold Determ.condEnter
    rw [hE]
    dsimp only
    rw [hce, hcw, hI]
    refine SameQueues.trans ?_ (.lockRelease _ m)
    exact .congr (decrFence_entries _) (decrFence_lists _).1 (decrFence_lists _).2.1
      (decrFence_lists _).2.2 rfl
  have hr : ∀ i, (d1.entries i).role = if i = my then (.condWaiting, some c,
      (es' my).joineeThreadIndex) else (d.entries i).role := fun i =>
    (Entries.update_role ..).trans (by rw [hrole]; rfl)
  suffices hq : Queued d1 (moved ls my (.cond c)) ∧ Shift my d ls d1 (moved ls my (.cond c)) from
    ⟨hq.1.frame hs, hq.1.shift_trans hq.2 hs⟩
  refine h.leave hmy (hlink.update rfl rfl) (fun q => ?_) (fun ha => ?_)
    (.inr (h.linking.next_mem hmy)) (fun i hi => ?_) (fun i => ?_) (fun q i hi => mem_moved hi (by simp))
    ?_ (fun q hq => ?_) (fun c' _ hc' => ?_) (fun c' => ?_) (fun b => rfl) fun c' i hi => moved_front hi
  · cases q with
    | active => rw [moved_active (by simp)]; rfl
    | cond c' =>
        by_cases hc : c' = c
        · subst hc
          rw [moved_self]
          simp [d1, Determ.head]
        · rw [moved_of_ne (by simpa using hc) (by simp), ← h.head]
          simp [d1, Determ.head, hc]
    | barrier b =>
        rw [moved_of_ne (by simp) (by simp), ← h.head]
        rfl
  · rw [moved_active (by simp)] at ha ⊢
    exact h.linking.next_mem_erase hmy ha
  · rw [hr, if_neg hi]
  · refine (Entries.update_ident es' my i ?_).trans (hident i)
    rfl
  · rw [moved_active (by simp)]
    exact h.not_mem_erase _ _
  · obtain rfl := h.eq_of_mem_moved hmy (by simp) hq
    rw [hr, if_pos rfl]
    exact ⟨rfl, rfl⟩
  · have hk := congrArg (fun r => r.2.1) (hr my)
    rw [if_pos rfl] at hk
    obtain rfl : c = c' := Option.some.inj (hk.symm.trans hc')
    rw [moved_self]
    simp
  · by_cases hc : c' = c
    · subst hc
      rw [moved_self]
      simpa [d1, Determ.waiters] using h.waiters c'
    · rw [moved_of_ne (by simpa using hc) (by simp)]
      simpa [d1, Determ.waiters, hc] using h.waiters c'

/-- The wait on a barrier that is not complete. -/
theorem barrierLeave (h : Queued d ls) {b : Obj} {be : BarrierEntry} (hmy : my ∈ ls .active)
    (hb : d.barriers b = some be) (hne : be.threads + 1 ≠ be.maxthreads) :
    Queued (d.barrierEnter my b).1 (moved ls my (.barrier b)) ∧
      Shift my d ls (d.barrierEnter my b).1 (moved ls my (.barrier b)) := by
  obtain ⟨es, es', hE, hI, hlink, hrole, hident⟩ := h.moved_entries hmy (q := .barrier b) (by simp)
  have hbh : be.head = d.head (.barrier b) := by
    change _ = (d.barriers b).bind (·.head)
    rw [hb]
    rfl
  let d1 : Determ := { d with
    entries := es'.setStatus my .barrWaiting
    activelist := ((ls .active).erase my).head?
    barriers := Function.update d.barriers b
      (some { be with threads := be.threads + 1, head := (ls (.barrier b) ++ [my]).head? })
    tokenpos := (d.entries my).next }
  have hs : SameQueues d1 (d.barrierEnter my b).1 := by
    unfold Determ.barrierEnter
    rw [hb]
    dsimp only
    rw [if_neg hne, hE]
    dsimp only
    rw [hbh, hI]
    exact .congr (decrFence_entries _) (decrFence_lists _).1 (decrFence_lists _).2.1
      (decrFence_lists _).2.2 rfl
  have hr : ∀ i, (d1.entries i).role = if i = my then (.barrWaiting, (es' my).cond,
      (es' my).joineeThreadIndex) else (d.entries i).role := fun i =>
    (Entries.update_role ..).trans (by rw [hrole]; rfl)
  suffices hq : Queued d1 (moved ls my (.barrier b)) ∧ Shift my d ls d1 (moved ls my (.barrier b)) from
    ⟨hq.1.frame hs, hq.1.shift_trans hq.2 hs⟩
  refine h.leave hmy (hlink.update rfl rfl) (fun q => ?_) (fun ha => ?_)
    (.inr (h.linking.next_mem hmy)) (fun i hi => ?_) (fun i => ?_) (fun q i hi => mem_moved hi (by simp))
    ?_ (fun q hq => ?_) (fun c hc _ => ?_) (fun c => ?_) (fun b' => ?_) fun c i hi => moved_front hi
  · cases q with
    | active => rw [moved_active (by simp)]; rfl
    | barrier b' =>
        by_cases hb : b' = b
        · subst hb
          rw [moved_self]
          simp [d1, Determ.head]
        · rw [moved_of_ne (by simpa using hb) (by simp), ← h.head]
          simp [d1, Determ.head, hb]
    | cond c =>
        rw [moved_of_ne (by simp) (by simp), ← h.head]
        rfl
  · rw [moved_active (by simp)] at ha ⊢
    exact h.linking.next_mem_erase hmy ha
  · rw [hr, if_neg hi]
  · exact (Entries.setStatus_ident ..).trans (hident i)
  · rw [moved_active (by simp)]
    exact h.not_mem_erase _ _
  · obtain rfl := h.eq_of_mem_moved hmy (by simp) hq
    rw [hr, if_pos rfl]
    rfl
  · have hk := congrArg Prod.fst (hr my)
    rw [if_pos rfl] at hk
    exact absurd (hk.symm.trans hc) (by rintro ⟨⟩)
  · rw [moved_of_ne (by simp) (by simp)]
    exact h.waiters c
  · by_cases hbb : b' = b
    · subst hbb
      simp [d1, Determ.generation, hb]
    · simp [d1, Determ.generation, hbb]

/-- The last thread of a barrier brings the others back. -/
theorem barrierOpen (h : Queued d ls) {b : Obj} {be : BarrierEntry} (hmy : my ∈ ls .active)
    (hb : d.barriers b = some be) (heq : be.threads + 1 = be.maxthreads) :
    ∃ ls', Queued (d.barrierEnter my b).1 ls' ∧ Shift my d ls (d.barrierEnter my b).1 ls' ∧
      my ∈ ls' .active := by
  have hbh : be.head = (ls (.barrier b)).head? := by
    rw [← h.head]
    change _ = (d.barriers b).bind (·.head)
    rw [hb]
    rfl
  have htok := h.token (List.ne_nil_of_mem hmy)
  obtain ⟨X, hlink, hXh, hX⟩ := h.linking.moveWholeList be.head
    (show Queue.barrier b ≠ .active by simp) htok hbh
  obtain ⟨es, hes⟩ : ∃ es, d.entries.moveWholeList d.tokenpos be.head = es := ⟨_, rfl⟩
  rw [hes] at hlink
  have hrole : ∀ i, (es i).role = (d.entries i).role := fun i =>
    hes ▸ Entries.moveWholeList_role ..
  have hident : ∀ i, (es i).ident = (d.entries i).ident := fun i =>
    hes ▸ Entries.moveWholeList_ident ..
  obtain ⟨ls', hls⟩ : ∃ ls', Function.update (Function.update ls (.barrier b) []) .active X = ls' :=
    ⟨_, rfl⟩
  rw [hls] at hlink
  have hact : ls' .active = X := by rw [← hls, Function.update_self]
  have hbar : ls' (.barrier b) = [] := by
    rw [← hls, Function.update_of_ne (by simp), Function.update_self]
  have hoth : ∀ q, q ≠ .active → q ≠ .barrier b → ls' q = ls q := fun q ha hq => by
    rw [← hls, Function.update_of_ne ha, Function.update_of_ne hq]
  have hmem : ∀ q i, i ∈ ls' q → i ∈ ls q ∨ q = .active ∧ i ∈ ls (.barrier b) := by
    intro q i hi
    by_cases ha : q = .active
    · subst ha
      rw [hact, hX] at hi
      exact hi.symm.imp_right fun hi => ⟨rfl, hi⟩
    · by_cases hq : q = .barrier b
      · subst hq
        rw [hbar] at hi
        exact absurd hi List.not_mem_nil
      · rw [hoth q ha hq] at hi
        exact .inl hi
  let d1 : Determ := { d with
    entries := es
    barriers := Function.update d.barriers b
      (some { be with threads := 0, head := none })
    tokenpos := (es my).next }
  have hs : SameQueues d1 (d.barrierEnter my b).1 := by
    unfold Determ.barrierEnter
    rw [hb]
    dsimp only
    rw [if_pos heq, hes]
    exact .congr rfl rfl rfl rfl rfl
  have hmy' : my ∈ ls' .active := by rw [hact, hX]; exact .inr hmy
  have hnext : (es my).next ∈ ls' .active := hlink.next_mem hmy'
  have hst : ∀ i, (es i).status = (d.entries i).status := fun i => role_status (hrole i)
  suffices hq : Queued d1 ls' ∧ Shift my d ls d1 ls' from
    ⟨ls', hq.1.frame hs, hq.1.shift_trans hq.2 hs, hmy'⟩
  constructor
  · have hseat : (es (es my).next).threadindex = (es my).next := by
      rw [show (es (es my).next).threadindex = (d.entries (es my).next).threadindex
        from ident_threadindex (hident _)]
      exact (hmem _ _ hnext).elim (h.index _ _) fun hb => h.index _ _ hb.2
    refine h.alter (k := my) hlink (fun q => ?_) (fun _ => hnext) hseat (fun i _ => hrole i)
      (fun i _ => ident_threadindex (hident i)) (fun q i _ hi => ?_) (fun q hq => ?_)
      ((ident_threadindex (hident my)).trans (h.index _ my hmy)) (fun c i hi _ => by rwa [hoth _ (by simp) (by simp)]) (fun c hs hc => ?_) (fun c => ?_)
      fun i hs hj hi => ?_
    · cases q with
      | active => rw [hact, hXh, ← h.head]; rfl
      | barrier b' =>
          by_cases hb : b' = b
          · subst hb
            rw [hbar]
            simp [d1, Determ.head]
          · rw [hoth _ (by simp) (by simpa using hb), ← h.head]
            simp [d1, Determ.head, hb]
      | cond c =>
          rw [hoth _ (by simp) (by simp), ← h.head]
          rfl
    · refine (hmem q i hi).imp_right ?_
      rintro ⟨rfl, hib⟩
      have hf : (d.entries i).status = .barrWaiting := h.fits _ i hib
      refine ⟨⟨fun he => ?_, fun he => ?_⟩, h.index _ i hib⟩
      · exact absurd (hf.symm.trans he) (by rintro ⟨⟩)
      · exact absurd (hf.symm.trans he) (by rintro ⟨⟩)
    · rw [show (d1.entries my).role = (d.entries my).role from hrole my]
      rcases hmem q my hq with hq | ⟨-, hq⟩
      · exact h.fits q my hq
      · exact absurd (h.linking.disjoint hmy hq) (by simp)
    · rw [show (d1.entries my).status = (d.entries my).status from hst my] at hs
      exact absurd hs (h.fits _ my hmy).2
    · rw [hoth _ (by simp) (by simp)]
      exact h.waiters c
    · have hs' : (d.entries i).status = .joining := (hst i).symm.trans hs
      rcases hmem _ i hi with hi | ⟨-, hi⟩
      · refine h.joining i hs' (fun he => hj ?_) hi
        rw [show (d1.entries i).joineeThreadIndex = (d.entries i).joineeThreadIndex
          from role_joinee (hrole i)]
        exact (hst _).trans he
      · exact absurd (hs'.symm.trans (h.fits _ i hi)) (by rintro ⟨⟩)
  · refine ⟨fun i hi _ => ?_, fun b' i hi _ => ?_, .inr (.inr hnext), fun i _ => .inl (hrole i),
      fun i _ => ident_tid (hident i), fun b' hb' => ?_,
      fun i he hne => absurd ((hst i).symm.trans he) hne, fun c i hi => .inl ?_,
      fun q i hi _ => .inl ((hmem q i hi).elim (fun hi => ⟨q, hi⟩) fun hi => ⟨_, hi.2⟩)⟩
    · rw [hact, hX]
      exact .inr hi
    · by_cases hb : b' = b
      · subst hb
        exact .inl (by rw [hact, hX]; exact .inl hi)
      · exact .inr (by rwa [hoth _ (by simp) (by simpa using hb)])
    · have hbb : b' ≠ b := fun he => hb' (he ▸ hbar)
      simp [d1, Determ.generation, hbb]
    · rwa [hoth _ (by simp) (by simp)]

/-- Without waiters a signal has no effect. -/
theorem condSignal_none {c : Obj} (hc : d.head (.cond c) = none) : d.condSignal c = d := by
  unfold Determ.condSignal
  split
  · rfl
  · rename_i ce hce
    have hh : ce.head = none := by
      rw [← hc]
      change _ = (d.conds c).bind (·.head)
      rw [hce]
      rfl
    rw [hh]
    cases ce.waiters <;> rfl

/-- A signal puts the thread that has waited longest into the token queue. -/
theorem condSignal (h : Queued d ls) {c : Obj} {x : ℕ} (ha : ls .active ≠ [])
    (hx : (ls (.cond c)).head? = some x) :
    ∃ ls', Queued (d.condSignal c) ls' ∧ (∀ my, Shift my d ls (d.condSignal c) ls') ∧
      ((d.condSignal c).entries x).status = .ready ∧ x ∈ ls' .active := by
  have hxm : x ∈ ls (.cond c) := List.mem_of_head? hx
  have htok := h.token ha
  have hhead : d.head (.cond c) = some x := (h.head _).trans hx
  obtain ⟨ce, hce, hch⟩ : ∃ ce, d.conds c = some ce ∧ ce.head = some x := by
    change (d.conds c).bind (·.head) = some x at hhead
    exact Option.bind_eq_some_iff.mp hhead
  obtain ⟨k, hk⟩ : ∃ k, ce.waiters = k + 1 := by
    have hw := h.waiters c
    have hpos := List.length_pos_of_mem hxm
    simp only [Determ.waiters, hce, Option.elim] at hw
    exact ⟨ce.waiters - 1, by omega⟩
  obtain ⟨es, hE, hlink, hrole, hident, -⟩ := h.removed hxm
  have hupd : ∀ q, q ≠ .cond c → Function.update ls (.cond c) ((ls (.cond c)).erase x) q = ls q :=
    fun q hq => Function.update_of_ne hq ..
  have hgone : ∀ q, x ∉ Function.update ls (.cond c) ((ls (.cond c)).erase x) q := by
    intro q hq
    by_cases hqc : q = .cond c
    · subst hqc
      rw [Function.update_self] at hq
      exact h.not_mem_erase _ _ hq
    · rw [hupd q hqc] at hq
      exact hqc (h.linking.disjoint hq hxm)
  obtain ⟨X, hlink, hXh, hX⟩ := hlink.insertHead (q := .active) hgone (by rwa [hupd _ (by simp)])
  rw [hupd _ (by simp)] at hXh hX
  obtain ⟨ls', hls⟩ : ∃ ls', Function.update (Function.update ls (.cond c) ((ls (.cond c)).erase x))
      .active X = ls' := ⟨_, rfl⟩
  rw [hls] at hlink
  have hact : ls' .active = X := by rw [← hls, Function.update_self]
  have hcond : ls' (.cond c) = (ls (.cond c)).erase x := by
    rw [← hls, Function.update_of_ne (by simp), Function.update_self]
  have hoth : ∀ q, q ≠ .active → q ≠ .cond c → ls' q = ls q := fun q hqa hqc => by
    rw [← hls, Function.update_of_ne hqa, hupd q hqc]
  obtain ⟨es', hes'⟩ : ∃ es', es.insertHead x d.tokenpos = es' := ⟨_, rfl⟩
  rw [hes'] at hlink
  have hrole' : ∀ i, (es' i).role = (d.entries i).role := fun i =>
    hes' ▸ (Entries.insertHead_role ..).trans (hrole i)
  have hident' : ∀ i, (es' i).ident = (d.entries i).ident := fun i =>
    hes' ▸ (Entries.insertHead_ident ..).trans (hident i)
  let d1 : Determ := { d with
    entries := Function.update es' x { es' x with cond := none, status := .ready }
    conds := Function.update d.conds c (some ⟨k, ((ls (.cond c)).erase x).head?⟩) }
  have hs : SameQueues d1 (d.condSignal c) := by
    unfold Determ.condSignal
    rw [hce]
    dsimp only
    rw [hk, hch]
    dsimp only
    rw [← hhead, hE]
    dsimp only
    rw [hes']
    exact .congr rfl rfl rfl rfl rfl
  have hr : ∀ i, (d1.entries i).role = if i = x then (.ready, none, (es' x).joineeThreadIndex)
      else (d.entries i).role := fun i => (Entries.update_role ..).trans (by rw [hrole']; rfl)
  have hid : ∀ i, (d1.entries i).ident = (d.entries i).ident := fun i => by
    refine (Entries.update_ident es' x i ?_).trans (hident' i)
    rfl
  have hready : (d1.entries x).status = .ready := by
    have hx := congrArg Prod.fst (hr x)
    rwa [if_pos rfl] at hx
  have hxa : x ∈ ls' .active := by
    rw [hact, hX]
    exact .inl rfl
  have hmem : ∀ q i, i ≠ x → (i ∈ ls' q ↔ i ∈ ls q) := by
    intro q i hi
    by_cases hqa : q = .active
    · subst hqa
      rw [hact, hX]
      simp [hi]
    · by_cases hqc : q = .cond c
      · subst hqc
        rw [hcond, List.mem_erase_of_ne hi]
      · rw [hoth q hqa hqc]
  suffices hq : Queued d1 ls' ∧ ∀ my, Shift my d ls d1 ls' from
    ⟨ls', hq.1.frame hs, fun my => hq.1.shift_trans (hq.2 my) hs, by rw [role_status (hs.role x), hready], hxa⟩
  have hne : ∀ {i}, (d1.entries i).status = .joining → i ≠ x := by
    rintro i hi rfl
    exact absurd (hready.symm.trans hi) (by rintro ⟨⟩)
  have hwait : (d.entries x).status = .condWaiting := (h.fits _ x hxm).1
  constructor
  · refine h.alter (k := x) (hlink.update rfl rfl) (fun q => ?_) (fun _ => ?_)
      ((ident_threadindex (hid _)).trans h.seat) (fun i hi => by rw [hr, if_neg hi]) (fun i _ => ident_threadindex (hid i))
      (fun q i hi hq => .inl ((hmem q i hi).mp hq)) (fun q hq => ?_)
      ((ident_threadindex (hid x)).trans (h.index _ x hxm)) (fun c i hi hix => (hmem _ i hix).mpr hi) (fun c hs => absurd (hready.symm.trans hs) (by rintro ⟨⟩))
      (fun c' => ?_) fun i hs hj hi => ?_
    · cases q with
      | active => rw [hact, hXh, ← h.head]; rfl
      | cond c' =>
          by_cases hc : c' = c
          · subst hc
            rw [hcond]
            simp [d1, Determ.head]
          · rw [hoth _ (by simp) (by simpa using hc), ← h.head]
            simp [d1, Determ.head, hc]
      | barrier b =>
          rw [hoth _ (by simp) (by simp), ← h.head]
          rfl
    · rw [hact, hX]
      exact .inr htok
    · have hqa : q = .active := hlink.disjoint hq hxa
      subst hqa
      rw [hr, if_pos rfl]
      exact ⟨by rintro ⟨⟩, by rintro ⟨⟩⟩
    · by_cases hc : c' = c
      · subst hc
        have hw := h.waiters c'
        simp only [Determ.waiters, hce, Option.elim] at hw
        rw [hcond, List.length_erase_of_mem hxm]
        simp only [d1, Determ.waiters, Function.update_self, Option.elim]
        omega
      · rw [hoth _ (by simp) (by simpa using hc)]
        simpa [d1, Determ.waiters, hc] using h.waiters c'
    · have hri := hr i
      rw [if_neg (hne hs)] at hri
      refine h.joining i (role_status hri ▸ hs) (fun he => hj ?_) ((hmem _ i (hne hs)).mp hi)
      rw [role_joinee hri]
      have hjx : (d.entries i).joineeThreadIndex ≠ x := by
        intro hjx
        rw [hjx] at he
        exact absurd (hwait.symm.trans he) (by rintro ⟨⟩)
      have hrj := hr (d.entries i).joineeThreadIndex
      rw [if_neg hjx] at hrj
      exact (role_status hrj).trans he
  · refine fun my => ⟨fun i hi _ => ?_, fun b i hi _ => .inr ?_, .inl rfl, fun i _ => ?_,
      fun i _ => ident_tid (hid i), fun b _ => rfl, fun i _ _ => ha, fun c' i hi => ?_,
      fun q i hi _ => .inl ?_⟩
    · rw [hact, hX]
      exact .inr hi
    · rwa [hoth _ (by simp) (by simp)]
    · by_cases hix : i = x
      · subst hix
        exact .inr ⟨⟨c, hxm⟩, .inl ⟨hready, hxa⟩⟩
      · exact .inl (by rw [hr, if_neg hix])
    · by_cases hc : c' = c
      · subst hc
        obtain rfl : x = i := Option.some.inj (hx.symm.trans hi)
        exact .inr (.inl ⟨hready, hxa⟩)
      · exact .inl (by rwa [hoth _ (by simp) (by simpa using hc)])
    · by_cases hix : i = x
      · exact ⟨_, hix ▸ hxm⟩
      · exact ⟨q, (hmem q i hix).mp hi⟩

/-- What a walk along `next` marks as ready. -/
theorem readyFrom_role (es : Entries) (n x j : ℕ) : (readyFrom es n x j).role =
    if ∃ k < n, es.nexts^[k] x = j then (.ready, none, (es j).joineeThreadIndex)
    else (es j).role := by
  induction n generalizing es x with
  | zero => rw [if_neg (by simp)]; rfl
  | succ n ih =>
      obtain ⟨es', hes⟩ : ∃ es' : Entries, Function.update es x
          { es x with cond := none, status := .ready } = es' := ⟨_, rfl⟩
      have hn : es'.nexts = es.nexts := hes ▸ es.update_nexts x rfl
      have hj : (es' j).joineeThreadIndex = (es j).joineeThreadIndex := by
        rw [← hes]
        by_cases hjx : j = x
        · subst hjx
          simp
        · simp [hjx]
      have hrole : (es' j).role =
          if j = x then (.ready, none, (es x).joineeThreadIndex) else (es j).role :=
        hes ▸ es.update_role x j
      rw [readyFrom, hes, ih, hn, hj, hrole, show (es x).next = es.nexts x from rfl]
      by_cases hjx : j = x
      · subst hjx
        have h0 : ∃ k < n + 1, es.nexts^[k] j = j := ⟨0, Nat.zero_lt_succ n, rfl⟩
        rw [if_pos rfl, if_pos h0]
        split <;> rfl
      · rw [if_neg hjx]
        refine if_congr ⟨?_, ?_⟩ rfl rfl
        · rintro ⟨k, hk, rfl⟩
          exact ⟨k + 1, Nat.succ_lt_succ hk, rfl⟩
        · rintro ⟨k, hk, hkj⟩
          cases k with
          | zero => exact absurd hkj.symm hjx
          | succ k => exact ⟨k, Nat.lt_of_succ_lt_succ hk, hkj⟩

theorem readyFrom_links (es : Entries) (n x : ℕ) :
    (readyFrom es n x).nexts = es.nexts ∧ (readyFrom es n x).prevs = es.prevs := by
  induction n generalizing es x with
  | zero => exact ⟨rfl, rfl⟩
  | succ n ih =>
      obtain ⟨hn, hp⟩ := ih (Function.update es x { es x with cond := none, status := .ready })
        (es x).next
      exact ⟨hn.trans (es.update_nexts x rfl), hp.trans (es.update_prevs x rfl)⟩

theorem condBroadcast_none {c : Obj} (hc : d.head (.cond c) = none) : d.condBroadcast c = d := by
  unfold Determ.condBroadcast
  split
  · rfl
  · rename_i ce hce
    have hh : ce.head = none := by
      rw [← hc]
      change _ = (d.conds c).bind (·.head)
      rw [hce]
      rfl
    rw [hh]

/-- A broadcast puts all waiting threads into the token queue. -/
theorem condBroadcast (h : Queued d ls) {c : Obj} (ha : ls .active ≠ []) (hc : ls (.cond c) ≠ []) :
    ∃ ls', Queued (d.condBroadcast c) ls' ∧ (∀ my, Shift my d ls (d.condBroadcast c) ls') ∧
      ∀ x ∈ ls (.cond c), ((d.condBroadcast c).entries x).status = .ready ∧ x ∈ ls' .active := by
  obtain ⟨x, hx⟩ := Option.isSome_iff_exists.mp (List.isSome_head?.mpr hc)
  have hxm : x ∈ ls (.cond c) := List.mem_of_head? hx
  have htok := h.token ha
  have hhead : d.head (.cond c) = some x := (h.head _).trans hx
  obtain ⟨ce, hce, hch⟩ : ∃ ce, d.conds c = some ce ∧ ce.head = some x := by
    change (d.conds c).bind (·.head) = some x at hhead
    exact Option.bind_eq_some_iff.mp hhead
  have hw : (ls (.cond c)).length ≤ ce.waiters := by
    simpa only [Determ.waiters, hce, Option.elim] using h.waiters c
  have hw0 : ce.waiters ≠ 0 := (Nat.lt_of_lt_of_le (List.length_pos_of_mem hxm) hw).ne'
  obtain ⟨hn, hp⟩ := readyFrom_links d.entries ce.waiters x
  obtain ⟨es, hes⟩ : ∃ es, readyFrom d.entries ce.waiters x = es := ⟨_, rfl⟩
  rw [hes] at hn hp
  have hlink0 : es.Linking ls := by
    rw [Entries.Linking, hn, hp]
    exact h.linking
  have hrole : ∀ i, (es i).role = if i ∈ ls (.cond c) then
      (.ready, none, (d.entries i).joineeThreadIndex) else (d.entries i).role := fun i => by
    rw [← hes, readyFrom_role]
    exact if_congr (h.linking.mem_iff_iterate hx hw).symm rfl rfl
  obtain ⟨X, hlink, hXh, hX⟩ := hlink0.moveWholeList ce.head
    (show Queue.cond c ≠ .active by simp) htok (hch.trans hx.symm)
  obtain ⟨es', hes'⟩ : ∃ es', es.moveWholeList d.tokenpos ce.head = es' := ⟨_, rfl⟩
  rw [hes'] at hlink
  obtain ⟨ls', hls⟩ : ∃ ls', Function.update (Function.update ls (.cond c) []) .active X = ls' :=
    ⟨_, rfl⟩
  rw [hls] at hlink
  have hact : ls' .active = X := by rw [← hls, Function.update_self]
  have hcond : ls' (.cond c) = [] := by
    rw [← hls, Function.update_of_ne (by simp), Function.update_self]
  have hoth : ∀ q, q ≠ .active → q ≠ .cond c → ls' q = ls q := fun q ha hq => by
    rw [← hls, Function.update_of_ne ha, Function.update_of_ne hq]
  let d1 : Determ := { d with
    entries := es'
    conds := Function.update d.conds c (some ⟨0, none⟩) }
  have hs : SameQueues d1 (d.condBroadcast c) := by
    unfold Determ.condBroadcast
    rw [hce]
    dsimp only
    rw [hch] at hes' ⊢
    dsimp only
    rw [if_neg hw0, hes, hes']
    exact .congr rfl rfl rfl rfl rfl
  have hr : ∀ i, (d1.entries i).role = if i ∈ ls (.cond c) then
      (.ready, none, (d.entries i).joineeThreadIndex) else (d.entries i).role := fun i => by
    rw [← hrole, ← Entries.moveWholeList_role es d.tokenpos i ce.head, hes']
  have hid : ∀ i, (d1.entries i).ident = (d.entries i).ident := fun i => by
    rw [← readyFrom_ident d.entries ce.waiters x, hes,
      ← Entries.moveWholeList_ident es d.tokenpos i ce.head, hes']
  have hready : ∀ i ∈ ls (.cond c), (d1.entries i).status = .ready ∧ i ∈ ls' .active := by
    intro i hi
    have hri := congrArg Prod.fst (hr i)
    rw [if_pos hi] at hri
    exact ⟨hri, by rw [hact, hX]; exact .inl hi⟩
  have hstay : ∀ i, i ∉ ls (.cond c) → (d1.entries i).role = (d.entries i).role := fun i hi => by
    rw [hr, if_neg hi]
  have hmem : ∀ q i, i ∉ ls (.cond c) → (i ∈ ls' q ↔ i ∈ ls q) := by
    intro q i hi
    by_cases hqa : q = .active
    · subst hqa
      rw [hact, hX]
      simp [hi]
    · by_cases hqc : q = .cond c
      · subst hqc
        rw [hcond]
        simp [hi]
      · rw [hoth q hqa hqc]
  suffices hq : Queued d1 ls' ∧ ∀ my, Shift my d ls d1 ls' from
    ⟨ls', hq.1.frame hs, fun my => hq.1.shift_trans (hq.2 my) hs, fun i hi => by
      rw [role_status (hs.role i)]
      exact hready i hi⟩
  constructor
  · refine
      { linking := hlink
        head := fun q => ?_
        token := fun _ => by rw [hact, hX]; exact .inr htok
        seat := (ident_threadindex (hid _)).trans h.seat
        fits := fun q i hi => ?_
        index := fun q i hi => (ident_threadindex (hid i)).trans ?_
        self := fun i hs => (ident_threadindex (hid i)).trans ?_
        waiting := fun i c' hs hi => ?_
        waiters := fun c' => ?_
        joining := fun i hs hj hi => ?_ }
    · cases q with
      | active => rw [hact, hXh, ← h.head]; rfl
      | cond c' =>
          by_cases hc : c' = c
          · subst hc
            rw [hcond]
            simp [d1, Determ.head]
          · rw [hoth _ (by simp) (by simpa using hc), ← h.head]
            simp [d1, Determ.head, hc]
      | barrier b =>
          rw [hoth _ (by simp) (by simp), ← h.head]
          rfl
    · by_cases hic : i ∈ ls (.cond c)
      · obtain rfl : q = .active := hlink.disjoint hi (hready i hic).2
        rw [hr, if_pos hic]
        exact ⟨by rintro ⟨⟩, by rintro ⟨⟩⟩
      · rw [hstay i hic]
        exact h.fits q i ((hmem q i hic).mp hi)
    · by_cases hic : i ∈ ls (.cond c)
      · exact h.index _ i hic
      · exact h.index q i ((hmem q i hic).mp hi)
    · have hic : i ∉ ls (.cond c) := fun hic => absurd ((hready i hic).1.symm.trans hs) (by rintro ⟨⟩)
      exact h.self i (role_status (hstay i hic) ▸ hs)
    · have hic : i ∉ ls (.cond c) := fun hic => absurd ((hready i hic).1.symm.trans hs) (by rintro ⟨⟩)
      exact (hmem _ i hic).mpr (h.waiting i c' (role_status (hstay i hic) ▸ hs)
        (role_cond (hstay i hic) ▸ hi))
    · by_cases hc : c' = c
      · subst hc
        rw [hcond]
        exact Nat.zero_le _
      · rw [hoth _ (by simp) (by simpa using hc)]
        simpa [d1, Determ.waiters, hc] using h.waiters c'
    · have hic : i ∉ ls (.cond c) := fun hic => absurd ((hready i hic).1.symm.trans hs) (by rintro ⟨⟩)
      refine h.joining i (role_status (hstay i hic) ▸ hs) (fun he => hj ?_) ((hmem _ i hic).mp hi)
      rw [role_joinee (hstay i hic)]
      have hjc : (d.entries i).joineeThreadIndex ∉ ls (.cond c) := fun hjc =>
        absurd ((h.fits _ _ hjc).1.symm.trans he) (by rintro ⟨⟩)
      exact (role_status (hstay _ hjc)).trans he
  · refine fun my => ⟨fun i hi _ => ?_, fun b i hi _ => .inr ?_, .inl rfl, fun i _ => ?_,
      fun i _ => ident_tid (hid i), fun b _ => rfl, fun i _ _ => ha, fun c' i hi => ?_,
      fun q i hi _ => .inl ?_⟩
    · rw [hact, hX]
      exact .inr hi
    · rwa [hoth _ (by simp) (by simp)]
    · by_cases hic : i ∈ ls (.cond c)
      · exact .inr ⟨⟨c, hic⟩, .inl (hready i hic)⟩
      · exact .inl (hstay i hic)
    · by_cases hc : c' = c
      · subst hc
        exact .inr (.inl (hready i (List.mem_of_head? hi)))
      · exact .inl (by rwa [hoth _ (by simp) (by simpa using hc)])
    · by_cases hic : i ∈ ls (.cond c)
      · exact ⟨_, hic⟩
      · exact ⟨q, (hmem q i hic).mp hi⟩

/-! ### The end of a thread -/

theorem cancel_other {x : ℕ} (h : (d.entries x).status ≠ .condWaiting ∨ (d.entries x).cond = none) :
    d.cancel x = d := by
  unfold Determ.cancel
  dsimp only
  split
  · rename_i hs hc
    rw [hs, hc] at h
    simp at h
  · rfl

/-- The cancellation of a thread that waits on a condition variable. -/
theorem cancel (h : Queued d ls) {x : ℕ} {c : Obj} (ha : ls .active ≠ [])
    (hs : (d.entries x).status = .condWaiting) (hc : (d.entries x).cond = some c) :
    ∃ ls', Queued (d.cancel x) ls' ∧ (∀ my, Shift my d ls (d.cancel x) ls') ∧
      ls' .active = ls .active ∧ ∀ i, ((d.cancel x).entries i).role =
        if i = x then (.exit, (d.entries x).cond, (d.entries x).joineeThreadIndex)
        else (d.entries i).role := by
  have hxm : x ∈ ls (.cond c) := h.waiting x c hs hc
  have hce : ((d.conds c).getD ⟨0, none⟩).head = d.head (.cond c) := by
    change _ = (d.conds c).bind (·.head)
    cases d.conds c <;> rfl
  have hcw : ((d.conds c).getD ⟨0, none⟩).waiters = d.waiters c := by
    unfold Determ.waiters
    cases d.conds c <;> rfl
  obtain ⟨es, hE, hlink, hrole, hident, -⟩ := h.removed hxm
  let ls' := Function.update ls (.cond c) ((ls (.cond c)).erase x)
  have hcond : ls' (.cond c) = (ls (.cond c)).erase x := Function.update_self ..
  have hoth : ∀ q, q ≠ .cond c → ls' q = ls q := fun q hq => Function.update_of_ne hq ..
  let d1 : Determ := { d with
    entries := es.setStatus x .exit
    conds := Function.update d.conds c (some ⟨d.waiters c, ((ls (.cond c)).erase x).head?⟩) }
  have hsame : SameQueues d1 (d.cancel x) := by
    unfold Determ.cancel
    dsimp only
    rw [hs, hc]
    dsimp only
    rw [hce, hE]
    dsimp only
    rw [hcw]
    split <;> split <;> exact .congr rfl rfl rfl rfl rfl
  have hr : ∀ i, (d1.entries i).role = if i = x then
      (.exit, (d.entries x).cond, (d.entries x).joineeThreadIndex) else (d.entries i).role := by
    intro i
    refine (Entries.update_role ..).trans ?_
    rw [hrole, ← role_cond (hrole x),
      ← role_joinee (hrole x)]
    rfl
  have hid : ∀ i, (d1.entries i).ident = (d.entries i).ident := fun i =>
    (Entries.setStatus_ident ..).trans (hident i)
  have hexit : (d1.entries x).status = .exit := by
    have hx := congrArg Prod.fst (hr x)
    rwa [if_pos rfl] at hx
  have hgone : ∀ q, x ∉ ls' q := by
    intro q hq
    by_cases hqc : q = .cond c
    · subst hqc
      rw [hcond] at hq
      exact h.not_mem_erase _ _ hq
    · rw [hoth q hqc] at hq
      exact hqc (h.linking.disjoint hq hxm)
  have hmem : ∀ q i, i ≠ x → (i ∈ ls' q ↔ i ∈ ls q) := by
    intro q i hi
    by_cases hqc : q = .cond c
    · subst hqc
      rw [hcond, List.mem_erase_of_ne hi]
    · rw [hoth q hqc]
  suffices hq : Queued d1 ls' ∧ ∀ my, Shift my d ls d1 ls' from
    ⟨ls', hq.1.frame hsame, fun my => hq.1.shift_trans (hq.2 my) hsame, hoth _ (by simp), fun i => by
      rw [hsame.role, hr]⟩
  constructor
  · refine h.alter (k := x) (hlink.update rfl rfl) (fun q => ?_) (fun ha => ?_)
      ((ident_threadindex (hid _)).trans h.seat) (fun i hi => by rw [hr, if_neg hi]) (fun i _ => ident_threadindex (hid i))
      (fun q i hi hq => .inl ((hmem q i hi).mp hq)) (fun q hq => absurd hq (hgone q))
      ((ident_threadindex (hid x)).trans (h.index _ x hxm))
      (fun c i hi hix => (hmem _ i hix).mpr hi) (fun c hs => absurd (hexit.symm.trans hs) nofun)
      (fun c' => ?_) fun i hs hj hi => ?_
    · cases q with
      | cond c' =>
          by_cases hc : c' = c
          · subst hc
            rw [hcond]
            simp [d1, Determ.head]
          · rw [hoth _ (by simpa using hc), ← h.head]
            simp [d1, Determ.head, hc]
      | _ =>
          rw [hoth _ (by simp), ← h.head]
          rfl
    · rw [hoth _ (by simp)] at ha ⊢
      exact h.token ha
    · by_cases hc : c' = c
      · subst hc
        rw [hcond]
        refine List.length_erase_le.trans ?_
        simpa [d1, Determ.waiters] using h.waiters c'
      · rw [hoth _ (by simpa using hc)]
        simpa [d1, Determ.waiters, hc] using h.waiters c'
    · have hix : i ≠ x := by
        rintro rfl
        exact hgone _ hi
      have hri := hr i
      rw [if_neg hix] at hri
      refine h.joining i (role_status hri ▸ hs) (fun he => hj ?_) ((hmem _ i hix).mp hi)
      rw [role_joinee hri]
      have hrj := congrArg Prod.fst (hr (d.entries i).joineeThreadIndex)
      split at hrj
      · exact hrj
      · exact hrj.trans he
  · refine fun my => ⟨fun i hi _ => ?_, fun b i hi _ => .inr ?_, .inl rfl, fun i _ => ?_,
      fun i _ => ident_tid (hid i), fun b _ => rfl, fun i _ _ => ha, fun c' i hi => ?_,
      fun q i hi _ => .inl ?_⟩
    · rwa [hoth _ (by simp)]
    · rwa [hoth _ (by simp)]
    · by_cases hix : i = x
      · subst hix
        exact .inr ⟨⟨c, hxm⟩, .inr hexit⟩
      · exact .inl (by rw [hr, if_neg hix])
    · by_cases hc : c' = c
      · subst hc
        by_cases hix : i = x
        · subst hix
          exact .inr (.inr hexit)
        · left
          obtain ⟨X, hX⟩ := List.head?_eq_some_iff.mp hi
          rw [hcond, hX, List.erase_cons_tail (by simpa using hix)]
          rfl
      · exact .inl (by rwa [hoth _ (by simpa using hc)])
    · exact ⟨q, (hmem q i fun hix => hgone q (hix ▸ hi)).mp hi⟩

/-- The exit of a thread: a parent that joins it enters the token queue. -/
theorem deregisterThread (h : Queued d ls) (hmy : my ∈ ls .active) :
    ∃ ls', Queued (d.deregisterThread my) ls' ∧ Shift my d ls (d.deregisterThread my) ls' ∧
      (∀ i, ((d.deregisterThread my).entries i).role =
        if i = my then (.exit, (d.entries my).cond, (d.entries my).joineeThreadIndex)
        else (d.entries i).role) ∧
      ((d.entries (d.entries my).tidParent).status = .joining →
        (d.entries (d.entries my).tidParent).joineeThreadIndex = my →
        (d.entries my).tidParent ∈ ls' .active) := by
  obtain ⟨par, hpar⟩ : ∃ par, (d.entries my).tidParent = par := ⟨_, rfl⟩
  rw [hpar]
  have hlive : (d.entries my).status ≠ .exit := (h.fits _ my hmy).1
  have htok := h.token (List.ne_nil_of_mem hmy)
  -- the queues once the parent is back
  obtain ⟨es0, X, hes0, hlink0, hXh, hX, hrole0, hident0⟩ : ∃ es0 X,
      es0 = (if (d.entries par).status = .joining ∧ (d.entries par).joineeThreadIndex = my
        then d.entries.insertHead par d.tokenpos else d.entries) ∧
      es0.Linking (Function.update ls .active X) ∧ X.head? = (ls .active).head? ∧
      (∀ i, i ∈ X ↔ i ∈ ls .active ∨ i = par ∧ (d.entries par).status = .joining ∧
        (d.entries par).joineeThreadIndex = my) ∧
      (∀ i, (es0 i).role = (d.entries i).role) ∧ ∀ i, (es0 i).ident = (d.entries i).ident := by
    by_cases hj : (d.entries par).status = .joining ∧ (d.entries par).joineeThreadIndex = my
    · have hout := h.unlisted_of_joining hj.1 (h.joining par hj.1 (hj.2 ▸ hlive))
      obtain ⟨X, hlink, hXh, hX⟩ := h.linking.insertHead hout htok
      refine ⟨_, X, rfl, by rwa [if_pos hj], hXh, fun i => ?_, fun i => ?_, fun i => ?_⟩
      · rw [hX, or_comm]
        simp [hj]
      · rw [if_pos hj, Entries.insertHead_role]
      · rw [if_pos hj, Entries.insertHead_ident]
    · refine ⟨_, ls .active, rfl, ?_, rfl, fun i => ?_, fun i => ?_, fun i => ?_⟩
      · rw [if_neg hj, Function.update_eq_self]
        exact h.linking
      · simp [hj]
      · rw [if_neg hj]
      · rw [if_neg hj]
  have hmyX : my ∈ X := (hX my).mpr (.inl hmy)
  have hact0 : Function.update ls .active X .active = X := Function.update_self ..
  have hmyX' : my ∈ Function.update ls .active X .active := hact0.symm ▸ hmyX
  obtain ⟨hlink, hhead⟩ := hlink0.removeEntry d.activelist hmyX'
    (by rw [hact0, hXh, ← h.head]; rfl)
  rw [hact0, Function.update_idem] at hlink
  rw [hact0] at hhead
  obtain ⟨es1, hes1⟩ : ∃ es1, es0.removeEntry my d.activelist = (es1, (X.erase my).head?) :=
    ⟨_, Prod.ext rfl hhead⟩
  rw [hes1] at hlink
  let d1 : Determ := { d with
    entries := es1.setStatus my .exit
    activelist := (X.erase my).head?
    tokenpos := (es0 my).next }
  have hs : SameQueues d1 (d.deregisterThread my) := by
    unfold Determ.deregisterThread
    dsimp only
    rw [hpar]
    subst hes0
    by_cases hj : (d.entries par).status = .joining ∧ (d.entries par).joineeThreadIndex = my
    all_goals
      simp only [d1, hj, and_self, if_true, if_false] at hes1 ⊢
      split <;> simp only [decrFence_entries, (decrFence_lists _).1, hes1]
    · exact .congr rfl rfl (decrFence_lists _).2.1 (decrFence_lists _).2.2 rfl
    · exact .congr rfl rfl rfl rfl rfl
    · exact .congr rfl rfl (decrFence_lists _).2.1 (decrFence_lists _).2.2 rfl
    · exact .congr rfl rfl rfl rfl rfl
  have hrole1 : ∀ i, (es1 i).role = (d.entries i).role := fun i => by
    rw [← hrole0, ← Entries.removeEntry_role es0 my i d.activelist, hes1]
  have hr : ∀ i, (d1.entries i).role = if i = my then
      (.exit, (d.entries my).cond, (d.entries my).joineeThreadIndex) else (d.entries i).role := by
    intro i
    refine (Entries.update_role ..).trans ?_
    rw [hrole1, ← role_cond (hrole1 my),
      ← role_joinee (hrole1 my)]
    rfl
  have hid : ∀ i, (d1.entries i).ident = (d.entries i).ident := fun i => by
    refine (Entries.setStatus_ident ..).trans ?_
    rw [← hident0, ← Entries.removeEntry_ident es0 my i d.activelist, hes1]
  have hexit : (d1.entries my).status = .exit := by
    have hx := congrArg Prod.fst (hr my)
    rwa [if_pos rfl] at hx
  have hact : Function.update ls .active (X.erase my) .active = X.erase my := Function.update_self ..
  have hXn : X.Nodup := hact0 ▸ hlink0.nodup .active
  have hoth : ∀ q, q ≠ .active → Function.update ls .active (X.erase my) q = ls q := fun q hq =>
    Function.update_of_ne hq ..
  have hgone : ∀ q, my ∉ Function.update ls .active (X.erase my) q := by
    intro q hq
    by_cases hqa : q = .active
    · subst hqa
      rw [hact] at hq
      exact hXn.not_mem_erase hq
    · rw [hoth q hqa] at hq
      exact hqa (h.linking.disjoint hq hmy)
  have hnext : (es0 my).next ∈ X := hact0 ▸ hlink0.next_mem hmyX'
  suffices hq : Queued d1 (Function.update ls .active (X.erase my)) ∧
      Shift my d ls d1 (Function.update ls .active (X.erase my)) from
    ⟨_, hq.1.frame hs, hq.1.shift_trans hq.2 hs, fun i => by rw [hs.role, hr], fun hj hjm => by
      rw [hact]
      refine (List.mem_erase_of_ne ?_).mpr ((hX par).mpr (.inr ⟨rfl, hj, hjm⟩))
      rintro rfl
      exact h.joining par hj (hjm.symm ▸ hlive) hmy⟩
  constructor
  · have hseat : (d.entries (es0 my).next).threadindex = (es0 my).next :=
      ((hX _).mp hnext).elim (h.index _ _) fun hp => hp.1 ▸ h.self par hp.2.1
    refine h.alter (k := my) (hlink.update rfl rfl) (fun q => ?_) (fun ha => ?_)
      ((ident_threadindex (hid _)).trans hseat) (fun i hi => by rw [hr, if_neg hi]) (fun i _ => ident_threadindex (hid i))
      (fun q i him hi => ?_) (fun q hq => absurd hq (hgone q))
      ((ident_threadindex (hid my)).trans (h.index _ my hmy))
      (fun c i hi _ => by rwa [hoth _ (by simp)]) (fun c hs => absurd (hexit.symm.trans hs) nofun)
      (fun c => ?_) fun i hs hj hi => ?_
    · by_cases hqa : q = .active
      · subst hqa
        rw [hact]
        rfl
      · rw [hoth q hqa, ← h.head]
        cases q with
        | active => exact absurd rfl hqa
        | _ => rfl
    · rw [hact] at ha ⊢
      simpa only [hact0] using hlink0.next_mem_erase hmyX' (by rwa [hact0])
    · by_cases hqa : q = .active
      · subst hqa
        rw [hact] at hi
        refine ((hX i).mp (List.mem_of_mem_erase hi)).imp_right ?_
        rintro ⟨rfl, hj, -⟩
        exact ⟨⟨fun he => absurd (hj.symm.trans he) nofun, fun he => absurd (hj.symm.trans he) nofun⟩,
          h.self i hj⟩
      · rw [hoth q hqa] at hi
        exact .inl hi
    · rw [hoth _ (by simp)]
      exact h.waiters c
    · rw [hact] at hi
      have him : i ≠ my := fun he => hXn.not_mem_erase (he ▸ hi)
      have hri := hr i
      rw [if_neg him] at hri
      rw [role_joinee hri] at hj
      have hrj := congrArg Prod.fst (hr (d.entries i).joineeThreadIndex)
      split at hrj
      · exact hj hrj
      · rename_i hjm
        rcases (hX i).mp (List.mem_of_mem_erase hi) with hi | ⟨rfl, -, hjm'⟩
        · exact h.joining i (role_status hri ▸ hs) (fun he => hj (hrj.trans he)) hi
        · exact hjm hjm'
  · refine ⟨fun i hi him => ?_, fun b i hi _ => .inr ?_, .inr ?_,
      fun i him => .inl (by rw [hr, if_neg him]),
      fun i _ => ident_tid (hid i), fun b _ => rfl, fun i _ _ => List.ne_nil_of_mem hmy,
      fun c i hi => .inl ?_, fun q i hi _ => ?_⟩
    · rw [hact, List.mem_erase_of_ne him, hX]
      exact .inl hi
    · rwa [hoth _ (by simp)]
    · by_cases hn : (es0 my).next = my
      · exact .inl (by rw [show d1.tokenpos = my from hn]; exact hmy)
      · exact .inr (by rw [hact]; exact (List.mem_erase_of_ne hn).mpr hnext)
    · rwa [hoth _ (by simp)]
    · by_cases hqa : q = .active
      · subst hqa
        rw [hact] at hi
        refine ((hX i).mp (List.mem_of_mem_erase hi)).imp (fun hi => ⟨_, hi⟩) ?_
        rintro ⟨rfl, hj, -⟩
        exact hj
      · rw [hoth q hqa] at hi
        exact .inl ⟨q, hi⟩

/-! ### The start of a thread -/

theorem registerThread_role (d : Determ) (k : ℕ) (pid : Tid) (par i : ℕ) :
    ((d.registerThread k pid par).entries i).role =
      if i = k then (.ready, (d.entries k).cond, (d.entries k).joineeThreadIndex)
      else (d.entries i).role :=
  (Entries.insertTail_role ..).trans (Entries.update_role ..)

/-- A new thread goes to the tail of the token queue. -/
theorem registerThread (h : Queued d ls) (pid : Tid) (par : ℕ) (ha : ls .active ≠ [])
    (hk : d.Unused k) :
    Queued (d.registerThread k pid par) (Function.update ls .active (ls .active ++ [k])) ∧
      Shift k d ls (d.registerThread k pid par)
        (Function.update ls .active (ls .active ++ [k])) := by
  have hout := h.unlisted hk.1
  let e : ThreadEntry := { d.entries k with
    tid := pid, threadindex := k, wait := false, tidParent := par, status := .ready }
  obtain ⟨es, hes⟩ : ∃ es : Entries, Function.update d.entries k e = es := ⟨_, rfl⟩
  have hlink0 : es.Linking ls := by
    rw [← hes]
    exact h.linking.update rfl rfl
  obtain ⟨hlink, hhead⟩ := hlink0.insertTail (d.head .active) hout (h.head .active)
  have hr := registerThread_role d k pid par
  have hid : ∀ i, ((d.registerThread k pid par).entries i).ident =
      if i = k then (pid, k, par) else (d.entries i).ident := fun i => registerThread_ident
  have hent : (d.registerThread k pid par).entries = (es.insertTail k d.activelist).1 := by
    rw [← hes]
    rfl
  have hactl : (d.registerThread k pid par).activelist = (ls .active ++ [k]).head? := by
    rw [← hhead, ← hes]
    rfl
  have hready : ((d.registerThread k pid par).entries k).status = .ready := by
    have hx := congrArg Prod.fst (hr k)
    rwa [if_pos rfl] at hx
  have hact : Function.update ls .active (ls .active ++ [k]) .active = ls .active ++ [k] :=
    Function.update_self ..
  have hoth : ∀ q, q ≠ .active → Function.update ls .active (ls .active ++ [k]) q = ls q :=
    fun q hq => Function.update_of_ne hq ..
  have hmem : ∀ q i, i ≠ k → (i ∈ Function.update ls .active (ls .active ++ [k]) q ↔ i ∈ ls q) := by
    intro q i hi
    by_cases hqa : q = .active
    · subst hqa
      rw [hact]
      simp [hi]
    · rw [hoth q hqa]
  refine ⟨?_, ?_⟩
  · have htk : d.tokenpos ≠ k := fun he => hout .active (he ▸ h.token ha)
    have hx : ∀ i, i ≠ k → ((d.registerThread k pid par).entries i).threadindex =
        (d.entries i).threadindex := by
      intro i hi
      have hi' := hid i
      rw [if_neg hi] at hi'
      exact congrArg (fun x => x.2.1) hi'
    refine h.alter (k := k) (by rwa [hent]) (fun q => ?_) (fun _ => ?_)
      ((hx _ htk).trans h.seat) (fun i hi => by rw [hr, if_neg hi]) hx
      (fun q i hi hq => .inl ((hmem q i hi).mp hq)) (fun q hq => ?_) ?_
      (fun c i hi hik => (hmem _ i hik).mpr hi) (fun c hs => absurd (hready.symm.trans hs) nofun)
      (fun c => ?_) fun i hs hj hi => ?_
    · by_cases hqa : q = .active
      · subst hqa
        rw [hact]
        exact hactl
      · rw [hoth q hqa, ← h.head]
        cases q with
        | active => exact absurd rfl hqa
        | _ => rfl
    · rw [hact]
      exact List.mem_append_left _ (h.token ha)
    · rw [hr, if_pos rfl]
      by_cases hqa : q = .active
      · subst hqa
        exact ⟨nofun, nofun⟩
      · rw [hoth q hqa] at hq
        exact absurd hq (hout q)
    · have hk' := hid k
      rw [if_pos rfl] at hk'
      exact congrArg (fun x => x.2.1) hk'
    · rw [hoth _ (by simp)]
      exact h.waiters c
    · have hik : i ≠ k := by
        rintro rfl
        exact absurd (hready.symm.trans hs) nofun
      have hri := hr i
      rw [if_neg hik] at hri
      have hs' : (d.entries i).status = .joining := role_status hri ▸ hs
      refine h.joining i hs' (fun he => hj ?_) ((hmem _ i hik).mp hi)
      rw [role_joinee hri]
      have hrj := hr (d.entries i).joineeThreadIndex
      rw [if_neg (hk.2 i hs')] at hrj
      exact (role_status hrj).trans he
  · refine ⟨fun i hi hik => (hmem _ i hik).mpr hi, fun b i hi hik => .inr ((hmem _ i hik).mpr hi),
      .inl ?_, fun i hik => .inl (by rw [hr, if_neg hik]), fun i hik => ?_, fun b _ => rfl,
      fun i _ _ => ha, fun c i hi => .inl (by rwa [hoth _ (by simp)]),
      fun q i hi hik => .inl ⟨q, (hmem q i hik).mp hi⟩⟩
    · rfl
    · have hi' := hid i
      rw [if_neg hik] at hi'
      exact congrArg Prod.fst hi'

end Queued

end Dthreads.Scheduler.Determ
