import Dthreads.Scheduler.RoundRobin

/-! # Threads that are in step

Some threads are in the token queue, from the token on, and meet at the fence. What they do in
between does not matter here. -/

namespace Dthreads.Scheduler

open Fence

namespace State

/-- The threads `ring` are in the token queue, in this order from the token on, and have passed the
fence as often as `passed` says. Nobody waits for the exit of another thread. -/
structure InStep (s : State) (idx : Tid → ℕ) (ring : List Tid) (passed : Tid → ℕ) : Prop where
  table : s.determ.Table (ring.map idx)
  index : ∀ t, (s.locals t).threadIndex = idx t
  tid : ∀ t ∈ ring, (s.determ.entries (idx t)).tid = t
  fence : s.Fenced (· + 1) ring.toFinset passed
  alive : ring.length ≤ s.determ.alivethreads
  joining : ∀ i, (s.determ.entries i).status ≠ .joining

/-- All are at the fence, and some have passed it already. -/
def Gathered (s : State) (ring : List Tid) (passed : Tid → ℕ) (t : Tid) : Prop :=
  ∀ u ∈ ring, passed u = passed t + 1 ∨ (passed u = passed t ∧
    (s.locals u).pending.head?.any (fun i => i.arrives || i.leaves) = true)

namespace InStep

variable {s : State} {idx : Tid → ℕ} {ring : List Tid} {passed : Tid → ℕ} {t u : Tid} {i : Instr}
  {rest : List Instr} {d : Determ} {l : Local} {procs : List Tid}

theorem nodup (h : s.InStep idx ring passed) : ring.Nodup := List.Nodup.of_map idx h.table.nodup

/-- The token is at the first of the queue. -/
theorem holder (h : s.InStep idx ring passed) (ht : t ∈ ring) :
    s.determ.holder = t ↔ ring.head? = some t := by
  cases ring with
  | nil => cases ht
  | cons u X =>
      have htok := h.table.token (idx u) (X.map idx) rfl
      have htid := h.tid u List.mem_cons_self
      rw [Determ.holder, htok, htid, List.head?_cons, Option.some.injEq]

/-- The fence tells who is alone. -/
theorem single (h : s.InStep idx ring passed) (ht : t ∈ ring) :
    s.determ.isSingleWorkingThread = decide (ring = [t]) := by
  have hcard : s.determ.maxthreads = ring.toFinset.card := h.fence.meets.members
  rw [List.toFinset_card_of_nodup h.nodup] at hcard
  unfold Determ.isSingleWorkingThread
  rw [hcard]
  refine decide_eq_decide.mpr ⟨fun hl => ?_, fun hr => by rw [hr]; rfl⟩
  obtain ⟨u, rfl⟩ := List.length_eq_one_iff.mp hl
  rw [List.mem_singleton.mp ht]

theorem index_update (h : s.InStep idx ring passed) (hl : l.threadIndex = idx t) (v : Tid) :
    (Function.update s.locals t l v).threadIndex = idx v := by
  by_cases hv : v = t
  · rw [hv, Function.update_self, hl]
  · rw [Function.update_of_ne hv, h.index]

theorem pending_update (hu : u ≠ t) :
    (Function.update s.locals t l u).pending = (s.locals u).pending := by
  rw [Function.update_of_ne hu]

/-- A step outside the fence that leaves the queue alone. -/
theorem still (h : s.InStep idx ring passed) (hq : Determ.SameQueues s.determ d)
    (ha : d.alivethreads = s.determ.alivethreads) (hf : d.fence = s.determ.fence)
    (hl : l.threadIndex = idx t) (hout : outside (s.locals t).pending = true)
    (hout' : outside l.pending = true) :
    (⟨d, Function.update s.locals t l, procs⟩ : State).InStep idx ring passed where
  table := h.table.same hq
  index := h.index_update hl
  tid u hu := (ident_tid (hq.ident _)).trans (h.tid u hu)
  fence := by
    refine h.fence.frame hf (fun u _ => ?_) fun _ _ => rfl
    by_cases hut : u = t
    · subst hut
      refine .inr ⟨hout, ?_⟩
      dsimp only
      rwa [Function.update_self]
    · exact .inl (pending_update hut)
  alive := h.alive.trans_eq ha.symm
  joining k hk := h.joining k ((role_status (hq.role k)).symm.trans hk)

/-- The first of the queue passes the token on. -/
theorem puts {X : List Tid} (h : s.InStep idx (t :: X) passed) (hl : l.threadIndex = idx t)
    (hout : outside (s.locals t).pending = true) (hout' : outside l.pending = true) :
    (⟨s.determ.putToken, Function.update s.locals t l, procs⟩ : State).InStep idx (X ++ [t])
      passed where
  table := by
    rw [List.map_append]
    exact h.table.putToken
  index := h.index_update hl
  tid u hu := h.tid u (by simpa [or_comm] using hu)
  fence := by
    have hfin : (X ++ [t]).toFinset = (t :: X).toFinset := by
      ext u
      simp
    rw [hfin]
    refine h.fence.frame rfl (fun u _ => ?_) fun _ _ => rfl
    by_cases hut : u = t
    · subst hut
      refine .inr ⟨hout, ?_⟩
      dsimp only
      rwa [Function.update_self]
    · exact .inl (pending_update hut)
  alive := by
    rw [List.length_append]
    exact h.alive
  joining := h.joining

/-- The first of the queue leaves it. -/
theorem leaves {X : List Tid} (h : s.InStep idx (t :: X) passed) (hl : l.threadIndex = idx t)
    (hout : outside (s.locals t).pending = true) :
    (⟨s.determ.deregisterThread (idx t), Function.update s.locals t l, procs⟩ : State).InStep idx X
      passed := by
  have hmem : t ∈ (t :: X).toFinset := List.mem_toFinset.mpr List.mem_cons_self
  have htX : t ∉ X := (List.nodup_cons.mp h.nodup).1
  obtain ⟨hf, ha⟩ := Determ.deregisterThread_fence s.determ (idx t)
    (lt_of_lt_of_le (Nat.succ_pos _) h.alive) (h.fence.members_pos hmem)
  refine ⟨h.table.deregisterThread h.joining, h.index_update hl, fun u hu => ?_, ?_, ?_,
    fun k hk => ?_⟩
  · exact (ident_tid (Determ.deregisterThread_ident ..)).trans (h.tid u (List.mem_cons_of_mem t hu))
  · have hfin : X.toFinset = (t :: X).toFinset.erase t := by
      rw [List.toFinset_cons, Finset.erase_insert (by rwa [List.mem_toFinset])]
    rw [hfin]
    exact h.fence.drop hmem hout hf fun u _ hut => pending_update hut
  · refine le_trans ?_ ha.ge
    have hlen := h.alive
    rw [List.length_cons] at hlen
    omega
  · rcases Determ.deregisterThread_role s.determ (idx t) k with hr | ⟨-, he⟩
    · exact h.joining k ((role_status hr).symm.trans hk)
    · exact absurd (he.symm.trans hk) nofun

/-- A step of a thread that is not in the queue. -/
theorem ends (h : s.InStep idx ring passed) (ht : t ∉ ring) (hl : l.threadIndex = idx t) :
    (⟨s.determ, Function.update s.locals t l, procs⟩ : State).InStep idx ring passed where
  table := h.table
  index := h.index_update hl
  tid := h.tid
  fence := by
    refine h.fence.frame rfl (fun u hu => .inl (pending_update ?_)) fun _ _ => rfl
    rintro rfl
    exact ht (List.mem_toFinset.mp hu)
  alive := h.alive
  joining := h.joining

/-- Who passes the fence passes it with the others. -/
theorem gathered (h : s.InStep idx ring passed) (ht : t ∈ ring)
    (hp : (s.locals t).pending = i :: rest) (hx : Cross s.determ.fence i d.fence []) :
    Gathered s ring passed t := by
  have hmem : t ∈ ring.toFinset := List.mem_toFinset.mpr ht
  have hself : i.arrives = true ∨ i.leaves = true →
      (s.locals t).pending.head?.any (fun i => i.arrives || i.leaves) = true := by
    intro hi
    rw [hp]
    simpa using hi
  have hwaits : ∀ u, (s.locals u).waits = true →
      (s.locals u).pending.head?.any (fun i => i.arrives || i.leaves) = true := by
    intro u hu
    unfold Local.waits at hu
    cases hpu : (s.locals u).pending with
    | nil =>
        rw [hpu] at hu
        cases hu
    | cons j js =>
        rw [hpu] at hu
        have hj : j.leaves = true := hu
        simp [hj]
  intro u hu
  have hmemu : u ∈ ring.toFinset := List.mem_toFinset.mpr hu
  generalize hc : d.fence = c at hx
  cases hx with
  | pass hi ha hl =>
      have htA : t ∉ s.crew ring.toFinset := by
        intro hm
        have hm' := (mem_crew.mp hm).2
        rw [Local.waits_cons hp, Instr.not_leaves_of_arrives hi] at hm'
        cases hm'
      have hphase : s.determ.isArrivalPhase = true := by
        rcases ha with hc | ha
        · exact h.fence.committed t hmem ((Local.arriving_cons hp).trans hc)
        · exact ha
      refine .inr ⟨h.fence.meets.same hphase u hmemu t hmem, ?_⟩
      by_cases hut : u = t
      · subst hut
        exact hself (.inl hi)
      · have hmc : u ∈ s.crew ring.toFinset := by
          rw [h.fence.meets.last hmem htA hl]
          exact Finset.mem_erase.mpr ⟨hut, hmemu⟩
        exact hwaits u (mem_crew.mp hmc).2
  | leave hi ha =>
      have hphase : s.determ.isArrivalPhase = false := by
        rcases ha with hd | ha
        · exact h.fence.departing t hmem ((Local.departs_cons hp).trans hd)
        · exact ha
      have htA : t ∈ s.crew ring.toFinset :=
        mem_crew.mpr ⟨hmem, (Local.waits_cons hp).trans hi⟩
      have hside := h.fence.meets.sides hphase t htA u hmemu
      by_cases huA : u ∈ s.crew ring.toFinset
      · rw [if_pos huA] at hside
        exact .inr ⟨hside, hwaits u (mem_crew.mp huA).2⟩
      · rw [if_neg huA] at hside
        exact .inl hside

/-- A step in the fence: the thread stays there, or it passes with the others. -/
theorem crosses (h : s.InStep idx ring passed) (procs : List Tid) (ht : t ∈ ring)
    (hp : (s.locals t).pending = i :: rest) (hrest : outside rest = true)
    (hi : i.arrives = true ∨ i.leaves = true) (ho : s.own t rest i = some (d, l)) :
    (∃ j, (j.arrives = true ∨ j.leaves = true) ∧ j.keep = i.keep ∧
      l = (s.locals t).goto (j :: rest) ∧
      (⟨d, Function.update s.locals t l, procs⟩ : State).InStep idx ring passed) ∨
    (l = (s.locals t).goto rest ∧ Gathered s ring passed t ∧
      (⟨d, Function.update s.locals t l, procs⟩ : State).InStep idx ring
        (Function.update passed t (passed t + 1))) := by
  have hmem : t ∈ ring.toFinset := List.mem_toFinset.mpr ht
  have hpos : i.leaves = true → 0 < s.determ.currthreads := fun hl =>
    h.fence.curr_pos hmem ((Local.waits_cons hp).trans hl)
  obtain ⟨js, hcross, rfl⟩ := own_cross ho hi hpos
  have hs := own_still_fence ho hi
  have hpend :
      (Function.update s.locals t ((s.locals t).goto (js ++ rest)) t).pending = js ++ rest := by
    rw [Function.update_self, Local.goto_pending]
  have hfence := h.fence.cross (w := ⟨d, Function.update s.locals t _, procs⟩) hmem hp hrest hcross
    hpend fun u _ hut => pending_update hut
  have hin : ∀ passed', (⟨d, Function.update s.locals t ((s.locals t).goto (js ++ rest)), procs⟩ :
      State).Fenced (· + 1) ring.toFinset passed' →
        (⟨d, Function.update s.locals t ((s.locals t).goto (js ++ rest)), procs⟩ : State).InStep idx
          ring passed' := fun passed' hf =>
    { table := h.table.same hs.queues
      index := h.index_update (h.index t)
      tid := fun u hu => (ident_tid (hs.queues.ident _)).trans (h.tid u hu)
      fence := hf
      alive := h.alive.trans_eq hs.alive.symm
      joining := fun k hk => h.joining k ((role_status (hs.queues.role k)).symm.trans hk) }
  rcases hcross.next with rfl | ⟨j, rfl, hj, hk⟩
  · rw [if_pos rfl] at hfence
    exact .inr ⟨rfl, h.gathered ht hp hcross, hin _ hfence⟩
  · rw [if_neg (List.cons_ne_nil _ _)] at hfence
    exact .inl ⟨j, hj, hk, rfl, hin _ hfence⟩

/-- When all are at the fence, one of them has a step to take. -/
theorem opens (h : s.InStep idx ring passed) (ht : t ∈ ring) (hg : Gathered s ring passed t) :
    ∃ u ∈ ring, ∃ i rest, (s.locals u).pending = i :: rest ∧
      (i.arrives = true ∨ i.leaves = true) ∧ (s.own u rest i).isSome = true := by
  have hmem : t ∈ ring.toFinset := List.mem_toFinset.mpr ht
  have hwaits : ∀ {u}, (s.locals u).waits = true →
      ∃ i rest, (s.locals u).pending = i :: rest ∧ i.leaves = true := by
    intro u hu
    cases hp : (s.locals u).pending with
    | nil =>
        rw [Local.waits, hp] at hu
        cases hu
    | cons i rest => exact ⟨i, rest, rfl, (Local.waits_cons hp).symm.trans hu⟩
  cases ha : s.determ.isArrivalPhase with
  | false =>
      obtain ⟨u, hu⟩ := h.fence.meets.opened ha
      obtain ⟨hm, hw⟩ := mem_crew.mp hu
      obtain ⟨i, rest, hp, hi⟩ := hwaits hw
      exact ⟨u, List.mem_toFinset.mp hm, i, rest, hp, .inr hi, Turns.InLap.leaves_enabled hi ha⟩
  | true =>
      obtain ⟨u, hm, hc⟩ := h.fence.meets.missing ha ⟨t, hmem⟩
      have hsame : passed u = passed t := h.fence.meets.same ha u hm t hmem
      rcases hg u (List.mem_toFinset.mp hm) with hp | ⟨-, hh⟩
      · omega
      · cases hp : (s.locals u).pending with
        | nil =>
            rw [hp] at hh
            cases hh
        | cons i rest =>
            rw [hp] at hh
            have hi : i.arrives = true ∨ i.leaves = true := by simpa using hh
            have harrives : i.arrives = true := by
              refine hi.resolve_right fun hl => hc ?_
              exact mem_crew.mpr ⟨hm, (Local.waits_cons hp).trans hl⟩
            exact ⟨u, List.mem_toFinset.mp hm, i, rest, hp, hi,
              Turns.InLap.arrives_enabled harrives ha⟩

end InStep

end State

end Dthreads.Scheduler
