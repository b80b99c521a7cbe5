import Dthreads.Scheduler.Lines
import Dthreads.Scheduler.Strands

/-! # Barrier episodes

The threads of the token queue meet at one barrier again and again. -/

namespace Dthreads.Scheduler

open Ring Transition

/-! ## A wait at the barrier -/

/-- Where a thread is: before it has the token, with the token, on its way to the real barrier,
blocked at it in the generation `g`, or past it. -/
inductive Stage where
  | away
  | token
  | coming
  | blocked (g : ℕ)
  | past
  deriving DecidableEq

namespace Stage

/-- What is left of `barrier_wait`. -/
inductive Code (b : Obj) : Stage → List Instr → Prop where
  | idle : Code b away []
  | fence {i : Instr} (hi : i.arrives = true ∨ i.leaves = true) :
      Code b away [i, .getToken, .atomicEnd, .barrierEnter b]
  | wait : Code b away [.getToken, .atomicEnd, .barrierEnter b]
  | commit : Code b token [.atomicEnd, .barrierEnter b]
  | enter : Code b token [.barrierEnter b]
  | comeLast : Code b coming [.barrierArrive b, .atomicBegin]
  | start : Code b coming [.atomicBegin, .barrierArrive b]
  | come : Code b coming [.barrierArrive b]
  | blockLast (g : ℕ) : Code b (blocked g) [.barrierBlock b g, .atomicBegin]
  | block (g : ℕ) : Code b (blocked g) [.barrierBlock b g]
  | startLast : Code b past [.atomicBegin]

/-- How often a thread has returned and entered when the real barrier has opened `n` times and is in
its generation `gen`. -/
def Counts (gen n r e : ℕ) : Stage → Prop
  | away | token => r = n ∧ e = n
  | coming => r = n ∧ e = n + 1
  | blocked g => g = gen ∧ r = n ∧ e = n + 1 ∨ g < gen ∧ r + 1 = n ∧ e = n
  | past => r + 1 = n ∧ e = n

theorem Counts.le {gen n r e : ℕ} {x : Stage} (h : x.Counts gen n r e) : r ≤ n ∧ n ≤ e := by
  cases x <;> simp only [Counts] at h <;> omega

end Stage

/-! ## The fence -/

namespace Determ

/-- What the fence does not touch. -/
def roll (d : Determ) : (Obj → Option CondEntry) × (Obj → Option BarrierEntry) × ℕ × ℕ :=
  (d.conds, d.barriers, d.maxthreads, d.alivethreads)

theorem leaveFence_roll (d : Determ) : d.leaveFence.roll = d.roll := by
  unfold leaveFence
  dsimp only
  split <;> rfl

theorem arriveFence_roll (d : Determ) : d.arriveFence.roll = d.roll := by
  unfold arriveFence
  dsimp only
  split <;> rfl

theorem Still.of_roll {d d' : Determ} (hq : SameQueues d d') (h : d'.roll = d.roll) : Still d d' where
  queues := hq
  waiters c := by
    rw [Determ.waiters, Determ.waiters, show d'.conds = d.conds from congrArg Prod.fst h]
  barriers := congrArg (fun r => r.2.1) h
  maxthreads := congrArg (fun r => r.2.2.1) h
  alivethreads := congrArg (fun r => r.2.2.2) h

/-- What the threads at the real barrier write. -/
theorem Lined.real {T : Finset ℕ} {d : Determ} {a : Lines} {b : Obj} {be : BarrierEntry}
    (h : Lined T d a) (hb : d.barriers b = some be) (n g : ℕ) :
    Lined T (d.setBarrier b { be with arrived := n, generation := g }) a := by
  obtain ⟨hm, ht⟩ := h.barrier b be hb
  obtain ⟨hh, hw, hbe⟩ := h.barriers (d.setBarrier b { be with arrived := n, generation := g }) a b
    { be with arrived := n, generation := g } rfl rfl
    (by rw [← Lines.lists_barrier, ← h.head (.barrier b) nofun, Determ.head, hb]; rfl) ht hm rfl
    fun _ _ _ => rfl
  exact h.shift h.linking h.token h.active hh hw hbe h.maxthreads (fun i => .inl ⟨rfl, fun q => Iff.rfl⟩)
    rfl

end Determ

namespace State

variable {s : State} {t : Tid} {rest : List Instr} {i : Instr} {d : Determ} {l : Local}

theorem arrive_roll {k : Bool} (h : some (s.determ.arrive (s.locals t) k rest) = some (d, l)) :
    d.roll = s.determ.roll ∧ ∃ js, (js = [] ∨ ∃ j : Instr, js = [j] ∧ (j.arrives = true ∨ j.leaves = true)) ∧
      l = (s.locals t).goto (js ++ rest) := by
  unfold Determ.arrive at h
  split at h <;> cases h
  · exact ⟨(Determ.leaveFence_roll _).trans (Determ.arriveFence_roll _), [], .inl rfl, rfl⟩
  · refine ⟨Determ.arriveFence_roll _, [_], .inr ⟨_, rfl, .inr ?_⟩, rfl⟩
    split <;> rfl

/-- In the fence a thread keeps its place in the queues, and so do all others. -/
theorem own_fence_still (h : s.own t rest i = some (d, l)) (hi : i.arrives = true ∨ i.leaves = true) :
    s.determ.Still d ∧ (∃ js, (js = [] ∨ ∃ j : Instr, js = [j] ∧ (j.arrives = true ∨ j.leaves = true)) ∧
      l = (s.locals t).goto (js ++ rest)) ∧ s.others t i = s.locals := by
  have hq : touchesQueues i = false := by
    cases i <;> first | rfl | rcases hi with hi | hi <;> cases hi
  suffices hroll : d.roll = s.determ.roll ∧
      ∃ js, (js = [] ∨ ∃ j : Instr, js = [j] ∧ (j.arrives = true ∨ j.leaves = true)) ∧
        l = (s.locals t).goto (js ++ rest) by
    refine ⟨.of_roll (own_same h hq) hroll.1, hroll.2, ?_⟩
    cases i <;> first | rfl | rcases hi with hi | hi <;> cases hi
  cases i with
  | fenceEnter k =>
      simp only [own] at h
      split at h
      · exact arrive_roll h
      · split at h <;> cases h
        · exact ⟨rfl, [_], .inr ⟨_, rfl, .inl rfl⟩, rfl⟩
        · exact ⟨rfl, [_], .inr ⟨_, rfl, .inl rfl⟩, rfl⟩
  | spinArrival k =>
      simp only [own] at h
      split at h <;> cases h
      exact ⟨rfl, [_], .inr ⟨_, rfl, .inl rfl⟩, rfl⟩
  | fenceArrive k => exact arrive_roll h
  | condArrival k =>
      simp only [own] at h
      split at h
      · exact arrive_roll h
      · cases h
  | spinRelease k =>
      simp only [own] at h
      split at h <;> cases h
      exact ⟨rfl, [_], .inr ⟨_, rfl, .inr rfl⟩, rfl⟩
  | fenceLeave k =>
      cases h
      exact ⟨Determ.leaveFence_roll _, [], .inl rfl, rfl⟩
  | condRelease k =>
      simp only [own] at h
      split at h <;> cases h
      exact ⟨Determ.leaveFence_roll _, [], .inl rfl, rfl⟩
  | _ => rcases hi with hi | hi <;> cases hi

end State

/-! ## Meetings -/

/-- The scheduler, with the threads that have entered a wait at a barrier and those that have returned
from one, in order. -/
structure Meeting where
  state : State
  entered : List Tid
  returned : List Tid

namespace Meeting

/-- The thread that the step brings into `barrier_wait`. An operation without instructions is over at
once. -/
def enters (s : State) : Label → List Tid
  | .call t op => if (s.locals t).program op = [] then [t] else []
  | .run t =>
      match (s.locals t).pending with
      | .barrierEnter _ :: _ => [t]
      | _ => []

/-- The thread whose operation is over after the step. -/
def returns (w : State) : Label → List Tid
  | .call t _ | .run t => if (w.locals t).pending = [] then [t] else []

def step (j : Meeting) (a : Label) : Option Meeting :=
  (j.state.step a).map fun w => ⟨w, j.entered ++ enters j.state a, j.returned ++ returns w a⟩

/-- The threads `T` run, and call `barrier_wait` on `b` only. -/
def only (T : Finset Tid) (b : Obj) : Label → Prop
  | .call t (.barrierWait b') => t ∈ T ∧ b' = b
  | .call _ _ => False
  | .run t => t ∈ T

instance (T : Finset Tid) (b : Obj) : DecidablePred (only T b)
  | .call t (.barrierWait b') => inferInstanceAs (Decidable (t ∈ T ∧ b' = b))
  | .call _ (.mutexLock _) | .call _ (.mutexUnlock _) | .call _ (.condWait _ _)
  | .call _ (.condSignal _) | .call _ (.condBroadcast _) | .call _ (.spawn _) | .call _ (.join _)
  | .call _ (.cancel _) | .call _ .threadDeregister | .call _ (.mutexInit _)
  | .call _ (.condInit _) | .call _ (.barrierInit _ _) => .isFalse id
  | .run t => inferInstanceAs (Decidable (t ∈ T))

/-! ## The invariant -/

/-- The threads `T` meet at barrier `b`: `idx` gives their entries and `x` says where they are; `R` are
in the ring, from the token on, and `B` have entered in the order of their arrival. -/
structure Session (j : Meeting) (T : Finset Tid) (b : Obj) (idx : Tid → ℕ) (x : Tid → Stage)
    (R B : List Tid) : Prop where
  code : ∀ t ∈ T, (x t).Code b (j.state.locals t).pending
  index : ∀ t ∈ T, (j.state.locals t).threadIndex = idx t
  tid : ∀ t ∈ T, (j.state.determ.entries (idx t)).tid = t
  enabled : ∀ t ∈ T, (j.state.locals t).fenceEnabled = true ∨
    T.card = 1 ∧ (j.state.locals t).childrenThreadsCount = 0
  lines : ∃ U a, j.state.determ.Lined U a ∧ a.ring = R.map idx ∧ a.blocked b = B.map idx ∧
    a.size b = T.card
  nodup : (R ++ B).Nodup
  members : ∀ t, t ∈ R ++ B ↔ t ∈ T
  token : ∀ t ∈ T, x t = .token → R.head? = some t
  gate : ∃ be n, j.state.determ.barriers b = some be ∧
    be.arrived = (T.filter fun t => x t = .blocked be.generation).card ∧ be.arrived < T.card ∧
    ∀ t ∈ T, (x t).Counts be.generation n (j.returned.count t) (j.entered.count t)
  lap : ∃ k, ∀ t ∈ T, j.entered.count t = k + if t ∈ B then 1 else 0
  order : if B = [] then j.entered = [] ∨ ∃ X, j.entered = X ++ R else ∃ X, j.entered = X ++ B

namespace Session

variable {j w : Meeting} {T : Finset Tid} {b : Obj} {idx : Tid → ℕ} {x : Tid → Stage} {y : Stage}
  {R B : List Tid} {t u : Tid}

theorem card_eq (h : Session j T b idx x R B) : T.card = R.length + B.length := by
  have hT : (R ++ B).toFinset = T := by
    ext t
    rw [List.mem_toFinset, h.members]
  rw [← hT, List.toFinset_card_of_nodup h.nodup, List.length_append]

/-- The thread that the token is at. -/
theorem head_eq (h : Session j T b idx x R B) :
    ∃ z, R.head? = some z ∧ z ∈ T ∧ j.state.determ.tokenpos = idx z := by
  obtain ⟨U, a, hl, hr, -, -⟩ := h.lines
  have htok := hl.token
  rw [hr, List.head?_map, Option.map_eq_some_iff] at htok
  obtain ⟨z, hz, hidx⟩ := htok
  exact ⟨z, hz, (h.members z).mp (List.mem_append_left _ (List.mem_of_head? hz)), hidx.symm⟩

/-- What a step of `t` leaves of the other threads, and of its own variables. -/
structure Solo (j w : Meeting) (t : Tid) : Prop where
  other : ∀ u, u ≠ t → w.state.locals u = j.state.locals u
  own : ((w.state.locals t).threadIndex, (w.state.locals t).fenceEnabled,
      (w.state.locals t).childrenThreadsCount) =
    ((j.state.locals t).threadIndex, (j.state.locals t).fenceEnabled,
      (j.state.locals t).childrenThreadsCount)

/-- A step of `t`, in terms of what it does to the lines, the gate and the history. -/
theorem move {R' B' : List Tid} (h : Session j T b idx x R B) (ht : t ∈ T) (hl : Solo j w t)
    (hc : y.Code b (w.state.locals t).pending)
    (hid : ∀ i, (w.state.determ.entries i).ident = (j.state.determ.entries i).ident)
    (hlines : ∃ U a, w.state.determ.Lined U a ∧ a.ring = R'.map idx ∧ a.blocked b = B'.map idx ∧
      a.size b = T.card)
    (hperm : (R' ++ B').Perm (R ++ B))
    (htok : ∀ u ∈ T, Function.update x t y u = .token → R'.head? = some u)
    (hgate : ∃ be n, w.state.determ.barriers b = some be ∧
      be.arrived = (T.filter fun u => Function.update x t y u = .blocked be.generation).card ∧
      be.arrived < T.card ∧
      ∀ u ∈ T, (Function.update x t y u).Counts be.generation n (w.returned.count u) (w.entered.count u))
    (hlap : ∃ k, ∀ u ∈ T, w.entered.count u = k + if u ∈ B' then 1 else 0)
    (horder : if B' = [] then w.entered = [] ∨ ∃ X, w.entered = X ++ R' else ∃ X, w.entered = X ++ B') :
    Session w T b idx (Function.update x t y) R' B' where
  code u hu := by
    by_cases hut : u = t
    · subst hut
      rw [Function.update_self]
      exact hc
    · rw [Function.update_of_ne hut, hl.other u hut]
      exact h.code u hu
  index u hu := by
    by_cases hut : u = t
    · subst hut
      exact (congrArg Prod.fst hl.own).trans (h.index u hu)
    · rw [hl.other u hut]
      exact h.index u hu
  tid u hu := (ident_tid (hid _)).trans (h.tid u hu)
  enabled u hu := by
    by_cases hut : u = t
    · subst hut
      rw [show (w.state.locals u).fenceEnabled = _ from congrArg (fun r => r.2.1) hl.own,
        show (w.state.locals u).childrenThreadsCount = _ from congrArg (fun r => r.2.2) hl.own]
      exact h.enabled u hu
    · rw [hl.other u hut]
      exact h.enabled u hu
  lines := hlines
  nodup := (List.Perm.nodup_iff hperm).mpr h.nodup
  members u := hperm.mem_iff.trans (h.members u)
  token := htok
  gate := hgate
  lap := hlap
  order := horder

/-- A step between the fences of the barrier. -/
theorem still (h : Session j T b idx x R B) (ht : t ∈ T) (hl : Solo j w t)
    (hc : y.Code b (w.state.locals t).pending) (hd : j.state.determ.Still w.state.determ)
    (he : w.entered = j.entered) (hr : ∀ u ∈ T, u ≠ t → w.returned.count u = j.returned.count u)
    (htok : y = .token → R.head? = some t)
    (hcnt : ∀ be n, j.state.determ.barriers b = some be →
      (x t).Counts be.generation n (j.returned.count t) (j.entered.count t) →
      y.Counts be.generation n (w.returned.count t) (j.entered.count t) ∧
        (y = .blocked be.generation ↔ x t = .blocked be.generation)) :
    Session w T b idx (Function.update x t y) R B := by
  refine h.move ht hl hc hd.queues.ident ?_ (List.Perm.refl _) (fun u hu hux => ?_) ?_ ?_ ?_
  · obtain ⟨U, a, hlin, hring, hblocked, hsize⟩ := h.lines
    exact ⟨U, a, hlin.frame hd.queues hd.waiters hd.barriers hd.maxthreads hd.alivethreads, hring,
      hblocked, hsize⟩
  · by_cases hut : u = t
    · subst hut
      rw [Function.update_self] at hux
      exact htok hux
    · rw [Function.update_of_ne hut] at hux
      exact h.token u hu hux
  · obtain ⟨be, n, hbe, harr, hlt, hcounts⟩ := h.gate
    obtain ⟨hy, hiff⟩ := hcnt be n hbe (hcounts t ht)
    refine ⟨be, n, by rw [hd.barriers, hbe], ?_, hlt, fun u hu => ?_⟩
    · rw [harr]
      refine congrArg Finset.card (Finset.filter_congr fun u _ => ?_)
      by_cases hut : u = t
      · subst hut
        rw [Function.update_self]
        exact hiff.symm
      · rw [Function.update_of_ne hut]
    · rw [he]
      by_cases hut : u = t
      · subst hut
        rw [Function.update_self]
        exact hy
      · rw [Function.update_of_ne hut, hr u hu hut]
        exact hcounts u hu
  · rw [he]
    exact h.lap
  · rw [he]
    exact h.order

/-- A thread enters with the token. -/
theorem enter (h : Session j T b idx x R B) (ht : t ∈ T) (hx : x t = .token) (hl : Solo j w t)
    (hc : Stage.Code b .coming (w.state.locals t).pending)
    (hd : w.state.determ = (j.state.determ.barrierEnter (idx t) b).1)
    (he : w.entered = j.entered ++ [t]) (hr : w.returned = j.returned) :
    ∃ R' B', Session w T b idx (Function.update x t .coming) R' B' := by
  have hhead := h.token t ht hx
  obtain ⟨z, hz, -, htok⟩ := h.head_eq
  obtain rfl : t = z := Option.some.inj (hhead.symm.trans hz)
  obtain ⟨R', rfl⟩ := List.head?_eq_some_iff.mp hhead
  obtain ⟨U, a, hlin, hring, hblocked, hsize⟩ := h.lines
  obtain ⟨be, n, hbe, harr, hlt, hcounts⟩ := h.gate
  obtain ⟨hmax, hthr⟩ := hlin.barrier b be hbe
  obtain ⟨k, hk⟩ := h.lap
  have hcard : T.card = R'.length + 1 + B.length := h.card_eq
  have hnd : t ∉ R' ++ B := (List.nodup_cons.mp h.nodup).1
  have htB : t ∉ B := fun hm => hnd (List.mem_append_right _ hm)
  have hid : ∀ i, (w.state.determ.entries i).ident = (j.state.determ.entries i).ident := fun i => by
    rw [hd, Determ.barrierEnter_ident]
  have hcount : ∀ u, w.entered.count u = j.entered.count u + if u = t then 1 else 0 := fun u => by
    rw [he, List.count_append, List.count_singleton]
    by_cases hut : u = t
    · subst hut
      simp
    · rw [if_neg hut, if_neg (by simpa using Ne.symm hut)]
  have horder : ∃ X, w.entered = X ++ (B ++ [t]) := by
    have hX : ∃ X, j.entered = X ++ B := by
      have ho := h.order
      split at ho
      · rename_i hB
        exact ⟨j.entered, by rw [hB, List.append_nil]⟩
      · exact ho
    obtain ⟨X, hX⟩ := hX
    exact ⟨X, by rw [he, hX, List.append_assoc]⟩
  have htoken : ∀ {L : List Tid}, ∀ u ∈ T, Function.update x t .coming u = .token → L.head? = some u := by
    intro L u hu hux
    by_cases hut : u = t
    · subst hut
      rw [Function.update_self] at hux
      cases hux
    · rw [Function.update_of_ne hut] at hux
      exact absurd (Option.some.inj ((h.token u hu hux).symm.trans hhead)) hut
  have hgate : ∀ be' : BarrierEntry, be'.arrived = be.arrived → be'.generation = be.generation →
      be'.arrived = (T.filter fun u => Function.update x t .coming u = .blocked be'.generation).card ∧
      be'.arrived < T.card ∧ ∀ u ∈ T, (Function.update x t .coming u).Counts be'.generation n
        (w.returned.count u) (w.entered.count u) := by
    intro be' ha hg
    rw [ha, hg, hr]
    refine ⟨harr.trans (congrArg Finset.card (Finset.filter_congr fun u _ => ?_)), hlt, fun u hu => ?_⟩
    · by_cases hut : u = t
      · subst hut
        rw [Function.update_self, hx]
        exact iff_of_false nofun nofun
      · rw [Function.update_of_ne hut]
    · rw [hcount]
      have hcu := hcounts u hu
      by_cases hut : u = t
      · subst hut
        rw [hx] at hcu
        rw [Function.update_self, if_pos rfl]
        exact ⟨hcu.1, congrArg (· + 1) hcu.2⟩
      · rw [Function.update_of_ne hut, if_neg hut]
        exact hcu
  rw [hblocked, List.length_map] at hthr
  by_cases hlast : be.threads + 1 = be.maxthreads
  · obtain rfl : R' = [] := List.eq_nil_of_length_eq_zero (by omega)
    obtain ⟨-, hb, -⟩ := j.state.determ.barrierEnter_last (idx t) hbe hlast
    have ha := Lines.after_release (b := b) hring (by rw [hblocked, List.length_map, ← hthr, hlast, hmax])
    refine ⟨B ++ [t], [], h.move ht hl hc hid ?_ ?_ htoken
      ⟨{ be with threads := 0, head := none }, n, by rw [hd, hb, Function.update_self],
        hgate _ rfl rfl⟩ ⟨k + 1, fun u hu => ?_⟩ ?_⟩
    · refine ⟨U, a.after (.barrier b), ?_, ?_⟩
      · rw [hd, ← htok]
        exact hlin.release hbe hlast
      · rw [ha, hblocked]
        exact ⟨by simp [Lines.setRing], by simp [Lines.setRing, Lines.setBlocked], hsize⟩
    · rw [List.append_nil]
      exact List.perm_append_comm
    · have hub : u ∈ [t] ++ B := (h.members u).mpr hu
      rw [hcount, hk u hu]
      rcases List.mem_append.mp hub with hm | hm
      · obtain rfl := List.mem_singleton.mp hm
        rw [if_neg htB]
        simp
      · have hut : u ≠ t := fun he => htB (he ▸ hm)
        rw [if_pos hm, if_neg hut]
        simp
    · rw [if_pos rfl]
      exact .inr horder
  · have hR' : R' ≠ [] := fun hnil => hlast (by rw [hnil] at hcard; simp at hcard; omega)
    have hpos : 0 < j.state.determ.maxthreads := by
      rw [hlin.maxthreads, hring]
      exact Nat.succ_pos _
    obtain ⟨head, -, hb, -⟩ := j.state.determ.barrierEnter_wait (idx t) hbe hlast hpos
    have ha := Lines.after_block (b := b) hring (by rw [hblocked, List.length_map, ← hthr, ← hmax]; exact hlast)
    have hnext : (j.state.determ.entries j.state.determ.tokenpos).next ≠ j.state.determ.tokenpos := by
      have hmap : R'.map idx ≠ [] := fun hnil => hR' (List.map_eq_nil_iff.mp hnil)
      have hh := hlin.head_rest hring hmap
      have hn := hlin.linking.nodup .active
      rw [Lines.lists_active, hring] at hn
      rw [htok]
      intro heq
      rw [heq] at hh
      exact (List.nodup_cons.mp hn).1 (List.mem_of_head? hh)
    refine ⟨R', B ++ [t], h.move ht hl hc hid ?_ ?_ htoken
      ⟨{ be with threads := be.threads + 1, head := head }, n, by rw [hd, hb, Function.update_self],
        hgate _ rfl rfl⟩ ⟨k, fun u hu => ?_⟩ ?_⟩
    · refine ⟨U, a.after (.barrier b), ?_, ?_⟩
      · rw [hd, ← htok]
        exact hlin.block hbe hlast hnext
      · rw [ha, hblocked]
        exact ⟨by simp [Lines.setRing, Lines.setBlocked], by simp [Lines.setBlocked], hsize⟩
    · rw [← List.append_assoc]
      exact List.perm_append_comm
    · rw [hcount, hk u hu]
      by_cases hut : u = t
      · subst hut
        rw [if_neg htB]
        simp
      · simp [hut]
    · rw [if_neg (by simp)]
      exact horder

/-- A thread comes to the real barrier before the last one. -/
theorem blocks {be : BarrierEntry} (h : Session j T b idx x R B) (ht : t ∈ T) (hx : x t = .coming)
    (hl : Solo j w t) (hbe : j.state.determ.barriers b = some be) (hlast : be.arrived + 1 ≠ be.maxthreads)
    (hc : Stage.Code b (.blocked be.generation) (w.state.locals t).pending)
    (hd : w.state.determ = j.state.determ.setBarrier b { be with arrived := be.arrived + 1 })
    (he : w.entered = j.entered) (hr : w.returned = j.returned) :
    Session w T b idx (Function.update x t (.blocked be.generation)) R B := by
  obtain ⟨U, a, hlin, hring, hblocked, hsize⟩ := h.lines
  obtain ⟨be', n, hbe', harr, hlt, hcounts⟩ := h.gate
  obtain rfl : be = be' := Option.some.inj (hbe.symm.trans hbe')
  have hmax := (hlin.barrier b be hbe).1
  have hblk : (T.filter fun u => Function.update x t (.blocked be.generation) u = .blocked be.generation) =
      insert t (T.filter fun u => x u = .blocked be.generation) := by
    ext u
    rw [Finset.mem_insert, Finset.mem_filter, Finset.mem_filter]
    by_cases hut : u = t
    · subst hut
      simp [ht]
    · simp [hut]
  have htn : t ∉ T.filter fun u => x u = .blocked be.generation := fun hm => by
    rw [(Finset.mem_filter.mp hm).2] at hx
    cases hx
  refine h.move ht hl hc (fun i => by rw [hd]; rfl)
    ⟨U, a, by rw [hd]; exact hlin.real hbe _ _, hring, hblocked, hsize⟩ (List.Perm.refl _)
    (fun u hu hux => ?_) ⟨{ be with arrived := be.arrived + 1 }, n, by rw [hd]; exact Function.update_self ..,
      ?_, ?_, fun u hu => ?_⟩ (by rw [he]; exact h.lap) (by rw [he]; exact h.order)
  · by_cases hut : u = t
    · subst hut
      rw [Function.update_self] at hux
      cases hux
    · rw [Function.update_of_ne hut] at hux
      exact h.token u hu hux
  · rw [hblk, Finset.card_insert_of_notMem htn, harr]
  · dsimp only
    omega
  · rw [he, hr]
    have hcu := hcounts u hu
    by_cases hut : u = t
    · subst hut
      rw [hx] at hcu
      rw [Function.update_self]
      exact .inl ⟨rfl, hcu⟩
    · rw [Function.update_of_ne hut]
      exact hcu

/-- The last thread that comes to the real barrier opens it. -/
theorem opens {be : BarrierEntry} (h : Session j T b idx x R B) (ht : t ∈ T) (hx : x t = .coming)
    (hl : Solo j w t) (hbe : j.state.determ.barriers b = some be) (hlast : be.arrived + 1 = be.maxthreads)
    (hc : y.Code b (w.state.locals t).pending)
    (hd : w.state.determ =
      j.state.determ.setBarrier b { be with arrived := 0, generation := be.generation + 1 })
    (he : w.entered = j.entered) (hr : ∀ u ∈ T, u ≠ t → w.returned.count u = j.returned.count u)
    (hy : y = .past ∧ w.returned.count t = j.returned.count t ∨
      y = .away ∧ w.returned.count t = j.returned.count t + 1) :
    Session w T b idx (Function.update x t y) R B := by
  obtain ⟨U, a, hlin, hring, hblocked, hsize⟩ := h.lines
  obtain ⟨be', n, hbe', harr, hlt, hcounts⟩ := h.gate
  obtain rfl : be = be' := Option.some.inj (hbe.symm.trans hbe')
  have hmax := (hlin.barrier b be hbe).1
  have hall : (T.filter fun u => x u = .blocked be.generation) = T.erase t := by
    refine Finset.eq_of_subset_of_card_le (fun u hu => ?_) ?_
    · obtain ⟨huT, hux⟩ := Finset.mem_filter.mp hu
      refine Finset.mem_erase.mpr ⟨?_, huT⟩
      rintro rfl
      rw [hux] at hx
      cases hx
    · rw [Finset.card_erase_of_mem ht, ← harr]
      omega
  have hothers : ∀ u ∈ T, u ≠ t → x u = .blocked be.generation := fun u hu hut => by
    have hm := Finset.mem_erase.mpr ⟨hut, hu⟩
    rw [← hall] at hm
    exact (Finset.mem_filter.mp hm).2
  have hnone : ∀ u ∈ T, Function.update x t y u ≠ .token ∧
      Function.update x t y u ≠ .blocked (be.generation + 1) := by
    intro u hu
    by_cases hut : u = t
    · subst hut
      rw [Function.update_self]
      rcases hy with ⟨rfl, -⟩ | ⟨rfl, -⟩ <;> exact ⟨nofun, nofun⟩
    · rw [Function.update_of_ne hut, hothers u hu hut]
      exact ⟨nofun, by simp⟩
  refine h.move ht hl hc (fun i => by rw [hd]; rfl)
    ⟨U, a, by rw [hd]; exact hlin.real hbe _ _, hring, hblocked, hsize⟩ (List.Perm.refl _)
    (fun u hu hux => absurd hux (hnone u hu).1)
    ⟨{ be with arrived := 0, generation := be.generation + 1 }, n + 1,
      by rw [hd]; exact Function.update_self .., ?_, Finset.card_pos.mpr ⟨t, ht⟩, fun u hu => ?_⟩
    (by rw [he]; exact h.lap) (by rw [he]; exact h.order)
  · rw [Finset.filter_false_of_mem fun u hu => (hnone u hu).2]
    rfl
  · rw [he]
    have hcu := hcounts u hu
    by_cases hut : u = t
    · subst hut
      rw [hx] at hcu
      rw [Function.update_self]
      rcases hy with ⟨rfl, hyr⟩ | ⟨rfl, hyr⟩
      · exact ⟨by rw [hyr, hcu.1], hcu.2⟩
      · exact ⟨by rw [hyr, hcu.1], hcu.2⟩
    · rw [Function.update_of_ne hut, hothers u hu hut, hr u hu hut]
      rw [hothers u hu hut] at hcu
      obtain ⟨-, hcr, hce⟩ := hcu.resolve_right fun hlt => absurd hlt.1 (lt_irrefl _)
      exact .inr ⟨Nat.lt_succ_self _, by rw [hcr], hce⟩

section Ran

variable {i : Instr} {rest : List Instr} {d : Determ} {l : Local}

/-- The meeting after an instruction of `t`. -/
def after (j : Meeting) (t : Tid) (i : Instr) (d : Determ) (l : Local) : Meeting where
  state := ⟨d, Function.update (j.state.others t i) t l, j.state.created i⟩
  entered := j.entered ++ enters j.state (.run t)
  returned := j.returned ++ if l.pending = [] then [t] else []

theorem after_locals : (after j t i d l).state.locals t = l := Function.update_self ..

theorem solo (ho : j.state.others t i = j.state.locals)
    (hl : (l.threadIndex, l.fenceEnabled, l.childrenThreadsCount) =
      ((j.state.locals t).threadIndex, (j.state.locals t).fenceEnabled,
        (j.state.locals t).childrenThreadsCount)) : Solo j (after j t i d l) t where
  other u hu := by
    change Function.update (j.state.others t i) t l u = _
    rw [Function.update_of_ne hu, ho]
  own := by
    rw [after_locals]
    exact hl

theorem after_entered (hp : (j.state.locals t).pending = i :: rest) (hi : ∀ b, i ≠ .barrierEnter b) :
    (after j t i d l).entered = j.entered := by
  simp only [after, enters, hp]
  split
  · rename_i heq
    exact absurd (List.cons.inj heq).1 (hi _)
  · exact List.append_nil _

theorem after_returned_ne (hu : u ≠ t) :
    (after j t i d l).returned.count u = j.returned.count u := by
  unfold after
  dsimp only
  rw [List.count_append]
  split
  · rw [List.count_singleton, if_neg (by simpa using Ne.symm hu), Nat.add_zero]
  · rfl

theorem after_returned (hl : l.pending ≠ []) : (after j t i d l).returned = j.returned := by
  unfold after
  rw [if_neg hl, List.append_nil]

theorem after_returned_nil (hl : l.pending = []) :
    (after j t i d l).returned.count t = j.returned.count t + 1 := by
  unfold after
  rw [if_pos hl, List.count_append, List.count_singleton_self]

/-- The real barrier has opened since the thread was blocked. -/
theorem released {d : Determ} {be : BarrierEntry} {g n r e : ℕ} (hb : d.barriers b = some be)
    (hg : (d.barriers b).any (fun be => be.generation ≠ g) = true)
    (hc : (Stage.blocked g).Counts be.generation n r e) : g ≠ be.generation ∧ r + 1 = n ∧ e = n := by
  rw [hb] at hg
  have hne : g ≠ be.generation := fun he => by simp [he] at hg
  exact ⟨hne, (hc.resolve_left fun h => hne h.1).2⟩

/-- An instruction of the barrier wait. -/
theorem ran (h : Session j T b idx x R B) (ht : t ∈ T) (hp : (j.state.locals t).pending = i :: rest)
    (ho : j.state.own t rest i = some (d, l)) :
    ∃ x' R' B', Session (after j t i d l) T b idx x' R' B' := by
  have hcode := h.code t ht
  generalize hx : x t = z at hcode
  rw [hp] at hcode
  cases hcode with
  | fence hi =>
      obtain ⟨hd, ⟨js, hjs, rfl⟩, hothers⟩ := State.own_fence_still ho hi
      have hc : Stage.Code b .away (js ++ [.getToken, .atomicEnd, .barrierEnter b]) := by
        rcases hjs with rfl | ⟨k, rfl, hk⟩
        · exact .wait
        · exact .fence hk
      have hne : js ++ [.getToken, .atomicEnd, .barrierEnter b] ≠ [] := by simp
      refine ⟨_, R, B, h.still (y := .away) ht (solo hothers rfl) (by rw [after_locals]; exact hc) hd
        (after_entered hp ?_) (fun u _ hu => after_returned_ne hu) (by rintro ⟨⟩) fun be n _ hcnt => ?_⟩
      · rintro b' rfl
        rcases hi with hi | hi <;> cases hi
      · rw [after_returned hne]
        rw [hx] at hcnt ⊢
        exact ⟨hcnt, Iff.rfl⟩
  | wait =>
      simp only [State.own] at ho
      split at ho <;> cases ho
      rename_i hhold
      obtain ⟨z, hz, hzT, htok⟩ := h.head_eq
      have hzt : z = t := by
        rw [Determ.holder, htok, h.tid z hzT] at hhold
        exact hhold
      subst hzt
      refine ⟨_, R, B, h.still (y := .token) ht (solo rfl rfl) (by rw [after_locals]; exact .commit)
        (.of_roll (.refl _) rfl) (after_entered hp (by rintro _ ⟨⟩)) (fun u _ hu => after_returned_ne hu)
        (fun _ => hz) fun be n _ hcnt => ?_⟩
      rw [after_returned (by simp)]
      rw [hx] at hcnt ⊢
      exact ⟨hcnt, iff_of_false (by rintro ⟨⟩) (by rintro ⟨⟩)⟩
  | commit =>
      cases ho
      refine ⟨_, R, B, h.still (y := .token) ht (solo rfl rfl) (by rw [after_locals]; exact .enter)
        (.of_roll (.refl _) rfl) (after_entered hp (by rintro _ ⟨⟩)) (fun u _ hu => after_returned_ne hu)
        (fun _ => h.token t ht hx) fun be n _ hcnt => ?_⟩
      rw [after_returned (by simp)]
      rw [hx] at hcnt ⊢
      exact ⟨hcnt, Iff.rfl⟩
  | enter =>
      cases ho
      obtain ⟨R', B', h'⟩ := h.enter ht hx (solo rfl rfl)
        (w := after j t (.barrierEnter b) (j.state.determ.barrierEnter (j.state.locals t).threadIndex b).1
          { j.state.locals t with
            hasToken := false
            pending := (if (j.state.determ.barrierEnter (j.state.locals t).threadIndex b).2 then
              [.barrierArrive b, .atomicBegin] else [.atomicBegin, .barrierArrive b]) ++ [] })
        (by
          rw [after_locals]
          dsimp only
          split
          · exact .comeLast
          · exact .start)
        (by rw [← h.index t ht]; rfl)
        (by simp only [after, enters, hp])
        (after_returned (by dsimp only; split <;> simp))
      exact ⟨_, R', B', h'⟩
  | start =>
      cases ho
      refine ⟨_, R, B, h.still (y := .coming) ht (solo rfl rfl) (by rw [after_locals]; exact .come)
        (.of_roll (.refl _) rfl) (after_entered hp (by rintro _ ⟨⟩)) (fun u _ hu => after_returned_ne hu)
        (by rintro ⟨⟩) fun be n _ hcnt => ?_⟩
      rw [after_returned (by simp)]
      rw [hx] at hcnt ⊢
      exact ⟨hcnt, Iff.rfl⟩
  | startLast =>
      cases ho
      refine ⟨_, R, B, h.still (y := .away) ht (solo rfl rfl) (by rw [after_locals]; exact .idle)
        (.of_roll (.refl _) rfl) (after_entered hp (by rintro _ ⟨⟩)) (fun u _ hu => after_returned_ne hu)
        (by rintro ⟨⟩) fun be n _ hcnt => ?_⟩
      rw [after_returned_nil rfl]
      rw [hx] at hcnt ⊢
      exact ⟨hcnt, iff_of_false (by rintro ⟨⟩) (by rintro ⟨⟩)⟩
  | comeLast =>
      obtain ⟨be, -, hbe, -⟩ := h.gate
      simp only [State.own, hbe, Option.map_some, Option.some.injEq] at ho
      split at ho <;> cases ho
      · rename_i hlast
        exact ⟨_, R, B, h.opens (y := .past) ht hx (solo rfl rfl) hbe hlast
          (by rw [after_locals]; exact .startLast) rfl (after_entered hp (by rintro _ ⟨⟩))
          (fun u _ hu => after_returned_ne hu) (.inl ⟨rfl, by rw [after_returned (by simp)]⟩)⟩
      · rename_i hlast
        exact ⟨_, R, B, h.blocks ht hx (solo rfl rfl) hbe hlast
          (by rw [after_locals]; exact .blockLast _) rfl (after_entered hp (by rintro _ ⟨⟩))
          (after_returned (by simp))⟩
  | come =>
      obtain ⟨be, -, hbe, -⟩ := h.gate
      simp only [State.own, hbe, Option.map_some, Option.some.injEq] at ho
      split at ho <;> cases ho
      · rename_i hlast
        exact ⟨_, R, B, h.opens (y := .away) ht hx (solo rfl rfl) hbe hlast
          (by rw [after_locals]; exact .idle) rfl (after_entered hp (by rintro _ ⟨⟩))
          (fun u _ hu => after_returned_ne hu) (.inr ⟨rfl, after_returned_nil rfl⟩)⟩
      · rename_i hlast
        exact ⟨_, R, B, h.blocks ht hx (solo rfl rfl) hbe hlast
          (by rw [after_locals]; exact .block _) rfl (after_entered hp (by rintro _ ⟨⟩))
          (after_returned (by simp))⟩
  | blockLast g =>
      simp only [State.own] at ho
      split at ho <;> cases ho
      rename_i hgen
      refine ⟨_, R, B, h.still (y := .past) ht (solo rfl rfl) (by rw [after_locals]; exact .startLast)
        (.of_roll (.refl _) rfl) (after_entered hp (by rintro _ ⟨⟩)) (fun u _ hu => after_returned_ne hu)
        (by rintro ⟨⟩) fun be n hbe hcnt => ?_⟩
      rw [hx] at hcnt ⊢
      obtain ⟨hg, hret⟩ := released hbe hgen hcnt
      rw [after_returned (by simp)]
      exact ⟨hret, iff_of_false (by rintro ⟨⟩) fun he => hg (Stage.blocked.inj he)⟩
  | block g =>
      simp only [State.own] at ho
      split at ho <;> cases ho
      rename_i hgen
      refine ⟨_, R, B, h.still (y := .away) ht (solo rfl rfl) (by rw [after_locals]; exact .idle)
        (.of_roll (.refl _) rfl) (after_entered hp (by rintro _ ⟨⟩)) (fun u _ hu => after_returned_ne hu)
        (by rintro ⟨⟩) fun be n hbe hcnt => ?_⟩
      rw [hx] at hcnt ⊢
      obtain ⟨hg, hret⟩ := released hbe hgen hcnt
      rw [after_returned_nil rfl]
      exact ⟨hret, iff_of_false (by rintro ⟨⟩) fun he => hg (Stage.blocked.inj he)⟩

end Ran

theorem away_of_idle (h : Session j T b idx x R B) (ht : t ∈ T)
    (hp : (j.state.locals t).pending = []) : x t = .away := by
  have hc := h.code t ht
  generalize x t = z at hc ⊢
  rw [hp] at hc
  cases hc
  rfl

/-- A thread calls `barrier_wait`. A thread on its own without the fence is back at once. -/
theorem called (h : Session j T b idx x R B) (ht : t ∈ T) (hp : (j.state.locals t).pending = [])
    (hw : w = ⟨j.state.called t (.barrierWait b), j.entered ++ enters j.state (.call t (.barrierWait b)),
      j.returned ++ returns (j.state.called t (.barrierWait b)) (.call t (.barrierWait b))⟩) :
    Session w T b idx (Function.update x t .away) R B := by
  have hx := h.away_of_idle ht hp
  have hself : w.state.locals t =
      (j.state.locals t).goto ((j.state.locals t).program (.barrierWait b)) := by
    rw [hw]
    exact (State.called_locals ..).trans (if_pos rfl)
  have hsolo : Solo j w t := by
    refine ⟨fun u hu => ?_, by rw [hself]; rfl⟩
    rw [hw]
    exact (State.called_locals ..).trans (if_neg hu)
  have hret : w.returned =
      j.returned ++ if (j.state.locals t).program (.barrierWait b) = [] then [t] else [] := by
    have hself' := hself
    rw [hw] at hself' ⊢
    dsimp only [returns] at hself' ⊢
    rw [hself']
    rfl
  have hent : w.entered =
      j.entered ++ if (j.state.locals t).program (.barrierWait b) = [] then [t] else [] := by
    rw [hw]
    rfl
  have hdet : w.state.determ = j.state.determ := by
    rw [hw]
    rfl
  by_cases hf : (j.state.locals t).fenceEnabled = true
  · have hprog : (j.state.locals t).program (.barrierWait b) =
        [.fenceEnter true, .getToken, .atomicEnd, .barrierEnter b] := by
      rw [Local.program, Local.barrierWait, Local.wakeChildren, if_pos hf]
      rfl
    rw [hprog] at hself
    rw [hprog, if_neg (by simp), List.append_nil] at hret hent
    refine h.still ht hsolo (by rw [hself]; exact .fence (.inl rfl)) ?_ hent
      (fun u _ _ => by rw [hret]) (by rintro ⟨⟩) fun be n _ hcnt => ?_
    · rw [hdet]
      exact .of_roll (.refl _) rfl
    · rw [hret]
      rw [hx] at hcnt ⊢
      exact ⟨hcnt, Iff.rfl⟩
  · obtain ⟨hone, hnone⟩ := (h.enabled t ht).resolve_left hf
    have hprog : (j.state.locals t).program (.barrierWait b) = [] := by
      rw [Local.program, Local.barrierWait, Local.wakeChildren, if_neg hf, if_pos hnone]
    rw [hprog] at hself
    rw [hprog, if_pos rfl] at hret hent
    have hT : ∀ u ∈ T, u = t := fun u hu => Finset.card_le_one.mp hone.le u hu t ht
    obtain ⟨z, hz, -, -⟩ := h.head_eq
    obtain ⟨R', rfl⟩ := List.head?_eq_some_iff.mp hz
    have hcard := h.card_eq
    rw [hone, List.length_cons] at hcard
    obtain rfl : R' = [] := List.eq_nil_of_length_eq_zero (by omega)
    obtain rfl : B = [] := List.eq_nil_of_length_eq_zero (by omega)
    obtain rfl : z = t := hT z ((h.members z).mp List.mem_cons_self)
    obtain ⟨be, n, hbe, harr, hlt, hcounts⟩ := h.gate
    obtain ⟨k, hk⟩ := h.lap
    have hxz : Function.update x z .away = x := by
      rw [← hx, Function.update_eq_self]
    refine h.move ht hsolo (by rw [hself]; exact .idle) (fun i => by rw [hdet])
      (by rw [hdet]; exact h.lines) (List.Perm.refl _) (by rw [hxz]; exact h.token)
      ⟨be, n + 1, by rw [hdet]; exact hbe, by rw [hxz]; exact harr, hlt, fun u hu => ?_⟩
      ⟨k + 1, fun u hu => ?_⟩ ?_
    · obtain rfl := hT u hu
      have hcu := hcounts u hu
      rw [hx] at hcu
      rw [Function.update_self, hret, hent, List.count_append, List.count_append,
        List.count_singleton_self, hcu.1, hcu.2]
      exact ⟨rfl, rfl⟩
    · obtain rfl := hT u hu
      rw [hent, List.count_append, List.count_singleton_self, hk u hu, if_neg List.not_mem_nil]
    · rw [if_pos rfl]
      exact .inr ⟨j.entered, hent⟩

/-- Every step keeps the session. -/
theorem step {a : Label} (h : Session j T b idx x R B) (ha : only T b a) (hs : j.step a = some w) :
    ∃ x' R' B', Session w T b idx x' R' B' := by
  rw [Meeting.step, Option.map_eq_some_iff] at hs
  obtain ⟨s', hs, rfl⟩ := hs
  cases a with
  | call t op =>
      obtain ⟨-, hp, rfl⟩ := State.step_call hs
      cases op with
      | barrierWait b' =>
          obtain ⟨ht, rfl⟩ := ha
          exact ⟨_, R, B, h.called ht hp rfl⟩
      | _ => exact ha.elim
  | run t =>
      obtain ⟨i, rest, d, l, -, hp, ho, rfl⟩ := State.step_run hs
      obtain ⟨x', R', B', h'⟩ := h.ran ha hp ho
      refine ⟨x', R', B', ?_⟩
      have hret : returns ⟨d, Function.update (j.state.others t i) t l, j.state.created i⟩ (.run t) =
          if l.pending = [] then [t] else [] := by
        refine if_congr ?_ rfl rfl
        dsimp only
        rw [Function.update_self]
      rw [hret]
      exact h'

end Session

/-! ## The law -/

/-- The threads `T` make up the ring, between their operations, and barrier `b` is initialised for
them. A thread on its own need not use the fence. -/
structure Convened (s : State) (T : Finset Tid) (b : Obj) : Prop where
  idle : ∀ t ∈ T, (s.locals t).pending = []
  enabled : ∀ t ∈ T, (s.locals t).fenceEnabled = true ∨
    T.card = 1 ∧ (s.locals t).childrenThreadsCount = 0
  tid : ∀ t ∈ T, (s.determ.entries (s.locals t).threadIndex).tid = t
  ring : ∃ (U : Finset ℕ) (a : Lines) (R : List Tid), s.determ.Lined U a ∧ a.ring = R.map (fun t => (s.locals t).threadIndex) ∧ R.Nodup ∧
    (∀ t, t ∈ R ↔ t ∈ T) ∧ a.blocked b = [] ∧ a.size b = T.card
  barrier : ∃ be, s.determ.barriers b = some be ∧ be.arrived = 0

/-- The threads `A`, and `z` as the last one, have met at barrier `b`. -/
structure Adjourned (s : State) (T : Finset Tid) (b : Obj) (A : List Tid) (z : Tid) : Prop where
  nodup : (A ++ [z]).Nodup
  members : ∀ t, t ∈ A ++ [z] ↔ t ∈ T
  barrier : ∃ be, s.determ.barriers b = some be ∧ be.threads = 0 ∧ be.head = none
  maxthreads : s.determ.maxthreads = T.card
  ring : ∃ L, s.determ.Lists .active L ∧ L ~r (z :: A).map fun t => (s.locals t).threadIndex
  token : ((A ++ [z]).map fun t => (s.locals t).threadIndex).head? = some s.determ.tokenpos

variable {s : State} {T : Finset Tid} {b : Obj} {w : Meeting}

theorem Convened.session (h : Convened s T b) : ∃ R, Session ⟨s, [], []⟩ T b
    (fun t => (s.locals t).threadIndex) (fun _ => .away) R [] := by
  obtain ⟨U, a, R, hlin, hring, hnd, hmem, hblocked, hsize⟩ := h.ring
  obtain ⟨be, hbe, harr⟩ := h.barrier
  have hT : 0 < T.card := by
    obtain ⟨rest, hr⟩ := hlin.ring_eq
    rw [hring] at hr
    obtain ⟨t, ht⟩ := List.exists_mem_of_ne_nil R fun hnil => by
      rw [hnil] at hr
      cases hr
    exact Finset.card_pos.mpr ⟨t, (hmem t).mp ht⟩
  refine ⟨R, fun t ht => ?_, fun _ _ => rfl, h.tid, h.enabled, ⟨U, a, hlin, hring, hblocked, hsize⟩, ?_,
    fun t => ?_, fun _ _ => nofun, ⟨be, 0, hbe, ?_, harr ▸ hT, fun _ _ => ⟨rfl, rfl⟩⟩, ⟨0, fun _ _ => rfl⟩,
    .inl rfl⟩
  · dsimp only
    rw [h.idle t ht]
    exact .idle
  · rw [List.append_nil]
    exact hnd
  · rw [List.append_nil]
    exact hmem t
  · rw [harr, Finset.filter_false_of_mem fun _ _ => nofun]
    rfl

/-- After an episode nobody stands at the barrier. -/
theorem Session.adjourned {idx : Tid → ℕ} {x : Tid → Stage} {A : List Tid} {z : Tid}
    (h : Session w T b idx x (A ++ [z]) []) : Adjourned w.state T b A z := by
  obtain ⟨U, a, hlin, hring, hblocked, hsize⟩ := h.lines
  obtain ⟨be, n, hbe, -⟩ := h.gate
  have hmap : ∀ L : List Tid, (∀ t ∈ L, t ∈ A ++ [z]) →
      L.map (fun t => (w.state.locals t).threadIndex) = L.map idx := fun L hL =>
    List.map_congr_left fun t ht => h.index t ((h.members t).mp (by simpa using hL t ht))
  obtain ⟨y, hy, hact⟩ := hlin.active
  obtain ⟨l₁, l₂, hl⟩ := List.append_of_mem hy
  refine ⟨by simpa using h.nodup, fun t => by simpa using h.members t, ⟨be, hbe, ?_, ?_⟩, ?_,
    ⟨y :: (l₂ ++ l₁), ⟨?_, ?_, hact⟩, ?_⟩, ?_⟩
  · rw [(hlin.barrier b be hbe).2, hblocked]
    rfl
  · have hh := hlin.head (.barrier b) nofun
    rw [Lines.lists_barrier, hblocked, Determ.head, hbe] at hh
    exact hh
  · rw [hlin.maxthreads, hring, List.length_map, h.card_eq]
    rfl
  · exact hlin.linking.chain_rotate (show a.lists .active = l₁ ++ y :: l₂ from hl)
  · refine (List.Perm.nodup_iff ?_).mp (hlin.linking.nodup .active)
    rw [Lines.lists_active, hl]
    exact List.perm_append_comm
  · rw [hmap (z :: A) fun t ht => by simpa [or_comm] using ht]
    have hrot : y :: (l₂ ++ l₁) ~r (A ++ [z]).map idx := by
      rw [← hring, hl, ← List.cons_append]
      exact List.isRotated_append
    refine hrot.trans ?_
    rw [List.map_append, List.map_cons]
    exact List.isRotated_append
  · rw [hmap _ fun t ht => ht, ← hring]
    exact hlin.token

/-- No thread returns from a wait before all threads have entered the same one; and when all threads
have entered equally often, the barrier is empty and the ring holds them in the order of their
arrival, with the token at the first one. -/
theorem barrier_episodes {as : List Label} (hs : Convened s T b)
    (hr : Run Meeting.step (fun _ a => only T b a) ⟨s, [], []⟩ as w) :
    (∀ t ∈ T, ∀ u ∈ T, w.returned.count t ≤ w.entered.count u) ∧
      ((∀ t ∈ T, ∀ u ∈ T, w.entered.count t = w.entered.count u) → w.entered ≠ [] →
        ∃ X A z, w.entered = X ++ (A ++ [z]) ∧ Adjourned w.state T b A z) := by
  obtain ⟨R₀, h₀⟩ := hs.session
  have hkeep : ∀ (j : Meeting) a w,
      (∃ x R B, Session j T b (fun t => (s.locals t).threadIndex) x R B) → only T b a →
        j.step a = some w → ∃ x R B, Session w T b (fun t => (s.locals t).threadIndex) x R B :=
    fun _ _ _ ⟨_, _, _, h⟩ ha hstep => h.step ha hstep
  obtain ⟨x, R, B, h⟩ := hr.invariant hkeep ⟨_, R₀, [], h₀⟩
  refine ⟨fun t ht u hu => ?_, fun heq hne => ?_⟩
  · obtain ⟨be, n, -, -, -, hcounts⟩ := h.gate
    exact (hcounts t ht).le.1.trans (hcounts u hu).le.2
  · obtain ⟨z, hz, hzT, -⟩ := h.head_eq
    obtain ⟨k, hk⟩ := h.lap
    have hzR := List.mem_of_head? hz
    have hzB : z ∉ B := fun hm => (List.nodup_append.mp h.nodup).2.2 z hzR z hm rfl
    obtain rfl : B = [] := by
      by_contra hB
      obtain ⟨u, hu⟩ := List.exists_mem_of_ne_nil B hB
      have huT := (h.members u).mp (List.mem_append_right _ hu)
      have hc := heq z hzT u huT
      rw [hk z hzT, hk u huT, if_neg hzB, if_pos hu] at hc
      omega
    have ho := h.order
    rw [if_pos rfl] at ho
    obtain ⟨X, hX⟩ := ho.resolve_left hne
    obtain ⟨A, y, hA⟩ : ∃ A y, R = A ++ [y] :=
      ⟨R.dropLast, R.getLast (List.ne_nil_of_mem hzR), (List.dropLast_append_getLast _).symm⟩
    subst hA
    exact ⟨X, A, y, hX, h.adjourned⟩

theorem convened_barrierRing {n : ℕ} (hn : 0 < n) (coresNumb : ℕ) {count : Obj → ℕ} (hc : count b = n) :
    Convened (State.barrierRing n coresNumb count) (Finset.Icc 1 n) b := by
  have h := State.ring_lined hn coresNumb
  have hmem : ∀ t, t ∈ List.range' 1 n ↔ t ∈ Finset.Icc 1 n := fun t => by
    rw [List.mem_range'_1, Finset.mem_Icc]
    omega
  refine ⟨fun _ _ => rfl, fun _ _ => .inl rfl, fun t ht => ?_, ⟨Finset.range n, ⟨List.range n, fun _ => [],
    fun _ => [], count⟩, List.range' 1 n, ?_, ?_, List.nodup_range', hmem, rfl, ?_⟩, ⟨_, rfl, rfl⟩⟩
  · obtain ⟨h1, h2⟩ := Finset.mem_Icc.mp ht
    exact (if_pos (Nat.sub_one_lt_of_le h1 h2)).trans (Nat.sub_add_cancel h1)
  · refine h.shift h.linking h.token h.active (fun q hq => ?_) h.waiters (fun b' be hb => ?_) h.maxthreads
      (fun i => .inl ⟨rfl, fun q => by cases q <;> exact Iff.rfl⟩) rfl
    · cases q with
      | active => exact absurd rfl hq
      | _ => rfl
    · cases hb
      exact ⟨rfl, rfl⟩
  · dsimp only
    rw [List.range'_eq_map_range, List.map_map]
    conv_lhs => rw [← List.map_id (List.range n)]
    exact List.map_congr_left fun i _ => (Nat.add_sub_cancel_left ..).symm
  · rw [Nat.card_Icc, Nat.add_sub_cancel]
    exact hc

theorem barrier_episodes_pair : ∃ w, Run Meeting.step (fun _ a => only (Finset.Icc 1 2) 0 a)
      ⟨State.barrierRing 2 4 fun _ => 2, [], []⟩ meetingRun w ∧ w.entered = [1, 2] ∧
    ∃ X A z, w.entered = X ++ (A ++ [z]) ∧ Adjourned w.state (Finset.Icc 1 2) 0 A z := by
  have hrun : (execGuarded Meeting.step (fun _ a => only (Finset.Icc 1 2) 0 a)
      ⟨State.barrierRing 2 4 fun _ => 2, [], []⟩ meetingRun).any
        (fun w => decide (w.entered = [1, 2])) = true := by decide +kernel
  obtain ⟨w, hr, hw⟩ := exists_run_of_any hrun
  refine ⟨w, hr, hw, (barrier_episodes (convened_barrierRing Nat.two_pos 4 rfl) hr).2 ?_ ?_⟩
  · rw [hw]
    decide
  · rw [hw]
    exact nofun

end Meeting

end Dthreads.Scheduler
