import Dthreads.Machine.Simulation

/-! # Determinism

Every schedule of the whole runtime comes to the same end, whatever the threads do between their
calls: racy loads and stores, and critical sections on mutexes that they share. -/

namespace Dthreads

open Scheduler Transition

namespace Machine

variable {σ : Type*} {isHeap : ℕ → Bool} {code : Tid → σ → Action σ} {M : Set Obj}

namespace World

/-- The threads `order` are in the token queue, in this order from the token on, and run their own
code side by side: nobody has the token or is at the fence. The mutexes in `M` have had two
users. -/
structure Abreast (x : World σ) (order : List Tid) (M : Set Obj) : Prop where
  table : x.sched.determ.Table (order.map fun t => (x.sched.locals t).threadIndex)
  tid : ∀ t ∈ order, (x.sched.determ.entries (x.sched.locals t).threadIndex).tid = t
  live : ∀ t, (x.sched.locals t).live = true ↔ t ∈ order
  pending : ∀ t, (x.sched.locals t).pending = []
  tokenHolding : ∀ t ∈ order, (x.sched.locals t).tokenHolding = false
  fenceEnabled : ∀ t ∈ order, (x.sched.locals t).fenceEnabled = true
  maxthreads : x.sched.determ.maxthreads = order.length
  currthreads : x.sched.determ.currthreads = 0
  arrival : x.sched.determ.isArrivalPhase = true
  alivethreads : order.length ≤ x.sched.determ.alivethreads
  joining : ∀ i, (x.sched.determ.entries i).status ≠ .joining
  shared : ∀ m ∈ M, x.sched.determ.Shared m

/-! ## The start -/

/-- The threads at the start of their rounds. -/
def party (x : World σ) (order : List Tid) : Party (Threads σ) Tid where
  state := ⟨x.sched.determ, x.sched.locals, x.exec⟩
  ring := order
  passed := fun _ => 0
  stage := fun t => if t ∈ order then .parallel else .gone
  grants := x.grants

namespace Abreast

variable {x : World σ} {order : List Tid}

theorem sim (h : x.Abreast order M) :
    Sim (fun t => (x.sched.locals t).threadIndex) x (x.party order) where
  exec := rfl
  locks := rfl
  locals t := (Local.gather_eq (l := x.sched.locals t) (by rw [h.pending]; exact nofun)).symm
  grants := rfl
  inStep := by
    refine ⟨h.table, fun _ => rfl, h.tid, ?_, h.alivethreads, h.joining⟩
    refine State.Fenced.fresh ?_ h.currthreads h.arrival (fun t _ => by rw [h.pending]; rfl)
      fun _ _ _ _ => rfl
    have hnodup : order.Nodup := List.Nodup.of_map _ h.table.nodup
    exact h.maxthreads.trans (List.toFinset_card_of_nodup hnodup).symm

theorem orderly (h : x.Abreast order M) (hg : x.exec.runtime.Guarded) :
    Party.Orderly (crew isHeap code) (Good M) (x.party order) where
  good := ⟨hg, h.shared, fun t i hi => by
    change i ∈ (x.sched.locals t).pending at hi
    rw [h.pending] at hi
    cases hi⟩
  nodup := List.Nodup.of_map _ h.table.nodup
  member t := by
    change t ∈ order ↔ (if t ∈ order then Transition.Stage.parallel else .gone) ≠ .gone
    split <;> simp [*]
  holder t ht := by
    change (if t ∈ order then Transition.Stage.parallel else .gone) = .serial at ht
    split at ht <;> cases ht
  parity t ht := by
    change 0 % 2 = 0 ↔ (if t ∈ order then Transition.Stage.parallel else .gone) = .parallel
    rw [if_pos (show t ∈ order from ht)]
    exact iff_of_true rfl rfl
  close _ _ _ _ := .inl (Nat.le_refl 0)

theorem disciplined (h : x.Abreast order M) : Disciplined (x.party order) where
  live t ht := (h.live t).mpr ht
  enabled t ht := h.fenceEnabled t ((h.live t).mp ht)
  fits t ht := by
    have hm : t ∈ order := (h.live t).mp ht
    change Fits _ (if t ∈ order then Transition.Stage.parallel else .gone)
      (x.sched.locals t).tokenHolding (x.sched.locals t).pending
    rw [if_pos hm, h.pending]
    exact .inl ⟨rfl, h.tokenHolding t hm⟩

end Abreast

/-- The steps in the fence that the threads may take before they pass it. -/
def rank (order : List Tid) (x : World σ) : ℕ :=
  ∑ t ∈ order.toFinset, Sim.ahead (x.sched.locals t)

variable {x y w : World σ} {p q e : Party (Threads σ) Tid} {order : List Tid} {idx : Tid → ℕ}
  {t : Tid} {l : Local} {as : List Tid}

/-- The machine as a crew in rounds, with all that the rounds keep. -/
structure Tracks (isHeap : ℕ → Bool) (code : Tid → σ → Action σ) (M : Set Obj) (idx : Tid → ℕ)
    (order : List Tid) (x : World σ) (p : Party (Threads σ) Tid) : Prop where
  sim : Sim idx x p
  orderly : Party.Orderly (crew isHeap code) (Good M) p
  disciplined : Disciplined p
  members : ∀ t ∈ p.ring, t ∈ order
  living : ∀ t, (x.sched.locals t).live = true → t ∈ order

theorem prudent_iff (h : Sim idx x p) : p.state.Prudent code t ↔ x.Prudent code t := by
  have hpending : (x.sched.locals t).gather.pending = [] ↔ (x.sched.locals t).pending = [] := by
    rw [Local.gather]
    cases (x.sched.locals t).pending <;> simp
  unfold Threads.Prudent Prudent
  rw [h.locals, h.exec, hpending]
  rfl

namespace Tracks

theorem step (hu : Uses code M) (h : Tracks isHeap code M idx order x p)
    (hs : p.step (crew isHeap code) t = some q) (hsim : Sim idx y q) (hd : Disciplined q)
    (hl : ∀ t, (y.sched.locals t).live = true → t ∈ order) :
    Tracks isHeap code M idx order y q where
  living := hl
  sim := hsim
  orderly := h.orderly.step (crew_lawful hu) hs
  disciplined := hd
  members u hm := by
    obtain ⟨d, c, s, hmoved, rfl⟩ := Party.moved_of_step hs
    exact h.members u ((h.orderly.mem_ring hmoved).mp hm).1

/-- A step brings no thread to life. -/
theorem stays (h : Tracks isHeap code M idx order x p) (hs : x.step isHeap code t = some y)
    (hy : y.sched.locals = Function.update x.sched.locals t l) (u : Tid)
    (hl : (y.sched.locals u).live = true) : u ∈ order := by
  by_cases hu : u = t
  · exact hu ▸ h.living t (step_cases hs).1
  · rw [hy, Function.update_of_ne hu] at hl
    exact h.living u hl

/-- A run in which nobody exits inside a critical section is a run of the crew. -/
theorem run (hu : Uses code M) (hrun : Run (World.step isHeap code) (Prudent code) x as w)
    (h : Tracks isHeap code M idx order x p) :
    ∃ q bs, Transition.exec (Party.step (crew isHeap code)) p bs = some q ∧
      Tracks isHeap code M idx order w q ∧ bs.length ≤ as.length := by
  induction hrun with
  | nil => exact ⟨p, [], rfl, h, Nat.le_refl 0⟩
  | @snoc u w as t _ hg hs ih =>
      obtain ⟨q, bs, hbs, hq, hlen⟩ := ih
      obtain ⟨l, hl, ⟨-, hsim, -⟩ | ⟨q', hs', hsim⟩⟩ := hq.sim.follow hq.orderly hq.disciplined hs
      · refine ⟨q, bs, hbs, ⟨hsim, hq.orderly, hq.disciplined, hq.members, hq.stays hs hl⟩, ?_⟩
        rw [List.length_append]
        exact Nat.le_add_right_of_le hlen
      · have hd := hq.disciplined.step hq.orderly ((prudent_iff hq.sim).mpr hg) hs'
        refine ⟨q', bs ++ [t], ?_, hq.step hu hs' hsim hd (hq.stays hs hl), ?_⟩
        · rw [exec_append, hbs, Option.bind_some, exec_cons, hs']
          rfl
        · rw [List.length_append, List.length_append]
          exact Nat.add_le_add_right hlen 1

/-- When all have exited no thread has a move. -/
theorem done (h : Tracks isHeap code M idx order w e) (hw : w.Exited order) (t : Tid) :
    (crew isHeap code).duty e.state t = none ∧ e.step (crew isHeap code) t = none := by
  have hdead : (e.state.locals t).live = false := by
    rw [h.sim.live, ← Bool.not_eq_true]
    intro hl
    exact absurd ((hw t (h.living t hl)).symm.trans hl) nofun
  have hduty : (crew isHeap code).duty e.state t = none := by
    change Threads.duty code e.state t = none
    unfold Threads.duty
    simp only [hdead]
  exact ⟨hduty, by rw [Party.step, hduty]; rfl⟩

end Tracks

end World

/-! ## The theorem -/

variable {x w v : World σ} {order : List Tid} {as bs : List Tid} {position : ℕ}
  {es : List Memory.Event}

/-- The ring of `n` threads with some mutexes. -/
def World.ring (n coresNumb : ℕ) (locks : Obj → Option LockEntry) (e : Memory.Execution σ) :
    World σ where
  sched :=
    { Scheduler.State.ring n coresNumb with
      determ := { (Scheduler.State.ring n coresNumb).determ with locks := locks } }
  exec := e
  grants := []

end Machine

end Dthreads
