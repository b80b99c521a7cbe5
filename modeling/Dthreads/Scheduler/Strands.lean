import Dthreads.Fence.Gate
import Dthreads.Scheduler.Crossing
import Mathlib.Order.Interval.Finset.Nat

/-! # Barriers and the fence

The threads that `_maxthreads` counts pass the fence together: all of them are between the two fences
of an operation, or none is. The threads of a barrier skip the second fence, so they stay in step
with the others only if there are no others. -/

namespace Dthreads.Scheduler

open Fence Transition

/-! ## The two sides of the fence -/

/-- The thread is between the two fences of an operation; `h` is `_token_holding`. -/
def side : Bool → List Instr → Bool
  | h, [] => h
  | h, i :: is =>
      if i.arrives || i.leaves then !i.keep
      else
        match i with
        | .setTokenHolding b => side b is
        | .getToken | .putToken | .barrierEnter _ => true
        | _ => side h is

/-- Where the thread is at the real barrier: on its way, or blocked since a generation. -/
def atBarrier : List Instr → Option (Obj × Option ℕ)
  | .atomicBegin :: is => atBarrier is
  | .barrierArrive b :: _ => some (b, none)
  | .barrierBlock b g :: _ => some (b, some g)
  | _ => none

/-- What follows an instruction of a mutex or barrier operation. -/
def Fits (h : Bool) (is : List Instr) : Instr → Prop
  | .getToken | .putToken => side h is = true
  | .atomicBegin | .atomicEnd | .countLock | .discountLock | .lockRelease _ | .setTokenHolding _ => True
  | .lockIsowner _ | .isSingleWorkingThread _ | .getLockAgain _ | .lockTest _ .direct
  | .lockSet _ .direct | .endCriticalSection => is = []
  | .lockTest _ .retry | .lockSet _ .retry => is = [] ∧ h = true
  | .barrierEnter _ => is = [] ∧ h = false
  | .barrierArrive _ | .barrierBlock _ _ => side h is = false
  | i => (i.arrives || i.leaves) = true ∧
      if i.keep then is.head? = some .getToken else side h is = false

def holdingAfter (h : Bool) : Instr → Bool
  | .setTokenHolding b => b
  | _ => h

/-- The rest of a mutex or barrier operation. -/
def Good : Bool → List Instr → Prop
  | _, [] => True
  | h, i :: is =>
      Fits h is i ∧ outside is = true ∧ (i = .atomicBegin ∨ atBarrier is = none) ∧
        Good (holdingAfter h i) is

theorem side_fence {h : Bool} {i : Instr} {is : List Instr} (hi : i.arrives = true ∨ i.leaves = true) :
    side h (i :: is) = !i.keep := by
  cases i <;> first | rfl | simp [Instr.arrives, Instr.leaves] at hi

theorem fits_fence {h : Bool} {i : Instr} {is : List Instr} (hi : i.arrives = true ∨ i.leaves = true) :
    Fits h is i ↔ if i.keep then is.head? = some .getToken else side h is = false := by
  have hi' : (i.arrives || i.leaves) = true := by simpa using hi
  cases i <;> first | exact and_iff_right hi' | simp [Instr.arrives, Instr.leaves] at hi'

theorem side_head_getToken {h : Bool} {is : List Instr} (hh : is.head? = some .getToken) :
    side h is = true := by
  cases is with
  | nil => cases hh
  | cons i is =>
      cases hh
      rfl

theorem fence_head (h : Bool) {i : Instr} (is : List Instr) (hi : i.arrives = true ∨ i.leaves = true) :
    atBarrier (i :: is) = none ∧ holdingAfter h i = h ∧
      ∀ (s : State) (t : Tid), s.others t i = s.locals := by
  cases i <;> first | exact ⟨rfl, rfl, fun _ _ => rfl⟩ | simp [Instr.arrives, Instr.leaves] at hi

/-- Who passes the fence changes the side. -/
theorem side_pass {h : Bool} {i : Instr} {is : List Instr} (hi : i.arrives = true ∨ i.leaves = true)
    (hf : Fits h is i) : side h is = !side h (i :: is) := by
  rw [side_fence hi, Bool.not_not]
  rw [fits_fence hi] at hf
  split at hf
  · rename_i hk
    rw [side_head_getToken hf, hk]
  · rename_i hk
    rw [hf, Bool.eq_false_of_not_eq_true hk]

theorem side_eq_false {h : Bool} {is : List Instr} {p : Obj × Option ℕ} (hg : Good h is)
    (ha : atBarrier is = some p) : side h is = false := by
  induction is with
  | nil => cases ha
  | cons i is ih =>
      obtain ⟨hf, -, -, hg'⟩ := hg
      cases i with
      | atomicBegin => exact ih hg' ha
      | barrierArrive b => exact hf
      | barrierBlock b g => exact hf
      | _ => cases ha

theorem outside_of_atBarrier {is : List Instr} {p : Obj × Option ℕ} (ha : atBarrier is = some p) :
    outside is = true := by
  unfold atBarrier at ha
  split at ha <;> first | rfl | cases ha

/-! ## What an instruction does -/

namespace Determ

variable (d : Determ) (m : Obj) (t : Tid)

/-- What mutexes do not touch. -/
def gates (d : Determ) : Counters × (Obj → Option BarrierEntry) := (d.fence, d.barriers)

theorem lockIsowner_gates : (d.lockIsowner m t).1.gates = d.gates := by
  unfold lockIsowner
  (repeat' split) <;> rfl

theorem lockTest_gates : (d.lockTest m).1.gates = d.gates := by
  unfold lockTest
  dsimp only
  split <;> rfl

theorem lockSet_gates : (d.lockSet m t).1.gates = d.gates := by
  unfold lockSet
  split <;> rfl

theorem lockRelease_gates : (d.lockRelease m).gates = d.gates := by
  unfold lockRelease
  split <;> rfl

@[simp] theorem arriveFence_barriers : d.arriveFence.barriers = d.barriers := by
  unfold arriveFence
  dsimp only
  split <;> rfl

@[simp] theorem leaveFence_barriers : d.leaveFence.barriers = d.barriers := by
  unfold leaveFence
  dsimp only
  split <;> rfl

@[simp] theorem setWait_barriers (j : ℕ) (x : Bool) : (d.setWait j x).barriers = d.barriers := rfl

@[simp] theorem decrFence_barriers : d.decrFence.barriers = d.barriers := by
  unfold decrFence
  dsimp only
  split <;> rfl

/-- `barrier_wait` before the last thread: one thread less in the fence. -/
theorem barrierEnter_wait {d : Determ} {b : Obj} {be : BarrierEntry} (my : ℕ)
    (hb : d.barriers b = some be) (hl : be.threads + 1 ≠ be.maxthreads) (hm : 0 < d.maxthreads) :
    ∃ head, (d.barrierEnter my b).1.fence = d.fence.drop ∧
      (d.barrierEnter my b).1.barriers = Function.update d.barriers b
        (some { be with threads := be.threads + 1, head := head }) ∧
      (d.barrierEnter my b).2 = false := by
  unfold barrierEnter
  rw [hb]
  dsimp only
  rw [if_neg hl]
  exact ⟨_, fence_drop _ hm, decrFence_barriers _, rfl⟩

/-- The last thread: the others are back in the fence. -/
theorem barrierEnter_last {d : Determ} {b : Obj} {be : BarrierEntry} (my : ℕ)
    (hb : d.barriers b = some be) (hl : be.threads + 1 = be.maxthreads) :
    (d.barrierEnter my b).1.fence = ⟨d.isArrivalPhase, d.currthreads, d.maxthreads + be.threads⟩ ∧
      (d.barrierEnter my b).1.barriers = Function.update d.barriers b
        (some { be with threads := 0, head := none }) ∧
      (d.barrierEnter my b).2 = true := by
  have hm : be.threads = be.maxthreads - 1 := by omega
  unfold barrierEnter
  rw [hb, hm]
  dsimp only
  rw [if_pos (hm ▸ hl)]
  exact ⟨rfl, rfl, rfl⟩

end Determ

/-- The instructions of mutex operations outside the fence. -/
def Instr.simple : Instr → Bool
  | .getToken | .putToken | .atomicBegin | .atomicEnd | .countLock | .discountLock | .lockRelease _
  | .setTokenHolding _ | .lockIsowner _ | .isSingleWorkingThread _ | .getLockAgain _
  | .lockTest _ .direct | .lockSet _ .direct | .endCriticalSection | .lockTest _ .retry
  | .lockSet _ .retry => true
  | _ => false

theorem fits_cases {h : Bool} {i : Instr} {is : List Instr} (hf : Fits h is i) :
    (i.arrives = true ∨ i.leaves = true) ∨ i.simple = true ∨ (∃ b, i = .barrierEnter b) ∨
      (∃ b, i = .barrierArrive b) ∨ ∃ b g, i = .barrierBlock b g := by
  cases i with
  | barrierEnter b => exact .inr (.inr (.inl ⟨b, rfl⟩))
  | barrierArrive b => exact .inr (.inr (.inr (.inl ⟨b, rfl⟩)))
  | barrierBlock b g => exact .inr (.inr (.inr (.inr ⟨b, g, rfl⟩)))
  | lockTest m k =>
      cases k with
      | condWait => exact absurd hf.1 nofun
      | direct | retry => exact .inr (.inl rfl)
  | lockSet m k =>
      cases k with
      | condWait => exact absurd hf.1 nofun
      | direct | retry => exact .inr (.inl rfl)
  | _ => first | exact .inr (.inl rfl) | exact .inl (by simpa using hf.1)

theorem own_fence_barriers {s : State} {t : Tid} {rest : List Instr} {i : Instr} {d : Determ}
    {l : Local} (h : s.own t rest i = some (d, l)) (hi : i.arrives = true ∨ i.leaves = true) :
    d.barriers = s.determ.barriers := by
  have harrive : ∀ k, some (s.determ.arrive (s.locals t) k rest) = some (d, l) →
      d.barriers = s.determ.barriers := by
    intro k hk
    unfold Determ.arrive at hk
    split at hk <;> cases hk <;> simp
  cases i with
  | fenceEnter k =>
      simp only [State.own] at h
      split at h
      · exact harrive k h
      · split at h <;> cases h <;> rfl
  | spinArrival k =>
      simp only [State.own] at h
      split at h <;> cases h
      rfl
  | fenceArrive k => exact harrive k h
  | condArrival k =>
      simp only [State.own] at h
      split at h
      · exact harrive k h
      · cases h
  | spinRelease k =>
      simp only [State.own] at h
      split at h <;> cases h
      rfl
  | fenceLeave k =>
      cases h
      simp
  | condRelease k =>
      simp only [State.own] at h
      split at h <;> cases h
      simp
  | _ => rcases hi with hi | hi <;> cases hi

/-- What `lock_acquire` is followed by keeps the side. -/
theorem good_lockFailed {h : Bool} {m : Obj} {k : Caller} (hk : k = .direct ∨ k = .retry ∧ h = true) :
    Good h (Local.lockFailed m k) ∧ side h (Local.lockFailed m k) = h ∧
      outside (Local.lockFailed m k) = true ∧ atBarrier (Local.lockFailed m k) = none := by
  rcases hk with rfl | ⟨rfl, rfl⟩
  · exact ⟨⟨rfl, rfl, .inr rfl, trivial⟩, rfl, rfl, rfl⟩
  · simp [Local.lockFailed, Local.waitFence, Good, Fits, side, outside, atBarrier, Instr.arrives,
      Instr.leaves, Instr.committed, Instr.keep]

/-- An instruction of a mutex operation leaves the fence and the barriers alone, and its thread stays
on its side. -/
theorem own_simple {s : State} {t : Tid} {rest : List Instr} {i : Instr} {d : Determ} {l : Local}
    (h : s.own t rest i = some (d, l)) (hi : i.simple = true)
    (hg : Good (s.locals t).tokenHolding (i :: rest)) :
    d.gates = s.determ.gates ∧
      (l.live, l.fenceEnabled) = ((s.locals t).live, (s.locals t).fenceEnabled) ∧ Good l.tokenHolding l.pending ∧
      side l.tokenHolding l.pending = side (s.locals t).tokenHolding (i :: rest) ∧
      outside l.pending = true ∧ atBarrier l.pending = atBarrier (i :: rest) ∧
      s.others t i = s.locals := by
  obtain ⟨hf, ho, ha, hg'⟩ := hg
  cases i with
  | getToken =>
      simp only [State.own] at h
      split at h <;> cases h
      exact ⟨rfl, rfl, hg', hf, ho, ha.resolve_left (by rintro ⟨⟩), rfl⟩
  | putToken =>
      cases h
      exact ⟨rfl, rfl, hg', hf, ho, ha.resolve_left (by rintro ⟨⟩), rfl⟩
  | atomicBegin =>
      cases h
      exact ⟨rfl, rfl, hg', rfl, ho, rfl, rfl⟩
  | atomicEnd | countLock | discountLock | setTokenHolding b =>
      cases h
      exact ⟨rfl, rfl, hg', rfl, ho, ha.resolve_left (by rintro ⟨⟩), rfl⟩
  | lockRelease m =>
      cases h
      exact ⟨Determ.lockRelease_gates .., rfl, hg', rfl, ho, ha.resolve_left (by rintro ⟨⟩), rfl⟩
  | lockIsowner m =>
      obtain rfl : rest = [] := hf
      cases h
      refine ⟨Determ.lockIsowner_gates .., rfl, ?_⟩
      cases (s.determ.lockIsowner m t).2 <;>
        exact ⟨⟨rfl, rfl, .inr rfl, trivial⟩, rfl, rfl, rfl, rfl⟩
  | isSingleWorkingThread m =>
      obtain rfl : rest = [] := hf
      cases h
      refine ⟨rfl, rfl, ?_⟩
      cases s.determ.isSingleWorkingThread <;>
        exact ⟨⟨rfl, rfl, .inr rfl, trivial⟩, rfl, rfl, rfl, rfl⟩
  | getLockAgain m =>
      obtain rfl : rest = [] := hf
      cases h
      refine ⟨rfl, rfl, ?_⟩
      rw [Local.goto, List.append_nil]
      dsimp only
      unfold Local.getLockAgain
      cases (s.locals t).tokenHolding <;>
        simp [Local.waitToken, Local.waitFence, Good, Fits, side, outside, atBarrier, holdingAfter,
          Instr.arrives, Instr.leaves, Instr.committed, Instr.keep, State.others]
  | lockTest m k =>
      have hk : rest = [] ∧ (k = .direct ∨ k = .retry ∧ (s.locals t).tokenHolding = true) := by
        cases k with
        | direct => exact ⟨hf, .inl rfl⟩
        | retry => exact ⟨hf.1, .inr ⟨rfl, hf.2⟩⟩
        | condWait => cases hi
      obtain ⟨rfl, hk⟩ := hk
      simp only [State.own] at h
      split at h <;> cases h <;> refine ⟨Determ.lockTest_gates .., rfl, ?_⟩
      · refine ⟨⟨?_, rfl, .inr rfl, trivial⟩, ?_, rfl, rfl, rfl⟩
        · rcases hk with rfl | ⟨rfl, hh⟩
          · rfl
          · exact ⟨rfl, hh⟩
        · rfl
      · obtain ⟨h1, h2, h3, h4⟩ := good_lockFailed (m := m) hk
        rw [List.append_nil]
        exact ⟨h1, h2, h3, h4, rfl⟩
  | lockSet m k =>
      have hk : rest = [] ∧ (k = .direct ∨ k = .retry ∧ (s.locals t).tokenHolding = true) := by
        cases k with
        | direct => exact ⟨hf, .inl rfl⟩
        | retry => exact ⟨hf.1, .inr ⟨rfl, hf.2⟩⟩
        | condWait => cases hi
      obtain ⟨rfl, hk⟩ := hk
      simp only [State.own] at h
      split at h <;> cases h <;> refine ⟨Determ.lockSet_gates .., rfl, ?_⟩
      · exact ⟨trivial, rfl, rfl, rfl, rfl⟩
      · obtain ⟨h1, h2, h3, h4⟩ := good_lockFailed (m := m) hk
        rw [List.append_nil]
        exact ⟨h1, h2, h3, h4, rfl⟩
  | endCriticalSection =>
      obtain rfl : rest = [] := hf
      cases h
      refine ⟨rfl, rfl, ?_⟩
      rw [Local.goto, List.append_nil]
      dsimp only
      unfold Local.endCriticalSection
      split
      · rename_i hc
        rw [hc.2]
        simp [Local.waitFence, Good, Fits, side, outside, atBarrier, holdingAfter, Instr.arrives,
          Instr.leaves, Instr.committed, Instr.keep, State.others]
      · exact ⟨trivial, rfl, rfl, rfl, rfl⟩
  | _ => cases hi

/-! ## The runs -/

namespace State

/-- The threads lock and unlock mutexes and wait at barriers, the latter outside the critical sections
that they hold the token for. -/
def calls (s : State) : Label → Bool
  | .call _ (.mutexLock _) | .call _ (.mutexUnlock _) | .run _ => true
  | .call t (.barrierWait _) => !(s.locals t).tokenHolding
  | .call _ _ => false

/-- The next instruction of `t` completes a barrier. -/
def completes (s : State) (t : Tid) : Bool :=
  match (s.locals t).pending with
  | .barrierEnter b :: _ => (s.determ.barriers b).any fun be => be.threads + 1 = be.maxthreads
  | _ => false

/-- Who completes a barrier is the only thread that `_maxthreads` counts. -/
def handsOver (s : State) : Label → Bool
  | .run t => !s.completes t || s.determ.maxthreads == 1
  | .call .. => true

variable {s w : State} {t u : Tid} {op : Op}

theorem good_program (hc : s.calls (.call t op) = true) (hf : (s.locals t).fenceEnabled = true) :
    let is := (s.locals t).program op
    Good (s.locals t).tokenHolding is ∧ side (s.locals t).tokenHolding is = (s.locals t).tokenHolding ∧
      outside is = true ∧ atBarrier is = none := by
  cases op with
  | mutexLock m =>
      rw [Local.program, Local.mutexLock, Local.wakeChildren, if_pos hf]
      exact ⟨⟨trivial, rfl, .inr rfl, rfl, rfl, .inr rfl, trivial⟩, rfl, rfl, rfl⟩
  | mutexUnlock m =>
      rw [Local.program, Local.mutexUnlock, if_pos hf]
      exact ⟨⟨trivial, rfl, .inr rfl, trivial, rfl, .inr rfl, rfl, rfl, .inr rfl, trivial⟩, rfl, rfl, rfl⟩
  | barrierWait b =>
      have hh : (s.locals t).tokenHolding = false := by simpa [calls] using hc
      rw [Local.program, Local.barrierWait, Local.wakeChildren, if_pos hf, hh]
      simp [Local.waitToken, Local.waitFence, Good, Fits, side, outside, atBarrier, holdingAfter,
        Instr.arrives, Instr.leaves, Instr.committed, Instr.keep]
  | _ => cases hc

/-! ## The invariant -/

/-- The side of the fence that `t` is on. -/
def half (s : State) (t : Tid) : Bool := side (s.locals t).tokenHolding (s.locals t).pending

def gateOf (s : State) (t : Tid) : Option (Obj × Option ℕ) := atBarrier (s.locals t).pending

/-- The threads of `T` on their way to the real barrier, or blocked at it. -/
def bound (s : State) (T : Finset Tid) (b : Obj) (g : Option ℕ) : Finset Tid :=
  T.filter fun t => s.gateOf t = some (b, g)

/-- The entry of barrier `b` and the threads that it holds agree. -/
structure Gated (s : State) (T : Finset Tid) (place : Tid → Option Obj) (b : Obj) (be : BarrierEntry) :
    Prop where
  entry : s.determ.barriers b = some be
  old : ∀ t ∈ T, ∀ g, s.gateOf t = some (b, some g) → g ≤ be.generation
  gate : Gate be.maxthreads be.threads be.arrived (s.bound T b none)
    (s.bound T b (some be.generation)) (T.filter fun t => place t = some b)

/-- The threads `T`; `place` names the barrier that has taken a thread out of `_maxthreads`. -/
structure Parted (s : State) (T : Finset Tid) (place : Tid → Option Obj) : Prop where
  live : ∀ t, (s.locals t).live = true ↔ t ∈ T
  enabled : ∀ t ∈ T, (s.locals t).fenceEnabled = true
  good : ∀ t ∈ T, Good (s.locals t).tokenHolding (s.locals t).pending
  fence : s.Fenced not (T.filter fun t => place t = none) s.half
  gated : ∀ b, ∃ be, s.Gated T place b be

variable {T : Finset Tid} {place place' : Tid → Option Obj} {b : Obj} {be : BarrierEntry}

theorem mem_bound {g : Option ℕ} : u ∈ s.bound T b g ↔ u ∈ T ∧ s.gateOf u = some (b, g) :=
  Finset.mem_filter

section Bound

variable {g : Option ℕ} (ho : ∀ u, u ≠ t → w.locals u = s.locals u)
include ho

theorem bound_insert (ht : t ∈ T) (hw : w.gateOf t = some (b, g)) :
    w.bound T b g = insert t (s.bound T b g) := by
  ext u
  rw [Finset.mem_insert, mem_bound, mem_bound]
  by_cases hut : u = t
  · simp [hut, ht, hw]
  · rw [gateOf, ho u hut, gateOf]
    simp [hut]

theorem bound_erase (hw : w.gateOf t ≠ some (b, g)) : w.bound T b g = (s.bound T b g).erase t := by
  ext u
  rw [Finset.mem_erase, mem_bound, mem_bound]
  by_cases hut : u = t
  · simp [hut, hw]
  · rw [gateOf, ho u hut, gateOf]
    simp [hut]

end Bound

/-- A step that does not concern barrier `b`. -/
theorem Gated.frame (h : s.Gated T place b be) (hb : w.determ.barriers b = s.determ.barriers b)
    (hg : ∀ u ∈ T, w.gateOf u = s.gateOf u ∨ (∀ g, w.gateOf u ≠ some (b, g)) ∧
      s.gateOf u ≠ some (b, none) ∧ s.gateOf u ≠ some (b, some be.generation))
    (hp : ∀ u ∈ T, place' u = some b ↔ place u = some b) : w.Gated T place' b be where
  entry := hb.trans h.entry
  old u hu g hug := by
    rcases hg u hu with he | ⟨hn, -, -⟩
    · exact h.old u hu g (he ▸ hug)
    · exact absurd hug (hn _)
  gate := by
    have hnone : w.bound T b none = s.bound T b none := Finset.filter_congr fun u hu => by
      rcases hg u hu with he | ⟨hn, h1, -⟩
      · rw [he]
      · exact iff_of_false (hn _) h1
    have hsome : w.bound T b (some be.generation) = s.bound T b (some be.generation) :=
      Finset.filter_congr fun u hu => by
        rcases hg u hu with he | ⟨hn, -, h2⟩
        · rw [he]
        · exact iff_of_false (hn _) h2
    have hplace : T.filter (fun t => place' t = some b) = T.filter fun t => place t = some b :=
      Finset.filter_congr hp
    rw [hnone, hsome, hplace]
    exact h.gate

namespace Parted

/-- Who is placed at a barrier is at it. -/
theorem at_of_place (h : s.Parted T place) (ht : t ∈ T) (hp : place t = some b) :
    ∃ g, s.gateOf t = some (b, g) := by
  obtain ⟨be, hb⟩ := h.gated b
  rcases Finset.mem_union.mp (hb.gate.placed_sub (Finset.mem_filter.mpr ⟨ht, hp⟩)) with hm | hm
  · exact ⟨_, (mem_bound.mp hm).2⟩
  · exact ⟨_, (mem_bound.mp hm).2⟩

theorem place_eq_none (h : s.Parted T place) (ht : t ∈ T) (hg : s.gateOf t = none) :
    place t = none := by
  cases hp : place t with
  | none => rfl
  | some b =>
      obtain ⟨g, hg'⟩ := h.at_of_place ht hp
      rw [hg] at hg'
      cases hg'

/-- While a member is between the fences, the threads at a barrier are placed at it. -/
theorem placed {g : Option ℕ} (h : s.Parted T place) (ht : t ∈ T) (hg : s.gateOf t = none)
    (hs : s.half t = true) (hw : (s.locals t).waits = false) (hu : u ∈ T)
    (hug : s.gateOf u = some (b, g)) : place u = some b := by
  cases hp : place u with
  | some b' =>
      obtain ⟨g', hug'⟩ := h.at_of_place hu hp
      rw [hug] at hug'
      cases hug'
      rfl
  | none =>
      have hhalf : s.half u = false := side_eq_false (h.good u hu) hug
      have hwu : (s.locals u).waits = false := (Local.of_outside (outside_of_atBarrier hug)).1
      have hsame := h.fence.meets.same_missing
        (Finset.mem_filter.mpr ⟨ht, h.place_eq_none ht hg⟩)
        (fun hm => absurd (hw.symm.trans (mem_crew.mp hm).2) nofun)
        (Finset.mem_filter.mpr ⟨hu, hp⟩)
        (fun hm => absurd (hwu.symm.trans (mem_crew.mp hm).2) nofun)
      rw [hs, hhalf] at hsame
      cases hsame

theorem placed_gate {g : ℕ} (h : s.Parted T place) (ht : t ∈ T) (hg : s.gateOf t = none)
    (hs : s.half t = true) (hw : (s.locals t).waits = false) :
    (∀ u ∈ s.bound T b none ∪ s.bound T b (some g), u ∈ T.filter fun u => place u = some b) ∧
      t ∉ s.bound T b none ∪ s.bound T b (some g) := by
  constructor
  · intro u hu
    rcases Finset.mem_union.mp hu with hm | hm <;> obtain ⟨huT, hug⟩ := mem_bound.mp hm <;>
      exact Finset.mem_filter.mpr ⟨huT, h.placed ht hg hs hw huT hug⟩
  · intro hu
    rcases Finset.mem_union.mp hu with hm | hm <;> obtain ⟨-, hug⟩ := mem_bound.mp hm <;>
      exact absurd (hg.symm.trans hug) nofun

/-- A step that leaves the barriers alone and nobody's place. -/
theorem same_gates (h : s.Parted T place) (hb : w.determ.barriers = s.determ.barriers)
    (hg : ∀ u ∈ T, w.gateOf u = s.gateOf u) (b : Obj) : ∃ be, w.Gated T place b be := by
  obtain ⟨be, hbe⟩ := h.gated b
  exact ⟨be, hbe.frame (congrFun hb b) (fun u hu => .inl (hg u hu)) fun _ _ => Iff.rfl⟩

section Step

variable (h : s.Parted T place) (ho : ∀ u, u ≠ t → w.locals u = s.locals u)
  (hl : (w.locals t).live = (s.locals t).live)
  (he : (w.locals t).fenceEnabled = (s.locals t).fenceEnabled)
  (hgood : Good (w.locals t).tokenHolding (w.locals t).pending)
include h ho hl he hgood

theorem move (hf : w.Fenced not (T.filter fun u => place' u = none) w.half)
    (hg : ∀ b, ∃ be, w.Gated T place' b be) : w.Parted T place' where
  live u := by
    by_cases hut : u = t
    · rw [hut, hl]
      exact h.live t
    · rw [ho u hut]
      exact h.live u
  enabled u hu := by
    by_cases hut : u = t
    · rw [hut, he]
      exact h.enabled t (hut ▸ hu)
    · rw [ho u hut]
      exact h.enabled u hu
  good u hu := by
    by_cases hut : u = t
    · rw [hut]
      exact hgood
    · rw [ho u hut]
      exact h.good u hu
  fence := hf
  gated := hg

/-- A step outside the fence on one side of it. -/
theorem move_gates (hf : w.determ.fence = s.determ.fence) (hs : w.half t = s.half t)
    (hout : (w.locals t).pending = (s.locals t).pending ∨
      outside (s.locals t).pending = true ∧ outside (w.locals t).pending = true)
    (hg : ∀ b, ∃ be, w.Gated T place b be) : w.Parted T place := by
  refine h.move ho hl he hgood (h.fence.frame hf (fun u _ => ?_) fun u _ => ?_) hg
  · by_cases hut : u = t
    · rw [hut]
      exact hout
    · exact .inl (by rw [ho u hut])
  · by_cases hut : u = t
    · rw [hut, hs]
    · rw [half, ho u hut, half]

/-- The same away from the barriers. -/
theorem move_outside (hf : w.determ.gates = s.determ.gates) (hs : w.half t = s.half t)
    (hout : (w.locals t).pending = (s.locals t).pending ∨
      outside (s.locals t).pending = true ∧ outside (w.locals t).pending = true)
    (hg : w.gateOf t = s.gateOf t) : w.Parted T place := by
  refine h.move_gates ho hl he hgood (congrArg Prod.fst hf) hs hout
    (h.same_gates (congrArg Prod.snd hf) fun u _ => ?_)
  by_cases hut : u = t
  · rw [hut, hg]
  · rw [gateOf, ho u hut, gateOf]

end Step

/-! ## Steps -/

theorem called (h : s.Parted T place) (hl : (s.locals t).live = true)
    (hp : (s.locals t).pending = []) (hc : s.calls (.call t op) = true) :
    (s.called t op).Parted T place := by
  obtain ⟨hgood, hside, hout, hat⟩ := good_program hc (h.enabled t ((h.live t).mp hl))
  have hlt : (s.called t op).locals t = (s.locals t).goto ((s.locals t).program op) := by
    rw [called_locals, if_pos rfl]
  refine h.move_outside (t := t) (fun u hut => ?_) ?_ ?_ ?_ rfl ?_ (.inr ⟨?_, ?_⟩) ?_
  · rw [called_locals, if_neg hut]
  · rw [hlt]
    rfl
  · rw [hlt]
    rfl
  · rw [hlt]
    exact hgood
  · rw [half, hlt, half, hp]
    exact hside
  · rw [hp]
    rfl
  · rw [hlt]
    exact hout
  · rw [gateOf, hlt, gateOf, hp]
    exact hat

section Run

variable {rest : List Instr} {i : Instr} {d : Determ} {l : Local}

/-- A step in the fence. -/
theorem own_fence (h : s.Parted T place) (hl : (s.locals t).live = true)
    (hp : (s.locals t).pending = i :: rest) (hs : s.own t rest i = some (d, l))
    (hi : i.arrives = true ∨ i.leaves = true) :
    (⟨d, Function.update (s.others t i) t l, s.created i⟩ : State).Parted T place := by
  have ht : t ∈ T := (h.live t).mp hl
  obtain ⟨hf, hout, hat, hg⟩ : Good (s.locals t).tokenHolding (i :: rest) := hp ▸ h.good t ht
  obtain ⟨hhead, hhold, hothers⟩ := fence_head (s.locals t).tokenHolding rest hi
  rw [hhold] at hg
  have hplace : place t = none := h.place_eq_none ht (by rw [gateOf, hp, hhead])
  have hm : t ∈ T.filter fun u => place u = none := Finset.mem_filter.mpr ⟨ht, hplace⟩
  obtain ⟨js, hx, rfl⟩ := own_cross hs hi fun hlv =>
    h.fence.curr_pos hm ((Local.waits_cons hp).trans hlv)
  have hb : d.barriers = s.determ.barriers := own_fence_barriers hs hi
  have hrest : atBarrier rest = none := hat.resolve_left fun he => by
    subst he
    rcases hi with hi | hi <;> cases hi
  rw [hothers]
  set w : State := ⟨d, Function.update s.locals t ((s.locals t).goto (js ++ rest)), s.created i⟩ with hw
  have hwt : w.locals t = (s.locals t).goto (js ++ rest) := Function.update_self ..
  have hwo : ∀ u, u ≠ t → w.locals u = s.locals u := fun u hut => Function.update_of_ne hut ..
  have hwhalf : ∀ u, u ≠ t → w.half u = s.half u := fun u hut => by rw [half, hwo u hut, half]
  have hfence := h.fence.cross hm hp hout hx (congrArg Local.pending hwt)
    fun u _ hut => congrArg Local.pending (hwo u hut)
  have hhalf : s.half t = !i.keep := by rw [half, hp, side_fence hi]
  have hgate : ∀ u ∈ T, w.gateOf u = s.gateOf u := fun u _ => by
    by_cases hut : u = t
    · subst hut
      rw [gateOf, gateOf, hwt, hp, hhead]
      rcases hx.next with rfl | ⟨j, rfl, hj, -⟩
      · exact hrest
      · exact (fence_head true _ hj).1
    · rw [gateOf, hwo u hut, gateOf]
  rcases hx.next with rfl | ⟨j, rfl, hj, hk⟩
  · refine h.move hwo (by rw [hwt]; rfl) (by rw [hwt]; rfl) (by rw [hwt]; exact hg) ?_
      (h.same_gates hb hgate)
    rw [if_pos rfl] at hfence
    refine hfence.frame rfl (fun _ _ => .inl rfl) fun u _ => ?_
    by_cases hut : u = t
    · rw [hut, Function.update_self, half, hwt, half, hp]
      exact side_pass hi hf
    · rw [Function.update_of_ne hut, hwhalf u hut]
  · have hgood : Good (s.locals t).tokenHolding (j :: rest) := by
      refine ⟨?_, hout, .inr hrest, ?_⟩
      · rw [fits_fence hj, hk, ← fits_fence hi]
        exact hf
      · rw [(fence_head _ rest hj).2.1]
        exact hg
    refine h.move hwo (by rw [hwt]; rfl) (by rw [hwt]; rfl) (by rw [hwt]; exact hgood) ?_
      (h.same_gates hb hgate)
    rw [if_neg (List.cons_ne_nil _ _)] at hfence
    refine hfence.frame rfl (fun _ _ => .inl rfl) fun u _ => ?_
    by_cases hut : u = t
    · rw [hut, hhalf, half, hwt]
      exact (side_fence hj).trans (by rw [hk])
    · exact hwhalf u hut

/-- A step outside the fence and away from the barriers. -/
theorem own_away (h : s.Parted T place) (hl : (s.locals t).live = true)
    (hp : (s.locals t).pending = i :: rest) (hs : s.own t rest i = some (d, l))
    (hi : i.simple = true) :
    (⟨d, Function.update (s.others t i) t l, s.created i⟩ : State).Parted T place := by
  have hg := h.good t ((h.live t).mp hl)
  rw [hp] at hg
  obtain ⟨hgates, hle, hgood, hside, hout, hat, hothers⟩ := own_simple hs hi hg
  rw [hothers]
  set w : State := ⟨d, Function.update s.locals t l, s.created i⟩ with hw
  have hwt : w.locals t = l := Function.update_self ..
  refine h.move_outside (t := t) (fun u hut => Function.update_of_ne hut ..) ?_ ?_ ?_ hgates ?_
    (.inr ⟨?_, ?_⟩) ?_
  · rw [hwt]
    exact congrArg Prod.fst hle
  · rw [hwt]
    exact congrArg Prod.snd hle
  · rw [hwt]
    exact hgood
  · rw [half, hwt, half, hp]
    exact hside
  · rw [hp]
    cases i <;> first | rfl | cases hi
  · rw [hwt]
    exact hout
  · rw [gateOf, hwt, gateOf, hp]
    exact hat

section Barrier

variable {js : List Instr} (h : s.Parted T place) (ht : t ∈ T)
  (ho : ∀ u, u ≠ t → w.locals u = s.locals u) (hwt : w.locals t = (s.locals t).goto js)
include h ht ho hwt

theorem other_gate {b' : Obj} (hb : w.determ.barriers b' = s.determ.barriers b')
    (hs : ∀ g, s.gateOf t ≠ some (b', g)) (hw : ∀ g, atBarrier js ≠ some (b', g)) :
    ∃ be, w.Gated T place b' be := by
  obtain ⟨be, hbe⟩ := h.gated b'
  refine ⟨be, hbe.frame hb (fun u _ => ?_) fun _ _ => Iff.rfl⟩
  by_cases hut : u = t
  · subst hut
    refine .inr ⟨?_, hs _, hs _⟩
    rw [gateOf, hwt]
    exact hw
  · exact .inl (by rw [gateOf, ho u hut, gateOf])

/-- A thread leaves the real barrier. -/
theorem leave_gate {g : ℕ} (hp : (s.locals t).pending = .barrierBlock b g :: js)
    (hd : w.determ = s.determ) (hbe : s.Gated T place b be) (hne : be.generation ≠ g) :
    w.Parted T place := by
  obtain ⟨hf, hout, hat, hgood⟩ : Good (s.locals t).tokenHolding (.barrierBlock b g :: js) :=
    hp ▸ h.good t ht
  have hjs : atBarrier js = none := hat.resolve_left nofun
  have hgt : s.gateOf t = some (b, some g) := by
    rw [gateOf, hp]
    rfl
  refine h.move_gates ho (by rw [hwt]; rfl) (by rw [hwt]; rfl) (by rw [hwt]; exact hgood)
    (by rw [hd]) ?_ (.inr ⟨by rw [hp]; rfl, by rw [hwt]; exact hout⟩) fun b' => ?_
  · rw [half, hwt, half, hp]
    rfl
  · by_cases hb : b' = b
    · subst hb
      refine ⟨be, hbe.frame (by rw [hd]) (fun u _ => ?_) fun _ _ => Iff.rfl⟩
      by_cases hut : u = t
      · subst hut
        rw [hgt, gateOf, hwt]
        refine .inr ⟨fun g' => ?_, nofun, fun he => ?_⟩
        · rw [Local.goto_pending, hjs]
          exact nofun
        · cases he
          exact hne rfl
      · exact .inl (by rw [gateOf, ho u hut, gateOf])
    · refine h.other_gate ht ho hwt (by rw [hd]) (fun g' he => ?_) fun g' he => ?_
      · rw [hgt] at he
        cases he
        exact hb rfl
      · rw [hjs] at he
        cases he

/-- A thread arrives at the real barrier. -/
theorem arrive_gate {be' : BarrierEntry} (hp : (s.locals t).pending = .barrierArrive b :: rest)
    (hgood : Good (s.locals t).tokenHolding js) (hs : side (s.locals t).tokenHolding js = s.half t)
    (hout : outside js = true) (hjs : ∀ b' g, atBarrier js = some (b', g) → b' = b)
    (hd : w.determ = s.determ.setBarrier b be') (hb : w.Gated T place b be') : w.Parted T place := by
  have hgt : s.gateOf t = some (b, none) := by
    rw [gateOf, hp]
    rfl
  refine h.move_gates ho (by rw [hwt]; rfl) (by rw [hwt]; rfl) (by rw [hwt]; exact hgood)
    (by rw [hd]; rfl) ?_ (.inr ⟨by rw [hp]; rfl, by rw [hwt]; exact hout⟩) fun b' => ?_
  · rw [half, hwt]
    exact hs
  · by_cases hbb : b' = b
    · exact hbb ▸ ⟨be', hb⟩
    · refine h.other_gate ht ho hwt ?_ (fun g' he => ?_) fun g' he => hbb (hjs _ _ he)
      · rw [hd]
        exact Function.update_of_ne hbb ..
      · rw [hgt] at he
        cases he
        exact hbb rfl

/-- A thread waits at the real barrier. -/
theorem wait_gate (hp : (s.locals t).pending = .barrierArrive b :: rest)
    (hj : js = .barrierBlock b be.generation :: rest) (hbe : s.Gated T place b be)
    (hd : w.determ = s.determ.setBarrier b { be with arrived := be.arrived + 1 }) :
    w.Parted T place := by
  obtain ⟨hf, hout, hat, hgood⟩ : Good (s.locals t).tokenHolding (.barrierArrive b :: rest) :=
    hp ▸ h.good t ht
  subst hj
  have hgt : s.gateOf t = some (b, none) := by
    rw [gateOf, hp]
    rfl
  have hgw : w.gateOf t = some (b, some be.generation) := by
    rw [gateOf, hwt]
    rfl
  refine h.arrive_gate ht ho hwt hp ⟨hf, hout, .inr (hat.resolve_left nofun), hgood⟩
    (by rw [half, hp]; rfl) rfl (fun b' g he => by cases he; rfl) hd
    ⟨by rw [hd]; exact Function.update_self .., fun u hu g' hg' => ?_, ?_⟩
  · by_cases hut : u = t
    · subst hut
      rw [hgw] at hg'
      cases hg'
      exact le_rfl
    · rw [gateOf, ho u hut] at hg'
      exact hbe.old u hu g' hg'
  · rw [bound_erase ho (by rw [hgw]; exact nofun), bound_insert ho ht hgw]
    exact hbe.gate.wait (mem_bound.mpr ⟨ht, hgt⟩)

/-- The last thread arrives at the real barrier. -/
theorem open_gate (hp : (s.locals t).pending = .barrierArrive b :: js) (hbe : s.Gated T place b be)
    (hl : be.arrived + 1 = be.maxthreads)
    (hd : w.determ = s.determ.setBarrier b { be with arrived := 0, generation := be.generation + 1 }) :
    w.Parted T place := by
  obtain ⟨hf, hout, hat, hgood⟩ : Good (s.locals t).tokenHolding (.barrierArrive b :: js) :=
    hp ▸ h.good t ht
  have hjs : atBarrier js = none := hat.resolve_left nofun
  have hgt : s.gateOf t = some (b, none) := by
    rw [gateOf, hp]
    rfl
  have hgw : w.gateOf t = none := by
    rw [gateOf, hwt]
    exact hjs
  have hold : ∀ u ∈ T, ∀ g, w.gateOf u = some (b, some g) → g ≤ be.generation := by
    intro u hu g hg
    by_cases hut : u = t
    · subst hut
      rw [hgw] at hg
      cases hg
    · rw [gateOf, ho u hut] at hg
      exact hbe.old u hu g hg
  refine h.arrive_gate ht ho hwt hp hgood (by rw [half, hp]; rfl) hout
    (fun b' g he => by rw [hjs] at he; cases he) hd
    ⟨by rw [hd]; exact Function.update_self .., fun u hu g hg => (hold u hu g hg).trans (Nat.le_succ _), ?_⟩
  have hnone : w.bound T b (some (be.generation + 1)) = ∅ := by
    rw [bound, Finset.filter_eq_empty_iff]
    intro u hu hg
    exact absurd (hold u hu _ hg) (Nat.not_succ_le_self _)
  rw [bound_erase ho (by rw [hgw]; exact nofun), hnone]
  exact (hbe.gate.opens (mem_bound.mpr ⟨ht, hgt⟩) hl).2.2

end Barrier

section Enter

variable {head : Option ℕ} (h : s.Parted T place) (ht : t ∈ T)
  (ho : ∀ u, u ≠ t → w.locals u = s.locals u)
  (hp : (s.locals t).pending = .barrierEnter b :: rest)
  (hbe : s.Gated T place b be)
include h ht ho hp hbe

/-- A thread leaves the fence and waits at the barrier. -/
theorem enlist (hwt : w.locals t =
      { s.locals t with hasToken := false, pending := [.atomicBegin, .barrierArrive b] ++ rest })
    (hlast : be.threads + 1 ≠ be.maxthreads) (hf : w.determ.fence = s.determ.fence.drop)
    (hb : w.determ.barriers = Function.update s.determ.barriers b
      (some { be with threads := be.threads + 1, head := head })) :
    w.Parted T (Function.update place t (some b)) := by
  obtain ⟨⟨rfl, hfree⟩, -, -, -⟩ : Good (s.locals t).tokenHolding (.barrierEnter b :: rest) :=
    hp ▸ h.good t ht
  have hgt : s.gateOf t = none := by
    rw [gateOf, hp]
    rfl
  have hht : s.half t = true := by
    rw [half, hp]
    rfl
  have hgw : w.gateOf t = some (b, none) := by
    rw [gateOf, hwt]
    rfl
  have hout : outside (s.locals t).pending = true := by
    rw [hp]
    rfl
  have hplace := h.place_eq_none ht hgt
  have hM : T.filter (fun u => Function.update place t (some b) u = none) =
      (T.filter fun u => place u = none).erase t := by
    ext u
    by_cases hut : u = t <;> simp [hut]
  refine h.move ho (by rw [hwt]) (by rw [hwt]) ?_ ?_ fun b' => ?_
  · rw [hwt, hfree]
    exact ⟨trivial, rfl, .inl rfl, rfl, rfl, .inr rfl, trivial⟩
  · rw [hM]
    refine (h.fence.drop (Finset.mem_filter.mpr ⟨ht, hplace⟩) hout hf fun u _ hut => ?_).frame rfl
      (fun _ _ => .inl rfl) fun u hu => ?_
    · rw [ho u hut]
    · rw [half, ho u (Finset.ne_of_mem_erase hu), half]
  · by_cases hbb : b' = b
    · subst hbb
      refine ⟨_, by rw [hb]; exact Function.update_self .., fun u hu g hg => ?_, ?_⟩
      · by_cases hut : u = t
        · subst hut
          rw [hgw] at hg
          cases hg
        · rw [gateOf, ho u hut] at hg
          exact hbe.old u hu g hg
      · have hpl : T.filter (fun u => Function.update place t (some b') u = some b') =
            insert t (T.filter fun u => place u = some b') := by
          ext u
          by_cases hut : u = t <;> simp [hut, ht]
        rw [bound_insert ho ht hgw, bound_erase ho (by rw [hgw]; exact nofun), hpl,
          Finset.erase_eq_of_notMem fun hm => by
            have hc := (mem_bound.mp hm).2
            rw [hgt] at hc
            cases hc]
        obtain ⟨hin, hnot⟩ := h.placed_gate (b := b') (g := be.generation) ht hgt hht
          (Local.of_outside hout).1
        exact hbe.gate.enlist hin hnot hlast
    · obtain ⟨be', hbe'⟩ := h.gated b'
      refine ⟨be', hbe'.frame ?_ (fun u _ => ?_) fun u _ => ?_⟩
      · rw [hb]
        exact Function.update_of_ne hbb ..
      · by_cases hut : u = t
        · subst hut
          rw [hgw, hgt]
          exact .inr ⟨fun g hg => hbb (by cases hg; rfl), nofun, nofun⟩
        · exact .inl (by rw [gateOf, ho u hut, gateOf])
      · by_cases hut : u = t
        · subst hut
          rw [Function.update_self, hplace]
          exact iff_of_false (fun hc => hbb (by cases hc; rfl)) nofun
        · rw [Function.update_of_ne hut]

/-- The last thread of a barrier is alone in the fence, and all threads of the barrier go on outside it. -/
theorem complete (hwt : w.locals t =
      { s.locals t with hasToken := false, pending := [.barrierArrive b, .atomicBegin] ++ rest })
    (hlast : be.threads + 1 = be.maxthreads) (hone : s.determ.maxthreads = 1)
    (hf : w.determ.fence =
      ⟨s.determ.isArrivalPhase, s.determ.currthreads, s.determ.maxthreads + be.threads⟩)
    (hb : w.determ.barriers = Function.update s.determ.barriers b
      (some { be with threads := 0, head := head })) :
    w.Parted T fun u => if place u = some b then none else place u := by
  obtain ⟨⟨rfl, hfree⟩, -, -, -⟩ : Good (s.locals t).tokenHolding (.barrierEnter b :: rest) :=
    hp ▸ h.good t ht
  have hgt : s.gateOf t = none := by
    rw [gateOf, hp]
    rfl
  have hht : s.half t = true := by
    rw [half, hp]
    rfl
  have hgw : w.gateOf t = some (b, none) := by
    rw [gateOf, hwt]
    rfl
  have hout : outside (s.locals t).pending = true := by
    rw [hp]
    rfl
  have hplace := h.place_eq_none ht hgt
  obtain ⟨hin, hnot⟩ := h.placed_gate (b := b) (g := be.generation) ht hgt hht
    (Local.of_outside hout).1
  have hm : t ∈ T.filter fun u => place u = none := Finset.mem_filter.mpr ⟨ht, hplace⟩
  have hM : T.filter (fun u => place u = none) = {t} := by
    have hc : (T.filter fun u => place u = none).card = 1 :=
      (show s.determ.maxthreads = _ from h.fence.meets.members).symm.trans hone
    obtain ⟨v, hv⟩ := Finset.card_eq_one.mp hc
    rw [hv, Finset.mem_singleton] at hm
    rw [hv, hm]
  have hcrew : s.crew (T.filter fun u => place u = none) = ∅ := by
    rw [hM, crew, Finset.filter_eq_empty_iff]
    intro u hu hw
    rw [Finset.mem_singleton.mp hu, (Local.of_outside hout).1] at hw
    cases hw
  have hcurr : s.determ.currthreads = 0 := by
    have hc : s.determ.currthreads = _ := h.fence.meets.arrived
    rw [hc, hcrew, Finset.card_empty]
  have hphase : s.determ.isArrivalPhase = true := by
    by_contra hne
    have ho := h.fence.meets.opened (Bool.eq_false_of_not_eq_true hne)
    rw [hcrew] at ho
    exact Finset.not_nonempty_empty ho
  have hM' : T.filter (fun u => (if place u = some b then none else place u) = none) =
      insert t (T.filter fun u => place u = some b) := by
    rw [← Finset.singleton_union, ← hM, ← Finset.filter_or]
    refine Finset.filter_congr fun u _ => ?_
    by_cases hu : place u = some b <;> simp [hu]
  have htp : t ∉ T.filter fun u => place u = some b := fun hc => by
    rw [(Finset.mem_filter.mp hc).2] at hplace
    cases hplace
  have hcard : (T.filter fun u => place u = some b).card = be.threads :=
    (hbe.gate.eq_placed hin).2.1.symm
  have hmem : ∀ u ∈ insert t (T.filter fun u => place u = some b),
      outside (w.locals u).pending = true ∧ w.half u = false := by
    intro u hu
    rcases Finset.mem_insert.mp hu with rfl | hu
    · rw [half, hwt, hfree]
      exact ⟨rfl, rfl⟩
    · have hut : u ≠ t := fun he => htp (he ▸ hu)
      obtain ⟨huT, hub⟩ := Finset.mem_filter.mp hu
      obtain ⟨g, hg⟩ := h.at_of_place huT hub
      rw [half, ho u hut]
      exact ⟨outside_of_atBarrier hg, side_eq_false (h.good u huT) hg⟩
  refine h.move ho (by rw [hwt]) (by rw [hwt]) ?_ ?_ fun b' => ?_
  · rw [hwt, hfree]
    exact ⟨rfl, rfl, .inr rfl, trivial, rfl, .inl rfl, trivial⟩
  · rw [hM']
    refine Fenced.fresh ?_ ((congrArg Counters.arrived hf).trans hcurr)
      ((congrArg Counters.arrival hf).trans hphase) (fun u hu => (hmem u hu).1) fun u hu v hv => ?_
    · rw [Finset.card_insert_of_notMem htp, hcard, Nat.add_comm, ← hone]
      exact congrArg Counters.members hf
    · rw [(hmem u hu).2, (hmem v hv).2]
  · by_cases hbb : b' = b
    · subst hbb
      refine ⟨_, by rw [hb]; exact Function.update_self .., fun u hu g hg => ?_, ?_⟩
      · by_cases hut : u = t
        · subst hut
          rw [hgw] at hg
          cases hg
        · rw [gateOf, ho u hut] at hg
          exact hbe.old u hu g hg
      · have hpl : T.filter (fun u => (if place u = some b' then none else place u) = some b') = ∅ := by
          rw [Finset.filter_eq_empty_iff]
          intro u _
          by_cases hu : place u = some b' <;> simp [hu]
        rw [bound_insert ho ht hgw, bound_erase ho (by rw [hgw]; rintro ⟨⟩), hpl,
          Finset.erase_eq_of_notMem fun hm => by
            have hc := (mem_bound.mp hm).2
            rw [hgt] at hc
            cases hc]
        exact hbe.gate.complete hin hnot hlast
    · obtain ⟨be', hbe'⟩ := h.gated b'
      refine ⟨be', hbe'.frame ?_ (fun u _ => ?_) fun u _ => ?_⟩
      · rw [hb]
        exact Function.update_of_ne hbb ..
      · by_cases hut : u = t
        · subst hut
          rw [hgw, hgt]
          exact .inr ⟨fun g hg => hbb (by cases hg; rfl), (by rintro ⟨⟩), (by rintro ⟨⟩)⟩
        · exact .inl (by rw [gateOf, ho u hut, gateOf])
      · by_cases hu : place u = some b
        · rw [if_pos hu, hu]
          exact iff_of_false (by rintro ⟨⟩) fun hc => hbb (by cases hc; rfl)
        · rw [if_neg hu]

end Enter

/-- A step of the run. -/
theorem step {a : Label} (h : s.Parted T place) (hc : s.calls a = true) (hd : s.handsOver a = true)
    (hs : s.step a = some w) : ∃ place', w.Parted T place' := by
  cases a with
  | call t op =>
      obtain ⟨hl, hp, rfl⟩ := step_call hs
      exact ⟨place, h.called hl hp hc⟩
  | run t =>
      obtain ⟨i, rest, d, l, hl, hp, hown, rfl⟩ := step_run hs
      have ht := (h.live t).mp hl
      have hg := h.good t ht
      rw [hp] at hg
      have ho : ∀ u, u ≠ t → Function.update s.locals t l u = s.locals u := fun u hut =>
        Function.update_of_ne hut ..
      rcases fits_cases hg.1 with hi | hi | ⟨b, rfl⟩ | ⟨b, rfl⟩ | ⟨b, g, rfl⟩
      · exact ⟨place, h.own_fence hl hp hown hi⟩
      · exact ⟨place, h.own_away hl hp hown hi⟩
      · obtain ⟨be, hbe⟩ := h.gated b
        have hpos : 0 < s.determ.maxthreads := h.fence.members_pos
          (Finset.mem_filter.mpr ⟨ht, h.place_eq_none ht (by rw [gateOf, hp]; rfl)⟩)
        by_cases hlast : be.threads + 1 = be.maxthreads
        · have hone : s.determ.maxthreads = 1 := by
            rw [handsOver, completes, hp] at hd
            simpa [hbe.entry, hlast] using hd
          obtain ⟨hf, hb, hr⟩ := Determ.barrierEnter_last (s.locals t).threadIndex hbe.entry hlast
          simp only [own, hr, if_true] at hown
          cases hown
          exact ⟨_, h.complete ht ho hp hbe (Function.update_self ..) hlast hone hf hb⟩
        · obtain ⟨head, hf, hb, hr⟩ :=
            Determ.barrierEnter_wait (s.locals t).threadIndex hbe.entry hlast hpos
          simp only [own, hr, Bool.false_eq_true, if_false] at hown
          cases hown
          exact ⟨_, h.enlist ht ho hp hbe (Function.update_self ..) hlast hf hb⟩
      · obtain ⟨be, hbe⟩ := h.gated b
        simp only [own, hbe.entry, Option.map_some, Option.some.injEq] at hown
        split at hown <;> cases hown
        · rename_i hlast
          exact ⟨place, h.open_gate ht ho (Function.update_self ..) hp hbe hlast rfl⟩
        · exact ⟨place, h.wait_gate ht ho (Function.update_self ..) hp rfl hbe rfl⟩
      · obtain ⟨be, hbe⟩ := h.gated b
        simp only [own, hbe.entry, Option.any_some] at hown
        split at hown <;> cases hown
        rename_i hne
        exact ⟨place, h.leave_gate ht ho (Function.update_self ..) hp rfl hbe (by simpa using hne)⟩

end Run

/-- All threads are in the fence when they wait for the token, and none is when another one waits for
the fence before it. -/
theorem not_waiting (h : s.Parted T place) (ht : (s.locals t).live = true)
    (hw : (s.locals t).waits = true) (htok : (s.locals t).pending.tail.head? = some .getToken)
    (ha : s.determ.isArrivalPhase = true) (hu : (s.locals u).live = true) :
    (s.locals u).pending.head? ≠ some .getToken := by
  intro huh
  cases hp : (s.locals t).pending with
  | nil =>
      rw [hp] at htok
      cases htok
  | cons i rest =>
      cases hq : (s.locals u).pending with
      | nil =>
          rw [hq] at huh
          cases huh
      | cons j js =>
          rw [hq] at huh
          cases huh
          rw [hp, List.tail_cons] at htok
          have hi : i.leaves = true := (Local.waits_cons hp).symm.trans hw
          have htT := (h.live t).mp ht
          have huT := (h.live u).mp hu
          have hg := h.good t htT
          rw [hp] at hg
          have hkeep : i.keep = true := by
            have hf := (fits_fence (.inr hi)).mp hg.1
            by_contra hk
            rw [if_neg hk, side_head_getToken htok] at hf
            cases hf
          have htm : t ∈ T.filter fun v => place v = none :=
            Finset.mem_filter.mpr ⟨htT, h.place_eq_none htT (by
              rw [gateOf, hp, (fence_head true _ (.inr hi)).1])⟩
          have hum : u ∈ T.filter fun v => place v = none :=
            Finset.mem_filter.mpr ⟨huT, h.place_eq_none huT (by rw [gateOf, hq]; rfl)⟩
          have hsame := h.fence.meets.same ha t htm u hum
          rw [half, hp, side_fence (.inr hi), hkeep, half, hq] at hsame
          cases hsame

end Parted

/-! ## The law -/

/-- The threads `T` are started and between their operations, and nobody is in the fence or at a
barrier. -/
structure Assembled (s : State) (T : Finset Tid) : Prop where
  live : ∀ t, (s.locals t).live = true ↔ t ∈ T
  enabled : ∀ t ∈ T, (s.locals t).fenceEnabled = true
  idle : ∀ t ∈ T, (s.locals t).pending = [] ∧ (s.locals t).tokenHolding = false
  maxthreads : s.determ.maxthreads = T.card
  currthreads : s.determ.currthreads = 0
  arrival : s.determ.isArrivalPhase = true
  barriers : ∀ b, ∃ be, s.determ.barriers b = some be ∧ be.threads = 0 ∧ be.arrived = 0

theorem Assembled.parted (h : s.Assembled T) : s.Parted T fun _ => none := by
  have hgate : ∀ u ∈ T, s.gateOf u = none := fun u hu => by
    rw [gateOf, (h.idle u hu).1]
    rfl
  have hbound : ∀ b g, s.bound T b g = ∅ := fun b g => by
    rw [bound, Finset.filter_eq_empty_iff]
    intro u hu
    rw [hgate u hu]
    exact nofun
  have hM : T.filter (fun _ : Tid => (none : Option Obj) = none) = T := Finset.filter_true_of_mem fun _ _ => rfl
  refine ⟨h.live, h.enabled, fun u hu => ?_, ?_, fun b => ?_⟩
  · rw [(h.idle u hu).1]
    trivial
  · rw [hM]
    refine Fenced.fresh h.maxthreads h.currthreads h.arrival (fun u hu => ?_) fun u hu v hv => ?_
    · rw [(h.idle u hu).1]
      rfl
    · rw [half, half, (h.idle u hu).1, (h.idle v hv).1, (h.idle u hu).2, (h.idle v hv).2]
  · obtain ⟨be, hb, h0, ha⟩ := h.barriers b
    refine ⟨be, hb, fun u hu g hg => ?_, ?_⟩
    · rw [hgate u hu] at hg
      cases hg
    · rw [hbound, hbound, h0, ha]
      refine ⟨Finset.disjoint_empty_left _, rfl, .inl ⟨?_, ?_, by omega⟩⟩ <;> simp

/-- The thread `t` has the token and waits for the others in the fence of `waitToken`, and `u`, which
`_maxthreads` counts, waits for the token. -/
def Stranded (s : State) (t u : Tid) : Prop :=
  s.determ.holder = t ∧ (s.locals t).live = true ∧ (s.locals t).waits = true ∧
    (s.locals t).pending.tail.head? = some .getToken ∧ s.determ.isArrivalPhase = true ∧
    s.determ.currthreads < s.determ.maxthreads ∧ (s.locals u).live = true ∧
    (s.locals u).pending.head? = some .getToken

instance (s : State) (t u : Tid) : Decidable (s.Stranded t u) := inferInstanceAs (Decidable (_ ∧ _))

/-- The ring with all barriers initialised. -/
def barrierRing (n coresNumb : ℕ) (count : Obj → ℕ) : State :=
  { ring n coresNumb with
    determ :=
      { (ring n coresNumb).determ with
        barriers := fun b => some { maxthreads := count b, threads := 0, head := none, arrived := 0, generation := 0 } } }

theorem assembled_barrierRing (n coresNumb : ℕ) (count : Obj → ℕ) :
    (barrierRing n coresNumb count).Assembled (Finset.Icc 1 n) where
  live t := by
    rw [Finset.mem_Icc]
    exact decide_eq_true_iff
  enabled _ _ := rfl
  idle _ _ := ⟨rfl, rfl⟩
  maxthreads := by
    rw [Nat.card_Icc]
    rfl
  currthreads := rfl
  arrival := rfl
  barriers _ := ⟨_, rfl, rfl, rfl⟩

end State

open State

/-- As long as every barrier is completed by a thread that is alone in the fence, no thread that has
the token waits in the fence for a thread that waits for the token. -/
theorem no_strand {s w : State} {T : Finset Tid} {as : List Label} (hs : s.Assembled T)
    (hr : Run State.step (fun s a => s.calls a = true ∧ s.handsOver a = true) s as w) (t u : Tid) :
    ¬ w.Stranded t u := by
  have hkeep : ∀ (s : State) a w, (∃ place, s.Parted T place) → s.calls a = true ∧ s.handsOver a = true →
      s.step a = some w → ∃ place, w.Parted T place :=
    fun _ _ _ ⟨_, h⟩ hg hs => h.step hg.1 hg.2 hs
  obtain ⟨place, h⟩ := hr.invariant hkeep ⟨_, hs.parted⟩
  rintro ⟨-, ht, hw, htok, ha, -, hu, huh⟩
  exact h.not_waiting ht hw htok ha hu huh

/-- Two threads meet at a barrier, and one of them comes to it again. -/
def meetingRun : List Label :=
  [.call 1 (.barrierWait 0), .call 2 (.barrierWait 0)] ++ Label.runs 1 1 ++ Label.runs 2 1 ++
    Label.runs 1 5 ++ Label.runs 2 3 ++ Label.runs 1 2 ++ Label.runs 2 2 ++ Label.runs 1 1 ++
    [.call 1 (.barrierWait 0)] ++ Label.runs 1 1

theorem no_strand_pair : ∃ w, Run State.step (fun s a => s.calls a = true ∧ s.handsOver a = true)
    (barrierRing 2 4 fun _ => 2) meetingRun w ∧
      (w.determ.holder = 1 ∧ (w.locals 1).waits = true ∧ w.determ.maxthreads = 2) ∧
        ¬ w.Stranded 1 2 := by
  have hrun : (execGuarded State.step (fun s a => s.calls a = true ∧ s.handsOver a = true)
      (barrierRing 2 4 fun _ => 2) meetingRun).any (fun w => decide (w.determ.holder = 1 ∧
        (w.locals 1).waits = true ∧ w.determ.maxthreads = 2)) = true := by decide +kernel
  obtain ⟨w, hr, hw⟩ := exists_run_of_any hrun
  exact ⟨w, hr, hw, no_strand (assembled_barrierRing 2 4 _) hr 1 2⟩

/-- Threads 1 and 2 meet at a barrier, and thread 3 locks a mutex; the barrier hands the token to
thread 1, which comes to the barrier again. -/
def strandingRun : List Label :=
  [.call 1 (.barrierWait 0), .call 2 (.barrierWait 0), .call 3 (.mutexLock 1)] ++ Label.runs 1 1 ++
    Label.runs 2 1 ++ Label.runs 3 5 ++ Label.runs 1 2 ++ Label.runs 2 2 ++ Label.runs 1 3 ++
    Label.runs 2 3 ++ Label.runs 1 2 ++ Label.runs 2 2 ++ Label.runs 1 1 ++
    [.call 1 (.barrierWait 0)] ++ Label.runs 1 1

theorem barrier_strands : ∃ w, Run State.step (fun s a => s.calls a = true)
    (barrierRing 3 4 fun _ => 2) strandingRun w ∧ w.Stranded 1 3 ∧ w.determ.maxthreads = 3 :=
  exists_run_of_any (by decide +kernel)

end Dthreads.Scheduler
