import Dthreads.Scheduler.Crossing
import Mathlib.Order.Interval.Finset.Nat

/-! # `waitFence` called again and again

A fixed number of participants that do nothing but call `waitFence`: the fence is a barrier that can
be used any number of times. -/

namespace Dthreads.Scheduler

open Fence Transition

/-! ## The participants -/

/-- The scheduler, and for each thread the number of its calls, of the calls that were counted in
`_currthreads`, and of those that were discounted again. -/
structure Visits where
  state : State
  started : Tid → ℕ
  counted : Tid → ℕ
  discounted : Tid → ℕ

/-- A participant calls `waitFence`, or takes its next step. -/
inductive Visit where
  | call (t : Tid) (keepBitmap : Bool)
  | run (t : Tid)
  /-- The condition wait of `waitFence` ends without a reason, and the loop goes back to it. -/
  | spurious (t : Tid)
  deriving DecidableEq, Repr

/-- The thread has yet to be counted. -/
def Local.comes (l : Local) : Bool := l.pending.head?.any Instr.arrives

/-- The loop around the condition wait does not end. -/
def Determ.waitsOn (d : Determ) : Instr → Bool
  | .condArrival _ => !d.isArrivalPhase
  | .condRelease _ => d.isArrivalPhase
  | _ => false

namespace Visits

/-- The participant `t` has just done a step. -/
def ran (x : Visits) (t : Tid) (s : State) : Visits where
  state := s
  started := x.started
  counted :=
    if (x.state.locals t).comes && !(s.locals t).comes then
      Function.update x.counted t (x.counted t + 1)
    else x.counted
  discounted :=
    if (s.locals t).pending = [] then Function.update x.discounted t (x.discounted t + 1)
    else x.discounted

def step (x : Visits) : Visit → Option Visits
  | .call t keepBitmap =>
      let l := x.state.locals t
      if l.live ∧ l.pending = [] then
        some { x with
          state := { x.state with
            locals := Function.update x.state.locals t (l.goto (Local.waitFence keepBitmap)) }
          started := Function.update x.started t (x.started t + 1) }
      else none
  | .run t => (x.state.step (.run t)).map (x.ran t)
  | .spurious t =>
      let l := x.state.locals t
      if l.live ∧ l.pending.head?.any x.state.determ.waitsOn then some x else none

/-- The calls of `t` that have returned. -/
def returned (x : Visits) (t : Tid) : ℕ :=
  if (x.state.locals t).pending = [] then x.started t else x.started t - 1

/-- The threads `1, …, n` before their first call. -/
def start (n coresNumb : ℕ) : Visits := ⟨State.ring n coresNumb, fun _ => 0, fun _ => 0, fun _ => 0⟩

/-! ## The invariant -/

/-- The participants that are counted in `_currthreads`. -/
def inside (n : ℕ) (x : Visits) : Finset Tid := (Finset.Icc 1 n).filter fun u => (x.state.locals u).waits

/-- The fence meets its participants, each of which stands at one of its instructions. -/
structure Reused (n : ℕ) (x : Visits) : Prop where
  meets : Meets x.state.determ.fence Nat.succ (Finset.Icc 1 n) (x.inside n) x.discounted
  live : ∀ u, (x.state.locals u).live = true → u ∈ Finset.Icc 1 n
  place : ∀ u, (x.state.locals u).pending = [] ∨ u ∈ Finset.Icc 1 n ∧
    ∃ i, (x.state.locals u).pending = [i] ∧ (i.arrives = true ∨ i.leaves = true)
  arriving : ∀ u, (x.state.locals u).arriving = true → x.state.determ.isArrivalPhase = true
  departs : ∀ u, (x.state.locals u).departs = true → x.state.determ.isArrivalPhase = false
  counted : ∀ u, x.counted u = x.discounted u + if (x.state.locals u).waits then 1 else 0
  started : ∀ u, x.started u = x.discounted u + if (x.state.locals u).pending = [] then 0 else 1

variable {n c : ℕ} {x y w : Visits} {t u v : Tid}

theorem mem_inside : u ∈ x.inside n ↔ u ∈ Finset.Icc 1 n ∧ (x.state.locals u).waits = true := by
  rw [inside, Finset.mem_filter]

/-- One participant moves. -/
theorem inside_update {l : Local} (ht : t ∈ Finset.Icc 1 n)
    (hy : y.state.locals = Function.update x.state.locals t l) :
    y.inside n = if l.waits then insert t (x.inside n) else (x.inside n).erase t := by
  ext u
  rw [mem_inside, hy]
  by_cases hu : u = t
  · subst hu
    rw [Function.update_self]
    cases hw : l.waits with
    | true => simp [ht]
    | false => simp
  · rw [Function.update_of_ne hu]
    split <;> simp [hu, mem_inside]

theorem reused_start (n c : ℕ) : (start n c).Reused n where
  meets := by
    have hempty : (start n c).inside n = ∅ := by
      rw [Finset.eq_empty_iff_forall_notMem]
      intro u hu
      exact absurd (mem_inside.mp hu).2 nofun
    rw [hempty]
    refine ⟨Finset.empty_subset _, ?_, rfl, fun _ he => he.symm, nofun, fun _ _ _ _ _ => rfl, nofun⟩
    rw [Nat.card_Icc]
    rfl
  live u hu := Finset.mem_Icc.mpr (of_decide_eq_true hu)
  place u := .inl rfl
  arriving u hu := absurd hu nofun
  departs u hu := absurd hu nofun
  counted u := rfl
  started u := rfl

namespace Reused

/-- One participant moves, and the others stay where they are. -/
theorem move {l : Local} (h : x.Reused n) (ht : t ∈ Finset.Icc 1 n)
    (hy : y.state.locals = Function.update x.state.locals t l)
    (hm : Meets y.state.determ.fence Nat.succ (Finset.Icc 1 n)
      (if l.waits then insert t (x.inside n) else (x.inside n).erase t) y.discounted)
    (hplace : l.pending = [] ∨ ∃ i, l.pending = [i] ∧ (i.arrives = true ∨ i.leaves = true))
    (harr : ∀ u, (Function.update x.state.locals t l u).arriving = true →
      y.state.determ.isArrivalPhase = true)
    (hdep : ∀ u, (Function.update x.state.locals t l u).departs = true →
      y.state.determ.isArrivalPhase = false)
    (hother : ∀ u ≠ t, y.counted u = x.counted u ∧ y.discounted u = x.discounted u ∧
      y.started u = x.started u)
    (hc : y.counted t = y.discounted t + if l.waits then 1 else 0)
    (hs : y.started t = y.discounted t + if l.pending = [] then 0 else 1) : y.Reused n := by
  refine ⟨(inside_update ht hy).symm ▸ hm, fun u hu => ?_, fun u => ?_, hy.symm ▸ harr, hy.symm ▸ hdep,
    fun u => ?_, fun u => ?_⟩ <;> by_cases hut : u = t
  · exact hut ▸ ht
  · rw [hy, Function.update_of_ne hut] at hu
    exact h.live u hu
  · rw [hy, hut, Function.update_self]
    exact hplace.imp_right fun hp => ⟨ht, hp⟩
  · rw [hy, Function.update_of_ne hut]
    exact h.place u
  · rw [hy, hut, Function.update_self]
    exact hc
  · obtain ⟨h1, h2, -⟩ := hother u hut
    rw [hy, Function.update_of_ne hut, h1, h2]
    exact h.counted u
  · rw [hy, hut, Function.update_self]
    exact hs
  · obtain ⟨-, h2, h3⟩ := hother u hut
    rw [hy, Function.update_of_ne hut, h2, h3]
    exact h.started u

theorem call {k : Bool} (h : x.Reused n) (hs : x.step (.call t k) = some y) : y.Reused n := by
  simp only [step, Option.ite_none_right_eq_some, Option.some.injEq] at hs
  obtain ⟨⟨hl, hnil⟩, rfl⟩ := hs
  have hw : (x.state.locals t).waits = false := by rw [Local.waits, hnil]; rfl
  have hnot : t ∉ x.inside n := fun hm => absurd (hw.symm.trans (mem_inside.mp hm).2) (by rintro ⟨⟩)
  refine h.move (h.live t hl) rfl ?_ (.inr ⟨_, rfl, .inl rfl⟩) (fun u hu => ?_) (fun u hu => ?_)
    (fun u hut => ⟨rfl, rfl, Function.update_of_ne hut ..⟩) ?_ ?_
  · rw [if_neg (show ¬ ((x.state.locals t).goto (Local.waitFence k)).waits = true from by rintro ⟨⟩),
      Finset.erase_eq_of_notMem hnot]
    exact h.meets
  · rw [Function.update_apply] at hu
    split at hu
    · cases hu
    · exact h.arriving u hu
  · rw [Function.update_apply] at hu
    split at hu
    · cases hu
    · exact h.departs u hu
  · rw [h.counted, hw]
    rfl
  · simp only [Function.update_self]
    rw [h.started, if_pos hnil]
    rfl

/-- While the fence is closed a thread that has seen the arrival phase can count itself, and while it
is open one that has seen the departure phase can leave. -/
theorem phase_of_committed {i : Instr} (h : x.Reused n) (hp : (x.state.locals t).pending = [i])
    (ha : i.committed = true ∨ x.state.determ.isArrivalPhase = true) :
    x.state.determ.isArrivalPhase = true :=
  ha.elim (fun hc => h.arriving t ((Local.arriving_cons hp).trans hc)) fun ha => ha

theorem phase_of_departing {i : Instr} (h : x.Reused n) (hp : (x.state.locals t).pending = [i])
    (ha : i.departing = true ∨ x.state.determ.isArrivalPhase = false) :
    x.state.determ.isArrivalPhase = false :=
  ha.elim (fun hc => h.departs t ((Local.departs_cons hp).trans hc)) fun ha => ha

theorem bump_self (f : Tid → ℕ) (t : Tid) (q : Prop) [Decidable q] :
    (if q then Function.update f t (f t + 1) else f) t = f t + if q then 1 else 0 := by
  split <;> simp

/-- The participant `t` at instruction `i` moves to the instructions `js`. -/
theorem ran {i : Instr} {js : List Instr} {d : Determ} {ps : List Tid} (h : x.Reused n)
    (ht : t ∈ Finset.Icc 1 n) (hp : (x.state.locals t).pending = [i])
    (hm : Meets d.fence Nat.succ (Finset.Icc 1 n)
      (if js.head?.any Instr.leaves then insert t (x.inside n) else (x.inside n).erase t)
      (if js = [] then Function.update x.discounted t (x.discounted t + 1) else x.discounted))
    (hplace : js = [] ∨ ∃ j, js = [j] ∧ (j.arrives = true ∨ j.leaves = true))
    (harr : ∀ u ≠ t, (x.state.locals u).arriving = true → d.isArrivalPhase = true)
    (harr' : js.head?.any Instr.committed = true → d.isArrivalPhase = true)
    (hdep : ∀ u ≠ t, (x.state.locals u).departs = true → d.isArrivalPhase = false)
    (hdep' : js.head?.any Instr.departing = true → d.isArrivalPhase = false)
    (hcount : (if i.arrives && !js.head?.any Instr.arrives then 1 else 0) +
      (if i.leaves then 1 else 0) =
        (if js = [] then 1 else 0) + if js.head?.any Instr.leaves then 1 else 0) :
    (x.ran t ⟨d, Function.update x.state.locals t ((x.state.locals t).goto js), ps⟩).Reused n := by
  have hcomes : (x.state.locals t).comes = i.arrives := by rw [Local.comes, hp]; rfl
  have hwaits : (x.state.locals t).waits = i.leaves := Local.waits_cons hp
  have hstart := h.started t
  have hcounted := h.counted t
  rw [hp, if_neg (List.cons_ne_nil i [])] at hstart
  rw [hwaits] at hcounted
  have hdisc : (x.ran t ⟨d, Function.update x.state.locals t ((x.state.locals t).goto js), ps⟩).discounted =
      if js = [] then Function.update x.discounted t (x.discounted t + 1) else x.discounted := by
    simp only [Visits.ran, Function.update_self, Local.goto_pending]
  have hcnt : (x.ran t ⟨d, Function.update x.state.locals t ((x.state.locals t).goto js), ps⟩).counted =
      if i.arrives && !js.head?.any Instr.arrives then Function.update x.counted t (x.counted t + 1)
      else x.counted := by
    simp only [Visits.ran, Function.update_self, hcomes]
    rfl
  refine h.move ht rfl (hdisc ▸ hm) hplace (fun u hu => ?_) (fun u hu => ?_) (fun u hut => ?_) ?_ ?_
  · by_cases hut : u = t
    · rw [hut, Function.update_self] at hu
      exact harr' hu
    · rw [Function.update_of_ne hut] at hu
      exact harr u hut hu
  · by_cases hut : u = t
    · rw [hut, Function.update_self] at hu
      exact hdep' hu
    · rw [Function.update_of_ne hut] at hu
      exact hdep u hut hu
  · rw [hcnt, hdisc]
    refine ⟨?_, ?_, rfl⟩ <;> split <;> first | rfl | exact Function.update_of_ne hut ..
  · rw [hcnt, hdisc]
    rw [bump_self, bump_self, hcounted, show ((x.state.locals t).goto js).waits =
      js.head?.any Instr.leaves from rfl]
    omega
  · rw [hdisc, Local.goto_pending]
    rw [bump_self]
    by_cases hjs : js = []
    · rw [if_pos hjs, if_pos hjs]
      exact hstart
    · rw [if_neg hjs, if_neg hjs]
      exact hstart

/-- Who has seen the arrival phase is not counted yet. -/
theorem at_committed (h : x.Reused n) (hu : (x.state.locals u).arriving = true) :
    u ∈ Finset.Icc 1 n ∧ u ∉ x.inside n := by
  rcases h.place u with hnil | ⟨huM, i, hp, -⟩
  · rw [Local.arriving, hnil] at hu
    cases hu
  · refine ⟨huM, fun hm => ?_⟩
    have hl := (Local.waits_cons hp).symm.trans (mem_inside.mp hm).2
    rw [Local.arriving_cons hp] at hu
    rw [Instr.not_leaves_of_arrives (Instr.arrives_of_committed hu)] at hl
    cases hl

/-- Who has seen the departure phase is still counted. -/
theorem at_departing (h : x.Reused n) (hu : (x.state.locals u).departs = true) : u ∈ x.inside n := by
  rcases h.place u with hnil | ⟨huM, i, hp, -⟩
  · rw [Local.departs, hnil] at hu
    cases hu
  · rw [Local.departs_cons hp] at hu
    exact mem_inside.mpr ⟨huM, (Local.waits_cons hp).trans (Instr.leaves_of_departing hu)⟩

theorem run (h : x.Reused n) (hs : x.step (.run t) = some y) : y.Reused n := by
  rw [step, Option.map_eq_some_iff] at hs
  obtain ⟨s, hs, rfl⟩ := hs
  obtain ⟨i, rest, d, l, hl, hp, ho, rfl⟩ := State.step_run hs
  have ht := h.live t hl
  obtain ⟨i', hp', hi⟩ : ∃ i, (x.state.locals t).pending = [i] ∧
      (i.arrives = true ∨ i.leaves = true) := by
    rcases h.place t with hnil | ⟨-, hi⟩
    · rw [hnil] at hp
      cases hp
    · exact hi
  obtain ⟨rfl, rfl⟩ := List.cons.inj (hp.symm.trans hp')
  have hmem : i.leaves = true → t ∈ x.inside n := fun hi =>
    mem_inside.mpr ⟨ht, (Local.waits_cons hp).trans hi⟩
  have hpos : i.leaves = true → 0 < x.state.determ.currthreads := fun hi => by
    have hcard : x.state.determ.currthreads = (x.inside n).card := h.meets.arrived
    rw [hcard]
    exact Finset.card_pos.mpr ⟨t, hmem hi⟩
  obtain ⟨js, hc, rfl⟩ := State.own_cross ho hi hpos
  rw [List.append_nil, State.others_of_fence hi]
  generalize hf : d.fence = c' at hc
  have hd : d.isArrivalPhase = c'.arrival := congrArg Counters.arrival hf
  have hout : i.arrives = true → t ∉ x.inside n := fun hi hm =>
    absurd ((Local.waits_cons hp).symm.trans (mem_inside.mp hm).2)
      (by rw [Instr.not_leaves_of_arrives hi]; exact Bool.false_ne_true)
  cases hc with
  | look hi hj hk hcom =>
      rename_i j
      have hjl := Instr.not_leaves_of_arrives hj
      refine h.ran ht hp ?_ (.inr ⟨j, rfl, .inl hj⟩) (fun u _ hu => hd.trans (h.arriving u hu))
        (fun hu => hd.trans (hcom hu)) (fun u _ hu => hd.trans (h.departs u hu)) ?_ ?_
      · simp only [List.head?_cons, Option.any_some, hjl]
        rw [hf, Finset.erase_eq_of_notMem (hout hi)]
        exact h.meets
      · intro hu
        have := Instr.leaves_of_departing hu
        rw [hjl] at this
        cases this
      · simp [hi, hj, hjl, Instr.not_leaves_of_arrives hi]
  | pass hi ha hl =>
      have hphase := h.phase_of_committed hp ha
      refine h.ran ht hp ?_ (.inl rfl) (fun u hut hu => ?_) nofun (fun u _ hu => ?_) nofun ?_
      · simp only [List.head?_nil, Option.any_none, Bool.false_eq_true, if_false, if_true]
        rw [hf, Finset.erase_eq_of_notMem (hout hi)]
        exact h.meets.pass hphase ht (hout hi) hl
      · obtain ⟨huM, hu⟩ := h.at_committed hu
        have hlast := h.meets.last ht (hout hi) hl
        exact absurd (hlast ▸ Finset.mem_erase.mpr ⟨hut, huM⟩) hu
      · exact absurd (hphase.symm.trans (h.departs u hu)) nofun
      · simp [hi, Instr.not_leaves_of_arrives hi]
  | wait hi ha hl hj hk hdj =>
      rename_i j
      have hphase := h.phase_of_committed hp ha
      have hja : j.arrives = false := Instr.not_arrives_of_leaves hj
      refine h.ran ht hp ?_ (.inr ⟨j, rfl, .inr hj⟩) (fun u _ hu => hd.trans (h.arriving u hu))
        (fun hu => ?_) (fun u _ hu => ?_) (fun hu => absurd (hdj.symm.trans hu) nofun) ?_
      · simp only [List.head?_cons, Option.any_some, hj]
        rw [hf]
        exact h.meets.wait hphase ht (hout hi) hl
      · exact absurd (hja.symm.trans (Instr.arrives_of_committed hu)) nofun
      · exact absurd (hphase.symm.trans (h.departs u hu)) nofun
      · simp [hi, hj, hja, Instr.not_leaves_of_arrives hi]
  | see hi ha hj hk =>
      rename_i j
      have hja : j.arrives = false := Instr.not_arrives_of_leaves hj
      refine h.ran ht hp ?_ (.inr ⟨j, rfl, .inr hj⟩) (fun u _ hu => hd.trans (h.arriving u hu))
        (fun hu => ?_) (fun u _ hu => hd.trans (h.departs u hu)) (fun _ => hd.trans ha) ?_
      · simp only [List.head?_cons, Option.any_some, hj, if_true]
        rw [hf, Finset.insert_eq_of_mem (hmem hi)]
        exact h.meets
      · exact absurd (hja.symm.trans (Instr.arrives_of_committed hu)) nofun
      · simp [hi, hj, hja, Instr.not_arrives_of_leaves hi]
  | leave hi ha =>
      have hphase := h.phase_of_departing hp ha
      refine h.ran ht hp ?_ (.inl rfl) (fun u _ hu => ?_) nofun (fun u hut hu => ?_) nofun ?_
      · simp only [List.head?_nil, Option.any_none, Bool.false_eq_true, if_false, if_true]
        rw [hf]
        exact h.meets.leave hphase (hmem hi)
      · exact absurd (hphase.symm.trans (h.arriving u hu)) nofun
      · have hu := Finset.mem_erase.mpr ⟨hut, h.at_departing hu⟩
        refine hd.trans (Bool.eq_false_of_not_eq_true fun hc => ?_)
        rw [(h.meets.leave_closes hphase (hmem hi)).mp hc] at hu
        exact Finset.notMem_empty u hu
      · simp [hi, Instr.not_arrives_of_leaves hi]

theorem step {a : Visit} (h : x.Reused n) (hs : x.step a = some y) : y.Reused n := by
  cases a with
  | call t k => exact h.call hs
  | run t => exact h.run hs
  | spurious t =>
      simp only [Visits.step, Option.ite_none_right_eq_some, Option.some.injEq] at hs
      exact hs.2 ▸ h

/-! ## The law -/

theorem returned_eq (h : x.Reused n) (u : Tid) : x.returned u = x.discounted u := by
  rw [returned, h.started]
  split <;> omega

theorem waits_iff (h : x.Reused n) (hu : u ∈ Finset.Icc 1 n) :
    x.counted u = x.discounted u + if u ∈ x.inside n then 1 else 0 := by
  simp only [h.counted u, mem_inside, hu, true_and]

/-- While the fence is closed everyone was discounted equally often, and while it is open everyone was
counted equally often. -/
theorem generation (h : x.Reused n) :
    (∃ k, ∀ u ∈ Finset.Icc 1 n, x.discounted u = k ∧ x.counted u ≤ k + 1) ∨
    ∃ k, ∀ u ∈ Finset.Icc 1 n,
      k ≤ x.discounted u ∧ x.discounted u ≤ k + 1 ∧ x.counted u = k + 1 := by
  cases ha : x.state.determ.fence.arrival with
  | true =>
      refine .inl ?_
      by_cases hM : (Finset.Icc 1 n).Nonempty
      · obtain ⟨v, hv⟩ := hM
        refine ⟨x.discounted v, fun u hu => ⟨h.meets.same ha u hu v hv, ?_⟩⟩
        rw [h.waits_iff hu, h.meets.same ha u hu v hv]
        split <;> omega
      · exact ⟨0, fun u hu => absurd ⟨u, hu⟩ hM⟩
  | false =>
      obtain ⟨v, hv⟩ := h.meets.opened ha
      refine .inr ⟨x.discounted v, fun u hu => ?_⟩
      have hside := h.meets.sides ha v hv u hu
      rw [h.waits_iff hu]
      split at hside <;> rename_i huA
      · rw [if_pos huA]
        omega
      · rw [if_neg huA]
        omega

/-- Nobody is discounted before the others were counted, or counted again before the others were
discounted. -/
theorem in_step (h : x.Reused n) (hu : u ∈ Finset.Icc 1 n) (hv : v ∈ Finset.Icc 1 n) :
    x.discounted u ≤ x.counted v ∧ x.counted u ≤ x.discounted v + 1 := by
  have hcv := h.waits_iff hv
  rcases h.generation with ⟨k, hk⟩ | ⟨k, hk⟩ <;> have hku := hk u hu <;> have hkv := hk v hv <;>
    omega

theorem counted_le_started (h : x.Reused n) (u : Tid) : x.counted u ≤ x.started u := by
  rw [h.counted, h.started]
  by_cases hp : (x.state.locals u).pending = []
  · have hw : (x.state.locals u).waits = false := by rw [Local.waits, hp]; rfl
    rw [hw, if_pos hp]
    exact le_rfl
  · rw [if_neg hp]
    split <;> omega

/-- The fence is as at the start when nobody is in it. -/
theorem empty (h : x.Reused n) (hp : ∀ u ∈ Finset.Icc 1 n, (x.state.locals u).pending = []) :
    x.state.determ.currthreads = 0 ∧ x.state.determ.isArrivalPhase = true := by
  have hA : x.inside n = ∅ := by
    rw [Finset.eq_empty_iff_forall_notMem]
    intro u hu
    obtain ⟨huM, hw⟩ := mem_inside.mp hu
    rw [Local.waits, hp u huM] at hw
    cases hw
  have hc : x.state.determ.currthreads = (x.inside n).card := h.meets.arrived
  refine ⟨by rw [hc, hA, Finset.card_empty], ?_⟩
  by_contra ha
  obtain ⟨u, hu⟩ := h.meets.opened (Bool.eq_false_of_not_eq_true ha)
  rw [hA] at hu
  exact Finset.notMem_empty u hu

end Reused

/-- Nobody returns from its `k`-th call before all have started theirs, nobody is counted in the next
generation before all were discounted from the last one, at most `n` are counted, and a fence that
nobody is in is as at the start. -/
theorem waitFence_reusable {as : List Visit} (h : exec step (start n c) as = some w) :
    (∀ u ∈ Finset.Icc 1 n, ∀ v ∈ Finset.Icc 1 n,
      w.returned u ≤ w.started v ∧ w.counted u ≤ w.discounted v + 1) ∧
    w.state.determ.currthreads ≤ n ∧
    ((∀ u ∈ Finset.Icc 1 n, (w.state.locals u).pending = []) →
      w.state.determ.currthreads = 0 ∧ w.state.determ.isArrivalPhase = true) := by
  have hw : w.Reused n :=
    (run_of_exec h).invariant (fun _ _ _ h _ hs => h.step hs) (reused_start n c)
  refine ⟨fun u hu v hv => ⟨?_, (hw.in_step hu hv).2⟩, ?_, hw.empty⟩
  · rw [hw.returned_eq]
    exact (hw.in_step hu hv).1.trans (hw.counted_le_started v)
  · have hc : w.state.determ.currthreads = (w.inside n).card := hw.meets.arrived
    rw [hc]
    simpa using Finset.card_le_card hw.meets.sub

/-- Thread 2 passes as the last one and comes back; thread 1 has not yet seen that the fence is
open. -/
theorem waitFence_reusable_overtaken : ∃ w,
    exec step (start 2 4) [.call 1 true, .run 1, .call 2 true, .run 2, .call 2 false, .run 2] = some w ∧
      w.returned 2 = 1 ∧ w.started 2 = 2 ∧ w.counted 2 ≤ w.discounted 1 + 1 := by
  have hrun : (exec step (start 2 4)
      [.call 1 true, .run 1, .call 2 true, .run 2, .call 2 false, .run 2]).any
      (fun w => decide (w.returned 2 = 1 ∧ w.started 2 = 2)) = true := by decide
  obtain ⟨w, hw, hr, hs⟩ := exists_exec_of_any hrun
  exact ⟨w, hw, hr, hs, ((waitFence_reusable hw).1 2 (by decide) 1 (by decide)).2⟩

end Visits

end Dthreads.Scheduler
