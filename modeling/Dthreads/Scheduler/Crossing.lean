import Dthreads.Fence.Counters
import Dthreads.Scheduler.Steps

/-! # The fence of the scheduler

`waitFence` as the fence of the library: which instruction arrives, waits or leaves. -/

namespace Dthreads.Scheduler

open Fence Transition

/-! ## The counters -/

namespace Determ

variable (d : Determ)

def fence (d : Determ) : Counters := ⟨d.isArrivalPhase, d.currthreads, d.maxthreads⟩

theorem fence_pass (h : d.maxthreads ≤ d.currthreads + 1) :
    d.arriveFence.leaveFence.fence = d.fence.pass := by
  have hdec : dec (d.currthreads + 1) = d.currthreads := dec_of_pos (Nat.succ_pos _)
  unfold arriveFence leaveFence fence Counters.pass
  simp only [ge_iff_le, h, if_true, hdec]
  split <;> rfl

theorem fence_wait (h : d.currthreads + 1 < d.maxthreads) : d.arriveFence.fence = d.fence.wait := by
  unfold arriveFence fence Counters.wait
  simp only [ge_iff_le, Nat.not_le.mpr h, if_false]

theorem fence_leave (h : 0 < d.currthreads) : d.leaveFence.fence = d.fence.leave := by
  unfold leaveFence fence Counters.leave
  simp only [dec_of_pos h]
  split <;> rfl

theorem fence_drop (h : 0 < d.maxthreads) : d.decrFence.fence = d.fence.drop := by
  unfold decrFence fence Counters.drop
  simp only [dec_of_pos h, ge_iff_le]
  by_cases hc : d.maxthreads - 1 ≤ d.currthreads ∧ d.maxthreads - 1 ≠ 0
  · by_cases ha : d.isArrivalPhase = true
    · rw [if_pos ⟨hc.1, ha, hc.2⟩, if_pos hc]
    · rw [if_neg (fun h => ha h.2.1), if_pos hc]
      rw [Bool.not_eq_true] at ha
      rw [ha]
  · rw [if_neg (fun h => hc ⟨h.1, h.2.2⟩), if_neg hc]

end Determ

/-! ## The instructions of `waitFence` -/

/-- The thread has yet to arrive. -/
def Instr.arrives : Instr → Bool
  | .fenceEnter _ | .spinArrival _ | .fenceArrive _ | .condArrival _ => true
  | _ => false

/-- The thread has arrived and not left. -/
def Instr.leaves : Instr → Bool
  | .spinRelease _ | .fenceLeave _ | .condRelease _ => true
  | _ => false

/-- The thread has seen the arrival phase and arrives without another look. -/
def Instr.committed : Instr → Bool
  | .fenceArrive _ => true
  | _ => false

/-- The thread has seen the departure phase. -/
def Instr.departing : Instr → Bool
  | .fenceLeave _ => true
  | _ => false

/-- The argument of `waitFence`. -/
def Instr.keep : Instr → Bool
  | .fenceEnter k | .spinArrival k | .fenceArrive k | .condArrival k | .spinRelease k | .fenceLeave k
  | .condRelease k => k
  | _ => false

/-- What an instruction of `waitFence` does to the counters `c`, and what comes next. -/
inductive Cross (c : Counters) : Instr → Counters → List Instr → Prop where
  | look {i j : Instr} (hi : i.arrives = true) (hj : j.arrives = true) (hk : j.keep = i.keep)
      (hc : j.committed = true → c.arrival = true) : Cross c i c [j]
  | pass {i : Instr} (hi : i.arrives = true) (ha : i.committed = true ∨ c.arrival = true)
      (hl : c.members ≤ c.arrived + 1) : Cross c i c.pass []
  | wait {i j : Instr} (hi : i.arrives = true) (ha : i.committed = true ∨ c.arrival = true)
      (hl : c.arrived + 1 < c.members) (hj : j.leaves = true) (hk : j.keep = i.keep)
      (hd : j.departing = false) : Cross c i c.wait [j]
  | see {i j : Instr} (hi : i.leaves = true) (ha : c.arrival = false) (hj : j.leaves = true)
      (hk : j.keep = i.keep) : Cross c i c [j]
  | leave {i : Instr} (hi : i.leaves = true) (ha : i.departing = true ∨ c.arrival = false) :
      Cross c i c.leave []

/-- The thread stays in the fence, or it has passed it. -/
theorem Cross.next {c c' : Counters} {i : Instr} {js : List Instr} (h : Cross c i c' js) :
    js = [] ∨ ∃ j, js = [j] ∧ (j.arrives = true ∨ j.leaves = true) ∧ j.keep = i.keep := by
  cases h with
  | look _ hj hk => exact .inr ⟨_, rfl, .inl hj, hk⟩
  | wait _ _ _ hj hk => exact .inr ⟨_, rfl, .inr hj, hk⟩
  | see _ _ hj hk => exact .inr ⟨_, rfl, .inr hj, hk⟩
  | pass | leave => exact .inl rfl

namespace State

variable {s : State} {t u : Tid} {rest : List Instr} {i : Instr} {d : Determ} {l : Local}

theorem arrive_cross {k : Bool} (hi : i.arrives = true) (hk : k = i.keep)
    (ha : i.committed = true ∨ s.determ.isArrivalPhase = true)
    (h : some (s.determ.arrive (s.locals t) k rest) = some (d, l)) :
    ∃ js, Cross s.determ.fence i d.fence js ∧ l = (s.locals t).goto (js ++ rest) := by
  unfold Determ.arrive at h
  split at h <;> cases h
  · rename_i hl
    rw [Determ.fence_pass _ hl]
    exact ⟨[], .pass hi ha hl, rfl⟩
  · rename_i hl
    have hl' := Nat.not_le.mp hl
    rw [show (s.determ.arriveFence.setWait (s.locals t).threadIndex true).fence =
      s.determ.arriveFence.fence from rfl, Determ.fence_wait _ hl']
    refine ⟨[_], .wait hi ha hl' ?_ ?_ ?_, rfl⟩ <;> split <;> first | rfl | exact hk

/-- The instructions of the fence. -/
theorem own_cross (h : s.own t rest i = some (d, l)) (hi : i.arrives = true ∨ i.leaves = true)
    (hpos : i.leaves = true → 0 < s.determ.currthreads) :
    ∃ js, Cross s.determ.fence i d.fence js ∧ l = (s.locals t).goto (js ++ rest) := by
  cases i with
  | fenceEnter k =>
      simp only [own] at h
      split at h
      · rename_i ha
        exact arrive_cross rfl rfl (.inr ha) h
      · split at h <;> cases h
        · exact ⟨[.spinArrival k], .look rfl rfl rfl (by rintro ⟨⟩), rfl⟩
        · exact ⟨[.condArrival k], .look rfl rfl rfl (by rintro ⟨⟩), rfl⟩
  | spinArrival k =>
      simp only [own] at h
      split at h <;> cases h
      rename_i ha
      exact ⟨[.fenceArrive k], .look rfl rfl rfl fun _ => ha, rfl⟩
  | fenceArrive k => exact arrive_cross rfl rfl (.inl rfl) h
  | condArrival k =>
      simp only [own] at h
      split at h
      · rename_i ha
        exact arrive_cross rfl rfl (.inr ha) h
      · cases h
  | spinRelease k =>
      simp only [own] at h
      split at h <;> cases h
      rename_i ha
      exact ⟨[.fenceLeave k], .see rfl (Bool.eq_false_of_not_eq_true ha) rfl rfl, rfl⟩
  | fenceLeave k =>
      cases h
      rw [Determ.fence_leave _ (hpos rfl)]
      exact ⟨[], .leave rfl (.inl rfl), rfl⟩
  | condRelease k =>
      simp only [own] at h
      split at h <;> cases h
      rename_i ha
      rw [Determ.fence_leave _ (hpos rfl)]
      exact ⟨[], .leave rfl (.inr (Bool.eq_false_of_not_eq_true ha)), rfl⟩
  | _ => rcases hi with hi | hi <;> cases hi

theorem others_of_fence (hi : i.arrives = true ∨ i.leaves = true) : s.others t i = s.locals := by
  cases i <;> first | rfl | rcases hi with hi | hi <;> cases hi

end State

/-! ## The members -/

/-- The thread waits in the fence for the others, or has yet to leave it. -/
def Local.waits (l : Local) : Bool := l.pending.head?.any Instr.leaves

def Local.arriving (l : Local) : Bool := l.pending.head?.any Instr.committed

def Local.departs (l : Local) : Bool := l.pending.head?.any Instr.departing

/-- The next instruction is not inside `waitFence`. -/
def outside (is : List Instr) : Bool := is.head?.all fun i => !i.leaves && !i.committed

theorem Instr.leaves_of_departing {i : Instr} (h : i.departing = true) : i.leaves = true := by
  cases i <;> first | rfl | cases h

theorem Instr.not_leaves_of_arrives {i : Instr} (h : i.arrives = true) : i.leaves = false := by
  cases i <;> first | rfl | cases h

theorem Instr.not_arrives_of_leaves {i : Instr} (h : i.leaves = true) : i.arrives = false := by
  cases i <;> first | rfl | cases h

theorem Instr.arrives_of_committed {i : Instr} (h : i.committed = true) : i.arrives = true := by
  cases i <;> first | rfl | cases h

theorem Local.waits_cons {l : Local} {i : Instr} {is : List Instr} (h : l.pending = i :: is) :
    l.waits = i.leaves := by
  rw [waits, h]
  rfl

theorem Local.arriving_cons {l : Local} {i : Instr} {is : List Instr} (h : l.pending = i :: is) :
    l.arriving = i.committed := by
  rw [arriving, h]
  rfl

theorem Local.departs_cons {l : Local} {i : Instr} {is : List Instr} (h : l.pending = i :: is) :
    l.departs = i.departing := by
  rw [departs, h]
  rfl

theorem Local.of_outside {l : Local} (h : outside l.pending = true) :
    l.waits = false ∧ l.arriving = false := by
  unfold waits arriving
  unfold outside at h
  cases hp : l.pending with
  | nil => exact ⟨rfl, rfl⟩
  | cons i is =>
      rw [hp] at h
      simpa using h

theorem Local.waits_of_departs {l : Local} (h : l.departs = true) : l.waits = true := by
  unfold departs at h
  cases hp : l.pending with
  | nil =>
      rw [hp] at h
      cases h
  | cons i is =>
      rw [hp] at h
      rw [Local.waits_cons hp]
      exact Instr.leaves_of_departing h

namespace State

/-- The members that have arrived at the fence and not left. -/
def crew (s : State) (M : Finset Tid) : Finset Tid := M.filter fun u => (s.locals u).waits = true

/-- The fence and the program points of its members `M` agree. -/
structure Fenced {σ : Type*} (s : State) (next : σ → σ) (M : Finset Tid) (side : Tid → σ) : Prop where
  meets : Meets s.determ.fence next M (s.crew M) side
  committed : ∀ u ∈ M, (s.locals u).arriving = true → s.determ.isArrivalPhase = true
  departing : ∀ u ∈ M, (s.locals u).departs = true → s.determ.isArrivalPhase = false

variable {σ : Type*} {next : σ → σ} {M : Finset Tid} {side : Tid → σ} {s w : State} {t u : Tid}
  {rest : List Instr} {i : Instr} {d : Determ} {l : Local}

theorem mem_crew : u ∈ s.crew M ↔ u ∈ M ∧ (s.locals u).waits = true := Finset.mem_filter

theorem crew_same (h : ∀ u ∈ M, (w.locals u).waits = (s.locals u).waits) : w.crew M = s.crew M :=
  Finset.filter_congr fun u hu => by rw [h u hu]

section Crew

variable (ho : ∀ u ∈ M, u ≠ t → (w.locals u).pending = (s.locals u).pending)
include ho

theorem crew_insert (hm : t ∈ M) (ht : (w.locals t).waits = true) :
    w.crew M = insert t (s.crew M) := by
  ext u
  rw [Finset.mem_insert, mem_crew, mem_crew]
  by_cases hut : u = t
  · simp [hut, hm, ht]
  · simp only [hut, false_or]
    refine and_congr_right fun hu => ?_
    rw [Local.waits, ho u hu hut, Local.waits]

theorem crew_erase (ht : (w.locals t).waits = false) : w.crew M = (s.crew M).erase t := by
  ext u
  rw [Finset.mem_erase, mem_crew, mem_crew]
  by_cases hut : u = t
  · simp [hut, ht]
  · simp only [hut, ne_eq, not_false_eq_true, true_and]
    refine and_congr_right fun hu => ?_
    rw [Local.waits, ho u hu hut, Local.waits]

end Crew

namespace Fenced

/-- A member that waits has arrived. -/
theorem curr_pos (h : s.Fenced next M side) (ht : t ∈ M) (hw : (s.locals t).waits = true) :
    0 < s.determ.currthreads := by
  have hc : s.determ.currthreads = (s.crew M).card := h.meets.arrived
  rw [hc, Finset.card_pos]
  exact ⟨t, mem_crew.mpr ⟨ht, hw⟩⟩

theorem members_pos (h : s.Fenced next M side) (ht : t ∈ M) : 0 < s.determ.maxthreads := by
  have hc : s.determ.maxthreads = M.card := h.meets.members
  rw [hc, Finset.card_pos]
  exact ⟨t, ht⟩

/-- Nobody has arrived, and the members are on one side. -/
theorem fresh (hm : s.determ.maxthreads = M.card) (hc : s.determ.currthreads = 0)
    (ha : s.determ.isArrivalPhase = true) (ho : ∀ u ∈ M, outside (s.locals u).pending = true)
    (hs : ∀ u ∈ M, ∀ v ∈ M, side u = side v) : s.Fenced next M side := by
  have hcrew : s.crew M = ∅ := by
    rw [crew, Finset.filter_eq_empty_iff]
    intro u hu hw
    exact absurd ((Local.of_outside (ho u hu)).1.symm.trans hw) nofun
  refine ⟨?_, fun u hu hcm => ?_, fun u hu hd => ?_⟩
  · rw [hcrew]
    exact ⟨Finset.empty_subset _, hm, hc, fun _ he => he.symm,
      fun hf => absurd (ha.symm.trans hf) nofun, fun _ => hs,
      fun hf => absurd (ha.symm.trans hf) nofun⟩
  · exact ha
  · exact absurd ((Local.of_outside (ho u hu)).1.symm.trans (Local.waits_of_departs hd)) nofun

/-- A step outside the fence, or of another thread. -/
theorem frame {side' : Tid → σ} (h : s.Fenced next M side) (hf : w.determ.fence = s.determ.fence)
    (ho : ∀ u ∈ M, (w.locals u).pending = (s.locals u).pending ∨
      outside (s.locals u).pending = true ∧ outside (w.locals u).pending = true)
    (hs : ∀ u ∈ M, side' u = side u) : w.Fenced next M side' := by
  have hphase : w.determ.isArrivalPhase = s.determ.isArrivalPhase := congrArg Counters.arrival hf
  have hcrew : w.crew M = s.crew M := by
    refine crew_same fun u hu => ?_
    rcases ho u hu with hp | ⟨h1, h2⟩
    · rw [Local.waits, hp, Local.waits]
    · exact (Local.of_outside h2).1.trans (Local.of_outside h1).1.symm
  refine ⟨?_, fun u hu hc => ?_, fun u hu hd => ?_⟩
  · rw [hf, hcrew]
    exact h.meets.congr hs
  · rw [hphase]
    rcases ho u hu with hp | ⟨-, h2⟩
    · rw [Local.arriving, hp] at hc
      exact h.committed u hu hc
    · rw [(Local.of_outside h2).2] at hc
      cases hc
  · rw [hphase]
    rcases ho u hu with hp | ⟨-, h2⟩
    · rw [Local.departs, hp] at hd
      exact h.departing u hu hd
    · exact absurd ((Local.of_outside h2).1.symm.trans (Local.waits_of_departs hd)) nofun

/-- The phase changes when all the others have arrived, or none of them has. -/
theorem of_meets {side' : Tid → σ} {M' : Finset Tid} (h : s.Fenced next M side) (hsub : M' ⊆ M)
    (ho : ∀ u ∈ M', u ≠ t → (w.locals u).pending = (s.locals u).pending)
    (hm : Meets w.determ.fence next M' (w.crew M') side')
    (hc : t ∈ M' → (w.locals t).arriving = true → w.determ.isArrivalPhase = true)
    (hd : t ∈ M' → (w.locals t).departs = true → w.determ.isArrivalPhase = false)
    (hphase : w.determ.isArrivalPhase = s.determ.isArrivalPhase ∨
      (w.determ.isArrivalPhase = false ∧ ∀ u ∈ M', u ≠ t → (s.locals u).waits = true) ∨
      (w.determ.isArrivalPhase = true ∧ ∀ u ∈ M', u ≠ t → (s.locals u).waits = false)) :
    w.Fenced next M' side' where
  meets := hm
  committed u hu huc := by
    by_cases hut : u = t
    · subst hut
      exact hc hu huc
    rw [Local.arriving, ho u hu hut] at huc
    rcases hphase with he | ⟨-, hall⟩ | ⟨he, -⟩
    · exact he.trans (h.committed u (hsub hu) huc)
    · have hw := hall u hu hut
      cases hp : (s.locals u).pending with
      | nil =>
          rw [hp] at huc
          cases huc
      | cons i is =>
          rw [hp] at huc
          rw [Local.waits_cons hp,
            Instr.not_leaves_of_arrives (Instr.arrives_of_committed huc)] at hw
          cases hw
    · exact he
  departing u hu hud := by
    by_cases hut : u = t
    · subst hut
      exact hd hu hud
    rw [Local.departs, ho u hu hut] at hud
    rcases hphase with he | ⟨he, -⟩ | ⟨-, hall⟩
    · exact he.trans (h.departing u (hsub hu) hud)
    · exact he
    · exact absurd ((hall u hu hut).symm.trans (Local.waits_of_departs hud)) nofun

/-- A member takes a step in the fence. -/
theorem cross {js : List Instr} (h : s.Fenced next M side) (ht : t ∈ M)
    (hp : (s.locals t).pending = i :: rest) (hrest : outside rest = true)
    (hx : Cross s.determ.fence i w.determ.fence js) (hpw : (w.locals t).pending = js ++ rest)
    (ho : ∀ u ∈ M, u ≠ t → (w.locals u).pending = (s.locals u).pending) :
    w.Fenced next M (if js = [] then Function.update side t (next (side t)) else side) := by
  have hwaits : (s.locals t).waits = i.leaves := Local.waits_cons hp
  have hother : ∀ {u}, u ∈ M → u ≠ t → (u ∈ s.crew M ↔ (s.locals u).waits = true) :=
    fun hu _ => mem_crew.trans (and_iff_right hu)
  have hphase : i.arrives = true → i.committed = true ∨ s.determ.fence.arrival = true →
      s.determ.isArrivalPhase = true := by
    rintro - (hc | ha)
    · exact h.committed t ht ((Local.arriving_cons hp).trans hc)
    · exact ha
  generalize hc' : w.determ.fence = c' at hx
  cases hx with
  | look hi hj _ hcj =>
      rw [if_neg (List.cons_ne_nil _ _)]
      have hw : (w.locals t).waits = (s.locals t).waits := by
        rw [hwaits, Local.waits_cons hpw, Instr.not_leaves_of_arrives hi,
          Instr.not_leaves_of_arrives hj]
      have hph : w.determ.isArrivalPhase = s.determ.isArrivalPhase := congrArg Counters.arrival hc'
      refine h.of_meets (t := t) subset_rfl ho ?_ (fun _ hcm => ?_) (fun _ hdp => ?_) (.inl hph)
      · rw [hc', crew_same fun u hu => ?_]
        · exact h.meets
        · by_cases hut : u = t
          · rw [hut, hw]
          · rw [Local.waits, ho u hu hut, Local.waits]
      · rw [Local.arriving_cons hpw] at hcm
        exact hph.trans (hcj hcm)
      · rw [Local.departs_cons hpw] at hdp
        exact absurd ((Instr.not_leaves_of_arrives hj).symm.trans (Instr.leaves_of_departing hdp)) nofun
  | pass hi ha hl =>
      rw [if_pos rfl]
      have hph := hphase hi ha
      have htA : t ∉ s.crew M := fun hm => by
        have hm' := (mem_crew.mp hm).2
        rw [hwaits, Instr.not_leaves_of_arrives hi] at hm'
        cases hm'
      have hout : outside (w.locals t).pending = true := by rw [hpw]; exact hrest
      obtain ⟨hw, hcm⟩ := Local.of_outside hout
      refine h.of_meets (t := t) subset_rfl ho ?_ (fun _ hc => ?_) (fun _ hd => ?_) ?_
      · rw [hc', crew_erase ho hw, Finset.erase_eq_of_notMem htA]
        exact h.meets.pass hph ht htA hl
      · exact absurd (hcm.symm.trans hc) nofun
      · exact absurd (hw.symm.trans (Local.waits_of_departs hd)) nofun
      · cases hpw' : w.determ.isArrivalPhase with
        | true => exact .inl hph.symm
        | false =>
            refine .inr (.inl ⟨rfl, fun u hu hut => ?_⟩)
            rw [← hother hu hut, h.meets.last ht htA hl]
            exact Finset.mem_erase.mpr ⟨hut, hu⟩
  | wait hi ha hl hj _ hdj =>
      rw [if_neg (List.cons_ne_nil _ _)]
      have hph := hphase hi ha
      have htA : t ∉ s.crew M := fun hm => by
        have hm' := (mem_crew.mp hm).2
        rw [hwaits, Instr.not_leaves_of_arrives hi] at hm'
        cases hm'
      have hpe : w.determ.isArrivalPhase = s.determ.isArrivalPhase := congrArg Counters.arrival hc'
      refine h.of_meets (t := t) subset_rfl ho ?_ (fun _ _ => hpe.trans hph) (fun _ hd => ?_) (.inl hpe)
      · rw [hc', crew_insert ho ht ((Local.waits_cons hpw).trans hj)]
        exact h.meets.wait hph ht htA hl
      · rw [Local.departs_cons hpw, hdj] at hd
        cases hd
  | see hi ha hj =>
      rw [if_neg (List.cons_ne_nil _ _)]
      have hpe : w.determ.isArrivalPhase = s.determ.isArrivalPhase := congrArg Counters.arrival hc'
      refine h.of_meets (t := t) subset_rfl ho ?_ (fun _ hc => ?_) (fun _ _ => hpe.trans ha) (.inl hpe)
      · rw [hc', crew_same fun u hu => ?_]
        · exact h.meets
        · by_cases hut : u = t
          · rw [hut, hwaits, Local.waits_cons hpw, hi, hj]
          · rw [Local.waits, ho u hu hut, Local.waits]
      · rw [Local.arriving_cons hpw] at hc
        rw [Instr.not_leaves_of_arrives (Instr.arrives_of_committed hc)] at hj
        cases hj
  | leave hi ha =>
      rw [if_pos rfl]
      have hph : s.determ.isArrivalPhase = false := by
        rcases ha with hd | ha
        · exact h.departing t ht ((Local.departs_cons hp).trans hd)
        · exact ha
      have htA : t ∈ s.crew M := mem_crew.mpr ⟨ht, hwaits.trans hi⟩
      have hout : outside (w.locals t).pending = true := by rw [hpw]; exact hrest
      obtain ⟨hw, hcm⟩ := Local.of_outside hout
      have hmeets := h.meets.leave hph htA
      rw [← crew_erase ho hw, ← hc'] at hmeets
      refine h.of_meets (t := t) subset_rfl ho hmeets (fun _ hc => ?_) (fun _ hd => ?_) ?_
      · exact absurd (hcm.symm.trans hc) nofun
      · exact absurd (hw.symm.trans (Local.waits_of_departs hd)) nofun
      · cases hpw' : w.determ.isArrivalPhase with
        | false => exact .inl hph.symm
        | true =>
            refine .inr (.inr ⟨rfl, fun u hu hut => ?_⟩)
            have hclosed : s.determ.fence.leave.arrival = true :=
              (congrArg Counters.arrival hc').symm.trans hpw'
            by_contra huw
            rw [Bool.not_eq_false, ← hother hu hut] at huw
            have hm := Finset.mem_erase.mpr ⟨hut, huw⟩
            rw [(h.meets.leave_closes hph htA).mp hclosed] at hm
            exact Finset.notMem_empty u hm

/-- A member that is outside the fence goes away. -/
theorem drop (h : s.Fenced next M side) (ht : t ∈ M) (hout : outside (s.locals t).pending = true)
    (hf : w.determ.fence = s.determ.fence.drop)
    (ho : ∀ u ∈ M, u ≠ t → (w.locals u).pending = (s.locals u).pending) :
    w.Fenced next (M.erase t) side := by
  have ho' : ∀ u ∈ M.erase t, (w.locals u).pending = (s.locals u).pending := fun u hu =>
    ho u (Finset.mem_of_mem_erase hu) (Finset.ne_of_mem_erase hu)
  have htA : t ∉ s.crew M := fun hm =>
    absurd ((Local.of_outside hout).1.symm.trans (mem_crew.mp hm).2) nofun
  have hcrew : w.crew (M.erase t) = s.crew M := by
    ext u
    rw [mem_crew, mem_crew]
    by_cases hut : u = t
    · subst hut
      simp [(Local.of_outside hout).1]
    · rw [Finset.mem_erase, and_iff_right hut]
      refine and_congr_right fun hu => ?_
      rw [Local.waits, ho u hu hut, Local.waits]
  have hpe : w.determ.isArrivalPhase = s.determ.fence.drop.arrival := congrArg Counters.arrival hf
  refine h.of_meets (t := t) (Finset.erase_subset t M) (fun u hu _ => ho' u hu) ?_
    (fun hm => absurd rfl (Finset.ne_of_mem_erase hm)) (fun hm => absurd rfl (Finset.ne_of_mem_erase hm)) ?_
  · rw [hf, hcrew]
    exact h.meets.drop ht htA
  · by_cases hc : s.determ.maxthreads - 1 ≤ s.determ.currthreads ∧ s.determ.maxthreads - 1 ≠ 0
    · refine .inr (.inl ⟨hpe.trans (if_pos hc), fun u hu _ => ?_⟩)
      rw [← h.meets.drop_opens ht htA hc.1] at hu
      exact (mem_crew.mp hu).2
    · exact .inl (hpe.trans (if_neg hc))

end Fenced

end State

end Dthreads.Scheduler
