import Dthreads.Scheduler.Token

/-! # Thread indices

A thread takes its index from a counter when it registers. Only the last thread that is left when
it joins another one resets the counter. -/

namespace Dthreads.Scheduler

open Transition

/-- `MAX_THREADS`. -/
def maxThreads : ℕ := 2048

/-- A run remembers which threads have been joined. -/
structure Joins where
  state : State
  joined : Tid → Bool

namespace Local

/-- The process has an index of its own. -/
def registered (l : Local) : Bool :=
  match l.pending with
  | .childRegister _ :: _ => false
  | _ => true

/-- The thread has exited, as far as the scheduler is concerned. -/
def gone (l : Local) : Bool := !l.live || l.exiting

end Local

namespace Joins

/-- `xthread::join` of `v` frees the handle. -/
def joinedAfter (j : Joins) : Label → Tid → Bool
  | .run t =>
      match (j.state.locals t).pending with
      | .storeResult v :: _ => Function.update j.joined v true
      | _ => j.joined
  | .call _ _ => j.joined

def step (j : Joins) (a : Label) : Option Joins :=
  (j.state.step a).map fun s => ⟨s, j.joinedAfter a⟩

def boot (coresNumb : ℕ) : Joins := ⟨State.boot coresNumb, fun _ => false⟩

/-- Thread `u` is alive, or exited but not yet joined. -/
def held (j : Joins) (u : Tid) : Prop :=
  u ∈ j.state.procs ∧ (j.state.locals u).registered = true ∧
    ((j.state.locals u).gone = false ∨ j.joined u = false)

instance (j : Joins) (u : Tid) : Decidable (j.held u) := inferInstanceAs (Decidable (_ ∧ _ ∧ _))

/-- Threads spawn, join and exit, and a new process has a new pid. -/
def lifecycle (j : Joins) : Label → Bool
  | .call _ (.spawn _) | .call _ (.join _) | .call _ .threadDeregister => true
  | .call _ _ => false
  | .run t =>
      match (j.state.locals t).pending with
      | .forkSpawn child :: _ => child ∉ j.state.procs
      | _ => true

/-- The counter is below `MAX_THREADS` when a thread registers, and only the initial thread closes
the fence, when all others have been joined. -/
def roomy (j : Joins) : Label → Bool
  | .call _ _ => true
  | .run t =>
      match (j.state.locals t).pending with
      | .childRegister _ :: _ => j.state.determ.threadIndex < maxThreads
      | .closeIfSingle :: _ =>
          j.state.determ.isSingleAliveThread = true →
            (j.state.locals t).threadIndex = 0 ∧ ∀ u ∈ j.state.procs, u ≠ t →
              (j.state.locals u).gone = true ∧ j.joined u = true
      | _ => true

/-! ## The invariant -/

structure Indexed (j : Joins) : Prop where
  procs : ∀ u, (j.state.locals u).live = true → u ∈ j.state.procs
  pos : 0 < j.state.determ.threadIndex
  below : ∀ u, j.held u → (j.state.locals u).threadIndex < j.state.determ.threadIndex ∧
    (j.state.locals u).threadIndex < maxThreads
  distinct : ∀ u v, j.held u → j.held v →
    (j.state.locals u).threadIndex = (j.state.locals v).threadIndex → u = v

namespace Indexed

variable {j j' : Joins} {t u : Tid} {i : Instr} {rest : List Instr} {d : Determ} {l : Local}

/-- A state in which no thread has come to hold an index, with a counter that has not gone back. -/
theorem of_held (h : Indexed j) (hprocs : ∀ u, (j'.state.locals u).live = true → u ∈ j'.state.procs)
    (hle : j.state.determ.threadIndex ≤ j'.state.determ.threadIndex)
    (hheld : ∀ u, j'.held u → j.held u ∧
      (j'.state.locals u).threadIndex = (j.state.locals u).threadIndex) : Indexed j' where
  procs := hprocs
  pos := h.pos.trans_le hle
  below u hu := by
    obtain ⟨hu', hidx⟩ := hheld u hu
    rw [hidx]
    exact ⟨(h.below u hu').1.trans_le hle, (h.below u hu').2⟩
  distinct u v hu hv he := by
    obtain ⟨hu', hui⟩ := hheld u hu
    obtain ⟨hv', hvi⟩ := hheld v hv
    exact h.distinct u v hu' hv' (hui.symm.trans (he.trans hvi))

theorem called {op : Op} (h : Indexed j) (hl : (j.state.locals t).live = true)
    (hnil : (j.state.locals t).pending = []) : Indexed ⟨j.state.called t op, j.joined⟩ := by
  refine h.of_held (fun u hu => ?_) le_rfl fun u hu => ?_
  · rw [State.called_locals] at hu
    split at hu
    · rename_i hut
      exact hut ▸ h.procs t hl
    · exact h.procs u hu
  · obtain ⟨hmem, hreg, hgone⟩ := hu
    by_cases hut : u = t
    · subst hut
      refine ⟨⟨hmem, by simp [Local.registered, hnil], .inl ?_⟩, ?_⟩
      · simp [Local.gone, Local.exiting, hl, hnil]
      · dsimp only
        rw [State.called_locals, if_pos rfl]
        rfl
    · dsimp only at hreg hgone ⊢
      rw [State.called_locals, if_neg hut] at hreg hgone ⊢
      exact ⟨⟨hmem, hreg, hgone⟩, rfl⟩

section Ran

variable (h : Indexed j) (hl : (j.state.locals t).live = true)
  (hp : (j.state.locals t).pending = i :: rest) (ho : j.state.own t rest i = some (d, l))
include h hl hp ho

/-- The run after the instruction `i` of `t`. -/
def after (j : Joins) (t : Tid) (i : Instr) (d : Determ) (l : Local) (joined : Tid → Bool) : Joins :=
  ⟨⟨d, Function.update (j.state.others t i) t l, j.state.created i⟩, joined⟩

omit h hl hp ho in
theorem mem_procs_of_created (hu : u ∈ j.state.created i) (hi : i ≠ .forkSpawn u) :
    u ∈ j.state.procs := by
  cases i with
  | forkSpawn c =>
      simp only [State.created] at hu
      split at hu
      · exact hu
      · exact (List.mem_append.mp hu).resolve_right fun hx =>
          hi (congrArg _ (List.mem_singleton.mp hx).symm)
  | _ => exact hu

/-- A thread that holds an index after an instruction held it before, but for the thread that
registers. -/
theorem held_ran {joined : Tid → Bool} (hjoined : ∀ u, joined u = false → j.joined u = false)
    (hu : (after j t i d l joined).held u) (hreg : ∀ p, i = .childRegister p → u ≠ t) :
    j.held u ∧ ((after j t i d l joined).state.locals u).threadIndex =
      (j.state.locals u).threadIndex := by
  obtain ⟨hmem, hr, hg⟩ := hu
  by_cases hut : u = t
  · subst hut
    have hi : ∀ p, i ≠ .childRegister p := fun p hp => hreg p hp rfl
    have hru : (j.state.locals u).registered = true := by
      unfold Local.registered
      rw [hp]
      cases i <;> first | rfl | exact absurd rfl (hi _)
    simp only [after, Function.update_self] at hg ⊢
    refine ⟨⟨h.procs u hl, hru, ?_⟩, (State.own_entries ho hi).2.1⟩
    by_cases hex : (j.state.locals u).exiting = true
    · simp only [Local.exiting, hp, decide_eq_true_eq] at hex
      obtain ⟨rfl, rfl⟩ := List.cons.inj hex
      cases ho
      simp only [Local.gone, Bool.not_false, Bool.true_or, Bool.true_eq_false, false_or] at hg
      exact .inr (hjoined u hg)
    · exact .inl (by simp [Local.gone, hl, hex])
  · simp only [after, Function.update_of_ne hut] at hmem hr hg ⊢
    have hi : i ≠ .forkSpawn u := by
      rintro rfl
      simp only [State.others, Function.update_self] at hr
      cases hr
    refine ⟨⟨mem_procs_of_created hmem hi, ?_⟩, ?_⟩
    · rcases j.state.others_cases t i u with ho | ⟨ho, -⟩ | ⟨hf, -⟩ | ⟨-, ho⟩
      · rw [ho] at hr hg
        exact ⟨hr, hg.imp_right (hjoined u)⟩
      · rw [ho] at hr hg
        exact ⟨hr, hg.imp_right (hjoined u)⟩
      · exact absurd hf hi
      · rw [ho] at hr hg
        simp only [Local.gone, Bool.not_false, Bool.true_or, Bool.true_eq_false, false_or] at hg
        exact ⟨hr, .inr (hjoined u hg)⟩
    · rcases j.state.others_cases t i u with ho | ⟨ho, -⟩ | ⟨hf, -⟩ | ⟨-, ho⟩
      · rw [ho]
      · rw [ho]
      · exact absurd hf hi
      · rw [ho]

theorem procs_ran (hu : ((Function.update (j.state.others t i) t l) u).live = true) :
    u ∈ j.state.created i := by
  by_cases hut : u = t
  · exact State.mem_created (h.procs u (hut ▸ hl))
  · rw [Function.update_of_ne hut] at hu
    rcases j.state.others_cases t i u with ho | ⟨ho, -⟩ | ⟨rfl, -⟩ | ⟨-, ho⟩
    · exact State.mem_created (h.procs u (ho ▸ hu))
    · rw [ho] at hu
      exact State.mem_created (h.procs u hu)
    · simp only [State.created]
      split
      · assumption
      · simp
    · rw [ho] at hu
      cases hu

/-- A thread that registers takes the counter as its index. -/
theorem registers {joined : Tid → Bool} (hjoined : ∀ u, joined u = false → j.joined u = false)
    {p : ℕ} (hi : i = .childRegister p) (hroom : j.state.determ.threadIndex < maxThreads) :
    Indexed (after j t i d l joined) := by
  subst hi
  have hold : ∀ u, (after j t (.childRegister p) d l joined).held u → u ≠ t → j.held u ∧
      ((after j t (.childRegister p) d l joined).state.locals u).threadIndex =
        (j.state.locals u).threadIndex :=
    fun u hu hut => h.held_ran hl hp ho hjoined hu fun _ _ => hut
  have hself : ((after j t (.childRegister p) d l joined).state.locals t).threadIndex =
      j.state.determ.threadIndex := by
    obtain ⟨rfl, rfl⟩ : j.state.determ.childRegister (j.state.locals t) t p rest = (d, l) :=
      Option.some.inj ho
    simp [after]
  have hcounter : d.threadIndex = j.state.determ.threadIndex + 1 := by
    obtain ⟨rfl, rfl⟩ : j.state.determ.childRegister (j.state.locals t) t p rest = (d, l) :=
      Option.some.inj ho
    rfl
  have hlt : ∀ u, (after j t (.childRegister p) d l joined).held u → u ≠ t →
      ((after j t (.childRegister p) d l joined).state.locals u).threadIndex <
        j.state.determ.threadIndex := fun u hu hut =>
    (hold u hu hut).2 ▸ (h.below u (hold u hu hut).1).1
  exact
    { procs := fun u hu => h.procs_ran hl hp ho hu
      pos := by
        change 0 < d.threadIndex
        omega
      below := fun u hu => by
        change _ < d.threadIndex ∧ _
        by_cases hut : u = t
        · subst hut
          omega
        · have := hlt u hu hut
          omega
      distinct := fun u v hu hv he => by
        by_cases hut : u = t
        · subst hut
          by_contra hvt
          have := hlt v hv (Ne.symm hvt)
          omega
        · by_cases hvt : v = t
          · subst hvt
            have := hlt u hu hut
            omega
          · rw [(hold u hu hut).2, (hold v hv hvt).2] at he
            exact h.distinct u v (hold u hu hut).1 (hold v hv hvt).1 he }

/-- The fence is closed when only the initial thread holds an index. -/
theorem closes {joined : Tid → Bool} (hjoined : ∀ u, joined u = false → j.joined u = false)
    (hi : i = .closeIfSingle) (hcounter : d.threadIndex = 1)
    (hzero : (j.state.locals t).threadIndex = 0)
    (hothers : ∀ u ∈ j.state.procs, u ≠ t → (j.state.locals u).gone = true ∧ j.joined u = true) :
    Indexed (after j t i d l joined) := by
  have hold : ∀ u, (after j t i d l joined).held u → u = t ∧
      ((after j t i d l joined).state.locals u).threadIndex = 0 := by
    intro u hu
    obtain ⟨⟨hmem, -, hg⟩, hidx⟩ := h.held_ran hl hp ho hjoined hu fun p hp => by simp [hi] at hp
    by_cases hut : u = t
    · exact ⟨hut, hidx.trans (hut ▸ hzero)⟩
    · obtain ⟨hgone, hj⟩ := hothers u hmem hut
      simp [hgone, hj] at hg
  exact
    { procs := fun u hu => h.procs_ran hl hp ho hu
      pos := by
        change 0 < d.threadIndex
        omega
      below := fun u hu => by
        change _ < d.threadIndex ∧ _
        rw [(hold u hu).2, hcounter]
        exact ⟨Nat.one_pos, by decide⟩
      distinct := fun u v hu hv _ => (hold u hu).1.trans (hold v hv).1.symm }

end Ran

theorem joined_of_joinedAfter {a : Label} (hu : j.joinedAfter a u = false) : j.joined u = false := by
  cases a with
  | call t op => exact hu
  | run t =>
      simp only [joinedAfter] at hu
      generalize (j.state.locals t).pending = is at hu
      cases is with
      | nil => exact hu
      | cons i rest =>
          cases i with
          | storeResult v =>
              have hv : Function.update j.joined v true u = false := hu
              by_cases huv : u = v
              · subst huv
                simp at hv
              · rwa [Function.update_of_ne huv] at hv
          | _ => exact hu

theorem step {a : Label} (h : Indexed j) (hg : roomy j a = true) (hs : j.step a = some j') :
    Indexed j' := by
  rw [Joins.step, Option.map_eq_some_iff] at hs
  obtain ⟨s, hs, rfl⟩ := hs
  cases a with
  | call t op =>
      obtain ⟨hl, hnil, rfl⟩ := State.step_call hs
      exact h.called hl hnil
  | run t =>
      obtain ⟨i, rest, d, l, hl, hp, ho, rfl⟩ := State.step_run hs
      have hjoined : ∀ u, j.joinedAfter (.run t) u = false → j.joined u = false :=
        fun u => joined_of_joinedAfter
      simp only [roomy, hp] at hg
      by_cases hreg : ∃ p, i = .childRegister p
      · obtain ⟨p, rfl⟩ := hreg
        exact h.registers hl hp ho hjoined rfl (of_decide_eq_true hg)
      · have hsame : d.threadIndex = j.state.determ.threadIndex →
            Indexed (after j t i d l (j.joinedAfter (.run t))) := fun hd =>
          h.of_held (fun u hu => h.procs_ran hl hp ho hu) hd.ge fun u hu =>
            h.held_ran hl hp ho hjoined hu fun p hi => absurd ⟨p, hi⟩ hreg
        rcases State.own_fixed ho with hd | ⟨-, hd⟩ | ⟨-, -, hd⟩ | ⟨hi, -⟩ | ⟨rfl, hsingle, hd⟩
        · exact hsame (congrArg (fun x => x.2.2) hd)
        · exact hsame (congrArg (fun x => x.2.2) hd)
        · exact hsame (congrArg (fun x => x.2.2) hd)
        · exact absurd hi hreg
        · obtain ⟨hzero, hothers⟩ := of_decide_eq_true hg hsingle
          exact h.closes hl hp ho hjoined rfl (congrArg (fun x => x.2.2) hd) hzero hothers

end Indexed

theorem indexed_boot (coresNumb : ℕ) : Indexed (boot coresNumb) where
  procs u hu := by simpa [boot, State.boot] using hu
  pos := Nat.one_pos
  below u _ := ⟨Nat.one_pos, (by decide : 0 < maxThreads)⟩
  distinct u v hu hv _ := by
    have hu1 : u = 1 := by simpa [boot, State.boot] using hu.1
    have hv1 : v = 1 := by simpa [boot, State.boot] using hv.1
    rw [hu1, hv1]

/-! ## The law -/

/-- In a run under the condition the threads that are alive or not yet joined have distinct indices,
all of them below `MAX_THREADS`. -/
theorem indices_distinct {n : ℕ} {ls : List Label} {w : Joins} {u v : Tid}
    (hr : Run Joins.step (fun j a => lifecycle j a = true ∧ roomy j a = true) (boot n) ls w)
    (hu : w.held u) (hv : w.held v) :
    (w.state.locals u).threadIndex < maxThreads ∧
      ((w.state.locals u).threadIndex = (w.state.locals v).threadIndex → u = v) := by
  have h : Indexed w := Run.invariant (fun _ _ _ h hg hs => h.step hg.2 hs) hr (indexed_boot n)
  exact ⟨(h.below u hu).2, h.distinct u v hu hv⟩

/-- Main joins thread 2 before it spawns thread 3, which gets the index of thread 2. -/
theorem indices_distinct_again : ∃ w,
    Run step (fun j a => lifecycle j a = true ∧ roomy j a = true) (boot 4)
      (.call 1 (.spawn 2) :: Label.runs 1 6 ++ Label.runs 2 2 ++ Label.runs 1 2 ++
        .call 1 (.join 2) :: Label.runs 1 4 ++ Label.runs 2 2 ++
        .call 2 .threadDeregister :: Label.runs 2 6 ++ Label.runs 1 7 ++
        .call 1 (.spawn 3) :: Label.runs 1 6 ++ Label.runs 3 1) w ∧
      w.held 1 ∧ w.held 3 ∧ (w.state.locals 3).threadIndex = (w.state.locals 2).threadIndex ∧
      (w.state.locals 1).threadIndex ≠ (w.state.locals 3).threadIndex := by
  have hrun : (execGuarded step (fun j a => lifecycle j a = true ∧ roomy j a = true) (boot 4)
      (.call 1 (.spawn 2) :: Label.runs 1 6 ++ Label.runs 2 2 ++ Label.runs 1 2 ++
        .call 1 (.join 2) :: Label.runs 1 4 ++ Label.runs 2 2 ++
        .call 2 .threadDeregister :: Label.runs 2 6 ++ Label.runs 1 7 ++
        .call 1 (.spawn 3) :: Label.runs 1 6 ++ Label.runs 3 1)).any
      (fun w => decide (w.held 1 ∧ w.held 3 ∧
        (w.state.locals 3).threadIndex = (w.state.locals 2).threadIndex)) = true := by
    decide +kernel
  obtain ⟨w, hr, h1, h3, hi⟩ := exists_run_of_any hrun
  exact ⟨w, hr, h1, h3, hi, fun he => absurd ((indices_distinct hr h1 h3).2 he) (by decide)⟩

/-- Main spawns threads 2 and 3, and joins thread 3 when both have exited. -/
def siblings : List Label :=
  .call 1 (.spawn 2) :: Label.runs 1 6 ++ Label.runs 2 2 ++ Label.runs 1 2 ++
  .call 1 (.spawn 3) :: Label.runs 1 4 ++ Label.runs 3 2 ++ Label.runs 1 2 ++
  .call 1 (.join 3) :: Label.runs 1 4 ++ Label.runs 2 2 ++ Label.runs 3 2 ++
  .call 2 .threadDeregister :: Label.runs 2 1 ++ .call 3 .threadDeregister :: Label.runs 3 1 ++
  Label.runs 2 7 ++ Label.runs 3 5 ++ Label.runs 1 7

/-- Main joins thread 3 only: thread 2 has exited and is not joined when thread 4 gets its index. -/
theorem indices_collide :
    ¬ ∀ (n : ℕ) (ls : List Label) (w : Joins) (u v : Tid),
      Run step (fun j a => lifecycle j a = true) (boot n) ls w → w.held u → w.held v →
      (w.state.locals u).threadIndex < maxThreads ∧
        ((w.state.locals u).threadIndex = (w.state.locals v).threadIndex → u = v) := by
  intro h
  have hrun : (execGuarded step (fun j a => lifecycle j a = true) (boot 4)
      (siblings ++ .call 1 (.spawn 4) :: Label.runs 1 6 ++ Label.runs 4 1)).any
      (fun w => decide (w.held 2 ∧ w.held 4 ∧
        (w.state.locals 2).threadIndex = (w.state.locals 4).threadIndex)) = true := by
    decide +kernel
  obtain ⟨w, hr, h2, h4, hi⟩ := exists_run_of_any hrun
  exact absurd ((h 4 _ w 2 4 hr h2 h4).2 hi) (by decide)

end Joins

end Dthreads.Scheduler
