import Dthreads.Scheduler.Waits
import Dthreads.Scheduler.Exclusion

/-! # `cond_wait` and the token

`cond_wait` takes for granted that `mutex_lock` took the token for it. -/

namespace Dthreads.Scheduler

open Transition

/-! ## The token is at the entry of the thread that has it -/

namespace State

namespace Disciplined

variable {s : State} {t u : Tid} {i : Instr} {rest : List Instr}

section Closed

variable (hd : s.Disciplined True) (hl : (s.locals t).live = true)
  (hp : (s.locals t).pending = i :: rest)
include hd hl hp

theorem not_childRegister (p : ℕ) : i ≠ .childRegister p := by
  rintro rfl
  have hw := hd t hl
  rw [hp] at hw
  exact hw.1 trivial

/-- No thread is created. -/
theorem others_closed (hu : (s.others t i u).live = true) :
    (s.locals u).live = true ∧ (s.others t i u).threadIndex = (s.locals u).threadIndex ∧
      (s.others t i u).hasToken = (s.locals u).hasToken := by
  rcases s.others_cases t i u with ho | ⟨ho, -⟩ | ⟨rfl, -⟩ | ⟨-, ho⟩
  · rw [ho] at hu ⊢
    exact ⟨hu, rfl, rfl⟩
  · rw [ho] at hu ⊢
    exact ⟨hu, rfl, rfl⟩
  · have hw := hd t hl
    rw [hp] at hw
    exact absurd trivial hw.1
  · rw [ho] at hu
    cases hu

/-- Only the thread that has the token moves it. -/
theorem hasToken_of_moves (hm : movesToken i = true) : (s.locals t).hasToken = true := by
  have hw := hd t hl
  rw [hp] at hw
  cases i with
  | putToken => exact hw.1 trivial
  | condEnter c m => exact hw.1 trivial
  | barrierEnter b => exact hw.1 trivial
  | deregister => exact hw.1 trivial
  | detJoin v w => exact absurd trivial hw.1
  | joinBlock g => exact absurd trivial hw.1
  | _ => cases hm

end Closed

end Disciplined

/-- Each live thread has an entry of its own, and the token is at the entry of the thread that has
it. -/
structure Seated (R : ℕ → Prop) (s : State) : Prop where
  linked : s.Linked R
  entry : ∀ t, (s.locals t).live = true → (s.determ.entries (s.locals t).threadIndex).tid = t
  unique : ∀ i t, R i → (s.locals t).live = true → (s.determ.entries i).tid = t →
    i = (s.locals t).threadIndex
  token : ∀ t, (s.locals t).live = true → (s.locals t).hasToken = true →
    s.determ.tokenpos = (s.locals t).threadIndex

namespace Seated

variable {R : ℕ → Prop} {s s' : State} {t u : Tid} {i : Instr} {rest : List Instr} {d : Determ}
  {l : Local}

theorem called {op : Op} (h : Seated R s) : Seated R (s.called t op) := by
  have hl : ∀ u, ((s.called t op).locals u).live = (s.locals u).live ∧
      ((s.called t op).locals u).threadIndex = (s.locals u).threadIndex ∧
      ((s.called t op).locals u).hasToken = (s.locals u).hasToken := fun u => by
    rw [called_locals]
    split
    · rename_i hu
      rw [hu]
      exact ⟨rfl, rfl, rfl⟩
    · exact ⟨rfl, rfl, rfl⟩
  exact
    { linked := h.linked.called
      entry := fun u hu => by
        rw [(hl u).2.1]
        exact h.entry u ((hl u).1 ▸ hu)
      unique := fun i u hi hu he => by
        rw [(hl u).2.1]
        exact h.unique i u hi ((hl u).1 ▸ hu) he
      token := fun u hu ht => by
        rw [(hl u).2.1]
        exact h.token u ((hl u).1 ▸ hu) ((hl u).2.2 ▸ ht) }

section Ran

variable (h : Seated R s) (hd : s.Disciplined True) (hl : (s.locals t).live = true)
  (hp : (s.locals t).pending = i :: rest) (ho : s.own t rest i = some (d, l))
include h hd hl hp ho

theorem token_others (hu : (s.locals u).live = true) (hut : u ≠ t)
    (htok : (s.locals u).hasToken = true) : d.tokenpos = (s.locals u).threadIndex := by
  rw [← h.token u hu htok]
  cases hm : movesToken i with
  | false => exact own_tokenpos ho hm
  | true =>
      have ht := h.token t hl (hd.hasToken_of_moves hl hp hm)
      rw [h.token u hu htok] at ht
      have he := h.entry u hu
      rw [ht, h.entry t hl] at he
      exact absurd he.symm hut

theorem token_own (htok : l.hasToken = true) : d.tokenpos = (s.locals t).threadIndex := by
  rcases own_hasToken ho htok with ⟨hpos, ht | ht | ⟨-, ht⟩⟩ | ⟨g, rfl⟩
  · exact hpos.trans (h.token t hl ht)
  · exact hpos.trans (h.unique _ t h.linked.points.token hl ht)
  · rw [hpos, ← ht, h.linked.index _ h.linked.points.token]
  · have hw := hd t hl
    rw [hp] at hw
    exact absurd trivial hw.1

theorem ran : Seated R ⟨d, Function.update (s.others t i) t l, s.created i⟩ := by
  obtain ⟨hid, hidx, -⟩ := own_entries ho (hd.not_childRegister hl hp)
  have htid : ∀ j, (d.entries j).tid = (s.determ.entries j).tid := fun j => congrArg Prod.fst (hid j)
  have hold : ∀ u, ((Function.update (s.others t i) t l) u).live = true →
      (s.locals u).live = true ∧
        ((Function.update (s.others t i) t l) u).threadIndex = (s.locals u).threadIndex := by
    intro u hu
    by_cases hut : u = t
    · subst hut
      rw [Function.update_self]
      exact ⟨hl, hidx⟩
    · rw [Function.update_of_ne hut] at hu ⊢
      obtain ⟨h1, h2, -⟩ := hd.others_closed hl hp hu
      exact ⟨h1, h2⟩
  exact
    { linked := h.linked.ran hp ho (hd.not_childRegister hl hp)
      entry := fun u hu => by
        dsimp only at hu ⊢
        rw [(hold u hu).2, htid]
        exact h.entry u (hold u hu).1
      unique := fun j u hj hu he => by
        dsimp only at hu he ⊢
        rw [(hold u hu).2]
        exact h.unique j u hj (hold u hu).1 (htid j ▸ he)
      token := fun u hu ht => by
        dsimp only at hu ht ⊢
        rw [(hold u hu).2]
        by_cases hut : u = t
        · subst hut
          rw [Function.update_self] at ht
          exact h.token_own hd hl hp ho ht
        · rw [Function.update_of_ne hut] at hu ht
          obtain ⟨hul, -, hut'⟩ := hd.others_closed hl hp hu
          exact h.token_others hd hl hp ho hul hut (hut' ▸ ht) }

end Ran

end Seated

end State

/-! ## The locks a thread counts -/

/-- A thread that starts with `via` (it took the token path), `flag` (`_token_holding`), `count`
(`_lock_count`) and `held` mutexes counts them, and `_token_holding` tells the truth at the end. -/
def Tallies : Bool → Bool → ℕ → ℕ → List Instr → Prop
  | via, flag, count, held, [] => via = flag ∧ count = held
  | via, flag, count, held, i :: rest =>
      match i with
      | .countLock => Tallies via flag (count + 1) held rest
      | .discountLock => 0 < count ∧ Tallies via flag (count - 1) held rest
      | .lockRelease _ => Tallies (via && held ≠ 1) flag count (held - 1) rest
      | .condEnter _ _ => Tallies via flag count (held - 1) rest
      | .endCriticalSection => Tallies via (flag && count ≠ 0) count held rest
      | .setTokenHolding b => Tallies via b count held rest
      | .getLockAgain _ => Tallies true true count (held + 1) rest
      | .lockIsowner _ | .isSingleWorkingThread _ | .lockTest _ .direct | .lockSet _ .direct =>
          Tallies via flag count (held + 1) rest ∧ Tallies true true count (held + 1) rest
      | .lockTest _ .retry | .lockSet _ .retry =>
          via = true ∧ flag = true ∧ Tallies true true count (held + 1) rest
      | .lockTest _ .condWait | .lockSet _ .condWait => Tallies via flag count (held + 1) rest
      | .procExit => True
      | .childRegister _ => Tallies via false 0 held rest
      | _ => Tallies via flag count held rest

/-- The retry loop of `mutex_lock` takes the token path again. -/
theorem Tallies.again {via flag : Bool} {count held : ℕ} {m : Obj} {rest : List Instr}
    (h : Tallies via flag count held (.lockTest m .retry :: rest)) :
    Tallies via flag count held (Local.lockFailed m .retry ++ rest) := h.2.2

/-- Every operation counts the mutexes, if it unlocks only a mutex that the thread holds. -/
theorem program_tallies {via : Bool} {l : Local} {op : Op}
    (hend : Tallies via l.tokenHolding l.lockCount l.inside.length [])
    (hheld : ∀ m, (op = .mutexUnlock m ∨ ∃ c, op = .condWait c m) → l.fenceEnabled = true →
      m ∈ l.inside)
    (hwait : ∀ c m, op = .condWait c m → l.fenceEnabled = true) :
    Tallies via l.tokenHolding l.lockCount l.inside.length (l.program op) := by
  obtain ⟨rfl, hcount⟩ := hend
  cases op with
  | mutexLock m =>
      simp only [Local.program, Local.mutexLock, Local.wakeChildren]
      split
      · simp [Tallies, hcount]
      · split <;> simp [Tallies, hcount]
  | mutexUnlock m =>
      simp only [Local.program, Local.mutexUnlock]
      split
      · rename_i hf
        have hpos := List.length_pos_of_mem (hheld m (.inl rfl) hf)
        have hlast : (l.inside.length ≠ 1) = (l.inside.length - 1 ≠ 0) := by
          simp only [eq_iff_iff]
          omega
        simp only [Tallies, hcount, hlast, and_true]
        exact hpos
      · exact ⟨rfl, hcount⟩
  | condWait c m =>
      have hpos := List.length_pos_of_mem (hheld m (.inr ⟨c, rfl⟩) (hwait c m rfl))
      simp only [Local.program, Local.condWait, Tallies, true_and]
      omega
  | condSignal c =>
      simp only [Local.program, Local.condSignal, Local.underToken]
      split
      · split <;> simp [Tallies, Local.waitToken, Local.waitFence, hcount]
      · exact ⟨rfl, hcount⟩
  | condBroadcast c =>
      simp only [Local.program, Local.condBroadcast, Local.underToken]
      split
      · split <;> simp [Tallies, Local.waitToken, Local.waitFence, hcount]
      · exact ⟨rfl, hcount⟩
  | barrierWait b =>
      simp only [Local.program, Local.barrierWait, Local.wakeChildren]
      split
      · simp [Tallies, Local.waitToken, Local.waitFence, hcount]
      · split <;> simp [Tallies, Local.waitToken, Local.waitFence, hcount]
  | spawn v =>
      simp only [Local.program, Local.spawn]
      split <;> split <;> simp [Tallies, Local.waitToken, Local.waitFence, hcount]
  | join v =>
      simp only [Local.program, Local.join]
      split <;> simp [Tallies, Local.waitToken, Local.waitFence, hcount]
  | cancel v =>
      simp only [Local.program, Local.cancel, Local.underToken]
      split <;> simp [Tallies, Local.waitToken, Local.waitFence, hcount]
  | threadDeregister =>
      simp [Local.program, Local.threadDeregister, Tallies, Local.waitToken, Local.waitFence]
  | mutexInit m => exact ⟨rfl, hcount⟩
  | condInit c => exact ⟨rfl, hcount⟩
  | barrierInit b n => exact ⟨rfl, hcount⟩

namespace State

variable {s : State} {t : Tid} {rest : List Instr} {i : Instr} {d : Determ} {l : Local} {via : Bool}

/-- Whether the thread took the token path since it last unlocked its last mutex. -/
def viaTokenAfter (s : State) (t : Tid) (via : Bool) : Instr → Bool
  | .getLockAgain _ => true
  | .lockRelease m => via && (s.locals t).inside.erase m ≠ []
  | _ => via

theorem arrive_tallies {k : Bool} (h : some (s.determ.arrive (s.locals t) k rest) = some (d, l))
    (hw : Tallies via (s.locals t).tokenHolding (s.locals t).lockCount (s.locals t).inside.length rest) :
    Tallies via l.tokenHolding l.lockCount l.inside.length l.pending := by
  unfold Determ.arrive at h
  split at h <;> cases h
  · exact hw
  · simp only [Local.goto]
    split <;> exact hw

/-- Every instruction keeps the count. -/
theorem own_tallies (h : s.own t rest i = some (d, l)) (hi : i ≠ .procExit)
    (hm : ∀ m, releasesOf i = some m → m ∈ (s.locals t).inside)
    (hw : Tallies via (s.locals t).tokenHolding (s.locals t).lockCount (s.locals t).inside.length
      (i :: rest)) :
    Tallies (s.viaTokenAfter t via i) l.tokenHolding l.lockCount l.inside.length l.pending := by
  cases i with
  | fenceEnter k =>
      simp only [own] at h
      split at h
      · exact arrive_tallies h hw
      · split at h <;> cases h <;> exact hw
  | fenceArrive k => exact arrive_tallies h hw
  | condArrival k =>
      simp only [own] at h
      split at h
      · exact arrive_tallies h hw
      · cases h
  | childRegister p =>
      obtain ⟨rfl, rfl⟩ : s.determ.childRegister (s.locals t) t p rest = (d, l) := Option.some.inj h
      exact hw
  | discountLock =>
      cases h
      dsimp only
      rw [dec_of_pos hw.1]
      exact hw.2
  | lockRelease m =>
      cases h
      have hmem := hm m rfl
      have hlen : ((s.locals t).inside.erase m).length = (s.locals t).inside.length - 1 :=
        List.length_erase_of_mem hmem
      have hnil : ((s.locals t).inside.erase m ≠ []) = ((s.locals t).inside.length ≠ 1) := by
        have := List.length_pos_of_mem hmem
        rw [← List.length_pos_iff_ne_nil, hlen]
        simp only [eq_iff_iff]
        omega
      simp only [viaTokenAfter, hlen, hnil]
      exact hw
  | condEnter c m =>
      cases h
      simp only [viaTokenAfter, List.length_erase_of_mem (hm m rfl)]
      exact hw
  | lockIsowner m =>
      cases h
      simp only [Local.goto]
      split <;> exact hw
  | isSingleWorkingThread m =>
      cases h
      simp only [Local.goto]
      split
      · exact hw
      · exact hw.2
  | getLockAgain m =>
      cases h
      simp only [Local.goto, Local.getLockAgain, viaTokenAfter]
      split
      · rename_i hf
        exact ⟨rfl, hf, hw⟩
      · exact ⟨rfl, rfl, hw⟩
  | lockTest m k =>
      simp only [own] at h
      cases k with
      | direct =>
          split at h <;> cases h
          · exact hw
          · exact hw.2
      | retry =>
          split at h <;> cases h
          · exact hw
          · exact hw.again
      | condWait => split at h <;> cases h <;> exact hw
  | lockSet m k =>
      simp only [own] at h
      cases k with
      | direct =>
          split at h <;> cases h
          · exact hw.1
          · exact hw.2
      | retry =>
          split at h <;> cases h
          · obtain ⟨hv, hf, hr⟩ := hw
            simpa only [viaTokenAfter, hv, hf, List.length_cons] using hr
          · exact hw.again
      | condWait => split at h <;> cases h <;> exact hw
  | endCriticalSection =>
      cases h
      simp only [Local.goto, Local.endCriticalSection]
      split
      · rename_i hf
        simpa [Tallies, viaTokenAfter, Local.waitFence, hf.1] using hw
      · rename_i hf
        have hflag : ((s.locals t).tokenHolding && (s.locals t).lockCount ≠ 0) =
            (s.locals t).tokenHolding := by
          cases hfl : (s.locals t).tokenHolding
          · rfl
          · simpa [hfl] using hf
        simp only [Tallies, hflag] at hw
        exact hw
  | barrierEnter b =>
      cases h
      dsimp only
      split <;> exact hw
  | barrierArrive b =>
      simp only [own, Option.map_eq_some_iff] at h
      obtain ⟨be, -, h⟩ := h
      split at h <;> cases h <;> exact hw
  | procExit => exact absurd rfl hi
  | _ =>
      simp only [own] at h
      (repeat' split at h) <;> cases h <;> exact hw

end State

/-! ## Runs that remember the path -/

/-- A run remembers which threads took the token path of `mutex_lock` since they last unlocked their
last mutex. -/
structure Paths where
  state : State
  viaToken : Tid → Bool

namespace Paths

def viaTokenAfter (j : Paths) : Label → Tid → Bool
  | .call _ _ => j.viaToken
  | .run t =>
      match (j.state.locals t).pending with
      | i :: _ => Function.update j.viaToken t (j.state.viaTokenAfter t (j.viaToken t) i)
      | [] => j.viaToken

def step (j : Paths) (a : Label) : Option Paths :=
  (j.state.step a).map fun s => ⟨s, j.viaTokenAfter a⟩

/-- Threads lock and unlock mutexes and use condition variables; a thread unlocks a mutex or waits
on a condition variable only while it holds the mutex. -/
def monitor (j : Paths) : Label → Bool
  | .call _ (.mutexLock _) | .call _ (.condSignal _) | .call _ (.condBroadcast _) => true
  | .call t (.mutexUnlock m) | .call t (.condWait _ m) => m ∈ (j.state.locals t).inside
  | .call _ _ => false
  | .run _ => true

/-- A thread calls `cond_wait` only if it took the token path since it last held no mutex. -/
def tokenPath (j : Paths) : Label → Bool
  | .call t (.condWait _ _) => j.viaToken t
  | _ => true

/-- What the runs keep. -/
structure Monitored (R : ℕ → Prop) (j : Paths) : Prop where
  seated : j.state.Seated R
  waits : j.state.Disciplined True
  tallies : ∀ t, (j.state.locals t).live = true →
    Tallies (j.viaToken t) (j.state.locals t).tokenHolding (j.state.locals t).lockCount
      (j.state.locals t).inside.length (j.state.locals t).pending
  releases : ∀ t, (j.state.locals t).ReleasesHeld

namespace Monitored

variable {R : ℕ → Prop} {j j' : Paths}

theorem fenceEnabled {t : Tid} (h : Monitored R j) (hl : (j.state.locals t).live = true)
    (hnil : (j.state.locals t).pending = []) : (j.state.locals t).fenceEnabled = true := by
  have hw := h.waits t hl
  rw [hnil] at hw
  exact hw.2.2 trivial

theorem call {t : Tid} {op : Op} (h : Monitored R j) (hm : monitor j (.call t op) = true)
    (hv : tokenPath j (.call t op) = true) (hl : (j.state.locals t).live = true)
    (hnil : (j.state.locals t).pending = []) : Monitored R ⟨j.state.called t op, j.viaToken⟩ := by
  have hf := h.fenceEnabled hl hnil
  have hend := h.tallies t hl
  rw [hnil] at hend
  have hheld : ∀ m, (op = .mutexUnlock m ∨ ∃ c, op = .condWait c m) →
      m ∈ (j.state.locals t).inside := by
    rintro m (rfl | ⟨c, rfl⟩) <;> simpa [monitor] using hm
  exact
    { seated := h.seated.called
      waits := by
        refine h.waits.called hnil ?_ fun _ v => ?_
        · cases op with
          | condWait c m =>
              change (j.state.locals t).tokenHolding = true
              rw [← hend.1]
              exact hv
          | mutexLock m => simp [polite, Local.spawning, hf]
          | mutexUnlock m => rfl
          | condSignal c => rfl
          | condBroadcast c => rfl
          | _ => cases hm
        · constructor <;> rintro rfl <;> cases hm
      tallies := fun u hu => by
        dsimp only at hu ⊢
        rw [State.called_locals] at hu ⊢
        split at hu
        · rename_i hut
          subst hut
          rw [if_pos rfl]
          exact program_tallies hend (fun m hop _ => hheld m hop) fun _ _ _ => hf
        · rename_i hut
          rw [if_neg hut]
          exact h.tallies u hu
      releases := fun u => by
        dsimp only
        rw [State.called_locals]
        split
        · rename_i hut
          subst hut
          exact releasesHeld_program hheld
        · exact h.releases u }

theorem run {t : Tid} {i : Instr} {rest : List Instr} {d : Determ} {l : Local} (h : Monitored R j)
    (hl : (j.state.locals t).live = true) (hp : (j.state.locals t).pending = i :: rest)
    (ho : j.state.own t rest i = some (d, l)) :
    Monitored R ⟨⟨d, Function.update (j.state.others t i) t l, j.state.created i⟩,
      Function.update j.viaToken t (j.state.viaTokenAfter t (j.viaToken t) i)⟩ where
  seated := h.seated.ran h.waits hl hp ho
  waits := h.waits.ran hl hp ho
  tallies u hu := by
    dsimp only at hu ⊢
    by_cases hut : u = t
    · subst hut
      rw [Function.update_self] at hu
      rw [Function.update_self, Function.update_self]
      have hw := h.tallies u hl
      rw [hp] at hw
      refine State.own_tallies ho ?_ (fun m hm => ?_) hw
      · rintro rfl
        cases ho
        cases hu
      · have hr := h.releases u
        rw [Local.ReleasesHeld, hp, Scheduler.releases_cons, hm] at hr
        rcases hr with hr | ⟨m', hm', hr⟩
        · cases hr
        · exact (List.cons.inj hr).1 ▸ hm'
    · rw [Function.update_of_ne hut] at hu
      rw [Function.update_of_ne hut, Function.update_of_ne hut]
      rcases j.state.others_cases t i u with ho | ⟨ho, -⟩ | ⟨rfl, -⟩ | ⟨-, ho⟩
      · rw [ho] at hu ⊢
        exact h.tallies u hu
      · rw [ho] at hu ⊢
        exact h.tallies u hu
      · have hw := h.waits t hl
        rw [hp] at hw
        exact absurd trivial hw.1
      · rw [ho] at hu
        cases hu
  releases u := by
    dsimp only
    by_cases hut : u = t
    · subst hut
      rw [Function.update_self]
      exact Exclusive.releasesHeld_own (h.releases u) hp ho
    · rw [Function.update_of_ne hut]
      exact Exclusive.releasesHeld_others (h.releases u)

theorem step {a : Label} (h : Monitored R j) (hg : monitor j a = true ∧ tokenPath j a = true)
    (hs : j.step a = some j') : Monitored R j' := by
  rw [Paths.step, Option.map_eq_some_iff] at hs
  obtain ⟨s, hs, rfl⟩ := hs
  cases a with
  | call t op =>
      obtain ⟨hl, hnil, rfl⟩ := State.step_call hs
      exact h.call hg.1 hg.2 hl hnil
  | run t =>
      obtain ⟨i, rest, d, l, hl, hp, ho, rfl⟩ := State.step_run hs
      simp only [viaTokenAfter, hp]
      exact h.run hl hp ho

end Monitored

end Paths

/-! ## The law -/

/-- All live threads are in the token queue, outside any operation and any mutex. -/
structure Started (s : State) : Prop extends s.Quiet where
  seated : ∃ R, s.Seated R
  fenceEnabled : ∀ t, (s.locals t).fenceEnabled = true
  lockCount : ∀ t, (s.locals t).lockCount = 0
  inside : ∀ t, (s.locals t).inside = []

theorem started_ring (n coresNumb : ℕ) : Started (State.ring n coresNumb) where
  toQuiet := State.quiet_ring n coresNumb
  seated := by
    refine ⟨fun _ => True, ?_, fun t ht => ?_, fun i t _ ht he => ?_, fun t _ ht => by cases ht⟩
    · exact
        { points := ⟨fun _ => ⟨trivial, trivial⟩, trivial, fun _ _ => trivial, fun _ _ _ _ _ => trivial,
            fun _ _ _ _ _ => trivial⟩
          index := fun i _ => rfl
          parent := fun _ => trivial
          locals := fun _ => trivial
          pending := fun _ _ _ => trivial }
    · have h : 1 ≤ t ∧ t ≤ n := of_decide_eq_true ht
      have hlt : t - 1 < n := Nat.sub_one_lt_of_le h.1 h.2
      exact (if_pos hlt).trans (Nat.sub_add_cancel h.1)
    · have h : 1 ≤ t ∧ t ≤ n := of_decide_eq_true ht
      change (if i < n then i + 1 else 0) = t at he
      split at he
      · exact Nat.eq_sub_of_add_eq he
      · rw [← he] at h
        exact absurd h.1 (Nat.not_succ_le_zero 0)
  fenceEnabled _ := rfl
  lockCount _ := rfl
  inside _ := rfl

/-- In a run under the condition `cond_wait` is called by the thread that has the token: its
assertions hold. -/
theorem condWait_with_token {s : State} {w : Paths} {ls : List Label} {t : Tid} (hs : Started s)
    (hr : Run Paths.step (fun j a => j.monitor a = true ∧ j.tokenPath a = true) ⟨s, fun _ => false⟩
      ls w) (hl : (w.state.locals t).live = true) :
    (∀ c m, (w.state.locals t).pending = Local.condWait c m → (w.state.locals t).tokenHolding = true) ∧
      ∀ c m rest, (w.state.locals t).pending = .condEnter c m :: rest →
        w.state.determ.tokenpos = (w.state.locals t).threadIndex := by
  obtain ⟨R, hR⟩ := hs.seated
  have h : w.Monitored R := Run.invariant (fun _ _ _ h hg hs => h.step hg hs) hr
    { seated := hR
      waits := hs.toQuiet.disciplined fun _ => hs.fenceEnabled
      tallies := fun u _ => by simp [hs.pending, hs.tokenHolding, hs.lockCount, hs.inside, Tallies]
      releases := fun u => .inl (by simp [hs.pending, releases]) }
  have hw := h.waits t hl
  refine ⟨fun c m hp => ?_, fun c m rest hp => ?_⟩
  · rw [hp] at hw
    obtain ⟨-, -, htok, hfence⟩ := hw
    exact (htok rfl).resolve_right fun hf => by simp [hfence trivial] at hf
  · rw [hp] at hw
    exact h.seated.token t hl (hw.1 trivial)

/-- Two threads lock a mutex each by the token path, and thread 1 unlocks its mutex. -/
def tokenRound : List Label :=
  .call 1 (.mutexLock 1) :: Label.runs 1 5 ++ .call 2 (.mutexLock 0) :: Label.runs 2 5 ++
  Label.runs 1 8 ++ .call 1 (.mutexUnlock 1) :: Label.runs 1 8 ++ Label.runs 2 6

/-- Thread 2 waits with the mutex that it locked by the token path. -/
theorem condWait_with_token_path : ∃ w rest,
    Run Paths.step (fun j a => j.monitor a = true ∧ j.tokenPath a = true)
      ⟨State.ring 2 4, fun _ => false⟩ (tokenRound ++ .call 2 (.condWait 9 0) :: Label.runs 2 2) w ∧
      (w.state.locals 2).pending = .condEnter 9 0 :: rest ∧
      w.state.determ.tokenpos = (w.state.locals 2).threadIndex := by
  have hrun : (execGuarded Paths.step (fun j a => j.monitor a = true ∧ j.tokenPath a = true)
      ⟨State.ring 2 4, fun _ => false⟩ (tokenRound ++ .call 2 (.condWait 9 0) :: Label.runs 2 2)).any
      (fun w => decide ((w.state.locals 2).live = true ∧
        (w.state.locals 2).pending.head? = some (.condEnter 9 0))) = true := by
    decide +kernel
  obtain ⟨w, hr, hl, hh⟩ := exists_run_of_any hrun
  obtain ⟨rest, hp⟩ := List.head?_eq_some_iff.mp hh
  exact ⟨w, rest, hr, hp, (condWait_with_token (started_ring 2 4) hr hl).2 9 0 rest hp⟩

/-- Thread 2 owns the mutex by now and locks it without the token: it takes the token from thread 1
in `cond_wait`. -/
theorem condWait_without_token :
    ¬ ∀ (s : State) (w : Paths) (ls : List Label) (t : Tid), Started s →
      Run Paths.step (fun j a => j.monitor a = true) ⟨s, fun _ => false⟩ ls w →
      (w.state.locals t).live = true →
      (∀ c m, (w.state.locals t).pending = Local.condWait c m →
        (w.state.locals t).tokenHolding = true) ∧
      ∀ c m rest, (w.state.locals t).pending = .condEnter c m :: rest →
        w.state.determ.tokenpos = (w.state.locals t).threadIndex := by
  intro h
  have hrun : (execGuarded Paths.step (fun j a => j.monitor a = true)
      ⟨State.ring 2 4, fun _ => false⟩ (tokenRound ++ .call 2 (.mutexUnlock 0) :: Label.runs 2 8 ++
        Label.runs 1 2 ++ .call 2 (.mutexLock 0) :: Label.runs 2 4 ++
        .call 2 (.condWait 9 0) :: Label.runs 2 2)).any
      (fun w => decide ((w.state.locals 2).live = true ∧
        (w.state.locals 2).pending.head? = some (.condEnter 9 0) ∧
        w.state.determ.tokenpos ≠ (w.state.locals 2).threadIndex)) = true := by
    decide +kernel
  obtain ⟨w, hr, hl, hh, hne⟩ := exists_run_of_any hrun
  obtain ⟨rest, hp⟩ := List.head?_eq_some_iff.mp hh
  exact hne ((h _ w _ 2 (started_ring 2 4) hr hl).2 9 0 rest hp)

end Dthreads.Scheduler
