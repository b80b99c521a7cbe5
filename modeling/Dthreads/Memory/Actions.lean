import Dthreads.Memory.Stages

/-! # Steps as actions

A step of the runtime is a step of one thread, and acts on the memory once at most. -/

namespace Dthreads.Memory

/-- The thread that takes the step. -/
def Event.thread : Event → Tid
  | .user t _ | .call t _ | .next t | .fault t _ | .signal t _ => t

/-- A page is queued by a notification of its owner only. -/
theorem Mem.signals_step {m m' : Mem} {u : Tid} {q : ℕ} {a : Act} (hs : m.step a = some m')
    (hq : q ∈ m'.signals u) :
    q ∈ m.signals u ∨ ((∃ t, a = .notify t q) ∧ (m.pages q).owner = .thread u) := by
  have hmail : m'.mail = m.mail → q ∈ m.signals u := by
    intro h
    have hsame : m'.signals = m.signals := congrArg (·.1) h
    rwa [hsame] at hq
  cases a with
  | load t a =>
      simp only [step, Option.ite_none_right_eq_some, Option.some.injEq] at hs
      obtain ⟨-, rfl⟩ := hs
      exact .inl hq
  | store t as f =>
      simp only [step, Option.ite_none_right_eq_some, Option.some.injEq] at hs
      obtain ⟨-, rfl⟩ := hs
      exact .inl (hmail (storeBytes_mail _ as))
  | fault t p =>
      simp only [step, Option.ite_none_right_eq_some] at hs
      exact .inl (hmail (handleWrite_mail hs.2))
  | notify t p =>
      simp only [step, Option.ite_none_right_eq_some, Option.some.injEq] at hs
      obtain ⟨-, rfl⟩ := hs
      have hshare : (m.setSharedPage t p).signals = m.signals :=
        congrArg (·.1) (setSharedPage_mail (m := m) (t := t) (p := p))
      unfold notifyOwnerToCommit at hq
      split at hq
      · exact .inl hq
      · exact .inl (hshare ▸ hq)
      · rename_i o ho
        split at hq
        · by_cases huo : u = o
          · subst huo
            simp only [Function.update_self, List.mem_append, List.mem_singleton] at hq
            rcases hq with hq | rfl
            · exact .inl hq
            · exact .inr ⟨⟨t, rfl⟩, ho⟩
          · exact .inl (by simpa [huo] using hq)
        · exact .inl (hshare ▸ hq)
  | mprotectRead t p =>
      simp only [step, Option.ite_none_right_eq_some, Option.some.injEq] at hs
      obtain ⟨-, rfl⟩ := hs
      exact .inl hq
  | setWord t o w =>
      simp only [step, Option.ite_none_right_eq_some, Option.some.injEq] at hs
      obtain ⟨-, rfl⟩ := hs
      exact .inl (hmail (storeWord_mail _ w))
  | commitEntry t k => exact .inl (hmail (commitEntry_mail hs))
  | finalcommit t p r =>
      simp only [step, Option.ite_none_right_eq_some, Option.some.injEq] at hs
      obtain ⟨-, rfl⟩ := hs
      exact .inl (hmail (finalcommitPage_mail r))
  | superblock t n =>
      obtain rfl := Option.some.inj hs
      unfold superblock setOwnedPage at hq
      dsimp only at hq
      split at hq <;> exact .inl hq
  | signal t p =>
      simp only [step, Option.ite_none_right_eq_some, Option.some.injEq] at hs
      obtain ⟨-, rfl⟩ := hs
      have hsame : (m.signalHandler t p).signals =
          Function.update m.signals t ((m.signals t).erase p) :=
        congrArg (·.1) (commitOwnedPage_mail (m :=
          { m with signals := Function.update m.signals t ((m.signals t).erase p) }) true)
      rw [hsame] at hq
      by_cases hut : u = t
      · subst hut
        exact .inl (List.mem_of_mem_erase (by simpa using hq))
      · exact .inl (by simpa [hut] using hq)
  | fork t child =>
      obtain rfl := Option.some.inj hs
      by_cases huc : u = child
      · subst huc
        simp [fork] at hq
      · exact .inl (by simpa [fork, huc] using hq)
  | memWrite | begin | cleanup | openProtection | closeProtection | exit =>
      obtain rfl := Option.some.inj hs
      exact .inl hq

namespace Runtime

variable {isHeap : ℕ → Bool} {strict : Prop} {s s' : Runtime} {t u : Tid} {e : Event}
  {rest : List Phase} {ph : Phase}

/-- Process `t` goes through phase `ph`: what changes outside of the memory. -/
structure Turns (s s' : Runtime) (t : Tid) (ph : Phase) : Prop where
  threads : s'.threads = s.threads
  todo : ∀ u, u ≠ t → s'.todo u = s.todo u
  exited : s'.exited = if ph = .deregister then Function.update s.exited t true else s.exited
  retval : s'.retval = match ph with
    | .retval r => Function.update s.retval t r
    | _ => s.retval
  stack : s'.stack = match ph with
    | .result child .stack => Function.update s.stack t (s.retval child)
    | _ => s.stack

theorem next_turns (hs : s.next isHeap t = some s') (htodo : s.todo t = ph :: rest) :
    Turns s s' t ph ∨ ∃ child, ph = .clone child ∧ child ∉ s.threads ∧ s' =
      { mem := s.mem.fork t child
        threads := s.threads ++ [child]
        todo := Function.update (Function.update s.todo t rest) child [.begin]
        exited := Function.update s.exited child false
        retval := Function.update s.retval child fun _ => 0
        stack := s.stack } := by
  have hadvance : ∀ (m : Mem) (l : List Phase) u, u ≠ t → (s.advance t m l).todo u = s.todo u :=
    fun m l u hu => by simp [advance, hu]
  unfold Runtime.next at hs
  rw [htodo] at hs
  cases ph with
  | clone child =>
      simp only [Option.ite_none_left_eq_some, Option.some.injEq] at hs
      obtain ⟨hfresh, rfl⟩ := hs
      exact .inr ⟨child, rfl, hfresh, rfl⟩
  | entries ks =>
      cases ks with
      | nil =>
          obtain rfl := Option.some.inj hs
          exact .inl ⟨rfl, hadvance _ _, rfl, rfl, rfl⟩
      | cons k ks =>
          obtain ⟨m', -, rfl⟩ := Option.map_eq_some_iff.mp hs
          exact .inl ⟨rfl, hadvance _ _, rfl, rfl, rfl⟩
  | finalcommit release =>
      dsimp only at hs
      split at hs
      · obtain rfl := Option.some.inj hs
        exact .inl ⟨rfl, hadvance _ _, rfl, rfl, rfl⟩
      · obtain rfl := Option.some.inj hs
        exact .inl ⟨rfl, hadvance _ _, rfl, rfl, rfl⟩
  | condInit o e =>
      simp only [Option.ite_none_left_eq_some] at hs
      obtain ⟨-, hs⟩ := hs
      split at hs
      · obtain rfl := Option.some.inj hs
        exact .inl ⟨rfl, hadvance _ _, rfl, rfl, rfl⟩
      · simp only [Option.ite_none_right_eq_some, Option.some.injEq] at hs
        obtain ⟨-, rfl⟩ := hs
        exact .inl ⟨rfl, hadvance _ _, rfl, rfl, rfl⟩
  | await child =>
      simp only [Option.ite_none_right_eq_some, Option.some.injEq] at hs
      obtain ⟨-, rfl⟩ := hs
      exact .inl ⟨rfl, hadvance _ _, rfl, rfl, rfl⟩
  | result child dest =>
      cases dest with
      | null | stack =>
          obtain rfl := Option.some.inj hs
          exact .inl ⟨rfl, hadvance s.mem rest, rfl, rfl, rfl⟩
      | region o =>
          simp only [Option.ite_none_right_eq_some, Option.some.injEq] at hs
          obtain ⟨-, rfl⟩ := hs
          exact .inl ⟨rfl, hadvance _ _, rfl, rfl, rfl⟩
  | deregister | retval x =>
      obtain rfl := Option.some.inj hs
      exact .inl ⟨rfl, hadvance s.mem rest, rfl, rfl, rfl⟩
  | _ =>
      obtain rfl := Option.some.inj hs
      exact .inl ⟨rfl, hadvance _ _, rfl, rfl, rfl⟩

/-- The processes that have deregistered are known. -/
def Known (s : Runtime) : Prop := ∀ u, s.exited u = true → u ∈ s.threads

/-- What a step leaves alone: it takes no thread away and no exit back, and other threads keep their
scripts and their words. -/
structure Aside (s s' : Runtime) (e : Event) : Prop where
  threads : ∀ u ∈ s.threads, u ∈ s'.threads
  exits : ∀ u ∈ s.threads, s.exited u = true → s'.exited u = true
  exited : ∀ u ∈ s.threads, u ≠ e.thread → s'.exited u = s.exited u
  known : Known s → Known s'
  todo : ∀ u ∈ s.threads, u ≠ e.thread → s'.todo u = s.todo u
  retval : ∀ u ∈ s.threads, u ≠ e.thread → s'.retval u = s.retval u
  stack : ∀ u, u ≠ e.thread → s'.stack u = s.stack u

theorem Staged.aside (h : Staged strict s) (hs : s.step isHeap e = some s') : Aside s s' e := by
  cases e with
  | user v a | fault v a | signal v p =>
      simp only [Runtime.step, Option.ite_none_right_eq_some, Option.map_eq_some_iff] at hs
      obtain ⟨-, m', -, rfl⟩ := hs
      refine ⟨fun _ => id, fun _ _ => id, fun _ _ _ => rfl, id, fun u _ hu => ?_, fun _ _ _ => rfl,
        fun _ _ => rfl⟩
      exact Function.update_of_ne hu _ _
  | call v op =>
      simp only [Runtime.step, Option.ite_none_right_eq_some, Option.some.injEq] at hs
      obtain ⟨-, rfl⟩ := hs
      refine ⟨fun _ => id, fun _ _ => id, fun _ _ _ => rfl, id, fun u _ hu => ?_, fun _ _ _ => rfl,
        fun _ _ => rfl⟩
      exact Function.update_of_ne hu _ _
  | next v =>
      cases htodo : s.todo v with
      | nil => simp [Runtime.step, Runtime.next, htodo] at hs
      | cons ph rest =>
          have hv := h.of_mem_todo htodo
          rcases next_turns hs htodo with ht | ⟨child, rfl, hfresh, rfl⟩
          · have hexited : ∀ u, s.exited u = true → s'.exited u = true := by
              intro u hu
              rw [ht.exited]
              split
              · by_cases huv : u = v
                · simp [huv]
                · simpa [huv] using hu
              · exact hu
            refine ⟨fun u hu => ht.threads ▸ hu, fun u _ => hexited u, fun u _ (hu : u ≠ v) => ?_,
              fun hk u hu => ?_, fun u _ hu => ht.todo u hu, fun u _ (hu : u ≠ v) => ?_,
              fun u (hu : u ≠ v) => ?_⟩
            · rw [ht.exited]
              split
              · exact Function.update_of_ne hu _ _
              · rfl
            · rw [ht.threads]
              rw [ht.exited] at hu
              split at hu
              · by_cases huv : u = v
                · exact huv ▸ hv
                · exact hk u (by simpa [huv] using hu)
              · exact hk u hu
            · rw [ht.retval]
              split
              · exact Function.update_of_ne hu _ _
              · rfl
            · rw [ht.stack]
              split
              · exact Function.update_of_ne hu _ _
              · rfl
          · have hne : ∀ u ∈ s.threads, u ≠ child := by
              rintro u hu rfl
              exact hfresh hu
            refine ⟨fun u hu => List.mem_append_left _ hu, fun u hu hx => ?_, fun u hu _ => ?_,
              fun hk u hu => ?_, fun u hu (hv : u ≠ v) => ?_, fun u hu _ => ?_, fun _ _ => rfl⟩
            · simpa [hne u hu] using hx
            · simp [hne u hu]
            · by_cases huc : u = child
              · simp [huc]
              · exact List.mem_append_left _ (hk u (by simpa [huc] using hu))
            · simp [hne u hu, hv]
            · simp [hne u hu]

/-- A step acts on the memory once at most, for its thread. -/
structure Action (s s' : Runtime) (e : Event) (a : Act) : Prop where
  proper : s.mem.Proper a
  step : s.mem.step a = some s'.mem
  actor : ∀ v ∈ a.actor, v = e.thread
  fresh : ∀ v c, a = .fork v c → c ∉ s.threads
  alone : ∀ v, a = .openProtection v → ∀ u ∈ s.threads, u ≠ e.thread → s.exited u = true

theorem Staged.action_next (h : Staged strict s) (hs : s.next isHeap t = some s') :
    s'.mem = s.mem ∨ ∃ a, Action s s' (.next t) a := by
  cases htodo : s.todo t with
  | nil => simp [Runtime.next, htodo] at hs
  | cons ph rest =>
      obtain ⟨md, md', hmd, hafter, -⟩ := h.mode_of_todo htodo
      have ht := h.of_mem_todo htodo
      have hacts : ∀ {a : Act}, (∀ u ∈ a.actor, u = t) → s.mem.Acts a := by
        refine fun ha => Staged.acts hmd ?_ ha
        intro hgone
        obtain ⟨stage, r, g, l⟩ := md
        obtain rfl : stage = .gone := hgone
        simp [Mode.after] at hafter
      unfold Runtime.next at hs
      rw [htodo] at hs
      cases ph with
      | openProtection =>
          obtain rfl := Option.some.inj hs
          obtain ⟨stage, r, g, l⟩ := md
          obtain rfl : stage = .begun := by cases stage <;> simp_all [Mode.after]
          dsimp only [advance]
          split
          · exact .inl rfl
          · rename_i hopen
            exact .inr ⟨.openProtection t, ⟨hacts (by simp [Act.actor]), hmd.stage⟩, rfl,
              by simp [Act.actor, Event.thread], by simp,
              fun _ _ => h.alone t ht (by simpa using hopen)⟩
      | begin =>
          obtain rfl := Option.some.inj hs
          dsimp only [advance, Mem.atomicBegin]
          split
          · exact .inr ⟨.begin t, ⟨hacts (by simp [Act.actor]), trivial⟩, rfl,
              by simp [Act.actor, Event.thread], by simp, by simp⟩
          · exact .inl rfl
      | commit | deregister | retval =>
          obtain rfl := Option.some.inj hs
          exact .inl rfl
      | entries ks =>
          cases ks with
          | nil =>
              obtain rfl := Option.some.inj hs
              exact .inl rfl
          | cons k ks =>
              obtain ⟨m', hm, rfl⟩ := Option.map_eq_some_iff.mp hs
              exact .inr ⟨.commitEntry t k, ⟨hacts (by simp [Act.actor]), trivial⟩, hm,
                by simp [Act.actor, Event.thread], by simp, by simp⟩
      | finalcommit release =>
          cases hn : s.mem.nextOwned t with
          | none =>
              rw [hn] at hs
              obtain rfl := Option.some.inj hs
              exact .inl rfl
          | some p =>
              rw [hn] at hs
              obtain rfl := Option.some.inj hs
              exact .inr ⟨.finalcommit t p release, ⟨hacts (by simp [Act.actor]), trivial⟩,
                if_pos (Mem.nextOwned_owner hn), by simp [Act.actor, Event.thread], by simp, by simp⟩
      | condInit o e =>
          simp only [Option.ite_none_left_eq_some] at hs
          obtain ⟨-, hs⟩ := hs
          split at hs
          · obtain rfl := Option.some.inj hs
            exact .inl rfl
          · simp only [Option.ite_none_right_eq_some, Option.some.injEq] at hs
            obtain ⟨hw, rfl⟩ := hs
            exact .inr ⟨.setWord t o e, ⟨hacts (by simp [Act.actor]), trivial⟩, if_pos hw,
              by simp [Act.actor, Event.thread], by simp, by simp⟩
      | memWrite o e =>
          obtain rfl := Option.some.inj hs
          exact .inr ⟨.memWrite t o e, ⟨hacts (by simp [Act.actor]), trivial⟩, rfl,
            by simp [Act.actor, Event.thread], by simp, by simp⟩
      | cleanup =>
          obtain rfl := Option.some.inj hs
          exact .inr ⟨.cleanup, ⟨hacts (by simp [Act.actor]), trivial⟩, rfl,
            by simp [Act.actor], by simp, by simp⟩
      | clone child =>
          simp only [Option.ite_none_left_eq_some, Option.some.injEq] at hs
          obtain ⟨hfresh, rfl⟩ := hs
          obtain ⟨stage, r, g, l⟩ := md
          obtain rfl : r = true := by
            cases stage <;> cases r <;> simp_all [Mode.after]
          have hdead : s.mem.alive child = false := by
            by_contra hn
            exact hfresh (h.alive child (by simpa using hn))
          exact .inr ⟨.fork t child, ⟨hacts (by simp [Act.actor]), hdead, hmd.released rfl⟩, rfl,
            by simp [Act.actor, Event.thread], by simp [hfresh], by simp⟩
      | await child =>
          simp only [Option.ite_none_right_eq_some, Option.some.injEq] at hs
          obtain ⟨-, rfl⟩ := hs
          exact .inl rfl
      | result child dest =>
          cases dest with
          | null | stack =>
              obtain rfl := Option.some.inj hs
              exact .inl rfl
          | region o =>
              simp only [Option.ite_none_right_eq_some, Option.some.injEq] at hs
              obtain ⟨hw, rfl⟩ := hs
              exact .inr ⟨.setWord t o (s.retval child), ⟨hacts (by simp [Act.actor]), trivial⟩,
                if_pos hw, by simp [Act.actor, Event.thread], by simp, by simp⟩
      | closeProtection =>
          obtain rfl := Option.some.inj hs
          obtain ⟨stage, r, g, l⟩ := md
          obtain rfl : stage = .begun := by cases stage <;> simp_all [Mode.after]
          dsimp only [advance]
          split
          · exact .inr ⟨.closeProtection t, ⟨hacts (by simp [Act.actor]), hmd.stage⟩, rfl,
              by simp [Act.actor, Event.thread], by simp, by simp⟩
          · exact .inl rfl
      | exit =>
          obtain rfl := Option.some.inj hs
          obtain ⟨stage, r, g, l⟩ := md
          obtain rfl : r = true := by cases stage <;> cases r <;> simp_all [Mode.after]
          exact .inr ⟨.exit t, ⟨hacts (by simp [Act.actor]), hmd.released rfl⟩, rfl,
            by simp [Act.actor, Event.thread], by simp, by simp⟩

theorem Staged.action (h : Staged strict s) (hs : s.step isHeap e = some s') :
    s'.mem = s.mem ∨ ∃ a, Action s s' e a := by
  cases e with
  | user t a =>
      simp only [Runtime.step, Option.ite_none_right_eq_some, Option.map_eq_some_iff] at hs
      obtain ⟨⟨ht, hx, htodo, ha⟩, m', hm, rfl⟩ := hs
      have hmd := h.working ht hx htodo
      obtain ⟨hproper, -⟩ := Staged.allows_proper ha (hmd.alive.mpr (by simp))
      obtain ⟨h1, h2, h3⟩ :
          (∀ v ∈ a.actor, v = t) ∧ (∀ v c, a ≠ .fork v c) ∧ ∀ v, a ≠ .openProtection v := by
        cases a <;> simp_all [Mem.allows, Act.actor]
      exact .inr ⟨a, hproper, hm, h1, fun v c hc => absurd hc (h2 v c),
        fun v hv => absurd hv (h3 v)⟩
  | call t op =>
      simp only [Runtime.step, Option.ite_none_right_eq_some, Option.some.injEq] at hs
      obtain ⟨-, rfl⟩ := hs
      exact .inl rfl
  | next t => exact h.action_next hs
  | fault t a =>
      simp only [Runtime.step, Option.ite_none_right_eq_some, Option.map_eq_some_iff,
        Option.any_eq_true] at hs
      obtain ⟨⟨p, htarget, ha⟩, m', hm, rfl⟩ := hs
      obtain ⟨-, md, hmd, -, hstage⟩ := h.committed_of_target htarget
      have hacts : ∀ {a : Act}, (∀ u ∈ a.actor, u = t) → s.mem.Acts a :=
        Staged.acts hmd (by simp [hstage])
      cases a with
      | notify u q =>
          obtain ⟨rfl, rfl, -, hp⟩ : u = t ∧ q = p ∧ _ ∧ p < s.mem.position := by
            simpa [Mem.handles] using ha
          exact .inr ⟨_, ⟨hacts (by simp [Act.actor]), hp⟩, hm, by simp [Act.actor, Event.thread],
            by simp, by simp⟩
      | mprotectRead u q | fault u q =>
          obtain ⟨rfl, rfl⟩ : u = t ∧ q = p := by simpa [Mem.handles] using ha
          exact .inr ⟨_, ⟨hacts (by simp [Act.actor]), trivial⟩, hm,
            by simp [Act.actor, Event.thread], by simp, by simp⟩
      | _ => simp [Mem.handles] at ha
  | signal t p =>
      simp only [Runtime.step, Option.ite_none_right_eq_some, Option.map_eq_some_iff] at hs
      obtain ⟨⟨-, halive⟩, m', hm, rfl⟩ := hs
      exact .inr ⟨_, ⟨by simp [Mem.Acts, Act.actor, halive], trivial⟩, hm,
        by simp [Act.actor, Event.thread], by simp, by simp⟩

theorem Staged.thread_mem (h : Staged strict s) (hs : s.step isHeap e = some s') :
    e.thread ∈ s.threads := by
  cases e with
  | user t a | call t op | signal t p =>
      simp only [Runtime.step, Option.ite_none_right_eq_some] at hs
      exact hs.1.1
  | next t =>
      cases htodo : s.todo t with
      | nil => simp [Runtime.step, Runtime.next, htodo] at hs
      | cons ph rest => exact h.of_mem_todo htodo
  | fault t a =>
      simp only [Runtime.step, Option.ite_none_right_eq_some, Option.any_eq_true] at hs
      obtain ⟨⟨p, htarget, -⟩, -⟩ := hs
      exact (h.committed_of_target htarget).1

/-- A thread that has deregistered answers its signals and exits. -/
theorem Staged.step_of_exited (h : Staged strict s) (hx : s.exited e.thread = true)
    (hs : s.step isHeap e = some s') :
    s'.mem = s.mem ∨ s'.mem = s.mem.exit e.thread ∨
      ∃ p ∈ s.mem.signals e.thread, s'.mem = s.mem.signalHandler e.thread p := by
  cases e with
  | user t a | call t op =>
      simp only [Runtime.step, Option.ite_none_right_eq_some] at hs
      have hx' : s.exited t = false := hs.1.2.1
      exact absurd (hx'.symm.trans hx) (by simp)
  | next t =>
      cases htodo : s.todo t with
      | nil => simp [Runtime.step, Runtime.next, htodo] at hs
      | cons ph rest =>
          obtain ⟨⟨stage, r, g, l⟩, md', hmd, hafter, -⟩ := h.mode_of_todo htodo
          rcases hmd.exited.mp hx with hstage | hstage <;> obtain rfl : stage = _ := hstage
          · cases ph with
            | retval x =>
                simp only [Runtime.step, Runtime.next, htodo, Option.some.injEq] at hs
                obtain rfl := hs
                exact .inl rfl
            | exit =>
                simp only [Runtime.step, Runtime.next, htodo, Option.some.injEq] at hs
                obtain rfl := hs
                exact .inr (.inl rfl)
            | _ => simp [Mode.after] at hafter
          · simp [Mode.after] at hafter
  | fault t a =>
      simp only [Runtime.step, Option.ite_none_right_eq_some, Option.any_eq_true] at hs
      obtain ⟨⟨p, htarget, -⟩, -⟩ := hs
      obtain ⟨-, md, hmd, -, hstage⟩ := h.committed_of_target htarget
      rcases hmd.exited.mp hx with hgone | hgone <;> rw [hstage] at hgone <;> cases hgone
  | signal t p =>
      simp only [Runtime.step, Mem.step, Option.ite_none_right_eq_some, Option.map_eq_some_iff,
        Option.some.injEq] at hs
      obtain ⟨-, m', ⟨hp, rfl⟩, rfl⟩ := hs
      exact .inr (.inr ⟨p, hp, rfl⟩)

/-- The other threads keep their dirty lists, and get no page. -/
theorem Action.bystander {a : Act} (ha : Action s s' e a) (ht : t ∈ s.threads) (hne : e.thread ≠ t) :
    s.mem.Bystander s'.mem t := by
  refine Mem.bystander ha.step fun hc => ?_
  cases a with
  | fork v c =>
      obtain rfl : c = t := Option.some.inj hc
      exact ha.fresh v c rfl ht
  | fault v | commitEntry v | begin v | superblock v | openProtection v | closeProtection v | exit v =>
      obtain rfl : v = t := Option.some.inj hc
      exact hne (ha.actor v rfl).symm
  | _ => cases hc

theorem Staged.bystander (h : Staged strict s) (hs : s.step isHeap e = some s')
    (ht : t ∈ s.threads) (hne : e.thread ≠ t) : s.mem.Bystander s'.mem t := by
  rcases h.action hs with hm | ⟨a, ha⟩
  · rw [hm]
    exact .refl _ t
  · exact ha.bystander ht hne

end Runtime

end Dthreads.Memory
