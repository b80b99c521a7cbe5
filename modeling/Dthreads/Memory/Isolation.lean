import Dthreads.Memory.Access

/-! # Isolation of a transaction

Once a thread has written to a page it computes on a copy of its own. Until its next call nothing that
the other threads do, commit or share reaches that copy. -/

namespace Dthreads.Memory

namespace Mem

variable {m m' : Mem} {t : Tid} {p : ℕ} {a b : Addr}

/-- A store to another byte leaves the copy there and the byte alone. -/
theorem storeByte_copy {v : Byte} (hp : (m.spaces t).isProtected = true)
    (hcopy : (m.spaces t).priv a.page ≠ none) (hne : b ≠ a) :
    ((m.storeByte t b v).spaces t).priv a.page ≠ none ∧
      (m.storeByte t b v).viewByte t a = m.viewByte t a := by
  have hpriv := storeWord_priv (m := m) (t := t) (u := t) (p := b.page) (q := a.page) b.word
    (Function.update (m.view t b.page b.word) b.byte v)
  simp only [hp, and_true, true_and] at hpriv
  constructor
  · rw [storeByte, hpriv]
    split
    · simp
    · exact hcopy
  · by_cases hword : b.page = a.page ∧ b.word = a.word
    · obtain ⟨hpage, hword⟩ := hword
      have hbyte : a.byte ≠ b.byte := by
        intro h
        refine hne ?_
        cases a
        cases b
        simp_all
      rw [viewByte, viewByte, view, storeByte, hpriv, if_pos hpage.symm, Option.getD_some, hword,
        Page.setWord_same, Function.update_of_ne hbyte, hpage]
    · exact congrFun (storeWord_view_word _ hword) a.byte

theorem storeBytes_copy {f : Addr → Byte} {as : List Addr}
    (hp : (m.spaces t).isProtected = true) (hcopy : (m.spaces t).priv a.page ≠ none)
    (hne : a ∉ as) :
    ((m.storeBytes t f as).spaces t).priv a.page ≠ none ∧
      (m.storeBytes t f as).viewByte t a = m.viewByte t a := by
  induction as generalizing m with
  | nil => exact ⟨hcopy, rfl⟩
  | cons b as ih =>
      obtain ⟨hba, has⟩ := not_or.mp (List.mem_cons.not.mp hne)
      obtain ⟨h₁, h₂⟩ := storeByte_copy (v := f b) hp hcopy (Ne.symm hba)
      have hp' : ((m.storeByte t b (f b)).spaces t).isProtected = true := by
        rw [storeByte, storeWord_isProtected, hp]
      obtain ⟨h₃, h₄⟩ := ih hp' h₁ has
      exact ⟨h₃, h₄.trans h₂⟩

end Mem

namespace Runtime

variable {isHeap : ℕ → Bool} {s s' : Runtime} {t : Tid} {a : Addr} {e : Event}

/-- Thread `t` neither calls the library, nor stores to the byte, nor is asked for its page. -/
def Spares (t : Tid) (a : Addr) (_ : Runtime) : Event → Prop
  | .call u _ => u ≠ t
  | .signal u p => u ≠ t ∨ p ≠ a.page
  | .user u (.store _ as _) => u ≠ t ∨ a ∉ as
  | .user u (.setWord _ o _) => u ≠ t ∨ o.page ≠ a.page ∨ o.word ≠ a.word
  | _ => True

/-- Thread `t`, in its own code, has a copy of the page and sees `b` in the byte. -/
structure Sees (s : Runtime) (t : Tid) (a : Addr) (b : Byte) : Prop where
  sound : Sound s
  member : t ∈ s.threads
  running : s.exited t = false
  todo : s.todo t = []
  copy : (s.mem.spaces t).priv a.page ≠ none
  view : s.mem.viewByte t a = b

namespace Sees

variable {b : Byte}

theorem isProtected (h : Sees s t a b) : (s.mem.spaces t).isProtected = true := by
  by_contra hn
  exact h.copy (h.sound.mapped t (by simpa using hn) a.page)

theorem alive (h : Sees s t a b) : s.mem.alive t = true :=
  (h.sound.staged.working h.member h.running h.todo).alive.mpr (by simp)

/-- A step that leaves the copies of `t` alone. -/
theorem of_priv (h : Sees s t a b) (hs : s.step isHeap e = some s') (hrunning : s'.exited t = false)
    (htodo : s'.todo t = []) (hpriv : (s'.mem.spaces t).priv a.page = (s.mem.spaces t).priv a.page) :
    Sees s' t a b := by
  refine ⟨h.sound.step hs, (h.sound.staged.aside hs).threads t h.member, hrunning, htodo, ?_, ?_⟩
  · rw [hpriv]
    exact h.copy
  · obtain ⟨c, hc⟩ := Option.ne_none_iff_exists'.mp h.copy
    rw [← h.view, Mem.viewByte, Mem.viewByte, Mem.view_of_some hc, Mem.view_of_some (hpriv.trans hc)]

/-- The others do not reach the copy. -/
theorem other (h : Sees s t a b) (hs : s.step isHeap e = some s') (hne : e.thread ≠ t) :
    Sees s' t a b := by
  have hst := h.sound.staged
  have haside := hst.aside hs
  refine h.of_priv hs ((haside.exited t h.member hne.symm).trans h.running)
    ((haside.todo t h.member hne.symm).trans h.todo) ?_
  rcases hst.action hs with hmem | ⟨act, ha⟩
  · rw [hmem]
  · have hactor : ∀ v ∈ act.actor, t ≠ v := by
      rintro v hv rfl
      exact hne (ha.actor t hv).symm
    have hopen : ∀ v, act ≠ .openProtection v := by
      rintro v rfl
      have hx := ha.alone v rfl t h.member hne.symm
      rw [h.running] at hx
      cases hx
    have hfork : ∀ v, act ≠ .fork v t := by
      rintro v rfl
      exact ha.fresh v t rfl h.member
    rw [(Mem.copies_of_actor_ne hst.partitioned ha.proper ha.step h.alive hactor hopen hfork).1]

/-- A step of the thread's own code. -/
theorem user {act : Act} (h : Sees s t a b) (hg : Spares t a s (.user t act))
    (hs : s.step isHeap (.user t act) = some s') : Sees s' t a b := by
  have hstep := hs
  simp only [Runtime.step, Option.ite_none_right_eq_some, Option.map_eq_some_iff] at hs
  obtain ⟨⟨-, -, -, hallows⟩, m', hm, rfl⟩ := hs
  have htodo : (s.advance t m' []).todo t = [] := by simp [advance]
  cases act with
  | load v c =>
      simp only [Mem.step, Option.ite_none_right_eq_some, Option.some.injEq] at hm
      obtain ⟨-, rfl⟩ := hm
      exact h.of_priv hstep h.running htodo rfl
  | store v as f =>
      obtain rfl : v = t := by simpa [Mem.allows] using hallows
      simp only [Mem.step, Option.ite_none_right_eq_some, Option.some.injEq] at hm
      obtain ⟨-, rfl⟩ := hm
      have hmem : a ∉ as := Or.resolve_left hg (by simp)
      obtain ⟨hcopy, hview⟩ :=
        Mem.storeBytes_copy (f := f (s.mem.viewByte v)) h.isProtected h.copy hmem
      exact ⟨h.sound.step hstep, h.member, h.running, htodo, hcopy, hview.trans h.view⟩
  | fault v p =>
      simp only [Mem.step, Option.ite_none_right_eq_some] at hm
      exact h.of_priv hstep h.running htodo (congrFun (Mem.handleWrite_priv hm.2) _)
  | notify v p =>
      simp only [Mem.step, Option.ite_none_right_eq_some, Option.some.injEq] at hm
      obtain ⟨-, rfl⟩ := hm
      exact h.of_priv hstep h.running htodo (congrFun Mem.notifyOwnerToCommit_priv _)
  | mprotectRead v p =>
      simp only [Mem.step, Option.ite_none_right_eq_some, Option.some.injEq] at hm
      obtain ⟨-, rfl⟩ := hm
      exact h.of_priv hstep h.running htodo (congrFun Mem.mprotectRead_priv _)
  | setWord v o w =>
      obtain rfl : v = t := by simpa [Mem.allows] using hallows
      simp only [Mem.step, Option.ite_none_right_eq_some, Option.some.injEq] at hm
      obtain ⟨-, rfl⟩ := hm
      have hword : ¬ (o.page = a.page ∧ o.word = a.word) := by
        rintro ⟨hp, hw⟩
        rcases hg with hg | hg | hg
        · exact hg rfl
        · exact hg hp
        · exact hg hw
      have hpriv := Mem.storeWord_priv (m := s.mem) (t := v) (u := v) (p := o.page) (q := a.page) o.word w
      refine ⟨h.sound.step hstep, h.member, h.running, htodo, ?_, ?_⟩
      · change ((s.mem.storeWord v o.page o.word w).spaces v).priv a.page ≠ none
        rw [hpriv]
        split
        · simp
        · exact h.copy
      · exact (congrFun (Mem.storeWord_view_word w hword) a.byte).trans h.view
  | memWrite v o w =>
      obtain rfl := Option.some.inj hm
      exact h.of_priv hstep h.running htodo rfl
  | superblock v n =>
      obtain rfl := Option.some.inj hm
      exact h.of_priv hstep h.running htodo (congrFun Mem.superblock_priv _)
  | _ => simp [Mem.allows] at hallows

theorem step (h : Sees s t a b) (hg : Spares t a s e) (hs : s.step isHeap e = some s') :
    Sees s' t a b := by
  by_cases hne : e.thread = t
  · cases e with
    | user v act =>
        obtain rfl : v = t := hne
        exact h.user hg hs
    | call v op => exact absurd hne hg
    | next v =>
        obtain rfl : v = t := hne
        simp [Runtime.step, Runtime.next, h.todo] at hs
    | fault v act =>
        obtain rfl : v = t := hne
        simp [Runtime.step, target, h.todo] at hs
    | signal v p =>
        obtain rfl : v = t := hne
        have hstep := hs
        simp only [Runtime.step, Mem.step, Option.ite_none_right_eq_some, Option.map_eq_some_iff,
          Option.some.injEq] at hs
        obtain ⟨-, m', ⟨-, rfl⟩, rfl⟩ := hs
        refine h.of_priv hstep h.running (by simpa [advance] using h.todo) ?_
        change ((s.mem.signalHandler v p).spaces v).priv a.page = _
        rw [Mem.signalHandler_priv, if_neg]
        rintro ⟨-, rfl⟩
        exact hg.elim (fun hv => hv rfl) fun hp => hp rfl
  · exact h.other hs hne

end Sees

/-- A thread that has written to a page reads the page undisturbed: from any reachable state, over any
steps of the other threads (stores, faults, commits, calls, exits, signals) and of its own, a byte of
the copy is what it was until the thread calls the library, stores to the byte itself, or hands over
the page as its owner. -/
theorem copy_isolated {position : ℕ} {es₀ es : List Event} {s₀ : Runtime}
    (h₀ : Transition.Run (Runtime.step isHeap) (fun _ _ => True) (boot position) es₀ s₀)
    (ht : t ∈ s₀.threads) (hx : s₀.exited t = false) (htodo : s₀.todo t = [])
    (hcopy : (s₀.mem.spaces t).priv a.page ≠ none)
    (h : Transition.Run (Runtime.step isHeap) (Spares t a) s₀ es s) :
    s.mem.viewByte t a = s₀.mem.viewByte t a := by
  have hsees : Sees s₀ t a (s₀.mem.viewByte t a) := ⟨.run h₀, ht, hx, htodo, hcopy, rfl⟩
  have hlast : Sees s t a (s₀.mem.viewByte t a) :=
    h.invariant (fun _ _ _ hi hg hs => Sees.step hi hg hs) hsees
  exact hlast.view

instance (t : Tid) (a : Addr) (s : Runtime) : (e : Event) → Decidable (Spares t a s e)
  | .call u _ => inferInstanceAs (Decidable (u ≠ t))
  | .signal u p => inferInstanceAs (Decidable (u ≠ t ∨ p ≠ a.page))
  | .user u (.store _ as _) => inferInstanceAs (Decidable (u ≠ t ∨ a ∉ as))
  | .user u (.setWord _ o _) =>
      inferInstanceAs (Decidable (u ≠ t ∨ o.page ≠ a.page ∨ o.word ≠ a.word))
  | .user _ (.load ..) | .user _ (.fault ..) | .user _ (.notify ..) | .user _ (.mprotectRead ..)
  | .user _ (.memWrite ..) | .user _ (.commitEntry ..) | .user _ (.begin ..)
  | .user _ (.finalcommit ..) | .user _ (.superblock ..) | .user _ (.signal ..) | .user _ .cleanup
  | .user _ (.openProtection ..) | .user _ (.closeProtection ..) | .user _ (.fork ..)
  | .user _ (.exit ..) | .next .. | .fault .. => .isTrue trivial

/-- Threads 1 and 2 store to one word; thread 2 commits its byte first. -/
theorem copy_isolated_commit : ∃ s₀ s, Transition.exec (Runtime.step fun _ => false) (boot 8)
    (spawningTwo ++ [.user 1 (.fault 1 0), .user 1 (.store 1 [⟨0, 0, 1⟩] fun _ _ => 5)]) = some s₀ ∧
      Transition.Run (Runtime.step fun _ => false) (Spares 1 ⟨0, 0, 2⟩) s₀
        ([.user 2 (.fault 2 0), .user 2 (.store 2 [⟨0, 0, 2⟩] fun _ _ => 7), .call 2 .mutexUnlock] ++
          List.replicate 3 (.next 2)) s ∧
            (s.mem.pages 0).content 0 2 = 7 ∧
              s.mem.viewByte 1 ⟨0, 0, 2⟩ = s₀.mem.viewByte 1 ⟨0, 0, 2⟩ := by
  have h : (Transition.exec (Runtime.step fun _ => false) (boot 8)
      (spawningTwo ++ [.user 1 (.fault 1 0), .user 1 (.store 1 [⟨0, 0, 1⟩] fun _ _ => 5)])).any
      (fun s₀ => decide ((1 ∈ s₀.threads ∧ s₀.exited 1 = false ∧ s₀.todo 1 = [] ∧
        ((s₀.mem.spaces 1).priv 0).isSome = true) ∧
          (Transition.execGuarded (Runtime.step fun _ => false) (Spares 1 ⟨0, 0, 2⟩) s₀
            ([.user 2 (.fault 2 0), .user 2 (.store 2 [⟨0, 0, 2⟩] fun _ _ => 7),
              .call 2 .mutexUnlock] ++ List.replicate 3 (.next 2))).any
                (fun s => decide ((s.mem.pages 0).content 0 2 = 7)) = true)) = true := by
    decide +kernel
  obtain ⟨s₀, h₀, ⟨ht, hx, htodo, hcopy⟩, hrun⟩ := Transition.exists_exec_of_any h
  obtain ⟨s, hs, hseven⟩ := Transition.exists_run_of_any hrun
  refine ⟨s₀, s, h₀, hs, hseven, ?_⟩
  exact copy_isolated (a := ⟨0, 0, 2⟩) (Transition.run_of_exec h₀) ht hx htodo
    (Option.isSome_iff_ne_none.mp hcopy) hs

end Runtime

end Dthreads.Memory
