import Dthreads.Memory.Coherence
import Dthreads.Memory.Actions

/-! # The result of a join

The joiner reads the result that the child has left in its `ThreadStatus`, and stores it to `*result`
between its commit and its next begin. -/

namespace Dthreads.Memory

namespace Runtime

variable {isHeap : ℕ → Bool} {strict : Prop} {s s' : Runtime} {t u child : Tid} {e : Event}
  {rest : List Phase} {ph : Phase} {dest : Dest} {r : Word}

/-- The thread has stored its result and does nothing more. -/
def Ended (s : Runtime) (u : Tid) : Prop :=
  u ∈ s.threads ∧ s.exited u = true ∧ (s.todo u = [.exit] ∨ s.todo u = [])

theorem Ended.step (h : Ended s u) (hst : Staged strict s) (hs : s.step isHeap e = some s') :
    Ended s' u ∧ s'.retval u = s.retval u := by
  obtain ⟨hu, hx, htodo⟩ := h
  have ha := hst.aside hs
  by_cases hue : u = e.thread
  · suffices hown : (s'.todo u = [.exit] ∨ s'.todo u = []) ∧ s'.retval u = s.retval u from
      ⟨⟨ha.threads u hu, ha.exits u hu hx, hown.1⟩, hown.2⟩
    cases e with
    | user v a =>
        obtain rfl : u = v := hue
        simp [Runtime.step, hx] at hs
    | call v op =>
        obtain rfl : u = v := hue
        simp [Runtime.step, hx] at hs
    | fault v a | signal v p =>
        obtain rfl : u = v := hue
        simp only [Runtime.step, Option.ite_none_right_eq_some, Option.map_eq_some_iff] at hs
        obtain ⟨-, m', -, rfl⟩ := hs
        exact ⟨by simpa [advance] using htodo, rfl⟩
    | next v =>
        obtain rfl : u = v := hue
        rcases htodo with htodo | htodo
        · simp only [Runtime.step, Runtime.next, htodo, Option.some.injEq] at hs
          obtain rfl := hs
          exact ⟨by simp [advance], rfl⟩
        · simp [Runtime.step, Runtime.next, htodo] at hs
  · exact ⟨⟨ha.threads u hu, ha.exits u hu hx, by rwa [ha.todo u hu hue]⟩, ha.retval u hu hue⟩

/-- `run_thread` has stored the result of the thread. -/
def hasStored (s : Runtime) (u : Tid) : Bool :=
  (s.todo u).all fun
    | .retval _ => false
    | _ => true

/-- A thread that has deregistered and has its result stored. -/
theorem Staged.ended (h : Staged strict s) (hk : Known s) (hx : s.exited u = true)
    (hstored : s.hasStored u = true) : Ended s u := by
  have hr : ∀ r, Phase.retval r ∉ s.todo u := by
    intro r hr
    simpa using List.all_eq_true.mp hstored _ hr
  have hu := hk u hx
  obtain ⟨md, hmd, hfits⟩ := h.modes u hu
  refine ⟨hu, hx, ?_⟩
  cases htodo : s.todo u with
  | nil => exact .inr rfl
  | cons ph rest =>
      rw [htodo] at hfits hr
      obtain ⟨md', hafter, hrest⟩ := Mode.fits_cons.mp hfits
      obtain ⟨stage, r, g, l⟩ := md
      rcases hmd.exited.mp hx with hstage | hstage <;> obtain rfl : stage = _ := hstage
      · cases ph with
        | retval x => exact absurd List.mem_cons_self (hr x)
        | exit =>
            obtain ⟨rfl, rfl⟩ : r = true ∧ md' = ⟨.gone, true, g, l⟩ := by
              cases r <;> simp_all [Mode.after]
            cases rest with
            | nil => exact .inl rfl
            | cons ph rest => simp [Mode.fits, Mode.after] at hrest
        | _ => simp [Mode.after] at hafter
      · simp [Mode.after] at hafter

/-! ## The result of the child -/

/-- Thread `u` is about to store its result `r`, or has stored it. -/
def Gives (s : Runtime) (u : Tid) (r : Word) : Prop :=
  u ∈ s.threads ∧ ([.retval r, .exit] <:+ s.todo u ∨ (Ended s u ∧ s.retval u = r))

theorem Gives.step (h : Gives s u r) (hst : Staged strict s) (hs : s.step isHeap e = some s') :
    Gives s' u r := by
  obtain ⟨hu, hsuffix | ⟨hended, hr⟩⟩ := h
  · have ha := hst.aside hs
    refine ⟨ha.threads u hu, ?_⟩
    by_cases hue : u = e.thread
    · have hne : s.todo u ≠ [] := by
        intro hn
        simp [hn] at hsuffix
      cases e with
      | user v a | call v op =>
          obtain rfl : u = v := hue
          simp [Runtime.step, hne] at hs
      | fault v a | signal v p =>
          obtain rfl : u = v := hue
          simp only [Runtime.step, Option.ite_none_right_eq_some, Option.map_eq_some_iff] at hs
          obtain ⟨-, m', -, rfl⟩ := hs
          exact .inl (by simpa [advance] using hsuffix)
      | next v =>
          obtain rfl : u = v := hue
          cases htodo : s.todo u with
          | nil => exact absurd htodo hne
          | cons ph rest =>
              rw [htodo, List.suffix_cons_iff] at hsuffix
              rcases hsuffix with heq | hsuffix
              · obtain ⟨rfl, rfl⟩ := List.cons.inj heq
                obtain ⟨⟨stage, x, g, l⟩, md', hmd, hafter, -⟩ := hst.mode_of_todo htodo
                have hx : s.exited u = true := by
                  apply hmd.exited.mpr
                  cases stage <;> simp_all [Mode.after]
                simp only [Runtime.step, Runtime.next, htodo, Option.some.injEq] at hs
                obtain rfl := hs
                exact .inr ⟨⟨hu, hx, by simp [advance]⟩, by simp⟩
              · exact .inl (hsuffix.trans (hst.rest_suffix htodo hs))
    · exact .inl (by rwa [ha.todo u hu hue])
  · obtain ⟨hended', hr'⟩ := hended.step hst hs
    exact ⟨hended'.1, .inr ⟨hended', hr'.trans hr⟩⟩

/-! ## The joiner -/

/-- What is stored at `*result` is the result of the child, and stays there. -/
def Delivered (s : Runtime) (t child : Tid) : Dest → Prop
  | .null => True
  | .stack => s.stack t = s.retval child
  | .region o =>
      (∀ p, (s.mem.pages p).owner ≠ .thread t) ∧
        if (s.mem.spaces t).isProtected then
          (∃ c, (s.mem.spaces t).priv o.page = some c ∧ c o.word = s.retval child) ∧
            o.page ∉ s.mem.signals t
        else
          (s.mem.pages o.page).content o.word = s.retval child ∧ ∀ u, o.page ∉ s.mem.signals u

/-- The next step of the join by `t` does not lose the result: the child has stored it when `t` reads
it; a result in protected memory is not in a page whose copy the begin drops, nor in one that a signal
is pending for, and the join does not leave `t` as the only thread. -/
def delivers (s : Runtime) (t : Tid) (dest : Dest) : Bool :=
  match s.todo t, dest with
  | .result child _ :: _, .region o =>
      s.hasStored child && decide (¬ s.mem.released t o.page) &&
        s.threads.all fun v =>
          !((v = t || !(s.mem.spaces t).isProtected) && (s.mem.signals v).contains o.page)
  | .result child _ :: _, _ => s.hasStored child
  | .closeProtection :: _, .region _ => !((s.mem.spaces t).isProtected && s.isSingleAliveThread)
  | _, _ => true

def Delivers (t : Tid) (dest : Dest) (s : Runtime) : Event → Prop
  | .next u => u = t → s.delivers t dest = true
  | _ => True

instance (t : Tid) (dest : Dest) (s : Runtime) : (e : Event) → Decidable (Delivers t dest s e)
  | .next u => inferInstanceAs (Decidable (u = t → s.delivers t dest = true))
  | .user .. | .call .. | .fault .. | .signal .. => .isTrue trivial

/-- The joiner on its way through the script of `join`. -/
inductive Joining (s : Runtime) (t child : Tid) (dest : Dest) : Prop
  | committing (ph : Phase) (hph : ph = .commit ∨ ∃ ks, ph = .entries ks)
      (htodo : s.todo t = [ph, .finalcommit true, .await child, .result child dest, .begin,
        .closeProtection])
  | publishing (htodo : s.todo t = [.finalcommit true, .await child, .result child dest, .begin,
      .closeProtection])
  | waiting (hnone : ∀ p, (s.mem.pages p).owner ≠ .thread t)
      (htodo : s.todo t = [.await child, .result child dest, .begin, .closeProtection])
  | storing (hnone : ∀ p, (s.mem.pages p).owner ≠ .thread t) (hx : s.exited child = true)
      (htodo : s.todo t = [.result child dest, .begin, .closeProtection])
  | beginning (hended : Ended s child) (hd : Delivered s t child dest)
      (hr : ∀ o, dest = .region o → ¬ s.mem.released t o.page)
      (htodo : s.todo t = [.begin, .closeProtection])
  | closing (hended : Ended s child) (hd : Delivered s t child dest)
      (htodo : s.todo t = [.closeProtection])
  | returned (hended : Ended s child) (hd : Delivered s t child dest) (htodo : s.todo t = [])

theorem Delivered.congr (h : Delivered s t child dest) (hmem : s'.mem = s.mem)
    (hstack : s'.stack t = s.stack t) (hretval : s'.retval child = s.retval child) :
    Delivered s' t child dest := by
  cases dest with
  | null => trivial
  | stack =>
      have h : s.stack t = s.retval child := h
      rw [Delivered, hstack, h, hretval]
  | region o =>
      unfold Delivered at h ⊢
      rw [hmem, hretval]
      exact h

/-- The others leave the result alone. -/
theorem Delivered.aside (h : Delivered s t child dest) (hst : Staged strict s)
    (ht : t ∈ s.threads) (hx : s.exited t = false) (hended : Ended s child)
    (hs : s.step isHeap e = some s') (hne : e.thread ≠ t) : Delivered s' t child dest := by
  have hretval := (hended.step hst hs).2
  have hstack := (hst.aside hs).stack t (Ne.symm hne)
  cases dest with
  | null => trivial
  | stack =>
      have h : s.stack t = s.retval child := h
      rw [Delivered, hstack, h, hretval]
  | region o =>
      rcases hst.action hs with hmem | ⟨a, ha⟩
      · exact h.congr hmem hstack hretval
      · obtain ⟨hnone, hword⟩ := h
        have hb := ha.bystander ht hne
        refine ⟨fun p hp => hnone p (hb.owner p hp), ?_⟩
        rw [hb.isProtected]
        have halive : s.mem.alive t = true := by
          obtain ⟨md, hmd, -⟩ := hst.modes t ht
          apply hmd.alive.mpr
          intro hg
          exact Bool.false_ne_true (hx.symm.trans (hmd.exited.mpr (.inr hg)))
        split at hword
        · rename_i hp
          obtain ⟨⟨c, hc, hw⟩, hq⟩ := hword
          rw [if_pos hp]
          have hpriv := (Mem.copies_of_actor_ne hst.partitioned ha.proper ha.step halive
            (fun v hv he => hne ((ha.actor v hv).symm.trans he.symm))
            (fun v hv => Bool.false_ne_true
              (hx.symm.trans (ha.alone v hv t ht (Ne.symm hne))))
            (fun v hv => ha.fresh v t hv ht)).1
          refine ⟨⟨c, by rw [hpriv, hc], by rw [hw, hretval]⟩, fun hq' => ?_⟩
          rcases Mem.signals_step ha.step hq' with hq' | ⟨-, ho⟩
          · exact hq hq'
          · exact hnone _ ho
        · rename_i hp
          obtain ⟨hw, hq⟩ := hword
          rw [if_neg hp]
          have hothers := hst.alone t ht (by simpa using hp) e.thread (hst.thread_mem hs) hne
          rcases hst.step_of_exited hothers hs with hmem | hmem | ⟨p, hsig, hmem⟩
          · rw [hmem, hretval]
            exact ⟨hw, hq⟩
          · rw [hmem, hretval]
            exact ⟨hw, hq⟩
          · have hpo : o.page ≠ p := by
              rintro rfl
              exact hq _ hsig
            refine ⟨?_, fun u hu => ?_⟩
            · rw [hmem, Mem.signalHandler_content, if_neg hpo, hw, hretval]
            · have hstep : s.mem.step (.signal e.thread p) = some s'.mem := by
                rw [hmem]
                exact if_pos hsig
              rcases Mem.signals_step hstep hu with hu | ⟨⟨v, hv⟩, -⟩
              · exact hq u hu
              · cases hv

/-- A signal for another page. -/
theorem Delivered.signal {p : ℕ} (h : Delivered s t child dest) (hst : Staged strict s)
    (hended : Ended s child) (hs : s.step isHeap (.signal t p) = some s') :
    Delivered s' t child dest := by
  have hretval := (hended.step hst hs).2
  simp only [Runtime.step, Option.ite_none_right_eq_some, Option.map_eq_some_iff] at hs
  obtain ⟨-, m', hm, rfl⟩ := hs
  have hb : s.mem.Bystander m' t := Mem.bystander hm (by simp [Act.concerns])
  cases dest with
  | null => trivial
  | stack => exact h
  | region o =>
      obtain ⟨hnone, hword⟩ := h
      have hsignals : ∀ u, o.page ∉ s.mem.signals u → o.page ∉ m'.signals u := by
        intro u hu hu'
        rcases Mem.signals_step hm hu' with hu' | ⟨⟨v, hv⟩, -⟩
        · exact hu hu'
        · cases hv
      simp only [Mem.step, Option.ite_none_right_eq_some, Option.some.injEq] at hm
      obtain ⟨hsig, rfl⟩ := hm
      refine ⟨fun q hq => hnone q (hb.owner q hq), ?_⟩
      simp only [advance, hb.isProtected]
      split at hword
      · rename_i hp
        obtain ⟨⟨c, hc, hw⟩, hq⟩ := hword
        rw [if_pos hp]
        have hpo : o.page ≠ p := by
          rintro rfl
          exact hq hsig
        exact ⟨⟨c, by rw [Mem.signalHandler_priv, if_neg fun hpp => hpo hpp.2, hc], hw⟩, hsignals t hq⟩
      · rename_i hp
        obtain ⟨hw, hq⟩ := hword
        rw [if_neg hp]
        have hpo : o.page ≠ p := by
          rintro rfl
          exact hq t hsig
        exact ⟨by rw [Mem.signalHandler_content, if_neg hpo, hw], fun u => hsignals u (hq u)⟩

namespace Joining

/-- The others leave the joiner where it is. -/
theorem aside (h : Joining s t child dest) (hst : Staged strict s) (hk : Known s) (ht : t ∈ s.threads)
    (hx : s.exited t = false) (hs : s.step isHeap e = some s') (hne : e.thread ≠ t) :
    Joining s' t child dest := by
  have htodo := (hst.aside hs).todo t ht (Ne.symm hne)
  have hb := hst.bystander hs ht hne
  have hkeep : (∀ p, (s.mem.pages p).owner ≠ .thread t) → ∀ p, (s'.mem.pages p).owner ≠ .thread t :=
    fun hnone p hp => hnone p (hb.owner p hp)
  cases h with
  | committing ph hph h => exact .committing ph hph (htodo.trans h)
  | publishing h => exact .publishing (htodo.trans h)
  | waiting hnone h => exact .waiting (hkeep hnone) (htodo.trans h)
  | storing hnone hchild h =>
      exact .storing (hkeep hnone) ((hst.aside hs).exits child (hk child hchild) hchild)
        (htodo.trans h)
  | beginning hended hd hr h =>
      refine .beginning (hended.step hst hs).1 (hd.aside hst ht hx hended hs hne) (fun o ho => ?_)
        (htodo.trans h)
      rw [Mem.released, hb.dirty, hb.release]
      exact hr o ho
  | closing hended hd h =>
      exact .closing (hended.step hst hs).1 (hd.aside hst ht hx hended hs hne) (htodo.trans h)
  | returned hended hd h =>
      exact .returned (hended.step hst hs).1 (hd.aside hst ht hx hended hs hne) (htodo.trans h)

theorem signal {p : ℕ} (h : Joining s t child dest) (hst : Staged strict s) (hk : Known s)
    (hs : s.step isHeap (.signal t p) = some s') : Joining s' t child dest := by
  have ha := hst.aside hs
  have hdel := fun (hd : Delivered s t child dest) (hended : Ended s child) =>
    hd.signal hst hended hs
  have hend := fun (hended : Ended s child) => (hended.step hst hs).1
  simp only [Runtime.step, Option.ite_none_right_eq_some, Option.map_eq_some_iff] at hs
  obtain ⟨-, m', hm, rfl⟩ := hs
  have htodo : (s.advance t m' (s.todo t)).todo t = s.todo t := by simp [advance]
  have hb : s.mem.Bystander m' t := Mem.bystander hm (by simp [Act.concerns])
  have hkeep : (∀ p, (s.mem.pages p).owner ≠ .thread t) → ∀ p, (m'.pages p).owner ≠ .thread t :=
    fun hnone p hp => hnone p (hb.owner p hp)
  cases h with
  | committing ph hph h => exact .committing ph hph (htodo.trans h)
  | publishing h => exact .publishing (htodo.trans h)
  | waiting hnone h => exact .waiting (hkeep hnone) (htodo.trans h)
  | storing hnone hchild h =>
      exact .storing (hkeep hnone) (ha.exits child (hk child hchild) hchild) (htodo.trans h)
  | beginning hended hd hr h =>
      refine .beginning (hend hended) (hdel hd hended) (fun o ho => ?_) (htodo.trans h)
      simp only [advance, Mem.released, hb.dirty, hb.release]
      exact hr o ho
  | closing hended hd h => exact .closing (hend hended) (hdel hd hended) (htodo.trans h)
  | returned hended hd h => exact .returned (hend hended) (hdel hd hended) (htodo.trans h)

/-- The joiner faults only on its store to `*result`. -/
theorem fault {a : Act} (h : Joining s t child dest) (hst : Staged strict s) (hk : Known s)
    (hs : s.step isHeap (.fault t a) = some s') : Joining s' t child dest := by
  have haside := hst.aside hs
  simp only [Runtime.step, Option.ite_none_right_eq_some, Option.map_eq_some_iff,
    Option.any_eq_true] at hs
  obtain ⟨⟨p, htarget, ha⟩, m', hm, rfl⟩ := hs
  have htodo : (s.advance t m' (s.todo t)).todo t = s.todo t := by simp [advance]
  cases h with
  | storing hnone hchild h =>
      refine .storing (fun q hq => ?_) (haside.exits child (hk child hchild) hchild) (htodo.trans h)
      cases a with
      | notify u q' | mprotectRead u q' =>
          exact hnone q ((Mem.bystander (u := t) hm (by simp [Act.concerns])).owner q hq)
      | fault u q' =>
          simp only [Mem.step, Option.ite_none_right_eq_some] at hm
          have hown := congrArg Table.owner (Mem.handleWrite_table (q := q) hm.2)
          rw [Mem.table_owner] at hown
          refine hnone q ?_
          split at hown <;> exact hown.symm.trans hq
      | _ => simp [Mem.handles] at ha
  | committing ph hph h =>
      rcases hph with rfl | ⟨ks, rfl⟩ <;> simp [target, h] at htarget
  | publishing h | waiting _ h | beginning _ _ _ h | closing _ _ h | returned _ _ h =>
      simp [target, h] at htarget

/-- The store to `*result`. -/
theorem store (hst : Staged strict s) (hk : Known s)
    (hmail : ∀ u, u ∉ s.threads → s.mem.signals u = []) (ht : t ∈ s.threads)
    (hnone : ∀ p, (s.mem.pages p).owner ≠ .thread t) (hchild : s.exited child = true)
    (htodo : s.todo t = [.result child dest, .begin, .closeProtection])
    (hg : Delivers t dest s (.next t)) (hs : s.step isHeap (.next t) = some s') :
    Joining s' t child dest := by
  have hg : s.delivers t dest = true := hg rfl
  have hstored : s.hasStored child = true := by
    cases dest <;> simp_all [delivers]
  have hended := hst.ended hk hchild hstored
  obtain ⟨hended', hretval⟩ := hended.step hst hs
  simp only [Runtime.step, Runtime.next, htodo] at hs
  cases dest with
  | null =>
      obtain rfl := Option.some.inj hs
      exact .beginning hended' trivial (by simp) (by simp [advance])
  | stack =>
      obtain rfl := Option.some.inj hs
      exact .beginning hended' (by simp [Delivered, advance]) (by simp) (by simp [advance])
  | region o =>
      obtain ⟨hrelease, hclear⟩ : ¬ s.mem.released t o.page ∧ ∀ v ∈ s.threads,
          (¬ v = t ∧ (s.mem.spaces t).isProtected = true) ∨ o.page ∉ s.mem.signals v := by
        simpa [delivers, htodo, hstored] using hg
      have hsignals : ∀ v ∈ s.threads, v = t ∨ (s.mem.spaces t).isProtected = false →
          o.page ∉ s.mem.signals v := by
        intro v hv hor
        refine (hclear v hv).resolve_left fun hc => ?_
        rcases hor with hvt | hp
        · exact hc.1 hvt
        · simp [hp] at hc
      simp only [Option.ite_none_right_eq_some, Option.some.injEq] at hs
      obtain ⟨hw, rfl⟩ := hs
      have hsame := Mem.storeWord_sameDirty s.mem t t o.page o.word (s.retval child)
      have hsig : (s.mem.storeWord t o.page o.word (s.retval child)).signals = s.mem.signals :=
        congrArg (·.1) (Mem.storeWord_mail (m := s.mem) (t := t) (p := o.page) o.word _)
      refine .beginning hended' ⟨fun p hp => hnone p ?_, ?_⟩ (fun o' ho => ?_) (by simp [advance])
      · exact (congrArg Table.owner (Mem.storeWord_table (q := p) o.word _)).symm.trans hp
      · simp only [advance, hsame.isProtected, hsig]
        split
        · rename_i hp
          refine ⟨⟨_, by rw [Mem.storeWord_priv, if_pos ⟨rfl, rfl, hp⟩], ?_⟩,
            hsignals t ht (.inl rfl)⟩
          simp [Page.setWord]
        · rename_i hp
          have hp : (s.mem.spaces t).isProtected = false := by simpa using hp
          refine ⟨?_, fun u hq => ?_⟩
          · rw [Mem.storeWord_content, if_pos ⟨rfl, hp⟩]
            simp [Page.setWord]
          · by_cases hu : u ∈ s.threads
            · exact hsignals u hu (.inr hp) hq
            · simp [hmail u hu] at hq
      · obtain rfl := Dest.region.inj ho
        simp only [advance, Mem.released, hsame.dirty, hsame.release]
        exact hrelease

/-- The begin keeps the copy of a page that is not released. -/
theorem begin (hst : Staged strict s) (hended : Ended s child) (hd : Delivered s t child dest)
    (hr : ∀ o, dest = .region o → ¬ s.mem.released t o.page)
    (htodo : s.todo t = [.begin, .closeProtection]) (hs : s.step isHeap (.next t) = some s') :
    Joining s' t child dest := by
  obtain ⟨hended', -⟩ := hended.step hst hs
  simp only [Runtime.step, Runtime.next, htodo, Option.some.injEq] at hs
  obtain rfl := hs
  refine .closing hended' ?_ (by simp [advance])
  cases dest with
  | null => trivial
  | stack => exact hd
  | region o =>
      have hr := hr o rfl
      obtain ⟨hnone, hword⟩ := hd
      unfold Delivered
      simp only [advance, Mem.atomicBegin]
      split at hword
      · rename_i hp
        obtain ⟨⟨c, hc, hw⟩, hq⟩ := hword
        simp only [if_pos hp, Mem.updateAll_pages, Mem.updateAll_isProtected]
        exact ⟨hnone, ⟨c, by rw [Mem.updateAll_priv_of_not_released hr, hc], hw⟩, hq⟩
      · rename_i hp
        simp only [if_neg hp]
        exact ⟨hnone, hword⟩

theorem close (hst : Staged strict s) (hended : Ended s child) (hd : Delivered s t child dest)
    (htodo : s.todo t = [.closeProtection]) (hg : Delivers t dest s (.next t))
    (hs : s.step isHeap (.next t) = some s') : Joining s' t child dest := by
  obtain ⟨hended', -⟩ := hended.step hst hs
  have hg : s.delivers t dest = true := hg rfl
  simp only [Runtime.step, Runtime.next, htodo, Option.some.injEq] at hs
  obtain rfl := hs
  refine .returned hended' ?_ (by simp [advance])
  cases dest with
  | null => trivial
  | stack => exact hd
  | region o =>
      obtain ⟨hnone, hword⟩ := hd
      unfold Delivered
      simp only [advance]
      split at hword
      · rename_i hp
        have hone : s.isSingleAliveThread = false := by simpa [delivers, htodo, hp] using hg
        simp only [hone, Bool.false_eq_true, if_false, if_pos hp]
        exact ⟨hnone, hword⟩
      · rename_i hp
        split
        · refine ⟨hnone, ?_⟩
          simp only [Mem.closeProtection, Mem.setSpace_spaces_same, Bool.false_eq_true, if_false]
          exact hword
        · exact ⟨hnone, hword⟩

theorem next (h : Joining s t child dest) (hst : Staged strict s) (hk : Known s)
    (hmail : ∀ u, u ∉ s.threads → s.mem.signals u = []) (ht : t ∈ s.threads)
    (hg : Delivers t dest s (.next t)) (hs : s.step isHeap (.next t) = some s') :
    Joining s' t child dest := by
  cases h with
  | committing ph hph htodo =>
      rcases hph with rfl | ⟨ks, rfl⟩
      · simp only [Runtime.step, Runtime.next, htodo, Option.some.injEq] at hs
        obtain rfl := hs
        exact .committing (.entries (s.mem.atomicEnd t isHeap)) (.inr ⟨_, rfl⟩) (by simp [advance])
      · cases ks with
        | nil =>
            simp only [Runtime.step, Runtime.next, htodo, Option.some.injEq] at hs
            obtain rfl := hs
            exact .publishing (by simp [advance])
        | cons k ks =>
            simp only [Runtime.step, Runtime.next, htodo, Option.map_eq_some_iff] at hs
            obtain ⟨m', -, rfl⟩ := hs
            exact .committing _ (.inr ⟨ks, rfl⟩) (by simp [advance])
  | publishing htodo =>
      simp only [Runtime.step, Runtime.next, htodo] at hs
      cases hn : s.mem.nextOwned t with
      | some p =>
          rw [hn] at hs
          obtain rfl := Option.some.inj hs
          exact .publishing (by simp [advance])
      | none =>
          rw [hn] at hs
          obtain rfl := Option.some.inj hs
          exact .waiting (fun p => hst.partitioned.nextOwned_eq_none hn) (by simp [advance])
  | waiting hnone htodo =>
      simp only [Runtime.step, Runtime.next, htodo, Option.ite_none_right_eq_some,
        Option.some.injEq] at hs
      obtain ⟨hx, rfl⟩ := hs
      exact .storing hnone hx (by simp [advance])
  | storing hnone hx htodo => exact store hst hk hmail ht hnone hx htodo hg hs
  | beginning hended hd hr htodo => exact begin hst hended hd hr htodo hs
  | closing hended hd htodo => exact close hst hended hd htodo hg hs
  | returned hended hd htodo => simp [Runtime.step, Runtime.next, htodo] at hs

/-- The joiner stays in its script. -/
theorem step (h : Joining s t child dest) (hst : Staged strict s) (hk : Known s)
    (hmail : ∀ u, u ∉ s.threads → s.mem.signals u = []) (ht : t ∈ s.threads) (hx : s.exited t = false) (hg : Delivers t dest s e)
    (hwithin : (∀ a, e ≠ .user t a) ∧ ∀ op, e ≠ .call t op) (hs : s.step isHeap e = some s') :
    Joining s' t child dest := by
  by_cases hne : e.thread = t
  · cases e with
    | user v a =>
        obtain rfl : v = t := hne
        exact absurd rfl (hwithin.1 a)
    | call v op =>
        obtain rfl : v = t := hne
        exact absurd rfl (hwithin.2 op)
    | next v =>
        obtain rfl : v = t := hne
        exact h.next hst hk hmail ht hg hs
    | fault v a =>
        obtain rfl : v = t := hne
        exact h.fault hst hk hs
    | signal v p =>
        obtain rfl : v = t := hne
        exact h.signal hst hk hs
  · exact h.aside hst hk ht hx hs hne

/-- A joiner does not deregister. -/
theorem exited (h : Joining s t child dest) (hst : Staged strict s) (ht : t ∈ s.threads)
    (hx : s.exited t = false) (hs : s.step isHeap e = some s') : s'.exited t = false := by
  by_cases hne : t = e.thread
  · cases e with
    | user v a | fault v a | signal v p =>
        simp only [Runtime.step, Option.ite_none_right_eq_some, Option.map_eq_some_iff] at hs
        obtain ⟨-, m', -, rfl⟩ := hs
        exact hx
    | call v op =>
        simp only [Runtime.step, Option.ite_none_right_eq_some, Option.some.injEq] at hs
        obtain ⟨-, rfl⟩ := hs
        exact hx
    | next v =>
        obtain rfl : t = v := hne
        obtain ⟨ph, rest, htodo, hph, hclone⟩ : ∃ ph rest, s.todo t = ph :: rest ∧
            ph ≠ .deregister ∧ ∀ c, ph ≠ .clone c := by
          cases h with
          | committing ph hph h =>
              refine ⟨_, _, h, ?_, fun c => ?_⟩ <;> rcases hph with rfl | ⟨ks, rfl⟩ <;> simp
          | publishing h | waiting _ h | storing _ _ h | beginning _ _ _ h | closing _ _ h =>
              exact ⟨_, _, h, by simp, by simp⟩
          | returned _ _ h => simp [Runtime.step, Runtime.next, h] at hs
        rcases next_turns hs htodo with hturn | ⟨c, hc, -⟩
        · rw [hturn.exited, if_neg hph, hx]
        · exact absurd hc (hclone c)
  · rw [(hst.aside hs).exited t ht hne, hx]

end Joining

/-- What a run from the start preserves. -/
structure Sound (s : Runtime) : Prop where
  staged : Staged False s
  known : Known s
  mapped : s.mem.Mapped
  mail : ∀ u, u ∉ s.threads → s.mem.signals u = []

theorem Sound.boot (position : ℕ) : Sound (boot position) where
  staged := boot_staged False position
  known u hu := by simp [Runtime.boot] at hu
  mapped _ _ _ := rfl
  mail _ _ := rfl

theorem Sound.step (h : Sound s) (hs : s.step isHeap e = some s') : Sound s' where
  staged := h.staged.step (fun hf => hf.elim) hs
  known := (h.staged.aside hs).known h.known
  mapped := by
    rcases h.staged.action hs with hmem | ⟨a, ha⟩
    · rw [hmem]
      exact h.mapped
    · exact Mem.step_mapped h.mapped ha.step
  mail u hu := by
    have hu : u ∉ s.threads := fun hm => hu ((h.staged.aside hs).threads u hm)
    rcases h.staged.action hs with hmem | ⟨a, ha⟩
    · rw [hmem, h.mail u hu]
    · refine List.eq_nil_iff_forall_not_mem.mpr fun q hq => ?_
      rcases Mem.signals_step ha.step hq with hq | ⟨-, ho⟩
      · simp [h.mail u hu] at hq
      · exact hu (h.staged.alive u (h.staged.partitioned.owned q u ho).1)

theorem Sound.run {position : ℕ} {es : List Event}
    (h : Transition.Run (Runtime.step isHeap) (fun _ _ => True) (Runtime.boot position) es s) :
    Sound s :=
  h.invariant (fun _ _ _ hi _ hs => hi.step hs) (.boot position)

/-- The joiner between its call and its return. -/
structure Awaits (s : Runtime) (t child : Tid) (dest : Dest) : Prop where
  sound : Sound s
  mem : t ∈ s.threads
  live : s.exited t = false
  joining : Joining s t child dest

theorem Awaits.step (h : Awaits s t child dest) (hg : Delivers t dest s e)
    (hwithin : (∀ a, e ≠ .user t a) ∧ ∀ op, e ≠ .call t op) (hs : s.step isHeap e = some s') :
    Awaits s' t child dest where
  sound := h.sound.step hs
  mem := (h.sound.staged.aside hs).threads t h.mem
  live := h.joining.exited h.sound.staged h.mem h.live hs
  joining := h.joining.step h.sound.staged h.sound.known h.sound.mail h.mem h.live hg hwithin
    hs

theorem Awaits.run {es : List Event} {s₁ : Runtime} (h₁ : Awaits s₁ t child dest)
    (h : Transition.Run (Runtime.step isHeap) (Delivers t dest) s₁ es s)
    (hwithin : ∀ e ∈ es, (∀ a, e ≠ .user t a) ∧ ∀ op, e ≠ .call t op) : Awaits s t child dest := by
  induction h with
  | nil => exact h₁
  | snoc _ hg hs ih =>
      refine (ih fun e he => hwithin e (List.mem_append_left _ he)).step hg ?_ hs
      exact hwithin _ (List.mem_append_right _ (List.mem_singleton_self _))

/-- Thread 2 exits with a result while threads 1 and 3 live on. -/
def exiting (r : Word) : List Event :=
  .call 2 (.exit r) :: List.replicate 6 (.next 2)

end Runtime

end Dthreads.Memory
