import Dthreads.Scheduler.Crossing
import Dthreads.Scheduler.Joiners

/-! # The token queue, from the token on

The active list begins anywhere; for the order of the turns it is read from the token. -/

namespace Dthreads.Scheduler

open Ring

namespace Determ

/-- `R` is the token queue from the token on. The active list begins somewhere in it. -/
structure Table (d : Determ) (R : List ℕ) : Prop where
  chain : (R : Cycle ℕ).Chain (Links d.entries.nexts d.entries.prevs)
  nodup : R.Nodup
  token : ∀ x X, R = x :: X → d.tokenpos = x
  active : ∃ A B, R = A ++ B ∧ d.activelist = (B ++ A).head?

/-- The exit of a thread that its parent does not join. -/
theorem deregisterThread_alone (d : Determ) (x : ℕ)
    (hj : ¬((d.entries (d.entries x).tidParent).status = .joining ∧
      (d.entries (d.entries x).tidParent).joineeThreadIndex = x)) :
    (d.deregisterThread x).entries = (d.entries.removeEntry x d.activelist).1.setStatus x .exit ∧
      (d.deregisterThread x).activelist = (d.entries.removeEntry x d.activelist).2 ∧
      (d.deregisterThread x).tokenpos = (d.entries x).next := by
  unfold deregisterThread
  dsimp only
  rw [if_neg hj]
  split
  · rw [decrFence_entries, (Queued.decrFence_lists _).1]
    exact ⟨rfl, rfl, rfl⟩
  · exact ⟨rfl, rfl, rfl⟩

theorem deregisterThread_conds (d : Determ) (x : ℕ) : (d.deregisterThread x).conds = d.conds := by
  unfold deregisterThread
  dsimp only
  split <;> split <;> simp [Queued.decrFence_lists]

theorem deregisterThread_barriers (d : Determ) (x : ℕ) :
    (d.deregisterThread x).barriers = d.barriers := by
  unfold deregisterThread
  dsimp only
  split <;> split <;> simp [Queued.decrFence_lists]

/-- The exit of a counted thread at the fence. -/
theorem deregisterThread_fence (d : Determ) (x : ℕ) (ha : 0 < d.alivethreads)
    (hm : 0 < d.maxthreads) : (d.deregisterThread x).fence = d.fence.drop ∧
      (d.deregisterThread x).alivethreads = d.alivethreads - 1 := by
  have hdrop : ∀ d' : Determ, d'.fence = d.fence → d'.alivethreads = d.alivethreads →
      ({ d' with alivethreads := d'.alivethreads - 1 }).decrFence.fence = d.fence.drop ∧
      ({ d' with alivethreads := d'.alivethreads - 1 }).decrFence.alivethreads = d.alivethreads - 1 := by
    intro d' hf hd
    constructor
    · rw [← hf]
      exact fence_drop _ (lt_of_lt_of_eq hm (congrArg Fence.Counters.members hf).symm)
    · unfold decrFence
      dsimp only
      split <;> exact congrArg (· - 1) hd
  unfold deregisterThread
  dsimp only
  split
  · exact hdrop { d with entries := _ } rfl rfl
  · exact hdrop d rfl rfl

namespace Table

variable {d d' : Determ} {R X : List ℕ} {x : ℕ}

/-- The active list has the same members. -/
theorem lists (h : d.Table R) : ∃ L, d.Lists .active L ∧ L.length = R.length ∧ L.Perm R := by
  obtain ⟨A, B, rfl, ha⟩ := h.active
  refine ⟨B ++ A, ⟨?_, ?_, ha⟩, ?_, List.perm_append_comm⟩
  · rw [Cycle.coe_eq_coe.mpr List.isRotated_append]
    exact h.chain
  · exact (List.Perm.nodup_iff List.perm_append_comm).mp h.nodup
  · rw [List.length_append, List.length_append, Nat.add_comm]

/-- A step that leaves the queues alone. -/
theorem same (h : d.Table R) (hs : SameQueues d d') : d'.Table R where
  chain := by
    rw [hs.nexts, hs.prevs]
    exact h.chain
  nodup := h.nodup
  token x X hR := hs.tokenpos.trans (h.token x X hR)
  active := by
    obtain ⟨A, B, hR, ha⟩ := h.active
    exact ⟨A, B, hR, (hs.head .active).trans ha⟩

/-- The token goes to the next thread. -/
theorem putToken (h : d.Table (x :: X)) : d.putToken.Table (X ++ [x]) where
  chain := by
    rw [coe_append_cons X [] x]
    exact h.chain
  nodup := (List.Perm.nodup_iff List.perm_append_comm).mp h.nodup
  token y Y hR := by
    have hnext := (head?_of_chain h.chain).1
    rw [hR, List.head?_cons, Option.some.injEq] at hnext
    change (d.entries d.tokenpos).next = y
    rw [h.token x X rfl]
    exact hnext.symm
  active := by
    obtain ⟨A, B, hR, ha⟩ := h.active
    cases A with
    | nil =>
        rw [List.nil_append] at hR
        exact ⟨X, [x], rfl, by rw [← hR] at ha; simpa [Determ.putToken] using ha⟩
    | cons a A =>
        rw [List.cons_append, List.cons.injEq] at hR
        obtain ⟨rfl, rfl⟩ := hR
        exact ⟨A, B ++ [x], by simp, by simpa [Determ.putToken] using ha⟩

/-- The holder of the token leaves, and nobody joins it. -/
theorem deregisterThread (h : d.Table (x :: X)) (hj : ∀ i, (d.entries i).status ≠ .joining) :
    (d.deregisterThread x).Table X := by
  obtain ⟨A, B, hR, ha⟩ := h.active
  have hrings : d.entries.Linking fun _ : Unit => B ++ A := by
    refine ⟨fun _ => ?_, fun _ => ?_, fun _ _ => rfl⟩
    · rw [Cycle.coe_eq_coe.mpr List.isRotated_append, ← hR]
      exact h.chain
    · exact (List.Perm.nodup_iff List.perm_append_comm).mp (hR ▸ h.nodup)
  have hx : x ∈ B ++ A := by
    rw [List.mem_append, or_comm, ← List.mem_append, ← hR]
    exact List.mem_cons_self
  have hX : ∃ A' B', X = A' ++ B' ∧ (B ++ A).erase x = B' ++ A' := by
    cases A with
    | nil =>
        rw [List.nil_append] at hR
        exact ⟨[], X, rfl, by rw [← hR]; simp⟩
    | cons a A =>
        rw [List.cons_append, List.cons.injEq] at hR
        obtain ⟨rfl, rfl⟩ := hR
        have hB : x ∉ B := fun hm => (List.nodup_cons.mp h.nodup).1 (List.mem_append_right _ hm)
        exact ⟨A, B, rfl, by rw [List.erase_append_right _ hB, List.erase_cons_head]⟩
  obtain ⟨A', B', rfl, her⟩ := hX
  obtain ⟨hlink, hhead⟩ := hrings.removeEntry (q := ()) d.activelist hx ha
  rw [her] at hlink hhead
  have hstatus : ((d.entries.removeEntry x d.activelist).1.setStatus x .exit).Linking _ :=
    hlink.update rfl rfl
  have hchain := hstatus.chain ()
  rw [Function.update_self, Cycle.coe_eq_coe.mpr List.isRotated_append] at hchain
  obtain ⟨he, hact, htok⟩ := d.deregisterThread_alone x fun hc => hj _ hc.1
  refine ⟨?_, (List.nodup_cons.mp h.nodup).2, fun y Y hR' => ?_, A', B', rfl, hact.trans hhead⟩
  · rw [he]
    exact hchain
  · have hnext := (head?_of_chain h.chain).1
    rw [hR', List.cons_append, List.head?_cons, Option.some.injEq] at hnext
    exact htok.trans hnext.symm

end Table

end Determ

end Dthreads.Scheduler
