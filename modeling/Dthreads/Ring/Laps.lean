import Mathlib

/-! # Laps

A token goes round in a fixed order. A member takes part in the laps up to its budget, and leaves in
the last one of them. -/

namespace Dthreads.Ring

variable {ι : Type*} {order : List ι} {budget : ι → ℕ} {j : ℕ}

/-! ## The laps -/

/-- Who takes part in lap `j`, in order. -/
def lap (order : List ι) (budget : ι → ℕ) (j : ℕ) : List ι := order.filter fun i => j ≤ budget i

/-- Who has the token in the laps before lap `j`. -/
def laps (order : List ι) (budget : ι → ℕ) (j : ℕ) : List ι :=
  (List.range j).flatMap (lap order budget)

/-- Who has the token until everyone has left. -/
def allLaps (order : List ι) (budget : ι → ℕ) : List ι :=
  laps order budget ((order.map budget).sum + 1)

theorem lap_zero : lap order budget 0 = order := by
  simp [lap]

/-- Who has left a lap is in no later one. -/
theorem lap_succ : lap order budget (j + 1) =
    (lap order budget j).filter fun i => j + 1 ≤ budget i := by
  rw [lap, lap, List.filter_filter]
  refine List.filter_congr fun i _ => ?_
  rw [← Bool.decide_and]
  exact decide_eq_decide.mpr ⟨fun h => ⟨h, by omega⟩, fun h => h.1⟩

theorem laps_succ : laps order budget (j + 1) = laps order budget j ++ lap order budget j := by
  simp [laps, List.range_succ]

/-- Once a lap is empty the later ones are. -/
theorem laps_add (h : lap order budget j = []) (k : ℕ) :
    laps order budget (j + k) = laps order budget j ∧ lap order budget (j + k) = [] := by
  induction k with
  | zero => exact ⟨rfl, h⟩
  | succ k ih =>
      refine ⟨?_, ?_⟩
      · rw [← Nat.add_assoc, laps_succ, ih.1, ih.2, List.append_nil]
      · rw [← Nat.add_assoc, lap_succ, ih.2, List.filter_nil]

theorem lap_bound : lap order budget ((order.map budget).sum + 1) = [] := by
  rw [lap, List.filter_eq_nil_iff]
  intro i hi
  have hle : budget i ≤ (order.map budget).sum :=
    List.le_sum_of_mem (List.mem_map_of_mem hi)
  simp only [decide_eq_true_eq, not_le]
  omega

/-- The laps that are over by an empty lap are all of them. -/
theorem laps_final (h : lap order budget j = []) : laps order budget j = allLaps order budget := by
  rcases Nat.le_total j ((order.map budget).sum + 1) with hj | hj
  · obtain ⟨k, hk⟩ := Nat.exists_eq_add_of_le hj
    rw [allLaps, hk, (laps_add h k).1]
  · obtain ⟨k, rfl⟩ := Nat.exists_eq_add_of_le hj
    exact (laps_add lap_bound k).1

theorem laps_initial (j : ℕ) : laps order budget j <+: allLaps order budget := by
  rcases Nat.le_total j ((order.map budget).sum + 1) with hj | hj
  · obtain ⟨k, hk⟩ := Nat.exists_eq_add_of_le hj
    rw [allLaps, hk]
    clear hk hj
    induction k with
    | zero => exact List.prefix_rfl
    | succ k ih =>
        rw [← Nat.add_assoc, laps_succ]
        exact ih.trans (List.prefix_append ..)
  · obtain ⟨k, rfl⟩ := Nat.exists_eq_add_of_le hj
    rw [(laps_add lap_bound k).1]
    exact List.prefix_rfl

/-! ## A moment of a lap -/

/-- In lap `turn` the members `seen` have had the token, and the members `rest` have not. -/
structure Moment (order : List ι) (budget : ι → ℕ) where
  turn : ℕ
  seen : List ι
  rest : List ι
  split : lap order budget turn = seen ++ rest
  normal : rest = [] → lap order budget (turn + 1) = []

namespace Moment

/-- Everyone who is left, from the token on. -/
def members (p : Moment order budget) : List ι :=
  p.rest ++ p.seen.filter fun i => p.turn + 1 ≤ budget i

/-- Who has had the token. -/
def output (p : Moment order budget) : List ι := laps order budget p.turn ++ p.seen

/-- Nobody has had the token. -/
def start (order : List ι) (budget : ι → ℕ) : Moment order budget where
  turn := 0
  seen := []
  rest := order
  split := lap_zero
  normal h := by rw [h]; rfl

theorem members_start : (start order budget).members = order := List.append_nil order

theorem output_start : (start order budget).output = [] := rfl

variable (p : Moment order budget) {h : ι} {X : List ι}

theorem members_eq_nil_of_rest (hr : p.rest = []) : p.members = [] := by
  have hn := p.normal hr
  rw [lap_succ, p.split, hr, List.append_nil] at hn
  rw [members, hr, hn, List.append_nil]

/-- The head of the members is next. -/
theorem rest_eq_cons (hm : p.members = h :: X) : ∃ t, p.rest = h :: t ∧
    X = t ++ p.seen.filter fun i => p.turn + 1 ≤ budget i := by
  cases hr : p.rest with
  | nil =>
      rw [p.members_eq_nil_of_rest hr] at hm
      cases hm
  | cons h' t =>
      rw [members, hr, List.cons_append, List.cons.injEq] at hm
      exact ⟨t, by rw [hm.1], hm.2.symm⟩

/-- Who has had the token, and who has it, begin the whole sequence. -/
theorem output_initial (hm : p.members = h :: X) : p.output ++ [h] <+: allLaps order budget := by
  obtain ⟨t, hr, -⟩ := p.rest_eq_cons hm
  refine List.IsPrefix.trans ?_ (laps_initial (p.turn + 1))
  rw [laps_succ, p.split, hr, output]
  exact ⟨t, by simp⟩

/-- When nobody is left the sequence is complete. -/
theorem output_final (hm : p.members = []) : p.output = allLaps order budget := by
  have hr : p.rest = [] := (List.append_eq_nil_iff.mp hm).1
  rw [← laps_final (p.normal hr), laps_succ, p.split, hr, List.append_nil, output]

theorem members_nodup (hn : order.Nodup) : p.members.Nodup := by
  have hs : (p.seen ++ p.rest).Nodup := p.split ▸ hn.filter _
  have hs' := (List.Perm.nodup_iff List.perm_append_comm).mp hs
  exact hs'.sublist (List.Sublist.append_left List.filter_sublist _)

theorem mem_order {i : ι} (hi : i ∈ p.members) : i ∈ order := by
  have hs : i ∈ p.seen ++ p.rest := by
    rcases List.mem_append.mp hi with hi | hi
    · exact List.mem_append_right _ hi
    · exact List.mem_append_left _ (List.mem_of_mem_filter hi)
  rw [← p.split] at hs
  exact List.mem_of_mem_filter hs

variable [DecidableEq ι]

/-- The number of laps in which a member has had the token. -/
def done (i : ι) : ℕ := if i ∈ p.rest then p.turn else p.turn + 1

theorem done_start {i : ι} (hi : i ∈ order) : (start order budget).done i = 0 := if_pos hi

theorem done_head (hm : p.members = h :: X) : p.done h = p.turn := by
  obtain ⟨t, hr, -⟩ := p.rest_eq_cons hm
  exact if_pos (hr ▸ List.mem_cons_self)

theorem turn_le_done (i : ι) : p.turn ≤ p.done i := by
  unfold done
  split <;> omega

theorem done_le_budget {i : ι} (hi : i ∈ p.members) : p.done i ≤ budget i := by
  unfold done
  split
  · rename_i hr
    have hl : i ∈ lap order budget p.turn := p.split ▸ List.mem_append_right _ hr
    exact of_decide_eq_true (List.mem_filter.mp hl).2
  · rename_i hr
    have hf := (List.mem_append.mp hi).resolve_left hr
    exact of_decide_eq_true (List.mem_filter.mp hf).2

/-- The token goes on, and its holder leaves if its budget is spent. -/
theorem pass (hn : order.Nodup) (hm : p.members = h :: X) :
    ∃ p' : Moment order budget, p'.output = p.output ++ [h] ∧
      p'.members = X ++ (if p.done h < budget h then [h] else []) ∧
      ∀ i ∈ p'.members, p'.done i = if i = h then p.done h + 1 else p.done i := by
  obtain ⟨t, hr, rfl⟩ := p.rest_eq_cons hm
  have hnd := p.members_nodup hn
  rw [hm] at hnd
  have hdone := p.done_head hm
  have hfilter : (if p.done h < budget h then [h] else []) =
      [h].filter fun i => p.turn + 1 ≤ budget i := by
    rw [hdone]
    by_cases hb : p.turn < budget h
    · simp [hb, Nat.succ_le_of_lt hb]
    · simp [hb, Nat.lt_succ_of_le (Nat.le_of_not_lt hb)]
  have hsplit : lap order budget p.turn = (p.seen ++ [h]) ++ t := by
    rw [p.split, hr]
    simp
  rw [hfilter]
  cases t with
  | nil =>
      have hlap : lap order budget (p.turn + 1) =
          (p.seen ++ [h]).filter fun i => p.turn + 1 ≤ budget i := by
        rw [lap_succ, hsplit, List.append_nil]
      refine ⟨⟨p.turn + 1, [], lap order budget (p.turn + 1), rfl, fun hl => ?_⟩, ?_, ?_, ?_⟩
      · rw [lap_succ, hl, List.filter_nil]
      · simp [output, laps_succ, hsplit]
      · simp [members, hlap]
      · intro i hi
        have hi : i ∈ lap order budget (p.turn + 1) := by simpa [members] using hi
        have hd : (if i ∈ lap order budget (p.turn + 1) then p.turn + 1 else p.turn + 1 + 1) =
          p.turn + 1 := if_pos hi
        refine hd.trans ?_
        split
        · rw [hdone]
        · rename_i hne
          rw [done, hr, if_neg (fun hm => hne (List.mem_singleton.mp hm))]
  | cons x t =>
      refine ⟨⟨p.turn, p.seen ++ [h], x :: t, hsplit, nofun⟩, ?_, ?_, ?_⟩
      · simp [output]
      · simp [members, List.filter_append]
      · intro i hi
        have hd : (if i ∈ x :: t then p.turn else p.turn + 1) = _ := rfl
        refine hd.trans ?_
        by_cases hih : i = h
        · subst hih
          rw [if_pos rfl, hdone, if_neg]
          exact fun hm => (List.nodup_cons.mp hnd).1 (List.mem_append_left _ hm)
        · rw [if_neg hih, done, hr]
          simp [List.mem_cons, hih]

end Moment

end Dthreads.Ring
