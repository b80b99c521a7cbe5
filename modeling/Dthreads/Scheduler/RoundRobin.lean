import Mathlib
import Dthreads.Scheduler.Rounds

/-! # The round-robin order

The threads of a ring that run rounds do not block each other, and the token visits them in the order
of the ring. -/

namespace Dthreads.Scheduler

open Fence Ring Transition

namespace Turns

variable {order : List Tid} {rounds : Tid → ℕ} {j : Turns} {idx : Tid → ℕ}
  {p : Moment order rounds} {x : Tid → Spot} {t u : Tid} {rest : List Instr} {i : Instr} {d : Determ}
  {l : Local}

namespace InLap

/-! ## Progress -/

/-- The next instruction of `t` does not wait. -/
theorem enabled (hl : (j.state.locals t).live = true) (hp : (j.state.locals t).pending = i :: rest)
    (ho : (j.state.own t rest i).isSome = true) : ∃ j', j.step (.run t) = some j' := by
  obtain ⟨⟨d, l⟩, ho⟩ := Option.isSome_iff_exists.mp ho
  have hs : j.state.step (.run t) = j.state.exec t i rest := by
    simp only [State.step, hl, hp]
  exact ⟨_, by rw [Turns.step, hs, State.exec, ho]; rfl⟩

theorem arrives_enabled {s : State} (hi : i.arrives = true) (ha : s.determ.isArrivalPhase = true) :
    (s.own t rest i).isSome = true := by
  cases i with
  | fenceEnter k => simp [State.own, ha]
  | spinArrival k => simp [State.own, ha]
  | fenceArrive k => rfl
  | condArrival k => simp [State.own, ha]
  | _ => cases hi

theorem leaves_enabled {s : State} (hi : i.leaves = true) (ha : s.determ.isArrivalPhase = false) :
    (s.own t rest i).isSome = true := by
  cases i with
  | spinRelease k => simp [State.own, ha]
  | fenceLeave k => rfl
  | condRelease k => simp [State.own, ha]
  | _ => cases hi

theorem serial_enabled {s : State} (hi : i.serial = true) : (s.own t rest i).isSome = true := by
  cases i <;> first | rfl | cases hi

/-- Who has the token can go on. -/
theorem busy_enabled (h : InLap j idx p x) (hm : t ∈ p.members) (hb : (x t).busy = true) :
    ∃ j', j.step (.run t) = some j' := by
  have hcode := h.code t hm
  have hok := h.ok t hm
  cases hx : x t with
  | serial is k rs =>
      rw [hx] at hcode hok
      cases is with
      | nil => exact enabled (h.live t hm) hcode rfl
      | cons i is => exact enabled (h.live t hm) hcode (serial_enabled (hok i List.mem_cons_self))
  | exiting is =>
      rw [hx] at hcode hok
      cases is with
      | nil => exact enabled (h.live t hm) hcode rfl
      | cons i is => exact enabled (h.live t hm) hcode (serial_enabled (hok i List.mem_cons_self))
  | _ =>
      rw [hx] at hb
      cases hb

/-- Who is next and waits for the token gets it. -/
theorem wait_enabled (h : InLap j idx p x) {X : List Tid} (hp : p.members = t :: X) {rs : List Round}
    (hx : x t = .wait rs) : ∃ j', j.step (.run t) = some j' := by
  have hm : t ∈ p.members := hp ▸ List.mem_cons_self
  have hcode := h.code t hm
  rw [hx] at hcode
  refine enabled (h.live t hm) hcode ?_
  have htok := h.table.token (idx t) (X.map idx) (by rw [hp]; rfl)
  have hholder : j.state.determ.holder = t := by
    rw [Determ.holder, htok]
    exact h.tid t hm
  simp [State.own, hholder]

/-- The threads do not block each other. -/
theorem progress (h : InLap j idx p x) (hne : p.members ≠ []) :
    ∃ t j', j.step (.run t) = some j' := by
  cases ha : j.state.determ.isArrivalPhase with
  | false =>
      obtain ⟨t, ht⟩ := h.fence.meets.opened ha
      obtain ⟨hm, hw⟩ := State.mem_crew.mp ht
      have hm' : t ∈ p.members := List.mem_toFinset.mp hm
      have hl := h.live t hm'
      cases hp : (j.state.locals t).pending with
      | nil => exact absurd hp (h.pending_ne_nil hl)
      | cons i rest =>
          rw [Local.waits_cons hp] at hw
          exact ⟨t, enabled hl hp (leaves_enabled hw ha)⟩
  | true =>
      have hM : p.members.toFinset.Nonempty := by
        rw [Finset.nonempty_iff_ne_empty, ne_eq, List.toFinset_eq_empty_iff]
        exact hne
      obtain ⟨t, hm, hc⟩ := h.fence.meets.missing ha hM
      have hm' : t ∈ p.members := List.mem_toFinset.mp hm
      have hl := h.live t hm'
      have hcode := h.code t hm'
      have hin : ∀ i rest, (i.arrives = true ∨ i.leaves = true) →
          (j.state.locals t).pending = i :: rest → ∃ t j', j.step (.run t) = some j' := by
        intro i rest hi hp
        refine ⟨t, enabled hl hp (arrives_enabled (hi.resolve_right fun hi => hc ?_) ha)⟩
        exact State.mem_crew.mpr ⟨hm, (Local.waits_cons hp).trans hi⟩
      have hok := h.ok t hm'
      cases hx : x t with
      | entry i rs =>
          rw [hx] at hcode hok
          exact hin i _ hok hcode
      | depart i rs =>
          rw [hx] at hcode hok
          exact hin i _ hok hcode
      | serial is k rs => exact ⟨t, h.busy_enabled hm' (by rw [hx]; rfl)⟩
      | exiting is => exact ⟨t, h.busy_enabled hm' (by rw [hx]; rfl)⟩
      | wait rs =>
          obtain ⟨u, X, hX⟩ := List.exists_cons_of_ne_nil hne
          have hu : u ∈ p.members := hX ▸ List.mem_cons_self
          have hside := h.fence.meets.same ha u (List.mem_toFinset.mpr hu) t hm
          have htc := h.count t hm'
          have huc := h.count u hu
          have hturn := p.done_head hX
          have hle := p.turn_le_done t
          rw [hx] at hside htc
          cases hxu : x u with
          | entry i rs' =>
              rw [hxu] at hside
              simp only [Spot.passed, Spot.left] at hside
              omega
          | depart i rs' =>
              rw [hxu] at hside huc
              simp only [Spot.passed, Spot.left] at hside huc htc
              omega
          | wait rs' => exact ⟨u, h.wait_enabled hX hxu⟩
          | serial is k rs' => exact ⟨u, h.busy_enabled hu (by rw [hxu]; rfl)⟩
          | exiting is => exact ⟨u, h.busy_enabled hu (by rw [hxu]; rfl)⟩

/-- When no thread can go on, all of them have exited. -/
theorem final (h : InLap j idx p x) (hstuck : ∀ a, j.step a = none) :
    j.grants = allLaps order rounds := by
  have hnil : p.members = [] := by
    by_contra hne
    obtain ⟨t, j', hs⟩ := h.progress hne
    exact absurd ((hstuck (.run t)).symm.trans hs) nofun
  rw [h.grants, p.output_final hnil, holding, hnil]
  exact List.append_nil _

/-- What has been granted begins the sequence of the laps. -/
theorem grants_initial (h : InLap j idx p x) : j.grants <+: allLaps order rounds := by
  rw [h.grants, holding]
  cases hp : p.members with
  | nil =>
      rw [p.output_final hp]
      exact (List.append_nil _).symm ▸ List.prefix_rfl
  | cons t X =>
      refine List.IsPrefix.trans ?_ (p.output_initial hp)
      refine (List.prefix_append_right_inj _).mpr ?_
      cases hb : (x t).busy <;> simp [Option.filter, hb]

/-- The fence counts the threads of the queue. -/
theorem maxthreads_eq (h : InLap j idx p x) (hn : order.Nodup) :
    ∃ L, j.state.determ.Lists .active L ∧ j.state.determ.maxthreads = L.length := by
  obtain ⟨L, hL, hlen, -⟩ := h.table.lists
  have hm : j.state.determ.maxthreads = p.members.toFinset.card := h.fence.meets.members
  rw [List.length_map] at hlen
  exact ⟨L, hL, by rw [hm, List.toFinset_card_of_nodup (p.members_nodup hn), hlen]⟩

/-! ## Every run ends -/

/-- The instructions of a thread in its rounds. -/
def inRounds (i : Instr) : Bool :=
  i.arrives || i.leaves || i.serial || (i matches .getToken | .putToken | .deregister | .procExit)

theorem inRounds_head (h : InLap j idx p x) (hl : (j.state.locals t).live = true)
    (hp : (j.state.locals t).pending = i :: rest) : inRounds i = true := by
  have hfence : i.arrives = true ∨ i.leaves = true → inRounds i = true := by
    rintro (hi | hi) <;> simp [inRounds, hi]
  have hserial : i.serial = true → inRounds i = true := fun hi => by simp [inRounds, hi]
  by_cases hm : t ∈ p.members
  · have hcode := h.code t hm
    have hok := h.ok t hm
    rw [hp] at hcode
    cases hx : x t with
    | entry k rs =>
        rw [hx] at hcode hok
        obtain ⟨rfl, -⟩ := List.cons.inj hcode
        exact hfence hok
    | depart k rs =>
        rw [hx] at hcode hok
        obtain ⟨rfl, -⟩ := List.cons.inj hcode
        exact hfence hok
    | wait rs =>
        rw [hx] at hcode
        obtain ⟨rfl, -⟩ := List.cons.inj hcode
        rfl
    | serial is k rs =>
        rw [hx] at hcode hok
        cases is with
        | nil =>
            obtain ⟨rfl, -⟩ := List.cons.inj hcode
            rfl
        | cons k is =>
            obtain ⟨rfl, -⟩ := List.cons.inj hcode
            exact hserial (hok i List.mem_cons_self)
    | exiting is =>
        rw [hx] at hcode hok
        cases is with
        | nil =>
            obtain ⟨rfl, -⟩ := List.cons.inj hcode
            rfl
        | cons k is =>
            obtain ⟨rfl, -⟩ := List.cons.inj hcode
            exact hserial (hok i List.mem_cons_self)
  · have hg := h.gone t hm hl
    rw [hp] at hg
    obtain ⟨rfl, -⟩ := List.cons.inj hg
    rfl

/-- The steps that an instruction may still take, itself and what it turns into. -/
def price : Instr → ℕ
  | .fenceEnter _ => 5
  | .spinArrival _ => 4
  | .fenceArrive _ | .condArrival _ => 3
  | .spinRelease _ => 2
  | _ => 1

def cost (is : List Instr) : ℕ := (is.map price).sum

theorem cost_cons (is : List Instr) : cost (i :: is) = price i + cost is := by
  simp [cost]

theorem price_pos (i : Instr) : 0 < price i := by
  cases i <;> exact Nat.succ_pos _

theorem arrive_cost {s : State} {k : Bool} (hi : 3 ≤ price i)
    (h : some (s.determ.arrive (s.locals t) k rest) = some (d, l)) :
    cost l.pending < cost (i :: rest) := by
  unfold Determ.arrive at h
  rw [cost_cons]
  split at h <;> cases h
  · exact Nat.lt_add_of_pos_left (price_pos i)
  · rw [Local.goto_pending, cost_cons]
    split <;> exact Nat.add_lt_add_right (lt_of_lt_of_le (by simp [price]) hi) _

/-- A step shortens what is left of its thread, and of no other one. -/
theorem own_cost {s : State} (hi : inRounds i = true) (h : s.own t rest i = some (d, l)) :
    cost l.pending < cost (i :: rest) ∧ s.others t i = s.locals := by
  have hrest : ∀ is, l.pending = is → cost is < cost (i :: rest) →
      cost l.pending < cost (i :: rest) := fun is hl hlt => hl ▸ hlt
  have hdone : cost rest < cost (i :: rest) := by
    rw [cost_cons]
    exact Nat.lt_add_of_pos_left (price_pos i)
  cases i with
  | fenceEnter k =>
      simp only [State.own] at h
      split at h
      · exact ⟨arrive_cost (by simp [price]) h, rfl⟩
      · split at h <;> cases h <;>
          exact ⟨by rw [Local.goto_pending, cost_cons, cost_cons]; exact Nat.add_lt_add_right (by simp [price]) _,
            rfl⟩
  | spinArrival k =>
      simp only [State.own] at h
      split at h <;> cases h
      exact ⟨by rw [Local.goto_pending, cost_cons, cost_cons]; exact Nat.add_lt_add_right (by simp [price]) _,
        rfl⟩
  | fenceArrive k => exact ⟨arrive_cost (by simp [price]) h, rfl⟩
  | condArrival k =>
      simp only [State.own] at h
      split at h
      · exact ⟨arrive_cost (by simp [price]) h, rfl⟩
      · cases h
  | spinRelease k =>
      simp only [State.own] at h
      split at h <;> cases h
      exact ⟨by rw [Local.goto_pending, cost_cons, cost_cons]; exact Nat.add_lt_add_right (by simp [price]) _,
        rfl⟩
  | condRelease k =>
      simp only [State.own] at h
      split at h <;> cases h
      exact ⟨hdone, rfl⟩
  | getToken =>
      simp only [State.own] at h
      split at h <;> cases h
      exact ⟨hdone, rfl⟩
  | procExit =>
      cases h
      exact ⟨by rw [cost_cons]; exact Nat.lt_of_lt_of_le (price_pos _) (Nat.le_add_right _ _), rfl⟩
  | condLookup | condSignal | condBroadcast | lockRelease | openMemoryProtection | atomicBegin
  | atomicEnd | finalcommit | disableFence | countChild | countLock | discountLock | setTokenHolding
  | mutexInit | storeResult | fenceLeave | putToken | deregister =>
      cases h
      exact ⟨hdone, rfl⟩
  | _ => cases hi

end InLap

/-- The steps that the threads of `order` may still take. -/
def total (order : List Tid) (s : State) : ℕ :=
  (order.map fun t => InLap.cost (s.locals t).pending).sum

/-- A step of the threads of `order` takes one of these steps. -/
theorem total_lt {j' : Turns} {a : Label} (h : InLap j idx p x)
    (hin : ∀ t, (j.state.locals t).live = true → t ∈ order) (hs : j.step a = some j') :
    total order j'.state < total order j.state ∧
      ∀ t, (j'.state.locals t).live = true → t ∈ order := by
  rw [Turns.step, Option.map_eq_some_iff] at hs
  obtain ⟨s, hs, rfl⟩ := hs
  cases a with
  | call t op =>
      obtain ⟨hl, hnil, -⟩ := State.step_call hs
      exact absurd hnil (h.pending_ne_nil hl)
  | run t =>
      obtain ⟨i, rest, d, l, hl, hp, ho, rfl⟩ := State.step_run hs
      obtain ⟨hcost, hothers⟩ := InLap.own_cost (h.inRounds_head hl hp) ho
      rw [hothers]
      refine ⟨List.sum_lt_sum _ _ (fun u _ => ?_) ⟨t, hin t hl, ?_⟩, fun u hu => ?_⟩
      · by_cases hut : u = t
        · subst hut
          dsimp only
          rw [Function.update_self, hp]
          exact hcost.le
        · dsimp only
          rw [Function.update_of_ne hut]
      · dsimp only
        rw [Function.update_self, hp]
        exact hcost
      · by_cases hut : u = t
        · exact hut ▸ hin t hl
        · dsimp only at hu
          rw [Function.update_of_ne hut] at hu
          exact hin u hu

/-! ## The start -/

/-- The threads `order` are in the ring, in this order from the token on, and about to run their
rounds; nobody has arrived at the fence. -/
structure Seated (s : State) (order : List Tid) (rs : Tid → List Round) : Prop where
  table : s.determ.Table (order.map fun t => (s.locals t).threadIndex)
  tid : ∀ t ∈ order, (s.determ.entries (s.locals t).threadIndex).tid = t
  live : ∀ t, (s.locals t).live = true ↔ t ∈ order
  program : ∀ t ∈ order, (s.locals t).pending = Round.script (rs t)
  maxthreads : s.determ.maxthreads = order.length
  currthreads : s.determ.currthreads = 0
  arrival : s.determ.isArrivalPhase = true
  alivethreads : order.length ≤ s.determ.alivethreads
  joining : ∀ i, (s.determ.entries i).status ≠ .joining
  conds : ∀ c, s.determ.head (.cond c) = none

variable {s : State} {rs : Tid → List Round}

theorem Seated.nodup (h : Seated s order rs) : order.Nodup := List.Nodup.of_map _ h.table.nodup

theorem Seated.inLap (h : Seated s order rs) :
    InLap ⟨s, []⟩ (fun t => (s.locals t).threadIndex)
      (Moment.start order fun t => (rs t).length) fun t => .entry (.fenceEnter true) (rs t) := by
  have hm : (Moment.start order fun t => (rs t).length).members = order := Moment.members_start
  have hpend : ∀ t ∈ order, (s.locals t).pending = .fenceEnter true :: .getToken :: Round.turn (rs t) :=
    fun t ht => (h.program t ht).trans (Round.script_eq _)
  have hcrew : s.crew order.toFinset = ∅ := by
    rw [State.crew, Finset.filter_eq_empty_iff]
    intro t ht
    rw [Local.waits_cons (hpend t (List.mem_toFinset.mp ht))]
    rintro ⟨⟩
  constructor <;> first | rw [hm] | skip
  · exact h.table
  · exact fun t => rfl
  · exact h.tid
  · exact fun t ht => (h.live t).mpr ht
  · exact hpend
  · exact fun _ _ => .inl rfl
  · exact fun t ht hl => absurd ((h.live t).mp hl) ht
  · intro t ht
    rw [Moment.done_start ht]
    exact Nat.zero_add _
  · exact fun _ _ hb => by cases hb
  · refine ⟨?_, fun t ht hc => ?_, fun t ht hd => ?_⟩
    · rw [hcrew]
      refine ⟨Finset.empty_subset _, ?_, h.currthreads, fun _ he => he.symm, fun hf => ?_,
        fun _ u _ v _ => ?_, fun hf => ?_⟩
      · exact h.maxthreads.trans (List.toFinset_card_of_nodup h.nodup).symm
      · exact absurd (h.arrival.symm.trans hf) (by rintro ⟨⟩)
      · simp [Spot.passed, Spot.left]
      · exact absurd (h.arrival.symm.trans hf) (by rintro ⟨⟩)
    · rw [Local.arriving_cons (hpend t (List.mem_toFinset.mp ht))] at hc
      cases hc
    · rw [Local.departs_cons (hpend t (List.mem_toFinset.mp ht))] at hd
      cases hd
  · exact h.alivethreads
  · exact h.joining
  · exact h.conds
  · rw [Moment.output_start, InLap.holding_nil fun _ _ => rfl]
    rfl

/-- The ring of `n` threads with the token at position `k`. -/
def ringAt (n coresNumb k : ℕ) (rs : Tid → List Round) : State where
  determ := { (State.ring n coresNumb).determ with tokenpos := k }
  locals t := ((State.ring n coresNumb).locals t).goto (Round.script (rs t))
  procs := List.range' 1 n

theorem seated_ringAt {n k : ℕ} (coresNumb : ℕ) (rs : Tid → List Round) (hk : k < n) :
    Seated (ringAt n coresNumb k rs) ((List.range' 1 n).rotate k) rs := by
  have hmem : ∀ t, t ∈ (List.range' 1 n).rotate k ↔ 1 ≤ t ∧ t ≤ n := by
    intro t
    rw [List.mem_rotate, List.mem_range'_1]
    omega
  have hidx : ((List.range' 1 n).rotate k).map
      (fun t => ((ringAt n coresNumb k rs).locals t).threadIndex) = (List.range n).rotate k := by
    rw [List.map_rotate, List.range'_eq_map_range, List.map_map]
    congr 1
    conv_rhs => rw [← List.map_id (List.range n)]
    exact List.map_congr_left fun i _ => Nat.add_sub_cancel_left ..
  have hsplit : (List.range n).rotate k = (List.range n).drop k ++ (List.range n).take k :=
    List.rotate_eq_drop_append_take (by rw [List.length_range]; exact hk.le)
  have hhead : ((List.range n).rotate k).head? = some k := by
    rw [hsplit, List.head?_append, List.head?_drop, List.getElem?_range hk]
    rfl
  have hlen : ((List.range' 1 n).rotate k).length = n := by simp
  refine ⟨?_, fun t ht => ?_, fun t => ?_, fun t _ => rfl, hlen.symm, rfl, rfl, hlen.le, fun i hi => ?_,
    fun c => rfl⟩
  · rw [hidx]
    refine ⟨?_, List.nodup_rotate.mpr List.nodup_range, fun y Y hY => ?_, _, _, hsplit, ?_⟩
    · rw [Cycle.coe_eq_coe.mpr (List.IsRotated.symm ⟨k, rfl⟩)]
      exact State.chain_ring (Nat.zero_lt_of_lt hk) coresNumb
    · rw [hY, List.head?_cons, Option.some.injEq] at hhead
      exact hhead.symm
    · rw [List.take_append_drop, List.head?_range, if_neg (Nat.ne_zero_of_lt hk)]
      rfl
  · obtain ⟨h1, h2⟩ := (hmem t).mp ht
    have hlt : t - 1 < n := Nat.sub_one_lt_of_le h1 h2
    exact (if_pos hlt).trans (Nat.sub_add_cancel h1)
  · rw [hmem]
    exact decide_eq_true_iff
  · change (if i < n then Status.ready else .condWaiting) = .joining at hi
    split at hi <;> cases hi

/-! ## The law -/

/-- In every run of rounds the grants of the token begin the sequence that visits in every round the
threads that are left, once each and in the order of the ring; the fence counts the threads of the
active list; and no run goes on for ever or stops before the sequence is complete. -/
theorem round_robin {as : List Label} {w : Turns} (hs : Seated s order rs)
    (hr : Run Turns.step (fun _ _ => True) ⟨s, []⟩ as w) :
    w.grants <+: allLaps order (fun t => (rs t).length) ∧
      (∃ L, w.state.determ.Lists .active L ∧ w.state.determ.maxthreads = L.length) ∧
      ((∀ a, w.step a = none) → w.grants = allLaps order fun t => (rs t).length) ∧
      as.length ≤ total order s := by
  have hn := hs.nodup
  have h : (∃ idx p x, @InLap order (fun t => (rs t).length) w idx p x) ∧
      (∀ t, (w.state.locals t).live = true → t ∈ order) ∧
      as.length + total order w.state ≤ total order s := by
    induction hr with
    | nil =>
        exact ⟨⟨_, _, _, hs.inLap⟩, fun t ht => (hs.live t).mp ht, (Nat.zero_add _).le⟩
    | snoc hr _ hstep ih =>
        obtain ⟨⟨idx, p, x, h⟩, hin, hle⟩ := ih
        obtain ⟨hlt, hin'⟩ := total_lt h hin hstep
        refine ⟨⟨idx, h.step hn hstep⟩, hin', ?_⟩
        rw [List.length_append, List.length_singleton]
        omega
  obtain ⟨⟨idx, p, x, h⟩, -, hle⟩ := h
  exact ⟨h.grants_initial, h.maxthreads_eq hn, h.final, (Nat.le_add_right _ _).trans hle⟩

/-- Threads 1 and 3 run one and two rounds, thread 2 exits at once; the token is at thread 2. -/
def someRounds : Tid → List Round := fun t =>
  List.replicate (if t = 1 then 1 else if t = 3 then 2 else 0) ⟨[.atomicEnd, .atomicBegin], false, by simp [Instr.serial]⟩

theorem round_robin_three : ∃ w, Run Turns.step (fun _ _ => True) ⟨ringAt 3 4 1 someRounds, []⟩
      (Label.runs 1 1 ++ Label.runs 2 1 ++ Label.runs 3 1 ++ Label.runs 1 2 ++ Label.runs 2 7 ++
        Label.runs 3 5 ++ Label.runs 1 6 ++ Label.runs 3 3 ++ Label.runs 1 2 ++ Label.runs 3 7 ++
        Label.runs 1 5 ++ Label.runs 3 8) w ∧ w.grants = [2, 3, 1, 3, 1, 3] := by
  have hrun : (exec Turns.step ⟨ringAt 3 4 1 someRounds, []⟩
      (Label.runs 1 1 ++ Label.runs 2 1 ++ Label.runs 3 1 ++ Label.runs 1 2 ++ Label.runs 2 7 ++
        Label.runs 3 5 ++ Label.runs 1 6 ++ Label.runs 3 3 ++ Label.runs 1 2 ++ Label.runs 3 7 ++
        Label.runs 1 5 ++ Label.runs 3 8)).any (fun w => decide (w.grants.length = 6)) = true := by
    decide +kernel
  obtain ⟨w, he, hlen⟩ := exists_exec_of_any hrun
  have hr := run_of_exec he
  obtain ⟨hinit, -⟩ := round_robin (seated_ringAt 4 someRounds (by decide : 1 < 3)) hr
  have hall : allLaps ((List.range' 1 3).rotate 1) (fun t => (someRounds t).length) =
      [2, 3, 1, 3, 1, 3] := by decide +kernel
  rw [hall] at hinit
  exact ⟨w, hr, hinit.eq_of_length hlen⟩

end Turns

end Dthreads.Scheduler
