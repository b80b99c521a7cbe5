import Dthreads.Ring.Laps
import Dthreads.Scheduler.Table

/-! # Rounds

Threads that take the token once in every round, and exit. The fence keeps them in the same round,
the token gives them their turns in the order of the queue. -/

namespace Dthreads.Scheduler

open Fence Ring Transition

/-! ## Programs -/

/-- An instruction of a serial section. It does not wait, and moves neither a thread nor the token
while no thread waits on a condition variable. -/
def Instr.serial : Instr → Bool
  | .openMemoryProtection | .atomicBegin | .atomicEnd | .finalcommit _ | .disableFence | .countChild
  | .countLock | .discountLock | .setTokenHolding _ | .lockRelease _ | .mutexInit _ | .storeResult _
  | .condLookup _ | .condSignal _ | .condBroadcast _ => true
  | _ => false

/-- `waitToken`, a serial section, `putToken` and `waitFence`. -/
structure Round where
  body : List Instr
  keepBitmap : Bool
  serial : ∀ i ∈ body, i.serial = true

namespace Round

def code (r : Round) : List Instr :=
  Local.waitToken ++ r.body ++ [.putToken] ++ Local.waitFence r.keepBitmap

/-- Some rounds, and the exit. -/
def script (rs : List Round) : List Instr := rs.flatMap code ++ Local.threadDeregister

/-- What a thread does from the time it has the token. -/
def turn : List Round → List Instr
  | [] => [.finalcommit false, .atomicEnd, .deregister, .procExit]
  | r :: rs => r.body ++ .putToken :: .fenceEnter r.keepBitmap :: script rs

theorem script_eq (rs : List Round) : script rs = .fenceEnter true :: .getToken :: turn rs := by
  cases rs with
  | nil => rfl
  | cons r rs => simp [script, turn, code, Local.waitToken, Local.waitFence]

end Round

/-- Signals and broadcasts are rounds of a thread that does not hold the token already. -/
theorem condSignal_round {l : Local} (c : Obj) (hf : l.fenceEnabled = true)
    (ht : l.tokenHolding = false) : ∃ r : Round, l.program (.condSignal c) = r.code :=
  ⟨⟨[.atomicEnd, .condLookup c, .condSignal c, .atomicBegin], false, by simp [Instr.serial]⟩, by
    simp [Local.program, Local.condSignal, hf, Local.underToken, ht, Round.code]⟩

/-- Where a thread is in its rounds. -/
inductive Spot where
  /-- In the fence before its turn. -/
  | entry (i : Instr) (rs : List Round)
  /-- About to get the token. -/
  | wait (rs : List Round)
  /-- In the serial section, with the rest of it. -/
  | serial (is : List Instr) (keepBitmap : Bool) (rs : List Round)
  /-- In the serial section of the exit. -/
  | exiting (is : List Instr)
  /-- In the fence after its turn. -/
  | depart (i : Instr) (rs : List Round)

namespace Spot

def code : Spot → List Instr
  | entry i rs => i :: .getToken :: Round.turn rs
  | wait rs => .getToken :: Round.turn rs
  | serial is k rs => is ++ .putToken :: .fenceEnter k :: Round.script rs
  | exiting is => is ++ [.deregister, .procExit]
  | depart i rs => i :: Round.script rs

def Ok : Spot → Prop
  | entry i _ | depart i _ => i.arrives = true ∨ i.leaves = true
  | wait _ => True
  | serial is _ _ | exiting is => ∀ i ∈ is, i.serial = true

/-- The turns but one that the thread has left. -/
def left : Spot → ℕ
  | entry _ rs | wait rs | depart _ rs => rs.length
  | serial _ _ rs => rs.length + 1
  | exiting _ => 0

/-- The thread has the token. -/
def busy : Spot → Bool
  | serial _ _ _ | exiting _ => true
  | _ => false

/-- How often a thread with `r` rounds has passed the fence: twice in a round. -/
def passed (r : ℕ) (x : Spot) : ℤ :=
  2 * (r - x.left) + match x with
    | entry _ _ => 0
    | wait _ | serial _ _ _ | exiting _ => 1
    | depart _ _ => -1

/-- The first instruction of the serial section that follows. -/
def afterToken : List Round → Spot
  | [] => exiting [.finalcommit false, .atomicEnd]
  | r :: rs => serial r.body r.keepBitmap rs

variable (rs : List Round)

theorem afterToken_code : (afterToken rs).code = Round.turn rs := by
  cases rs <;> rfl

theorem afterToken_ok : (afterToken rs).Ok := by
  cases rs with
  | nil =>
      intro i hi
      simp only [List.mem_cons, List.not_mem_nil, or_false] at hi
      rcases hi with rfl | rfl <;> rfl
  | cons r rs => exact r.serial

theorem afterToken_left : (afterToken rs).left = rs.length := by
  cases rs <;> rfl

theorem afterToken_busy : (afterToken rs).busy = true := by
  cases rs <;> rfl

theorem afterToken_passed (r : ℕ) : (afterToken rs).passed r = (wait rs).passed r := by
  cases rs <;> rfl

theorem outside_of_serial {i : Instr} {is : List Instr} (h : i.serial = true) :
    outside (i :: is) = true := by
  cases i <;> first | rfl | cases h

/-- Only the fence is inside the fence. -/
theorem outside_code {x : Spot} (hx : x.Ok) (he : ∀ i rs, x ≠ entry i rs) (hd : ∀ i rs, x ≠ depart i rs) :
    outside x.code = true := by
  cases x with
  | entry i rs => exact absurd rfl (he i rs)
  | depart i rs => exact absurd rfl (hd i rs)
  | wait rs => rfl
  | serial is k rs =>
      cases is with
      | nil => rfl
      | cons i is => exact outside_of_serial (hx i List.mem_cons_self)
  | exiting is =>
      cases is with
      | nil => rfl
      | cons i is => exact outside_of_serial (hx i List.mem_cons_self)

theorem code_ne_nil (x : Spot) : x.code ≠ [] := by
  cases x with
  | serial is k rs => cases is <;> exact nofun
  | exiting is => cases is <;> exact nofun
  | _ => exact nofun

end Spot

/-! ## The instructions -/

namespace State

variable {s : State} {t : Tid} {rest : List Instr} {i : Instr} {d : Determ} {l : Local}

/-- The instruction leaves the queues and the other threads alone. -/
structure Still (s : State) (t : Tid) (i : Instr) (d : Determ) (l : Local) : Prop where
  queues : s.determ.SameQueues d
  alive : d.alivethreads = s.determ.alivethreads
  live : l.live = (s.locals t).live
  index : l.threadIndex = (s.locals t).threadIndex
  others : s.others t i = s.locals

theorem arrive_still {k : Bool} (ho : s.others t i = s.locals)
    (h : some (s.determ.arrive (s.locals t) k rest) = some (d, l)) : s.Still t i d l := by
  have hq := arrive_same h
  unfold Determ.arrive at h
  split at h <;> cases h
  · refine ⟨hq, ?_, rfl, rfl, ho⟩
    unfold Determ.leaveFence Determ.arriveFence
    dsimp only
    split <;> split <;> rfl
  · refine ⟨hq, ?_, rfl, rfl, ho⟩
    unfold Determ.arriveFence Determ.setWait
    dsimp only
    split <;> rfl

theorem leaveFence_alive (d : Determ) : d.leaveFence.alivethreads = d.alivethreads := by
  unfold Determ.leaveFence
  dsimp only
  split <;> rfl

theorem own_still_fence (h : s.own t rest i = some (d, l)) (hi : i.arrives = true ∨ i.leaves = true) :
    s.Still t i d l := by
  cases i with
  | fenceEnter k =>
      have hq := own_same h rfl
      simp only [own] at h
      split at h
      · exact arrive_still rfl h
      · split at h <;> cases h <;> exact ⟨hq, rfl, rfl, rfl, rfl⟩
  | spinArrival k =>
      have hq := own_same h rfl
      simp only [own] at h
      split at h <;> cases h
      exact ⟨hq, rfl, rfl, rfl, rfl⟩
  | fenceArrive k => exact arrive_still rfl h
  | condArrival k =>
      simp only [own] at h
      split at h
      · exact arrive_still rfl h
      · cases h
  | spinRelease k =>
      have hq := own_same h rfl
      simp only [own] at h
      split at h <;> cases h
      exact ⟨hq, rfl, rfl, rfl, rfl⟩
  | fenceLeave k =>
      have hq := own_same h rfl
      cases h
      exact ⟨hq, leaveFence_alive _, rfl, rfl, rfl⟩
  | condRelease k =>
      have hq := own_same h rfl
      simp only [own] at h
      split at h <;> cases h
      exact ⟨hq, leaveFence_alive _, rfl, rfl, rfl⟩
  | _ => rcases hi with hi | hi <;> cases hi

/-- An instruction of a serial section. -/
theorem own_still_serial (h : s.own t rest i = some (d, l)) (hi : i.serial = true)
    (hc : ∀ c, s.determ.head (.cond c) = none) :
    s.Still t i d l ∧ d.fence = s.determ.fence ∧ l.pending = rest := by
  cases i with
  | condLookup c =>
      cases h
      by_cases hn : s.determ.conds c = none
      · rw [if_pos hn]
        exact ⟨⟨.condInit (hc c), rfl, rfl, rfl, rfl⟩, rfl, rfl⟩
      · rw [if_neg hn]
        exact ⟨⟨.refl _, rfl, rfl, rfl, rfl⟩, rfl, rfl⟩
  | condSignal c =>
      cases h
      rw [Determ.Queued.condSignal_none (hc c)]
      exact ⟨⟨.refl _, rfl, rfl, rfl, rfl⟩, rfl, rfl⟩
  | condBroadcast c =>
      cases h
      rw [Determ.Queued.condBroadcast_none (hc c)]
      exact ⟨⟨.refl _, rfl, rfl, rfl, rfl⟩, rfl, rfl⟩
  | lockRelease m =>
      cases h
      refine ⟨⟨.lockRelease _ m, ?_, rfl, rfl, rfl⟩, ?_, rfl⟩ <;>
      · unfold Determ.lockRelease
        split <;> rfl
  | openMemoryProtection | atomicBegin | atomicEnd | finalcommit | disableFence | countChild
  | countLock | discountLock | setTokenHolding | mutexInit | storeResult =>
      cases h
      exact ⟨⟨.congr rfl rfl rfl rfl rfl, rfl, rfl, rfl, rfl⟩, rfl, rfl⟩
  | _ => cases hi

end State

/-! ## The history of grants -/

/-- The scheduler, with the threads that were given the token so far. -/
structure Turns where
  state : State
  grants : List Tid

namespace Turns

/-- The thread that the step gives the token to. -/
def granted (s : State) : Label → List Tid
  | .call _ _ => []
  | .run t => if (s.locals t).pending.head? = some .getToken then [t] else []

def step (j : Turns) (a : Label) : Option Turns :=
  (j.state.step a).map fun s => ⟨s, j.grants ++ granted j.state a⟩

/-! ## The invariant -/

variable {order : List Tid} {rounds : Tid → ℕ}

/-- Who has the token, if it is held. -/
def holding (p : Moment order rounds) (x : Tid → Spot) : List Tid :=
  (p.members.head?.filter fun t => (x t).busy).toList

/-- The threads are where `x` says, at the moment `p` of the laps. -/
structure InLap (j : Turns) (idx : Tid → ℕ) (p : Moment order rounds) (x : Tid → Spot) : Prop where
  table : j.state.determ.Table (p.members.map idx)
  index : ∀ t, (j.state.locals t).threadIndex = idx t
  tid : ∀ t ∈ p.members, (j.state.determ.entries (idx t)).tid = t
  live : ∀ t ∈ p.members, (j.state.locals t).live = true
  code : ∀ t ∈ p.members, (j.state.locals t).pending = (x t).code
  ok : ∀ t ∈ p.members, (x t).Ok
  gone : ∀ t ∉ p.members, (j.state.locals t).live = true → (j.state.locals t).pending = [.procExit]
  count : ∀ t ∈ p.members, p.done t + (x t).left = rounds t
  busy : ∀ t ∈ p.members, (x t).busy = true → p.members.head? = some t
  fence : j.state.Fenced (· + 1) p.members.toFinset fun t => (x t).passed (rounds t)
  alive : p.members.length ≤ j.state.determ.alivethreads
  joining : ∀ i, (j.state.determ.entries i).status ≠ .joining
  conds : ∀ c, j.state.determ.head (.cond c) = none
  grants : j.grants = p.output ++ holding p x

namespace InLap

variable {j : Turns} {idx : Tid → ℕ} {p : Moment order rounds} {x : Tid → Spot} {t u : Tid}
  {rest : List Instr} {i : Instr} {d : Determ} {l : Local} {y : Spot}

/-- The state after an instruction of `t`. -/
abbrev after (j : Turns) (t : Tid) (i : Instr) (d : Determ) (l : Local) : Turns :=
  ⟨⟨d, Function.update (j.state.others t i) t l, j.state.created i⟩,
    j.grants ++ granted j.state (.run t)⟩

theorem after_self : (after j t i d l).state.locals t = l := Function.update_self ..

theorem after_other (ho : j.state.others t i = j.state.locals) (hu : u ≠ t) :
    (after j t i d l).state.locals u = j.state.locals u := by
  refine (Function.update_of_ne hu ..).trans ?_
  rw [ho]

/-- A step that leaves the queues alone. -/
theorem still (h : InLap j idx p x) (hm : t ∈ p.members) (hs : j.state.Still t i d l)
    (hid : ∀ k, (d.entries k).ident = (j.state.determ.entries k).ident)
    (hl : l.pending = y.code) (hy : y.Ok) (hleft : y.left = (x t).left)
    (hbusy : y.busy = true → p.members.head? = some t)
    (hf : (after j t i d l).state.Fenced (· + 1) p.members.toFinset
      fun u => (Function.update x t y u).passed (rounds u))
    (hg : j.grants ++ granted j.state (.run t) = p.output ++ holding p (Function.update x t y)) :
    InLap (after j t i d l) idx p (Function.update x t y) := by
  have hlocal : ∀ u, u ≠ t → (after j t i d l).state.locals u = j.state.locals u :=
    fun u hu => after_other hs.others hu
  have hown : (after j t i d l).state.locals t = l := after_self
  refine
    { table := h.table.same hs.queues
      index := fun u => ?_
      tid := fun u hu => (ident_tid (hid _)).trans (h.tid u hu)
      live := fun u hu => ?_
      code := fun u hu => ?_
      ok := fun u hu => ?_
      gone := fun u hu hlv => ?_
      count := fun u hu => ?_
      busy := fun u hu hb => ?_
      fence := hf
      alive := h.alive.trans_eq hs.alive.symm
      joining := fun k hk => h.joining k ((role_status (hs.queues.role k)).symm.trans hk)
      conds := fun c => (hs.queues.head _).trans (h.conds c)
      grants := hg }
  · by_cases hut : u = t
    · subst hut
      rw [hown, hs.index, h.index]
    · rw [hlocal u hut, h.index]
  · by_cases hut : u = t
    · subst hut
      rw [hown, hs.live, h.live u hu]
    · rw [hlocal u hut, h.live u hu]
  · by_cases hut : u = t
    · subst hut
      rw [hown, Function.update_self, hl]
    · rw [hlocal u hut, Function.update_of_ne hut, h.code u hu]
  · by_cases hut : u = t
    · subst hut
      rwa [Function.update_self]
    · rw [Function.update_of_ne hut]
      exact h.ok u hu
  · have hut : u ≠ t := fun he => hu (he ▸ hm)
    rw [hlocal u hut] at hlv ⊢
    exact h.gone u hu hlv
  · by_cases hut : u = t
    · subst hut
      rw [Function.update_self, hleft]
      exact h.count u hu
    · rw [Function.update_of_ne hut]
      exact h.count u hu
  · by_cases hut : u = t
    · subst hut
      rw [Function.update_self] at hb
      exact hbusy hb
    · rw [Function.update_of_ne hut] at hb
      exact h.busy u hu hb

/-- The history stays while the holder of the token stays. -/
theorem holding_update (hm : p.members.head? = some t → y.busy = (x t).busy) :
    holding p (Function.update x t y) = holding p x := by
  unfold holding
  cases hh : p.members.head? with
  | none => rfl
  | some u =>
      by_cases hut : u = t
      · subst hut
        simp [Option.filter, hm hh]
      · simp [Option.filter, hut]

/-- How often the threads have passed the fence after a step of `t`. -/
theorem passed_update {n : ℤ} (hy : y.passed (rounds t) = n) :
    (fun u => (Function.update x t y u).passed (rounds u)) =
      Function.update (fun u => (x u).passed (rounds u)) t n := by
  funext u
  by_cases hut : u = t
  · subst hut
    rw [Function.update_self, Function.update_self, hy]
  · rw [Function.update_of_ne hut, Function.update_of_ne hut]

theorem passed_same (hy : y.passed (rounds t) = (x t).passed (rounds t)) (u : Tid) :
    (Function.update x t y u).passed (rounds u) = (x u).passed (rounds u) := by
  by_cases hut : u = t
  · subst hut
    rw [Function.update_self, hy]
  · rw [Function.update_of_ne hut]

theorem granted_of_ne (hp : (j.state.locals t).pending = i :: rest) (hi : i ≠ .getToken) :
    granted j.state (.run t) = [] := by
  simp [granted, hp, hi]

/-- A step in the fence, in which the spots are `mk i` and behind which the spot is `z`. -/
theorem crosses (mk : Instr → Spot) (z : Spot) (h : InLap j idx p x) (hm : t ∈ p.members)
    (hx : x t = mk i) (hcode : ∀ k, (mk k).code = k :: z.code) (hleft : ∀ k, (mk k).left = z.left)
    (hbusy : ∀ k, (mk k).busy = false) (hz : z.busy = false) (hok : ∀ k, (mk k).Ok ↔
      (k.arrives = true ∨ k.leaves = true)) (hzok : z.Ok) (hout : outside z.code = true)
    (hstay : ∀ k r, (mk k).passed r = (mk i).passed r)
    (hpass : ∀ r, z.passed r = (mk i).passed r + 1)
    (ho : j.state.own t z.code i = some (d, l)) :
    ∃ y, InLap (after j t i d l) idx p (Function.update x t y) := by
  have hi : i.arrives = true ∨ i.leaves = true := (hok i).mp (hx ▸ h.ok t hm)
  have hp : (j.state.locals t).pending = i :: z.code := by rw [h.code t hm, hx, hcode]
  have hmem : t ∈ p.members.toFinset := List.mem_toFinset.mpr hm
  have hne : i ≠ .getToken := by
    rintro rfl
    rcases hi with hi | hi <;> cases hi
  have hpos : i.leaves = true → 0 < j.state.determ.currthreads := fun hl =>
    h.fence.curr_pos hmem ((Local.waits_cons hp).trans hl)
  obtain ⟨js, hcross, rfl⟩ := State.own_cross ho hi hpos
  have hs := State.own_still_fence ho hi
  have hid := (State.own_entries ho fun q hq => by subst hq; rcases hi with hi | hi <;> cases hi).1
  have hown : ((after j t i d ((j.state.locals t).goto (js ++ z.code))).state.locals t).pending =
      js ++ z.code := by
    dsimp only
    rw [Function.update_self, Local.goto_pending]
  have hfence := h.fence.cross (w := (after j t i d _).state) hmem hp hout hcross hown
    fun u _ hut => by
      dsimp only
      rw [Function.update_of_ne hut, hs.others]
  have hg : ∀ y : Spot, y.busy = false → j.grants ++ granted j.state (.run t) =
      p.output ++ holding p (Function.update x t y) := fun y hy => by
    rw [granted_of_ne hp hne, List.append_nil, holding_update fun _ => by rw [hy, hx, hbusy]]
    exact h.grants
  rcases hcross.next with rfl | ⟨k, rfl, hk, -⟩
  · rw [if_pos rfl] at hfence
    refine ⟨z, h.still hm hs hid rfl hzok (by rw [hx, hleft]) (fun hb => ?_) ?_ (hg z hz)⟩
    · rw [hz] at hb
      cases hb
    · rw [passed_update (hpass (rounds t)), ← hx]
      exact hfence
  · rw [if_neg (List.cons_ne_nil _ _)] at hfence
    refine ⟨mk k, h.still hm hs hid (hcode k).symm ((hok k).mpr hk) (by rw [hx, hleft, hleft])
      (fun hb => ?_) ?_ (hg _ (hbusy k))⟩
    · rw [hbusy] at hb
      cases hb
    · rw [passed_update (hstay k (rounds t)), ← hx, Function.update_eq_self]
      exact hfence

/-- The thread that the token is at comes first. -/
theorem head_of_holder (h : InLap j idx p x) (hm : t ∈ p.members)
    (ho : j.state.determ.holder = t) : ∃ X, p.members = t :: X := by
  cases hp : p.members with
  | nil =>
      rw [hp] at hm
      cases hm
  | cons u X =>
      have ht := h.table.token (idx u) (X.map idx) (by rw [hp]; rfl)
      have hu := h.tid u (by rw [hp]; exact List.mem_cons_self)
      rw [← ht] at hu
      rw [show u = t from hu.symm.trans ho]
      exact ⟨X, rfl⟩

theorem not_busy (h : InLap j idx p x) {X : List Tid} (hp : p.members = t :: X) (hn : order.Nodup)
    (hu : u ∈ X) : (x u).busy = false := by
  have hnd := p.members_nodup hn
  rw [hp] at hnd
  rw [Bool.eq_false_iff]
  intro hb
  have hh := h.busy u (by rw [hp]; exact List.mem_cons_of_mem t hu) hb
  rw [hp, List.head?_cons, Option.some.injEq] at hh
  exact (List.nodup_cons.mp hnd).1 (hh ▸ hu)

/-- The thread gets the token. -/
theorem gets (h : InLap j idx p x) (hm : t ∈ p.members) {rs : List Round} (hx : x t = .wait rs)
    (ho : j.state.own t (Round.turn rs) .getToken = some (d, l)) :
    InLap (after j t .getToken d l) idx p (Function.update x t (.afterToken rs)) := by
  have hp : (j.state.locals t).pending = .getToken :: Round.turn rs := by
    rw [h.code t hm, hx]
    rfl
  simp only [State.own, Option.ite_none_right_eq_some] at ho
  obtain ⟨hholder, ho⟩ := ho
  obtain ⟨rfl, rfl⟩ := Prod.mk.inj (Option.some.inj ho)
  obtain ⟨X, hX⟩ := h.head_of_holder hm hholder
  have hcode := Spot.afterToken_code rs
  refine h.still hm ⟨.refl _, rfl, rfl, rfl, rfl⟩ (fun _ => rfl) hcode.symm (Spot.afterToken_ok rs)
    ?_ (fun _ => by rw [hX]; rfl) ?_ ?_
  · rw [Spot.afterToken_left, hx]
    rfl
  · refine h.fence.frame rfl (fun u _ => ?_) fun u _ => ?_
    · by_cases hut : u = t
      · subst hut
        right
        refine ⟨by rw [hp]; rfl, ?_⟩
        dsimp only
        rw [Function.update_self]
        dsimp only
        rw [← hcode]
        exact Spot.outside_code (Spot.afterToken_ok rs) (by cases rs <;> rintro _ _ ⟨⟩)
          (by cases rs <;> rintro _ _ ⟨⟩)
      · left
        dsimp only
        rw [Function.update_of_ne hut]
        rfl
    · exact passed_same ((Spot.afterToken_passed rs _).trans (by rw [hx])) u
  · have hb := Spot.afterToken_busy rs
    have hw : holding p x = [] := by simp [holding, hX, hx, Spot.busy, Option.filter]
    have hw' : holding p (Function.update x t (.afterToken rs)) = [t] := by
      simp [holding, hX, hb, Option.filter]
    rw [h.grants, hw, hw', List.append_nil]
    simp [granted, hp]

/-- An instruction of the serial section. -/
theorem serves (mk : List Instr → Spot) {is : List Instr} (h : InLap j idx p x) (hm : t ∈ p.members)
    (hx : x t = mk (i :: is)) (hcode : (mk (i :: is)).code = i :: (mk is).code)
    (hok : (mk (i :: is)).Ok ↔ i.serial = true ∧ (mk is).Ok)
    (hleft : (mk is).left = (mk (i :: is)).left) (hbusy : ∀ is, (mk is).busy = true)
    (hpassed : ∀ r, (mk is).passed r = (mk (i :: is)).passed r)
    (hspot : ∀ k rs, mk is ≠ .entry k rs ∧ mk is ≠ .depart k rs)
    (ho : j.state.own t (mk is).code i = some (d, l)) :
    InLap (after j t i d l) idx p (Function.update x t (mk is)) := by
  obtain ⟨hi, his⟩ := hok.mp (hx ▸ h.ok t hm)
  have hp : (j.state.locals t).pending = i :: (mk is).code := by rw [h.code t hm, hx, hcode]
  have hne : i ≠ .getToken := by
    rintro rfl
    cases hi
  obtain ⟨hs, hf, hl⟩ := State.own_still_serial ho hi h.conds
  have hid := (State.own_entries ho fun q hq => by subst hq; cases hi).1
  have hbt : (x t).busy = true := by rw [hx, hbusy]
  refine h.still hm hs hid hl his (by rw [hx, hleft]) (fun _ => h.busy t hm hbt) ?_ ?_
  · refine h.fence.frame hf (fun u _ => ?_) fun u _ => ?_
    · by_cases hut : u = t
      · subst hut
        right
        refine ⟨by rw [hp]; exact Spot.outside_of_serial hi, ?_⟩
        dsimp only
        rw [Function.update_self, hl]
        exact Spot.outside_code his (fun k rs => (hspot k rs).1) fun k rs => (hspot k rs).2
      · left
        dsimp only
        rw [Function.update_of_ne hut, hs.others]
    · exact passed_same ((hpassed _).trans (by rw [hx])) u
  · rw [granted_of_ne hp hne, List.append_nil, holding_update fun _ => by rw [hbusy, hbt]]
    exact h.grants

/-- Nobody has the token in between. -/
theorem holding_nil {p' : Moment order rounds} (hb : ∀ u ∈ p'.members, (x u).busy = false) :
    holding p' x = [] := by
  unfold holding
  cases hh : p'.members.head? with
  | none => rfl
  | some u => simp [Option.filter, hb u (List.mem_of_head? hh)]

/-- The thread passes the token on. -/
theorem puts (h : InLap j idx p x) (hn : order.Nodup) (hm : t ∈ p.members) {k : Bool}
    {rs : List Round} (hx : x t = .serial [] k rs)
    (ho : j.state.own t (.fenceEnter k :: Round.script rs) .putToken = some (d, l)) :
    ∃ p' : Moment order rounds, InLap (after j t .putToken d l) idx p'
      (Function.update x t (.depart (.fenceEnter k) rs)) := by
  have hp : (j.state.locals t).pending = .putToken :: .fenceEnter k :: Round.script rs := by
    rw [h.code t hm, hx]
    rfl
  obtain ⟨rfl, hl⟩ := Prod.mk.inj (Option.some.inj ho)
  have hlive : l.live = (j.state.locals t).live := by rw [← hl]
  have hindex : l.threadIndex = (j.state.locals t).threadIndex := by rw [← hl]
  have hpend : l.pending = .fenceEnter k :: Round.script rs := by rw [← hl]
  have hother : ∀ {u}, u ≠ t → (after j t .putToken j.state.determ.putToken l).state.locals u =
      j.state.locals u := fun hu => after_other rfl hu
  obtain ⟨X, hX⟩ := List.head?_eq_some_iff.mp (h.busy t hm (by rw [hx]; rfl))
  have hcount := h.count t hm
  rw [hx] at hcount
  have hlt : p.done t < rounds t := by
    have hleft : (Spot.serial [] k rs).left = rs.length + 1 := rfl
    omega
  obtain ⟨p', hout, hmem, hdone⟩ := p.pass hn hX
  rw [if_pos hlt] at hmem
  have hiff : ∀ u, u ∈ p'.members ↔ u ∈ p.members := by
    intro u
    rw [hmem, hX]
    simp [or_comm]
  have hfin : p'.members.toFinset = p.members.toFinset := by
    ext u
    rw [List.mem_toFinset, List.mem_toFinset, hiff]
  have hbusy : ∀ u ∈ p'.members,
      (Function.update x t (.depart (.fenceEnter k) rs) u).busy = false := by
    intro u hu
    by_cases hut : u = t
    · subst hut
      rw [Function.update_self]
      rfl
    · rw [Function.update_of_ne hut]
      rw [hiff, hX] at hu
      exact h.not_busy hX hn ((List.mem_cons.mp hu).resolve_left hut)
  refine ⟨p', ?_, fun u => ?_, fun u hu => h.tid u ((hiff u).mp hu), fun u hu => ?_, fun u hu => ?_,
    fun u hu => ?_, fun u hu hlv => ?_, fun u hu => ?_, fun u hu hb => ?_, ?_, ?_, h.joining, h.conds,
    ?_⟩
  · rw [hmem, List.map_append]
    exact Determ.Table.putToken (by have ht := h.table; rwa [hX] at ht)
  · by_cases hut : u = t
    · rw [hut, after_self, hindex, h.index]
    · rw [hother hut, h.index]
  · by_cases hut : u = t
    · rw [hut, after_self, hlive, h.live t hm]
    · rw [hother hut, h.live u ((hiff u).mp hu)]
  · by_cases hut : u = t
    · rw [hut, after_self, Function.update_self, hpend]
      rfl
    · rw [hother hut, Function.update_of_ne hut, h.code u ((hiff u).mp hu)]
  · by_cases hut : u = t
    · subst hut
      rw [Function.update_self]
      exact .inl rfl
    · rw [Function.update_of_ne hut]
      exact h.ok u ((hiff u).mp hu)
  · have hut : u ≠ t := fun he => hu ((hiff u).mpr (he ▸ hm))
    rw [hother hut] at hlv ⊢
    exact h.gone u (fun hc => hu ((hiff u).mpr hc)) hlv
  · rw [hdone u hu]
    by_cases hut : u = t
    · subst hut
      rw [if_pos rfl, Function.update_self, ← hcount]
      exact Nat.add_right_comm ..
    · rw [if_neg hut, Function.update_of_ne hut]
      exact h.count u ((hiff u).mp hu)
  · rw [hbusy u hu] at hb
    cases hb
  · rw [hfin]
    refine h.fence.frame rfl (fun u _ => ?_) fun u _ => passed_same ?_ u
    · by_cases hut : u = t
      · subst hut
        right
        refine ⟨by rw [hp]; rfl, ?_⟩
        rw [after_self, hpend]
        rfl
      · exact .inl (by rw [hother hut])
    · rw [hx]
      simp only [Spot.passed, Spot.left]
      omega
  · have hl := h.alive
    rw [hX] at hl
    rw [hmem, List.length_append]
    exact hl
  · rw [holding_nil hbusy, hout, List.append_nil]
    have hw : holding p x = [t] := by simp [holding, hX, hx, Spot.busy, Option.filter]
    have hg := granted_of_ne hp nofun
    dsimp only
    rw [hg, h.grants, hw, List.append_nil]

/-- The thread exits. -/
theorem exits (h : InLap j idx p x) (hn : order.Nodup) (hm : t ∈ p.members) (hx : x t = .exiting [])
    (ho : j.state.own t [.procExit] .deregister = some (d, l)) :
    ∃ p' : Moment order rounds, InLap (after j t .deregister d l) idx p' x := by
  have hp : (j.state.locals t).pending = [.deregister, .procExit] := by
    rw [h.code t hm, hx]
    rfl
  simp only [State.own, h.index t] at ho
  obtain ⟨rfl, hl⟩ := Prod.mk.inj (Option.some.inj ho)
  have hindex : l.threadIndex = idx t := by rw [← hl]
  have hpend : l.pending = [.procExit] := by rw [← hl]
  have hother : ∀ {u}, u ≠ t → (after j t .deregister (j.state.determ.deregisterThread (idx t))
      l).state.locals u = j.state.locals u := fun hu => after_other rfl hu
  obtain ⟨X, hX⟩ := List.head?_eq_some_iff.mp (h.busy t hm (by rw [hx]; rfl))
  have hcount := h.count t hm
  rw [hx] at hcount
  have hlt : ¬p.done t < rounds t := by
    have hleft : (Spot.exiting []).left = 0 := rfl
    omega
  obtain ⟨p', hout, hmem, hdone⟩ := p.pass hn hX
  rw [if_neg hlt, List.append_nil] at hmem
  have hnd := p.members_nodup hn
  rw [hX] at hnd
  obtain ⟨htX, -⟩ := List.nodup_cons.mp hnd
  have hne : ∀ u ∈ p'.members, u ≠ t ∧ u ∈ p.members := by
    intro u hu
    rw [hmem] at hu
    exact ⟨fun he => htX (he ▸ hu), by rw [hX]; exact List.mem_cons_of_mem t hu⟩
  have hbusy : ∀ u ∈ p'.members, (x u).busy = false := fun u hu =>
    h.not_busy hX hn (hmem ▸ hu)
  have hmemt : t ∈ p.members.toFinset := List.mem_toFinset.mpr hm
  have halive : 0 < j.state.determ.alivethreads :=
    lt_of_lt_of_le (by rw [hX]; exact Nat.succ_pos _) h.alive
  obtain ⟨hf, ha⟩ := Determ.deregisterThread_fence _ (idx t) halive (h.fence.members_pos hmemt)
  refine ⟨p', ?_, fun u => ?_, fun u hu => ?_, fun u hu => ?_, fun u hu => ?_,
    fun u hu => h.ok u (hne u hu).2, fun u hu hlv => ?_, fun u hu => ?_, fun u hu hb => ?_, ?_, ?_,
    fun i hi => ?_, fun c => ?_, ?_⟩
  · rw [hmem]
    exact Determ.Table.deregisterThread (by have ht := h.table; rwa [hX] at ht) h.joining
  · by_cases hut : u = t
    · rw [hut, after_self, hindex]
    · rw [hother hut, h.index]
  · exact (ident_tid (Determ.deregisterThread_ident ..)).trans (h.tid u (hne u hu).2)
  · rw [hother (hne u hu).1]
    exact h.live u (hne u hu).2
  · rw [hother (hne u hu).1]
    exact h.code u (hne u hu).2
  · by_cases hut : u = t
    · rw [hut, after_self, hpend]
    · rw [hother hut] at hlv ⊢
      refine h.gone u (fun hc => ?_) hlv
      rw [hX] at hc
      rw [hmem] at hu
      exact hu ((List.mem_cons.mp hc).resolve_left hut)
  · rw [hdone u hu, if_neg (hne u hu).1]
    exact h.count u (hne u hu).2
  · rw [hbusy u hu] at hb
    cases hb
  · have hfin : p'.members.toFinset = p.members.toFinset.erase t := by
      ext u
      rw [Finset.mem_erase, List.mem_toFinset, List.mem_toFinset]
      constructor
      · exact hne u
      · rintro ⟨hut, hu⟩
        rw [hX] at hu
        rw [hmem]
        exact (List.mem_cons.mp hu).resolve_left hut
    rw [hfin]
    exact h.fence.drop hmemt (by rw [hp]; rfl) hf fun u _ hut => by rw [hother hut]
  · have hl := h.alive
    rw [hX, List.length_cons] at hl
    refine le_trans ?_ ha.ge
    rw [hmem]
    omega
  · rcases Determ.deregisterThread_role j.state.determ (idx t) i with hr | ⟨-, he⟩
    · exact h.joining i ((role_status hr).symm.trans hi)
    · exact absurd (he.symm.trans hi) (by rintro ⟨⟩)
  · refine Eq.trans ?_ (h.conds c)
    change (Determ.conds _ c).bind _ = (j.state.determ.conds c).bind _
    rw [Determ.deregisterThread_conds]
  · rw [holding_nil hbusy, hout, List.append_nil]
    have hw : holding p x = [t] := by simp [holding, hX, hx, Spot.busy, Option.filter]
    have hg := granted_of_ne hp (by rintro ⟨⟩)
    dsimp only
    rw [hg, h.grants, hw, List.append_nil]

/-- A thread that has left the queue ends. -/
theorem ends (h : InLap j idx p x) (hm : t ∉ p.members)
    (ho : j.state.own t [] .procExit = some (d, l)) (hp : (j.state.locals t).pending = [.procExit]) :
    InLap (after j t .procExit d l) idx p x := by
  obtain ⟨rfl, hl⟩ := Prod.mk.inj (Option.some.inj ho)
  have hlive : l.live = false := by rw [← hl]
  have hindex : l.threadIndex = (j.state.locals t).threadIndex := by rw [← hl]
  have hother : ∀ {u}, u ≠ t → (after j t .procExit j.state.determ l).state.locals u =
      j.state.locals u := fun hu => after_other rfl hu
  have hne : ∀ u ∈ p.members, u ≠ t := fun u hu he => hm (he ▸ hu)
  refine ⟨h.table, fun u => ?_, h.tid, fun u hu => ?_, fun u hu => ?_, h.ok, fun u hu hlv => ?_,
    h.count, h.busy, ?_, h.alive, h.joining, h.conds, ?_⟩
  · by_cases hut : u = t
    · rw [hut, after_self, hindex, h.index]
    · rw [hother hut, h.index]
  · rw [hother (hne u hu)]
    exact h.live u hu
  · rw [hother (hne u hu)]
    exact h.code u hu
  · by_cases hut : u = t
    · rw [hut, after_self, hlive] at hlv
      cases hlv
    · rw [hother hut] at hlv ⊢
      exact h.gone u hu hlv
  · refine h.fence.frame rfl (fun u hu => .inl ?_) fun _ _ => rfl
    rw [hother (hne u (List.mem_toFinset.mp hu))]
  · have hg := granted_of_ne hp nofun
    dsimp only
    rw [hg, List.append_nil]
    exact h.grants

/-- A step of a thread in its rounds. -/
theorem ran (h : InLap j idx p x) (hn : order.Nodup) (hl : (j.state.locals t).live = true)
    (hp : (j.state.locals t).pending = i :: rest) (ho : j.state.own t rest i = some (d, l)) :
    ∃ (p' : Moment order rounds) (x' : Tid → Spot), InLap (after j t i d l) idx p' x' := by
  by_cases hm : t ∈ p.members
  · have hcode := h.code t hm
    rw [hp] at hcode
    cases hx : x t with
    | entry k rs =>
        rw [hx] at hcode
        obtain ⟨rfl, rfl⟩ := List.cons.inj hcode
        obtain ⟨y, hy⟩ := h.crosses (fun k => .entry k rs) (.wait rs) hm hx (fun _ => rfl)
          (fun _ => rfl) (fun _ => rfl) rfl (fun _ => Iff.rfl) trivial rfl (fun _ _ => rfl)
          (fun r => by simp only [Spot.passed, Spot.left]; omega) ho
        exact ⟨p, _, hy⟩
    | wait rs =>
        rw [hx] at hcode
        obtain ⟨rfl, rfl⟩ := List.cons.inj hcode
        exact ⟨p, _, h.gets hm hx ho⟩
    | serial is k rs =>
        rw [hx] at hcode
        cases is with
        | nil =>
            obtain ⟨rfl, rfl⟩ := List.cons.inj hcode
            obtain ⟨p', hp'⟩ := h.puts hn hm hx ho
            exact ⟨p', _, hp'⟩
        | cons i is =>
            obtain ⟨rfl, rfl⟩ := List.cons.inj hcode
            exact ⟨p, _, h.serves (fun is => .serial is k rs) hm hx rfl
              List.forall_mem_cons rfl (fun _ => rfl) (fun _ => rfl) (fun _ _ => ⟨nofun, nofun⟩) ho⟩
    | exiting is =>
        rw [hx] at hcode
        cases is with
        | nil =>
            obtain ⟨rfl, rfl⟩ := List.cons.inj hcode
            obtain ⟨p', hp'⟩ := h.exits hn hm hx ho
            exact ⟨p', _, hp'⟩
        | cons i is =>
            obtain ⟨rfl, rfl⟩ := List.cons.inj hcode
            exact ⟨p, _, h.serves .exiting hm hx rfl
              List.forall_mem_cons rfl (fun _ => rfl) (fun _ => rfl) (fun _ _ => ⟨nofun, nofun⟩) ho⟩
    | depart k rs =>
        rw [hx] at hcode
        obtain ⟨rfl, rfl⟩ := List.cons.inj hcode
        have hscript := Round.script_eq rs
        obtain ⟨y, hy⟩ := h.crosses (fun k => .depart k rs) (.entry (.fenceEnter true) rs)
          hm hx (fun k => congrArg (k :: ·) hscript) (fun _ => rfl) (fun _ => rfl) rfl
          (fun _ => Iff.rfl) (.inl rfl) rfl (fun _ _ => rfl)
          (fun r => by simp only [Spot.passed, Spot.left]; omega) (by rw [hscript] at ho; exact ho)
        exact ⟨p, _, hy⟩
  · have hg := h.gone t hm hl
    rw [hp] at hg
    obtain ⟨rfl, rfl⟩ := List.cons.inj hg
    exact ⟨p, x, h.ends hm ho hp⟩

/-- No thread calls another operation. -/
theorem pending_ne_nil (h : InLap j idx p x) (hl : (j.state.locals t).live = true) :
    (j.state.locals t).pending ≠ [] := by
  by_cases hm : t ∈ p.members
  · rw [h.code t hm]
    exact Spot.code_ne_nil _
  · rw [h.gone t hm hl]
    exact nofun

theorem step {j' : Turns} {a : Label} (h : InLap j idx p x) (hn : order.Nodup)
    (hs : j.step a = some j') :
    ∃ (p' : Moment order rounds) (x' : Tid → Spot), InLap j' idx p' x' := by
  rw [Turns.step, Option.map_eq_some_iff] at hs
  obtain ⟨s, hs, rfl⟩ := hs
  cases a with
  | call t op =>
      obtain ⟨hl, hnil, -⟩ := State.step_call hs
      exact absurd hnil (h.pending_ne_nil hl)
  | run t =>
      obtain ⟨i, rest, d, l, hl, hp, ho, rfl⟩ := State.step_run hs
      exact h.ran hn hl hp ho

end InLap

end Turns

end Dthreads.Scheduler
