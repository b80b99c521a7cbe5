import Dthreads.Scheduler.Moves

/-! # Where the threads are

A live thread that can run is in the token queue; one that waits is where its next instruction waits
for it. -/

namespace Dthreads.Scheduler

open Transition

/-! ## Program points -/

/-- What the next instruction says about the place of the thread. -/
inductive Phase where
  | starting
  | active
  | condBlock
  | barrier (b : Obj)
  | barrierBlock (b : Obj) (generation : ℕ)
  | joinBlock (guest : ℕ)
  | joinToken
  | gone
  deriving DecidableEq

def phase : List Instr → Phase
  | .childRegister _ :: _ => .starting
  | .condBlock _ :: _ => .condBlock
  | .atomicBegin :: .barrierArrive b :: _ => .barrier b
  | .barrierArrive b :: _ => .barrier b
  | .barrierBlock b g :: _ => .barrierBlock b g
  | .joinBlock g :: _ => .joinBlock g
  | .joinToken :: _ => .joinToken
  | .procExit :: _ => .gone
  | _ => .active

/-- The thread has an entry of its own. -/
def Local.enrolled (l : Local) : Prop := phase l.pending ≠ .starting ∧ phase l.pending ≠ .gone

/-- The thread with index `my` is where a thread at this program point is. A joiner that is not the
parent of its joinee is put into no queue, and does not get the token either. -/
def At (d : Determ) (ls : Queue → List ℕ) (my : ℕ) : Phase → Prop
  | .starting | .gone => True
  | .active => my ∈ ls .active
  | .condBlock => (d.entries my).status = .ready → my ∈ ls .active
  | .barrier b => my ∈ ls .active ∨ my ∈ ls (.barrier b)
  | .barrierBlock b g => my ∈ ls .active ∨ my ∈ ls (.barrier b) ∧ d.generation b = some g
  | .joinBlock g => (d.entries my).status = .joining ∧ (d.entries my).joineeThreadIndex = g ∧
      ((d.entries g).status = .exit → my ∈ ls .active ∨ d.tokenpos ≠ my)
  | .joinToken => my ∈ ls .active ∨ d.tokenpos ≠ my

/-- What has to come after an instruction. -/
def Follows : Instr → List Instr → Prop
  | .condEnter _ _, rest => phase rest = .condBlock
  | .deregister, rest => phase rest = .gone
  | _, _ => True

/-- The instructions come in an order that `cond_wait`, the exit and `join` rely on. -/
def Sequel : List Instr → Prop
  | [] => True
  | i :: rest => Follows i rest ∧ (∀ g, .joinBlock g ∉ rest) ∧ Sequel rest

theorem At.of_active {d : Determ} {ls : Queue → List ℕ} {my : ℕ} {is : List Instr}
    (h : my ∈ ls .active) (hj : ∀ g, .joinBlock g ∉ is) : At d ls my (phase is) := by
  cases hp : phase is with
  | starting => trivial
  | gone => trivial
  | active => exact h
  | condBlock => exact fun _ => h
  | barrier b => exact .inl h
  | barrierBlock b g => exact .inl h
  | joinToken => exact .inl h
  | joinBlock g =>
      exfalso
      unfold phase at hp
      split at hp <;> cases hp
      exact hj g List.mem_cons_self

/-- A step of another thread leaves a thread where it belongs. -/
theorem At.shift {d d' : Determ} {ls ls' : Queue → List ℕ} {my x : ℕ} {ph : Phase}
    (hq : d.Queued ls) (hs : Determ.Shift my d ls d' ls') (hx : x ≠ my) (h : At d ls x ph) :
    At d' ls' x ph := by
  have htok : d.tokenpos ≠ x → x ∈ ls' .active ∨ d'.tokenpos ≠ x := by
    intro hne
    by_contra hc
    obtain ⟨hx', he⟩ := not_or.mp hc
    rw [not_not] at he
    rcases hs.token with ht | ht | ht
    · exact hne (ht.symm.trans he)
    · exact hx' (hs.active x (he ▸ ht) hx)
    · exact hx' (he ▸ ht)
  cases ph with
  | starting => trivial
  | gone => trivial
  | active => exact hs.active x h hx
  | condBlock =>
      intro hr
      rcases hs.role x hx with hrole | ⟨-, ⟨-, ha⟩ | he⟩
      · exact hs.active x (h ((role_status hrole).symm.trans hr)) hx
      · exact ha
      · exact absurd (he.symm.trans hr) nofun
  | barrier b => exact h.elim (fun ha => .inl (hs.active x ha hx)) fun hb => hs.barrier b x hb hx
  | barrierBlock b g =>
      rcases h with ha | ⟨hb, hg⟩
      · exact .inl (hs.active x ha hx)
      · refine (hs.barrier b x hb hx).imp_right fun hb' => ⟨hb', ?_⟩
        rw [hs.generation b (List.ne_nil_of_mem hb'), hg]
  | joinBlock g =>
      obtain ⟨hj, hjg, hex⟩ := h
      have hrole : (d'.entries x).role = (d.entries x).role := by
        refine (hs.role x hx).resolve_right ?_
        rintro ⟨⟨c, hc⟩, -⟩
        exact absurd ((hq.fits _ x hc).1.symm.trans hj) nofun
      refine ⟨(role_status hrole).trans hj, (role_joinee hrole).trans hjg, fun he => ?_⟩
      by_cases hg : (d.entries g).status = .exit
      · exact (hex hg).elim (fun ha => .inl (hs.active x ha hx)) htok
      · refine htok fun ht => hq.joining x hj (hjg.symm ▸ hg) ?_
        exact ht ▸ hq.token (hs.exited g he hg)
  | joinToken => exact h.elim (fun ha => .inl (hs.active x ha hx)) htok

theorem program_sequel (l : Local) (op : Op) :
    Sequel (l.program op) ∧ ∀ g, .joinBlock g ∉ l.program op := by
  cases op <;>
    simp only [Local.program, Local.mutexLock, Local.mutexUnlock, Local.condWait, Local.condSignal,
      Local.condBroadcast, Local.barrierWait, Local.spawn, Local.join, Local.cancel,
      Local.threadDeregister, Local.wakeChildren, Local.underToken, Local.waitToken, Local.waitFence] <;>
    (repeat' split) <;> simp [Sequel, Follows, phase]

/-- The program point after a call. -/
theorem program_phase (l : Local) (op : Op) : phase (l.program op) = .active := by
  cases op <;>
    simp only [Local.program, Local.mutexLock, Local.mutexUnlock, Local.condWait, Local.condSignal,
      Local.condBroadcast, Local.barrierWait, Local.spawn, Local.join, Local.cancel,
      Local.threadDeregister, Local.wakeChildren, Local.underToken, Local.waitToken, Local.waitFence] <;>
    (repeat' split) <;> simp [phase]

/-- The instructions that a thread pushes keep the order. -/
theorem Pushes.sequel {l : Local} {i : Instr} {js rest : List Instr} (h : Pushes l i js)
    (hs : Sequel (i :: rest)) : Sequel (js ++ rest) := by
  obtain ⟨-, hj, hr⟩ := hs
  cases h with
  | again m =>
      unfold Local.getLockAgain
      split <;> simp [Sequel, Follows, Local.waitToken, Local.waitFence, hj, hr]
  | endCritical =>
      unfold Local.endCriticalSection
      split <;> simp [Sequel, Follows, Local.waitFence, hj, hr]
  | taken m k => cases k <;> simp [Sequel, Follows, Local.lockFailed, Local.waitFence, hj, hr]
  | exhausted m k => cases k <;> simp [Sequel, Follows, Local.lockFailed, Local.waitFence, hj, hr]
  | _ => simp [Sequel, Follows, hj, hr]

/-- Only `join` pushes the wait for the joinee. -/
theorem Pushes.not_joinBlock {l : Local} {i : Instr} {js : List Instr} (h : Pushes l i js)
    (hd : ∀ v w, i ≠ .detJoin v w) (hb : ∀ g, i ≠ .joinBlock g) (g : ℕ) : .joinBlock g ∉ js := by
  cases h with
  | again m =>
      unfold Local.getLockAgain
      split <;> simp [Local.waitToken, Local.waitFence]
  | endCritical =>
      unfold Local.endCriticalSection
      split <;> simp [Local.waitFence]
  | taken m k => cases k <;> simp [Local.lockFailed, Local.waitFence]
  | exhausted m k => cases k <;> simp [Local.lockFailed, Local.waitFence]
  | joinBlock v w g => exact absurd rfl (hd v w)
  | joinAgain g => exact absurd rfl (hb g)
  | _ => simp

/-! ## Instructions that leave the queues alone -/

/-- The instruction moves a thread or the token, or initialises an object. -/
def touchesQueues : Instr → Bool
  | .putToken | .childRegister _ | .condLookup _ | .condInit _ | .barrierInit _ _ | .condEnter _ _
  | .condSignal _ | .condBroadcast _ | .barrierEnter _ | .barrierArrive _ | .detJoin _ _
  | .joinBlock _ | .detCancel _ | .deregister => true
  | _ => false

namespace State

variable {s : State} {t : Tid} {rest : List Instr} {i : Instr} {d : Determ} {l : Local}

theorem arrive_same {k : Bool} (h : some (s.determ.arrive (s.locals t) k rest) = some (d, l)) :
    s.determ.SameQueues d := by
  unfold Determ.arrive at h
  split at h <;> cases h
  · exact (Determ.SameQueues.arriveFence _).trans (.leaveFence _)
  · exact (Determ.SameQueues.arriveFence _).trans (.setWait _ _ _)

theorem own_same (h : s.own t rest i = some (d, l)) (hi : touchesQueues i = false) :
    s.determ.SameQueues d := by
  cases i with
  | fenceEnter k =>
      simp only [own] at h
      split at h
      · exact arrive_same h
      · split at h <;> cases h <;> exact .refl _
  | fenceArrive k => exact arrive_same h
  | condArrival k =>
      simp only [own] at h
      split at h
      · exact arrive_same h
      · cases h
  | spinRelease k =>
      simp only [own] at h
      split at h <;> cases h
      exact .setWait _ _ _
  | fenceLeave k =>
      cases h
      exact .leaveFence _
  | condRelease k =>
      simp only [own] at h
      split at h <;> cases h
      exact .leaveFence _
  | lockRelease m =>
      cases h
      exact .lockRelease _ m
  | lockIsowner m =>
      cases h
      unfold Determ.lockIsowner
      (repeat' split) <;> exact .congr rfl rfl rfl rfl rfl
  | lockTest m k =>
      have hd : d = (s.determ.lockTest m).1 := by
        simp only [own] at h
        split at h <;> cases h <;> rfl
      rw [hd]
      unfold Determ.lockTest
      dsimp only
      split <;> exact .congr rfl rfl rfl rfl rfl
  | lockSet m k =>
      have hd : d = (s.determ.lockSet m t).1 := by
        simp only [own] at h
        split at h <;> cases h <;> rfl
      rw [hd]
      unfold Determ.lockSet
      split <;> exact .congr rfl rfl rfl rfl rfl
  | condBlock m =>
      simp only [own] at h
      split at h <;> cases h
      · exact .refl _
      · exact .lockRelease _ m
  | putToken | childRegister | condLookup | condInit | barrierInit | condEnter | condSignal
  | condBroadcast | barrierEnter | barrierArrive | detJoin | joinBlock | detCancel | deregister =>
      cases hi
  | _ =>
      simp only [own] at h
      (repeat' split at h) <;> cases h <;> exact .congr rfl rfl rfl rfl rfl

/-! ## The condition -/

/-- A thread registers while the token queue is not empty and with an index that no thread uses;
condition variables and barriers are initialised, and the barrier inside a barrier opens, when no
thread waits in the list of the object. -/
def Regular (s : State) (t : Tid) : Instr → Prop
  | .childRegister _ =>
      s.determ.activelist ≠ none ∧ s.determ.Unused s.determ.threadIndex ∧
        ∀ u, u ≠ t → (s.locals u).live = true → (s.locals u).enrolled →
          (s.locals u).threadIndex ≠ s.determ.threadIndex
  | .condInit c => s.determ.head (.cond c) = none
  | .barrierInit b _ => s.determ.head (.barrier b) = none
  | .barrierArrive b => ∀ be ∈ s.determ.barriers b, be.arrived + 1 = be.maxthreads → be.head = none
  | _ => True

/-- The next instruction of the label's process satisfies `P`. -/
def Next (P : State → Tid → Instr → Prop) (s : State) : Label → Prop
  | .call _ _ => True
  | .run t => ∀ i ∈ (s.locals t).pending.head?, P s t i

/-- Nothing is created or initialised, and no barrier opens. -/
def plain (s : State) : Label → Bool
  | .call _ _ => true
  | .run t =>
      match (s.locals t).pending.head? with
      | some (.childRegister _) | some (.condInit _) | some (.barrierInit _ _)
      | some (.barrierArrive _) => false
      | _ => true

theorem regular_of_plain {a : Label} (h : s.plain a = true) : s.Next Regular a := by
  cases a with
  | call t op => trivial
  | run t =>
      intro i hi
      simp only [plain, Option.mem_def.mp hi] at h
      cases i with
      | childRegister | condInit | barrierInit | barrierArrive => cases h
      | _ => trivial

/-- The registration of a thread. -/
theorem childRegister_moves {ls : Queue → List ℕ} {p : ℕ} (hq : s.determ.Queued ls)
    (hseq : Sequel (.childRegister p :: rest)) (hreg : s.Regular t (.childRegister p))
    (ho : s.own t rest (.childRegister p) = some (d, l)) :
    ∃ ls', d.Queued ls' ∧ Determ.Shift l.threadIndex s.determ ls d ls' ∧
      At d ls' l.threadIndex (phase l.pending) := by
  obtain ⟨hact, hun, -⟩ := hreg
  obtain ⟨rfl, rfl⟩ : s.determ.childRegister (s.locals t) t p rest = (d, l) := Option.some.inj ho
  have hsame : s.determ.SameQueues { s.determ with threadIndex := s.determ.threadIndex + 1 } :=
    .congr rfl rfl rfl rfl rfl
  have hne : ls .active ≠ [] := fun hn => hact (hq.head_none (q := .active) |>.mpr hn)
  obtain ⟨hq', hs⟩ := (hq.frame hsame).registerThread t p hne hun
  exact ⟨_, hq', ⟨hs.active, hs.barrier, hs.token, hs.role, hs.tid, hs.generation, hs.exited, hs.front,
    hs.source⟩, .of_active (by simp [Determ.childRegister]) hseq.2.1⟩

/-- An instruction that leaves the queues alone. -/
theorem same_moves {ls : Queue → List ℕ} {my : ℕ} (hq : s.determ.Queued ls)
    (hmy : (s.locals t).threadIndex = my) (hat : At s.determ ls my (phase (i :: rest)))
    (hseq : Sequel (i :: rest)) (hi : touchesQueues i = false) (hx : i ≠ .procExit)
    (ho : s.own t rest i = some (d, l)) :
    d.Queued ls ∧ Determ.Shift my s.determ ls d ls ∧ At d ls my (phase l.pending) := by
  have hs := own_same ho hi
  refine ⟨hq.frame hs, hq.frame_shift hs, ?_⟩
  have hactive : my ∈ ls .active → At d ls my (phase l.pending) := by
    intro ha
    obtain ⟨js, hjs, hl⟩ := own_pending ho hx
    rw [hl]
    refine .of_active ha fun g hg => ?_
    rcases List.mem_append.mp hg with hg | hg
    · exact hjs.not_joinBlock (by rintro v w rfl; cases hi) (by rintro g rfl; cases hi) g hg
    · exact hseq.2.1 g hg
  cases i with
  | condBlock m =>
      simp only [own, hmy] at ho
      split at ho
      · rename_i hr
        exact hactive (hat hr)
      · rename_i hr
        cases ho
        exact fun hr' => absurd ((role_status (hs.role my)).symm.trans hr') hr
  | barrierBlock b g =>
      refine hactive (hat.resolve_right ?_)
      rintro ⟨-, hg⟩
      simp only [own] at ho
      split at ho
      · rename_i hne
        obtain ⟨be, hbe, hne⟩ := Option.any_eq_true _ _ |>.mp hne
        simp only [Determ.generation, hbe, Option.map_some, Option.some.injEq] at hg
        simp [hg] at hne
      · cases ho
  | joinToken =>
      refine hactive (hat.resolve_right fun hne => hne ?_)
      simp only [own, hmy] at ho
      split at ho
      · rename_i ht
        rw [← hq.seat]
        exact ht
      · cases ho
  | atomicBegin =>
      cases ho
      by_cases hb : ∃ b r, rest = .barrierArrive b :: r
      · obtain ⟨b, r, rfl⟩ := hb
        exact hat
      · refine hactive ?_
        have hp : phase (.atomicBegin :: rest) = .active := by
          unfold phase
          split <;> simp_all
        rwa [hp] at hat
  | childRegister | barrierArrive | joinBlock => cases hi
  | procExit => exact absurd rfl hx
  | _ => exact hactive hat

/-- An instruction moves its own thread where the next instruction says. -/
theorem own_moves {ls : Queue → List ℕ} {my : ℕ} (hq : s.determ.Queued ls)
    (hmy : (s.locals t).threadIndex = my) (hat : At s.determ ls my (phase (i :: rest)))
    (hseq : Sequel (i :: rest)) (hreg : s.Regular t i) (hc : ∀ p, i ≠ .childRegister p)
    (hx : i ≠ .procExit) (ho : s.own t rest i = some (d, l)) :
    ∃ ls', d.Queued ls' ∧ Determ.Shift my s.determ ls d ls' ∧ At d ls' my (phase l.pending) := by
  have hrest := hseq.2.1
  have hframe : ∀ {d'}, s.determ.SameQueues d' → (my ∈ ls .active) →
      ∃ ls', d'.Queued ls' ∧ Determ.Shift my s.determ ls d' ls' ∧ At d' ls' my (phase rest) :=
    fun hs ha => ⟨ls, hq.frame hs, hq.frame_shift hs, .of_active ha hrest⟩
  cases i with
  | childRegister p => exact absurd rfl (hc p)
  | putToken =>
      cases ho
      obtain ⟨hq', hs⟩ := hq.putToken (List.ne_nil_of_mem hat)
      exact ⟨ls, hq', hs my, .of_active hat hrest⟩
  | condLookup c =>
      cases ho
      refine hframe ?_ hat
      split
      · rename_i hn
        refine .condInit ?_
        change (s.determ.conds c).bind (·.head) = none
        rw [hn]
        rfl
      · exact .refl _
  | condInit c =>
      cases ho
      exact hframe (.condInit hreg) hat
  | barrierInit b n =>
      cases ho
      exact hframe (.setBarrier (e := ⟨n, 0, none, 0, 0⟩) (show none = _ from hreg.symm)
        fun hn => absurd rfl hn) hat
  | condEnter c m =>
      cases ho
      rw [hmy]
      obtain ⟨hq', hs⟩ := hq.condEnter c m (show my ∈ ls .active from hat)
      refine ⟨_, hq', hs, ?_⟩
      dsimp only
      rw [show phase rest = .condBlock from hseq.1]
      intro hr
      have hw := (hq'.fits (.cond c) my (by rw [Determ.Queued.moved_self]; simp)).1
      exact absurd (hw.symm.trans hr) (by rintro ⟨⟩)
  | condSignal c =>
      cases ho
      cases hh : (ls (.cond c)).head? with
      | none =>
          rw [Determ.Queued.condSignal_none ((hq.head _).trans hh)]
          exact hframe (.refl _) hat
      | some x =>
          obtain ⟨ls', hq', hs, -⟩ := hq.condSignal (List.ne_nil_of_mem hat) hh
          exact ⟨ls', hq', hs my, .of_active ((hs (my + 1)).active my hat (Nat.ne_of_lt my.lt_succ_self))
            hrest⟩
  | condBroadcast c =>
      cases ho
      by_cases hn : ls (.cond c) = []
      · rw [Determ.Queued.condBroadcast_none ((hq.head_none).mpr hn)]
        exact hframe (.refl _) hat
      · obtain ⟨ls', hq', hs, -⟩ := hq.condBroadcast (List.ne_nil_of_mem hat) hn
        exact ⟨ls', hq', hs my, .of_active ((hs (my + 1)).active my hat (Nat.ne_of_lt my.lt_succ_self))
            hrest⟩
  | barrierEnter b =>
      cases ho
      rw [hmy]
      dsimp only
      cases hb : s.determ.barriers b with
      | none =>
          have hd : s.determ.barrierEnter my b = (s.determ, false) := by
            unfold Determ.barrierEnter
            rw [hb]
          rw [hd]
          exact ⟨ls, hq, hq.frame_shift (.refl _), .inl hat⟩
      | some be =>
          by_cases hlast : be.threads + 1 = be.maxthreads
          · obtain ⟨ls', hq', hs, ha⟩ := hq.barrierOpen hat hb hlast
            refine ⟨ls', hq', hs, ?_⟩
            have hsnd : (s.determ.barrierEnter my b).2 = true := by
              unfold Determ.barrierEnter
              rw [hb]
              simp [hlast]
            rw [hsnd]
            exact .inl ha
          · obtain ⟨hq', hs⟩ := hq.barrierLeave hat hb hlast
            refine ⟨_, hq', hs, ?_⟩
            have hsnd : (s.determ.barrierEnter my b).2 = false := by
              unfold Determ.barrierEnter
              rw [hb]
              simp [hlast]
            rw [hsnd]
            exact .inr (by rw [Determ.Queued.moved_self]; simp)
  | barrierArrive b =>
      simp only [own, Option.map_eq_some_iff] at ho
      obtain ⟨be, hb, ho⟩ := ho
      have hhead : be.head = s.determ.head (.barrier b) := by
        change _ = (s.determ.barriers b).bind (·.head)
        rw [hb]
        rfl
      have hgen : s.determ.generation b = some be.generation := by
        simp [Determ.generation, hb]
      split at ho
      · rename_i hlast
        cases ho
        have hnone := hreg be hb hlast
        have ha : my ∈ ls .active := hat.resolve_right fun hm => by
          rw [hq.head_none.mp (hhead.symm.trans hnone)] at hm
          exact List.not_mem_nil hm
        exact hframe (.setBarrier hhead fun hn => absurd hnone hn) ha
      · cases ho
        have hs : s.determ.SameQueues (s.determ.setBarrier b { be with arrived := be.arrived + 1 }) :=
          .setBarrier hhead fun _ => hgen
        refine ⟨ls, hq.frame hs, hq.frame_shift hs, ?_⟩
        refine Or.imp_right (fun hm => ⟨hm, ?_⟩) hat
        simp [Determ.generation, Determ.setBarrier]
  | detJoin v w =>
      simp only [own, hmy] at ho
      obtain ⟨g, hg⟩ : ∃ g, (s.locals v).threadIndex = g := ⟨_, rfl⟩
      rw [hg] at ho
      split at ho
      · cases ho
        exact ⟨ls, hq.setReady (.inl hat), Determ.Queued.setReady_shift, .of_active hat hrest⟩
      · rename_i hne
        cases ho
        obtain ⟨hq', hs, hr⟩ := hq.join g (show my ∈ ls .active from hat)
        refine ⟨_, hq', hs, ?_, ?_, fun he => ?_⟩
        · have hrm := congrArg Prod.fst (hr my)
          rwa [if_pos rfl] at hrm
        · have hrm := congrArg (fun r => r.2.2) (hr my)
          rwa [if_pos rfl] at hrm
        · have hrg := congrArg Prod.fst (hr g)
          split at hrg
          · exact absurd (hrg.symm.trans he) (by rintro ⟨⟩)
          · exact absurd (hrg.symm.trans he) hne
  | joinBlock g =>
      obtain ⟨hj, hjg, hex⟩ := hat
      simp only [own, hmy] at ho
      have hs : s.determ.SameQueues (s.determ.incrFence 1) := .congr rfl rfl rfl rfl rfl
      split at ho
      · rename_i he
        cases ho
        have hsh : Determ.Shift my (s.determ.incrFence 1) ls ((s.determ.incrFence 1).setReady my) ls :=
          Determ.Queued.setReady_shift
        exact ⟨ls, (hq.frame hs).setReady (.inr hj), ⟨hsh.active, hsh.barrier, hsh.token, hsh.role,
          hsh.tid, hsh.generation, hsh.exited, hsh.front, hsh.source⟩, hex he⟩
      · rename_i hne
        cases ho
        have hs' : s.determ.SameQueues ((s.determ.incrFence 1).joinPass my) :=
          hs.trans ((hq.frame hs).joinPass_same (hq.joining my hj (hjg ▸ hne)))
        refine ⟨ls, hq.frame hs', hq.frame_shift hs', ?_, ?_, fun he => ?_⟩
        · exact (role_status (hs'.role my)).trans hj
        · exact (role_joinee (hs'.role my)).trans hjg
        · exact absurd ((role_status (hs'.role g)).symm.trans he) hne
  | detCancel v =>
      cases ho
      obtain ⟨x, hv⟩ : ∃ x, (s.locals v).threadIndex = x := ⟨_, rfl⟩
      rw [hv]
      by_cases hw : ∃ c, (s.determ.entries x).status = .condWaiting ∧
          (s.determ.entries x).cond = some c
      · obtain ⟨c, hw, hcx⟩ := hw
        obtain ⟨ls', hq', hs, ha, -⟩ := hq.cancel (List.ne_nil_of_mem hat) hw hcx
        exact ⟨ls', hq', hs my, .of_active (ha ▸ hat) hrest⟩
      · rw [Determ.Queued.cancel_other]
        · exact hframe (.refl _) hat
        · rw [or_iff_not_imp_left, not_not]
          intro hs
          cases hcx : (s.determ.entries x).cond with
          | none => rfl
          | some c => exact absurd ⟨c, hs, hcx⟩ hw
  | deregister =>
      cases ho
      rw [hmy]
      obtain ⟨ls', hq', hs, -⟩ := hq.deregisterThread (show my ∈ ls .active from hat)
      refine ⟨ls', hq', hs, ?_⟩
      dsimp only
      rw [show phase rest = .gone from hseq.1]
      trivial
  | _ => exact ⟨ls, same_moves hq hmy hat hseq rfl hx ho⟩

/-! ## The invariant -/

/-- Every live thread is where its next instruction says, and an entry belongs to one live thread. -/
structure Placed (s : State) (ls : Queue → List ℕ) : Prop where
  queued : s.determ.Queued ls
  owner : ∀ u, (s.locals u).live = true → (s.locals u).enrolled →
    (s.determ.entries (s.locals u).threadIndex).tid = u
  place : ∀ u, (s.locals u).live = true →
    At s.determ ls (s.locals u).threadIndex (phase (s.locals u).pending)
  sequel : ∀ u, (s.locals u).live = true → Sequel (s.locals u).pending

namespace Placed

variable {ls : Queue → List ℕ} {u : Tid}

theorem called {op : Op} (h : Placed s ls) (hl : (s.locals t).live = true)
    (hp : (s.locals t).pending = []) : Placed (s.called t op) ls := by
  have hreg : (s.locals t).enrolled := by
    rw [Local.enrolled, hp]
    exact ⟨nofun, nofun⟩
  have hat : (s.locals t).threadIndex ∈ ls .active := by
    have hpl := h.place t hl
    rwa [hp] at hpl
  exact
    { queued := h.queued
      owner := fun u hu hr => by
        rw [called_locals] at hu hr ⊢
        split
        · rename_i hut
          rw [hut]
          exact h.owner t hl hreg
        · rename_i hut
          rw [if_neg hut] at hu hr
          exact h.owner u hu hr
      place := fun u hu => by
        rw [called_locals] at hu ⊢
        split
        · rw [Local.goto_pending, program_phase]
          exact hat
        · rename_i hut
          rw [if_neg hut] at hu
          exact h.place u hu
      sequel := fun u hu => by
        rw [called_locals] at hu ⊢
        split
        · exact (program_sequel _ op).1
        · rename_i hut
          rw [if_neg hut] at hu
          exact h.sequel u hu }

/-- What an instruction leaves of another thread: it is there already, or it starts. -/
theorem other (h : Placed s ls) (hu : (s.others t i u).live = true) :
    ((s.others t i u).pending = (s.locals u).pending ∧
      (s.others t i u).threadIndex = (s.locals u).threadIndex ∧ (s.locals u).live = true) ∨
    ∃ p, (s.others t i u).pending = Local.childStart p := by
  rcases s.others_cases t i u with ho | ⟨ho, -⟩ | ⟨-, ho⟩ | ⟨-, ho⟩ <;> rw [ho] at hu ⊢
  · exact .inl ⟨rfl, rfl, hu⟩
  · exact .inl ⟨rfl, rfl, hu⟩
  · exact .inr ⟨_, rfl⟩
  · cases hu

/-- A step of `t` that moves the other threads as it may. -/
theorem move {ls' : Queue → List ℕ} (h : Placed s ls) (hq : d.Queued ls')
    (hs : Determ.Shift l.threadIndex s.determ ls d ls')
    (hne : ∀ u, u ≠ t → (s.locals u).live = true → (s.locals u).enrolled →
      (s.locals u).threadIndex ≠ l.threadIndex)
    (hown : l.live = true → l.enrolled → (d.entries l.threadIndex).tid = t)
    (hat : l.live = true → At d ls' l.threadIndex (phase l.pending))
    (hsq : l.live = true → Sequel l.pending) :
    Placed ⟨d, Function.update (s.others t i) t l, s.created i⟩ ls' where
  queued := hq
  owner u hu hr := by
    by_cases hut : u = t
    · subst hut
      simp only [Function.update_self] at hu hr ⊢
      exact hown hu hr
    · simp only [Function.update_of_ne hut] at hu hr ⊢
      rcases h.other hu with ⟨hp, hx, hlu⟩ | ⟨p, hp⟩
      · rw [Local.enrolled, hp] at hr
        rw [hx, hs.tid _ (hne u hut hlu hr)]
        exact h.owner u hlu hr
      · rw [Local.enrolled, hp] at hr
        exact absurd rfl hr.1
  place u hu := by
    by_cases hut : u = t
    · subst hut
      simp only [Function.update_self] at hu ⊢
      exact hat hu
    · simp only [Function.update_of_ne hut] at hu ⊢
      rcases h.other hu with ⟨hp, hx, hlu⟩ | ⟨p, hp⟩
      · rw [hp, hx]
        by_cases hr : (s.locals u).enrolled
        · exact At.shift h.queued hs (hne u hut hlu hr) (h.place u hlu)
        · rw [Local.enrolled, not_and_or, not_not, not_not] at hr
          rcases hr with hr | hr <;> rw [hr] <;> trivial
      · rw [hp]
        trivial
  sequel u hu := by
    by_cases hut : u = t
    · subst hut
      simp only [Function.update_self] at hu ⊢
      exact hsq hu
    · simp only [Function.update_of_ne hut] at hu ⊢
      rcases h.other hu with ⟨hp, -, hlu⟩ | ⟨p, hp⟩
      · rw [hp]
        exact h.sequel u hlu
      · rw [hp]
        simp [Local.childStart, Sequel, Follows]

/-- Two live threads have different indices. -/
theorem distinct (h : Placed s ls) (hl : (s.locals t).live = true) (hr : (s.locals t).enrolled)
    (hut : u ≠ t) (hu : (s.locals u).live = true) (hur : (s.locals u).enrolled) :
    (s.locals u).threadIndex ≠ (s.locals t).threadIndex := by
  intro he
  have ht := h.owner t hl hr
  rw [← he, h.owner u hu hur] at ht
  exact hut ht

/-- A thread whose next instruction is no registration and no exit has an entry. -/
theorem enrolled_of (hp : (s.locals t).pending = i :: rest) (hc : ∀ p, i ≠ .childRegister p)
    (hx : i ≠ .procExit) : (s.locals t).enrolled := by
  rw [Local.enrolled, hp]
  constructor <;> intro hph <;> unfold phase at hph <;> split at hph <;> simp_all

/-- Who moves threads is in the token queue, or at a barrier, or a joiner. -/
theorem touches (h : Placed s ls) (hl : (s.locals t).live = true)
    (hp : (s.locals t).pending = i :: rest) (hc : ∀ p, i ≠ .childRegister p)
    (hq : touchesQueues i = true) :
    (s.locals t).threadIndex ∈ ls .active ∨ (∃ b, (s.locals t).threadIndex ∈ ls (.barrier b)) ∨
      (s.determ.entries (s.locals t).threadIndex).status = .joining := by
  have hat := h.place t hl
  rw [hp] at hat
  cases i with
  | childRegister p => exact absurd rfl (hc p)
  | barrierArrive b => exact hat.imp_right fun hb => .inl ⟨b, hb⟩
  | joinBlock g => exact .inr (.inr hat.1)
  | putToken | condLookup | condInit | barrierInit | condEnter | condSignal | condBroadcast
  | barrierEnter | detJoin | detCancel | deregister => exact .inl hat
  | _ => cases hq

/-- An instruction of a live thread keeps the invariant. -/
theorem ran (h : Placed s ls) (hl : (s.locals t).live = true)
    (hp : (s.locals t).pending = i :: rest) (hreg : s.Regular t i)
    (ho : s.own t rest i = some (d, l)) :
    ∃ ls', Placed ⟨d, Function.update (s.others t i) t l, s.created i⟩ ls' ∧
      Determ.Shift l.threadIndex s.determ ls d ls' := by
  have hat := h.place t hl
  have hseq := h.sequel t hl
  rw [hp] at hat hseq
  by_cases hx : i = .procExit
  · subst hx
    cases ho
    refine ⟨ls, ⟨h.queued, fun u hu hr => ?_, fun u hu => ?_, fun u hu => ?_⟩,
      h.queued.frame_shift (.refl _)⟩ <;>
    · by_cases hut : u = t
      · subst hut
        simp at hu
      · simp only [Function.update_of_ne hut] at hu ⊢
        first
          | (simp only [Function.update_of_ne hut] at hr; exact h.owner u hu hr)
          | exact h.place u hu
          | exact h.sequel u hu
  obtain ⟨js, hjs, hlp⟩ := own_pending ho hx
  have hsq : Sequel l.pending := hlp ▸ hjs.sequel hseq
  by_cases hc : ∃ p, i = .childRegister p
  · obtain ⟨p, rfl⟩ := hc
    obtain ⟨ls', hq, hs, hat'⟩ := childRegister_moves h.queued hseq hreg ho
    obtain ⟨rfl, rfl⟩ : s.determ.childRegister (s.locals t) t p rest = (d, l) := Option.some.inj ho
    refine ⟨ls', h.move hq hs (fun u hut hu hr => hreg.2.2 u hut hu hr) (fun _ _ => ?_)
      (fun _ => hat') fun _ => hsq, hs⟩
    have hid := @Determ.registerThread_ident { s.determ with
      threadIndex := s.determ.threadIndex + 1 } s.determ.threadIndex s.determ.threadIndex p t
    rw [if_pos rfl] at hid
    exact congrArg Prod.fst hid
  · have hc' : ∀ p, i ≠ .childRegister p := fun p hip => hc ⟨p, hip⟩
    obtain ⟨ls', hq, hs, hat'⟩ := own_moves h.queued rfl hat hseq hreg hc' hx ho
    obtain ⟨hid, hidx, -⟩ := own_entries ho hc'
    have hr : (s.locals t).enrolled := enrolled_of hp hc' hx
    have htid : (s.determ.entries (s.locals t).threadIndex).tid = t := h.owner t hl hr
    rw [← hidx] at hs hat' htid
    refine ⟨ls', h.move hq hs (fun u hut hu hur => ?_)
      (fun _ _ => (ident_tid (hid _)).trans htid) (fun _ => hat') fun _ => hsq, hs⟩
    rw [hidx]
    exact h.distinct hl hr hut hu hur

/-- The threads keep to their places. -/
theorem step {w : State} {a : Label} (h : Placed s ls)
    (hg : ∀ t, a = .run t → ∀ i ∈ (s.locals t).pending.head?, s.Regular t i)
    (hs : s.step a = some w) : ∃ ls', Placed w ls' := by
  cases a with
  | call t op =>
      obtain ⟨hl, hp, rfl⟩ := step_call hs
      exact ⟨ls, h.called hl hp⟩
  | run t =>
      obtain ⟨i, rest, d, l, hl, hp, ho, rfl⟩ := step_run hs
      obtain ⟨ls', hw, -⟩ := h.ran hl hp (hg t rfl i (by simp [hp])) ho
      exact ⟨ls', hw⟩

end Placed

/-! ## The start -/

/-- The start of the program, or a ring of threads that have all started. -/
def Opening (s : State) : Prop := (∃ c, s = boot c) ∨ ∃ n c, 0 < n ∧ s = ring n c

theorem placed_boot (c : ℕ) : ∃ ls, Placed (boot c) ls := by
  let ls : Queue → List ℕ := Function.update (fun _ => []) .active [0]
  have hmem : ∀ {q i}, i ∈ ls q → q = .active ∧ i = 0 := by
    intro q i hi
    cases q <;> simp [ls] at hi
    exact ⟨rfl, hi⟩
  refine ⟨ls, ⟨⟨⟨fun q => ?_, fun q => ?_, fun hi hi' => ?_⟩, fun q => ?_, fun _ => ?_, rfl,
    fun q i hi => ?_, fun q i hi => ?_, fun i hi => ?_, fun i c _ hc => (by cases hc), fun c => ?_,
    fun i hi => ?_⟩, fun u hu _ => ?_, fun u _ => ?_, fun u _ => trivial⟩⟩
  · cases q with
    | active => exact (Cycle.chain_singleton _ _).mpr ⟨rfl, rfl⟩
    | _ => trivial
  · cases q <;> simp [ls]
  · rw [(hmem hi).1, (hmem hi').1]
  · cases q <;> rfl
  · simp [ls, boot]
  · obtain ⟨rfl, rfl⟩ := hmem hi
    exact ⟨by rintro ⟨⟩, by rintro ⟨⟩⟩
  · rw [(hmem hi).2]
    rfl
  · by_cases h : i = 0 <;> simp [boot, h] at hi
  · exact Nat.zero_le _
  · by_cases h : i = 0 <;> simp [boot, h] at hi
  · have h1 : u = 1 := of_decide_eq_true hu
    rw [h1]
    rfl
  · exact List.mem_cons_self

/-- The pointers of the ring. -/
theorem chain_ring {n : ℕ} (hn : 0 < n) (c : ℕ) : (List.range n : Cycle ℕ).Chain
    (Ring.Links (ring n c).determ.entries.nexts (ring n c).determ.entries.prevs) := by
  obtain ⟨m, rfl⟩ := Nat.exists_eq_add_of_le' hn
  refine (Cycle.chain_range_succ _ m).mpr ⟨⟨?_, ?_⟩, fun i hi => ⟨?_, ?_⟩⟩
  · exact Nat.mod_self (m + 1)
  · change (0 + (m + 1) - 1) % (m + 1) = m
    rw [Nat.zero_add, Nat.add_sub_cancel]
    exact Nat.mod_eq_of_lt m.lt_succ_self
  · exact Nat.mod_eq_of_lt (Nat.succ_lt_succ hi)
  · change (i + 1 + (m + 1) - 1) % (m + 1) = i
    rw [show i + 1 + (m + 1) - 1 = i + (m + 1) by omega, Nat.add_mod_right]
    exact Nat.mod_eq_of_lt (hi.trans m.lt_succ_self)

theorem placed_ring {n : ℕ} (hn : 0 < n) (c : ℕ) : ∃ ls, Placed (ring n c) ls := by
  let ls : Queue → List ℕ := Function.update (fun _ => []) .active (List.range n)
  have hmem : ∀ {q i}, i ∈ ls q → q = .active ∧ i < n := by
    intro q i hi
    cases q <;> simp [ls] at hi
    exact ⟨rfl, hi⟩
  have hstatus : ∀ i, ((ring n c).determ.entries i).status ≠ .joining := by
    intro i hi
    change (if i < n then Status.ready else .condWaiting) = .joining at hi
    split at hi <;> cases hi
  refine ⟨ls, ⟨⟨⟨fun q => ?_, fun q => ?_, fun hi hi' => ?_⟩, fun q => ?_, fun _ => ?_, rfl,
    fun q i hi => ?_, fun q i hi => rfl, fun i hi => absurd hi (hstatus i), fun i c _ hc => (by cases hc),
    fun c => ?_, fun i hi => absurd hi (hstatus i)⟩, fun u hu _ => ?_, fun u hu => ?_,
    fun u _ => trivial⟩⟩
  · cases q with
    | active => exact chain_ring hn c
    | _ => trivial
  · cases q with
    | active => exact List.nodup_range
    | _ => exact List.nodup_nil
  · rw [(hmem hi).1, (hmem hi').1]
  · cases q with
    | active =>
        obtain ⟨m, rfl⟩ := Nat.exists_eq_add_of_le' hn
        simp [ls, Determ.head, ring, boot, List.range_succ_eq_map]
    | _ => rfl
  · exact List.mem_range.mpr hn
  · obtain ⟨rfl, hlt⟩ := hmem hi
    have hr : ((ring n c).determ.entries i).status = .ready := by
      change (if i < n then Status.ready else .condWaiting) = .ready
      exact if_pos hlt
    refine ⟨fun he => ?_, fun he => ?_⟩
    · exact absurd (hr.symm.trans he) (by rintro ⟨⟩)
    · exact absurd (hr.symm.trans he) (by rintro ⟨⟩)
  · exact Nat.zero_le _
  · have h : 1 ≤ u ∧ u ≤ n := of_decide_eq_true hu
    have hlt : u - 1 < n := Nat.sub_one_lt_of_le h.1 h.2
    exact (if_pos hlt).trans (Nat.sub_add_cancel h.1)
  · have h : 1 ≤ u ∧ u ≤ n := of_decide_eq_true hu
    exact List.mem_range.mpr (Nat.sub_one_lt_of_le h.1 h.2)

theorem Opening.placed {s : State} (h : Opening s) : ∃ ls, Placed s ls := by
  obtain ⟨c, rfl⟩ | ⟨n, c, hn, rfl⟩ := h
  · exact placed_boot c
  · exact placed_ring hn c

end State

/-! ## Whole runs -/

end Dthreads.Scheduler
