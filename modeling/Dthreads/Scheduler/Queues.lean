import Dthreads.Ring.Rings
import Dthreads.Scheduler.Links

/-! # The queues of the scheduler

The token queue and the waiting lists of the condition variables and barriers are disjoint circular
lists; the functions of `list.h` insert, remove and splice. -/

namespace Dthreads.Scheduler

open Ring

/-- What an entry waits for. -/
def ThreadEntry.role (e : ThreadEntry) : Status × Option Obj × ℕ := (e.status, e.cond, e.joineeThreadIndex)

theorem role_status {e e' : ThreadEntry} (h : e'.role = e.role) : e'.status = e.status :=
  congrArg Prod.fst h

theorem role_cond {e e' : ThreadEntry} (h : e'.role = e.role) : e'.cond = e.cond :=
  congrArg (fun r => r.2.1) h

theorem role_joinee {e e' : ThreadEntry} (h : e'.role = e.role) :
    e'.joineeThreadIndex = e.joineeThreadIndex := congrArg (fun r => r.2.2) h

theorem ident_threadindex {e e' : ThreadEntry} (h : e'.ident = e.ident) :
    e'.threadindex = e.threadindex := congrArg (fun r => r.2.1) h

theorem ident_tid {e e' : ThreadEntry} (h : e'.ident = e.ident) : e'.tid = e.tid :=
  congrArg Prod.fst h

namespace Entries

def nexts (es : Entries) : ℕ → ℕ := fun i => (es i).next

def prevs (es : Entries) : ℕ → ℕ := fun i => (es i).prev

section Pointers

variable (es : Entries) (i j n : ℕ)

@[simp] theorem setNext_nexts : (es.setNext i n).nexts = Function.update es.nexts i n := by
  funext j
  by_cases h : j = i
  · subst h; simp [setNext, nexts]
  · simp [setNext, nexts, h]

@[simp] theorem setNext_prevs : (es.setNext i n).prevs = es.prevs := by
  funext j
  by_cases h : j = i
  · subst h; simp [setNext, prevs]
  · simp [setNext, prevs, h]

@[simp] theorem setPrev_nexts : (es.setPrev i n).nexts = es.nexts := by
  funext j
  by_cases h : j = i
  · subst h; simp [setPrev, nexts]
  · simp [setPrev, nexts, h]

@[simp] theorem setPrev_prevs : (es.setPrev i n).prevs = Function.update es.prevs i n := by
  funext j
  by_cases h : j = i
  · subst h; simp [setPrev, prevs]
  · simp [setPrev, prevs, h]

theorem update_nexts {e : ThreadEntry} (he : e.next = (es i).next) :
    nexts (Function.update es i e) = es.nexts := by
  funext j
  by_cases h : j = i
  · subst h; simp [nexts, he]
  · simp [nexts, h]

theorem update_prevs {e : ThreadEntry} (he : e.prev = (es i).prev) :
    prevs (Function.update es i e) = es.prevs := by
  funext j
  by_cases h : j = i
  · subst h; simp [prevs, he]
  · simp [prevs, h]

@[simp] theorem setNext_role : (es.setNext i n j).role = (es j).role := by
  by_cases h : j = i
  · subst h; simp [setNext, ThreadEntry.role]
  · simp [setNext, h]

@[simp] theorem setPrev_role : (es.setPrev i n j).role = (es j).role := by
  by_cases h : j = i
  · subst h; simp [setPrev, ThreadEntry.role]
  · simp [setPrev, h]

@[simp] theorem insertTail_role (head : Option ℕ) :
    ((es.insertTail i head).1 j).role = (es j).role := by
  cases head <;> simp [insertTail]

@[simp] theorem insertHead_role : (es.insertHead i n j).role = (es j).role := by
  simp [insertHead]

@[simp] theorem removeEntry_role (head : Option ℕ) :
    ((es.removeEntry i head).1 j).role = (es j).role := by
  unfold removeEntry
  dsimp only
  split <;> simp

@[simp] theorem moveWholeList_role (src : Option ℕ) :
    (es.moveWholeList i src j).role = (es j).role := by
  cases src <;> simp [moveWholeList]

theorem update_role {e : ThreadEntry} :
    (Function.update es i e j).role = if j = i then e.role else (es j).role := by
  by_cases h : j = i
  · subst h; simp
  · simp [h]

end Pointers

/-! ## The functions of `list.h` -/

variable {κ : Type*} {es : Entries} {ls : κ → List ℕ} {q q' : κ} {e z : ℕ}

/-- The lists `ls` are linked in `es`. -/
abbrev Linking (es : Entries) (ls : κ → List ℕ) : Prop := Rings es.nexts es.prevs ls

theorem Linking.update {x : ThreadEntry} (H : es.Linking ls) (hn : x.next = (es e).next)
    (hp : x.prev = (es e).prev) : Linking (Function.update es e x) ls := by
  rw [Linking, update_nexts es e hn, update_prevs es e hp]
  exact H

/-- A member that is taken out knows who comes next. -/
theorem Linking.next_mem_erase (H : es.Linking ls) (he : e ∈ ls q) (ha : (ls q).erase e ≠ []) :
    (es e).next ∈ (ls q).erase e := by
  obtain ⟨l₁, l₂, hq⟩ := List.append_of_mem he
  have hnext := H.next_mem he
  have hne : es.nexts e ≠ e := by
    intro hn
    have hp : es.prevs e = e := by
      have hp := (head?_of_chain (H.chain_rotate hq)).2
      rwa [hn] at hp
    obtain ⟨rfl, rfl⟩ := List.append_eq_nil_iff.mp ((H.alone_iff hq).mp ⟨hp, hn⟩)
    exact ha (by rw [hq]; simp)
  exact (List.mem_erase_of_ne hne).mpr hnext

variable [DecidableEq κ]

/-- Insertion at the tail. -/
theorem Linking.insertTail (H : es.Linking ls) (head : Option ℕ) (he : ∀ q, e ∉ ls q)
    (hh : head = (ls q).head?) :
    (es.insertTail e head).1.Linking (Function.update ls q (ls q ++ [e])) ∧
      (es.insertTail e head).2 = (ls q ++ [e]).head? := by
  cases head with
  | none =>
      rw [List.head?_eq_none_iff.mp hh.symm]
      refine ⟨?_, rfl⟩
      have hs := H.single (q := q) he
      simpa [Linking, Entries.insertTail] using hs
  | some z =>
      obtain ⟨hlast, hnext⟩ := H.prev_head hh.symm
      obtain ⟨X, hX⟩ := List.getLast?_eq_some_iff.mp hlast
      have hz : z ≠ e := by
        rintro rfl
        exact he q (List.mem_of_head? hh.symm)
      have ht : es.prevs z ≠ e := fun h => he q (h ▸ List.mem_of_getLast? hlast)
      refine ⟨?_, by simp [Entries.insertTail, List.head?_append, ← hh]⟩
      have hi := H.insert he hX
      rw [hnext, Function.update_comm ht.symm] at hi
      have hnil : ls q ++ [e] = X ++ es.prevs z :: e :: [] := by rw [hX]; simp
      rw [hnil]
      simpa [Linking, Entries.insertTail, nexts, prevs] using hi

theorem Linking.insertHead_at {l₁ l₂ : List ℕ} (H : es.Linking ls) (he : ∀ q, e ∉ ls q)
    (hq : ls q = l₁ ++ z :: l₂) :
    (es.insertHead e z).Linking (Function.update ls q (l₁ ++ z :: e :: l₂)) := by
  have hez : e ≠ z := by
    rintro rfl
    exact he q (by rw [hq]; simp)
  have hi := H.insert he hq
  rw [Function.update_comm hez] at hi
  simpa [Linking, Entries.insertHead, nexts, prevs] using hi

/-- Insertion behind a member. -/
theorem Linking.insertHead (H : es.Linking ls) (he : ∀ q, e ∉ ls q) (hz : z ∈ ls q) :
    ∃ X, (es.insertHead e z).Linking (Function.update ls q X) ∧ X.head? = (ls q).head? ∧
      ∀ i, i ∈ X ↔ i = e ∨ i ∈ ls q := by
  obtain ⟨l₁, l₂, hq⟩ := List.append_of_mem hz
  refine ⟨l₁ ++ z :: e :: l₂, H.insertHead_at he hq, ?_, fun i => ?_⟩
  · rw [hq]
    cases l₁ <;> rfl
  · rw [hq]
    simp only [List.mem_append, List.mem_cons]
    tauto

theorem Linking.removeEntry_at {l₁ l₂ : List ℕ} (H : es.Linking ls) (head : Option ℕ)
    (hq : ls q = l₁ ++ e :: l₂) :
    (es.removeEntry e head).1.Linking (Function.update ls q (l₁ ++ l₂)) := by
  have hrem := H.remove hq
  unfold Entries.removeEntry
  dsimp only
  split
  · rename_i hal
    have hn : Function.update es.nexts (es.prevs e) (es.nexts e) = es.nexts := by
      rw [Function.update_eq_self_iff, show es.prevs e = e from hal.1]
    have hp : Function.update es.prevs (es.nexts e) (es.prevs e) = es.prevs := by
      rw [Function.update_eq_self_iff, show es.nexts e = e from hal.2]
    rw [hn, hp] at hrem
    exact hrem
  · simpa [Linking, nexts, prevs] using hrem

/-- Removal of a member. -/
theorem Linking.removeEntry (H : es.Linking ls) (head : Option ℕ) (he : e ∈ ls q)
    (hh : head = (ls q).head?) :
    (es.removeEntry e head).1.Linking (Function.update ls q ((ls q).erase e)) ∧
      (es.removeEntry e head).2 = ((ls q).erase e).head? := by
  obtain ⟨l₁, l₂, hq⟩ := List.append_of_mem he
  have hl₁ : e ∉ l₁ := fun h =>
    List.disjoint_of_nodup_append (hq ▸ H.nodup q) h List.mem_cons_self
  have her : (ls q).erase e = l₁ ++ l₂ := by
    rw [hq, List.erase_append_right _ hl₁, List.erase_cons_head]
  rw [her]
  refine ⟨H.removeEntry_at head hq, ?_⟩
  unfold Entries.removeEntry
  dsimp only
  split
  · rename_i hal
    rw [(H.alone_iff hq).mp hal]
    rfl
  · rename_i hal
    rw [hh, hq]
    cases l₁ with
    | nil =>
        have hne : l₂ ≠ [] := fun h => hal ((H.alone_iff hq).mpr (by rw [h]; rfl))
        have hnext := (head?_of_chain (H.chain_rotate hq)).1
        rw [List.append_nil] at hnext
        cases l₂ with
        | nil => exact absurd rfl hne
        | cons x l₂ => simpa [nexts] using hnext.symm
    | cons x l₁ =>
        have hx : x ≠ e := fun h => hl₁ (h ▸ List.mem_cons_self)
        simp [hx]

theorem Linking.moveWholeList_at {l₁ l₂ : List ℕ} (H : es.Linking ls) (head : Option ℕ) (hne : q' ≠ q)
    (hq : ls q = l₁ ++ z :: l₂) (hh : head = (ls q').head?) :
    (es.moveWholeList z head).Linking
      (Function.update (Function.update ls q' []) q (l₁ ++ z :: (ls q' ++ l₂))) := by
  cases head with
  | none =>
      have hnil := List.head?_eq_none_iff.mp hh.symm
      have hls : Function.update (Function.update ls q' []) q (l₁ ++ z :: (ls q' ++ l₂)) = ls := by
        rw [hnil, List.nil_append, ← hq, ← hnil, Function.update_eq_self, Function.update_eq_self]
      rw [hls]
      exact H
  | some s =>
      have hm := H.move hne hq hh.symm
      have hz : z ∈ ls q := by rw [hq]; simp
      have hns : es.nexts z ≠ s := fun h => hne (H.disjoint (i := s) (List.mem_of_head? hh.symm)
        (h ▸ H.next_mem hz))
      simpa [Linking, Entries.moveWholeList, nexts, prevs] using hm

/-- Splicing a whole list behind a member of another one. -/
theorem Linking.moveWholeList (H : es.Linking ls) (head : Option ℕ) (hne : q' ≠ q) (hz : z ∈ ls q)
    (hh : head = (ls q').head?) :
    ∃ X, (es.moveWholeList z head).Linking (Function.update (Function.update ls q' []) q X) ∧
      X.head? = (ls q).head? ∧ ∀ i, i ∈ X ↔ i ∈ ls q' ∨ i ∈ ls q := by
  obtain ⟨l₁, l₂, hq⟩ := List.append_of_mem hz
  refine ⟨l₁ ++ z :: (ls q' ++ l₂), H.moveWholeList_at head hne hq hh, ?_, fun i => ?_⟩
  · rw [hq]
    cases l₁ <;> rfl
  · rw [hq]
    simp only [List.mem_append, List.mem_cons]
    tauto

end Entries

/-! ## The queues of the scheduler object -/

/-- The token queue and the waiting lists. -/
inductive Queue where
  | active
  | cond (c : Obj)
  | barrier (b : Obj)
  deriving DecidableEq

/-- What a member of the queue waits for. A thread that a barrier puts back into the token queue
keeps `STATUS_BARR_WAITING`, a joiner keeps `STATUS_JOINING` until it wakes up. -/
def Queue.Fits : Queue → Status × Option Obj × ℕ → Prop
  | .active, r => r.1 ≠ .exit ∧ r.1 ≠ .condWaiting
  | .cond c, r => r.1 = .condWaiting ∧ r.2.1 = some c
  | .barrier _, r => r.1 = .barrWaiting

namespace Determ

def head (d : Determ) : Queue → Option ℕ
  | .active => d.activelist
  | .cond c => (d.conds c).bind (·.head)
  | .barrier b => (d.barriers b).bind (·.head)

def waiters (d : Determ) (c : Obj) : ℕ := (d.conds c).elim 0 (·.waiters)

def generation (d : Determ) (b : Obj) : Option ℕ := (d.barriers b).map (·.generation)

/-- The queues, in order from their heads. `cancel` takes a thread from the list of a condition
variable and leaves the number of waiters. -/
structure Queued (d : Determ) (ls : Queue → List ℕ) : Prop where
  linking : d.entries.Linking ls
  head : ∀ q, d.head q = (ls q).head?
  token : ls .active ≠ [] → d.tokenpos ∈ ls .active
  seat : (d.entries d.tokenpos).threadindex = d.tokenpos
  fits : ∀ q, ∀ i ∈ ls q, q.Fits (d.entries i).role
  index : ∀ q, ∀ i ∈ ls q, (d.entries i).threadindex = i
  self : ∀ i, (d.entries i).status = .joining → (d.entries i).threadindex = i
  waiting : ∀ i c, (d.entries i).status = .condWaiting → (d.entries i).cond = some c →
    i ∈ ls (.cond c)
  waiters : ∀ c, (ls (.cond c)).length ≤ d.waiters c
  joining : ∀ i, (d.entries i).status = .joining →
    (d.entries (d.entries i).joineeThreadIndex).status ≠ .exit → i ∉ ls .active

/-- `L` is the queue `q`, as the pointers show it. -/
structure Lists (d : Determ) (q : Queue) (L : List ℕ) : Prop where
  chain : (L : Cycle ℕ).Chain (Ring.Links d.entries.nexts d.entries.prevs)
  nodup : L.Nodup
  head : d.head q = L.head?

theorem Queued.lists {d : Determ} {ls : Queue → List ℕ} (h : Queued d ls) (q : Queue) :
    d.Lists q (ls q) :=
  ⟨h.linking.chain q, h.linking.nodup q, h.head q⟩

theorem Lists.rings {d : Determ} {q : Queue} {L : List ℕ} (h : d.Lists q L) :
    Ring.Rings d.entries.nexts d.entries.prevs fun _ : Unit => L :=
  ⟨fun _ => h.chain, fun _ => h.nodup, fun _ _ => rfl⟩

/-- The pointers leave no choice of the queue. -/
theorem Lists.mem_of {d : Determ} {q : Queue} {L L' : List ℕ} {i : ℕ} (h : d.Lists q L)
    (h' : d.Lists q L') (hi : i ∈ L) : i ∈ L' := by
  obtain ⟨x, hx⟩ := Option.isSome_iff_exists.mp (List.isSome_head?.mpr (List.ne_nil_of_mem hi))
  have hx' : L'.head? = some x := (h'.head.symm.trans h.head).trans hx
  obtain ⟨n, -, hn⟩ := (h.rings.mem_iff_iterate (q := ()) hx le_rfl).mp hi
  exact (h'.rings.mem_iff_iterate (q := ()) hx' (le_max_left _ (n + 1))).mpr
    ⟨n, lt_of_lt_of_le n.lt_succ_self (le_max_right _ _), hn⟩

theorem lists_singleton {d : Determ} {q : Queue} {i : ℕ} (hn : (d.entries i).next = i)
    (hp : (d.entries i).prev = i) (hq : d.head q = some i) : d.Lists q [i] :=
  ⟨(Cycle.chain_singleton _ _).mpr ⟨hn, hp⟩, List.nodup_singleton i, hq⟩

/-- No thread uses the entry, and none waits for its thread. -/
def Unused (d : Determ) (k : ℕ) : Prop :=
  ((d.entries k).status = .exit ∨ (d.entries k).status = .condWaiting ∧ (d.entries k).cond = none) ∧
    ∀ i, (d.entries i).status = .joining → (d.entries i).joineeThreadIndex ≠ k

/-- What a step of the thread with index `my` does to the other threads: they stay where they are,
or go to the token queue, or are cancelled while they wait on a condition variable. -/
structure Shift (my : ℕ) (d : Determ) (ls : Queue → List ℕ) (d' : Determ) (ls' : Queue → List ℕ) :
    Prop where
  active : ∀ i ∈ ls .active, i ≠ my → i ∈ ls' .active
  barrier : ∀ b, ∀ i ∈ ls (.barrier b), i ≠ my → i ∈ ls' .active ∨ i ∈ ls' (.barrier b)
  token : d'.tokenpos = d.tokenpos ∨ d'.tokenpos ∈ ls .active ∨ d'.tokenpos ∈ ls' .active
  role : ∀ i, i ≠ my → (d'.entries i).role = (d.entries i).role ∨
    (∃ c, i ∈ ls (.cond c)) ∧
      ((d'.entries i).status = .ready ∧ i ∈ ls' .active ∨ (d'.entries i).status = .exit)
  tid : ∀ i, i ≠ my → (d'.entries i).tid = (d.entries i).tid
  generation : ∀ b, ls' (.barrier b) ≠ [] → d'.generation b = d.generation b
  exited : ∀ i, (d'.entries i).status = .exit → (d.entries i).status ≠ .exit → ls .active ≠ []
  front : ∀ c i, (ls (.cond c)).head? = some i → (ls' (.cond c)).head? = some i ∨
    ((d'.entries i).status = .ready ∧ i ∈ ls' .active) ∨ (d'.entries i).status = .exit
  source : ∀ q, ∀ i ∈ ls' q, i ≠ my → (∃ q', i ∈ ls q') ∨ (d.entries i).status = .joining

/-- The step leaves the queues alone. -/
structure SameQueues (d d' : Determ) : Prop where
  nexts : d'.entries.nexts = d.entries.nexts
  prevs : d'.entries.prevs = d.entries.prevs
  role : ∀ i, (d'.entries i).role = (d.entries i).role
  ident : ∀ i, (d'.entries i).ident = (d.entries i).ident
  head : ∀ q, d'.head q = d.head q
  waiters : ∀ c, d'.head (.cond c) ≠ none → d'.waiters c = d.waiters c
  generation : ∀ b, d'.head (.barrier b) ≠ none → d'.generation b = d.generation b
  tokenpos : d'.tokenpos = d.tokenpos

variable {d d' : Determ} {ls ls' : Queue → List ℕ} {my k : ℕ}

namespace SameQueues

/-- Counters and locks are no part of the queues. -/
theorem congr (he : d'.entries = d.entries) (ha : d'.activelist = d.activelist)
    (hc : d'.conds = d.conds) (hb : d'.barriers = d.barriers) (ht : d'.tokenpos = d.tokenpos) :
    SameQueues d d' where
  nexts := by rw [he]
  prevs := by rw [he]
  role i := by rw [he]
  ident i := by rw [he]
  head q := by cases q <;> simp only [Determ.head, ha, hc, hb]
  waiters c _ := by rw [Determ.waiters, Determ.waiters, hc]
  generation b _ := by rw [Determ.generation, Determ.generation, hb]
  tokenpos := ht

theorem refl (d : Determ) : SameQueues d d := congr rfl rfl rfl rfl rfl

theorem trans {d'' : Determ} (h : SameQueues d d') (h' : SameQueues d' d'') : SameQueues d d'' where
  nexts := h'.nexts.trans h.nexts
  prevs := h'.prevs.trans h.prevs
  role i := (h'.role i).trans (h.role i)
  ident i := (h'.ident i).trans (h.ident i)
  head q := (h'.head q).trans (h.head q)
  waiters c hc := (h'.waiters c hc).trans (h.waiters c (by rwa [← h'.head]))
  generation b hb := (h'.generation b hb).trans (h.generation b (by rwa [← h'.head]))
  tokenpos := h'.tokenpos.trans h.tokenpos

theorem setWait (d : Determ) (i : ℕ) (x : Bool) : SameQueues d (d.setWait i x) where
  nexts := Entries.update_nexts _ _ rfl
  prevs := Entries.update_prevs _ _ rfl
  role j := by
    refine (Entries.update_role _ _ _).trans ?_
    split
    · rename_i h
      rw [h]
      rfl
    · rfl
  ident j := Entries.update_ident _ _ _ rfl
  head q := by cases q <;> rfl
  waiters _ _ := rfl
  generation _ _ := rfl
  tokenpos := rfl

theorem decrFence (d : Determ) : SameQueues d d.decrFence := by
  unfold Determ.decrFence
  dsimp only
  split <;> exact congr rfl rfl rfl rfl rfl

theorem leaveFence (d : Determ) : SameQueues d d.leaveFence := by
  unfold Determ.leaveFence
  dsimp only
  split <;> exact congr rfl rfl rfl rfl rfl

theorem arriveFence (d : Determ) : SameQueues d d.arriveFence := by
  unfold Determ.arriveFence
  dsimp only
  split <;> exact congr rfl rfl rfl rfl rfl

theorem lockRelease (d : Determ) (m : Obj) : SameQueues d (d.lockRelease m) := by
  unfold Determ.lockRelease
  split
  · exact refl d
  · exact congr rfl rfl rfl rfl rfl

/-- A condition variable without waiters may be initialised again. -/
theorem condInit {c : Obj} (h : d.head (.cond c) = none) : SameQueues d (d.condInit c) where
  nexts := rfl
  prevs := rfl
  role _ := rfl
  ident _ := rfl
  head q := by
    cases q with
    | cond c' =>
        by_cases hc : c' = c
        · subst hc
          rw [h]
          simp [Determ.head, Determ.condInit, Determ.setCond]
        · simp [Determ.head, Determ.condInit, Determ.setCond, hc]
    | _ => rfl
  waiters c' hc' := by
    by_cases hc : c' = c
    · subst hc
      simp [Determ.head, Determ.condInit, Determ.setCond] at hc'
    · simp [Determ.waiters, Determ.condInit, Determ.setCond, hc]
  generation _ _ := rfl
  tokenpos := rfl

/-- A barrier entry keeps its list, and its generation unless the list is empty. -/
theorem setBarrier {b : Obj} {e : BarrierEntry} (h : e.head = d.head (.barrier b))
    (hg : e.head ≠ none → d.generation b = some e.generation) : SameQueues d (d.setBarrier b e) where
  nexts := rfl
  prevs := rfl
  role _ := rfl
  ident _ := rfl
  head q := by
    cases q with
    | barrier b' =>
        by_cases hb : b' = b
        · subst hb
          simpa [Determ.head, Determ.setBarrier] using h
        · simp [Determ.head, Determ.setBarrier, hb]
    | _ => rfl
  waiters _ _ := rfl
  generation b' hb' := by
    by_cases hb : b' = b
    · subst hb
      rw [hg (by simpa [Determ.head, Determ.setBarrier] using hb')]
      simp [Determ.generation, Determ.setBarrier]
    · simp [Determ.generation, Determ.setBarrier, hb]
  tokenpos := rfl

end SameQueues

namespace Queued

theorem head_none (h : Queued d ls) {q : Queue} : d.head q = none ↔ ls q = [] := by
  rw [h.head, List.head?_eq_none_iff]

/-- An entry that is not in use: the thread has exited, or there was none. -/
theorem unlisted (h : Queued d ls) {i : ℕ} (hi : (d.entries i).status = .exit ∨
    (d.entries i).status = .condWaiting ∧ (d.entries i).cond = none) (q : Queue) : i ∉ ls q := by
  intro hq
  have hf := h.fits q i hq
  cases q with
  | active =>
      rcases hi with he | ⟨he, -⟩
      · exact hf.1 he
      · exact hf.2 he
  | cond c =>
      obtain ⟨hs, hc⟩ := hf
      simp only [ThreadEntry.role] at hs hc
      rcases hi with he | ⟨-, he⟩ <;> simp_all
  | barrier b =>
      simp only [Queue.Fits, ThreadEntry.role] at hf
      rcases hi with he | ⟨he, -⟩ <;> simp_all

/-- A joiner that is not in the token queue is in no queue. -/
theorem unlisted_of_joining (h : Queued d ls) {i : ℕ} (hi : (d.entries i).status = .joining)
    (ha : i ∉ ls .active) (q : Queue) : i ∉ ls q := by
  intro hq
  have hf := h.fits q i hq
  cases q with
  | active => exact ha hq
  | cond c => exact absurd (hf.1.symm.trans hi) (by decide)
  | barrier b =>
      simp only [Queue.Fits, ThreadEntry.role] at hf
      exact absurd (hf.symm.trans hi) (by decide)

/-- A step that leaves the queues alone. -/
theorem frame (h : Queued d ls) (s : SameQueues d d') : Queued d' ls where
  linking := by
    rw [Entries.Linking, s.nexts, s.prevs]
    exact h.linking
  head q := (s.head q).trans (h.head q)
  token ha := s.tokenpos ▸ h.token ha
  seat := by
    rw [s.tokenpos]
    exact (ident_threadindex (s.ident _)).trans h.seat
  fits q i hi := by
    rw [s.role]
    exact h.fits q i hi
  index q i hi := (ident_threadindex (s.ident i)).trans (h.index q i hi)
  self i hi := (ident_threadindex (s.ident i)).trans (h.self i (role_status (s.role i) ▸ hi))
  waiting i c hs hc := h.waiting i c (role_status (s.role i) ▸ hs) (role_cond (s.role i) ▸ hc)
  waiters c := by
    by_cases hc : ls (.cond c) = []
    · rw [hc]
      exact Nat.zero_le _
    · rw [s.waiters c fun hn => hc (List.head?_eq_none_iff.mp ((h.head _).symm.trans
        ((s.head _).symm.trans hn)))]
      exact h.waiters c
  joining i hs hj := by
    rw [role_joinee (s.role i), role_status (s.role _)] at hj
    exact h.joining i (role_status (s.role i) ▸ hs) hj

/-- What an operation has to show when it changes the role of one entry. -/
theorem alter (h : Queued d ls) (hl : d'.entries.Linking ls') (hh : ∀ q, d'.head q = (ls' q).head?)
    (ht : ls' .active ≠ [] → d'.tokenpos ∈ ls' .active)
    (hs : (d'.entries d'.tokenpos).threadindex = d'.tokenpos)
    (hr : ∀ i, i ≠ k → (d'.entries i).role = (d.entries i).role)
    (hx : ∀ i, i ≠ k → (d'.entries i).threadindex = (d.entries i).threadindex)
    (hm : ∀ q i, i ≠ k → i ∈ ls' q →
      i ∈ ls q ∨ q.Fits (d.entries i).role ∧ (d.entries i).threadindex = i)
    (hk : ∀ q, k ∈ ls' q → q.Fits (d'.entries k).role)
    (hkx : (d'.entries k).threadindex = k)
    (hc : ∀ c, ∀ i ∈ ls (.cond c), i ≠ k → i ∈ ls' (.cond c))
    (hkc : ∀ c, (d'.entries k).status = .condWaiting → (d'.entries k).cond = some c →
      k ∈ ls' (.cond c))
    (hw : ∀ c, (ls' (.cond c)).length ≤ d'.waiters c)
    (hj : ∀ i, (d'.entries i).status = .joining →
      (d'.entries (d'.entries i).joineeThreadIndex).status ≠ .exit → i ∉ ls' .active) :
    Queued d' ls' where
  linking := hl
  head := hh
  token := ht
  seat := hs
  fits q i hi := by
    by_cases hik : i = k
    · subst hik
      exact hk q hi
    · rw [hr i hik]
      exact (hm q i hik hi).elim (h.fits q i) fun hf => hf.1
  index q i hi := by
    by_cases hik : i = k
    · subst hik
      exact hkx
    · rw [hx i hik]
      exact (hm q i hik hi).elim (h.index q i) fun hf => hf.2
  self i hs := by
    by_cases hik : i = k
    · subst hik
      exact hkx
    · rw [hx i hik]
      exact h.self i (role_status (hr i hik) ▸ hs)
  waiting i c hs hi := by
    by_cases hik : i = k
    · subst hik
      exact hkc c hs hi
    · exact hc c i (h.waiting i c (role_status (hr i hik) ▸ hs) (role_cond (hr i hik) ▸ hi)) hik
  waiters := hw
  joining := hj

theorem frame_shift (h : Queued d ls) (s : SameQueues d d') : Shift my d ls d' ls where
  active _ hi _ := hi
  barrier _ _ hi _ := .inr hi
  token := .inl s.tokenpos
  role i _ := .inl (s.role i)
  tid i _ := ident_tid (s.ident i)
  generation b hb := s.generation b fun hn => hb (List.head?_eq_none_iff.mp ((h.head _).symm.trans
    ((s.head _).symm.trans hn)))
  exited i he hne := absurd ((role_status (s.role i)).symm.trans he) hne
  front _ _ hi := .inl hi
  source q _ hi _ := .inl ⟨q, hi⟩

/-- A change that the queues do not show, after a shift. -/
theorem shift_trans {d'' : Determ} (h : Queued d' ls') (hs : Shift my d ls d' ls')
    (s : SameQueues d' d'') : Shift my d ls d'' ls' where
  active := hs.active
  barrier := hs.barrier
  token := by rw [s.tokenpos]; exact hs.token
  role i hi := by
    rw [s.role, role_status (s.role i)]
    exact hs.role i hi
  tid i hi := (ident_tid (s.ident i)).trans (hs.tid i hi)
  generation b hb := by
    refine (s.generation b fun hn => hb ?_).trans (hs.generation b hb)
    exact List.head?_eq_none_iff.mp ((h.head _).symm.trans ((s.head _).symm.trans hn))
  exited i he := hs.exited i ((role_status (s.role i)).symm.trans he)
  front c i hi := by
    rw [role_status (s.role i)]
    exact hs.front c i hi
  source := hs.source

/-- A thread leaves the token queue and goes to a waiting list, or nowhere. -/
theorem leave (h : Queued d ls) (hmy : my ∈ ls .active) (hl : d'.entries.Linking ls')
    (hh : ∀ q, d'.head q = (ls' q).head?)
    (ht : ls' .active ≠ [] → d'.tokenpos ∈ ls' .active)
    (ht' : d'.tokenpos = d.tokenpos ∨ d'.tokenpos ∈ ls .active)
    (hr : ∀ i, i ≠ my → (d'.entries i).role = (d.entries i).role)
    (hi : ∀ i, (d'.entries i).ident = (d.entries i).ident)
    (hq : ∀ q i, i ≠ my → (i ∈ ls' q ↔ i ∈ ls q))
    (ha : my ∉ ls' .active) (hk : ∀ q, my ∈ ls' q → q.Fits (d'.entries my).role)
    (hkc : ∀ c, (d'.entries my).status = .condWaiting → (d'.entries my).cond = some c →
      my ∈ ls' (.cond c))
    (hw : ∀ c, (ls' (.cond c)).length ≤ d'.waiters c)
    (hg : ∀ b, d'.generation b = d.generation b)
    (hf : ∀ c i, (ls (.cond c)).head? = some i → (ls' (.cond c)).head? = some i) :
    Queued d' ls' ∧ Shift my d ls d' ls' := by
  have hx : ∀ i, (d'.entries i).threadindex = (d.entries i).threadindex := fun i =>
    ident_threadindex (hi i)
  constructor
  · have hseat : (d'.entries d'.tokenpos).threadindex = d'.tokenpos := by
      rw [hx]
      rcases ht' with he | hm
      · rw [he, h.seat]
      · exact h.index _ _ hm
    refine h.alter (k := my) hl hh ht hseat hr (fun i _ => hx i) (fun q i hik hi => .inl ((hq q i hik).mp hi))
      hk ((hx my).trans (h.index _ my hmy)) (fun c i hi hik => (hq _ i hik).mpr hi) hkc hw
      fun i hs hj hia => ?_
    have hik : i ≠ my := fun he => ha (he ▸ hia)
    have hri := hr i hik
    rw [role_joinee hri] at hj
    have hold : (d.entries (d.entries i).joineeThreadIndex).status = .exit :=
      by_contra fun hne => h.joining i (role_status hri ▸ hs) hne ((hq .active i hik).mp hia)
    have hne : (d.entries i).joineeThreadIndex ≠ my := by
      intro he
      exact (h.fits _ _ hmy).1 (he ▸ hold)
    exact hj ((role_status (hr _ hne)).trans hold)
  · exact
      { active := fun i hi hik => (hq .active i hik).mpr hi
        barrier := fun b i hi hik => .inr ((hq _ i hik).mpr hi)
        token := ht'.imp_right .inl
        role := fun i hik => .inl (hr i hik)
        tid := fun i _ => ident_tid (hi i)
        generation := fun b _ => hg b
        exited := fun i _ _ => List.ne_nil_of_mem hmy
        front := fun c i hi => .inl (hf c i hi)
        source := fun q i hi hik => .inl ⟨q, (hq q i hik).mp hi⟩ }

end Queued

end Determ

end Dthreads.Scheduler
