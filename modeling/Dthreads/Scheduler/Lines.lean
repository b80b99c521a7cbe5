import Dthreads.Scheduler.Places
import Dthreads.Scheduler.Table

/-! # Lines of threads

What the queues are for: the threads take turns, and a thread that waits on a condition variable or a
barrier stands in the line of the object. The scheduler keeps these lines in one set of links. -/

namespace Dthreads.Scheduler

open Ring Transition

/-! ## The lines -/

/-- The token queue from the token on, the threads that wait on each condition variable and at each
barrier, longest waiting first, and the number of threads that each barrier waits for. -/
structure Lines where
  ring : List ℕ
  waiting : Obj → List ℕ
  blocked : Obj → List ℕ
  size : Obj → ℕ

/-- What the thread that has the token does. -/
inductive Turn where
  | pass
  | wait (c m : Obj)
  | signal (c : Obj)
  | broadcast (c : Obj)
  | barrier (b : Obj)
  | exit
  deriving DecidableEq, Repr

namespace Lines

def lists (a : Lines) : Queue → List ℕ
  | .active => a.ring
  | .cond c => a.waiting c
  | .barrier b => a.blocked b

def setRing (a : Lines) (r : List ℕ) : Lines := { a with ring := r }

def setWaiting (a : Lines) (c : Obj) (w : List ℕ) : Lines :=
  { a with waiting := Function.update a.waiting c w }

def setBlocked (a : Lines) (b : Obj) (w : List ℕ) : Lines :=
  { a with blocked := Function.update a.blocked b w }

@[simp] theorem lists_active (a : Lines) : a.lists .active = a.ring := rfl
@[simp] theorem lists_cond (a : Lines) (c : Obj) : a.lists (.cond c) = a.waiting c := rfl
@[simp] theorem lists_barrier (a : Lines) (b : Obj) : a.lists (.barrier b) = a.blocked b := rfl

@[simp] theorem setRing_lists (a : Lines) (r : List ℕ) :
    (a.setRing r).lists = Function.update a.lists .active r := by
  funext q
  cases q <;> rfl

@[simp] theorem setWaiting_lists (a : Lines) (c : Obj) (w : List ℕ) :
    (a.setWaiting c w).lists = Function.update a.lists (.cond c) w := by
  funext q
  cases q with
  | cond c' =>
      by_cases hc : c' = c
      · subst hc
        simp [setWaiting]
      · simp [setWaiting, hc]
  | _ => rfl

@[simp] theorem setBlocked_lists (a : Lines) (b : Obj) (w : List ℕ) :
    (a.setBlocked b w).lists = Function.update a.lists (.barrier b) w := by
  funext q
  cases q with
  | barrier b' =>
      by_cases hb : b' = b
      · subst hb
        simp [setBlocked]
      · simp [setBlocked, hb]
  | _ => rfl

theorem setWaiting_self {a : Lines} {c : Obj} {w : List ℕ} (h : a.waiting c = w) :
    a.setWaiting c w = a := by
  subst h
  rw [setWaiting, Function.update_eq_self]

theorem setRing_self {a : Lines} {r : List ℕ} (h : a.ring = r) : a.setRing r = a := by
  subst h
  rfl

/-- The lines after the turn of the first thread of the ring. -/
def after (a : Lines) (o : Turn) : Lines :=
  match a.ring with
  | [] => a
  | t :: rest =>
      match o with
      | .pass => a.setRing (rest ++ [t])
      | .wait c _ => (a.setRing rest).setWaiting c (a.waiting c ++ [t])
      | .signal c =>
          (a.setWaiting c (a.waiting c).tail).setRing (t :: ((a.waiting c).take 1 ++ rest))
      | .broadcast c => (a.setWaiting c []).setRing (t :: (a.waiting c ++ rest))
      | .barrier b =>
          if (a.blocked b).length + 1 = a.size b then
            (a.setBlocked b []).setRing (a.blocked b ++ rest ++ [t])
          else (a.setRing rest).setBlocked b (a.blocked b ++ [t])
      | .exit => a.setRing rest

theorem after_block {a : Lines} {t : ℕ} {rest : List ℕ} {b : Obj} (hr : a.ring = t :: rest)
    (hb : (a.blocked b).length + 1 ≠ a.size b) :
    a.after (.barrier b) = (a.setRing rest).setBlocked b (a.blocked b ++ [t]) := by
  unfold after
  rw [hr]
  exact if_neg hb

theorem after_release {a : Lines} {t : ℕ} {rest : List ℕ} {b : Obj} (hr : a.ring = t :: rest)
    (hb : (a.blocked b).length + 1 = a.size b) :
    a.after (.barrier b) = (a.setBlocked b []).setRing (a.blocked b ++ rest ++ [t]) := by
  unfold after
  rw [hr]
  exact if_pos hb

end Lines

/-! ## The scheduler -/

namespace Determ

theorem lockRelease_eq (d : Determ) (m : Obj) :
    d.lockRelease m = { d with locks := (d.lockRelease m).locks } := by
  unfold lockRelease
  split <;> rfl

theorem decrFence_eq (d : Determ) : d.decrFence =
    { d with maxthreads := dec d.maxthreads, isArrivalPhase := d.decrFence.isArrivalPhase } := by
  unfold decrFence
  dsimp only
  split <;> rfl

/-- The entry of a condition variable is made when it is first used. -/
def condLookup (d : Determ) (c : Obj) : Determ := if d.conds c = none then d.condInit c else d

/-- The turn of the thread that the token is at. -/
def turn (d : Determ) : Turn → Determ
  | .pass => d.putToken
  | .wait c m => (d.condLookup c).condEnter d.tokenpos c m
  | .signal c => (d.condLookup c).condSignal c
  | .broadcast c => (d.condLookup c).condBroadcast c
  | .barrier b => (d.barrierEnter d.tokenpos b).1
  | .exit => d.deregisterThread d.tokenpos

/-- The parent of the thread waits for it in `join`. -/
def joined (d : Determ) (x : ℕ) : Prop :=
  (d.entries (d.entries x).tidParent).status = .joining ∧
    (d.entries (d.entries x).tidParent).joineeThreadIndex = x

instance (d : Determ) (x : ℕ) : Decidable (d.joined x) := inferInstanceAs (Decidable (_ ∧ _))

/-- The thread does not leave the ring empty, its barrier is initialised, and nobody joins a thread
that exits. -/
def stays (d : Determ) : Turn → Prop
  | .pass | .signal _ | .broadcast _ => True
  | .wait _ _ => (d.entries d.tokenpos).next ≠ d.tokenpos
  | .exit => (d.entries d.tokenpos).next ≠ d.tokenpos ∧ ¬ d.joined d.tokenpos
  | .barrier b => ∃ be, d.barriers b = some be ∧
      (be.threads + 1 ≠ be.maxthreads → (d.entries d.tokenpos).next ≠ d.tokenpos)

end Determ

/-- What an entry looks like in a line. -/
def Queue.Stands : Queue → Status × Option Obj × ℕ → Prop
  | .active, r => r.1 = .ready ∨ r.1 = .barrWaiting
  | .cond c, r => r.1 = .condWaiting ∧ r.2.1 = some c
  | .barrier _, r => r.1 = .barrWaiting

theorem Queue.Stands.living {q : Queue} {r : Status × Option Obj × ℕ} (h : q.Stands r) :
    r.1 ≠ .exit := by
  cases q with
  | active => rcases h with h | h <;> rw [h] <;> exact nofun
  | cond c => rw [h.1]; exact nofun
  | barrier b => rw [show r.1 = _ from h]; exact nofun

namespace Determ

/-- The scheduler keeps the lines `a` of the threads `T`. -/
structure Lined (T : Finset ℕ) (d : Determ) (a : Lines) : Prop where
  linking : d.entries.Linking a.lists
  token : a.ring.head? = some d.tokenpos
  active : ∃ x ∈ a.ring, d.activelist = some x
  head : ∀ q, q ≠ .active → d.head q = (a.lists q).head?
  waiters : ∀ c, d.waiters c = (a.waiting c).length
  barrier : ∀ b be, d.barriers b = some be →
    be.maxthreads = a.size b ∧ be.threads = (a.blocked b).length
  maxthreads : d.maxthreads = a.ring.length
  stands : ∀ q, ∀ i ∈ a.lists q, q.Stands (d.entries i).role ∧ i ∈ T
  home : ∀ i ∈ T, (d.entries i).status ≠ .exit → ∃ q, i ∈ a.lists q
  alive : (T.filter fun i => (d.entries i).status ≠ .exit).card ≤ d.alivethreads

namespace Lined

variable {T : Finset ℕ} {d d' : Determ} {a a' : Lines} {t : ℕ} {rest : List ℕ}

/-- A living thread is in exactly one line. -/
theorem unique (h : Lined T d a) {i : ℕ} (hi : i ∈ T) (hs : (d.entries i).status ≠ .exit) :
    ∃! q, i ∈ a.lists q := by
  obtain ⟨q, hq⟩ := h.home i hi hs
  exact ⟨q, hq, fun q' hq' => h.linking.disjoint hq' hq⟩

theorem ring_eq (h : Lined T d a) : ∃ rest, a.ring = d.tokenpos :: rest :=
  List.head?_eq_some_iff.mp h.token

/-- The next thread in the ring. -/
theorem next_eq (h : Lined T d a) (hr : a.ring = t :: rest) :
    (rest ++ [t]).head? = some (d.entries t).next :=
  (head?_of_chain (by rw [← hr]; exact h.linking.chain .active)).1

theorem rest_ne_nil (h : Lined T d a) (hr : a.ring = d.tokenpos :: rest)
    (hn : (d.entries d.tokenpos).next ≠ d.tokenpos) : rest ≠ [] := by
  rintro rfl
  exact hn (Option.some.inj (h.next_eq hr)).symm

theorem head_rest (h : Lined T d a) (hr : a.ring = t :: rest) (hne : rest ≠ []) :
    rest.head? = some (d.entries t).next := by
  have hn := h.next_eq hr
  cases rest with
  | nil => exact absurd rfl hne
  | cons x rest => exact hn

/-- Entries stand where they stood, or move from one line to another, or are done. -/
theorem move (h : Lined T d a) (hl : d'.entries.Linking a'.lists)
    (ht : a'.ring.head? = some d'.tokenpos) (ha : ∃ x ∈ a'.ring, d'.activelist = some x)
    (hh : ∀ q, q ≠ .active → d'.head q = (a'.lists q).head?)
    (hw : ∀ c, d'.waiters c = (a'.waiting c).length)
    (hb : ∀ b be, d'.barriers b = some be →
      be.maxthreads = a'.size b ∧ be.threads = (a'.blocked b).length)
    (hm : d'.maxthreads = a'.ring.length)
    (hr : ∀ i, ((d'.entries i).role = (d.entries i).role ∧ ∀ q, i ∈ a'.lists q ↔ i ∈ a.lists q) ∨
      ((∃ q, i ∈ a.lists q) ∧ ∃ q, i ∈ a'.lists q ∧ q.Stands (d'.entries i).role) ∨
      ((d'.entries i).status = .exit ∧ ∀ q, i ∉ a'.lists q))
    (hal : (T.filter fun i => (d'.entries i).status ≠ .exit).card ≤ d'.alivethreads) :
    Lined T d' a' where
  linking := hl
  token := ht
  active := ha
  head := hh
  waiters := hw
  barrier := hb
  maxthreads := hm
  stands q i hi := by
    rcases hr i with ⟨hrole, hq⟩ | ⟨⟨q₀, hq₀⟩, q', hq', hs⟩ | ⟨-, hn⟩
    · rw [hrole]
      exact h.stands q i ((hq q).mp hi)
    · rw [hl.disjoint hi hq']
      exact ⟨hs, (h.stands q₀ i hq₀).2⟩
    · exact absurd hi (hn q)
  home i hi hne := by
    rcases hr i with ⟨hrole, hq⟩ | ⟨-, q', hq', -⟩ | ⟨he, -⟩
    · obtain ⟨q, hiq⟩ := h.home i hi ((role_status hrole) ▸ hne)
      exact ⟨q, (hq q).mpr hiq⟩
    · exact ⟨q', hq'⟩
    · exact absurd he hne
  alive := hal

/-- The same for a turn in which nobody exits. -/
theorem shift (h : Lined T d a) (hl : d'.entries.Linking a'.lists)
    (ht : a'.ring.head? = some d'.tokenpos) (ha : ∃ x ∈ a'.ring, d'.activelist = some x)
    (hh : ∀ q, q ≠ .active → d'.head q = (a'.lists q).head?)
    (hw : ∀ c, d'.waiters c = (a'.waiting c).length)
    (hb : ∀ b be, d'.barriers b = some be →
      be.maxthreads = a'.size b ∧ be.threads = (a'.blocked b).length)
    (hm : d'.maxthreads = a'.ring.length)
    (hr : ∀ i, ((d'.entries i).role = (d.entries i).role ∧ ∀ q, i ∈ a'.lists q ↔ i ∈ a.lists q) ∨
      ((∃ q, i ∈ a.lists q) ∧ ∃ q, i ∈ a'.lists q ∧ q.Stands (d'.entries i).role))
    (hal : d'.alivethreads = d.alivethreads) : Lined T d' a' := by
  refine h.move hl ht ha hh hw hb hm (fun i => (hr i).imp_right .inl) ?_
  have hsame : T.filter (fun i => (d'.entries i).status ≠ .exit) =
      T.filter fun i => (d.entries i).status ≠ .exit := Finset.filter_congr fun i _ => by
    rcases hr i with ⟨hrole, -⟩ | ⟨⟨q, hq⟩, q', -, hs⟩
    · rw [role_status hrole]
    · exact iff_of_true hs.living (h.stands q i hq).1.living
  rw [hsame, hal]
  exact h.alive

/-- The entry of one condition variable is rewritten. -/
theorem conds (h : Lined T d a) (d' : Determ) (a' : Lines) (c : Obj) (hc : d'.conds =
      Function.update d.conds c (some ⟨(a'.waiting c).length, (a'.waiting c).head?⟩))
    (hb : d'.barriers = d.barriers) (hl : ∀ q, q ≠ .active → q ≠ .cond c → a'.lists q = a.lists q) :
    (∀ q, q ≠ .active → d'.head q = (a'.lists q).head?) ∧
      ∀ c', d'.waiters c' = (a'.waiting c').length := by
  have hself : d'.conds c = some ⟨(a'.waiting c).length, (a'.waiting c).head?⟩ := by
    rw [hc, Function.update_self]
  have hother : ∀ c', c' ≠ c → d'.conds c' = d.conds c' := fun c' hcc => by
    rw [hc, Function.update_of_ne hcc]
  refine ⟨fun q hq => ?_, fun c' => ?_⟩
  · by_cases hqc : q = .cond c
    · subst hqc
      rw [Determ.head, hself]
      rfl
    · rw [hl q hq hqc, ← h.head q hq]
      cases q with
      | active => exact absurd rfl hq
      | cond c' => rw [Determ.head, hother c' fun hcc => hqc (by rw [hcc]), Determ.head]
      | barrier b => rw [Determ.head, hb, Determ.head]
  · by_cases hcc : c' = c
    · subst hcc
      rw [Determ.waiters, hself]
      rfl
    · rw [Determ.waiters, hother c' hcc, ← Determ.waiters, h.waiters]
      exact congrArg List.length (hl (.cond c') (by simp) (by simpa using hcc)).symm

/-- The entry of one barrier is rewritten. -/
theorem barriers (h : Lined T d a) (d' : Determ) (a' : Lines) (b : Obj) (be : BarrierEntry)
    (hc : d'.conds = d.conds)
    (hb : d'.barriers = Function.update d.barriers b (some be)) (hh : be.head = (a'.blocked b).head?)
    (ht : be.threads = (a'.blocked b).length) (hm : be.maxthreads = a.size b) (hz : a'.size = a.size)
    (hl : ∀ q, q ≠ .active → q ≠ .barrier b → a'.lists q = a.lists q) :
    (∀ q, q ≠ .active → d'.head q = (a'.lists q).head?) ∧
      (∀ c, d'.waiters c = (a'.waiting c).length) ∧
      ∀ b' be', d'.barriers b' = some be' →
        be'.maxthreads = a'.size b' ∧ be'.threads = (a'.blocked b').length := by
  have hself : d'.barriers b = some be := by rw [hb, Function.update_self]
  have hother : ∀ b', b' ≠ b → d'.barriers b' = d.barriers b' := fun b' hbb => by
    rw [hb, Function.update_of_ne hbb]
  refine ⟨fun q hq => ?_, fun c => ?_, fun b' be' hbe => ?_⟩
  · by_cases hqb : q = .barrier b
    · subst hqb
      rw [Determ.head, hself]
      exact hh
    · rw [hl q hq hqb, ← h.head q hq]
      cases q with
      | active => exact absurd rfl hq
      | cond c => rw [Determ.head, hc, Determ.head]
      | barrier b' => rw [Determ.head, hother b' fun hbb => hqb (by rw [hbb]), Determ.head]
  · rw [Determ.waiters, hc, ← Determ.waiters, h.waiters]
    exact congrArg List.length (hl (.cond c) (by simp) (by simp)).symm
  · rw [hz]
    by_cases hbb : b' = b
    · subst hbb
      rw [hself, Option.some.injEq] at hbe
      rw [← hbe]
      exact ⟨hm, ht⟩
    · rw [hother b' hbb] at hbe
      rw [show a'.blocked b' = a.blocked b' from hl (.barrier b') (by simp) (by simpa using hbb)]
      exact h.barrier b' be' hbe

/-! ## Turns -/

/-- The token goes to the next thread. -/
theorem pass (h : Lined T d a) : Lined T d.putToken (a.after .pass) := by
  obtain ⟨rest, hr⟩ := h.ring_eq
  have ha : a.after .pass = a.setRing (rest ++ [d.tokenpos]) := by
    unfold Lines.after
    rw [hr]
  have hmem : ∀ q i, i ∈ (a.after .pass).lists q ↔ i ∈ a.lists q := by
    intro q i
    rw [ha, Lines.setRing_lists]
    by_cases hq : q = .active
    · subst hq
      rw [Function.update_self, Lines.lists_active, hr]
      simp [or_comm]
    · rw [Function.update_of_ne hq]
  refine h.shift ?_ ?_ ?_ (fun q hq => ?_) ?_ ?_ ?_ (fun i => .inl ⟨rfl, fun q => hmem q i⟩) rfl
  · rw [ha, Lines.setRing_lists]
    exact h.linking.rotate (show a.lists .active = [d.tokenpos] ++ rest from hr)
  · rw [ha]
    exact h.next_eq hr
  · obtain ⟨x, hx, hax⟩ := h.active
    exact ⟨x, (hmem .active x).mpr hx, hax⟩
  · rw [ha, Lines.setRing_lists, Function.update_of_ne hq]
    exact h.head q hq
  · rw [ha]
    exact h.waiters
  · rw [ha]
    exact h.barrier
  · rw [ha]
    refine h.maxthreads.trans ?_
    rw [hr, Lines.setRing, List.length_append, List.length_cons, List.length_singleton]

/-- A condition variable that is used for the first time. -/
theorem lookup (h : Lined T d a) (c : Obj) : Lined T (d.condLookup c) a := by
  unfold condLookup
  split
  · rename_i hn
    have hc : a.waiting c = [] := by
      rw [← List.head?_eq_none_iff, show a.waiting c = a.lists (.cond c) from rfl,
        ← h.head (.cond c) nofun, Determ.head, hn]
      rfl
    obtain ⟨hh, hw⟩ := h.conds (d.condInit c) a c (by rw [hc]; rfl) rfl
      fun _ _ _ => rfl
    exact h.shift h.linking h.token h.active hh hw h.barrier h.maxthreads
      (fun i => .inl ⟨rfl, fun q => Iff.rfl⟩) rfl
  · exact h

/-- The other threads stand where they stood. -/
theorem moved_iff (hr : a.ring = t :: rest) {ls : Queue → List ℕ} {q₀ : Queue} (hq₀ : q₀ ≠ .active)
    (hls : ls = Function.update (Function.update a.lists .active rest) q₀ (a.lists q₀ ++ [t])) {i : ℕ}
    (hi : i ≠ t) (q : Queue) : i ∈ ls q ↔ i ∈ a.lists q := by
  rw [hls]
  by_cases hq : q = q₀
  · subst hq
    rw [Function.update_self, List.mem_append, List.mem_singleton]
    exact or_iff_left hi
  · rw [Function.update_of_ne hq]
    by_cases hqa : q = .active
    · subst hqa
      rw [Function.update_self]
      change i ∈ rest ↔ i ∈ a.ring
      rw [hr, List.mem_cons]
      exact (or_iff_right hi).symm
    · rw [Function.update_of_ne hqa]

/-- The active list goes on without the first thread. -/
theorem leave (h : Lined T d a) (hr : a.ring = t :: rest) (hne : rest ≠ []) :
    ∃ x ∈ rest, (d.entries.removeEntry t d.activelist).2 = some x := by
  obtain ⟨x, hx, hax⟩ := h.active
  unfold Entries.removeEntry
  dsimp only
  split
  · rename_i hal
    exact absurd ((h.linking.alone_iff (show a.lists .active = [] ++ t :: rest from hr)).mp hal) hne
  · rw [hax]
    split
    · exact ⟨_, List.mem_of_head? (h.head_rest hr hne), rfl⟩
    · rename_i hxt
      exact ⟨x, (List.mem_cons.mp (hr ▸ hx)).resolve_left fun he => hxt (by rw [he]), rfl⟩

/-- The first thread goes from the ring to the end of another line. -/
theorem enqueue (h : Lined T d a) (hr : a.ring = t :: rest) (hne : rest ≠ []) {q₀ : Queue}
    (hq₀ : q₀ ≠ .active) {head : Option ℕ} (hh : head = (a.lists q₀).head?)
    (hl : a'.lists =
      Function.update (Function.update a.lists .active rest) q₀ (a.lists q₀ ++ [t])) :
    ∃ es x es', d.entries.removeEntry t d.activelist = (es, some x) ∧ x ∈ rest ∧
      es.insertTail t head = (es', (a'.lists q₀).head?) ∧
      ∀ e : ThreadEntry, e.next = (es' t).next → e.prev = (es' t).prev → q₀.Stands e.role →
        Entries.Linking (Function.update es' t e) a'.lists ∧
        ∀ i, ((Function.update es' t e i).role = (d.entries i).role ∧
            ∀ q, i ∈ a'.lists q ↔ i ∈ a.lists q) ∨
          ((∃ q, i ∈ a.lists q) ∧
            ∃ q, i ∈ a'.lists q ∧ q.Stands (Function.update es' t e i).role) := by
  have hr' : a.lists .active = [] ++ t :: rest := hr
  obtain ⟨y, hy, hey⟩ := h.leave hr hne
  have hlink := h.linking.removeEntry_at d.activelist hr'
  obtain ⟨hlink', hhead'⟩ := hlink.insertTail (q := q₀) head (h.linking.not_mem_remove hr')
    (by rw [Function.update_of_ne hq₀]; exact hh)
  rw [Function.update_of_ne hq₀] at hlink' hhead'
  have hq₀l : a'.lists q₀ = a.lists q₀ ++ [t] := by rw [hl, Function.update_self]
  have hrole : ∀ i, ((Entries.insertTail (d.entries.removeEntry t d.activelist).1 t head).1 i).role =
      (d.entries i).role := fun i => by
    rw [Entries.insertTail_role, Entries.removeEntry_role]
  refine ⟨_, y, _, Prod.ext rfl hey, hy, Prod.ext rfl (by rw [hhead', hq₀l]), fun e hn hp hs =>
    ⟨by rw [hl]; exact hlink'.update hn hp, fun i => ?_⟩⟩
  by_cases hi : i = t
  · subst hi
    refine .inr ⟨⟨.active, by rw [hr']; exact List.mem_cons_self⟩, q₀, ?_, ?_⟩
    · rw [hq₀l]
      simp
    · rw [Function.update_self]
      exact hs
  · exact .inl ⟨by rw [Function.update_of_ne hi]; exact hrole i, moved_iff hr hq₀ hl hi⟩

/-- The first thread of the ring waits on a condition variable. -/
theorem wait (h : Lined T d a) (c m : Obj) (hn : (d.entries d.tokenpos).next ≠ d.tokenpos) :
    Lined T (d.condEnter d.tokenpos c m) (a.after (.wait c m)) := by
  obtain ⟨rest, hr⟩ := h.ring_eq
  have hne := h.rest_ne_nil hr hn
  have ha : a.after (.wait c m) = (a.setRing rest).setWaiting c (a.waiting c ++ [d.tokenpos]) := by
    unfold Lines.after
    rw [hr]
  have hlists : (a.after (.wait c m)).lists = Function.update (Function.update a.lists .active rest)
      (.cond c) (a.lists (.cond c) ++ [d.tokenpos]) := by
    rw [ha, Lines.setWaiting_lists, Lines.setRing_lists]
    rfl
  have hwc : (a.after (.wait c m)).waiting c = a.waiting c ++ [d.tokenpos] := by
    rw [ha]
    exact Function.update_self ..
  have hhead : ((d.conds c).getD ⟨0, none⟩).head = (a.lists (.cond c)).head? := by
    rw [← h.head (.cond c) nofun, Determ.head]
    cases d.conds c <;> rfl
  have hwait : ((d.conds c).getD ⟨0, none⟩).waiters = (a.waiting c).length := by
    rw [← h.waiters c, Determ.waiters]
    cases d.conds c <;> rfl
  obtain ⟨es, x, es', hes, hx, hes', hent⟩ := h.enqueue hr hne (by simp) hhead hlists
  obtain ⟨hlink, hrole⟩ := hent { es' d.tokenpos with cond := some c, status := .condWaiting } rfl rfl
    ⟨rfl, rfl⟩
  obtain ⟨hent, hact, hconds, hbar, htok, hmax, hal⟩ :
      (d.condEnter d.tokenpos c m).entries = Function.update es' d.tokenpos
        { es' d.tokenpos with cond := some c, status := .condWaiting } ∧
      (d.condEnter d.tokenpos c m).activelist = some x ∧
      (d.condEnter d.tokenpos c m).conds = Function.update d.conds c
        (some ⟨(a.waiting c).length + 1, ((a.after (.wait c m)).lists (.cond c)).head?⟩) ∧
      (d.condEnter d.tokenpos c m).barriers = d.barriers ∧
      (d.condEnter d.tokenpos c m).tokenpos = (d.entries d.tokenpos).next ∧
      (d.condEnter d.tokenpos c m).maxthreads = dec d.maxthreads ∧
      (d.condEnter d.tokenpos c m).alivethreads = d.alivethreads := by
    rw [← hwait]
    unfold condEnter
    rw [hes]
    dsimp only
    rw [hes', lockRelease_eq, decrFence_eq]
    exact ⟨rfl, rfl, rfl, rfl, rfl, rfl, rfl⟩
  obtain ⟨hh, hw⟩ := h.conds (d.condEnter d.tokenpos c m) (a.after (.wait c m)) c
    (by rw [hconds, hwc, List.length_append, List.length_singleton, Lines.lists_cond, hwc]) hbar
    fun q hq hqc => by rw [hlists, Function.update_of_ne hqc, Function.update_of_ne hq]
  refine h.shift (by rw [hent]; exact hlink) ?_ ⟨x, ?_, hact⟩ hh hw ?_ ?_ (fun i => ?_) hal
  · rw [htok, ha]
    exact h.head_rest hr hne
  · rw [ha]
    exact hx
  · rw [ha, hbar]
    exact h.barrier
  · rw [hmax, h.maxthreads, hr, ha]
    exact dec_of_pos (Nat.succ_pos _)
  · rw [hent]
    exact hrole i

/-- Threads come from the line of a condition variable to the place behind the first thread. -/
theorem wake (h : Lined T d a) {c : Obj} {V W : List ℕ} (hr : a.ring = t :: rest)
    (hw : a.waiting c = V ++ W) (ha : a' = (a.setWaiting c W).setRing (t :: (V ++ rest)))
    (hlink : d'.entries.Linking a'.lists) (hrole : ∀ i, if i ∈ V then (d'.entries i).status = .ready
      else (d'.entries i).role = (d.entries i).role)
    (hc : d'.conds = Function.update d.conds c (some ⟨W.length, W.head?⟩))
    (hact : d'.activelist = d.activelist) (hb : d'.barriers = d.barriers)
    (ht : d'.tokenpos = d.tokenpos) (hm : d'.maxthreads = d.maxthreads + V.length)
    (hal : d'.alivethreads = d.alivethreads) : Lined T d' a' := by
  have hlists : a'.lists = Function.update (Function.update a.lists (.cond c) W) .active
      (t :: (V ++ rest)) := by
    rw [ha, Lines.setRing_lists, Lines.setWaiting_lists]
  have hwc : a'.waiting c = W := by
    rw [ha]
    exact Function.update_self ..
  have hring : a'.ring = t :: (V ++ rest) := by rw [ha]; rfl
  obtain ⟨hh, hw'⟩ := h.conds d' a' c (by rw [hc, hwc]) hb fun q hq hqc => by
    rw [hlists, Function.update_of_ne hq, Function.update_of_ne hqc]
  refine h.shift hlink ?_ ?_ hh hw' ?_ ?_ (fun i => ?_) hal
  · rw [ht, hring, ← h.token, hr]
    rfl
  · obtain ⟨y, hy, hay⟩ := h.active
    refine ⟨y, ?_, hact.trans hay⟩
    rw [hr] at hy
    rw [hring]
    simp only [List.mem_cons, List.mem_append] at hy ⊢
    tauto
  · rw [ha, hb]
    exact h.barrier
  · rw [hm, h.maxthreads, hr, hring]
    simp only [List.length_cons, List.length_append]
    omega
  · have hri := hrole i
    by_cases hi : i ∈ V
    · rw [if_pos hi] at hri
      refine .inr ⟨⟨.cond c, ?_⟩, .active, ?_, .inl hri⟩
      · rw [Lines.lists_cond, hw]
        exact List.mem_append_left _ hi
      · rw [Lines.lists_active, hring]
        simp [hi]
    · rw [if_neg hi] at hri
      refine .inl ⟨hri, fun q => ?_⟩
      rw [hlists]
      by_cases hq : q = .active
      · subst hq
        rw [Function.update_self, Lines.lists_active, hr]
        simp [hi]
      · rw [Function.update_of_ne hq]
        by_cases hqc : q = .cond c
        · subst hqc
          rw [Function.update_self, Lines.lists_cond, hw]
          simp [hi]
        · rw [Function.update_of_ne hqc]

/-- The entry of a condition variable that threads wait on. -/
theorem cond_some (h : Lined T d a) {c : Obj} {x : ℕ} {W : List ℕ} (hw : a.waiting c = x :: W) :
    d.conds c = some ⟨W.length + 1, some x⟩ := by
  have hhead : (d.conds c).bind (·.head) = some x := by
    have hh := h.head (.cond c) (by simp)
    rwa [Lines.lists_cond, hw] at hh
  obtain ⟨⟨w, hd⟩, hce, hch⟩ := Option.bind_eq_some_iff.mp hhead
  obtain rfl : hd = some x := hch
  have hlen := h.waiters c
  rw [Determ.waiters, hce, hw] at hlen
  obtain rfl : w = W.length + 1 := hlen
  exact hce

/-- The thread that has waited longest comes behind the first thread of the ring. -/
theorem signal (h : Lined T d a) (c : Obj) : Lined T (d.condSignal c) (a.after (.signal c)) := by
  obtain ⟨rest, hr⟩ := h.ring_eq
  have ha : a.after (.signal c) = (a.setWaiting c (a.waiting c).tail).setRing
      (d.tokenpos :: ((a.waiting c).take 1 ++ rest)) := by
    unfold Lines.after
    rw [hr]
  cases hw : a.waiting c with
  | nil =>
      have hsame : a.after (.signal c) = a := by
        rw [ha, hw, List.tail_nil, Lines.setWaiting_self hw]
        exact Lines.setRing_self hr
      rw [hsame, Queued.condSignal_none]
      · exact h
      · rw [h.head (.cond c) (by simp), Lines.lists_cond, hw]
        rfl
  | cons x W =>
      rw [hw] at ha
      have hce := h.cond_some hw
      have hxW : a.lists (.cond c) = [] ++ x :: W := hw
      obtain ⟨hlink, hhead⟩ := h.linking.removeEntry (q := .cond c) (some x)
        (by rw [hxW]; exact List.mem_cons_self) (by rw [hxW]; rfl)
      rw [hxW, List.nil_append, List.erase_cons_head] at hlink hhead
      have hlink' := hlink.insertHead_at (h.linking.not_mem_remove hxW)
        (show Function.update a.lists (.cond c) W .active = [] ++ d.tokenpos :: rest by
          rw [Function.update_of_ne (by simp)]; exact hr)
      have hrole : ∀ i, ((d.entries.removeEntry x (some x)).1.insertHead x d.tokenpos i).role =
          (d.entries i).role := fun i => by
        rw [Entries.insertHead_role, Entries.removeEntry_role]
      generalize hes : d.entries.removeEntry x (some x) = p at hhead hlink' hrole
      obtain ⟨es, hd⟩ := p
      obtain rfl : hd = W.head? := hhead
      have hsig : d.condSignal c = (({ d with
          entries := Function.update (es.insertHead x d.tokenpos) x
            { es.insertHead x d.tokenpos x with cond := none, status := .ready } }).setCond c
          ⟨W.length, W.head?⟩).incrFence 1 := by
        unfold condSignal
        rw [hce]
        dsimp only
        rw [hes]
      have hent : (d.condSignal c).entries = Function.update (es.insertHead x d.tokenpos) x
          { es.insertHead x d.tokenpos x with cond := none, status := .ready } := by
        rw [hsig]
        rfl
      refine h.wake (c := c) hr (by rw [hw]; rfl) ha ?_ (fun i => ?_) (by rw [hsig]; rfl)
        (by rw [hsig]; rfl) (by rw [hsig]; rfl) (by rw [hsig]; rfl) (by rw [hsig]; rfl)
        (by rw [hsig]; rfl)
      · rw [hent, ha, Lines.setRing_lists, Lines.setWaiting_lists]
        exact hlink'.update rfl rfl
      · rw [hent]
        split
        · rename_i hi
          rw [List.mem_singleton.mp hi, Function.update_self]
        · rename_i hi
          rw [Function.update_of_ne fun he => hi (List.mem_singleton.mpr he)]
          exact hrole i

/-- All threads that wait come behind the first thread of the ring, in their order. -/
theorem broadcast (h : Lined T d a) (c : Obj) :
    Lined T (d.condBroadcast c) (a.after (.broadcast c)) := by
  obtain ⟨rest, hr⟩ := h.ring_eq
  have ha : a.after (.broadcast c) =
      (a.setWaiting c []).setRing (d.tokenpos :: (a.waiting c ++ rest)) := by
    unfold Lines.after
    rw [hr]
  cases hw : a.waiting c with
  | nil =>
      have hsame : a.after (.broadcast c) = a := by
        rw [ha, Lines.setWaiting_self hw, hw]
        exact Lines.setRing_self hr
      rw [hsame, Queued.condBroadcast_none]
      · exact h
      · rw [h.head (.cond c) (by simp), Lines.lists_cond, hw]
        rfl
  | cons x W =>
      have hce := h.cond_some hw
      have hhead : (a.lists (.cond c)).head? = some x := by rw [Lines.lists_cond, hw]; rfl
      have hlen : (a.lists (.cond c)).length = W.length + 1 := by rw [Lines.lists_cond, hw]; rfl
      obtain ⟨hn, hp⟩ := Queued.readyFrom_links d.entries (W.length + 1) x
      have hlink : (readyFrom d.entries (W.length + 1) x).Linking a.lists := by
        rw [Entries.Linking, hn, hp]
        exact h.linking
      have hlink' := hlink.moveWholeList_at (some x) (show Queue.cond c ≠ .active by simp)
        (show a.lists .active = [] ++ d.tokenpos :: rest from hr) hhead.symm
      have hbro : d.condBroadcast c = (({ d with
          entries := (readyFrom d.entries (W.length + 1) x).moveWholeList d.tokenpos
            (some x) }).setCond c ⟨0, none⟩).incrFence (W.length + 1) := by
        unfold condBroadcast
        rw [hce]
        dsimp only
        rw [if_neg (Nat.succ_ne_zero _)]
      have hrole : ∀ i, (((readyFrom d.entries (W.length + 1) x).moveWholeList d.tokenpos
          (some x)) i).role = if i ∈ a.waiting c then
            (.ready, none, (d.entries i).joineeThreadIndex) else (d.entries i).role := fun i => by
        rw [Entries.moveWholeList_role, Queued.readyFrom_role]
        exact if_congr (h.linking.mem_iff_iterate hhead hlen.le).symm rfl rfl
      refine h.wake (c := c) (W := []) hr (List.append_nil _).symm ha ?_ (fun i => ?_)
        (by rw [hbro]; rfl) (by rw [hbro]; rfl) (by rw [hbro]; rfl) (by rw [hbro]; rfl)
        (by rw [hbro, hw]; rfl) (by rw [hbro]; rfl)
      · rw [hbro, ha, Lines.setRing_lists, Lines.setWaiting_lists]
        exact hlink'
      · rw [hbro]
        have hri := hrole i
        split
        · rename_i hi
          rw [if_pos hi] at hri
          exact congrArg Prod.fst hri
        · rename_i hi
          rwa [if_neg hi] at hri

/-- The first thread of the ring waits at a barrier. -/
theorem block (h : Lined T d a) {b : Obj} {be : BarrierEntry} (hb : d.barriers b = some be)
    (hl : be.threads + 1 ≠ be.maxthreads) (hn : (d.entries d.tokenpos).next ≠ d.tokenpos) :
    Lined T (d.barrierEnter d.tokenpos b).1 (a.after (.barrier b)) := by
  obtain ⟨rest, hr⟩ := h.ring_eq
  have hne := h.rest_ne_nil hr hn
  obtain ⟨hmb, htb⟩ := h.barrier b be hb
  have ha := Lines.after_block hr (by rw [← hmb, ← htb]; exact hl)
  have hlists : (a.after (.barrier b)).lists = Function.update (Function.update a.lists .active rest)
      (.barrier b) (a.lists (.barrier b) ++ [d.tokenpos]) := by
    rw [ha, Lines.setBlocked_lists, Lines.setRing_lists]
    rfl
  have hbb : (a.after (.barrier b)).blocked b = a.blocked b ++ [d.tokenpos] := by
    rw [ha]
    exact Function.update_self ..
  have hhead : be.head = (a.lists (.barrier b)).head? := by
    rw [← h.head (.barrier b) nofun, Determ.head, hb]
    rfl
  obtain ⟨es, x, es', hes, hx, hes', hent⟩ := h.enqueue hr hne (by simp) hhead hlists
  obtain ⟨hlink, hrole⟩ := hent { es' d.tokenpos with status := .barrWaiting } rfl rfl rfl
  obtain ⟨hent, hact, hbar, hconds, htok, hmax, hal⟩ :
      (d.barrierEnter d.tokenpos b).1.entries = Function.update es' d.tokenpos
        { es' d.tokenpos with status := .barrWaiting } ∧
      (d.barrierEnter d.tokenpos b).1.activelist = some x ∧
      (d.barrierEnter d.tokenpos b).1.barriers = Function.update d.barriers b (some { be with
        threads := be.threads + 1, head := ((a.after (.barrier b)).lists (.barrier b)).head? }) ∧
      (d.barrierEnter d.tokenpos b).1.conds = d.conds ∧
      (d.barrierEnter d.tokenpos b).1.tokenpos = (d.entries d.tokenpos).next ∧
      (d.barrierEnter d.tokenpos b).1.maxthreads = dec d.maxthreads ∧
      (d.barrierEnter d.tokenpos b).1.alivethreads = d.alivethreads := by
    unfold barrierEnter
    rw [hb]
    dsimp only
    rw [if_neg hl, hes]
    dsimp only
    rw [hes', decrFence_eq]
    exact ⟨rfl, rfl, rfl, rfl, rfl, rfl, rfl⟩
  obtain ⟨hh, hw, hbe⟩ := h.barriers (d.barrierEnter d.tokenpos b).1 (a.after (.barrier b)) b _ hconds
    hbar rfl (by rw [hbb, htb, List.length_append, List.length_singleton]) hmb (by rw [ha]; rfl)
    fun q hq hqb => by rw [hlists, Function.update_of_ne hqb, Function.update_of_ne hq]
  refine h.shift (by rw [hent]; exact hlink) ?_ ⟨x, ?_, hact⟩ hh hw hbe ?_ (fun i => ?_) hal
  · rw [htok, ha]
    exact h.head_rest hr hne
  · rw [ha]
    exact hx
  · rw [hmax, h.maxthreads, hr, ha]
    exact dec_of_pos (Nat.succ_pos _)
  · rw [hent]
    exact hrole i

/-- The last thread of a barrier brings the others back, and the token goes to the first of them. -/
theorem release (h : Lined T d a) {b : Obj} {be : BarrierEntry} (hb : d.barriers b = some be)
    (hl : be.threads + 1 = be.maxthreads) :
    Lined T (d.barrierEnter d.tokenpos b).1 (a.after (.barrier b)) := by
  obtain ⟨rest, hr⟩ := h.ring_eq
  obtain ⟨hmb, htb⟩ := h.barrier b be hb
  have ha := Lines.after_release hr (by rw [← hmb, ← htb]; exact hl)
  have hhead : be.head = (a.lists (.barrier b)).head? := by
    rw [← h.head (.barrier b) nofun, Determ.head, hb]
    rfl
  have hlists : (a.after (.barrier b)).lists = Function.update (Function.update a.lists (.barrier b) [])
      .active (a.blocked b ++ rest ++ [d.tokenpos]) := by
    rw [ha, Lines.setRing_lists, Lines.setBlocked_lists]
  have hlink : (d.entries.moveWholeList d.tokenpos be.head).Linking (a.after (.barrier b)).lists := by
    have hmove := h.linking.moveWholeList_at be.head (show Queue.barrier b ≠ .active by simp)
      (show a.lists .active = [] ++ d.tokenpos :: rest from hr) hhead
    have hrot := hmove.rotate (show Function.update (Function.update a.lists (.barrier b) []) .active
      ([] ++ d.tokenpos :: (a.lists (.barrier b) ++ rest)) .active =
        [d.tokenpos] ++ (a.lists (.barrier b) ++ rest) from Function.update_self ..)
    rw [Function.update_idem] at hrot
    rw [hlists]
    exact hrot
  have hring : (a.after (.barrier b)).ring = a.blocked b ++ rest ++ [d.tokenpos] := by rw [ha]; rfl
  have hnext : (a.blocked b ++ rest ++ [d.tokenpos]).head? =
      some (d.entries.moveWholeList d.tokenpos be.head d.tokenpos).next := by
    have hc := hlink.chain .active
    rw [Lines.lists_active, hring, Ring.coe_append_cons, List.nil_append] at hc
    exact (head?_of_chain hc).1
  obtain ⟨hent, hact, hbar, hconds, htok, hmax, hal⟩ :
      (d.barrierEnter d.tokenpos b).1.entries = d.entries.moveWholeList d.tokenpos be.head ∧
      (d.barrierEnter d.tokenpos b).1.activelist = d.activelist ∧
      (d.barrierEnter d.tokenpos b).1.barriers = Function.update d.barriers b
        (some { be with threads := 0, head := none }) ∧
      (d.barrierEnter d.tokenpos b).1.conds = d.conds ∧
      (d.barrierEnter d.tokenpos b).1.tokenpos =
        (d.entries.moveWholeList d.tokenpos be.head d.tokenpos).next ∧
      (d.barrierEnter d.tokenpos b).1.maxthreads = d.maxthreads + (a.blocked b).length ∧
      (d.barrierEnter d.tokenpos b).1.alivethreads = d.alivethreads := by
    unfold barrierEnter
    rw [hb]
    dsimp only
    rw [if_pos hl, show (a.blocked b).length = be.maxthreads - 1 by omega]
    exact ⟨rfl, rfl, rfl, rfl, rfl, rfl, rfl⟩
  have hbb : (a.after (.barrier b)).blocked b = [] := by
    rw [ha]
    exact Function.update_self ..
  obtain ⟨hh, hw, hbe⟩ := h.barriers (d.barrierEnter d.tokenpos b).1 (a.after (.barrier b)) b _ hconds
    hbar (by rw [hbb]; rfl) (by rw [hbb]; rfl) hmb (by rw [ha]; rfl)
    fun q hq hqb => by rw [hlists, Function.update_of_ne hq, Function.update_of_ne hqb]
  refine h.shift (by rw [hent]; exact hlink) ?_ ?_ hh hw hbe ?_ (fun i => ?_) hal
  · rw [hring, htok]
    exact hnext
  · obtain ⟨y, hy, hay⟩ := h.active
    refine ⟨y, ?_, hact.trans hay⟩
    rw [hr] at hy
    rw [hring]
    simp only [List.mem_cons, List.mem_append, List.not_mem_nil, or_false] at hy ⊢
    tauto
  · rw [hmax, hring, h.maxthreads, hr]
    simp only [List.length_cons, List.length_append, List.length_nil]
    omega
  · have hrole : ((d.barrierEnter d.tokenpos b).1.entries i).role = (d.entries i).role := by
      rw [hent, Entries.moveWholeList_role]
    by_cases hi : i ∈ a.blocked b
    · refine .inr ⟨⟨.barrier b, hi⟩, .active, ?_, ?_⟩
      · rw [Lines.lists_active, hring]
        simp [hi]
      · rw [hrole]
        exact .inr (h.stands (.barrier b) i hi).1
    · refine .inl ⟨hrole, fun q => ?_⟩
      rw [hlists]
      by_cases hq : q = .active
      · subst hq
        rw [Function.update_self, Lines.lists_active, hr]
        simp [hi, or_comm]
      · rw [Function.update_of_ne hq]
        by_cases hqb : q = .barrier b
        · subst hqb
          rw [Function.update_self, Lines.lists_barrier]
          simp [hi]
        · rw [Function.update_of_ne hqb]

/-- The first thread of the ring exits. -/
theorem exit (h : Lined T d a) (hn : (d.entries d.tokenpos).next ≠ d.tokenpos)
    (hj : ¬ d.joined d.tokenpos) : Lined T (d.deregisterThread d.tokenpos) (a.after .exit) := by
  obtain ⟨rest, hr⟩ := h.ring_eq
  have hr' : a.lists .active = [] ++ d.tokenpos :: rest := hr
  have hne := h.rest_ne_nil hr hn
  obtain ⟨x, hx, hax⟩ := h.leave hr hne
  have hmem : d.tokenpos ∈ a.lists .active := by
    rw [hr']
    exact List.mem_cons_self
  obtain ⟨hst, hT⟩ := h.stands .active _ hmem
  have ha : a.after .exit = a.setRing rest := by
    unfold Lines.after
    rw [hr]
  have hlists : (a.after .exit).lists = Function.update a.lists .active ([] ++ rest) := by
    rw [ha, Lines.setRing_lists]
    rfl
  have hself : d.tokenpos ∈ T.filter fun i => (d.entries i).status ≠ .exit :=
    Finset.mem_filter.mpr ⟨hT, hst.living⟩
  have hpos : 0 < d.alivethreads := (Finset.card_pos.mpr ⟨_, hself⟩).trans_le h.alive
  obtain ⟨hent, hact, htok⟩ := d.deregisterThread_alone d.tokenpos hj
  obtain ⟨hfence, hal⟩ := d.deregisterThread_fence d.tokenpos hpos (by
    rw [h.maxthreads, hr]
    exact Nat.succ_pos _)
  have hmax : (d.deregisterThread d.tokenpos).maxthreads = d.maxthreads - 1 :=
    congrArg Fence.Counters.members hfence
  have hlink : (d.deregisterThread d.tokenpos).entries.Linking (a.after .exit).lists := by
    rw [hent, hlists]
    exact (h.linking.removeEntry_at d.activelist hr').update rfl rfl
  have hgone : ∀ q, d.tokenpos ∉ (a.after .exit).lists q := by
    rw [hlists]
    exact h.linking.not_mem_remove hr'
  have hother : ∀ i, i ≠ d.tokenpos →
      ((d.deregisterThread d.tokenpos).entries i).role = (d.entries i).role := fun i hi => by
    rw [hent, Entries.setStatus, Function.update_of_ne hi, Entries.removeEntry_role]
  have hgone : ((d.deregisterThread d.tokenpos).entries d.tokenpos).status = .exit := by
    rw [hent, Entries.setStatus, Function.update_self]
  refine h.move hlink ?_ ⟨x, ?_, hact.trans hax⟩ (fun q hq => ?_) (fun c => ?_) ?_ ?_ (fun i => ?_) ?_
  · rw [htok, ha]
    exact h.head_rest hr hne
  · rw [ha]
    exact hx
  · rw [hlists, Function.update_of_ne hq, ← h.head q hq]
    cases q with
    | active => exact absurd rfl hq
    | cond c => rw [Determ.head, deregisterThread_conds, Determ.head]
    | barrier b => rw [Determ.head, deregisterThread_barriers, Determ.head]
  · rw [Determ.waiters, deregisterThread_conds, ← Determ.waiters, h.waiters, ha]
    rfl
  · rw [deregisterThread_barriers, ha]
    exact h.barrier
  · rw [hmax, h.maxthreads, hr, ha]
    rfl
  · by_cases hi : i = d.tokenpos
    · subst hi
      refine .inr (.inr ⟨hgone, ?_⟩)
      rw [hlists]
      exact h.linking.not_mem_remove hr'
    · refine .inl ⟨hother i hi, fun q => ?_⟩
      rw [hlists]
      by_cases hq : q = .active
      · subst hq
        rw [Function.update_self, hr']
        simp [hi]
      · rw [Function.update_of_ne hq]
  · have herase : (T.filter fun i => ((d.deregisterThread d.tokenpos).entries i).status ≠ .exit) =
        (T.filter fun i => (d.entries i).status ≠ .exit).erase d.tokenpos := by
      ext i
      rw [Finset.mem_erase, Finset.mem_filter, Finset.mem_filter]
      by_cases hi : i = d.tokenpos
      · subst hi
        simp [hgone]
      · rw [role_status (hother i hi)]
        simp [hi]
    rw [herase, Finset.card_erase_of_mem hself, hal]
    exact Nat.sub_le_sub_right h.alive 1

/-- Nobody moves. -/
theorem frame (h : Lined T d a) (hs : SameQueues d d') (hw : ∀ c, d'.waiters c = d.waiters c)
    (hb : d'.barriers = d.barriers) (hm : d'.maxthreads = d.maxthreads)
    (hal : d'.alivethreads = d.alivethreads) : Lined T d' a := by
  refine h.shift ?_ (h.token.trans (congrArg some hs.tokenpos.symm)) ?_
    (fun q hq => (hs.head q).trans (h.head q hq)) (fun c => (hw c).trans (h.waiters c)) ?_
    (hm.trans h.maxthreads) (fun i => .inl ⟨hs.role i, fun q => Iff.rfl⟩) hal
  · rw [Entries.Linking, hs.nexts, hs.prevs]
    exact h.linking
  · obtain ⟨x, hx, hax⟩ := h.active
    exact ⟨x, hx, (hs.head .active).trans hax⟩
  · rw [hb]
    exact h.barrier

/-- Every turn keeps the lines. -/
theorem turn (h : Lined T d a) (o : Turn) (ho : d.stays o) : Lined T (d.turn o) (a.after o) := by
  cases o with
  | pass => exact h.pass
  | wait c m =>
      have hl := h.lookup c
      have htok : (d.condLookup c).tokenpos = d.tokenpos := by
        unfold condLookup
        split <;> rfl
      have hent : (d.condLookup c).entries = d.entries := by
        unfold condLookup
        split <;> rfl
      have hw := hl.wait c m (by rw [htok, hent]; exact ho)
      rw [htok] at hw
      exact hw
  | signal c => exact (h.lookup c).signal c
  | broadcast c => exact (h.lookup c).broadcast c
  | barrier b =>
      obtain ⟨be, hb, hn⟩ := ho
      by_cases hl : be.threads + 1 = be.maxthreads
      · exact h.release hb hl
      · exact h.block hb hl (hn hl)
  | exit => exact h.exit ho.1 ho.2

end Lined

/-! ## Runs -/

/-- What the other operations do: no thread changes its line. -/
structure Still (d d' : Determ) : Prop where
  queues : SameQueues d d'
  waiters : ∀ c, d'.waiters c = d.waiters c
  barriers : d'.barriers = d.barriers
  maxthreads : d'.maxthreads = d.maxthreads
  alivethreads : d'.alivethreads = d.alivethreads

/-- The threads take the turns `os`, and pass the fences and the mutexes in between. -/
inductive Plays : Determ → List Turn → Determ → Prop where
  | nil (d) : Plays d [] d
  | turn {d d' o os} : d.stays o → Plays (d.turn o) os d' → Plays d (o :: os) d'
  | still {d d' d'' os} : Still d d' → Plays d' os d'' → Plays d os d''

theorem Lined.plays {T : Finset ℕ} {d d' : Determ} {a : Lines} {os : List Turn} (h : Lined T d a)
    (hr : Plays d os d') : Lined T d' (os.foldl Lines.after a) := by
  induction hr generalizing a with
  | nil => exact h
  | turn ho _ ih => exact ih (h.turn _ ho)
  | still hs _ ih => exact ih (h.frame hs.queues hs.waiters hs.barriers hs.maxthreads hs.alivethreads)

/-- In a run of turns the scheduler keeps the lines, and every living thread stands in one line. -/
theorem lines_kept {T : Finset ℕ} {d d' : Determ} {a : Lines} {os : List Turn} (h : Lined T d a)
    (hr : Plays d os d') : Lined T d' (os.foldl Lines.after a) ∧
      ∀ i ∈ T, (d'.entries i).status ≠ .exit → ∃! q, i ∈ (os.foldl Lines.after a).lists q :=
  ⟨h.plays hr, fun _ hi hs => (h.plays hr).unique hi hs⟩

end Determ

/-- The threads `0, …, n - 1` in the ring. -/
def Lines.start (n : ℕ) : Lines := ⟨List.range n, fun _ => [], fun _ => [], fun _ => 0⟩

theorem Lines.start_lists {n : ℕ} {q : Queue} {i : ℕ} (h : i ∈ (start n).lists q) :
    q = .active ∧ i < n := by
  cases q with
  | active => exact ⟨rfl, List.mem_range.mp h⟩
  | _ => exact absurd h List.not_mem_nil

theorem State.ring_lined {n : ℕ} (hn : 0 < n) (c : ℕ) :
    (ring n c).determ.Lined (Finset.range n) (.start n) := by
  have hhead : (List.range n).head? = some 0 := by
    rw [List.head?_range, if_neg hn.ne']
  have hstatus : ∀ i, i < n → ((ring n c).determ.entries i).status = .ready := fun i hi => if_pos hi
  exact
    { linking := ⟨fun q => by cases q <;> first | exact chain_ring hn c | trivial,
        fun q => by cases q <;> first | exact List.nodup_range | exact List.nodup_nil,
        fun h h' => (Lines.start_lists h).1.trans (Lines.start_lists h').1.symm⟩
      token := hhead
      active := ⟨0, List.mem_range.mpr hn, rfl⟩
      head := fun q hq => by cases q <;> first | exact absurd rfl hq | rfl
      waiters := fun _ => rfl
      barrier := nofun
      maxthreads := List.length_range.symm
      stands := fun q i hi => by
        obtain ⟨rfl, hlt⟩ := Lines.start_lists hi
        exact ⟨.inl (hstatus i hlt), Finset.mem_range.mpr hlt⟩
      home := fun i hi _ => ⟨.active, List.mem_range.mpr (Finset.mem_range.mp hi)⟩
      alive := (Finset.card_filter_le _ _).trans (Finset.card_range n).le }

namespace Determ

/-- Two of three threads wait, the third one wakes up one of them and exits. -/
theorem lines_kept_three : Plays (State.ring 3 1).determ [.wait 7 8, .wait 7 8, .signal 7, .exit]
      (((((State.ring 3 1).determ.turn (.wait 7 8)).turn (.wait 7 8)).turn (.signal 7)).turn .exit) ∧
    Lined (Finset.range 3)
      (((((State.ring 3 1).determ.turn (.wait 7 8)).turn (.wait 7 8)).turn (.signal 7)).turn .exit)
      ([.wait 7 8, .wait 7 8, .signal 7, .exit].foldl Lines.after (.start 3)) := by
  have hr : Plays (State.ring 3 1).determ [.wait 7 8, .wait 7 8, .signal 7, .exit]
      (((((State.ring 3 1).determ.turn (.wait 7 8)).turn (.wait 7 8)).turn (.signal 7)).turn .exit) := by
    refine .turn ?_ (.turn ?_ (.turn trivial (.turn ?_ (.nil _))))
    all_goals
      unfold stays
      decide +kernel
  exact ⟨hr, (lines_kept (State.ring_lined (by decide) 1) hr).1⟩

end Determ

end Dthreads.Scheduler
