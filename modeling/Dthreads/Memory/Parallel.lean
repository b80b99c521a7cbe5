import Dthreads.Memory.Access
import Dthreads.Transition.Agents

/-! # The parallel phase

Between two calls a thread computes on its own view of the memory. Whatever the interleaving, such a
phase has one outcome, as long as no thread has to ask another one for a page. -/

namespace Dthreads.Memory

/-- What the code of a thread does next, with the local state that follows. -/
inductive Move (σ : Type*) where
  | load (a : Addr) (next : Byte → σ)
  | store (a : Addr) (b : Byte) (next : σ)
  /-- A call of the library: the end of the phase. -/
  | call

namespace Move

variable {σ : Type*}

/-- The fault handler on a page that cannot be accessed as it is. A page of another process is left
to the owner. -/
def trap (m : Mem) (t : Tid) (p : ℕ) : Act :=
  if (m.spaces t).access p ≠ .none then .fault t p else .mprotectRead t p

/-- What the machine does for the move: the access, or the fault handler. -/
def act (m : Mem) (t : Tid) : Move σ → Option Act
  | .load a _ => some (if (m.spaces t).prot a.page ≠ .none then .load t a else trap m t a.page)
  | .store a b _ =>
      some (if m.writable t a.page then .store t [a] fun _ _ => b else trap m t a.page)
  | .call => none

/-- The local state after that; an access that faulted is tried again. -/
def after (m : Mem) (t : Tid) (l : σ) : Move σ → σ
  | .load a next => if (m.spaces t).prot a.page ≠ .none then next (m.viewByte t a) else l
  | .store a _ next => if m.writable t a.page then next else l
  | .call => l

end Move

/-- The runtime together with the local states of the threads. -/
structure Execution (σ : Type*) where
  runtime : Runtime
  locals : Tid → σ

namespace Execution

variable {σ : Type*} (isHeap : ℕ → Bool) (code : Tid → σ → Move σ)

/-- The next move of `t`. -/
def move (x : Execution σ) (t : Tid) : Option (Execution σ) :=
  ((code t (x.locals t)).act x.runtime.mem t).bind fun a =>
    (x.runtime.step isHeap (.user t a)).map fun r =>
      { runtime := r
        locals := Function.update x.locals t
          ((code t (x.locals t)).after x.runtime.mem t (x.locals t)) }

/-- No thread can go on: all are at a call, or at a page they must ask for. -/
def Ended (x : Execution σ) : Prop := ∀ t ∈ x.runtime.threads, (x.move isHeap code t).isNone = true

instance (x : Execution σ) : Decidable (x.Ended isHeap code) :=
  inferInstanceAs (Decidable (∀ t ∈ x.runtime.threads, (x.move isHeap code t).isNone = true))

end Execution

/-! ## A move touches one page and one process -/

namespace Move

variable {σ : Type*} {t : Tid} {s s' : Space} {g g' : SharedPage} {l l' : σ} {p : ℕ}

/-- The page of the access. -/
def page : Move σ → ℕ
  | .load a _ | .store a _ _ => a.page
  | .call => 0

/-- `handleWrite` on a space and a page. -/
def written (t : Tid) (p : ℕ) (s : Space) (g : SharedPage) : Option (Space × SharedPage) :=
  if s.cur < pageEntryNum then
    let s₁ := (if g.owner = .thread t then s.setAccess p .write else s).setProt p .readWrite
    let g₁ :=
      if s.access p = .write then
        { g with content := (s.priv p).getD g.content, version := g.version + 1 }
      else g
    let e : PageInfo :=
      { pageNo := p, version := g₁.version.setWidth 32, isUpdated := false, slot := s.cur,
        processed := false }
    some ({ s₁ with cur := s.cur + 1, dirty := Space.insertDirty e s.dirty },
      { g₁ with users := g.users + 1 })
  else none

def trapped (t : Tid) (p : ℕ) (s : Space) (g : SharedPage) : Option (Space × SharedPage) :=
  if s.access p ≠ .none then if s.prot p = .readWrite then none else written t p s g
  else if s.prot p = .none ∧ g.owner = .shared then
    some ((s.setAccess p .read).setProt p .read, g)
  else none

/-- The move of a protected process on its space and the page. -/
def effect (t : Tid) (l : σ) (s : Space) (g : SharedPage) :
    Move σ → Option (Space × SharedPage × σ)
  | .load a next =>
      if s.prot a.page ≠ .none then
        some (s, g, next ((s.priv a.page).getD g.content a.word a.byte))
      else (trapped t a.page s g).map fun r => (r.1, r.2, l)
  | .store a b next =>
      if s.prot a.page = .readWrite then
        let c := (s.priv a.page).getD g.content
        some (s.setPriv a.page (c.setWord a.word (Function.update (c a.word) a.byte b)), g, next)
      else (trapped t a.page s g).map fun r => (r.1, r.2, l)
  | .call => none

end Move

namespace Move

variable {σ : Type*} {mv : Move σ} {t : Tid} {s s' : Space} {g g' : SharedPage} {l l' : σ} {p : ℕ}

/-- A page counts its users, and nobody looks at the count before a commit. -/
theorem written_users (hw : s.access p ≠ .write) (h : written t p s g = some (s', g')) :
    g' = { g with users := g.users + 1 } ∧
      ∀ n, written t p s { g with users := n } = some (s', { g with users := n + 1 }) := by
  unfold written at h ⊢
  simp only [hw, if_false, Option.ite_none_right_eq_some, Option.some.injEq, Prod.mk.injEq] at h ⊢
  obtain ⟨hroom, rfl, rfl⟩ := h
  exact ⟨rfl, fun n => by simp [hroom]⟩

theorem trapped_users (hw : s.access p ≠ .write) (h : trapped t p s g = some (s', g')) :
    ∃ k, g' = { g with users := g.users + k } ∧
      ∀ n, trapped t p s { g with users := n } = some (s', { g with users := n + k }) := by
  unfold trapped at h ⊢
  split at h
  · rename_i ha
    simp only [Option.ite_none_left_eq_some] at h
    obtain ⟨hprot, h⟩ := h
    obtain ⟨hg, hall⟩ := written_users hw h
    refine ⟨1, hg, fun n => ?_⟩
    rw [if_pos ha, if_neg hprot, hall]
  · rename_i ha
    simp only [Option.ite_none_right_eq_some, Option.some.injEq, Prod.mk.injEq] at h
    obtain ⟨hshared, rfl, rfl⟩ := h
    refine ⟨0, rfl, fun n => ?_⟩
    rw [if_neg ha, if_pos hshared]
    rfl

/-- On a page that is not its own, a move does nothing but count a user. -/
theorem effect_users (hw : s.access mv.page ≠ .write)
    (h : mv.effect t l s g = some (s', g', l')) :
    ∃ k, g' = { g with users := g.users + k } ∧
      ∀ n, mv.effect t l s { g with users := n } = some (s', { g with users := n + k }, l') := by
  have htrap : ∀ q, q = mv.page → (trapped t q s g).map (fun r => (r.1, r.2, l)) = some (s', g', l') →
      ∃ k, g' = { g with users := g.users + k } ∧ ∀ n,
        (trapped t q s { g with users := n }).map (fun r => (r.1, r.2, l)) =
          some (s', { g with users := n + k }, l') := by
    rintro q rfl hq
    obtain ⟨r, hr, heq⟩ := Option.map_eq_some_iff.mp hq
    obtain ⟨s₁, g₁⟩ := r
    simp only [Prod.mk.injEq] at heq
    obtain ⟨rfl, rfl, rfl⟩ := heq
    obtain ⟨k, hk, hall⟩ := trapped_users hw hr
    exact ⟨k, hk, fun n => by rw [hall, Option.map_some]⟩
  cases mv with
  | load a next =>
      simp only [effect] at h ⊢
      split at h
      · rename_i hr
        simp only [Option.some.injEq, Prod.mk.injEq] at h
        obtain ⟨rfl, rfl, rfl⟩ := h
        exact ⟨0, rfl, fun n => by rw [if_pos hr]; rfl⟩
      · rename_i hr
        simp only [if_neg hr]
        exact htrap _ rfl h
  | store a b next =>
      simp only [effect] at h ⊢
      split at h
      · rename_i hr
        simp only [Option.some.injEq, Prod.mk.injEq] at h
        obtain ⟨rfl, rfl, rfl⟩ := h
        exact ⟨0, rfl, fun n => by rw [if_pos hr]; rfl⟩
      · rename_i hr
        simp only [if_neg hr]
        exact htrap _ rfl h
  | call => cases h

/-- There is no move on a page that another process owns. -/
theorem effect_hidden (hs : s.Hides mv.page) (ho : g.owner ≠ .shared) :
    mv.effect t l s g = none := by
  have htrap : ∀ q, q = mv.page → trapped t q s g = none := by
    rintro q rfl
    simp [trapped, hs.access, ho]
  cases mv with
  | load a next =>
      have hprot : s.prot a.page = .none := hs.prot
      simp [effect, hprot, htrap a.page rfl]
  | store a b next =>
      have hprot : s.prot a.page = .none := hs.prot
      simp [effect, hprot, htrap a.page rfl]
  | call => rfl

end Move

namespace Mem

variable {m : Mem} {t u : Tid} {p q : ℕ}

theorem handleWrite_effect : m.handleWrite t p =
    (Move.written t p (m.spaces t) (m.pages p)).map fun r => (m.setPage p r.2).setSpace t r.1 := by
  have hprot : m.mprotectWrite t p = m.setSpace t
      ((if (m.pages p).owner = .thread t then (m.spaces t).setAccess p .write
        else m.spaces t).setProt p .readWrite) := rfl
  have hcur : (if (m.pages p).owner = .thread t then (m.spaces t).setAccess p .write
      else m.spaces t).cur = (m.spaces t).cur := by
    split <;> rfl
  have hdirty : (if (m.pages p).owner = .thread t then (m.spaces t).setAccess p .write
      else m.spaces t).dirty = (m.spaces t).dirty := by
    split <;> rfl
  have hpriv : (if (m.pages p).owner = .thread t then (m.spaces t).setAccess p .write
      else m.spaces t).priv = (m.spaces t).priv := by
    split <;> rfl
  unfold Move.written handleWrite addDirty
  rw [hprot]
  by_cases hroom : (m.spaces t).cur < pageEntryNum
  · cases ha : (m.spaces t).access p <;>
      simp [hroom, hcur, hdirty, hpriv, commitOwnedPage, Space.setProt, view, setPage, setSpace]
  · cases ha : (m.spaces t).access p <;>
      simp [hroom, hcur, commitOwnedPage, Space.setProt]

theorem step_trap : m.step (Move.trap m t p) =
    (Move.trapped t p (m.spaces t) (m.pages p)).map fun r => (m.setPage p r.2).setSpace t r.1 := by
  have hself : m.setPage p (m.pages p) = m := by
    simp [setPage]
  unfold Move.trap Move.trapped
  by_cases ha : (m.spaces t).access p = .none
  · simp only [ha, ne_eq, not_true, if_false, step]
    split
    · rw [Option.map_some, hself]
      rfl
    · rfl
  · simp only [ne_eq, ha, not_false_eq_true, if_true, step, writable, and_true]
    by_cases hw : (m.spaces t).prot p = .readWrite
    · simp [hw]
    · simp [hw, handleWrite_effect]

/-- A move of a protected process is its effect on the space and on the page. -/
theorem step_effect {σ : Type*} (mv : Move σ) (l : σ)
    (hp : (m.spaces t).isProtected = true) :
    ((mv.act m t).bind fun a => (m.step a).map fun m' => (m', mv.after m t l)) =
      (mv.effect t l (m.spaces t) (m.pages mv.page)).map fun r =>
        ((m.setPage mv.page r.2.1).setSpace t r.1, r.2.2) := by
  have hself : ∀ p, (m.setPage p (m.pages p)).setSpace t (m.spaces t) = m := by
    intro p
    simp [setPage, setSpace]
  cases mv with
  | load a next =>
      simp only [Move.act, Option.bind_some, Move.effect, Move.after, Move.page]
      by_cases hr : (m.spaces t).prot a.page = .none
      · simp only [hr, ne_eq, not_true, if_false, step_trap, Option.map_map]
        rfl
      · simp only [ne_eq, hr, not_false_eq_true, if_true, step, Option.map_some, hself]
        rfl
  | store a b next =>
      simp only [Move.act, Option.bind_some, Move.effect, Move.after, Move.page, writable]
      by_cases hw : (m.spaces t).prot a.page = .readWrite
      · have hall : ∀ c ∈ [a], m.writable t c.page := by
          intro c hc
          obtain rfl := List.mem_singleton.mp hc
          exact hw
        have hset : ∀ p, m.setPage p (m.pages p) = m := by
          intro p
          simp [setPage]
        simp only [hw, if_true, step, Option.map_some, hset]
        rw [if_pos hall]
        simp only [storeBytes, List.foldl_cons, List.foldl_nil, storeByte, storeWord, hp, if_true]
        rfl
      · simp only [hw, if_false, step_trap, Option.map_map]
        rfl
  | call => rfl

end Mem

namespace Execution

variable {σ : Type*} {isHeap : ℕ → Bool} {code : Tid → σ → Move σ} {x y z : Execution σ}
  {t u : Tid} {p q : ℕ}

/-- The execution after `t` changed its space, the page `p` and its local state. -/
def put (x : Execution σ) (t : Tid) (p : ℕ) (r : Space × SharedPage × σ) : Execution σ where
  runtime := { x.runtime with mem := (x.runtime.mem.setPage p r.2.1).setSpace t r.1 }
  locals := Function.update x.locals t r.2.2

/-- The thread is in its own code. -/
def Coding (x : Execution σ) (t : Tid) : Prop :=
  t ∈ x.runtime.threads ∧ x.runtime.exited t = false ∧ x.runtime.todo t = []

theorem put_comm {r r' : Space × SharedPage × σ} (htu : t ≠ u) (hpq : p ≠ q) :
    (x.put t p r).put u q r' = (x.put u q r').put t p r := by
  simp only [put, Mem.setPage, Mem.setSpace, Function.update_comm htu, Function.update_comm hpq]

theorem put_put_same {s s' : Space} {g g' : SharedPage} {l l' : σ} (h : SharedPage) (htu : t ≠ u) :
    (x.put t p (s, g, l)).put u p (s', h, l') = (x.put u p (s', g', l')).put t p (s, h, l) := by
  simp only [put, Mem.setPage, Mem.setSpace, Function.update_comm htu, Function.update_idem]

/-- A move is the effect on one space and one page. -/
theorem move_effect (hp : (x.runtime.mem.spaces t).isProtected = true) (hc : x.Coding t) :
    x.move isHeap code t =
      ((code t (x.locals t)).effect t (x.locals t) (x.runtime.mem.spaces t)
        (x.runtime.mem.pages (code t (x.locals t)).page)).map
          (x.put t (code t (x.locals t)).page) := by
  obtain ⟨ht, hx, htodo⟩ := hc
  have heff := Mem.step_effect (code t (x.locals t)) (x.locals t) hp
  have hstep : ∀ a, (code t (x.locals t)).act x.runtime.mem t = some a →
      x.runtime.step isHeap (.user t a) =
        (x.runtime.mem.step a).map fun m' => { x.runtime with mem := m' } := by
    intro a ha
    have hallows : x.runtime.mem.allows t a = true := by
      cases hmv : code t (x.locals t) with
      | load b next | store b c next =>
          rw [hmv] at ha
          obtain rfl := Option.some.inj ha
          unfold Move.trap
          split
          · simp [Mem.allows]
          · split <;> simp [Mem.allows]
      | call =>
          rw [hmv] at ha
          cases ha
    have hsame : Function.update x.runtime.todo t [] = x.runtime.todo := by
      rw [← htodo, Function.update_eq_self]
    rw [Runtime.step, if_pos ⟨ht, hx, htodo, hallows⟩]
    simp only [Runtime.advance, hsame]
  have hmove : x.move isHeap code t =
      (((code t (x.locals t)).act x.runtime.mem t).bind fun a => (x.runtime.mem.step a).map fun m' =>
        (m', (code t (x.locals t)).after x.runtime.mem t (x.locals t))).map fun r =>
          { runtime := { x.runtime with mem := r.1 }
            locals := Function.update x.locals t r.2 } := by
    unfold move
    cases ha : (code t (x.locals t)).act x.runtime.mem t with
    | none => rfl
    | some a => simp only [Option.bind_some, hstep a ha, Option.map_map, Function.comp_def]
  rw [hmove, heff, Option.map_map]
  rfl

/-- A thread that moves is in its own code. -/
theorem coding_of_move (h : x.move isHeap code t = some y) : x.Coding t := by
  obtain ⟨a, -, h⟩ := Option.bind_eq_some_iff.mp h
  obtain ⟨r, hr, -⟩ := Option.map_eq_some_iff.mp h
  simp only [Runtime.step, Option.ite_none_right_eq_some] at hr
  exact ⟨hr.1.1, hr.1.2.1, hr.1.2.2.1⟩

theorem guarded_of_move (hg : x.runtime.Guarded) (h : x.move isHeap code t = some y) :
    y.runtime.Guarded := by
  obtain ⟨a, -, h⟩ := Option.bind_eq_some_iff.mp h
  obtain ⟨r, hr, rfl⟩ := Option.map_eq_some_iff.mp h
  exact hg.step hr

/-- Two threads move only with the protection open. -/
theorem protected_of_coding (hg : x.runtime.Guarded) (htu : t ≠ u) (ht : x.Coding t)
    (hu : x.Coding u) : (x.runtime.mem.spaces t).isProtected = true := by
  by_contra hn
  have hgone := hg.sound.staged.alone t ht.1 (by simpa using hn) u hu.1 htu.symm
  rw [hu.2.1] at hgone
  cases hgone

theorem alive_of_coding (hg : x.runtime.Guarded) (ht : x.Coding t) :
    x.runtime.mem.alive t = true :=
  (hg.sound.staged.working ht.1 ht.2.1 ht.2.2).alive.mpr (by simp)

/-- A thread has no move on a page that another one owns. -/
theorem move_foreign (hg : x.runtime.Guarded) (htu : t ≠ u) (ht : x.Coding t) (hu : x.Coding u)
    (ho : (x.runtime.mem.pages (code t (x.locals t)).page).owner = .thread u) :
    x.move isHeap code t = none := by
  have hp := protected_of_coding hg htu ht hu
  have halive := alive_of_coding hg ht
  have haccess := hg.sound.staged.partitioned.hides t halive _ (.inr ⟨u, htu.symm, ho⟩)
  have hprot := (hg.guards t halive).prot hp _ haccess
  have hcopy : (x.runtime.mem.spaces t).priv (code t (x.locals t)).page = none := by
    by_contra hn
    exact (hg.guards t halive).copy _ hn haccess
  rw [move_effect hp ht, Move.effect_hidden ⟨hprot, haccess, hcopy⟩ (by simp [ho]), Option.map_none]

/-- The move of `u` after `t` changed its space and page `p`. -/
theorem move_put {r : Space × SharedPage × σ} (htu : t ≠ u)
    (hp : (x.runtime.mem.spaces u).isProtected = true) (hc : x.Coding u) :
    (x.put t p r).move isHeap code u =
      ((code u (x.locals u)).effect u (x.locals u) (x.runtime.mem.spaces u)
        (if (code u (x.locals u)).page = p then r.2.1
          else x.runtime.mem.pages (code u (x.locals u)).page)).map
            ((x.put t p r).put u (code u (x.locals u)).page) := by
  have hspace : (x.put t p r).runtime.mem.spaces u = x.runtime.mem.spaces u :=
    Mem.setSpace_spaces_of_ne _ _ _ _ htu.symm
  have hlocal : (x.put t p r).locals u = x.locals u := Function.update_of_ne htu.symm _ _
  have hpage : ∀ q, (x.put t p r).runtime.mem.pages q =
      if q = p then r.2.1 else x.runtime.mem.pages q := by
    intro q
    by_cases hq : q = p
    · subst hq
      simp [put]
    · simp [put, hq]
  have hmove : (x.put t p r).move isHeap code u = _ := move_effect (by rw [hspace, hp]) hc
  rw [hmove, hlocal, hspace, hpage]

/-- The moves of two threads commute. -/
theorem commute (hg : x.runtime.Guarded) (htu : t ≠ u) (hy : x.move isHeap code t = some y)
    (hz : x.move isHeap code u = some z) :
    ∃ w, y.move isHeap code u = some w ∧ z.move isHeap code t = some w := by
  have ht := coding_of_move hy
  have hu := coding_of_move hz
  have htp := protected_of_coding hg htu ht hu
  have hup := protected_of_coding hg htu.symm hu ht
  have howner : ∀ {v v' : Tid}, v ≠ v' → x.Coding v → x.Coding v' →
      (x.move isHeap code v).isSome = true →
        (x.runtime.mem.pages (code v (x.locals v)).page).owner ≠ .thread v' := by
    intro v v' hne hv hv' hsome ho
    rw [move_foreign hg hne hv hv' ho] at hsome
    cases hsome
  have hot := howner htu ht hu (by rw [hy]; rfl)
  have hou := howner htu.symm hu ht (by rw [hz]; rfl)
  rw [move_effect htp ht, Option.map_eq_some_iff] at hy
  rw [move_effect hup hu, Option.map_eq_some_iff] at hz
  obtain ⟨⟨s, g, l⟩, hs, rfl⟩ := hy
  obtain ⟨⟨s', g', l'⟩, hs', rfl⟩ := hz
  rw [move_put htu hup hu, move_put htu.symm htp ht]
  by_cases hpq : (code t (x.locals t)).page = (code u (x.locals u)).page
  · have hwritten : ∀ {v : Tid}, x.Coding v → (x.runtime.mem.spaces v).access
        (code t (x.locals t)).page = .write →
          (x.runtime.mem.pages (code t (x.locals t)).page).owner = .thread v :=
      fun hv => (hg.guards _ (alive_of_coding hg hv)).written _
    obtain ⟨k, rfl, hall⟩ := Move.effect_users (fun hw => hou (hpq ▸ hwritten ht hw)) hs
    obtain ⟨k', rfl, hall'⟩ := Move.effect_users (fun hw => hot (hwritten hu (hpq ▸ hw))) hs'
    rw [← hpq] at hall' ⊢
    simp only [if_true, hall, hall', Option.map_some]
    refine ⟨_, rfl, ?_⟩
    rw [put_put_same _ htu, Nat.add_right_comm]
  · rw [if_neg (Ne.symm hpq), if_neg hpq, hs, hs', Option.map_some, Option.map_some]
    exact ⟨_, rfl, by rw [put_comm htu hpq]⟩

end Execution

end Dthreads.Memory
