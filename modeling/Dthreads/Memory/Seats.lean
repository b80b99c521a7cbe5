import Dthreads.Memory.Parallel

/-! # The private part of a process

What a process has to itself: its view of the memory, its script and its result. A step of a process
in its own code, in a commit or at its end does not look at what the others have to themselves. -/

namespace Dthreads.Memory

namespace Mem

/-- The private memory state of process `u` is replaced. -/
def setSeat (m : Mem) (u : Tid) (s : Space) (b : Bool) : Mem :=
  { m with spaces := Function.update m.spaces u s, alive := Function.update m.alive u b }

variable {m m' : Mem} {t u : Tid} {s r : Space} {b : Bool} {p q k : ℕ} {g : SharedPage}

@[simp] theorem setSeat_pages : (m.setSeat u s b).pages = m.pages := rfl
@[simp] theorem setSeat_bitmap : (m.setSeat u s b).bitmap = m.bitmap := rfl
@[simp] theorem setSeat_position : (m.setSeat u s b).position = m.position := rfl
@[simp] theorem setSeat_setPage :
    (m.setSeat u s b).setPage p g = (m.setPage p g).setSeat u s b := rfl

theorem setSeat_self : m.setSeat u (m.spaces u) (m.alive u) = m := by
  simp [setSeat]

section Other

variable (h : t ≠ u)
include h

theorem setSeat_spaces : (m.setSeat u s b).spaces t = m.spaces t := Function.update_of_ne h ..

theorem setSeat_setSpace : (m.setSeat u s b).setSpace t r = (m.setSpace t r).setSeat u s b := by
  simp [setSeat, setSpace, Function.update_comm h.symm]

theorem setSeat_view : (m.setSeat u s b).view t p = m.view t p := by
  rw [view, view, setSeat_spaces h, setSeat_pages]

theorem setSeat_setSharedPage :
    (m.setSeat u s b).setSharedPage t p = (m.setSharedPage t p).setSeat u s b := by
  unfold setSharedPage
  rw [setSeat_pages, setSeat_spaces h, setSeat_setPage, setSeat_setSpace h]
  split <;> rfl

theorem setSeat_commitOwnedPage (x : Bool) :
    (m.setSeat u s b).commitOwnedPage t p x = (m.commitOwnedPage t p x).setSeat u s b := by
  unfold commitOwnedPage
  cases x with
  | false =>
      simp only [Bool.false_eq_true, if_false, setSeat_view h, setSeat_pages, setSeat_setPage]
  | true =>
      simp only [if_true, setSeat_view h, setSeat_pages, setSeat_setPage, setSeat_setSharedPage h,
        setSeat_spaces h, setSeat_setSpace h]

theorem setSeat_storeWord (i : Fin 512) (w : Word) :
    (m.setSeat u s b).storeWord t p i w = (m.storeWord t p i w).setSeat u s b := by
  unfold storeWord
  rw [setSeat_spaces h, setSeat_view h, setSeat_setSpace h, setSeat_pages, setSeat_setPage]
  split <;> rfl

theorem setSeat_storeByte (a : Addr) (v : Byte) :
    (m.setSeat u s b).storeByte t a v = (m.storeByte t a v).setSeat u s b := by
  rw [storeByte, setSeat_view h, setSeat_storeWord h]
  rfl

theorem setSeat_trap : Move.trap (m.setSeat u s b) t p = Move.trap m t p := by
  rw [Move.trap, Move.trap, setSeat_spaces h]

theorem setSeat_step_trap : (m.setSeat u s b).step (Move.trap m t p) =
    (m.step (Move.trap m t p)).map (·.setSeat u s b) := by
  have htrap := step_trap (m := m.setSeat u s b) (t := t) (p := p)
  rw [setSeat_trap h] at htrap
  rw [htrap, step_trap, setSeat_spaces h, setSeat_pages, Option.map_map]
  refine congrArg (Option.map · _) (funext fun x => ?_)
  change ((m.setPage p x.2).setSeat u s b).setSpace t x.1 = _
  exact setSeat_setSpace h

theorem setSeat_writable : (m.setSeat u s b).writable t p ↔ m.writable t p := by
  rw [writable, writable, setSeat_spaces h]

theorem setSeat_allows (a : Act) : (m.setSeat u s b).allows t a = m.allows t a := by
  cases a <;> simp only [allows, setSeat_spaces h, setSeat_position]

section Move

variable {σ : Type*} (mv : Move σ)

theorem setSeat_act : mv.act (m.setSeat u s b) t = mv.act m t := by
  cases mv with
  | load a next => simp only [Move.act, setSeat_spaces h, setSeat_trap h]
  | store a v next => simp only [Move.act, setSeat_writable h, setSeat_trap h]
  | call => rfl

theorem setSeat_after (l : σ) : mv.after (m.setSeat u s b) t l = mv.after m t l := by
  cases mv with
  | load a next => simp only [Move.after, setSeat_spaces h, viewByte, setSeat_view h]
  | store a v next => simp only [Move.after, setSeat_writable h]
  | call => rfl

/-- What the machine does for a move. -/
theorem setSeat_step_act {a : Act} (ha : mv.act m t = some a) :
    (m.setSeat u s b).step a = (m.step a).map (·.setSeat u s b) := by
  cases mv with
  | load c next =>
      obtain rfl := Option.some.inj ha
      split
      · simp only [step, setSeat_spaces h]
        split <;> rfl
      · exact setSeat_step_trap h
  | store c v next =>
      obtain rfl := Option.some.inj ha
      split
      · simp only [step, setSeat_writable h, List.mem_singleton, forall_eq, storeBytes,
          List.foldl_cons, List.foldl_nil, setSeat_storeByte h]
        split <;> rfl
      · exact setSeat_step_trap h
  | call => cases ha

end Move

/-! ## The commit -/

omit h in
theorem setSeat_ensureTwin :
    (m.setSeat u s b).ensureTwin p = (m.ensureTwin p).map (·.setSeat u s b) := by
  rw [ensureTwin_eq, ensureTwin_eq, Option.map_map]
  rfl

theorem setSeat_publish (v : BitVec 32) :
    (m.setSeat u s b).publish t p v = (m.publish t p v).setSeat u s b := by
  unfold publish
  simp only [setSeat_pages, setSeat_view h, setSeat_setPage, setSeat_setSharedPage h, setSeat_bitmap]
  split <;> rfl

theorem setSeat_finishEntry (e : PageInfo) (x : Bool) :
    (m.setSeat u s b).finishEntry t k e x = (m.finishEntry t k e x).setSeat u s b := by
  simp only [finishEntry, setSeat_spaces h, setSeat_setSpace h]

theorem setSeat_commitEntry :
    (m.setSeat u s b).commitEntry t k = (m.commitEntry t k).map (·.setSeat u s b) := by
  unfold commitEntry
  rw [setSeat_spaces h]
  cases (m.spaces t).dirty[k]? with
  | none => rfl
  | some e =>
      simp only [Option.bind_eq_bind, Option.bind_some, setSeat_ensureTwin]
      cases m.ensureTwin e.pageNo with
      | none => rfl
      | some n =>
          simp only [Option.map_some, Option.bind_some, setSeat_pages, setSeat_publish h,
            setSeat_setPage, setSeat_finishEntry h, setSeat_spaces h]
          split
          · rfl
          · split <;> rfl

theorem setSeat_updateAll : (m.setSeat u s b).updateAll t = (m.updateAll t).setSeat u s b := by
  unfold updateAll
  rw [setSeat_spaces h, setSeat_setSpace h]

theorem setSeat_atomicBegin : (m.setSeat u s b).atomicBegin t = (m.atomicBegin t).setSeat u s b := by
  rw [atomicBegin, atomicBegin, setSeat_spaces h, setSeat_updateAll h]
  split <;> rfl

theorem setSeat_atomicEnd (isHeap : ℕ → Bool) :
    (m.setSeat u s b).atomicEnd t isHeap = m.atomicEnd t isHeap := by
  simp only [atomicEnd, entriesOf, setSeat_spaces h]

theorem setSeat_nextOwned : (m.setSeat u s b).nextOwned t = m.nextOwned t := by
  rw [nextOwned, nextOwned, setSeat_spaces h, setSeat_pages]

theorem setSeat_finalcommitPage (x : Bool) :
    (m.setSeat u s b).finalcommitPage t p x = (m.finalcommitPage t p x).setSeat u s b := by
  unfold finalcommitPage
  rw [setSeat_commitOwnedPage h, setSeat_commitOwnedPage h, setSeat_setSharedPage h]
  split <;> rfl

theorem setSeat_exit : (m.setSeat u s b).exit t = (m.exit t).setSeat u s b := by
  simp [setSeat, exit, Function.update_comm h.symm]

end Other

end Mem

/-! ## The runtime -/

/-- What process `t` has to itself, the local state of its code included. -/
structure Seat (σ : Type*) where
  space : Space
  alive : Bool
  todo : List Phase
  exited : Bool
  retval : Word
  own : σ

def Runtime.setSeat {σ : Type*} (s : Runtime) (u : Tid) (r : Seat σ) : Runtime :=
  { s with
    mem := s.mem.setSeat u r.space r.alive
    todo := Function.update s.todo u r.todo
    exited := Function.update s.exited u r.exited
    retval := Function.update s.retval u r.retval }

namespace Execution

variable {σ : Type*} {isHeap : ℕ → Bool} {code : Tid → σ → Move σ} {x y : Execution σ} {t u : Tid}
  {r : Seat σ}

def seat (x : Execution σ) (t : Tid) : Seat σ where
  space := x.runtime.mem.spaces t
  alive := x.runtime.mem.alive t
  todo := x.runtime.todo t
  exited := x.runtime.exited t
  retval := x.runtime.retval t
  own := x.locals t

def setSeat (x : Execution σ) (u : Tid) (r : Seat σ) : Execution σ where
  runtime := x.runtime.setSeat u r
  locals := Function.update x.locals u r.own

theorem setSeat_seat : x.setSeat t (x.seat t) = x := by
  simp [setSeat, Runtime.setSeat, seat, Mem.setSeat]

@[simp] theorem seat_setSeat : (x.setSeat t r).seat t = r := by
  simp [setSeat, Runtime.setSeat, seat, Mem.setSeat]

theorem seat_setSeat_of_ne (h : t ≠ u) : (x.setSeat u r).seat t = x.seat t := by
  simp [setSeat, Runtime.setSeat, seat, Mem.setSeat, h]

/-- The next step of the script of `t`. -/
def next (isHeap : ℕ → Bool) (x : Execution σ) (t : Tid) : Option (Execution σ) :=
  (x.runtime.step isHeap (.next t)).map fun r => { x with runtime := r }

/-- Process `t` calls an operation. -/
def call (isHeap : ℕ → Bool) (x : Execution σ) (t : Tid) (op : Op) : Option (Execution σ) :=
  (x.runtime.step isHeap (.call t op)).map fun r => { x with runtime := r }

end Execution

/-- A phase of a commit, of the start of a transaction, or of the end of a process. -/
def Phase.plain : Phase → Bool
  | .begin | .commit | .entries _ | .finalcommit _ | .deregister | .retval _ | .exit => true
  | _ => false

/-- The process does not look at the pages. -/
def Phase.quiet : Phase → Bool
  | .begin | .deregister | .retval _ | .exit => true
  | _ => false

/-! ## Quiet steps -/

/-- The space at the start of a transaction. -/
def Space.begun (s : Space) : Space :=
  { s with
    priv := fun p =>
      if s.dirty.any fun e => e.pageNo = p ∧ ¬ e.isUpdated ∧ s.release e.slot then none else s.priv p
    prot := fun p => if s.dirty.any fun e => e.pageNo = p ∧ ¬ e.isUpdated then .read else s.prot p
    dirty := []
    cur := 0 }

namespace Seat

variable {σ : Type*}

/-- A quiet step, seen from the process. -/
def next (r : Seat σ) : Option (Seat σ) :=
  match r.todo with
  | .begin :: rest =>
      some { r with space := if r.space.isProtected then r.space.begun else r.space, todo := rest }
  | .deregister :: rest => some { r with exited := true, todo := rest }
  | .retval w :: rest => some { r with retval := w, todo := rest }
  | .exit :: rest => some { r with alive := false, todo := rest }
  | _ => none

def call (r : Seat σ) (op : Op) : Option (Seat σ) :=
  if r.exited = false ∧ r.todo = [] ∧ op.enabled r.space.isProtected then
    some { r with todo := op.script r.space.isProtected }
  else none

end Seat

namespace Execution

variable {σ : Type*} {isHeap : ℕ → Bool} {code : Tid → σ → Move σ} {x y : Execution σ} {t u : Tid}
  {r : Seat σ}

/-- A quiet step is a step of the seat. -/
theorem next_eq (h : (x.runtime.todo t).head?.any Phase.quiet = true) :
    x.next isHeap t = (x.seat t).next.map (x.setSeat t) := by
  cases htodo : x.runtime.todo t with
  | nil => simp [htodo] at h
  | cons ph rest =>
      have hquiet : ph.quiet = true := by simpa [htodo] using h
      unfold next Seat.next
      cases ph with
      | begin =>
          have hbegin : x.runtime.mem.atomicBegin t = x.runtime.mem.setSeat t
              (if (x.runtime.mem.spaces t).isProtected then (x.runtime.mem.spaces t).begun
                else x.runtime.mem.spaces t) (x.runtime.mem.alive t) := by
            unfold Mem.atomicBegin
            split
            · simp [Mem.setSeat, Mem.updateAll, Mem.setSpace, Space.begun]
            · exact Mem.setSeat_self.symm
          simp only [Runtime.step, Runtime.next, htodo, seat, Option.map_some, hbegin]
          simp [setSeat, Runtime.setSeat, Runtime.advance]
      | deregister | retval w =>
          simp only [Runtime.step, Runtime.next, htodo, seat, Option.map_some]
          simp [setSeat, Runtime.setSeat, Runtime.advance, Mem.setSeat_self]
      | exit =>
          simp only [Runtime.step, Runtime.next, htodo, seat, Option.map_some]
          simp [setSeat, Runtime.setSeat, Runtime.advance, Mem.setSeat, Mem.exit]
      | _ => cases hquiet

theorem call_eq (op : Op) (ht : t ∈ x.runtime.threads) :
    x.call isHeap t op = ((x.seat t).call op).map (x.setSeat t) := by
  simp only [call, Runtime.step, Seat.call, ht, true_and]
  by_cases hc : x.runtime.exited t = false ∧ x.runtime.todo t = [] ∧
      op.enabled (x.runtime.mem.spaces t).isProtected = true
  · rw [if_pos hc, if_pos (by exact hc)]
    simp [setSeat, Runtime.setSeat, seat, Runtime.advance, Mem.setSeat_self]
  · rw [if_neg hc, if_neg (by exact hc)]
    rfl

theorem threads_of_call {op : Op} (h : x.call isHeap t op = some y) :
    t ∈ x.runtime.threads ∧ y.runtime.threads = x.runtime.threads := by
  simp only [call, Runtime.step, Option.map_eq_some_iff, Option.ite_none_right_eq_some,
    Option.some.injEq] at h
  obtain ⟨s, ⟨⟨ht, -⟩, rfl⟩, rfl⟩ := h
  exact ⟨ht, rfl⟩

theorem threads_of_move (h : x.move isHeap code t = some y) :
    y.runtime.threads = x.runtime.threads := by
  obtain ⟨a, -, h⟩ := Option.bind_eq_some_iff.mp h
  obtain ⟨s, hs, rfl⟩ := Option.map_eq_some_iff.mp h
  simp only [Runtime.step, Option.ite_none_right_eq_some, Option.map_eq_some_iff] at hs
  obtain ⟨-, m, -, rfl⟩ := hs
  rfl

theorem threads_of_next (hp : (x.runtime.todo t).head?.any Phase.plain = true)
    (h : x.next isHeap t = some y) : y.runtime.threads = x.runtime.threads := by
  obtain ⟨s, hs, rfl⟩ := Option.map_eq_some_iff.mp h
  cases htodo : x.runtime.todo t with
  | nil => simp [htodo] at hp
  | cons ph rest =>
      have hplain : ph.plain = true := by simpa [htodo] using hp
      simp only [Runtime.step, Runtime.next, htodo] at hs
      cases ph with
      | entries ks =>
          cases ks with
          | nil =>
              obtain rfl := Option.some.inj hs
              rfl
          | cons k ks =>
              obtain ⟨m, -, rfl⟩ := Option.map_eq_some_iff.mp hs
              rfl
      | finalcommit b =>
          simp only at hs
          split at hs <;>
          · obtain rfl := Option.some.inj hs
            rfl
      | begin | commit | deregister | retval w | exit =>
          obtain rfl := Option.some.inj hs
          rfl
      | _ => cases hplain

theorem guarded_of_next (hg : x.runtime.Guarded) (h : x.next isHeap t = some y) :
    y.runtime.Guarded := by
  obtain ⟨s, hs, rfl⟩ := Option.map_eq_some_iff.mp h
  exact hg.step hs

theorem guarded_of_call {op : Op} (hg : x.runtime.Guarded) (h : x.call isHeap t op = some y) :
    y.runtime.Guarded := by
  obtain ⟨s, hs, rfl⟩ := Option.map_eq_some_iff.mp h
  exact hg.step hs

end Execution

/-! ## The other seats -/

namespace Runtime

variable {σ : Type*} {isHeap : ℕ → Bool} {s : Runtime} {t u : Tid} {r : Seat σ} (h : t ≠ u)
include h

theorem setSeat_todo : (s.setSeat u r).todo t = s.todo t := Function.update_of_ne h ..

theorem setSeat_exited : (s.setSeat u r).exited t = s.exited t := Function.update_of_ne h ..

theorem setSeat_advance {m : Mem} {rest : List Phase} :
    (s.setSeat u r).advance t (m.setSeat u r.space r.alive) rest =
      (s.advance t m rest).setSeat u r := by
  simp [setSeat, advance, Function.update_comm h.symm]

/-- A step of the script does not look at the seats of the others. -/
theorem setSeat_next (hp : (s.todo t).head?.any Phase.plain = true) :
    (s.setSeat u r).next isHeap t = (s.next isHeap t).map (·.setSeat u r) := by
  have hmem : (s.setSeat u r).mem = s.mem.setSeat u r.space r.alive := rfl
  cases htodo : s.todo t with
  | nil => simp [htodo] at hp
  | cons ph rest =>
      have hplain : ph.plain = true := by simpa [htodo] using hp
      have htodo' : (s.setSeat u r).todo t = ph :: rest := (setSeat_todo h).trans htodo
      simp only [next, htodo, htodo']
      cases ph with
      | begin =>
          simp only [Option.map_some, hmem, Mem.setSeat_atomicBegin h, setSeat_advance h]
      | commit =>
          simp only [Option.map_some, hmem, Mem.setSeat_atomicEnd h, setSeat_advance h]
      | entries ks =>
          cases ks with
          | nil => simp only [Option.map_some, hmem, setSeat_advance h]
          | cons k ks =>
              simp only [hmem, Mem.setSeat_commitEntry h, Option.map_map, Function.comp_def,
                setSeat_advance h]
      | finalcommit x =>
          simp only [hmem, Mem.setSeat_nextOwned h]
          cases s.mem.nextOwned t with
          | none => simp only [Option.map_some, setSeat_advance h]
          | some p =>
              simp only [Option.map_some, Mem.setSeat_finalcommitPage h, setSeat_advance h]
      | deregister =>
          simp only [Option.map_some, hmem, setSeat_advance h]
          simp [setSeat, Function.update_comm h.symm]
      | retval w =>
          simp only [Option.map_some, hmem, setSeat_advance h]
          simp [setSeat, Function.update_comm h.symm]
      | exit =>
          simp only [Option.map_some, hmem, Mem.setSeat_exit h, setSeat_advance h]
      | _ => cases hplain

end Runtime

namespace Execution

variable {σ : Type*} {isHeap : ℕ → Bool} {code : Tid → σ → Move σ} {x y : Execution σ} {t u : Tid}
  {r : Seat σ} (h : t ≠ u)
include h

theorem setSeat_next (hp : (x.runtime.todo t).head?.any Phase.plain = true) :
    (x.setSeat u r).next isHeap t = (x.next isHeap t).map (·.setSeat u r) := by
  have hnext : (x.setSeat u r).runtime.step isHeap (.next t) =
      (x.runtime.step isHeap (.next t)).map (·.setSeat u r) := Runtime.setSeat_next h hp
  rw [next, next, hnext, Option.map_map, Option.map_map]
  rfl

theorem setSeat_call (op : Op) :
    (x.setSeat u r).call isHeap t op = (x.call isHeap t op).map (·.setSeat u r) := by
  have hexited : (x.setSeat u r).runtime.exited t = x.runtime.exited t := Runtime.setSeat_exited h
  have htodo : (x.setSeat u r).runtime.todo t = x.runtime.todo t := Runtime.setSeat_todo h
  have hspace : (x.setSeat u r).runtime.mem.spaces t = x.runtime.mem.spaces t :=
    Mem.setSeat_spaces h
  have hthreads : (x.setSeat u r).runtime.threads = x.runtime.threads := rfl
  have hmem : (x.setSeat u r).runtime.mem = x.runtime.mem.setSeat u r.space r.alive := rfl
  have hadvance : (x.setSeat u r).runtime.advance t (x.setSeat u r).runtime.mem
      (op.script (x.runtime.mem.spaces t).isProtected) =
        (x.runtime.advance t x.runtime.mem
          (op.script (x.runtime.mem.spaces t).isProtected)).setSeat u r := Runtime.setSeat_advance h
  simp only [call, Runtime.step, hexited, htodo, hspace, hthreads, hadvance]
  split <;> rfl

/-- A move of the code does not look at the seats of the others. -/
theorem setSeat_move :
    (x.setSeat u r).move isHeap code t = (x.move isHeap code t).map (·.setSeat u r) := by
  have hlocal : (x.setSeat u r).locals t = x.locals t := Function.update_of_ne h ..
  have hmem : (x.setSeat u r).runtime.mem = x.runtime.mem.setSeat u r.space r.alive := rfl
  have hact : (code t (x.locals t)).act (x.setSeat u r).runtime.mem t =
      (code t (x.locals t)).act x.runtime.mem t := Mem.setSeat_act h _
  have hafter : (code t (x.locals t)).after (x.setSeat u r).runtime.mem t (x.locals t) =
      (code t (x.locals t)).after x.runtime.mem t (x.locals t) := Mem.setSeat_after h _ _
  have hstep : ∀ a, (code t (x.locals t)).act x.runtime.mem t = some a →
      (x.setSeat u r).runtime.step isHeap (.user t a) =
        (x.runtime.step isHeap (.user t a)).map (·.setSeat u r) := by
    intro a ha
    have hexited : (x.setSeat u r).runtime.exited t = x.runtime.exited t := Runtime.setSeat_exited h
    have htodo : (x.setSeat u r).runtime.todo t = x.runtime.todo t := Runtime.setSeat_todo h
    have hthreads : (x.setSeat u r).runtime.threads = x.runtime.threads := rfl
    simp only [Runtime.step, hexited, htodo, hthreads, hmem, Mem.setSeat_allows h,
      Mem.setSeat_step_act h _ ha, Option.map_map, Function.comp_def]
    split
    · rw [Option.map_map]
      refine congrArg (Option.map · _) (funext fun m => ?_)
      exact Runtime.setSeat_advance h
    · rfl
  unfold move
  rw [hlocal, hact, hafter]
  cases ha : (code t (x.locals t)).act x.runtime.mem t with
  | none => rfl
  | some a =>
      simp only [Option.bind_some, hstep a ha, Option.map_map]
      refine congrArg (Option.map · _) (funext fun s => ?_)
      simp [setSeat, Function.update_comm h.symm]

end Execution

end Dthreads.Memory
