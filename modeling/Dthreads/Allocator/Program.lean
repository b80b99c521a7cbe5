import Dthreads.Allocator.Refinement

/-! # Programs on the heap

A program calls the heap, and stores to the bytes that it holds. Whatever it does, the heap keeps the
ledger: each object is apart from the others, and its bytes are those that the program has stored. -/

namespace Dthreads.Allocator

open Kingsley Bytes Transition

/-- What a program does. -/
inductive Call where
  | malloc (id : HeapId) (sz : SizeT)
  | calloc (id : HeapId) (nmemb sz : SizeT)
  | realloc (id : HeapId) (p : ℕ) (sz : SizeT)
  | free (id : HeapId) (p : ℕ)
  | store (a : ℕ) (b : UInt8)

structure Program where
  heap : Threaded
  live : List Object

namespace Program

def held (s : Program) : List ℕ := s.live.map Object.ptr

/-- The call has returned `o`, and the heap is `t`. -/
def receive (s : Program) (t : Threaded) (o : Object) : Program :=
  { heap := t, live := if o.ptr = 0 then s.live else o :: s.live }

/-- The program no longer holds the object at `p`. -/
def release (s : Program) (p : ℕ) : Program :=
  { s with live := s.live.filter fun o => o.ptr ≠ p }

def step (s : Program) : Call → Option Program
  | .malloc id sz => (s.heap.malloc id sz).map fun (p, t) => s.receive t ⟨p, sz⟩
  | .calloc id nmemb sz => (s.heap.calloc id nmemb sz).map fun (p, t) => s.receive t ⟨p, nmemb * sz⟩
  | .realloc id p sz => (s.heap.realloc id p sz).map fun (q, t) => (s.release p).receive t ⟨q, sz⟩
  | .free id p => (s.heap.free id p).map fun t => { s.release p with heap := t }
  | .store a b =>
      some { s with heap := { s.heap with memory := Function.update s.heap.memory a b } }

/-- The request wraps in no layer, and the program touches only what it holds. -/
def Lawful (s : Program) : Call → Prop
  | .malloc _ sz => (sz : ℕ) + 4143 < 2 ^ 64
  | .calloc id nmemb sz => Heap.Fits (.calloc id nmemb sz)
  | .realloc _ p sz => (sz : ℕ) + 4143 < 2 ^ 64 ∧ (p = 0 ∨ p ∈ s.held)
  | .free _ p => p = 0 ∨ p ∈ s.held
  | .store a _ => ∃ o ∈ s.live, o.Has a

def boot (r : Region) (m : ℕ → UInt8) : Program := ⟨Threaded.boot r m, []⟩

/-- What a call means to the program. -/
inductive Answers : Call → List Ledger.Event → Prop where
  | malloc (id : HeapId) (sz : SizeT) (p : ℕ) (f : ℕ → UInt8) :
      Answers (.malloc id sz) [.give ⟨p, sz⟩ f]
  | calloc (id : HeapId) (nmemb sz : SizeT) (p : ℕ) :
      Answers (.calloc id nmemb sz) [.give ⟨p, nmemb * sz⟩ fun _ => 0]
  | reallocNull (id : HeapId) (sz : SizeT) (p : ℕ) (f : ℕ → UInt8) :
      Answers (.realloc id 0 sz) [.give ⟨p, sz⟩ f]
  | reallocZero (id : HeapId) (p : ℕ) (sz : SizeT) : p ≠ 0 → (sz : ℕ) = 0 →
      Answers (.realloc id p sz) [.take p]
  | realloc (id : HeapId) (p q : ℕ) (sz : SizeT) (f : ℕ → UInt8) : p ≠ 0 → (sz : ℕ) ≠ 0 →
      Answers (.realloc id p sz) [.resize p ⟨q, sz⟩ f]
  | free (id : HeapId) (p : ℕ) : p ≠ 0 → Answers (.free id p) [.take p]
  | freeNull (id : HeapId) : Answers (.free id 0) []
  | store (a : ℕ) (b : UInt8) : Answers (.store a b) [.store a b]

/-- The memory of the program is that of a heap of lists that keeps its contract. -/
def Sound (r : Region) (s : Program) : Prop :=
  ∃ h, s.heap.Image h ∧ Session.Contract r ⟨h, s.live⟩

/-- The ledger says what the program holds, and the bytes of it. -/
structure Tracks {r : Region} (s : Program) (l : Ledger r) : Prop where
  sound : s.Sound r
  held : l.held = s.live
  bytes : ∀ o ∈ s.live, ∀ a, o.Has a → s.heap.memory a = l.bytes a

variable {r : Region} {s w : Program} {l : Ledger r} {t : Threaded} {h g : Heap} {id : HeapId}
  {p q n sz : ℕ} {o : Object} {live : List Object}

/-- No byte that the program holds belongs to the heap. -/
theorem live_not_meta (hc : Session.Contract r ⟨h, live⟩) (ho : o ∈ live) {a : ℕ} (ha : o.Has a) :
    ¬ h.Meta a := by
  obtain ⟨n, hn, hle⟩ := hc.kept.live o ho
  have hnot : ∀ i k, o.ptr ∉ h.bins i k :=
    fun i k hin => (hc.kept.bin i k _ hin).2.2 (List.mem_map_of_mem ho)
  have := ha.2
  exact Threaded.payload_not_meta hc hn hnot ha.1 (by omega)

/-- Stores to what the program holds do not disturb the heap. -/
theorem image_of_stores (hi : t.Image h) (hc : Session.Contract r ⟨h, live⟩) {m : ℕ → UInt8}
    (hm : ∀ a, (∀ o ∈ live, ¬ o.Has a) → m a = t.memory a) :
    Threaded.Image { t with memory := m } h := by
  refine hi.of_memory (s := ⟨h, live⟩) hc rfl rfl rfl fun a ha => hm a fun o ho hin => ?_
  exact live_not_meta hc ho hin ha

/-- A new object is free in the ledger. -/
theorem Tracks.free (ht : s.Tracks l) (hc : Session.Contract r ⟨g, o :: s.live⟩) : l.Free o := by
  have hr := hc.reliable
  have hspan : ∀ o' ∈ o :: s.live, o'.span.Within (Session.footprint o') := by
    intro o' ho'
    have := (hr.inside o' ho').1
    simp only [Span.Within, Span.stop, Session.footprint, Object.span]
    omega
  refine ⟨(hspan o List.mem_cons_self).trans (hr.inside o List.mem_cons_self).2.2, ?_⟩
  intro o' ho'
  rw [ht.held] at ho'
  obtain ⟨hne, hd⟩ := List.rel_of_pairwise_cons hr.apart ho'
  exact ⟨hne, hd.mono (hspan o List.mem_cons_self) (hspan o' (List.mem_cons_of_mem _ ho'))⟩

/-- No byte is in two objects. -/
theorem outside_of_free (hf : l.Free o) {o' : Object} (ho' : o' ∈ l.held) {a : ℕ}
    (ha : o'.Has a) : a < o.ptr ∨ o.ptr + o.size ≤ a := by
  have hd := (hf.2 o' ho').2
  simp only [Span.Disjoint, Span.stop, Object.span] at hd
  have := ha.1
  have := ha.2
  omega

/-- An object is given out with the bytes that it has. -/
theorem Tracks.give (ht : s.Tracks l) (hi : t.Image g) (hc : Session.Contract r ⟨g, o :: s.live⟩)
    {f : ℕ → UInt8} (hnew : ∀ a, o.Has a → t.memory a = f a)
    (hold : ∀ o' ∈ s.live, ∀ a, o'.Has a → t.memory a = s.heap.memory a) :
    Tracks ⟨t, o :: s.live⟩ (l.enter o f (ht.free hc)) where
  sound := ⟨g, hi, hc⟩
  held := congrArg _ ht.held
  bytes o' ho' a ha := by
    rcases List.mem_cons.mp ho' with rfl | ho'
    · exact (hnew a ha).trans (overwrite_of_inside ha.1 ha.2).symm
    · have hout := outside_of_free (ht.free hc) (ht.held ▸ ho') ha
      exact (hold o' ho' a ha).trans ((ht.bytes o' ho' a ha).trans
        (overwrite_of_outside hout).symm)

theorem Tracks.malloc (ht : s.Tracks l) (hm : s.heap.malloc id sz = some (p, t))
    (hsz : sz + 4143 < 2 ^ 64) :
    p ≠ 0 ∧ ∃ g, t.Image g ∧ Session.Contract r ⟨g, ⟨p, sz⟩ :: s.live⟩ ∧
      ∀ o ∈ s.live, ∀ a, o.Has a → t.memory a = s.heap.memory a := by
  obtain ⟨h, hi, hc⟩ := ht.sound
  obtain ⟨g, hg, himage, hmem⟩ := Threaded.Image.malloc (s := ⟨h, s.live⟩) hi hc hsz hm
  obtain ⟨hp, hc', -⟩ := hc.malloc hg hsz
  refine ⟨hp, g, himage, hc', fun o ho a ha => hmem a ?_⟩
  exact live_not_meta hc' (List.mem_cons_of_mem _ ho) ha

/-- An object is given back; the others keep their bytes. -/
theorem Sound.free (hi : s.heap.Image h) (hc : Session.Contract r ⟨h, s.live⟩) (hp : p ∈ s.held)
    (hm : s.heap.free id p = some t) :
    ∃ g, t.Image g ∧ Session.Contract r ⟨g, (s.release p).live⟩ ∧
      ∀ o ∈ (s.release p).live, ∀ a, o.Has a → t.memory a = s.heap.memory a := by
  obtain ⟨g, hg, himage, hmem⟩ := Threaded.Image.free (s := ⟨h, s.live⟩) hi hc hp hm
  have hc' := (hc.free (.inr hp) hg).1
  exact ⟨g, himage, hc', fun o ho a ha => hmem a (live_not_meta hc' ho ha)⟩

theorem Tracks.free_answer (ht : s.Tracks l) (hp : p ∈ s.held)
    (hm : s.heap.free id p = some t) :
    ∃ w, l.step (.take p) = some w ∧ Tracks { s.release p with heap := t } w := by
  obtain ⟨h, hi, hc⟩ := ht.sound
  obtain ⟨g, himage, hc', hmem⟩ := Sound.free hi hc hp hm
  obtain ⟨o, ho, hop⟩ := List.mem_map.mp hp
  refine ⟨_, Ledger.step_take ⟨o, ht.held ▸ ho, hop⟩, ⟨g, himage, hc'⟩, ?_, fun o' ho' a ha => ?_⟩
  · exact congrArg (List.filter fun o => o.ptr ≠ p) ht.held
  · exact (hmem o' ho' a ha).trans (ht.bytes o' (List.mem_filter.mp ho').1 a ha)

theorem Tracks.malloc_answer (ht : s.Tracks l) (hm : s.heap.malloc id sz = some (p, t))
    (hsz : sz + 4143 < 2 ^ 64) :
    ∃ w, l.step (.give ⟨p, sz⟩ t.memory) = some w ∧ Tracks (s.receive t ⟨p, sz⟩) w := by
  obtain ⟨hp, g, himage, hc, hmem⟩ := ht.malloc hm hsz
  refine ⟨_, Ledger.step_give (ht.free hc), ?_⟩
  rw [receive, if_neg hp]
  exact ht.give himage hc (fun _ _ => rfl) hmem

theorem memset_cases {t' : Threaded} (hm : t.memset p n = some t') :
    p + n ≤ 2 ^ 47 ∧ t' = { t with memory := overwrite t.memory p n fun _ => 0 } := by
  unfold Threaded.memset at hm
  split at hm
  · exact ⟨‹_›, (Option.some.inj hm).symm⟩
  · cases hm

/-- The bytes of the object are set to zero twice. -/
theorem calloc_cases {nmemb : ℕ} {t' : Threaded} (hm : t.calloc id nmemb sz = some (p, t')) :
    ∃ u, t.malloc id (nmemb * sz % 2 ^ 64) = some (p, u) ∧ p + nmemb * sz % 2 ^ 64 ≤ 2 ^ 47 ∧
      t' = { u with memory := overwrite u.memory p (nmemb * sz % 2 ^ 64) fun _ => 0 } := by
  unfold Threaded.calloc Threaded.xrunCalloc at hm
  simp only [Option.bind_eq_some_iff, Option.map_eq_some_iff] at hm
  obtain ⟨⟨q, v⟩, ⟨⟨q', u⟩, hmal, v', hset, hq⟩, hm⟩ := hm
  dsimp only at hset hm
  obtain ⟨rfl, rfl⟩ := Prod.mk.inj hq
  obtain ⟨hle, rfl⟩ := memset_cases hset
  split at hm
  · cases hm
  · rw [Option.map_eq_some_iff] at hm
    obtain ⟨v, hset', hq⟩ := hm
    obtain ⟨rfl, rfl⟩ := Prod.mk.inj hq
    obtain ⟨-, hv⟩ := memset_cases hset'
    refine ⟨u, hmal, hle, hv.trans ?_⟩
    have hsame : overwrite (overwrite u.memory q' (nmemb * sz % 2 ^ 64) fun _ => 0) q'
        (sz * nmemb % 2 ^ 64) (fun _ => 0) =
          overwrite u.memory q' (nmemb * sz % 2 ^ 64) fun _ => 0 := by
      rw [Nat.mul_comm sz]
      funext a
      unfold overwrite
      split <;> rfl
    rw [hsame]

theorem Tracks.calloc_answer {nmemb sz : SizeT} (ht : s.Tracks l)
    (hm : s.heap.calloc id nmemb sz = some (p, t)) (hf : Heap.Fits (.calloc id nmemb sz)) :
    ∃ l', l.step (.give ⟨p, nmemb * sz⟩ fun _ => 0) = some l' ∧
      Tracks (s.receive t ⟨p, nmemb * sz⟩) l' := by
  obtain ⟨u, hmal, hend, hw⟩ := calloc_cases hm
  obtain ⟨hp, g, himage, hc, hmem⟩ := ht.malloc hmal (by omega)
  have hprod : (nmemb * sz : ℕ) < 2 ^ 64 := by
    obtain ⟨n, hn, hle⟩ := hc.kept.live _ List.mem_cons_self
    have := ((hc.sound.header p n hn).2.lt hc.sound.toPlaced).2.2
    exact hf.resolve_right fun hbig => by
      dsimp only at hle
      omega
  rw [Nat.mod_eq_of_lt hprod] at hc hw
  refine ⟨_, Ledger.step_give (ht.free hc), ?_⟩
  rw [receive, if_neg hp, hw]
  refine ht.give (f := fun _ => 0) (image_of_stores himage hc fun a ha => ?_) hc
    (fun a ha => ?_) fun o ho a ha => ?_
  · have := ha _ List.mem_cons_self
    unfold Object.Has at this
    exact overwrite_of_outside (by dsimp only at this; omega)
  · have hin : overwrite u.memory p (nmemb * sz) (fun _ => 0) a = 0 := overwrite_of_inside ha.1 ha.2
    exact hin
  · have hout := outside_of_free (ht.free hc) (ht.held ▸ ho) ha
    have hsame : overwrite u.memory p (nmemb * sz) (fun _ => 0) a = u.memory a :=
      overwrite_of_outside hout
    exact hsame.trans (hmem o ho a ha)

/-! ## Objects that are resized -/

theorem memcpy_eq {t' : Threaded} (hm : t.memcpy q p n = some t') :
    t' = { t with memory := overwrite t.memory q n fun b => t.memory (b - q + p) } := by
  unfold Threaded.memcpy at hm
  split at hm
  · exact (Option.some.inj hm).symm
  · cases hm

theorem realloc_cases {t' : Threaded} (hp : p ≠ 0) (hsz : sz ≠ 0)
    (hm : t.realloc id p sz = some (q, t')) :
    ∃ n u v, t.getSize p = some n ∧ t.malloc id sz = some (q, u) ∧
      (q ≠ 0 → v = { u with
        memory := overwrite u.memory q (if n < sz then n else sz) fun b => u.memory (b - q + p) }) ∧
      v.free id p = some t' := by
  unfold Threaded.realloc Threaded.xmemoryRealloc at hm
  rw [if_neg hp, if_neg hsz] at hm
  simp only [Option.bind_eq_some_iff, Option.map_eq_some_iff] at hm
  obtain ⟨n, hn, ⟨q', u⟩, hmal, v, hcopy, t'', hfree, hq⟩ := hm
  obtain ⟨rfl, rfl⟩ := Prod.mk.inj hq
  refine ⟨n, u, v, hn, hmal, fun hq0 => ?_, hfree⟩
  dsimp only at hcopy
  rw [if_neg hq0] at hcopy
  exact memcpy_eq hcopy

/-- The new object has the bytes of the old one, as far as both have as many. -/
theorem Tracks.realloc_answer (ht : s.Tracks l) (hp : p ∈ s.held) (hsz : sz + 4143 < 2 ^ 64)
    (hsz0 : sz ≠ 0) (hm : s.heap.realloc id p sz = some (q, t)) :
    ∃ w, l.step (.resize p ⟨q, sz⟩ t.memory) = some w ∧
      Tracks ((s.release p).receive t ⟨q, sz⟩) w := by
  obtain ⟨o, ho, rfl⟩ := List.mem_map.mp hp
  obtain ⟨h, hi, hc⟩ := ht.sound
  obtain ⟨hp0, -⟩ := hc.header_of_held hp
  obtain ⟨m, hhead, hle⟩ := hc.kept.live o ho
  obtain ⟨n, u, v, hn, hmal, hv, hfree⟩ := realloc_cases hp0 hsz0 hm
  obtain rfl : m = n := Option.some.inj ((hi.getSize hhead).symm.trans hn)
  obtain ⟨hq, g, himage, hcg, hmem⟩ := ht.malloc hmal hsz
  have hv := hv hq
  have hfreeo := ht.free hcg
  have hqp : o.ptr ≠ q := Ne.symm (hfreeo.2 o (ht.held ▸ ho)).1
  -- the old object is given back by a program that holds both
  have hvimage : v.Image g := by
    rw [hv]
    refine image_of_stores himage hcg fun a ha => overwrite_of_outside ?_
    have := ha _ List.mem_cons_self
    unfold Object.Has at this
    split <;> dsimp only at this <;> omega
  obtain ⟨g', himage', hc', hmem'⟩ := Sound.free (s := ⟨v, ⟨q, sz⟩ :: s.live⟩) hvimage hcg
    (List.mem_map_of_mem (List.mem_cons_of_mem _ ho)) hfree
  have hlive : (release ⟨v, ⟨q, sz⟩ :: s.live⟩ o.ptr).live =
      ⟨q, sz⟩ :: (s.release o.ptr).live := by
    simp [release, hqp.symm]
  rw [hlive] at hc' hmem'
  refine ⟨_, Ledger.step_resize (ht.held ▸ ho) hfreeo, ?_⟩
  rw [receive, if_neg hq]
  refine ⟨⟨g', himage', hc'⟩, ?_, fun o' ho' a ha => ?_⟩
  · rw [← hlive]
    exact congrArg (List.filter fun o' => o'.ptr ≠ o.ptr) (congrArg (List.cons _) ht.held)
  · have htv := hmem' o' ho' a ha
    rw [hv] at htv
    dsimp only at htv ⊢
    rw [htv]
    rcases List.mem_cons.mp ho' with rfl | hold
    · have hnew : overwrite l.bytes q sz (l.copied o ⟨q, sz⟩ t.memory) a =
          l.copied o ⟨q, sz⟩ t.memory a := overwrite_of_inside ha.1 ha.2
      refine Eq.trans ?_ hnew.symm
      have hq_le : q ≤ a := ha.1
      have hlt : a < q + sz := ha.2
      unfold Ledger.copied
      dsimp only
      by_cases hsize : a - q < o.size
      · have hin : o.Has (o.ptr + (a - q)) := ⟨Nat.le_add_right .., Nat.add_lt_add_left hsize _⟩
        have hcopy : overwrite u.memory q (if m < sz then m else sz)
            (fun b => u.memory (b - q + o.ptr)) a = u.memory (a - q + o.ptr) := by
          apply overwrite_of_inside hq_le
          split <;> omega
        rw [if_pos hsize, hcopy, Nat.add_comm (a - q)]
        exact (hmem o ho _ hin).trans (ht.bytes o ho _ hin)
      · rw [if_neg hsize]
        exact htv.symm
    · have hold' := (List.mem_filter.mp hold).1
      have hout := outside_of_free hfreeo (ht.held ▸ hold') ha
      have hsame : overwrite l.bytes q sz (l.copied o ⟨q, sz⟩ t.memory) a = l.bytes a :=
        overwrite_of_outside hout
      have hkeep : overwrite u.memory q (if m < sz then m else sz)
          (fun b => u.memory (b - q + o.ptr)) a = u.memory a := by
        apply overwrite_of_outside
        dsimp only at hout
        split <;> omega
      exact hkeep.trans ((hmem o' hold' a ha).trans ((ht.bytes o' hold' a ha).trans hsame.symm))

/-! ## Whole runs -/

theorem Tracks.store_answer (ht : s.Tracks l) {a : ℕ} (b : UInt8) (ha : ∃ o ∈ s.live, o.Has a) :
    ∃ w, l.step (.store a b) = some w ∧ Tracks { s with
      heap := { s.heap with memory := Function.update s.heap.memory a b } } w := by
  obtain ⟨h, hi, hc⟩ := ht.sound
  refine ⟨_, Ledger.step_store (by rwa [ht.held]), ⟨h, ?_, hc⟩, ht.held, fun o ho x hx => ?_⟩
  · refine image_of_stores hi hc fun x hx => Function.update_of_ne ?_ ..
    rintro rfl
    obtain ⟨o, ho, hin⟩ := ha
    exact hx o ho hin
  · change Function.update s.heap.memory a b x = Function.update l.bytes a b x
    rw [Function.update_apply, Function.update_apply, ht.bytes o ho x hx]

/-- What is free is no object. -/
theorem release_null (ht : s.Tracks l) : s.release 0 = s := by
  obtain ⟨h, -, hc⟩ := ht.sound
  have hall : (s.live.filter fun o => o.ptr ≠ 0) = s.live := by
    rw [List.filter_eq_self]
    intro o ho
    simpa using (hc.header_of_held (List.mem_map_of_mem ho)).1
  rw [release, hall]

theorem Tracks.step {a : Call} (ht : s.Tracks l) (hlaw : s.Lawful a) (hm : s.step a = some w) :
    ∃ bs l', Answers a bs ∧ Run Ledger.step (fun _ _ => True) l bs l' ∧ w.Tracks l' := by
  cases a with
  | malloc id sz =>
      obtain ⟨⟨p, t⟩, hcall, rfl⟩ := Option.map_eq_some_iff.mp hm
      obtain ⟨l', hl, ht'⟩ := ht.malloc_answer hcall hlaw
      exact ⟨_, l', .malloc id sz p t.memory, .single trivial hl, ht'⟩
  | calloc id nmemb sz =>
      obtain ⟨⟨p, t⟩, hcall, rfl⟩ := Option.map_eq_some_iff.mp hm
      obtain ⟨l', hl, ht'⟩ := ht.calloc_answer hcall hlaw
      exact ⟨_, l', .calloc id nmemb sz p, .single trivial hl, ht'⟩
  | realloc id p sz =>
      obtain ⟨hsz, hp⟩ := hlaw
      obtain ⟨⟨q, t⟩, hcall, rfl⟩ := Option.map_eq_some_iff.mp hm
      by_cases hp0 : p = 0
      · subst hp0
        rw [Threaded.realloc, if_pos rfl] at hcall
        obtain ⟨l', hl, ht'⟩ := ht.malloc_answer hcall hsz
        refine ⟨_, l', .reallocNull id sz q t.memory, .single trivial hl, ?_⟩
        simpa only [release_null ht] using ht'
      · have hheld := hp.resolve_left hp0
        by_cases hsz0 : (sz : ℕ) = 0
        · rw [Threaded.realloc, if_neg hp0, if_pos hsz0, Option.map_eq_some_iff] at hcall
          obtain ⟨u, hfree, hq⟩ := hcall
          obtain ⟨rfl, rfl⟩ := Prod.mk.inj hq
          obtain ⟨l', hl, ht'⟩ := ht.free_answer hheld hfree
          exact ⟨_, l', .reallocZero id p sz hp0 hsz0, .single trivial hl, ht'⟩
        · obtain ⟨l', hl, ht'⟩ := ht.realloc_answer hheld hsz hsz0 hcall
          exact ⟨_, l', .realloc id p q sz t.memory hp0 hsz0, .single trivial hl, ht'⟩
  | free id p =>
      obtain ⟨t, hcall, rfl⟩ := Option.map_eq_some_iff.mp hm
      by_cases hp0 : p = 0
      · subst hp0
        rw [Threaded.free, if_pos rfl] at hcall
        cases hcall
        refine ⟨_, l, .freeNull id, .nil l, ?_⟩
        rw [release_null ht]
        exact ht
      · obtain ⟨l', hl, ht'⟩ := ht.free_answer (Or.resolve_left hlaw hp0) hcall
        exact ⟨_, l', .free id p hp0, .single trivial hl, ht'⟩
  | store a b =>
      cases hm
      obtain ⟨l', hl, ht'⟩ := ht.store_answer b hlaw
      exact ⟨_, l', .store a b, .single trivial hl, ht'⟩

instance (o : Object) (a : ℕ) : Decidable (o.Has a) :=
  inferInstanceAs (Decidable (o.ptr ≤ a ∧ a < o.ptr + o.size))

instance (s : Program) (a : Call) : Decidable (s.Lawful a) :=
  match a with
  | .malloc _ sz => inferInstanceAs (Decidable ((sz : ℕ) + 4143 < 2 ^ 64))
  | .calloc _ nmemb sz => inferInstanceAs (Decidable ((nmemb * sz : ℕ) < 2 ^ 64 ∨
      2 ^ 32 - 48 < (nmemb * sz : ℕ) % 2 ^ 64))
  | .realloc _ p sz => inferInstanceAs (Decidable ((sz : ℕ) + 4143 < 2 ^ 64 ∧ (p = 0 ∨ p ∈ s.held)))
  | .free _ p => inferInstanceAs (Decidable (p = 0 ∨ p ∈ s.held))
  | .store a _ => inferInstanceAs (Decidable (∃ o ∈ s.live, o.Has a))

end Program

end Dthreads.Allocator
