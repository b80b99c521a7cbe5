import Dthreads.Allocator.Ledger
import Dthreads.Allocator.Requests
import Dthreads.Transition.Simulation
import Mathlib.Data.List.Pairwise

/-! # The contract of the heap

A program holds the objects that it was given and has not given back. Over any requests of any heap
ids the blocks stay disjoint, and an object is held, or waits in the one free list of its class. -/

namespace Dthreads.Allocator

open Kingsley Transition

namespace Span

theorem Disjoint.symm {s t : Span} (h : s.Disjoint t) : t.Disjoint s := Or.symm h

instance : Std.Symm Span.Disjoint := ⟨fun _ _ hd => hd.symm⟩

theorem Disjoint.mono {s t s' t' : Span} (h : s.Disjoint t) (hs : s'.Within s) (ht : t'.Within t) :
    s'.Disjoint t' :=
  h.imp (fun hle => hs.2.trans (hle.trans ht.1)) fun hle => ht.2.trans (hle.trans hs.1)

theorem Within.trans {s t u : Span} (h : s.Within t) (h' : t.Within u) : s.Within u :=
  ⟨h'.1.trans h.1, h.2.trans h'.2⟩

end Span

/-- What is kept for each class of each heap id, after one entry was replaced. -/
theorem update_class {β : Type*} (f : HeapId → ℕ → β) (id : HeapId) (k : ℕ) (v : β) (i : HeapId)
    (j : ℕ) : Function.update f id (Function.update (f id) k v) i j =
      if i = id ∧ j = k then v else f i j := by
  by_cases hi : i = id
  · subst hi
    simp [Function.update_apply]
  · simp [hi]

/-! ## The layout of the region -/

/-- What an arena has left. -/
def Arena.span (a : Arena) : Span := ⟨a.arenaSpace, a.remaining⟩

namespace Heap

variable {h h' : Heap} {id : HeapId} {r : Region} {p n sz : ℕ} {a : Arena}

/-- The chunks are whole pages of their own, and the blocks lie in them apart from each other, from
the headers of the arenas and from what the arenas have left. -/
structure Laid (h : Heap) : Prop where
  chunks : h.chunks.Pairwise fun c c' => c.2.Disjoint c'.2
  paged : ∀ c ∈ h.chunks, 4096 ∣ c.2.start ∧ 4096 ∣ c.2.length
  roomy : ∀ c ∈ h.chunks, 32 ≤ c.2.length
  position : 4096 ∣ h.xheap.position
  blocks : h.blocks.Pairwise Span.Disjoint
  housed : ∀ b ∈ h.blocks, ∃ c ∈ h.chunks, c.2.start + 32 ≤ b.start ∧ b.stop ≤ c.2.stop
  even : ∀ b ∈ h.blocks, 8 ∣ b.start
  spare : ∀ id a, h.arena id = some a → 8 ∣ a.arenaSpace ∧ ∀ b ∈ h.blocks, a.span.Disjoint b

theorem Laid.chunk_disjoint (hl : Laid h) {c c' : HeapId × Span} (hc : c ∈ h.chunks)
    (hc' : c' ∈ h.chunks) (hne : c ≠ c') : c.2.Disjoint c'.2 := by
  have : Std.Symm fun c c' : HeapId × Span => c.2.Disjoint c'.2 := ⟨fun _ _ hd => hd.symm⟩
  exact hl.chunks.forall hc hc' hne

theorem Laid.block_disjoint (hl : Laid h) {b b' : Span} (hb : b ∈ h.blocks) (hb' : b' ∈ h.blocks)
    (hne : b ≠ b') : b.Disjoint b' :=
  hl.blocks.forall hb hb' hne

/-- A block does not reach into the header of an arena. -/
theorem Laid.header_disjoint (hl : Laid h) {c : HeapId × Span} {b : Span} (hc : c ∈ h.chunks)
    (hb : b ∈ h.blocks) : Span.Disjoint ⟨c.2.start, 32⟩ b := by
  obtain ⟨c', hc', hstart, hstop⟩ := hl.housed b hb
  by_cases he : c = c'
  · subst he
    exact .inl hstart
  · have := hl.roomy c hc
    exact (hl.chunk_disjoint hc hc' he).mono ⟨le_rfl, by simp only [Span.stop]; omega⟩
      ⟨by omega, hstop⟩

theorem Sound.below (hs : Sound r h) (hl : Laid h) {b : Span} (hb : b ∈ h.blocks) :
    b.stop ≤ h.xheap.position := by
  obtain ⟨c, hc, -, hle⟩ := hl.housed b hb
  exact hle.trans (hs.chunk c hc).2

theorem Laid.carved (hl : Laid h) (hs : Sound r h) (ha : h.arena id = some a)
    (hle : sz ≤ a.remaining) (h8 : 8 ∣ sz) : Laid (h.carved id a sz) := by
  obtain ⟨c, hc, hid, hstart, hstop⟩ := hs.arena id a ha
  obtain ⟨h8a, hspare⟩ := hl.spare id a ha
  have hnew : Span.Within ⟨a.arenaSpace, sz⟩ a.span := by
    simp only [Span.Within, Span.stop, Arena.span]
    omega
  have hrest : Span.Within ⟨a.arenaSpace + sz, a.remaining - sz⟩ a.span := by
    simp only [Span.Within, Span.stop, Arena.span]
    omega
  have hself : ∀ b : Span, b.Within b := fun b => ⟨le_rfl, le_rfl⟩
  refine ⟨hl.chunks, hl.paged, hl.roomy, hl.position, List.pairwise_cons.mpr ⟨fun b hb => ?_, hl.blocks⟩,
    fun b hb => ?_, fun b hb => ?_, fun i a' ha' => ?_⟩
  · exact (hspare b hb).mono hnew (hself b)
  · rcases List.mem_cons.mp hb with rfl | hb
    · exact ⟨c, hc, hstart, hnew.2.trans hstop⟩
    · exact hl.housed b hb
  · rcases List.mem_cons.mp hb with rfl | hb
    · exact h8a
    · exact hl.even b hb
  · rw [carved_arena] at ha'
    split at ha'
    · cases ha'
      refine ⟨Nat.dvd_add h8a h8, fun b hb => ?_⟩
      rcases List.mem_cons.mp hb with rfl | hb
      · exact .inr le_rfl
      · exact (hspare b hb).mono hrest (hself b)
    · rename_i hi
      obtain ⟨h8', hspare'⟩ := hl.spare i a' ha'
      refine ⟨h8', fun b hb => ?_⟩
      rcases List.mem_cons.mp hb with rfl | hb
      · obtain ⟨c', hc', hid', hstart', hstop'⟩ := hs.arena i a' ha'
        have hne : c' ≠ c := fun he => hi (by rw [← hid', ← hid, he])
        exact (hl.chunk_disjoint hc' hc hne).mono ⟨by simp only [Arena.span]; omega, hstop'⟩
          ⟨by dsimp only; omega, hnew.2.trans hstop⟩
      · exact hspare' b hb

theorem Laid.renewed (hl : Laid h) (hs : Sound r h) (hsz : sz + 4127 < 2 ^ 64) (h8 : 8 ∣ sz) :
    Laid (h.renewed id sz) := by
  have hlen := chunkLength_of_lt hsz
  have halloc := allocSize_ge sz
  have h4096 : 4096 ∣ chunkLength sz := by
    unfold chunkLength pageRound
    omega
  have hpos := hl.position
  refine ⟨List.pairwise_cons.mpr ⟨fun c hc => .inr (hs.chunk c hc).2, hl.chunks⟩, fun c hc => ?_,
    fun c hc => ?_, Nat.dvd_add hpos h4096,
    List.pairwise_cons.mpr
      ⟨fun b hb => .inr ((hs.below hl hb).trans (Nat.le_add_right ..)), hl.blocks⟩,
    fun b hb => ?_, fun b hb => ?_, fun i a' ha' => ?_⟩
  · rcases List.mem_cons.mp hc with rfl | hc
    · exact ⟨hpos, h4096⟩
    · exact hl.paged c hc
  · rcases List.mem_cons.mp hc with rfl | hc
    · dsimp only
      omega
    · exact hl.roomy c hc
  · rcases List.mem_cons.mp hb with rfl | hb
    · refine ⟨_, List.mem_cons_self, le_rfl, ?_⟩
      simp only [Span.stop]
      omega
    · obtain ⟨c, hc, hb⟩ := hl.housed b hb
      exact ⟨c, List.mem_cons_of_mem _ hc, hb⟩
  · rcases List.mem_cons.mp hb with rfl | hb
    · dsimp only
      omega
    · exact hl.even b hb
  · rw [renewed_arena] at ha'
    split at ha'
    · cases ha'
      refine ⟨by dsimp only; omega, fun b hb => .inr ?_⟩
      rcases List.mem_cons.mp hb with rfl | hb
      · exact le_rfl
      · have := hs.below hl hb
        simp only [Arena.span]
        omega
    · obtain ⟨h8', hspare'⟩ := hl.spare i a' ha'
      refine ⟨h8', fun b hb => ?_⟩
      rcases List.mem_cons.mp hb with rfl | hb
      · obtain ⟨c', hc', -, -, hstop'⟩ := hs.arena i a' ha'
        have := (hs.chunk c' hc').2
        refine .inl ?_
        simp only [Arena.span, Span.stop] at hstop' this ⊢
        omega
      · exact hspare' b hb

/-- A new block keeps the layout, and no object changes. -/
theorem Laid.zoneMalloc (hl : Laid h) (hs : Sound r h) (hm : h.zoneMalloc id sz = some (p, h'))
    (hsz : align sz + 4127 < 2 ^ 64) :
    Laid h' ∧ h'.blocks = ⟨p, align sz⟩ :: h.blocks ∧ h'.header = h.header ∧ h'.bins = h.bins := by
  rcases zoneMalloc_cases hs.position_ne hm with ⟨a, ha, hle, rfl, rfl⟩ | ⟨-, rfl, rfl⟩
  · exact ⟨hl.carved hs ha hle (align_dvd sz), rfl, rfl, rfl⟩
  · exact ⟨hl.renewed hs hsz (align_dvd sz), rfl, rfl, rfl⟩

/-- The free list of one class of one heap id is replaced. -/
def setBin (h : Heap) (id : HeapId) (k : ℕ) (ps : List ℕ) : Heap :=
  { h with bins := Function.update h.bins id (Function.update (h.bins id) k ps) }

theorem setBin_bins {k : ℕ} {ps : List ℕ} (i : HeapId) (j : ℕ) :
    (h.setBin id k ps).bins i j = if i = id ∧ j = k then ps else h.bins i j :=
  update_class ..

/-- What is left of a request that does not wrap when it comes to the free lists. -/
theorem aligned_request (hsz : sz + 4143 < 2 ^ 64) :
    sz ≤ align (if sz < 16 then 16 else sz) ∧
      align (if sz < 16 then 16 else sz) + 4144 ≤ 2 ^ 64 := by
  have hsmall : sz ≤ (if sz < 16 then 16 else sz) ∧ (if sz < 16 then 16 else sz) + 4143 < 2 ^ 64 := by
    split <;> omega
  generalize (if sz < 16 then 16 else sz) = s at hsmall ⊢
  have hdvd := align_dvd s
  have := align_of_lt (show s + 7 < 2 ^ 64 by omega)
  omega

theorem align_header (hn : n + 4144 ≤ 2 ^ 64) :
    align (n + 16) + 4127 < 2 ^ 64 ∧ n + 23 < 2 ^ 64 := by
  unfold align
  omega

/-- A request that does not wrap takes an object from the free list of a class in which it has room,
or a new block for an object that is as large as a class or too large for all. -/
theorem malloc_cases (hs : Sound r h) (hm : h.malloc id sz = some (p, h'))
    (hsz : sz + 4143 < 2 ^ 64) :
    (∃ k ps, k < numBins ∧ sz ≤ class2Size k ∧ h.bins id k = p :: ps ∧ h' = h.setBin id k ps) ∨
    ∃ n q g, sz ≤ n ∧ ((∃ k < numBins, n = class2Size k) ∨ maxObjectSize < n) ∧
      align (n + 16) + 4127 < 2 ^ 64 ∧ n + 23 < 2 ^ 64 ∧ h.zoneMalloc id (n + 16) = some (q, g) ∧
        p = q + 16 ∧ h' = { g with header := Function.update g.header (q + 16) (some n) } := by
  obtain ⟨hsz', hs64⟩ := aligned_request hsz
  unfold Heap.malloc at hm
  generalize align (if sz < 16 then 16 else sz) = s at *
  rcases strictSegMalloc_cases hm with ⟨hsmall, ps, hb, rfl⟩ | ⟨n, hm, hn⟩
  · obtain ⟨hclass, hfit⟩ := size2Class_spec hsmall
    exact .inl ⟨size2Class s, ps, hclass, hsz'.trans hfit, hb, rfl⟩
  · have hsn : s ≤ n ∧ n + 4144 ≤ 2 ^ 64 ∧
        ((∃ k < numBins, n = class2Size k) ∨ maxObjectSize < n) := by
      rcases hn with ⟨hsmall, rfl⟩ | ⟨hbig, rfl⟩
      · obtain ⟨hclass, hfit⟩ := size2Class_spec hsmall
        have hle := class2Size_le_max hclass
        rw [maxObjectSize_eq] at hle
        exact ⟨hfit, by omega, .inl ⟨_, hclass, rfl⟩⟩
      · exact ⟨le_rfl, hs64, .inr hbig⟩
    obtain ⟨hsn, hlt, hclass⟩ := hsn
    obtain ⟨halign, hn23⟩ := align_header hlt
    obtain ⟨q, g, hz, hq⟩ := newSourceMalloc_cases hm
    rw [Nat.mod_eq_of_lt ((Nat.add_lt_add_left (by decide) n).trans hn23)] at hz
    obtain ⟨hg, -, -, c, hc, hstart, -⟩ := hs.zoneMalloc hz halign
    have hq0 : q ≠ 0 := by
      clear hclass
      omega
    obtain ⟨-, rfl, rfl⟩ := hq.resolve_left fun h0 => hq0 h0.1
    exact .inr ⟨n, q, g, hsz'.trans hsn, hclass, halign, hn23, hz, rfl, rfl⟩

/-- The address of a new object is not that of an old one. -/
theorem header_fresh {q : ℕ} {g : Heap} (hs : Sound r h) (hl : Laid g)
    (hb : g.blocks = ⟨q, n⟩ :: h.blocks) (hn : 0 < n) : h.header (q + 16) = none := by
  by_contra hne
  obtain ⟨m, hm⟩ := Option.ne_none_iff_exists'.mp hne
  obtain ⟨-, b, hmem, hstart, hlen, -⟩ := hs.header _ m hm
  have hblocks := hl.blocks
  rw [hb] at hblocks
  have hd := List.rel_of_pairwise_cons hblocks hmem
  simp only [Span.Disjoint, Span.stop] at hd
  omega

end Heap

/-! ## Sessions -/

/-- A heap, and the objects that the program holds. -/
structure Session where
  heap : Heap
  live : List Object

namespace Session

def held (s : Session) : List ℕ := s.live.map Object.ptr

def receive (s : Session) (h : Heap) (o : Object) : Session :=
  { heap := h, live := if o.ptr = 0 then s.live else o :: s.live }

def step (s : Session) : Request → Option Session
  | .malloc id sz => (s.heap.malloc id sz).map fun (p, h) => s.receive h ⟨p, sz⟩
  | .calloc id nmemb sz => (s.heap.calloc id nmemb sz).map fun (p, h) => s.receive h ⟨p, nmemb * sz⟩
  | .free id p => (s.heap.free id p).map fun h =>
      { heap := h, live := s.live.filter fun o => o.ptr ≠ p }

/-- The request wraps in no layer, and only what is held is given back. -/
def Lawful (s : Session) : Request → Prop
  | .free _ p => p = 0 ∨ p ∈ s.held
  | a => Heap.Fits a

def boot (r : Region) : Session := ⟨Allocator.boot r, []⟩

/-- An object has the size of its class, unless it is too large for all. It is held, or it is in the
free list of its class, of one heap id, or it was too large and is lost. -/
structure Kept (s : Session) : Prop where
  nodup : s.held.Nodup
  live : ∀ o ∈ s.live, ∃ n, s.heap.header o.ptr = some n ∧ o.size ≤ n
  bin : ∀ id k, ∀ q ∈ s.heap.bins id k,
    k < numBins ∧ s.heap.header q = some (class2Size k) ∧ q ∉ s.held
  once : ∀ id k, (s.heap.bins id k).Nodup
  alone : ∀ i j k, ∀ q ∈ s.heap.bins i k, q ∈ s.heap.bins j k → i = j
  kept : ∀ q n, s.heap.header q = some n → n ≤ maxObjectSize →
    q ∈ s.held ∨ ∃ id k, q ∈ s.heap.bins id k
  sized : ∀ q n, s.heap.header q = some n → (∃ k < numBins, n = class2Size k) ∨ maxObjectSize < n

variable {s w : Session} {id : HeapId} {p q n sz k : ℕ} {g h : Heap} {ps : List ℕ} {r : Region}

theorem class2Size_inj {i j : ℕ} (hi : i < numBins) (hj : j < numBins)
    (h : class2Size i = class2Size j) : i = j := by
  rw [← size2Class_class2Size hi, h, size2Class_class2Size hj]

theorem held_filter : held ⟨h, s.live.filter fun o => o.ptr ≠ p⟩ = s.held.filter (· ≠ p) := by
  simp [held, List.filter_map, Function.comp_def]

/-- An object is in the free list of no second class. -/
theorem Kept.same_bin (hk : Kept s) {i j : HeapId} {l : ℕ} (hq : q ∈ s.heap.bins i k)
    (hq' : q ∈ s.heap.bins j l) : i = j ∧ k = l := by
  obtain ⟨hlt, hh, -⟩ := hk.bin i k q hq
  obtain ⟨hlt', hh', -⟩ := hk.bin j l q hq'
  obtain rfl : k = l := class2Size_inj hlt hlt' (Option.some.inj (hh.symm.trans hh'))
  exact ⟨hk.alone i j k q hq hq', rfl⟩

/-- The first object of a free list is given out. -/
theorem Kept.pop (hk : Kept s) (hb : s.heap.bins id k = p :: ps) (hsz : sz ≤ class2Size k) :
    Kept ⟨s.heap.setBin id k ps, ⟨p, sz⟩ :: s.live⟩ := by
  have hmem : p ∈ s.heap.bins id k := by simp [hb]
  obtain ⟨-, hhead, hheld⟩ := hk.bin id k p hmem
  have hps : p ∉ ps := by
    have := hk.once id k
    rw [hb] at this
    exact (List.nodup_cons.mp this).1
  have hsub : ∀ {i j q}, q ∈ (s.heap.setBin id k ps).bins i j → q ∈ s.heap.bins i j ∧ q ≠ p := by
    intro i j q hq
    rw [Heap.setBin_bins] at hq
    split at hq
    · rename_i he
      obtain ⟨rfl, rfl⟩ := he
      exact ⟨by simp [hb, hq], fun he => hps (he ▸ hq)⟩
    · rename_i he
      refine ⟨hq, fun hqp => he ?_⟩
      subst hqp
      exact hk.same_bin hq hmem
  refine ⟨List.nodup_cons.mpr ⟨hheld, hk.nodup⟩, fun o ho => ?_, fun i j q hq => ?_, fun i j => ?_,
    fun i j l q hq hq' => hk.alone i j l q (hsub hq).1 (hsub hq').1, fun q n hq hn => ?_, hk.sized⟩
  · rcases List.mem_cons.mp ho with rfl | ho
    · exact ⟨_, hhead, hsz⟩
    · exact hk.live o ho
  · obtain ⟨hq, hqp⟩ := hsub hq
    obtain ⟨hlt, hh, hnot⟩ := hk.bin i j q hq
    exact ⟨hlt, hh, fun hin => (List.mem_cons.mp hin).elim hqp hnot⟩
  · rw [Heap.setBin_bins]
    split
    · have := hk.once id k
      rw [hb] at this
      exact (List.nodup_cons.mp this).2
    · exact hk.once i j
  · rcases hk.kept q n hq hn with hheld | ⟨i, j, hbin⟩
    · exact .inl (List.mem_cons_of_mem _ hheld)
    · by_cases he : i = id ∧ j = k
      · obtain ⟨rfl, rfl⟩ := he
        rw [hb] at hbin
        rcases List.mem_cons.mp hbin with rfl | hbin
        · exact .inl List.mem_cons_self
        · exact .inr ⟨i, j, by rwa [Heap.setBin_bins, if_pos ⟨rfl, rfl⟩]⟩
      · exact .inr ⟨i, j, by rwa [Heap.setBin_bins, if_neg he]⟩

/-- An object that is given back comes first in the free list of its class. -/
theorem Kept.push (hk : Kept s) (hheld : p ∈ s.held) (hlt : k < numBins)
    (hhead : s.heap.header p = some (class2Size k)) :
    Kept ⟨s.heap.setBin id k (p :: s.heap.bins id k), s.live.filter fun o => o.ptr ≠ p⟩ := by
  have hnot : ∀ {i j}, p ∉ s.heap.bins i j := fun hb => (hk.bin _ _ p hb).2.2 hheld
  have hcases : ∀ {i j q}, q ∈ (s.heap.setBin id k (p :: s.heap.bins id k)).bins i j →
      q = p ∧ i = id ∧ j = k ∨ q ∈ s.heap.bins i j := by
    intro i j q hq
    rw [Heap.setBin_bins] at hq
    split at hq
    · rename_i he
      obtain ⟨rfl, rfl⟩ := he
      exact (List.mem_cons.mp hq).imp_left fun hqp => ⟨hqp, rfl, rfl⟩
    · exact .inr hq
  refine ⟨?_, fun o ho => hk.live o (List.mem_filter.mp ho).1, fun i j q hq => ?_, fun i j => ?_,
    fun i j l q hq hq' => ?_, fun q n hq hn => ?_, hk.sized⟩
  · rw [held_filter]
    exact hk.nodup.filter _
  · rw [held_filter]
    rcases hcases hq with ⟨rfl, rfl, rfl⟩ | hq
    · exact ⟨hlt, hhead, by simp⟩
    · obtain ⟨hlt', hh, hn⟩ := hk.bin i j q hq
      exact ⟨hlt', hh, fun hin => hn (List.mem_filter.mp hin).1⟩
  · rw [Heap.setBin_bins]
    split
    · exact List.nodup_cons.mpr ⟨hnot, hk.once id k⟩
    · exact hk.once i j
  · rcases hcases hq with ⟨rfl, rfl, -⟩ | hq <;> rcases hcases hq' with ⟨hqp, hj, -⟩ | hq'
    · exact hj.symm
    · exact (hnot hq').elim
    · exact (hnot (hqp ▸ hq)).elim
    · exact hk.alone i j l q hq hq'
  · rw [held_filter]
    rcases hk.kept q n hq hn with hin | ⟨i, j, hbin⟩
    · by_cases hqp : q = p
      · subst hqp
        exact .inr ⟨id, k, by simp [Heap.setBin_bins]⟩
      · exact .inl (List.mem_filter.mpr ⟨hin, by simpa using hqp⟩)
    · refine .inr ⟨i, j, ?_⟩
      rw [Heap.setBin_bins]
      split
      · rename_i he
        obtain ⟨rfl, rfl⟩ := he
        exact List.mem_cons_of_mem _ hbin
      · exact hbin

/-- An object that is larger than every class is lost. -/
theorem Kept.drop (hk : Kept s) (hhead : s.heap.header p = some n) (hbig : maxObjectSize < n) :
    Kept ⟨s.heap, s.live.filter fun o => o.ptr ≠ p⟩ := by
  refine ⟨?_, fun o ho => hk.live o (List.mem_filter.mp ho).1, fun i j q hq => ?_, hk.once, hk.alone,
    fun q m hq hm => ?_, hk.sized⟩
  · rw [held_filter]
    exact hk.nodup.filter _
  · obtain ⟨hlt, hh, hn⟩ := hk.bin i j q hq
    rw [held_filter]
    exact ⟨hlt, hh, fun hin => hn (List.mem_filter.mp hin).1⟩
  · rw [held_filter]
    refine (hk.kept q m hq hm).imp_left fun hin => List.mem_filter.mpr ⟨hin, ?_⟩
    have hqp : q ≠ p := by
      rintro rfl
      have : n = m := Option.some.inj (hhead.symm.trans hq)
      omega
    simpa using hqp

/-- A new object is given out. -/
theorem Kept.fresh (hk : Kept s) (hbins : g.bins = s.heap.bins) (hheader : g.header = s.heap.header)
    (hnew : s.heap.header p = none) (hsz : sz ≤ n)
    (hn : (∃ k < numBins, n = class2Size k) ∨ maxObjectSize < n) :
    Kept ⟨{ g with header := Function.update g.header p (some n) }, ⟨p, sz⟩ :: s.live⟩ := by
  have hne : ∀ {q}, s.heap.header q ≠ none → q ≠ p := fun hq he => hq (he ▸ hnew)
  have hold : ∀ {q}, q ≠ p → Function.update g.header p (some n) q = s.heap.header q := by
    intro q hq
    rw [Function.update_of_ne hq, hheader]
  have hself : Function.update g.header p (some n) p = some n := Function.update_self ..
  have hheld : p ∉ s.held := by
    intro hin
    obtain ⟨o, ho, rfl⟩ := List.mem_map.mp hin
    obtain ⟨m, hm, -⟩ := hk.live o ho
    exact hne (by simp [hm]) rfl
  refine ⟨List.nodup_cons.mpr ⟨hheld, hk.nodup⟩, fun o ho => ?_, fun i j q hq => ?_, fun i j => ?_,
    fun i j l q hq hq' => ?_, fun q m hq hm => ?_, fun q m hq => ?_⟩
  · rcases List.mem_cons.mp ho with rfl | ho
    · exact ⟨n, hself, hsz⟩
    · obtain ⟨m, hm, hle⟩ := hk.live o ho
      exact ⟨m, (hold (hne (by simp [hm]))).trans hm, hle⟩
  · rw [hbins] at hq
    obtain ⟨hlt, hh, hnot⟩ := hk.bin i j q hq
    have hqp := hne (q := q) (by simp [hh])
    exact ⟨hlt, (hold hqp).trans hh, fun hin => (List.mem_cons.mp hin).elim hqp hnot⟩
  · rw [hbins]
    exact hk.once i j
  · rw [hbins] at hq hq'
    exact hk.alone i j l q hq hq'
  · by_cases hqp : q = p
    · exact .inl (hqp ▸ List.mem_cons_self)
    · rcases hk.kept q m ((hold hqp).symm.trans hq) hm with hin | ⟨i, j, hbin⟩
      · exact .inl (List.mem_cons_of_mem _ hin)
      · exact .inr ⟨i, j, by rwa [hbins]⟩
  · by_cases hqp : q = p
    · subst hqp
      cases hself.symm.trans hq
      exact hn
    · exact hk.sized q m ((hold hqp).symm.trans hq)

/-! ## The contract -/

structure Contract (r : Region) (s : Session) : Prop where
  sound : Heap.Sound r s.heap
  laid : Heap.Laid s.heap
  kept : Kept s

/-- What `malloc` gives out has room, and is new or was in a free list; no header changes. -/
theorem Contract.malloc (hc : Contract r s) (hm : s.heap.malloc id sz = some (p, h))
    (hsz : sz + 4143 < 2 ^ 64) :
    p ≠ 0 ∧ Contract r ⟨h, ⟨p, sz⟩ :: s.live⟩ ∧
      ∀ q n, s.heap.header q = some n → h.header q = some n := by
  obtain ⟨hsound, hav⟩ := hc.sound.malloc hm hsz
  have hp := (hav.lt hsound.toPlaced).1.ne'
  rcases Heap.malloc_cases hc.sound hm hsz with
    ⟨k, ps, -, hle, hb, rfl⟩ | ⟨n, q, g, hle, hn, halign, hlt, hz, rfl, rfl⟩
  · have hl := hc.laid
    exact ⟨hp, ⟨hsound, ⟨hl.chunks, hl.paged, hl.roomy, hl.position, hl.blocks, hl.housed, hl.even,
      hl.spare⟩, hc.kept.pop hb hle⟩, fun _ _ hq => hq⟩
  · obtain ⟨hl, hblocks, hheader, hbins⟩ := hc.laid.zoneMalloc hc.sound hz halign
    have hpos : 0 < align (n + 16) := by
      clear hn
      unfold align
      omega
    have hnew := Heap.header_fresh hc.sound hl hblocks hpos
    refine ⟨hp, ⟨hsound, ⟨hl.chunks, hl.paged, hl.roomy, hl.position, hl.blocks, hl.housed, hl.even,
      hl.spare⟩, hc.kept.fresh hbins hheader hnew hle hn⟩, fun q' m hq => ?_⟩
    have hne : q' ≠ q + 16 := by
      rintro rfl
      rw [hnew] at hq
      cases hq
    exact (Function.update_of_ne hne ..).trans ((congrFun hheader q').trans hq)

/-- A wrapped product that is still too large for the region is not served. -/
theorem Contract.calloc {nmemb sz : SizeT} (hc : Contract r s)
    (hm : s.heap.calloc id nmemb sz = some (p, h)) (hf : Heap.Fits (.calloc id nmemb sz)) :
    p ≠ 0 ∧ Contract r ⟨h, ⟨p, nmemb * sz⟩ :: s.live⟩ ∧
      ∀ q n, s.heap.header q = some n → h.header q = some n := by
  obtain ⟨hmal, -, hend⟩ := Heap.calloc_cases hm
  obtain ⟨hsound, hav⟩ := hc.sound.malloc hmal (by omega)
  obtain ⟨-, -, hle⟩ := hav.lt hsound.toPlaced
  have hprod : (nmemb * sz : ℕ) < 2 ^ 64 := hf.resolve_right fun hbig => by omega
  rw [Nat.mod_eq_of_lt hprod] at hmal
  exact hc.malloc hmal (by omega)

theorem Contract.header_of_held (hc : Contract r s) (hp : p ∈ s.held) :
    p ≠ 0 ∧ ∃ n, s.heap.header p = some n := by
  obtain ⟨o, ho, rfl⟩ := List.mem_map.mp hp
  obtain ⟨n, hn, -⟩ := hc.kept.live o ho
  obtain ⟨-, hav⟩ := hc.sound.header _ n hn
  exact ⟨(hav.lt hc.sound.toPlaced).1.ne', n, hn⟩

/-- What is given back goes to the free list of the class that it was taken for, through any heap
id. -/
theorem Contract.free_cases (hc : Contract r s) (hp : p ∈ s.held) (hm : s.heap.free id p = some h) :
    (∃ k < numBins, s.heap.header p = some (class2Size k) ∧
      h = s.heap.setBin id k (p :: s.heap.bins id k)) ∨
    ∃ n, s.heap.header p = some n ∧ maxObjectSize < n ∧ h = s.heap := by
  obtain ⟨hp0, n, hn⟩ := hc.header_of_held hp
  unfold Heap.free at hm
  rw [if_neg hp0, hn, Option.map_some, Option.some.injEq] at hm
  have h8 := (hc.sound.header p n hn).1
  rcases hc.kept.sized p n hn with ⟨k, hk, rfl⟩ | hbig
  · have hle := class2Size_le_max hk
    rw [if_neg (by omega), size2Class_class2Size hk, classDown_self] at hm
    exact .inl ⟨k, hk, hn, hm.symm⟩
  · rw [if_pos (.inr hbig)] at hm
    exact .inr ⟨n, hn, hbig, hm.symm⟩

theorem Contract.free (hc : Contract r s) (hp : p = 0 ∨ p ∈ s.held)
    (hm : s.heap.free id p = some h) :
    Contract r ⟨h, s.live.filter fun o => o.ptr ≠ p⟩ ∧
      ∀ q n, s.heap.header q = some n → h.header q = some n := by
  have hl := hc.laid
  by_cases hheld : p ∈ s.held
  · rcases hc.free_cases hheld hm with ⟨k, hk, hn, rfl⟩ | ⟨n, hn, hbig, rfl⟩
    · exact ⟨⟨hc.sound.free hm, ⟨hl.chunks, hl.paged, hl.roomy, hl.position, hl.blocks, hl.housed,
        hl.even, hl.spare⟩, hc.kept.push hheld hk hn⟩, fun _ _ hq => hq⟩
    · exact ⟨⟨hc.sound, hl, hc.kept.drop hn hbig⟩, fun _ _ hq => hq⟩
  · obtain rfl := hp.resolve_right hheld
    have hall : (s.live.filter fun o => o.ptr ≠ 0) = s.live := by
      rw [List.filter_eq_self]
      intro o ho
      simpa using fun he : o.ptr = 0 => hheld (he ▸ List.mem_map_of_mem ho)
    rw [hall]
    cases hm
    exact ⟨hc, fun _ _ hq => hq⟩

theorem Contract.step {a : Request} (hc : Contract r s) (hlaw : s.Lawful a)
    (hm : s.step a = some w) :
    Contract r w ∧ ∀ q n, s.heap.header q = some n → w.heap.header q = some n := by
  cases a with
  | malloc id sz =>
      obtain ⟨⟨p, h⟩, hmal, rfl⟩ := Option.map_eq_some_iff.mp hm
      obtain ⟨hp, hw⟩ := hc.malloc hmal hlaw
      simpa only [receive, if_neg hp] using hw
  | calloc id nmemb sz =>
      obtain ⟨⟨p, h⟩, hcal, rfl⟩ := Option.map_eq_some_iff.mp hm
      obtain ⟨hp, hw⟩ := hc.calloc hcal hlaw
      simpa only [receive, if_neg hp] using hw
  | free id p =>
      obtain ⟨h, hm', rfl⟩ := Option.map_eq_some_iff.mp hm
      exact hc.free hlaw hm'

/-- The object with its header. -/
def footprint (o : Object) : Span := ⟨o.ptr - 16, 16 + o.size⟩

/-- What the program holds lies in the region with its headers, apart from each other and from the
headers of the arenas, and has the room that was asked for. What it has given back is in exactly one
free list, once, and that is the one of its size. No page belongs to two heap ids. -/
structure Reliable (r : Region) (s : Session) : Prop where
  inside : ∀ o ∈ s.live, 16 ≤ o.ptr ∧ 8 ∣ o.ptr ∧ (footprint o).Within ⟨r.base, 2 ^ 32⟩
  apart : s.live.Pairwise fun o o' => o.ptr ≠ o'.ptr ∧ (footprint o).Disjoint (footprint o')
  arenas : ∀ o ∈ s.live, ∀ c ∈ s.heap.chunks, Span.Disjoint ⟨c.2.start, 32⟩ (footprint o)
  room : ∀ o ∈ s.live, ∃ n, s.heap.header o.ptr = some n ∧ o.size ≤ n
  unlisted : ∀ o ∈ s.live, ∀ i k, o.ptr ∉ s.heap.bins i k
  freed : ∀ q n, s.heap.header q = some n → n ≤ maxObjectSize → q ∉ s.held →
    ∃ i k, class2Size k = n ∧
      ∀ j l, (s.heap.bins j l).count q = if j = i ∧ l = k then 1 else 0
  pages : ∀ c ∈ s.heap.chunks, ∀ c' ∈ s.heap.chunks, c.1 ≠ c'.1 → ∀ a b,
    c.2.start ≤ a → a < c.2.stop → c'.2.start ≤ b → b < c'.2.stop → a / 4096 ≠ b / 4096

/-- An object that is held has a block of its own. -/
theorem Contract.block (hc : Contract r s) {o : Object} (ho : o ∈ s.live) :
    ∃ b ∈ s.heap.blocks, o.ptr = b.start + 16 ∧ (footprint o).Within b := by
  obtain ⟨n, hn, hle⟩ := hc.kept.live o ho
  obtain ⟨-, b, hb, hp, hlen, -⟩ := hc.sound.header _ n hn
  refine ⟨b, hb, hp, ?_⟩
  simp only [footprint, Span.Within, Span.stop]
  omega

theorem Contract.reliable (hc : Contract r s) : Reliable r s where
  inside o ho := by
    obtain ⟨b, hb, hp, hw⟩ := hc.block ho
    obtain ⟨c, hcm, hstart, hstop⟩ := hc.laid.housed b hb
    obtain ⟨hbase, hle⟩ := hc.sound.chunk c hcm
    have heven := hc.laid.even b hb
    have hroom := hc.sound.room
    refine ⟨by omega, by omega, hw.trans ⟨by dsimp only; omega, ?_⟩⟩
    simp only [Span.stop] at hstop hle ⊢
    omega
  apart := by
    have hnodup := List.pairwise_map.mp hc.kept.nodup
    refine hnodup.imp_of_mem fun {o o'} ho ho' hne => ⟨hne, ?_⟩
    obtain ⟨b, hb, hp, hw⟩ := hc.block ho
    obtain ⟨b', hb', hp', hw'⟩ := hc.block ho'
    have hbb : b ≠ b' := by
      rintro rfl
      exact hne (hp.trans hp'.symm)
    exact (hc.laid.block_disjoint hb hb' hbb).mono hw hw'
  arenas o ho c hcm := by
    obtain ⟨b, hb, -, hw⟩ := hc.block ho
    exact (hc.laid.header_disjoint hcm hb).mono ⟨le_rfl, le_rfl⟩ hw
  room := hc.kept.live
  unlisted o ho i k hin := (hc.kept.bin i k _ hin).2.2 (List.mem_map_of_mem ho)
  freed q n hn hle hheld := by
    obtain ⟨i, k, hin⟩ := (hc.kept.kept q n hn hle).resolve_left hheld
    have hsize : class2Size k = n := Option.some.inj ((hc.kept.bin i k q hin).2.1.symm.trans hn)
    refine ⟨i, k, hsize, fun j l => ?_⟩
    split
    · rename_i he
      obtain ⟨rfl, rfl⟩ := he
      exact (hc.kept.once j l).count.trans (if_pos hin)
    · rename_i he
      exact List.count_eq_zero.mpr fun hin' => he (hc.kept.same_bin hin' hin)
  pages c hcm c' hcm' hne a b ha ha' hb hb' := by
    have hd := hc.laid.chunk_disjoint hcm hcm' fun he => hne (congrArg Prod.fst he)
    obtain ⟨hs, hn⟩ := hc.laid.paged c hcm
    obtain ⟨hs', hn'⟩ := hc.laid.paged c' hcm'
    simp only [Span.Disjoint, Span.stop] at hd ha' hb'
    omega

instance (s : Session) (a : Request) : Decidable (s.Lawful a) :=
  match a with
  | .malloc _ sz => inferInstanceAs (Decidable ((sz : ℕ) + 4143 < 2 ^ 64))
  | .calloc _ nmemb sz => inferInstanceAs (Decidable ((nmemb * sz : ℕ) < 2 ^ 64 ∨
      2 ^ 32 - 48 < (nmemb * sz : ℕ) % 2 ^ 64))
  | .free _ p => inferInstanceAs (Decidable (p = 0 ∨ p ∈ s.held))

end Session

end Dthreads.Allocator
