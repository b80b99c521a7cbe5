import Dthreads.Allocator.Contract
import Dthreads.Allocator.Threaded

/-! # The heap in memory is the heap of lists

The memory of the threaded heap holds the arenas, the sizes and the free lists. The heap stores to
nothing else, so that neither it nor a program that keeps to its objects disturbs the other. -/

namespace Dthreads.Allocator

open Kingsley Bytes Transition

/-- The bytes that belong to the heap: the headers of the arenas and of the objects, and the first
word of what is free. -/
def Heap.Meta (h : Heap) (a : ℕ) : Prop :=
  (∃ c ∈ h.chunks, c.2.start ≤ a ∧ a < c.2.start + 32) ∨
    (∃ q n, h.header q = some n ∧ q ≤ a + 16 ∧ a < q) ∨
    ∃ i k, ∃ q ∈ h.bins i k, q ≤ a ∧ a < q + 8

namespace Threaded

/-- The list of the objects that are linked from `p` on. -/
def Chain (t : Threaded) : ℕ → List ℕ → Prop
  | p, [] => p = 0
  | p, q :: qs => p = q ∧ q ≠ 0 ∧ t.Chain (t.word q) qs

/-- The memory holds the data of the heap. -/
structure Image (t : Threaded) (h : Heap) : Prop where
  xheap : t.xheap = h.xheap
  vacant : ∀ id, h.arena id = none → t.currentArena id = 0
  arena : ∀ id a, h.arena id = some a → t.currentArena id ≠ 0 ∧
    t.word (t.currentArena id) = a.remaining ∧ t.word (t.currentArena id + 16) = a.arenaSpace ∧
    ∃ c ∈ h.chunks, c.1 = id ∧ c.2.start = t.currentArena id
  bins : ∀ id k, t.Chain (t.head id k) (h.bins id k)
  header : ∀ q n, h.header q = some n → t.word (q - 16) = magic ∧ t.word (q - 8) = n

variable {t t' : Threaded} {s : Session} {h g : Heap} {id : HeapId} {a : Arena} {r : Region}
  {p q n k sz : ℕ} {ps : List ℕ}

theorem Chain.congr (hc : t.Chain p ps) (hw : ∀ q ∈ ps, t'.word q = t.word q) : t'.Chain p ps := by
  induction ps generalizing p with
  | nil => exact hc
  | cons q ps ih =>
      obtain ⟨hp, hq, hrest⟩ := hc
      refine ⟨hp, hq, ?_⟩
      rw [hw q List.mem_cons_self]
      exact ih hrest fun q' hq' => hw q' (List.mem_cons_of_mem _ hq')

/-- An object has a block of its own, behind its header. -/
theorem object_block (hs : Heap.Sound r h) (hq : h.header q = some n) :
    ∃ b ∈ h.blocks, q = b.start + 16 ∧ q + n ≤ b.stop ∧ 8 ≤ n := by
  obtain ⟨h8, b, hb, hp, hlen, -⟩ := hs.header q n hq
  refine ⟨b, hb, hp, ?_, h8⟩
  simp only [Span.stop]
  omega

theorem bin_header (hc : s.Contract r) (hq : q ∈ s.heap.bins id k) :
    ∃ n, s.heap.header q = some n ∧ 8 ≤ n := by
  have hh := (hc.kept.bin id k q hq).2.1
  exact ⟨_, hh, (hc.sound.header q _ hh).1⟩

/-- What is behind the header of an object that is not in a free list belongs to the program. -/
theorem payload_not_meta (hc : s.Contract r) (hp : s.heap.header p = some n)
    (hnot : ∀ i k, p ∉ s.heap.bins i k) {x : ℕ} (hx : p ≤ x) (hx' : x < p + n) :
    ¬ s.heap.Meta x := by
  obtain ⟨b, hb, hstart, hstop, -⟩ := object_block hc.sound hp
  have hother : ∀ {q m}, s.heap.header q = some m → q ≠ p → q ≤ x + 16 → x < q + m → False := by
    intro q m hq hqp hle hlt
    obtain ⟨b', hb', hstart', hstop', -⟩ := object_block hc.sound hq
    have hbb : b ≠ b' := by
      rintro rfl
      exact hqp (hstart'.trans hstart.symm)
    have hd := hc.laid.block_disjoint hb hb' hbb
    simp only [Span.Disjoint] at hd
    omega
  rintro (⟨c, hcm, hle, hlt⟩ | ⟨q, m, hq, hle, hlt⟩ | ⟨i, k, q, hq, hle, hlt⟩)
  · have hd := hc.laid.header_disjoint hcm hb
    simp only [Span.Disjoint, Span.stop] at hd hstop
    omega
  · by_cases hqp : q = p
    · omega
    · exact hother hq hqp hle (by omega)
  · obtain ⟨m, hh, h8⟩ := bin_header hc hq
    have hqp : q ≠ p := by
      rintro rfl
      exact hnot i k hq
    exact hother hh hqp (by omega) (by omega)

/-- The image depends on the bytes of the heap. -/
theorem Image.of_memory (hi : Image t s.heap) (hc : s.Contract r) (hx : t'.xheap = t.xheap)
    (hcur : t'.currentArena = t.currentArena) (hhead : t'.head = t.head)
    (hmem : ∀ x, s.heap.Meta x → t'.memory x = t.memory x) : Image t' s.heap := by
  have hchunk : ∀ c ∈ s.heap.chunks, ∀ i, i + 8 ≤ 32 →
      t'.word (c.2.start + i) = t.word (c.2.start + i) := by
    intro c hcm i hi32
    apply word_congr
    intro j hj
    exact hmem _ (.inl ⟨c, hcm, by omega, by omega⟩)
  have hlink : ∀ {i k q}, q ∈ s.heap.bins i k → t'.word q = t.word q := by
    intro i k q hq
    apply word_congr
    intro j hj
    exact hmem _ (.inr (.inr ⟨i, k, q, hq, by omega, by omega⟩))
  have hsize : ∀ {q n}, s.heap.header q = some n →
      t'.word (q - 16) = t.word (q - 16) ∧ t'.word (q - 8) = t.word (q - 8) := by
    intro q n hq
    obtain ⟨b, -, hstart, -⟩ := object_block hc.sound hq
    constructor <;>
    · apply word_congr
      intro j hj
      exact hmem _ (.inr (.inl ⟨q, n, hq, by omega, by omega⟩))
  refine ⟨hx.trans hi.xheap, fun id ha => ?_, fun id a ha => ?_, fun id k => ?_, fun q n hq => ?_⟩
  · rw [hcur]
    exact hi.vacant id ha
  · obtain ⟨h0, hrem, hspace, c, hcm, hid, hstart⟩ := hi.arena id a ha
    rw [hcur]
    rw [← hstart] at hrem hspace ⊢
    exact ⟨by omega, (hchunk c hcm 0 (by omega)).trans hrem,
      (hchunk c hcm 16 (by omega)).trans hspace, c, hcm, hid, rfl⟩
  · rw [hhead]
    exact (hi.bins id k).congr fun q hq => hlink hq
  · obtain ⟨hmag, hn⟩ := hi.header q n hq
    exact ⟨(hsize hq).1.trans hmag, (hsize hq).2.trans hn⟩

/-! ## Arenas -/

/-- Stores to the headers of the arenas of one heap id change nothing but its current arena. -/
theorem Image.of_arena (hi : Image t s.heap) (hc : s.Contract r) (hl : Heap.Laid g)
    (hsub : s.heap.blocks ⊆ g.blocks ∧ s.heap.chunks ⊆ g.chunks)
    (hobjects : g.bins = s.heap.bins ∧ g.header = s.heap.header)
    (hx : t'.xheap = g.xheap) (hhead : t'.head = t.head)
    (hothers : ∀ i ≠ id, g.arena i = s.heap.arena i ∧ t'.currentArena i = t.currentArena i)
    (hmem : ∀ x, (∀ c ∈ g.chunks, c.1 = id → x < c.2.start ∨ c.2.start + 32 ≤ x) →
      t'.memory x = t.memory x)
    (ha : g.arena id = some a) (h0 : t'.currentArena id ≠ 0)
    (hrem : t'.word (t'.currentArena id) = a.remaining)
    (hspace : t'.word (t'.currentArena id + 16) = a.arenaSpace)
    (hchunk : ∃ c ∈ g.chunks, c.1 = id ∧ c.2.start = t'.currentArena id) : Image t' g := by
  obtain ⟨hbins, hheader⟩ := hobjects
  have hobject : ∀ q n, s.heap.header q = some n → ∀ x, q ≤ x + 16 → x < q + 8 →
      t'.memory x = t.memory x := by
    intro q n hq x hle hlt
    obtain ⟨b, hb, hstart, hstop, h8⟩ := object_block hc.sound hq
    apply hmem
    intro c hcm _
    have hd := hl.header_disjoint hcm (hsub.1 hb)
    simp only [Span.Disjoint, Span.stop] at hd hstop
    omega
  have harena : ∀ c ∈ s.heap.chunks, c.1 ≠ id → ∀ i, i + 8 ≤ 32 →
      t'.word (c.2.start + i) = t.word (c.2.start + i) := by
    intro c hcm hid i hi32
    apply word_congr
    intro j hj
    apply hmem
    intro c' hcm' hid'
    have hne : c ≠ c' := fun he => hid (he ▸ hid')
    have hd := hl.chunk_disjoint (hsub.2 hcm) hcm' hne
    have := hl.roomy c (hsub.2 hcm)
    have := hl.roomy c' hcm'
    simp only [Span.Disjoint, Span.stop] at hd
    omega
  refine ⟨hx, fun i hn => ?_, fun i a' ha' => ?_, fun i k => ?_, fun q n hq => ?_⟩
  · have hne : i ≠ id := by
      rintro rfl
      rw [ha] at hn
      cases hn
    rw [(hothers i hne).2]
    exact hi.vacant i ((hothers i hne).1.symm.trans hn)
  · by_cases hne : i = id
    · subst hne
      obtain rfl : a = a' := Option.some.inj (ha.symm.trans ha')
      exact ⟨h0, hrem, hspace, hchunk⟩
    · rw [(hothers i hne).1] at ha'
      obtain ⟨h0', hrem', hspace', c, hcm, hid, hstart⟩ := hi.arena i a' ha'
      have hcid : c.1 ≠ id := fun he => hne (hid.symm.trans he)
      rw [(hothers i hne).2]
      rw [← hstart] at hrem' hspace' ⊢
      exact ⟨by omega, (harena c hcm hcid 0 (by omega)).trans hrem',
        (harena c hcm hcid 16 (by omega)).trans hspace', c, hsub.2 hcm, hid, rfl⟩
  · rw [hhead, hbins]
    refine (hi.bins i k).congr fun q hq => ?_
    obtain ⟨n, hh, -⟩ := bin_header hc hq
    apply word_congr
    intro j hj
    exact hobject q n hh _ (by omega) (by omega)
  · rw [hheader] at hq
    obtain ⟨hmag, hn⟩ := hi.header q n hq
    obtain ⟨b, -, hstart, -⟩ := object_block hc.sound hq
    have h16 : t'.word (q - 16) = t.word (q - 16) := by
      apply word_congr
      intro j hj
      exact hobject q n hq _ (by omega) (by omega)
    have h8 : t'.word (q - 8) = t.word (q - 8) := by
      apply word_congr
      intro j hj
      exact hobject q n hq _ (by omega) (by omega)
    exact ⟨h16.trans hmag, h8.trans hn⟩

/-- The words of an arena after a block was carved from it. -/
theorem arenaMalloc_eq {arena space rem : ℕ} (hrem : t.word arena = rem)
    (hspace : t.word (arena + 16) = space) (hle : sz ≤ rem) (hlt : space + sz < 2 ^ 64) :
    ∃ t', t.arenaMalloc arena sz = (space, t') ∧ t'.word arena = rem - sz ∧
      t'.word (arena + 16) = space + sz ∧ t'.xheap = t.xheap ∧
      t'.currentArena = t.currentArena ∧ t'.head = t.head ∧
      ∀ x, x < arena ∨ arena + 32 ≤ x → t'.memory x = t.memory x := by
  have hspace' : (t.setWord arena (t.word arena - sz)).word (arena + 16) = space :=
    (word_setWord_of_outside (.inr (by omega))).trans hspace
  have hrem' : t.word arena - sz < 2 ^ 64 := (Nat.sub_le ..).trans_lt word_lt
  refine ⟨(t.setWord arena (t.word arena - sz)).setWord (arena + 16) (space + sz), ?_, ?_,
    word_setWord_self hlt, rfl, rfl, rfl, fun x hx => ?_⟩
  · unfold arenaMalloc
    rw [if_neg (by omega)]
    dsimp only
    rw [hspace']
  · rw [word_setWord_of_outside (.inl (by omega)), word_setWord_self hrem', hrem]
  · rw [memory_setWord_of_outside (by omega), memory_setWord_of_outside (by omega)]

theorem Image.carve (hi : Image t s.heap) (hc : s.Contract r) (ha : s.heap.arena id = some a)
    (hle : sz ≤ a.remaining) (h8 : 8 ∣ sz) :
    ∃ t', t.arenaMalloc (t.currentArena id) sz = (a.arenaSpace, t') ∧
      Image t' (s.heap.carved id a sz) ∧
      ∀ x, ¬ (s.heap.carved id a sz).Meta x → t'.memory x = t.memory x := by
  obtain ⟨h0, hrem, hspace, c, hcm, hid, hstart⟩ := hi.arena id a ha
  have hlt : a.arenaSpace + sz < 2 ^ 64 := by
    obtain ⟨c', hcm', -, -, hstop⟩ := hc.sound.arena id a ha
    have := (hc.sound.chunk c' hcm').2
    have := hc.sound.room
    have := r.le
    omega
  obtain ⟨t', ht', hrem', hspace', hx, hcur, hhead, hmem⟩ := arenaMalloc_eq hrem hspace hle hlt
  have himage : Image t' (s.heap.carved id a sz) := by
    have hcur' : t'.currentArena id = t.currentArena id := congrFun hcur id
    rw [← hcur'] at h0 hrem' hspace' hstart
    apply hi.of_arena hc (hc.laid.carved hc.sound ha hle h8) ⟨List.subset_cons_self .., fun _ hx => hx⟩
      ⟨rfl, rfl⟩ (hx.trans hi.xheap) hhead
      (fun i hne => ⟨Function.update_of_ne hne .., congrFun hcur i⟩) (fun x hx => ?_)
      (Function.update_self ..) h0 hrem' hspace' ⟨c, hcm, hid, hstart⟩
    rw [hcur'] at hstart
    exact hmem x (hstart ▸ hx c hcm hid)
  refine ⟨t', ht', himage, fun x hx => ?_⟩
  apply hmem
  by_contra hin
  exact hx (.inl ⟨c, hcm, by omega, by omega⟩)

/-- The arena that is retired is one of the heap id. -/
theorem Image.retire (hi : Image t h) (id : HeapId) :
    (t.retire id).xheap = t.xheap ∧ (t.retire id).head = t.head ∧
      (∀ i ≠ id, (t.retire id).currentArena i = t.currentArena i) ∧
      ∀ x, (∀ c ∈ h.chunks, c.1 = id → x < c.2.start ∨ c.2.start + 32 ≤ x) →
        (t.retire id).memory x = t.memory x := by
  unfold Threaded.retire
  split
  · exact ⟨rfl, rfl, fun _ _ => rfl, fun _ _ => rfl⟩
  · rename_i h0
    refine ⟨rfl, rfl, fun i hne => Function.update_of_ne hne .., fun x hx => ?_⟩
    cases ha : h.arena id with
    | none => exact absurd (hi.vacant id ha) h0
    | some a =>
        obtain ⟨-, -, -, c, hcm, hid, hstart⟩ := hi.arena id a ha
        have := hx c hcm hid
        exact memory_setWord_of_outside (by omega)

theorem newArena_eq (t : Threaded) {buf : ℕ} (hsz : sz < 2 ^ 64) (hbuf : buf + 32 < 2 ^ 64) :
    (t.newArena buf sz).word buf = sz ∧ (t.newArena buf sz).word (buf + 16) = buf + 32 ∧
      ∀ x, x < buf ∨ buf + 32 ≤ x → (t.newArena buf sz).memory x = t.memory x := by
  refine ⟨?_, word_setWord_self hbuf, fun x hx => ?_⟩
  · rw [newArena, word_setWord_of_outside (.inl (by omega)),
      word_setWord_of_outside (.inl (by omega)), word_setWord_self hsz]
  · rw [newArena, memory_setWord_of_outside (by omega), memory_setWord_of_outside (by omega),
      memory_setWord_of_outside (by omega)]

theorem xheapMalloc_cases {x x' : XHeap} (hm : x.malloc n = some (p, x')) :
    x.remaining ≠ 0 ∧ pageRound n ≤ x.remaining ∧ p = x.position ∧
      x' = { position := x.position + pageRound n, remaining := x.remaining - pageRound n } := by
  unfold XHeap.malloc at hm
  split at hm
  · cases hm
  · rename_i h0
    split at hm
    · cases hm
    · rename_i hlt
      obtain ⟨rfl, rfl⟩ := Prod.mk.inj (Option.some.inj hm)
      exact ⟨h0, Nat.not_lt.mp hlt, rfl, rfl⟩

theorem Image.renew (hi : Image t s.heap) (hc : s.Contract r) (hsz : sz + 4127 < 2 ^ 64)
    (h8 : 8 ∣ sz) (hm : t.slowMalloc id sz = some (p, t')) :
    s.heap.slowMalloc id sz = some (p, s.heap.renewed id sz) ∧ Image t' (s.heap.renewed id sz) ∧
      ∀ x, ¬ (s.heap.renewed id sz).Meta x → t'.memory x = t.memory x := by
  obtain ⟨hx, hhead, hcur, hmem⟩ := hi.retire id
  unfold Threaded.slowMalloc at hm
  dsimp only at hm
  rw [Option.map_eq_some_iff, hx, hi.xheap] at hm
  obtain ⟨⟨buf, x⟩, hxm, hm⟩ := hm
  obtain ⟨hr0, hle, rfl, rfl⟩ := xheapMalloc_cases hxm
  have hpos := hc.sound.position_ne
  have habstract : s.heap.slowMalloc id sz = some _ := Heap.slowMalloc_eq hr0 hle hpos
  dsimp only at hm
  rw [if_neg hpos] at hm
  have halloc := Heap.allocSize_ge sz
  have hlarge : Heap.allocSize sz < 2 ^ 64 := by
    unfold Heap.allocSize chunkSize
    split <;> omega
  have hbuf : s.heap.xheap.position + 32 + sz < 2 ^ 64 := by
    have := hc.sound.room
    have := r.le
    have := Heap.chunkLength_of_lt hsz
    have hle' : Heap.chunkLength sz ≤ s.heap.xheap.remaining := hle
    omega
  have hbuf' : s.heap.xheap.position + 32 < 2 ^ 64 := by omega
  obtain ⟨hrem, hspace, hnew⟩ := newArena_eq (t.retire id) hlarge hbuf'
  obtain ⟨u, hu, hrem', hspace', hux, hucur, huhead, humem⟩ := arenaMalloc_eq
    (t := { (t.retire id).newArena s.heap.xheap.position (Heap.allocSize sz) with
      xheap := ⟨_, _⟩
      currentArena := Function.update (t.retire id).currentArena id s.heap.xheap.position })
    hrem hspace halloc hbuf
  rw [hu] at hm
  obtain ⟨rfl, rfl⟩ := Prod.mk.inj hm
  have hchunk : (id, ⟨s.heap.xheap.position, Heap.chunkLength sz⟩) ∈
      (s.heap.renewed id sz).chunks := List.mem_cons_self
  have hout : ∀ x, (∀ c ∈ (s.heap.renewed id sz).chunks, c.1 = id →
      x < c.2.start ∨ c.2.start + 32 ≤ x) → u.memory x = t.memory x := by
    intro x hx
    have hxbuf := hx _ hchunk rfl
    exact (humem x hxbuf).trans ((hnew x hxbuf).trans
      (hmem x fun c hcm hid => hx c (List.mem_cons_of_mem _ hcm) hid))
  have hself : u.currentArena id = s.heap.xheap.position :=
    (congrFun hucur id).trans (Function.update_self ..)
  refine ⟨habstract, ?_, fun x hx => ?_⟩
  · rw [← hself] at hrem' hspace' hpos
    exact hi.of_arena hc (hc.laid.renewed hc.sound hsz h8)
      ⟨List.subset_cons_self .., List.subset_cons_self ..⟩ ⟨rfl, rfl⟩ hux (huhead.trans hhead)
      (fun i hne => ⟨Function.update_of_ne hne .., (congrFun hucur i).trans
        ((Function.update_of_ne hne ..).trans (hcur i hne))⟩) hout (Function.update_self ..) hpos
      hrem' (hspace'.trans (by rw [hself])) ⟨_, hchunk, rfl, hself.symm⟩
  · apply hout
    intro c hcm _
    by_contra hin
    exact hx (.inl ⟨c, hcm, by omega, by omega⟩)

theorem Image.zoneMalloc (hi : Image t s.heap) (hc : s.Contract r)
    (hsz : align sz + 4127 < 2 ^ 64) (hm : t.zoneMalloc id sz = some (p, t')) :
    ∃ g, s.heap.zoneMalloc id sz = some (p, g) ∧ Image t' g ∧
      ∀ x, ¬ g.Meta x → t'.memory x = t.memory x := by
  have hslow : t.slowMalloc id (align sz) = some (p, t') → ∃ g,
      s.heap.slowMalloc id (align sz) = some (p, g) ∧ Image t' g ∧
        ∀ x, ¬ g.Meta x → t'.memory x = t.memory x :=
    fun hs => ⟨_, hi.renew hc hsz (align_dvd sz) hs⟩
  unfold Threaded.zoneMalloc at hm
  unfold Heap.zoneMalloc
  dsimp only at hm ⊢
  cases ha : s.heap.arena id with
  | none =>
      rw [if_neg fun hcur => hcur.1 (hi.vacant id ha)] at hm
      exact hslow hm
  | some a =>
      obtain ⟨h0, hrem, -, -⟩ := hi.arena id a ha
      rw [hrem] at hm
      dsimp only
      by_cases hle : align sz ≤ a.remaining
      · rw [if_pos ⟨h0, hle⟩] at hm
        obtain ⟨u, hu, himage, hmem⟩ := hi.carve hc ha hle (align_dvd sz)
        rw [hu] at hm
        obtain ⟨rfl, rfl⟩ := Prod.mk.inj (Option.some.inj hm)
        rw [if_pos hle, Heap.carve_eq hle]
        exact ⟨_, rfl, himage, hmem⟩
      · rw [if_neg fun hcur => hle hcur.2] at hm
        rw [if_neg hle]
        exact hslow hm

/-! ## Objects -/

/-- The header of a new object is in a block that was not in use. -/
theorem Image.newHeader (hi : Image t g) (hc : s.Contract r) (hl : Heap.Laid g)
    (hblocks : g.blocks = ⟨q, align (n + 16)⟩ :: s.heap.blocks)
    (hobjects : g.bins = s.heap.bins ∧ g.header = s.heap.header) (hn : n + 23 < 2 ^ 64) :
    Image (t.newHeader q n) { g with header := Function.update g.header (q + 16) (some n) } ∧
      ∀ x, x < q ∨ q + 16 ≤ x → (t.newHeader q n).memory x = t.memory x := by
  obtain ⟨hbins, hheader⟩ := hobjects
  have hlen := (align_of_lt (show n + 16 + 7 < 2 ^ 64 by omega)).1
  have hmem : ∀ x, x < q ∨ q + 16 ≤ x → (t.newHeader q n).memory x = t.memory x := by
    intro x hx
    exact (memory_setWord_of_outside (by omega)).trans (memory_setWord_of_outside (by omega))
  have hobject : ∀ p m, s.heap.header p = some m → ∀ x, p ≤ x + 16 → x < p + 8 →
      (t.newHeader q n).memory x = t.memory x := by
    intro p m hp x hle hlt
    obtain ⟨b, hb, hstart, hstop, h8⟩ := object_block hc.sound hp
    have hpair := hl.blocks
    rw [hblocks] at hpair
    have hd := List.rel_of_pairwise_cons hpair hb
    apply hmem
    simp only [Span.Disjoint, Span.stop] at hd hstop
    omega
  refine ⟨⟨hi.xheap, hi.vacant, fun i a ha => ?_, fun i k => ?_, fun p m hp => ?_⟩, hmem⟩
  · obtain ⟨h0, hrem, hspace, c, hcm, hid, hstart⟩ := hi.arena i a ha
    have hd := hl.header_disjoint hcm (hblocks ▸ List.mem_cons_self)
    have hword : ∀ j, j + 8 ≤ 32 → (t.newHeader q n).word (c.2.start + j) =
        t.word (c.2.start + j) := by
      intro j hj
      apply word_congr
      intro i hi
      apply hmem
      simp only [Span.Disjoint, Span.stop] at hd
      omega
    rw [← hstart] at hrem hspace h0
    refine ⟨?_, ?_, ?_, c, hcm, hid, hstart⟩
    · rwa [hstart] at h0
    · exact hstart ▸ (hword 0 (by omega)).trans hrem
    · exact hstart ▸ (hword 16 (by omega)).trans hspace
  · refine (hi.bins i k).congr fun p hp => ?_
    rw [hbins] at hp
    obtain ⟨m, hh, -⟩ := bin_header hc hp
    apply word_congr
    intro j hj
    exact hobject p m hh _ (by omega) (by omega)
  · dsimp only at hp
    rw [Function.update_apply] at hp
    split at hp
    · rename_i hpq
      cases hp
      subst hpq
      rw [Nat.add_sub_cancel, show q + 16 - 8 = q + 8 by omega]
      refine ⟨?_, word_setWord_self (by omega)⟩
      exact (word_setWord_of_outside (.inl (by omega))).trans (word_setWord_self (by decide))
    · rw [hheader] at hp
      obtain ⟨hmag, hm⟩ := hi.header p m (hheader ▸ hp)
      obtain ⟨b, -, hstart, -⟩ := object_block hc.sound hp
      have h16 : (t.newHeader q n).word (p - 16) = t.word (p - 16) := by
        apply word_congr
        intro j hj
        exact hobject p m hp _ (by omega) (by omega)
      have h8 : (t.newHeader q n).word (p - 8) = t.word (p - 8) := by
        apply word_congr
        intro j hj
        exact hobject p m hp _ (by omega) (by omega)
      exact ⟨h16.trans hmag, h8.trans hm⟩

/-- The list in memory and the list of the heap are empty together. -/
theorem Image.get_nil (hi : Image t h) (hb : h.bins id k = []) : t.get id k = (0, t) := by
  have hchain := hi.bins id k
  rw [hb] at hchain
  exact if_pos hchain

theorem Image.get_cons (hi : Image t h) (hb : h.bins id k = p :: ps) :
    ∃ t', t.get id k = (p, t') ∧ p ≠ 0 ∧ Image t' (h.setBin id k ps) ∧ t'.memory = t.memory := by
  have hchain := hi.bins id k
  rw [hb] at hchain
  obtain ⟨hhead, hp, hrest⟩ := hchain
  have hget : t.get id k = (p, { t with
      head := Function.update t.head id (Function.update (t.head id) k (t.word p)) }) := by
    unfold Threaded.get
    rw [hhead, if_neg hp]
  refine ⟨_, hget, hp, ⟨hi.xheap, hi.vacant, hi.arena, fun i j => ?_, hi.header⟩, rfl⟩
  rw [Heap.setBin_bins]
  dsimp only
  rw [update_class]
  split
  · exact hrest.congr fun _ _ => rfl
  · exact (hi.bins i j).congr fun _ _ => rfl

theorem Chain.lt (hc : t.Chain p ps) (hlt : ∀ q ∈ ps, q < 2 ^ 64) : p < 2 ^ 64 := by
  cases ps with
  | nil =>
      obtain rfl : p = 0 := hc
      decide
  | cons q ps => exact hc.1 ▸ hlt q List.mem_cons_self

/-- An object that is given back is linked before the others of its class. -/
theorem Image.insert (hi : Image t s.heap) (hc : s.Contract r) (hp : s.heap.header p = some n)
    (hnot : ∀ i k, p ∉ s.heap.bins i k) (id : HeapId) (k : ℕ) :
    Image (t.insert id k p) (s.heap.setBin id k (p :: s.heap.bins id k)) ∧
      ∀ x, ¬ (s.heap.setBin id k (p :: s.heap.bins id k)).Meta x →
        (t.insert id k p).memory x = t.memory x := by
  have hn := (hc.sound.header p n hp).1
  have hp0 := ((hc.sound.header p n hp).2.lt hc.sound.toPlaced).1
  have hmem : ∀ x, x < p ∨ p + 8 ≤ x → (t.insert id k p).memory x = t.memory x :=
    fun x hx => memory_setWord_of_outside hx
  have hkeep : Image (t.setWord p (t.head id k)) s.heap := by
    refine hi.of_memory hc rfl rfl rfl fun x hx => hmem x ?_
    by_contra hin
    exact payload_not_meta hc hp hnot (by omega) (by omega) hx
  have hlink : t.head id k < 2 ^ 64 := by
    refine (hi.bins id k).lt fun q hq => ?_
    have := ((hc.sound.bins id k q hq).lt hc.sound.toPlaced).2.1
    have := r.le
    omega
  refine ⟨⟨hkeep.xheap, hkeep.vacant, hkeep.arena, fun i j => ?_, hkeep.header⟩, fun x hx => ?_⟩
  · rw [Heap.setBin_bins]
    unfold Threaded.insert
    dsimp only
    rw [update_class]
    split
    · refine ⟨rfl, hp0.ne', ?_⟩
      have hword : (t.setWord p (t.head id k)).word p = t.head id k := word_setWord_self hlink
      exact hword.symm ▸ (hkeep.bins id k).congr fun _ _ => rfl
    · exact (hkeep.bins i j).congr fun _ _ => rfl
  · apply hmem
    by_contra hin
    refine hx (.inr (.inr ⟨id, k, p, ?_, by omega, by omega⟩))
    rw [Heap.setBin_bins, if_pos ⟨rfl, rfl⟩]
    exact List.mem_cons_self

theorem Image.newSourceMalloc (hi : Image t s.heap) (hc : s.Contract r) (hn : n + 4144 ≤ 2 ^ 64)
    (hm : t.newSourceMalloc id n = some (p, t')) :
    ∃ g, s.heap.newSourceMalloc id n = some (p, g) ∧ Image t' g ∧
      ∀ x, ¬ g.Meta x → t'.memory x = t.memory x := by
  obtain ⟨halign, hn23⟩ := Heap.align_header hn
  have hn16 : (n + 16) % 2 ^ 64 = n + 16 := Nat.mod_eq_of_lt (by omega)
  unfold Threaded.newSourceMalloc at hm
  rw [Option.map_eq_some_iff, hn16] at hm
  obtain ⟨⟨q, u⟩, hz, hm⟩ := hm
  obtain ⟨g, hg, himage, hmem⟩ := hi.zoneMalloc hc halign hz
  obtain ⟨hl, hblocks, hheader, hbins⟩ := hc.laid.zoneMalloc hc.sound hg halign
  obtain ⟨hsound, -, -, c, hcm, hstart, -⟩ := hc.sound.zoneMalloc hg halign
  have hq0 : q ≠ 0 := by omega
  dsimp only at hm
  rw [if_neg hq0] at hm
  obtain ⟨rfl, rfl⟩ := Prod.mk.inj hm
  obtain ⟨hnew, hout⟩ := himage.newHeader hc hl hblocks ⟨hbins, hheader⟩ hn23
  refine ⟨_, ?_, hnew, fun x hx => ?_⟩
  · unfold Heap.newSourceMalloc
    rw [hn16, hg, Option.map_some]
    dsimp only
    rw [if_neg hq0]
  · have hg' : ¬ g.Meta x := by
      rintro (⟨c, hcm, hx'⟩ | ⟨q', m, hq', hx'⟩ | ⟨i, k, q', hq', hx'⟩)
      · exact hx (.inl ⟨c, hcm, hx'⟩)
      · refine hx (.inr (.inl ⟨q', m, ?_, hx'⟩))
        have hne : q' ≠ q + 16 := by
          rintro rfl
          rw [hheader, Heap.header_fresh hc.sound hl hblocks
            (Nat.lt_of_lt_of_le (by omega) (align_of_lt (show n + 16 + 7 < 2 ^ 64 by omega)).1)] at hq'
          cases hq'
        exact (Function.update_of_ne hne ..).trans hq'
      · exact hx (.inr (.inr ⟨i, k, q', hq', hx'⟩))
    refine (hout x ?_).trans (hmem x hg')
    by_contra hin
    exact hx (.inr (.inl ⟨q + 16, n, Function.update_self .., by omega, by omega⟩))

theorem Image.malloc (hi : Image t s.heap) (hc : s.Contract r) (hsz : sz + 4143 < 2 ^ 64)
    (hm : t.malloc id sz = some (p, t')) :
    ∃ g, s.heap.malloc id sz = some (p, g) ∧ Image t' g ∧
      ∀ x, ¬ g.Meta x → t'.memory x = t.memory x := by
  obtain ⟨-, hs64⟩ := Heap.aligned_request hsz
  unfold Threaded.malloc at hm
  unfold Heap.malloc
  generalize align (if sz < 16 then 16 else sz) = n at hm hs64 ⊢
  unfold Threaded.strictSegMalloc at hm
  unfold Heap.strictSegMalloc
  split at hm
  · rename_i hsmall
    rw [if_pos hsmall]
    have hclass := class2Size_le_max (size2Class_spec hsmall).1
    rw [maxObjectSize_eq] at hclass
    cases hb : s.heap.bins id (size2Class n) with
    | nil =>
        rw [hi.get_nil hb] at hm
        exact hi.newSourceMalloc hc (by omega) hm
    | cons q qs =>
        obtain ⟨u, hget, hq, himage, hmem⟩ := hi.get_cons hb
        rw [hget] at hm
        dsimp only at hm
        rw [if_neg hq] at hm
        obtain ⟨rfl, rfl⟩ := Prod.mk.inj (Option.some.inj hm)
        exact ⟨_, rfl, himage, fun x _ => congrFun hmem x⟩
  · rename_i hbig
    rw [if_neg hbig]
    exact hi.newSourceMalloc hc hs64 hm

/-- The size of an object is read from the memory before it. -/
theorem Image.getSize (hi : Image t h) (hp : h.header p = some n) : t.getSize p = some n := by
  obtain ⟨hmag, hn⟩ := hi.header p n hp
  unfold Threaded.getSize
  rw [if_pos hmag, hn]

theorem Image.free (hi : Image t s.heap) (hc : s.Contract r) (hp : p ∈ s.held)
    (hm : t.free id p = some t') :
    ∃ g, s.heap.free id p = some g ∧ Image t' g ∧ ∀ x, ¬ g.Meta x → t'.memory x = t.memory x := by
  obtain ⟨hp0, n, hn⟩ := hc.header_of_held hp
  have hnot : ∀ i k, p ∉ s.heap.bins i k := fun i k hin => (hc.kept.bin i k p hin).2.2 hp
  unfold Threaded.free Threaded.strictSegFree at hm
  rw [if_neg hp0, hi.getSize hn, Option.map_some, Option.some.injEq] at hm
  unfold Heap.free
  rw [if_neg hp0, hn, Option.map_some]
  split at hm
  · rename_i hbig
    rw [if_pos hbig]
    exact ⟨_, rfl, hm ▸ hi, fun _ _ => by rw [hm]⟩
  · rename_i hsmall
    rw [if_neg hsmall]
    obtain ⟨himage, hmem⟩ := hi.insert hc hn hnot id (classDown (size2Class n) n)
    subst hm
    exact ⟨_, rfl, himage, hmem⟩

end Threaded

end Dthreads.Allocator
