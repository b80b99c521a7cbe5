import Dthreads.Allocator.Layers
import Dthreads.Transition.Run

/-! # Requests that wrap

No layer sees the request of the program: each adds its own header to a size it was given, modulo
`2 ^ 64`, and records that size although the chunk below may be that of a wrapped sum. -/

namespace Dthreads.Allocator

open Kingsley Transition

/-! ## Sizes -/

theorem align_of_lt {sz : ℕ} (h : sz + 7 < 2 ^ 64) : sz ≤ align sz ∧ align sz ≤ sz + 7 := by
  unfold align
  omega

theorem align_of_le {sz : ℕ} (h : 2 ^ 64 ≤ sz + 7) (hsz : sz < 2 ^ 64) : align sz = 0 := by
  unfold align
  omega

theorem align_dvd (sz : ℕ) : 8 ∣ align sz := ⟨_, Nat.mul_comm ..⟩

theorem pageRound_of_lt {sz : ℕ} (h : sz + 4095 < 2 ^ 64) : sz ≤ pageRound sz := by
  unfold pageRound
  omega

namespace Heap

variable {h h' : Heap} {id : HeapId} {r : Region} {p n sz : ℕ}

/-- The object at `p` has `n` bytes behind its header, in a block that lies in a chunk. -/
def Available (h : Heap) (p n : ℕ) : Prop :=
  ∃ b ∈ h.blocks, p = b.start + 16 ∧ 16 + n ≤ b.length ∧
    ∃ c ∈ h.chunks, c.2.start + 32 ≤ b.start ∧ b.stop ≤ c.2.stop

theorem Available.mono {m : ℕ} (ha : h.Available p n) (hm : m ≤ n) : h.Available p m := by
  obtain ⟨b, hb, hp, hn, hc⟩ := ha
  exact ⟨b, hb, hp, by omega, hc⟩

theorem Available.grow (ha : h.Available p n) (hb : h.blocks ⊆ h'.blocks)
    (hc : h.chunks ⊆ h'.chunks) : h'.Available p n := by
  obtain ⟨b, hbm, hp, hn, c, hcm, hs⟩ := ha
  exact ⟨b, hb hbm, hp, hn, c, hc hcm, hs⟩

/-! ## What a layer does -/

theorem allocSize_ge (sz : ℕ) : sz ≤ allocSize sz := by
  unfold allocSize
  split <;> omega

/-- What `xheap` takes from its region for the arena of a block of `sz` bytes. -/
def chunkLength (sz : ℕ) : ℕ := pageRound ((32 + allocSize sz) % 2 ^ 64)

/-- The heap after a block was carved from the arena `a`. -/
def carved (h : Heap) (id : HeapId) (a : Arena) (sz : ℕ) : Heap :=
  { h with
    arena := Function.update h.arena id
      (some { remaining := a.remaining - sz, arenaSpace := a.arenaSpace + sz })
    blocks := ⟨a.arenaSpace, sz⟩ :: h.blocks }

/-- The heap after a block was carved from a new arena. -/
def renewed (h : Heap) (id : HeapId) (sz : ℕ) : Heap :=
  let n := chunkLength sz
  { h with
    xheap := { position := h.xheap.position + n, remaining := h.xheap.remaining - n }
    chunks := (id, ⟨h.xheap.position, n⟩) :: h.chunks
    arena := Function.update h.arena id
      (some { remaining := allocSize sz - sz, arenaSpace := h.xheap.position + 32 + sz })
    blocks := ⟨h.xheap.position + 32, sz⟩ :: h.blocks }

theorem carved_arena (a : Arena) (i : HeapId) : (h.carved id a sz).arena i = if i = id then
    some { remaining := a.remaining - sz, arenaSpace := a.arenaSpace + sz } else h.arena i :=
  Function.update_apply ..

theorem renewed_arena (i : HeapId) : (h.renewed id sz).arena i = if i = id then
    some { remaining := allocSize sz - sz, arenaSpace := h.xheap.position + 32 + sz }
    else h.arena i :=
  Function.update_apply ..

theorem carve_eq {a : Arena} (hs : sz ≤ a.remaining) :
    h.carve id a sz = (a.arenaSpace, h.carved id a sz) := by
  unfold carve carved Arena.malloc
  rw [if_neg (Nat.not_lt.mpr hs)]

theorem slowMalloc_eq (hr : h.xheap.remaining ≠ 0) (hn : chunkLength sz ≤ h.xheap.remaining)
    (hp : h.xheap.position ≠ 0) :
    h.slowMalloc id sz = some (h.xheap.position + 32, h.renewed id sz) := by
  unfold chunkLength at hn
  unfold slowMalloc XHeap.malloc
  rw [if_neg hr, if_neg (Nat.not_lt.mpr hn), Option.map_some]
  dsimp only
  rw [if_neg hp, carve_eq (allocSize_ge sz)]
  simp only [carved, chunked, renewed, chunkLength, Nat.add_sub_cancel_left]

theorem slowMalloc_none (hr : h.xheap.remaining = 0 ∨ h.xheap.remaining < chunkLength sz) :
    h.slowMalloc id sz = none := by
  unfold chunkLength at hr
  unfold slowMalloc XHeap.malloc
  by_cases h0 : h.xheap.remaining = 0
  · rw [if_pos h0, Option.map_none]
  · rw [if_neg h0, if_pos (hr.resolve_left h0), Option.map_none]

/-- The block comes from the current arena, or from that of a new chunk. -/
theorem zoneMalloc_cases (hp : h.xheap.position ≠ 0) (hm : h.zoneMalloc id sz = some (p, h')) :
    (∃ a, h.arena id = some a ∧ align sz ≤ a.remaining ∧ p = a.arenaSpace ∧
      h' = h.carved id a (align sz)) ∨
    (chunkLength (align sz) ≤ h.xheap.remaining ∧ p = h.xheap.position + 32 ∧
      h' = h.renewed id (align sz)) := by
  have hslow : h.slowMalloc id (align sz) = some (p, h') →
      chunkLength (align sz) ≤ h.xheap.remaining ∧ p = h.xheap.position + 32 ∧
        h' = h.renewed id (align sz) := by
    intro hs
    by_cases hr : h.xheap.remaining = 0 ∨ h.xheap.remaining < chunkLength (align sz)
    · rw [slowMalloc_none hr] at hs
      cases hs
    · obtain ⟨hr, hn⟩ := not_or.mp hr
      rw [slowMalloc_eq hr (Nat.not_lt.mp hn) hp, Option.some.injEq, Prod.mk.injEq] at hs
      exact ⟨Nat.not_lt.mp hn, hs.1.symm, hs.2.symm⟩
  unfold zoneMalloc at hm
  dsimp only at hm
  split at hm
  · rename_i a ha
    split at hm
    · rename_i hle
      rw [carve_eq hle, Option.some.injEq, Prod.mk.injEq] at hm
      exact .inl ⟨a, ha, hle, hm.1.symm, hm.2.symm⟩
    · exact .inr (hslow hm)
  · exact .inr (hslow hm)

/-- The header is written in front of an object that is carved. -/
theorem newSourceMalloc_cases (hm : h.newSourceMalloc id sz = some (p, h')) :
    ∃ q g, h.zoneMalloc id ((sz + 16) % 2 ^ 64) = some (q, g) ∧
      (q = 0 ∧ p = 0 ∧ h' = g ∨
        q ≠ 0 ∧ p = q + 16 ∧ h' = { g with header := Function.update g.header (q + 16) (some sz) }) := by
  unfold newSourceMalloc at hm
  rw [Option.map_eq_some_iff] at hm
  obtain ⟨⟨q, g⟩, hz, hm⟩ := hm
  dsimp only at hm
  split at hm <;> rename_i hq <;> obtain ⟨rfl, rfl⟩ := Prod.mk.inj hm
  · exact ⟨q, g, hz, .inl ⟨hq, rfl, rfl⟩⟩
  · exact ⟨q, g, hz, .inr ⟨hq, rfl, rfl⟩⟩

/-- An object comes from the free list of its class, or it is new. -/
theorem strictSegMalloc_cases (hm : h.strictSegMalloc id sz = some (p, h')) :
    (sz ≤ maxObjectSize ∧ ∃ ps, h.bins id (size2Class sz) = p :: ps ∧ h' = { h with
      bins := Function.update h.bins id (Function.update (h.bins id) (size2Class sz) ps) }) ∨
    ∃ n, h.newSourceMalloc id n = some (p, h') ∧
      (sz ≤ maxObjectSize ∧ n = class2Size (size2Class sz) ∨ maxObjectSize < sz ∧ n = sz) := by
  unfold strictSegMalloc at hm
  split at hm
  · rename_i hsz
    split at hm
    · rename_i q qs hb
      obtain ⟨rfl, rfl⟩ := Prod.mk.inj (Option.some.inj hm)
      exact .inl ⟨hsz, qs, hb, rfl⟩
    · exact .inr ⟨_, hm, .inl ⟨hsz, rfl⟩⟩
  · rename_i hsz
    exact .inr ⟨sz, hm, .inr ⟨Nat.lt_of_not_le hsz, rfl⟩⟩

/-! ## Sound heaps -/

/-- The chunks lie in the region, below the bump pointer. -/
structure Placed (r : Region) (h : Heap) : Prop where
  room : h.xheap.position + h.xheap.remaining = r.base + 2 ^ 32
  base : r.base ≤ h.xheap.position
  chunk : ∀ c ∈ h.chunks, r.base ≤ c.2.start ∧ c.2.stop ≤ h.xheap.position

/-- The arenas, the free objects and the objects with a header have the bytes they are believed to
have. -/
structure Sound (r : Region) (h : Heap) : Prop extends Placed r h where
  arena : ∀ id a, h.arena id = some a → ∃ c ∈ h.chunks, c.1 = id ∧ c.2.start + 32 ≤ a.arenaSpace ∧
    a.arenaSpace + a.remaining ≤ c.2.stop
  bins : ∀ id k, ∀ q ∈ h.bins id k, h.Available q (class2Size k)
  header : ∀ q m, h.header q = some m → 8 ≤ m ∧ h.Available q m

theorem Placed.position_ne (hs : Placed r h) : h.xheap.position ≠ 0 := by
  have := r.pos
  have := hs.base
  omega

/-- No object is larger than the region. -/
theorem Available.lt (ha : h.Available p n) (hs : Placed r h) :
    0 < p ∧ p + n ≤ r.base + 2 ^ 32 ∧ n + 48 ≤ 2 ^ 32 := by
  obtain ⟨b, -, hp, hn, c, hc, hstart, hstop⟩ := ha
  obtain ⟨hbase, hle⟩ := hs.chunk c hc
  have hroom := hs.room
  unfold Span.stop at hstop hle
  omega

theorem placed_boot (r : Region) : Placed r (boot r) := ⟨rfl, le_rfl, by simp [boot]⟩

theorem sound_boot (r : Region) : Sound r (boot r) where
  toPlaced := placed_boot r
  arena _ _ ha := by cases ha
  bins _ _ _ hq := by cases hq
  header _ _ hq := by cases hq

/-- A chunk of any length the region has room for. -/
theorem Placed.renewed (hs : Placed r h) (hn : chunkLength sz ≤ h.xheap.remaining) :
    Placed r (h.renewed id sz) := by
  refine ⟨?_, ?_, fun c hc => ?_⟩
  · have := hs.room
    simp only [Heap.renewed]
    omega
  · exact hs.base.trans (Nat.le_add_right _ _)
  · rcases List.mem_cons.mp hc with rfl | hc
    · exact ⟨hs.base, le_rfl⟩
    · exact (hs.chunk c hc).imp_right fun hle => hle.trans (Nat.le_add_right _ _)

theorem Placed.zoneMalloc (hs : Placed r h) (hm : h.zoneMalloc id sz = some (p, h')) :
    Placed r h' := by
  rcases zoneMalloc_cases hs.position_ne hm with ⟨a, -, -, -, rfl⟩ | ⟨hn, -, rfl⟩
  · exact ⟨hs.room, hs.base, hs.chunk⟩
  · exact hs.renewed hn

theorem Placed.malloc (hs : Placed r h) (hm : h.malloc id sz = some (p, h')) : Placed r h' := by
  rcases strictSegMalloc_cases hm with ⟨-, ps, -, rfl⟩ | ⟨n, hm, -⟩
  · exact ⟨hs.room, hs.base, hs.chunk⟩
  · obtain ⟨q, g, hz, ⟨-, -, rfl⟩ | ⟨-, -, rfl⟩⟩ := newSourceMalloc_cases hm
    · exact hs.zoneMalloc hz
    · have hg := hs.zoneMalloc hz
      exact ⟨hg.room, hg.base, hg.chunk⟩

/-! ## Requests that fit -/

theorem chunkLength_of_lt (hsz : sz + 4127 < 2 ^ 64) : 32 + allocSize sz ≤ chunkLength sz := by
  have hlt : 32 + allocSize sz + 4095 < 2 ^ 64 := by
    unfold allocSize chunkSize
    split <;> omega
  unfold chunkLength
  rw [Nat.mod_eq_of_lt (by omega)]
  exact pageRound_of_lt hlt

/-- A block whose size fits is inside its chunk. -/
theorem Sound.zoneMalloc (hs : Sound r h) (hm : h.zoneMalloc id sz = some (p, h'))
    (hsz : align sz + 4127 < 2 ^ 64) :
    Sound r h' ∧ h'.header = h.header ∧ ⟨p, align sz⟩ ∈ h'.blocks ∧
      ∃ c ∈ h'.chunks, c.2.start + 32 ≤ p ∧ p + align sz ≤ c.2.stop := by
  have hplaced := hs.toPlaced.zoneMalloc hm
  rcases zoneMalloc_cases hs.position_ne hm with ⟨a, ha, hle, rfl, rfl⟩ | ⟨hn, rfl, rfl⟩
  · obtain ⟨c, hc, hid, hstart, hstop⟩ := hs.arena id a ha
    have hblocks : h.blocks ⊆ (h.carved id a (align sz)).blocks := List.subset_cons_self ..
    refine ⟨⟨hplaced, fun i b hb => ?_, fun i k q hq => (hs.bins i k q hq).grow hblocks fun _ hx => hx,
      fun q m hq => (hs.header q m hq).imp_right fun hq => hq.grow hblocks fun _ hx => hx⟩, rfl,
      List.mem_cons_self, c, hc, hstart, by omega⟩
    rw [carved_arena] at hb
    split at hb
    · rename_i hi
      cases hb
      exact ⟨c, hc, hid.trans hi.symm, by dsimp only; omega, by dsimp only; omega⟩
    · exact hs.arena i b hb
  · have hlen := chunkLength_of_lt hsz
    have halloc := allocSize_ge (align sz)
    have hblocks : h.blocks ⊆ (h.renewed id (align sz)).blocks := List.subset_cons_self ..
    have hchunks : h.chunks ⊆ (h.renewed id (align sz)).chunks := List.subset_cons_self ..
    refine ⟨⟨hplaced, fun i b hb => ?_, fun i k q hq => (hs.bins i k q hq).grow hblocks hchunks,
      fun q m hq => (hs.header q m hq).imp_right fun hq => hq.grow hblocks hchunks⟩, rfl,
      List.mem_cons_self, _, List.mem_cons_self, le_rfl, ?_⟩
    · rw [renewed_arena] at hb
      split at hb
      · rename_i hi
        cases hb
        refine ⟨_, List.mem_cons_self, hi.symm, ?_, ?_⟩ <;> simp only [Span.stop] <;> omega
      · obtain ⟨c, hc, hb⟩ := hs.arena i b hb
        exact ⟨c, hchunks hc, hb⟩
    · simp only [Span.stop]
      omega

/-- So is the object behind a header. -/
theorem Sound.newSourceMalloc (hs : Sound r h) (hm : h.newSourceMalloc id sz = some (p, h'))
    (h8 : 8 ≤ sz) (hsz : align (sz + 16) + 4127 < 2 ^ 64) (hlt : sz + 23 < 2 ^ 64) :
    Sound r h' ∧ h'.Available p sz := by
  obtain ⟨q, g, hz, hq⟩ := newSourceMalloc_cases hm
  rw [Nat.mod_eq_of_lt (by omega)] at hz
  obtain ⟨hle, -⟩ := align_of_lt (show sz + 16 + 7 < 2 ^ 64 by omega)
  obtain ⟨hg, -, hb, c, hc, hstart, hstop⟩ := hs.zoneMalloc hz hsz
  obtain ⟨-, rfl, rfl⟩ := hq.resolve_left fun h0 => by
    have := (hg.chunk c hc).1
    omega
  have hav : g.Available (q + 16) sz := ⟨_, hb, rfl, by dsimp only; omega, c, hc, hstart, hstop⟩
  refine ⟨⟨⟨hg.room, hg.base, hg.chunk⟩, hg.arena, hg.bins, fun q' m hm => ?_⟩, hav⟩
  dsimp only at hm
  rw [Function.update_apply] at hm
  split at hm
  · rename_i hq
    cases hm
    subst hq
    exact ⟨h8, hav⟩
  · exact hg.header q' m hm

/-- The bin of an object that is handed out or given back. -/
theorem Sound.setBin (hs : Sound r h) {k : ℕ} {l : List ℕ}
    (hl : ∀ q ∈ l, h.Available q (class2Size k)) :
    Sound r { h with bins := Function.update h.bins id (Function.update (h.bins id) k l) } := by
  refine ⟨⟨hs.room, hs.base, hs.chunk⟩, hs.arena, fun i j q hq => ?_, hs.header⟩
  dsimp only at hq
  rw [Function.update_apply] at hq
  split at hq
  · rename_i hi
    subst hi
    rw [Function.update_apply] at hq
    split at hq
    · rename_i hj
      subst hj
      exact hl q hq
    · exact hs.bins i j q hq
  · exact hs.bins i j q hq

/-- A request that does not wrap in any layer. -/
theorem Sound.malloc (hs : Sound r h) (hm : h.malloc id sz = some (p, h')) (hsz : sz + 4143 < 2 ^ 64) :
    Sound r h' ∧ h'.Available p sz := by
  obtain ⟨hle, hge⟩ := align_of_lt
    (show (if sz < 16 then 16 else sz) + 7 < 2 ^ 64 by split <;> omega)
  have hdvd := align_dvd (if sz < 16 then 16 else sz)
  have hsz' : sz ≤ align (if sz < 16 then 16 else sz) := le_trans (by split <;> omega) hle
  have h16 : 16 ≤ align (if sz < 16 then 16 else sz) := le_trans (by split <;> omega) hle
  unfold Heap.malloc at hm
  generalize align (if sz < 16 then 16 else sz) = s at *
  have hs64 : s + 4144 ≤ 2 ^ 64 := by
    by_cases h16 : sz < 16
    · rw [if_pos h16] at hge
      omega
    · rw [if_neg h16] at hge
      omega
  rcases strictSegMalloc_cases hm with ⟨hsmall, ps, hb, rfl⟩ | ⟨n, hm, hn⟩
  · have hbins := hs.bins id (size2Class s)
    rw [hb] at hbins
    refine ⟨hs.setBin fun q hq => hbins q (List.mem_cons_of_mem p hq), ?_⟩
    exact (hbins p List.mem_cons_self).mono (hsz'.trans (size2Class_spec hsmall).2)
  · have hsn : s ≤ n ∧ (n ≤ 2 ^ 31 ∨ n = s) := by
      rcases hn with ⟨hsmall, rfl⟩ | ⟨-, rfl⟩
      · obtain ⟨hclass, hfit⟩ := size2Class_spec hsmall
        exact ⟨hfit, .inl (maxObjectSize_eq ▸ class2Size_le_max hclass)⟩
      · exact ⟨le_rfl, .inr rfl⟩
    have halign : align (n + 16) + 4127 < 2 ^ 64 := by
      unfold align
      omega
    obtain ⟨hs', hav⟩ := hs.newSourceMalloc hm (by omega) halign (by omega)
    exact ⟨hs', hav.mono (hsz'.trans hsn.1)⟩

theorem Sound.free (hs : Sound r h) (hm : h.free id p = some h') : Sound r h' := by
  unfold Heap.free at hm
  split at hm
  · cases hm
    exact hs
  · rw [Option.map_eq_some_iff] at hm
    obtain ⟨n, hn, hm⟩ := hm
    split at hm
    · cases hm
      exact hs
    · cases hm
      obtain ⟨h8, hav⟩ := hs.header p n hn
      refine hs.setBin fun q hq => ?_
      rcases List.mem_cons.mp hq with rfl | hq
      · exact hav.mono (classDown_le h8)
      · exact hs.bins id _ q hq

theorem calloc_cases {nmemb : ℕ} (hm : h.calloc id nmemb sz = some (p, h')) :
    h.malloc id (nmemb * sz % 2 ^ 64) = some (p, h') ∧ p ≠ 0 ∧ p + nmemb * sz % 2 ^ 64 ≤ 2 ^ 47 := by
  unfold calloc xrunCalloc memset at hm
  simp only [Option.bind_eq_some_iff, Option.map_eq_some_iff] at hm
  obtain ⟨⟨q, g⟩, ⟨⟨q', g'⟩, hmal, g'', hset, hq⟩, hm⟩ := hm
  dsimp only at hset hm
  obtain ⟨rfl, rfl⟩ := Prod.mk.inj hq
  split at hset
  · rename_i hle
    cases hset
    split at hm
    · cases hm
    · rename_i hp
      split at hm
      · rename_i hle'
        simp only [Option.map_some, Option.some.injEq, Prod.mk.injEq] at hm
        obtain ⟨rfl, rfl⟩ := hm
        exact ⟨hmal, hp, hle⟩
      · cases hm
  · cases hset

/-! ## The condition -/

/-- The request wraps in no layer, or it is a wrapped product that is still too large for the
region. -/
def Fits : Request → Prop
  | .malloc _ sz => (sz : ℕ) + 4143 < 2 ^ 64
  | .calloc _ nmemb sz =>
      (nmemb * sz : ℕ) < 2 ^ 64 ∨ 2 ^ 32 - 48 < (nmemb * sz : ℕ) % 2 ^ 64
  | .free _ _ => True

/-- What `calloc` returns has room for the exact product. -/
theorem Sound.calloc {nmemb sz : SizeT} (hs : Sound r h)
    (hm : h.calloc id nmemb sz = some (p, h')) (hf : Fits (.calloc id nmemb sz)) :
    Sound r h' ∧ h'.Available p (nmemb * sz) := by
  obtain ⟨hmal, hp, hend⟩ := calloc_cases hm
  obtain ⟨hs', hav⟩ := hs.malloc hmal (by omega)
  obtain ⟨-, -, hle⟩ := hav.lt hs'.toPlaced
  have hprod : (nmemb * sz : ℕ) < 2 ^ 64 := hf.resolve_right fun hbig => by omega
  rw [Nat.mod_eq_of_lt hprod] at hav
  exact ⟨hs', hav⟩

theorem Sound.step {a : Request} (hs : Sound r h) (hf : Fits a) (hm : h.step a = some h') :
    Sound r h' := by
  cases a with
  | malloc id sz =>
      obtain ⟨⟨p, g⟩, hmal, rfl⟩ := Option.map_eq_some_iff.mp hm
      exact (hs.malloc hmal hf).1
  | calloc id nmemb sz =>
      obtain ⟨⟨p, g⟩, hcal, rfl⟩ := Option.map_eq_some_iff.mp hm
      exact (hs.calloc hcal hf).1
  | free id p => exact hs.free hm

theorem sound_of_run {as : List Request} (hr : Run Heap.step (fun _ a => Fits a) (boot r) as h) :
    Sound r h :=
  hr.invariant (fun _ _ _ hs hf hm => hs.step hf hm) (sound_boot r)

/-! ## Requests that wrap -/

/-- The first request takes a chunk, if what is asked of `xheap` is not more than the region. -/
theorem newSourceMalloc_boot (hn : chunkLength (align ((sz + 16) % 2 ^ 64)) ≤ 2 ^ 32) :
    ∃ h', (boot r).newSourceMalloc id sz = some (r.base + 48, h') := by
  have hzone : (boot r).zoneMalloc id ((sz + 16) % 2 ^ 64) =
      some (r.base + 32, (boot r).renewed id (align ((sz + 16) % 2 ^ 64))) :=
    slowMalloc_eq (Nat.two_pow_pos 32).ne' hn r.pos.ne'
  unfold newSourceMalloc
  rw [hzone, Option.map_some]
  have hb : r.base + 32 ≠ 0 := by omega
  exact ⟨_, congrArg some (if_neg hb)⟩

theorem malloc_boot {n : ℕ} (hn : align (if sz < 16 then 16 else sz) = n)
    (hlen : ∀ m, (n ≤ maxObjectSize ∧ m = class2Size (size2Class n) ∨ maxObjectSize < n ∧ m = n) →
      chunkLength (align ((m + 16) % 2 ^ 64)) ≤ 2 ^ 32) :
    ∃ h', (boot r).malloc id sz = some (r.base + 48, h') := by
  unfold malloc
  rw [hn]
  unfold strictSegMalloc
  split
  · rename_i hle
    exact newSourceMalloc_boot (hlen _ (.inl ⟨hle, rfl⟩))
  · rename_i hlt
    exact newSourceMalloc_boot (hlen _ (.inr ⟨Nat.lt_of_not_le hlt, rfl⟩))

theorem chunkLength_le {n : ℕ} (hn : align (n + 16) + 32 ≤ 2 ^ 32) (hlt : n + 16 < 2 ^ 64) :
    chunkLength (align ((n + 16) % 2 ^ 64)) ≤ 2 ^ 32 := by
  rw [Nat.mod_eq_of_lt hlt]
  unfold chunkLength pageRound allocSize chunkSize
  split <;> omega

/-- A size that the region has room for is served. -/
theorem malloc_boot_of_le (r : Region) (id : HeapId) (hsz : sz + 48 ≤ 2 ^ 32) :
    ∃ h', (boot r).malloc id sz = some (r.base + 48, h') := by
  obtain ⟨hle, hge⟩ := align_of_lt
    (show (if sz < 16 then 16 else sz) + 7 < 2 ^ 64 by split <;> omega)
  have hdvd := align_dvd (if sz < 16 then 16 else sz)
  refine malloc_boot rfl fun m hm => ?_
  generalize align (if sz < 16 then 16 else sz) = n at *
  have hn : n + 48 ≤ 2 ^ 32 := by
    split at hge <;> omega
  rcases hm with ⟨hsmall, rfl⟩ | ⟨-, rfl⟩
  · have hclass := class2Size_le_max (size2Class_spec hsmall).1
    rw [maxObjectSize_eq] at hclass
    refine chunkLength_le ?_ (by omega)
    unfold align
    omega
  · refine chunkLength_le ?_ (by omega)
    unfold align
    omega

/-- So is a size that wraps in one of the layers. -/
theorem malloc_boot_of_wrap (r : Region) (id : HeapId) (hsz : 2 ^ 64 ≤ sz + 4143) (hlt : sz < 2 ^ 64) :
    ∃ h', (boot r).malloc id sz = some (r.base + 48, h') := by
  have h16 : ¬ sz < 16 := by omega
  refine malloc_boot rfl fun m hm => ?_
  rw [if_neg h16, maxObjectSize_eq] at hm
  rcases hm with ⟨hsmall, rfl⟩ | ⟨hbig, rfl⟩
  · have hzero : align sz = 0 := by
      unfold align at hsmall ⊢
      omega
    rw [hzero]
    decide +kernel
  · unfold align at hbig
    unfold chunkLength pageRound allocSize chunkSize align
    split <;> omega

theorem calloc_boot (r : Region) (id : HeapId) {nmemb : ℕ} (hsz : nmemb * sz % 2 ^ 64 + 48 ≤ 2 ^ 32) :
    ∃ h', (boot r).calloc id nmemb sz = some (r.base + 48, h') := by
  obtain ⟨h', hm⟩ := malloc_boot_of_le r id hsz
  have hend : r.base + 48 + nmemb * sz % 2 ^ 64 ≤ 2 ^ 47 := by
    have := r.le
    omega
  have hb : r.base + 48 ≠ 0 := by omega
  refine ⟨h', ?_⟩
  unfold calloc xrunCalloc memset
  rw [hm, Option.bind_some]
  dsimp only
  rw [if_pos hend, Option.map_some, Option.bind_some]
  dsimp only
  rw [if_neg hb, Nat.mul_comm sz, if_pos hend, Option.map_some]

/-! ## The law -/

/-- After requests that fit, a request is never served short, whatever its heap id and the heap, if and
only if it fits. -/
theorem served_iff (r : Region) (id : HeapId) :
    (∀ sz : SizeT, (∀ as w p w', Run Heap.step (fun _ a => Fits a) (boot r) as w →
      w.malloc id sz = some (p, w') → p = 0 ∨ w'.Available p sz) ↔ Fits (.malloc id sz)) ∧
    ∀ nmemb sz : SizeT, (∀ as w p w', Run Heap.step (fun _ a => Fits a) (boot r) as w →
      w.calloc id nmemb sz = some (p, w') → p = 0 ∨ w'.Available p (nmemb * sz)) ↔
        Fits (.calloc id nmemb sz) := by
  refine ⟨fun sz => ⟨fun hall => ?_, fun hf as w p w' hr hm => ?_⟩,
    fun nmemb sz => ⟨fun hall => ?_, fun hf as w p w' hr hm => ?_⟩⟩
  · by_contra hf
    have hwrap : 2 ^ 64 ≤ (sz : ℕ) + 4143 := Nat.not_lt.mp hf
    obtain ⟨h', hm⟩ := malloc_boot_of_wrap r id hwrap sz.isLt
    rcases hall [] _ _ h' (.nil _) hm with hp | hav
    · omega
    · have := (hav.lt ((placed_boot r).malloc hm)).2.2
      omega
  · exact .inr ((sound_of_run hr).malloc hm hf).2
  · by_contra hf
    obtain ⟨hprod, hsmall⟩ := not_or.mp hf
    obtain ⟨h', hm⟩ := calloc_boot r id (show (nmemb * sz : ℕ) % 2 ^ 64 + 48 ≤ 2 ^ 32 by omega)
    rcases hall [] _ _ h' (.nil _) hm with hp | hav
    · omega
    · have := (hav.lt ((placed_boot r).malloc (calloc_cases hm).1)).2.2
      omega
  · exact .inr ((sound_of_run hr).calloc hm hf).2

/-- The region of the examples. -/
def someRegion : Region := ⟨2 ^ 32, by decide, by decide, by decide⟩

/-- `malloc` of the largest `size_t`, and `calloc` of `2 ^ 32` objects of `2 ^ 32` bytes. -/
theorem served_short :
    (∃ p w, (boot someRegion).malloc 0 (2 ^ 64 - 1) = some (p, w) ∧ p ≠ 0 ∧
      ¬ w.Available p (2 ^ 64 - 1)) ∧
    ∃ p w, (boot someRegion).calloc 0 (2 ^ 32) (2 ^ 32) = some (p, w) ∧ p ≠ 0 ∧
      ¬ w.Available p (2 ^ 32 * 2 ^ 32) := by
  refine ⟨?_, ?_⟩
  · obtain ⟨w, hm⟩ := malloc_boot_of_wrap someRegion 0
      (show 2 ^ 64 ≤ 2 ^ 64 - 1 + 4143 by omega) (by omega)
    refine ⟨_, w, hm, nofun, fun hav => ?_⟩
    have := (hav.lt ((placed_boot someRegion).malloc hm)).2.2
    omega
  · obtain ⟨w, hm⟩ := calloc_boot someRegion 0
      (show 2 ^ 32 * 2 ^ 32 % 2 ^ 64 + 48 ≤ 2 ^ 32 by omega)
    refine ⟨_, w, hm, nofun, fun hav => ?_⟩
    have := (hav.lt ((placed_boot someRegion).malloc (calloc_cases hm).1)).2.2
    omega

end Heap

end Dthreads.Allocator
