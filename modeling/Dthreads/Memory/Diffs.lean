import Dthreads.Memory.Page

/-! # Page diffs in memory

`writePageDiffs` as its two builds run it: a loop over the words of the page, with a loop over
the bytes of each differing word, and the loop over the 16-byte chunks of the `SSE_SUPPORT`
build. The local page and the twin page are read from their own mappings, counted from the
start of the page; `dest` is the offset of the destination page in the shared mapping. -/

namespace Dthreads.Memory

/-- The bytes of a mapping. -/
abbrev Bytes := ℕ → Byte

/-! ## The word-then-byte path -/

/-- The `long long` at a byte offset. -/
def loadWord (mem : Bytes) (o : ℕ) : Word := fun j => mem (o + j)

/-- One turn of the loop of `commitWord`. -/
def commitByte (loc twin : Bytes) (dest o : ℕ) (mem : Bytes) : Bytes :=
  if loc o ≠ twin o then Function.update mem (dest + o) (loc o) else mem

/-- `commitWord` on the word at offset `o`. -/
def commitWordAt (loc twin : Bytes) (dest o : ℕ) (mem : Bytes) : Bytes :=
  (List.range 8).foldl (fun mem j => commitByte loc twin dest (o + j) mem) mem

/-- One turn of the loop over the words. -/
def diffWord (loc twin : Bytes) (dest i : ℕ) (mem : Bytes) : Bytes :=
  if loadWord loc (8 * i) ≠ loadWord twin (8 * i) then commitWordAt loc twin dest (8 * i) mem
  else mem

/-! ## The vector path -/

/-- An `__m128i`. -/
abbrev Chunk := Fin 16 → Byte

/-- `_mm_load_si128`. -/
def loadChunk (mem : Bytes) (o : ℕ) : Chunk := fun j => mem (o + j)

/-- `_mm_cmpeq_epi8`. -/
def cmpeqEpi8 (x y : Chunk) : Chunk := fun j => if x j = y j then 0xFF else 0

/-- `_mm_cmpeq_epi32`: lanes of four bytes. -/
def cmpeqEpi32 (x y : Chunk) : Chunk :=
  fun j => if ∀ k : Fin 16, k.val / 4 = j.val / 4 → x k = y k then 0xFF else 0

/-- `_mm_xor_si128`. -/
def xorChunk (x y : Chunk) : Chunk := fun j => x j ^^^ y j

/-- `_mm_maskmoveu_si128`: the bytes whose mask has its high bit set are stored. -/
def maskmoveu (src mask : Chunk) (o : ℕ) (mem : Bytes) : Bytes := fun a =>
  if h : o ≤ a ∧ a < o + 16 then
    if mask ⟨a - o, by omega⟩ &&& 0x80 ≠ 0 then src ⟨a - o, by omega⟩ else mem a
  else mem a

/-- The string of one bits that `initialize` computes. -/
def allones : Chunk := cmpeqEpi32 (fun _ => 0) (fun _ => 0)

/-- One turn of the loop over the chunks. -/
def diffChunk (loc twin : Bytes) (dest i : ℕ) (mem : Bytes) : Bytes :=
  let localChunk := loadChunk loc (16 * i)
  let twinChunk := loadChunk twin (16 * i)
  let eqChunk := cmpeqEpi8 localChunk twinChunk
  let neqChunk := xorChunk allones eqChunk
  maskmoveu localChunk neqChunk (dest + 16 * i) mem

/-- The builds with and without `SSE_SUPPORT`. -/
inductive Build where
  | sse
  | words
  deriving DecidableEq, Repr

/-- `writePageDiffs`, on the page at offset `dest` of the shared mapping. -/
def diffPage (build : Build) (loc twin : Bytes) (dest : ℕ) (mem : Bytes) : Bytes :=
  match build with
  | .sse => (List.range (pageSize / 16)).foldl (fun mem i => diffChunk loc twin dest i mem) mem
  | .words => (List.range (pageSize / 8)).foldl (fun mem i => diffWord loc twin dest i mem) mem

/-! ## The byte-wise specification -/

/-- The offsets from `lo` to `hi` of the page have got the bytes that differ from the twin. -/
def patch (loc twin : Bytes) (dest lo hi : ℕ) (mem : Bytes) : Bytes := fun a =>
  if dest + lo ≤ a ∧ a < dest + hi ∧ loc (a - dest) ≠ twin (a - dest) then loc (a - dest)
  else mem a

variable {loc twin mem : Bytes} {dest lo mid hi : ℕ}

theorem patch_empty : patch loc twin dest lo lo mem = mem := by
  funext a
  exact if_neg fun h => absurd h.2.1 (by omega)

/-- Patches of adjacent windows make a patch. -/
theorem patch_append (hl : lo ≤ mid) (hh : mid ≤ hi) :
    patch loc twin dest mid hi (patch loc twin dest lo mid mem) = patch loc twin dest lo hi mem := by
  funext a
  unfold patch
  by_cases hm : dest + mid ≤ a
  · have hlo : ¬ a < dest + mid := by omega
    have hla : dest + lo ≤ a := by omega
    simp [hm, hlo, hla]
  · have hhi : a < dest + mid := by omega
    have hha : a < dest + hi := by omega
    simp [hm, hhi, hha]

/-- A window without a differing byte is left alone. -/
theorem patch_of_eq (h : ∀ o, lo ≤ o → o < hi → loc o = twin o) :
    patch loc twin dest lo hi mem = mem := by
  funext a
  refine if_neg ?_
  rintro ⟨h1, h2, h3⟩
  exact h3 (h (a - dest) (by omega) (by omega))

/-- A loop whose turn `i` patches the `i`-th window of width `w` patches all its windows. -/
theorem loop_patch {step : ℕ → Bytes → Bytes} {w : ℕ}
    (hstep : ∀ i mem, step i mem = patch loc twin dest (lo + w * i) (lo + w * (i + 1)) mem) (n : ℕ) :
    (List.range n).foldl (fun mem i => step i mem) mem =
      patch loc twin dest lo (lo + w * n) mem := by
  induction n with
  | zero => simp [patch_empty]
  | succ n ih =>
      rw [List.range_succ, List.foldl_append, ih]
      simp only [List.foldl_cons, List.foldl_nil]
      rw [hstep, patch_append (by omega)]
      exact Nat.add_le_add_left (Nat.mul_le_mul_left w n.le_succ) lo

/-! ## Bytes, words and chunks -/

theorem commitByte_eq (o : ℕ) (mem : Bytes) :
    commitByte loc twin dest o mem = patch loc twin dest o (o + 1) mem := by
  funext a
  unfold commitByte patch
  by_cases ha : a = dest + o
  · subst ha
    by_cases h : loc o = twin o <;> simp [h]
  · have hw : ¬ (dest + o ≤ a ∧ a < dest + (o + 1) ∧ loc (a - dest) ≠ twin (a - dest)) := by
      rintro ⟨h1, h2, -⟩
      omega
    rw [if_neg hw]
    split
    · exact Function.update_of_ne ha _ _
    · rfl

theorem commitWordAt_eq (o : ℕ) (mem : Bytes) :
    commitWordAt loc twin dest o mem = patch loc twin dest o (o + 8) mem := by
  refine loop_patch (w := 1) (fun j mem => ?_) 8
  rw [commitByte_eq]
  simp [Nat.add_assoc]

/-- Two words are equal when their bytes are. -/
theorem loadWord_eq_iff {o : ℕ} :
    loadWord loc o = loadWord twin o ↔ ∀ a, o ≤ a → a < o + 8 → loc a = twin a := by
  constructor
  · intro h a h1 h2
    have hj := congrFun h ⟨a - o, by omega⟩
    simpa [loadWord, Nat.add_sub_cancel' h1] using hj
  · intro h
    funext j
    exact h (o + j) (by omega) (by omega)

theorem diffWord_eq (i : ℕ) (mem : Bytes) :
    diffWord loc twin dest i mem = patch loc twin dest (8 * i) (8 * (i + 1)) mem := by
  unfold diffWord
  split
  · exact commitWordAt_eq _ _
  · rename_i h
    exact (patch_of_eq (loadWord_eq_iff.mp (not_not.mp h))).symm

@[simp] theorem allones_apply (j : Fin 16) : allones j = 0xFF := by
  simp [allones, cmpeqEpi32]

/-- The inverted comparison selects the differing bytes. -/
theorem neqChunk_apply (x y : Chunk) (j : Fin 16) :
    xorChunk allones (cmpeqEpi8 x y) j &&& 0x80 ≠ 0 ↔ x j ≠ y j := by
  unfold xorChunk cmpeqEpi8
  rw [allones_apply]
  split
  · rename_i h
    exact iff_of_false (by decide) (not_not.mpr h)
  · rename_i h
    exact iff_of_true (by decide) h

theorem diffChunk_eq (i : ℕ) (mem : Bytes) :
    diffChunk loc twin dest i mem = patch loc twin dest (16 * i) (16 * (i + 1)) mem := by
  funext a
  unfold diffChunk maskmoveu patch
  by_cases ha : dest + 16 * i ≤ a ∧ a < dest + 16 * i + 16
  · have hoff : 16 * i + (a - (dest + 16 * i)) = a - dest := by omega
    have hend : a < dest + 16 * (i + 1) := by omega
    rw [dif_pos ha]
    simp only [neqChunk_apply, loadChunk, hoff, ha.1, hend, true_and]
  · rw [dif_neg ha, if_neg]
    rintro ⟨h1, h2, -⟩
    omega

/-- Both builds patch the whole page. -/
theorem diffPage_eq (build : Build) (loc twin : Bytes) (dest : ℕ) (mem : Bytes) :
    diffPage build loc twin dest mem = patch loc twin dest 0 pageSize mem := by
  cases build with
  | sse =>
      have hstep : ∀ i mem, diffChunk loc twin dest i mem =
          patch loc twin dest (0 + 16 * i) (0 + 16 * (i + 1)) mem := by
        simpa using diffChunk_eq
      have hsize : 0 + 16 * (pageSize / 16) = pageSize := by simp [pageSize]
      rw [diffPage, loop_patch hstep, hsize]
  | words =>
      have hstep : ∀ i mem, diffWord loc twin dest i mem =
          patch loc twin dest (0 + 8 * i) (0 + 8 * (i + 1)) mem := by
        simpa using diffWord_eq
      have hsize : 0 + 8 * (pageSize / 8) = pageSize := by simp [pageSize]
      rw [diffPage, loop_patch hstep, hsize]

/-- The page at an offset of a mapping. -/
def pageAt (mem : Bytes) (o : ℕ) : Page := fun i => loadWord mem (o + 8 * i)

/-- Seen as pages, both builds run the page diff of the page machine. -/
theorem pageAt_diffPage (build : Build) (loc twin : Bytes) (dest : ℕ) (mem : Bytes) :
    pageAt (diffPage build loc twin dest mem) dest =
      writePageDiffs (pageAt loc 0) (pageAt twin 0) (pageAt mem dest) := by
  funext i j
  have hoff : dest + 8 * i.val + j.val - dest = 0 + 8 * i.val + j.val := by omega
  have hlo : dest + 0 ≤ dest + 8 * i.val + j.val := by omega
  have hhi : dest + 8 * i.val + j.val < dest + pageSize := by
    unfold pageSize
    omega
  rw [writePageDiffs_apply, diffPage_eq]
  by_cases h : loc (0 + 8 * i.val + j.val) = twin (0 + 8 * i.val + j.val)
  · simp only [pageAt, loadWord, patch, hoff, h, ne_eq, not_true_eq_false, and_false, if_false]
  · simp only [pageAt, loadWord, patch, hoff, hlo, hhi, h, ne_eq, not_false_eq_true, and_self,
      if_true]

/-! ## The order of the diffs -/

/-- No byte of the page differs from the twin in both. -/
def ChangesApart (twin x y : Bytes) : Prop := ∀ i < pageSize, ¬ (x i ≠ twin i ∧ y i ≠ twin i)

/-- The diff of a page, as a transaction on the bytes of the shared mapping. -/
def diffTxn (twin : Bytes) (dest : ℕ) (loc : Bytes) : Merge.Txn ℕ Byte where
  copy a := loc (a - dest)
  base a := if dest ≤ a ∧ a < dest + pageSize then twin (a - dest) else loc (a - dest)

theorem diffPage_eq_overlay (build : Build) (loc twin : Bytes) (dest : ℕ) (mem : Bytes) :
    diffPage build loc twin dest mem =
      Merge.overlay (diffTxn twin dest loc).copy (diffTxn twin dest loc).base mem := by
  rw [diffPage_eq]
  funext a
  unfold patch diffTxn
  rw [Merge.overlay_apply]
  by_cases ha : dest ≤ a ∧ a < dest + pageSize
  · simp [ha]
  · have hw : ¬ (dest + 0 ≤ a ∧ a < dest + pageSize ∧ loc (a - dest) ≠ twin (a - dest)) :=
      fun h => ha ⟨h.1, h.2.1⟩
    rw [if_neg hw]
    simp [ha]

theorem foldl_diffPage (build : Build) (twin : Bytes) (dest : ℕ) (xs : List Bytes) (mem : Bytes) :
    xs.foldl (fun mem loc => diffPage build loc twin dest mem) mem =
      Merge.lastWriter mem (xs.map (diffTxn twin dest)) := by
  rw [Merge.lastWriter, List.foldl_map]
  simp only [diffPage_eq_overlay]

theorem diffTxn_disjoint {twin x y : Bytes} {dest : ℕ} (h : ChangesApart twin x y) :
    (diffTxn twin dest x).Disjoint (diffTxn twin dest y) := by
  rintro a ⟨hx, hy⟩
  unfold Merge.Txn.Changes diffTxn at hx hy
  by_cases ha : dest ≤ a ∧ a < dest + pageSize
  · simp only [ha, and_self, if_true] at hx hy
    exact h (a - dest) (by omega) ⟨hx, hy⟩
  · simp [ha] at hx

/-- Both builds compute the byte-wise diff and touch nothing else, and diffs of different bytes
can be applied in any order, by either build. -/
theorem diffPage_bytewise :
    (∀ (build : Build) (loc twin : Bytes) (dest : ℕ) (mem : Bytes),
      (∀ i < pageSize, diffPage build loc twin dest mem (dest + i) =
        if loc i ≠ twin i then loc i else mem (dest + i)) ∧
      ∀ a, a < dest ∨ dest + pageSize ≤ a → diffPage build loc twin dest mem a = mem a) ∧
    ∀ (build build' : Build) (twin : Bytes) (dest : ℕ) (mem : Bytes) (xs ys : List Bytes),
      xs.Perm ys → xs.Pairwise (ChangesApart twin) →
        xs.foldl (fun mem loc => diffPage build loc twin dest mem) mem =
          ys.foldl (fun mem loc => diffPage build' loc twin dest mem) mem := by
  refine ⟨fun build loc twin dest mem => ⟨fun i hi => ?_, fun a ha => ?_⟩, ?_⟩
  · have hoff : dest + i - dest = i := by omega
    rw [diffPage_eq]
    simp [patch, hoff, hi]
  · rw [diffPage_eq]
    refine if_neg fun h => ?_
    omega
  · intro build build' twin dest mem xs ys hp hd
    rw [foldl_diffPage, foldl_diffPage]
    refine Merge.lastWriter_perm (hp.map _) ?_
    exact hd.map _ fun x y h => diffTxn_disjoint h

/-- Two threads that changed different bytes of a zeroed page. -/
theorem diffPage_two_orders :
    [Function.update (fun _ => 0) 3 7, Function.update (fun _ => 0) 4000 9].foldl
        (fun mem loc => diffPage .sse loc (fun _ => 0) 8192 mem) (fun _ => 1) =
      [Function.update (fun _ => 0) 4000 9, Function.update (fun _ => 0) 3 7].foldl
        (fun mem loc => diffPage .words loc (fun _ => 0) 8192 mem) (fun _ => 1) := by
  refine diffPage_bytewise.2 .sse .words (fun _ => 0) 8192 (fun _ => 1) _ _
    (List.Perm.swap _ _ _) ?_
  rw [List.pairwise_pair]
  rintro i - ⟨h1, h2⟩
  have hi : i = 3 := by
    by_contra hi
    exact h1 (Function.update_of_ne hi _ _)
  subst hi
  exact h2 (Function.update_of_ne (by decide) _ _)

end Dthreads.Memory
