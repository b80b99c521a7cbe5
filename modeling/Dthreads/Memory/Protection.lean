import Dthreads.Memory.Content

/-! # Opening the protection of a region

`openProtection` with the integers of the 64-bit build: addresses, sizes and offsets have 64
bits, but the allocated size of the heap passes through an `int`. -/

namespace Dthreads.Memory

/-! ## The region -/

/-- How a page of the address space is mapped to the backing file. -/
structure Mapping where
  prot : Prot
  isShared : Bool
  offset : BitVec 64
  deriving DecidableEq, Repr

/-- An `xpersist` object. -/
structure Region where
  base : BitVec 64
  size : BitVec 64
  isHeap : Bool

/-- `TotalPageNums`. -/
def Region.totalPageNums (R : Region) : BitVec 32 := (R.size / 4096).setWidth 32

/-- The mappings of the pages of the address space, and the tables of the region. -/
structure RegionState where
  maps : ℕ → Mapping
  pageOwner : ℤ → Owner
  pageInfo : ℤ → Access
  isProtected : Bool
  ownedblocks : BitVec 64
  trans : BitVec 32

/-- The requests for a fixed mapping of a file of the given size that the kernel refuses: empty
ones, and none that lies in the file. -/
structure Kernel (size : BitVec 64) where
  refuses : BitVec 64 → BitVec 64 → BitVec 64 → Bool
  refuses_empty : ∀ start offset, refuses start 0 offset = true
  maps_file : ∀ start len offset, 0 < len.toNat → start.toNat % 4096 = 0 → offset.toNat % 4096 = 0 →
    start.toNat + len.toNat < 2 ^ 64 → offset.toNat + len.toNat ≤ size.toNat →
    refuses start len offset = false

/-- `mmap` with `MAP_FIXED`; all its callers exit when it fails. -/
def mmap {size : BitVec 64} (K : Kernel size) (start len : BitVec 64) (prot : Prot) (isShared : Bool)
    (offset : BitVec 64) (s : RegionState) : Option RegionState :=
  if K.refuses start len offset then none
  else some { s with
    maps := fun q =>
      if start.toNat / 4096 ≤ q ∧ q < (start.toNat + len.toNat + 4095) / 4096 then
        ⟨prot, isShared, offset + (BitVec.ofNat 64 (4096 * q) - start)⟩
      else s.maps q }

variable (R : Region) (K : Kernel R.size)

def writeProtect (start size : BitVec 64) (s : RegionState) : Option RegionState :=
  mmap K start size .read false (start - R.base) s

/-! ## Opening -/

/-- The type an unscoped enumeration such as `PageSize` is promoted to, which is up to the
compiler. -/
inductive EnumType where
  | int
  | unsigned
  deriving DecidableEq, Repr

/-- Comparison of an `int` with a value of the promoted type. -/
def EnumType.less : EnumType → BitVec 32 → BitVec 32 → Bool
  | .int, a, b => a.slt b
  | .unsigned, a, b => a.ult b

/-- Division of an `int` by an enumerator. -/
def EnumType.div : EnumType → BitVec 32 → BitVec 32 → BitVec 32
  | .int, a, b => a.sdiv b
  | .unsigned, a, b => a / b

def RegionState.setEntry (s : RegionState) (i : ℤ) (o : Owner) (a : Access) : RegionState :=
  { s with
    pageOwner := Function.update s.pageOwner i o
    pageInfo := Function.update s.pageInfo i a }

/-- `for (; i < hi; i++)`, setting the two tables at `i`. -/
def fillTables (e : EnumType) (hi : BitVec 32) (o : Owner) (a : Access) :
    ℕ → BitVec 32 → RegionState → RegionState
  | 0, _, s => s
  | fuel + 1, i, s =>
      if e.less i hi then fillTables e hi o a fuel (i + 1) (s.setEntry i.toInt o a) else s

/-- As many turns as the index has values. -/
def loopFuel : ℕ := 2 ^ 32

/-- For the allocated pages: nothing to map if the size is not positive. -/
def protectAllocated (allocSize : BitVec 32) (s : RegionState) : Option RegionState :=
  if (0#32).slt allocSize then writeProtect R K R.base (allocSize.signExtend 64) s else some s

/-- The branch of a heap. -/
def openHeap (e : EnumType) (top : BitVec 64) (s : RegionState) : Option RegionState := do
  let allocSize := (top - R.base).setWidth 32
  let s ← protectAllocated R K allocSize s
  let s := fillTables e (e.div allocSize 4096) .shared .read loopFuel 0 s
  let s ← mmap K top (R.size - allocSize.signExtend 64) .none false (allocSize.signExtend 64) s
  some (fillTables e R.totalPageNums .none .none loopFuel (e.div allocSize 4096) s)

/-- The branch of the globals. -/
def openGlobals (e : EnumType) (s : RegionState) : Option RegionState := do
  let s ← writeProtect R K R.base R.size s
  some (fillTables e R.totalPageNums .shared .read loopFuel 0 s)

/-- `openProtection(end)`. -/
def openProtection (e : EnumType) (top : BitVec 64) (s : RegionState) : Option RegionState :=
  (if R.isHeap then openHeap R K e top s else openGlobals R K e s).map fun s =>
    { s with isProtected := true, ownedblocks := 0, trans := 0 }

/-! ## The intended result -/

/-- `top` is a page-aligned top of the region. -/
structure Region.Top (top : BitVec 64) : Prop where
  base_aligned : R.base.toNat % 4096 = 0
  size_aligned : R.size.toNat % 4096 = 0
  size_le : R.size.toNat ≤ 2 ^ 32
  fits : R.base.toNat + R.size.toNat < 2 ^ 64
  aligned : top.toNat % 4096 = 0
  base_le : R.base.toNat ≤ top.toNat
  le_end : top.toNat ≤ R.base.toNat + R.size.toNat

/-- As the constructor and `closeProtection` leave it: the pages are mapped shared and writable. -/
def Region.Unprotected (s : RegionState) : Prop :=
  ∀ q, R.base.toNat / 4096 ≤ q → q < (R.base.toNat + R.size.toNat) / 4096 →
    s.maps q = ⟨.readWrite, true, BitVec.ofNat 64 (4096 * q) - R.base⟩

/-- The pages below `top` are shared and read-only, those from `top` on are nobody's and
inaccessible, each at its own offset, and no other page is remapped. -/
structure Region.Classified (top : BitVec 64) (s s' : RegionState) : Prop where
  below : ∀ q, R.base.toNat / 4096 ≤ q → q < top.toNat / 4096 →
    s'.maps q = ⟨.read, false, BitVec.ofNat 64 (4096 * q) - R.base⟩ ∧
      s'.pageOwner (q - R.base.toNat / 4096 : ℕ) = .shared ∧
      s'.pageInfo (q - R.base.toNat / 4096 : ℕ) = .read
  above : ∀ q, top.toNat / 4096 ≤ q → q < (R.base.toNat + R.size.toNat) / 4096 →
    s'.maps q = ⟨.none, false, BitVec.ofNat 64 (4096 * q) - R.base⟩ ∧
      s'.pageOwner (q - R.base.toNat / 4096 : ℕ) = .none ∧
      s'.pageInfo (q - R.base.toNat / 4096 : ℕ) = .none
  outside : ∀ q, q < R.base.toNat / 4096 ∨ (R.base.toNat + R.size.toNat) / 4096 ≤ q →
    s'.maps q = s.maps q

/-! ## The loops -/

variable {e : EnumType} {a b hi i : BitVec 32} {o : Owner} {x : Access} {s s' : RegionState}

theorem toInt_of_lt (ha : a.toNat < 2 ^ 31) : a.toInt = a.toNat := by
  rw [BitVec.toInt_eq_toNat_of_lt]
  omega

/-- Both promotions compare nonnegative values alike. -/
theorem EnumType.less_iff (ha : a.toNat < 2 ^ 31) (hb : b.toNat < 2 ^ 31) :
    e.less a b = true ↔ a.toNat < b.toNat := by
  cases e with
  | int =>
      rw [EnumType.less, BitVec.slt_iff_toInt_lt, toInt_of_lt ha, toInt_of_lt hb]
      exact Int.ofNat_lt
  | unsigned =>
      rw [EnumType.less, BitVec.ult_iff_toNat_lt]

theorem EnumType.div_toNat (ha : a.toNat < 2 ^ 31) : (e.div a 4096).toNat = a.toNat / 4096 := by
  cases e with
  | int =>
      have hmsb : a.msb = false := by
        rw [BitVec.msb_eq_decide]
        simpa using ha
      rw [EnumType.div, BitVec.sdiv_eq, hmsb]
      rfl
  | unsigned => rfl

/-- The loop sets the entries from `i` to `hi` and nothing else. -/
theorem fillTables_eq (hhi : hi.toNat < 2 ^ 31) {fuel : ℕ} (hi' : i.toNat ≤ hi.toNat)
    (hf : hi.toNat - i.toNat < fuel) :
    fillTables e hi o x fuel i s = { s with
      pageOwner := fun k => if (i.toNat : ℤ) ≤ k ∧ k < hi.toNat then o else s.pageOwner k
      pageInfo := fun k => if (i.toNat : ℤ) ≤ k ∧ k < hi.toNat then x else s.pageInfo k } := by
  induction fuel generalizing i s with
  | zero => omega
  | succ fuel ih =>
      rw [fillTables]
      by_cases hlt : i.toNat < hi.toNat
      · have hsucc : (i + 1).toNat = i.toNat + 1 := by
          have hone : (1 : BitVec 32).toNat = 1 := rfl
          rw [BitVec.toNat_add, hone]
          omega
        rw [if_pos ((EnumType.less_iff (by omega) hhi).mpr hlt), ih (by omega) (by omega), hsucc,
          toInt_of_lt (by omega)]
        have hset : ∀ {γ : Type} (f : ℤ → γ) (v : γ),
            (fun k => if ((i.toNat + 1 : ℕ) : ℤ) ≤ k ∧ k < hi.toNat then v
              else Function.update f (i.toNat : ℤ) v k) =
            fun k => if (i.toNat : ℤ) ≤ k ∧ k < hi.toNat then v else f k := by
          intro γ f v
          funext k
          by_cases hk : k = i.toNat
          · subst hk
            simp [hlt]
          · have hiff : ((i.toNat + 1 : ℕ) : ℤ) ≤ k ↔ (i.toNat : ℤ) ≤ k := by omega
            rw [Function.update_of_ne hk]
            simp only [hiff]
        simp only [RegionState.setEntry, hset]
      · rw [if_neg fun hl => hlt ((EnumType.less_iff (by omega) hhi).mp hl)]
        have hno : ∀ k : ℤ, ¬ ((i.toNat : ℤ) ≤ k ∧ k < hi.toNat) := by omega
        simp only [hno, if_false]

theorem fillTables_maps (fuel : ℕ) : (fillTables e hi o x fuel i s).maps = s.maps := by
  induction fuel generalizing i s with
  | zero => rfl
  | succ fuel ih =>
      rw [fillTables]
      split
      · exact ih
      · rfl

/-! ## The allocated size -/

variable {R K} {top : BitVec 64}

namespace Region.Top

variable (h : R.Top top)

include h

theorem sub_toNat : (top - R.base).toNat = top.toNat - R.base.toNat :=
  BitVec.toNat_sub_of_le (BitVec.le_def.mpr h.base_le)

theorem alloc_toNat :
    ((top - R.base).setWidth 32).toNat = (top.toNat - R.base.toNat) % 2 ^ 32 := by
  rw [BitVec.toNat_setWidth, h.sub_toNat]

/-- Below `2 ^ 31` the conversions to `int` and back lose nothing. -/
theorem alloc_signExtend (hn : top.toNat - R.base.toNat < 2 ^ 31) :
    ((top - R.base).setWidth 32).signExtend 64 = top - R.base := by
  apply BitVec.eq_of_toNat_eq
  have hmsb : ((top - R.base).setWidth 32).msb = false := by
    rw [BitVec.msb_eq_decide, h.alloc_toNat]
    simp only [decide_eq_false_iff_not, not_le]
    omega
  rw [BitVec.toNat_signExtend, BitVec.toNat_setWidth, h.alloc_toNat, hmsb, h.sub_toNat]
  simp only [Bool.false_eq_true, if_false]
  omega

theorem pos_iff (hn : top.toNat - R.base.toNat < 2 ^ 31) :
    (0#32).slt ((top - R.base).setWidth 32) = true ↔ R.base.toNat < top.toNat := by
  have hlt : ((top - R.base).setWidth 32).toNat < 2 ^ 31 := by
    rw [h.alloc_toNat]
    omega
  rw [BitVec.slt_iff_toInt_lt, toInt_of_lt hlt, toInt_of_lt (by decide), Int.ofNat_lt, h.alloc_toNat]
  have hzero : (0#32).toNat = 0 := rfl
  rw [hzero]
  omega

/-- From `2 ^ 31` on the allocated size is not positive any more. -/
theorem not_pos (hn : 2 ^ 31 ≤ top.toNat - R.base.toNat) :
    ¬ (0#32).slt ((top - R.base).setWidth 32) = true := by
  have hle : top.toNat - R.base.toNat ≤ 2 ^ 32 := by
    have := h.le_end
    have := h.size_le
    omega
  rw [BitVec.slt_iff_toInt_lt, BitVec.toInt_eq_toNat_cond, BitVec.toInt_eq_toNat_cond, h.alloc_toNat]
  have hzero : (0#32).toNat = 0 := rfl
  rw [hzero]
  split <;> split <;> omega

theorem totalPageNums_toNat : R.totalPageNums.toNat = R.size.toNat / 4096 := by
  have hdiv : (R.size / 4096).toNat = R.size.toNat / 4096 := rfl
  rw [Region.totalPageNums, BitVec.toNat_setWidth, hdiv]
  have := h.size_le
  omega

end Region.Top

/-! ## When the pages are classified -/

/-- A mapping of a part of the file at its own place succeeds. -/
theorem mmap_own {start len : BitVec 64} {prot : Prot} (hpos : 0 < len.toNat)
    (hstart : start.toNat % 4096 = 0) (hoff : (start - R.base).toNat % 4096 = 0)
    (hfit : start.toNat + len.toNat < 2 ^ 64)
    (hfile : (start - R.base).toNat + len.toNat ≤ R.size.toNat) :
    mmap K start len prot false (start - R.base) s = some { s with
      maps := fun q =>
        if start.toNat / 4096 ≤ q ∧ q < (start.toNat + len.toNat + 4095) / 4096 then
          ⟨prot, false, BitVec.ofNat 64 (4096 * q) - R.base⟩
        else s.maps q } := by
  have hown : ∀ x, start - R.base + (x - start) = x - R.base := by
    intro x
    grind
  rw [mmap, if_neg (by rw [K.maps_file _ _ _ hpos hstart hoff hfit hfile]; exact Bool.false_ne_true)]
  simp only [hown]

/-- The part below `top` is mapped read-only, unless it is empty. -/
theorem protectAllocated_eq (ht : R.Top top) (hn : top.toNat - R.base.toNat < 2 ^ 31) :
    protectAllocated R K ((top - R.base).setWidth 32) s = some { s with
      maps := fun q =>
        if R.base.toNat / 4096 ≤ q ∧ q < top.toNat / 4096 then
          ⟨.read, false, BitVec.ofNat 64 (4096 * q) - R.base⟩
        else s.maps q } := by
  have hb := ht.base_aligned
  have ha := ht.aligned
  have hle := ht.base_le
  have hfit := ht.fits
  have hend := ht.le_end
  have hzero : (R.base - R.base).toNat = 0 := by
    rw [BitVec.sub_self]
    rfl
  unfold protectAllocated
  by_cases hpos : R.base.toNat < top.toNat
  · have htop : (R.base.toNat + (top - R.base).toNat + 4095) / 4096 = top.toNat / 4096 := by
      rw [ht.sub_toNat]
      omega
    rw [if_pos ((ht.pos_iff hn).mpr hpos), ht.alloc_signExtend hn, writeProtect, mmap_own, htop]
    · rw [ht.sub_toNat]
      omega
    · exact hb
    · rw [hzero]
    · rw [ht.sub_toNat]
      omega
    · rw [ht.sub_toNat, hzero]
      omega
  · rw [if_neg fun hs => hpos ((ht.pos_iff hn).mp hs)]
    have hno : ∀ q, ¬ (R.base.toNat / 4096 ≤ q ∧ q < top.toNat / 4096) := by omega
    simp only [hno, if_false]

/-- The part from `top` on is made inaccessible. -/
theorem mmap_rest (ht : R.Top top) (hn : top.toNat - R.base.toNat < 2 ^ 31)
    (hlt : top.toNat < R.base.toNat + R.size.toNat) :
    mmap K top (R.size - ((top - R.base).setWidth 32).signExtend 64) .none false
      (((top - R.base).setWidth 32).signExtend 64) s = some { s with
        maps := fun q =>
          if top.toNat / 4096 ≤ q ∧ q < (R.base.toNat + R.size.toNat) / 4096 then
            ⟨.none, false, BitVec.ofNat 64 (4096 * q) - R.base⟩
          else s.maps q } := by
  have hb := ht.base_aligned
  have ha := ht.aligned
  have hsz := ht.size_aligned
  have hle := ht.base_le
  have hfit := ht.fits
  have hlen : (R.size - (top - R.base)).toNat = R.size.toNat - (top.toNat - R.base.toNat) := by
    rw [BitVec.toNat_sub_of_le (BitVec.le_def.mpr (by rw [ht.sub_toNat]; omega)), ht.sub_toNat]
  have hend : (top.toNat + (R.size - (top - R.base)).toNat + 4095) / 4096 =
      (R.base.toNat + R.size.toNat) / 4096 := by
    rw [hlen]
    omega
  rw [ht.alloc_signExtend hn, mmap_own, hend]
  · rw [hlen]
    omega
  · exact ha
  · rw [ht.sub_toNat]
    omega
  · rw [hlen]
    omega
  · rw [hlen, ht.sub_toNat]
    omega

/-- What `openProtection` does to a heap whose allocated size fits an `int`. -/
theorem openProtection_eq (hheap : R.isHeap = true) (ht : R.Top top)
    (hn : top.toNat - R.base.toNat < 2 ^ 31) (hlt : top.toNat < R.base.toNat + R.size.toNat) :
    openProtection R K e top s = some {
      maps := fun q =>
        if top.toNat / 4096 ≤ q ∧ q < (R.base.toNat + R.size.toNat) / 4096 then
          ⟨.none, false, BitVec.ofNat 64 (4096 * q) - R.base⟩
        else if R.base.toNat / 4096 ≤ q ∧ q < top.toNat / 4096 then
          ⟨.read, false, BitVec.ofNat 64 (4096 * q) - R.base⟩
        else s.maps q
      pageOwner := fun k =>
        if (((top.toNat - R.base.toNat) / 4096 : ℕ) : ℤ) ≤ k ∧ k < (R.size.toNat / 4096 : ℕ) then .none
        else if ((0 : ℕ) : ℤ) ≤ k ∧ k < ((top.toNat - R.base.toNat) / 4096 : ℕ) then .shared
        else s.pageOwner k
      pageInfo := fun k =>
        if (((top.toNat - R.base.toNat) / 4096 : ℕ) : ℤ) ≤ k ∧ k < (R.size.toNat / 4096 : ℕ) then .none
        else if ((0 : ℕ) : ℤ) ≤ k ∧ k < ((top.toNat - R.base.toNat) / 4096 : ℕ) then .read
        else s.pageInfo k
      isProtected := true
      ownedblocks := 0
      trans := 0 } := by
  have hsz := ht.size_le
  have hend := ht.le_end
  have halloc : ((top - R.base).setWidth 32).toNat = top.toNat - R.base.toNat := by
    rw [ht.alloc_toNat]
    omega
  have hdiv : (e.div ((top - R.base).setWidth 32) 4096).toNat =
      (top.toNat - R.base.toNat) / 4096 := by
    rw [EnumType.div_toNat (by omega), halloc]
  have htotal := ht.totalPageNums_toNat
  have hzero : (0 : BitVec 32).toNat = 0 := rfl
  rw [openProtection, if_pos hheap, openHeap, protectAllocated_eq ht hn]
  simp only [Option.bind_eq_bind, Option.bind_some]
  rw [mmap_rest ht hn hlt]
  simp only [Option.bind_some, Option.map_some]
  rw [fillTables_eq (by omega) (by omega) (by unfold loopFuel; omega),
    fillTables_eq (by omega) (by omega) (by unfold loopFuel; omega), hdiv, htotal, hzero]

theorem openProtection_small (hheap : R.isHeap = true) (ht : R.Top top)
    (hn : top.toNat - R.base.toNat < 2 ^ 31) (hlt : top.toNat < R.base.toNat + R.size.toNat) :
    ∃ s', openProtection R K e top s = some s' ∧ R.Classified top s s' := by
  have hb := ht.base_aligned
  have ha := ht.aligned
  have hsz := ht.size_aligned
  have hle := ht.base_le
  have hend := ht.le_end
  refine ⟨_, openProtection_eq hheap ht hn hlt, ?_⟩
  constructor
  · intro q h1 h2
    have hrest : ¬ (top.toNat / 4096 ≤ q ∧ q < (R.base.toNat + R.size.toNat) / 4096) := by omega
    have hindex : ¬ ((((top.toNat - R.base.toNat) / 4096 : ℕ) : ℤ) ≤
        ((q - R.base.toNat / 4096 : ℕ) : ℤ) ∧
        ((q - R.base.toNat / 4096 : ℕ) : ℤ) < (R.size.toNat / 4096 : ℕ)) := by omega
    have hindex' : ((0 : ℕ) : ℤ) ≤ ((q - R.base.toNat / 4096 : ℕ) : ℤ) ∧
        ((q - R.base.toNat / 4096 : ℕ) : ℤ) < ((top.toNat - R.base.toNat) / 4096 : ℕ) := by omega
    simp only [if_neg hrest, if_pos (And.intro h1 h2), if_neg hindex, if_pos hindex', and_self]
  · intro q h1 h2
    have hindex : (((top.toNat - R.base.toNat) / 4096 : ℕ) : ℤ) ≤
        ((q - R.base.toNat / 4096 : ℕ) : ℤ) ∧
        ((q - R.base.toNat / 4096 : ℕ) : ℤ) < (R.size.toNat / 4096 : ℕ) := by omega
    simp only [if_pos (And.intro h1 h2), if_pos hindex, and_self]
  · intro q hq
    have hrest : ¬ (top.toNat / 4096 ≤ q ∧ q < (R.base.toNat + R.size.toNat) / 4096) := by omega
    have hlow : ¬ (R.base.toNat / 4096 ≤ q ∧ q < top.toNat / 4096) := by omega
    simp only [if_neg hrest, if_neg hlow]

/-- A top of `2 ^ 31` bytes or more leaves the first page as it was. -/
theorem openProtection_large (hheap : R.isHeap = true) (ht : R.Top top)
    (hn : 2 ^ 31 ≤ top.toNat - R.base.toNat) (h : openProtection R K e top s = some s') :
    s'.maps (R.base.toNat / 4096) = s.maps (R.base.toNat / 4096) := by
  rw [openProtection, if_pos hheap, Option.map_eq_some_iff] at h
  obtain ⟨s₁, h, rfl⟩ := h
  rw [openHeap, protectAllocated, if_neg (ht.not_pos hn)] at h
  simp only [Option.bind_eq_bind, Option.bind_some, Option.bind_eq_some_iff, Option.some.injEq] at h
  obtain ⟨s₂, hm, rfl⟩ := h
  unfold mmap at hm
  split at hm
  · cases hm
  · obtain rfl := Option.some.inj hm
    have hbase := ht.base_aligned
    have htop := ht.aligned
    rw [fillTables_maps, fillTables_maps]
    exact if_neg (by omega)

/-- With the whole region allocated there is nothing left to map. -/
theorem openProtection_full (hheap : R.isHeap = true) (ht : R.Top top)
    (hn : top.toNat - R.base.toNat < 2 ^ 31) (htop : top.toNat = R.base.toNat + R.size.toNat) :
    openProtection R K e top s = none := by
  have hrest : R.size - ((top - R.base).setWidth 32).signExtend 64 = 0 := by
    rw [ht.alloc_signExtend hn]
    apply BitVec.eq_of_toNat_eq
    rw [BitVec.toNat_sub_of_le (BitVec.le_def.mpr (by rw [ht.sub_toNat]; omega)), ht.sub_toNat]
    have hzero : (0 : BitVec 64).toNat = 0 := rfl
    rw [hzero]
    omega
  simp only [openProtection, hheap, if_true, openHeap, hrest, mmap, K.refuses_empty]
  simp

theorem small_of_classified (hheap : R.isHeap = true) (ht : R.Top top) (hu : R.Unprotected s)
    (h : openProtection R K e top s = some s') (hc : R.Classified top s s') :
    top.toNat - R.base.toNat < 2 ^ 31 ∧ top.toNat < R.base.toNat + R.size.toNat := by
  have hend := ht.le_end
  have hn : top.toNat - R.base.toNat < 2 ^ 31 := by
    by_contra hn
    have hbase := ht.base_aligned
    have htop := ht.aligned
    have hkept := openProtection_large hheap ht (by omega) h
    rw [(hc.below _ le_rfl (by omega)).1, hu _ le_rfl (by omega)] at hkept
    cases congrArg Mapping.isShared hkept
  refine ⟨hn, ?_⟩
  by_contra hlt
  rw [openProtection_full hheap ht hn (by omega)] at h
  cases h

/-- `openProtection` classifies the pages of a heap if and only if its allocated size fits an
`int` and is not the whole region. -/
theorem openProtection_classified_iff (hheap : R.isHeap = true) (ht : R.Top top)
    (hu : R.Unprotected s) :
    (∃ s', openProtection R K e top s = some s' ∧ R.Classified top s s') ↔
      top.toNat - R.base.toNat < 2 ^ 31 ∧ top.toNat < R.base.toNat + R.size.toNat :=
  ⟨fun ⟨_, h, hc⟩ => small_of_classified hheap ht hu h hc,
    fun ⟨hn, hlt⟩ => openProtection_small hheap ht hn hlt⟩

/-! ## A large heap -/

/-- A kernel that grants exactly what it has to. -/
def strictKernel (size : BitVec 64) : Kernel size where
  refuses start len offset := ¬ (0 < len.toNat ∧ start.toNat % 4096 = 0 ∧ offset.toNat % 4096 = 0 ∧
    start.toNat + len.toNat < 2 ^ 64 ∧ offset.toNat + len.toNat ≤ size.toNat)
  refuses_empty _ _ := by simp
  maps_file _ _ _ h1 h2 h3 h4 h5 := decide_eq_false (not_not_intro ⟨h1, h2, h3, h4, h5⟩)

/-- The heap of the 64-bit build. -/
def largeHeap : Region := { base := 0x100000000, size := 0x100000000, isHeap := true }

theorem largeHeap_top {top : BitVec 64} (ha : top.toNat % 4096 = 0) (hb : 2 ^ 32 ≤ top.toNat)
    (he : top.toNat ≤ 2 ^ 33) : largeHeap.Top top where
  base_aligned := by decide
  size_aligned := by decide
  size_le := by decide
  fits := by decide
  aligned := ha
  base_le := hb
  le_end := he

/-- As the constructor maps it. -/
def mappedHeap : RegionState where
  maps q := ⟨.readWrite, true, BitVec.ofNat 64 (4096 * q) - largeHeap.base⟩
  pageOwner _ := .none
  pageInfo _ := .none
  isProtected := false
  ownedblocks := 0
  trans := 0

theorem openProtection_first_chunk :
    ∃ s', openProtection largeHeap (strictKernel _) .int 0x100A00000 mappedHeap = some s' ∧
      largeHeap.Classified 0x100A00000 mappedHeap s' :=
  (openProtection_classified_iff rfl (largeHeap_top (by decide) (by decide) (by decide))
    (fun _ _ _ => rfl)).mpr (by decide)

/-- The pages of the heap are classified for this top. -/
def LargeHeapClassified (e : EnumType) (top : BitVec 64) : Prop :=
  ∃ s', openProtection largeHeap (strictKernel _) e top mappedHeap = some s' ∧
    largeHeap.Classified top mappedHeap s'

theorem LargeHeapClassified.small {top : BitVec 64} (ha : top.toNat % 4096 = 0)
    (hb : 2 ^ 32 ≤ top.toNat) (he : top.toNat ≤ 2 ^ 33) (h : LargeHeapClassified e top) :
    top.toNat < 2 ^ 32 + 2 ^ 31 := by
  obtain ⟨s', h, hc⟩ := h
  have hn := (small_of_classified rfl (largeHeap_top ha hb he) (fun _ _ _ => rfl) h hc).1
  have hbase : largeHeap.base.toNat = 2 ^ 32 := rfl
  omega

/-- With 2 GB allocated, and with the whole region allocated, they are not. -/
theorem openProtection_misclassifies :
    (¬ LargeHeapClassified .int 0x180000000 ∧ ¬ LargeHeapClassified .unsigned 0x180000000) ∧
      ¬ LargeHeapClassified .int 0x200000000 ∧ ¬ LargeHeapClassified .unsigned 0x200000000 := by
  refine ⟨⟨fun h => ?_, fun h => ?_⟩, fun h => ?_, fun h => ?_⟩
  all_goals exact absurd (h.small (by decide) (by decide) (by decide)) (by decide)

/-! ## The page machine -/

/-- In the numbering of the page machine, where the heap starts at page `first`. -/
theorem Region.Classified.mem {m : Mem} {t : Tid} {first k : ℕ} (ht : R.Top top)
    (h : R.Classified top s s') (hpos : m.position = first + (top.toNat - R.base.toNat) / 4096)
    (hk : k < R.size.toNat / 4096) :
    (s'.maps (R.base.toNat / 4096 + k)).prot = ((m.openProtection t).spaces t).prot (first + k) ∧
      s'.pageOwner k = ((m.openProtection t).pages (first + k)).owner ∧
      s'.pageInfo k = ((m.openProtection t).spaces t).access (first + k) := by
  have hb := ht.base_aligned
  have ha := ht.aligned
  have hsz := ht.size_aligned
  have hle := ht.base_le
  have hindex : R.base.toNat / 4096 + k - R.base.toNat / 4096 = k := by omega
  by_cases hlow : first + k < m.position
  · have hq := h.below (R.base.toNat / 4096 + k) (by omega) (by omega)
    rw [hindex] at hq
    simp [Mem.openProtection, hlow, hq]
  · have hq := h.above (R.base.toNat / 4096 + k) (by omega) (by omega)
    rw [hindex] at hq
    simp [Mem.openProtection, hlow, hq]

end Dthreads.Memory
