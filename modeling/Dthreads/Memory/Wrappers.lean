import Mathlib
import Dthreads.Memory.Dirty

/-! # The wrapper of `read`

Before the real call the wrapper stores a zero to every page of the buffer, so that each is
faulted in while the process can still handle it. Addresses and sizes are 64 bits wide. -/

namespace Dthreads.Memory

/-! ## The memory of a process -/

/-- The bytes a process sees, and the addresses it can store to, at once or once `handleWrite`
has made their page writable. -/
structure UserMemory where
  bytes : BitVec 64 → Byte
  writable : BitVec 64 → Bool

/-- A store; elsewhere the fault handler aborts. -/
def UserMemory.store (m : UserMemory) (a : BitVec 64) (v : Byte) : Option UserMemory :=
  if m.writable a then some { m with bytes := Function.update m.bytes a v } else none

/-- What the real `read` answers, -1 for an error, and the bytes it delivers. -/
structure ReadResult (count : BitVec 64) where
  result : ℤ
  le_count : result ≤ count.toNat
  data : Fin result.toNat → Byte

/-- The real `read` stores the bytes it delivers to the start of the buffer. -/
def ReadResult.deliver {count : BitVec 64} (r : ReadResult count) (buf : BitVec 64) (m : UserMemory) :
    UserMemory :=
  { m with bytes := fun a =>
      if h : (a - buf).toNat < r.result.toNat then r.data ⟨(a - buf).toNat, h⟩ else m.bytes a }

/-! ## The wrapper -/

/-- The loop over the pages of the buffer, from index `i`. -/
def touchPages (start count : BitVec 64) : ℕ → BitVec 64 → UserMemory → Option UserMemory
  | 0, _, _ => none
  | fuel + 1, i, m =>
      if i < count then do
        let m ← m.store (start + i) 0
        touchPages start count fuel (i + 4096) m
      else some m

/-- `read`. -/
def read (fuel : ℕ) (buf count : BitVec 64) (r : ReadResult count) (m : UserMemory) :
    Option (ℤ × UserMemory) := do
  let m ← touchPages buf count fuel 0 m
  let m ← m.store (buf + (count - 1)) 0
  some (r.result, r.deliver buf m)

/-- The wrapper returns what the real call returns, and the only bytes it changes are the ones
delivered. -/
def Transparent (buf count : BitVec 64) (r : ReadResult count) (m : UserMemory) : Prop :=
  ∃ fuel m', read fuel buf count r m = some (r.result, m') ∧
    ∀ a, m'.bytes a = (r.deliver buf m).bytes a

/-! ## What the wrapper touches -/

/-- The offsets from `i` on that the loop stores to. -/
def Strided (count : BitVec 64) (i o : ℕ) : Prop := o % 4096 = 0 ∧ i ≤ o ∧ o < count.toNat

/-- The offsets in the buffer that are stored to. Without a byte to read, the last one is the
address before the buffer. -/
def Touched (count : BitVec 64) (o : ℕ) : Prop := Strided count 0 o ∨ o = (count - 1).toNat

instance (count : BitVec 64) (i o : ℕ) : Decidable (Strided count i o) :=
  inferInstanceAs (Decidable (_ ∧ _))

instance (count : BitVec 64) (o : ℕ) : Decidable (Touched count o) :=
  inferInstanceAs (Decidable (_ ∨ _))

/-- The loop index does not wrap. -/
def Terminates (count : BitVec 64) : Prop := count.toNat ≤ 2 ^ 64 - 4096

variable {buf count i a : BitVec 64} {m m' : UserMemory} {fuel : ℕ} {v : Byte}

theorem eq_add_iff : a = buf + i ↔ (a - buf).toNat = i.toNat := by
  rw [BitVec.toNat_inj]
  constructor
  · rintro rfl
    rw [BitVec.add_comm, BitVec.add_sub_cancel]
  · rintro rfl
    rw [BitVec.add_comm, BitVec.sub_add_cancel]

theorem UserMemory.store_eq (h : m.store a v = some m') :
    m.writable a = true ∧ m' = { m with bytes := Function.update m.bytes a v } := by
  unfold UserMemory.store at h
  split at h
  · rename_i hw
    exact ⟨hw, (Option.some.inj h).symm⟩
  · cases h

theorem strided_succ (hi : i.toNat % 4096 = 0) (hlt : i.toNat < count.toNat)
    (hwrap : (i + 4096).toNat = i.toNat + 4096) (o : ℕ) :
    Strided count i.toNat o ↔ o = i.toNat ∨ Strided count (i + 4096).toNat o := by
  rw [hwrap]
  unfold Strided
  omega

/-- A loop that ends did not wrap, found its addresses writable and cleared them. -/
theorem touchPages_some (hi : i.toNat % 4096 = 0) (h : touchPages buf count fuel i m = some m') :
    Terminates count ∧ m'.writable = m.writable ∧
      (∀ a, Strided count i.toNat (a - buf).toNat → m.writable a = true) ∧
      ∀ a, m'.bytes a = if Strided count i.toNat (a - buf).toNat then 0 else m.bytes a := by
  induction fuel generalizing i m with
  | zero => cases h
  | succ fuel ih =>
      rw [touchPages] at h
      have hn : (i + 4096).toNat = (i.toNat + 4096) % 2 ^ 64 := BitVec.toNat_add _ _
      have hlt := i.isLt
      split at h
      · rename_i hc
        rw [BitVec.lt_def] at hc
        rw [Option.bind_eq_bind, Option.bind_eq_some_iff] at h
        obtain ⟨m₁, hs, h⟩ := h
        obtain ⟨hw, rfl⟩ := UserMemory.store_eq hs
        obtain ⟨hterm, hm, hrest, hbytes⟩ := ih (by omega) h
        have hwrap : (i + 4096).toNat = i.toNat + 4096 := by
          unfold Terminates at hterm
          omega
        have hsplit := fun a => strided_succ hi hc hwrap (a - buf).toNat
        refine ⟨hterm, hm, fun a ha => ?_, fun a => ?_⟩
        · rcases (hsplit a).mp ha with ho | ho
          · obtain rfl := eq_add_iff.mpr ho
            exact hw
          · exact hrest a ho
        · rw [hbytes a]
          by_cases ha : a = buf + i
          · rw [if_pos ((hsplit a).mpr (.inl (eq_add_iff.mp ha)))]
            split
            · rfl
            · rw [ha]
              exact Function.update_self _ _ _
          · have ho : ¬ (a - buf).toNat = i.toNat := fun ho => ha (eq_add_iff.mpr ho)
            simp only [Function.update_of_ne ha, hsplit a, ho, false_or]
      · rename_i hc
        rw [BitVec.lt_def] at hc
        obtain rfl := Option.some.inj h
        have hno : ∀ o, ¬ Strided count i.toNat o := by
          unfold Strided
          omega
        refine ⟨?_, rfl, fun a ha => absurd ha (hno _), fun a => (if_neg (hno _)).symm⟩
        unfold Terminates
        omega

/-- A loop whose addresses are writable and whose index does not wrap ends. -/
theorem exists_touchPages (hterm : Terminates count) (hi : i.toNat % 4096 = 0)
    (hw : ∀ a, Strided count i.toNat (a - buf).toNat → m.writable a = true) :
    ∃ fuel m', touchPages buf count fuel i m = some m' := by
  induction hd : count.toNat - i.toNat using Nat.strong_induction_on generalizing i m with
  | _ d ih =>
      have hn : (i + 4096).toNat = (i.toNat + 4096) % 2 ^ 64 := BitVec.toNat_add _ _
      by_cases hc : i < count
      · have hc' := hc
        rw [BitVec.lt_def] at hc'
        have hwrap : (i + 4096).toNat = i.toNat + 4096 := by
          unfold Terminates at hterm
          omega
        have hsplit := fun a => strided_succ hi hc' hwrap (a - buf).toNat
        have hwi : m.writable (buf + i) = true := hw _ ((hsplit _).mpr (.inl (eq_add_iff.mp rfl)))
        obtain ⟨fuel, m', h⟩ := @ih _ (by omega) (i + 4096)
          { m with bytes := Function.update m.bytes (buf + i) 0 } (by omega)
          (fun a ha => hw a ((hsplit a).mpr (.inr ha))) rfl
        refine ⟨fuel + 1, m', ?_⟩
        rw [touchPages, if_pos hc, UserMemory.store, if_pos hwi]
        exact h
      · exact ⟨1, m, by rw [touchPages, if_neg hc]⟩

/-! ## When the wrapper is transparent -/

/-- The stores to the buffer are possible, and every byte they clear is delivered afterwards or
was zero. -/
def Harmless (buf count : BitVec 64) (r : ReadResult count) (m : UserMemory) : Prop :=
  Terminates count ∧ ∀ a, Touched count (a - buf).toNat →
    m.writable a = true ∧ (r.result.toNat ≤ (a - buf).toNat → m.bytes a = 0)

variable {r : ReadResult count}

/-- What the wrapper leaves when it returns. -/
theorem read_some {x : ℤ} (h : read fuel buf count r m = some (x, m')) :
    Terminates count ∧ x = r.result ∧
      (∀ a, Touched count (a - buf).toNat → m.writable a = true) ∧
      ∀ a, m'.bytes a =
        if h : (a - buf).toNat < r.result.toNat then r.data ⟨(a - buf).toNat, h⟩
        else if Touched count (a - buf).toNat then 0 else m.bytes a := by
  unfold read at h
  simp only [Option.bind_eq_bind, Option.bind_eq_some_iff, Option.some.injEq, Prod.mk.injEq] at h
  obtain ⟨m₁, h₁, m₂, h₂, rfl, rfl⟩ := h
  obtain ⟨hterm, hm, hw, hb⟩ := touchPages_some (by decide) h₁
  obtain ⟨hlast, rfl⟩ := UserMemory.store_eq h₂
  refine ⟨hterm, rfl, fun a ha => ?_, fun a => ?_⟩
  · rcases ha with ha | ha
    · exact hw a ha
    · obtain rfl := eq_add_iff.mpr ha
      rwa [hm] at hlast
  · unfold ReadResult.deliver
    dsimp only
    split
    · rfl
    · by_cases ha : a = buf + (count - 1)
      · rw [if_pos (.inr (eq_add_iff.mp ha)), ha, Function.update_self]
      · have ho : ¬ (a - buf).toNat = (count - 1).toNat := fun ho => ha (eq_add_iff.mpr ho)
        rw [Function.update_of_ne ha, hb a]
        simp only [Touched, ho, or_false]
        rfl

theorem exists_read (hterm : Terminates count)
    (hw : ∀ a, Touched count (a - buf).toNat → m.writable a = true) :
    ∃ fuel m', read fuel buf count r m = some (r.result, m') := by
  obtain ⟨fuel, m₁, h₁⟩ := exists_touchPages (i := 0) hterm (by decide)
    (fun a ha => hw a (.inl ha))
  obtain ⟨-, hm, -, -⟩ := touchPages_some (by decide) h₁
  have hlast : m₁.writable (buf + (count - 1)) = true := by
    rw [hm]
    exact hw _ (.inr (eq_add_iff.mp rfl))
  refine ⟨fuel, r.deliver buf { m₁ with bytes := Function.update m₁.bytes (buf + (count - 1)) 0 }, ?_⟩
  have hs : m₁.store (buf + (count - 1)) 0 =
      some { m₁ with bytes := Function.update m₁.bytes (buf + (count - 1)) 0 } := by
    rw [UserMemory.store, if_pos hlast]
  rw [read, h₁]
  change (m₁.store (buf + (count - 1)) 0).bind _ = _
  rw [hs]
  rfl

theorem Transparent.harmless (h : Transparent buf count r m) : Harmless buf count r m := by
  obtain ⟨fuel, m', hr, hb⟩ := h
  obtain ⟨hterm, -, hw, hb'⟩ := read_some hr
  refine ⟨hterm, fun a ha => ⟨hw a ha, fun hlen => ?_⟩⟩
  have he := (hb' a).symm.trans (hb a)
  unfold ReadResult.deliver at he
  dsimp only at he
  rw [dif_neg (by omega), if_pos ha, dif_neg (by omega)] at he
  exact he.symm

/-- The wrapper is transparent if and only if its stores are possible and clear no byte that the
real call leaves alone. -/
theorem transparent_iff (buf count : BitVec 64) (r : ReadResult count) (m : UserMemory) :
    Transparent buf count r m ↔ Harmless buf count r m := by
  refine ⟨Transparent.harmless, ?_⟩
  rintro ⟨hterm, hm⟩
  obtain ⟨fuel, m', hr⟩ := exists_read (r := r) hterm fun a ha => (hm a ha).1
  refine ⟨fuel, m', hr, fun a => ?_⟩
  obtain ⟨-, -, -, hb⟩ := read_some hr
  rw [hb a]
  unfold ReadResult.deliver
  dsimp only
  split
  · rfl
  · rename_i hlen
    split
    · rename_i ha
      exact ((hm a ha).2 (by omega)).symm
    · rfl

/-- A full read of a writable buffer is transparent. -/
theorem harmless_of_full (hpos : 0 < count.toNat) (hterm : Terminates count)
    (hfull : r.result = count.toNat) (hw : ∀ a, m.writable a = true) : Harmless buf count r m := by
  refine ⟨hterm, fun a ha => ⟨hw a, fun hlen => ?_⟩⟩
  have hlast : (count - 1).toNat = count.toNat - 1 := BitVec.toNat_sub_of_le (by
    rw [BitVec.le_def]
    exact hpos)
  rw [hfull, Int.toNat_natCast] at hlen
  unfold Touched Strided at ha
  omega

/-- An empty read clears the byte before the buffer, and a read that fails clears the first and
the last byte of the buffer. -/
theorem read_clobbers :
    ¬ Transparent 8192 0 ⟨0, le_refl _, Fin.elim0⟩ ⟨fun _ => 1, fun _ => true⟩ ∧
      ¬ Transparent 8192 100 ⟨-1, by decide, Fin.elim0⟩ ⟨fun _ => 1, fun _ => true⟩ := by
  constructor
  · intro h
    have hb := (h.harmless.2 8191 (.inr (by decide))).2 (by decide)
    exact absurd hb (by decide)
  · intro h
    have hb := (h.harmless.2 8291 (.inr (by decide))).2 (by decide)
    exact absurd hb (by decide)

/-! ## Stores through the fault handler -/

namespace Mem

variable {m m' : Mem} {t : Tid} {p q : ℕ} {a b : Addr}

theorem exists_handleWrite (hcur : (m.spaces t).cur < pageEntryNum) :
    ∃ m', m.handleWrite t p = some m' := by
  have hw : ((m.mprotectWrite t p).spaces t).cur < pageEntryNum := by
    rwa [mprotectWrite_dirty.2.2.1]
  have hc : (((m.mprotectWrite t p).commitOwnedPage t p false).spaces t).cur < pageEntryNum := by
    rwa [(commitOwnedPage_sameDirty _ t t p false).cur]
  unfold handleWrite addDirty
  split <;> simp [hw, hc]

theorem storeByte_view (hp : (m.spaces t).isProtected = true) (v : Byte) :
    (m.storeByte t a v).viewByte t b = if b = a then v else m.viewByte t b := by
  unfold viewByte view storeByte
  rw [storeWord_priv, storeWord_content]
  obtain ⟨p, i, j⟩ := a
  obtain ⟨q, k, l⟩ := b
  by_cases hq : q = p
  · subst hq
    by_cases hk : k = i
    · subst hk
      by_cases hl : l = j <;> simp [hp, view, hl]
    · simp [hp, view, hk]
  · simp [hp, hq]

/-- Whether or not the page has to be faulted in first, a store to it changes one byte of what
the process sees. -/
theorem exists_store_viewByte (hp : (m.spaces t).isProtected = true)
    (ha : (m.spaces t).access a.page ≠ .none) (hcur : (m.spaces t).cur < pageEntryNum) (v : Byte) :
    ∃ m', Transition.exec Mem.step m
      ((if m.writable t a.page then [] else [.fault t a.page]) ++ [.store t [a] (fun _ _ => v)]) =
        some m' ∧ ∀ b, m'.viewByte t b = if b = a then v else m.viewByte t b := by
  by_cases hw : m.writable t a.page
  · refine ⟨m.storeByte t a v, ?_, fun b => storeByte_view hp v⟩
    simp [hw, Transition.exec_cons, step, storeBytes]
  · obtain ⟨m₁, h₁⟩ := exists_handleWrite (p := a.page) hcur
    obtain ⟨e, he, -⟩ := handleWrite_space h₁
    refine ⟨m₁.storeByte t a v, ?_, fun b => ?_⟩
    · have hw₁ : m₁.writable t a.page := by
        rw [writable, he.prot, Function.update_self]
      simp [hw, Transition.exec_cons, step, ha, h₁, hw₁, storeBytes]
    · rw [storeByte_view (he.isProtected.trans hp), viewByte, handleWrite_view h₁]
      rfl

end Mem

end Dthreads.Memory
