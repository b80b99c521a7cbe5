import Dthreads.Memory.Dirty

/-! # Twins between two cleanups

`createTwinPage` takes an index, copies a page to the address of the index and stores a version in the
slot of the index. The slots and the pages share one mapping. -/

namespace Dthreads.Memory

open Transition

/-- A call of `createTwinPage`: the page, the `bitmapIndex` stored for it, and what was copied. -/
structure Twin where
  page : ℕ
  index : ℕ
  content : Page

/-- The memory, and the calls since the last cleanup. -/
structure Twins where
  mem : Mem
  made : List Twin

namespace Twins

inductive Event where
  | create (p : ℕ)
  /-- What the processes do to the pages in between. -/
  | change (pages : ℕ → SharedPage)

def step (s : Twins) : Event → Option Twins
  | .create p => (s.mem.createTwinPage p).map fun m =>
      ⟨m, s.made ++ [⟨p, (m.pages p).bitmapIndex, (s.mem.pages p).content⟩]⟩
  | .change pages => some ⟨{ s.mem with pages := pages }, s.made⟩

/-- The length of the mapping of `xbitmap`. -/
def mapLength : ℕ := pageSize * (initialPages + 10)

/-- The twins have storage of their own and keep what was copied. -/
structure Kept (s : Twins) : Prop where
  nonzero : ∀ c ∈ s.made, c.index ≠ 0
  distinct : ∀ c ∈ s.made, ∀ c' ∈ s.made, c.page ≠ c'.page → c.index ≠ c'.index
  content : ∀ c ∈ s.made, s.mem.bitmap.twin c.index = c.content
  apart : ∀ c ∈ s.made, ∀ c' ∈ s.made, c.page ≠ c'.page →
    Bitmap.getAddress c.index + pageSize ≤ Bitmap.getAddress c'.index ∨
      Bitmap.getAddress c'.index + pageSize ≤ Bitmap.getAddress c.index
  inside : ∀ c ∈ s.made, Bitmap.getAddress c.index + pageSize ≤ mapLength
  counter : ∀ c ∈ s.made, 4 ≤ Bitmap.getAddress c.index
  slots : ∀ c ∈ s.made, ∀ k, 0 < k → k < s.mem.bitmap.cur →
    Bitmap.versionSlot k + 4 ≤ Bitmap.getAddress c.index ∨
      Bitmap.getAddress c.index + pageSize ≤ Bitmap.versionSlot k

/-! ## The indices -/

/-- The indices count the calls, and the twins are intact as long as no version slot has reached
them. -/
structure Counted (s : Twins) : Prop where
  cur : s.mem.bitmap.cur = s.made.length + 1
  index : ∀ k c, s.made[k]? = some c → c.index = (k + 1) % 65536
  content : s.made.length ≤ 3070 → ∀ c ∈ s.made, s.mem.bitmap.twin c.index = c.content

variable {s w : Twins} {c c' : Twin} {p : ℕ}

theorem Counted.index_le (h : s.Counted) (hn : s.made.length ≤ 3070) (hc : c ∈ s.made) :
    0 < c.index ∧ c.index ≤ s.made.length := by
  obtain ⟨k, hk⟩ := List.mem_iff_getElem?.mp hc
  obtain ⟨hlt, -⟩ := List.getElem?_eq_some_iff.mp hk
  rw [h.index k c hk]
  omega

theorem Counted.index_ne (h : s.Counted) (hn : s.made.length ≤ 3070) (hc : c ∈ s.made)
    (hc' : c' ∈ s.made) (hp : c.page ≠ c'.page) : c.index ≠ c'.index := by
  obtain ⟨k, hk⟩ := List.mem_iff_getElem?.mp hc
  obtain ⟨k', hk'⟩ := List.mem_iff_getElem?.mp hc'
  obtain ⟨hlt, -⟩ := List.getElem?_eq_some_iff.mp hk
  obtain ⟨hlt', -⟩ := List.getElem?_eq_some_iff.mp hk'
  have hne : k ≠ k' := by
    rintro rfl
    rw [hk] at hk'
    cases hk'
    exact hp rfl
  rw [h.index k c hk, h.index k' c' hk']
  omega

theorem Counted.create {m : Mem} (h : s.Counted) (hm : s.mem.createTwinPage p = some m) :
    Counted ⟨m, s.made ++ [⟨p, (m.pages p).bitmapIndex, (s.mem.pages p).content⟩]⟩ := by
  have hpages : (m.pages p).bitmapIndex = s.mem.bitmap.cur % 65536 := by
    rw [Mem.createTwinPage_pages hm, Function.update_self]
  have hcur : m.bitmap.cur = s.mem.bitmap.cur + 1 := by
    rw [Mem.createTwinPage_bitmap hm]
    rfl
  refine ⟨?_, fun k c hk => ?_, fun hn c hc => ?_⟩
  · rw [List.length_append, List.length_singleton, hcur, h.cur]
  · rcases Nat.lt_or_ge k s.made.length with hlt | hge
    · rw [List.getElem?_append_left hlt] at hk
      exact h.index k c hk
    · rw [List.getElem?_append_right hge, List.getElem?_singleton] at hk
      split at hk
      · rename_i hz
        have hk' : k = s.made.length := by omega
        cases hk
        rw [hpages, h.cur, hk']
      · cases hk
  · rw [List.length_append, List.length_singleton] at hn
    rcases List.mem_append.mp hc with hc | hc
    · obtain ⟨hpos, hle⟩ := h.index_le (by omega) hc
      have hlt : c.index < s.mem.bitmap.cur := by rw [h.cur]; omega
      have hslot : Bitmap.versionSlot s.mem.bitmap.cur + 4 ≤ Bitmap.getAddress c.index :=
        Bitmap.versionSlot_le hpos (by rw [h.cur]; omega)
      exact (Mem.createTwinPage_twin_of_ne hm hlt hslot).trans (h.content (by omega) c hc)
    · obtain rfl := List.mem_singleton.mp hc
      have hmod : s.mem.bitmap.cur % 65536 = s.mem.bitmap.cur := by
        rw [h.cur]
        exact Nat.mod_eq_of_lt (by omega)
      dsimp only
      rw [hpages, hmod]
      exact Mem.createTwinPage_twin hm

theorem Counted.step {e : Event} (h : s.Counted) (hs : s.step e = some w) : w.Counted := by
  cases e with
  | create p =>
      rw [Twins.step, Option.map_eq_some_iff] at hs
      obtain ⟨m, hm, rfl⟩ := hs
      exact h.create hm
  | change pages =>
      cases hs
      exact ⟨h.cur, h.index, h.content⟩

theorem Counted.start {m : Mem} (hm : m.bitmap.cur = 1) : Counted ⟨m, []⟩ :=
  ⟨hm, fun k c hk => by simp at hk, fun _ c hc => by simp at hc⟩

/-! ## The law -/

theorem Counted.kept (h : s.Counted) (hn : s.made.length ≤ 3070) : s.Kept where
  nonzero c hc := Nat.pos_iff_ne_zero.mp (h.index_le hn hc).1
  distinct c hc c' hc' := h.index_ne hn hc hc'
  content := h.content hn
  apart c hc c' hc' hp := by
    have hne := h.index_ne hn hc hc' hp
    unfold Bitmap.getAddress pageSize
    omega
  inside c hc := by
    have hle := (h.index_le hn hc).2
    unfold Bitmap.getAddress mapLength pageSize initialPages
    omega
  counter c _ := by
    unfold Bitmap.getAddress pageSize
    omega
  slots c hc k _ hk := .inl <|
    Bitmap.versionSlot_le (h.index_le hn hc).1 (by rw [h.cur] at hk; omega)

/-- The version slot of index 3071 lies in the first twin. -/
theorem Counted.not_kept (h : s.Counted) (hn : 3070 < s.made.length) : ¬ s.Kept := by
  intro hk
  have hpos : 0 < s.made.length := by omega
  have hfirst : s.made[0]? = some s.made[0] := List.getElem?_eq_getElem hpos
  have hidx := h.index 0 _ hfirst
  have hs := hk.slots _ (List.mem_of_getElem? hfirst) 3071 (by omega) (by rw [h.cur]; omega)
  rw [hidx] at hs
  unfold Bitmap.versionSlot Bitmap.getAddress pageSize at hs
  omega

/-- Between two cleanups the twins do not interfere if and only if there are at most 3070 of them. -/
theorem twins_kept_iff {m : Mem} {es : List Event} (hm : m.bitmap.cur = 1)
    (hr : Run Twins.step (fun _ _ => True) ⟨m, []⟩ es w) : w.Kept ↔ w.made.length ≤ 3070 := by
  have h : w.Counted := hr.invariant (fun _ _ _ h _ hs => h.step hs) (.start hm)
  exact ⟨fun hk => Nat.le_of_not_lt fun hn => h.not_kept hn hk, h.kept⟩

theorem twins_kept_iff_two : ∃ w, Run Twins.step (fun _ _ => True) ⟨Mem.boot 8, []⟩
    [.create 3, .create 5] w ∧ w.Kept := by
  have hrun : (exec Twins.step ⟨Mem.boot 8, []⟩ [.create 3, .create 5]).any
      (fun w => decide (w.made.length = 2)) = true := by decide +kernel
  obtain ⟨w, he, hlen⟩ := exists_exec_of_any hrun
  have hr := run_of_exec he
  have hiff := twins_kept_iff (m := Mem.boot 8) rfl hr
  exact ⟨w, hr, hiff.mpr (by omega)⟩

/-! ## Many twins -/

/-- All pages have the content and the version of `g`, and so have had the twinned ones. -/
structure Uniform (g : SharedPage) (s : Twins) : Prop where
  made : ∀ c ∈ s.made, c.content = g.content
  pages : ∀ q, (s.mem.pages q).content = g.content ∧ (s.mem.pages q).version = g.version

theorem exists_step {g : SharedPage} (h : s.Counted) (hu : s.Uniform g) (p : ℕ)
    (hn : s.made.length ≤ 3070) : ∃ m, s.mem.createTwinPage p = some m ∧
      ∃ w, s.step (.create p) = some w ∧ w.mem = m ∧ w.made.length = s.made.length + 1 ∧
        s.made <+: w.made ∧ w.Uniform g := by
  have hcap : s.mem.bitmap.cur + 1 < initialPages := by
    rw [h.cur]
    unfold initialPages
    omega
  have hget : (s.mem.createTwinPage p).isSome = true := by
    rw [Mem.createTwinPage, Bitmap.get_isSome hcap]
    rfl
  obtain ⟨m, hm⟩ := Option.isSome_iff_exists.mp hget
  refine ⟨m, hm, ⟨m, s.made ++ [⟨p, (m.pages p).bitmapIndex, (s.mem.pages p).content⟩]⟩,
    by rw [Twins.step, hm]; rfl, rfl, by simp, List.prefix_append _ _, fun c hc => ?_, fun q => ?_⟩
  · rcases List.mem_append.mp hc with hc | hc
    · exact hu.made c hc
    · obtain rfl := List.mem_singleton.mp hc
      exact (hu.pages p).1
  · dsimp only
    rw [Mem.createTwinPage_pages hm]
    by_cases hq : q = p
    · subst hq
      rw [Function.update_self]
      exact hu.pages q
    · rw [Function.update_of_ne hq]
      exact hu.pages q

theorem exists_run {g : SharedPage} {n : ℕ} (hn : n ≤ 3071) {m : Mem} (hm : m.bitmap.cur = 1)
    (hu : Uniform g ⟨m, []⟩) :
    ∃ w, Run Twins.step (fun _ _ => True) ⟨m, []⟩ ((List.range n).map .create) w ∧
      w.Counted ∧ w.made.length = n ∧ w.Uniform g := by
  induction n with
  | zero => exact ⟨_, .nil _, .start hm, rfl, hu⟩
  | succ n ih =>
      obtain ⟨s, hr, hc, hlen, hus⟩ := ih (by omega)
      obtain ⟨-, -, w, hs, -, hlw, -, huw⟩ := exists_step hc hus n (by omega)
      refine ⟨w, ?_, hc.step hs, by omega, huw⟩
      rw [List.range_succ, List.map_append]
      exact .snoc hr trivial hs

/-- All pages are zero and have version 1. -/
def unwritten : Mem :=
  { Mem.boot 5000 with pages := fun p => { (Mem.boot 5000).pages p with version := 1 } }

/-- The version of the twin with index 3071 is stored inside the twin with index 1. -/
theorem twins_collide : ∃ w, Run Twins.step (fun _ _ => True) ⟨unwritten, []⟩
    ((List.range 3071).map .create) w ∧ ¬ w.Kept ∧
      ∃ c ∈ w.made, w.mem.bitmap.twin c.index ≠ c.content := by
  have hstart : Uniform (unwritten.pages 0) ⟨unwritten, []⟩ :=
    ⟨fun c hc => by simp at hc, fun _ => ⟨rfl, rfl⟩⟩
  obtain ⟨s, hr, hc, hlen, hu⟩ := exists_run (by omega : 3070 ≤ 3071) rfl hstart
  obtain ⟨m, hm, w, hs, rfl, hlw, hsub, huw⟩ := exists_step hc hu 3070 (by omega)
  have hcw := hc.step hs
  refine ⟨w, ?_, hcw.not_kept (by omega), ?_⟩
  · rw [show (3071 : ℕ) = 3070 + 1 from rfl, List.range_succ, List.map_append]
    exact .snoc hr trivial hs
  · have hpos : 0 < w.made.length := by omega
    have hfirst : w.made[0]? = some w.made[0] := List.getElem?_eq_getElem hpos
    have hmem := List.mem_of_getElem? hfirst
    refine ⟨_, hmem, fun he => ?_⟩
    rw [huw.made _ hmem, hcw.index 0 _ hfirst, Mem.createTwinPage_bitmap hm, hc.cur, hlen] at he
    have hbyte := congrFun (congrFun he 0) 0
    simp only [Bitmap.twin, Bitmap.setVersion] at hbyte
    rw [if_pos (by unfold Bitmap.versionSlot Bitmap.getAddress pageSize; simp), (hu.pages 3070).2] at hbyte
    revert hbyte
    decide

end Twins

end Dthreads.Memory
