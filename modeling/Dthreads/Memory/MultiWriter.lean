import Mathlib
import Dthreads.Memory.Dirty

/-! # Pages with several writers

Processes that fault on a shared page in one parallel phase commit it in turn: the first by
`memcpy`, the later ones by their difference to the twin the first one created. -/

namespace Dthreads.Memory

/-! ## The scenario -/

/-- The memory, with the history of page `p`: the content each pending process faulted on, the
processes that have faulted and not yet committed, the last one that committed, and the
committed transactions. -/
structure WriterSession where
  mem : Mem
  base : Tid → Page
  pending : List Tid
  last : Option Tid
  txns : List (Merge.Txn (Fin 512 × Fin 8) Byte)

namespace WriterSession

def start (m : Mem) : WriterSession :=
  { mem := m, base := fun _ _ _ => 0, pending := [], last := none, txns := [] }

/-- The history of page `p` after an action. -/
def record (p : ℕ) (s : WriterSession) (m : Mem) : Act → WriterSession
  | .fault t q =>
      if q = p then
        { s with mem := m, base := Function.update s.base t (s.mem.view t p), pending := s.pending ++ [t] }
      else { s with mem := m }
  | .commitEntry t k =>
      match (s.mem.spaces t).dirty[k]? with
      | some d =>
          if d.pageNo = p then
            { s with
              mem := m
              pending := s.pending.erase t
              last := some t
              txns := s.txns ++ [⟨(s.base t).cell, (s.mem.view t p).cell⟩] }
          else { s with mem := m }
      | none => { s with mem := m }
  | _ => { s with mem := m }

def step (p : ℕ) (s : WriterSession) (a : Act) : Option WriterSession :=
  (s.mem.step a).map fun m => s.record p m a

/-- The steps of the scenario. All first faults on `p` come before the first commit; later only
the last committer faults again, and the next process commits after it has committed again. -/
def Scenario (p : ℕ) (s : WriterSession) : Act → Prop
  | .load .. | .store .. | .setWord .. | .notify .. | .mprotectRead .. | .exit .. => True
  | .memWrite _ o _ => o.page ≠ p
  | .fault t q => q = p → (s.last = none ∨ s.last = some t) ∧ s.pending.length < 65535
  | .commitEntry t k => ∀ d ∈ (s.mem.spaces t).dirty[k]?, d.pageNo = p →
      d.processed = false ∧ ∀ l ∈ s.last, l ≠ t → l ∉ s.pending
  | .begin t => t ∉ s.pending
  | .signal _ q => q ≠ p
  | .finalcommit .. => True
  | .superblock .. | .cleanup | .openProtection .. | .closeProtection .. | .fork .. => False

/-- A new twin gets an index that fits `bitmapIndex`, and its version slot misses the twin of
`p`. -/
def TwinFits (p : ℕ) (m : Mem) (q : ℕ) : Prop :=
  1 < (m.pages q).users ∧ (m.pages q).bitmapIndex = 0 →
    if q = p then m.bitmap.cur < 65536
    else (m.pages p).bitmapIndex ≠ 0 →
      Bitmap.versionSlot m.bitmap.cur + 4 ≤ Bitmap.getAddress (m.pages p).bitmapIndex

/-- The version a fault records fits the `int` it is recorded in. -/
def VersionFits (p : ℕ) (s : WriterSession) : Act → Prop
  | .fault _ q => q = p → (s.mem.pages p).version.toNat < 2 ^ 31
  | .commitEntry t k => ∀ d ∈ (s.mem.spaces t).dirty[k]?, TwinFits p s.mem d.pageNo
  | _ => True

instance (p : ℕ) (s : WriterSession) : DecidablePred (Scenario p s)
  | .load .. | .store .. | .setWord .. | .notify .. | .mprotectRead .. | .exit .. => .isTrue trivial
  | .memWrite _ o _ => inferInstanceAs (Decidable (o.page ≠ p))
  | .fault t q => inferInstanceAs (Decidable (q = p → (s.last = none ∨ s.last = some t) ∧ _))
  | .commitEntry t k => inferInstanceAs (Decidable (∀ d ∈ (s.mem.spaces t).dirty[k]?,
      d.pageNo = p → d.processed = false ∧ ∀ l ∈ s.last, l ≠ t → l ∉ s.pending))
  | .begin t => inferInstanceAs (Decidable (t ∉ s.pending))
  | .signal _ q => inferInstanceAs (Decidable (q ≠ p))
  | .finalcommit .. => .isTrue trivial
  | .superblock .. | .cleanup | .openProtection .. | .closeProtection .. | .fork .. => .isFalse id

instance (p : ℕ) (m : Mem) (q : ℕ) : Decidable (TwinFits p m q) :=
  inferInstanceAs (Decidable (_ ∧ _ → if q = p then _ else _ → _))

instance (p : ℕ) (s : WriterSession) : DecidablePred (VersionFits p s)
  | .fault _ _ => inferInstanceAs (Decidable (_ → _))
  | .commitEntry t k => inferInstanceAs (Decidable (∀ d ∈ (s.mem.spaces t).dirty[k]?,
      TwinFits p s.mem d.pageNo))
  | .load .. | .store .. | .setWord .. | .notify .. | .mprotectRead .. | .exit .. => .isTrue trivial
  | .memWrite .. | .begin .. | .signal .. | .finalcommit .. | .superblock .. => .isTrue trivial
  | .cleanup | .openProtection .. | .closeProtection .. | .fork .. => .isTrue trivial

end WriterSession

/-- The entries and the copy of page `p` are the same, or the copy is that of a listed page. -/
structure SamePage (p : ℕ) (s s' : Space) : Prop where
  entries : ∀ d : PageInfo, d.pageNo = p → (d ∈ s'.dirty ↔ d ∈ s.dirty)
  release : ∀ d ∈ s.dirty, d.pageNo = p → s'.release d.slot = s.release d.slot
  prot : s'.prot p = .readWrite → s.prot p = .readWrite
  access : s'.access p = .write → s.access p = .write
  priv : s'.priv p = s.priv p ∨ ∃ d ∈ s.dirty, d.pageNo = p

theorem SamePage.refl (p : ℕ) (s : Space) : SamePage p s s :=
  ⟨fun _ _ => Iff.rfl, fun _ _ _ => rfl, id, id, .inl rfl⟩

theorem SamePage.of_sameDirty {p : ℕ} {s s' : Space} (h : s.SameDirty s')
    (hpriv : s'.priv p = s.priv p ∨ ∃ d ∈ s.dirty, d.pageNo = p) : SamePage p s s' :=
  ⟨fun _ _ => by rw [h.dirty], fun _ _ _ => by rw [h.release], fun hp => by rwa [h.prot] at hp,
    h.written p, hpriv⟩

/-- Page `p` is clean. -/
structure Unlisted (p : ℕ) (s : Space) : Prop where
  entries : ∀ d ∈ s.dirty, d.pageNo ≠ p
  prot : s.prot p ≠ .readWrite
  access : s.access p ≠ .write
  priv : s.priv p = none

/-! ## The invariant -/

/-- What page `p` looks like at any point of the scenario. -/
structure Merging (p : ℕ) (v : BitVec 64) (B : Page) (s : WriterSession) : Prop where
  owner : (s.mem.table p).owner = .shared
  users : (s.mem.table p).users = s.pending.length
  nodup : s.pending.Nodup
  version : (s.mem.table p).version.toNat = v.toNat + s.txns.length
  bound : s.pending ≠ [] → v.toNat + s.txns.length + s.pending.length < 2 ^ 32
  content : (s.mem.pages p).content.cell = Merge.lastWriter B.cell s.txns
  cur_pos : 0 < s.mem.bitmap.cur
  tidy : ∀ t, (s.mem.spaces t).Tidy
  isProtected : ∀ t, (s.mem.spaces t).isProtected = true
  access : ∀ t, (s.mem.spaces t).access p ≠ .write
  /-- A writable page is listed. -/
  listed : ∀ t, (s.mem.spaces t).prot p = .readWrite → ∃ d ∈ (s.mem.spaces t).dirty, d.pageNo = p
  clean : ∀ t, (∀ d ∈ (s.mem.spaces t).dirty, d.pageNo ≠ p) → (s.mem.spaces t).priv p = none
  pending : ∀ t ∈ s.pending, ∃ d ∈ (s.mem.spaces t).dirty, d.pageNo = p ∧ d.processed = false
  processed : ∀ t, ∀ d ∈ (s.mem.spaces t).dirty, d.pageNo = p → t ∉ s.pending →
    d.processed = true ∧ (s.mem.spaces t).release d.slot = true
  first : s.last = none ↔ s.txns = []
  /-- The last committer faulted on the content it left. -/
  again : ∀ t ∈ s.pending, s.last = some t → s.base t = (s.mem.pages p).content ∧
    (s.mem.table p).version.toNat < 2 ^ 31 ∧
    ∀ d ∈ (s.mem.spaces t).dirty, d.pageNo = p → d.version = (s.mem.table p).version.setWidth 32
  /-- The others faulted on the initial content. -/
  waiting : ∀ t ∈ s.pending, s.last ≠ some t → s.base t = B ∧ v.toNat < 2 ^ 31 ∧
    ∀ d ∈ (s.mem.spaces t).dirty, d.pageNo = p → d.version = v.setWidth 32
  /-- The twin is the initial content, and it exists while somebody waits to commit. -/
  twin : (s.mem.table p).bitmapIndex ≠ 0 → (s.mem.table p).bitmapIndex < s.mem.bitmap.cur ∧
    s.mem.bitmap.twin (s.mem.table p).bitmapIndex = B
  no_twin : s.last = none ∨ s.pending = [] → (s.mem.table p).bitmapIndex = 0
  some_twin : ∀ t ∈ s.pending, s.last ≠ none → s.last ≠ some t → (s.mem.table p).bitmapIndex ≠ 0

namespace Merging

variable {p : ℕ} {v : BitVec 64} {B : Page} {s : WriterSession} {m' : Mem} {t : Tid} {k : ℕ}

/-! ## Steps that leave the page alone -/

/-- An action elsewhere: the entries, copies and tables of page `p` stay, but for processes
that begin, and so does its twin. -/
theorem frame (h : Merging p v B s) (htidy : ∀ u, (m'.spaces u).Tidy)
    (hprotected : ∀ u, (m'.spaces u).isProtected = true)
    (hspaces : ∀ u, SamePage p (s.mem.spaces u) (m'.spaces u) ∨
      (u ∉ s.pending ∧ Unlisted p (m'.spaces u)))
    (hcontent : (m'.pages p).content = (s.mem.pages p).content)
    (htable : m'.table p = s.mem.table p)
    (hcur : s.mem.bitmap.cur ≤ m'.bitmap.cur)
    (htwin : (s.mem.table p).bitmapIndex ≠ 0 →
      m'.bitmap.twin (s.mem.table p).bitmapIndex = s.mem.bitmap.twin (s.mem.table p).bitmapIndex) :
    Merging p v B { s with mem := m' } := by
  have hpend : ∀ u ∈ s.pending, SamePage p (s.mem.spaces u) (m'.spaces u) := fun u hu =>
    (hspaces u).resolve_right fun hc => hc.1 hu
  exact
    { owner := htable ▸ h.owner
      users := htable ▸ h.users
      nodup := h.nodup
      version := htable ▸ h.version
      bound := h.bound
      content := hcontent ▸ h.content
      cur_pos := lt_of_lt_of_le h.cur_pos hcur
      tidy := htidy
      isProtected := hprotected
      access := fun u => by
        rcases hspaces u with hs | ⟨-, hs⟩
        · exact fun hu => h.access u (hs.access hu)
        · exact hs.access
      listed := fun u hu => by
        rcases hspaces u with hs | ⟨-, hs⟩
        · obtain ⟨d, hd, hp⟩ := h.listed u (hs.prot hu)
          exact ⟨d, (hs.entries d hp).mpr hd, hp⟩
        · exact absurd hu hs.prot
      clean := fun u hu => by
        rcases hspaces u with hs | ⟨-, hs⟩
        · have hne : ∀ d ∈ (s.mem.spaces u).dirty, d.pageNo ≠ p := fun d hd hp =>
            hu d ((hs.entries d hp).mpr hd) hp
          rcases hs.priv with hc | ⟨d, hd, hp⟩
          · exact hc.trans (h.clean u hne)
          · exact absurd hp (hne d hd)
        · exact hs.priv
      pending := fun u hu => by
        obtain ⟨d, hd, hp, hf⟩ := h.pending u hu
        exact ⟨d, ((hpend u hu).entries d hp).mpr hd, hp, hf⟩
      processed := fun u d hd hp hu => by
        rcases hspaces u with hs | ⟨-, hs⟩
        · have hd := (hs.entries d hp).mp hd
          rw [hs.release d hd hp]
          exact h.processed u d hd hp hu
        · exact absurd hp (hs.entries d hd)
      first := h.first
      again := fun u hu hl => by
        obtain ⟨h1, h2, h3⟩ := h.again u hu hl
        exact ⟨hcontent.symm ▸ h1, htable.symm ▸ h2, fun d hd hp =>
          htable.symm ▸ h3 d (((hpend u hu).entries d hp).mp hd) hp⟩
      waiting := fun u hu hl => by
        obtain ⟨h1, h2, h3⟩ := h.waiting u hu hl
        exact ⟨h1, h2, fun d hd hp => h3 d (((hpend u hu).entries d hp).mp hd) hp⟩
      twin := fun hi => by
        dsimp only at hi ⊢
        rw [htable] at hi ⊢
        exact ⟨(h.twin hi).1.trans_le hcur, (htwin hi).trans (h.twin hi).2⟩
      no_twin := htable ▸ h.no_twin
      some_twin := htable ▸ h.some_twin }

/-- The frame for an action that changes no dirty list and no twin. -/
theorem frame_sameDirty (h : Merging p v B s)
    (hsame : ∀ u, (s.mem.spaces u).SameDirty (m'.spaces u))
    (hpriv : ∀ u, (m'.spaces u).priv p = (s.mem.spaces u).priv p ∨
      ∃ d ∈ (s.mem.spaces u).dirty, d.pageNo = p)
    (hcontent : (m'.pages p).content = (s.mem.pages p).content)
    (htable : m'.table p = s.mem.table p) (hbitmap : m'.bitmap = s.mem.bitmap) :
    Merging p v B { s with mem := m' } :=
  h.frame (fun u => (h.tidy u).of_sameDirty (hsame u))
    (fun u => (hsame u).isProtected.trans (h.isProtected u))
    (fun u => .inl (.of_sameDirty (hsame u) (hpriv u))) hcontent htable
    (by rw [hbitmap]) (fun _ => by rw [hbitmap])

/-! ## Faults -/

theorem record_fault (h : Merging p v B s) (hlast : s.last = none ∨ s.last = some t)
    (hlen : s.pending.length < 65535) (hv : (s.mem.pages p).version.toNat < 2 ^ 31)
    (hw : (s.mem.spaces t).prot p ≠ .readWrite) (ha : (s.mem.spaces t).access p ≠ .none)
    (hm : s.mem.handleWrite t p = some m') : Merging p v B (s.record p m' (.fault t p)) := by
  obtain ⟨e, hf, hev⟩ := Mem.handleWrite_space hm
  have hother : ∀ u, u ≠ t → m'.spaces u = s.mem.spaces u := fun u hu =>
    Mem.handleWrite_spaces_of_ne hm hu
  have hnone : ∀ d ∈ (s.mem.spaces t).dirty, d.pageNo ≠ p := by
    rintro d hd rfl
    exact hw ((h.tidy t).writable d hd)
  have ht : t ∉ s.pending := fun ht => by
    obtain ⟨d, hd, hp, -⟩ := h.pending t ht
    exact hnone d hd hp
  have hmem : ∀ d, d ∈ (m'.spaces t).dirty ↔ d = e ∨ d ∈ (s.mem.spaces t).dirty := fun d => by
    rw [hf.dirty, Space.mem_insertDirty]
  have hentry : ∀ d ∈ (m'.spaces t).dirty, d.pageNo = p → d = e := fun d hd hp =>
    ((hmem d).mp hd).resolve_right fun hd => hnone d hd hp
  have htable : m'.table p = { s.mem.table p with users := (s.mem.table p).users + 1 } := by
    rw [Mem.handleWrite_table hm, if_pos rfl, if_neg (h.access t)]
    rfl
  have hcontent : (m'.pages p).content = (s.mem.pages p).content := by
    rw [Mem.handleWrite_content hm, if_neg (fun hc => h.access t hc.2)]
  have hpriv : ∀ u, (m'.spaces u).priv = (s.mem.spaces u).priv := fun u => Mem.handleWrite_priv hm
  have hbitmap := Mem.handleWrite_bitmap hm
  have hview : s.mem.view t p = (s.mem.pages p).content := Mem.view_of_none (h.clean t hnone)
  have hversion : (m'.pages p).version = (s.mem.table p).version := congrArg Table.version htable
  have hvlen : v.toNat + s.txns.length < 2 ^ 31 := h.version ▸ hv
  have hrec : s.record p m' (.fault t p) =
      { s with
        mem := m'
        base := Function.update s.base t (s.mem.view t p)
        pending := s.pending ++ [t] } := by
    simp [WriterSession.record]
  rw [hrec]
  exact
    { owner := by rw [htable]; exact h.owner
      users := by rw [htable, List.length_append]; exact congrArg (· + 1) h.users
      nodup := by
        rw [List.nodup_append]
        refine ⟨h.nodup, by simp, ?_⟩
        rintro a ha b hb rfl
        exact ht (List.mem_singleton.mp hb ▸ ha)
      version := by rw [htable]; exact h.version
      bound := fun _ => by simp only [List.length_append, List.length_singleton]; omega
      content := by rw [hcontent]; exact h.content
      cur_pos := hbitmap ▸ h.cur_pos
      tidy := fun u => by
        by_cases hu : u = t
        · rw [hu]
          exact (h.tidy t).of_faulted hf hw ha
        · rw [hother u hu]
          exact h.tidy u
      isProtected := fun u => by
        by_cases hu : u = t
        · rw [hu, hf.isProtected]
          exact h.isProtected t
        · rw [hother u hu]
          exact h.isProtected u
      access := fun u hacc => by
        by_cases hu : u = t
        · rw [hu] at hacc
          rcases Mem.handleWrite_written hm hacc with hc | ⟨-, ho⟩
          · exact h.access t hc
          · exact Owner.noConfusion (h.owner.symm.trans ho)
        · rw [hother u hu] at hacc
          exact h.access u hacc
      listed := fun u hl => by
        by_cases hu : u = t
        · rw [hu]
          exact ⟨e, (hmem e).mpr (.inl rfl), hf.pageNo⟩
        · rw [hother u hu] at hl ⊢
          exact h.listed u hl
      clean := fun u hc => by
        rw [hpriv u]
        by_cases hu : u = t
        · rw [hu] at hc
          exact absurd hf.pageNo (hc e ((hmem e).mpr (.inl rfl)))
        · rw [hother u hu] at hc
          exact h.clean u hc
      pending := fun u hp => by
        by_cases hu : u = t
        · rw [hu]
          exact ⟨e, (hmem e).mpr (.inl rfl), hf.pageNo, hf.unprocessed⟩
        · rw [hother u hu]
          refine h.pending u ?_
          simpa [hu] using hp
      processed := fun u d hd hp hnot => by
        have hu : u ≠ t := fun hu => hnot (by simp [hu])
        rw [hother u hu] at hd ⊢
        exact h.processed u d hd hp fun hm => hnot (by simp [hm])
      first := h.first
      again := fun u hp hl => by
        rcases hlast with hn | hl'
        · rw [hn] at hl
          cases hl
        · obtain rfl : t = u := Option.some.inj (hl'.symm.trans hl)
          rw [hcontent, htable]
          refine ⟨by simp [hview], hv, fun d hd hdp => ?_⟩
          rw [hentry d hd hdp, hev, hversion]
      waiting := fun u hp hl => by
        by_cases hu : u = t
        · subst hu
          have hn : s.last = none := hlast.resolve_right hl
          have htx := h.first.mp hn
          have hB : (s.mem.pages p).content = B := Page.ext_cell (by rw [h.content, htx]; rfl)
          have hver : (s.mem.table p).version = v := BitVec.eq_of_toNat_eq (by rw [h.version, htx]; rfl)
          refine ⟨by simp [hview, hB], by omega, fun d hd hdp => ?_⟩
          rw [hentry d hd hdp, hev, hversion, hver]
        · have hp : u ∈ s.pending := by simpa [hu] using hp
          obtain ⟨h1, h2, h3⟩ := h.waiting u hp hl
          refine ⟨by simpa [hu] using h1, h2, ?_⟩
          rw [hother u hu]
          exact h3
      twin := by rw [htable, hbitmap]; exact h.twin
      no_twin := fun hc => by
        rw [htable]
        rcases hc with hn | hn
        · exact h.no_twin (.inl hn)
        · simp at hn
      some_twin := fun u hp hn hl => by
        rw [htable]
        have hu : u ≠ t := by
          rintro rfl
          rcases hlast with hc | hc
          · exact hn hc
          · exact hl hc
        exact h.some_twin u (by simpa [hu] using hp) hn hl }

/-! ## Commits -/

variable {n : Mem} {d : PageInfo}

/-- Somebody waits to commit, or nobody has committed yet. -/
theorem last_eq_none_or (h : Merging p v B s) (hu : 1 < s.pending.length) :
    s.last = none ∨ (s.mem.table p).bitmapIndex ≠ 0 := by
  cases hl : s.last with
  | none => exact .inl rfl
  | some l =>
      right
      obtain ⟨u, hu, hne⟩ : ∃ u ∈ s.pending, u ≠ l := by
        by_contra hc
        push Not at hc
        have hsub : s.pending ⊆ [l] := fun u hu => List.mem_singleton.mpr (hc u hu)
        have := (List.subperm_of_subset h.nodup hsub).length_le
        simp at this
        omega
      refine h.some_twin u hu (by simp [hl]) ?_
      rw [hl]
      exact fun hc => hne (Option.some.inj hc).symm

theorem publishes_of_mem (h : Merging p v B s) (hd : d ∈ (s.mem.spaces t).dirty)
    (hp : d.pageNo = p) : s.mem.publishes t d := by
  refine ⟨(h.tidy t).not_updated d hd, .inr ?_⟩
  rw [hp]
  exact fun ho => Owner.noConfusion (h.owner.symm.trans ho)

/-- Once `checkandcommit` made sure of a twin, it is the initial content. -/
theorem twin_of_ensureTwin (h : Merging p v B s) (hfit : WriterSession.TwinFits p s.mem p)
    (hn : s.mem.ensureTwin p = some n) :
    ((n.pages p).bitmapIndex ≠ 0 → (n.pages p).bitmapIndex < n.bitmap.cur ∧
      n.bitmap.twin (n.pages p).bitmapIndex = B) ∧
    (1 < s.pending.length ∨ (s.mem.table p).bitmapIndex ≠ 0 → (n.pages p).bitmapIndex ≠ 0) := by
  have hu : (s.mem.pages p).users = s.pending.length := h.users
  by_cases hc : 1 < (s.mem.pages p).users ∧ (s.mem.pages p).bitmapIndex = 0
  · have hcur : s.mem.bitmap.cur < 65536 := by simpa using hfit hc
    have hn' : s.mem.createTwinPage p = some n := by rwa [Mem.ensureTwin, if_pos hc] at hn
    have hi : (n.pages p).bitmapIndex = s.mem.bitmap.cur := by
      rw [Mem.createTwinPage_pages hn', Function.update_self]
      exact Nat.mod_eq_of_lt hcur
    have hlast : s.last = none := (h.last_eq_none_or (hu ▸ hc.1)).resolve_right (not_not.mpr hc.2)
    have hB : (s.mem.pages p).content = B :=
      Page.ext_cell (by rw [h.content, h.first.mp hlast]; rfl)
    have hpos := h.cur_pos
    rw [hi]
    refine ⟨fun _ => ⟨?_, ?_⟩, fun _ => by omega⟩
    · rw [Mem.createTwinPage_bitmap hn']
      exact Nat.lt_succ_self _
    · rw [Mem.createTwinPage_twin hn', hB]
  · have hn' : s.mem = n := by rwa [Mem.ensureTwin, if_neg hc, Option.some.injEq] at hn
    rw [← hn']
    refine ⟨h.twin, ?_⟩
    rintro (hu' | hi)
    · rw [← hu] at hu'
      exact fun hi => hc ⟨hu', hi⟩
    · exact hi

/-- The commit of a pending process, by `memcpy` or by a diff, is the overlay of its
transaction. -/
theorem commit_content (h : Merging p v B s) (ht : t ∈ s.pending)
    (hfit : WriterSession.TwinFits p s.mem p)
    (hd : (s.mem.spaces t).dirty[k]? = some d) (hp : d.pageNo = p)
    (hm : s.mem.commitEntry t k = some m') :
    (m'.pages p).content.cell = Merge.overlay (s.mem.view t p).cell (s.base t).cell
      (s.mem.pages p).content.cell := by
  have hmem : d ∈ (s.mem.spaces t).dirty := List.mem_of_getElem? hd
  have hpub := h.publishes_of_mem hmem hp
  obtain ⟨d', b, hd', hb, hc⟩ := Mem.commitEntry_content hm
  obtain rfl : d = d' := Option.some.inj (hd.symm.trans hd')
  rw [hc p, if_pos ⟨hp.symm, hpub⟩]
  by_cases hl : s.last = some t
  · -- a page faulted on again has seen no commit since
    obtain ⟨hbase, hv, hver⟩ := h.again t ht hl
    have hv : (s.mem.pages p).version.toNat < 2 ^ 31 := hv
    rw [hver d hmem hp, Mem.table_version, sameVersion_setWidth hv, if_pos rfl, hbase,
      Merge.overlay_self_base]
  · obtain ⟨hbase, hv, hver⟩ := h.waiting t ht hl
    have hbound := h.bound (List.ne_nil_of_mem ht)
    have hversion : (s.mem.pages p).version.toNat = v.toNat + s.txns.length := h.version
    by_cases hx : s.txns = []
    · have hsame : (s.mem.pages p).version = v :=
        BitVec.eq_of_toNat_eq (by rw [hversion, hx]; rfl)
      have hB : (s.mem.pages p).content = B := Page.ext_cell (by rw [h.content, hx]; rfl)
      rw [hver d hmem hp, hsame, sameVersion_setWidth hv, if_pos rfl, hbase, hB,
        Merge.overlay_self_base]
    · have hdiff : sameVersion d.version (s.mem.pages p).version = false := by
        rw [← Bool.not_eq_true, sameVersion_iff (hver d hmem hp) hv]
        intro he
        have : s.txns.length = 0 := by rw [he] at hversion; omega
        exact hx (List.length_eq_zero_iff.mp this)
      have hlast : s.last ≠ none := fun hn => hx (h.first.mp hn)
      rw [Mem.diffBase, hp, Option.map_eq_some_iff] at hb
      obtain ⟨n, hn, rfl⟩ := hb
      have htw := h.twin_of_ensureTwin hfit hn
      rw [hdiff, if_neg Bool.false_ne_true, writePageDiffs_cell, hbase,
        (htw.1 (htw.2 (.inr (h.some_twin t ht hlast hl)))).2]

theorem commit_table (h : Merging p v B s) (ht : t ∈ s.pending)
    (hd : (s.mem.spaces t).dirty[k]? = some d) (hp : d.pageNo = p)
    (hm : s.mem.commitEntry t k = some m') :
    ∃ n, s.mem.ensureTwin p = some n ∧ m'.bitmap = n.bitmap ∧
      m'.table p =
        { version := (s.mem.table p).version + 1
          users := s.pending.length - 1
          bitmapIndex := if s.pending.length = 1 then 0 else (n.pages p).bitmapIndex
          owner := .shared } := by
  have hpub := h.publishes_of_mem (List.mem_of_getElem? hd) hp
  have hu : (s.mem.pages p).users = s.pending.length := h.users
  obtain ⟨d', n, hd', hn, hbitmap, htable⟩ := Mem.commitEntry_table hm
  obtain rfl : d = d' := Option.some.inj (hd.symm.trans hd')
  rw [hp] at hn
  refine ⟨n, hn, hbitmap, ?_⟩
  have hntable := Mem.ensureTwin_table (q := p) hn
  rw [if_pos rfl] at hntable
  have hi : (n.pages p).bitmapIndex = _ := congrArg Table.bitmapIndex hntable
  have hpubtab : (n.publish t p d.version).table p =
      { s.mem.table p with bitmapIndex := (n.pages p).bitmapIndex, owner := .shared } := by
    rw [Mem.publish_table]
    split
    · rw [hntable, hi]
    · rw [hntable, hi, ← h.owner]
  rw [htable p, if_neg (by simp [hp, hpub.1]), if_pos hpub, hp, hpubtab]
  simp only [Table.endCommit, Mem.table_users, hu, decUsers_of_pos (List.length_pos_of_mem ht)]

theorem record_commit (h : Merging p v B s) (hlast : ∀ l ∈ s.last, l ≠ t → l ∉ s.pending)
    (hfit : WriterSession.TwinFits p s.mem p)
    (hd : (s.mem.spaces t).dirty[k]? = some d) (hp : d.pageNo = p) (hproc : d.processed = false)
    (hm : s.mem.commitEntry t k = some m') :
    Merging p v B (s.record p m' (.commitEntry t k)) := by
  have hmem : d ∈ (s.mem.spaces t).dirty := List.mem_of_getElem? hd
  have ht : t ∈ s.pending := by
    by_contra hnot
    have := (h.processed t d hmem hp hnot).1
    rw [hproc] at this
    cases this
  have hpub := h.publishes_of_mem hmem hp
  have hbound := h.bound (List.ne_nil_of_mem ht)
  have hpos : 0 < s.pending.length := List.length_pos_of_mem ht
  have herase : (s.pending.erase t).length = s.pending.length - 1 := List.length_erase_of_mem ht
  have hcontent := h.commit_content ht hfit hd hp hm
  obtain ⟨n, hn, hbitmap, htable⟩ := h.commit_table ht hd hp hm
  have htw := h.twin_of_ensureTwin hfit hn
  obtain ⟨d', hc⟩ := Mem.commitEntry_space hm
  obtain rfl : d = d' := Option.some.inj (hd.symm.trans hc.getElem)
  rw [if_neg (by simp [hpub.1]), decide_eq_true hpub] at hc
  have hother : ∀ u, u ≠ t → (s.mem.spaces u).SameDirty (m'.spaces u) := fun u hu =>
    Mem.commitEntry_spaces_of_ne hm hu
  have hentry : ∀ x ∈ (m'.spaces t).dirty, x.pageNo = p → x = { d with processed := true } :=
    fun x hx hxp => (((h.tidy t).mem_committed hc).mp hx).resolve_right fun hx =>
      hx.2 (hxp.trans hp.symm)
  have hlisted : { d with processed := true } ∈ (m'.spaces t).dirty :=
    ((h.tidy t).mem_committed hc).mpr (.inl rfl)
  have hne : ∀ u, u ∈ s.pending.erase t → u ≠ t := fun u hu hut =>
    h.nodup.not_mem_erase (hut ▸ hu)
  have hrec : s.record p m' (.commitEntry t k) =
      { s with
        mem := m'
        pending := s.pending.erase t
        last := some t
        txns := s.txns ++ [⟨(s.base t).cell, (s.mem.view t p).cell⟩] } := by
    simp [WriterSession.record, hd, hp]
  rw [hrec]
  exact
    { owner := by rw [htable]
      users := by rw [htable, herase]
      nodup := h.nodup.erase t
      version := by
        rw [htable]
        have hv := h.version
        have h1 : (1 : BitVec 64).toNat = 1 := rfl
        simp only [List.length_append, List.length_singleton, BitVec.toNat_add, h1, hv]
        omega
      bound := fun _ => by
        simp only [List.length_append, List.length_singleton, herase]
        omega
      content := by rw [hcontent, Merge.lastWriter_append_singleton, h.content]
      cur_pos := by
        rw [hbitmap]
        exact h.cur_pos.trans_le (Mem.ensureTwin_cur hn)
      tidy := fun u => by
        by_cases hu : u = t
        · rw [hu]
          exact (h.tidy t).of_committed hc
        · exact (h.tidy u).of_sameDirty (hother u hu)
      isProtected := fun u => by
        by_cases hu : u = t
        · rw [hu, hc.isProtected]
          exact h.isProtected t
        · rw [(hother u hu).isProtected]
          exact h.isProtected u
      access := fun u hacc => by
        by_cases hu : u = t
        · rw [hu] at hacc
          exact h.access t (hc.written p hacc)
        · exact h.access u ((hother u hu).written p hacc)
      listed := fun u hl => by
        by_cases hu : u = t
        · rw [hu]
          exact ⟨_, hlisted, hp⟩
        · rw [(hother u hu).prot] at hl
          rw [(hother u hu).dirty]
          exact h.listed u hl
      clean := fun u hcl => by
        rw [Mem.commitEntry_priv hm]
        by_cases hu : u = t
        · rw [hu] at hcl
          exact absurd hp (hcl { d with processed := true } hlisted)
        · rw [(hother u hu).dirty] at hcl
          exact h.clean u hcl
      pending := fun u hu => by
        rw [(hother u (hne u hu)).dirty]
        exact h.pending u (List.mem_of_mem_erase hu)
      processed := fun u x hx hxp hnot => by
        by_cases hu : u = t
        · rw [hu] at hx ⊢
          rw [hentry x hx hxp, hc.release]
          exact ⟨rfl, Function.update_self ..⟩
        · rw [(hother u hu).dirty] at hx
          rw [(hother u hu).release]
          exact h.processed u x hx hxp fun hm => hnot ((List.mem_erase_of_ne hu).mpr hm)
      first := by simp
      again := fun u hu hl => absurd (Option.some.inj hl).symm (hne u hu)
      waiting := fun u hu _ => by
        have hm := List.mem_of_mem_erase hu
        have hl : s.last ≠ some u := fun hl => hlast u hl (hne u hu) hm
        obtain ⟨h1, h2, h3⟩ := h.waiting u hm hl
        rw [(hother u (hne u hu)).dirty]
        exact ⟨h1, h2, h3⟩
      twin := by
        rw [htable, hbitmap]
        dsimp only
        split
        · exact fun hi => absurd rfl hi
        · exact htw.1
      no_twin := fun hc => by
        have hnil : s.pending.erase t = [] := hc.resolve_left (by simp)
        rw [hnil, List.length_nil] at herase
        rw [htable]
        exact if_pos (by omega)
      some_twin := fun u hu _ _ => by
        have hlen : 0 < (s.pending.erase t).length := List.length_pos_of_mem hu
        rw [htable]
        dsimp only
        rw [if_neg (by omega)]
        exact htw.2 (.inl (by omega)) }

/-! ## The run -/

theorem record_begin (h : Merging p v B s) (ht : t ∉ s.pending) :
    Merging p v B { s with mem := s.mem.updateAll t } := by
  refine h.frame (fun u => ?_) (fun u => ?_) (fun u => ?_) rfl rfl le_rfl (fun _ => rfl)
  · by_cases hu : u = t
    · rw [hu]
      exact .of_nil Mem.updateAll_dirty
    · rw [Mem.updateAll_priv_of_ne hu]
      exact h.tidy u
  · rw [Mem.updateAll_isProtected]
    exact h.isProtected u
  · by_cases hu : u = t
    · subst hu
      refine .inr ⟨ht, by simp, ?_, by rw [Mem.updateAll_access]; exact h.access u, ?_⟩
      · rw [Mem.updateAll_prot]
        split
        · simp
        · rename_i hno
          intro hw
          obtain ⟨d, hd, hp⟩ := h.listed u hw
          exact hno ⟨d, hd, hp, (h.tidy u).not_updated d hd⟩
      · by_cases hr : s.mem.released u p
        · exact Mem.updateAll_priv_of_released hr
        · rw [Mem.updateAll_priv_of_not_released hr]
          refine h.clean u fun d hd hp => hr ⟨d, hd, hp, (h.tidy u).not_updated d hd, ?_⟩
          exact (h.processed u d hd hp ht).2
    · rw [Mem.updateAll_priv_of_ne hu]
      exact .inl (.refl p _)

theorem record_fault_of_ne (h : Merging p v B s) {q : ℕ} (hq : q ≠ p)
    (hw : (s.mem.spaces t).prot q ≠ .readWrite) (ha : (s.mem.spaces t).access q ≠ .none)
    (hm : s.mem.handleWrite t q = some m') : Merging p v B { s with mem := m' } := by
  obtain ⟨e, hf, -⟩ := Mem.handleWrite_space hm
  have hother : ∀ u, u ≠ t → m'.spaces u = s.mem.spaces u := fun u hu =>
    Mem.handleWrite_spaces_of_ne hm hu
  have hbitmap := Mem.handleWrite_bitmap hm
  refine h.frame (fun u => ?_) (fun u => ?_) (fun u => .inl ?_) ?_ ?_ ?_ (fun _ => by rw [hbitmap])
  · by_cases hu : u = t
    · rw [hu]
      exact (h.tidy t).of_faulted hf hw ha
    · rw [hother u hu]
      exact h.tidy u
  · by_cases hu : u = t
    · rw [hu, hf.isProtected]
      exact h.isProtected t
    · rw [hother u hu]
      exact h.isProtected u
  · by_cases hu : u = t
    · subst hu
      refine ⟨fun d hd => ?_, fun d _ _ => by rw [hf.release], fun hp => ?_, fun hacc => ?_,
        .inl (by rw [Mem.handleWrite_priv hm])⟩
      · rw [hf.dirty, Space.mem_insertDirty, or_iff_right]
        rintro rfl
        exact hq (hf.pageNo.symm.trans hd)
      · rwa [hf.prot, Function.update_of_ne (Ne.symm hq)] at hp
      · exact (Mem.handleWrite_written hm hacc).resolve_right fun hc => hq hc.1.symm
    · rw [hother u hu]
      exact .refl p _
  · rw [Mem.handleWrite_content hm, if_neg (fun hc => hq hc.1.symm)]
  · rw [Mem.handleWrite_table hm, if_neg (Ne.symm hq)]
  · rw [hbitmap]

theorem record_commit_of_ne (h : Merging p v B s) (hd : (s.mem.spaces t).dirty[k]? = some d)
    (hp : d.pageNo ≠ p) (hfit : WriterSession.TwinFits p s.mem d.pageNo)
    (hm : s.mem.commitEntry t k = some m') : Merging p v B { s with mem := m' } := by
  obtain ⟨d', hc⟩ := Mem.commitEntry_space hm
  obtain rfl : d = d' := Option.some.inj (hd.symm.trans hc.getElem)
  obtain ⟨d', n, hd', hn, hbitmap, htable⟩ := Mem.commitEntry_table hm
  obtain rfl : d = d' := Option.some.inj (hd.symm.trans hd')
  obtain ⟨d', b, hd', -, hcontent⟩ := Mem.commitEntry_content hm
  obtain rfl : d = d' := Option.some.inj (hd.symm.trans hd')
  have hother : ∀ u, u ≠ t → (s.mem.spaces u).SameDirty (m'.spaces u) := fun u hu =>
    Mem.commitEntry_spaces_of_ne hm hu
  have hmem : d ∈ (s.mem.spaces t).dirty := List.mem_of_getElem? hd
  refine h.frame (fun u => ?_) (fun u => ?_) (fun u => .inl ?_) ?_ ?_ ?_ (fun hi => ?_)
  · by_cases hu : u = t
    · rw [hu]
      exact (h.tidy t).of_committed hc
    · exact (h.tidy u).of_sameDirty (hother u hu)
  · by_cases hu : u = t
    · rw [hu, hc.isProtected]
      exact h.isProtected t
    · rw [(hother u hu).isProtected]
      exact h.isProtected u
  · by_cases hu : u = t
    · subst hu
      refine ⟨fun x hx => ?_, fun x hx hxp => ?_, fun hw => by rwa [hc.prot] at hw, hc.written p,
        .inl (by rw [Mem.commitEntry_priv hm])⟩
      · rw [(h.tidy u).mem_committed hc]
        constructor
        · rintro (rfl | hx')
          · exact absurd hx hp
          · exact hx'.1
        · exact fun hx' => .inr ⟨hx', fun he => hp (he.symm.trans hx)⟩
      · have hslot : x.slot ≠ d.slot := fun he => by
          have := List.inj_on_of_nodup_map (h.tidy u).slot_nodup hx hmem he
          exact hp (this ▸ hxp)
        rw [hc.release, Function.update_of_ne hslot]
    · exact .of_sameDirty (hother u hu) (.inl (by rw [Mem.commitEntry_priv hm]))
  · rw [hcontent p, if_neg (fun hc => hp hc.1.symm)]
  · rw [htable p, if_pos (.inl (Ne.symm hp)), Mem.ensureTwin_table hn, if_neg (Ne.symm hp)]
  · rw [hbitmap]
    exact Mem.ensureTwin_cur hn
  · rw [hbitmap]
    by_cases hc : 1 < (s.mem.pages d.pageNo).users ∧ (s.mem.pages d.pageNo).bitmapIndex = 0
    · rw [Mem.ensureTwin, if_pos hc] at hn
      have hslot := hfit hc
      rw [if_neg hp] at hslot
      exact Mem.createTwinPage_twin_of_ne hn (h.twin hi).1 (hslot hi)
    · rw [Mem.ensureTwin, if_neg hc, Option.some.injEq] at hn
      rw [hn]

theorem owner_eq (h : Merging p v B s) : (s.mem.pages p).owner = .shared := h.owner

/-- Every step of the scenario whose versions and twins fit keeps the invariant. -/
theorem step {s' : WriterSession} {a : Act} (h : Merging p v B s)
    (hsc : WriterSession.Scenario p s a) (hfit : WriterSession.VersionFits p s a)
    (hs : s.step p a = some s') : Merging p v B s' := by
  unfold WriterSession.step at hs
  rw [Option.map_eq_some_iff] at hs
  obtain ⟨m', hm, rfl⟩ := hs
  cases a with
  | load t a =>
      simp only [Mem.step, Option.ite_none_right_eq_some, Option.some.injEq] at hm
      obtain ⟨-, rfl⟩ := hm
      exact h
  | store t as f =>
      simp only [Mem.step, Option.ite_none_right_eq_some, Option.some.injEq] at hm
      obtain ⟨hw, rfl⟩ := hm
      refine h.frame_sameDirty (fun u => Mem.storeBytes_sameDirty s.mem t u _ as) (fun u => ?_)
        (Mem.storeBytes_content (h.isProtected t)) (Mem.storeBytes_table _ as)
        (Mem.storeBytes_bitmap _ as)
      by_cases hu : ∀ a ∈ as, a.page ≠ p ∨ u ≠ t
      · exact .inl (Mem.storeBytes_priv hu)
      · push Not at hu
        obtain ⟨a, ha, rfl, rfl⟩ := hu
        exact .inr (h.listed u (hw a ha))
  | fault t q =>
      simp only [Mem.step, Option.ite_none_right_eq_some] at hm
      obtain ⟨⟨hw, ha⟩, hm⟩ := hm
      by_cases hq : q = p
      · subst hq
        obtain ⟨hlast, hlen⟩ := hsc rfl
        exact h.record_fault hlast hlen (hfit rfl) hw ha hm
      · rw [WriterSession.record, if_neg hq]
        exact h.record_fault_of_ne hq hw ha hm
  | notify t q =>
      simp only [Mem.step, Option.ite_none_right_eq_some, Option.some.injEq] at hm
      obtain ⟨-, rfl⟩ := hm
      exact h.frame_sameDirty (fun u => Mem.notifyOwnerToCommit_sameDirty s.mem t u q)
        (fun u => .inl (by rw [Mem.notifyOwnerToCommit_priv])) Mem.notifyOwnerToCommit_content
        (Mem.notifyOwnerToCommit_table h.owner_eq) Mem.notifyOwnerToCommit_bitmap
  | mprotectRead t q =>
      have htidy := Mem.tidy_step (a := .mprotectRead t q) h.tidy trivial hm
      simp only [Mem.step, Option.ite_none_right_eq_some, Option.some.injEq] at hm
      obtain ⟨-, rfl⟩ := hm
      refine h.frame htidy (fun u => ?_) (fun u => .inl ?_) rfl rfl le_rfl (fun _ => rfl)
      · by_cases hu : u = t
        · subst hu
          simpa [Mem.mprotectRead, Space.setAccess, Space.setProt] using h.isProtected u
        · simpa [Mem.mprotectRead, hu] using h.isProtected u
      · by_cases hu : u = t
        · subst hu
          simp only [Mem.mprotectRead, Mem.setSpace_spaces_same]
          refine ⟨fun _ _ => Iff.rfl, fun _ _ _ => rfl, fun hp => ?_, fun hp => ?_, .inl rfl⟩
          · by_cases hq : p = q
            · simp [Space.setProt, hq] at hp
            · simpa [Space.setProt, Space.setAccess, hq] using hp
          · by_cases hq : p = q
            · simp [Space.setProt, Space.setAccess, hq] at hp
            · simpa [Space.setProt, Space.setAccess, hq] using hp
        · rw [Mem.mprotectRead, Mem.setSpace_spaces_of_ne _ _ _ _ hu]
          exact .refl p _
  | setWord t o w =>
      simp only [Mem.step, Option.ite_none_right_eq_some, Option.some.injEq] at hm
      obtain ⟨hw, rfl⟩ := hm
      refine h.frame_sameDirty (fun u => Mem.storeWord_sameDirty s.mem t u _ _ _) (fun u => ?_)
        ?_ (Mem.storeWord_table _ _) (Mem.storeWord_bitmap _ _)
      · rw [Mem.storeWord_priv]
        split
        · rename_i hc
          obtain ⟨rfl, rfl, -⟩ := hc
          exact .inr (h.listed u hw)
        · exact .inl rfl
      · rw [Mem.storeWord_content, if_neg (by simp [h.isProtected t])]
  | memWrite t o w =>
      obtain rfl := Option.some.inj hm
      exact h.frame_sameDirty (fun u => .refl _) (fun u => .inl rfl)
        (by rw [Mem.memWrite_content, if_neg (Ne.symm hsc)]) (Mem.memWrite_table o w) rfl
  | commitEntry t k =>
      obtain ⟨d, -, hd, -, -⟩ := Mem.commitEntry_cases hm
      have hfit := hfit d hd
      by_cases hp : d.pageNo = p
      · obtain ⟨hproc, hlast⟩ := hsc d hd hp
        exact h.record_commit hlast (hp ▸ hfit) hd hp hproc hm
      · have hrec : s.record p m' (.commitEntry t k) = { s with mem := m' } := by
          simp [WriterSession.record, hd, hp]
        rw [hrec]
        exact h.record_commit_of_ne hd hp hfit hm
  | begin t =>
      obtain rfl := Option.some.inj hm
      exact h.record_begin hsc
  | finalcommit t q r =>
      simp only [Mem.step, Option.ite_none_right_eq_some, Option.some.injEq] at hm
      obtain ⟨ho, rfl⟩ := hm
      have hq : p ≠ q := by
        rintro rfl
        exact Owner.noConfusion (h.owner_eq.symm.trans ho)
      exact h.frame_sameDirty (fun u => Mem.finalcommitPage_sameDirty s.mem t u q r)
        (fun u => .inl (by rw [Mem.finalcommitPage_priv, if_neg (fun hc => hq hc.2.2)]))
        (by rw [Mem.finalcommitPage_content, if_neg hq]) (Mem.finalcommitPage_table r hq)
        (Mem.finalcommitPage_bitmap r)
  | superblock t n => exact hsc.elim
  | signal t q =>
      simp only [Mem.step, Option.ite_none_right_eq_some, Option.some.injEq] at hm
      obtain ⟨-, rfl⟩ := hm
      have hq : p ≠ q := Ne.symm hsc
      exact h.frame_sameDirty (fun u => Mem.signalHandler_sameDirty s.mem t u q)
        (fun u => .inl (by rw [Mem.signalHandler_priv, if_neg (fun hc => hq hc.2)]))
        (by rw [Mem.signalHandler_content, if_neg hq]) (Mem.signalHandler_table hq)
        Mem.signalHandler_bitmap
  | cleanup => exact hsc.elim
  | openProtection t => exact hsc.elim
  | closeProtection t => exact hsc.elim
  | fork t child => exact hsc.elim
  | exit t =>
      obtain rfl := Option.some.inj hm
      exact h.frame_sameDirty (fun u => .refl _) (fun u => .inl rfl) rfl rfl rfl

end Merging

end Dthreads.Memory
