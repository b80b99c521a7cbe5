import Mathlib.Data.List.Cycle
import Mathlib.Logic.Function.Basic

/-! # Circular lists in one store

Disjoint circular lists that share one store of `next` and `prev` pointers, and what the pointer
updates of insertion, removal and splicing do to them. -/

namespace Dthreads.Ring

variable {ι κ : Type*} {next prev next' prev' : ι → ι}

/-- `b` follows `a`. -/
def Links (next prev : ι → ι) (a b : ι) : Prop := next a = b ∧ prev b = a

/-! ## One list -/

/-- A list keeps its links when only its last `next` and its first `prev` change. -/
theorem isChain_frame {X : List ι} (h : X.IsChain (Links next prev)) (hX : X.Nodup)
    (hn : ∀ a ∈ X, X.getLast? ≠ some a → next' a = next a)
    (hp : ∀ b ∈ X, X.head? ≠ some b → prev' b = prev b) : X.IsChain (Links next' prev') := by
  induction X with
  | nil => exact .nil
  | cons a X ih =>
      cases X with
      | nil => exact .singleton a
      | cons b X =>
          rw [List.isChain_cons_cons] at h ⊢
          obtain ⟨ha, hX⟩ := List.nodup_cons.mp hX
          have hlast : (a :: b :: X).getLast? = (b :: X).getLast? := by simp
          refine ⟨⟨?_, ?_⟩, ih h.2 hX (fun c hc hne => ?_) fun c hc hne => ?_⟩
          · refine (hn a List.mem_cons_self fun hl => ha ?_).trans h.1.1
            exact List.mem_of_getLast? (hlast ▸ hl)
          · refine (hp b (by simp) fun hl => ha ?_).trans h.1.2
            rw [List.head?_cons, Option.some.injEq] at hl
            exact hl ▸ List.mem_cons_self
          · exact hn c (List.mem_cons_of_mem a hc) (hlast ▸ hne)
          · refine hp c (List.mem_cons_of_mem a hc) fun hl => ha ?_
            rw [List.head?_cons, Option.some.injEq] at hl
            exact hl ▸ hc

/-- A circular list keeps its links when none of its pointers change. -/
theorem chain_frame {X : List ι} (h : (X : Cycle ι).Chain (Links next prev))
    (hn : ∀ a ∈ X, next' a = next a) (hp : ∀ b ∈ X, prev' b = prev b) :
    (X : Cycle ι).Chain (Links next' prev') := by
  cases X with
  | nil => trivial
  | cons a X =>
      rw [Cycle.chain_coe_cons] at h ⊢
      refine h.imp_of_mem_imp fun x y hx hy hr => ?_
      have hmem : ∀ {x}, x ∈ a :: (X ++ [a]) → x ∈ a :: X := by
        intro x hx
        simpa [or_comm, or_assoc] using hx
      exact ⟨(hn x (hmem hx)).trans hr.1, (hp y (hmem hy)).trans hr.2⟩

/-- The list may be entered at any member. -/
theorem coe_append_cons (l₁ l₂ : List ι) (z : ι) :
    ((l₁ ++ z :: l₂ : List ι) : Cycle ι) = ((z :: (l₂ ++ l₁) : List ι) : Cycle ι) :=
  Cycle.coe_eq_coe.mpr (by simpa using @List.isRotated_append _ l₁ (z :: l₂))

/-- What follows a member. -/
theorem head?_of_chain {X : List ι} {z : ι} (h : ((z :: X : List ι) : Cycle ι).Chain (Links next prev)) :
    (X ++ [z]).head? = some (next z) ∧ prev (next z) = z := by
  rw [Cycle.chain_coe_cons] at h
  cases X with
  | nil =>
      rw [List.nil_append, List.isChain_pair] at h
      exact ⟨by simp [h.1], by rw [h.1, h.2]⟩
  | cons x X =>
      rw [List.cons_append, List.isChain_cons_cons] at h
      exact ⟨by simp [h.1.1], by rw [h.1.1, h.1.2]⟩

/-- What precedes the head. -/
theorem getLast?_of_chain {X : List ι} {z : ι}
    (h : ((z :: X : List ι) : Cycle ι).Chain (Links next prev)) :
    (z :: X).getLast? = some (prev z) ∧ next (prev z) = z := by
  rw [Cycle.chain_coe_cons, ← List.cons_append, List.isChain_append] at h
  obtain ⟨y, hy⟩ := Option.isSome_iff_exists.mp
    (List.getLast?_isSome.mpr (List.cons_ne_nil z X))
  have hr := h.2.2 y hy z (by simp)
  exact ⟨by rw [hy, hr.2], by rw [hr.2, hr.1]⟩

/-- The head leads to every member, within the length of the list. -/
theorem iterate_of_isChain {X : List ι} {z i : ι} (h : (z :: X).IsChain (Links next prev))
    (hi : i ∈ z :: X) : ∃ n < (z :: X).length, next^[n] z = i := by
  induction X generalizing z with
  | nil => exact ⟨0, Nat.zero_lt_one, (List.mem_singleton.mp hi).symm⟩
  | cons x X ih =>
      rw [List.isChain_cons_cons] at h
      rcases List.mem_cons.mp hi with rfl | hi
      · exact ⟨0, Nat.zero_lt_succ _, rfl⟩
      · obtain ⟨n, hlt, hn⟩ := ih h.2 hi
        exact ⟨n + 1, Nat.succ_lt_succ hlt, by rw [Function.iterate_succ_apply, h.1.1, hn]⟩

section Updates

variable [DecidableEq ι]

/-- Insert the list from `s` to `t` after `z`. -/
theorem chain_splice {z s : ι} {X S : List ι}
    (h : ((z :: X : List ι) : Cycle ι).Chain (Links next prev))
    (hS : ((s :: S : List ι) : Cycle ι).Chain (Links next prev))
    (hnd : (z :: (s :: S ++ X)).Nodup) :
    ((z :: (s :: S ++ X) : List ι) : Cycle ι).Chain (Links
      (Function.update (Function.update next (prev s) (next z)) z s)
      (Function.update (Function.update prev (next z) (prev s)) s z)) := by
  obtain ⟨hhead, -⟩ := head?_of_chain h
  obtain ⟨hlast, -⟩ := getLast?_of_chain hS
  rw [Cycle.chain_coe_cons] at h
  rw [Cycle.chain_coe_cons, ← List.cons_append] at hS
  obtain ⟨hz, hnd⟩ := List.nodup_cons.mp hnd
  obtain ⟨hSn, hXn, hdis⟩ := List.nodup_append.mp hnd
  have hzS : z ∉ s :: S := fun hm => hz (List.mem_append_left _ hm)
  have hzX : z ∉ X := fun hm => hz (List.mem_append_right _ hm)
  have hnext : next z ∈ X ++ [z] := List.mem_of_head? hhead
  have hts : prev s ∈ s :: S := List.mem_of_getLast? hlast
  have hXz : (X ++ [z]).Nodup := by
    rw [List.nodup_append]
    refine ⟨hXn, List.nodup_singleton z, fun a ha b hb hab => ?_⟩
    rw [List.mem_singleton] at hb
    exact hzX (hb ▸ hab ▸ ha)
  have hout : ∀ {a}, a ∈ X ++ [z] → a ∉ s :: S := by
    intro a ha hS
    rcases List.mem_append.mp ha with ha | ha
    · exact hdis a hS a ha rfl
    · exact hzS (List.mem_singleton.mp ha ▸ hS)
  rw [Cycle.chain_coe_cons, List.cons_append, List.cons_append, List.append_assoc,
    List.isChain_cons_cons, ← List.cons_append, List.isChain_append]
  refine ⟨⟨by simp, by simp⟩, ?_, ?_, ?_⟩
  · refine isChain_frame hS.left_of_append hSn (fun a ha hne => ?_) fun b hb hne => ?_
    · have haz : a ≠ z := by rintro rfl; exact hzS ha
      have hal : a ≠ prev s := by rintro rfl; exact hne hlast
      rw [Function.update_of_ne haz, Function.update_of_ne hal]
    · have hbs : b ≠ s := by rintro rfl; exact hne rfl
      have hbz : b ≠ next z := by rintro rfl; exact hout hnext hb
      rw [Function.update_of_ne hbs, Function.update_of_ne hbz]
  · refine isChain_frame (List.IsChain.tail h) hXz (fun a ha hne => ?_) fun b hb hne => ?_
    · have haz : a ≠ z := by rintro rfl; exact hne (by simp)
      have hal : a ≠ prev s := by rintro rfl; exact hout ha hts
      rw [Function.update_of_ne haz, Function.update_of_ne hal]
    · have hbs : b ≠ s := by rintro rfl; exact hout hb List.mem_cons_self
      have hbz : b ≠ next z := by rintro rfl; exact hne hhead
      rw [Function.update_of_ne hbs, Function.update_of_ne hbz]
  · intro x hx y hy
    rw [hlast] at hx
    rw [hhead] at hy
    obtain rfl := Option.some.inj hx
    obtain rfl := Option.some.inj hy
    have hlz : prev s ≠ z := by intro he; exact hzS (he ▸ hts)
    have hns : next z ≠ s := by intro he; exact hout hnext (he ▸ List.mem_cons_self)
    exact ⟨by rw [Function.update_of_ne hlz, Function.update_self],
      by rw [Function.update_of_ne hns, Function.update_self]⟩

/-- Take the head out. -/
theorem chain_remove {e : ι} {X : List ι}
    (h : ((e :: X : List ι) : Cycle ι).Chain (Links next prev)) (hnd : (e :: X).Nodup) :
    (X : Cycle ι).Chain (Links (Function.update next (prev e) (next e))
      (Function.update prev (next e) (prev e))) := by
  cases X with
  | nil => trivial
  | cons x X =>
      obtain ⟨hhead, -⟩ := head?_of_chain h
      obtain ⟨hlast, -⟩ := getLast?_of_chain h
      obtain ⟨he, hX⟩ := List.nodup_cons.mp hnd
      rw [Cycle.chain_coe_cons] at h
      have hx : next e = x := by simpa using hhead.symm
      rw [List.getLast?_cons_cons] at hlast
      rw [Cycle.chain_coe_cons, ← List.cons_append, List.isChain_append]
      refine ⟨isChain_frame (List.IsChain.left_of_append (List.IsChain.tail h)) hX
        (fun a ha hne => ?_) fun b hb hne => ?_, List.isChain_singleton x, ?_⟩
      · have hal : a ≠ prev e := by rintro rfl; exact hne hlast
        exact Function.update_of_ne hal ..
      · have hbx : b ≠ next e := by rintro rfl; exact hne (by rw [hx]; rfl)
        exact Function.update_of_ne hbx ..
      · intro a ha b hb
        rw [hlast] at ha
        obtain rfl := Option.some.inj ha
        obtain rfl : x = b := by simpa using hb
        exact ⟨by rw [Function.update_self, hx], by rw [hx, Function.update_self]⟩

end Updates

/-! ## Disjoint lists -/

/-- Disjoint circular lists, each given by its members in order from its head. -/
structure Rings (next prev : ι → ι) (ls : κ → List ι) : Prop where
  chain : ∀ q, (ls q : Cycle ι).Chain (Links next prev)
  nodup : ∀ q, (ls q).Nodup
  disjoint : ∀ {q q' i}, i ∈ ls q → i ∈ ls q' → q = q'

namespace Rings

variable {ls : κ → List ι} {q q' : κ} {l₁ l₂ : List ι} {e z s : ι}

theorem chain_rotate (H : Rings next prev ls) (hq : ls q = l₁ ++ z :: l₂) :
    ((z :: (l₂ ++ l₁) : List ι) : Cycle ι).Chain (Links next prev) := by
  rw [← coe_append_cons, ← hq]
  exact H.chain q

theorem next_mem (H : Rings next prev ls) (hz : z ∈ ls q) : next z ∈ ls q := by
  obtain ⟨l₁, l₂, hq⟩ := List.append_of_mem hz
  have hm := List.mem_of_head? (head?_of_chain (H.chain_rotate hq)).1
  rw [hq]
  simp only [List.mem_append, List.mem_cons] at hm ⊢
  tauto

theorem prev_mem (H : Rings next prev ls) (hz : z ∈ ls q) : prev z ∈ ls q := by
  obtain ⟨l₁, l₂, hq⟩ := List.append_of_mem hz
  have hm := List.mem_of_getLast? (getLast?_of_chain (H.chain_rotate hq)).1
  rw [hq]
  simp only [List.mem_append, List.mem_cons] at hm ⊢
  tauto

/-- The last member precedes the head. -/
theorem prev_head (H : Rings next prev ls) (hq : (ls q).head? = some z) :
    (ls q).getLast? = some (prev z) ∧ next (prev z) = z := by
  obtain ⟨X, hX⟩ := List.head?_eq_some_iff.mp hq
  have h := getLast?_of_chain (H.chain_rotate (show ls q = [] ++ z :: X from hX))
  rw [List.append_nil] at h
  rwa [hX]

/-- The members are what the head leads to. -/
theorem mem_iff_iterate (H : Rings next prev ls) (hq : (ls q).head? = some z) {i : ι} {k : ℕ}
    (hk : (ls q).length ≤ k) : i ∈ ls q ↔ ∃ n < k, next^[n] z = i := by
  constructor
  · obtain ⟨X, hX⟩ := List.head?_eq_some_iff.mp hq
    have hc := H.chain q
    rw [hX, Cycle.chain_coe_cons, ← List.cons_append] at hc
    intro hi
    rw [hX] at hi hk
    obtain ⟨n, hlt, hn⟩ := iterate_of_isChain hc.left_of_append hi
    exact ⟨n, hlt.trans_le hk, hn⟩
  · rintro ⟨n, -, rfl⟩
    induction n with
    | zero => exact List.mem_of_head? hq
    | succ n ih =>
        rw [Function.iterate_succ_apply']
        exact H.next_mem ih

/-- A member on its own has no other neighbour. -/
theorem alone_iff (H : Rings next prev ls) (hq : ls q = l₁ ++ e :: l₂) :
    prev e = e ∧ next e = e ↔ l₁ ++ l₂ = [] := by
  have hc := H.chain_rotate hq
  have hh := (head?_of_chain hc).1
  have hl := (getLast?_of_chain hc).1
  constructor
  · rintro ⟨-, hn⟩
    by_contra hne
    have hne' : l₂ ++ l₁ ≠ [] := fun h => hne (by simpa [and_comm] using h)
    obtain ⟨x, hx⟩ := Option.isSome_iff_exists.mp (List.isSome_head?.mpr hne')
    rw [List.head?_append, hx, Option.some_or, Option.some.injEq, hn] at hh
    have hmem := List.mem_of_head? hx
    have hnd : (e :: (l₁ ++ l₂)).Nodup := List.nodup_middle.mp (hq ▸ H.nodup q)
    refine (List.nodup_cons.mp hnd).1 (hh ▸ ?_)
    simpa [or_comm] using hmem
  · intro h
    obtain ⟨rfl, rfl⟩ := List.append_eq_nil_iff.mp h
    exact ⟨by simpa using hl.symm, by simpa using hh.symm⟩

/-! ## Pointer updates -/

variable [DecidableEq κ]

/-- One list is replaced, and the pointers of the others stay. -/
theorem replace (H : Rings next prev ls) {X : List ι}
    (hX : (X : Cycle ι).Chain (Links next' prev')) (hnd : X.Nodup)
    (hmem : ∀ i ∈ X, ∀ q', q' ≠ q → i ∉ ls q')
    (hn : ∀ q', q' ≠ q → ∀ i ∈ ls q', next' i = next i)
    (hp : ∀ q', q' ≠ q → ∀ i ∈ ls q', prev' i = prev i) :
    Rings next' prev' (Function.update ls q X) where
  chain q' := by
    by_cases h : q' = q
    · subst h
      rwa [Function.update_self]
    · rw [Function.update_of_ne h]
      exact chain_frame (H.chain q') (hn q' h) (hp q' h)
  nodup q' := by
    by_cases h : q' = q
    · subst h
      rwa [Function.update_self]
    · rw [Function.update_of_ne h]
      exact H.nodup q'
  disjoint := by
    intro a b i ha hb
    by_cases haq : a = q <;> by_cases hbq : b = q
    · rw [haq, hbq]
    · rw [haq, Function.update_self] at ha
      rw [Function.update_of_ne hbq] at hb
      exact absurd hb (hmem i ha b hbq)
    · rw [hbq, Function.update_self] at hb
      rw [Function.update_of_ne haq] at ha
      exact absurd ha (hmem i hb a haq)
    · rw [Function.update_of_ne haq] at ha
      rw [Function.update_of_ne hbq] at hb
      exact H.disjoint ha hb

/-- A list may be read from another member on. -/
theorem rotate (H : Rings next prev ls) (hq : ls q = l₁ ++ l₂) :
    Rings next prev (Function.update ls q (l₂ ++ l₁)) := by
  refine H.replace ?_ ?_ (fun i hi q' hq' hi' => hq' (H.disjoint hi' ?_)) (fun _ _ _ _ => rfl)
    fun _ _ _ _ => rfl
  · rw [Cycle.coe_eq_coe.mpr List.isRotated_append, ← hq]
    exact H.chain q
  · exact (List.Perm.nodup_iff List.perm_append_comm).mp (hq ▸ H.nodup q)
  · rw [hq, List.mem_append, or_comm, ← List.mem_append]
    exact hi

variable [DecidableEq ι]

/-- An unlisted element becomes a list of its own. -/
theorem single (H : Rings next prev ls) (he : ∀ q, e ∉ ls q) :
    Rings (Function.update next e e) (Function.update prev e e) (Function.update ls q [e]) := by
  have hne : ∀ q', ∀ i ∈ ls q', i ≠ e := fun q' i hi h => he q' (h ▸ hi)
  refine H.replace ?_ (List.nodup_singleton e) (fun i hi q' _ => ?_)
    (fun q' _ i hi => Function.update_of_ne (hne q' i hi) ..)
    fun q' _ i hi => Function.update_of_ne (hne q' i hi) ..
  · rw [Cycle.chain_singleton]
    exact ⟨Function.update_self .., Function.update_self ..⟩
  · rw [List.mem_singleton.mp hi]
    exact he q'

/-- An unlisted element is inserted after a member. -/
theorem insert (H : Rings next prev ls) (he : ∀ q, e ∉ ls q) (hq : ls q = l₁ ++ z :: l₂) :
    Rings (Function.update (Function.update next e (next z)) z e)
      (Function.update (Function.update prev (next z) e) e z)
      (Function.update ls q (l₁ ++ z :: e :: l₂)) := by
  have hne : ∀ q', ∀ i ∈ ls q', i ≠ e := fun q' i hi h => he q' (h ▸ hi)
  have hz : z ∈ ls q := by simp [hq]
  have hnz := H.next_mem hz
  have hother : ∀ q', q' ≠ q → ∀ i ∈ ls q', ∀ j ∈ ls q, i ≠ j := fun q' hq' i hi j hj h =>
    hq' (H.disjoint hi (h ▸ hj))
  have hmem : ∀ i ∈ l₁ ++ z :: e :: l₂, i = e ∨ i ∈ ls q := by
    intro i hi
    rw [hq]
    simp only [List.mem_append, List.mem_cons] at hi ⊢
    tauto
  have hX : ((z :: (l₂ ++ l₁) : List ι) : Cycle ι).Chain
      (Links (Function.update next e e) (Function.update prev e e)) := by
    have hin : ∀ i ∈ z :: (l₂ ++ l₁), i ≠ e := fun i hi => hne q i (by
      rw [hq]
      simp only [List.mem_append, List.mem_cons] at hi ⊢
      tauto)
    exact chain_frame (H.chain_rotate hq) (fun i hi => Function.update_of_ne (hin i hi) ..)
      fun i hi => Function.update_of_ne (hin i hi) ..
  have hS : (([e] : List ι) : Cycle ι).Chain
      (Links (Function.update next e e) (Function.update prev e e)) := by
    rw [Cycle.chain_singleton]
    exact ⟨Function.update_self .., Function.update_self ..⟩
  have hnd : (l₁ ++ z :: e :: l₂).Nodup := by
    have h0 : (e :: (l₁ ++ z :: l₂)).Nodup := List.nodup_cons.mpr ⟨hq ▸ he q, hq ▸ H.nodup q⟩
    have hp := (@List.perm_middle _ e (l₁ ++ [z]) l₂).symm
    exact (List.Perm.nodup_iff (by simpa using hp)).mp h0
  have hrot : (z :: ([e] ++ (l₂ ++ l₁))).Nodup := by
    refine (List.Perm.nodup_iff ?_).mp hnd
    simpa using @List.perm_append_comm _ l₁ (z :: e :: l₂)
  have hsp := chain_splice hX hS hrot
  rw [Function.update_self, Function.update_idem, Function.update_of_ne (hne q z hz),
    Function.update_comm (hne q _ hnz), Function.update_idem,
    Function.update_comm (hne q _ hnz).symm] at hsp
  refine H.replace ?_ hnd (fun i hi q' hq' => ?_) (fun q' hq' i hi => ?_) fun q' hq' i hi => ?_
  · rw [coe_append_cons]
    exact hsp
  · rcases hmem i hi with rfl | hi
    · exact he q'
    · exact fun hi' => hother q' hq' i hi' i hi rfl
  · rw [Function.update_of_ne (hother q' hq' i hi z hz), Function.update_of_ne (hne q' i hi)]
  · rw [Function.update_of_ne (hne q' i hi), Function.update_of_ne (hother q' hq' i hi _ hnz)]

/-- A member is taken out. -/
theorem remove (H : Rings next prev ls) (hq : ls q = l₁ ++ e :: l₂) :
    Rings (Function.update next (prev e) (next e)) (Function.update prev (next e) (prev e))
      (Function.update ls q (l₁ ++ l₂)) := by
  have he : e ∈ ls q := by simp [hq]
  have hother : ∀ q', q' ≠ q → ∀ i ∈ ls q', ∀ j ∈ ls q, i ≠ j := fun q' hq' i hi j hj h =>
    hq' (H.disjoint hi (h ▸ hj))
  have hnd : (e :: (l₁ ++ l₂)).Nodup := List.nodup_middle.mp (hq ▸ H.nodup q)
  have hrot : (e :: (l₂ ++ l₁)).Nodup :=
    (List.Perm.nodup_iff (List.Perm.cons e List.perm_append_comm)).mp hnd
  refine H.replace ?_ (List.nodup_cons.mp hnd).2 (fun i hi q' hq' => ?_)
    (fun q' hq' i hi => Function.update_of_ne (hother q' hq' i hi _ (H.prev_mem he)) ..)
    fun q' hq' i hi => Function.update_of_ne (hother q' hq' i hi _ (H.next_mem he)) ..
  · rw [Cycle.coe_eq_coe.mpr List.isRotated_append]
    exact chain_remove (H.chain_rotate hq) hrot
  · refine fun hi' => hother q' hq' i hi' i ?_ rfl
    rw [hq]
    simp only [List.mem_append, List.mem_cons] at hi ⊢
    tauto

/-- A member that is taken out is in no list. -/
theorem not_mem_remove (H : Rings next prev ls) (hq : ls q = l₁ ++ e :: l₂) (q' : κ) :
    e ∉ Function.update ls q (l₁ ++ l₂) q' := by
  by_cases h : q' = q
  · subst h
    rw [Function.update_self]
    exact (List.nodup_cons.mp (List.nodup_middle.mp (hq ▸ H.nodup q'))).1
  · rw [Function.update_of_ne h]
    exact fun hm => h (H.disjoint hm (by rw [hq]; simp))

/-- A whole list is moved behind a member of another one. -/
theorem move (H : Rings next prev ls) (hne : q' ≠ q) (hq : ls q = l₁ ++ z :: l₂)
    (hq' : (ls q').head? = some s) :
    Rings (Function.update (Function.update next (prev s) (next z)) z s)
      (Function.update (Function.update prev (next z) (prev s)) s z)
      (Function.update (Function.update ls q' []) q (l₁ ++ z :: (ls q' ++ l₂))) := by
  obtain ⟨S, hS⟩ := List.head?_eq_some_iff.mp hq'
  have hz : z ∈ ls q := by simp [hq]
  have hs : s ∈ ls q' := by simp [hS]
  have H' : Rings next prev (Function.update ls q' []) :=
    H.replace trivial List.nodup_nil (fun _ hi => absurd hi List.not_mem_nil)
      (fun _ _ _ _ => rfl) fun _ _ _ _ => rfl
  have hsub : ∀ {a i}, i ∈ Function.update ls q' [] a → a ≠ q' ∧ i ∈ ls a := by
    intro a i hi
    by_cases ha : a = q'
    · subst ha
      simp at hi
    · rw [Function.update_of_ne ha] at hi
      exact ⟨ha, hi⟩
  have hq1 : Function.update ls q' [] q = l₁ ++ z :: l₂ := by
    rw [Function.update_of_ne hne.symm, hq]
  have hnd : (l₁ ++ z :: (ls q' ++ l₂)).Nodup := by
    have h0 : (ls q' ++ ls q).Nodup := List.nodup_append.mpr
      ⟨H.nodup q', H.nodup q, fun i hi j hj h => hne (H.disjoint hi (h ▸ hj))⟩
    refine (List.Perm.nodup_iff ?_).mp h0
    rw [hq]
    simpa using List.perm_append_comm_assoc (ls q') (l₁ ++ [z]) l₂
  have hrot : (z :: (s :: S ++ (l₂ ++ l₁))).Nodup := by
    refine (List.Perm.nodup_iff ?_).mp hnd
    rw [hS]
    simpa using @List.perm_append_comm _ l₁ (z :: s :: (S ++ l₂))
  have hout : ∀ a, a ≠ q → ∀ i ∈ Function.update ls q' [] a, ∀ j, j ∈ ls q ∨ j ∈ ls q' → i ≠ j := by
    rintro a ha i hi j hj rfl
    obtain ⟨haq, hi⟩ := hsub hi
    exact hj.elim (fun hj => ha (H.disjoint hi hj)) fun hj => haq (H.disjoint hi hj)
  refine H'.replace ?_ hnd (fun i hi a ha hi' => ?_) (fun a ha i hi => ?_) fun a ha i hi => ?_
  · rw [coe_append_cons, hS, List.append_assoc]
    exact chain_splice (H.chain_rotate hq) (by rw [← hS]; exact H.chain q') hrot
  · refine hout a ha i hi' i ?_ rfl
    rw [hq]
    simp only [List.mem_append, List.mem_cons] at hi ⊢
    tauto
  · rw [Function.update_of_ne (hout a ha i hi z (.inl hz)),
      Function.update_of_ne (hout a ha i hi _ (.inr (H.prev_mem hs)))]
  · rw [Function.update_of_ne (hout a ha i hi s (.inr hs)),
      Function.update_of_ne (hout a ha i hi _ (.inl (H.next_mem hz)))]

end Rings

end Dthreads.Ring
