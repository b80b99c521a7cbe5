import Dthreads.Scheduler.Queues

/-! # The functions of `list.h`

Contracts over any family of disjoint circular lists, each with its head pointer: the sequence each
function leaves, and the entries it touches. -/

namespace Dthreads.Scheduler.Entries

open Ring

/-- `insertNext`, whose stores come in another order than those of `insertHead`. -/
def insertNext (es : Entries) (e prev : ℕ) : Entries :=
  let next := (es prev).next
  (((es.setPrev next e).setPrev e prev).setNext e next).setNext prev e

/-- The entries, the new head pointer, and the entry that is returned. -/
def removeHeadEntry (es : Entries) : Option ℕ → Entries × Option ℕ × Option ℕ
  | none => (es, none, none)
  | some header =>
      let (es, head) := es.removeEntry header (some header)
      (es, head, some header)

/-- `moveWholeList` with the pointer to its source, which is null afterwards. -/
def moveWholeListFrom (es : Entries) (prev : ℕ) : Option ℕ → Entries × Option ℕ
  | none => (es, none)
  | some srchead => (es.moveWholeList prev (some srchead), none)

/-- Each list of the family with its head pointer. -/
structure Family {κ : Type*} (es : Entries) (heads : κ → Option ℕ) (ls : κ → List ℕ) : Prop where
  linking : es.Linking ls
  heads : ∀ q, heads q = (ls q).head?

/-- Only entries in `M` are touched, and only their links. -/
structure Relinks (es es' : Entries) (M : ℕ → Prop) : Prop where
  outside : ∀ i, ¬ M i → es' i = es i
  data : ∀ i, es' i = { es i with prev := (es' i).prev, next := (es' i).next }

namespace Relinks

variable {es es' es'' : Entries} {M : ℕ → Prop} {i n : ℕ}

theorem refl (es : Entries) (M : ℕ → Prop) : Relinks es es M := ⟨fun _ _ => rfl, fun _ => rfl⟩

theorem setNext (h : Relinks es es' M) (hi : M i) : Relinks es (es'.setNext i n) M where
  outside j hj := by
    have hji : j ≠ i := fun he => hj (he ▸ hi)
    rw [Entries.setNext, Function.update_of_ne hji, h.outside j hj]
  data j := by
    by_cases hji : j = i
    · subst hji
      rw [Entries.setNext, Function.update_self, h.data j]
    · rw [Entries.setNext, Function.update_of_ne hji, ← h.data j]

theorem setPrev (h : Relinks es es' M) (hi : M i) : Relinks es (es'.setPrev i n) M where
  outside j hj := by
    have hji : j ≠ i := fun he => hj (he ▸ hi)
    rw [Entries.setPrev, Function.update_of_ne hji, h.outside j hj]
  data j := by
    by_cases hji : j = i
    · subst hji
      rw [Entries.setPrev, Function.update_self, h.data j]
    · rw [Entries.setPrev, Function.update_of_ne hji, ← h.data j]

end Relinks

variable {κ : Type*} {es : Entries} {heads : κ → Option ℕ} {ls : κ → List ℕ} {q q' : κ} {e z : ℕ}
  {l₁ l₂ : List ℕ}

/-! ## What is touched -/

theorem Linking.insertTail_relinks (H : es.Linking ls) (head : Option ℕ) (hh : head = (ls q).head?) :
    Relinks es (es.insertTail e head).1 fun i => i ∈ ls q ∨ i = e := by
  cases head with
  | none => exact ((Relinks.refl es _).setPrev (.inr rfl)).setNext (.inr rfl)
  | some header =>
      have hm : header ∈ ls q := List.mem_of_head? hh.symm
      exact ((((Relinks.refl es _).setNext (.inl (H.prev_mem hm))).setPrev (.inl hm)).setPrev
        (.inr rfl)).setNext (.inr rfl)

theorem Linking.insertHead_relinks (H : es.Linking ls) (hz : z ∈ ls q) :
    Relinks es (es.insertHead e z) fun i => i ∈ ls q ∨ i = e :=
  ((((Relinks.refl es _).setNext (.inl hz)).setPrev (.inl (H.next_mem hz))).setPrev
    (.inr rfl)).setNext (.inr rfl)

/-- A removed entry keeps its links, for those who still follow them. -/
theorem Linking.removeEntry_relinks (H : es.Linking ls) (head : Option ℕ) (hq : ls q = l₁ ++ e :: l₂) :
    Relinks es (es.removeEntry e head).1 fun i => i ∈ l₁ ++ l₂ := by
  have he : e ∈ ls q := by simp [hq]
  have hin : ∀ i ∈ ls q, i ≠ e → i ∈ l₁ ++ l₂ := by
    intro i hi hne
    rw [hq] at hi
    simpa [hne] using hi
  unfold Entries.removeEntry
  dsimp only
  split
  · exact .refl es _
  · rename_i hal
    have hnext : es.prevs (es.nexts e) = e := (head?_of_chain (H.chain_rotate hq)).2
    have hprev : es.nexts (es.prevs e) = e := (getLast?_of_chain (H.chain_rotate hq)).2
    have hp : es.prevs e ≠ e := fun hp => hal ⟨hp, by rwa [hp] at hprev⟩
    have hn : es.nexts e ≠ e := fun hn => hal ⟨by rwa [hn] at hnext, hn⟩
    exact ((Relinks.refl es _).setNext (hin _ (H.prev_mem he) hp)).setPrev (hin _ (H.next_mem he) hn)

theorem Linking.moveWholeList_relinks (H : es.Linking ls) (head : Option ℕ) (hz : z ∈ ls q)
    (hh : head = (ls q').head?) :
    Relinks es (es.moveWholeList z head) fun i => i ∈ ls q ∨ i ∈ ls q' := by
  cases head with
  | none => exact .refl es _
  | some s =>
      have hs : s ∈ ls q' := List.mem_of_head? hh.symm
      exact ((((Relinks.refl es _).setPrev (.inl (H.next_mem hz))).setPrev (.inr hs)).setNext
        (.inr (H.prev_mem hs))).setNext (.inl hz)

/-! ## The contracts -/

variable [DecidableEq κ]

namespace Family

theorem update (H : es.Family heads ls) {es' : Entries} {X : List ℕ} {h : Option ℕ}
    (hl : es'.Linking (Function.update ls q X)) (hh : h = X.head?) :
    es'.Family (Function.update heads q h) (Function.update ls q X) := by
  refine ⟨hl, fun q' => ?_⟩
  by_cases hq : q' = q
  · subst hq
    rw [Function.update_self, Function.update_self, hh]
  · rw [Function.update_of_ne hq, Function.update_of_ne hq, H.heads]

theorem insertTail (H : es.Family heads ls) (he : ∀ q, e ∉ ls q) :
    (es.insertTail e (heads q)).1.Family (Function.update heads q (es.insertTail e (heads q)).2)
        (Function.update ls q (ls q ++ [e])) ∧
      Relinks es (es.insertTail e (heads q)).1 fun i => i ∈ ls q ∨ i = e := by
  obtain ⟨hl, hh⟩ := H.linking.insertTail (heads q) he (H.heads q)
  exact ⟨H.update hl hh, H.linking.insertTail_relinks (heads q) (H.heads q)⟩

/-- The head pointers stay: the entry goes behind a member. -/
theorem insertHead (H : es.Family heads ls) (he : ∀ q, e ∉ ls q) (hq : ls q = l₁ ++ z :: l₂) :
    (es.insertHead e z).Family heads (Function.update ls q (l₁ ++ z :: e :: l₂)) ∧
      Relinks es (es.insertHead e z) fun i => i ∈ ls q ∨ i = e := by
  have hf := H.update (H.linking.insertHead_at he hq) (h := heads q) (by
    rw [H.heads, hq]
    cases l₁ <;> rfl)
  rw [Function.update_eq_self] at hf
  exact ⟨hf, H.linking.insertHead_relinks (by rw [hq]; simp)⟩

/-- The order of the stores does not matter. -/
theorem insertNext_eq (H : es.Family heads ls) (he : ∀ q, e ∉ ls q) (hz : z ∈ ls q) :
    es.insertNext e z = es.insertHead e z := by
  have hez : e ≠ z := fun h => he q (h ▸ hz)
  have hen : e ≠ (es z).next := fun h => he q (h ▸ H.linking.next_mem hz)
  funext i
  unfold insertNext Entries.insertHead Entries.setNext Entries.setPrev
  by_cases hie : i = e
  · subst hie
    simp [hez, hen]
  · by_cases hiz : i = z
    · subst hiz
      by_cases hin : i = (es i).next
      · simp [hez.symm, ← hin]
      · simp [hie, hin]
    · by_cases hin : i = (es z).next
      · subst hin
        simp [hie, hiz]
      · simp [hie, hiz, hin]

theorem removeEntry (H : es.Family heads ls) (hq : ls q = l₁ ++ e :: l₂) :
    (es.removeEntry e (heads q)).1.Family (Function.update heads q (es.removeEntry e (heads q)).2)
        (Function.update ls q (l₁ ++ l₂)) ∧
      Relinks es (es.removeEntry e (heads q)).1 fun i => i ∈ l₁ ++ l₂ := by
  have hl₁ : e ∉ l₁ := fun h =>
    List.disjoint_of_nodup_append (hq ▸ H.linking.nodup q) h List.mem_cons_self
  have her : (ls q).erase e = l₁ ++ l₂ := by
    rw [hq, List.erase_append_right _ hl₁, List.erase_cons_head]
  have he : e ∈ ls q := by simp [hq]
  obtain ⟨hl, hh⟩ := H.linking.removeEntry (heads q) he (H.heads q)
  rw [her] at hl hh
  exact ⟨H.update hl hh, H.linking.removeEntry_relinks (heads q) hq⟩

theorem moveWholeList (H : es.Family heads ls) (hne : q' ≠ q) (hq : ls q = l₁ ++ z :: l₂) :
    (es.moveWholeListFrom z (heads q')).1.Family
        (Function.update heads q' (es.moveWholeListFrom z (heads q')).2)
        (Function.update (Function.update ls q' []) q (l₁ ++ z :: (ls q' ++ l₂))) ∧
      Relinks es (es.moveWholeListFrom z (heads q')).1 fun i => i ∈ ls q ∨ i ∈ ls q' := by
  have hz : z ∈ ls q := by simp [hq]
  have hes : (es.moveWholeListFrom z (heads q')).1 = es.moveWholeList z (heads q') ∧
      (es.moveWholeListFrom z (heads q')).2 = none := by
    cases heads q' <;> exact ⟨rfl, rfl⟩
  rw [hes.1, hes.2]
  refine ⟨⟨H.linking.moveWholeList_at (heads q') hne hq (H.heads q'), fun a => ?_⟩,
    H.linking.moveWholeList_relinks (heads q') hz (H.heads q')⟩
  by_cases haq : a = q
  · subst haq
    rw [Function.update_self, Function.update_of_ne hne.symm, H.heads, hq]
    cases l₁ <;> rfl
  · rw [Function.update_of_ne haq]
    by_cases haq' : a = q'
    · subst haq'
      rw [Function.update_self, Function.update_self]
      rfl
    · rw [Function.update_of_ne haq', Function.update_of_ne haq', H.heads]

theorem removeHeadEntry (H : es.Family heads ls) :
    (es.removeHeadEntry (heads q)).2.2 = (ls q).head? ∧
      (es.removeHeadEntry (heads q)).1.Family
        (Function.update heads q (es.removeHeadEntry (heads q)).2.1)
        (Function.update ls q (ls q).tail) ∧
      Relinks es (es.removeHeadEntry (heads q)).1 fun i => i ∈ (ls q).tail := by
  cases hX : ls q with
  | nil =>
      have hh : heads q = none := by rw [H.heads, hX]; rfl
      have hheads : Function.update heads q none = heads := by rw [← hh, Function.update_eq_self]
      have hls : Function.update ls q [] = ls := by rw [← hX, Function.update_eq_self]
      rw [hh]
      refine ⟨rfl, ?_, .refl es _⟩
      change es.Family (Function.update heads q none) (Function.update ls q [])
      rw [hheads, hls]
      exact H
  | cons e X =>
      have hh : heads q = some e := by rw [H.heads, hX]; rfl
      obtain ⟨hf, hr⟩ := H.removeEntry (show ls q = [] ++ e :: X from hX)
      rw [hh] at hf hr ⊢
      exact ⟨rfl, hf, hr⟩

end Family

/-- The functions of `list.h` implement cyclic sequences. -/
theorem lists_implemented (H : es.Family heads ls) :
    (∀ q e, (∀ q', e ∉ ls q') →
      (es.insertTail e (heads q)).1.Family (Function.update heads q (es.insertTail e (heads q)).2)
          (Function.update ls q (ls q ++ [e])) ∧
        Relinks es (es.insertTail e (heads q)).1 fun i => i ∈ ls q ∨ i = e) ∧
    (∀ q e z l₁ l₂, (∀ q', e ∉ ls q') → ls q = l₁ ++ z :: l₂ →
      (es.insertHead e z).Family heads (Function.update ls q (l₁ ++ z :: e :: l₂)) ∧
        Relinks es (es.insertHead e z) (fun i => i ∈ ls q ∨ i = e) ∧
        es.insertNext e z = es.insertHead e z) ∧
    (∀ q e l₁ l₂, ls q = l₁ ++ e :: l₂ →
      (es.removeEntry e (heads q)).1.Family (Function.update heads q (es.removeEntry e (heads q)).2)
          (Function.update ls q (l₁ ++ l₂)) ∧
        Relinks es (es.removeEntry e (heads q)).1 fun i => i ∈ l₁ ++ l₂) ∧
    (∀ q, (es.removeHeadEntry (heads q)).2.2 = (ls q).head? ∧
      (es.removeHeadEntry (heads q)).1.Family
          (Function.update heads q (es.removeHeadEntry (heads q)).2.1)
          (Function.update ls q (ls q).tail) ∧
        Relinks es (es.removeHeadEntry (heads q)).1 fun i => i ∈ (ls q).tail) ∧
    (∀ q q' z l₁ l₂, q' ≠ q → ls q = l₁ ++ z :: l₂ →
      (es.moveWholeListFrom z (heads q')).1.Family
          (Function.update heads q' (es.moveWholeListFrom z (heads q')).2)
          (Function.update (Function.update ls q' []) q (l₁ ++ z :: (ls q' ++ l₂))) ∧
        Relinks es (es.moveWholeListFrom z (heads q')).1 fun i => i ∈ ls q ∨ i ∈ ls q') := by
  refine ⟨fun q e he => H.insertTail he, fun q e z l₁ l₂ he hq => ?_, fun q e l₁ l₂ hq =>
    H.removeEntry hq, fun q => H.removeHeadEntry, fun q q' z l₁ l₂ hne hq => H.moveWholeList hne hq⟩
  obtain ⟨hf, hr⟩ := H.insertHead he hq
  exact ⟨hf, hr, H.insertNext_eq he (by rw [hq]; simp)⟩

/-- Entries 0 and 1 form one list, entry 2 another one. -/
def twoLists : Entries := fun i =>
  { prev := if i < 2 then 1 - i else i, next := if i < 2 then 1 - i else i, tid := i + 1, threadindex := i
    status := .ready, tidParent := 0, cond := none, wait := false, joineeThreadIndex := 0 }

theorem twoLists_family : twoLists.Family (fun q : Bool => if q then some 2 else some 0)
    fun q => if q then [2] else [0, 1] := by
  refine ⟨⟨fun q => ?_, fun q => ?_, fun {q q' i} hi hi' => ?_⟩, fun q => ?_⟩
  · cases q
    · simp [Cycle.chain_coe_cons, Links, nexts, prevs, twoLists]
    · simp [Links, nexts, prevs, twoLists]
  · cases q <;> decide
  · cases q <;> cases q' <;> first | rfl | (simp at hi hi'; omega)
  · cases q <;> rfl

/-- The list of one entry moves behind the tail of the other one. -/
theorem lists_implemented_twoLists :
    (twoLists.moveWholeListFrom 1 (some 2)).1.Family
        (Function.update (fun q : Bool => if q then some 2 else some 0) true none)
        (Function.update (Function.update (fun q : Bool => if q then [2] else [0, 1]) true []) false
          [0, 1, 2]) ∧
      ((twoLists.moveWholeListFrom 1 (some 2)).1 1).next = 2 := by
  have h := (lists_implemented twoLists_family).2.2.2.2 false true 1 [0] [] (by decide) rfl
  exact ⟨h.1, by decide⟩

end Dthreads.Scheduler.Entries
