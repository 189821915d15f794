import Mathlib.Data.List.Sort

namespace List

variable {α : Type} {lt : α → α → Bool} {p : α → Bool} {l : List α} {a b m : α}

/-- The comparison ranks the elements of a list: it has no cycle there, and what is below
another element is below or above every third one accordingly. -/
def Ranked (lt : α → α → Bool) (l : List α) : Prop :=
  ∀ a ∈ l, ∀ b ∈ l, lt a b = true → lt b a = false ∧ ∀ c ∈ l, lt a c = true ∨ lt c b = true

/-- What a stable sort with the greatest first promises: the same elements, in an order that
is known where the comparison ranks them. -/
structure SortBy (lt : α → α → Bool) where
  sort : List α → List α
  perm : ∀ l, (sort l).Perm l
  stable : ∀ l : List α, l.Ranked lt → sort l = l.insertionSort fun a b => lt a b = false

/-- The first of the elements that no other is above. -/
def topmost (lt : α → α → Bool) : List α → Option α
  | [] => none
  | a :: l =>
    match topmost lt l with
    | none => some a
    | some b => if lt a b then some b else some a

/-- What a search of the sorted list may find first. -/
def MayLead (lt : α → α → Bool) (p : α → Bool) (l : List α) (a : α) : Prop :=
  (l.Ranked lt → (l.filter p).topmost lt = some a) ∧ a ∈ l ∧ p a = true

section Topmost

theorem mem_of_topmost (h : l.topmost lt = some m) : m ∈ l := by
  induction l generalizing m with
  | nil => cases h
  | cons a l ih =>
    rw [topmost] at h
    cases ht : l.topmost lt with
    | none =>
      rw [ht] at h
      exact Option.some.inj h ▸ mem_cons_self
    | some b =>
      simp only [ht] at h
      split at h
      · exact Option.some.inj h ▸ mem_cons_of_mem _ (ih ht)
      · exact Option.some.inj h ▸ mem_cons_self

theorem topmost_eq_none_iff : l.topmost lt = none ↔ l = [] := by
  cases l with
  | nil => simp [topmost]
  | cons a l =>
    rw [topmost]
    cases l.topmost lt with
    | none => simp
    | some b =>
      dsimp only
      split <;> simp

theorem Ranked.subset {l' : List α} (h : l.Ranked lt) (hsub : l' ⊆ l) : l'.Ranked lt := by
  intro a ha b hb hlt
  obtain ⟨hasymm, hthird⟩ := h a (hsub ha) b (hsub hb) hlt
  exact ⟨hasymm, fun c hc => hthird c (hsub hc)⟩

theorem Ranked.irrefl (h : l.Ranked lt) (ha : a ∈ l) : lt a a = false := by
  cases hlt : lt a a with
  | false => rfl
  | true => exact hlt.symm.trans (h a ha a ha hlt).1

/-- What is not above the topmost element is above none. -/
theorem not_lt_of_topmost (h : l.Ranked lt) (ht : l.topmost lt = some m) :
    ∀ b ∈ l, lt m b = false := by
  induction l generalizing m with
  | nil => cases ht
  | cons a l ih =>
    have hl := h.subset (subset_cons_self a l)
    rw [topmost] at ht
    cases htop : l.topmost lt with
    | none =>
      rw [htop] at ht
      cases Option.some.inj ht
      cases topmost_eq_none_iff.mp htop
      intro b hb
      cases mem_singleton.mp hb
      exact h.irrefl mem_cons_self
    | some t =>
      have htl : t ∈ a :: l := mem_cons_of_mem _ (mem_of_topmost htop)
      simp only [htop] at ht
      split at ht
      · rename_i hat
        cases Option.some.inj ht
        intro b hb
        rcases mem_cons.mp hb with rfl | hb
        · exact (h _ mem_cons_self _ htl hat).1
        · exact ih hl htop b hb
      · rename_i hat
        cases Option.some.inj ht
        intro b hb
        cases hab : lt a b with
        | false => rfl
        | true =>
          rcases mem_cons.mp hb with rfl | hbl
          · exact hab.symm.trans (h.irrefl mem_cons_self)
          · rcases (h _ mem_cons_self b hb hab).2 t htl with hat' | htb
            · exact absurd hat' hat
            · exact htb.symm.trans (ih hl htop b hbl)

end Topmost

section Sorted

/-- What stands before an element that the head is not below is not below it either. -/
theorem not_lt_of_head {s : List α} (hs : (b :: s).Pairwise fun a b => lt a b = false)
    (hw : (a :: b :: s).Ranked lt) (hab : lt a b = false) : ∀ c ∈ b :: s, lt a c = false := by
  intro c hc
  cases hac : lt a c with
  | false => rfl
  | true =>
    have hb : b ∈ a :: b :: s := mem_cons_of_mem _ mem_cons_self
    rcases (hw a mem_cons_self c (mem_cons_of_mem _ hc) hac).2 b hb with h | h
    · exact h.symm.trans hab
    · rcases mem_cons.mp hc with rfl | hcs
      · exact h.symm.trans (hw.irrefl hb)
      · exact h.symm.trans ((pairwise_cons.mp hs).1 c hcs)

theorem Ranked.tail_tail {s : List α} (hw : (a :: b :: s).Ranked lt) : (a :: s).Ranked lt :=
  hw.subset (cons_subset_cons a (subset_cons_self b s))

theorem pairwise_orderedInsert {s : List α} (hs : s.Pairwise fun a b => lt a b = false)
    (hw : (a :: s).Ranked lt) :
    (s.orderedInsert (fun a b => lt a b = false) a).Pairwise fun a b => lt a b = false := by
  induction s with
  | nil => exact pairwise_singleton _ a
  | cons b s ih =>
    rw [orderedInsert]
    split
    · rename_i hab
      exact pairwise_cons.mpr ⟨not_lt_of_head hs hw hab, hs⟩
    · rename_i hab
      refine pairwise_cons.mpr ⟨fun c hc => ?_, ih (pairwise_cons.mp hs).2 hw.tail_tail⟩
      rcases (mem_orderedInsert _).mp hc with rfl | hc
      · exact (hw _ mem_cons_self b (mem_cons_of_mem _ mem_cons_self) (by simpa using hab)).1
      · exact (pairwise_cons.mp hs).1 c hc

theorem pairwise_insertionSort_of_ranked (hw : l.Ranked lt) :
    (l.insertionSort fun a b => lt a b = false).Pairwise fun a b => lt a b = false := by
  induction l with
  | nil => exact Pairwise.nil
  | cons a l ih =>
    refine pairwise_orderedInsert (ih (hw.subset (subset_cons_self a l))) (hw.subset ?_)
    exact cons_subset_cons a (perm_insertionSort _ l).subset

theorem find?_orderedInsert {s : List α} (hs : s.Pairwise fun a b => lt a b = false)
    (hw : (a :: s).Ranked lt) :
    (s.orderedInsert (fun a b => lt a b = false) a).find? p =
      if p a then
        match s.find? p with
        | none => some a
        | some b => if lt a b then some b else some a
      else s.find? p := by
  induction s with
  | nil => by_cases hp : p a <;> simp [hp]
  | cons b s ih =>
    rw [orderedInsert]
    split
    · rename_i hab
      rw [find?_cons (a := a)]
      by_cases hp : p a
      · simp only [hp, if_true]
        cases hf : (b :: s).find? p with
        | none => rfl
        | some c => simp [not_lt_of_head hs hw hab c (mem_of_find?_eq_some hf)]
      · simp [hp]
    · rename_i hab
      rw [find?_cons, find?_cons, ih (pairwise_cons.mp hs).2 hw.tail_tail]
      by_cases hp : p b
      · simp only [hp]
        simp [hab]
      · simp [hp]

/-- A search of the sorted list finds the first of the greatest of what it looks for. -/
theorem find?_insertionSort (hw : l.Ranked lt) :
    (l.insertionSort fun a b => lt a b = false).find? p = (l.filter p).topmost lt := by
  induction l with
  | nil => rfl
  | cons a l ih =>
    have hl := hw.subset (subset_cons_self a l)
    rw [insertionSort_cons, find?_orderedInsert (pairwise_insertionSort_of_ranked hl)
      (hw.subset (cons_subset_cons a (perm_insertionSort _ l).subset)), ih hl]
    by_cases hp : p a
    · simp only [hp, if_true, filter_cons, topmost]
    · simp [hp]

end Sorted

section Sorts

/-- A stable sort of every list. -/
def insertionSortBy (lt : α → α → Bool) : SortBy lt where
  sort l := l.insertionSort fun a b => lt a b = false
  perm l := perm_insertionSort _ l
  stable _ _ := rfl

open Classical in
/-- A sort that puts an element of a list first that it need not rank. -/
noncomputable def leadingSort (hw : ¬l.Ranked lt) (ha : a ∈ l) : SortBy lt where
  sort s := if s = l then a :: l.erase a else s.insertionSort fun a b => lt a b = false
  perm s := by
    split
    · rename_i hs
      exact hs ▸ (perm_cons_erase ha).symm
    · exact perm_insertionSort _ s
  stable s hs := by
    split
    · rename_i he
      exact absurd (he ▸ hs) hw
    · rfl

/-- What some sort may bring to the front of what is looked for. -/
theorem exists_find?_sort_iff :
    (∃ s : SortBy lt, (s.sort l).find? p = some a) ↔ l.MayLead lt p a := by
  constructor
  · intro h
    obtain ⟨s, hfind⟩ := h
    refine ⟨fun hw => ?_, (s.perm l).subset (mem_of_find?_eq_some hfind), find?_some hfind⟩
    rw [← find?_insertionSort hw, ← s.stable l hw]
    exact hfind
  · intro h
    obtain ⟨hrank, ha, hp⟩ := h
    by_cases hw : l.Ranked lt
    · exact ⟨insertionSortBy lt, (find?_insertionSort hw).trans (hrank hw)⟩
    · refine ⟨leadingSort hw ha, ?_⟩
      simp [leadingSort, hp]

/-- Where there is something to find, something may be found first. -/
theorem exists_mayLead (ha : a ∈ l) (hp : p a = true) : ∃ b, l.MayLead lt p b := by
  cases hf : (l.insertionSort fun a b => lt a b = false).find? p with
  | none =>
    have hmem := (perm_insertionSort (fun a b => lt a b = false) l).mem_iff.mpr ha
    exact absurd hp (find?_eq_none.mp hf a hmem)
  | some b => exact ⟨b, exists_find?_sort_iff.mp ⟨insertionSortBy lt, hf⟩⟩

end Sorts

end List
