import Mathlib.Data.List.Sort

namespace HelixRouter

/-- What a max-heap promises, whatever its layout: which of several greatest items is popped,
and in what order they are drained, is its own affair. -/
structure BinaryHeap (α : Type) {κ : Type} [LE κ] (key : α → κ) where
  Heap : Type
  items : Heap → List α
  empty : Heap
  push : Heap → α → Heap
  pop : Heap → Option (α × Heap)
  drain : Heap → List α
  items_empty : items empty = []
  items_push : ∀ h x, (items (push h x)).Perm (x :: items h)
  pop_none : ∀ h, pop h = none → items h = []
  pop_some : ∀ h x rest, pop h = some (x, rest) →
    (items h).Perm (x :: items rest) ∧ ∀ y ∈ items h, key y ≤ key x
  drain_perm : ∀ h, (drain h).Perm (items h)

namespace BinaryHeap

variable {α κ : Type} {key : α → κ}

section Refill

variable [LE κ] (B : BinaryHeap α key)

/-- Pushes some items one after the other. -/
def extend (h : B.Heap) (xs : List α) : B.Heap := xs.foldl B.push h

theorem items_extend (h : B.Heap) (xs : List α) :
    (B.items (B.extend h xs)).Perm (xs ++ B.items h) := by
  induction xs generalizing h with
  | nil => exact List.Perm.refl _
  | cons x xs ih =>
    have hpush := (B.items_push h x).append_left xs
    exact (ih (B.push h x)).trans (hpush.trans List.perm_middle)

theorem items_refill (xs : List α) : (B.items (B.extend B.empty xs)).Perm xs := by
  have h := B.items_extend B.empty xs
  rwa [B.items_empty, List.append_nil] at h

end Refill

section PopAll

variable [LE κ] (B : BinaryHeap α key)

/-- Pops up to some number of items, and what is left. -/
def popUpTo : Nat → B.Heap → List α × B.Heap
  | 0, h => ([], h)
  | n + 1, h =>
    match B.pop h with
    | none => ([], h)
    | some (x, rest) => (x :: (popUpTo n rest).1, (popUpTo n rest).2)

/-- Pops until there is nothing left. -/
def popAll (h : B.Heap) : List α × B.Heap := B.popUpTo (B.items h).length h

/-- The items come out in falling order. -/
theorem popUpTo_spec {n : Nat} {h : B.Heap} (hn : (B.items h).length ≤ n) :
    (B.popUpTo n h).1.Perm (B.items h) ∧ B.items (B.popUpTo n h).2 = [] ∧
      (B.popUpTo n h).1.Pairwise fun x y => key y ≤ key x := by
  induction n generalizing h with
  | zero =>
    have hnil : B.items h = [] := List.eq_nil_of_length_eq_zero (Nat.le_zero.mp hn)
    rw [popUpTo]
    exact ⟨hnil ▸ List.Perm.refl _, hnil, .nil⟩
  | succ n ih =>
    cases hp : B.pop h with
    | none =>
      have hnil := B.pop_none h hp
      simp only [popUpTo, hp]
      exact ⟨hnil ▸ List.Perm.refl _, hnil, .nil⟩
    | some popped =>
      obtain ⟨x, rest⟩ := popped
      obtain ⟨hperm, hmax⟩ := B.pop_some h x rest hp
      have hlen := hperm.length_eq
      rw [List.length_cons] at hlen
      obtain ⟨hall, hempty, hfalling⟩ := ih (h := rest) (by omega)
      simp only [popUpTo, hp]
      refine ⟨(hall.cons x).trans hperm.symm, hempty, List.pairwise_cons.mpr ⟨?_, hfalling⟩⟩
      intro y hy
      exact hmax y (hperm.mem_iff.mpr (List.mem_cons_of_mem x (hall.mem_iff.mp hy)))

theorem popAll_spec (h : B.Heap) : (B.popAll h).1.Perm (B.items h) ∧
    B.items (B.popAll h).2 = [] ∧ (B.popAll h).1.Pairwise fun x y => key y ≤ key x :=
  B.popUpTo_spec (Nat.le_refl _)

end PopAll

variable [LinearOrder κ]

/-- A heap that is a list in falling order. -/
def sorted (key : α → κ) : BinaryHeap α key where
  Heap := { l : List α // l.Pairwise fun a b => key b ≤ key a }
  items := Subtype.val
  empty := ⟨[], .nil⟩
  push h x := ⟨h.1.orderedInsert (fun a b => key b ≤ key a) x, by
    have : Std.Total fun a b : α => key b ≤ key a := ⟨fun a b => le_total (key b) (key a)⟩
    have : IsTrans α fun a b => key b ≤ key a := ⟨fun _ _ _ hab hbc => hbc.trans hab⟩
    exact h.2.orderedInsert x _⟩
  pop
    | ⟨[], _⟩ => none
    | ⟨x :: rest, h⟩ => some (x, ⟨rest, (List.pairwise_cons.mp h).2⟩)
  drain := Subtype.val
  items_empty := rfl
  items_push h x := List.perm_orderedInsert _ x h.1
  pop_none := by
    rintro ⟨_ | ⟨x, rest⟩, h⟩ hpop
    · rfl
    · cases hpop
  pop_some := by
    rintro ⟨_ | ⟨x, rest⟩, h⟩ y rest' hpop
    · cases hpop
    · cases hpop
      exact ⟨List.Perm.refl _, List.forall_mem_cons.mpr ⟨le_refl _, (List.pairwise_cons.mp h).1⟩⟩
  drain_perm h := List.Perm.refl _

end BinaryHeap

end HelixRouter
