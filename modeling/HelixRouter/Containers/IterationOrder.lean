import Mathlib.Data.List.Perm.Basic

namespace HelixRouter

/-- The order a hash map is walked in: some arrangement of its entries. -/
structure IterationOrder (α : Type) where
  arrange : List α → List α
  perm : ∀ l, (arrange l).Perm l

def IterationOrder.inserted (α : Type) : IterationOrder α := ⟨id, List.Perm.refl⟩

namespace IterationOrder

theorem mem_arrange {α : Type} (order : IterationOrder α) {a : α} {l : List α} :
    a ∈ order.arrange l ↔ a ∈ l := (order.perm l).mem_iff

/-- Entries that pass a test are walked first. -/
def foremost {α : Type} (test : α → Bool) : IterationOrder α where
  arrange l := l.filter test ++ l.filter fun a => !test a
  perm l := List.filter_append_perm test l

theorem foremost_arrange {α : Type} {test : α → Bool} {a : α} {l : List α} (ha : a ∈ l)
    (htest : test a = true) (hunique : ∀ b ∈ l, test b = true → b = a) :
    ∃ rest, (foremost test).arrange l = a :: rest := by
  change ∃ rest, l.filter test ++ l.filter (fun a => !test a) = a :: rest
  have hmem : a ∈ l.filter test := List.mem_filter.mpr ⟨ha, htest⟩
  cases hfilter : l.filter test with
  | nil => simp [hfilter] at hmem
  | cons b others =>
    obtain ⟨hb, hbtest⟩ := List.mem_filter.mp (hfilter ▸ List.mem_cons_self : b ∈ l.filter test)
    rw [hunique b hb hbtest]
    exact ⟨_, rfl⟩

def andThen {α : Type} (first second : IterationOrder α) : IterationOrder α where
  arrange l := second.arrange (first.arrange l)
  perm l := (second.perm _).trans (first.perm l)

variable {α : Type} [DecidableEq α]

/-- An entry that is walked first where it is there. -/
def leading (a : α) : IterationOrder α where
  arrange l := if a ∈ l then a :: l.erase a else l
  perm l := by
    split
    · rename_i h
      exact (List.perm_cons_erase h).symm
    · exact List.Perm.refl l

/-- An entry that is walked last where it is there. -/
def trailing (a : α) : IterationOrder α where
  arrange l := if a ∈ l then l.erase a ++ [a] else l
  perm l := by
    split
    · rename_i h
      exact (List.perm_append_singleton a _).trans (List.perm_cons_erase h).symm
    · exact List.Perm.refl l

theorem leading_arrange {a : α} {l : List α} (h : a ∈ l) :
    (leading a).arrange l = a :: l.erase a := if_pos h

theorem trailing_arrange {a : α} {l : List α} (h : a ∈ l) :
    (trailing a).arrange l = l.erase a ++ [a] := if_pos h

end IterationOrder

end HelixRouter
