import Mathlib.Algebra.Order.Group.Nat
import Mathlib.Data.List.Basic
import Mathlib.Order.Bounds.Basic

namespace HelixRouter.EditDistance

variable {α : Type} {a b c : List α} {n m : Nat}

/-- One item is inserted, deleted or replaced. -/
inductive Edit : List α → List α → Prop where
  | insert (pre post : List α) (x : α) : Edit (pre ++ post) (pre ++ x :: post)
  | delete (pre post : List α) (x : α) : Edit (pre ++ x :: post) (pre ++ post)
  | substitute (pre post : List α) (x y : α) : Edit (pre ++ x :: post) (pre ++ y :: post)

/-- A sequence of edits that turns one list into another. -/
inductive Script : Nat → List α → List α → Prop where
  | refl (a : List α) : Script 0 a a
  | edit {n : Nat} {a b c : List α} (first : Edit a b) (rest : Script n b c) : Script (n + 1) a c

section Scripts

theorem Edit.symm (h : Edit a b) : Edit b a := by
  cases h with
  | insert pre post x => exact .delete pre post x
  | delete pre post x => exact .insert pre post x
  | substitute pre post x y => exact .substitute pre post y x

theorem Edit.cons (x : α) (h : Edit a b) : Edit (x :: a) (x :: b) := by
  cases h with
  | insert pre post y => exact .insert (x :: pre) post y
  | delete pre post y => exact .delete (x :: pre) post y
  | substitute pre post y z => exact .substitute (x :: pre) post y z

theorem Edit.reverse (h : Edit a b) : Edit a.reverse b.reverse := by
  cases h with
  | insert pre post x => simpa using Edit.insert post.reverse pre.reverse x
  | delete pre post x => simpa using Edit.delete post.reverse pre.reverse x
  | substitute pre post x y => simpa using Edit.substitute post.reverse pre.reverse x y

theorem Script.trans (h : Script n a b) (h' : Script m b c) : Script (n + m) a c := by
  induction h with
  | refl a => rwa [Nat.zero_add]
  | edit first rest ih =>
    rw [Nat.add_right_comm]
    exact .edit first (ih h')

theorem Script.symm (h : Script n a b) : Script n b a := by
  induction h with
  | refl a => exact .refl a
  | edit first rest ih => exact ih.trans (.edit first.symm (.refl _))

theorem Script.cons (x : α) (h : Script n a b) : Script n (x :: a) (x :: b) := by
  induction h with
  | refl a => exact .refl (x :: a)
  | edit first rest ih => exact .edit (first.cons x) ih

theorem Script.reverse (h : Script n a b) : Script n a.reverse b.reverse := by
  induction h with
  | refl a => exact .refl a.reverse
  | edit first rest ih => exact .edit first.reverse ih

theorem script_zero_iff : Script 0 a b ↔ a = b := by
  constructor
  · intro h
    cases h
    rfl
  · rintro rfl
    exact .refl a

theorem script_nil (b : List α) : Script b.length [] b := by
  induction b with
  | nil => exact .refl []
  | cons y b ih => exact .edit (.insert [] [] y) (ih.cons y)

end Scripts

variable [DecidableEq α]

/-- Equal first items are passed over, and otherwise the best of the three edits is made. -/
def dist : List α → List α → Nat
  | [], b => b.length
  | a, [] => a.length
  | x :: a, y :: b =>
    if x = y then dist a b else 1 + min (min (dist a b) (dist a (y :: b))) (dist (x :: a) b)

@[simp] theorem dist_nil_left (b : List α) : dist [] b = b.length := by
  rw [dist]

@[simp] theorem dist_nil_right (a : List α) : dist a [] = a.length := by
  cases a with
  | nil => exact dist_nil_left []
  | cons x a => rw [dist]; exact fun h => nomatch h

theorem dist_cons_self (x : α) (a b : List α) : dist (x :: a) (x :: b) = dist a b := by
  rw [dist, if_pos rfl]

theorem dist_cons_ne {x y : α} (h : x ≠ y) (a b : List α) : dist (x :: a) (y :: b) =
    1 + min (min (dist a b) (dist a (y :: b))) (dist (x :: a) b) := by
  rw [dist, if_neg h]

/-- As many edits do. -/
theorem script_dist (a b : List α) : Script (dist a b) a b := by
  induction a, b using dist.induct with
  | case1 b =>
    rw [dist_nil_left]
    exact script_nil b
  | case2 a _ =>
    rw [dist_nil_right]
    exact (script_nil a).symm
  | case3 a x b ih =>
    rw [dist_cons_self]
    exact ih.cons x
  | case4 x a y b hne ih1 ih2 ih3 =>
    rw [dist_cons_ne hne, Nat.add_comm]
    rcases min_choice (min (dist a b) (dist a (y :: b))) (dist (x :: a) b) with h | h
    · rw [h]
      rcases min_choice (dist a b) (dist a (y :: b)) with h | h
      · rw [h]
        exact .edit (.substitute [] a x y) (ih1.cons y)
      · rw [h]
        exact .edit (.delete [] a x) ih2
    · rw [h]
      exact .edit (.insert [] (x :: a) y) (ih3.cons y)

/-- An item more on either side costs one edit at most, and saves one at most. -/
theorem dist_cons_le (a : List α) : (∀ x b, dist (x :: a) b ≤ dist a b + 1) ∧
    ∀ y b, dist a b ≤ dist a (y :: b) + 1 := by
  induction a with
  | nil =>
    refine ⟨fun x b => ?_, fun y b => ?_⟩
    · cases b with
      | nil => simp
      | cons y b =>
        by_cases h : x = y
        · subst h
          rw [dist_cons_self, dist_nil_left, dist_nil_left, List.length_cons]
          omega
        · rw [dist_cons_ne h]
          omega
    · rw [dist_nil_left, dist_nil_left, List.length_cons]
      omega
  | cons z a ih =>
    obtain ⟨hmore, hless⟩ := ih
    have hsaved : ∀ y b, dist (z :: a) b ≤ dist (z :: a) (y :: b) + 1 := by
      intro y b
      by_cases h : z = y
      · subst h
        rw [dist_cons_self]
        exact hmore z b
      · rw [dist_cons_ne h]
        have hz := hmore z b
        have hy := hless y b
        omega
    refine ⟨fun x b => ?_, hsaved⟩
    cases b with
    | nil => simp
    | cons y b =>
      by_cases h : x = y
      · -- the greedy step over equal items is as good as a deletion
        subst h
        rw [dist_cons_self]
        exact hsaved x b
      · rw [dist_cons_ne h]
        omega

theorem dist_le_cons (x : α) (a b : List α) : dist (x :: a) b ≤ dist a b + 1 :=
  (dist_cons_le a).1 x b

theorem dist_le_of_cons_right (a : List α) (y : α) (b : List α) :
    dist a b ≤ dist a (y :: b) + 1 :=
  (dist_cons_le a).2 y b

theorem dist_comm (a b : List α) : dist a b = dist b a := by
  induction a, b using dist.induct with
  | case1 b => simp
  | case2 a _ => simp
  | case3 a x b ih => rw [dist_cons_self, dist_cons_self, ih]
  | case4 x a y b hne ih1 ih2 ih3 =>
    rw [dist_cons_ne hne, dist_cons_ne (Ne.symm hne), ih1, ih2, ih3]
    omega

theorem dist_le_of_cons_left (x : α) (a b : List α) : dist a b ≤ dist (x :: a) b + 1 := by
  rw [dist_comm a, dist_comm (x :: a)]
  exact dist_le_of_cons_right b x a

theorem dist_substitute (x y : α) (a b : List α) : dist (x :: a) b ≤ dist (y :: a) b + 1 := by
  induction b with
  | nil => simp
  | cons z b ih =>
    have hleft := dist_le_of_cons_left y a b
    have hright := dist_le_of_cons_right a z b
    by_cases hx : x = z
    · subst hx
      rw [dist_cons_self]
      by_cases hy : y = x
      · subst hy
        rw [dist_cons_self]
        omega
      · rw [dist_cons_ne hy]
        omega
    · rw [dist_cons_ne hx]
      by_cases hy : y = z
      · subst hy
        rw [dist_cons_self]
        omega
      · rw [dist_cons_ne hy]
        omega

/-- What holds of two lists in front of everything holds behind a common item. -/
theorem dist_cons_mono {k : Nat} (x : α) (h : ∀ b, dist a b ≤ dist c b + k) (b : List α) :
    dist (x :: a) b ≤ dist (x :: c) b + k := by
  induction b with
  | nil =>
    have hnil := h []
    simp at hnil ⊢
    omega
  | cons y b ih =>
    have hhere := h b
    have hthere := h (y :: b)
    by_cases hxy : x = y
    · subst hxy
      rw [dist_cons_self, dist_cons_self]
      exact hhere
    · rw [dist_cons_ne hxy, dist_cons_ne hxy]
      omega

theorem Edit.dist_le (h : Edit a c) (b : List α) : dist a b ≤ dist c b + 1 := by
  have behind : ∀ {s t : List α} (pre : List α), (∀ b, dist s b ≤ dist t b + 1) →
      ∀ b, dist (pre ++ s) b ≤ dist (pre ++ t) b + 1 := by
    intro s t pre hst
    induction pre with
    | nil => exact hst
    | cons x pre ih => exact dist_cons_mono x ih
  cases h with
  | insert pre post x => exact behind pre (dist_le_of_cons_left x post) b
  | delete pre post x => exact behind pre (dist_le_cons x post) b
  | substitute pre post x y => exact behind pre (dist_substitute x y post) b

/-- No fewer edits do. -/
theorem Script.dist_le (h : Script n a b) : dist a b ≤ n := by
  induction h with
  | refl a =>
    induction a with
    | nil => simp
    | cons x a ih => rwa [dist_cons_self]
  | edit first rest ih =>
    have hfirst := first.dist_le
    exact (hfirst _).trans (Nat.add_le_add_right ih 1)

theorem isLeast_dist (a b : List α) : IsLeast {n | Script n a b} (dist a b) :=
  ⟨script_dist a b, fun _ h => Script.dist_le h⟩

theorem dist_eq_zero_iff : dist a b = 0 ↔ a = b := by
  constructor
  · intro h
    exact script_zero_iff.mp (h ▸ script_dist a b)
  · intro h
    exact Nat.le_zero.mp (script_zero_iff.mpr h).dist_le

theorem dist_triangle (a b c : List α) : dist a c ≤ dist a b + dist b c :=
  ((script_dist a b).trans (script_dist b c)).dist_le

theorem dist_le_max (a b : List α) : dist a b ≤ max a.length b.length := by
  induction a, b using dist.induct with
  | case1 b => simp
  | case2 a _ => simp
  | case3 a x b ih =>
    rw [dist_cons_self, List.length_cons, List.length_cons]
    omega
  | case4 x a y b hne ih1 ih2 ih3 =>
    rw [dist_cons_ne hne, List.length_cons, List.length_cons]
    omega

/-- The distance can as well be found from the ends of the lists. -/
theorem dist_reverse (a b : List α) : dist a.reverse b.reverse = dist a b := by
  refine Nat.le_antisymm (script_dist a b).reverse.dist_le ?_
  have h := (script_dist a.reverse b.reverse).reverse
  rw [List.reverse_reverse, List.reverse_reverse] at h
  exact h.dist_le

theorem dist_concat_self (a b : List α) (x : α) : dist (a ++ [x]) (b ++ [x]) = dist a b := by
  rw [← dist_reverse, List.reverse_concat, List.reverse_concat, dist_cons_self, dist_reverse]

theorem dist_concat_ne {x y : α} (h : x ≠ y) (a b : List α) : dist (a ++ [x]) (b ++ [y]) =
    1 + min (min (dist a b) (dist a (b ++ [y]))) (dist (a ++ [x]) b) := by
  have hreverse : dist (a ++ [x]) (b ++ [y]) = dist (x :: a.reverse) (y :: b.reverse) := by
    rw [← dist_reverse, List.reverse_concat, List.reverse_concat]
  have hleft : dist a.reverse (y :: b.reverse) = dist a (b ++ [y]) := by
    rw [← List.reverse_concat, dist_reverse]
  have hright : dist (x :: a.reverse) b.reverse = dist (a ++ [x]) b := by
    rw [← List.reverse_concat, dist_reverse]
  rw [hreverse, dist_cons_ne h, dist_reverse, hleft, hright]

end HelixRouter.EditDistance
