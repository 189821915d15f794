import HelixRouter.Texts.Bytes
import HelixRouter.Texts.EditDistance
import Mathlib.Algebra.Order.Field.Basic
import Mathlib.Data.Rat.Cast.Order
import Mathlib.Data.Rat.Defs
import Mathlib.Tactic.Linarith

namespace HelixRouter.Mirroring

open Texts

abbrev Table := List (List Nat)

namespace Table

def zeros (m n : Nat) : Table := List.replicate (m + 1) (List.replicate (n + 1) 0)

def get (dp : Table) (i j : Nat) : Nat := (dp.getD i []).getD j 0

def set (dp : Table) (i j v : Nat) : Table := dp.modify i (List.set · j v)

end Table

/-- One entry of the table, from the three before it. -/
def cell (a b : Text) (dp : Table) (i j : Nat) : Nat :=
  if a[i - 1]? = b[j - 1]? then dp.get (i - 1) (j - 1)
  else 1 + min (min (dp.get (i - 1) (j - 1)) (dp.get (i - 1) j)) (dp.get i (j - 1))

def fillRow (a b : Text) (dp : Table) (i : Nat) : Table :=
  (List.range' 1 b.length).foldl (fun dp j => dp.set i j (cell a b dp i j)) dp

def levenshteinDistance (a b : Text) : Nat :=
  let m := a.length
  let n := b.length
  let dp := Table.zeros m n
  let dp := (List.range' 0 (m + 1)).foldl (fun dp i => dp.set i 0 i) dp
  let dp := (List.range' 0 (n + 1)).foldl (fun dp j => dp.set 0 j j) dp
  let dp := (List.range' 1 m).foldl (fillRow a b) dp
  dp.get m n

def bodySimilarity (a b : Text) : ℚ :=
  let maxLen := max a.length b.length
  if maxLen = 0 then 1 else 1 - (levenshteinDistance a b : ℚ) / maxLen

open EditDistance Texts

/-- What a loop over a range keeps, with the number it has come to. -/
theorem foldl_range'_induction {β : Type} {f : β → Nat → β} {s n : Nat} {init : β}
    (along : Nat → β → Prop) (h0 : along s init)
    (hs : ∀ k x, s ≤ k → k < s + n → along k x → along (k + 1) (f x k)) :
    along (s + n) ((List.range' s n).foldl f init) := by
  induction n with
  | zero => exact h0
  | succ n ih =>
    rw [List.range'_1_concat, List.foldl_concat]
    have hlast : s + n < s + (n + 1) := Nat.add_lt_add_left (Nat.lt_succ_self n) s
    exact hs _ _ (Nat.le_add_right _ _) hlast (ih fun k x hk hlt => hs k x hk (by omega))

namespace Table

variable {dp : Table} {m n i j i' j' v : Nat}

structure Shaped (dp : Table) (m n : Nat) : Prop where
  rows : dp.length = m + 1
  columns : ∀ i ≤ m, (dp.getD i []).length = n + 1

theorem shaped_zeros (m n : Nat) : (zeros m n).Shaped m n where
  rows := List.length_replicate
  columns i hi := by
    rw [zeros, List.getD_eq_getElem?_getD, List.getElem?_replicate, if_pos (by omega),
      Option.getD_some, List.length_replicate]

theorem row_set (h : dp.Shaped m n) (hi : i ≤ m) : (dp.set i j v).getD i' [] =
    if i' = i then (dp.getD i []).set j v else dp.getD i' [] := by
  have hlt : i < dp.length := by
    rw [h.rows]
    omega
  unfold set
  simp only [List.getD_eq_getElem?_getD, List.getElem?_modify]
  split
  · rename_i heq
    subst heq
    simp [List.getElem?_eq_getElem hlt]
  · rename_i hne
    rw [if_neg (Ne.symm hne)]
    simp

theorem Shaped.set (h : dp.Shaped m n) (hi : i ≤ m) : (dp.set i j v).Shaped m n where
  rows := by
    rw [Table.set, List.length_modify, h.rows]
  columns k hk := by
    rw [row_set h hi]
    split
    · rw [List.length_set, h.columns i hi]
    · exact h.columns k hk

theorem get_set (h : dp.Shaped m n) (hi : i ≤ m) (hj : j ≤ n) : (dp.set i j v).get i' j' =
    if i' = i ∧ j' = j then v else dp.get i' j' := by
  unfold get
  rw [row_set h hi]
  by_cases hrow : i' = i
  · subst hrow
    have hcolumns := h.columns i' hi
    simp only [if_true, true_and, List.getD_eq_getElem?_getD, List.getElem?_set] at hcolumns ⊢
    by_cases hcol : j = j'
    · subst hcol
      simp only [if_true]
      rw [if_pos (by omega)]
      rfl
    · rw [if_neg hcol, if_neg (Ne.symm hcol)]
  · rw [if_neg hrow, if_neg fun h => hrow h.1]

end Table

section Filling

variable {a b : Text} {dp : Table} {i j : Nat}

/-- The table has its shape, and the entries in a part of it are the distances of prefixes. -/
structure Filled (a b : Text) (part : Nat → Nat → Prop) (dp : Table) : Prop where
  shaped : dp.Shaped a.length b.length
  right : ∀ i ≤ a.length, ∀ j ≤ b.length, part i j → dp.get i j = dist (a.take i) (b.take j)

theorem Filled.set {part : Nat → Nat → Prop} (h : Filled a b part dp) (hi : i ≤ a.length)
    (hj : j ≤ b.length) {v : Nat} (hv : v = dist (a.take i) (b.take j)) :
    Filled a b (fun i' j' => part i' j' ∨ i' = i ∧ j' = j) (dp.set i j v) where
  shaped := h.shaped.set hi
  right i' hi' j' hj' hpart := by
    rw [Table.get_set h.shaped hi hj]
    split
    · rename_i heq
      rw [hv, heq.1, heq.2]
    · rename_i hne
      exact h.right i' hi' j' hj' (hpart.resolve_right hne)

theorem Filled.mono {part part' : Nat → Nat → Prop} (h : Filled a b part dp)
    (himp : ∀ i j, part' i j → part i j) : Filled a b part' dp :=
  ⟨h.shaped, fun i hi j hj hpart => h.right i hi j hj (himp i j hpart)⟩

theorem filled_borders (a b : Text) : Filled a b (fun i j => i = 0 ∨ j = 0)
    ((List.range' 0 (b.length + 1)).foldl (fun dp j => dp.set 0 j j)
      ((List.range' 0 (a.length + 1)).foldl (fun dp i => dp.set i 0 i)
        (Table.zeros a.length b.length))) := by
  have hcolumn := foldl_range'_induction (f := fun dp i => Table.set dp i 0 i) (s := 0)
    (n := a.length + 1)
    (fun k => Filled a b fun i j => i < k ∧ j = 0)
    ⟨Table.shaped_zeros a.length b.length, fun i _ j _ h => absurd h.1 (Nat.not_lt_zero i)⟩
    fun k dp _ hk h => by
      have hv : k = dist (a.take k) (b.take 0) := by
        rw [List.take_zero, dist_nil_right, List.length_take]
        omega
      refine (h.set (by omega) (Nat.zero_le _) hv).mono fun i j => ?_
      omega
  have hrow := foldl_range'_induction (f := fun dp j => Table.set dp 0 j j) (s := 0)
    (n := b.length + 1)
    (fun k => Filled a b fun i j => i < a.length + 1 ∧ j = 0 ∨ i = 0 ∧ j < k)
    (hcolumn.mono fun i j => by omega)
    fun k dp _ hk h => by
      have hv : k = dist (a.take 0) (b.take k) := by
        rw [List.take_zero, dist_nil_left, List.length_take]
        omega
      refine (h.set (Nat.zero_le _) (by omega) hv).mono fun i j => ?_
      omega
  exact ⟨hrow.shaped, fun i hi j hj h => hrow.right i hi j hj (by omega)⟩

theorem cell_eq (h : Filled a b (fun i' j' => i' < i + 1 ∨ j' = 0 ∨ i' = i + 1 ∧ j' < j + 1) dp)
    (hi : i < a.length) (hj : j < b.length) :
    cell a b dp (i + 1) (j + 1) = dist (a.take (i + 1)) (b.take (j + 1)) := by
  have hdiagonal := h.right i (by omega) j (by omega) (by omega)
  have habove := h.right i (by omega) (j + 1) (by omega) (by omega)
  have hbefore := h.right (i + 1) (by omega) j (by omega) (by omega)
  unfold cell
  rw [Nat.add_sub_cancel, Nat.add_sub_cancel, hdiagonal, habove, hbefore]
  rw [List.getElem?_eq_getElem hi, List.getElem?_eq_getElem hj]
  rw [← List.take_append_getElem hi, ← List.take_append_getElem hj]
  by_cases heq : a[i] = b[j]
  · rw [if_pos (congrArg some heq), heq, dist_concat_self]
  · rw [if_neg fun hsome => heq (Option.some.inj hsome), dist_concat_ne heq]

theorem filled_row (h : Filled a b (fun i' j' => i' < i + 1 ∨ j' = 0) dp) (hi : i < a.length) :
    Filled a b (fun i' j' => i' < i + 1 + 1 ∨ j' = 0) (fillRow a b dp (i + 1)) := by
  have hrow := foldl_range'_induction (f := fun dp j => dp.set (i + 1) j (cell a b dp (i + 1) j))
    (s := 1) (n := b.length)
    (fun k => Filled a b fun i' j' => i' < i + 1 ∨ j' = 0 ∨ i' = i + 1 ∧ j' < k)
    (h.mono fun i' j' => by omega)
    fun k dp hk hlt h => by
      obtain ⟨j, rfl⟩ := Nat.exists_eq_add_of_le' hk
      have hv := cell_eq h hi (by omega)
      refine (h.set (by omega) (by omega) hv).mono fun i' j' => ?_
      omega
  exact ⟨hrow.shaped, fun i' hi' j' hj' hpart => hrow.right i' hi' j' hj' (by omega)⟩

/-- The loops fill the table with the distances of all prefixes. -/
theorem levenshteinDistance_eq_dist (a b : Text) : levenshteinDistance a b = dist a b := by
  have hfilled := foldl_range'_induction (f := fillRow a b) (s := 1) (n := a.length)
    (fun k => Filled a b fun i j => i < k ∨ j = 0)
    ((filled_borders a b).mono fun i j => by omega)
    fun k dp hk hlt h => by
      obtain ⟨i, rfl⟩ := Nat.exists_eq_add_of_le' hk
      exact filled_row h (by omega)
  have hlast := hfilled.right a.length (Nat.le_refl _) b.length (Nat.le_refl _)
    (Or.inl (by omega))
  rwa [List.take_length, List.take_length] at hlast

end Filling

theorem bodySimilarity_eq (a b : Text) : bodySimilarity a b =
    if max a.length b.length = 0 then 1 else 1 - (dist a b : ℚ) / (max a.length b.length : ℕ) := by
  rw [bodySimilarity, levenshteinDistance_eq_dist]

theorem bodySimilarity_nonneg (a b : Text) : 0 ≤ bodySimilarity a b := by
  rw [bodySimilarity_eq]
  split
  · exact zero_le_one
  · rename_i hne
    have hpos : (0 : ℚ) < (max a.length b.length : ℕ) := by exact_mod_cast Nat.pos_of_ne_zero hne
    have hle : (dist a b : ℚ) ≤ (max a.length b.length : ℕ) := by exact_mod_cast dist_le_max a b
    exact sub_nonneg.mpr ((div_le_one hpos).mpr hle)

theorem bodySimilarity_le_one (a b : Text) : bodySimilarity a b ≤ 1 := by
  rw [bodySimilarity_eq]
  split
  · exact le_refl 1
  · exact sub_le_self _ (div_nonneg (Nat.cast_nonneg _) (Nat.cast_nonneg _))

theorem bodySimilarity_eq_one_iff (a b : Text) : bodySimilarity a b = 1 ↔ a = b := by
  rw [bodySimilarity_eq]
  split
  · rename_i hzero
    have ha : a = [] := List.length_eq_zero_iff.mp (by omega)
    have hb : b = [] := List.length_eq_zero_iff.mp (by omega)
    exact iff_of_true rfl (ha.trans hb.symm)
  · rename_i hne
    rw [sub_eq_self, div_eq_zero_iff, Nat.cast_eq_zero, Nat.cast_eq_zero, or_iff_left hne]
    exact dist_eq_zero_iff

/-- The table holds the least number of edits, which is a metric, and the similarity is one
less its part of the longer body. -/
theorem levenshtein_is_edit_distance (a b : Text) :
    IsLeast {n | Script n a b} (levenshteinDistance a b) ∧
      (levenshteinDistance a b = 0 ↔ a = b) ∧
      levenshteinDistance a b = levenshteinDistance b a ∧
      (∀ c, levenshteinDistance a c ≤ levenshteinDistance a b + levenshteinDistance b c) ∧
      levenshteinDistance a b ≤ max a.length b.length ∧
      (0 ≤ bodySimilarity a b ∧ bodySimilarity a b ≤ 1) ∧ (bodySimilarity a b = 1 ↔ a = b) := by
  simp only [levenshteinDistance_eq_dist]
  exact ⟨isLeast_dist a b, dist_eq_zero_iff, dist_comm a b, dist_triangle a b, dist_le_max a b,
    ⟨bodySimilarity_nonneg a b, bodySimilarity_le_one a b⟩, bodySimilarity_eq_one_iff a b⟩

end HelixRouter.Mirroring
