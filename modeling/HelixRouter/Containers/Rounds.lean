import Mathlib.Algebra.BigOperators.Group.List.Basic
import Mathlib.Algebra.Ring.Nat
import Mathlib.Data.List.Count
import Mathlib.Data.List.Flatten
import Mathlib.Data.List.Rotate

namespace HelixRouter.Containers

variable {α : Type*} {l : List α} {N : Nat}

/-- Each element as often as it weighs. -/
def sharesOf (weight : α → Nat) (l : List α) : List α :=
  l.flatMap fun a => List.replicate (weight a) a

theorem length_sharesOf (weight : α → Nat) (l : List α) :
    (sharesOf weight l).length = (l.map weight).sum := by
  rw [sharesOf, List.length_flatMap]
  simp only [List.length_replicate]

theorem count_sharesOf [DecidableEq α] (weight : α → Nat) (l : List α) (a : α) :
    (sharesOf weight l).count a = l.count a * weight a := by
  induction l with
  | nil => simp [sharesOf]
  | cons b l ih =>
    have hcons : sharesOf weight (b :: l) = List.replicate (weight b) b ++ sharesOf weight l := rfl
    rw [hcons, List.count_append, ih, List.count_replicate, List.count_cons]
    by_cases hb : b = a
    · subst hb
      simp [Nat.add_mul, Nat.add_comm]
    · simp [hb]

/-- What a counter that starts again every `N` steps reads from a list, round and round. -/
def readings (l : List α) (N c n : Nat) : List (Option α) :=
  (List.range n).map fun k => l[(c + k) % N % l.length]?

theorem rotate_mul_of_rotate (h : l.rotate N = l) (q : Nat) : l.rotate (N * q) = l := by
  induction q with
  | zero => exact List.rotate_zero l
  | succ q ih => rw [Nat.mul_succ, ← List.rotate_rotate, ih, h]

/-- Where the list repeats itself `N` places on, the restart is not seen. -/
theorem getElem?_restart (hpos : 0 < l.length) (h : l.rotate N = l) (c : Nat) :
    l[c % N % l.length]? = l[c % l.length]? := by
  have hlap := congrArg (·[c % N % l.length]?) (rotate_mul_of_rotate h (c / N))
  simp only [List.getElem?_rotate (Nat.mod_lt _ hpos), Nat.mod_add_mod, Nat.mod_add_div] at hlap
  exact hlap.symm

theorem readings_of_rotate (h : l.rotate N = l) (c : Nat) :
    readings l N c l.length = (l.rotate c).map some := by
  apply List.ext_getElem?
  intro k
  rw [readings, List.getElem?_map, List.getElem?_map]
  by_cases hk : k < l.length
  · have hin : (k + c) % l.length < l.length := Nat.mod_lt _ (Nat.zero_lt_of_lt hk)
    rw [List.getElem?_range hk, List.getElem?_rotate hk, Option.map_some,
      getElem?_restart (Nat.zero_lt_of_lt hk) h, Nat.add_comm, List.getElem?_eq_getElem hin,
      Option.map_some]
  · rw [List.getElem?_eq_none (by simpa using hk), List.getElem?_eq_none (by simpa using hk)]
    rfl

/-- What is read in the last `j` steps before the restart. -/
def closing (l : List α) (N j : Nat) : List (Option α) :=
  (List.range j).map fun k => l[(N - j + k) % l.length]?

theorem closing_succ {j : Nat} (hj : j < N) :
    closing l N (j + 1) = l[(N - (j + 1)) % l.length]? :: closing l N j := by
  unfold closing
  rw [List.range_succ_eq_map, List.map_cons, List.map_map, Nat.add_zero]
  congr 1
  apply List.map_congr_left
  intro k _
  have hplace : N - (j + 1) + (k + 1) = N - j + k := by omega
  rw [Function.comp_apply, Nat.succ_eq_add_one, hplace]

/-- A round across the restart ends with the start of the list. -/
theorem readings_across {j : Nat} (hlen : l.length ≤ N) (hj : j ≤ l.length) :
    readings l N (N - j) l.length = closing l N j ++ (l.take (l.length - j)).map some := by
  obtain ⟨m, hm⟩ := Nat.exists_eq_add_of_le hj
  have hstart : (l.take m).map some = (List.range m).map fun k => l[k]? := by
    apply List.ext_getElem?
    intro k
    rw [List.getElem?_map, List.getElem?_map]
    by_cases hk : k < m
    · have hin : k < l.length := by omega
      rw [List.getElem?_take_of_lt hk, List.getElem?_range hk, Option.map_some,
        List.getElem?_eq_getElem hin, Option.map_some]
    · rw [List.getElem?_eq_none (by simp; omega), List.getElem?_eq_none (by simpa using hk)]
      rfl
  unfold readings closing
  rw [show l.length - j = m by omega, hstart]
  generalize hW : l.length = W at *
  subst hm
  rw [List.range_add, List.map_append, List.map_map]
  congr 1
  · apply List.map_congr_left
    intro k hk
    have hk : k < j := List.mem_range.mp hk
    rw [Nat.mod_eq_of_lt (show N - j + k < N by omega)]
  · apply List.map_congr_left
    intro k hk
    have hk : k < m := List.mem_range.mp hk
    have hplace : N - j + (j + k) = N + k := by omega
    rcases Nat.eq_or_lt_of_le (show k ≤ N by omega) with rfl | hlt
    · omega
    · rw [Function.comp_apply, hplace, Nat.add_mod_left, Nat.mod_eq_of_lt hlt,
        Nat.mod_eq_of_lt (by omega)]

/-- Rounds across the restart that read everything once leave no choice for what is read just
before it. -/
theorem rotate_of_readings (hlen : l.length ≤ N)
    (h : ∀ c < N, (readings l N c l.length).Perm (l.map some)) : l.rotate N = l := by
  have hclosing : ∀ j ≤ l.length, (closing l N j).Perm ((l.drop (l.length - j)).map some) := by
    intro j hj
    rcases Nat.eq_zero_or_pos j with rfl | hpos
    · simp [closing]
    · have hround := h (N - j) (by omega)
      have hsplit : l.map some =
          (l.take (l.length - j)).map some ++ (l.drop (l.length - j)).map some := by
        rw [← List.map_append, List.take_append_drop]
      rw [readings_across hlen hj, hsplit] at hround
      exact (List.perm_append_right_iff _).mp (hround.trans List.perm_append_comm)
  apply List.ext_getElem?
  intro i
  by_cases hi : i < l.length
  · obtain ⟨j, hj⟩ := Nat.exists_eq_add_of_lt hi
    have hlast := hclosing (j + 1) (by omega)
    have hplace : l.length - (j + 1) = i := by omega
    have hnext : l.length - j = i + 1 := by omega
    have hread : (N - (j + 1)) % l.length = (i + N) % l.length := by
      rw [← Nat.add_mod_right (N - (j + 1))]
      congr 1
      omega
    rw [closing_succ (by omega), hplace, hread, List.drop_eq_getElem_cons hi,
      List.map_cons] at hlast
    have hrest := hclosing j (by omega)
    rw [hnext] at hrest
    have hone := hlast.trans ((hrest.symm.cons (some l[i])))
    rw [List.getElem?_rotate hi, List.getElem?_eq_getElem hi]
    exact List.singleton_perm_singleton.mp
      ((List.perm_append_right_iff (closing l N j)).mp hone)
  · rw [List.getElem?_eq_none (by simpa using hi), List.getElem?_eq_none (by simpa using hi)]

/-- A list that starts with all the copies of one element repeats itself only after whole rounds,
unless it ends with a copy of it as well. -/
theorem dvd_of_rotate {a : α} {w : Nat} {rest : List α} (hl : l = List.replicate w a ++ rest)
    (hw : 0 < w) (ha : a ∉ rest) (hne : rest ≠ []) (h : l.rotate N = l) : l.length ∣ N := by
  by_contra hdvd
  have hlen : l.length = w + rest.length := by simp [hl]
  have hrest : 0 < rest.length := List.length_pos_of_ne_nil hne
  have hpos : 0 < l.length := by omega
  have hr : N % l.length < l.length := Nat.mod_lt _ hpos
  have hr0 : 0 < N % l.length := Nat.pos_of_ne_zero fun h0 => hdvd (Nat.dvd_of_mod_eq_zero h0)
  -- the place a rotation brings to the front holds a copy, so the one before it does too
  have hfront := congrArg (·[0]?) h
  have hback := congrArg (·[l.length - 1]?) h
  simp only [List.getElem?_rotate hpos, Nat.zero_add] at hfront
  rw [List.getElem?_rotate (Nat.sub_lt hpos Nat.one_pos)] at hback
  have hcopy : ∀ k, l[k]? = some a ↔ k < w := by
    intro k
    subst hl
    by_cases hk : k < w
    · rw [List.getElem?_append_left (by simpa using hk)]
      simp [hk]
    · rw [List.getElem?_append_right (by simpa using hk)]
      refine ⟨fun hmem => absurd (List.mem_of_getElem? hmem) ha, fun h => absurd h hk⟩
  have hin : N % l.length < w := (hcopy _).mp (hfront.trans ((hcopy 0).mpr hw))
  have hwrap : (l.length - 1 + N) % l.length = N % l.length - 1 := by
    have hsplit := Nat.mod_add_div N l.length
    have hplace : l.length - 1 + N = N % l.length - 1 + l.length * (N / l.length + 1) := by
      rw [Nat.mul_succ]
      omega
    rw [hplace, Nat.add_mul_mod_self_left, Nat.mod_eq_of_lt (by omega)]
  rw [hwrap] at hback
  have hlast := (hcopy (l.length - 1)).mp (hback.symm.trans ((hcopy _).mpr (by omega)))
  omega

end HelixRouter.Containers
