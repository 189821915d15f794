import Mathlib.Data.List.Dedup
import Mathlib.Data.List.DropRight
import Mathlib.Data.List.Nodup

namespace HelixRouter.Containers

variable {K : Type} [DecidableEq K] {order uses : List K} {k : K}

/-- Using a key once more moves it behind the others. -/
theorem dedup_concat (uses : List K) (k : K) : (uses ++ [k]).dedup = uses.dedup.erase k ++ [k] := by
  induction uses with
  | nil => simp
  | cons a uses ih =>
    by_cases ha : a ∈ uses
    · rw [List.cons_append, List.dedup_cons_of_mem (List.mem_append_left _ ha), ih,
        List.dedup_cons_of_mem ha]
    rw [List.dedup_cons_of_notMem ha]
    by_cases hk : a = k
    · subst hk
      have hmem : a ∈ uses ++ [a] := List.mem_append_right _ List.mem_cons_self
      have hgone : a ∉ uses.dedup := fun h => ha (List.mem_dedup.mp h)
      rw [List.cons_append, List.dedup_cons_of_mem hmem, ih, List.erase_cons_head,
        List.erase_of_not_mem hgone]
    · have hmem : a ∉ uses ++ [k] := by simp [ha, hk]
      rw [List.cons_append, List.dedup_cons_of_notMem hmem, ih,
        List.erase_cons_tail (by simpa using hk), List.cons_append]

/-- The order lists some of the keys by their last uses, the latest last. -/
def ByRecency (order uses : List K) : Prop := order.Sublist uses.dedup

theorem ByRecency.nodup (h : ByRecency order uses) : order.Nodup :=
  List.Sublist.nodup h (List.nodup_dedup uses)

theorem ByRecency.use (h : ByRecency order uses) (k : K) :
    ByRecency (order.erase k ++ [k]) (uses ++ [k]) := by
  rw [ByRecency, dedup_concat]
  exact (h.erase k).append_right [k]

theorem ByRecency.sublist {kept : List K} (h : ByRecency order uses) (hk : kept.Sublist order) :
    ByRecency kept uses := hk.trans h

end HelixRouter.Containers

namespace HelixRouter.Window

variable {α β : Type} {n : Nat} {l : List α} {x : α}

/-- A log of bounded length takes a new entry, and drops the oldest one if it has to. -/
def keep (n : Nat) (log : List α) (x : α) : List α :=
  if n < (log ++ [x]).length then (log ++ [x]).tail else log ++ [x]

theorem length_rtake : (l.rtake n).length = min n l.length := by
  rw [List.rtake, List.length_drop]
  omega

theorem rtake_of_length_le (h : l.length ≤ n) : l.rtake n = l := by
  rw [List.rtake, Nat.sub_eq_zero_of_le h, List.drop_zero]

theorem rtake_append_of_length_eq {m : List α} (h : m.length = n) : (l ++ m).rtake n = m := by
  subst h
  rw [List.rtake, List.length_append, Nat.add_sub_cancel, List.drop_left]

/-- The log holds the last entries of everything that was put into it. -/
theorem keep_rtake : keep n (l.rtake n) x = (l ++ [x]).rtake n := by
  unfold keep
  rw [List.length_append, length_rtake, List.length_singleton]
  split
  · rename_i hfull
    have hle : n ≤ l.length := by omega
    obtain ⟨first, hfirst⟩ : ∃ m, l = m ++ l.rtake n :=
      ⟨_, (List.take_append_drop (l.length - n) l).symm⟩
    have hlen : (l.rtake n ++ [x]).tail.length = n := by
      simp only [List.length_tail, List.length_append, length_rtake, List.length_singleton]
      omega
    have hsplit : l ++ [x] = (first ++ (l.rtake n ++ [x]).take 1) ++ (l.rtake n ++ [x]).tail := by
      rw [List.append_assoc, ← List.drop_one, List.take_append_drop, ← List.append_assoc,
        ← hfirst]
    rw [hsplit, rtake_append_of_length_eq hlen]
  · have hlen : (l ++ [x]).length ≤ n := by
      rw [List.length_append, List.length_singleton]
      omega
    rw [rtake_of_length_le hlen, rtake_of_length_le (by simp at hlen; omega)]

theorem foldl_keep_rtake (xs : List α) : xs.foldl (keep n) (l.rtake n) = (l ++ xs).rtake n := by
  induction xs generalizing l with
  | nil => rw [List.foldl_nil, List.append_nil]
  | cons x xs ih => rw [List.foldl_cons, keep_rtake, ih, List.append_assoc, List.singleton_append]

theorem map_rtake (f : α → β) : (l.map f).rtake n = (l.rtake n).map f := by
  rw [List.rtake, List.rtake, List.length_map, List.map_drop]

/-- The last entries are those of a part of the list exactly if they belong to it. -/
theorem rtake_filter_iff {p : α → Bool} :
    (l.filter p).rtake n = l.rtake n ↔ ∀ x ∈ l.rtake n, p x = true := by
  constructor
  · intro h x hx
    rw [← h] at hx
    exact (List.mem_filter.mp (List.mem_of_mem_drop hx)).2
  · intro h
    by_cases hle : l.length ≤ n
    · rw [rtake_of_length_le hle] at h ⊢
      rw [List.filter_eq_self.mpr h, rtake_of_length_le hle]
    · have hlen : (l.rtake n).length = n := by
        rw [length_rtake]
        omega
      have hsplit : l.filter p = (l.take (l.length - n)).filter p ++ l.rtake n := by
        conv_lhs => rw [← List.take_append_drop (l.length - n) l]
        rw [List.filter_append]
        exact congrArg _ (List.filter_eq_self.mpr h)
      rw [hsplit, rtake_append_of_length_eq hlen]

end HelixRouter.Window
