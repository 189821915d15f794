import Mathlib.Data.List.Induction

namespace HelixRouter.Runs

variable {up down n : Nat} {b x : Bool} {l after : List Bool}

/-- How many of the latest answers in a row were `b`. -/
def streak (b : Bool) (l : List Bool) : Nat := l.foldl (fun n x => if x = b then n + 1 else 0) 0

@[simp] theorem streak_nil (b : Bool) : streak b [] = 0 := rfl

@[simp] theorem streak_concat (b x : Bool) (l : List Bool) :
    streak b (l ++ [x]) = if x = b then streak b l + 1 else 0 := by
  simp only [streak, List.foldl_append, List.foldl_cons, List.foldl_nil]

theorem replicate_suffix_iff : List.replicate n b <:+ l ↔ n ≤ streak b l := by
  induction l using List.reverseRecOn generalizing n with
  | nil => simp [streak_nil, List.suffix_nil]
  | append_singleton l x ih =>
    cases n with
    | zero => simp
    | succ n =>
      have hlast : List.replicate (n + 1) b <:+ l ++ [x] ↔ x = b ∧ n ≤ streak b l := by
        rw [← ih, List.replicate_succ', List.suffix_concat_iff]
        constructor
        · rintro (hnil | ⟨t, heq, ht⟩)
          · simp at hnil
          · obtain ⟨rfl, hb⟩ := List.append_inj' heq rfl
            exact ⟨(List.singleton_inj.mp hb).symm, ht⟩
        · rintro ⟨rfl, ht⟩
          exact .inr ⟨_, rfl, ht⟩
      rw [hlast, streak_concat]
      split
      · rename_i hx
        rw [Nat.succ_le_succ_iff]
        exact and_iff_right hx
      · rename_i hx
        exact ⟨fun h => absurd h.1 hx, fun h => absurd h (Nat.not_succ_le_zero n)⟩

/-- Some `down` failures in a row were not followed by `up` successes in a row. -/
def Tripped (up down : Nat) (l : List Bool) : Prop :=
  ∃ before after, l = before ++ List.replicate down false ++ after ∧
    ¬ List.replicate up true <:+: after

theorem not_tripped_nil (hdown : 0 < down) : ¬ Tripped up down [] := by
  rintro ⟨before, after, heq, -⟩
  have hlen := congrArg List.length heq
  simp only [List.length_nil, List.length_append, List.length_replicate] at hlen
  omega

/-- Enough failures trip it whatever came before. -/
theorem tripped_of_streak (hup : 0 < up) (h : down ≤ streak false l) : Tripped up down l := by
  obtain ⟨before, hbefore⟩ := replicate_suffix_iff.mpr h
  refine ⟨before, [], by rw [List.append_nil, hbefore], ?_⟩
  rw [List.infix_nil, List.replicate_eq_nil_iff]
  omega

/-- A row of successes at the end begins after every failure. -/
theorem replicate_suffix_after (hdown : 0 < down) {before : List Bool}
    (h : List.replicate up true <:+ before ++ List.replicate down false ++ after) :
    List.replicate up true <:+ after := by
  obtain ⟨down, rfl⟩ := Nat.exists_eq_add_one.mpr hdown
  rw [List.replicate_succ', ← List.append_assoc, List.append_assoc] at h
  rcases Nat.lt_or_ge after.length up with hlt | hle
  · have hmid : [false] ++ after <:+ List.replicate up true := by
      refine List.suffix_of_suffix_length_le (List.suffix_append _ _) h ?_
      simp only [List.length_append, List.length_singleton, List.length_replicate]
      omega
    have hmem : false ∈ List.replicate up true := hmid.mem (by simp)
    cases List.eq_of_mem_replicate hmem
  · refine List.suffix_of_suffix_length_le h ?_ (by simpa using hle)
    rw [← List.append_assoc]
    exact List.suffix_append _ _

/-- Enough successes reset it whatever came before. -/
theorem not_tripped_of_streak (hdown : 0 < down) (h : up ≤ streak true l) :
    ¬ Tripped up down l := by
  rintro ⟨before, after, rfl, hno⟩
  exact hno (replicate_suffix_after hdown (replicate_suffix_iff.mpr h)).isInfix

theorem Tripped.of_concat (h : Tripped up down (l ++ [x])) :
    Tripped up down l ∨ down ≤ streak false (l ++ [x]) := by
  obtain ⟨before, after, heq, hno⟩ := h
  rcases List.eq_nil_or_concat after with rfl | ⟨after, y, rfl⟩
  · rw [List.append_nil] at heq
    exact .inr (replicate_suffix_iff.mp (heq ▸ List.suffix_append _ _))
  · rw [List.concat_eq_append, ← List.append_assoc] at heq
    obtain ⟨rfl, -⟩ := List.append_inj' heq rfl
    refine .inl ⟨before, after, rfl, fun hinfix => hno ?_⟩
    exact hinfix.trans (List.concat_eq_append ▸ (List.prefix_append _ _).isInfix)

theorem tripped_concat_false (hup : 0 < up) :
    Tripped up down (l ++ [false]) ↔ Tripped up down l ∨ down ≤ streak false (l ++ [false]) := by
  refine ⟨Tripped.of_concat, ?_⟩
  rintro (⟨before, after, rfl, hno⟩ | h)
  · refine ⟨before, after ++ [false], by rw [List.append_assoc], fun hinfix => ?_⟩
    rcases List.infix_concat_iff.mp hinfix with hsuffix | hinfix
    · have hzero := replicate_suffix_iff.mp hsuffix
      rw [streak_concat] at hzero
      simp only [Bool.false_eq_true, if_false] at hzero
      omega
    · exact hno hinfix
  · exact tripped_of_streak hup h

theorem tripped_concat_true (hdown : 0 < down) :
    Tripped up down (l ++ [true]) ↔
      Tripped up down l ∧ ¬ up ≤ streak true (l ++ [true]) := by
  constructor
  · intro h
    refine ⟨?_, fun hle => not_tripped_of_streak hdown hle h⟩
    rcases h.of_concat with h | h
    · exact h
    · rw [streak_concat] at h
      simp only [Bool.true_eq_false, if_false] at h
      omega
  · rintro ⟨⟨before, after, rfl, hno⟩, hlt⟩
    refine ⟨before, after ++ [true], by rw [List.append_assoc], fun hinfix => ?_⟩
    rcases List.infix_concat_iff.mp hinfix with hsuffix | hinfix
    · apply hlt
      rw [← replicate_suffix_iff, List.append_assoc]
      exact hsuffix.trans (List.suffix_append _ _)
    · exact hno hinfix

end HelixRouter.Runs
