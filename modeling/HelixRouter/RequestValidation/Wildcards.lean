import HelixRouter.RequestValidation.Schemas

namespace HelixRouter.RequestValidation

open Texts

/-- Parts that stand one after the other with any gaps before them, the last at the end. -/
def Spread : List Text → Text → Prop
  | [], rest => rest = []
  | part :: parts, rest => ∃ gap more, rest = gap ++ (part ++ more) ∧ Spread parts more

variable {pattern first part gap more rest t : Text} {parts : List Text}

section Split

/-- Where the first character of a split pattern leads. -/
theorem splitOn_star : ('*' :: pattern).splitOn '*' = [] :: pattern.splitOn '*' := by
  simp [List.splitOn_cons_eq_if_modifyHead]

theorem splitOn_cons {c : Char} (hc : c ≠ '*') (h : pattern.splitOn '*' = first :: parts) :
    (c :: pattern).splitOn '*' = (c :: first) :: parts := by
  simp [List.splitOn_cons_eq_if_modifyHead, hc, h]

/-- A text is as a pattern says if it starts with the first part and the others are spread
over what follows. -/
theorem glob_iff_spread (h : pattern.splitOn '*' = first :: parts) :
    Glob pattern t ↔ ∃ rest, t = first ++ rest ∧ Spread parts rest := by
  induction pattern generalizing first parts t with
  | nil =>
    obtain ⟨rfl, rfl⟩ := List.cons.inj h
    simp [Glob, Spread]
  | cons c pattern ih =>
    obtain ⟨f, fs, hsplit⟩ := List.exists_cons_of_ne_nil (List.splitOn_ne_nil '*' pattern)
    by_cases hc : c = '*'
    · subst hc
      rw [splitOn_star, hsplit] at h
      obtain ⟨rfl, rfl⟩ := List.cons.inj h
      simp only [Glob, if_pos, ih hsplit, List.nil_append, exists_eq_left', Spread]
      constructor
      · rintro ⟨a, b, rfl, rest, rfl, hs⟩
        exact ⟨a, rest, rfl, hs⟩
      · rintro ⟨gap, more, rfl, hs⟩
        exact ⟨gap, f ++ more, rfl, more, rfl, hs⟩
    · rw [splitOn_cons hc hsplit] at h
      obtain ⟨rfl, rfl⟩ := List.cons.inj h
      simp only [Glob, if_neg hc, ih hsplit]
      constructor
      · rintro ⟨_, rfl, rest, rfl, hs⟩
        exact ⟨rest, rfl, hs⟩
      · rintro ⟨rest, rfl, hs⟩
        exact ⟨f ++ rest, rfl, rest, rfl, hs⟩

/-- Behind a star that ends a pattern stands an empty last part. -/
theorem getLast?_splitOn (h : pattern.splitOn '*' = first :: parts)
    (hstar : pattern.getLast? = some '*') : parts.getLast? = some [] := by
  induction pattern generalizing first parts with
  | nil => cases hstar
  | cons c pattern ih =>
    obtain ⟨f, fs, hsplit⟩ := List.exists_cons_of_ne_nil (List.splitOn_ne_nil '*' pattern)
    have hlast : pattern = [] ∨ pattern.getLast? = some '*' := by
      cases pattern with
      | nil => exact Or.inl rfl
      | cons d pattern => exact Or.inr (by simpa using hstar)
    by_cases hc : c = '*'
    · subst hc
      rw [splitOn_star, hsplit] at h
      obtain ⟨-, rfl⟩ := List.cons.inj h
      rcases hlast with rfl | hlast
      · obtain ⟨rfl, rfl⟩ := List.cons.inj hsplit
        rfl
      · rw [List.getLast?_cons, ih hsplit hlast]
        rfl
    · rw [splitOn_cons hc hsplit] at h
      obtain ⟨-, rfl⟩ := List.cons.inj h
      rcases hlast with rfl | hlast
      · simp [hc] at hstar
      · exact ih hsplit hlast

end Split

section Search

theorem exists_of_findAfter (h : findAfter part t = some rest) :
    ∃ gap, t = gap ++ (part ++ rest) := by
  induction t with
  | nil =>
    obtain ⟨hpart, he⟩ := Option.ite_none_right_eq_some.mp h
    obtain rfl := Option.some.inj he
    exact ⟨[], by rw [hpart]; rfl⟩
  | cons c t ih =>
    rw [findAfter] at h
    split at h
    · rename_i hbegins
      obtain ⟨more, hmore⟩ := List.isPrefixOf_iff_prefix.mp hbegins
      rw [← hmore, List.drop_left] at h
      obtain rfl := Option.some.inj h
      exact ⟨[], hmore.symm⟩
    · obtain ⟨gap, rfl⟩ := ih h
      exact ⟨c :: gap, rfl⟩

/-- The first place leaves at least what any other place does. -/
theorem findAfter_append :
    ∃ extra, findAfter part (gap ++ (part ++ more)) = some (extra ++ more) := by
  induction gap with
  | nil =>
    cases hp : part ++ more with
    | nil =>
      obtain ⟨rfl, rfl⟩ := List.append_eq_nil_iff.mp hp
      exact ⟨[], rfl⟩
    | cons c t =>
      refine ⟨[], ?_⟩
      rw [List.nil_append, findAfter, ← hp, if_pos (by simp), List.drop_left]
      rfl
  | cons c gap ih =>
    rw [List.cons_append, findAfter]
    split
    · rename_i hbegins
      obtain ⟨u, hu⟩ := List.isPrefixOf_iff_prefix.mp hbegins
      have hle : more.length ≤ u.length := by
        have := congrArg List.length hu
        simp at this
        omega
      have hsuffix : more <:+ u := by
        refine List.suffix_of_suffix_length_le ?_ (List.suffix_append part u) hle
        rw [hu]
        exact ⟨c :: gap ++ part, by simp⟩
      obtain ⟨extra, rfl⟩ := hsuffix
      exact ⟨extra, by rw [← hu, List.drop_left]⟩
    · exact ih

/-- What is found part by part stands, spread, before what is left. -/
theorem matchParts_sound (h : matchParts parts t = some rest) :
    ∃ front, t = front ++ rest ∧ Spread parts front := by
  induction parts generalizing t with
  | nil =>
    obtain rfl := Option.some.inj h
    exact ⟨[], rfl, rfl⟩
  | cons part parts ih =>
    rw [matchParts] at h
    split at h
    · rename_i hpart
      subst hpart
      obtain ⟨front, rfl, hs⟩ := ih h
      exact ⟨front, rfl, [], front, rfl, hs⟩
    · obtain ⟨u, hfind, hmatch⟩ := Option.bind_eq_some_iff.mp h
      obtain ⟨gap, rfl⟩ := exists_of_findAfter hfind
      obtain ⟨front, rfl, hs⟩ := ih hmatch
      exact ⟨gap ++ (part ++ front), by simp, gap, front, rfl, hs⟩

/-- The search from the left leaves at least what any way to spread the parts leaves. -/
theorem matchParts_leftmost (hs : Spread parts t) (gap rest : Text) :
    ∃ extra, matchParts parts (gap ++ (t ++ rest)) = some (extra ++ rest) := by
  induction parts generalizing t gap with
  | nil =>
    obtain rfl : t = [] := hs
    exact ⟨gap, rfl⟩
  | cons part parts ih =>
    obtain ⟨inner, more, rfl, hs⟩ := hs
    rw [matchParts]
    split
    · rename_i hpart
      subst hpart
      obtain ⟨extra, he⟩ := ih hs (gap ++ inner)
      exact ⟨extra, by simpa using he⟩
    · have hassoc : gap ++ (inner ++ (part ++ more) ++ rest) =
          (gap ++ inner) ++ (part ++ (more ++ rest)) := by simp
      obtain ⟨extra, hfind⟩ : ∃ extra, findAfter part ((gap ++ inner) ++ (part ++ (more ++ rest))) =
          some (extra ++ (more ++ rest)) := findAfter_append
      rw [hassoc, hfind]
      exact ih hs extra

/-- With nothing left a last part that is empty takes everything. -/
theorem Spread.append_of_getLast? (hs : Spread parts t) (hlast : parts.getLast? = some [])
    (more : Text) : Spread parts (t ++ more) := by
  induction parts generalizing t with
  | nil => cases hlast
  | cons part parts ih =>
    obtain ⟨gap, u, rfl, hs⟩ := hs
    cases parts with
    | nil =>
      obtain rfl : part = [] := Option.some.inj hlast
      obtain rfl : u = [] := hs
      exact ⟨gap ++ more, [], by simp, rfl⟩
    | cons q parts => exact ⟨gap, u ++ more, by simp, ih hs hlast⟩

end Search

section Match

theorem splitOn_of_not_mem (h : '*' ∉ pattern) : pattern.splitOn '*' = [pattern] :=
  List.splitOn_eq_singleton h

theorem glob_of_not_mem (h : '*' ∉ pattern) : Glob pattern t ↔ pattern = t := by
  rw [glob_iff_spread (splitOn_of_not_mem h)]
  simp [Spread, eq_comm]

/-- The search finds a beginning of the value that is as the pattern says, and takes it where
it is the whole value or the pattern ends in a star. -/
theorem wildcardMatch_eq_true_iff (hstar : '*' ∈ pattern)
    (hsplit : pattern.splitOn '*' = first :: parts) :
    wildcardMatch pattern t = true ↔ ∃ u rest, t = first ++ u ∧
      matchParts parts u = some rest ∧ (pattern.getLast? = some '*' ∨ rest = []) := by
  rw [wildcardMatch, if_neg (not_not_intro hstar), hsplit]
  dsimp only
  constructor
  · intro h
    split at h
    · rename_i hfirst
      obtain ⟨u, rfl⟩ := List.isPrefixOf_iff_prefix.mp hfirst
      rw [List.drop_left] at h
      cases hm : matchParts parts u with
      | none => simp [hm] at h
      | some rest => exact ⟨u, rest, rfl, hm, by simpa [hm] using h⟩
    · cases h
  · intro h
    obtain ⟨u, rest, rfl, hm, hend⟩ := h
    simp [hm, hend]

/-- What is matched from the left is as the pattern says. -/
theorem glob_of_wildcardMatch (h : wildcardMatch pattern t = true) : Glob pattern t := by
  by_cases hstar : '*' ∈ pattern
  · obtain ⟨first, parts, hsplit⟩ := List.exists_cons_of_ne_nil (List.splitOn_ne_nil '*' pattern)
    obtain ⟨u, rest, rfl, hm, hend⟩ := (wildcardMatch_eq_true_iff hstar hsplit).mp h
    obtain ⟨front, rfl, hs⟩ := matchParts_sound hm
    refine (glob_iff_spread hsplit).mpr ⟨_, rfl, ?_⟩
    rcases hend with hlast | hrest
    · exact hs.append_of_getLast? (getLast?_splitOn hsplit hlast) rest
    · rw [hrest, List.append_nil]
      exact hs
  · rw [wildcardMatch, if_pos hstar] at h
    exact (glob_of_not_mem hstar).mpr (of_decide_eq_true h)

/-- A proper beginning of the text is as the pattern says. -/
def BeginsAs (pattern t : Text) : Prop :=
  ∃ front rest, rest ≠ [] ∧ t = front ++ rest ∧ Glob pattern front

theorem not_beginsAs_of_not_mem (hstar : '*' ∉ pattern) (hglob : Glob pattern t) :
    ¬BeginsAs pattern t := by
  intro hbegins
  obtain ⟨front, rest, hne, he, hfront⟩ := hbegins
  rw [← (glob_of_not_mem hstar).mp hglob, (glob_of_not_mem hstar).mp hfront] at he
  exact hne (List.self_eq_append_right.mp he)

/-- The search stops too early exactly where it can stop before the end of the value. -/
theorem wildcardMatch_iff_not_beginsAs (hglob : Glob pattern t) :
    wildcardMatch pattern t = true ↔ pattern.getLast? = some '*' ∨ ¬BeginsAs pattern t := by
  by_cases hstar : '*' ∈ pattern
  · obtain ⟨first, parts, hsplit⟩ := List.exists_cons_of_ne_nil (List.splitOn_ne_nil '*' pattern)
    obtain ⟨u, rfl, hs⟩ := (glob_iff_spread hsplit).mp hglob
    obtain ⟨left, hm⟩ := matchParts_leftmost hs [] []
    simp only [List.nil_append, List.append_nil] at hm
    rw [wildcardMatch_eq_true_iff hstar hsplit]
    constructor
    · intro h
      obtain ⟨v, rest, hv, hmv, hend⟩ := h
      obtain rfl := List.append_cancel_left hv
      refine hend.imp_right fun hrest hbegins => ?_
      obtain ⟨front, more, hne, he, hfront⟩ := hbegins
      obtain ⟨w, rfl, hw⟩ := (glob_iff_spread hsplit).mp hfront
      rw [List.append_assoc] at he
      obtain rfl := List.append_cancel_left he
      obtain ⟨extra, hextra⟩ := matchParts_leftmost hw [] more
      rw [List.nil_append, hmv, hrest] at hextra
      exact hne (List.append_eq_nil_iff.mp (Option.some.inj hextra).symm).2
    · intro h
      refine ⟨u, left, rfl, hm, h.imp_right fun hbegins => ?_⟩
      obtain ⟨front, rfl, hfront⟩ := matchParts_sound hm
      by_contra hne
      exact hbegins ⟨first ++ front, left, hne, by simp,
        (glob_iff_spread hsplit).mpr ⟨front, rfl, hfront⟩⟩
  · rw [wildcardMatch, if_pos hstar]
    exact ⟨fun _ => Or.inr (not_beginsAs_of_not_mem hstar hglob),
      fun _ => decide_eq_true ((glob_of_not_mem hstar).mp hglob)⟩

/-- The match from the left is the pattern's where the pattern has no star or ends in one. -/
theorem wildcardMatch_iff_glob (h : '*' ∉ pattern ∨ pattern.getLast? = some '*') :
    wildcardMatch pattern t = true ↔ Glob pattern t := by
  refine ⟨glob_of_wildcardMatch, fun hglob => (wildcardMatch_iff_not_beginsAs hglob).mpr ?_⟩
  exact h.symm.imp_right fun hstar => not_beginsAs_of_not_mem hstar hglob

/-- The match from the left is what the pattern says, unless the pattern does not end in a
star and both the value and a proper beginning of it are as the pattern says. -/
theorem wildcard_exact_iff (pattern value : Text) :
    (wildcardMatch pattern value = true ↔ Glob pattern value) ↔
      pattern.getLast? = some '*' ∨ (Glob pattern value → ¬BeginsAs pattern value) := by
  constructor
  · intro h
    by_cases hglob : Glob pattern value
    · exact ((wildcardMatch_iff_not_beginsAs hglob).mp (h.mpr hglob)).imp_right fun hn _ => hn
    · exact Or.inr fun hg => absurd hg hglob
  · intro h
    refine ⟨glob_of_wildcardMatch, fun hglob => ?_⟩
    exact (wildcardMatch_iff_not_beginsAs hglob).mpr (h.imp_right fun hn => hn hglob)

/-- The star could take the first label, but the search stops behind it. -/
theorem two_labels_missed :
    ¬(wildcardMatch "*.com".toList "a.com.com".toList = true ↔
      Glob "*.com".toList "a.com.com".toList) := by
  intro h
  have hglob : Glob "*.com".toList "a.com.com".toList := by
    refine ⟨"a.com".toList, ".com".toList, rfl, ?_⟩
    exact ⟨_, rfl, _, rfl, _, rfl, _, rfl, rfl⟩
  exact absurd (h.mpr hglob) (by decide)

/-- The last star of a pattern takes anything. -/
theorem glob_last_star (hlit : '*' ∉ rest) :
    ∀ pattern : Text, ∃ front, ∀ mid, Glob (pattern ++ '*' :: rest) (front ++ (mid ++ rest))
  | [] => ⟨[], fun mid => ⟨mid, rest, rfl, (glob_of_not_mem hlit).mpr rfl⟩⟩
  | c :: pattern => by
    obtain ⟨front, hfront⟩ := glob_last_star hlit pattern
    by_cases hc : c = '*'
    · subst hc
      exact ⟨front, fun mid => ⟨[], _, rfl, hfront mid⟩⟩
    · refine ⟨c :: front, fun mid => ?_⟩
      rw [List.cons_append, Glob, if_neg hc]
      exact ⟨_, rfl, hfront mid⟩

theorem exists_last_star (h : '*' ∈ pattern) : ∃ q l, pattern = q ++ '*' :: l ∧ '*' ∉ l := by
  obtain ⟨l, q, he, hl⟩ := List.eq_append_cons_of_mem (List.mem_reverse.mpr h)
  refine ⟨q.reverse, l.reverse, ?_, by simpa using hl⟩
  simpa using congrArg List.reverse he

/-- The patterns that are matched as they say against every value. -/
theorem wildcardMatch_iff_glob_forall :
    (∀ t, wildcardMatch pattern t = true ↔ Glob pattern t) ↔
      '*' ∉ pattern ∨ pattern.getLast? = some '*' := by
  refine ⟨fun h => ?_, fun h t => wildcardMatch_iff_glob h⟩
  by_contra hn
  obtain ⟨hstar, hlast⟩ := not_or.mp hn
  obtain ⟨q, l, rfl, hl⟩ := exists_last_star (not_not.mp hstar)
  have hne : l ≠ [] := by
    intro he
    exact hlast (by simp [he])
  -- the part behind the last star twice: the search stops behind the first one
  obtain ⟨front, hfront⟩ := glob_last_star hl q
  have hmatch := (h _).mpr (hfront l)
  rcases (wildcardMatch_iff_not_beginsAs (hfront l)).mp hmatch with hends | hbegins
  · exact hlast hends
  · exact hbegins ⟨front ++ l, l, hne, by simp, by simpa using hfront []⟩

end Match

end HelixRouter.RequestValidation
