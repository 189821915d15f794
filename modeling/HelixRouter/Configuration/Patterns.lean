import HelixRouter.Configuration.DynamicConfig
import HelixRouter.RequestValidation.Wildcards

namespace HelixRouter.Configuration

open Texts RequestValidation

/-- The texts that a pattern without its anchors is for: each `.*` stands for any text, and each
other character for itself. -/
def Denotes : Text → Text → Prop
  | [], t => t = []
  | '.' :: '*' :: pattern, t => ∃ any rest, t = any ++ rest ∧ Denotes pattern rest
  | c :: pattern, t => ∃ rest, t = c :: rest ∧ Denotes pattern rest

def core (pattern : Text) : Text := (pattern.dropWhile (· = '^')).rdropWhile (· = '$')

def AnchoredStart (pattern : Text) : Prop := pattern.head? = some '^'

def AnchoredEnd (pattern : Text) : Prop := pattern.getLast? = some '$'

instance (pattern : Text) : Decidable (AnchoredStart pattern) :=
  inferInstanceAs (Decidable (pattern.head? = some '^'))

instance (pattern : Text) : Decidable (AnchoredEnd pattern) :=
  inferInstanceAs (Decidable (pattern.getLast? = some '$'))

/-- A part of the text is as the pattern says, at the ends that it is anchored to. -/
def Means (pattern text : Text) : Prop :=
  ∃ before body after, text = before ++ body ++ after ∧ Denotes (core pattern) body ∧
    (AnchoredStart pattern → before = []) ∧ (AnchoredEnd pattern → after = [])

/-- The front of a pattern stands in the text, and this is left behind it. -/
def Leaves (pattern front text rest : Text) : Prop :=
  ∃ before body, text = before ++ body ++ rest ∧ Denotes front body ∧
    (AnchoredStart pattern → before = [])

/-- The text ends with what stands behind the last `.*` of a pattern that is anchored there, and
what stands before it is in the text as well, but never leaves enough room for it. -/
def Overlaps (pattern text : Text) : Prop :=
  AnchoredEnd pattern ∧ ∃ front last, core pattern = front ++ '.' :: '*' :: last ∧
    ¬ ['.', '*'] <:+: last ∧ last <:+ text ∧ (∃ rest, Leaves pattern front text rest) ∧
    ∀ rest, Leaves pattern front text rest → rest.length < last.length

section Split

variable {p q t u rest front last segment : Text} {segments : List Text}

theorem afterFirst_eq_findAfter (needle t : Text) : afterFirst needle t = findAfter needle t := by
  induction t with
  | nil => rfl
  | cons c t ih => rw [afterFirst, findAfter, ih]

theorem splitAtAny_ne_nil (p : Text) : splitAtAny p ≠ [] := by
  fun_cases splitAtAny p <;> simp_all

theorem splitAtAny_cons {c : Char} (h : ∀ t, c = '.' → p = '*' :: t → False)
    (hp : splitAtAny p = segment :: segments) :
    splitAtAny (c :: p) = (c :: segment) :: segments := by
  rw [splitAtAny.eq_3 c p h, hp]

theorem exists_split (p : Text) : ∃ segment segments, splitAtAny p = segment :: segments :=
  List.exists_cons_of_ne_nil (splitAtAny_ne_nil p)

/-- The parts of a pattern stand one after the other with anything between them. -/
theorem denotes_iff_spread (h : splitAtAny p = segment :: segments) :
    Denotes p t ↔ ∃ more, t = segment ++ more ∧ Spread segments more := by
  fun_induction Denotes p t generalizing segment segments with
  | case1 t =>
    obtain ⟨rfl, rfl⟩ := List.cons.inj h
    simp [Spread]
  | case2 pattern t ih =>
    obtain ⟨first, parts, hsplit⟩ := exists_split pattern
    rw [splitAtAny, hsplit] at h
    obtain ⟨rfl, rfl⟩ := List.cons.inj h
    simp only [ih _ hsplit, List.nil_append, exists_eq_left', Spread]
    constructor
    · rintro ⟨gap, rest, rfl, more, rfl, hs⟩
      exact ⟨gap, more, rfl, hs⟩
    · rintro ⟨gap, more, rfl, hs⟩
      exact ⟨gap, first ++ more, rfl, more, rfl, hs⟩
  | case3 c pattern t hany ih =>
    obtain ⟨first, parts, hsplit⟩ := exists_split pattern
    rw [splitAtAny_cons hany hsplit] at h
    obtain ⟨rfl, rfl⟩ := List.cons.inj h
    simp only [ih _ hsplit]
    constructor
    · rintro ⟨_, rfl, more, rfl, hs⟩
      exact ⟨more, rfl, hs⟩
    · rintro ⟨more, rfl, hs⟩
      exact ⟨first ++ more, rfl, more, rfl, hs⟩

theorem splitAtAny_append (p q : Text) :
    splitAtAny (p ++ '.' :: '*' :: q) = splitAtAny p ++ splitAtAny q := by
  fun_induction splitAtAny p with
  | case1 => rfl
  | case2 t ih => rw [List.cons_append, List.cons_append, splitAtAny, ih, List.cons_append]
  | case3 c t hany segment segments hsplit ih =>
    rw [List.cons_append, splitAtAny_cons ?_ (ih.trans (by rw [hsplit]; rfl))]
    · rfl
    · intro t' hc heq
      cases t with
      | nil => simp at heq
      | cons d t =>
        obtain ⟨rfl, -⟩ := List.cons.inj heq
        exact hany t hc rfl
  | case4 c t hany hnil => exact absurd hnil (splitAtAny_ne_nil t)

/-- A text without `.*` is not split. -/
theorem splitAtAny_of_absent (h : ¬ ['.', '*'] <:+: p) : splitAtAny p = [p] := by
  fun_induction splitAtAny p with
  | case1 => rfl
  | case2 t ih => exact absurd (List.IsPrefix.isInfix ⟨t, rfl⟩) h
  | case3 c t hany segment segments hsplit ih =>
    have heq := hsplit.symm.trans (ih fun hin => h (List.infix_cons hin))
    obtain ⟨rfl, rfl⟩ := List.cons.inj heq
    rfl
  | case4 c t hany hnil => exact absurd hnil (splitAtAny_ne_nil t)

theorem exists_last_any (h : ['.', '*'] <:+: p) :
    ∃ front last, p = front ++ '.' :: '*' :: last ∧ ¬ ['.', '*'] <:+: last := by
  induction p with
  | nil => simp at h
  | cons c p ih =>
    by_cases hin : ['.', '*'] <:+: p
    · obtain ⟨front, last, rfl, hlast⟩ := ih hin
      exact ⟨c :: front, last, rfl, hlast⟩
    · obtain ⟨last, hlast⟩ := (List.infix_cons_iff.mp h).resolve_right hin
      refine ⟨[], last, hlast.symm, fun hl => hin ?_⟩
      obtain ⟨-, rfl⟩ := List.cons.inj hlast
      exact List.infix_cons hl

end Split

section Search

variable {anchoredStart : Bool} {text rest segment last : Text} {segments : List Text}

/-- Without an anchor at the end the segments are searched for from the left. -/
theorem segmentsAppear_free (segments : List Text) (rest : Text) :
    segmentsAppear anchoredStart false text rest false segments =
      (matchParts segments rest).isSome := by
  induction segments generalizing rest with
  | nil => rfl
  | cons segment segments ih =>
    rw [segmentsAppear, matchParts]
    split
    · exact ih rest
    · simp only [Bool.false_and, Bool.and_false, Bool.false_eq_true, if_false,
        afterFirst_eq_findAfter]
      cases findAfter segment rest with
      | none => rfl
      | some rest => exact ih rest

/-- With one the last segment is held against the end of the text, whatever is left of it. -/
theorem segmentsAppear_anchored (segments : List Text) (last rest : Text) :
    segmentsAppear anchoredStart true text rest false (segments ++ [last]) =
      ((matchParts segments rest).isSome && last.isSuffixOf text) := by
  induction segments generalizing rest with
  | nil =>
    rw [List.nil_append, segmentsAppear]
    split
    · rename_i hlast
      rw [hlast]
      rfl
    · simp [segmentsAppear, matchParts]
  | cons segment segments ih =>
    rw [List.cons_append, segmentsAppear, matchParts]
    split
    · exact ih rest
    · simp only [Bool.false_and, Bool.false_eq_true, if_false, Bool.and_true,
        List.isEmpty_iff, List.append_eq_nil_iff, reduceCtorEq, and_false, afterFirst_eq_findAfter]
      cases findAfter segment rest with
      | none => rfl
      | some rest => exact ih rest

/-- What the search for the first segments leaves of the text. -/
def found (anchoredStart : Bool) (text segment : Text) (segments : List Text) : Option Text :=
  if anchoredStart then
    if segment.isPrefixOf text then matchParts segments (text.drop segment.length) else none
  else matchParts (segment :: segments) text

theorem segmentsAppear_first (anchoredStart anchoredEnd : Bool) (text segment : Text)
    (hne : segments ≠ []) :
    segmentsAppear anchoredStart anchoredEnd text text true (segment :: segments) =
      if anchoredStart then
        segment.isPrefixOf text &&
          segmentsAppear true anchoredEnd text (text.drop segment.length) false segments
      else segmentsAppear false anchoredEnd text text false (segment :: segments) := by
  have hmore : segments.isEmpty = false := List.isEmpty_eq_false_iff.mpr hne
  cases anchoredStart with
  | false =>
    rw [if_neg Bool.false_ne_true, segmentsAppear, segmentsAppear]
    rfl
  | true =>
    rw [if_pos rfl, segmentsAppear]
    split
    · rename_i hnil
      rw [hnil]
      rfl
    · rw [Bool.and_self, if_pos rfl]

theorem segmentsAppear_eq_found_free (text segment : Text) (hne : segments ≠ []) :
    segmentsAppear anchoredStart false text text true (segment :: segments) =
      (found anchoredStart text segment segments).isSome := by
  rw [segmentsAppear_first _ _ _ _ hne, found]
  cases anchoredStart with
  | false => exact segmentsAppear_free (segment :: segments) text
  | true =>
    rw [if_pos rfl, if_pos rfl, segmentsAppear_free]
    cases segment.isPrefixOf text <;> rfl

theorem segmentsAppear_eq_found (text segment last : Text) (segments : List Text) :
    segmentsAppear anchoredStart true text text true (segment :: (segments ++ [last])) =
      ((found anchoredStart text segment segments).isSome && last.isSuffixOf text) := by
  rw [segmentsAppear_first _ _ _ _ (by simp), found]
  cases anchoredStart with
  | false => exact segmentsAppear_anchored (segment :: segments) last text
  | true =>
    rw [if_pos rfl, if_pos rfl, segmentsAppear_anchored]
    cases segment.isPrefixOf text <;> rfl

variable {pattern front : Text}

/-- The search leaves at least what any place for the front of the pattern leaves. -/
theorem found_of_leaves (hs : splitAtAny front = segment :: segments)
    (h : Leaves pattern front text rest) : ∃ extra,
      found (decide (AnchoredStart pattern)) text segment segments = some (extra ++ rest) := by
  obtain ⟨before, body, rfl, hbody, hstart⟩ := h
  obtain ⟨more, rfl, hspread⟩ := (denotes_iff_spread hs).mp hbody
  unfold found
  split
  · rename_i hanchor
    rw [hstart (of_decide_eq_true hanchor), List.nil_append, List.append_assoc,
      if_pos (List.isPrefixOf_iff_prefix.mpr (List.prefix_append _ _)), List.drop_left]
    exact matchParts_leftmost hspread [] rest
  · have hall : Spread (segment :: segments) (before ++ (segment ++ more)) :=
      ⟨before, more, rfl, hspread⟩
    exact matchParts_leftmost hall [] rest

theorem leaves_of_found (hs : splitAtAny front = segment :: segments)
    (h : found (decide (AnchoredStart pattern)) text segment segments = some rest) :
    Leaves pattern front text rest := by
  unfold found at h
  split at h
  · obtain ⟨hhead, hmatch⟩ := Option.ite_none_right_eq_some.mp h
    obtain ⟨u, rfl⟩ := List.isPrefixOf_iff_prefix.mp hhead
    rw [List.drop_left] at hmatch
    obtain ⟨more, rfl, hspread⟩ := matchParts_sound hmatch
    exact ⟨[], segment ++ more, by simp, (denotes_iff_spread hs).mpr ⟨more, rfl, hspread⟩,
      fun _ => rfl⟩
  · rename_i hfree
    obtain ⟨t, rfl, before, more, rfl, hspread⟩ := matchParts_sound h
    exact ⟨before, segment ++ more, rfl, (denotes_iff_spread hs).mpr ⟨more, rfl, hspread⟩,
      fun hanchor => absurd (decide_eq_true hanchor) hfree⟩

theorem isSome_found_iff (hs : splitAtAny front = segment :: segments) :
    (found (decide (AnchoredStart pattern)) text segment segments).isSome = true ↔
      ∃ rest, Leaves pattern front text rest := by
  rw [Option.isSome_iff_exists]
  constructor
  · rintro ⟨rest, hrest⟩
    exact ⟨rest, leaves_of_found hs hrest⟩
  · rintro ⟨rest, hrest⟩
    obtain ⟨extra, he⟩ := found_of_leaves hs hrest
    exact ⟨_, he⟩

end Search

section Exact

variable {pattern text front last : Text}

theorem isSome_afterFirst_iff (needle t : Text) :
    (afterFirst needle t).isSome = true ↔ needle <:+: t := by
  rw [afterFirst_eq_findAfter, Option.isSome_iff_exists]
  constructor
  · rintro ⟨rest, hrest⟩
    obtain ⟨gap, rfl⟩ := exists_of_findAfter hrest
    exact ⟨gap, rest, List.append_assoc ..⟩
  · rintro ⟨gap, more, rfl⟩
    obtain ⟨extra, he⟩ : ∃ extra, findAfter needle (gap ++ (needle ++ more)) =
        some (extra ++ more) := findAfter_append
    exact ⟨_, by rw [List.append_assoc]; exact he⟩

theorem simpleRegexMatch_eq (h : ['.', '*'] <:+: core pattern) :
    simpleRegexMatch pattern text = segmentsAppear (decide (AnchoredStart pattern))
      (decide (AnchoredEnd pattern)) text text true (splitAtAny (core pattern)) := by
  rw [simpleRegexMatch]
  exact if_pos ((isSome_afterFirst_iff _ _).mpr h)

theorem means_literal (h : ¬ ['.', '*'] <:+: core pattern) :
    Means pattern text ↔ ∃ before after, text = before ++ core pattern ++ after ∧
      (AnchoredStart pattern → before = []) ∧ (AnchoredEnd pattern → after = []) := by
  have hdenotes : ∀ body, Denotes (core pattern) body ↔ body = core pattern := fun body => by
    rw [denotes_iff_spread (splitAtAny_of_absent h)]
    simp [Spread]
  unfold Means
  simp only [hdenotes]
  constructor
  · rintro ⟨before, _, after, htext, rfl, hends⟩
    exact ⟨before, after, htext, hends⟩
  · rintro ⟨before, after, htext, hends⟩
    exact ⟨before, _, after, htext, rfl, hends⟩

/-- Without `.*` the text has to be or to begin with, end with or contain the rest. -/
theorem simpleRegexMatch_literal (h : ¬ ['.', '*'] <:+: core pattern) :
    simpleRegexMatch pattern text = true ↔ Means pattern text := by
  have hmatch : simpleRegexMatch pattern text =
      if AnchoredStart pattern then
        if AnchoredEnd pattern then decide (text = core pattern)
        else (core pattern).isPrefixOf text
      else if AnchoredEnd pattern then (core pattern).isSuffixOf text
      else (afterFirst (core pattern) text).isSome := by
    rw [simpleRegexMatch]
    refine (if_neg fun hany => h ((isSome_afterFirst_iff _ _).mp hany)).trans ?_
    unfold AnchoredStart AnchoredEnd core
    by_cases hstart : pattern.head? = some '^' <;>
      by_cases hend : pattern.getLast? = some '$' <;> simp [hstart, hend]
  rw [hmatch, means_literal h]
  by_cases hstart : AnchoredStart pattern <;> by_cases hend : AnchoredEnd pattern
  · simp [hstart, hend]
  · simp only [hstart, hend, if_true, if_false, List.isPrefixOf_iff_prefix]
    constructor
    · rintro ⟨after, rfl⟩
      exact ⟨[], after, rfl, fun _ => rfl, nofun⟩
    · rintro ⟨before, after, rfl, hbefore, -⟩
      exact ⟨after, by rw [hbefore trivial, List.nil_append]⟩
  · simp only [hstart, hend, if_true, if_false, List.isSuffixOf_iff_suffix]
    constructor
    · rintro ⟨before, rfl⟩
      exact ⟨before, [], (List.append_nil _).symm, nofun, fun _ => rfl⟩
    · rintro ⟨before, after, rfl, -, hafter⟩
      exact ⟨before, by rw [hafter trivial, List.append_nil]⟩
  · simp only [hstart, hend, if_false, isSome_afterFirst_iff]
    constructor
    · rintro ⟨before, after, rfl⟩
      exact ⟨before, after, rfl, nofun, nofun⟩
    · rintro ⟨before, after, rfl, -, -⟩
      exact ⟨before, after, rfl⟩

theorem simpleRegexMatch_free (h : ['.', '*'] <:+: core pattern) (hend : ¬ AnchoredEnd pattern) :
    simpleRegexMatch pattern text = true ↔ Means pattern text := by
  obtain ⟨front, last, hcore, hlast⟩ := exists_last_any h
  obtain ⟨segment, segments, hs⟩ := exists_split front
  have hsplit : splitAtAny (core pattern) = segment :: (segments ++ [last]) := by
    rw [hcore, splitAtAny_append, hs, splitAtAny_of_absent hlast, List.cons_append]
  rw [simpleRegexMatch_eq h, hsplit, decide_eq_false hend,
    segmentsAppear_eq_found_free _ _ (by simp), isSome_found_iff hsplit]
  constructor
  · rintro ⟨rest, before, body, htext, hbody, hstart⟩
    exact ⟨before, body, rest, htext, hbody, hstart, fun h => absurd h hend⟩
  · rintro ⟨before, body, rest, htext, hbody, hstart, -⟩
    exact ⟨rest, before, body, htext, hbody, hstart⟩

theorem simpleRegexMatch_anchored (hend : AnchoredEnd pattern)
    (hcore : core pattern = front ++ '.' :: '*' :: last) (hlast : ¬ ['.', '*'] <:+: last) :
    simpleRegexMatch pattern text = true ↔
      (∃ rest, Leaves pattern front text rest) ∧ last <:+ text := by
  obtain ⟨segment, segments, hs⟩ := exists_split front
  have hsplit : splitAtAny (core pattern) = segment :: (segments ++ [last]) := by
    rw [hcore, splitAtAny_append, hs, splitAtAny_of_absent hlast, List.cons_append]
  rw [simpleRegexMatch_eq (hcore ▸ ⟨front, last, by simp⟩), hsplit, decide_eq_true hend,
    segmentsAppear_eq_found, Bool.and_eq_true, isSome_found_iff hs, List.isSuffixOf_iff_suffix]

theorem spread_concat (segments : List Text) (last t : Text) :
    Spread (segments ++ [last]) t ↔
      ∃ front gap, t = front ++ (gap ++ last) ∧ Spread segments front := by
  induction segments generalizing t with
  | nil => simp [Spread]
  | cons segment segments ih =>
    simp only [List.cons_append, Spread, ih]
    constructor
    · rintro ⟨before, _, rfl, front, gap, rfl, hs⟩
      exact ⟨before ++ (segment ++ front), gap, by simp, before, front, rfl, hs⟩
    · rintro ⟨_, gap, rfl, before, front, rfl, hs⟩
      exact ⟨before, front ++ (gap ++ last), by simp, front, gap, rfl, hs⟩

theorem means_anchored (hend : AnchoredEnd pattern)
    (hcore : core pattern = front ++ '.' :: '*' :: last) (hlast : ¬ ['.', '*'] <:+: last) :
    Means pattern text ↔ ∃ rest, Leaves pattern front text rest ∧ last <:+ rest := by
  obtain ⟨segment, segments, hs⟩ := exists_split front
  have hsplit : splitAtAny (core pattern) = segment :: (segments ++ [last]) := by
    rw [hcore, splitAtAny_append, hs, splitAtAny_of_absent hlast, List.cons_append]
  constructor
  · rintro ⟨before, body, after, rfl, hbody, hstart, hafter⟩
    obtain ⟨more, rfl, hspread⟩ := (denotes_iff_spread hsplit).mp hbody
    obtain ⟨v, gap, rfl, hfront⟩ := (spread_concat _ _ _).mp hspread
    refine ⟨gap ++ last, ⟨before, segment ++ v, ?_,
      (denotes_iff_spread hs).mpr ⟨v, rfl, hfront⟩, hstart⟩, List.suffix_append _ _⟩
    rw [hafter hend]
    simp
  · rintro ⟨_, ⟨before, body, rfl, hbody, hstart⟩, gap, rfl⟩
    obtain ⟨v, rfl, hspread⟩ := (denotes_iff_spread hs).mp hbody
    refine ⟨before, segment ++ (v ++ (gap ++ last)), [], by simp,
      (denotes_iff_spread hsplit).mpr ⟨_, rfl, (spread_concat _ _ _).mpr ⟨v, gap, rfl, hspread⟩⟩,
      hstart, fun _ => rfl⟩

theorem Leaves.suffix {rest : Text} (h : Leaves pattern front text rest) : rest <:+ text := by
  obtain ⟨before, body, rfl, -⟩ := h
  exact List.suffix_append _ _

/-- Of all places for the front of a pattern one leaves the most. -/
theorem exists_leaves_most (h : ∃ rest, Leaves pattern front text rest) :
    ∃ rest, Leaves pattern front text rest ∧
      ∀ rest', Leaves pattern front text rest' → rest'.length ≤ rest.length := by
  obtain ⟨segment, segments, hs⟩ := exists_split front
  obtain ⟨rest, hrest⟩ := Option.isSome_iff_exists.mp ((isSome_found_iff hs).mpr h)
  refine ⟨rest, leaves_of_found hs hrest, fun rest' hrest' => ?_⟩
  obtain ⟨extra, he⟩ := found_of_leaves hs hrest'
  rw [hrest, Option.some.injEq] at he
  rw [he, List.length_append]
  exact Nat.le_add_left ..

/-- The check accepts what the pattern means, and besides only texts in which what has to stand
at the end overlaps what stands before it. -/
theorem simpleRegexMatch_iff (pattern text : Text) :
    simpleRegexMatch pattern text = true ↔ Means pattern text ∨ Overlaps pattern text := by
  by_cases hany : ['.', '*'] <:+: core pattern
  · by_cases hend : AnchoredEnd pattern
    · constructor
      · intro hmatch
        obtain ⟨front, last, hcore, hlast⟩ := exists_last_any hany
        obtain ⟨hleaves, hsuffix⟩ := (simpleRegexMatch_anchored hend hcore hlast).mp hmatch
        obtain ⟨rest, hrest, hmost⟩ := exists_leaves_most hleaves
        by_cases hroom : last.length ≤ rest.length
        · have hlastRest : last <:+ rest :=
            List.suffix_of_suffix_length_le hsuffix hrest.suffix hroom
          exact .inl ((means_anchored hend hcore hlast).mpr ⟨rest, hrest, hlastRest⟩)
        · refine .inr ⟨hend, front, last, hcore, hlast, hsuffix, hleaves, fun rest' hrest' => ?_⟩
          have hle := hmost rest' hrest'
          omega
      · rintro (hmeans | ⟨-, front, last, hcore, hlast, hsuffix, hleaves, -⟩)
        · obtain ⟨front, last, hcore, hlast⟩ := exists_last_any hany
          obtain ⟨rest, hrest, hlastRest⟩ := (means_anchored hend hcore hlast).mp hmeans
          exact (simpleRegexMatch_anchored hend hcore hlast).mpr ⟨⟨rest, hrest⟩,
            hlastRest.trans hrest.suffix⟩
        · exact (simpleRegexMatch_anchored hend hcore hlast).mpr ⟨hleaves, hsuffix⟩
    · rw [simpleRegexMatch_free hany hend]
      exact (or_iff_left fun h => hend h.1).symm
  · rw [simpleRegexMatch_literal hany]
    refine (or_iff_left ?_).symm
    rintro ⟨-, front, last, hcore, -⟩
    exact hany (hcore ▸ ⟨front, last, by simp⟩)

example : simpleRegexMatch "^ab.*bc$".toList "abc".toList = true := by decide

end Exact

end HelixRouter.Configuration
