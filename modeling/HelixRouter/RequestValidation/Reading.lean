import HelixRouter.RequestValidation.Parsing

namespace HelixRouter.RequestValidation

open Texts Json Floats

variable {N : Type} {number : Text → Option N}

/-- The result is as stated, or the text was malformed: the parser neither slices out of
bounds nor runs out of fuel. -/
def Outcome {A : Type} (P : A → Prop) : Except Stop A → Prop
  | .ok a => P a
  | .error e => e = .malformed

/-- The input starts with spaces and the value, and the position is where the value ends. -/
def Reads (number : Text → Option N) (input : Text) (r : Value N × Nat) : Prop :=
  ∃ w t rest, input = w ++ (t ++ rest) ∧ (scanned number).Spaces w ∧
    Written (scanned number) r.1 t ∧ Ends r.1 rest ∧ r.2 = byteLen w + byteLen t

/-- What remains starts with parts, separated and closed, and the position is behind them. -/
def ReadsParts {X A : Type} (full : X → Text) (out : X → A) (close : Char) (Good : X → Prop)
    (done remaining : Text) (r : List A × Nat) : Prop :=
  ∃ xs rest, xs ≠ [] ∧ (∀ x ∈ xs, Good x) ∧ remaining = enclosed close (xs.map full) ++ rest ∧
    r.1 = xs.map out ∧ r.2 = byteLen (done ++ enclosed close (xs.map full))

def GoodElement (number : Text → Option N) (e : Element N) : Prop :=
  ((scanned number).Spaces e.before ∧ (scanned number).Spaces e.after) ∧
    Written (scanned number) e.value e.text

def GoodMember (number : Text → Option N) (m : Member N) : Prop :=
  ((scanned number).Spaces m.before ∧ (scanned number).Spaces m.after ∧
    (scanned number).Spaces m.element.before ∧ (scanned number).Spaces m.element.after) ∧
    closedBody false m.name = true ∧ Written (scanned number) m.element.value m.element.text

theorem Outcome.bind {A B : Type} {P : A → Prop} {Q : B → Prop} {x : Except Stop A}
    {f : A → Except Stop B} (h : Outcome P x) (hf : ∀ a, P a → Outcome Q (f a)) :
    Outcome Q (x.bind f) := by
  cases x with
  | error e => exact h
  | ok a => exact hf a h

section Parts

variable {X A : Type} {full : X → Text} {out : X → A} {close : Char} {Good : X → Prop}
  {done more : Text} {x : X} {r : List A × Nat}

theorem ReadsParts.last (hx : Good x) : ReadsParts full out close Good done
    (full x ++ close :: more) ([out x], byteLen (done ++ (full x ++ [close]))) := by
  refine ⟨[x], more, List.cons_ne_nil _ _, ?_, ?_, rfl, rfl⟩
  · intro y hy
    rw [List.mem_singleton.mp hy]
    exact hx
  · simp [enclosed]

theorem ReadsParts.cons (hx : Good x)
    (h : ReadsParts full out close Good (done ++ (full x ++ [','])) more r) :
    ReadsParts full out close Good done (full x ++ ',' :: more) (out x :: r.1, r.2) := by
  obtain ⟨xs, rest, hne, hgood, hmore, hout, hpos⟩ := h
  obtain ⟨y, ys, rfl⟩ := List.exists_cons_of_ne_nil hne
  refine ⟨x :: y :: ys, rest, List.cons_ne_nil _ _, ?_, ?_, ?_, ?_⟩
  · intro z hz
    rcases List.mem_cons.mp hz with rfl | hz
    · exact hx
    · exact hgood z hz
  · rw [hmore]
    simp [enclosed]
  · rw [hout]
    rfl
  · rw [hpos]
    simp [enclosed]

theorem lastPart_outcome (hsize : close.utf8Size = 1) (hx : Good x) :
    Outcome (ReadsParts full out close Good done (full x ++ close :: more))
      (.ok ([out x], byteLen (done ++ full x) + 1)) := by
  have hpos : byteLen (done ++ full x) + 1 = byteLen (done ++ (full x ++ [close])) := by
    simp [hsize, Nat.add_assoc]
  rw [hpos]
  exact ReadsParts.last hx

theorem moreParts_outcome {loop : Text → Nat → Except Stop (List A × Nat)} (hx : Good x)
    (h : Outcome (ReadsParts full out close Good (done ++ (full x ++ [','])) more)
      (loop ((done ++ (full x ++ [','])) ++ more) (byteLen (done ++ (full x ++ [','])))) ) :
    Outcome (ReadsParts full out close Good done (full x ++ ',' :: more))
      ((loop (done ++ (full x ++ ',' :: more)) (byteLen (done ++ full x) + 1)).bind
        fun p => .ok (out x :: p.1, p.2)) := by
  have hpos : byteLen (done ++ full x) + 1 = byteLen (done ++ (full x ++ [','])) := by
    simp [Nat.add_assoc]
    rfl
  have hshape : done ++ (full x ++ ',' :: more) = (done ++ (full x ++ [','])) ++ more := by simp
  rw [hpos, hshape]
  exact h.bind fun r hr => hr.cons hx

end Parts

section Leaves

variable {w s inner : Text}

theorem parseString_outcome (hw : (scanned number).Spaces w) :
    Outcome (Reads number (w ++ '"' :: inner)) (parseString (byteLen w) inner) := by
  cases hq : closingQuote inner false 0 with
  | none =>
    unfold parseString
    rw [hq]
    rfl
  | some i =>
    obtain ⟨raw, rest, rfl, hraw, -⟩ := exists_of_closingQuote hq
    rw [parseString_append hraw]
    refine ⟨w, '"' :: raw ++ ['"'], rest, by simp, hw, .str hraw, ?_, ?_⟩
    · intro n c h
      cases h
    · simp [Nat.add_assoc]
      rfl

theorem parseNumber_outcome (hw : (scanned number).Spaces w) :
    Outcome (Reads number (w ++ s)) (parseNumber number (byteLen w) s) := by
  unfold parseNumber
  dsimp only
  split
  · rename_i hpos
    split
    · rename_i n hn
      refine ⟨w, s.takeWhile isNumberChar, s.dropWhile isNumberChar, ?_, hw,
        .number ⟨?_, fun c hc => List.mem_takeWhile_imp hc, hn⟩, ?_, rfl⟩
      · rw [List.takeWhile_append_dropWhile]
      · intro he
        rw [he] at hpos
        cases hpos
      · intro _ c _ hc
        have := List.head?_dropWhile_not isNumberChar s
        rw [hc] at this
        exact this
    · rfl
  · rfl

end Leaves

section Turns

variable {fuel : Nat} {done remaining : Text}

abbrev ReadsItems (number : Text → Option N) : Text → Text → List (Value N) × Nat → Prop :=
  ReadsParts Element.full (·.value) ']' (GoodElement number)

abbrev ReadsFields (number : Text → Option N) : Text → Text → List (Text × Value N) × Nat → Prop :=
  ReadsParts Member.full (fun m => (m.name, m.element.value)) '}' (GoodMember number)

/-- What the parser does with enough fuel for what it has yet to read. -/
structure Enough (number : Text → Option N) (fuel : Nat) : Prop where
  value : ∀ input, 2 * input.length + 1 ≤ fuel →
    Outcome (Reads number input) (parseValue number fuel input)
  items : ∀ done remaining, 2 * remaining.length + 2 ≤ fuel →
    Outcome (ReadsItems number done remaining)
      (parseItems number fuel (done ++ remaining) (byteLen done))
  fields : ∀ done remaining, 2 * remaining.length + 2 ≤ fuel →
    Outcome (ReadsFields number done remaining)
      (parseFields number fuel (done ++ remaining) (byteLen done))

theorem slice_add {a b t : Text} : slice (done ++ (a ++ (b ++ t))) (byteLen done + (byteLen a + byteLen b)) =
    .ok t := by
  have := slice_append (s := done ++ (a ++ b)) (t := t)
  simpa using this

theorem parseItems_outcome (h : Enough number fuel) (hfuel : 2 * remaining.length + 1 ≤ fuel) :
    Outcome (ReadsItems number done remaining)
      (parseItems number (fuel + 1) (done ++ remaining) (byteLen done)) := by
  have hvalue := h.value remaining hfuel
  rw [parseItems]
  simp only [slice_append, bind, Except.bind]
  cases hv : parseValue number fuel remaining with
  | error e =>
    rw [hv] at hvalue
    exact hvalue
  | ok r =>
    rw [hv] at hvalue
    obtain ⟨v, k⟩ := r
    obtain ⟨w, t, rest, rfl, hw, ht, -, rfl⟩ := hvalue
    obtain ⟨w', s, rfl, hw', hs⟩ := exists_trim rest
    simp only [slice_add, trimStart_append hw' hs, byteLen_append_sub]
    have hgood : GoodElement number ⟨w, t, w', v⟩ := ⟨⟨hw, hw'⟩, ht⟩
    have hpos : byteLen done + (byteLen w + byteLen t) + byteLen w' + 1 =
        byteLen (done ++ Element.full ⟨w, t, w', v⟩) + 1 := by
      simp [Element.full, Nat.add_assoc]
    rw [hpos]
    split
    · rename_i hsep
      obtain ⟨more, rfl⟩ := List.head?_eq_some_iff.mp hsep
      have hshape : w ++ (t ++ (w' ++ ',' :: more)) =
          Element.full ⟨w, t, w', v⟩ ++ ',' :: more := by
        simp [Element.full]
      rw [hshape] at hfuel ⊢
      exact moreParts_outcome hgood (h.items _ more (by simp at hfuel; omega))
    · split
      · rename_i hsep
        obtain ⟨more, rfl⟩ := List.head?_eq_some_iff.mp hsep
        have hshape : w ++ (t ++ (w' ++ ']' :: more)) =
            Element.full ⟨w, t, w', v⟩ ++ ']' :: more := by
          simp [Element.full]
        rw [hshape]
        exact lastPart_outcome (by decide) hgood
      · rfl

/-- The turn of the loop over fields behind the colon. -/
theorem fieldValue_outcome {w₀ w₁ name s : Text} (h : Enough number fuel)
    (hw₀ : (scanned number).Spaces w₀) (hn : closedBody false name = true)
    (hw₁ : (scanned number).Spaces w₁) (hfuel : 2 * s.length + 3 ≤ fuel) :
    Outcome (ReadsFields number done (w₀ ++ ([] ++ ('"' :: name ++ ['"'] ++ (w₁ ++ ':' :: s)))))
      (do
        let pos := byteLen done + byteLen w₀ + (byteLen [] + byteLen ('"' :: name ++ ['"'])) +
          byteLen w₁ + 1
        let s := done ++ (w₀ ++ ([] ++ ('"' :: name ++ ['"'] ++ (w₁ ++ ':' :: s))))
        let sub ← slice s pos
        let (val, consumed) ← parseValue number fuel sub
        let pos := pos + consumed
        let rest ← slice s pos
        let afterVal := trimStart rest
        let pos := pos + (byteLen rest - byteLen afterVal)
        if afterVal.head? = some ',' then do
          let (fields, pos) ← parseFields number fuel s (pos + 1)
          .ok ((name, val) :: fields, pos)
        else if afterVal.head? = some '}' then .ok ([(name, val)], pos + 1)
        else .error .malformed) := by
  have hval : slice (done ++ (w₀ ++ ([] ++ ('"' :: name ++ ['"'] ++ (w₁ ++ ':' :: s)))))
      (byteLen done + byteLen w₀ + (byteLen [] + byteLen ('"' :: name ++ ['"'])) + byteLen w₁ + 1) =
        .ok s := by
    have := slice_append (s := done ++ w₀ ++ ('"' :: name ++ ['"']) ++ w₁ ++ [':']) (t := s)
    simpa [Nat.add_assoc, show (':').utf8Size = 1 from rfl] using this
  have hvalue := h.value s (by omega)
  simp only [bind, Except.bind, hval]
  cases hv : parseValue number fuel s with
  | error e =>
    rw [hv] at hvalue
    exact hvalue
  | ok r =>
    rw [hv] at hvalue
    obtain ⟨v, k⟩ := r
    obtain ⟨w, t, rest, rfl, hw, ht, -, rfl⟩ := hvalue
    obtain ⟨w', s, rfl, hw', hs⟩ := exists_trim rest
    obtain ⟨m, hm⟩ : ∃ m : Member N, m = ⟨w₀, name, w₁, ⟨w, t, w', v⟩⟩ := ⟨_, rfl⟩
    have hgood : GoodMember number m := by
      rw [hm]
      exact ⟨⟨hw₀, hw₁, hw, hw'⟩, hn, ht⟩
    have hbehind :
        slice (done ++ (w₀ ++ ([] ++ ('"' :: name ++ ['"'] ++ (w₁ ++ ':' :: (w ++ (t ++ (w' ++ s))))))))
          (byteLen done + byteLen w₀ + (byteLen [] + byteLen ('"' :: name ++ ['"'])) + byteLen w₁ +
            1 + (byteLen w + byteLen t)) = .ok (w' ++ s) := by
      have := slice_append (s := done ++ w₀ ++ ('"' :: name ++ ['"']) ++ w₁ ++ [':'] ++ w ++ t)
        (t := w' ++ s)
      simpa [Nat.add_assoc, show (':').utf8Size = 1 from rfl] using this
    have hpos : byteLen done + byteLen w₀ + (byteLen [] + byteLen ('"' :: name ++ ['"'])) +
        byteLen w₁ + 1 + (byteLen w + byteLen t) + byteLen w' = byteLen (done ++ m.full) := by
      rw [hm]
      simp [Member.full, Element.full, Nat.add_assoc, show (':').utf8Size = 1 from rfl]
    have hshape : w₀ ++ ([] ++ ('"' :: name ++ ['"'] ++ (w₁ ++ ':' :: (w ++ (t ++ (w' ++ s)))))) =
        m.full ++ s := by
      rw [hm]
      simp [Member.full, Element.full]
    simp only [hbehind, trimStart_append hw' hs, byteLen_append_sub]
    rw [hpos, hshape]
    have hout : (name, v) = (m.name, m.element.value) := by rw [hm]
    rw [hout]
    split
    · rename_i hsep
      obtain ⟨more, rfl⟩ := List.head?_eq_some_iff.mp hsep
      exact moreParts_outcome hgood (h.fields _ more (by simp at hfuel; omega))
    · split
      · rename_i hsep
        obtain ⟨more, rfl⟩ := List.head?_eq_some_iff.mp hsep
        exact lastPart_outcome (by decide) hgood
      · rfl

theorem parseFields_outcome (h : Enough number fuel) (hfuel : 2 * remaining.length + 1 ≤ fuel) :
    Outcome (ReadsFields number done remaining)
      (parseFields number (fuel + 1) (done ++ remaining) (byteLen done)) := by
  obtain ⟨w₀, s₀, rfl, hw₀, hs₀⟩ := exists_trim remaining
  have hname : slice (done ++ (w₀ ++ s₀)) (byteLen done + byteLen w₀) = .ok s₀ := by
    rw [← List.append_assoc, ← byteLen_append]
    exact slice_append
  have hkey := h.value s₀ (by simp at hfuel; omega)
  rw [parseFields]
  simp only [slice_append, bind, Except.bind, trimStart_append hw₀ hs₀, byteLen_append_sub, hname]
  cases hk : parseValue number fuel s₀ with
  | error e =>
    rw [hk] at hkey
    exact hkey
  | ok r =>
    rw [hk] at hkey
    obtain ⟨key, k⟩ := r
    cases key with
    | str name =>
      obtain ⟨w, t, rest, rfl, hw, ht, -, rfl⟩ := hkey
      -- The spaces were trimmed before the key was read.
      obtain rfl : w = [] := by
        cases w with
        | nil => rfl
        | cons c w => exact absurd (hw c List.mem_cons_self) (by simp [scanned, hs₀ c rfl])
      cases ht with
      | str hn =>
        obtain ⟨w₁, s₁, rfl, hw₁, hs₁⟩ := exists_trim rest
        have hcolon : slice (done ++ (w₀ ++ ([] ++ ('"' :: name ++ ['"'] ++ (w₁ ++ s₁)))))
            (byteLen done + byteLen w₀ + (byteLen [] + byteLen ('"' :: name ++ ['"']))) =
              .ok (w₁ ++ s₁) := by
          have := slice_append (s := done ++ w₀ ++ ('"' :: name ++ ['"'])) (t := w₁ ++ s₁)
          simpa [Nat.add_assoc] using this
        simp only [hcolon, trimStart_append hw₁ hs₁, byteLen_append_sub]
        split
        · rename_i hsep
          obtain ⟨s₂, rfl⟩ := List.head?_eq_some_iff.mp hsep
          exact fieldValue_outcome h hw₀ hn hw₁ (by simp at hfuel; omega)
        · rfl
    | null => rfl
    | bool b => rfl
    | number n => rfl
    | array items => rfl
    | object fields => rfl

/-- A value that is no number ends wherever it ends. -/
theorem reads_word {w t rest : Text} {v : Value N} {k : Nat} (hw : (scanned number).Spaces w)
    (ht : Written (scanned number) v t) (hnum : ∀ n, v ≠ .number n)
    (hk : k = byteLen w + byteLen t) : Reads number (w ++ (t ++ rest)) (v, k) :=
  ⟨w, t, rest, rfl, hw, ht, fun n _ hn => absurd hn (hnum n), hk⟩

theorem array_outcome {w s : Text} (h : Enough number fuel) (hw : (scanned number).Spaces w)
    (hfuel : 2 * s.length + 2 ≤ fuel) :
    Outcome (Reads number (w ++ '[' :: s)) (parseValue number (fuel + 1) (w ++ '[' :: s)) := by
  rw [parseValue_bracket hw]
  split
  · rename_i hclose
    obtain ⟨w', s', rfl, hw', hs'⟩ := exists_trim s
    rw [trimStart_append hw' hs'] at hclose ⊢
    obtain ⟨rest, rfl⟩ := List.head?_eq_some_iff.mp hclose
    have hshape : w ++ '[' :: (w' ++ ']' :: rest) = w ++ (('[' :: w' ++ [']']) ++ rest) := by simp
    rw [hshape]
    refine reads_word hw (.emptyArray hw') (fun _ h => nomatch h) ?_
    rw [byteLen_append_sub]
    simp [Nat.add_assoc]
    rfl
  · have hitems := h.items ['['] s hfuel
    refine Outcome.bind hitems fun r hr => ?_
    obtain ⟨es, rest, hne, hgood, rfl, hout, hpos⟩ := hr
    obtain ⟨items, pos⟩ := r
    dsimp only at hout hpos
    subst hout hpos
    have hshape : w ++ '[' :: (enclosed ']' (es.map Element.full) ++ rest) =
        w ++ (('[' :: enclosed ']' (es.map Element.full)) ++ rest) := by simp
    rw [hshape]
    exact reads_word hw (.array hne (fun e he => (hgood e he).1) fun e he => (hgood e he).2)
      (fun _ h => nomatch h) rfl

theorem object_outcome {w s : Text} (h : Enough number fuel) (hw : (scanned number).Spaces w)
    (hfuel : 2 * s.length + 2 ≤ fuel) :
    Outcome (Reads number (w ++ '{' :: s)) (parseValue number (fuel + 1) (w ++ '{' :: s)) := by
  rw [parseValue_brace hw]
  split
  · rename_i hclose
    obtain ⟨w', s', rfl, hw', hs'⟩ := exists_trim s
    rw [trimStart_append hw' hs'] at hclose ⊢
    obtain ⟨rest, rfl⟩ := List.head?_eq_some_iff.mp hclose
    have hshape : w ++ '{' :: (w' ++ '}' :: rest) = w ++ (('{' :: w' ++ ['}']) ++ rest) := by simp
    rw [hshape]
    refine reads_word hw (.emptyObject hw') (fun _ h => nomatch h) ?_
    rw [byteLen_append_sub]
    simp [Nat.add_assoc]
    rfl
  · have hfields := h.fields ['{'] s hfuel
    refine Outcome.bind hfields fun r hr => ?_
    obtain ⟨ms, rest, hne, hgood, rfl, hout, hpos⟩ := hr
    obtain ⟨fields, pos⟩ := r
    dsimp only at hout hpos
    subst hout hpos
    have hshape : w ++ '{' :: (enclosed '}' (ms.map Member.full) ++ rest) =
        w ++ (('{' :: enclosed '}' (ms.map Member.full)) ++ rest) := by simp
    rw [hshape]
    exact reads_word hw (.object hne (fun m hm => (hgood m hm).1) (fun m hm => (hgood m hm).2.1)
      fun m hm => (hgood m hm).2.2) (fun _ h => nomatch h) rfl

theorem parseValue_outcome {input : Text} (h : Enough number fuel)
    (hfuel : 2 * input.length ≤ fuel) :
    Outcome (Reads number input) (parseValue number (fuel + 1) input) := by
  obtain ⟨w, s, rfl, hw, hs⟩ := exists_trim input
  by_cases hbracket : s.head? = some '['
  · obtain ⟨s, rfl⟩ := List.head?_eq_some_iff.mp hbracket
    exact array_outcome h hw (by simp at hfuel; omega)
  by_cases hbrace : s.head? = some '{'
  · obtain ⟨s, rfl⟩ := List.head?_eq_some_iff.mp hbrace
    exact object_outcome h hw (by simp at hfuel; omega)
  rw [parseValue, trimStart_append hw hs, byteLen_append_sub]
  dsimp only
  rw [if_neg hbracket, if_neg hbrace]
  split
  · rename_i hnull
    obtain ⟨rest, rfl⟩ := List.isPrefixOf_iff_prefix.mp hnull
    exact reads_word hw .null (by simp) rfl
  split
  · rename_i htrue
    obtain ⟨rest, rfl⟩ := List.isPrefixOf_iff_prefix.mp htrue
    exact reads_word hw .true (by simp) rfl
  split
  · rename_i hfalse
    obtain ⟨rest, rfl⟩ := List.isPrefixOf_iff_prefix.mp hfalse
    exact reads_word hw .false (by simp) rfl
  split
  · rename_i hquote
    obtain ⟨s, rfl⟩ := List.head?_eq_some_iff.mp hquote
    exact parseString_outcome hw
  · exact parseNumber_outcome hw

theorem enough (fuel : Nat) : Enough number fuel := by
  induction fuel with
  | zero => exact ⟨fun _ h => (nomatch h), fun _ _ h => (nomatch h), fun _ _ h => (nomatch h)⟩
  | succ fuel ih =>
    exact ⟨fun _ h => parseValue_outcome ih (Nat.le_of_succ_le_succ h),
      fun _ _ h => parseItems_outcome ih (Nat.le_of_succ_le_succ h),
      fun _ _ h => parseFields_outcome ih (Nat.le_of_succ_le_succ h)⟩

end Turns

/-- The parser always comes to an end within its fuel and the bounds of its text. -/
theorem parseValue_total (input : Text) :
    Outcome (Reads number input) (parseValue number (2 * input.length + 1) input) :=
  (enough _).value input (Nat.le_refl _)

/-- The parser reads exactly the values that stand at the start of a text as it takes them. -/
theorem parseWith_eq_some_iff {input : Text} {r : Value N × Nat} :
    parseWith number input = some r ↔ Reads number input r := by
  have htotal : Outcome (Reads number input) _ := parseValue_total input
  unfold parseWith
  constructor
  · intro h
    cases hp : parseValue number (2 * input.length + 1) input with
    | error e =>
      rw [hp] at h
      cases h
    | ok a =>
      rw [hp] at h htotal
      obtain rfl := Option.some.inj h
      exact htotal
  · rintro ⟨w, t, rest, rfl, hw, ht, hends, hk⟩
    rw [completes ht w rest _ hw hends (Nat.le_refl _), ← hk]
    rfl

end HelixRouter.RequestValidation
