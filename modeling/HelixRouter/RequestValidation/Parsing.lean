import HelixRouter.RequestValidation.ParseJson
import Mathlib.Data.List.TakeWhile

namespace HelixRouter.RequestValidation

open Texts Json Floats

variable {N : Type}

/-- The inside of a string as the parser sees it, from outside an escape or inside one:
no quote but behind a backslash. -/
def closedBody : Bool → Text → Bool
  | escaped, [] => !escaped
  | true, _ :: cs => closedBody false cs
  | false, c :: cs =>
    if c = '\\' then closedBody true cs else if c = '"' then false else closedBody false cs

/-- What the parser takes for a value, which is more than JSON. -/
def scanned (number : Text → Option N) : Dialect N where
  space := isWhitespace
  number t n := t ≠ [] ∧ (∀ c ∈ t, isNumberChar c = true) ∧ number t = some n
  body raw := closedBody false raw = true

/-- A number ends where no further character could belong to it. -/
def Ends (v : Value N) (rest : Text) : Prop :=
  ∀ n c, v = .number n → rest.head? = some c → isNumberChar c = false

section Spaces

variable {w s t rest : Text}

theorem trimStart_append (hw : ∀ c ∈ w, isWhitespace c = true)
    (hs : ∀ c, s.head? = some c → isWhitespace c = false) : trimStart (w ++ s) = s := by
  unfold trimStart
  rw [List.dropWhile_append_of_pos hw]
  cases s with
  | nil => rfl
  | cons c s => rw [List.dropWhile_cons_of_neg (by simp [hs c rfl])]

theorem trimStart_cons {c : Char} (hw : ∀ c ∈ w, isWhitespace c = true)
    (hc : isWhitespace c = false) : trimStart (w ++ c :: s) = c :: s := by
  apply trimStart_append hw
  rintro d ⟨⟩
  exact hc

/-- Every text is spaces and what is left when they are trimmed. -/
theorem exists_trim (s : Text) : ∃ w t, s = w ++ t ∧ (∀ c ∈ w, isWhitespace c = true) ∧
    ∀ c, t.head? = some c → isWhitespace c = false := by
  refine ⟨s.takeWhile isWhitespace, s.dropWhile isWhitespace,
    List.takeWhile_append_dropWhile.symm, fun c hc => List.mem_takeWhile_imp hc, ?_⟩
  intro c hc
  have := List.head?_dropWhile_not isWhitespace s
  rw [hc] at this
  simpa using this

theorem isNumberChar_of_isWhitespace {c : Char} (h : isWhitespace c = true) :
    isNumberChar c = false := by
  rw [Bool.eq_false_iff]
  intro hn
  simp only [isWhitespace, isNumberChar, Char.isDigit, Bool.or_eq_true, Bool.and_eq_true,
    decide_eq_true_eq, Char.le_def, Char.ext_iff, UInt32.le_iff_toNat_le, ← UInt32.toNat_inj,
    ge_iff_le] at h hn
  simp at h hn
  omega

theorem ends_of_spaces {v : Value N} {c : Char} (hw : ∀ c ∈ w, isWhitespace c = true)
    (hc : isNumberChar c = false) : Ends v (w ++ c :: rest) := by
  intro _ d _ hd
  cases w with
  | nil =>
    obtain rfl := Option.some.inj hd
    exact hc
  | cons b w =>
    obtain rfl := Option.some.inj hd
    exact isNumberChar_of_isWhitespace (hw _ List.mem_cons_self)

theorem slice_append : slice (s ++ t) (byteLen s) = .ok t := by
  unfold slice
  rw [fromByte_append]

end Spaces

section Leaves

variable {raw inner rest s t : Text} {escaped : Bool} {i j offset : Nat} {number : Text → Option N}
  {n : N}

theorem closingQuote_append (h : closedBody escaped raw = true) :
    closingQuote (raw ++ '"' :: rest) escaped i = some (i + byteLen raw) := by
  induction raw generalizing escaped i with
  | nil =>
    cases escaped with
    | true => cases h
    | false => rfl
  | cons c raw ih =>
    rw [byteLen_cons, ← Nat.add_assoc]
    cases escaped with
    | true => exact ih h
    | false =>
      simp only [closedBody] at h
      simp only [List.cons_append, closingQuote]
      split at h
      · rename_i hc
        rw [if_pos hc]
        exact ih h
      · rename_i hc
        rw [if_neg hc]
        split at h
        · cases h
        · rename_i hq
          rw [if_neg hq]
          exact ih h

theorem exists_of_closingQuote (h : closingQuote inner escaped i = some j) :
    ∃ raw rest, inner = raw ++ '"' :: rest ∧ closedBody escaped raw = true ∧
      j = i + byteLen raw := by
  induction inner generalizing escaped i with
  | nil => cases h
  | cons c inner ih =>
    have hstep : ∀ {escaped'}, closingQuote inner escaped' (i + c.utf8Size) = some j →
        (∀ raw, closedBody escaped' raw = true → closedBody escaped (c :: raw) = true) →
        ∃ raw rest, c :: inner = raw ++ '"' :: rest ∧ closedBody escaped raw = true ∧
          j = i + byteLen raw := by
      intro escaped' hq hc
      obtain ⟨raw, rest, rfl, hr, rfl⟩ := ih hq
      exact ⟨c :: raw, rest, rfl, hc raw hr, by rw [byteLen_cons, Nat.add_assoc]⟩
    cases escaped with
    | true => exact hstep h fun _ hr => hr
    | false =>
      simp only [closingQuote] at h
      split at h
      · rename_i hc
        exact hstep h fun raw hr => by rw [closedBody, if_pos hc, hr]
      · rename_i hc
        split at h
        · rename_i hq
          obtain rfl := Option.some.inj h
          exact ⟨[], inner, by rw [hq]; rfl, rfl, rfl⟩
        · rename_i hq
          exact hstep h fun raw hr => by rw [closedBody, if_neg hc, if_neg hq, hr]

theorem parseString_append (h : closedBody false raw = true) :
    parseString offset (raw ++ '"' :: rest) =
      .ok ((.str raw : Value N), offset + 1 + byteLen raw + 1) := by
  unfold parseString
  rw [closingQuote_append h, Nat.zero_add]
  dsimp only
  rw [upToByte_append]

theorem parseNumber_append (ht : t ≠ []) (hc : ∀ c ∈ t, isNumberChar c = true)
    (hn : number t = some n) (hr : ∀ c, rest.head? = some c → isNumberChar c = false) :
    parseNumber number offset (t ++ rest) = .ok (.number n, offset + byteLen t) := by
  have htake : (t ++ rest).takeWhile isNumberChar = t := by
    rw [List.takeWhile_append_of_pos hc]
    cases rest with
    | nil => simp
    | cons c rest => rw [List.takeWhile_cons_of_neg (by simp [hr c rfl]), List.append_nil]
  have hpos : 0 < byteLen t := by
    obtain ⟨c, t, rfl⟩ := List.exists_cons_of_ne_nil ht
    exact Nat.add_pos_left c.utf8Size_pos _
  unfold parseNumber
  dsimp only
  rw [htake, if_pos hpos, hn]

end Leaves

section Dispatch

variable {w s rest : Text} {c : Char} {fuel : Nat} {number : Text → Option N}

theorem byteLen_append_sub : byteLen (w ++ s) - byteLen s = byteLen w := by
  rw [byteLen_append, Nat.add_sub_cancel]

variable (hw : ∀ c ∈ w, isWhitespace c = true)
include hw

/-- White space moves a value, and is not looked at again. -/
theorem parseValue_cons (hc : isWhitespace c = false) :
    parseValue number (fuel + 1) (w ++ c :: rest) =
      if ['n', 'u', 'l', 'l'].isPrefixOf (c :: rest) then .ok (.null, byteLen w + 4)
      else if ['t', 'r', 'u', 'e'].isPrefixOf (c :: rest) then .ok (.bool true, byteLen w + 4)
      else if ['f', 'a', 'l', 's', 'e'].isPrefixOf (c :: rest) then .ok (.bool false, byteLen w + 5)
      else if c = '"' then parseString (byteLen w) rest
      else if c = '[' then
        if (trimStart rest).head? = some ']' then
          .ok (.array [], byteLen w + 1 + (byteLen rest - byteLen (trimStart rest) + 1))
        else (parseItems number fuel (c :: rest) 1).bind fun p =>
          .ok (.array p.1, byteLen w + p.2)
      else if c = '{' then
        if (trimStart rest).head? = some '}' then
          .ok (.object [], byteLen w + 1 + (byteLen rest - byteLen (trimStart rest) + 1))
        else (parseFields number fuel (c :: rest) 1).bind fun p =>
          .ok (.object p.1, byteLen w + p.2)
      else parseNumber number (byteLen w) (c :: rest) := by
  rw [parseValue, trimStart_cons hw hc, byteLen_append_sub]
  simp only [List.head?_cons, List.tail_cons, Option.some.injEq]
  rfl

theorem parseValue_null : parseValue number (fuel + 1) (w ++ ('n' :: 'u' :: 'l' :: 'l' :: rest)) =
    .ok (.null, byteLen w + 4) := by
  rw [parseValue_cons hw rfl]
  simp

theorem parseValue_true : parseValue number (fuel + 1) (w ++ ('t' :: 'r' :: 'u' :: 'e' :: rest)) =
    .ok (.bool true, byteLen w + 4) := by
  rw [parseValue_cons hw rfl]
  simp

theorem parseValue_false :
    parseValue number (fuel + 1) (w ++ ('f' :: 'a' :: 'l' :: 's' :: 'e' :: rest)) =
      .ok (.bool false, byteLen w + 5) := by
  rw [parseValue_cons hw rfl]
  simp

theorem parseValue_quote : parseValue number (fuel + 1) (w ++ '"' :: rest) =
    parseString (byteLen w) rest := by
  rw [parseValue_cons hw rfl]
  simp

theorem parseValue_bracket : parseValue number (fuel + 1) (w ++ '[' :: rest) =
    if (trimStart rest).head? = some ']' then
      .ok (.array [], byteLen w + 1 + (byteLen rest - byteLen (trimStart rest) + 1))
    else (parseItems number fuel ('[' :: rest) 1).bind fun p =>
      .ok (.array p.1, byteLen w + p.2) := by
  rw [parseValue_cons hw rfl]
  simp

theorem parseValue_brace : parseValue number (fuel + 1) (w ++ '{' :: rest) =
    if (trimStart rest).head? = some '}' then
      .ok (.object [], byteLen w + 1 + (byteLen rest - byteLen (trimStart rest) + 1))
    else (parseFields number fuel ('{' :: rest) 1).bind fun p =>
      .ok (.object p.1, byteLen w + p.2) := by
  rw [parseValue_cons hw rfl]
  simp

theorem parseValue_number (hc : isNumberChar c = true) :
    parseValue number (fuel + 1) (w ++ c :: rest) = parseNumber number (byteLen w) (c :: rest) := by
  have hspace : isWhitespace c = false := by
    by_contra h
    rw [isNumberChar_of_isWhitespace (by simpa using h)] at hc
    cases hc
  have hne : ∀ d, isNumberChar d = false → c ≠ d := by
    intro d hd he
    rw [he, hd] at hc
    cases hc
  have hn := hne 'n' rfl
  have ht := hne 't' rfl
  have hf := hne 'f' rfl
  have hq := hne '"' rfl
  have hbracket := hne '[' rfl
  have hbrace := hne '{' rfl
  rw [parseValue_cons hw hspace]
  simp [hn.symm, ht.symm, hf.symm, hq, hbracket, hbrace]

end Dispatch

section Completeness

variable {number : Text → Option N} {done more t rest : Text} {sep : Char} {fuel : Nat}
  {v : Value N}

/-- The parser reads the value wherever it is written, given fuel for what is left. -/
def Completes (number : Text → Option N) (v : Value N) (t : Text) : Prop :=
  ∀ w rest fuel, (scanned number).Spaces w → Ends v rest →
    2 * (w ++ (t ++ rest)).length + 1 ≤ fuel →
    parseValue number fuel (w ++ (t ++ rest)) = .ok (v, byteLen w + byteLen t)

theorem parseItems_step {e : Element N} (hb : (scanned number).Spaces e.before)
    (ha : (scanned number).Spaces e.after) (hv : Completes number e.value e.text)
    (hsep : isNumberChar sep = false) (hspace : isWhitespace sep = false)
    (hfuel : 2 * (e.full ++ sep :: more).length + 1 ≤ fuel) :
    parseItems number (fuel + 1) (done ++ (e.full ++ sep :: more)) (byteLen done) =
      if sep = ',' then
        (parseItems number fuel (done ++ (e.full ++ sep :: more))
          (byteLen (done ++ e.full) + 1)).bind fun p => .ok (e.value :: p.1, p.2)
      else if sep = ']' then .ok ([e.value], byteLen (done ++ e.full) + 1)
      else .error .malformed := by
  have hfull : e.full ++ sep :: more = e.before ++ (e.text ++ (e.after ++ sep :: more)) := by
    simp [Element.full]
  have hread := hv e.before (e.after ++ sep :: more) fuel hb (ends_of_spaces ha hsep)
    (by rw [← hfull]; exact hfuel)
  have hrest : slice (done ++ (e.before ++ (e.text ++ (e.after ++ sep :: more))))
      (byteLen done + (byteLen e.before + byteLen e.text)) = .ok (e.after ++ sep :: more) := by
    have := slice_append (s := done ++ (e.before ++ e.text)) (t := e.after ++ sep :: more)
    simpa using this
  have htrim : trimStart (e.after ++ sep :: more) = sep :: more :=
    trimStart_append ha (by simp [hspace])
  rw [parseItems, hfull]
  simp only [slice_append, bind, Except.bind, hread, hrest, htrim, byteLen_append_sub,
    List.head?_cons, Option.some.injEq]
  simp only [Element.full, byteLen_append, Nat.add_assoc]

theorem parseValue_str {raw w : Text} (hw : (scanned number).Spaces w)
    (h : closedBody false raw = true) : parseValue number (fuel + 1) (w ++ '"' :: (raw ++ '"' :: rest)) =
      .ok (.str raw, byteLen w + byteLen ('"' :: raw ++ ['"'])) := by
  rw [parseValue_quote hw, parseString_append h]
  simp [Nat.add_assoc]
  rfl

theorem parseFields_step {m : Member N} (hs : (scanned number).Spaces m.before ∧
      (scanned number).Spaces m.after ∧ (scanned number).Spaces m.element.before ∧
      (scanned number).Spaces m.element.after)
    (hn : closedBody false m.name = true) (hv : Completes number m.element.value m.element.text)
    (hsep : isNumberChar sep = false) (hspace : isWhitespace sep = false)
    (hfuel : 2 * (m.full ++ sep :: more).length + 1 ≤ fuel) :
    parseFields number (fuel + 1) (done ++ (m.full ++ sep :: more)) (byteLen done) =
      if sep = ',' then
        (parseFields number fuel (done ++ (m.full ++ sep :: more))
          (byteLen (done ++ m.full) + 1)).bind fun p => .ok ((m.name, m.element.value) :: p.1, p.2)
      else if sep = '}' then .ok ([(m.name, m.element.value)], byteLen (done ++ m.full) + 1)
      else .error .malformed := by
  obtain ⟨hb, ha, heb, hea⟩ := hs
  obtain ⟨behind, hbehind⟩ : ∃ t, t = m.element.after ++ sep :: more := ⟨_, rfl⟩
  obtain ⟨val, hval⟩ : ∃ t, t = m.element.before ++ (m.element.text ++ behind) := ⟨_, rfl⟩
  have hfull : m.full ++ sep :: more =
      m.before ++ ('"' :: (m.name ++ '"' :: (m.after ++ ':' :: val))) := by
    simp [Member.full, Element.full, hval, hbehind]
  obtain ⟨fuel, rfl⟩ := Nat.exists_eq_add_one.mpr (Nat.lt_of_lt_of_le (Nat.succ_pos _) hfuel)
  have hkey : parseValue number (fuel + 1) ('"' :: (m.name ++ '"' :: (m.after ++ ':' :: val))) =
      .ok (.str m.name, byteLen ('"' :: m.name ++ ['"'])) := by
    have hnone : (scanned number).Spaces [] := fun _ h => nomatch h
    have := @parseValue_str _ number (m.after ++ ':' :: val) fuel _ _ hnone hn
    simpa using this
  have hread : parseValue number (fuel + 1) val =
      .ok (m.element.value, byteLen m.element.before + byteLen m.element.text) := by
    rw [hval]
    refine hv m.element.before behind _ heb (hbehind ▸ ends_of_spaces hea hsep) ?_
    rw [hfull] at hfuel
    rw [← hval]
    simp at hfuel
    omega
  have hname : slice (done ++ (m.before ++ ('"' :: (m.name ++ '"' :: (m.after ++ ':' :: val)))))
      (byteLen done + byteLen m.before) =
        .ok ('"' :: (m.name ++ '"' :: (m.after ++ ':' :: val))) := by
    rw [← List.append_assoc, ← byteLen_append]
    exact slice_append
  have hcolon : slice (done ++ (m.before ++ ('"' :: (m.name ++ '"' :: (m.after ++ ':' :: val)))))
      (byteLen done + byteLen m.before + byteLen ('"' :: m.name ++ ['"'])) =
        .ok (m.after ++ ':' :: val) := by
    have := slice_append (s := done ++ m.before ++ ('"' :: m.name ++ ['"']))
      (t := m.after ++ ':' :: val)
    simpa [Nat.add_assoc] using this
  have hvalue : slice (done ++ (m.before ++ ('"' :: (m.name ++ '"' :: (m.after ++ ':' :: val)))))
      (byteLen done + byteLen m.before + byteLen ('"' :: m.name ++ ['"']) + byteLen m.after + 1) =
        .ok val := by
    have := slice_append (s := done ++ m.before ++ ('"' :: m.name ++ ['"']) ++ m.after ++ [':'])
      (t := val)
    simpa [Nat.add_assoc, show (':').utf8Size = 1 from rfl] using this
  have hbehindval :
      slice (done ++ (m.before ++ ('"' :: (m.name ++ '"' :: (m.after ++ ':' :: val)))))
        (byteLen done + byteLen m.before + byteLen ('"' :: m.name ++ ['"']) + byteLen m.after + 1 +
          (byteLen m.element.before + byteLen m.element.text)) = .ok behind := by
    have := slice_append (s := done ++ m.before ++ ('"' :: m.name ++ ['"']) ++ m.after ++ [':'] ++
      m.element.before ++ m.element.text) (t := behind)
    simpa [hval, Nat.add_assoc, show (':').utf8Size = 1 from rfl] using this
  have htrimName := trimStart_cons (s := m.name ++ '"' :: (m.after ++ ':' :: val)) hb
    (show isWhitespace '"' = false from rfl)
  have htrimColon := trimStart_cons (s := val) ha (show isWhitespace ':' = false from rfl)
  have htrimSep := trimStart_cons (s := more) hea hspace
  rw [← hbehind] at htrimSep
  rw [parseFields, hfull]
  simp only [slice_append, bind, Except.bind, htrimName, byteLen_append_sub, hname, hkey, hcolon,
    htrimColon, List.head?_cons, if_true, hvalue, hread, hbehindval, htrimSep, Option.some.injEq]
  have hpos : byteLen done + byteLen m.before + byteLen ('"' :: m.name ++ ['"']) +
      byteLen m.after + 1 + (byteLen m.element.before + byteLen m.element.text) +
      (byteLen behind - byteLen (sep :: more)) = byteLen (done ++ m.full) := by
    rw [hbehind, byteLen_append_sub]
    simp [Member.full, Element.full, Nat.add_assoc, show (':').utf8Size = 1 from rfl]
  rw [hpos]

/-- A loop that reads one part in each of its turns reads all of them. -/
theorem loop_enclosed {X A : Type} {close : Char} {full : X → Text} {out : X → A}
    {loop : Nat → Text → Nat → Except Stop (List A × Nat)} {xs : List X} (hclose : close ≠ ',')
    (hstep : ∀ x ∈ xs, ∀ done more sep fuel, sep = ',' ∨ sep = close →
      2 * (full x ++ sep :: more).length + 1 ≤ fuel →
      loop (fuel + 1) (done ++ (full x ++ sep :: more)) (byteLen done) =
        if sep = ',' then
          (loop fuel (done ++ (full x ++ sep :: more)) (byteLen (done ++ full x) + 1)).bind
            fun p => .ok (out x :: p.1, p.2)
        else if sep = close then .ok ([out x], byteLen (done ++ full x) + close.utf8Size)
        else .error .malformed)
    (hne : xs ≠ []) (hfuel : 2 * (enclosed close (xs.map full) ++ rest).length + 2 ≤ fuel) :
    loop fuel (done ++ (enclosed close (xs.map full) ++ rest)) (byteLen done) =
      .ok (xs.map out, byteLen (done ++ enclosed close (xs.map full))) := by
  induction xs generalizing done fuel with
  | nil => exact absurd rfl hne
  | cons x xs ih =>
    obtain ⟨fuel, rfl⟩ := Nat.exists_eq_add_one.mpr (Nat.lt_of_lt_of_le (Nat.succ_pos _) hfuel)
    have hx := hstep x List.mem_cons_self done
    cases xs with
    | nil =>
      have hshape : enclosed close ([x].map full) ++ rest = full x ++ close :: rest := by
        simp [enclosed]
      rw [hshape] at hfuel ⊢
      rw [hx rest close fuel (Or.inr rfl) (by omega), if_neg hclose, if_pos rfl]
      simp [enclosed, Nat.add_assoc]
    | cons y xs =>
      have hshape : enclosed close ((x :: y :: xs).map full) ++ rest =
          full x ++ ',' :: (enclosed close ((y :: xs).map full) ++ rest) := by
        simp [enclosed]
      have hmore : done ++ (full x ++ ',' :: (enclosed close ((y :: xs).map full) ++ rest)) =
          (done ++ full x ++ [',']) ++ (enclosed close ((y :: xs).map full) ++ rest) := by
        simp
      have hpos : byteLen (done ++ full x) + 1 = byteLen (done ++ full x ++ [',']) := by
        simp
        rfl
      rw [hshape] at hfuel ⊢
      have hlen : 2 * (enclosed close ((y :: xs).map full) ++ rest).length + 2 ≤ fuel := by
        rw [List.length_append, List.length_cons] at hfuel
        omega
      have hih := @ih (done ++ full x ++ [',']) fuel
        (fun z hz => hstep z (List.mem_cons_of_mem _ hz)) (List.cons_ne_nil _ _) hlen
      rw [hx _ ',' fuel (Or.inl rfl) (by omega), if_pos rfl, hmore, hpos, hih]
      simp [enclosed, Except.bind]

theorem parseItems_enclosed {es : List (Element N)} (hne : es ≠ [])
    (hs : ∀ e ∈ es, (scanned number).Spaces e.before ∧ (scanned number).Spaces e.after)
    (hv : ∀ e ∈ es, Completes number e.value e.text)
    (hfuel : 2 * (enclosed ']' (es.map Element.full) ++ rest).length + 2 ≤ fuel) :
    parseItems number fuel (done ++ (enclosed ']' (es.map Element.full) ++ rest)) (byteLen done) =
      .ok (es.map (·.value), byteLen (done ++ enclosed ']' (es.map Element.full))) := by
  refine loop_enclosed (by decide) (fun e he done more sep fuel hsep hf => ?_) hne hfuel
  rcases hsep with rfl | rfl
  · exact parseItems_step (hs e he).1 (hs e he).2 (hv e he) (by decide) (by decide) hf
  · exact parseItems_step (hs e he).1 (hs e he).2 (hv e he) (by decide) (by decide) hf

theorem parseFields_enclosed {ms : List (Member N)} (hne : ms ≠ [])
    (hs : ∀ m ∈ ms, (scanned number).Spaces m.before ∧ (scanned number).Spaces m.after ∧
      (scanned number).Spaces m.element.before ∧ (scanned number).Spaces m.element.after)
    (hn : ∀ m ∈ ms, closedBody false m.name = true)
    (hv : ∀ m ∈ ms, Completes number m.element.value m.element.text)
    (hfuel : 2 * (enclosed '}' (ms.map Member.full) ++ rest).length + 2 ≤ fuel) :
    parseFields number fuel (done ++ (enclosed '}' (ms.map Member.full) ++ rest)) (byteLen done) =
      .ok (ms.map fun m => (m.name, m.element.value),
        byteLen (done ++ enclosed '}' (ms.map Member.full))) := by
  refine loop_enclosed (by decide) (fun m hm done more sep fuel hsep hf => ?_) hne hfuel
  rcases hsep with rfl | rfl
  · exact parseFields_step (hs m hm) (hn m hm) (hv m hm) (by decide) (by decide) hf
  · exact parseFields_step (hs m hm) (hn m hm) (hv m hm) (by decide) (by decide) hf

/-- A value starts with a character that is no space and closes nothing. -/
theorem exists_head (h : Written (scanned number) v t) :
    ∃ c s, t = c :: s ∧ isWhitespace c = false ∧ c ≠ ']' := by
  cases h with
  | number h =>
    obtain ⟨hne, hc, _⟩ := h
    obtain ⟨c, s, rfl⟩ := List.exists_cons_of_ne_nil hne
    have hnum := hc c List.mem_cons_self
    refine ⟨c, s, rfl, ?_, ?_⟩
    · by_contra hs
      rw [isNumberChar_of_isWhitespace (by simpa using hs)] at hnum
      cases hnum
    · rintro rfl
      exact absurd hnum (by decide)
  | null => exact ⟨_, _, rfl, rfl, by decide⟩
  | true => exact ⟨_, _, rfl, rfl, by decide⟩
  | false => exact ⟨_, _, rfl, rfl, by decide⟩
  | str h => exact ⟨_, _, rfl, rfl, by decide⟩
  | emptyArray h => exact ⟨_, _, rfl, rfl, by decide⟩
  | array hne hs hw => exact ⟨_, _, rfl, rfl, by decide⟩
  | emptyObject h => exact ⟨_, _, rfl, rfl, by decide⟩
  | object hne hs hn hw => exact ⟨_, _, rfl, rfl, by decide⟩

theorem enclosed_cons (close : Char) (t : Text) (ts : List Text) :
    ∃ more, enclosed close (t :: ts) = t ++ more := by
  cases ts with
  | nil => exact ⟨_, rfl⟩
  | cons u us => exact ⟨_, rfl⟩

theorem parseValue_emptyArray {w w' : Text} (hw : (scanned number).Spaces w)
    (hw' : (scanned number).Spaces w') :
    parseValue number (fuel + 1) (w ++ '[' :: (w' ++ ']' :: rest)) =
      .ok (.array [], byteLen w + byteLen ('[' :: w' ++ [']'])) := by
  rw [parseValue_bracket hw, trimStart_cons hw' rfl, byteLen_append_sub]
  simp [Nat.add_assoc]
  rfl

theorem parseValue_emptyObject {w w' : Text} (hw : (scanned number).Spaces w)
    (hw' : (scanned number).Spaces w') :
    parseValue number (fuel + 1) (w ++ '{' :: (w' ++ '}' :: rest)) =
      .ok (.object [], byteLen w + byteLen ('{' :: w' ++ ['}'])) := by
  rw [parseValue_brace hw, trimStart_cons hw' rfl, byteLen_append_sub]
  simp [Nat.add_assoc]
  rfl

/-- Behind the bracket of an array that is not empty, what comes first does not close it. -/
theorem head_items {es : List (Element N)} (hne : es ≠ [])
    (hs : ∀ e ∈ es, (scanned number).Spaces e.before)
    (hw : ∀ e ∈ es, Written (scanned number) e.value e.text) :
    (trimStart (enclosed ']' (es.map Element.full) ++ rest)).head? ≠ some ']' := by
  obtain ⟨e, es, rfl⟩ := List.exists_cons_of_ne_nil hne
  obtain ⟨c, s, hc, hspace, hne'⟩ := exists_head (hw e List.mem_cons_self)
  obtain ⟨more, hmore⟩ := enclosed_cons ']' e.full (es.map Element.full)
  have hshape : enclosed ']' ((e :: es).map Element.full) ++ rest =
      e.before ++ c :: (s ++ (e.after ++ (more ++ rest))) := by
    rw [List.map_cons, hmore]
    simp [Element.full, hc]
  rw [hshape, trimStart_cons (hs e List.mem_cons_self) hspace]
  simpa using hne'

theorem head_fields {ms : List (Member N)} (hne : ms ≠ [])
    (hs : ∀ m ∈ ms, (scanned number).Spaces m.before) :
    (trimStart (enclosed '}' (ms.map Member.full) ++ rest)).head? ≠ some '}' := by
  obtain ⟨m, ms, rfl⟩ := List.exists_cons_of_ne_nil hne
  obtain ⟨more, hmore⟩ := enclosed_cons '}' m.full (ms.map Member.full)
  have hshape : enclosed '}' ((m :: ms).map Member.full) ++ rest = m.before ++
      '"' :: (m.name ++ '"' :: (m.after ++ ':' :: (m.element.full ++ (more ++ rest)))) := by
    rw [List.map_cons, hmore]
    simp [Member.full]
  rw [hshape, trimStart_cons (hs m List.mem_cons_self) rfl]
  simp

theorem completes_of_succ (h : ∀ w rest fuel, (scanned number).Spaces w → Ends v rest →
    2 * (w ++ (t ++ rest)).length ≤ fuel →
    parseValue number (fuel + 1) (w ++ (t ++ rest)) = .ok (v, byteLen w + byteLen t)) :
    Completes number v t := by
  intro w rest fuel hw hends hfuel
  obtain ⟨fuel, rfl⟩ := Nat.exists_eq_add_one.mpr (Nat.lt_of_lt_of_le (Nat.succ_pos _) hfuel)
  exact h w rest fuel hw hends (Nat.le_of_succ_le_succ hfuel)

/-- Whatever is written for the parser, it reads, and stops right behind it. -/
theorem completes (h : Written (scanned number) v t) : Completes number v t := by
  induction h with
  | null => exact completes_of_succ fun w rest fuel hw _ _ => parseValue_null hw
  | true => exact completes_of_succ fun w rest fuel hw _ _ => parseValue_true hw
  | false => exact completes_of_succ fun w rest fuel hw _ _ => parseValue_false hw
  | @number t n h =>
    refine completes_of_succ fun w rest fuel hw hends _ => ?_
    obtain ⟨hne, hc, hn⟩ := h
    have hread : parseNumber number (byteLen w) (t ++ rest) =
        .ok (.number n, byteLen w + byteLen t) :=
      parseNumber_append hne hc hn fun c hr => hends n c rfl hr
    obtain ⟨c, s, rfl⟩ := List.exists_cons_of_ne_nil hne
    rw [List.cons_append, parseValue_number hw (hc c List.mem_cons_self)]
    exact hread
  | @str raw h =>
    refine completes_of_succ fun w rest fuel hw _ _ => ?_
    have hshape : '"' :: raw ++ ['"'] ++ rest = '"' :: (raw ++ '"' :: rest) := by simp
    rw [hshape]
    exact parseValue_str hw h
  | @emptyArray w' h =>
    refine completes_of_succ fun w rest fuel hw _ _ => ?_
    have hshape : '[' :: w' ++ [']'] ++ rest = '[' :: (w' ++ ']' :: rest) := by simp
    rw [hshape]
    exact parseValue_emptyArray hw h
  | @emptyObject w' h =>
    refine completes_of_succ fun w rest fuel hw _ _ => ?_
    have hshape : '{' :: w' ++ ['}'] ++ rest = '{' :: (w' ++ '}' :: rest) := by simp
    rw [hshape]
    exact parseValue_emptyObject hw h
  | @array es hne hs hes ih =>
    refine completes_of_succ fun w rest fuel hw _ hfuel => ?_
    have hitems : parseItems number fuel ('[' :: (enclosed ']' (es.map Element.full) ++ rest)) 1 =
        .ok (es.map (·.value), byteLen ('[' :: enclosed ']' (es.map Element.full))) := by
      apply @parseItems_enclosed _ _ ['['] rest fuel es hne hs ih
      simp at hfuel ⊢
      omega
    rw [List.cons_append, parseValue_bracket hw,
      if_neg (head_items hne (fun e he => (hs e he).1) hes), hitems]
    rfl
  | @object ms hne hs hn hms ih =>
    refine completes_of_succ fun w rest fuel hw _ hfuel => ?_
    have hfields :
        parseFields number fuel ('{' :: (enclosed '}' (ms.map Member.full) ++ rest)) 1 =
          .ok (ms.map fun m => (m.name, m.element.value),
            byteLen ('{' :: enclosed '}' (ms.map Member.full))) := by
      apply @parseFields_enclosed _ _ ['{'] rest fuel ms hne hs hn ih
      simp at hfuel ⊢
      omega
    rw [List.cons_append, parseValue_brace hw, if_neg (head_fields hne fun m hm => (hs m hm).1),
      hfields]
    rfl

end Completeness

end HelixRouter.RequestValidation
