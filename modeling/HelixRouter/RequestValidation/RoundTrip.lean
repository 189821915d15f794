import HelixRouter.Json.Rfc8259
import HelixRouter.RequestValidation.Parsing

namespace HelixRouter.RequestValidation

open Texts Json Floats

section Numbers

variable {s : Text} {c : Char}

theorem takeSign_minus : takeSign ('-' :: s) = (true, s) := rfl

theorem takeSign_of_isDigit (h : c.isDigit = true) : takeSign (c :: s) = (false, c :: s) := by
  unfold takeSign
  split
  · rename_i heq
    obtain ⟨rfl, rfl⟩ := List.cons.inj heq
    exact absurd h (by decide)
  · rename_i heq
    obtain ⟨rfl, rfl⟩ := List.cons.inj heq
    exact absurd h (by decide)
  · rfl

theorem takeFraction_of_ne (h : ∀ c, s.head? = some c → c ≠ '.') : takeFraction s = ([], s) := by
  unfold takeFraction
  split
  · exact absurd rfl (h '.' rfl)
  · rfl

/-- A row of digits is taken whole where what follows is no digit. -/
theorem digits_split (d : Digits) (hs : ∀ c, s.head? = some c → c.isDigit = false) :
    (d.text ++ s).takeWhile Char.isDigit = d.text ∧ (d.text ++ s).dropWhile Char.isDigit = s := by
  rw [List.takeWhile_append_of_pos d.digits, List.dropWhile_append_of_pos d.digits]
  cases s with
  | nil => simp
  | cons c s => simp [hs c rfl]

theorem parseExponent_text (e : Option Exponent) :
    parseExponent (Exponent.text e) = some (Exponent.value e) := by
  cases e with
  | none => rfl
  | some e =>
    obtain ⟨c, ds, hd⟩ := List.exists_cons_of_ne_nil e.digits.ne
    have hdigit : c.isDigit = true := e.digits.digits c (by rw [hd]; exact List.mem_cons_self)
    have hall : e.digits.text.all Char.isDigit = true := List.all_eq_true.mpr e.digits.digits
    have hmark : (e.mark = 'e' || e.mark = 'E') = true := by simpa using e.isMark
    unfold Exponent.text parseExponent Exponent.value
    dsimp only
    rw [if_pos hmark]
    cases hs : e.sign with
    | none =>
      rw [Option.toList_none, List.nil_append, hd, takeSign_of_isDigit hdigit, ← hd]
      simp [hall, e.digits.ne]
    | some sign =>
      rcases e.isSign sign hs with rfl | rfl
      · simp [takeSign, hall, e.digits.ne]
      · simp [takeSign, hall, e.digits.ne]

/-- An exponent starts with neither a digit nor a point. -/
theorem head_exponent {e : Option Exponent} (h : (Exponent.text e).head? = some c) :
    c.isDigit = false ∧ c ≠ '.' := by
  cases e with
  | none => cases h
  | some e =>
    obtain rfl := Option.some.inj h
    rcases e.isMark with hm | hm
    · rw [hm]
      decide
    · rw [hm]
      decide

theorem parseUnsigned_text (l : NumberLiteral) : parseUnsigned l.unsigned = some l.magnitude := by
  have hexp := parseExponent_text l.exp
  have hne : (decide (l.int.text = [])) = false := by simp [l.int.ne]
  cases hf : l.frac with
  | none =>
    obtain ⟨htake, hdrop⟩ := digits_split l.int (s := Exponent.text l.exp)
      fun c hc => (head_exponent hc).1
    have hpoint := takeFraction_of_ne fun c hc => (head_exponent (e := l.exp) hc).2
    unfold parseUnsigned NumberLiteral.unsigned NumberLiteral.magnitude
    simp only [hf, Digits.fraction, Digits.fractionValue, List.nil_append, htake, hdrop, hpoint,
      hexp, hne]
    simp
  | some d =>
    obtain ⟨htake, hdrop⟩ := digits_split l.int (s := '.' :: (d.text ++ Exponent.text l.exp))
      fun c hc => by
        obtain rfl := Option.some.inj hc
        decide
    obtain ⟨hftake, hfdrop⟩ := digits_split d (s := Exponent.text l.exp)
      fun c hc => (head_exponent hc).1
    unfold parseUnsigned NumberLiteral.unsigned NumberLiteral.magnitude
    simp only [hf, Digits.fraction, Digits.fractionValue, List.cons_append, htake, hdrop,
      takeFraction, hftake, hfdrop, hexp, hne]
    rw [Bool.false_and, if_neg Bool.false_ne_true, Option.map_some, digitsValue_append,
      zpow_sub₀ (by norm_num), zpow_natCast]
    push_cast
    field_simp

theorem parseDecimal_text (l : NumberLiteral) : parseDecimal l.text = some l.value := by
  unfold parseDecimal NumberLiteral.text NumberLiteral.value
  cases l.negative with
  | true =>
    simp only [if_true, takeSign_minus, parseUnsigned_text]
    rfl
  | false =>
    obtain ⟨c, ds, hd⟩ := List.exists_cons_of_ne_nil l.int.ne
    have hdigit : c.isDigit = true := l.int.digits c (by rw [hd]; exact List.mem_cons_self)
    have hhead : l.unsigned = c :: (ds ++ (Digits.fraction l.frac ++ Exponent.text l.exp)) := by
      unfold NumberLiteral.unsigned
      rw [hd]
      rfl
    have hsign : takeSign l.unsigned = (false, l.unsigned) := by
      rw [hhead]
      exact takeSign_of_isDigit hdigit
    simp only [Bool.false_eq_true, if_false, hsign, parseUnsigned_text]
    rfl

theorem isNumberChar_text (l : NumberLiteral) : ∀ c ∈ l.text, isNumberChar c = true := by
  intro c hc
  rcases l.mem_text hc with hd | hc
  · simp [isNumberChar, hd]
  · have hsigns : ∀ c ∈ ['.', '-', '+', 'e', 'E'], isNumberChar c = true := by decide
    exact hsigns c hc

end Numbers

section Strings

variable {raw t : Text}

theorem closedBody_append {digits : Text} (hx : ∀ c ∈ digits, isHexDigit c = true) :
    closedBody false (digits ++ t) = closedBody false t := by
  induction digits with
  | nil => rfl
  | cons c digits ih =>
    have hc := hx c List.mem_cons_self
    have hb : c ≠ '\\' := by
      rintro rfl
      exact absurd hc (by decide)
    have hq : c ≠ '"' := by
      rintro rfl
      exact absurd hc (by decide)
    rw [List.cons_append, closedBody, if_neg hb, if_neg hq]
    exact ih fun d hd => hx d (List.mem_cons_of_mem _ hd)

/-- The quotes in a string of JSON all stand behind a backslash of their own. -/
theorem closedBody_of_stringBody (h : StringBody raw) : closedBody false raw = true := by
  induction h with
  | nil => rfl
  | plain hc hq hb _ ih => rw [closedBody, if_neg hb, if_neg hq, ih]
  | escape hc _ ih => exact ih
  | @unicode digits t hn hx _ ih =>
    rw [List.cons_append, List.cons_append, closedBody, if_pos rfl, closedBody,
      closedBody_append hx, ih]

end Strings

/-- The parser takes everything for a value that is one. -/
theorem rfc8259_embeds {N : Type} {number : Text → Option N} {f : ℚ → N}
    (h : ∀ l : NumberLiteral, number l.text = some (f l.value)) :
    rfc8259.Embeds (scanned number) f where
  space c hc := by
    have hspace : (c = ' ' ∨ c = '\t') ∨ c = '\n' ∨ c = '\r' := by
      simpa [rfc8259, or_assoc] using hc
    rcases hspace with (rfl | rfl) | rfl | rfl
    · exact (rfl : isWhitespace ' ' = true)
    · exact (rfl : isWhitespace '\t' = true)
    · exact (rfl : isWhitespace '\n' = true)
    · exact (rfl : isWhitespace '\r' = true)
  number t q hn := by
    obtain ⟨l, rfl, rfl⟩ := hn
    exact ⟨l.text_ne_nil, isNumberChar_text l, h l⟩
  body raw h := closedBody_of_stringBody h

theorem parseF64_text (l : NumberLiteral) : parseF64 l.text = some (F64.ofRat l.value) := by
  rw [parseF64, parseDecimal_text]
  rfl

section Rendered

variable {N : Type} {number : Text → Option N} {f : ℚ → N} {v : Value ℚ} {w t w' : Text}

/-- A rendered value is read back, whatever numbers are read as. -/
theorem parseWith_rendered (h : ∀ l : NumberLiteral, number l.text = some (f l.value))
    (hw : rfc8259.Spaces w) (ht : Written rfc8259 v t) (hw' : rfc8259.Spaces w') :
    parseWith number (w ++ t ++ w') = some (v.map f, byteLen (w ++ t)) := by
  have hembeds := rfc8259_embeds h
  have hends : Ends (v.map f) w' := by
    intro n c _ hc
    cases w' with
    | nil => cases hc
    | cons b w' =>
      obtain rfl := Option.some.inj hc
      exact isNumberChar_of_isWhitespace (hembeds.spaces hw' _ List.mem_cons_self)
  have hread := completes (ht.map hembeds) w w' _ (hembeds.spaces hw) hends (Nat.le_refl _)
  unfold parseWith
  rw [List.append_assoc, hread, byteLen_append]
  rfl

/-- Parsing undoes rendering. -/
theorem parseJson_rendered (hw : rfc8259.Spaces w) (ht : Written rfc8259 v t)
    (hw' : rfc8259.Spaces w') :
    parseJson (w ++ t ++ w') = some (v.map F64.ofRat, byteLen (w ++ t)) :=
  parseWith_rendered parseF64_text hw ht hw'

end Rendered

/-- `-1.5e1`. -/
def minusFifteen : NumberLiteral where
  negative := true
  int := ⟨['1'], by decide, List.forall_mem_singleton.mpr rfl⟩
  noLeadingZero := Or.inr (by decide)
  frac := some ⟨['5'], by decide, List.forall_mem_singleton.mpr rfl⟩
  exp := some ⟨'e', Or.inl rfl, none, (fun _ h => nomatch h),
    ⟨['1'], by decide, List.forall_mem_singleton.mpr rfl⟩⟩

def renderedPair : List (Element ℚ) :=
  [⟨[' '], minusFifteen.text, [], .number minusFifteen.value⟩,
    ⟨[], '"' :: ['\\', '"'] ++ ['"'], [' '], .str ['\\', '"']⟩]

theorem parseJson_rendered_pair :
    parseJson " [ -1.5e1,\"\\\"\" ] ".toList =
      some (.array [.number (.ofRat (-15)), .str ['\\', '"']], 16) := by
  have hpair : Written rfc8259 (.array (renderedPair.map (·.value)))
      ('[' :: enclosed ']' (renderedPair.map Element.full)) := by
    refine .array (by decide) ?_ ?_
    · intro e he
      rcases List.mem_cons.mp he with rfl | he
      · exact ⟨by decide, by decide⟩
      · obtain rfl := List.mem_singleton.mp he
        exact ⟨by decide, by decide⟩
    · intro e he
      rcases List.mem_cons.mp he with rfl | he
      · exact .number ⟨minusFifteen, rfl, rfl⟩
      · obtain rfl := List.mem_singleton.mp he
        exact .str (.escape (by decide) .nil)
  have hvalue : minusFifteen.value = -15 := by decide +kernel
  have hspace : rfc8259.Spaces [' '] := by decide
  have htext : " [ -1.5e1,\"\\\"\" ] ".toList =
      [' '] ++ ('[' :: enclosed ']' (renderedPair.map Element.full)) ++ [' '] := by decide +kernel
  have hlen : byteLen ([' '] ++ ('[' :: enclosed ']' (renderedPair.map Element.full))) = 16 := by
    decide +kernel
  rw [htext, parseJson_rendered hspace hpair hspace, hlen, ← hvalue]
  rfl

end HelixRouter.RequestValidation
