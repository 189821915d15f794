import HelixRouter.Json.Grammar
import Mathlib.Algebra.Field.Rat
import Mathlib.Data.Rat.Defs
import Mathlib.Tactic.Ring

namespace HelixRouter.Json

open Texts

/-- The number that a row of decimal digits writes. -/
def digitsValue (t : Text) : Nat := t.foldl (fun n c => 10 * n + (c.toNat - '0'.toNat)) 0

theorem digitsValue_append (a b : Text) :
    digitsValue (a ++ b) = digitsValue a * 10 ^ b.length + digitsValue b := by
  have hfrom : ∀ (b : Text) (n : Nat), b.foldl (fun n c => 10 * n + (c.toNat - '0'.toNat)) n =
      n * 10 ^ b.length + digitsValue b := by
    intro b
    induction b with
    | nil => simp [digitsValue]
    | cons c b ih =>
      intro n
      have hc : digitsValue (c :: b) =
          (10 * 0 + (c.toNat - '0'.toNat)) * 10 ^ b.length + digitsValue b := by
        rw [digitsValue, List.foldl_cons, ih]
      rw [List.foldl_cons, ih, hc, List.length_cons]
      ring
  rw [digitsValue, List.foldl_append, hfrom]
  rfl

structure Digits where
  text : Text
  ne : text ≠ []
  digits : ∀ c ∈ text, c.isDigit = true

structure Exponent where
  mark : Char
  isMark : mark = 'e' ∨ mark = 'E'
  sign : Option Char
  isSign : ∀ c, sign = some c → c = '+' ∨ c = '-'
  digits : Digits

/-- A number as RFC 8259 writes it. -/
structure NumberLiteral where
  negative : Bool
  int : Digits
  noLeadingZero : int.text = ['0'] ∨ int.text.head int.ne ≠ '0'
  frac : Option Digits
  exp : Option Exponent

def Digits.fraction : Option Digits → Text
  | none => []
  | some d => '.' :: d.text

def Digits.fractionValue : Option Digits → ℚ
  | none => 0
  | some d => (digitsValue d.text : ℚ) / 10 ^ d.text.length

def Exponent.text : Option Exponent → Text
  | none => []
  | some e => e.mark :: (e.sign.toList ++ e.digits.text)

def Exponent.value : Option Exponent → ℤ
  | none => 0
  | some e => if e.sign = some '-' then -(digitsValue e.digits.text : ℤ) else digitsValue e.digits.text

namespace NumberLiteral

def unsigned (l : NumberLiteral) : Text :=
  l.int.text ++ (Digits.fraction l.frac ++ Exponent.text l.exp)

def text (l : NumberLiteral) : Text := if l.negative then '-' :: l.unsigned else l.unsigned

def magnitude (l : NumberLiteral) : ℚ :=
  (digitsValue l.int.text + Digits.fractionValue l.frac) * (10 : ℚ) ^ Exponent.value l.exp

def value (l : NumberLiteral) : ℚ := if l.negative then -l.magnitude else l.magnitude

end NumberLiteral

def isHexDigit (c : Char) : Bool :=
  c.isDigit || ('a' ≤ c && c ≤ 'f') || ('A' ≤ c && c ≤ 'F')

/-- The insides of a string: characters from the space on but for quotes and backslashes,
escapes of one character, and escapes of four hexadecimal digits. -/
inductive StringBody : Text → Prop where
  | nil : StringBody []
  | plain {c : Char} {t : Text} (hc : ' ' ≤ c) (hq : c ≠ '"') (hb : c ≠ '\\')
      (h : StringBody t) : StringBody (c :: t)
  | escape {c : Char} {t : Text} (hc : c ∈ ['"', '\\', '/', 'b', 'f', 'n', 'r', 't'])
      (h : StringBody t) : StringBody ('\\' :: c :: t)
  | unicode {digits t : Text} (hn : digits.length = 4) (hx : ∀ c ∈ digits, isHexDigit c = true)
      (h : StringBody t) : StringBody ('\\' :: 'u' :: digits ++ t)

/-- JSON by RFC 8259, with the exact values of its numbers. -/
def rfc8259 : Dialect ℚ where
  space c := c = ' ' || c = '\t' || c = '\n' || c = '\r'
  number t q := ∃ l : NumberLiteral, t = l.text ∧ q = l.value
  body := StringBody

open Texts

variable {c : Char} {n : Nat}

section Characters

theorem mem_exponent {e : Option Exponent} (hc : c ∈ Exponent.text e) :
    c.isDigit = true ∨ c ∈ ['-', '+', 'e', 'E'] := by
  cases e with
  | none => exact nomatch hc
  | some e =>
    rcases List.mem_cons.mp hc with rfl | hc
    · rcases e.isMark with hm | hm
      · simp [hm]
      · simp [hm]
    · rcases List.mem_append.mp hc with hc | hc
      · rcases e.isSign c (Option.mem_toList.mp hc) with rfl | rfl
        · simp
        · simp
      · exact Or.inl (e.digits.digits c hc)

theorem mem_fraction {d : Option Digits} (hc : c ∈ Digits.fraction d) :
    c.isDigit = true ∨ c = '.' := by
  cases d with
  | none => exact nomatch hc
  | some d =>
    rcases List.mem_cons.mp hc with rfl | hc
    · exact Or.inr rfl
    · exact Or.inl (d.digits c hc)

/-- The characters that numbers are written with. -/
theorem NumberLiteral.mem_text {l : NumberLiteral} (hc : c ∈ l.text) :
    c.isDigit = true ∨ c ∈ ['.', '-', '+', 'e', 'E'] := by
  have hunsigned : ∀ c ∈ l.unsigned, c.isDigit = true ∨ c ∈ ['.', '-', '+', 'e', 'E'] := by
    intro c hc
    rcases List.mem_append.mp hc with hc | hc
    · exact Or.inl (l.int.digits c hc)
    · rcases List.mem_append.mp hc with hc | hc
      · rcases mem_fraction hc with hd | rfl
        · exact Or.inl hd
        · simp
      · exact (mem_exponent hc).imp_right (List.mem_cons_of_mem _)
  unfold NumberLiteral.text at hc
  split at hc
  · rcases List.mem_cons.mp hc with rfl | hc
    · simp
    · exact hunsigned c hc
  · exact hunsigned c hc

theorem NumberLiteral.text_ne_nil (l : NumberLiteral) : l.text ≠ [] := by
  unfold NumberLiteral.text NumberLiteral.unsigned
  split
  · exact List.cons_ne_nil _ _
  · simp [l.int.ne]

/-- A number that is written in digits alone is the one they write. -/
theorem NumberLiteral.value_of_digits {l : NumberLiteral} (h : ∀ c ∈ l.text, c.isDigit = true) :
    l.value = digitsValue l.text := by
  have hpositive : l.negative = false := by
    cases hn : l.negative with
    | false => rfl
    | true => exact absurd (h '-' (by simp [NumberLiteral.text, hn])) (by decide)
  have htext : l.text = l.unsigned := by simp [NumberLiteral.text, hpositive]
  have hfrac : l.frac = none := by
    cases hf : l.frac with
    | none => rfl
    | some d =>
      have hmem : '.' ∈ l.text := by simp [htext, NumberLiteral.unsigned, Digits.fraction, hf]
      exact absurd (h _ hmem) (by decide)
  have hexp : l.exp = none := by
    cases he : l.exp with
    | none => rfl
    | some e =>
      have hmem : e.mark ∈ l.text := by simp [htext, NumberLiteral.unsigned, Exponent.text, he]
      have hdigit := h _ hmem
      rcases e.isMark with hm | hm
      · exact absurd (hm ▸ hdigit) (by decide)
      · exact absurd (hm ▸ hdigit) (by decide)
  simp [htext, NumberLiteral.value, NumberLiteral.magnitude, NumberLiteral.unsigned, hpositive,
    hfrac, hexp, Digits.fraction, Digits.fractionValue, Exponent.text, Exponent.value]

end Characters

section Naturals

theorem digitsValue_toDigits (n : Nat) : digitsValue (Nat.toDigits 10 n) = n :=
  Nat.ofDigitChars_ten_toDigits

/-- Only zero is written with a zero in front. -/
theorem head_toDigits_ne_zero (hn : n ≠ 0) :
    (Nat.toDigits 10 n).head Nat.toDigits_ne_nil ≠ '0' := by
  induction n using Nat.strong_induction_on with
  | _ n ih =>
    by_cases hlt : n < 10
    · have hdigit : ∀ n < 10, n ≠ 0 → Nat.digitChar n ≠ '0' := by decide
      simp only [Nat.toDigits_of_lt_base hlt, List.head_cons]
      exact hdigit n hlt hn
    · have hdiv : n / 10 ≠ 0 := by omega
      have hhead := ih (n / 10) (by omega) hdiv
      simp only [Nat.toDigits_of_base_le (by decide : 1 < 10) (Nat.le_of_not_lt hlt)]
      rwa [List.head_append_of_ne_nil]

/-- A natural number in decimal digits. -/
def natLiteral (n : Nat) : NumberLiteral where
  negative := false
  int := ⟨Nat.toDigits 10 n, Nat.toDigits_ne_nil, fun _ hc =>
    Nat.isDigit_of_mem_toDigits (by decide) (by decide) hc⟩
  noLeadingZero := by
    by_cases hn : n = 0
    · exact Or.inl (hn ▸ Nat.toDigits_zero 10)
    · exact Or.inr (head_toDigits_ne_zero hn)
  frac := none
  exp := none

theorem natLiteral_text (n : Nat) : (natLiteral n).text = Nat.toDigits 10 n := by
  simp [natLiteral, NumberLiteral.text, NumberLiteral.unsigned, Digits.fraction, Exponent.text]

theorem natLiteral_value (n : Nat) : (natLiteral n).value = n := by
  simp [natLiteral, NumberLiteral.value, NumberLiteral.magnitude, Digits.fractionValue,
    Exponent.value, digitsValue_toDigits]

theorem written_nat (n : Nat) : Written rfc8259 (.number n) (Nat.toDigits 10 n) :=
  .number ⟨natLiteral n, (natLiteral_text n).symm, (natLiteral_value n).symm⟩

end Naturals

end HelixRouter.Json
