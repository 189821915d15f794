import HelixRouter.Floats.F64
import HelixRouter.Json.Rfc8259

namespace HelixRouter.RequestValidation

open Texts Json Floats

/-- The white space of Unicode, which `trim_start` takes off. -/
def isWhitespace (c : Char) : Bool :=
  ('\t' ≤ c && c ≤ '\r') || c = ' ' || c = '\u0085' || c = '\u00a0' || c = '\u1680' ||
    ('\u2000' ≤ c && c ≤ '\u200a') || c = '\u2028' || c = '\u2029' || c = '\u202f' ||
    c = '\u205f' || c = '\u3000'

def trimStart (s : Text) : Text := s.dropWhile isWhitespace

/-- A sign, and what follows it. -/
def takeSign : Text → Bool × Text
  | '-' :: s => (true, s)
  | '+' :: s => (false, s)
  | s => (false, s)

/-- A mark, a sign or none, and digits to the end of the text. -/
def parseExponent : Text → Option ℤ
  | [] => some 0
  | c :: s =>
    if c = 'e' || c = 'E' then
      let (negative, digits) := takeSign s
      if digits ≠ [] && digits.all Char.isDigit then
        some (if negative then -(digitsValue digits : ℤ) else digitsValue digits)
      else none
    else none

/-- The digits behind a point, where there is one, and what follows. -/
def takeFraction : Text → Text × Text
  | '.' :: s => (s.takeWhile Char.isDigit, s.dropWhile Char.isDigit)
  | s => ([], s)

/-- Digits before a point or after it, and an exponent. -/
def parseUnsigned (s : Text) : Option ℚ :=
  let int := s.takeWhile Char.isDigit
  let (frac, s) := takeFraction (s.dropWhile Char.isDigit)
  if int = [] && frac = [] then none
  else
    (parseExponent s).map fun (e : ℤ) =>
      (digitsValue (int ++ frac) : ℚ) * (10 : ℚ) ^ (e - frac.length)

/-- The number a text writes for `str::parse::<f64>`, but for infinity and what is no
number: their names have letters the parser never takes. -/
def parseDecimal (s : Text) : Option ℚ :=
  let (negative, s) := takeSign s
  (parseUnsigned s).map fun q => if negative then -q else q

def parseF64 (s : Text) : Option F64 := (parseDecimal s).map .ofRat

abbrev JsonVal := Value F64

/-- How a parse can end without a value. Only the first is an end the caller sees. -/
inductive Stop where
  | malformed
  | outOfBounds
  | outOfFuel
  deriving DecidableEq

/-- `&s[n..]`. -/
def slice (s : Text) (n : Nat) : Except Stop Text :=
  match fromByte s n with
  | some t => .ok t
  | none => .error .outOfBounds

/-- The position of the quote that closes a string. -/
def closingQuote : Text → Bool → Nat → Option Nat
  | [], _, _ => none
  | c :: cs, true, i => closingQuote cs false (i + c.utf8Size)
  | c :: cs, false, i =>
    if c = '\\' then closingQuote cs true (i + c.utf8Size)
    else if c = '"' then some i
    else closingQuote cs false (i + c.utf8Size)

def isNumberChar (c : Char) : Bool :=
  c.isDigit || c = '.' || c = '-' || c = '+' || c = 'e' || c = 'E'

section Parser

variable {N : Type} (number : Text → Option N)

/-- The part of the parser behind an opening quote. -/
def parseString (offset : Nat) (inner : Text) : Except Stop (Value N × Nat) :=
  match closingQuote inner false 0 with
  | none => .error .malformed
  | some i =>
    match upToByte inner i with
    | some raw => .ok (.str raw, offset + 1 + i + 1)
    | none => .error .outOfBounds

def parseNumber (offset : Nat) (s : Text) : Except Stop (Value N × Nat) :=
  let digits := s.takeWhile isNumberChar
  if 0 < byteLen digits then
    match number digits with
    | some n => .ok (.number n, offset + byteLen digits)
    | none => .error .malformed
  else .error .malformed

mutual

def parseValue : Nat → Text → Except Stop (Value N × Nat)
  | 0, _ => .error .outOfFuel
  | fuel + 1, input =>
    let s := trimStart input
    let offset := byteLen input - byteLen s
    if ['n', 'u', 'l', 'l'].isPrefixOf s then .ok (.null, offset + 4)
    else if ['t', 'r', 'u', 'e'].isPrefixOf s then .ok (.bool true, offset + 4)
    else if ['f', 'a', 'l', 's', 'e'].isPrefixOf s then .ok (.bool false, offset + 5)
    else if s.head? = some '"' then parseString offset s.tail
    else if s.head? = some '[' then
      let r := trimStart s.tail
      if r.head? = some ']' then .ok (.array [], offset + 1 + (byteLen s.tail - byteLen r + 1))
      else do
        let (items, pos) ← parseItems fuel s 1
        .ok (.array items, offset + pos)
    else if s.head? = some '{' then
      let r := trimStart s.tail
      if r.head? = some '}' then .ok (.object [], offset + 1 + (byteLen s.tail - byteLen r + 1))
      else do
        let (fields, pos) ← parseFields fuel s 1
        .ok (.object fields, offset + pos)
    else parseNumber number offset s

/-- The items from a position on, up to the bracket that closes them. -/
def parseItems : Nat → Text → Nat → Except Stop (List (Value N) × Nat)
  | 0, _, _ => .error .outOfFuel
  | fuel + 1, s, pos => do
    let sub ← slice s pos
    let (val, consumed) ← parseValue fuel sub
    let pos := pos + consumed
    let rest ← slice s pos
    let after := trimStart rest
    let pos := pos + (byteLen rest - byteLen after)
    if after.head? = some ',' then do
      let (vals, pos) ← parseItems fuel s (pos + 1)
      .ok (val :: vals, pos)
    else if after.head? = some ']' then .ok ([val], pos + 1)
    else .error .malformed

def parseFields : Nat → Text → Nat → Except Stop (List (Text × Value N) × Nat)
  | 0, _, _ => .error .outOfFuel
  | fuel + 1, s, pos => do
    let rest ← slice s pos
    let pos := pos + (byteLen rest - byteLen (trimStart rest))
    let sub ← slice s pos
    match ← parseValue fuel sub with
    | (.str key, consumed) =>
      let pos := pos + consumed
      let rest ← slice s pos
      let afterKey := trimStart rest
      let pos := pos + (byteLen rest - byteLen afterKey)
      if afterKey.head? = some ':' then do
        let pos := pos + 1
        let sub ← slice s pos
        let (val, consumed) ← parseValue fuel sub
        let pos := pos + consumed
        let rest ← slice s pos
        let afterVal := trimStart rest
        let pos := pos + (byteLen rest - byteLen afterVal)
        if afterVal.head? = some ',' then do
          let (fields, pos) ← parseFields fuel s (pos + 1)
          .ok ((key, val) :: fields, pos)
        else if afterVal.head? = some '}' then .ok ([(key, val)], pos + 1)
        else .error .malformed
      else .error .malformed
    | _ => .error .malformed

end

/-- The parser over any reading of numbers, with fuel for every character twice. -/
def parseWith (input : Text) : Option (Value N × Nat) :=
  (parseValue number (2 * input.length + 1) input).toOption

end Parser

def parseJson (input : Text) : Option (JsonVal × Nat) := parseWith parseF64 input

end HelixRouter.RequestValidation
