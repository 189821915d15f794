import HelixRouter.RequestValidation.ParseJson
import HelixRouter.Texts.Bytes
import Mathlib.Data.List.AList

namespace HelixRouter.Protocols

open Texts

inductive Protocol where
  | rest (method path : String)
  | grpc (service method : String)
  | graphQl (operation query : String)
  deriving DecidableEq

def Protocol.tag : Protocol → Text
  | .rest _ _ => "rest".toList
  | .grpc _ _ => "grpc".toList
  | .graphQl _ _ => "graphql".toList

abbrev Headers := AList fun _ : Text => Text

structure NormalizedRequest where
  id : Text
  protocol : Protocol
  headers : Headers
  body : List UInt8
  timeoutMs : UInt64
  deriving DecidableEq

structure NormalizedResponse where
  requestId : Text
  statusCode : UInt16
  headers : Headers
  body : List UInt8
  latencyMs : UInt64

inductive AdapterError where
  | unsupportedConversion
  | malformedInput (msg : String)
  | encodingError
  deriving DecidableEq

section Helpers

open RequestValidation (trimStart)

/-- The text before the first place where the needle stands, and the text from there on. -/
def find (needle : Text) : Text → Option (Text × Text)
  | [] => if needle = [] then some ([], []) else none
  | c :: t =>
    if needle.isPrefixOf (c :: t) then some ([], c :: t)
    else (find needle t).map fun p => (c :: p.1, p.2)

/-- The text behind the first place where the needle stands. -/
def findBehind (needle t : Text) : Option Text := (find needle t).map (·.2.drop needle.length)

def quoted (key : Text) : Text := '"' :: key ++ ['"']

/-- What stands behind the first colon that follows the first string with this text. -/
def valueOf (json key : Text) : Option Text := do
  let afterKey ← findBehind (quoted key) json
  let afterColon ← findBehind [':'] afterKey
  pure (trimStart afterColon)

def extractJsonString (json key : Text) : Option Text := do
  let afterColon ← valueOf json key
  match afterColon with
  | '"' :: inner => (find ['"'] inner).map (·.1)
  | _ => none

/-- A number of decimal digits, where it has 64 bits. -/
def parseU64 (digits : Text) : Option UInt64 :=
  if digits ≠ [] ∧ Nat.ofDigitChars 10 digits 0 < 2 ^ 64 then
    some (UInt64.ofNat (Nat.ofDigitChars 10 digits 0))
  else none

def extractJsonU64 (json key : Text) : Option UInt64 := do
  let afterColon ← valueOf json key
  parseU64 (afterColon.takeWhile Char.isDigit)

/-- One pair of strings with a colon between them, and what is left behind it. -/
def nextPair (rest : Text) : Option (Text × Text × Text) := do
  let afterKs ← findBehind ['"'] rest
  let (key, afterKe) ← find ['"'] afterKs
  let afterColon ← findBehind [':'] (afterKe.drop 1)
  match trimStart afterColon with
  | '"' :: innerVal =>
    let (value, afterVe) ← find ['"'] innerVal
    pure (key, value, afterVe.drop 1)
  | _ => none

/-- Every pair takes up some of the text. -/
def collectPairs : Nat → Text → Headers → Headers
  | 0, _, map => map
  | n + 1, rest, map =>
    match nextPair rest with
    | some (key, value, rest) => collectPairs n rest (map.insert key value)
    | none => map

def extractJsonHeaders (json : Text) : Headers :=
  let pairs := do
    let after ← findBehind (quoted "headers".toList) json
    let inner ← findBehind ['\x7b'] after
    let (pairs, _) ← find ['\x7d'] inner
    pure pairs
  match pairs with
  | none => ∅
  | some pairs => collectPairs pairs.length pairs ∅

/-- Lowercase hexadecimal digits, with zeros in front. -/
def hex (width n : Nat) : Text :=
  List.replicate (width - (Nat.toDigits 16 n).length) '0' ++ Nat.toDigits 16 n

def uuidV4Fake (input : List UInt8) : Text :=
  let hash : UInt64 :=
    input.foldl (fun hash b => (hash ^^^ b.toUInt64) * 0x00000100000001b3) 0xcbf29ce484222325
  let hi := hash
  let lo := hash * 0x517cc1b727220a95
  hex 8 (hi >>> 32).toUInt32.toNat ++ '-' :: hex 4 (hi >>> 16).toUInt16.toNat ++ "-4".toList ++
    hex 3 (hi &&& 0x0fff).toUInt16.toNat ++ '-' ::
    hex 4 ((lo >>> 48).toUInt16 ||| 0x8000).toNat ++ '-' ::
    hex 12 (lo &&& 0x0000ffffffffffff).toNat

end Helpers

namespace ProtocolAdapter

def toNormalized (rawBytes : List UInt8) (protocol : Protocol) :
    Except AdapterError NormalizedRequest :=
  match fromUtf8 rawBytes with
  | none => .error (.malformedInput "invalid UTF-8")
  | some text => .ok {
      id := (extractJsonString text "id".toList).getD (uuidV4Fake rawBytes)
      protocol := protocol
      headers := extractJsonHeaders text
      body := encodeUtf8 ((extractJsonString text "body".toList).getD [])
      timeoutMs := (extractJsonU64 text "timeout_ms".toList).getD 30000 }

/-- A quote gets a backslash in front, and nothing else does. -/
def escapeQuotes (t : Text) : Text := t.flatMap fun c => if c = '"' then ['\\', '"'] else [c]

def responseText (response : NormalizedResponse) (targetProtocol : Protocol) : Text :=
  let bodyStr := fromUtf8Lossy response.body
  "\x7b\"request_id\":\"".toList ++ response.requestId ++
    "\",\"protocol\":\"".toList ++ targetProtocol.tag ++
    "\",\"status_code\":".toList ++ Nat.toDigits 10 response.statusCode.toNat ++
    ",\"latency_ms\":".toList ++ Nat.toDigits 10 response.latencyMs.toNat ++
    ",\"body\":\"".toList ++ escapeQuotes bodyStr ++ "\"\x7d".toList

def fromNormalized (response : NormalizedResponse) (targetProtocol : Protocol) : List UInt8 :=
  encodeUtf8 (responseText response targetProtocol)

end ProtocolAdapter

open Texts

variable {name s t u rest : Text} {c d : Char}

section Find

theorem find_of_prefix : find t (t ++ rest) = some ([], t ++ rest) := by
  cases h : t ++ rest with
  | nil => simp [find, (List.append_eq_nil_iff.mp h).1]
  | cons c u =>
    have hprefix : t.isPrefixOf (c :: u) = true := by
      rw [← h]
      exact List.isPrefixOf_iff_prefix.mpr (List.prefix_append t rest)
    rw [find, if_pos hprefix]

theorem find_cons_of_not_start (h : ¬u <+: c :: t) :
    find u (c :: t) = (find u t).map fun p => (c :: p.1, p.2) := by
  rw [find, if_neg]
  intro hprefix
  exact h (List.isPrefixOf_iff_prefix.mp hprefix)

/-- Characters that the needle does not begin with are passed over. -/
theorem find_cons_of_ne (h : c ≠ d) :
    find (d :: u) (c :: t) = (find (d :: u) t).map fun p => (c :: p.1, p.2) :=
  find_cons_of_not_start fun hprefix => h (List.cons_prefix_cons.mp hprefix).1.symm

theorem find_append_of_not_mem (h : d ∉ s) :
    find (d :: u) (s ++ t) = (find (d :: u) t).map fun p => (s ++ p.1, p.2) := by
  induction s with
  | nil => simp
  | cons c s ih =>
    rw [List.mem_cons, not_or] at h
    rw [List.cons_append, find_cons_of_ne (Ne.symm h.1), ih h.2, Option.map_map]
    rfl

theorem find_char (h : c ∉ s) : find [c] (s ++ c :: t) = some (s, c :: t) := by
  rw [find_append_of_not_mem h, show c :: t = [c] ++ t from rfl, find_of_prefix]
  simp

theorem find_char_none (h : c ∉ s) : find [c] s = none := by
  have hs := find_append_of_not_mem (u := []) (t := []) h
  rw [List.append_nil] at hs
  rw [hs]
  rfl

theorem findBehind_char (h : c ∉ s) : findBehind [c] (s ++ c :: t) = some t := by
  rw [findBehind, find_char h]
  rfl

end Find

/-- A text with its quotes in pairs, in which no string is this name, and nothing between two
strings begins as it does. -/
inductive Passed (name : Text) : Text → Prop where
  | nil : Passed name []
  | char {c : Char} {t : Text} (hq : c ≠ '"') (hn : name.head? ≠ some c) (h : Passed name t) :
      Passed name (c :: t)
  | str {s t : Text} (hq : '"' ∉ s) (hne : s ≠ name) (h : Passed name t) :
      Passed name ('"' :: (s ++ '"' :: t))

namespace Passed

theorem append (hs : Passed name s) (ht : Passed name t) : Passed name (s ++ t) := by
  induction hs with
  | nil => exact ht
  | char hq hn _ ih => exact .char hq hn ih
  | str hq hne _ ih =>
    rw [List.cons_append, List.append_assoc]
    exact .str hq hne ih

theorem of_forall (h : ∀ c ∈ s, c ≠ '"' ∧ name.head? ≠ some c) : Passed name s := by
  induction s with
  | nil => exact .nil
  | cons c s ih =>
    obtain ⟨hq, hn⟩ := h c List.mem_cons_self
    exact .char hq hn (ih fun d hd => h d (List.mem_cons_of_mem c hd))

/-- Behind a string the name does not begin. -/
theorem head_ne (h : Passed name t) (hname : '"' ∉ name) :
    ∀ n ∈ name.head?, ∀ c ∈ (t ++ '"' :: rest).head?, n ≠ c := by
  intro n hn c hc
  have hquote : n ≠ '"' := by
    rintro rfl
    exact hname (List.mem_of_mem_head? hn)
  cases h with
  | nil =>
    obtain rfl := Option.some.inj hc
    exact hquote
  | char _ hne _ =>
    obtain rfl := Option.some.inj hc
    rintro rfl
    exact hne hn
  | str _ _ _ =>
    obtain rfl := Option.some.inj hc
    exact hquote

end Passed

/-- Two texts without quotes that go on alike as far as the first quote are one. -/
theorem eq_of_prefix_quote (hs : '"' ∉ s) (ht : '"' ∉ t) (h : s ++ ['"'] <+: t ++ '"' :: rest) :
    s = t := by
  induction s generalizing t with
  | nil =>
    cases t with
    | nil => rfl
    | cons d t =>
      obtain rfl := (List.cons_prefix_cons.mp h).1
      exact absurd List.mem_cons_self ht
  | cons c s ih =>
    cases t with
    | nil =>
      obtain rfl := (List.cons_prefix_cons.mp h).1
      exact absurd List.mem_cons_self hs
    | cons d t =>
      obtain ⟨rfl, hmore⟩ := List.cons_prefix_cons.mp h
      rw [ih (fun hm => hs (List.mem_cons_of_mem c hm)) (fun hm => ht (List.mem_cons_of_mem c hm))
        hmore]

/-- The first string that is the name is the one behind a text without it. -/
theorem find_quoted (h : Passed name s) (hne : name ≠ []) (hname : '"' ∉ name) :
    find (quoted name) (s ++ '"' :: (name ++ '"' :: rest)) =
      some (s, '"' :: (name ++ '"' :: rest)) := by
  have hneedle : quoted name = '"' :: (name ++ ['"']) := rfl
  induction h with
  | nil =>
    have hwhole : '"' :: (name ++ '"' :: rest) = quoted name ++ rest := by simp [quoted]
    rw [hwhole]
    exact find_of_prefix
  | @char c t hq _ _ ih =>
    rw [List.cons_append, hneedle, find_cons_of_ne hq, ← hneedle, ih]
    rfl
  | @str s t hq hdiff htail ih =>
    rw [List.cons_append, List.append_assoc, List.cons_append]
    have hopen : ¬quoted name <+: '"' :: (s ++ '"' :: (t ++ '"' :: (name ++ '"' :: rest))) := by
      intro hprefix
      exact hdiff (eq_of_prefix_quote hname hq (List.cons_prefix_cons.mp hprefix).2).symm
    have hclose : ¬quoted name <+: '"' :: (t ++ '"' :: (name ++ '"' :: rest)) := by
      intro hprefix
      obtain ⟨n, name', rfl⟩ := List.exists_cons_of_ne_nil hne
      have hmore : n :: (name' ++ ['"']) <+: t ++ '"' :: (n :: name' ++ '"' :: rest) :=
        (List.cons_prefix_cons.mp hprefix).2
      obtain ⟨v, hv⟩ := hmore
      have hhead : n ∈ (t ++ '"' :: (n :: name' ++ '"' :: rest)).head? := by
        rw [← hv]
        rfl
      exact htail.head_ne hname n rfl n hhead rfl
    rw [find_cons_of_not_start hopen, hneedle, find_append_of_not_mem hq, ← hneedle,
      find_cons_of_not_start hclose, ih]
    simp

theorem findBehind_quoted (h : Passed name s) (hne : name ≠ []) (hname : '"' ∉ name) :
    findBehind (quoted name) (s ++ '"' :: (name ++ '"' :: rest)) = some rest := by
  rw [findBehind, find_quoted h hne hname]
  simp [quoted]

end HelixRouter.Protocols
