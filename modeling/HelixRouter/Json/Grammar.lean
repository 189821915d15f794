import HelixRouter.Texts.Bytes

namespace HelixRouter.Json

open Texts

/-- A value, with numbers of some kind and strings as they stand between their quotes. -/
inductive Value (N : Type) where
  | null
  | bool (b : Bool)
  | number (n : N)
  | str (raw : Text)
  | array (items : List (Value N))
  | object (fields : List (Text × Value N))

namespace Value

variable {N M : Type}

mutual

def map (f : N → M) : Value N → Value M
  | .null => .null
  | .bool b => .bool b
  | .number n => .number (f n)
  | .str raw => .str raw
  | .array items => .array (mapItems f items)
  | .object fields => .object (mapFields f fields)

def mapItems (f : N → M) : List (Value N) → List (Value M)
  | [] => []
  | v :: vs => v.map f :: mapItems f vs

def mapFields (f : N → M) : List (Text × Value N) → List (Text × Value M)
  | [] => []
  | (k, v) :: ms => (k, v.map f) :: mapFields f ms

end

theorem mapItems_eq (f : N → M) (vs : List (Value N)) : mapItems f vs = vs.map (map f) := by
  induction vs with
  | nil => rfl
  | cons v vs ih => rw [mapItems, ih, List.map_cons]

theorem mapFields_eq (f : N → M) (ms : List (Text × Value N)) :
    mapFields f ms = ms.map fun m => (m.1, m.2.map f) := by
  induction ms with
  | nil => rfl
  | cons m ms ih => rw [mapFields, ih, List.map_cons]

mutual

/-- What is asked of every number, and of every string and name in source form. -/
def Every (P : N → Prop) (Q : Text → Prop) : Value N → Prop
  | .null => True
  | .bool _ => True
  | .number n => P n
  | .str raw => Q raw
  | .array items => EveryItem P Q items
  | .object fields => EveryField P Q fields

def EveryItem (P : N → Prop) (Q : Text → Prop) : List (Value N) → Prop
  | [] => True
  | v :: vs => v.Every P Q ∧ EveryItem P Q vs

def EveryField (P : N → Prop) (Q : Text → Prop) : List (Text × Value N) → Prop
  | [] => True
  | (k, v) :: ms => (Q k ∧ v.Every P Q) ∧ EveryField P Q ms

end

mutual

/-- What is asked of every name of a member. -/
def EveryName (Q : Text → Prop) : Value N → Prop
  | .array items => EveryNameItems Q items
  | .object fields => EveryNameFields Q fields
  | .null | .bool _ | .number _ | .str _ => True

def EveryNameItems (Q : Text → Prop) : List (Value N) → Prop
  | [] => True
  | v :: vs => v.EveryName Q ∧ EveryNameItems Q vs

def EveryNameFields (Q : Text → Prop) : List (Text × Value N) → Prop
  | [] => True
  | (k, v) :: ms => (Q k ∧ v.EveryName Q) ∧ EveryNameFields Q ms

end

theorem everyNameItems_iff {Q : Text → Prop} {vs : List (Value N)} :
    EveryNameItems Q vs ↔ ∀ v ∈ vs, v.EveryName Q := by
  induction vs with
  | nil => simp [EveryNameItems]
  | cons v vs ih => rw [EveryNameItems, ih, List.forall_mem_cons]

theorem everyNameFields_iff {Q : Text → Prop} {ms : List (Text × Value N)} :
    EveryNameFields Q ms ↔ ∀ m ∈ ms, Q m.1 ∧ m.2.EveryName Q := by
  induction ms with
  | nil => simp [EveryNameFields]
  | cons m ms ih => rw [EveryNameFields, ih, List.forall_mem_cons]

theorem everyItem_iff {P : N → Prop} {Q : Text → Prop} {vs : List (Value N)} :
    EveryItem P Q vs ↔ ∀ v ∈ vs, v.Every P Q := by
  induction vs with
  | nil => simp [EveryItem]
  | cons v vs ih => rw [EveryItem, ih, List.forall_mem_cons]

theorem everyField_iff {P : N → Prop} {Q : Text → Prop} {ms : List (Text × Value N)} :
    EveryField P Q ms ↔ ∀ m ∈ ms, Q m.1 ∧ m.2.Every P Q := by
  induction ms with
  | nil => simp [EveryField]
  | cons m ms ih => rw [EveryField, ih, List.forall_mem_cons]

mutual

theorem map_id : (v : Value N) → v.map id = v
  | .null | .bool _ | .number _ | .str _ => rfl
  | .array items => by rw [map, mapItems_id items]
  | .object fields => by rw [map, mapFields_id fields]

theorem mapItems_id : (vs : List (Value N)) → mapItems id vs = vs
  | [] => rfl
  | v :: vs => by rw [mapItems, map_id v, mapItems_id vs]

theorem mapFields_id : (ms : List (Text × Value N)) → mapFields id ms = ms
  | [] => rfl
  | (_, v) :: ms => by rw [mapFields, map_id v, mapFields_id ms]

end

end Value

/-- What a way of writing values takes for a space, for a number and for the inside of a string. -/
structure Dialect (N : Type) where
  space : Char → Bool
  number : Text → N → Prop
  body : Text → Prop

variable {N M : Type}

def Dialect.Spaces (d : Dialect N) (w : Text) : Prop := ∀ c ∈ w, d.space c = true

instance (d : Dialect N) (w : Text) : Decidable (d.Spaces w) :=
  List.decidableBAll (fun c => d.space c = true) w

/-- A value in an array or object, with the spaces around it. -/
structure Element (N : Type) where
  before : Text
  text : Text
  after : Text
  value : Value N

def Element.full (e : Element N) : Text := e.before ++ e.text ++ e.after

structure Member (N : Type) where
  before : Text
  name : Text
  after : Text
  element : Element N

def Member.full (m : Member N) : Text :=
  m.before ++ '"' :: m.name ++ '"' :: m.after ++ ':' :: m.element.full

/-- Parts with commas between them and a closing character behind the last. -/
def enclosed (close : Char) : List Text → Text
  | [] => [close]
  | [t] => t ++ [close]
  | t :: ts => t ++ ',' :: enclosed close ts

/-- The texts that are a value, with no spaces around it. -/
inductive Written (d : Dialect N) : Value N → Text → Prop where
  | null : Written d .null ['n', 'u', 'l', 'l']
  | true : Written d (.bool true) ['t', 'r', 'u', 'e']
  | false : Written d (.bool false) ['f', 'a', 'l', 's', 'e']
  | number {t : Text} {n : N} (h : d.number t n) : Written d (.number n) t
  | str {raw : Text} (h : d.body raw) : Written d (.str raw) ('"' :: raw ++ ['"'])
  | emptyArray {w : Text} (h : d.Spaces w) : Written d (.array []) ('[' :: w ++ [']'])
  | array {es : List (Element N)} (hne : es ≠ [])
      (hs : ∀ e ∈ es, d.Spaces e.before ∧ d.Spaces e.after)
      (hw : ∀ e ∈ es, Written d e.value e.text) :
      Written d (.array (es.map (·.value))) ('[' :: enclosed ']' (es.map Element.full))
  | emptyObject {w : Text} (h : d.Spaces w) : Written d (.object []) ('{' :: w ++ ['}'])
  | object {ms : List (Member N)} (hne : ms ≠ [])
      (hs : ∀ m ∈ ms, d.Spaces m.before ∧ d.Spaces m.after ∧
        d.Spaces m.element.before ∧ d.Spaces m.element.after)
      (hn : ∀ m ∈ ms, d.body m.name)
      (hw : ∀ m ∈ ms, Written d m.element.value m.element.text) :
      Written d (.object (ms.map fun m => (m.name, m.element.value)))
        ('{' :: enclosed '}' (ms.map Member.full))

/-- A text that is a value but for spaces around it. -/
def Dialect.IsText (d : Dialect N) (t : Text) (v : Value N) : Prop :=
  ∃ before text after, t = before ++ text ++ after ∧ d.Spaces before ∧ d.Spaces after ∧
    Written d v text

/-- One way of writing values allows for another, when numbers are read as `f` says. -/
structure Dialect.Embeds (d : Dialect N) (e : Dialect M) (f : N → M) : Prop where
  space : ∀ c, d.space c = true → e.space c = true
  number : ∀ t n, d.number t n → e.number t (f n)
  body : ∀ raw, d.body raw → e.body raw

variable {d : Dialect N} {e : Dialect M} {f : N → M} {w : Text}

theorem Dialect.Embeds.spaces (h : d.Embeds e f) (hw : d.Spaces w) : e.Spaces w :=
  fun c hc => h.space c (hw c hc)

def Element.map (f : N → M) (x : Element N) : Element M :=
  ⟨x.before, x.text, x.after, x.value.map f⟩

def Member.map (f : N → M) (m : Member N) : Member M :=
  ⟨m.before, m.name, m.after, m.element.map f⟩

theorem Written.map (h : d.Embeds e f) {v : Value N} {t : Text} (hv : Written d v t) :
    Written e (v.map f) t := by
  induction hv with
  | null => exact .null
  | true => exact .true
  | false => exact .false
  | number hn => exact .number (h.number _ _ hn)
  | str hb => exact .str (h.body _ hb)
  | emptyArray hw => exact .emptyArray (h.spaces hw)
  | emptyObject hw => exact .emptyObject (h.spaces hw)
  | @array es hne hs hw ih =>
    have hmap : Written e (.array ((es.map (Element.map f)).map (·.value)))
        ('[' :: enclosed ']' ((es.map (Element.map f)).map Element.full)) := by
      refine .array (by simpa using hne) (List.forall_mem_map.mpr fun x hx => ?_)
        (List.forall_mem_map.mpr ih)
      exact ⟨h.spaces (hs x hx).1, h.spaces (hs x hx).2⟩
    rw [List.map_map, List.map_map] at hmap
    rw [Value.map, Value.mapItems_eq, List.map_map]
    exact hmap
  | @object ms hne hs hn hw ih =>
    have hmap : Written e
        (.object ((ms.map (Member.map f)).map fun m => (m.name, m.element.value)))
        ('{' :: enclosed '}' ((ms.map (Member.map f)).map Member.full)) := by
      refine .object (by simpa using hne) (List.forall_mem_map.mpr fun m hm => ?_)
        (List.forall_mem_map.mpr fun m hm => h.body _ (hn m hm)) (List.forall_mem_map.mpr ih)
      obtain ⟨hb, ha, heb, hea⟩ := hs m hm
      exact ⟨h.spaces hb, h.spaces ha, h.spaces heb, h.spaces hea⟩
    rw [List.map_map, List.map_map] at hmap
    rw [Value.map, Value.mapFields_eq, List.map_map]
    exact hmap

/-- A character of a string in source form, or a code unit that an escape gives. -/
inductive Piece where
  | char (c : Char)
  | unit (n : Nat)

def hexValue (c : Char) : Nat :=
  if c.isDigit then c.toNat - '0'.toNat
  else if 'a' ≤ c then c.toNat - 'a'.toNat + 10
  else c.toNat - 'A'.toNat + 10

/-- The character that a letter behind a backslash stands for. -/
def escaped (c : Char) : Char :=
  if c = 'b' then '\u0008'
  else if c = 'f' then '\u000c'
  else if c = 'n' then '\n'
  else if c = 'r' then '\r'
  else if c = 't' then '\t'
  else c

def pieces : Text → List Piece
  | '\\' :: 'u' :: a :: b :: c :: d :: t =>
    .unit (hexValue a * 4096 + hexValue b * 256 + hexValue c * 16 + hexValue d) :: pieces t
  | '\\' :: c :: t => .char (escaped c) :: pieces t
  | c :: t => .char c :: pieces t
  | [] => []

def isHighSurrogate (n : Nat) : Bool := 0xd800 ≤ n && n < 0xdc00

def isLowSurrogate (n : Nat) : Bool := 0xdc00 ≤ n && n < 0xe000

/-- The replacement character, in place of a high surrogate without a low one. -/
def unpaired : Option Nat → Text
  | none => []
  | some _ => ['\ufffd']

/-- Code units to characters, with a high surrogate that may be waiting for a low one. -/
def joinPieces : Option Nat → List Piece → Text
  | high, [] => unpaired high
  | high, .char c :: ps => unpaired high ++ c :: joinPieces none ps
  | high, .unit n :: ps =>
    if isHighSurrogate n then unpaired high ++ joinPieces (some n) ps
    else if isLowSurrogate n then
      match high with
      | some h => Char.ofNat (0x10000 + (h - 0xd800) * 0x400 + (n - 0xdc00)) :: joinPieces none ps
      | none => '\ufffd' :: joinPieces none ps
    else unpaired high ++ Char.ofNat n :: joinPieces none ps

/-- The string that the inside of a string in source form stands for. -/
def decode (raw : Text) : Text := joinPieces none (pieces raw)

variable {raw : Text}

/-- Without a backslash a string stands for itself. -/
theorem decode_of_plain (h : '\\' ∉ raw) : decode raw = raw := by
  unfold decode
  induction raw with
  | nil => rfl
  | cons c t ih =>
    have hc : c ≠ '\\' := fun he => h (he ▸ List.mem_cons_self)
    have hpieces : pieces (c :: t) = .char c :: pieces t := by
      rw [pieces]
      · intro _ _ _ _ _ he
        exact absurd he hc
      · intro _ _ he
        exact absurd he hc
    rw [hpieces, joinPieces, ih fun hm => h (List.mem_cons_of_mem _ hm)]
    rfl

end HelixRouter.Json
