import HelixRouter.Json.Grammar
import HelixRouter.RequestValidation.RequestValidator

namespace HelixRouter.RequestValidation

open Texts Json Floats

/-- What a schema takes numbers, strings and names for. -/
structure Reading (N : Type) where
  integer : Option Int64 → Option Int64 → N → Prop
  float : Option F64 → Option F64 → N → Prop
  string : Option Nat → Option Nat → Option String → Text → Prop
  name : String → Text → Bool

variable {N : Type}

mutual

/-- The value is as the schema says, under a reading. -/
def Meets (R : Reading N) : SchemaType → Value N → Prop
  | .nullable inner, v => v = .null ∨ Meets R inner v
  | .boolean, v => ∃ b, v = .bool b
  | .integer min max, v => ∃ n, v = .number n ∧ R.integer min max n
  | .float min max, v => ∃ n, v = .number n ∧ R.float min max n
  | .string minLen maxLen pattern, v => ∃ raw, v = .str raw ∧ R.string minLen maxLen pattern raw
  | .array itemType maxItems, v => ∃ items, v = .array items ∧
      (∀ m, maxItems = some m → items.length ≤ m) ∧ ∀ item ∈ items, Meets R itemType item
  | .object fields, v => ∃ members, v = .object members ∧ MeetsFields R fields members

def MeetsFields (R : Reading N) : List (SchemaField SchemaType) → List (Text × Value N) → Prop
  | [], _ => True
  | ⟨name, schema, required⟩ :: fields, members =>
    (match lastMember (R.name name) members with
      | some v => Meets R schema v
      | none => required = false) ∧ MeetsFields R fields members

end

/-- A pattern in which a star stands for any text. -/
def Glob : Text → Text → Prop
  | [], t => t = []
  | p :: ps, t =>
    if p = '*' then ∃ a b, t = a ++ b ∧ Glob ps b else ∃ rest, t = p :: rest ∧ Glob ps rest

/-- The bounds of a length, and a property a pattern asks for. -/
def Fits (minLen maxLen : Option Nat) (pattern : Option String) (len : Nat)
    (matches_ : Text → Prop) : Prop :=
  (∀ m, minLen = some m → m ≤ len) ∧ (∀ m, maxLen = some m → len ≤ m) ∧
    ∀ p, pattern = some p → matches_ p.toList

def InRange (min max : Option F64) (n : F64) : Prop :=
  (∀ lo, min = some lo → n.lt lo = false) ∧ ∀ hi, max = some hi → hi.lt n = false

def InBounds (min max : Option Int64) (z : ℤ) : Prop :=
  (∀ lo, min = some lo → lo.toInt ≤ z) ∧ ∀ hi, max = some hi → z ≤ hi.toInt

/-- How the schemas are documented: an integer is an integral number, and a string is what
its source form stands for. -/
def asMeant : Reading ℚ where
  integer min max q := ∃ z : ℤ, q = z ∧ InBounds min max z
  float min max q := InRange min max (.ofRat q)
  string minLen maxLen pattern raw :=
    Fits minLen maxLen pattern (byteLen (decode raw)) fun p => Glob p (decode raw)
  name n raw := decode raw = n.toList

/-- How `validate_value` takes them: an integer is what is left of a number when it is cast,
and a string is its source form, matched from the left. -/
def asRead : Reading F64 where
  integer min max n := InBounds min max n.toI64.toInt
  float := InRange
  string minLen maxLen pattern raw :=
    Fits minLen maxLen pattern (byteLen raw) fun p => wildcardMatch p raw = true
  name n raw := raw = n.toList

section Validate

variable {path : String}

theorem validateInteger_eq_nil {n : F64} {min max : Option Int64} :
    validateInteger path n min max = [] ↔ InBounds min max n.toI64.toInt := by
  unfold validateInteger InBounds
  rw [List.append_eq_nil_iff]
  refine and_congr ?_ ?_
  · cases min with
    | none => simp
    | some lo => simp [Int64.lt_iff_toInt_lt]
  · cases max with
    | none => simp
    | some hi => simp [Int64.lt_iff_toInt_lt]

theorem validateString_eq_nil {s : Text} {minLen maxLen : Option Nat} {pattern : Option String} :
    validateString path s minLen maxLen pattern = [] ↔
      Fits minLen maxLen pattern (byteLen s) fun p => wildcardMatch p s = true := by
  unfold validateString Fits
  dsimp only
  rw [List.append_eq_nil_iff, List.append_eq_nil_iff, and_assoc]
  refine and_congr ?_ (and_congr ?_ ?_)
  · cases minLen with
    | none => simp
    | some m => simp
  · cases maxLen with
    | none => simp
    | some m => simp
  · cases pattern with
    | none => simp
    | some p => simp

variable [FloatDisplay]

theorem validateFloat_eq_nil {n : F64} {min max : Option F64} :
    validateFloat path n min max = [] ↔ InRange min max n := by
  unfold validateFloat InRange
  rw [List.append_eq_nil_iff]
  refine and_congr ?_ ?_
  · cases min with
    | none => simp
    | some lo => simp
  · cases max with
    | none => simp
    | some hi => simp

mutual

/-- There are no errors exactly where the value meets the schema as read. -/
theorem validateValue_eq_nil (s : SchemaType) (v : JsonVal) (path : String) :
    validateValue s v path = [] ↔ Meets asRead s v := by
  cases s with
  | boolean =>
    unfold validateValue Meets
    cases v with
    | bool b => simp
    | _ => simp
  | nullable inner =>
    unfold validateValue Meets
    cases v with
    | null => simp
    | _ => simpa using validateValue_eq_nil inner _ path
  | integer min max =>
    unfold validateValue Meets
    cases v with
    | number n => simpa [asRead] using validateInteger_eq_nil
    | _ => simp
  | float min max =>
    unfold validateValue Meets
    cases v with
    | number n => simpa [asRead] using validateFloat_eq_nil
    | _ => simp
  | string minLen maxLen pattern =>
    unfold validateValue Meets
    cases v with
    | str raw => simpa [asRead] using validateString_eq_nil
    | _ => simp
  | array itemType maxItems =>
    unfold validateValue Meets
    cases v with
    | array items =>
      simp only [Value.array.injEq, exists_eq_left']
      rw [List.append_eq_nil_iff, List.flatMap_eq_nil_iff]
      refine and_congr ?_ ⟨fun h item hi => ?_, fun h p hp => ?_⟩
      · cases maxItems with
        | none => simp
        | some m => simp
      · obtain ⟨i, hi⟩ := List.getElem?_of_mem hi
        have hitem := h (item, i) (List.mem_zipIdx_iff_getElem?.mpr hi)
        exact (validateValue_eq_nil itemType item _).mp hitem
      · have hi := List.mem_zipIdx_iff_getElem?.mp hp
        exact (validateValue_eq_nil itemType p.1 _).mpr (h p.1 (List.mem_of_getElem? hi))
    | _ => simp
  | object fields =>
    unfold validateValue Meets
    cases v with
    | object members => simpa using validateFields_eq_nil fields members path
    | _ => simp

theorem validateFields_eq_nil (fields : List (SchemaField SchemaType))
    (members : List (Text × JsonVal)) (path : String) :
    validateFields fields members path = [] ↔ MeetsFields asRead fields members := by
  cases fields with
  | nil =>
    unfold validateFields MeetsFields
    simp
  | cons f fields =>
    obtain ⟨name, schema, required⟩ := f
    unfold validateFields MeetsFields
    rw [List.append_eq_nil_iff]
    refine and_congr ?_ (validateFields_eq_nil fields members path)
    rw [show lastMember (asRead.name name) members = lastMember (· = name.toList) members from rfl]
    cases lastMember (· = name.toList) members with
    | none => simp
    | some v => exact validateValue_eq_nil schema v _

end

end Validate

end HelixRouter.RequestValidation
