import HelixRouter.RequestValidation.ParseJson

namespace HelixRouter.RequestValidation

open Texts Json Floats

structure SchemaField (S : Type) where
  name : String
  schema : S
  required : Bool

inductive SchemaType where
  | string (minLen maxLen : Option Nat) (pattern : Option String)
  | integer (min max : Option Int64)
  | float (min max : Option F64)
  | boolean
  | array (itemType : SchemaType) (maxItems : Option Nat)
  | object (fields : List (SchemaField SchemaType))
  | nullable (inner : SchemaType)

/-- How a floating-point number is printed. -/
class FloatDisplay where
  display : F64 → String

/-- What is left of a text behind the first place where a part stands. -/
def findAfter (part : Text) : Text → Option Text
  | [] => if part = [] then some [] else none
  | c :: t =>
    if part.isPrefixOf (c :: t) then some ((c :: t).drop part.length) else findAfter part t

/-- What is left of a value behind parts that are found one after the other. -/
def matchParts : List Text → Text → Option Text
  | [], value => some value
  | part :: parts, value =>
    if part = [] then matchParts parts value
    else (findAfter part value).bind (matchParts parts)

/-- The position the source keeps is here what is left of the value from there on. -/
def wildcardMatch (pattern value : Text) : Bool :=
  if '*' ∉ pattern then pattern = value
  else
    match pattern.splitOn '*' with
    | [] => false
    | first :: parts =>
      if first.isPrefixOf value then
        match matchParts parts (value.drop first.length) with
        | none => false
        | some rest => pattern.getLast? = some '*' || rest = []
      else false

/-- The value of the last member whose name passes. -/
def lastMember {V : Type} (is : Text → Bool) (fields : List (Text × V)) : Option V :=
  (fields.reverse.find? fun m => is m.1).map (·.2)

section Validate

variable [FloatDisplay]

open FloatDisplay

def validateInteger (path : String) (n : F64) (min max : Option Int64) : List String :=
  let i := n.toI64
  (match min with
    | some lo => if i < lo then [path ++ ": " ++ toString i ++ " < min " ++ toString lo] else []
    | none => []) ++
  (match max with
    | some hi => if hi < i then [path ++ ": " ++ toString i ++ " > max " ++ toString hi] else []
    | none => [])

def validateFloat (path : String) (n : F64) (min max : Option F64) : List String :=
  (match min with
    | some lo => if n.lt lo then [path ++ ": " ++ display n ++ " < min " ++ display lo] else []
    | none => []) ++
  (match max with
    | some hi => if hi.lt n then [path ++ ": " ++ display n ++ " > max " ++ display hi] else []
    | none => [])

def validateString (path : String) (s : Text) (minLen maxLen : Option Nat)
    (pattern : Option String) : List String :=
  let len := byteLen s
  (match minLen with
    | some min =>
      if len < min then
        [path ++ ": string too short (" ++ toString len ++ " < " ++ toString min ++ ")"]
      else []
    | none => []) ++
  (match maxLen with
    | some max =>
      if max < len then
        [path ++ ": string too long (" ++ toString len ++ " > " ++ toString max ++ ")"]
      else []
    | none => []) ++
  (match pattern with
    | some pat =>
      if wildcardMatch pat.toList s then []
      else [path ++ ": string '" ++ String.ofList s ++ "' does not match pattern '" ++ pat ++ "'"]
    | none => [])

mutual

def validateValue : SchemaType → JsonVal → String → List String
  | .nullable inner, val, path =>
    match val with
    | .null => []
    | val => validateValue inner val path
  | .boolean, val, path =>
    match val with
    | .bool _ => []
    | _ => [path ++ ": expected boolean"]
  | .integer min max, val, path =>
    match val with
    | .number n => validateInteger path n min max
    | _ => [path ++ ": expected integer"]
  | .float min max, val, path =>
    match val with
    | .number n => validateFloat path n min max
    | _ => [path ++ ": expected float"]
  | .string minLen maxLen pattern, val, path =>
    match val with
    | .str s => validateString path s minLen maxLen pattern
    | _ => [path ++ ": expected string"]
  | .array itemType maxItems, val, path =>
    match val with
    | .array items =>
      (match maxItems with
        | some max =>
          if max < items.length then
            [path ++ ": array length " ++ toString items.length ++ " > max " ++ toString max]
          else []
        | none => []) ++
      items.zipIdx.flatMap fun (item, i) =>
        validateValue itemType item (path ++ "[" ++ toString i ++ "]")
    | _ => [path ++ ": expected array"]
  | .object fields, val, path =>
    match val with
    | .object objFields => validateFields fields objFields path
    | _ => [path ++ ": expected object"]

def validateFields : List (SchemaField SchemaType) → List (Text × JsonVal) → String → List String
  | [], _, _ => []
  | ⟨name, schema, required⟩ :: fields, objFields, path =>
    (match lastMember (· = name.toList) objFields with
      | some fval => validateValue schema fval (path ++ "." ++ name)
      | none => if required then [path ++ ": missing required field '" ++ name ++ "'"] else []) ++
    validateFields fields objFields path

end

def validateJson (value : Text) (schema : SchemaType) : Except (List String) Unit :=
  match parseJson value with
  | some (jsonVal, _) =>
    let errors := validateValue schema jsonVal "$"
    if errors = [] then .ok () else .error errors
  | none => .error ["invalid JSON: could not parse '" ++ String.ofList value ++ "'"]

end Validate

end HelixRouter.RequestValidation
