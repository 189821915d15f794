import HelixRouter.Containers.IterationOrder
import HelixRouter.Floats.F64
import HelixRouter.Texts.Bytes
import Mathlib.Data.List.AList
import Mathlib.Data.List.DropRight

namespace HelixRouter.Configuration

open Floats Texts

inductive ConfigValue where
  | string (s : String)
  | int (i : Int64)
  | float (f : F64)
  | bool (b : Bool)
  | array (values : List ConfigValue)

inductive ValueType where
  | string
  | int
  | float
  | bool
  | array
  deriving DecidableEq

def ValueType.toString : ValueType → String
  | string => "String"
  | int => "Int"
  | float => "Float"
  | bool => "Bool"
  | array => "Array"

namespace ConfigValue

def valueType : ConfigValue → ValueType
  | string _ => .string
  | int _ => .int
  | float _ => .float
  | bool _ => .bool
  | array _ => .array

def asF64 : ConfigValue → Option F64
  | int i => some (.ofRat i.toInt)
  | float f => some f
  | _ => none

mutual

def eq : ConfigValue → ConfigValue → Bool
  | string a, string b => a = b
  | int a, int b => a = b
  | float a, float b => a.eq b
  | bool a, bool b => a = b
  | array a, array b => eqAll a b
  | _, _ => false

def eqAll : List ConfigValue → List ConfigValue → Bool
  | [], [] => true
  | a :: as, b :: bs => eq a b && eqAll as bs
  | _, _ => false

end

end ConfigValue

structure SchemaField where
  required : Bool
  valueType : ValueType
  min : Option F64
  max : Option F64
  regex : Option String

structure ConfigSchema where
  fields : AList (fun _ : String => SchemaField) := ∅

inductive ConfigError where
  | missingRequired (key : String)
  | typeMismatch (key expected got : String)
  | outOfRange (key : String) (value min max : F64)
  | validationFailed (message : String)

section Patterns

/-- What stands behind the first occurrence. -/
def afterFirst (needle : Text) : Text → Option Text
  | [] => if needle = [] then some [] else none
  | c :: t =>
    if needle.isPrefixOf (c :: t) then some ((c :: t).drop needle.length) else afterFirst needle t

/-- Splits a text at each `.*`. -/
def splitAtAny : Text → List Text
  | [] => [[]]
  | '.' :: '*' :: t => [] :: splitAtAny t
  | c :: t =>
    match splitAtAny t with
    | segment :: segments => (c :: segment) :: segments
    | [] => [[c]]

/-- Whether the segments appear in order in the rest of a text. -/
def segmentsAppear (anchoredStart anchoredEnd : Bool) (text : Text) :
    Text → Bool → List Text → Bool
  | _, _, [] => true
  | rest, first, segment :: segments =>
    if segment = [] then segmentsAppear anchoredStart anchoredEnd text rest false segments
    else if first && anchoredStart then
      segment.isPrefixOf text &&
        segmentsAppear anchoredStart anchoredEnd text (text.drop segment.length) false segments
    else if segments.isEmpty && anchoredEnd then
      segment.isSuffixOf text &&
        segmentsAppear anchoredStart anchoredEnd text rest false segments
    else
      match afterFirst segment rest with
      | some rest => segmentsAppear anchoredStart anchoredEnd text rest false segments
      | none => false

def simpleRegexMatch (pattern text : Text) : Bool :=
  let anchoredStart := pattern.head? = some '^'
  let anchoredEnd := pattern.getLast? = some '$'
  let core := (pattern.dropWhile (· = '^')).rdropWhile (· = '$')
  if (afterFirst ['.', '*'] core).isSome then
    segmentsAppear anchoredStart anchoredEnd text text true (splitAtAny core)
  else
    match decide anchoredStart, decide anchoredEnd with
    | true, true => text = core
    | true, false => core.isPrefixOf text
    | false, true => core.isSuffixOf text
    | false, false => (afterFirst core text).isSome

end Patterns

def validateValue (key : String) (value : ConfigValue) (field : SchemaField) :
    Except ConfigError Unit := do
  if value.valueType ≠ field.valueType then
    throw (.typeMismatch key field.valueType.toString value.valueType.toString)
  if field.min.isSome || field.max.isSome then
    if let some n := value.asF64 then
      let min := field.min.getD (.infinite true)
      let max := field.max.getD (.infinite false)
      if n.lt min || max.lt n then
        throw (.outOfRange key n min max)
  if let (.string s, some pattern) := (value, field.regex) then
    if !simpleRegexMatch pattern.toList s.toList then
      throw (.validationFailed ("key '" ++ key ++ "': value '" ++ s ++
        "' does not match pattern '" ++ pattern ++ "'"))

/-- A watch channel: the value that was sent last, and the receivers that are alive. -/
structure Watch where
  value : UInt64
  receivers : List Nat := []
  opened : Nat := 0

namespace Watch

/-- Without a receiver nothing is stored. -/
def send (w : Watch) (value : UInt64) : Bool × Watch :=
  if w.receivers.isEmpty then (false, w) else (true, { w with value := value })

def subscribe (w : Watch) : Nat × Watch :=
  (w.opened, { w with receivers := w.opened :: w.receivers, opened := w.opened + 1 })

def drop (w : Watch) (receiver : Nat) : Watch :=
  { w with receivers := w.receivers.erase receiver }

/-- What a receiver reads, if it is alive. -/
def borrow (w : Watch) (receiver : Nat) : Option UInt64 :=
  if receiver ∈ w.receivers then some w.value else none

end Watch

abbrev Values := AList (fun _ : String => ConfigValue)

/-- The orders in which the maps are walked. -/
structure Orders where
  fields : IterationOrder (Sigma fun _ : String => SchemaField)
  newValues : IterationOrder (Sigma fun _ : String => ConfigValue)
  oldKeys : IterationOrder String

structure DynamicConfig where
  values : Values := ∅
  schema : Option ConfigSchema := none
  versionTx : Watch := { value := 0 }
  version : UInt64 := 0

namespace DynamicConfig

def new : DynamicConfig := {}

def withSchema (schema : ConfigSchema) : DynamicConfig := { schema := some schema }

def bumpVersion (c : DynamicConfig) : DynamicConfig :=
  let version := c.version + 1
  { c with version := version, versionTx := (c.versionTx.send version).2 }

/-- The check of a value against the field of its key, if the schema has one. -/
def checked (c : DynamicConfig) (key : String) (value : ConfigValue) : Except ConfigError Unit :=
  match c.schema.bind fun schema => schema.fields.lookup key with
  | some field => validateValue key value field
  | none => .ok ()

def set (c : DynamicConfig) (key : String) (value : ConfigValue) :
    Except ConfigError Unit × DynamicConfig :=
  match c.checked key value with
  | .error e => (.error e, c)
  | .ok () => (.ok (), { c with values := c.values.insert key value }.bumpVersion)

/-- The checks of a reload: the required keys first, then the values. -/
def checkedAll (c : DynamicConfig) (orders : Orders) (newValues : Values) :
    Except ConfigError Unit := do
  if let some schema := c.schema then
    for ⟨key, field⟩ in orders.fields.arrange schema.fields.entries do
      if field.required && !decide (key ∈ newValues) then
        throw (.missingRequired key)
    for ⟨key, value⟩ in orders.newValues.arrange newValues.entries do
      c.checked key value

/-- The keys that were added or whose value is another one, and those that were removed. -/
def changed (c : DynamicConfig) (orders : Orders) (newValues : Values) : List String :=
  ((orders.newValues.arrange newValues.entries).filter fun ⟨key, value⟩ =>
    !((c.values.lookup key).any (·.eq value))).map (·.1) ++
  (orders.oldKeys.arrange c.values.keys).filter (· ∉ newValues)

def reloadFromMap (c : DynamicConfig) (orders : Orders) (newValues : Values) :
    Except ConfigError (List String) × DynamicConfig :=
  match c.checkedAll orders newValues with
  | .error e => (.error e, c)
  | .ok () =>
    let changed := c.changed orders newValues
    let swapped := { c with values := newValues }
    (.ok changed, if changed.isEmpty then swapped else swapped.bumpVersion)

def subscribe (c : DynamicConfig) : Nat × DynamicConfig :=
  let (receiver, versionTx) := c.versionTx.subscribe
  (receiver, { c with versionTx := versionTx })

def dropReceiver (c : DynamicConfig) (receiver : Nat) : DynamicConfig :=
  { c with versionTx := c.versionTx.drop receiver }

variable {c : DynamicConfig}

/-- A change that is refused leaves all as it was. -/
theorem set_cases (c : DynamicConfig) (key : String) (value : ConfigValue) :
    (∃ e, c.set key value = (.error e, c)) ∨
      ∃ values, c.set key value = (.ok (), { c with values := values }.bumpVersion) := by
  unfold set
  split
  · rename_i e _
    exact Or.inl ⟨e, rfl⟩
  · exact Or.inr ⟨_, rfl⟩

/-- The version is another one only where some key has changed. -/
theorem reloadFromMap_cases (c : DynamicConfig) (orders : Orders) (newValues : Values) :
    (∃ e, c.reloadFromMap orders newValues = (.error e, c)) ∨
      c.reloadFromMap orders newValues = (.ok [], { c with values := newValues }) ∨
      ∃ key keys, c.reloadFromMap orders newValues =
        (.ok (key :: keys), { c with values := newValues }.bumpVersion) := by
  unfold reloadFromMap
  split
  · rename_i e _
    exact Or.inl ⟨e, rfl⟩
  · right
    dsimp only
    cases c.changed orders newValues with
    | nil => exact Or.inl rfl
    | cons key keys => exact Or.inr ⟨key, keys, rfl⟩

end DynamicConfig

end HelixRouter.Configuration
