import HelixRouter.RequestValidation.Reading
import HelixRouter.RequestValidation.RoundTrip
import HelixRouter.RequestValidation.Schemas
import HelixRouter.RequestValidation.Wildcards
import Mathlib.Data.List.Find

namespace HelixRouter.RequestValidation

open Texts Json Floats

variable {N M : Type}

section Comap

variable {f : N → M} {R : Reading M}

/-- A reading of numbers after they are taken for numbers of another kind. -/
def Reading.comap (R : Reading M) (f : N → M) : Reading N where
  integer min max n := R.integer min max (f n)
  float min max n := R.float min max (f n)
  string := R.string
  name := R.name

theorem lastMember_mapFields (is : Text → Bool) (members : List (Text × Value N)) :
    lastMember is (Value.mapFields f members) = (lastMember is members).map (Value.map f) := by
  unfold lastMember
  rw [Value.mapFields_eq, ← List.map_reverse, List.find?_map, Option.map_map, Option.map_map]
  rfl

mutual

theorem meets_map (s : SchemaType) (v : Value N) :
    Meets R s (v.map f) ↔ Meets (R.comap f) s v := by
  cases s with
  | nullable inner =>
    unfold Meets
    refine or_congr ?_ (meets_map inner v)
    cases v <;> simp [Value.map]
  | boolean =>
    unfold Meets
    cases v <;> simp [Value.map]
  | integer min max =>
    unfold Meets
    cases v <;> simp [Value.map, Reading.comap]
  | float min max =>
    unfold Meets
    cases v <;> simp [Value.map, Reading.comap]
  | string minLen maxLen pattern =>
    unfold Meets
    cases v <;> simp [Value.map, Reading.comap]
  | array itemType maxItems =>
    unfold Meets
    cases v with
    | array items =>
      simp only [Value.map, Value.mapItems_eq, Value.array.injEq, exists_eq_left', List.length_map,
        List.forall_mem_map]
      exact and_congr_right fun _ => forall₂_congr fun item _ => meets_map itemType item
    | _ => simp [Value.map]
  | object fields =>
    unfold Meets
    cases v with
    | object members => simpa [Value.map] using meetsFields_map fields members
    | _ => simp [Value.map]

theorem meetsFields_map (fields : List (SchemaField SchemaType))
    (members : List (Text × Value N)) :
    MeetsFields R fields (Value.mapFields f members) ↔
      MeetsFields (R.comap f) fields members := by
  cases fields with
  | nil =>
    unfold MeetsFields
    exact Iff.rfl
  | cons g fields =>
    obtain ⟨name, schema, required⟩ := g
    unfold MeetsFields
    refine and_congr ?_ (meetsFields_map fields members)
    rw [lastMember_mapFields, show (R.comap f).name = R.name from rfl]
    cases lastMember (R.name name) members with
    | none => exact Iff.rfl
    | some v => exact meets_map schema v

end

end Comap

section Clear

/-- What is left of a number once it is rounded and cast. -/
def castOf (q : ℚ) : ℤ := (F64.ofRat q).toI64.toInt

/-- The cast of an integral number lies within the bounds just where the number does, and that
of a number with a fraction lies outside of them. -/
def IntegerClear (min max : Option Int64) (q : ℚ) : Prop :=
  if q.den = 1 then InBounds min max (castOf q) ↔ InBounds min max q.num
  else ¬ InBounds min max (castOf q)

def LengthFits (minLen maxLen : Option Nat) (len : Nat) : Prop :=
  (∀ m, minLen = some m → m ≤ len) ∧ ∀ m, maxLen = some m → len ≤ m

/-- The text is an instance of the pattern and no proper beginning of it is one as well, unless
the pattern ends in a star. -/
def Leftmost (pattern t : Text) : Prop :=
  Glob pattern t ∧ (pattern.getLast? = some '*' ∨ ¬BeginsAs pattern t)

/-- Between its quotes a string is as long as the schema has it just where the string that is
meant is, and it is the leftmost instance of the pattern just where that is an instance. -/
def StringClear (minLen maxLen : Option Nat) (pattern : Option String) (raw : Text) : Prop :=
  (LengthFits minLen maxLen (byteLen raw) ↔ LengthFits minLen maxLen (byteLen (decode raw))) ∧
  ∀ p, pattern = some p → (Leftmost p.toList raw ↔ Glob p.toList (decode raw))

mutual

/-- Wherever the schema looks, the cast of a number and the source form of a string tell what
the number and the string do, and no escape stands between a field and its member. -/
def ReadRight : SchemaType → Value ℚ → Prop
  | .nullable inner, v => ReadRight inner v
  | .boolean, _ => True
  | .integer min max, v => ∀ q, v = .number q → IntegerClear min max q
  | .float _ _, _ => True
  | .string minLen maxLen pattern, v => ∀ raw, v = .str raw → StringClear minLen maxLen pattern raw
  | .array itemType _, v => ∀ items, v = .array items → ∀ item ∈ items, ReadRight itemType item
  | .object fields, v => ∀ members, v = .object members → ReadRightFields fields members

def ReadRightFields : List (SchemaField SchemaType) → List (Text × Value ℚ) → Prop
  | [], _ => True
  | ⟨name, schema, _⟩ :: fields, members =>
    (lastMember (· = name.toList) members = lastMember (decode · = name.toList) members ∧
      ∀ v, lastMember (decode · = name.toList) members = some v → ReadRight schema v) ∧
    ReadRightFields fields members

end

/-- The text is a JSON value that is read right, or the parser finds no value at its start. -/
def Clear (t : Text) (s : SchemaType) : Prop :=
  (∃ v, rfc8259.IsText t v ∧ ReadRight s v) ∨ ∀ r, ¬ Reads parseF64 t r

/-- The text is a JSON value that is as the schema is documented. -/
def Conforms (t : Text) (s : SchemaType) : Prop :=
  ∃ v, rfc8259.IsText t v ∧ Meets asMeant s v

def PlainNames (t : Text) : Prop :=
  ∀ v, rfc8259.IsText t v → v.EveryName fun name => '\\' ∉ name

end Clear

/-- How `validate_value` takes the numbers of JSON, which are rounded before. -/
def asRounded : Reading ℚ := asRead.comap F64.ofRat

section Leaves

variable {min max : Option Int64} {minLen maxLen : Option Nat} {pattern : Option String} {q : ℚ}
  {raw : Text}

theorem asMeant_integer_iff : asMeant.integer min max q ↔ q.den = 1 ∧ InBounds min max q.num := by
  constructor
  · rintro ⟨z, rfl, hz⟩
    exact ⟨Rat.den_intCast z, hz⟩
  · rintro ⟨hden, hq⟩
    exact ⟨q.num, ((Rat.den_eq_one_iff q).mp hden).symm, hq⟩

theorem integerClear_iff :
    IntegerClear min max q ↔ (asRounded.integer min max q ↔ asMeant.integer min max q) := by
  rw [asMeant_integer_iff]
  change _ ↔ (InBounds min max (castOf q) ↔ _)
  unfold IntegerClear
  split
  · rename_i hden
    simp [hden]
  · rename_i hden
    simp [hden]

theorem wildcardMatch_iff_leftmost {p t : Text} : wildcardMatch p t = true ↔ Leftmost p t :=
  ⟨fun h => ⟨glob_of_wildcardMatch h,
    (wildcardMatch_iff_not_beginsAs (glob_of_wildcardMatch h)).mp h⟩,
    fun h => (wildcardMatch_iff_not_beginsAs h.1).mpr h.2⟩

theorem string_iff_of_clear (h : StringClear minLen maxLen pattern raw) :
    asRounded.string minLen maxLen pattern raw ↔ asMeant.string minLen maxLen pattern raw := by
  obtain ⟨hlen, hpattern⟩ := h
  change Fits minLen maxLen pattern (byteLen raw) (fun p => wildcardMatch p raw = true) ↔
    Fits minLen maxLen pattern (byteLen (decode raw)) fun p => Glob p (decode raw)
  unfold Fits
  rw [← and_assoc, ← and_assoc]
  exact and_congr hlen (forall₂_congr fun p hp => wildcardMatch_iff_leftmost.trans (hpattern p hp))

/-- A string that passes both ways is clear. -/
theorem stringClear_of_both (h : asRounded.string minLen maxLen pattern raw)
    (h' : asMeant.string minLen maxLen pattern raw) : StringClear minLen maxLen pattern raw :=
  ⟨iff_of_true ⟨h.1, h.2.1⟩ ⟨h'.1, h'.2.1⟩,
    fun p hp => iff_of_true (wildcardMatch_iff_leftmost.mp (h.2.2 p hp)) (h'.2.2 p hp)⟩

end Leaves

section ReadRight

theorem lastMember_congr {V : Type} {is is' : Text → Bool} {members : List (Text × V)}
    (h : ∀ m ∈ members, is m.1 = is' m.1) : lastMember is members = lastMember is' members := by
  unfold lastMember
  rw [List.find?_congr fun m hm => h m (List.mem_reverse.mp hm)]

theorem mem_of_lastMember {V : Type} {is : Text → Bool} {members : List (Text × V)} {v : V}
    (h : lastMember is members = some v) : ∃ k, (k, v) ∈ members := by
  obtain ⟨m, hm, rfl⟩ := Option.map_eq_some_iff.mp h
  exact ⟨m.1, List.mem_reverse.mp (List.mem_of_find?_eq_some hm)⟩

/-- Among names without escapes a field has the same member either way. -/
theorem lastMember_of_plain {V : Type} {members : List (Text × V)} (name : Text)
    (h : ∀ m ∈ members, '\\' ∉ m.1) :
    lastMember (· = name) members = lastMember (decode · = name) members :=
  lastMember_congr fun m hm => by rw [decode_of_plain (h m hm)]

mutual

/-- A value that is read right is refused or accepted for what it is. -/
theorem meets_iff_of_readRight (s : SchemaType) (v : Value ℚ) (h : ReadRight s v) :
    Meets asRounded s v ↔ Meets asMeant s v := by
  cases s with
  | nullable inner =>
    unfold Meets
    unfold ReadRight at h
    exact or_congr_right (meets_iff_of_readRight inner v h)
  | boolean =>
    unfold Meets
    exact Iff.rfl
  | integer min max =>
    unfold Meets
    unfold ReadRight at h
    exact exists_congr fun q => and_congr_right fun hv => integerClear_iff.mp (h q hv)
  | float min max =>
    unfold Meets
    exact Iff.rfl
  | string minLen maxLen pattern =>
    unfold Meets
    unfold ReadRight at h
    exact exists_congr fun raw => and_congr_right fun hv => string_iff_of_clear (h raw hv)
  | array itemType maxItems =>
    unfold Meets
    unfold ReadRight at h
    refine exists_congr fun items => and_congr_right fun hv => and_congr_right fun _ => ?_
    exact forall₂_congr fun item hi => meets_iff_of_readRight itemType item (h items hv item hi)
  | object fields =>
    unfold Meets
    unfold ReadRight at h
    refine exists_congr fun members => and_congr_right fun hv => ?_
    exact meetsFields_iff_of_readRight fields members (h members hv)

theorem meetsFields_iff_of_readRight (fields : List (SchemaField SchemaType))
    (members : List (Text × Value ℚ)) (h : ReadRightFields fields members) :
    MeetsFields asRounded fields members ↔ MeetsFields asMeant fields members := by
  cases fields with
  | nil =>
    unfold MeetsFields
    exact Iff.rfl
  | cons f fields =>
    obtain ⟨name, schema, required⟩ := f
    unfold ReadRightFields at h
    obtain ⟨⟨hsame, hright⟩, hrest⟩ := h
    unfold MeetsFields
    refine and_congr ?_ (meetsFields_iff_of_readRight fields members hrest)
    have hraw : lastMember (asRounded.name name) members =
        lastMember (asMeant.name name) members := hsame
    rw [hraw]
    cases hl : lastMember (asMeant.name name) members with
    | none => exact Iff.rfl
    | some v => exact meets_iff_of_readRight schema v (hright v hl)

end

theorem readRight_null : (s : SchemaType) → ReadRight s .null
  | .nullable inner => by
    unfold ReadRight
    exact readRight_null inner
  | .boolean | .float _ _ => by
    unfold ReadRight
    exact trivial
  | .integer _ _ | .string _ _ _ | .array _ _ | .object _ => by
    unfold ReadRight
    exact fun _ h => nomatch h

mutual

/-- A value that passes both ways, and has no name with an escape, is read right. -/
theorem readRight_of_meets (s : SchemaType) (v : Value ℚ)
    (hn : v.EveryName fun name => '\\' ∉ name) (h : Meets asRounded s v) (h' : Meets asMeant s v) :
    ReadRight s v := by
  cases s with
  | nullable inner =>
    unfold Meets at h h'
    unfold ReadRight
    rcases h with rfl | h
    · exact readRight_null inner
    rcases h' with rfl | h'
    · exact readRight_null inner
    exact readRight_of_meets inner v hn h h'
  | boolean =>
    unfold ReadRight
    exact trivial
  | integer min max =>
    unfold Meets at h h'
    unfold ReadRight
    obtain ⟨q, rfl, hq⟩ := h
    obtain ⟨q', hv, hq'⟩ := h'
    intro r hr
    obtain rfl := Value.number.inj hr
    obtain rfl := Value.number.inj hv
    exact integerClear_iff.mpr (iff_of_true hq hq')
  | float min max =>
    unfold ReadRight
    exact trivial
  | string minLen maxLen pattern =>
    unfold Meets at h h'
    unfold ReadRight
    obtain ⟨raw, rfl, hraw⟩ := h
    obtain ⟨raw', hv, hraw'⟩ := h'
    intro r hr
    obtain rfl := Value.str.inj hr
    obtain rfl := Value.str.inj hv
    exact stringClear_of_both hraw hraw'
  | array itemType maxItems =>
    unfold Meets at h h'
    unfold ReadRight
    obtain ⟨items, rfl, -, hall⟩ := h
    obtain ⟨items', hv, -, hall'⟩ := h'
    intro xs hxs item hi
    obtain rfl := Value.array.inj hxs
    obtain rfl := Value.array.inj hv
    exact readRight_of_meets itemType item (Value.everyNameItems_iff.mp hn item hi) (hall item hi)
      (hall' item hi)
  | object fields =>
    unfold Meets at h h'
    unfold ReadRight
    obtain ⟨members, rfl, hall⟩ := h
    obtain ⟨members', hv, hall'⟩ := h'
    intro ms hms
    obtain rfl := Value.object.inj hms
    obtain rfl := Value.object.inj hv
    exact readRightFields_of_meets fields members (Value.everyNameFields_iff.mp hn) hall hall'

theorem readRightFields_of_meets (fields : List (SchemaField SchemaType))
    (members : List (Text × Value ℚ))
    (hn : ∀ m ∈ members, '\\' ∉ m.1 ∧ m.2.EveryName fun name => '\\' ∉ name)
    (h : MeetsFields asRounded fields members) (h' : MeetsFields asMeant fields members) :
    ReadRightFields fields members := by
  cases fields with
  | nil =>
    unfold ReadRightFields
    exact trivial
  | cons f fields =>
    obtain ⟨name, schema, required⟩ := f
    have hsame := lastMember_of_plain name.toList fun m hm => (hn m hm).1
    unfold MeetsFields at h h'
    unfold ReadRightFields
    refine ⟨⟨hsame, fun v hl => ?_⟩, readRightFields_of_meets fields members hn h.2 h'.2⟩
    obtain ⟨k, hk⟩ := mem_of_lastMember hl
    have hraw : lastMember (asRounded.name name) members = some v := hsame.trans hl
    have hmeant : lastMember (asMeant.name name) members = some v := hl
    have hv := h.1
    have hv' := h'.1
    rw [hraw] at hv
    rw [hmeant] at hv'
    exact readRight_of_meets schema v (hn _ hk).2 hv hv'

end

end ReadRight

section Exact

variable {t : Text} {s : SchemaType} {v v' : Value ℚ}

/-- A text writes one value at most. -/
theorem isText_unique (h : rfc8259.IsText t v) (h' : rfc8259.IsText t v') : v = v' := by
  obtain ⟨w, text, w', rfl, hw, hw', ht⟩ := h
  obtain ⟨u, text', u', heq, hu, hu', ht'⟩ := h'
  have hone := parseWith_rendered (f := id) parseDecimal_text hw ht hw'
  have htwo := parseWith_rendered (f := id) parseDecimal_text hu ht' hu'
  rw [heq, htwo, Value.map_id, Value.map_id] at hone
  exact (congrArg Prod.fst (Option.some.inj hone)).symm

theorem conforms_iff (h : rfc8259.IsText t v) : Conforms t s ↔ Meets asMeant s v := by
  constructor
  · rintro ⟨v', hv', hm⟩
    rwa [isText_unique h hv']
  · exact fun hm => ⟨v, h, hm⟩

theorem not_conforms_of_not_reads (h : ∀ r, ¬ Reads parseF64 t r) : ¬ Conforms t s := by
  rintro ⟨v, ⟨w, text, w', rfl, hw, hw', ht⟩, -⟩
  exact h _ (parseWith_eq_some_iff.mp (parseJson_rendered hw ht hw'))

variable [FloatDisplay]

theorem validateJson_eq_ok_iff :
    validateJson t s = .ok () ↔ ∃ r, parseJson t = some r ∧ Meets asRead s r.1 := by
  unfold validateJson
  cases hp : parseJson t with
  | none => simp
  | some r =>
    simp only [Option.some.injEq, exists_eq_left', ← validateValue_eq_nil s r.1 "$"]
    split
    · rename_i h
      exact iff_of_true rfl h
    · rename_i h
      exact iff_of_false (fun he => nomatch he) h

theorem validateJson_of_isText (h : rfc8259.IsText t v) :
    validateJson t s = .ok () ↔ Meets asRounded s v := by
  obtain ⟨w, text, w', rfl, hw, hw', ht⟩ := h
  rw [validateJson_eq_ok_iff, parseJson_rendered hw ht hw', asRounded, ← meets_map]
  simp

/-- Where the parser finds nothing there is no JSON value. -/
theorem not_ok_of_not_reads (h : ∀ r, ¬ Reads parseF64 t r) : ¬ validateJson t s = .ok () := by
  rw [validateJson_eq_ok_iff]
  rintro ⟨r, hr, -⟩
  exact h r (parseWith_eq_some_iff.mp hr)

/-- Where the text is clear, validation accepts it just if it is a JSON value that conforms to the
schema; and of the texts that are accepted or conform, with no escapes in their names, it is right
about no others. -/
theorem exact_where_clear (t : Text) (s : SchemaType) :
    (Clear t s → (validateJson t s = .ok () ↔ Conforms t s)) ∧
    (PlainNames t → validateJson t s = .ok () ∨ Conforms t s →
      (validateJson t s = .ok () ↔ Conforms t s) → Clear t s) := by
  constructor
  · rintro (⟨v, hv, hright⟩ | hnone)
    · rw [validateJson_of_isText hv, conforms_iff hv]
      exact meets_iff_of_readRight s v hright
    · exact iff_of_false (not_ok_of_not_reads hnone) (not_conforms_of_not_reads hnone)
  · intro hnames hsome hexact
    have hok : validateJson t s = .ok () := hsome.elim id hexact.mpr
    obtain ⟨v, hv, hm⟩ := hexact.mp hok
    exact .inl ⟨v, hv,
      readRight_of_meets s v (hnames v hv) ((validateJson_of_isText hv).mp hok) hm⟩

end Exact

/-- `1.5`. -/
def oneAndAHalf : NumberLiteral := { minusFifteen with negative := false, exp := none }

/-- Cut to one, a number with a fraction is accepted for an integer of at most one. -/
theorem fraction_accepted : ¬ ∀ _ : FloatDisplay,
    (validateJson "1.5".toList (.integer none (some 1)) = .ok () ↔
      Conforms "1.5".toList (.integer none (some 1))) := by
  intro hall
  let _ : FloatDisplay := ⟨fun _ => ""⟩
  have htext : "1.5".toList = oneAndAHalf.text := by decide +kernel
  have hvalue : oneAndAHalf.value = 3 / 2 := by decide +kernel
  have hjson : rfc8259.IsText oneAndAHalf.text (.number oneAndAHalf.value) :=
    ⟨[], oneAndAHalf.text, [], by simp, by decide, by decide, .number ⟨oneAndAHalf, rfl, rfl⟩⟩
  have hread : Meets asRounded (.integer none (some 1)) (.number oneAndAHalf.value) := by
    refine ⟨_, rfl, (fun _ h => nomatch h), ?_⟩
    rintro hi ⟨⟩
    rw [hvalue]
    decide +kernel
  have hall := hall ‹_›
  rw [htext, validateJson_of_isText hjson, conforms_iff hjson] at hall
  obtain ⟨q, hq, hint⟩ := hall.mp hread
  obtain rfl := Value.number.inj hq
  rw [hvalue] at hint
  exact absurd (asMeant_integer_iff.mp hint).1 (by decide +kernel)

mutual

/-- The patterns a schema matches strings with. -/
def patterns : SchemaType → List String
  | .string _ _ pattern => pattern.toList
  | .integer _ _ => []
  | .float _ _ => []
  | .boolean => []
  | .array itemType _ => patterns itemType
  | .object fields => fieldPatterns fields
  | .nullable inner => patterns inner

def fieldPatterns : List (SchemaField SchemaType) → List String
  | [] => []
  | ⟨_, schema, _⟩ :: fields => patterns schema ++ fieldPatterns fields

end

/-- Every number is an integer that needs no rounding, and no string has an escape. -/
def Plain (v : Value ℚ) : Prop :=
  v.Every (fun q : ℚ => ∃ z : ℤ, q = z ∧ |z| < 2 ^ 53) fun raw => '\\' ∉ raw

/-- A pattern with no star, or with one at its end. -/
def EndsOpen (p : String) : Prop := '*' ∉ p.toList ∨ p.toList.getLast? = some '*'

section Plain

variable {min max : Option Int64} {minLen maxLen : Option Nat} {pattern : Option String}

theorem integerClear_of_small {z : ℤ} (h : |z| < 2 ^ 53) : IntegerClear min max z := by
  have hcast : castOf z = z := by
    rw [castOf, F64.ofRat_intCast h, F64.toInt_toI64_intCast h]
  rw [IntegerClear, if_pos (Rat.den_intCast z), hcast, Rat.num_intCast]

theorem stringClear_of_plain {raw : Text} (h : '\\' ∉ raw) (hp : ∀ p ∈ pattern, EndsOpen p) :
    StringClear minLen maxLen pattern raw := by
  rw [StringClear, decode_of_plain h]
  exact ⟨Iff.rfl, fun p hpat => wildcardMatch_iff_leftmost.symm.trans
    (wildcardMatch_iff_glob (hp p hpat))⟩

mutual

theorem readRight_of_plain (s : SchemaType) (v : Value ℚ) (hv : Plain v)
    (hs : ∀ p ∈ patterns s, EndsOpen p) : ReadRight s v := by
  cases s with
  | nullable inner =>
    unfold ReadRight
    exact readRight_of_plain inner v hv hs
  | boolean =>
    unfold ReadRight
    exact trivial
  | integer min max =>
    unfold ReadRight
    rintro n rfl
    obtain ⟨z, rfl, hz⟩ := hv
    exact integerClear_of_small hz
  | float min max =>
    unfold ReadRight
    exact trivial
  | string minLen maxLen pattern =>
    unfold ReadRight
    rintro raw rfl
    exact stringClear_of_plain hv fun p hp => hs p (Option.mem_toList.mpr hp)
  | array itemType maxItems =>
    unfold ReadRight
    rintro items rfl item hi
    exact readRight_of_plain itemType item (Value.everyItem_iff.mp hv item hi) hs
  | object fields =>
    unfold ReadRight
    rintro members rfl
    exact readRightFields_of_plain fields members (Value.everyField_iff.mp hv) hs

theorem readRightFields_of_plain (fields : List (SchemaField SchemaType))
    (members : List (Text × Value ℚ)) (hm : ∀ m ∈ members, '\\' ∉ m.1 ∧ Plain m.2)
    (hs : ∀ p ∈ fieldPatterns fields, EndsOpen p) : ReadRightFields fields members := by
  cases fields with
  | nil =>
    unfold ReadRightFields
    exact trivial
  | cons f fields =>
    obtain ⟨name, schema, required⟩ := f
    obtain ⟨hschema, hfields⟩ := List.forall_mem_append.mp hs
    unfold ReadRightFields
    refine ⟨⟨lastMember_of_plain name.toList fun m hmem => (hm m hmem).1, fun v hl => ?_⟩,
      readRightFields_of_plain fields members hm hfields⟩
    obtain ⟨k, hk⟩ := mem_of_lastMember hl
    exact readRight_of_plain schema v (hm _ hk).2 hschema

end

end Plain

/-- A plain JSON value is clear under every schema whose patterns end open. -/
theorem clear_of_plain {t : Text} {s : SchemaType} {v : Value ℚ} (ht : rfc8259.IsText t v)
    (hv : Plain v) (hs : ∀ p ∈ patterns s, EndsOpen p) : Clear t s :=
  .inl ⟨v, ht, readRight_of_plain s v hv hs⟩

end HelixRouter.RequestValidation
