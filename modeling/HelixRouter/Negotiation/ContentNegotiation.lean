import HelixRouter.Containers.SortBy
import HelixRouter.RequestValidation.ParseJson
import Mathlib.Data.List.AList
import Mathlib.Data.List.DropRight

namespace HelixRouter.Negotiation

open Texts Floats RequestValidation

/-- The lower case of a text. No other text than a star has it for its lower case. -/
class Lowercase where
  toLowercase : Text → Text
  eq_star : ∀ t, toLowercase t = ['*'] ↔ t = ['*']

export Lowercase (toLowercase)

theorem toLower_eq_star_iff (c : Char) : c.toLower = '*' ↔ c = '*' := by
  unfold Char.toLower
  split
  · rename_i hupper
    obtain ⟨hlow, hhigh⟩ := hupper
    have hval : ∀ d : Char, d = '*' ↔ d.val.toNat = 42 := fun d =>
      ⟨fun h => by rw [h]; rfl, fun h => Char.ext (UInt32.toNat_inj.mp h)⟩
    have hl : 65 ≤ c.val.toNat := UInt32.le_iff_toNat_le.mp hlow
    have hh : c.val.toNat ≤ 90 := UInt32.le_iff_toNat_le.mp hhigh
    have hsum : (c.val + ('a'.val - 'A'.val)).toNat = c.val.toNat + 32 := by
      rw [UInt32.toNat_add]
      change (c.val.toNat + 32) % 2 ^ 32 = _
      omega
    rw [hval, hval]
    dsimp only
    omega
  · rfl

/-- The lower case where only ASCII has one. -/
@[reducible] def asciiLowercase : Lowercase where
  toLowercase t := t.map Char.toLower
  eq_star t := by
    cases t with
    | nil => simp
    | cons c t => simp [toLower_eq_star_iff]

def trim (s : Text) : Text := (trimStart s).rdropWhile isWhitespace

def trimMatches (c : Char) (s : Text) : Text := (s.dropWhile (· = c)).rdropWhile (· = c)

/-- The text up to the first place of a character, and what follows it there. -/
def splitFirst (c : Char) : Text → Text × Option Text
  | [] => ([], none)
  | d :: s => if d = c then ([], some s) else (d :: (splitFirst c s).1, (splitFirst c s).2)

/-- `str::parse::<f64>`, with the names that are no decimals. -/
def parseFloat (s : Text) : Option F64 :=
  let (negative, digits) := takeSign s
  let name := digits.map Char.toLower
  if name = "inf".toList ∨ name = "infinity".toList then some (.infinite negative)
  else if name = "nan".toList then some .nan
  else parseF64 s

/-- How entries are compared when those of the highest quality are sorted first. -/
def below {α : Type} (a b : α × F64) : Bool := a.2.lt b.2

structure MediaType where
  type_ : Text
  subtype : Text
  params : AList fun _ : Text => Text

namespace MediaType

def quality (m : MediaType) : F64 :=
  (((m.params.lookup ['q']).bind parseFloat).getD (.finite 1)).clamp (.finite 0) (.finite 1)

/-- `self.matches(pattern)`, where either part of the pattern can be a star. -/
def fits (m pattern : MediaType) : Bool :=
  (pattern.type_ = ['*'] || pattern.type_ = m.type_) &&
    (pattern.subtype = ['*'] || pattern.subtype = m.subtype)

variable [Lowercase]

def insertParam (params : AList fun _ : Text => Text) (param : Text) :
    AList fun _ : Text => Text :=
  match splitFirst '=' (trim param) with
  | (_, none) => params
  | (key, some val) => params.insert (toLowercase (trim key)) (trimMatches '"' (trim val))

def parse (s : Text) : Option MediaType :=
  let (mime, paramStr) := splitFirst ';' s
  let (type_, subtype) := splitFirst '/' (trim mime)
  subtype.map fun subtype =>
    { type_ := toLowercase (trim type_)
      subtype := toLowercase (trim subtype)
      params := ((paramStr.map (·.splitOn ';')).getD []).foldl insertParam ∅ }

end MediaType

structure AcceptHeader where
  types : List (MediaType × F64)

namespace AcceptHeader

section Parse

variable [Lowercase]

def entries (header : Text) : List (MediaType × F64) :=
  (header.splitOn ',').filterMap fun s =>
    (MediaType.parse (trim s)).map fun m => (m, m.quality)

def parse (sorting : List.SortBy (below (α := MediaType))) (header : Text) : AcceptHeader :=
  ⟨sorting.sort (entries header)⟩

end Parse

def preferred (h : AcceptHeader) (available : List MediaType) : Option MediaType :=
  h.types.findSome? fun accepted => available.find? (·.fits accepted.1)

def accepts (h : AcceptHeader) (m : MediaType) : Bool :=
  h.types.any fun accepted => (F64.finite 0).lt accepted.2 && m.fits accepted.1

end AcceptHeader

inductive ContentEncoding where
  | identity
  | gzip
  | deflate
  | br
  | zstd
  deriving DecidableEq

def ContentEncoding.name : ContentEncoding → Text
  | identity => "identity".toList
  | gzip => "gzip".toList
  | deflate => "deflate".toList
  | br => "br".toList
  | zstd => "zstd".toList

namespace EncodingNegotiator

/-- The quality that a parameter writes. -/
def qValue (qPart : Text) : F64 :=
  match qPart with
  | 'q' :: '=' :: v => (parseFloat v).getD (.finite 1)
  | _ => .finite 1

/-- The name and the quality of a part of the header, as both functions read them. -/
def readPart (part : Text) : Text × F64 :=
  match splitFirst ';' (trim part) with
  | (name, some qPart) => (trim name, qValue (trim qPart))
  | (name, none) => (name, .finite 1)

/-- The name stands for an encoding, or for every one. -/
def names (name : Text) (enc : ContentEncoding) : Bool := name = ['*'] || name = enc.name

variable [Lowercase]

def accepted (acceptEncoding : Text) : List (Text × F64) :=
  (acceptEncoding.splitOn ',').map fun s => (toLowercase (readPart s).1, (readPart s).2)

def negotiate (sorting : List.SortBy (below (α := Text))) (acceptEncoding : Text)
    (available : List ContentEncoding) : ContentEncoding :=
  ((sorting.sort (accepted acceptEncoding)).findSome? fun entry =>
    if entry.2.le (.finite 0) then none else available.find? (names entry.1)).getD .identity

def supportedByClient (header : Text) (encoding : ContentEncoding) : Bool :=
  (header.splitOn ',').any fun part =>
    ((readPart part).1 = ['*'] || toLowercase (readPart part).1 = encoding.name) &&
      (F64.finite 0).lt (readPart part).2

end EncodingNegotiator

section Order

variable {α : Type} {l : List (α × F64)}

theorem ranked_of_ne_nan (h : ∀ e ∈ l, e.2 ≠ .nan) : l.Ranked below := by
  intro a _ b _ hab
  exact ⟨F64.lt_asymm hab, fun c hc => F64.lt_or_lt_of_lt hab (h c hc)⟩

end Order

namespace AcceptHeader

variable {available : List MediaType} {types : List (MediaType × F64)} {h : AcceptHeader}
  {e : MediaType × F64} {m : MediaType}

/-- One of the available types matches the entry. -/
def meets (available : List MediaType) (e : MediaType × F64) : Bool := available.any (·.fits e.1)

/-- The entry at which the search for a preferred type ends. -/
def selecting (h : AcceptHeader) (available : List MediaType) : Option (MediaType × F64) :=
  h.types.find? (meets available)

/-- What a negotiation promises: only an accepted type is preferred, some type is if one is
accepted, and none of the available types is matched by an entry of a higher quality than
the one that selects. -/
structure Sound (h : AcceptHeader) (available : List MediaType) : Prop where
  accepted : ∀ m, h.preferred available = some m → h.accepts m = true
  exhaustive : h.preferred available = none → ∀ m ∈ available, h.accepts m = false
  highest : ∀ e, h.selecting available = some e →
    ∀ m ∈ available, ∀ e' ∈ h.types, m.fits e'.1 = true → e.2.lt e'.2 = false

/-- Each entry that may come first among those that match an available type: the first type
that it matches is matched by an entry of a positive quality, and of the entries that match
an available type none is above it. -/
def LeadsWell (available : List MediaType) (types : List (MediaType × F64)) : Prop :=
  ∀ e, types.MayLead below (meets available) e →
    (∃ m, available.find? (·.fits e.1) = some m ∧
      ∃ e' ∈ types, (F64.finite 0).lt e'.2 = true ∧ m.fits e'.1 = true) ∧
    ∀ e' ∈ types, meets available e' = true → e.2.lt e'.2 = false

theorem meets_iff : meets available e = true ↔ ∃ m ∈ available, m.fits e.1 = true :=
  List.any_eq_true

theorem accepts_iff : h.accepts m = true ↔
    ∃ e ∈ h.types, (F64.finite 0).lt e.2 = true ∧ m.fits e.1 = true := by
  simp [accepts, List.any_eq_true]

theorem find?_fits_eq_none (hm : meets available e = false) :
    available.find? (·.fits e.1) = none := by
  rw [List.find?_eq_none]
  intro m hmem hfits
  exact absurd (meets_iff.mpr ⟨m, hmem, hfits⟩) (by simp [hm])

theorem exists_find?_fits (hm : meets available e = true) :
    ∃ m, available.find? (·.fits e.1) = some m := by
  obtain ⟨m, hmem, hfits⟩ := meets_iff.mp hm
  exact Option.isSome_iff_exists.mp (List.find?_isSome.mpr ⟨m, hmem, hfits⟩)

/-- The preferred type is the first one that the selecting entry matches. -/
theorem preferred_eq : h.preferred available =
    (h.selecting available).bind fun e => available.find? (·.fits e.1) := by
  unfold preferred selecting
  induction h.types with
  | nil => rfl
  | cons e types ih =>
    rw [List.findSome?_cons, List.find?_cons]
    cases hm : meets available e with
    | false => rw [find?_fits_eq_none hm, ih]
    | true =>
      obtain ⟨m, hfind⟩ := exists_find?_fits hm
      rw [hfind]
      exact hfind.symm

/-- The promise, by the entry that selects. -/
theorem sound_iff : h.Sound available ↔ ∀ e, h.selecting available = some e →
    (∃ m, available.find? (·.fits e.1) = some m ∧ h.accepts m = true) ∧
      ∀ e' ∈ h.types, meets available e' = true → e.2.lt e'.2 = false := by
  constructor
  · intro hs e he
    have hm : meets available e = true := List.find?_some he
    obtain ⟨m, hfind⟩ := exists_find?_fits hm
    refine ⟨⟨m, hfind, hs.accepted m ?_⟩, fun e' he' hmeets => ?_⟩
    · rw [preferred_eq, he]
      exact hfind
    · obtain ⟨c, hc, hfits⟩ := meets_iff.mp hmeets
      exact hs.highest e he c hc e' he' hfits
  · intro hall
    refine ⟨fun m hpref => ?_, fun hnone m hm => ?_, fun e he m hm e' he' hfits => ?_⟩
    · rw [preferred_eq] at hpref
      obtain ⟨e, he, hfind⟩ := Option.bind_eq_some_iff.mp hpref
      obtain ⟨m', hfind', hacc⟩ := (hall e he).1
      rw [hfind] at hfind'
      exact Option.some.inj hfind' ▸ hacc
    · cases hsel : h.selecting available with
      | none =>
        rw [Bool.eq_false_iff]
        intro hacc
        obtain ⟨e, he, -, hfits⟩ := accepts_iff.mp hacc
        exact List.find?_eq_none.mp hsel e he (meets_iff.mpr ⟨m, hm, hfits⟩)
      | some e =>
        obtain ⟨m', hfind, -⟩ := (hall e hsel).1
        rw [preferred_eq, hsel, Option.bind_some, hfind] at hnone
        cases hnone
    · exact (hall e he).2 e' he' (meets_iff.mpr ⟨m, hm, hfits⟩)

/-- Where all qualities are numbers: some available type is accepted, or none is mentioned. -/
theorem leadsWell_iff_of_ne_nan (hnum : ∀ e ∈ types, e.2 ≠ .nan) :
    LeadsWell available types ↔
      (∃ m ∈ available, ∃ e ∈ types, (F64.finite 0).lt e.2 = true ∧ m.fits e.1 = true) ∨
        ∀ e ∈ types, meets available e = false := by
  have hrank := ranked_of_ne_nan hnum
  constructor
  · intro hlead
    cases htop : (types.filter (meets available)).topmost below with
    | none =>
      refine Or.inr fun e he => ?_
      have hempty := List.filter_eq_nil_iff.mp (List.topmost_eq_none_iff.mp htop) e he
      simpa using hempty
    | some e =>
      obtain ⟨he, hmeets⟩ := List.mem_filter.mp (List.mem_of_topmost htop)
      obtain ⟨m, hfind, hacc⟩ := (hlead e ⟨fun _ => htop, he, hmeets⟩).1
      exact Or.inl ⟨m, List.mem_of_find?_eq_some hfind, hacc⟩
  · intro hcond e hlead
    obtain ⟨hfirst, he, hmeets⟩ := hlead
    have htop : ∀ e' ∈ types, meets available e' = true → e.2.lt e'.2 = false := by
      intro e' he' hmeets'
      refine List.not_lt_of_topmost (hrank.subset (List.filter_subset_self _)) (hfirst hrank) e' ?_
      exact List.mem_filter.mpr ⟨he', hmeets'⟩
    obtain ⟨m, hfind⟩ := exists_find?_fits hmeets
    refine ⟨⟨m, hfind, e, he, ?_, ?_⟩, htop⟩
    · rcases hcond with haccepted | hnone
      · obtain ⟨c, hc, e', he', hpos, hfits⟩ := haccepted
        rcases F64.lt_or_lt_of_lt hpos (hnum e he) with h | h
        · exact h
        · exact absurd h (by simp [htop e' he' (meets_iff.mpr ⟨c, hc, hfits⟩)])
      · exact absurd hmeets (by simp [hnone e he])
    · exact List.find?_some (p := fun c : MediaType => c.fits e.1) hfind

section Parse

variable [Lowercase]

theorem accepts_parse_iff {sorting : List.SortBy (below (α := MediaType))} {header : Text} :
    (parse sorting header).accepts m = true ↔
      ∃ e ∈ entries header, (F64.finite 0).lt e.2 = true ∧ m.fits e.1 = true := by
  simp [accepts_iff, parse, (sorting.perm (entries header)).mem_iff]

/-- Whatever the sort does with qualities that are no numbers: the promise is kept exactly
where each entry that may come first leads well. -/
theorem preferred_sound_iff (header : Text) (available : List MediaType) :
    (∀ sorting, (parse sorting header).Sound available) ↔
      LeadsWell available (entries header) := by
  constructor
  · intro hall e hlead
    obtain ⟨sorting, hfind⟩ := List.exists_find?_sort_iff.mpr hlead
    obtain ⟨⟨m, hm, hacc⟩, htop⟩ := sound_iff.mp (hall sorting) e hfind
    refine ⟨⟨m, hm, accepts_parse_iff.mp hacc⟩, fun e' he' => htop e' ?_⟩
    exact (sorting.perm _).mem_iff.mpr he'
  · intro hlead sorting
    refine sound_iff.mpr fun e hsel => ?_
    obtain ⟨⟨m, hm, hacc⟩, htop⟩ := hlead e (List.exists_find?_sort_iff.mp ⟨sorting, hsel⟩)
    refine ⟨⟨m, hm, accepts_parse_iff.mpr hacc⟩, fun e' he' => htop e' ?_⟩
    exact (sorting.perm _).mem_iff.mp he'

end Parse

def textHtml : MediaType := ⟨"text".toList, "html".toList, ∅⟩

/-- A type that the header only refuses is preferred. -/
theorem refused_type_preferred : ¬∀ sorting,
    (@parse asciiLowercase sorting "text/html;q=0".toList).Sound [textHtml] := by
  intro h
  have hacc := (h (List.insertionSortBy below)).accepted textHtml rfl
  exact absurd hacc (by decide +kernel)

end AcceptHeader

end HelixRouter.Negotiation
