import HelixRouter.Router.Kernels
import HelixRouter.Router.Numbers
import Mathlib.Data.List.AList

namespace HelixRouter

/-- The text form of an `f64`: displaying and parsing it back gives the same number. -/
class F64Text where
  display : Float → List Char
  parse : List Char → Option Float
  parse_display : ∀ x, parse (display x) = some x
  comma_not_mem : ∀ x, ',' ∉ display x

def fnvPrime : UInt64 := 1099511628211

/-- FNV-1a, one byte. -/
def fnvStep (hash : UInt64) (byte : UInt8) : UInt64 := (hash ^^^ byte.toUInt64) * fnvPrime

def fnv1a64 (data : List UInt8) : UInt64 := data.foldl fnvStep 14695981039346656037

def toLeBytes (v : UInt64) : List UInt8 :=
  (List.range 8).map (fun i => (v >>> (8 * UInt64.ofNat i)).toUInt8)

/-- The bytes hashed for a job: kind, inputs and cost, without its id. -/
def keyBytes (job : Job) : List UInt8 :=
  job.kind.display.toList.map Char.toUInt8 ++ job.inputs.flatMap toLeBytes ++
    toLeBytes job.computeCost

def jobKey (job : Job) : UInt64 := fnv1a64 (keyBytes job)

/-- The key says nothing of the id, which seeds the Monte-Carlo kernel. -/
theorem jobKey_id (job : Job) (id : UInt64) : jobKey { job with id := id } = jobKey job := rfl

structure CacheConfig where
  maxEntries : Nat := 1024
  ttl : Nat := 300000

/-- Instants are milliseconds of a monotonic clock. -/
structure CacheEntry where
  result : List Char
  computedAt : Nat
  hits : Nat := 0

structure ResultCache where
  config : CacheConfig := {}
  entries : AList (fun _ : UInt64 => CacheEntry) := ∅
  lruOrder : List UInt64 := []
  hits : Nat := 0
  misses : Nat := 0
  evictions : Nat := 0

/-- A key already in the order moves to its back. -/
def promote (key : UInt64) (order : List UInt64) : List UInt64 :=
  if key ∈ order then order.erase key ++ [key] else order

namespace ResultCache

/-- An entry past its time to live is a miss and stays where it is. -/
def get (cache : ResultCache) (job : Job) (now : Nat) : Option (List Char) × ResultCache :=
  let key := jobKey job
  match cache.entries.lookup key with
  | none => (none, { cache with misses := cache.misses + 1 })
  | some entry =>
    if cache.config.ttl < now - entry.computedAt then
      (none, { cache with misses := cache.misses + 1 })
    else
      (some entry.result,
        { cache with
          entries := cache.entries.insert key { entry with hits := entry.hits + 1 }
          lruOrder := promote key cache.lruOrder
          hits := cache.hits + 1 })

/-- Evicts from the front of the order until the cache is under capacity. -/
def evict (cache : ResultCache) : List UInt64 → ResultCache
  | [] => { cache with lruOrder := [] }
  | oldest :: order =>
    if cache.config.maxEntries ≤ cache.entries.entries.length then
      evict { cache with
        entries := cache.entries.erase oldest, evictions := cache.evictions + 1 } order
    else { cache with lruOrder := oldest :: order }

def insert (cache : ResultCache) (job : Job) (result : List Char) (now : Nat) : ResultCache :=
  let key := jobKey job
  match cache.entries.lookup key with
  | some entry =>
    { cache with
      entries := cache.entries.insert key { entry with result := result, computedAt := now }
      lruOrder := promote key cache.lruOrder }
  | none =>
    let cache := cache.evict cache.lruOrder
    { cache with
      entries := cache.entries.insert key { result := result, computedAt := now }
      lruOrder := cache.lruOrder ++ [key] }

def expiredKeys (cache : ResultCache) (now : Nat) : List UInt64 :=
  (cache.entries.entries.filter fun e => decide (cache.config.ttl < now - e.2.computedAt)).map (·.1)

def remove (cache : ResultCache) (key : UInt64) : ResultCache :=
  { cache with
    entries := cache.entries.erase key
    lruOrder := cache.lruOrder.erase key
    evictions := cache.evictions + 1 }

/-- Removes what is past its time to live, and says how many entries that were. -/
def evictExpired (cache : ResultCache) (now : Nat) : Nat × ResultCache :=
  let expired := cache.expiredKeys now
  (expired.length, expired.foldl remove cache)

/-- Every stored text is one the relation allows under its key. -/
def Holds (P : UInt64 → List Char → Prop) (cache : ResultCache) : Prop :=
  ∀ key entry, cache.entries.lookup key = some entry → P key entry.result

variable {P : UInt64 → List Char → Prop} {cache : ResultCache}

theorem holds_of_insert (h : cache.Holds P) (key : UInt64) (entry : CacheEntry)
    (he : P key entry.result) {cache' : ResultCache}
    (hc : cache'.entries = cache.entries.insert key entry) : cache'.Holds P := by
  intro k e hl
  rw [hc] at hl
  by_cases hk : k = key
  · subst hk
    rw [AList.lookup_insert] at hl
    cases hl
    exact he
  · rw [AList.lookup_insert_ne hk] at hl
    exact h k e hl

theorem holds_evict (order : List UInt64) (h : cache.Holds P) : (cache.evict order).Holds P := by
  induction order generalizing cache with
  | nil => exact h
  | cons oldest order ih =>
    unfold evict
    split
    · apply ih
      intro k e hl
      by_cases hk : k = oldest
      · subst hk
        simp at hl
      · exact h k e (by rwa [AList.lookup_erase_ne hk] at hl)
    · exact h

/-- What is inserted can be looked up. -/
theorem exists_lookup_insert (cache : ResultCache) (job : Job) (text : List Char) (now : Nat) :
    ∃ entry, (cache.insert job text now).entries.lookup (jobKey job) = some entry ∧
      entry.result = text := by
  cases hl : cache.entries.lookup (jobKey job) with
  | none =>
    simp only [insert, hl]
    exact ⟨_, AList.lookup_insert _, rfl⟩
  | some entry =>
    simp only [insert, hl]
    exact ⟨_, AList.lookup_insert _, rfl⟩

/-- A hit is a text stored under the key of the job asked for. -/
theorem get_holds (h : cache.Holds P) (job : Job) (now : Nat) :
    (cache.get job now).2.Holds P ∧ ∀ text, (cache.get job now).1 = some text →
      P (jobKey job) text := by
  cases hl : cache.entries.lookup (jobKey job) with
  | none =>
    simp only [get, hl]
    exact ⟨h, by simp⟩
  | some entry =>
    simp only [get, hl]
    split
    · exact ⟨h, by simp⟩
    · refine ⟨holds_of_insert h _ { entry with hits := entry.hits + 1 } (h _ entry hl) rfl, ?_⟩
      intro text ht
      cases ht
      exact h _ entry hl

theorem insert_holds (h : cache.Holds P) (job : Job) (text : List Char) (now : Nat)
    (ht : P (jobKey job) text) : (cache.insert job text now).Holds P := by
  cases hl : cache.entries.lookup (jobKey job) with
  | some entry =>
    simp only [insert, hl]
    exact holds_of_insert h _ { entry with result := text, computedAt := now } ht rfl
  | none =>
    simp only [insert, hl]
    exact holds_of_insert (holds_evict cache.lruOrder h) _ { result := text, computedAt := now } ht
      rfl

end ResultCache

/-- The decimal digits of a word. -/
def displayU64 (v : UInt64) : List Char := Nat.toDigits 10 v.toNat

/-- Parsing takes an optional plus sign and digits, and refuses what overflows. -/
def parseU64 (text : List Char) : Option UInt64 :=
  let digits := match text with
    | '+' :: rest => rest
    | _ => text
  if digits = [] ∨ ¬ digits.all Char.isDigit then none
  else
    let n := Nat.ofDigitChars 10 digits 0
    if n ≤ u64Max then some (UInt64.ofNat n) else none

theorem parseU64_display (v : UInt64) : parseU64 (displayU64 v) = some v := by
  have hd : ∀ c ∈ displayU64 v, c.isDigit := fun c hc =>
    Nat.isDigit_of_mem_toDigits (by decide) (by decide) hc
  have hne : displayU64 v ≠ [] := Nat.toDigits_ne_nil
  have hall : (displayU64 v).all Char.isDigit = true := List.all_eq_true.mpr hd
  have hval : Nat.ofDigitChars 10 (displayU64 v) 0 = v.toNat := Nat.ofDigitChars_ten_toDigits
  unfold parseU64
  split
  · rename_i rest heq
    have := hd '+' (by rw [heq]; simp)
    simp at this
  · simp [hne, hall, hval, toNat_le_u64Max v]

instance decidableCanonical (bits : UInt64) :
    Decidable (Float.Model.Format.binary64.Valid bits.toBitVec) :=
  decidable_of_iff _ ⟨fun h => ⟨h⟩, fun h => h.eq_packedNaN⟩

/-- The number of a bit pattern in canonical form. -/
def floatOfBits (bits : UInt64) : Option Float :=
  if h : Float.Model.Format.binary64.Valid bits.toBitVec then some ⟨⟨bits, h⟩⟩ else none

/-- A text form that can be run: the digits of the bit pattern. -/
instance bitsText : F64Text where
  display x := displayU64 x.toBits
  parse text := (parseU64 text).bind floatOfBits
  parse_display x := by
    rw [parseU64_display]
    exact dif_pos x.toModel.valid
  comma_not_mem x h := by
    have := Nat.isDigit_of_mem_toDigits (by decide) (by decide) h
    simp at this

section Text

variable [F64Text]

def outputToString : Output → List Char
  | .u64 v => 'u' :: '6' :: '4' :: ':' :: displayU64 v
  | .f64 v => 'f' :: '6' :: '4' :: ':' :: F64Text.display v

def outputsToString (outputs : List Output) : List Char :=
  [','].intercalate (outputs.map outputToString)

/-- What `submit` makes of one piece of a cached text. -/
def parseOutput : List Char → Option Output
  | 'u' :: '6' :: '4' :: ':' :: rest => (parseU64 rest).map .u64
  | 'f' :: '6' :: '4' :: ':' :: rest => (F64Text.parse rest).map .f64
  | _ => none

/-- Pieces that do not parse are skipped. -/
def parseOutputs (text : List Char) : List Output :=
  ((text.splitOn ',').filter (fun s => !s.isEmpty)).filterMap parseOutput

theorem comma_not_mem_output (o : Output) : ',' ∉ outputToString o := by
  cases o with
  | u64 v =>
    have : ',' ∉ displayU64 v := fun h => by
      have := Nat.isDigit_of_mem_toDigits (by decide) (by decide) h
      simp at this
    simpa [outputToString] using this
  | f64 v => simpa [outputToString] using F64Text.comma_not_mem v

theorem parseOutput_toString (o : Output) : parseOutput (outputToString o) = some o := by
  cases o with
  | u64 v => simp [outputToString, parseOutput, parseU64_display]
  | f64 v => simp [outputToString, parseOutput, F64Text.parse_display]

/-- Encoding outputs and parsing the text gives the outputs back. -/
theorem parseOutputs_toString (outputs : List Output) (h : outputs ≠ []) :
    parseOutputs (outputsToString outputs) = outputs := by
  have hsplit : (outputsToString outputs).splitOn ',' = outputs.map outputToString := by
    refine List.splitOn_intercalate ',' ?_ (by simpa using h)
    intro l hl
    obtain ⟨o, _, rfl⟩ := List.mem_map.mp hl
    exact comma_not_mem_output o
  have hfilter : (outputs.map outputToString).filter (fun s => !s.isEmpty) =
      outputs.map outputToString := by
    apply List.filter_eq_self.mpr
    intro l hl
    obtain ⟨o, _, rfl⟩ := List.mem_map.mp hl
    cases o <;> rfl
  rw [parseOutputs, hsplit, hfilter, List.filterMap_map]
  have : parseOutput ∘ outputToString = some := funext parseOutput_toString
  rw [this, List.filterMap_some]

end Text

end HelixRouter
