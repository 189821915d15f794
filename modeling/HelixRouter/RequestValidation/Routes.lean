import HelixRouter.Containers.IterationOrder
import HelixRouter.Containers.Retain
import HelixRouter.RequestValidation.Exactness
import HelixRouter.Runs.Answers
import Mathlib.Data.List.AList
import Mathlib.Data.List.Induction

namespace HelixRouter.RequestValidation

open Texts Json Floats

structure SizeLimits where
  maxBodyBytes : Nat
  maxHeaderCount : Nat
  maxHeaderValueLen : Nat
  maxUrlLen : Nat

structure HeaderRequirement where
  name : Text
  required : Bool
  allowedValues : List Text := []

structure RequestValidationConfig where
  sizeLimits : SizeLimits
  requiredHeaders : List HeaderRequirement := []
  bodySchema : Option SchemaType := none
  allowedMethods : List Text := []

structure Request where
  route : Text
  method : Text
  headers : List (Text × Text)
  body : Text

structure ValidationResult where
  valid : Bool
  errors : List String

abbrev Configs := AList (fun _ : Text => RequestValidationConfig)

abbrev ConfigOrder := IterationOrder (Sigma fun _ : Text => RequestValidationConfig)

structure RequestValidator where
  configs : Configs := ∅
  totalValidated : UInt64 := 0
  totalRejected : UInt64 := 0

def eqIgnoreAsciiCase (a b : Text) : Bool := a.map Char.toLower = b.map Char.toLower

def overLimit (what : String) (size limit : Nat) : List String :=
  if limit < size then [what ++ ": " ++ toString size ++ " > " ++ toString limit] else []

section Checks

variable [FloatDisplay] (toLowercase : Text → Text)

/-- Of several headers of a name the last one stays. -/
def headerMap (headers : List (Text × Text)) : AList (fun _ : Text => Text) :=
  headers.foldl (fun map h => map.insert (toLowercase h.1) h.2) ∅

def HeaderRequirement.errors (headers : AList (fun _ : Text => Text))
    (req : HeaderRequirement) : List String :=
  match headers.lookup (toLowercase req.name) with
  | none =>
    if req.required then ["missing required header '" ++ String.ofList req.name ++ "'"] else []
  | some val =>
    if !req.allowedValues.isEmpty && !req.allowedValues.any (· = val) then
      ["header '" ++ String.ofList req.name ++ "' value '" ++ String.ofList val ++
        "' not in allowed list"]
    else []

namespace RequestValidationConfig

variable (cfg : RequestValidationConfig) (r : Request)

def methodErrors : List String :=
  if !cfg.allowedMethods.isEmpty && !cfg.allowedMethods.any (eqIgnoreAsciiCase · r.method) then
    ["method '" ++ String.ofList r.method ++ "' not allowed"]
  else []

def sizeErrors : List String :=
  let limits := cfg.sizeLimits
  overLimit "body too large" (byteLen r.body) limits.maxBodyBytes ++
  overLimit "too many headers" r.headers.length limits.maxHeaderCount ++
  r.headers.flatMap (fun h => overLimit ("header '" ++ String.ofList h.1 ++ "' value too long")
    (byteLen h.2) limits.maxHeaderValueLen) ++
  overLimit "URL too long" (byteLen r.route) limits.maxUrlLen

def headerErrors : List String :=
  let map := headerMap toLowercase r.headers
  cfg.requiredHeaders.flatMap (HeaderRequirement.errors toLowercase map)

def bodyErrors : List String :=
  match cfg.bodySchema with
  | none => []
  | some schema =>
    match validateJson r.body schema with
    | .ok () => []
    | .error errors => errors

def errors : List String :=
  cfg.methodErrors r ++ cfg.sizeErrors r ++ cfg.headerErrors toLowercase r ++ cfg.bodyErrors r

end RequestValidationConfig

/-- Keeps the longer one of the prefixes of a route, and the earlier one of two as long. -/
def longer (route : Text) (best : Option (Sigma fun _ : Text => RequestValidationConfig))
    (entry : Sigma fun _ : Text => RequestValidationConfig) :
    Option (Sigma fun _ : Text => RequestValidationConfig) :=
  if entry.1.isPrefixOf route then
    match best with
    | none => some entry
    | some b => if byteLen b.1 < byteLen entry.1 then some entry else some b
  else best

def findConfig (configs : Configs) (order : ConfigOrder) (route : Text) :
    Option RequestValidationConfig :=
  ((order.arrange configs.entries).foldl (longer route) none).map (·.2)

namespace RequestValidator

variable (s : RequestValidator)

def addConfig (routePrefix : Text) (config : RequestValidationConfig) : RequestValidator :=
  { s with configs := s.configs.insert routePrefix config }

def validate (order : ConfigOrder) (r : Request) : ValidationResult × RequestValidator :=
  let s := { s with totalValidated := s.totalValidated + 1 }
  match findConfig s.configs order r.route with
  | none => (⟨true, []⟩, s)
  | some cfg =>
    let errors := cfg.errors toLowercase r
    let valid := errors.isEmpty
    (⟨valid, errors⟩,
      if valid then s else { s with totalRejected := s.totalRejected + 1 })

def stats : UInt64 × UInt64 := (s.totalValidated, s.totalRejected)

end RequestValidator

/-- The calls of a validator. -/
inductive ValidatorCall where
  | addConfig (routePrefix : Text) (config : RequestValidationConfig)
  | validate (order : ConfigOrder) (r : Request)

def RequestValidator.act (s : RequestValidator) :
    ValidatorCall → Option ValidationResult × RequestValidator
  | .addConfig routePrefix config => (none, s.addConfig routePrefix config)
  | .validate order r => (some (s.validate toLowercase order r).1, (s.validate toLowercase order r).2)

def RequestValidator.after (calls : List ValidatorCall) : RequestValidator :=
  calls.foldl (fun s call => (s.act toLowercase call).2) {}

end Checks

section Admission

variable {toLowercase : Text → Text} {cfg : RequestValidationConfig} {r : Request}

/-- What a header requirement asks of the last header of its name, in whatever case. -/
def HeaderRequirement.Met (toLowercase : Text → Text) (req : HeaderRequirement)
    (headers : List (Text × Text)) : Prop :=
  match lastMember (fun name => toLowercase name = toLowercase req.name) headers with
  | none => req.required = false
  | some val => req.allowedValues = [] ∨ val ∈ req.allowedValues

/-- The request keeps every rule of a configuration. -/
structure RequestValidationConfig.Admits (toLowercase : Text → Text)
    (cfg : RequestValidationConfig) (r : Request) : Prop where
  method : cfg.allowedMethods = [] ∨ ∃ m ∈ cfg.allowedMethods, eqIgnoreAsciiCase m r.method = true
  body : byteLen r.body ≤ cfg.sizeLimits.maxBodyBytes
  count : r.headers.length ≤ cfg.sizeLimits.maxHeaderCount
  values : ∀ h ∈ r.headers, byteLen h.2 ≤ cfg.sizeLimits.maxHeaderValueLen
  route : byteLen r.route ≤ cfg.sizeLimits.maxUrlLen
  headers : ∀ req ∈ cfg.requiredHeaders, req.Met toLowercase r.headers
  schema : ∀ schema, cfg.bodySchema = some schema →
    ∃ read, parseJson r.body = some read ∧ Meets asRead schema read.1

theorem overLimit_eq_nil {what : String} {size limit : Nat} :
    overLimit what size limit = [] ↔ size ≤ limit := by
  simp [overLimit]

theorem lookup_headerMap (headers : List (Text × Text)) (name : Text) :
    (headerMap toLowercase headers).lookup name =
      lastMember (fun other => toLowercase other = name) headers := by
  induction headers using List.reverseRecOn with
  | nil => simp [headerMap, lastMember]
  | append_singleton headers h ih =>
    have hmap : headerMap toLowercase (headers ++ [h]) =
        (headerMap toLowercase headers).insert (toLowercase h.1) h.2 := by
      simp [headerMap]
    rw [hmap]
    by_cases hname : toLowercase h.1 = name
    · subst hname
      simp [lastMember]
    · rw [AList.lookup_insert_ne (Ne.symm hname), ih]
      simp [lastMember, hname]

theorem HeaderRequirement.errors_eq_nil {req : HeaderRequirement} {headers : List (Text × Text)} :
    req.errors toLowercase (headerMap toLowercase headers) = [] ↔
      req.Met toLowercase headers := by
  rw [HeaderRequirement.errors, HeaderRequirement.Met, lookup_headerMap]
  cases lastMember (fun other => toLowercase other = toLowercase req.name) headers with
  | none => simp
  | some val => simp [or_iff_not_imp_left]

namespace RequestValidationConfig

theorem methodErrors_eq_nil : cfg.methodErrors r = [] ↔
    cfg.allowedMethods = [] ∨ ∃ m ∈ cfg.allowedMethods, eqIgnoreAsciiCase m r.method = true := by
  simp [methodErrors, or_iff_not_imp_left]

theorem sizeErrors_eq_nil : cfg.sizeErrors r = [] ↔
    byteLen r.body ≤ cfg.sizeLimits.maxBodyBytes ∧
      r.headers.length ≤ cfg.sizeLimits.maxHeaderCount ∧
      (∀ h ∈ r.headers, byteLen h.2 ≤ cfg.sizeLimits.maxHeaderValueLen) ∧
      byteLen r.route ≤ cfg.sizeLimits.maxUrlLen := by
  simp only [sizeErrors, List.append_eq_nil_iff, overLimit_eq_nil, List.flatMap_eq_nil_iff,
    and_assoc]

theorem headerErrors_eq_nil : cfg.headerErrors toLowercase r = [] ↔
    ∀ req ∈ cfg.requiredHeaders, req.Met toLowercase r.headers := by
  simp only [headerErrors, List.flatMap_eq_nil_iff, HeaderRequirement.errors_eq_nil]

variable [FloatDisplay]

theorem validateJson_error_ne_nil {t : Text} {schema : SchemaType} {errors : List String}
    (h : validateJson t schema = .error errors) : errors ≠ [] := by
  unfold validateJson at h
  split at h
  · dsimp only at h
    split at h
    · cases h
    · rename_i hne
      cases h
      exact hne
  · cases h
    exact List.cons_ne_nil _ _

theorem bodyErrors_eq_nil : cfg.bodyErrors r = [] ↔ ∀ schema, cfg.bodySchema = some schema →
    ∃ read, parseJson r.body = some read ∧ Meets asRead schema read.1 := by
  simp only [← validateJson_eq_ok_iff]
  rw [bodyErrors]
  cases cfg.bodySchema with
  | none => simp
  | some schema =>
    cases hv : validateJson r.body schema with
    | ok u => simp [hv]
    | error errors => simp [hv, validateJson_error_ne_nil hv]

theorem errors_eq_nil : cfg.errors toLowercase r = [] ↔ cfg.Admits toLowercase r := by
  rw [errors, List.append_eq_nil_iff, List.append_eq_nil_iff, List.append_eq_nil_iff,
    methodErrors_eq_nil, sizeErrors_eq_nil, headerErrors_eq_nil, bodyErrors_eq_nil]
  constructor
  · rintro ⟨⟨⟨hmethod, hbody, hcount, hvalues, hroute⟩, hheaders⟩, hschema⟩
    exact ⟨hmethod, hbody, hcount, hvalues, hroute, hheaders, hschema⟩
  · intro h
    exact ⟨⟨⟨h.method, h.body, h.count, h.values, h.route⟩, h.headers⟩, h.schema⟩

end RequestValidationConfig

end Admission

section Routing

variable {configs : Configs} {route p q : Text} {cfg cfg' : RequestValidationConfig}

/-- The configuration of the longest prefix of a route: every other one is a prefix of it. -/
structure Governs (configs : Configs) (route p : Text) (cfg : RequestValidationConfig) :
    Prop where
  found : configs.lookup p = some cfg
  matches_ : p <+: route
  longest : ∀ q ∈ configs, q <+: route → q <+: p

theorem Governs.unique (h : Governs configs route p cfg) (h' : Governs configs route q cfg') :
    cfg = cfg' := by
  have hpq := h'.longest p (AList.mem_of_lookup h.found) h.matches_
  have hqp := h.longest q (AList.mem_of_lookup h'.found) h'.matches_
  have heq : p = q := hpq.eq_of_length (Nat.le_antisymm hpq.length_le hqp.length_le)
  exact Option.some.inj (h.found.symm.trans (heq ▸ h'.found))

theorem eq_nil_of_byteLen {t : Text} (h : byteLen t = 0) : t = [] := by
  cases t with
  | nil => rfl
  | cons c t =>
    have hpos := c.utf8Size_pos
    rw [byteLen_cons] at h
    omega

/-- Of two prefixes of a route the one with no more bytes is a prefix of the other. -/
theorem prefix_of_byteLen_le (hp : p <+: route) (hq : q <+: route)
    (hle : byteLen q ≤ byteLen p) : q <+: p := by
  rcases List.prefix_or_prefix_of_prefix hp hq with ⟨t, rfl⟩ | hqp
  · rw [byteLen_append] at hle
    simp [eq_nil_of_byteLen (by omega : byteLen t = 0)]
  · exact hqp

/-- What the loop has found among the entries it has seen. -/
def Longest (route : Text) (seen : List (Sigma fun _ : Text => RequestValidationConfig)) :
    Option (Sigma fun _ : Text => RequestValidationConfig) → Prop
  | none => ∀ e ∈ seen, ¬ e.1 <+: route
  | some b => b ∈ seen ∧ b.1 <+: route ∧ ∀ e ∈ seen, e.1 <+: route → e.1 <+: b.1

theorem longest_foldl (route : Text)
    (seen : List (Sigma fun _ : Text => RequestValidationConfig)) :
    Longest route seen (seen.foldl (longer route) none) := by
  induction seen using List.reverseRecOn with
  | nil => simp [Longest]
  | append_singleton seen e ih =>
    rw [List.foldl_append, List.foldl_cons, List.foldl_nil]
    cases hbest : seen.foldl (longer route) none with
    | none =>
      rw [hbest] at ih
      by_cases he : e.1 <+: route
      · simp only [longer, List.isPrefixOf_iff_prefix.mpr he, if_true]
        refine ⟨by simp, he, List.forall_mem_append.mpr ⟨fun e' hseen hprefix => ?_, ?_⟩⟩
        · exact absurd hprefix (ih e' hseen)
        · exact List.forall_mem_singleton.mpr fun _ => List.prefix_rfl
      · rw [longer, if_neg (mt List.isPrefixOf_iff_prefix.mp he)]
        exact List.forall_mem_append.mpr ⟨ih, List.forall_mem_singleton.mpr he⟩
    | some b =>
      rw [hbest] at ih
      obtain ⟨hb, hbroute, hlongest⟩ := ih
      by_cases he : e.1 <+: route
      · simp only [longer, List.isPrefixOf_iff_prefix.mpr he, if_true]
        split
        · rename_i hlt
          have hbe : b.1 <+: e.1 := prefix_of_byteLen_le he hbroute (Nat.le_of_lt hlt)
          refine ⟨by simp, he, List.forall_mem_append.mpr ⟨fun e' hseen hprefix => ?_, ?_⟩⟩
          · exact (hlongest e' hseen hprefix).trans hbe
          · exact List.forall_mem_singleton.mpr fun _ => List.prefix_rfl
        · rename_i hge
          have heb : e.1 <+: b.1 := prefix_of_byteLen_le hbroute he (Nat.le_of_not_lt hge)
          refine ⟨List.mem_append_left _ hb, hbroute, List.forall_mem_append.mpr ⟨hlongest, ?_⟩⟩
          exact List.forall_mem_singleton.mpr fun _ => heb
      · rw [longer, if_neg (mt List.isPrefixOf_iff_prefix.mp he)]
        refine ⟨List.mem_append_left _ hb, hbroute, List.forall_mem_append.mpr ⟨hlongest, ?_⟩⟩
        exact List.forall_mem_singleton.mpr fun hprefix => absurd hprefix he

/-- Whatever the order of the map, the configuration of the longest prefix is found. -/
theorem findConfig_eq_some_iff (order : ConfigOrder) :
    findConfig configs order route = some cfg ↔ ∃ p, Governs configs route p cfg := by
  have hlongest := longest_foldl route (order.arrange configs.entries)
  have hmem : ∀ {k c}, configs.lookup k = some c ↔
      (⟨k, c⟩ : Sigma _) ∈ order.arrange configs.entries := by
    intro k c
    rw [order.mem_arrange]
    exact AList.mem_lookup_iff
  rw [findConfig]
  cases hbest : (order.arrange configs.entries).foldl (longer route) none with
  | none =>
    rw [hbest] at hlongest
    refine iff_of_false nofun ?_
    rintro ⟨p, h⟩
    exact hlongest _ (hmem.mp h.found) h.matches_
  | some b =>
    rw [hbest] at hlongest
    obtain ⟨hb, hroute, hall⟩ := hlongest
    have hgoverns : Governs configs route b.1 b.2 := by
      refine ⟨hmem.mpr hb, hroute, fun q hq hprefix => ?_⟩
      obtain ⟨c, hc⟩ := Option.isSome_iff_exists.mp (AList.lookup_isSome.mpr hq)
      exact hall _ (hmem.mp hc) hprefix
    rw [Option.map_some, Option.some.injEq]
    constructor
    · rintro rfl
      exact ⟨b.1, hgoverns⟩
    · rintro ⟨p, h⟩
      exact hgoverns.unique h

end Routing

section Validation

variable [FloatDisplay] {toLowercase : Text → Text} {s : RequestValidator} {order : ConfigOrder}
  {r : Request}

namespace RequestValidator

theorem validate_spec (toLowercase : Text → Text) (s : RequestValidator) (order : ConfigOrder)
    (r : Request) :
    ((s.validate toLowercase order r).1.valid = true ↔
      ∀ p cfg, Governs s.configs r.route p cfg → cfg.Admits toLowercase r) ∧
    ((s.validate toLowercase order r).1.errors = [] ↔
      (s.validate toLowercase order r).1.valid = true) ∧
    (s.validate toLowercase order r).2 = { s with
      totalValidated := s.totalValidated + 1
      totalRejected := s.totalRejected +
        if (s.validate toLowercase order r).1.valid then 0 else 1 } := by
  rw [validate]
  dsimp only
  cases hfind : findConfig s.configs order r.route with
  | none =>
    refine ⟨iff_of_true rfl fun p cfg h => ?_, by simp, by simp⟩
    have hsome := (findConfig_eq_some_iff order).mpr ⟨p, h⟩
    rw [hfind] at hsome
    cases hsome
  | some cfg =>
    obtain ⟨p, hgoverns⟩ := (findConfig_eq_some_iff order).mp hfind
    refine ⟨?_, by simp, ?_⟩
    · rw [List.isEmpty_iff, RequestValidationConfig.errors_eq_nil]
      exact ⟨fun hadmits q cfg' h => hgoverns.unique h ▸ hadmits, fun h => h p cfg hgoverns⟩
    · cases hnil : (cfg.errors toLowercase r).isEmpty <;> simp [hnil]

/-- The order of the map makes no difference to an answer. -/
theorem validate_order (s : RequestValidator) (order order' : ConfigOrder) (r : Request) :
    s.validate toLowercase order r = s.validate toLowercase order' r := by
  have hfind : findConfig s.configs order r.route = findConfig s.configs order' r.route := by
    apply Option.ext
    intro cfg
    rw [findConfig_eq_some_iff, findConfig_eq_some_iff]
  rw [validate, validate]
  dsimp only
  rw [hfind]

end RequestValidator

def ValidatorCall.configOf (routePrefix : Text) :
    ValidatorCall → Option RequestValidationConfig
  | .addConfig p config => if p = routePrefix then some config else none
  | .validate .. => none

def isRejection : Option ValidationResult → Bool
  | some result => !result.valid
  | none => false

theorem configs_after (calls : List ValidatorCall) (p : Text) :
    (RequestValidator.after toLowercase calls).configs.lookup p =
      (calls.filterMap (ValidatorCall.configOf p)).getLast? := by
  induction calls using List.reverseRecOn with
  | nil => simp [RequestValidator.after]
  | append_singleton calls call ih =>
    have hafter : RequestValidator.after toLowercase (calls ++ [call]) =
        ((RequestValidator.after toLowercase calls).act toLowercase call).2 := by
      simp [RequestValidator.after]
    rw [hafter, List.filterMap_append]
    cases call with
    | addConfig q config =>
      by_cases hq : q = p
      · subst hq
        simp [RequestValidator.act, RequestValidator.addConfig, ValidatorCall.configOf]
      · simp [RequestValidator.act, RequestValidator.addConfig, ValidatorCall.configOf, hq,
          AList.lookup_insert_ne (Ne.symm hq), ih]
    | validate order r =>
      rw [RequestValidator.act, (RequestValidator.validate_spec _ _ order r).2.2]
      simp [ValidatorCall.configOf, ih]

/-- The counters count what is answered from a state on. -/
theorem counts_foldl (toLowercase : Text → Text) (calls : List ValidatorCall) (s : RequestValidator) :
    (calls.foldl (fun s call => (s.act toLowercase call).2) s).stats =
      (s.totalValidated +
        UInt64.ofNat ((Runs.answers (RequestValidator.act toLowercase) s calls).countP (·.isSome)),
      s.totalRejected +
        UInt64.ofNat ((Runs.answers (RequestValidator.act toLowercase) s calls).countP isRejection))
      := by
  induction calls generalizing s with
  | nil => simp [RequestValidator.stats, Runs.answers]
  | cons call calls ih =>
    rw [List.foldl_cons, ih, Runs.answers_cons]
    cases call with
    | addConfig q config => simp [RequestValidator.act, RequestValidator.addConfig, isRejection]
    | validate order r =>
      have hs := (s.validate_spec toLowercase order r).2.2
      have hact : s.act toLowercase (.validate order r) =
          (some (s.validate toLowercase order r).1, (s.validate toLowercase order r).2) := rfl
      rw [hact]
      generalize s.validate toLowercase order r = answer at hs
      obtain ⟨⟨valid, errors⟩, s'⟩ := answer
      dsimp only at hs ⊢
      rw [hs, List.countP_cons, List.countP_cons]
      cases valid with
      | true => simp [isRejection, UInt64.add_assoc, UInt64.add_comm 1]
      | false => simp [isRejection, UInt64.add_assoc, UInt64.add_comm 1]

/-- After any calls each prefix has the configuration it was given last; requests are held to the
rules of the longest prefix of their route, in whatever order the map is walked; and the counters
are the numbers of answers and of rejections, as far as a counter goes. -/
theorem requests_validated (toLowercase : Text → Text) (calls : List ValidatorCall) :
    let s := RequestValidator.after toLowercase calls
    let results := Runs.answers (RequestValidator.act toLowercase) {} calls
    (∀ p, s.configs.lookup p = (calls.filterMap (ValidatorCall.configOf p)).getLast?) ∧
    s.stats = (UInt64.ofNat (results.countP (·.isSome)),
      UInt64.ofNat (results.countP isRejection)) ∧
    ∀ order r,
      ((s.validate toLowercase order r).1.valid = true ↔
        ∀ p cfg, Governs s.configs r.route p cfg → cfg.Admits toLowercase r) ∧
      ((s.validate toLowercase order r).1.errors = [] ↔
        (s.validate toLowercase order r).1.valid = true) ∧
      ∀ order', s.validate toLowercase order' r = s.validate toLowercase order r := by
  intro s results
  refine ⟨configs_after calls, ?_, fun order r => ?_⟩
  · have hcounts := counts_foldl toLowercase calls {}
    rwa [UInt64.zero_add, UInt64.zero_add] at hcounts
  · obtain ⟨hvalid, herrors, -⟩ := s.validate_spec toLowercase order r
    exact ⟨hvalid, herrors, fun order' => s.validate_order order' order r⟩

end Validation

end HelixRouter.RequestValidation
