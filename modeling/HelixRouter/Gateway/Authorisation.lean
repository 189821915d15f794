import HelixRouter.Gateway.ApiGateway
import Mathlib.Data.Prod.Lex

namespace HelixRouter.Gateway

/-- Versions in their order. -/
def ApiVersion.rank (v : ApiVersion) : ℕ ×ₗ ℕ := toLex (v.major.toNat, v.minor.toNat)

theorem ApiVersion.isAtLeast_iff {v least : ApiVersion} :
    v.isAtLeast least = true ↔ least.rank ≤ v.rank := by
  unfold isAtLeast rank
  rw [Prod.Lex.toLex_le_toLex, Bool.or_eq_true, Bool.and_eq_true, decide_eq_true_eq,
    decide_eq_true_eq, decide_eq_true_eq]
  exact or_congr UInt32.lt_iff_toNat_lt
    (and_congr UInt32.toNat_inj.symm UInt32.le_iff_toNat_le)

/-- A credential is accepted where it is what it claims to be. -/
def Accepted (store : ApiKeyStore) (now : UInt64) : AuthMethod → Prop
  | .apiKey key => ∃ entry, store.validate now key = some entry
  | .bearerToken token => token ≠ ""
  | .basicAuth username password => username ≠ "" ∧ password ≠ ""
  | .none => False

/-- Only an API key comes with scopes. -/
def heldScopes (store : ApiKeyStore) (now : UInt64) : AuthMethod → List String
  | .apiKey key =>
    match store.validate now key with
    | some entry => entry.scopes
    | none => []
  | .bearerToken _ => []
  | .basicAuth _ _ => []
  | .none => []

def RouteRule.Admits (rule : RouteRule) (version : String) : Prop :=
  ∀ least, rule.minVersion = some least →
    ∃ v, ApiVersion.parse version = some v ∧ least.rank ≤ v.rank

/-- What a request must be to be answered. -/
structure Authorised (g : ApiGateway) (clocks : Clocks) (req : GatewayRequest) : Prop where
  accepted : Accepted g.keyStore clocks.unixSecs req.auth
  recent : ∀ rule ∈ g.routes, rule.pathPrefix.toList <+: req.path.toList → rule.Admits req.version
  permitted : ∀ rule ∈ g.routes, rule.pathPrefix.toList <+: req.path.toList →
    rule.requiredScopes ⊆ heldScopes g.keyStore clocks.unixSecs req.auth

namespace ApiGateway

/-- The rules for a path, in the order they were registered. -/
def matching (g : ApiGateway) (path : String) : List RouteRule :=
  g.routes.filter (·.applies path)

/-- The credential is accepted, its client within its rate, and the name of a bearer
can be cut from the token. -/
def Passes (g : ApiGateway) (clocks : Clocks) : AuthMethod → Prop
  | .apiKey key => ∃ entry, g.keyStore.validate clocks.unixSecs key = some entry ∧
      (g.checkThrottle clocks.instant entry.clientId entry.rateLimitRps).1 = false
  | .bearerToken token => token ≠ "" ∧ tokenName token ≠ none
  | .basicAuth username password => username ≠ "" ∧ password ≠ ""
  | .none => False

/-- The version can be read, and the first rule for the path has nothing against it. -/
def Compatible (g : ApiGateway) (req : GatewayRequest) : Prop :=
  ApiVersion.parse req.version ≠ none ∧
    ∀ rule, (g.matching req.path).head? = some rule → rule.Admits req.version

/-- The rules after the first have nothing against the version either, and the caller
holds the scopes of them all. -/
def Covers (g : ApiGateway) (clocks : Clocks) (req : GatewayRequest) : Prop :=
  (∀ rule ∈ (g.matching req.path).tail, rule.Admits req.version) ∧
    ∀ rule ∈ g.matching req.path,
      rule.requiredScopes ⊆ heldScopes g.keyStore clocks.unixSecs req.auth

section Answers

variable {g g' : ApiGateway} {clocks : Clocks} {req : GatewayRequest} {path version : String}

theorem Passes.accepted {auth : AuthMethod} (h : g.Passes clocks auth) :
    Accepted g.keyStore clocks.unixSecs auth := by
  cases auth with
  | apiKey key =>
    obtain ⟨entry, hv, _⟩ := h
    exact ⟨entry, hv⟩
  | bearerToken token => exact h.1
  | basicAuth username password => exact h
  | none => exact h

theorem authenticate_allowed_iff : (∃ id g', g.authenticate clocks req = some (.allowed id, g')) ↔
    g.Passes clocks req.auth := by
  unfold authenticate Passes
  cases req.auth with
  | none => simp
  | bearerToken token =>
    by_cases he : token = ""
    · simp [he]
    · simp [he, Option.ne_none_iff_exists']
  | basicAuth username password =>
    by_cases hu : username = ""
    · simp [hu]
    · by_cases hp : password = ""
      · simp [hu, hp]
      · simp [hu, hp]
  | apiKey key =>
    dsimp only
    cases g.keyStore.validate clocks.unixSecs key with
    | none => simp
    | some entry =>
      cases ht : g.checkThrottle clocks.instant entry.clientId entry.rateLimitRps with
      | mk slow g' =>
        cases slow with
        | true => simp [ht]
        | false => simp [ht]

theorem authenticate_routes {result : AuthResult}
    (h : g.authenticate clocks req = some (result, g')) : g'.routes = g.routes := by
  unfold authenticate at h
  split at h
  · cases h
    rfl
  · split at h
    · cases h
      rfl
    · obtain ⟨name, _, he⟩ := Option.map_eq_some_iff.mp h
      cases he
      rfl
  · split at h
    · cases h
      rfl
    · cases h
      rfl
  · split at h
    · cases h
      rfl
    · split at h
      · rename_i ht
        cases h
        exact congrArg (fun p => p.2.routes) ht.symm
      · rename_i ht
        cases h
        exact congrArg (fun p => p.2.routes) ht.symm

/-- The scan answers with a path unless the first rule for it asks for a later version. -/
theorem versionedPath_ok_iff {v : ApiVersion} (rules : List RouteRule) :
    (∃ p, versionedPath v path rules = .ok p) ↔
      ∀ rule, (rules.filter (·.applies path)).head? = some rule →
        ∀ least, rule.minVersion = some least → least.rank ≤ v.rank := by
  induction rules with
  | nil => simp [versionedPath]
  | cons rule rules ih =>
    by_cases ha : rule.applies path = true
    · rw [List.filter_cons, if_pos ha, List.head?_cons]
      unfold versionedPath
      rw [if_pos ha]
      cases hm : rule.minVersion with
      | none => simp [hm]
      | some least =>
        by_cases hv : v.isAtLeast least = true
        · simpa [hm, hv] using ApiVersion.isAtLeast_iff.mp hv
        · simpa [hm, hv] using fun h => hv (ApiVersion.isAtLeast_iff.mpr h)
    · rw [List.filter_cons, if_neg ha]
      unfold versionedPath
      rw [if_neg ha]
      exact ih

theorem checkVersion_ok_iff :
    (∃ p, g.checkVersion req.path req.version = .ok p) ↔ g.Compatible req := by
  unfold checkVersion Compatible RouteRule.Admits
  cases hv : ApiVersion.parse req.version with
  | none => simp
  | some v =>
    dsimp only
    rw [versionedPath_ok_iff]
    simp [matching]

theorem compatible_congr (h : g'.routes = g.routes) : g'.Compatible req ↔ g.Compatible req := by
  unfold Compatible matching
  rw [h]

/-- The request is answered with a 200 exactly when it passes and its version is let through. -/
theorem processRequest_ok_iff :
    (∃ resp g', g.processRequest clocks req = some (resp, g') ∧ resp.statusCode = 200) ↔
      g.Passes clocks req.auth ∧ g.Compatible req := by
  constructor
  · rintro ⟨resp, g', h, hs⟩
    unfold processRequest at h
    dsimp only at h
    split at h
    · cases h
    · cases h
      cases hs
    · cases h
      cases hs
    · rename_i id g₁ ha
      have hpass := authenticate_allowed_iff.mp ⟨id, g₁, ha⟩
      split at h
      · cases h
        cases hs
      · rename_i versioned hv
        have hversion := checkVersion_ok_iff.mp ⟨versioned, hv⟩
        exact ⟨hpass, (compatible_congr (authenticate_routes ha)).mp hversion⟩
  · rintro ⟨hpass, hversion⟩
    obtain ⟨id, g₁, ha⟩ := authenticate_allowed_iff.mpr
      (show Passes { g with totalRequests := g.totalRequests + 1 } clocks req.auth from hpass)
    obtain ⟨versioned, hv⟩ :=
      checkVersion_ok_iff.mpr ((compatible_congr (authenticate_routes ha)).mpr hversion)
    unfold processRequest
    dsimp only
    rw [ha]
    dsimp only
    rw [hv]
    exact ⟨_, _, rfl, rfl⟩

/-- Every 200 is authorised exactly where nothing but the scopes and the later rules
for the path could have stood in the way, and they do not. -/
theorem authorised_iff (g : ApiGateway) (clocks : Clocks) (req : GatewayRequest) :
    (∀ resp g', g.processRequest clocks req = some (resp, g') → resp.statusCode = 200 →
        Authorised g clocks req) ↔
      (g.Passes clocks req.auth → g.Compatible req → g.Covers clocks req) := by
  constructor
  · intro h hpass hversion
    obtain ⟨resp, g', hr, hs⟩ := processRequest_ok_iff.mpr ⟨hpass, hversion⟩
    have hauth := h resp g' hr hs
    refine ⟨fun rule hm => ?_, fun rule hm => ?_⟩
    · obtain ⟨hr, ha⟩ := List.mem_filter.mp (List.mem_of_mem_tail hm)
      exact hauth.recent rule hr (List.isPrefixOf_iff_prefix.mp ha)
    · obtain ⟨hr, ha⟩ := List.mem_filter.mp hm
      exact hauth.permitted rule hr (List.isPrefixOf_iff_prefix.mp ha)
  · intro h resp g' hr hs
    obtain ⟨hpass, hversion⟩ := processRequest_ok_iff.mp ⟨resp, g', hr, hs⟩
    obtain ⟨hlater, hscopes⟩ := h hpass hversion
    have hmem : ∀ rule ∈ g.routes, rule.pathPrefix.toList <+: req.path.toList →
        rule ∈ g.matching req.path := by
      intro rule hm hp
      exact List.mem_filter.mpr ⟨hm, List.isPrefixOf_iff_prefix.mpr hp⟩
    refine ⟨hpass.accepted, fun rule hm hp => ?_, fun rule hm hp => hscopes rule (hmem rule hm hp)⟩
    cases hlist : g.matching req.path with
    | nil =>
      have := hmem rule hm hp
      rw [hlist] at this
      cases this
    | cons first later =>
      have := hmem rule hm hp
      rw [hlist] at this hlater
      rcases List.mem_cons.mp this with rfl | hin
      · exact hversion.2 rule (by rw [hlist]; rfl)
      · exact hlater rule hin

end Answers

section Example

/-- Orders are for holders of a scope, and from the third version on. -/
def guardedOrders : ApiGateway where
  routes := [
    { pathPrefix := "/api", minVersion := none, requiredScopes := [], deprecated := false,
      successor := none },
    { pathPrefix := "/api/orders", minVersion := some ⟨3, 0⟩, requiredScopes := ["orders"],
      deprecated := false, successor := none }]

def anonymousOrder : GatewayRequest where
  method := "GET"
  path := "/api/orders"
  version := "v1"
  auth := .bearerToken "anything"

theorem anonymous_order_routed : ∃ resp g',
    guardedOrders.processRequest ⟨0, 0⟩ anonymousOrder = some (resp, g') ∧
      resp.statusCode = 200 ∧ ¬ Authorised guardedOrders ⟨0, 0⟩ anonymousOrder := by
  have hok : (guardedOrders.processRequest ⟨0, 0⟩ anonymousOrder).map (·.1.statusCode) = some 200 := by
    decide +kernel
  obtain ⟨⟨resp, g'⟩, hr, hs⟩ := Option.map_eq_some_iff.mp hok
  refine ⟨resp, g', hr, hs, fun h => ?_⟩
  have hmissing := h.permitted _ (List.mem_cons_of_mem _ List.mem_cons_self) (List.prefix_refl _)
  exact absurd (hmissing List.mem_cons_self) List.not_mem_nil

end Example

end ApiGateway

end HelixRouter.Gateway
