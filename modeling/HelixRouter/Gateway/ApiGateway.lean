import HelixRouter.Floats.F64
import HelixRouter.Runs.Stepwise
import HelixRouter.Texts.Bytes
import Mathlib.Data.List.AList

namespace HelixRouter.Gateway

open Floats Runs

structure ApiVersion where
  major : UInt32
  minor : UInt32
  deriving DecidableEq

/-- The number that decimal digits write, unless it exceeds 32 bits. -/
def digitsToU32 : List Char → Nat → Option UInt32
  | [], n => some (UInt32.ofNat n)
  | c :: cs, n =>
    if c.isDigit then
      let n := 10 * n + (c.toNat - '0'.toNat)
      if n < 4294967296 then digitsToU32 cs n else none
    else none

/-- Digits, with a plus sign in front or without. -/
def parseU32 : List Char → Option UInt32
  | [] => none
  | '+' :: [] => none
  | '+' :: cs => digitsToU32 cs 0
  | cs => digitsToU32 cs 0

namespace ApiVersion

def parse (s : String) : Option ApiVersion := do
  let s := s.toList.dropWhile (· = 'v')
  let major ← parseU32 (s.takeWhile (· ≠ '.'))
  let minor := match s.dropWhile (· ≠ '.') with
    | [] => 0
    | _ :: m => (parseU32 m).getD 0
  some ⟨major, minor⟩

def isAtLeast (self other : ApiVersion) : Bool :=
  other.major < self.major || (other.major = self.major && other.minor ≤ self.minor)

def display (v : ApiVersion) : String :=
  "v" ++ toString v.major.toNat ++ "." ++ toString v.minor.toNat

end ApiVersion

inductive AuthMethod where
  | apiKey (key : String)
  | bearerToken (token : String)
  | basicAuth (username password : String)
  | none

inductive AuthResult where
  | allowed (clientId : String)
  | denied (reason : String)
  | rateLimited (retryAfterSecs : UInt64)

structure ApiKeyEntry where
  clientId : String
  scopes : List String
  rateLimitRps : F64
  createdAt : UInt64
  expiresAt : Option UInt64

structure ApiKeyStore where
  keys : AList (fun _ : String => ApiKeyEntry) := ∅

def ApiKeyStore.validate (s : ApiKeyStore) (now : UInt64) (key : String) : Option ApiKeyEntry := do
  let entry ← s.keys.lookup key
  match entry.expiresAt with
  | some exp => if exp < now then none else some entry
  | none => some entry

structure RouteRule where
  pathPrefix : String
  minVersion : Option ApiVersion
  requiredScopes : List String
  deprecated : Bool
  successor : Option String

def RouteRule.applies (rule : RouteRule) (path : String) : Bool :=
  rule.pathPrefix.toList.isPrefixOf path.toList

structure GatewayRequest where
  method : String
  path : String
  version : String
  auth : AuthMethod

structure GatewayResponse where
  statusCode : UInt16
  body : String
  headers : AList (fun _ : String => String) := ∅
  versionUsed : String

def GatewayResponse.ok (body version : String) : GatewayResponse where
  statusCode := 200
  body := body
  versionUsed := version

def GatewayResponse.error (status : UInt16) (message : String) : GatewayResponse where
  statusCode := status
  body := message
  versionUsed := ""

/-- The seconds since 1970, and the monotonic clock. -/
structure Clocks where
  unixSecs : UInt64
  instant : Instant

structure ApiGateway where
  keyStore : ApiKeyStore := {}
  routes : List RouteRule := []
  requestCounts : AList (fun _ : String => UInt64) := ∅
  windowStarts : AList (fun _ : String => Instant) := ∅
  totalRequests : UInt64 := 0
  authFailures : UInt64 := 0
  rateLimited : UInt64 := 0
  versionErrors : UInt64 := 0

/-- The part of a token that names its caller. Where the eighth byte is not the last of
its character there is none: taking the slice panics. -/
def tokenName (token : String) : Option String :=
  (Texts.upToByte token.toList (min token.utf8ByteSize 8)).map String.ofList

namespace ApiGateway

def checkThrottle (g : ApiGateway) (now : Instant) (clientId : String) (rateLimitRps : F64) :
    Bool × ApiGateway :=
  let windowStart := (g.windowStarts.lookup clientId).getD now
  let count := (g.requestCounts.lookup clientId).getD 0
  let reset : Bool := nanosPerSec ≤ now - windowStart
  let windowStart := if reset then now else windowStart
  let count := (if reset then 0 else count) + 1
  (rateLimitRps.lt (.ofU64 count),
    { g with
      windowStarts := g.windowStarts.insert clientId windowStart
      requestCounts := g.requestCounts.insert clientId count })

/-- There is no result where it panics. -/
def authenticate (g : ApiGateway) (clocks : Clocks) (req : GatewayRequest) :
    Option (AuthResult × ApiGateway) :=
  match req.auth with
  | .none => some (.denied "no credentials provided", g)
  | .bearerToken token =>
    if token.isEmpty then some (.denied "empty bearer token", g)
    else (tokenName token).map fun name => (.allowed ("bearer:" ++ name), g)
  | .basicAuth username password =>
    if username.isEmpty || password.isEmpty then
      some (.denied "empty username or password", g)
    else some (.allowed ("basic:" ++ username), g)
  | .apiKey key =>
    match g.keyStore.validate clocks.unixSecs key with
    | none => some (.denied "invalid or expired API key", g)
    | some entry =>
      match g.checkThrottle clocks.instant entry.clientId entry.rateLimitRps with
      | (true, g) => some (.rateLimited 1, g)
      | (false, g) => some (.allowed entry.clientId, g)

/-- The scan of the routes: the first rule for a path decides. -/
def versionedPath (reqVer : ApiVersion) (path : String) : List RouteRule → Except String String
  | [] => .ok (reqVer.display ++ "/" ++ path)
  | rule :: rules =>
    if rule.applies path then
      let versioned := rule.pathPrefix ++ "/" ++ reqVer.display ++ "/" ++ path
      match rule.minVersion with
      | some least =>
        if reqVer.isAtLeast least then .ok versioned
        else .error ("route '" ++ rule.pathPrefix ++ "' requires at least version " ++
          least.display ++ ", got " ++ reqVer.display)
      | none => .ok versioned
    else versionedPath reqVer path rules

def checkVersion (g : ApiGateway) (path version : String) : Except String String :=
  match ApiVersion.parse version with
  | none => .error ("cannot parse version '" ++ version ++ "'")
  | some reqVer => versionedPath reqVer path g.routes

/-- The last rule for the path that is deprecated names the warning. -/
def deprecationHeaders (g : ApiGateway) (path : String) : AList (fun _ : String => String) :=
  g.routes.foldl (fun headers rule =>
    if rule.applies path && rule.deprecated then
      headers.insert "Deprecation-Warning"
        (match rule.successor with
        | some s => "Deprecated; use " ++ s
        | none => "Deprecated endpoint")
    else headers) ∅

/-- There is no result where it panics. -/
def processRequest (g : ApiGateway) (clocks : Clocks) (req : GatewayRequest) :
    Option (GatewayResponse × ApiGateway) :=
  let g := { g with totalRequests := g.totalRequests + 1 }
  match g.authenticate clocks req with
  | none => none
  | some (.denied reason, g) =>
    some (.error 401 ("Unauthorized: " ++ reason), { g with authFailures := g.authFailures + 1 })
  | some (.rateLimited retryAfterSecs, g) =>
    let resp := GatewayResponse.error 429 "Too Many Requests"
    some ({ resp with
        headers := resp.headers.insert "Retry-After" (toString retryAfterSecs.toNat) },
      { g with rateLimited := g.rateLimited + 1 })
  | some (.allowed clientId, g) =>
    match g.checkVersion req.path req.version with
    | .error e =>
      some (.error 400 ("Version error: " ++ e), { g with versionErrors := g.versionErrors + 1 })
    | .ok versioned =>
      let body := "routed " ++ req.method ++ " " ++ req.path ++ " -> " ++ versioned
      let resp := GatewayResponse.ok body req.version
      some ({ resp with
        headers := (g.deprecationHeaders req.path).insert "X-Client-Id" clientId }, g)

end ApiGateway

end HelixRouter.Gateway
