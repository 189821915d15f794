import HelixRouter.Containers.Retain
import HelixRouter.Router.Numbers

namespace HelixRouter.RequestSigning

/-- The digests a signature is made with. -/
class Digests where
  sha256 : List UInt8 → List UInt8
  hmacSha256 : List UInt8 → List UInt8 → List UInt8

def bytes (text : String) : List UInt8 := text.toUTF8.data.toList

/-- Two lowercase digits for each byte. -/
def toHex (data : List UInt8) : String :=
  String.ofList (data.flatMap fun b => [(b.toNat / 16).digitChar, (b.toNat % 16).digitChar])

structure SigningKey where
  keyId : String
  secret : List UInt8
  createdAt : UInt64
  expiresAt : Option UInt64 := none

def SigningKey.isValidAt (key : SigningKey) (nowUnixSecs : UInt64) : Bool :=
  if nowUnixSecs < key.createdAt then false
  else match key.expiresAt with
    | none => true
    | some exp => nowUnixSecs < exp

structure SignedRequest where
  payload : List UInt8
  signature : String
  keyId : String
  timestamp : UInt64
  nonce : String
  deriving DecidableEq

/-- What a nonce is used under. -/
def SignedRequest.id (request : SignedRequest) : String × String := (request.keyId, request.nonce)

def SignedRequest.canonicalString [Digests] (request : SignedRequest) : String :=
  request.keyId ++ "\n" ++ toString request.timestamp ++ "\n" ++ request.nonce ++ "\n" ++
    toHex (Digests.sha256 request.payload)

/-- Accepted `(key_id, nonce)` pairs with the time after which they need no remembering. -/
abbrev Seen := AList (fun _ : String × String => UInt64)

structure RequestSigner where
  replayWindowSecs : UInt64 := 300
  seen : Seen := ∅
  maxSeen : Nat := 100000

namespace RequestSigner

def withReplayWindow (replayWindowSecs : UInt64) : RequestSigner where
  replayWindowSecs := replayWindowSecs

def withMaxSeenNonces (signer : RequestSigner) (max : Nat) : RequestSigner :=
  { signer with maxSeen := Nat.max max 1 }

/-- Entries that still guard a request. -/
def live (nowUnixSecs : UInt64) (seen : Seen) : Seen :=
  seen.retain fun _ until_ => nowUnixSecs ≤ until_

/-- A full cache drops what has expired, and refuses when that frees nothing. -/
def recordNonce (signer : RequestSigner) (request : SignedRequest) (nowUnixSecs : UInt64) :
    Bool × RequestSigner :=
  if (signer.seen.lookup request.id).any (nowUnixSecs ≤ ·) then (false, signer)
  else
    let seen := if signer.maxSeen ≤ signer.seen.entries.length then live nowUnixSecs signer.seen
      else signer.seen
    if signer.maxSeen ≤ seen.entries.length then (false, { signer with seen := seen })
    else
      let until_ := saturatingAdd request.timestamp signer.replayWindowSecs
      (true, { signer with seen := seen.insert request.id until_ })

def constantTimeEq (a b : List UInt8) : Bool :=
  a.length = b.length && (a.zip b).foldl (fun diff xy => diff ||| (xy.1 ^^^ xy.2)) 0 = 0

def expectedSignature [Digests] (request : SignedRequest) (key : SigningKey) : String :=
  toHex (Digests.hmacSha256 key.secret (bytes request.canonicalString))

def sign [Digests] (_ : RequestSigner) (payload : List UInt8) (key : SigningKey)
    (nowUnixSecs : UInt64) (nonce : String) : SignedRequest :=
  let request : SignedRequest :=
    { payload := payload, signature := "", keyId := key.keyId, timestamp := nowUnixSecs,
      nonce := nonce }
  { request with signature := expectedSignature request key }

def verify [Digests] (signer : RequestSigner) (request : SignedRequest) (key : SigningKey)
    (nowUnixSecs : UInt64) : Bool × RequestSigner :=
  if !key.isValidAt nowUnixSecs || request.keyId ≠ key.keyId then (false, signer)
  else if signer.replayWindowSecs < saturatingSub nowUnixSecs request.timestamp then (false, signer)
  else if nowUnixSecs + signer.replayWindowSecs < request.timestamp then (false, signer)
  else if !constantTimeEq (bytes (expectedSignature request key)) (bytes request.signature) then
    (false, signer)
  else signer.recordNonce request nowUnixSecs

end RequestSigner

end HelixRouter.RequestSigning
