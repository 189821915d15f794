import HelixRouter.Containers.Retain
import HelixRouter.Runs.Stepwise

namespace HelixRouter.ResponseCaching

open Runs

def fnvOffset : UInt64 := 14695981039346656037

def fnvPrime : UInt64 := 1099511628211

def fnv1a (bytes : List UInt8) : UInt64 :=
  bytes.foldl (fun hash b => (hash ^^^ b.toUInt64) * fnvPrime) fnvOffset

/-- Sixteen lowercase digits. -/
def generateEtag (body : List UInt8) : String :=
  let digits := Nat.toDigits 16 (fnv1a body).toNat
  String.ofList (List.replicate (16 - digits.length) '0' ++ digits)

structure CacheKey where
  method : String
  path : String
  query : String
  deriving DecidableEq

namespace CacheKey

def joined (key : CacheKey) : String := key.method ++ "|" ++ key.path ++ "|" ++ key.query

def joinedBytes (key : CacheKey) : List UInt8 := key.joined.toUTF8.data.toList

def hash (key : CacheKey) : UInt64 := fnv1a key.joinedBytes

end CacheKey

abbrev Headers := AList (fun _ : String => String)

structure CacheEntry where
  body : List UInt8
  statusCode : UInt16
  headers : Headers
  etag : String
  cachedAt : Instant
  ttlSecs : UInt64
  hitCount : UInt64 := 0

def CacheEntry.isExpired (e : CacheEntry) (now : Instant) : Bool :=
  e.ttlSecs.toNat ≤ elapsedSecs e.cachedAt now

structure ResponseCache where
  map : AList (fun _ : UInt64 => CacheEntry) := ∅
  maxSize : Nat
  totalHits : UInt64 := 0
  totalMisses : UInt64 := 0

namespace ResponseCache

def new (maxSize : Nat) : ResponseCache := { maxSize := maxSize }

def get (cache : ResponseCache) (key : CacheKey) (now : Instant) :
    Option CacheEntry × ResponseCache :=
  match cache.map.lookup key.hash with
  | none => (none, { cache with totalMisses := cache.totalMisses + 1 })
  | some e =>
    if e.isExpired now then
      (none, { cache with map := cache.map.erase key.hash, totalMisses := cache.totalMisses + 1 })
    else
      let e := { e with hitCount := e.hitCount + 1 }
      (some e, { cache with map := cache.map.insert key.hash e, totalHits := cache.totalHits + 1 })

def evictExpired (cache : ResponseCache) (now : Instant) : ResponseCache :=
  { cache with map := cache.map.retain fun _ e => !e.isExpired now }

/-- What a call of `put` stores where there is room. -/
def entryOf (body : List UInt8) (status : UInt16) (headers : Headers) (ttlSecs : UInt64)
    (now : Instant) : CacheEntry where
  body := body
  statusCode := status
  headers := headers
  etag := generateEtag body
  cachedAt := now
  ttlSecs := ttlSecs

/-- A full cache drops what has expired, and the new response when that frees nothing. -/
def put (cache : ResponseCache) (key : CacheKey) (body : List UInt8) (status : UInt16)
    (headers : Headers) (ttlSecs : UInt64) (now : Instant) : ResponseCache :=
  let swept := if cache.maxSize ≤ cache.map.entries.length then cache.evictExpired now else cache
  if cache.maxSize ≤ cache.map.entries.length ∧ cache.maxSize ≤ swept.map.entries.length then swept
  else
    { swept with map := swept.map.insert key.hash (entryOf body status headers ttlSecs now) }

def invalidate (cache : ResponseCache) (pathPrefix : String) : ResponseCache :=
  { cache with map := cache.map.retain fun _ e =>
      !((e.headers.lookup "X-Cache-Path").any fun p => pathPrefix.toList.isPrefixOf p.toList) }

end ResponseCache

end HelixRouter.ResponseCaching
