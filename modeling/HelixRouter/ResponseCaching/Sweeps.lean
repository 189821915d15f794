import HelixRouter.Floats.F64
import HelixRouter.Negotiation.ContentNegotiation
import HelixRouter.ResponseCaching.Invalidation
import HelixRouter.Runs.Answers
import Mathlib.Algebra.BigOperators.Group.List.Basic

namespace HelixRouter.ResponseCaching

open Floats Runs

def CacheEntry.sizeBytes (e : CacheEntry) : Nat :=
  e.body.length + (e.headers.entries.map fun h => h.1.utf8ByteSize + h.2.utf8ByteSize).sum

/-- One of the tags that the entry's header lists between commas. -/
def CacheEntry.hasTag (e : CacheEntry) (tag : String) : Bool :=
  (e.headers.lookup "Cache-Tag").any fun tags =>
    (tags.toList.splitOn ',').any fun t => decide (Negotiation.trim t = tag.toList)

structure CacheStats where
  totalEntries : Nat
  hitRate : F64
  totalHits : UInt64
  totalMisses : UInt64
  totalBytes : Nat

namespace ResponseCache

def invalidateByTag (cache : ResponseCache) (tag : String) : ResponseCache :=
  { cache with map := cache.map.retain fun _ e => !e.hasTag tag }

def stats (cache : ResponseCache) (now : Instant) : CacheStats :=
  let total := cache.totalHits + cache.totalMisses
  let liveEntries := cache.map.entries.filter fun e => !e.2.isExpired now
  { totalEntries := liveEntries.length
    hitRate := if total = 0 then .finite 0
      else (F64.ofU64 cache.totalHits).div (F64.ofU64 total)
    totalHits := cache.totalHits
    totalMisses := cache.totalMisses
    totalBytes := (liveEntries.map fun e => e.2.sizeBytes).sum }

end ResponseCache

inductive CacheCall where
  | get (key : CacheKey)
  | put (key : CacheKey) (body : List UInt8) (status : UInt16) (headers : Headers)
      (ttlSecs : UInt64)
  | invalidate (pathPrefix : String)
  | invalidateByTag (tag : String)
  | stats

inductive CacheAnswer where
  | response (found : Option CacheEntry)
  | stats (stats : CacheStats)
  | done

namespace ResponseCache

def act (cache : ResponseCache) : Instant × CacheCall → CacheAnswer × ResponseCache
  | (now, .get key) => (.response (cache.get key now).1, (cache.get key now).2)
  | (now, .put key body status headers ttlSecs) =>
    (.done, cache.put key body status headers ttlSecs now)
  | (_, .invalidate pathPrefix) => (.done, cache.invalidate pathPrefix)
  | (_, .invalidateByTag tag) => (.done, cache.invalidateByTag tag)
  | (now, .stats) => (.stats (cache.stats now), cache)

/-- Two caches with the same live entries, and the same counters. -/
structure Alike (now : Instant) (s t : ResponseCache) : Prop where
  maxSize : s.maxSize = t.maxSize
  hits : s.totalHits = t.totalHits
  misses : s.totalMisses = t.totalMisses
  live : ∀ h, s.live h now = t.live h now

variable {s t : ResponseCache} {cache : ResponseCache} {key : CacheKey} {now : Instant} {h : UInt64}
  {body : List UInt8} {status : UInt16} {headers : Headers} {ttlSecs : UInt64}

theorem live_retain (keep : UInt64 → CacheEntry → Bool) (h : UInt64) (now : Instant) :
    ({ cache with map := cache.map.retain keep } : ResponseCache).live h now =
      (cache.live h now).filter (keep h) := by
  ext e
  rw [live_eq_some, AList.lookup_retain_eq_some, Option.filter_eq_some_iff, live_eq_some]
  constructor
  · rintro ⟨⟨hl, hkeep⟩, hx⟩
    exact ⟨⟨hl, hx⟩, hkeep⟩
  · rintro ⟨⟨hl, hx⟩, hkeep⟩
    exact ⟨⟨hl, hkeep⟩, hx⟩

theorem live_evictExpired (h : UInt64) (now : Instant) :
    (cache.evictExpired now).live h now = cache.live h now := by
  ext e
  rw [evictExpired, live_retain, Option.filter_eq_some_iff]
  exact ⟨And.left, fun he => ⟨he, by simpa using (live_eq_some.mp he).2⟩⟩

theorem lookup_evictExpired (h : UInt64) (now : Instant) :
    (cache.evictExpired now).map.lookup h = cache.live h now := by
  ext e
  rw [evictExpired, AList.lookup_retain_eq_some, live_eq_some]
  simp

theorem live_insert (e : CacheEntry) (k h : UInt64) (now : Instant) :
    ({ cache with map := cache.map.insert k e } : ResponseCache).live h now =
      if h = k then (some e).filter (fun e => !e.isExpired now) else cache.live h now := by
  unfold live
  by_cases hh : h = k
  · rw [if_pos hh, hh, AList.lookup_insert]
  · rw [if_neg hh, AList.lookup_insert_ne hh]

/-- What a lookup does to the live entries, and to the counters. -/
theorem live_get (h : UInt64) : (cache.get key now).2.live h now =
    if h = key.hash then (cache.live h now).map fun e => { e with hitCount := e.hitCount + 1 }
    else cache.live h now := by
  unfold get
  cases hm : cache.map.lookup key.hash with
  | none =>
    have hnone : cache.live key.hash now = none := by rw [live, hm]; rfl
    change cache.live h now = _
    split
    · rename_i hh
      rw [hh, hnone]
      rfl
    · rfl
  | some e =>
    dsimp only
    by_cases hx : e.isExpired now = true
    · rw [if_pos hx]
      by_cases hh : h = key.hash
      · rw [if_pos hh, hh, live, live, AList.lookup_erase, hm]
        simp [hx]
      · rw [if_neg hh, live, live, AList.lookup_erase_ne hh]
    · rw [if_neg hx]
      have hlive : cache.live key.hash now = some e :=
        live_eq_some.mpr ⟨hm, Bool.eq_false_iff.mpr hx⟩
      change ({ cache with map := cache.map.insert key.hash _ } : ResponseCache).live h now = _
      rw [live_insert]
      by_cases hh : h = key.hash
      · rw [if_pos hh, if_pos hh, hh, hlive]
        exact Option.filter_eq_some_iff.mpr ⟨rfl, by simpa [CacheEntry.isExpired] using hx⟩
      · rw [if_neg hh, if_neg hh]

theorem counters_get (cache : ResponseCache) (key : CacheKey) (now : Instant) :
    (cache.get key now).2.maxSize = cache.maxSize ∧
    (cache.get key now).2.totalHits =
      cache.totalHits + (if (cache.live key.hash now).isSome then 1 else 0) ∧
    (cache.get key now).2.totalMisses =
      cache.totalMisses + (if (cache.live key.hash now).isSome then 0 else 1) := by
  unfold get live
  cases hm : cache.map.lookup key.hash with
  | none => simp
  | some e =>
    by_cases hx : e.isExpired now = true
    · simp [hx]
    · simp [hx]

/-- A cache has room unless it is full of live entries; it may have been swept when it stores. -/
theorem put_eq (cache : ResponseCache) (key : CacheKey) (body : List UInt8) (status : UInt16)
    (headers : Headers) (ttlSecs : UInt64) (now : Instant) :
    ∃ kept, (kept = cache ∨ kept = cache.evictExpired now) ∧
      cache.put key body status headers ttlSecs now =
        if cache.hasRoom now = true then
          { kept with map := kept.map.insert key.hash (entryOf body status headers ttlSecs now) }
        else cache.evictExpired now := by
  have hle : (cache.evictExpired now).map.entries.length ≤ cache.map.entries.length :=
    AList.retain_le
  unfold put hasRoom
  by_cases hfull : cache.maxSize ≤ cache.map.entries.length
  · refine ⟨cache.evictExpired now, .inr rfl, ?_⟩
    by_cases hroom : cache.maxSize ≤ (cache.evictExpired now).map.entries.length
    · simp [hfull, hroom]
    · simp [hfull, hroom, Nat.lt_of_not_le hroom]
  · refine ⟨cache, .inl rfl, ?_⟩
    have hroom : (cache.evictExpired now).map.entries.length < cache.maxSize := by omega
    simp [hfull, hroom]

theorem live_put (h : UInt64) : (cache.put key body status headers ttlSecs now).live h now =
    if cache.hasRoom now = true ∧ h = key.hash then
      (some (entryOf body status headers ttlSecs now)).filter fun e => !e.isExpired now
    else cache.live h now := by
  obtain ⟨kept, hkept, hput⟩ := put_eq cache key body status headers ttlSecs now
  have hlive : kept.live h now = cache.live h now := by
    rcases hkept with rfl | rfl
    · rfl
    · exact live_evictExpired h now
  rw [hput]
  by_cases hroom : cache.hasRoom now = true
  · rw [if_pos hroom, live_insert, hlive]
    simp [hroom]
  · rw [if_neg hroom, live_evictExpired, if_neg fun hyes => hroom hyes.1]

theorem counters_put (cache : ResponseCache) :
    (cache.put key body status headers ttlSecs now).maxSize = cache.maxSize ∧
    (cache.put key body status headers ttlSecs now).totalHits = cache.totalHits ∧
    (cache.put key body status headers ttlSecs now).totalMisses = cache.totalMisses := by
  obtain ⟨kept, hkept, hput⟩ := put_eq cache key body status headers ttlSecs now
  rw [hput]
  rcases hkept with rfl | rfl <;> split <;> exact ⟨rfl, rfl, rfl⟩

namespace Alike

theorem perm (h : Alike now s t) :
    (s.evictExpired now).map.entries.Perm (t.evictExpired now).map.entries := by
  refine List.lookup_ext (AList.nodupKeys _) (AList.nodupKeys _) fun k e => ?_
  change e ∈ (s.evictExpired now).map.lookup k ↔ e ∈ (t.evictExpired now).map.lookup k
  rw [lookup_evictExpired, lookup_evictExpired, h.live]

theorem hasRoom (h : Alike now s t) : s.hasRoom now = t.hasRoom now := by
  rw [ResponseCache.hasRoom, ResponseCache.hasRoom, h.perm.length_eq, h.maxSize]

theorem later {soon : Instant} (h : Alike now s t) (hle : now ≤ soon) :
    Alike soon s t where
  maxSize := h.maxSize
  hits := h.hits
  misses := h.misses
  live := by
    intro k
    ext e
    have hnow := h.live k
    constructor
    · intro he
      have := live_eq_some.mp (hnow ▸ live_of_later hle he)
      exact live_eq_some.mpr ⟨this.1, (live_eq_some.mp he).2⟩
    · intro he
      have := live_eq_some.mp (hnow ▸ live_of_later hle he)
      exact live_eq_some.mpr ⟨this.1, (live_eq_some.mp he).2⟩

theorem get (h : Alike now s t) (key : CacheKey) :
    (s.get key now).1 = (t.get key now).1 ∧ Alike now (s.get key now).2 (t.get key now).2 := by
  obtain ⟨hs, hsh, hsm⟩ := s.counters_get key now
  obtain ⟨ht, hth, htm⟩ := t.counters_get key now
  refine ⟨by rw [get_fst, get_fst, h.live], ?_, ?_, ?_, fun k => ?_⟩
  · rw [hs, ht, h.maxSize]
  · rw [hsh, hth, h.live, h.hits]
  · rw [hsm, htm, h.live, h.misses]
  · rw [live_get, live_get, h.live]

theorem put (h : Alike now s t) (key : CacheKey) (body : List UInt8) (status : UInt16)
    (headers : Headers) (ttlSecs : UInt64) :
    Alike now (s.put key body status headers ttlSecs now)
      (t.put key body status headers ttlSecs now) := by
  obtain ⟨hs, hsh, hsm⟩ : _ ∧ _ ∧ _ := counters_put s
  obtain ⟨ht, hth, htm⟩ : _ ∧ _ ∧ _ := counters_put t
  refine ⟨by rw [hs, ht, h.maxSize], by rw [hsh, hth, h.hits], by rw [hsm, htm, h.misses],
    fun k => ?_⟩
  rw [live_put, live_put, h.hasRoom, h.live]

theorem retain (h : Alike now s t) (keep : UInt64 → CacheEntry → Bool) :
    Alike now { s with map := s.map.retain keep } { t with map := t.map.retain keep } where
  maxSize := h.maxSize
  hits := h.hits
  misses := h.misses
  live := fun k => by rw [live_retain, live_retain, h.live]

theorem stats (h : Alike now s t) : s.stats now = t.stats now := by
  have hperm : (s.map.entries.filter fun e => !e.2.isExpired now).Perm
      (t.map.entries.filter fun e => !e.2.isExpired now) := h.perm
  have hsum := (hperm.map fun e => e.2.sizeBytes).sum_eq
  simp only [ResponseCache.stats, h.hits, h.misses, hperm.length_eq, hsum]

theorem act (call : CacheCall) (h : Alike now s t) :
    (s.act (now, call)).1 = (t.act (now, call)).1 ∧
      Alike now (s.act (now, call)).2 (t.act (now, call)).2 := by
  cases call with
  | get key => exact ⟨congrArg CacheAnswer.response (h.get key).1, (h.get key).2⟩
  | put key body status headers ttlSecs => exact ⟨rfl, h.put key body status headers ttlSecs⟩
  | invalidate pathPrefix => exact ⟨rfl, h.retain _⟩
  | invalidateByTag tag => exact ⟨rfl, h.retain _⟩
  | stats => exact ⟨congrArg CacheAnswer.stats h.stats, h⟩

theorem swept (h : Alike now s t) : Alike now (s.evictExpired now) t where
  maxSize := h.maxSize
  hits := h.hits
  misses := h.misses
  live := fun k => by rw [live_evictExpired, h.live]

end Alike

end ResponseCache

/-- When a call or a sweep is made. -/
def timeOf : (Instant × CacheCall) ⊕ Instant → Instant
  | .inl call => call.1
  | .inr now => now

/-- Sweeps make no difference to what the cache answers, its statistics included, wherever they
come between the calls. -/
theorem sweeps_unseen (maxSize : Nat) (events : List ((Instant × CacheCall) ⊕ Instant))
    (hordered : events.Pairwise fun a b => timeOf a ≤ timeOf b) :
    answersAmid ResponseCache.act ResponseCache.evictExpired (.new maxSize) events =
      answers ResponseCache.act (.new maxSize) (calls events) := by
  have hunseen : Unseen ResponseCache.act ResponseCache.evictExpired timeOf
      ResponseCache.Alike :=
    ⟨fun hle h => h.later hle, fun call h => h.act call.2, fun _ h => h.swept⟩
  have hstart : ResponseCache.Alike 0 (.new maxSize) (.new maxSize) :=
    ⟨rfl, rfl, rfl, fun _ => rfl⟩
  exact hunseen.answersAmid_eq hordered (fun _ _ => Nat.zero_le _) hstart

def homePage : CacheKey := ⟨"GET", "/", ""⟩

/-- A response outlives one sweep and not the next. -/
def sweptTwice : List ((Instant × CacheCall) ⊕ Instant) :=
  [.inl (0, .put homePage [1, 2] 200 ∅ 60), .inr (30 * nanosPerSec),
    .inl (40 * nanosPerSec, .get homePage), .inr (70 * nanosPerSec),
    .inl (80 * nanosPerSec, .get homePage)]

theorem sweeps_unseen_twice :
    answersAmid ResponseCache.act ResponseCache.evictExpired (.new 1) sweptTwice =
      answers ResponseCache.act (.new 1) (calls sweptTwice) :=
  sweeps_unseen 1 sweptTwice (by decide)

end HelixRouter.ResponseCaching
