import HelixRouter.ResponseCaching.ResponseCache
import HelixRouter.Runs.Stepwise
import Mathlib.Data.Set.Function

namespace HelixRouter.ResponseCaching

open Runs

/-- The entry as its `put` stored it. -/
def CacheEntry.unserved (e : CacheEntry) : CacheEntry := { e with hitCount := 0 }

namespace ResponseCache

variable {cache : ResponseCache} {key : CacheKey} {now later : Instant} {h : UInt64}
  {e : CacheEntry}

/-- What the map holds under a hash and has not expired. -/
def live (cache : ResponseCache) (h : UInt64) (now : Instant) : Option CacheEntry :=
  (cache.map.lookup h).filter fun e => !e.isExpired now

theorem live_eq_some :
    cache.live h now = some e ↔ cache.map.lookup h = some e ∧ e.isExpired now = false := by
  simp [live, Option.filter_eq_some_iff]

theorem isExpired_mono (hle : now ≤ later) (hx : e.isExpired later = false) :
    e.isExpired now = false := by
  simp only [CacheEntry.isExpired, decide_eq_false_iff_not, Nat.not_le] at hx ⊢
  exact Nat.lt_of_le_of_lt (elapsedSecs_mono hle) hx

theorem live_of_later (hle : now ≤ later) (hl : cache.live h later = some e) :
    cache.live h now = some e := by
  obtain ⟨hm, hx⟩ := live_eq_some.mp hl
  exact live_eq_some.mpr ⟨hm, isExpired_mono hle hx⟩

/-- A lookup answers with what is live, one hit later. -/
theorem get_fst : (cache.get key now).1 =
    (cache.live key.hash now).map fun e => { e with hitCount := e.hitCount + 1 } := by
  unfold get live
  cases hm : cache.map.lookup key.hash with
  | none => rfl
  | some e =>
    by_cases hx : e.isExpired now = true
    · simp [hx]
    · simp [hx]

/-- An operation that stores nothing new. -/
def Shrinks (cache cache' : ResponseCache) (now : Instant) : Prop :=
  (∀ h e, cache'.live h now = some e →
    ∃ e₀, cache.live h now = some e₀ ∧ e₀.unserved = e.unserved) ∧
  cache'.map.entries.length ≤ cache.map.entries.length ∧ cache'.maxSize = cache.maxSize

theorem shrinks_retain (keep : UInt64 → CacheEntry → Bool) :
    Shrinks cache { cache with map := cache.map.retain keep } now := by
  refine ⟨fun h e hl => ?_, AList.retain_le, rfl⟩
  obtain ⟨hm, hx⟩ := live_eq_some.mp hl
  exact ⟨e, live_eq_some.mpr ⟨(AList.lookup_retain_eq_some.mp hm).1, hx⟩, rfl⟩

theorem shrinks_get : Shrinks cache (cache.get key now).2 now := by
  unfold get
  split
  · exact ⟨fun h e hl => ⟨e, hl, rfl⟩, Nat.le_refl _, rfl⟩
  rename_i e hm
  split
  · refine ⟨fun h f hl => ?_, ?_, rfl⟩
    · obtain ⟨hf, hx⟩ := live_eq_some.mp hl
      by_cases hh : h = key.hash
      · rw [hh] at hf
        simp at hf
      · rw [AList.lookup_erase_ne hh] at hf
        exact ⟨f, live_eq_some.mpr ⟨hf, hx⟩, rfl⟩
    · exact (List.kerase_sublist _ _).length_le
  · rename_i hx
    refine ⟨fun h f hl => ?_, ?_, rfl⟩
    · obtain ⟨hf, hy⟩ := live_eq_some.mp hl
      by_cases hh : h = key.hash
      · subst hh
        rw [AList.lookup_insert] at hf
        cases hf
        exact ⟨e, live_eq_some.mpr ⟨hm, Bool.eq_false_iff.mpr hx⟩, rfl⟩
      · rw [AList.lookup_insert_ne hh] at hf
        exact ⟨f, live_eq_some.mpr ⟨hf, hy⟩, rfl⟩
    · have hp := (AList.entries_perm_of_lookup hm).length_eq
      rw [AList.entries_insert]
      exact hp.ge

/-- The two ways of a `put`: no room, or the entry goes in. -/
theorem put_cases (cache : ResponseCache) (key : CacheKey) (body : List UInt8) (status : UInt16)
    (headers : Headers) (ttlSecs : UInt64) (now : Instant) :
    (cache.maxSize ≤ (cache.evictExpired now).map.entries.length ∧
      cache.put key body status headers ttlSecs now = cache.evictExpired now) ∨
    (¬ cache.maxSize ≤ (cache.evictExpired now).map.entries.length ∧
      ∃ kept : ResponseCache, Shrinks cache kept now ∧ kept.map.entries.length < cache.maxSize ∧
        cache.put key body status headers ttlSecs now = { kept with
          map := kept.map.insert key.hash (entryOf body status headers ttlSecs now) }) := by
  have hle : (cache.evictExpired now).map.entries.length ≤ cache.map.entries.length :=
    AList.retain_le
  unfold put
  by_cases hfull : cache.maxSize ≤ cache.map.entries.length
  · by_cases hroom : cache.maxSize ≤ (cache.evictExpired now).map.entries.length
    · exact Or.inl ⟨hroom, by simp [hfull, hroom]⟩
    · refine Or.inr ⟨hroom, cache.evictExpired now, shrinks_retain _, Nat.lt_of_not_le hroom, ?_⟩
      simp [hfull, hroom]
  · refine Or.inr ⟨by omega, cache, ⟨fun h e hl => ⟨e, hl, rfl⟩, Nat.le_refl _, rfl⟩,
      Nat.lt_of_not_le hfull, ?_⟩
    simp [hfull]

end ResponseCache

inductive Op where
  | put (key : CacheKey) (body : List UInt8) (status : UInt16) (headers : Headers)
      (ttlSecs : UInt64)
  | get (key : CacheKey)
  | evictExpired
  | invalidate (pathPrefix : String)

/-- A call, and how long after the previous one it is made. -/
structure Event where
  wait : Nat
  op : Op

/-- The call, if it names a key, names one of these. -/
def Event.Within (keys : Set CacheKey) (e : Event) : Prop :=
  match e.op with
  | .put key _ _ _ _ | .get key => key ∈ keys
  | .evictExpired | .invalidate _ => True

/-- A cache with all that was put into it, the latest first. -/
structure Usage where
  cache : ResponseCache
  clock : Instant := 0
  puts : List (CacheKey × CacheEntry) := []

namespace Usage

def start (maxSize : Nat) : Usage := { cache := .new maxSize }

def next (u : Usage) (e : Event) : Usage :=
  let now := u.clock + e.wait
  match e.op with
  | .put key body status headers ttlSecs =>
    { cache := u.cache.put key body status headers ttlSecs now
      clock := now
      puts := (key, ResponseCache.entryOf body status headers ttlSecs now) :: u.puts }
  | .get key => { u with cache := (u.cache.get key now).2, clock := now }
  | .evictExpired => { u with cache := u.cache.evictExpired now, clock := now }
  | .invalidate pathPrefix => { u with cache := u.cache.invalidate pathPrefix, clock := now }

def step (u : Usage) (e : Event) : Option Usage := some (u.next e)

/-- What the latest `put` for a key was given. -/
def latest (u : Usage) (key : CacheKey) : Option CacheEntry := u.puts.lookup key

/-- From now on, whatever a key is answered with is its latest response, within its
time, and the cache is no larger than it may be. -/
def Faithful (keys : Set CacheKey) (u : Usage) : Prop :=
  (∀ key ∈ keys, ∀ now, u.clock ≤ now → ∀ e, (u.cache.get key now).1 = some e →
    u.latest key = some e.unserved ∧ elapsedSecs e.cachedAt now < e.ttlSecs.toNat) ∧
  u.cache.map.entries.length ≤ u.cache.maxSize

/-- A `put` for a key that is answered is in the cache afterwards. -/
def Kept (u : Usage) (e : Event) : Prop :=
  ∀ key body status headers ttlSecs, e.op = .put key body status headers ttlSecs →
    (u.cache.get key (u.clock + e.wait)).1.isSome →
    ((u.next e).cache.map.lookup key.hash).map CacheEntry.unserved =
      some (ResponseCache.entryOf body status headers ttlSecs (u.clock + e.wait))

/-- A `put` finds room, or its key is not answered (or with the very same entry); and no
other key of the run is joined to the same text. -/
def Clear (keys : Set CacheKey) (u : Usage) (e : Event) : Prop :=
  ∀ key body status headers ttlSecs, e.op = .put key body status headers ttlSecs →
    let now := u.clock + e.wait
    let entry := ResponseCache.entryOf body status headers ttlSecs now
    if u.cache.maxSize ≤ (u.cache.evictExpired now).map.entries.length then
      ∀ old, (u.cache.get key now).1 = some old → old.unserved = entry
    else
      0 < ttlSecs → ∀ other ∈ keys, other.joined = key.joined →
        other = key ∨ u.latest other = some entry

variable {keys : Set CacheKey} {u : Usage} {e : Event}

theorem answer_iff {key : CacheKey} {now : Instant} {found : CacheEntry} :
    (u.cache.get key now).1 = some found ↔
      ∃ e, u.cache.live key.hash now = some e ∧ { e with hitCount := e.hitCount + 1 } = found := by
  rw [ResponseCache.get_fst, Option.map_eq_some_iff]

theorem latest_cons {key other : CacheKey} {entry : CacheEntry} {cache : ResponseCache}
    {now : Instant} {puts : List (CacheKey × CacheEntry)} :
    latest ⟨cache, now, (key, entry) :: puts⟩ other =
      if other = key then some entry else puts.lookup other := by
  unfold latest
  rw [List.lookup_cons]
  by_cases h : other = key
  · simp [h]
  · rw [beq_false_of_ne h, if_neg h]

theorem hash_eq_iff {key other : CacheKey}
    (hinj : Set.InjOn fnv1a (CacheKey.joinedBytes '' keys)) (hk : key ∈ keys) (ho : other ∈ keys) :
    other.hash = key.hash ↔ other.joined = key.joined := by
  unfold CacheKey.hash
  rw [hinj.eq_iff (Set.mem_image_of_mem _ ho) (Set.mem_image_of_mem _ hk)]
  unfold CacheKey.joinedBytes
  rw [Array.toList_inj, ← ByteArray.ext_iff]
  exact String.toByteArray_inj

/-- It is enough to look at what is live now. -/
theorem faithful_iff : u.Faithful keys ↔
    (∀ key ∈ keys, ∀ e, u.cache.live key.hash u.clock = some e →
      u.latest key = some e.unserved) ∧
    u.cache.map.entries.length ≤ u.cache.maxSize := by
  refine and_congr_left fun _ => ⟨fun h key hk e hl => ?_, fun h key hk now hnow found hf => ?_⟩
  · exact (h key hk u.clock (Nat.le_refl _) _ (answer_iff.mpr ⟨e, hl, rfl⟩)).1
  · obtain ⟨e, hl, rfl⟩ := answer_iff.mp hf
    refine ⟨h key hk e (ResponseCache.live_of_later hnow hl), ?_⟩
    have hx := (ResponseCache.live_eq_some.mp hl).2
    simp only [CacheEntry.isExpired, decide_eq_false_iff_not, Nat.not_le] at hx
    exact hx

/-- An operation that stores nothing keeps a faithful cache faithful. -/
theorem faithful_of_shrinks {cache : ResponseCache} {now : Instant} (hf : u.Faithful keys)
    (hnow : u.clock ≤ now) (hs : ResponseCache.Shrinks u.cache cache now) :
    Faithful keys { u with cache := cache, clock := now } := by
  obtain ⟨hlive, hlen⟩ := faithful_iff.mp hf
  obtain ⟨hold, hle, hmax⟩ := hs
  refine faithful_iff.mpr ⟨fun key hk e hl => ?_, ?_⟩
  · obtain ⟨e₀, hl₀, he⟩ := hold key.hash e hl
    rw [← he]
    exact hlive key hk e₀ (ResponseCache.live_of_later hnow hl₀)
  · rw [hmax]
    exact Nat.le_trans hle hlen

section Puts

variable {key : CacheKey} {entry : CacheEntry} {now : Instant} {cache : ResponseCache}

/-- A dropped response leaves the cache faithful where its key is not answered otherwise. -/
theorem faithful_dropped_iff (hk : key ∈ keys) (hf : u.Faithful keys) (hnow : u.clock ≤ now) :
    Faithful keys ⟨u.cache.evictExpired now, now, (key, entry) :: u.puts⟩ ↔
      ∀ old, (u.cache.get key now).1 = some old → old.unserved = entry := by
  obtain ⟨hlive, hlen⟩ := faithful_iff.mp hf
  have hsame : ∀ h, (u.cache.evictExpired now).live h now = u.cache.live h now := by
    intro h
    ext e
    rw [ResponseCache.live_eq_some, ResponseCache.live_eq_some, ResponseCache.evictExpired,
      AList.lookup_retain_eq_some]
    simp
  rw [faithful_iff]
  constructor
  · intro h old hold
    obtain ⟨e, hl, rfl⟩ := answer_iff.mp hold
    have he := h.1 key hk e ((hsame _).trans hl)
    rw [latest_cons, if_pos rfl] at he
    exact (Option.some.inj he).symm
  · intro h
    refine ⟨fun other ho e hl => ?_, Nat.le_trans AList.retain_le hlen⟩
    have hl' : u.cache.live other.hash now = some e := (hsame _).symm.trans hl
    rw [latest_cons]
    by_cases hkey : other = key
    · subst hkey
      rw [if_pos rfl, ← h _ (answer_iff.mpr ⟨e, hl', rfl⟩)]
      rfl
    · rw [if_neg hkey]
      exact hlive other ho e (ResponseCache.live_of_later hnow hl')

variable (entry) in
/-- A stored response leaves the cache faithful where no other key is joined to the same text. -/
theorem faithful_stored_iff (hinj : Set.InjOn fnv1a (CacheKey.joinedBytes '' keys))
    (hk : key ∈ keys) (hf : u.Faithful keys) (hnow : u.clock ≤ now)
    (hs : ResponseCache.Shrinks u.cache cache now)
    (hroom : cache.map.entries.length < u.cache.maxSize) (hat : entry.cachedAt = now)
    (hhits : entry.unserved = entry) :
    Faithful keys ⟨{ cache with map := cache.map.insert key.hash entry }, now,
        (key, entry) :: u.puts⟩ ↔
      (0 < entry.ttlSecs → ∀ other ∈ keys, other.joined = key.joined →
        other = key ∨ u.latest other = some entry) := by
  obtain ⟨hlive, _⟩ := faithful_iff.mp hf
  have hfresh : entry.isExpired now = false ↔ 0 < entry.ttlSecs := by
    rw [CacheEntry.isExpired, hat, elapsedSecs_self, UInt64.lt_iff_toNat_lt]
    simp
  have hlen : (cache.map.insert key.hash entry).entries.length ≤ cache.maxSize := by
    have := AList.insert_length_le (s := cache.map) key.hash entry
    rw [hs.2.2]
    omega
  rw [faithful_iff]
  constructor
  · intro h httl other ho hjoin
    have hhash := (hash_eq_iff hinj hk ho).mpr hjoin
    have he := h.1 other ho entry (ResponseCache.live_eq_some.mpr
      ⟨by rw [hhash]; exact AList.lookup_insert _, hfresh.mpr httl⟩)
    rw [latest_cons, hhits] at he
    by_cases hkey : other = key
    · exact Or.inl hkey
    · rw [if_neg hkey] at he
      exact Or.inr he
  · intro h
    refine ⟨fun other ho e hl => ?_, hlen⟩
    obtain ⟨hm, hx⟩ := ResponseCache.live_eq_some.mp hl
    rw [latest_cons]
    by_cases hhash : other.hash = key.hash
    · rw [hhash] at hm
      obtain rfl : entry = e := by
        rw [AList.lookup_insert] at hm
        exact Option.some.inj hm
      rcases h (hfresh.mp hx) other ho ((hash_eq_iff hinj hk ho).mp hhash) with hkey | hother
      · rw [if_pos hkey, hhits]
      · by_cases hkey : other = key
        · rw [if_pos hkey, hhits]
        · rw [if_neg hkey, hhits]
          exact hother
    · have hkey : other ≠ key := fun hkey => hhash (congrArg CacheKey.hash hkey)
      rw [AList.lookup_insert_ne hhash] at hm
      obtain ⟨e₀, hl₀, he⟩ := hs.1 other.hash e (ResponseCache.live_eq_some.mpr ⟨hm, hx⟩)
      rw [if_neg hkey, ← he]
      exact hlive other ho e₀ (ResponseCache.live_of_later hnow hl₀)

end Puts

/-- One call keeps the cache faithful exactly where it is clear. -/
theorem next_faithful_iff (hinj : Set.InjOn fnv1a (CacheKey.joinedBytes '' keys))
    (he : e.Within keys) (hf : u.Faithful keys) : (u.next e).Faithful keys ↔ u.Clear keys e := by
  obtain ⟨wait, op⟩ := e
  have hnow : u.clock ≤ u.clock + wait := Nat.le_add_right _ _
  cases op with
  | put key body status headers ttlSecs =>
    have hclear : u.Clear keys ⟨wait, .put key body status headers ttlSecs⟩ ↔
        if u.cache.maxSize ≤ (u.cache.evictExpired (u.clock + wait)).map.entries.length then
          ∀ old, (u.cache.get key (u.clock + wait)).1 = some old →
            old.unserved = ResponseCache.entryOf body status headers ttlSecs (u.clock + wait)
        else 0 < ttlSecs → ∀ other ∈ keys, other.joined = key.joined → other = key ∨
          u.latest other = some (ResponseCache.entryOf body status headers ttlSecs (u.clock + wait)) := by
      constructor
      · intro h
        exact h key body status headers ttlSecs rfl
      · intro h key' body' status' headers' ttlSecs' heq
        cases heq
        exact h
    rw [hclear]
    rcases u.cache.put_cases key body status headers ttlSecs (u.clock + wait) with
        ⟨hfull, hput⟩ | ⟨hroom, kept, hs, hlen, hput⟩
    · rw [if_pos hfull, ← faithful_dropped_iff he hf hnow, ← hput]
      rfl
    · rw [if_neg hroom]
      have h := faithful_stored_iff
        (ResponseCache.entryOf body status headers ttlSecs (u.clock + wait))
        hinj he hf hnow hs hlen rfl rfl
      rw [← hput] at h
      exact h
  | get key =>
    have hs : ResponseCache.Shrinks u.cache (u.cache.get key (u.clock + wait)).2 (u.clock + wait) :=
      ResponseCache.shrinks_get
    exact ⟨fun _ _ _ _ _ _ hop => Op.noConfusion hop, fun _ => faithful_of_shrinks hf hnow hs⟩
  | evictExpired =>
    have hs : ResponseCache.Shrinks u.cache (u.cache.evictExpired (u.clock + wait))
        (u.clock + wait) := ResponseCache.shrinks_retain _
    exact ⟨fun _ _ _ _ _ _ hop => Op.noConfusion hop, fun _ => faithful_of_shrinks hf hnow hs⟩
  | invalidate pathPrefix =>
    have hs : ResponseCache.Shrinks u.cache (u.cache.invalidate pathPrefix) (u.clock + wait) :=
      ResponseCache.shrinks_retain _
    exact ⟨fun _ _ _ _ _ _ hop => Op.noConfusion hop, fun _ => faithful_of_shrinks hf hnow hs⟩

/-- A cache that stays faithful has kept what was put for an answered key. -/
theorem kept_of_faithful (hinj : Set.InjOn fnv1a (CacheKey.joinedBytes '' keys))
    (he : e.Within keys) (hf : u.Faithful keys) (hf' : (u.next e).Faithful keys) : u.Kept e := by
  intro key body status headers ttlSecs hop hanswered
  obtain ⟨wait, op⟩ := e
  subst hop
  have hk : key ∈ keys := he
  obtain ⟨old, hold⟩ := Option.isSome_iff_exists.mp hanswered
  have hclear := (next_faithful_iff hinj he hf).mp hf' key body status headers ttlSecs rfl
  change ((u.cache.put key body status headers ttlSecs (u.clock + wait)).map.lookup key.hash).map
    CacheEntry.unserved = _
  rcases u.cache.put_cases key body status headers ttlSecs (u.clock + wait) with
      ⟨hfull, hput⟩ | ⟨_, kept, _, _, hput⟩
  · dsimp only at hclear
    rw [if_pos hfull] at hclear
    have hsame := hclear old hold
    obtain ⟨found, hl, rfl⟩ := answer_iff.mp hold
    obtain ⟨hm, hx⟩ := ResponseCache.live_eq_some.mp hl
    have hkept : (u.cache.evictExpired (u.clock + wait)).map.lookup key.hash = some found :=
      AList.lookup_retain_eq_some.mpr ⟨hm, by rw [hx]; rfl⟩
    rw [hput, hkept, Option.map_some, ← hsame]
    rfl
  · rw [hput]
    dsimp only
    rw [AList.lookup_insert]
    rfl

/-- A run of the cache is faithful and keeps what is put for answered keys exactly where
each `put` is clear. -/
theorem faithful_iff_clear (maxSize : Nat) (keys : Set CacheKey) (events : List Event)
    (hinj : Set.InjOn fnv1a (CacheKey.joinedBytes '' keys))
    (hkeys : ∀ e ∈ events, e.Within keys) :
    (Throughout step (Faithful keys) (start maxSize) events ∧
      EachStep step Kept (start maxSize) events) ↔
    EachStep step (Clear keys) (start maxSize) events := by
  have hstart : (start maxSize).Faithful keys := by
    rw [faithful_iff]
    refine ⟨fun key _ e hl => ?_, Nat.zero_le _⟩
    have hm := (ResponseCache.live_eq_some.mp hl).1
    cases hm
  have hrun : Throughout step (Faithful keys) (start maxSize) events ↔
      EachStep step (Clear keys) (start maxSize) events := by
    apply throughout_iff_eachStep hstart
    intro u e he u' hf hstep
    cases hstep
    exact next_faithful_iff hinj (hkeys e he) hf
  rw [← hrun, and_iff_left_iff_imp]
  intro h
  apply h.eachStep
  intro u e he u' hf hf' hstep
  cases hstep
  exact kept_of_faithful hinj (hkeys e he) hf hf'

/-- Two keys whose joined texts have different hashes. -/
theorem faithful_iff_clear_two :
    let keys : Set CacheKey := {⟨"GET", "/a", ""⟩, ⟨"GET", "/b", ""⟩}
    let events : List Event :=
      [⟨0, .put ⟨"GET", "/a", ""⟩ [1] 200 ∅ 60⟩, ⟨5, .put ⟨"GET", "/b", ""⟩ [2] 200 ∅ 60⟩,
        ⟨5, .get ⟨"GET", "/a", ""⟩⟩]
    (Throughout step (Faithful keys) (start 2) events ∧ EachStep step Kept (start 2) events) ↔
      EachStep step (Clear keys) (start 2) events := by
  intro keys events
  apply faithful_iff_clear
  · rw [Set.image_pair]
    have hne : fnv1a (CacheKey.joinedBytes ⟨"GET", "/a", ""⟩) ≠
        fnv1a (CacheKey.joinedBytes ⟨"GET", "/b", ""⟩) := by decide +kernel
    intro x hx y hy hxy
    rcases hx with rfl | rfl
    · rcases hy with rfl | rfl
      · rfl
      · exact absurd hxy hne
    · rcases hy with rfl | rfl
      · exact absurd hxy.symm hne
      · rfl
  · intro e he
    simp only [events, List.mem_cons, List.not_mem_nil, or_false] at he
    rcases he with rfl | rfl | rfl
    · exact Or.inl rfl
    · exact Or.inr rfl
    · exact Or.inl rfl

/-- A cache for one response keeps the first of two that are put for one key. -/
theorem full_cache_keeps_old : ¬ ∀ (maxSize : Nat) (keys : Set CacheKey) (events : List Event),
    Set.InjOn fnv1a (CacheKey.joinedBytes '' keys) → (∀ e ∈ events, e.Within keys) →
    Throughout step (Faithful keys) (start maxSize) events ∧
      EachStep step Kept (start maxSize) events := by
  intro h
  let key : CacheKey := ⟨"GET", "/a", ""⟩
  let events : List Event := [⟨0, .put key [1] 200 ∅ 60⟩, ⟨5, .put key [2] 200 ∅ 60⟩]
  have hinj : Set.InjOn fnv1a (CacheKey.joinedBytes '' {key}) := by
    rw [Set.image_singleton]
    exact Set.injOn_singleton _ _
  have hwithin : ∀ e ∈ events, e.Within {key} := by
    intro e he
    simp only [events, List.mem_cons, List.not_mem_nil, or_false] at he
    rcases he with rfl | rfl
    · exact rfl
    · exact rfl
  obtain ⟨_, hkept⟩ := h 1 {key} events hinj hwithin
  have hsecond := ((hkept _ rfl).2 _ rfl).1 key [2] 200 ∅ 60 rfl (by decide +kernel)
  have hbody := congrArg (Option.map CacheEntry.body) hsecond
  exact absurd hbody (by decide +kernel)

end Usage

end HelixRouter.ResponseCaching
