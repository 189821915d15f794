import HelixRouter.ResponseCaching.Faithful

namespace HelixRouter.ResponseCaching

open Runs

/-- `text.starts_with(beginning)`. -/
def startsWith (text beginning : String) : Bool := beginning.toList.isPrefixOf text.toList

/-- The entry carries a path that starts with the one given. -/
def CacheEntry.tagged (e : CacheEntry) (pathPrefix : String) : Bool :=
  (e.headers.lookup "X-Cache-Path").any (startsWith · pathPrefix)

namespace ResponseCache

variable {cache : ResponseCache} {key : CacheKey} {now : Instant} {h : UInt64}
  {e : CacheEntry} {pathPrefix : String}

/-- A `put` finds room, if need be by dropping what has expired. -/
def hasRoom (cache : ResponseCache) (now : Instant) : Bool :=
  (cache.evictExpired now).map.entries.length < cache.maxSize

theorem lookup_invalidate : (cache.invalidate pathPrefix).map.lookup h = some e ↔
    cache.map.lookup h = some e ∧ e.tagged pathPrefix = false := by
  simp [invalidate, AList.lookup_retain_eq_some, CacheEntry.tagged, startsWith]

theorem isSome_lookup_retain {keep : UInt64 → CacheEntry → Bool}
    (hs : ((cache.map.retain keep).lookup h).isSome) : (cache.map.lookup h).isSome := by
  obtain ⟨e, he⟩ := Option.isSome_iff_exists.mp hs
  exact Option.isSome_iff_exists.mpr ⟨e, (AList.lookup_retain_eq_some.mp he).1⟩

theorem isSome_lookup_get (hs : ((cache.get key now).2.map.lookup h).isSome) :
    (cache.map.lookup h).isSome := by
  unfold get at hs
  split at hs
  · exact hs
  rename_i found hfound
  by_cases hh : h = key.hash
  · rw [hh, hfound]
    rfl
  · split at hs
    · rwa [AList.lookup_erase_ne hh] at hs
    · rwa [AList.lookup_insert_ne hh] at hs

/-- A `put` that finds room fills the place of its key, and no `put` another one. -/
theorem isSome_lookup_put {body : List UInt8} {status : UInt16} {headers : Headers}
    {ttlSecs : UInt64}
    (hs : ((cache.put key body status headers ttlSecs now).map.lookup h).isSome) :
    (cache.hasRoom now = true ∧ h = key.hash) ∨ (cache.map.lookup h).isSome := by
  have hle : (cache.evictExpired now).map.entries.length ≤ cache.map.entries.length :=
    AList.retain_le
  unfold put at hs
  dsimp only at hs
  by_cases hfull : cache.maxSize ≤ cache.map.entries.length
  · simp only [hfull, if_true, true_and] at hs
    split at hs
    · exact Or.inr (isSome_lookup_retain hs)
    · rename_i hroom
      by_cases hh : h = key.hash
      · exact Or.inl ⟨decide_eq_true (Nat.lt_of_not_le hroom), hh⟩
      · rw [AList.lookup_insert_ne hh] at hs
        exact Or.inr (isSome_lookup_retain hs)
  · simp only [hfull, if_false, false_and] at hs
    by_cases hh : h = key.hash
    · exact Or.inl ⟨decide_eq_true (by omega), hh⟩
    · rw [AList.lookup_insert_ne hh] at hs
      exact Or.inr hs

end ResponseCache

/-- A cache in use, and the key of the `put` that filled each place. -/
structure Tracked where
  usage : Usage
  owner : UInt64 → Option CacheKey := fun _ => none

namespace Tracked

def start (maxSize : Nat) : Tracked := { usage := .start maxSize }

def next (t : Tracked) (e : Event) : Tracked where
  usage := t.usage.next e
  owner :=
    match e.op with
    | .put key _ _ _ _ =>
      if t.usage.cache.hasRoom (t.usage.clock + e.wait) then
        Function.update t.owner key.hash (some key)
      else t.owner
    | _ => t.owner

def step (t : Tracked) (e : Event) : Option Tracked := some (t.next e)

/-- What is in the cache was put there for a key of that hash. -/
def Owned (t : Tracked) : Prop :=
  ∀ h, (t.usage.cache.map.lookup h).isSome → ∃ key, t.owner h = some key ∧ key.hash = h

/-- Once the paths that start so are invalidated, none of the keys with such a path is
answered, and the entries of other paths are as before. -/
structure Invalidates (keys : Set CacheKey) (pathPrefix : String) (t : Tracked) : Prop where
  complete : ∀ key ∈ keys, startsWith key.path pathPrefix = true → ∀ now, t.usage.clock ≤ now →
    ((t.usage.cache.invalidate pathPrefix).get key now).1 = none
  untouched : ∀ h e key, t.usage.cache.map.lookup h = some e → t.owner h = some key →
    startsWith key.path pathPrefix = false →
    (t.usage.cache.invalidate pathPrefix).map.lookup h = some e

/-- No entry of another path is tagged with one that starts so, and every entry is that has
not expired and has the hash of a key whose path does. -/
structure Tagged (keys : Set CacheKey) (pathPrefix : String) (t : Tracked) : Prop where
  others : ∀ h e key, t.usage.cache.map.lookup h = some e → t.owner h = some key →
    startsWith key.path pathPrefix = false → e.tagged pathPrefix = false
  own : ∀ h e, t.usage.cache.map.lookup h = some e → e.isExpired t.usage.clock = false →
    ∀ key ∈ keys, key.hash = h → startsWith key.path pathPrefix = true →
    e.tagged pathPrefix = true

variable {t : Tracked} {keys : Set CacheKey} {pathPrefix : String}

theorem owned_next {e : Event} (ho : t.Owned) : (t.next e).Owned := by
  intro h hs
  obtain ⟨wait, op⟩ := e
  cases op with
  | put key body status headers ttlSecs =>
    dsimp only [next]
    split
    · rename_i hroom
      by_cases hh : h = key.hash
      · subst hh
        exact ⟨key, Function.update_self .., rfl⟩
      · rw [Function.update_of_ne hh]
        refine ho h ((ResponseCache.isSome_lookup_put hs).resolve_left fun hput => hh hput.2)
    · rename_i hroom
      exact ho h ((ResponseCache.isSome_lookup_put hs).resolve_left fun hput => hroom hput.1)
  | get key => exact ho h (ResponseCache.isSome_lookup_get hs)
  | evictExpired => exact ho h (ResponseCache.isSome_lookup_retain hs)
  | invalidate pathPrefix => exact ho h (ResponseCache.isSome_lookup_retain hs)

/-- What an invalidation leaves is answered as before. -/
theorem get_invalidate_eq_none_iff {cache : ResponseCache} {key : CacheKey} {now : Instant} :
    ((cache.invalidate pathPrefix).get key now).1 = none ↔
      ∀ e, cache.map.lookup key.hash = some e → e.isExpired now = false →
        e.tagged pathPrefix = true := by
  rw [ResponseCache.get_fst, Option.map_eq_none_iff, Option.eq_none_iff_forall_ne_some]
  refine forall_congr' fun e => ?_
  rw [Ne, ResponseCache.live_eq_some, ResponseCache.lookup_invalidate]
  simp only [not_and, Bool.not_eq_false]
  constructor
  · intro h hm hx
    by_contra ht
    exact absurd (h ⟨hm, Bool.eq_false_iff.mpr ht⟩) (by simp [hx])
  · intro h hm
    by_contra hx
    exact absurd (h hm.1 (Bool.eq_false_iff.mpr hx)) (by simp [hm.2])

theorem invalidates_iff : t.Invalidates keys pathPrefix ↔ t.Tagged keys pathPrefix := by
  constructor
  · intro h
    refine ⟨fun hash e key hm hown hpath => ?_, fun hash e hm hfresh key hk hh hpath => ?_⟩
    · exact (ResponseCache.lookup_invalidate.mp (h.untouched hash e key hm hown hpath)).2
    · subst hh
      exact get_invalidate_eq_none_iff.mp (h.complete key hk hpath _ (Nat.le_refl _)) e hm hfresh
  · intro h
    refine ⟨fun key hk hpath now hnow => ?_, fun hash e key hm hown hpath => ?_⟩
    · refine get_invalidate_eq_none_iff.mpr fun e hm hfresh => ?_
      exact h.own key.hash e hm (ResponseCache.isExpired_mono hnow hfresh) key hk rfl hpath
    · exact ResponseCache.lookup_invalidate.mpr ⟨hm, h.others hash e key hm hown hpath⟩

/-- Where no two keys have one hash, only the path of an entry's own key matters. -/
theorem tagged_iff_of_injOn (hinj : Set.InjOn CacheKey.hash keys) (ho : t.Owned)
    (hkeys : ∀ h key, t.owner h = some key → key ∈ keys) :
    t.Tagged keys pathPrefix ↔
      ∀ h e key, t.usage.cache.map.lookup h = some e → t.owner h = some key →
        if startsWith key.path pathPrefix then
          e.isExpired t.usage.clock = false → e.tagged pathPrefix = true
        else e.tagged pathPrefix = false := by
  have howner : ∀ h e, t.usage.cache.map.lookup h = some e →
      ∃ key, t.owner h = some key ∧ key.hash = h :=
    fun h e hm => ho h (Option.isSome_iff_exists.mpr ⟨e, hm⟩)
  constructor
  · intro ht h e key hm hown
    split
    · rename_i hpath
      intro hfresh
      obtain ⟨key', hown', hh⟩ := howner h e hm
      rw [hown] at hown'
      obtain rfl := Option.some.inj hown'
      exact ht.own h e hm hfresh key (hkeys h key hown) hh hpath
    · rename_i hpath
      exact ht.others h e key hm hown (Bool.eq_false_iff.mpr hpath)
  · intro hall
    refine ⟨fun h e key hm hown hpath => ?_, fun h e hm hfresh key hk hh hpath => ?_⟩
    · simpa [hpath] using hall h e key hm hown
    · obtain ⟨key', hown, hh'⟩ := howner h e hm
      obtain rfl := hinj (hkeys h key' hown) hk (hh'.trans hh.symm)
      have hentry := hall h e key' hm hown
      rw [if_pos hpath] at hentry
      exact hentry hfresh

/-- After any calls, each entry stands at the hash of the key it was put there for, and an
invalidation is complete and leaves the other paths alone exactly where what is in the cache
is tagged with its paths. -/
theorem invalidates_iff_tagged (keys : Set CacheKey) (maxSize : Nat) (events : List Event) :
    Throughout step (fun t => t.Owned ∧
      ∀ pathPrefix, t.Invalidates keys pathPrefix ↔ t.Tagged keys pathPrefix)
      (start maxSize) events := by
  apply throughout_of_step
  · refine ⟨fun h hs => ?_, fun _ => invalidates_iff⟩
    cases hs
  · intro t e t' h hstep
    cases hstep
    exact ⟨owned_next h.1, fun _ => invalidates_iff⟩

/-- An entry without a tag is still answered. -/
theorem untagged_entry_answered : ¬ ∀ (maxSize : Nat) (events : List Event),
    Throughout step (fun t => ∀ pathPrefix, t.Invalidates Set.univ pathPrefix)
      (start maxSize) events := by
  intro h
  let key : CacheKey := ⟨"GET", "/users", ""⟩
  have hafter := ((h 1 [⟨0, .put key [1] 200 ∅ 60⟩]).2 _ rfl "/users").complete
    key trivial (by decide +kernel) 0 (Nat.le_refl _)
  exact absurd (congrArg Option.isSome hafter) (by decide +kernel)

end Tracked

end HelixRouter.ResponseCaching
