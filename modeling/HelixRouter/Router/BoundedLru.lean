import HelixRouter.Containers.Recency
import HelixRouter.Router.ResultCache
import Mathlib.Data.List.Induction

namespace HelixRouter.ResultCache

open Containers

inductive CacheOp where
  | get (job : Job)
  | insert (job : Job) (result : List Char)
  | evictExpired

/-- What the cache is asked, and when. -/
abbrev CacheCall := Nat × CacheOp

def apply (cache : ResultCache) : CacheCall → ResultCache
  | (now, .get job) => (cache.get job now).2
  | (now, .insert job result) => cache.insert job result now
  | (now, .evictExpired) => (cache.evictExpired now).2

def after (config : CacheConfig) (calls : List CacheCall) : ResultCache :=
  calls.foldl apply { config := config }

/-- The key a call uses: that of a hit or of an insert. -/
def used (cache : ResultCache) : CacheCall → List UInt64
  | (now, .get job) => if (cache.get job now).1.isSome then [jobKey job] else []
  | (_, .insert job _) => [jobKey job]
  | (_, .evictExpired) => []

def usesFrom (cache : ResultCache) : List CacheCall → List UInt64
  | [] => []
  | call :: calls => cache.used call ++ usesFrom (cache.apply call) calls

/-- The keys that were used, in the order of their uses. -/
def uses (config : CacheConfig) (calls : List CacheCall) : List UInt64 :=
  usesFrom { config := config } calls

def CacheOp.isGet : CacheOp → Bool
  | .get _ => true
  | _ => false

def CacheOp.isInsert : CacheOp → Bool
  | .insert _ _ => true
  | _ => false

def gets (calls : List CacheCall) : Nat := calls.countP fun call => call.2.isGet

/-- The two structures hold the same keys, one of them by recency. -/
structure Ordered (cache : ResultCache) (uses : List UInt64) : Prop where
  recency : ByRecency cache.lruOrder uses
  keys : ∀ key, key ∈ cache.lruOrder ↔ key ∈ cache.entries

/-- A bounded map in the order of recency, with its statistics. -/
structure BoundedLru (cache : ResultCache) (uses : List UInt64) (gets : Nat) : Prop
    extends Ordered cache uses where
  bound : cache.entries.entries.length ≤ cache.config.maxEntries
  counts : cache.hits + cache.misses = gets

/-- A new key in a full cache takes the place of the least recently used one, and of no other. -/
def EvictsOldest (cache : ResultCache) : CacheCall → Prop
  | (now, .insert job result) => jobKey job ∉ cache.entries →
      cache.config.maxEntries ≤ cache.entries.entries.length →
      ∃ oldest order, cache.lruOrder = oldest :: order ∧
        ∀ key, key ∈ (cache.insert job result now).entries ↔
          key = jobKey job ∨ key ∈ cache.entries ∧ key ≠ oldest
  | _ => True

section Steps

variable {cache : ResultCache} {uses : List UInt64} {job : Job} {result : List Char} {now : Nat}

theorem Ordered.length_eq (h : Ordered cache uses) :
    cache.lruOrder.length = cache.entries.entries.length := by
  have hperm : cache.lruOrder.Perm cache.entries.keys :=
    (List.perm_ext_iff_of_nodup h.recency.nodup cache.entries.keys_nodup).mpr fun key => by
      rw [h.keys, AList.mem_keys]
  rw [hperm.length_eq, AList.keys, List.keys, List.length_map]

/-- A key in the order goes to its end. -/
theorem Ordered.promote (h : Ordered cache uses) {key : UInt64} (hk : key ∈ cache.entries) :
    ByRecency (promote key cache.lruOrder) (uses ++ [key]) ∧
      ∀ k, k ∈ HelixRouter.promote key cache.lruOrder ↔ k ∈ cache.entries := by
  have hmem := (h.keys key).mpr hk
  rw [HelixRouter.promote, if_pos hmem]
  refine ⟨h.recency.use key, fun k => ?_⟩
  rw [List.mem_append, h.recency.nodup.mem_erase_iff, List.mem_singleton, h.keys]
  by_cases hkk : k = key
  · simp [hkk, hk]
  · simp [hkk]

theorem Ordered.get (h : Ordered cache uses) :
    Ordered (cache.get job now).2 (uses ++ cache.used (now, .get job)) := by
  cases hl : cache.entries.lookup (jobKey job) with
  | none =>
    simp only [used, ResultCache.get, hl, Option.isSome_none, Bool.false_eq_true, if_false,
      List.append_nil]
    exact ⟨h.recency, h.keys⟩
  | some entry =>
    simp only [used, ResultCache.get, hl]
    split
    · simp only [Option.isSome_none, Bool.false_eq_true, if_false, List.append_nil]
      exact ⟨h.recency, h.keys⟩
    · have hmem : jobKey job ∈ cache.entries := AList.lookup_isSome.mp (by rw [hl]; rfl)
      obtain ⟨hrecency, hkeys⟩ := h.promote hmem
      refine ⟨hrecency, fun key => ?_⟩
      rw [hkeys, AList.mem_insert]
      exact ⟨Or.inr, fun hk => hk.elim (fun he => he ▸ hmem) id⟩

theorem Ordered.remove (h : Ordered cache uses) (key : UInt64) :
    Ordered (cache.remove key) uses := by
  refine ⟨h.recency.sublist List.erase_sublist, fun k => ?_⟩
  simp only [ResultCache.remove, h.recency.nodup.mem_erase_iff, AList.mem_erase, h.keys]

theorem Ordered.evictExpired (h : Ordered cache uses) :
    Ordered (cache.evictExpired now).2 uses := by
  unfold ResultCache.evictExpired
  generalize cache.expiredKeys now = expired
  induction expired generalizing cache with
  | nil => exact h
  | cons key expired ih => exact ih (h.remove key)

theorem length_erase_of_mem {key : UInt64} (hk : key ∈ cache.entries) :
    (cache.entries.erase key).entries.length + 1 = cache.entries.entries.length := by
  have hlen : ∀ m : AList (fun _ : UInt64 => CacheEntry), m.keys.length = m.entries.length :=
    fun m => List.length_map _
  rw [← hlen, ← hlen, AList.keys_erase, List.length_erase_of_mem (AList.mem_keys.mp hk)]
  have := List.length_pos_of_mem (AList.mem_keys.mp hk)
  omega

theorem evict_config (cache : ResultCache) (order : List UInt64) :
    (cache.evict order).config = cache.config ∧ (cache.evict order).hits = cache.hits ∧
      (cache.evict order).misses = cache.misses := by
  induction order generalizing cache with
  | nil => exact ⟨rfl, rfl, rfl⟩
  | cons oldest order ih =>
    unfold ResultCache.evict
    split
    · exact ih _
    · exact ⟨rfl, rfl, rfl⟩

theorem evict_entries_of_lt {order : List UInt64}
    (hlt : cache.entries.entries.length < cache.config.maxEntries) :
    (cache.evict order).entries = cache.entries := by
  cases order with
  | nil => rfl
  | cons oldest order =>
    unfold ResultCache.evict
    rw [if_neg (Nat.not_le.mpr hlt)]

/-- Evicting drops the front of the order, up to a free place or to the end. -/
structure Evicted (order : List UInt64) (uses : List UInt64) (cache : ResultCache) : Prop
    extends Ordered cache uses where
  suffix : cache.lruOrder <:+ order
  room : cache.entries.entries.length < cache.config.maxEntries ∨ cache.lruOrder = []

theorem Ordered.evict {order : List UInt64} (h : Ordered { cache with lruOrder := order } uses) :
    Evicted order uses (cache.evict order) := by
  induction order generalizing cache with
  | nil => exact ⟨h, List.suffix_refl _, Or.inr rfl⟩
  | cons oldest order ih =>
    unfold ResultCache.evict
    split
    · obtain ⟨hgone, hnodup⟩ := List.nodup_cons.mp h.recency.nodup
      have hnext : Ordered { cache with
          entries := cache.entries.erase oldest
          lruOrder := order
          evictions := cache.evictions + 1 } uses := by
        refine ⟨h.recency.sublist (List.sublist_cons_self oldest order), fun key => ?_⟩
        have hkey := h.keys key
        simp only [List.mem_cons] at hkey
        simp only [AList.mem_erase, ← hkey]
        constructor
        · exact fun hk => ⟨fun he => hgone (he ▸ hk), Or.inr hk⟩
        · exact fun hk => hk.2.resolve_left hk.1
      have hevicted : Evicted order uses (ResultCache.evict { cache with
          entries := cache.entries.erase oldest
          evictions := cache.evictions + 1 } order) := ih hnext
      exact ⟨hevicted.toOrdered, hevicted.suffix.trans (List.suffix_cons oldest order),
        hevicted.room⟩
    · rename_i hroom
      exact ⟨h, List.suffix_refl _, Or.inl (Nat.not_le.mp hroom)⟩

theorem Evicted.length_lt {order : List UInt64} (h : Evicted order uses cache)
    (hmax : cache.config.maxEntries ≠ 0) :
    cache.entries.entries.length < cache.config.maxEntries := by
  rcases h.room with hlt | hnil
  · exact hlt
  · rw [← h.length_eq, hnil]
    exact Nat.pos_of_ne_zero hmax

theorem Ordered.insert (h : Ordered cache uses) :
    Ordered (cache.insert job result now) (uses ++ [jobKey job]) := by
  cases hl : cache.entries.lookup (jobKey job) with
  | some entry =>
    have hmem : jobKey job ∈ cache.entries := AList.lookup_isSome.mp (by rw [hl]; rfl)
    obtain ⟨hrecency, hkeys⟩ := h.promote hmem
    simp only [ResultCache.insert, hl]
    refine ⟨hrecency, fun key => ?_⟩
    rw [hkeys, AList.mem_insert]
    exact ⟨Or.inr, fun hk => hk.elim (fun he => he ▸ hmem) id⟩
  | none =>
    have hnew : jobKey job ∉ cache.lruOrder := by
      rw [h.keys]
      exact AList.lookup_eq_none.mp hl
    have hevicted : Evicted cache.lruOrder uses (cache.evict cache.lruOrder) := Ordered.evict h
    have hgone : jobKey job ∉ (cache.evict cache.lruOrder).lruOrder :=
      fun hmem => hnew (hevicted.suffix.subset hmem)
    have huse := hevicted.recency.use (jobKey job)
    rw [List.erase_of_not_mem hgone] at huse
    simp only [ResultCache.insert, hl]
    refine ⟨huse, fun key => ?_⟩
    rw [List.mem_append, List.mem_singleton, hevicted.keys, AList.mem_insert, or_comm]

/-- What a call keeps, and what it uses. -/
theorem Ordered.apply (h : Ordered cache uses) (call : CacheCall) :
    Ordered (cache.apply call) (uses ++ cache.used call) := by
  obtain ⟨now, op⟩ := call
  cases op with
  | get job => exact h.get
  | insert job result => exact h.insert
  | evictExpired =>
    rw [used, List.append_nil]
    exact h.evictExpired

theorem evictExpired_keeps (cache : ResultCache) (now : Nat) :
    (cache.evictExpired now).2.config = cache.config ∧
      (cache.evictExpired now).2.hits = cache.hits ∧
      (cache.evictExpired now).2.misses = cache.misses ∧
      (cache.evictExpired now).2.entries.entries.length ≤ cache.entries.entries.length := by
  unfold ResultCache.evictExpired
  generalize cache.expiredKeys now = expired
  induction expired generalizing cache with
  | nil => exact ⟨rfl, rfl, rfl, Nat.le_refl _⟩
  | cons key expired ih =>
    obtain ⟨hconfig, hhits, hmisses, hlen⟩ := ih (cache.remove key)
    exact ⟨hconfig, hhits, hmisses, hlen.trans (List.kerase_sublist key _).length_le⟩

theorem apply_config (cache : ResultCache) (call : CacheCall) :
    (cache.apply call).config = cache.config := by
  obtain ⟨now, op⟩ := call
  cases op with
  | get job =>
    simp only [ResultCache.apply, ResultCache.get]
    split
    · rfl
    · split <;> rfl
  | insert job result =>
    simp only [ResultCache.apply, ResultCache.insert]
    split
    · rfl
    · exact (evict_config _ _).1
  | evictExpired => exact (evictExpired_keeps cache now).1

/-- A call counts as a hit or a miss exactly if it asks for a result. -/
theorem apply_counts (cache : ResultCache) (call : CacheCall) :
    (cache.apply call).hits + (cache.apply call).misses =
      cache.hits + cache.misses + gets [call] := by
  obtain ⟨now, op⟩ := call
  cases op with
  | get job =>
    simp only [ResultCache.apply, ResultCache.get, gets, CacheOp.isGet, List.countP_singleton, if_true]
    split
    · exact (Nat.add_assoc _ _ _).symm
    · split
      · exact (Nat.add_assoc _ _ _).symm
      · dsimp only
        omega
  | insert job result =>
    simp only [ResultCache.apply, ResultCache.insert, gets, CacheOp.isGet, List.countP_singleton,
      Bool.false_eq_true, if_false, Nat.add_zero]
    split
    · rfl
    · rw [(evict_config _ _).2.1, (evict_config _ _).2.2]
  | evictExpired =>
    obtain ⟨-, hhits, hmisses, -⟩ := evictExpired_keeps cache now
    simp only [ResultCache.apply, hhits, hmisses]
    rfl

theorem length_promote (key : UInt64) (order : List UInt64) :
    (HelixRouter.promote key order).length = order.length := by
  unfold HelixRouter.promote
  split
  · rename_i hk
    have hpos := List.length_pos_of_mem hk
    rw [List.length_append, List.length_singleton, List.length_erase_of_mem hk]
    omega
  · rfl

/-- A cache stays within its bound, if it may hold what it is given. -/
theorem Ordered.apply_bound (h : Ordered cache uses)
    (hb : cache.entries.entries.length ≤ cache.config.maxEntries) (call : CacheCall)
    (hmax : call.2.isInsert = true → cache.config.maxEntries ≠ 0) :
    (cache.apply call).entries.entries.length ≤ cache.config.maxEntries := by
  have hlen := (h.apply call).length_eq
  have hold := h.length_eq
  rw [← hlen]
  rw [← hold] at hb
  obtain ⟨now, op⟩ := call
  cases op with
  | get job =>
    simp only [ResultCache.apply, ResultCache.get]
    split
    · exact hb
    · split
      · exact hb
      · rw [length_promote]
        exact hb
  | insert job result =>
    simp only [ResultCache.apply, ResultCache.insert]
    split
    · rw [length_promote]
      exact hb
    · have hevicted : Evicted cache.lruOrder uses (cache.evict cache.lruOrder) := Ordered.evict h
      have hconfig := (evict_config cache cache.lruOrder).1
      have hlt := hevicted.length_lt (hconfig ▸ hmax rfl)
      rw [← hevicted.length_eq, hconfig] at hlt
      rw [List.length_append, List.length_singleton]
      exact hlt
  | evictExpired =>
    rw [hlen]
    rw [hold] at hb
    exact (evictExpired_keeps cache now).2.2.2.trans hb

theorem Ordered.evictsOldest (h : Ordered cache uses)
    (hb : cache.entries.entries.length ≤ cache.config.maxEntries) (call : CacheCall)
    (hmax : call.2.isInsert = true → cache.config.maxEntries ≠ 0) :
    EvictsOldest cache call := by
  obtain ⟨now, op⟩ := call
  cases op with
  | get job => trivial
  | evictExpired => trivial
  | insert job result =>
    intro hnew hfull
    have hlen := h.length_eq
    cases horder : cache.lruOrder with
    | nil =>
      rw [horder, List.length_nil] at hlen
      exact absurd (Nat.le_zero.mp (hlen ▸ hfull)) (hmax rfl)
    | cons oldest order =>
      refine ⟨oldest, order, rfl, fun key => ?_⟩
      have hmem : oldest ∈ cache.entries := (h.keys oldest).mp (horder ▸ List.mem_cons_self)
      have hroom := length_erase_of_mem hmem
      have hentries : (cache.evict (oldest :: order)).entries = cache.entries.erase oldest := by
        rw [ResultCache.evict, if_pos hfull]
        apply evict_entries_of_lt
        dsimp only
        omega
      simp only [ResultCache.insert, AList.lookup_eq_none.mpr hnew, horder]
      rw [hentries, AList.mem_insert, AList.mem_erase]
      exact or_congr_right and_comm

end Steps

section Runs

variable {config : CacheConfig} {cache : ResultCache} {calls : List CacheCall}

theorem usesFrom_append (cache : ResultCache) (calls rest : List CacheCall) :
    usesFrom cache (calls ++ rest) =
      usesFrom cache calls ++ usesFrom (calls.foldl apply cache) rest := by
  induction calls generalizing cache with
  | nil => rfl
  | cons call calls ih => rw [List.cons_append, usesFrom, ih, usesFrom, List.append_assoc]; rfl

theorem after_concat (calls : List CacheCall) (call : CacheCall) :
    after config (calls ++ [call]) = (after config calls).apply call := by
  simp [after]

theorem uses_concat (calls : List CacheCall) (call : CacheCall) :
    uses config (calls ++ [call]) = uses config calls ++ (after config calls).used call := by
  rw [uses, usesFrom_append]
  simp [usesFrom, uses, after]

theorem after_config (calls : List CacheCall) : (after config calls).config = config := by
  induction calls using List.reverseRecOn with
  | nil => rfl
  | append_singleton calls call ih => rw [after_concat, apply_config, ih]

theorem after_ordered (calls : List CacheCall) :
    Ordered (after config calls) (uses config calls) := by
  induction calls using List.reverseRecOn with
  | nil => exact ⟨List.nil_sublist _, fun _ => Iff.rfl⟩
  | append_singleton calls call ih =>
    rw [after_concat, uses_concat]
    exact ih.apply call

theorem after_counts (calls : List CacheCall) :
    (after config calls).hits + (after config calls).misses = gets calls := by
  induction calls using List.reverseRecOn with
  | nil => rfl
  | append_singleton calls call ih =>
    rw [after_concat, apply_counts, ih, gets, gets, gets, List.countP_append]

theorem after_bound (calls : List CacheCall)
    (hmax : config.maxEntries = 0 → ∀ call ∈ calls, call.2.isInsert = false) :
    (after config calls).entries.entries.length ≤ config.maxEntries := by
  induction calls using List.reverseRecOn with
  | nil => exact Nat.zero_le _
  | append_singleton calls call ih =>
    have hprev := ih fun hzero c hc => hmax hzero c (List.mem_append_left _ hc)
    have hb := (@after_ordered config calls).apply_bound (by rw [after_config]; exact hprev) call
    rw [after_config] at hb
    rw [after_concat]
    apply hb
    intro hinsert hzero
    have := hmax hzero call (List.mem_append_right _ List.mem_cons_self)
    rw [this] at hinsert
    nomatch hinsert

/-- A cache for no entries holds the one that was inserted last. -/
theorem insert_nonempty (cache : ResultCache) (job : Job) (result : List Char) (now : Nat) :
    0 < (cache.insert job result now).entries.entries.length := by
  have hmem : jobKey job ∈ (cache.insert job result now).entries := by
    unfold ResultCache.insert
    dsimp only
    split <;> exact (AList.mem_insert _).mpr (Or.inl rfl)
  have hpos := List.length_pos_of_mem (AList.mem_keys.mp hmem)
  rw [AList.keys, List.keys, List.length_map] at hpos
  exact hpos

end Runs

/-- Along every sequence of calls the cache is a bounded map in the order of recency, which
makes room for a new key at the expense of the oldest, exactly if it may hold something or is
given nothing to hold. -/
theorem boundedLru_iff (config : CacheConfig) (calls : List CacheCall) :
    (∀ done rest, calls = done ++ rest →
        BoundedLru (after config done) (uses config done) (gets done) ∧
        ∀ next ∈ rest.head?, EvictsOldest (after config done) next) ↔
      (config.maxEntries = 0 → ∀ call ∈ calls, call.2.isInsert = false) := by
  constructor
  · rintro h hzero ⟨now, op⟩ hcall
    cases op with
    | get job => rfl
    | evictExpired => rfl
    | insert job result =>
      obtain ⟨done, rest, hsplit⟩ := List.append_of_mem hcall
      have hlru := (h (done ++ [(now, .insert job result)]) rest (by simp [hsplit])).1
      have hbound := hlru.bound
      rw [after_config, hzero, after_concat] at hbound
      exact absurd hbound (Nat.not_le.mpr (insert_nonempty _ job result now))
  · rintro h done rest rfl
    have hdone : config.maxEntries = 0 → ∀ call ∈ done, call.2.isInsert = false :=
      fun hzero call hc => h hzero call (List.mem_append_left _ hc)
    have hbound : (after config done).entries.entries.length ≤
        (after config done).config.maxEntries := by
      rw [after_config]
      exact after_bound done hdone
    refine ⟨⟨after_ordered done, hbound, after_counts done⟩, fun next hnext => ?_⟩
    apply (after_ordered done).evictsOldest hbound
    intro hinsert hzero
    rw [after_config] at hzero
    have := h hzero next (List.mem_append_right _ (List.mem_of_mem_head? hnext))
    rw [this] at hinsert
    nomatch hinsert

def holdNothing : CacheConfig := { maxEntries := 0 }

def insertOne : List CacheCall := [(0, .insert {} [])]

/-- A cache for no entries holds one. -/
theorem holdNothing_holds_one :
    ¬ BoundedLru (after holdNothing insertOne) (uses holdNothing insertOne) (gets insertOne) := by
  intro h
  have hpos := insert_nonempty { config := holdNothing } {} [] 0
  exact absurd h.bound (Nat.not_le.mpr hpos)

end HelixRouter.ResultCache
