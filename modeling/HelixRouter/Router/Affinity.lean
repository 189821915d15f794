import HelixRouter.Containers.IterationOrder
import HelixRouter.Containers.Oldest
import HelixRouter.Containers.Retain
import HelixRouter.Router.Types
import HelixRouter.Runs.Stepwise
import Mathlib.Data.List.Induction
import Mathlib.Data.List.MinMax

namespace HelixRouter.Affinity

open Runs Containers

structure AffinityGroup where
  id : UInt64
  kind : JobKind
  preferredStrategy : Strategy
  lastSeen : Instant
  deriving DecidableEq

structure AffinityStats where
  hits : UInt64 := 0
  misses : UInt64 := 0
  evictions : UInt64 := 0

structure AffinityConfig where
  enabled : Bool := true
  ttlSecs : Nat := 120
  maxGroups : Nat := 1024

abbrev Entry := Sigma fun _ : UInt64 => AffinityGroup

structure AffinityRouter where
  config : AffinityConfig
  table : AList fun _ : UInt64 => AffinityGroup := ∅
  stats : AffinityStats := {}

namespace AffinityRouter

def lookup (r : AffinityRouter) (groupId : UInt64) (now : Instant) :
    Option Strategy × AffinityRouter :=
  if !r.config.enabled then
    (none, { r with stats.misses := r.stats.misses + 1 })
  else
    let result := (r.table.lookup groupId).bind fun entry =>
      if elapsedSecs entry.lastSeen now < r.config.ttlSecs then some entry.preferredStrategy
      else none
    if result.isSome then (result, { r with stats.hits := r.stats.hits + 1 })
    else (result, { r with stats.misses := r.stats.misses + 1 })

/-- The group that has not been seen for longest, the first of several in the walk, makes way
for a new one. -/
def makeRoom (r : AffinityRouter) (groupId : UInt64) (order : IterationOrder Entry) :
    AffinityRouter :=
  if r.config.maxGroups ≤ r.table.entries.length ∧ groupId ∉ r.table then
    match (order.arrange r.table.entries).argmin fun e => e.2.lastSeen with
    | some oldest =>
      { r with table := r.table.erase oldest.1, stats.evictions := r.stats.evictions + 1 }
    | none => r
  else r

def record (r : AffinityRouter) (groupId : UInt64) (kind : JobKind) (strategy : Strategy)
    (order : IterationOrder Entry) (now : Instant) : AffinityRouter :=
  let r := r.makeRoom groupId order
  let entry := (r.table.lookup groupId).getD
    { id := groupId, kind := kind, preferredStrategy := strategy, lastSeen := now }
  let entry := { entry with preferredStrategy := strategy, lastSeen := now }
  { r with table := r.table.insert groupId entry }

def evictStale (r : AffinityRouter) (now : Instant) : Nat × AffinityRouter :=
  let table := r.table.retain fun _ entry =>
    decide (elapsedSecs entry.lastSeen now < r.config.ttlSecs)
  let evicted := r.table.entries.length - table.entries.length
  (evicted, { r with
    table := table
    stats.evictions :=
      if 0 < evicted then r.stats.evictions + UInt64.ofNat evicted else r.stats.evictions })

def entryCount (r : AffinityRouter) : Nat := r.table.entries.length

end AffinityRouter

inductive AffinityCall where
  | lookup (groupId : UInt64)
  | record (groupId : UInt64) (kind : JobKind) (strategy : Strategy) (order : IterationOrder Entry)
  | evictStale

abbrev Timed := Instant × AffinityCall

def AffinityRouter.apply (r : AffinityRouter) : Timed → AffinityRouter
  | (now, .lookup groupId) => (r.lookup groupId now).2
  | (now, .record groupId kind strategy order) => r.record groupId kind strategy order now
  | (now, .evictStale) => (r.evictStale now).2

def after (config : AffinityConfig) (calls : List Timed) : AffinityRouter :=
  calls.foldl AffinityRouter.apply { config := config }

/-- A table of unbounded size that forgets nothing. -/
abbrev Records := UInt64 → Option (Instant × Strategy)

def Records.note (records : Records) : Timed → Records
  | (now, .record groupId _ strategy _) => Function.update records groupId (some (now, strategy))
  | _ => records

/-- How every group was routed last, and when. -/
def lastRecord (calls : List Timed) : Records := calls.foldl Records.note fun _ => none

def recordedAt (calls : List Timed) (groupId : UInt64) : Option Instant :=
  (lastRecord calls groupId).map Prod.fst

def AffinityCall.isLookup : AffinityCall → Bool
  | .lookup _ => true
  | _ => false

def AffinityConfig.capacity (config : AffinityConfig) : Nat := max 1 config.maxGroups

def AffinityConfig.Stale (config : AffinityConfig) (now lastSeen : Instant) : Prop :=
  config.ttlSecs ≤ elapsedSecs lastSeen now

def AffinityRouter.groups (r : AffinityRouter) : Finset UInt64 := r.table.keys.toFinset

/-- The table stands for what was recorded last. -/
structure Tracks (config : AffinityConfig) (calls : List Timed) (now : Instant)
    (r : AffinityRouter) : Prop where
  config_eq : r.config = config
  keeps : KeepsLatest config.capacity (config.Stale now) (recordedAt calls) r.groups
  entries : ∀ g entry, r.table.lookup g = some entry →
    lastRecord calls g = some (entry.lastSeen, entry.preferredStrategy)
  past : ∀ g t, recordedAt calls g = some t → t ≤ now
  answered : r.stats.hits + r.stats.misses =
    UInt64.ofNat (calls.countP fun c => c.2.isLookup)

section Steps

variable {config : AffinityConfig} {calls : List Timed} {now soon : Instant}
  {r : AffinityRouter} {g : UInt64} {entry : AffinityGroup}

theorem AffinityConfig.Stale.older {t u : Instant} (h : config.Stale now u) (hle : t ≤ u) :
    config.Stale now t :=
  h.trans (Nat.div_le_div_right (Nat.sub_le_sub_left hle now))

theorem AffinityConfig.Stale.later {t : Instant} (h : config.Stale now t) (hle : now ≤ soon) :
    config.Stale soon t := h.trans (elapsedSecs_mono hle)

theorem mem_groups : g ∈ r.groups ↔ g ∈ r.table := by
  rw [AffinityRouter.groups, List.mem_toFinset, AList.mem_keys]

theorem mem_groups_iff : g ∈ r.groups ↔ ∃ entry, r.table.lookup g = some entry := by
  rw [mem_groups, ← AList.lookup_isSome, Option.isSome_iff_exists]

theorem card_groups : r.groups.card = r.entryCount := by
  rw [AffinityRouter.groups, List.toFinset_card_of_nodup r.table.keys_nodup]
  exact List.length_map _

theorem Tracks.recordedAt_eq (h : Tracks config calls now r) (hl : r.table.lookup g = some entry) :
    recordedAt calls g = some entry.lastSeen := by
  rw [recordedAt, h.entries g entry hl]
  rfl

theorem Tracks.start : Tracks config [] now { config := config } where
  config_eq := rfl
  keeps := KeepsLatest.empty
  entries := nofun
  past := nofun
  answered := rfl

theorem Tracks.later (h : Tracks config calls now r) (hle : now ≤ soon) :
    Tracks config calls soon r where
  config_eq := h.config_eq
  keeps := h.keeps.later fun _ hstale => hstale.later hle
  entries := h.entries
  past := fun g t ht => (h.past g t ht).trans hle
  answered := h.answered

theorem lastRecord_concat (calls : List Timed) (c : Timed) :
    lastRecord (calls ++ [c]) = (lastRecord calls).note c := List.foldl_concat ..

theorem recordedAt_concat_record (calls : List Timed) (g : UInt64) (kind : JobKind)
    (strategy : Strategy) (order : IterationOrder Entry) :
    recordedAt (calls ++ [(now, .record g kind strategy order)]) =
      Function.update (recordedAt calls) g (some now) := by
  funext other
  rw [recordedAt, lastRecord_concat]
  by_cases hother : other = g
  · subst hother
    simp [Records.note]
  · simp [Records.note, Function.update_of_ne hother, recordedAt]

/-- What is left of the table when a group is to be recorded. -/
structure MadeRoom (r made : AffinityRouter) (g : UInt64) : Prop where
  config_eq : made.config = r.config
  lookup : ∀ x entry, made.table.lookup x = some entry → r.table.lookup x = some entry
  same : ∀ entry, r.table.lookup g = some entry → made.table.lookup g = some entry
  card : r.groups.card ≤ r.config.capacity →
    (insert g made.groups).card ≤ r.config.capacity
  way : ∀ x ∈ r.groups, x ∉ insert g made.groups →
    r.config.capacity ≤ (insert g made.groups).card ∧
      ∀ other ∈ made.groups, ∀ e e', r.table.lookup x = some e →
        r.table.lookup other = some e' → e.lastSeen ≤ e'.lastSeen
  stats : made.stats.hits = r.stats.hits ∧ made.stats.misses = r.stats.misses

theorem madeRoom (r : AffinityRouter) (g : UInt64) (order : IterationOrder Entry) :
    MadeRoom r (r.makeRoom g order) g := by
  have hkept (hroom : g ∉ r.table → r.entryCount < r.config.capacity) : MadeRoom r r g := by
    refine ⟨rfl, fun _ _ hl => hl, fun _ hl => hl, fun hbound => ?_, ?_, rfl, rfl⟩
    · by_cases hg : g ∈ r.groups
      · rwa [Finset.insert_eq_of_mem hg]
      · rw [Finset.card_insert_of_notMem hg, card_groups]
        exact hroom fun h => hg (mem_groups.mpr h)
    · exact fun x hx hout => absurd (Finset.mem_insert_of_mem hx) hout
  unfold AffinityRouter.makeRoom
  split
  · rename_i hfull
    obtain ⟨hfull, hg⟩ := hfull
    cases hmin : (order.arrange r.table.entries).argmin fun e => e.2.lastSeen with
    | none =>
      have hempty : r.table.entries = [] := by
        rw [List.argmin_eq_none] at hmin
        exact List.perm_nil.mp (hmin ▸ (order.perm r.table.entries).symm)
      refine hkept fun _ => ?_
      rw [AffinityRouter.entryCount, hempty]
      exact lt_max_of_lt_left Nat.zero_lt_one
    | some oldest =>
      have hmem : oldest ∈ r.table.entries := order.mem_arrange.mp (List.argmin_mem hmin)
      have hlookup : r.table.lookup oldest.1 = some oldest.2 := AList.mem_lookup_iff.mpr hmem
      have hin : oldest.1 ∈ r.groups := mem_groups_iff.mpr ⟨oldest.2, hlookup⟩
      have hcard : (insert g (r.groups.erase oldest.1)).card = r.groups.card := by
        have hout : g ∉ r.groups.erase oldest.1 := fun h =>
          hg (mem_groups.mp (Finset.mem_of_mem_erase h))
        rw [Finset.card_insert_of_notMem hout, Finset.card_erase_add_one hin]
      have hgroups : ({ r with
          table := r.table.erase oldest.1
          stats.evictions := r.stats.evictions + 1 } : AffinityRouter).groups =
          r.groups.erase oldest.1 := by
        ext x
        rw [mem_groups, AList.mem_erase, Finset.mem_erase, mem_groups]
      refine ⟨rfl, fun x entry hl => ?_, fun entry hl => ?_, fun hbound => ?_, ?_, rfl, rfl⟩
      · change (r.table.erase oldest.1).lookup x = some entry at hl
        by_cases hx : x = oldest.1
        · rw [hx, AList.lookup_erase] at hl
          cases hl
        · rwa [AList.lookup_erase_ne hx] at hl
      · exact absurd (AList.mem_of_lookup hl) hg
      · rwa [hgroups, hcard]
      · intro x hx hout
        rw [hgroups] at hout ⊢
        have hx : x = oldest.1 := by
          by_contra hne
          exact hout (Finset.mem_insert_of_mem (Finset.mem_erase.mpr ⟨hne, hx⟩))
        subst hx
        refine ⟨?_, fun other hother e e' he he' => ?_⟩
        · rw [hcard, card_groups]
          exact max_le (List.length_pos_of_mem hmem) hfull
        · cases hlookup.symm.trans he
          have hmem' := order.mem_arrange.mpr (AList.mem_lookup_iff.mp he')
          have hle := List.le_of_mem_argmin hmem' hmin
          exact hle
  · rename_i hroom
    refine hkept fun hg => ?_
    have hlt : r.entryCount < r.config.maxGroups := not_le.mp fun hfull => hroom ⟨hfull, hg⟩
    exact hlt.trans_le (le_max_right 1 _)

theorem Tracks.record (h : Tracks config calls now r) (kind : JobKind) (strategy : Strategy)
    (order : IterationOrder Entry) :
    Tracks config (calls ++ [(now, .record g kind strategy order)]) now
      (r.record g kind strategy order now) := by
  have hmade := madeRoom r g order
  have hgroups : (r.record g kind strategy order now).groups =
      insert g (r.makeRoom g order).groups := by
    ext x
    rw [mem_groups, Finset.mem_insert, mem_groups, AffinityRouter.record, AList.mem_insert]
  have hconfig := h.config_eq
  subst hconfig
  refine ⟨hmade.config_eq, ?_, fun x entry hl => ?_, fun x t ht => ?_, ?_⟩
  · rw [hgroups, recordedAt_concat_record]
    refine h.keeps.note h.past (fun x hx => ?_) (hmade.card h.keeps.bound) fun x hx hout => ?_
    · obtain ⟨entry, hl⟩ := mem_groups_iff.mp hx
      exact mem_groups_iff.mpr ⟨entry, hmade.lookup x entry hl⟩
    · obtain ⟨hfull, holder⟩ := hmade.way x hx hout
      refine ⟨hfull, fun other hother t u ht hu => ?_⟩
      obtain ⟨e, he⟩ := mem_groups_iff.mp hx
      obtain ⟨e', he'⟩ := mem_groups_iff.mp hother
      have hother := hmade.lookup other e' he'
      cases ht.symm.trans (h.recordedAt_eq he)
      cases hu.symm.trans (h.recordedAt_eq hother)
      exact holder other (mem_groups_iff.mpr ⟨e', he'⟩) e e' he hother
  · rw [lastRecord_concat, Records.note]
    by_cases hx : x = g
    · subst hx
      rw [AffinityRouter.record, AList.lookup_insert] at hl
      cases hl
      rw [Function.update_self]
    · rw [AffinityRouter.record, AList.lookup_insert_ne hx] at hl
      rw [Function.update_of_ne hx]
      exact h.entries x entry (hmade.lookup x entry hl)
  · rw [recordedAt_concat_record] at ht
    by_cases hx : x = g
    · subst hx
      rw [Function.update_self] at ht
      exact (Option.some.inj ht).ge
    · rw [Function.update_of_ne hx] at ht
      exact h.past x t ht
  · rw [List.countP_append]
    change (r.makeRoom g order).stats.hits + (r.makeRoom g order).stats.misses = _
    rw [hmade.stats.1, hmade.stats.2, h.answered]
    rfl

theorem Tracks.evictStale (h : Tracks config calls now r) :
    Tracks config (calls ++ [(now, .evictStale)]) now (r.evictStale now).2 := by
  have hlast : lastRecord (calls ++ [(now, .evictStale)]) = lastRecord calls :=
    lastRecord_concat ..
  have hrecorded : recordedAt (calls ++ [(now, .evictStale)]) = recordedAt calls := by
    funext x
    rw [recordedAt, hlast, recordedAt]
  have hconfig := h.config_eq
  subst hconfig
  have hlookup {x entry} : (r.evictStale now).2.table.lookup x = some entry ↔
      r.table.lookup x = some entry ∧ ¬ r.config.Stale now entry.lastSeen := by
    rw [AffinityRouter.evictStale, AList.lookup_retain_eq_some, decide_eq_true_iff,
      AffinityConfig.Stale, not_le]
  refine ⟨rfl, ?_, fun x entry hl => ?_, fun x t ht => ?_, ?_⟩
  · rw [hrecorded]
    refine h.keeps.sweep (fun x hx => ?_) (fun t u hle hold => hold.older hle) fun x hx t ht => ?_
    · obtain ⟨entry, hl⟩ := mem_groups_iff.mp hx
      exact mem_groups_iff.mpr ⟨entry, (hlookup.mp hl).1⟩
    · obtain ⟨entry, hl⟩ := mem_groups_iff.mp hx
      cases ht.symm.trans (h.recordedAt_eq hl)
      constructor
      · intro hkept
        obtain ⟨entry', hl'⟩ := mem_groups_iff.mp hkept
        cases hl.symm.trans (hlookup.mp hl').1
        exact (hlookup.mp hl').2
      · exact fun hfresh => mem_groups_iff.mpr ⟨entry, hlookup.mpr ⟨hl, hfresh⟩⟩
  · rw [hlast]
    exact h.entries x entry (hlookup.mp hl).1
  · rw [hrecorded] at ht
    exact h.past x t ht
  · rw [List.countP_append]
    exact h.answered

/-- A lookup changes nothing but one of the two counters. -/
theorem lookup_snd (r : AffinityRouter) (g : UInt64) (now : Instant) :
    ∃ stats, (r.lookup g now).2 = { r with stats := stats } ∧
      stats.hits + stats.misses = r.stats.hits + r.stats.misses + 1 := by
  unfold AffinityRouter.lookup
  split
  · exact ⟨_, rfl, (UInt64.add_assoc ..).symm⟩
  · dsimp only
    split
    · refine ⟨_, rfl, ?_⟩
      change r.stats.hits + 1 + r.stats.misses = _
      rw [UInt64.add_assoc, UInt64.add_comm 1, UInt64.add_assoc]
    · exact ⟨_, rfl, (UInt64.add_assoc ..).symm⟩

theorem lookup_fst_eq_some {s : Strategy} : (r.lookup g now).1 = some s ↔
    r.config.enabled ∧ ∃ entry, r.table.lookup g = some entry ∧
      ¬ r.config.Stale now entry.lastSeen ∧ entry.preferredStrategy = s := by
  unfold AffinityRouter.lookup
  cases henabled : r.config.enabled with
  | false => simp
  | true =>
    simp only [Bool.not_true, Bool.false_eq_true, if_false, true_and, AffinityConfig.Stale, not_le]
    cases hl : r.table.lookup g with
    | none => simp
    | some entry =>
      by_cases hfresh : elapsedSecs entry.lastSeen now < r.config.ttlSecs
      · simp [hfresh]
      · simp [hfresh]

theorem Tracks.lookup (h : Tracks config calls now r) :
    Tracks config (calls ++ [(now, .lookup g)]) now (r.lookup g now).2 := by
  have hlast : lastRecord (calls ++ [(now, .lookup g)]) = lastRecord calls :=
    lastRecord_concat ..
  have hrecorded : recordedAt (calls ++ [(now, .lookup g)]) = recordedAt calls := by
    funext x
    rw [recordedAt, hlast, recordedAt]
  obtain ⟨stats, hsnd, hcounts⟩ := lookup_snd r g now
  rw [hsnd]
  refine ⟨h.config_eq, hrecorded ▸ h.keeps, hlast ▸ h.entries, hrecorded ▸ h.past, ?_⟩
  rw [hcounts, h.answered, List.countP_append, UInt64.ofNat_add]
  rfl

theorem Tracks.step (h : Tracks config calls now r) (call : AffinityCall) :
    Tracks config (calls ++ [(now, call)]) now (r.apply (now, call)) := by
  cases call with
  | lookup g => exact h.lookup
  | record g kind strategy order => exact h.record kind strategy order
  | evictStale => exact h.evictStale

theorem tracks_after (hordered : calls.Pairwise fun a b => a.1 ≤ b.1)
    (hnow : ∀ c ∈ calls, c.1 ≤ now) : Tracks config calls now (after config calls) := by
  induction calls using List.reverseRecOn generalizing now with
  | nil => exact Tracks.start
  | append_singleton calls c ih =>
    obtain ⟨hordered, -, hlast⟩ := List.pairwise_append.mp hordered
    have hbefore := ih hordered fun a ha => hlast a ha c List.mem_cons_self
    rw [after, List.foldl_concat]
    exact (hbefore.step c.2).later (hnow c (List.mem_append_right _ List.mem_cons_self))

end Steps

/-- The bounded table answers for the unbounded one: a group is sent where it was sent last,
unless that is too long ago or there is no room left among the groups that were recorded since.
Sweeps and the order of a walk make no difference beyond that. -/
theorem sticky_routing (config : AffinityConfig) (calls : List Timed)
    (hordered : calls.Pairwise fun a b => a.1 ≤ b.1) (now : Instant)
    (hnow : ∀ c ∈ calls, c.1 ≤ now) :
    (after config calls).entryCount ≤ config.capacity ∧
      (after config calls).stats.hits + (after config calls).stats.misses =
        UInt64.ofNat (calls.countP fun c => c.2.isLookup) ∧
      ∀ g s,
        (((after config calls).lookup g now).1 = some s → config.enabled ∧
          ∃ t, lastRecord calls g = some (t, s) ∧ elapsedSecs t now < config.ttlSecs ∧
            ¬ Crowd config.capacity (NotedAfter (recordedAt calls) t)) ∧
        (∀ t, config.enabled → lastRecord calls g = some (t, s) →
          elapsedSecs t now < config.ttlSecs →
          ¬ Crowd config.capacity (fun other =>
            other ≠ g ∧ NotedSince (recordedAt calls) t other) →
          ((after config calls).lookup g now).1 = some s) := by
  have h : Tracks config calls now (after config calls) := tracks_after hordered hnow
  refine ⟨card_groups ▸ h.keeps.bound, h.answered, fun g s => ⟨fun hs => ?_, ?_⟩⟩
  · obtain ⟨henabled, entry, hl, hfresh, rfl⟩ := lookup_fst_eq_some.mp hs
    rw [h.config_eq] at henabled hfresh
    refine ⟨henabled, entry.lastSeen, h.entries g entry hl, not_le.mp hfresh, ?_⟩
    exact h.keeps.not_crowd (mem_groups_iff.mpr ⟨entry, hl⟩) (h.recordedAt_eq hl)
  · intro t henabled hlast hfresh hfew
    have hrecorded : recordedAt calls g = some t := by
      rw [recordedAt, hlast]
      rfl
    obtain ⟨entry, hl⟩ := mem_groups_iff.mp (h.keeps.mem hrecorded (not_le.mpr hfresh) hfew)
    obtain ⟨rfl, rfl⟩ := Prod.mk.inj (Option.some.inj ((h.entries g entry hl).symm.trans hlast))
    rw [lookup_fst_eq_some, h.config_eq]
    exact ⟨henabled, entry, hl, not_le.mpr hfresh, rfl⟩

def threeCalls : List Timed :=
  [(3, .record 7 .hashMix .cpuPool (.inserted Entry)),
    (5, .record 8 .primeCount .spawn (.inserted Entry)),
    (9, .record 9 .hashMix .batch (.inserted Entry))]

theorem sticky_routing_three :
    (after { maxGroups := 2 } threeCalls).entryCount ≤ 2 ∧
      ((after { maxGroups := 2 } threeCalls).lookup 7 9).1 = none ∧
      ¬ Crowd 2 (NotedAfter (recordedAt threeCalls) 5) := by
  have h := sticky_routing { maxGroups := 2 } threeCalls (by decide) 9 (by decide)
  refine ⟨h.1, by decide, ?_⟩
  obtain ⟨-, t, ht, -, hfew⟩ := (h.2.2 8 .spawn).1 (by decide)
  cases (show lastRecord threeCalls 8 = some (5, .spawn) by decide).symm.trans ht
  exact hfew

end HelixRouter.Affinity
