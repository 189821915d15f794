import HelixRouter.Discovery.ServiceRegistry

namespace HelixRouter.Discovery

open Containers

variable {healthy : List ServiceInstance} {d : ServiceDefinition} {r : ServiceRegistry}
  {serviceName : String}

namespace ServiceDefinition

theorem resolve_weighted (hlb : d.loadBalancer = .weightedRoundRobin)
    (hhealthy : d.healthyInstances = healthy) (hne : healthy ≠ [])
    (hfit : weightOf healthy < 2 ^ 32) (hint : Option String) :
    ∃ chosen, d.resolve hint = .ok (some chosen, d.tick) ∧
      (shares healthy)[d.rrCounter.toNat % 2 ^ 32 % weightOf healthy]? = some chosen := by
  obtain ⟨first, rest, rfl⟩ := List.exists_cons_of_ne_nil hne
  obtain ⟨total, htotal, hnat⟩ := @sumWeights_ok (first :: rest) 0 (by simpa using hfit)
  rw [UInt32.toNat_zero, Nat.zero_add] at hnat
  have hpos : 0 < weightOf (first :: rest) := by
    rw [weightOf_cons]
    exact Nat.add_pos_left (share_pos first) _
  have htotal0 : total ≠ 0 := by
    rintro rfl
    exact hpos.ne hnat
  have hslot : (d.rrCounter.toUInt32 % total).toNat =
      d.rrCounter.toNat % 2 ^ 32 % weightOf (first :: rest) := by
    rw [UInt32.toNat_mod, UInt64.toNat_toUInt32, hnat]
  obtain ⟨chosen, hscan, hat⟩ := @scan_eq (first :: rest) 0 (d.rrCounter.toUInt32 % total) first
    (UInt32.le_iff_toNat_le.mpr (Nat.zero_le _))
    (by rw [hslot, UInt32.toNat_zero, Nat.zero_add]; exact Nat.mod_lt _ hpos)
    (by simpa using hfit)
  refine ⟨chosen, ?_, by rw [← hslot]; exact hat⟩
  simp only [resolve, hhealthy, hlb, totalWeight, htotal]
  change (if total = 0 then _ else _) = _
  rw [if_neg htotal0, hscan]
  rfl

theorem resolve_overflow (hlb : d.loadBalancer = .weightedRoundRobin)
    (hhealthy : d.healthyInstances = healthy) (hfit : 2 ^ 32 ≤ weightOf healthy)
    (hint : Option String) : d.resolve hint = .error .add := by
  cases healthy with
  | nil => simp [weightOf] at hfit
  | cons first rest =>
    have htotal := @sumWeights_overflow (first :: rest) 0 (by simpa using hfit)
    simp only [resolve, hhealthy, hlb, totalWeight, htotal]
    rfl

end ServiceDefinition

theorem resolves_none {hints : List (Option String)}
    (hr : r.services.lookup serviceName = some d) (hhealthy : d.healthyInstances = []) :
    r.resolves serviceName hints = .ok (List.replicate hints.length none) := by
  induction hints generalizing r with
  | nil => rfl
  | cons hint hints ih =>
    have hstep : r.resolve serviceName hint =
        .ok (none, ⟨r.services.insert serviceName d⟩) := by
      unfold ServiceRegistry.resolve ServiceDefinition.resolve
      rw [hr]
      dsimp only
      rw [hhealthy]
      rfl
    have hrest := ih (r := ⟨r.services.insert serviceName d⟩) (AList.lookup_insert r.services)
    rw [ServiceRegistry.resolves, hstep]
    change (do
      let out ← ServiceRegistry.resolves ⟨r.services.insert serviceName d⟩ serviceName hints
      return none :: out) = _
    rw [hrest]
    rfl

/-- As long as the counter does not wrap, the resolves read the shares round and round, with a
restart wherever the lower half of the counter starts again. -/
theorem resolves_weighted {hints : List (Option String)}
    (hr : r.services.lookup serviceName = some d) (hlb : d.loadBalancer = .weightedRoundRobin)
    (hhealthy : d.healthyInstances = healthy) (hne : healthy ≠ [])
    (hfit : weightOf healthy < 2 ^ 32) (hwrap : d.rrCounter.toNat + hints.length < 2 ^ 64) :
    r.resolves serviceName hints =
      .ok (readings (shares healthy) (2 ^ 32) d.rrCounter.toNat hints.length) := by
  induction hints generalizing r d with
  | nil => rfl
  | cons hint hints ih =>
    rw [List.length_cons] at hwrap
    obtain ⟨chosen, hresolve, hat⟩ := d.resolve_weighted hlb hhealthy hne hfit hint
    have hnext : d.tick.rrCounter.toNat = d.rrCounter.toNat + 1 := by
      change (d.rrCounter + 1).toNat = _
      rw [UInt64.toNat_add]
      exact Nat.mod_eq_of_lt (by simp; omega)
    have hrest := ih (r := ⟨r.services.insert serviceName d.tick⟩) (d := d.tick)
      (AList.lookup_insert r.services) hlb hhealthy (by omega)
    have hstep : r.resolve serviceName hint =
        .ok (some chosen, ⟨r.services.insert serviceName d.tick⟩) := by
      unfold ServiceRegistry.resolve
      rw [hr]
      dsimp only
      rw [hresolve]
      rfl
    rw [ServiceRegistry.resolves, hstep]
    change (do
      let out ← ServiceRegistry.resolves ⟨r.services.insert serviceName d.tick⟩ serviceName hints
      return some chosen :: out) = _
    rw [hrest, readings, readings, List.length_cons, List.range_succ_eq_map, List.map_cons,
      List.map_map, length_shares, Nat.add_zero, hat, hnext]
    change Except.ok _ = _
    congr 2
    apply List.map_congr_left
    intro k _
    rw [Function.comp_apply, Nat.succ_eq_add_one, Nat.add_assoc, Nat.add_comm 1]

theorem readings_count_iff (hne : shares healthy ≠ []) (N c : Nat) :
    (∀ i, (readings (shares healthy) N c (shares healthy).length).count (some i) =
      healthy.count i * share i) ↔
    (readings (shares healthy) N c (shares healthy).length).Perm ((shares healthy).map some) := by
  rw [List.perm_iff_count]
  have hsome : ∀ i, ((shares healthy).map some).count (some i) = healthy.count i * share i := by
    intro i
    rw [List.count_map_of_injective _ _ (Option.some_injective _), count_shares]
  refine ⟨fun h o => ?_, fun h i => (h (some i)).trans (hsome i)⟩
  cases o with
  | some i => exact (h i).trans (hsome i).symm
  | none =>
    rw [List.count_eq_zero_of_not_mem, List.count_eq_zero_of_not_mem]
    · simp
    · intro hmem
      obtain ⟨k, -, hk⟩ := List.mem_map.mp hmem
      rw [List.getElem?_eq_none_iff] at hk
      exact absurd (Nat.mod_lt _ (List.length_pos_of_ne_nil hne)) (not_lt.mpr hk)

/-- Wherever the healthy instances of a service are these: the resolves overflow nothing as long
as the counter does not wrap, and a round of them returns each instance as often as it is owed. -/
def Proportional (healthy : List ServiceInstance) : Prop :=
  ∀ (r : ServiceRegistry) (serviceName : String) (d : ServiceDefinition)
    (hints : List (Option String)), r.services.lookup serviceName = some d →
    d.loadBalancer = .weightedRoundRobin → d.healthyInstances = healthy →
    d.rrCounter.toNat + hints.length < 2 ^ 64 →
    ∃ chosen, r.resolves serviceName hints = .ok chosen ∧
      (hints.length = weightOf healthy →
        ∀ i, chosen.count (some i) = healthy.count i * share i)

/-- A registry with one service. -/
def serving (healthy : List ServiceInstance) (counter : UInt64) : ServiceRegistry where
  services := AList.singleton "svc"
    { instances := healthy, loadBalancer := .weightedRoundRobin, rrCounter := counter }

theorem serving_lookup (healthy : List ServiceInstance) (counter : UInt64) :
    (serving healthy counter).services.lookup "svc" = some
      { instances := healthy, loadBalancer := .weightedRoundRobin, rrCounter := counter } := rfl

theorem Proportional.fits (hl : ∀ i ∈ healthy, i.healthy = true) (h : Proportional healthy) :
    weightOf healthy < 2 ^ 32 := by
  by_contra hfit
  have hhealthy : healthy.filter (·.healthy) = healthy := List.filter_eq_self.mpr hl
  obtain ⟨chosen, hresolves, -⟩ := h (serving healthy 0) "svc" _ [none] (serving_lookup healthy 0)
    rfl hhealthy (show 0 + 1 < 2 ^ 64 by decide)
  have hover := ServiceDefinition.resolve_overflow
    (d := ⟨healthy, .weightedRoundRobin, 5000, 0⟩) rfl hhealthy (Nat.le_of_not_lt hfit) none
  unfold ServiceRegistry.resolves ServiceRegistry.resolve at hresolves
  rw [serving_lookup] at hresolves
  dsimp only at hresolves
  rw [hover] at hresolves
  cases hresolves

theorem Proportional.rotates (hl : ∀ i ∈ healthy, i.healthy = true) (h : Proportional healthy) :
    (shares healthy).rotate (2 ^ 32) = shares healthy := by
  have hfit := h.fits hl
  have hhealthy : healthy.filter (·.healthy) = healthy := List.filter_eq_self.mpr hl
  rcases eq_or_ne healthy [] with rfl | hne
  · rfl
  have hshares : shares healthy ≠ [] := by
    obtain ⟨i, hi⟩ := List.exists_mem_of_ne_nil healthy hne
    exact List.ne_nil_of_mem (mem_shares.mpr hi)
  apply rotate_of_readings (by rw [length_shares]; exact hfit.le)
  intro c hc
  obtain ⟨counter, hcounter⟩ : ∃ counter : UInt64, counter.toNat = c :=
    ⟨.ofNat c, UInt64.toNat_ofNat_of_lt' (hc.trans (by decide))⟩
  have hwrap : counter.toNat + (List.replicate (weightOf healthy) (none : Option String)).length <
      2 ^ 64 := by
    rw [hcounter, List.length_replicate]
    omega
  obtain ⟨chosen, hresolves, hcount⟩ := h (serving healthy counter) "svc" _
    (List.replicate (weightOf healthy) none) (serving_lookup healthy _) rfl hhealthy hwrap
  rw [resolves_weighted (serving_lookup healthy _) rfl hhealthy hne hfit hwrap] at hresolves
  cases hresolves
  rw [List.length_replicate, hcounter] at hcount
  apply (readings_count_iff hshares _ _).mp
  rw [length_shares]
  exact hcount rfl

/-- Of distinct instances no two places of a round are alike. -/
theorem rotates_iff (hnodup : healthy.Nodup) :
    (shares healthy).rotate (2 ^ 32) = shares healthy ↔
      weightOf healthy ∣ 2 ^ 32 ∨ healthy.length ≤ 1 := by
  constructor
  · intro h
    match healthy with
    | [] => exact Or.inr (Nat.zero_le 1)
    | [i] => exact Or.inr (Nat.le_refl 1)
    | i :: j :: rest =>
      refine Or.inl ?_
      rw [← length_shares]
      have hi : i ∉ shares (j :: rest) := fun hmem =>
        (List.nodup_cons.mp hnodup).1 (mem_shares.mp hmem)
      exact dvd_of_rotate shares_cons (share_pos i) hi
        (List.ne_nil_of_mem (mem_shares.mpr List.mem_cons_self)) h
  · rintro (⟨q, hq⟩ | hone)
    · rw [hq, ← length_shares]
      exact List.rotate_length_mul _ _
    · match healthy with
      | [] => rfl
      | [i] =>
        rw [shares_cons, show shares [] = [] from rfl, List.append_nil]
        exact List.rotate_replicate _ _ _
      | i :: j :: rest => simp at hone

/-- Resolves are proportional exactly where the weights fit the word they are added up in and a
round repeats itself where the lower half of the counter starts again: of distinct instances, one
alone or a sum of weights that divides `2 ^ 32`. -/
theorem proportional_iff (hl : ∀ i ∈ healthy, i.healthy = true) :
    (Proportional healthy ↔ weightOf healthy < 2 ^ 32 ∧
      (shares healthy).rotate (2 ^ 32) = shares healthy) ∧
    (healthy.Nodup → (Proportional healthy ↔ weightOf healthy < 2 ^ 32 ∧
      (weightOf healthy ∣ 2 ^ 32 ∨ healthy.length ≤ 1))) := by
  have hiff : Proportional healthy ↔ weightOf healthy < 2 ^ 32 ∧
      (shares healthy).rotate (2 ^ 32) = shares healthy := by
    refine ⟨fun h => ⟨h.fits hl, h.rotates hl⟩, ?_⟩
    rintro ⟨hfit, hrotate⟩ r serviceName d hints hr hlb hhealthy hwrap
    rcases eq_or_ne healthy [] with rfl | hne
    · refine ⟨_, resolves_none hr hhealthy, fun _ i => ?_⟩
      simp [List.count_replicate]
    have hshares : shares healthy ≠ [] := by
      obtain ⟨i, hi⟩ := List.exists_mem_of_ne_nil healthy hne
      exact List.ne_nil_of_mem (mem_shares.mpr hi)
    refine ⟨_, resolves_weighted hr hlb hhealthy hne hfit hwrap, fun hround => ?_⟩
    rw [hround, ← length_shares]
    apply (readings_count_iff hshares _ _).mpr
    rw [readings_of_rotate hrotate]
    exact (List.rotate_perm _ _).map some
  refine ⟨hiff, fun hnodup => ?_⟩
  rw [hiff, rotates_iff hnodup]

def heavy : ServiceInstance := { id := "heavy", endpoint := "10.0.0.1:80", weight := 3 }

def light : ServiceInstance := { id := "light", endpoint := "10.0.0.2:80" }

def middling : ServiceInstance := { id := "middling", endpoint := "10.0.0.3:80", weight := 2 }

theorem proportional_iff_heavy_light : Proportional [heavy, light] :=
  ((proportional_iff (by decide)).2 (by decide)).mpr
    ⟨by decide, Or.inl (by decide)⟩

/-- A round of three that starts a step before the lower half of the counter starts again. -/
theorem not_proportional :
    ¬ ∀ healthy : List ServiceInstance, (∀ i ∈ healthy, i.healthy = true) →
      Proportional healthy := by
  intro h
  obtain ⟨chosen, hresolves, hcount⟩ := h [middling, light] (by decide)
    (serving [middling, light] 4294967295) "svc" _ [none, none, none] (serving_lookup _ _) rfl
    (by decide) (by decide)
  have hthrice : (serving [middling, light] 4294967295).resolves "svc" [none, none, none] =
      .ok [some middling, some middling, some middling] := by decide +kernel
  rw [hthrice] at hresolves
  cases hresolves
  exact absurd (hcount (by decide) light) (by decide)

end HelixRouter.Discovery
