import HelixRouter.Arithmetic.Congruential
import HelixRouter.Catalog.EndpointCatalog
import HelixRouter.Containers.Rounds
import HelixRouter.Runs.Answers

namespace HelixRouter.Catalog

open Arithmetic Containers Runs

/-- The first entry with which the weights add up to more than the pick. -/
def scanWeights (pick : UInt64) : UInt64 → List EndpointEntry → Option EndpointEntry
  | _, [] => none
  | cumulative, entry :: rest =>
    let cumulative := cumulative + entry.weight.toUInt64
    if pick < cumulative then some entry else scanWeights pick cumulative rest

/-- Multiplier and increment of the generator. -/
def advance (lcgState : UInt64) : UInt64 := lcg 6364136223846793005 1442695040888963407 lcgState

def totalWeight (candidates : List EndpointEntry) : UInt64 :=
  (candidates.map (·.weight.toUInt64)).sum

/-- The generator is left alone where there is nothing to pick from. -/
def selectByWeight (candidates : List EndpointEntry) (lcgState : UInt64) :
    Option EndpointEntry × UInt64 :=
  if candidates.isEmpty then (none, lcgState)
  else if totalWeight candidates = 0 then (none, lcgState)
  else
    let lcgState := advance lcgState
    let pick := lcgState % totalWeight candidates
    ((scanWeights pick 0 candidates).or candidates.getLast?, lcgState)

/-- What so many selections in a row return. -/
def picks (candidates : List EndpointEntry) (n : Nat) (lcgState : UInt64) :
    List (Option EndpointEntry) :=
  answers (fun state (_ : Unit) => selectByWeight candidates state) lcgState
    (List.replicate n ())

def weightOf (candidates : List EndpointEntry) : Nat :=
  (candidates.map fun e => e.weight.toNat).sum

def shares (candidates : List EndpointEntry) : List EndpointEntry :=
  sharesOf (fun e => e.weight.toNat) candidates

variable {candidates rest : List EndpointEntry} {e : EndpointEntry} {pick cumulative : UInt64}

theorem weightOf_cons : weightOf (e :: rest) = e.weight.toNat + weightOf rest := by
  simp [weightOf]

theorem length_shares (candidates : List EndpointEntry) :
    (shares candidates).length = weightOf candidates :=
  length_sharesOf _ candidates

theorem toNat_totalWeight (h : weightOf candidates < 2 ^ 64) :
    (totalWeight candidates).toNat = weightOf candidates := by
  induction candidates with
  | nil => rfl
  | cons e rest ih =>
    rw [weightOf_cons] at h ⊢
    have hsum : totalWeight (e :: rest) = e.weight.toUInt64 + totalWeight rest := by
      simp [totalWeight]
    rw [hsum, UInt64.toNat_add, ih (by omega), UInt32.toNat_toUInt64, Nat.mod_eq_of_lt h]

/-- The scan finds what stands at a place of the shares, counted from where it starts. -/
theorem scanWeights_eq (hfit : cumulative.toNat + weightOf candidates < 2 ^ 64)
    (hlo : cumulative ≤ pick) :
    scanWeights pick cumulative candidates =
      (shares candidates)[pick.toNat - cumulative.toNat]? := by
  induction candidates generalizing cumulative with
  | nil => rfl
  | cons e rest ih =>
    have hle := UInt64.le_iff_toNat_le.mp hlo
    rw [weightOf_cons] at hfit
    have hnext : (cumulative + e.weight.toUInt64).toNat =
        cumulative.toNat + e.weight.toNat := by
      rw [UInt64.toNat_add, UInt32.toNat_toUInt64]
      exact Nat.mod_eq_of_lt (by omega)
    have hshares : shares (e :: rest) = List.replicate e.weight.toNat e ++ shares rest := rfl
    rw [scanWeights, hshares]
    by_cases hlt : pick < cumulative + e.weight.toUInt64
    · have hin := UInt64.lt_iff_toNat_lt.mp hlt
      rw [if_pos hlt, List.getElem?_append_left (by rw [List.length_replicate]; omega),
        List.getElem?_replicate, if_pos (by omega)]
    · have hout := UInt64.le_iff_toNat_le.mp (UInt64.not_lt.mp hlt)
      rw [if_neg hlt, ih (by omega) (UInt64.not_lt.mp hlt),
        List.getElem?_append_right (by rw [List.length_replicate]; omega), List.length_replicate]
      congr 1
      omega

/-- A selection advances the generator and returns what stands at the remainder. -/
theorem selectByWeight_eq (hpos : 0 < weightOf candidates) (hfit : weightOf candidates < 2 ^ 64)
    (lcgState : UInt64) :
    selectByWeight candidates lcgState =
      ((shares candidates)[(advance lcgState).toNat % weightOf candidates]?, advance lcgState) := by
  have htotal := toNat_totalWeight hfit
  have hne : candidates ≠ [] := by
    rintro rfl
    exact Nat.lt_irrefl 0 hpos
  have hnonzero : totalWeight candidates ≠ 0 := by
    intro hz
    rw [hz] at htotal
    have hzero : 0 = weightOf candidates := htotal
    omega
  rw [selectByWeight, if_neg (by simpa using hne), if_neg hnonzero]
  generalize advance lcgState = next
  have hscan : scanWeights (next % totalWeight candidates) 0 candidates = _ :=
    scanWeights_eq (by simpa using hfit) (UInt64.le_iff_toNat_le.mpr (Nat.zero_le _))
  have hin : next.toNat % weightOf candidates < (shares candidates).length := by
    rw [length_shares]
    exact Nat.mod_lt _ hpos
  have hplace : (next % totalWeight candidates).toNat - (0 : UInt64).toNat =
      next.toNat % weightOf candidates := by
    rw [UInt64.toNat_mod, htotal]
    exact Nat.sub_zero _
  rw [hplace, List.getElem?_eq_getElem hin] at hscan
  dsimp only
  rw [hscan, List.getElem?_eq_getElem hin]
  rfl

theorem picks_eq (hpos : 0 < weightOf candidates) (hfit : weightOf candidates < 2 ^ 64)
    (n : Nat) (lcgState : UInt64) :
    picks candidates n lcgState = (List.range n).map fun i =>
      (shares candidates)[(advance^[i] (advance lcgState)).toNat % weightOf candidates]? := by
  have hselect := selectByWeight_eq hpos hfit
  generalize advance = next at hselect ⊢
  exact @answers_replicate _ _ _ _ next
    (fun state => (shares candidates)[state.toNat % weightOf candidates]?) () hselect n lcgState

/-- Over a lap of the generator each place of the shares comes up as often as its remainder. -/
theorem picks_perm (hpos : 0 < weightOf candidates) (hfit : weightOf candidates < 2 ^ 64)
    {k : Nat} (hk : k ≤ 64) (hlap : k = 64 ∨ weightOf candidates ∣ 2 ^ k) (lcgState : UInt64) :
    (picks candidates (2 ^ k) lcgState).Perm
      ((List.range (2 ^ k)).map fun r => (shares candidates)[r % weightOf candidates]?) := by
  have hperm := lcg_perm (k := k) (a := 6364136223846793005) (c := 1442695040888963407)
    (by decide) (by decide) hk (advance lcgState)
  have hmap := hperm.map fun r => (shares candidates)[r % weightOf candidates]?
  rw [List.map_map] at hmap
  refine (List.Perm.of_eq ?_).trans hmap
  rw [picks_eq hpos hfit]
  refine List.map_congr_left fun i _ => ?_
  rcases hlap with rfl | hdvd
  · rw [Function.comp_apply, Nat.mod_eq_of_lt (UInt64.toNat_lt _)]
    rfl
  · rw [Function.comp_apply, Nat.mod_mod_of_dvd _ hdvd]
    rfl

/-- The places of the shares read off in order. -/
theorem map_getElem?_range {α : Type} (l : List α) :
    (List.range l.length).map (fun r => l[r % l.length]?) = l.map some := by
  apply List.ext_getElem (by simp)
  intro i hi _
  have hlt : i < l.length := by simpa using hi
  simp [Nat.mod_eq_of_lt hlt, hlt]

/-- Selections are in proportion to the weights: where these add up to a power of two, exactly so
over as many selections, from whatever state; and else over the lap of the generator, up to one
round. -/
theorem selections_in_proportion (hpos : 0 < weightOf candidates)
    (hfit : weightOf candidates < 2 ^ 64) (lcgState : UInt64) :
    (∀ k, weightOf candidates = 2 ^ k →
      (picks candidates (2 ^ k) lcgState).Perm ((shares candidates).map some)) ∧
    ∀ e, candidates.count e * e.weight.toNat * (2 ^ 64 / weightOf candidates) ≤
        (picks candidates (2 ^ 64) lcgState).count (some e) ∧
      (picks candidates (2 ^ 64) lcgState).count (some e) ≤
        candidates.count e * e.weight.toNat * (2 ^ 64 / weightOf candidates + 1) := by
  refine ⟨fun k hk => ?_, fun e => ?_⟩
  · have hle : k ≤ 64 := by
      rw [hk] at hfit
      exact ((Nat.pow_lt_pow_iff_right (by decide)).mp hfit).le
    refine (picks_perm hpos hfit hle (.inr (Dvd.intro 1 (by omega))) lcgState).trans ?_
    rw [← hk, ← length_shares, map_getElem?_range]
  · have hperm := picks_perm hpos hfit (le_refl 64) (.inl rfl) lcgState
    have hround : (List.range (weightOf candidates)).countP
        (fun r => (shares candidates)[r % weightOf candidates]? == some e) =
          candidates.count e * e.weight.toNat := by
      have hcount := congrArg (List.count (some e)) (map_getElem?_range (shares candidates))
      rw [List.count_map_of_injective _ _ (Option.some_injective _), length_shares,
        List.count_eq_countP, List.countP_map] at hcount
      exact hcount.trans (count_sharesOf _ candidates e)
    have hbounds := countP_mod_bounds (fun r => (shares candidates)[r]? == some e)
      hpos (2 ^ 64)
    rw [hround] at hbounds
    rw [hperm.count_eq, List.count_eq_countP (a := some e), List.countP_map]
    exact hbounds

def endpoint (id : String) (weight : UInt32) : EndpointEntry :=
  ⟨id.toList, [], [], [], true, weight, 0, 0⟩

theorem selections_in_proportion_two :
    (picks [endpoint "a" 3, endpoint "b" 1] 4 12345).Perm
      ([endpoint "a" 3, endpoint "a" 3, endpoint "a" 3, endpoint "b" 1].map some) :=
  (selections_in_proportion (by decide) (by decide) 12345).1 2 (by decide)

end HelixRouter.Catalog
