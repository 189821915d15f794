import HelixRouter.Balancing.LoadBalancer
import HelixRouter.Containers.Rounds
import Mathlib.Data.List.AList

namespace HelixRouter.Discovery

open Containers

inductive LbAlgorithm where
  | roundRobin
  | weightedRoundRobin
  | leastConnections
  | random
  | ipHash
  deriving DecidableEq

structure ServiceInstance where
  id : String
  endpoint : String
  weight : UInt32 := 1
  healthy : Bool := true
  metadata : List (String × String) := []
  registeredAt : UInt64 := 0
  deriving DecidableEq

structure ServiceDefinition where
  instances : List ServiceInstance := []
  loadBalancer : LbAlgorithm
  healthCheckIntervalMs : UInt64 := 5000
  rrCounter : UInt64 := 0

/-- A sum that leaves the range of its word. -/
inductive Overflow where
  | add
  deriving DecidableEq

def checkedAdd (a b : UInt32) : Except Overflow UInt32 :=
  if a.toNat + b.toNat < 2 ^ 32 then .ok (a + b) else .error .add

def ServiceInstance.effectiveWeight (i : ServiceInstance) : UInt32 := max i.weight 1

/-- The weights are added up in a word of 32 bits. -/
def sumWeights : UInt32 → List ServiceInstance → Except Overflow UInt32
  | acc, [] => .ok acc
  | acc, i :: rest => do sumWeights (← checkedAdd acc i.effectiveWeight) rest

def totalWeight (healthy : List ServiceInstance) : Except Overflow UInt32 := sumWeights 0 healthy

/-- The first instance at which the running sum passes the slot. -/
def scan (slot : UInt32) (selected : ServiceInstance) :
    UInt32 → List ServiceInstance → Except Overflow ServiceInstance
  | _, [] => .ok selected
  | acc, inst :: rest => do
    let acc ← checkedAdd acc inst.effectiveWeight
    if slot < acc then .ok inst else scan slot selected acc rest

namespace ServiceDefinition

def healthyInstances (d : ServiceDefinition) : List ServiceInstance :=
  d.instances.filter (·.healthy)

/-- What `fetch_add` leaves, which wraps around. -/
def tick (d : ServiceDefinition) : ServiceDefinition := { d with rrCounter := d.rrCounter + 1 }

/-- The word that scatters the counter over the instances. -/
def scattered (counter : UInt64) : UInt64 :=
  let x := counter * 6364136223846793005 + 1
  x ^^^ x >>> 33

def resolve (d : ServiceDefinition) (clientHint : Option String) :
    Except Overflow (Option ServiceInstance × ServiceDefinition) :=
  match d.healthyInstances with
  | [] => .ok (none, d)
  | first :: rest =>
    let healthy := first :: rest
    match d.loadBalancer with
    | .roundRobin | .leastConnections =>
      .ok (healthy[d.rrCounter.toNat % healthy.length]?, d.tick)
    | .weightedRoundRobin => do
      let total ← totalWeight healthy
      if total = 0 then return (some first, d)
      let chosen ← scan (d.rrCounter.toUInt32 % total) first 0 healthy
      return (some chosen, d.tick)
    | .random => .ok (healthy[(scattered d.rrCounter).toNat % healthy.length]?, d.tick)
    | .ipHash =>
      let hash := Balancing.fnv1a (clientHint.getD "").toUTF8.data.toList
      .ok (healthy[hash.toNat % healthy.length]?, d)

end ServiceDefinition

structure ServiceRegistry where
  services : AList (fun _ : String => ServiceDefinition) := ∅

namespace ServiceRegistry

def registerWithLb (r : ServiceRegistry) (serviceName : String) (instance_ : ServiceInstance)
    (lb : LbAlgorithm) : ServiceRegistry :=
  let d := (r.services.lookup serviceName).getD { loadBalancer := lb }
  { services := r.services.insert serviceName { d with instances := d.instances ++ [instance_] } }

def resolve (r : ServiceRegistry) (serviceName : String) (clientHint : Option String) :
    Except Overflow (Option ServiceInstance × ServiceRegistry) :=
  match r.services.lookup serviceName with
  | none => .ok (none, r)
  | some d => do
    let (chosen, d) ← d.resolve clientHint
    return (chosen, { services := r.services.insert serviceName d })

/-- Resolves one after the other, with nothing in between. -/
def resolves (r : ServiceRegistry) (serviceName : String) :
    List (Option String) → Except Overflow (List (Option ServiceInstance))
  | [] => .ok []
  | hint :: hints => do
    let (chosen, r) ← r.resolve serviceName hint
    return chosen :: (← r.resolves serviceName hints)

end ServiceRegistry

/-- What an instance is owed out of a round. -/
def share (i : ServiceInstance) : Nat := max 1 i.weight.toNat

def weightOf (healthy : List ServiceInstance) : Nat := (healthy.map share).sum

/-- Each instance as often as it is owed. -/
def shares (healthy : List ServiceInstance) : List ServiceInstance := sharesOf share healthy

variable {healthy rest : List ServiceInstance} {i : ServiceInstance} {acc slot : UInt32}

theorem share_pos (i : ServiceInstance) : 0 < share i := by
  unfold share
  omega

theorem toNat_effectiveWeight (i : ServiceInstance) : i.effectiveWeight.toNat = share i := by
  change (if i.weight ≤ 1 then 1 else i.weight).toNat = max 1 i.weight.toNat
  split
  · rename_i h
    exact (Nat.max_eq_left (UInt32.le_iff_toNat_le.mp h)).symm
  · rename_i h
    exact (Nat.max_eq_right (UInt32.lt_iff_toNat_lt.mp (UInt32.not_le.mp h)).le).symm

theorem weightOf_cons : weightOf (i :: rest) = share i + weightOf rest := by simp [weightOf]

theorem shares_cons : shares (i :: rest) = List.replicate (share i) i ++ shares rest := rfl

theorem length_shares (healthy : List ServiceInstance) :
    (shares healthy).length = weightOf healthy := length_sharesOf share healthy

theorem count_shares (healthy : List ServiceInstance) (i : ServiceInstance) :
    (shares healthy).count i = healthy.count i * share i := count_sharesOf share healthy i

theorem mem_shares : i ∈ shares healthy ↔ i ∈ healthy := by
  rw [← List.count_pos_iff, ← List.count_pos_iff, count_shares]
  exact Nat.mul_pos_iff_of_pos_right (share_pos i)

theorem checkedAdd_ok {a b : UInt32} (h : a.toNat + b.toNat < 2 ^ 32) :
    checkedAdd a b = .ok (a + b) ∧ (a + b).toNat = a.toNat + b.toNat :=
  ⟨if_pos h, by rw [UInt32.toNat_add, Nat.mod_eq_of_lt h]⟩

theorem sumWeights_ok (h : acc.toNat + weightOf healthy < 2 ^ 32) :
    ∃ total, sumWeights acc healthy = .ok total ∧
      total.toNat = acc.toNat + weightOf healthy := by
  induction healthy generalizing acc with
  | nil => exact ⟨acc, rfl, rfl⟩
  | cons i healthy ih =>
    rw [weightOf_cons] at h ⊢
    obtain ⟨hsum, hnat⟩ := @checkedAdd_ok acc i.effectiveWeight (by
      rw [toNat_effectiveWeight]
      omega)
    rw [toNat_effectiveWeight] at hnat
    obtain ⟨total, htotal, heq⟩ := @ih (acc + i.effectiveWeight) (by omega)
    refine ⟨total, ?_, by omega⟩
    rw [sumWeights, hsum]
    exact htotal

theorem sumWeights_overflow (h : 2 ^ 32 ≤ acc.toNat + weightOf healthy) :
    sumWeights acc healthy = .error .add := by
  induction healthy generalizing acc with
  | nil =>
    have := acc.toNat_lt
    simp [weightOf] at h
    omega
  | cons i healthy ih =>
    rw [weightOf_cons] at h
    by_cases hlt : acc.toNat + i.effectiveWeight.toNat < 2 ^ 32
    · obtain ⟨hsum, hnat⟩ := checkedAdd_ok hlt
      rw [toNat_effectiveWeight] at hnat
      rw [sumWeights, hsum]
      exact ih (by omega)
    · rw [sumWeights, checkedAdd, if_neg hlt]
      rfl

/-- The scan finds the instance at a position of the shares. -/
theorem scan_eq {selected : ServiceInstance} (hlo : acc ≤ slot)
    (hhi : slot.toNat < acc.toNat + weightOf healthy)
    (hfit : acc.toNat + weightOf healthy < 2 ^ 32) :
    ∃ chosen, scan slot selected acc healthy = .ok chosen ∧
      (shares healthy)[slot.toNat - acc.toNat]? = some chosen := by
  induction healthy generalizing acc with
  | nil =>
    have := UInt32.le_iff_toNat_le.mp hlo
    simp [weightOf] at hhi
    omega
  | cons i healthy ih =>
    have hlo := UInt32.le_iff_toNat_le.mp hlo
    rw [weightOf_cons] at hhi hfit
    obtain ⟨hsum, hnat⟩ := @checkedAdd_ok acc i.effectiveWeight (by
      rw [toNat_effectiveWeight]
      omega)
    rw [toNat_effectiveWeight] at hnat
    rw [scan, hsum, shares_cons]
    by_cases hlt : slot < acc + i.effectiveWeight
    · have hin := UInt32.lt_iff_toNat_lt.mp hlt
      refine ⟨i, if_pos hlt, ?_⟩
      rw [List.getElem?_append_left (by rw [List.length_replicate]; omega),
        List.getElem?_replicate, if_pos (by omega)]
    · have hle := UInt32.le_iff_toNat_le.mp (UInt32.not_lt.mp hlt)
      obtain ⟨chosen, hscan, hat⟩ := ih (UInt32.not_lt.mp hlt) (by omega) (by omega)
      refine ⟨chosen, (if_neg hlt).trans hscan, ?_⟩
      rw [List.getElem?_append_right (by rw [List.length_replicate]; omega),
        List.length_replicate, ← hat]
      congr 1
      omega

end HelixRouter.Discovery
