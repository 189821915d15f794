import HelixRouter.Containers.Greatest
import Mathlib.Algebra.Order.Field.Rat
import Mathlib.Data.List.AList
import Mathlib.Data.List.Sort
import Mathlib.Tactic.Linarith
import Mathlib.Tactic.Ring

namespace HelixRouter.PriorityBalancing

inductive Priority where
  | low
  | normal
  | high
  | critical
  deriving DecidableEq

def Priority.level : Priority → Nat
  | low => 0
  | normal => 1
  | high => 2
  | critical => 3

structure WorkerStats where
  workerId : String
  queueDepth : Nat
  maxCapacity : Nat
  avgLatencyMs : ℚ
  errorRate : ℚ
  affinityTags : List String
  isHealthy : Bool

/-- For each tag the ids of the workers that carry it. -/
abbrev AffinityMap := AList (fun _ : String => List String)

namespace AffinityMap

def ids (map : AffinityMap) (tag : String) : List String := (map.lookup tag).getD []

def push (id : String) (map : AffinityMap) (tag : String) : AffinityMap :=
  map.insert tag (ids map tag ++ [id])

def drop (id : String) (map : AffinityMap) (tag : String) : AffinityMap :=
  match map.lookup tag with
  | none => map
  | some ids => map.insert tag (ids.filter (· ≠ id))

end AffinityMap

/-- The workers in the order of their registration, and a reverse index of their tags. -/
structure PriorityLoadBalancer where
  workers : List WorkerStats := []
  affinityMap : AffinityMap := ∅

namespace PriorityLoadBalancer

def position (lb : PriorityLoadBalancer) (workerId : String) : Option Nat :=
  lb.workers.findIdx? fun w => w.workerId = workerId

def removeWorker (lb : PriorityLoadBalancer) (workerId : String) : PriorityLoadBalancer :=
  match lb.position workerId with
  | none => lb
  | some pos =>
    { workers := lb.workers.eraseIdx pos
      affinityMap := ((lb.workers[pos]?.map (·.affinityTags)).getD []).foldl
        (AffinityMap.drop workerId) lb.affinityMap }

def registerWorker (lb : PriorityLoadBalancer) (stats : WorkerStats) : PriorityLoadBalancer :=
  let lb := lb.removeWorker stats.workerId
  { workers := lb.workers ++ [stats]
    affinityMap := stats.affinityTags.foldl (AffinityMap.push stats.workerId) lb.affinityMap }

/-- The stats of a registered worker are replaced in place, by those of another id if they
carry one. -/
def updateWorker (lb : PriorityLoadBalancer) (workerId : String) (stats : WorkerStats) :
    PriorityLoadBalancer :=
  match lb.position workerId with
  | some pos =>
    let untagged := ((lb.workers[pos]?.map (·.affinityTags)).getD []).foldl
      (AffinityMap.drop workerId) lb.affinityMap
    { workers := lb.workers.set pos stats
      affinityMap := stats.affinityTags.foldl (AffinityMap.push stats.workerId) untagged }
  | none => lb.registerWorker stats

def workersForTag (lb : PriorityLoadBalancer) (tag : String) : List String :=
  AffinityMap.ids lb.affinityMap tag

end PriorityLoadBalancer

/-- The free part of a worker's capacity. -/
def WorkerStats.capacityRatio (w : WorkerStats) : ℚ :=
  max 0 (min 1 (if w.maxCapacity > 0 then 1 - w.queueDepth / w.maxCapacity else 0))

def WorkerStats.affinityCount (w : WorkerStats) (tags : List String) : Nat :=
  tags.countP (· ∈ w.affinityTags)

def scoreWorker (w : WorkerStats) (priority : Priority) (tags : List String) : ℚ :=
  let priorityBonus := (priority.level : ℚ) * 10
  let capacityScore := w.capacityRatio * 50
  let capacityScore := if priority = .critical then capacityScore * 2 else capacityScore
  let affinityScore := (w.affinityCount tags : ℚ) * 20
  let latencyPenalty := w.avgLatencyMs * (1 / 10)
  let errorPenalty := w.errorRate * 30
  priorityBonus + capacityScore + affinityScore - latencyPenalty - errorPenalty

namespace PriorityLoadBalancer

/-- One step of the scan: a worker is taken whose score is greater than the best so far. -/
def consider (priority : Priority) (tags : List String) (best : Option (ℚ × String))
    (w : WorkerStats) : Option (ℚ × String) :=
  if w.isHealthy then
    let score := scoreWorker w priority tags
    match best with
    | none => some (score, w.workerId)
    | some (bestScore, bestId) =>
      if score > bestScore then some (score, w.workerId) else some (bestScore, bestId)
  else best

def selectWorker (lb : PriorityLoadBalancer) (priority : Priority) (tags : List String) :
    Option String :=
  (lb.workers.foldl (consider priority tags) none).map (·.2)

def healthyWorkers (lb : PriorityLoadBalancer) : List WorkerStats := lb.workers.filter (·.isHealthy)

/-- A stable sort, the greatest score first. -/
def selectTopWorkers (lb : PriorityLoadBalancer) (priority : Priority) (tags : List String)
    (n : Nat) : List String :=
  let scored := lb.healthyWorkers.map fun w => (scoreWorker w priority tags, w.workerId)
  ((scored.insertionSort fun a b => b.1 ≤ a.1).take n).map (·.2)

end PriorityLoadBalancer

namespace PriorityLoadBalancer

/-- A healthy worker of an id has as great a part of its capacity free as any has. -/
def Freest (lb : PriorityLoadBalancer) (id : String) : Prop :=
  ∃ w ∈ lb.healthyWorkers, w.workerId = id ∧
    ∀ v ∈ lb.healthyWorkers, v.capacityRatio ≤ w.capacityRatio

def TakesFreest (lb : PriorityLoadBalancer) (tags : List String) : Prop :=
  match lb.selectWorker .critical tags with
  | none => lb.healthyWorkers = []
  | some id => lb.Freest id

/-- Against each healthy worker that is not among the freest, a freest one makes up for the
tags: each counts as much as a fifth of the capacity. Where they are even it comes first. -/
def FreedomOutweighsTags (lb : PriorityLoadBalancer) (tags : List String) : Prop :=
  ∃ i, ∃ hi : i < lb.healthyWorkers.length, lb.Freest lb.healthyWorkers[i].workerId ∧
    ∀ j, ∀ hj : j < lb.healthyWorkers.length, ¬ lb.Freest lb.healthyWorkers[j].workerId →
      let gain := 5 * (lb.healthyWorkers[i].capacityRatio - lb.healthyWorkers[j].capacityRatio)
      let loss : ℚ := lb.healthyWorkers[j].affinityCount tags -
        lb.healthyWorkers[i].affinityCount tags
      loss < gain ∨ loss = gain ∧ i < j

variable (lb : PriorityLoadBalancer) (priority : Priority) (tags : List String)

/-- The scan finds the first of the healthy workers with the greatest score. -/
theorem foldl_consider (workers : List WorkerStats) :
    workers.foldl (consider priority tags) none =
      ((workers.filter (·.isHealthy)).argmax fun w => scoreWorker w priority tags).map
        fun w => (scoreWorker w priority tags, w.workerId) := by
  induction workers using List.reverseRecOn with
  | nil => rfl
  | append_singleton workers w ih =>
    rw [List.foldl_append, List.foldl_cons, List.foldl_nil, ih, consider, List.filter_append]
    by_cases hw : w.isHealthy
    · rw [if_pos hw, List.filter_cons_of_pos hw, List.filter_nil, List.argmax_concat]
      cases (workers.filter (·.isHealthy)).argmax fun w => scoreWorker w priority tags with
      | none => rfl
      | some best =>
        simp only [Option.map_some]
        split <;> rfl
    · rw [if_neg hw, List.filter_cons_of_neg hw, List.filter_nil, List.append_nil]

theorem selectWorker_eq : lb.selectWorker priority tags =
    (lb.healthyWorkers.argmax fun w => scoreWorker w priority tags).map (·.workerId) := by
  rw [selectWorker, foldl_consider, Option.map_map]
  rfl

/-- The scan and the sort agree, on all ties. -/
theorem head?_selectTopWorkers {n : Nat} (hn : 1 ≤ n) :
    (lb.selectTopWorkers priority tags n).head? = lb.selectWorker priority tags := by
  have htake : ∀ l : List (ℚ × String), (l.take n).head? = l.head? := by
    intro l
    rw [List.head?_take, if_neg (Nat.ne_of_gt hn)]
  rw [selectTopWorkers, List.head?_map, htake, List.head?_insertionSort, List.argmax_map,
    Option.map_map, selectWorker_eq]
  rfl

/-- Between workers of equal statistics the score of critical work weighs the capacity that is
free against the tags. -/
theorem score_critical {w v : WorkerStats} (hlatency : w.avgLatencyMs = v.avgLatencyMs)
    (herror : w.errorRate = v.errorRate) :
    scoreWorker w .critical tags - scoreWorker v .critical tags =
      20 * (5 * (w.capacityRatio - v.capacityRatio) -
        (v.affinityCount tags - w.affinityCount tags)) := by
  simp only [scoreWorker, hlatency, herror, if_true]
  ring

variable {lb tags}

theorem takesFreest_iff (heq : ∀ w ∈ lb.healthyWorkers, ∀ v ∈ lb.healthyWorkers,
    w.avgLatencyMs = v.avgLatencyMs ∧ w.errorRate = v.errorRate) :
    lb.TakesFreest tags ↔ (lb.healthyWorkers ≠ [] → lb.FreedomOutweighsTags tags) := by
  rw [TakesFreest, selectWorker_eq]
  cases hbest : lb.healthyWorkers.argmax fun w => scoreWorker w .critical tags with
  | none =>
    have hnil := List.argmax_eq_none.mp hbest
    exact iff_of_true hnil fun hne => absurd hnil hne
  | some best =>
    obtain ⟨i, hi, rfl, hfirst⟩ := List.argmax_first hbest
    have hne : lb.healthyWorkers ≠ [] := List.ne_nil_of_length_pos (Nat.zero_lt_of_lt hi)
    rw [forall_prop_of_true hne, Option.map_some]
    constructor
    · intro hfreest
      refine ⟨i, hi, hfreest, fun j hj hnot => ?_⟩
      obtain ⟨hle, hties⟩ := hfirst j hj
      obtain ⟨hlatency, herror⟩ := heq _ (List.getElem_mem hi) _ (List.getElem_mem hj)
      have hscore := score_critical tags hlatency herror
      rcases lt_or_eq_of_le hle with hlt | hsame
      · left
        linarith
      · right
        refine ⟨by linarith, lt_of_le_of_ne (hties hsame) ?_⟩
        rintro rfl
        exact hnot hfreest
    · rintro ⟨k, hk, hfreest, hall⟩
      by_contra hnot
      obtain ⟨hle, hties⟩ := hfirst k hk
      obtain ⟨hlatency, herror⟩ := heq _ (List.getElem_mem hk) _ (List.getElem_mem hi)
      have hscore := score_critical tags hlatency herror
      rcases hall i hi hnot with hlt | ⟨hsame, hbefore⟩
      · linarith
      · exact absurd (hties (by linarith)) (Nat.not_le.mpr hbefore)

end PriorityLoadBalancer

open PriorityLoadBalancer

/-- Critical work goes to a freest worker just where no tags outweigh the capacity, and at
every priority the selected worker is the first of the top workers. -/
theorem critical_override_iff (lb : PriorityLoadBalancer) (tags : List String)
    (heq : ∀ w ∈ lb.healthyWorkers, ∀ v ∈ lb.healthyWorkers,
      w.avgLatencyMs = v.avgLatencyMs ∧ w.errorRate = v.errorRate) :
    (lb.TakesFreest tags ↔ (lb.healthyWorkers ≠ [] → lb.FreedomOutweighsTags tags)) ∧
      ∀ priority n, 1 ≤ n →
        (lb.selectTopWorkers priority tags n).head? = lb.selectWorker priority tags :=
  ⟨takesFreest_iff heq, fun priority _ hn => lb.head?_selectTopWorkers priority tags hn⟩

def pair (idleTags busyTags : List String) : PriorityLoadBalancer where
  workers := [⟨"idle", 0, 10, 10, 0, idleTags, true⟩, ⟨"busy", 1, 10, 10, 0, busyTags, true⟩]

theorem critical_override_iff_pair :
    ((pair [] []).selectTopWorkers .critical ["gpu"] 1).head? =
      (pair [] []).selectWorker .critical ["gpu"] := by
  apply (critical_override_iff (pair [] []) ["gpu"] ?_).2 .critical 1 (Nat.le_refl 1)
  simp [pair, healthyWorkers]

/-- One tag outweighs a tenth of the capacity. -/
theorem tag_beats_freedom : (∀ w ∈ (pair [] ["gpu"]).healthyWorkers,
    ∀ v ∈ (pair [] ["gpu"]).healthyWorkers,
      w.avgLatencyMs = v.avgLatencyMs ∧ w.errorRate = v.errorRate) ∧
    ¬ (pair [] ["gpu"]).TakesFreest ["gpu"] := by
  refine ⟨by simp [pair, healthyWorkers], fun h => ?_⟩
  have hbusy : (pair [] ["gpu"]).selectWorker .critical ["gpu"] = some "busy" := by
    decide +kernel
  rw [TakesFreest, hbusy] at h
  obtain ⟨w, hw, hid, hmost⟩ := h
  have hin : w ∈ (pair [] ["gpu"]).workers := List.mem_of_mem_filter hw
  rcases List.mem_pair.mp hin with rfl | rfl
  · exact absurd hid (by decide)
  · exact absurd (hmost _ List.mem_cons_self) (by decide +kernel)

end HelixRouter.PriorityBalancing
