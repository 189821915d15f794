import HelixRouter.Containers.Greatest
import HelixRouter.Containers.Retain
import HelixRouter.Runs.Stepwise
import Mathlib.Data.List.AList
import Mathlib.Data.UInt

namespace HelixRouter.Failover

open Runs

structure Endpoint where
  id : String
  url : String
  priority : UInt8
  healthy : Bool := true
  failureCount : UInt32 := 0
  lastFailure : Option Instant := none
  deriving DecidableEq

structure FailoverConfig where
  failureThreshold : UInt32 := 3
  recoveryTimeoutSecs : UInt64 := 30
  maxRetries : UInt32 := 3

/-- A lower value is a higher priority. -/
def Endpoint.rank (e : Endpoint) : Nat := e.priority.toNat

structure FailoverGroup where
  name : String
  endpoints : List Endpoint
  config : FailoverConfig
  currentPrimaryIdx : Nat := 0

namespace FailoverGroup

def new (name : String) (endpoints : List Endpoint) (config : FailoverConfig) : FailoverGroup where
  name := name
  endpoints := endpoints
  config := config

/-- Of several endpoints with the highest priority the first one is taken. -/
def primary (g : FailoverGroup) : Option Endpoint :=
  (g.endpoints.filter (·.healthy)).argmin Endpoint.rank

def markFailed (g : FailoverGroup) (endpointId : String) (now : Instant) : FailoverGroup :=
  let fail (e : Endpoint) : Endpoint :=
    let failures := e.failureCount + 1
    { e with
      failureCount := failures
      lastFailure := some now
      healthy := if g.config.failureThreshold ≤ failures then false else e.healthy }
  { g with endpoints := g.endpoints.modifyFirst (·.id = endpointId) fail }

def markRecovered (g : FailoverGroup) (endpointId : String) : FailoverGroup :=
  let recover (e : Endpoint) : Endpoint :=
    { e with healthy := true, failureCount := 0, lastFailure := none }
  { g with endpoints := g.endpoints.modifyFirst (·.id = endpointId) recover }

/-- An endpoint that failed long enough ago may be tried again. -/
def checkRecovery (g : FailoverGroup) (now : Instant) : FailoverGroup :=
  let timeout := g.config.recoveryTimeoutSecs.toNat * nanosPerSec
  let probe (e : Endpoint) : Endpoint :=
    match e.lastFailure with
    | some last => if ¬ e.healthy ∧ timeout ≤ now - last then { e with healthy := true } else e
    | none => e
  { g with endpoints := g.endpoints.map probe }

def currentPriority (g : FailoverGroup) : Option UInt8 :=
  g.endpoints[g.currentPrimaryIdx]?.map (·.priority)

/-- Candidates are told apart from the current endpoint by their priority. -/
def failover (g : FailoverGroup) : Option Endpoint × FailoverGroup :=
  let candidates := g.endpoints.zipIdx.filter fun (e, _) =>
    e.healthy && some e.priority ≠ g.currentPriority
  match candidates.argmin (·.1.rank) with
  | some (_, idx) => (g.endpoints[idx]?, { g with currentPrimaryIdx := idx })
  | none => (none, g)

end FailoverGroup

structure FailoverManager where
  groups : AList (fun _ : String => FailoverGroup) := ∅

namespace FailoverManager

def new : FailoverManager := {}

def registerGroup (m : FailoverManager) (group : FailoverGroup) : FailoverManager :=
  { m with groups := m.groups.insert group.name group }

def getEndpoint (m : FailoverManager) (groupName : String) : Option Endpoint :=
  (m.groups.lookup groupName).bind (·.primary)

def withGroup (m : FailoverManager) (groupName : String) (f : FailoverGroup → FailoverGroup) :
    FailoverManager :=
  match m.groups.lookup groupName with
  | some group => { m with groups := m.groups.insert groupName (f group) }
  | none => m

def reportFailure (m : FailoverManager) (groupName endpointId : String) (now : Instant) :
    FailoverManager :=
  m.withGroup groupName (·.markFailed endpointId now)

def reportSuccess (m : FailoverManager) (groupName endpointId : String) : FailoverManager :=
  m.withGroup groupName (·.markRecovered endpointId)

end FailoverManager

open Runs

inductive ManagerOp where
  | registerGroup (group : FailoverGroup)
  | reportFailure (groupName endpointId : String) (now : Instant)
  | reportSuccess (groupName endpointId : String)

namespace ManagerOp

def apply (m : FailoverManager) : ManagerOp → FailoverManager
  | registerGroup group => m.registerGroup group
  | reportFailure groupName endpointId now => m.reportFailure groupName endpointId now
  | reportSuccess groupName endpointId => m.reportSuccess groupName endpointId

/-- The one group that may change. -/
def groupName : ManagerOp → String
  | registerGroup group => group.name
  | reportFailure groupName _ _ => groupName
  | reportSuccess groupName _ => groupName

end ManagerOp

namespace FailoverManager

variable {m : FailoverManager} {name other : String} {ops : List ManagerOp}

theorem lookup_withGroup (h : other ≠ name) (f : FailoverGroup → FailoverGroup) :
    (m.withGroup other f).groups.lookup name = m.groups.lookup name := by
  unfold withGroup
  split
  · exact AList.lookup_insert_ne h.symm
  · rfl

theorem lookup_apply {op : ManagerOp} (h : op.groupName ≠ name) :
    (op.apply m).groups.lookup name = m.groups.lookup name := by
  cases op with
  | registerGroup group => exact AList.lookup_insert_ne h.symm
  | reportFailure groupName endpointId now => exact lookup_withGroup h _
  | reportSuccess groupName endpointId => exact lookup_withGroup h _

/-- A group stays as it is while the manager works on others. -/
theorem lookup_run (h : ∀ op ∈ ops, op.groupName ≠ name) :
    (ops.foldl ManagerOp.apply m).groups.lookup name = m.groups.lookup name := by
  induction ops generalizing m with
  | nil => rfl
  | cons op ops ih =>
    obtain ⟨hop, hops⟩ := List.forall_mem_cons.mp h
    rw [List.foldl_cons, ih hops, lookup_apply hop]

end FailoverManager

namespace FailoverGroup

/-- A healthy endpoint other than the current one. -/
def Alternative (g : FailoverGroup) (i : Nat) (e : Endpoint) : Prop :=
  g.endpoints[i]? = some e ∧ e.healthy ∧ i ≠ g.currentPrimaryIdx

/-- Whatever manager the group is in hands the endpoint out, for as long as it works on others. -/
def HandsOut (g : FailoverGroup) (e : Endpoint) : Prop :=
  ∀ m : FailoverManager, m.groups.lookup g.name = some g →
    ∀ ops : List ManagerOp, (∀ op ∈ ops, op.groupName ≠ g.name) →
      (ops.foldl ManagerOp.apply m).getEndpoint g.name = some e

/-- To fail over is to go to the best of the alternatives, which is then handed out. -/
def ReachesAlternatives (g : FailoverGroup) : Prop :=
  (g.failover.1.isSome ↔ ∃ i e, g.Alternative i e) ∧
    ∀ e, g.failover.1 = some e →
      g.Alternative g.failover.2.currentPrimaryIdx e ∧
        (∀ i d, g.Alternative i d → e.priority ≤ d.priority) ∧ g.failover.2.HandsOut e

/-- There is no alternative, or no healthy endpoint has the priority of the current one, or
some healthy endpoint has a higher one. -/
def CurrentApart (g : FailoverGroup) : Prop :=
  (∀ i e, ¬ g.Alternative i e) ∨
    (∀ e ∈ g.endpoints, e.healthy → some e.priority ≠ g.currentPriority) ∨
    ∃ e ∈ g.endpoints, e.healthy ∧ ∃ p, g.currentPriority = some p ∧ e.priority < p

section Candidates

variable {g : FailoverGroup} {e : Endpoint} {i : Nat}

/-- The healthy endpoints, with their places. -/
def healthy (g : FailoverGroup) : List (Endpoint × Nat) :=
  g.endpoints.zipIdx.filter fun (e, _) => e.healthy

def candidates (g : FailoverGroup) : List (Endpoint × Nat) :=
  g.healthy.filter fun (e, _) => some e.priority ≠ g.currentPriority

theorem mem_healthy : (e, i) ∈ g.healthy ↔ g.endpoints[i]? = some e ∧ e.healthy := by
  rw [healthy, List.mem_filter, List.mem_zipIdx_iff_getElem?]

theorem mem_candidates :
    (e, i) ∈ g.candidates ↔ (e, i) ∈ g.healthy ∧ some e.priority ≠ g.currentPriority := by
  rw [candidates, List.mem_filter]
  simp

theorem exists_mem_healthy (he : e ∈ g.endpoints) (hh : e.healthy) : ∃ i, (e, i) ∈ g.healthy := by
  obtain ⟨i, hi⟩ := List.mem_iff_getElem?.mp he
  exact ⟨i, mem_healthy.mpr ⟨hi, hh⟩⟩

theorem alternative_of_candidate (h : (e, i) ∈ g.candidates) : g.Alternative i e := by
  obtain ⟨hmem, hne⟩ := mem_candidates.mp h
  obtain ⟨hget, hh⟩ := mem_healthy.mp hmem
  refine ⟨hget, hh, ?_⟩
  rintro rfl
  exact hne (by rw [currentPriority, hget]; rfl)

theorem primary_eq : g.primary = (g.healthy.argmin (·.1.rank)).map (·.1) := by
  have hsplit : g.endpoints.filter (·.healthy) = g.healthy.map (·.1) := by
    conv_lhs => rw [← List.zipIdx_map_fst 0 g.endpoints]
    exact List.filter_map
  rw [primary, hsplit]
  exact List.argmin_map _ _ _

theorem failover_of_some (h : (g.candidates.argmin (·.1.rank)) = some (e, i)) :
    g.failover = (some e, { g with currentPrimaryIdx := i }) := by
  have hget := (mem_healthy.mp (mem_candidates.mp (List.argmin_mem h)).1).1
  rw [candidates, healthy, List.filter_filter] at h
  rw [failover]
  simp only [Bool.and_comm] at h ⊢
  rw [h]
  simp only [hget]

theorem failover_of_none (h : (g.candidates.argmin (·.1.rank)) = none) :
    g.failover = (none, g) := by
  rw [candidates, healthy, List.filter_filter] at h
  rw [failover]
  simp only [Bool.and_comm] at h ⊢
  rw [h]

theorem handsOut_iff : g.HandsOut e ↔ g.primary = some e := by
  constructor
  · intro h
    have hlookup : (FailoverManager.new.registerGroup g).groups.lookup g.name = some g :=
      AList.lookup_insert _
    have hend := h _ hlookup [] (by simp)
    rwa [List.foldl_nil, FailoverManager.getEndpoint, hlookup] at hend
  · intro h m hlookup ops hops
    rw [FailoverManager.getEndpoint, FailoverManager.lookup_run hops, hlookup]
    exact h

theorem argmin_candidates
    (h : (∀ e ∈ g.endpoints, e.healthy → some e.priority ≠ g.currentPriority) ∨
      ∃ e ∈ g.endpoints, e.healthy ∧ ∃ p, g.currentPriority = some p ∧ e.priority < p) :
    (g.candidates.argmin (·.1.rank)) = g.healthy.argmin (·.1.rank) := by
  apply List.argmin_filter
  rintro ⟨d, i⟩ hd htied
  obtain ⟨hget, hh⟩ := mem_healthy.mp hd
  have htied : some d.priority = g.currentPriority := by simpa using htied
  rcases h with hapart | ⟨e, he, heh, p, hp, hlt⟩
  · exact absurd htied (hapart d (List.mem_of_getElem? hget) hh)
  · obtain ⟨j, hj⟩ := exists_mem_healthy he heh
    have hdp : d.priority = p := Option.some.inj (htied.trans hp)
    exact ⟨(e, j), hj, UInt8.lt_iff_toNat_lt.mp (hdp ▸ hlt)⟩

/-- Where there is an alternative, the best healthy endpoint is the best candidate. -/
theorem reachesAlternatives_of_argmin (hsome : ∃ i e, g.Alternative i e)
    (h : (g.candidates.argmin (·.1.rank)) = g.healthy.argmin (·.1.rank)) :
    g.ReachesAlternatives := by
  obtain ⟨j, d, hget, hh, -⟩ := hsome
  have hne : g.healthy ≠ [] := List.ne_nil_of_mem (mem_healthy.mpr ⟨hget, hh⟩)
  have hnone : (g.healthy.argmin (·.1.rank)) ≠ none := by
    rwa [ne_eq, List.argmin_eq_none]
  obtain ⟨⟨e, i⟩, hbest⟩ := Option.ne_none_iff_exists'.mp hnone
  have hcandidate := h.trans hbest
  have halternative := alternative_of_candidate (List.argmin_mem hcandidate)
  rw [ReachesAlternatives, failover_of_some hcandidate]
  refine ⟨iff_of_true rfl ⟨i, e, halternative⟩, ?_⟩
  rintro _ ⟨⟩
  refine ⟨halternative, fun k c hc => ?_, ?_⟩
  · have hle := List.le_of_mem_argmin (mem_healthy.mpr ⟨hc.1, hc.2.1⟩) hbest
    exact UInt8.le_iff_toNat_le.mpr hle
  · apply handsOut_iff.mpr
    have hprimary := primary_eq (g := g)
    rw [hbest] at hprimary
    exact hprimary

theorem reachesAlternatives_of_none (h : ∀ i e, ¬ g.Alternative i e) : g.ReachesAlternatives := by
  have hnil : g.candidates = [] := by
    apply List.eq_nil_iff_forall_not_mem.mpr
    rintro ⟨e, i⟩ hmem
    exact h i e (alternative_of_candidate hmem)
  rw [ReachesAlternatives, failover_of_none (List.argmin_eq_none.mpr hnil)]
  refine ⟨iff_of_false (by simp) ?_, by simp⟩
  rintro ⟨i, e, he⟩
  exact h i e he

theorem CurrentApart.reachesAlternatives (h : g.CurrentApart) : g.ReachesAlternatives := by
  by_cases hsome : ∃ i e, g.Alternative i e
  · apply reachesAlternatives_of_argmin hsome
    rcases h with hnone | happart
    · obtain ⟨i, e, he⟩ := hsome
      exact absurd he (hnone i e)
    · exact argmin_candidates happart
  · apply reachesAlternatives_of_none
    intro i e he
    exact hsome ⟨i, e, he⟩

/-- An endpoint tied with the current one, and with none better, is neither reached nor
outranked by what is. -/
theorem ReachesAlternatives.currentApart (h : g.ReachesAlternatives) : g.CurrentApart := by
  by_contra hnot
  rw [CurrentApart, not_or, not_or] at hnot
  obtain ⟨hsome, htied, hbest⟩ := hnot
  push Not at hsome htied
  obtain ⟨d, hd, hdh, hdp⟩ := htied
  obtain ⟨hiff, hreached⟩ := h
  obtain ⟨e, he⟩ := Option.isSome_iff_exists.mp (hiff.mpr hsome)
  have hprimary := handsOut_iff.mp (hreached e he).2.2
  cases hc : g.candidates.argmin (·.1.rank) with
  | none => simp [failover_of_none hc] at he
  | some best =>
    rw [failover_of_some hc] at he hprimary
    obtain ⟨hmem, hne⟩ := mem_candidates.mp (List.argmin_mem hc)
    obtain ⟨hget, hh⟩ := mem_healthy.mp hmem
    obtain rfl : best.1 = e := Option.some.inj he
    have hle : best.1.rank ≤ d.rank :=
      List.le_of_mem_argmin (List.mem_filter.mpr ⟨hd, hdh⟩) hprimary
    refine hbest ⟨best.1, List.mem_of_getElem? hget, hh, d.priority, hdp.symm, ?_⟩
    apply UInt8.lt_iff_toNat_lt.mpr
    apply Nat.lt_of_le_of_ne hle
    intro heq
    exact hne (hdp ▸ congrArg some (UInt8.toNat_inj.mp heq))

end Candidates

end FailoverGroup

inductive Op where
  | markFailed (endpointId : String) (now : Instant)
  | markRecovered (endpointId : String)
  | checkRecovery (now : Instant)
  | failover

namespace FailoverGroup

def next (g : FailoverGroup) : Op → FailoverGroup
  | .markFailed endpointId now => g.markFailed endpointId now
  | .markRecovered endpointId => g.markRecovered endpointId
  | .checkRecovery now => g.checkRecovery now
  | .failover => g.failover.2

def step (g : FailoverGroup) (op : Op) : Option FailoverGroup := some (g.next op)

end FailoverGroup

open FailoverGroup

/-- Along a run every alternative is reached just where the current endpoint is always told
apart by its priority. -/
theorem reaches_alternatives_iff (name : String) (endpoints : List Endpoint)
    (config : FailoverConfig) (ops : List Op) :
    Throughout step ReachesAlternatives (new name endpoints config) ops ↔
      Throughout step CurrentApart (new name endpoints config) ops :=
  ⟨fun h => h.imp fun _ hg => hg.currentApart, fun h => h.imp fun _ hg => hg.reachesAlternatives⟩

def replicas : FailoverGroup :=
  new "db" [⟨"a", "http://a", 0, true, 0, none⟩, ⟨"b", "http://b", 0, true, 0, none⟩] {}

/-- The second of two replicas with one priority is never failed over to. -/
theorem replicas_not_reached : ¬ Throughout step ReachesAlternatives replicas [] := by
  intro h
  have hnone : replicas.failover.1 = none := by decide
  have hsome := h.1.mpr ⟨1, ⟨"b", "http://b", 0, true, 0, none⟩, rfl, rfl, by decide⟩
  rw [hnone] at hsome
  cases hsome

end HelixRouter.Failover
