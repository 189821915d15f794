import HelixRouter.Containers.IterationOrder
import HelixRouter.Floats.F64
import HelixRouter.Graphs.Breadth
import HelixRouter.Runs.Stepwise
import Mathlib.Data.List.AList

set_option linter.dupNamespace false

namespace HelixRouter.CircuitMesh

open Floats Graphs Runs

inductive RouteCircuitState where
  | closed
  | opened (openedAt : Instant) (failures : UInt32)
  | halfOpen (probeSent : Bool)

structure RouteConfig where
  routeId : String
  failureThreshold : UInt32
  successThreshold : UInt32
  timeoutSecs : UInt64
  halfOpenProbeRate : Float

def RouteConfig.new (routeId : String) : RouteConfig where
  routeId := routeId
  failureThreshold := 5
  successThreshold := 2
  timeoutSecs := 30
  halfOpenProbeRate := 0.1

/-- The additions on the counters wrap, as they do in a release build. -/
structure RouteMetrics where
  totalRequests : UInt64 := 0
  failures : UInt64 := 0
  successes : UInt64 := 0
  consecutiveFailures : UInt32 := 0
  consecutiveSuccesses : UInt32 := 0
  lastFailure : Option Instant := none

structure RouteCircuit where
  config : RouteConfig
  state : RouteCircuitState := .closed
  metrics : RouteMetrics := {}

namespace RouteCircuit

def new (config : RouteConfig) : RouteCircuit := { config := config }

def isOpen (c : RouteCircuit) (now : Instant) : Bool × RouteCircuit :=
  match c.state with
  | .opened openedAt _ =>
    if c.config.timeoutSecs.toNat ≤ elapsedSecs openedAt now then
      (false, { c with state := .halfOpen false })
    else (true, c)
  | _ => (false, c)

def allowRequest (c : RouteCircuit) (now : Instant) : Bool × RouteCircuit :=
  match c.isOpen now with
  | (true, c) => (false, c)
  | (false, c) =>
    match c.state with
    | .closed => (true, c)
    | .opened _ _ => (false, c)
    | .halfOpen false => (true, { c with state := .halfOpen true })
    | .halfOpen true => (decide (1.0 ≤ c.config.halfOpenProbeRate), c)

def recordSuccess (c : RouteCircuit) : RouteCircuit :=
  let consec := c.metrics.consecutiveSuccesses + 1
  let metrics := { c.metrics with
    totalRequests := c.metrics.totalRequests + 1
    successes := c.metrics.successes + 1
    consecutiveFailures := 0
    consecutiveSuccesses := consec }
  match c.state with
  | .halfOpen _ =>
    if c.config.successThreshold ≤ consec then
      { c with state := .closed, metrics := { metrics with consecutiveSuccesses := 0 } }
    else { c with metrics := metrics }
  | _ => { c with metrics := metrics }

def recordFailure (c : RouteCircuit) (now : Instant) : RouteCircuit :=
  let consec := c.metrics.consecutiveFailures + 1
  let metrics := { c.metrics with
    totalRequests := c.metrics.totalRequests + 1
    failures := c.metrics.failures + 1
    consecutiveSuccesses := 0
    consecutiveFailures := consec
    lastFailure := some now }
  match c.state with
  | .closed =>
    if c.config.failureThreshold ≤ consec then
      { c with state := .opened now consec, metrics := { metrics with consecutiveFailures := 0 } }
    else { c with metrics := metrics }
  | .halfOpen _ =>
    { c with state := .opened now consec, metrics := { metrics with consecutiveFailures := 0 } }
  | .opened _ _ => { c with metrics := metrics }

def forceOpen (c : RouteCircuit) (now : Instant) : RouteCircuit := { c with state := .opened now 0 }

def forceClose (c : RouteCircuit) : RouteCircuit :=
  { c with
    state := .closed
    metrics := { c.metrics with consecutiveFailures := 0, consecutiveSuccesses := 0 } }

end RouteCircuit

def RouteCircuit.stateLabel (c : RouteCircuit) : String :=
  match c.state with
  | .closed => "closed"
  | .opened _ _ => "open"
  | .halfOpen _ => "half_open"

abbrev Dependencies := AList fun _ : String => List String

namespace MeshCoordination

def shouldCascadeOpen (openCount totalRoutes : Nat) (thresholdPct : F64) : Bool :=
  if totalRoutes = 0 then false
  else thresholdPct.le (.ofRat ((openCount : ℚ) / (totalRoutes : ℚ)))

/-- Enters a route under what it depends on. -/
def addDependant (route : String) (reverse : Dependencies) (dep : String) : Dependencies :=
  reverse.insert dep ((reverse.lookup dep).getD [] ++ [route])

def reverse (walk : IterationOrder (Σ _ : String, List String)) (dependencies : Dependencies) :
    Dependencies :=
  (walk.arrange dependencies.entries).foldl
    (fun reverse e => e.2.foldl (addDependant e.1) reverse) ∅

def dependants (walk : IterationOrder (Σ _ : String, List String)) (dependencies : Dependencies)
    (route : String) : List String :=
  ((reverse walk dependencies).lookup route).getD []

/-- The loop takes no more rounds than there are routes with dependencies. -/
def dependencyImpact (walk : IterationOrder (Σ _ : String, List String)) (failedRoute : String)
    (dependencies : Dependencies) : Option (List String) :=
  let next := dependants walk dependencies
  Breadth.search next dependencies.entries.length (next failedRoute)

end MeshCoordination

structure MeshHealth where
  totalRoutes : Nat
  openRoutes : Nat
  halfOpenRoutes : Nat
  closedRoutes : Nat
  overallHealthPct : F64

structure CircuitMesh where
  circuits : AList (fun _ : String => RouteCircuit) := ∅
  dependencies : Dependencies := ∅
  cascadeThreshold : F64 := .finite (1 / 2)

/-- What a cascade finds: the orders in which it walks the hash maps and the sets of impacted
routes, and what the clock reads each time it is looked at. -/
structure Walk where
  circuits : IterationOrder String
  dependencies : IterationOrder (Σ _ : String, List String)
  impacted : String → IterationOrder String
  clock : Nat → Instant

namespace CircuitMesh

def meshHealth (m : CircuitMesh) : MeshHealth :=
  let openRoutes := m.circuits.entries.countP (·.2.stateLabel = "open")
  let halfOpenRoutes := m.circuits.entries.countP (·.2.stateLabel = "half_open")
  let closedRoutes := m.circuits.entries.countP fun e =>
    e.2.stateLabel ≠ "open" ∧ e.2.stateLabel ≠ "half_open"
  let totalRoutes := openRoutes + halfOpenRoutes + closedRoutes
  { totalRoutes := totalRoutes
    openRoutes := openRoutes
    halfOpenRoutes := halfOpenRoutes
    closedRoutes := closedRoutes
    overallHealthPct :=
      if totalRoutes = 0 then .finite 100
      else (F64.ofRat ((closedRoutes : ℚ) / (totalRoutes : ℚ))).mul (.finite 100) }

def labelledOpen (m : CircuitMesh) (routeId : String) : Bool :=
  (m.circuits.lookup routeId).any (·.stateLabel = "open")

/-- Opens the circuit of a route, if it has one, at what the clock reads. -/
def forceOpen (clock : Nat → Instant) (circuits : AList fun _ : String => RouteCircuit)
    (route : String × Nat) : AList fun _ : String => RouteCircuit :=
  match circuits.lookup route.1 with
  | none => circuits
  | some c => circuits.insert route.1 (c.forceOpen (clock route.2))

/-- The routes that the open ones impact, one open route after the other. -/
def impactedRoutes (m : CircuitMesh) (walk : Walk) : List String :=
  ((walk.circuits.arrange m.circuits.keys).filter m.labelledOpen).flatMap fun failed =>
    (walk.impacted failed).arrange
      ((MeshCoordination.dependencyImpact walk.dependencies failed m.dependencies).getD [])

def thresholdReached (m : CircuitMesh) : Bool :=
  MeshCoordination.shouldCascadeOpen m.meshHealth.openRoutes m.meshHealth.totalRoutes
    m.cascadeThreshold

def cascadeOpenIfNeeded (m : CircuitMesh) (walk : Walk) : CircuitMesh :=
  if m.thresholdReached then
    { m with circuits := (m.impactedRoutes walk).zipIdx.foldl (forceOpen walk.clock) m.circuits }
  else m

end CircuitMesh

end HelixRouter.CircuitMesh
