import HelixRouter.Dag.JobDag
import HelixRouter.Graphs.Cycles

namespace HelixRouter.Dag

abbrev Degree := Σ _ : NodeId, Nat

structure Sorting where
  inDegree : AList (fun _ : NodeId => Nat)
  queue : List NodeId
  order : List NodeId := []

/-- Counts down the nodes that depend on one, and queues those that reach zero. -/
def releaseDependants (node : NodeId) : List Entry → Sorting → Sorting
  | [], s => s
  | ⟨otherId, other⟩ :: rest, s =>
    if node ∈ other.dependsOn then
      let deg := (s.inDegree.lookup otherId).getD 0 - 1
      releaseDependants node rest { s with
        inDegree := s.inDegree.insert otherId deg
        queue := if deg = 0 then s.queue ++ [otherId] else s.queue }
    else releaseDependants node rest s

/-- The loop takes out each node at most once. -/
def sortNodes (nodes : List Entry) : Nat → Sorting → Option Sorting
  | 0, s => if s.queue = [] then some s else none
  | n + 1, s =>
    match s.queue with
    | [] => some s
    | node :: rest =>
      sortNodes nodes n
        (releaseDependants node nodes { s with queue := rest, order := s.order ++ [node] })

/-- What a node answers when its task is joined: the outputs of its job or nothing if
the router dropped it. A task may also panic or be cancelled. -/
inductive Joined where
  | returned (outputs : Option (List Output))
  | failed

/-- What one execution depends on besides its graph: the orders its maps are walked in
and its waves complete in, and the answers of the router. -/
structure Runtime where
  nodes : IterationOrder Entry := .inserted Entry
  degrees : IterationOrder Degree := .inserted Degree
  arrival : IterationOrder NodeId := .inserted NodeId
  answer : NodeId → Joined

namespace JobDag

def topologicalOrder (rt : Runtime) (dag : JobDag) : Option (List NodeId) :=
  let nodes := rt.nodes.arrange dag.nodes.entries
  let inDegree := dag.nodes.mapValues fun _ node => node.dependsOn.length
  let queue := ((rt.degrees.arrange inDegree.entries).filter (fun e => e.2 = 0)).map Sigma.fst
  match sortNodes nodes nodes.length { inDegree, queue } with
  | none => none
  | some s => if s.order.length = dag.nodes.entries.length then some s.order else none

/-- The nodes that no other node depends on. -/
def leafNodes (dag : JobDag) : List NodeId :=
  let nonLeaves := dag.nodes.entries.flatMap fun e => e.2.dependsOn
  dag.nodes.keys.filter (· ∉ nonLeaves)

end JobDag

/-- What an execution does towards the router. -/
inductive Event where
  | submitted (id : NodeId) (job : Job)
  | joined (id : NodeId) (outputs : Option (List Output))

structure Execution where
  nodesMap : AList (fun _ : NodeId => DagNode)
  completed : AList (fun _ : NodeId => List Output) := ∅
  nodesDropped : Nat := 0
  events : List Event := []

structure DagResult where
  allOutputs : AList (fun _ : NodeId => List Output)
  leafOutputs : AList (fun _ : NodeId => List Output)
  nodesExecuted : Nat
  nodesDropped : Nat

/-- The nodes of the next wave, and those that have to wait. -/
def splitReady (s : Execution) : List NodeId → Except DagError (List NodeId × List NodeId)
  | [] => .ok ([], [])
  | id :: remaining =>
    match s.nodesMap.lookup id with
    | none => .error (.unknownNode id)
    | some node =>
      match splitReady s remaining with
      | .error e => .error e
      | .ok (wave, next) =>
        if node.dependsOn.all (· ∈ s.completed) then .ok (id :: wave, next)
        else .ok (wave, id :: next)

/-- Hands the jobs of a wave to the router. -/
def submitWave : List NodeId → Execution → Execution × Option DagError
  | [], s => (s, none)
  | id :: wave, s =>
    match s.nodesMap.lookup id with
    | none => (s, some (.unknownNode id))
    | some node =>
      submitWave wave { s with
        nodesMap := s.nodesMap.erase id
        events := s.events ++ [.submitted id node.job] }

def usizeMax : Nat := 18446744073709551615

/-- A node that was dropped counts as completed, with no outputs. -/
def collect (answer : NodeId → Joined) : List NodeId → Execution → Execution × Option DagError
  | [], s => (s, none)
  | id :: rest, s =>
    match answer id with
    | .returned (some outputs) =>
      collect answer rest { s with
        completed := s.completed.insert id outputs
        events := s.events ++ [.joined id (some outputs)] }
    | .returned none =>
      collect answer rest { s with
        nodesDropped := s.nodesDropped + 1
        completed := s.completed.insert id []
        events := s.events ++ [.joined id none] }
    | .failed => (s, some (.taskFailed usizeMax))

/-- Every wave takes at least one node, so there are at most as many waves as nodes. -/
def runWaves (rt : Runtime) : Nat → List NodeId → Execution → Execution × Option DagError
  | 0, _, s => (s, none)
  | n + 1, remaining, s =>
    if remaining = [] then (s, none)
    else
      match splitReady s remaining with
      | .error e => (s, some e)
      | .ok (wave, next) =>
        if wave = [] ∧ next ≠ [] then (s, none)
        else
          match submitWave wave s with
          | (s, some e) => (s, some e)
          | (s, none) =>
            match collect rt.answer (rt.arrival.arrange wave) s with
            | (s, some e) => (s, some e)
            | (s, none) => runWaves rt n next s

def DagResult.of (dag : JobDag) (s : Execution) : DagResult where
  allOutputs := s.completed
  leafOutputs := s.completed.retain fun id _ => id ∈ dag.leafNodes
  nodesExecuted := s.completed.entries.length
  nodesDropped := s.nodesDropped

/-- The events of an execution and what it returns. -/
def execute (rt : Runtime) (dag : JobDag) : List Event × Except DagError DagResult :=
  if dag.nodes.entries = [] then ([], .error .emptyDag)
  else
    match dag.topologicalOrder rt with
    | none => ([], .error (.cycleDetected 0 0))
    | some topo =>
      match runWaves rt topo.length topo { nodesMap := dag.nodes } with
      | (s, some e) => (s.events, .error e)
      | (s, none) => (s.events, .ok (.of dag s))

end HelixRouter.Dag
