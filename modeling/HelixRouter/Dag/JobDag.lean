import HelixRouter.Containers.IterationOrder
import HelixRouter.Containers.Retain
import HelixRouter.Graphs.DepthFirst
import HelixRouter.Router.Types

namespace HelixRouter.Dag

open Relation Graphs

abbrev NodeId := Nat

structure DagNode where
  job : Job
  dependsOn : List NodeId := []
  output : Option (List Output) := none

structure JobDag where
  nodes : AList (fun _ : NodeId => DagNode) := ∅
  nextId : Nat := 0

abbrev Entry := Σ _ : NodeId, DagNode

inductive DagError where
  | cycleDetected (fromId toId : NodeId)
  | unknownNode (id : NodeId)
  | emptyDag
  | jobDropped (id : NodeId)
  | taskFailed (id : NodeId)
  deriving DecidableEq

namespace JobDag

def addNode (dag : JobDag) (job : Job) : NodeId × JobDag :=
  (dag.nextId, ⟨dag.nodes.insert dag.nextId { job }, dag.nextId + 1⟩)

def updateDependsOn (dag : JobDag) (id : NodeId) (f : List NodeId → List NodeId) : JobDag :=
  { dag with nodes := dag.nodes.mapValues fun other node =>
      if other = id then { node with dependsOn := f node.dependsOn } else node }

/-- Scans every node for those that depend on the one visited. -/
def scanNodes (node : NodeId) (visit : NodeId → Marks NodeId → Option (Bool × Marks NodeId)) :
    List Entry → Marks NodeId → Option (Bool × Marks NodeId)
  | [], m => some (false, m)
  | ⟨otherId, other⟩ :: rest, m =>
    if node ∈ other.dependsOn then
      if otherId ∉ m.visited then
        match visit otherId m with
        | none => none
        | some (true, m) => some (true, m)
        | some (false, m) => scanNodes node visit rest m
      else if otherId ∈ m.inStack then some (true, m)
      else scanNodes node visit rest m
    else scanNodes node visit rest m

/-- The recursion nests at most once for each node. -/
def dfsHasCycle (nodes : List Entry) :
    Nat → NodeId → Marks NodeId → Option (Bool × Marks NodeId)
  | 0, _, _ => none
  | depth + 1, node, m =>
    match scanNodes node (dfsHasCycle nodes depth) nodes (m.enter node) with
    | none => none
    | some (true, m) => some (true, m)
    | some (false, m) => some (false, m.leave node)

/-- The map is not changed meanwhile, so every loop walks it in one order. -/
def hasCycle (order : IterationOrder Entry) (dag : JobDag) : Bool :=
  let nodes := order.arrange dag.nodes.entries
  (search (dfsHasCycle nodes nodes.length) (nodes.map Sigma.fst) {}).any Prod.fst

def addEdge (order : IterationOrder Entry) (dag : JobDag) (fromId toId : NodeId) :
    Except DagError Unit × JobDag :=
  if fromId ∉ dag.nodes then (.error (.unknownNode fromId), dag)
  else if toId ∉ dag.nodes then (.error (.unknownNode toId), dag)
  else
    let tentative := dag.updateDependsOn toId (· ++ [fromId])
    if tentative.hasCycle order then
      (.error (.cycleDetected fromId toId),
        tentative.updateDependsOn toId (·.filter (· ≠ fromId)))
    else (.ok (), tentative)

/-- The edges: `a` has to complete before `b`. -/
def Edge (dag : JobDag) (a b : NodeId) : Prop :=
  ∃ node, dag.nodes.lookup b = some node ∧ a ∈ node.dependsOn

theorem Edge.mem {dag : JobDag} {a b : NodeId} (h : dag.Edge a b) : b ∈ dag.nodes := by
  obtain ⟨node, hb, _⟩ := h
  exact AList.mem_of_lookup hb

theorem edge_updateDependsOn {dag : JobDag} {id : NodeId} {f : List NodeId → List NodeId}
    {a b : NodeId} : (dag.updateDependsOn id f).Edge a b ↔ ∃ node, dag.nodes.lookup b = some node ∧
      a ∈ if b = id then f node.dependsOn else node.dependsOn := by
  simp only [Edge, updateDependsOn, AList.lookup_mapValues, Option.map_eq_some_iff]
  constructor
  · rintro ⟨_, ⟨node, hb, rfl⟩, ha⟩
    refine ⟨node, hb, ?_⟩
    split at ha <;> simp_all
  · rintro ⟨node, hb, ha⟩
    refine ⟨_, ⟨node, hb, rfl⟩, ?_⟩
    split at ha <;> simp_all

/-- The tentative edge is one more, whether or not it was there before. -/
theorem edge_push {dag : JobDag} {fromId toId : NodeId} (hto : toId ∈ dag.nodes) (a b : NodeId) :
    (dag.updateDependsOn toId (· ++ [fromId])).Edge a b ↔
      dag.Edge a b ∨ a = fromId ∧ b = toId := by
  rw [edge_updateDependsOn]
  constructor
  · rintro ⟨node, hb, ha⟩
    split at ha
    · rcases List.mem_append.mp ha with ha | ha
      · exact .inl ⟨node, hb, ha⟩
      · exact .inr ⟨List.mem_singleton.mp ha, ‹_›⟩
    · exact .inl ⟨node, hb, ha⟩
  · rintro (⟨node, hb, ha⟩ | ⟨rfl, rfl⟩)
    · refine ⟨node, hb, ?_⟩
      split
      · exact List.mem_append_left _ ha
      · exact ha
    · obtain ⟨node, hb⟩ := Option.isSome_iff_exists.mp (AList.lookup_isSome.mpr hto)
      exact ⟨node, hb, by simp⟩

/-- Taking the edge out again restores the dependencies if they did not have it. -/
theorem roll_back {dag : JobDag} {fromId toId : NodeId} (h : ¬ dag.Edge fromId toId) :
    (dag.updateDependsOn toId (· ++ [fromId])).updateDependsOn toId (·.filter (· ≠ fromId)) =
      dag := by
  have hnode : ∀ e ∈ dag.nodes.entries, e.1 = toId → fromId ∉ e.2.dependsOn := by
    intro e he hto hin
    exact h ⟨e.2, by rw [← Option.mem_def, AList.mem_lookup_iff, ← hto]; exact he, hin⟩
  have hnodes : (dag.nodes.mapValues fun other node => if other = toId then
      { node with dependsOn := node.dependsOn ++ [fromId] } else node).mapValues
      (fun other node => if other = toId then
        { node with dependsOn := node.dependsOn.filter (· ≠ fromId) } else node) = dag.nodes := by
    rw [AList.mapValues_mapValues]
    refine (AList.mapValues_congr _ fun e he => ?_).trans (AList.mapValues_id _)
    by_cases hto : e.1 = toId
    · have hkeep : e.2.dependsOn.filter (· ≠ fromId) = e.2.dependsOn := by
        rw [List.filter_eq_self]
        intro a ha
        simpa using fun heq : a = fromId => hnode e he hto (heq ▸ ha)
      simp only [hto, if_true, List.filter_append, hkeep]
      simp
    · simp only [hto, if_false]
  exact congrArg (JobDag.mk · dag.nextId) hnodes

/-- The nodes that depend on a node, in the order of the scan. -/
def dependants (nodes : List Entry) (node : NodeId) : List NodeId :=
  (nodes.filter (fun e => node ∈ e.2.dependsOn)).map Sigma.fst

theorem scanNodes_eq (node : NodeId)
    (visit : NodeId → Marks NodeId → Option (Bool × Marks NodeId)) (nodes : List Entry)
    (m : Marks NodeId) : scanNodes node visit nodes m = scan visit (dependants nodes node) m := by
  induction nodes generalizing m with
  | nil => rfl
  | cons e nodes ih =>
    by_cases h : node ∈ e.2.dependsOn
    · have hd : dependants (e :: nodes) node = e.1 :: dependants nodes node := by
        simp [dependants, h]
      rw [hd, scanNodes, scan, if_pos h, ih]
      cases hv : visit e.1 m with
      | none => rfl
      | some r =>
        obtain ⟨found, m'⟩ := r
        cases found with
        | true => rfl
        | false => simp only [ih]
    · have hd : dependants (e :: nodes) node = dependants nodes node := by
        simp [dependants, h]
      rw [hd, scanNodes, if_neg h, ih]

/-- The search of the graph is a depth-first search along the dependants. -/
theorem dfsHasCycle_eq (nodes : List Entry) (depth : Nat) :
    dfsHasCycle nodes depth = visit (dependants nodes) depth := by
  induction depth with
  | zero => rfl
  | succ depth ih =>
    funext node m
    rw [dfsHasCycle, visit, scanNodes_eq, ih]
    cases scan (visit (dependants nodes) depth) (dependants nodes node) (m.enter node) with
    | none => rfl
    | some r =>
      obtain ⟨found, m'⟩ := r
      cases found <;> rfl

theorem mem_dependants {order : IterationOrder Entry} {dag : JobDag} {a b : NodeId} :
    b ∈ dependants (order.arrange dag.nodes.entries) a ↔ dag.Edge a b := by
  simp only [dependants, List.mem_map, List.mem_filter, decide_eq_true_eq,
    (order.perm dag.nodes.entries).mem_iff]
  constructor
  · rintro ⟨⟨_, node⟩, ⟨he, ha⟩, rfl⟩
    exact ⟨node, AList.mem_lookup_iff.mpr he, ha⟩
  · rintro ⟨node, hb, ha⟩
    exact ⟨⟨b, node⟩, ⟨AList.mem_lookup_iff.mp hb, ha⟩, rfl⟩

/-- Whatever order the map is walked in, the search finds a cycle exactly if the edges
have one. -/
theorem hasCycle_iff (order : IterationOrder Entry) (dag : JobDag) :
    dag.hasCycle order = true ↔ ¬ Acyclic dag.Edge := by
  have hkeys : ∀ x, x ∈ (order.arrange dag.nodes.entries).map Sigma.fst ↔
      x ∈ dag.nodes.keys.toFinset := by
    intro x
    rw [((order.perm dag.nodes.entries).map Sigma.fst).mem_iff, List.mem_toFinset]
    exact Iff.rfl
  have hcard : dag.nodes.keys.toFinset.card ≤ (order.arrange dag.nodes.entries).length := by
    rw [(order.perm dag.nodes.entries).length_eq]
    exact (List.toFinset_card_le _).trans (Nat.le_of_eq (List.length_map _))
  have hclosed : ∀ x, ∀ y ∈ dependants (order.arrange dag.nodes.entries) x,
      y ∈ dag.nodes.keys.toFinset := fun x y hy =>
    List.mem_toFinset.mpr (AList.mem_keys.mp (mem_dependants.mp hy).mem)
  obtain ⟨found, m, hs, hfound⟩ := search_iff hclosed hcard hkeys
  unfold hasCycle
  simp only [dfsHasCycle_eq, hs, Option.any_some, hfound, mem_dependants]

end JobDag

/-- The calls that build a graph. The map may be walked in another order each time. -/
inductive Call where
  | addNode (job : Job)
  | addEdge (order : IterationOrder Entry) (fromId toId : NodeId)

def Call.apply (dag : JobDag) : Call → JobDag
  | .addNode job => (dag.addNode job).2
  | .addEdge order fromId toId => (dag.addEdge order fromId toId).2

def built (calls : List Call) : JobDag := calls.foldl Call.apply {}

/-- What every call leaves: edges between nodes without a cycle, and an unused next id. -/
structure WellBuilt (dag : JobDag) : Prop where
  acyclic : Acyclic dag.Edge
  source : ∀ a b, dag.Edge a b → a ∈ dag.nodes
  fresh : ∀ a ∈ dag.nodes, a < dag.nextId

namespace JobDag

variable {dag : JobDag}

/-- The new edge is taken exactly between two nodes where it closes no cycle. -/
def Takes (dag : JobDag) (fromId toId : NodeId) : Prop :=
  fromId ∈ dag.nodes ∧ toId ∈ dag.nodes ∧ ¬ ReflTransGen dag.Edge toId fromId

theorem hasCycle_push (h : Acyclic dag.Edge) (order : IterationOrder Entry) (fromId : NodeId)
    {toId : NodeId} (hto : toId ∈ dag.nodes) : (dag.updateDependsOn toId (· ++ [fromId])).hasCycle order = true ↔
      ReflTransGen dag.Edge toId fromId := by
  have hedge : (dag.updateDependsOn toId (· ++ [fromId])).Edge =
      fun a b => dag.Edge a b ∨ a = fromId ∧ b = toId := by
    funext a b
    exact propext (edge_push hto a b)
  rw [hasCycle_iff, hedge, h.insert_iff, not_not]

/-- A call either adds its edge or changes nothing. -/
theorem addEdge_cases (h : Acyclic dag.Edge) (order : IterationOrder Entry)
    (fromId toId : NodeId) :
    (dag.Takes fromId toId ∧ dag.addEdge order fromId toId =
      (.ok (), dag.updateDependsOn toId (· ++ [fromId]))) ∨
    (¬ dag.Takes fromId toId ∧ ∃ e, dag.addEdge order fromId toId = (.error e, dag)) := by
  by_cases hf : fromId ∈ dag.nodes
  · by_cases ht : toId ∈ dag.nodes
    · have hc := hasCycle_push h order fromId ht
      by_cases hr : ReflTransGen dag.Edge toId fromId
      · refine .inr ⟨fun hn => hn.2.2 hr, .cycleDetected fromId toId, ?_⟩
        have hnew : ¬ dag.Edge fromId toId := fun he => h fromId (TransGen.head' he hr)
        simpa [addEdge, hf, ht, hc.mpr hr] using roll_back hnew
      · have hfalse := mt hc.mp hr
        refine .inl ⟨⟨hf, ht, hr⟩, ?_⟩
        simp [addEdge, hf, ht, hfalse]
    · exact .inr ⟨fun hn => ht hn.2.1, .unknownNode toId, by simp [addEdge, hf, ht]⟩
  · exact .inr ⟨fun hn => hf hn.1, .unknownNode fromId, by simp [addEdge, hf]⟩

theorem mem_updateDependsOn {id a : NodeId} {f : List NodeId → List NodeId} :
    a ∈ (dag.updateDependsOn id f).nodes ↔ a ∈ dag.nodes := AList.mem_mapValues _

/-- A new node has no edges. -/
theorem edge_addNode {job : Job} {a b : NodeId} (h : (dag.addNode job).2.Edge a b) :
    dag.Edge a b := by
  obtain ⟨node, hb, ha⟩ := h
  by_cases hid : b = dag.nextId
  · rw [hid] at hb
    change (dag.nodes.insert dag.nextId { job }).lookup dag.nextId = some node at hb
    rw [AList.lookup_insert] at hb
    cases hb
    cases ha
  · change (dag.nodes.insert dag.nextId { job }).lookup b = some node at hb
    rw [AList.lookup_insert_ne hid] at hb
    exact ⟨node, hb, ha⟩

end JobDag

theorem WellBuilt.addNode {dag : JobDag} (h : WellBuilt dag) (job : Job) :
    WellBuilt (dag.addNode job).2 where
  acyclic x hx := h.acyclic x (hx.lift id fun _ _ => JobDag.edge_addNode)
  source a b hab := (AList.mem_insert _).mpr (.inr (h.source a b (JobDag.edge_addNode hab)))
  fresh a ha := by
    change a < dag.nextId + 1
    rcases (AList.mem_insert _).mp ha with rfl | ha
    · exact Nat.lt_succ_self _
    · exact Nat.lt_succ_of_lt (h.fresh a ha)

theorem WellBuilt.addEdge {dag : JobDag} (h : WellBuilt dag) (order : IterationOrder Entry)
    (fromId toId : NodeId) : WellBuilt (dag.addEdge order fromId toId).2 := by
  rcases JobDag.addEdge_cases h.acyclic order fromId toId with ⟨⟨hf, ht, hr⟩, heq⟩ | ⟨_, e, heq⟩
  · rw [heq]
    refine ⟨?_, fun a b hab => ?_, fun a ha => h.fresh a (JobDag.mem_updateDependsOn.mp ha)⟩
    · intro x hx
      refine (h.acyclic.insert_iff fromId toId).mpr hr x (hx.lift id fun a b hab => ?_)
      exact (JobDag.edge_push ht a b).mp hab
    · apply JobDag.mem_updateDependsOn.mpr
      rcases (JobDag.edge_push ht a b).mp hab with hab | ⟨rfl, _⟩
      · exact h.source a b hab
      · exact hf
  · rw [heq]
    exact h

theorem wellBuilt_built (calls : List Call) : WellBuilt (built calls) := by
  have h0 : WellBuilt {} := by
    refine ⟨fun x hx => ?_, fun a b hab => ?_, fun a ha => ?_⟩
    · obtain ⟨y, hxy, _⟩ := TransGen.head'_iff.mp hx
      exact absurd hxy.mem (AList.notMem_empty _)
    · exact absurd hab.mem (AList.notMem_empty _)
    · exact absurd ha (AList.notMem_empty _)
  have hrun : ∀ (calls : List Call) (dag : JobDag), WellBuilt dag →
      WellBuilt (calls.foldl Call.apply dag) := by
    intro calls
    induction calls with
    | nil => exact fun _ h => h
    | cons call calls ih =>
      intro dag h
      refine ih _ ?_
      cases call with
      | addNode job => exact h.addNode job
      | addEdge order fromId toId => exact h.addEdge order fromId toId
  exact hrun calls {} h0

/-- The cycle search is right about every graph, and whatever calls have built a graph, it
has no cycle and the next `add_edge` takes exactly the edges between nodes that close
none, adding the edge or leaving the graph as it was. -/
theorem construction (calls : List Call) :
    (∀ dag order, JobDag.hasCycle order dag = true ↔ ¬ Acyclic dag.Edge) ∧
    Acyclic (built calls).Edge ∧
    ∀ order fromId toId,
      (((built calls).addEdge order fromId toId).1 = .ok () ↔
        fromId ∈ (built calls).nodes ∧ toId ∈ (built calls).nodes ∧
          ¬ ReflTransGen (built calls).Edge toId fromId) ∧
      if ((built calls).addEdge order fromId toId).1 = .ok () then
        ∀ a b, ((built calls).addEdge order fromId toId).2.Edge a b ↔
          (built calls).Edge a b ∨ a = fromId ∧ b = toId
      else ((built calls).addEdge order fromId toId).2 = built calls := by
  have h := wellBuilt_built calls
  refine ⟨fun dag order => JobDag.hasCycle_iff order dag, h.acyclic, fun order fromId toId => ?_⟩
  rcases JobDag.addEdge_cases h.acyclic order fromId toId with ⟨ht, heq⟩ | ⟨hn, e, heq⟩
  · rw [heq]
    exact ⟨⟨fun _ => ht, fun _ => rfl⟩, by simpa using JobDag.edge_push ht.2.1⟩
  · rw [heq]
    exact ⟨⟨nofun, fun ht => absurd ht hn⟩, by simp⟩

/-- A self-edge and an edge that closes a cycle are refused, a repeated edge is taken. -/
example :
    let order := IterationOrder.inserted Entry
    let dag := built [.addNode {}, .addNode {}, .addEdge order 0 1, .addEdge order 0 1]
    (dag.addEdge order 1 0).1.toOption = none ∧ (dag.addEdge order 0 0).1.toOption = none ∧
      (dag.nodes.lookup 1).map DagNode.dependsOn = some [0, 0] := by
  decide +kernel

end HelixRouter.Dag
