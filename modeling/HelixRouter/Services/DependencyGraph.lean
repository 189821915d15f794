import HelixRouter.Containers.IterationOrder
import HelixRouter.Containers.Retain
import HelixRouter.Floats.F64
import HelixRouter.Graphs.Countdown

namespace HelixRouter.Services

open Floats Graphs

inductive ServiceHealth where
  | healthy
  | degraded (reason : String)
  | failed (reason : String)
  | unknown

def ServiceHealth.isFailed : ServiceHealth → Bool
  | .failed _ => true
  | _ => false

structure ServiceNode where
  id : String
  name : String
  health : ServiceHealth
  criticality : UInt8

inductive EdgeType where
  | hardDependency
  | softDependency
  | fallback
  deriving DecidableEq

structure DependencyEdge where
  from_ : String
  to_ : String
  edgeType : EdgeType
  weight : F64

abbrev Adjacent := Σ _ : String, List DependencyEdge

theorem named_empty (id : String) (node : ServiceNode)
    (h : (∅ : AList fun _ : String => ServiceNode).lookup id = some node) : node.id = id := by
  simp at h

theorem sourced_empty (id : String) (edges : List DependencyEdge)
    (h : (∅ : AList fun _ : String => List DependencyEdge).lookup id = some edges) :
    ∀ e ∈ edges, e.from_ = id := by
  simp at h

/-- Services under their names, and under the name of each service what it depends on. An
edge may name services that are not registered. -/
structure DependencyGraph where
  nodes : AList (fun _ : String => ServiceNode) := ∅
  adjacency : AList (fun _ : String => List DependencyEdge) := ∅
  named : ∀ id node, nodes.lookup id = some node → node.id = id := by
    exact named_empty
  sourced : ∀ id edges, adjacency.lookup id = some edges → ∀ e ∈ edges, e.from_ = id := by
    exact sourced_empty

namespace DependencyGraph

def addService (g : DependencyGraph) (node : ServiceNode) : DependencyGraph where
  nodes := g.nodes.insert node.id node
  adjacency := g.adjacency
  named id node' h := by
    by_cases hid : id = node.id
    · subst hid
      rw [AList.lookup_insert] at h
      rw [Option.some.inj h]
    · rw [AList.lookup_insert_ne hid] at h
      exact g.named id node' h
  sourced := g.sourced

def addDependency (g : DependencyGraph) (from_ to_ : String) (edgeType : EdgeType) (weight : F64) :
    DependencyGraph where
  nodes := g.nodes
  adjacency := g.adjacency.insert from_
    ((g.adjacency.lookup from_).getD [] ++ [⟨from_, to_, edgeType, weight⟩])
  named := g.named
  sourced id edges h := by
    intro e he
    by_cases hid : id = from_
    · subst hid
      rw [AList.lookup_insert, Option.some_inj] at h
      rw [← h] at he
      rcases List.mem_append.mp he with he | he
      · cases hl : g.adjacency.lookup id with
        | none => simp [hl] at he
        | some old => exact g.sourced id old hl e (by simpa [hl] using he)
      · rw [List.mem_singleton.mp he]
    · rw [AList.lookup_insert_ne hid] at h
      exact g.sourced id edges h e he

/-- A name that is not registered changes nothing. -/
def markFailed (g : DependencyGraph) (serviceId reason : String) : DependencyGraph where
  nodes := g.nodes.mapValues fun id node =>
    if id = serviceId then { node with health := .failed reason } else node
  adjacency := g.adjacency
  named id node h := by
    rw [AList.lookup_mapValues, Option.map_eq_some_iff] at h
    obtain ⟨old, hold, rfl⟩ := h
    rw [← g.named id old hold]
    split <;> rfl
  sourced := g.sourced

variable (g : DependencyGraph)

/-- What a service depends on, as the edges were added. -/
def edges (id : String) : List DependencyEdge := (g.adjacency.lookup id).getD []

/-- A service depends on another. -/
def Edge (a b : String) : Prop := ∃ e ∈ g.edges a, e.to_ = b

/-- A service cannot do without another. -/
def HardEdge (a b : String) : Prop :=
  ∃ e ∈ g.edges a, e.edgeType = .hardDependency ∧ e.to_ = b

def Failed (id : String) : Prop :=
  ∃ node, g.nodes.lookup id = some node ∧ node.health.isFailed

variable {g}

theorem HardEdge.edge {a b : String} (h : g.HardEdge a b) : g.Edge a b := by
  obtain ⟨e, he, _, hto⟩ := h
  exact ⟨e, he, hto⟩

theorem mem_edges_iff {a : String} {e : DependencyEdge} :
    e ∈ g.edges a ↔ ∃ edges, ⟨a, edges⟩ ∈ g.adjacency.entries ∧ e ∈ edges := by
  simp only [← AList.mem_lookup_iff, Option.mem_def, edges]
  cases hl : g.adjacency.lookup a with
  | none => simp
  | some edges => simp

theorem Edge.source {a b : String} (h : g.Edge a b) : a ∈ g.adjacency.keys := by
  obtain ⟨e, he, _⟩ := h
  obtain ⟨edges, hmem, _⟩ := mem_edges_iff.mp he
  exact List.mem_map.mpr ⟨_, hmem, rfl⟩

theorem edges_addDependency (from_ to_ : String) (edgeType : EdgeType) (weight : F64)
    (id : String) :
    (g.addDependency from_ to_ edgeType weight).edges id =
      if id = from_ then g.edges id ++ [⟨from_, to_, edgeType, weight⟩] else g.edges id := by
  by_cases hid : id = from_
  · subst hid
    rw [if_pos rfl, edges, addDependency, AList.lookup_insert]
    rfl
  · rw [if_neg hid, edges, addDependency, AList.lookup_insert_ne hid]
    rfl

/-- One more edge joins what it was added for, whether or not these are registered. -/
theorem edge_addDependency {from_ to_ : String} {edgeType : EdgeType} {weight : F64}
    {a b : String} : (g.addDependency from_ to_ edgeType weight).Edge a b ↔
      g.Edge a b ∨ a = from_ ∧ b = to_ := by
  rw [Edge, edges_addDependency]
  by_cases ha : a = from_ <;> simp [ha, Edge, or_and_right, exists_or, eq_comm]

theorem hardEdge_addDependency {from_ to_ : String} {edgeType : EdgeType} {weight : F64}
    {a b : String} : (g.addDependency from_ to_ edgeType weight).HardEdge a b ↔
      g.HardEdge a b ∨ edgeType = .hardDependency ∧ a = from_ ∧ b = to_ := by
  rw [HardEdge, edges_addDependency]
  by_cases ha : a = from_ <;> simp [ha, HardEdge, or_and_right, exists_or, eq_comm]

theorem Failed.registered {id : String} (h : g.Failed id) : id ∈ g.nodes := by
  obtain ⟨node, hnode, _⟩ := h
  exact AList.mem_of_lookup hnode

theorem lookup_markFailed (serviceId reason id : String) :
    (g.markFailed serviceId reason).nodes.lookup id =
      (g.nodes.lookup id).map fun node =>
        if id = serviceId then { node with health := .failed reason } else node :=
  AList.lookup_mapValues ..

end DependencyGraph

/-- The orders in which a call walks the services, the edges and the counts. -/
structure KahnWalks where
  nodes : IterationOrder String
  adjacency : IterationOrder Adjacent
  degrees : IterationOrder (Σ _ : String, Nat)

namespace DependencyGraph

variable (g : DependencyGraph) (keep : DependencyEdge → Bool)

/-- Where the edges of a service end, of those that count. -/
def targets (id : String) : List String := ((g.edges id).filter keep).map (·.to_)

def inDegree (walk : IterationOrder Adjacent) : AList (fun _ : String => Nat) :=
  ((walk.arrange g.adjacency.entries).flatMap fun e => (e.2.filter keep).map (·.to_)).foldl
    countEdge (g.nodes.mapValues fun _ _ => 0)

/-- The services that no edge ends at. -/
def ready (walks : KahnWalks) : List String :=
  ((walks.degrees.arrange (g.inDegree keep walks.adjacency).entries).filter (·.2 = 0)).map (·.1)

variable {g keep}

theorem mem_targets {a b : String} :
    b ∈ g.targets keep a ↔ ∃ e ∈ g.edges a, keep e ∧ e.to_ = b := by
  simp [targets, and_assoc]

theorem flatMap_targets (g : DependencyGraph) (keep : DependencyEdge → Bool) :
    g.adjacency.entries.flatMap (fun e => (e.2.filter keep).map (·.to_)) =
      g.adjacency.keys.flatMap (g.targets keep) := by
  rw [AList.keys, List.keys, List.flatMap_map]
  refine List.flatMap_congr fun e he => ?_
  have hl : g.adjacency.lookup e.1 = some e.2 := AList.mem_lookup_iff.mpr he
  simp [targets, edges, hl]

theorem lookup_inDegree (walk : IterationOrder Adjacent) (y : String) :
    (g.inDegree keep walk).lookup y = if y ∈ g.nodes.keys then
      some (Countdown.total (g.targets keep) g.adjacency.keys y) else none := by
  have hperm := (walk.perm g.adjacency.entries).flatMap_right
    (fun e => (e.2.filter keep).map (·.to_))
  rw [inDegree, lookup_foldl_countEdge, AList.lookup_mapValues, hperm.count_eq, flatMap_targets,
    Countdown.total]
  by_cases hy : y ∈ g.nodes
  · obtain ⟨node, hnode⟩ := Option.isSome_iff_exists.mp (AList.lookup_isSome.mpr hy)
    simp [hnode, ← AList.mem_keys, hy]
  · rw [AList.lookup_eq_none.mpr hy, if_neg (fun h => hy (AList.mem_keys.mpr h))]
    rfl

theorem total_congr {succ succ' : String → List String} (h : ∀ x, (succ x).Perm (succ' x))
    (sources : List String) (y : String) :
    Countdown.total succ sources y = Countdown.total succ' sources y := by
  induction sources with
  | nil => rfl
  | cons x sources ih =>
    simp only [Countdown.total, List.flatMap_cons, List.count_append] at ih ⊢
    rw [ih, (h x).count_eq]

theorem mem_ready (walks : KahnWalks) (y : String) :
    y ∈ g.ready keep walks ↔ (g.inDegree keep walks.adjacency).lookup y = some 0 := by
  rw [← Option.mem_def, AList.mem_lookup_iff, ready, List.mem_map]
  simp only [List.mem_filter, (walks.degrees.perm _).mem_iff]
  constructor
  · rintro ⟨⟨_, d⟩, ⟨hmem, hd⟩, rfl⟩
    rw [← show d = 0 by simpa using hd]
    exact hmem
  · exact fun h => ⟨⟨y, 0⟩, ⟨h, by simp⟩, rfl⟩

theorem nodup_ready (walks : KahnWalks) : (g.ready keep walks).Nodup := by
  have hkeys : ((walks.degrees.arrange (g.inDegree keep walks.adjacency).entries).map
      Sigma.fst).Nodup :=
    ((walks.degrees.perm _).map Sigma.fst).nodup_iff.mpr (g.inDegree keep walks.adjacency).nodupKeys
  exact hkeys.sublist (List.filter_sublist.map _)

/-- Kahn's algorithm on the edges that count takes out the services whose predecessors are
all taken out before. -/
theorem kahn_spec (walks : KahnWalks) {succ : String → List String} {queue : List String}
    (hsucc : ∀ x, (succ x).Perm (g.targets keep x)) (hq : queue.Perm (g.ready keep walks)) :
    ∃ s, Countdown.drain succ g.nodes.entries.length
        ⟨g.inDegree keep walks.adjacency, queue, []⟩ = some s ∧ s.order.Nodup ∧
      (∀ y, y ∈ s.order ↔ y ∈ g.nodes ∧ ∀ a, y ∈ g.targets keep a → a ∈ s.order) ∧
      ∀ before y after, s.order = before ++ y :: after →
        ∀ a, y ∈ g.targets keep a → a ∈ before := by
  have hsources : ∀ a, succ a ≠ [] → a ∈ g.adjacency.keys := by
    intro a ha
    obtain ⟨b, hb⟩ := List.exists_mem_of_ne_nil _ ha
    obtain ⟨e, he, _⟩ := mem_targets.mp ((hsucc a).mem_iff.mp hb)
    exact Edge.source ⟨e, he, rfl⟩
  have hpreds : ∀ y a, a ∈ Countdown.preds succ g.adjacency.keys y ↔ y ∈ g.targets keep a := by
    intro y a
    rw [Countdown.preds, List.mem_filter, decide_eq_true_iff, (hsucc a).mem_iff]
    refine ⟨And.right, fun h => ⟨hsources a ?_, h⟩⟩
    exact List.ne_nil_of_mem ((hsucc a).mem_iff.mpr h)
  have hstart : Countdown.Underway succ g.adjacency.keys g.nodes.keys
      ⟨g.inDegree keep walks.adjacency, queue, []⟩ := by
    refine Countdown.underway_start (fun y => ?_) (hq.nodup_iff.mpr (nodup_ready walks))
      fun y => ?_
    · rw [lookup_inDegree, total_congr hsucc]
    · rw [hq.mem_iff, mem_ready]
  have hlen : g.nodes.keys.length ≤ g.nodes.entries.length + 0 := (List.length_map _).le
  have hkeys : g.adjacency.keys.Nodup := g.adjacency.nodupKeys
  obtain ⟨s, hdrain, hnodup, hmem, hsorted⟩ := hstart.drain hkeys hsources hlen
  refine ⟨s, hdrain, hnodup, fun y => ?_, fun before y after h a ha => ?_⟩
  · rw [hmem, ← AList.mem_keys]
    simp only [hpreds]
  · exact hsorted before y after h a ((hpreds y a).mpr ha)

end DependencyGraph

end HelixRouter.Services
