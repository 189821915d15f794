import HelixRouter.Dag.Executor
import HelixRouter.Dag.JobDag

namespace HelixRouter.Dag

open Graphs

def Sorting.degree (s : Sorting) (id : NodeId) : Nat := (s.inDegree.lookup id).getD 0

def JobDag.dependsOn (dag : JobDag) (id : NodeId) : List NodeId :=
  ((dag.nodes.lookup id).map DagNode.dependsOn).getD []

theorem JobDag.mem_dependsOn {dag : JobDag} {a b : NodeId} :
    a ∈ dag.dependsOn b ↔ dag.Edge a b := by
  cases h : dag.nodes.lookup b <;> simp [JobDag.dependsOn, JobDag.Edge, h]

theorem JobDag.dependsOn_entry {dag : JobDag} {e : Entry} (he : e ∈ dag.nodes.entries) :
    e.2.dependsOn = dag.dependsOn e.1 := by
  have h : dag.nodes.lookup e.1 = some e.2 := AList.mem_lookup_iff.mpr he
  simp [JobDag.dependsOn, h]

theorem Sorting.degree_insert (s : Sorting) (id y : NodeId) (deg : Nat) (queue order) :
    Sorting.degree ⟨s.inDegree.insert id deg, queue, order⟩ y =
      if y = id then deg else s.degree y := by
  by_cases h : y = id
  · subst h
    simp [Sorting.degree]
  · simp [Sorting.degree, h, AList.lookup_insert_ne h]

theorem releaseDependants_spec (preds : NodeId → List NodeId) (node : NodeId) {nodes : List Entry}
    (hnodup : (nodes.map Sigma.fst).Nodup) (hpreds : ∀ e ∈ nodes, e.2.dependsOn = preds e.1)
    (s : Sorting) :
    (releaseDependants node nodes s).order = s.order ∧
    (releaseDependants node nodes s).queue = s.queue ++ (nodes.map Sigma.fst).filter
      (fun y => node ∈ preds y ∧ s.degree y - 1 = 0) ∧
    ∀ y, (releaseDependants node nodes s).degree y =
      if y ∈ nodes.map Sigma.fst ∧ node ∈ preds y then s.degree y - 1 else s.degree y := by
  induction nodes generalizing s with
  | nil => simp [releaseDependants]
  | cons e nodes ih =>
    obtain ⟨hnot, hnodup⟩ := List.nodup_cons.mp hnodup
    have hrest : ∀ e ∈ nodes, e.2.dependsOn = preds e.1 := fun e he => hpreds e (by simp [he])
    have he := hpreds e (by simp)
    by_cases hin : node ∈ preds e.1
    · have hstep : releaseDependants node (e :: nodes) s =
          releaseDependants node nodes ⟨s.inDegree.insert e.1 (s.degree e.1 - 1),
            if s.degree e.1 - 1 = 0 then s.queue ++ [e.1] else s.queue, s.order⟩ := by
        rw [releaseDependants, he, if_pos hin]
        rfl
      obtain ⟨horder, hqueue, hdegree⟩ := ih hnodup hrest ⟨s.inDegree.insert e.1 (s.degree e.1 - 1),
        if s.degree e.1 - 1 = 0 then s.queue ++ [e.1] else s.queue, s.order⟩
      simp only [Sorting.degree_insert] at hqueue hdegree
      rw [hstep]
      refine ⟨horder, ?_, fun y => ?_⟩
      · have hsame : (nodes.map Sigma.fst).filter (fun y => node ∈ preds y ∧
            (if y = e.1 then s.degree e.1 - 1 else s.degree y) - 1 = 0) =
            (nodes.map Sigma.fst).filter (fun y => node ∈ preds y ∧ s.degree y - 1 = 0) := by
          refine List.filter_congr fun y hy => ?_
          rw [if_neg fun heq : y = e.1 => hnot (heq ▸ hy)]
        rw [hqueue, hsame, List.map_cons, List.filter_cons]
        by_cases h0 : s.degree e.1 - 1 = 0
        · simp [hin, h0]
        · simp [h0]
      · rw [hdegree]
        by_cases hy : y = e.1
        · rw [hy, if_neg fun h => hnot h.1]
          simp [hin]
        · simp only [List.map_cons, List.mem_cons, hy, false_or, if_false]
    · have hstep : releaseDependants node (e :: nodes) s = releaseDependants node nodes s := by
        rw [releaseDependants, he, if_neg hin]
      obtain ⟨horder, hqueue, hdegree⟩ := ih hnodup hrest s
      rw [hstep]
      refine ⟨horder, ?_, fun y => ?_⟩
      · rw [hqueue, List.map_cons, List.filter_cons_of_neg (by simp [hin])]
      · rw [hdegree]
        by_cases hy : y = e.1
        · simp [hy, hin]
        · simp only [List.map_cons, List.mem_cons, hy, false_or]

/-- The sorting and Kahn's algorithm agree, on the degrees of nodes only. -/
structure Sorting.Simulates (s : Sorting) (k : Kahn NodeId) (ids : List NodeId) : Prop where
  queue : s.queue = k.queue
  order : s.order = k.order
  degree : ∀ y ∈ ids, s.degree y = k.degree y

theorem sortNodes_simulates {preds : NodeId → List NodeId} {nodes : List Entry}
    (hnodup : (nodes.map Sigma.fst).Nodup) (hpreds : ∀ e ∈ nodes, e.2.dependsOn = preds e.1)
    {n : Nat} {s : Sorting} {k k' : Kahn NodeId} (h : s.Simulates k (nodes.map Sigma.fst))
    (hk : k.drain (nodes.map Sigma.fst) preds n = some k') :
    ∃ s', sortNodes nodes n s = some s' ∧ s'.Simulates k' (nodes.map Sigma.fst) := by
  induction n generalizing s k with
  | zero =>
    simp only [Kahn.drain, Option.ite_none_right_eq_some, Option.some.injEq] at hk
    obtain ⟨hq, rfl⟩ := hk
    exact ⟨s, by simp [sortNodes, h.queue, hq], h⟩
  | succ n ih =>
    cases hq : k.queue with
    | nil =>
      simp only [Kahn.drain, hq, Option.some.injEq] at hk
      subst hk
      exact ⟨s, by simp [sortNodes, h.queue, hq], h⟩
    | cons node rest =>
      simp only [Kahn.drain, hq] at hk
      obtain ⟨horder, hqueue, hdegree⟩ := releaseDependants_spec preds node hnodup hpreds
        { s with queue := rest, order := s.order ++ [node] }
      have hs : sortNodes nodes (n + 1) s = sortNodes nodes n (releaseDependants node nodes
          { s with queue := rest, order := s.order ++ [node] }) := by
        simp only [sortNodes, h.queue, hq]
      rw [hs]
      refine ih ⟨?_, ?_, fun y hy => ?_⟩ hk
      · rw [hqueue]
        refine congrArg (rest ++ ·) (List.filter_congr fun y hy => ?_)
        have hd : s.degree y = k.degree y := h.degree y hy
        change decide (_ ∧ s.degree y - 1 = 0) = _
        simp only [hd]
      · rw [horder, h.order]
        rfl
      · have hd : s.degree y = k.degree y := h.degree y hy
        rw [hdegree]
        change (if _ then s.degree y - 1 else s.degree y) = if _ then _ else _
        simp only [hy, true_and, hd]

namespace JobDag

variable {rt : Runtime} {dag : JobDag}

/-- What a run of Kahn's algorithm over the graph leaves, and when that is an order. -/
theorem topologicalOrder_spec (rt : Runtime) (dag : JobDag) : ∃ k : Kahn NodeId,
    Kahn.Underway ((rt.nodes.arrange dag.nodes.entries).map Sigma.fst) dag.dependsOn k ∧
    k.queue = [] ∧ dag.topologicalOrder rt =
      if k.order.length = dag.nodes.entries.length then some k.order else none := by
  have hperm := rt.nodes.perm dag.nodes.entries
  have hnodup : ((rt.nodes.arrange dag.nodes.entries).map Sigma.fst).Nodup :=
    (hperm.map Sigma.fst).nodup_iff.mpr dag.nodes.nodupKeys
  have hpreds : ∀ e ∈ rt.nodes.arrange dag.nodes.entries, e.2.dependsOn = dag.dependsOn e.1 :=
    fun e he => dependsOn_entry (hperm.mem_iff.mp he)
  -- the nodes without dependencies, in the order the counters are walked in
  have hqueue : (((rt.degrees.arrange (dag.nodes.mapValues fun _ node =>
      node.dependsOn.length).entries).filter (fun e => e.2 = 0)).map Sigma.fst).Perm
      (((rt.nodes.arrange dag.nodes.entries).map Sigma.fst).filter
        (fun y => (dag.dependsOn y).length = 0)) := by
    have hentries : ((dag.nodes.mapValues fun _ node => node.dependsOn.length).entries.filter
        (fun e => e.2 = 0)).map Sigma.fst = (dag.nodes.entries.map Sigma.fst).filter
          (fun y => (dag.dependsOn y).length = 0) := by
      change ((dag.nodes.entries.map fun e => (⟨e.1, e.2.dependsOn.length⟩ : Degree)).filter
        (fun e => e.2 = 0)).map Sigma.fst = _
      rw [List.filter_map, List.filter_map, List.map_map]
      refine congrArg (List.map Sigma.fst) (List.filter_congr fun e he => ?_)
      rw [Function.comp_apply, Function.comp_apply, ← dependsOn_entry he]
    refine ((((rt.degrees.perm _).filter _).map _).trans (.of_eq hentries)).trans ?_
    exact ((hperm.map Sigma.fst).filter _).symm
  obtain ⟨k, hdrain, hk, hempty⟩ :=
    (Kahn.underway_start hnodup hqueue).drain hnodup (Nat.le_add_right _ 0)
  obtain ⟨s, hs, hsim⟩ := sortNodes_simulates hnodup hpreds (s := {
      inDegree := dag.nodes.mapValues fun _ node => node.dependsOn.length, queue := _ })
    ⟨rfl, rfl, fun y hy => by
      cases hl : dag.nodes.lookup y <;> simp [Sorting.degree, dependsOn, hl]⟩ hdrain
  refine ⟨k, hk, hempty, ?_⟩
  rw [List.length_map] at hs
  simp only [topologicalOrder, hs, hsim.order]

theorem mem_arranged {id : NodeId} :
    id ∈ (rt.nodes.arrange dag.nodes.entries).map Sigma.fst ↔ id ∈ dag.nodes := by
  rw [((rt.nodes.perm dag.nodes.entries).map Sigma.fst).mem_iff]
  exact AList.mem_keys.symm

/-- Every node once, after all it depends on. -/
structure Order (dag : JobDag) (order : List NodeId) : Prop where
  nodup : order.Nodup
  nodes : ∀ id, id ∈ order ↔ id ∈ dag.nodes
  sorted : ∀ before id after, order = before ++ id :: after →
    ∀ dep ∈ dag.dependsOn id, dep ∈ before

theorem topologicalOrder_order {order : List NodeId} (h : dag.topologicalOrder rt = some order) :
    dag.Order order := by
  obtain ⟨k, hk, hq, heq⟩ := topologicalOrder_spec rt dag
  rw [heq, Option.ite_none_right_eq_some, Option.some.injEq] at h
  obtain ⟨hlen, rfl⟩ := h
  have hd := hk.distinct
  have hknown := hk.known
  rw [hq, List.append_nil] at hd hknown
  have hperm : k.order.Perm ((rt.nodes.arrange dag.nodes.entries).map Sigma.fst) := by
    refine (hd.subperm hknown).perm_of_length_le ?_
    rw [List.length_map, (rt.nodes.perm _).length_eq, hlen]
  exact ⟨hd, fun id => hperm.mem_iff.trans mem_arranged, hk.sorted⟩

/-- A graph the calls have built is sorted exactly if no node lists a dependency twice. -/
theorem topologicalOrder_isSome_iff (rt : Runtime) (h : WellBuilt dag) :
    (dag.topologicalOrder rt).isSome ↔ ∀ id ∈ dag.nodes, (dag.dependsOn id).Nodup := by
  obtain ⟨k, hk, hq, heq⟩ := topologicalOrder_spec rt dag
  have hperm := rt.nodes.perm dag.nodes.entries
  have hacc : ∀ id, Acc (fun a b => a ∈ dag.dependsOn b) id := by
    intro id
    refine Acyclic.acc (V := dag.nodes.keys.toFinset) (fun x hx => h.acyclic x ?_) ?_ id
    · exact hx.lift (fun id => id) fun a b hab => mem_dependsOn.mp hab
    · intro a b hab
      exact List.mem_toFinset.mpr (AList.mem_keys.mp (mem_dependsOn.mp hab).mem)
  have hiff := hk.complete_iff ((hperm.map Sigma.fst).nodup_iff.mpr dag.nodes.nodupKeys) hq
    (fun y _ p hp => mem_arranged.mpr (h.source p y (mem_dependsOn.mp hp))) (fun y _ => hacc y)
  simp only [mem_arranged] at hiff
  rw [← hiff, List.length_map, hperm.length_eq, heq]
  by_cases hlen : k.order.length = dag.nodes.entries.length <;> simp [hlen]

end JobDag

/-- The errors a wave can end with. -/
def DagError.OfWave : DagError → Prop
  | .unknownNode _ | .taskFailed _ => True
  | _ => False

theorem splitReady_error {s : Execution} {ids : List NodeId} {e : DagError}
    (h : splitReady s ids = .error e) : e.OfWave := by
  induction ids with
  | nil => cases h
  | cons id ids ih =>
    rw [splitReady] at h
    split at h
    · cases h
      trivial
    · split at h
      · rename_i e' hs
        cases h
        exact ih hs
      · split at h <;> cases h

theorem submitWave_error {wave : List NodeId} {s s' : Execution} {e : DagError}
    (h : submitWave wave s = (s', some e)) : e.OfWave := by
  induction wave generalizing s with
  | nil => cases h
  | cons id wave ih =>
    rw [submitWave] at h
    split at h
    · cases h
      trivial
    · exact ih h

theorem collect_error {answer : NodeId → Joined} {ids : List NodeId} {s s' : Execution}
    {e : DagError} (h : collect answer ids s = (s', some e)) : e.OfWave := by
  induction ids generalizing s with
  | nil => cases h
  | cons id ids ih =>
    rw [collect] at h
    split at h
    · exact ih h
    · exact ih h
    · cases h
      trivial

theorem runWaves_error {rt : Runtime} {n : Nat} {ids : List NodeId} {s s' : Execution}
    {e : DagError} (h : runWaves rt n ids s = (s', some e)) : e.OfWave := by
  induction n generalizing ids s with
  | zero => cases h
  | succ n ih =>
    rw [runWaves] at h
    split at h
    · cases h
    · split at h
      · rename_i e' hs
        cases h
        exact splitReady_error hs
      · split at h
        · cases h
        · split at h
          · rename_i e' hs
            cases h
            exact submitWave_error hs
          · split at h
            · rename_i e' hs
              cases h
              exact collect_error hs
            · exact ih h

theorem execute_cycleDetected {rt : Runtime} {dag : JobDag} (a b : NodeId)
    (h : (dag.topologicalOrder rt).isSome) : (execute rt dag).2 ≠ .error (.cycleDetected a b) := by
  obtain ⟨topo, ht⟩ := Option.isSome_iff_exists.mp h
  intro he
  simp only [execute, ht] at he
  split at he
  · cases he
  · split at he
    · rename_i hs
      cases he
      exact runWaves_error hs
    · cases he

/-- Whatever calls have built a graph, it has a topological order and its execution never
ends with a cycle, exactly if no node lists a dependency twice. -/
theorem schedulable_iff (calls : List Call) (rt : Runtime) :
    ((∃ order, (built calls).topologicalOrder rt = some order ∧ order.Nodup ∧
        (∀ id, id ∈ order ↔ id ∈ (built calls).nodes) ∧
        ∀ before id after, order = before ++ id :: after →
          ∀ dep, (built calls).Edge dep id → dep ∈ before) ∧
      ∀ a b, (execute rt (built calls)).2 ≠ .error (.cycleDetected a b)) ↔
    ∀ id ∈ (built calls).nodes, ((built calls).dependsOn id).Nodup := by
  rw [← JobDag.topologicalOrder_isSome_iff rt (wellBuilt_built calls)]
  constructor
  · rintro ⟨⟨order, hs, _⟩, _⟩
    rw [hs]
    rfl
  · intro hsome
    obtain ⟨order, hs⟩ := Option.isSome_iff_exists.mp hsome
    have horder := JobDag.topologicalOrder_order hs
    refine ⟨⟨order, hs, horder.nodup, horder.nodes, ?_⟩, fun a b => execute_cycleDetected a b hsome⟩
    intro before id after heq dep hdep
    exact horder.sorted before id after heq dep (JobDag.mem_dependsOn.mpr hdep)

theorem eq_ok_of_toBool {result : Except DagError Unit} (h : result.toBool = true) :
    result = .ok () := by
  cases result with
  | ok u => rfl
  | error e => cases h

/-- Two nodes with the edge between them added twice. -/
def repeatedEdge : List Call :=
  [.addNode {}, .addNode {}, .addEdge (.inserted Entry) 0 1, .addEdge (.inserted Entry) 0 1]

/-- Both calls take the edge, and the execution refuses the graph for a cycle. -/
theorem repeated_edge_refused :
    ((built (repeatedEdge.take 2)).addEdge (.inserted Entry) 0 1).1 = .ok () ∧
    ((built (repeatedEdge.take 3)).addEdge (.inserted Entry) 0 1).1 = .ok () ∧
    (built repeatedEdge).topologicalOrder { answer := fun _ => .returned none } = none ∧
    (execute { answer := fun _ => .returned none } (built repeatedEdge)).2 =
      .error (.cycleDetected 0 0) := by
  have hnone : (built repeatedEdge).topologicalOrder { answer := fun _ => .returned none } =
    none := by decide +kernel
  have hnodes : (built repeatedEdge).nodes.entries ≠ [] := by
    intro h
    have hlen : (built repeatedEdge).nodes.entries.length = 2 := by decide +kernel
    rw [h] at hlen
    cases hlen
  refine ⟨?_, ?_, hnone, ?_⟩
  · exact eq_ok_of_toBool (by decide +kernel)
  · exact eq_ok_of_toBool (by decide +kernel)
  · rw [execute, if_neg hnodes, hnone]

end HelixRouter.Dag
