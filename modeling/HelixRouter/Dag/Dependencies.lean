import HelixRouter.Dag.Schedule

namespace HelixRouter.Dag

open Graphs

def Event.submission? : Event → Option NodeId
  | .submitted id _ => some id
  | .joined _ _ => none

/-- The nodes handed to the router, in turn. -/
def submissions (events : List Event) : List NodeId := events.filterMap Event.submission?

/-- No node is submitted twice or before all it depends on returned outputs, and the
result has the outputs that were returned and no others. -/
structure DependencySafe (dag : JobDag) (events : List Event)
    (outcome : Except DagError DagResult) : Prop where
  once : (submissions events).Nodup
  after : ∀ before id job rest, events = before ++ .submitted id job :: rest →
    ∀ dep, dag.Edge dep id → ∃ outputs, .joined dep (some outputs) ∈ before
  outputs : ∀ result, outcome = .ok result → ∀ id outputs,
    result.allOutputs.lookup id = some outputs ↔ .joined id (some outputs) ∈ events

section Events

/-- Every submission finds a condition met by the events before it. -/
def EachAfter (Q : NodeId → List Event → Prop) (events : List Event) : Prop :=
  ∀ before id job rest, events = before ++ .submitted id job :: rest → Q id before

theorem EachAfter.append {Q : NodeId → List Event → Prop} {events more : List Event}
    (h : EachAfter Q events) (hmono : ∀ id before later, Q id before → Q id (before ++ later))
    (hmore : ∀ id job, .submitted id job ∈ more → Q id events) : EachAfter Q (events ++ more) := by
  intro before id job rest heq
  rcases List.append_eq_append_iff.mp heq with ⟨between, rfl, hm⟩ | ⟨between, he, hr⟩
  · exact hmono id events between (hmore id job (by simp [hm]))
  · cases between with
    | nil =>
      rw [List.append_nil] at he
      rw [← he]
      exact hmore id job (by simp [← show _ = more from hr])
    | cons ev between =>
      obtain ⟨rfl, _⟩ := List.cons.inj hr
      exact h before id job between he

theorem submissions_append (events more : List Event) :
    submissions (events ++ more) = submissions events ++ submissions more :=
  List.filterMap_append

@[simp] theorem submissions_submitted (ids : List NodeId) (job : NodeId → Job) :
    submissions (ids.map fun id => .submitted id (job id)) = ids := by
  simp [submissions, List.filterMap_map, Function.comp_def, Event.submission?]

@[simp] theorem submissions_joined (ids : List NodeId) (f : NodeId → Option (List Output)) :
    submissions (ids.map fun id => .joined id (f id)) = [] := by
  simp [submissions, Event.submission?]

end Events

def JobDag.job (dag : JobDag) (id : NodeId) : Job :=
  ((dag.nodes.lookup id).map DagNode.job).getD {}

/-- Whether all a node depends on has completed. -/
def Execution.ready (s : Execution) (dag : JobDag) (id : NodeId) : Bool :=
  (dag.dependsOn id).all (· ∈ s.completed)

section Waves

variable {dag : JobDag} {s : Execution} {ids wave : List NodeId}

theorem JobDag.lookup_of_mem {id : NodeId} (h : id ∈ dag.nodes) : ∃ node,
    dag.nodes.lookup id = some node ∧ node.dependsOn = dag.dependsOn id ∧ node.job = dag.job id := by
  obtain ⟨node, hn⟩ := Option.isSome_iff_exists.mp (AList.lookup_isSome.mpr h)
  exact ⟨node, hn, by simp [JobDag.dependsOn, hn], by simp [JobDag.job, hn]⟩

theorem splitReady_eq (hmap : ∀ id ∈ ids, s.nodesMap.lookup id = dag.nodes.lookup id)
    (hids : ∀ id ∈ ids, id ∈ dag.nodes) :
    splitReady s ids = .ok (ids.filter (s.ready dag), ids.filter (!s.ready dag ·)) := by
  induction ids with
  | nil => rfl
  | cons id ids ih =>
    obtain ⟨node, hn, hdeps, _⟩ := JobDag.lookup_of_mem (hids id (by simp))
    have hrest := ih (fun id h => hmap id (by simp [h])) fun id h => hids id (by simp [h])
    simp only [splitReady, hmap id (by simp), hn, hrest, hdeps]
    change (if s.ready dag id = true then _ else _) = _
    cases h : s.ready dag id <;> simp [h]

theorem submitWave_eq (hnodup : wave.Nodup)
    (hmap : ∀ id ∈ wave, s.nodesMap.lookup id = dag.nodes.lookup id)
    (hwave : ∀ id ∈ wave, id ∈ dag.nodes) : ∃ nodesMap,
    submitWave wave s = ({ s with
      nodesMap := nodesMap
      events := s.events ++ wave.map fun id => .submitted id (dag.job id) }, none) ∧
    ∀ id, id ∉ wave → nodesMap.lookup id = s.nodesMap.lookup id := by
  induction wave generalizing s with
  | nil => exact ⟨s.nodesMap, by simp [submitWave], fun _ _ => rfl⟩
  | cons id wave ih =>
    obtain ⟨hnot, hnodup⟩ := List.nodup_cons.mp hnodup
    obtain ⟨node, hn, _, hjob⟩ := JobDag.lookup_of_mem (hwave id (by simp))
    have hmap' : ∀ other ∈ wave, (s.nodesMap.erase id).lookup other = dag.nodes.lookup other := by
      intro other ho
      rw [AList.lookup_erase_ne fun heq : other = id => hnot (heq ▸ ho)]
      exact hmap other (by simp [ho])
    obtain ⟨nodesMap, hs, hrest⟩ := ih (s := { s with
        nodesMap := s.nodesMap.erase id
        events := s.events ++ [.submitted id node.job] }) hnodup hmap'
      fun other ho => hwave other (by simp [ho])
    refine ⟨nodesMap, ?_, fun other ho => ?_⟩
    · rw [submitWave, hmap id (by simp), hn]
      apply hs.trans
      simp [hjob]
    · simp only [List.mem_cons, not_or] at ho
      rw [hrest other ho.2]
      exact AList.lookup_erase_ne ho.1

theorem collect_eq {rt : Runtime} {f : NodeId → Option (List Output)}
    (hanswer : ∀ id, rt.answer id = .returned (f id)) (ids : List NodeId) (s : Execution) :
    ∃ completed nodesDropped, collect rt.answer ids s = ({ s with
      completed := completed
      nodesDropped := nodesDropped
      events := s.events ++ ids.map fun id => .joined id (f id) }, none) ∧
    ∀ id, completed.lookup id =
      if id ∈ ids then some ((f id).getD []) else s.completed.lookup id := by
  induction ids generalizing s with
  | nil => exact ⟨s.completed, s.nodesDropped, by simp [collect], fun _ => by simp⟩
  | cons id ids ih =>
    obtain ⟨completed, nodesDropped, hs, hlookup⟩ := ih { s with
      completed := s.completed.insert id ((f id).getD [])
      nodesDropped := s.nodesDropped + if (f id).isSome then 0 else 1
      events := s.events ++ [.joined id (f id)] }
    refine ⟨completed, nodesDropped, ?_, fun other => ?_⟩
    · cases hf : f id <;> simp [hf] at hs <;> simp [collect, hanswer, hf, hs]
    · rw [hlookup]
      by_cases hin : other ∈ ids
      · simp [hin]
      · by_cases heq : other = id
        · subst heq
          simp
        · simp [hin, heq, AList.lookup_insert_ne heq]

end Waves

section Runs

variable {dag : JobDag} {rt : Runtime} {f : NodeId → Option (List Output)}
  {topo remaining : List NodeId} {s : Execution}

/-- Between two waves: everything that does not remain was submitted once, after all it
depends on had been joined, and was joined itself. -/
structure BetweenWaves (dag : JobDag) (f : NodeId → Option (List Output)) (topo : List NodeId)
    (remaining : List NodeId) (s : Execution) : Prop where
  sublist : remaining.Sublist topo
  nodesMap : ∀ id ∈ remaining, s.nodesMap.lookup id = dag.nodes.lookup id
  completed : ∀ id, s.completed.lookup id =
    if id ∈ topo ∧ id ∉ remaining then some ((f id).getD []) else none
  joined : ∀ id r, .joined id r ∈ s.events ↔ (id ∈ topo ∧ id ∉ remaining) ∧ r = f id
  sent : ∀ id, id ∈ submissions s.events ↔ id ∈ topo ∧ id ∉ remaining
  once : (submissions s.events).Nodup
  after : EachAfter (fun id before => ∀ dep ∈ dag.dependsOn id, .joined dep (f dep) ∈ before)
    s.events

theorem betweenWaves_start : BetweenWaves dag f topo topo { nodesMap := dag.nodes } where
  sublist := List.Sublist.refl _
  nodesMap _ _ := rfl
  completed id := by simp
  joined id r := by simp
  sent id := by simp [submissions]
  once := List.nodup_nil
  after before id job rest h := by simp at h

theorem BetweenWaves.ready_iff (h : BetweenWaves dag f topo remaining s) (id : NodeId) :
    s.ready dag id = true ↔ ∀ dep ∈ dag.dependsOn id, dep ∈ topo ∧ dep ∉ remaining := by
  simp only [Execution.ready, List.all_eq_true, decide_eq_true_eq, ← AList.lookup_isSome,
    h.completed]
  refine forall_congr' fun dep => forall_congr' fun _ => ?_
  by_cases hin : dep ∈ topo ∧ dep ∉ remaining <;> simp [hin]

/-- The first node that remains is ready: in the topological order all it depends on
comes before it. -/
theorem BetweenWaves.progress (h : BetweenWaves dag f topo remaining s) (ho : dag.Order topo)
    (hne : remaining ≠ []) : ∃ id ∈ remaining, s.ready dag id = true := by
  obtain ⟨id, rest, rfl⟩ := List.exists_cons_of_ne_nil hne
  refine ⟨id, by simp, (h.ready_iff id).mpr fun dep hdep => ?_⟩
  obtain ⟨before, after, heq, hrest⟩ := List.cons_sublist_iff.mp h.sublist
  obtain ⟨pre, post, rfl⟩ := List.append_of_mem hrest.1
  have hin := ho.sorted pre id (post ++ after) (by simp [heq]) dep hdep
  have hnodup := ho.nodup
  rw [heq, List.append_assoc] at hnodup
  have hapart := (List.nodup_append.mp hnodup).2.2 dep hin
  refine ⟨heq ▸ by simp [hin], fun hmem => ?_⟩
  rcases List.mem_cons.mp hmem with rfl | hmem
  · exact hapart dep (by simp) rfl
  · exact hapart dep (by simp [hrest.2.subset hmem]) rfl

/-- The nodes of the next wave. -/
def wave (dag : JobDag) (s : Execution) (remaining : List NodeId) : List NodeId :=
  remaining.filter (s.ready dag)

/-- The nodes that have to wait for another one. -/
def waiting (dag : JobDag) (s : Execution) (remaining : List NodeId) : List NodeId :=
  remaining.filter (!s.ready dag ·)

theorem mem_wave {id : NodeId} :
    id ∈ wave dag s remaining ↔ id ∈ remaining ∧ s.ready dag id = true := List.mem_filter

theorem mem_waiting {id : NodeId} :
    id ∈ waiting dag s remaining ↔ id ∈ remaining ∧ s.ready dag id = false := by
  simp [waiting]

theorem BetweenWaves.gone_iff (h : BetweenWaves dag f topo remaining s) (id : NodeId) :
    (id ∈ topo ∧ id ∉ waiting dag s remaining) ↔
      (id ∈ topo ∧ id ∉ remaining) ∨ id ∈ wave dag s remaining := by
  have hin : id ∈ remaining → id ∈ topo := fun hid => h.sublist.subset hid
  rw [mem_wave, mem_waiting]
  cases s.ready dag id <;> tauto

/-- What submitting and joining a wave leaves, in whatever order its tasks arrive. -/
theorem BetweenWaves.advance (h : BetweenWaves dag f topo remaining s) (ho : dag.Order topo)
    {s' : Execution} {arrived : List NodeId}
    (harrived : ∀ id, id ∈ arrived ↔ id ∈ wave dag s remaining)
    (hmap : ∀ id, id ∉ wave dag s remaining → s'.nodesMap.lookup id = s.nodesMap.lookup id)
    (hcompleted : ∀ id, s'.completed.lookup id =
      if id ∈ arrived then some ((f id).getD []) else s.completed.lookup id)
    (hevents : s'.events = s.events ++ ((wave dag s remaining).map
      (fun id => .submitted id (dag.job id)) ++ arrived.map fun id => .joined id (f id))) :
    BetweenWaves dag f topo (waiting dag s remaining) s' where
  sublist := List.filter_sublist.trans h.sublist
  nodesMap id hid := by
    obtain ⟨hrem, hnot⟩ := mem_waiting.mp hid
    refine (hmap id fun hw => ?_).trans (h.nodesMap id hrem)
    rw [(mem_wave.mp hw).2] at hnot
    cases hnot
  completed id := by
    rw [hcompleted, h.completed]
    simp only [harrived, h.gone_iff]
    by_cases hw : id ∈ wave dag s remaining <;> simp only [hw, or_true, or_false, if_true, if_false]
  joined id r := by
    rw [hevents, List.mem_append, List.mem_append, h.joined, h.gone_iff]
    simp only [List.mem_map, reduceCtorEq, and_false, exists_false, false_or, harrived,
      Event.joined.injEq]
    constructor
    · rintro (⟨hold, rfl⟩ | ⟨_, hw, rfl, rfl⟩)
      · exact ⟨.inl hold, rfl⟩
      · exact ⟨.inr hw, rfl⟩
    · rintro ⟨hold | hw, rfl⟩
      · exact .inl ⟨hold, rfl⟩
      · exact .inr ⟨id, hw, rfl, rfl⟩
  sent id := by
    rw [hevents, submissions_append, submissions_append, submissions_submitted,
      submissions_joined, List.append_nil, List.mem_append, h.sent, h.gone_iff]
  once := by
    rw [hevents, submissions_append, submissions_append, submissions_submitted,
      submissions_joined, List.append_nil, List.nodup_append]
    refine ⟨h.once, (ho.nodup.sublist h.sublist).filter _, ?_⟩
    rintro id hsent _ hw rfl
    exact ((h.sent id).mp hsent).2 (mem_wave.mp hw).1
  after := by
    rw [hevents]
    refine h.after.append (fun id before later hb dep hdep => List.mem_append_left _ (hb dep hdep))
      fun id job hsub dep hdep => ?_
    rcases List.mem_append.mp hsub with hsub | hsub
    · obtain ⟨_, hw, heq⟩ := List.mem_map.mp hsub
      cases heq
      exact (h.joined dep _).mpr ⟨(h.ready_iff id).mp (mem_wave.mp hw).2 dep hdep, rfl⟩
    · obtain ⟨_, _, heq⟩ := List.mem_map.mp hsub
      cases heq

/-- One turn of the loop submits and joins the nodes that are ready, and no others. -/
theorem BetweenWaves.turn (h : BetweenWaves dag f topo remaining s) (ho : dag.Order topo)
    (hanswer : ∀ id, rt.answer id = .returned (f id)) (hne : remaining ≠ []) :
    ∃ next s', next.length < remaining.length ∧ BetweenWaves dag f topo next s' ∧
      ∀ n, runWaves rt (n + 1) remaining s = runWaves rt n next s' := by
  have hnodes : ∀ id ∈ remaining, id ∈ dag.nodes := fun id hid =>
    (ho.nodes id).mp (h.sublist.subset hid)
  obtain ⟨first, hfirst, hready⟩ := h.progress ho hne
  have hw : wave dag s remaining ≠ [] := List.ne_nil_of_mem (mem_wave.mpr ⟨hfirst, hready⟩)
  have hnodup : (wave dag s remaining).Nodup := (ho.nodup.sublist h.sublist).filter _
  have hsplit : splitReady s remaining = .ok (wave dag s remaining, waiting dag s remaining) :=
    splitReady_eq h.nodesMap hnodes
  obtain ⟨nodesMap, hsubmit, hkept⟩ := submitWave_eq hnodup
    (fun id hid => h.nodesMap id (mem_wave.mp hid).1) fun id hid => hnodes id (mem_wave.mp hid).1
  obtain ⟨completed, nodesDropped, hcollect, hlookup⟩ :=
    collect_eq hanswer (rt.arrival.arrange (wave dag s remaining)) { s with
      nodesMap := nodesMap
      events := s.events ++ (wave dag s remaining).map fun id => .submitted id (dag.job id) }
  have hnext : BetweenWaves dag f topo (waiting dag s remaining) {
      nodesMap := nodesMap
      completed := completed
      nodesDropped := nodesDropped
      events := s.events ++ (wave dag s remaining).map (fun id => .submitted id (dag.job id)) ++
        (rt.arrival.arrange (wave dag s remaining)).map fun id => .joined id (f id) } :=
    h.advance ho (fun id => (rt.arrival.perm _).mem_iff) hkept hlookup (List.append_assoc _ _ _)
  refine ⟨_, _, ?_, hnext, fun n => ?_⟩
  · refine List.length_filter_lt_length_iff_exists.mpr ⟨first, hfirst, ?_⟩
    simp [hready]
  · simp only [runWaves, if_neg hne, hsplit, hw, false_and, if_false, hsubmit, hcollect]

theorem BetweenWaves.finish (h : BetweenWaves dag f topo remaining s) (ho : dag.Order topo)
    (hanswer : ∀ id, rt.answer id = .returned (f id)) {n : Nat} (hn : remaining.length ≤ n) :
    ∃ s', runWaves rt n remaining s = (s', none) ∧ BetweenWaves dag f topo [] s' := by
  induction n generalizing remaining s with
  | zero =>
    cases List.length_eq_zero_iff.mp (Nat.le_zero.mp hn)
    exact ⟨s, rfl, h⟩
  | succ n ih =>
    by_cases hne : remaining = []
    · cases hne
      exact ⟨s, by simp [runWaves], h⟩
    · obtain ⟨next, s', hlt, h', hturn⟩ := h.turn ho hanswer hne
      rw [hturn]
      exact ih h' (by omega)

/-- After the last wave the events are safe exactly if the router answered every node. -/
theorem BetweenWaves.safe_iff (h : BetweenWaves dag f topo [] s) (ho : dag.Order topo) :
    DependencySafe dag s.events (.ok (.of dag s)) ↔ ∀ id ∈ dag.nodes, (f id).isSome := by
  have hcompleted : ∀ id, s.completed.lookup id =
      if id ∈ dag.nodes then some ((f id).getD []) else none := by
    intro id
    rw [h.completed]
    simp only [List.not_mem_nil, not_false_eq_true, and_true, ho.nodes]
  have hjoined : ∀ id r, .joined id r ∈ s.events ↔ id ∈ dag.nodes ∧ r = f id := by
    intro id r
    rw [h.joined]
    simp only [List.not_mem_nil, not_false_eq_true, and_true, ho.nodes]
  constructor
  · intro hsafe id hid
    have hlookup : s.completed.lookup id = some ((f id).getD []) := by rw [hcompleted, if_pos hid]
    have hevent := (hsafe.outputs _ rfl id _).mp hlookup
    rw [← ((hjoined id _).mp hevent).2]
    rfl
  · intro hall
    refine ⟨h.once, ?_, ?_⟩
    · intro before id job rest heq dep hdep
      have hmem := h.after before id job rest heq dep (JobDag.mem_dependsOn.mpr hdep)
      have hevent : .joined dep (f dep) ∈ s.events := heq ▸ List.mem_append_left _ hmem
      have hnode := ((hjoined dep _).mp hevent).1
      obtain ⟨outputs, hf⟩ := Option.isSome_iff_exists.mp (hall dep hnode)
      exact ⟨outputs, hf ▸ hmem⟩
    · intro result heq id outputs
      cases heq
      change s.completed.lookup id = _ ↔ _
      rw [hcompleted, hjoined]
      by_cases hid : id ∈ dag.nodes
      · obtain ⟨out, hf⟩ := Option.isSome_iff_exists.mp (hall id hid)
        simp [hid, hf, eq_comm]
      · simp [hid]

/-- An execution that is refused before anything runs is safe. -/
theorem safe_refused (dag : JobDag) (e : DagError) : DependencySafe dag [] (.error e) where
  once := List.nodup_nil
  after before id job rest h := by simp at h
  outputs := nofun

end Runs

/-- Whatever the router answers and in whatever order, the execution of a graph respects
its dependencies exactly if it is refused before anything runs or the router drops no
node of it. -/
theorem dependency_safe_iff (dag : JobDag) (rt : Runtime)
    (answers : NodeId → Option (List Output)) :
    DependencySafe dag (execute { rt with answer := fun id => .returned (answers id) } dag).1
      (execute { rt with answer := fun id => .returned (answers id) } dag).2 ↔
    dag.nodes.entries = [] ∨ dag.topologicalOrder rt = none ∨
      ∀ id ∈ dag.nodes, (answers id).isSome := by
  have htopo : dag.topologicalOrder { rt with answer := fun id => .returned (answers id) } =
    dag.topologicalOrder rt := rfl
  by_cases hempty : dag.nodes.entries = []
  · simp only [execute, hempty, if_true, true_or, iff_true]
    exact safe_refused dag _
  · cases ht : dag.topologicalOrder rt with
    | none =>
      simp only [execute, hempty, if_false, htopo, ht, true_or, or_true, iff_true]
      exact safe_refused dag _
    | some topo =>
      have ho := JobDag.topologicalOrder_order ht
      have hanswer : ∀ id, { rt with answer := fun id => .returned (answers id) }.answer id =
        .returned (answers id) := fun _ => rfl
      obtain ⟨s, hrun, hs⟩ := betweenWaves_start.finish ho hanswer (Nat.le_refl topo.length)
      simp only [execute, hempty, if_false, htopo, ht, hrun, false_or, reduceCtorEq]
      exact hs.safe_iff ho

/-- A node that depends on another. -/
def oneEdge : List Call := [.addNode {}, .addNode {}, .addEdge (.inserted Entry) 0 1]

def dropsFirst : Runtime where
  answer id := .returned (if id = 0 then none else some [.u64 7])

theorem dropsFirst_execution : (execute dropsFirst (built oneEdge)).1 =
    [.submitted 0 {}, .joined 0 none, .submitted 1 {}, .joined 1 (some [.u64 7])] := by
  rfl

/-- The second node is submitted after the router has dropped the first, and the result
has outputs for both. -/
theorem dropped_dependency_passed : ∃ result,
    (execute dropsFirst (built oneEdge)).2 = .ok result ∧ result.nodesDropped = 1 ∧
    result.allOutputs.lookup 0 = some [] ∧
    ¬ DependencySafe (built oneEdge) (execute dropsFirst (built oneEdge)).1
      (execute dropsFirst (built oneEdge)).2 := by
  refine ⟨_, rfl, rfl, rfl, fun hsafe => ?_⟩
  have hedge : (built oneEdge).Edge 0 1 := JobDag.mem_dependsOn.mp (by decide +kernel)
  obtain ⟨outputs, hin⟩ := hsafe.after [.submitted 0 {}, .joined 0 none] 1 {}
    [.joined 1 (some [.u64 7])] dropsFirst_execution 0 hedge
  simp at hin

end HelixRouter.Dag
