import HelixRouter.Graphs.Breadth
import HelixRouter.Services.DependencyGraph

namespace HelixRouter.Services

open Relation Graphs

/-- The orders in which a call walks the set of failed services and the edges. -/
structure Walks where
  failed : IterationOrder String
  adjacency : IterationOrder Adjacent

/-- Enters a service under what it cannot do without. -/
def addDependent (from_ : String) (reverse : AList (fun _ : String => List String))
    (edge : DependencyEdge) : AList (fun _ : String => List String) :=
  if edge.edgeType = .hardDependency then
    reverse.insert edge.to_ ((reverse.lookup edge.to_).getD [] ++ [from_])
  else reverse

namespace DependencyGraph

variable (g : DependencyGraph)

def initiallyFailed : List String :=
  (g.nodes.entries.filter (·.2.health.isFailed)).map (·.1)

def reverse (walk : IterationOrder Adjacent) : AList (fun _ : String => List String) :=
  (walk.arrange g.adjacency.entries).foldl (fun reverse e => e.2.foldl (addDependent e.1) reverse) ∅

def dependents (walk : IterationOrder Adjacent) (id : String) : List String :=
  ((g.reverse walk).lookup id).getD []

/-- Marks every service that hard dependencies lead from to a failed one, and returns
their names. No loop runs longer than there are edge lists and failed services. -/
def propagateFailures (walks : Walks) : Option (List String × DependencyGraph) :=
  let failed := g.initiallyFailed
  if failed.isEmpty then some ([], g)
  else
    let fuel := g.adjacency.entries.length + failed.length
    -- The stack is a vector that is popped at its end.
    let start := ⟨failed.toFinset, (walks.failed.arrange failed).reverse, []⟩
    match Flood.drain (g.dependents walks.adjacency) fuel start with
    | none => none
    | some search =>
      some (search.found.mergeSort (fun a b => a ≤ b),
        search.found.foldl (fun g id => g.markFailed id "propagated failure") g)

/-- A service that a failed one is to take with it. -/
def Impacted (id : String) : Prop :=
  id ∈ g.nodes ∧ ¬ g.Failed id ∧ ∃ f, g.Failed f ∧ TransGen g.HardEdge id f

/-- The least set of failures is reached, and reached at once. -/
def Propagates (walks : Walks) : Prop :=
  ∃ ids g', g.propagateFailures walks = some (ids, g') ∧
    ids.Nodup ∧ (∀ id, id ∈ ids ↔ g.Impacted id) ∧
    g'.adjacency = g.adjacency ∧
    (∀ id, g'.nodes.lookup id = (g.nodes.lookup id).map fun node =>
      if id ∈ ids then { node with health := .failed "propagated failure" } else node) ∧
    (∀ id, g'.Failed id ↔ g.Failed id ∨ g.Impacted id) ∧
    ∀ walks', g'.propagateFailures walks' = some ([], g')

variable {g}

theorem mem_foldl_addDependent {a b from_ : String} (edges : List DependencyEdge)
    (reverse : AList (fun _ : String => List String)) :
    a ∈ ((edges.foldl (addDependent from_) reverse).lookup b).getD [] ↔
      a ∈ (reverse.lookup b).getD [] ∨
        a = from_ ∧ ∃ e ∈ edges, e.edgeType = .hardDependency ∧ e.to_ = b := by
  induction edges generalizing reverse with
  | nil => simp
  | cons edge edges ih =>
    rw [List.foldl_cons, ih, addDependent]
    by_cases hard : edge.edgeType = .hardDependency
    · rw [if_pos hard]
      by_cases hb : b = edge.to_
      · subst hb
        rw [AList.lookup_insert]
        simp [hard]
        tauto
      · rw [AList.lookup_insert_ne hb]
        simp [Ne.symm hb]
    · rw [if_neg hard]
      simp [hard]

theorem mem_dependents {walk : IterationOrder Adjacent} {a b : String} :
    a ∈ g.dependents walk b ↔ g.HardEdge a b := by
  have hfold : ∀ (entries : List Adjacent) (reverse : AList (fun _ : String => List String)),
      a ∈ ((entries.foldl (fun r e => e.2.foldl (addDependent e.1) r) reverse).lookup b).getD [] ↔
        a ∈ (reverse.lookup b).getD [] ∨
          ∃ e ∈ entries, a = e.1 ∧ ∃ d ∈ e.2, d.edgeType = .hardDependency ∧ d.to_ = b := by
    intro entries
    induction entries with
    | nil => simp
    | cons e entries ih =>
      intro reverse
      rw [List.foldl_cons, ih, mem_foldl_addDependent, or_assoc]
      simp
  rw [dependents, DependencyGraph.reverse, hfold]
  simp only [(walk.perm _).mem_iff, HardEdge, mem_edges_iff]
  constructor
  · rintro (h | ⟨⟨_, edges⟩, hmem, rfl, e, he, hard⟩)
    · simp at h
    · exact ⟨e, ⟨edges, hmem, he⟩, hard⟩
  · rintro ⟨e, ⟨edges, hmem, he⟩, hard⟩
    exact .inr ⟨⟨a, edges⟩, hmem, rfl, e, he, hard⟩

theorem mem_initiallyFailed {id : String} : id ∈ g.initiallyFailed ↔ g.Failed id := by
  simp only [initiallyFailed, List.mem_map, List.mem_filter, Failed]
  constructor
  · rintro ⟨⟨_, node⟩, ⟨hmem, hfailed⟩, rfl⟩
    exact ⟨node, AList.mem_lookup_iff.mpr hmem, hfailed⟩
  · rintro ⟨node, hnode, hfailed⟩
    exact ⟨⟨id, node⟩, ⟨AList.mem_lookup_iff.mp hnode, hfailed⟩, rfl⟩

theorem foldl_markFailed (ids : List String) (reason : String) (g : DependencyGraph) :
    (ids.foldl (fun g id => g.markFailed id reason) g).adjacency = g.adjacency ∧
      ∀ id, (ids.foldl (fun g id => g.markFailed id reason) g).nodes.lookup id =
        (g.nodes.lookup id).map fun node =>
          if id ∈ ids then { node with health := .failed reason } else node := by
  induction ids generalizing g with
  | nil => simp
  | cons x ids ih =>
    rw [List.foldl_cons]
    refine ⟨(ih _).1, fun id => ?_⟩
    rw [(ih _).2, lookup_markFailed, Option.map_map]
    congr 1
    funext node
    by_cases hx : id = x <;> by_cases hids : id ∈ ids <;> simp [hx, hids]

/-- What reaches a failed service without having failed. -/
theorem search_iff (walk : IterationOrder Adjacent) (id : String) :
    (id ∉ g.initiallyFailed ∧ ∃ f ∈ g.initiallyFailed,
        ReflTransGen (fun a b => b ∈ g.dependents walk a) f id) ↔
      ¬ g.Failed id ∧ ∃ f, g.Failed f ∧ TransGen g.HardEdge id f := by
  have hswap : (fun a b => b ∈ g.dependents walk a) = Function.swap g.HardEdge := by
    funext a b
    exact propext mem_dependents
  simp only [mem_initiallyFailed, hswap, reflTransGen_swap]
  refine and_congr_right fun hid => exists_congr fun f => and_congr_right fun hf => ?_
  rw [reflTransGen_iff_eq_or_transGen]
  constructor
  · rintro (rfl | h)
    · exact absurd hf hid
    · exact h
  · exact .inr

/-- What a call returns and does, on every graph: it also names those that are not registered. -/
theorem propagateFailures_spec (g : DependencyGraph) (walks : Walks) :
    ∃ ids g', g.propagateFailures walks = some (ids, g') ∧ ids.Nodup ∧
      (∀ id, id ∈ ids ↔ ¬ g.Failed id ∧ ∃ f, g.Failed f ∧ TransGen g.HardEdge id f) ∧
      g'.adjacency = g.adjacency ∧
      (∀ id, g'.nodes.lookup id = (g.nodes.lookup id).map fun node =>
        if id ∈ ids then { node with health := .failed "propagated failure" } else node) ∧
      (ids = [] → g' = g) := by
  by_cases hnone : g.initiallyFailed.isEmpty
  · refine ⟨[], g, by simp [propagateFailures, hnone], List.nodup_nil, fun id => ?_, rfl,
      by simp, fun _ => rfl⟩
    rw [← search_iff walks.adjacency, List.isEmpty_iff.mp hnone]
    simp
  · have hstart : Flood.Spread (g.dependents walks.adjacency) g.initiallyFailed
        ⟨g.initiallyFailed.toFinset, (walks.failed.arrange g.initiallyFailed).reverse, []⟩ :=
      Flood.spread_start ((List.reverse_perm _).trans (walks.failed.perm _))
    have hV : ∀ x, ∀ y ∈ g.dependents walks.adjacency x, y ∈ g.adjacency.keys.toFinset :=
      fun x y hy => List.mem_toFinset.mpr (mem_dependents.mp hy).edge.source
    have hfuel : (g.adjacency.keys.toFinset \ g.initiallyFailed.toFinset).card +
        (walks.failed.arrange g.initiallyFailed).reverse.length ≤
          g.adjacency.entries.length + g.initiallyFailed.length := by
      have hcard : (g.adjacency.keys.toFinset \ g.initiallyFailed.toFinset).card ≤
          g.adjacency.keys.length :=
        (Finset.card_le_card Finset.sdiff_subset).trans (List.toFinset_card_le _)
      have hlen := (walks.failed.perm g.initiallyFailed).length_eq
      have hkeys : g.adjacency.keys.length = g.adjacency.entries.length := List.length_map _
      rw [List.length_reverse, hlen]
      omega
    obtain ⟨search, hdrain, hspread, hempty⟩ := hstart.drain hV hfuel
    have hperm := List.mergeSort_perm search.found (fun a b => a ≤ b)
    refine ⟨_, _, by simp only [propagateFailures, hnone, hdrain]; rfl,
      hperm.nodup_iff.mpr hspread.distinct, fun id => ?_, (foldl_markFailed ..).1, fun id => ?_, ?_⟩
    · rw [hperm.mem_iff, hspread.found_iff hempty, search_iff]
    · simp only [(foldl_markFailed ..).2, hperm.mem_iff]
    · intro hnil
      rw [hnil] at hperm
      rw [← hperm.nil_eq]
      rfl

theorem failed_iff_of_lookup {g' : DependencyGraph} {ids : List String}
    (h : ∀ id, g'.nodes.lookup id = (g.nodes.lookup id).map fun node =>
      if id ∈ ids then { node with health := .failed "propagated failure" } else node)
    (id : String) :
    g'.Failed id ↔ g.Failed id ∨ id ∈ g.nodes ∧ id ∈ ids := by
  rw [← AList.lookup_isSome]
  simp only [Failed, h, Option.map_eq_some_iff]
  cases g.nodes.lookup id with
  | none => simp
  | some node =>
    by_cases hid : id ∈ ids <;> simp [hid, ServiceHealth.isFailed]

/-- The failures are propagated as they should be exactly if no name that is not
registered has a failed service to depend on. -/
theorem propagates_iff (g : DependencyGraph) (walks : Walks) :
    g.Propagates walks ↔ ∀ id, (∃ f, g.Failed f ∧ TransGen g.HardEdge id f) → id ∈ g.nodes := by
  obtain ⟨ids, g', hcall, hnodup, hmem, hadj, hlookup, -⟩ := g.propagateFailures_spec walks
  constructor
  · rintro ⟨ids', g'', hcall', -, hmem', -⟩ id hreach
    obtain ⟨rfl, -⟩ := Prod.mk.inj (Option.some.inj (hcall'.symm.trans hcall))
    by_cases hf : g.Failed id
    · exact hf.registered
    · exact ((hmem' id).mp ((hmem id).mpr ⟨hf, hreach⟩)).1
  · intro hregistered
    have himpacted : ∀ id, id ∈ ids ↔ g.Impacted id := by
      intro id
      rw [hmem]
      exact ⟨fun h => ⟨hregistered id h.2, h⟩, fun h => h.2⟩
    have hfailed : ∀ id, g'.Failed id ↔ g.Failed id ∨ g.Impacted id := by
      intro id
      rw [failed_iff_of_lookup hlookup, himpacted]
      exact or_congr_right ⟨fun h => h.2, fun h => ⟨h.1, h⟩⟩
    refine ⟨ids, g', hcall, hnodup, himpacted, hadj, hlookup, hfailed, fun walks' => ?_⟩
    obtain ⟨again, g'', hcall', -, hmem', -, -, hsame⟩ := g'.propagateFailures_spec walks'
    have hedge : g'.HardEdge = g.HardEdge := by
      funext a b
      simp only [HardEdge, edges, hadj]
    have hnil : again = [] := by
      apply List.eq_nil_iff_forall_not_mem.mpr
      intro id hid
      obtain ⟨hnot, f, hf, hreach⟩ := (hmem' id).mp hid
      rw [hedge] at hreach
      have hold : ∃ f, g.Failed f ∧ TransGen g.HardEdge id f := by
        rcases (hfailed f).mp hf with hf | ⟨_, _, f', hf', hreach'⟩
        · exact ⟨f, hf, hreach⟩
        · exact ⟨f', hf', hreach.trans hreach'⟩
      apply hnot
      rw [hfailed]
      by_cases hid : g.Failed id
      · exact .inl hid
      · exact .inr ⟨hregistered id hold, hid, hold⟩
    rw [hcall', hnil, hsame hnil]

/-- A service that was never registered depends on a failed one. -/
def orphaned : DependencyGraph :=
  ((({} : DependencyGraph).addService ⟨"db", "Database", .healthy, 10⟩).addDependency
    "api" "db" .hardDependency (.finite 1)).markFailed "db" "disk full"

theorem orphan_reported :
    (orphaned.propagateFailures ⟨.inserted _, .inserted _⟩).map Prod.fst = some ["api"] ∧
      ¬ orphaned.Propagates ⟨.inserted _, .inserted _⟩ := by
  have hcall : (orphaned.propagateFailures ⟨.inserted _, .inserted _⟩).map Prod.fst =
      some ["api"] := by decide +kernel
  refine ⟨hcall, ?_⟩
  rintro ⟨ids, g', hids, -, hmem, -⟩
  rw [hids, Option.map_some, Option.some_inj] at hcall
  subst hcall
  have hapi : orphaned.Impacted "api" := (hmem "api").mp (List.mem_singleton_self _)
  exact absurd hapi.1 (by decide)

end DependencyGraph

/-- Enters a service under what it depends on, whatever the kind of the edge. -/
def addUser (from_ : String) (reverse : AList (fun _ : String => List String))
    (edge : DependencyEdge) : AList (fun _ : String => List String) :=
  reverse.insert edge.to_ ((reverse.lookup edge.to_).getD [] ++ [from_])

namespace DependencyGraph

variable (g : DependencyGraph)

def users (walk : IterationOrder Adjacent) (id : String) : List String :=
  (((walk.arrange g.adjacency.entries).foldl (fun reverse e => e.2.foldl (addUser e.1) reverse)
    (∅ : AList (fun _ : String => List String))).lookup id).getD []

/-- The loop runs no longer than there are edge lists, and once for the service itself. -/
def impactRadius (walk : IterationOrder Adjacent) (serviceId : String) : Option Nat :=
  (Breadth.search (g.users walk) (g.adjacency.entries.length + 1) [serviceId]).map
    fun visited => visited.length - 1

/-- The services that need another one, directly or through others. -/
def Needs (id serviceId : String) : Prop := id ≠ serviceId ∧ TransGen g.Edge id serviceId

variable {g}

theorem mem_foldl_addUser {a b from_ : String} (edges : List DependencyEdge)
    (reverse : AList (fun _ : String => List String)) :
    a ∈ ((edges.foldl (addUser from_) reverse).lookup b).getD [] ↔
      a ∈ (reverse.lookup b).getD [] ∨ a = from_ ∧ ∃ e ∈ edges, e.to_ = b := by
  induction edges generalizing reverse with
  | nil => simp
  | cons edge edges ih =>
    rw [List.foldl_cons, ih, addUser]
    by_cases hb : b = edge.to_
    · subst hb
      rw [AList.lookup_insert]
      simp
      tauto
    · rw [AList.lookup_insert_ne hb]
      simp [Ne.symm hb]

theorem mem_users {walk : IterationOrder Adjacent} {a b : String} :
    a ∈ g.users walk b ↔ g.Edge a b := by
  have hfold : ∀ (entries : List Adjacent) (reverse : AList (fun _ : String => List String)),
      a ∈ ((entries.foldl (fun r e => e.2.foldl (addUser e.1) r) reverse).lookup b).getD [] ↔
        a ∈ (reverse.lookup b).getD [] ∨ ∃ e ∈ entries, a = e.1 ∧ ∃ d ∈ e.2, d.to_ = b := by
    intro entries
    induction entries with
    | nil => simp
    | cons e entries ih =>
      intro reverse
      rw [List.foldl_cons, ih, mem_foldl_addUser, or_assoc]
      simp
  rw [users, hfold]
  simp only [(walk.perm _).mem_iff, Edge, mem_edges_iff]
  constructor
  · rintro (h | ⟨⟨_, edges⟩, hmem, rfl, e, he, hto⟩)
    · simp at h
    · exact ⟨e, ⟨edges, hmem, he⟩, hto⟩
  · rintro ⟨e, ⟨edges, hmem, he⟩, hto⟩
    exact .inr ⟨⟨a, edges⟩, hmem, rfl, e, he, hto⟩

/-- The search comes to an end with the service itself and all that need it. -/
theorem impactRadius_eq (walk : IterationOrder Adjacent) (serviceId : String) :
    ∃ needing : List String, needing.Nodup ∧ (∀ id, id ∈ needing ↔ g.Needs id serviceId) ∧
      g.impactRadius walk serviceId = some needing.length := by
  have hcard : (insert serviceId g.adjacency.keys.toFinset).card ≤
      g.adjacency.entries.length + 1 := by
    have hkeys := List.toFinset_card_le g.adjacency.keys
    have hlen : g.adjacency.keys.length = g.adjacency.entries.length := List.length_map _
    have hinsert := Finset.card_insert_le serviceId g.adjacency.keys.toFinset
    omega
  have hsources : ∀ x, ∀ y ∈ g.users walk x,
      y ∈ insert serviceId g.adjacency.keys.toFinset := fun x y hy =>
    Finset.mem_insert_of_mem (List.mem_toFinset.mpr (mem_users.mp hy).source)
  have hself : ∀ x ∈ [serviceId], x ∈ insert serviceId g.adjacency.keys.toFinset := by simp
  obtain ⟨visited, hsearch, hmem⟩ := Breadth.search_eq hsources hself hcard
  have hnodup := Breadth.nodup_search hsearch
  have hswap : (fun a b => b ∈ g.users walk a) = Function.swap g.Edge := by
    funext a b
    exact propext mem_users
  simp only [List.mem_singleton, exists_eq_left, hswap, reflTransGen_swap] at hmem
  refine ⟨visited.erase serviceId, hnodup.erase _, fun id => ?_, ?_⟩
  · rw [hnodup.mem_erase_iff, hmem, Needs, reflTransGen_iff_eq_or_transGen]
    refine and_congr_right fun hne => ⟨fun h => h.resolve_left fun heq => hne heq.symm, Or.inr⟩
  · rw [impactRadius, hsearch, List.length_erase_of_mem ((hmem _).mpr .refl)]
    rfl

/-- Those that need a service are as many as the radius says, whatever order the edges are walked
in; and where this service alone has failed, its failure takes no more with it. -/
theorem impactRadius_spec (g : DependencyGraph) (serviceId : String) :
    ∃ needing : List String, needing.Nodup ∧ (∀ id, id ∈ needing ↔ g.Needs id serviceId) ∧
      (∀ walk, g.impactRadius walk serviceId = some needing.length) ∧
      ((∀ id, g.Failed id ↔ id = serviceId) → ∀ walks,
        ∃ ids g', g.propagateFailures walks = some (ids, g') ∧ ids.length ≤ needing.length) := by
  obtain ⟨needing, hnodup, hmem, -⟩ := g.impactRadius_eq (.inserted Adjacent) serviceId
  refine ⟨needing, hnodup, hmem, fun walk => ?_, fun halone walks => ?_⟩
  · obtain ⟨needing', hnodup', hmem', hradius⟩ := g.impactRadius_eq walk serviceId
    have hperm : needing'.Perm needing := (List.perm_ext_iff_of_nodup hnodup' hnodup).mpr
      fun id => (hmem' id).trans (hmem id).symm
    rw [hradius, hperm.length_eq]
  · obtain ⟨ids, g', hcall, hids, htaken, -⟩ := g.propagateFailures_spec walks
    refine ⟨ids, g', hcall, (List.subperm_of_subset hids fun id hid => ?_).length_le⟩
    obtain ⟨hnot, f, hf, hreach⟩ := (htaken id).mp hid
    rw [(halone f).mp hf] at hreach
    exact (hmem id).mpr ⟨fun heq => hnot ((halone id).mpr heq),
      TransGen.mono (fun _ _ h => h.edge) _ _ hreach⟩

end DependencyGraph

end HelixRouter.Services
