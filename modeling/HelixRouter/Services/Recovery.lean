import HelixRouter.Services.DependencyGraph

namespace HelixRouter.Services

open Relation Graphs

namespace DependencyGraph

variable (g : DependencyGraph)

def neighbours (id : String) : List String :=
  (g.targets (fun _ => true) id).mergeSort (fun a b => a ≤ b)

/-- All services in the order of a topological sort, with those in cycles at the end. -/
def recoveryOrder (walks : KahnWalks) : Option (List String) :=
  let inDegree := g.inDegree (fun _ => true) walks.adjacency
  let queue := (g.ready (fun _ => true) walks).mergeSort (fun a b => a ≤ b)
  match Countdown.drain g.neighbours g.nodes.entries.length ⟨inDegree, queue, []⟩ with
  | none => none
  | some s =>
    let remaining := (walks.nodes.arrange g.nodes.keys).filter (· ∉ s.order)
    some (s.order ++ remaining.mergeSort (fun a b => a ≤ b))

/-- Every registered service stands in the list, once. -/
def ListsAll (order : List String) : Prop := order.Nodup ∧ ∀ id, id ∈ order ↔ id ∈ g.nodes

/-- What a service depends on stands before it. -/
def DependenciesFirst (order : List String) : Prop :=
  ∀ from_ to_, g.Edge from_ to_ →
    ∀ before after, order = before ++ from_ :: after → to_ ∈ before

/-- What depends on a service stands before it. -/
def DependentsFirst (order : List String) : Prop :=
  ∀ from_ to_, g.Edge from_ to_ →
    ∀ before after, order = before ++ to_ :: after → from_ ∈ before

def Recovers (walks : KahnWalks) : Prop :=
  ∃ order, g.recoveryOrder walks = some order ∧ g.ListsAll order ∧ g.DependenciesFirst order

variable {g}

theorem mem_targets_true {a b : String} : b ∈ g.targets (fun _ => true) a ↔ g.Edge a b := by
  simp [mem_targets, Edge]

/-- Whatever the graph, the list is complete; and on an acyclic one it is sorted along the
edges, from those that depend to those that they depend on. -/
theorem recoveryOrder_spec (g : DependencyGraph) (walks : KahnWalks) :
    ∃ order, g.recoveryOrder walks = some order ∧ g.ListsAll order ∧
      ((∀ a b, g.Edge a b → a ∈ g.nodes ∧ b ∈ g.nodes) → Acyclic g.Edge →
        g.DependentsFirst order) := by
  have hneighbours : ∀ x, (g.neighbours x).Perm (g.targets (fun _ => true) x) :=
    fun x => List.mergeSort_perm _ _
  have hqueue := List.mergeSort_perm (g.ready (fun _ => true) walks) (fun a b => a ≤ b)
  obtain ⟨s, hdrain, hnodup, hmem, hsorted⟩ := kahn_spec walks hneighbours hqueue
  have hperm := List.mergeSort_perm ((walks.nodes.arrange g.nodes.keys).filter (· ∉ s.order))
    (fun a b => a ≤ b)
  have hrest : ∀ id, id ∈ (walks.nodes.arrange g.nodes.keys).filter (· ∉ s.order) ↔
      id ∈ g.nodes ∧ id ∉ s.order := by
    intro id
    simp [(walks.nodes.perm _).mem_iff, AList.mem_keys]
  refine ⟨s.order ++ _, by rw [recoveryOrder, hdrain], ⟨?_, fun id => ?_⟩, ?_⟩
  · have hkeys := (walks.nodes.perm g.nodes.keys).nodup_iff.mpr g.nodes.nodupKeys
    refine List.nodup_append.mpr ⟨hnodup, hperm.nodup_iff.mpr (hkeys.filter _), ?_⟩
    rintro a ha _ hb rfl
    exact ((hrest a).mp (hperm.mem_iff.mp hb)).2 ha
  · rw [List.mem_append, hperm.mem_iff, hrest]
    by_cases hid : id ∈ s.order
    · simp [hid, ((hmem id).mp hid).1]
    · simp [hid]
  · intro hregistered hacyclic from_ to_ hedge before after heq
    have hV : ∀ a b, g.Edge a b → b ∈ g.nodes.keys.toFinset :=
      fun a b h => List.mem_toFinset.mpr (AList.mem_keys.mp (hregistered a b h).2)
    have hall : ∀ y ∈ g.nodes, y ∈ s.order := by
      intro y hy
      induction hacyclic.acc hV y with
      | intro y _ ih =>
        refine (hmem y).mpr ⟨hy, fun a ha => ?_⟩
        have ha := mem_targets_true.mp ha
        exact ih a ha (hregistered a y ha).1
    have hnil : (walks.nodes.arrange g.nodes.keys).filter (· ∉ s.order) = [] := by
      apply List.eq_nil_iff_forall_not_mem.mpr
      intro id hid
      exact ((hrest id).mp hid).2 (hall id ((hrest id).mp hid).1)
    rw [hnil, List.mergeSort_nil, List.append_nil] at heq
    exact hsorted before to_ after heq from_ (mem_targets_true.mpr hedge)

/-- On an acyclic graph every service is listed once and before the services it depends on, so
that dependencies come first only if nothing depends on anything. -/
theorem recovers_iff (g : DependencyGraph) (walks : KahnWalks)
    (hregistered : ∀ a b, g.Edge a b → a ∈ g.nodes ∧ b ∈ g.nodes) (hacyclic : Acyclic g.Edge) :
    (∃ order, g.recoveryOrder walks = some order ∧ g.ListsAll order ∧ g.DependentsFirst order) ∧
      (g.Recovers walks ↔ ∀ a b, ¬ g.Edge a b) := by
  obtain ⟨order, horder, hlists, hfirst⟩ := g.recoveryOrder_spec walks
  have hfirst := hfirst hregistered hacyclic
  refine ⟨⟨order, horder, hlists, hfirst⟩, ?_, fun hnone => ?_⟩
  · rintro ⟨order', horder', -, hrecovers⟩ a b hedge
    cases horder.symm.trans horder'
    obtain ⟨before, after, heq⟩ := List.append_of_mem ((hlists.2 a).mpr (hregistered a b hedge).1)
    have hb := hrecovers a b hedge before after heq
    obtain ⟨p, q, rfl⟩ := List.append_of_mem hb
    have ha := hfirst a b hedge p (q ++ a :: after) (by simp [heq])
    have hnodup := hlists.1
    rw [heq] at hnodup
    exact (List.nodup_append.mp hnodup).2.2 a (List.mem_append_left _ ha) a (by simp) rfl
  · exact ⟨order, horder, hlists, fun a b hedge => absurd hedge (hnone a b)⟩

/-- One service that cannot do without another. -/
def pair : DependencyGraph :=
  ((({} : DependencyGraph).addService ⟨"web", "Website", .healthy, 5⟩).addService
    ⟨"db", "Database", .healthy, 10⟩).addDependency "web" "db" .hardDependency (.finite 1)

theorem edge_pair {a b : String} : pair.Edge a b ↔ a = "web" ∧ b = "db" := by
  rw [pair, edge_addDependency]
  exact or_iff_right (by rintro ⟨e, he, _⟩; cases he)

theorem pair_registered (a b : String) (h : pair.Edge a b) : a ∈ pair.nodes ∧ b ∈ pair.nodes := by
  obtain ⟨rfl, rfl⟩ := edge_pair.mp h
  decide

theorem pair_acyclic : Acyclic pair.Edge := by
  intro x hx
  obtain ⟨_, hout, _⟩ := TransGen.head'_iff.mp hx
  obtain ⟨_, _, hin⟩ := TransGen.tail'_iff.mp hx
  have := (edge_pair.mp hout).1.symm.trans (edge_pair.mp hin).2
  exact absurd this (by decide)

theorem recovers_iff_pair :
    (∃ order, pair.recoveryOrder ⟨.inserted _, .inserted _, .inserted _⟩ = some order ∧
      pair.ListsAll order ∧ pair.DependentsFirst order) ∧
      (pair.Recovers ⟨.inserted _, .inserted _, .inserted _⟩ ↔ ∀ a b, ¬ pair.Edge a b) :=
  recovers_iff pair ⟨.inserted _, .inserted _, .inserted _⟩ pair_registered pair_acyclic

/-- The website is brought back before the database that it needs. -/
theorem website_before_database :
    (∀ a b, pair.Edge a b → a ∈ pair.nodes ∧ b ∈ pair.nodes) ∧ Acyclic pair.Edge ∧
      pair.recoveryOrder ⟨.inserted _, .inserted _, .inserted _⟩ = some ["web", "db"] ∧
      ¬ pair.Recovers ⟨.inserted _, .inserted _, .inserted _⟩ := by
  have horder : pair.recoveryOrder ⟨.inserted _, .inserted _, .inserted _⟩ =
      some ["web", "db"] := by decide +kernel
  refine ⟨pair_registered, pair_acyclic, horder, ?_⟩
  rintro ⟨order, hrecovery, -, hfirst⟩
  cases hrecovery.symm.trans horder
  have hdb := hfirst "web" "db" (edge_pair.mpr ⟨rfl, rfl⟩) [] ["db"] rfl
  cases hdb

end DependencyGraph

end HelixRouter.Services
