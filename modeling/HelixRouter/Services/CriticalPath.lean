import HelixRouter.Graphs.Cycles
import HelixRouter.Graphs.Longest
import HelixRouter.Services.DependencyGraph
import Mathlib.Data.List.MinMax

namespace HelixRouter.Services

open Relation Graphs

structure PathWalks extends KahnWalks where
  dp : IterationOrder (Σ _ : String, Nat × Option String)

def isHard (e : DependencyEdge) : Bool := e.edgeType = .hardDependency

namespace DependencyGraph

variable (g : DependencyGraph)

/-- The longest chain over the services that a topological sort takes out. -/
def criticalPath (walks : PathWalks) : Option (List String) :=
  let inDegree := g.inDegree isHard walks.adjacency
  let queue := g.ready isHard walks.toKahnWalks
  match Countdown.drain (g.targets isHard) g.nodes.entries.length ⟨inDegree, queue, []⟩ with
  | none => none
  | some s =>
    let dp : Chart String := s.order.foldl (Chart.extend (g.targets isHard))
      (g.nodes.mapValues fun _ _ => (0, none))
    -- Of several entries that are largest the last one is taken.
    match (walks.dp.arrange dp.entries).reverse.argmax (·.2.1) with
    | none => some []
    | some ⟨endNode, len, _⟩ => (dp.follow (len + 1) endNode).map List.reverse

/-- Registered services each of which cannot do without the next. -/
def HardChain (c : List String) : Prop := c.IsChain g.HardEdge ∧ ∀ id ∈ c, id ∈ g.nodes

def Longest (c : List String) : Prop :=
  g.HardChain c ∧ ∀ c', g.HardChain c' → c'.length ≤ c.length

/-- Something that is not registered depends on a service. -/
def Overhung (id : String) : Prop := ∃ u, u ∉ g.nodes ∧ TransGen g.HardEdge u id

variable {g}

theorem mem_targets_isHard {a b : String} : b ∈ g.targets isHard a ↔ g.HardEdge a b := by
  simp [mem_targets, HardEdge, isHard]

section Sorted

variable {order : List String}

/-- What a taken out service leads back to is taken out, hence registered. -/
theorem not_overhung (horder : ∀ y, y ∈ order ↔ y ∈ g.nodes ∧ ∀ a, g.HardEdge a y → a ∈ order)
    {y : String} (hy : y ∈ order) : ¬ g.Overhung y := by
  rintro ⟨u, hu, hreach⟩
  have hback : u ∈ order := by
    clear hu
    induction hreach using TransGen.head_induction_on with
    | single hedge => exact ((horder y).mp hy).2 _ hedge
    | head hedge _ ih => exact ((horder _).mp ih).2 _ hedge
  exact hu ((horder u).mp hback).1

/-- Where the registered services depend on each other without cycles, all are taken out
that nothing unregistered depends on. -/
theorem mem_of_not_overhung
    (horder : ∀ y, y ∈ order ↔ y ∈ g.nodes ∧ ∀ a, g.HardEdge a y → a ∈ order)
    (hacyclic : Acyclic fun a b => g.HardEdge a b ∧ a ∈ g.nodes ∧ b ∈ g.nodes) {y : String}
    (hy : y ∈ g.nodes) (hfree : ¬ g.Overhung y) : y ∈ order := by
  have hV : ∀ a b, g.HardEdge a b ∧ a ∈ g.nodes ∧ b ∈ g.nodes → b ∈ g.nodes.keys.toFinset :=
    fun a b h => List.mem_toFinset.mpr (AList.mem_keys.mp h.2.2)
  induction hacyclic.acc hV y with
  | intro y _ ih =>
    refine (horder y).mpr ⟨hy, fun a hedge => ?_⟩
    have ha : a ∈ g.nodes := by
      by_contra hout
      exact hfree ⟨a, hout, .single hedge⟩
    refine ih a ⟨hedge, ha, hy⟩ ha ?_
    rintro ⟨u, hu, hreach⟩
    exact hfree ⟨u, hu, hreach.tail hedge⟩

end Sorted

theorem isChain_targets {c : List String} :
    c.IsChain (fun a b => b ∈ g.targets isHard a) ↔ c.IsChain g.HardEdge := by
  simp only [mem_targets_isHard]

theorem charted_start (g : DependencyGraph) :
    Chart.Charted (g.targets isHard) g.nodes.keys []
      (g.nodes.mapValues fun _ _ => ((0, none) : Nat × Option String)) := by
  apply Chart.charted_start
  intro y
  rw [AList.lookup_mapValues]
  by_cases hy : y ∈ g.nodes
  · obtain ⟨node, hnode⟩ := Option.isSome_iff_exists.mp (AList.lookup_isSome.mpr hy)
    rw [if_pos (AList.mem_keys.mp hy), hnode, Option.map_some]
  · rw [if_neg (mt AList.mem_keys.mpr hy), AList.lookup_eq_none.mpr hy, Option.map_none]

/-- The largest entry is an entry, in whatever order they come. -/
theorem largest_spec {dp : Chart String} {walk : IterationOrder (Σ _ : String, Nat × Option String)}
    {last : Σ _ : String, Nat × Option String}
    (h : (walk.arrange dp.entries).reverse.argmax (·.2.1) = some last) :
    last ∈ dp.entries ∧ ∀ entry ∈ dp.entries, entry.2.1 ≤ last.2.1 := by
  have hmem : ∀ entry, entry ∈ (walk.arrange dp.entries).reverse ↔ entry ∈ dp.entries :=
    fun _ => List.mem_reverse.trans (walk.perm _).mem_iff
  refine ⟨(hmem last).mp (List.argmax_mem h), fun entry hentry => ?_⟩
  have hle := List.le_of_mem_argmax ((hmem entry).mpr hentry) h
  exact hle

theorem no_largest {dp : Chart String} {walk : IterationOrder (Σ _ : String, Nat × Option String)}
    (h : (walk.arrange dp.entries).reverse.argmax (·.2.1) = none)
    (entry : Σ _ : String, Nat × Option String) : entry ∉ dp.entries := by
  have hnil := List.reverse_eq_nil_iff.mp (List.argmax_eq_none.mp h)
  rw [← (walk.perm dp.entries).mem_iff, hnil]
  exact List.not_mem_nil

/-- The path, on every graph: a chain without repetition whose services are taken out, but
for the last, and the longest of those. -/
theorem criticalPath_spec (g : DependencyGraph) (walks : PathWalks) :
    ∃ path, ∃ order : List String, g.criticalPath walks = some path ∧ path.Nodup ∧
      g.HardChain path ∧
      (∀ y, y ∈ order ↔ y ∈ g.nodes ∧ ∀ a, g.HardEdge a y → a ∈ order) ∧
      (∀ id ∈ path.dropLast, id ∈ order) ∧
      ((∃ id, id ∈ g.nodes) → path ≠ []) ∧
      ∀ c y, g.HardChain (c ++ [y]) → (∀ id ∈ c, id ∈ order) → c.length + 1 ≤ path.length := by
  obtain ⟨s, hdrain, hnodup, hmem, hsorted⟩ := kahn_spec walks.toKahnWalks
    (fun x => List.Perm.refl (g.targets isHard x)) (List.Perm.refl (g.ready isHard _))
  simp only [mem_targets_isHard] at hmem
  have hsub : ∀ a ∈ s.order, a ∈ g.nodes.keys := fun a ha => AList.mem_keys.mp ((hmem a).mp ha).1
  have hchart := g.charted_start.foldl hnodup hsorted
  generalize hdp : s.order.foldl (Chart.extend (g.targets isHard))
    (g.nodes.mapValues fun _ _ => (0, none)) = dp at hchart
  have hentry : ∀ y ∈ g.nodes, ∃ p, ⟨y, dp.len y, p⟩ ∈ dp.entries := by
    intro y hy
    exact hchart.exists_entry (AList.mem_keys.mp hy)
  cases hmax : (walks.dp.arrange dp.entries).reverse.argmax (·.2.1) with
  | none =>
    have hnone : ∀ y, y ∉ g.nodes := by
      intro y hy
      obtain ⟨p, hp⟩ := hentry y hy
      exact no_largest hmax _ hp
    refine ⟨[], s.order, ?_, List.nodup_nil, ⟨.nil, by simp⟩, hmem, by simp, ?_, ?_⟩
    · simp only [criticalPath, hdrain, hdp, hmax]
    · rintro ⟨y, hy⟩
      exact absurd hy (hnone y)
    · intro c y hc
      exact absurd (hc.2 y (by simp)) (hnone y)
  | some last =>
    obtain ⟨x, len, p⟩ := last
    obtain ⟨hlast, hlargest⟩ := largest_spec hmax
    obtain ⟨hx, rfl⟩ := hchart.of_entry hlast
    obtain ⟨path, hpath, hdistinct, hlength, hchain, hnodes, htaken⟩ :=
      hchart.exists_chain hsub hx
    refine ⟨path, s.order, ?_, hdistinct, ⟨isChain_targets.mp hchain, ?_⟩, hmem, htaken, ?_, ?_⟩
    · simp only [criticalPath, hdrain, hdp, hmax, hpath]
    · intro id hid
      exact AList.mem_keys.mpr (hnodes id hid)
    · rintro _ rfl
      simp at hlength
    · intro c y hc htaken
      have hy : y ∈ g.nodes := hc.2 y (by simp)
      obtain ⟨q, hq⟩ := hentry y hy
      calc c.length + 1
          ≤ dp.len y + 1 := Nat.succ_le_succ (hchart.length_le hsub (isChain_targets.mpr hc.1)
            htaken (AList.mem_keys.mp hy))
        _ ≤ dp.len x + 1 := Nat.succ_le_succ (hlargest _ hq)
        _ = path.length := hlength.symm

/-- The path is always a chain of hard dependencies without repetition. Without cycles it is
a longest one exactly if some longest one has no service before its last that something
unregistered depends on. -/
theorem criticalPath_longest_iff (g : DependencyGraph) (walks : PathWalks) :
    ∃ path, g.criticalPath walks = some path ∧ path.Nodup ∧ g.HardChain path ∧
      ((∃ id, id ∈ g.nodes) → path ≠ []) ∧
      (Acyclic (fun a b => g.HardEdge a b ∧ a ∈ g.nodes ∧ b ∈ g.nodes) →
        (g.Longest path ↔ ∃ c, g.Longest c ∧ ∀ id ∈ c.dropLast, ¬ g.Overhung id)) := by
  obtain ⟨path, order, hpath, hnodup, hchain, horder, htaken, hne, hlongest⟩ :=
    g.criticalPath_spec walks
  refine ⟨path, hpath, hnodup, hchain, hne, fun hacyclic => ⟨fun hlong => ?_, ?_⟩⟩
  · exact ⟨path, hlong, fun id hid => not_overhung horder (htaken id hid)⟩
  · rintro ⟨c, hc, hfree⟩
    have hle : c.length ≤ path.length := by
      rcases List.eq_nil_or_concat' c with rfl | ⟨c, y, rfl⟩
      · exact Nat.zero_le _
      · rw [List.dropLast_concat] at hfree
        have hin : ∀ id ∈ c, id ∈ order := by
          intro id hid
          exact mem_of_not_overhung horder hacyclic (hc.1.2 id (by simp [hid])) (hfree id hid)
        simpa using hlongest c y hc.1 hin
    exact ⟨hchain, fun c' hc' => (hc.2 c' hc').trans hle⟩

/-- A service that was never registered depends on one of two that are. -/
def haunted : DependencyGraph :=
  (((({} : DependencyGraph).addService ⟨"web", "Website", .healthy, 5⟩).addService
    ⟨"db", "Database", .healthy, 10⟩).addDependency "web" "db" .hardDependency
      (.finite 1)).addDependency "ghost" "web" .hardDependency (.finite 1)

theorem hardEdge_haunted {a b : String} :
    haunted.HardEdge a b ↔ a = "web" ∧ b = "db" ∨ a = "ghost" ∧ b = "web" := by
  rw [haunted, hardEdge_addDependency, hardEdge_addDependency]
  simp [HardEdge, edges, addService]

theorem haunted_acyclic :
    Acyclic fun a b => haunted.HardEdge a b ∧ a ∈ haunted.nodes ∧ b ∈ haunted.nodes := by
  have hedge : ∀ a b, haunted.HardEdge a b ∧ a ∈ haunted.nodes ∧ b ∈ haunted.nodes →
      a = "web" ∧ b = "db" := by
    rintro a b ⟨hedge, ha, _⟩
    rcases hardEdge_haunted.mp hedge with h | ⟨rfl, _⟩
    · exact h
    · exact absurd ha (by decide)
  intro x hx
  obtain ⟨_, hout, _⟩ := TransGen.head'_iff.mp hx
  obtain ⟨_, _, hin⟩ := TransGen.tail'_iff.mp hx
  have := (hedge _ _ hout).1.symm.trans (hedge _ _ hin).2
  exact absurd this (by decide)

/-- The path has one service where there is a chain of two. -/
theorem haunted_cut_short :
    Acyclic (fun a b => haunted.HardEdge a b ∧ a ∈ haunted.nodes ∧ b ∈ haunted.nodes) ∧
      ∃ path, haunted.criticalPath
        ⟨⟨.inserted _, .inserted _, .inserted _⟩, .inserted _⟩ = some path ∧
      path.length = 1 ∧ ¬ haunted.Longest path := by
  have hlength : (haunted.criticalPath
      ⟨⟨.inserted _, .inserted _, .inserted _⟩, .inserted _⟩).map List.length = some 1 := by
    decide +kernel
  obtain ⟨path, hpath, hone⟩ := Option.map_eq_some_iff.mp hlength
  refine ⟨haunted_acyclic, path, hpath, hone, fun hlong => ?_⟩
  have htwo : haunted.HardChain ["web", "db"] :=
    ⟨.cons_cons (hardEdge_haunted.mpr (.inl ⟨rfl, rfl⟩)) (.singleton _), by decide⟩
  have := hlong.2 _ htwo
  rw [hone] at this
  exact absurd this (by decide)

end DependencyGraph

end HelixRouter.Services
