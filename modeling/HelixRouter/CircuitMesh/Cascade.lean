import HelixRouter.CircuitMesh.CircuitMesh
import HelixRouter.Runs.Stepwise

set_option linter.dupNamespace false

namespace HelixRouter.CircuitMesh

open Floats Graphs Relation Runs

section Impact

variable {dependencies : Dependencies} {walk : IterationOrder (Σ _ : String, List String)}
  {a b failed : String}

/-- A route names another among its dependencies. -/
def DependsOn (dependencies : Dependencies) (a b : String) : Prop :=
  ∃ deps, dependencies.lookup a = some deps ∧ b ∈ deps

theorem mem_foldl_addDependant {route : String} (deps : List String) (reverse : Dependencies) :
    a ∈ ((deps.foldl (MeshCoordination.addDependant route) reverse).lookup b).getD [] ↔
      a ∈ (reverse.lookup b).getD [] ∨ a = route ∧ b ∈ deps := by
  induction deps generalizing reverse with
  | nil => simp
  | cons dep deps ih =>
    rw [List.foldl_cons, ih, MeshCoordination.addDependant]
    by_cases hb : b = dep
    · subst hb
      rw [AList.lookup_insert]
      simp
      tauto
    · rw [AList.lookup_insert_ne hb]
      simp [hb]

theorem mem_dependants : a ∈ MeshCoordination.dependants walk dependencies b ↔
    DependsOn dependencies a b := by
  have hfold : ∀ (entries : List (Σ _ : String, List String)) (reverse : Dependencies),
      a ∈ ((entries.foldl (fun r e => e.2.foldl (MeshCoordination.addDependant e.1) r)
          reverse).lookup b).getD [] ↔
        a ∈ (reverse.lookup b).getD [] ∨ ∃ e ∈ entries, a = e.1 ∧ b ∈ e.2 := by
    intro entries
    induction entries with
    | nil => simp
    | cons e entries ih =>
      intro reverse
      rw [List.foldl_cons, ih, mem_foldl_addDependant, or_assoc]
      simp
  rw [MeshCoordination.dependants, MeshCoordination.reverse, hfold]
  simp only [(walk.perm _).mem_iff, DependsOn]
  constructor
  · intro h
    rcases h with h | ⟨⟨_, deps⟩, hmem, rfl, hb⟩
    · simp at h
    · exact ⟨deps, AList.mem_lookup_iff.mpr hmem, hb⟩
  · intro h
    obtain ⟨deps, hdeps, hb⟩ := h
    exact Or.inr ⟨⟨a, deps⟩, AList.mem_lookup_iff.mp hdeps, rfl, hb⟩

/-- The impact of a route is what depends on it, at once or by way of other routes. -/
theorem dependencyImpact_spec (walk : IterationOrder (Σ _ : String, List String))
    (dependencies : Dependencies) (failed : String) : ∃ routes,
    MeshCoordination.dependencyImpact walk failed dependencies = some routes ∧
      ∀ a, a ∈ routes ↔ TransGen (DependsOn dependencies) a failed := by
  have hV : ∀ b, ∀ a ∈ MeshCoordination.dependants walk dependencies b,
      a ∈ dependencies.keys.toFinset := by
    intro b a ha
    obtain ⟨deps, hdeps, -⟩ := mem_dependants.mp ha
    exact List.mem_toFinset.mpr
      (AList.lookup_isSome.mp (Option.isSome_iff_exists.mpr ⟨deps, hdeps⟩))
  have hcard : dependencies.keys.toFinset.card ≤ dependencies.entries.length :=
    (List.toFinset_card_le _).trans (List.length_map _).le
  obtain ⟨routes, hsearch, hmem⟩ := Breadth.search_eq hV (hV failed) hcard
  refine ⟨routes, hsearch, fun a => ?_⟩
  have hswap : (fun x y => y ∈ MeshCoordination.dependants walk dependencies x) =
      Function.swap (DependsOn dependencies) := by
    funext x y
    exact propext mem_dependants
  rw [hmem, hswap]
  simp only [reflTransGen_swap, mem_dependants]
  rw [TransGen.tail'_iff]
  simp only [and_comm]

end Impact

namespace CircuitMesh

variable {m m' : CircuitMesh} {walk : Walk} {r s : String} {c c' : RouteCircuit}

def Opened (c : RouteCircuit) : Prop := ∃ openedAt failures, c.state = .opened openedAt failures

def IsOpen (m : CircuitMesh) (r : String) : Prop := ∃ c, m.circuits.lookup r = some c ∧ Opened c

/-- The route depends on an open one, at once or by way of other routes. -/
def Impacted (m : CircuitMesh) (r : String) : Prop :=
  ∃ s, m.IsOpen s ∧ TransGen (DependsOn m.dependencies) r s

/-- The circuits that were open are open since the same time. -/
def KeepsTimes (m m' : CircuitMesh) : Prop :=
  ∀ r c openedAt failures, m.circuits.lookup r = some c → c.state = .opened openedAt failures →
    ∃ c' failures', m'.circuits.lookup r = some c' ∧ c'.state = .opened openedAt failures'

/-- A cascade is exact: it leaves open what was open or is impacted, changes nothing else, and
does not touch the times at which circuits opened. -/
structure Exact (m m' : CircuitMesh) : Prop where
  opens : ∀ r, m'.IsOpen r ↔ r ∈ m.circuits ∧ (m.IsOpen r ∨ m.Impacted r)
  others : ∀ r, ¬(m.IsOpen r ∨ m.Impacted r) → m'.circuits.lookup r = m.circuits.lookup r
  times : KeepsTimes m m'

def step (m : CircuitMesh) (walk : Walk) : Option CircuitMesh := some (m.cascadeOpenIfNeeded walk)

section Spec

theorem opened_iff : Opened c ↔ c.stateLabel = "open" := by
  unfold Opened RouteCircuit.stateLabel
  cases c.state with
  | closed => simp
  | opened openedAt failures => simp
  | halfOpen probeSent => simp

theorem labelledOpen_iff : m.labelledOpen r = true ↔ m.IsOpen r := by
  simp [labelledOpen, IsOpen, opened_iff, Option.any_eq_true]

theorem IsOpen.mem (h : m.IsOpen r) : r ∈ m.circuits := by
  obtain ⟨c, hc, -⟩ := h
  exact AList.lookup_isSome.mp (Option.isSome_iff_exists.mpr ⟨c, hc⟩)

theorem mem_impactedRoutes : r ∈ m.impactedRoutes walk ↔ m.Impacted r := by
  unfold impactedRoutes Impacted
  rw [List.mem_flatMap]
  refine exists_congr fun s => ?_
  obtain ⟨routes, himpact, hmem⟩ := dependencyImpact_spec walk.dependencies m.dependencies s
  rw [List.mem_filter, (walk.circuits.perm _).mem_iff, labelledOpen_iff, himpact,
    ((walk.impacted s).perm _).mem_iff, Option.getD_some, hmem]
  exact and_congr_left fun _ => and_iff_right_of_imp IsOpen.mem

theorem lookup_forceOpen {clock : Nat → Instant} {circuits : AList fun _ : String => RouteCircuit}
    {route : String × Nat} : (forceOpen clock circuits route).lookup r =
      if r = route.1 then (circuits.lookup r).map (·.forceOpen (clock route.2))
      else circuits.lookup r := by
  unfold forceOpen
  cases hc : circuits.lookup route.1 with
  | none =>
    dsimp only
    split
    · rename_i hr
      rw [hr, hc]
      rfl
    · rfl
  | some c =>
    dsimp only
    split
    · rename_i hr
      rw [hr, AList.lookup_insert, hc]
      rfl
    · rename_i hr
      rw [AList.lookup_insert_ne hr]

/-- Of the routes that are gone through those with a circuit are opened, each at some reading
of the clock. -/
theorem lookup_foldl_forceOpen (clock : Nat → Instant) (r : String)
    (routes : List (String × Nat)) (circuits : AList fun _ : String => RouteCircuit) :
    (r ∉ routes.map Prod.fst →
      (routes.foldl (forceOpen clock) circuits).lookup r = circuits.lookup r) ∧
    (r ∈ routes.map Prod.fst → ∃ i, (routes.foldl (forceOpen clock) circuits).lookup r =
      (circuits.lookup r).map fun c => c.forceOpen (clock i)) := by
  induction routes using List.reverseRecOn with
  | nil => simp
  | append_singleton routes route ih =>
    obtain ⟨hout, hin⟩ := ih
    rw [List.foldl_append, List.foldl_cons, List.foldl_nil, List.map_append, List.mem_append,
      List.map_singleton, List.mem_singleton, lookup_forceOpen]
    by_cases hr : r = route.1
    · refine ⟨fun h => absurd (Or.inr hr) h, fun _ => ⟨route.2, ?_⟩⟩
      rw [if_pos hr]
      by_cases hmem : r ∈ routes.map Prod.fst
      · obtain ⟨i, hi⟩ := hin hmem
        rw [hi, Option.map_map]
        rfl
      · rw [hout hmem]
    · rw [if_neg hr]
      exact ⟨fun h => hout fun hmem => h (Or.inl hmem), fun h => hin (h.resolve_right hr)⟩

/-- What a cascade does to the circuit of each route. -/
theorem lookup_cascade (walk : Walk) (hreached : m.thresholdReached = true) (r : String) :
    (¬m.Impacted r → (m.cascadeOpenIfNeeded walk).circuits.lookup r = m.circuits.lookup r) ∧
      (m.Impacted r → ∃ i, (m.cascadeOpenIfNeeded walk).circuits.lookup r =
        (m.circuits.lookup r).map fun c => c.forceOpen (walk.clock i)) := by
  have hspec := lookup_foldl_forceOpen walk.clock r
    (m.impactedRoutes walk).zipIdx m.circuits
  rw [List.zipIdx_map_fst, mem_impactedRoutes] at hspec
  rw [cascadeOpenIfNeeded, if_pos hreached]
  exact hspec

theorem cascade_eq_self (hreached : m.thresholdReached = false) :
    m.cascadeOpenIfNeeded walk = m := by
  rw [cascadeOpenIfNeeded, hreached]
  rfl

theorem dependencies_cascade : (m.cascadeOpenIfNeeded walk).dependencies = m.dependencies := by
  unfold cascadeOpenIfNeeded
  split <;> rfl

/-- The impacted routes that have a circuit are open afterwards, and the others as before. -/
theorem isOpen_cascade_iff (hreached : m.thresholdReached = true) :
    (m.cascadeOpenIfNeeded walk).IsOpen r ↔ r ∈ m.circuits ∧ (m.IsOpen r ∨ m.Impacted r) := by
  obtain ⟨hout, hin⟩ := lookup_cascade walk hreached r
  by_cases himpacted : m.Impacted r
  · obtain ⟨i, hi⟩ := hin himpacted
    unfold IsOpen
    rw [hi, and_iff_left (Or.inr himpacted), ← AList.lookup_isSome]
    cases m.circuits.lookup r with
    | none => simp
    | some c =>
      have hopened : Opened (c.forceOpen (walk.clock i)) := ⟨_, _, rfl⟩
      simp [hopened]
  · have hopen : (m.cascadeOpenIfNeeded walk).IsOpen r ↔ m.IsOpen r := by
      unfold IsOpen
      rw [hout himpacted]
    rw [hopen, or_iff_left himpacted]
    exact (and_iff_right_of_imp IsOpen.mem).symm

end Spec

section Times

/-- A call during which the clock stands still. -/
def callAt (now : Instant) : Walk :=
  ⟨.inserted _, .inserted _, fun _ => .inserted _, fun _ => now⟩

/-- The times are kept by every cascade where no open route depends on an open one. -/
theorem keepsTimes_iff (hreached : m.thresholdReached = true) :
    (∀ walk, KeepsTimes m (m.cascadeOpenIfNeeded walk)) ↔ ∀ r, m.IsOpen r → ¬m.Impacted r := by
  constructor
  · intro hkeeps r hopen himpacted
    obtain ⟨c, hc, openedAt, failures, hstate⟩ := hopen
    obtain ⟨c', failures', hc', hstate'⟩ :=
      hkeeps (callAt (openedAt + 1)) r c openedAt failures hc hstate
    obtain ⟨i, hi⟩ := (lookup_cascade (callAt (openedAt + 1)) hreached r).2 himpacted
    rw [hi, hc] at hc'
    obtain rfl := Option.some.inj hc'
    exact absurd (RouteCircuitState.opened.inj hstate').1 (Nat.succ_ne_self openedAt)
  · intro hnone walk r c openedAt failures hc hstate
    refine ⟨c, failures, ?_, hstate⟩
    rw [(lookup_cascade walk hreached r).1 (hnone r ⟨c, hc, openedAt, failures, hstate⟩), hc]

theorem exact_cascade_iff (hreached : m.thresholdReached = true) :
    (∀ walk, Exact m (m.cascadeOpenIfNeeded walk)) ↔ ∀ r, m.IsOpen r → ¬m.Impacted r := by
  rw [← keepsTimes_iff hreached]
  refine forall_congr' fun walk => ⟨fun h => h.times, fun h => ⟨fun r => ?_, fun r hr => ?_, h⟩⟩
  · exact isOpen_cascade_iff hreached
  · exact (lookup_cascade walk hreached r).1 fun himpacted => hr (Or.inr himpacted)

end Times

section Repeated

theorem openRoutes_eq : m.meshHealth.openRoutes = m.circuits.keys.countP m.labelledOpen := by
  unfold meshHealth AList.keys List.keys
  rw [List.countP_map]
  apply List.countP_congr
  intro e he
  have hlookup : m.circuits.lookup e.1 = some e.2 := AList.mem_lookup_iff.mpr he
  simp [labelledOpen, hlookup]

theorem totalRoutes_eq : m.meshHealth.totalRoutes = m.circuits.keys.length := by
  unfold meshHealth AList.keys List.keys
  dsimp only
  rw [List.length_map]
  induction m.circuits.entries with
  | nil => rfl
  | cons e entries ih =>
    simp only [List.countP_cons, List.length_cons, ← ih]
    by_cases hopen : e.2.stateLabel = "open"
    · simp [hopen]
      omega
    · by_cases hhalf : e.2.stateLabel = "half_open"
      · simp [hhalf]
        omega
      · simp [hopen, hhalf]
        omega

theorem mem_cascade_iff : r ∈ (m.cascadeOpenIfNeeded walk).circuits ↔ r ∈ m.circuits := by
  by_cases hreached : m.thresholdReached = true
  · rw [← AList.lookup_isSome, ← AList.lookup_isSome]
    by_cases himpacted : m.Impacted r
    · obtain ⟨i, hi⟩ := (lookup_cascade walk hreached r).2 himpacted
      rw [hi, Option.isSome_map]
    · rw [(lookup_cascade walk hreached r).1 himpacted]
  · rw [cascade_eq_self (Bool.eq_false_iff.mpr hreached)]

/-- A cascade leaves the threshold reached. -/
theorem thresholdReached_cascade (hreached : m.thresholdReached = true) :
    (m.cascadeOpenIfNeeded walk).thresholdReached = true := by
  have hkeys : (m.cascadeOpenIfNeeded walk).circuits.keys.Perm m.circuits.keys :=
    (List.perm_ext_iff_of_nodup (AList.keys_nodup _) (AList.keys_nodup _)).mpr
      fun r => mem_cascade_iff
  have htotal : (m.cascadeOpenIfNeeded walk).meshHealth.totalRoutes = m.meshHealth.totalRoutes := by
    rw [totalRoutes_eq, totalRoutes_eq, hkeys.length_eq]
  have hopen : m.meshHealth.openRoutes ≤ (m.cascadeOpenIfNeeded walk).meshHealth.openRoutes := by
    rw [openRoutes_eq, openRoutes_eq, hkeys.countP_eq]
    refine List.countP_mono_left fun r _ hr => ?_
    have hr := labelledOpen_iff.mp hr
    exact labelledOpen_iff.mpr ((isOpen_cascade_iff hreached).mpr ⟨hr.mem, Or.inl hr⟩)
  have hthreshold : (m.cascadeOpenIfNeeded walk).cascadeThreshold = m.cascadeThreshold := by
    unfold cascadeOpenIfNeeded
    split <;> rfl
  unfold thresholdReached MeshCoordination.shouldCascadeOpen at hreached ⊢
  rw [htotal, hthreshold]
  by_cases hnone : m.meshHealth.totalRoutes = 0
  · simp [hnone] at hreached
  · rw [if_neg hnone] at hreached ⊢
    refine F64.le_ofRat_mono (by positivity) ?_ hreached
    exact div_le_div_of_nonneg_right (by exact_mod_cast hopen) (by positivity)

/-- What no impacted route has a circuit for is left as it is. -/
theorem cascade_eq_self_of_not_impacted (hnone : ∀ r ∈ m.circuits, ¬m.Impacted r) :
    m.cascadeOpenIfNeeded walk = m := by
  have hsame : ∀ routes : List (String × Nat), (∀ route ∈ routes, route.1 ∉ m.circuits) →
      routes.foldl (forceOpen walk.clock) m.circuits = m.circuits := by
    intro routes
    induction routes with
    | nil => exact fun _ => rfl
    | cons route routes ih =>
      intro hout
      have hlookup := AList.lookup_eq_none.mpr (hout route List.mem_cons_self)
      rw [List.foldl_cons, forceOpen, hlookup]
      exact ih fun route' h => hout route' (List.mem_cons_of_mem _ h)
  unfold cascadeOpenIfNeeded
  split
  · rw [hsame]
    intro route hroute hmem
    have hfst := List.mem_map_of_mem (f := Prod.fst) hroute
    rw [List.zipIdx_map_fst] at hfst
    exact hnone route.1 hmem (mem_impactedRoutes.mp hfst)
  · rfl

theorem eachStep_of_cascade_eq_self (hself : ∀ walk, m.cascadeOpenIfNeeded walk = m)
    (walks : List Walk) :
    EachStep step (fun m walk => KeepsTimes m (m.cascadeOpenIfNeeded walk)) m walks := by
  induction walks with
  | nil => trivial
  | cons walk walks ih =>
    intro m' hstep
    obtain rfl := (hself walk).symm.trans (Option.some.inj hstep)
    refine ⟨?_, ih⟩
    intro r c openedAt failures hc hstate
    exact ⟨c, failures, (hself walk).symm ▸ hc, hstate⟩

/-- The times are kept by any number of cascades where no circuit at all is impacted. -/
theorem keepsTimes_repeated_iff (hreached : m.thresholdReached = true) :
    (∀ walks, EachStep step (fun m walk => KeepsTimes m (m.cascadeOpenIfNeeded walk)) m walks) ↔
      ∀ r ∈ m.circuits, ¬m.Impacted r := by
  constructor
  · intro hall r hmem himpacted
    -- a first cascade opens the route, and any other one would postpone it
    have hsecond : ∀ walk, KeepsTimes (m.cascadeOpenIfNeeded (callAt 0))
        ((m.cascadeOpenIfNeeded (callAt 0)).cascadeOpenIfNeeded walk) :=
      fun walk => (((hall [callAt 0, walk]) _ rfl).2 _ rfl).1
    have hnone := (keepsTimes_iff (thresholdReached_cascade hreached)).mp hsecond
    refine hnone r ((isOpen_cascade_iff hreached).mpr ⟨hmem, Or.inr himpacted⟩) ?_
    obtain ⟨s, hs, hpath⟩ := himpacted
    refine ⟨s, (isOpen_cascade_iff hreached).mpr ⟨hs.mem, Or.inl hs⟩, ?_⟩
    rw [dependencies_cascade]
    exact hpath
  · intro hnone
    exact eachStep_of_cascade_eq_self fun walk => cascade_eq_self_of_not_impacted hnone

end Repeated

/-- Where the threshold is reached, a cascade is exact if and only if no open route depends on
an open one; and any number of them keep the times if and only if no route with a circuit does. -/
theorem cascade_exact_iff (m : CircuitMesh) :
    ((∀ walk, m.thresholdReached = true → Exact m (m.cascadeOpenIfNeeded walk)) ↔
      (m.thresholdReached = true → ∀ r, m.IsOpen r → ¬m.Impacted r)) ∧
    ((∀ walks, EachStep step (fun m walk => KeepsTimes m (m.cascadeOpenIfNeeded walk)) m walks) ↔
      (m.thresholdReached = true → ∀ r ∈ m.circuits, ¬m.Impacted r)) := by
  by_cases hreached : m.thresholdReached = true
  · refine ⟨?_, ?_⟩
    · simpa [hreached] using exact_cascade_iff hreached
    · simpa [hreached] using keepsTimes_repeated_iff hreached
  · refine ⟨iff_of_true (fun _ h => absurd h hreached) fun h => absurd h hreached,
      iff_of_true (fun walks => ?_) fun h => absurd h hreached⟩
    exact eachStep_of_cascade_eq_self
      (fun walk => cascade_eq_self (Bool.eq_false_iff.mpr hreached)) walks

/-- A route that depends on an open one. -/
def leaning : CircuitMesh where
  circuits := ((∅ : AList fun _ : String => RouteCircuit).insert "site" (.new (.new "site"))).insert
    "db" ((RouteCircuit.new (.new "db")).forceOpen 0)
  dependencies := (∅ : Dependencies).insert "site" ["db"]

/-- A second cascade opens the route anew. -/
theorem second_cascade_postpones :
    ¬∀ walks, EachStep step (fun m walk => KeepsTimes m (m.cascadeOpenIfNeeded walk))
      leaning walks := by
  intro h
  have hreached : leaning.thresholdReached = true := by decide +kernel
  refine (keepsTimes_repeated_iff hreached).mp h "site" (by decide) ⟨"db", ?_, .single ?_⟩
  · exact ⟨_, rfl, _, _, rfl⟩
  · exact ⟨["db"], rfl, List.mem_singleton_self _⟩

end CircuitMesh

end HelixRouter.CircuitMesh
