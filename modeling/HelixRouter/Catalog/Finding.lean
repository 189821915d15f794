import HelixRouter.Catalog.EndpointCatalog

namespace HelixRouter.Catalog

open Texts

variable {c : EndpointCatalog} {f : CatalogFilter} {e : EndpointEntry} {cap : ServiceCapability}

namespace CatalogFilter

def healthPasses (f : CatalogFilter) (e : EndpointEntry) : Prop :=
  f.healthyOnly = true → e.healthy = true

/-- The name and the protocol are as asked for. -/
def named (f : CatalogFilter) (cap : ServiceCapability) : Prop :=
  allows f.capabilityName cap.name = true ∧ allows f.protocol cap.protocol = true

/-- The version is at least the one asked for, number by number. -/
def recent (f : CatalogFilter) (cap : ServiceCapability) : Prop :=
  ∀ minVer ∈ f.minVersion, versionNumbers minVer ≤ versionNumbers cap.version

/-- The version is at least the one asked for once numbers that do not fit a word are cut to
zero in both. -/
def recentCut (f : CatalogFilter) (cap : ServiceCapability) : Prop :=
  ∀ minVer ∈ f.minVersion, (versionNumbers minVer).map cut ≤ (versionNumbers cap.version).map cut

/-- Something is asked of the capabilities. -/
def asks (f : CatalogFilter) : Prop :=
  f.capabilityName.isSome = true ∨ f.protocol.isSome = true ∨ f.minVersion.isSome = true

instance (f : CatalogFilter) (cap : ServiceCapability) : Decidable (f.named cap) :=
  inferInstanceAs (Decidable (_ ∧ _))

instance (f : CatalogFilter) (cap : ServiceCapability) : Decidable (f.recent cap) :=
  inferInstanceAs (Decidable (∀ minVer ∈ f.minVersion, _))

instance (f : CatalogFilter) : Decidable f.asks := inferInstanceAs (Decidable (_ ∨ _ ∨ _))

instance (f : CatalogFilter) (e : EndpointEntry) : Decidable (f.healthPasses e) :=
  inferInstanceAs (Decidable (_ → _))

/-- One capability meets everything that is asked for. -/
def Matches (f : CatalogFilter) (e : EndpointEntry) : Prop :=
  f.healthPasses e ∧ (f.asks → ∃ cap ∈ e.capabilities, f.named cap ∧ f.recent cap)

instance (f : CatalogFilter) (e : EndpointEntry) : Decidable (f.Matches e) :=
  inferInstanceAs (Decidable (_ ∧ (_ → _)))

end CatalogFilter

theorem allows_iff {wanted : Option Text} {actual : Text} :
    allows wanted actual = true ↔ ∀ w ∈ wanted, actual = w := by
  cases wanted <;> simp [allows]

namespace EndpointCatalog

/-- The entries found are those registered that match, each once. -/
def FindsExactly (c : EndpointCatalog) (f : CatalogFilter) : Prop :=
  ∀ order : IterationOrder EndpointEntry,
    (c.find order f).Perm (c.registered.filter fun e => f.Matches e)

theorem find_eq (c : EndpointCatalog) (order : IterationOrder EndpointEntry) (f : CatalogFilter) :
    c.find order f = (order.arrange c.registered).filter (keeps f) := by
  rw [find, ← List.filterMap_eq_filter]
  rfl

theorem findsExactly_iff_keeps :
    c.FindsExactly f ↔ ∀ e ∈ c.registered, keeps f e = true ↔ f.Matches e := by
  constructor
  · intro h e he
    have hmem := (h (.inserted _)).mem_iff (a := e)
    rw [find_eq, List.mem_filter, List.mem_filter, IterationOrder.mem_arrange] at hmem
    simpa [he] using hmem
  · intro h order
    have hfilter : c.registered.filter (keeps f) = c.registered.filter fun e => f.Matches e := by
      apply List.filter_congr
      intro e he
      rw [Bool.eq_iff_iff, decide_eq_true_iff]
      exact h e he
    rw [find_eq, ← hfilter]
    exact (order.perm c.registered).filter _

/-- Whether the comparison finds a version recent enough. -/
def passes (f : CatalogFilter) (cap : ServiceCapability) : Prop :=
  ∀ minVer ∈ f.minVersion, 0 ≤ compareVersions cap.version minVer

theorem capabilityMatches_iff {capName : Text} (hname : f.capabilityName = some capName) :
    capabilityMatches f capName cap = true ↔ f.named cap ∧ passes f cap := by
  unfold capabilityMatches CatalogFilter.named passes
  have hallows : allows f.capabilityName cap.name = true ↔ cap.name = capName := by
    simp [allows_iff, hname]
  rw [hallows]
  by_cases hn : cap.name = capName
  · by_cases hp : allows f.protocol cap.protocol = true
    · cases hv : f.minVersion with
      | none => simp [hn, hp]
      | some minVer => simp [hn, hp]
    · simp [hn, hp]
  · simp [hn]

theorem keeps_iff : keeps f e = true ↔ f.healthPasses e ∧
    (f.capabilityName.isSome = true → ∃ cap ∈ e.capabilities, f.named cap ∧ passes f cap) ∧
    (f.capabilityName = none → f.protocol.isSome = true → ∃ cap ∈ e.capabilities, f.named cap) := by
  unfold keeps
  by_cases hh : f.healthPasses e
  · rw [if_neg (fun h => h.2 (hh h.1))]
    cases hn : f.capabilityName with
    | some capName =>
      simp only [List.any_eq_true, capabilityMatches_iff hn]
      simp [hh]
    | none =>
      cases hp : f.protocol with
      | none => simp [hh]
      | some proto => simp [hh, CatalogFilter.named, allows_iff, hn, hp]
  · have hout : f.healthyOnly = true ∧ ¬ e.healthy = true := Classical.not_imp.mp hh
    simp [hh, hout]

end EndpointCatalog

open EndpointCatalog

theorem passes_of_none (hv : f.minVersion = none) : passes f cap := by
  simp [passes, hv]

theorem CatalogFilter.recent_of_none (hv : f.minVersion = none) : f.recent cap := by
  simp [CatalogFilter.recent, hv]

/-- The comparison is one of the numbers that are left of the versions. -/
theorem passes_iff_recentCut : passes f cap ↔ f.recentCut cap :=
  forall₂_congr fun minVer _ => by rw [← not_lt, compareVersions_neg_iff, not_lt]

/-- With a name, a capability that the cut moves across the minimum has another beside it that
makes up for it; without one, an entry that has the protocol has it in a version that is recent
enough. -/
def VersionSettled (f : CatalogFilter) (e : EndpointEntry) : Prop :=
  (f.capabilityName.isSome = true → ∀ cap ∈ e.capabilities, f.named cap →
    (f.recent cap → ¬ f.recentCut cap → ∃ other ∈ e.capabilities, f.named other ∧
      f.recentCut other) ∧
    (f.recentCut cap → ¬ f.recent cap → ∃ other ∈ e.capabilities, f.named other ∧
      f.recent other)) ∧
  (f.capabilityName = none →
    (f.protocol.isSome = true → ∃ cap ∈ e.capabilities, f.named cap) →
      ∃ cap ∈ e.capabilities, f.named cap ∧ f.recent cap)

/-- Two tests find something in the same lists if whatever only one of them finds has company
that the other one finds. -/
theorem exists_iff_exists {α : Type} {l : List α} {A P Q : α → Prop} :
    ((∃ a ∈ l, A a ∧ P a) ↔ ∃ a ∈ l, A a ∧ Q a) ↔ ∀ a ∈ l, A a →
      (Q a → ¬ P a → ∃ b ∈ l, A b ∧ P b) ∧ (P a → ¬ Q a → ∃ b ∈ l, A b ∧ Q b) := by
  constructor
  · intro h a ha hA
    exact ⟨fun hQ _ => h.mpr ⟨a, ha, hA, hQ⟩, fun hP _ => h.mp ⟨a, ha, hA, hP⟩⟩
  · intro h
    constructor
    · rintro ⟨a, ha, hA, hP⟩
      by_cases hQ : Q a
      · exact ⟨a, ha, hA, hQ⟩
      · exact (h a ha hA).2 hP hQ
    · rintro ⟨a, ha, hA, hQ⟩
      by_cases hP : P a
      · exact ⟨a, ha, hA, hP⟩
      · exact (h a ha hA).1 hQ hP

theorem keeps_matches_iff {minVer : Text} (hv : f.minVersion = some minVer) :
    (keeps f e = true ↔ f.Matches e) ↔ (f.healthPasses e → VersionSettled f e) := by
  have hasks : f.asks := Or.inr (Or.inr (by rw [hv]; rfl))
  rw [keeps_iff, CatalogFilter.Matches]
  by_cases hh : f.healthPasses e
  · cases hn : f.capabilityName with
    | some capName =>
      simp only [hh, hasks, true_and, true_imp_iff, Option.isSome_some, reduceCtorEq,
        false_imp_iff, and_true, VersionSettled, hn, passes_iff_recentCut]
      exact exists_iff_exists
    | none =>
      have hback : (∃ cap ∈ e.capabilities, f.named cap ∧ f.recent cap) →
          ∃ cap ∈ e.capabilities, f.named cap := fun ⟨cap, hcap, hnamed, _⟩ => ⟨cap, hcap, hnamed⟩
      simp only [hh, hasks, VersionSettled, hn, true_and, true_imp_iff, Option.isSome_none,
        Bool.false_eq_true, false_imp_iff]
      exact ⟨Iff.mp, fun h => ⟨h, fun hm _ => hback hm⟩⟩
  · simp [hh]

theorem keeps_matches_of_none (hv : f.minVersion = none) :
    keeps f e = true ↔ f.Matches e := by
  rw [keeps_iff, CatalogFilter.Matches]
  simp only [passes_of_none hv, CatalogFilter.recent_of_none hv, and_true, CatalogFilter.asks, hv]
  cases f.capabilityName with
  | some capName => simp
  | none => simp

/-- Where all numbers fit a word the cut moves nothing. -/
theorem recentCut_iff (hcap : ∀ n ∈ versionNumbers cap.version, n ≤ u64Max)
    (hv : ∀ minVer ∈ f.minVersion, ∀ n ∈ versionNumbers minVer, n ≤ u64Max) :
    f.recentCut cap ↔ f.recent cap := by
  apply forall₂_congr
  intro minVer hmin
  rw [map_cut_of_fits hcap, map_cut_of_fits (hv minVer hmin)]

/-- A filter finds exactly what it asks for where no minimum version is set, and else where the
version settles nothing that the walk leaves out: numbers that do not fit a word count as zero, and
without a name no version is looked at. -/
theorem findsExactly_iff (c : EndpointCatalog) (f : CatalogFilter) :
    (c.FindsExactly f ↔ f.minVersion = none ∨
      ∀ e ∈ c.registered, f.healthPasses e → VersionSettled f e) ∧
    ((∀ e ∈ c.registered, ∀ cap ∈ e.capabilities, ∀ n ∈ versionNumbers cap.version, n ≤ u64Max) →
      (∀ minVer ∈ f.minVersion, ∀ n ∈ versionNumbers minVer, n ≤ u64Max) →
      f.capabilityName.isSome = true → c.FindsExactly f) := by
  have hiff : c.FindsExactly f ↔ f.minVersion = none ∨
      ∀ e ∈ c.registered, f.healthPasses e → VersionSettled f e := by
    rw [findsExactly_iff_keeps]
    cases hv : f.minVersion with
    | none => simp [keeps_matches_of_none hv]
    | some minVer => simp [keeps_matches_iff hv]
  refine ⟨hiff, fun hcaps hv hname => hiff.mpr (Or.inr fun e he _ => ⟨fun _ => ?_, fun hn => ?_⟩)⟩
  · intro cap hcap _
    have hsame := recentCut_iff (hcaps e he cap hcap) hv
    exact ⟨fun h hcut => absurd (hsame.mpr h) hcut, fun hcut h => absurd (hsame.mp hcut) h⟩
  · rw [hn] at hname
    cases hname

def oldSearch : EndpointEntry where
  id := "svc-1".toList
  name := "my-service".toList
  url := "http://localhost:8080".toList
  capabilities := [⟨"search".toList, "1.0.0".toList, "http".toList, []⟩]
  healthy := true
  weight := 10
  registeredAtMs := 0
  lastSeenMs := 0

def newHttp : CatalogFilter := { protocol := "http".toList, minVersion := "2.0.0".toList }

theorem newHttp_finds_old : ¬ ∀ (c : EndpointCatalog) (f : CatalogFilter), c.FindsExactly f := by
  intro h
  have hfind := (h (EndpointCatalog.register {} oldSearch) newHttp (.inserted _)).length_eq
  exact absurd hfind (by decide +kernel)

end HelixRouter.Catalog
