import Mathlib.Data.Finset.Card
import Mathlib.Logic.Function.Basic
import Mathlib.Order.Defs.LinearOrder

namespace HelixRouter.Containers

variable {K T : Type} [DecidableEq K] [LinearOrder T]

/-- That many keys have a property. -/
def Crowd (n : Nat) (p : K → Prop) : Prop := ∃ crowd : Finset K, n ≤ crowd.card ∧ ∀ k ∈ crowd, p k

omit [DecidableEq K] in
theorem Crowd.imp {n : Nat} {p q : K → Prop} (h : Crowd n p) (hpq : ∀ k, p k → q k) :
    Crowd n q := by
  obtain ⟨crowd, hn, hp⟩ := h
  exact ⟨crowd, hn, fun k hk => hpq k (hp k hk)⟩

def NotedAfter (last : K → Option T) (t : T) (k : K) : Prop := ∃ u, last k = some u ∧ t < u

def NotedSince (last : K → Option T) (t : T) (k : K) : Prop := ∃ u, last k = some u ∧ t ≤ u

/-- A table of bounded size keeps the keys that were noted last. A key it lacks is gone by
its age, or as many others as there is room for were noted no earlier. -/
structure KeepsLatest (cap : Nat) (gone : T → Prop) (last : K → Option T) (table : Finset K) :
    Prop where
  bound : table.card ≤ cap
  newer : ∀ k ∈ table, ∃ t, last k = some t ∧ ∀ h, NotedAfter last t h → h ∈ table
  missing : ∀ k t, last k = some t → k ∉ table →
    gone t ∨ Crowd cap fun h => h ≠ k ∧ NotedSince last t h

namespace KeepsLatest

variable {cap : Nat} {gone : T → Prop} {last : K → Option T} {table : Finset K} {k : K}
  {t now : T}

omit [DecidableEq K] in
theorem empty : KeepsLatest cap gone (fun _ : K => none) ∅ where
  bound := Nat.zero_le _
  newer := fun k hk => absurd hk (Finset.notMem_empty k)
  missing := nofun

omit [DecidableEq K] in
theorem later {gone' : T → Prop} (h : KeepsLatest cap gone last table)
    (hgone : ∀ t, gone t → gone' t) : KeepsLatest cap gone' last table :=
  ⟨h.bound, h.newer, fun k t hk hout => (h.missing k t hk hout).imp_left (hgone t)⟩

/-- Fewer others than there is room for were noted after a key that is there. -/
theorem not_crowd (h : KeepsLatest cap gone last table) (hk : k ∈ table)
    (hlast : last k = some t) : ¬ Crowd cap (NotedAfter last t) := by
  rintro ⟨crowd, hcap, hcrowd⟩
  obtain ⟨t', hlast', hnewer⟩ := h.newer k hk
  cases hlast.symm.trans hlast'
  have hself : k ∉ crowd := by
    intro hmem
    obtain ⟨u, hu, hlt⟩ := hcrowd k hmem
    cases hlast.symm.trans hu
    exact lt_irrefl t hlt
  have hsubset : insert k crowd ⊆ table :=
    Finset.insert_subset hk fun other hother => hnewer other (hcrowd other hother)
  have hcard := (Finset.card_le_card hsubset).trans h.bound
  rw [Finset.card_insert_of_notMem hself] at hcard
  omega

/-- A key that was noted lately among few others is there. -/
theorem mem (h : KeepsLatest cap gone last table) (hlast : last k = some t) (hfresh : ¬ gone t)
    (hfew : ¬ Crowd cap fun other => other ≠ k ∧ NotedSince last t other) : k ∈ table := by
  by_contra hout
  exact (h.missing k t hlast hout).elim hfresh hfew

/-- What was noted since some time still was after one more note. -/
theorem notedSince_update (hnow : ∀ h u, last h = some u → u ≤ now) {other : K}
    (h : NotedSince last t other) : NotedSince (Function.update last k (some now)) t other := by
  obtain ⟨u, hu, hle⟩ := h
  by_cases heq : other = k
  · subst heq
    exact ⟨now, Function.update_self .., hle.trans (hnow other u hu)⟩
  · exact ⟨u, by rw [Function.update_of_ne heq, hu], hle⟩

/-- A key is noted. Where that fills the table, the keys that make way are its oldest ones. -/
theorem note (h : KeepsLatest cap gone last table) {kept : Finset K}
    (hnow : ∀ h u, last h = some u → u ≤ now) (hsub : kept ⊆ table)
    (hcard : (insert k kept).card ≤ cap)
    (hway : ∀ x ∈ table, x ∉ insert k kept → cap ≤ (insert k kept).card ∧
      ∀ other ∈ kept, ∀ t u, last x = some t → last other = some u → t ≤ u) :
    KeepsLatest cap gone (Function.update last k (some now)) (insert k kept) where
  bound := hcard
  newer := by
    intro x hx
    by_cases hxk : x = k
    · subst hxk
      refine ⟨now, Function.update_self .., ?_⟩
      rintro other ⟨u, hu, hlt⟩
      by_cases hother : other = x
      · exact hother ▸ Finset.mem_insert_self ..
      · rw [Function.update_of_ne hother] at hu
        exact absurd (hnow other u hu) (not_le.mpr hlt)
    · have hkept : x ∈ kept := Finset.mem_of_mem_insert_of_ne hx hxk
      obtain ⟨t, ht, hnewer⟩ := h.newer x (hsub hkept)
      refine ⟨t, by rw [Function.update_of_ne hxk, ht], ?_⟩
      rintro other ⟨u, hu, hlt⟩
      by_contra hout
      have hother : other ≠ k := fun heq => hout (heq ▸ Finset.mem_insert_self ..)
      rw [Function.update_of_ne hother] at hu
      have hle := (hway other (hnewer other ⟨u, hu, hlt⟩) hout).2 x hkept u t hu ht
      exact absurd hle (not_le.mpr hlt)
  missing := by
    intro x t ht hout
    have hxk : x ≠ k := fun heq => hout (heq ▸ Finset.mem_insert_self ..)
    rw [Function.update_of_ne hxk] at ht
    by_cases htable : x ∈ table
    · -- the key makes way now, and all that stays is no older
      obtain ⟨hfull, holder⟩ := hway x htable hout
      refine .inr ⟨insert k kept, hfull, fun other hother => ⟨fun heq => hout (heq ▸ hother), ?_⟩⟩
      by_cases heq : other = k
      · subst heq
        exact ⟨now, Function.update_self .., hnow x t ht⟩
      · have hkept : other ∈ kept := Finset.mem_of_mem_insert_of_ne hother heq
        obtain ⟨u, hu, -⟩ := h.newer other (hsub hkept)
        exact notedSince_update hnow ⟨u, hu, holder other hkept t u ht hu⟩
    · exact (h.missing x t ht htable).imp_right fun hcrowd =>
        hcrowd.imp fun other hother => ⟨hother.1, notedSince_update hnow hother.2⟩

/-- The keys that are gone by their age are removed, and no others. -/
theorem sweep (h : KeepsLatest cap gone last table) {kept : Finset K} (hsub : kept ⊆ table)
    (hgone : ∀ t u, t ≤ u → gone u → gone t)
    (hkept : ∀ x ∈ table, ∀ t, last x = some t → (x ∈ kept ↔ ¬ gone t)) :
    KeepsLatest cap gone last kept where
  bound := (Finset.card_le_card hsub).trans h.bound
  newer := by
    intro x hx
    obtain ⟨t, ht, hnewer⟩ := h.newer x (hsub hx)
    refine ⟨t, ht, ?_⟩
    rintro other ⟨u, hu, hlt⟩
    rw [hkept other (hnewer other ⟨u, hu, hlt⟩) u hu]
    exact fun hold => (hkept x (hsub hx) t ht).mp hx (hgone t u hlt.le hold)
  missing := by
    intro x t ht hout
    by_cases htable : x ∈ table
    · exact .inl (not_not.mp fun hfresh => hout ((hkept x htable t ht).mpr hfresh))
    · exact h.missing x t ht htable

end KeepsLatest

end HelixRouter.Containers
