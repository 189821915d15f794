import Std.Data.TreeMap.Lemmas

namespace Std.TreeMap

section Next

variable {α : Type} [LE α] [LT α]

/-- The key that comes next from `k` on when the keys are walked round in a circle. -/
structure IsNext (keys : α → Prop) (k p : α) : Prop where
  mem : keys p
  first : (k ≤ p ∧ ∀ q, keys q → k ≤ q → p ≤ q) ∨ ((∀ q, keys q → q < k) ∧ ∀ q, keys q → p ≤ q)

variable {keys keys' : α → Prop} {k p q : α}

/-- Taking keys away moves no walk whose next key stays. -/
theorem IsNext.fewer (h : IsNext keys k p) (hsub : ∀ q, keys' q → keys q) (hp : keys' p) :
    IsNext keys' k p where
  mem := hp
  first := by
    rcases h.first with ⟨hle, hleast⟩ | ⟨hlt, hleast⟩
    · exact Or.inl ⟨hle, fun q hq => hleast q (hsub q hq)⟩
    · exact Or.inr ⟨fun q hq => hlt q (hsub q hq), fun q hq => hleast q (hsub q hq)⟩

variable [IsLinearOrder α] [LawfulOrderLT α]

theorem IsNext.unique (hp : IsNext keys k p) (hq : IsNext keys k q) : p = q := by
  rcases hp.first with ⟨hkp, hp'⟩ | ⟨hpk, hp'⟩
  · rcases hq.first with ⟨hkq, hq'⟩ | ⟨hqk, -⟩
    · exact Std.le_antisymm (hp' q hq.mem hkq) (hq' p hp.mem hkp)
    · exact absurd hkp (Std.not_le.mpr (hqk p hp.mem))
  · rcases hq.first with ⟨hkq, -⟩ | ⟨-, hq'⟩
    · exact absurd hkq (Std.not_le.mpr (hpk q hq.mem))
    · exact Std.le_antisymm (hp' q hq.mem) (hq' p hp.mem)

theorem head_le_of_ordered {β : Type} {x e : α × β} {rest : List (α × β)}
    (h : (x :: rest).Pairwise fun a b => a.1 < b.1) (he : e ∈ x :: rest) : x.1 ≤ e.1 := by
  rcases List.mem_cons.mp he with rfl | he
  · exact Std.le_refl _
  · exact Std.le_of_lt ((List.pairwise_cons.mp h).1 e he)

end Next

section Walk

variable {α β : Type} [Ord α]

/-- The entry of the first key from `k` on, or the first entry of all where none follows. -/
def firstFrom (t : TreeMap α β) (k : α) : Option (α × β) :=
  (t.toList.find? fun e => (compare k e.1).isLE).or t.toList.head?

variable [TransOrd α] [LawfulEqOrd α] {t t' : TreeMap α β} {k p q : α} {v : β}

theorem mem_iff_mem_toList : q ∈ t ↔ ∃ w, (q, w) ∈ t.toList := by
  simp only [mem_toList_iff_getElem?_eq_some]
  rw [mem_iff_isSome_getElem?, Option.isSome_iff_exists]

theorem firstFrom_isSome (h : p ∈ t) : (t.firstFrom k).isSome := by
  obtain ⟨w, hw⟩ := mem_iff_mem_toList.mp h
  unfold firstFrom
  rw [Option.isSome_or, Bool.or_eq_true]
  apply Or.inr
  cases hl : t.toList with
  | nil => simp [hl] at hw
  | cons _ _ => rfl

variable [LE α] [LT α] [IsLinearOrder α] [LawfulOrderLT α] [LawfulOrderOrd α]

/-- A walk from `k` stops at the key that comes next. -/
theorem isNext_of_firstFrom (h : t.firstFrom k = some (p, v)) :
    IsNext (fun q => q ∈ t) k p ∧ t[p]? = some v := by
  have hord : t.toList.Pairwise fun a b => a.1 < b.1 :=
    t.ordered_keys_toList.imp fun h => compare_eq_lt.mp h
  unfold firstFrom at h
  rcases Option.or_eq_some_iff.mp h with hfind | ⟨hnone, hhead⟩
  · obtain ⟨hle, before, rest, hlist, hbefore⟩ := List.find?_eq_some_iff_append.mp hfind
    have hmem : (p, v) ∈ t.toList := by simp [hlist]
    refine ⟨⟨mem_iff_mem_toList.mpr ⟨v, hmem⟩, Or.inl ⟨isLE_compare.mp hle, ?_⟩⟩,
      mem_toList_iff_getElem?_eq_some.mp hmem⟩
    intro q hq hkq
    obtain ⟨w, hw⟩ := mem_iff_mem_toList.mp hq
    rw [hlist] at hw hord
    rcases List.mem_append.mp hw with hw | hw
    · have := hbefore _ hw
      simp [isLE_compare.mpr hkq] at this
    · exact head_le_of_ordered (List.pairwise_append.mp hord).2.1 hw
  · obtain ⟨rest, hlist⟩ := List.head?_eq_some_iff.mp hhead
    have hmem : (p, v) ∈ t.toList := by simp [hlist]
    refine ⟨⟨mem_iff_mem_toList.mpr ⟨v, hmem⟩, Or.inr ⟨?_, ?_⟩⟩,
      mem_toList_iff_getElem?_eq_some.mp hmem⟩
    · intro q hq
      obtain ⟨w, hw⟩ := mem_iff_mem_toList.mp hq
      have hfar := List.find?_eq_none.mp hnone _ hw
      exact Std.not_le.mp fun hle => hfar (isLE_compare.mpr hle)
    · intro q hq
      obtain ⟨w, hw⟩ := mem_iff_mem_toList.mp hq
      rw [hlist] at hw hord
      exact head_le_of_ordered hord hw

theorem firstFrom_eq_some :
    t.firstFrom k = some (p, v) ↔ IsNext (fun q => q ∈ t) k p ∧ t[p]? = some v := by
  constructor
  · exact isNext_of_firstFrom
  · intro h
    obtain ⟨⟨q, w⟩, hq⟩ := Option.isSome_iff_exists.mp (firstFrom_isSome (k := k) h.1.mem)
    obtain ⟨hnext, hw⟩ := isNext_of_firstFrom hq
    cases h.1.unique hnext
    rw [hq, Option.some.inj (h.2.symm.trans hw)]

/-- A map with fewer keys answers a walk with the same key, if it still has it. -/
theorem firstFrom_fewer {w : β} (h : t.firstFrom k = some (p, v)) (hsub : ∀ q, q ∈ t' → q ∈ t)
    (hw : t'[p]? = some w) : t'.firstFrom k = some (p, w) := by
  have hp : p ∈ t' := by
    rw [mem_iff_isSome_getElem?, hw]
    rfl
  exact firstFrom_eq_some.mpr ⟨(isNext_of_firstFrom h).1.fewer hsub hp, hw⟩

end Walk

end Std.TreeMap
