import Mathlib.Data.List.MinMax
import Mathlib.Data.List.Sort

namespace List

variable {α β κ : Type} [LinearOrder κ]

/-- The greatest element of a list of images is the image of the greatest element. -/
theorem argmax_map (f : β → κ) (g : α → β) (l : List α) :
    (l.map g).argmax f = (l.argmax fun a => f (g a)).map g := by
  induction l using List.reverseRecOn with
  | nil => rfl
  | append_singleton l a ih =>
    rw [map_append, map_singleton, argmax_concat, argmax_concat, ih]
    cases l.argmax fun a => f (g a) with
    | none => rfl
    | some b =>
      simp only [Option.map_some]
      split <;> rfl

/-- Of several greatest elements the first one is taken. -/
theorem argmax_first {f : α → κ} {l : List α} {m : α} (h : l.argmax f = some m) :
    ∃ i, ∃ hi : i < l.length, l[i] = m ∧
      ∀ j, ∀ hj : j < l.length, f l[j] ≤ f m ∧ (f l[j] = f m → i ≤ j) := by
  induction l generalizing m with
  | nil => cases h
  | cons a l ih =>
    rw [argmax_cons] at h
    cases hl : l.argmax f with
    | none =>
      rw [hl] at h
      cases h
      cases argmax_eq_none.mp hl
      refine ⟨0, by simp, rfl, fun j hj => ?_⟩
      have hzero : j = 0 := by simpa using hj
      subst hzero
      exact ⟨le_refl _, fun _ => le_refl _⟩
    | some b =>
      rw [hl] at h
      obtain ⟨i, hi, hib, hall⟩ := ih hl
      by_cases hlt : f a < f b
      · have hm : m = b := by simpa [hlt] using h.symm
        subst hm
        refine ⟨i + 1, Nat.succ_lt_succ hi, hib, fun j hj => ?_⟩
        cases j with
        | zero => exact ⟨hlt.le, fun heq => absurd heq hlt.ne⟩
        | succ j =>
          obtain ⟨hle, hfirst⟩ := hall j (Nat.lt_of_succ_lt_succ hj)
          exact ⟨hle, fun heq => Nat.succ_le_succ (hfirst heq)⟩
      · have hm : m = a := by simpa [hlt] using h.symm
        subst hm
        refine ⟨0, Nat.zero_lt_succ _, rfl, fun j hj => ?_⟩
        cases j with
        | zero => exact ⟨le_refl _, fun _ => le_refl _⟩
        | succ j =>
          exact ⟨(hall j (Nat.lt_of_succ_lt_succ hj)).1.trans (not_lt.mp hlt),
            fun _ => Nat.zero_le _⟩

/-- A stable sort puts the first of the greatest elements first. -/
theorem head?_insertionSort (f : α → κ) (l : List α) :
    (l.insertionSort fun a b => f b ≤ f a).head? = l.argmax f := by
  induction l with
  | nil => rfl
  | cons a l ih =>
    rw [insertionSort_cons, argmax_cons, ← ih]
    cases l.insertionSort fun a b => f b ≤ f a with
    | nil => rfl
    | cons b sorted =>
      rw [orderedInsert, head?_cons]
      by_cases hle : f b ≤ f a
      · rw [if_pos hle, head?_cons]
        simp [not_lt.mpr hle]
      · rw [if_neg hle, head?_cons]
        simp [not_le.mp hle]

theorem argmin_map (f : β → κ) (g : α → β) (l : List α) :
    (l.map g).argmin f = (l.argmin fun a => f (g a)).map g :=
  argmax_map (κ := κᵒᵈ) f g l

/-- Of several least elements the first one is taken. -/
theorem argmin_eq_some_iff_append {f : α → κ} {l : List α} {m : α} : l.argmin f = some m ↔
    ∃ before after, l = before ++ m :: after ∧
      (∀ a ∈ before, f m < f a) ∧ ∀ a ∈ after, f m ≤ f a := by
  induction l with
  | nil => simp
  | cons a l ih =>
    rw [argmin_cons]
    constructor
    · intro h
      cases hl : l.argmin f with
      | none =>
        rw [hl] at h
        cases h
        cases argmin_eq_none.mp hl
        exact ⟨[], [], rfl, by simp, by simp⟩
      | some b =>
        rw [hl] at h ih
        by_cases hlt : f b < f a
        · have hm : b = m := by simpa [hlt] using h
          obtain ⟨before, after, rfl, hbefore, hafter⟩ := ih.mp (congrArg some hm)
          exact ⟨a :: before, after, rfl, forall_mem_cons.mpr ⟨hm ▸ hlt, hbefore⟩, hafter⟩
        · have hm : a = m := by simpa [hlt] using h
          refine ⟨[], l, congrArg (· :: l) hm, by simp, fun c hc => ?_⟩
          exact hm ▸ (not_lt.mp hlt).trans (le_of_mem_argmin hc hl)
    · rintro ⟨before, after, heq, hbefore, hafter⟩
      cases before with
      | nil =>
        obtain ⟨rfl, rfl⟩ := cons.inj heq
        cases hl : l.argmin f with
        | none => rfl
        | some b => simp [hafter b (argmin_mem hl)]
      | cons c before =>
        obtain ⟨rfl, rfl⟩ := cons.inj heq
        obtain ⟨hlt, hbefore⟩ := forall_mem_cons.mp hbefore
        rw [ih.mpr ⟨before, after, rfl, hbefore, hafter⟩]
        simp [hlt]

/-- Of several greatest elements the first one is taken. -/
theorem argmax_eq_some_iff_append {f : α → κ} {l : List α} {m : α} : l.argmax f = some m ↔
    ∃ before after, l = before ++ m :: after ∧
      (∀ a ∈ before, f a < f m) ∧ ∀ a ∈ after, f a ≤ f m :=
  argmin_eq_some_iff_append (κ := κᵒᵈ)

/-- What goes before the first occurrence of an element is determined. -/
theorem eq_of_append_cons {m : α} {s t s' t' : List α} (hs : m ∉ s) (hs' : m ∉ s')
    (h : s ++ m :: t = s' ++ m :: t') : s = s' := by
  classical
  apply append_inj_left h
  have hidx := congrArg (idxOf m) h
  rwa [idxOf_append_of_notMem hs, idxOf_append_of_notMem hs', idxOf_cons_self, Nat.add_zero,
    idxOf_cons_self, Nat.add_zero] at hidx

/-- Keeps the later one of two that are as great. -/
def maxBy (f : α → κ) : List α → Option α
  | [] => none
  | a :: l => some (l.foldl (fun best b => if f b < f best then best else b) a)

theorem maxBy_concat (f : α → κ) (l : List α) (b : α) : (l ++ [b]).maxBy f =
    some (match l.maxBy f with
      | none => b
      | some best => if f b < f best then best else b) := by
  cases l with
  | nil => rfl
  | cons a l => rw [cons_append, maxBy, foldl_append]; rfl

/-- Of several greatest elements the last one is kept. -/
theorem maxBy_eq_argmax_reverse (f : α → κ) (l : List α) : l.maxBy f = l.reverse.argmax f := by
  induction l using List.reverseRecOn with
  | nil => rfl
  | append_singleton l b ih =>
    rw [maxBy_concat, ih, reverse_append, reverse_singleton, singleton_append, argmax_cons]
    cases l.reverse.argmax f with
    | none => rfl
    | some best =>
      dsimp only
      split <;> rfl

/-- One element is above all others. -/
def SoleGreatest (f : α → κ) (l : List α) : Prop := ∃ m ∈ l, ∀ a ∈ l, a ≠ m → f a < f m

theorem argmax_of_sole {f : α → κ} {l : List α} {m : α} (hm : m ∈ l)
    (hsole : ∀ a ∈ l, a ≠ m → f a < f m) : l.argmax f = some m := by
  cases hl : l.argmax f with
  | none =>
    rw [argmax_eq_none.mp hl] at hm
    cases hm
  | some c =>
    by_contra hne
    have hc : c ≠ m := fun h => hne (congrArg some h)
    exact not_le.mpr (hsole c (argmax_mem hl) hc) (le_of_mem_argmax hm hl)

/-- The first and the last of the greatest elements are the same where there is only one. -/
theorem maxBy_eq_argmax_iff {f : α → κ} {l : List α} (hl : l.Nodup) (hne : l ≠ []) :
    l.maxBy f = l.argmax f ↔ SoleGreatest f l := by
  rw [maxBy_eq_argmax_reverse]
  constructor
  · intro h
    cases hm : l.argmax f with
    | none => exact absurd (argmax_eq_none.mp hm) hne
    | some m =>
      refine ⟨m, argmax_mem hm, fun a ha ham => ?_⟩
      obtain ⟨before, after, rfl, hbefore, -⟩ := argmax_eq_some_iff_append.mp hm
      obtain ⟨after', before', hrev, hafter', -⟩ := argmax_eq_some_iff_append.mp (h.trans hm)
      rcases mem_append.mp ha with ha | ha
      · exact hbefore a ha
      · -- what follows it here goes before it in the reversed list
        have ha : a ∈ after := (mem_cons.mp ha).resolve_left ham
        have hrev' : after.reverse ++ m :: before.reverse = after' ++ m :: before' := by
          rw [← hrev, reverse_append, reverse_cons, append_assoc, singleton_append]
        have hmem : m ∉ after.reverse := by
          rw [mem_reverse]
          exact (nodup_cons.mp (nodup_append.mp hl).2.1).1
        have hmem' : m ∉ after' := fun hmem' => lt_irrefl _ (hafter' m hmem')
        exact hafter' a (eq_of_append_cons hmem hmem' hrev' ▸ mem_reverse.mpr ha)
  · rintro ⟨m, hm, hsole⟩
    rw [argmax_of_sole hm hsole]
    exact argmax_of_sole (mem_reverse.mpr hm) fun a ha => hsole a (mem_reverse.mp ha)

/-- The least element is the same where none as small as it is left out. -/
theorem argmin_filter {f : α → κ} {p : α → Bool} {l : List α}
    (h : ∀ a ∈ l, ¬ p a → ∃ b ∈ l, f b < f a) : (l.filter p).argmin f = l.argmin f := by
  cases hl : l.argmin f with
  | none =>
    rw [argmin_eq_none.mp hl]
    rfl
  | some m =>
    have hm : p m := by
      by_contra hn
      obtain ⟨b, hb, hlt⟩ := h m (argmin_mem hl) hn
      exact not_le.mpr hlt (le_of_mem_argmin hb hl)
    obtain ⟨before, after, rfl, hbefore, hafter⟩ := argmin_eq_some_iff_append.mp hl
    refine argmin_eq_some_iff_append.mpr ⟨before.filter p, after.filter p, ?_, ?_, ?_⟩
    · rw [filter_append, filter_cons_of_pos hm]
    · intro a ha
      exact hbefore a (mem_of_mem_filter ha)
    · intro a ha
      exact hafter a (mem_of_mem_filter ha)

/-- What follows an element of a list that is sorted stands below what it stands below. -/
theorem filter_orderedInsert {f : α → κ} {p : α → Bool} {a : α} {l : List α} (ha : p a)
    (hl : l.Pairwise fun a b => f b ≤ f a) :
    (l.orderedInsert (fun a b => f b ≤ f a) a).filter p =
      (l.filter p).orderedInsert (fun a b => f b ≤ f a) a := by
  induction l with
  | nil => simp [ha]
  | cons b l ih =>
    obtain ⟨hb, hl⟩ := pairwise_cons.mp hl
    by_cases hle : f b ≤ f a
    · rw [orderedInsert_cons, if_pos hle, filter_cons_of_pos ha]
      cases hs : (b :: l).filter p with
      | nil => rfl
      | cons c s =>
        have hc : c ∈ b :: l := mem_of_mem_filter (hs ▸ mem_cons_self)
        have hca : f c ≤ f a := by
          rcases mem_cons.mp hc with rfl | hc
          · exact hle
          · exact (hb c hc).trans hle
        rw [orderedInsert_cons, if_pos hca]
    · rw [orderedInsert_cons, if_neg hle]
      by_cases hpb : p b
      · rw [filter_cons_of_pos hpb, filter_cons_of_pos hpb, ih hl, orderedInsert_cons,
          if_neg hle]
      · rw [filter_cons_of_neg hpb, filter_cons_of_neg hpb, ih hl]

theorem pairwise_insertionSort_ge (f : α → κ) (l : List α) :
    (l.insertionSort fun a b => f b ≤ f a).Pairwise fun a b => f b ≤ f a := by
  have : IsTrans α fun a b => f b ≤ f a := ⟨fun _ _ _ hab hbc => hbc.trans hab⟩
  have : Std.Total fun a b : α => f b ≤ f a := ⟨fun a b => le_total (f b) (f a)⟩
  exact pairwise_insertionSort _ l

theorem filter_insertionSort (f : α → κ) (p : α → Bool) (l : List α) :
    (l.insertionSort fun a b => f b ≤ f a).filter p =
      (l.filter p).insertionSort fun a b => f b ≤ f a := by
  induction l with
  | nil => rfl
  | cons a l ih =>
    rw [insertionSort_cons]
    by_cases ha : p a
    · rw [filter_orderedInsert ha (pairwise_insertionSort_ge f l), ih, filter_cons_of_pos ha,
        insertionSort_cons]
    · rw [filter_cons_of_neg ha, ← ih, orderedInsert_eq_take_drop, filter_append,
        filter_cons_of_neg ha, ← filter_append, takeWhile_append_dropWhile]

theorem argmax_insertionSort (f : α → κ) (l : List α) :
    (l.insertionSort fun a b => f b ≤ f a).argmax f = l.argmax f := by
  have hsort := (pairwise_insertionSort_ge f l).insertionSort_eq
  rw [← head?_insertionSort, hsort, head?_insertionSort]

/-- A search of a sorted list ends at the first of the greatest elements it is for. -/
theorem find?_eq_argmax {f : α → κ} {p : α → Bool} {l : List α}
    (hl : l.Pairwise fun a b => f b ≤ f a) : l.find? p = (l.filter p).argmax f := by
  rw [← head?_filter, ← head?_insertionSort, (hl.filter p).insertionSort_eq]

/-- The first of the greatest elements that pass a test, in the list they are taken from. -/
theorem argmax_filter_eq_some_iff {f : α → κ} {p : α → Bool} {l : List α} {m : α} :
    (l.filter p).argmax f = some m ↔
      ∃ before after, l = before ++ m :: after ∧ p m ∧
        (∀ a ∈ before, p a → f a < f m) ∧ ∀ a ∈ after, p a → f a ≤ f m := by
  rw [argmax_eq_some_iff_append]
  constructor
  · rintro ⟨kept, rest, heq, hkept, hrest⟩
    obtain ⟨before, tail, rfl, rfl, htail⟩ := filter_eq_append_iff.mp heq
    obtain ⟨skipped, after, rfl, hskipped, hm, rfl⟩ := filter_eq_cons_iff.mp htail
    refine ⟨before ++ skipped, after, by simp, hm, fun a ha hp => ?_, fun a ha hp => ?_⟩
    · rcases mem_append.mp ha with hb | hs
      · exact hkept a (mem_filter.mpr ⟨hb, hp⟩)
      · exact absurd hp (hskipped a hs)
    · exact hrest a (mem_filter.mpr ⟨ha, hp⟩)
  · rintro ⟨before, after, rfl, hm, hbefore, hafter⟩
    refine ⟨before.filter p, after.filter p, ?_, fun a ha => ?_, fun a ha => ?_⟩
    · rw [filter_append, filter_cons_of_pos hm]
    · exact hbefore a (mem_of_mem_filter ha) (of_mem_filter ha)
    · exact hafter a (mem_of_mem_filter ha) (of_mem_filter ha)

end List
