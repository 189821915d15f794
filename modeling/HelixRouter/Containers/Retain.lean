import Mathlib.Data.List.AList
import Mathlib.Data.List.Basic
import Mathlib.Logic.Function.Basic

namespace AList

variable {α : Type} {β : α → Type} [DecidableEq α]

/-- Keeps the entries of a map that pass a test. -/
def retain (keep : (a : α) → β a → Bool) (s : AList β) : AList β where
  entries := s.entries.filter (fun e => keep e.1 e.2)
  nodupKeys := s.nodupKeys.sublist List.filter_sublist

variable {keep : (a : α) → β a → Bool} {s : AList β}

omit [DecidableEq α] in
theorem entries_retain : (s.retain keep).entries = s.entries.filter (fun e => keep e.1 e.2) := rfl

theorem lookup_retain_eq_some {a : α} {b : β a} :
    (s.retain keep).lookup a = some b ↔ s.lookup a = some b ∧ keep a b = true := by
  rw [← Option.mem_def, ← Option.mem_def, mem_lookup_iff, mem_lookup_iff, entries_retain,
    List.mem_filter]

omit [DecidableEq α] in
theorem retain_le : (s.retain keep).entries.length ≤ s.entries.length := List.length_filter_le _ _

/-- A key that is new makes a map one longer; one that is not makes it no longer. -/
theorem insert_length_le (a : α) (b : β a) :
    (s.insert a b).entries.length ≤ s.entries.length + 1 := by
  rw [entries_insert, List.length_cons]
  have := (List.kerase_sublist a s.entries).length_le
  omega

theorem mem_of_lookup {a : α} {b : β a} (h : s.lookup a = some b) : a ∈ s := by
  rw [← lookup_isSome, h]
  rfl

/-- The entry of a key, and the others. -/
theorem entries_perm_of_lookup {a : α} {b : β a} (h : s.lookup a = some b) :
    s.entries.Perm (⟨a, b⟩ :: (s.erase a).entries) := by
  obtain ⟨found, before, after, hnew, hentries, herase⟩ :=
    List.exists_of_kerase (mem_keys.mp (mem_of_lookup h))
  have hfound : s.lookup a = some found := by
    rw [← Option.mem_def, mem_lookup_iff, hentries]
    simp
  cases h.symm.trans hfound
  change s.entries.Perm (⟨a, b⟩ :: s.entries.kerase a)
  rw [herase, hentries]
  exact List.perm_middle

theorem lookup_insert_eq (s : AList β) (a : α) (b : β a) :
    (s.insert a b).lookup = Function.update s.lookup a (some b) := by
  funext k
  by_cases hk : k = a
  · subst hk
    rw [lookup_insert, Function.update_self]
  · rw [lookup_insert_ne hk, Function.update_of_ne hk]

theorem lookup_erase_eq (s : AList β) (a : α) :
    (s.erase a).lookup = Function.update s.lookup a none := by
  funext k
  by_cases hk : k = a
  · subst hk
    rw [lookup_erase, Function.update_self]
  · rw [lookup_erase_ne hk, Function.update_of_ne hk]

section Values

variable {γ : α → Type} (f : (a : α) → β a → γ a)

/-- Changes every value of a map in its place. -/
def mapValues (s : AList β) : AList γ where
  entries := s.entries.map (fun e => ⟨e.1, f e.1 e.2⟩)
  nodupKeys := by
    have h := s.nodupKeys
    unfold List.NodupKeys List.keys at h ⊢
    rwa [List.map_map]

omit [DecidableEq α] in
@[simp] theorem keys_mapValues (s : AList β) : (s.mapValues f).keys = s.keys := by
  simp [mapValues, keys, List.keys, Function.comp_def]

omit [DecidableEq α] in
@[simp] theorem mem_mapValues {s : AList β} {a : α} : a ∈ s.mapValues f ↔ a ∈ s := by
  rw [mem_keys, keys_mapValues, ← mem_keys]

@[simp] theorem lookup_mapValues (s : AList β) (a : α) :
    (s.mapValues f).lookup a = (s.lookup a).map (f a) := by
  cases h : s.lookup a with
  | none =>
    change (s.mapValues f).lookup a = none
    rw [lookup_eq_none] at h ⊢
    simpa using h
  | some b =>
    rw [← Option.mem_def, mem_lookup_iff] at h
    change _ = some (f a b)
    rw [← Option.mem_def, mem_lookup_iff]
    exact List.mem_map.mpr ⟨⟨a, b⟩, h, rfl⟩

omit [DecidableEq α] in
theorem mapValues_congr {s : AList β} {g : (a : α) → β a → γ a}
    (h : ∀ e ∈ s.entries, f e.1 e.2 = g e.1 e.2) : s.mapValues f = s.mapValues g :=
  AList.ext (List.map_congr_left fun e he => by rw [h e he])

omit [DecidableEq α] in
theorem mapValues_id (s : AList β) : s.mapValues (fun _ b => b) = s :=
  AList.ext (List.map_id s.entries)

omit [DecidableEq α] in
theorem mapValues_mapValues {δ : α → Type} (g : (a : α) → γ a → δ a) (s : AList β) :
    (s.mapValues f).mapValues g = s.mapValues (fun a b => g a (f a b)) :=
  AList.ext (List.map_map)

end Values

end AList

namespace List

variable {α : Type} {p : α → Bool} {f : α → α} {before after l : List α} {x : α}

/-- Changes the first item that passes a test. -/
def modifyFirst (p : α → Bool) (f : α → α) : List α → List α
  | [] => []
  | x :: rest => if p x then f x :: rest else x :: modifyFirst p f rest

theorem modifyFirst_append (hb : ∀ y ∈ before, ¬ p y) (hx : p x) :
    (before ++ x :: after).modifyFirst p f = before ++ f x :: after := by
  induction before with
  | nil => simp [modifyFirst, hx]
  | cons y before ih =>
    obtain ⟨hy, hrest⟩ := List.forall_mem_cons.mp hb
    rw [cons_append, modifyFirst, if_neg hy, ih hrest, cons_append]

theorem modifyFirst_of_find?_none (h : l.find? p = none) : l.modifyFirst p f = l := by
  induction l with
  | nil => rfl
  | cons x rest ih =>
    rw [find?_cons] at h
    cases hx : p x with
    | true => simp [hx] at h
    | false =>
      simp only [hx] at h
      rw [modifyFirst, hx, if_neg (nofun), ih h]

/-- The item that is found, and the others. -/
theorem modifyFirst_of_find?_some (h : l.find? p = some x) :
    p x ∧ ∃ rest, l.Perm (x :: rest) ∧ (l.modifyFirst p f).Perm (f x :: rest) := by
  obtain ⟨hx, before, after, rfl, hb⟩ := find?_eq_some_iff_append.mp h
  refine ⟨hx, before ++ after, perm_middle, ?_⟩
  have hbefore : ∀ y ∈ before, ¬ p y := by
    intro y hy
    simpa using hb y hy
  rw [modifyFirst_append hbefore hx]
  exact perm_middle

end List

namespace HelixRouter.Containers

variable {K I : Type} [DecidableEq K] [DecidableEq I] {forth : K → Option I} {back : I → Option K}
  {k : K} {i : I}

/-- Each table undoes the other. -/
def Inverse (forth : K → Option I) (back : I → Option K) : Prop :=
  ∀ k i, forth k = some i ↔ back i = some k

/-- A pair of a free key and an index nobody has. -/
theorem Inverse.insert (h : Inverse forth back) (hk : forth k = none) (hi : ∀ k', forth k' ≠ some i) :
    Inverse (Function.update forth k (some i)) (Function.update back i (some k)) := by
  intro k' i'
  by_cases hkk : k' = k
  · subst hkk
    by_cases hii : i' = i
    · simp [hii]
    · have hback : back i' ≠ some k' := by
        intro hb
        rw [(h k' i').mpr hb] at hk
        nomatch hk
      simp [hii, Ne.symm hii, hback]
  · by_cases hii : i' = i
    · subst hii
      simp [hkk, Ne.symm hkk, hi k']
    · simp [hkk, hii, h k' i']

theorem Inverse.remove (h : Inverse forth back) (hk : forth k = some i) :
    Inverse (Function.update forth k none) (Function.update back i none) := by
  intro k' i'
  by_cases hkk : k' = k
  · subst hkk
    by_cases hii : i' = i
    · simp [hii]
    · have hback : back i' ≠ some k' := by
        intro hb
        rw [(h k' i').mpr hb] at hk
        exact hii (Option.some.inj hk)
      simp [hii, hback]
  · by_cases hii : i' = i
    · subst hii
      have hforth : forth k' ≠ some i' := by
        intro hf
        have hsame := ((h k' i').mp hf).symm.trans ((h k i').mp hk)
        exact hkk (Option.some.inj hsame)
      simp [hkk, hforth]
    · simp [hkk, hii, h k' i']

/-- An index that is given away again is lost to the key that had it. -/
theorem not_inverse_insert {k' : K} (hne : k' ≠ k) (h : forth k' = some i) :
    ¬ Inverse (Function.update forth k (some i)) (Function.update back i (some k)) := by
  intro hinv
  have hback := (hinv k' i).mp (by rw [Function.update_of_ne hne, h])
  rw [Function.update_self] at hback
  exact hne (Option.some.inj hback).symm

end HelixRouter.Containers
