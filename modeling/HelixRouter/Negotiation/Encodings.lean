import HelixRouter.Negotiation.ContentNegotiation

namespace HelixRouter.Negotiation.EncodingNegotiator

open Texts Floats

variable {available : List ContentEncoding} {entries : List (Text × F64)} {e : Text × F64}
  {enc : ContentEncoding}

/-- The header lists the encoding itself, with no other quality than zero. -/
def OnlyRefused (entries : List (Text × F64)) (enc : ContentEncoding) : Prop :=
  (enc.name, F64.finite 0) ∈ entries ∧ ∀ q, (enc.name, q) ∈ entries → q = .finite 0

/-- Some entry for the encoding, or for every one, is of a positive quality. -/
def Allowed (entries : List (Text × F64)) (enc : ContentEncoding) : Prop :=
  ∃ e ∈ entries, names e.1 enc = true ∧ (F64.finite 0).lt e.2 = true

/-- The entry is not passed over, and stands for an available encoding. -/
def usable (available : List ContentEncoding) (e : Text × F64) : Bool :=
  !e.2.le (.finite 0) && available.any (names e.1)

/-- No encoding that is only refused is let in by a star, and each entry that may come first
among the usable ones leads to identity or to an encoding that is not refused and is allowed. -/
def LeadsWell (available : List ContentEncoding) (entries : List (Text × F64)) : Prop :=
  (∀ enc, OnlyRefused entries enc → ∀ q, (['*'], q) ∈ entries → (F64.finite 0).lt q = false) ∧
    ∀ e, entries.MayLead below (usable available) e →
      ∀ enc, available.find? (names e.1) = some enc → enc ≠ .identity →
        (enc.name, F64.finite 0) ∉ entries ∧ Allowed entries enc

section Qualities

theorem names_iff {name : Text} : names name enc = true ↔ name = ['*'] ∨ name = enc.name := by
  simp [names]

/-- What is passed over is no more than zero. -/
theorem lt_of_not_le {q : F64} (h : q.le (.finite 0) = false) (hnum : q ≠ .nan) :
    (F64.finite 0).lt q = true := by
  cases q with
  | nan => exact absurd rfl hnum
  | finite q => simpa [F64.le] using h
  | infinite negative => simpa [F64.le] using h

/-- A star of positive quality lets in what the header only refuses, and nothing else does. -/
theorem allowed_iff_star (h : OnlyRefused entries enc) :
    Allowed entries enc ↔ ∃ q, (['*'], q) ∈ entries ∧ (F64.finite 0).lt q = true := by
  constructor
  · intro hallowed
    obtain ⟨⟨name, q⟩, he, hname, hpos⟩ := hallowed
    rcases names_iff.mp hname with rfl | rfl
    · exact ⟨q, he, hpos⟩
    · have hzero := h.2 q he
      rw [hzero] at hpos
      simp [F64.lt] at hpos
  · intro hstar
    obtain ⟨q, he, hpos⟩ := hstar
    exact ⟨_, he, names_iff.mpr (Or.inl rfl), hpos⟩

end Qualities

section Search

theorem find?_names_eq_none (h : usable available e = false) (hq : e.2.le (.finite 0) = false) :
    available.find? (names e.1) = none := by
  rw [List.find?_eq_none]
  intro enc henc hname
  simp [usable, hq] at h
  exact absurd hname (by simp [h enc henc])

theorem exists_find?_names (h : usable available e = true) :
    ∃ enc, available.find? (names e.1) = some enc := by
  obtain ⟨-, hany⟩ := (Bool.and_eq_true _ _).mp h
  exact Option.isSome_iff_exists.mp (List.find?_isSome.mpr (List.any_eq_true.mp hany))

/-- The search ends at the first usable entry, with the first encoding it stands for. -/
theorem findSome?_usable : (entries.findSome? fun e =>
    if e.2.le (.finite 0) then none else available.find? (names e.1)) =
      (entries.find? (usable available)).bind fun e => available.find? (names e.1) := by
  induction entries with
  | nil => rfl
  | cons e entries ih =>
    rw [List.findSome?_cons, List.find?_cons]
    by_cases hq : e.2.le (.finite 0) = true
    · have hu : usable available e = false := by simp [usable, hq]
      rw [if_pos hq, hu]
      exact ih
    · rw [if_neg hq]
      cases hu : usable available e with
      | false => rw [find?_names_eq_none hu (Bool.eq_false_iff.mpr hq), ih]
      | true =>
        obtain ⟨enc, hfind⟩ := exists_find?_names hu
        rw [hfind]
        exact hfind.symm

end Search

section Lists

/-- Where all qualities are numbers, the entry that comes first is of a positive one. -/
theorem leadsWell_iff_of_ne_nan (hnum : ∀ e ∈ entries, e.2 ≠ .nan) :
    LeadsWell available entries ↔
      (∀ enc, OnlyRefused entries enc → ∀ q, (['*'], q) ∈ entries →
        (F64.finite 0).lt q = false) ∧
      ∀ e, (entries.filter (usable available)).topmost below = some e →
        ∀ enc, available.find? (names e.1) = some enc → enc ≠ .identity →
          (enc.name, F64.finite 0) ∉ entries := by
  refine and_congr_right fun _ => forall_congr' fun e => ?_
  constructor
  · intro h htop enc hfind hne
    obtain ⟨he, hu⟩ := List.mem_filter.mp (List.mem_of_topmost htop)
    exact (h ⟨fun _ => htop, he, hu⟩ enc hfind hne).1
  · intro h hlead enc hfind hne
    obtain ⟨htop, he, hu⟩ := hlead
    obtain ⟨hq, -⟩ := (Bool.and_eq_true _ _).mp hu
    have hpos := lt_of_not_le (by simpa using hq) (hnum e he)
    exact ⟨h (htop (ranked_of_ne_nan hnum)) enc hfind hne, e, he,
      List.find?_some (p := names e.1) hfind, hpos⟩

/-- The headers whose exclusions hold for every list of available encodings. -/
theorem leadsWell_forall_iff : (∀ available, LeadsWell available entries) ↔
    (∀ enc, OnlyRefused entries enc → ∀ q, (['*'], q) ∈ entries → (F64.finite 0).lt q = false) ∧
      ∀ enc, enc ≠ .identity → (∃ e ∈ entries, names e.1 enc = true ∧ e.2.le (.finite 0) = false) →
        (enc.name, F64.finite 0) ∉ entries ∧ Allowed entries enc := by
  constructor
  · intro h
    refine ⟨(h []).1, fun enc hne hused => ?_⟩
    obtain ⟨e, he, hname, hq⟩ := hused
    have hu : usable [enc] e = true := by simp [usable, hq, hname]
    obtain ⟨lead, hlead⟩ : ∃ lead, entries.MayLead below (usable [enc]) lead :=
      List.exists_mayLead he hu
    have hname' : names lead.1 enc = true := by
      have husable := hlead.2.2
      simp [usable] at husable
      exact husable.2
    exact (h [enc]).2 lead hlead enc (by simp [hname']) hne
  · intro h available
    refine ⟨h.1, fun e hlead enc hfind hne => h.2 enc hne ⟨e, hlead.2.1, ?_, ?_⟩⟩
    · exact List.find?_some (p := names e.1) hfind
    · simpa using ((Bool.and_eq_true _ _).mp hlead.2.2).1

end Lists

section Header

variable [Lowercase] {header : Text}

/-- What the two functions promise: no encoding but identity is chosen that the header lists
with quality zero, or that the client does not support, and the client does not support an
encoding that the header only refuses. -/
structure Honours (header : Text) (available : List ContentEncoding) : Prop where
  excluded : ∀ sorting, negotiate sorting header available ≠ .identity →
    ((negotiate sorting header available).name, F64.finite 0) ∉ accepted header
  supported : ∀ sorting, negotiate sorting header available ≠ .identity →
    supportedByClient header (negotiate sorting header available) = true
  refused : ∀ enc, OnlyRefused (accepted header) enc → supportedByClient header enc = false

/-- The second parser of the header agrees with the first one. -/
theorem supportedByClient_iff : supportedByClient header enc = true ↔
    Allowed (accepted header) enc := by
  simp [supportedByClient, Allowed, accepted, names_iff, Lowercase.eq_star]

theorem negotiate_eq_iff {sorting : List.SortBy below} (hne : enc ≠ .identity) :
    negotiate sorting header available = enc ↔
      ∃ e, (sorting.sort (accepted header)).find? (usable available) = some e ∧
        available.find? (names e.1) = some enc := by
  rw [negotiate, findSome?_usable, ← Option.bind_eq_some_iff]
  cases ((sorting.sort (accepted header)).find? (usable available)).bind fun e =>
      available.find? (names e.1) with
  | none => simpa using hne.symm
  | some found => simp

/-- The exclusions of a header are honoured exactly where no star lets in what is only
refused and each entry that may come first leads well. -/
theorem exclusions_honoured_iff (header : Text) (available : List ContentEncoding) :
    Honours header available ↔ LeadsWell available (accepted header) := by
  constructor
  · intro h
    refine ⟨fun enc honly q hq => ?_, fun e hlead enc hfind hne => ?_⟩
    · rw [Bool.eq_false_iff]
      intro hpos
      have hallowed := (allowed_iff_star honly).mpr ⟨q, hq, hpos⟩
      exact absurd (supportedByClient_iff.mpr hallowed) (by simp [h.refused enc honly])
    · obtain ⟨sorting, hsort⟩ := List.exists_find?_sort_iff.mpr hlead
      have hnego := (negotiate_eq_iff hne).mpr ⟨e, hsort, hfind⟩
      have hexcluded := h.excluded sorting
      have hsupported := h.supported sorting
      rw [hnego] at hexcluded hsupported
      exact ⟨hexcluded hne, supportedByClient_iff.mp (hsupported hne)⟩
  · intro h
    obtain ⟨hstar, hlead⟩ := h
    have hchosen : ∀ sorting, negotiate sorting header available ≠ .identity →
        ((negotiate sorting header available).name, F64.finite 0) ∉ accepted header ∧
          Allowed (accepted header) (negotiate sorting header available) := by
      intro sorting hne
      obtain ⟨e, hsort, hfind⟩ := (negotiate_eq_iff hne).mp rfl
      exact hlead e (List.exists_find?_sort_iff.mp ⟨sorting, hsort⟩) _ hfind hne
    refine ⟨fun sorting hne => (hchosen sorting hne).1,
      fun sorting hne => supportedByClient_iff.mpr (hchosen sorting hne).2,
      fun enc honly => ?_⟩
    rw [Bool.eq_false_iff]
    intro hsupported
    obtain ⟨q, hq, hpos⟩ := (allowed_iff_star honly).mp (supportedByClient_iff.mp hsupported)
    exact absurd hpos (by simp [hstar enc honly q hq])

end Header

/-- The star lets in an encoding that the header lists with quality zero. -/
theorem refused_encoding_chosen :
    ¬@Honours asciiLowercase "gzip;q=0, *".toList [.gzip, .br] := by
  intro h
  have hexcluded := @Honours.excluded asciiLowercase _ _ h (List.insertionSortBy below)
  exact absurd hexcluded (by decide +kernel)

end HelixRouter.Negotiation.EncodingNegotiator
