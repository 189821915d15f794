import HelixRouter.Json.Quoting
import HelixRouter.Json.Rfc8259
import Mathlib.Data.List.Nodup

namespace HelixRouter.Json

open Texts

variable {a b s t raw w : Text} {c : Char} {e : Element ℚ} {m : Member ℚ} {v : Value ℚ}

/-- The value is a string that stands for the text. -/
def IsString (text : Text) (v : Value ℚ) : Prop := ∃ raw, v = .str raw ∧ decode raw = text

/-- The object has members of this name, and their values are all like this. -/
def Named (fields : List (Text × Value ℚ)) (name : Text) (P : Value ℚ → Prop) : Prop :=
  (∃ m ∈ fields, decode m.1 = name) ∧ ∀ m ∈ fields, decode m.1 = name → P m.2

theorem Named.value {ms : List (Member ℚ)} {name : Text} {P : Value ℚ → Prop}
    (h : Named (ms.map fun m => (m.name, m.element.value)) name P) (hm : m ∈ ms)
    (hname : m.name = name) (hplain : '\\' ∉ name) : P m.element.value := by
  subst hname
  exact h.2 _ (List.mem_map_of_mem hm) (decode_of_plain hplain)

theorem named_of_mem {ms : List (Member ℚ)} {P : Value ℚ → Prop}
    (hnodup : (ms.map (·.name)).Nodup)
    (hletters : ∀ m ∈ ms, ∀ c ∈ m.name, c.isAlpha = true ∨ c = '_') (hm : m ∈ ms)
    (h : P m.element.value) :
    Named (ms.map fun m => (m.name, m.element.value)) m.name P := by
  have hname : ∀ m ∈ ms, decode m.name = m.name :=
    fun m hm => (stringBody_of_letters (hletters m hm)).2
  constructor
  · exact ⟨_, List.mem_map_of_mem hm, hname m hm⟩
  · refine List.forall_mem_map.mpr fun m' hm' hdecode => ?_
    rw [hname m' hm'] at hdecode
    rw [List.inj_on_of_nodup_map hnodup hm' hm hdecode]
    exact h

/-- What stands behind a part of an array or object, when these are the parts after it. -/
def remainder (close : Char) : List Text → Text
  | [] => [close]
  | t :: ts => ',' :: enclosed close (t :: ts)

theorem enclosed_cons (close : Char) (t : Text) (ts : List Text) :
    enclosed close (t :: ts) = t ++ remainder close ts := by
  cases ts with
  | nil => rfl
  | cons u us => rfl

structure Element.Spaced (e : Element ℚ) : Prop where
  before : rfc8259.Spaces e.before
  after : rfc8259.Spaces e.after
  written : Written rfc8259 e.value e.text

structure Member.Spaced (m : Member ℚ) : Prop where
  before : rfc8259.Spaces m.before
  after : rfc8259.Spaces m.after
  name : StringBody m.name
  element : m.element.Spaced

/-- A member without spaces. -/
theorem Member.Spaced.compact {name : Text} (hname : StringBody name)
    (h : Written rfc8259 v t) : (⟨[], name, [], ⟨[], t, [], v⟩⟩ : Member ℚ).Spaced := by
  have hnone : rfc8259.Spaces [] := fun _ hc => (nomatch hc)
  exact ⟨hnone, hnone, hname, hnone, hnone, h⟩

theorem written_object {ms : List (Member ℚ)} (hne : ms ≠ []) (h : ∀ m ∈ ms, m.Spaced) :
    Written rfc8259 (.object (ms.map fun m => (m.name, m.element.value)))
      ('{' :: enclosed '}' (ms.map Member.full)) := by
  refine .object hne (fun m hm => ?_) (fun m hm => (h m hm).name)
    fun m hm => (h m hm).element.written
  exact ⟨(h m hm).before, (h m hm).after, (h m hm).element.before, (h m hm).element.after⟩

/-- An object is members with commas between them, or nothing but spaces. -/
theorem written_object_cases {fields : List (Text × Value ℚ)} {t : Text}
    (h : Written rfc8259 (.object fields) t) :
    (fields = [] ∧ ∃ w, rfc8259.Spaces w ∧ t = '{' :: w ++ ['}']) ∨
      ∃ m ms, fields = (m :: ms).map (fun m => (m.name, m.element.value)) ∧
        (∀ m' ∈ m :: ms, Member.Spaced m') ∧
        t = '{' :: (m.full ++ remainder '}' (ms.map Member.full)) := by
  cases h with
  | emptyObject hw => exact Or.inl ⟨rfl, _, hw, rfl⟩
  | @object ms hne hs hn hw =>
    obtain ⟨m, ms, rfl⟩ := List.exists_cons_of_ne_nil hne
    refine Or.inr ⟨m, ms, rfl, fun m' hm => ?_, ?_⟩
    · obtain ⟨hb, ha, heb, hea⟩ := hs m' hm
      exact ⟨hb, ha, hn m' hm, heb, hea, hw m' hm⟩
    · rw [List.map_cons, enclosed_cons]

section Starts

/-- Where something other than a space begins there are no spaces. -/
theorem spaces_eq_nil (hw : rfc8259.Spaces w) (hc : rfc8259.space c = false)
    (h : w ++ s = c :: t) : w = [] ∧ s = c :: t := by
  cases w with
  | nil => exact ⟨rfl, h⟩
  | cons d w =>
    have hd := hw d List.mem_cons_self
    rw [(List.cons.inj h).1, hc] at hd
    cases hd

/-- What begins with a quote is a string. -/
theorem Written.str_of_quote (h : Written rfc8259 v t) (ht : t ++ s = '"' :: b) :
    ∃ raw, StringBody raw ∧ v = .str raw ∧ raw ++ '"' :: s = b := by
  cases h with
  | @str raw hraw => exact ⟨raw, hraw, rfl, by simpa using ht⟩
  | @number _ q hn =>
    obtain ⟨l, hl, -⟩ := hn
    obtain ⟨c, t', ht'⟩ := List.exists_cons_of_ne_nil l.text_ne_nil
    rw [hl, ht'] at ht
    obtain rfl := (List.cons.inj ht).1
    have hmem : '"' ∈ l.text := by
      rw [ht']
      exact List.mem_cons_self
    exact absurd (NumberLiteral.mem_text hmem) (by decide)
  | _ => exact absurd (List.cons.inj ht).1 (by decide)

theorem Element.Spaced.str_of_quote {tail : Text} (he : e.Spaced)
    (h : e.full ++ tail = '"' :: b) :
    ∃ raw, StringBody raw ∧ e.value = .str raw ∧ raw ++ '"' :: (e.after ++ tail) = b := by
  unfold Element.full at h
  rw [List.append_assoc, List.append_assoc] at h
  obtain ⟨_, h⟩ := spaces_eq_nil he.before rfl h
  exact he.written.str_of_quote h

/-- A member goes on as its name does. -/
theorem Member.Spaced.name_of_quote {name rest tail : Text} (hm : m.Spaced)
    (hname : StringBody name) (h : m.full ++ tail = '"' :: name ++ '"' :: ':' :: rest) :
    m.name = name ∧ m.element.full ++ tail = rest := by
  unfold Member.full at h
  simp only [List.append_assoc, List.cons_append] at h
  obtain ⟨_, h⟩ := spaces_eq_nil hm.before rfl h
  obtain ⟨hsame, h⟩ := hm.name.close_unique hname (List.cons.inj h).2
  obtain ⟨_, h⟩ := spaces_eq_nil hm.after rfl h
  exact ⟨hsame, (List.cons.inj h).2⟩

/-- The first comma or brace is told from what stands before it. -/
theorem separator_unique {d rest : Text} (ha : ∀ x ∈ a, x ≠ ',' ∧ x ≠ '}')
    (hd : ∀ x ∈ d, x ≠ ',' ∧ x ≠ '}') (hc : c = ',' ∨ c = '}')
    (h : a ++ c :: s = d ++ ',' :: rest) : a = d ∧ c :: s = ',' :: rest := by
  induction a generalizing d with
  | nil =>
    cases d with
    | nil => exact ⟨rfl, h⟩
    | cons x d =>
      obtain rfl := (List.cons.inj h).1
      have hx := hd c List.mem_cons_self
      exact absurd hc (not_or.mpr hx)
  | cons y a ih =>
    cases d with
    | nil => exact absurd (List.cons.inj h).1 (ha y List.mem_cons_self).1
    | cons x d =>
      obtain ⟨rfl, hrest⟩ := List.cons.inj h
      obtain ⟨rfl, hsame⟩ := ih (fun x hx => ha x (List.mem_cons_of_mem y hx))
        (fun x hx => hd x (List.mem_cons_of_mem y hx)) hrest
      exact ⟨rfl, hsame⟩

theorem exists_remainder (ts : List Text) (after : Text) :
    ∃ c s, remainder '}' ts ++ after = c :: s ∧ (c = ',' ∨ c = '}') := by
  cases ts with
  | nil => exact ⟨'}', after, rfl, Or.inr rfl⟩
  | cons t ts => exact ⟨',', _, rfl, Or.inl rfl⟩

theorem ne_of_alphanum {x : Char} (hx : x.isAlphanum = true) :
    (x ≠ ',' ∧ x ≠ '}') ∧ x ≠ '"' ∧ x ≠ '[' ∧ x ≠ '{' := by
  refine ⟨⟨?_, ?_⟩, ?_, ?_, ?_⟩ <;>
  · rintro rfl
    exact absurd hx (by decide)

/-- A value that begins with a letter or a digit ends before the next comma or brace. -/
theorem Written.no_separator (h : Written rfc8259 v t) (ht : t ++ s = c :: b)
    (hc : c.isAlphanum = Bool.true) : ∀ x ∈ t, x ≠ ',' ∧ x ≠ '}' := by
  obtain ⟨-, hquote, hbracket, hbrace⟩ := ne_of_alphanum hc
  cases h with
  | null => decide
  | true => decide
  | false => decide
  | number hn =>
    obtain ⟨l, rfl, -⟩ := hn
    intro x hx
    rcases NumberLiteral.mem_text hx with hd | hx
    · constructor
      · rintro rfl
        exact absurd hd (by decide)
      · rintro rfl
        exact absurd hd (by decide)
    · have hsigns : ∀ x ∈ ['.', '-', '+', 'e', 'E'], x ≠ ',' ∧ x ≠ '}' := by decide
      exact hsigns x hx
  | str _ => exact absurd (List.cons.inj ht).1.symm hquote
  | emptyArray _ => exact absurd (List.cons.inj ht).1.symm hbracket
  | array _ _ _ => exact absurd (List.cons.inj ht).1.symm hbracket
  | emptyObject _ => exact absurd (List.cons.inj ht).1.symm hbrace
  | object _ _ _ _ => exact absurd (List.cons.inj ht).1.symm hbrace

theorem Element.Spaced.string_of_comma {raw rest tail : Text} (he : e.Spaced)
    (hraw : StringBody raw) (h : e.full ++ tail = '"' :: (raw ++ '"' :: ',' :: rest)) :
    tail = ',' :: rest := by
  obtain ⟨raw', hraw', _, h⟩ := he.str_of_quote h
  exact (spaces_eq_nil he.after rfl (hraw'.close_unique hraw h).2).2

theorem ne_of_space {x : Char} (hx : rfc8259.space x = true) :
    x ≠ ',' ∧ x ≠ '}' ∧ x ≠ '"' ∧ x ≠ '\\' ∧ x.isDigit = false := by
  simp only [rfc8259, Bool.or_eq_true, decide_eq_true_eq] at hx
  rcases hx with ((rfl | rfl) | rfl) | rfl <;> decide

theorem not_space_of_alphanum {x : Char} (hx : x.isAlphanum = true) :
    rfc8259.space x = false := by
  by_contra hs
  simp only [rfc8259, Bool.not_eq_false, Bool.or_eq_true, decide_eq_true_eq] at hs
  rcases hs with ((rfl | rfl) | rfl) | rfl <;> exact absurd hx (by decide)

theorem Element.Spaced.word_of_comma {word rest tail : Text} (he : e.Spaced)
    (hne : word ≠ []) (hd : ∀ x ∈ word, x.isAlphanum = true)
    (htail : ∃ c s, tail = c :: s ∧ (c = ',' ∨ c = '}'))
    (h : e.full ++ tail = word ++ ',' :: rest) : tail = ',' :: rest := by
  obtain ⟨x, word', rfl⟩ := List.exists_cons_of_ne_nil hne
  have hx : x.isAlphanum = true := hd x List.mem_cons_self
  unfold Element.full at h
  rw [List.append_assoc, List.append_assoc] at h
  obtain ⟨_, h⟩ := spaces_eq_nil he.before (not_space_of_alphanum hx) h
  have htext := he.written.no_separator h hx
  obtain ⟨c, s, rfl, hc⟩ := htail
  rw [← List.append_assoc] at h
  refine (separator_unique (d := x :: word') (fun y hy => ?_)
    (fun y hy => (ne_of_alphanum (hd y hy)).1) hc h).2
  rcases List.mem_append.mp hy with hy | hy
  · exact htext y hy
  · obtain ⟨hcomma, hbrace, _⟩ := ne_of_space (he.after y hy)
    exact ⟨hcomma, hbrace⟩

theorem Element.Spaced.number_of_comma {digits rest tail : Text} (he : e.Spaced)
    (hne : digits ≠ []) (hd : ∀ x ∈ digits, x.isDigit = true)
    (htail : ∃ c s, tail = c :: s ∧ (c = ',' ∨ c = '}'))
    (h : e.full ++ tail = digits ++ ',' :: rest) : tail = ',' :: rest := by
  refine he.word_of_comma hne (fun x hx => ?_) htail h
  rw [Char.isAlphanum, hd x hx, Bool.or_true]

/-- A string that stands for a text is the text itself where the object goes on with another
name: what follows would not go on so if a quote of the text had ended the string, or a
backslash had kept it open. -/
theorem StringBody.eq_of_decode {text rest : Text} {x : Char} (hraw : StringBody raw)
    (hd : decode raw = text) (hw : rfc8259.Spaces w) (hc : c = ',' ∨ c = '}')
    (hx : x.isAlphanum = true)
    (h : raw ++ '"' :: (w ++ c :: s) = text ++ '"' :: ',' :: '"' :: x :: rest) : raw = text := by
  have hlength := hraw.length_decode_le
  rcases List.append_eq_append_iff.mp h with ⟨u, rfl, hu⟩ | ⟨u, rfl, hu⟩
  · rw [hd, List.length_append] at hlength
    rw [List.length_eq_zero_iff.mp (by omega : u.length = 0), List.append_nil]
  · cases u with
    | nil => exact List.append_nil text
    | cons d u =>
      obtain ⟨rfl, hmore⟩ := List.cons.inj hu
      have hcomma : StringBody [','] := .of_plain (by decide) (by decide) (by decide)
      have hrest : u ++ '"' :: (w ++ c :: s) = [','] ++ '"' :: x :: rest := hmore.symm
      obtain ⟨_, hp⟩ := hraw.of_quote.2.close_unique hcomma hrest
      obtain ⟨_, hp⟩ := spaces_eq_nil hw (not_space_of_alphanum hx) hp
      obtain rfl := (List.cons.inj hp).1
      exact absurd hc (not_or.mpr (ne_of_alphanum hx).1)

/-- Behind a comma stands another member. -/
theorem remainder_of_comma {ms : List (Member ℚ)} {rest after : Text}
    (h : remainder '}' (ms.map Member.full) ++ after = ',' :: rest) :
    ∃ m ms', ms = m :: ms' ∧ m.full ++ (remainder '}' (ms'.map Member.full) ++ after) = rest := by
  cases ms with
  | nil => exact absurd (List.cons.inj h).1 (by decide)
  | cons m ms =>
    refine ⟨m, ms, rfl, ?_⟩
    rw [List.map_cons, remainder, enclosed_cons, List.cons_append, List.append_assoc] at h
    exact (List.cons.inj h).2

/-- Behind a comma and a name stands the member of that name. -/
theorem member_of_comma {ms : List (Member ℚ)} {name rest after : Text}
    (hms : ∀ m ∈ ms, Member.Spaced m) (hname : StringBody name)
    (h : remainder '}' (ms.map Member.full) ++ after = ',' :: '"' :: (name ++ '"' :: ':' :: rest)) :
    ∃ m ms', ms = m :: ms' ∧ m.Spaced ∧ (∀ m' ∈ ms', Member.Spaced m') ∧ m.name = name ∧
      m.element.full ++ (remainder '}' (ms'.map Member.full) ++ after) = rest := by
  obtain ⟨m, ms', rfl, hfull⟩ := remainder_of_comma h
  obtain ⟨hm, hms'⟩ := List.forall_mem_cons.mp hms
  obtain ⟨hsame, hvalue⟩ := hm.name_of_quote hname hfull
  exact ⟨m, ms', rfl, hm, hms', hsame, hvalue⟩

end Starts

section StringArrays

variable {texts : List Text}

def quoted (t : Text) : Text := '"' :: t ++ ['"']

theorem Written.str_inv (h : Written rfc8259 (.str raw) t) : StringBody raw ∧ t = quoted raw := by
  cases h with
  | str hraw => exact ⟨hraw, rfl⟩

/-- The value is an array of strings that stand for these texts. -/
def AreStrings (texts : List Text) (v : Value ℚ) : Prop :=
  ∃ items, v = .array items ∧ List.Forall₂ IsString texts items

theorem length_remainder (close : Char) (ts : List Text) :
    (remainder close ts).length = (ts.map List.length).sum + ts.length + 1 := by
  induction ts with
  | nil => rfl
  | cons t ts ih =>
    rw [remainder, enclosed_cons, List.length_cons, List.length_append, ih, List.map_cons,
      List.sum_cons, List.length_cons]
    omega

theorem length_enclosed (close : Char) {ts : List Text} (hne : ts ≠ []) :
    (enclosed close ts).length = (ts.map List.length).sum + ts.length := by
  obtain ⟨t, ts, rfl⟩ := List.exists_cons_of_ne_nil hne
  rw [enclosed_cons, List.length_append, length_remainder, List.map_cons, List.sum_cons,
    List.length_cons]
  omega

theorem written_strings (h : ∀ t ∈ texts, Plain t) :
    Written rfc8259 (.array (texts.map .str)) ('[' :: enclosed ']' (texts.map quoted)) := by
  cases texts with
  | nil => exact .emptyArray (w := []) (fun _ hc => (nomatch hc))
  | cons t ts =>
    let element : Text → Element ℚ := fun t => ⟨[], quoted t, [], .str t⟩
    have hes : Written rfc8259 (.array (((t :: ts).map element).map (·.value)))
        ('[' :: enclosed ']' (((t :: ts).map element).map Element.full)) := by
      refine .array (by simp) (List.forall_mem_map.mpr fun t _ => ?_)
        (List.forall_mem_map.mpr fun t ht => .str (h t ht).stringBody.1)
      exact ⟨fun _ hc => (nomatch hc), fun _ hc => (nomatch hc)⟩
    have hfull : (t :: ts).map (Element.full ∘ element) = (t :: ts).map quoted :=
      List.map_congr_left fun t _ => List.append_nil _
    rw [List.map_map, List.map_map, hfull] at hes
    exact hes

theorem forall_isString_of_plain (h : ∀ t ∈ texts, Plain t) :
    List.Forall₂ IsString texts (texts.map .str) := by
  rw [List.forall₂_map_right_iff, List.forall₂_same]
  exact fun t ht => ⟨t, rfl, (h t ht).stringBody.2⟩

/-- Strings take up no less room than what they stand for, and as much only if they are plain. -/
theorem plain_of_lengths {es : List (Element ℚ)}
    (h : List.Forall₂ (fun text e => ∃ raw, StringBody raw ∧ decode raw = text ∧
      raw.length + 2 ≤ e.full.length) texts es) :
    ((texts.map quoted).map List.length).sum ≤ ((es.map Element.full).map List.length).sum ∧
      (((es.map Element.full).map List.length).sum ≤ ((texts.map quoted).map List.length).sum →
        ∀ t ∈ texts, Plain t) := by
  induction h with
  | nil => exact ⟨Nat.le_refl 0, fun _ _ ht => (nomatch ht)⟩
  | @cons text e texts es hhead _ ih =>
    obtain ⟨raw, hraw, rfl, hfull⟩ := hhead
    obtain ⟨hle, hplain⟩ := ih
    have hlength := hraw.length_decode_le
    have hquoted : (quoted (decode raw)).length = (decode raw).length + 2 := by simp [quoted]
    simp only [List.map_cons, List.sum_cons, hquoted]
    refine ⟨by omega, fun htight => List.forall_mem_cons.mpr ⟨?_, hplain (by omega)⟩⟩
    have hsame := hraw.plain_of_length (by omega)
    rwa [hsame.stringBody.2]

/-- An array of strings that stand for the texts between their quotes, with something behind it
where the texts have one character: there is no room for an escape. -/
theorem Written.plain_strings (hw : Written rfc8259 v t) (hv : AreStrings texts v) (hs : s ≠ [])
    (h : t ++ s = '[' :: enclosed ']' (texts.map quoted) ++ [c]) : ∀ text ∈ texts, Plain text := by
  obtain ⟨items, rfl, hitems⟩ := hv
  cases hw with
  | emptyArray _ =>
    cases hitems
    exact fun _ ht => (nomatch ht)
  | @array es hne _ hwritten =>
    have hparts : List.Forall₂ (fun text e => ∃ raw, StringBody raw ∧ decode raw = text ∧
        raw.length + 2 ≤ e.full.length) texts es := by
      obtain ⟨hlength, hstrings⟩ :=
        List.forall₂_iff_zip.mp (List.forall₂_map_right_iff.mp hitems)
      refine List.forall₂_iff_zip.mpr ⟨hlength, fun hmem => ?_⟩
      rename_i text e
      obtain ⟨raw, hvalue, hdecode⟩ := hstrings hmem
      have hw := hwritten e (List.of_mem_zip hmem).2
      rw [hvalue] at hw
      obtain ⟨hraw, htext⟩ := hw.str_inv
      refine ⟨raw, hraw, hdecode, ?_⟩
      simp [Element.full, htext, quoted]
      omega
    refine (plain_of_lengths hparts).2 ?_
    have hsame := hparts.length_eq
    have htexts : texts ≠ [] := by
      rintro rfl
      exact hne (List.length_eq_zero_iff.mp hsame.symm)
    have hcount := congrArg List.length h
    have hbehind := List.length_pos_iff.mpr hs
    simp only [List.length_append, List.length_cons, List.length_nil,
      length_enclosed _ (List.map_eq_nil_iff.not.mpr hne), List.length_map,
      length_enclosed _ (List.map_eq_nil_iff.not.mpr htexts)] at hcount
    omega

end StringArrays

section Successive

variable {ms : List (Member ℚ)} {name text word rest after : Text} {x : Char}

/-- A member for a text between quotes as it stands, where another name follows. -/
theorem string_member {next : Text} (hms : ∀ m ∈ ms, Member.Spaced m) (hname : StringBody name)
    (hvalues : ∀ m ∈ ms, m.name = name → IsString text m.element.value)
    (hnext : next.head? = some x) (hx : x.isAlphanum = true)
    (h : remainder '}' (ms.map Member.full) ++ after =
      ',' :: '"' :: (name ++ '"' :: ':' :: '"' :: (text ++ '"' :: ',' :: '"' :: (next ++ rest)))) :
    Plain text ∧ ∃ m ms', ms = m :: ms' ∧
      remainder '}' (ms'.map Member.full) ++ after = ',' :: '"' :: (next ++ rest) := by
  obtain ⟨m, ms', rfl, hm, _, hsame, hvalue⟩ := member_of_comma hms hname h
  obtain ⟨raw, hraw, hstr, hrest⟩ := hm.element.str_of_quote hvalue
  obtain ⟨raw', hraw', hdecode⟩ := hvalues m List.mem_cons_self hsame
  obtain rfl := Value.str.inj (hstr.symm.trans hraw')
  obtain ⟨c, s, hsep, hc⟩ := exists_remainder (ms'.map Member.full) after
  obtain ⟨next', rfl⟩ := List.head?_eq_some_iff.mp hnext
  rw [hsep] at hrest
  have hwhole := hraw.eq_of_decode hdecode hm.element.after hc hx hrest
  subst hwhole
  refine ⟨hraw.plain_of_length (by rw [hdecode]), m, ms', rfl, ?_⟩
  have htail := (List.cons.inj (List.append_cancel_left hrest)).2
  rw [← hsep] at htail
  exact (spaces_eq_nil hm.element.after rfl htail).2

/-- A member for a word, where something follows. -/
theorem word_member (hms : ∀ m ∈ ms, Member.Spaced m) (hname : StringBody name)
    (hne : word ≠ []) (hword : ∀ x ∈ word, x.isAlphanum = true)
    (h : remainder '}' (ms.map Member.full) ++ after =
      ',' :: '"' :: (name ++ '"' :: ':' :: (word ++ ',' :: rest))) :
    ∃ m ms', ms = m :: ms' ∧ remainder '}' (ms'.map Member.full) ++ after = ',' :: rest := by
  obtain ⟨m, ms', rfl, hm, _, _, hvalue⟩ := member_of_comma hms hname h
  exact ⟨m, ms', rfl, hm.element.word_of_comma hne hword (exists_remainder _ _) hvalue⟩

/-- A last member for an array of texts between quotes as they stand. -/
theorem strings_member {texts : List Text} (hms : ∀ m ∈ ms, Member.Spaced m)
    (hname : StringBody name)
    (hvalues : ∀ m ∈ ms, m.name = name → AreStrings texts m.element.value)
    (h : remainder '}' (ms.map Member.full) ++ after =
      ',' :: '"' :: (name ++ '"' :: ':' :: ('[' :: enclosed ']' (texts.map quoted) ++ ['}']))) :
    ∀ text ∈ texts, Plain text := by
  obtain ⟨m, ms', rfl, hm, _, hsame, hvalue⟩ := member_of_comma hms hname h
  unfold Element.full at hvalue
  rw [List.append_assoc, List.append_assoc] at hvalue
  obtain ⟨_, hvalue⟩ := spaces_eq_nil hm.element.before rfl hvalue
  obtain ⟨c, s, hsep, _⟩ := exists_remainder (ms'.map Member.full) after
  refine hm.element.written.plain_strings (hvalues m List.mem_cons_self hsame) ?_ hvalue
  rw [hsep]
  exact List.append_ne_nil_of_right_ne_nil _ (List.cons_ne_nil c s)

end Successive

end HelixRouter.Json
