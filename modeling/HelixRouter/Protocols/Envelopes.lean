import HelixRouter.Json.Members
import HelixRouter.Protocols.ProtocolAdapter
import Mathlib.Data.List.Forall2

namespace HelixRouter.Protocols

open Json Texts
open RequestValidation (trimStart isWhitespace)

/-- What a request says. -/
structure Envelope where
  id : Text
  headers : Headers
  body : Text
  timeoutMs : UInt64

def IsHeaders (headers : Headers) (v : Value ℚ) : Prop :=
  ∃ hs : List (Text × Text), v = .object (hs.map fun h => (h.1, .str h.2)) ∧
    (hs.map fun h => (⟨decode h.1, decode h.2⟩ : Sigma fun _ : Text => Text)).Perm headers.entries

/-- The text is an object in JSON that says what the envelope does, by these members. -/
structure Renders (env : Envelope) (text : Text) (ms : List (Member ℚ)) : Prop where
  text : ∃ before after, rfc8259.Spaces before ∧ rfc8259.Spaces after ∧
    text = before ++ '{' :: enclosed '}' (ms.map Member.full) ++ after
  spaced : ∀ m ∈ ms, m.Spaced
  names : (ms.map fun m => decode m.name).Perm
    ["id".toList, "headers".toList, "body".toList, "timeout_ms".toList]
  id : ∀ m ∈ ms, decode m.name = "id".toList → IsString env.id m.element.value
  headers : ∀ m ∈ ms, decode m.name = "headers".toList → IsHeaders env.headers m.element.value
  body : ∀ m ∈ ms, decode m.name = "body".toList → IsString env.body m.element.value
  timeoutMs : ∀ m ∈ ms, decode m.name = "timeout_ms".toList →
    m.element.value = .number env.timeoutMs.toNat

/-- The adapter reads the envelope from the text. -/
def Recovers (env : Envelope) (text : Text) (protocol : Protocol) : Prop :=
  ∃ r, ProtocolAdapter.toNormalized (encodeUtf8 text) protocol = .ok r ∧
    r.id = env.id ∧ (∀ k, r.headers.lookup k = env.headers.lookup k) ∧
    r.body = encodeUtf8 env.body ∧ r.timeoutMs = env.timeoutMs ∧ r.protocol = protocol

/-- One of the strings of a value is the name. -/
def Mentions (v : Value ℚ) (name : Text) : Prop :=
  v = .str name ∨ ∃ fields, v = .object fields ∧ ∃ f ∈ fields, f.1 = name ∨ f.2 = .str name

/-- A rendering without escapes, with its number in digits alone, without closing braces in the
headers, and without the name of a member among the strings of the members before it. -/
structure Simple (text : Text) (ms : List (Member ℚ)) : Prop where
  plain : '\\' ∉ text
  digits : ∀ m ∈ ms, ∀ q, m.element.value = .number q → ∀ c ∈ m.element.text, c.isDigit = true
  braces : ∀ m ∈ ms, ∀ fields, m.element.value = .object fields →
    ∀ f ∈ fields, '}' ∉ f.1 ∧ ∀ raw, f.2 = .str raw → '}' ∉ raw
  unshadowed : ms.Pairwise fun m m' => ¬Mentions m.element.value m'.name

section Shapes

variable {m : Member ℚ} {ms : List (Member ℚ)} {name raw w t : Text} {c : Char}

/-- The members of an object behind the first one. -/
def behind : List (Member ℚ) → Text
  | [] => []
  | m :: ms => ',' :: (m.full ++ behind ms)

theorem remainder_eq_behind : remainder '}' (ms.map Member.full) = behind ms ++ ['}'] := by
  induction ms with
  | nil => rfl
  | cons m ms ih =>
    rw [List.map_cons, remainder, enclosed_cons, ih, behind, List.cons_append, List.append_assoc]

theorem length_le_behind : ms.length ≤ (behind ms).length := by
  induction ms with
  | nil => exact le_rfl
  | cons m ms ih =>
    rw [behind, List.length_cons, List.length_cons, List.length_append]
    omega

/-- What stands between and around the strings of an object without other values in it. -/
def IsGap (c : Char) : Prop := c ≠ '"' ∧ c.isAlpha = false

theorem isGap_of_space (hc : rfc8259.space c = true) : IsGap c := by
  simp only [rfc8259, Bool.or_eq_true, decide_eq_true_eq] at hc
  rcases hc with ((rfl | rfl) | rfl) | rfl
  · exact ⟨by decide, by decide⟩
  · exact ⟨by decide, by decide⟩
  · exact ⟨by decide, by decide⟩
  · exact ⟨by decide, by decide⟩

theorem isGap_of_isDigit (hc : c.isDigit = true) : IsGap c := by
  refine ⟨?_, Bool.eq_false_iff.mpr fun halpha => ?_⟩
  · intro hquote
    subst hquote
    exact absurd hc (by decide)
  · have halpha := isAlpha_iff.mp halpha
    simp only [Char.isDigit, Bool.and_eq_true, decide_eq_true_eq, ge_iff_le,
      UInt32.le_iff_toNat_le, Char.reduceVal, UInt32.reduceToNat] at hc halpha
    omega

/-- Names begin with a letter. -/
def BeginsWithLetter (name : Text) : Prop := ∃ n, name.head? = some n ∧ n.isAlpha = true

theorem passed_of_gap (hname : BeginsWithLetter name) (h : ∀ c ∈ t, IsGap c) :
    Passed name t := by
  obtain ⟨n, hn, halpha⟩ := hname
  refine .of_forall fun c hc => ⟨(h c hc).1, fun heq => ?_⟩
  rw [hn] at heq
  rw [Option.some.inj heq, (h c hc).2] at halpha
  cases halpha

theorem passed_of_spaces (hname : BeginsWithLetter name) (h : rfc8259.Spaces w) :
    Passed name w :=
  passed_of_gap hname fun c hc => isGap_of_space (h c hc)

theorem Passed.gap_cons (hname : BeginsWithLetter name) (hc : IsGap c) (h : Passed name t) :
    Passed name (c :: t) :=
  (passed_of_gap hname (List.forall_mem_singleton.mpr hc)).append h

theorem Passed.string (hraw : '"' ∉ raw) (hne : raw ≠ name) : Passed name ('"' :: raw ++ ['"']) :=
  .str hraw hne .nil

/-- A value with its strings written as they are. -/
theorem str_text (h : Written rfc8259 (.str raw) t) (hb : '\\' ∉ t) :
    t = '"' :: raw ++ ['"'] ∧ '"' ∉ raw ∧ '\\' ∉ raw := by
  cases h with
  | str hbody =>
    have hraw : '\\' ∉ raw := fun hm => hb (by simp [hm])
    exact ⟨rfl, StringBody.quote_not_mem hbody hraw, hraw⟩

theorem Member.mem_full_name (h : c ∈ m.name) : c ∈ m.full := by simp [Member.full, h]

theorem Member.mem_full_text (h : c ∈ m.element.text) : c ∈ m.full := by
  simp [Member.full, Element.full, h]

/-- A member is passed where its name is another one and its value is. -/
theorem passed_member (hname : BeginsWithLetter name) (hm : m.Spaced) (hb : '\\' ∉ m.full)
    (hne : m.name ≠ name) (h : Passed name m.element.text) : Passed name m.full := by
  have hquote : '"' ∉ m.name := hm.name.quote_not_mem fun hmem => hb (Member.mem_full_name hmem)
  have hvalue : Passed name m.element.full :=
    ((passed_of_spaces hname hm.element.before).append h).append
      (passed_of_spaces hname hm.element.after)
  have hcolon : IsGap ':' := ⟨by decide, by decide⟩
  unfold Member.full
  rw [List.append_assoc, List.append_assoc]
  refine (passed_of_spaces hname hm.before).append ?_
  exact .str hquote hne ((passed_of_spaces hname hm.after).append (hvalue.gap_cons hname hcolon))

theorem passed_behind (hname : BeginsWithLetter name) (h : ∀ m ∈ ms, Passed name m.full) :
    Passed name (behind ms) := by
  induction ms with
  | nil => exact .nil
  | cons m ms ih =>
    have hcomma : IsGap ',' := ⟨by decide, by decide⟩
    refine Passed.gap_cons hname hcomma ((h m List.mem_cons_self).append ?_)
    exact ih fun m' hm' => h m' (List.mem_cons_of_mem m hm')

/-- What stands between the braces of an object. -/
def inside (w : Text) : List (Member ℚ) → Text
  | [] => w
  | m :: ms => m.full ++ behind ms

theorem passed_inside (hname : BeginsWithLetter name) (hw : rfc8259.Spaces w)
    (h : ∀ m ∈ ms, Passed name m.full) : Passed name (inside w ms) := by
  cases ms with
  | nil => exact passed_of_spaces hname hw
  | cons m ms =>
    exact (h m List.mem_cons_self).append
      (passed_behind hname fun m' hm' => h m' (List.mem_cons_of_mem m hm'))

theorem mem_behind (hm : m ∈ ms) (hc : c ∈ m.full) : c ∈ behind ms := by
  induction ms with
  | nil => cases hm
  | cons m' ms ih =>
    rcases List.mem_cons.mp hm with rfl | hm
    · simp [behind, hc]
    · simp [behind, ih hm]

theorem mem_inside (hm : m ∈ ms) (hc : c ∈ m.full) : c ∈ inside w ms := by
  cases ms with
  | nil => cases hm
  | cons m' ms =>
    rcases List.mem_cons.mp hm with rfl | hm
    · exact List.mem_append_left _ hc
    · exact List.mem_append_right _ (mem_behind hm hc)

theorem not_mem_behind (hc : c ≠ ',') (h : ∀ m ∈ ms, c ∉ m.full) : c ∉ behind ms := by
  induction ms with
  | nil => exact List.not_mem_nil
  | cons m ms ih =>
    have hrest := ih fun m' hm' => h m' (List.mem_cons_of_mem m hm')
    simp [behind, hc, h m List.mem_cons_self, hrest]

theorem not_mem_inside (hw : c ∉ w) (hc : c ≠ ',') (h : ∀ m ∈ ms, c ∉ m.full) :
    c ∉ inside w ms := by
  cases ms with
  | nil => exact hw
  | cons m ms =>
    have hrest := not_mem_behind hc fun m' hm' => h m' (List.mem_cons_of_mem m hm')
    simp [inside, h m List.mem_cons_self, hrest]

/-- How an object is written. -/
theorem object_text {fields : List (Text × Value ℚ)} (h : Written rfc8259 (.object fields) t) :
    ∃ w ms, rfc8259.Spaces w ∧ (∀ m ∈ ms, Member.Spaced m) ∧
      fields = ms.map (fun m => (m.name, m.element.value)) ∧
      t = '{' :: (inside w ms ++ ['}']) := by
  rcases written_object_cases h with ⟨rfl, w, hw, rfl⟩ | ⟨m, ms, rfl, hms, rfl⟩
  · exact ⟨w, [], hw, fun _ hm => (nomatch hm), rfl, rfl⟩
  · refine ⟨[], m :: ms, fun _ hc => (nomatch hc), hms, rfl, ?_⟩
    rw [remainder_eq_behind, inside, List.append_assoc]

/-- A string, a number or an object of strings. -/
def Flat (v : Value ℚ) : Prop :=
  (∃ raw, v = .str raw) ∨ (∃ q, v = .number q) ∨
    ∃ hs : List (Text × Text), v = .object (hs.map fun h => (h.1, .str h.2))

theorem passed_value {v : Value ℚ} (hname : BeginsWithLetter name) (hflat : Flat v)
    (hw : Written rfc8259 v t) (hb : '\\' ∉ t) (hmentions : ¬Mentions v name)
    (hdigits : ∀ q, v = .number q → ∀ c ∈ t, c.isDigit = true) : Passed name t := by
  rcases hflat with ⟨raw, rfl⟩ | ⟨q, rfl⟩ | ⟨hs, rfl⟩
  · obtain ⟨rfl, hquote, _⟩ := str_text hw hb
    refine .string hquote ?_
    rintro rfl
    exact hmentions (Or.inl rfl)
  · exact passed_of_gap hname fun c hc => isGap_of_isDigit (hdigits q rfl c hc)
  · obtain ⟨w, ms, hspaces, hms, hfields, rfl⟩ := object_text hw
    have hbrace : IsGap '{' ∧ IsGap '}' := ⟨⟨by decide, by decide⟩, ⟨by decide, by decide⟩⟩
    refine Passed.gap_cons hname hbrace.1 (Passed.append ?_ (.gap_cons hname hbrace.2 .nil))
    refine passed_inside hname hspaces fun m hm => ?_
    have hmem : (m.name, m.element.value) ∈ hs.map fun h => (h.1, Value.str h.2) := by
      rw [hfields]
      exact List.mem_map_of_mem hm
    have hfull : '\\' ∉ m.full := by
      intro hc
      exact hb (List.mem_cons_of_mem _ (List.mem_append_left _ (mem_inside hm hc)))
    obtain ⟨h, -, hpair⟩ := List.mem_map.mp hmem
    obtain ⟨hkey, hstr⟩ := Prod.mk.inj hpair
    have hwritten := (hms m hm).element.written
    rw [← hstr] at hwritten
    obtain ⟨htext, hquote, _⟩ := str_text hwritten fun hc => hfull (Member.mem_full_text hc)
    refine passed_member hname (hms m hm) hfull ?_ ?_
    · rintro rfl
      exact hmentions (Or.inr ⟨_, rfl, _, hmem, Or.inl rfl⟩)
    · rw [htext]
      refine .string hquote ?_
      rintro rfl
      exact hmentions (Or.inr ⟨_, rfl, _, hmem, Or.inr hstr.symm⟩)

/-- The members of an object before one of them. -/
def ahead (pre : List (Member ℚ)) : Text := pre.flatMap fun m => m.full ++ [',']

theorem enclosed_split {pre post : List (Member ℚ)} :
    enclosed '}' ((pre ++ m :: post).map Member.full) =
      ahead pre ++ (m.full ++ (behind post ++ ['}'])) := by
  induction pre with
  | nil => rw [List.nil_append, List.map_cons, enclosed_cons, remainder_eq_behind]; rfl
  | cons m' pre ih =>
    obtain ⟨n, ns, hns⟩ : ∃ n ns, pre ++ m :: post = n :: ns :=
      List.exists_cons_of_ne_nil (by simp)
    rw [List.cons_append, List.map_cons, enclosed_cons, hns, List.map_cons, remainder,
      ← List.map_cons, ← hns, ih]
    simp [ahead]

theorem passed_ahead (hname : BeginsWithLetter name) {pre : List (Member ℚ)}
    (h : ∀ m ∈ pre, Passed name m.full) : Passed name (ahead pre) := by
  have hcomma : IsGap ',' := ⟨by decide, by decide⟩
  induction pre with
  | nil => exact .nil
  | cons m pre ih =>
    refine Passed.append ((h m List.mem_cons_self).append (.gap_cons hname hcomma .nil)) ?_
    exact ih fun m' hm' => h m' (List.mem_cons_of_mem m hm')

end Shapes

section Headers

variable {m : Member ℚ} {ms : List (Member ℚ)} {raw w t lead more : Text} {c : Char}
  {hs : List (Text × Text)}

theorem space_not_mem (hw : rfc8259.Spaces w) (hc : rfc8259.space c = false) : c ∉ w := by
  intro hm
  rw [hw c hm] at hc
  cases hc

theorem isWhitespace_of_space (hc : rfc8259.space c = true) : isWhitespace c = true := by
  simp only [rfc8259, Bool.or_eq_true, decide_eq_true_eq] at hc
  rcases hc with ((rfl | rfl) | rfl) | rfl
  · rfl
  · rfl
  · rfl
  · rfl

theorem trimStart_spaces (hw : rfc8259.Spaces w) (hc : isWhitespace c = false) :
    trimStart (w ++ c :: more) = c :: more := by
  have hall : ∀ d ∈ w, isWhitespace d = true := fun d hd => isWhitespace_of_space (hw d hd)
  unfold trimStart
  rw [List.dropWhile_append_of_pos hall, List.dropWhile_cons_of_neg (by rw [hc]; exact nofun)]

/-- A header with its strings written as they are. -/
structure Header (m : Member ℚ) (raw : Text) : Prop where
  spaced : m.Spaced
  value : m.element.value = .str raw
  plain : '\\' ∉ m.full
  braces : '}' ∉ m.name ∧ '}' ∉ raw

namespace Header

theorem strings (h : Header m raw) :
    '"' ∉ m.name ∧ m.element.text = '"' :: raw ++ ['"'] ∧ '"' ∉ raw := by
  have hwritten := h.spaced.element.written
  rw [h.value] at hwritten
  obtain ⟨htext, hraw, _⟩ := str_text hwritten fun hm => h.plain (Member.mem_full_text hm)
  exact ⟨h.spaced.name.quote_not_mem fun hm => h.plain (Member.mem_full_name hm), htext, hraw⟩

/-- Both strings stand for themselves. -/
theorem decoded (h : Header m raw) : decode m.name = m.name ∧ decode raw = raw := by
  obtain ⟨_, htext, _⟩ := h.strings
  refine ⟨decode_of_plain fun hm => h.plain (Member.mem_full_name hm), decode_of_plain fun hm => ?_⟩
  exact h.plain (Member.mem_full_text (by simp [htext, hm]))

theorem brace_not_mem (h : Header m raw) : '}' ∉ m.full := by
  obtain ⟨_, htext, _⟩ := h.strings
  have hspace : rfc8259.space '}' = false := by decide
  simp [Member.full, Element.full, htext, h.braces.1, h.braces.2,
    space_not_mem h.spaced.before hspace, space_not_mem h.spaced.after hspace,
    space_not_mem h.spaced.element.before hspace, space_not_mem h.spaced.element.after hspace]

/-- The next pair is the header that comes next. -/
theorem nextPair (h : Header m raw) (hlead : '"' ∉ lead) :
    nextPair (lead ++ (m.full ++ more)) = some (m.name, raw, m.element.after ++ more) := by
  obtain ⟨hname, htext, hraw⟩ := h.strings
  have hquote : rfc8259.space '"' = false := by decide
  have hcolon : rfc8259.space ':' = false := by decide
  have hshape : lead ++ (m.full ++ more) = (lead ++ m.before) ++ '"' :: (m.name ++ '"' ::
      (m.after ++ ':' :: (m.element.before ++ '"' :: (raw ++ '"' ::
        (m.element.after ++ more))))) := by
    simp [Member.full, Element.full, htext]
  have hopen : '"' ∉ lead ++ m.before := by
    simp [hlead, space_not_mem h.spaced.before hquote]
  rw [hshape]
  unfold Protocols.nextPair
  rw [findBehind_char hopen]
  simp only [Option.bind_eq_bind, Option.bind_some, find_char hname, List.drop_one, List.tail_cons,
    findBehind_char (space_not_mem h.spaced.after hcolon),
    trimStart_spaces h.spaced.element.before (show isWhitespace '"' = false by decide),
    find_char hraw]
  rfl

end Header

/-- Members that are the headers, in the same order. -/
def AreHeaders (ms : List (Member ℚ)) (hs : List (Text × Text)) : Prop :=
  List.Forall₂ (fun m h => m.name = h.1 ∧ Header m h.2) ms hs

theorem AreHeaders.exists_mem {h : Text × Text} (hms : AreHeaders ms hs) (hh : h ∈ hs) :
    ∃ m ∈ ms, m.name = h.1 ∧ Header m h.2 := by
  obtain ⟨i, hi, rfl⟩ := List.mem_iff_getElem.mp hh
  have hi' : i < ms.length := by rwa [hms.length_eq]
  exact ⟨ms[i], List.getElem_mem hi', hms.get hi' hi⟩

/-- Headers without braces in them are members without braces between the braces. -/
theorem areHeaders_of_written (h : Written rfc8259 (.object (hs.map fun h => (h.1, .str h.2))) t)
    (hb : '\\' ∉ t) (hbraces : ∀ h ∈ hs, '}' ∉ h.1 ∧ '}' ∉ h.2) :
    ∃ w ms, rfc8259.Spaces w ∧ AreHeaders ms hs ∧ '}' ∉ inside w ms ∧
      t = '{' :: (inside w ms ++ ['}']) := by
  obtain ⟨w, ms, hw, hspaced, hfields, rfl⟩ := object_text h
  have hsame : List.Forall₂ (fun (m : Member ℚ) (h : Text × Text) =>
      (m.name, m.element.value) = (h.1, Value.str h.2)) ms hs := by
    refine List.forall₂_map_left_iff.mp (List.forall₂_map_right_iff.mp ?_)
    rw [← hfields]
    exact List.forall₂_same.mpr fun _ _ => rfl
  have hheader : ∀ m ∈ ms, ∃ raw, m.element.value = .str raw ∧ Header m raw := by
    intro m hm
    have hmem : (m.name, m.element.value) ∈ hs.map fun h => (h.1, Value.str h.2) := by
      rw [hfields]
      exact List.mem_map_of_mem hm
    obtain ⟨h, hh, hpair⟩ := List.mem_map.mp hmem
    obtain ⟨hname, hstr⟩ := Prod.mk.inj hpair
    refine ⟨h.2, hstr.symm, hspaced m hm, hstr.symm, fun hc => hb ?_, ?_⟩
    · exact List.mem_cons_of_mem _ (List.mem_append_left _ (mem_inside hm hc))
    · rw [← hname]
      exact hbraces h hh
  refine ⟨w, ms, hw, ?_, ?_, rfl⟩
  · refine ((List.forall₂_and_left ms hs).mpr ⟨hheader, hsame⟩).imp fun m h hboth => ?_
    obtain ⟨⟨raw, hraw, hheader⟩, hpair⟩ := hboth
    obtain ⟨hname, hstr⟩ := Prod.mk.inj hpair
    obtain rfl := Value.str.inj (hraw.symm.trans hstr)
    exact ⟨hname, hheader⟩
  · refine not_mem_inside (space_not_mem hw (by decide)) (by decide) fun m hm => ?_
    obtain ⟨raw, _, hm⟩ := hheader m hm
    exact hm.brace_not_mem

theorem nextPair_none (hlead : '"' ∉ lead) : nextPair lead = none := by
  unfold nextPair
  rw [findBehind, find_char_none hlead]
  rfl

def insertAll (hs : List (Text × Text)) (map : Headers) : Headers :=
  hs.foldl (fun map h => map.insert h.1 h.2) map

/-- The headers behind the first one are collected in their order. -/
theorem collectPairs_behind (h : AreHeaders ms hs) (n : Nat) (hn : ms.length ≤ n)
    (hlead : '"' ∉ lead) (map : Headers) :
    collectPairs n (lead ++ behind ms) map = insertAll hs map := by
  induction h generalizing n lead map with
  | nil =>
    rw [behind, List.append_nil]
    cases n with
    | zero => rfl
    | succ n =>
      rw [collectPairs, nextPair_none hlead]
      rfl
  | @cons m h ms hs hhead _ ih =>
    obtain ⟨hname, hheader⟩ := hhead
    cases n with
    | zero => exact absurd hn (Nat.not_succ_le_zero _)
    | succ n =>
      have hshape : lead ++ behind (m :: ms) = (lead ++ [',']) ++ (m.full ++ behind ms) := by
        simp [behind]
      have hcomma : '"' ∉ lead ++ [','] := by simp [hlead]
      rw [hshape, collectPairs, hheader.nextPair hcomma]
      dsimp only
      rw [ih n (Nat.le_of_succ_le_succ hn)
        (space_not_mem hheader.spaced.element.after (by decide)), hname]
      rfl

theorem collectPairs_inside (h : AreHeaders ms hs) (hw : rfc8259.Spaces w) :
    collectPairs (inside w ms).length (inside w ms) ∅ = insertAll hs ∅ := by
  cases h with
  | nil =>
    have hspaces : collectPairs w.length (w ++ behind []) ∅ = insertAll [] ∅ :=
      collectPairs_behind .nil _ (Nat.zero_le _) (space_not_mem hw (by decide)) ∅
    rwa [behind, List.append_nil] at hspaces
  | @cons m h ms hs hhead htail =>
    obtain ⟨hname, hheader⟩ := hhead
    have hpos : 0 < m.full.length := by simp [Member.full]
    have hlen : ms.length ≤ (behind ms).length := length_le_behind
    obtain ⟨n, hn⟩ := Nat.exists_eq_add_of_lt (by
      rw [inside, List.length_append]; omega : ms.length < (inside w (m :: ms)).length)
    have hfirst : nextPair (m.full ++ behind ms) =
        some (m.name, h.2, m.element.after ++ behind ms) :=
      hheader.nextPair (List.not_mem_nil (a := '"'))
    rw [hn, inside, collectPairs, hfirst]
    dsimp only
    rw [collectPairs_behind htail _ (by omega)
      (space_not_mem hheader.spaced.element.after (by decide)), hname]
    rfl

theorem lookup_insertAll {k v : Text} (hs : List (Text × Text)) (hnodup : (hs.map Prod.fst).Nodup)
    (map : Headers) : (insertAll hs map).lookup k = some v ↔
      (k, v) ∈ hs ∨ k ∉ hs.map Prod.fst ∧ map.lookup k = some v := by
  induction hs generalizing map with
  | nil => simp [insertAll]
  | cons h hs ih =>
    rw [List.map_cons, List.nodup_cons] at hnodup
    have hstep := ih hnodup.2 (map.insert h.1 h.2)
    rw [insertAll, List.foldl_cons]
    rw [insertAll] at hstep
    rw [hstep]
    by_cases hk : k = h.1
    · subst hk
      rw [AList.lookup_insert]
      have hnot : (h.1, v) ∉ hs := fun hm => hnodup.1 (List.mem_map.mpr ⟨_, hm, rfl⟩)
      simp [hnot, hnodup.1, Prod.ext_iff, eq_comm]
    · rw [AList.lookup_insert_ne hk]
      have hne : (k, v) ≠ h := fun he => hk (congrArg Prod.fst he)
      simp [hne, hk]

end Headers

section Reading

variable {env : Envelope} {text : Text} {ms pre post : List (Member ℚ)} {m : Member ℚ}
  {raw name : Text} {c : Char}

theorem Renders.plain_full (hr : Renders env text ms) (hs : Simple text ms) (hm : m ∈ ms) :
    '\\' ∉ m.full := by
  intro hc
  obtain ⟨before, after, _, _, htext⟩ := hr.text
  obtain ⟨pre, post, rfl⟩ := List.append_of_mem hm
  rw [enclosed_split] at htext
  exact hs.plain (by simp [htext, hc])

theorem Renders.decode_name (hr : Renders env text ms) (hs : Simple text ms) (hm : m ∈ ms) :
    decode m.name = m.name :=
  decode_of_plain fun hc => hr.plain_full hs hm (Member.mem_full_name hc)

theorem Renders.name_mem (hr : Renders env text ms) (hs : Simple text ms) (hm : m ∈ ms) :
    m.name ∈ ["id".toList, "headers".toList, "body".toList, "timeout_ms".toList] := by
  rw [← hr.decode_name hs hm]
  exact hr.names.mem_iff.mp (List.mem_map_of_mem hm)

theorem beginsWithLetter_name : ∀ name ∈ ["id".toList, "headers".toList, "body".toList,
    "timeout_ms".toList], BeginsWithLetter name ∧ '"' ∉ name := by
  have hhead : ∀ name ∈ ["id".toList, "headers".toList, "body".toList, "timeout_ms".toList],
      name.head?.any Char.isAlpha = true ∧ '"' ∉ name := by decide
  intro name hname
  obtain ⟨hany, hquote⟩ := hhead name hname
  exact ⟨(Option.any_eq_true _ _).mp hany, hquote⟩

theorem Renders.flat (hr : Renders env text ms) (hs : Simple text ms) (hm : m ∈ ms) :
    Flat m.element.value := by
  have hdecode := hr.decode_name hs hm
  have hname := hr.name_mem hs hm
  simp only [List.mem_cons, List.not_mem_nil, or_false] at hname
  rcases hname with h | h | h | h
  · obtain ⟨raw, hraw, _⟩ := hr.id m hm (hdecode.trans h)
    exact Or.inl ⟨raw, hraw⟩
  · obtain ⟨fields, hfields, _⟩ := hr.headers m hm (hdecode.trans h)
    exact Or.inr (Or.inr ⟨fields, hfields⟩)
  · obtain ⟨raw, hraw, _⟩ := hr.body m hm (hdecode.trans h)
    exact Or.inl ⟨raw, hraw⟩
  · exact Or.inr (Or.inl ⟨_, hr.timeoutMs m hm (hdecode.trans h)⟩)

/-- Each member has a name of its own. -/
theorem Renders.name_ne (hr : Renders env text (pre ++ m :: post)) :
    ∀ m' ∈ pre, m'.name ≠ m.name := by
  have hnodup : ((pre ++ m :: post).map fun m => decode m.name).Nodup :=
    hr.names.nodup_iff.mpr (by decide)
  intro m' hm' heq
  rw [List.map_append, List.map_cons] at hnodup
  refine (List.disjoint_of_nodup_append hnodup) (List.mem_map_of_mem hm') ?_
  rw [heq]
  exact List.mem_cons_self

/-- The first string in the text that is the name of a member is that name. -/
theorem Renders.findBehind_name (hr : Renders env text (pre ++ m :: post))
    (hs : Simple text (pre ++ m :: post)) : ∃ rest, findBehind (quoted m.name) text =
      some (m.after ++ ':' :: (m.element.full ++ rest)) ∧
        ∃ c more, rest = c :: more ∧ (c = ',' ∨ c = '}') := by
  obtain ⟨before, after, hbefore, _, htext⟩ := hr.text
  have hmem : m ∈ pre ++ m :: post := List.mem_append_right _ List.mem_cons_self
  obtain ⟨hletter, hquote⟩ := beginsWithLetter_name _ (hr.name_mem hs hmem)
  have hpassed : ∀ m' ∈ pre, Passed m.name m'.full := by
    intro m' hm'
    have hmem' : m' ∈ pre ++ m :: post := List.mem_append_left _ hm'
    have hfull := hr.plain_full hs hmem'
    refine passed_member hletter (hr.spaced m' hmem') hfull (hr.name_ne m' hm') ?_
    refine passed_value hletter (hr.flat hs hmem') (hr.spaced m' hmem').element.written
      (fun hc => hfull (Member.mem_full_text hc)) ?_ (hs.digits m' hmem')
    exact (List.pairwise_append.mp hs.unshadowed).2.2 m' hm' m List.mem_cons_self
  have hbrace : IsGap '{' := ⟨by decide, by decide⟩
  have hpre : Passed m.name (before ++ '{' :: (ahead pre ++ m.before)) := by
    refine (passed_of_spaces hletter hbefore).append (.gap_cons hletter hbrace ?_)
    exact (passed_ahead hletter hpassed).append (passed_of_spaces hletter (hr.spaced m hmem).before)
  have hshape : text = (before ++ '{' :: (ahead pre ++ m.before)) ++ '"' :: (m.name ++ '"' ::
      (m.after ++ ':' :: (m.element.full ++ (behind post ++ '}' :: after)))) := by
    rw [htext, enclosed_split]
    simp [Member.full]
  refine ⟨behind post ++ '}' :: after, ?_, ?_⟩
  · have hne : m.name ≠ [] := by
      obtain ⟨n, hn, _⟩ := hletter
      intro hnil
      rw [hnil] at hn
      cases hn
    rw [hshape, findBehind_quoted hpre hne hquote]
  · cases post with
    | nil => exact ⟨'}', after, rfl, Or.inr rfl⟩
    | cons m' post => exact ⟨',', _, rfl, Or.inl rfl⟩

/-- Behind the next colon stands the member's value. -/
theorem Renders.valueOf_name (hr : Renders env text (pre ++ m :: post))
    (hs : Simple text (pre ++ m :: post)) {t : Text} (ht : m.element.text = c :: t)
    (hc : isWhitespace c = false) : ∃ rest, valueOf text m.name =
      some (m.element.text ++ (m.element.after ++ rest)) ∧
        ∃ d more, rest = d :: more ∧ (d = ',' ∨ d = '}') := by
  obtain ⟨rest, hfind, hrest⟩ := hr.findBehind_name hs
  have hm := hr.spaced m (List.mem_append_right _ List.mem_cons_self)
  refine ⟨rest, ?_, hrest⟩
  unfold valueOf
  rw [hfind, Option.bind_eq_bind, Option.bind_some,
    findBehind_char (space_not_mem hm.after (by decide)), Option.bind_some]
  unfold Element.full
  rw [List.append_assoc, List.append_assoc, ht, List.cons_append,
    trimStart_spaces hm.element.before hc]
  rfl

/-- A string member is read. -/
theorem Renders.extract_string (hr : Renders env text ms) (hs : Simple text ms)
    (hname : name ∈ ["id".toList, "headers".toList, "body".toList, "timeout_ms".toList])
    {value : Text} (hvalue : ∀ m ∈ ms, decode m.name = name → IsString value m.element.value) :
    extractJsonString text name = some value := by
  obtain ⟨m, hm, hdecode⟩ := List.mem_map.mp (hr.names.mem_iff.mpr hname)
  obtain ⟨raw, hraw, hstands⟩ := hvalue m hm hdecode
  have hfull := hr.plain_full hs hm
  have hwritten := (hr.spaced m hm).element.written
  rw [hraw] at hwritten
  obtain ⟨htext, hquote, hbs⟩ := str_text hwritten fun hc => hfull (Member.mem_full_text hc)
  rw [decode_of_plain hbs] at hstands
  have hown : m.name = name := (hr.decode_name hs hm).symm.trans hdecode
  obtain ⟨pre, post, rfl⟩ := List.append_of_mem hm
  obtain ⟨rest, hvalueOf, _⟩ := hr.valueOf_name hs htext (show isWhitespace '"' = false by decide)
  unfold extractJsonString
  rw [← hown, hvalueOf, htext, Option.bind_eq_bind, Option.bind_some]
  have hshape : '"' :: raw ++ ['"'] ++ (m.element.after ++ rest) =
      '"' :: (raw ++ '"' :: (m.element.after ++ rest)) := by simp
  rw [hshape, ← hstands]
  change (find ['"'] (raw ++ '"' :: (m.element.after ++ rest))).map (·.1) = some raw
  rw [find_char hquote]
  rfl

theorem parseU64_toNat {n : UInt64} {digits : Text} (hne : digits ≠ [])
    (h : digitsValue digits = n.toNat) : parseU64 digits = some n := by
  have hval : Nat.ofDigitChars 10 digits 0 = n.toNat := h
  unfold parseU64
  rw [hval, if_pos ⟨hne, n.toNat_lt⟩, UInt64.ofNat_toNat]

theorem not_isWhitespace_of_isDigit (hc : c.isDigit = true) : isWhitespace c = false := by
  refine Bool.eq_false_iff.mpr fun hw => ?_
  have hdigit : 48 ≤ c.val.toNat ∧ c.val.toNat ≤ 57 := by
    simpa [Char.isDigit, UInt32.le_iff_toNat_le] using hc
  simp only [isWhitespace, Bool.or_eq_true, Bool.and_eq_true, decide_eq_true_eq, Char.ext_iff,
    Char.le_def, UInt32.le_iff_toNat_le, ← UInt32.toNat_inj, Char.reduceVal,
    UInt32.reduceToNat] at hw
  omega

/-- Digits end at a space, a comma or a brace. -/
theorem takeWhile_isDigit_nil {w rest more : Text} {d : Char} (hw : rfc8259.Spaces w)
    (hrest : rest = d :: more) (hd : d = ',' ∨ d = '}') :
    (w ++ rest).takeWhile Char.isDigit = [] := by
  cases w with
  | nil =>
    rw [hrest, List.nil_append]
    rcases hd with rfl | rfl
    · rfl
    · rfl
  | cons c w =>
    have hc := (ne_of_space (hw c List.mem_cons_self)).2.2.2.2
    rw [List.cons_append, List.takeWhile_cons_of_neg (by rw [hc]; exact nofun)]

/-- The timeout is read. -/
theorem Renders.extract_timeout (hr : Renders env text ms) (hs : Simple text ms) :
    extractJsonU64 text "timeout_ms".toList = some env.timeoutMs := by
  obtain ⟨m, hm, hdecode⟩ := List.mem_map.mp
    (hr.names.mem_iff.mpr (by decide : "timeout_ms".toList ∈ _))
  have hvalue := hr.timeoutMs m hm hdecode
  have hdigits := hs.digits m hm _ hvalue
  have hwritten := (hr.spaced m hm).element.written
  have hafter := (hr.spaced m hm).element.after
  rw [hvalue] at hwritten
  have hown : m.name = "timeout_ms".toList := (hr.decode_name hs hm).symm.trans hdecode
  obtain ⟨pre, post, rfl⟩ := List.append_of_mem hm
  generalize hq : (env.timeoutMs.toNat : ℚ) = q at hwritten
  generalize htext : m.element.text = t at hwritten hdigits
  cases hwritten with
  | number hnumber =>
    obtain ⟨l, rfl, hl⟩ := hnumber
    obtain ⟨c, t, hct⟩ := List.exists_cons_of_ne_nil l.text_ne_nil
    have hspace : isWhitespace c = false :=
      not_isWhitespace_of_isDigit (hdigits c (by rw [hct]; exact List.mem_cons_self))
    obtain ⟨rest, hvalueOf, d, more, hrest, hd⟩ := hr.valueOf_name hs (htext.trans hct) hspace
    have hread : (l.text ++ (m.element.after ++ rest)).takeWhile Char.isDigit = l.text := by
      rw [List.takeWhile_append_of_pos hdigits, takeWhile_isDigit_nil hafter hrest hd,
        List.append_nil]
    have hnat : digitsValue l.text = env.timeoutMs.toNat := by
      have hcast := (NumberLiteral.value_of_digits hdigits).symm.trans (hl.symm.trans hq.symm)
      exact_mod_cast hcast
    unfold extractJsonU64
    rw [← hown, hvalueOf, htext, Option.bind_eq_bind, Option.bind_some, hread]
    exact parseU64_toNat l.text_ne_nil hnat

/-- The members of the headers are collected. -/
theorem Renders.extractJsonHeaders_eq (hr : Renders env text ms) (hs : Simple text ms) :
    ∃ pairs hms, IsHeaders env.headers (.object (pairs.map fun h => (h.1, .str h.2))) ∧
      AreHeaders hms pairs ∧ extractJsonHeaders text = insertAll pairs ∅ := by
  obtain ⟨m, hm, hdecode⟩ := List.mem_map.mp
    (hr.names.mem_iff.mpr (by decide : "headers".toList ∈ _))
  have hheaders := hr.headers m hm hdecode
  obtain ⟨pairs, hvalue, _⟩ := hr.headers m hm hdecode
  have hspaced := hr.spaced m hm
  have hfull := hr.plain_full hs hm
  have hbraces : ∀ h ∈ pairs, '}' ∉ h.1 ∧ '}' ∉ h.2 := by
    intro h hh
    obtain ⟨hkey, hstr⟩ := hs.braces m hm _ hvalue _ (List.mem_map_of_mem hh)
    exact ⟨hkey, hstr _ rfl⟩
  have hwritten := hspaced.element.written
  rw [hvalue] at hwritten hheaders
  obtain ⟨w, hms, hw, hall, hplain, htext⟩ :=
    areHeaders_of_written hwritten (fun hc => hfull (Member.mem_full_text hc)) hbraces
  have hown : m.name = "headers".toList := (hr.decode_name hs hm).symm.trans hdecode
  obtain ⟨pre, post, rfl⟩ := List.append_of_mem hm
  obtain ⟨rest, hfind, _⟩ := hr.findBehind_name hs
  have hopen : '{' ∉ m.after ++ ':' :: m.element.before := by
    simp [space_not_mem hspaced.after (show rfc8259.space '{' = false by decide),
      space_not_mem hspaced.element.before (show rfc8259.space '{' = false by decide)]
  have hshape : m.after ++ ':' :: (m.element.full ++ rest) =
      (m.after ++ ':' :: m.element.before) ++ '{' :: (inside w hms ++ '}' ::
        (m.element.after ++ rest)) := by
    simp [Element.full, htext]
  refine ⟨pairs, hms, hheaders, hall, ?_⟩
  unfold extractJsonHeaders
  rw [← hown, hfind, Option.bind_eq_bind, Option.bind_some, hshape, findBehind_char hopen,
    Option.bind_eq_bind, Option.bind_some, find_char hplain]
  exact collectPairs_inside hall hw

/-- The headers are read. -/
theorem Renders.extract_headers (hr : Renders env text ms) (hs : Simple text ms) (k : Text) :
    (extractJsonHeaders text).lookup k = env.headers.lookup k := by
  obtain ⟨pairs, hms, ⟨pairs', hvalue, hperm⟩, hall, hread⟩ := hr.extractJsonHeaders_eq hs
  have hsame : pairs = pairs' := by
    refine List.map_injective_iff.mpr (fun a b hab => ?_) (Value.object.inj hvalue)
    obtain ⟨hkey, hstr⟩ := Prod.mk.inj hab
    exact Prod.ext hkey (Value.str.inj hstr)
  subst hsame
  have hdecoded : (pairs.map fun h => (⟨h.1, h.2⟩ : Sigma fun _ : Text => Text)).Perm
      env.headers.entries := by
    refine (List.map_congr_left fun h hh => ?_) ▸ hperm
    obtain ⟨m, _, hname, hm⟩ := hall.exists_mem hh
    obtain ⟨hkey, hval⟩ := hm.decoded
    rw [hname] at hkey
    rw [hkey, hval]
  have hnodup : (pairs.map Prod.fst).Nodup := by
    have hkeys := hdecoded.map Sigma.fst
    rw [List.map_map] at hkeys
    exact hkeys.nodup_iff.mpr env.headers.keys_nodup
  have henv : ∀ v, env.headers.lookup k = some v ↔
      (⟨k, v⟩ : Sigma fun _ : Text => Text) ∈ env.headers.entries := fun v => AList.mem_lookup_iff
  rw [hread]
  refine Option.ext fun v => ?_
  rw [lookup_insertAll pairs hnodup, henv, ← hdecoded.mem_iff]
  simp

end Reading

/-- From every rendering that is simple the adapter reads the envelope, whatever the order of
its members and the spaces in it. -/
theorem simple_rendering_recovers (env : Envelope) (text : Text) (ms : List (Member ℚ))
    (protocol : Protocol) (hr : Renders env text ms) (hs : Simple text ms) :
    Recovers env text protocol := by
  unfold Recovers ProtocolAdapter.toNormalized
  rw [fromUtf8_encodeUtf8]
  refine ⟨_, rfl, ?_, hr.extract_headers hs, ?_, ?_, rfl⟩
  · rw [hr.extract_string hs (by decide) hr.id]
    rfl
  · rw [hr.extract_string hs (by decide) hr.body]
    rfl
  · rw [hr.extract_timeout hs]
    rfl

/-- No string of the envelope has a control character in it. -/
def Printable (env : Envelope) : Prop :=
  (∀ c ∈ env.id, ' ' ≤ c) ∧ (∀ c ∈ env.body, ' ' ≤ c) ∧
    ∀ e ∈ env.headers.entries, (∀ c ∈ e.1, ' ' ≤ c) ∧ ∀ c ∈ e.2, ' ' ≤ c

section Samples

variable {raw : Text}

def sample (body : Text) : Envelope where
  id := "a".toList
  headers := (∅ : Headers).insert "k".toList "v".toList
  body := body
  timeoutMs := 5

def sampleMember (name text : Text) (value : Value ℚ) : Member ℚ :=
  ⟨[], name, [], ⟨[], text, [], value⟩⟩

/-- The members of a request, with the timeout first. -/
def sampleMembers (raw : Text) : List (Member ℚ) :=
  [sampleMember "timeout_ms".toList "5".toList (.number 5),
    sampleMember "headers".toList "\x7b\"k\":\"v\"\x7d".toList
      (.object [("k".toList, .str "v".toList)]),
    sampleMember "id".toList "\"a\"".toList (.str "a".toList),
    sampleMember "body".toList ('"' :: raw ++ ['"']) (.str raw)]

def sampleText (raw : Text) : Text := '{' :: enclosed '}' ((sampleMembers raw).map Member.full)

theorem spaced_sampleMembers (hraw : StringBody raw) : ∀ m ∈ sampleMembers raw, m.Spaced := by
  have hletters : ∀ s ∈ ["a".toList, "k".toList, "v".toList, "timeout_ms".toList,
      "headers".toList, "id".toList, "body".toList], StringBody s := by
    intro s hs
    refine (stringBody_of_letters ?_).1
    revert s
    decide
  have hheader : ∀ m ∈ [sampleMember "k".toList "\"v\"".toList (.str "v".toList)], m.Spaced :=
    List.forall_mem_singleton.mpr
      (.compact (hletters _ (by decide)) (.str (hletters _ (by decide))))
  simp only [sampleMembers, List.forall_mem_cons]
  exact ⟨.compact (hletters _ (by decide)) (written_nat 5),
    .compact (hletters _ (by decide)) (written_object (List.cons_ne_nil _ _) hheader),
    .compact (hletters _ (by decide)) (.str (hletters _ (by decide))),
    .compact (hletters _ (by decide)) (.str hraw), fun _ h => (nomatch h)⟩

theorem decode_sampleMembers : (sampleMembers raw).map (fun m => decode m.name) =
    ["timeout_ms".toList, "headers".toList, "id".toList, "body".toList] := by
  change ["timeout_ms".toList, "headers".toList, "id".toList, "body".toList].map decode = _
  decide

theorem sample_member {P : Value ℚ → Prop} {m : Member ℚ} (hm : m ∈ sampleMembers raw)
    (h : P m.element.value) :
    ∀ m' ∈ sampleMembers raw, decode m'.name = decode m.name → P m'.element.value := by
  intro m' hm' hname
  have hnodup : ((sampleMembers raw).map fun m => decode m.name).Nodup := by
    rw [decode_sampleMembers]
    decide
  rw [List.inj_on_of_nodup_map hnodup hm' hm hname]
  exact h

theorem sample_renders (hraw : StringBody raw) :
    Renders (sample (decode raw)) (sampleText raw) (sampleMembers raw) := by
  have hnone : rfc8259.Spaces [] := fun _ hc => (nomatch hc)
  have hplain : ∀ s ∈ ["a".toList, "k".toList, "v".toList], decode s = s := by decide
  have htimeout : _ ∈ sampleMembers raw := .head _
  have hheaders : _ ∈ sampleMembers raw := .tail _ (.head _)
  have hid : _ ∈ sampleMembers raw := .tail _ (.tail _ (.head _))
  have hbody : _ ∈ sampleMembers raw := .tail _ (.tail _ (.tail _ (.head _)))
  refine ⟨⟨[], [], hnone, hnone, by simp [sampleText]⟩, spaced_sampleMembers hraw, ?_,
    sample_member hid ⟨_, rfl, hplain _ (by decide)⟩,
    sample_member hheaders ⟨[("k".toList, "v".toList)], rfl, ?_⟩,
    sample_member hbody ⟨_, rfl, rfl⟩, sample_member (P := (· = .number 5)) htimeout rfl⟩
  · rw [decode_sampleMembers]
    decide
  · rw [List.map_singleton, hplain "k".toList (by decide), hplain "v".toList (by decide)]
    exact .refl _

theorem sample_simple : Simple (sampleText ['b']) (sampleMembers ['b']) := by
  refine ⟨by decide, ?_, ?_, ?_⟩
  · simp only [sampleMembers, sampleMember, List.forall_mem_cons]
    exact ⟨fun _ _ => by decide, fun _ h => (nomatch h), fun _ h => (nomatch h),
      fun _ h => (nomatch h), fun _ hm => (nomatch hm)⟩
  · simp only [sampleMembers, sampleMember, List.forall_mem_cons]
    refine ⟨fun _ h => (nomatch h), ?_, fun _ h => (nomatch h), fun _ h => (nomatch h),
      fun _ hm => (nomatch hm)⟩
    intro fields hfields
    rw [← Value.object.inj hfields]
    refine List.forall_mem_singleton.mpr ⟨by decide, fun raw hraw => ?_⟩
    rw [← Value.str.inj hraw]
    decide
  · simp [sampleMembers, sampleMember, Mentions]

theorem compact_sample_recovers :
    Recovers (sample ['b']) (sampleText ['b']) (.rest "GET" "/") := by
  have hbody : StringBody ['b'] := (stringBody_of_letters (by decide)).1
  have hdecode : decode ['b'] = ['b'] := by decide
  exact simple_rendering_recovers _ _ _ _ (hdecode ▸ sample_renders hbody) sample_simple

/-- Of an escaped quote the backslash alone is read. -/
theorem escaped_quote_not_recovered : ¬∀ (env : Envelope) (text : Text) (ms : List (Member ℚ))
    (protocol : Protocol), Printable env → Renders env text ms → Recovers env text protocol := by
  intro h
  have hraw : StringBody ['\\', '"'] := .escape (by decide) .nil
  have hdecode : decode ['\\', '"'] = ['"'] := by decide
  have hrenders : Renders (sample ['"']) (sampleText ['\\', '"']) (sampleMembers ['\\', '"']) :=
    hdecode ▸ sample_renders hraw
  obtain ⟨r, hr, -, -, hbody, -⟩ :=
    h _ _ _ (.rest "GET" "/") ⟨by decide, by decide, by decide⟩ hrenders
  have hread : extractJsonString (sampleText ['\\', '"']) "body".toList = some ['\\'] := by decide
  unfold ProtocolAdapter.toNormalized at hr
  rw [fromUtf8_encodeUtf8] at hr
  have hsame := congrArg NormalizedRequest.body (Except.ok.inj hr)
  rw [hread, hbody] at hsame
  exact absurd (encodeUtf8_injective hsame) (by decide)

end Samples

end HelixRouter.Protocols
