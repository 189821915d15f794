import HelixRouter.Json.Members
import HelixRouter.Protocols.ProtocolAdapter

namespace HelixRouter.Protocols

open Json Texts ProtocolAdapter

/-- The object has members of this name, and their values are all like this. -/
def Has (fields : List (Text × Value ℚ)) (name : Text) (P : Value ℚ → Prop) : Prop :=
  (∃ m ∈ fields, decode m.1 = name) ∧ ∀ m ∈ fields, decode m.1 = name → P m.2

structure Carries (response : NormalizedResponse) (body : Text)
    (fields : List (Text × Value ℚ)) : Prop where
  requestId : Has fields "request_id".toList (IsString response.requestId)
  statusCode : Has fields "status_code".toList (· = .number response.statusCode.toNat)
  latencyMs : Has fields "latency_ms".toList (· = .number response.latencyMs.toNat)
  body : Has fields "body".toList (IsString body)

/-- The bytes are an object in JSON that says what the response does. -/
def Says (bytes : List UInt8) (response : NormalizedResponse) (body : Text) : Prop :=
  ∃ text fields, bytes = encodeUtf8 text ∧ rfc8259.IsText text (.object fields) ∧
    Carries response body fields

variable {t u v body id : Text} {response : NormalizedResponse} {targetProtocol : Protocol}

section Escaping

@[simp] theorem escapeQuotes_nil : escapeQuotes [] = [] := rfl

theorem escapeQuotes_quote : escapeQuotes ('"' :: t) = '\\' :: '"' :: escapeQuotes t := rfl

theorem escapeQuotes_cons {c : Char} (hc : c ≠ '"') :
    escapeQuotes (c :: t) = c :: escapeQuotes t := by
  simp [escapeQuotes, hc]

theorem mem_escapeQuotes {c : Char} (hc : c ∈ t) : c ∈ escapeQuotes t := by
  refine List.mem_flatMap.mpr ⟨c, hc, ?_⟩
  split
  · rename_i h
    simp [h]
  · exact List.mem_singleton_self c

/-- Without backslashes of its own a text is escaped well. -/
theorem stringBody_escapeQuotes (h : ∀ c ∈ t, ' ' ≤ c ∧ c ≠ '\\') :
    StringBody (escapeQuotes t) ∧ decode (escapeQuotes t) = t := by
  unfold decode
  induction t with
  | nil => exact ⟨.nil, rfl⟩
  | cons c t ih =>
    obtain ⟨hbody, hdecode⟩ := ih fun d hd => h d (List.mem_cons_of_mem c hd)
    obtain ⟨hc, hb⟩ := h c List.mem_cons_self
    by_cases hq : c = '"'
    · subst hq
      rw [escapeQuotes_quote]
      refine ⟨.escape (by decide) hbody, ?_⟩
      have hpieces : pieces ('\\' :: '"' :: escapeQuotes t) =
          .char '"' :: pieces (escapeQuotes t) := by
        rw [pieces]
        · rfl
        · intro _ _ _ _ _ he
          exact absurd he (by decide)
      rw [hpieces, joinPieces, hdecode]
      rfl
    · rw [escapeQuotes_cons hq]
      refine ⟨.plain hc hq hb hbody, ?_⟩
      have hpieces : pieces (c :: escapeQuotes t) = .char c :: pieces (escapeQuotes t) := by
        rw [pieces]
        · intro _ _ _ _ _ he
          exact absurd he hb
        · intro _ _ he
          exact absurd he hb
      rw [hpieces, joinPieces, hdecode]
      rfl

theorem count_escapeQuotes : (escapeQuotes t).length = t.length + t.count '"' ∧
    (escapeQuotes t).count '"' = t.count '"' ∧
    (escapeQuotes t).count '\\' = t.count '\\' + t.count '"' := by
  induction t with
  | nil => simp
  | cons c t ih =>
    obtain ⟨hlen, hq, hb⟩ := ih
    by_cases hc : c = '"'
    · subst hc
      rw [escapeQuotes_quote]
      simp only [List.length_cons, List.count_cons_self,
        List.count_cons_of_ne (show '\\' ≠ '"' by decide),
        List.count_cons_of_ne (show '"' ≠ '\\' by decide), hlen, hq, hb]
      exact ⟨by omega, trivial, by omega⟩
    · rw [escapeQuotes_cons hc]
      simp only [List.length_cons, List.count_cons_of_ne hc, hlen, hq, hb, List.count_cons]
      exact ⟨by omega, trivial, by omega⟩

/-- A string that an escaped text is, and that stands for the text, has no backslash in it but
those of the escaping. -/
theorem not_mem_of_decode_escapeQuotes (h : StringBody (escapeQuotes t))
    (hd : decode (escapeQuotes t) = t) : ∀ c ∈ t, ' ' ≤ c ∧ c ≠ '\\' := by
  have hweight := h.decode_weight
  obtain ⟨hlen, hq, hb⟩ := count_escapeQuotes (t := t)
  rw [hd, hlen, hq, hb] at hweight
  have hnone : t.count '\\' = 0 := by omega
  intro c hc
  refine ⟨h.ge_space c (mem_escapeQuotes hc), ?_⟩
  rintro rfl
  exact List.count_eq_zero.mp hnone hc

/-- Behind a quote an escaped text goes on as one. -/
theorem escapeQuotes_eq_append_quote (h : escapeQuotes t = u ++ '"' :: v) :
    ∃ w, v = escapeQuotes w := by
  induction t generalizing u with
  | nil => exact absurd h.symm (by simp)
  | cons c t ih =>
    by_cases hc : c = '"'
    · subst hc
      rw [escapeQuotes_quote] at h
      cases u with
      | nil => exact absurd (List.cons.inj h).1 (by decide)
      | cons d u =>
        cases u with
        | nil => exact ⟨t, (List.cons.inj (List.cons.inj h).2).2.symm⟩
        | cons e u => exact ih (List.cons.inj (List.cons.inj h).2).2
    · rw [escapeQuotes_cons hc] at h
      cases u with
      | nil => exact absurd (List.cons.inj h).1 hc
      | cons d u => exact ih (List.cons.inj h).2

/-- A quote that has neither a backslash nor a quote anywhere before it stands behind an
escaped text, not in it. -/
theorem eq_of_escapeQuotes_append (h : escapeQuotes t ++ '"' :: id = u ++ '"' :: v)
    (hu : '\\' ∉ u ∧ '"' ∉ u) : id = v := by
  induction t generalizing u with
  | nil =>
    cases u with
    | nil => exact (List.cons.inj h).2
    | cons d u =>
      obtain rfl := (List.cons.inj h).1
      exact absurd List.mem_cons_self hu.2
  | cons c t ih =>
    by_cases hc : c = '"'
    · subst hc
      cases u with
      | nil => exact absurd (List.cons.inj h).1 (by decide)
      | cons d u =>
        obtain rfl := (List.cons.inj h).1
        exact absurd List.mem_cons_self hu.1
    · rw [escapeQuotes_cons hc] at h
      cases u with
      | nil => exact absurd (List.cons.inj h).1 hc
      | cons d u =>
        exact ih (List.cons.inj h).2
          ⟨fun hm => hu.1 (List.mem_cons_of_mem d hm), fun hm => hu.2 (List.mem_cons_of_mem d hm)⟩

end Escaping

section Members

/-- The members that a response is meant to have. -/
def members (response : NormalizedResponse) (tag body : Text) : List (Member ℚ) :=
  [⟨[], "request_id".toList, [],
      ⟨[], '"' :: response.requestId ++ ['"'], [], .str response.requestId⟩⟩,
    ⟨[], "protocol".toList, [], ⟨[], '"' :: tag ++ ['"'], [], .str tag⟩⟩,
    ⟨[], "status_code".toList, [], ⟨[], Nat.toDigits 10 response.statusCode.toNat, [],
      .number response.statusCode.toNat⟩⟩,
    ⟨[], "latency_ms".toList, [], ⟨[], Nat.toDigits 10 response.latencyMs.toNat, [],
      .number response.latencyMs.toNat⟩⟩,
    ⟨[], "body".toList, [],
      ⟨[], '"' :: escapeQuotes body ++ ['"'], [], .str (escapeQuotes body)⟩⟩]

theorem responseText_eq (hbody : response.body = encodeUtf8 body) :
    responseText response targetProtocol =
      '{' :: enclosed '}' ((members response targetProtocol.tag body).map Member.full) := by
  unfold responseText members
  rw [hbody, fromUtf8Lossy_encodeUtf8]
  dsimp only
  generalize Nat.toDigits 10 response.statusCode.toNat = statusCode
  generalize Nat.toDigits 10 response.latencyMs.toNat = latencyMs
  generalize escapeQuotes body = escaped
  simp only [List.map_cons, List.map_nil, enclosed, Member.full, Element.full, List.nil_append,
    List.append_nil, List.append_assoc, List.cons_append]
  rfl

theorem letters_tag : ∀ c ∈ targetProtocol.tag, c.isAlpha = true ∨ c = '_' := by
  cases targetProtocol with
  | rest _ _ => exact (by decide : ∀ c ∈ "rest".toList, c.isAlpha = true ∨ c = '_')
  | grpc _ _ => exact (by decide : ∀ c ∈ "grpc".toList, c.isAlpha = true ∨ c = '_')
  | graphQl _ _ => exact (by decide : ∀ c ∈ "graphql".toList, c.isAlpha = true ∨ c = '_')

theorem isDigit_toDigits {n : Nat} : ∀ c ∈ Nat.toDigits 10 n, c.isDigit = true :=
  fun _ hc => Nat.isDigit_of_mem_toDigits (by decide) (by decide) hc

/-- What the fields of a response are called. -/
theorem letters_members {tag : Text} :
    ∀ m ∈ members response tag body, ∀ c ∈ m.name, c.isAlpha = true ∨ c = '_' := by
  simp only [members, List.forall_mem_cons]
  exact ⟨by decide, by decide, by decide, by decide, by decide, fun _ hm => (nomatch hm)⟩

theorem nodup_members {tag : Text} : ((members response tag body).map (·.name)).Nodup := by
  change ["request_id".toList, "protocol".toList, "status_code".toList, "latency_ms".toList,
    "body".toList].Nodup
  decide

theorem has_member {tag : Text} {P : Value ℚ → Prop} {m : Member ℚ}
    (hm : m ∈ members response tag body) (h : P m.element.value) :
    Has ((members response tag body).map fun m => (m.name, m.element.value)) m.name P :=
  named_of_mem nodup_members letters_members hm h

/-- Without quotes and backslashes in the one and backslashes in the other, and without control
characters, a request's identifier and a body get into the response as they are. -/
theorem says_of_plain (hbody : response.body = encodeUtf8 body)
    (hid : ∀ c ∈ response.requestId, ' ' ≤ c ∧ c ≠ '"' ∧ c ≠ '\\')
    (hb : ∀ c ∈ body, ' ' ≤ c ∧ c ≠ '\\') :
    Says (fromNormalized response targetProtocol) response body := by
  have hnone : rfc8259.Spaces [] := fun _ h => (nomatch h)
  have hidq : '"' ∉ response.requestId := fun hm => (hid _ hm).2.1 rfl
  have hidb : '\\' ∉ response.requestId := fun hm => (hid _ hm).2.2 rfl
  have hidbody : StringBody response.requestId :=
    .of_plain (fun c hc => (hid c hc).1) hidq hidb
  obtain ⟨hescaped, hdecode⟩ := stringBody_escapeQuotes hb
  have hname : ∀ m ∈ members response targetProtocol.tag body, StringBody m.name :=
    fun m hm => (stringBody_of_letters (letters_members m hm)).1
  have hspaced : ∀ m ∈ members response targetProtocol.tag body, m.Spaced := by
    simp only [members, List.forall_mem_cons] at hname ⊢
    exact ⟨.compact hname.1 (.str hidbody),
      .compact hname.2.1 (.str (stringBody_of_letters letters_tag).1),
      .compact hname.2.2.1 (written_nat _), .compact hname.2.2.2.1 (written_nat _),
      .compact hname.2.2.2.2.1 (.str hescaped), fun _ hm => (nomatch hm)⟩
  have hne : members response targetProtocol.tag body ≠ [] := List.cons_ne_nil _ _
  have hobject := written_object hne hspaced
  rw [← responseText_eq hbody] at hobject
  refine ⟨_, _, rfl, ⟨[], _, [], (List.append_nil _).symm, hnone, hnone, hobject⟩, ?_⟩
  have hidMember : _ ∈ members response targetProtocol.tag body := .head _
  have hstatus : _ ∈ members response targetProtocol.tag body := .tail _ (.tail _ (.head _))
  have hlatency : _ ∈ members response targetProtocol.tag body :=
    .tail _ (.tail _ (.tail _ (.head _)))
  have hbodyMember : _ ∈ members response targetProtocol.tag body :=
    .tail _ (.tail _ (.tail _ (.tail _ (.head _))))
  exact ⟨has_member hidMember ⟨_, rfl, decode_of_plain hidb⟩, has_member hstatus rfl,
    has_member hlatency rfl, has_member hbodyMember ⟨_, rfl, hdecode⟩⟩

end Members

section Walk

variable {raw w s rest : Text} {c : Char}

/-- A body that is said is its own escaped text: a quote that ended it would leave another one
behind it with a backslash in front. -/
theorem body_escaped {e : Element ℚ} {ms : List (Member ℚ)} {after : Text} (he : e.Spaced)
    (hms : ∀ m ∈ ms, Member.Spaced m)
    (h : raw ++ '"' :: (e.after ++ (remainder '}' (ms.map Member.full) ++ after)) =
      escapeQuotes body ++ '"' :: ['}']) (hafter : rfc8259.Spaces after) :
    raw = escapeQuotes body := by
  have hclean : ∀ {w : Text}, rfc8259.Spaces w → '\\' ∉ w ∧ '"' ∉ w := by
    intro w hw
    exact ⟨fun hm => (ne_of_space (hw _ hm)).2.2.2.1 rfl,
      fun hm => (ne_of_space (hw _ hm)).2.2.1 rfl⟩
  rcases List.append_eq_append_iff.mp h with ⟨u, hu, hmore⟩ | ⟨u, rfl, hmore⟩
  · cases u with
    | nil => exact (List.append_nil raw).symm.trans hu.symm
    | cons d u =>
      obtain ⟨rfl, hrest⟩ := List.cons.inj hmore
      obtain ⟨t, rfl⟩ := escapeQuotes_eq_append_quote hu
      cases ms with
      | nil =>
        have hquote : '"' ∈ e.after ++ '}' :: after := by
          rw [show e.after ++ '}' :: after = _ from hrest]
          exact List.mem_append_right _ List.mem_cons_self
        rcases List.mem_append.mp hquote with hm | hm
        · exact absurd hm (hclean he.after).2
        · rcases List.mem_cons.mp hm with heq | hm
          · exact absurd heq (by decide)
          · exact absurd hm (hclean hafter).2
      | cons m ms =>
        have hm := hms m List.mem_cons_self
        have hsplit : escapeQuotes t ++ '"' :: ['}'] = (e.after ++ ',' :: m.before) ++ '"' ::
            (m.name ++ '"' :: (m.after ++ ':' :: (m.element.full ++
              (remainder '}' (ms.map Member.full) ++ after)))) := by
          refine hrest.symm.trans ?_
          rw [List.map_cons, remainder, enclosed_cons]
          simp [Member.full]
        have hbrace := eq_of_escapeQuotes_append hsplit (by
          simp [(hclean he.after), (hclean hm.before)])
        have hquote : '"' ∈ ['}'] := by
          rw [hbrace]
          exact List.mem_append_right _ List.mem_cons_self
        exact absurd hquote (by decide)
  · cases u with
    | nil => exact List.append_nil _
    | cons d u =>
      obtain ⟨rfl, hrest⟩ := List.cons.inj hmore
      have hquote : '"' ∈ ['}'] := by
        rw [show ['}'] = _ from hrest]
        exact List.mem_append_right _ List.mem_cons_self
      exact absurd hquote (by decide)

theorem Has.decode_of_member {ms : List (Member ℚ)} {m : Member ℚ} {name text : Text}
    (h : Has (ms.map fun m => (m.name, m.element.value)) name (IsString text)) (hm : m ∈ ms)
    (hname : m.name = name) (hplain : '\\' ∉ name) (hvalue : m.element.value = .str raw) :
    decode raw = text := by
  obtain ⟨raw', hraw', hdecode⟩ := Named.value h hm hname hplain
  obtain rfl := Value.str.inj (hvalue.symm.trans hraw')
  exact hdecode

/-- Behind the identifier the object goes on to the body. -/
theorem body_of_tail {ms : List (Member ℚ)} {after : Text} {statusCode latencyMs : Nat}
    (hms : ∀ m ∈ ms, Member.Spaced m) (hafter : rfc8259.Spaces after)
    (h : remainder '}' (ms.map Member.full) ++ after = ',' :: '"' :: ("protocol".toList ++ '"' ::
      ':' :: '"' :: (targetProtocol.tag ++ '"' :: ',' :: '"' :: ("status_code".toList ++ '"' ::
      ':' :: (Nat.toDigits 10 statusCode ++ ',' :: '"' :: ("latency_ms".toList ++ '"' ::
      ':' :: (Nat.toDigits 10 latencyMs ++ ',' :: '"' :: ("body".toList ++ '"' ::
      ':' :: '"' :: (escapeQuotes body ++ ['"', '}']))))))))) :
    ∃ m ∈ ms, m.name = "body".toList ∧ StringBody (escapeQuotes body) ∧
      m.element.value = .str (escapeQuotes body) := by
  have hname : ∀ name : Text, (∀ c ∈ name, c.isAlpha = true ∨ c = '_') → StringBody name :=
    fun name h => (stringBody_of_letters h).1
  obtain ⟨m₂, ms₂, rfl, h₂, hms₂, _, hvalue₂⟩ :=
    member_of_comma hms (hname "protocol".toList (by decide)) h
  have htail₂ := h₂.element.string_of_comma (hname _ letters_tag) hvalue₂
  obtain ⟨m₃, ms₃, rfl, h₃, hms₃, _, hvalue₃⟩ :=
    member_of_comma hms₂ (hname "status_code".toList (by decide)) htail₂
  have htail₃ := h₃.element.number_of_comma Nat.toDigits_ne_nil isDigit_toDigits
    (exists_remainder _ _) hvalue₃
  obtain ⟨m₄, ms₄, rfl, h₄, hms₄, _, hvalue₄⟩ :=
    member_of_comma hms₃ (hname "latency_ms".toList (by decide)) htail₃
  have htail₄ := h₄.element.number_of_comma Nat.toDigits_ne_nil isDigit_toDigits
    (exists_remainder _ _) hvalue₄
  obtain ⟨m₅, ms₅, rfl, h₅, hms₅, hname₅, hvalue₅⟩ :=
    member_of_comma hms₄ (hname "body".toList (by decide)) htail₄
  obtain ⟨raw, hraw, hvalue, hrest⟩ := h₅.element.str_of_quote hvalue₅
  have hwhole := body_escaped h₅.element hms₅ hrest hafter
  subst hwhole
  exact ⟨m₅, by simp, hname₅, hraw, hvalue⟩

/-- A response is said by members of its own, and those are plain. -/
theorem plain_of_said (hbody : response.body = encodeUtf8 body)
    (h : Says (fromNormalized response targetProtocol) response body) :
    (∀ c ∈ response.requestId, ' ' ≤ c ∧ c ≠ '"' ∧ c ≠ '\\') ∧ ∀ c ∈ body, ' ' ≤ c ∧ c ≠ '\\' := by
  obtain ⟨text, fields, hbytes, ⟨before, t, after, rfl, hbefore, hafter, hw⟩, hc⟩ := h
  have htext := encodeUtf8_injective hbytes
  rw [responseText_eq hbody, List.append_assoc] at htext
  obtain ⟨_, htext⟩ := spaces_eq_nil hbefore (by decide) htext.symm
  simp only [members, List.map_cons, List.map_nil, enclosed, Member.full, Element.full,
    List.nil_append, List.append_nil, List.append_assoc, List.cons_append] at htext
  rcases written_object_cases hw with ⟨_, w, hspaces, rfl⟩ | ⟨m, ms, rfl, hms, rfl⟩
  · rw [List.append_assoc] at htext
    obtain ⟨_, hbrace⟩ := spaces_eq_nil hspaces (by decide) (List.cons.inj htext).2
    exact absurd (List.cons.inj hbrace).1 (by decide)
  · rw [List.cons_append, List.append_assoc] at htext
    have hm := hms m List.mem_cons_self
    have hid : StringBody "request_id".toList := (stringBody_of_letters (by decide)).1
    obtain ⟨hname, hvalue⟩ := hm.name_of_quote hid (List.cons.inj htext).2
    obtain ⟨raw, hraw, hstr, hrest⟩ := hm.element.str_of_quote hvalue
    have hdecode := hc.requestId.decode_of_member List.mem_cons_self hname (by decide) hstr
    have hwhole : raw = response.requestId := by
      obtain ⟨c, s, hsep, hcs⟩ := exists_remainder (ms.map Member.full) after
      rw [hsep] at hrest
      exact hraw.eq_of_decode hdecode hm.element.after hcs (by decide) hrest
    subst hwhole
    have htail := (List.cons.inj (List.append_cancel_left hrest)).2
    obtain ⟨_, htail⟩ := spaces_eq_nil hm.element.after (by decide) htail
    obtain ⟨m₅, hm₅, hname₅, hraw₅, hvalue₅⟩ :=
      body_of_tail (fun m' h => hms m' (List.mem_cons_of_mem m h)) hafter htail
    have hb := hc.body.decode_of_member (List.mem_cons_of_mem m hm₅) hname₅ (by decide) hvalue₅
    refine ⟨fun c hc => ?_, not_mem_of_decode_escapeQuotes hraw₅ hb⟩
    have hweight := hraw.decode_weight
    rw [hdecode] at hweight
    refine ⟨hraw.ge_space c hc, ?_, ?_⟩
    · rintro rfl
      have := List.count_pos_iff.mpr hc
      omega
    · rintro rfl
      have := List.count_pos_iff.mpr hc
      omega

end Walk

/-- A response is an object in JSON that says what it does exactly where its identifier has no
quotes, backslashes and control characters, and its body no backslashes and control characters. -/
theorem response_says_iff (response : NormalizedResponse) (targetProtocol : Protocol) (body : Text)
    (hbody : response.body = encodeUtf8 body) :
    Says (fromNormalized response targetProtocol) response body ↔
      (∀ c ∈ response.requestId, ' ' ≤ c ∧ c ≠ '"' ∧ c ≠ '\\') ∧
        ∀ c ∈ body, ' ' ≤ c ∧ c ≠ '\\' :=
  ⟨plain_of_said hbody, fun h => says_of_plain hbody h.1 h.2⟩

/-- A response with two lines in its body. -/
def twoLines : NormalizedResponse where
  requestId := "r".toList
  statusCode := 200
  headers := ∅
  body := encodeUtf8 "a\nb".toList
  latencyMs := 12

theorem one_line_says : Says
    (fromNormalized { twoLines with body := encodeUtf8 "say \"a\"".toList } (.rest "GET" "/"))
    { twoLines with body := encodeUtf8 "say \"a\"".toList } "say \"a\"".toList :=
  (response_says_iff _ _ _ rfl).mpr ⟨by decide, by decide⟩

/-- The line feed stands in the object as it is. -/
theorem two_lines_not_said : ¬∀ (response : NormalizedResponse) (targetProtocol : Protocol)
    (body : Text), response.body = encodeUtf8 body →
    Says (fromNormalized response targetProtocol) response body := by
  intro h
  have hplain := plain_of_said rfl (h twoLines (.rest "GET" "/") "a\nb".toList rfl)
  exact absurd hplain.2 (by decide)

end HelixRouter.Protocols
