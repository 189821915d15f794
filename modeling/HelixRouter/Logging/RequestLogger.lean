import HelixRouter.Containers.Greatest
import HelixRouter.Json.Members
import Mathlib.Algebra.Order.BigOperators.Group.List
import Mathlib.Data.List.Induction

namespace HelixRouter.Logging

open Json Texts

inductive LogLevel where
  | debug
  | info
  | warn
  | error
  deriving DecidableEq

def LogLevel.rank : LogLevel → Nat
  | debug => 0
  | info => 1
  | warn => 2
  | error => 3

def LogLevel.text : LogLevel → Text
  | debug => "DEBUG".toList
  | info => "INFO".toList
  | warn => "WARN".toList
  | error => "ERROR".toList

structure RequestLog where
  requestId : Text
  method : Text
  path : Text
  timestampUnix : UInt64
  deriving DecidableEq

structure ResponseLog where
  statusCode : UInt16
  latencyMs : UInt64
  deriving DecidableEq

structure LogEntry where
  request : RequestLog
  response : Option ResponseLog
  level : LogLevel
  tags : List Text
  deriving DecidableEq

def maxEntries : Nat := 5000

/-- The buffer runs from its oldest entry to its newest. -/
structure RequestLogger where
  buffer : List LogEntry := []
  capacity : Nat := maxEntries
  minLevel : LogLevel

namespace RequestLogger

def log (l : RequestLogger) (entry : LogEntry) : RequestLogger :=
  if entry.level.rank < l.minLevel.rank then l
  else
    let buf := if l.capacity ≤ l.buffer.length then l.buffer.tail else l.buffer
    { l with buffer := buf ++ [entry] }

def orNull (n : Option Nat) : Text := (n.map (Nat.toDigits 10)).getD "null".toList

def jsonLine (entry : LogEntry) : Text :=
  let level := entry.level.text
  let status := orNull (entry.response.map (·.statusCode.toNat))
  let latency := orNull (entry.response.map (·.latencyMs.toNat))
  let tags := [','].intercalate (entry.tags.map fun t => "\"".toList ++ t ++ "\"".toList)
  "\x7b\"id\":\"".toList ++ entry.request.requestId ++
    "\",\"method\":\"".toList ++ entry.request.method ++
    "\",\"path\":\"".toList ++ entry.request.path ++
    "\",\"level\":\"".toList ++ level ++
    "\",\"status\":".toList ++ status ++
    ",\"latency_ms\":".toList ++ latency ++
    ",\"ts\":".toList ++ Nat.toDigits 10 entry.request.timestampUnix.toNat ++
    ",\"tags\":[".toList ++ tags ++ "]\x7d\n".toList

def exportJsonLines (l : RequestLogger) : Text := l.buffer.flatMap jsonLine

/-- The logger once these entries were logged. -/
def logged (minLevel : LogLevel) (entries : List LogEntry) : RequestLogger :=
  entries.foldl log { minLevel := minLevel }

end RequestLogger

/-- The last entries at or above the level, as many as there is room for. -/
def kept (minLevel : LogLevel) (entries : List LogEntry) : List LogEntry :=
  let passed := entries.filter fun e => decide (minLevel.rank ≤ e.level.rank)
  passed.drop (passed.length - maxEntries)

def numberOrNull : Option Nat → Value ℚ
  | some n => .number n
  | none => .null

structure Describes (entry : LogEntry) (fields : List (Text × Value ℚ)) : Prop where
  id : Named fields "id".toList (IsString entry.request.requestId)
  method : Named fields "method".toList (IsString entry.request.method)
  path : Named fields "path".toList (IsString entry.request.path)
  level : Named fields "level".toList (IsString entry.level.text)
  status : Named fields "status".toList
    (· = numberOrNull (entry.response.map (·.statusCode.toNat)))
  latencyMs : Named fields "latency_ms".toList
    (· = numberOrNull (entry.response.map (·.latencyMs.toNat)))
  ts : Named fields "ts".toList (· = .number entry.request.timestampUnix.toNat)
  tags : Named fields "tags".toList (AreStrings entry.tags)

/-- The line is an object in JSON that describes the entry. -/
def Tells (line : Text) (entry : LogEntry) : Prop :=
  ∃ fields, rfc8259.IsText line (.object fields) ∧ Describes entry fields

/-- The text is one line for each entry, in their order. -/
def TellsEach (out : Text) (entries : List LogEntry) : Prop :=
  ∃ lines : List Text, out = lines.flatMap (· ++ ['\n']) ∧ (∀ line ∈ lines, '\n' ∉ line) ∧
    List.Forall₂ Tells lines entries

/-- The buffer holds the last entries, and its export tells them. -/
def ExportsFaithfully (minLevel : LogLevel) (entries : List LogEntry) : Prop :=
  (RequestLogger.logged minLevel entries).buffer = kept minLevel entries ∧
    TellsEach (RequestLogger.logged minLevel entries).exportJsonLines (kept minLevel entries)

/-- Strings that can stand between quotes as they are. -/
structure LogEntry.Quotable (entry : LogEntry) : Prop where
  requestId : Plain entry.request.requestId
  method : Plain entry.request.method
  path : Plain entry.request.path
  tags : ∀ t ∈ entry.tags, Plain t

open Json Texts RequestLogger

variable {entry : LogEntry} {entries : List LogEntry} {minLevel : LogLevel} {lines : List Text}
  {fields : List (Text × Value ℚ)} {n : Option Nat}

section Buffer

theorem logged_concat : logged minLevel (entries ++ [entry]) =
    (logged minLevel entries).log entry := by
  unfold logged
  rw [List.foldl_append]
  rfl

theorem logged_keeps : (logged minLevel entries).capacity = maxEntries ∧
    (logged minLevel entries).minLevel = minLevel := by
  induction entries using List.reverseRecOn with
  | nil => exact ⟨rfl, rfl⟩
  | append_singleton entries entry ih =>
    rw [logged_concat]
    unfold log
    split
    · exact ih
    · exact ih

/-- The last elements of a list that has grown by one. -/
theorem drop_concat {α : Type} (l : List α) (a : α) {room : Nat} (hroom : 0 < room) :
    (l ++ [a]).drop (l.length + 1 - room) =
      (if room ≤ (l.drop (l.length - room)).length then (l.drop (l.length - room)).tail
        else l.drop (l.length - room)) ++ [a] := by
  rw [List.length_drop]
  split
  · rename_i hfull
    have hnext : l.length + 1 - room = l.length - room + 1 := by omega
    rw [List.tail_drop, hnext, List.drop_append_of_le_length (by omega)]
  · rename_i hshort
    have hall : l.length + 1 - room = 0 ∧ l.length - room = 0 := by omega
    rw [hall.1, hall.2, List.drop_zero, List.drop_zero]

/-- The ring buffer drops its oldest entry for a new one once it is full. -/
theorem logged_buffer : (logged minLevel entries).buffer = kept minLevel entries := by
  induction entries using List.reverseRecOn with
  | nil => simp [logged, kept]
  | append_singleton entries entry ih =>
    obtain ⟨hcapacity, hlevel⟩ := @logged_keeps entries minLevel
    rw [logged_concat]
    unfold log
    rw [hcapacity, hlevel]
    unfold kept at ih ⊢
    rw [List.filter_append]
    split
    · rename_i hlow
      rw [List.filter_cons_of_neg (by simpa using hlow), List.filter_nil, List.append_nil]
      exact ih
    · rename_i hhigh
      rw [List.filter_cons_of_pos (by simpa using hhigh), List.filter_nil, ih]
      dsimp only
      rw [List.length_append, List.length_singleton]
      exact (drop_concat _ _ (by decide)).symm

end Buffer

section Lines

/-- As many lines without line feeds in them as there are line feeds are the ones that the text
was put together from. -/
theorem lines_unique {parts : List Text} (hlength : lines.length = parts.length)
    (hlines : ∀ line ∈ lines, '\n' ∉ line)
    (h : parts.flatMap (· ++ ['\n']) = lines.flatMap (· ++ ['\n'])) : parts = lines := by
  have hcount : ∀ ls : List Text, (ls.flatMap (· ++ ['\n'])).count '\n' =
      (ls.map (·.count '\n')).sum + ls.length := by
    intro ls
    induction ls with
    | nil => rfl
    | cons l ls ih =>
      simp only [List.flatMap_cons, List.count_append, ih, List.map_cons, List.sum_cons,
        List.length_cons, List.count_cons_self, List.count_nil]
      omega
  have hzero : (lines.map (·.count '\n')).sum = 0 :=
    List.sum_eq_zero fun k hk => by
      obtain ⟨line, hline, rfl⟩ := List.mem_map.mp hk
      exact List.count_eq_zero.mpr (hlines line hline)
  have hparts : ∀ part ∈ parts, '\n' ∉ part := by
    have htotal := congrArg (List.count '\n') h
    rw [hcount, hcount, hzero, hlength] at htotal
    intro part hpart
    have hle := List.single_le_sum (fun _ _ => Nat.zero_le _) _
      (List.mem_map_of_mem (f := fun part : Text => part.count '\n') hpart)
    exact List.count_eq_zero.mp (by omega)
  clear hcount hzero
  induction lines generalizing parts with
  | nil => exact List.length_eq_zero_iff.mp hlength.symm
  | cons line lines ih =>
    obtain ⟨part, parts, rfl⟩ := List.exists_cons_of_length_eq_add_one hlength.symm
    rw [List.forall_mem_cons] at hlines hparts
    simp only [List.flatMap_cons, List.append_assoc, List.singleton_append] at h
    obtain rfl := List.eq_of_append_cons hparts.1 hlines.1 h
    have hrest := (List.cons.inj (List.append_cancel_left h)).2
    rw [ih (Nat.succ.inj hlength) hlines.2 hrest hparts.2]

end Lines

section Members

/-- The members that an entry is meant to have. -/
def members (entry : LogEntry) : List (Member ℚ) :=
  [⟨[], "id".toList, [], ⟨[], quoted entry.request.requestId, [], .str entry.request.requestId⟩⟩,
    ⟨[], "method".toList, [], ⟨[], quoted entry.request.method, [], .str entry.request.method⟩⟩,
    ⟨[], "path".toList, [], ⟨[], quoted entry.request.path, [], .str entry.request.path⟩⟩,
    ⟨[], "level".toList, [], ⟨[], quoted entry.level.text, [], .str entry.level.text⟩⟩,
    ⟨[], "status".toList, [], ⟨[], orNull (entry.response.map (·.statusCode.toNat)), [],
      numberOrNull (entry.response.map (·.statusCode.toNat))⟩⟩,
    ⟨[], "latency_ms".toList, [], ⟨[], orNull (entry.response.map (·.latencyMs.toNat)), [],
      numberOrNull (entry.response.map (·.latencyMs.toNat))⟩⟩,
    ⟨[], "ts".toList, [], ⟨[], Nat.toDigits 10 entry.request.timestampUnix.toNat, [],
      .number entry.request.timestampUnix.toNat⟩⟩,
    ⟨[], "tags".toList, [], ⟨[], '[' :: enclosed ']' (entry.tags.map quoted), [],
      .array (entry.tags.map .str)⟩⟩]

def objectText (entry : LogEntry) : Text :=
  '{' :: enclosed '}' ((members entry).map Member.full)

theorem enclosed_eq_intercalate (close : Char) (ts : List Text) :
    enclosed close ts = [','].intercalate ts ++ [close] := by
  induction ts with
  | nil => rfl
  | cons t ts ih =>
    cases ts with
    | nil => simp [enclosed, List.intercalate]
    | cons u us =>
      rw [enclosed, ih]
      · simp [List.intercalate]
      · simp

theorem jsonLine_eq (entry : LogEntry) : jsonLine entry = objectText entry ++ ['\n'] := by
  have hquoted : (entry.tags.map fun t => "\"".toList ++ t ++ "\"".toList) =
      entry.tags.map quoted := rfl
  unfold jsonLine objectText members
  rw [hquoted]
  dsimp only
  generalize Nat.toDigits 10 entry.request.timestampUnix.toNat = timestamp
  generalize orNull (entry.response.map (·.statusCode.toNat)) = status
  generalize orNull (entry.response.map (·.latencyMs.toNat)) = latency
  generalize entry.level.text = level
  simp only [List.map_cons, List.map_nil, enclosed, Member.full, Element.full, quoted,
    List.nil_append, List.append_nil, List.append_assoc, List.cons_append,
    enclosed_eq_intercalate ']']
  rfl

theorem written_orNull : Written rfc8259 (numberOrNull n) (orNull n) := by
  cases n with
  | none => exact .null
  | some n => exact written_nat n

theorem toDigits_alphanum {n : Nat} : ∀ x ∈ Nat.toDigits 10 n, x.isAlphanum = true := by
  intro x hx
  rw [Char.isAlphanum, Nat.isDigit_of_mem_toDigits (by decide) (by decide) hx, Bool.or_true]

theorem orNull_word : orNull n ≠ [] ∧ ∀ x ∈ orNull n, x.isAlphanum = true := by
  cases n with
  | none => exact ⟨by decide, by decide⟩
  | some n =>
    exact ⟨Nat.toDigits_ne_nil, toDigits_alphanum⟩

theorem level_plain (level : LogLevel) : Plain level.text := by
  cases level <;> decide

theorem letters_members :
    ∀ m ∈ members entry, ∀ c ∈ m.name, c.isAlpha = true ∨ c = '_' := by
  simp only [members, List.forall_mem_cons]
  exact ⟨by decide, by decide, by decide, by decide, by decide, by decide, by decide, by decide,
    fun _ hm => (nomatch hm)⟩

theorem nodup_members : ((members entry).map (·.name)).Nodup := by
  change ["id".toList, "method".toList, "path".toList, "level".toList, "status".toList,
    "latency_ms".toList, "ts".toList, "tags".toList].Nodup
  decide

theorem not_mem_enclosed {close c : Char} {ts : List Text} (hclose : c ≠ close) (hcomma : c ≠ ',')
    (h : ∀ t ∈ ts, c ∉ t) : c ∉ enclosed close ts := by
  induction ts with
  | nil => exact fun hmem => hclose (List.mem_singleton.mp hmem)
  | cons t ts ih =>
    rw [List.forall_mem_cons] at h
    cases ts with
    | nil => simp [enclosed, h.1, hclose]
    | cons u us =>
      rw [enclosed]
      · simp [h.1, hcomma, ih h.2]
      · simp

theorem linefeed_not_mem_full {name text : Text} {v : Value ℚ} (hname : '\n' ∉ name)
    (htext : '\n' ∉ text) : '\n' ∉ (⟨[], name, [], ⟨[], text, [], v⟩⟩ : Member ℚ).full := by
  simp [Member.full, Element.full, hname, htext]

theorem linefeed_not_mem_quoted {text : Text} (h : Plain text) : '\n' ∉ quoted text := by
  have hspace : ¬ ' ' ≤ '\n' := by decide
  have htext : '\n' ∉ text := fun hm => hspace (h _ hm).1
  simp [quoted, htext]

theorem linefeed_not_mem (h : entry.Quotable) : '\n' ∉ objectText entry := by
  have hword : ∀ {word : Text}, (∀ x ∈ word, x.isAlphanum = true) → '\n' ∉ word :=
    fun hw hm => absurd (hw _ hm) (by decide)
  have htags : '\n' ∉ '[' :: enclosed ']' (entry.tags.map quoted) := by
    refine List.not_mem_cons_of_ne_of_not_mem (by decide)
      (not_mem_enclosed (by decide) (by decide) ?_)
    exact List.forall_mem_map.mpr fun t ht => linefeed_not_mem_quoted (h.tags t ht)
  refine List.not_mem_cons_of_ne_of_not_mem (by decide)
    (not_mem_enclosed (by decide) (by decide) (List.forall_mem_map.mpr ?_))
  simp only [members, List.forall_mem_cons]
  exact ⟨linefeed_not_mem_full (by decide) (linefeed_not_mem_quoted h.requestId),
    linefeed_not_mem_full (by decide) (linefeed_not_mem_quoted h.method),
    linefeed_not_mem_full (by decide) (linefeed_not_mem_quoted h.path),
    linefeed_not_mem_full (by decide) (linefeed_not_mem_quoted (level_plain _)),
    linefeed_not_mem_full (by decide) (hword orNull_word.2),
    linefeed_not_mem_full (by decide) (hword orNull_word.2),
    linefeed_not_mem_full (by decide) (hword toDigits_alphanum),
    linefeed_not_mem_full (by decide) htags, fun _ hm => (nomatch hm)⟩

theorem tells_of_quotable (h : entry.Quotable) : Tells (objectText entry) entry := by
  have hnone : rfc8259.Spaces [] := fun _ hc => (nomatch hc)
  have hname : ∀ m ∈ members entry, StringBody m.name :=
    fun m hm => (stringBody_of_letters (letters_members m hm)).1
  have hspaced : ∀ m ∈ members entry, m.Spaced := by
    simp only [members, List.forall_mem_cons] at hname ⊢
    obtain ⟨hid, hmethod, hpath, hlevel, hstatus, hlatency, hts, htags, -⟩ := hname
    exact ⟨.compact hid (.str h.requestId.stringBody.1),
      .compact hmethod (.str h.method.stringBody.1), .compact hpath (.str h.path.stringBody.1),
      .compact hlevel (.str (level_plain _).stringBody.1), .compact hstatus written_orNull,
      .compact hlatency written_orNull, .compact hts (written_nat _),
      .compact htags (written_strings h.tags), fun _ hm => (nomatch hm)⟩
  have hobject := written_object (List.cons_ne_nil _ _) hspaced
  refine ⟨_, ⟨[], _, [], (List.append_nil _).symm, hnone, hnone, hobject⟩, ?_⟩
  have hnamed : ∀ {m : Member ℚ} {P : Value ℚ → Prop}, m ∈ members entry → P m.element.value →
      Named ((members entry).map fun m => (m.name, m.element.value)) m.name P :=
    fun hm hP => named_of_mem nodup_members letters_members hm hP
  exact
    { id := hnamed (.head _) ⟨_, rfl, h.requestId.stringBody.2⟩
      method := hnamed (.tail _ (.head _)) ⟨_, rfl, h.method.stringBody.2⟩
      path := hnamed (.tail _ (.tail _ (.head _))) ⟨_, rfl, h.path.stringBody.2⟩
      level := hnamed (.tail _ (.tail _ (.tail _ (.head _))))
        ⟨_, rfl, (level_plain _).stringBody.2⟩
      status := hnamed (.tail _ (.tail _ (.tail _ (.tail _ (.head _))))) rfl
      latencyMs := hnamed (.tail _ (.tail _ (.tail _ (.tail _ (.tail _ (.head _)))))) rfl
      ts := hnamed (.tail _ (.tail _ (.tail _ (.tail _ (.tail _ (.tail _ (.head _))))))) rfl
      tags := hnamed
        (.tail _ (.tail _ (.tail _ (.tail _ (.tail _ (.tail _ (.tail _ (.head _))))))))
        ⟨_, rfl, forall_isString_of_plain h.tags⟩ }

/-- The object goes on from each member that is told to the next one. -/
theorem quotable_of_members {ms : List (Member ℚ)} {after : Text}
    (hms : ∀ m ∈ ms, Member.Spaced m)
    (hd : Describes entry (ms.map fun m => (m.name, m.element.value)))
    (h : remainder '}' (ms.map Member.full) ++ after =
      ',' :: enclosed '}' ((members entry).map Member.full)) : entry.Quotable := by
  have hname : ∀ name : Text, (∀ c ∈ name, c.isAlpha = true ∨ c = '_') → StringBody name :=
    fun name h => (stringBody_of_letters h).1
  simp only [members, List.map_cons, List.map_nil, enclosed, Member.full, Element.full, quoted,
    List.nil_append, List.append_nil, List.append_assoc, List.cons_append] at h
  obtain ⟨hid, m₁, ms₁, rfl, h₁⟩ := string_member hms (hname "id".toList (by decide))
    (fun m hm hsame => hd.id.value hm hsame (by decide)) (x := 'm') rfl (by decide) h
  replace hms := (List.forall_mem_cons.mp hms).2
  obtain ⟨hmethod, m₂, ms₂, rfl, h₂⟩ := string_member hms (hname "method".toList (by decide))
    (fun m hm hsame => hd.method.value (by simp [hm]) hsame (by decide)) (x := 'p') rfl
    (by decide) h₁
  replace hms := (List.forall_mem_cons.mp hms).2
  obtain ⟨hpath, m₃, ms₃, rfl, h₃⟩ := string_member hms (hname "path".toList (by decide))
    (fun m hm hsame => hd.path.value (by simp [hm]) hsame (by decide)) (x := 'l') rfl
    (by decide) h₂
  replace hms := (List.forall_mem_cons.mp hms).2
  obtain ⟨-, m₄, ms₄, rfl, h₄⟩ := string_member hms (hname "level".toList (by decide))
    (fun m hm hsame => hd.level.value (by simp [hm]) hsame (by decide)) (x := 's') rfl
    (by decide) h₃
  replace hms := (List.forall_mem_cons.mp hms).2
  obtain ⟨m₅, ms₅, rfl, h₅⟩ :=
    word_member hms (hname "status".toList (by decide)) orNull_word.1 orNull_word.2 h₄
  replace hms := (List.forall_mem_cons.mp hms).2
  obtain ⟨m₆, ms₆, rfl, h₆⟩ :=
    word_member hms (hname "latency_ms".toList (by decide)) orNull_word.1 orNull_word.2 h₅
  replace hms := (List.forall_mem_cons.mp hms).2
  obtain ⟨m₇, ms₇, rfl, h₇⟩ :=
    word_member hms (hname "ts".toList (by decide)) Nat.toDigits_ne_nil toDigits_alphanum h₆
  replace hms := (List.forall_mem_cons.mp hms).2
  have htags := strings_member hms (hname "tags".toList (by decide))
    (fun m hm hsame => hd.tags.value (by simp [hm]) hsame (by decide)) h₇
  exact ⟨hid, hmethod, hpath, htags⟩

theorem quotable_of_tells (h : Tells (objectText entry) entry) : entry.Quotable := by
  obtain ⟨fields, ⟨before, t, after, htext, hbefore, hafter, hw⟩, hd⟩ := h
  rw [List.append_assoc] at htext
  obtain ⟨_, htext⟩ := spaces_eq_nil hbefore (by decide) htext.symm
  rcases written_object_cases hw with ⟨_, w, hspaces, rfl⟩ | ⟨m, ms, rfl, hms, rfl⟩
  · rw [List.append_assoc] at htext
    obtain ⟨_, hbrace⟩ := spaces_eq_nil hspaces (by decide) (List.cons.inj htext).2
    exact absurd (List.cons.inj hbrace).1 (by decide)
  · refine @quotable_of_members entry (m :: ms) after hms hd ?_
    rw [List.map_cons, remainder, enclosed_cons, List.cons_append, List.append_assoc]
    rw [List.cons_append, List.append_assoc] at htext
    rw [(List.cons.inj htext).2]

end Members

theorem tellsEach_iff :
    TellsEach (entries.flatMap jsonLine) entries ↔ ∀ e ∈ entries, e.Quotable := by
  have hparts : entries.flatMap jsonLine = (entries.map objectText).flatMap (· ++ ['\n']) := by
    rw [List.flatMap_map]
    exact List.flatMap_congr fun e _ => jsonLine_eq e
  constructor
  · rintro ⟨lines, hout, hlines, htells⟩
    rw [hparts] at hout
    have hlength : lines.length = (entries.map objectText).length := by
      rw [htells.length_eq, List.length_map]
    rw [← lines_unique hlength hlines hout, List.forall₂_map_left_iff, List.forall₂_same] at htells
    exact fun e he => quotable_of_tells (htells e he)
  · intro h
    refine ⟨entries.map objectText, hparts,
      List.forall_mem_map.mpr fun e he => linefeed_not_mem (h e he), ?_⟩
    rw [List.forall₂_map_left_iff, List.forall₂_same]
    exact fun e he => tells_of_quotable (h e he)

/-- The export tells what was logged exactly where every string of an entry that is kept can
stand between quotes as it is. -/
theorem exportsFaithfully_iff (minLevel : LogLevel) (entries : List LogEntry) :
    ExportsFaithfully minLevel entries ↔ ∀ e ∈ kept minLevel entries, e.Quotable := by
  unfold ExportsFaithfully exportJsonLines
  rw [logged_buffer, and_iff_right rfl]
  exact tellsEach_iff

/-- A path that ends its string and goes on with a level of its own. -/
def forgedLevel : LogEntry where
  request := ⟨"r".toList, "GET".toList, "/\",\"level\":\"ERROR".toList, 0⟩
  response := none
  level := .info
  tags := []

theorem forgedLevel_told_wrong : ¬ExportsFaithfully .debug [forgedLevel] := by
  rintro ⟨-, htells⟩
  exact absurd ((tellsEach_iff.mp htells) forgedLevel (List.mem_singleton_self _)).path (by decide)

end HelixRouter.Logging
