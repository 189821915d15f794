import HelixRouter.Containers.IterationOrder
import HelixRouter.Texts.Bytes
import Mathlib.Data.List.AList

namespace HelixRouter.Tls

open Texts

def eqIgnoreAsciiCase (a b : Text) : Bool := a.map Char.toLower = b.map Char.toLower

/-- What stands behind the first dot. -/
def afterDot : Text → Option Text
  | [] => none
  | c :: t => if c = '.' then some t else afterDot t

def wildcardBase : Text → Option Text
  | '*' :: '.' :: base => some base
  | _ => none

structure TlsCertificate where
  domain : Text
  sans : List Text
  issuedAt : UInt64
  expiresAt : UInt64
  issuer : Text
  fingerprint : Text
  isWildcard : Bool
  deriving DecidableEq

namespace TlsCertificate

def isExpired (c : TlsCertificate) (currentTime : UInt64) : Bool := c.expiresAt ≤ currentTime

def commonName (c : TlsCertificate) (domain : Text) : Bool := eqIgnoreAsciiCase c.domain domain

def altName (c : TlsCertificate) (domain : Text) : Bool :=
  c.sans.any (eqIgnoreAsciiCase · domain)

def wildcardMatch (c : TlsCertificate) (domain : Text) : Bool :=
  c.isWildcard &&
    match wildcardBase c.domain, afterDot domain with
    | some base, some domainBase => eqIgnoreAsciiCase domainBase base
    | _, _ => false

def coversDomain (c : TlsCertificate) (domain : Text) : Bool :=
  c.commonName domain || c.wildcardMatch domain || c.altName domain

end TlsCertificate

structure SniMapping where
  serverName : Text
  certFingerprint : Text

structure TlsTerminator where
  certs : AList (fun _ : Text => TlsCertificate) := ∅
  sniMappings : List SniMapping := []

namespace TlsTerminator

def stored (t : TlsTerminator) : List TlsCertificate := t.certs.entries.map (·.2)

/-- Walks the certificates, with the last wildcard that was seen to fall back on. -/
def scan (serverName : Text) (currentTime : UInt64) :
    Option TlsCertificate → List TlsCertificate → Option TlsCertificate
  | fallback, [] => fallback
  | fallback, c :: rest =>
    if c.isExpired currentTime then scan serverName currentTime fallback rest
    else if c.commonName serverName then some c
    else
      let fallback := if c.isWildcard && c.coversDomain serverName then some c else fallback
      if c.altName serverName then some c else scan serverName currentTime fallback rest

/-- The certificate that the first mapping of the name goes to. -/
def mapped (t : TlsTerminator) (located : IterationOrder TlsCertificate) (serverName : Text)
    (currentTime : UInt64) : Option TlsCertificate :=
  (t.sniMappings.find? fun m => eqIgnoreAsciiCase m.serverName serverName).bind fun m =>
    (located.arrange t.stored).find? fun c =>
      c.fingerprint = m.certFingerprint && !c.isExpired currentTime

/-- The store is walked once for a mapping and once more without one. -/
def selectCertificate (t : TlsTerminator) (located scanned : IterationOrder TlsCertificate)
    (serverName : Text) (currentTime : UInt64) : Option TlsCertificate :=
  match t.mapped located serverName currentTime with
  | some c => some c
  | none => scan serverName currentTime none (scanned.arrange t.stored)

def addCertificate (t : TlsTerminator) (cert : TlsCertificate) : TlsTerminator :=
  { t with certs := t.certs.insert cert.domain cert }

end TlsTerminator

open Texts

section Names

variable {t base rest : Text}

theorem afterDot_eq_some_iff :
    afterDot t = some rest ↔ ∃ label, t = label ++ '.' :: rest ∧ '.' ∉ label := by
  induction t with
  | nil => simp [afterDot]
  | cons c t ih =>
    rw [afterDot]
    split
    · rename_i hc
      subst hc
      constructor
      · rintro ⟨⟩
        exact ⟨[], rfl, List.not_mem_nil⟩
      · rintro ⟨label, heq, hlabel⟩
        cases label with
        | nil => exact congrArg some (List.cons.inj heq).2
        | cons d label => exact absurd (List.cons.inj heq).1 (List.ne_of_not_mem_cons hlabel)
    · rename_i hc
      rw [ih]
      constructor
      · rintro ⟨label, rfl, hlabel⟩
        refine ⟨c :: label, rfl, ?_⟩
        rw [List.mem_cons, not_or]
        exact ⟨fun h => hc h.symm, hlabel⟩
      · rintro ⟨label, heq, hlabel⟩
        cases label with
        | nil => exact absurd (List.cons.inj heq).1 hc
        | cons d label =>
          exact ⟨label, (List.cons.inj heq).2, List.not_mem_of_not_mem_cons hlabel⟩

theorem wildcardBase_eq_some_iff : wildcardBase t = some base ↔ t = '*' :: '.' :: base := by
  constructor
  · intro h
    unfold wildcardBase at h
    split at h
    · cases h
      rfl
    · cases h
  · rintro rfl
    rfl

end Names

namespace TlsCertificate

/-- A wildcard stands for one label of the name, which is not empty. -/
def WildcardCovers (c : TlsCertificate) (name : Text) : Prop :=
  c.isWildcard ∧ ∃ base label rest, c.domain = '*' :: '.' :: base ∧ name = label ++ '.' :: rest ∧
    '.' ∉ label ∧ label ≠ [] ∧ eqIgnoreAsciiCase rest base

def Covers (c : TlsCertificate) (name : Text) : Prop :=
  c.commonName name ∨ c.altName name ∨ c.WildcardCovers name

variable {c : TlsCertificate} {name : Text}

theorem wildcardMatch_iff : c.wildcardMatch name ↔ c.isWildcard ∧
    ∃ base label rest, c.domain = '*' :: '.' :: base ∧ name = label ++ '.' :: rest ∧
      '.' ∉ label ∧ eqIgnoreAsciiCase rest base := by
  rw [wildcardMatch, Bool.and_eq_true]
  refine and_congr_right fun _ => ?_
  constructor
  · intro h
    split at h
    · rename_i base rest hbase hrest
      obtain ⟨label, hname, hlabel⟩ := afterDot_eq_some_iff.mp hrest
      exact ⟨base, label, rest, wildcardBase_eq_some_iff.mp hbase, hname, hlabel, h⟩
    · cases h
  · rintro ⟨base, label, rest, hdomain, hname, hlabel, h⟩
    rw [wildcardBase_eq_some_iff.mpr hdomain, afterDot_eq_some_iff.mpr ⟨label, hname, hlabel⟩]
    exact h

theorem WildcardCovers.wildcardMatch (h : c.WildcardCovers name) : c.wildcardMatch name := by
  obtain ⟨hflag, base, label, rest, hdomain, hname, hlabel, -, heq⟩ := h
  exact wildcardMatch_iff.mpr ⟨hflag, base, label, rest, hdomain, hname, hlabel, heq⟩

/-- What a wildcard is matched with, it covers, or the name begins with a dot. -/
theorem covers_of_wildcardMatch (h : c.wildcardMatch name) :
    c.WildcardCovers name ∨ name.head? = some '.' := by
  obtain ⟨hflag, base, label, rest, hdomain, hname, hlabel, heq⟩ := wildcardMatch_iff.mp h
  cases label with
  | nil =>
    rw [hname]
    exact Or.inr rfl
  | cons d label =>
    exact Or.inl ⟨hflag, base, d :: label, rest, hdomain, hname, hlabel, List.cons_ne_nil d label,
      heq⟩

theorem WildcardCovers.head?_ne (h : c.WildcardCovers name) : name.head? ≠ some '.' := by
  obtain ⟨-, -, label, -, -, rfl, hlabel, hne, -⟩ := h
  cases label with
  | nil => exact absurd rfl hne
  | cons d label =>
    intro hhead
    exact hlabel (Option.some.inj hhead ▸ List.mem_cons_self)

theorem coversDomain_iff :
    c.coversDomain name ↔ c.commonName name ∨ c.wildcardMatch name ∨ c.altName name := by
  rw [coversDomain, Bool.or_eq_true, Bool.or_eq_true, or_assoc]

theorem Covers.coversDomain (h : c.Covers name) : c.coversDomain name := by
  rw [coversDomain_iff]
  rcases h with hc | ha | hw
  · exact Or.inl hc
  · exact Or.inr (Or.inr ha)
  · exact Or.inr (Or.inl hw.wildcardMatch)

def named (c : TlsCertificate) (name : Text) : Bool := c.commonName name || c.altName name

theorem named_iff : c.named name ↔ c.commonName name ∨ c.altName name := by
  rw [named, Bool.or_eq_true]

theorem coversDomain_iff_named : c.coversDomain name ↔ c.named name ∨ c.wildcardMatch name := by
  rw [coversDomain_iff, named_iff, or_right_comm, or_assoc]

end TlsCertificate

namespace TlsTerminator

variable {t : TlsTerminator} {name : Text} {now : UInt64} {c : TlsCertificate}
  {located scanned : IterationOrder TlsCertificate} {l : List TlsCertificate}

def live (now : UInt64) (l : List TlsCertificate) : List TlsCertificate :=
  l.filter (!·.isExpired now)

theorem live_cons_of_expired (h : c.isExpired now) : live now (c :: l) = live now l :=
  List.filter_cons_of_neg (by simp [h])

theorem live_cons (h : ¬ c.isExpired now) : live now (c :: l) = c :: live now l :=
  List.filter_cons_of_pos (by simp [h])

theorem mem_live : c ∈ live now l ↔ c ∈ l ∧ ¬ c.isExpired now := by
  simp [live]

/-- Whatever stands first of those that have the name is taken, and the last wildcard where
none has it. -/
theorem scan_eq (fallback : Option TlsCertificate) : scan name now fallback l =
    ((live now l).find? (·.named name)).or
      ((((live now l).filter (·.wildcardMatch name)).getLast?).or fallback) := by
  induction l generalizing fallback with
  | nil => rfl
  | cons c l ih =>
    rw [scan]
    by_cases hexpired : c.isExpired now
    · rw [if_pos hexpired, ih, live_cons_of_expired hexpired]
    · rw [if_neg hexpired, live_cons hexpired, List.find?_cons]
      by_cases hnamed : c.named name
      · rw [hnamed]
        by_cases hcommon : c.commonName name
        · rw [if_pos hcommon]
          rfl
        · have halt : c.altName name := (c.named_iff.mp hnamed).resolve_left hcommon
          rw [if_neg hcommon]
          dsimp only
          rw [if_pos halt]
          rfl
      · have hnot := not_or.mp (mt c.named_iff.mpr hnamed)
        have hwild : (c.isWildcard && c.coversDomain name) = c.wildcardMatch name := by
          rw [Bool.eq_iff_iff, Bool.and_eq_true, c.coversDomain_iff_named]
          have hflag : c.wildcardMatch name → c.isWildcard := fun h => (c.wildcardMatch_iff.mp h).1
          simp only [hnamed, Bool.false_eq_true, false_or]
          exact ⟨fun h => h.2, fun h => ⟨hflag h, h⟩⟩
        rw [if_neg hnot.1]
        dsimp only
        rw [if_neg hnot.2, ih, Bool.not_eq_true _ |>.mp hnamed, hwild, List.filter_cons]
        split
        · rw [List.getLast?_cons]
          cases ((live now l).filter (·.wildcardMatch name)).getLast? <;> rfl
        · rfl

/-- Some mapping of the name goes to the certificate. -/
def Target (t : TlsTerminator) (name : Text) (c : TlsCertificate) : Prop :=
  ∃ m ∈ t.sniMappings, eqIgnoreAsciiCase m.serverName name ∧ c.fingerprint = m.certFingerprint

/-- Only what serves the name is selected, something is where anything does, and where no
mapping applies what has the name as its common name goes before what has not. -/
def Selects (t : TlsTerminator) (name : Text) (now : UInt64) (selected : Option TlsCertificate) :
    Prop :=
  (∀ c, selected = some c → c ∈ live now t.stored ∧ (t.Target name c ∨ c.Covers name)) ∧
  (selected = none → ∀ c ∈ live now t.stored, ¬ t.Target name c ∧ ¬ c.Covers name) ∧
  ((∀ c ∈ live now t.stored, ¬ t.Target name c) → (∃ c ∈ live now t.stored, c.commonName name) →
    ∃ c, selected = some c ∧ c.commonName name)

/-- The first mapping of the name goes to a certificate that has not expired. -/
def FirstMappingHits (t : TlsTerminator) (name : Text) (now : UInt64) : Prop :=
  ∃ m, (t.sniMappings.find? fun m => eqIgnoreAsciiCase m.serverName name) = some m ∧
    ∃ c ∈ live now t.stored, c.fingerprint = m.certFingerprint

/-- What the walk of the store leaves to chance or passes over. -/
structure Settled (t : TlsTerminator) (name : Text) (now : UInt64) : Prop where
  /-- No mapping applies and a common name is the name: then no other certificate has it. -/
  common_first : (∃ c ∈ live now t.stored, c.commonName name) →
    (∃ c ∈ live now t.stored, t.Target name c) ∨
      ∀ c ∈ live now t.stored, c.altName name → c.commonName name
  /-- The name begins with a dot and no certificate has it: then mappings go to all wildcards
  that would be taken for it. -/
  empty_label : (∀ c ∈ live now t.stored, ¬ c.named name) → name.head? = some '.' →
    ∀ c ∈ live now t.stored, c.coversDomain name → t.Target name c
  /-- No certificate is taken for the name: then no other mapping goes to one. -/
  later_mappings : (∀ c ∈ live now t.stored, ¬ c.coversDomain name) →
    ∀ c ∈ live now t.stored, ¬ t.Target name c

theorem mapped_eq_some (h : t.mapped located name now = some c) :
    c ∈ live now t.stored ∧ t.Target name c := by
  obtain ⟨m, hm, hc⟩ := Option.bind_eq_some_iff.mp h
  have hname := List.find?_some hm
  have hcert := List.find?_some hc
  rw [Bool.and_eq_true, decide_eq_true_eq, Bool.not_eq_true'] at hcert
  have hstored : c ∈ t.stored := (located.mem_arrange).mp (List.mem_of_find?_eq_some hc)
  refine ⟨mem_live.mpr ⟨hstored, Bool.eq_false_iff.mp hcert.2⟩, m, ?_⟩
  exact ⟨List.mem_of_find?_eq_some hm, hname, hcert.1⟩

theorem mapped_isSome_iff : (t.mapped located name now).isSome ↔ t.FirstMappingHits name now := by
  constructor
  · intro h
    obtain ⟨c, hc⟩ := Option.isSome_iff_exists.mp h
    obtain ⟨m, hm, hfound⟩ := Option.bind_eq_some_iff.mp hc
    have hcert := List.find?_some hfound
    rw [Bool.and_eq_true, decide_eq_true_eq] at hcert
    exact ⟨m, hm, c, (mapped_eq_some hc).1, hcert.1⟩
  · rintro ⟨m, hm, c, hc, hprint⟩
    rw [mapped, hm, Option.bind_some, List.find?_isSome]
    obtain ⟨hstored, hlive⟩ := mem_live.mp hc
    refine ⟨c, (located.mem_arrange).mpr hstored, ?_⟩
    simp [hprint, hlive]

theorem selects_of_firstMappingHits (h : t.FirstMappingHits name now) :
    t.Selects name now (t.selectCertificate located scanned name now) := by
  obtain ⟨c, hc⟩ := Option.isSome_iff_exists.mp (mapped_isSome_iff.mpr h)
  obtain ⟨hlive, htarget⟩ := mapped_eq_some hc
  rw [selectCertificate, hc]
  refine ⟨?_, fun hnone => absurd hnone (Option.some_ne_none c), fun hno => ?_⟩
  · rintro _ ⟨⟩
    exact ⟨hlive, Or.inl htarget⟩
  · exact absurd htarget (hno c hlive)

/-- With no mapping to follow, what the walk finds. -/
theorem selectCertificate_eq (h : ¬ t.FirstMappingHits name now) :
    t.selectCertificate located scanned name now =
      ((live now (scanned.arrange t.stored)).find? (·.named name)).or
        (((live now (scanned.arrange t.stored)).filter (·.wildcardMatch name)).getLast?) := by
  have hnone : t.mapped located name now = none :=
    Option.not_isSome_iff_eq_none.mp (mt mapped_isSome_iff.mp h)
  rw [selectCertificate, hnone]
  dsimp only
  rw [scan_eq, Option.or_none]

theorem mem_live_arrange : c ∈ live now (scanned.arrange t.stored) ↔ c ∈ live now t.stored := by
  rw [mem_live, mem_live, scanned.mem_arrange]

/-- What a walk that nothing is left to chance in selects. -/
theorem Settled.selects (h : t.Settled name now) (hmiss : ¬ t.FirstMappingHits name now) :
    t.Selects name now (t.selectCertificate located scanned name now) := by
  rw [selectCertificate_eq hmiss]
  cases hfind : (live now (scanned.arrange t.stored)).find? (·.named name) with
  | some c =>
    have hlive := mem_live_arrange.mp (List.mem_of_find?_eq_some hfind)
    have htest := List.find?_some hfind
    have hnamed := c.named_iff.mp htest
    rw [Option.some_or]
    refine ⟨?_, fun hnone => absurd hnone (Option.some_ne_none c), fun hno hcommon => ?_⟩
    · rintro _ ⟨⟩
      exact ⟨hlive, Or.inr (hnamed.imp_right Or.inl)⟩
    · refine ⟨c, rfl, hnamed.elim id fun halt => ?_⟩
      rcases h.common_first hcommon with ⟨d, hd, htarget⟩ | hfirst
      · exact absurd htarget (hno d hd)
      · exact hfirst c hlive halt
  | none =>
    have hunnamed : ∀ c ∈ live now t.stored, ¬ c.named name := by
      intro c hc
      have hnot := List.find?_eq_none.mp hfind c (mem_live_arrange.mpr hc)
      simpa using hnot
    rw [Option.none_or]
    refine ⟨fun c hc => ?_, fun hnone => ?_, fun _ hcommon => ?_⟩
    · obtain ⟨hmem, hwild⟩ := List.mem_filter.mp (List.mem_of_getLast? hc)
      have hlive := mem_live_arrange.mp hmem
      refine ⟨hlive, ?_⟩
      rcases c.covers_of_wildcardMatch hwild with hcovers | hdot
      · exact Or.inr (Or.inr (Or.inr hcovers))
      · have hcovers := c.coversDomain_iff_named.mpr (Or.inr hwild)
        exact Or.inl (h.empty_label hunnamed hdot c hlive hcovers)
    · have huncovered : ∀ c ∈ live now t.stored, ¬ c.coversDomain name := by
        intro c hc hcovers
        rcases c.coversDomain_iff_named.mp hcovers with hnamed | hwild
        · exact hunnamed c hc hnamed
        · have hnil := List.getLast?_eq_none_iff.mp hnone
          exact List.ne_nil_of_mem (List.mem_filter.mpr ⟨mem_live_arrange.mpr hc, hwild⟩) hnil
      intro c hc
      exact ⟨h.later_mappings huncovered c hc, fun hcovers => huncovered c hc hcovers.coversDomain⟩
    · obtain ⟨c, hc, hcommon⟩ := hcommon
      exact absurd (c.named_iff.mpr (Or.inl hcommon)) (hunnamed c hc)

/-- A certificate that has the name is selected where it is walked first. -/
theorem selectCertificate_leading (hmiss : ¬ t.FirstMappingHits name now)
    (hc : c ∈ live now t.stored) (hnamed : c.named name) :
    t.selectCertificate located (.leading c) name now = some c := by
  obtain ⟨hstored, hlive⟩ := mem_live.mp hc
  rw [selectCertificate_eq hmiss, IterationOrder.leading_arrange hstored, live_cons hlive,
    List.find?_cons, hnamed]
  rfl

/-- A wildcard is selected where it is walked last and nothing has the name. -/
theorem selectCertificate_trailing (hmiss : ¬ t.FirstMappingHits name now)
    (hunnamed : ∀ c ∈ live now t.stored, ¬ c.named name) (hc : c ∈ live now t.stored)
    (hwild : c.wildcardMatch name) :
    t.selectCertificate located (.trailing c) name now = some c := by
  obtain ⟨hstored, hlive⟩ := mem_live.mp hc
  have hnone : (live now ((IterationOrder.trailing c).arrange t.stored)).find? (·.named name) =
      none := by
    rw [List.find?_eq_none]
    intro d hd
    exact hunnamed d (mem_live_arrange.mp hd)
  rw [selectCertificate_eq hmiss, hnone, Option.none_or, IterationOrder.trailing_arrange hstored,
    live, List.filter_append, List.filter_append]
  simp [hlive, hwild]

theorem settled_of_selects (hmiss : ¬ t.FirstMappingHits name now)
    (h : ∀ located scanned, t.Selects name now (t.selectCertificate located scanned name now)) :
    t.Settled name now where
  common_first hcommon := by
    by_contra hnot
    rw [not_or] at hnot
    obtain ⟨hno, hother⟩ := hnot
    push Not at hno hother
    obtain ⟨c, hc, halt, hne⟩ := hother
    obtain ⟨d, hd, hdcommon⟩ := (h (.leading c) (.leading c)).2.2 hno hcommon
    rw [selectCertificate_leading hmiss hc (c.named_iff.mpr (Or.inr halt))] at hd
    cases hd
    exact hne hdcommon
  empty_label hunnamed hdot c hc hcovers := by
    have hwild := (c.coversDomain_iff_named.mp hcovers).resolve_left (hunnamed c hc)
    have hselected : t.selectCertificate (.leading c) (.trailing c) name now = some c :=
      selectCertificate_trailing hmiss hunnamed hc hwild
    rcases ((h (.leading c) (.trailing c)).1 c hselected).2 with htarget | hcommon | halt | hlabel
    · exact htarget
    · exact absurd (c.named_iff.mpr (Or.inl hcommon)) (hunnamed c hc)
    · exact absurd (c.named_iff.mpr (Or.inr halt)) (hunnamed c hc)
    · exact absurd hdot hlabel.head?_ne
  later_mappings huncovered c hc := by
    refine ((h (.leading c) (.leading c)).2.1 ?_ c hc).1
    rw [selectCertificate_eq hmiss, Option.or_eq_none_iff, List.find?_eq_none,
      List.getLast?_eq_none_iff, List.filter_eq_nil_iff]
    constructor
    · intro d hd hnamed
      exact huncovered d (mem_live_arrange.mp hd) (d.coversDomain_iff_named.mpr (Or.inl hnamed))
    · intro d hd hwild
      exact huncovered d (mem_live_arrange.mp hd) (d.coversDomain_iff_named.mpr (Or.inr hwild))

end TlsTerminator

open TlsTerminator

/-- A certificate is selected as it should, however the store is walked, just where the first
mapping of the name hits or nothing is left to chance without it. -/
theorem select_certificate_iff (t : TlsTerminator) (name : Text) (now : UInt64) :
    (∀ located scanned, t.Selects name now (t.selectCertificate located scanned name now)) ↔
      t.FirstMappingHits name now ∨ t.Settled name now := by
  constructor
  · intro h
    by_cases hhit : t.FirstMappingHits name now
    · exact Or.inl hhit
    · exact Or.inr (settled_of_selects hhit h)
  · rintro (hhit | hsettled) located scanned
    · exact selects_of_firstMappingHits hhit
    · by_cases hhit : t.FirstMappingHits name now
      · exact selects_of_firstMappingHits hhit
      · exact hsettled.selects hhit

/-- One certificate has the name as an alternative one, another as its common name. -/
def shared : TlsTerminator :=
  let other : TlsCertificate :=
    ⟨"o".toList, ["a".toList], 0, 100, [], "1".toList, false⟩
  let own : TlsCertificate := ⟨"a".toList, [], 0, 100, [], "2".toList, false⟩
  (TlsTerminator.addCertificate {} own).addCertificate other

/-- The alternative name may be met first. -/
theorem shared_not_selected : ¬ ∀ located scanned, shared.Selects "a".toList 50
    (shared.selectCertificate located scanned "a".toList 50) := by
  intro h
  obtain ⟨-, -, hcommon⟩ := h (.inserted _) (.inserted _)
  obtain ⟨c, hc, hname⟩ := hcommon (by simp [Target, shared, addCertificate])
    ⟨⟨"a".toList, [], 0, 100, [], "2".toList, false⟩, by decide, by decide⟩
  have hfirst : shared.selectCertificate (.inserted _) (.inserted _) "a".toList 50 =
      some ⟨"o".toList, ["a".toList], 0, 100, [], "1".toList, false⟩ := by decide
  cases hfirst.symm.trans hc
  exact absurd hname (by decide)

end HelixRouter.Tls
