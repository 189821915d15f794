import Mathlib.Data.List.Lex
import HelixRouter.Containers.IterationOrder
import HelixRouter.Router.ResultCache
import HelixRouter.Texts.Bytes

namespace HelixRouter.Catalog

open Texts

structure ServiceCapability where
  name : Text
  version : Text
  protocol : Text
  metadata : List (Text × Text) := []
  deriving DecidableEq

structure EndpointEntry where
  id : Text
  name : Text
  url : Text
  capabilities : List ServiceCapability
  healthy : Bool
  weight : UInt32
  registeredAtMs : UInt64
  lastSeenMs : UInt64
  deriving DecidableEq

structure CatalogFilter where
  capabilityName : Option Text := none
  protocol : Option Text := none
  healthyOnly : Bool := false
  minVersion : Option Text := none

/-- The first three segments; one that is missing, or no number that fits a word, counts as zero. -/
def parseParts (s : Text) : List UInt64 :=
  (List.range 3).map fun i => ((s.splitOn '.')[i]?.bind parseU64).getD 0

/-- The first place at which the parts differ decides. -/
def compareParts : List UInt64 → List UInt64 → Int
  | a :: as, b :: bs => if a < b then -1 else if b < a then 1 else compareParts as bs
  | _, _ => 0

def compareVersions (a b : Text) : Int := compareParts (parseParts a) (parseParts b)

structure EndpointCatalog where
  entries : AList (fun _ : Text => EndpointEntry) := ∅

/-- A field of a filter that is not set lets everything pass. -/
def allows (wanted : Option Text) (actual : Text) : Bool :=
  match wanted with
  | some w => actual = w
  | none => true

namespace EndpointCatalog

def register (c : EndpointCatalog) (entry : EndpointEntry) : EndpointCatalog :=
  { entries := c.entries.insert entry.id entry }

def registered (c : EndpointCatalog) : List EndpointEntry := c.entries.entries.map (·.2)

/-- The test of one capability where a name is asked for. -/
def capabilityMatches (filter : CatalogFilter) (capName : Text) (cap : ServiceCapability) : Bool :=
  if cap.name ≠ capName then false
  else if ¬ allows filter.protocol cap.protocol then false
  else match filter.minVersion with
    | some minVer => if compareVersions cap.version minVer < 0 then false else true
    | none => true

def keeps (filter : CatalogFilter) (entry : EndpointEntry) : Bool :=
  if filter.healthyOnly ∧ ¬ entry.healthy then false
  else match filter.capabilityName with
    | some capName => entry.capabilities.any (capabilityMatches filter capName)
    | none =>
      -- without a name the protocol is all that is looked at
      match filter.protocol with
      | some proto => entry.capabilities.any fun c => c.protocol = proto
      | none => true

/-- The entries are walked in whatever order the map holds them. -/
def find (c : EndpointCatalog) (order : IterationOrder EndpointEntry) (filter : CatalogFilter) :
    List EndpointEntry :=
  (order.arrange c.registered).filterMap fun entry =>
    if keeps filter entry then some entry else none

end EndpointCatalog

def withoutSign (segment : Text) : Text :=
  match segment with
  | '+' :: rest => rest
  | _ => segment

/-- The number a segment is in decimal, with or without a plus sign. What is no number counts as
zero. -/
def segmentNumber (segment : Text) : Nat :=
  let digits := withoutSign segment
  if digits = [] ∨ ¬ digits.all Char.isDigit then 0 else Nat.ofDigitChars 10 digits 0

/-- The major, the minor and the patch number of a version. -/
def versionNumbers (s : Text) : List Nat :=
  (List.range 3).map fun i => ((s.splitOn '.')[i]?.map segmentNumber).getD 0

/-- What is left of a number that does not fit a word. -/
def cut (n : Nat) : Nat := if n ≤ u64Max then n else 0

theorem toNat_parse (segment : Text) : ((parseU64 segment).getD 0).toNat =
    cut (segmentNumber segment) := by
  have hparse : parseU64 segment =
      if withoutSign segment = [] ∨ ¬ (withoutSign segment).all Char.isDigit then none
      else if Nat.ofDigitChars 10 (withoutSign segment) 0 ≤ u64Max then
        some (UInt64.ofNat (Nat.ofDigitChars 10 (withoutSign segment) 0))
      else none := rfl
  rw [hparse, segmentNumber]
  split
  · rfl
  · unfold cut
    split
    · rename_i hfit
      rw [Option.getD_some]
      exact UInt64.toNat_ofNat_of_lt' (Nat.lt_of_le_of_lt hfit (by decide))
    · rfl

theorem map_toNat_parseParts (s : Text) :
    (parseParts s).map UInt64.toNat = (versionNumbers s).map cut := by
  unfold parseParts versionNumbers
  rw [List.map_map, List.map_map]
  apply List.map_congr_left
  intro i _
  rw [Function.comp_apply, Function.comp_apply]
  cases hseg : (s.splitOn '.')[i]? with
  | none => rfl
  | some segment => exact toNat_parse segment

theorem compareParts_neg_iff {as bs : List UInt64} (h : as.length = bs.length) :
    compareParts as bs < 0 ↔ as.map UInt64.toNat < bs.map UInt64.toNat := by
  induction as generalizing bs with
  | nil =>
    cases bs with
    | nil => simp [compareParts]
    | cons b bs => simp at h
  | cons a as ih =>
    cases bs with
    | nil => simp at h
    | cons b bs =>
      have hrest := ih (Nat.succ.inj h)
      rw [compareParts, List.map_cons, List.map_cons, List.cons_lt_cons_iff, ← hrest,
        ← UInt64.lt_iff_toNat_lt, UInt64.toNat_inj]
      by_cases hlt : a < b
      · simp [hlt]
      · by_cases hgt : b < a
        · have hne : a ≠ b := by
            rintro rfl
            exact hlt hgt
          simp [hlt, hgt, hne]
        · have heq : a = b := UInt64.le_antisymm (UInt64.not_lt.mp hgt) (UInt64.not_lt.mp hlt)
          subst heq
          simp

/-- The comparison is one of the numbers as far as they fit a word. -/
theorem compareVersions_neg_iff (a b : Text) :
    compareVersions a b < 0 ↔ (versionNumbers a).map cut < (versionNumbers b).map cut := by
  rw [compareVersions, compareParts_neg_iff (by simp [parseParts]), map_toNat_parseParts,
    map_toNat_parseParts]

theorem map_cut_of_fits {s : Text} (h : ∀ n ∈ versionNumbers s, n ≤ u64Max) :
    (versionNumbers s).map cut = versionNumbers s := by
  have hid : (versionNumbers s).map cut = (versionNumbers s).map id :=
    List.map_congr_left fun n hn => if_pos (h n hn)
  rw [hid, List.map_id]

end HelixRouter.Catalog
