import HelixRouter.Configuration.DynamicConfig
import HelixRouter.Runs.Stepwise
import Mathlib.Data.UInt

namespace HelixRouter.Configuration

open Runs

inductive Op where
  | set (key : String) (value : ConfigValue)
  | reloadFromMap (orders : Orders) (newValues : Values)
  | subscribe
  | drop (receiver : Nat)

/-- A configuration, how many changes it has had, and whether a receiver was alive at the last
one. -/
structure VersionStream where
  config : DynamicConfig
  changes : Nat := 0
  heard : Bool := true

namespace VersionStream

def start : Option ConfigSchema → VersionStream
  | none => { config := .new }
  | some schema => { config := .withSchema schema }

def changeTo (t : VersionStream) (config : DynamicConfig) : VersionStream where
  config := config
  changes := t.changes + 1
  heard := !t.config.versionTx.receivers.isEmpty

/-- A change is a value that was set, or a reload from which some key is another one. -/
def next (t : VersionStream) : Op → VersionStream
  | .set key value =>
    match t.config.set key value with
    | (.ok _, config) => t.changeTo config
    | (.error _, config) => { t with config := config }
  | .reloadFromMap orders newValues =>
    match t.config.reloadFromMap orders newValues with
    | (.ok (_ :: _), config) => t.changeTo config
    | (_, config) => { t with config := config }
  | .subscribe => { t with config := t.config.subscribe.2 }
  | .drop receiver => { t with config := t.config.dropReceiver receiver }

def step (t : VersionStream) (op : Op) : Option VersionStream := some (t.next op)

/-- What a receiver reads, if it is alive. -/
def borrow (t : VersionStream) (receiver : Nat) : Option UInt64 :=
  t.config.versionTx.borrow receiver

/-- Every receiver that is alive has seen every change. -/
def Current (t : VersionStream) : Prop :=
  ∀ receiver version, t.borrow receiver = some version → version.toNat = t.changes

/-- A receiver that is new reads the number of changes. -/
def ReadsChanges (t : VersionStream) : Op → Prop
  | .subscribe => ∃ version,
    (t.next .subscribe).borrow t.config.subscribe.1 = some version ∧ version.toNat = t.changes
  | _ => True

/-- No receiver reads less than it has read before. -/
def NeverBack (t : VersionStream) (op : Op) : Prop :=
  ∀ receiver before after, t.borrow receiver = some before →
    (t.next op).borrow receiver = some after → before ≤ after

/-- A receiver is new only where one was alive at the last change, if there was one. -/
def Announced (t : VersionStream) (op : Op) : Prop := op = .subscribe → t.heard = true

/-- The versions that receivers read have not run out. -/
def Countable (t : VersionStream) : Prop := t.config.versionTx.receivers ≠ [] → t.changes < 2 ^ 64

/-- The channel is at the last change that a receiver was alive for. -/
structure Sound (t : VersionStream) : Prop where
  version : t.config.version = UInt64.ofNat t.changes
  heard : t.heard → t.config.versionTx.value = UInt64.ofNat t.changes
  missed : t.heard = false → t.config.versionTx.value.toNat < t.changes

/-- While a receiver is alive, one was alive at the last change. -/
def HeardBy (t : VersionStream) : Prop := t.config.versionTx.receivers ≠ [] → t.heard = true

variable {t : VersionStream} {op : Op} {schema : Option ConfigSchema}

theorem sound_start (schema : Option ConfigSchema) : (start schema).Sound := by
  cases schema with
  | none => exact ⟨rfl, fun _ => rfl, fun h => absurd (show true = false from h) (by decide)⟩
  | some schema =>
    exact ⟨rfl, fun _ => rfl, fun h => absurd (show true = false from h) (by decide)⟩

theorem heardBy_start (schema : Option ConfigSchema) : (start schema).HeardBy := by
  cases schema with
  | none => exact fun h => absurd rfl h
  | some schema => exact fun h => absurd rfl h

theorem Sound.toNat_le (hs : t.Sound) : t.config.versionTx.value.toNat ≤ t.changes := by
  cases hh : t.heard with
  | false => exact (hs.missed hh).le
  | true =>
    rw [hs.heard hh, UInt64.toNat_ofNat']
    exact Nat.mod_le _ _

theorem Sound.changeTo (hs : t.Sound) (values : Values) :
    (t.changeTo { t.config with values := values }.bumpVersion).Sound := by
  have hversion : t.config.version + 1 = UInt64.ofNat (t.changes + 1) := by
    rw [hs.version, UInt64.ofNat_add]
    rfl
  cases hr : t.config.versionTx.receivers with
  | nil =>
    refine ⟨hversion, fun h => ?_, fun _ => ?_⟩
    · rw [VersionStream.changeTo, hr] at h
      cases h
    · have hvalue : (t.config.versionTx.send (t.config.version + 1)).2 = t.config.versionTx := by
        rw [Watch.send, hr]
        rfl
      rw [VersionStream.changeTo, DynamicConfig.bumpVersion]
      dsimp only
      rw [hvalue]
      exact Nat.lt_succ_of_le hs.toNat_le
  | cons receiver receivers =>
    refine ⟨hversion, fun _ => ?_, fun h => ?_⟩
    · rw [VersionStream.changeTo, DynamicConfig.bumpVersion]
      dsimp only
      rw [Watch.send, hr]
      exact hversion
    · rw [VersionStream.changeTo, hr] at h
      cases h

theorem receivers_bumpVersion (c : DynamicConfig) :
    c.bumpVersion.versionTx.receivers = c.versionTx.receivers := by
  unfold DynamicConfig.bumpVersion Watch.send
  dsimp only
  split <;> rfl

/-- A write is refused or changes the values only, or it is a change. -/
theorem next_cases (t : VersionStream) (op : Op) :
    (op ≠ .subscribe ∧
        ∃ values, t.next op = { t with config := { t.config with values := values } }) ∨
      (op ≠ .subscribe ∧
        ∃ values, t.next op = t.changeTo { t.config with values := values }.bumpVersion) ∨
      op = .subscribe ∨ ∃ receiver, op = .drop receiver := by
  cases op with
  | set key value =>
    rw [next]
    rcases t.config.set_cases key value with ⟨e, h⟩ | ⟨values, h⟩
    · rw [h]
      exact Or.inl ⟨by simp, t.config.values, rfl⟩
    · rw [h]
      exact Or.inr (Or.inl ⟨by simp, values, rfl⟩)
  | reloadFromMap orders newValues =>
    rw [next]
    rcases t.config.reloadFromMap_cases orders newValues with ⟨e, h⟩ | h | ⟨key, keys, h⟩
    · rw [h]
      exact Or.inl ⟨by simp, t.config.values, rfl⟩
    · rw [h]
      exact Or.inl ⟨by simp, newValues, rfl⟩
    · rw [h]
      exact Or.inr (Or.inl ⟨by simp, newValues, rfl⟩)
  | subscribe => exact Or.inr (Or.inr (Or.inl rfl))
  | drop receiver => exact Or.inr (Or.inr (Or.inr ⟨receiver, rfl⟩))

theorem changes_le_next (t : VersionStream) (op : Op) : t.changes ≤ (t.next op).changes := by
  rcases t.next_cases op with ⟨-, values, h⟩ | ⟨-, values, h⟩ | rfl | ⟨receiver, rfl⟩
  · rw [h]
  · rw [h]
    exact Nat.le_succ _
  · exact Nat.le_refl _
  · exact Nat.le_refl _

theorem Sound.next (hs : t.Sound) (op : Op) : (t.next op).Sound := by
  rcases t.next_cases op with ⟨-, values, h⟩ | ⟨-, values, h⟩ | rfl | ⟨receiver, rfl⟩
  · rw [h]
    exact ⟨hs.version, hs.heard, hs.missed⟩
  · rw [h]
    exact hs.changeTo values
  · exact ⟨hs.version, hs.heard, hs.missed⟩
  · exact ⟨hs.version, hs.heard, hs.missed⟩

/-- Only a new receiver can be one that has not heard of the last change. -/
theorem heardBy_next_iff (hh : t.HeardBy) : (t.next op).HeardBy ↔ t.Announced op := by
  rcases t.next_cases op with ⟨hop, values, h⟩ | ⟨hop, values, h⟩ | rfl | ⟨receiver, rfl⟩
  · rw [h]
    exact iff_of_true hh fun heq => absurd heq hop
  · rw [h]
    refine iff_of_true (fun hne => ?_) fun heq => absurd heq hop
    rw [changeTo, receivers_bumpVersion] at hne
    simpa [changeTo] using hne
  · exact ⟨fun h _ => h (List.cons_ne_nil _ _), fun h _ => h rfl⟩
  · refine iff_of_true (fun hne => hh fun hnil => hne ?_) fun heq => absurd heq (by simp)
    change t.config.versionTx.receivers.erase receiver = []
    rw [hnil]
    rfl

/-- Receivers read the number of changes where the last change reached them, as long as the
version has not come around. -/
theorem current_iff (hs : t.Sound) : t.Current ↔ t.HeardBy ∧ t.Countable := by
  have hvalue : t.config.versionTx.value.toNat = t.changes ↔
      t.heard = true ∧ t.changes < 2 ^ 64 := by
    cases hh : t.heard with
    | false => exact iff_of_false (hs.missed hh).ne fun h => absurd h.1 (by decide)
    | true =>
      rw [hs.heard hh, UInt64.toNat_ofNat', and_iff_right rfl]
      exact Nat.mod_eq_iff_lt (by decide)
  constructor
  · intro h
    have hread : t.config.versionTx.receivers ≠ [] →
        t.config.versionTx.value.toNat = t.changes := by
      intro hne
      obtain ⟨receiver, hreceiver⟩ := List.exists_mem_of_ne_nil _ hne
      exact h receiver _ (if_pos hreceiver)
    exact ⟨fun hne => (hvalue.mp (hread hne)).1, fun hne => (hvalue.mp (hread hne)).2⟩
  · rintro ⟨hheard, hcount⟩ receiver version hborrow
    unfold borrow Watch.borrow at hborrow
    split at hborrow
    · rename_i hreceiver
      cases hborrow
      have hne := List.ne_nil_of_mem hreceiver
      exact hvalue.mpr ⟨hheard hne, hcount hne⟩
    · cases hborrow

theorem throughout_sound (schema : Option ConfigSchema) (ops : List Op) :
    Throughout step Sound (start schema) ops := by
  refine throughout_of_step (sound_start schema) fun t op t' hs hstep => ?_
  cases hstep
  exact hs.next op

theorem throughout_heardBy_iff (schema : Option ConfigSchema) (ops : List Op) :
    Throughout step HeardBy (start schema) ops ↔ EachStep step Announced (start schema) ops := by
  refine throughout_iff_eachStep (heardBy_start schema) fun t op _ t' hh hstep => ?_
  cases hstep
  exact heardBy_next_iff hh

theorem throughout_current_iff (schema : Option ConfigSchema) (ops : List Op) :
    Throughout step Current (start schema) ops ↔
      EachStep step Announced (start schema) ops ∧
        Throughout step Countable (start schema) ops := by
  rw [← throughout_heardBy_iff, ← throughout_and]
  exact (throughout_sound schema ops).congr fun t hs => current_iff hs

theorem readsChanges_of_current (hc : (t.next op).Current) : t.ReadsChanges op := by
  cases op with
  | subscribe =>
    have hborrow : (t.next .subscribe).borrow t.config.subscribe.1 =
        some t.config.versionTx.value := if_pos List.mem_cons_self
    exact ⟨_, hborrow, hc _ _ hborrow⟩
  | _ => trivial

theorem neverBack_of_current (hc : t.Current) (hc' : (t.next op).Current) : t.NeverBack op := by
  intro receiver before after hbefore hafter
  rw [UInt64.le_iff_toNat_le, hc receiver before hbefore, hc' receiver after hafter]
  exact t.changes_le_next op

end VersionStream

open VersionStream

/-- Receivers read the number of changes when they are new, never less than before, and every
change, in exactly the runs in which no receiver comes after a change that none was alive for,
as long as versions have not come around. -/
theorem version_stream_iff (schema : Option ConfigSchema) (ops : List Op) :
    (EachStep step ReadsChanges (start schema) ops ∧ EachStep step NeverBack (start schema) ops ∧
        Throughout step Current (start schema) ops) ↔
      EachStep step Announced (start schema) ops ∧
        Throughout step Countable (start schema) ops := by
  rw [← throughout_current_iff]
  refine ⟨fun h => h.2.2, fun h => ⟨?_, ?_, h⟩⟩
  · refine h.eachStep fun t op _ t' _ hc' hstep => ?_
    cases hstep
    exact readsChanges_of_current hc'
  · refine h.eachStep fun t op _ t' hc hc' hstep => ?_
    cases hstep
    exact neverBack_of_current hc hc'

/-- The first receiver comes after the first change. -/
def lateReceiver : List Op := [.set "a" (.int 1), .subscribe]

theorem lateReceiver_reads_stale : ¬ EachStep step ReadsChanges (start none) lateReceiver := by
  intro h
  obtain ⟨-, h⟩ := h _ rfl
  obtain ⟨⟨version, hborrow, hcount⟩, -⟩ := h _ rfl
  have hversion : version = 0 := by
    have hread : some 0 = some version := hborrow
    exact (Option.some.inj hread).symm
  rw [hversion] at hcount
  exact absurd (show (0 : UInt64).toNat = 1 from hcount) (by decide)

end HelixRouter.Configuration
