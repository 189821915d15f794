import HelixRouter.Runs.Stepwise
import Mathlib.Algebra.Order.BigOperators.Group.List
import Mathlib.Algebra.Order.Field.Rat
import Mathlib.Data.List.AList

namespace HelixRouter.Reservations

inductive ReservationPriority where
  | bestEffort
  | standard
  | high
  | critical
  deriving DecidableEq

/-- The tiers in rising order. -/
def ReservationPriority.tier : ReservationPriority → Nat
  | bestEffort => 0
  | standard => 1
  | high => 2
  | critical => 3

structure ReservationConfig where
  maxReservedFraction : ℚ := 4 / 5
  freeTierThreshold : ℚ := 1 / 2

abbrev ReservationId := UInt64

structure Reservation where
  id : ReservationId
  callerId : String
  fraction : ℚ
  priority : ReservationPriority

structure ManagerState where
  cfg : ReservationConfig
  reservations : AList (fun _ : ReservationId => Reservation) := ∅
  nextId : UInt64 := 0
  totalAdded : UInt64 := 0
  totalRemoved : UInt64 := 0
  totalAdmits : UInt64 := 0
  totalDenials : UInt64 := 0

namespace ManagerState

def new (cfg : ReservationConfig) : ManagerState := { cfg := cfg }

def active (s : ManagerState) : List Reservation := s.reservations.entries.map (·.2)

def reservedFraction (s : ManagerState) : ℚ := (s.active.map (·.fraction)).sum

/-- What is left below the cap. -/
def remaining (s : ManagerState) : ℚ := max (s.cfg.maxReservedFraction - s.reservedFraction) 0

def add (s : ManagerState) (callerId : String) (fraction : ℚ) (priority : ReservationPriority) :
    ReservationId × ManagerState :=
  let fraction := if fraction > s.remaining then s.remaining else fraction
  (s.nextId, { s with
    reservations := s.reservations.insert s.nextId ⟨s.nextId, callerId, fraction, priority⟩
    nextId := s.nextId + 1
    totalAdded := s.totalAdded + 1 })

def remove (s : ManagerState) (id : ReservationId) : Bool × ManagerState :=
  match s.reservations.lookup id with
  | some _ => (true, { s with
      reservations := s.reservations.erase id
      totalRemoved := s.totalRemoved + 1 })
  | none => (false, s)

def countAdmit (s : ManagerState) : Bool × ManagerState :=
  (true, { s with totalAdmits := s.totalAdmits + 1 })

def countDenial (s : ManagerState) : Bool × ManagerState :=
  (false, { s with totalDenials := s.totalDenials + 1 })

def canAdmit (s : ManagerState) (callerId : String) (priority : ReservationPriority) :
    Bool × ManagerState :=
  if priority = .bestEffort then
    if s.reservedFraction ≥ s.cfg.freeTierThreshold then s.countDenial else s.countAdmit
  else if s.active.any fun r => r.callerId = callerId && r.priority.tier ≤ priority.tier then
    s.countAdmit
  else if s.reservedFraction < s.cfg.freeTierThreshold then s.countAdmit
  else s.countDenial

end ManagerState

open Runs

inductive Op where
  | addReservation (callerId : String) (fraction : ℚ) (priority : ReservationPriority)
  | removeReservation (id : ReservationId)
  | canAdmit (callerId : String) (priority : ReservationPriority)

def Op.apply (s : ManagerState) : Op → ManagerState
  | addReservation callerId fraction priority => (s.add callerId fraction priority).2
  | removeReservation id => (s.remove id).2
  | canAdmit callerId priority => (s.canAdmit callerId priority).2

def step (s : ManagerState) (op : Op) : Option ManagerState := some (op.apply s)

def Op.Nonnegative : Op → Prop
  | addReservation _ fraction _ => 0 ≤ fraction
  | _ => True

namespace ManagerState

/-- The active reservations are parts of the capacity that fit under the cap. -/
structure Capped (s : ManagerState) : Prop where
  total : s.reservedFraction ≤ s.cfg.maxReservedFraction
  parts : ∀ r ∈ s.active, 0 ≤ r.fraction

variable {s : ManagerState} {callerId : String} {fraction : ℚ} {priority : ReservationPriority}
  {id : ReservationId}

theorem capped_new {cfg : ReservationConfig} (h : 0 ≤ cfg.maxReservedFraction) :
    (new cfg).Capped := ⟨h, by simp [new, active]⟩

/-- The active reservations, but for that of an id. -/
def others (s : ManagerState) (id : ReservationId) : List Reservation :=
  (s.reservations.erase id).entries.map (·.2)

theorem others_sublist (s : ManagerState) (id : ReservationId) : (s.others id).Sublist s.active :=
  (List.kerase_sublist id s.reservations.entries).map _

theorem Capped.others_le (h : s.Capped) (id : ReservationId) :
    ((s.others id).map (·.fraction)).sum ≤ s.reservedFraction := by
  apply ((s.others_sublist id).map _).sum_le_sum
  intro f hf
  obtain ⟨r, hr, rfl⟩ := List.mem_map.mp hf
  exact h.parts r hr

theorem active_add : (s.add callerId fraction priority).2.active =
    ⟨s.nextId, callerId, if fraction > s.remaining then s.remaining else fraction, priority⟩ ::
      s.others s.nextId := by
  have hothers : ∀ id, s.others id = (s.reservations.entries.kerase id).map (·.2) := fun _ => rfl
  simp [add, active, hothers, AList.entries_insert]

theorem cfg_apply (op : Op) : (op.apply s).cfg = s.cfg := by
  cases op with
  | addReservation callerId fraction priority => rfl
  | removeReservation id =>
    simp only [Op.apply, remove]
    split <;> rfl
  | canAdmit callerId priority =>
    simp only [Op.apply, canAdmit, countAdmit, countDenial]
    split_ifs <;> rfl

theorem reservations_canAdmit :
    (s.canAdmit callerId priority).2.reservations = s.reservations := by
  unfold canAdmit countAdmit countDenial
  split_ifs <;> rfl

theorem active_canAdmit : (s.canAdmit callerId priority).2.active = s.active := by
  rw [active, reservations_canAdmit, active]

theorem Capped.remaining_eq (h : s.Capped) :
    s.remaining = s.cfg.maxReservedFraction - s.reservedFraction :=
  max_eq_left (sub_nonneg.mpr h.total)

/-- Only a fraction above what is left is cut, so that a negative one is kept. -/
theorem Capped.add_iff (h : s.Capped) :
    (s.add callerId fraction priority).2.Capped ↔ 0 ≤ fraction := by
  have hleft : 0 ≤ s.remaining := le_max_right _ _
  constructor
  · intro hnew
    have hpart := hnew.parts _ (active_add ▸ List.mem_cons_self)
    dsimp only at hpart
    split at hpart
    · rename_i hmore
      exact hleft.trans hmore.le
    · exact hpart
  · intro hfraction
    have hkept : 0 ≤ (if fraction > s.remaining then s.remaining else fraction) ∧
        (if fraction > s.remaining then s.remaining else fraction) ≤ s.remaining := by
      split
      · exact ⟨hleft, le_refl _⟩
      · rename_i hfits
        exact ⟨hfraction, not_lt.mp hfits⟩
    refine ⟨?_, ?_⟩
    · rw [reservedFraction, active_add, List.map_cons, List.sum_cons]
      calc _ ≤ s.remaining + s.reservedFraction := add_le_add hkept.2 (h.others_le _)
        _ = s.cfg.maxReservedFraction := by rw [h.remaining_eq, sub_add_cancel]
    · rw [active_add]
      refine List.forall_mem_cons.mpr ⟨hkept.1, fun r hr => ?_⟩
      exact h.parts r ((s.others_sublist _).subset hr)

theorem Capped.remove (h : s.Capped) (id : ReservationId) : (s.remove id).2.Capped := by
  unfold ManagerState.remove
  cases s.reservations.lookup id with
  | none => exact h
  | some r =>
    exact ⟨(h.others_le id).trans h.total, fun r hr => h.parts r ((s.others_sublist id).subset hr)⟩

theorem Capped.canAdmit (h : s.Capped) : (s.canAdmit callerId priority).2.Capped := by
  have hcfg := cfg_apply (s := s) (.canAdmit callerId priority)
  refine ⟨?_, ?_⟩
  · rw [reservedFraction, active_canAdmit]
    exact h.total.trans_eq (congrArg _ hcfg.symm)
  · rw [active_canAdmit]
    exact h.parts

theorem Capped.step_iff (h : s.Capped) (op : Op) : (op.apply s).Capped ↔ op.Nonnegative := by
  cases op with
  | addReservation callerId fraction priority => exact h.add_iff
  | removeReservation id => exact iff_of_true (h.remove id) trivial
  | canAdmit callerId priority => exact iff_of_true h.canAdmit trivial

end ManagerState

open ManagerState

/-- The cap is kept in just the runs that add no negative fraction. -/
theorem reservations_capped_iff (cfg : ReservationConfig) (h : 0 ≤ cfg.maxReservedFraction)
    (ops : List Op) : Throughout step Capped (new cfg) ops ↔ ∀ op ∈ ops, op.Nonnegative := by
  have hruns : Throughout step Capped (new cfg) ops ↔
      EachStep step (fun _ op => op.Nonnegative) (new cfg) ops := by
    apply throughout_iff_eachStep (capped_new h)
    intro s op _ s' hs hstep
    cases hstep
    exact hs.step_iff op
  exact hruns.trans (eachStep_event_iff fun s op => ⟨_, rfl⟩)

theorem reservations_capped_iff_default : Throughout step Capped (new {})
    [.addReservation "analytics" (1 / 5) .high, .removeReservation 0] := by
  apply (reservations_capped_iff {} (by decide +kernel) _).mpr
  have hfifth : (0 : ℚ) ≤ 1 / 5 := by decide +kernel
  exact List.forall_mem_cons.mpr ⟨hfifth, List.forall_mem_singleton.mpr trivial⟩

/-- What a negative fraction seems to leave is reserved, and then it is taken back. -/
theorem negative_fraction_lifts_cap : ¬ Throughout step Capped (new {})
    [.addReservation "a" (-1 / 2) .high, .addReservation "b" (13 / 10) .high,
      .removeReservation 0] := by
  intro h
  have htotal := (h.last rfl).total
  exact absurd htotal (by decide +kernel)

end HelixRouter.Reservations
