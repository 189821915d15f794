import HelixRouter.Containers.Retain
import HelixRouter.Metering.Meter
import HelixRouter.Router.Numbers
import HelixRouter.Runs.Stepwise

namespace HelixRouter.Flow

open Metering Runs

structure FlowConfig where
  globalRps : ℚ := 100
  burst : UInt32 := 50
  perKindRps : AList (fun _ : String => ℚ) := ∅

inductive AdmitResult where
  | admitted
  | throttled (retryAfterMs : UInt64)
  | rejected
  deriving DecidableEq

structure FlowState where
  config : FlowConfig
  tokens : ℚ
  lastRefill : Instant
  admitted : Nat := 0
  throttled : Nat := 0
  rejected : Nat := 0
  kindTokens : AList (fun _ : String => ℚ) := ∅
  kindLastRefill : AList (fun _ : String => Instant) := ∅

/-- Seconds between two readings, none where the first is the later one. -/
def elapsedSecsF64 (since now : Instant) : ℚ := ((now - since : Nat) : ℚ) / nanosPerSec

namespace FlowState

def new (config : FlowConfig) (now : Instant) : FlowState where
  config := config
  tokens := config.burst.toNat
  lastRefill := now

def refillGlobal (s : FlowState) (now : Instant) : FlowState :=
  let newTokens := elapsedSecsF64 s.lastRefill now * s.config.globalRps
  { s with tokens := min (s.tokens + newTokens) s.config.burst.toNat, lastRefill := now }

def refillKind (s : FlowState) (kind : String) (rps : ℚ) (now : Instant) : FlowState :=
  let last := (s.kindLastRefill.lookup kind).getD now
  let elapsed := elapsedSecsF64 last now
  let capacity := rps * 2
  let entry := (s.kindTokens.lookup kind).getD capacity
  { s with
    kindLastRefill := s.kindLastRefill.insert kind now
    kindTokens := s.kindTokens.insert kind (min (entry + elapsed * rps) capacity) }

/-- The part of a call after the kind's own bucket has let it through. -/
def admitGlobal (s : FlowState) : AdmitResult × FlowState :=
  let throttleThreshold := (s.config.burst.toNat : ℚ) * (1 / 5)
  if s.tokens < 1 then (.rejected, { s with rejected := s.rejected + 1 })
  else if s.tokens ≤ throttleThreshold then
    let retryMs := castU64 (((1 - s.tokens) / s.config.globalRps * 1000).ceil : ℚ)
    (.throttled (max retryMs 1), { s with throttled := s.throttled + 1 })
  else (.admitted, { s with tokens := s.tokens - 1, admitted := s.admitted + 1 })

/-- One call, under the lock. The clock is read again for the bucket of the kind. -/
def tryAdmit (s : FlowState) (kind : String) (now kindNow : Instant) : AdmitResult × FlowState :=
  let s := s.refillGlobal now
  match s.config.perKindRps.lookup kind with
  | none => s.admitGlobal
  | some rps =>
    let s := s.refillKind kind rps kindNow
    let tokens := (s.kindTokens.lookup kind).getD 0
    if tokens < 1 then (.rejected, { s with rejected := s.rejected + 1 })
    else { s with kindTokens := s.kindTokens.insert kind (tokens - 1) }.admitGlobal

end FlowState

structure Call where
  kind : String
  now : Instant
  kindNow : Instant

def step (s : FlowState) (c : Call) : Option FlowState :=
  some (s.tryAdmit c.kind c.now c.kindNow).2

namespace FlowState

variable (s : FlowState)

/-- The global bucket at a call, before anything is taken. -/
def globalRefilled (now : Instant) : ℚ :=
  Meter.refilled ⟨s.config.burst.toNat, s.config.globalRps⟩ s.tokens
    (elapsedSecsF64 s.lastRefill now)

/-- The bucket of a limited kind at a call for it, before anything is taken. -/
def kindRefilled (kind : String) (rps : ℚ) (now : Instant) : ℚ :=
  Meter.refilled ⟨rps * 2, rps⟩ ((s.kindTokens.lookup kind).getD (rps * 2))
    (elapsedSecsF64 ((s.kindLastRefill.lookup kind).getD now) now)

/-- The bucket of any kind at a call: only that of the kind called for is refilled. -/
def bucketRefilled (c : Call) (kind : String) : Option ℚ :=
  match s.config.perKindRps.lookup c.kind with
  | none => s.kindTokens.lookup kind
  | some rps =>
    if kind = c.kind then some (s.kindRefilled kind rps c.kindNow) else s.kindTokens.lookup kind

/-- What a call takes from the bucket of a kind, if it is admitted. -/
def kindCharge (c : Call) (kind : String) : ℚ :=
  if kind = c.kind ∧ (s.config.perKindRps.lookup c.kind).isSome then 1 else 0

/-- A call charges both buckets if it is admitted, and none otherwise. -/
def ChargesOnlyAdmitted (c : Call) : Prop :=
  let (result, s') := s.tryAdmit c.kind c.now c.kindNow
  if result = .admitted then
    s'.tokens = s.globalRefilled c.now - 1 ∧
      ∀ kind, s'.kindTokens.lookup kind =
        (s.bucketRefilled c kind).map (· - s.kindCharge c kind)
  else
    s'.tokens = s.globalRefilled c.now ∧
      ∀ kind, s'.kindTokens.lookup kind = s.bucketRefilled c kind

/-- Every bucket holds between nothing and its capacity. -/
structure InRange : Prop where
  global : 0 ≤ s.tokens ∧ s.tokens ≤ s.config.burst.toNat
  kinds : ∀ kind tokens, s.kindTokens.lookup kind = some tokens →
    ∃ rps, s.config.perKindRps.lookup kind = some rps ∧ 0 ≤ tokens ∧ tokens ≤ rps * 2

/-- No bucket runs below nothing in refilling; and a kind with a token left finds a global
bucket that admits it. -/
structure Spared (c : Call) : Prop where
  global : 0 ≤ s.globalRefilled c.now
  rate : ∀ rps, s.config.perKindRps.lookup c.kind = some rps → 0 ≤ rps
  paid : ∀ rps, s.config.perKindRps.lookup c.kind = some rps →
    1 ≤ s.kindRefilled c.kind rps c.kindNow →
      1 ≤ s.globalRefilled c.now ∧ s.config.burst.toNat * (1 / 5) < s.globalRefilled c.now

end FlowState

namespace FlowState

variable {s : FlowState} {c : Call} {rps : ℚ}

/-- The global bucket admits a request. -/
def Open (s : FlowState) : Prop := 1 ≤ s.tokens ∧ s.config.burst.toNat * (1 / 5) < s.tokens

theorem admitGlobal_open (h : s.Open) : s.admitGlobal =
    (.admitted, { s with tokens := s.tokens - 1, admitted := s.admitted + 1 }) := by
  rw [admitGlobal, if_neg (not_lt.mpr h.1), if_neg (not_le.mpr h.2)]

/-- A bucket that does not admit a request is left alone. -/
theorem admitGlobal_shut (h : ¬ s.Open) : s.admitGlobal.1 ≠ .admitted ∧
    s.admitGlobal.2.tokens = s.tokens ∧ s.admitGlobal.2.kindTokens = s.kindTokens ∧
      s.admitGlobal.2.config = s.config := by
  rw [admitGlobal]
  by_cases hone : s.tokens < 1
  · rw [if_pos hone]
    exact ⟨nofun, rfl, rfl, rfl⟩
  · rw [if_neg hone]
    have hlow := not_lt.mp fun hlt => h ⟨not_lt.mp hone, hlt⟩
    rw [if_pos hlow]
    exact ⟨nofun, rfl, rfl, rfl⟩

theorem inRange_congr {s' : FlowState} (hc : s'.config = s.config) (ht : s'.tokens = s.tokens)
    (hk : s'.kindTokens = s.kindTokens) : s'.InRange ↔ s.InRange := by
  constructor
  · exact fun h => ⟨hc ▸ ht ▸ h.global, hc ▸ hk ▸ h.kinds⟩
  · exact fun h => ⟨hc ▸ ht ▸ h.global, hc ▸ hk ▸ h.kinds⟩

theorem inRange_admitGlobal (hcap : s.tokens ≤ s.config.burst.toNat) :
    s.admitGlobal.2.InRange ↔ s.InRange := by
  by_cases h : s.Open
  · rw [admitGlobal_open h]
    constructor
    · exact fun hr => ⟨⟨by linarith [h.1], hcap⟩, hr.kinds⟩
    · exact fun hr => ⟨⟨by linarith [h.1], by linarith⟩, hr.kinds⟩
  · obtain ⟨-, ht, hk, hc⟩ := admitGlobal_shut h
    exact inRange_congr hc ht hk

theorem lookup_refillKind (s : FlowState) (c : Call) (rps : ℚ) (kind : String) :
    ((s.refillGlobal c.now).refillKind c.kind rps c.kindNow).kindTokens.lookup kind =
      if kind = c.kind then some (s.kindRefilled c.kind rps c.kindNow)
      else s.kindTokens.lookup kind := by
  by_cases hk : kind = c.kind
  · rw [if_pos hk, hk]
    exact AList.lookup_insert _
  · rw [if_neg hk]
    exact AList.lookup_insert_ne hk

/-- The state a call for a limited kind leaves to the global bucket. -/
def kindCharged (s : FlowState) (c : Call) (rps : ℚ) : FlowState :=
  let s' := (s.refillGlobal c.now).refillKind c.kind rps c.kindNow
  { s' with kindTokens := s'.kindTokens.insert c.kind (s.kindRefilled c.kind rps c.kindNow - 1) }

theorem lookup_kindCharged (s : FlowState) (c : Call) (rps : ℚ) (kind : String) :
    (s.kindCharged c rps).kindTokens.lookup kind =
      if kind = c.kind then some (s.kindRefilled c.kind rps c.kindNow - 1)
      else s.kindTokens.lookup kind := by
  by_cases hk : kind = c.kind
  · rw [if_pos hk, hk]
    exact AList.lookup_insert _
  · rw [if_neg hk]
    refine (AList.lookup_insert_ne hk).trans ?_
    rw [lookup_refillKind, if_neg hk]

theorem tryAdmit_unlimited (h : s.config.perKindRps.lookup c.kind = none) :
    s.tryAdmit c.kind c.now c.kindNow = (s.refillGlobal c.now).admitGlobal := by
  have hconfig : (s.refillGlobal c.now).config = s.config := rfl
  simp only [tryAdmit, hconfig, h]

theorem tryAdmit_limited (h : s.config.perKindRps.lookup c.kind = some rps) :
    s.tryAdmit c.kind c.now c.kindNow =
      if s.kindRefilled c.kind rps c.kindNow < 1 then
        (.rejected, { (s.refillGlobal c.now).refillKind c.kind rps c.kindNow with
          rejected := s.rejected + 1 })
      else (s.kindCharged c rps).admitGlobal := by
  have hconfig : (s.refillGlobal c.now).config = s.config := rfl
  have hlookup := lookup_refillKind s c rps c.kind
  rw [if_pos rfl] at hlookup
  simp only [tryAdmit, hconfig, h, hlookup, Option.getD_some]
  rfl

theorem kindRefilled_le (kind : String) (now : Instant) :
    s.kindRefilled kind rps now ≤ rps * 2 := min_le_right _ _

theorem kindRefilled_nonneg (h : s.InRange) {kind : String} (hr : 0 ≤ rps) (now : Instant) :
    0 ≤ s.kindRefilled kind rps now := by
  have hstored : 0 ≤ (s.kindTokens.lookup kind).getD (rps * 2) := by
    cases hl : s.kindTokens.lookup kind with
    | none => exact mul_nonneg hr zero_le_two
    | some tokens =>
      obtain ⟨_, _, hpos, _⟩ := h.kinds kind tokens hl
      exact hpos
  have helapsed : 0 ≤ elapsedSecsF64 ((s.kindLastRefill.lookup kind).getD now) now :=
    div_nonneg (Nat.cast_nonneg _) (Nat.cast_nonneg _)
  exact le_min (add_nonneg hstored (mul_nonneg helapsed hr)) (mul_nonneg hr zero_le_two)

theorem spared_unlimited (h : s.InRange) (hl : s.config.perKindRps.lookup c.kind = none) :
    (s.ChargesOnlyAdmitted c ∧ (s.tryAdmit c.kind c.now c.kindNow).2.InRange) ↔ s.Spared c := by
  have hcharge : ∀ kind, s.kindCharge c kind = 0 := fun kind => by simp [kindCharge, hl]
  have hbucket : ∀ kind, s.bucketRefilled c kind = s.kindTokens.lookup kind :=
    fun kind => by simp only [bucketRefilled, hl]
  have hcharges : s.ChargesOnlyAdmitted c := by
    simp only [ChargesOnlyAdmitted, tryAdmit_unlimited hl, hbucket, hcharge, sub_zero]
    by_cases hopen : (s.refillGlobal c.now).Open
    · rw [admitGlobal_open hopen, if_pos rfl]
      exact ⟨rfl, fun kind => by simp; rfl⟩
    · obtain ⟨hne, ht, hk, -⟩ := admitGlobal_shut hopen
      rw [if_neg hne]
      exact ⟨ht, fun kind => by rw [hk]; rfl⟩
  have hrange : (s.tryAdmit c.kind c.now c.kindNow).2.InRange ↔ 0 ≤ s.globalRefilled c.now := by
    rw [tryAdmit_unlimited hl, inRange_admitGlobal (min_le_right _ _)]
    exact ⟨fun hr => hr.global.1, fun h0 => ⟨⟨h0, min_le_right _ _⟩, h.kinds⟩⟩
  rw [and_iff_right hcharges, hrange]
  exact ⟨fun h0 => ⟨h0, by simp [hl], by simp [hl]⟩, fun hs => hs.global⟩

/-- Where the bucket of the kind has no token the global one is not touched. -/
theorem spared_exhausted (h : s.InRange) (hl : s.config.perKindRps.lookup c.kind = some rps)
    (hout : s.kindRefilled c.kind rps c.kindNow < 1) :
    (s.ChargesOnlyAdmitted c ∧ (s.tryAdmit c.kind c.now c.kindNow).2.InRange) ↔ s.Spared c := by
  have hcharges : s.ChargesOnlyAdmitted c := by
    simp only [ChargesOnlyAdmitted, tryAdmit_limited hl, if_pos hout]
    rw [if_neg nofun]
    refine ⟨rfl, fun kind => ?_⟩
    rw [lookup_refillKind, bucketRefilled, hl]
    by_cases hk : kind = c.kind
    · subst hk
      rfl
    · simp only [if_neg hk]
  have hrange : (s.tryAdmit c.kind c.now c.kindNow).2.InRange ↔
      0 ≤ s.globalRefilled c.now ∧ 0 ≤ rps := by
    rw [tryAdmit_limited hl, if_pos hout]
    constructor
    · intro hr
      obtain ⟨rps', hl', hpos, hcap⟩ := hr.kinds c.kind (s.kindRefilled c.kind rps c.kindNow)
        ((lookup_refillKind s c rps c.kind).trans (if_pos rfl))
      cases hl.symm.trans hl'
      exact ⟨hr.global.1, by linarith⟩
    · rintro ⟨h0, hr⟩
      refine ⟨⟨h0, min_le_right _ _⟩, fun kind tokens hk => ?_⟩
      replace hk := (lookup_refillKind s c rps kind).symm.trans hk
      by_cases heq : kind = c.kind
      · rw [if_pos heq] at hk
        cases hk
        exact ⟨rps, heq ▸ hl, kindRefilled_nonneg h hr _, kindRefilled_le _ _⟩
      · rw [if_neg heq] at hk
        exact h.kinds kind tokens hk
  rw [and_iff_right hcharges, hrange]
  constructor
  · rintro ⟨h0, hr⟩
    refine ⟨h0, fun rps' hl' => ?_, fun rps' hl' hone => ?_⟩
    · cases hl.symm.trans hl'
      exact hr
    · cases hl.symm.trans hl'
      exact absurd hone (not_le.mpr hout)
  · exact fun hs => ⟨hs.global, hs.rate rps hl⟩

/-- Where it has one, that is taken before the global bucket is asked. -/
theorem spared_charged (h : s.InRange) (hl : s.config.perKindRps.lookup c.kind = some rps)
    (hone : 1 ≤ s.kindRefilled c.kind rps c.kindNow) :
    (s.ChargesOnlyAdmitted c ∧ (s.tryAdmit c.kind c.now c.kindNow).2.InRange) ↔ s.Spared c := by
  have hbucket : ∀ kind, s.bucketRefilled c kind =
      if kind = c.kind then some (s.kindRefilled c.kind rps c.kindNow)
      else s.kindTokens.lookup kind := by
    intro kind
    rw [bucketRefilled, hl]
    by_cases hk : kind = c.kind
    · subst hk
      rfl
    · simp only [if_neg hk]
  have hcharges : s.ChargesOnlyAdmitted c ↔ (s.kindCharged c rps).Open := by
    simp only [ChargesOnlyAdmitted, tryAdmit_limited hl, if_neg (not_lt.mpr hone), hbucket]
    by_cases hopen : (s.kindCharged c rps).Open
    · rw [admitGlobal_open hopen, if_pos rfl, iff_true_right hopen]
      refine ⟨rfl, fun kind => ?_⟩
      rw [lookup_kindCharged]
      by_cases hk : kind = c.kind <;> simp [hk, kindCharge, hl]
    · obtain ⟨hne, -, hk, -⟩ := admitGlobal_shut hopen
      rw [if_neg hne, iff_false_right hopen]
      rintro ⟨-, hall⟩
      have hkind := hall c.kind
      rw [hk, lookup_kindCharged, if_pos rfl, if_pos rfl, Option.some_inj] at hkind
      linarith
  have hrange : (s.tryAdmit c.kind c.now c.kindNow).2.InRange ↔ 0 ≤ s.globalRefilled c.now := by
    rw [tryAdmit_limited hl, if_neg (not_lt.mpr hone), inRange_admitGlobal (min_le_right _ _)]
    refine ⟨fun hr => hr.global.1, fun h0 => ⟨⟨h0, min_le_right _ _⟩, fun kind tokens hk => ?_⟩⟩
    rw [lookup_kindCharged] at hk
    by_cases heq : kind = c.kind
    · rw [if_pos heq] at hk
      cases hk
      have hcap : s.kindRefilled c.kind rps c.kindNow ≤ rps * 2 := kindRefilled_le _ _
      exact ⟨rps, heq ▸ hl, by linarith, by linarith⟩
    · rw [if_neg heq] at hk
      exact h.kinds kind tokens hk
  rw [hcharges, hrange]
  constructor
  · rintro ⟨hopen, h0⟩
    refine ⟨h0, fun rps' hl' => ?_, fun rps' hl' _ => hopen⟩
    cases hl.symm.trans hl'
    have hcap : s.kindRefilled c.kind rps c.kindNow ≤ rps * 2 := kindRefilled_le _ _
    linarith
  · exact fun hs => ⟨hs.paid rps hl hone, hs.global⟩

/-- A call keeps its promise exactly if it is spared. -/
theorem spared_iff (h : s.InRange) :
    (s.ChargesOnlyAdmitted c ∧ (s.tryAdmit c.kind c.now c.kindNow).2.InRange) ↔ s.Spared c := by
  cases hl : s.config.perKindRps.lookup c.kind with
  | none => exact spared_unlimited h hl
  | some rps =>
    by_cases hout : s.kindRefilled c.kind rps c.kindNow < 1
    · exact spared_exhausted h hl hout
    · exact spared_charged h hl (not_lt.mp hout)

theorem inRange_new (config : FlowConfig) (now : Instant) : (new config now).InRange where
  global := ⟨Nat.cast_nonneg _, le_refl _⟩
  kinds _ _ h := nomatch h

end FlowState

open FlowState

/-- In every run, from a new controller on, each call charges what it admits and leaves every
bucket in its range exactly as long as each call is spared. -/
theorem charges_only_admitted_iff (config : FlowConfig) (start : Instant) (calls : List Call) :
    (new config start).InRange ∧
      (EachStep step (fun s c => s.ChargesOnlyAdmitted c ∧
          (s.tryAdmit c.kind c.now c.kindNow).2.InRange) (new config start) calls ↔
        EachStep step Spared (new config start) calls) := by
  refine ⟨inRange_new config start, eachStep_iff_of_invariant (inRange_new config start) ?_⟩
  intro s c s' h hs
  cases hs
  exact ⟨spared_iff h, fun hspared => ((spared_iff h).mpr hspared).2⟩

/-- One request in a burst, and a limit for one kind that is not reached. -/
def narrow : FlowConfig where
  globalRps := 1
  burst := 1
  perKindRps := AList.singleton "hash_mix" 10

/-- The second of two calls at once is rejected, and costs its kind a token. -/
theorem rejected_call_charged :
    ¬ EachStep step (fun s c => s.ChargesOnlyAdmitted c ∧
        (s.tryAdmit c.kind c.now c.kindNow).2.InRange) (new narrow 0)
      [⟨"hash_mix", 0, 0⟩, ⟨"hash_mix", 0, 0⟩] := by
  intro h
  have hcharges := ((h _ rfl).2 _ rfl).1.1
  have hresult : (((new narrow 0).tryAdmit "hash_mix" 0 0).2.tryAdmit "hash_mix" 0 0).1 ≠
      .admitted := by decide +kernel
  have hkind : (((new narrow 0).tryAdmit "hash_mix" 0 0).2.tryAdmit "hash_mix" 0 0).2.kindTokens.lookup
      "hash_mix" ≠ ((new narrow 0).tryAdmit "hash_mix" 0 0).2.bucketRefilled
        ⟨"hash_mix", 0, 0⟩ "hash_mix" := by decide +kernel
  simp only [ChargesOnlyAdmitted, if_neg hresult] at hcharges
  exact hkind (hcharges.2 "hash_mix")

end HelixRouter.Flow
