import HelixRouter.Gateway.ApiGateway
import HelixRouter.Metering.FixedWindow

namespace HelixRouter.Gateway

open Floats Metering Runs

structure ThrottleCall where
  clientId : String
  now : Instant

namespace ThrottleCall

/-- When a client called. -/
def times (clientId : String) (calls : List ThrottleCall) : List Instant :=
  (calls.filter (·.clientId = clientId)).map (·.now)

variable {clientId : String} {call : ThrottleCall} {calls : List ThrottleCall}

theorem times_cons (h : call.clientId = clientId) :
    times clientId (call :: calls) = call.now :: times clientId calls := by
  simp [times, h]

theorem times_cons_of_ne (h : call.clientId ≠ clientId) :
    times clientId (call :: calls) = times clientId calls := by
  simp [times, h]

theorem times_ordered (h : calls.Pairwise (·.now ≤ ·.now)) :
    (times clientId calls).Pairwise (· ≤ ·) :=
  List.pairwise_map.mpr (h.sublist List.filter_sublist)

end ThrottleCall

namespace ApiGateway

/-- A call that is not throttled is let through. -/
def letThrough (rate : String → F64) : Limiter ApiGateway ThrottleCall := fun g call =>
  let (throttled, g) := g.checkThrottle call.now call.clientId (rate call.clientId)
  (!throttled, g)

/-- A count, in the word that holds it, does not exceed the rate. -/
def withinRate (rate : F64) (count : Nat) : Bool := !rate.lt (.ofU64 (UInt64.ofNat count))

/-- The window of a client in the gateway. -/
def HasWindow (g : ApiGateway) (clientId : String) : Option (Nat × Nat) → Prop
  | none => g.windowStarts.lookup clientId = none ∧ g.requestCounts.lookup clientId = none
  | some (start, count) => g.windowStarts.lookup clientId = some start ∧
      g.requestCounts.lookup clientId = some (UInt64.ofNat count)

variable {g : ApiGateway} {clientId other : String} {window : Option (Nat × Nat)}
  {rate : F64} {rates : String → F64} {calls : List ThrottleCall}

theorem checkThrottle_of_ne (now : Instant) (rate : F64) (hw : g.HasWindow clientId window)
    (h : other ≠ clientId) :
    (g.checkThrottle now other rate).2.HasWindow clientId window := by
  unfold HasWindow at hw ⊢
  unfold checkThrottle
  dsimp only
  rw [AList.lookup_insert_ne h.symm, AList.lookup_insert_ne h.symm]
  exact hw

theorem ofNat_add_one (count : Nat) : UInt64.ofNat count + 1 = UInt64.ofNat (count + 1) :=
  (UInt64.ofNat_add count 1).symm

theorem checkThrottle_window (now : Instant) (rate : F64) (hw : g.HasWindow clientId window) :
    (!(g.checkThrottle now clientId rate).1) =
        (fixedWindow nanosPerSec (withinRate rate) window now).1 ∧
      (g.checkThrottle now clientId rate).2.HasWindow clientId
        (fixedWindow nanosPerSec (withinRate rate) window now).2 := by
  have hfirst : (0 : UInt64) + 1 = UInt64.ofNat 1 := ofNat_add_one 0
  have hpos : 0 < nanosPerSec := by decide
  cases window with
  | none =>
    obtain ⟨hstart, hcount⟩ := hw
    have hfresh : ¬ nanosPerSec ≤ now - now := by omega
    unfold checkThrottle fixedWindow
    simp only [hstart, hcount, Option.getD_none, hfresh, decide_false, Bool.false_eq_true, if_false,
      hfirst, withinRate, true_and]
    exact ⟨AList.lookup_insert _, AList.lookup_insert _⟩
  | some window =>
    obtain ⟨start, count⟩ := window
    obtain ⟨hstart, hcount⟩ := hw
    have hreset : nanosPerSec ≤ now - start ↔ start + nanosPerSec ≤ now := by omega
    unfold checkThrottle fixedWindow
    simp only [hstart, hcount, Option.getD_some, hreset]
    by_cases hover : start + nanosPerSec ≤ now
    · simp only [hover, decide_true, if_true, hfirst, withinRate, true_and]
      exact ⟨AList.lookup_insert _, AList.lookup_insert _⟩
    · simp only [hover, decide_false, Bool.false_eq_true, if_false, ofNat_add_one, withinRate,
        true_and]
      exact ⟨AList.lookup_insert _, AList.lookup_insert _⟩

/-- Each client has a window of its own. -/
theorem times_admitted (hw : g.HasWindow clientId window) :
    ThrottleCall.times clientId (Limiter.admitted (letThrough rates) g calls) =
      Limiter.admitted (fixedWindow nanosPerSec (withinRate (rates clientId))) window
        (ThrottleCall.times clientId calls) := by
  induction calls generalizing g window with
  | nil => rfl
  | cons call calls ih =>
    by_cases hc : call.clientId = clientId
    · obtain ⟨hpass, hnext⟩ := checkThrottle_window call.now (rates clientId) hw
      rw [← hc] at hpass hnext
      have hanswer : (letThrough rates g call).1 =
          (fixedWindow nanosPerSec (withinRate (rates clientId)) window call.now).1 :=
        hc ▸ hpass
      have hafter : (letThrough rates g call).2.HasWindow clientId
          (fixedWindow nanosPerSec (withinRate (rates clientId)) window call.now).2 :=
        hc ▸ hnext
      rw [ThrottleCall.times_cons hc, Limiter.admitted, Limiter.admitted, ← hanswer]
      split
      · rw [ThrottleCall.times_cons hc, ih hafter]
      · exact ih hafter
    · have hsame : (letThrough rates g call).2.HasWindow clientId window :=
        checkThrottle_of_ne call.now (rates call.clientId) hw hc
      rw [ThrottleCall.times_cons_of_ne hc, Limiter.admitted]
      split
      · rw [ThrottleCall.times_cons_of_ne hc, ih hsame]
      · exact ih hsame

/-- Counts up to the whole part of the rate do not exceed it. -/
theorem withinRate_of_le {n count : Nat} (hrate : rate.Representable)
    (hone : (F64.finite 1).le rate = true) (hn : rate.wholePart = some n) (h : count ≤ n) :
    withinRate rate count = true := by
  cases rate with
  | nan => cases hn
  | infinite negative => cases hn
  | finite q =>
    have hq : 1 ≤ q := by simpa [F64.le, F64.lt] using hone
    have hfloor : ((UInt64.ofNat count).toNat : ℤ) ≤ ⌊q⌋ := by
      have hn : ⌊q⌋.toNat = n := Option.some.inj hn
      have hpos : 0 ≤ ⌊q⌋ := Int.floor_nonneg.mpr (zero_le_one.trans hq)
      have hmod : (UInt64.ofNat count).toNat ≤ count := Nat.mod_le _ _
      omega
    have hle : ((UInt64.ofNat count).toNat : ℚ) ≤ q := by exact_mod_cast Int.le_floor.mp hfloor
    rw [withinRate, F64.ofU64, F64.lt_ofRat_of_le hrate (Nat.cast_nonneg _) hle]
    rfl

/-- A count above the whole part exceeds the rate, unless it is so large that it is rounded. -/
theorem withinRate_of_lt {n count : Nat} (hn : rate.wholePart = some n) (hsmall : n + 1 < 2 ^ 53)
    (hword : count < 2 ^ 64) (h : n < count) : withinRate rate count = false := by
  cases rate with
  | nan => cases hn
  | infinite negative => cases hn
  | finite q =>
    have hn : ⌊q⌋.toNat = n := Option.some.inj hn
    have hq : q < (n + 1 : Nat) := by
      have hfloor : ⌊q⌋ < ((n + 1 : Nat) : ℤ) := by omega
      exact_mod_cast Int.floor_lt.mp hfloor
    have hcount : (UInt64.ofNat count).toNat = count := UInt64.toNat_ofNat_of_lt' hword
    have hle : ((n + 1 : Nat) : ℚ) ≤ count := by exact_mod_cast h
    have hexceeds : (F64.finite q).lt (F64.ofRat count) = true := by
      rcases F64.le_ofRat hsmall (Nat.succ_pos n) hle with hinf | ⟨v, hv, hnv⟩
      · rw [hinf]
        rfl
      · rw [hv, F64.lt, decide_eq_true_eq]
        exact lt_of_lt_of_le hq hnv
    rw [withinRate, F64.ofU64, hcount, hexceeds]
    rfl

end ApiGateway

open ApiGateway

/-- A client is held to its rate in every second just where its calls beyond the rate find a
count that exceeds it, and its windows are apart. -/
theorem throttle_bounded_iff (rates : String → F64) (clientId : String)
    (calls : List ThrottleCall) (hrate : (rates clientId).Representable)
    (hone : (F64.finite 1).le (rates clientId) = true)
    (ordered : calls.Pairwise (·.now ≤ ·.now)) :
    (∀ n ∈ (rates clientId).wholePart, Bounded nanosPerSec n
        (ThrottleCall.times clientId (Limiter.admitted (letThrough rates) {} calls))) ↔
      ∀ n ∈ (rates clientId).wholePart, Spaced nanosPerSec n (withinRate (rates clientId))
        (windows nanosPerSec (ThrottleCall.times clientId calls)) := by
  have hnew : HasWindow {} clientId none := ⟨AList.lookup_empty _, AList.lookup_empty _⟩
  refine forall_congr' fun n => forall_congr' fun hn => ?_
  rw [times_admitted hnew]
  apply bounded_fixedWindow_iff (by decide) _ (ThrottleCall.times_ordered ordered)
  intro count _ hle
  exact withinRate_of_le hrate hone hn hle

theorem representable_two : (F64.finite 2).Representable := by
  have htwo := F64.ofRat_intCast (z := 2) (by norm_num)
  exact_mod_cast htwo

theorem one_le_two : (F64.finite 1).le (.finite 2) = true := by simp [F64.le, F64.lt]

theorem wholePart_two : (F64.finite 2).wholePart = some 2 := by simp [F64.wholePart]

/-- Three calls in each of two windows, the last of each beyond the rate, and another client's
call among them. -/
def paced : List ThrottleCall :=
  [⟨"a", 0⟩, ⟨"a", 400000000⟩, ⟨"b", 500000000⟩, ⟨"a", 600000000⟩,
    ⟨"a", 1200000000⟩, ⟨"a", 1500000000⟩, ⟨"a", 1600000000⟩]

theorem windows_paced : windows nanosPerSec (ThrottleCall.times "a" paced) =
    [[0, 400000000, 600000000], [1200000000, 1500000000, 1600000000]] := by
  simp [ThrottleCall.times, paced, windows_cons, windows_nil, nanosPerSec]

/-- Of the first window only the second call is still in the second of the next one's first call,
and none is in that of its second. -/
theorem paced_apart : Apart nanosPerSec 2 [0, 400000000, 600000000]
    [1200000000, 1500000000, 1600000000] := by
  intro before t later h
  obtain _ | ⟨first, _ | ⟨second, before⟩⟩ := before
  · cases h
    decide
  · cases h
    decide
  · simp at h

theorem throttle_bounded_iff_paced : Bounded nanosPerSec 2
    (ThrottleCall.times "a" (Limiter.admitted (letThrough fun _ => .finite 2) {} paced)) := by
  refine (throttle_bounded_iff (fun _ => .finite 2) "a" paced representable_two one_le_two
    (by decide)).mpr (fun n hn => ?_) 2 wholePart_two
  obtain rfl : 2 = n := Option.some.inj (wholePart_two.symm.trans hn)
  rw [windows_paced]
  refine ⟨fun w hw k hk hle => ?_, List.isChain_pair.mpr paced_apart⟩
  have hlen : w.length = 3 := by
    rcases List.mem_pair.mp hw with rfl | rfl <;> rfl
  exact withinRate_of_lt wholePart_two (by decide) (by omega) hk

/-- Two calls a second, half a second apart the first two, the others right after a second. -/
def acrossReset : List ThrottleCall :=
  [⟨"a", 0⟩, ⟨"a", 500000000⟩, ⟨"a", 1000000000⟩, ⟨"a", 1000000000⟩]

theorem acrossReset_not_bounded : ¬ ∀ n ∈ (F64.finite 2).wholePart, Bounded nanosPerSec n
    (ThrottleCall.times "a" (Limiter.admitted (letThrough fun _ => .finite 2) {} acrossReset)) := by
  intro h
  have hnew : HasWindow {} "a" none := ⟨AList.lookup_empty _, AList.lookup_empty _⟩
  have hpass : ∀ count ≤ 2, withinRate (.finite 2) count = true := fun count hle =>
    withinRate_of_le representable_two one_le_two wholePart_two hle
  have hall : ThrottleCall.times "a"
      (Limiter.admitted (letThrough fun _ => .finite 2) {} acrossReset) =
        [0, 500000000, 1000000000, 1000000000] := by
    rw [times_admitted hnew]
    simp [ThrottleCall.times, acrossReset, Limiter.admitted, fixedWindow, nanosPerSec, hpass]
  have hsecond := h 2 wholePart_two 500000000
  rw [hall] at hsecond
  exact absurd hsecond (by decide)

end HelixRouter.Gateway
