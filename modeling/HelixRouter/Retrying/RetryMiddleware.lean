import HelixRouter.Containers.Greatest
import HelixRouter.Router.Numbers
import HelixRouter.Texts.Bytes

namespace HelixRouter.Retrying

open Texts

inductive RetryPolicy where
  | noRetry
  | fixed (attempts : UInt32) (delayMs : UInt64)
  | exponentialBackoff (attempts : UInt32) (baseMs maxMs : UInt64) (jitter : Bool)
  | linearBackoff (attempts : UInt32) (initialMs incrementMs : UInt64)
deriving Repr, DecidableEq

/-- Arithmetic that leaves the range of its words. -/
inductive Overflow where
  | multiply
  | subtract
deriving Repr, DecidableEq

def checkedMul (a b : UInt64) : Except Overflow UInt64 :=
  if a.toNat * b.toNat ≤ u64Max then .ok (a * b) else .error .multiply

def checkedSub (a b : UInt32) : Except Overflow UInt32 :=
  if b ≤ a then .ok (a - b) else .error .subtract

def idempotentMethods : List Text :=
  ["GET", "HEAD", "PUT", "DELETE", "OPTIONS", "TRACE"].map String.toList

def isIdempotent (method : Text) : Bool := idempotentMethods.contains (method.map Char.toUpper)

def shouldRetry (statusCode : UInt16) : Bool := [429, 500, 502, 503, 504].contains statusCode

def exponentialDelayMs (baseMs maxMs : UInt64) (attempt : UInt32) : UInt64 :=
  let shift := attempt.toNat - 1
  let multiplier := if 64 ≤ shift then UInt64.ofNat u64Max else 1 <<< UInt64.ofNat shift
  min (saturatingMul baseMs multiplier) maxMs

/-- The jitter is below half the base, and the sum is capped once more. -/
def jitteredDelayMs (baseMs maxMs seed capped : UInt64) : UInt64 :=
  let range := baseMs / 2
  let jitter := if 0 < range then seed % range else 0
  min (saturatingAdd capped jitter) maxMs

def computeDelayMs (policy : RetryPolicy) (attempt : UInt32) (seed : UInt64) :
    Except Overflow UInt64 :=
  match policy with
  | .noRetry => .ok 0
  | .fixed _ delayMs => .ok delayMs
  | .exponentialBackoff _ baseMs maxMs jitter =>
    let capped := exponentialDelayMs baseMs maxMs attempt
    .ok (if jitter ∧ 0 < baseMs then jitteredDelayMs baseMs maxMs seed capped else capped)
  | .linearBackoff _ initialMs incrementMs => do
    let before ← checkedSub attempt 1
    return saturatingAdd initialMs (saturatingMul incrementMs before.toUInt64)

structure RetryAttempt where
  attemptNum : UInt32
  delayMs : UInt64
  lastStatus : UInt16
deriving Repr, DecidableEq

/-- The policies stand with the longest of their beginnings first. -/
structure RetryMiddleware where
  policies : List (Text × RetryPolicy) := []
  defaultPolicy : RetryPolicy

namespace RetryPolicy

/-- The policy without retries has no bound to read. -/
def attempts? : RetryPolicy → Option UInt32
  | noRetry => none
  | fixed attempts _ => some attempts
  | exponentialBackoff attempts _ _ _ => some attempts
  | linearBackoff attempts _ _ => some attempts

end RetryPolicy

namespace RetryMiddleware

def entryLen (entry : Text × RetryPolicy) : Nat := byteLen entry.1

def addPolicy (m : RetryMiddleware) (routePrefix : Text) (policy : RetryPolicy) :
    RetryMiddleware :=
  { m with
    policies := (m.policies ++ [(routePrefix, policy)]).insertionSort
      fun a b => entryLen b ≤ entryLen a }

def getPolicy (m : RetryMiddleware) (route : Text) : RetryPolicy :=
  match m.policies.find? fun entry => entry.1.isPrefixOf route with
  | some entry => entry.2
  | none => m.defaultPolicy

def seedMultiplier : UInt64 := 6364136223846793005

def shouldRetryRequest (m : RetryMiddleware) (route method : Text) (statusCode : UInt16)
    (attempt : UInt32) : Except Overflow (Option RetryAttempt) :=
  if ¬isIdempotent method then .ok none
  else if ¬shouldRetry statusCode then .ok none
  else
    let policy := m.getPolicy route
    match policy.attempts? with
    | none => .ok none
    | some maxAttempts =>
      if maxAttempts ≤ attempt then .ok none
      else do
        let seed ← checkedMul attempt.toUInt64 seedMultiplier
        let delayMs ← computeDelayMs policy attempt seed
        return some ⟨attempt, delayMs, statusCode⟩

/-- The middleware after the given calls of `add_policy`. -/
def registered (defaultPolicy : RetryPolicy) (calls : List (Text × RetryPolicy)) :
    RetryMiddleware :=
  calls.foldl (fun m call => m.addPolicy call.1 call.2) { defaultPolicy }

end RetryMiddleware

open Texts RetryMiddleware

/-- The policy of the longest of the beginnings of a route that were added, of the earliest
among equals, and the default where none was. -/
inductive Chosen (defaultPolicy : RetryPolicy) (calls : List (Text × RetryPolicy))
    (route : Text) : RetryPolicy → Prop where
  | added (before : List (Text × RetryPolicy)) (call : Text × RetryPolicy)
      (after : List (Text × RetryPolicy)) (heq : calls = before ++ call :: after)
      (hbegins : call.1 <+: route)
      (hbefore : ∀ c ∈ before, c.1 <+: route → entryLen c < entryLen call)
      (hafter : ∀ c ∈ after, c.1 <+: route → entryLen c ≤ entryLen call) :
      Chosen defaultPolicy calls route call.2
  | unmatched (hnone : ∀ c ∈ calls, ¬c.1 <+: route) :
      Chosen defaultPolicy calls route defaultPolicy

def RetryPolicy.Allows (policy : RetryPolicy) (attempt : UInt32) : Prop :=
  ∃ attempts, policy.attempts? = some attempts ∧ attempt < attempts

/-- The requests that are meant to be sent once more. -/
def Retried (defaultPolicy : RetryPolicy) (calls : List (Text × RetryPolicy))
    (route method : Text) (statusCode : UInt16) (attempt : UInt32) : Prop :=
  isIdempotent method ∧ shouldRetry statusCode ∧
    ∃ policy, Chosen defaultPolicy calls route policy ∧ policy.Allows attempt

/-- A request is answered without an overflow and as meant, with the delay of its policy. The
delays of an exponential policy are capped, and they grow where there is no jitter. -/
structure Exact (defaultPolicy : RetryPolicy) (calls : List (Text × RetryPolicy))
    (route method : Text) (statusCode : UInt16) (attempt : UInt32) : Prop where
  answered : ∃ answer,
    (registered defaultPolicy calls).shouldRetryRequest route method statusCode attempt =
      .ok answer ∧
    (answer.isSome ↔ Retried defaultPolicy calls route method statusCode attempt) ∧
    ∀ retry ∈ answer, ∃ policy seed, Chosen defaultPolicy calls route policy ∧
      computeDelayMs policy attempt seed = .ok retry.delayMs
  capped : ∀ attempts baseMs maxMs jitter,
    Chosen defaultPolicy calls route (.exponentialBackoff attempts baseMs maxMs jitter) →
    ∀ n seed delayMs,
      computeDelayMs (.exponentialBackoff attempts baseMs maxMs jitter) n seed = .ok delayMs →
      delayMs ≤ maxMs
  growing : ∀ attempts baseMs maxMs,
    Chosen defaultPolicy calls route (.exponentialBackoff attempts baseMs maxMs false) →
    ∀ m n seedM seedN delayM delayN, m ≤ n →
      computeDelayMs (.exponentialBackoff attempts baseMs maxMs false) m seedM = .ok delayM →
      computeDelayMs (.exponentialBackoff attempts baseMs maxMs false) n seedN = .ok delayN →
      delayM ≤ delayN

section Choice

variable {defaultPolicy policy : RetryPolicy} {calls : List (Text × RetryPolicy)} {route : Text}

theorem registered_concat (call : Text × RetryPolicy) :
    registered defaultPolicy (calls ++ [call]) =
      (registered defaultPolicy calls).addPolicy call.1 call.2 :=
  List.foldl_concat ..

theorem defaultPolicy_registered :
    (registered defaultPolicy calls).defaultPolicy = defaultPolicy := by
  induction calls using List.reverseRecOn with
  | nil => rfl
  | append_singleton calls call ih =>
    rw [registered_concat]
    exact ih

theorem policies_sorted :
    (registered defaultPolicy calls).policies.Pairwise fun a b => entryLen b ≤ entryLen a := by
  induction calls using List.reverseRecOn with
  | nil => exact List.Pairwise.nil
  | append_singleton calls call =>
    rw [registered_concat]
    exact List.pairwise_insertionSort_ge entryLen _

/-- The stable sort keeps which of the longest entries was added first. -/
theorem argmax_policies (p : Text × RetryPolicy → Bool) :
    ((registered defaultPolicy calls).policies.filter p).argmax entryLen =
      (calls.filter p).argmax entryLen := by
  induction calls using List.reverseRecOn with
  | nil => rfl
  | append_singleton calls call ih =>
    rw [registered_concat, addPolicy, List.filter_insertionSort, List.argmax_insertionSort,
      List.filter_append, List.filter_append]
    by_cases hp : p call
    · rw [List.filter_cons_of_pos hp, List.filter_nil, List.argmax_concat, List.argmax_concat, ih]
    · rw [List.filter_cons_of_neg hp, List.filter_nil, List.append_nil, List.append_nil, ih]

theorem find?_policies (p : Text × RetryPolicy → Bool) :
    (registered defaultPolicy calls).policies.find? p = (calls.filter p).argmax entryLen := by
  rw [List.find?_eq_argmax policies_sorted, argmax_policies]

theorem getPolicy_registered : (registered defaultPolicy calls).getPolicy route =
    (((calls.filter fun c => c.1.isPrefixOf route).argmax entryLen).map (·.2)).getD
      defaultPolicy := by
  rw [getPolicy, find?_policies, defaultPolicy_registered]
  cases (calls.filter fun c => c.1.isPrefixOf route).argmax entryLen <;> rfl

theorem Chosen.getPolicy_eq (h : Chosen defaultPolicy calls route policy) :
    (registered defaultPolicy calls).getPolicy route = policy := by
  rw [getPolicy_registered]
  cases h with
  | added before call after heq hbegins hbefore hafter =>
    have hbest : (calls.filter fun c => c.1.isPrefixOf route).argmax entryLen = some call := by
      rw [List.argmax_filter_eq_some_iff]
      simp only [List.isPrefixOf_iff_prefix]
      exact ⟨before, after, heq, hbegins, hbefore, hafter⟩
    rw [hbest]
    rfl
  | unmatched hnone =>
    have hnil : (calls.filter fun c => c.1.isPrefixOf route) = [] := by
      rw [List.filter_eq_nil_iff]
      intro c hc
      rw [List.isPrefixOf_iff_prefix]
      exact hnone c hc
    rw [hnil]
    rfl

theorem chosen_getPolicy (defaultPolicy : RetryPolicy) (calls : List (Text × RetryPolicy))
    (route : Text) :
    Chosen defaultPolicy calls route ((registered defaultPolicy calls).getPolicy route) := by
  rw [getPolicy_registered]
  cases hbest : (calls.filter fun c => c.1.isPrefixOf route).argmax entryLen with
  | none =>
    refine .unmatched fun c hc => ?_
    rw [← List.isPrefixOf_iff_prefix]
    exact List.filter_eq_nil_iff.mp (List.argmax_eq_none.mp hbest) c hc
  | some best =>
    simp only [List.argmax_filter_eq_some_iff, List.isPrefixOf_iff_prefix] at hbest
    obtain ⟨before, after, heq, hbegins, hbefore, hafter⟩ := hbest
    exact .added before best after heq hbegins hbefore hafter

theorem retried_iff {method : Text} {statusCode : UInt16} {attempt : UInt32} :
    Retried defaultPolicy calls route method statusCode attempt ↔
      isIdempotent method ∧ shouldRetry statusCode ∧
        ((registered defaultPolicy calls).getPolicy route).Allows attempt := by
  refine and_congr_right fun _ => and_congr_right fun _ => ⟨?_, fun h => ?_⟩
  · rintro ⟨policy, hchosen, hallows⟩
    rwa [hchosen.getPolicy_eq]
  · exact ⟨_, chosen_getPolicy defaultPolicy calls route, h⟩

end Choice

section Delays

variable {attempts m n : UInt32} {baseMs maxMs : UInt64} {jitter : Bool}

theorem toNat_multiplier (shift : Nat) :
    (if 64 ≤ shift then UInt64.ofNat u64Max else 1 <<< UInt64.ofNat shift).toNat =
      min (2 ^ shift) u64Max := by
  split
  · rename_i h
    have : 2 ^ 64 ≤ 2 ^ shift := Nat.pow_le_pow_right (by decide) h
    rw [Nat.min_eq_right (by unfold u64Max; omega)]
    rfl
  · rename_i h
    have hpow : 2 ^ shift ≤ 2 ^ 63 := Nat.pow_le_pow_right (by decide) (by omega)
    rw [UInt64.toNat_shiftLeft, UInt64.toNat_ofNat', Nat.mod_eq_of_lt (by omega : shift < 2 ^ 64),
      Nat.mod_eq_of_lt (by omega : shift < 64), UInt64.toNat_one, Nat.shiftLeft_eq, Nat.one_mul,
      Nat.mod_eq_of_lt (by omega), Nat.min_eq_left (by unfold u64Max; omega)]

theorem toNat_exponentialDelayMs (baseMs maxMs : UInt64) (attempt : UInt32) :
    (exponentialDelayMs baseMs maxMs attempt).toNat =
      min (min (baseMs.toNat * min (2 ^ (attempt.toNat - 1)) u64Max) u64Max) maxMs.toNat := by
  rw [exponentialDelayMs, toNat_min, toNat_saturatingMul, toNat_multiplier]

theorem exponentialDelayMs_mono (h : m ≤ n) :
    exponentialDelayMs baseMs maxMs m ≤ exponentialDelayMs baseMs maxMs n := by
  rw [UInt64.le_iff_toNat_le, toNat_exponentialDelayMs, toNat_exponentialDelayMs]
  have hle : m.toNat - 1 ≤ n.toNat - 1 := Nat.sub_le_sub_right (UInt32.le_iff_toNat_le.mp h) 1
  gcongr
  · decide

theorem computeDelayMs_le {seed delayMs : UInt64}
    (h : computeDelayMs (.exponentialBackoff attempts baseMs maxMs jitter) n seed = .ok delayMs) :
    delayMs ≤ maxMs := by
  have hdelay := (Except.ok.inj h).symm
  subst hdelay
  rw [UInt64.le_iff_toNat_le]
  split
  · rw [jitteredDelayMs, toNat_min]
    exact Nat.min_le_right _ _
  · rw [exponentialDelayMs, toNat_min]
    exact Nat.min_le_right _ _

theorem computeDelayMs_mono {seedM seedN delayM delayN : UInt64} (hle : m ≤ n)
    (hm : computeDelayMs (.exponentialBackoff attempts baseMs maxMs false) m seedM = .ok delayM)
    (hn : computeDelayMs (.exponentialBackoff attempts baseMs maxMs false) n seedN = .ok delayN) :
    delayM ≤ delayN := by
  have hdelayM := Except.ok.inj hm
  have hdelayN := Except.ok.inj hn
  simp only [Bool.false_eq_true, false_and, if_false] at hdelayM hdelayN
  rw [← hdelayM, ← hdelayN]
  exact exponentialDelayMs_mono hle

/-- Only the linear delay subtracts, and there is an attempt to take off. -/
theorem computeDelayMs_ok (policy : RetryPolicy) (seed : UInt64) (h1 : 1 ≤ n) :
    ∃ delayMs, computeDelayMs policy n seed = .ok delayMs := by
  cases policy with
  | noRetry => exact ⟨_, rfl⟩
  | fixed => exact ⟨_, rfl⟩
  | exponentialBackoff => exact ⟨_, rfl⟩
  | linearBackoff attempts initialMs incrementMs =>
    rw [computeDelayMs, checkedSub, if_pos h1]
    exact ⟨_, rfl⟩

end Delays

section Seeds

variable {attempt : UInt32}

theorem checkedMul_seed (h : attempt.toNat ≤ 2) :
    checkedMul attempt.toUInt64 seedMultiplier = .ok (attempt.toUInt64 * seedMultiplier) := by
  refine if_pos ?_
  rw [UInt32.toNat_toUInt64]
  change attempt.toNat * 6364136223846793005 ≤ 18446744073709551615
  omega

theorem checkedMul_seed_error (h : 2 < attempt.toNat) :
    checkedMul attempt.toUInt64 seedMultiplier = .error .multiply := by
  refine if_neg ?_
  rw [UInt32.toNat_toUInt64]
  change ¬attempt.toNat * 6364136223846793005 ≤ 18446744073709551615
  omega

end Seeds

section Requests

variable {m : RetryMiddleware} {defaultPolicy : RetryPolicy}
  {calls : List (Text × RetryPolicy)} {route method : Text} {statusCode : UInt16}
  {attempt : UInt32}

theorem shouldRetryRequest_of_not (h : ¬(isIdempotent method ∧ shouldRetry statusCode ∧
    (m.getPolicy route).Allows attempt)) :
    m.shouldRetryRequest route method statusCode attempt = .ok none := by
  rw [shouldRetryRequest]
  split
  · rfl
  · rename_i hmethod
    split
    · rfl
    · rename_i hstatus
      dsimp only
      cases hattempts : (m.getPolicy route).attempts? with
      | none => rfl
      | some maxAttempts =>
        refine if_pos (UInt32.not_lt.mp fun hlt => h ?_)
        exact ⟨not_not.mp hmethod, not_not.mp hstatus, maxAttempts, hattempts, hlt⟩

/-- A request that is retried has its seed computed first. -/
theorem shouldRetryRequest_of_allows (hmethod : isIdempotent method)
    (hstatus : shouldRetry statusCode) (hallows : (m.getPolicy route).Allows attempt) :
    m.shouldRetryRequest route method statusCode attempt = (do
      let seed ← checkedMul attempt.toUInt64 seedMultiplier
      let delayMs ← computeDelayMs (m.getPolicy route) attempt seed
      return some ⟨attempt, delayMs, statusCode⟩) := by
  obtain ⟨maxAttempts, hattempts, hlt⟩ := hallows
  rw [shouldRetryRequest, if_neg (not_not.mpr hmethod), if_neg (not_not.mpr hstatus)]
  dsimp only
  rw [hattempts]
  exact if_neg (UInt32.not_le.mpr hlt)

theorem exact_of_answer {answer : Option RetryAttempt}
    (hanswer : (registered defaultPolicy calls).shouldRetryRequest route method statusCode
      attempt = .ok answer)
    (hiff : answer.isSome ↔ Retried defaultPolicy calls route method statusCode attempt)
    (hdelay : ∀ retry ∈ answer, ∃ policy seed, Chosen defaultPolicy calls route policy ∧
      computeDelayMs policy attempt seed = .ok retry.delayMs) :
    Exact defaultPolicy calls route method statusCode attempt where
  answered := ⟨answer, hanswer, hiff, hdelay⟩
  capped _ _ _ _ _ _ _ _ h := computeDelayMs_le h
  growing _ _ _ _ _ _ _ _ _ _ hle hm hn := computeDelayMs_mono hle hm hn

/-- Requests are answered exactly, without an overflow, where the seed of the jitter is within
a word or none is computed. -/
theorem decisions_exact_iff (h1 : 1 ≤ attempt) :
    Exact defaultPolicy calls route method statusCode attempt ↔
      attempt ≤ 2 ∨ ¬Retried defaultPolicy calls route method statusCode attempt := by
  constructor
  · intro hexact
    by_contra hnot
    obtain ⟨hlarge, hretried⟩ := not_or.mp hnot
    obtain ⟨hmethod, hstatus, hallows⟩ := retried_iff.mp (not_not.mp hretried)
    obtain ⟨answer, hanswer, -, -⟩ := hexact.answered
    have hthree : 2 < attempt.toNat := UInt32.lt_iff_toNat_lt.mp (UInt32.not_le.mp hlarge)
    rw [shouldRetryRequest_of_allows hmethod hstatus hallows, checkedMul_seed_error hthree]
      at hanswer
    cases hanswer
  · intro h
    by_cases hretried : Retried defaultPolicy calls route method statusCode attempt
    · have hsmall : attempt.toNat ≤ 2 :=
        UInt32.le_iff_toNat_le.mp (h.resolve_right (not_not.mpr hretried))
      obtain ⟨hmethod, hstatus, hallows⟩ := retried_iff.mp hretried
      have hchosen := chosen_getPolicy defaultPolicy calls route
      obtain ⟨delayMs, hdelay⟩ := computeDelayMs_ok
        ((registered defaultPolicy calls).getPolicy route)
        (attempt.toUInt64 * seedMultiplier) h1
      have hanswer := shouldRetryRequest_of_allows hmethod hstatus hallows
      rw [checkedMul_seed hsmall] at hanswer
      simp only [bind, Except.bind, hdelay] at hanswer
      refine exact_of_answer hanswer (iff_of_true rfl hretried) fun retry hretry => ?_
      cases Option.some.inj hretry
      exact ⟨_, _, hchosen, hdelay⟩
    · have hanswer := shouldRetryRequest_of_not (mt retried_iff.mpr hretried)
      refine exact_of_answer hanswer (iff_of_false Bool.false_ne_true hretried)
        fun retry hretry => ?_
      cases hretry

end Requests

def apiCalls : List (Text × RetryPolicy) :=
  [("/api".toList, .exponentialBackoff 5 100 1600 true), ("/".toList, .noRetry)]

theorem api_second_exact : Exact .noRetry apiCalls "/api/jobs".toList "get".toList 503 2 :=
  (decisions_exact_iff (by decide)).mpr (.inl (by decide))

/-- The third failure of a request that has five attempts. -/
theorem api_third_not_exact :
    ¬Exact .noRetry apiCalls "/api/jobs".toList "get".toList 503 3 := by
  intro h
  obtain ⟨answer, hanswer, -, -⟩ := h.answered
  have hoverflow : (registered .noRetry apiCalls).shouldRetryRequest "/api/jobs".toList
      "get".toList 503 3 = .error .multiply := by
    decide
  rw [hoverflow] at hanswer
  cases hanswer

end HelixRouter.Retrying
