import HelixRouter.CircuitRegistry.CircuitBreaker
import HelixRouter.Containers.Retain

namespace HelixRouter.CircuitRegistry

namespace CircuitBreaker

def forceOpen (b : CircuitBreaker) (now : UInt64) : CircuitBreaker :=
  { b with halfOpenSuccesses := 0, state := .opened now }

def forceClose (b : CircuitBreaker) : CircuitBreaker :=
  { b with halfOpenSuccesses := 0, state := .closed 0 }

def record (b : CircuitBreaker) (success : Bool) (now : UInt64) : CircuitBreaker :=
  if success then b.recordSuccess now else b.recordFailure now

end CircuitBreaker

structure CircuitBreakerRegistry where
  breakers : AList (fun _ : String => CircuitBreaker) := ∅

inductive Call where
  | canPass (serviceId : String) (config : CircuitConfig) (now : UInt64)
  | recordCall (serviceId : String) (success : Bool) (now : UInt64)

def Call.now : Call → UInt64
  | canPass _ _ now => now
  | recordCall _ _ now => now

namespace CircuitBreakerRegistry

def getOrCreate (r : CircuitBreakerRegistry) (serviceId : String) (config : CircuitConfig) :
    CircuitBreaker :=
  (r.breakers.lookup serviceId).getD (.new config)

def setBreaker (r : CircuitBreakerRegistry) (serviceId : String) (b : CircuitBreaker) :
    CircuitBreakerRegistry :=
  { r with breakers := r.breakers.insert serviceId b }

/-- `canPass` of the breaker that is found or created. -/
def canPass (r : CircuitBreakerRegistry) (serviceId : String) (config : CircuitConfig)
    (now : UInt64) : Bool × CircuitBreakerRegistry :=
  let (passed, b) := (r.getOrCreate serviceId config).canPass now
  (passed, r.setBreaker serviceId b)

def recordCall (r : CircuitBreakerRegistry) (serviceId : String) (success : Bool)
    (now : UInt64) : CircuitBreakerRegistry :=
  r.setBreaker serviceId ((r.getOrCreate serviceId {}).record success now)

/-- The circuits are opened at a fixed time, not at that of the call. -/
def tripAll (r : CircuitBreakerRegistry) : CircuitBreakerRegistry :=
  { r with breakers := r.breakers.mapValues fun _ b => b.forceOpen 0 }

def resetAll (r : CircuitBreakerRegistry) : CircuitBreakerRegistry :=
  { r with breakers := r.breakers.mapValues fun _ b => b.forceClose }

def perform (r : CircuitBreakerRegistry) : Call → CircuitBreakerRegistry
  | .canPass serviceId config now => (r.canPass serviceId config now).2
  | .recordCall serviceId success now => r.recordCall serviceId success now

def after (r : CircuitBreakerRegistry) (calls : List Call) : CircuitBreakerRegistry :=
  calls.foldl perform r

end CircuitBreakerRegistry

/-- The calls of one service move its breaker. -/
def CircuitBreaker.serve (serviceId : String) (b : CircuitBreaker) : Call → CircuitBreaker
  | .canPass other _ now => if other = serviceId then (b.canPass now).2 else b
  | .recordCall other success now => if other = serviceId then b.record success now else b

namespace CircuitBreakerRegistry

/-- No call passes a breaker that was there at the shutdown, until the breaker's timeout has
elapsed since, whatever is called in between. -/
def TripHolds (r : CircuitBreakerRegistry) (t : UInt64) : Prop :=
  ∀ (calls : List Call) (serviceId : String) (b : CircuitBreaker) (config : CircuitConfig)
    (now : UInt64), (t :: calls.map Call.now ++ [now]).Pairwise (· ≤ ·) →
      r.breakers.lookup serviceId = some b →
      now.toNat < t.toNat + b.config.timeoutMs.toNat →
      ((r.tripAll.after calls).canPass serviceId config now).1 = false

/-- After a reset every breaker goes on as a new one would under the same calls. -/
def ResetRenews (r : CircuitBreakerRegistry) : Prop :=
  ∀ (calls : List Call) (serviceId : String) (b : CircuitBreaker),
    r.breakers.lookup serviceId = some b →
      (r.resetAll.after calls).breakers.lookup serviceId =
        some (calls.foldl (CircuitBreaker.serve serviceId) (.new b.config))

section Serve

variable {r : CircuitBreakerRegistry} {b : CircuitBreaker} {serviceId other : String}
  {config : CircuitConfig} {now : UInt64} {call : Call}

theorem getOrCreate_of_lookup (h : r.breakers.lookup serviceId = some b) :
    r.getOrCreate serviceId config = b := by
  rw [getOrCreate, h, Option.getD_some]

theorem lookup_setBreaker (r : CircuitBreakerRegistry) (b : CircuitBreaker) :
    (r.setBreaker other b).breakers.lookup serviceId =
      if other = serviceId then some b else r.breakers.lookup serviceId := by
  unfold setBreaker
  split
  · rename_i h
    rw [h, AList.lookup_insert]
  · rename_i h
    exact AList.lookup_insert_ne (Ne.symm h)

theorem lookup_perform (h : r.breakers.lookup serviceId = some b) :
    (r.perform call).breakers.lookup serviceId = some (b.serve serviceId call) := by
  cases call with
  | canPass other config now =>
    have hset : (r.perform (.canPass other config now)).breakers.lookup serviceId =
        if other = serviceId then some ((r.getOrCreate other config).canPass now).2
        else r.breakers.lookup serviceId := r.lookup_setBreaker _
    rw [hset, CircuitBreaker.serve]
    split
    · rename_i heq
      rw [heq, getOrCreate_of_lookup h]
    · exact h
  | recordCall other success now =>
    have hset : (r.perform (.recordCall other success now)).breakers.lookup serviceId =
        if other = serviceId then some ((r.getOrCreate other {}).record success now)
        else r.breakers.lookup serviceId := r.lookup_setBreaker _
    rw [hset, CircuitBreaker.serve]
    split
    · rename_i heq
      rw [heq, getOrCreate_of_lookup h]
    · exact h

/-- A breaker sees the calls of its own service and no others. -/
theorem lookup_after (calls : List Call) (h : r.breakers.lookup serviceId = some b) :
    (r.after calls).breakers.lookup serviceId =
      some (calls.foldl (CircuitBreaker.serve serviceId) b) := by
  induction calls generalizing r b with
  | nil => exact h
  | cons call calls ih => exact ih (lookup_perform h)

theorem canPass_of_lookup (h : r.breakers.lookup serviceId = some b) :
    (r.canPass serviceId config now).1 = (b.canPass now).1 := by
  rw [canPass, getOrCreate_of_lookup h]

theorem lookup_tripAll (h : r.breakers.lookup serviceId = some b) :
    r.tripAll.breakers.lookup serviceId = some (b.forceOpen 0) := by
  rw [tripAll, AList.lookup_mapValues, h, Option.map_some]

theorem lookup_resetAll (h : r.breakers.lookup serviceId = some b) :
    r.resetAll.breakers.lookup serviceId = some b.forceClose := by
  rw [resetAll, AList.lookup_mapValues, h, Option.map_some]

end Serve

section Tripped

variable {r : CircuitBreakerRegistry} {b c : CircuitBreaker} {serviceId : String}
  {config : CircuitConfig} {now : UInt64} {call : Call} {calls : List Call}

/-- An open circuit lets no call through before its timeout is over, and stays as it is. -/
theorem canPass_tripped (hlt : now < b.config.timeoutMs) :
    (b.forceOpen 0).canPass now = (false, b.forceOpen 0) := by
  have hopened : (b.forceOpen 0).state = .opened 0 := rfl
  have hnot : ¬ saturatingAdd 0 b.config.timeoutMs ≤ now := by
    rw [UInt64.le_iff_toNat_le, toNat_saturatingAdd]
    have hmax := toNat_le_u64Max b.config.timeoutMs
    have hlt := UInt64.lt_iff_toNat_lt.mp hlt
    simp only [UInt64.toNat_zero, Nat.zero_add]
    omega
  rw [CircuitBreaker.canPass_opened hopened]
  exact if_neg hnot

theorem serve_tripped (hlt : call.now < b.config.timeoutMs) :
    (b.forceOpen 0).serve serviceId call = b.forceOpen 0 := by
  cases call with
  | canPass other config now =>
    have hpass : (b.forceOpen 0).canPass now = (false, b.forceOpen 0) := canPass_tripped hlt
    rw [CircuitBreaker.serve, hpass]
    exact ite_self _
  | recordCall other success now =>
    have hopened : (b.forceOpen 0).state = .opened 0 := rfl
    have hrecord : (b.forceOpen 0).record success now = b.forceOpen 0 := by
      unfold CircuitBreaker.record
      rw [CircuitBreaker.recordSuccess_opened hopened, CircuitBreaker.recordFailure_opened hopened]
      exact ite_self _
    rw [CircuitBreaker.serve, hrecord]
    exact ite_self _

/-- What the shutdown does hold: no call passes before the clock itself comes to the timeout. -/
theorem tripped_until (hb : r.breakers.lookup serviceId = some b)
    (hcalls : ∀ call ∈ calls, call.now < b.config.timeoutMs) (hnow : now < b.config.timeoutMs) :
    ((r.tripAll.after calls).canPass serviceId config now).1 = false := by
  have hstay : calls.foldl (CircuitBreaker.serve serviceId) (b.forceOpen 0) = b.forceOpen 0 := by
    induction calls with
    | nil => rfl
    | cons call calls ih =>
      rw [List.foldl_cons, serve_tripped (hcalls call List.mem_cons_self)]
      exact ih fun other hother => hcalls other (List.mem_cons_of_mem call hother)
  have hafter := lookup_after calls (lookup_tripAll hb)
  rw [hstay] at hafter
  rw [canPass_of_lookup hafter, canPass_tripped hnow]

/-- Once it has, the first call passes. -/
theorem passes_tripped (hb : r.breakers.lookup serviceId = some b)
    (hnow : b.config.timeoutMs ≤ now) : (r.tripAll.canPass serviceId config now).1 = true := by
  have hopened : (b.forceOpen 0).state = .opened 0 := rfl
  have hover : saturatingAdd 0 b.config.timeoutMs ≤ now := by
    rw [UInt64.le_iff_toNat_le, toNat_saturatingAdd]
    have hnow := UInt64.le_iff_toNat_le.mp hnow
    simp only [UInt64.toNat_zero, Nat.zero_add]
    omega
  rw [canPass_of_lookup (lookup_tripAll hb), CircuitBreaker.canPass_opened hopened]
  exact congrArg Prod.fst (if_pos hover)

end Tripped

theorem resetRenews (r : CircuitBreakerRegistry) : r.ResetRenews := by
  intro calls serviceId b hb
  exact lookup_after calls (lookup_resetAll hb)

/-- A shutdown holds only where no breaker has a timeout. -/
theorem trip_holds_iff (r : CircuitBreakerRegistry) (t : UInt64) (ht : 0 < t) :
    (r.TripHolds t ∧ r.ResetRenews) ↔
      ∀ serviceId b, r.breakers.lookup serviceId = some b → b.config.timeoutMs = 0 := by
  constructor
  · rintro ⟨hholds, -⟩ serviceId b hb
    by_contra htimeout
    have ht := UInt64.lt_iff_toNat_lt.mp ht
    have htimeout : 0 < b.config.timeoutMs.toNat :=
      Nat.pos_of_ne_zero fun h => htimeout (UInt64.toNat_inj.mp h)
    have hmax : (max t b.config.timeoutMs).toNat = max t.toNat b.config.timeoutMs.toNat :=
      toNat_max _ _
    have hrefused := hholds [] serviceId b {} (max t b.config.timeoutMs)
      (by simp [UInt64.le_iff_toNat_le, hmax]) hb (by
        rw [hmax]
        rw [UInt64.toNat_zero] at ht
        omega)
    have hpasses : ((r.tripAll).canPass serviceId {} (max t b.config.timeoutMs)).1 = true := by
      refine passes_tripped hb ?_
      rw [UInt64.le_iff_toNat_le, hmax]
      exact le_max_right _ _
    exact Bool.false_ne_true (hrefused.symm.trans hpasses)
  · intro hnone
    refine ⟨fun calls serviceId b config now hordered hb hlt => ?_, resetRenews r⟩
    have hle : t ≤ now := by
      rw [List.cons_append, List.pairwise_cons] at hordered
      exact hordered.1 now (List.mem_append_right _ (List.mem_singleton_self now))
    have hle := UInt64.le_iff_toNat_le.mp hle
    rw [hnone serviceId b hb, UInt64.toNat_zero] at hlt
    omega

/-- One breaker with the default configuration, whose timeout is 30 seconds. -/
def payments : CircuitBreakerRegistry where
  breakers := AList.singleton "payments" (.new {})

theorem trip_holds_iff_payments : (payments.TripHolds 40000 ∧ payments.ResetRenews) ↔
    ∀ serviceId b, payments.breakers.lookup serviceId = some b → b.config.timeoutMs = 0 :=
  trip_holds_iff payments 40000 (by decide)

theorem payments_not_held : ¬ payments.TripHolds 40000 := by
  intro h
  have hrefused := h [] "payments" (.new {}) {} 40000 (by decide) rfl (by decide)
  exact absurd hrefused (by decide)

end CircuitBreakerRegistry

end HelixRouter.CircuitRegistry
