import HelixRouter.Containers.Retain
import HelixRouter.Metering.Meter
import HelixRouter.Router.Numbers

namespace HelixRouter.Admission

inductive Priority
  | low
  | normal
  | high

structure AdmissionConfig where
  softCeiling : ℚ := 80 / 100
  hardCeiling : ℚ := 95 / 100
  bucketCapacity : ℚ := 20
  refillRate : ℚ := 10
  bucketTtlSecs : UInt64 := 300

/-- Why a job is denied; delays are in seconds. -/
inductive AdmissionError
  | overloaded (load ceiling retryAfter : ℚ)
  | callerThrottled (callerId : String) (retryAfter : ℚ)

structure TokenBucket where
  tokens : ℚ
  lastRefill : ℚ
  lastUsed : ℚ

namespace TokenBucket

def new (capacity now : ℚ) : TokenBucket where
  tokens := capacity
  lastRefill := now
  lastUsed := now

/-- Refills the bucket, then takes a token if there is one. -/
def tryConsume (bucket : TokenBucket) (capacity refillRate now : ℚ) : Bool × TokenBucket :=
  let elapsed := max 0 (now - bucket.lastRefill)
  let tokens := min (bucket.tokens + elapsed * refillRate) capacity
  if 1 ≤ tokens then (true, { tokens := tokens - 1, lastRefill := now, lastUsed := now })
  else (false, { bucket with tokens := tokens, lastRefill := now })

def secsUntilToken (bucket : TokenBucket) (refillRate : ℚ) : ℚ :=
  if 1 ≤ bucket.tokens then 0 else (1 - bucket.tokens) / max refillRate (1 / 1000000000)

def isIdleFor (bucket : TokenBucket) (ttl now : ℚ) : Bool := ttl < max 0 (now - bucket.lastUsed)

end TokenBucket

structure AdmissionGate where
  config : AdmissionConfig
  buckets : AList (fun _ : String => TokenBucket) := ∅
  admitted : UInt64 := 0
  rejectedOverload : UInt64 := 0
  rejectedThrottle : UInt64 := 0

namespace AdmissionGate

/-- The load above which jobs of a priority are shed. -/
def ceiling (config : AdmissionConfig) : Priority → Option ℚ
  | .high => none
  | .normal => some config.hardCeiling
  | .low => some config.softCeiling

/-- The part of `submit` that holds the lock of the buckets. -/
def throttle (gate : AdmissionGate) (callerId : String) (now : ℚ) :
    Except AdmissionError Unit × AdmissionGate :=
  let bucket := (gate.buckets.lookup callerId).getD (TokenBucket.new gate.config.bucketCapacity now)
  let (consumed, bucket) :=
    bucket.tryConsume gate.config.bucketCapacity gate.config.refillRate now
  let gate := { gate with buckets := gate.buckets.insert callerId bucket }
  if consumed then (.ok (), { gate with admitted := gate.admitted + 1 })
  else
    let retrySecs := bucket.secsUntilToken gate.config.refillRate
    (.error (.callerThrottled callerId (max retrySecs (5 / 100))),
      { gate with rejectedThrottle := gate.rejectedThrottle + 1 })

/-- A job that is not denied is handed to the router. -/
def submit (gate : AdmissionGate) (priority : Priority) (callerId : String) (load now : ℚ) :
    Except AdmissionError Unit × AdmissionGate :=
  match ceiling gate.config priority with
  | none => gate.throttle callerId now
  | some ceil =>
    if ceil < load then
      let retryMs := castU64 ((load - ceil) * 2000)
      (.error (.overloaded load ceil (toRat (max retryMs 50) / 1000)),
        { gate with rejectedOverload := gate.rejectedOverload + 1 })
    else gate.throttle callerId now

/-- Every bucket is judged at its own reading of the clock. -/
def evictIdleBuckets (gate : AdmissionGate) (clock : String → ℚ) : AdmissionGate :=
  let ttl := toRat gate.config.bucketTtlSecs
  { gate with buckets := gate.buckets.retain fun callerId bucket =>
      !bucket.isIdleFor ttl (clock callerId) }

end AdmissionGate

open Metering

/-- One call on the gate or a clone of it, with the load and the times it reads. -/
inductive Event
  | submit (priority : Priority) (callerId : String) (load now : ℚ)
  | evict (clock : String → ℚ) (last : ℚ)

/-- A gate with the submissions that have passed the token buckets. -/
structure History where
  gate : AdmissionGate
  passed : List (String × ℚ) := []

def History.step (h : History) : Event → History
  | .submit priority callerId load now =>
    let (result, gate) := h.gate.submit priority callerId load now
    { gate := gate
      passed := if result.isOk then h.passed ++ [(callerId, now)] else h.passed }
  | .evict clock _ => { h with gate := h.gate.evictIdleBuckets clock }

def run (config : AdmissionConfig) (events : List Event) : History :=
  events.foldl History.step { gate := { config := config } }

/-- The clock never goes back from one call to the next. -/
def Timed : ℚ → List Event → Prop
  | _, [] => True
  | now, .submit _ _ _ t :: events => now ≤ t ∧ Timed t events
  | now, .evict clock last :: events =>
    (∀ callerId, now ≤ clock callerId ∧ clock callerId ≤ last) ∧ now ≤ last ∧ Timed last events

def History.passes (h : History) (callerId : String) : List ℚ :=
  (h.passed.filter (·.1 = callerId)).map (·.2)

def AdmissionConfig.meter (config : AdmissionConfig) : Meter ℚ where
  capacity := config.bucketCapacity
  rate := config.refillRate

/-- Every caller passes no more often in an interval than a full bucket and its refill allow. -/
def RateBounded (config : AdmissionConfig) : Prop :=
  ∀ start events, Timed start events → ∀ callerId s e, s ≤ e →
    taken s e ((run config events).passes callerId) ≤
      config.bucketCapacity + (e - s) * config.refillRate

/-- The tokens a caller would find; a caller without a bucket would find it full. -/
def level (gate : AdmissionGate) (callerId : String) (now : ℚ) : ℚ :=
  match gate.buckets.lookup callerId with
  | none => gate.config.bucketCapacity
  | some bucket => gate.config.meter.refilled bucket.tokens (max 0 (now - bucket.lastRefill))

section Throttle

variable {gate : AdmissionGate} {callerId other : String} {now t : ℚ}

/-- When a caller last got a token, or its bucket was made. -/
def lastUsed (gate : AdmissionGate) (callerId : String) (now : ℚ) : ℚ :=
  match gate.buckets.lookup callerId with
  | none => now
  | some bucket => bucket.lastUsed

theorem tryConsume_eq :
    ((gate.buckets.lookup callerId).getD (TokenBucket.new gate.config.bucketCapacity now)).tryConsume
        gate.config.bucketCapacity gate.config.refillRate now =
      if 1 ≤ level gate callerId now then (true, ⟨level gate callerId now - 1, now, now⟩)
      else (false, ⟨level gate callerId now, now, lastUsed gate callerId now⟩) := by
  unfold level lastUsed TokenBucket.tryConsume
  cases gate.buckets.lookup callerId with
  | none => simp [TokenBucket.new]
  | some bucket => rfl

theorem throttle_passes (h : 1 ≤ level gate callerId now) :
    gate.throttle callerId now = (.ok (), { gate with
      buckets := gate.buckets.insert callerId ⟨level gate callerId now - 1, now, now⟩
      admitted := gate.admitted + 1 }) := by
  unfold AdmissionGate.throttle
  simp only [tryConsume_eq, if_pos h, if_true]

theorem throttle_refuses (h : level gate callerId now < 1) :
    ∃ e, gate.throttle callerId now = (.error e, { gate with
      buckets := gate.buckets.insert callerId
        ⟨level gate callerId now, now, lastUsed gate callerId now⟩
      rejectedThrottle := gate.rejectedThrottle + 1 }) := by
  unfold AdmissionGate.throttle
  simp only [tryConsume_eq, if_neg (not_le.mpr h)]
  exact ⟨_, rfl⟩

/-- A submission is shed for the load and leaves the buckets alone, or it is throttled. -/
theorem submit_cases (gate : AdmissionGate) (priority : Priority) (callerId : String)
    (load now : ℚ) : (∃ e, gate.submit priority callerId load now =
        (.error e, { gate with rejectedOverload := gate.rejectedOverload + 1 })) ∨
      gate.submit priority callerId load now = gate.throttle callerId now := by
  unfold AdmissionGate.submit
  split
  · exact Or.inr rfl
  · split
    · exact Or.inl ⟨_, rfl⟩
    · exact Or.inr rfl

end Throttle

/-- What is known of a bucket: since it last gave a token it has gained what it may. -/
structure TokenBucket.Sound (config : AdmissionConfig) (now : ℚ) (bucket : TokenBucket) : Prop where
  used_le : bucket.lastUsed ≤ bucket.lastRefill
  refill_le : bucket.lastRefill ≤ now
  capped : bucket.tokens ≤ config.bucketCapacity
  gained : config.meter.refilled 0 (bucket.lastRefill - bucket.lastUsed) ≤ bucket.tokens

/-- A gate at a time no earlier than the last call, seen from one caller and one interval. -/
structure Metered (config : AdmissionConfig) (s e : ℚ) (callerId : String) (now : ℚ)
    (h : History) : Prop where
  config_eq : h.gate.config = config
  sound : ∀ id bucket, h.gate.buckets.lookup id = some bucket → bucket.Sound config now
  within : Within config.meter s e now (level h.gate callerId now) (h.passes callerId)

section Steps

variable {config : AdmissionConfig} {s e now later : ℚ} {callerId id : String} {h : History}
  {bucket : TokenBucket}

theorem TokenBucket.Sound.wait (hb : bucket.Sound config now) (hle : now ≤ later) :
    bucket.Sound config later :=
  { hb with refill_le := hb.refill_le.trans hle }

/-- A bucket that has not given a token for long enough is full. -/
theorem TokenBucket.Sound.full (hb : bucket.Sound config now) (hr : 0 ≤ config.refillRate)
    {ttl : ℚ} (hlong : config.bucketCapacity ≤ ttl * config.refillRate)
    (hidle : ttl ≤ now - bucket.lastUsed) :
    config.meter.refilled bucket.tokens (now - bucket.lastRefill) = config.bucketCapacity := by
  have hmore := mul_le_mul_of_nonneg_right hidle hr
  have hrefill := mul_nonneg (sub_nonneg.mpr hb.refill_le) hr
  have hgained := hb.gained
  unfold Meter.refilled AdmissionConfig.meter at *
  apply min_eq_right
  dsimp only at *
  rcases min_le_iff.mp hgained with hg | hg <;>
    linarith [sub_mul now bucket.lastUsed config.refillRate,
      sub_mul now bucket.lastRefill config.refillRate,
      sub_mul bucket.lastRefill bucket.lastUsed config.refillRate]

theorem Metered.level_later (hm : Metered config s e callerId now h) (hr : 0 ≤ config.refillRate)
    (hle : now ≤ later) (id : String) :
    level h.gate id later = config.meter.refilled (level h.gate id now) (later - now) := by
  have hwait : 0 ≤ later - now := sub_nonneg.mpr hle
  unfold level
  cases hb : h.gate.buckets.lookup id with
  | none =>
    rw [hm.config_eq]
    exact (Meter.refilled_of_full (m := config.meter) hr hwait).symm
  | some bucket =>
    have hsound := hm.sound id bucket hb
    have hbefore : 0 ≤ now - bucket.lastRefill := sub_nonneg.mpr hsound.refill_le
    dsimp only
    rw [hm.config_eq, max_eq_right hbefore, max_eq_right (by linarith),
      Meter.refilled_refilled hr hwait]
    congr 1
    ring

/-- Time passes. -/
theorem Metered.wait (hm : Metered config s e callerId now h) (hr : 0 ≤ config.refillRate)
    (hle : now ≤ later) : Metered config s e callerId later h where
  config_eq := hm.config_eq
  sound id bucket hb := (hm.sound id bucket hb).wait hle
  within := hm.within.wait hr hle (hm.level_later hr hle callerId).le

theorem level_congr {gate gate' : AdmissionGate} (hc : gate'.config = gate.config)
    (hb : gate'.buckets.lookup id = gate.buckets.lookup id) (t : ℚ) :
    level gate' id t = level gate id t := by
  unfold level
  rw [hc, hb]

theorem level_put {gate : AdmissionGate} (hb : gate.buckets.lookup id = some bucket)
    (hnow : bucket.lastRefill = now) (hcap : bucket.tokens ≤ gate.config.bucketCapacity) :
    level gate id now = bucket.tokens := by
  unfold level Meter.refilled AdmissionConfig.meter
  rw [hb]
  simp [hnow, hcap]

/-- One caller's bucket is put back as it is after a call at this time. -/
theorem Metered.put (hm : Metered config s e callerId now h) {gate : AdmissionGate}
    {passed : List (String × ℚ)} (hc : gate.config = h.gate.config)
    (hb : gate.buckets = h.gate.buckets.insert id bucket) (hsound : bucket.Sound config now)
    (hnow : bucket.lastRefill = now)
    (hself : id = callerId → Within config.meter s e now bucket.tokens
      (History.passes ⟨gate, passed⟩ callerId))
    (hother : id ≠ callerId → History.passes ⟨gate, passed⟩ callerId = h.passes callerId) :
    Metered config s e callerId now ⟨gate, passed⟩ where
  config_eq := hc.trans hm.config_eq
  sound other found hf := by
    by_cases heq : other = id
    · rw [hb, heq, AList.lookup_insert] at hf
      cases hf
      exact hsound
    · rw [hb, AList.lookup_insert_ne heq] at hf
      exact hm.sound other found hf
  within := by
    by_cases heq : id = callerId
    · subst heq
      have hcap : bucket.tokens ≤ gate.config.bucketCapacity := by
        rw [hc, hm.config_eq]
        exact hsound.capped
      rw [level_put (by rw [hb, AList.lookup_insert]) hnow hcap]
      exact hself rfl
    · rw [level_congr hc (by rw [hb, AList.lookup_insert_ne (Ne.symm heq)]), hother heq]
      exact hm.within

theorem passes_append (gate : AdmissionGate) (passed : List (String × ℚ)) :
    History.passes ⟨gate, passed ++ [(id, now)]⟩ callerId =
      History.passes ⟨gate, passed⟩ callerId ++ if id = callerId then [now] else [] := by
  unfold History.passes
  rw [List.filter_append, List.map_append]
  by_cases h : id = callerId <;> simp [h]

theorem Metered.level_le (hm : Metered config s e callerId now h) (id : String) :
    level h.gate id now ≤ config.bucketCapacity := by
  unfold level
  split
  · rw [hm.config_eq]
  · rw [hm.config_eq]
    exact min_le_right _ _

/-- What a caller would find and when it last got a token make a sound bucket. -/
theorem Metered.sound_found (hm : Metered config s e callerId now h) (hr : 0 ≤ config.refillRate)
    (id : String) :
    (⟨level h.gate id now, now, lastUsed h.gate id now⟩ : TokenBucket).Sound config now := by
  have hle := hm.level_le id
  unfold lastUsed
  unfold level at *
  cases hb : h.gate.buckets.lookup id with
  | none =>
    rw [hm.config_eq]
    exact ⟨le_refl _, le_refl _, le_refl _, min_le_right _ _⟩
  | some bucket =>
    have hsound := hm.sound id bucket hb
    have hwait : 0 ≤ now - bucket.lastRefill := sub_nonneg.mpr hsound.refill_le
    rw [hb] at hle
    refine ⟨hsound.used_le.trans hsound.refill_le, le_refl _, hle, ?_⟩
    dsimp only
    rw [hm.config_eq, max_eq_right hwait]
    calc config.meter.refilled 0 (now - bucket.lastUsed)
      _ = config.meter.refilled 0 (bucket.lastRefill - bucket.lastUsed +
            (now - bucket.lastRefill)) := by congr 1; ring
      _ = config.meter.refilled (config.meter.refilled 0 (bucket.lastRefill - bucket.lastUsed))
            (now - bucket.lastRefill) := (Meter.refilled_refilled hr hwait).symm
      _ ≤ _ := Meter.refilled_mono hsound.gained _

theorem Metered.throttle (hm : Metered config s e callerId now h) (hr : 0 ≤ config.refillRate)
    {gate : AdmissionGate} {result : Except AdmissionError Unit}
    (ht : h.gate.throttle id now = (result, gate)) : Metered config s e callerId now
      { gate := gate, passed := if result.isOk then h.passed ++ [(id, now)] else h.passed } := by
  have hfound := hm.sound_found hr id
  by_cases hone : 1 ≤ level h.gate id now
  · rw [throttle_passes hone] at ht
    cases ht
    refine hm.put rfl rfl ⟨le_refl _, le_refl _, ?_, ?_⟩ rfl ?_ ?_
    · exact (sub_le_self _ zero_le_one).trans hfound.capped
    · refine (min_le_left _ _).trans ?_
      simpa using hone
    · intro heq
      subst heq
      change Within _ _ _ _ _ (History.passes ⟨_, h.passed ++ [(id, now)]⟩ id)
      rw [passes_append, if_pos rfl]
      exact hm.within.take hr hone
    · intro hne
      change History.passes ⟨_, h.passed ++ [(id, now)]⟩ callerId = _
      rw [passes_append, if_neg hne, List.append_nil]
      rfl
  · obtain ⟨err, he⟩ := throttle_refuses (not_le.mp hone)
    rw [he] at ht
    cases ht
    refine hm.put rfl rfl hfound rfl ?_ ?_
    · intro heq
      subst heq
      exact hm.within
    · exact fun _ => rfl

theorem Metered.submit (hm : Metered config s e callerId now h) (hr : 0 ≤ config.refillRate)
    (priority : Priority) (id : String) (load : ℚ) :
    Metered config s e callerId now (h.step (.submit priority id load now)) := by
  unfold History.step
  rcases submit_cases h.gate priority id load now with ⟨err, he⟩ | he
  · simp only [he]
    exact ⟨hm.config_eq, hm.sound, hm.within⟩
  · simp only [he]
    exact hm.throttle hr rfl

/-- An eviction that only takes full buckets goes unnoticed. -/
theorem Metered.evict (hm : Metered config s e callerId now h) {clock : String → ℚ} {last : ℚ}
    (hfull : ∀ bucket, h.gate.buckets.lookup callerId = some bucket →
      bucket.isIdleFor (toRat config.bucketTtlSecs) (clock callerId) = true →
        level h.gate callerId now = config.bucketCapacity) :
    Metered config s e callerId now (h.step (.evict clock last)) := by
  have hlookup : ∀ id bucket, (h.step (.evict clock last)).gate.buckets.lookup id = some bucket ↔
      h.gate.buckets.lookup id = some bucket ∧
        (!bucket.isIdleFor (toRat config.bucketTtlSecs) (clock id)) = true := by
    intro id bucket
    rw [← hm.config_eq]
    exact AList.lookup_retain_eq_some
  refine ⟨hm.config_eq, fun id bucket hb => hm.sound id bucket ((hlookup id bucket).mp hb).1, ?_⟩
  have hlevel : level (h.step (.evict clock last)).gate callerId now = level h.gate callerId now := by
    have hconfig : (h.step (.evict clock last)).gate.config = h.gate.config := rfl
    cases hb : h.gate.buckets.lookup callerId with
    | none =>
      refine level_congr hconfig ?_ now
      rw [hb, Option.eq_none_iff_forall_not_mem]
      intro bucket hmem
      rw [((hlookup callerId bucket).mp hmem).1] at hb
      cases hb
    | some bucket =>
      cases hidle : bucket.isIdleFor (toRat config.bucketTtlSecs) (clock callerId) with
      | false =>
        refine level_congr hconfig ?_ now
        rw [(hlookup callerId bucket).mpr ⟨hb, by rw [hidle]; rfl⟩, hb]
      | true =>
        have hgone : (h.step (.evict clock last)).gate.buckets.lookup callerId = none := by
          rw [Option.eq_none_iff_forall_not_mem]
          intro found hmem
          obtain ⟨hf, hnot⟩ := (hlookup callerId found).mp hmem
          cases hb.symm.trans hf
          simp [hidle] at hnot
        rw [hfull bucket hb hidle]
        unfold level
        rw [hgone]
        exact congrArg AdmissionConfig.bucketCapacity (hconfig.trans hm.config_eq)
  rw [hlevel]
  exact hm.within

/-- Buckets that are idle for the whole time to live are full, if that time refills them. -/
theorem Metered.full_of_idle (hm : Metered config s e callerId now h) (hr : 0 ≤ config.refillRate)
    (hlong : config.bucketCapacity ≤ toRat config.bucketTtlSecs * config.refillRate)
    {t : ℚ} (ht : t ≤ now) (hb : h.gate.buckets.lookup id = some bucket)
    (hidle : bucket.isIdleFor (toRat config.bucketTtlSecs) t = true) :
    level h.gate id now = config.bucketCapacity := by
  have hsound := hm.sound id bucket hb
  have httl : 0 ≤ toRat config.bucketTtlSecs := Nat.cast_nonneg _
  have hlate : toRat config.bucketTtlSecs < t - bucket.lastUsed := by
    rcases lt_max_iff.mp (of_decide_eq_true hidle) with hz | hz
    · exact absurd hz (not_lt.mpr httl)
    · exact hz
  have hfull := hsound.full hr hlong (by linarith)
  unfold level
  rw [hb, hm.config_eq]
  dsimp only
  rw [max_eq_right (sub_nonneg.mpr hsound.refill_le), hfull]

/-- From one call to a run of calls. -/
theorem Metered.run (hr : 0 ≤ config.refillRate)
    (hlong : config.bucketCapacity ≤ toRat config.bucketTtlSecs * config.refillRate)
    {events : List Event} (hm : Metered config s e callerId now h) (ht : Timed now events) :
    ∃ last, Metered config s e callerId last (events.foldl History.step h) := by
  induction events generalizing now h with
  | nil => exact ⟨now, hm⟩
  | cons event events ih =>
    cases event with
    | submit priority id load t => exact ih ((hm.wait hr ht.1).submit hr priority id load) ht.2
    | evict clock last =>
      have hlast := hm.wait hr ht.2.1
      refine ih (hlast.evict fun bucket hb hidle => ?_) ht.2.2
      exact hlast.full_of_idle hr hlong (ht.1 callerId).2 hb hidle

end Steps

theorem rateBounded_of_refilled {config : AdmissionConfig} (hc : 0 ≤ config.bucketCapacity)
    (hr : 0 ≤ config.refillRate)
    (hlong : config.bucketCapacity ≤ toRat config.bucketTtlSecs * config.refillRate) :
    RateBounded config := by
  intro start events ht callerId s e hse
  have hnew : Metered config s e callerId start { gate := { config := config } } :=
    ⟨rfl, fun _ _ hb => (nomatch hb), Within.start (m := config.meter) hc hr hse start⟩
  obtain ⟨last, hm⟩ := hnew.run hr hlong ht
  exact hm.within.bound

section Bursts

variable {config : AdmissionConfig} {h : History} {callerId : String} {t x : ℚ}

def submitAt (callerId : String) (t : ℚ) : Event := .submit .high callerId 0 t

/-- After its last token at a time, and with these passes behind it. -/
structure Spent (config : AdmissionConfig) (callerId : String) (x t : ℚ) (log : List ℚ)
    (h : History) : Prop where
  config_eq : h.gate.config = config
  bucket_eq : h.gate.buckets.lookup callerId = some ⟨x, t, t⟩
  log_eq : h.passes callerId = log

theorem spent_submit (h : History) (callerId : String) (t : ℚ)
    (hone : 1 ≤ level h.gate callerId t) :
    Spent h.gate.config callerId (level h.gate callerId t - 1) t (h.passes callerId ++ [t])
      (h.step (submitAt callerId t)) := by
  have hpass : h.gate.submit .high callerId 0 t = _ := throttle_passes hone
  unfold submitAt History.step
  simp only [hpass]
  refine ⟨rfl, AList.lookup_insert _, ?_⟩
  change History.passes ⟨_, h.passed ++ [(callerId, t)]⟩ callerId = _
  rw [passes_append, if_pos rfl]
  rfl

theorem Spent.level_eq (hs : Spent config callerId x t log h) {later : ℚ} (hle : t ≤ later) :
    level h.gate callerId later = config.meter.refilled x (later - t) := by
  unfold level
  rw [hs.bucket_eq, hs.config_eq]
  dsimp only
  rw [max_eq_right (sub_nonneg.mpr hle)]

/-- As many submissions at once as there are tokens all pass. -/
theorem spent_burst (k : Nat) (hlevel : (k : ℚ) + 1 ≤ level h.gate callerId t)
    (hcap : level h.gate callerId t ≤ h.gate.config.bucketCapacity) :
    Spent h.gate.config callerId (level h.gate callerId t - (k + 1)) t
      (h.passes callerId ++ List.replicate (k + 1) t)
      ((List.replicate (k + 1) (submitAt callerId t)).foldl History.step h) := by
  induction k with
  | zero =>
    have hspent := spent_submit h callerId t (by simpa using hlevel)
    simpa using hspent
  | succ k ih =>
    push_cast at hlevel
    have hspent := ih (by linarith)
    have hnow : level ((List.replicate (k + 1) (submitAt callerId t)).foldl History.step h).gate
        callerId t = level h.gate callerId t - (k + 1) := by
      rw [hspent.level_eq (le_refl t)]
      unfold Meter.refilled AdmissionConfig.meter
      rw [sub_self, zero_mul, add_zero]
      exact min_eq_left (by linarith)
    have hnext := spent_submit _ callerId t (by rw [hnow]; linarith)
    rw [List.replicate_succ' (a := submitAt callerId t), List.foldl_append, List.replicate_succ' (a := t), ← List.append_assoc]
    rw [hnow, hspent.config_eq, hspent.log_eq, sub_sub] at hnext
    push_cast
    exact hnext

/-- When the bucket has the fraction of a token it needs for one more. -/
def nextToken (config : AdmissionConfig) : ℚ :=
  (⌊config.bucketCapacity⌋₊ + 1 - config.bucketCapacity) / config.refillRate

/-- A full bucket's worth at once, and one more as soon as it can pass. -/
def cycle (config : AdmissionConfig) (callerId : String) (t : ℚ) : List Event :=
  List.replicate ⌊config.bucketCapacity⌋₊ (submitAt callerId t) ++
    [submitAt callerId (t + nextToken config)]

theorem spent_cycle (hc : 1 ≤ config.bucketCapacity) (hr : 0 < config.refillRate)
    (hconfig : h.gate.config = config) (hnew : h.gate.buckets.lookup callerId = none) (t : ℚ) :
    Spent config callerId 0 (t + nextToken config)
      (h.passes callerId ++ (List.replicate ⌊config.bucketCapacity⌋₊ t ++ [t + nextToken config]))
      ((cycle config callerId t).foldl History.step h) := by
  have hlevel : level h.gate callerId t = config.bucketCapacity := by
    unfold level
    rw [hnew, hconfig]
  obtain ⟨k, hk⟩ : ∃ k, ⌊config.bucketCapacity⌋₊ = k + 1 :=
    Nat.exists_eq_add_one.mpr (Nat.floor_pos.mpr hc)
  have hfloor : (k : ℚ) + 1 ≤ config.bucketCapacity := by
    have := Nat.floor_le (zero_le_one.trans hc)
    rw [hk] at this
    exact_mod_cast this
  have hspent := spent_burst k (hlevel ▸ hfloor) (by rw [hlevel, hconfig])
  rw [hlevel, hconfig, ← hk] at hspent
  have hwait : 0 ≤ nextToken config := by
    have := Nat.lt_floor_add_one config.bucketCapacity
    exact div_nonneg (by linarith) hr.le
  have hone := hspent.level_eq (le_add_of_nonneg_right hwait)
  have hfull : config.meter.refilled (config.bucketCapacity - (k + 1))
      (t + nextToken config - t) = 1 := by
    unfold Meter.refilled AdmissionConfig.meter nextToken
    rw [add_sub_cancel_left, div_mul_cancel₀ _ hr.ne', hk]
    push_cast
    rw [show config.bucketCapacity - (k + 1) + (k + 1 + 1 - config.bucketCapacity) = 1 by ring]
    exact min_eq_left hc
  rw [hfull] at hone
  have hlast := spent_submit _ callerId _ hone.ge
  rw [hone, sub_self, hspent.config_eq, hspent.log_eq, List.append_assoc] at hlast
  unfold cycle
  rw [List.foldl_append]
  exact hlast

theorem timed_burst {last : ℚ} {rest : List Event} (n : Nat) (hle : last ≤ t) (ht : Timed t rest) :
    Timed last (List.replicate n (submitAt callerId t) ++ rest) := by
  induction n generalizing last with
  | zero =>
    cases rest with
    | nil => trivial
    | cons event rest =>
      cases event with
      | submit => exact ⟨hle.trans ht.1, ht.2⟩
      | evict clock t' =>
        exact ⟨fun id => ⟨hle.trans (ht.1 id).1, (ht.1 id).2⟩, hle.trans ht.2.1, ht.2.2⟩
  | succ n ih => exact ⟨hle, ih (le_refl t)⟩

/-- Two cycles, with an eviction between them at `again`. -/
def twoCycles (config : AdmissionConfig) (callerId : String) (again : ℚ) : List Event :=
  cycle config callerId 0 ++ .evict (fun _ => again) again :: cycle config callerId again

theorem passes_twoCycles (hc : 1 ≤ config.bucketCapacity) (hr : 0 < config.refillRate) {again : ℚ}
    (hidle : toRat config.bucketTtlSecs < again - nextToken config) :
    (run config (twoCycles config callerId again)).passes callerId =
      List.replicate ⌊config.bucketCapacity⌋₊ 0 ++ [nextToken config] ++
        (List.replicate ⌊config.bucketCapacity⌋₊ again ++ [again + nextToken config]) := by
  have hfirst : Spent config callerId 0 (0 + nextToken config) _
      (run config (cycle config callerId 0)) := spent_cycle hc hr rfl rfl 0
  rw [zero_add] at hfirst
  unfold run at hfirst ⊢
  unfold twoCycles
  rw [List.foldl_append, List.foldl_cons]
  generalize (cycle config callerId 0).foldl History.step { gate := { config := config } } = h
    at hfirst
  have hgone : (h.step (.evict (fun _ => again) again)).gate.buckets.lookup callerId = none := by
    rw [Option.eq_none_iff_forall_not_mem]
    intro bucket hmem
    obtain ⟨hb, hkept⟩ := AList.lookup_retain_eq_some.mp hmem
    cases hfirst.bucket_eq.symm.trans hb
    rw [hfirst.config_eq, TokenBucket.isIdleFor, decide_eq_true (hidle.trans_le (le_max_right _ _))]
      at hkept
    cases hkept
  have hsecond := spent_cycle (h := h.step (.evict (fun _ => again) again)) hc hr
    hfirst.config_eq hgone again
  exact hsecond.log_eq.trans (congrArg (· ++ _) hfirst.log_eq)

theorem nextToken_pos {config : AdmissionConfig} (hr : 0 < config.refillRate) :
    0 < nextToken config := by
  have := Nat.lt_floor_add_one config.bucketCapacity
  exact div_pos (by linarith) hr

theorem timed_twoCycles {config : AdmissionConfig} {again : ℚ} (hr : 0 < config.refillRate)
    (hle : nextToken config ≤ again) : Timed 0 (twoCycles config callerId again) := by
  have hwait := (nextToken_pos hr).le
  have hsecond : Timed again (cycle config callerId again) :=
    timed_burst _ (le_refl _) ⟨le_add_of_nonneg_right hwait, trivial⟩
  unfold twoCycles cycle
  rw [List.append_assoc]
  refine timed_burst _ (le_refl _) ⟨by simpa using hwait, fun _ => ⟨?_, le_refl _⟩, ?_, hsecond⟩
  · simpa using hle
  · simpa using hle

/-- With a time to live too short to fill a bucket, two cycles pass too often. -/
theorem twoCycles_exceed {config : AdmissionConfig} (hc : 1 ≤ config.bucketCapacity)
    (hr : 0 < config.refillRate)
    (hshort : toRat config.bucketTtlSecs * config.refillRate < config.bucketCapacity) :
    ¬ RateBounded config := by
  intro hbound
  have hwait := nextToken_pos hr
  have httl : 0 ≤ toRat config.bucketTtlSecs := Nat.cast_nonneg _
  obtain ⟨again, hidle, hsoon⟩ : ∃ again, toRat config.bucketTtlSecs + nextToken config < again ∧
      again < config.bucketCapacity / config.refillRate + nextToken config := by
    apply exists_between
    have := (lt_div_iff₀ hr).mpr hshort
    linarith
  have hexceed := hbound 0 (twoCycles config "" again) (timed_twoCycles hr (by linarith)) "" 0
    (again + nextToken config) (by linarith)
  rw [passes_twoCycles hc hr (by linarith), taken_eq_length] at hexceed
  · simp only [List.length_append, List.length_replicate, List.length_singleton] at hexceed
    have hfill : nextToken config * config.refillRate =
        ⌊config.bucketCapacity⌋₊ + 1 - config.bucketCapacity := div_mul_cancel₀ _ hr.ne'
    have hdiv : config.bucketCapacity / config.refillRate * config.refillRate =
        config.bucketCapacity := div_mul_cancel₀ _ hr.ne'
    have hlate := mul_lt_mul_of_pos_right hsoon hr
    push_cast at hexceed
    linarith [add_mul (config.bucketCapacity / config.refillRate) (nextToken config)
      config.refillRate, add_mul again (nextToken config) config.refillRate]
  · intro t ht
    simp only [List.mem_append, List.mem_replicate, List.mem_singleton] at ht
    rcases ht with (⟨-, rfl⟩ | rfl) | ⟨-, rfl⟩ | rfl <;> constructor <;> linarith

end Bursts

/-- The rate bound holds over all runs exactly if a bucket that is idle long enough to be
evicted has had the time to fill up. -/
theorem rate_bounded_iff (config : AdmissionConfig) (hc : 1 ≤ config.bucketCapacity)
    (hr : 0 < config.refillRate) : RateBounded config ↔
      config.bucketCapacity ≤ toRat config.bucketTtlSecs * config.refillRate := by
  constructor
  · intro hbound
    by_contra hshort
    exact twoCycles_exceed hc hr (not_le.mp hshort) hbound
  · exact rateBounded_of_refilled (zero_le_one.trans hc) hr.le

theorem default_rate_bounded : RateBounded {} :=
  (rate_bounded_iff {} (by decide +kernel) (by decide +kernel)).mpr (by decide +kernel)

/-- A small bucket that is evicted after a second. -/
def hasty : AdmissionConfig := { bucketCapacity := 2, refillRate := 1, bucketTtlSecs := 1 }

/-- A full bucket twice, the second time right after its eviction. -/
def renewed : List Event :=
  [submitAt "a" 0, submitAt "a" 0, .evict (fun _ => 3 / 2) (3 / 2), submitAt "a" (3 / 2),
    submitAt "a" (3 / 2)]

theorem eviction_renews_burst : ¬ RateBounded hasty := by
  intro hbound
  have hlate : (0 : ℚ) ≤ 3 / 2 := by decide +kernel
  have htimed : Timed 0 renewed :=
    ⟨le_refl _, le_refl _, fun _ => ⟨hlate, le_refl _⟩, hlate, le_refl _, le_refl _, trivial⟩
  exact absurd (hbound 0 renewed htimed "a" 0 (3 / 2) hlate) (by decide +kernel)

end HelixRouter.Admission
