import HelixRouter.Metering.Meter
import HelixRouter.Router.Numbers
import HelixRouter.Runs.Stepwise
import Mathlib.Data.List.AList

namespace HelixRouter.Shaping

inductive TrafficClass where
  | realTime
  | interactive
  | batch
  | background
deriving DecidableEq

structure TokenBucket where
  capacity : UInt64
  tokens : ℚ
  refillRatePerMs : ℚ
  lastRefill : UInt64

namespace TokenBucket

def new (capacity : UInt64) (refillRatePerMs : ℚ) : TokenBucket :=
  ⟨capacity, toRat capacity, refillRatePerMs, 0⟩

def refill (b : TokenBucket) (nowMs : UInt64) : TokenBucket :=
  if b.lastRefill < nowMs then
    let elapsed := toRat (nowMs - b.lastRefill)
    { b with
      tokens := min (b.tokens + elapsed * b.refillRatePerMs) (toRat b.capacity)
      lastRefill := nowMs }
  else b

def tryConsume (b : TokenBucket) (tokens nowMs : UInt64) : Bool × TokenBucket :=
  let b := b.refill nowMs
  if toRat tokens ≤ b.tokens then (true, { b with tokens := b.tokens - toRat tokens })
  else (false, b)

def waitMs (b : TokenBucket) (tokens : UInt64) : UInt64 :=
  let deficit := max (toRat tokens - b.tokens) 0
  if b.refillRatePerMs ≤ 0 then UInt64.ofNat u64Max
  else castU64 ⌈deficit / b.refillRatePerMs⌉

end TokenBucket

inductive AdmitDecision where
  | admit_
  | queue (estimatedWaitMs : UInt64)
  | drop
deriving DecidableEq

structure ShaperConfig where
  classes : AList fun _ : TrafficClass => TokenBucket
  strictPriority : Bool := false

structure TrafficShaper where
  config : ShaperConfig
  queues : AList (fun _ : TrafficClass => List String) := ∅

namespace TrafficShaper

def new (config : ShaperConfig) : TrafficShaper where
  config := config
  queues := config.classes.keys.foldl (fun queues c => queues.insert c []) ∅

def queue (s : TrafficShaper) (c : TrafficClass) : List String := (s.queues.lookup c).getD []

def setBucket (s : TrafficShaper) (c : TrafficClass) (b : TokenBucket) : TrafficShaper :=
  { s with config.classes := s.config.classes.insert c b }

def setQueue (s : TrafficShaper) (c : TrafficClass) (q : List String) : TrafficShaper :=
  { s with queues := s.queues.insert c q }

def admit_ (s : TrafficShaper) (requestId : String) (c : TrafficClass) (tokens nowMs : UInt64) :
    AdmitDecision × TrafficShaper :=
  match s.config.classes.lookup c with
  | none => (.drop, s)
  | some bucket =>
    let (consumed, bucket) := bucket.tryConsume tokens nowMs
    let s := s.setBucket c bucket
    if consumed then (.admit_, s)
    else if s.config.strictPriority then (.drop, s)
    else (.queue (bucket.waitMs tokens), s.setQueue c (s.queue c ++ [requestId]))

/-- Each request is charged one token, whatever it was queued with. -/
def drainLoop (b : TokenBucket) (nowMs : UInt64) :
    List String → List String × TokenBucket × List String
  | [] => ([], b, [])
  | id :: rest =>
    let (consumed, b) := b.tryConsume 1 nowMs
    if consumed then
      let (admitted, b, rest) := drainLoop b nowMs rest
      (id :: admitted, b, rest)
    else ([], b, id :: rest)

def drainQueue (s : TrafficShaper) (c : TrafficClass) (nowMs : UInt64) :
    List String × TrafficShaper :=
  match s.config.classes.lookup c with
  | none => ([], s)
  | some bucket =>
    let (admitted, bucket, rest) := drainLoop bucket nowMs (s.queue c)
    (admitted, (s.setBucket c bucket).setQueue c rest)

end TrafficShaper

open Metering Runs

inductive Call where
  | admit_ (requestId : String) (c : TrafficClass) (tokens nowMs : UInt64)
  | drainQueue (c : TrafficClass) (nowMs : UInt64)

def Call.nowMs : Call → UInt64
  | admit_ _ _ _ nowMs => nowMs
  | drainQueue _ nowMs => nowMs

/-- A shaper with what each class was admitted, with its times and costs, what it was queued,
with its costs, and what it was released from its queue. -/
structure History where
  shaper : TrafficShaper
  nowMs : UInt64 := 0
  admitted : TrafficClass → List (UInt64 × UInt64) := fun _ => []
  queued : TrafficClass → List (String × UInt64) := fun _ => []
  released : TrafficClass → List String := fun _ => []

namespace History

def new (config : ShaperConfig) : History := { shaper := .new config }

/-- What was queued and not yet released, with its costs. -/
def pending (h : History) (c : TrafficClass) : List (String × UInt64) :=
  (h.queued c).drop (h.released c).length

def perform (h : History) : Call → History
  | .admit_ requestId c tokens nowMs =>
    match h.shaper.admit_ requestId c tokens nowMs with
    | (.admit_, s) =>
      { h with
        shaper := s, nowMs := nowMs
        admitted := Function.update h.admitted c (h.admitted c ++ [(nowMs, tokens)]) }
    | (.queue _, s) =>
      { h with
        shaper := s, nowMs := nowMs
        queued := Function.update h.queued c (h.queued c ++ [(requestId, tokens)]) }
    | (.drop, s) => { h with shaper := s, nowMs := nowMs }
  | .drainQueue c nowMs =>
    let (ids, s) := h.shaper.drainQueue c nowMs
    let costs := ((h.pending c).take ids.length).map fun d => (nowMs, d.2)
    { h with
      shaper := s, nowMs := nowMs
      admitted := Function.update h.admitted c (h.admitted c ++ costs)
      released := Function.update h.released c (h.released c ++ ids) }

/-- Calls do not go back in time. -/
def step (h : History) (call : Call) : Option History :=
  if h.nowMs ≤ call.nowMs then some (h.perform call) else none

/-- What a class was admitted in all, as times and costs. -/
def costs (h : History) (c : TrafficClass) : List (ℚ × ℚ) :=
  (h.admitted c).map fun d => (toRat d.1, toRat d.2)

end History

def TokenBucket.meter (b : TokenBucket) : Meter ℚ := ⟨toRat b.capacity, b.refillRatePerMs⟩

/-- No interval sees more admitted than the bucket of its class holds and gains in it, and what
is released is what was queued, in order, each once. -/
structure Shaped (config : ShaperConfig) (h : History) : Prop where
  bounded : ∀ c b, config.classes.lookup c = some b → ∀ s e : ℚ, s ≤ e →
    drawn s e (h.costs c) ≤ toRat b.capacity + b.refillRatePerMs * (e - s)
  fifo : ∀ c, h.released c ++ h.shaper.queue c = (h.queued c).map (·.1)

/-- The bucket that a call finds holds no more than its capacity, and what it can release was
queued with a cost of a token at most. -/
def Fair (h : History) : Call → Prop
  | .admit_ _ c _ nowMs => ∀ b, h.shaper.config.classes.lookup c = some b →
    (b.refill nowMs).tokens ≤ toRat b.capacity
  | .drainQueue c nowMs => ∀ b, h.shaper.config.classes.lookup c = some b →
    (b.refill nowMs).tokens ≤ toRat b.capacity ∧
      ∀ d ∈ (h.pending c).take ⌊(b.refill nowMs).tokens⌋₊, d.2 ≤ 1

instance (h : History) : (call : Call) → Decidable (Fair h call)
  | .admit_ _ c _ nowMs => inferInstanceAs (Decidable
      (∀ b ∈ h.shaper.config.classes.lookup c, (b.refill nowMs).tokens ≤ toRat b.capacity))
  | .drainQueue c nowMs => inferInstanceAs (Decidable
      (∀ b ∈ h.shaper.config.classes.lookup c, (b.refill nowMs).tokens ≤ toRat b.capacity ∧
        ∀ d ∈ (h.pending c).take ⌊(b.refill nowMs).tokens⌋₊, d.2 ≤ 1))

section Buckets

variable {b : TokenBucket} {tokens nowMs : UInt64} {queue : List String}

@[simp] theorem capacity_refill : (b.refill nowMs).capacity = b.capacity := by
  unfold TokenBucket.refill
  split <;> rfl

@[simp] theorem rate_refill : (b.refill nowMs).refillRatePerMs = b.refillRatePerMs := by
  unfold TokenBucket.refill
  split <;> rfl

theorem le_lastRefill : nowMs ≤ (b.refill nowMs).lastRefill := by
  unfold TokenBucket.refill
  split
  · exact UInt64.le_refl _
  · rename_i h
    exact UInt64.not_lt.mp h

theorem refill_of_le (h : nowMs ≤ b.lastRefill) : b.refill nowMs = b :=
  if_neg (UInt64.not_lt.mpr h)

theorem refill_refill : (b.refill nowMs).refill nowMs = b.refill nowMs :=
  refill_of_le le_lastRefill

theorem tryConsume_of_le (h : toRat tokens ≤ (b.refill nowMs).tokens) :
    b.tryConsume tokens nowMs =
      (true, { b.refill nowMs with tokens := (b.refill nowMs).tokens - toRat tokens }) :=
  if_pos h

theorem tryConsume_of_not_le (h : ¬toRat tokens ≤ (b.refill nowMs).tokens) :
    b.tryConsume tokens nowMs = (false, b.refill nowMs) :=
  if_neg h

theorem toRat_one : toRat 1 = 1 := rfl

/-- What the loop takes off a queue is its beginning, at a token each. -/
theorem drainLoop_refilled (hrefill : b.refill nowMs = b) (queue : List String) :
    ∃ k ≤ queue.length, (k = 0 ∨ (k : ℚ) ≤ b.tokens) ∧
      TrafficShaper.drainLoop b nowMs queue =
        (queue.take k, { b with tokens := b.tokens - k }, queue.drop k) := by
  induction queue generalizing b with
  | nil => exact ⟨0, le_refl 0, .inl rfl, by simp [TrafficShaper.drainLoop]⟩
  | cons id rest ih =>
    rw [TrafficShaper.drainLoop]
    by_cases hone : toRat 1 ≤ (b.refill nowMs).tokens
    · rw [tryConsume_of_le hone, hrefill]
      rw [hrefill, toRat_one] at hone
      have hle : nowMs ≤ b.lastRefill := hrefill ▸ le_lastRefill
      have hnext : ({ b with tokens := b.tokens - toRat 1 } : TokenBucket).refill nowMs =
          { b with tokens := b.tokens - toRat 1 } :=
        refill_of_le hle
      obtain ⟨k, hk, hlevel, heq⟩ := ih hnext
      refine ⟨k + 1, Nat.succ_le_succ hk, .inr ?_, ?_⟩
      · push_cast
        rcases hlevel with rfl | hlevel
        · simpa using hone
        · rw [toRat_one] at hlevel
          linarith
      · dsimp only
        rw [if_pos rfl, heq, toRat_one]
        have hsum : b.tokens - ((k + 1 : Nat) : ℚ) = b.tokens - 1 - k := by
          push_cast
          ring
        rw [hsum]
        rfl
    · rw [tryConsume_of_not_le hone, hrefill]
      exact ⟨0, Nat.zero_le _, .inl rfl, by simp⟩

theorem drainLoop_refill (hqueue : queue ≠ []) :
    TrafficShaper.drainLoop b nowMs queue =
      TrafficShaper.drainLoop (b.refill nowMs) nowMs queue := by
  cases queue with
  | nil => exact absurd rfl hqueue
  | cons id rest =>
    have hsame : (b.refill nowMs).tryConsume 1 nowMs = b.tryConsume 1 nowMs := by
      unfold TokenBucket.tryConsume
      rw [refill_refill]
    rw [TrafficShaper.drainLoop, TrafficShaper.drainLoop, hsame]

end Buckets

/-- What a history says of one class. -/
structure View where
  bucket : Option TokenBucket
  queue : List String
  admitted : List (UInt64 × UInt64)
  queued : List (String × UInt64)
  released : List String

def History.view (h : History) (c : TrafficClass) : View :=
  ⟨h.shaper.config.classes.lookup c, h.shaper.queue c, h.admitted c, h.queued c, h.released c⟩

def Call.trafficClass : Call → TrafficClass
  | admit_ _ c _ _ => c
  | drainQueue c _ => c

section Views

variable {h : History} {call : Call} {c c' : TrafficClass} {b b' : TokenBucket}
  {s : TrafficShaper} {tokens nowMs : UInt64} {requestId : String} {q : List String}

@[simp] theorem lookup_setBucket : (s.setBucket c b).config.classes.lookup c = some b :=
  AList.lookup_insert _

@[simp] theorem lookup_setBucket_ne (hne : c' ≠ c) :
    (s.setBucket c b).config.classes.lookup c' = s.config.classes.lookup c' :=
  AList.lookup_insert_ne hne

@[simp] theorem queue_setBucket : (s.setBucket c b).queue c' = s.queue c' := rfl

@[simp] theorem lookup_setQueue :
    (s.setQueue c q).config.classes.lookup c' = s.config.classes.lookup c' := rfl

@[simp] theorem queue_setQueue : (s.setQueue c q).queue c = q := by
  simp [TrafficShaper.queue, TrafficShaper.setQueue]

@[simp] theorem queue_setQueue_ne (hne : c' ≠ c) : (s.setQueue c q).queue c' = s.queue c' := by
  simp [TrafficShaper.queue, TrafficShaper.setQueue, hne]

theorem admit_none (hb : s.config.classes.lookup c = none) :
    s.admit_ requestId c tokens nowMs = (.drop, s) := by
  rw [TrafficShaper.admit_, hb]

theorem admit_of_le (hb : s.config.classes.lookup c = some b)
    (hle : toRat tokens ≤ (b.refill nowMs).tokens) :
    s.admit_ requestId c tokens nowMs = (.admit_, s.setBucket c
      { b.refill nowMs with tokens := (b.refill nowMs).tokens - toRat tokens }) := by
  rw [TrafficShaper.admit_, hb]
  dsimp only
  rw [tryConsume_of_le hle]
  rfl

theorem admit_of_not_le (hb : s.config.classes.lookup c = some b)
    (hle : ¬toRat tokens ≤ (b.refill nowMs).tokens) :
    s.admit_ requestId c tokens nowMs =
      if s.config.strictPriority then (.drop, s.setBucket c (b.refill nowMs))
      else (.queue ((b.refill nowMs).waitMs tokens),
        (s.setBucket c (b.refill nowMs)).setQueue c (s.queue c ++ [requestId])) := by
  rw [TrafficShaper.admit_, hb]
  dsimp only
  rw [tryConsume_of_not_le hle]
  rfl

/-- A call does nothing to what is said of the other classes. -/
theorem view_other (hne : c ≠ call.trafficClass) : (h.perform call).view c = h.view c := by
  cases call with
  | admit_ requestId c' tokens nowMs =>
    replace hne : c ≠ c' := hne
    cases hb : h.shaper.config.classes.lookup c' with
    | none => simp [History.perform, History.view, admit_none hb]
    | some b =>
      by_cases hle : toRat tokens ≤ (b.refill nowMs).tokens
      · simp [History.perform, History.view, admit_of_le hb hle, hne]
      · rw [History.perform, admit_of_not_le hb hle]
        by_cases hstrict : h.shaper.config.strictPriority
        · simp [hstrict, History.view, hne]
        · simp [hstrict, History.view, hne]
  | drainQueue c' nowMs =>
    replace hne : c ≠ c' := hne
    rw [History.perform, TrafficShaper.drainQueue]
    cases hb : h.shaper.config.classes.lookup c' with
    | none => simp [History.view, hne]
    | some b => simp [History.view, hne]

theorem view_none (hb : (h.view c).bucket = none) (hc : call.trafficClass = c) :
    (h.perform call).view c = h.view c := by
  cases call with
  | admit_ requestId c' tokens nowMs =>
    cases hc
    replace hb : h.shaper.config.classes.lookup c' = none := hb
    rw [History.perform, admit_none hb]
    rfl
  | drainQueue c' nowMs =>
    cases hc
    replace hb : h.shaper.config.classes.lookup c' = none := hb
    rw [History.perform, TrafficShaper.drainQueue, hb]
    simp [History.view]

/-- A request is charged for and admitted, or only refills the bucket, and may be queued. -/
theorem view_admit (requestId : String) (tokens nowMs : UInt64)
    (hb : (h.view c).bucket = some b) :
    toRat tokens ≤ (b.refill nowMs).tokens ∧
        (h.perform (.admit_ requestId c tokens nowMs)).view c =
          { h.view c with
            bucket := some
              { b.refill nowMs with tokens := (b.refill nowMs).tokens - toRat tokens }
            admitted := (h.view c).admitted ++ [(nowMs, tokens)] } ∨
      (h.perform (.admit_ requestId c tokens nowMs)).view c =
        { h.view c with bucket := some (b.refill nowMs) } ∨
      (h.perform (.admit_ requestId c tokens nowMs)).view c =
        { h.view c with
          bucket := some (b.refill nowMs)
          queue := (h.view c).queue ++ [requestId]
          queued := (h.view c).queued ++ [(requestId, tokens)] } := by
  by_cases hle : toRat tokens ≤ (b.refill nowMs).tokens
  · refine .inl ⟨hle, ?_⟩
    simp [History.perform, History.view, admit_of_le hb hle]
  · refine .inr ?_
    rw [History.perform, admit_of_not_le hb hle]
    by_cases hstrict : h.shaper.config.strictPriority
    · refine .inl ?_
      simp [hstrict, History.view]
    · refine .inr ?_
      simp [hstrict, History.view]

/-- The beginning of a queue is released, at a token each. -/
theorem view_drainQueue (nowMs : UInt64) (hb : (h.view c).bucket = some b) :
    (h.view c).queue = [] ∧ (h.perform (.drainQueue c nowMs)).view c = h.view c ∨
      ∃ k ≤ (h.view c).queue.length, (k = 0 ∨ (k : ℚ) ≤ (b.refill nowMs).tokens) ∧
        (h.perform (.drainQueue c nowMs)).view c =
          { h.view c with
            bucket := some { b.refill nowMs with tokens := (b.refill nowMs).tokens - k }
            queue := (h.view c).queue.drop k
            admitted := (h.view c).admitted ++
              ((h.pending c).take k).map fun d => (nowMs, d.2)
            released := (h.view c).released ++ (h.view c).queue.take k } := by
  replace hb : h.shaper.config.classes.lookup c = some b := hb
  by_cases hqueue : h.shaper.queue c = []
  · refine .inl ⟨hqueue, ?_⟩
    rw [History.perform, TrafficShaper.drainQueue, hb]
    simp [History.view, hqueue, TrafficShaper.drainLoop, hb]
  · refine .inr ?_
    have hrefill : (b.refill nowMs).refill nowMs = b.refill nowMs := refill_refill
    obtain ⟨k, hk, hlevel, heq⟩ := drainLoop_refilled hrefill (h.shaper.queue c)
    refine ⟨k, hk, hlevel, ?_⟩
    rw [History.perform, TrafficShaper.drainQueue, hb]
    dsimp only
    rw [drainLoop_refill hqueue, heq]
    simp [History.view, Nat.min_eq_left hk]

end Views

/-- What a class was released, with what it has queued, is what was queued. -/
def View.Fifo (v : View) : Prop := v.released ++ v.queue = v.queued.map (·.1)

/-- The bucket of a class has paid for what the class was admitted. -/
def View.Metered (config : ShaperConfig) (c : TrafficClass) (s e : ℚ) (nowMs : UInt64)
    (v : View) : Prop :=
  ∀ b, config.classes.lookup c = some b → ∃ b', v.bucket = some b' ∧ b'.meter = b.meter ∧
    (v.admitted = [] ∨ ∃ t, t ≤ toRat b'.lastRefill ∧ t ≤ toRat nowMs ∧
      Draws b.meter s e t b'.tokens (v.admitted.map fun d => (toRat d.1, toRat d.2)))

section Fifo

variable {h : History} {call : Call} {c : TrafficClass} {config : ShaperConfig}

theorem fifo_perform (hfifo : (h.view c).Fifo) : ((h.perform call).view c).Fifo := by
  by_cases hne : c = call.trafficClass
  · cases hb : (h.view c).bucket with
    | none => rwa [view_none hb hne.symm]
    | some b =>
      cases call with
      | admit_ requestId c' tokens nowMs =>
        replace hne : c = c' := hne
        subst hne
        rcases view_admit requestId tokens nowMs hb with ⟨-, heq⟩ | heq | heq
        · rwa [heq]
        · rwa [heq]
        · rw [heq, View.Fifo]
          dsimp only
          rw [← List.append_assoc, List.map_append, hfifo]
          rfl
      | drainQueue c' nowMs =>
        replace hne : c = c' := hne
        subst hne
        rcases view_drainQueue nowMs hb with ⟨-, heq⟩ | ⟨k, -, -, heq⟩
        · rwa [heq]
        · rw [heq, View.Fifo]
          dsimp only
          rw [List.append_assoc, List.take_append_drop]
          exact hfifo
  · rwa [view_other hne]

theorem queue_new (config : ShaperConfig) (c : TrafficClass) :
    (TrafficShaper.new config).queue c = [] := by
  have hkeep : ∀ (keys : List TrafficClass) (queues : AList fun _ : TrafficClass => List String),
      (queues.lookup c).getD [] = [] →
      ((keys.foldl (fun queues c => queues.insert c []) queues).lookup c).getD [] = [] := by
    intro keys
    induction keys with
    | nil => exact fun queues h => h
    | cons k keys ih =>
      refine fun queues h => ih _ ?_
      by_cases hk : c = k
      · rw [hk, AList.lookup_insert]
        rfl
      · rwa [AList.lookup_insert_ne hk]
  exact hkeep _ ∅ (by rw [AList.lookup_empty]; rfl)

theorem fifo_new : ((History.new config).view c).Fifo := queue_new config c

theorem length_pending (hfifo : (h.view c).Fifo) :
    (h.pending c).length = (h.view c).queue.length := by
  have hlength := congrArg List.length hfifo
  rw [List.length_append, List.length_map] at hlength
  rw [History.pending, List.length_drop]
  exact Nat.sub_eq_of_eq_add' hlength.symm

end Fifo

section Charges

variable {h : History} {call : Call} {c : TrafficClass} {config : ShaperConfig}
  {b : TokenBucket} {nowMs : UInt64} {m : Meter ℚ} {s e t : ℚ} {costs : List (ℚ × ℚ)}

theorem toRat_mono {a a' : UInt64} (hle : a ≤ a') : toRat a ≤ toRat a' :=
  Nat.cast_le.mpr (UInt64.le_iff_toNat_le.mp hle)

theorem toRat_sub {a a' : UInt64} (hle : a ≤ a') : toRat (a' - a) = toRat a' - toRat a := by
  unfold toRat
  rw [UInt64.toNat_sub_of_le _ _ hle, Nat.cast_sub (UInt64.le_iff_toNat_le.mp hle)]

/-- A refill gains no more than the time since a moment before the last one gives. -/
theorem refill_le_refilled (hr : 0 ≤ b.refillRatePerMs) (hcap : b.tokens ≤ toRat b.capacity)
    (hlast : t ≤ toRat b.lastRefill) (hnow : t ≤ toRat nowMs) :
    (b.refill nowMs).tokens ≤ b.meter.refilled b.tokens (toRat nowMs - t) := by
  unfold TokenBucket.refill
  split
  · rename_i hlt
    have hgain : toRat (nowMs - b.lastRefill) * b.refillRatePerMs ≤
        (toRat nowMs - t) * b.refillRatePerMs := by
      rw [toRat_sub (UInt64.le_of_lt hlt)]
      exact mul_le_mul_of_nonneg_right (by linarith) hr
    refine min_le_min_right _ ?_
    change _ ≤ b.tokens + (toRat nowMs - t) * b.refillRatePerMs
    linarith
  · have hgain := mul_nonneg (sub_nonneg.mpr hnow) hr
    refine le_min ?_ hcap
    change _ ≤ b.tokens + (toRat nowMs - t) * b.refillRatePerMs
    linarith

/-- The bucket that a call finds, once refilled, has paid for what was admitted. -/
theorem draws_refill (hr : 0 ≤ b.refillRatePerMs) (hse : s ≤ e)
    (hcap : (b.refill nowMs).tokens ≤ toRat b.capacity)
    (hdraws : costs = [] ∨
      ∃ t, t ≤ toRat b.lastRefill ∧ t ≤ toRat nowMs ∧ Draws b.meter s e t b.tokens costs) :
    Draws b.meter s e (toRat nowMs) (b.refill nowMs).tokens costs := by
  rcases hdraws with rfl | ⟨t, hlast, hnow, hdraws⟩
  · have hstart := Draws.start (m := b.meter) (Nat.cast_nonneg _) hr hse (toRat nowMs)
    refine hstart.wait hr (le_refl _) (le_min ?_ hcap)
    rw [sub_self, zero_mul, add_zero]
    exact hcap
  · exact hdraws.wait hr hnow (refill_le_refilled hr hdraws.capped hlast hnow)

/-- A fair call leaves every bucket with what was admitted paid for. -/
theorem metered_perform (hrates : ∀ c b, config.classes.lookup c = some b → 0 < b.refillRatePerMs)
    (hse : s ≤ e) (hfifo : (h.view c).Fifo)
    (hmetered : (h.view c).Metered config c s e h.nowMs) (htime : h.nowMs ≤ call.nowMs)
    (hfair : Fair h call) :
    ((h.perform call).view c).Metered config c s e call.nowMs := by
  intro b hb
  obtain ⟨b', hb', hmeter, hdraws⟩ := hmetered b hb
  have hr : 0 ≤ b'.refillRatePerMs := by
    have hrate : b'.refillRatePerMs = b.refillRatePerMs := congrArg Meter.rate hmeter
    rw [hrate]
    exact (hrates c b hb).le
  have hlater := toRat_mono htime
  replace hdraws : (h.view c).admitted = [] ∨ ∃ t, t ≤ toRat b'.lastRefill ∧
      t ≤ toRat call.nowMs ∧ Draws b.meter s e t b'.tokens
        ((h.view c).admitted.map fun d => (toRat d.1, toRat d.2)) := by
    rcases hdraws with hnone | ⟨t, hlast, hnow, hdraws⟩
    · exact .inl hnone
    · exact .inr ⟨t, hlast, hnow.trans hlater, hdraws⟩
  by_cases hne : c = call.trafficClass
  · have hpaid : (b'.refill call.nowMs).tokens ≤ toRat b'.capacity →
        Draws b.meter s e (toRat call.nowMs) (b'.refill call.nowMs).tokens
          ((h.view c).admitted.map fun d => (toRat d.1, toRat d.2)) := by
      intro hcap
      rw [← hmeter] at hdraws ⊢
      refine draws_refill hr hse hcap (hdraws.imp_left fun hnone => ?_)
      rw [hnone, List.map_nil]
    have hrefilled : ∀ tokens, ({ b'.refill call.nowMs with tokens := tokens } :
        TokenBucket).meter = b.meter := by
      intro tokens
      rw [← hmeter]
      simp [TokenBucket.meter]
    have hlast : toRat call.nowMs ≤ toRat (b'.refill call.nowMs).lastRefill :=
      toRat_mono le_lastRefill
    have hrate : 0 ≤ b.meter.rate := hmeter ▸ hr
    cases call with
    | admit_ requestId c' tokens nowMs =>
      replace hne : c = c' := hne
      subst hne
      replace hpaid := hpaid (hfair b' hb')
      rcases view_admit requestId tokens nowMs hb' with ⟨hle, heq⟩ | heq | heq
      · rw [heq]
        refine ⟨_, rfl, hrefilled _, .inr ⟨_, hlast, le_refl _, ?_⟩⟩
        rw [List.map_append]
        exact hpaid.draw hrate (Nat.cast_nonneg _) hle (le_refl _)
      · rw [heq]
        exact ⟨_, rfl, hrefilled _, .inr ⟨_, hlast, le_refl _, hpaid⟩⟩
      · rw [heq]
        exact ⟨_, rfl, hrefilled _, .inr ⟨_, hlast, le_refl _, hpaid⟩⟩
    | drainQueue c' nowMs =>
      replace hne : c = c' := hne
      subst hne
      obtain ⟨hcap, hcheap⟩ := hfair b' hb'
      replace hpaid := hpaid hcap
      rcases view_drainQueue nowMs hb' with ⟨-, heq⟩ | ⟨k, hk, hlevel, heq⟩
      · rw [heq]
        exact ⟨b', hb', hmeter, hdraws⟩
      · rw [heq]
        refine ⟨_, rfl, hrefilled _, .inr ⟨_, hlast, le_refl _, ?_⟩⟩
        have hlength : (((h.pending c).take k).map fun d => toRat d.2).length = k := by
          rw [List.length_map, List.length_take, length_pending hfifo, Nat.min_eq_left hk]
        have hcosts : ∀ cost ∈ ((h.pending c).take k).map fun d => toRat d.2,
            0 ≤ cost ∧ cost ≤ 1 := by
          intro cost hcost
          obtain ⟨d, hd, rfl⟩ := List.mem_map.mp hcost
          refine ⟨Nat.cast_nonneg _, toRat_mono (hcheap d ?_)⟩
          rcases hlevel with rfl | hlevel
          · simp at hd
          · exact (List.take_prefix_take_left (Nat.le_floor hlevel)).subset hd
        rcases hlevel with rfl | hlevel
        · simp only [List.take_zero, List.map_nil, List.append_nil, Nat.cast_zero, sub_zero]
          exact hpaid
        · have hdrawn := hpaid.drawEach hrate hcosts (hlength.symm ▸ hlevel)
          rw [hlength, List.map_map] at hdrawn
          rw [List.map_append, List.map_map]
          exact hdrawn
  · rw [view_other hne]
    exact ⟨b', hb', hmeter, hdraws⟩

end Charges

section Runs

variable {config : ShaperConfig} {calls : List Call}

theorem step_eq_some {h h' : History} {call : Call} (hstep : h.step call = some h') :
    h.nowMs ≤ call.nowMs ∧ h.perform call = h' := by
  obtain ⟨hle, heq⟩ := Option.ite_none_right_eq_some.mp hstep
  exact ⟨hle, Option.some.inj heq⟩

theorem nowMs_perform (h : History) (call : Call) : (h.perform call).nowMs = call.nowMs := by
  cases call with
  | admit_ requestId c tokens nowMs =>
    rw [History.perform]
    split <;> rfl
  | drainQueue c nowMs => rfl

theorem metered_new (c : TrafficClass) (s e : ℚ) :
    ((History.new config).view c).Metered config c s e 0 :=
  fun b hb => ⟨b, hb, rfl, .inl rfl⟩

theorem shaped_of_metered {h : History} (hfifo : ∀ c, (h.view c).Fifo)
    (hrates : ∀ c b, config.classes.lookup c = some b → 0 < b.refillRatePerMs)
    (hmetered : ∀ c s e, s ≤ e → (h.view c).Metered config c s e h.nowMs) :
    Shaped config h := by
  refine ⟨fun c b hb s e hse => ?_, fun c => hfifo c⟩
  obtain ⟨b', -, -, hnone | ⟨t, -, -, hdraws⟩⟩ := hmetered c s e hse b hb
  · have hzero : h.costs c = [] := by
      rw [History.costs]
      exact congrArg (List.map _) hnone
    have hcapacity : 0 ≤ toRat b.capacity := Nat.cast_nonneg _
    have hgain := mul_nonneg (hrates c b hb).le (sub_nonneg.mpr hse)
    rw [hzero, drawn_eq_zero (by simp)]
    linarith
  · have hbound := hdraws.bound
    rw [mul_comm] at hbound
    exact hbound

/-- In a run of fair calls every class keeps to its bandwidth, and in every run its requests
are released in the order in which they were queued. -/
theorem shaped_of_fair (config : ShaperConfig)
    (hrates : ∀ c b, config.classes.lookup c = some b → 0 < b.refillRatePerMs)
    (calls : List Call) (hfair : EachStep History.step Fair (History.new config) calls) :
    Throughout History.step (Shaped config) (History.new config) calls := by
  have hkept := hfair.throughout (P := fun h => (∀ c, (h.view c).Fifo) ∧
      ∀ c s e, s ≤ e → (h.view c).Metered config c s e h.nowMs)
    ⟨fun _ => fifo_new, fun c s e _ => metered_new c s e⟩ ?_
  · exact hkept.imp fun h hh => shaped_of_metered hh.1 hrates hh.2
  · rintro h call h' ⟨hfifo, hmetered⟩ hcall hstep
    obtain ⟨htime, rfl⟩ := step_eq_some hstep
    refine ⟨fun c => fifo_perform (hfifo c), fun c s e hse => ?_⟩
    rw [nowMs_perform]
    exact metered_perform hrates hse (hfifo c) (hmetered c s e hse) htime hcall

/-- The order of releases needs no condition. -/
theorem fifo_kept (config : ShaperConfig) (calls : List Call) :
    Throughout History.step (fun h => ∀ c, (h.view c).Fifo) (History.new config) calls := by
  refine throughout_of_step (fun _ => fifo_new) fun h call h' hfifo hstep c => ?_
  obtain ⟨-, rfl⟩ := step_eq_some hstep
  exact fifo_perform (hfifo c)

end Runs

/-- Ten tokens of burst, and one in ten milliseconds. -/
def narrow : ShaperConfig :=
  { classes := (∅ : AList fun _ : TrafficClass => TokenBucket).insert .batch (.new 10 (1 / 10)) }

theorem narrow_rates (c : TrafficClass) (b : TokenBucket)
    (hb : narrow.classes.lookup c = some b) : 0 < b.refillRatePerMs := by
  by_cases hc : c = .batch
  · subst hc
    cases (AList.lookup_insert _).symm.trans hb
    norm_num [TokenBucket.new]
  · rw [narrow, AList.lookup_insert_ne hc, AList.lookup_empty] at hb
    cases hb

/-- A request that leaves the queue for the token that it was queued with. -/
def lightCalls : List Call :=
  [.admit_ "a" .batch 10 0, .admit_ "b" .batch 1 0, .drainQueue .batch 10]

theorem light_fair : EachStep History.step Fair (History.new narrow) lightCalls := by
  refine fun h first => ⟨by decide +kernel, ?_⟩
  obtain ⟨-, rfl⟩ := step_eq_some first
  refine fun h second => ⟨by decide +kernel, ?_⟩
  obtain ⟨-, rfl⟩ := step_eq_some second
  exact fun h _ => ⟨by decide +kernel, trivial⟩

theorem shaped_of_fair_light :
    Throughout History.step (Shaped narrow) (History.new narrow) lightCalls :=
  shaped_of_fair narrow narrow_rates lightCalls light_fair

/-- Two requests of ten tokens, the second of which leaves the queue for one. -/
def heavyCalls : List Call :=
  [.admit_ "a" .batch 10 0, .admit_ "b" .batch 10 0, .drainQueue .batch 10]

theorem heavy_not_shaped :
    ¬Throughout History.step (Shaped narrow) (History.new narrow) heavyCalls := by
  intro hkept
  have hlog : (exec History.step (History.new narrow) heavyCalls).map
      (fun h => h.admitted .batch) = some [(0, 10), (10, 10)] := by
    decide +kernel
  obtain ⟨h, hrun, hadmitted⟩ := Option.map_eq_some_iff.mp hlog
  have hbound := (hkept.last hrun).bounded .batch _ (AList.lookup_insert _) 0 10 (by norm_num)
  rw [History.costs, hadmitted] at hbound
  exact absurd hbound (by decide +kernel)

end HelixRouter.Shaping
