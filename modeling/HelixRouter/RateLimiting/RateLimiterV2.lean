import HelixRouter.Containers.Retain
import HelixRouter.Metering.Limiter
import HelixRouter.Metering.Meter
import HelixRouter.Router.Numbers
import Mathlib.Data.UInt

namespace HelixRouter.RateLimiting

inductive RateLimitAlgorithm where
  | tokenBucket
  | slidingWindow
  | fixedWindow
  | hybrid

structure WindowEntry where
  timestampMs : UInt64
  count : UInt64

structure SlidingWindowLimiter where
  entries : List WindowEntry := []
  windowMs : UInt64
  maxCount : UInt64

namespace SlidingWindowLimiter

def new (windowMs maxCount : UInt64) : SlidingWindowLimiter where
  windowMs := windowMs
  maxCount := maxCount

/-- An entry at time `t` covers `[t, t + windowMs)`. -/
def expired (w : SlidingWindowLimiter) (nowMs : UInt64) (e : WindowEntry) : Bool :=
  saturatingAdd e.timestampMs w.windowMs ≤ nowMs

def evict (w : SlidingWindowLimiter) (nowMs : UInt64) : SlidingWindowLimiter :=
  { w with entries := w.entries.dropWhile (w.expired nowMs) }

def current (w : SlidingWindowLimiter) : UInt64 := (w.entries.map (·.count)).sum

def push (w : SlidingWindowLimiter) (nowMs count : UInt64) : SlidingWindowLimiter :=
  { w with entries := w.entries ++ [{ timestampMs := nowMs, count := count }] }

def tryAllow (w : SlidingWindowLimiter) (nowMs count : UInt64) : Bool × SlidingWindowLimiter :=
  let w := w.evict nowMs
  if saturatingAdd w.current count ≤ w.maxCount then (true, w.push nowMs count) else (false, w)

end SlidingWindowLimiter

structure TokenBucketV2 where
  capacity : ℚ
  tokens : ℚ
  refillRate : ℚ
  lastMs : UInt64 := 0

namespace TokenBucketV2

def new (capacity refillRate : ℚ) : TokenBucketV2 where
  capacity := capacity
  tokens := capacity
  refillRate := refillRate

def refill (b : TokenBucketV2) (nowMs : UInt64) : TokenBucketV2 :=
  if b.lastMs < nowMs then
    let elapsedSec := toRat (nowMs - b.lastMs) / 1000
    { b with tokens := min (b.tokens + b.refillRate * elapsedSec) b.capacity, lastMs := nowMs }
  else b

def tryConsume (b : TokenBucketV2) (nowMs : UInt64) (tokens : ℚ) : Bool × TokenBucketV2 :=
  let b := b.refill nowMs
  if tokens ≤ b.tokens then (true, { b with tokens := b.tokens - tokens }) else (false, b)

end TokenBucketV2

structure HybridLimiter where
  bucket : TokenBucketV2
  window : SlidingWindowLimiter

/-- What a request of some tokens counts in a window. -/
def needed (tokens : ℚ) : UInt64 := castU64 (tokens.ceil : ℚ)

namespace HybridLimiter

def new (capacity refillRate : ℚ) (windowMs windowMax : UInt64) : HybridLimiter where
  bucket := .new capacity refillRate
  window := .new windowMs windowMax

/-- The window is only looked at before the bucket, and charged once the bucket was. -/
def tryAllow (l : HybridLimiter) (nowMs : UInt64) (tokens : ℚ) : Bool × HybridLimiter :=
  let window := l.window.evict nowMs
  if saturatingAdd window.current (needed tokens) ≤ window.maxCount then
    match l.bucket.tryConsume nowMs tokens with
    | (true, bucket) => (true, ⟨bucket, window.push nowMs (needed tokens)⟩)
    | (false, bucket) => (false, ⟨bucket, window⟩)
  else (false, { l with window := window })

end HybridLimiter

/-- A limiter with how many calls it has let through and turned away. -/
structure Client where
  limiter : HybridLimiter
  allowed : UInt64 := 0
  rejected : UInt64 := 0

structure RateLimiterV2 where
  limiters : AList (fun _ : String => Client) := ∅
  algorithm : RateLimitAlgorithm

namespace RateLimiterV2

def new (algorithm : RateLimitAlgorithm) : RateLimiterV2 := { algorithm := algorithm }

def registerClient (r : RateLimiterV2) (clientId : String) (capacity refillRate : ℚ)
    (windowMs windowMax : UInt64) : RateLimiterV2 :=
  { r with limiters :=
      r.limiters.insert clientId { limiter := .new capacity refillRate windowMs windowMax } }

def check (r : RateLimiterV2) (clientId : String) (nowMs : UInt64) (tokens : ℚ) :
    Bool × RateLimiterV2 :=
  match r.limiters.lookup clientId with
  | none => (false, r)
  | some c =>
    match c.limiter.tryAllow nowMs tokens with
    | (true, l) =>
      (true, { r with limiters :=
        r.limiters.insert clientId { c with limiter := l, allowed := c.allowed + 1 } })
    | (false, l) =>
      (false, { r with limiters :=
        r.limiters.insert clientId { c with limiter := l, rejected := c.rejected + 1 } })

end RateLimiterV2

open Metering Limiter

/-- A call of `check` for one client. -/
structure Charge where
  nowMs : UInt64
  tokens : ℚ

def bucketLimiter : Limiter TokenBucketV2 Charge := fun b c => b.tryConsume c.nowMs c.tokens

def windowLimiter : Limiter SlidingWindowLimiter Charge := fun w c =>
  w.tryAllow c.nowMs (needed c.tokens)

def hybridLimiter : Limiter HybridLimiter Charge := fun l c => l.tryAllow c.nowMs c.tokens

inductive Op where
  | check (clientId : String) (charge : Charge)
  | registerClient (clientId : String) (capacity refillRate : ℚ) (windowMs windowMax : UInt64)

/-- What a client is charged by its own calls. -/
def charges (client : String) : List Op → List Charge
  | [] => []
  | .check id c :: ops => if id = client then c :: charges client ops else charges client ops
  | .registerClient .. :: ops => charges client ops

def Op.Registers (client : String) : Op → Prop
  | .check .. => False
  | .registerClient id .. => id = client

namespace RateLimiterV2

/-- The answers a client gets while the registry performs the operations. -/
def serve (client : String) : RateLimiterV2 → List Op → List Bool
  | _, [] => []
  | r, .check id c :: ops =>
    let answer := r.check id c.nowMs c.tokens
    if id = client then answer.1 :: serve client answer.2 ops else serve client answer.2 ops
  | r, .registerClient id capacity refillRate windowMs windowMax :: ops =>
    serve client (r.registerClient id capacity refillRate windowMs windowMax) ops

end RateLimiterV2

/-- The answers are those of the algorithm's own limiters. Nothing is said of a
fixed window, of which there is no limiter to compare with. -/
def Enforces (algorithm : RateLimitAlgorithm) (b : TokenBucketV2) (w : SlidingWindowLimiter)
    (calls : List Charge) (got : List Bool) : Prop :=
  match algorithm with
  | .tokenBucket => got = answers bucketLimiter b calls
  | .slidingWindow => got = answers windowLimiter w calls
  | .hybrid => got = answers (both bucketLimiter windowLimiter) (b, w) calls
  | .fixedWindow => True

instance (algorithm : RateLimitAlgorithm) (b : TokenBucketV2) (w : SlidingWindowLimiter)
    (calls : List Charge) (got : List Bool) : Decidable (Enforces algorithm b w calls got) :=
  match algorithm with
  | .tokenBucket => inferInstanceAs (Decidable (got = _))
  | .slidingWindow => inferInstanceAs (Decidable (got = _))
  | .hybrid => inferInstanceAs (Decidable (got = _))
  | .fixedWindow => inferInstanceAs (Decidable True)

/-- The limiter that was not asked for would not have turned anything away. -/
def Unhindered (algorithm : RateLimitAlgorithm) (b : TokenBucketV2) (w : SlidingWindowLimiter)
    (calls : List Charge) : Prop :=
  match algorithm with
  | .tokenBucket => Clears windowLimiter w (admitted bucketLimiter b calls)
  | .slidingWindow => Clears bucketLimiter b (admitted windowLimiter w calls)
  | .hybrid => True
  | .fixedWindow => True

section Refill

variable {b b' : TokenBucketV2} {m n : UInt64} {tokens : ℚ}

def TokenBucketV2.meter (b : TokenBucketV2) : Meter ℚ := ⟨b.capacity, b.refillRate⟩

theorem TokenBucketV2.refill_of_lt (h : b.lastMs < n) : b.refill n =
    { b with tokens := b.meter.refilled b.tokens (toRat (n - b.lastMs) / 1000), lastMs := n } := by
  unfold refill Meter.refilled meter
  rw [if_pos h, mul_comm]

theorem TokenBucketV2.refill_of_le (h : ¬ b.lastMs < n) : b.refill n = b := if_neg h

theorem TokenBucketV2.refill_capped (h : b.tokens ≤ b.capacity) :
    (b.refill n).tokens ≤ (b.refill n).capacity := by
  by_cases hl : b.lastMs < n
  · rw [refill_of_lt hl]
    exact min_le_right _ _
  · rw [refill_of_le hl]
    exact h

theorem toRat_sub_add_sub {k : UInt64} (hk : k ≤ n) (hn : n ≤ m) :
    toRat (n - k) + toRat (m - n) = toRat (m - k) := by
  have h1 := UInt64.toNat_sub_of_le _ _ hk
  have h2 := UInt64.toNat_sub_of_le _ _ hn
  have h3 := UInt64.toNat_sub_of_le _ _ (UInt64.le_trans hk hn)
  have hkn := UInt64.le_iff_toNat_le.mp hk
  have hnm := UInt64.le_iff_toNat_le.mp hn
  unfold toRat
  rw [← Nat.cast_add]
  exact congrArg _ (by omega)

theorem elapsed_nonneg (n : UInt64) : 0 ≤ toRat n / 1000 :=
  div_nonneg (Nat.cast_nonneg _) (by norm_num)

/-- Topping a bucket up on the way makes no difference, even where it drains over time. -/
theorem TokenBucketV2.refill_refill (h : b.tokens ≤ b.capacity) (hn : n ≤ m) :
    (b.refill n).refill m = b.refill m := by
  by_cases hl : b.lastMs < n
  · by_cases hnm : n < m
    · have htwice := Meter.refilled_refilled_of_capped (m := b.meter) h
        (elapsed_nonneg (n - b.lastMs)) (elapsed_nonneg (m - n))
      rw [← add_div, toRat_sub_add_sub (UInt64.le_of_lt hl) hn] at htwice
      rw [refill_of_lt hl, refill_of_lt (UInt64.lt_of_lt_of_le hl hn), ← htwice]
      exact refill_of_lt hnm
    · obtain rfl : n = m := UInt64.le_antisymm hn (UInt64.not_lt.mp hnm)
      rw [refill_of_lt hl]
      exact refill_of_le (UInt64.lt_irrefl n)
  · rw [refill_of_le hl]

theorem TokenBucketV2.tryConsume_of_le (h : tokens ≤ (b.refill n).tokens) : b.tryConsume n tokens =
    (true, { b.refill n with tokens := (b.refill n).tokens - tokens }) := if_pos h

theorem TokenBucketV2.tryConsume_of_lt (h : ¬ tokens ≤ (b.refill n).tokens) :
    b.tryConsume n tokens = (false, b.refill n) := if_neg h

/-- Topped up at any later time, the two buckets are the same. -/
def TokenBucketV2.Alike (k : Nat) (b b' : TokenBucketV2) : Prop :=
  b.tokens ≤ b.capacity ∧ ∀ m : UInt64, k ≤ m.toNat → b.refill m = b'.refill m

variable {k : Nat}

theorem TokenBucketV2.Alike.refl (h : b.tokens ≤ b.capacity) : Alike k b b := ⟨h, fun _ _ => rfl⟩

theorem TokenBucketV2.Alike.mono (h : Alike k b b') {k' : Nat} (hk : k ≤ k') : Alike k' b b' :=
  ⟨h.1, fun m hm => h.2 m (hk.trans hm)⟩

theorem TokenBucketV2.Alike.refilled (h : Alike k b b') (hk : k ≤ n.toNat) :
    Alike n.toNat (b.refill n) b' := by
  refine ⟨refill_capped h.1, fun m hm => ?_⟩
  rw [refill_refill h.1 (UInt64.le_iff_toNat_le.mpr hm)]
  exact h.2 m (hk.trans hm)

theorem TokenBucketV2.Alike.consumed (h : Alike k b b') (hk : k ≤ n.toNat) (ht : 0 < tokens) :
    b'.tryConsume n tokens = b.tryConsume n tokens ∧
      Alike n.toNat (b.tryConsume n tokens).2 (b.tryConsume n tokens).2 := by
  refine ⟨?_, Alike.refl ?_⟩
  · unfold tryConsume
    rw [h.2 n hk]
  · have hcap := refill_capped (n := n) h.1
    by_cases hle : tokens ≤ (b.refill n).tokens
    · rw [tryConsume_of_le hle]
      exact (sub_le_self _ ht.le).trans hcap
    · rw [tryConsume_of_lt hle]
      exact hcap

theorem TokenBucketV2.Alike.refused (h : Alike k b b') (hk : k ≤ n.toNat)
    (hc : (b.tryConsume n tokens).1 = false) :
    (b'.tryConsume n tokens).1 = false ∧ Alike n.toNat (b.tryConsume n tokens).2 b' := by
  constructor
  · rw [← hc]
    unfold tryConsume
    rw [h.2 n hk]
  · by_cases hle : tokens ≤ (b.refill n).tokens
    · rw [tryConsume_of_le hle] at hc
      cases hc
    · rw [tryConsume_of_lt hle]
      exact h.refilled hk

end Refill

section Evict

variable {w w' : SlidingWindowLimiter} {m n count : UInt64} {k : Nat}

theorem SlidingWindowLimiter.expired_of_le {e : WindowEntry} (hn : n ≤ m) (h : w.expired n e = true) :
    w.expired m e = true := by
  simp only [expired, decide_eq_true_eq] at h ⊢
  exact UInt64.le_trans h hn

theorem dropWhile_dropWhile {α : Type} {p q : α → Bool} (h : ∀ a, p a = true → q a = true)
    (l : List α) : (l.dropWhile p).dropWhile q = l.dropWhile q := by
  induction l with
  | nil => rfl
  | cons a l ih =>
    by_cases hp : p a = true
    · rw [List.dropWhile_cons_of_pos hp, List.dropWhile_cons_of_pos (h a hp)]
      exact ih
    · rw [List.dropWhile_cons_of_neg hp]

theorem SlidingWindowLimiter.evict_evict (hn : n ≤ m) : (w.evict n).evict m = w.evict m :=
  congrArg (fun entries => { w with entries := entries })
    (dropWhile_dropWhile (fun _ => expired_of_le hn) w.entries)

theorem SlidingWindowLimiter.tryAllow_refused (h : (w.tryAllow n count).1 = false) :
    (w.tryAllow n count).2 = w.evict n := by
  unfold tryAllow at h ⊢
  dsimp only at h ⊢
  split at h
  · cases h
  · rename_i hf
    rw [if_neg hf]

/-- Cleared out at any later time, the two windows are the same. -/
def SlidingWindowLimiter.Alike (k : Nat) (w w' : SlidingWindowLimiter) : Prop :=
  ∀ m : UInt64, k ≤ m.toNat → w.evict m = w'.evict m

theorem SlidingWindowLimiter.Alike.evicted (h : Alike k w w') (hk : k ≤ n.toNat) :
    Alike n.toNat (w.evict n) w' := by
  intro m hm
  rw [evict_evict (UInt64.le_iff_toNat_le.mpr hm)]
  exact h m (hk.trans hm)

theorem SlidingWindowLimiter.Alike.tryAllow (h : Alike k w w') (hk : k ≤ n.toNat) :
    w'.tryAllow n count = w.tryAllow n count := by
  unfold SlidingWindowLimiter.tryAllow
  rw [h n hk]

end Evict

section Simulation

variable {b b' : TokenBucketV2} {w w' : SlidingWindowLimiter} {calls : List Charge} {k : Nat}
  {c : Charge}

def Charge.stamp (c : Charge) : Nat := c.nowMs.toNat

def Charge.Positive (c : Charge) : Prop := 0 < c.tokens

theorem bucket_step (h : b.Alike k b') (hk : k ≤ c.stamp) (hc : c.Positive) :
    (bucketLimiter b c).1 = (strict bucketLimiter b' c).1 ∧
      TokenBucketV2.Alike c.stamp (bucketLimiter b c).2 (strict bucketLimiter b' c).2 := by
  cases hans : (bucketLimiter b c).1 with
  | true =>
    obtain ⟨he, hnext⟩ := h.consumed hk hc
    have hb : bucketLimiter b' c = bucketLimiter b c := he
    rw [strict_of_admitted (by rw [hb]; exact hans), hb, hans]
    exact ⟨rfl, hnext⟩
  | false =>
    obtain ⟨he, hnext⟩ := h.refused hk hans
    rw [strict_of_refused he]
    exact ⟨rfl, hnext⟩

theorem window_step (h : w.Alike k w') (hk : k ≤ c.stamp) :
    (windowLimiter w c).1 = (strict windowLimiter w' c).1 ∧
      SlidingWindowLimiter.Alike c.stamp (windowLimiter w c).2 (strict windowLimiter w' c).2 := by
  have he : windowLimiter w' c = windowLimiter w c := h.tryAllow hk
  cases hans : (windowLimiter w c).1 with
  | true =>
    rw [strict_of_admitted (by rw [he]; exact hans), he, hans]
    exact ⟨rfl, fun _ _ => rfl⟩
  | false =>
    rw [strict_of_refused (by rw [he]; exact hans)]
    refine ⟨rfl, ?_⟩
    rw [show (windowLimiter w c).2 = w.evict c.nowMs from SlidingWindowLimiter.tryAllow_refused hans]
    exact h.evicted hk

theorem hybrid_full {l : HybridLimiter} (h : (windowLimiter l.window c).1 = false) :
    hybridLimiter l c = (false, ⟨l.bucket, (windowLimiter l.window c).2⟩) := by
  unfold windowLimiter SlidingWindowLimiter.tryAllow at h ⊢
  dsimp only at h ⊢
  split at h
  · cases h
  · rename_i hf
    simp [hybridLimiter, HybridLimiter.tryAllow, hf]

theorem hybrid_room {l : HybridLimiter} (h : (windowLimiter l.window c).1 = true) :
    hybridLimiter l c = ((bucketLimiter l.bucket c).1, ⟨(bucketLimiter l.bucket c).2,
      if (bucketLimiter l.bucket c).1 then (windowLimiter l.window c).2
      else l.window.evict c.nowMs⟩) := by
  unfold windowLimiter SlidingWindowLimiter.tryAllow at h ⊢
  dsimp only at h ⊢
  split at h
  · rename_i hf
    cases hb : l.bucket.tryConsume c.nowMs c.tokens with
    | mk answer bucket =>
      cases answer with
      | true => simp [hybridLimiter, bucketLimiter, HybridLimiter.tryAllow, hf, hb]
      | false => simp [hybridLimiter, bucketLimiter, HybridLimiter.tryAllow, hf, hb]
  · cases h

/-- A hybrid limiter, with a bucket and a window that were charged together. -/
def HybridLimiter.Alike (k : Nat) (l : HybridLimiter) (p : TokenBucketV2 × SlidingWindowLimiter) :
    Prop := l.bucket.Alike k p.1 ∧ l.window.Alike k p.2

theorem hybrid_step {l : HybridLimiter} {p : TokenBucketV2 × SlidingWindowLimiter}
    (h : l.Alike k p) (hk : k ≤ c.stamp) (hc : c.Positive) :
    (hybridLimiter l c).1 = (both bucketLimiter windowLimiter p c).1 ∧
      HybridLimiter.Alike c.stamp (hybridLimiter l c).2
        (both bucketLimiter windowLimiter p c).2 := by
  obtain ⟨b, w⟩ := p
  obtain ⟨hbucket, hwindow⟩ := h
  have hw : windowLimiter w c = windowLimiter l.window c := hwindow.tryAllow hk
  cases hroom : (windowLimiter l.window c).1 with
  | false =>
    rw [hybrid_full hroom, both_of_refused (Or.inr (by rw [hw]; exact hroom))]
    refine ⟨rfl, hbucket.mono hk, ?_⟩
    rw [show (windowLimiter l.window c).2 = l.window.evict c.nowMs from
      SlidingWindowLimiter.tryAllow_refused hroom]
    exact hwindow.evicted hk
  | true =>
    rw [hybrid_room hroom]
    cases hans : (bucketLimiter l.bucket c).1 with
    | true =>
      obtain ⟨he, hnext⟩ := hbucket.consumed hk hc
      have hb : bucketLimiter b c = bucketLimiter l.bucket c := he
      rw [both_of_admitted (by rw [hb]; exact hans) (by rw [hw]; exact hroom), hb, hw]
      exact ⟨rfl, hnext, fun _ _ => rfl⟩
    | false =>
      obtain ⟨he, hnext⟩ := hbucket.refused hk hans
      rw [both_of_refused (Or.inl he)]
      exact ⟨rfl, hnext, hwindow.evicted hk⟩

variable (fair : ∀ c ∈ calls, c.Positive) (order : calls.Pairwise fun c d => c.stamp ≤ d.stamp)
include order

theorem windows_agree (w : SlidingWindowLimiter) :
    answers windowLimiter w calls = answers (strict windowLimiter) w calls ∧
      admitted windowLimiter w calls = admitted (strict windowLimiter) w calls :=
  eq_of_agree (fun _ => True) SlidingWindowLimiter.Alike (fun h hk _ => window_step h hk)
    (fun _ _ => trivial) order (fun _ _ => Nat.zero_le _) fun _ _ => rfl

include fair

theorem buckets_agree (h : b.tokens ≤ b.capacity) :
    answers bucketLimiter b calls = answers (strict bucketLimiter) b calls ∧
      admitted bucketLimiter b calls = admitted (strict bucketLimiter) b calls :=
  eq_of_agree Charge.Positive TokenBucketV2.Alike bucket_step fair order
    (fun _ _ => Nat.zero_le _) (.refl h)

theorem hybrids_agree (h : b.tokens ≤ b.capacity) (w : SlidingWindowLimiter) :
    answers hybridLimiter ⟨b, w⟩ calls = answers (both bucketLimiter windowLimiter) (b, w) calls := by
  have start : HybridLimiter.Alike 0 ⟨b, w⟩ (b, w) := ⟨.refl h, fun _ _ => rfl⟩
  have agree := eq_of_agree Charge.Positive HybridLimiter.Alike hybrid_step fair order
    (fun _ _ => Nat.zero_le _) start
  exact agree.1

/-- Whatever the algorithm, a client is served by a hybrid limiter. -/
theorem enforces_hybrid_iff (h : b.tokens ≤ b.capacity) (algorithm : RateLimitAlgorithm) :
    Enforces algorithm b w calls (answers hybridLimiter ⟨b, w⟩ calls) ↔
      Unhindered algorithm b w calls := by
  rw [hybrids_agree fair order h]
  cases algorithm with
  | tokenBucket =>
    obtain ⟨hans, hadm⟩ := buckets_agree fair order h
    unfold Enforces Unhindered
    rw [hans, hadm]
    exact answers_both_eq_left_iff
  | slidingWindow =>
    obtain ⟨hans, hadm⟩ := windows_agree order w
    unfold Enforces Unhindered
    rw [hans, hadm]
    exact answers_both_eq_right_iff
  | hybrid => exact ⟨fun _ => trivial, fun _ => rfl⟩
  | fixedWindow => exact Iff.rfl

end Simulation

namespace RateLimiterV2

variable {r : RateLimiterV2} {client id : String} {cl : Client} {ops : List Op}

theorem check_other (h : id ≠ client) (nowMs : UInt64) (tokens : ℚ) :
    (r.check id nowMs tokens).2.limiters.lookup client = r.limiters.lookup client := by
  unfold check
  split
  · rfl
  · split
    · exact AList.lookup_insert_ne (Ne.symm h)
    · exact AList.lookup_insert_ne (Ne.symm h)

theorem check_self (h : r.limiters.lookup client = some cl) (c : Charge) :
    (r.check client c.nowMs c.tokens).1 = (hybridLimiter cl.limiter c).1 ∧
      ∃ cl', (r.check client c.nowMs c.tokens).2.limiters.lookup client = some cl' ∧
        cl'.limiter = (hybridLimiter cl.limiter c).2 := by
  unfold check hybridLimiter
  rw [h]
  dsimp only
  split
  · rename_i heq
    rw [heq]
    exact ⟨rfl, _, AList.lookup_insert _, rfl⟩
  · rename_i heq
    rw [heq]
    exact ⟨rfl, _, AList.lookup_insert _, rfl⟩

/-- What others do in between does not change what a client is answered. -/
theorem serve_eq (h : r.limiters.lookup client = some cl)
    (fresh : ∀ op ∈ ops, ¬ op.Registers client) :
    serve client r ops = answers hybridLimiter cl.limiter (charges client ops) := by
  induction ops generalizing r cl with
  | nil => rfl
  | cons op ops ih =>
    have hrest : ∀ op ∈ ops, ¬ op.Registers client := fun op ho =>
      fresh op (List.mem_cons_of_mem _ ho)
    cases op with
    | check id c =>
      by_cases hid : id = client
      · subst hid
        obtain ⟨hans, cl', hl, he⟩ := check_self h c
        simp only [serve, charges, answers, ↓reduceIte]
        rw [ih hl hrest, hans, he]
      · simp only [serve, charges, hid, ↓reduceIte]
        exact ih ((check_other hid _ _).trans h) hrest
    | registerClient id capacity refillRate windowMs windowMax =>
      have hid : client ≠ id := fun he => fresh _ List.mem_cons_self he.symm
      exact ih ((AList.lookup_insert_ne hid).trans h) hrest

/-- A registry is true to its algorithm exactly on the calls that the limiter it did
not ask for lets through as well. -/
theorem enforces_iff (capacity refillRate : ℚ) (windowMs windowMax : UInt64)
    (fresh : ∀ op ∈ ops, ¬ op.Registers client)
    (fair : ∀ c ∈ charges client ops, c.Positive)
    (order : (charges client ops).Pairwise fun c d => c.stamp ≤ d.stamp) :
    Enforces r.algorithm (.new capacity refillRate) (.new windowMs windowMax)
        (charges client ops)
        (serve client (r.registerClient client capacity refillRate windowMs windowMax) ops) ↔
      Unhindered r.algorithm (.new capacity refillRate) (.new windowMs windowMax)
        (charges client ops) := by
  have hl : (r.registerClient client capacity refillRate windowMs windowMax).limiters.lookup client =
      some { limiter := .new capacity refillRate windowMs windowMax } := AList.lookup_insert _
  rw [serve_eq hl fresh]
  exact enforces_hybrid_iff fair order (le_refl capacity) r.algorithm

/-- A bucket of ten is asked twice for one, next to a window of one. -/
theorem small_window_overrides :
    ¬ Enforces .tokenBucket (.new 10 1) (.new 1000 1) [⟨0, 1⟩, ⟨0, 1⟩]
      (serve "a" ((new .tokenBucket).registerClient "a" 10 1 1000 1)
        [.check "a" ⟨0, 1⟩, .check "a" ⟨0, 1⟩]) := by
  decide +kernel

theorem enforces_iff_small_window :
    ¬ Unhindered .tokenBucket (.new 10 1) (.new 1000 1) [⟨0, 1⟩, ⟨0, 1⟩] := by
  intro h
  have order : ([⟨0, 1⟩, ⟨0, 1⟩] : List Charge).Pairwise fun c d => c.stamp ≤ d.stamp := by decide
  have fair : ∀ c ∈ ([⟨0, 1⟩, ⟨0, 1⟩] : List Charge), c.Positive := by
    intro c hc
    obtain rfl : c = ⟨0, 1⟩ := by simpa using hc
    exact one_pos
  have fresh : ∀ op ∈ [Op.check "a" ⟨0, 1⟩, .check "a" ⟨0, 1⟩], ¬ op.Registers "a" := by
    intro op ho hreg
    obtain rfl : op = .check "a" ⟨0, 1⟩ := by simpa using ho
    exact hreg
  have henf := (enforces_iff (r := new .tokenBucket) 10 1 1000 1 fresh fair order).mpr h
  exact absurd henf (by decide +kernel)

end RateLimiterV2

end HelixRouter.RateLimiting
