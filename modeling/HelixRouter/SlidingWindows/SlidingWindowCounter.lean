import HelixRouter.Containers.Retain
import HelixRouter.Metering.Limiter
import HelixRouter.Router.Numbers
import Mathlib.Data.UInt

namespace HelixRouter.SlidingWindows

structure WindowConfig where
  windowMs : UInt64 := 1000
  maxRequests : UInt64 := 100
  subWindows : UInt32 := 10

def WindowConfig.bucketMs (config : WindowConfig) : UInt64 :=
  max (config.windowMs / (max config.subWindows 1).toUInt64) 1

structure SubWindow where
  startMs : UInt64
  count : UInt64

structure SlidingWindowCounter where
  config : WindowConfig
  buckets : List SubWindow := []

namespace SlidingWindowCounter

def new (config : WindowConfig) : SlidingWindowCounter := { config := config }

def evictStale (c : SlidingWindowCounter) (nowMs : UInt64) : SlidingWindowCounter :=
  let cutoff := saturatingSub nowMs c.config.windowMs
  { c with buckets := c.buckets.filter fun b => cutoff < b.startMs }

def bucketStart (c : SlidingWindowCounter) (nowMs : UInt64) : UInt64 :=
  nowMs / c.config.bucketMs * c.config.bucketMs

def record (c : SlidingWindowCounter) (nowMs : UInt64) : SlidingWindowCounter :=
  let start := c.bucketStart nowMs
  match c.buckets.find? (·.startMs = start) with
  | some _ =>
    { c with buckets := c.buckets.modifyFirst (·.startMs = start) fun b =>
        { b with count := saturatingAdd b.count 1 } }
  | none => { c with buckets := c.buckets ++ [{ startMs := start, count := 1 }] }

def sumCounts (c : SlidingWindowCounter) : UInt64 := (c.buckets.map (·.count)).sum

def tryIncrement (c : SlidingWindowCounter) (nowMs : UInt64) : Bool × SlidingWindowCounter :=
  let c := c.evictStale nowMs
  if c.config.maxRequests ≤ c.sumCounts then (false, c) else (true, c.record nowMs)

end SlidingWindowCounter

open Metering Limiter

namespace WindowConfig

variable {config : WindowConfig} {t : UInt64}

/-- Where the bucket of a time starts. -/
def slot (config : WindowConfig) (t : UInt64) : Nat :=
  t.toNat / config.bucketMs.toNat * config.bucketMs.toNat

/-- Fewer calls than allowed have been let through in the buckets that are not stale. -/
def underQuota (config : WindowConfig) (log : List UInt64) (nowMs : UInt64) : Bool :=
  log.countP (fun s => nowMs.toNat - config.windowMs.toNat < config.slot s) <
    config.maxRequests.toNat

theorem bucketMs_pos (config : WindowConfig) : 0 < config.bucketMs.toNat := by
  unfold bucketMs
  rw [toNat_max]
  exact lt_max_of_lt_right Nat.one_pos

theorem lt_slot_add (config : WindowConfig) (t : UInt64) :
    t.toNat < config.slot t + config.bucketMs.toNat := by
  unfold slot
  have hmod := Nat.mod_lt t.toNat (bucketMs_pos config)
  have hdiv := Nat.div_add_mod' t.toNat config.bucketMs.toNat
  omega

theorem slot_eq_zero_iff (config : WindowConfig) (t : UInt64) :
    config.slot t = 0 ↔ t.toNat < config.bucketMs.toNat := by
  unfold slot
  rw [Nat.mul_eq_zero, or_iff_left (bucketMs_pos config).ne', Nat.div_eq_zero_iff]
  exact or_iff_right (bucketMs_pos config).ne'

end WindowConfig

namespace SlidingWindowCounter

variable {c : SlidingWindowCounter} {config : WindowConfig} {bs : List SubWindow} {b : SubWindow}
  {p q : UInt64 → Bool} {nowMs : UInt64} {log ts : List UInt64} {n : Nat}

section Mass

/-- The counts of the buckets with such a start. -/
def mass (p : UInt64 → Bool) (bs : List SubWindow) : Nat :=
  ((bs.filter fun b => p b.startMs).map (·.count.toNat)).sum

theorem mass_cons : mass p (b :: bs) = (if p b.startMs then b.count.toNat else 0) + mass p bs := by
  unfold mass
  rw [List.filter_cons]
  split <;> simp

theorem mass_append {bs' : List SubWindow} : mass p (bs ++ bs') = mass p bs + mass p bs' := by
  simp [mass]

theorem mass_perm {bs' : List SubWindow} (h : bs.Perm bs') : mass p bs = mass p bs' :=
  ((h.filter _).map _).sum_eq

theorem mass_filter : mass p (bs.filter fun b => q b.startMs) = mass (fun s => p s && q s) bs := by
  simp [mass, List.filter_filter]

theorem mass_le (h : ∀ s, p s = true → q s = true) : mass p bs ≤ mass q bs := by
  induction bs with
  | nil => exact Nat.le_refl _
  | cons b bs ih =>
    rw [mass_cons, mass_cons]
    by_cases hp : p b.startMs = true
    · rw [if_pos hp, if_pos (h _ hp)]
      omega
    · rw [if_neg hp]
      omega

theorem count_le_mass (hb : b ∈ bs) : b.count.toNat ≤ mass (fun _ => true) bs := by
  obtain ⟨front, back, rfl⟩ := List.append_of_mem hb
  rw [mass_append, mass_cons]
  simp
  omega

/-- The sum of the counts does not overflow where they are few. -/
theorem toNat_sumCounts (h : mass (fun _ => true) c.buckets ≤ u64Max) :
    c.sumCounts.toNat = mass (fun _ => true) c.buckets := by
  unfold sumCounts
  generalize c.buckets = bs at h ⊢
  induction bs with
  | nil => rfl
  | cons b bs ih =>
    rw [mass_cons] at h ⊢
    simp only [if_true] at h ⊢
    rw [List.map_cons, List.sum_cons, UInt64.toNat_add, ih (by omega)]
    apply Nat.mod_eq_of_lt
    unfold u64Max at h
    omega

theorem toNat_bucketStart : (c.bucketStart nowMs).toNat = c.config.slot nowMs := by
  unfold bucketStart WindowConfig.slot
  rw [UInt64.toNat_mul, UInt64.toNat_div]
  exact Nat.mod_eq_of_lt (Nat.lt_of_le_of_lt (Nat.div_mul_le_self _ _) nowMs.toNat_lt)

/-- A recorded call counts in its own bucket. -/
theorem mass_record (p : UInt64 → Bool) (nowMs : UInt64)
    (h : mass (fun _ => true) c.buckets < u64Max) :
    mass p (c.record nowMs).buckets =
      mass p c.buckets + if p (c.bucketStart nowMs) then 1 else 0 := by
  unfold record
  dsimp only
  split
  · rename_i b hfind
    have hcount : b.count.toNat < u64Max :=
      Nat.lt_of_le_of_lt (count_le_mass (List.mem_of_find?_eq_some hfind)) h
    obtain ⟨hstart, rest, hperm, hperm'⟩ := List.modifyFirst_of_find?_some
      (f := fun b : SubWindow => { b with count := saturatingAdd b.count 1 }) hfind
    rw [mass_perm hperm, mass_perm hperm', mass_cons, mass_cons]
    have hone : (saturatingAdd b.count 1).toNat = b.count.toNat + 1 := by
      rw [toNat_saturatingAdd]
      change min (b.count.toNat + 1) u64Max = _
      omega
    dsimp only
    rw [hone, ← of_decide_eq_true hstart]
    split <;> omega
  · rw [mass_append, mass_cons]
    rfl

end Mass

section Agree

/-- The buckets that are not stale count what was let through in them. -/
def Agree (config : WindowConfig) (n : Nat) (c : SlidingWindowCounter) (log : List UInt64) : Prop :=
  c.config = config ∧ mass (fun _ => true) c.buckets ≤ config.maxRequests.toNat ∧
    ∀ k, n - config.windowMs.toNat ≤ k →
      mass (fun s => k < s.toNat) c.buckets = log.countP fun s => k < config.slot s

theorem agree_evictStale (h : Agree config n c log) (hn : n ≤ nowMs.toNat) :
    Agree config nowMs.toNat (c.evictStale nowMs) log ∧
      mass (fun _ => true) (c.evictStale nowMs).buckets =
        log.countP fun s => nowMs.toNat - config.windowMs.toNat < config.slot s := by
  obtain ⟨rfl, hle, hmass⟩ := h
  have hcut : ∀ p, mass p (c.evictStale nowMs).buckets =
      mass (fun s => p s && (nowMs.toNat - c.config.windowMs.toNat < s.toNat)) c.buckets := by
    intro p
    unfold evictStale
    rw [mass_filter (q := fun s => saturatingSub nowMs c.config.windowMs < s)]
    simp only [UInt64.lt_iff_toNat_lt, toNat_saturatingSub]
  refine ⟨⟨rfl, Nat.le_trans ?_ hle, fun k hk => ?_⟩, ?_⟩
  · rw [hcut]
    exact mass_le fun _ _ => rfl
  · rw [hcut, ← hmass k (by omega)]
    congr 1
    funext s
    simp only [Bool.and_eq_left_iff_imp, decide_eq_true_eq]
    omega
  · rw [hcut, ← hmass _ (by omega)]
    simp

theorem agree_step (h : Agree config n c log) (hn : n ≤ nowMs.toNat) :
    (c.tryIncrement nowMs).1 = (byLog config.underQuota log nowMs).1 ∧
      Agree config nowMs.toNat (c.tryIncrement nowMs).2 (byLog config.underQuota log nowMs).2 := by
  obtain ⟨hagree, hcount⟩ := agree_evictStale h hn
  obtain ⟨hconfig, hle, hmass⟩ := hagree
  have hmax := toNat_le_u64Max config.maxRequests
  have hsum := toNat_sumCounts (Nat.le_trans hle hmax)
  have hfull : (c.evictStale nowMs).config.maxRequests ≤ (c.evictStale nowMs).sumCounts ↔
      ¬config.underQuota log nowMs = true := by
    rw [hconfig, UInt64.le_iff_toNat_le, hsum, hcount]
    simp [WindowConfig.underQuota]
  unfold tryIncrement byLog
  dsimp only
  by_cases hq : config.underQuota log nowMs = true
  · have hlt := of_decide_eq_true hq
    rw [if_neg (hfull.not.mpr (not_not.mpr hq)), if_pos hq]
    have hrecord := fun p => mass_record p nowMs
      (Nat.lt_of_lt_of_le (hcount.trans_lt hlt) hmax)
    refine ⟨rfl, ?_, ?_, fun k hk => ?_⟩
    · unfold record
      dsimp only
      split <;> exact hconfig
    · rw [hrecord, if_pos rfl, hcount]
      exact hlt
    · rw [hrecord, hmass k hk, List.countP_append, List.countP_singleton, toNat_bucketStart,
        hconfig]
  · rw [if_pos (hfull.mpr hq), if_neg hq]
    exact ⟨rfl, hconfig, hle, hmass⟩

/-- The buckets let through what the log of all that was let through does. -/
theorem admitted_eq (ordered : ts.Pairwise fun s t => s.toNat ≤ t.toNat) :
    admitted tryIncrement (new config) ts = admitted (byLog config.underQuota) [] ts := by
  have hnew : Agree config 0 (new config) [] := by
    refine ⟨rfl, ?_, fun _ _ => ?_⟩
    · simp [new, mass]
    · simp [new, mass]
  have hstep : ∀ {n : Nat} {c : SlidingWindowCounter} {log : List UInt64} {t : UInt64},
      Agree config n c log → n ≤ t.toNat → True →
      (c.tryIncrement t).1 = (byLog config.underQuota log t).1 ∧
        Agree config t.toNat (c.tryIncrement t).2 (byLog config.underQuota log t).2 :=
    fun h hn _ => agree_step h hn
  exact (eq_of_agree (fun _ => True) (Agree config) hstep (fun _ _ => trivial) ordered
    (fun _ _ => Nat.zero_le _) hnew).2

end Agree

section Intervals

/-- The times from a start to a window less a bucket later. -/
def within (config : WindowConfig) (start : Nat) (t : UInt64) : Bool :=
  start ≤ t.toNat && t.toNat ≤ start + (config.windowMs.toNat - config.bucketMs.toNat)

/-- In every interval of a window less a bucket no more calls than allowed are let through. -/
def NeverOver (config : WindowConfig) (passed : List UInt64) : Prop :=
  config.bucketMs < config.windowMs →
    ∀ start, passed.countP (within config start) ≤ config.maxRequests.toNat

/-- No more calls than allowed are made in an interval that starts with a call in the very
first bucket. -/
def CalmStart (config : WindowConfig) (calls : List UInt64) : Prop :=
  config.bucketMs < config.windowMs → 0 < config.maxRequests →
    ∀ t ∈ calls, t < config.bucketMs →
      calls.countP (within config t.toNat) ≤ config.maxRequests.toNat

variable (ordered : ts.Pairwise fun s t => s.toNat ≤ t.toNat)

include ordered

/-- Behind the first bucket all that was let through within the interval is still counted. -/
theorem countP_within_le {start : Nat} (hwide : config.bucketMs.toNat < config.windowMs.toNat)
    (hlate : ∀ t ∈ admitted (byLog config.underQuota) [] ts, within config start t = true →
      config.bucketMs.toNat ≤ t.toNat) :
    (admitted (byLog config.underQuota) [] ts).countP (within config start) ≤
      config.maxRequests.toNat := by
  revert hlate
  refine byLog_induction (fun _ log => (∀ t ∈ log, within config start t = true →
    config.bucketMs.toNat ≤ t.toNat) → log.countP (within config start) ≤
      config.maxRequests.toNat) (fun _ => Nat.zero_le _) ?_ ordered
  intro cs log c ih hsub hlast hlate
  cases hq : config.underQuota log c with
  | false =>
    rw [hq] at hlate
    exact ih hlate
  | true =>
    rw [hq] at hlate
    simp only [if_true] at hlate ⊢
    have hlog : ∀ t ∈ log, within config start t = true → config.bucketMs.toNat ≤ t.toNat :=
      fun t ht => hlate t (List.mem_append_left _ ht)
    rw [List.countP_append, List.countP_singleton]
    split
    · rename_i hc
      have hlive : log.countP (within config start) ≤
          log.countP (fun s => c.toNat - config.windowMs.toNat < config.slot s) := by
        apply List.countP_mono_left
        intro s hs hin
        have hsc := hlast s (hsub.subset hs)
        have hb := hlog s hs hin
        have hslot := config.lt_slot_add s
        have hzero := config.slot_eq_zero_iff s
        simp only [within, Bool.and_eq_true, decide_eq_true_eq] at hc hin ⊢
        omega
      have hlt := of_decide_eq_true hq
      omega
    · exact ih hlog

/-- In the first bucket everything is let through. -/
theorem filter_first_bucket (hmax : 0 < config.maxRequests.toNat) :
    (admitted (byLog config.underQuota) [] ts).filter (fun t => t.toNat < config.bucketMs.toNat) =
      ts.filter fun t => t.toNat < config.bucketMs.toNat := by
  refine byLog_induction (fun cs log => log.filter (fun t => t.toNat < config.bucketMs.toNat) =
    cs.filter fun t => t.toNat < config.bucketMs.toNat) rfl ?_ ordered
  intro cs log c ih hsub hlast
  by_cases hc : c.toNat < config.bucketMs.toNat
  · have hnone : log.countP (fun s => c.toNat - config.windowMs.toNat < config.slot s) = 0 := by
      rw [List.countP_eq_zero]
      intro s hs
      have hsc := hlast s (hsub.subset hs)
      have hzero := (config.slot_eq_zero_iff s).mpr (by omega)
      simp [hzero]
    have hq : config.underQuota log c = true := by
      unfold WindowConfig.underQuota
      rw [hnone]
      exact decide_eq_true hmax
    rw [if_pos hq, List.filter_append, List.filter_append, ih]
  · have hdrop : [c].filter (fun t => t.toNat < config.bucketMs.toNat) = [] := by simp [hc]
    split
    · rw [List.filter_append, List.filter_append, hdrop, List.append_nil, List.append_nil, ih]
    · rw [List.filter_append, hdrop, List.append_nil, ih]

/-- Up to the end of the first window, nothing behind the first bucket is dropped. -/
theorem countP_first_window {last : Nat} (hlast : last < config.windowMs.toNat) :
    (admitted (byLog config.underQuota) [] ts).countP
        (fun t => config.bucketMs.toNat ≤ t.toNat && t.toNat ≤ last) =
      min config.maxRequests.toNat
        (ts.countP fun t => config.bucketMs.toNat ≤ t.toNat && t.toNat ≤ last) := by
  refine byLog_induction (fun cs log => log.countP
    (fun t => config.bucketMs.toNat ≤ t.toNat && t.toNat ≤ last) = min config.maxRequests.toNat
      (cs.countP fun t => config.bucketMs.toNat ≤ t.toNat && t.toNat ≤ last))
    (by simp) ?_ ordered
  intro cs log c ih hsub hprev
  rw [List.countP_append, List.countP_singleton]
  by_cases hc : (decide (config.bucketMs.toNat ≤ c.toNat) && decide (c.toNat ≤ last)) = true
  · rw [if_pos hc]
    have hlive : log.countP (fun s => c.toNat - config.windowMs.toNat < config.slot s) =
        log.countP fun t => config.bucketMs.toNat ≤ t.toNat && t.toNat ≤ last := by
      apply List.countP_congr
      intro s hs
      have hsc := hprev s (hsub.subset hs)
      have hzero := config.slot_eq_zero_iff s
      simp only [Bool.and_eq_true, decide_eq_true_eq] at hc ⊢
      omega
    cases hq : config.underQuota log c with
    | true =>
      have hlt := of_decide_eq_true hq
      simp only [if_true]
      rw [List.countP_append, List.countP_singleton, if_pos hc]
      omega
    | false =>
      have hge := of_decide_eq_false hq
      simp only [Bool.false_eq_true, if_false]
      omega
  · rw [if_neg hc, Nat.add_zero]
    split
    · rw [List.countP_append, List.countP_singleton, if_neg hc, Nat.add_zero, ih]
    · exact ih

omit ordered in
/-- An interval that starts in the first bucket, cut where the bucket ends. -/
theorem countP_within_eq {t : UInt64} (l : List UInt64) (ht : t.toNat < config.bucketMs.toNat) :
    l.countP (within config t.toNat) =
      (l.filter fun s => s.toNat < config.bucketMs.toNat).countP (within config t.toNat) +
        l.countP fun s => config.bucketMs.toNat ≤ s.toNat &&
          s.toNat ≤ t.toNat + (config.windowMs.toNat - config.bucketMs.toNat) := by
  induction l with
  | nil => rfl
  | cons s l ih =>
    rw [List.countP_cons, List.countP_cons, ih, List.filter_cons]
    by_cases hs : s.toNat < config.bucketMs.toNat
    · have hnot : ¬config.bucketMs.toNat ≤ s.toNat := Nat.not_le.mpr hs
      simp only [hs, decide_true, if_true, List.countP_cons, hnot, decide_false, Bool.false_and,
        Bool.false_eq_true, if_false]
      omega
    · have hle : config.bucketMs.toNat ≤ s.toNat := Nat.not_lt.mp hs
      have hlow : t.toNat ≤ s.toNat := by omega
      simp only [hs, decide_false, Bool.false_eq_true, if_false, hle, decide_true, Bool.true_and,
        within, hlow]
      omega

omit ordered in
/-- What was let through in an interval, by its first call. -/
theorem exists_first_within {start : Nat} {log : List UInt64} {t : UInt64} (ht : t ∈ log)
    (hin : within config start t = true) :
    ∃ first ∈ log, first.toNat ≤ t.toNat ∧
      log.countP (within config start) ≤ log.countP (within config first.toNat) := by
  induction hn : t.toNat using Nat.strong_induction_on generalizing t with
  | h n ih =>
    subst hn
    by_cases hfirst : ∀ s ∈ log, within config start s = true → t.toNat ≤ s.toNat
    · refine ⟨t, ht, Nat.le_refl _, List.countP_mono_left fun s hs hs' => ?_⟩
      have hts := hfirst s hs hs'
      simp only [within, Bool.and_eq_true, decide_eq_true_eq] at hin hs' ⊢
      omega
    · push Not at hfirst
      obtain ⟨s, hs, hs', hlt⟩ := hfirst
      obtain ⟨first, hmem, hle, hcount⟩ := ih s.toNat hlt hs hs' rfl
      exact ⟨first, hmem, Nat.le_trans hle hlt.le, hcount⟩

omit ordered in
theorem maxRequests_pos {t : UInt64} (ht : t ∈ admitted (byLog config.underQuota) [] ts) :
    0 < config.maxRequests := by
  rw [UInt64.lt_iff_toNat_lt]
  by_contra hzero
  have hnone : admitted (byLog config.underQuota) [] ts = [] := by
    refine byLog_induction (fun _ log => log = []) rfl ?_
      (List.pairwise_of_forall fun _ _ => (trivial : (fun _ _ => True) _ _))
    intro _ log c hlog _ _
    have hq : config.underQuota log c = false := by
      unfold WindowConfig.underQuota
      exact decide_eq_false (fun hlt => hzero (Nat.lt_of_le_of_lt (Nat.zero_le _) hlt))
    rw [hq]
    exact hlog
  rw [hnone] at ht
  cases ht

end Intervals

/-- At most as many calls as allowed are let through in every interval of a window less a
bucket, exactly where the very first bucket is calm. -/
theorem never_over_iff (config : WindowConfig) (ts : List UInt64)
    (ordered : ts.Pairwise fun s t => s ≤ t) :
    NeverOver config (admitted tryIncrement (new config) ts) ↔ CalmStart config ts := by
  have ordered : ts.Pairwise fun s t => s.toNat ≤ t.toNat := ordered.imp UInt64.le_iff_toNat_le.mp
  rw [admitted_eq ordered]
  unfold NeverOver CalmStart
  refine forall_congr' fun hw => ?_
  have hwide := UInt64.lt_iff_toNat_lt.mp hw
  constructor
  · intro hnever hmax t ht hfirst
    have hmax' : 0 < config.maxRequests.toNat := UInt64.lt_iff_toNat_lt.mp hmax
    have hfirst := UInt64.lt_iff_toNat_lt.mp hfirst
    have hover := hnever t.toNat
    rw [countP_within_eq _ hfirst, filter_first_bucket ordered hmax',
      countP_first_window ordered (by omega)] at hover
    rw [countP_within_eq _ hfirst]
    have hself : 0 < (ts.filter fun s => s.toNat < config.bucketMs.toNat).countP
        (within config t.toNat) := by
      rw [List.countP_pos_iff]
      exact ⟨t, List.mem_filter.mpr ⟨ht, by simpa using hfirst⟩, by simp [within]⟩
    omega
  · intro hcalm start
    by_cases hlate : ∀ t ∈ admitted (byLog config.underQuota) [] ts,
        within config start t = true → config.bucketMs.toNat ≤ t.toNat
    · exact countP_within_le ordered hwide hlate
    · push Not at hlate
      obtain ⟨t, ht, hin, hfirst⟩ := hlate
      obtain ⟨first, hmem, hle, hcount⟩ := exists_first_within ht hin
      refine hcount.trans (admitted_sublist.countP_le.trans ?_)
      exact hcalm (maxRequests_pos ht) first (admitted_sublist.subset hmem)
        (UInt64.lt_iff_toNat_lt.mpr (by omega))

theorem never_over_iff_later :
    NeverOver { maxRequests := 1 }
        (admitted tryIncrement (new { maxRequests := 1 }) [150, 250, 1150]) ↔
      CalmStart { maxRequests := 1 } [150, 250, 1150] :=
  never_over_iff { maxRequests := 1 } [150, 250, 1150] (by decide)

/-- Calls in the very first bucket are not counted. -/
theorem first_bucket_not_counted : ¬ ∀ (config : WindowConfig) (ts : List UInt64),
    (ts.Pairwise fun s t => s ≤ t) → NeverOver config (admitted tryIncrement (new config) ts) := by
  intro h
  have hover := h { maxRequests := 1 } [0, 0] (by decide) (by decide) 0
  exact absurd hover (by decide)

end SlidingWindowCounter

end HelixRouter.SlidingWindows
