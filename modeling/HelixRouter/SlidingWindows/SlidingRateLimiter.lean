import HelixRouter.Containers.Retain
import HelixRouter.Floats.F64
import HelixRouter.Metering.Limiter
import HelixRouter.Router.Numbers
import HelixRouter.Runs.Answers
import Mathlib.Data.List.AList
import Mathlib.Data.List.TakeWhile

namespace HelixRouter.SlidingWindows

open Floats

def u32Max : Nat := 4294967295

structure SlidingWindowConfig where
  windowMs : UInt64 := 1000
  maxRequests : UInt32 := 60
  burstMultiplier : F64 := .finite (3 / 2)

namespace SlidingWindowConfig

def burstLimit (config : SlidingWindowConfig) : UInt32 :=
  let burst := ((F64.finite config.maxRequests.toNat).mul config.burstMultiplier).toU64
  UInt32.ofNat (min burst.toNat u32Max)

def burstWindowMs (config : SlidingWindowConfig) : UInt64 := config.windowMs / 10

end SlidingWindowConfig

structure ClientWindow where
  timestamps : List UInt64 := []

namespace ClientWindow

def evictOld (w : ClientWindow) (nowMs windowMs : UInt64) : ClientWindow :=
  ⟨w.timestamps.dropWhile fun ts => saturatingAdd ts windowMs ≤ nowMs⟩

/-- The count over the window, and over the burst window of that width. -/
def countInWindow (w : ClientWindow) (nowMs windowMs : UInt64) : UInt32 :=
  UInt32.ofNat (min (w.timestamps.countP fun ts => nowMs < saturatingAdd ts windowMs) u32Max)

def oldestTs (w : ClientWindow) : Option UInt64 := w.timestamps.head?

end ClientWindow

inductive RateLimitResult where
  | allowed (remaining : UInt32) (resetMs : UInt64)
  | limited (retryAfterMs : UInt64) (limit : UInt32)

def RateLimitResult.isAllowed : RateLimitResult → Bool
  | .allowed .. => true
  | .limited .. => false

structure SlidingWindowLimiter where
  clients : AList (fun _ : String => ClientWindow) := ∅
  config : SlidingWindowConfig

namespace SlidingWindowLimiter

def new (config : SlidingWindowConfig) : SlidingWindowLimiter := { config := config }

/-- The window of a client, an empty one where there is none. -/
def window (l : SlidingWindowLimiter) (clientId : String) : ClientWindow :=
  (l.clients.lookup clientId).getD {}

def setWindow (l : SlidingWindowLimiter) (clientId : String) (w : ClientWindow) :
    SlidingWindowLimiter :=
  { l with clients := l.clients.insert clientId w }

/-- The burst limit while the counts are within it, and the normal one otherwise. -/
def effectiveLimit (config : SlidingWindowConfig) (window : ClientWindow) (nowMs : UInt64) :
    UInt32 :=
  let count := window.countInWindow nowMs config.windowMs
  let burstCount := window.countInWindow nowMs config.burstWindowMs
  let burstLimit := config.burstLimit
  if burstCount < burstLimit ∧ count < burstLimit then burstLimit else config.maxRequests

/-- What is answered over a window that holds nothing old. -/
def decideOn (config : SlidingWindowConfig) (window : ClientWindow) (nowMs : UInt64) :
    RateLimitResult :=
  let count := window.countInWindow nowMs config.windowMs
  let effectiveLimit := effectiveLimit config window nowMs
  if count < effectiveLimit then
    .allowed (effectiveLimit - (count + 1))
      ((window.oldestTs.map (· + config.windowMs)).getD (nowMs + config.windowMs))
  else
    .limited ((window.oldestTs.map fun oldest =>
      saturatingSub (oldest + config.windowMs) nowMs).getD config.windowMs) effectiveLimit

def check (l : SlidingWindowLimiter) (clientId : String) (nowMs : UInt64) :
    RateLimitResult × SlidingWindowLimiter :=
  let window := (l.window clientId).evictOld nowMs l.config.windowMs
  (decideOn l.config window nowMs, l.setWindow clientId window)

def record (l : SlidingWindowLimiter) (clientId : String) (nowMs : UInt64) :
    SlidingWindowLimiter :=
  let window := (l.window clientId).evictOld nowMs l.config.windowMs
  l.setWindow clientId ⟨window.timestamps ++ [nowMs]⟩

/-- A check, and the record that the caller must make if it is let through. -/
def request (clientId : String) (l : SlidingWindowLimiter) (nowMs : UInt64) :
    Bool × SlidingWindowLimiter :=
  let (result, l) := l.check clientId nowMs
  if result.isAllowed then (true, l.record clientId nowMs) else (false, l)

end SlidingWindowLimiter

open Floats Metering Limiter

namespace SlidingWindowConfig

variable {config : SlidingWindowConfig}

/-- How many of the requests that were let through are still in the window. -/
def inWindow (config : SlidingWindowConfig) (log : List UInt64) (nowMs : UInt64) : Nat :=
  log.countP fun ts => nowMs.toNat < ts.toNat + config.windowMs.toNat

/-- The window is below the burst limit. It is empty at the last time of all, when the sum
of a time and the window saturates. -/
def underBurst (config : SlidingWindowConfig) (log : List UInt64) (nowMs : UInt64) : Bool :=
  if nowMs.toNat < u64Max then config.inWindow log nowMs < config.burstLimit.toNat
  else 0 < config.burstLimit.toNat

theorem burstWindowMs_le (config : SlidingWindowConfig) :
    config.burstWindowMs.toNat ≤ config.windowMs.toNat := by
  unfold burstWindowMs
  rw [UInt64.toNat_div]
  exact Nat.div_le_self _ _

theorem burstLimit_le (config : SlidingWindowConfig) : config.burstLimit.toNat ≤ u32Max := by
  have := config.burstLimit.toNat_lt
  unfold u32Max
  omega

/-- With a multiplier of one or more the burst limit is no less than the normal one. -/
theorem maxRequests_le_burstLimit (h : (F64.finite 1).le config.burstMultiplier = true) :
    config.maxRequests.toNat ≤ config.burstLimit.toNat := by
  have hmax : config.maxRequests.toNat ≤ u32Max := by
    have := config.maxRequests.toNat_lt
    unfold u32Max
    omega
  have hmul := F64.le_toU64_mul (n := config.maxRequests.toNat) (by unfold u32Max at hmax; omega) h
  unfold burstLimit
  dsimp only
  rw [UInt32.toNat_ofNat_of_lt' (by unfold UInt32.size u32Max; omega)]
  omega

end SlidingWindowConfig

section Counts

variable {w : ClientWindow} {nowMs windowMs width t : UInt64} {config : SlidingWindowConfig}

theorem toNat_countInWindow (w : ClientWindow) (nowMs windowMs : UInt64) :
    (w.countInWindow nowMs windowMs).toNat =
      min (w.timestamps.countP fun ts => nowMs < saturatingAdd ts windowMs) u32Max := by
  unfold ClientWindow.countInWindow
  apply UInt32.toNat_ofNat_of_lt'
  unfold UInt32.size u32Max
  omega

theorem lt_saturatingAdd_iff {ts : UInt64} : nowMs < saturatingAdd ts windowMs ↔
    nowMs.toNat < u64Max ∧ nowMs.toNat < ts.toNat + windowMs.toNat := by
  rw [UInt64.lt_iff_toNat_lt, toNat_saturatingAdd]
  omega

theorem countP_dropWhile {α : Type} {p q : α → Bool} {l : List α}
    (h : ∀ a ∈ l, q a = true → p a = false) : (l.dropWhile q).countP p = l.countP p := by
  induction l with
  | nil => rfl
  | cons a l ih =>
    rw [List.dropWhile_cons]
    split
    · rename_i hq
      rw [List.countP_cons_of_neg (by simp [h a List.mem_cons_self hq])]
      exact ih fun b hb => h b (List.mem_cons_of_mem _ hb)
    · rfl

/-- What is evicted is in no window that ends later and is no wider. -/
theorem countP_evictOld (hw : width.toNat ≤ windowMs.toNat) (ht : nowMs.toNat ≤ t.toNat) :
    ((w.evictOld nowMs windowMs).timestamps.countP fun ts => t < saturatingAdd ts width) =
      w.timestamps.countP fun ts => t < saturatingAdd ts width := by
  apply countP_dropWhile
  intro ts _ hold
  have hold := UInt64.le_iff_toNat_le.mp (of_decide_eq_true hold)
  rw [toNat_saturatingAdd] at hold
  rw [decide_eq_false_iff_not, lt_saturatingAdd_iff]
  omega

/-- A check lets a request through exactly where the count is below the burst limit: the
normal limit, which is no higher, is looked at only once that one is reached. -/
theorem isAllowed_decideOn_iff (h : (F64.finite 1).le config.burstMultiplier = true) :
    (SlidingWindowLimiter.decideOn config w nowMs).isAllowed = true ↔
      (w.timestamps.countP fun ts => nowMs < saturatingAdd ts config.windowMs) <
        config.burstLimit.toNat := by
  have hcount := toNat_countInWindow w nowMs config.windowMs
  have hburst := toNat_countInWindow w nowMs config.burstWindowMs
  have hle : (w.timestamps.countP fun ts => nowMs < saturatingAdd ts config.burstWindowMs) ≤
      w.timestamps.countP fun ts => nowMs < saturatingAdd ts config.windowMs := by
    apply List.countP_mono_left
    intro ts _ hts
    have hwidth := SlidingWindowConfig.burstWindowMs_le config
    rw [decide_eq_true_eq, lt_saturatingAdd_iff] at hts ⊢
    omega
  have hmax := SlidingWindowConfig.maxRequests_le_burstLimit h
  have hlimit := SlidingWindowConfig.burstLimit_le config
  have hallowed : (SlidingWindowLimiter.decideOn config w nowMs).isAllowed = true ↔
      w.countInWindow nowMs config.windowMs <
        SlidingWindowLimiter.effectiveLimit config w nowMs := by
    unfold SlidingWindowLimiter.decideOn
    dsimp only
    split
    · rename_i hlt
      exact iff_of_true rfl hlt
    · rename_i hge
      exact iff_of_false nofun hge
  rw [hallowed, UInt32.lt_iff_toNat_lt]
  unfold SlidingWindowLimiter.effectiveLimit
  dsimp only
  split
  · omega
  · rename_i hfull
    rw [UInt32.lt_iff_toNat_lt, UInt32.lt_iff_toNat_lt] at hfull
    omega

end Counts

namespace SlidingWindowLimiter

variable {l : SlidingWindowLimiter} {config : SlidingWindowConfig} {clientId : String}
  {nowMs t : UInt64} {log ts passed : List UInt64} {n : Nat}

section Agree

@[simp] theorem window_setWindow {w : ClientWindow} :
    (l.setWindow clientId w).window clientId = w := by
  simp [window, setWindow]

@[simp] theorem config_setWindow {w : ClientWindow} : (l.setWindow clientId w).config = l.config :=
  rfl

/-- The window of the client holds what was let through and is still in it. -/
def Agree (config : SlidingWindowConfig) (clientId : String) (n : Nat) (l : SlidingWindowLimiter)
    (log : List UInt64) : Prop :=
  l.config = config ∧ ∀ t : UInt64, n ≤ t.toNat →
    ((l.window clientId).timestamps.countP fun ts => t < saturatingAdd ts config.windowMs) =
      log.countP fun ts => t < saturatingAdd ts config.windowMs

/-- The count that saturates is that of the log, and none at the last time of all. -/
theorem underBurst_iff : config.underBurst log nowMs = true ↔
    (log.countP fun ts => nowMs < saturatingAdd ts config.windowMs) < config.burstLimit.toNat := by
  unfold SlidingWindowConfig.underBurst SlidingWindowConfig.inWindow
  simp only [lt_saturatingAdd_iff]
  split
  · rename_i hlt
    simp [hlt]
  · rename_i hlast
    simp [hlast]

theorem agree_step (h : Agree config clientId n l log) (hn : n ≤ nowMs.toNat)
    (hm : (F64.finite 1).le config.burstMultiplier = true) :
    (l.request clientId nowMs).1 = (byLog config.underBurst log nowMs).1 ∧
      Agree config clientId nowMs.toNat (l.request clientId nowMs).2
        (byLog config.underBurst log nowMs).2 := by
  obtain ⟨rfl, hcount⟩ := h
  have hevict : Agree l.config clientId nowMs.toNat
      (l.setWindow clientId ((l.window clientId).evictOld nowMs l.config.windowMs)) log := by
    refine ⟨rfl, fun t ht => ?_⟩
    rw [window_setWindow, countP_evictOld (Nat.le_refl _) ht, hcount t (by omega)]
  have hcheck : (decideOn l.config ((l.window clientId).evictOld nowMs l.config.windowMs)
      nowMs).isAllowed = true ↔ l.config.underBurst log nowMs = true := by
    rw [isAllowed_decideOn_iff hm, underBurst_iff, countP_evictOld (Nat.le_refl _) (Nat.le_refl _),
      hcount nowMs hn]
  unfold request check byLog
  dsimp only
  by_cases hq : l.config.underBurst log nowMs = true
  · rw [if_pos (hcheck.mpr hq), if_pos hq]
    refine ⟨rfl, rfl, fun t ht => ?_⟩
    unfold record
    rw [window_setWindow, List.countP_append, List.countP_append, config_setWindow,
      countP_evictOld (Nat.le_refl _) ht, hevict.2 t ht]
  · rw [if_neg (hcheck.not.mpr hq), if_neg hq]
    exact ⟨rfl, hevict⟩

/-- The limiter lets through what the burst limit alone does. -/
theorem admitted_eq (hm : (F64.finite 1).le config.burstMultiplier = true)
    (ordered : ts.Pairwise fun s t => s.toNat ≤ t.toNat) :
    admitted (request clientId) (new config) ts = admitted (byLog config.underBurst) [] ts := by
  have hnew : Agree config clientId 0 (new config) [] := by
    refine ⟨rfl, fun _ _ => ?_⟩
    simp [new, window]
  have hstep : ∀ {n : Nat} {l : SlidingWindowLimiter} {log : List UInt64} {t : UInt64},
      Agree config clientId n l log → n ≤ t.toNat → True →
      (l.request clientId t).1 = (byLog config.underBurst log t).1 ∧
        Agree config clientId t.toNat (l.request clientId t).2
          (byLog config.underBurst log t).2 :=
    fun h hn _ => agree_step h hn hm
  exact (eq_of_agree (fun _ => True) (Agree config clientId) hstep (fun _ _ => trivial) ordered
    (fun _ _ => Nat.zero_le _) hnew).2

end Agree

section Limits

/-- No more requests than the burst limit fall into a window. -/
def Bounded (config : SlidingWindowConfig) (passed : List UInt64) : Prop :=
  ∀ start : Nat, passed.countP (fun t => start ≤ t.toNat && t.toNat < start + config.windowMs.toNat) ≤
    config.burstLimit.toNat

/-- A request that is beyond the normal limit in the window that ends at it comes within the
burst window of the oldest request of that window. -/
def BurstsOnly (config : SlidingWindowConfig) (passed : List UInt64) : Prop :=
  ∀ before t later, passed = before ++ t :: later →
    config.maxRequests.toNat ≤ config.inWindow before t →
    ∀ s ∈ before, t.toNat < s.toNat + config.windowMs.toNat →
      t.toNat ≤ s.toNat + config.burstWindowMs.toNat

/-- A check at which the window holds as many requests as the normal limit, but fewer than the
burst limit, comes within the burst window of the oldest of them; and at the last time of all
the window does not hold as many as the burst limit. -/
def Moderate (config : SlidingWindowConfig) (passed : List UInt64) (t : UInt64) : Prop :=
  (config.maxRequests.toNat ≤ config.inWindow passed t →
    config.inWindow passed t < config.burstLimit.toNat →
    ∀ s ∈ passed, t.toNat < s.toNat + config.windowMs.toNat →
      t.toNat ≤ s.toNat + config.burstWindowMs.toNat) ∧
  (t.toNat = u64Max → 0 < config.burstLimit.toNat →
    config.inWindow passed t < config.burstLimit.toNat)

theorem bounded_concat_iff (hpos : 0 < config.burstLimit.toNat)
    (hlast : ∀ s ∈ passed, s.toNat ≤ t.toNat) :
    Bounded config (passed ++ [t]) ↔
      Bounded config passed ∧ config.inWindow passed t < config.burstLimit.toNat := by
  unfold Bounded SlidingWindowConfig.inWindow
  simp only [List.countP_append, List.countP_singleton]
  constructor
  · intro h
    refine ⟨fun start => Nat.le_trans (Nat.le_add_right _ _) (h start), ?_⟩
    have hstart := h (t.toNat + 1 - config.windowMs.toNat)
    by_cases hwide : 0 < config.windowMs.toNat
    · rw [if_pos (by rw [Bool.and_eq_true, decide_eq_true_eq, decide_eq_true_eq]; omega)] at hstart
      refine Nat.lt_of_lt_of_le (Nat.lt_succ_of_le ?_) hstart
      refine List.countP_mono_left fun s hs hin => ?_
      have hst := hlast s hs
      simp only [Bool.and_eq_true, decide_eq_true_eq] at hin ⊢
      omega
    · have hnone : passed.countP (fun s => t.toNat < s.toNat + config.windowMs.toNat) = 0 := by
        rw [List.countP_eq_zero]
        intro s hs
        have hst := hlast s hs
        rw [decide_eq_true_eq]
        omega
      omega
  · intro h start
    split
    · rename_i hin
      have hle : passed.countP
            (fun s => start ≤ s.toNat && s.toNat < start + config.windowMs.toNat) ≤
          passed.countP fun s => t.toNat < s.toNat + config.windowMs.toNat := by
        apply List.countP_mono_left
        intro s _ hs
        simp only [Bool.and_eq_true, decide_eq_true_eq] at hs hin ⊢
        omega
      omega
    · exact h.1 start

theorem burstsOnly_concat_iff : BurstsOnly config (passed ++ [t]) ↔
    BurstsOnly config passed ∧ (config.maxRequests.toNat ≤ config.inWindow passed t →
      ∀ s ∈ passed, t.toNat < s.toNat + config.windowMs.toNat →
        t.toNat ≤ s.toNat + config.burstWindowMs.toNat) :=
  forall_split_concat_iff (P := fun before t => config.maxRequests.toNat ≤ config.inWindow before t →
    ∀ s ∈ before, t.toNat < s.toNat + config.windowMs.toNat →
      t.toNat ≤ s.toNat + config.burstWindowMs.toNat)

theorem burstLimit_pos (hq : config.underBurst passed t = true) :
    0 < config.burstLimit.toNat := by
  unfold SlidingWindowConfig.underBurst at hq
  split at hq
  · exact Nat.zero_lt_of_lt (of_decide_eq_true hq)
  · exact of_decide_eq_true hq

/-- What is turned away is moderate. -/
theorem moderate_of_refused (hq : config.underBurst passed t = false) :
    Moderate config passed t := by
  unfold SlidingWindowConfig.underBurst at hq
  split at hq
  · have hover := of_decide_eq_false hq
    exact ⟨fun _ hlt => absurd hlt hover, fun hend => by omega⟩
  · have hzero := of_decide_eq_false hq
    exact ⟨fun _ hlt => by omega, fun _ hpos => absurd hpos hzero⟩

/-- What is let through keeps the limits where it is moderate. -/
theorem moderate_iff_of_admitted (hq : config.underBurst passed t = true) :
    Moderate config passed t ↔ config.inWindow passed t < config.burstLimit.toNat ∧
      (config.maxRequests.toNat ≤ config.inWindow passed t →
        ∀ s ∈ passed, t.toNat < s.toNat + config.windowMs.toNat →
          t.toNat ≤ s.toNat + config.burstWindowMs.toNat) := by
  have hunder : t.toNat ≠ u64Max → config.inWindow passed t < config.burstLimit.toNat := by
    intro hend
    unfold SlidingWindowConfig.underBurst at hq
    rw [if_pos (by have := toNat_le_u64Max t; omega)] at hq
    exact of_decide_eq_true hq
  have hpos := burstLimit_pos hq
  constructor
  · intro h
    obtain ⟨hburst, hend⟩ := h
    have hlt : config.inWindow passed t < config.burstLimit.toNat := by
      by_cases he : t.toNat = u64Max
      · exact hend he hpos
      · exact hunder he
    exact ⟨hlt, fun hfull => hburst hfull hlt⟩
  · intro h
    exact ⟨fun hfull _ => h.2 hfull, fun _ _ => h.1⟩

theorem limits_iff_moderate (ordered : ts.Pairwise fun s t => s.toNat ≤ t.toNat) :
    Bounded config (admitted (byLog config.underBurst) [] ts) ∧
        BurstsOnly config (admitted (byLog config.underBurst) [] ts) ↔
      ∀ before t later, ts = before ++ t :: later →
        Moderate config (admitted (byLog config.underBurst) [] before) t := by
  induction ts using List.reverseRecOn with
  | nil =>
    refine iff_of_true ⟨fun _ => Nat.zero_le _, fun before t later he => ?_⟩
      fun before t later he => ?_
    · simp [admitted] at he
    · simp at he
  | append_singleton ts c ih =>
    obtain ⟨hts, -, hlast⟩ := List.pairwise_append.mp ordered
    have hold : ∀ s ∈ admitted (byLog config.underBurst) [] ts, s.toNat ≤ c.toNat :=
      fun s hs => hlast s (admitted_sublist.subset hs) c (List.mem_singleton_self c)
    rw [forall_split_concat_iff
      (P := fun before t => Moderate config (admitted (byLog config.underBurst) [] before) t),
      ← ih hts, admitted_byLog_concat]
    cases hq : config.underBurst (admitted (byLog config.underBurst) [] ts) c with
    | false => simp [moderate_of_refused hq]
    | true =>
      rw [if_pos rfl, bounded_concat_iff (burstLimit_pos hq) hold, burstsOnly_concat_iff,
        moderate_iff_of_admitted hq]
      tauto

end Limits

/-- The documented limits are kept exactly where each check is moderate. -/
theorem limits_kept_iff (config : SlidingWindowConfig) (clientId : String) (ts : List UInt64)
    (hm : (F64.finite 1).le config.burstMultiplier = true)
    (ordered : ts.Pairwise fun s t => s ≤ t) :
    Bounded config (admitted (request clientId) (new config) ts) ∧
        BurstsOnly config (admitted (request clientId) (new config) ts) ↔
      ∀ before t later, ts = before ++ t :: later →
        Moderate config (admitted (request clientId) (new config) before) t := by
  have ordered : ts.Pairwise fun s t => s.toNat ≤ t.toNat := ordered.imp UInt64.le_iff_toNat_le.mp
  rw [admitted_eq hm ordered, limits_iff_moderate ordered]
  refine forall_congr' fun before => forall_congr' fun t => forall_congr' fun later => ?_
  refine forall_congr' fun hsplit => ?_
  rw [admitted_eq hm (ordered.sublist (hsplit ▸ List.sublist_append_left before (t :: later)))]

def twice : SlidingWindowConfig := { maxRequests := 1, burstMultiplier := .finite 2 }

theorem limits_kept_iff_twice :
    Bounded twice (admitted (request "a") (new twice) [0, 50]) ∧
        BurstsOnly twice (admitted (request "a") (new twice) [0, 50]) ↔
      ∀ before t later, [0, 50] = before ++ t :: later →
        Moderate twice (admitted (request "a") (new twice) before) t :=
  limits_kept_iff twice "a" [0, 50] (by decide +kernel) (by decide)

/-- A second request is let through long after the burst interval. -/
theorem normal_limit_not_applied : ¬ ∀ (config : SlidingWindowConfig) (clientId : String)
    (ts : List UInt64), (F64.finite 1).le config.burstMultiplier = true →
    (ts.Pairwise fun s t => s ≤ t) →
    Bounded config (admitted (request clientId) (new config) ts) ∧
      BurstsOnly config (admitted (request clientId) (new config) ts) := by
  intro h
  have hpassed : admitted (request "a") (new twice) [0, 500] = [0, 500] := by decide +kernel
  have hbursts := (h twice "a" [0, 500] (by decide +kernel) (by decide)).2
  rw [hpassed] at hbursts
  exact absurd (hbursts [0] 500 [] rfl (by decide) 0 (List.mem_singleton_self 0)) (by decide)

end SlidingWindowLimiter

section Cleanup

open Runs

structure ClientStats where
  requestsInWindow : UInt32
  windowStartMs : UInt64
  remaining : UInt32

inductive LimiterCall where
  | check (clientId : String)
  | record (clientId : String)
  | stats (clientId : String)

inductive LimiterAnswer where
  | result (result : RateLimitResult)
  | recorded
  | stats (stats : ClientStats)

def ClientWindow.statsOf (w : ClientWindow) (config : SlidingWindowConfig) (nowMs : UInt64) :
    ClientStats :=
  let count := w.countInWindow nowMs config.windowMs
  { requestsInWindow := count
    windowStartMs := w.oldestTs.getD nowMs
    remaining := if count ≤ config.maxRequests then config.maxRequests - count else 0 }

namespace SlidingWindowLimiter

def stats (l : SlidingWindowLimiter) (clientId : String) (nowMs : UInt64) :
    ClientStats × SlidingWindowLimiter :=
  match l.clients.lookup clientId with
  | some window =>
    let window := window.evictOld nowMs l.config.windowMs
    (window.statsOf l.config nowMs, l.setWindow clientId window)
  | none =>
    ({ requestsInWindow := 0, windowStartMs := nowMs, remaining := l.config.maxRequests }, l)

/-- The newest time is read before the old ones are evicted. -/
def cleanupStale (l : SlidingWindowLimiter) (nowMs : UInt64) : SlidingWindowLimiter :=
  let staleCutoff := saturatingSub nowMs (2 * l.config.windowMs)
  let fresh := l.clients.retain fun _ window =>
    window.timestamps.getLast?.any fun latest => decide (staleCutoff ≤ latest)
  { l with clients := fresh.mapValues fun _ window => window.evictOld nowMs l.config.windowMs }

def act (l : SlidingWindowLimiter) : UInt64 × LimiterCall → LimiterAnswer × SlidingWindowLimiter
  | (nowMs, .check clientId) => (.result (l.check clientId nowMs).1, (l.check clientId nowMs).2)
  | (nowMs, .record clientId) => (.recorded, l.record clientId nowMs)
  | (nowMs, .stats clientId) => (.stats (l.stats clientId nowMs).1, (l.stats clientId nowMs).2)

/-- Two limiters whose windows are the same without what is old. In the first one, which is
cleaned up, the times of a client are in order. -/
structure Alike (now : Nat) (s t : SlidingWindowLimiter) : Prop where
  config : s.config = t.config
  window : ∀ clientId, ∀ nowMs : UInt64, now ≤ nowMs.toNat →
    (s.window clientId).evictOld nowMs s.config.windowMs =
      (t.window clientId).evictOld nowMs s.config.windowMs
  ordered : ∀ clientId, (s.window clientId).timestamps.Pairwise fun a b => a.toNat ≤ b.toNat
  past : ∀ clientId, ∀ ts ∈ (s.window clientId).timestamps, ts.toNat ≤ now

section

variable {s t l : SlidingWindowLimiter} {now : Nat} {nowMs laterMs windowMs : UInt64}
  {w v : ClientWindow} {clientId other : String}

theorem dropWhile_dropWhile {α : Type} {p q : α → Bool} {l : List α}
    (h : ∀ a, p a = true → q a = true) : (l.dropWhile p).dropWhile q = l.dropWhile q := by
  induction l with
  | nil => rfl
  | cons a l ih =>
    by_cases hp : p a = true
    · rw [List.dropWhile_cons_of_pos hp, ih, List.dropWhile_cons_of_pos (h a hp)]
    · rw [List.dropWhile_cons_of_neg hp]

/-- What an earlier eviction takes away a later one takes away. -/
theorem evictOld_evictOld (hle : nowMs.toNat ≤ laterMs.toNat) :
    (w.evictOld nowMs windowMs).evictOld laterMs windowMs = w.evictOld laterMs windowMs := by
  refine congrArg ClientWindow.mk (dropWhile_dropWhile fun ts hts => ?_)
  have hold := UInt64.le_iff_toNat_le.mp (of_decide_eq_true hts)
  exact decide_eq_true (UInt64.le_iff_toNat_le.mpr (hold.trans hle))

theorem window_setWindow_eq : (l.setWindow clientId w).window other =
    if other = clientId then w else l.window other := by
  by_cases hother : other = clientId
  · rw [if_pos hother, hother, window_setWindow]
  · simp only [if_neg hother, window, setWindow, AList.lookup_insert_ne hother]

theorem evictOld_sublist : (w.evictOld nowMs windowMs).timestamps.Sublist w.timestamps :=
  List.dropWhile_sublist _

/-- A client's windows are replaced by two that are the same. -/
theorem Alike.setWindow (h : Alike now s t) (clientId : String)
    (hw : ∀ nowMs : UInt64, now ≤ nowMs.toNat →
      w.evictOld nowMs s.config.windowMs = v.evictOld nowMs s.config.windowMs)
    (hordered : w.timestamps.Pairwise fun a b => a.toNat ≤ b.toNat)
    (hpast : ∀ ts ∈ w.timestamps, ts.toNat ≤ now) :
    Alike now (s.setWindow clientId w) (t.setWindow clientId v) := by
  refine ⟨h.config, fun other nowMs hle => ?_, fun other => ?_, fun other => ?_⟩
  · rw [window_setWindow_eq, window_setWindow_eq, config_setWindow]
    split
    · exact hw nowMs hle
    · exact h.window other nowMs hle
  · rw [window_setWindow_eq]
    split
    · exact hordered
    · exact h.ordered other
  · rw [window_setWindow_eq]
    split
    · exact hpast
    · exact h.past other

/-- The windows of a client at some time, without what is old. -/
theorem Alike.evicted (h : Alike nowMs.toNat s t) (clientId : String) :
    (s.window clientId).evictOld nowMs s.config.windowMs =
      (t.window clientId).evictOld nowMs t.config.windowMs := by
  rw [← h.config]
  exact h.window clientId nowMs le_rfl

theorem Alike.touch (h : Alike nowMs.toNat s t) (clientId : String) :
    Alike nowMs.toNat
      (s.setWindow clientId ((s.window clientId).evictOld nowMs s.config.windowMs))
      (t.setWindow clientId ((t.window clientId).evictOld nowMs t.config.windowMs)) :=
  h.setWindow clientId (fun _ _ => by rw [h.evicted])
    ((h.ordered clientId).sublist evictOld_sublist)
    fun ts hts => h.past clientId ts (evictOld_sublist.mem hts)

theorem Alike.record (h : Alike nowMs.toNat s t) (clientId : String) :
    Alike nowMs.toNat (s.record clientId nowMs) (t.record clientId nowMs) := by
  have hold : ∀ ts ∈ ((s.window clientId).evictOld nowMs s.config.windowMs).timestamps,
      ts.toNat ≤ nowMs.toNat := fun ts hts => h.past clientId ts (evictOld_sublist.mem hts)
  refine h.setWindow clientId (fun _ _ => by rw [h.evicted]) ?_ ?_
  · refine List.pairwise_append.mpr
      ⟨(h.ordered clientId).sublist evictOld_sublist, List.pairwise_singleton .., ?_⟩
    intro a ha b hb
    cases List.mem_singleton.mp hb
    exact hold a ha
  · intro ts hts
    rcases List.mem_append.mp hts with hts | hts
    · exact hold ts hts
    · cases List.mem_singleton.mp hts
      exact le_rfl

/-- A client that is not known has the statistics of an empty window. -/
theorem stats_fst : (l.stats clientId nowMs).1 =
    ((l.window clientId).evictOld nowMs l.config.windowMs).statsOf l.config nowMs := by
  unfold stats window
  cases l.clients.lookup clientId with
  | none =>
    change _ = (ClientWindow.mk []).statsOf l.config nowMs
    have hzero : (0 : UInt32) ≤ l.config.maxRequests :=
      UInt32.le_iff_toNat_le.mpr (Nat.zero_le _)
    have hcount : (ClientWindow.mk []).countInWindow nowMs l.config.windowMs = 0 := rfl
    simp only [ClientWindow.statsOf, hcount, if_pos hzero, UInt32.sub_zero]
    rfl
  | some w => rfl

theorem Alike.of_windows {s' t' : SlidingWindowLimiter} (h : Alike now s t)
    (hs : ∀ c, s'.window c = s.window c) (hsconfig : s'.config = s.config)
    (ht : ∀ c, t'.window c = t.window c) (htconfig : t'.config = t.config) : Alike now s' t' where
  config := by rw [hsconfig, htconfig, h.config]
  window := fun c nowMs hle => by rw [hs, ht, hsconfig, h.window c nowMs hle]
  ordered := fun c => by
    rw [hs]
    exact h.ordered c
  past := fun c => by
    rw [hs]
    exact h.past c

theorem window_stats (l : SlidingWindowLimiter) (clientId : String) (nowMs : UInt64)
    (other : String) : (l.stats clientId nowMs).2.window other = (l.setWindow clientId
      ((l.window clientId).evictOld nowMs l.config.windowMs)).window other := by
  unfold stats
  cases hl : l.clients.lookup clientId with
  | none =>
    have hempty : l.window clientId = {} := by rw [window, hl]; rfl
    rw [window_setWindow_eq]
    by_cases hother : other = clientId
    · rw [if_pos hother, hempty, hother]
      exact hempty
    · rw [if_neg hother]
  | some w =>
    have hw : l.window clientId = w := by rw [window, hl]; rfl
    rw [hw]

theorem config_stats (l : SlidingWindowLimiter) (clientId : String) (nowMs : UInt64) :
    (l.stats clientId nowMs).2.config = l.config := by
  unfold stats
  split <;> rfl

theorem config_act (l : SlidingWindowLimiter) (call : UInt64 × LimiterCall) :
    (l.act call).2.config = l.config := by
  obtain ⟨nowMs, call⟩ := call
  cases call with
  | check clientId => rfl
  | record clientId => rfl
  | stats clientId => exact l.config_stats clientId nowMs

theorem Alike.act (h : Alike nowMs.toNat s t) (call : LimiterCall) :
    (s.act (nowMs, call)).1 = (t.act (nowMs, call)).1 ∧
      Alike nowMs.toNat (s.act (nowMs, call)).2 (t.act (nowMs, call)).2 := by
  cases call with
  | check clientId =>
    refine ⟨congrArg LimiterAnswer.result ?_, h.touch clientId⟩
    change decideOn s.config _ nowMs = decideOn t.config _ nowMs
    rw [h.evicted, h.config]
  | record clientId => exact ⟨rfl, h.record clientId⟩
  | stats clientId =>
    refine ⟨congrArg LimiterAnswer.stats ?_, ?_⟩
    · rw [stats_fst, stats_fst, h.evicted, h.config]
    · exact (h.touch clientId).of_windows (s.window_stats clientId nowMs)
        (s.config_stats clientId nowMs) (t.window_stats clientId nowMs)
        (t.config_stats clientId nowMs)

/-- A cleanup evicts what is old, or drops the window, where nothing is later than the cutoff. -/
theorem window_cleanupStale (l : SlidingWindowLimiter) (nowMs : UInt64) (clientId : String) :
    (l.cleanupStale nowMs).window clientId =
        (l.window clientId).evictOld nowMs l.config.windowMs ∨
      (l.cleanupStale nowMs).window clientId = {} ∧
        ∀ latest ∈ (l.window clientId).timestamps.getLast?,
          latest < saturatingSub nowMs (2 * l.config.windowMs) := by
  unfold cleanupStale window
  simp only [AList.lookup_mapValues]
  cases hl : l.clients.lookup clientId with
  | none =>
    refine .inl ?_
    have hgone : (l.clients.retain fun _ window => window.timestamps.getLast?.any fun latest =>
        decide (saturatingSub nowMs (2 * l.config.windowMs) ≤ latest)).lookup clientId = none := by
      rw [Option.eq_none_iff_forall_ne_some]
      intro w hw
      rw [AList.lookup_retain_eq_some, hl] at hw
      cases hw.1
    rw [hgone]
    rfl
  | some w =>
    by_cases hkeep : (w.timestamps.getLast?.any fun latest =>
        decide (saturatingSub nowMs (2 * l.config.windowMs) ≤ latest)) = true
    · refine .inl ?_
      rw [AList.lookup_retain_eq_some.mpr ⟨hl, hkeep⟩]
      rfl
    · refine .inr ⟨?_, fun latest hlatest => ?_⟩
      · have hgone : (l.clients.retain fun _ window => window.timestamps.getLast?.any fun latest =>
            decide (saturatingSub nowMs (2 * l.config.windowMs) ≤ latest)).lookup clientId =
              none := by
          rw [Option.eq_none_iff_forall_ne_some]
          intro v hv
          rw [AList.lookup_retain_eq_some, hl] at hv
          cases hv.1
          exact hkeep hv.2
        rw [hgone]
        rfl
      · rw [Option.getD_some, Option.mem_def] at hlatest
        rw [hlatest, Option.any_some, decide_eq_true_iff, UInt64.not_le] at hkeep
        exact hkeep

theorem Alike.cleanupStale (h : Alike nowMs.toNat s t)
    (hfit : 2 * s.config.windowMs.toNat < 2 ^ 64) :
    Alike nowMs.toNat (s.cleanupStale nowMs) t := by
  have hcase := s.window_cleanupStale nowMs
  refine ⟨h.config, fun c laterMs hle => ?_, fun c => ?_, fun c => ?_⟩
  · change ((s.cleanupStale nowMs).window c).evictOld laterMs s.config.windowMs =
      (t.window c).evictOld laterMs s.config.windowMs
    rcases hcase c with heq | ⟨heq, hold⟩
    · rw [heq, evictOld_evictOld hle, h.window c laterMs hle]
    · rw [heq, ← h.window c laterMs hle]
      refine congrArg ClientWindow.mk (List.dropWhile_eq_nil_iff.mpr fun ts hts => ?_).symm
      obtain ⟨before, latest, htimes⟩ :=
        (List.eq_nil_or_concat' _).resolve_left (List.ne_nil_of_mem hts)
      have hordered := h.ordered c
      rw [htimes] at hts hordered hold
      have hcutoff := UInt64.lt_iff_toNat_lt.mp (hold latest List.getLast?_concat)
      rw [toNat_saturatingSub, UInt64.toNat_mul] at hcutoff
      have htwice : (2 : UInt64).toNat * s.config.windowMs.toNat % 2 ^ 64 =
          2 * s.config.windowMs.toNat := Nat.mod_eq_of_lt hfit
      rw [htwice] at hcutoff
      have hle' : ts.toNat ≤ latest.toNat := by
        rcases List.mem_append.mp hts with hbefore | hlast
        · exact (List.pairwise_append.mp hordered).2.2 ts hbefore latest List.mem_cons_self
        · cases List.mem_singleton.mp hlast
          exact le_rfl
      refine decide_eq_true (UInt64.le_iff_toNat_le.mpr ?_)
      rw [toNat_saturatingAdd]
      omega
  · rcases hcase c with heq | ⟨heq, -⟩
    · rw [heq]
      exact (h.ordered c).sublist evictOld_sublist
    · rw [heq]
      exact List.Pairwise.nil
  · rcases hcase c with heq | ⟨heq, -⟩
    · rw [heq]
      exact fun ts hts => h.past c ts (evictOld_sublist.mem hts)
    · rw [heq]
      exact fun ts hts => absurd hts List.not_mem_nil

end

end SlidingWindowLimiter

open SlidingWindowLimiter

/-- When a call or a cleanup is made. -/
def timeOf : (UInt64 × LimiterCall) ⊕ UInt64 → Nat
  | .inl call => call.1.toNat
  | .inr nowMs => nowMs.toNat

/-- The limiters that have the configuration and are alike. -/
def AlikeFor (config : SlidingWindowConfig) (now : Nat) (s t : SlidingWindowLimiter) : Prop :=
  s.config = config ∧ Alike now s t

/-- Cleanups make no difference to what the limiter answers, wherever they come between the
calls. -/
theorem cleanups_unseen (config : SlidingWindowConfig)
    (hfit : 2 * config.windowMs.toNat < 2 ^ 64)
    (events : List ((UInt64 × LimiterCall) ⊕ UInt64))
    (hordered : events.Pairwise fun a b => timeOf a ≤ timeOf b) :
    answersAmid act cleanupStale (new config) events = answers act (new config) (calls events) := by
  have hunseen : Unseen act cleanupStale timeOf (AlikeFor config) := by
    refine ⟨fun hle h => ⟨h.1, ?_⟩, fun call h => ?_, fun nowMs h => ⟨h.1, ?_⟩⟩
    · exact ⟨h.2.config, fun c nowMs hnow => h.2.window c nowMs (hle.trans hnow), h.2.ordered,
        fun c ts hts => (h.2.past c ts hts).trans hle⟩
    · obtain ⟨nowMs, call⟩ := call
      obtain ⟨hanswer, halike⟩ := h.2.act call
      exact ⟨hanswer, (config_act _ _).trans h.1, halike⟩
    · exact h.2.cleanupStale (by rw [h.1]; exact hfit)
  have hstart : AlikeFor config 0 (new config) (new config) :=
    ⟨rfl, rfl, fun _ _ _ => rfl, fun _ => List.Pairwise.nil,
      fun _ _ hts => absurd hts List.not_mem_nil⟩
  exact hunseen.answersAmid_eq hordered (fun _ _ => Nat.zero_le _) hstart

def cleanedUp : List ((UInt64 × LimiterCall) ⊕ UInt64) :=
  [.inl (100, .record "a"), .inr 1500, .inl (1600, .check "a"), .inl (1600, .record "a"),
    .inr 5000, .inl (5000, .stats "a")]

theorem cleanups_unseen_twice :
    answersAmid act cleanupStale (new {}) cleanedUp = answers act (new {}) (calls cleanedUp) :=
  cleanups_unseen {} (by decide) cleanedUp (by decide)

end Cleanup

end HelixRouter.SlidingWindows
