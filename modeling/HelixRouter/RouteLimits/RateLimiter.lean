import HelixRouter.Metering.FixedWindow
import HelixRouter.Router.Numbers
import HelixRouter.Runs.Stepwise
import HelixRouter.Texts.Bytes
import Mathlib.Data.List.AList
import Mathlib.Data.List.MinMax

namespace HelixRouter.RouteLimits

open Metering Runs Texts

structure RateLimitRule where
  routePrefix : Text
  requestsPerWindow : UInt32
  windowSecs : UInt64
  burstAllowance : UInt32
deriving DecidableEq

def RateLimitRule.window (rule : RateLimitRule) : Nat := rule.windowSecs.toNat * nanosPerSec

structure ClientWindow where
  timestamps : List Instant := []
  burstUsed : UInt32 := 0

/-- The start of the window that ends now, or now where there is no such reading. -/
def cutoff (now : Instant) (window : Nat) : Instant := if window ≤ now then now - window else now

/-- The burst is given back only when the window slides fully empty. -/
def ClientWindow.recordAndCheck (rule : RateLimitRule) (w : ClientWindow) (now : Instant) :
    Bool × ClientWindow :=
  let timestamps := w.timestamps.dropWhile fun t => t < cutoff now rule.window
  let burstUsed := if timestamps.isEmpty then 0 else w.burstUsed
  let count := UInt32.ofNat timestamps.length
  if count < rule.requestsPerWindow then (true, ⟨timestamps ++ [now], burstUsed⟩)
  else if burstUsed < rule.burstAllowance then
    (true, ⟨timestamps ++ [now], burstUsed + 1⟩)
  else (false, ⟨timestamps, burstUsed⟩)

inductive RateLimitDecision where
  | allow (remaining : UInt32)
  | deny (retryAfterSecs : UInt64)
deriving DecidableEq

def RateLimitDecision.isAllow : RateLimitDecision → Bool
  | allow _ => true
  | deny _ => false

structure RateLimiter where
  rules : List RateLimitRule
  windows : AList (fun _ : Text => ClientWindow) := ∅
  totalLimited : UInt64 := 0
  totalAllowed : UInt64 := 0

/-- The rule with the longest of the beginnings of a route, the last of several. -/
def matchingRule (rules : List RateLimitRule) (route : Text) : Option RateLimitRule :=
  (rules.filter fun r => r.routePrefix.isPrefixOf route).reverse.argmax
    fun r => byteLen r.routePrefix

def windowKey (routePrefix clientId : Text) : Text := routePrefix ++ ':' :: clientId

namespace RateLimiter

def windowOf (l : RateLimiter) (key : Text) : ClientWindow := (l.windows.lookup key).getD {}

/-- The total of the limits is a word, as a release build has it. -/
def checkRequest (l : RateLimiter) (route clientId : Text) (now : Instant) :
    RateLimitDecision × RateLimiter :=
  match matchingRule l.rules route with
  | none => (.allow 4294967295, { l with totalAllowed := l.totalAllowed + 1 })
  | some rule =>
    let key := windowKey rule.routePrefix clientId
    let (allowed, window) := (l.windowOf key).recordAndCheck rule now
    let l := { l with windows := l.windows.insert key window }
    if allowed then
      let used := UInt32.ofNat window.timestamps.length
      let totalCap := rule.requestsPerWindow + rule.burstAllowance
      (.allow (if used ≤ totalCap then totalCap - used else 0),
        { l with totalAllowed := l.totalAllowed + 1 })
    else (.deny rule.windowSecs, { l with totalLimited := l.totalLimited + 1 })

end RateLimiter

open Metering Limiter Runs Texts

/-- Requests of one rule and client, with their times and whether they were allowed. -/
abbrev Log := List (Instant × Bool)

def allowedTimes (log : Log) : List Instant := (log.filter (·.2)).map (·.1)

/-- How many allowed requests are in the window that ends now. -/
def RateLimitRule.inWindow (rule : RateLimitRule) (log : Log) (now : Instant) : Nat :=
  (allowedTimes log).countP fun t => now ≤ t + rule.window

/-- The requests that were allowed though the window was full, after others. -/
def RateLimitRule.burstTimes (rule : RateLimitRule) : Log → Log → List Instant
  | _, [] => []
  | before, e :: log =>
    if e.2 ∧ rule.requestsPerWindow.toNat ≤ rule.inWindow before e.1 then
      e.1 :: burstTimes rule (before ++ [e]) log
    else burstTimes rule (before ++ [e]) log

/-- From the last request on that found the window empty, so many were allowed as burst. -/
def RateLimitRule.BurstsSinceEmpty (rule : RateLimitRule) (log : Log) (n : Nat) : Prop :=
  ∃ old first recent, log = old ++ first :: recent ∧ rule.inWindow old first.1 = 0 ∧
    (∀ before e later, recent = before ++ e :: later →
      rule.inWindow (old ++ first :: before) e.1 ≠ 0) ∧
    (rule.burstTimes old (first :: recent)).length = n

/-- No window has too many allowed requests in it, and a request is denied when its window is
full and the burst has been used since the window was empty. -/
structure WindowLaw (rule : RateLimitRule) (log : Log) : Prop where
  bounded : Bounded (rule.window + 1)
    (rule.requestsPerWindow.toNat + rule.burstAllowance.toNat) (allowedTimes log)
  denied : ∀ before now later, log = before ++ (now, false) :: later →
    rule.requestsPerWindow.toNat ≤ rule.inWindow before now ∧
      ∃ n, rule.BurstsSinceEmpty (before ++ [(now, false)]) n ∧ rule.burstAllowance.toNat ≤ n

/-- The same law with the burst used within the window of the denied request. -/
structure BurstInWindowLaw (rule : RateLimitRule) (log : Log) : Prop where
  bounded : Bounded (rule.window + 1)
    (rule.requestsPerWindow.toNat + rule.burstAllowance.toNat) (allowedTimes log)
  denied : ∀ before now later, log = before ++ (now, false) :: later →
    rule.requestsPerWindow.toNat ≤ rule.inWindow before now ∧
      rule.burstAllowance.toNat ≤
        (rule.burstTimes [] before).countP fun t => now ≤ t + rule.window

def windowLimiter (rule : RateLimitRule) : Limiter ClientWindow Instant :=
  fun w now => w.recordAndCheck rule now

structure Request where
  route : Text
  clientId : Text
  now : Instant

def limiter : Limiter RateLimiter Request := fun l r =>
  let (decision, l) := l.checkRequest r.route r.clientId r.now
  (decision.isAllow, l)

/-- The time of a request, where it is one of a rule and a client. -/
def select (rules : List RateLimitRule) (rule : RateLimitRule) (clientId : Text)
    (r : Request) : Option Instant :=
  if matchingRule rules r.route = some rule ∧ r.clientId = clientId then some r.now else none

def pairLog (rules : List RateLimitRule) (rule : RateLimitRule) (clientId : Text)
    (requests : List Request) : Log :=
  (ledger limiter { rules } requests).filterMap fun e =>
    (select rules rule clientId e.1).map fun now => (now, e.2)

/-- Only requests of a rule and a client have the key that these have. -/
def Unshared (rules : List RateLimitRule) (rule : RateLimitRule) (clientId : Text)
    (requests : List Request) : Prop :=
  ∀ r ∈ requests, ∀ other, matchingRule rules r.route = some other →
    windowKey other.routePrefix r.clientId = windowKey rule.routePrefix clientId →
    other = rule ∧ r.clientId = clientId

section Counts

variable {rule : RateLimitRule} {log before : Log} {now t : Instant} {allowed : Bool}

/-- In order of time, what is left once old times are dropped are the others. -/
theorem dropWhile_eq_filter {times : List Instant} {start : Instant}
    (ordered : times.Pairwise (· ≤ ·)) :
    times.dropWhile (fun t => t < start) = times.filter fun t => start ≤ t := by
  induction times with
  | nil => rfl
  | cons t times ih =>
    obtain ⟨hlater, ordered⟩ := List.pairwise_cons.mp ordered
    by_cases hold : t < start
    · rw [List.dropWhile_cons_of_pos (by simpa using hold),
        List.filter_cons_of_neg (by simpa using hold), ih ordered]
    · have hall : ∀ u ∈ t :: times, start ≤ u := by
        intro u hu
        rcases List.mem_cons.mp hu with rfl | hu
        · exact Nat.not_lt.mp hold
        · exact (Nat.not_lt.mp hold).trans (hlater u hu)
      rw [List.dropWhile_cons_of_neg (by simpa using hold), List.filter_eq_self.mpr]
      intro u hu
      exact decide_eq_true (hall u hu)

theorem allowedTimes_concat : allowedTimes (log ++ [(now, allowed)]) =
    allowedTimes log ++ if allowed then [now] else [] := by
  cases allowed <;> simp [allowedTimes]

theorem inWindow_concat : rule.inWindow (log ++ [(now, allowed)]) t =
    rule.inWindow log t + if allowed ∧ t ≤ now + rule.window then 1 else 0 := by
  unfold RateLimitRule.inWindow
  rw [allowedTimes_concat, List.countP_append]
  cases allowed with
  | false => simp
  | true => simp [List.countP_singleton]

theorem burstTimes_append (log₁ log₂ : Log) :
    rule.burstTimes before (log₁ ++ log₂) =
      rule.burstTimes before log₁ ++ rule.burstTimes (before ++ log₁) log₂ := by
  induction log₁ generalizing before with
  | nil => simp [RateLimitRule.burstTimes]
  | cons e log₁ ih =>
    rw [List.cons_append, RateLimitRule.burstTimes, RateLimitRule.burstTimes, ih,
      List.append_assoc, List.singleton_append]
    split <;> rfl

theorem length_burstTimes_singleton : (rule.burstTimes before [(now, allowed)]).length =
    if allowed ∧ rule.requestsPerWindow.toNat ≤ rule.inWindow before now then 1 else 0 := by
  rw [RateLimitRule.burstTimes]
  split <;> rfl

end Counts

section Bursts

variable {rule : RateLimitRule} {log : Log} {now : Instant} {allowed : Bool} {n : Nat}

/-- A request that finds the window empty is the first that its burst is counted from. -/
theorem burstsSinceEmpty_of_empty (hempty : rule.inWindow log now = 0) :
    rule.BurstsSinceEmpty (log ++ [(now, allowed)])
      (if allowed ∧ rule.requestsPerWindow.toNat ≤ 0 then 1 else 0) := by
  refine ⟨log, (now, allowed), [], rfl, hempty, fun before e later heq => ?_, ?_⟩
  · simp at heq
  · rw [length_burstTimes_singleton, hempty]

theorem burstsSinceEmpty_concat (h : rule.BurstsSinceEmpty log n)
    (hfull : rule.inWindow log now ≠ 0) :
    rule.BurstsSinceEmpty (log ++ [(now, allowed)])
      (n + if allowed ∧ rule.requestsPerWindow.toNat ≤ rule.inWindow log now then 1 else 0) := by
  obtain ⟨old, first, recent, rfl, hempty, hnonempty, rfl⟩ := h
  refine ⟨old, first, recent ++ [(now, allowed)], by simp, hempty, ?_, ?_⟩
  · exact forall_split_concat_iff.mpr ⟨hnonempty, hfull⟩
  · rw [← List.cons_append, burstTimes_append, List.length_append, length_burstTimes_singleton]

end Bursts

/-- The window of a client holds the allowed requests that are still in it, and counts the
burst since it was empty. -/
structure Holds (rule : RateLimitRule) (last : Instant) (log : Log) (w : ClientWindow) :
    Prop where
  agrees : ∀ now, last ≤ now →
    (w.timestamps.countP fun t => now ≤ t + rule.window) = rule.inWindow log now
  ordered : w.timestamps.Pairwise (· ≤ ·)
  past : ∀ t ∈ w.timestamps, t ≤ last
  counted : log = [] ∧ w.burstUsed = 0 ∨ rule.BurstsSinceEmpty log w.burstUsed.toNat
  filled : w.timestamps.length ≤ rule.requestsPerWindow.toNat + w.burstUsed.toNat
  spent : w.burstUsed.toNat ≤ rule.burstAllowance.toNat

/-- The total of the limits is a word, so that every count is one. -/
def RateLimitRule.Fits (rule : RateLimitRule) : Prop :=
  rule.requestsPerWindow.toNat + rule.burstAllowance.toNat < 2 ^ 32

section Steps

variable {rule : RateLimitRule} {log : Log} {w : ClientWindow} {last now : Instant}

/-- The timestamps that are kept, and the burst that is left used. -/
def ClientWindow.slid (w : ClientWindow) (rule : RateLimitRule) (now : Instant) : ClientWindow :=
  let timestamps := w.timestamps.filter fun t => now ≤ t + rule.window
  ⟨timestamps, if timestamps.length = 0 then 0 else w.burstUsed⟩

theorem Holds.length_slid (h : Holds rule last log w) (hlast : last ≤ now) :
    (w.slid rule now).timestamps.length = rule.inWindow log now := by
  rw [← h.agrees now hlast, List.countP_eq_length_filter]
  rfl

theorem Holds.recordAndCheck_eq (h : Holds rule last log w) (hfits : rule.Fits)
    (hwindow : rule.window ≤ now) : w.recordAndCheck rule now =
      let slid := w.slid rule now
      if slid.timestamps.length < rule.requestsPerWindow.toNat then
        (true, { slid with timestamps := slid.timestamps ++ [now] })
      else if slid.burstUsed < rule.burstAllowance then
        (true, ⟨slid.timestamps ++ [now], slid.burstUsed + 1⟩)
      else (false, slid) := by
  have hkept : w.timestamps.dropWhile (fun t => t < cutoff now rule.window) =
      (w.slid rule now).timestamps := by
    rw [dropWhile_eq_filter h.ordered, cutoff, if_pos hwindow]
    refine List.filter_congr fun t _ => decide_eq_decide.mpr ?_
    exact Nat.sub_le_iff_le_add
  have hempty : (w.slid rule now).timestamps.isEmpty = true ↔
      (w.slid rule now).timestamps.length = 0 := by
    rw [List.isEmpty_iff, List.length_eq_zero_iff]
  have hlength : (w.slid rule now).timestamps.length < 2 ^ 32 := by
    have hle : (w.slid rule now).timestamps.length ≤ w.timestamps.length :=
      List.length_filter_le _ _
    have hfilled := h.filled
    have hspent := h.spent
    unfold RateLimitRule.Fits at hfits
    omega
  have hcount : UInt32.ofNat (w.slid rule now).timestamps.length < rule.requestsPerWindow ↔
      (w.slid rule now).timestamps.length < rule.requestsPerWindow.toNat := by
    rw [UInt32.lt_iff_toNat_lt, UInt32.toNat_ofNat_of_lt' hlength]
  unfold ClientWindow.recordAndCheck
  dsimp only
  rw [hkept]
  simp only [hempty, hcount]
  rfl

/-- What the window slides to is still what the log says, for later requests. -/
theorem Holds.agrees_slid (h : Holds rule last log w) (hlast : last ≤ now) {t : Instant}
    (ht : now ≤ t) : ((w.slid rule now).timestamps.countP fun u => t ≤ u + rule.window) =
      rule.inWindow log t := by
  rw [← h.agrees t (hlast.trans ht)]
  change (w.timestamps.filter fun u => now ≤ u + rule.window).countP _ = _
  rw [List.countP_filter]
  refine List.countP_congr fun u _ => ?_
  simp only [Bool.and_eq_true, decide_eq_true_eq]
  exact ⟨And.left, fun hu => ⟨hu, ht.trans hu⟩⟩

theorem Holds.past_slid (h : Holds rule last log w) (hlast : last ≤ now) :
    ∀ t ∈ (w.slid rule now).timestamps, t ≤ now := fun t ht =>
  (h.past t (List.mem_of_mem_filter ht)).trans hlast

theorem Holds.filled_slid (h : Holds rule last log w) (now : Instant) :
    (w.slid rule now).timestamps.length ≤
      rule.requestsPerWindow.toNat + (w.slid rule now).burstUsed.toNat := by
  have hle : (w.slid rule now).timestamps.length ≤ w.timestamps.length :=
    List.length_filter_le _ _
  have hfilled := h.filled
  change _ ≤ _ + (if (w.slid rule now).timestamps.length = 0 then 0 else w.burstUsed).toNat
  split <;> omega

theorem Holds.spent_slid (h : Holds rule last log w) (now : Instant) :
    (w.slid rule now).burstUsed.toNat ≤ rule.burstAllowance.toNat := by
  change (if (w.slid rule now).timestamps.length = 0 then 0 else w.burstUsed).toNat ≤ _
  split
  · exact Nat.zero_le _
  · exact h.spent

/-- The burst is counted on, from the request on where it finds the window empty. -/
theorem Holds.counted_slid (h : Holds rule last log w) (hlast : last ≤ now) (allowed : Bool) :
    rule.BurstsSinceEmpty (log ++ [(now, allowed)]) ((w.slid rule now).burstUsed.toNat +
      if allowed ∧ rule.requestsPerWindow.toNat ≤ rule.inWindow log now then 1 else 0) := by
  have hlength := h.length_slid hlast
  change rule.BurstsSinceEmpty _
    ((if (w.slid rule now).timestamps.length = 0 then 0 else w.burstUsed).toNat + _)
  rw [hlength]
  by_cases hempty : rule.inWindow log now = 0
  · rw [if_pos hempty, hempty, UInt32.toNat_zero, Nat.zero_add]
    exact burstsSinceEmpty_of_empty hempty
  · rw [if_neg hempty]
    rcases h.counted with ⟨rfl, -⟩ | hcounted
    · exact absurd rfl hempty
    · exact burstsSinceEmpty_concat hcounted hempty

/-- One more request is answered by the law, and the window goes on to hold what it should. -/
theorem Holds.step (h : Holds rule last log w) (hfits : rule.Fits) (hlast : last ≤ now)
    (hwindow : rule.window ≤ now) :
    Holds rule now (log ++ [(now, (windowLimiter rule w now).1)]) (windowLimiter rule w now).2 ∧
      ((windowLimiter rule w now).1 = true →
        rule.inWindow log now < rule.requestsPerWindow.toNat + rule.burstAllowance.toNat) ∧
      ((windowLimiter rule w now).1 = false →
        rule.requestsPerWindow.toNat ≤ rule.inWindow log now ∧
          rule.burstAllowance.toNat ≤ (windowLimiter rule w now).2.burstUsed.toNat) := by
  have hlength := h.length_slid hlast
  have hfilled := h.filled_slid now
  have hspent := h.spent_slid now
  have hordered : (w.slid rule now).timestamps.Pairwise (· ≤ ·) := h.ordered.filter _
  have hpast := h.past_slid hlast
  have hconcat : ((w.slid rule now).timestamps ++ [now]).Pairwise (· ≤ ·) := by
    refine List.pairwise_append.mpr ⟨hordered, List.pairwise_singleton _ _, fun t ht u hu => ?_⟩
    rw [List.mem_singleton.mp hu]
    exact hpast t ht
  have hpastConcat : ∀ t ∈ (w.slid rule now).timestamps ++ [now], t ≤ now := by
    intro t ht
    rcases List.mem_append.mp ht with ht | ht
    · exact hpast t ht
    · exact (List.mem_singleton.mp ht).le
  have hagrees : ∀ t, now ≤ t → (((w.slid rule now).timestamps ++ [now]).countP
      fun u => t ≤ u + rule.window) = rule.inWindow (log ++ [(now, true)]) t := by
    intro t ht
    rw [List.countP_append, h.agrees_slid hlast ht, inWindow_concat, List.countP_singleton]
    simp
  rw [windowLimiter, h.recordAndCheck_eq hfits hwindow]
  dsimp only
  by_cases hroom : (w.slid rule now).timestamps.length < rule.requestsPerWindow.toNat
  · rw [if_pos hroom]
    have hcounted := h.counted_slid hlast true
    rw [if_neg (by omega), Nat.add_zero] at hcounted
    refine ⟨⟨hagrees, hconcat, hpastConcat, .inr hcounted, ?_, hspent⟩, ?_⟩
    · change ((w.slid rule now).timestamps ++ [now]).length ≤ _
      rw [List.length_append, List.length_singleton]
      omega
    · exact ⟨fun _ => by omega, fun hdenied => absurd hdenied.symm Bool.false_ne_true⟩
  · rw [if_neg hroom]
    by_cases hburst : (w.slid rule now).burstUsed < rule.burstAllowance
    · have hlt := UInt32.lt_iff_toNat_lt.mp hburst
      have hsucc : ((w.slid rule now).burstUsed + 1).toNat =
          (w.slid rule now).burstUsed.toNat + 1 := by
        have := rule.burstAllowance.toNat_lt
        rw [UInt32.toNat_add, UInt32.toNat_one, Nat.mod_eq_of_lt (by omega)]
      have hcounted := h.counted_slid hlast true
      rw [if_pos ⟨rfl, by omega⟩, ← hsucc] at hcounted
      rw [if_pos hburst]
      refine ⟨⟨hagrees, hconcat, hpastConcat, .inr hcounted, ?_, ?_⟩, ?_⟩
      · change ((w.slid rule now).timestamps ++ [now]).length ≤
          _ + ((w.slid rule now).burstUsed + 1).toNat
        rw [List.length_append, List.length_singleton]
        omega
      · change ((w.slid rule now).burstUsed + 1).toNat ≤ _
        omega
      · exact ⟨fun _ => by omega, fun hdenied => absurd hdenied.symm Bool.false_ne_true⟩
    · have hcounted := h.counted_slid hlast false
      rw [if_neg (by simp), Nat.add_zero] at hcounted
      have hle := UInt32.le_iff_toNat_le.mp (UInt32.not_lt.mp hburst)
      rw [if_neg hburst]
      refine ⟨⟨fun t ht => ?_, hordered, hpast, .inr hcounted, hfilled, hspent⟩, ?_⟩
      · rw [h.agrees_slid hlast ht, inWindow_concat]
        simp
      · exact ⟨fun hallowed => absurd hallowed Bool.false_ne_true, fun _ => ⟨by omega, hle⟩⟩

end Steps

section Runs

variable {rule : RateLimitRule} {times : List Instant} {now : Instant} {span n : Nat}

theorem allowedTimes_ledger {S : Type} (f : Limiter S Instant) (s : S) (times : List Instant) :
    allowedTimes (ledger f s times) = admitted f s times := by
  induction times generalizing s with
  | nil => rfl
  | cons t times ih =>
    rw [ledger, admitted, ← ih]
    cases hf : (f s t).1 with
    | false => simp [allowedTimes]
    | true => simp [allowedTimes]

theorem bounded_concat (hspan : 0 < span) (ordered : times.Pairwise (· ≤ ·))
    (hpast : ∀ t ∈ times, t ≤ now) (h : Bounded span n times)
    (hroom : (times.countP fun t => now < t + span) < n) : Bounded span n (times ++ [now]) := by
  have hconcat : (times ++ [now]).Pairwise (· ≤ ·) := by
    refine List.pairwise_append.mpr ⟨ordered, List.pairwise_singleton _ _, fun t ht u hu => ?_⟩
    rw [List.mem_singleton.mp hu]
    exact hpast t ht
  rw [bounded_iff_splits hspan hconcat]
  exact (forall_split_concat_iff
    (P := fun before t => (before.countP fun u => t < u + span) < n)).mpr
      ⟨(bounded_iff_splits hspan ordered).mp h, hroom⟩

/-- What holds of every denied request, with what was answered before it. -/
theorem denied_concat {P : Log → Instant → Prop} {log : Log} {allowed : Bool}
    (h : ∀ before t later, log = before ++ (t, false) :: later → P before t)
    (hlast : allowed = false → P log now) :
    ∀ before t later, log ++ [(now, allowed)] = before ++ (t, false) :: later → P before t := by
  have hsplit := (forall_split_concat_iff (P := fun before e => e.2 = false → P before e.1)
    (l := log) (a := (now, allowed))).mpr ⟨?_, hlast⟩
  · exact fun before t later heq => hsplit before (t, false) later heq rfl
  · rintro before ⟨t, answer⟩ later heq hdenied
    cases hdenied
    exact h before t later heq

theorem holds_new (rule : RateLimitRule) : Holds rule 0 [] {} where
  agrees _ _ := rfl
  ordered := List.Pairwise.nil
  past _ ht := absurd ht List.not_mem_nil
  counted := .inl ⟨rfl, rfl⟩
  filled := Nat.zero_le _
  spent := Nat.zero_le _

/-- The law of a window on its own, with the window that is left. -/
theorem windowLaw_ledger (hfits : rule.Fits) (ordered : times.Pairwise (· ≤ ·))
    (hwindow : ∀ t ∈ times, rule.window ≤ t) :
    WindowLaw rule (ledger (windowLimiter rule) {} times) ∧
      ∀ now, (∀ t ∈ times, t ≤ now) → ∃ last, last ≤ now ∧
        Holds rule last (ledger (windowLimiter rule) {} times)
          (after (windowLimiter rule) {} times) := by
  induction times using List.reverseRecOn with
  | nil =>
    refine ⟨⟨fun start => Nat.zero_le _, fun before now later heq => ?_⟩, fun now _ => ?_⟩
    · simp [ledger] at heq
    · exact ⟨0, Nat.zero_le now, holds_new rule⟩
  | append_singleton times now ih =>
    obtain ⟨hordered, -, hlater⟩ := List.pairwise_append.mp ordered
    have hpast : ∀ t ∈ times, t ≤ now := fun t ht => hlater t ht now List.mem_cons_self
    obtain ⟨hlaw, hholds⟩ := ih hordered fun t ht => hwindow t (List.mem_append_left _ ht)
    obtain ⟨last, hlast, hholds⟩ := hholds now hpast
    obtain ⟨hnext, hroom, hfull⟩ := hholds.step hfits hlast
      (hwindow now (List.mem_append_right _ List.mem_cons_self))
    rw [ledger_concat, after_concat]
    refine ⟨⟨?_, ?_⟩, fun later hle => ⟨now, hle now (List.mem_append_right _ ?_), hnext⟩⟩
    · rw [allowedTimes_concat]
      cases hallowed : (windowLimiter rule (after (windowLimiter rule) {} times) now).1 with
      | false => simpa using hlaw.bounded
      | true =>
        have hsublist := allowedTimes_ledger (windowLimiter rule) {} times ▸ admitted_sublist
        refine bounded_concat (Nat.succ_pos _) (hordered.sublist hsublist)
          (fun t ht => hpast t (hsublist.subset ht)) hlaw.bounded ?_
        refine lt_of_le_of_lt (List.countP_mono_left fun t _ ht => ?_) (hroom hallowed)
        rw [decide_eq_true_eq] at ht ⊢
        rw [← Nat.add_assoc] at ht
        exact Nat.lt_succ_iff.mp ht
    · refine denied_concat hlaw.denied fun hdenied => ?_
      obtain ⟨hfull, hspent⟩ := hfull hdenied
      rcases hnext.counted with ⟨hnil, -⟩ | hcounted
      · simp at hnil
      · rw [hdenied] at hcounted
        exact ⟨hfull, _, hcounted, hspent⟩
    · exact List.mem_cons_self

end Runs

section Pairs

variable {rules : List RateLimitRule} {rule : RateLimitRule} {clientId : Text}
  {requests : List Request} {l : RateLimiter} {r : Request}

theorem limiter_unmatched (h : matchingRule l.rules r.route = none) :
    limiter l r = (true, { l with totalAllowed := l.totalAllowed + 1 }) := by
  rw [limiter, RateLimiter.checkRequest, h]
  rfl

/-- A request of a rule is answered by the window of its key. -/
theorem limiter_matched {other : RateLimitRule} (h : matchingRule l.rules r.route = some other) :
    (limiter l r).1 =
        (windowLimiter other (l.windowOf (windowKey other.routePrefix r.clientId)) r.now).1 ∧
      (limiter l r).2.windows = l.windows.insert (windowKey other.routePrefix r.clientId)
        (windowLimiter other (l.windowOf (windowKey other.routePrefix r.clientId)) r.now).2 ∧
      (limiter l r).2.rules = l.rules := by
  rw [limiter, RateLimiter.checkRequest, h, windowLimiter]
  dsimp only
  split
  · rename_i hallowed
    exact ⟨hallowed.symm, rfl, rfl⟩
  · rename_i hdenied
    exact ⟨(Bool.not_eq_true _ ▸ hdenied).symm, rfl, rfl⟩

theorem rules_limiter (l : RateLimiter) (r : Request) : (limiter l r).2.rules = l.rules := by
  cases h : matchingRule l.rules r.route with
  | none => rw [limiter_unmatched h]
  | some other => exact (limiter_matched h).2.2

theorem select_eq_some {now : Instant} (h : select rules rule clientId r = some now) :
    matchingRule rules r.route = some rule ∧ r.clientId = clientId ∧ r.now = now := by
  obtain ⟨⟨hrule, hclient⟩, hnow⟩ := Option.ite_none_right_eq_some.mp h
  exact ⟨hrule, hclient, Option.some.inj hnow⟩

/-- The requests of a rule and a client are answered as by their own window alone, where no
others have its key. -/
theorem pairLog_eq (hkey : Unshared rules rule clientId requests) :
    pairLog rules rule clientId requests =
      ledger (windowLimiter rule) {} (requests.filterMap (select rules rule clientId)) := by
  have hempty : ({ rules } : RateLimiter).windowOf (windowKey rule.routePrefix clientId) = {} :=
    rfl
  rw [← hempty]
  refine ledger_filterMap
    (fun l : RateLimiter => l.windowOf (windowKey rule.routePrefix clientId))
    (fun l => l.rules = rules) ?_ ?_ ?_ rfl
  · intro l r _ hrules
    exact (rules_limiter l r).trans hrules
  · intro l r _ hrules now hselect
    obtain ⟨hrule, rfl, rfl⟩ := select_eq_some hselect
    obtain ⟨hanswer, hwindows, -⟩ := limiter_matched (hrules ▸ hrule)
    refine ⟨hanswer, ?_⟩
    rw [RateLimiter.windowOf, hwindows, AList.lookup_insert]
    rfl
  · intro l r hr hrules hselect
    have hother : ¬(matchingRule rules r.route = some rule ∧ r.clientId = clientId) :=
      fun h => Option.some_ne_none _ ((if_pos h).symm.trans hselect)
    cases hmatch : matchingRule l.rules r.route with
    | none =>
      rw [limiter_unmatched hmatch]
      rfl
    | some other =>
      obtain ⟨-, hwindows, -⟩ := limiter_matched hmatch
      rw [hrules] at hmatch
      have hne : windowKey rule.routePrefix clientId ≠ windowKey other.routePrefix r.clientId := by
        intro heq
        obtain ⟨rfl, hclient⟩ := hkey r hr other hmatch heq.symm
        exact hother ⟨hmatch, hclient⟩
      rw [RateLimiter.windowOf, hwindows, AList.lookup_insert_ne hne]
      rfl

/-- The requests of a rule and a client obey the law, and their answers are their own. -/
theorem window_law (rules : List RateLimitRule) (requests : List Request)
    (rule : RateLimitRule) (clientId : Text) (hfits : rule.Fits)
    (hordered : requests.Pairwise fun r s => r.now ≤ s.now)
    (hwindow : ∀ r ∈ requests, matchingRule rules r.route = some rule → rule.window ≤ r.now)
    (hkey : Unshared rules rule clientId requests) :
    WindowLaw rule (pairLog rules rule clientId requests) ∧
      ∀ others, Unshared rules rule clientId others →
        others.filterMap (select rules rule clientId) =
          requests.filterMap (select rules rule clientId) →
        pairLog rules rule clientId others = pairLog rules rule clientId requests := by
  constructor
  · rw [pairLog_eq hkey]
    refine (windowLaw_ledger hfits ?_ fun now hnow => ?_).1
    · refine List.Pairwise.filterMap _ (fun r s hle now hnow now' hnow' => ?_) hordered
      obtain ⟨-, -, rfl⟩ := select_eq_some hnow
      obtain ⟨-, -, rfl⟩ := select_eq_some hnow'
      exact hle
    · obtain ⟨r, hr, hselect⟩ := List.mem_filterMap.mp hnow
      obtain ⟨hrule, -, rfl⟩ := select_eq_some hselect
      exact hwindow r hr hrule
  · intro others hothers heq
    rw [pairLog_eq hothers, pairLog_eq hkey, heq]

end Pairs

/-- Two requests in ten seconds, and one more at times. -/
def apiRule : RateLimitRule := ⟨"/api".toList, 2, 10, 1⟩

def apiRequest (millis : Nat) : Request :=
  ⟨"/api/jobs".toList, "client".toList, millis * 1000000⟩

def apiRequests : List Request := [10000, 11000, 12000, 21500, 22500, 23000].map apiRequest

theorem matchingRule_api : matchingRule [apiRule] "/api/jobs".toList = some apiRule := by decide

theorem unshared_api : Unshared [apiRule] apiRule "client".toList apiRequests := by
  intro r hr other hother _
  obtain ⟨millis, -, rfl⟩ := List.mem_map.mp hr
  exact ⟨Option.some.inj (hother.symm.trans matchingRule_api), rfl⟩

theorem window_law_api :
    WindowLaw apiRule (pairLog [apiRule] apiRule "client".toList apiRequests) :=
  (window_law [apiRule] apiRequests apiRule "client".toList (by decide : 2 + 1 < 2 ^ 32)
    (by decide) (by decide) unshared_api).1

/-- The last request is denied, though the burst was used more than ten seconds before. -/
theorem burst_outlasts_window :
    ¬BurstInWindowLaw apiRule (pairLog [apiRule] apiRule "client".toList apiRequests) := by
  intro h
  have hlog : pairLog [apiRule] apiRule "client".toList apiRequests =
      ([10000, 11000, 12000, 21500, 22500].map fun millis => (millis * 1000000, true)) ++
        [(23000 * 1000000, false)] := by
    decide
  have hburst := (h.denied _ _ [] hlog).2
  exact absurd hburst (by decide)

end HelixRouter.RouteLimits
