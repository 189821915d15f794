import HelixRouter.Prioritizing.Conservation
import Mathlib.Algebra.Order.Ring.Abs
import Mathlib.Tactic.Linarith
import Mathlib.Tactic.Positivity

namespace HelixRouter.Prioritizing

open RequestPriority

namespace History

/-- How many requests of a client have been handed out. -/
def handedOut (h : History) (clientId : String) : Nat := h.returned.countP (·.clientId = clientId)

/-- The counts of the queue are those of the requests that were handed out. -/
structure Counted (weights : Weights) (h : History) : Prop where
  policy : h.queue.policy = .weightedFair weights
  counts : ∀ clientId, h.queue.served clientId = h.handedOut clientId

variable {h : History} {weights : Weights}

theorem counted_start (weights : Weights) : (start (.weightedFair weights)).Counted weights :=
  ⟨rfl, fun _ => rfl⟩

theorem handedOut_dequeue {level : RequestPriority} {req : PrioritizedRequest} {nowMs : UInt64}
    {score : Score} {q : RequestPrioritizer} (clientId : String)
    (hp : q.Popped level req (h.queue.dequeue score nowMs)) :
    (h.next score (.dequeue nowMs)).handedOut clientId =
      h.handedOut clientId + if req.clientId = clientId then 1 else 0 := by
  rw [handedOut, next, hp.returned, Option.toList_some, List.countP_append, List.countP_singleton]
  simp [handedOut]

theorem handedOut_le_next (score : Score) (h : History) (op : Op) (clientId : String) :
    h.handedOut clientId ≤ (h.next score op).handedOut clientId := by
  cases op with
  | enqueue priority payload deadlineMs client => exact Nat.le_refl _
  | expireOverdue nowMs => exact Nat.le_refl _
  | dequeue nowMs => exact (List.sublist_append_left _ _).countP_le

theorem handedOut_none {score : Score} {nowMs : UInt64} (clientId : String)
    (hnone : (h.queue.dequeue score nowMs).1 = none) :
    (h.next score (.dequeue nowMs)).handedOut clientId = h.handedOut clientId := by
  rw [handedOut, next, hnone, Option.toList_none, List.append_nil]
  rfl

theorem Counted.next (hc : h.Counted weights) (score : Score) (op : Op) :
    (h.next score op).Counted weights := by
  cases op with
  | enqueue priority payload deadlineMs clientId => exact ⟨hc.policy, hc.counts⟩
  | expireOverdue nowMs => exact ⟨hc.policy, hc.counts⟩
  | dequeue nowMs =>
    rcases h.queue.dequeue_cases score nowMs with hnone | ⟨level, req, hp⟩
    · refine ⟨?_, fun clientId => ?_⟩
      · rw [History.next, hnone]
        exact hc.policy
      · rw [handedOut_none clientId (by rw [hnone]), History.next, hnone]
        exact hc.counts clientId
    · refine ⟨hp.policy.trans hc.policy, fun clientId => ?_⟩
      rw [handedOut_dequeue clientId hp, ← hc.counts clientId]
      exact hp.served clientId

end History

/-- Two clients have requests queued, each on a level of its own. -/
structure Backlogged (a b : String) (la lb : RequestPriority) (q : RequestPrioritizer) : Prop where
  first : q.queues la ≠ []
  second : q.queues lb ≠ []
  own_first : ∀ level, ∀ req ∈ q.queues level, req.clientId = a ↔ level = la
  own_second : ∀ level, ∀ req ∈ q.queues level, req.clientId = b ↔ level = lb

section Backlog

variable {a b : String} {la lb : RequestPriority} {q : RequestPrioritizer} {h : History}
  {weights : Weights}

theorem Backlogged.symm (hb : Backlogged a b la lb q) : Backlogged b a lb la q :=
  ⟨hb.second, hb.first, hb.own_second, hb.own_first⟩

theorem Backlogged.levels_ne (hb : Backlogged a b la lb q) (hab : a ≠ b) : la ≠ lb := by
  rintro rfl
  obtain ⟨req, hreq⟩ := List.exists_mem_of_ne_nil _ hb.first
  exact hab (((hb.own_first la req hreq).mpr rfl).symm.trans ((hb.own_second la req hreq).mpr rfl))

/-- The lower client is served only while its score without the level is above one thousandth. -/
theorem lt_of_exactScore_lt {u v : UInt32} {m n : Nat} (hlevel : lb.level < la.level)
    (h : exactScore u m la < exactScore v n lb) : n + 1 < 1000 * v.toNat := by
  unfold exactScore at h
  have hbonus : (lb.level : ℚ) + 1 ≤ la.level := by exact_mod_cast hlevel
  have hshare : (0 : ℚ) ≤ u.toNat / (m + 1) := by positivity
  have hpos : (0 : ℚ) < n + 1 := by positivity
  have hless : (1 : ℚ) / 1000 < v.toNat / (n + 1) := by linarith
  rw [lt_div_iff₀ hpos] at hless
  have hcast : ((n + 1 : Nat) : ℚ) < (1000 * v.toNat : Nat) := by
    push_cast
    linarith
  exact_mod_cast hcast

/-- A call hands out a request of the client on the lower level at most up to a number that
depends on its weight alone. -/
theorem handedOut_next_le {op : Op} (hc : h.Counted weights) (hlevel : lb.level < la.level)
    (hb : Backlogged a b la lb h.queue)
    (hb' : Backlogged a b la lb (h.next exactScore op).queue) :
    (h.next exactScore op).handedOut b ≤ max (h.handedOut b) (1000 * (weights.of b).toNat) := by
  cases op with
  | enqueue priority payload deadlineMs clientId => exact le_max_left _ _
  | expireOverdue nowMs => exact le_max_left _ _
  | dequeue nowMs =>
    have hdequeue : h.queue.dequeue exactScore nowMs =
        (h.queue.expireOverdue nowMs).2.dequeueWeightedFair exactScore weights := by
      rw [RequestPrioritizer.dequeue_eq, hc.policy]
    rcases (h.queue.expireOverdue nowMs).2.dequeueWeightedFair_best exactScore weights with
      ⟨hnone, -⟩ | ⟨level, req, hp, hbest⟩
    · rw [History.handedOut_none b (by rw [hdequeue, hnone])]
      exact le_max_left _ _
    · rw [← hdequeue] at hp
      rw [History.handedOut_dequeue b hp]
      by_cases hclient : req.clientId = b
      · refine le_max_of_le_right ?_
        rw [if_pos hclient]
        obtain ⟨rest, hfront, hqueues⟩ := hp.front
        have hreq : req ∈ (h.queue.expireOverdue nowMs).2.queues level :=
          hfront ▸ List.mem_cons_self
        have hkept := (RequestPrioritizer.mem_queues_expireOverdue.mp hreq).1
        have hlb : level = lb := (hb.own_second level req hkept).mp hclient
        subst hlb
        -- the queue of the other client is as it was when the scores were compared
        have hother : (h.queue.expireOverdue nowMs).2.queues la ≠ [] := by
          have hne : la ≠ level := fun heq => absurd hlevel (heq ▸ lt_irrefl _)
          have hstays := hb'.first
          rw [History.next, hqueues, Function.update_of_ne hne] at hstays
          exact hstays
        obtain ⟨first, others, hcons⟩ := List.exists_cons_of_ne_nil hother
        have hlower := hbest la first (by rw [hcons]; rfl) hlevel
        have hless := lt_of_exactScore_lt hlevel hlower
        have hcount : (h.queue.expireOverdue nowMs).2.served req.clientId = h.handedOut b := by
          rw [hclient]
          exact hc.counts b
        rw [hcount, hclient] at hless
        exact hless.le
      · rw [if_neg hclient]
        exact le_max_left _ _

end Backlog

/-- The history after so many calls of a run that goes on without end. -/
def afterCalls (weights : Weights) (ops : Nat → Op) : Nat → History
  | 0 => .start (.weightedFair weights)
  | n + 1 => (afterCalls weights ops n).next exactScore (ops n)

/-- From some call on two clients have requests queued, each on a level of its own. -/
def StaysBacklogged (a b : String) (la lb : RequestPriority) (run : Nat → History) : Prop :=
  ∃ start, ∀ n, start ≤ n → Backlogged a b la lb (run n).queue

/-- How far what two clients were handed out is from the proportion of their weights. -/
def imbalance (weights : Weights) (a b : String) (h : History) : Int :=
  |(h.handedOut a : Int) * (weights.of b).toNat - h.handedOut b * (weights.of a).toNat|

def Proportional (weights : Weights) (a b : String) (run : Nat → History) : Prop :=
  BddAbove (Set.range fun n => imbalance weights a b (run n))

def ServedFinitely (run : Nat → History) (clientId : String) : Prop :=
  BddAbove (Set.range fun n => (run n).handedOut clientId)

/-- Two clients are served in proportion to their weights, and neither only finitely often. -/
structure SharedFairly (weights : Weights) (a b : String) (run : Nat → History) : Prop where
  proportional : Proportional weights a b run
  first : ¬ ServedFinitely run a
  second : ¬ ServedFinitely run b

/-- The client on the lower one of two levels. -/
def lower (a b : String) (la lb : RequestPriority) : String := if la.level < lb.level then a else b

section Runs

variable {a b : String} {la lb : RequestPriority} {weights : Weights} {ops : Nat → Op}
  {run : Nat → History}

theorem StaysBacklogged.symm (h : StaysBacklogged a b la lb run) :
    StaysBacklogged b a lb la run := by
  obtain ⟨start, hstays⟩ := h
  exact ⟨start, fun n hn => (hstays n hn).symm⟩

theorem proportional_comm : Proportional weights a b run ↔ Proportional weights b a run := by
  unfold Proportional imbalance
  simp only [abs_sub_comm]

theorem counted_afterCalls (weights : Weights) (ops : Nat → Op) (n : Nat) :
    (afterCalls weights ops n).Counted weights := by
  induction n with
  | zero => exact History.counted_start weights
  | succ n ih => exact ih.next exactScore (ops n)

theorem handedOut_monotone (weights : Weights) (ops : Nat → Op) (clientId : String) :
    Monotone fun n => (afterCalls weights ops n).handedOut clientId :=
  monotone_nat_of_le_succ fun n =>
    History.handedOut_le_next exactScore (afterCalls weights ops n) (ops n) clientId

/-- The client on the lower level is served only finitely often. -/
theorem servedFinitely_of_lt (hlevel : lb.level < la.level)
    (h : StaysBacklogged a b la lb (afterCalls weights ops)) :
    ServedFinitely (afterCalls weights ops) b := by
  obtain ⟨start, hstays⟩ := h
  let bound := max ((afterCalls weights ops start).handedOut b) (1000 * (weights.of b).toNat)
  have hfrom : ∀ n, start ≤ n → (afterCalls weights ops n).handedOut b ≤ bound := by
    intro n hn
    induction n, hn using Nat.le_induction with
    | base => exact le_max_left _ _
    | succ n hn ih =>
      refine (handedOut_next_le (counted_afterCalls weights ops n) hlevel (hstays n hn)
        (hstays (n + 1) (Nat.le_succ_of_le hn))).trans ?_
      exact max_le ih (le_max_right _ _)
  refine ⟨bound, ?_⟩
  rintro _ ⟨n, rfl⟩
  rcases Nat.le_total start n with hn | hn
  · exact hfrom n hn
  · exact (handedOut_monotone weights ops b hn).trans (hfrom start (Nat.le_refl _))

theorem abs_sub_le_add {x y u v : Nat} (hx : x ≤ u) (hy : y ≤ v) :
    |(x : Int) - y| ≤ (u + v : Nat) := by
  rw [abs_le]
  omega

/-- Beside a share that is bounded, the other one is in proportion if it is bounded too. -/
theorem proportional_iff_of_finitely (hb : ServedFinitely run b) :
    Proportional weights a b run ↔ weights.of b = 0 ∨ ServedFinitely run a := by
  obtain ⟨m, hm⟩ := hb
  have hle : ∀ n, (run n).handedOut b ≤ m := fun n => hm ⟨n, rfl⟩
  have hother : ∀ n, (run n).handedOut b * (weights.of a).toNat ≤ m * (weights.of a).toNat :=
    fun n => Nat.mul_le_mul_right _ (hle n)
  constructor
  · rintro ⟨c, hc⟩
    rcases Nat.eq_zero_or_pos (weights.of b).toNat with hzero | hpos
    · exact Or.inl (UInt32.toNat_inj.mp hzero)
    · refine Or.inr ⟨c.toNat + m * (weights.of a).toNat, ?_⟩
      rintro _ ⟨n, rfl⟩
      have himbalance : imbalance weights a b (run n) ≤ c := hc ⟨n, rfl⟩
      have hdiff := (le_abs_self _).trans himbalance
      have hself := Nat.le_mul_of_pos_right ((run n).handedOut a) hpos
      have hmine := hother n
      dsimp only
      zify at hself hmine ⊢
      have hcast := Int.self_le_toNat c
      linarith
  · intro h
    have hbound : ∃ m', ∀ n, (run n).handedOut a * (weights.of b).toNat ≤ m' := by
      rcases h with hzero | ⟨m', hm'⟩
      · refine ⟨0, fun n => ?_⟩
        rw [hzero]
        exact Nat.le_refl 0
      · exact ⟨m' * (weights.of b).toNat, fun n => Nat.mul_le_mul_right _ (hm' ⟨n, rfl⟩)⟩
    obtain ⟨m', hm'⟩ := hbound
    refine ⟨(m' + m * (weights.of a).toNat : Nat), ?_⟩
    rintro _ ⟨n, rfl⟩
    have hle := abs_sub_le_add (hm' n) (hother n)
    rw [Nat.cast_mul, Nat.cast_mul] at hle
    exact hle

end Runs

/-- Of two clients that both stay backlogged on levels of their own the one on the lower level is
served only finitely often, and what they are handed out is in proportion to their weights only
where that one has no weight or where both are served only finitely often. -/
theorem weighted_never_shared (weights : Weights) (ops : Nat → Op) (a b : String)
    (la lb : RequestPriority) (hab : a ≠ b)
    (h : StaysBacklogged a b la lb (afterCalls weights ops)) :
    ¬ SharedFairly weights a b (afterCalls weights ops) ∧
      (Proportional weights a b (afterCalls weights ops) ↔
        weights.of (lower a b la lb) = 0 ∨
          ServedFinitely (afterCalls weights ops) a ∧
            ServedFinitely (afterCalls weights ops) b) := by
  obtain ⟨start, hstays⟩ := id h
  have hne := (hstays start (Nat.le_refl _)).levels_ne hab
  rcases Nat.lt_or_gt_of_ne fun heq => hne (level_inj heq) with hlevel | hlevel
  · have hfinite := servedFinitely_of_lt hlevel h.symm
    rw [lower, if_pos hlevel, proportional_comm, proportional_iff_of_finitely hfinite]
    exact ⟨fun hfair => hfair.first hfinite, or_congr_right (iff_and_self.mpr fun _ => hfinite)⟩
  · have hfinite := servedFinitely_of_lt hlevel h
    rw [lower, if_neg (Nat.lt_asymm hlevel), proportional_iff_of_finitely hfinite]
    exact ⟨fun hfair => hfair.second hfinite, or_congr_right (iff_self_and.mpr fun _ => hfinite)⟩

/-- Two requests of each of two clients come for each call that hands one out. -/
def twoForOne (n : Nat) : Op :=
  if n % 5 = 4 then .dequeue 0
  else if n % 5 % 2 = 0 then .enqueue .critical "" none "a"
  else .enqueue .low "" none "b"

/-- What the calls of the run keep: the queues hold what has not been handed out. -/
structure Filled (n : Nat) (h : History) : Prop where
  counted : h.Counted ∅
  owned : ∀ level, ∀ req ∈ h.queue.queues level, req.deadlineMs = none ∧
    (level = .critical ∧ req.clientId = "a" ∨ level = .low ∧ req.clientId = "b")
  first_length : (h.queue.queues .critical).length + h.handedOut "a" =
    2 * (n / 5) + (n % 5 + 1) / 2
  second_length : (h.queue.queues .low).length + h.handedOut "b" = 2 * (n / 5) + n % 5 / 2
  all : h.handedOut "a" + h.handedOut "b" = n / 5

theorem filled_start : Filled 0 (.start (.weightedFair ∅)) where
  counted := History.counted_start ∅
  owned _ _ hreq := absurd hreq List.not_mem_nil
  first_length := rfl
  second_length := rfl
  all := rfl

section Filled

variable {n : Nat} {h : History}

theorem Filled.backlogged (hf : Filled n h) (hn : 2 ≤ n) :
    Backlogged "a" "b" .critical .low h.queue where
  first := by
    have hlength := hf.first_length
    have hall := hf.all
    refine List.ne_nil_of_length_pos ?_
    omega
  second := by
    have hlength := hf.second_length
    have hall := hf.all
    refine List.ne_nil_of_length_pos ?_
    omega
  own_first level req hreq := by
    rcases (hf.owned level req hreq).2 with ⟨rfl, hclient⟩ | ⟨rfl, hclient⟩ <;> simp [hclient]
  own_second level req hreq := by
    rcases (hf.owned level req hreq).2 with ⟨rfl, hclient⟩ | ⟨rfl, hclient⟩ <;> simp [hclient]

theorem Filled.expireOverdue (hf : Filled n h) (nowMs : UInt64) :
    (h.queue.expireOverdue nowMs).2.queues = h.queue.queues := by
  funext level
  refine List.filter_eq_self.mpr fun req hreq => ?_
  rw [PrioritizedRequest.isOverdue, (hf.owned level req hreq).1]
  rfl

theorem Filled.enqueue_first (hf : Filled n h) (hn : n % 5 ≠ 4) (heven : n % 5 % 2 = 0) :
    Filled (n + 1) (h.next exactScore (.enqueue .critical "" none "a")) where
  counted := hf.counted.next exactScore _
  owned level req hreq := by
    rcases RequestPrioritizer.mem_queues_enqueue hreq with hold | ⟨hlevel, rfl⟩
    · exact hf.owned level req hold
    · exact ⟨rfl, Or.inl ⟨hlevel, rfl⟩⟩
  first_length := by
    have hold := hf.first_length
    change (h.queue.queues .critical ++ [_]).length + h.handedOut "a" = _
    rw [List.length_append, List.length_singleton]
    omega
  second_length := by
    have hold := hf.second_length
    change (h.queue.queues .low).length + h.handedOut "b" = _
    omega
  all := by
    have hold := hf.all
    change h.handedOut "a" + h.handedOut "b" = _
    omega

theorem Filled.enqueue_second (hf : Filled n h) (hodd : n % 5 % 2 ≠ 0) :
    Filled (n + 1) (h.next exactScore (.enqueue .low "" none "b")) where
  counted := hf.counted.next exactScore _
  owned level req hreq := by
    rcases RequestPrioritizer.mem_queues_enqueue hreq with hold | ⟨hlevel, rfl⟩
    · exact hf.owned level req hold
    · exact ⟨rfl, Or.inr ⟨hlevel, rfl⟩⟩
  first_length := by
    have hold := hf.first_length
    change (h.queue.queues .critical).length + h.handedOut "a" = _
    omega
  second_length := by
    have hold := hf.second_length
    change (h.queue.queues .low ++ [_]).length + h.handedOut "b" = _
    rw [List.length_append, List.length_singleton]
    omega
  all := by
    have hold := hf.all
    change h.handedOut "a" + h.handedOut "b" = _
    omega

theorem Filled.dequeue (hf : Filled n h) (hn : n % 5 = 4) :
    Filled (n + 1) (h.next exactScore (.dequeue 0)) := by
  have hqueues := hf.expireOverdue 0
  have hdequeue : h.queue.dequeue exactScore 0 =
      (h.queue.expireOverdue 0).2.dequeueWeightedFair exactScore ∅ := by
    rw [RequestPrioritizer.dequeue_eq, hf.counted.policy]
  rcases (h.queue.expireOverdue 0).2.dequeueWeightedFair_best exactScore ∅ with
    ⟨-, hnone⟩ | ⟨level, req, hp, -⟩
  · have hlevel := RequestPrioritizer.mem_levels.mpr (hqueues ▸ (hf.backlogged (by omega)).first)
    rw [hnone] at hlevel
    exact absurd hlevel List.not_mem_nil
  · rw [← hdequeue] at hp
    obtain ⟨rest, hfront, -⟩ := hp.front
    have hfirst := hf.first_length
    have hsecond := hf.second_length
    have hall := hf.all
    have hcritical := hp.length .critical
    have hlow := hp.length .low
    rw [hqueues] at hfront hcritical hlow
    have ha := History.handedOut_dequeue "a" hp
    have hb := History.handedOut_dequeue "b" hp
    have hshares : ((h.queue.dequeue exactScore 0).2.queues .critical).length +
          (h.next exactScore (.dequeue 0)).handedOut "a" =
        (h.queue.queues .critical).length + h.handedOut "a" ∧
        ((h.queue.dequeue exactScore 0).2.queues .low).length +
          (h.next exactScore (.dequeue 0)).handedOut "b" =
        (h.queue.queues .low).length + h.handedOut "b" ∧
        (h.next exactScore (.dequeue 0)).handedOut "a" +
          (h.next exactScore (.dequeue 0)).handedOut "b" =
        h.handedOut "a" + h.handedOut "b" + 1 := by
      rw [ha, hb]
      rcases (hf.owned level req (hfront ▸ List.mem_cons_self)).2 with
        ⟨rfl, hclient⟩ | ⟨rfl, hclient⟩
      all_goals
        simp only [hclient, reduceCtorEq, String.reduceEq, ↓reduceIte] at hcritical hlow ⊢
        omega
    refine ⟨hf.counted.next exactScore _, fun other req' hreq => ?_, ?_, ?_, ?_⟩
    · exact hf.owned other req' (hqueues ▸ hp.mem hreq)
    · refine hshares.1.trans ?_
      omega
    · refine hshares.2.1.trans ?_
      omega
    · refine hshares.2.2.trans ?_
      omega

end Filled

theorem filled_afterCalls (n : Nat) : Filled n (afterCalls ∅ twoForOne n) := by
  induction n with
  | zero => exact filled_start
  | succ n ih =>
    rw [afterCalls, twoForOne]
    split
    · rename_i hn
      exact ih.dequeue hn
    · rename_i hn
      split
      · rename_i heven
        exact ih.enqueue_first hn heven
      · rename_i hodd
        exact ih.enqueue_second hodd

theorem twoForOne_backlogged :
    StaysBacklogged "a" "b" .critical .low (afterCalls ∅ twoForOne) :=
  ⟨2, fun n hn => (filled_afterCalls n).backlogged hn⟩

theorem weighted_never_shared_twoForOne :
    ¬ SharedFairly ∅ "a" "b" (afterCalls ∅ twoForOne) ∧
      (Proportional ∅ "a" "b" (afterCalls ∅ twoForOne) ↔
        Weights.of ∅ (lower "a" "b" .critical .low) = 0 ∨
          ServedFinitely (afterCalls ∅ twoForOne) "a" ∧
            ServedFinitely (afterCalls ∅ twoForOne) "b") :=
  weighted_never_shared ∅ twoForOne "a" "b" .critical .low (by decide) twoForOne_backlogged

/-- Of two clients of the same weight one is served without end and the other is not. -/
theorem twoForOne_not_shared :
    StaysBacklogged "a" "b" .critical .low (afterCalls ∅ twoForOne) ∧
      ¬ Proportional ∅ "a" "b" (afterCalls ∅ twoForOne) ∧
      ¬ ServedFinitely (afterCalls ∅ twoForOne) "a" ∧
      ServedFinitely (afterCalls ∅ twoForOne) "b" := by
  have hlower : ServedFinitely (afterCalls ∅ twoForOne) "b" :=
    servedFinitely_of_lt (by decide) twoForOne_backlogged
  have hhigher : ¬ ServedFinitely (afterCalls ∅ twoForOne) "a" := by
    rintro ⟨m, hm⟩
    obtain ⟨m', hm'⟩ := hlower
    have hall := (filled_afterCalls (5 * (m + m' + 1))).all
    have hfirst : (afterCalls ∅ twoForOne (5 * (m + m' + 1))).handedOut "a" ≤ m := hm ⟨_, rfl⟩
    have hsecond : (afterCalls ∅ twoForOne (5 * (m + m' + 1))).handedOut "b" ≤ m' := hm' ⟨_, rfl⟩
    omega
  refine ⟨twoForOne_backlogged, fun hproportional => ?_, hhigher, hlower⟩
  rcases (proportional_iff_of_finitely hlower).mp hproportional with hzero | hfinite
  · exact absurd hzero (by decide)
  · exact hhigher hfinite

end HelixRouter.Prioritizing
