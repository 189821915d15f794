import HelixRouter.Containers.Greatest
import Mathlib.Algebra.Order.Field.Rat
import Mathlib.Algebra.Ring.Nat
import Mathlib.Data.List.AList
import Mathlib.Logic.Function.Basic

namespace HelixRouter.Prioritizing

inductive RequestPriority where
  | background
  | low
  | normal
  | high
  | critical
  deriving DecidableEq

namespace RequestPriority

def level : RequestPriority → Nat
  | background => 0
  | low => 1
  | normal => 2
  | high => 3
  | critical => 4

/-- The keys of the map of queues, from the highest on. -/
def descending : List RequestPriority := [critical, high, normal, low, background]

theorem level_inj {a b : RequestPriority} (h : a.level = b.level) : a = b := by
  cases a <;> cases b <;> first | rfl | simp [level] at h

end RequestPriority

structure PrioritizedRequest where
  id : UInt64
  priority : RequestPriority
  payload : String
  enqueuedAtMs : UInt64
  deadlineMs : Option UInt64
  clientId : String
  deriving DecidableEq

def PrioritizedRequest.isOverdue (r : PrioritizedRequest) (nowMs : UInt64) : Bool :=
  match r.deadlineMs with
  | some deadline => deadline ≤ nowMs
  | none => false

/-- The weight of a client that has none is one. -/
abbrev Weights := AList (fun _ : String => UInt32)

def Weights.of (weights : Weights) (clientId : String) : UInt32 :=
  (AList.lookup clientId weights).getD 1

inductive FairnessPolicy where
  | strict
  | weightedFair (weights : Weights)
  | roundRobin

/-- How a candidate is scored: by the weight of its client, the requests of it that have been
served, and its level. -/
abbrev Score := UInt32 → Nat → RequestPriority → ℚ

/-- The score, without the rounding of floats. -/
def exactScore : Score := fun weight served level =>
  (weight.toNat : ℚ) / (served + 1) + level.level * (1 / 1000)

/-- A queue for each level; those that the map does not hold are empty. -/
structure RequestPrioritizer where
  queues : RequestPriority → List PrioritizedRequest := fun _ => []
  policy : FairnessPolicy
  nextId : UInt64 := 1
  clientCounts : AList (fun _ : String => Nat) := ∅
  expiredCount : UInt64 := 0
  rrCursor : Nat := 0

namespace RequestPrioritizer

def new (policy : FairnessPolicy) : RequestPrioritizer := { policy := policy }

def newRequest (q : RequestPrioritizer) (priority : RequestPriority) (payload : String)
    (deadlineMs : Option UInt64) (clientId : String) : PrioritizedRequest where
  id := q.nextId
  priority := priority
  payload := payload
  enqueuedAtMs := 0
  deadlineMs := deadlineMs
  clientId := clientId

def enqueue (q : RequestPrioritizer) (priority : RequestPriority) (payload : String)
    (deadlineMs : Option UInt64) (clientId : String) : UInt64 × RequestPrioritizer :=
  let req := q.newRequest priority payload deadlineMs clientId
  (req.id, { q with
    nextId := q.nextId + 1
    queues := Function.update q.queues priority (q.queues priority ++ [req]) })

def expireOverdue (q : RequestPrioritizer) (nowMs : UInt64) : Nat × RequestPrioritizer :=
  let kept := fun level => (q.queues level).filter (!·.isOverdue nowMs)
  let count := (RequestPriority.descending.map fun level =>
    (q.queues level).length - (kept level).length).sum
  (count, { q with
    queues := kept
    expiredCount := q.expiredCount + UInt64.ofNat count })

/-- The levels whose queue is not empty, in descending order. -/
def levels (q : RequestPrioritizer) : List RequestPriority :=
  RequestPriority.descending.filter fun level => !(q.queues level).isEmpty

def served (q : RequestPrioritizer) (clientId : String) : Nat :=
  (q.clientCounts.lookup clientId).getD 0

/-- Takes the first request of a level, and counts it for its client. -/
def popFront (q : RequestPrioritizer) (level : RequestPriority) :
    Option PrioritizedRequest × RequestPrioritizer :=
  match q.queues level with
  | req :: rest =>
    (some req, { q with
      queues := Function.update q.queues level rest
      clientCounts := q.clientCounts.insert req.clientId (q.served req.clientId + 1) })
  | [] => (none, q)

def dequeueStrict (q : RequestPrioritizer) : Option PrioritizedRequest × RequestPrioritizer :=
  match q.levels with
  | level :: _ => q.popFront level
  | [] => (none, q)

/-- The levels whose queue is not empty, with the client at the front. -/
def candidates (q : RequestPrioritizer) : List (RequestPriority × String) :=
  q.levels.filterMap fun level => (q.queues level).head?.map fun req => (level, req.clientId)

/-- Of several candidates with the best score the one on the highest level is taken. -/
def dequeueWeightedFair (q : RequestPrioritizer) (score : Score) (weights : Weights) :
    Option PrioritizedRequest × RequestPrioritizer :=
  let best := q.candidates.argmax fun (level, clientId) =>
    score (weights.of clientId) (q.served clientId) level
  match best with
  | some (level, _) => q.popFront level
  | none => (none, q)

def dequeueRoundRobin (q : RequestPrioritizer) : Option PrioritizedRequest × RequestPrioritizer :=
  let cursor := q.rrCursor % q.levels.length
  match q.levels[cursor]? with
  | some level => { q with rrCursor := (cursor + 1) % q.levels.length }.popFront level
  | none => (none, q)

def dequeue (q : RequestPrioritizer) (score : Score) (nowMs : UInt64) :
    Option PrioritizedRequest × RequestPrioritizer :=
  let q := (q.expireOverdue nowMs).2
  match q.policy with
  | .strict => q.dequeueStrict
  | .weightedFair weights => q.dequeueWeightedFair score weights
  | .roundRobin => q.dequeueRoundRobin

/-- All requests that are queued. -/
def queued (q : RequestPrioritizer) : List PrioritizedRequest :=
  RequestPriority.descending.flatMap q.queues

variable {q : RequestPrioritizer} {level : RequestPriority} {req : PrioritizedRequest}
  {rest : List PrioritizedRequest} {nowMs : UInt64}

theorem mem_descending (level : RequestPriority) : level ∈ RequestPriority.descending := by
  cases level <;> decide

theorem mem_levels : level ∈ q.levels ↔ q.queues level ≠ [] := by
  simp [levels, mem_descending]

theorem mem_queued : req ∈ q.queued ↔ ∃ level, req ∈ q.queues level := by
  rw [queued, List.mem_flatMap]
  exact exists_congr fun level => and_iff_right (mem_descending level)

theorem popFront_cons (h : q.queues level = req :: rest) : q.popFront level =
    (some req, { q with
      queues := Function.update q.queues level rest
      clientCounts := q.clientCounts.insert req.clientId (q.served req.clientId + 1) }) := by
  rw [popFront, h]

/-- The front of a level that is not empty is taken. -/
theorem popFront_of_mem (h : level ∈ q.levels) : ∃ req rest, q.queues level = req :: rest ∧
    (q.popFront level).1 = some req ∧
    (q.popFront level).2.queues = Function.update q.queues level rest ∧
    (q.popFront level).2.clientCounts =
      q.clientCounts.insert req.clientId (q.served req.clientId + 1) ∧
    (q.popFront level).2.expiredCount = q.expiredCount ∧
    (q.popFront level).2.policy = q.policy := by
  obtain ⟨req, rest, hq⟩ := List.exists_cons_of_ne_nil (mem_levels.mp h)
  rw [popFront_cons hq]
  exact ⟨req, rest, hq, rfl, rfl, rfl, rfl, rfl⟩

/-- A dequeue finds no request, or takes the front of a level where it is not overdue. -/
structure Popped (q : RequestPrioritizer) (level : RequestPriority) (req : PrioritizedRequest)
    (result : Option PrioritizedRequest × RequestPrioritizer) : Prop where
  front : ∃ rest, q.queues level = req :: rest ∧
    result.2.queues = Function.update q.queues level rest
  returned : result.1 = some req
  counts : result.2.clientCounts = q.clientCounts.insert req.clientId (q.served req.clientId + 1)
  expired : result.2.expiredCount = q.expiredCount
  policy : result.2.policy = q.policy

section Dequeue

variable {score : Score} {result : Option PrioritizedRequest × RequestPrioritizer}

theorem Popped.served (hp : Popped q level req result) (clientId : String) :
    result.2.served clientId = q.served clientId + if req.clientId = clientId then 1 else 0 := by
  unfold RequestPrioritizer.served
  rw [hp.counts]
  by_cases hclient : req.clientId = clientId
  · subst hclient
    rw [AList.lookup_insert, if_pos rfl]
    rfl
  · rw [AList.lookup_insert_ne (Ne.symm hclient), if_neg hclient, Nat.add_zero]

theorem Popped.length (hp : Popped q level req result) (other : RequestPriority) :
    (result.2.queues other).length + (if other = level then 1 else 0) =
      (q.queues other).length := by
  obtain ⟨rest, hfront, hqueues⟩ := hp.front
  rw [hqueues]
  by_cases hlevel : other = level
  · subst hlevel
    rw [Function.update_self, if_pos rfl, hfront]
    rfl
  · rw [Function.update_of_ne hlevel, if_neg hlevel]
    rfl

theorem Popped.mem (hp : Popped q level req result) {other : RequestPriority}
    {req' : PrioritizedRequest} (h : req' ∈ result.2.queues other) : req' ∈ q.queues other := by
  obtain ⟨rest, hfront, hqueues⟩ := hp.front
  rw [hqueues] at h
  by_cases hlevel : other = level
  · subst hlevel
    rw [Function.update_self] at h
    rw [hfront]
    exact List.mem_cons_of_mem req h
  · rwa [Function.update_of_ne hlevel] at h

theorem popped_popFront (h : level ∈ q.levels) : ∃ req, Popped q level req (q.popFront level) := by
  obtain ⟨req, rest, hq, hreq, hqueues, hcounts, hexpired, hpolicy⟩ := popFront_of_mem h
  exact ⟨req, ⟨rest, hq, hqueues⟩, hreq, hcounts, hexpired, hpolicy⟩

theorem dequeueStrict_cases (q : RequestPrioritizer) :
    q.dequeueStrict = (none, q) ∧ q.levels = [] ∨
      ∃ level others req, q.levels = level :: others ∧ Popped q level req q.dequeueStrict := by
  unfold dequeueStrict
  cases hl : q.levels with
  | nil => exact Or.inl ⟨rfl, rfl⟩
  | cons level others =>
    obtain ⟨req, hp⟩ := popped_popFront (hl ▸ List.mem_cons_self : level ∈ q.levels)
    exact Or.inr ⟨level, others, req, rfl, hp⟩

theorem mem_candidates {clientId : String} : (level, clientId) ∈ q.candidates ↔
    ∃ req, (q.queues level).head? = some req ∧ req.clientId = clientId := by
  constructor
  · intro h
    obtain ⟨other, -, heq⟩ := List.mem_filterMap.mp h
    obtain ⟨req, hreq, heq⟩ := Option.map_eq_some_iff.mp heq
    cases heq
    exact ⟨req, hreq, rfl⟩
  · rintro ⟨req, hreq, rfl⟩
    have hlevel := mem_levels.mpr (List.ne_nil_of_mem (List.mem_of_head? hreq))
    exact List.mem_filterMap.mpr ⟨level, hlevel, by rw [hreq]; rfl⟩

theorem candidates_pairwise (q : RequestPrioritizer) :
    q.candidates.Pairwise fun x y => y.1.level < x.1.level := by
  have hsorted : RequestPriority.descending.Pairwise fun a b => b.level < a.level := by decide
  have hlevels : q.levels.Pairwise fun a b => b.level < a.level :=
    hsorted.sublist List.filter_sublist
  refine List.Pairwise.filterMap _ ?_ hlevels
  intro level other hlt x hx y hy
  obtain ⟨_, -, rfl⟩ := Option.map_eq_some_iff.mp hx
  obtain ⟨_, -, rfl⟩ := Option.map_eq_some_iff.mp hy
  exact hlt

/-- The scores of the clients in front on the levels above the one that is taken are lower. -/
theorem dequeueWeightedFair_best (q : RequestPrioritizer) (score : Score) (weights : Weights) :
    q.dequeueWeightedFair score weights = (none, q) ∧ q.levels = [] ∨
      ∃ level req, Popped q level req (q.dequeueWeightedFair score weights) ∧
        ∀ other first, (q.queues other).head? = some first → level.level < other.level →
          score (weights.of first.clientId) (q.served first.clientId) other <
            score (weights.of req.clientId) (q.served req.clientId) level := by
  unfold dequeueWeightedFair
  dsimp only
  split
  · rename_i level clientId hbest
    obtain ⟨before, after, hsplit, hbefore, -⟩ := List.argmax_eq_some_iff_append.mp hbest
    obtain ⟨front, hfront, rfl⟩ := mem_candidates.mp (List.argmax_mem hbest)
    have hlevel := mem_levels.mpr (List.ne_nil_of_mem (List.mem_of_head? hfront))
    obtain ⟨req, hp⟩ := popped_popFront hlevel
    obtain ⟨rest, hcons, -⟩ := hp.front
    rw [hcons, List.head?_cons] at hfront
    obtain rfl : req = front := Option.some.inj hfront
    refine Or.inr ⟨level, req, hp, fun other first hfirst hlt => ?_⟩
    have hother : (other, first.clientId) ∈ q.candidates :=
      mem_candidates.mpr ⟨first, hfirst, rfl⟩
    have hsorted := q.candidates_pairwise
    rw [hsplit] at hother hsorted
    -- the candidates above the one that is taken stand in front of it
    rcases List.mem_append.mp hother with hin | hin
    · exact hbefore _ hin
    · rcases List.mem_cons.mp hin with heq | hin
      · have hlevel : other = level := congrArg Prod.fst heq
        rw [hlevel] at hlt
        exact absurd hlt (lt_irrefl _)
      · have hless := (List.pairwise_cons.mp (List.pairwise_append.mp hsorted).2.1).1 _ hin
        exact absurd hlt (lt_asymm hless)
  · rename_i hnone
    refine Or.inl ⟨rfl, List.eq_nil_iff_forall_not_mem.mpr fun level hlevel => ?_⟩
    obtain ⟨req, rest, hcons⟩ := List.exists_cons_of_ne_nil (mem_levels.mp hlevel)
    have hmem : (level, req.clientId) ∈ q.candidates :=
      mem_candidates.mpr ⟨req, by rw [hcons]; rfl, rfl⟩
    rw [List.argmax_eq_none.mp hnone] at hmem
    exact absurd hmem List.not_mem_nil

theorem dequeueRoundRobin_cases (q : RequestPrioritizer) :
    q.dequeueRoundRobin = (none, q) ∨
      ∃ level req, q.levels[q.rrCursor % q.levels.length]? = some level ∧
        Popped q level req q.dequeueRoundRobin := by
  unfold dequeueRoundRobin
  dsimp only
  split
  · rename_i level hget
    obtain ⟨req, hp⟩ := popped_popFront
      (q := { q with rrCursor := (q.rrCursor % q.levels.length + 1) % q.levels.length })
      (List.mem_of_getElem? hget)
    exact Or.inr ⟨level, req, hget, hp.front, hp.returned, hp.counts, hp.expired, hp.policy⟩
  · exact Or.inl rfl

/-- What is overdue is expired, and then the policy takes its turn. -/
theorem dequeue_eq (q : RequestPrioritizer) (score : Score) (nowMs : UInt64) :
    q.dequeue score nowMs = match q.policy with
      | .strict => (q.expireOverdue nowMs).2.dequeueStrict
      | .weightedFair weights => (q.expireOverdue nowMs).2.dequeueWeightedFair score weights
      | .roundRobin => (q.expireOverdue nowMs).2.dequeueRoundRobin := rfl

/-- Whatever the policy, what is overdue is expired and one of the others may be taken. -/
theorem dequeue_cases (q : RequestPrioritizer) (score : Score) (nowMs : UInt64) :
    q.dequeue score nowMs = (none, (q.expireOverdue nowMs).2) ∨
      ∃ level req, Popped (q.expireOverdue nowMs).2 level req (q.dequeue score nowMs) := by
  rw [dequeue_eq]
  cases q.policy with
  | strict =>
    rcases dequeueStrict_cases (q.expireOverdue nowMs).2 with hnone | ⟨level, _, req, _, hp⟩
    · exact Or.inl hnone.1
    · exact Or.inr ⟨level, req, hp⟩
  | weightedFair weights =>
    rcases dequeueWeightedFair_best (q.expireOverdue nowMs).2 score weights with
      hnone | ⟨level, req, hp, _⟩
    · exact Or.inl hnone.1
    · exact Or.inr ⟨level, req, hp⟩
  | roundRobin =>
    rcases dequeueRoundRobin_cases (q.expireOverdue nowMs).2 with hnone | ⟨level, req, _, hp⟩
    · exact Or.inl hnone
    · exact Or.inr ⟨level, req, hp⟩

end Dequeue

end RequestPrioritizer

end HelixRouter.Prioritizing
