import HelixRouter.Prioritizing.Conservation

namespace HelixRouter.Prioritizing

open Runs RequestPriority

/-- How many levels down a level is from another, where the highest comes after the lowest. -/
def turnsTo (last level : RequestPriority) : Nat := (last.level + 4 - level.level) % 5 + 1

section Turns

variable {a b c : RequestPriority}

theorem level_le (a : RequestPriority) : a.level ≤ 4 := by
  cases a <;> decide

theorem turnsTo_pos : 0 < turnsTo a b := Nat.succ_pos _

theorem turnsTo_le : turnsTo a b ≤ 5 := by
  unfold turnsTo
  omega

theorem turnsTo_lt (h : a ≠ b) : turnsTo a b < 5 := by
  have hne : a.level ≠ b.level := fun heq => h (level_inj heq)
  have ha := level_le a
  have hb := level_le b
  unfold turnsTo
  omega

/-- From a level on the way the rest of the way is left. -/
theorem turnsTo_add (h : turnsTo a b ≤ turnsTo a c) (hne : b ≠ c) :
    turnsTo a b + turnsTo b c = turnsTo a c := by
  have hlevel : b.level ≠ c.level := fun heq => hne (level_inj heq)
  have ha := level_le a
  have hb := level_le b
  have hc := level_le c
  unfold turnsTo at h ⊢
  omega

end Turns

/-- A queue, the level that was served last, the levels that were passed over then and have not
been empty since, and how many have been served in a row while a level was not and was not empty. -/
structure Rotation where
  queue : RequestPrioritizer
  last : Option RequestPriority := none
  passedOver : RequestPriority → Bool := fun _ => false
  waited : RequestPriority → Nat := fun _ => 0

namespace Rotation

def start : Rotation := { queue := .new .roundRobin }

/-- A level that is empty does not wait. -/
def settle (t : Rotation) (queue : RequestPrioritizer) : Rotation where
  queue := queue
  last := t.last
  passedOver level := t.passedOver level && !(queue.queues level).isEmpty
  waited level := if (queue.queues level).isEmpty then 0 else t.waited level

/-- The levels that are not empty and not served wait. -/
def serve (t : Rotation) (queue : RequestPrioritizer) (served : RequestPriority) : Rotation where
  queue := queue
  last := some served
  passedOver level := level ≠ served && !(queue.queues level).isEmpty
  waited level :=
    if level = served || (queue.queues level).isEmpty then 0 else t.waited level + 1

def next (score : Score) (t : Rotation) : Op → Rotation
  | .enqueue priority payload deadlineMs clientId =>
    { t with queue := (t.queue.enqueue priority payload deadlineMs clientId).2 }
  | .expireOverdue nowMs => t.settle (t.queue.expireOverdue nowMs).2
  | .dequeue nowMs =>
    match t.queue.dequeue score nowMs with
    | (some req, queue) => t.serve queue req.priority
    | (none, queue) => t.settle queue

def step (score : Score) (t : Rotation) (op : Op) : Option Rotation := some (t.next score op)

/-- No level that stays non-empty is passed over five times in a row. -/
def NotStarved (t : Rotation) : Prop := ∀ level, t.waited level < 5

/-- The level that the cursor points at. -/
def pointed (queue : RequestPrioritizer) : Option RequestPriority :=
  queue.levels[queue.rrCursor % queue.levels.length]?

/-- A level that was passed over the last time does not stand between the level that was served
then and the one that the cursor points at. -/
def InTurn (t : Rotation) : Op → Prop
  | .dequeue nowMs =>
    ∀ last level, t.last = some last → pointed (t.queue.expireOverdue nowMs).2 = some level →
      ∀ other ∈ (t.queue.expireOverdue nowMs).2.levels, t.passedOver other = true →
        turnsTo last level ≤ turnsTo last other
  | _ => True

/-- A level that waits gets its turn. -/
structure Fair (t : Rotation) : Prop where
  policy : t.queue.policy = .roundRobin
  levelled : t.queue.Levelled
  turn : ∀ level last, t.last = some last → t.waited level + turnsTo last level ≤ 5
  passed : ∀ level, t.passedOver level = false → t.waited level = 0
  first : t.last = none → ∀ level, t.passedOver level = false

variable {t : Rotation} {score : Score} {nowMs : UInt64} {op : Op}

theorem fair_start : start.Fair where
  policy := rfl
  levelled := RequestPrioritizer.levelled_new _
  turn _ _ h := nomatch h
  passed _ _ := rfl
  first _ _ := rfl

theorem Fair.notStarved (hf : t.Fair) : t.NotStarved := by
  intro level
  cases hlast : t.last with
  | none =>
    rw [hf.passed level (hf.first hlast level)]
    decide
  | some last =>
    have hturn := hf.turn level last hlast
    have hpos := turnsTo_pos (a := last) (b := level)
    omega

theorem Fair.settle (hf : t.Fair) {queue : RequestPrioritizer} (hp : queue.policy = .roundRobin)
    (hl : queue.Levelled) : (t.settle queue).Fair where
  policy := hp
  levelled := hl
  turn level last hlast := by
    have hturn := hf.turn level last hlast
    dsimp only [Rotation.settle]
    split
    · exact (Nat.zero_add _).trans_le turnsTo_le
    · exact hturn
  passed level hpassed := by
    dsimp only [Rotation.settle] at hpassed ⊢
    split
    · rfl
    · rename_i hempty
      apply hf.passed level
      simpa [hempty] using hpassed
  first hlast level := by
    dsimp only [Rotation.settle]
    rw [hf.first hlast level]
    rfl

theorem Fair.serve (hf : t.Fair) {queue : RequestPrioritizer} {served : RequestPriority}
    (hp : queue.policy = .roundRobin) (hl : queue.Levelled)
    (hturn : ∀ last, t.last = some last → ∀ other, t.passedOver other = true →
      queue.queues other ≠ [] → other ≠ served → turnsTo last served ≤ turnsTo last other) :
    (t.serve queue served).Fair where
  policy := hp
  levelled := hl
  turn level last hlast := by
    cases hlast
    dsimp only [Rotation.serve]
    split
    · exact (Nat.zero_add _).trans_le turnsTo_le
    · rename_i hwaits
      rw [Bool.or_eq_true, decide_eq_true_eq, List.isEmpty_iff, not_or] at hwaits
      obtain ⟨hne, hnonempty⟩ := hwaits
      have hlt := turnsTo_lt (Ne.symm hne)
      cases hpassed : t.passedOver level with
      | false =>
        rw [hf.passed level hpassed]
        omega
      | true =>
        -- a level that has waited is nearer now
        cases hlast : t.last with
        | none => exact absurd hpassed (by simp [hf.first hlast level])
        | some last =>
          have hadd := turnsTo_add (hturn last hlast level hpassed hnonempty hne) (Ne.symm hne)
          have hold := hf.turn level last hlast
          have hpos := turnsTo_pos (a := last) (b := served)
          omega
  passed level hpassed := by
    dsimp only [Rotation.serve] at hpassed ⊢
    rw [if_pos]
    by_cases hserved : level = served
    · simp [hserved]
    · simpa [hserved] using hpassed
  first hlast := nomatch hlast

theorem Fair.next (hf : t.Fair) (hturn : t.InTurn op) : (t.next score op).Fair := by
  cases op with
  | enqueue priority payload deadlineMs clientId =>
    exact ⟨hf.policy, hf.levelled.enqueue priority payload deadlineMs clientId, hf.turn, hf.passed,
      hf.first⟩
  | expireOverdue nowMs => exact hf.settle hf.policy (hf.levelled.expireOverdue nowMs)
  | dequeue nowMs =>
    have hlevelled := hf.levelled.expireOverdue nowMs
    rw [Rotation.next, RequestPrioritizer.dequeue_eq, hf.policy]
    dsimp only
    rcases (t.queue.expireOverdue nowMs).2.dequeueRoundRobin_cases with
      hnone | ⟨level, req, hget, hp⟩
    · rw [hnone]
      exact hf.settle hf.policy hlevelled
    · have hreq := hp.priority hlevelled
      have hresult : (t.queue.expireOverdue nowMs).2.dequeueRoundRobin =
          (some req, (t.queue.expireOverdue nowMs).2.dequeueRoundRobin.2) :=
        Prod.ext hp.returned rfl
      rw [hresult]
      refine hf.serve (hp.policy.trans hf.policy) (hp.levelled hlevelled) ?_
      intro last hlast other hpassed hnonempty hne
      rw [hreq] at hne ⊢
      obtain ⟨rest, -, hqueues⟩ := hp.front
      rw [hqueues, Function.update_of_ne hne] at hnonempty
      exact hturn last level hlast hget other (RequestPrioritizer.mem_levels.mpr hnonempty) hpassed

end Rotation

open Rotation

/-- In a run in which every level comes in its turn, a level that stays non-empty is served at
least once in five. -/
theorem round_robin_serves_all (score : Score) (ops : List Op)
    (h : EachStep (step score) InTurn start ops) :
    Throughout (step score) NotStarved start ops := by
  have hfair : Throughout (step score) Fair start ops := by
    refine h.throughout fair_start fun t op t' hf hturn hstep => ?_
    cases hstep
    exact hf.next hturn
  exact hfair.imp fun t hf => hf.notStarved

/-- Two levels are filled, and both are served. -/
def filled : List Op :=
  [.enqueue .low "" none "a", .enqueue .high "" none "a", .dequeue 0, .dequeue 0]

theorem round_robin_serves_all_filled :
    Throughout (step exactScore) NotStarved start filled := by
  apply round_robin_serves_all
  rintro t₁ ⟨⟩
  refine ⟨trivial, ?_⟩
  rintro t₂ ⟨⟩
  refine ⟨trivial, ?_⟩
  rintro t₃ ⟨⟩
  refine ⟨?_, ?_⟩
  · intro last level hlast
    cases hlast
  · rintro t₄ ⟨⟩
    refine ⟨?_, ?_⟩
    · intro last level hlast hlevel other hother _
      have hlevels : other = .low := List.mem_singleton.mp hother
      have hpointed : level = .low := (Option.some.inj hlevel).symm
      rw [hlevels, hpointed]
    · trivial

/-- What is served is filled again, and the level below is passed over. -/
def overtaken : List Op :=
  [.enqueue .normal "" none "a", .enqueue .critical "" none "a", .dequeue 0,
    .enqueue .critical "" none "a", .enqueue .high "" none "a", .dequeue 0, .dequeue 0,
    .enqueue .critical "" none "a", .enqueue .high "" none "a", .dequeue 0, .dequeue 0]

theorem overtaken_starves : ¬ Throughout (step exactScore) NotStarved start overtaken := by
  intro h
  have hlast : (exec (step exactScore) start overtaken).map (·.waited .normal) = some 5 := by
    decide
  obtain ⟨t, ht, hwaited⟩ := Option.map_eq_some_iff.mp hlast
  have hless := h.last ht .normal
  omega

end HelixRouter.Prioritizing
