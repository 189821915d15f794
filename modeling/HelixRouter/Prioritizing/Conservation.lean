import HelixRouter.Prioritizing.RequestPrioritizer
import HelixRouter.Runs.Stepwise
import Mathlib.Data.UInt

namespace HelixRouter.Prioritizing

open Runs RequestPriority

inductive Op where
  | enqueue (priority : RequestPriority) (payload : String) (deadlineMs : Option UInt64)
    (clientId : String)
  | expireOverdue (nowMs : UInt64)
  | dequeue (nowMs : UInt64)

namespace RequestPrioritizer

/-- The queued requests whose deadline has passed. -/
def overdue (q : RequestPrioritizer) (nowMs : UInt64) : List PrioritizedRequest :=
  descending.flatMap fun level => (q.queues level).filter (·.isOverdue nowMs)

section Queues

variable {q : RequestPrioritizer} {queues : RequestPriority → List PrioritizedRequest}
  {level : RequestPriority} {req : PrioritizedRequest} {rest : List PrioritizedRequest}
  {nowMs : UInt64}

theorem descending_nodup : descending.Nodup := by decide

/-- The queue of one level, and those of the others. -/
theorem flatMap_update_perm (level : RequestPriority) (reqs : List PrioritizedRequest) :
    (descending.flatMap (Function.update queues level reqs)).Perm
      (reqs ++ (descending.erase level).flatMap queues) := by
  have hothers : (descending.erase level).flatMap (Function.update queues level reqs) =
      (descending.erase level).flatMap queues := by
    apply List.flatMap_congr
    intro other hother
    exact Function.update_of_ne (descending_nodup.mem_erase_iff.mp hother).1 _ _
  have hperm := (List.perm_cons_erase (mem_descending level)).flatMap_right
    (Function.update queues level reqs)
  rwa [List.flatMap_cons, Function.update_self, hothers] at hperm

theorem flatMap_perm (level : RequestPriority) : (descending.flatMap queues).Perm
    (queues level ++ (descending.erase level).flatMap queues) := by
  have hperm : (descending.flatMap (Function.update queues level (queues level))).Perm
      (queues level ++ (descending.erase level).flatMap queues) :=
    flatMap_update_perm level (queues level)
  rwa [Function.update_eq_self] at hperm

theorem queued_enqueue (q : RequestPrioritizer) (priority : RequestPriority) (payload : String)
    (deadlineMs : Option UInt64) (clientId : String) :
    (q.enqueue priority payload deadlineMs clientId).2.queued.Perm
      (q.newRequest priority payload deadlineMs clientId :: q.queued) := by
  refine (flatMap_update_perm priority _).trans ?_
  rw [List.append_assoc]
  exact List.perm_middle.trans ((flatMap_perm priority).symm.cons _)

theorem queued_expireOverdue (q : RequestPrioritizer) (nowMs : UInt64) :
    q.queued.Perm ((q.expireOverdue nowMs).2.queued ++ q.overdue nowMs) := by
  have hsplit : ∀ level ∈ descending,
      (q.queues level).Perm ((q.queues level).filter (!·.isOverdue nowMs) ++
        (q.queues level).filter (·.isOverdue nowMs)) := by
    intro level _
    have hperm := List.filter_append_perm (fun req : PrioritizedRequest => !req.isOverdue nowMs)
      (q.queues level)
    simpa using hperm.symm
  exact (List.Perm.flatMap_left _ hsplit).trans (List.flatMap_append_perm _ _ _).symm

theorem expireOverdue_count (q : RequestPrioritizer) (nowMs : UInt64) :
    (q.expireOverdue nowMs).1 = (q.overdue nowMs).length := by
  rw [overdue, List.length_flatMap]
  refine congrArg List.sum (List.map_congr_left fun level _ => ?_)
  have hlen := List.length_eq_length_filter_add (l := q.queues level) (·.isOverdue nowMs)
  dsimp only
  omega

theorem queued_popFront (h : q.queues level = req :: rest) :
    q.queued.Perm (req :: (q.popFront level).2.queued) := by
  rw [popFront_cons h]
  refine (flatMap_perm level).trans ?_
  rw [h, List.cons_append]
  exact (flatMap_update_perm level rest).symm.cons req

end Queues

section Dequeue

variable {q : RequestPrioritizer} {level : RequestPriority} {req : PrioritizedRequest}
  {score : Score} {nowMs : UInt64} {result : Option PrioritizedRequest × RequestPrioritizer}

theorem Popped.queued (hp : Popped q level req result) :
    q.queued.Perm (req :: result.2.queued) := by
  obtain ⟨rest, hfront, hqueues⟩ := hp.front
  have hperm := queued_popFront hfront
  rwa [popFront_cons hfront, RequestPrioritizer.queued, ← hqueues] at hperm

theorem mem_queues_expireOverdue : req ∈ (q.expireOverdue nowMs).2.queues level ↔
    req ∈ q.queues level ∧ req.isOverdue nowMs = false := by
  simp [expireOverdue]

/-- Requests stand in the queue of their level. -/
def Levelled (q : RequestPrioritizer) : Prop :=
  ∀ level, ∀ req ∈ q.queues level, req.priority = level

theorem levelled_new (policy : FairnessPolicy) : (new policy).Levelled :=
  fun _ _ hreq => absurd hreq List.not_mem_nil

theorem mem_queues_enqueue {priority : RequestPriority} {payload : String}
    {deadlineMs : Option UInt64} {clientId : String}
    (h : req ∈ (q.enqueue priority payload deadlineMs clientId).2.queues level) :
    req ∈ q.queues level ∨
      level = priority ∧ req = q.newRequest priority payload deadlineMs clientId := by
  dsimp only [enqueue] at h
  by_cases hlevel : level = priority
  · subst hlevel
    rw [Function.update_self] at h
    exact (List.mem_append.mp h).imp_right fun hnew => ⟨rfl, List.mem_singleton.mp hnew⟩
  · rw [Function.update_of_ne hlevel] at h
    exact Or.inl h

theorem Levelled.enqueue (hl : q.Levelled) (priority : RequestPriority) (payload : String)
    (deadlineMs : Option UInt64) (clientId : String) :
    (q.enqueue priority payload deadlineMs clientId).2.Levelled := by
  intro level req hreq
  rcases mem_queues_enqueue hreq with hold | ⟨hlevel, hnew⟩
  · exact hl level req hold
  · rw [hnew, hlevel]
    rfl

theorem Levelled.expireOverdue (hl : q.Levelled) (nowMs : UInt64) :
    (q.expireOverdue nowMs).2.Levelled := by
  intro level req hreq
  exact hl level req (mem_queues_expireOverdue.mp hreq).1

theorem Popped.levelled (hp : Popped q level req result) (hl : q.Levelled) :
    result.2.Levelled := fun other req' hreq => hl other req' (hp.mem hreq)

theorem Popped.priority (hp : Popped q level req result) (hl : q.Levelled) :
    req.priority = level := by
  obtain ⟨rest, hfront, -⟩ := hp.front
  exact hl level req (hfront ▸ List.mem_cons_self)

theorem Levelled.dequeue (hl : q.Levelled) (score : Score) (nowMs : UInt64) :
    (q.dequeue score nowMs).2.Levelled := by
  rcases q.dequeue_cases score nowMs with hnone | ⟨level, req, hp⟩
  · rw [hnone]
    exact hl.expireOverdue nowMs
  · exact hp.levelled (hl.expireOverdue nowMs)

end Dequeue

end RequestPrioritizer

/-- A queue, and the requests that went in, came out, or expired. -/
structure History where
  queue : RequestPrioritizer
  enqueued : List PrioritizedRequest := []
  returned : List PrioritizedRequest := []
  expired : List PrioritizedRequest := []

namespace History

def start (policy : FairnessPolicy) : History := { queue := .new policy }

def next (score : Score) (h : History) : Op → History
  | .enqueue priority payload deadlineMs clientId =>
    { h with
      queue := (h.queue.enqueue priority payload deadlineMs clientId).2
      enqueued := h.enqueued ++ [h.queue.newRequest priority payload deadlineMs clientId] }
  | .expireOverdue nowMs =>
    { h with
      queue := (h.queue.expireOverdue nowMs).2
      expired := h.expired ++ h.queue.overdue nowMs }
  | .dequeue nowMs =>
    { h with
      queue := (h.queue.dequeue score nowMs).2
      returned := h.returned ++ (h.queue.dequeue score nowMs).1.toList
      expired := h.expired ++ h.queue.overdue nowMs }

def step (score : Score) (h : History) (op : Op) : Option History := some (h.next score op)

/-- The requests of one level. -/
def ofLevel (level : RequestPriority) (reqs : List PrioritizedRequest) : List PrioritizedRequest :=
  reqs.filter (·.priority = level)

/-- Each request is in one place, those of a level in the order in which they came. -/
structure Conserved (h : History) : Prop where
  once : h.enqueued.Perm (h.queue.queued ++ (h.returned ++ h.expired))
  in_order : ∀ level, (ofLevel level h.returned ++ h.queue.queues level).Sublist
    (ofLevel level h.enqueued)
  counted : h.queue.expiredCount = UInt64.ofNat h.expired.length

/-- A request that is returned is not overdue, and under the strict policy none of those that
are not is on a higher level. -/
def ReturnsDue (score : Score) (h : History) : Op → Prop
  | .dequeue nowMs => ∀ req, (h.queue.dequeue score nowMs).1 = some req →
    req ∈ h.queue.queued ∧ req.isOverdue nowMs = false ∧
      (h.queue.policy = .strict → ∀ other ∈ h.queue.queued, other.isOverdue nowMs = false →
        other.priority.level ≤ req.priority.level)
  | _ => True

variable {h : History} {score : Score}

theorem conserved_start (policy : FairnessPolicy) : (start policy).Conserved where
  once := List.Perm.refl _
  in_order _ := List.Sublist.refl _
  counted := rfl

theorem ofLevel_append (level : RequestPriority) (a b : List PrioritizedRequest) :
    ofLevel level (a ++ b) = ofLevel level a ++ ofLevel level b := List.filter_append a b

theorem ofLevel_singleton {level : RequestPriority} {req : PrioritizedRequest}
    (hreq : req.priority = level) : ofLevel level [req] = [req] := by
  simp [ofLevel, hreq]

theorem ofLevel_singleton_of_ne {level : RequestPriority} {req : PrioritizedRequest}
    (hreq : req.priority ≠ level) : ofLevel level [req] = [] := by
  simp [ofLevel, hreq]

theorem Conserved.enqueue (hc : h.Conserved) (priority : RequestPriority) (payload : String)
    (deadlineMs : Option UInt64) (clientId : String) :
    (h.next score (.enqueue priority payload deadlineMs clientId)).Conserved where
  once := by
    refine (List.perm_append_singleton _ _).trans ((hc.once.cons _).trans ?_)
    rw [← List.cons_append]
    exact (h.queue.queued_enqueue priority payload deadlineMs clientId).symm.append_right _
  in_order level := by
    have hold := hc.in_order level
    simp only [next, RequestPrioritizer.enqueue, ofLevel_append]
    by_cases hlevel : level = priority
    · subst hlevel
      have hnew : (h.queue.newRequest level payload deadlineMs clientId).priority = level := rfl
      rw [Function.update_self, ← List.append_assoc, ofLevel_singleton hnew]
      exact hold.append (List.Sublist.refl _)
    · rw [Function.update_of_ne hlevel]
      exact hold.trans (List.sublist_append_left _ _)
  counted := hc.counted

theorem Conserved.expire (hc : h.Conserved) (nowMs : UInt64) :
    (h.next score (.expireOverdue nowMs)).Conserved where
  once := by
    refine hc.once.trans (((h.queue.queued_expireOverdue nowMs).append_right _).trans ?_)
    rw [List.append_assoc]
    refine List.Perm.append_left _ (List.perm_append_comm.trans ?_)
    rw [List.append_assoc]
    exact List.Perm.refl _
  in_order level := (List.filter_sublist.append_left _).trans (hc.in_order level)
  counted := by
    rw [next, List.length_append, UInt64.ofNat_add, ← hc.counted, ← h.queue.expireOverdue_count]
    rfl

/-- To dequeue is to expire what is overdue and to take the front of a level. -/
theorem Conserved.pop (hc : h.Conserved) (hl : h.queue.Levelled) {level : RequestPriority}
    {req : PrioritizedRequest} {result : Option PrioritizedRequest × RequestPrioritizer}
    (hp : h.queue.Popped level req result) :
    Conserved { h with queue := result.2, returned := h.returned ++ [req] } where
  once := by
    refine hc.once.trans ((hp.queued.append_right _).trans ?_)
    rw [List.cons_append, List.append_assoc, List.singleton_append]
    exact List.perm_middle.symm.trans (List.Perm.append_left _ List.perm_middle.symm)
  in_order level' := by
    obtain ⟨rest, hfront, hqueues⟩ := hp.front
    have hreq := hp.priority hl
    refine List.Sublist.trans ?_ (hc.in_order level')
    dsimp only
    rw [hqueues, ofLevel_append]
    by_cases hlevel : level' = level
    · subst hlevel
      rw [Function.update_self, hfront, ofLevel_singleton hreq, List.append_assoc]
      exact List.Sublist.refl _
    · rw [Function.update_of_ne hlevel, ofLevel_singleton_of_ne (hreq.trans_ne (Ne.symm hlevel)),
        List.append_nil]
  counted := hp.expired.trans hc.counted

theorem Conserved.next (hc : h.Conserved) (hl : h.queue.Levelled) (op : Op) :
    (h.next score op).Conserved := by
  cases op with
  | enqueue priority payload deadlineMs clientId =>
    exact hc.enqueue priority payload deadlineMs clientId
  | expireOverdue nowMs => exact hc.expire nowMs
  | dequeue nowMs =>
    have hexpired : (h.next score (.expireOverdue nowMs)).Conserved := hc.expire nowMs
    rw [History.next]
    rcases h.queue.dequeue_cases score nowMs with hnone | ⟨level, req, hp⟩
    · rw [hnone, Option.toList_none, List.append_nil]
      exact hexpired
    · have hpopped := hexpired.pop (hl.expireOverdue nowMs) hp
      rw [hp.returned]
      exact hpopped

theorem level_le_of_descending {level other : RequestPriority} {others : List RequestPriority}
    {q : RequestPrioritizer} (hl : q.levels = level :: others) (ho : other ∈ q.levels) :
    other.level ≤ level.level := by
  have hsorted : descending.Pairwise fun a b => b.level ≤ a.level := by decide
  have hlevels : q.levels.Pairwise fun a b => b.level ≤ a.level :=
    hsorted.sublist List.filter_sublist
  rw [hl] at hlevels ho
  rcases List.mem_cons.mp ho with rfl | hin
  · exact Nat.le_refl _
  · exact (List.pairwise_cons.mp hlevels).1 other hin

theorem levelled_next (hl : h.queue.Levelled) (op : Op) : (h.next score op).queue.Levelled := by
  cases op with
  | enqueue priority payload deadlineMs clientId =>
    exact hl.enqueue priority payload deadlineMs clientId
  | expireOverdue nowMs => exact hl.expireOverdue nowMs
  | dequeue nowMs => exact hl.dequeue score nowMs

theorem returnsDue_of_levelled (hl : h.queue.Levelled) (op : Op) : h.ReturnsDue score op := by
  cases op with
  | enqueue priority payload deadlineMs clientId => trivial
  | expireOverdue nowMs => trivial
  | dequeue nowMs =>
    intro req hreq
    have hmem : ∀ {level req rest}, (h.queue.expireOverdue nowMs).2.queues level = req :: rest →
        req ∈ h.queue.queued ∧ req.isOverdue nowMs = false := by
      intro level req rest hfront
      have hin : req ∈ (h.queue.expireOverdue nowMs).2.queues level :=
        hfront ▸ List.mem_cons_self
      obtain ⟨hold, hdue⟩ := RequestPrioritizer.mem_queues_expireOverdue.mp hin
      exact ⟨RequestPrioritizer.mem_queued.mpr ⟨level, hold⟩, hdue⟩
    refine and_assoc.mp ⟨?_, fun hstrict other hother hdue => ?_⟩
    · rcases h.queue.dequeue_cases score nowMs with hnone | ⟨level, first, hp⟩
      · rw [hnone] at hreq
        cases hreq
      · obtain ⟨rest, hfront, -⟩ := hp.front
        cases hp.returned.symm.trans hreq
        exact hmem hfront
    · rw [RequestPrioritizer.dequeue_eq, hstrict] at hreq
      rcases (h.queue.expireOverdue nowMs).2.dequeueStrict_cases with
        ⟨hnone, -⟩ | ⟨level, others, first, hlevels, hp⟩
      · rw [hnone] at hreq
        cases hreq
      · cases hp.returned.symm.trans hreq
        obtain ⟨otherLevel, hin⟩ := RequestPrioritizer.mem_queued.mp hother
        have hkept := RequestPrioritizer.mem_queues_expireOverdue.mpr ⟨hin, hdue⟩
        rw [hl otherLevel other hin, hp.priority (hl.expireOverdue nowMs)]
        exact level_le_of_descending hlevels
          (RequestPrioritizer.mem_levels.mpr (List.ne_nil_of_mem hkept))

end History

open History

/-- Under every policy, and however candidates are scored, requests are neither lost nor handed
out twice, and what is handed out is due. -/
theorem requests_conserved (score : Score) (policy : FairnessPolicy) (ops : List Op) :
    Throughout (step score) Conserved (start policy) ops ∧
      EachStep (step score) (ReturnsDue score) (start policy) ops := by
  have hsound : Throughout (step score) (fun h => h.Conserved ∧ h.queue.Levelled) (start policy)
      ops := by
    refine throughout_of_step
      ⟨conserved_start policy, RequestPrioritizer.levelled_new policy⟩ ?_
    rintro h op h' ⟨hc, hl⟩ hstep
    cases hstep
    exact ⟨hc.next hl op, levelled_next hl op⟩
  exact ⟨hsound.imp fun h hs => hs.1,
    hsound.eachStep fun h op _ h' hs _ _ => returnsDue_of_levelled hs.2 op⟩

end HelixRouter.Prioritizing
