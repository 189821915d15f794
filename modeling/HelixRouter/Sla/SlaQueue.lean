import HelixRouter.Containers.BinaryHeap
import HelixRouter.Containers.Retain
import HelixRouter.Router.Types
import HelixRouter.Runs.Stepwise

namespace HelixRouter.Sla

open Runs

inductive SlaClass where
  | critical
  | high
  | normal
  | batch
  deriving DecidableEq

def SlaClass.slaMs : SlaClass → UInt64
  | .critical => 50
  | .high => 200
  | .normal => 1000
  | .batch => 10000

def SlaClass.basePriority : SlaClass → Int64
  | .critical => 4000
  | .high => 3000
  | .normal => 2000
  | .batch => 1000

def nanosPerMilli : Nat := 1000000

/-- Whole milliseconds between two readings, none where the first is the later one. -/
def elapsedMillis (since now : Instant) : Nat := (now - since) / nanosPerMilli

structure SlaJob where
  job : Job
  slaClass : SlaClass
  enqueuedAt : Instant
  effectivePriority : Int64

namespace SlaJob

def new (job : Job) (slaClass : SlaClass) (now : Instant) : SlaJob where
  job := job
  slaClass := slaClass
  enqueuedAt := now
  effectivePriority := slaClass.basePriority

/-- In words: an age beyond what a word holds wraps around. -/
def rescore (sj : SlaJob) (now : Instant) : SlaJob :=
  let elapsedMs := Int64.ofNat (elapsedMillis sj.enqueuedAt now)
  let slaMs := sj.slaClass.slaMs.toInt64
  let ageBoost := if slaMs > 0 then elapsedMs * 1000 / slaMs else 0
  { sj with effectivePriority := sj.slaClass.basePriority + ageBoost }

def isExpired (sj : SlaJob) (now : Instant) : Bool :=
  UInt64.ofNat (elapsedMillis sj.enqueuedAt now) > sj.slaClass.slaMs

/-- How jobs compare: by the priority they were last scored with. -/
def priority (sj : SlaJob) : ℤ := sj.effectivePriority.toInt

/-- What stays of a job when it is scored again. -/
def ticket (sj : SlaJob) : Job × SlaClass × Instant := (sj.job, sj.slaClass, sj.enqueuedAt)

end SlaJob

structure ClassStats where
  enqueued : Nat := 0
  dequeued : Nat := 0
  expired : Nat := 0

structure SlaQueue (B : BinaryHeap SlaJob SlaJob.priority) where
  heap : B.Heap := B.empty
  totalEnqueued : Nat := 0
  totalDequeued : Nat := 0
  totalExpired : Nat := 0
  classStats : AList (fun _ : SlaClass => ClassStats) := ∅

namespace SlaQueue

variable {B : BinaryHeap SlaJob SlaJob.priority}

def new (B : BinaryHeap SlaJob SlaJob.priority) : SlaQueue B where
  classStats := (((AList.singleton SlaClass.critical ({} : ClassStats)).insert .high {}).insert
    .normal {}).insert .batch {}

/-- Changes the statistics of a class, if there are any. -/
def updateStats (q : SlaQueue B) (slaClass : SlaClass) (f : ClassStats → ClassStats) :
    SlaQueue B :=
  match q.classStats.lookup slaClass with
  | none => q
  | some cs => { q with classStats := q.classStats.insert slaClass (f cs) }

def push (q : SlaQueue B) (job : Job) (slaClass : SlaClass) (now : Instant) : SlaQueue B :=
  let q := { q with totalEnqueued := q.totalEnqueued + 1 }
  let q := q.updateStats slaClass fun cs => { cs with enqueued := cs.enqueued + 1 }
  { q with heap := B.push q.heap (SlaJob.new job slaClass now) }

/-- Every job is scored again before the first one is taken. -/
def pop (q : SlaQueue B) (now : Instant) : Option SlaJob × SlaQueue B :=
  if (B.items q.heap).isEmpty then (none, q)
  else
    let all := (B.drain q.heap).map (·.rescore now)
    match B.pop (B.extend B.empty all) with
    | none => (none, { q with heap := B.extend B.empty all })
    | some (sj, heap) =>
      let q := { q with heap := heap, totalDequeued := q.totalDequeued + 1 }
      (some sj, q.updateStats sj.slaClass fun cs => { cs with dequeued := cs.dequeued + 1 })

/-- Takes out all jobs that are past their time. -/
def expired (q : SlaQueue B) (now : Instant) : List SlaJob × SlaQueue B :=
  let drained := B.drain q.heap
  let remaining := drained.filter (fun sj => !sj.isExpired now)
  let expired := drained.filter (·.isExpired now)
  let q := expired.foldl (fun q sj =>
    ({ q with totalExpired := q.totalExpired + 1 } : SlaQueue B).updateStats sj.slaClass
      fun cs => { cs with expired := cs.expired + 1 }) q
  (expired, { q with heap := B.extend B.empty remaining })

def len (q : SlaQueue B) : Nat := (B.items q.heap).length

end SlaQueue

inductive Op where
  | push (job : Job) (slaClass : SlaClass) (now : Instant)
  | pop (now : Instant)
  | expired (now : Instant)

/-- A queue, and the jobs it has been given and has given back. -/
structure History (B : BinaryHeap SlaJob SlaJob.priority) where
  queue : SlaQueue B
  pushed : List SlaJob := []
  popped : List SlaJob := []
  expired : List SlaJob := []

def start (B : BinaryHeap SlaJob SlaJob.priority) : History B := { queue := .new B }

def step {B : BinaryHeap SlaJob SlaJob.priority} (h : History B) : Op → Option (History B)
  | .push job slaClass now =>
    some { h with
      queue := h.queue.push job slaClass now
      pushed := h.pushed ++ [SlaJob.new job slaClass now] }
  | .pop now =>
    let (sj, queue) := h.queue.pop now
    some { h with queue := queue, popped := h.popped ++ sj.toList }
  | .expired now =>
    let (out, queue) := h.queue.expired now
    some { h with queue := queue, expired := h.expired ++ out }

/-- Past its time, by its age in whole milliseconds, as a word counts them. -/
def SlaJob.Overdue (sj : SlaJob) (now : Instant) : Prop :=
  sj.slaClass.slaMs.toNat < elapsedMillis sj.enqueuedAt now % 2 ^ 64

/-- Past its time, to the nanosecond. -/
def SlaJob.Late (sj : SlaJob) (now : Instant) : Prop :=
  sj.slaClass.slaMs.toNat * nanosPerMilli < now - sj.enqueuedAt

instance (sj : SlaJob) (now : Instant) : Decidable (sj.Overdue now) :=
  inferInstanceAs (Decidable (_ < _))

instance (sj : SlaJob) (now : Instant) : Decidable (sj.Late now) :=
  inferInstanceAs (Decidable (_ < _))

theorem SlaJob.isExpired_iff (sj : SlaJob) (now : Instant) :
    sj.isExpired now = true ↔ sj.Overdue now := by
  rw [SlaJob.isExpired, decide_eq_true_iff, gt_iff_lt, UInt64.lt_iff_toNat_lt,
    UInt64.toNat_ofNat']
  rfl

def inClass (c : SlaClass) (jobs : List SlaJob) : Nat := jobs.countP (·.slaClass = c)

variable {B : BinaryHeap SlaJob SlaJob.priority}

def History.queued (h : History B) : List SlaJob := B.items h.queue.heap

/-- A call that takes out what is past its time takes out just that, by some measure of it. -/
def TakesOut (late : SlaJob → Instant → Prop) [∀ sj now, Decidable (late sj now)]
    (h : History B) (now : Instant) : Prop :=
  let (out, queue) := h.queue.expired now
  out.Perm (h.queued.filter (late · now)) ∧
    (B.items queue.heap).Perm (h.queued.filter (¬ late · now))

/-- What a call does with the jobs: one that takes the first takes one whose priority, all
scored anew, is greatest, and no other. -/
def Correct (late : SlaJob → Instant → Prop) [∀ sj now, Decidable (late sj now)] (h : History B) :
    Op → Prop
  | .push job slaClass now =>
    (B.items (h.queue.push job slaClass now).heap).Perm (SlaJob.new job slaClass now :: h.queued)
  | .pop now =>
    match h.queue.pop now with
    | (none, queue) => h.queued = [] ∧ queue = h.queue
    | (some sj, queue) =>
      (h.queued.map (·.rescore now)).Perm (sj :: B.items queue.heap) ∧
        ∀ other ∈ h.queued, (other.rescore now).priority ≤ sj.priority
  | .expired now => TakesOut late h now

/-- Every job that was pushed has been popped, taken out or is queued, and the counters say so. -/
structure Balanced (h : History B) : Prop where
  conserved : (h.pushed.map SlaJob.ticket).Perm
    ((h.popped ++ h.expired ++ h.queued).map SlaJob.ticket)
  inTotal : h.queue.totalEnqueued = h.pushed.length ∧
    h.queue.totalEnqueued = h.queue.totalDequeued + h.queue.totalExpired + h.queue.len
  perClass : ∀ c, ∃ cs, h.queue.classStats.lookup c = some cs ∧ cs.enqueued = inClass c h.pushed ∧
    cs.enqueued = cs.dequeued + cs.expired + inClass c h.queued

/-- What the counters say, call by call. -/
structure Kept (h : History B) : Prop where
  conserved : (h.pushed.map SlaJob.ticket).Perm
    ((h.popped ++ h.expired ++ h.queued).map SlaJob.ticket)
  totals : h.queue.totalEnqueued = h.pushed.length ∧
    h.queue.totalDequeued = h.popped.length ∧ h.queue.totalExpired = h.expired.length
  stats : ∀ c, h.queue.classStats.lookup c =
    some ⟨inClass c h.pushed, inClass c h.popped, inClass c h.expired⟩

section Counting

variable {c c' : SlaClass} {jobs jobs' : List SlaJob}

theorem inClass_append : inClass c (jobs ++ jobs') = inClass c jobs + inClass c jobs' :=
  List.countP_append

theorem inClass_single (sj : SlaJob) : inClass c [sj] = if c = sj.slaClass then 1 else 0 := by
  by_cases h : c = sj.slaClass
  · simp [inClass, h]
  · simp [inClass, h, Ne.symm h]

/-- The class of a job is on its ticket. -/
theorem inClass_ticket (c : SlaClass) (jobs : List SlaJob) :
    inClass c jobs = (jobs.map SlaJob.ticket).countP (·.2.1 = c) := by
  rw [List.countP_map]
  rfl

theorem Kept.balanced {h : History B} (hk : Kept h) : Balanced h := by
  refine ⟨hk.conserved, ⟨hk.totals.1, ?_⟩, fun c => ⟨_, hk.stats c, rfl, ?_⟩⟩
  · have hlen := hk.conserved.length_eq
    rw [List.length_map, List.length_map, List.length_append, List.length_append] at hlen
    rw [hk.totals.1, hk.totals.2.1, hk.totals.2.2, hlen]
    rfl
  · have hcount := hk.conserved.countP_eq (·.2.1 = c)
    rw [← inClass_ticket, ← inClass_ticket, inClass_append, inClass_append] at hcount
    exact hcount

end Counting

namespace SlaQueue

variable {q : SlaQueue B} {c c' : SlaClass} {f : ClassStats → ClassStats}

/-- Only the statistics of one class change. -/
theorem updateStats_spec (q : SlaQueue B) (c : SlaClass) (f : ClassStats → ClassStats) :
    (q.updateStats c f).heap = q.heap ∧ (q.updateStats c f).totalEnqueued = q.totalEnqueued ∧
      (q.updateStats c f).totalDequeued = q.totalDequeued ∧
      (q.updateStats c f).totalExpired = q.totalExpired ∧
      ∀ c', (q.updateStats c f).classStats.lookup c' =
        if c' = c then (q.classStats.lookup c').map f else q.classStats.lookup c' := by
  unfold updateStats
  cases hl : q.classStats.lookup c with
  | none =>
    refine ⟨rfl, rfl, rfl, rfl, fun c' => ?_⟩
    by_cases hc : c' = c
    · subst hc
      rw [if_pos rfl, hl]
      rfl
    · rw [if_neg hc]
  | some cs =>
    refine ⟨rfl, rfl, rfl, rfl, fun c' => ?_⟩
    by_cases hc : c' = c
    · subst hc
      rw [if_pos rfl, hl]
      exact AList.lookup_insert _
    · rw [if_neg hc]
      exact AList.lookup_insert_ne hc

/-- Jobs that are taken out are counted one by one. -/
theorem countExpired_spec (jobs : List SlaJob) (q : SlaQueue B) :
    let q' := jobs.foldl (fun q sj =>
      ({ q with totalExpired := q.totalExpired + 1 } : SlaQueue B).updateStats sj.slaClass
        fun cs => { cs with expired := cs.expired + 1 }) q
    q'.totalEnqueued = q.totalEnqueued ∧ q'.totalDequeued = q.totalDequeued ∧
      q'.totalExpired = q.totalExpired + jobs.length ∧
      ∀ c, q'.classStats.lookup c = (q.classStats.lookup c).map
        fun cs => { cs with expired := cs.expired + inClass c jobs } := by
  induction jobs generalizing q with
  | nil => exact ⟨rfl, rfl, rfl, fun c => by simp [inClass]⟩
  | cons sj jobs ih =>
    obtain ⟨-, henq, hdeq, hexp, hstats⟩ := updateStats_spec
      ({ q with totalExpired := q.totalExpired + 1 } : SlaQueue B) sj.slaClass
      (fun cs => { cs with expired := cs.expired + 1 })
    obtain ⟨henq', hdeq', hexp', hstats'⟩ := ih (({ q with totalExpired := q.totalExpired + 1 } :
      SlaQueue B).updateStats sj.slaClass fun cs => { cs with expired := cs.expired + 1 })
    refine ⟨henq'.trans henq, hdeq'.trans hdeq, ?_, fun c => ?_⟩
    · rw [List.foldl_cons, hexp', hexp, List.length_cons]
      change q.totalExpired + 1 + jobs.length = _
      omega
    · rw [List.foldl_cons, hstats', hstats, ← List.singleton_append, inClass_append, inClass_single]
      by_cases hc : c = sj.slaClass
      · rw [if_pos hc, if_pos hc, Option.map_map]
        congr 1
        funext cs
        simp [Nat.add_assoc]
      · rw [if_neg hc, if_neg hc, Nat.zero_add]

/-- A call of `pop` finds nothing exactly where there is nothing. -/
theorem pop_spec (q : SlaQueue B) (now : Instant) :
    (B.items q.heap = [] ∧ q.pop now = (none, q)) ∨ ∃ sj queue, q.pop now = (some sj, queue) ∧
      ((B.items q.heap).map (·.rescore now)).Perm (sj :: B.items queue.heap) ∧
      (∀ other ∈ B.items q.heap, (other.rescore now).priority ≤ sj.priority) ∧
      queue.totalEnqueued = q.totalEnqueued ∧ queue.totalDequeued = q.totalDequeued + 1 ∧
      queue.totalExpired = q.totalExpired ∧
      ∀ c, queue.classStats.lookup c = if c = sj.slaClass then
        (q.classStats.lookup c).map (fun cs => { cs with dequeued := cs.dequeued + 1 })
      else q.classStats.lookup c := by
  by_cases hempty : (B.items q.heap).isEmpty
  · exact .inl ⟨List.isEmpty_iff.mp hempty, if_pos hempty⟩
  · have hall := B.items_refill ((B.drain q.heap).map (·.rescore now))
    replace hall := hall.trans ((B.drain_perm q.heap).map (·.rescore now))
    cases hpop : B.pop (B.extend B.empty ((B.drain q.heap).map (·.rescore now))) with
    | none =>
      rw [B.pop_none _ hpop] at hall
      exact absurd (List.map_eq_nil_iff.mp hall.nil_eq.symm) (mt List.isEmpty_iff.mpr hempty)
    | some popped =>
      obtain ⟨sj, heap⟩ := popped
      obtain ⟨hperm, hmax⟩ := B.pop_some _ _ _ hpop
      obtain ⟨hheap, henq, hdeq, hexp, hstats⟩ := updateStats_spec
        ({ q with heap := heap, totalDequeued := q.totalDequeued + 1 } : SlaQueue B) sj.slaClass
        (fun cs => { cs with dequeued := cs.dequeued + 1 })
      have hresult : q.pop now = (some sj, ({ q with
          heap := heap, totalDequeued := q.totalDequeued + 1 } : SlaQueue B).updateStats sj.slaClass
            fun cs => { cs with dequeued := cs.dequeued + 1 }) := by
        simp only [pop, if_neg hempty, hpop]
      refine .inr ⟨sj, _, hresult, ?_, fun other hother => ?_, henq, hdeq, hexp, hstats⟩
      · rw [hheap]
        exact hall.symm.trans hperm
      · exact hmax _ (hall.mem_iff.mpr (List.mem_map_of_mem hother))

theorem push_spec (q : SlaQueue B) (job : Job) (slaClass : SlaClass) (now : Instant) :
    (B.items (q.push job slaClass now).heap).Perm
        (SlaJob.new job slaClass now :: B.items q.heap) ∧
      (q.push job slaClass now).totalEnqueued = q.totalEnqueued + 1 ∧
      (q.push job slaClass now).totalDequeued = q.totalDequeued ∧
      (q.push job slaClass now).totalExpired = q.totalExpired ∧
      ∀ c, (q.push job slaClass now).classStats.lookup c = if c = slaClass then
        (q.classStats.lookup c).map (fun cs => { cs with enqueued := cs.enqueued + 1 })
      else q.classStats.lookup c := by
  obtain ⟨hheap, henq, hdeq, hexp, hstats⟩ := updateStats_spec
    ({ q with totalEnqueued := q.totalEnqueued + 1 } : SlaQueue B) slaClass
    (fun cs => { cs with enqueued := cs.enqueued + 1 })
  refine ⟨?_, henq, hdeq, hexp, hstats⟩
  have hitems := B.items_push q.heap (SlaJob.new job slaClass now)
  exact hheap ▸ hitems

theorem expired_spec (q : SlaQueue B) (now : Instant) : ∃ out queue,
    q.expired now = (out, queue) ∧ out.Perm ((B.items q.heap).filter (·.Overdue now)) ∧
      (B.items queue.heap).Perm ((B.items q.heap).filter (¬ ·.Overdue now)) ∧
      queue.totalEnqueued = q.totalEnqueued ∧ queue.totalDequeued = q.totalDequeued ∧
      queue.totalExpired = q.totalExpired + out.length ∧
      ∀ c, queue.classStats.lookup c = (q.classStats.lookup c).map
        fun cs => { cs with expired := cs.expired + inClass c out } := by
  have hdrain := B.drain_perm q.heap
  have hexpired : ∀ sj : SlaJob, sj.isExpired now = decide (sj.Overdue now) := by
    intro sj
    rw [Bool.eq_iff_iff, sj.isExpired_iff, decide_eq_true_iff]
  obtain ⟨henq, hdeq, hexp, hstats⟩ :=
    countExpired_spec ((B.drain q.heap).filter (·.isExpired now)) q
  refine ⟨_, _, rfl, ?_, (B.items_refill _).trans ?_, henq, hdeq, hexp, hstats⟩
  · simp only [hexpired]
    exact hdrain.filter _
  · simp only [hexpired, decide_not]
    exact hdrain.filter _

end SlaQueue

open SlaQueue

variable {h h' : History B} {job : Job} {slaClass : SlaClass} {now : Instant}

theorem kept_start (B : BinaryHeap SlaJob SlaJob.priority) : Kept (start B) := by
  refine ⟨?_, ⟨rfl, rfl, rfl⟩, fun c => by cases c <;> rfl⟩
  have hempty : (start B).queued = [] := B.items_empty
  rw [hempty]
  exact List.Perm.refl _

theorem Kept.push (hk : Kept h) (hs : step h (.push job slaClass now) = some h') :
    Correct SlaJob.Overdue h (.push job slaClass now) ∧ Kept h' := by
  obtain ⟨hperm, henq, hdeq, hexp, hstats⟩ := push_spec h.queue job slaClass now
  cases hs
  refine ⟨hperm, ?_, ⟨?_, hdeq.trans hk.totals.2.1, hexp.trans hk.totals.2.2⟩, fun c => ?_⟩
  · have hold := hk.conserved.append_right [(SlaJob.new job slaClass now).ticket]
    rw [← List.map_singleton, ← List.map_append, ← List.map_append, List.append_assoc] at hold
    have hlast := (List.perm_append_singleton (SlaJob.new job slaClass now) h.queued).trans
      hperm.symm
    exact hold.trans ((hlast.append_left _).map SlaJob.ticket)
  · rw [henq, hk.totals.1, List.length_append, List.length_singleton]
  · rw [hstats, hk.stats, inClass_append, inClass_single]
    by_cases hc : c = slaClass
    · subst hc
      simp [SlaJob.new]
    · simp [hc, SlaJob.new]

theorem Kept.pop (hk : Kept h) (hs : step h (.pop now) = some h') :
    Correct SlaJob.Overdue h (.pop now) ∧ Kept h' := by
  rcases pop_spec h.queue now with ⟨hempty, hpop⟩ | ⟨sj, queue, hpop, hperm, hmax, hcounts⟩
  · have hsame : h' = h := by
      rw [step, hpop] at hs
      simpa using hs.symm
    subst hsame
    refine ⟨?_, hk⟩
    rw [Correct, hpop]
    exact ⟨hempty, rfl⟩
  · obtain ⟨henq, hdeq, hexp, hstats⟩ := hcounts
    rw [step, hpop, Option.some_inj] at hs
    subst hs
    refine ⟨?_, ?_, ⟨henq.trans hk.totals.1, ?_, hexp.trans hk.totals.2.2⟩, fun c => ?_⟩
    · rw [Correct, hpop]
      exact ⟨hperm, hmax⟩
    · have htickets := hperm.map SlaJob.ticket
      rw [List.map_map] at htickets
      apply hk.conserved.trans
      simp only [List.map_append, List.append_assoc]
      refine List.Perm.append_left _ ?_
      exact (htickets.append_left (h.expired.map SlaJob.ticket)).trans List.perm_middle
    · simp [hdeq, hk.totals.2.1]
    · rw [hstats, hk.stats, inClass_append]
      by_cases hc : c = sj.slaClass <;> simp [hc, inClass_single]

theorem Kept.expired (hk : Kept h) (hs : step h (.expired now) = some h') :
    Correct SlaJob.Overdue h (.expired now) ∧ Kept h' := by
  obtain ⟨out, queue, hexpired, hout, hrest, henq, hdeq, hexp, hstats⟩ :=
    expired_spec h.queue now
  rw [step, hexpired, Option.some_inj] at hs
  subst hs
  refine ⟨?_, ?_, ⟨henq.trans hk.totals.1, hdeq.trans hk.totals.2.1, ?_⟩, fun c => ?_⟩
  · rw [Correct, TakesOut, hexpired]
    exact ⟨hout, hrest⟩
  · have hsplit := (List.filter_append_perm (fun sj => decide (sj.Overdue now)) h.queued).symm
    simp only [decide_not] at hrest
    have hboth := hsplit.trans (hout.symm.append hrest.symm)
    refine hk.conserved.trans (List.Perm.map _ ?_)
    simp only [List.append_assoc]
    exact (hboth.append_left _).append_left _
  · rw [hexp, hk.totals.2.2, List.length_append]
  · rw [hstats, hk.stats, inClass_append]
    rfl

theorem Kept.step {op : Op} (hk : Kept h) (hs : step h op = some h') :
    Correct SlaJob.Overdue h op ∧ Kept h' := by
  cases op with
  | push job slaClass now => exact hk.push hs
  | pop now => exact hk.pop hs
  | expired now => exact hk.expired hs

/-- In every run every call takes the right jobs, and every state is balanced. -/
theorem sla_queue_correct (B : BinaryHeap SlaJob SlaJob.priority) (ops : List Op) :
    EachStep step (Correct SlaJob.Overdue) (start B) ops ∧
      Throughout step Balanced (start B) ops := by
  have hkept : Throughout step Kept (start B) ops :=
    throughout_of_step (kept_start B) fun h op h' hk hs => (hk.step hs).2
  refine ⟨?_, hkept.imp fun h hk => hk.balanced⟩
  exact hkept.eachStep fun h op _ h' hk _ hs => (hk.step hs).1

/-- A job of half a millisecond more than its fifty stays in the queue. -/
theorem half_millisecond_late :
    ¬ EachStep step (Correct SlaJob.Late) (start (BinaryHeap.sorted SlaJob.priority))
      [.push {} .critical 0, .expired 50500000] := by
  intro h
  have htakes := ((h _ rfl).2 _ rfl).1
  have hcount := htakes.1.length_eq
  exact absurd hcount (by decide +kernel)

end HelixRouter.Sla
