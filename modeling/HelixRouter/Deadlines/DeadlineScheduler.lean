import HelixRouter.Runs.Stepwise
import HelixRouter.Sla.SlaQueue
import Mathlib.Data.Prod.Lex

namespace HelixRouter.Deadlines

open Runs
open Sla (elapsedMillis)

structure DeadlineJob where
  job : Job
  deadline : Instant
  priority : UInt8

inductive DeadlineEvent where
  | completed (jobId : UInt64) (outputs : List Output) (slackMs : Int64)
  | dropped (jobId : UInt64) (slackMs : Int64)
  | missed (jobId : UInt64) (overdueMs : UInt64) (priority : UInt8)

/-- A queued job, with what it is ordered by at hand. -/
structure HeapEntry where
  deadline : Instant
  priority : UInt8
  job : DeadlineJob
  deadline_eq : deadline = job.deadline
  priority_eq : priority = job.priority

namespace HeapEntry

def new (job : DeadlineJob) : HeapEntry := ⟨job.deadline, job.priority, job, rfl, rfl⟩

def cmp (a b : HeapEntry) : Ordering :=
  (compare b.deadline a.deadline).then (compare a.priority b.priority)

/-- What the comparison orders by: the earlier deadline is the greater. -/
def rank (e : HeapEntry) : Instantᵒᵈ ×ₗ Nat :=
  toLex (OrderDual.toDual e.deadline, e.priority.toNat)

theorem cmp_eq (a b : HeapEntry) : a.cmp b = compare a.rank b.rank := by
  have hpriority : compare a.priority b.priority =
      compare a.priority.toNat b.priority.toNat := by
    change compareOfLessAndEq _ _ = compareOfLessAndEq _ _
    simp only [compareOfLessAndEq, UInt8.lt_iff_toNat_lt, UInt8.toNat_inj]
  rw [cmp, hpriority, Prod.Lex.compare_def]
  rfl

end HeapEntry

structure DeadlineScheduler (B : BinaryHeap HeapEntry HeapEntry.rank) where
  queue : B.Heap := B.empty
  missCount : UInt64 := 0
  completedCount : UInt64 := 0
  droppedCount : UInt64 := 0

/-- What the clock says before and after the router is given a job, and its answer. -/
structure Turn where
  dispatchAt : Instant
  outcome : Option (List Output)
  finishAt : Instant

/-- Milliseconds that remain, negative ones where the deadline has passed. -/
def slackMs (deadline now : Instant) : Int64 :=
  if now ≤ deadline then Int64.ofNat (elapsedMillis now deadline)
  else -Int64.ofNat (elapsedMillis deadline now)

def overdueMs (deadline now : Instant) : UInt64 :=
  UInt64.ofNat (min (elapsedMillis deadline now) (2 ^ 64 - 1))

/-- The first part of a call, under the lock of the queue. -/
structure Sorting where
  missCount : UInt64
  missed : List (DeadlineJob × DeadlineEvent) := []
  toRun : List DeadlineJob := []

def Sorting.sortOut (now : Instant) (p : Sorting) (entry : HeapEntry) : Sorting :=
  if entry.deadline ≤ now then
    { p with
      missCount := p.missCount + 1
      missed := p.missed ++ [(entry.job,
        .missed entry.job.job.id (overdueMs entry.deadline now) entry.priority)] }
  else { p with toRun := p.toRun ++ [entry.job] }

/-- The second part of a call, without the lock: the jobs that the router has been given, with
the time that it was given them, and the event of each. -/
structure Dispatching where
  completedCount : UInt64
  droppedCount : UInt64
  dispatched : Nat := 0
  submitted : List (DeadlineJob × Instant) := []
  answered : List (DeadlineJob × DeadlineEvent) := []

def Dispatching.dispatch (turns : Nat → Turn) (d : Dispatching) (job : DeadlineJob) :
    Dispatching :=
  let turn := turns d.dispatched
  let submitted := d.submitted ++ [(job, turn.dispatchAt)]
  match turn.outcome with
  | some outputs =>
    { d with
      completedCount := d.completedCount + 1
      dispatched := d.dispatched + 1
      submitted := submitted
      answered := d.answered ++
        [(job, .completed job.job.id outputs (slackMs job.deadline turn.finishAt))] }
  | none =>
    { d with
      droppedCount := d.droppedCount + 1
      dispatched := d.dispatched + 1
      submitted := submitted
      answered := d.answered ++
        [(job, .dropped job.job.id (slackMs job.deadline turn.dispatchAt))] }

/-- What a call of `drainReady` leaves and does. -/
structure Drained (B : BinaryHeap HeapEntry HeapEntry.rank) where
  scheduler : DeadlineScheduler B
  dispatched : Nat
  submitted : List (DeadlineJob × Instant)
  answered : List (DeadlineJob × DeadlineEvent)

namespace DeadlineScheduler

variable {B : BinaryHeap HeapEntry HeapEntry.rank}

def push (s : DeadlineScheduler B) (job : DeadlineJob) : DeadlineScheduler B :=
  { s with queue := B.push s.queue (.new job) }

/-- The clock is read once for all jobs in the queue, and then again before and after each
one that is dispatched. -/
def drainReady (s : DeadlineScheduler B) (now : Instant) (turns : Nat → Turn) : Drained B :=
  let (entries, queue) := B.popAll s.queue
  let p := entries.foldl (Sorting.sortOut now) ⟨s.missCount, [], []⟩
  let d := p.toRun.foldl (Dispatching.dispatch turns) ⟨s.completedCount, s.droppedCount, 0, [], []⟩
  { scheduler := ⟨queue, p.missCount, d.completedCount, d.droppedCount⟩
    dispatched := d.dispatched
    submitted := d.submitted
    answered := p.missed ++ d.answered }

end DeadlineScheduler

open Runs

inductive Kind where
  | completed
  | dropped
  | missed
  deriving DecidableEq

namespace DeadlineEvent

def kind : DeadlineEvent → Kind
  | completed .. => .completed
  | dropped .. => .dropped
  | missed .. => .missed

def jobId : DeadlineEvent → UInt64
  | completed jobId _ _ => jobId
  | dropped jobId _ => jobId
  | missed jobId _ _ => jobId

end DeadlineEvent

abbrev Answer : Type := DeadlineJob × DeadlineEvent

/-- How many of some answers are of a kind, as a counter of the scheduler has it. -/
def tally (kind : Kind) (answers : List Answer) : UInt64 :=
  UInt64.ofNat (answers.countP (·.2.kind = kind))

section Tally

variable {kind other : Kind} {answers more : List Answer}

theorem tally_append : tally kind (answers ++ more) = tally kind answers + tally kind more := by
  rw [tally, List.countP_append, UInt64.ofNat_add]
  rfl

theorem tally_other (h : ∀ a ∈ answers, a.2.kind ≠ kind) : tally kind answers = 0 := by
  have hnone : answers.countP (·.2.kind = kind) = 0 := by
    rw [List.countP_eq_zero]
    intro a ha
    simp [h a ha]
  rw [tally, hnone]
  rfl

theorem tally_same (h : ∀ a ∈ answers, a.2.kind = kind) :
    tally kind answers = UInt64.ofNat answers.length := by
  have hall : answers.countP (·.2.kind = kind) = answers.length := by
    rw [List.countP_eq_length]
    intro a ha
    simp [h a ha]
  rw [tally, hall]

/-- Every answer is of just one kind. -/
theorem tally_kinds (answers : List Answer) :
    tally .missed answers + tally .completed answers + tally .dropped answers =
      UInt64.ofNat answers.length := by
  have hkinds : answers.countP (·.2.kind = .missed) + answers.countP (·.2.kind = .completed) +
      answers.countP (·.2.kind = .dropped) = answers.length := by
    induction answers with
    | nil => rfl
    | cons a rest ih =>
      have hone : ∀ k : Kind, (a :: rest).countP (·.2.kind = k) =
          rest.countP (·.2.kind = k) + if a.2.kind = k then 1 else 0 := by
        intro k
        simp [List.countP_cons]
      rw [hone, hone, hone, List.length_cons, ← ih]
      cases a.2.kind <;> simp <;> omega
  rw [tally, tally, tally, ← UInt64.ofNat_add, ← UInt64.ofNat_add, hkinds]

end Tally

namespace Sorting

/-- The event of a job that is found to be late. -/
def miss (now : Instant) (entry : HeapEntry) : Answer :=
  (entry.job, .missed entry.job.job.id (overdueMs entry.deadline now) entry.priority)

theorem foldl_sortOut (now : Instant) (entries : List HeapEntry) (p : Sorting) :
    entries.foldl (sortOut now) p =
      { missCount := p.missCount + UInt64.ofNat (entries.countP (·.deadline ≤ now))
        missed := p.missed ++ (entries.filter (·.deadline ≤ now)).map (miss now)
        toRun := p.toRun ++ (entries.filter (now < ·.deadline)).map (·.job) } := by
  induction entries generalizing p with
  | nil => simp
  | cons entry entries ih =>
    rw [List.foldl_cons, ih]
    by_cases h : entry.deadline ≤ now
    · have hlate : ¬ now < entry.deadline := Nat.not_lt.mpr h
      simp only [sortOut, h, hlate, ↓reduceIte, decide_true, decide_false, List.countP_cons,
        List.filter_cons, Bool.false_eq_true, List.map_cons, List.append_assoc,
        List.singleton_append, UInt64.ofNat_add]
      congr 1
      rw [UInt64.add_assoc, UInt64.add_comm 1]
      rfl
    · have hready : now < entry.deadline := Nat.lt_of_not_le h
      simp [sortOut, h, hready, List.append_assoc]

end Sorting

namespace Dispatching

variable {turns : Nat → Turn} {d : Dispatching} {jobs : List DeadlineJob}

/-- What dispatching some jobs adds: an answer for each of them, in their order. -/
structure Dispatched (d d' : Dispatching) (jobs : List DeadlineJob) (answers : List Answer) :
    Prop where
  answered : d'.answered = d.answered ++ answers
  submitted : d'.submitted.map (·.1) = d.submitted.map (·.1) ++ jobs
  each : answers.map (·.1) = jobs
  names : ∀ a ∈ answers, a.2.jobId = a.1.job.id
  run : ∀ a ∈ answers, a.2.kind ≠ .missed
  completions : d'.completedCount = d.completedCount + tally .completed answers
  drops : d'.droppedCount = d.droppedCount + tally .dropped answers
  dispatched : d'.dispatched = d.dispatched + jobs.length

theorem Dispatched.nil : Dispatched d d [] [] where
  answered := (List.append_nil _).symm
  submitted := (List.append_nil _).symm
  each := rfl
  names _ ha := nomatch ha
  run _ ha := nomatch ha
  completions := (UInt64.add_zero _).symm
  drops := (UInt64.add_zero _).symm
  dispatched := rfl

theorem Dispatched.trans {d₁ d₂ : Dispatching} {more : List DeadlineJob}
    {answers₁ answers₂ : List Answer} (h₁ : Dispatched d d₁ jobs answers₁)
    (h₂ : Dispatched d₁ d₂ more answers₂) :
    Dispatched d d₂ (jobs ++ more) (answers₁ ++ answers₂) where
  answered := by rw [h₂.answered, h₁.answered, List.append_assoc]
  submitted := by rw [h₂.submitted, h₁.submitted, List.append_assoc]
  each := by rw [List.map_append, h₁.each, h₂.each]
  names := List.forall_mem_append.mpr ⟨h₁.names, h₂.names⟩
  run := List.forall_mem_append.mpr ⟨h₁.run, h₂.run⟩
  completions := by rw [h₂.completions, h₁.completions, tally_append, UInt64.add_assoc]
  drops := by rw [h₂.drops, h₁.drops, tally_append, UInt64.add_assoc]
  dispatched := by rw [h₂.dispatched, h₁.dispatched, List.length_append, Nat.add_assoc]

theorem dispatched_dispatch (turns : Nat → Turn) (d : Dispatching) (job : DeadlineJob) :
    ∃ answers, Dispatched d (d.dispatch turns job) [job] answers := by
  dsimp only [dispatch]
  cases (turns d.dispatched).outcome with
  | some outputs =>
    refine ⟨[_], rfl, List.map_append, rfl, ?_, ?_, rfl, (UInt64.add_zero _).symm, rfl⟩
    · exact List.forall_mem_singleton.mpr rfl
    · exact List.forall_mem_singleton.mpr (nofun)
  | none =>
    refine ⟨[_], rfl, List.map_append, rfl, ?_, ?_, (UInt64.add_zero _).symm, rfl, rfl⟩
    · exact List.forall_mem_singleton.mpr rfl
    · exact List.forall_mem_singleton.mpr (nofun)

theorem dispatched_foldl (turns : Nat → Turn) (d : Dispatching) (jobs : List DeadlineJob) :
    ∃ answers, Dispatched d (jobs.foldl (dispatch turns) d) jobs answers := by
  induction jobs generalizing d with
  | nil => exact ⟨[], .nil⟩
  | cons job jobs ih =>
    obtain ⟨first, hfirst⟩ := dispatched_dispatch turns d job
    obtain ⟨rest, hrest⟩ := ih (d.dispatch turns job)
    exact ⟨first ++ rest, hfirst.trans hrest⟩

end Dispatching

namespace DeadlineScheduler

variable {B : BinaryHeap HeapEntry HeapEntry.rank} {s : DeadlineScheduler B} {job : DeadlineJob}
  {now : Instant} {turns : Nat → Turn}

/-- The jobs in the queue. -/
def queued (s : DeadlineScheduler B) : List DeadlineJob := (B.items s.queue).map (·.job)

theorem queued_push : (s.push job).queued.Perm (job :: s.queued) :=
  (B.items_push s.queue (.new job)).map _

/-- Jobs as they are to be run: the earliest deadline first, then the highest priority. -/
def Earlier (a b : DeadlineJob) : Prop :=
  a.deadline < b.deadline ∨ a.deadline = b.deadline ∧ b.priority ≤ a.priority

theorem earlier_of_rank {a b : HeapEntry} (h : b.rank ≤ a.rank) : Earlier a.job b.job := by
  rw [HeapEntry.rank, HeapEntry.rank, Prod.Lex.toLex_le_toLex] at h
  rw [Earlier, ← a.deadline_eq, ← b.deadline_eq, ← a.priority_eq, ← b.priority_eq]
  rcases h with hlt | ⟨heq, hle⟩
  · exact Or.inl (OrderDual.toDual_lt_toDual.mp hlt)
  · exact Or.inr ⟨(OrderDual.toDual_inj.mp heq).symm, UInt8.le_iff_toNat_le.mpr hle⟩

/-- What a call of `drainReady` comes to: the jobs that are late when it begins are missed, and
the others are run. -/
structure Drains (s : DeadlineScheduler B) (now : Instant) (out : Drained B)
    (missed run : List Answer) : Prop where
  emptied : out.scheduler.queued = []
  answered : out.answered = missed ++ run
  submitted : out.submitted.map (·.1) = run.map (·.1)
  missed_jobs : (missed.map (·.1)).Perm (s.queued.filter (·.deadline ≤ now))
  run_jobs : (run.map (·.1)).Perm (s.queued.filter (now < ·.deadline))
  missed_kind : ∀ a ∈ missed, a.2.kind = .missed
  run_kind : ∀ a ∈ run, a.2.kind ≠ .missed
  names : ∀ a ∈ out.answered, a.2.jobId = a.1.job.id
  misses : out.scheduler.missCount = s.missCount + tally .missed missed
  completions : out.scheduler.completedCount = s.completedCount + tally .completed run
  drops : out.scheduler.droppedCount = s.droppedCount + tally .dropped run
  dispatched : out.dispatched = run.length
  order : (out.submitted.map (·.1)).Pairwise Earlier

theorem jobs_filter (p : Instant → Bool) (entries : List HeapEntry) :
    (entries.filter (p ·.deadline)).map (·.job) =
      (entries.map (·.job)).filter (p ·.deadline) := by
  have hp : (fun e : HeapEntry => p e.deadline) = fun e => p e.job.deadline :=
    funext fun e => congrArg p e.deadline_eq
  rw [hp, List.filter_map]
  rfl

theorem drains (s : DeadlineScheduler B) (now : Instant) (turns : Nat → Turn) :
    ∃ missed run, Drains s now (s.drainReady now turns) missed run := by
  obtain ⟨hperm, hempty, hfalling⟩ := B.popAll_spec s.queue
  unfold drainReady
  generalize B.popAll s.queue = popped at hperm hempty hfalling
  obtain ⟨entries, queue⟩ := popped
  dsimp only at hperm hempty hfalling ⊢
  have hjobs : ∀ p : Instant → Bool, ((entries.filter (p ·.deadline)).map (·.job)).Perm
      (s.queued.filter (p ·.deadline)) := by
    intro p
    rw [jobs_filter]
    exact (hperm.map _).filter _
  rw [Sorting.foldl_sortOut]
  dsimp only [List.nil_append]
  obtain ⟨run, hrun⟩ := Dispatching.dispatched_foldl turns
    ⟨s.completedCount, s.droppedCount, 0, [], []⟩
    ((entries.filter (now < ·.deadline)).map (·.job))
  generalize List.foldl (Dispatching.dispatch turns) _ _ = d at hrun
  have hmissed : ∀ a ∈ (entries.filter (·.deadline ≤ now)).map (Sorting.miss now),
      a.2.jobId = a.1.job.id ∧ a.2.kind = .missed := by
    intro a ha
    obtain ⟨e, -, rfl⟩ := List.mem_map.mp ha
    exact ⟨rfl, rfl⟩
  have hsubmitted := hrun.submitted
  rw [List.map_nil, List.nil_append] at hsubmitted
  refine ⟨(entries.filter (·.deadline ≤ now)).map (Sorting.miss now), run,
    ?_, ?_, ?_, ?_, ?_, ?_, hrun.run, ?_, ?_, hrun.completions, hrun.drops, ?_, ?_⟩
  · rw [queued, hempty, List.map_nil]
  · rw [hrun.answered, List.nil_append]
  · exact hsubmitted.trans hrun.each.symm
  · rw [List.map_map]
    exact hjobs (· ≤ now)
  · rw [hrun.each]
    exact hjobs (now < ·)
  · intro a ha
    exact (hmissed a ha).2
  · rw [hrun.answered, List.nil_append]
    exact List.forall_mem_append.mpr ⟨fun a ha => (hmissed a ha).1, hrun.names⟩
  · rw [tally_same fun a ha => (hmissed a ha).2, List.length_map, List.countP_eq_length_filter]
  · rw [hrun.dispatched, Nat.zero_add, ← hrun.each, List.length_map]
  · rw [hsubmitted]
    apply (hfalling.filter _).map
    intro a b hle
    exact earlier_of_rank hle

namespace Drains

variable {out : Drained B} {missed run : List Answer}

theorem taken (hd : Drains s now out missed run) : (out.answered.map (·.1)).Perm s.queued := by
  have hnot : s.queued.filter (now < ·.deadline) =
      s.queued.filter fun job => !decide (job.deadline ≤ now) := by
    apply List.filter_congr
    intro job _
    rw [← decide_not, decide_eq_decide]
    exact Nat.not_le.symm
  rw [hd.answered, List.map_append]
  apply (hd.missed_jobs.append hd.run_jobs).trans
  rw [hnot]
  exact List.filter_append_perm _ _

theorem tally_missed (hd : Drains s now out missed run) :
    tally .missed out.answered = tally .missed missed := by
  rw [hd.answered, tally_append, tally_other hd.run_kind, UInt64.add_zero]

theorem tally_run (hd : Drains s now out missed run) (kind : Kind) (hk : kind ≠ .missed) :
    tally kind out.answered = tally kind run := by
  have hnone : ∀ a ∈ missed, a.2.kind ≠ kind := by
    intro a ha
    rw [hd.missed_kind a ha]
    exact hk.symm
  rw [hd.answered, tally_append, tally_other hnone, UInt64.zero_add]

end Drains

end DeadlineScheduler

open DeadlineScheduler

inductive Op where
  | push (job : DeadlineJob)
  | drainReady (now : Instant) (turns : Nat → Turn)

/-- A scheduler, the jobs it has been given, and the events it has sent. -/
structure History (B : BinaryHeap HeapEntry HeapEntry.rank) where
  scheduler : DeadlineScheduler B := {}
  pushed : List DeadlineJob := []
  answered : List Answer := []

section Runs

variable {B : BinaryHeap HeapEntry HeapEntry.rank} {h : History B}

def step (h : History B) : Op → Option (History B)
  | .push job =>
    some { h with scheduler := h.scheduler.push job, pushed := h.pushed ++ [job] }
  | .drainReady now turns =>
    let out := h.scheduler.drainReady now turns
    some { h with scheduler := out.scheduler, answered := h.answered ++ out.answered }

/-- Every job is still queued or has one event, and the events are counted by their kind. -/
structure Conserved (h : History B) : Prop where
  jobs : h.pushed.Perm (h.scheduler.queued ++ h.answered.map (·.1))
  names : ∀ a ∈ h.answered, a.2.jobId = a.1.job.id
  misses : h.scheduler.missCount = tally .missed h.answered
  completions : h.scheduler.completedCount = tally .completed h.answered
  drops : h.scheduler.droppedCount = tally .dropped h.answered
  total : h.scheduler.missCount + h.scheduler.completedCount + h.scheduler.droppedCount =
    UInt64.ofNat h.answered.length

theorem conserved_new : Conserved ({} : History B) where
  jobs := by simp [queued, B.items_empty]
  names _ ha := nomatch ha
  misses := rfl
  completions := rfl
  drops := rfl
  total := rfl

theorem Conserved.push (hc : Conserved h) (job : DeadlineJob) :
    Conserved { h with scheduler := h.scheduler.push job, pushed := h.pushed ++ [job] } where
  jobs := (List.perm_append_singleton job h.pushed).trans
    ((hc.jobs.cons job).trans (queued_push.symm.append_right _))
  names := hc.names
  misses := hc.misses
  completions := hc.completions
  drops := hc.drops
  total := hc.total

theorem Conserved.drain (hc : Conserved h) (now : Instant) (turns : Nat → Turn) :
    Conserved { h with
      scheduler := (h.scheduler.drainReady now turns).scheduler
      answered := h.answered ++ (h.scheduler.drainReady now turns).answered } := by
  obtain ⟨missed, run, hd⟩ := h.scheduler.drains now turns
  generalize h.scheduler.drainReady now turns = out at hd
  have hmisses : out.scheduler.missCount = tally .missed (h.answered ++ out.answered) := by
    rw [hd.misses, hc.misses, tally_append, hd.tally_missed]
  have hcompletions : out.scheduler.completedCount =
      tally .completed (h.answered ++ out.answered) := by
    rw [hd.completions, hc.completions, tally_append, hd.tally_run .completed (nofun)]
  have hdrops : out.scheduler.droppedCount = tally .dropped (h.answered ++ out.answered) := by
    rw [hd.drops, hc.drops, tally_append, hd.tally_run .dropped (nofun)]
  refine ⟨?_, List.forall_mem_append.mpr ⟨hc.names, hd.names⟩, hmisses, hcompletions, hdrops, ?_⟩
  · dsimp only
    rw [hd.emptied, List.nil_append, List.map_append]
    exact hc.jobs.trans ((hd.taken.symm.append_right _).trans List.perm_append_comm)
  · dsimp only
    rw [hmisses, hcompletions, hdrops, tally_kinds]

/-- A call leaves nothing in the queue, and runs jobs in their order. -/
def Ordered (h : History B) : Op → Prop
  | .push _ => True
  | .drainReady now turns =>
    (h.scheduler.drainReady now turns).scheduler.queued = [] ∧
      ((h.scheduler.drainReady now turns).submitted.map (·.1)).Pairwise Earlier

theorem conserved_and_ordered (B : BinaryHeap HeapEntry HeapEntry.rank) (ops : List Op) :
    Throughout step Conserved ({} : History B) ops ∧
      EachStep step Ordered ({} : History B) ops := by
  have hruns : Throughout step Conserved ({} : History B) ops := by
    apply throughout_of_step conserved_new
    intro h op h' hc hstep
    cases op with
    | push job =>
      cases hstep
      exact hc.push job
    | drainReady now turns =>
      cases hstep
      exact hc.drain now turns
  refine ⟨hruns, hruns.eachStep ?_⟩
  intro h op _ h' _ _ _
  cases op with
  | push job => trivial
  | drainReady now turns =>
    obtain ⟨missed, run, hd⟩ := h.scheduler.drains now turns
    exact ⟨hd.emptied, hd.order⟩

/-- Jobs that are late when a call begins are missed by it, and just the others are run, however
long those that come before them take. -/
theorem late_when_drained_missed (s : DeadlineScheduler B) (now : Instant) (turns : Nat → Turn) :
    (((s.drainReady now turns).answered.filter (·.2.kind = .missed)).map (·.1)).Perm
        (s.queued.filter (·.deadline ≤ now)) ∧
      ((s.drainReady now turns).submitted.map (·.1)).Perm
        (s.queued.filter (now < ·.deadline)) := by
  obtain ⟨missed, run, hd⟩ := s.drains now turns
  have hmissed : (s.drainReady now turns).answered.filter (·.2.kind = .missed) = missed := by
    rw [hd.answered, List.filter_append, List.filter_eq_self.mpr, List.filter_eq_nil_iff.mpr,
      List.append_nil]
    · intro a ha
      simp [hd.run_kind a ha]
    · intro a ha
      simp [hd.missed_kind a ha]
  rw [hmissed, hd.submitted]
  exact ⟨hd.missed_jobs, hd.run_jobs⟩

end Runs

/-- No job is given to the router once its deadline has come. -/
def Timely {B : BinaryHeap HeapEntry HeapEntry.rank} (h : History B) : Op → Prop
  | .push _ => True
  | .drainReady now turns =>
    ∀ p ∈ (h.scheduler.drainReady now turns).submitted, p.2 < p.1.deadline

def dueAt (deadline : Instant) : DeadlineJob where
  job := {}
  deadline := deadline
  priority := 0

/-- The clock of a router that takes long for every job. -/
def slowTurns (k : Nat) : Turn where
  dispatchAt := 20 * k + 1
  outcome := some []
  finishAt := 20 * k + 20

/-- The second job becomes late while the first one is run. -/
theorem late_when_submitted :
    ¬ EachStep step Timely ({} : History (BinaryHeap.sorted HeapEntry.rank))
      [.push (dueAt 10), .push (dueAt 20), .drainReady 0 slowTurns] := by
  intro h
  have htimely := (((h _ rfl).2 _ rfl).2 _ rfl).1
  dsimp only [Timely] at htimely
  exact absurd htimely (by decide +kernel)

end HelixRouter.Deadlines
