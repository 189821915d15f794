import HelixRouter.Containers.Retain
import HelixRouter.Router.Types
import Mathlib.Data.UInt

namespace HelixRouter.FairQueue

structure WfqClass where
  name : String
  weight : UInt32

structure WfqConfig where
  classes : List WfqClass := [⟨"hash_mix", 3⟩, ⟨"prime_count", 2⟩, ⟨"monte_carlo_risk", 1⟩]
  quantum : UInt64 := 1000

structure ClassWfqStats where
  enqueued : Nat := 0
  dequeued : Nat := 0
  currentQueueLen : Nat := 0

structure WfqQueue where
  weight : UInt32
  deficit : UInt64 := 0
  queue : List Job := []

structure WfqScheduler where
  classOrder : List String := []
  queues : AList (fun _ : String => WfqQueue) := ∅
  quantum : UInt64
  stats : AList (fun _ : String => ClassWfqStats) := ∅
  totalEnqueued : Nat := 0
  totalDequeued : Nat := 0

def classForJob (job : Job) : String := job.kind.display

/-- The jobs from the front on that a deficit pays for, what is left of it, and the rest. -/
def serve : UInt64 → List Job → UInt64 × List Job × List Job
  | deficit, [] => (deficit, [], [])
  | deficit, job :: rest =>
    if job.computeCost ≤ deficit then
      let (deficit, served, left) := serve (deficit - job.computeCost) rest
      (deficit, job :: served, left)
    else (deficit, [], job :: rest)

namespace WfqScheduler

def new (config : WfqConfig) : WfqScheduler :=
  config.classes.foldl (fun s cls => { s with
    classOrder := s.classOrder ++ [cls.name]
    queues := s.queues.insert cls.name { weight := cls.weight }
    stats := s.stats.insert cls.name {} }) { quantum := config.quantum }

/-- Changes the statistics of a class, if it has any. -/
def updateStats (s : WfqScheduler) (class_ : String) (f : ClassWfqStats → ClassWfqStats) :
    WfqScheduler :=
  match s.stats.lookup class_ with
  | none => s
  | some stats => { s with stats := s.stats.insert class_ (f stats) }

def putQueue (s : WfqScheduler) (class_ : String) (queue : WfqQueue) : WfqScheduler :=
  { s with queues := s.queues.insert class_ queue }

def enqueue (s : WfqScheduler) (job : Job) : Bool × WfqScheduler :=
  match s.queues.lookup (classForJob job) with
  | none => (false, s)
  | some queue =>
    let jobs := queue.queue ++ [job]
    let s := (s.putQueue (classForJob job) { queue with queue := jobs }).updateStats
      (classForJob job) fun stats =>
        { stats with enqueued := stats.enqueued + 1, currentQueueLen := jobs.length }
    (true, { s with totalEnqueued := s.totalEnqueued + 1 })

/-- What a visit adds to a deficit: the product of quantum and weight, cut to a word. -/
def gain (s : WfqScheduler) (queue : WfqQueue) : UInt64 :=
  UInt64.ofNat (s.quantum.toNat * queue.weight.toNat)

/-- One class in one round: it is credited, and served while its deficit lasts. -/
def visit (s : WfqScheduler) (class_ : String) : List Job × WfqScheduler :=
  match s.queues.lookup class_ with
  | none => ([], s)
  | some queue =>
    if queue.queue.isEmpty then ([], s.putQueue class_ { queue with deficit := 0 })
    else
      let (deficit, served, left) := serve (queue.deficit + s.gain queue) queue.queue
      let deficit := if left.isEmpty then 0 else deficit
      let s := (s.putQueue class_ { queue with deficit := deficit, queue := left }).updateStats
        class_ fun stats =>
          { stats with
            dequeued := stats.dequeued + served.length
            currentQueueLen := if served.isEmpty then stats.currentQueueLen else left.length }
      (served, { s with totalDequeued := s.totalDequeued + served.length })

def drainClasses : List String → WfqScheduler → List Job × WfqScheduler
  | [], s => ([], s)
  | class_ :: classes, s =>
    let (served, s) := s.visit class_
    let (more, s) := drainClasses classes s
    (served ++ more, s)

def drainRound (s : WfqScheduler) : List Job × WfqScheduler := drainClasses s.classOrder s

def isEmpty (s : WfqScheduler) : Bool := s.queues.entries.all (·.2.queue.isEmpty)

def len (s : WfqScheduler) : Nat := (s.queues.entries.map (·.2.queue.length)).sum

/-- Puts a job back at the front of its class, and corrects the counts. -/
def pushBack (s : WfqScheduler) (job : Job) : WfqScheduler :=
  match s.queues.lookup (classForJob job) with
  | none => s
  | some queue =>
    let jobs := job :: queue.queue
    let s := (s.putQueue (classForJob job) { queue with queue := jobs }).updateStats
      (classForJob job) fun stats =>
        { enqueued := stats.enqueued + 1, dequeued := stats.dequeued - 1,
          currentQueueLen := jobs.length }
    { s with totalDequeued := s.totalDequeued - 1, totalEnqueued := s.totalEnqueued + 1 }

/-- Rounds until one yields, or all queues are empty; none where the rounds do not suffice. -/
def nextRounds : Nat → WfqScheduler → Option (Option Job × WfqScheduler)
  | 0, _ => none
  | rounds + 1, s =>
    match s.drainRound with
    | (first :: rest, s) => some (some first, rest.foldr (fun job s => s.pushBack job) s)
    | ([], s) => if s.isEmpty then some (none, s) else nextRounds rounds s

/-- The next job, within so many rounds. -/
def nextJob (rounds : Nat) (s : WfqScheduler) : Option (Option Job × WfqScheduler) :=
  if s.totalEnqueued = s.totalDequeued && s.isEmpty then some (none, s) else nextRounds rounds s

variable {s s' : WfqScheduler} {c c' : String} {job : Job}

/-- The jobs of a class, from the front of its queue on. -/
def jobsOf (s : WfqScheduler) (c : String) : List Job := (s.queues.lookup c).elim [] (·.queue)

/-- All jobs in the queues. -/
def queued (s : WfqScheduler) : List Job := s.queues.entries.flatMap (·.2.queue)

def Known (s : WfqScheduler) (c : String) : Prop := (s.queues.lookup c).isSome

/-- One class's queue changes, and with it what the queues hold in all. -/
structure Moves (c : String) (s s' : WfqScheduler) (before after : List Job) : Prop where
  before_eq : s.jobsOf c = before
  after_eq : s'.jobsOf c = after
  others : ∀ c', c' ≠ c → s'.jobsOf c' = s.jobsOf c'
  known : ∀ c', s'.Known c' ↔ s.Known c'
  queued : ∃ rest, s.queued.Perm (before ++ rest) ∧ s'.queued.Perm (after ++ rest)

theorem moves_putQueue {old : WfqQueue} (h : s.queues.lookup c = some old) (new : WfqQueue) :
    Moves c s (s.putQueue c new) old.queue new.queue where
  before_eq := by
    unfold jobsOf
    rw [h]
    rfl
  after_eq := by
    unfold jobsOf putQueue
    rw [AList.lookup_insert]
    rfl
  others c' hne := by
    unfold jobsOf putQueue
    rw [AList.lookup_insert_ne hne]
  known c' := by
    unfold Known putQueue
    by_cases heq : c' = c
    · rw [heq, AList.lookup_insert, h]
      simp
    · rw [AList.lookup_insert_ne heq]
  queued := by
    let jobs : (Σ _ : String, WfqQueue) → List Job := fun e => e.2.queue
    have hperm := (AList.entries_perm_of_lookup h).flatMap_right jobs
    exact ⟨(s.queues.erase c).entries.flatMap jobs, hperm, List.Perm.refl _⟩

theorem Moves.congr {before after : List Job} {s'' : WfqScheduler} (h : Moves c s s' before after)
    (hq : s''.queues = s'.queues) : Moves c s s'' before after where
  before_eq := h.before_eq
  after_eq := by
    unfold jobsOf
    rw [hq]
    exact h.after_eq
  others c' hne := by
    unfold jobsOf
    rw [hq]
    exact h.others c' hne
  known c' := by
    unfold Known
    rw [hq]
    exact h.known c'
  queued := by
    unfold WfqScheduler.queued
    rw [hq]
    exact h.queued

theorem Moves.served {served left : List Job} (h : Moves c s s' (served ++ left) left) :
    s.queued.Perm (served ++ s'.queued) := by
  obtain ⟨rest, hs, hs'⟩ := h.queued
  rw [List.append_assoc] at hs
  exact hs.trans (hs'.symm.append_left served)

theorem Moves.grown {before after : List Job} (h : Moves c s s' before after)
    (hp : after.Perm (job :: before)) : s'.queued.Perm (job :: s.queued) := by
  obtain ⟨rest, hs, hs'⟩ := h.queued
  exact hs'.trans ((hp.append_right rest).trans (hs.symm.cons job))

theorem queues_updateStats {f : ClassWfqStats → ClassWfqStats} :
    (s.updateStats c f).queues = s.queues := by
  unfold updateStats
  split <;> rfl

theorem totals_updateStats {f : ClassWfqStats → ClassWfqStats} :
    (s.updateStats c f).totalEnqueued = s.totalEnqueued ∧
      (s.updateStats c f).totalDequeued = s.totalDequeued := by
  unfold updateStats
  split <;> exact ⟨rfl, rfl⟩

theorem lookup_updateStats {f : ClassWfqStats → ClassWfqStats} :
    (s.updateStats c f).stats.lookup c' =
      if c' = c then (s.stats.lookup c).map f else s.stats.lookup c' := by
  unfold updateStats
  by_cases heq : c' = c
  · subst heq
    rw [if_pos rfl]
    cases h : s.stats.lookup c' with
    | none => exact h
    | some stats => exact AList.lookup_insert _
  · rw [if_neg heq]
    cases h : s.stats.lookup c with
    | none => rfl
    | some stats => exact AList.lookup_insert_ne heq

end WfqScheduler

theorem serve_split {deficit left_ : UInt64} {jobs served left : List Job}
    (h : serve deficit jobs = (left_, served, left)) : jobs = served ++ left := by
  induction jobs generalizing deficit served with
  | nil =>
    cases h
    rfl
  | cons job rest ih =>
    unfold serve at h
    split at h
    · cases h
      rw [List.cons_append, ← ih rfl]
    · cases h
      rfl

namespace WfqScheduler

variable {s s' : WfqScheduler} {c c' : String} {job : Job} {served : List Job}

/-- What a visit does: jobs leave the front of one queue, and are counted. -/
structure Visited (c : String) (s : WfqScheduler) (served : List Job) (s' : WfqScheduler) :
    Prop where
  moves : Moves c s s' (served ++ s'.jobsOf c) (s'.jobsOf c)
  stats : ∀ c' st', s'.stats.lookup c' = some st' → ∃ st, s.stats.lookup c' = some st ∧
    st'.enqueued = st.enqueued ∧
      st'.dequeued = st.dequeued + if c' = c then served.length else 0
  totalEnqueued : s'.totalEnqueued = s.totalEnqueued
  totalDequeued : s'.totalDequeued = s.totalDequeued + served.length

theorem visited_none (h : s.queues.lookup c = none) : Visited c s [] s where
  moves := {
    before_eq := rfl
    after_eq := rfl
    others := fun _ _ => rfl
    known := fun _ => Iff.rfl
    queued := by
      have hempty : s.jobsOf c = [] := by
        unfold jobsOf
        rw [h]
        rfl
      rw [hempty]
      exact ⟨s.queued, List.Perm.refl _, List.Perm.refl _⟩ }
  stats c' st' h := ⟨st', h, rfl, by simp⟩
  totalEnqueued := rfl
  totalDequeued := rfl

theorem visited (h : s.visit c = (served, s')) : Visited c s served s' := by
  unfold visit at h
  split at h
  · rename_i hnone
    cases h
    exact visited_none hnone
  rename_i queue hqueue
  split at h
  · rename_i hempty
    cases h
    have hmoves := moves_putQueue hqueue { queue with deficit := 0 }
    refine ⟨?_, fun c' st' hst => ⟨st', hst, rfl, by simp⟩, rfl, rfl⟩
    rw [hmoves.after_eq, List.nil_append]
    exact hmoves
  · cases hserve : serve (queue.deficit + s.gain queue) queue.queue with
    | mk deficit rest =>
      obtain ⟨taken, left⟩ := rest
      rw [hserve] at h
      obtain ⟨rfl, hs'⟩ := Prod.mk.inj h
      have hmoves := moves_putQueue hqueue ⟨queue.weight, if left.isEmpty then 0 else deficit, left⟩
      rw [serve_split hserve] at hmoves
      have hmoved : Moves c s s' (taken ++ left) left := hmoves.congr (hs' ▸ queues_updateStats)
      refine ⟨?_, ?_, hs' ▸ totals_updateStats.1, ?_⟩
      · rw [hmoved.after_eq]
        exact hmoved
      · intro c' st' hst
        rw [← hs'] at hst
        have hlookup := lookup_updateStats.symm.trans hst
        split at hlookup
        · rename_i heq
          obtain ⟨st, hold, rfl⟩ := Option.map_eq_some_iff.mp hlookup
          rw [if_pos heq]
          exact ⟨st, heq ▸ hold, rfl, rfl⟩
        · rename_i hne
          rw [if_neg hne]
          exact ⟨st', hlookup, rfl, rfl⟩
      · rw [← hs']
        exact congrArg (· + taken.length) totals_updateStats.2

theorem drainClasses_cons {classes : List String} : drainClasses (c :: classes) s =
    ((s.visit c).1 ++ (drainClasses classes (s.visit c).2).1,
      (drainClasses classes (s.visit c).2).2) := rfl

/-- What a round does, class by class, to what has been handed out before it. -/
theorem drainClasses_induction {motive : List Job → WfqScheduler → Prop}
    (hstep : ∀ out s c served s', motive out s → Visited c s served s' → motive (out ++ served) s')
    (classes : List String) {out batch : List Job} (hstart : motive out s)
    (h : drainClasses classes s = (batch, s')) : motive (out ++ batch) s' := by
  induction classes generalizing out s batch with
  | nil =>
    cases h
    rwa [List.append_nil]
  | cons c classes ih =>
    rw [drainClasses_cons] at h
    obtain ⟨rfl, hs'⟩ := Prod.mk.inj h
    rw [← List.append_assoc]
    exact ih (hstep _ _ c _ _ hstart (visited rfl)) (Prod.ext rfl hs')

/-- What a job put back does: it is the first of its class again, and no longer counts as
dequeued; but it counts as enqueued once more. -/
structure PutBack (job : Job) (s s' : WfqScheduler) : Prop where
  moves : Moves (classForJob job) s s' (s.jobsOf (classForJob job))
    (job :: s.jobsOf (classForJob job))
  stats : ∀ c' st', s'.stats.lookup c' = some st' → ∃ st, s.stats.lookup c' = some st ∧
    st'.enqueued = st.enqueued + (if c' = classForJob job then 1 else 0) ∧
      st'.dequeued = st.dequeued - if c' = classForJob job then 1 else 0
  totalEnqueued : s'.totalEnqueued = s.totalEnqueued + 1
  totalDequeued : s'.totalDequeued = s.totalDequeued - 1

theorem pushBack_putBack (hknown : s.Known (classForJob job)) : PutBack job s (s.pushBack job) := by
  obtain ⟨queue, hqueue⟩ := Option.isSome_iff_exists.mp hknown
  have hjobs : s.jobsOf (classForJob job) = queue.queue := by
    unfold jobsOf
    rw [hqueue]
    rfl
  have hmoves := moves_putQueue hqueue { queue with queue := job :: queue.queue }
  unfold pushBack
  rw [hqueue]
  refine ⟨?_, ?_, ?_, ?_⟩
  · rw [hjobs]
    exact hmoves.congr queues_updateStats
  · intro c' st' hst
    have hlookup := lookup_updateStats.symm.trans hst
    split at hlookup
    · rename_i heq
      obtain ⟨st, hold, rfl⟩ := Option.map_eq_some_iff.mp hlookup
      simp only [if_pos heq]
      exact ⟨st, heq ▸ hold, rfl, rfl⟩
    · rename_i hne
      simp only [if_neg hne]
      exact ⟨st', hlookup, rfl, rfl⟩
  · exact congrArg (· + 1) totals_updateStats.1
  · exact congrArg (· - 1) totals_updateStats.2

/-- What an accepted job does: it is the last of its class, and is counted. -/
structure Joined (job : Job) (s s' : WfqScheduler) : Prop where
  moves : Moves (classForJob job) s s' (s.jobsOf (classForJob job))
    (s.jobsOf (classForJob job) ++ [job])
  known : s.Known (classForJob job)
  stats : ∀ c' st', s'.stats.lookup c' = some st' → ∃ st, s.stats.lookup c' = some st ∧
    st'.enqueued = st.enqueued + (if c' = classForJob job then 1 else 0) ∧
      st'.dequeued = st.dequeued
  totalEnqueued : s'.totalEnqueued = s.totalEnqueued + 1
  totalDequeued : s'.totalDequeued = s.totalDequeued

theorem enqueue_joined {accepts : Bool} (h : s.enqueue job = (accepts, s')) :
    (accepts = true ∧ Joined job s s') ∨ accepts = false ∧ s' = s := by
  unfold enqueue at h
  cases hqueue : s.queues.lookup (classForJob job) with
  | none =>
    rw [hqueue] at h
    cases h
    exact Or.inr ⟨rfl, rfl⟩
  | some queue =>
    rw [hqueue] at h
    obtain ⟨rfl, hs'⟩ := Prod.mk.inj h
    have hjobs : s.jobsOf (classForJob job) = queue.queue := by
      unfold jobsOf
      rw [hqueue]
      rfl
    have hmoves := moves_putQueue hqueue { queue with queue := queue.queue ++ [job] }
    refine Or.inl ⟨rfl, ?_, by unfold Known; rw [hqueue]; rfl, ?_, ?_, ?_⟩
    · rw [hjobs]
      exact hmoves.congr (hs' ▸ queues_updateStats)
    · intro c' st' hst
      rw [← hs'] at hst
      have hlookup := lookup_updateStats.symm.trans hst
      split at hlookup
      · rename_i heq
        obtain ⟨st, hold, rfl⟩ := Option.map_eq_some_iff.mp hlookup
        rw [if_pos heq]
        exact ⟨st, heq ▸ hold, rfl, rfl⟩
      · rename_i hne
        rw [if_neg hne]
        exact ⟨st', hlookup, rfl, rfl⟩
    · rw [← hs']
      exact congrArg (· + 1) totals_updateStats.1
    · rw [← hs']
      exact totals_updateStats.2

/-- Nothing has been enqueued yet. -/
structure Fresh (s : WfqScheduler) : Prop where
  queues : ∀ c queue, s.queues.lookup c = some queue → queue.queue = [] ∧ queue.deficit = 0
  stats : ∀ c st, s.stats.lookup c = some st → st.enqueued = 0 ∧ st.dequeued = 0
  totals : s.totalEnqueued = 0 ∧ s.totalDequeued = 0

theorem fresh_new (config : WfqConfig) : (new config).Fresh := by
  refine List.foldlRecOn (motive := Fresh) config.classes _ ?_ ?_
  · exact ⟨fun _ _ h => (nomatch h), fun _ _ h => (nomatch h), rfl, rfl⟩
  · intro s hs cls _
    refine ⟨?_, ?_, hs.totals⟩
    · intro c queue h
      by_cases hc : c = cls.name
      · rw [hc, AList.lookup_insert] at h
        cases h
        exact ⟨rfl, rfl⟩
      · rw [AList.lookup_insert_ne hc] at h
        exact hs.queues c queue h
    · intro c st h
      by_cases hc : c = cls.name
      · rw [hc, AList.lookup_insert] at h
        cases h
        exact ⟨rfl, rfl⟩
      · rw [AList.lookup_insert_ne hc] at h
        exact hs.stats c st h

theorem Fresh.jobsOf (hf : s.Fresh) (c : String) : s.jobsOf c = [] := by
  unfold WfqScheduler.jobsOf
  cases h : s.queues.lookup c with
  | none => rfl
  | some queue => exact (hf.queues c queue h).1

theorem Fresh.queued (hf : s.Fresh) : s.queued = [] := by
  refine List.flatMap_eq_nil_iff.mpr fun e he => ?_
  exact (hf.queues e.1 e.2 (AList.mem_lookup_iff.mpr he)).1

end WfqScheduler

end HelixRouter.FairQueue
