import HelixRouter.FairQueue.Wfq

namespace HelixRouter.FairQueue

/-- The jobs of one class, in their order. -/
def ofClass (c : String) (jobs : List Job) : List Job := jobs.filter (classForJob · = c)

/-- The jobs of the first round that yields any, within so many rounds. -/
def firstBatch : Nat → WfqScheduler → List Job
  | 0, _ => []
  | rounds + 1, s =>
    match s.drainRound with
    | (first :: rest, _) => first :: rest
    | ([], s) => firstBatch rounds s

inductive Op
  | enqueue (job : Job)
  | drainRound
  | nextJob (rounds : Nat)

/-- A scheduler with the jobs it has accepted and handed out, and those that were put back. -/
structure History where
  scheduler : WfqScheduler
  accepted : List Job := []
  returned : List Job := []
  surplus : List Job := []

/-- One call. There is no result where `next_job` takes more rounds than it is given. -/
def History.step (h : History) : Op → Option History
  | .enqueue job =>
    let (accepts, s) := h.scheduler.enqueue job
    some { h with scheduler := s, accepted := if accepts then h.accepted ++ [job] else h.accepted }
  | .drainRound =>
    let (batch, s) := h.scheduler.drainRound
    some { h with scheduler := s, returned := h.returned ++ batch }
  | .nextJob rounds => do
    let (job, s) ← h.scheduler.nextJob rounds
    some { h with
      scheduler := s
      returned := h.returned ++ job.toList
      surplus := (firstBatch rounds h.scheduler).tail ++ h.surplus }

def run (config : WfqConfig) (ops : List Op) : Option History :=
  ops.foldlM History.step { scheduler := WfqScheduler.new config }

open WfqScheduler

/-- Where every accepted job is, and what the counters say of it. -/
structure Kept (s : WfqScheduler) (accepted returned surplus : List Job) : Prop where
  known : ∀ job ∈ accepted, s.Known (classForJob job)
  once : accepted.Perm (returned ++ s.queued)
  fifo : ∀ c, ofClass c accepted = ofClass c returned ++ s.jobsOf c
  stats : ∀ c st, s.stats.lookup c = some st →
    st.enqueued = (ofClass c accepted).length + (ofClass c surplus).length ∧
      st.dequeued = (ofClass c returned).length
  totalEnqueued : s.totalEnqueued = accepted.length + surplus.length
  totalDequeued : s.totalDequeued = returned.length

section Steps

variable {s s' : WfqScheduler} {accepted returned surplus served rest batch : List Job} {job : Job}
  {c : String}

theorem ofClass_append (c : String) (xs ys : List Job) :
    ofClass c (xs ++ ys) = ofClass c xs ++ ofClass c ys := List.filter_append _ _

theorem ofClass_single (c : String) (job : Job) :
    ofClass c [job] = if c = classForJob job then [job] else [] := by
  unfold ofClass
  by_cases h : classForJob job = c
  · simp [h]
  · simp [h, Ne.symm h]

theorem Kept.kinds (hk : Kept s accepted returned surplus) (hj : job ∈ s.jobsOf c) :
    classForJob job = c := by
  have hmem : job ∈ ofClass c accepted := by
    rw [hk.fifo c]
    exact List.mem_append_right _ hj
  exact of_decide_eq_true (List.mem_filter.mp hmem).2

theorem ofClass_eq_nil {jobs : List Job} {c' : String} (h : ∀ j ∈ jobs, classForJob j = c)
    (hne : c' ≠ c) : ofClass c' jobs = [] := by
  refine List.filter_eq_nil_iff.mpr fun j hj hc => hne ?_
  exact (of_decide_eq_true hc).symm.trans (h j hj)

theorem ofClass_self {jobs : List Job} (h : ∀ j ∈ jobs, classForJob j = c) :
    ofClass c jobs = jobs :=
  List.filter_eq_self.mpr fun j hj => decide_eq_true (h j hj)

theorem Kept.joined (hk : Kept s accepted returned surplus) (hj : Joined job s s') :
    Kept s' (accepted ++ [job]) returned surplus where
  known j hmem := by
    rw [hj.moves.known]
    rcases List.mem_append.mp hmem with hmem | hmem
    · exact hk.known j hmem
    · rw [List.mem_singleton.mp hmem]
      exact hj.known
  once := by
    have hgrown := hj.moves.grown (List.perm_append_singleton job _)
    calc (accepted ++ [job]).Perm (job :: accepted) := List.perm_append_singleton job _
      _ |>.Perm (job :: (returned ++ s.queued)) := hk.once.cons job
      _ |>.Perm (returned ++ job :: s.queued) := List.perm_middle.symm
      _ |>.Perm (returned ++ s'.queued) := hgrown.symm.append_left returned
  fifo c := by
    rw [ofClass_append, hk.fifo, ofClass_single, List.append_assoc]
    by_cases hc : c = classForJob job
    · rw [if_pos hc, hc, hj.moves.after_eq]
    · rw [if_neg hc, List.append_nil, hj.moves.others c hc]
  stats c st hst := by
    obtain ⟨old, hold, henq, hdeq⟩ := hj.stats c st hst
    obtain ⟨hOld, hOld'⟩ := hk.stats c old hold
    rw [henq, hdeq, hOld, hOld', ofClass_append, ofClass_single, List.length_append]
    refine ⟨?_, rfl⟩
    split <;> simp
    omega
  totalEnqueued := by
    rw [hj.totalEnqueued, hk.totalEnqueued, List.length_append, List.length_singleton]
    omega
  totalDequeued := hj.totalDequeued.trans hk.totalDequeued

theorem Kept.visited (hk : Kept s accepted returned surplus) (hv : Visited c s served s') :
    Kept s' accepted (returned ++ served) surplus := by
  have hclass : ∀ j ∈ served, classForJob j = c := by
    intro j hj
    refine hk.kinds (c := c) ?_
    rw [hv.moves.before_eq]
    exact List.mem_append_left _ hj
  refine ⟨?_, ?_, ?_, ?_, hv.totalEnqueued.trans hk.totalEnqueued, ?_⟩
  · intro j hj
    rw [hv.moves.known]
    exact hk.known j hj
  · rw [List.append_assoc]
    exact hk.once.trans (hv.moves.served.append_left returned)
  · intro c'
    rw [hk.fifo, ofClass_append, List.append_assoc]
    by_cases hc : c' = c
    · rw [hc, hv.moves.before_eq, ofClass_self hclass]
    · rw [hv.moves.others c' hc, ofClass_eq_nil hclass hc, List.nil_append]
  · intro c' st hst
    obtain ⟨old, hold, henq, hdeq⟩ := hv.stats c' st hst
    obtain ⟨hOld, hOld'⟩ := hk.stats c' old hold
    rw [henq, hdeq, hOld, hOld', ofClass_append, List.length_append]
    refine ⟨rfl, ?_⟩
    by_cases hc : c' = c
    · rw [if_pos hc, hc, ofClass_self hclass]
    · rw [if_neg hc, ofClass_eq_nil hclass hc, List.length_nil]
  · rw [hv.totalDequeued, hk.totalDequeued, List.length_append]

theorem Kept.drained (hk : Kept s accepted returned surplus) (hd : s.drainRound = (batch, s')) :
    Kept s' accepted (returned ++ batch) surplus :=
  drainClasses_induction (motive := fun out s => Kept s accepted out surplus)
    (fun _ _ _ _ _ hk hv => hk.visited hv) s.classOrder hk hd

/-- The job that was handed out last is put back. -/
theorem Kept.putBack (hk : Kept s accepted (returned ++ [job]) surplus)
    (hp : PutBack job s s') : Kept s' accepted returned (job :: surplus) := by
  refine ⟨?_, ?_, ?_, ?_, ?_, ?_⟩
  · intro j hj
    rw [hp.moves.known]
    exact hk.known j hj
  · have hgrown := hp.moves.grown (List.Perm.refl _)
    have honce := hk.once
    rw [List.append_assoc, List.singleton_append] at honce
    exact honce.trans (hgrown.symm.append_left returned)
  · intro c
    rw [hk.fifo, ofClass_append, ofClass_single, List.append_assoc]
    by_cases hc : c = classForJob job
    · rw [if_pos hc, hc, hp.moves.after_eq]
      rfl
    · rw [if_neg hc, hp.moves.others c hc, List.nil_append]
  · intro c st hst
    obtain ⟨old, hold, henq, hdeq⟩ := hp.stats c st hst
    obtain ⟨hOld, hOld'⟩ := hk.stats c old hold
    rw [henq, hdeq, hOld, hOld', ofClass_append, ofClass_single, ← List.singleton_append (l := surplus),
      ofClass_append, ofClass_single, List.length_append, List.length_append]
    split <;> simp
    omega
  · rw [hp.totalEnqueued, hk.totalEnqueued, List.length_cons]
    omega
  · rw [hp.totalDequeued, hk.totalDequeued, List.length_append, List.length_singleton]
    omega

/-- All but the first job of a batch are put back, the last one first. -/
theorem Kept.putAllBack (hk : Kept s accepted (returned ++ rest) surplus) :
    Kept (rest.foldr (fun job s => s.pushBack job) s) accepted returned (rest ++ surplus) := by
  induction rest generalizing returned with
  | nil => simpa using hk
  | cons job rest ih =>
    have hrest : Kept (rest.foldr (fun job s => s.pushBack job) s) accepted (returned ++ [job])
        (rest ++ surplus) := by
      apply ih
      rwa [List.append_assoc]
    have hmem : job ∈ accepted := by
      rw [hrest.once.mem_iff]
      simp
    exact hrest.putBack (pushBack_putBack (hrest.known job hmem))

theorem firstBatch_succ {rounds : Nat} (hd : s.drainRound = (batch, s')) :
    firstBatch (rounds + 1) s = if batch.isEmpty then firstBatch rounds s' else batch := by
  rw [firstBatch, hd]
  cases batch with
  | nil => rfl
  | cons first rest => rfl

theorem drained_queued (hd : s.drainRound = (batch, s')) : s.queued.Perm (batch ++ s'.queued) := by
  have hstep : ∀ out t c served t', s.queued.Perm (out ++ t.queued) → Visited c t served t' →
      s.queued.Perm (out ++ served ++ t'.queued) := by
    intro out t c served t' hperm hv
    rw [List.append_assoc]
    exact hperm.trans (hv.moves.served.append_left out)
  have hstart : s.queued.Perm ([] ++ s.queued) := List.Perm.refl _
  exact drainClasses_induction hstep s.classOrder hstart hd

theorem isEmpty_iff : s.isEmpty = true ↔ s.queued = [] := by
  unfold WfqScheduler.isEmpty queued
  rw [List.all_eq_true, List.flatMap_eq_nil_iff]
  simp only [List.isEmpty_iff]

theorem firstBatch_of_isEmpty (h : s.isEmpty = true) (rounds : Nat) : firstBatch rounds s = [] := by
  induction rounds generalizing s with
  | zero => rfl
  | succ rounds ih =>
    cases hd : s.drainRound with
    | mk batch s' =>
      have hperm := drained_queued hd
      rw [isEmpty_iff.mp h] at hperm
      obtain ⟨rfl, hs'⟩ := List.append_eq_nil_iff.mp hperm.nil_eq.symm
      rw [firstBatch_succ hd]
      exact ih (isEmpty_iff.mpr hs')

theorem Kept.nextRounds {rounds : Nat} {next : Option Job}
    (hk : Kept s accepted returned surplus) (hn : s.nextRounds rounds = some (next, s')) :
    Kept s' accepted (returned ++ next.toList) ((firstBatch rounds s).tail ++ surplus) := by
  induction rounds generalizing s with
  | zero => cases hn
  | succ rounds ih =>
    rw [WfqScheduler.nextRounds] at hn
    cases hd : s.drainRound with
    | mk batch s₁ =>
      have hk₁ := hk.drained hd
      rw [firstBatch_succ hd]
      rw [hd] at hn
      cases batch with
      | nil =>
        rw [List.append_nil] at hk₁
        dsimp only at hn
        by_cases hempty : s₁.isEmpty = true
        · rw [if_pos hempty] at hn
          cases hn
          rw [firstBatch_of_isEmpty hempty]
          simpa using hk₁
        · rw [if_neg hempty] at hn
          exact ih hk₁ hn
      | cons first rest =>
        cases hn
        rw [List.append_cons] at hk₁
        exact hk₁.putAllBack

/-- A call hands out the first job of the first round that yields any, and puts back the others. -/
theorem Kept.nextJob {rounds : Nat} {next : Option Job} (hk : Kept s accepted returned surplus)
    (hn : s.nextJob rounds = some (next, s')) :
    Kept s' accepted (returned ++ next.toList) ((firstBatch rounds s).tail ++ surplus) := by
  unfold WfqScheduler.nextJob at hn
  split at hn
  · rename_i hempty
    cases hn
    rw [firstBatch_of_isEmpty (Bool.and_eq_true_iff.mp hempty).2]
    simpa using hk
  · exact hk.nextRounds hn

end Steps

/-- The invariant of a history. -/
def History.Sound (h : History) : Prop := Kept h.scheduler h.accepted h.returned h.surplus

theorem sound_new (config : WfqConfig) :
    History.Sound { scheduler := WfqScheduler.new config } := by
  have hf := fresh_new config
  refine ⟨fun _ h => (nomatch h), ?_, ?_, hf.stats, hf.totals.1, hf.totals.2⟩
  · change List.Perm [] ([] ++ (WfqScheduler.new config).queued)
    rw [hf.queued, List.append_nil]
  · intro c
    change ofClass c [] = ofClass c [] ++ (WfqScheduler.new config).jobsOf c
    rw [hf.jobsOf, List.append_nil]

theorem History.Sound.step {h h' : History} {op : Op} (hs : h.Sound) (ho : h.step op = some h') :
    h'.Sound := by
  cases op with
  | enqueue job =>
    cases he : h.scheduler.enqueue job with
    | mk accepts s =>
      simp only [History.step, he, Option.some.injEq] at ho
      subst ho
      rcases enqueue_joined he with ⟨rfl, hj⟩ | ⟨rfl, rfl⟩
      · exact Kept.joined hs hj
      · exact hs
  | drainRound =>
    cases ho
    exact Kept.drained hs rfl
  | nextJob rounds =>
    obtain ⟨⟨job, s⟩, hn, hh⟩ := Option.bind_eq_some_iff.mp ho
    cases hh
    exact Kept.nextJob hs hn

theorem History.Sound.run {h h' : History} {ops : List Op} (hs : h.Sound)
    (hr : ops.foldlM History.step h = some h') : h'.Sound := by
  induction ops generalizing h with
  | nil =>
    cases hr
    exact hs
  | cons op ops ih =>
    rw [List.foldlM_cons] at hr
    obtain ⟨h₁, ho, hr⟩ := Option.bind_eq_some_iff.mp hr
    exact ih (hs.step ho) hr

/-- Every accepted job is handed out once or still queued, in the order of its class, and the
counters count the accepted calls, the jobs handed out and, between them, the queues. -/
structure Conserved (h : History) : Prop where
  once : h.accepted.Perm (h.returned ++ h.scheduler.queued)
  fifo : ∀ c, ofClass c h.accepted = ofClass c h.returned ++ h.scheduler.jobsOf c
  byClass : ∀ c st, h.scheduler.stats.lookup c = some st →
    st.enqueued = (ofClass c h.accepted).length ∧ st.dequeued = (ofClass c h.returned).length ∧
      st.enqueued = st.dequeued + (h.scheduler.jobsOf c).length
  inTotal : h.scheduler.totalEnqueued = h.accepted.length ∧
    h.scheduler.totalDequeued = h.returned.length ∧
      h.scheduler.totalEnqueued = h.scheduler.totalDequeued + h.scheduler.len

theorem len_eq (s : WfqScheduler) : s.len = s.queued.length := by
  unfold WfqScheduler.len queued
  rw [List.length_flatMap]

theorem History.Sound.conserved_iff {h : History} (hs : h.Sound) :
    Conserved h ↔ h.surplus = [] := by
  constructor
  · intro hc
    have htotal := hc.inTotal.1
    rw [hs.totalEnqueued] at htotal
    exact List.length_eq_zero_iff.mp (by omega)
  · intro hnone
    have hstats := hs.stats
    have htotal := hs.totalEnqueued
    have hlen := hs.once.length_eq
    rw [hnone] at hstats htotal
    rw [List.length_append, ← len_eq] at hlen
    refine ⟨hs.once, hs.fifo, ?_, ?_⟩
    · intro c st hst
      obtain ⟨henq, hdeq⟩ := hstats c st hst
      have hclass := congrArg List.length (hs.fifo c)
      rw [List.length_append] at hclass
      exact ⟨henq, hdeq, by rw [henq, hdeq, hclass]; rfl⟩
    · exact ⟨htotal, hs.totalDequeued, by rw [htotal, hs.totalDequeued, hlen]; rfl⟩

/-- In no call of `next_job` does the round that yields its job yield another one. -/
def OneAtATime : History → List Op → Prop
  | _, [] => True
  | h, op :: ops =>
    (∀ rounds, op = .nextJob rounds → (firstBatch rounds h.scheduler).length ≤ 1) ∧
      ∀ h', h.step op = some h' → OneAtATime h' ops

instance decidableOneAtATime : ∀ (h : History) (ops : List Op), Decidable (OneAtATime h ops)
  | _, [] => isTrue trivial
  | h, op :: ops =>
    have : Decidable (∀ rounds, op = .nextJob rounds →
        (firstBatch rounds h.scheduler).length ≤ 1) :=
      match op with
      | .enqueue _ | .drainRound => isTrue nofun
      | .nextJob rounds => decidable_of_iff ((firstBatch rounds h.scheduler).length ≤ 1)
          ⟨fun hle _ heq => Op.nextJob.inj heq ▸ hle, fun hall => hall rounds rfl⟩
    have : Decidable (∀ h', h.step op = some h' → OneAtATime h' ops) :=
      match h.step op with
      | none => isTrue nofun
      | some h' =>
        have := decidableOneAtATime h' ops
        decidable_of_iff (OneAtATime h' ops)
          ⟨fun hone _ heq => Option.some.inj heq ▸ hone, fun hall => hall h' rfl⟩
    inferInstanceAs (Decidable (_ ∧ _))

theorem surplus_step {h h' : History} {op : Op} (ho : h.step op = some h') :
    h'.surplus = [] ↔ h.surplus = [] ∧
      ∀ rounds, op = .nextJob rounds → (firstBatch rounds h.scheduler).length ≤ 1 := by
  cases op with
  | enqueue job =>
    cases ho
    simp
  | drainRound =>
    cases ho
    simp
  | nextJob rounds =>
    obtain ⟨_, -, hh⟩ := Option.bind_eq_some_iff.mp ho
    cases hh
    have htail : (firstBatch rounds h.scheduler).tail = [] ↔
        (firstBatch rounds h.scheduler).length ≤ 1 := by
      rw [← List.length_eq_zero_iff, List.length_tail]
      omega
    simp [htail, and_comm]

theorem surplus_run {h h' : History} {ops : List Op}
    (hr : ops.foldlM History.step h = some h') :
    h'.surplus = [] ↔ h.surplus = [] ∧ OneAtATime h ops := by
  induction ops generalizing h with
  | nil =>
    cases hr
    simp [OneAtATime]
  | cons op ops ih =>
    rw [List.foldlM_cons] at hr
    obtain ⟨h₁, ho, hr⟩ := Option.bind_eq_some_iff.mp hr
    have honly : (∀ h', h.step op = some h' → OneAtATime h' ops) ↔ OneAtATime h₁ ops := by
      rw [ho]
      simp
    rw [ih hr, surplus_step ho, OneAtATime, honly, and_assoc]

/-- No job is lost, doubled or overtaken in its class; and the counters stay tied to the flow
of jobs exactly if `next_job` never has to put jobs back. -/
theorem conserved_iff_one_at_a_time (config : WfqConfig) (ops : List Op) (h : History)
    (hr : run config ops = some h) :
    h.accepted.Perm (h.returned ++ h.scheduler.queued) ∧
      (∀ c, ofClass c h.accepted = ofClass c h.returned ++ h.scheduler.jobsOf c) ∧
        (Conserved h ↔ OneAtATime { scheduler := WfqScheduler.new config } ops) := by
  have hs := (sound_new config).run hr
  refine ⟨hs.once, hs.fifo, ?_⟩
  rw [hs.conserved_iff, surplus_run hr]
  simp

/-- Two jobs that one round pays for, and a call of `next_job`. -/
def putBackOnce : List Op :=
  [.enqueue { id := 1, computeCost := 100 }, .enqueue { id := 2, computeCost := 100 }, .nextJob 1]

theorem put_back_counted_twice : ∃ h, run {} putBackOnce = some h ∧ ¬ Conserved h := by
  have hrun : ((run {} putBackOnce).map fun h => h.scheduler.totalEnqueued) = some 3 ∧
      ((run {} putBackOnce).map fun h => h.accepted.length) = some 2 := by decide +kernel
  obtain ⟨h, hh, henq⟩ := Option.map_eq_some_iff.mp hrun.1
  obtain ⟨h', hh', hacc⟩ := Option.map_eq_some_iff.mp hrun.2
  cases hh.symm.trans hh'
  refine ⟨h, hh, fun hc => ?_⟩
  have htotal := hc.inTotal.1
  rw [henq, hacc] at htotal
  cases htotal

/-- Two classes whose jobs cost several rounds each, so that no round pays for two of them. -/
def dearJobs : List Op :=
  [.enqueue { id := 1, computeCost := 7000 },
    .enqueue { id := 2, kind := .primeCount, computeCost := 9000 },
    .enqueue { id := 3, computeCost := 4000 }, .nextJob 5, .nextJob 5,
    .enqueue { id := 4, kind := .primeCount, computeCost := 1500 }, .nextJob 5]

theorem dear_conserved : ∃ h, run {} dearJobs = some h ∧ h.returned.map (·.id) = [1, 3, 2] ∧
    h.scheduler.queued.map (·.id) = [4] ∧ Conserved h := by
  have hrun : ((run {} dearJobs).any fun h => h.returned.map (·.id) == [1, 3, 2] &&
      h.scheduler.queued.map (·.id) == [4]) = true := by decide +kernel
  obtain ⟨h, hh, hids⟩ := (Option.any_eq_true _ _).mp hrun
  obtain ⟨hreturned, hqueued⟩ := Bool.and_eq_true_iff.mp hids
  exact ⟨h, hh, beq_iff_eq.mp hreturned, beq_iff_eq.mp hqueued,
    (conserved_iff_one_at_a_time {} _ h hh).2.2.mpr (by decide +kernel)⟩

end HelixRouter.FairQueue
