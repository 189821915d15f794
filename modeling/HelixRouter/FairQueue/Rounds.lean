import HelixRouter.FairQueue.Conservation
import HelixRouter.FairQueue.Credit
import Mathlib.Data.List.Induction

namespace HelixRouter.FairQueue.WfqScheduler

/-- The batches of so many rounds, one after the other. -/
def drainRounds : Nat → WfqScheduler → List Job × WfqScheduler
  | 0, s => ([], s)
  | rounds + 1, s =>
    let (batch, s) := s.drainRound
    let (more, s) := drainRounds rounds s
    (batch ++ more, s)

/-- What repeated calls of `next_job` hand out, each with the rounds it takes. -/
inductive NextJobs : WfqScheduler → List Job → WfqScheduler → Prop where
  | nil (s : WfqScheduler) : NextJobs s [] s
  | cons {s s' t : WfqScheduler} {job : Job} {jobs : List Job} {rounds : Nat}
    (h : s.nextJob rounds = some (some job, s')) (rest : NextJobs s' jobs t) :
    NextJobs s (job :: jobs) t

/-- What the calls of `next_job` hand out until one answers that there is nothing left. -/
def NextAll (s : WfqScheduler) (order : List Job) : Prop :=
  ∃ s', NextJobs s order s' ∧ ∃ rounds t, s'.nextJob rounds = some (none, t)

/-- What the rounds yield until all queues are empty. -/
def DrainAll (s : WfqScheduler) (order : List Job) : Prop :=
  ∃ rounds t, s.drainRounds rounds = (order, t) ∧ t.isEmpty = true

/-- Single calls and whole rounds both come to an end, and hand out the jobs in one order. -/
def SameOrder (s : WfqScheduler) : Prop := ∃ order, s.NextAll order ∧ s.DrainAll order

/-- A state the scheduler can be in: its jobs are accounted for, it visits every class it knows,
and what earns nothing has no deficit. -/
structure Standing (s : WfqScheduler) : Prop where
  kept : ∃ accepted returned surplus, Kept s accepted returned surplus
  known : ∀ c, s.Known c → c ∈ s.classOrder
  settled : s.Settled

/-- Some jobs are gone from the front of their classes. -/
structure Takes (jobs : List Job) (s s' : WfqScheduler) : Prop where
  standing : s'.Standing
  same : SameCredit s s'
  split : ∀ c, s.jobsOf c = ofClass c jobs ++ s'.jobsOf c
  queued : s.queued.Perm (jobs ++ s'.queued)

variable {s s' t : WfqScheduler} {c : String} {served batch jobs : List Job} {job : Job}
  {classes : List String}

theorem Standing.listed (h : s.Standing) (c : String) (hc : s.jobsOf c ≠ []) :
    c ∈ s.classOrder := by
  refine h.known c ?_
  unfold jobsOf at hc
  unfold Known
  cases hq : s.queues.lookup c with
  | none =>
    rw [hq] at hc
    exact absurd rfl hc
  | some queue => rfl

theorem Takes.shrinks (h : Takes jobs s s') (c : String) (hempty : s.jobsOf c = []) :
    s'.jobsOf c = [] := by
  rw [h.split] at hempty
  exact (List.append_eq_nil_iff.mp hempty).2

theorem takes_of_kept {accepted returned surplus surplus' : List Job} (h : s.Standing)
    (hk : Kept s accepted returned surplus) (hk' : Kept s' accepted (returned ++ jobs) surplus')
    (hsame : SameCredit s s') (hset : s'.Settled) : Takes jobs s s' := by
  have hjobs : ∀ c, s.jobsOf c = ofClass c jobs ++ s'.jobsOf c := by
    intro c
    have hsplit := (hk.fifo c).symm.trans (hk'.fifo c)
    rw [ofClass_append, List.append_assoc] at hsplit
    exact List.append_cancel_left hsplit
  refine ⟨⟨⟨accepted, _, _, hk'⟩, fun c hc => ?_, hset⟩, hsame, hjobs, ?_⟩
  · rw [hsame.order]
    exact h.known c ((hsame.known c).mp hc)
  · have hperm := hk.once.symm.trans hk'.once
    rw [List.append_assoc] at hperm
    exact (List.perm_append_left_iff returned).mp hperm

theorem drainClasses_same (h : drainClasses classes s = (batch, s')) : SameCredit s s' := by
  induction classes generalizing s batch with
  | nil =>
    cases h
    exact SameCredit.refl _
  | cons c classes ih =>
    rw [drainClasses_cons] at h
    obtain ⟨-, hs'⟩ := Prod.mk.inj h
    exact (turn rfl).same.trans (ih (Prod.ext rfl hs'))

theorem drainClasses_settled (hset : s.Settled) (h : drainClasses classes s = (batch, s')) :
    s'.Settled := by
  induction classes generalizing s batch with
  | nil =>
    cases h
    exact hset
  | cons c classes ih =>
    rw [drainClasses_cons] at h
    obtain ⟨-, hs'⟩ := Prod.mk.inj h
    exact ih (hset.visit (rfl : s.visit c = _)).1 (Prod.ext rfl hs')

theorem Standing.drained (h : s.Standing) (hd : s.drainRound = (batch, s')) :
    Takes batch s s' := by
  obtain ⟨accepted, returned, surplus, hk⟩ := h.kept
  exact takes_of_kept h hk (hk.drained hd) (drainClasses_same hd)
    (drainClasses_settled h.settled hd)

theorem drainRounds_succ (hd : s.drainRound = (batch, s')) (rounds : Nat) :
    s.drainRounds (rounds + 1) =
      (batch ++ (s'.drainRounds rounds).1, (s'.drainRounds rounds).2) := by
  rw [drainRounds, hd]

theorem Takes.trans {more : List Job} (h : Takes jobs s s') (h' : Takes more s' t) :
    Takes (jobs ++ more) s t := by
  refine ⟨h'.standing, h.same.trans h'.same, fun c => ?_, ?_⟩
  · rw [h.split, h'.split, ofClass_append, List.append_assoc]
  · rw [List.append_assoc]
    exact h.queued.trans (h'.queued.append_left jobs)

theorem Takes.refl (h : s.Standing) : Takes [] s s :=
  ⟨h, SameCredit.refl s, fun _ => rfl, List.Perm.refl _⟩

theorem Standing.drainRounds (h : s.Standing) (rounds : Nat) :
    Takes (s.drainRounds rounds).1 s (s.drainRounds rounds).2 := by
  induction rounds generalizing s with
  | zero => exact .refl h
  | succ rounds ih =>
    cases hd : s.drainRound with
    | mk batch s' =>
      rw [drainRounds_succ hd]
      have htakes := h.drained hd
      exact htakes.trans (ih htakes.standing)

/-- What a call that hands out a job has gone through: rounds for nothing, then one with a
batch, whose other jobs are put back. -/
theorem nextRounds_found {rounds : Nat} (h : s.nextRounds rounds = some (some job, s')) :
    ∃ idle t rest s₁, s.drainRounds idle = ([], t) ∧ t.drainRound = (job :: rest, s₁) ∧
      s' = rest.foldr (fun job s => s.pushBack job) s₁ ∧ firstBatch rounds s = job :: rest := by
  induction rounds generalizing s with
  | zero => cases h
  | succ rounds ih =>
    rw [nextRounds] at h
    cases hd : s.drainRound with
    | mk batch s₁ =>
      rw [hd] at h
      cases batch with
      | nil =>
        dsimp only at h
        split at h
        · cases h
        · obtain ⟨idle, t, rest, s₂, hidle, hround, hs', hfirst⟩ := ih h
          refine ⟨idle + 1, t, rest, s₂, ?_, hround, hs', ?_⟩
          · rw [drainRounds_succ hd, hidle]
            rfl
          · rw [firstBatch_succ hd]
            exact hfirst
      | cons first rest =>
        cases h
        exact ⟨0, s, rest, s₁, rfl, hd, rfl, by rw [firstBatch_succ hd]; rfl⟩

theorem nextJob_found {rounds : Nat} (h : s.nextJob rounds = some (some job, s')) :
    s.nextRounds rounds = some (some job, s') := by
  unfold nextJob at h
  split at h
  · cases h
  · exact h

theorem putAllBack_credit (rest : List Job) (s : WfqScheduler) :
    SameCredit s (rest.foldr (fun job s => s.pushBack job) s) ∧
      ∀ c, (rest.foldr (fun job s => s.pushBack job) s).deficitOf c = s.deficitOf c := by
  induction rest with
  | nil => exact ⟨SameCredit.refl s, fun _ => rfl⟩
  | cons job rest ih =>
    obtain ⟨hsame, hdef⟩ := pushBack_credit (rest.foldr (fun job s => s.pushBack job) s) job
    exact ⟨ih.1.trans hsame, fun c => (hdef c).trans (ih.2 c)⟩

theorem Standing.nextJob {rounds : Nat} (h : s.Standing)
    (hn : s.nextJob rounds = some (some job, s')) : Takes [job] s s' := by
  obtain ⟨accepted, returned, surplus, hk⟩ := h.kept
  have hk' := hk.nextJob hn
  obtain ⟨idle, t, rest, s₁, hidle, hround, rfl, -⟩ := nextRounds_found (nextJob_found hn)
  obtain ⟨hback, hdef⟩ := putAllBack_credit rest s₁
  have ht := h.drainRounds idle
  rw [hidle] at ht
  have hs₁ := ht.standing.drained hround
  exact takes_of_kept h hk hk' ((ht.same.trans hs₁.same).trans hback)
    (hs₁.standing.settled.put hback hdef)

theorem NextJobs.takes (hn : NextJobs s jobs s') (hs : s.Standing) : Takes jobs s s' := by
  induction hn with
  | nil => exact .refl hs
  | cons h _ ih =>
    have htakes := hs.nextJob h
    exact htakes.trans (ih htakes.standing)

/-- Rounds that yield nothing come first, however many of all rounds are looked at. -/
theorem drainRounds_idle {idle : Nat} (h : s.drainRounds idle = ([], t)) (rounds : Nat) :
    (s.drainRounds rounds).1 = [] ∨ ∃ more, s.drainRounds rounds = t.drainRounds more := by
  induction idle generalizing s rounds with
  | zero =>
    cases h
    exact .inr ⟨rounds, rfl⟩
  | succ idle ih =>
    cases hd : s.drainRound with
    | mk batch s' =>
      rw [drainRounds_succ hd] at h
      obtain ⟨hnil, ht⟩ := Prod.mk.inj h
      obtain ⟨rfl, hrest⟩ := List.append_eq_nil_iff.mp hnil
      cases rounds with
      | zero => exact .inl rfl
      | succ rounds =>
        rw [drainRounds_succ hd]
        exact ih (Prod.ext hrest ht) rounds

theorem drainRounds_add (s : WfqScheduler) (rounds more : Nat) : s.drainRounds (rounds + more) =
    ((s.drainRounds rounds).1 ++ ((s.drainRounds rounds).2.drainRounds more).1,
      ((s.drainRounds rounds).2.drainRounds more).2) := by
  induction rounds generalizing s with
  | zero => simp [WfqScheduler.drainRounds]
  | succ rounds ih =>
    cases hd : s.drainRound with
    | mk batch s' =>
      rw [Nat.add_right_comm, drainRounds_succ hd, drainRounds_succ hd, ih, List.append_assoc]

theorem nextRounds_det {rounds rounds' : Nat} {next next' : Option Job × WfqScheduler}
    (h : s.nextRounds rounds = some next) (h' : s.nextRounds rounds' = some next') :
    next = next' := by
  induction rounds generalizing s rounds' with
  | zero => cases h
  | succ rounds ih =>
    cases rounds' with
    | zero => cases h'
    | succ rounds' =>
      rw [nextRounds] at h h'
      cases hd : s.drainRound with
      | mk batch s₁ =>
        rw [hd] at h h'
        cases batch with
        | nil =>
          dsimp only at h h'
          by_cases hempty : s₁.isEmpty = true
          · rw [if_pos hempty] at h h'
            exact Option.some.inj (h.symm.trans h')
          · rw [if_neg hempty] at h h'
            exact ih h h'
        | cons first rest => exact Option.some.inj (h.symm.trans h')

theorem nextJob_det {rounds rounds' : Nat} {next next' : Option Job × WfqScheduler}
    (h : s.nextJob rounds = some next) (h' : s.nextJob rounds' = some next') : next = next' := by
  unfold WfqScheduler.nextJob at h h'
  by_cases hempty : (s.totalEnqueued = s.totalDequeued && s.isEmpty) = true
  · rw [if_pos hempty] at h h'
    exact Option.some.inj (h.symm.trans h')
  · rw [if_neg hempty] at h h'
    exact nextRounds_det h h'

/-- Some calls are the first of all calls. -/
theorem NextJobs.toward {order : List Job} (hn : NextJobs s jobs s') (ha : s.NextAll order) :
    ∃ more, order = jobs ++ more ∧ s'.NextAll more := by
  induction hn generalizing order with
  | nil => exact ⟨order, rfl, ha⟩
  | cons h _ ih =>
    obtain ⟨u, hnext, rounds, v, hnone⟩ := ha
    cases hnext with
    | nil => cases nextJob_det h hnone
    | cons h' hrest =>
      cases nextJob_det h h'
      obtain ⟨more, rfl, hmore⟩ := ih ⟨u, hrest, rounds, v, hnone⟩
      exact ⟨more, rfl, hmore⟩

/-- Every job can be paid for by a class that earns credit, and no credit overflows until then. -/
structure Solvent (s : WfqScheduler) : Prop where
  paid : ∀ c, ∀ job ∈ s.jobsOf c, (s.gainOf c = 0 → job.computeCost = 0) ∧
    job.computeCost.toNat + (s.gainOf c).toNat ≤ 2 ^ 64
  fits : ∀ c, (s.deficitOf c).toNat + (s.gainOf c).toNat < 2 ^ 64

theorem serve_left {deficit left_ : UInt64} {left : List Job}
    (h : serve deficit jobs = (left_, served, left)) :
    left = [] ∨ ∃ job ∈ left, left_ < job.computeCost := by
  induction jobs generalizing deficit served with
  | nil =>
    cases h
    exact .inl rfl
  | cons job rest ih =>
    unfold serve at h
    split at h
    · cases h
      exact ih rfl
    · rename_i hcost
      cases h
      exact .inr ⟨job, List.mem_cons_self, UInt64.not_le.mp hcost⟩

theorem Solvent.moved (h : s.Solvent) (hsame : SameCredit s s')
    (hjobs : ∀ c, s'.jobsOf c ⊆ s.jobsOf c)
    (hfits : ∀ c, (s'.deficitOf c).toNat + (s.gainOf c).toNat < 2 ^ 64) : s'.Solvent where
  paid c job hj := by
    rw [hsame.gain]
    exact h.paid c job (hjobs c hj)
  fits c := by
    rw [hsame.gain]
    exact hfits c

theorem Visited.subset (hv : Visited c s served s') (c' : String) :
    s'.jobsOf c' ⊆ s.jobsOf c' := by
  by_cases hc : c' = c
  · rw [hc, hv.moves.before_eq]
    exact List.subset_append_right _ _
  · rw [hv.moves.others c' hc]
    exact List.Subset.refl _

theorem Visited.shrinks (hv : Visited c s served s') (c' : String) (hempty : s.jobsOf c' = []) :
    s'.jobsOf c' = [] := List.subset_nil.mp (hempty ▸ hv.subset c')

theorem Solvent.visit (h : s.Solvent) (hv : s.visit c = (served, s')) : s'.Solvent := by
  have ht := turn hv
  have hjobs := (visited hv).subset
  refine h.moved ht.same hjobs fun c' => ?_
  by_cases hc : c' = c
  · subst hc
    have hword := (s.gainOf c').toNat_lt
    by_cases hempty : s.jobsOf c' = []
    · rw [(ht.idle hempty).2.2]
      simpa using hword
    · obtain ⟨deficit, hserve, hdeficit⟩ := ht.serves hempty
      rw [hdeficit]
      rcases serve_left hserve with hnone | ⟨job, hj, hlt⟩
      · rw [if_pos hnone]
        simpa using hword
      · rw [if_neg (List.ne_nil_of_mem hj)]
        have hpaid := (h.paid c' job (hjobs c' hj)).2
        have hless := UInt64.lt_iff_toNat_lt.mp hlt
        omega
  · rw [ht.others c' hc]
    exact h.fits c'

theorem Solvent.drained (h : s.Solvent) (hd : drainClasses classes s = (batch, s')) :
    s'.Solvent := by
  induction classes generalizing s batch with
  | nil =>
    cases hd
    exact h
  | cons c classes ih =>
    rw [drainClasses_cons] at hd
    obtain ⟨-, hs'⟩ := Prod.mk.inj hd
    exact ih (h.visit (rfl : s.visit c = _)) (Prod.ext rfl hs')

theorem Solvent.drainRounds (h : s.Solvent) (rounds : Nat) : (s.drainRounds rounds).2.Solvent := by
  induction rounds generalizing s with
  | zero => exact h
  | succ rounds ih =>
    cases hd : s.drainRound with
    | mk batch s' =>
      rw [drainRounds_succ hd]
      exact ih (h.drained hd)

theorem Solvent.nextJob {rounds : Nat} (h : s.Solvent) (hs : s.Standing)
    (hn : s.nextJob rounds = some (some job, s')) : s'.Solvent := by
  have htakes := hs.nextJob hn
  obtain ⟨idle, t, rest, s₁, hidle, hround, rfl, -⟩ := nextRounds_found (nextJob_found hn)
  have ht := h.drainRounds idle
  rw [hidle] at ht
  have hs₁ := ht.drained hround
  obtain ⟨hback, hdef⟩ := putAllBack_credit rest s₁
  refine h.moved htakes.same (fun c => ?_) fun c => ?_
  · rw [htakes.split]
    exact List.subset_append_right _ _
  · rw [hdef, ← htakes.same.gain, hback.gain]
    exact hs₁.fits c

/-- What is visited for nothing, though it has jobs, has earned something. -/
theorem Solvent.idle_visit (h : s.Solvent) (hc : s.jobsOf c ≠ []) {c' : String}
    (hv : s.visit c' = ([], s')) : s'.jobsOf c = s.jobsOf c ∧
      (s.deficitOf c).toNat ≤ (s'.deficitOf c).toNat ∧
      (c' = c → (s.deficitOf c).toNat < (s'.deficitOf c).toNat) := by
  have ht := turn hv
  have hmoves := (visited hv).moves
  by_cases heq : c' = c
  · subst heq
    have hjobs : s'.jobsOf c' = s.jobsOf c' := hmoves.before_eq.symm
    obtain ⟨deficit, hserve, hdeficit⟩ := ht.serves hc
    obtain ⟨job, more, hcons⟩ := List.exists_cons_of_ne_nil hc
    have hpaid := h.paid c' job (by simp [hcons])
    have hfits := h.fits c'
    rw [hcons, serve] at hserve
    by_cases hcost : job.computeCost ≤ s.deficitOf c' + s.gainOf c'
    · rw [if_pos hcost] at hserve
      cases (Prod.mk.inj (Prod.mk.inj hserve).2).1
    · rw [if_neg hcost] at hserve
      have hsum : s'.deficitOf c' = s.deficitOf c' + s.gainOf c' := by
        rw [hdeficit, if_neg (hjobs ▸ hc), (Prod.mk.inj hserve).1]
      have hgain : s.gainOf c' ≠ 0 := fun h0 => hcost (by
        rw [hpaid.1 h0]
        exact UInt64.zero_le)
      have hpos : 0 < (s.gainOf c').toNat :=
        Nat.pos_of_ne_zero fun h0 => hgain (UInt64.toNat_inj.mp h0)
      have hnat : (s'.deficitOf c').toNat = (s.deficitOf c').toNat + (s.gainOf c').toNat := by
        rw [hsum, UInt64.toNat_add, Nat.mod_eq_of_lt hfits]
      exact ⟨hjobs, by omega, fun _ => by omega⟩
  · have hne : c ≠ c' := fun h => heq h.symm
    rw [ht.others c hne, hmoves.others c hne]
    exact ⟨rfl, Nat.le_refl _, fun h => absurd h heq⟩

theorem Solvent.idle_classes (h : s.Solvent) (hc : s.jobsOf c ≠ [])
    (hd : drainClasses classes s = ([], s')) : s'.jobsOf c = s.jobsOf c ∧
      (s.deficitOf c).toNat ≤ (s'.deficitOf c).toNat ∧
      (c ∈ classes → (s.deficitOf c).toNat < (s'.deficitOf c).toNat) := by
  induction classes generalizing s with
  | nil =>
    cases hd
    exact ⟨rfl, Nat.le_refl _, fun hin => nomatch hin⟩
  | cons c' classes ih =>
    rw [drainClasses_cons] at hd
    obtain ⟨hnil, hs'⟩ := Prod.mk.inj hd
    obtain ⟨hserved, hmore⟩ := List.append_eq_nil_iff.mp hnil
    have hv : s.visit c' = ([], (s.visit c').2) := Prod.ext hserved rfl
    obtain ⟨hjobs, hle, hlt⟩ := h.idle_visit hc hv
    obtain ⟨hjobs', hle', hlt'⟩ := ih (h.visit hv) (hjobs ▸ hc) (Prod.ext hmore hs')
    refine ⟨hjobs'.trans hjobs, Nat.le_trans hle hle', fun hin => ?_⟩
    rcases List.mem_cons.mp hin with hhere | hin
    · exact Nat.lt_of_lt_of_le (hlt hhere.symm) hle'
    · exact Nat.lt_of_le_of_lt hle (hlt' hin)

/-- As long as there are jobs, some round yields one. -/
theorem Solvent.found (h : s.Solvent) (hc : s.jobsOf c ≠ []) (hin : c ∈ s.classOrder) :
    ∃ idle t first rest s₁, s.drainRounds idle = ([], t) ∧ t.drainRound = (first :: rest, s₁) := by
  -- each round for nothing raises a deficit that fits a word
  induction hroom : 2 ^ 64 - (s.deficitOf c).toNat using Nat.strong_induction_on generalizing s with
  | _ room ih =>
    cases hd : s.drainRound with
    | mk batch s' =>
      cases batch with
      | cons first rest => exact ⟨0, s, first, rest, s', rfl, hd⟩
      | nil =>
        obtain ⟨hjobs, -, hlt⟩ := h.idle_classes hc hd
        have hraised := hlt hin
        have hword := (s'.deficitOf c).toNat_lt
        have hsmaller : 2 ^ 64 - (s'.deficitOf c).toNat < room := by omega
        obtain ⟨idle, t, first, rest, s₁, hidle, hround⟩ := ih _ hsmaller (h.drained hd)
          (hjobs ▸ hc) ((drainClasses_same hd).order ▸ hin) rfl
        refine ⟨idle + 1, t, first, rest, s₁, ?_, hround⟩
        rw [drainRounds_succ hd, hidle]
        rfl

theorem exists_jobsOf (h : s.isEmpty ≠ true) : ∃ c, s.jobsOf c ≠ [] := by
  rw [ne_eq, isEmpty_iff] at h
  obtain ⟨job, hj⟩ := List.exists_mem_of_ne_nil _ h
  obtain ⟨⟨c, queue⟩, he, hjob⟩ := List.mem_flatMap.mp hj
  have hq : s.queues.lookup c = some queue := AList.mem_lookup_iff.mpr he
  refine ⟨c, List.ne_nil_of_mem (a := job) ?_⟩
  unfold jobsOf
  rw [hq]
  exact hjob

theorem Solvent.drainAll (h : s.Solvent) (hs : s.Standing) : ∃ order, s.DrainAll order := by
  induction hlen : s.queued.length using Nat.strong_induction_on generalizing s with
  | _ length ih =>
    by_cases hempty : s.isEmpty = true
    · exact ⟨[], 0, s, rfl, hempty⟩
    · obtain ⟨c, hc⟩ := exists_jobsOf hempty
      obtain ⟨idle, t, first, rest, s₁, hidle, hround⟩ := h.found hc (hs.listed c hc)
      have hrounds : s.drainRounds (idle + 1) = (first :: rest, s₁) := by
        rw [drainRounds_add, hidle, drainRounds_succ hround]
        simp [WfqScheduler.drainRounds]
      have htakes := hs.drainRounds (idle + 1)
      have hsolvent := h.drainRounds (idle + 1)
      rw [hrounds] at htakes hsolvent
      have hshorter := htakes.queued.length_eq
      rw [List.length_append, List.length_cons] at hshorter
      obtain ⟨order, rounds, u, hrest, hend⟩ := ih _ (by omega) hsolvent htakes.standing rfl
      refine ⟨first :: rest ++ order, idle + 1 + rounds, u, ?_, hend⟩
      rw [drainRounds_add, hrounds, hrest]

theorem nextRounds_of_idle {idle : Nat} {rest : List Job} {s₁ : WfqScheduler} (hs : s.Standing)
    (hidle : s.drainRounds idle = ([], t)) (hround : t.drainRound = (job :: rest, s₁)) :
    s.nextRounds (idle + 1) = some (some job, rest.foldr (fun job s => s.pushBack job) s₁) := by
  induction idle generalizing s with
  | zero =>
    cases hidle
    rw [nextRounds, hround]
  | succ idle ih =>
    cases hd : s.drainRound with
    | mk batch s' =>
      rw [drainRounds_succ hd] at hidle
      obtain ⟨hnil, ht⟩ := Prod.mk.inj hidle
      obtain ⟨rfl, hrest⟩ := List.append_eq_nil_iff.mp hnil
      have hs' := (hs.drained hd).standing
      have hmore : s'.drainRounds idle = ([], t) := Prod.ext hrest ht
      have hleft : ¬ s'.isEmpty = true := by
        intro hempty
        have htakes := hs'.drainRounds idle
        rw [hmore] at htakes
        have hlen := htakes.queued.length_eq
        have hlen' := (htakes.standing.drained hround).queued.length_eq
        rw [isEmpty_iff.mp hempty] at hlen
        simp at hlen hlen'
        omega
      rw [nextRounds, hd]
      dsimp only
      rw [if_neg hleft]
      exact ih hs' hmore

theorem nextJob_of_isEmpty (h : s.isEmpty = true) : ∃ t, s.nextJob 1 = some (none, t) := by
  unfold WfqScheduler.nextJob
  by_cases hcount : (s.totalEnqueued = s.totalDequeued && s.isEmpty) = true
  · exact ⟨s, if_pos hcount⟩
  · rw [if_neg hcount]
    cases hd : s.drainRound with
    | mk batch s' =>
      have hperm := drained_queued hd
      rw [isEmpty_iff.mp h] at hperm
      obtain ⟨rfl, hs'⟩ := List.append_eq_nil_iff.mp hperm.nil_eq.symm
      exact ⟨s', by simp [nextRounds, hd, isEmpty_iff.mpr hs']⟩

theorem nextRounds_none {rounds : Nat} (h : s.nextRounds rounds = some (none, t)) :
    s.queued = [] ∧ ∃ idle, s.drainRounds idle = ([], t) := by
  induction rounds generalizing s with
  | zero => cases h
  | succ rounds ih =>
    rw [nextRounds] at h
    cases hd : s.drainRound with
    | mk batch s₁ =>
      rw [hd] at h
      cases batch with
      | cons first rest => cases h
      | nil =>
        have hperm := drained_queued hd
        dsimp only at h
        by_cases hempty : s₁.isEmpty = true
        · rw [if_pos hempty] at h
          cases h
          rw [isEmpty_iff.mp hempty] at hperm
          exact ⟨hperm.eq_nil, 1, by rw [drainRounds_succ hd]; rfl⟩
        · rw [if_neg hempty] at h
          obtain ⟨hqueued, idle, hidle⟩ := ih h
          rw [hqueued] at hperm
          exact ⟨hperm.eq_nil, idle + 1, by rw [drainRounds_succ hd, hidle]; rfl⟩

/-- A call that finds nothing has only gone through rounds for nothing. -/
theorem nextJob_none {rounds : Nat} (h : s.nextJob rounds = some (none, t)) :
    s.isEmpty = true ∧ ∃ idle, s.drainRounds idle = ([], t) := by
  unfold WfqScheduler.nextJob at h
  by_cases hcount : (s.totalEnqueued = s.totalDequeued && s.isEmpty) = true
  · rw [if_pos hcount] at h
    cases h
    exact ⟨(Bool.and_eq_true_iff.mp hcount).2, 0, rfl⟩
  · rw [if_neg hcount] at h
    obtain ⟨hqueued, hidle⟩ := nextRounds_none h
    exact ⟨isEmpty_iff.mpr hqueued, hidle⟩

theorem Solvent.nextAll (h : s.Solvent) (hs : s.Standing) : ∃ order, s.NextAll order := by
  induction hlen : s.queued.length using Nat.strong_induction_on generalizing s with
  | _ length ih =>
    by_cases hempty : s.isEmpty = true
    · obtain ⟨t, ht⟩ := nextJob_of_isEmpty hempty
      exact ⟨[], s, .nil s, 1, t, ht⟩
    · obtain ⟨c, hc⟩ := exists_jobsOf hempty
      obtain ⟨idle, t, first, rest, s₁, hidle, hround⟩ := h.found hc (hs.listed c hc)
      have hn : s.nextJob (idle + 1) =
          some (some first, rest.foldr (fun job s => s.pushBack job) s₁) := by
        rw [WfqScheduler.nextJob, if_neg (by simp [hempty])]
        exact nextRounds_of_idle hs hidle hround
      have htakes := hs.nextJob hn
      have hshorter := htakes.queued.length_eq
      rw [List.length_append, List.length_singleton] at hshorter
      obtain ⟨order, s', hrest, hend⟩ := ih _ (by omega) (h.nextJob hs hn) htakes.standing rfl
      exact ⟨first :: order, s', .cons hn hrest, hend⟩

end HelixRouter.FairQueue.WfqScheduler
