import HelixRouter.FairQueue.SingleCalls

namespace HelixRouter.FairQueue

open WfqScheduler

/-- One round of a run: the scheduler before it, what it hands out, the scheduler after it. -/
structure Round where
  before : WfqScheduler
  batch : List Job
  after : WfqScheduler

def WfqScheduler.enqueueAll (s : WfqScheduler) (jobs : List Job) : WfqScheduler :=
  jobs.foldl (fun s job => (s.enqueue job).2) s

/-- Consecutive rounds, each with what is enqueued before it. -/
def rounds : WfqScheduler → List (List Job) → List Round
  | _, [] => []
  | s, arrivals :: more =>
    let before := s.enqueueAll arrivals
    let (batch, after) := before.drainRound
    ⟨before, batch, after⟩ :: rounds after more

def cost (jobs : List Job) : Nat := (jobs.map (·.computeCost.toNat)).sum

/-- What the rounds hand out of a class, by its cost. -/
def servedCost (c : String) (rs : List Round) : Nat := cost (ofClass c (rs.flatMap Round.batch))

def NeverEmpty (c : String) (rs : List Round) : Prop :=
  ∀ r ∈ rs, r.before.jobsOf c ≠ [] ∧ r.after.jobsOf c ≠ []

instance (c : String) (rs : List Round) : Decidable (NeverEmpty c rs) :=
  inferInstanceAs (Decidable (∀ r ∈ rs, r.before.jobsOf c ≠ [] ∧ r.after.jobsOf c ≠ []))

/-- More than the deficit before the run, and than any job of the class that is queued in it. -/
structure Bound (c : String) (s : WfqScheduler) (rs : List Round) (M : Nat) : Prop where
  deficit : (s.deficitOf c).toNat < M
  jobs : ∀ r ∈ rs, ∀ job ∈ r.before.jobsOf c, job.computeCost.toNat < M

/-- What a class is served keeps to its share: with quantum times weight in each round, over
its deficit before, it never gets more, and stays less than the bound behind. -/
def Fair (c : String) (s : WfqScheduler) (share : Nat) (arrivals : List (List Job)) : Prop :=
  ∀ M, Bound c s (rounds s arrivals) M →
    servedCost c (rounds s arrivals) ≤ (s.deficitOf c).toNat + arrivals.length * share ∧
      (s.deficitOf c).toNat + arrivals.length * share < servedCost c (rounds s arrivals) + M

/-- In each round the share is added to the deficit without leaving a word. -/
def Fits (c : String) (share : Nat) (rs : List Round) : Prop :=
  ∀ r ∈ rs, (r.before.deficitOf c).toNat + share < 2 ^ 64

instance (c : String) (share : Nat) (rs : List Round) : Decidable (Fits c share rs) :=
  inferInstanceAs (Decidable (∀ r ∈ rs, (r.before.deficitOf c).toNat + share < 2 ^ 64))

namespace WfqScheduler

variable {s s' : WfqScheduler} {c : String} {served batch left jobs : List Job} {job : Job}
  {classes : List String}

/-- Every job stands in the queue of its class. -/
def Sorted (s : WfqScheduler) : Prop := ∀ c, ∀ job ∈ s.jobsOf c, classForJob job = c

theorem Standing.sorted (h : s.Standing) : s.Sorted := by
  obtain ⟨_, _, _, hk⟩ := h.kept
  exact fun c job hj => hk.kinds hj

theorem Sorted.visit (h : s.Sorted) (hv : s.visit c = (served, s')) :
    s'.Sorted ∧ ∀ c', ofClass c' served = if c' = c then served else [] := by
  have hvisited := visited hv
  have hserved : ∀ job ∈ served, classForJob job = c := by
    intro job hj
    refine h c job ?_
    rw [hvisited.moves.before_eq]
    exact List.mem_append_left _ hj
  refine ⟨fun c' job hj => h c' job (hvisited.subset c' hj), fun c' => ?_⟩
  by_cases hc : c' = c
  · rw [if_pos hc, hc, ofClass_self hserved]
  · rw [if_neg hc, ofClass_eq_nil hserved hc]

/-- The classes that are visited without this one leave it as it is. -/
theorem Sorted.untouched (h : s.Sorted) (hd : drainClasses classes s = (batch, s'))
    (hc : c ∉ classes) :
    s'.jobsOf c = s.jobsOf c ∧ s'.deficitOf c = s.deficitOf c ∧ ofClass c batch = [] := by
  induction classes generalizing s batch with
  | nil =>
    cases hd
    exact ⟨rfl, rfl, rfl⟩
  | cons c' classes ih =>
    rw [drainClasses_cons] at hd
    obtain ⟨rfl, hs'⟩ := Prod.mk.inj hd
    obtain ⟨hne, hrest⟩ := List.ne_and_not_mem_of_not_mem_cons hc
    have hv : s.visit c' = ((s.visit c').1, (s.visit c').2) := rfl
    obtain ⟨hsorted, hserved⟩ := h.visit hv
    obtain ⟨hjobs, hdef, hbatch⟩ := ih hsorted (Prod.ext rfl hs') hrest
    refine ⟨hjobs.trans ((visited hv).moves.others c hne), hdef.trans ((turn hv).others c hne), ?_⟩
    rw [ofClass_append, hserved, if_neg hne, hbatch]
    rfl

/-- A round in which each class is visited once credits it once. -/
theorem Sorted.round (h : s.Sorted) (hd : drainClasses classes s = (batch, s'))
    (hnodup : classes.Nodup) (hc : c ∈ classes) (hne : s.jobsOf c ≠ []) : ∃ deficit,
      serve (s.deficitOf c + s.gainOf c) (s.jobsOf c) = (deficit, ofClass c batch, s'.jobsOf c) ∧
        s'.deficitOf c = if s'.jobsOf c = [] then 0 else deficit := by
  induction classes generalizing s batch with
  | nil => cases hc
  | cons c' classes ih =>
    rw [drainClasses_cons] at hd
    obtain ⟨rfl, hs'⟩ := Prod.mk.inj hd
    obtain ⟨hnot, hnodup⟩ := List.nodup_cons.mp hnodup
    have hv : s.visit c' = ((s.visit c').1, (s.visit c').2) := rfl
    have ht := turn hv
    obtain ⟨hsorted, hserved⟩ := h.visit hv
    have hrest : drainClasses classes (s.visit c').2 =
        ((drainClasses classes (s.visit c').2).1, s') := Prod.ext rfl hs'
    by_cases heq : c = c'
    · subst heq
      obtain ⟨hjobs, hdef, hbatch⟩ := hsorted.untouched hrest hnot
      obtain ⟨deficit, hserve, hdeficit⟩ := ht.serves hne
      refine ⟨deficit, ?_, by rw [hdef, hjobs, hdeficit]⟩
      rw [ofClass_append, hserved, if_pos rfl, hbatch, List.append_nil, hjobs, hserve]
    · have hjobs := (visited hv).moves.others c heq
      obtain ⟨deficit, hserve, hdeficit⟩ := ih hsorted hrest hnodup
        ((List.mem_cons.mp hc).resolve_left heq) (hjobs ▸ hne)
      refine ⟨deficit, ?_, hdeficit⟩
      rw [ht.others c heq, ht.same.gain, hjobs] at hserve
      rw [ofClass_append, hserved, if_neg heq, List.nil_append, hserve]

theorem serve_cost {deficit left_ : UInt64} (h : serve deficit jobs = (left_, served, left)) :
    deficit.toNat = left_.toNat + cost served := by
  induction jobs generalizing deficit served with
  | nil =>
    cases h
    rfl
  | cons job rest ih =>
    unfold serve at h
    split at h
    · rename_i hle
      cases h
      have hrest := ih rfl
      rw [UInt64.toNat_sub_of_le _ _ hle] at hrest
      have := UInt64.le_iff_toNat_le.mp hle
      simp only [cost, List.map_cons, List.sum_cons] at hrest ⊢
      omega
    · cases h
      rfl

theorem enqueue_keeps (h : s.Sorted) (job : Job) : (s.enqueue job).2.Sorted := by
  cases he : s.enqueue job with
  | mk accepts s' =>
    rcases enqueue_joined he with ⟨_, hjoined⟩ | ⟨_, rfl⟩
    · intro c job' hj
      by_cases hc : c = classForJob job
      · subst hc
        rw [hjoined.moves.after_eq] at hj
        rcases List.mem_append.mp hj with hj | hj
        · exact h _ job' hj
        · rw [List.mem_singleton.mp hj]
      · exact h c job' (hjoined.moves.others c hc ▸ hj)
    · exact h

theorem enqueueAll_keeps (h : s.Sorted) (jobs : List Job) :
    (s.enqueueAll jobs).Sorted ∧ SameCredit s (s.enqueueAll jobs) ∧
      ∀ c, (s.enqueueAll jobs).deficitOf c = s.deficitOf c := by
  induction jobs generalizing s with
  | nil => exact ⟨h, SameCredit.refl s, fun _ => rfl⟩
  | cons job jobs ih =>
    obtain ⟨hsorted, hsame, hdef⟩ := ih (enqueue_keeps h job)
    obtain ⟨hsame', hdef'⟩ := enqueue_credit s job
    exact ⟨hsorted, hsame'.trans hsame, fun c => (hdef c).trans (hdef' c)⟩

theorem Sorted.drained (h : s.Sorted) (hd : drainClasses classes s = (batch, s')) : s'.Sorted := by
  induction classes generalizing s batch with
  | nil =>
    cases hd
    exact h
  | cons c classes ih =>
    rw [drainClasses_cons] at hd
    obtain ⟨-, hs'⟩ := Prod.mk.inj hd
    exact ih (h.visit (rfl : s.visit c = _)).1 (Prod.ext rfl hs')

end WfqScheduler

section Run

variable {s : WfqScheduler} {c : String} {share : Nat}

/-- One round, in numbers: what a class has and is granted is what it keeps and is served, but
for what does not fit a word. -/
theorem round_account {batch : List Job} {s' : WfqScheduler} (h : s.Sorted)
    (hnodup : s.classOrder.Nodup) (hc : c ∈ s.classOrder)
    (hshare : s.gainOf c = UInt64.ofNat share) (hd : s.drainRound = (batch, s'))
    (hne : s.jobsOf c ≠ []) (hne' : s'.jobsOf c ≠ []) :
    ∃ lost, (s.deficitOf c).toNat + share =
        (s'.deficitOf c).toNat + cost (ofClass c batch) + 2 ^ 64 * lost ∧
      (lost = 0 ↔ (s.deficitOf c).toNat + share < 2 ^ 64) ∧
      ∃ job ∈ s.jobsOf c, s'.deficitOf c < job.computeCost := by
  obtain ⟨deficit, hserve, hdeficit⟩ := h.round hd hnodup hc hne
  rw [if_neg hne'] at hdeficit
  have hcost := serve_cost hserve
  rw [UInt64.toNat_add, hshare, UInt64.toNat_ofNat', Nat.add_mod_mod, ← hdeficit] at hcost
  refine ⟨((s.deficitOf c).toNat + share) / 2 ^ 64, ?_, ?_, ?_⟩
  · rw [← hcost, Nat.mod_add_div]
  · rw [Nat.div_eq_zero_iff]
    simp
  · obtain ⟨job, hj, hlt⟩ := (serve_left hserve).resolve_left hne'
    rw [serve_split hserve]
    exact ⟨job, List.mem_append_right _ hj, hdeficit ▸ hlt⟩

/-- A whole run in numbers, with the deficit that is left at its end. -/
theorem run_account {arrivals : List (List Job)} (h : s.Sorted)
    (hnodup : s.classOrder.Nodup) (hc : c ∈ s.classOrder)
    (hshare : s.gainOf c = UInt64.ofNat share) (hbusy : NeverEmpty c (rounds s arrivals)) :
    ∃ rest lost, (s.deficitOf c).toNat + arrivals.length * share =
        rest + servedCost c (rounds s arrivals) + 2 ^ 64 * lost ∧
      (lost = 0 ↔ Fits c share (rounds s arrivals)) ∧
      ∀ M, Bound c s (rounds s arrivals) M → rest < M ∧
        ∀ r ∈ rounds s arrivals, (r.before.deficitOf c).toNat < M := by
  induction arrivals generalizing s with
  | nil =>
    refine ⟨(s.deficitOf c).toNat, 0, by simp [servedCost, rounds, ofClass, cost], ?_, ?_⟩
    · simp [Fits, rounds]
    · exact fun M hM => ⟨hM.deficit, by simp [rounds]⟩
  | cons jobs arrivals ih =>
    obtain ⟨hsorted, hsame, hdef⟩ := enqueueAll_keeps h jobs
    rw [rounds] at hbusy ⊢
    cases hd : (s.enqueueAll jobs).drainRound with
    | mk batch s' =>
      rw [hd] at hbusy
      dsimp only at hbusy ⊢
      obtain ⟨hhead, htail⟩ := List.forall_mem_cons.mp hbusy
      have hdrained := drainClasses_same hd
      obtain ⟨lost, haccount, hlost, job, hjob, hlt⟩ := round_account hsorted
        (hsame.order ▸ hnodup) (hsame.order ▸ hc) ((hsame.gain c).trans hshare) hd
        hhead.1 hhead.2
      obtain ⟨rest, lost', haccount', hlost', hbound⟩ := ih (hsorted.drained hd)
        (hdrained.order ▸ hsame.order ▸ hnodup) (hdrained.order ▸ hsame.order ▸ hc)
        (((hdrained.gain c).trans (hsame.gain c)).trans hshare) htail
      have hsum : servedCost c (⟨s.enqueueAll jobs, batch, s'⟩ :: rounds s' arrivals) =
          cost (ofClass c batch) + servedCost c (rounds s' arrivals) := by
        simp [servedCost, cost, ofClass_append]
      refine ⟨rest, lost + lost', ?_, ?_, fun M hM => ?_⟩
      · rw [hsum, List.length_cons, Nat.succ_mul]
        rw [hdef] at haccount
        omega
      · rw [Fits, List.forall_mem_cons, ← hlost, Nat.add_eq_zero_iff]
        exact and_congr_right fun _ => hlost'
      · have hnext : Bound c s' (rounds s' arrivals) M := by
          refine ⟨?_, fun r hr => hM.jobs r (List.mem_cons_of_mem _ hr)⟩
          exact Nat.lt_trans (UInt64.lt_iff_toNat_lt.mp hlt) (hM.jobs _ List.mem_cons_self job hjob)
        obtain ⟨hrest, hall⟩ := hbound M hnext
        refine ⟨hrest, List.forall_mem_cons.mpr ⟨?_, hall⟩⟩
        rw [hdef]
        exact hM.deficit

end Run

section Config

theorem classOrder_foldl (classes : List WfqClass) (s : WfqScheduler) :
    (classes.foldl (fun s cls => { s with
      classOrder := s.classOrder ++ [cls.name]
      queues := s.queues.insert cls.name { weight := cls.weight }
      stats := s.stats.insert cls.name {} }) s).classOrder = s.classOrder ++ classes.map (·.name) := by
  induction classes generalizing s with
  | nil => simp
  | cons cls classes ih =>
    rw [List.foldl_cons, ih]
    simp

theorem classOrder_new (config : WfqConfig) :
    (WfqScheduler.new config).classOrder = config.classes.map (·.name) :=
  classOrder_foldl config.classes _

/-- Where no name is given twice, each class has the weight it is given. -/
theorem gainOf_new {config : WfqConfig} (h : (config.classes.map (·.name)).Nodup) {cls : WfqClass}
    (hcls : cls ∈ config.classes) : (WfqScheduler.new config).gainOf cls.name =
      UInt64.ofNat (config.quantum.toNat * cls.weight.toNat) := by
  have hlookup : (WfqScheduler.new config).queues.lookup cls.name =
      some { weight := cls.weight } := by
    obtain ⟨before, after, hsplit⟩ := List.append_of_mem hcls
    rw [hsplit, List.map_append, List.map_cons] at h
    have hlater := (List.nodup_cons.mp (List.nodup_append.mp h).2.1).1
    rw [WfqScheduler.new, hsplit, List.foldl_append, List.foldl_cons]
    refine List.foldlRecOn (motive := fun s : WfqScheduler =>
      s.queues.lookup cls.name = some { weight := cls.weight }) after _ (AList.lookup_insert _) ?_
    intro s hs later hmem
    have hne : cls.name ≠ later.name := fun heq => hlater (heq ▸ List.mem_map_of_mem hmem)
    exact (AList.lookup_insert_ne hne).trans hs
  simp [gainOf, hlookup, gain, quantum_new]

end Config

/-- The share of a class that always has jobs is kept in a run of rounds exactly if none of
them takes the deficit out of its word; and where the share and some bound fit into a word
together, none does. -/
theorem drain_round_fair_iff (config : WfqConfig) (hnames : (config.classes.map (·.name)).Nodup)
    (ops : List Op) (h : History) (hr : run config ops = some h) (cls : WfqClass)
    (hcls : cls ∈ config.classes) (arrivals : List (List Job))
    (hbusy : NeverEmpty cls.name (rounds h.scheduler arrivals)) :
    (Fair cls.name h.scheduler (config.quantum.toNat * cls.weight.toNat) arrivals ↔
      Fits cls.name (config.quantum.toNat * cls.weight.toNat) (rounds h.scheduler arrivals)) ∧
    ∀ M, Bound cls.name h.scheduler (rounds h.scheduler arrivals) M →
      config.quantum.toNat * cls.weight.toNat + M < 2 ^ 64 →
        Fits cls.name (config.quantum.toNat * cls.weight.toNat) (rounds h.scheduler arrivals) := by
  have hs := served hr
  have horder : h.scheduler.classOrder = config.classes.map (·.name) :=
    hs.same.order.trans (classOrder_new config)
  obtain ⟨rest, lost, haccount, hlost, hbound⟩ := run_account hs.standing.sorted
    (horder ▸ hnames) (horder ▸ List.mem_map_of_mem hcls)
    ((hs.same.gain _).trans (gainOf_new hnames hcls)) hbusy
  refine ⟨⟨fun hfair => ?_, fun hfits M hM => ?_⟩, fun M hM hroom r hr => ?_⟩
  · -- Every cost and every deficit is below the size of a word, so this is a bound.
    have hword : Bound cls.name h.scheduler (rounds h.scheduler arrivals) (2 ^ 64) :=
      ⟨UInt64.toNat_lt _, fun _ _ _ _ => UInt64.toNat_lt _⟩
    have hlt := (hfair _ hword).2
    exact hlost.mp (by omega)
  · have hnone := hlost.mpr hfits
    have hrest := (hbound M hM).1
    omega
  · have hlt := (hbound M hM).2 r hr
    omega

/-- Several jobs of each class, and what comes in before each of three rounds. -/
def mixed : List Op :=
  [.enqueue (priced .hashMix 5000), .enqueue (priced .primeCount 2000),
    .enqueue (priced .hashMix 2500), .enqueue (priced .monteCarloRisk 900),
    .enqueue (priced .hashMix 4000)]

def comingIn : List (List Job) :=
  [[priced .hashMix 3500], [], [priced .primeCount 100, priced .hashMix 10]]

theorem drain_round_fair_mixed : ∃ h, run {} mixed = some h ∧
    servedCost "hash_mix" (rounds h.scheduler comingIn) = 7500 ∧
    Fair "hash_mix" h.scheduler (1000 * 3) comingIn := by
  have hrun : ((run {} mixed).any fun h =>
      decide (NeverEmpty "hash_mix" (rounds h.scheduler comingIn)) &&
        decide (Fits "hash_mix" (1000 * 3) (rounds h.scheduler comingIn)) &&
        servedCost "hash_mix" (rounds h.scheduler comingIn) == 7500) = true := by decide +kernel
  obtain ⟨h, hh, hfacts⟩ := (Option.any_eq_true _ _).mp hrun
  simp only [Bool.and_eq_true, decide_eq_true_eq, beq_iff_eq] at hfacts
  obtain ⟨⟨hbusy, hfits⟩, hserved⟩ := hfacts
  exact ⟨h, hh, hserved, (drain_round_fair_iff {} (by decide) mixed h hh ⟨"hash_mix", 3⟩
    List.mem_cons_self comingIn hbusy).1.mpr hfits⟩

/-- A class whose share, cut to a word, is nothing. -/
def lostShare : WfqConfig := { classes := [⟨"hash_mix", 2⟩], quantum := 2 ^ 63 }

theorem share_lost : ∃ h, run lostShare [.enqueue (priced .hashMix 1)] = some h ∧
    NeverEmpty "hash_mix" (rounds h.scheduler [[]]) ∧
    ¬ Fair "hash_mix" h.scheduler (2 ^ 63 * 2) [[]] := by
  have hrun : (run lostShare [.enqueue (priced .hashMix 1)]).map (fun h =>
      (decide (NeverEmpty "hash_mix" (rounds h.scheduler [[]])),
        (h.scheduler.deficitOf "hash_mix").toNat, servedCost "hash_mix" (rounds h.scheduler [[]]),
        (rounds h.scheduler [[]]).all fun r =>
          (r.before.jobsOf "hash_mix").all (·.computeCost.toNat < 2))) =
      some (true, 0, 0, true) := by decide +kernel
  obtain ⟨h, hh, hfacts⟩ := Option.map_eq_some_iff.mp hrun
  simp only [Prod.mk.injEq, decide_eq_true_eq, List.all_eq_true] at hfacts
  obtain ⟨hbusy, hdeficit, hserved, hcosts⟩ := hfacts
  refine ⟨h, hh, hbusy, fun hfair => ?_⟩
  have hbound := (hfair 2 ⟨by omega, hcosts⟩).2
  rw [hserved, hdeficit] at hbound
  exact absurd hbound (by decide)

end HelixRouter.FairQueue
