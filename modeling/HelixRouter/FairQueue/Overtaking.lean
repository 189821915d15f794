import HelixRouter.FairQueue.Rounds

namespace HelixRouter.FairQueue.WfqScheduler

variable {s s' : WfqScheduler} {c : String} {served batch : List Job} {classes : List String}

/-- A class whose jobs cost one credit each, and that has saved nothing. -/
structure Cheap (x : String) (s : WfqScheduler) : Prop where
  gain : s.gainOf x ≠ 0
  cost : ∀ job ∈ s.jobsOf x, job.computeCost = 1
  deficit : s.deficitOf x = 0

theorem serve_ones {jobs left : List Job} {deficit left_ : UInt64}
    (hcost : ∀ job ∈ jobs, job.computeCost = 1) (h : serve deficit jobs = (left_, served, left)) :
    jobs.length ≤ deficit.toNat + left.length ∧ (left ≠ [] → left_ = 0) ∧
      (deficit ≠ 0 → served.head? = jobs.head?) := by
  induction jobs generalizing deficit served with
  | nil =>
    cases h
    exact ⟨Nat.zero_le _, fun h => absurd rfl h, fun _ => rfl⟩
  | cons job rest ih =>
    have hone := hcost job List.mem_cons_self
    rw [serve, hone] at h
    by_cases h0 : deficit = 0
    · subst h0
      rw [if_neg (by decide)] at h
      cases h
      exact ⟨by simp, fun _ => rfl, fun hne => absurd rfl hne⟩
    · have hpos : 0 < deficit.toNat := Nat.pos_of_ne_zero fun hz => h0 (UInt64.toNat_inj.mp hz)
      have hle : 1 ≤ deficit := UInt64.le_iff_toNat_le.mpr hpos
      have hless : (deficit - 1).toNat = deficit.toNat - 1 := UInt64.toNat_sub_of_le _ _ hle
      rw [if_pos hle] at h
      cases h
      obtain ⟨hlen, hleft, -⟩ := ih (fun j hj => hcost j (List.mem_cons_of_mem _ hj)) rfl
      rw [List.length_cons]
      exact ⟨by omega, hleft, fun _ => rfl⟩

theorem Cheap.visit {x : String} (h : Cheap x s) (hv : s.visit c = (served, s')) : Cheap x s' ∧
    (s.jobsOf x).length ≤ (if c = x then (s.gainOf x).toNat else 0) + (s'.jobsOf x).length ∧
      (c = x → served.head? = (s.jobsOf x).head?) := by
  have ht := turn hv
  have hjobs := (visited hv).subset x
  have hcost : ∀ job ∈ s'.jobsOf x, job.computeCost = 1 := fun job hj => h.cost job (hjobs hj)
  have hgain : s'.gainOf x ≠ 0 := ht.same.gain x ▸ h.gain
  by_cases hc : c = x
  · subst hc
    rw [if_pos rfl]
    by_cases hempty : s.jobsOf c = []
    · obtain ⟨rfl, hjobs', hdeficit⟩ := ht.idle hempty
      exact ⟨⟨hgain, hcost, hdeficit⟩, by simp [hempty], fun _ => by simp [hempty]⟩
    · obtain ⟨deficit, hserve, hdeficit⟩ := ht.serves hempty
      rw [h.deficit, UInt64.zero_add] at hserve
      obtain ⟨hlen, hleft, hhead⟩ := serve_ones h.cost hserve
      refine ⟨⟨hgain, hcost, ?_⟩, hlen, fun _ => hhead h.gain⟩
      rw [hdeficit]
      by_cases hnone : s'.jobsOf c = []
      · rw [if_pos hnone]
      · rw [if_neg hnone, hleft hnone]
  · have hne : x ≠ c := fun heq => hc heq.symm
    rw [if_neg hc, (visited hv).moves.others x hne, Nat.zero_add]
    refine ⟨⟨hgain, hcost, ?_⟩, Nat.le_refl _, fun heq => absurd heq hc⟩
    rw [ht.others x hne]
    exact h.deficit

/-- Visits serve no more jobs of the class than it earns credits. -/
theorem Cheap.classes_le {x : String} (h : Cheap x s) (hd : drainClasses classes s = (batch, s')) :
    Cheap x s' ∧
      (s.jobsOf x).length ≤ classes.count x * (s.gainOf x).toNat + (s'.jobsOf x).length := by
  induction classes generalizing s batch with
  | nil =>
    cases hd
    exact ⟨h, by simp⟩
  | cons c classes ih =>
    rw [drainClasses_cons] at hd
    obtain ⟨-, hs'⟩ := Prod.mk.inj hd
    have hv : s.visit c = ((s.visit c).1, (s.visit c).2) := rfl
    obtain ⟨hcheap, hlen, -⟩ := h.visit hv
    obtain ⟨hend, hmore⟩ := ih hcheap (Prod.ext rfl hs')
    refine ⟨hend, ?_⟩
    rw [(turn hv).same.gain] at hmore
    rw [List.count_cons]
    by_cases hc : c = x
    · rw [if_pos hc] at hlen
      simp only [hc, beq_self_eq_true, if_true, Nat.add_mul, Nat.one_mul]
      omega
    · rw [if_neg hc] at hlen
      have hbeq : (c == x) = false := by simpa using hc
      simp only [hbeq, Bool.false_eq_true, if_false, Nat.add_zero]
      omega

theorem serve_free {jobs : List Job} (hfree : ∀ job ∈ jobs, job.computeCost = 0)
    (deficit : UInt64) : serve deficit jobs = (deficit, jobs, []) := by
  induction jobs with
  | nil => rfl
  | cons job rest ih =>
    have hzero := hfree job List.mem_cons_self
    rw [serve, hzero, if_pos UInt64.zero_le, UInt64.sub_zero,
      ih fun j hj => hfree j (List.mem_cons_of_mem _ hj)]

theorem drainClasses_shrinks (hd : drainClasses classes s = (batch, s'))
    (hempty : s.jobsOf c = []) : s'.jobsOf c = [] := by
  induction classes generalizing s batch with
  | nil =>
    cases hd
    exact hempty
  | cons c' classes ih =>
    rw [drainClasses_cons] at hd
    obtain ⟨-, hs'⟩ := Prod.mk.inj hd
    have hv : s.visit c' = ((s.visit c').1, (s.visit c').2) := rfl
    exact ih (Prod.ext rfl hs') ((visited hv).shrinks c hempty)

/-- A class whose jobs cost nothing is served them all at its first visit. -/
theorem drainClasses_free {y : String} (hd : drainClasses classes s = (batch, s'))
    (hy : y ∈ classes) (hfree : ∀ job ∈ s.jobsOf y, job.computeCost = 0) : s'.jobsOf y = [] := by
  induction classes generalizing s batch with
  | nil => cases hy
  | cons c classes ih =>
    rw [drainClasses_cons] at hd
    obtain ⟨-, hs'⟩ := Prod.mk.inj hd
    have hv : s.visit c = ((s.visit c).1, (s.visit c).2) := rfl
    have hrest : drainClasses classes (s.visit c).2 =
        ((drainClasses classes (s.visit c).2).1, s') := Prod.ext rfl hs'
    by_cases hc : c = y
    · subst hc
      refine drainClasses_shrinks hrest ?_
      by_cases hempty : s.jobsOf c = []
      · exact ((turn hv).idle hempty).2.1
      · obtain ⟨deficit, hserve, -⟩ := (turn hv).serves hempty
        rw [serve_free hfree] at hserve
        exact (Prod.mk.inj (Prod.mk.inj hserve).2).2.symm
    · refine ih hrest ((List.mem_cons.mp hy).resolve_left (Ne.symm hc)) fun job hj => ?_
      exact hfree job ((visited hv).subset y hj)

theorem drainClasses_append (before after : List String) (s : WfqScheduler) :
    drainClasses (before ++ after) s =
      ((drainClasses before s).1 ++ (drainClasses after (drainClasses before s).2).1,
        (drainClasses after (drainClasses before s).2).2) := by
  induction before generalizing s with
  | nil => rfl
  | cons c before ih =>
    rw [List.cons_append, drainClasses_cons, drainClasses_cons, ih, List.append_assoc]

/-- Visits of classes without jobs change no queue. -/
theorem drainClasses_idle (hd : drainClasses classes s = (batch, s'))
    (hidle : ∀ z ∈ classes, s.jobsOf z = []) :
    batch = [] ∧ ∀ z, s'.jobsOf z = s.jobsOf z := by
  induction classes generalizing s batch with
  | nil =>
    cases hd
    exact ⟨rfl, fun _ => rfl⟩
  | cons c classes ih =>
    rw [drainClasses_cons] at hd
    obtain ⟨rfl, hs'⟩ := Prod.mk.inj hd
    have hv : s.visit c = ((s.visit c).1, (s.visit c).2) := rfl
    have hc := hidle c List.mem_cons_self
    obtain ⟨hnil, hjobs, -⟩ := (turn hv).idle hc
    have hsame : ∀ z, (s.visit c).2.jobsOf z = s.jobsOf z := by
      intro z
      by_cases hz : z = c
      · rw [hz, hjobs, hc]
      · exact (visited hv).moves.others z hz
    obtain ⟨hmore, hend⟩ := ih (Prod.ext rfl hs') fun z hz => by
      rw [hsame]
      exact hidle z (List.mem_cons_of_mem c hz)
    refine ⟨?_, fun z => (hend z).trans (hsame z)⟩
    rw [hnil]
    exact hmore

/-- A class with equal cheap jobs, and no jobs in the classes visited before it. -/
structure Ahead (x : String) (job : Job) (count : Nat) (s : WfqScheduler) : Prop where
  standing : s.Standing
  cheap : Cheap x s
  jobs : s.jobsOf x = List.replicate count job
  listed : x ∈ s.classOrder
  first : ∀ z ∈ s.classOrder.takeWhile (· ≠ x), s.jobsOf z = []

theorem Ahead.round {x : String} {job : Job} {count : Nat} (h : Ahead x job (count + 1) s) :
    ∃ rest s₁, s.drainRound = (job :: rest, s₁) := by
  obtain ⟨before, after, horder, hnot⟩ := List.eq_append_cons_of_mem h.listed
  have htake : s.classOrder.takeWhile (· ≠ x) = before := by
    rw [horder, List.takeWhile_append_of_pos fun z hz => by
      simpa using fun heq : z = x => hnot (heq ▸ hz)]
    simp
  have hfirst : ∀ z ∈ before, s.jobsOf z = [] := htake ▸ h.first
  cases hbefore : drainClasses before s with
  | mk none_ t =>
    obtain ⟨rfl, hjobs⟩ := drainClasses_idle hbefore hfirst
    have hcheap := (h.cheap.classes_le hbefore).1
    cases hv : t.visit x with
    | mk served u =>
      have hhead := (hcheap.visit hv).2.2 rfl
      rw [hjobs, h.jobs] at hhead
      obtain ⟨more, rfl⟩ : ∃ more, served = job :: more := by
        cases served with
        | nil => cases hhead
        | cons first more => exact ⟨more, by cases hhead; rfl⟩
      refine ⟨more ++ (drainClasses after u).1, (drainClasses after u).2, ?_⟩
      rw [drainRound, horder, drainClasses_append, hbefore, drainClasses_cons, hv]
      rfl

/-- The calls hand out the jobs of the class, one by one. -/
theorem Ahead.call {x : String} {job : Job} {count : Nat} (h : Ahead x job (count + 1) s)
    (hclass : classForJob job = x) :
    ∃ s', s.nextJob 1 = some (some job, s') ∧ Ahead x job count s' := by
  obtain ⟨rest, s₁, hround⟩ := h.round
  have hne : ¬ s.isEmpty = true := by
    intro hempty
    have hlen := (h.standing.drained hround).queued.length_eq
    rw [isEmpty_iff.mp hempty] at hlen
    simp at hlen
  have hn : s.nextJob 1 = some (some job, rest.foldr (fun job s => s.pushBack job) s₁) := by
    rw [WfqScheduler.nextJob, if_neg (by simp [hne])]
    have hidle : s.drainRounds 0 = ([], s) := rfl
    exact nextRounds_of_idle h.standing hidle hround
  have htakes := h.standing.nextJob hn
  have hcheap := (h.cheap.classes_le hround).1
  obtain ⟨hback, hdef⟩ := putAllBack_credit rest s₁
  have hsplit := htakes.split x
  rw [ofClass_single, if_pos hclass.symm, h.jobs, List.replicate_succ] at hsplit
  refine ⟨_, hn, htakes.standing, ⟨?_, fun j hj => ?_, ?_⟩, ?_, ?_, fun z hz => ?_⟩
  · rw [htakes.same.gain]
    exact h.cheap.gain
  · refine h.cheap.cost j ?_
    rw [htakes.split]
    exact List.mem_append_right _ hj
  · rw [hdef]
    exact hcheap.deficit
  · exact (List.cons.inj hsplit).2.symm
  · rw [htakes.same.order]
    exact h.listed
  · rw [htakes.same.order] at hz
    exact htakes.shrinks z (h.first z hz)

theorem Ahead.calls {x : String} {job : Job} {count : Nat} (h : Ahead x job count s)
    (hclass : classForJob job = x) : ∃ s', NextJobs s (List.replicate count job) s' := by
  induction count generalizing s with
  | zero => exact ⟨s, .nil s⟩
  | succ count ih =>
    obtain ⟨t, hn, hahead⟩ := h.call hclass
    obtain ⟨s', hrest⟩ := ih hahead
    exact ⟨s', .cons hn hrest⟩

/-- Where a round serves the class only some of its jobs, and then one of another class, the
calls of `next_job` do not wait for that one. -/
theorem Ahead.not_sameOrder {x y : String} {job free : Job} {count : Nat}
    (h : Ahead x job count s) (hclass : classForJob job = x) (hother : classForJob free = y)
    (hne : x ≠ y) (hcount : s.classOrder.count x * (s.gainOf x).toNat < count)
    (hfree : s.jobsOf y = [free]) (hcost : free.computeCost = 0) : ¬ s.SameOrder := by
  intro ⟨order, hall, rounds, t, hdrained, hend⟩
  obtain ⟨s', hn⟩ := h.calls hclass
  obtain ⟨more, rfl, -⟩ := hn.toward hall
  cases rounds with
  | zero =>
    obtain ⟨hnil, -⟩ := Prod.mk.inj hdrained
    have hlen := congrArg List.length hnil
    simp at hlen
    omega
  | succ rounds =>
    cases hd : s.drainRound with
    | mk batch s₁ =>
      rw [drainRounds_succ hd] at hdrained
      obtain ⟨horder, -⟩ := Prod.mk.inj hdrained
      have htakes := h.standing.drained hd
      have hlast : s₁.jobsOf y = [] := by
        refine drainClasses_free hd (h.standing.listed y (by simp [hfree])) fun j hj => ?_
        rw [hfree] at hj
        rw [List.mem_singleton.mp hj, hcost]
      have hin : free ∈ batch := by
        have hsplit := htakes.split y
        rw [hfree, hlast, List.append_nil] at hsplit
        have hmem : free ∈ ofClass y batch := hsplit ▸ List.mem_singleton_self free
        exact (List.mem_filter.mp hmem).1
      have hfew := (h.cheap.classes_le hd).2
      have hserved := congrArg List.length (htakes.split x)
      rw [List.length_append] at hserved
      have hp : List.replicate count job <+: List.replicate count job ++ more := ⟨more, rfl⟩
      have hp' : batch <+: List.replicate count job ++ more := ⟨_, horder⟩
      rcases List.prefix_or_prefix_of_prefix hp hp' with hall | hall
      · have hmany := (hall.sublist.filter fun j => classForJob j = x).length_le
        rw [List.filter_replicate_of_pos (by simpa using hclass), List.length_replicate] at hmany
        change count ≤ (ofClass x batch).length at hmany
        omega
      · have heq := List.eq_of_mem_replicate (hall.subset hin)
        exact hne (hclass.symm.trans (heq ▸ hother))

end HelixRouter.FairQueue.WfqScheduler
