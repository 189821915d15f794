import HelixRouter.FairQueue.Rounds

namespace HelixRouter.FairQueue

open WfqScheduler

section Orders

variable {α β : Type} [DecidableEq α]

/-- The first visits of an order of visits, split at one of them. -/
theorem eraseDups_split {order : List α} {c : α} (h : c ∈ order) : ∃ later,
    order.eraseDups = (order.takeWhile (· ≠ c)).eraseDups ++ c :: later ∧ c ∉ later := by
  obtain ⟨after, ha⟩ : ∃ after, order.dropWhile (· ≠ c) = c :: after := by
    induction order with
    | nil => cases h
    | cons x order ih =>
      by_cases hx : x = c
      · exact ⟨order, by simp [hx]⟩
      · obtain ⟨after, ha⟩ := ih ((List.mem_cons.mp h).resolve_left (Ne.symm hx))
        exact ⟨after, by rw [List.dropWhile_cons_of_pos (by simpa using hx), ha]⟩
  have hnot : c ∉ order.takeWhile (· ≠ c) := fun hc => by simpa using List.mem_takeWhile_imp hc
  refine ⟨((after.removeAll (order.takeWhile (· ≠ c))).filter (fun b => !b == c)).eraseDups, ?_, ?_⟩
  · conv_lhs => rw [← List.takeWhile_append_dropWhile (p := (· ≠ c)) (l := order), ha,
      List.eraseDups_append]
    have hcons : (c :: after).removeAll (order.takeWhile (· ≠ c)) =
        c :: after.removeAll (order.takeWhile (· ≠ c)) := by
      rw [List.removeAll, List.filter_cons_of_pos (by simpa using hnot)]
      rfl
    rw [hcons, List.eraseDups_cons]
  · rw [List.mem_eraseDups]
    simp

theorem mem_of_mem_takeWhile {past rest : List α} {c z : α}
    (h : z ∈ (past ++ c :: rest).takeWhile (· ≠ c)) : z ∈ past := by
  induction past with
  | nil => simp at h
  | cons x past ih =>
    by_cases hx : x = c
    · simp [hx] at h
    · rw [List.cons_append, List.takeWhile_cons_of_pos (by simpa using hx)] at h
      rcases List.mem_cons.mp h with rfl | h
      · exact List.mem_cons_self
      · exact List.mem_cons_of_mem x (ih h)

/-- What comes before something that comes before another comes before that one too. -/
theorem mem_takeWhile_trans {order : List α} {x y z : α} (hx : x ∈ order.takeWhile (· ≠ y))
    (hz : z ∈ order.takeWhile (· ≠ x)) : z ∈ order.takeWhile (· ≠ y) := by
  induction order with
  | nil => cases hx
  | cons first order ih =>
    by_cases hy : first = y
    · simp [hy] at hx
    · rw [List.takeWhile_cons_of_pos (by simpa using hy)] at hx ⊢
      by_cases hfirst : first = x
      · simp [hfirst] at hz
      · rw [List.takeWhile_cons_of_pos (by simpa using hfirst)] at hz
        rcases List.mem_cons.mp hz with rfl | hz
        · exact List.mem_cons_self
        · have hx := (List.mem_cons.mp hx).resolve_left (Ne.symm hfirst)
          exact List.mem_cons_of_mem first (ih hx hz)

/-- Taking from the front of the first class that has anything takes from the front of all. -/
theorem flatMap_take {order : List α} {c : α} {f g : α → List β} {xs : List β} (h : c ∈ order)
    (hbefore : ∀ z ∈ order.takeWhile (· ≠ c), f z = []) (hc : f c = xs ++ g c)
    (hothers : ∀ z, z ≠ c → g z = f z) :
    order.eraseDups.flatMap f = xs ++ order.eraseDups.flatMap g := by
  obtain ⟨later, heq, hlater⟩ := eraseDups_split h
  have hf : (order.takeWhile (· ≠ c)).eraseDups.flatMap f = [] :=
    List.flatMap_eq_nil_iff.mpr fun z hz => hbefore z (List.mem_eraseDups.mp hz)
  have hg : (order.takeWhile (· ≠ c)).eraseDups.flatMap g = [] := by
    refine List.flatMap_eq_nil_iff.mpr fun z hz => ?_
    have hz := List.mem_eraseDups.mp hz
    rw [hothers z (by simpa using List.mem_takeWhile_imp hz)]
    exact hbefore z hz
  have hrest : later.flatMap g = later.flatMap f := by
    refine List.flatMap_congr fun z hz => hothers z fun heq => hlater (heq ▸ hz)
  rw [heq, List.flatMap_append, List.flatMap_append, List.flatMap_cons, List.flatMap_cons, hf, hg,
    hc, hrest]
  simp

end Orders

namespace WfqScheduler

/-- A class that is visited before another in every round, and earns credit there. -/
def Overtakes (s : WfqScheduler) (x y : String) : Prop :=
  y ∈ s.classOrder ∧ x ∈ s.classOrder.takeWhile (· ≠ y) ∧ s.gainOf x ≠ 0

/-- No class with jobs overtakes another one with jobs. -/
def Ranked (s : WfqScheduler) : Prop :=
  ∀ x y, s.jobsOf x ≠ [] → s.jobsOf y ≠ [] → ¬ s.Overtakes x y

/-- The jobs within reach of visits, class by class. -/
def line (s : WfqScheduler) : List Job := s.classOrder.eraseDups.flatMap s.within

variable {s s' : WfqScheduler} {c : String} {served batch : List Job} {classes : List String}

theorem Ranked.shrink (h : s.Ranked) (hsame : SameCredit s s')
    (hjobs : ∀ c, s.jobsOf c = [] → s'.jobsOf c = []) : s'.Ranked := by
  intro x y hx hy ho
  refine h x y (mt (hjobs x) hx) (mt (hjobs y) hy) ?_
  obtain ⟨hin, hbefore, hgain⟩ := ho
  rw [hsame.order] at hin hbefore
  rw [hsame.gain] at hgain
  exact ⟨hin, hbefore, hgain⟩

/-- A class without jobs is visited for nothing; any other takes from the front of the line
once the classes before it have nothing within reach. -/
theorem Settled.line_visit (h : s.Settled) (hv : s.visit c = (served, s')) (hc : c ∈ s.classOrder)
    (hbefore : s.jobsOf c = [] ∨ ∀ z ∈ s.classOrder.takeWhile (· ≠ c), s.within z = []) :
    s.line = served ++ s'.line := by
  obtain ⟨-, hsplit, -, hothers⟩ := h.visit hv
  have horder := (turn hv).same.order
  unfold line
  rw [horder]
  rcases hbefore with hempty | hbefore
  · obtain ⟨rfl, -, -⟩ := (turn hv).idle hempty
    refine List.flatMap_congr fun z _ => ?_
    by_cases hz : z = c
    · rw [hz, hsplit]
      rfl
    · rw [hothers z hz]
  · exact flatMap_take hc hbefore hsplit hothers

/-- In the middle of a round: what was visited and earns nothing has nothing within reach. -/
structure Sweeping (past : List String) (s : WfqScheduler) : Prop where
  settled : s.Settled
  ranked : s.Ranked
  swept : ∀ z ∈ past, s.gainOf z = 0 → s.within z = []

theorem Sweeping.within_nil {past rest : List String} (h : Sweeping past s)
    (horder : s.classOrder = past ++ c :: rest) (hjobs : s.jobsOf c ≠ []) :
    ∀ z ∈ s.classOrder.takeWhile (· ≠ c), s.within z = [] := by
  intro z hz
  have hvisited : z ∈ past := mem_of_mem_takeWhile (horder ▸ hz)
  by_cases hempty : s.jobsOf z = []
  · simp [within, hempty]
  · have hgain : s.gainOf z = 0 := by
      by_contra hne
      exact h.ranked z c hempty hjobs ⟨by simp [horder], hz, hne⟩
    exact h.swept z hvisited hgain

theorem Sweeping.visit {past rest : List String} (h : Sweeping past s)
    (horder : s.classOrder = past ++ c :: rest) (hv : s.visit c = (served, s')) :
    s.line = served ++ s'.line ∧ Sweeping (past ++ [c]) s' ∧
      s'.classOrder = past ++ [c] ++ rest := by
  obtain ⟨hset, -, hnone, hothers⟩ := h.settled.visit hv
  have hsame := (turn hv).same
  refine ⟨?_, ⟨hset, h.ranked.shrink hsame (visited hv).shrinks, ?_⟩, ?_⟩
  · refine h.settled.line_visit hv (by simp [horder]) ?_
    by_cases hjobs : s.jobsOf c = []
    · exact .inl hjobs
    · exact .inr (h.within_nil horder hjobs)
  · intro z hz hgain
    rw [hsame.gain] at hgain
    by_cases hzc : z = c
    · exact hzc ▸ hnone (hzc ▸ hgain)
    · rw [hothers z hzc]
      rcases List.mem_append.mp hz with hz | hz
      · exact h.swept z hz hgain
      · exact absurd (List.mem_singleton.mp hz) hzc
  · rw [hsame.order, horder]
    simp

/-- A round takes its batch from the front of the line. -/
theorem Sweeping.round {past : List String} (h : Sweeping past s)
    (horder : s.classOrder = past ++ classes) (hd : drainClasses classes s = (batch, s')) :
    s.line = batch ++ s'.line ∧ s'.Settled ∧ s'.Ranked := by
  induction classes generalizing past s batch with
  | nil =>
    cases hd
    exact ⟨rfl, h.settled, h.ranked⟩
  | cons c classes ih =>
    rw [drainClasses_cons] at hd
    obtain ⟨rfl, hs'⟩ := Prod.mk.inj hd
    obtain ⟨hline, hsweep, hrest⟩ := h.visit horder (rfl : s.visit c = _)
    obtain ⟨hmore, hend⟩ := ih hsweep hrest (Prod.ext rfl hs')
    rw [hline, hmore, List.append_assoc]
    exact ⟨rfl, hend⟩

theorem Ranked.rounds (hr : s.Ranked) (hset : s.Settled) (rounds : Nat) :
    s.line = (s.drainRounds rounds).1 ++ (s.drainRounds rounds).2.line ∧
      (s.drainRounds rounds).2.Settled ∧ (s.drainRounds rounds).2.Ranked := by
  induction rounds generalizing s with
  | zero => exact ⟨rfl, hset, hr⟩
  | succ rounds ih =>
    cases hd : s.drainRound with
    | mk batch s' =>
      have hsweep : Sweeping [] s := ⟨hset, hr, by simp⟩
      obtain ⟨hline, hset', hr'⟩ := hsweep.round rfl hd
      obtain ⟨hmore, hend⟩ := ih hr' hset'
      rw [drainRounds_succ hd, hline, hmore, List.append_assoc]
      exact ⟨rfl, hend⟩

theorem within_subset (s : WfqScheduler) (c : String) : s.within c ⊆ s.jobsOf c := by
  unfold within
  split
  · exact (List.takeWhile_prefix _).subset
  · exact List.Subset.refl _

theorem within_cons {job : Job} {more : List Job} (hw : s.within c = job :: more)
    (hjobs : s.jobsOf c = job :: s'.jobsOf c) (hgain : s'.gainOf c = s.gainOf c) :
    s.within c = [job] ++ s'.within c := by
  unfold within at hw ⊢
  rw [hgain, hjobs]
  rw [hjobs] at hw
  by_cases h0 : s.gainOf c = 0
  · rw [if_pos h0] at hw
    have hcost : job.computeCost = 0 := by
      by_contra hne
      simp [hne] at hw
    simp [h0, hcost]
  · simp [h0]

/-- The first job of the line is the first within reach of its class, and the classes
before have nothing within reach. -/
theorem Standing.line_cons {job : Job} {jobs : List Job} (h : s.Standing)
    (hl : s.line = job :: jobs) : classForJob job ∈ s.classOrder ∧
      (∀ z ∈ s.classOrder.takeWhile (· ≠ classForJob job), s.within z = []) ∧
      ∃ more, s.within (classForJob job) = job :: more := by
  obtain ⟨accepted, returned, surplus, hk⟩ := h.kept
  have hkind : ∀ z, job ∈ s.within z → z = classForJob job := fun z hz =>
    (hk.kinds (within_subset s z hz)).symm
  have hmem : job ∈ s.line := by simp [hl]
  obtain ⟨z, hz, hjz⟩ := List.mem_flatMap.mp hmem
  have hin : classForJob job ∈ s.classOrder := hkind z hjz ▸ List.mem_eraseDups.mp hz
  obtain ⟨later, horder, hlater⟩ := eraseDups_split hin
  rw [line, horder, List.flatMap_append, List.flatMap_cons] at hl
  have hbefore : (s.classOrder.takeWhile (· ≠ classForJob job)).eraseDups.flatMap s.within = [] := by
    by_contra hne
    obtain ⟨first, more, heq⟩ := List.exists_cons_of_ne_nil hne
    rw [heq, List.cons_append, List.cons.injEq] at hl
    have hfirst : job ∈ (s.classOrder.takeWhile (· ≠ classForJob job)).eraseDups.flatMap s.within := by
      rw [heq, hl.1]
      exact List.mem_cons_self
    obtain ⟨z, hz, hjz⟩ := List.mem_flatMap.mp hfirst
    have hz := List.mem_takeWhile_imp (List.mem_eraseDups.mp hz)
    simp [hkind z hjz] at hz
  rw [hbefore, List.nil_append] at hl
  refine ⟨hin, fun z hz => List.flatMap_eq_nil_iff.mp hbefore z (List.mem_eraseDups.mpr hz), ?_⟩
  cases hw : s.within (classForJob job) with
  | nil =>
    rw [hw, List.nil_append] at hl
    have hfirst : job ∈ later.flatMap s.within := by simp [hl]
    obtain ⟨z, hz, hjz⟩ := List.mem_flatMap.mp hfirst
    exact absurd (hkind z hjz ▸ hz) hlater
  | cons first more =>
    rw [hw, List.cons_append, List.cons.injEq] at hl
    exact ⟨more, by rw [hl.1]⟩

/-- A call hands out the first job of the line. -/
theorem Ranked.next {rounds : Nat} {job : Job} (hr : s.Ranked) (hs : s.Standing)
    (hn : s.nextJob rounds = some (some job, s')) : s.line = job :: s'.line ∧ s'.Ranked := by
  have htakes := hs.nextJob hn
  obtain ⟨idle, t, rest, s₁, hidle, hround, -, -⟩ := nextRounds_found (nextJob_found hn)
  have hrounds := hr.rounds hs.settled idle
  rw [hidle] at hrounds
  obtain ⟨hline, hset, hrt⟩ := hrounds
  have hsweep : Sweeping [] t := ⟨hset, hrt, by simp⟩
  have hfirst : s.line = job :: (rest ++ s₁.line) := by
    rw [hline]
    exact (hsweep.round rfl hround).1
  obtain ⟨hin, hbefore, more, hwithin⟩ := hs.line_cons hfirst
  have hjobs : s.jobsOf (classForJob job) = job :: s'.jobsOf (classForJob job) := by
    rw [htakes.split, ofClass_single, if_pos rfl]
    rfl
  have hothers : ∀ z, z ≠ classForJob job → s'.jobsOf z = s.jobsOf z := by
    intro z hz
    rw [htakes.split z, ofClass_single, if_neg hz]
    rfl
  refine ⟨?_, hr.shrink htakes.same fun z hempty => ?_⟩
  · unfold line
    rw [htakes.same.order]
    refine flatMap_take hin hbefore (within_cons hwithin hjobs (htakes.same.gain _)) fun z hz => ?_
    unfold within
    rw [htakes.same.gain, hothers z hz]
  · by_cases hz : z = classForJob job
    · rw [hz, hjobs] at hempty
      cases hempty
    · rw [hothers z hz, hempty]

theorem Ranked.nextJobs {jobs : List Job} (hn : NextJobs s jobs s') (hr : s.Ranked)
    (hs : s.Standing) : s.line = jobs ++ s'.line := by
  induction hn with
  | nil => rfl
  | cons h _ ih =>
    obtain ⟨hline, hr'⟩ := hr.next hs h
    rw [hline, ih hr' (hs.nextJob h).standing]
    rfl

/-- In every state the calls pass through no round that yields a job yields another one,
or no class with jobs overtakes another. -/
def Orderly (s : WfqScheduler) : Prop :=
  ∀ jobs s', NextJobs s jobs s' → (∀ rounds, (firstBatch rounds s').length ≤ 1) ∨ s'.Ranked

theorem Orderly.comparable {jobs : List Job} (hn : NextJobs s jobs s') (ho : s.Orderly)
    (hs : s.Standing) (rounds : Nat) :
    jobs <+: (s.drainRounds rounds).1 ∨ (s.drainRounds rounds).1 <+: jobs := by
  induction hn generalizing rounds with
  | nil => exact .inl (List.nil_prefix)
  | @cons s s₁ t job jobs' r h rest ih =>
    rcases ho [] s (.nil s) with hone | hr
    · -- nothing is put back, so the call leaves what the round left
      obtain ⟨idle, u, others, s₂, hidle, hround, hs', hfirst⟩ := nextRounds_found (nextJob_found h)
      have hlen := hone r
      rw [hfirst, List.length_cons] at hlen
      cases List.length_eq_zero_iff.mp (by omega : others.length = 0)
      have ho' : s₁.Orderly := fun jobs s' hn => ho (job :: jobs) s' (.cons h hn)
      have hs₁ := (hs.nextJob h).standing
      cases hs'
      rcases drainRounds_idle hidle rounds with hnone | ⟨more, hmore⟩
      · rw [hnone]
        exact .inr List.nil_prefix
      · rw [hmore]
        cases more with
        | zero => exact .inr List.nil_prefix
        | succ more =>
          rw [drainRounds_succ hround]
          rcases ih ho' hs₁ more with hp | hp
          · exact .inl ((List.cons_prefix_cons).mpr ⟨rfl, hp⟩)
          · exact .inr ((List.cons_prefix_cons).mpr ⟨rfl, hp⟩)
    · have hline := hr.nextJobs (.cons h rest) hs
      have hrounds := (hr.rounds hs.settled rounds).1
      have hp : job :: jobs' <+: s.line := ⟨_, hline.symm⟩
      have hp' : (s.drainRounds rounds).1 <+: s.line := ⟨_, hrounds.symm⟩
      exact List.prefix_or_prefix_of_prefix hp hp'

theorem Orderly.sameOrder (ho : s.Orderly) (hs : s.Standing) (h : s.Solvent) :
    s.SameOrder := by
  obtain ⟨order, hall⟩ := h.nextAll hs
  obtain ⟨batches, rounds, t, hdrained, hend⟩ := h.drainAll hs
  obtain ⟨s', hn, rounds', u, hnone⟩ := hall
  have hjobs := (hn.takes hs).queued
  have hrounds := (hs.drainRounds rounds).queued
  rw [isEmpty_iff.mp (nextJob_none hnone).1, List.append_nil] at hjobs
  rw [hdrained, isEmpty_iff.mp hend, List.append_nil] at hrounds
  have hlen := (hjobs.symm.trans hrounds).length_eq
  have heq : order = batches := by
    rcases ho.comparable hn hs rounds with hp | hp
    · rw [hdrained] at hp
      exact hp.eq_of_length hlen
    · rw [hdrained] at hp
      exact (hp.eq_of_length hlen.symm).symm
  subst heq
  exact ⟨order, ⟨s', hn, rounds', u, hnone⟩, rounds, t, hdrained, hend⟩

theorem Ranked.after {jobs : List Job} (hn : NextJobs s jobs s') (hr : s.Ranked)
    (hs : s.Standing) : s'.Ranked := by
  induction hn with
  | nil => exact hr
  | cons h _ ih => exact ih (hr.next hs h).2 (hs.nextJob h).standing

theorem Ranked.orderly (hr : s.Ranked) (hs : s.Standing) : s.Orderly :=
  fun _ _ hn => .inr (hr.after hn hs)

end WfqScheduler

end HelixRouter.FairQueue
