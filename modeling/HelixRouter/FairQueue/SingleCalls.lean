import HelixRouter.FairQueue.DrrOrder
import HelixRouter.FairQueue.Overtaking

namespace HelixRouter.FairQueue

open WfqScheduler

/-- The credit its class earns pays for a job before a word overflows. -/
def Payable (config : WfqConfig) (job : Job) : Prop :=
  ((WfqScheduler.new config).gainOf (classForJob job) = 0 → job.computeCost = 0) ∧
    job.computeCost.toNat + ((WfqScheduler.new config).gainOf (classForJob job)).toNat ≤ 2 ^ 64

section Runs

variable {config : WfqConfig} {h h' : History} {op : Op} {ops : List Op}

theorem known_new (config : WfqConfig) (c : String) :
    (WfqScheduler.new config).Known c ↔ c ∈ (WfqScheduler.new config).classOrder := by
  refine List.foldlRecOn (motive := fun s : WfqScheduler => s.Known c ↔ c ∈ s.classOrder)
    config.classes _ ?_ ?_
  · exact ⟨fun h => (nomatch h), fun h => (nomatch h)⟩
  · intro s hs cls _
    change ((s.queues.insert cls.name _).lookup c).isSome ↔ c ∈ s.classOrder ++ [cls.name]
    rw [List.mem_append, List.mem_singleton]
    by_cases hc : c = cls.name
    · subst hc
      simp
    · rw [AList.lookup_insert_ne hc]
      have hold : (s.queues.lookup c).isSome ↔ c ∈ s.classOrder := hs
      simpa [hc] using hold

theorem quantum_new (config : WfqConfig) : (WfqScheduler.new config).quantum = config.quantum :=
  List.foldlRecOn (motive := fun s : WfqScheduler => s.quantum = config.quantum)
    config.classes _ rfl fun _ hs _ _ => hs

theorem deficitOf_new (config : WfqConfig) (c : String) :
    (WfqScheduler.new config).deficitOf c = 0 := by
  unfold deficitOf
  cases h : (WfqScheduler.new config).queues.lookup c with
  | none => rfl
  | some queue => exact ((fresh_new config).queues c queue h).2

/-- What holds of every history of a scheduler: its classes and their gains are those of the
configuration, and while all accepted jobs can be paid for it is solvent. -/
structure Served (config : WfqConfig) (h : History) : Prop where
  sound : h.Sound
  same : SameCredit (.new config) h.scheduler
  settled : h.scheduler.Settled
  solvent : (∀ job ∈ h.accepted, Payable config job) → h.scheduler.Solvent

theorem Served.standing (hs : Served config h) : h.scheduler.Standing := by
  refine ⟨⟨_, _, _, hs.sound⟩, fun c hc => ?_, hs.settled⟩
  rw [hs.same.order]
  exact (known_new config c).mp ((hs.same.known c).mp hc)

/-- A queued job has been accepted, for its class. -/
theorem History.Sound.queued_accepted (hs : h.Sound) {c : String} {job : Job}
    (hj : job ∈ h.scheduler.jobsOf c) : job ∈ h.accepted ∧ classForJob job = c := by
  have hmem : job ∈ ofClass c h.accepted := by
    rw [hs.fifo c]
    exact List.mem_append_right _ hj
  exact ⟨(List.mem_filter.mp hmem).1, Kept.kinds hs hj⟩

theorem served_new (config : WfqConfig) : Served config { scheduler := .new config } where
  sound := sound_new config
  same := SameCredit.refl _
  settled c _ := deficitOf_new config c
  solvent _ := by
    refine ⟨fun c job hj => ?_, fun c => ?_⟩
    · rw [(fresh_new config).jobsOf] at hj
      cases hj
    · have hword := ((WfqScheduler.new config).gainOf c).toNat_lt
      rw [deficitOf_new]
      simpa using hword

theorem Served.enqueue {job : Job} (hs : Served config h)
    (hstep : h.step (.enqueue job) = some h') : Served config h' := by
  have hsound := hs.sound.step hstep
  obtain ⟨hsame, hdef⟩ := enqueue_credit h.scheduler job
  cases he : h.scheduler.enqueue job with
  | mk accepts s =>
    rw [he] at hsame hdef
    simp only [History.step, he, Option.some.injEq] at hstep
    subst hstep
    have hjoins := hs.same.trans hsame
    refine ⟨hsound, hjoins, hs.settled.put hsame hdef, fun hpay => ⟨fun c j hj => ?_, fun c => ?_⟩⟩
    · obtain ⟨hin, rfl⟩ := hsound.queued_accepted hj
      rw [hjoins.gain]
      exact hpay j hin
    · have hnow : ∀ j ∈ h.accepted, Payable config j := by
        intro j hj
        refine hpay j ?_
        cases accepts with
        | true => exact List.mem_append_left _ hj
        | false => exact hj
      rw [hsame.gain, hdef]
      exact (hs.solvent hnow).fits c

theorem Served.step (hs : Served config h) (ho : h.step op = some h') : Served config h' := by
  have hsound := hs.sound.step ho
  have hstanding := hs.standing
  cases op with
  | enqueue job => exact hs.enqueue ho
  | drainRound =>
    cases ho
    have htakes := hstanding.drained (rfl : h.scheduler.drainRound = (_, _))
    exact ⟨hsound, hs.same.trans htakes.same, htakes.standing.settled,
      fun hpay => (hs.solvent hpay).drained (rfl : h.scheduler.drainRound = (_, _))⟩
  | nextJob rounds =>
    obtain ⟨⟨next, s⟩, hn, hh⟩ := Option.bind_eq_some_iff.mp ho
    cases hh
    cases next with
    | some job =>
      have htakes := hstanding.nextJob hn
      exact ⟨hsound, hs.same.trans htakes.same, htakes.standing.settled,
        fun hpay => (hs.solvent hpay).nextJob hstanding hn⟩
    | none =>
      obtain ⟨-, idle, hidle⟩ := nextJob_none hn
      have htakes := hstanding.drainRounds idle
      have hsolvent := fun hpay => (hs.solvent hpay).drainRounds idle
      rw [hidle] at htakes hsolvent
      exact ⟨hsound, hs.same.trans htakes.same, htakes.standing.settled, hsolvent⟩

theorem served (hr : run config ops = some h) : Served config h := by
  have hall : ∀ (ops : List Op) (h₀ : History), Served config h₀ →
      ops.foldlM History.step h₀ = some h → Served config h := by
    intro ops
    induction ops with
    | nil =>
      intro h₀ hs hr
      cases hr
      exact hs
    | cons op ops ih =>
      intro h₀ hs hr
      rw [List.foldlM_cons] at hr
      obtain ⟨h₁, ho, hr⟩ := Option.bind_eq_some_iff.mp hr
      exact ih h₁ (hs.step ho) hr
  exact hall ops _ (served_new config) hr

/-- Where no kind of the jobs overtakes another, no class does. -/
theorem Served.ranked {K : JobKind → Prop} (hs : Served config h)
    (hjobs : ∀ job ∈ h.accepted, K job.kind)
    (hK : ∀ k k', K k → K k' → ¬ (WfqScheduler.new config).Overtakes k.display k'.display) :
    h.scheduler.Ranked := by
  have hkind : ∀ c, h.scheduler.jobsOf c ≠ [] → ∃ k, K k ∧ k.display = c := by
    intro c hc
    obtain ⟨job, hjob⟩ := List.exists_mem_of_ne_nil _ hc
    obtain ⟨hin, hclass⟩ := hs.sound.queued_accepted hjob
    exact ⟨job.kind, hjobs job hin, hclass⟩
  intro x y hx hy ho
  obtain ⟨k, hk, rfl⟩ := hkind x hx
  obtain ⟨k', hk', rfl⟩ := hkind y hy
  obtain ⟨hin, hbefore, hgain⟩ := ho
  rw [hs.same.order] at hin hbefore
  rw [hs.same.gain] at hgain
  exact hK k k' hk hk' ⟨hin, hbefore, hgain⟩

/-- Jobs of known classes that are only enqueued are all there, and no credit is earned. -/
theorem run_enqueues {jobs : List Job}
    (hknown : ∀ job ∈ jobs, (WfqScheduler.new config).Known (classForJob job)) :
    ∃ h, run config (jobs.map .enqueue) = some h ∧ h.accepted = jobs ∧
      (∀ c, h.scheduler.jobsOf c = ofClass c jobs) ∧ ∀ c, h.scheduler.deficitOf c = 0 := by
  suffices hrun : ∃ h, run config (jobs.map .enqueue) = some h ∧ h.accepted = jobs ∧
      h.returned = [] ∧ ∀ c, h.scheduler.deficitOf c = 0 by
    obtain ⟨h, hr, hacc, hret, hdef⟩ := hrun
    refine ⟨h, hr, hacc, fun c => ?_, hdef⟩
    have hfifo := (served hr).sound.fifo c
    rw [hacc, hret] at hfifo
    exact hfifo.symm
  induction jobs using List.reverseRecOn with
  | nil => exact ⟨_, rfl, rfl, rfl, deficitOf_new config⟩
  | append_singleton jobs job ih =>
    obtain ⟨h, hr, hacc, hret, hdef⟩ := ih fun j hj => hknown j (List.mem_append_left _ hj)
    have hin := hknown job (by simp)
    obtain ⟨queue, hq⟩ := Option.isSome_iff_exists.mp (((served hr).same.known _).mpr hin)
    have haccepts : (h.scheduler.enqueue job).1 = true := by simp [WfqScheduler.enqueue, hq]
    refine ⟨{ h with scheduler := (h.scheduler.enqueue job).2, accepted := h.accepted ++ [job] },
      ?_, by rw [hacc], hret, fun c => ?_⟩
    · rw [run] at hr ⊢
      rw [List.map_append, List.foldlM_append, hr]
      simp [History.step, haccepts]
    · exact ((enqueue_credit h.scheduler job).2 c).trans (hdef c)

def priced (k : JobKind) (cost : UInt64) : Job := { kind := k, computeCost := cost }

/-- Jobs of one kind that cost a credit each, and one of another kind that costs nothing. -/
def flood (k k' : JobKind) (count : Nat) : List Job :=
  List.replicate count (priced k 1) ++ [priced k' 0]

theorem flood_ofClass {k k' : JobKind} (hne : k.display ≠ k'.display) (count : Nat) (c : String) :
    ofClass c (flood k k' count) = if c = k.display then List.replicate count (priced k 1)
      else if c = k'.display then [priced k' 0] else [] := by
  have hkind : ∀ job ∈ List.replicate count (priced k 1), classForJob job = k.display := by
    intro job hj
    rw [List.eq_of_mem_replicate hj]
    rfl
  have hlast : ofClass c [priced k' 0] = if c = k'.display then [priced k' 0] else [] :=
    ofClass_single c _
  rw [flood, ofClass_append, hlast]
  by_cases hc : c = k.display
  · rw [if_pos hc, if_neg (hc ▸ hne), hc, ofClass_self hkind, List.append_nil]
  · rw [if_neg hc, ofClass_eq_nil hkind hc, List.nil_append]

theorem payable_flood {k k' : JobKind} (hgain : (WfqScheduler.new config).gainOf k.display ≠ 0)
    (count : Nat) : ∀ job ∈ flood k k' count, Payable config job := by
  intro job hj
  rcases List.mem_append.mp hj with hj | hj
  · obtain rfl := List.eq_of_mem_replicate hj
    have hword := ((WfqScheduler.new config).gainOf k.display).toNat_lt
    refine ⟨fun h0 => absurd h0 hgain, ?_⟩
    change 1 + ((WfqScheduler.new config).gainOf k.display).toNat ≤ 2 ^ 64
    omega
  · obtain rfl := List.mem_singleton.mp hj
    have hword := ((WfqScheduler.new config).gainOf k'.display).toNat_lt
    refine ⟨fun _ => rfl, ?_⟩
    change 0 + ((WfqScheduler.new config).gainOf k'.display).toNat ≤ 2 ^ 64
    omega

/-- A kind that overtakes another is handed out too early by single calls, where there are more
of its jobs than a round serves. -/
theorem flood_not_sameOrder {k k' : JobKind}
    (ho : (WfqScheduler.new config).Overtakes k.display k'.display) :
    ∃ count h, run config ((flood k k' count).map .enqueue) = some h ∧
      h.accepted = flood k k' count ∧ ¬ h.scheduler.SameOrder := by
  obtain ⟨hin, hbefore, hgain⟩ := ho
  have hlisted := (List.takeWhile_prefix _).subset hbefore
  have hne : k.display ≠ k'.display := by simpa using List.mem_takeWhile_imp hbefore
  refine ⟨(WfqScheduler.new config).classOrder.count k.display *
    ((WfqScheduler.new config).gainOf k.display).toNat + 1, ?_⟩
  generalize hcount : _ * _ + 1 = count
  have hknown : ∀ job ∈ flood k k' count, (WfqScheduler.new config).Known (classForJob job) := by
    intro job hj
    rcases List.mem_append.mp hj with hj | hj
    · rw [List.eq_of_mem_replicate hj]
      exact (known_new config _).mpr hlisted
    · rw [List.mem_singleton.mp hj]
      exact (known_new config _).mpr hin
  obtain ⟨h, hr, hacc, hjobs, hdef⟩ := run_enqueues hknown
  have hs := served hr
  have hx : h.scheduler.jobsOf k.display = List.replicate count (priced k 1) := by
    rw [hjobs, flood_ofClass hne, if_pos rfl]
  have hy : h.scheduler.jobsOf k'.display = [priced k' 0] := by
    rw [hjobs, flood_ofClass hne, if_neg hne.symm, if_pos rfl]
  have hcheap : Cheap k.display h.scheduler := by
    refine ⟨?_, fun job hj => ?_, hdef _⟩
    · rw [hs.same.gain]
      exact hgain
    · rw [hx] at hj
      rw [List.eq_of_mem_replicate hj]
      rfl
  have hahead : Ahead k.display (priced k 1) count h.scheduler := by
    refine ⟨hs.standing, hcheap, hx, ?_, fun z hz => ?_⟩
    · rw [hs.same.order]
      exact hlisted
    · rw [hs.same.order] at hz
      have hzx : z ≠ k.display := by simpa using List.mem_takeWhile_imp hz
      have hzy : z ≠ k'.display := by
        simpa using List.mem_takeWhile_imp (mem_takeWhile_trans hbefore hz)
      rw [hjobs, flood_ofClass hne, if_neg hzx, if_neg hzy]
  refine ⟨h, hr, hacc, hahead.not_sameOrder (y := k'.display) rfl rfl hne ?_ hy rfl⟩
  rw [hs.same.order, hs.same.gain]
  omega

/-- Single calls and whole rounds agree in any state from which on no job is put back, or no class
with jobs overtakes another; and they agree in all states with jobs of some kinds exactly if none
of these kinds overtakes another. -/
theorem drr_order_iff (config : WfqConfig) (K : JobKind → Prop) :
    (∀ ops h, run config ops = some h → (∀ job ∈ h.accepted, Payable config job) →
      h.scheduler.Orderly → h.scheduler.SameOrder) ∧
    ((∀ ops h, run config ops = some h → (∀ job ∈ h.accepted, K job.kind ∧ Payable config job) →
        h.scheduler.SameOrder) ↔
      ∀ k k', K k → K k' → ¬ (WfqScheduler.new config).Overtakes k.display k'.display) := by
  refine ⟨fun ops h hr hpay ho => ?_, fun hall k k' hk hk' ho => ?_, fun hK ops h hr hjobs => ?_⟩
  · have hs := served hr
    exact ho.sameOrder hs.standing (hs.solvent hpay)
  · obtain ⟨count, h, hr, hacc, hnot⟩ := flood_not_sameOrder ho
    refine hnot (hall _ h hr fun job hj => ?_)
    rw [hacc] at hj
    refine ⟨?_, payable_flood ho.2.2 count job hj⟩
    rcases List.mem_append.mp hj with hj | hj
    · exact List.eq_of_mem_replicate hj ▸ hk
    · exact List.mem_singleton.mp hj ▸ hk'
  · have hs := served hr
    have hranked := hs.ranked (fun job hj => (hjobs job hj).1) hK
    exact (hranked.orderly hs.standing).sameOrder hs.standing
      (hs.solvent fun job hj => (hjobs job hj).2)

end Runs

/-- What so many calls of `next_job` hand out, none of which takes more than one round. -/
def calls : Nat → WfqScheduler → Option (List Job × WfqScheduler)
  | 0, s => some ([], s)
  | n + 1, s =>
    match s.nextJob 1 with
    | some (some job, s) => (calls n s).map fun (jobs, t) => (job :: jobs, t)
    | _ => none

theorem nextJobs_calls {n : Nat} {s t : WfqScheduler} {jobs : List Job}
    (h : calls n s = some (jobs, t)) : NextJobs s jobs t := by
  induction n generalizing s jobs with
  | zero =>
    cases h
    exact .nil _
  | succ n ih =>
    rw [calls] at h
    split at h
    · rename_i job s' hn
      obtain ⟨⟨more, u⟩, hmore, heq⟩ := Option.map_eq_some_iff.mp h
      cases heq
      exact .cons hn (ih hmore)
    · cases h

/-- Two jobs that take a round each, and one of the next class that a round pays for. -/
def threeJobs : List Op :=
  [.enqueue { id := 1, computeCost := 3000 }, .enqueue { id := 2, computeCost := 3000 },
    .enqueue { id := 3, kind := .primeCount, computeCost := 2000 }]

theorem next_job_overtakes : ∃ h, run {} threeJobs = some h ∧ ¬ h.scheduler.SameOrder := by
  have hcalls : ((run {} threeJobs).bind fun h => calls 2 h.scheduler).map
      (fun r => r.1.map (·.id)) = some [1, 2] := by decide +kernel
  have hround : (run {} threeJobs).map (fun h => h.scheduler.drainRound.1.map (·.id)) =
      some [1, 3] := by decide +kernel
  obtain ⟨⟨jobs, s'⟩, hc, hids⟩ := Option.map_eq_some_iff.mp hcalls
  obtain ⟨h, hr, hc⟩ := Option.bind_eq_some_iff.mp hc
  rw [hr] at hround
  have hround : h.scheduler.drainRound.1.map (·.id) = [1, 3] := Option.some.inj hround
  refine ⟨h, hr, fun ⟨order, hall, rounds, t, hdrained, hend⟩ => ?_⟩
  obtain ⟨more, rfl, -⟩ := (nextJobs_calls hc).toward hall
  cases rounds with
  | zero =>
    obtain ⟨hnil, -⟩ := Prod.mk.inj hdrained
    obtain ⟨rfl, -⟩ := List.append_eq_nil_iff.mp hnil.symm
    cases hids
  | succ rounds =>
    cases hd : h.scheduler.drainRound with
    | mk batch s₁ =>
      rw [hd] at hround
      rw [drainRounds_succ hd] at hdrained
      have horder := congrArg (List.map (·.id)) (Prod.mk.inj hdrained).1
      rw [List.map_append, List.map_append, hids, hround] at horder
      cases horder

end HelixRouter.FairQueue
