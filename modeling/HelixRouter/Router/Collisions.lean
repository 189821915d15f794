import HelixRouter.Interleaving.Sequential
import HelixRouter.Router.Transparency

namespace HelixRouter.Transparency

open Interleaving

/-- Surroundings in which a job that is not dropped runs inline. -/
def inlined : Env := { neural := some .inline }

theorem not_expired (deadlineMs : UInt64) : ¬ expired deadlineMs inlined.nowMs := by
  rintro ⟨hpos, hle⟩
  have hzero : deadlineMs.toNat = 0 := Nat.le_zero.mp hle
  rw [UInt64.lt_iff_toNat_lt, hzero] at hpos
  exact absurd hpos (Nat.lt_irrefl 0)

theorem cacheGet_exec {job : Job} {env : Env} {s : Inner} {text : Option (List Char)}
    {cache : ResultCache} (h : s.resultCache.get job env.instant = (text, cache)) :
    (Op.cacheGet job).exec env s = some (text, { s with resultCache := cache }, []) := by
  simp [Op.exec, h]

theorem neuralOverride_inlined {cfg : RouterConfig} {threshold : UInt64} {job : Job}
    {cpuBusy : UInt64} (h : ¬ cfg.backpressureBusyThreshold ≤ cpuBusy) :
    neuralOverride (chooseStrategy (effectiveCfg cfg threshold) job cpuBusy) inlined.neural =
      (.inline, "neural") := by
  have hkept : chooseStrategy (effectiveCfg cfg threshold) job cpuBusy ≠ .drop := by
    unfold chooseStrategy
    rw [if_neg (show ¬ (effectiveCfg cfg threshold).backpressureBusyThreshold ≤ cpuBusy from h)]
    repeat' split
    all_goals exact nofun
  unfold neuralOverride
  rw [if_neg hkept]
  rfl

/-- Nothing is late where no time passes. -/
theorem checkSlaViolation_ends {kind : JobKind} {s : Inner} (hlocked : s.cfgLocked = false) :
    (checkSlaViolation kind inlined.latencyMs).Ends Op.exec inlined (fun _ s' => s' = s) s := by
  refine Prog.ends_step (if_neg (Bool.eq_false_iff.mp hlocked)) ?_
  split
  · rename_i sla _
    rw [if_neg (show ¬ sla.maxLatencyMs < inlined.latencyMs from UInt64.not_lt_zero)]
    exact Prog.ends_pure rfl
  · exact Prog.ends_pure rfl

section Texts

variable [F64Text]

/-- What is left where a job ran inline. -/
def RanInline (job : Job) (s : Inner) (out : Option (List Output)) (s' : Inner) : Prop :=
  out = some (executeJob job) ∧
    s'.resultCache = s.resultCache.insert job (outputsToString (executeJob job)) 0

theorem submitInline_ends {job : Job} {frac : Option ℚ} {s : Inner}
    (hlocked : s.cfgLocked = false) :
    (submitInline job frac).Ends Op.exec inlined (RanInline job s) s := by
  refine Prog.ends_step rfl (Prog.ends_step rfl (Prog.ends_step rfl (Prog.ends_step rfl
    (Prog.ends_step rfl (Prog.ends_step rfl (Prog.Ends.bind ?_))))))
  refine (checkSlaViolation_ends (by exact hlocked)).imp fun _ s' hs => ?_
  subst hs
  exact Prog.ends_step rfl (Prog.ends_pure ⟨rfl, rfl⟩)

theorem submitRouted_ends {job : Job} {s : Inner} (hlocked : s.cfgLocked = false)
    (hfree : ¬ s.cfgArc.backpressureBusyThreshold ≤ busyWorkers s.cfgArc s.cpuSlots) :
    (submitRouted job).Ends Op.exec inlined (RanInline job s) s := by
  refine Prog.ends_step rfl (Prog.ends_step rfl (Prog.ends_step rfl (Prog.ends_step rfl
    (Prog.ends_step rfl ?_))))
  rw [neuralOverride_inlined hfree]
  exact Prog.ends_step rfl (submitInline_ends (s := s.logged _) hlocked)

/-- A job that is not cached leaves its answer in the cache. -/
theorem submit_miss {job : Job} {s : Inner} (hcost : job.computeCost ≠ 0)
    (hlocked : s.cfgLocked = false)
    (hfree : ¬ s.cfgArc.backpressureBusyThreshold ≤ busyWorkers s.cfgArc s.cpuSlots)
    (hmiss : s.resultCache.entries.lookup (jobKey job) = none) :
    (submit job).Ends Op.exec inlined (fun out s' => out = some (executeJob job) ∧
      s'.resultCache = { s.resultCache with misses := s.resultCache.misses + 1 }.insert job
        (outputsToString (executeJob job)) 0) s := by
  have hget : s.resultCache.get job 0 =
      (none, { s.resultCache with misses := s.resultCache.misses + 1 }) := by
    simp [ResultCache.get, hmiss]
  refine Prog.ends_step rfl (Prog.ends_step rfl ?_)
  rw [if_neg (not_expired job.deadlineMs), submitLive, if_neg hcost]
  refine Prog.ends_step (cacheGet_exec (s := s.add .submitCounter 1) hget) ?_
  exact submitRouted_ends hlocked hfree

/-- A job whose key is cached is answered with what is stored. -/
theorem submit_hit {job : Job} {s : Inner} {entry : CacheEntry} {outs : List Output}
    (hcost : job.computeCost ≠ 0) (hhit : s.resultCache.entries.lookup (jobKey job) = some entry)
    (htext : entry.result = outputsToString outs) (houts : outs ≠ []) :
    (submit job).Ends Op.exec inlined (fun out _ => out = some outs) s := by
  have htold : (s.resultCache.get job 0).1 = some (outputsToString outs) := by
    simp [ResultCache.get, hhit, htext]
  have hget : s.resultCache.get job 0 = (some (outputsToString outs), (s.resultCache.get job 0).2) :=
    Prod.ext htold rfl
  refine Prog.ends_step rfl (Prog.ends_step rfl ?_)
  rw [if_neg (not_expired job.deadlineMs), submitLive, if_neg hcost]
  refine Prog.ends_step (cacheGet_exec (s := s.add .submitCounter 1) hget) ?_
  rw [Option.map_some, Option.getD_some, parseOutputs_toString outs houts, if_pos houts]
  exact Prog.ends_step rfl (Prog.ends_pure rfl)

/-- What submitting a job alone ends with, a task of its own ends with. -/
theorem exists_submission {job : Job} {p : RouterPool}
    {post : Option (List Output) → Inner → Prop}
    (h : (submit job).Ends Op.exec inlined post p.state) :
    ∃ n q, machine.run (.start (.submit job) :: turns p.tasks.length n inlined) p = some q ∧
      ∃ t ∈ q.tasks, ∃ out, t.call = .submit job ∧ t.result? = some (.submitted out) ∧
        post out q.state := by
  have hbody : (callBody (.submit job)).Ends Op.exec inlined
      (fun a s' => ∃ out, a = .submitted out ∧ post out s') p.state :=
    Prog.Ends.bind (h.imp fun out _ hpost => Prog.ends_pure ⟨out, rfl, hpost⟩)
  obtain ⟨n, q, hrun, t, ht, _, hcall, hres, out, rfl, hpost⟩ :=
    Machine.exists_call (m := machine) (c := .submit job) rfl hbody
  exact ⟨n, q, hrun, t, ht, out, hcall, hres, hpost⟩

/-- Submitting one job after another, both inline. -/
theorem guarded_submissions {jobs : Set Job} {a b : Job} (ha : a ∈ jobs) (hb : b ∈ jobs)
    (i j n k : Nat) (p : RouterPool) :
    machine.Guarded (fun a p => Submits jobs a ∧ WorkersHold a p)
      ((.start (.submit a) :: turns i n inlined) ++ .start (.submit b) :: turns j k inlined) p := by
  apply Machine.guarded_of_forall
  intro act hact q
  simp only [turns, List.mem_append, List.mem_cons, List.mem_replicate] at hact
  rcases hact with (rfl | ⟨-, rfl⟩) | rfl | ⟨-, rfl⟩
  · exact ⟨ha, trivial⟩
  · exact ⟨trivial, fun _ _ _ _ => rfl⟩
  · exact ⟨hb, trivial⟩
  · exact ⟨trivial, fun _ _ _ _ => rfl⟩

/-- Where all answers are right, keys tell answers apart: of two jobs with one key the second
is answered with what the first left. -/
theorem keysTell_of_right {jobs : Set Job}
    (h : ∀ p0 p as, Router.new {} = some p0 →
      machine.Guarded (fun a p => Submits jobs a ∧ WorkersHold a p) as p0 →
      machine.run as p0 = some p → Right p) : KeysTell jobs := by
  intro a ha b hb hacost hbcost hkey
  have hnew : Router.new {} = some (startPool {}) := rfl
  have hfree : ¬ (Inner.new {}).cfgArc.backpressureBusyThreshold ≤
      busyWorkers (Inner.new {}).cfgArc (Inner.new {}).cpuSlots := by decide
  obtain ⟨n, q, hrunA, -, -, -, -, -, -, hcache⟩ :=
    exists_submission (p := startPool {}) (submit_miss hacost rfl hfree rfl)
  have hstored : ∃ entry, q.state.resultCache.entries.lookup (jobKey b) = some entry ∧
      entry.result = outputsToString (executeJob a) := by
    rw [hcache, ← hkey]
    exact ResultCache.exists_lookup_insert _ _ _ _
  obtain ⟨entry, hlookup, htext⟩ := hstored
  obtain ⟨k, p, hrunB, t, ht, out, hcall, hres, rfl⟩ :=
    exists_submission (submit_hit hbcost hlookup htext (executeJob_ne_nil a))
  have hg := guarded_submissions ha hb (startPool {}).tasks.length q.tasks.length n k (startPool {})
  refine h _ p _ hnew hg ?_ t ht b _ hcall hres
  rw [Machine.run_append, hrunA]
  exact hrunB

/-- The answers to the jobs of a family are right in every run, exactly if the keys of the
family tell its answers apart. -/
theorem transparent_iff (jobs : Set Job) :
    (∀ cfg p0 p as, Router.new cfg = some p0 →
      machine.Guarded (fun a p => Submits jobs a ∧ WorkersHold a p) as p0 →
      machine.run as p0 = some p → Right p) ↔ KeysTell jobs := by
  constructor
  · intro h
    exact keysTell_of_right (h {})
  · intro hk cfg p0 p as hn hg hr
    exact right_of_keysTell hk hn hg hr

end Texts

/-- Of two jobs that differ in their ids only, whatever cannot tell their keys apart cannot
tell their answers apart. -/
theorem executeJob_id {jobs : Set Job} (h : KeysTell jobs) {job : Job} {id : UInt64}
    (ha : job ∈ jobs) (hb : { job with id := id } ∈ jobs) (hcost : job.computeCost ≠ 0) :
    executeJob { job with id := id } = executeJob job :=
  h _ hb _ ha hcost hcost (jobKey_id job id)

/-- Two inputs whose keys collide. -/
def collision : Job × Job :=
  ({ inputs := [8941385126840951363], computeCost := 128 },
    { inputs := [10127919449802412494], computeCost := 128 })

/-- The second job comes when the first has been answered. -/
def oneAfterAnother : List RouterAction :=
  (.start (.submit collision.1) :: turns 2 17 inlined) ++
    .start (.submit collision.2) :: turns 3 4 inlined

/-- A submission that is answered wrongly. -/
def wrong (t : RouterTask) : Bool :=
  match t.call, t.result? with
  | .submit job, some (.submitted (some outs)) => outs != executeJob job
  | _, _ => false

theorem not_right_of_wrong {p : RouterPool} (h : p.tasks.any wrong = true) : ¬ Right p := by
  obtain ⟨t, ht, hw⟩ := List.any_eq_true.mp h
  intro hright
  unfold wrong at hw
  split at hw
  · rename_i job outs hcall hres
    exact bne_iff_ne.mp hw (hright t ht job outs hcall hres)
  · nomatch hw

theorem collision_served_wrong : ∃ p, Reachable {} p ∧ ¬ Right p := by
  obtain ⟨p, hp, hw⟩ := exists_reachable {} oneAfterAnother (fun p => p.tasks.any wrong)
    (by decide +kernel)
  exact ⟨p, hp, not_right_of_wrong hw⟩

end HelixRouter.Transparency
