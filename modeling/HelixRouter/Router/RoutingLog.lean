import HelixRouter.Containers.Recency
import HelixRouter.Interleaving.History
import HelixRouter.Router.Footprints

namespace HelixRouter.RoutingLog

open Interleaving

/-- The decisions an operation sends, each with whether it is logged under the same lock. -/
def sends : (e : Op) → e.Resp → List (RoutingDecision × Bool)
  | .logDecision d, _ => [(d, true)]
  | .broadcast d, _ => [(d, false)]
  | _, _ => []

/-- Of the decisions sent, those that are logged. -/
def logged (feed : List (RoutingDecision × Bool)) : List RoutingDecision :=
  (feed.filter (·.2)).map (·.1)

@[simp] theorem logged_append (feed feed' : List (RoutingDecision × Bool)) :
    logged (feed ++ feed') = logged feed ++ logged feed' := by
  simp [logged]

/-- The log takes what is logged and drops the oldest of more than fifty. -/
theorem routingLog_exec {e : Op} {env : Env} {s s' : Inner} {r : e.Resp} {new : List Call}
    (hx : e.exec env s = some (r, s', new)) :
    s'.routingLog = (logged (sends e r)).foldl (Window.keep 50) s.routingLog := by
  cases e <;> simp only [Op.exec] at hx
  all_goals repeat' split at hx
  all_goals first | contradiction | (cases hx; rfl)

/-- Only a submission past its deadline sends without logging, and only its decision
names the deadline. -/
def Marked : Op → Prop
  | .logDecision d => d.decisionSource ≠ "deadline"
  | .broadcast d => d.decisionSource = "deadline"
  | _ => True

def sendsNothing : Op → Bool
  | .logDecision _ | .broadcast _ => false
  | _ => true

theorem marked_of_sendsNothing {e : Op} (h : sendsNothing e = true) : Marked e := by
  cases e with
  | logDecision d => nomatch h
  | broadcast d => nomatch h
  | _ => trivial

theorem sendsNothing_of_configures {e : Op} (h : e.configures = true) : sendsNothing e = true := by
  cases e with
  | logDecision d => nomatch h
  | broadcast d => nomatch h
  | _ => rfl

section Calls

attribute [local simp] sendsNothing bumpRoute bumpKindRoute

theorem checkSlaViolation_silent (kind : JobKind) (ms : UInt64) :
    (checkSlaViolation kind ms).All (fun e => sendsNothing e = true) := by
  refine (checkSlaViolation_all kind ms).imp fun e h => ?_
  cases e with
  | logDecision d => nomatch h
  | broadcast d => nomatch h
  | _ => rfl

theorem submitCompleted_silent (job : Job) (out : List Output) :
    (submitCompleted job out).All (fun e => sendsNothing e = true) := by
  simp [submitCompleted]
  exact fun env => (checkSlaViolation_silent _ _).bind fun _ => trivial

theorem flushBatchKind_silent (kind : JobKind) :
    (flushBatchKind kind).All (fun e => sendsNothing e = true) := by
  simp [flushBatchKind]
  rintro cfg (_ | taken)
  · simp
  · simpa using flushEntries_all (by simp) (by simp) _

theorem submitBatch_silent (job : Job) (cfg : RouterConfig) :
    (submitBatch job cfg).All (fun e => sendsNothing e = true) := by
  have hreply : ∀ r, (batchReply job r).All (fun e => sendsNothing e = true) := by
    intro r
    simp [batchReply]
    rintro (_ | out)
    · simp
    · exact submitCompleted_silent job out
  simp [submitBatch]
  intro r seq len
  split
  · exact (flushBatchKind_silent _).bind fun _ => hreply r
  · exact hreply r

/-- Once its strategy is chosen a submission sends nothing more. -/
theorem submitWith_silent [F64Text] (strategy : Strategy) (job : Job) (cfg : RouterConfig)
    (frac : Option ℚ) :
    (submitWith strategy job cfg frac).All (fun e => sendsNothing e = true) := by
  cases strategy with
  | drop => simp [submitWith, submitDrop]
  | inline =>
    simp [submitWith, submitInline]
    exact fun out env => (checkSlaViolation_silent _ _).bind fun _ => by simp
  | spawn =>
    simp [submitWith, submitSpawn]
    rintro (_ | out)
    · simp
    · simpa using fun _ => submitCompleted_silent job out
  | cpuPool =>
    simp [submitWith, submitCpuPool]
    intro r
    rintro (_ | out)
    · simp
    · exact submitCompleted_silent job out
  | batch => exact submitBatch_silent job cfg

theorem runWith_silent (strategy : Strategy) (hint : WorkHint) (frac : Option ℚ) :
    (runWith strategy hint frac).All (fun e => sendsNothing e = true) := by
  refine (runWith_all strategy hint frac).imp fun e h => ?_
  cases e with
  | logDecision d => nomatch h
  | broadcast d => nomatch h
  | _ => rfl

theorem neuralOverride_source (heuristic : Strategy) (neural : Option Strategy) :
    (neuralOverride heuristic neural).2 ≠ "deadline" := by
  unfold neuralOverride
  repeat' split
  all_goals simp

theorem submit_marked [F64Text] (job : Job) : (submit job).All Marked := by
  have hrouted : (submitRouted job).All Marked :=
    ⟨trivial, fun _ => ⟨trivial, fun _ => ⟨trivial, fun _ => ⟨trivial, fun _ => ⟨trivial, fun env =>
      ⟨neuralOverride_source _ env.neural, fun _ =>
        (submitWith_silent _ job _ _).imp fun _ => marked_of_sendsNothing⟩⟩⟩⟩⟩⟩
  refine ⟨trivial, fun _ => ⟨trivial, fun env => ?_⟩⟩
  simp only [Prog.ret_bind]
  split
  · exact ⟨trivial, fun _ => ⟨trivial, fun _ => ⟨trivial, fun _ => ⟨rfl, fun _ => trivial⟩⟩⟩⟩
  · unfold submitLive
    split
    · simp [submitFree, Marked]
    · refine ⟨trivial, fun text => ?_⟩
      simp only [Prog.ret_bind]
      split
      · simp [Marked]
      · exact hrouted

theorem run_marked (hint : WorkHint) : (run hint).All Marked := by
  refine ⟨trivial, fun env => ?_⟩
  simp only [Prog.ret_bind]
  split
  · simp [Marked]
  · exact ⟨trivial, fun _ => ⟨trivial, fun _ => ⟨trivial, fun _ => ⟨trivial, fun _ =>
      ⟨by simp [Marked], fun _ => ⟨trivial, fun _ =>
        (runWith_silent _ hint _).imp fun _ => marked_of_sendsNothing⟩⟩⟩⟩⟩⟩

theorem body_marked [F64Text] (c : Call) : (callBody c).All Marked := by
  have hsilent : ∀ {p : RouterM Answer}, p.All (fun e => sendsNothing e = true) → p.All Marked :=
    fun h => h.imp fun _ => marked_of_sendsNothing
  cases c with
  | submit job => exact (submit_marked job).bind fun _ => trivial
  | run hint => exact run_marked hint
  | cpuDispatchLoop =>
    refine hsilent (Prog.All.bind ?_ fun _ => trivial)
    simp [cpuDispatchLoop]
    rintro (_ | w) <;> simp
  | cpuWorker w =>
    refine hsilent (Prog.All.bind ⟨rfl, fun cancelled => ⟨rfl, ?_⟩⟩ fun _ => trivial)
    rintro (_ | out) <;> simp
  | batchFlusher idx =>
    refine hsilent (Prog.All.bind ?_ fun _ => trivial)
    simp [batchFlusher]
    exact fun _ => (flushBatchKind_silent _).bind fun _ => by simp
  | _ => exact hsilent ((callBody_all _ rfl).imp fun _ => sendsNothing_of_configures)

end Calls

section Feed

variable [F64Text]

/-- What a run sends on the live feed, in the order it is sent. -/
def feed (as : List RouterAction) (p : RouterPool) : List (RoutingDecision × Bool) :=
  machine.events sends as p

/-- The log holds the last fifty of the decisions sent. -/
def Mirrors (as : List RouterAction) (p0 p : RouterPool) : Prop :=
  p.state.routingLog = ((feed as p0).map (·.1)).rtake 50

/-- From a log of the last fifty, a run makes a log of the last fifty. -/
theorem routingLog_run {as : List RouterAction} {p p' : RouterPool}
    (hr : machine.run as p = some p') {before : List RoutingDecision}
    (h : p.state.routingLog = before.rtake 50) :
    p'.state.routingLog = (before ++ logged (feed as p)).rtake 50 := by
  induction as generalizing p before with
  | nil =>
    cases hr
    simpa [feed, Machine.events, Machine.history, logged] using h
  | cons a as ih =>
    obtain ⟨q, hstep, hrun⟩ := Option.bind_eq_some_iff.mp hr
    cases Machine.step_notes hstep with
    | nothing hn hstate hlog hstart =>
      rw [feed, Machine.events_cons_nothing hstep hn]
      exact ih hrun (hstate ▸ h)
    | operation i env t e r new ha ht hh hx ho hlog =>
      rw [feed, Machine.events_cons_operation hstep ho, logged_append, ← List.append_assoc]
      apply ih hrun
      rw [routingLog_exec hx, h, Window.foldl_keep_rtake]

/-- What is sent without being logged names the deadline. -/
theorem feed_marked {cfg : RouterConfig} {p0 : RouterPool} (hn : Router.new cfg = some p0)
    (as : List RouterAction) : ∀ x ∈ feed as p0, (x.2 = true ↔ x.1.decisionSource ≠ "deadline") := by
  intro x hx
  obtain ⟨⟨e, r⟩, hev, hx⟩ := List.mem_flatMap.mp hx
  have hstart : ∀ t ∈ p0.tasks, t.prog.All Marked := by
    rw [Router.new_eq hn]
    intro t ht
    rcases mem_startPool.mp ht with rfl | rfl
    · exact body_marked .cpuDispatchLoop
    · exact body_marked (.batchFlusher 0)
  have hm : Marked e :=
    Machine.history_all (m := machine) (P := Marked) body_marked as hstart ⟨e, r⟩ hev
  cases e with
  | logDecision d =>
    rw [List.mem_singleton.mp hx]
    exact iff_of_true rfl hm
  | broadcast d =>
    rw [List.mem_singleton.mp hx]
    exact iff_of_false (fun h => nomatch h) fun h => h hm
  | _ => nomatch hx

/-- After every run from a new router the log holds the last fifty decisions sent exactly if
each of these was sent under its lock. -/
theorem log_mirrors_iff {cfg : RouterConfig} {p0 p : RouterPool} {as : List RouterAction}
    (hn : Router.new cfg = some p0) (hr : machine.run as p0 = some p) :
    Mirrors as p0 p ↔ ∀ x ∈ (feed as p0).rtake 50, x.2 = true := by
  have hmarked := feed_marked hn as
  have hlogged : logged (feed as p0) =
      ((feed as p0).map (·.1)).filter fun d => d.decisionSource ≠ "deadline" := by
    rw [List.filter_map, logged]
    apply congrArg
    apply List.filter_congr
    intro x hx
    rw [Bool.eq_iff_iff, hmarked x hx]
    simp
  have hstart : p0.state.routingLog = ([] : List RoutingDecision).rtake 50 := by
    rw [Router.new_eq hn]
    rfl
  have hlog := routingLog_run hr hstart
  rw [List.nil_append] at hlog
  rw [Mirrors, hlog, hlogged, Window.rtake_filter_iff, Window.map_rtake, List.forall_mem_map]
  constructor
  · intro h x hx
    apply (hmarked x (List.mem_of_mem_drop hx)).mpr
    exact of_decide_eq_true (h x hx)
  · intro h x hx
    apply decide_eq_true
    exact (hmarked x (List.mem_of_mem_drop hx)).mp (h x hx)

end Feed

/-- A submission that is in time, and one that comes after its deadline. -/
def inTimeAndLate : List RouterAction :=
  .start (.submit { computeCost := 1 }) :: .start (.submit { computeCost := 1, deadlineMs := 5 }) ::
    (turns 2 9 {} ++ turns 3 6 { nowMs := 10 })

theorem log_mirrors_inTime : ∃ p0 p, Router.new {} = some p0 ∧
    machine.run (inTimeAndLate.take 11) p0 = some p ∧ Mirrors (inTimeAndLate.take 11) p0 p ∧
      p.state.routingLog.length = 1 := by
  obtain ⟨p0, p, hn, hr, hp⟩ := exists_run {} (inTimeAndLate.take 11)
    (fun p => p.state.routingLog.length == 1) (by decide +kernel)
  refine ⟨p0, p, hn, hr, (log_mirrors_iff hn hr).mpr ?_, beq_iff_eq.mp hp⟩
  rw [Router.new_eq hn]
  decide +kernel

/-- The late submission sends a decision that the log never gets. -/
theorem late_decision_not_logged : ∃ p0 p, Router.new {} = some p0 ∧
    machine.run inTimeAndLate p0 = some p ∧ ¬ Mirrors inTimeAndLate p0 p := by
  obtain ⟨p0, p, hn, hr, hp⟩ := exists_run {} inTimeAndLate
    (fun p => p.state.routingLog.length == 1) (by decide +kernel)
  refine ⟨p0, p, hn, hr, fun h => ?_⟩
  have hlen := congrArg List.length h
  have htwo : (((feed inTimeAndLate p0).map (·.1)).rtake 50).length = 2 := by
    rw [Router.new_eq hn]
    decide +kernel
  rw [beq_iff_eq.mp hp, htwo] at hlen
  nomatch hlen

end HelixRouter.RoutingLog
