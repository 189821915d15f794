import HelixRouter.Interleaving.Prog
import HelixRouter.Router.Inner

namespace HelixRouter

open Interleaving

abbrev RouterM := Prog Op Op.Resp

abbrev Op.run (e : Op) : RouterM e.Resp := Prog.perform e

/-- What a call ends with. A panic in inline work unwinds through `run`. -/
inductive Answer where
  | submitted (out : Option (List Output))
  | ran (result : Except Rejected Unit)
  | patched (result : Except ConfigError RouterConfig)
  | updated (found : Bool)
  | done
  | unwound

/-- The routing decision for a job; only cost and scaling potential are read. -/
def chooseStrategy (cfg : RouterConfig) (job : Job) (cpuBusy : UInt64) : Strategy :=
  if cfg.backpressureBusyThreshold ≤ cpuBusy then
    if job.scalingPotential ≥ 0.65 then .batch else .drop
  else if job.computeCost ≤ cfg.inlineThreshold then .inline
  else if job.computeCost < cfg.spawnThreshold then .spawn
  else if job.scalingPotential ≥ 0.70 then .batch
  else .cpuPool

def busyWorkers (cfg : RouterConfig) (available : Nat) : UInt64 :=
  saturatingSub cfg.cpuParallelism (UInt64.ofNat available)

/-- A parallelism of zero divides by zero, which is no finite number. -/
def queueFrac (available : Nat) (parallelism : UInt64) : Option ℚ :=
  if parallelism = 0 then none else some (1 - (available : ℚ) / toRat parallelism)

/-- The configuration a routing decision is made with. -/
def effectiveCfg (cfg : RouterConfig) (threshold : UInt64) : RouterConfig :=
  { cfg with spawnThreshold := threshold }

def bumpRoute (s : Strategy) : RouterM Unit := (Op.bump (.routed s) 1).run

def bumpKindRoute (k : JobKind) : RouterM Unit := (Op.bump (.routedKind k) 1).run

def checkSlaViolation (kind : JobKind) (latencyMs : UInt64) : RouterM Unit := do
  let cfg ← Op.readCfg.run
  match cfg.sla.get kind.display with
  | some sla =>
    if sla.maxLatencyMs < latencyMs then (Op.bump (.slaViolations kind) 1).run else pure ()
  | none => pure ()

/-- Latency as a fraction of the budget. -/
def latencyFrac (ms budget : UInt64) : ℚ := toRat ms / toRat (max budget 1)

/-- The entries of one flush are executed and answered one by one. -/
def flushEntries : List BatchEntry → RouterM Unit
  | [] => pure ()
  | e :: rest => do
    let out ← (Op.execute e.job).run
    (Op.sendReply e.reply out).run
    flushEntries rest

/-- A flush takes at most one batch off the queue of its kind. -/
def flushBatchKind (kind : JobKind) : RouterM Unit := do
  let cfg ← Op.readCfg.run
  if ← (Op.hasBatch kind).run then
    match ← (Op.takeBatch kind cfg.batchMaxSize.toNat).run with
    | none => pure ()
    | some taken =>
      let batch := taken.insertionSort (fun a b => a.seq ≤ b.seq)
      (Op.bump (.batchFlushed kind) batch.length).run
      flushEntries batch
  else pure ()

/-- A completed job: the counter, then the check of its kind's agreement. -/
def submitCompleted (job : Job) (out : List Output) : RouterM (Option (List Output)) := do
  let env ← Op.ask.run
  (Op.bump .completed 1).run
  checkSlaViolation job.kind env.latencyMs
  pure (some out)

def submitDrop (frac : Option ℚ) : RouterM (Option (List Output)) := do
  bumpRoute .drop
  (Op.bump .dropped 1).run
  (Op.recordPressure frac true 1).run
  pure none

def submitInline [F64Text] (job : Job) (frac : Option ℚ) : RouterM (Option (List Output)) := do
  bumpRoute .inline
  bumpKindRoute job.kind
  let out ← (Op.execute job).run
  let env ← Op.ask.run
  (Op.recordPressure frac false (latencyFrac env.latencyMs job.latencyBudgetMs)).run
  (Op.bump .completed 1).run
  checkSlaViolation job.kind env.latencyMs
  (Op.cacheInsert job (outputsToString out)).run
  pure (some out)

def submitSpawn (job : Job) (frac : Option ℚ) : RouterM (Option (List Output)) := do
  bumpRoute .spawn
  bumpKindRoute job.kind
  match ← (Op.join (executeJob job)).run with
  | none =>
    (Op.bump .dropped 1).run
    (Op.recordPressure frac true 1).run
    pure none
  | some out =>
    let env ← Op.ask.run
    (Op.recordPressure frac false (latencyFrac env.latencyMs job.latencyBudgetMs)).run
    submitCompleted job out

/-- The job is visible to the dispatcher before the depth counter says so. -/
def submitCpuPool (job : Job) (frac : Option ℚ) : RouterM (Option (List Output)) := do
  bumpRoute .cpuPool
  bumpKindRoute job.kind
  let r ← (Op.oneshot job).run
  if ← (Op.trySend ⟨job, r⟩).run then
    let _ ← Op.depthAdd.run
    match ← (Op.awaitReply r).run with
    | some out => submitCompleted job out
    | none =>
      (Op.cancel r).run
      (Op.bump .dropped 1).run
      pure none
  else
    (Op.bump .dropped 1).run
    (Op.recordPressure frac true 1).run
    pure none

/-- A batched job waits for its flush. -/
def batchReply (job : Job) (r : Nat) : RouterM (Option (List Output)) := do
  match ← (Op.awaitReply r).run with
  | some out => submitCompleted job out
  | none =>
    (Op.bump .dropped 1).run
    pure none

/-- Only the batch-miss path counts no outcome. -/
def submitBatch (job : Job) (cfg : RouterConfig) : RouterM (Option (List Output)) := do
  bumpRoute .batch
  bumpKindRoute job.kind
  let r ← (Op.oneshot job).run
  let seq ← Op.nextSeq.run
  if ← (Op.hasBatch job.kind).run then
    let len ← (Op.pushBatch job.kind ⟨job, r, seq⟩).run
    if cfg.batchMaxSize.toNat ≤ len then flushBatchKind job.kind else pure ()
    batchReply job r
  else
    (Op.bump .batchMissCount 1).run
    (Op.dropSender r).run
    pure none

/-- A warmed-up neural router may replace any choice but dropping. -/
def neuralOverride (heuristic : Strategy) (neural : Option Strategy) : Strategy × String :=
  if heuristic = .drop then (.drop, "drop")
  else match neural with
    | none | some .drop => (heuristic, "heuristic")
    | some choice => (choice, "neural")

def submitWith [F64Text] (strategy : Strategy) (job : Job) (cfg : RouterConfig) (frac : Option ℚ) :
    RouterM (Option (List Output)) :=
  match strategy with
  | .drop => submitDrop frac
  | .inline => submitInline job frac
  | .spawn => submitSpawn job frac
  | .cpuPool => submitCpuPool job frac
  | .batch => submitBatch job cfg

def submitRouted [F64Text] (job : Job) : RouterM (Option (List Output)) := do
  let cfg ← Op.readCfgArc.run
  let threshold ← Op.readThreshold.run
  let cpuBusy := busyWorkers cfg (← Op.availablePermits.run)
  let frac := queueFrac (← Op.availablePermits.run) cfg.cpuParallelism
  let heuristic := chooseStrategy (effectiveCfg cfg threshold) job cpuBusy
  let env ← Op.ask.run
  let (strategy, source) := neuralOverride heuristic env.neural
  (Op.logDecision ⟨job.id, strategy, job.computeCost, cpuBusy, some env.pressure, source⟩).run
  submitWith strategy job cfg frac

/-- A cached text that parses to something answers without routing. -/
def submitCached [F64Text] (job : Job) : RouterM (Option (List Output)) := do
  let outputs := ((← (Op.cacheGet job).run).map parseOutputs).getD []
  if outputs ≠ [] then
    (Op.bump .completed 1).run
    pure (some outputs)
  else submitRouted job

/-- A job without cost skips the cache, the decision and the metrics. -/
def submitFree (job : Job) : RouterM (Option (List Output)) := do
  bumpRoute .inline
  let out ← (Op.execute job).run
  (Op.bump .completed 1).run
  pure (some out)

def submitLive [F64Text] (job : Job) : RouterM (Option (List Output)) :=
  if job.computeCost = 0 then submitFree job else submitCached job

def expired (deadlineMs : UInt64) (nowMs : Nat) : Prop :=
  0 < deadlineMs ∧ deadlineMs.toNat ≤ nowMs

instance (deadlineMs : UInt64) (nowMs : Nat) : Decidable (expired deadlineMs nowMs) :=
  inferInstanceAs (Decidable (_ ∧ _))

def submit [F64Text] (job : Job) : RouterM (Option (List Output)) := do
  (Op.bump .submitCounter 1).run
  let env ← Op.ask.run
  if expired job.deadlineMs env.nowMs then
    (Op.bump .deadlineExceeded 1).run
    (Op.bump .dropped 1).run
    bumpRoute .drop
    -- the one decision that is sent without the lock of the log, and not logged
    (Op.broadcast ⟨job.id, .drop, job.computeCost, 0, some 0, "deadline"⟩).run
    pure none
  else submitLive job

/-- Pool work of a caller runs behind a permit, returned however it ends. -/
def runPooled : RouterM (Option (Except Rejected Unit)) := do
  if ← Op.acquire.run then
    let ok ← Op.work.run
    Op.release.run
    pure (some (if ok then .ok () else .error .panicked))
  else pure none

/-- The outcome of the work decides which counter moves. -/
def runFinished (hint : WorkHint) (frac : Option ℚ) (result : Except Rejected Unit) :
    RouterM Answer := do
  let env ← Op.ask.run
  match result with
  | .ok _ =>
    (Op.bump .completed 1).run
    (Op.recordPressure frac false (latencyFrac env.latencyMs hint.latencyBudgetMs)).run
  | .error _ => (Op.bump .dropped 1).run
  pure (.ran result)

def runWith (strategy : Strategy) (hint : WorkHint) (frac : Option ℚ) : RouterM Answer :=
  match strategy with
  | .drop => do
    (Op.bump .dropped 1).run
    (Op.recordPressure frac true 1).run
    pure (.ran (.error .overloaded))
  | .inline => do
    if ← Op.work.run then runFinished hint frac (.ok ()) else pure .unwound
  | .spawn => do
    if ← Op.work.run then runFinished hint frac (.ok ())
    else runFinished hint frac (.error .panicked)
  | .cpuPool | .batch => do
    match ← runPooled with
    | some result => runFinished hint frac result
    | none =>
      (Op.bump .dropped 1).run
      pure (.ran (.error .overloaded))

def runRouted (hint : WorkHint) : RouterM Answer := do
  let cfg ← Op.readCfgArc.run
  let threshold ← Op.readThreshold.run
  let cpuBusy := busyWorkers cfg (← Op.availablePermits.run)
  let frac := queueFrac (← Op.availablePermits.run) (max cfg.cpuParallelism 1)
  let probe : Job :=
    { computeCost := hint.computeCost, scalingPotential := hint.scalingPotential }
  let strategy := chooseStrategy (effectiveCfg cfg threshold) probe cpuBusy
  (Op.logDecision ⟨hint.id, strategy, hint.computeCost, cpuBusy, frac, "run"⟩).run
  bumpRoute strategy
  runWith strategy hint frac

def run (hint : WorkHint) : RouterM Answer := do
  let env ← Op.ask.run
  if expired hint.deadlineMs env.nowMs then
    (Op.bump .deadlineExceeded 1).run
    (Op.bump .dropped 1).run
    bumpRoute .drop
    pure (.ran (.error .deadlineExceeded))
  else runRouted hint

/-- A cancelled job answers with nothing, and so does one whose task failed. -/
def cpuWorker (w : CpuWork) : RouterM Unit := do
  let cancelled ← (Op.isCancelled w.reply).run
  match ← (Op.join (if cancelled then [] else executeJob w.job)).run with
  | some out => (Op.sendReply w.reply out).run
  | none =>
    (Op.bump .blockingPanics 1).run
    (Op.sendReply w.reply []).run
  Op.release.run

/-- One turn of the dispatcher; the next turn is a task of its own. -/
def cpuDispatchLoop : RouterM Unit := do
  match ← Op.recvWork.run with
  | none => Op.dropReceiver.run
  | some w =>
    if ← Op.acquire.run then
      Op.depthSub.run
      (Op.spawn (.cpuWorker w)).run
      (Op.spawn .cpuDispatchLoop).run
    else
      (Op.dropSender w.reply).run
      Op.dropReceiver.run

instance threeKinds : NeZero 3 := ⟨by decide⟩

def flusherKinds : Fin 3 → JobKind := ![.hashMix, .primeCount, .monteCarloRisk]

/-- One turn of the round-robin flusher. -/
def batchFlusher (idx : Fin 3) : RouterM Unit := do
  let _ ← Op.readCfg.run
  if ← Op.sleepOrShutdown.run then pure ()
  else
    flushBatchKind (flusherKinds idx)
    (Op.spawn (.batchFlusher (idx + 1))).run

end HelixRouter

namespace HelixRouter

open Interleaving

/-- Two critical sections, one for each cell. -/
def setConfig (cfg : RouterConfig) : RouterM Unit := do
  (Op.writeCfg cfg).run
  (Op.writeCfgArc cfg).run

/-- Both cells are written inside one write-lock hold, after the candidate validates. -/
def patchConfig (patch : RouterConfigPatch) : RouterM (Except ConfigError RouterConfig) := do
  let cfg ← Op.lockCfg.run
  let candidate := patch.candidate cfg
  match candidate.validate with
  | .error e =>
    Op.unlockCfg.run
    pure (.error e)
  | .ok _ =>
    (Op.storeCfg candidate).run
    (Op.writeCfgArc candidate).run
    Op.unlockCfg.run
    pure (.ok candidate)

/-- The lock is released before the snapshot is written; nothing is validated. -/
def updateConfigField (field : String) (value : UInt64) : RouterM Bool := do
  let cfg ← Op.lockCfg.run
  match cfg.setField field value with
  | some updated =>
    (Op.storeCfg updated).run
    Op.unlockCfg.run
    (Op.writeCfgArc updated).run
    pure true
  | none =>
    Op.unlockCfg.run
    pure false

def adaptiveDecayRate : ℚ := 10 / 100

def clampUnit (q : ℚ) : ℚ := max 0 (min q 1)

/-- The step of a raise is doubled for the first five in a row and halved after them. -/
def raiseStep (cfg : RouterConfig) (raises : Nat) : ℚ :=
  if raises < 5 then clampUnit cfg.adaptiveStep * 2 else clampUnit cfg.adaptiveStep * (1 / 2)

def raisedThreshold (cfg : RouterConfig) (step : ℚ) (t : UInt64) : UInt64 :=
  min (castU64 (toRat t * (1 + step))) (saturatingMul cfg.spawnThreshold 10)

/-- A decay goes down to the configured threshold and never moves one below it. -/
def decayedThreshold (cfg : RouterConfig) (t : UInt64) : UInt64 :=
  if cfg.spawnThreshold < t then
    let decayStep := clampUnit cfg.adaptiveStep * adaptiveDecayRate
    max (castU64 (toRat t * (1 - decayStep))) cfg.spawnThreshold
  else t

def maybeAdaptThreshold : RouterM Unit := do
  let cfg ← Op.readCfg.run
  if cfg.enableAdaptiveThreshold then
    match (← Op.ask.run).cpuPoolLatency with
    | none => pure ()
    | some (count, p95) =>
      if count < 10 then pure ()
      else if castU64 (toRat cfg.cpuP95BudgetMs * cfg.adaptiveP95ThresholdFactor) < p95 then
        let raises ← (Op.writeRaises (· + 1)).run
        let _ ← (Op.writeThreshold (raisedThreshold cfg (raiseStep cfg raises))).run
      else if p95 < castU64 (toRat cfg.cpuP95BudgetMs * (11 / 10)) then
        let _ ← (Op.writeRaises (fun _ => 0)).run
        let old ← (Op.writeThreshold (decayedThreshold cfg)).run
        if cfg.spawnThreshold < old then (Op.bump .adaptiveDecayCount 1).run else pure ()
      else pure ()
  else pure ()

/-- The load since the start, as the autoscaler is told. -/
def loadObservation (env : Env) (completed dropped : Nat) : LoadObservation where
  timestampSecs := env.nowMs / 1000
  totalJobs := completed + dropped
  pressureScore := env.pressureScore
  dropRate := if 0 < completed + dropped then (dropped : ℚ) / ((completed + dropped : Nat) : ℚ) else 0

/-- Only the source of truth is scaled, and the result is not validated. -/
def autoscaleTick : RouterM Unit := do
  let completed ← (Op.load .completed).run
  let dropped ← (Op.load .dropped).run
  let env ← Op.ask.run
  let cfg ← Op.readCfg.run
  let obs := loadObservation env completed dropped
  match ← (Op.autoscale obs cfg.cpuParallelism cfg.cpuQueueCap).run with
  | none => pure ()
  | some rec => if rec.direction = .hold then pure () else (Op.scaleCfg rec).run

def shutdown : RouterM Unit := Op.sendShutdown.run

end HelixRouter
