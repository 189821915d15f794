import HelixRouter.Router.Autoscaler
import HelixRouter.Router.ResultCache
import HelixRouter.Router.Types
import Mathlib.Data.Fin.VecNotation
import Mathlib.Logic.Function.Basic

namespace HelixRouter

/-- A job in the CPU channel. The cancellation flag lives with the reply channel. -/
structure CpuWork where
  job : Job
  reply : Nat
  deriving DecidableEq

structure BatchEntry where
  job : Job
  reply : Nat
  seq : Nat
  deriving DecidableEq

inductive Slot where
  | waiting
  | ready (out : List Output)
  | closed
  deriving DecidableEq

/-- A oneshot channel: the job it was made for, what it carries, and the flag
its submitter shares with the worker. -/
structure Channel where
  job : Job
  slot : Slot := .waiting
  cancelled : Bool := false

/-- Dropping a sender closes its channel, unless a value was sent before. -/
def Channel.senderDropped (c : Channel) : Channel :=
  if c.slot = .waiting then { c with slot := .closed } else c

/-- The atomic counters and the routed map, by name. -/
inductive Counter where
  | submitCounter
  | dropped
  | completed
  | routed (s : Strategy)
  | routedKind (k : JobKind)
  | deadlineExceeded
  | blockingPanics
  | adaptiveDecayCount
  | batchMissCount
  | batchEnqueued (k : JobKind)
  | batchFlushed (k : JobKind)
  | slaViolations (k : JobKind)
  deriving DecidableEq

/-- Everything the tasks of a router share. -/
structure Inner where
  cfg : RouterConfig
  cfgLocked : Bool := false
  cfgArc : RouterConfig
  cpuQueue : List CpuWork := []
  cpuCap : Nat
  cpuRxOpen : Bool := true
  cpuSlots : Nat
  cpuSlotsClosed : Bool := false
  batches : JobKind → Option (List BatchEntry)
  replies : List Channel := []
  counters : Counter → Nat := fun _ => 0
  cpuQueueDepth : UInt64 := 0
  adaptiveSpawnThreshold : UInt64
  consecutiveRaises : Nat := 0
  routingLog : List RoutingDecision := []
  batchSeq : Nat := 0
  resultCache : ResultCache := {}
  autoscaler : Autoscaler := {}
  shutdownSent : Bool := false
  flusherSubscribed : Bool := true

/-- What a step may find outside the modelled state: clocks, metrics, the neural
router's choice, and the choices of the runtime. -/
structure Env where
  nowMs : Nat := 0
  instant : Nat := 0
  neural : Option Strategy := none
  pressure : ℚ := 0
  latencyMs : UInt64 := 0
  fails : Bool := false
  shutdown : Bool := false
  cpuPoolLatency : Option (Nat × UInt64) := none
  pressureScore : ℚ := 0
  predictedRate : ℚ := 0

/-- The calls that run as tasks; the last three are the router's own. -/
inductive Call where
  | submit (job : Job)
  | run (hint : WorkHint)
  | setConfig (cfg : RouterConfig)
  | patchConfig (patch : RouterConfigPatch)
  | updateConfigField (field : String) (value : UInt64)
  | maybeAdaptThreshold
  | autoscaleTick
  | shutdown
  | cpuDispatchLoop
  | cpuWorker (work : CpuWork)
  | batchFlusher (idx : Fin 3)

/-- The atomic steps: one critical section, atomic access or channel operation each. -/
inductive Op where
  | ask
  | bump (c : Counter) (n : Nat)
  | load (c : Counter)
  | cacheGet (job : Job)
  | cacheInsert (job : Job) (text : List Char)
  | readCfg
  | writeCfg (cfg : RouterConfig)
  | scaleCfg (rec : AutoscaleRecommendation)
  | lockCfg
  | storeCfg (cfg : RouterConfig)
  | unlockCfg
  | readCfgArc
  | writeCfgArc (cfg : RouterConfig)
  | readThreshold
  | writeThreshold (f : UInt64 → UInt64)
  | writeRaises (f : Nat → Nat)
  | availablePermits
  | acquire
  | release
  | recordPressure (queueFrac : Option ℚ) (wasDropped : Bool) (latFrac : ℚ)
  | logDecision (d : RoutingDecision)
  | broadcast (d : RoutingDecision)
  | execute (job : Job)
  | join (out : List Output)
  | work
  | oneshot (job : Job)
  | trySend (w : CpuWork)
  | depthAdd
  | depthSub
  | awaitReply (r : Nat)
  | sendReply (r : Nat) (out : List Output)
  | dropSender (r : Nat)
  | cancel (r : Nat)
  | isCancelled (r : Nat)
  | nextSeq
  | hasBatch (k : JobKind)
  | pushBatch (k : JobKind) (e : BatchEntry)
  | takeBatch (k : JobKind) (maxSize : Nat)
  | recvWork
  | dropReceiver
  | sleepOrShutdown
  | sendShutdown
  | autoscale (obs : LoadObservation) (parallelism queueCap : UInt64)
  | spawn (c : Call)

@[reducible] def Op.Resp : Op → Type
  | .ask => Env
  | .load _ => Nat
  | .cacheGet _ => Option (List Char)
  | .readCfg | .lockCfg | .readCfgArc => RouterConfig
  | .readThreshold | .writeThreshold _ | .depthAdd => UInt64
  | .writeRaises _ | .availablePermits | .oneshot _ | .nextSeq | .pushBatch _ _ => Nat
  | .acquire | .work | .trySend _ | .isCancelled _ | .hasBatch _ | .sleepOrShutdown => Bool
  | .execute _ => List Output
  | .join _ | .awaitReply _ => Option (List Output)
  | .takeBatch _ _ => Option (List BatchEntry)
  | .recvWork => Option CpuWork
  | .autoscale _ _ _ => Option AutoscaleRecommendation
  | _ => Unit

/-- The scaling step under the write lock: up to a ceiling of 4096, down to a floor of 16. -/
def AutoscaleRecommendation.applyTo (rec : AutoscaleRecommendation) (cfg : RouterConfig) :
    RouterConfig :=
  match rec.direction with
  | .up =>
    let newCap := min rec.recommendedQueueCap 4096
    if cfg.cpuQueueCap < newCap then { cfg with cpuQueueCap := newCap } else cfg
  | .down =>
    let newCap := max rec.recommendedQueueCap 16
    if newCap < cfg.cpuQueueCap then { cfg with cpuQueueCap := newCap } else cfg
  | .hold => cfg

namespace Inner

def add (s : Inner) (c : Counter) (n : Nat) : Inner :=
  { s with counters := Function.update s.counters c (s.counters c + n) }

def channel (s : Inner) (r : Nat) (f : Channel → Channel) : Inner :=
  { s with replies := s.replies.modify r f }

def close (s : Inner) (r : Nat) : Inner := s.channel r Channel.senderDropped

def slot (s : Inner) (r : Nat) : Option Slot := (s.replies[r]?).map (·.slot)

def queue (s : Inner) (k : JobKind) : List BatchEntry := (s.batches k).getD []

/-- The log keeps the last fifty decisions that are sent under its lock. -/
def logged (s : Inner) (d : RoutingDecision) : Inner :=
  let log := s.routingLog ++ [d]
  { s with routingLog := if 50 < log.length then log.tail else log }

end Inner

/-- What one operation does. No result means it cannot happen now: a lock is
held, a permit or a message is missing, or the signal was not sent. -/
def Op.exec : (e : Op) → Env → Inner → Option (e.Resp × Inner × List Call)
  | .ask, env, s => some (env, s, [])
  | .bump c n, _, s => some ((), s.add c n, [])
  | .load c, _, s => some (s.counters c, s, [])
  | .cacheGet job, env, s =>
    let (text, cache) := s.resultCache.get job env.instant
    some (text, { s with resultCache := cache }, [])
  | .cacheInsert job text, env, s =>
    some ((), { s with resultCache := s.resultCache.insert job text env.instant }, [])
  | .readCfg, _, s => if s.cfgLocked then none else some (s.cfg, s, [])
  | .writeCfg cfg, _, s => if s.cfgLocked then none else some ((), { s with cfg := cfg }, [])
  | .scaleCfg rec, _, s =>
    if s.cfgLocked then none else some ((), { s with cfg := rec.applyTo s.cfg }, [])
  | .lockCfg, _, s => if s.cfgLocked then none else some (s.cfg, { s with cfgLocked := true }, [])
  | .storeCfg cfg, _, s => some ((), { s with cfg := cfg }, [])
  | .unlockCfg, _, s => some ((), { s with cfgLocked := false }, [])
  | .readCfgArc, _, s => some (s.cfgArc, s, [])
  | .writeCfgArc cfg, _, s => some ((), { s with cfgArc := cfg }, [])
  | .readThreshold, _, s => some (s.adaptiveSpawnThreshold, s, [])
  | .writeThreshold f, _, s =>
    some (s.adaptiveSpawnThreshold,
      { s with adaptiveSpawnThreshold := f s.adaptiveSpawnThreshold }, [])
  | .writeRaises f, _, s =>
    some (s.consecutiveRaises, { s with consecutiveRaises := f s.consecutiveRaises }, [])
  | .availablePermits, _, s => some (s.cpuSlots, s, [])
  | .acquire, _, s =>
    if s.cpuSlotsClosed then some (false, s, [])
    else if 0 < s.cpuSlots then some (true, { s with cpuSlots := s.cpuSlots - 1 }, [])
    else none
  | .release, _, s => some ((), { s with cpuSlots := s.cpuSlots + 1 }, [])
  | .recordPressure _ _ _, _, s => some ((), s, [])
  | .logDecision d, _, s => some ((), s.logged d, [])
  | .broadcast _, _, s => some ((), s, [])
  | .execute job, _, s => some (executeJob job, s, [])
  | .join out, env, s => some (if env.fails then none else some out, s, [])
  | .work, env, s => some (!env.fails, s, [])
  | .oneshot job, _, s =>
    some (s.replies.length, { s with replies := s.replies ++ [{ job := job }] }, [])
  | .trySend w, _, s =>
    if s.cpuRxOpen ∧ s.cpuQueue.length < s.cpuCap then
      some (true, { s with cpuQueue := s.cpuQueue ++ [w] }, [])
    else some (false, s.close w.reply, [])
  | .depthAdd, _, s => some (s.cpuQueueDepth, { s with cpuQueueDepth := s.cpuQueueDepth + 1 }, [])
  | .depthSub, _, s => some ((), { s with cpuQueueDepth := s.cpuQueueDepth - 1 }, [])
  | .awaitReply r, _, s =>
    match s.slot r with
    | some (.ready out) => some (some out, s, [])
    | some .closed => some (none, s, [])
    | _ => none
  | .sendReply r out, _, s => some ((), s.channel r (fun c => { c with slot := .ready out }), [])
  | .dropSender r, _, s => some ((), s.close r, [])
  | .cancel r, _, s => some ((), s.channel r (fun c => { c with cancelled := true }), [])
  | .isCancelled r, _, s => some (((s.replies[r]?).map (·.cancelled)).getD false, s, [])
  | .nextSeq, _, s => some (s.batchSeq, { s with batchSeq := s.batchSeq + 1 }, [])
  | .hasBatch k, _, s => some ((s.batches k).isSome, s, [])
  | .pushBatch k e, _, s =>
    let q := s.queue k ++ [e]
    let s := { s with batches := Function.update s.batches k (some q) }
    some (q.length, s.add (.batchEnqueued k) 1, [])
  | .takeBatch k maxSize, _, s =>
    match s.queue k with
    | [] => some (none, s, [])
    | q =>
      some (some (q.take maxSize),
        { s with batches := Function.update s.batches k (some (q.drop maxSize)) }, [])
  | .recvWork, env, s =>
    if env.shutdown then if s.shutdownSent then some (none, s, []) else none
    else match s.cpuQueue with
      | [] => none
      | w :: rest => some (some w, { s with cpuQueue := rest }, [])
  | .dropReceiver, _, s =>
    some ((), { s with
      replies := s.cpuQueue.foldl (fun rs w => rs.modify w.reply Channel.senderDropped) s.replies
      cpuQueue := []
      cpuRxOpen := false }, [])
  | .sleepOrShutdown, env, s =>
    if env.shutdown then
      if s.shutdownSent then some (true, { s with flusherSubscribed := false }, []) else none
    else some (false, s, [])
  | .sendShutdown, _, s => some ((), { s with shutdownSent := true }, [])
  | .autoscale obs parallelism queueCap, env, s =>
    let a := s.autoscaler.observe obs
    some (a.recommendWith env.predictedRate parallelism queueCap, { s with autoscaler := a }, [])
  | .spawn c, _, s => some ((), s, [c])

end HelixRouter
