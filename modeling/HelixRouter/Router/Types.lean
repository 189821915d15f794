import HelixRouter.Router.Numbers
import Mathlib.Data.Rat.Defs

namespace HelixRouter

inductive JobKind where
  | hashMix
  | primeCount
  | monteCarloRisk
  deriving DecidableEq, Repr

/-- The display string, which is also the key of an SLA map. -/
def JobKind.display : JobKind → String
  | .hashMix => "hash_mix"
  | .primeCount => "prime_count"
  | .monteCarloRisk => "monte_carlo_risk"

inductive Strategy where
  | inline
  | spawn
  | cpuPool
  | batch
  | drop
  deriving DecidableEq, Repr

/-- A unit of work. A zero deadline means none. -/
structure Job where
  id : UInt64 := 0
  kind : JobKind := .hashMix
  inputs : List UInt64 := []
  computeCost : UInt64 := 0
  scalingPotential : Float32 := 0
  latencyBudgetMs : UInt64 := 0
  deadlineMs : UInt64 := 0
  deriving DecidableEq

inductive Output where
  | u64 (v : UInt64)
  | f64 (v : Float)
  deriving DecidableEq

/-- What a caller tells `run` about its own work. -/
structure WorkHint where
  id : UInt64 := 0
  computeCost : UInt64 := 1
  scalingPotential : Float32 := 0
  latencyBudgetMs : UInt64 := 100
  deadlineMs : UInt64 := 0

inductive Rejected where
  | overloaded
  | deadlineExceeded
  | panicked
  deriving DecidableEq, Repr

def Rejected.display : Rejected → String
  | .overloaded => "rejected: the router is overloaded"
  | .deadlineExceeded => "rejected: the deadline passed before the work started"
  | .panicked => "the work panicked"

/-- One event of the live feed. No pressure value stands for a quotient by zero. -/
structure RoutingDecision where
  jobId : UInt64
  strategy : Strategy
  computeCost : UInt64
  cpuBusy : UInt64
  pressure : Option ℚ
  decisionSource : String
  deriving DecidableEq

inductive SLAPriority where
  | high
  | normal
  | low
  deriving DecidableEq, Repr

structure SLAConfig where
  maxLatencyMs : UInt64 := 500
  priority : SLAPriority := .normal
  deriving DecidableEq

/-- Keys are display names of job kinds. -/
abbrev SLAMap := List (String × SLAConfig)

def SLAMap.get (m : SLAMap) (kind : String) : Option SLAConfig := m.lookup kind

def SLAMap.defaults : SLAMap :=
  [("hash_mix", { maxLatencyMs := 100, priority := .high }),
   ("prime_count", { maxLatencyMs := 300, priority := .normal }),
   ("monte_carlo_risk", { maxLatencyMs := 500, priority := .normal })]

/-- The routing configuration; a `usize` is a 64-bit word and an `f64` a finite number. -/
structure RouterConfig where
  version : UInt32 := 1
  inlineThreshold : UInt64 := 8000
  spawnThreshold : UInt64 := 60000
  cpuQueueCap : UInt64 := 512
  cpuParallelism : UInt64 := 8
  backpressureBusyThreshold : UInt64 := 7
  batchMaxSize : UInt64 := 8
  batchMaxDelayMs : UInt64 := 10
  emaAlpha : ℚ := 15 / 100
  adaptiveStep : ℚ := 10 / 100
  cpuP95BudgetMs : UInt64 := 200
  adaptiveP95ThresholdFactor : ℚ := 15 / 10
  enableAdaptiveThreshold : Bool := true
  sla : SLAMap := SLAMap.defaults
  warmupSteps : UInt64 := 10
  deriving DecidableEq

/-- One constructor for each rule of `validate`, with the numbers its text prints. -/
inductive ConfigError where
  | inlineZero (inline : UInt64)
  | spawnZero (spawn : UInt64)
  | inlineNotBelowSpawn (inline spawn : UInt64)
  | parallelismZero
  | queueCapZero
  | batchTooSmall
  | emaAlphaRange (alpha : ℚ)
  | adaptiveStepRange (step : ℚ)
  | queueBelowParallelism (cap parallelism : UInt64)
  deriving DecidableEq

/-- The message of an error, given how an `f64` is displayed. -/
def ConfigError.text (f64 : ℚ → String) : ConfigError → String
  | .inlineZero a => "inline_threshold must be > 0, got " ++ toString a
  | .spawnZero a => "spawn_threshold must be > 0, got " ++ toString a
  | .inlineNotBelowSpawn a b => "inline_threshold (" ++ toString a ++
      ") must be < spawn_threshold (" ++ toString b ++ ")"
  | .parallelismZero => "cpu_parallelism must be >= 1"
  | .queueCapZero => "cpu_queue_cap must be >= 1"
  | .batchTooSmall => "batch_max_size must be >= 2 to enable batching"
  | .emaAlphaRange q => "ema_alpha must be in (0, 1], got " ++ f64 q
  | .adaptiveStepRange q => "adaptive_step must be in (0, 1], got " ++ f64 q
  | .queueBelowParallelism a b => "cpu_queue_cap (" ++ toString a ++
      ") must be >= cpu_parallelism (" ++ toString b ++ ") to avoid immediate queue overflow"

namespace RouterConfig

/-- The checks run in the source's order, so the first failing rule is reported. -/
def validate (cfg : RouterConfig) : Except ConfigError Unit := do
  if cfg.inlineThreshold = 0 then throw (.inlineZero cfg.inlineThreshold)
  if cfg.spawnThreshold = 0 then throw (.spawnZero cfg.spawnThreshold)
  if cfg.spawnThreshold ≤ cfg.inlineThreshold then
    throw (.inlineNotBelowSpawn cfg.inlineThreshold cfg.spawnThreshold)
  if cfg.cpuParallelism = 0 then throw .parallelismZero
  if cfg.cpuQueueCap = 0 then throw .queueCapZero
  if cfg.batchMaxSize < 2 then throw .batchTooSmall
  if ¬(0 < cfg.emaAlpha ∧ cfg.emaAlpha ≤ 1) then throw (.emaAlphaRange cfg.emaAlpha)
  if ¬(0 < cfg.adaptiveStep ∧ cfg.adaptiveStep ≤ 1) then throw (.adaptiveStepRange cfg.adaptiveStep)
  if cfg.cpuQueueCap < cfg.cpuParallelism then
    throw (.queueBelowParallelism cfg.cpuQueueCap cfg.cpuParallelism)

/-- What `validate` accepts. -/
structure Valid (cfg : RouterConfig) : Prop where
  inline_pos : 0 < cfg.inlineThreshold
  inline_lt_spawn : cfg.inlineThreshold < cfg.spawnThreshold
  parallelism_pos : 0 < cfg.cpuParallelism
  batch_ge : 2 ≤ cfg.batchMaxSize
  alpha_pos : 0 < cfg.emaAlpha
  alpha_le : cfg.emaAlpha ≤ 1
  step_pos : 0 < cfg.adaptiveStep
  step_le : cfg.adaptiveStep ≤ 1
  parallelism_le : cfg.cpuParallelism ≤ cfg.cpuQueueCap

theorem error_else_ok_iff {c : Prop} [Decidable c] {e : ConfigError}
    {rest : Except ConfigError Unit} :
    (if c then Except.error e else rest) = .ok () ↔ ¬c ∧ rest = .ok () := by
  by_cases hc : c <;> simp [hc]

theorem validate_ok_iff (cfg : RouterConfig) : cfg.validate = .ok () ↔ cfg.Valid := by
  simp only [validate, throw, throwThe, MonadExceptOf.throw, bind, Except.bind, pure, Except.pure,
    error_else_ok_iff, UInt64.not_le, UInt64.not_lt, Decidable.not_not]
  constructor
  · rintro ⟨hi, _, hlt, hp, _, hb, ⟨ha, ha'⟩, ⟨hs, hs'⟩, hc, _⟩
    exact ⟨UInt64.pos_iff_ne_zero.mpr hi, hlt, UInt64.pos_iff_ne_zero.mpr hp, hb, ha, ha', hs, hs', hc⟩
  · intro h
    have hspawn := UInt64.lt_trans h.inline_pos h.inline_lt_spawn
    have hcap := UInt64.lt_of_lt_of_le h.parallelism_pos h.parallelism_le
    exact ⟨UInt64.pos_iff_ne_zero.mp h.inline_pos, UInt64.pos_iff_ne_zero.mp hspawn,
      h.inline_lt_spawn, UInt64.pos_iff_ne_zero.mp h.parallelism_pos,
      UInt64.pos_iff_ne_zero.mp hcap, h.batch_ge, ⟨h.alpha_pos, h.alpha_le⟩,
      ⟨h.step_pos, h.step_le⟩, h.parallelism_le, trivial⟩

instance (cfg : RouterConfig) : Decidable cfg.Valid := decidable_of_iff _ (validate_ok_iff cfg)

end RouterConfig

/-- A sparse update: only the fields that are present are applied. -/
structure RouterConfigPatch where
  inlineThreshold : Option UInt64 := none
  spawnThreshold : Option UInt64 := none
  cpuQueueCap : Option UInt64 := none
  cpuParallelism : Option UInt64 := none
  backpressureBusyThreshold : Option UInt64 := none
  batchMaxSize : Option UInt64 := none
  batchMaxDelayMs : Option UInt64 := none
  emaAlpha : Option ℚ := none
  adaptiveStep : Option ℚ := none
  cpuP95BudgetMs : Option UInt64 := none
  adaptiveP95ThresholdFactor : Option ℚ := none
  version : Option UInt32 := none
  enableAdaptiveThreshold : Option Bool := none
  sla : Option SLAMap := none
  warmupSteps : Option UInt64 := none

/-- The candidate of a patch. Its `version` is never read. -/
def RouterConfigPatch.candidate (patch : RouterConfigPatch) (cfg : RouterConfig) : RouterConfig :=
  { cfg with
    inlineThreshold := patch.inlineThreshold.getD cfg.inlineThreshold
    spawnThreshold := patch.spawnThreshold.getD cfg.spawnThreshold
    cpuQueueCap := patch.cpuQueueCap.getD cfg.cpuQueueCap
    cpuParallelism := patch.cpuParallelism.getD cfg.cpuParallelism
    backpressureBusyThreshold :=
      patch.backpressureBusyThreshold.getD cfg.backpressureBusyThreshold
    batchMaxSize := patch.batchMaxSize.getD cfg.batchMaxSize
    batchMaxDelayMs := patch.batchMaxDelayMs.getD cfg.batchMaxDelayMs
    emaAlpha := patch.emaAlpha.getD cfg.emaAlpha
    adaptiveStep := patch.adaptiveStep.getD cfg.adaptiveStep
    cpuP95BudgetMs := patch.cpuP95BudgetMs.getD cfg.cpuP95BudgetMs
    adaptiveP95ThresholdFactor :=
      patch.adaptiveP95ThresholdFactor.getD cfg.adaptiveP95ThresholdFactor
    enableAdaptiveThreshold := patch.enableAdaptiveThreshold.getD cfg.enableAdaptiveThreshold
    sla := patch.sla.getD cfg.sla
    warmupSteps := patch.warmupSteps.getD cfg.warmupSteps }

/-- The fields that can be set by name; any other name changes nothing. -/
def RouterConfig.setField (cfg : RouterConfig) (field : String) (value : UInt64) :
    Option RouterConfig :=
  match field with
  | "inline_threshold" => some { cfg with inlineThreshold := value }
  | "spawn_threshold" => some { cfg with spawnThreshold := value }
  | "backpressure_busy_threshold" => some { cfg with backpressureBusyThreshold := value }
  | "batch_max_size" => some { cfg with batchMaxSize := value }
  | "batch_max_delay_ms" => some { cfg with batchMaxDelayMs := value }
  | "cpu_queue_cap" => some { cfg with cpuQueueCap := value }
  | "cpu_parallelism" => some { cfg with cpuParallelism := value }
  | _ => none

end HelixRouter
