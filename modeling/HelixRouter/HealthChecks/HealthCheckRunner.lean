import Mathlib.Data.List.Sort

namespace HelixRouter.HealthChecks

inductive CheckType where
  | http (url : String) (expectedStatus : UInt16) (timeoutMs : UInt64)
  | tcp (host : String) (port : UInt16) (timeoutMs : UInt64)
  | custom (name : String)

def CheckType.isCustom : CheckType → Bool
  | custom _ => true
  | _ => false

structure CheckResult where
  checkName : String
  success : Bool
  latencyMs : UInt64
  message : String
  checkedAt : UInt64

structure HealthThresholds where
  healthyConsecutive : UInt32 := 2
  unhealthyConsecutive : UInt32 := 3

structure CheckState where
  name : String
  checkType : CheckType
  thresholds : HealthThresholds
  consecutiveSuccess : UInt32 := 0
  consecutiveFailure : UInt32 := 0
  lastResult : Option CheckResult := none
  healthy : Bool := true
  history : List CheckResult := []

namespace CheckState

/-- The `fetch_add` on the counter of the result's kind. It wraps. -/
def count (c : CheckState) (success : Bool) : UInt32 × CheckState :=
  if success then
    (c.consecutiveSuccess + 1, { c with consecutiveSuccess := c.consecutiveSuccess + 1 })
  else (c.consecutiveFailure + 1, { c with consecutiveFailure := c.consecutiveFailure + 1 })

/-- The other counter starts again. -/
def clear (c : CheckState) (success : Bool) : CheckState :=
  if success then { c with consecutiveFailure := 0 } else { c with consecutiveSuccess := 0 }

def judge (c : CheckState) (success : Bool) (n : UInt32) : CheckState :=
  if success then
    if c.thresholds.healthyConsecutive ≤ n then { c with healthy := true } else c
  else if c.thresholds.unhealthyConsecutive ≤ n then { c with healthy := false } else c

/-- Under both locks. -/
def file (c : CheckState) (result : CheckResult) : CheckState :=
  { c with lastResult := some result, history := c.history ++ [result] }

def recordResult (c : CheckState) (result : CheckResult) : CheckState :=
  let (n, counted) := c.count result.success
  ((counted.clear result.success).judge result.success n).file result

end CheckState

/-- How far a `record_result` has come. -/
inductive Stage where
  | due
  | counted (n : UInt32)
  | cleared (n : UInt32)
  | judged
  deriving DecidableEq

/-- One of the atomic steps of `record_result`. Anything may happen between two of them. -/
def CheckState.stepRecord (c : CheckState) (result : CheckResult) : Stage → CheckState × Stage
  | .due =>
    let (n, counted) := c.count result.success
    (counted, .counted n)
  | .counted n => (c.clear result.success, .cleared n)
  | .cleared n => (c.judge result.success n, .judged)
  | .judged => (c.file result, .due)

/-- What a probe hears in its time, if anything: an error, or that it is connected. A URL also
answers with its status. -/
structure Reply where
  heard : Option (Except String UInt16)
  latencyMs : UInt64
  now : UInt64

def verdict (heard : Option (Except String UInt16)) : CheckType → Bool × String
  | .tcp host port timeoutMs =>
    let addr := s!"{host}:{port}"
    match heard with
    | some (.ok _) => (true, s!"TCP connected to {addr}")
    | some (.error e) => (false, s!"TCP connect to {addr} failed: {e}")
    | none => (false, s!"TCP connect to {addr} timed out after {timeoutMs} ms")
  | .http url expectedStatus timeoutMs =>
    match heard with
    | some (.ok status) =>
      if status = expectedStatus then (true, s!"HTTP {status} from {url}")
      else (false, s!"HTTP {status} from {url}, expected {expectedStatus}")
    | some (.error e) => (false, s!"HTTP check of {url} failed: {e}")
    | none => (false, s!"HTTP check of {url} timed out after {timeoutMs} ms")
  | .custom name =>
    (false, s!"custom check '{name}' is reported by the application with record_custom, not probed")

def probe (c : CheckState) (reply : Reply) : CheckResult :=
  let (success, message) := verdict reply.heard c.checkType
  ⟨c.name, success, reply.latencyMs, message, reply.now⟩

/-- The result that `run_check` makes up. -/
def runCheck (c : CheckState) (now : UInt64) : CheckResult :=
  let (message, latencyMs) : String × UInt64 := match c.checkType with
    | .http url expectedStatus _ => (s!"HTTP {expectedStatus} OK from {url}", 10)
    | .tcp host port _ => (s!"TCP connected to {host}:{port}", 5)
    | .custom name => (s!"custom check '{name}' passed", 1)
  ⟨c.name, true, latencyMs, message, now⟩

structure HealthSummary where
  totalChecks : Nat
  healthyCount : Nat
  unhealthyCount : Nat
  overallHealthy : Bool
  checks : List (String × Bool × UInt64)

structure HealthCheckRunner where
  checks : List CheckState := []

namespace HealthCheckRunner

variable (r : HealthCheckRunner)

def addCheck (name : String) (checkType : CheckType) (thresholds : HealthThresholds) :
    HealthCheckRunner :=
  { r with checks := r.checks ++ [{ name, checkType, thresholds }] }

def record (i : Nat) (result : CheckResult) : HealthCheckRunner :=
  { r with checks := r.checks.modify i (·.recordResult result) }

/-- What `run_all_once` records, one after the other, and returns. -/
def runAllOnce (now : Nat → UInt64) : List (Nat × CheckResult) :=
  r.checks.mapIdx fun i c => (i, runCheck c (now i))

/-- The checks that `run_all` starts a task for. -/
def tasks : List Nat :=
  (List.range r.checks.length).filter fun i => (r.checks[i]?).any (!·.checkType.isCustom)

/-- A task of `run_all`. -/
def probed (i : Nat) (reply : Reply) : Option (Nat × CheckResult) :=
  ((r.checks[i]?).filter (!·.checkType.isCustom)).map fun c => (i, probe c reply)

def runTask (i : Nat) (reply : Reply) : HealthCheckRunner :=
  match r.probed i reply with
  | none => r
  | some (i, result) => r.record i result

/-- The tasks come to their ends in one order and are joined in another. -/
def runAll (replies : Nat → Reply) (recorded joined : List Nat) :
    List CheckResult × HealthCheckRunner :=
  let results := joined.filterMap fun i => r.probed i (replies i)
  ((results.insertionSort (·.1 ≤ ·.1)).map (·.2),
    recorded.foldl (fun r i => r.runTask i (replies i)) r)

/-- What `record_custom` records, if it answers `true`. -/
def recordCustom (name : String) (success : Bool) (latencyMs : UInt64) (message : String)
    (now : UInt64) : Option (Nat × CheckResult) :=
  (r.checks.findIdx? (·.name == name)).map fun i => (i, ⟨name, success, latencyMs, message, now⟩)

def overallHealth : Bool := r.checks.all (·.healthy)

def unhealthyChecks : List String := (r.checks.filter (!·.healthy)).map (·.name)

def healthSummary : HealthSummary :=
  let totalChecks := r.checks.length
  let healthyCount := r.checks.countP (·.healthy)
  let unhealthyCount := totalChecks - healthyCount
  { totalChecks, healthyCount, unhealthyCount
    overallHealthy := unhealthyCount == 0
    checks := r.checks.map fun c => (c.name, c.healthy, (c.lastResult.map (·.latencyMs)).getD 0) }

def checkHistory (name : String) : List CheckResult :=
  ((r.checks.find? (·.name == name)).map (·.history)).getD []

end HealthCheckRunner

/-- A call that records: what it has still to record, the first of it perhaps begun. -/
structure Recorder where
  stage : Stage := .due
  todo : List (Nat × CheckResult)

/-- The check whose record is under way. -/
def Recorder.under (call : Recorder) : Option Nat :=
  if call.stage = .due then none else call.todo.head?.map (·.1)

structure State where
  runner : HealthCheckRunner := {}
  recorders : List Recorder := []

/-- A task of any `run_all` has its probe's result before or after anything else that happens. -/
inductive Event where
  | addCheck (name : String) (checkType : CheckType) (thresholds : HealthThresholds)
  | runTask (i : Nat) (reply : Reply)
  | runAllOnce (now : Nat → UInt64)
  | recordCustom (name : String) (success : Bool) (latencyMs : UInt64) (message : String)
      (now : UInt64)
  | advance (k : Nat)

namespace State

variable (s : State)

def addCheck (name : String) (checkType : CheckType) (thresholds : HealthThresholds) : State :=
  { s with runner := s.runner.addCheck name checkType thresholds }

def call (records : List (Nat × CheckResult)) : State :=
  { s with recorders := s.recorders ++ [{ todo := records }] }

def advance (k : Nat) : Option State := do
  let call ← s.recorders[k]?
  let (i, result) ← call.todo.head?
  let c ← s.runner.checks[i]?
  let (c, stage) := c.stepRecord result call.stage
  let todo := if call.stage = .judged then call.todo.tail else call.todo
  some { runner := { checks := s.runner.checks.set i c }, recorders := s.recorders.set k ⟨stage, todo⟩ }

end State

/-- What a call sets out to record. The name and the kind of a check never change, so it makes no
difference that `run_all_once` makes up its results one by one. -/
def Event.records (s : State) : Event → List (Nat × CheckResult)
  | .addCheck .. | .advance _ => []
  | .runTask i reply => (s.runner.probed i reply).toList
  | .runAllOnce now => s.runner.runAllOnce now
  | .recordCustom name success latencyMs message now =>
    (s.runner.recordCustom name success latencyMs message now).toList

def step (s : State) : Event → Option State
  | .addCheck name checkType thresholds => some (s.addCheck name checkType thresholds)
  | .advance k => s.advance k
  | e => some (s.call (e.records s))

end HelixRouter.HealthChecks
