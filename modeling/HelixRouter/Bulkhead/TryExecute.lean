import HelixRouter.Interleaving.Ledger
import HelixRouter.Router.System

namespace HelixRouter.Bulkhead

open Interleaving

/-- The timeout is left to the environment: it may elapse whenever a call awaits. -/
structure BulkheadConfig where
  maxConcurrent : UInt64 := 10
  maxQueueSize : UInt64 := 20

inductive BulkheadError where
  | rejected (reason : String)
  | timeout
  deriving DecidableEq

/-- The counters all clones share, and the permits the semaphore has left. -/
structure BulkheadState where
  inFlight : Nat := 0
  queued : Nat := 0
  totalRejected : Nat := 0
  totalCompleted : Nat := 0
  permits : Nat

/-- How an await under the timeout ends. A call whose future is dropped there is
never resumed. -/
inductive Awaited (A : Type) where
  | ready (a : A)
  | elapsed
  | dropped

/-- What the runtime decides where a call awaits. -/
structure Env (T : Type) where
  permit : Awaited Unit := .ready ()
  output : Awaited T := .elapsed

/-- The atomic steps. Only `acquire` and `run` await. -/
inductive Op where
  | loadInFlight
  | loadQueued
  | addRejected
  | addCompleted
  | addQueued
  | subQueued
  | addInFlight
  | subInFlight
  | acquire
  | run
  | release
  deriving DecidableEq

variable {T : Type}

abbrev Op.Resp (T : Type) : Op → Type
  | .loadInFlight | .loadQueued => Nat
  | .acquire => Awaited Unit
  | .run => Awaited T
  | _ => Unit

/-- A permit is granted only while one is left. -/
def Op.exec : (e : Op) → Env T → BulkheadState →
    Option (e.Resp T × BulkheadState × List Unit)
  | .loadInFlight, _, s => some (s.inFlight, s, [])
  | .loadQueued, _, s => some (s.queued, s, [])
  | .addRejected, _, s => some ((), { s with totalRejected := s.totalRejected + 1 }, [])
  | .addCompleted, _, s => some ((), { s with totalCompleted := s.totalCompleted + 1 }, [])
  | .addQueued, _, s => some ((), { s with queued := s.queued + 1 }, [])
  | .subQueued, _, s => some ((), { s with queued := s.queued - 1 }, [])
  | .addInFlight, _, s => some ((), { s with inFlight := s.inFlight + 1 }, [])
  | .subInFlight, _, s => some ((), { s with inFlight := s.inFlight - 1 }, [])
  | .acquire, env, s =>
    match env.permit with
    | .ready () =>
      if s.permits = 0 then none
      else some (.ready (), { s with permits := s.permits - 1 }, [])
    | answer => some (answer, s, [])
  | .run, env, s => some (env.output, s, [])
  | .release, _, s => some ((), { s with permits := s.permits + 1 }, [])

abbrev BulkheadM (T : Type) := Prog Op (Op.Resp T)

abbrev Op.perform (e : Op) : BulkheadM T (e.Resp T) := Prog.perform e

/-- What a call returns. One that was dropped returns nothing. -/
abbrev Answer (T : Type) := Option (Except BulkheadError T)

/-- With the permit in hand. It is given back when the call ends, however it does. -/
def execute : BulkheadM T (Answer T) := do
  Op.addInFlight.perform
  match ← Op.run.perform with
  | .dropped =>
    Op.release.perform
    pure none
  | .ready output =>
    Op.subInFlight.perform
    Op.addCompleted.perform
    Op.release.perform
    pure (some (.ok output))
  | .elapsed =>
    Op.subInFlight.perform
    Op.addRejected.perform
    Op.release.perform
    pure (some (.error .timeout))

/-- The semaphore is never closed. -/
def waitPermit (needsQueue : Bool) : BulkheadM T (Answer T) := do
  if needsQueue then Op.addQueued.perform else pure ()
  match ← Op.acquire.perform with
  | .dropped => pure none
  | .ready () =>
    if needsQueue then Op.subQueued.perform else pure ()
    execute
  | .elapsed =>
    if needsQueue then Op.subQueued.perform else pure ()
    Op.addRejected.perform
    pure (some (.error .timeout))

def tryExecute (config : BulkheadConfig) : BulkheadM T (Answer T) := do
  let inFlight ← Op.loadInFlight.perform
  let queued ← Op.loadQueued.perform
  if config.maxConcurrent.toNat ≤ inFlight ∧ config.maxQueueSize.toNat ≤ queued then
    Op.addRejected.perform
    pure (some (.error (.rejected "concurrency and queue limits both reached")))
  else waitPermit (decide (config.maxConcurrent.toNat ≤ inFlight))

abbrev BulkheadTask (T : Type) := Task Op (Op.Resp T) Unit (Answer T)

abbrev BulkheadPool (T : Type) := Pool Op (Op.Resp T) BulkheadState Unit (Answer T)

abbrev BulkheadAction (T : Type) := Action (Env T) Unit

/-- Every call is one of `tryExecute`, on whichever clone. -/
def machine (config : BulkheadConfig) :
    Machine Op (Op.Resp T) BulkheadState (Env T) Unit (Answer T) where
  exec := Op.exec
  body _ := tryExecute config
  external _ := true

def startPool (config : BulkheadConfig) : BulkheadPool T :=
  ⟨{ permits := config.maxConcurrent.toNat }, []⟩

/-- The semaphore refuses more permits than it can count. -/
def new (config : BulkheadConfig) : Option (BulkheadPool T) :=
  if maxPermits < config.maxConcurrent.toNat then none else some (startPool config)

theorem new_eq {config : BulkheadConfig} {p : BulkheadPool T}
    (h : new config = some p) : p = startPool config := by
  unfold new at h
  split at h
  · cases h
  · exact (Option.some.inj h).symm

/-- No operation starts another call. -/
theorem Op.exec_new {e : Op} {env : Env T} {s s' : BulkheadState} {r : e.Resp T}
    {new : List Unit} (h : e.exec env s = some (r, s', new)) : new = [] := by
  cases e with
  | acquire =>
    simp only [Op.exec] at h
    split at h
    · split at h
      · cases h
      · cases h; rfl
    · cases h; rfl
  | _ => cases h; rfl

theorem Op.exec_acquire {env : Env T} {s s' : BulkheadState} {r : Awaited Unit} {new : List Unit}
    (h : Op.acquire.exec env s = some (r, s', new)) :
    r = env.permit ∧ ((r = .ready () ∧ s.permits ≠ 0 ∧ s' = { s with permits := s.permits - 1 }) ∨
      r ≠ .ready () ∧ s' = s) := by
  simp only [Op.exec] at h
  split at h
  · rename_i hp
    split at h
    · cases h
    · rename_i h0
      cases h
      exact ⟨hp.symm, .inl ⟨rfl, h0, rfl⟩⟩
  · rename_i hp
    cases h
    exact ⟨rfl, .inr ⟨fun hr => hp hr, rfl⟩⟩

end HelixRouter.Bulkhead
