import HelixRouter.Interleaving.Ledger
import HelixRouter.Router.Submit

namespace HelixRouter

open Interleaving

def callBody [F64Text] : Call → RouterM Answer
  | .submit job => do pure (.submitted (← submit job))
  | .run hint => run hint
  | .setConfig cfg => do setConfig cfg; pure .done
  | .patchConfig patch => do pure (.patched (← patchConfig patch))
  | .updateConfigField field value => do pure (.updated (← updateConfigField field value))
  | .maybeAdaptThreshold => do maybeAdaptThreshold; pure .done
  | .autoscaleTick => do autoscaleTick; pure .done
  | .shutdown => do shutdown; pure .done
  | .cpuDispatchLoop => do cpuDispatchLoop; pure .done
  | .cpuWorker w => do cpuWorker w; pure .done
  | .batchFlusher idx => do batchFlusher idx; pure .done

/-- Callers make every call but those the router starts itself. -/
def Call.external : Call → Bool
  | .cpuDispatchLoop | .cpuWorker _ | .batchFlusher _ => false
  | _ => true

/-- The requests whose outcomes are counted. -/
def Call.isRequest : Call → Bool
  | .submit _ | .run _ => true
  | _ => false

abbrev RouterMachine := Machine Op Op.Resp Inner Env Call Answer

abbrev RouterTask := Task Op Op.Resp Call Answer

abbrev RouterPool := Pool Op Op.Resp Inner Call Answer

abbrev RouterAction := Action Env Call

def machine [F64Text] : RouterMachine where
  exec := Op.exec
  body := callBody
  external := Call.external

/-- The most permits a semaphore or a bounded channel can have. -/
def maxPermits : Nat := 2305843009213693951

/-- The shared state of a new router. -/
def Inner.new (cfg : RouterConfig) : Inner where
  cfg := cfg
  cfgArc := cfg
  cpuCap := cfg.cpuQueueCap.toNat
  cpuSlots := cfg.cpuParallelism.toNat
  batches := fun _ => some []
  adaptiveSpawnThreshold := cfg.spawnThreshold

/-- The two tasks of a new router. -/
def startPool [F64Text] (cfg : RouterConfig) : RouterPool :=
  ⟨Inner.new cfg, [machine.spawn .cpuDispatchLoop, machine.spawn (.batchFlusher 0)]⟩

/-- A new router runs its dispatcher and its flusher. The runtime refuses an
empty channel and more permits than it can count. -/
def Router.new [F64Text] (cfg : RouterConfig) : Option RouterPool :=
  if cfg.cpuQueueCap = 0 ∨ maxPermits < cfg.cpuQueueCap.toNat ∨
      maxPermits < cfg.cpuParallelism.toNat then none
  else some (startPool cfg)

theorem mem_startPool [F64Text] {cfg : RouterConfig} {t : RouterTask} :
    t ∈ (startPool cfg).tasks ↔
      t = machine.spawn .cpuDispatchLoop ∨ t = machine.spawn (.batchFlusher 0) := by
  simp [startPool]

theorem start_follows [F64Text] {M : Type} {mon : Monitor Op Op.Resp Call Answer M}
    (h : ∀ c, (machine.body c).wp mon (mon.fin c) (mon.init c)) (cfg : RouterConfig) :
    ∀ t ∈ (startPool cfg).tasks, t.Follows mon := by
  intro t ht
  rcases mem_startPool.mp ht with rfl | rfl <;> exact Machine.spawn_follows (h _)

theorem Router.new_eq [F64Text] {cfg : RouterConfig} {p : RouterPool}
    (h : Router.new cfg = some p) : p = startPool cfg := by
  unfold Router.new at h
  split at h
  · cases h
  · exact (Option.some.inj h).symm

theorem Router.new_bounds [F64Text] {cfg : RouterConfig} {p : RouterPool}
    (h : Router.new cfg = some p) : cfg.cpuQueueCap.toNat ≤ maxPermits ∧
      cfg.cpuParallelism.toNat ≤ maxPermits := by
  unfold Router.new at h
  split at h
  · cases h
  · omega

/-- The pools a router can get to from its start. -/
def Reachable [F64Text] (cfg : RouterConfig) (p : RouterPool) : Prop :=
  ∃ p0 as, Router.new cfg = some p0 ∧ machine.run as p0 = some p

/-- A schedule that runs shows a pool it ends in. -/
theorem exists_run [F64Text] (cfg : RouterConfig) (as : List RouterAction)
    (f : RouterPool → Bool) (h : ((Router.new cfg).bind (machine.run as)).any f = true) :
    ∃ p0 p, Router.new cfg = some p0 ∧ machine.run as p0 = some p ∧ f p = true := by
  obtain ⟨p, hp, hf⟩ := (Option.any_eq_true f _).mp h
  obtain ⟨p0, hn, hr⟩ := Option.bind_eq_some_iff.mp hp
  exact ⟨p0, p, hn, hr, hf⟩

theorem exists_reachable [F64Text] (cfg : RouterConfig) (as : List RouterAction)
    (f : RouterPool → Bool) (h : ((Router.new cfg).bind (machine.run as)).any f = true) :
    ∃ p, Reachable cfg p ∧ f p = true := by
  obtain ⟨p0, p, hn, hr, hf⟩ := exists_run cfg as f h
  exact ⟨p, ⟨p0, as, hn, hr⟩, hf⟩

/-- Some turns of one task. -/
def turns (i n : Nat) (env : Env) : List RouterAction := List.replicate n (.step i env)

/-- The operation the picked task performs next. -/
def picked (a : RouterAction) (p : RouterPool) : Option Op :=
  match a with
  | .start _ => none
  | .step i _ => p.tasks[i]?.bind (fun t => t.prog.head?)

/-- The tasks that were not picked. -/
def unpicked (a : RouterAction) (p : RouterPool) : List RouterTask :=
  match a with
  | .start _ => p.tasks
  | .step i _ => p.tasks.eraseIdx i

theorem picked_step {i : Nat} {env : Env} {p : RouterPool} {t : RouterTask} {e : Op}
    (ht : p.tasks[i]? = some t) (hh : t.prog.head? = some e) :
    picked (.step i env) p = some e := by
  simp [picked, ht, hh]

theorem unpicked_split {env : Env} {s : Inner} {pre post : List RouterTask} {t : RouterTask} :
    unpicked (.step pre.length env) ⟨s, pre ++ t :: post⟩ = pre ++ post := by
  simp [unpicked, List.eraseIdx_append_of_length_le]

section Ledgers

variable [F64Text] {M ι : Type} {mon : Monitor Op Op.Resp Call Answer M}
  {G : RouterAction → RouterPool → Prop} {good : Inner → Prop} {held : ι → M → Nat}
  {stock owed : ι → Inner → Nat}

theorem start_balanced {cfg : RouterConfig} (hgood : good (Inner.new cfg))
    (h0 : ∀ i, held i (mon.init .cpuDispatchLoop) + held i (mon.init (.batchFlusher 0)) +
      stock i (Inner.new cfg) = owed i (Inner.new cfg)) :
    Machine.Balanced mon good held stock owed (startPool cfg) := by
  refine ⟨hgood, fun i => ?_⟩
  simpa [startPool, Pool.tally] using h0 i

/-- A ledger whose books balance for a new router balances after every run of it
whose steps meet the condition. -/
theorem ledger_run (hl : machine.Ledger mon G good held stock owed) {cfg : RouterConfig}
    (hgood : good (Inner.new cfg))
    (h0 : ∀ i, held i (mon.init .cpuDispatchLoop) + held i (mon.init (.batchFlusher 0)) +
      stock i (Inner.new cfg) = owed i (Inner.new cfg))
    {as : List RouterAction} {p0 p : RouterPool} (hn : Router.new cfg = some p0)
    (hg : machine.Guarded G as p0) (h : machine.run as p0 = some p) :
    Machine.Balanced mon good held stock owed p ∧ ∀ t ∈ p.tasks, t.Follows mon := by
  rw [Router.new_eq hn] at h hg
  exact hl.run hg h (start_follows hl.body cfg) (start_balanced hgood h0)

/-- Its books balance all along such a run. -/
theorem ledger_always (hl : machine.Ledger mon G good held stock owed) {cfg : RouterConfig}
    (hgood : good (Inner.new cfg))
    (h0 : ∀ i, held i (mon.init .cpuDispatchLoop) + held i (mon.init (.batchFlusher 0)) +
      stock i (Inner.new cfg) = owed i (Inner.new cfg))
    {as : List RouterAction} (hg : machine.Guarded G as (startPool cfg)) :
    machine.Always (Machine.Balanced mon good held stock owed) as (startPool cfg) :=
  hl.invariant.always hg (start_follows hl.body cfg) (start_balanced hgood h0)

end Ledgers

end HelixRouter
