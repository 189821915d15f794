import HelixRouter.Router.Effects

namespace HelixRouter

open Interleaving

/-- What an operation is concerned with. -/
inductive Area where
  | routine
  | compute
  | config
  | permit
  | pool
  | reply
  | batch
  | task
  | signal
  deriving DecidableEq

namespace Op

def area : Op → Area
  | .bump (.batchEnqueued _) _ | .bump (.batchFlushed _) _ => .batch
  | .ask | .bump _ _ | .load _ | .cacheGet _ | .cacheInsert _ _ | .readCfg | .readCfgArc
  | .readThreshold | .availablePermits | .recordPressure _ _ _ | .logDecision _
  | .broadcast _ | .join _ | .work => .routine
  | .execute _ => .compute
  | .writeCfg _ | .scaleCfg _ | .lockCfg | .storeCfg _ | .unlockCfg | .writeCfgArc _
  | .writeThreshold _ | .writeRaises _ | .autoscale _ _ _ => .config
  | .acquire | .release => .permit
  | .trySend _ | .depthAdd | .depthSub | .recvWork | .dropReceiver => .pool
  | .oneshot _ | .awaitReply _ | .sendReply _ _ | .dropSender _ | .cancel _
  | .isCancelled _ => .reply
  | .nextSeq | .hasBatch _ | .pushBatch _ _ | .takeBatch _ _ => .batch
  | .spawn _ => .task
  | .sleepOrShutdown | .sendShutdown => .signal

/-- An operation of one of these areas. -/
def Within (areas : List Area) (e : Op) : Prop := e.area ∈ areas

theorem Within.mono {areas areas' : List Area} {e : Op} (h : e.Within areas)
    (hs : areas ⊆ areas') : e.Within areas' := hs h

/-- The operations of the calls that configure, scale or stop a router. -/
def configures : Op → Bool
  | .ask | .load _ | .readCfg | .writeCfg _ | .scaleCfg _ | .lockCfg | .storeCfg _ | .unlockCfg
  | .writeCfgArc _ | .writeThreshold _ | .writeRaises _ | .bump .adaptiveDecayCount _
  | .sendShutdown | .autoscale _ _ _ => true
  | _ => false

/-- The operations that adjust a router without writing its configuration or snapshot. -/
def tunes : Op → Bool
  | .ask | .load _ | .readCfg | .scaleCfg _ | .writeThreshold _ | .writeRaises _
  | .bump .adaptiveDecayCount _ | .sendShutdown | .autoscale _ _ _ => true
  | _ => false

/-- The operations of an agreement check. -/
def checksSla : Op → Bool
  | .readCfg | .bump (.slaViolations _) _ => true
  | _ => false

/-- The operations that call a caller's work and count how it ended. -/
def runs : Op → Bool
  | .ask | .bump .completed _ | .bump .dropped _ | .recordPressure _ _ _ | .work | .acquire
  | .release => true
  | _ => false

theorem within_of_configures {e : Op} (h : e.configures = true) :
    e.Within [.routine, .config, .signal] := by
  cases e with
  | bump c n => cases c <;> simp_all [configures, Within, area]
  | _ => simp_all [configures, Within, area]

theorem within_of_runs {e : Op} (h : e.runs = true) : e.Within [.routine, .permit] := by
  cases e with
  | bump c n => cases c <;> simp_all [runs, Within, area]
  | _ => simp_all [runs, Within, area]

end Op

def Call.configures : Call → Bool
  | .setConfig _ | .patchConfig _ | .updateConfigField _ _ | .maybeAdaptThreshold
  | .autoscaleTick | .shutdown => true
  | _ => false

theorem setConfig_all (cfg : RouterConfig) : (setConfig cfg).All (fun e => e.configures = true) := by
  unfold Op.configures
  simp [setConfig]

theorem patchConfig_all (patch : RouterConfigPatch) :
    (patchConfig patch).All (fun e => e.configures = true) := by
  unfold patchConfig Op.configures
  refine Prog.All.bind (by simp) fun cfg => ?_
  dsimp only
  split <;> simp

theorem updateConfigField_all (field : String) (value : UInt64) :
    (updateConfigField field value).All (fun e => e.configures = true) := by
  unfold updateConfigField Op.configures
  refine Prog.All.bind (by simp) fun cfg => ?_
  split <;> simp

theorem maybeAdaptThreshold_all : maybeAdaptThreshold.All (fun e => e.tunes = true) := by
  unfold maybeAdaptThreshold Op.tunes
  refine Prog.All.bind (by simp) fun cfg => ?_
  split
  · refine Prog.All.bind (by simp) fun env => ?_
    repeat' split
    all_goals simp
    intro old
    split <;> simp
  · simp

theorem autoscaleTick_all : autoscaleTick.All (fun e => e.tunes = true) := by
  unfold Op.tunes
  simp [autoscaleTick]
  rintro completed dropped env cfg (_ | rec)
  · simp
  · dsimp only
    split <;> simp

theorem tunes_configures {e : Op} (h : e.tunes = true) : e.configures = true := by
  unfold Op.tunes at h
  unfold Op.configures
  cases e with
  | bump c n => cases c <;> simp_all
  | _ => simp_all

/-- The configuring calls touch nothing but configuration and its helpers. -/
theorem callBody_all [F64Text] (c : Call) (h : c.configures = true) :
    (callBody c).All (fun e => e.configures = true) := by
  cases c with
  | setConfig cfg => exact (setConfig_all cfg).bind fun _ => trivial
  | patchConfig patch => exact (patchConfig_all patch).bind fun _ => trivial
  | updateConfigField field value => exact (updateConfigField_all field value).bind fun _ => trivial
  | maybeAdaptThreshold =>
    exact (maybeAdaptThreshold_all.imp fun e => tunes_configures).bind fun _ => trivial
  | autoscaleTick => exact (autoscaleTick_all.imp fun e => tunes_configures).bind fun _ => trivial
  | shutdown => exact Prog.All.bind ⟨rfl, fun _ => trivial⟩ fun _ => trivial
  | _ => cases h

theorem checkSlaViolation_all (kind : JobKind) (ms : UInt64) :
    (checkSlaViolation kind ms).All (fun e => e.checksSla = true) := by
  unfold checkSlaViolation
  refine Prog.All.bind (by simp [Op.checksSla]) fun cfg => ?_
  repeat' split
  all_goals simp [Op.checksSla]

theorem flushEntries_all {P : Op → Prop} (hx : ∀ job, P (.execute job))
    (hs : ∀ r out, P (.sendReply r out)) (batch : List BatchEntry) : (flushEntries batch).All P := by
  induction batch with
  | nil => trivial
  | cons e rest ih => exact ⟨hx e.job, fun _ => ⟨hs _ _, fun _ => ih⟩⟩

/-- The operations of everything that is not a configuring call. -/
def Op.Serves (e : Op) : Prop := e.area ≠ .config ∧ ∀ c ∈ e.spawns, c.external = false

theorem Op.Within.serves {areas : List Area} {e : Op} (h : e.Within areas)
    (hc : .config ∉ areas) (ht : .task ∉ areas) : e.Serves := by
  refine ⟨fun he => hc (he ▸ h), fun c hm => ?_⟩
  cases e with
  | spawn c => exact absurd h ht
  | _ => cases hm

section Submissions

attribute [local simp] Op.Within Op.area Op.Serves Op.spawns Call.external bumpRoute bumpKindRoute

theorem checkSlaViolation_within (kind : JobKind) (ms : UInt64) :
    (checkSlaViolation kind ms).All (Op.Within [.routine]) := by
  refine (checkSlaViolation_all kind ms).imp fun e h => ?_
  cases e with
  | bump c n => cases c <;> simp_all [Op.checksSla]
  | _ => simp_all [Op.checksSla]

theorem submitCompleted_all (job : Job) (out : List Output) :
    (submitCompleted job out).All (Op.Within [.routine]) := by
  simp [submitCompleted]
  exact fun env => (checkSlaViolation_within _ _).bind fun _ => trivial

theorem submitDrop_all (frac : Option ℚ) : (submitDrop frac).All (Op.Within [.routine]) := by
  simp [submitDrop]

theorem submitFree_all (job : Job) : (submitFree job).All (Op.Within [.routine, .compute]) := by
  simp [submitFree]

theorem submitInline_all [F64Text] (job : Job) (frac : Option ℚ) :
    (submitInline job frac).All (Op.Within [.routine, .compute]) := by
  simp [submitInline]
  exact fun out env => ((checkSlaViolation_within _ _).imp fun _ h => h.mono (by simp)).bind
    fun _ => by simp

theorem submitSpawn_all (job : Job) (frac : Option ℚ) :
    (submitSpawn job frac).All (Op.Within [.routine]) := by
  simp [submitSpawn]
  rintro (_ | out)
  · simp
  · simpa using fun _ => submitCompleted_all job out

theorem submitCpuPool_all (job : Job) (frac : Option ℚ) :
    (submitCpuPool job frac).All (Op.Within [.routine, .pool, .reply]) := by
  simp [submitCpuPool]
  intro r
  rintro (_ | out)
  · simp
  · exact (submitCompleted_all job out).imp fun e h => h.mono (by simp)

theorem batchReply_all (job : Job) (r : Nat) :
    (batchReply job r).All (Op.Within [.routine, .reply]) := by
  simp [batchReply]
  rintro (_ | out)
  · simp
  · exact (submitCompleted_all job out).imp fun e h => h.mono (by simp)

theorem flushBatchKind_all (kind : JobKind) :
    (flushBatchKind kind).All (Op.Within [.routine, .compute, .reply, .batch]) := by
  simp [flushBatchKind]
  rintro cfg (_ | taken)
  · simp
  · simpa using flushEntries_all (by simp) (by simp) _

theorem submitBatch_all (job : Job) (cfg : RouterConfig) :
    (submitBatch job cfg).All (Op.Within [.routine, .compute, .reply, .batch]) := by
  have hreply : ∀ r, (batchReply job r).All (Op.Within [.routine, .compute, .reply, .batch]) :=
    fun r => (batchReply_all job r).imp fun e h => h.mono (by simp)
  simp [submitBatch]
  intro r seq len
  split
  · exact (flushBatchKind_all _).bind fun _ => hreply r
  · exact hreply r

/-- What a monitor has to see of a submission: the jobs it executes itself and its two
ways to wait for a reply. -/
theorem submit_wp [F64Text] {M : Type} {mon : Monitor Op Op.Resp Call Answer M} {m : M}
    {post : Option (List Output) → M → Prop} {job : Job}
    (hq : ∀ e : Op, e.area = .routine → mon.Quiet m e) (hpost : ∀ out, post out m)
    (hfree : (submitFree job).wp mon post m)
    (hinline : ∀ frac, (submitInline job frac).wp mon post m)
    (hpool : ∀ frac, (submitCpuPool job frac).wp mon post m)
    (hbatch : ∀ cfg, (submitBatch job cfg).wp mon post m) : (submit job).wp mon post m := by
  have hroutine : ∀ {p : RouterM (Option (List Output))}, p.All (Op.Within [.routine]) →
      p.wp mon post m := fun h => h.wp (fun e he => hq e (List.mem_singleton.mp he)) hpost
  have hwith : ∀ strategy cfg frac, (submitWith strategy job cfg frac).wp mon post m := by
    intro strategy cfg frac
    cases strategy with
    | drop => exact hroutine (submitDrop_all frac)
    | inline => exact hinline frac
    | spawn => exact hroutine (submitSpawn_all job frac)
    | cpuPool => exact hpool frac
    | batch => exact hbatch cfg
  have hrouted : (submitRouted job).wp mon post m :=
    Prog.wp_quiet (hq _ rfl) fun cfg => Prog.wp_quiet (hq _ rfl) fun threshold =>
    Prog.wp_quiet (hq _ rfl) fun available => Prog.wp_quiet (hq _ rfl) fun available' =>
    Prog.wp_quiet (hq _ rfl) fun env => Prog.wp_quiet (hq _ rfl) fun _ => hwith _ _ _
  refine Prog.wp_quiet (hq _ rfl) fun _ => Prog.wp_quiet (hq _ rfl) fun env => ?_
  split
  · exact hroutine (by simp)
  · unfold submitLive
    split
    · exact hfree
    · refine Prog.wp_quiet (hq _ rfl) fun text => ?_
      dsimp only
      split
      · exact hroutine (by simp)
      · exact hrouted

/-- The areas of a submission: it neither reconfigures nor dispatches. -/
def submitAreas : List Area := [.routine, .compute, .pool, .reply, .batch]

theorem submit_all [F64Text] (job : Job) : (submit job).All (Op.Within submitAreas) := by
  have hin : ∀ {areas : List Area} {p : RouterM (Option (List Output))},
      p.All (Op.Within areas) → areas ⊆ submitAreas →
      p.wp (Prog.only Call Answer (Op.Within submitAreas)) (fun _ _ => True) () :=
    fun h hs => Prog.all_iff_wp.mp (h.imp fun e he => he.mono hs)
  refine Prog.all_iff_wp.mpr (submit_wp (fun e he => ⟨?_, fun _ _ => rfl⟩) (fun _ => trivial)
    (hin (submitFree_all job) (by simp [submitAreas]))
    (fun frac => hin (submitInline_all job frac) (by simp [submitAreas]))
    (fun frac => hin (submitCpuPool_all job frac) (by simp [submitAreas]))
    (fun cfg => hin (submitBatch_all job cfg) (by simp [submitAreas])))
  change e.area ∈ submitAreas
  rw [he]
  simp [submitAreas]

theorem runFinished_all (hint : WorkHint) (frac : Option ℚ) (result : Except Rejected Unit) :
    (runFinished hint frac result).All (fun e => e.runs = true) := by
  cases result <;> simp [runFinished, Op.runs]

theorem runWith_all (strategy : Strategy) (hint : WorkHint) (frac : Option ℚ) :
    (runWith strategy hint frac).All (fun e => e.runs = true) := by
  have hpool : (runWith .cpuPool hint frac).All (fun e => e.runs = true) := by
    refine Prog.All.bind (by simp [runPooled, Op.runs]) ?_
    rintro (_ | result)
    · simp [Op.runs]
    · exact runFinished_all hint frac result
  cases strategy with
  | cpuPool => exact hpool
  | batch => exact hpool
  | drop => simp [runWith, Op.runs]
  | inline =>
    refine Prog.All.bind (by simp [Op.runs]) ?_
    rintro (_ | _)
    · trivial
    · exact runFinished_all hint frac (.ok ())
  | spawn =>
    refine Prog.All.bind (by simp [Op.runs]) ?_
    rintro (_ | _)
    · exact runFinished_all hint frac (.error .panicked)
    · exact runFinished_all hint frac (.ok ())

theorem run_all (hint : WorkHint) : (run hint).All (Op.Within [.routine, .permit]) := by
  simp [run, runRouted]
  intro env
  split
  · simp
  · simp
    exact fun _ _ _ _ => (runWith_all _ _ _).imp fun _ h => Op.within_of_runs h

theorem cpuWorker_all (w : CpuWork) :
    (cpuWorker w).All (Op.Within [.routine, .reply, .permit]) := by
  refine ⟨by simp, fun cancelled => ⟨by simp, ?_⟩⟩
  rintro (_ | out) <;> simp

theorem cpuDispatchLoop_all : cpuDispatchLoop.All Op.Serves := by
  simp [cpuDispatchLoop]
  rintro (_ | w) <;> simp

theorem batchFlusher_all (idx : Fin 3) : (batchFlusher idx).All Op.Serves := by
  have hflush : (flushBatchKind (flusherKinds idx)).All Op.Serves :=
    (flushBatchKind_all _).imp fun e h => h.serves (by simp) (by simp)
  simp [batchFlusher]
  exact fun _ => hflush.bind fun _ => by simp

/-- Only the configuring calls write configuration. -/
theorem callBody_serves [F64Text] (c : Call) (h : c.configures = false) :
    (callBody c).All Op.Serves := by
  cases c with
  | submit job =>
    exact ((submit_all job).imp fun e h => h.serves (by simp [submitAreas])
      (by simp [submitAreas])).bind fun _ => trivial
  | run hint => exact (run_all hint).imp fun e h => h.serves (by simp) (by simp)
  | cpuDispatchLoop => exact cpuDispatchLoop_all.bind fun _ => trivial
  | cpuWorker w =>
    exact ((cpuWorker_all w).imp fun e h => h.serves (by simp) (by simp)).bind fun _ => trivial
  | batchFlusher idx => exact (batchFlusher_all idx).bind fun _ => trivial
  | _ => cases h

end Submissions

end HelixRouter
