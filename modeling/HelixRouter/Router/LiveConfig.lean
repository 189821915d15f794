import HelixRouter.Router.Footprints

namespace HelixRouter.LiveConfig

open Interleaving

/-- Calls that may be made of a router whose configuration is to stay valid: full
replacements are validated first, and no field is set by name. -/
def Validated : Call → Prop
  | .setConfig cfg => cfg.Valid
  | .updateConfigField _ _ => False
  | _ => True

def Admissible (a : RouterAction) (_ : RouterPool) : Prop :=
  match a with
  | .start c => Validated c
  | .step _ _ => True

/-- A write of a configuration is of a valid one. -/
def WritesValid : Op → Prop
  | .writeCfg cfg | .storeCfg cfg | .writeCfgArc cfg => cfg.Valid
  | .spawn c => Validated c
  | _ => True

/-- What a task has last seen of the hot-path snapshot. -/
structure View where
  call : Call
  snapshot : Option RouterConfig := none

def View.next (v : View) : (e : Op) → e.Resp → View
  | .readCfgArc, cfg => { v with snapshot := some cfg }
  | _, _ => v

def answersValid : (e : Op) → e.Resp → Prop
  | .readCfgArc, cfg => cfg.Valid
  | _, _ => True

def monitor : Monitor Op Op.Resp Call Answer View where
  init c := { call := c }
  next := View.next
  allow v e := Validated v.call → WritesValid e
  may _ e r := answersValid e r
  fin _ _ _ := True

@[simp] theorem monitor_allow (v : View) (e : Op) :
    monitor.allow v e ↔ (Validated v.call → WritesValid e) := Iff.rfl

theorem next_call (v : View) (e : Op) (r : e.Resp) : (v.next e r).call = v.call := by
  cases e <;> rfl

theorem validated_of_internal {c : Call} (h : c.external = false) : Validated c := by
  cases c <;> trivial

theorem wp_of_all {A : Type} {P : Op → Prop} {p : RouterM A} (h : p.All P)
    (hw : ∀ e, P e → WritesValid e) {post : A → View → Prop} (hp : ∀ a v, post a v) (v : View) :
    p.wp monitor post v := by
  induction p generalizing v with
  | ret a => exact hp a v
  | op e next ih => exact ⟨fun _ => hw e h.1, fun r _ => ih r (h.2 r) _⟩

theorem serves_writesValid {e : Op} (h : e.Serves) : WritesValid e := by
  cases e with
  | spawn c => exact validated_of_internal (h.2 c (by simp [Op.spawns]))
  | _ => first | trivial | exact absurd rfl h.1

theorem tunes_writesValid {e : Op} (h : e.tunes = true) : WritesValid e := by
  cases e <;> trivial

/-- Nothing is asked of a call that may not be made. -/
theorem wp_of_not_validated {A : Type} (p : RouterM A) {post : A → View → Prop}
    (hp : ∀ a v, post a v) {v : View} (hv : ¬ Validated v.call) : p.wp monitor post v := by
  induction p generalizing v with
  | ret a => exact hp a v
  | op e next ih =>
    refine ⟨fun h => absurd h hv, fun r _ => ih r ?_⟩
    rwa [show monitor.next v e r = v.next e r from rfl, next_call]

/-- The candidate of a patch is written only after it validates. -/
theorem patchConfig_wp (patch : RouterConfigPatch) (v : View)
    {post : Except ConfigError RouterConfig → View → Prop} (hp : ∀ a v, post a v) :
    (patchConfig patch).wp monitor post v := by
  simp [patchConfig, WritesValid]
  intro cfg _
  split
  · simp [WritesValid, hp]
  · rename_i hok
    have hv := (RouterConfig.validate_ok_iff _).mp hok
    simp [WritesValid, hv, hp]

theorem body_wp [F64Text] (c : Call) :
    (callBody c).wp monitor (monitor.fin c) (monitor.init c) := by
  have hfin : ∀ a v, monitor.fin c a v := fun _ _ => trivial
  cases hc : c.configures with
  | false => exact wp_of_all (callBody_serves c hc) (fun e => serves_writesValid) hfin _
  | true =>
    cases c with
    | setConfig cfg => exact ⟨fun h => h, fun _ _ => ⟨fun h => h, fun _ _ => trivial⟩⟩
    | patchConfig patch =>
      exact (Prog.wp_bind _ _ _ _).mpr (patchConfig_wp patch _ fun _ _ => trivial)
    | updateConfigField field value => exact wp_of_not_validated _ hfin id
    | maybeAdaptThreshold =>
      exact (Prog.wp_bind _ _ _ _).mpr
        (wp_of_all maybeAdaptThreshold_all (fun e => tunes_writesValid) (fun _ _ => trivial) _)
    | autoscaleTick =>
      exact (Prog.wp_bind _ _ _ _).mpr
        (wp_of_all autoscaleTick_all (fun e => tunes_writesValid) (fun _ _ => trivial) _)
    | shutdown => exact ⟨fun _ => trivial, fun _ _ => trivial⟩
    | _ => cases hc

theorem view_call (t : RouterTask) : (t.view monitor).call = t.call :=
  t.view_const monitor View.call next_call

/-- Only validated calls are under way, and the snapshot is valid. -/
def SnapshotValid (p : RouterPool) : Prop :=
  p.state.cfgArc.Valid ∧ ∀ t ∈ p.tasks, Validated t.call

/-- The snapshot stays valid whatever the autoscaler does. -/
theorem snapshot_invariant [F64Text] : machine.Invariant monitor Admissible SnapshotValid where
  body := body_wp
  start c s tasks hc hg hj := by
    refine ⟨hj.1, fun t ht => ?_⟩
    rcases List.mem_append.mp ht with ht | ht
    · exact hj.2 t ht
    · rw [List.mem_singleton.mp ht]
      exact hg
  step env pre post t e next r s s' new hp hx hg hf ha hj := by
    have hx : e.exec env s = some (r, s', new) := hx
    have hw : WritesValid e := ha (by rw [view_call]; exact hj.2 t (by simp))
    have harc := Op.exec_cfgArc hx
    refine ⟨?_, ?_, fun u hu => ?_⟩
    · cases e with
      | readCfgArc =>
        simp only [Op.exec, Option.some.injEq, Prod.mk.injEq] at hx
        exact hx.1 ▸ hj.1
      | _ => trivial
    · change s'.cfgArc.Valid
      rw [harc]
      cases e with
      | writeCfgArc cfg => exact hw
      | _ => exact hj.1
    · simp only [List.mem_append, List.mem_cons, List.mem_map] at hu
      rcases hu with (hu | rfl | hu) | ⟨c, hc, rfl⟩
      · exact hj.2 u (by simp [hu])
      · exact hj.2 t (by simp)
      · exact hj.2 u (by simp [hu])
      · rw [Op.exec_new hx] at hc
        cases e with
        | spawn c' =>
          rw [List.mem_singleton.mp hc]
          exact hw
        | _ => cases hc

theorem with_cap_valid {cfg : RouterConfig} (h : cfg.Valid) (cap : UInt64) :
    { cfg with cpuQueueCap := cap }.Valid ↔ cfg.cpuParallelism ≤ cap :=
  ⟨fun hc => hc.parallelism_le, fun hc => { h with parallelism_le := hc }⟩

/-- The configuration a task has last read for its decisions. -/
def snapshot (t : RouterTask) : Option RouterConfig := (t.view monitor).snapshot

/-- What tasks route with has passed validation. -/
theorem snapshot_valid [F64Text] {cfg : RouterConfig} {as : List RouterAction} (hv : cfg.Valid)
    (ha : machine.Guarded Admissible as (startPool cfg)) :
    machine.Always (fun p => ∀ t ∈ p.tasks, ∀ c, snapshot t = some c → c.Valid) as
      (startPool cfg) := by
  have hviews := snapshot_invariant.withViews (V := fun v => ∀ c, v.snapshot = some c → c.Valid)
    (fun c c' h => by cases h) (fun v e r hv _ hm => by
      cases e with
      | readCfgArc =>
        intro c hc
        cases hc
        exact hm
      | _ => exact hv)
  refine (hviews.always ha (start_follows body_wp cfg) ⟨⟨hv, ?_⟩, ?_⟩).imp fun p hp => hp.2
  · intro t ht
    rcases mem_startPool.mp ht with rfl | rfl <;> trivial
  · intro t ht c hc
    rcases mem_startPool.mp ht with rfl | rfl <;> cases hc

/-- Scaling keeps a configuration valid unless it takes the queue below the workers. -/
theorem applyTo_valid {cfg : RouterConfig} {rec : AutoscaleRecommendation} (h : cfg.Valid) :
    (rec.applyTo cfg).Valid ↔
      (rec.direction = .down → max rec.recommendedQueueCap 16 < cfg.cpuQueueCap →
        cfg.cpuParallelism ≤ max rec.recommendedQueueCap 16) := by
  unfold AutoscaleRecommendation.applyTo
  cases hd : rec.direction with
  | up =>
    simp only [reduceCtorEq, false_implies, iff_true]
    split
    · rename_i hlt
      exact (with_cap_valid h _).mpr (UInt64.le_trans h.parallelism_le (UInt64.le_of_lt hlt))
    · exact h
  | down =>
    simp only [true_implies]
    split
    · rename_i hlt
      exact ⟨fun hv _ => (with_cap_valid h _).mp hv, fun hc => (with_cap_valid h _).mpr (hc hlt)⟩
    · rename_i hlt
      exact ⟨fun _ hc => absurd hc hlt, fun _ => h⟩
  | hold => simpa using h

/-- Where a scale-down is applied that lowers the queue, its new capacity still
has room for every worker. -/
def ScaleDownKeepsWorkers (a : RouterAction) (p : RouterPool) : Prop :=
  ∀ rec, picked a p = some (.scaleCfg rec) → p.state.cfgLocked = false → rec.direction = .down →
    max rec.recommendedQueueCap 16 < p.state.cfg.cpuQueueCap →
      p.state.cfg.cpuParallelism ≤ max rec.recommendedQueueCap 16

def ConfigValid (p : RouterPool) : Prop := p.state.cfg.Valid ∧ SnapshotValid p

theorem config_invariant [F64Text] : machine.Invariant monitor
    (fun a p => Admissible a p ∧ ScaleDownKeepsWorkers a p) ConfigValid where
  body := body_wp
  start c s tasks hc hg hj := ⟨hj.1, snapshot_invariant.start c s tasks hc hg.1 hj.2⟩
  step env pre post t e next r s s' new hp hx hg hf ha hj := by
    obtain ⟨hm, hj'⟩ :=
      snapshot_invariant.step env pre post t e next r s s' new hp hx hg.1 hf ha hj.2
    refine ⟨hm, ?_, hj'⟩
    have hx : e.exec env s = some (r, s', new) := hx
    have hw : WritesValid e := ha (by rw [view_call]; exact hj.2.2 t (by simp))
    change s'.cfg.Valid
    rw [Op.exec_cfg hx]
    cases e with
    | writeCfg cfg => exact hw
    | storeCfg cfg => exact hw
    | scaleCfg rec =>
      refine (applyTo_valid hj.1).mpr (hg.2 rec ?_ ?_)
      · exact picked_step (t := t) (by simp) (by simp [hp])
      · simp only [Op.exec, Option.ite_none_left_eq_some] at hx
        simpa using hx.1
    | _ => exact hj.1

theorem start_configValid [F64Text] {cfg : RouterConfig} (hv : cfg.Valid) :
    ConfigValid (startPool cfg) := by
  refine ⟨hv, hv, fun t ht => ?_⟩
  rcases mem_startPool.mp ht with rfl | rfl <;> trivial

/-- A scaling step that is taken leaves the scaled configuration. -/
theorem scale_step [F64Text] {a : RouterAction} {p : RouterPool} {rec : AutoscaleRecommendation}
    (ha : picked a p = some (.scaleCfg rec)) (hl : p.state.cfgLocked = false) :
    ∃ q, machine.step a p = some q ∧ q.state.cfg = rec.applyTo p.state.cfg := by
  cases a with
  | start c => cases ha
  | step i env =>
    obtain ⟨t, ht, hh⟩ := Option.bind_eq_some_iff.mp ha
    cases hprog : t.prog with
    | ret a => simp [hprog] at hh
    | op e next =>
      simp only [hprog, Prog.head?_op, Option.some.injEq] at hh
      subst hh
      simp [Machine.step, machine, ht, hprog, Op.exec, hl]

/-- The live configuration of a router built from a valid one and reconfigured
with validated ones stays valid exactly if every applied scale-down leaves the queue
at least as long as there are workers. -/
theorem live_config_valid_iff [F64Text] {cfg : RouterConfig} {p0 : RouterPool}
    {as : List RouterAction} (hv : cfg.validate = .ok ()) (hn : Router.new cfg = some p0)
    (ha : machine.Guarded Admissible as p0) :
    machine.Always (fun p => p.state.cfg.validate = .ok ()) as p0 ↔
      machine.Guarded ScaleDownKeepsWorkers as p0 := by
  constructor
  · intro h
    refine h.guarded fun a q hq hnext => ?_
    intro rec hpick hl
    obtain ⟨q', hs, hcfg⟩ := scale_step hpick hl
    have hq' := (RouterConfig.validate_ok_iff _).mp (hnext q' hs)
    rw [hcfg] at hq'
    exact (applyTo_valid ((RouterConfig.validate_ok_iff _).mp hq)).mp hq'
  · intro h
    rw [Router.new_eq hn] at ha h ⊢
    refine (config_invariant.always (ha.and h) (start_follows body_wp cfg) ?_).imp fun q hq => ?_
    · exact start_configValid ((RouterConfig.validate_ok_iff cfg).mp hv)
    · exact (RouterConfig.validate_ok_iff _).mpr hq.1

/-- Five ticks of an idle router, one after the other, ten seconds apart. -/
def idleTicks : List RouterAction :=
  (List.range 4).flatMap (fun i =>
    .start .autoscaleTick :: turns (2 + i) 5 { nowMs := 10000 * i }) ++
  .start .autoscaleTick :: turns 6 6 { nowMs := 40000 }

theorem idleTicks_admissible [F64Text] (p : RouterPool) : machine.Guarded Admissible idleTicks p := by
  refine Machine.guarded_of_forall ?_ p
  intro a ha q
  simp [idleTicks, turns] at ha
  rcases ha with ⟨_, _, rfl | rfl⟩ | rfl | rfl <;> trivial

def crampedCfg : RouterConfig := { cpuQueueCap := 20, cpuParallelism := 20 }

theorem crampedCfg_valid : crampedCfg.validate = .ok () := by decide +kernel

theorem idleTicks_run : ∃ p0 p, Router.new crampedCfg = some p0 ∧
    machine.run idleTicks p0 = some p ∧
    p.state.cfg.validate = .error (.queueBelowParallelism 16 20) := by
  obtain ⟨p0, p, hn, hr, hp⟩ := exists_run crampedCfg idleTicks
    (fun p => p.state.cfg.validate = .error (.queueBelowParallelism 16 20)) (by decide +kernel)
  exact ⟨p0, p, hn, hr, by simpa using hp⟩

/-- They take a queue of twenty for twenty workers down to sixteen. -/
theorem idle_ticks_invalidate : ∃ cfg p0, cfg.validate = .ok () ∧ Router.new cfg = some p0 ∧
    machine.Guarded Admissible idleTicks p0 ∧
    ∃ p, machine.run idleTicks p0 = some p ∧ p.state.cfg.validate ≠ .ok () := by
  obtain ⟨p0, p, hn, hr, hp⟩ := idleTicks_run
  exact ⟨crampedCfg, p0, crampedCfg_valid, hn, idleTicks_admissible p0, p, hr, by simp [hp]⟩

theorem idle_ticks_cramp : ¬ machine.Guarded ScaleDownKeepsWorkers idleTicks
    (startPool crampedCfg) := by
  intro h
  obtain ⟨p0, p, hn, hr, hp⟩ := idleTicks_run
  have ha := (live_config_valid_iff crampedCfg_valid hn (idleTicks_admissible p0)).mpr
    (Router.new_eq hn ▸ h)
  have := ha.last hr
  simp [hp] at this

end HelixRouter.LiveConfig
