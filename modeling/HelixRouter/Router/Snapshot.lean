import HelixRouter.Router.LiveConfig

namespace HelixRouter.Snapshot

open Interleaving

/-- The calls that write the configuration or its snapshot. -/
def writes : Call → Bool
  | .setConfig _ | .patchConfig _ | .updateConfigField _ _ | .autoscaleTick => true
  | _ => false

/-- What a writer has written to the source of truth and not yet published; other
tasks are bystanders. -/
abbrev View := Option (Option RouterConfig)

def written (v : Option RouterConfig) : (e : Op) → e.Resp → Option RouterConfig
  | .writeCfg cfg, _ | .storeCfg cfg, _ => some cfg
  | .writeCfgArc _, _ => none
  | _, _ => v

def publishes : Op → Bool
  | .writeCfg _ | .storeCfg _ | .writeCfgArc _ => true
  | _ => false

/-- Only what a writer has written does it publish. -/
def allows : View → Op → Prop
  | some v, .writeCfgArc cfg => v = some cfg
  | some _, _ => True
  | none, e => publishes e = false

def monitor : Monitor Op Op.Resp Call Answer View where
  init c := if writes c then some none else none
  next v e r := v.map (fun q => written q e r)
  allow := allows
  may _ _ _ := True
  fin _ _ v := v.join = none

@[simp] theorem monitor_next (v : View) (e : Op) (r : e.Resp) :
    monitor.next v e r = v.map (fun q => written q e r) := rfl

@[simp] theorem monitor_allow (v : View) (e : Op) : monitor.allow v e ↔ allows v e := Iff.rfl

@[simp] theorem monitor_may (v : View) (e : Op) (r : e.Resp) : monitor.may v e r := trivial

theorem quiet {e : Op} (h : publishes e = false) (v : View) : monitor.Quiet v e := by
  have hw : ∀ q r, written q e r = q := by cases e <;> first | exact fun _ _ => rfl | cases h
  refine ⟨?_, fun r _ => ?_⟩
  · cases v with
    | none => exact h
    | some q => cases e <;> trivial
  · cases v with
    | none => rfl
    | some q => exact congrArg some (hw q r)

theorem serves_quiet {e : Op} (h : e.Serves) : publishes e = false := by
  cases e <;> first | rfl | exact absurd rfl h.1

theorem tunes_quiet {e : Op} (h : e.tunes = true) : publishes e = false := by
  cases e <;> simp_all [Op.tunes, publishes]

attribute [local simp] written allows

theorem patchConfig_wp (patch : RouterConfigPatch) :
    (patchConfig patch).wp monitor (fun _ v => v.join = none) (some none) := by
  simp [patchConfig]
  intro cfg
  split <;> simp

theorem updateConfigField_wp (field : String) (value : UInt64) :
    (updateConfigField field value).wp monitor (fun _ v => v.join = none) (some none) := by
  simp [updateConfigField]
  intro cfg
  split <;> simp

theorem quiet_wp {A : Type} {P : Op → Prop} {p : RouterM A} (h : p.All P)
    (hq : ∀ e, P e → publishes e = false) {post : A → View → Prop} {v : View}
    (hp : ∀ a, post a v) : p.wp monitor post v := h.wp (fun e he => quiet (hq e he) v) hp

/-- A call publishes whatever it has written before it returns. -/
theorem body_wp [F64Text] (c : Call) :
    (callBody c).wp monitor (monitor.fin c) (monitor.init c) := by
  cases hc : c.configures with
  | false =>
    refine quiet_wp (callBody_serves c hc) (fun _ => serves_quiet) fun _ => ?_
    cases c <;> rfl
  | true =>
    cases c with
    | setConfig cfg => simp [callBody, setConfig, monitor, writes]
    | patchConfig patch => exact (Prog.wp_bind _ _ _ _).mpr (patchConfig_wp patch)
    | updateConfigField field value =>
      exact (Prog.wp_bind _ _ _ _).mpr (updateConfigField_wp field value)
    | maybeAdaptThreshold =>
      exact (Prog.wp_bind _ _ _ _).mpr
        (quiet_wp maybeAdaptThreshold_all (fun _ => tunes_quiet) fun _ => rfl)
    | autoscaleTick =>
      exact (Prog.wp_bind _ _ _ _).mpr
        (quiet_wp autoscaleTick_all (fun _ => tunes_quiet) fun _ => rfl)
    | shutdown => exact ⟨rfl, fun _ _ => rfl⟩
    | _ => cases hc

def pending (t : RouterTask) : Option RouterConfig := (t.view monitor).join

theorem pending_bystander {t : RouterTask} (h : writes t.call = false) : pending t = none := by
  have hview := t.view_const monitor Option.isSome fun v e r => by cases v <;> rfl
  have hinit : (monitor.init t.call).isSome = false := by simp [monitor, h]
  rw [hinit, Option.isSome_eq_false_iff, Option.isNone_iff_eq_none] at hview
  rw [pending, hview]
  rfl

theorem pending_advance (t : RouterTask) (e : Op) (r : e.Resp) (p : RouterM Answer) :
    pending (t.advance e r p) = ((t.view monitor).map (fun q => written q e r)).join := by
  rw [pending, Task.view_advance, monitor_next]

/-- The snapshot is current, or some task is still to publish the live configuration. -/
def Current (p : RouterPool) : Prop :=
  p.state.cfgArc = p.state.cfg ∨ ∃ t ∈ p.tasks, pending t = some p.state.cfg

/-- Publishing: of the live configuration, or while another task is still to publish it. -/
def PublishesLive (a : RouterAction) (p : RouterPool) : Prop :=
  ∀ cfg, picked a p = some (.writeCfgArc cfg) →
    cfg = p.state.cfg ∨ ∃ u ∈ unpicked a p, pending u = some p.state.cfg

/-- Scaling: to what the configuration is already, or to what is or will be published. -/
def ScalesPublished (a : RouterAction) (p : RouterPool) : Prop :=
  ∀ rec, picked a p = some (.scaleCfg rec) →
    rec.applyTo p.state.cfg = p.state.cfg ∨ p.state.cfgArc = rec.applyTo p.state.cfg ∨
      ∃ u ∈ p.tasks, pending u = some (rec.applyTo p.state.cfg)

theorem invariant [F64Text] : machine.Invariant monitor
    (fun a p => PublishesLive a p ∧ ScalesPublished a p) Current where
  body := body_wp
  start c s tasks _ _ hj := hj.imp_right fun ⟨t, ht, hp⟩ => ⟨t, List.mem_append_left _ ht, hp⟩
  step env pre post t e next r s s' new hp hx hg hf ha hj := by
    have hx : e.exec env s = some (r, s', new) := hx
    have hcfg := Op.exec_cfg hx
    have harc := Op.exec_cfgArc hx
    have hpick : picked (.step pre.length env) ⟨s, pre ++ t :: post⟩ = some e :=
      picked_step (t := t) (by simp) (by simp [hp])
    refine ⟨trivial, ?_⟩
    have hothers : ∀ cfg, (∃ u ∈ pre ++ post, pending u = some cfg) →
        ∃ u ∈ pre ++ t.advance e r (next r) :: post ++ new.map machine.spawn,
          pending u = some cfg := by
      rintro cfg ⟨u, hu, hpend⟩
      refine ⟨u, ?_, hpend⟩
      rcases List.mem_append.mp hu with hu | hu <;> simp [hu]
    have hkept : publishes e = false → ∀ cfg, (∃ u ∈ pre ++ t :: post, pending u = some cfg) →
        ∃ u ∈ pre ++ t.advance e r (next r) :: post ++ new.map machine.spawn,
          pending u = some cfg := by
      rintro hq cfg ⟨u, hu, hpend⟩
      simp only [List.mem_append, List.mem_cons] at hu
      rcases hu with hu | rfl | hu
      · exact hothers cfg ⟨u, by simp [hu], hpend⟩
      · refine ⟨u.advance e r (next r), by simp, ?_⟩
        rw [pending, Task.view_advance, (quiet hq _).2 r trivial]
        exact hpend
      · exact hothers cfg ⟨u, by simp [hu], hpend⟩
    have hmoved : ∀ cfg, publishes e = true → (∀ q, written q e r = some cfg) → s'.cfg = cfg →
        Current ⟨s', pre ++ t.advance e r (next r) :: post ++ new.map machine.spawn⟩ := by
      intro cfg hpub hn hc
      refine Or.inr ⟨t.advance e r (next r), by simp, ?_⟩
      have ha : allows (t.view monitor) e := ha
      rw [pending_advance]
      cases hv : t.view monitor with
      | none =>
        rw [hv] at ha
        rw [show publishes e = false from ha] at hpub
        cases hpub
      | some q => exact (hn q).trans (congrArg some hc.symm)
    unfold Current at hj
    cases e with
    | writeCfg cfg => exact hmoved cfg rfl (fun _ => rfl) hcfg
    | storeCfg cfg => exact hmoved cfg rfl (fun _ => rfl) hcfg
    | writeCfgArc cfg =>
      unfold Current
      dsimp only
      rw [hcfg, harc]
      refine (hg.1 cfg hpick).imp id fun ⟨u, hu, hpend⟩ => ?_
      rw [unpicked_split] at hu
      exact hothers _ ⟨u, hu, hpend⟩
    | scaleCfg rec =>
      unfold Current
      dsimp only
      rw [hcfg, harc]
      rcases hg.2 rec hpick with hsame | hlive | hpend
      · simp only [Op.cfgAfter, Op.arcAfter]
        rw [hsame]
        exact hj.imp id (hkept rfl _)
      · exact Or.inl hlive
      · exact Or.inr (hkept rfl _ hpend)
    | _ =>
      unfold Current
      dsimp only
      rw [hcfg, harc]
      exact hj.imp id (hkept rfl _)

/-- No call that writes the configuration is in progress. -/
def Settled (p : RouterPool) : Prop :=
  ∀ t ∈ p.tasks, writes t.call = true → t.result?.isSome = true

/-- Once every writer has returned, a current snapshot is the live configuration. -/
theorem Current.settled {p : RouterPool} (h : Current p) (hf : ∀ t ∈ p.tasks, t.Follows monitor)
    (hs : Settled p) : p.state.cfgArc = p.state.cfg := by
  refine h.elim id fun ⟨t, ht, hp⟩ => ?_
  have hnone : pending t = none := by
    cases hw : writes t.call with
    | false => exact pending_bystander hw
    | true =>
      obtain ⟨a, ha⟩ := Option.isSome_iff_exists.mp (hs t ht hw)
      exact (hf t ht).finished ha
  rw [hnone] at hp
  cases hp

/-- A run that publishes only the live configuration, and scales only to what is
published, leaves the snapshot equal to it whenever no writer is in progress. -/
theorem snapshot_coherent [F64Text] {cfg : RouterConfig} {p0 : RouterPool}
    {as : List RouterAction} (hn : Router.new cfg = some p0)
    (hp : machine.Guarded PublishesLive as p0) (hs : machine.Guarded ScalesPublished as p0) :
    machine.Always (fun p => Settled p → p.state.cfgArc = p.state.cfg) as p0 := by
  rw [Router.new_eq hn] at hp hs ⊢
  have hrun := invariant.always_follows (hp.and hs) (start_follows body_wp cfg) (Or.inl rfl)
  exact hrun.imp fun p h => h.1.settled h.2

/-- Another configuration than the default. -/
def otherCfg (spawn : UInt64) : RouterConfig := { spawnThreshold := spawn }

/-- Two replacements, one after the other. -/
def inTurn : List RouterAction :=
  .start (.setConfig (otherCfg 70000)) :: .start (.setConfig (otherCfg 80000)) ::
    (turns 2 2 {} ++ turns 3 2 {})

def publishesLive (a : RouterAction) (p : RouterPool) : Bool :=
  match picked a p with
  | some (.writeCfgArc cfg) => cfg == p.state.cfg
  | some (.scaleCfg _) => false
  | _ => true

theorem publishesLive_sound (a : RouterAction) (p : RouterPool) (h : publishesLive a p = true) :
    PublishesLive a p ∧ ScalesPublished a p := by
  constructor
  · intro cfg hs
    rw [publishesLive, hs] at h
    exact Or.inl (beq_iff_eq.mp h)
  · intro rec hs
    rw [publishesLive, hs] at h
    cases h

theorem coherent_in_turn : ∃ p0, Router.new {} = some p0 ∧
    machine.Always (fun p => Settled p → p.state.cfgArc = p.state.cfg) inTurn p0 := by
  have hg : machine.Guarded (fun a p => PublishesLive a p ∧ ScalesPublished a p) inTurn
      (startPool {}) := Machine.guarded_of_check publishesLive_sound (by decide +kernel)
  have hn : Router.new {} = some (startPool {}) := rfl
  exact ⟨_, hn, snapshot_coherent hn (hg.mono fun _ _ h => h.1) (hg.mono fun _ _ h => h.2)⟩

/-- Two replacements that write in one order and publish in the other. -/
def crossed : List RouterAction :=
  .start (.setConfig (otherCfg 70000)) :: .start (.setConfig (otherCfg 80000)) ::
    (turns 2 1 {} ++ turns 3 2 {} ++ turns 2 1 {})

def settled (p : RouterPool) : Bool :=
  p.tasks.all (fun t => !writes t.call || t.result?.isSome)

theorem settled_iff (p : RouterPool) : settled p = true ↔ Settled p := by
  simp [settled, Settled, ← Bool.not_eq_true, imp_iff_not_or]

theorem stale_snapshot (as : List RouterAction) (cfg : RouterConfig)
    (h : ((Router.new cfg).bind (machine.run as)).any
      (fun p => settled p && p.state.cfgArc != p.state.cfg) = true) :
    ∃ p, Reachable cfg p ∧ Settled p ∧ p.state.cfgArc ≠ p.state.cfg := by
  obtain ⟨p, hp, hc⟩ := exists_reachable cfg as _ h
  simp only [Bool.and_eq_true, bne_iff_ne, settled_iff] at hc
  exact ⟨p, hp, hc⟩

/-- The snapshot stays stale after crossed replacements, and after idle ticks alone. -/
theorem snapshot_stale :
    (∃ p, Reachable {} p ∧ Settled p ∧ p.state.cfgArc ≠ p.state.cfg) ∧
      ∃ p, Reachable LiveConfig.crampedCfg p ∧ Settled p ∧ p.state.cfgArc ≠ p.state.cfg :=
  ⟨stale_snapshot crossed {} (by decide +kernel),
    stale_snapshot LiveConfig.idleTicks LiveConfig.crampedCfg (by decide +kernel)⟩

end HelixRouter.Snapshot
