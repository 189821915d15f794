import HelixRouter.CanaryDeploys.CanaryDeployer

namespace HelixRouter.CanaryDeploys

open Floats Interleaving Runs

/-- The deployments that were rolled back. -/
def rollbacks : (e : Op) → e.Resp → List String
  | .rollback id, _ => [id]
  | _, _ => []

/-- What a call has done ends with an advance of the deployment to that percentage. -/
def Advanced (id : String) (pct : F64) (before trace : List (Sigma Op.Resp)) : Prop :=
  trace = before ++ [⟨.advanceStage id, .ok pct⟩, ⟨.stepped id, ()⟩]

/-- And before that with a check of its health, which succeeded. -/
def Checked (config : String → CanaryConfig) (id : String) (pct : F64)
    (trace : List (Sigma Op.Resp)) : Prop :=
  ∃ before check, Advanced id pct (before ++ check) trace ∧
    (checkHealth config id).Yields check (.ok ())

/-- The step is one of a tick, which performs the operation. -/
def Ticks (a : DeployerAction) (p : DeployerPool) (t : DeployerTask) (e : Op) : Prop :=
  ∃ i now ids, a = .step i now ∧ p.tasks[i]? = some t ∧ t.call = .tickAll ids ∧
    t.prog.head? = some e

/-- A tick leaves alone what was rolled back, and completes what runs at 100 percent and was
found healthy. -/
structure Respects (config : String → CanaryConfig) (a : DeployerAction) (p : DeployerPool) :
    Prop where
  rollback : ∀ t e q, Ticks a p t e → (machine config).step a p = some q →
    ∀ id ∈ p.log rollbacks, q.state.stage id = p.state.stage id
  complete : ∀ t id, Ticks a p t (.promote id) →
    p.state.stage id = .running (.finite 100) ∧ ∃ pct, Checked config id pct t.trace

/-- A tick completes a deployment that is as its advance has left it, and fails one that was
not rolled back, or has failed so before. -/
structure Unraced (a : DeployerAction) (p : DeployerPool) : Prop where
  complete : ∀ t id, Ticks a p t (.promote id) →
    ∃ before pct, Advanced id pct before t.trace ∧ p.state.stage id = .running pct
  fail : ∀ t id reason, Ticks a p t (.fail id reason) → id ∈ p.log rollbacks →
    p.state.stage id = .failed reason

section Stages

variable {config : String → CanaryConfig} {s s' : Deployments} {id id' : String}
  {stage : CanaryStage} {now : Instant} {e : Op} {r : e.Resp} {new : List Call} {pct : F64}

@[simp] theorem stage_setStage : (s.setStage id stage).stage id = stage := by
  simp [Deployments.stage, Deployments.setStage]

@[simp] theorem stage_setStage_ne (hne : id' ≠ id) :
    (s.setStage id stage).stage id' = s.stage id' := by
  simp [Deployments.stage, Deployments.setStage, hne]

@[simp] theorem stage_setLastStepAt : (s.setLastStepAt id now).stage id' = s.stage id' := by
  by_cases h : id' = id
  · subst h
    simp [Deployments.stage, Deployments.setLastStepAt]
  · simp [Deployments.stage, Deployments.setLastStepAt, h]

@[simp] theorem stage_fetchAdd {backend : Backend} {c : Counter} {n : UInt64} :
    (s.fetchAdd id backend c n).stage id' = s.stage id' := by
  by_cases h : id' = id
  · subst h
    simp [Deployments.stage, Deployments.fetchAdd]
  · simp [Deployments.stage, Deployments.fetchAdd, h]

/-- Only what is running is advanced. -/
theorem advanceStage_cases (s : Deployments) (config : CanaryConfig) (id : String) :
    (∃ pct, s.stage id = .running pct ∧
      s.advanceStage config id =
        (.ok ((pct.add config.stepPct).min (.finite 100)),
          s.setStage id (.running ((pct.add config.stepPct).min (.finite 100))))) ∨
      (∀ pct, s.stage id ≠ .running pct) ∧
        s.advanceStage config id = (.error "deployment is not in Running stage", s) := by
  unfold Deployments.advanceStage
  cases hs : s.stage id with
  | running pct => exact .inl ⟨pct, rfl, rfl⟩
  | inactive => exact .inr ⟨by simp, rfl⟩
  | paused => exact .inr ⟨by simp, rfl⟩
  | rollingBack => exact .inr ⟨by simp, rfl⟩
  | complete => exact .inr ⟨by simp, rfl⟩
  | failed reason => exact .inr ⟨by simp, rfl⟩

theorem stopped_setStage (hstage : ∀ pct, stage ≠ .running pct)
    (hstopped : ∀ pct, s.stage id ≠ .running pct) :
    ∀ pct, (s.setStage id' stage).stage id ≠ .running pct := by
  by_cases h : id = id'
  · subst h
    rwa [stage_setStage]
  · rwa [stage_setStage_ne h]

/-- What has been stopped is not started again. -/
theorem stopped_exec (hx : e.exec config now s = some (r, s', new))
    (hstopped : ∀ pct, s.stage id ≠ .running pct) : ∀ pct, s'.stage id ≠ .running pct := by
  cases e with
  | readStage id' => cases hx; exact hstopped
  | stepDue id' => cases hx; exact hstopped
  | load id' c => cases hx; exact hstopped
  | fetchAdd id' backend c n => cases hx; rwa [stage_fetchAdd]
  | stepped id' => cases hx; rwa [stage_setLastStepAt]
  | fail id' reason => cases hx; exact stopped_setStage (by simp) hstopped
  | promote id' => cases hx; exact stopped_setStage (by simp) hstopped
  | rollback id' => cases hx; exact stopped_setStage (by simp) hstopped
  | advanceStage id' =>
    rcases advanceStage_cases s (config id') id' with ⟨pct, hpct, heq⟩ | ⟨-, heq⟩
    · simp only [Op.exec, heq, Option.some.injEq, Prod.mk.injEq] at hx
      obtain ⟨-, rfl, -⟩ := hx
      have hne : id ≠ id' := by
        rintro rfl
        exact hstopped pct hpct
      rwa [stage_setStage_ne hne]
    · simp only [Op.exec, heq, Option.some.injEq, Prod.mk.injEq] at hx
      obtain ⟨-, rfl, -⟩ := hx
      exact hstopped

theorem stopped_of_rollbacks (hx : e.exec config now s = some (r, s', new)) :
    ∀ id ∈ rollbacks e r, ∀ pct, s'.stage id ≠ .running pct := by
  intro id hid
  cases e with
  | rollback id' =>
    cases hx
    rw [List.mem_singleton.mp hid, stage_setStage]
    exact fun _ => CanaryStage.noConfusion
  | _ => nomatch hid

/-- What has been stopped stays as it is where it is not completed, rolled back or failed. -/
theorem stage_exec (hx : e.exec config now s = some (r, s', new)) (hcomplete : e ≠ .promote id)
    (hrollback : e ≠ .rollback id) (hstopped : ∀ pct, s.stage id ≠ .running pct)
    (hfail : ∀ reason, e = .fail id reason → s.stage id = .failed reason) :
    s'.stage id = s.stage id := by
  cases e with
  | readStage id' => cases hx; rfl
  | stepDue id' => cases hx; rfl
  | load id' c => cases hx; rfl
  | fetchAdd id' backend c n => cases hx; exact stage_fetchAdd
  | stepped id' => cases hx; exact stage_setLastStepAt
  | fail id' reason =>
    cases hx
    by_cases h : id = id'
    · subst h
      rw [stage_setStage, hfail reason rfl]
    · exact stage_setStage_ne h
  | promote id' =>
    cases hx
    exact stage_setStage_ne fun h => hcomplete (h ▸ rfl)
  | rollback id' =>
    cases hx
    exact stage_setStage_ne fun h => hrollback (h ▸ rfl)
  | advanceStage id' =>
    rcases advanceStage_cases s (config id') id' with ⟨pct, hpct, heq⟩ | ⟨-, heq⟩
    · simp only [Op.exec, heq, Option.some.injEq, Prod.mk.injEq] at hx
      obtain ⟨-, rfl, -⟩ := hx
      refine stage_setStage_ne ?_
      rintro rfl
      exact hstopped pct hpct
    · simp only [Op.exec, heq, Option.some.injEq, Prod.mk.injEq] at hx
      obtain ⟨-, rfl, -⟩ := hx
      rfl

/-- An advance answers no more than 100 percent. -/
def answers : (e : Op) → e.Resp → Prop
  | .advanceStage _, .ok pct => (F64.finite 100).le pct = true → pct = .finite 100
  | _, _ => True

theorem answers_exec (hx : e.exec config now s = some (r, s', new)) : answers e r := by
  cases e with
  | advanceStage id =>
    rcases advanceStage_cases s (config id) id with ⟨pct, -, heq⟩ | ⟨-, heq⟩
    · simp only [Op.exec, heq, Option.some.injEq, Prod.mk.injEq] at hx
      obtain ⟨rfl, -, -⟩ := hx
      exact F64.min_of_le F64.noConfusion
    · simp only [Op.exec, heq, Option.some.injEq, Prod.mk.injEq] at hx
      obtain ⟨rfl, -, -⟩ := hx
      trivial
  | _ => trivial

end Stages

section Tasks

variable {config : String → CanaryConfig} {createdAt : String → Instant} {ids : List String}
  {id : String} {p : DeployerPool} {a : DeployerAction} {as : List DeployerAction}

/-- A tick rolls nothing back, and completes what it has checked and advanced. -/
def allowed (config : String → CanaryConfig) (call : Call) (trace : List (Sigma Op.Resp))
    (e : Op) : Prop :=
  ∀ ids, call = .tickAll ids → ∀ id, e ≠ .rollback id ∧
    (e = .promote id → Checked config id (.finite 100) trace)

def monitor (config : String → CanaryConfig) :
    Monitor Op Op.Resp Call Answer (Call × List (Sigma Op.Resp)) :=
  Prog.tracing Call Answer (allowed config) answers

theorem allowed_of_ne {call : Call} {trace : List (Sigma Op.Resp)} {e : Op}
    (hrollback : ∀ id, e ≠ .rollback id) (hpromote : ∀ id, e ≠ .promote id) :
    allowed config call trace e :=
  fun _ _ id => ⟨hrollback id, fun h => absurd h (hpromote id)⟩

theorem loads_checkHealth :
    (checkHealth config id).All fun e => ∃ id c, e = .load id c := by
  have hload : ∀ c, ∃ id' c', Op.load id c = .load id' c' := fun c => ⟨id, c, rfl⟩
  have hrate : (errorRate id).All fun e => ∃ id c, e = .load id c := by
    refine .bind ⟨hload _, fun _ => ⟨hload _, fun _ => trivial⟩⟩ fun total => ?_
    split
    · trivial
    · exact ⟨hload _, fun _ => trivial⟩
  have hlatency : (avgLatencyMs id).All fun e => ∃ id c, e = .load id c := by
    rw [avgLatencyMs, Prog.all_perform_bind]
    refine ⟨hload _, fun count => ?_⟩
    split
    · trivial
    · exact ⟨hload _, fun _ => trivial⟩
  refine hrate.bind fun rate => ?_
  split
  · trivial
  · refine hlatency.bind fun latency => ?_
    split <;> trivial

/-- A tick does for each deployment what it may do. -/
theorem wp_tick {post : Unit → Call × List (Sigma Op.Resp) → Prop} {call : Call}
    {trace : List (Sigma Op.Resp)} (hpost : ∀ trace, post () (call, trace)) :
    (tick config id).wp (monitor config) post (call, trace) := by
  have hquiet : ∀ (trace : List (Sigma Op.Resp)) (e : Op), (∀ id, e ≠ .rollback id) →
      (∀ id, e ≠ .promote id) → (monitor config).allow (call, trace) e :=
    fun _ _ => allowed_of_ne
  simp only [tick, Prog.wp_bind, Prog.wp_perform, Prog.wp_ite, Prog.wp_pure]
  refine ⟨hquiet _ _ (by simp) (by simp), fun stage _ => ?_⟩
  split
  · exact hpost _
  · refine ⟨hquiet _ _ (by simp) (by simp), fun due _ => ?_⟩
    split
    · exact hpost _
    · refine Prog.wp_tracing (loads_checkHealth.imp ?_) fun check result hcheck => ?_
      · rintro _ ⟨id, c, rfl⟩ trace
        exact allowed_of_ne (by simp) (by simp)
      · cases result with
        | error reason => exact ⟨hquiet _ _ (by simp) (by simp), fun _ _ => hpost _⟩
        | ok _ =>
          simp only [advance, Prog.wp_bind, Prog.wp_perform]
          refine ⟨hquiet _ _ (by simp) (by simp), fun result hresult => ?_⟩
          cases result with
          | error reason => exact hpost _
          | ok pct =>
            simp only [Prog.wp_bind, Prog.wp_perform, Prog.wp_pure, Prog.wp_ite]
            refine ⟨hquiet _ _ (by simp) (by simp), ?_⟩
            rintro ⟨⟩ -
            split
            · rename_i hfull
              obtain rfl : pct = .finite 100 := hresult (Bool.and_eq_true_iff.mp hfull).1
              refine ⟨fun ids _ id' => ⟨Op.noConfusion, ?_⟩, fun _ _ => hpost _⟩
              rintro ⟨⟩
              exact ⟨trace ++ [⟨.readStage id, stage⟩, ⟨.stepDue id, due⟩], check,
                by simp [Advanced, monitor, Prog.tracing], hcheck⟩
            · exact hpost _

theorem wp_tickAll {call : Call} {trace : List (Sigma Op.Resp)} (ids : List String) :
    (tickAll config ids).wp (monitor config) (fun _ _ => True) (call, trace) := by
  induction ids generalizing trace with
  | nil => trivial
  | cons id ids ih =>
    rw [tickAll, Prog.wp_bind]
    exact wp_tick fun _ => ih

theorem body_wp (call : Call) :
    (call.body config).wp (monitor config) ((monitor config).fin call)
      ((monitor config).init call) := by
  have hother : (∀ ids, call ≠ .tickAll ids) →
      (call.body config).wp (monitor config) ((monitor config).fin call)
        ((monitor config).init call) := by
    refine fun hcall => Prog.wp_tracing ?_ fun _ _ _ => trivial
    exact Prog.all_of_forall fun e trace ids h => absurd h (hcall ids)
  cases call with
  | tickAll ids =>
    rw [Call.body, Prog.wp_bind]
    exact Prog.wp_mono (wp_tickAll ids) fun _ _ _ => trivial
  | rollback id => exact hother (by simp)
  | promote id => exact hother (by simp)
  | advance id => exact hother (by simp)
  | recordResult id backend success latencyMs => exact hother (by simp)
  | routeRequest id seed => exact hother (by simp)

theorem invariant :
    (machine config).Invariant (monitor config) (fun _ _ => True) (fun _ => True) where
  body := body_wp
  start _ _ _ _ _ _ := trivial
  step _ _ _ _ _ _ _ _ _ _ _ hx _ _ _ _ := ⟨answers_exec hx, trivial⟩

theorem exists_fail (config : String → CanaryConfig) {t : DeployerTask} {reason : String}
    (hticks : Ticks a p t (.fail id reason)) :
    ∃ q, (machine config).step a p = some q ∧ q.state.stage id = .failed reason := by
  obtain ⟨i, now, ids, rfl, ht, -, hh⟩ := hticks
  cases hprog : t.prog with
  | ret answer => simp [hprog] at hh
  | op e next =>
    obtain rfl : e = .fail id reason := by simpa [hprog] using hh
    refine ⟨⟨p.state.setStage id (.failed reason),
      p.tasks.set i (t.advance (.fail id reason) () (next ()))⟩, ?_, stage_setStage⟩
    simp [Machine.step, ht, hprog, machine, Op.exec]

section Steps

variable (hrun : (machine config).run as (startPool config createdAt) = some p) {t : DeployerTask}
  {e : Op}

include hrun

/-- A tick acts as it may, whatever the others do. -/
theorem allowed_of_ticks (hticks : Ticks a p t e) (id : String) :
    e ≠ .rollback id ∧ (e = .promote id → Checked config id (.finite 100) t.trace) := by
  obtain ⟨i, now, ids, -, ht, hcall, hh⟩ := hticks
  have hfollows := (invariant.run Machine.guarded_true hrun (fun _ h => nomatch h) trivial).2 t
    (List.mem_of_getElem? ht)
  have hallowed := hfollows.allowed_head hh
  rw [monitor, Task.view_tracing] at hallowed
  exact hallowed ids hcall id

theorem stopped_of_rollback : ∀ id ∈ p.log rollbacks, ∀ pct, p.state.stage id ≠ .running pct :=
  Machine.run_logged (Q := fun id s => ∀ pct, s.stage id ≠ .running pct)
    (fun _ _ _ _ _ _ hx => ⟨stopped_of_rollbacks hx, fun _ => stopped_exec hx⟩)
    hrun fun _ h => nomatch h

/-- What a tick does to the stage of a deployment that was rolled back. -/
theorem stage_of_ticks {q : DeployerPool} (hticks : Ticks a p t e)
    (hstep : (machine config).step a p = some q) (hrolled : id ∈ p.log rollbacks)
    (hcomplete : e ≠ .promote id) (hfail : ∀ reason, e = .fail id reason →
      p.state.stage id = .failed reason) : q.state.stage id = p.state.stage id := by
  obtain ⟨hrollback, -⟩ := allowed_of_ticks hrun hticks id
  have hstopped := stopped_of_rollback hrun id hrolled
  obtain ⟨i, now, ids, rfl, ht, -, hh⟩ := hticks
  cases Machine.step_notes hstep with
  | nothing _ _ _ hstart => nomatch hstart
  | operation i' now' t' e' r new ha ht' hh' hx _ _ =>
    cases ha
    cases ht.symm.trans ht'
    cases Option.some.inj (hh.symm.trans hh')
    exact stage_exec hx hcomplete hrollback hstopped hfail

theorem respects_iff : Respects config a p ↔ Unraced a p := by
  constructor
  · intro h
    refine ⟨fun t id hticks => ?_, fun t id reason hticks hrolled => ?_⟩
    · obtain ⟨before, check, hadvanced, -⟩ := (allowed_of_ticks hrun hticks id).2 rfl
      exact ⟨before ++ check, _, hadvanced, (h.complete t id hticks).1⟩
    · obtain ⟨q, hstep, hstage⟩ := exists_fail config hticks
      rw [← h.rollback t _ q hticks hstep id hrolled, hstage]
  · intro h
    refine ⟨fun t e q hticks hstep id hrolled => ?_, fun t id hticks => ?_⟩
    · refine stage_of_ticks hrun hticks hstep hrolled ?_ ?_
      · rintro rfl
        obtain ⟨-, pct, -, hrunning⟩ := h.complete t id hticks
        exact stopped_of_rollback hrun id hrolled pct hrunning
      · rintro reason rfl
        exact h.fail t id reason hticks hrolled
    · obtain ⟨before, check, hadvanced, hcheck⟩ := (allowed_of_ticks hrun hticks id).2 rfl
      obtain ⟨before', pct, hadvanced', hrunning⟩ := h.complete t id hticks
      obtain ⟨-, htail⟩ := List.append_inj' (hadvanced.symm.trans hadvanced') rfl
      obtain rfl : F64.finite 100 = pct := by simpa using htail
      exact ⟨hrunning, _, before, check, hadvanced, hcheck⟩

end Steps

end Tasks

/-- A tick undoes no rollback, and completes what runs at 100 percent and is healthy, exactly in
the runs in which it promotes what is still as its advance has left it, and fails what was not
rolled back. -/
theorem ticks_respect_iff (config : String → CanaryConfig) (createdAt : String → Instant)
    (as : List DeployerAction) :
    (machine config).Guarded (Respects config) as (startPool config createdAt) ↔
      (machine config).Guarded Unraced as (startPool config createdAt) := by
  have hiff : (machine config).Always (fun p => ∀ a, Respects config a p ↔ Unraced a p) as
      (startPool config createdAt) :=
    Machine.always_of_run fun _ _ hrun _ => respects_iff hrun
  exact ⟨fun h => h.imp hiff fun a p hp => (hp a).mp, fun h => h.imp hiff fun a p hp => (hp a).mpr⟩

/-- One step takes it to all requests. -/
def almostThere : CanaryConfig where
  initialTrafficPct := .finite 90
  stepPct := .finite 10
  stepIntervalSecs := 0
  maxErrorRate := .finite (1 / 2)
  maxP99LatencyMs := .finite 1000
  autoPromote := true

/-- A tick advances a deployment, which is then rolled back. -/
def rolledBackInTick : List DeployerAction :=
  .start (.tickAll ["a"]) :: List.replicate 7 (.step 0 0) ++ [.start (.rollback "a"), .step 1 0]

/-- It is completed nevertheless. -/
theorem rolledBackInTick_not_respected :
    ¬(machine fun _ => almostThere).Guarded (Respects fun _ => almostThere)
      (rolledBackInTick ++ [.step 0 0]) (startPool (fun _ => almostThere) fun _ => 0) := by
  intro hrespects
  have hbefore : ((machine fun _ => almostThere).run rolledBackInTick
      (startPool (fun _ => almostThere) fun _ => 0)).map (fun p =>
        (p.state.stage "a", p.log rollbacks, p.tasks[0]?.map fun t => (t.call, t.prog.head?))) =
      some (.rollingBack, ["a"], some (.tickAll ["a"], some (.promote "a"))) := by
    decide +kernel
  have hafter : ((machine fun _ => almostThere).run (rolledBackInTick ++ [.step 0 0])
      (startPool (fun _ => almostThere) fun _ => 0)).map (fun p => p.state.stage "a") =
      some .complete := by
    decide +kernel
  obtain ⟨p, hp, hshown⟩ := Option.map_eq_some_iff.mp hbefore
  obtain ⟨q, hq, hcomplete⟩ := Option.map_eq_some_iff.mp hafter
  obtain ⟨hstage, hshown⟩ := Prod.mk.inj hshown
  obtain ⟨hrolled, htask⟩ := Prod.mk.inj hshown
  obtain ⟨t, ht, hcall⟩ := Option.map_eq_some_iff.mp htask
  obtain ⟨hcall, hhead⟩ := Prod.mk.inj hcall
  rw [Machine.run_concat, hp] at hq
  have hkept := (hrespects.at hp).rollback t _ q ⟨0, 0, ["a"], rfl, ht, hcall, hhead⟩ hq "a"
    (hrolled ▸ List.mem_singleton_self "a")
  rw [hstage, hcomplete] at hkept
  cases hkept

end HelixRouter.CanaryDeploys
