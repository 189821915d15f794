import HelixRouter.CanaryControl.CanaryController

namespace HelixRouter.CanaryControl

open Floats Interleaving

/-- A decision is final, and an active canary is decided by its own counters. -/
structure Settled (config : CanaryConfig) (s s' : CanaryState) : Prop where
  final : s = .promoted ∨ s = .rolledBack → s' = s
  justified : ∀ requestsSent errors, s = .active requestsSent errors → s'.isActive = false →
    config.minRequestsBeforePromote ≤ requestsSent ∧
      (s' = .promoted ∧ (errorRate requestsSent errors).le config.errorRateThreshold ∨
        s' = .rolledBack ∧ config.errorRateThreshold.lt (errorRate requestsSent errors))

def Settles (config : CanaryConfig) (a : ControllerAction) (p : ControllerPool) : Prop :=
  ∀ q, (machine config).step a p = some q → Settled config p.state.state q.state.state

/-- A decision is applied where it has been applied before, or where a canary is active whose
counters, by then, decide the same, by a threshold that is a number. -/
def StillDecided (config : CanaryConfig) (a : ControllerAction) (p : ControllerPool) : Prop :=
  ∀ i t decision, a = .step i () → p.tasks[i]? = some t →
    t.prog.head? = some (.apply decision) →
    decision.outcome p.state.state = p.state.state ∨
      config.errorRateThreshold ≠ .nan ∧ p.state.state.evaluate config = decision

section States

variable {config : CanaryConfig} {s : CanaryState} {decision : CanaryDecision}
  {requestsSent errors : UInt64}

theorem settled_of_eq {s' : CanaryState} (h : s' = s) : Settled config s s' := by
  subst h
  refine ⟨fun _ => rfl, fun requestsSent errors hs hactive => ?_⟩
  rw [hs] at hactive
  cases hactive

theorem errorRate_ne_nan : errorRate requestsSent errors ≠ .nan := by
  unfold errorRate
  split
  · exact F64.noConfusion
  · rename_i hpos
    obtain ⟨p, hp, -⟩ := F64.ofU64_eq_finite errors
    obtain ⟨q, hq, hq0⟩ := F64.ofU64_eq_finite requestsSent
    rw [hp, hq, F64.div, if_neg (hq0 hpos)]
    exact F64.ofRat_ne_nan _

/-- The decisions of an active canary, in terms of its counters. -/
theorem evaluate_active :
    ((CanaryState.active requestsSent errors).evaluate config = .promote ↔
      config.minRequestsBeforePromote ≤ requestsSent ∧
        config.errorRateThreshold.lt (errorRate requestsSent errors) = false) ∧
    ((CanaryState.active requestsSent errors).evaluate config = .rollback ↔
      config.minRequestsBeforePromote ≤ requestsSent ∧
        config.errorRateThreshold.lt (errorRate requestsSent errors) = true) := by
  rw [CanaryState.evaluate, ← UInt64.not_lt]
  by_cases hmin : requestsSent < config.minRequestsBeforePromote
  · simp [hmin]
  · by_cases hrate : config.errorRateThreshold.lt (errorRate requestsSent errors) = true
    · simp [hmin, hrate]
    · simp [hmin, hrate]

/-- An active canary may be decided where its counters decide so. -/
theorem settled_active (hdecision : decision ≠ .continue_) :
    Settled config (.active requestsSent errors) (decision.outcome (.active requestsSent errors)) ↔
      config.errorRateThreshold ≠ .nan ∧
        (CanaryState.active requestsSent errors).evaluate config = decision := by
  cases decision with
  | continue_ => exact absurd rfl hdecision
  | promote =>
    rw [evaluate_active.1]
    constructor
    · intro h
      obtain ⟨hmin, ⟨-, hle⟩ | ⟨hrolled, -⟩⟩ := h.justified requestsSent errors rfl rfl
      · obtain ⟨hnumber, hlt⟩ := (F64.le_iff_not_lt errorRate_ne_nan).mp hle
        exact ⟨hnumber, hmin, hlt⟩
      · cases hrolled
    · rintro ⟨hnumber, hmin, hlt⟩
      refine ⟨fun h => by simp at h, ?_⟩
      rintro _ _ ⟨⟩ -
      exact ⟨hmin, .inl ⟨rfl, (F64.le_iff_not_lt errorRate_ne_nan).mpr ⟨hnumber, hlt⟩⟩⟩
  | rollback =>
    rw [evaluate_active.2]
    constructor
    · intro h
      obtain ⟨hmin, ⟨hpromoted, -⟩ | ⟨-, hlt⟩⟩ := h.justified requestsSent errors rfl rfl
      · cases hpromoted
      · refine ⟨fun hnan => ?_, hmin, hlt⟩
        rw [hnan] at hlt
        cases hlt
    · rintro ⟨-, hmin, hlt⟩
      refine ⟨fun h => by simp at h, ?_⟩
      rintro _ _ ⟨⟩ -
      exact ⟨hmin, .inr ⟨rfl, hlt⟩⟩

theorem settled_outcome (hs : s ≠ .inactive) :
    Settled config s (decision.outcome s) ↔
      decision.outcome s = s ∨
        config.errorRateThreshold ≠ .nan ∧ s.evaluate config = decision := by
  by_cases hkept : decision.outcome s = s
  · exact ⟨fun _ => .inl hkept, fun _ => settled_of_eq hkept⟩
  · rw [or_iff_right hkept]
    have hdecision : decision ≠ .continue_ := by
      rintro rfl
      exact hkept rfl
    cases s with
    | inactive => exact absurd rfl hs
    | active requestsSent errors => exact settled_active hdecision
    | promoted =>
      exact ⟨fun h => absurd (h.final (.inl rfl)) hkept, fun h => absurd h.2.symm hdecision⟩
    | rolledBack =>
      exact ⟨fun h => absurd (h.final (.inr rfl)) hkept, fun h => absurd h.2.symm hdecision⟩

theorem settled_activate (g : Inner) : Settled config g.state g.activate.state := by
  unfold Inner.activate
  split
  · rename_i hinactive
    rw [hinactive]
    exact ⟨fun h => by simp at h, fun _ _ h => nomatch h⟩
  · exact settled_of_eq rfl

/-- A result is counted and nothing else. -/
theorem settled_recordResult (route : CanaryRoute) (success : Bool) (g : Inner) :
    Settled config g.state (g.recordResult route success).state := by
  cases route with
  | stable => exact settled_of_eq rfl
  | canary =>
    cases hs : g.state with
    | active requestsSent errors =>
      refine ⟨fun h => by simp at h, fun _ _ _ hactive => ?_⟩
      simp [Inner.recordResult, hs, CanaryState.isActive] at hactive
    | inactive => exact settled_of_eq (by simp [Inner.recordResult, hs])
    | promoted => exact settled_of_eq (by simp [Inner.recordResult, hs])
    | rolledBack => exact settled_of_eq (by simp [Inner.recordResult, hs])

/-- Only where a decision is applied is there anything to ask. -/
theorem settled_exec {e : Op} {r : e.Resp} {g g' : Inner} {new : List Call}
    (hx : e.exec () g = some (r, g', new))
    (happly : ∀ decision, e = .apply decision → Settled config g.state (decision.outcome g.state)) :
    Settled config g.state g'.state := by
  cases e with
  | read =>
    cases hx
    exact settled_of_eq rfl
  | activate =>
    cases hx
    exact settled_activate g
  | recordResult route success =>
    cases hx
    exact settled_recordResult route success g
  | apply decision =>
    cases hx
    exact happly decision rfl

end States

section Tasks

/-- What a call has seen of the state. -/
def seen : (e : Op) → e.Resp → List CanaryState
  | .read, g => [g.state]
  | _, _ => []

/-- A decision is applied by a call that has seen the canary activated. -/
def monitor : Monitor Op Op.Resp Call Answer (List CanaryState) where
  init _ := []
  next v e r := v ++ seen e r
  allow v e := ∀ decision, e = .apply decision → ∃ s ∈ v, s ≠ .inactive
  may _ _ _ := True
  fin _ _ _ := True

variable {config : CanaryConfig} {p q : ControllerPool} {a : ControllerAction}
  {as : List ControllerAction}

theorem body_wp (call : Call) :
    (call.body config).wp monitor (monitor.fin call) (monitor.init call) := by
  have hallow : ∀ (v : List CanaryState) (e : Op), (∀ decision, e ≠ .apply decision) →
      monitor.allow v e := fun v e he decision heq => absurd heq (he decision)
  cases call with
  | activate => exact ⟨hallow _ _ (by simp), fun _ _ => trivial⟩
  | route requestId => exact ⟨hallow _ _ (by simp), fun _ _ => trivial⟩
  | recordResult cohort success => exact ⟨hallow _ _ (by simp), fun _ _ => trivial⟩
  | evaluate => exact ⟨hallow _ _ (by simp), fun _ _ => trivial⟩
  | metrics => exact ⟨hallow _ _ (by simp), fun _ _ => trivial⟩
  | autoAdvance =>
    simp only [Call.body, autoAdvance, evaluate, Prog.wp_bind, Prog.wp_perform]
    refine ⟨hallow _ _ (by simp), fun g _ => ?_⟩
    have hactive : g.state.evaluate config ≠ .continue_ →
        ∃ s ∈ monitor.next (monitor.init .autoAdvance) .read g, s ≠ .inactive := by
      intro hdecided
      refine ⟨g.state, List.mem_singleton_self _, fun hinactive => hdecided ?_⟩
      rw [hinactive]
      rfl
    simp only [Prog.wp_pure]
    cases hdecision : g.state.evaluate config with
    | promote => exact ⟨fun _ _ => hactive (by simp [hdecision]), fun _ _ => trivial⟩
    | rollback => exact ⟨fun _ _ => hactive (by simp [hdecision]), fun _ _ => trivial⟩
    | continue_ => trivial

/-- Once activated, a canary stays so. -/
theorem activated_exec {e : Op} {r : e.Resp} {g g' : Inner} {new : List Call}
    (hx : e.exec () g = some (r, g', new)) :
    (∀ s ∈ seen e r, s ≠ .inactive → g'.state ≠ .inactive) ∧
      (g.state ≠ .inactive → g'.state ≠ .inactive) := by
  cases e with
  | read =>
    cases hx
    exact ⟨fun s hs hactive => List.mem_singleton.mp hs ▸ hactive, id⟩
  | activate =>
    cases hx
    refine ⟨fun _ hs => (nomatch hs), fun hactive => ?_⟩
    rwa [Inner.activate, if_neg hactive]
  | recordResult route success =>
    cases hx
    refine ⟨fun _ hs => (nomatch hs), fun hactive => ?_⟩
    cases route with
    | stable => exact hactive
    | canary => cases hs : g.state <;> simp [Inner.recordResult, hs] at hactive ⊢
  | apply decision =>
    cases hx
    refine ⟨fun _ hs => (nomatch hs), fun hactive => ?_⟩
    cases decision with
    | promote => exact CanaryState.noConfusion
    | rollback => exact CanaryState.noConfusion
    | continue_ => exact hactive

theorem invariant :
    (machine config).Invariant monitor (fun _ _ => True) (fun _ => True) where
  body := body_wp
  start _ _ _ _ _ _ := trivial
  step _ _ _ _ _ _ _ _ _ _ _ _ _ _ _ _ := ⟨trivial, trivial⟩

/-- A call that is about to apply a decision finds the canary activated. -/
theorem activated_of_apply (hrun : (machine config).run as startPool = some p) {t : ControllerTask}
    {decision : CanaryDecision} (ht : t ∈ p.tasks) (hh : t.prog.head? = some (.apply decision)) :
    p.state.state ≠ .inactive := by
  have hfollows := (invariant.run Machine.guarded_true hrun (fun _ h => nomatch h) trivial).2 t ht
  obtain ⟨s, hs, hactive⟩ := hfollows.allowed_head hh decision rfl
  have hview : t.view monitor = monitor.init t.call ++ t.log seen :=
    t.view_log monitor id seen fun _ _ _ => rfl
  rw [hview] at hs
  have hlogged := Machine.run_logged
    (Q := fun s g => s ≠ CanaryState.inactive → g.state ≠ CanaryState.inactive) (f := seen)
    (fun e input g r g' new hx => ?_) hrun fun _ h => nomatch h
  · exact hlogged s (Pool.mem_log.mpr ⟨t, ht, hs⟩) hactive
  · obtain ⟨hseen, hkept⟩ := activated_exec hx
    exact ⟨hseen, fun s hq hs => hkept (hq hs)⟩

theorem settles_iff (hrun : (machine config).run as startPool = some p) :
    Settles config a p ↔ StillDecided config a p := by
  constructor
  · rintro hsettles i t decision rfl ht hh
    rw [← settled_outcome (activated_of_apply hrun (List.mem_of_getElem? ht) hh)]
    cases hprog : t.prog with
    | ret answer => simp [hprog] at hh
    | op e next =>
      obtain rfl : e = .apply decision := by simpa [hprog] using hh
      have hstep : (machine config).step (.step i ()) p =
          some ⟨{ p.state with state := decision.outcome p.state.state },
            p.tasks.set i (t.advance (.apply decision) () (next ()))⟩ := by
        simp [Machine.step, ht, hprog, machine, Op.exec]
      exact hsettles _ hstep
  · intro hstill q hstep
    cases Machine.step_notes hstep with
    | nothing _ hstate _ _ => exact settled_of_eq (by rw [hstate])
    | operation i input t e r new ha ht hh hx _ _ =>
      refine settled_exec hx ?_
      rintro decision rfl
      rw [settled_outcome (activated_of_apply hrun (List.mem_of_getElem? ht) hh)]
      exact hstill i t decision ha ht hh

end Tasks

/-- Decisions are final and justified exactly in the runs in which each, when it is applied,
would be made again or has been applied already. -/
theorem decisions_settled_iff (config : CanaryConfig) (as : List ControllerAction) :
    (machine config).Guarded (Settles config) as startPool ↔
      (machine config).Guarded (StillDecided config) as startPool := by
  have hiff : (machine config).Always
      (fun p => ∀ a, Settles config a p ↔ StillDecided config a p) as startPool :=
    Machine.always_of_run fun _ _ hrun _ => settles_iff hrun
  exact ⟨fun h => h.imp hiff fun a p hp => (hp a).mp, fun h => h.imp hiff fun a p hp => (hp a).mpr⟩

/-- One result decides. -/
def oneResult : CanaryConfig :=
  { minRequestsBeforePromote := 1, errorRateThreshold := .finite (1 / 2) }

/-- An advance decides for a canary that then fails, and is rolled back by another advance. -/
def overtaken : List ControllerAction :=
  [.start .activate, .step 0 (), .start (.recordResult .canary true), .step 1 (),
    .start .autoAdvance, .step 2 (),
    .start (.recordResult .canary false), .step 3 (),
    .start (.recordResult .canary false), .step 4 (),
    .start .autoAdvance, .step 5 (), .step 5 ()]

/-- What was rolled back is promoted. -/
theorem overtaken_not_settled :
    ¬(machine oneResult).Guarded (Settles oneResult) (overtaken ++ [.step 2 ()]) startPool := by
  intro hsettles
  have hrolled : ((machine oneResult).run overtaken startPool).map (·.state.state) =
      some .rolledBack := by
    decide +kernel
  have hpromoted : ((machine oneResult).run (overtaken ++ [.step 2 ()]) startPool).map
      (·.state.state) = some .promoted := by
    decide +kernel
  obtain ⟨p, hp, hstate⟩ := Option.map_eq_some_iff.mp hrolled
  obtain ⟨q, hq, hstate'⟩ := Option.map_eq_some_iff.mp hpromoted
  rw [Machine.run_concat, hp] at hq
  have hfinal := (hsettles.at hp q hq).final (.inr hstate)
  rw [hstate, hstate'] at hfinal
  cases hfinal

end HelixRouter.CanaryControl
