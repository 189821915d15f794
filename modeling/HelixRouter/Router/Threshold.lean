import HelixRouter.Interleaving.Sequential
import HelixRouter.Router.System

namespace HelixRouter.Threshold

open Interleaving

/-- Where the adapted threshold may be: on the configured one while adaptation is
off, otherwise between it and ten times it. -/
structure InRange (cfg : RouterConfig) (t : UInt64) : Prop where
  off : cfg.enableAdaptiveThreshold = false → t = cfg.spawnThreshold
  floor : cfg.enableAdaptiveThreshold = true → cfg.spawnThreshold ≤ t
  ceiling : cfg.enableAdaptiveThreshold = true → t ≤ saturatingMul cfg.spawnThreshold 10

theorem inRange_spawn (cfg : RouterConfig) : InRange cfg cfg.spawnThreshold :=
  ⟨fun _ => rfl, fun _ => UInt64.le_refl _, fun _ => le_saturatingMul _ (by decide)⟩

theorem clampUnit_nonneg (q : ℚ) : 0 ≤ clampUnit q := le_max_left _ _

theorem raiseStep_nonneg (cfg : RouterConfig) (raises : Nat) : 0 ≤ raiseStep cfg raises := by
  have := clampUnit_nonneg cfg.adaptiveStep
  unfold raiseStep
  split <;> linarith

theorem toRat_nonneg (a : UInt64) : 0 ≤ toRat a := Nat.cast_nonneg _

/-- A raise never goes down, nor above the ceiling. -/
theorem raised_inRange {cfg : RouterConfig} {t : UInt64} {step : ℚ} (hs : 0 ≤ step)
    (hon : cfg.enableAdaptiveThreshold = true) (h : InRange cfg t) :
    InRange cfg (raisedThreshold cfg step t) := by
  have ht : t ≤ castU64 (toRat t * (1 + step)) := by
    apply le_castU64
    have := mul_nonneg (toRat_nonneg t) hs
    linarith
  refine ⟨fun hoff => ?_, fun _ => ?_, fun _ => ?_⟩
  · rw [hon] at hoff
    cases hoff
  · exact Std.le_min_iff.mpr ⟨UInt64.le_trans (h.floor hon) ht, le_saturatingMul _ (by decide)⟩
  · exact Std.min_le_right

/-- A decay never goes up, nor below the configured threshold. -/
theorem decayed_inRange {cfg : RouterConfig} {t : UInt64}
    (hon : cfg.enableAdaptiveThreshold = true) (h : InRange cfg t) :
    InRange cfg (decayedThreshold cfg t) := by
  unfold decayedThreshold
  dsimp only
  split
  · rename_i hlt
    have hcast : castU64 (toRat t * (1 - clampUnit cfg.adaptiveStep * adaptiveDecayRate)) ≤ t := by
      apply castU64_le
      have hd : 0 ≤ clampUnit cfg.adaptiveStep * adaptiveDecayRate :=
        mul_nonneg (clampUnit_nonneg _) (by norm_num [adaptiveDecayRate])
      have := mul_nonneg (toRat_nonneg t) hd
      linarith
    refine ⟨fun hoff => ?_, fun _ => ?_, fun _ => ?_⟩
    · rw [hon] at hoff
      cases hoff
    · rw [UInt64.le_iff_toNat_le, toNat_max]
      exact Nat.le_max_right _ _
    · refine UInt64.le_trans ?_ (h.ceiling hon)
      rw [UInt64.le_iff_toNat_le, toNat_max]
      exact Nat.max_le.mpr ⟨UInt64.le_iff_toNat_le.mp hcast,
        UInt64.le_iff_toNat_le.mp (h.floor hon)⟩
  · exact h

/-- What a tick may leave of the threshold. -/
inductive Ticked (cfg : RouterConfig) (t : UInt64) : UInt64 → Prop
  | kept : Ticked cfg t t
  | raised (raises : Nat) (hon : cfg.enableAdaptiveThreshold = true) :
      Ticked cfg t (raisedThreshold cfg (raiseStep cfg raises) t)
  | decayed (hon : cfg.enableAdaptiveThreshold = true) : Ticked cfg t (decayedThreshold cfg t)

theorem Ticked.inRange {cfg : RouterConfig} {t t' : UInt64} (ht : Ticked cfg t t')
    (h : InRange cfg t) : InRange cfg t' := by
  cases ht with
  | kept => exact h
  | raised raises hon => exact raised_inRange (raiseStep_nonneg cfg raises) hon h
  | decayed hon => exact decayed_inRange hon h

/-- The cells a call may move, the lock free. -/
structure Cells (cfg : RouterConfig) (t : UInt64) (s : Inner) : Prop where
  live : s.cfg = cfg
  snapshot : s.cfgArc = cfg
  unlocked : s.cfgLocked = false
  threshold : s.adaptiveSpawnThreshold = t

/-- The configuration a patch leaves. -/
def patched (patch : RouterConfigPatch) (cfg : RouterConfig) : RouterConfig :=
  if (patch.candidate cfg).validate = .ok () then patch.candidate cfg else cfg

theorem patchConfig_wlp (patch : RouterConfigPatch) {cfg : RouterConfig} {t : UInt64} {s : Inner}
    (h : Cells cfg t s) :
    (patchConfig patch).wlp Op.exec (fun _ => Cells (patched patch cfg) t) s := by
  obtain ⟨rfl, harc, hl, rfl⟩ := h
  refine Prog.wlp_step fun _ cfg s1 _ hx => ?_
  simp only [Op.exec, hl, Bool.false_eq_true, if_false, Option.some.injEq, Prod.mk.injEq] at hx
  obtain ⟨rfl, rfl, -⟩ := hx
  unfold patched
  dsimp only
  split
  · rename_i e he
    refine Prog.wlp_step fun _ _ s2 _ hx => ?_
    cases hx
    simp only [he, reduceCtorEq, if_false]
    exact ⟨rfl, harc, rfl, rfl⟩
  · rename_i u hok
    refine Prog.wlp_step fun _ _ s2 _ hx => ?_
    cases hx
    refine Prog.wlp_step fun _ _ s3 _ hx => ?_
    cases hx
    refine Prog.wlp_step fun _ _ s4 _ hx => ?_
    cases hx
    simp only [hok, if_true]
    exact ⟨rfl, rfl, rfl, rfl⟩

theorem maybeAdaptThreshold_wlp {cfg : RouterConfig} {t : UInt64} {s : Inner}
    (h : Cells cfg t s) : maybeAdaptThreshold.wlp Op.exec
      (fun _ s' => ∃ t', Ticked cfg t t' ∧ Cells cfg t' s') s := by
  obtain ⟨rfl, harc, hl, rfl⟩ := h
  have hkept : ∃ t', Ticked s.cfg s.adaptiveSpawnThreshold t' ∧ Cells s.cfg t' s :=
    ⟨_, .kept, rfl, harc, hl, rfl⟩
  refine Prog.wlp_step fun _ cfg s1 _ hx => ?_
  simp only [Op.exec, hl, Bool.false_eq_true, if_false, Option.some.injEq, Prod.mk.injEq] at hx
  obtain ⟨rfl, rfl, -⟩ := hx
  split
  · rename_i hon
    refine Prog.wlp_step fun _ env s1 _ hx => ?_
    cases hx
    split
    · exact hkept
    · split
      · exact hkept
      · split
        · refine Prog.wlp_step fun _ raises s1 _ hx => ?_
          cases hx
          refine Prog.wlp_step fun _ _ s2 _ hx => ?_
          cases hx
          exact ⟨_, .raised _ hon, rfl, harc, hl, rfl⟩
        · split
          · refine Prog.wlp_step fun _ _ s1 _ hx => ?_
            cases hx
            refine Prog.wlp_step fun _ _ s2 _ hx => ?_
            cases hx
            split
            · intro _ _ s3 _ hx
              cases hx
              exact ⟨_, .decayed hon, rfl, harc, hl, rfl⟩
            · exact ⟨_, .decayed hon, rfl, harc, hl, rfl⟩
          · exact hkept
  · exact hkept

/-- The threshold a submission decides with, in the state as it is. -/
def effectiveThreshold (s : Inner) : UInt64 :=
  (effectiveCfg s.cfgArc s.adaptiveSpawnThreshold).spawnThreshold

/-- Off: exactly the configured threshold. On: between it and ten times it, and above
the inline threshold. -/
def Effective (p : RouterPool) : Prop :=
  InRange p.state.cfg (effectiveThreshold p.state) ∧
    (p.state.cfg.enableAdaptiveThreshold = true →
      p.state.cfg.inlineThreshold < effectiveThreshold p.state)

def Tunes : Call → Prop
  | .patchConfig _ | .maybeAdaptThreshold => True
  | _ => False

/-- A patch that is accepted leaves the threshold, adapted or not, in the range of
the merged configuration. -/
def PatchFits (c : Call) (p : RouterPool) : Prop :=
  ∀ patch, c = .patchConfig patch → (patch.candidate p.state.cfg).validate = .ok () →
    InRange (patch.candidate p.state.cfg) p.state.adaptiveSpawnThreshold

/-- Between calls both cells agree, the lock is free and the thresholds are in order. -/
structure Quiet (p : RouterPool) : Prop where
  cells : Cells p.state.cfg p.state.adaptiveSpawnThreshold p.state
  ordered : p.state.cfg.enableAdaptiveThreshold = true →
    p.state.cfg.inlineThreshold < p.state.cfg.spawnThreshold

theorem effective_iff {p : RouterPool} (h : Quiet p) :
    Effective p ↔ InRange p.state.cfg p.state.adaptiveSpawnThreshold :=
  ⟨fun he => he.1, fun hr => ⟨hr, fun hon => UInt64.lt_of_lt_of_le (h.ordered hon) (hr.floor hon)⟩⟩

theorem patched_ordered (patch : RouterConfigPatch) {cfg : RouterConfig}
    (h : cfg.enableAdaptiveThreshold = true → cfg.inlineThreshold < cfg.spawnThreshold) :
    (patched patch cfg).enableAdaptiveThreshold = true →
      (patched patch cfg).inlineThreshold < (patched patch cfg).spawnThreshold := by
  unfold patched
  split
  · rename_i hok
    exact fun _ => ((RouterConfig.validate_ok_iff _).mp hok).inline_lt_spawn
  · exact h

/-- One call, run alone: a tick keeps the threshold effective, a patch exactly if it fits. -/
theorem call_effective [F64Text] {c : Call} {envs : List Env} {p q : RouterPool} (hc : Tunes c)
    (hq : Quiet p) (he : Effective p) (h : machine.callAlone c envs p = some q) :
    Quiet q ∧ (Effective q ↔ PatchFits c p) := by
  have hr := (effective_iff hq).mp he
  cases c with
  | patchConfig patch =>
    have hw : (machine.body (.patchConfig patch)).wlp machine.exec (fun _ =>
        Cells (patched patch p.state.cfg) p.state.adaptiveSpawnThreshold) p.state :=
      (Prog.wlp_bind _ _ _ _).mpr (patchConfig_wlp patch hq.cells)
    obtain ⟨_, hcells⟩ := Machine.callAlone_ensures h hw
    have hcfg := hcells.live
    have ht := hcells.threshold
    have hq' : Quiet q := by
      refine ⟨⟨rfl, hcells.snapshot.trans hcfg.symm, hcells.unlocked, rfl⟩, ?_⟩
      rw [hcfg]
      exact patched_ordered patch hq.ordered
    refine ⟨hq', ?_⟩
    rw [effective_iff hq', hcfg, ht]
    unfold patched
    split
    · rename_i hok
      exact ⟨fun hf _ hp _ => by cases hp; exact hf, fun hf => hf patch rfl hok⟩
    · rename_i hbad
      exact ⟨fun _ _ hp hok => by cases hp; exact absurd hok hbad, fun _ => hr⟩
  | maybeAdaptThreshold =>
    have hw : (machine.body .maybeAdaptThreshold).wlp machine.exec (fun _ s' =>
        ∃ t', Ticked p.state.cfg p.state.adaptiveSpawnThreshold t' ∧ Cells p.state.cfg t' s')
        p.state := (Prog.wlp_bind _ _ _ _).mpr (maybeAdaptThreshold_wlp hq.cells)
    obtain ⟨_, t', ht, hcells⟩ := Machine.callAlone_ensures h hw
    have hcfg := hcells.live
    have hq' : Quiet q := by
      refine ⟨⟨rfl, hcells.snapshot.trans hcfg.symm, hcells.unlocked, rfl⟩, ?_⟩
      rw [hcfg]
      exact hq.ordered
    refine ⟨hq', iff_of_true ?_ fun _ hp => by cases hp⟩
    rw [effective_iff hq', hcfg, hcells.threshold]
    exact ht.inRange hr
  | _ => exact hc.elim

/-- Along patches and ticks of a fresh router, the threshold submissions decide with is
effective exactly if the router starts with its thresholds in order and every accepted
patch leaves the threshold in the range of the merged configuration. -/
theorem threshold_effective_iff [F64Text] {cfg : RouterConfig} {p0 : RouterPool}
    {calls : List (Call × List Env)} (hn : Router.new cfg = some p0)
    (hc : ∀ call ∈ calls, Tunes call.1) (hr : (machine.runCalls calls p0).isSome = true) :
    machine.Between Effective calls p0 ↔
      (cfg.enableAdaptiveThreshold = true → cfg.inlineThreshold < cfg.spawnThreshold) ∧
        machine.EachCall PatchFits calls p0 := by
  rw [Router.new_eq hn] at hr ⊢
  have hstart : Effective (startPool cfg) ↔
      (cfg.enableAdaptiveThreshold = true → cfg.inlineThreshold < cfg.spawnThreshold) :=
    ⟨fun he => he.2, fun ho => ⟨inRange_spawn cfg, ho⟩⟩
  have hstep := fun (ho : Quiet (startPool cfg)) (he : Effective (startPool cfg)) =>
    Machine.between_iff (fun c envs p q hm => call_effective (hc (c, envs) hm)) hr ho he
  constructor
  · intro hb
    have he := hb.start
    have ho := hstart.mp he
    exact ⟨ho, (hstep ⟨⟨rfl, rfl, rfl, rfl⟩, ho⟩ he).mp hb⟩
  · rintro ⟨ho, hg⟩
    exact (hstep ⟨⟨rfl, rfl, rfl, rfl⟩, ho⟩ (hstart.mpr ho)).mpr hg

/-- A tick that sees a p95 of five times the budget, and one that sees none. -/
def raiseThenDecay : List (Call × List Env) :=
  [(.maybeAdaptThreshold, List.replicate 4 { cpuPoolLatency := some (10, 1000) }),
   (.maybeAdaptThreshold, List.replicate 5 { cpuPoolLatency := some (10, 0) })]

theorem threshold_raised_then_decayed : ∃ p0, Router.new {} = some p0 ∧
    machine.Between Effective raiseThenDecay p0 := by
  have hn : Router.new {} = some (startPool {}) := rfl
  have hc : ∀ call ∈ raiseThenDecay, Tunes call.1 := by simp [raiseThenDecay, Tunes]
  have htick : ∀ p, PatchFits .maybeAdaptThreshold p := fun _ _ hp => by cases hp
  refine ⟨_, hn, (threshold_effective_iff hn hc (by decide +kernel)).mpr ⟨fun _ => by decide, ?_⟩⟩
  exact ⟨htick _, fun _ _ => ⟨htick _, fun _ _ => trivial⟩⟩

def onePatch (patch : RouterConfigPatch) : List (Call × List Env) :=
  [(.patchConfig patch, List.replicate 4 {})]

theorem not_between {patch : RouterConfigPatch} (h : ((Router.new {}).bind
    (machine.runCalls (onePatch patch))).any (fun q =>
      effectiveThreshold q.state != q.state.cfg.spawnThreshold &&
        (!q.state.cfg.enableAdaptiveThreshold ||
          effectiveThreshold q.state < q.state.cfg.spawnThreshold)) = true) :
    ∃ p0, Router.new {} = some p0 ∧ ¬ machine.Between Effective (onePatch patch) p0 := by
  obtain ⟨q, hq, hf⟩ := (Option.any_eq_true _ _).mp h
  obtain ⟨p0, hn, hr⟩ := Option.bind_eq_some_iff.mp hq
  refine ⟨p0, hn, fun hb => ?_⟩
  have he := hb.last hr
  simp only [Bool.and_eq_true, bne_iff_ne, Bool.or_eq_true, Bool.not_eq_true',
    decide_eq_true_eq] at hf
  cases hon : q.state.cfg.enableAdaptiveThreshold with
  | false => exact hf.1 (he.1.off hon)
  | true =>
    have hlt := hf.2.resolve_left (by simp [hon])
    exact absurd (he.1.floor hon) (UInt64.not_le.mpr hlt)

/-- Raising the configured threshold, or turning adaptation off while setting it, is
accepted and leaves the old threshold in force. -/
theorem patch_leaves_threshold :
    (∃ p0, Router.new {} = some p0 ∧
      ¬ machine.Between Effective (onePatch { spawnThreshold := some 80000 }) p0) ∧
    ∃ p0, Router.new {} = some p0 ∧ ¬ machine.Between Effective
      (onePatch { spawnThreshold := some 40000, enableAdaptiveThreshold := some false }) p0 :=
  ⟨not_between (by decide +kernel), not_between (by decide +kernel)⟩

end HelixRouter.Threshold
