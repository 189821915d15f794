import HelixRouter.Router.Threshold

namespace HelixRouter.Threshold

open Interleaving

/-- One tick, with nothing else going on. -/
def tick (env : Env) (s : Inner) : Option Inner := (maybeAdaptThreshold.alone Op.exec env s).map (·.2)

def ticks (envs : List Env) (s : Inner) : Option Inner := envs.foldlM (fun s env => tick env s) s

def triggerMs (cfg : RouterConfig) : UInt64 :=
  castU64 (toRat cfg.cpuP95BudgetMs * cfg.adaptiveP95ThresholdFactor)

/-- Enough samples, and a p95 that is neither above the trigger nor over the band. -/
def Healthy (cfg : RouterConfig) (env : Env) : Prop :=
  ∃ count p95, env.cpuPoolLatency = some (count, p95) ∧ 10 ≤ count ∧ p95 ≤ triggerMs cfg ∧
    p95 < castU64 (toRat cfg.cpuP95BudgetMs * (11 / 10))

def Overloaded (cfg : RouterConfig) (env : Env) : Prop :=
  ∃ count p95, env.cpuPoolLatency = some (count, p95) ∧ 10 ≤ count ∧ triggerMs cfg < p95

/-- A raise keeps to the cap and is not lost to the cast. -/
def CanRise (cfg : RouterConfig) (raises : Nat) (t : UInt64) : Prop :=
  t.toNat ≤ 10 * cfg.spawnThreshold.toNat ∧
    (t.toNat = 10 * cfg.spawnThreshold.toNat ∨
      t.toNat < u64Max ∧ 1 ≤ toRat t * raiseStep cfg raises)

section Tick

variable {env : Env} {s : Inner}

theorem tick_overloaded (hon : s.cfg.enableAdaptiveThreshold = true) (hfree : s.cfgLocked = false)
    (h : Overloaded s.cfg env) : tick env s = some { s with
      consecutiveRaises := s.consecutiveRaises + 1
      adaptiveSpawnThreshold := raisedThreshold s.cfg (raiseStep s.cfg s.consecutiveRaises)
        s.adaptiveSpawnThreshold } := by
  obtain ⟨count, p95, hl, hc, hp⟩ := h
  have hfew : ¬ count < 10 := Nat.not_lt.mpr hc
  have hhigh : castU64 (toRat s.cfg.cpuP95BudgetMs * s.cfg.adaptiveP95ThresholdFactor) < p95 := hp
  simp only [tick, maybeAdaptThreshold, Op.run, Prog.alone_perform_bind, Prog.alone_pure, Op.exec,
    hfree, Bool.false_eq_true, if_false, Option.bind_some, hon, if_true, hl, if_neg hfew, if_pos hhigh, Option.map_some]

theorem tick_healthy (hon : s.cfg.enableAdaptiveThreshold = true) (hfree : s.cfgLocked = false)
    (h : Healthy s.cfg env) : ∃ s', tick env s = some s' ∧ s'.cfg = s.cfg ∧
      s'.cfgLocked = false ∧
      s'.adaptiveSpawnThreshold = decayedThreshold s.cfg s.adaptiveSpawnThreshold := by
  obtain ⟨count, p95, hl, hc, hp, hband⟩ := h
  have hfew : ¬ count < 10 := Nat.not_lt.mpr hc
  have hhigh : ¬ castU64 (toRat s.cfg.cpuP95BudgetMs * s.cfg.adaptiveP95ThresholdFactor) < p95 :=
    UInt64.not_lt.mpr hp
  simp only [tick, maybeAdaptThreshold, Op.run, Prog.alone_perform_bind, Op.exec, hfree,
    Bool.false_eq_true, if_false, Option.bind_some, hon, if_true, hl, if_neg hfew, if_neg hhigh, if_pos hband]
  split
  · exact ⟨_, rfl, rfl, rfl, rfl⟩
  · exact ⟨_, rfl, rfl, rfl, rfl⟩

end Tick

/-- A decay moves the threshold down, however small it is. -/
theorem decayed_lt {cfg : RouterConfig} {t : UInt64} (hv : cfg.Valid) (hlt : cfg.spawnThreshold < t) :
    cfg.spawnThreshold ≤ decayedThreshold cfg t ∧ decayedThreshold cfg t < t := by
  have hpos : 0 < toRat t := Nat.cast_pos.mpr (Nat.zero_lt_of_lt (UInt64.lt_iff_toNat_lt.mp hlt))
  have hunit : clampUnit cfg.adaptiveStep = cfg.adaptiveStep := by
    rw [clampUnit, min_eq_left hv.step_le, max_eq_right hv.step_pos.le]
  have hdown : toRat t * (1 - cfg.adaptiveStep * adaptiveDecayRate) < toRat t := by
    have hd : 0 < cfg.adaptiveStep * adaptiveDecayRate :=
      mul_pos hv.step_pos (by norm_num [adaptiveDecayRate])
    have := mul_pos hpos hd
    linarith
  have hcast := castU64_lt (UInt64.lt_of_le_of_lt (UInt64.zero_le) hlt) hdown
  rw [decayedThreshold, if_pos hlt]
  simp only [hunit, UInt64.le_iff_toNat_le, UInt64.lt_iff_toNat_lt, toNat_max] at hlt hcast ⊢
  omega

theorem raised_iff {cfg : RouterConfig} {t : UInt64} {raises : Nat} :
    (t ≤ raisedThreshold cfg (raiseStep cfg raises) t ∧
      (t.toNat ≠ 10 * cfg.spawnThreshold.toNat → t < raisedThreshold cfg (raiseStep cfg raises) t)) ↔
      CanRise cfg raises t := by
  have hstep := raiseStep_nonneg cfg raises
  have hle : t ≤ castU64 (toRat t * (1 + raiseStep cfg raises)) := by
    apply le_castU64
    have := mul_nonneg (toRat_nonneg t) hstep
    linarith
  have hlt : t < castU64 (toRat t * (1 + raiseStep cfg raises)) ↔
      t.toNat < u64Max ∧ 1 ≤ toRat t * raiseStep cfg raises := by
    rw [lt_castU64_iff, mul_add, mul_one, add_le_add_iff_left]
  have hten : (10 : UInt64).toNat = 10 := rfl
  have hcast := toNat_le_u64Max (castU64 (toRat t * (1 + raiseStep cfg raises)))
  rw [CanRise, ← hlt]
  simp only [raisedThreshold, UInt64.le_iff_toNat_le, UInt64.lt_iff_toNat_lt, toNat_min,
    toNat_saturatingMul, hten] at hle ⊢
  omega

/-- Healthy ticks, one after the other, come down to the configured threshold. -/
theorem ticks_healthy {envs : List Env} {s : Inner} (hv : s.cfg.Valid)
    (hon : s.cfg.enableAdaptiveThreshold = true) (hfree : s.cfgLocked = false)
    (hle : s.cfg.spawnThreshold ≤ s.adaptiveSpawnThreshold)
    (hlen : s.adaptiveSpawnThreshold.toNat - s.cfg.spawnThreshold.toNat ≤ envs.length)
    (h : ∀ env ∈ envs, Healthy s.cfg env) :
    ∃ s', ticks envs s = some s' ∧ s'.adaptiveSpawnThreshold = s.cfg.spawnThreshold := by
  induction envs generalizing s with
  | nil =>
    refine ⟨s, rfl, ?_⟩
    rw [UInt64.le_iff_toNat_le] at hle
    exact UInt64.toNat_inj.mp (Nat.le_antisymm (Nat.le_of_sub_eq_zero (Nat.le_zero.mp hlen)) hle)
  | cons env envs ih =>
    obtain ⟨s1, htick, hcfg, hfree1, ht⟩ := tick_healthy hon hfree (h env List.mem_cons_self)
    have hnext : s1.cfg.spawnThreshold ≤ s1.adaptiveSpawnThreshold ∧
        s1.adaptiveSpawnThreshold.toNat - s1.cfg.spawnThreshold.toNat ≤ envs.length := by
      rw [List.length_cons] at hlen
      rw [hcfg, ht]
      by_cases hlt : s.cfg.spawnThreshold < s.adaptiveSpawnThreshold
      · obtain ⟨hfloor, hdown⟩ := decayed_lt hv hlt
        refine ⟨hfloor, ?_⟩
        rw [UInt64.lt_iff_toNat_lt] at hdown
        omega
      · rw [decayedThreshold, if_neg hlt]
        refine ⟨hle, ?_⟩
        rw [UInt64.lt_iff_toNat_lt] at hlt
        omega
    obtain ⟨s', hs', hspawn⟩ := ih (hcfg ▸ hv) (hcfg ▸ hon) hfree1 hnext.1 hnext.2 fun env he => by
      rw [hcfg]
      exact h env (List.mem_cons_of_mem _ he)
    refine ⟨s', ?_, hspawn.trans (by rw [hcfg])⟩
    rw [ticks, List.foldlM_cons, htick]
    exact hs'

/-- Healthy ticks settle, from every threshold above the configured one; an overloaded tick
makes headway exactly if the raise keeps to the cap and is not lost to the cast. -/
theorem adaptation_settles (s : Inner) (hv : s.cfg.Valid)
    (hon : s.cfg.enableAdaptiveThreshold = true) (hfree : s.cfgLocked = false)
    (hlt : s.cfg.spawnThreshold < s.adaptiveSpawnThreshold) :
    (∀ env, Healthy s.cfg env → ∃ s', tick env s = some s' ∧
      s.cfg.spawnThreshold ≤ s'.adaptiveSpawnThreshold ∧
      s'.adaptiveSpawnThreshold < s.adaptiveSpawnThreshold) ∧
    (∃ n, ∀ envs : List Env, n ≤ envs.length → (∀ env ∈ envs, Healthy s.cfg env) →
      ∃ s', ticks envs s = some s' ∧ s'.adaptiveSpawnThreshold = s.cfg.spawnThreshold) ∧
    (∀ env, Overloaded s.cfg env → ∃ s', tick env s = some s' ∧
      ((s.adaptiveSpawnThreshold ≤ s'.adaptiveSpawnThreshold ∧
          (s.adaptiveSpawnThreshold.toNat ≠ 10 * s.cfg.spawnThreshold.toNat →
            s.adaptiveSpawnThreshold < s'.adaptiveSpawnThreshold)) ↔
        CanRise s.cfg s.consecutiveRaises s.adaptiveSpawnThreshold)) := by
  refine ⟨fun env henv => ?_,
    ⟨s.adaptiveSpawnThreshold.toNat - s.cfg.spawnThreshold.toNat, fun envs hlen henvs => ?_⟩,
    fun env henv => ?_⟩
  · obtain ⟨s', htick, _, _, ht⟩ := tick_healthy hon hfree henv
    obtain ⟨hfloor, hdown⟩ := decayed_lt hv hlt
    exact ⟨s', htick, ht ▸ hfloor, ht ▸ hdown⟩
  · exact ticks_healthy hv hon hfree (UInt64.le_of_lt hlt) hlen henvs
  · exact ⟨_, tick_overloaded hon hfree henv, raised_iff⟩

def raised : Inner := { Inner.new {} with adaptiveSpawnThreshold := 70000 }

theorem raised_settles : ∃ n, ∀ envs : List Env, n ≤ envs.length →
    (∀ env ∈ envs, Healthy raised.cfg env) →
    ∃ s', ticks envs raised = some s' ∧ s'.adaptiveSpawnThreshold = 60000 :=
  (adaptation_settles raised (by decide +kernel) rfl rfl (by decide)).2.1

def smallSteps : RouterConfig :=
  { inlineThreshold := 50, spawnThreshold := 100, adaptiveStep := 1 / 100 }

def overload : Env := { cpuPoolLatency := some (10, 1000) }

/-- After five raises of two percent, one of half a percent no longer moves a threshold of 110. -/
theorem raise_is_lost : smallSteps.Valid ∧ Overloaded smallSteps overload ∧
    (ticks (List.replicate 5 overload) (Inner.new smallSteps)).map (·.adaptiveSpawnThreshold) =
      some 110 ∧
    (ticks (List.replicate 6 overload) (Inner.new smallSteps)).map (·.adaptiveSpawnThreshold) =
      some 110 := by
  refine ⟨by decide +kernel, ⟨10, 1000, rfl, Nat.le_refl _, by decide +kernel⟩, ?_, ?_⟩
  · decide +kernel
  · decide +kernel

end HelixRouter.Threshold
