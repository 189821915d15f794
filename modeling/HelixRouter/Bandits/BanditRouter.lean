import HelixRouter.Containers.Greatest
import HelixRouter.Floats.F64
import HelixRouter.Router.Numbers
import HelixRouter.Runs.Stepwise

namespace HelixRouter.Bandits

open Floats

inductive RoutingStrategy where
  | inline_
  | batch
  | stream
  deriving DecidableEq

structure BanditArm where
  strategy : RoutingStrategy
  rewards : List F64 := []
  pulls : Nat := 0
  totalReward : F64 := .finite 0
  deriving DecidableEq

def BanditArm.meanReward (arm : BanditArm) : F64 :=
  if arm.pulls = 0 then .finite 0 else arm.totalReward.div (F64.ofRat arm.pulls)

/-- The pulls are not decayed: they are evidence, not magnitude. -/
def BanditArm.applyDecay (arm : BanditArm) (decay : F64) : BanditArm :=
  { arm with totalReward := arm.totalReward.mul decay }

structure BanditConfig where
  explorationBonus : F64 := .finite 1
  warmUpPulls : UInt32 := 3
  decayFactor : F64 := .finite 1
  maxRewardHistory : Nat := 1000

structure BanditRouter where
  arms : List BanditArm
  totalPulls : Nat := 0
  config : BanditConfig
  warmUpIdx : Nat := 0

/-- The score of an arm, given all pulls and the bonus. -/
abbrev Ucb1 (κ : Type) := BanditArm → Nat → F64 → κ

/-- Adds a reward, and drops the oldest one where there are more than are kept. -/
def BanditArm.reward (arm : BanditArm) (maxRewardHistory : Nat) (reward : F64) : BanditArm :=
  let rewards := arm.rewards ++ [reward]
  { arm with
    pulls := arm.pulls + 1
    totalReward := arm.totalReward.add reward
    rewards := if maxRewardHistory < rewards.length then rewards.tail else rewards }

/-- Changes the first arm of a strategy. -/
def updateArm (strategy : RoutingStrategy) (f : BanditArm → BanditArm) :
    List BanditArm → List BanditArm
  | [] => []
  | arm :: arms =>
    if arm.strategy = strategy then f arm :: arms else arm :: updateArm strategy f arms

namespace BanditRouter

def new (config : BanditConfig) : BanditRouter where
  arms := [{ strategy := .inline_ }, { strategy := .batch }, { strategy := .stream }]
  config := config

def needsWarmUp (b : BanditRouter) (arm : BanditArm) : Bool :=
  arm.pulls < b.config.warmUpPulls.toNat

/-- The next arm from the cursor on, round the arms, that still needs to be warmed up. -/
def warmUpArm (b : BanditRouter) : Option (Nat × BanditArm) :=
  (List.range b.arms.length).findSome? fun offset =>
    let idx := (b.warmUpIdx + offset) % b.arms.length
    (b.arms[idx]?).bind fun arm => if b.needsWarmUp arm then some (idx, arm) else none

section Select

variable {κ : Type} [LinearOrder κ] (ucb1 : Ucb1 κ)

def score (b : BanditRouter) (arm : BanditArm) : κ :=
  ucb1 arm b.totalPulls b.config.explorationBonus

/-- The arm with the highest score. -/
def bestArm (b : BanditRouter) : Option BanditArm := b.arms.maxBy (b.score ucb1)

def select (b : BanditRouter) : RoutingStrategy × BanditRouter :=
  match if b.arms.any b.needsWarmUp then b.warmUpArm else none with
  | some (idx, arm) => (arm.strategy, { b with warmUpIdx := (idx + 1) % b.arms.length })
  | none => (((b.bestArm ucb1).map (·.strategy)).getD .inline_, b)

end Select

/-- There is no result where the number of pulls leaves its word. -/
def update (b : BanditRouter) (strategy : RoutingStrategy) (reward : F64) : Option BanditRouter :=
  let reward := reward.clamp (.finite 0) (.finite 1)
  let arms := if b.config.decayFactor.lt (.finite 1) then
    b.arms.map (·.applyDecay b.config.decayFactor) else b.arms
  if b.totalPulls < u64Max then
    some { b with
      totalPulls := b.totalPulls + 1
      arms := updateArm strategy (·.reward b.config.maxRewardHistory reward) arms }
  else none

end BanditRouter

inductive Call where
  | select
  | update (strategy : RoutingStrategy) (reward : F64)

namespace BanditRouter

variable {κ : Type} [LinearOrder κ] (ucb1 : Ucb1 κ)

def perform (b : BanditRouter) : Call → Option BanditRouter
  | .select => some (b.select ucb1).2
  | .update strategy reward => b.update strategy reward

/-- A selection, and the reward for it. -/
def round (b : BanditRouter) (reward : F64) : Option BanditRouter :=
  let (strategy, b) := b.select ucb1
  b.update strategy reward

end BanditRouter

open Floats Runs

section Arms

variable {s : RoutingStrategy} {f : BanditArm → BanditArm} {arms : List BanditArm}
  {arm : BanditArm}

theorem updateArm_strategies (hf : ∀ arm, (f arm).strategy = arm.strategy) :
    (updateArm s f arms).map (·.strategy) = arms.map (·.strategy) := by
  induction arms with
  | nil => rfl
  | cons arm arms ih =>
    rw [updateArm]
    split
    · rw [List.map_cons, List.map_cons, hf]
    · rw [List.map_cons, List.map_cons, ih]

theorem updateArm_pulls (hf : ∀ arm, (f arm).pulls = arm.pulls + 1)
    (hs : s ∈ arms.map (·.strategy)) :
    ((updateArm s f arms).map (·.pulls)).sum = (arms.map (·.pulls)).sum + 1 := by
  induction arms with
  | nil => cases hs
  | cons arm arms ih =>
    rw [updateArm]
    split
    · rw [List.map_cons, List.map_cons, List.sum_cons, List.sum_cons, hf]
      omega
    · rename_i hne
      have hrest := ih ((List.mem_cons.mp hs).resolve_left fun h => hne h.symm)
      rw [List.map_cons, List.map_cons, List.sum_cons, List.sum_cons, hrest]
      omega

theorem mem_updateArm (h : arm ∈ updateArm s f arms) : arm ∈ arms ∨ ∃ old ∈ arms, arm = f old := by
  induction arms with
  | nil => cases h
  | cons a arms ih =>
    rw [updateArm] at h
    split at h
    · rcases List.mem_cons.mp h with rfl | h
      · exact Or.inr ⟨a, List.mem_cons_self, rfl⟩
      · exact Or.inl (List.mem_cons_of_mem a h)
    · rcases List.mem_cons.mp h with rfl | h
      · exact Or.inl List.mem_cons_self
      · rcases ih h with h | ⟨old, hold, heq⟩
        · exact Or.inl (List.mem_cons_of_mem a h)
        · exact Or.inr ⟨old, List.mem_cons_of_mem a hold, heq⟩

theorem exists_mem_updateArm (hs : s ∈ arms.map (·.strategy)) :
    ∃ old ∈ arms, f old ∈ updateArm s f arms := by
  induction arms with
  | nil => cases hs
  | cons a arms ih =>
    rw [updateArm]
    split
    · exact ⟨a, List.mem_cons_self, List.mem_cons_self⟩
    · rename_i hne
      obtain ⟨old, hold, hmem⟩ := ih ((List.mem_cons.mp hs).resolve_left fun h => hne h.symm)
      exact ⟨old, List.mem_cons_of_mem a hold, List.mem_cons_of_mem a hmem⟩

end Arms

section Means

variable {arm : BanditArm} {d r : F64} {history : Nat}

def InUnit (x : F64) : Prop := (F64.finite 0).le x = true ∧ x.le (.finite 1) = true

instance (x : F64) : Decidable (InUnit x) := inferInstanceAs (Decidable (_ ∧ _))

theorem inUnit_iff {x : F64} : InUnit x ↔ ∃ q : ℚ, x = .finite q ∧ 0 ≤ q ∧ q ≤ 1 := by
  cases x with
  | finite q => simp [InUnit, F64.le, F64.lt]
  | infinite negative => cases negative <;> simp [InUnit, F64.le, F64.lt]
  | nan => simp [InUnit, F64.le]

/-- The rewards of an arm are no more than it was pulled, as far as a sum of ones can grow. -/
def BanditArm.Bounded (arm : BanditArm) : Prop :=
  ∃ t : ℚ, arm.totalReward = .finite t ∧ 0 ≤ t ∧ t ≤ (min arm.pulls (2 ^ 53) : ℕ)

theorem clamp_inUnit (hr : r ≠ .nan) : InUnit (r.clamp (.finite 0) (.finite 1)) :=
  inUnit_iff.mpr (F64.clamp_finite hr zero_le_one)

theorem min_le_top (n : ℕ) : ((min n (2 ^ 53) : ℕ) : ℚ) ≤ (2 ^ 53 : ℕ) := by
  exact_mod_cast Nat.min_le_right n (2 ^ 53)

theorem BanditArm.Bounded.applyDecay (h : arm.Bounded) (hd : InUnit d) :
    (arm.applyDecay d).Bounded := by
  obtain ⟨t, ht, h0, hle⟩ := h
  obtain ⟨q, rfl, hq0, hq1⟩ := inUnit_iff.mp hd
  have hpos : 0 ≤ t * q := mul_nonneg h0 hq0
  have hless : t * q ≤ (min arm.pulls (2 ^ 53) : ℕ) := (mul_le_of_le_one_right h0 hq1).trans hle
  have htop := min_le_top arm.pulls
  refine ⟨F64.rounded (t * q), ?_, F64.rounded_nonneg hpos, ?_⟩
  · change arm.totalReward.mul (.finite q) = _
    rw [ht]
    exact F64.ofRat_eq_rounded hpos (by linarith)
  · have hround := F64.rounded_mono hpos hless
    rwa [F64.rounded_natCast (Nat.min_le_right _ _)] at hround

theorem BanditArm.Bounded.reward (h : arm.Bounded) (hr : InUnit r) :
    (arm.reward history r).Bounded := by
  obtain ⟨t, ht, h0, hle⟩ := h
  obtain ⟨q, rfl, hq0, hq1⟩ := inUnit_iff.mp hr
  have hpos : 0 ≤ t + q := add_nonneg h0 hq0
  have hless : t + q ≤ (min arm.pulls (2 ^ 53) : ℕ) + 1 := by linarith
  have htop := min_le_top arm.pulls
  refine ⟨F64.rounded (t + q), ?_, F64.rounded_nonneg hpos, ?_⟩
  · change arm.totalReward.add (.finite q) = _
    rw [ht]
    exact F64.ofRat_eq_rounded hpos (by linarith)
  · have hround := F64.rounded_mono hpos hless
    rwa [F64.rounded_succ] at hround

theorem BanditArm.Bounded.mean (h : arm.Bounded) : InUnit arm.meanReward := by
  obtain ⟨t, ht, h0, hle⟩ := h
  unfold BanditArm.meanReward
  split
  · exact inUnit_iff.mpr ⟨0, rfl, le_refl _, zero_le_one⟩
  rename_i hpulls
  rw [ht, F64.ofRat_eq (Nat.cast_nonneg _)]
  split
  · exact inUnit_iff.mpr ⟨0, rfl, le_refl _, zero_le_one⟩
  -- the count is rounded to no less than what the rewards can add up to
  have hcount : ((min arm.pulls (2 ^ 53) : ℕ) : ℚ) ≤ F64.rounded arm.pulls := by
    have hround := F64.rounded_mono (Nat.cast_nonneg (min arm.pulls (2 ^ 53)))
      (Nat.cast_le (α := ℚ).mpr (Nat.min_le_left arm.pulls (2 ^ 53)))
    rwa [F64.rounded_natCast (Nat.min_le_right _ _)] at hround
  have hpos : (0 : ℚ) < F64.rounded arm.pulls := by
    refine lt_of_lt_of_le ?_ hcount
    have : 0 < min arm.pulls (2 ^ 53) := by
      rw [Nat.lt_min]
      exact ⟨Nat.pos_of_ne_zero hpulls, by decide⟩
    exact_mod_cast this
  have hquot : t / F64.rounded arm.pulls ≤ 1 := (div_le_one hpos).mpr (hle.trans hcount)
  have hquot0 : 0 ≤ t / F64.rounded arm.pulls := div_nonneg h0 hpos.le
  have hone : F64.rounded 1 = 1 := by
    have := F64.rounded_natCast (n := 1) (by decide)
    rwa [Nat.cast_one] at this
  refine inUnit_iff.mpr ⟨F64.rounded (t / F64.rounded arm.pulls), ?_, F64.rounded_nonneg hquot0,
    (F64.rounded_mono hquot0 hquot).trans hone.le⟩
  unfold F64.div
  dsimp only
  rw [if_neg hpos.ne']
  exact F64.ofRat_eq_rounded hquot0 (hquot.trans (by norm_num))

theorem meanReward_nan (hpulls : arm.pulls ≠ 0) (h : arm.totalReward = .nan) :
    ¬ InUnit arm.meanReward := by
  unfold BanditArm.meanReward
  have hdiv : ∀ x, F64.nan.div x = .nan := by
    intro x
    cases x <;> rfl
  rw [if_neg hpulls, h, hdiv]
  decide

end Means

namespace BanditRouter

/-- What every call leaves as it is, and what it counts. -/
structure Kept (config : BanditConfig) (b : BanditRouter) : Prop where
  config_eq : b.config = config
  strategies : b.arms.map (·.strategy) = [.inline_, .batch, .stream]
  total : b.totalPulls = (b.arms.map (·.pulls)).sum

theorem kept_new (config : BanditConfig) : Kept config (new config) where
  config_eq := rfl
  strategies := rfl
  total := rfl

def Bounded (b : BanditRouter) : Prop := ∀ arm ∈ b.arms, arm.Bounded

theorem bounded_new (config : BanditConfig) : (new config).Bounded := by
  intro arm harm
  have hzero : arm.totalReward = .finite 0 := by
    simp only [new, List.mem_cons, List.not_mem_nil, or_false] at harm
    rcases harm with rfl | rfl | rfl <;> rfl
  exact ⟨0, hzero, le_refl _, Nat.cast_nonneg _⟩

/-- The mean reward of every arm is one. -/
def MeansInUnit (b : BanditRouter) : Prop := ∀ arm ∈ b.arms, InUnit arm.meanReward

theorem Bounded.means {b : BanditRouter} (h : b.Bounded) : b.MeansInUnit :=
  fun arm harm => (h arm harm).mean

section Update

variable {config : BanditConfig} {b b' : BanditRouter} {s : RoutingStrategy} {r : F64}

/-- What an update does: it decays all arms or none, and rewards the one of the strategy. -/
theorem update_cases (h : b.update s r = some b') :
    ∃ decayed : List BanditArm,
      (decayed = b.arms ∨ decayed = b.arms.map (·.applyDecay b.config.decayFactor)) ∧
      b' = { b with
        totalPulls := b.totalPulls + 1
        arms := updateArm s (·.reward b.config.maxRewardHistory
          (r.clamp (.finite 0) (.finite 1))) decayed } ∧
      decayed.map (·.strategy) = b.arms.map (·.strategy) ∧
      decayed.map (·.pulls) = b.arms.map (·.pulls) := by
  unfold update at h
  dsimp only at h
  obtain ⟨-, heq⟩ := Option.ite_none_right_eq_some.mp h
  cases heq
  refine ⟨_, ?_, rfl, ?_, ?_⟩
  · split
    · exact Or.inr rfl
    · exact Or.inl rfl
  · split
    · rw [List.map_map]
      rfl
    · rfl
  · split
    · rw [List.map_map]
      rfl
    · rfl

theorem mem_strategies (h : Kept config b) (s : RoutingStrategy) :
    s ∈ b.arms.map (·.strategy) := by
  rw [h.strategies]
  cases s <;> simp

theorem Kept.update (hk : Kept config b) (h : b.update s r = some b') : Kept config b' := by
  obtain ⟨decayed, -, rfl, hstrategies, hpulls⟩ := update_cases h
  have hs : s ∈ decayed.map (·.strategy) := hstrategies ▸ mem_strategies hk s
  refine ⟨hk.config_eq, ?_, ?_⟩
  · refine Eq.trans (updateArm_strategies
      (f := (·.reward b.config.maxRewardHistory (r.clamp (.finite 0) (.finite 1)))) fun _ => rfl) ?_
    exact hstrategies.trans hk.strategies
  · have hcount := updateArm_pulls
      (f := (·.reward b.config.maxRewardHistory (r.clamp (.finite 0) (.finite 1))))
      (fun _ => rfl) hs
    rw [hpulls, ← hk.total] at hcount
    exact hcount.symm

theorem Bounded.update (hb : b.Bounded) (hd : InUnit b.config.decayFactor) (hr : r ≠ .nan)
    (h : b.update s r = some b') : b'.Bounded := by
  obtain ⟨decayed, hdecayed, rfl, -, -⟩ := update_cases h
  have hold : ∀ arm ∈ decayed, arm.Bounded := by
    rcases hdecayed with rfl | rfl
    · exact hb
    · intro arm harm
      obtain ⟨old, hold, rfl⟩ := List.mem_map.mp harm
      exact (hb old hold).applyDecay hd
  intro arm harm
  rcases mem_updateArm harm with harm | ⟨old, hmem, rfl⟩
  · exact hold arm harm
  · exact (hold old hmem).reward (clamp_inUnit hr)

/-- What is no number is not cut to the unit interval, and stays in the mean of its arm. -/
theorem not_means_of_nan (hk : Kept config b) (h : b.update s .nan = some b') :
    ¬ b'.MeansInUnit := by
  obtain ⟨decayed, -, rfl, hstrategies, -⟩ := update_cases h
  have hs : s ∈ decayed.map (·.strategy) := hstrategies ▸ mem_strategies hk s
  obtain ⟨old, -, hmem⟩ := exists_mem_updateArm hs
  intro hmeans
  refine meanReward_nan (Nat.succ_ne_zero old.pulls) ?_ (hmeans _ hmem)
  change old.totalReward.add .nan = .nan
  cases old.totalReward <;> rfl

end Update

section Select

variable {κ : Type} [LinearOrder κ] {ucb1 : Ucb1 κ} {config : BanditConfig} {b b' : BanditRouter}

/-- An arm that needs to be warmed up while there is one, and else the first of those with the
highest score. -/
def Apt (ucb1 : Ucb1 κ) (b : BanditRouter) (s : RoutingStrategy) : Prop :=
  (b.arms.any b.needsWarmUp = true → ∃ arm ∈ b.arms, arm.strategy = s ∧ b.needsWarmUp arm = true) ∧
  (b.arms.any b.needsWarmUp = false →
    (b.arms.argmax (b.score ucb1)).map (·.strategy) = some s)

theorem warmUpArm_spec (h : b.arms.any b.needsWarmUp = true) :
    ∃ idx arm, b.warmUpArm = some (idx, arm) ∧ b.arms[idx]? = some arm ∧
      b.needsWarmUp arm = true := by
  obtain ⟨arm, harm, hneeds⟩ := List.any_eq_true.mp h
  obtain ⟨i, hi, rfl⟩ := List.getElem_of_mem harm
  have hsome : b.warmUpArm.isSome := by
    refine List.findSome?_isSome_iff.mpr ⟨(i + (b.arms.length - b.warmUpIdx % b.arms.length)) %
      b.arms.length, List.mem_range.mpr (Nat.mod_lt _ (Nat.zero_lt_of_lt hi)), ?_⟩
    have hplace : (b.warmUpIdx + (i + (b.arms.length - b.warmUpIdx % b.arms.length)) %
        b.arms.length) % b.arms.length = i := by
      have hlt := Nat.mod_lt b.warmUpIdx (Nat.zero_lt_of_lt hi)
      rw [Nat.add_mod_mod, ← Nat.mod_add_mod, show b.warmUpIdx % b.arms.length +
        (i + (b.arms.length - b.warmUpIdx % b.arms.length)) = i + b.arms.length by omega,
        Nat.add_mod_right, Nat.mod_eq_of_lt hi]
    dsimp only
    rw [hplace, List.getElem?_eq_getElem hi]
    simp [hneeds]
  obtain ⟨⟨idx, arm⟩, hfound⟩ := Option.isSome_iff_exists.mp hsome
  obtain ⟨offset, -, hoffset⟩ := List.exists_of_findSome?_eq_some hfound
  obtain ⟨arm', hat, hif⟩ := Option.bind_eq_some_iff.mp hoffset
  obtain ⟨hneeds', heq⟩ := Option.ite_none_right_eq_some.mp hif
  cases heq
  exact ⟨_, _, hfound, hat, hneeds'⟩

theorem select_apt_iff (hk : Kept config b) :
    b.Apt ucb1 (b.select ucb1).1 ↔
      (b.arms.any b.needsWarmUp = false → b.arms.SoleGreatest (b.score ucb1)) := by
  unfold Apt select
  cases hany : b.arms.any b.needsWarmUp with
  | true =>
    obtain ⟨idx, arm, hfound, hat, hneeds⟩ := warmUpArm_spec hany
    simp only [if_true, hfound, Bool.true_eq_false, false_imp_iff, and_true, true_imp_iff, iff_true]
    exact ⟨arm, List.mem_of_getElem? hat, rfl, hneeds⟩
  | false =>
    have hnodup : (b.arms.map (·.strategy)).Nodup := by
      rw [hk.strategies]
      decide
    have hne : b.arms ≠ [] := by
      intro hnil
      have hstrategies := hk.strategies
      rw [hnil] at hstrategies
      cases hstrategies
    simp only [Bool.false_eq_true, if_false, false_imp_iff, true_and, true_imp_iff]
    rw [← List.maxBy_eq_argmax_iff hnodup.of_map hne, bestArm]
    obtain ⟨last, hlast⟩ : ∃ last, b.arms.maxBy (b.score ucb1) = some last := by
      cases harms : b.arms with
      | nil => exact absurd harms hne
      | cons arm arms => exact ⟨_, rfl⟩
    obtain ⟨first, hfirst⟩ := Option.ne_none_iff_exists'.mp
      (mt List.argmax_eq_none.mp hne : b.arms.argmax (b.score ucb1) ≠ none)
    rw [hlast, hfirst]
    simp only [Option.map_some, Option.getD_some, Option.some.injEq]
    refine ⟨fun h => ?_, fun h => h ▸ rfl⟩
    have hmem : last ∈ b.arms := by
      rw [List.maxBy_eq_argmax_reverse] at hlast
      exact List.mem_reverse.mp (List.argmax_mem hlast)
    exact (List.inj_on_of_nodup_map hnodup (List.argmax_mem hfirst) hmem h).symm

theorem select_frame : (b.select ucb1).2 = { b with warmUpIdx := (b.select ucb1).2.warmUpIdx } := by
  unfold select
  split <;> rfl

end Select

section WarmUp

variable {κ : Type} [LinearOrder κ] (ucb1 : Ucb1 κ) {config : BanditConfig} {b : BanditRouter}
  {k : Nat}

/-- How often each arm was pulled. -/
def profile (arms : List BanditArm) : List (RoutingStrategy × Nat) :=
  arms.map fun arm => (arm.strategy, arm.pulls)

/-- After so many rounds the arms have been pulled in turn. -/
structure InTurn (config : BanditConfig) (k : Nat) (b : BanditRouter) : Prop where
  config_eq : b.config = config
  total : b.totalPulls = k
  cursor : b.warmUpIdx = k % 3
  pulls : profile b.arms = [(.inline_, (k + 2) / 3), (.batch, (k + 1) / 3), (.stream, k / 3)]

theorem profile_updateArm {s : RoutingStrategy} {f : BanditArm → BanditArm}
    (hstrategy : ∀ arm, (f arm).strategy = arm.strategy)
    (hpulls : ∀ arm, (f arm).pulls = arm.pulls + 1) {arms : List BanditArm} {x y z : Nat}
    (h : profile arms = [(.inline_, x), (.batch, y), (.stream, z)]) :
    profile (updateArm s f arms) = match s with
      | .inline_ => [(.inline_, x + 1), (.batch, y), (.stream, z)]
      | .batch => [(.inline_, x), (.batch, y + 1), (.stream, z)]
      | .stream => [(.inline_, x), (.batch, y), (.stream, z + 1)] := by
  have hlen : arms.length = 3 := by simpa [profile] using congrArg List.length h
  obtain ⟨first, second, third, rfl⟩ := List.length_eq_three.mp hlen
  simp only [profile, List.map_cons, List.map_nil, List.cons.injEq, Prod.mk.injEq, and_true] at h
  obtain ⟨⟨hs₁, rfl⟩, ⟨hs₂, rfl⟩, hs₃, rfl⟩ := h
  cases s <;> simp [updateArm, profile, hs₁, hs₂, hs₃, hstrategy, hpulls]

theorem warmUpArm_cursor {arm : BanditArm} (hlt : b.warmUpIdx < b.arms.length)
    (hat : b.arms[b.warmUpIdx]? = some arm) (hneeds : b.needsWarmUp arm = true) :
    b.warmUpArm = some (b.warmUpIdx, arm) := by
  obtain ⟨n, hn⟩ := Nat.exists_eq_add_one.mpr (Nat.zero_lt_of_lt hlt)
  have hplace : (b.warmUpIdx + 0) % b.arms.length = b.warmUpIdx := Nat.mod_eq_of_lt hlt
  unfold warmUpArm
  rw [hn, List.range_succ_eq_map, List.findSome?_cons, ← hn, hplace]
  dsimp only
  rw [hat]
  simp [hneeds]

theorem InTurn.select (h : InTurn config k b) (hk : k < 3 * config.warmUpPulls.toNat) :
    (b.select ucb1).1 = (match k % 3 with
      | 0 => .inline_
      | 1 => .batch
      | _ => .stream) ∧ (b.select ucb1).2 = { b with warmUpIdx := (k + 1) % 3 } := by
  have hlen : b.arms.length = 3 := by simpa [profile] using congrArg List.length h.pulls
  have hlt : k % 3 < 3 := Nat.mod_lt _ (by decide)
  obtain ⟨arm, hat⟩ : ∃ arm, b.arms[k % 3]? = some arm :=
    ⟨_, List.getElem?_eq_getElem (by rw [hlen]; exact hlt)⟩
  have hprofile := congrArg (·[k % 3]?) h.pulls
  simp only [profile, List.getElem?_map, hat, Option.map_some] at hprofile
  have harm : arm.strategy = (match k % 3 with
      | 0 => .inline_
      | 1 => .batch
      | _ => .stream) ∧ arm.pulls = k / 3 := by
    obtain hcase | hcase | hcase : k % 3 = 0 ∨ k % 3 = 1 ∨ k % 3 = 2 := by omega
    all_goals
      rw [hcase] at hprofile ⊢
      simp only [List.getElem?_cons_zero, List.getElem?_cons_succ, Option.some.injEq,
        Prod.mk.injEq] at hprofile
      refine ⟨hprofile.1, hprofile.2.trans ?_⟩
      omega
  have hneeds : b.needsWarmUp arm = true := by
    unfold needsWarmUp
    rw [harm.2, h.config_eq, decide_eq_true_iff]
    omega
  have hany : b.arms.any b.needsWarmUp = true :=
    List.any_eq_true.mpr ⟨arm, List.mem_of_getElem? hat, hneeds⟩
  have hfound : b.warmUpArm = some (k % 3, arm) := by
    rw [warmUpArm_cursor (by rw [h.cursor, hlen]; exact hlt) (by rw [h.cursor]; exact hat) hneeds,
      h.cursor]
  unfold BanditRouter.select
  rw [hany, if_pos rfl, hfound]
  refine ⟨harm.1, ?_⟩
  dsimp only
  rw [hlen, Nat.mod_add_mod]

theorem profile_eq_zip (arms : List BanditArm) :
    profile arms = (arms.map (·.strategy)).zip (arms.map (·.pulls)) := List.zip_map'.symm

theorem InTurn.round (h : InTurn config k b) (hk : k < 3 * config.warmUpPulls.toNat) (r : F64) :
    ∃ b', b.round ucb1 r = some b' ∧ InTurn config (k + 1) b' := by
  obtain ⟨hchosen, hcursor⟩ := h.select ucb1 hk
  have hfits : b.totalPulls < u64Max := by
    have := config.warmUpPulls.toNat_lt
    rw [h.total]
    unfold u64Max
    omega
  obtain ⟨b', hb'⟩ : ∃ b', ({ b with warmUpIdx := (k + 1) % 3 } : BanditRouter).update
      (b.select ucb1).1 r = some b' := ⟨_, if_pos hfits⟩
  have hround : b.round ucb1 r = some b' := by
    unfold BanditRouter.round
    dsimp only
    rw [hcursor]
    exact hb'
  obtain ⟨decayed, -, rfl, hstrategies, hpulls⟩ := update_cases hb'
  have hprofile : profile decayed = profile b.arms := by
    rw [profile_eq_zip, profile_eq_zip, hstrategies, hpulls]
  refine ⟨_, hround, h.config_eq, congrArg (· + 1) h.total, rfl, ?_⟩
  rw [hchosen]
  refine (profile_updateArm
    (f := (·.reward b.config.maxRewardHistory (r.clamp (.finite 0) (.finite 1))))
    (fun _ => rfl) (fun _ => rfl) (hprofile.trans h.pulls)).trans ?_
  obtain hcase | hcase | hcase : k % 3 = 0 ∨ k % 3 = 1 ∨ k % 3 = 2 := by omega
  all_goals
    rw [hcase]
    simp only [List.cons.injEq, Prod.mk.injEq, true_and, and_true]
    omega

theorem inTurn_rounds {rewards : List F64} (h : InTurn config k b)
    (hk : k + rewards.length ≤ 3 * config.warmUpPulls.toNat) :
    ∃ b', exec (BanditRouter.round ucb1) b rewards = some b' ∧
      InTurn config (k + rewards.length) b' := by
  induction rewards generalizing k b with
  | nil => exact ⟨b, rfl, h⟩
  | cons r rewards ih =>
    rw [List.length_cons] at hk ⊢
    obtain ⟨b₁, hround, hturn⟩ := h.round ucb1 (show k < 3 * config.warmUpPulls.toNat by omega) r
    obtain ⟨b₂, hrounds, hend⟩ := ih hturn (by omega)
    refine ⟨b₂, ?_, by rwa [Nat.add_assoc, Nat.add_comm 1] at hend⟩
    rw [exec_cons, hround]
    exact hrounds

/-- A selection and its reward, three times as often as an arm is to be warmed up: that is how
often each arm is then pulled. -/
theorem warm_up_rounds {rewards : List F64}
    (hlen : rewards.length = 3 * config.warmUpPulls.toNat) :
    ∃ b, exec (BanditRouter.round ucb1) (new config) rewards = some b ∧
      ∀ arm ∈ b.arms, arm.pulls = config.warmUpPulls.toNat := by
  have hstart : InTurn config 0 (new config) := ⟨rfl, rfl, rfl, rfl⟩
  obtain ⟨b, hrounds, hend⟩ := inTurn_rounds ucb1 hstart (by rw [Nat.zero_add, hlen])
  refine ⟨b, hrounds, fun arm harm => ?_⟩
  have hmem : (arm.strategy, arm.pulls) ∈ profile b.arms := List.mem_map.mpr ⟨arm, harm, rfl⟩
  rw [hend.pulls, hlen] at hmem
  simp only [List.mem_cons, Prod.mk.injEq, List.not_mem_nil, or_false] at hmem
  omega

end WarmUp

section History

variable {κ : Type} [LinearOrder κ] (ucb1 : Ucb1 κ) {config : BanditConfig} {b b' : BanditRouter}
  {call : Call}

/-- Among warm arms one has a higher score than all others, and no reward is other than a
number. -/
def Untied (b : BanditRouter) (call : Call) : Prop :=
  (call = .select → b.arms.any b.needsWarmUp = false → b.arms.SoleGreatest (b.score ucb1)) ∧
  ∀ s r, call = .update s r → r ≠ .nan

instance (b : BanditRouter) : (call : Call) → Decidable (Untied ucb1 b call)
  | .select => decidable_of_iff
      (b.arms.any b.needsWarmUp = false → ∃ m ∈ b.arms, ∀ a ∈ b.arms, a ≠ m →
        b.score ucb1 a < b.score ucb1 m) (by simp [Untied, List.SoleGreatest])
  | .update s r => decidable_of_iff (r ≠ .nan) (by simp [Untied])

theorem Kept.perform (hk : Kept config b) (h : b.perform ucb1 call = some b') : Kept config b' := by
  cases call with
  | select =>
    cases h
    rw [select_frame]
    exact ⟨hk.config_eq, hk.strategies, hk.total⟩
  | update s r => exact hk.update h

theorem Bounded.perform (hk : Kept config b) (hd : InUnit config.decayFactor) (hb : b.Bounded)
    (hr : ∀ s r, call = .update s r → r ≠ .nan) (h : b.perform ucb1 call = some b') :
    b'.Bounded := by
  cases call with
  | select =>
    cases h
    rw [select_frame]
    exact hb
  | update s r => exact hb.update (hk.config_eq ▸ hd) (hr s r rfl) h

theorem kept_throughout (calls : List Call) :
    Throughout (perform ucb1) (Kept config) (new config) calls :=
  throughout_of_step (kept_new config) fun _ _ _ hk h => hk.perform ucb1 h

theorem means_iff (hd : InUnit config.decayFactor) (calls : List Call) :
    Throughout (perform ucb1) MeansInUnit (new config) calls ↔
      EachStep (perform ucb1) (fun _ call => ∀ s r, call = .update s r → r ≠ .nan) (new config)
        calls := by
  constructor
  · intro h
    refine (throughout_and.mpr ⟨kept_throughout ucb1 calls, h⟩).eachStep ?_
    rintro b call - b' ⟨hk, -⟩ ⟨-, hmeans⟩ hstep s r rfl rfl
    exact not_means_of_nan hk hstep hmeans
  · intro h
    have hbounded := h.throughout (P := fun b => Kept config b ∧ b.Bounded)
      ⟨kept_new config, bounded_new config⟩ ?_
    · exact hbounded.imp fun b hb => hb.2.means
    · rintro b call b' ⟨hk, hb⟩ hr hstep
      exact ⟨hk.perform ucb1 hstep, hb.perform ucb1 hk hd hr hstep⟩

theorem selections_iff (calls : List Call) :
    EachStep (perform ucb1) (fun b call => call = .select → b.Apt ucb1 (b.select ucb1).1)
        (new config) calls ↔
      EachStep (perform ucb1) (fun b call => call = .select → b.arms.any b.needsWarmUp = false →
        b.arms.SoleGreatest (b.score ucb1)) (new config) calls := by
  refine eachStep_iff_of_invariant (P := Kept config) (kept_new config) ?_
  intro b call b' hk hstep
  exact ⟨imp_congr_right fun _ => select_apt_iff hk, fun _ => hk.perform ucb1 hstep⟩

/-- The pulls are counted, and the warm-up takes as many rounds as it is to take. Every selection
of a history is as documented and every mean reward is one of rewards between zero and one
exactly where no selection among warm arms is tied, and no reward is other than a number. -/
theorem history_iff (hdecay : InUnit config.decayFactor) (calls : List Call) :
    Throughout (perform ucb1) (fun b => b.totalPulls = (b.arms.map (·.pulls)).sum) (new config)
      calls ∧
    (∀ rewards : List F64, rewards.length = 3 * config.warmUpPulls.toNat →
      ∃ b, exec (round ucb1) (new config) rewards = some b ∧
        ∀ arm ∈ b.arms, arm.pulls = config.warmUpPulls.toNat) ∧
    (EachStep (perform ucb1) (fun b call => call = .select → b.Apt ucb1 (b.select ucb1).1)
        (new config) calls ∧ Throughout (perform ucb1) MeansInUnit (new config) calls ↔
      EachStep (perform ucb1) (Untied ucb1) (new config) calls) := by
  refine ⟨(kept_throughout ucb1 calls).imp fun b hk => hk.total,
    fun rewards hlen => warm_up_rounds ucb1 hlen, ?_⟩
  rw [means_iff ucb1 hdecay, selections_iff, ← eachStep_and]
  exact Iff.rfl

/-- The mean reward in thousandths. -/
def thousandths : Ucb1 Nat := fun arm _ _ =>
  match arm.meanReward with
  | .finite q => ⌊q * 1000⌋.toNat
  | _ => 0

def fading : BanditConfig := { warmUpPulls := 1, decayFactor := .finite (1 / 2) }

/-- Each arm is warmed up, and the best one found twice, with a reward of more than one in
between. -/
def patient : List Call :=
  [.select, .update .inline_ (.finite (1 / 4)), .select, .update .batch (.finite 1),
    .select, .update .stream (.finite (1 / 4)), .select, .update .batch (.finite 2), .select]

theorem history_iff_patient :
    (exec (perform thousandths) (new fading) patient).isSome ∧
    EachStep (perform thousandths)
      (fun b call => call = .select → b.Apt thousandths (b.select thousandths).1) (new fading)
      patient ∧
    Throughout (perform thousandths) MeansInUnit (new fading) patient :=
  ⟨by decide +kernel,
    (history_iff thousandths (by decide +kernel) patient).2.2.mpr (by decide +kernel)⟩

/-- Arms that were never pulled score highest, whatever else they score. -/
def freshFirst : Ucb1 Nat := fun arm _ _ => if arm.pulls = 0 then 1 else 0

def impatient : BanditConfig := { warmUpPulls := 0 }

/-- Without a warm-up the first selection is tied, and the last arm gets it. -/
theorem impatient_takes_last : ¬ ∀ (config : BanditConfig) (ucb1 : Ucb1 Nat) (calls : List Call),
    InUnit config.decayFactor → EachStep (perform ucb1)
      (fun b call => call = .select → b.Apt ucb1 (b.select ucb1).1) (new config) calls := by
  intro h
  have hfirst := (h impatient freshFirst [.select] (by decide +kernel) _ rfl).1 rfl
  exact absurd (hfirst.2 (by decide +kernel)) (by decide +kernel)

end History

end BanditRouter

end HelixRouter.Bandits
