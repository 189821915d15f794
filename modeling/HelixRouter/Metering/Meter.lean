import Mathlib.Algebra.Order.Field.Basic
import Mathlib.Data.List.Induction
import Mathlib.Tactic.Linarith

namespace HelixRouter.Metering

/-- What a meter holds at most, and what it gains in a unit of time. -/
structure Meter (K : Type) where
  capacity : K
  rate : K

section Taken

variable {K : Type} [LinearOrder K] {s e : K} {log : List K}

/-- How often something was taken in an interval. -/
def taken (s e : K) (log : List K) : Nat := (log.filter fun t => s ≤ t ∧ t ≤ e).length

theorem taken_append (t : K) :
    taken s e (log ++ [t]) = taken s e log + if s ≤ t ∧ t ≤ e then 1 else 0 := by
  unfold taken
  rw [List.filter_append, List.length_append]
  congr 1
  by_cases h : s ≤ t ∧ t ≤ e <;> simp [h]

theorem taken_eq_length (h : ∀ t ∈ log, s ≤ t ∧ t ≤ e) : taken s e log = log.length := by
  unfold taken
  rw [List.filter_eq_self.mpr fun t ht => decide_eq_true (h t ht)]

end Taken

section Drawn

variable {K : Type} [AddMonoid K] [LinearOrder K] {s e now cost : K} {costs : List (K × K)}

/-- What was drawn in an interval, of what was drawn at each time. -/
def drawn (s e : K) (log : List (K × K)) : K :=
  ((log.filter fun d => s ≤ d.1 ∧ d.1 ≤ e).map (·.2)).sum

theorem drawn_append (first second : List (K × K)) :
    drawn s e (first ++ second) = drawn s e first + drawn s e second := by
  simp [drawn]

theorem drawn_singleton :
    drawn s e [(now, cost)] = if s ≤ now ∧ now ≤ e then cost else 0 := by
  unfold drawn
  by_cases h : s ≤ now ∧ now ≤ e <;> simp [h]

theorem drawn_eq_zero (h : ∀ d ∈ costs, d.1 < s) : drawn s e costs = 0 := by
  have hnone : (costs.filter fun d => s ≤ d.1 ∧ d.1 ≤ e) = [] := by
    rw [List.filter_eq_nil_iff]
    intro d hd hin
    exact absurd (of_decide_eq_true hin).1 (not_le.mpr (h d hd))
  rw [drawn, hnone, List.map_nil, List.sum_nil]

end Drawn

variable {K : Type} [Field K] [LinearOrder K] [IsStrictOrderedRing K]
  {m : Meter K} {s e now later level level' : K} {log : List K}

/-- A level after some time has passed. -/
def Meter.refilled (m : Meter K) (level elapsed : K) : K :=
  min (level + elapsed * m.rate) m.capacity

omit [IsStrictOrderedRing K] in
theorem drawn_units : drawn s e (log.map fun t => (t, 1)) = taken s e log := by
  induction log using List.reverseRecOn with
  | nil => simp [drawn, taken]
  | append_singleton log t ih =>
    rw [List.map_append, List.map_singleton, drawn_append, drawn_singleton, ih, taken_append]
    push_cast
    rfl

/-- What has been drawn since `s`, with what is left, is at most what a full meter gains
since `s`. -/
structure Draws (m : Meter K) (s e now level : K) (costs : List (K × K)) : Prop where
  past : ∀ d ∈ costs, d.1 ≤ now
  capped : level ≤ m.capacity
  spent : now ≤ e → drawn s e costs + level ≤ m.capacity + max 0 (now - s) * m.rate
  bound : drawn s e costs ≤ m.capacity + (e - s) * m.rate

section Draws

variable {cost : K} {costs : List (K × K)}

theorem Draws.start (hc : 0 ≤ m.capacity) (hr : 0 ≤ m.rate) (hse : s ≤ e) (now : K) :
    Draws m s e now m.capacity [] where
  past _ h := absurd h List.not_mem_nil
  capped := le_refl _
  spent _ := by
    have := mul_nonneg (le_max_left 0 (now - s)) hr
    rw [drawn_eq_zero (by simp)]
    linarith
  bound := by
    have := mul_nonneg (sub_nonneg.mpr hse) hr
    rw [drawn_eq_zero (by simp)]
    linarith

/-- Time passes, and the meter gains what it may or less. -/
theorem Draws.wait (h : Draws m s e now level costs) (hr : 0 ≤ m.rate) (hlater : now ≤ later)
    (hgain : level' ≤ m.refilled level (later - now)) : Draws m s e later level' costs where
  past d hd := (h.past d hd).trans hlater
  capped := hgain.trans (min_le_right _ _)
  spent hle := by
    have hcap : level' ≤ m.capacity := hgain.trans (min_le_right _ _)
    have hlevel : level' ≤ level + (later - now) * m.rate := hgain.trans (min_le_left _ _)
    by_cases hs : s ≤ now
    · have hspent := h.spent (hlater.trans hle)
      rw [max_eq_right (by linarith)] at hspent ⊢
      linarith [sub_mul later now m.rate, sub_mul now s m.rate, sub_mul later s m.rate]
    · have hnone : drawn s e costs = 0 :=
        drawn_eq_zero fun d hd => (h.past d hd).trans_lt (not_le.mp hs)
      have := mul_nonneg (le_max_left 0 (later - s)) hr
      rw [hnone]
      linarith
  bound := h.bound

/-- Something is drawn that the level is charged for. -/
theorem Draws.draw (h : Draws m s e now level costs) (hr : 0 ≤ m.rate) (hcost : 0 ≤ cost)
    (hlevel : cost ≤ level) (hcharge : level' ≤ level - cost) :
    Draws m s e now level' (costs ++ [(now, cost)]) where
  past d hd := by
    rcases List.mem_append.mp hd with hd | hd
    · exact h.past d hd
    · exact (List.mem_singleton.mp hd ▸ le_refl _)
  capped := by linarith [h.capped]
  spent hle := by
    have hspent := h.spent hle
    rw [drawn_append, drawn_singleton]
    split <;> linarith
  bound := by
    rw [drawn_append, drawn_singleton]
    by_cases hin : s ≤ now ∧ now ≤ e
    · have hspent := h.spent hin.2
      rw [max_eq_right (by linarith [hin.1])] at hspent
      have hgain := mul_le_mul_of_nonneg_right (sub_le_sub_right hin.2 s) hr
      rw [if_pos hin]
      linarith
    · rw [if_neg hin, add_zero]
      exact h.bound

/-- Several things are drawn at a time, each of which the level is charged one for. -/
theorem Draws.drawEach (h : Draws m s e now level costs) (hr : 0 ≤ m.rate) {drawnNow : List K}
    (hcost : ∀ c ∈ drawnNow, 0 ≤ c ∧ c ≤ 1) (hlevel : (drawnNow.length : K) ≤ level) :
    Draws m s e now (level - drawnNow.length) (costs ++ drawnNow.map fun c => (now, c)) := by
  induction drawnNow generalizing costs level with
  | nil => simpa using h
  | cons c rest ih =>
    obtain ⟨hnonneg, hone⟩ := hcost c List.mem_cons_self
    rw [List.length_cons, Nat.cast_succ] at hlevel ⊢
    have hrest : (0 : K) ≤ rest.length := Nat.cast_nonneg _
    have hdrawn := h.draw hr hnonneg (by linarith) (sub_le_sub_left hone level)
    have hall := ih hdrawn (fun c hc => hcost c (List.mem_cons_of_mem _ hc)) (by linarith)
    rw [List.map_cons, ← List.singleton_append, ← List.append_assoc, add_comm, ← sub_sub]
    exact hall

end Draws

/-- What has been taken since `s`, with what is left, is what a full meter gains since `s`. -/
structure Within (m : Meter K) (s e now level : K) (log : List K) : Prop where
  past : ∀ t ∈ log, t ≤ now
  capped : level ≤ m.capacity
  spent : now ≤ e → taken s e log + level ≤ m.capacity + max 0 (now - s) * m.rate
  bound : taken s e log ≤ m.capacity + (e - s) * m.rate

omit [IsStrictOrderedRing K] in
/-- Taking something is drawing one of it. -/
theorem within_iff_draws :
    Within m s e now level log ↔ Draws m s e now level (log.map fun t => (t, 1)) := by
  constructor
  · intro h
    refine ⟨fun d hd => ?_, h.capped, by rw [drawn_units]; exact h.spent,
      by rw [drawn_units]; exact h.bound⟩
    obtain ⟨t, ht, rfl⟩ := List.mem_map.mp hd
    exact h.past t ht
  · intro h
    have hspent := h.spent
    have hbound := h.bound
    rw [drawn_units] at hspent hbound
    exact ⟨fun t ht => h.past (t, 1) (List.mem_map_of_mem ht), h.capped, hspent, hbound⟩

theorem Within.start (hc : 0 ≤ m.capacity) (hr : 0 ≤ m.rate) (hse : s ≤ e) (now : K) :
    Within m s e now m.capacity [] :=
  within_iff_draws.mpr (.start hc hr hse now)

theorem Within.wait (h : Within m s e now level log) (hr : 0 ≤ m.rate) (hlater : now ≤ later)
    (hgain : level' ≤ m.refilled level (later - now)) : Within m s e later level' log :=
  within_iff_draws.mpr ((within_iff_draws.mp h).wait hr hlater hgain)

theorem Within.take (h : Within m s e now level log) (hr : 0 ≤ m.rate) (hone : 1 ≤ level) :
    Within m s e now (level - 1) (log ++ [now]) := by
  rw [within_iff_draws, List.map_append]
  exact (within_iff_draws.mp h).draw hr zero_le_one hone (le_refl _)

theorem Meter.refilled_of_full (hr : 0 ≤ m.rate) {elapsed : K} (he : 0 ≤ elapsed) :
    m.refilled m.capacity elapsed = m.capacity := by
  have := mul_nonneg he hr
  exact min_eq_right (by linarith)

theorem Meter.refilled_mono (h : level ≤ level') (elapsed : K) :
    m.refilled level elapsed ≤ m.refilled level' elapsed := by
  unfold Meter.refilled
  gcongr

/-- Two waits are one. -/
theorem Meter.refilled_refilled (hr : 0 ≤ m.rate) {first second : K} (hs : 0 ≤ second) :
    m.refilled (m.refilled level first) second = m.refilled level (first + second) := by
  have := mul_nonneg hs hr
  unfold Meter.refilled
  rw [add_mul]
  rcases le_total (level + first * m.rate) m.capacity with h | h
  · rw [min_eq_left h]
    rw [add_assoc]
  · rw [min_eq_right h, min_eq_right (by linarith), min_eq_right (by linarith)]

/-- A meter that loses over time never meets its capacity again. -/
theorem Meter.refilled_refilled_of_capped (h : level ≤ m.capacity) {first second : K}
    (hf : 0 ≤ first) (hs : 0 ≤ second) :
    m.refilled (m.refilled level first) second = m.refilled level (first + second) := by
  by_cases hr : 0 ≤ m.rate
  · exact Meter.refilled_refilled hr hs
  · have hfirst := mul_nonpos_of_nonneg_of_nonpos hf (not_le.mp hr).le
    have hsecond := mul_nonpos_of_nonneg_of_nonpos hs (not_le.mp hr).le
    unfold Meter.refilled
    rw [add_mul, min_eq_left (show level + first * m.rate ≤ m.capacity by linarith)]
    rw [add_assoc]

end HelixRouter.Metering
