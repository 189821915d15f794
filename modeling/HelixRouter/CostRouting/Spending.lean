import HelixRouter.CostRouting.CostRouter

namespace HelixRouter.CostRouting

open Floats Interleaving

def Call.isExpensive : Call → Bool
  | .submit job => CostRouting.isExpensive (estimate job)
  | _ => false

/-- What a call has done. -/
structure Share where
  expensive : Bool
  submitted : Nat := 0
  dropped : Nat := 0
  waiting : Bool := false

namespace Share

variable (v : Share)

def next (allowDrop : Bool) : (e : Op) → e.Resp → Share
  | .countSubmitted, _ => { v with submitted := v.submitted + 1 }
  | .pressure cost, p => { v with waiting := admits allowDrop cost p }
  | .countDrop, _ => { v with dropped := v.dropped + 1 }
  | .record _, _ => { v with waiting := false }
  | _, _ => v

/-- Between its check and its record a call does nothing but count a batch. -/
def Allows : Op → Prop
  | .countBatch => v.waiting = v.expensive
  | .record cost => v.waiting = v.expensive ∧ isExpensive cost = v.expensive ∧
    ∃ q : ℚ, cost = .finite q ∧ 0 ≤ q ∧ q ≤ 2
  | _ => v.waiting = false

def Ended : Call → Answer → Prop
  | .submit _, .answered _ => v.submitted = 1 ∧ v.dropped = 0 ∧ v.waiting = false
  | .submit _, .blocked .. => v.submitted = 1 ∧ v.dropped = 1 ∧ v.waiting = false
  | .submit _, .ticked => False
  | _, .ticked => v.submitted = 0 ∧ v.dropped = 0 ∧ v.waiting = false
  | _, _ => False

end Share

def monitor (allowDrop : Bool) : Monitor Op Op.Resp Call Answer Share where
  init call := { expensive := call.isExpensive }
  next v := v.next allowDrop
  allow := Share.Allows
  may _ _ _ := True
  fin call a v := v.Ended call a

section Bodies

variable {allowDrop : Bool} {job : Job} {v : Share}

theorem admits_of_ne {cost p : F64} (h : recommend cost p allowDrop ≠ .drop) :
    admits allowDrop cost p = isExpensive cost := by
  simp [admits, h]

theorem recordAndSubmit_wp {post : Answer → Share → Prop} (hwaiting : v.waiting = v.expensive)
    (hcost : isExpensive (estimate job) = v.expensive)
    (hpost : ∀ r, post (.answered r) { v with waiting := false }) :
    (recordAndSubmit job).wp (monitor allowDrop) post v := by
  simp only [recordAndSubmit, Prog.wp_bind, Prog.wp_perform, Prog.wp_pure]
  exact ⟨⟨hwaiting, hcost, estimate_eq job⟩,
    fun _ _ => ⟨rfl, fun r _ => hpost r⟩⟩

theorem submit_wp (allowDrop : Bool) (job : Job) : (submit allowDrop job).wp (monitor allowDrop)
    ((monitor allowDrop).fin (.submit job)) ((monitor allowDrop).init (.submit job)) := by
  simp only [submit, Prog.wp_bind, Prog.wp_perform]
  refine ⟨rfl, fun _ _ => ⟨rfl, fun p _ => ?_⟩⟩
  by_cases hdrop : recommend (estimate job) p allowDrop = .drop
  · have hadmits : admits allowDrop (estimate job) p = false := by simp [admits, hdrop]
    simp only [hdrop, Prog.wp_bind, Prog.wp_perform, Prog.wp_pure]
    exact ⟨hadmits, fun _ _ => ⟨rfl, rfl, hadmits⟩⟩
  · -- the job is let through, and waits if it is expensive
    have hadmits := admits_of_ne hdrop
    have hsubmit : (recordAndSubmit job).wp (monitor allowDrop)
        ((monitor allowDrop).fin (.submit job))
        ⟨isExpensive (estimate job), 1, 0, admits allowDrop (estimate job) p⟩ :=
      recordAndSubmit_wp hadmits rfl fun _ => ⟨rfl, rfl, rfl⟩
    cases hrec : recommend (estimate job) p allowDrop with
    | drop => exact absurd hrec hdrop
    | inline =>
      simp only [Prog.wp_bind, Prog.wp_perform]
      exact ⟨hadmits.trans (recommend_inline hrec), fun _ _ => hsubmit⟩
    | batch =>
      simp only [Prog.wp_bind, Prog.wp_perform]
      exact ⟨hadmits, fun _ _ => hsubmit⟩
    | spawn => exact hsubmit
    | cpuPool => exact hsubmit

theorem body_wp (allowDrop : Bool) (call : Call) : (call.body allowDrop).wp (monitor allowDrop)
    ((monitor allowDrop).fin call) ((monitor allowDrop).init call) := by
  cases call with
  | submit job => exact submit_wp allowDrop job
  | tickMinute =>
    simp only [Call.body, Prog.wp_bind, Prog.wp_perform, Prog.wp_pure]
    exact ⟨rfl, fun _ _ => ⟨rfl, rfl, rfl⟩⟩
  | tickHour =>
    simp only [Call.body, Prog.wp_bind, Prog.wp_perform, Prog.wp_pure]
    exact ⟨rfl, fun _ _ => ⟨rfl, rfl, rfl⟩⟩

end Bodies

section Books

inductive Account where
  | submitted
  | dropped
  | waiting

def held : Account → Share → Nat
  | .submitted, v => v.submitted
  | .dropped, v => v.dropped
  | .waiting, v => v.waiting.toNat

def owed : Account → CostRouterInner → Nat
  | .submitted, s => s.totalSubmitted
  | .dropped, s => s.costDropCount
  | .waiting, s => s.waiting

/-- What a window can grow to by one more job of the greatest cost, rounded up at worst. -/
def grow (spent : ℚ) : ℚ := (spent + 2) * (1 + 1 / 2 ^ 53)

theorem grow_mono : Monotone grow := fun p q h =>
  mul_le_mul_of_nonneg_right (add_le_add_left h 2) (by norm_num)

theorem le_grow {q : ℚ} (h : 0 ≤ q) : q ≤ grow q :=
  calc q
    _ ≤ q + 2 := le_add_of_nonneg_right zero_le_two
    _ ≤ grow q := le_mul_of_one_le_right (add_nonneg h zero_le_two) (by norm_num)

theorem iterate_grow_mono (n : Nat) : Monotone grow^[n] := grow_mono.iterate n

theorem iterate_grow_nonneg {q : ℚ} (h : 0 ≤ q) (n : Nat) : 0 ≤ grow^[n] q := by
  induction n with
  | zero => exact h
  | succ n ih =>
    rw [Function.iterate_succ_apply']
    exact ih.trans (le_grow ih)

theorem iterate_grow_le {q : ℚ} (h : 0 ≤ q) {m n : Nat} (hmn : m ≤ n) :
    grow^[m] q ≤ grow^[n] q := by
  induction hmn with
  | refl => exact le_refl _
  | step hle ih =>
    rw [Nat.succ_eq_add_one, Function.iterate_succ_apply']
    exact ih.trans (le_grow (iterate_grow_nonneg h _))

theorem iterate_grow_closed (q : ℚ) (n : Nat) :
    grow^[n] q ≤ (q + 2 * n) * (1 + 1 / 2 ^ 53) ^ n := by
  induction n with
  | zero => simp
  | succ n ih =>
    have hone : (1 : ℚ) ≤ (1 + 1 / 2 ^ 53) ^ n := one_le_pow₀ (by norm_num)
    rw [Function.iterate_succ_apply', pow_succ, ← mul_assoc]
    refine mul_le_mul_of_nonneg_right ?_ (by norm_num)
    push_cast
    linarith

/-- A sum of costs that is a double, and so far from the greatest that it never gets there. -/
structure Sum (x : F64) (q : ℚ) : Prop where
  eq : x = .finite q
  nonneg : 0 ≤ q
  double : F64.rounded q = q
  small : q ≤ 2 ^ 55

theorem Sum.zero : Sum (.finite 0) 0 := ⟨rfl, le_refl 0, F64.rounded_zero, by norm_num⟩

/-- The next cost is rounded to a sum of that kind, which is no more than it can grow to. -/
theorem Sum.add {x : F64} {q cost : ℚ} (h : Sum x q) (h0 : 0 ≤ cost) (h2 : cost ≤ 2) :
    Sum (x.add (.finite cost)) (F64.rounded (q + cost)) ∧ q ≤ F64.rounded (q + cost) ∧
      F64.rounded (q + cost) ≤ grow q := by
  have hpos : 0 ≤ q + cost := add_nonneg h.nonneg h0
  have htop : F64.ofRat (2 ^ 55 + 2) = .finite (2 ^ 55) := by decide +kernel
  rw [F64.ofRat_eq (by norm_num)] at htop
  have hle : F64.rounded (q + cost) ≤ F64.rounded (2 ^ 55 + 2) :=
    F64.rounded_mono hpos (add_le_add h.small h2)
  split at htop
  · cases htop
  · rename_i hfits
    have hbound : F64.rounded (2 ^ 55 + 2) = 2 ^ 55 := F64.finite.inj htop
    refine ⟨⟨?_, F64.rounded_nonneg hpos, F64.rounded_rounded hpos, hle.trans_eq hbound⟩, ?_, ?_⟩
    · rw [h.eq, F64.add, F64.ofRat_eq hpos, if_neg fun hbig => hfits (hbig.trans hle)]
    · calc q = F64.rounded q := h.double.symm
        _ ≤ F64.rounded (q + cost) := F64.rounded_mono h.nonneg (le_add_of_nonneg_right h0)
    · calc F64.rounded (q + cost) ≤ F64.rounded (q + 2) :=
          F64.rounded_mono hpos (add_le_add_right h2 q)
        _ ≤ grow q := F64.rounded_le (by linarith [h.nonneg])

/-- Every expensive job that is not waiting was let through under a pressure that what was spent
before did not reach, or is one of those that waited with it. -/
structure Bounded (limits : Window → F64) (s : CostRouterInner) : Prop where
  limit : ∀ w, s.budget.limit w = limits w
  sums : ∀ w, ∃ spent current, Sum (s.spent w) spent ∧ Sum (s.budget.current w) current ∧
    spent ≤ current ∧ ∀ c, cap (limits w) = some c → grow^[s.waiting] spent ≤ grow^[s.peak] c
  peak : s.waiting ≤ s.peak

variable {allowDrop : Bool} {limits : Window → F64} {s s' : CostRouterInner} {v : Share} {e : Op}
  {r : e.Resp} {env : Option (List Output)} {new : List Call}

theorem bounded_start (limits : Window → F64) : Bounded limits (startPool limits).state where
  limit w := by cases w <;> rfl
  sums w := by
    refine ⟨0, 0, .zero, ?_, le_refl 0, fun c hc => cap_nonneg hc⟩
    cases w <;> exact .zero
  peak := Nat.le_refl 0

theorem Op.exec_new (hx : e.exec allowDrop env s = some (r, s', new)) : new = [] := by
  cases e <;> cases hx <;> rfl

theorem balance (hx : e.exec allowDrop env s = some (r, s', new)) (ha : v.Allows e)
    (hwaiting : v.waiting.toNat ≤ s.waiting) (i : Account) :
    held i (v.next allowDrop e r) + owed i s = held i v + owed i s' := by
  cases e with
  | pressure cost =>
    cases hx
    have hnone : v.waiting = false := ha
    cases i <;> simp [Share.next, held, owed, CostRouterInner.wait, hnone, Nat.add_comm]
  | record cost =>
    cases hx
    obtain ⟨hv, hcost, -, -⟩ := ha
    cases i with
    | waiting =>
      rw [hv, ← hcost] at hwaiting
      simp only [Share.next, held, owed, CostRouterInner.recordCost, hv, ← hcost, Bool.toNat_false]
      omega
    | _ => rfl
  | countSubmitted | countDrop =>
    cases hx
    cases i <;> simp [Share.next, held, owed, Nat.add_comm, Nat.add_left_comm]
  | _ =>
    cases hx
    cases i <;> rfl

theorem Bounded.wait (h : Bounded limits s) {cost : F64} :
    Bounded limits (s.wait (admits true cost s.budget.pressure)) := by
  refine ⟨h.limit, fun w => ?_, Nat.le_max_right ..⟩
  obtain ⟨spent, current, hspent, hcurrent, hle, hroom⟩ := h.sums w
  refine ⟨spent, current, hspent, hcurrent, hle, fun c hc => ?_⟩
  simp only [CostRouterInner.wait]
  cases hadmits : admits true cost s.budget.pressure with
  | false => exact (hroom c hc).trans (iterate_grow_le (cap_nonneg hc) (Nat.le_max_left ..))
  | true =>
    -- the check has found less spent than hard pressure allows
    have hcap : current ≤ c := le_cap_of_admits hadmits hcurrent.eq (h.limit w ▸ hc)
    exact (iterate_grow_mono _ (hle.trans hcap)).trans
      (iterate_grow_le (cap_nonneg hc) (Nat.le_max_right ..))

theorem Bounded.recordCost (h : Bounded limits s) {cost : F64} {q : ℚ} (hcost : cost = .finite q)
    (hnonneg : 0 ≤ q) (htwo : q ≤ 2) (hwaiting : (isExpensive cost).toNat ≤ s.waiting) :
    Bounded limits (s.recordCost cost) := by
  subst hcost
  refine ⟨fun w => ?_, fun w => ?_, (Nat.sub_le ..).trans h.peak⟩
  · rw [← h.limit w]
    cases w <;> rfl
  · obtain ⟨spent, current, hspent, hcurrent, hle, hroom⟩ := h.sums w
    obtain ⟨hcurrent', hgrown, -⟩ := hcurrent.add hnonneg htwo
    have hbudget : (s.budget.record (.finite q)).current w =
        (s.budget.current w).add (.finite q) := by
      cases w <;> rfl
    rw [← hbudget] at hcurrent'
    simp only [CostRouterInner.recordCost]
    cases hexpensive : isExpensive (.finite q) with
    | false => exact ⟨spent, _, hspent, hcurrent', hle.trans hgrown, hroom⟩
    | true =>
      obtain ⟨hspent', -, hbound⟩ := hspent.add hnonneg htwo
      refine ⟨_, _, hspent', hcurrent', F64.rounded_mono (add_nonneg hspent.nonneg hnonneg)
        (add_le_add_left hle q), fun c hc => ?_⟩
      rw [hexpensive] at hwaiting
      obtain ⟨n, hn⟩ := Nat.exists_eq_add_of_le' hwaiting
      rw [Bool.toNat_true] at hn ⊢
      rw [hn, Nat.add_sub_cancel]
      have hroom' := hroom c hc
      rw [hn, Function.iterate_succ_apply] at hroom'
      exact (iterate_grow_mono n hbound).trans hroom'

theorem Bounded.clear (h : Bounded limits s) (w : Window) {budget : CostBudget}
    (hlimit : ∀ w', budget.limit w' = s.budget.limit w')
    (hcurrent : ∀ w', budget.current w' = if w' = w then .finite 0 else s.budget.current w') :
    Bounded limits (s.clear w budget) := by
  refine ⟨fun w' => (hlimit w').trans (h.limit w'), fun w' => ?_, h.peak⟩
  simp only [CostRouterInner.clear, hcurrent, Function.update_apply]
  by_cases hw : w' = w
  · rw [if_pos hw, if_pos hw]
    refine ⟨0, 0, .zero, .zero, le_refl 0, fun c hc => ?_⟩
    exact (iterate_grow_mono _ (cap_nonneg hc)).trans (iterate_grow_le (cap_nonneg hc) h.peak)
  · rw [if_neg hw, if_neg hw]
    exact h.sums w'

theorem Bounded.next (h : Bounded limits s) (hx : e.exec true env s = some (r, s', new))
    (ha : v.Allows e) (hwaiting : v.waiting.toNat ≤ s.waiting) : Bounded limits s' := by
  cases e with
  | pressure cost =>
    cases hx
    exact h.wait
  | record cost =>
    cases hx
    obtain ⟨hv, hcost, q, hq, hnonneg, htwo⟩ := ha
    exact h.recordCost hq hnonneg htwo (hcost ▸ hv ▸ hwaiting)
  | tickMinute =>
    cases hx
    exact h.clear .minute (fun w => by cases w <;> rfl) (fun w => by cases w <;> rfl)
  | tickHour =>
    cases hx
    exact h.clear .hour (fun w => by cases w <;> rfl) (fun w => by cases w <;> rfl)
  | _ =>
    cases hx
    exact ⟨h.limit, h.sums, h.peak⟩

theorem ledger (limits : Window → F64) : (machine true).Ledger (monitor true) (fun _ _ => True)
    (Bounded limits) held (fun _ _ => 0) owed where
  body := body_wp true
  start _ _ _ _ i := by cases i <;> rfl
  step k env p t e r s' new ht hx _ _ _ hg ha hb := by
    replace hx : e.exec true env p.state = some (r, s', new) := hx
    have hwaiting : (t.view (monitor true)).waiting.toNat ≤ p.state.waiting :=
      (Pool.held_le_tally (monitor true) (held .waiting) ht).trans_eq (hb .waiting)
    refine ⟨trivial, hg.next hx ha hwaiting, fun i => ?_⟩
    rw [Op.exec_new hx]
    exact balance hx ha hwaiting i

end Books

section Runs

variable {limits : Window → F64} {as : List CostAction} {p : CostPool}

def Op.isRecord : Op → Bool
  | .countBatch => true
  | .record _ => true
  | _ => false

/-- An expensive job that was let through, and is not recorded yet. -/
def isWaiting (t : CostTask) : Bool := t.call.isExpensive && t.prog.head?.any Op.isRecord

def isSubmission (t : CostTask) : Bool := t.call matches .submit _

def isBlocked (t : CostTask) : Bool := t.result? matches some (.blocked ..)

theorem run_balanced (h : (machine true).run as (startPool limits) = some p) :
    Machine.Balanced (monitor true) (Bounded limits) held (fun _ _ => 0) owed p ∧
      ∀ t ∈ p.tasks, t.Follows (monitor true) :=
  (ledger limits).run Machine.guarded_true h (fun _ ht => nomatch ht)
    ⟨bounded_start limits, fun i => by cases i <;> rfl⟩

theorem view_expensive (t : CostTask) :
    (t.view (monitor true)).expensive = t.call.isExpensive :=
  t.view_const (monitor true) Share.expensive (by rintro v (_ | _) r <;> rfl)

theorem Share.Ended.rests {v : Share} {call : Call} {a : Answer} (h : v.Ended call a) :
    v.waiting = false := by
  cases call <;> cases a <;> simp_all [Share.Ended]

theorem held_waiting {t : CostTask} (h : t.Follows (monitor true)) :
    held .waiting (t.view (monitor true)) = if isWaiting t then 1 else 0 := by
  have hexpensive := view_expensive t
  cases hp : t.prog with
  | ret a =>
    have hfin : (t.view (monitor true)).Ended t.call a := h.finished (by simp [Task.result?, hp])
    simp [held, isWaiting, hp, hfin.rests]
  | op e next =>
    have ha : (t.view (monitor true)).Allows e := h.allowed hp
    cases e with
    | countBatch =>
      have hw : (t.view (monitor true)).waiting = _ := ha
      rw [hexpensive] at hw
      cases hcall : t.call.isExpensive <;> simp [held, isWaiting, hp, Op.isRecord, hw, hcall]
    | record cost =>
      have hw : (t.view (monitor true)).waiting = _ := ha.1
      rw [hexpensive] at hw
      cases hcall : t.call.isExpensive <;> simp [held, isWaiting, hp, Op.isRecord, hw, hcall]
    | _ =>
      have hw : (t.view (monitor true)).waiting = false := ha
      simp [held, isWaiting, hp, Op.isRecord, hw]

/-- What a call has counted by its end. -/
theorem held_ended {t : CostTask} (h : t.Follows (monitor true)) (hr : t.result?.isSome = true) :
    held .submitted (t.view (monitor true)) = (if isSubmission t then 1 else 0) ∧
      held .dropped (t.view (monitor true)) = if isBlocked t then 1 else 0 := by
  obtain ⟨a, ha⟩ := Option.isSome_iff_exists.mp hr
  have hfin : (t.view (monitor true)).Ended t.call a := h.finished ha
  unfold isSubmission isBlocked
  rw [ha]
  cases hcall : t.call <;> cases a <;> rw [hcall] at hfin <;>
    simp_all [Share.Ended, held]

/-- However submissions and ticks interleave, what is spent on expensive jobs within a minute or
an hour stays below hard pressure, but for as many jobs of the greatest cost as ever were between
their check and their record at once, and the rounding of each of these. -/
theorem expensive_spending_bounded (h : (machine true).run as (startPool limits) = some p) :
    (∀ w, ∃ spent, p.state.spent w = .finite spent ∧ ∀ c, cap (limits w) = some c →
      spent ≤ (c + 2 * p.state.peak) * (1 + 1 / 2 ^ 53) ^ p.state.peak) ∧
    p.state.waiting = (p.tasks.filter isWaiting).length ∧
    ((∀ t ∈ p.tasks, t.result?.isSome = true) →
      p.state.totalSubmitted = (p.tasks.filter isSubmission).length ∧
      p.state.costDropCount = (p.tasks.filter isBlocked).length) := by
  obtain ⟨⟨hbounded, hbooks⟩, hfollows⟩ := run_balanced h
  refine ⟨fun w => ?_, ?_, fun hrest => ⟨?_, ?_⟩⟩
  · obtain ⟨spent, current, hspent, -, -, hroom⟩ := hbounded.sums w
    refine ⟨spent, hspent.eq, fun c hc => ?_⟩
    calc spent
      _ ≤ grow^[p.state.waiting] spent := iterate_grow_le hspent.nonneg (Nat.zero_le _)
      _ ≤ grow^[p.state.peak] c := hroom c hc
      _ ≤ _ := iterate_grow_closed c _
  · rw [← Pool.tally_count (held .waiting) isWaiting fun t ht => held_waiting (hfollows t ht)]
    exact (hbooks .waiting).symm
  · rw [← Pool.tally_count (held .submitted) isSubmission fun t ht =>
      (held_ended (hfollows t ht) (hrest t ht)).1]
    exact (hbooks .submitted).symm
  · rw [← Pool.tally_count (held .dropped) isBlocked fun t ht =>
      (held_ended (hfollows t ht) (hrest t ht)).2]
    exact (hbooks .dropped).symm

/-- Two jobs of the greatest cost, both of which are checked before either is recorded. -/
def bothChecked : List CostAction :=
  let job : Job := { kind := .monteCarloRisk, computeCost := 2000000 }
  [.start (.submit job), .start (.submit job), .step 0 none, .step 0 none, .step 1 none,
    .step 1 none, .step 0 none, .step 1 none]

theorem expensive_spending_bounded_twice : ∃ p spent,
    (machine true).run bothChecked (startPool fun _ => .finite 1) = some p ∧
      p.state.spent .minute = .finite spent ∧ spent = 4 ∧
      spent ≤ (max 0 (hardShare * 1) + 2 * p.state.peak) * (1 + 1 / 2 ^ 53) ^ p.state.peak := by
  have hrun : (((machine true).run bothChecked (startPool fun _ => .finite 1)).any fun p =>
      p.state.spent .minute == .finite 4) = true := by decide +kernel
  obtain ⟨p, h, hp⟩ := (Option.any_eq_true _ _).mp hrun
  obtain ⟨spent, hspent, hbound⟩ := (expensive_spending_bounded h).1 .minute
  have hfour : F64.finite spent = .finite 4 := hspent.symm.trans (beq_iff_eq.mp hp)
  exact ⟨p, spent, h, hspent, F64.finite.inj hfour, hbound _ rfl⟩

end Runs

end HelixRouter.CostRouting
