import HelixRouter.Bulkhead.TryExecute

namespace HelixRouter.Bulkhead

open Interleaving

variable {T : Type}

/-- What one call has added to the shared counters and not taken back. `left` is
what it was counted for when its future was dropped. -/
structure Share where
  full : Bool := false
  queued : Nat := 0
  inFlight : Nat := 0
  permits : Nat := 0
  leftQueued : Nat := 0
  leftInFlight : Nat := 0

namespace Share

def next (config : BulkheadConfig) (v : Share) : (e : Op) → e.Resp T → Share
  | .loadInFlight, n => { v with full := v.full || decide (config.maxConcurrent.toNat ≤ n) }
  | .addQueued, _ => { v with queued := v.queued + 1 }
  | .subQueued, _ => { v with queued := v.queued - 1 }
  | .addInFlight, _ => { v with inFlight := v.inFlight + 1 }
  | .subInFlight, _ => { v with inFlight := v.inFlight - 1 }
  | .acquire, .ready () => { v with permits := v.permits + 1 }
  | .acquire, .dropped => { v with leftQueued := v.leftQueued + v.queued }
  | .run, .dropped => { v with leftInFlight := v.leftInFlight + v.inFlight }
  | .release, _ => { v with permits := v.permits - 1 }
  | _, _ => v

/-- A call that waits is counted if it saw the bulkhead full. -/
def Waits (v : Share) : Prop :=
  v.queued = v.full.toNat ∧ v.inFlight = 0 ∧ v.permits = 0 ∧ v.leftQueued = 0 ∧ v.leftInFlight = 0

/-- A call whose future runs holds one permit and counts as in flight. -/
def Runs (v : Share) : Prop :=
  v.queued = 0 ∧ v.inFlight = 1 ∧ v.permits = 1 ∧ v.leftQueued = 0 ∧ v.leftInFlight = 0

/-- A call that ended leaves what it was counted for when it was dropped. -/
def Ended (v : Share) : Prop :=
  v.permits = 0 ∧ v.queued = v.leftQueued ∧ v.inFlight = v.leftInFlight

/-- Nothing is taken back that was not added. -/
def Allows (v : Share) : Op → Prop
  | .subQueued => 1 ≤ v.queued
  | .subInFlight => 1 ≤ v.inFlight
  | .release => 1 ≤ v.permits
  | .acquire => v.Waits
  | .run => v.Runs
  | _ => True

end Share

def monitor (config : BulkheadConfig) : Monitor Op (Op.Resp T) Unit (Answer T) Share where
  init _ := {}
  next := Share.next config
  allow := Share.Allows
  may _ _ _ := True
  fin _ _ := Share.Ended

section Bodies

variable {config : BulkheadConfig}

@[simp] theorem monitor_next (v : Share) (e : Op) (r : e.Resp T) :
    (monitor config).next v e r = v.next config e r := rfl

@[simp] theorem monitor_allow (v : Share) (e : Op) :
    (monitor (T := T) config).allow v e ↔ v.Allows e := Iff.rfl

@[simp] theorem monitor_may (v : Share) (e : Op) (r : e.Resp T) :
    (monitor config).may v e r := trivial

attribute [local simp] Share.next Share.Allows Share.Waits Share.Runs Share.Ended

theorem execute_wp (full : Bool) : (execute (T := T)).wp (monitor config) (fun _ => Share.Ended)
    { full := full, permits := 1 } := by
  simp [execute]
  intro r
  cases r <;> simp

theorem waitPermit_wp (full : Bool) : (waitPermit (T := T) full).wp (monitor config)
    (fun _ => Share.Ended) { full := full } := by
  cases full with
  | false =>
    simp [waitPermit]
    intro r
    cases r with
    | ready => exact execute_wp false
    | _ => simp
  | true =>
    simp [waitPermit]
    intro r
    cases r with
    | ready =>
      simp
      exact execute_wp true
    | _ => simp

/-- Every end of a call, at either await or after, leaves what the monitor expects. -/
theorem tryExecute_wp :
    (tryExecute (T := T) config).wp (monitor config) (fun _ => Share.Ended) {} := by
  simp [tryExecute]
  intro inFlight queued _
  exact waitPermit_wp _

end Bodies

inductive Gauge where
  | queued
  | inFlight
  | permits

def Gauge.held : Gauge → Share → Nat
  | .queued, v => v.queued
  | .inFlight, v => v.inFlight
  | .permits, v => v.permits

def Gauge.stock : Gauge → BulkheadState → Nat
  | .permits, s => s.permits
  | _, _ => 0

def Gauge.owed (config : BulkheadConfig) : Gauge → BulkheadState → Nat
  | .queued, s => s.queued
  | .inFlight, s => s.inFlight
  | .permits, _ => config.maxConcurrent.toNat

attribute [local simp] Share.next Share.Allows Gauge.held Gauge.stock Gauge.owed

/-- The counters are what the calls have added and not taken back, and every permit
is free or held by one call. -/
theorem ledger (config : BulkheadConfig) : (machine (T := T) config).Ledger (monitor config)
    (fun _ _ => True) (fun _ => True) Gauge.held Gauge.stock (Gauge.owed config) where
  body _ := tryExecute_wp
  start _ _ _ _ g := by cases g <;> rfl
  step k env p t e r s' new ht hx _ _ _ _ ha hb := by
    have hx : e.exec env p.state = some (r, s', new) := hx
    have ha : (t.view (monitor config)).Allows e := ha
    refine ⟨trivial, trivial, fun g => ?_⟩
    rw [Op.exec_new hx]
    have hle := Pool.held_le_tally (monitor config) g.held ht
    have hg := hb g
    revert hle hg
    change _ → _ → ((t.view (monitor config)).next config e r |> g.held) + 0 + _ + _ = _
    generalize p.tally (monitor config) g.held = n
    generalize t.view (monitor config) = v at ha
    cases e with
    | acquire =>
      obtain ⟨_, ⟨rfl, h0, rfl⟩ | ⟨hr, rfl⟩⟩ := Op.exec_acquire hx
      · cases g <;> simp
        omega
      · cases r with
        | ready => exact absurd rfl hr
        | _ => cases g <;> simp
    | run =>
      cases hx
      cases env.output <;> cases g <;> simp
    | _ =>
      cases hx
      cases g <;> simp at ha ⊢ <;> omega

/-- A call is at rest before its first step, where it awaits, and once it has ended. -/
def AtRest (t : BulkheadTask T) : Prop :=
  t.trace = [] ∨ t.prog.head? = some .acquire ∨ t.prog.head? = some .run ∨ t.result?.isSome

/-- Whether the call has read an `inFlight` at the limit. -/
def sawFull (config : BulkheadConfig) (t : BulkheadTask T) : Bool :=
  t.trace.any fun
    | ⟨.loadInFlight, n⟩ => decide (config.maxConcurrent.toNat ≤ n)
    | _ => false

def waitsFull (config : BulkheadConfig) (t : BulkheadTask T) : Bool :=
  t.prog.head? == some .acquire && sawFull config t

def permitsHeld (config : BulkheadConfig) (p : BulkheadPool T) : Nat :=
  config.maxConcurrent.toNat - p.state.permits

structure GaugesRight (config : BulkheadConfig) (p : BulkheadPool T) : Prop where
  inFlight : p.state.inFlight = permitsHeld config p
  queued : p.state.queued = (p.tasks.filter (waitsFull config)).length

/-- The step drops no call while its future runs, and none that saw the bulkhead full
while it waits. -/
def KeepsCounted (config : BulkheadConfig) : BulkheadAction T → BulkheadPool T → Prop
  | .start _, _ => True
  | .step i env, p => ∀ t, p.tasks[i]? = some t →
    (t.prog.head? = some .run → env.output ≠ .dropped) ∧
      (t.prog.head? = some .acquire → sawFull config t = true → env.permit ≠ .dropped)

/-- What calls that were dropped are still counted for. -/
def left (v : Share) : Nat := v.leftQueued + v.leftInFlight

section Views

variable {config : BulkheadConfig} {t : BulkheadTask T}

theorem view_full (config : BulkheadConfig) (t : BulkheadTask T) :
    (t.view (monitor config)).full = sawFull config t := by
  have h : ∀ (evs : List (Sigma (Op.Resp T))) (v : Share),
      (evs.foldl (fun v ev => v.next config ev.1 ev.2) v).full = (v.full || evs.any fun
        | ⟨.loadInFlight, n⟩ => decide (config.maxConcurrent.toNat ≤ n)
        | _ => false) := by
    intro evs
    induction evs with
    | nil => simp
    | cons ev evs ih =>
      intro v
      obtain ⟨e, r⟩ := ev
      rw [List.foldl_cons, ih, List.any_cons, ← Bool.or_assoc]
      congr 1
      cases e with
      | loadInFlight => rfl
      | acquire => cases r <;> simp
      | run => cases r <;> simp
      | _ => simp
  exact h t.trace {}

/-- At rest a call is counted as in flight for its permit and as queued while it waits,
and besides only for what it left. -/
theorem share_at_rest (hf : t.Follows (monitor config)) (hr : AtRest t) :
    (t.view (monitor config)).inFlight =
      (t.view (monitor config)).permits + (t.view (monitor config)).leftInFlight ∧
    (t.view (monitor config)).queued =
      (if waitsFull config t then 1 else 0) + (t.view (monitor config)).leftQueued := by
  have hfull := view_full config t
  rcases hr with h | h | h | h
  · have hv : t.view (monitor config) = {} := by simp [Task.view, h, monitor]
    have hs : sawFull config t = false := by simp [sawFull, h]
    simp [hv, waitsFull, hs]
  · obtain ⟨hq, hi, hp, hlq, hli⟩ := hf.allowed_head h
    rw [hq, hi, hp, hlq, hli, hfull]
    cases hs : sawFull config t <;> simp [waitsFull, h, hs]
  · obtain ⟨hq, hi, hp, hlq, hli⟩ := hf.allowed_head h
    rw [hq, hi, hp, hlq, hli]
    simp [waitsFull, h]
  · obtain ⟨a, ha⟩ := Option.isSome_iff_exists.mp h
    obtain ⟨hp, hq, hi⟩ := hf.finished ha
    have hnone : waitsFull config t = false := by
      unfold waitsFull
      cases hprog : t.prog with
      | ret _ => rfl
      | op e next => simp [Task.result?, hprog] at ha
    rw [hp, hq, hi, hnone]
    simp

end Views

section Runs

variable {config : BulkheadConfig} {p0 p q : BulkheadPool T}
  {as : List (BulkheadAction T)}

/-- The counters are right at rest exactly if no dropped call is still counted. -/
theorem gauges_right_iff_none_left
    (hb : Machine.Balanced (monitor config) (fun _ => True) Gauge.held Gauge.stock
      (Gauge.owed config) p)
    (hf : ∀ t ∈ p.tasks, t.Follows (monitor config)) (hr : ∀ t ∈ p.tasks, AtRest t) :
    GaugesRight config p ↔ p.tally (monitor config) left = 0 := by
  have hin : p.tally (monitor config) Share.inFlight =
      p.tally (monitor config) Share.permits + p.tally (monitor config) Share.leftInFlight := by
    rw [← Pool.tally_add]
    exact Pool.tally_congr fun t ht => (share_at_rest (hf t ht) (hr t ht)).1
  have hqueue : p.tally (monitor config) Share.queued =
      (p.tasks.filter (waitsFull config)).length +
        p.tally (monitor config) Share.leftQueued := by
    have hcount : p.tally (monitor config) (fun v => v.queued - v.leftQueued) =
        (p.tasks.filter (waitsFull config)).length := by
      refine Pool.tally_count _ _ fun t ht => ?_
      have := (share_at_rest (hf t ht) (hr t ht)).2
      omega
    rw [← hcount, ← Pool.tally_add]
    refine Pool.tally_congr fun t ht => ?_
    have := (share_at_rest (hf t ht) (hr t ht)).2
    omega
  have hleft : p.tally (monitor config) left = p.tally (monitor config) Share.leftQueued +
      p.tally (monitor config) Share.leftInFlight := Pool.tally_add _ _ p
  have hq : p.tally (monitor config) Share.queued + 0 = p.state.queued := hb.2 .queued
  have hi : p.tally (monitor config) Share.inFlight + 0 = p.state.inFlight := hb.2 .inFlight
  have hp : p.tally (monitor config) Share.permits + p.state.permits =
    config.maxConcurrent.toNat := hb.2 .permits
  constructor
  · intro hg
    have h1 := hg.inFlight
    have h2 := hg.queued
    unfold permitsHeld at h1
    omega
  · intro h0
    refine ⟨?_, ?_⟩
    · unfold permitsHeld
      omega
    · omega

/-- A step leaves something exactly when it drops a counted call. -/
theorem left_step {a : BulkheadAction T} (hf : ∀ t ∈ p.tasks, t.Follows (monitor config))
    (hs : (machine config).Step a p q) : q.tally (monitor config) left = 0 ↔
      p.tally (monitor config) left = 0 ∧ KeepsCounted config a p := by
  cases hs with
  | start c s tasks _ =>
    simp [Pool.tally, KeepsCounted, left, monitor]
  | step env pre post t e next r s s' new hp hx =>
    have hx : e.exec env s = some (r, s', new) := hx
    have ha := (hf t (by simp)).allowed hp
    have hfull := view_full config t
    rw [Op.exec_new hx, List.map_nil, List.append_nil, Pool.tally_split, Pool.tally_split,
      Task.view_advance]
    have hk : KeepsCounted config (.step pre.length env) ⟨s, pre ++ t :: post⟩ ↔
        (e = .run → env.output ≠ .dropped) ∧
          (e = .acquire → sawFull config t = true → env.permit ≠ .dropped) := by
      simp [KeepsCounted, hp]
    rw [hk, ← hfull]
    generalize t.view (monitor config) = v at ha
    have hstep : left (v.next config e r) = 0 ↔ left v = 0 ∧
        (e = .run → env.output ≠ .dropped) ∧
          (e = .acquire → v.full = true → env.permit ≠ .dropped) := by
      cases e with
      | acquire =>
        obtain ⟨hq, -⟩ := (show v.Waits from ha)
        obtain ⟨rfl, -⟩ := Op.exec_acquire hx
        cases env.permit with
        | dropped =>
          simp [left, hq]
          exact and_right_comm
        | _ => simp [left]
      | run =>
        obtain ⟨-, hi, -⟩ := (show v.Runs from ha)
        cases hx
        cases env.output <;> simp [left, hi]
      | _ => simp [left]
    change left (v.next config e r) + _ = 0 ↔ _
    rw [Nat.add_eq_zero_iff, Nat.add_eq_zero_iff, hstep, and_right_comm]

theorem run_balanced (hn : new config = some p0) (hr : (machine config).run as p0 = some p) :
    Machine.Balanced (monitor config) (fun _ => True) Gauge.held Gauge.stock
      (Gauge.owed config) p ∧ ∀ t ∈ p.tasks, t.Follows (monitor config) := by
  rw [new_eq hn] at hr
  refine (ledger config).run Machine.guarded_true hr (by simp [startPool]) ⟨trivial, fun g => ?_⟩
  cases g <;> simp [startPool, Pool.tally]

theorem none_left_iff (hn : new config = some p0) (hr : (machine config).run as p0 = some p) :
    p.tally (monitor config) left = 0 ↔ (machine config).Guarded (KeepsCounted config) as p0 := by
  have hstart := run_balanced hn (show (machine config).run [] p0 = some p0 from rfl)
  have h := Machine.run_iff_guarded (J := fun q => Machine.Balanced (monitor config)
    (fun _ => True) Gauge.held Gauge.stock (Gauge.owed config) q ∧
      ∀ t ∈ q.tasks, t.Follows (monitor config))
    (P := fun q => q.tally (monitor config) left = 0) (G := KeepsCounted config) hr
    hstart (fun a q q' hq hs =>
      ⟨(ledger config).invariant.preserved (G := fun _ _ => True) hs trivial hq.1 hq.2,
        left_step hq.2 hs⟩)
  rw [h, new_eq hn]
  simp [startPool, Pool.tally]

/-- Whenever no call is between two of its own steps the gauges are right, and once all
calls have ended they are zero, exactly in the runs that drop no call while its future
runs and none that saw the bulkhead full while it waits. -/
theorem gauges_right_iff (hn : new config = some p0) (hr : (machine config).run as p0 = some p) :
    ((∀ t ∈ p.tasks, AtRest t) →
      (GaugesRight config p ↔ (machine config).Guarded (KeepsCounted config) as p0)) ∧
    ((∀ t ∈ p.tasks, t.result?.isSome) →
      (p.state.inFlight = 0 ∧ p.state.queued = 0 ↔
        (machine config).Guarded (KeepsCounted config) as p0)) := by
  obtain ⟨hb, hf⟩ := run_balanced hn hr
  rw [← none_left_iff hn hr]
  refine ⟨gauges_right_iff_none_left hb hf, fun hend => ?_⟩
  have hrest : ∀ t ∈ p.tasks, AtRest t := fun t ht => .inr (.inr (.inr (hend t ht)))
  have hq : p.tally (monitor config) Share.queued + 0 = p.state.queued := hb.2 .queued
  have hi : p.tally (monitor config) Share.inFlight + 0 = p.state.inFlight := hb.2 .inFlight
  have hleft : p.tally (monitor config) left = p.tally (monitor config) Share.queued +
      p.tally (monitor config) Share.inFlight := by
    rw [← Pool.tally_add]
    refine Pool.tally_congr fun t ht => ?_
    obtain ⟨a, ha⟩ := Option.isSome_iff_exists.mp (hend t ht)
    obtain ⟨-, hq, hi⟩ := (hf t ht).finished ha
    rw [left, hq, hi]
  omega

end Runs

theorem exists_run (config : BulkheadConfig) (as : List (BulkheadAction T))
    (f : BulkheadPool T → Bool)
    (h : ((new config).bind ((machine config).run as)).any f = true) :
    ∃ p0 p, new config = some p0 ∧ (machine config).run as p0 = some p ∧ f p = true := by
  obtain ⟨p, hp, hf⟩ := (Option.any_eq_true f _).mp h
  obtain ⟨p0, hn, hr⟩ := Option.bind_eq_some_iff.mp hp
  exact ⟨p0, p, hn, hr, hf⟩

/-- Some turns of one call. -/
def turns (i n : Nat) (env : Env T) : List (BulkheadAction T) := List.replicate n (.step i env)

/-- Two calls at once, one of them through the queue, both run to the end. -/
def twoCalls : List (BulkheadAction Unit) :=
  .start () :: .start () :: turns 0 4 {} ++ turns 1 3 {} ++
    turns 0 4 { output := .ready () } ++ turns 1 7 { output := .ready () }

theorem twoCalls_right : ∃ p0 p, new { maxConcurrent := 1 } = some p0 ∧
    (machine { maxConcurrent := 1 }).run twoCalls p0 = some p ∧ p.state.totalCompleted = 2 ∧
    (machine { maxConcurrent := 1 }).Guarded (KeepsCounted { maxConcurrent := 1 }) twoCalls p0 ∧
    GaugesRight { maxConcurrent := 1 } p := by
  obtain ⟨p0, p, hn, hr, hp⟩ := exists_run { maxConcurrent := 1 } twoCalls
    (fun p => p.state.totalCompleted == 2 && p.tasks.all (fun t => t.result?.isSome) &&
      p.state.inFlight == 0 && p.state.queued == 0) (by decide +kernel)
  simp only [Bool.and_eq_true, beq_iff_eq, List.all_eq_true] at hp
  obtain ⟨⟨⟨hc, hend⟩, h1⟩, h2⟩ := hp
  obtain ⟨hright, hzero⟩ := gauges_right_iff hn hr
  have hkeeps := (hzero hend).mp ⟨h1, h2⟩
  exact ⟨p0, p, hn, hr, hc, hkeeps,
    (hright fun t ht => .inr (.inr (.inr (hend t ht)))).mpr hkeeps⟩

/-- A call dropped while its future runs, one that finds the bulkhead full for it and
is dropped while it waits, and a third. -/
def droppedCalls : List (BulkheadAction Unit) :=
  .start () :: turns 0 6 { output := .dropped } ++
    .start () :: turns 1 4 { permit := .dropped } ++ .start () :: turns 2 3 {}

/-- With every permit free the third call is turned away. -/
theorem drops_shrink_the_bulkhead : ∃ p0 p,
    new { maxConcurrent := 1, maxQueueSize := 1 } = some p0 ∧
    (machine { maxConcurrent := 1, maxQueueSize := 1 }).run droppedCalls p0 = some p ∧
    (∀ t ∈ p.tasks, t.result?.isSome = true) ∧ p.state.permits = 1 ∧ p.state.inFlight = 1 ∧
    p.state.queued = 1 ∧ p.state.totalRejected = 1 ∧
    ¬ GaugesRight { maxConcurrent := 1, maxQueueSize := 1 } p := by
  obtain ⟨p0, p, hn, hr, hp⟩ := exists_run { maxConcurrent := 1, maxQueueSize := 1 } droppedCalls
    (fun p => p.tasks.all (fun t => t.result?.isSome) && p.state.permits == 1 &&
      p.state.inFlight == 1 && p.state.queued == 1 && p.state.totalRejected == 1)
    (by decide +kernel)
  simp only [Bool.and_eq_true, beq_iff_eq, List.all_eq_true] at hp
  obtain ⟨⟨⟨⟨hend, hfree⟩, hin⟩, hq⟩, hrej⟩ := hp
  refine ⟨p0, p, hn, hr, hend, hfree, hin, hq, hrej, fun hg => ?_⟩
  have := hg.inFlight
  rw [hin, permitsHeld, hfree] at this
  cases this

end HelixRouter.Bulkhead
