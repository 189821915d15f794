import HelixRouter.Router.LiveConfig

namespace HelixRouter.Permits

open Interleaving

/-- A worker is started with the permit its dispatcher acquired. -/
def held : Call → Nat
  | .cpuWorker _ => 1
  | _ => 0

def next (v : Nat) : (e : Op) → e.Resp → Nat
  | .acquire, granted => if granted then v + 1 else v
  | .release, _ => v - 1
  | .spawn c, _ => v - held c
  | _, _ => v

/-- A permit is returned or handed on only by a task that holds one. -/
def needs : Op → Nat
  | .release => 1
  | .spawn c => held c
  | _ => 0

def monitor : Monitor Op Op.Resp Call Answer Nat where
  init := held
  next := next
  allow v e := needs e ≤ v
  may _ _ _ := True
  fin _ _ v := v = 0

@[simp] theorem monitor_next (v : Nat) (e : Op) (r : e.Resp) : monitor.next v e r = next v e r := rfl

@[simp] theorem monitor_allow (v : Nat) (e : Op) : monitor.allow v e ↔ needs e ≤ v := Iff.rfl

@[simp] theorem monitor_may (v : Nat) (e : Op) (r : e.Resp) : monitor.may v e r := trivial

def quietAreas : List Area := [.routine, .compute, .config, .pool, .reply, .batch, .signal]

theorem quiet {e : Op} (h : e.Within quietAreas) (v : Nat) : monitor.Quiet v e := by
  cases e with
  | acquire => simp [Op.Within, Op.area, quietAreas] at h
  | release => simp [Op.Within, Op.area, quietAreas] at h
  | spawn c => simp [Op.Within, Op.area, quietAreas] at h
  | _ => exact ⟨Nat.zero_le v, fun _ _ => rfl⟩

theorem quiet_wp {A : Type} {P : Op → Prop} {p : RouterM A} (h : p.All P)
    (hq : ∀ e, P e → e.Within quietAreas) {post : A → Nat → Prop} {v : Nat}
    (hp : ∀ a, post a v) : p.wp monitor post v := h.wp (fun e he => quiet (hq e he) v) hp

attribute [local simp] next needs held bumpRoute

theorem runFinished_wp (hint : WorkHint) (frac : Option ℚ) (result : Except Rejected Unit) :
    (runFinished hint frac result).wp monitor (fun _ v => v = 0) 0 := by
  cases result <;> simp [runFinished]

theorem runWith_wp (strategy : Strategy) (hint : WorkHint) (frac : Option ℚ) :
    (runWith strategy hint frac).wp monitor (fun _ v => v = 0) 0 := by
  have hpool : (runWith .cpuPool hint frac).wp monitor (fun _ v => v = 0) 0 := by
    simp [runWith, runPooled, runFinished_wp]
  cases strategy with
  | cpuPool => exact hpool
  | batch => exact hpool
  | _ => simp [runWith, runFinished_wp]

theorem run_wp (hint : WorkHint) : (run hint).wp monitor (fun _ v => v = 0) 0 := by
  simp [run, runRouted]
  intro env _ cfg threshold available available'
  exact runWith_wp _ _ _

theorem cpuWorker_wp (w : CpuWork) : (cpuWorker w).wp monitor (fun _ v => v = 0) 1 := by
  refine ⟨by simp, fun cancelled _ => ⟨by simp, ?_⟩⟩
  rintro (_ | out) <;> simp

theorem cpuDispatchLoop_wp : cpuDispatchLoop.wp monitor (fun _ v => v = 0) 0 := by
  simp [cpuDispatchLoop]
  rintro (_ | w) <;> simp

theorem batchFlusher_wp (idx : Fin 3) : (batchFlusher idx).wp monitor (fun _ v => v = 0) 0 := by
  simp [batchFlusher]
  intro cfg
  exact quiet_wp (flushBatchKind_all _) (fun e h => h.mono (by simp [quietAreas])) fun _ => by simp

/-- Whoever gets a permit gives it back or hands it to a worker before ending. -/
theorem body_wp [F64Text] (c : Call) :
    (callBody c).wp monitor (monitor.fin c) (monitor.init c) := by
  cases c with
  | submit job =>
    exact (Prog.wp_bind _ _ _ _).mpr (quiet_wp (submit_all job)
      (fun e h => h.mono (by simp [submitAreas, quietAreas])) fun _ => rfl)
  | run hint => exact run_wp hint
  | cpuDispatchLoop => exact (Prog.wp_bind _ _ _ _).mpr cpuDispatchLoop_wp
  | cpuWorker w => exact (Prog.wp_bind _ _ _ _).mpr (cpuWorker_wp w)
  | batchFlusher idx => exact (Prog.wp_bind _ _ _ _).mpr (batchFlusher_wp idx)
  | _ =>
    exact quiet_wp (callBody_all _ rfl)
      (fun e h => (Op.within_of_configures h).mono (by simp [quietAreas])) fun _ => rfl

/-- Every permit of the semaphore is free or held by one task. -/
theorem ledger [F64Text] (permits : Nat) : machine.Ledger (ι := Unit) monitor (fun _ _ => True)
    (fun _ => True) (fun _ => id) (fun _ s => s.cpuSlots) (fun _ _ => permits) where
  body := body_wp
  start c p hc _ _ := by cases c <;> first | rfl | cases hc
  step k env p t e r s' new _ hx _ _ _ _ ha _ := by
    have hx : e.exec env p.state = some (r, s', new) := hx
    have ha : needs e ≤ t.view monitor := ha
    refine ⟨trivial, trivial, fun _ => ?_⟩
    rw [Op.exec_new hx, Op.exec_cpuSlots hx]
    change next (t.view monitor) e r + (e.spawns.map held).sum + e.slotsAfter r p.state.cpuSlots +
      permits = t.view monitor + p.state.cpuSlots + permits
    cases e with
    | acquire =>
      cases r with
      | false => simp [Op.spawns, Op.slotsAfter]
      | true =>
        have hfree := Op.exec_acquire hx
        simp only [next, Op.spawns, Op.slotsAfter, if_true, List.map_nil, List.sum_nil]
        omega
    | release =>
      simp only [next, Op.spawns, Op.slotsAfter, List.map_nil, List.sum_nil]
      simp only [needs] at ha
      omega
    | spawn c =>
      simp only [next, Op.spawns, Op.slotsAfter, List.map_cons, List.map_nil, List.sum_cons,
        List.sum_nil]
      simp only [needs] at ha
      omega
    | _ => simp [Op.spawns, Op.slotsAfter]

/-- The permits in use, by whoever holds them. -/
def inUse (p : RouterPool) : Nat := p.tally monitor id

theorem inUse_add_free [F64Text] (cfg : RouterConfig) (as : List RouterAction) :
    machine.Always (fun p => inUse p + p.state.cpuSlots = cfg.cpuParallelism.toNat) as
      (startPool cfg) :=
  (ledger_always (ledger cfg.cpuParallelism.toNat) trivial (fun _ => Nat.zero_add _)
    Machine.guarded_true).imp fun _ hp => hp.2 ()

/-- Only `run` guards the division of its queue fraction. -/
def fraction (c : Call) (cfg : RouterConfig) (available : Nat) : Option ℚ :=
  match c with
  | .run _ => queueFrac available (max cfg.cpuParallelism 1)
  | _ => queueFrac available cfg.cpuParallelism

/-- What a task measures when it reads the free permits: as many busy workers as
permits in use, and a fraction of a queue. -/
def Measures (p : RouterPool) (t : RouterTask) (cfg : RouterConfig) : Prop :=
  (busyWorkers cfg p.state.cpuSlots).toNat = inUse p ∧
    ∃ f, fraction t.call cfg p.state.cpuSlots = some f ∧ 0 ≤ f ∧ f ≤ 1

def aboutToMeasure (t : RouterTask) : Bool :=
  match t.prog.head? with
  | some .availablePermits => true
  | _ => false

/-- A task about to read the free permits, with the snapshot it routes with. -/
def Reads (t : RouterTask) (cfg : RouterConfig) : Prop :=
  aboutToMeasure t = true ∧ LiveConfig.snapshot t = some cfg

theorem toNat_busyWorkers (cfg : RouterConfig) {free : Nat} (h : free ≤ maxPermits) :
    (busyWorkers cfg free).toNat = cfg.cpuParallelism.toNat - free := by
  rw [busyWorkers, toNat_saturatingSub, UInt64.toNat_ofNat_of_lt']
  exact Nat.lt_of_le_of_lt h (by decide)

theorem max_parallelism {cfg : RouterConfig} (h : cfg.cpuParallelism ≠ 0) :
    max cfg.cpuParallelism 1 = cfg.cpuParallelism := by
  have h0 : cfg.cpuParallelism.toNat ≠ 0 := fun hz => h (UInt64.toNat.inj hz)
  apply UInt64.toNat.inj
  rw [toNat_max]
  exact Nat.max_eq_left (Nat.pos_of_ne_zero h0)

theorem fraction_eq (c : Call) {cfg : RouterConfig} (h : cfg.cpuParallelism ≠ 0) (free : Nat) :
    fraction c cfg free = some (1 - (free : ℚ) / toRat cfg.cpuParallelism) := by
  cases c <;> simp [fraction, queueFrac, max_parallelism h, h]

theorem fraction_unit (free : Nat) {par : UInt64} (h : par ≠ 0) :
    (0 ≤ 1 - (free : ℚ) / toRat par ∧ 1 - (free : ℚ) / toRat par ≤ 1) ↔ free ≤ par.toNat := by
  have hpos : (0 : ℚ) < toRat par := by
    have : par.toNat ≠ 0 := fun hz => h (UInt64.toNat.inj hz)
    exact Nat.cast_pos.mpr (Nat.pos_of_ne_zero this)
  have hnonneg : 0 ≤ (free : ℚ) / toRat par := div_nonneg (Nat.cast_nonneg free) hpos.le
  have hle : (free : ℚ) / toRat par ≤ 1 ↔ free ≤ par.toNat := by
    rw [div_le_one hpos]
    exact Nat.cast_le
  constructor
  · intro hf
    exact hle.mp (by linarith [hf.1])
  · intro hf
    have := hle.mpr hf
    constructor <;> linarith

/-- The measure is right exactly with the parallelism the semaphore was made for. -/
theorem measures_iff {p : RouterPool} {built : UInt64} (hb : built.toNat ≤ maxPermits)
    (hfree : inUse p + p.state.cpuSlots = built.toNat) (t : RouterTask) {cfg : RouterConfig}
    (hc : cfg.cpuParallelism ≠ 0) : Measures p t cfg ↔ cfg.cpuParallelism = built := by
  have hle : p.state.cpuSlots ≤ maxPermits := by omega
  have hbusy := toNat_busyWorkers cfg hle
  have hunit := fraction_unit p.state.cpuSlots hc
  have hpos : cfg.cpuParallelism.toNat ≠ 0 := fun h => hc (UInt64.toNat.inj h)
  unfold Measures
  rw [hbusy]
  simp only [fraction_eq t.call hc, Option.some.injEq, exists_eq_left', hunit]
  constructor
  · rintro ⟨hm, hle⟩
    exact UInt64.toNat.inj (by omega)
  · rintro rfl
    omega

/-- A run measures its busy workers right exactly if every snapshot it measures with
has the parallelism the router was built with. -/
theorem busy_measured_iff [F64Text] {cfg : RouterConfig} {p0 : RouterPool} {as : List RouterAction}
    (hv : cfg.validate = .ok ()) (hn : Router.new cfg = some p0)
    (ha : machine.Guarded LiveConfig.Admissible as p0) :
    machine.Always (fun p => ∀ t ∈ p.tasks, ∀ c, Reads t c → Measures p t c) as p0 ↔
      machine.Always (fun p => ∀ t ∈ p.tasks, ∀ c, Reads t c →
        c.cpuParallelism = cfg.cpuParallelism) as p0 := by
  have hb := (Router.new_bounds hn).2
  rw [Router.new_eq hn] at ha ⊢
  have hvalid := LiveConfig.snapshot_valid ((RouterConfig.validate_ok_iff cfg).mp hv) ha
  refine Machine.Always.congr ((hvalid.and (inUse_add_free cfg as)).imp fun p hp => ?_)
  refine forall_congr' fun t => forall_congr' fun ht => forall_congr' fun c => ?_
  refine imp_congr_right fun hr => measures_iff hb hp.2 t ?_
  exact UInt64.pos_iff_ne_zero.mp (hp.1 t ht c hr.2).parallelism_pos

/-- A reload of the parallelism, then a submission up to its first look at the permits. -/
def reloaded (par : UInt64) : List RouterAction :=
  .start (.patchConfig { cpuParallelism := some par }) :: (turns 2 4 {} ++
    .start (.submit { inputs := [1], computeCost := 100 }) :: turns 3 5 {})

theorem reloaded_admissible [F64Text] (par : UInt64) (p : RouterPool) :
    machine.Guarded LiveConfig.Admissible (reloaded par) p := by
  refine Machine.guarded_of_forall ?_ p
  intro a ha q
  simp [reloaded, turns] at ha
  rcases ha with rfl | rfl | rfl | rfl <;> trivial

def idleBusy (n : UInt64) (p : RouterPool) : Bool :=
  inUse p == 0 && p.tasks.any (fun t => aboutToMeasure t &&
    (LiveConfig.snapshot t).any (fun c => busyWorkers c p.state.cpuSlots == n))

theorem reloaded_run : ∃ p0 p, Router.new {} = some p0 ∧ machine.run (reloaded 16) p0 = some p ∧
    inUse p = 0 ∧ ∃ t ∈ p.tasks, ∃ c, Reads t c ∧ busyWorkers c p.state.cpuSlots = 8 := by
  obtain ⟨p0, p, hn, hr, hp⟩ := exists_run {} (reloaded 16) (idleBusy 8) (by decide +kernel)
  simp only [idleBusy, Bool.and_eq_true, beq_iff_eq, List.any_eq_true, Option.any_eq_true] at hp
  obtain ⟨h0, t, ht, hm, c, hc, hbusy⟩ := hp
  exact ⟨p0, p, hn, hr, h0, t, ht, c, ⟨hm, hc⟩, hbusy⟩

/-- An idle router of eight workers told to have sixteen reports eight of them busy. -/
theorem reload_reports_idle_busy : ∃ cfg p0 p, cfg.validate = .ok () ∧ Router.new cfg = some p0 ∧
    machine.Guarded LiveConfig.Admissible (reloaded 16) p0 ∧
    machine.run (reloaded 16) p0 = some p ∧ inUse p = 0 ∧
    ∃ t ∈ p.tasks, ∃ c, Reads t c ∧ busyWorkers c p.state.cpuSlots = 8 ∧ ¬ Measures p t c := by
  obtain ⟨p0, p, hn, hr, h0, t, ht, c, hread, hbusy⟩ := reloaded_run
  refine ⟨{}, p0, p, by decide +kernel, hn, reloaded_admissible 16 p0, hr, h0, t, ht, c, hread,
    hbusy, fun hm => ?_⟩
  have := hm.1
  rw [hbusy, h0] at this
  cases this

/-- The parallelism it measures with is not the one its semaphore was made for. -/
theorem reload_changes_parallelism : ∃ p0, Router.new {} = some p0 ∧
    ¬ machine.Always (fun p => ∀ t ∈ p.tasks, ∀ c, Reads t c →
      c.cpuParallelism = RouterConfig.cpuParallelism {}) (reloaded 16) p0 := by
  obtain ⟨p0, p, hn, hr, h0, t, ht, c, hread, hbusy⟩ := reloaded_run
  refine ⟨p0, hn, fun h => ?_⟩
  have hm := (busy_measured_iff (by decide +kernel) hn (reloaded_admissible 16 p0)).mpr h
  have := (hm.last hr t ht c hread).1
  rw [hbusy, h0] at this
  cases this

end HelixRouter.Permits
