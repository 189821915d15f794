import HelixRouter.Router.System

namespace HelixRouter.Containment

open Interleaving

/-- What a call of the caller's work is chosen by, what it ended with, and what the call does
to the dropped counter and the permits. -/
structure Seen where
  cfg : Option RouterConfig := none
  free : Option Nat := none
  panicked : Bool := false
  dropped : Nat := 0
  acquired : Nat := 0
  released : Nat := 0

def Seen.next (v : Seen) : (e : Op) → e.Resp → Seen
  | .readCfgArc, cfg => { v with cfg := some cfg }
  | .availablePermits, free => { v with free := some (v.free.getD free) }
  | .work, ok => { v with panicked := !ok }
  | .bump .dropped n, _ => { v with dropped := v.dropped + n }
  | .acquire, granted => { v with acquired := v.acquired + granted.toNat }
  | .release, _ => { v with released := v.released + 1 }
  | _, _ => v

/-- The panic is an error like another: reported, counted once, and no permit is lost. -/
structure Contained (a : Answer) (v : Seen) : Prop where
  reported : a = .ran (.error .panicked)
  counted : v.dropped = 1
  permits : v.acquired = v.released

/-- Cheap work on a router that is not busy. -/
def RunsInline (cfg : RouterConfig) (free : Nat) (hint : WorkHint) : Prop :=
  busyWorkers cfg free < cfg.backpressureBusyThreshold ∧ hint.computeCost ≤ cfg.inlineThreshold

/-- What is read decides whether a panic is contained. -/
def Decided (hint : WorkHint) (a : Answer) (v : Seen) : Prop :=
  v.panicked = true → ∃ cfg free, v.cfg = some cfg ∧ v.free = some free ∧
    (Contained a v ↔ ¬ RunsInline cfg free hint)

def monitor : Monitor Op Op.Resp Call Answer Seen where
  init _ := {}
  next := Seen.next
  allow _ _ := True
  may _ _ _ := True
  fin c a v := ∀ hint, c = .run hint → Decided hint a v

@[simp] theorem monitor_next (v : Seen) (e : Op) (r : e.Resp) : monitor.next v e r = v.next e r := rfl

@[simp] theorem monitor_allow (v : Seen) (e : Op) : monitor.allow v e := trivial

@[simp] theorem monitor_may (v : Seen) (e : Op) (r : e.Resp) : monitor.may v e r := trivial

theorem chooseStrategy_eq_inline_iff {cfg : RouterConfig} {threshold : UInt64} {job : Job}
    {cpuBusy : UInt64} : chooseStrategy (effectiveCfg cfg threshold) job cpuBusy = .inline ↔
      cpuBusy < cfg.backpressureBusyThreshold ∧ job.computeCost ≤ cfg.inlineThreshold := by
  unfold chooseStrategy effectiveCfg
  dsimp only
  by_cases hbusy : cfg.backpressureBusyThreshold ≤ cpuBusy
  · rw [if_pos hbusy]
    have : ¬ cpuBusy < cfg.backpressureBusyThreshold := UInt64.not_lt.mpr hbusy
    split <;> simp [this]
  · rw [if_neg hbusy]
    have hlt := UInt64.not_le.mp hbusy
    by_cases hcheap : job.computeCost ≤ cfg.inlineThreshold
    · simp [hcheap, hlt]
    · rw [if_neg hcheap]
      have hno : ¬ (cpuBusy < cfg.backpressureBusyThreshold ∧ job.computeCost ≤ cfg.inlineThreshold) :=
        fun h => hcheap h.2
      refine iff_of_false ?_ hno
      split
      · exact Strategy.noConfusion
      · split <;> exact Strategy.noConfusion

section Runs

variable {cfg : RouterConfig} {free : Nat} {hint : WorkHint} {frac : Option ℚ} {strategy : Strategy}

theorem decided_of_not_panicked {a : Answer} {v : Seen} (h : v.panicked = false) :
    Decided hint a v := fun hp => by rw [h] at hp; nomatch hp

/-- Reported where it does not run inline. -/
theorem decided_reported {v : Seen} (hcfg : v.cfg = some cfg) (hfree : v.free = some free)
    (hd : v.dropped = 1) (hp : v.acquired = v.released) (hrun : ¬ RunsInline cfg free hint) :
    Decided hint (.ran (.error .panicked)) v :=
  fun _ => ⟨cfg, free, hcfg, hfree, iff_of_true ⟨rfl, hd, hp⟩ hrun⟩

theorem decided_unwound {v : Seen} (hcfg : v.cfg = some cfg) (hfree : v.free = some free)
    (hrun : RunsInline cfg free hint) : Decided hint .unwound v :=
  fun _ => ⟨cfg, free, hcfg, hfree, iff_of_false (fun h => nomatch h.reported) (not_not_intro hrun)⟩

theorem runFinished_ok_wp (frac : Option ℚ) {v : Seen} (h : v.panicked = false) :
    (runFinished hint frac (.ok ())).wp monitor (Decided hint) v := by
  simp only [runFinished, Op.run, Prog.wp_bind, Prog.wp_perform, Prog.wp_pure]
  exact ⟨trivial, fun _ _ => ⟨trivial, fun _ _ => ⟨trivial, fun _ _ => decided_of_not_panicked h⟩⟩⟩

theorem runFinished_panicked_wp (frac : Option ℚ) {v : Seen} (hcfg : v.cfg = some cfg) (hfree : v.free = some free)
    (hd : v.dropped = 0) (hp : v.acquired = v.released) (hrun : ¬ RunsInline cfg free hint) :
    (runFinished hint frac (.error .panicked)).wp monitor (Decided hint) v := by
  simp only [runFinished, Op.run, Prog.wp_bind, Prog.wp_perform, Prog.wp_pure]
  refine ⟨trivial, fun _ _ => ⟨trivial, fun _ _ => ?_⟩⟩
  exact decided_reported hcfg hfree (congrArg (· + 1) hd) hp hrun

/-- A panic is contained where the work is called by a task of its own. -/
theorem runWith_wp (hs : strategy = .inline ↔ RunsInline cfg free hint) :
    (runWith strategy hint frac).wp monitor (Decided hint)
      { cfg := some cfg, free := some free } := by
  have hpool (hrun : ¬ RunsInline cfg free hint) : (runWith .cpuPool hint frac).wp monitor
      (Decided hint) { cfg := some cfg, free := some free } := by
    simp only [runWith, runPooled, Op.run, Prog.wp_bind, Prog.wp_perform, Prog.wp_ite]
    refine ⟨trivial, fun granted _ => ?_⟩
    cases granted with
    | false => exact ⟨trivial, fun _ _ => decided_of_not_panicked rfl⟩
    | true =>
      refine ⟨trivial, fun ok _ => ⟨trivial, fun _ _ => ?_⟩⟩
      cases ok with
      | false => exact runFinished_panicked_wp frac rfl rfl rfl rfl hrun
      | true => exact runFinished_ok_wp frac rfl
  cases strategy with
  | drop =>
    simp only [runWith, Op.run, Prog.wp_bind, Prog.wp_perform, Prog.wp_pure]
    exact ⟨trivial, fun _ _ => ⟨trivial, fun _ _ => decided_of_not_panicked rfl⟩⟩
  | inline =>
    simp only [runWith, Op.run, Prog.wp_bind, Prog.wp_perform, Prog.wp_ite]
    refine ⟨trivial, fun ok _ => ?_⟩
    cases ok with
    | false => exact decided_unwound rfl rfl (hs.mp rfl)
    | true => exact runFinished_ok_wp frac rfl
  | spawn =>
    have hrun : ¬ RunsInline cfg free hint := fun h => absurd (hs.mpr h) (by decide)
    simp only [runWith, Op.run, Prog.wp_bind, Prog.wp_perform, Prog.wp_ite]
    refine ⟨trivial, fun ok _ => ?_⟩
    cases ok with
    | false => exact runFinished_panicked_wp frac rfl rfl rfl rfl hrun
    | true => exact runFinished_ok_wp frac rfl
  | cpuPool => exact hpool fun h => absurd (hs.mpr h) (by decide)
  | batch => exact hpool fun h => absurd (hs.mpr h) (by decide)

theorem run_wp (hint : WorkHint) : (run hint).wp monitor (Decided hint) {} := by
  simp only [run, runRouted, bumpRoute, Op.run, Prog.wp_bind, Prog.wp_perform, Prog.wp_ite,
    Prog.wp_pure]
  refine ⟨trivial, fun env _ => ?_⟩
  split
  · exact ⟨trivial, fun _ _ => ⟨trivial, fun _ _ => ⟨trivial, fun _ _ =>
      decided_of_not_panicked rfl⟩⟩⟩
  · refine ⟨trivial, fun cfg _ => ⟨trivial, fun threshold _ => ⟨trivial, fun free _ =>
      ⟨trivial, fun again _ => ⟨trivial, fun _ _ => ⟨trivial, fun _ _ => ?_⟩⟩⟩⟩⟩⟩
    exact runWith_wp chooseStrategy_eq_inline_iff

end Runs

section Pools

variable [F64Text]

theorem body_wp (c : Call) : (callBody c).wp monitor (monitor.fin c) (monitor.init c) := by
  cases c with
  | run hint =>
    refine Prog.wp_mono (run_wp hint) fun a v h => ?_
    rintro _ ⟨⟩
    exact h
  | _ => exact Prog.wp_of_free (fun _ _ => trivial) fun _ _ _ h => nomatch h

theorem invariant : machine.Invariant monitor (fun _ _ => True) (fun _ => True) where
  body := body_wp
  start _ _ _ _ _ _ := trivial
  step _ _ _ _ _ _ _ _ _ _ _ _ _ _ _ _ := ⟨trivial, trivial⟩

/-- In every run, a call whose work panicked contains the panic exactly if the router it read
was busy or the work was too dear to run inline. -/
theorem panic_contained_iff {cfg : RouterConfig} {p : RouterPool} (h : Reachable cfg p)
    {t : RouterTask} (ht : t ∈ p.tasks) {hint : WorkHint} (hc : t.call = .run hint) {a : Answer}
    (ha : t.result? = some a) (hp : (t.view monitor).panicked = true) :
    ∃ read free, (t.view monitor).cfg = some read ∧ (t.view monitor).free = some free ∧
      (Contained a (t.view monitor) ↔ ¬ RunsInline read free hint) := by
  obtain ⟨p0, as, hn, hr⟩ := h
  rw [Router.new_eq hn] at hr
  have hf := (invariant.run Machine.guarded_true hr (start_follows body_wp cfg) trivial).2 t ht
  have hfin := hf.finished ha
  exact hfin hint hc hp

end Pools

/-- One call whose work panics. -/
def panicking (cost : UInt64) (n : Nat) : List RouterAction :=
  .start (.run { computeCost := cost }) :: turns 2 n { fails := true }

def panickedWith (ended : Answer → Bool) (p : RouterPool) : Bool :=
  p.tasks.any fun t => match t.call, t.result? with
    | .run _, some a => ended a && (t.view monitor).panicked
    | _, _ => false

theorem exists_panicked (cost : UInt64) (n : Nat) (ended : Answer → Bool)
    (h : ((Router.new {}).bind (machine.run (panicking cost n))).any (panickedWith ended) = true) :
    ∃ p, Reachable {} p ∧ ∃ t ∈ p.tasks, ∃ hint a, t.call = .run hint ∧ t.result? = some a ∧
      ended a = true ∧ (t.view monitor).panicked = true := by
  obtain ⟨p, hp, hf⟩ := exists_reachable {} (panicking cost n) (panickedWith ended) h
  obtain ⟨t, ht, hm⟩ := List.any_eq_true.mp hf
  refine ⟨p, hp, t, ht, ?_⟩
  split at hm
  · rename_i hint a hcall hres
    exact ⟨hint, a, hcall, hres, Bool.and_eq_true_iff.mp hm⟩
  · nomatch hm

def isReported : Answer → Bool
  | .ran (.error .panicked) => true
  | _ => false

def isUnwound : Answer → Bool
  | .unwound => true
  | _ => false

theorem panic_contained_spawned : ∃ p, Reachable {} p ∧ ∃ t ∈ p.tasks, ∃ hint a,
    isReported a = true ∧ ∃ read free, (t.view monitor).cfg = some read ∧
      (t.view monitor).free = some free ∧
      (Contained a (t.view monitor) ↔ ¬ RunsInline read free hint) := by
  obtain ⟨p, hp, t, ht, hint, a, hc, ha, hended, hpanic⟩ :=
    exists_panicked 50000 10 isReported (by decide +kernel)
  exact ⟨p, hp, t, ht, hint, a, hended, panic_contained_iff hp ht hc ha hpanic⟩

/-- Inline work takes the caller down with it. -/
theorem inline_panic_unwinds : ∃ p, Reachable {} p ∧ ∃ t ∈ p.tasks, ∃ hint a,
    t.call = .run hint ∧ t.result? = some a ∧ (t.view monitor).panicked = true ∧
      ¬ Contained a (t.view monitor) := by
  obtain ⟨p, hp, t, ht, hint, a, hc, ha, hended, hpanic⟩ :=
    exists_panicked 100 8 isUnwound (by decide +kernel)
  refine ⟨p, hp, t, ht, hint, a, hc, ha, hpanic, fun h => ?_⟩
  rw [h.reported] at hended
  nomatch hended

end HelixRouter.Containment
