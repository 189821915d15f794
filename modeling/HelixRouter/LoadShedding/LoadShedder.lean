import HelixRouter.Interleaving.Ledger
import HelixRouter.Interleaving.Moments
import HelixRouter.Interleaving.Prog
import Mathlib.Algebra.Order.BigOperators.Group.List

namespace HelixRouter.LoadShedding

open Interleaving

/-- The gauge of a shedder, and how often it was moved up and down so far, which no call reads. -/
structure Gauge where
  queueDepth : UInt64 := 0
  added : Nat := 0
  removed : Nat := 0

/-- The atomic steps on the gauge, each of which wraps around. -/
inductive Op where
  | load
  | fetchAdd
  | fetchSub
  deriving DecidableEq

abbrev Op.Resp : Op → Type
  | .load => Gauge
  | _ => Unit

inductive Call where
  | recordEnqueue
  | recordDequeue
  deriving DecidableEq

def Op.exec : (e : Op) → Unit → Gauge → Option (e.Resp × Gauge × List Call)
  | .load, _, s => some (s, s, [])
  | .fetchAdd, _, s => some ((), ⟨s.queueDepth + 1, s.added + 1, s.removed⟩, [])
  | .fetchSub, _, s => some ((), ⟨s.queueDepth - 1, s.added, s.removed + 1⟩, [])

abbrev ShedderM := Prog Op Op.Resp

abbrev Op.perform (e : Op) : ShedderM e.Resp := Prog.perform e

def recordEnqueue : ShedderM Unit :=
  Op.fetchAdd.perform

def recordDequeue : ShedderM Unit := do
  let prev ← Op.load.perform
  if 0 < prev.queueDepth then Op.fetchSub.perform else pure ()

def Call.body : Call → ShedderM Unit
  | recordEnqueue => LoadShedding.recordEnqueue
  | recordDequeue => LoadShedding.recordDequeue

open Interleaving

abbrev ShedderTask := Task Op Op.Resp Call Unit

abbrev ShedderPool := Pool Op Op.Resp Gauge Call Unit

abbrev ShedderAction := Action Unit Call

/-- Any number of calls at once, on whichever clone. -/
def machine : Machine Op Op.Resp Gauge Unit Call Unit where
  exec := Op.exec
  body := Call.body
  external _ := true

def startPool : ShedderPool := ⟨{}, []⟩

/-- What the loads of a call have seen. -/
def seen : (e : Op) → e.Resp → List Gauge
  | .load, g => [g]
  | _, _ => []

/-- The operation that the step performs, where it is one of a task. -/
def about (a : ShedderAction) (p : ShedderPool) (e : Op) : Prop :=
  ∃ i t, a = .step i () ∧ p.tasks[i]? = some t ∧ t.prog.head? = some e

/-- No subtraction takes the gauge below zero. -/
def StaysAbove (a : ShedderAction) (p : ShedderPool) : Prop :=
  about a p .fetchSub → p.state.queueDepth ≠ 0

/-- A dequeue that has seen the gauge at `n` subtracts before the other calls have taken `n`
off it, and besides as much as they have added since. -/
def InTime (a : ShedderAction) (p : ShedderPool) : Prop :=
  ∀ i t, a = .step i () → p.tasks[i]? = some t → t.prog.head? = some .fetchSub →
    ∀ g ∈ t.log seen, p.state.removed - g.removed < g.queueDepth.toNat + (p.state.added - g.added)

def AtRest (p : ShedderPool) : Prop := ∀ t ∈ p.tasks, t.result?.isSome

def recorded (call : Call) (p : ShedderPool) : Nat :=
  (p.tasks.filter fun t => t.call = call).length

def isEnqueue : ShedderAction → Bool
  | .start .recordEnqueue => true
  | _ => false

/-- The enqueues of a run. -/
def enqueues (as : List ShedderAction) : Nat := as.countP isEnqueue

/-- Whenever no call is in progress, the gauge is no less than the difference of what was
recorded. -/
def CoversRest (p : ShedderPool) : Prop :=
  AtRest p → recorded .recordEnqueue p ≤ p.state.queueDepth.toNat + recorded .recordDequeue p

section Tasks

/-- What a call has seen and done. -/
structure Share where
  call : Call
  seen : List Gauge := []
  added : Nat := 0
  removed : Nat := 0

def Share.next (v : Share) : (e : Op) → e.Resp → Share
  | .load, g => { v with seen := v.seen ++ [g] }
  | .fetchAdd, _ => { v with added := v.added + 1 }
  | .fetchSub, _ => { v with removed := v.removed + 1 }

def monitor : Monitor Op Op.Resp Call Unit Share where
  init call := { call := call }
  next := Share.next
  allow v e := (e = .fetchSub → v.seen ≠ []) ∧
    (e = .fetchAdd → v.call = .recordEnqueue ∧ v.added = 0)
  may _ _ _ := True
  fin call _ v := match call with
    | .recordEnqueue => v.added = 1 ∧ v.removed = 0
    | .recordDequeue => v.added = 0 ∧ v.removed ≤ 1

theorem body_wp (call : Call) : call.body.wp monitor (monitor.fin call) (monitor.init call) := by
  cases call with
  | recordEnqueue =>
    simp [Call.body, recordEnqueue, monitor, Share.next]
  | recordDequeue =>
    simp only [Call.body, recordDequeue, Prog.wp_bind, Prog.wp_perform, Prog.wp_ite, Prog.wp_pure]
    refine ⟨by simp [monitor], fun g _ => ?_⟩
    split
    · exact ⟨by simp [monitor, Share.next], fun _ _ => ⟨rfl, Nat.le_refl 1⟩⟩
    · exact ⟨rfl, Nat.zero_le 1⟩

/-- Only an enqueue adds, and only once. -/
def Share.AddsOnce (v : Share) : Prop := v.added ≤ if v.call = .recordEnqueue then 1 else 0

theorem Share.AddsOnce.next {v : Share} (h : v.AddsOnce) {e : Op} {r : e.Resp}
    (ha : monitor.allow v e) : (v.next e r).AddsOnce := by
  cases e with
  | fetchAdd =>
    obtain ⟨hcall, hadded⟩ := ha.2 rfl
    simp [AddsOnce, Share.next, hcall, hadded]
  | _ => exact h

inductive Direction where
  | up
  | down

def Direction.held : Direction → Share → Nat
  | up, v => v.added
  | down, v => v.removed

def Direction.owed : Direction → Gauge → Nat
  | up, s => s.added
  | down, s => s.removed

theorem ledger : machine.Ledger monitor (fun _ _ => True) (fun _ => True) Direction.held
    (fun _ _ => 0) Direction.owed where
  body := body_wp
  start _ _ _ _ d := by cases d <;> rfl
  step k input p t e r s' new ht hx hh hk _ _ _ _ := by
    refine ⟨trivial, trivial, fun d => ?_⟩
    have hx : e.exec input p.state = some (r, s', new) := hx
    cases e with
    | load =>
      cases hx
      cases d <;> simp [monitor, Share.next, Direction.held, Direction.owed]
    | fetchAdd =>
      cases hx
      cases d <;> simp [monitor, Share.next, Direction.held, Direction.owed]
      omega
    | fetchSub =>
      cases hx
      cases d <;> simp [monitor, Share.next, Direction.held, Direction.owed]
      omega

end Tasks

section Sound

/-- The gauge is what was added less what was removed. -/
def Gauge.Right (s : Gauge) : Prop := s.queueDepth.toNat + s.removed = s.added

/-- One reading of the gauge, and a later one. -/
structure Gauge.Before (g s : Gauge) : Prop where
  right : g.Right
  added : g.added ≤ s.added
  removed : g.removed ≤ s.removed

structure Sound (p : ShedderPool) : Prop where
  right : p.state.Right
  readings : ∀ g ∈ p.log seen, g.Before p.state
  balanced : Machine.Balanced monitor (fun _ => True) Direction.held (fun _ _ => 0) Direction.owed p
  follows : ∀ t ∈ p.tasks, t.Follows monitor
  once : ∀ t ∈ p.tasks, (t.view monitor).AddsOnce

variable {p q : ShedderPool} {a : ShedderAction} {as : List ShedderAction} {g s s' : Gauge}
  {t : ShedderTask}

theorem sound_start : Sound startPool where
  right := rfl
  readings g hg := nomatch hg
  balanced := ⟨trivial, fun d => by cases d <;> rfl⟩
  follows t ht := nomatch ht
  once t ht := nomatch ht

/-- A call about to add is an enqueue that is not counted in the gauge yet. -/
theorem Sound.added_lt (h : Sound p) (habout : about a p .fetchAdd) :
    p.state.added < recorded .recordEnqueue p := by
  obtain ⟨i, t, -, ht, hh⟩ := habout
  have hmem := List.mem_of_getElem? ht
  obtain ⟨hcall, hadded⟩ := ((h.follows t hmem).allowed_head hh).2 rfl
  have hup : p.tally monitor Share.added = p.state.added := h.balanced.2 .up
  have hcount : p.tally monitor (fun v => if v.call = .recordEnqueue then 1 else 0) =
      recorded .recordEnqueue p := by
    refine Pool.tally_count _ _ fun u _ => ?_
    have hsame : (u.view monitor).call = u.call :=
      u.view_const monitor Share.call (by rintro v (_ | _) r <;> rfl)
    rw [hsame]
    simp only [decide_eq_true_eq]
  obtain ⟨pre, post, hsplit⟩ := List.append_of_mem hmem
  have hothers : ((pre ++ post).map fun u => (u.view monitor).added).sum ≤
      ((pre ++ post).map fun u => if (u.view monitor).call = .recordEnqueue then 1 else 0).sum :=
    List.sum_le_sum fun u hu => h.once u (by
      rw [hsplit]
      simp only [List.mem_append, List.mem_cons] at hu ⊢
      tauto)
  have hp : p = ⟨p.state, pre ++ t :: post⟩ := by rw [← hsplit]
  rw [hp, Pool.tally_split] at hup hcount
  rw [hadded] at hup
  rw [if_pos hcall] at hcount
  rw [hp]
  dsimp only at hup hcount ⊢
  omega

theorem recorded_step (hs : machine.step a p = some q) :
    recorded .recordEnqueue q ≤ recorded .recordEnqueue p + (isEnqueue a).toNat := by
  cases machine.step_cases hs with
  | start c s tasks _ =>
    cases c <;> simp [recorded, isEnqueue, List.filter_append]
  | step input pre post t e next r s s' new _ hx =>
    obtain rfl : new = [] := by cases e <;> cases hx <;> rfl
    by_cases hcall : t.call = .recordEnqueue <;> simp [recorded, isEnqueue, hcall]

/-- A run of fewer enqueues than a word can count never has more of them. -/
theorem guarded_few (h : recorded .recordEnqueue p + enqueues as < 2 ^ 64) :
    machine.Guarded (fun _ p => recorded .recordEnqueue p < 2 ^ 64) as p := by
  induction as generalizing p with
  | nil => trivial
  | cons a as ih =>
    refine ⟨Nat.lt_of_le_of_lt (Nat.le_add_right ..) h, fun q hq => ih ?_⟩
    have hstep := recorded_step hq
    have hcons : enqueues (a :: as) = enqueues as + (isEnqueue a).toNat := by
      rw [enqueues, List.countP_cons]
      cases isEnqueue a <;> rfl
    omega

/-- A step that keeps the gauge within its bounds keeps it right. -/
theorem right_step {e : Op} {r : e.Resp} {new : List Call} (h : s.Right)
    (hx : e.exec () s = some (r, s', new)) (hup : e = .fetchAdd → s.queueDepth.toNat + 1 < 2 ^ 64)
    (hdown : e = .fetchSub → s.queueDepth ≠ 0) :
    s'.Right ∧ s.added ≤ s'.added ∧ s.removed ≤ s'.removed := by
  unfold Gauge.Right at h ⊢
  cases e with
  | load =>
    cases hx
    exact ⟨h, Nat.le_refl _, Nat.le_refl _⟩
  | fetchAdd =>
    cases hx
    have hone : (s.queueDepth + 1).toNat = s.queueDepth.toNat + 1 := by
      rw [UInt64.toNat_add]
      exact Nat.mod_eq_of_lt (hup rfl)
    refine ⟨?_, Nat.le_succ _, Nat.le_refl _⟩
    dsimp only
    omega
  | fetchSub =>
    cases hx
    have hpos : 0 < s.queueDepth.toNat :=
      Nat.pos_of_ne_zero fun hzero => hdown rfl (UInt64.toNat_inj.mp hzero)
    have hone : (s.queueDepth - 1).toNat = s.queueDepth.toNat - 1 :=
      UInt64.toNat_sub_of_le _ _ (UInt64.le_iff_toNat_le.mpr hpos)
    refine ⟨?_, Nat.le_refl _, Nat.le_succ _⟩
    dsimp only
    omega

theorem Sound.next (h : Sound p) (hfew : recorded .recordEnqueue p < 2 ^ 64)
    (hdown : StaysAbove a p) (hs : machine.step a p = some q) : Sound q := by
  have hviews := ledger.invariant.withViews (V := Share.AddsOnce)
    (fun c => by simp [Share.AddsOnce, monitor]) fun v e r hv ha _ => hv.next ha
  obtain ⟨⟨hbalanced, honce⟩, hfollows⟩ := hviews.preserved (machine.step_cases hs) trivial
    ⟨h.balanced, h.once⟩ h.follows
  have hup : about a p .fetchAdd → p.state.queueDepth.toNat + 1 < 2 ^ 64 := fun habout => by
    have hlt := h.added_lt habout
    have hright := h.right
    unfold Gauge.Right at hright
    omega
  cases Machine.step_notes hs with
  | nothing _ hstate hlog _ =>
    refine ⟨hstate ▸ h.right, fun g hg => ?_, hbalanced, hfollows, honce⟩
    rw [hlog] at hg
    exact hstate ▸ h.readings g hg
  | operation i input t e r new ha ht hh hx _ hlog =>
    have hx : e.exec () p.state = some (r, q.state, new) := hx
    have habout : ∀ e', e = e' → about a p e' := by
      rintro _ rfl
      exact ⟨i, t, ha, ht, hh⟩
    obtain ⟨hright, hadded, hremoved⟩ := right_step h.right hx (fun he => hup (habout _ he))
      (fun he => hdown (habout _ he))
    refine ⟨hright, fun g hg => ?_, hbalanced, hfollows, honce⟩
    rcases (hlog seen g).mp hg with hold | hnew
    · have hg := h.readings g hold
      exact ⟨hg.right, hg.added.trans hadded, hg.removed.trans hremoved⟩
    · -- only a load has seen anything, and it changes nothing
      cases e with
      | load =>
        obtain rfl := List.mem_singleton.mp hnew
        simp only [Op.exec, Option.some.injEq, Prod.mk.injEq] at hx
        obtain ⟨rfl, hstate, -⟩ := hx
        exact ⟨h.right, hadded, hremoved⟩
      | fetchAdd => nomatch hnew
      | fetchSub => nomatch hnew

/-- Since it was seen, a gauge has been brought down to zero where as much was taken off it
as it showed and was added. -/
theorem Gauge.Before.in_time_iff (h : g.Before s) (hs : s.Right) :
    s.removed - g.removed < g.queueDepth.toNat + (s.added - g.added) ↔ s.queueDepth ≠ 0 := by
  have hg := h.right
  have hadded := h.added
  have hremoved := h.removed
  unfold Gauge.Right at hs hg
  rw [← UInt64.toNat_inj.ne, UInt64.toNat_zero]
  omega

theorem Sound.in_time_iff (h : Sound p) : InTime a p ↔ StaysAbove a p := by
  constructor
  · rintro hin ⟨i, t, ha, ht, hh⟩
    have hmem := List.mem_of_getElem? ht
    have hseen : t.log seen ≠ [] := by
      have hallowed := ((h.follows t hmem).allowed_head hh).1 rfl
      have hview : (t.view monitor).seen = (monitor.init t.call).seen ++ t.log seen :=
        t.view_log monitor Share.seen seen
          (by rintro v (_ | _) r <;> simp [monitor, Share.next, seen])
      rwa [hview] at hallowed
    obtain ⟨g, rest, hg⟩ := List.exists_cons_of_ne_nil hseen
    have hgt : g ∈ t.log seen := hg ▸ List.mem_cons_self
    have hbefore := h.readings g (Pool.mem_log.mpr ⟨t, hmem, hgt⟩)
    exact (hbefore.in_time_iff h.right).mp (hin i t ha ht hh g hgt)
  · intro habove i t ha ht hh g hg
    have hbefore := h.readings g (Pool.mem_log.mpr ⟨t, List.mem_of_getElem? ht, hg⟩)
    exact (hbefore.in_time_iff h.right).mpr (habove ⟨i, t, ha, ht, hh⟩)

/-- What was added is what was enqueued, and no more was removed than was dequeued. -/
theorem Sound.coversRest (h : Sound p) : CoversRest p := by
  intro hrest
  have hup : p.tally monitor Share.added = p.state.added := h.balanced.2 .up
  have hdown : p.tally monitor Share.removed = p.state.removed := h.balanced.2 .down
  have hfin : ∀ t ∈ p.tasks, ∃ r, monitor.fin t.call r (t.view monitor) := by
    intro t ht
    obtain ⟨r, hr⟩ := Option.isSome_iff_exists.mp (hrest t ht)
    exact ⟨r, (h.follows t ht).finished hr⟩
  have henqueued : p.tally monitor Share.added = recorded .recordEnqueue p := by
    refine Pool.tally_count _ _ fun t ht => ?_
    obtain ⟨r, hr⟩ := hfin t ht
    cases hcall : t.call with
    | recordEnqueue =>
      rw [hcall] at hr
      exact hr.1
    | recordDequeue =>
      rw [hcall] at hr
      exact hr.1
  have hdequeued : p.tally monitor Share.removed ≤ recorded .recordDequeue p := by
    have hcount : p.tally monitor (fun v => if v.call = .recordDequeue then 1 else 0) =
        recorded .recordDequeue p := by
      refine Pool.tally_count _ _ fun t _ => ?_
      have hcall : (t.view monitor).call = t.call :=
        t.view_const monitor Share.call (by rintro v (_ | _) r <;> rfl)
      rw [hcall]
      simp only [decide_eq_true_eq]
    rw [← hcount]
    refine Pool.tally_le fun t ht => ?_
    obtain ⟨r, hr⟩ := hfin t ht
    have hcall : (t.view monitor).call = t.call :=
      t.view_const monitor Share.call (by rintro v (_ | _) r <;> rfl)
    rw [hcall]
    cases hcall : t.call with
    | recordEnqueue =>
      rw [hcall] at hr
      exact Nat.le_of_eq hr.2
    | recordDequeue =>
      rw [hcall] at hr
      exact hr.2
  have hright := h.right
  unfold Gauge.Right at hright
  omega

end Sound

/-- The gauge stays above zero, and covers what was recorded whenever no call is in progress,
exactly in the runs in which every dequeue that has seen something in the queue is in time. -/
theorem depth_gauge_iff (as : List ShedderAction) (hfew : enqueues as < 2 ^ 64) :
    (machine.Guarded StaysAbove as startPool ∧ machine.Always CoversRest as startPool) ↔
      machine.Guarded InTime as startPool := by
  have hroom : machine.Guarded (fun _ p => recorded .recordEnqueue p < 2 ^ 64) as startPool :=
    guarded_few ((Nat.zero_add (enqueues as)).trans_lt hfew)
  have hiff := Machine.guarded_iff_of_invariant hroom sound_start
    (fun a p q h hup hdown hs => h.next hup hdown hs) fun a p h => h.in_time_iff (a := a)
  rw [hiff, and_iff_left_iff_imp]
  intro habove
  have hsound : machine.Always Sound as startPool :=
    (habove.and hroom).always sound_start fun a p q h hg hs => h.next hg.2 hg.1 hs.enabled
  exact hsound.imp fun p h => h.coversRest

/-- Two enqueues, and two dequeues that both see them. -/
def bothSeeTwo : List ShedderAction :=
  [.start .recordEnqueue, .start .recordEnqueue, .step 1 (), .step 0 (), .start .recordDequeue,
    .start .recordDequeue, .step 2 (), .step 3 (), .step 3 (), .step 2 ()]

theorem depth_gauge_iff_bothSeeTwo :
    (machine.Guarded StaysAbove bothSeeTwo startPool ∧
      machine.Always CoversRest bothSeeTwo startPool) ↔
      machine.Guarded InTime bothSeeTwo startPool :=
  depth_gauge_iff bothSeeTwo (by decide)

/-- An enqueue, and two dequeues that both see it. -/
def bothSeeOne : List ShedderAction :=
  [.start .recordEnqueue, .step 0 (), .start .recordDequeue, .start .recordDequeue,
    .step 1 (), .step 2 (), .step 1 ()]

/-- The second subtraction wraps around. -/
theorem bothSeeOne_wraps : ¬ machine.Guarded StaysAbove (bothSeeOne ++ [.step 2 ()]) startPool ∧
    ((machine.run (bothSeeOne ++ [.step 2 ()]) startPool).map fun p => p.state.queueDepth.toNat) =
      some (2 ^ 64 - 1) := by
  refine ⟨fun h => ?_, by decide⟩
  exact Machine.Guarded.at h rfl ⟨2, _, rfl, rfl, rfl⟩ rfl

end HelixRouter.LoadShedding
