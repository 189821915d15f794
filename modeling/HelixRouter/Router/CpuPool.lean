import HelixRouter.Interleaving.History
import HelixRouter.Router.QueueGauge

namespace HelixRouter.CpuPool

open Interleaving QueueGauge

/-- Where a task stands with the CPU pool: a turn of the dispatcher with nothing in its hand,
with a job, with a job and a permit, or with the job handed on; a job that runs with a permit,
in a worker or in a call of `run`; or a worker that has given its permit back. -/
inductive Stand where
  | away
  | listening
  | holding (w : CpuWork)
  | granted (w : CpuWork)
  | served
  | working
  | pooled
  | retired

def Stand.next (st : Stand) : (e : Op) → e.Resp → Stand
  | .recvWork, work => (work.map Stand.holding).getD st
  | .acquire, ok =>
    if ok then
      match st with
      | .holding w => .granted w
      | _ => .pooled
    else st
  | .release, _ =>
    match st with
    | .working => .retired
    | _ => .away
  | .spawn (.cpuWorker _), _ => .served
  | .spawn .cpuDispatchLoop, _ | .dropReceiver, _ => .away
  | _, _ => st

/-- A worker does nothing once it has given its permit back. -/
def Stand.allows (st : Stand) : Op → Prop
  | .recvWork | .dropReceiver => st = .listening
  | .acquire => st = .away ∨ ∃ w, st = .holding w
  | .release => st = .working ∨ st = .pooled
  | .spawn (.cpuWorker w) => st = .granted w
  | .spawn .cpuDispatchLoop => st = .served
  | _ => st ≠ .retired

def monitor : Monitor Op Op.Resp Call Answer Stand where
  init
    | .cpuDispatchLoop => .listening
    | .cpuWorker _ => .working
    | _ => .away
  next := Stand.next
  allow := Stand.allows
  may _ e r := granted e r
  fin _ _ _ := True

@[simp] theorem monitor_next (st : Stand) (e : Op) (r : e.Resp) :
    monitor.next st e r = st.next e r := rfl

@[simp] theorem monitor_allow (st : Stand) (e : Op) : monitor.allow st e ↔ st.allows e := Iff.rfl

@[simp] theorem monitor_may (st : Stand) (e : Op) (r : e.Resp) :
    monitor.may st e r ↔ granted e r := Iff.rfl

def quietAreas : List Area := [.routine, .compute, .config, .reply, .batch, .signal]

theorem quiet {e : Op} (h : e.Within quietAreas) {st : Stand} (hst : st ≠ .retired) :
    monitor.Quiet st e := by
  cases e with
  | recvWork => simp [Op.Within, Op.area, quietAreas] at h
  | dropReceiver => simp [Op.Within, Op.area, quietAreas] at h
  | acquire => simp [Op.Within, Op.area, quietAreas] at h
  | release => simp [Op.Within, Op.area, quietAreas] at h
  | spawn c => simp [Op.Within, Op.area, quietAreas] at h
  | _ => exact ⟨hst, fun _ _ => rfl⟩

theorem quiet_wp {A : Type} {areas : List Area} {p : RouterM A} (h : p.All (Op.Within areas))
    (hq : areas ⊆ quietAreas) {post : A → Stand → Prop} (hp : ∀ a, post a .away) :
    p.wp monitor post .away := h.wp (fun _ he => quiet (he.mono hq) nofun) hp

section Bodies

attribute [local simp] Stand.next Stand.allows granted bumpRoute bumpKindRoute

theorem submitCpuPool_wp (job : Job) (frac : Option ℚ) :
    (submitCpuPool job frac).wp monitor (fun _ _ => True) .away := by
  simp [submitCpuPool]
  rintro r (_ | out)
  · simp
  · exact quiet_wp (submitCompleted_all job out) (by simp [quietAreas]) fun _ => trivial

theorem cpuDispatchLoop_wp : cpuDispatchLoop.wp monitor (fun _ _ => True) .listening := by
  simp [cpuDispatchLoop]
  rintro (_ | w) <;> simp

theorem cpuWorker_wp (w : CpuWork) : (cpuWorker w).wp monitor (fun _ _ => True) .working := by
  refine ⟨by simp, fun cancelled _ => ⟨by simp, ?_⟩⟩
  rintro (_ | out) <;> simp

theorem batchFlusher_wp (idx : Fin 3) :
    (batchFlusher idx).wp monitor (fun _ _ => True) .away := by
  simp [batchFlusher]
  exact fun _ => quiet_wp (flushBatchKind_all _) (by simp [quietAreas]) fun _ => by simp

theorem runFinished_wp (hint : WorkHint) (frac : Option ℚ) (result : Except Rejected Unit) :
    (runFinished hint frac result).wp monitor (fun _ _ => True) .away := by
  cases result <;> simp [runFinished]

theorem runWith_wp (strategy : Strategy) (hint : WorkHint) (frac : Option ℚ) :
    (runWith strategy hint frac).wp monitor (fun _ _ => True) .away := by
  have hpool : (runWith .cpuPool hint frac).wp monitor (fun _ _ => True) .away := by
    simp [runWith, runPooled, runFinished_wp]
  cases strategy with
  | cpuPool => exact hpool
  | batch => exact hpool
  | _ => simp [runWith, runFinished_wp]

theorem run_wp (hint : WorkHint) : (run hint).wp monitor (fun _ _ => True) .away := by
  simp [run, runRouted]
  intro env _ cfg threshold available available'
  exact runWith_wp _ _ _

theorem body_wp [F64Text] (c : Call) :
    (callBody c).wp monitor (monitor.fin c) (monitor.init c) := by
  cases c with
  | submit job =>
    refine (Prog.wp_bind _ _ _ _).mpr (submit_wp (fun _ he => quiet ?_ nofun) (fun _ => trivial)
      (quiet_wp (submitFree_all job) (by simp [quietAreas]) fun _ => trivial)
      (fun frac => quiet_wp (submitInline_all job frac) (by simp [quietAreas]) fun _ => trivial)
      (fun frac => submitCpuPool_wp job frac) fun cfg =>
        quiet_wp (submitBatch_all job cfg) (by simp [quietAreas]) fun _ => trivial)
    simp [Op.Within, he, quietAreas]
  | run hint => exact run_wp hint
  | cpuDispatchLoop => exact (Prog.wp_bind _ _ _ _).mpr cpuDispatchLoop_wp
  | cpuWorker w => exact (Prog.wp_bind _ _ _ _).mpr (cpuWorker_wp w)
  | batchFlusher idx => exact (Prog.wp_bind _ _ _ _).mpr (batchFlusher_wp idx)
  | _ =>
    exact quiet_wp ((callBody_all _ rfl).imp fun _ => Op.within_of_configures)
      (by simp [quietAreas]) fun _ => trivial

end Bodies

inductive Account where
  | dispatcher
  | permits

/-- A dispatcher has the receiver, and whoever runs a job or is about to start one a permit. -/
def held : Account → Stand → Nat
  | .dispatcher, .listening | .dispatcher, .holding _ | .dispatcher, .granted _
  | .dispatcher, .served => 1
  | .permits, .granted _ | .permits, .working | .permits, .pooled => 1
  | _, _ => 0

def stock : Account → Inner → Nat
  | .dispatcher, _ => 0
  | .permits, s => s.cpuSlots

def owed (permits : Nat) : Account → Inner → Nat
  | .dispatcher, s => s.cpuRxOpen.toNat
  | .permits, _ => permits

section Books

variable {e : Op} {env : Env} {s s' : Inner} {r : e.Resp} {new : List Call} {st : Stand}
  {permits : Nat} {i : Account}

theorem balance_idle (hn : st.next e r = st) (hs : e.spawns = []) (hc : s'.cpuSlots = s.cpuSlots)
    (ho : s'.cpuRxOpen = s.cpuRxOpen) :
    held i (st.next e r) + (e.spawns.map (fun c => held i (monitor.init c))).sum + stock i s' +
      owed permits i s = held i st + stock i s + owed permits i s' := by
  rw [hn, hs]
  cases i <;> simp [stock, owed, hc, ho]

attribute [local simp] held stock owed Stand.next Op.spawns Op.slotsAfter Op.cpuRxOpenAfter

/-- Every operation moves a permit or the receiver from one hand to another, or none. -/
theorem balance (hx : e.exec env s = some (r, s', new)) (ha : st.allows e)
    (hopen : e = .dropReceiver → s.cpuRxOpen = true) :
    held i (st.next e r) + (e.spawns.map (fun c => held i (monitor.init c))).sum + stock i s' +
      owed permits i s = held i st + stock i s + owed permits i s' := by
  have hc := Op.exec_cpuSlots hx
  have ho := Op.exec_cpuRxOpen hx
  cases e with
  | recvWork =>
    cases ha
    cases r <;> cases i <;> simp [hc, ho]
  | acquire =>
    cases r with
    | false => exact balance_idle rfl rfl hc ho
    | true =>
      have hfree := Op.exec_acquire hx
      rcases ha with rfl | ⟨w, rfl⟩ <;> cases i <;> simp [hc, ho] <;> omega
  | release => rcases ha with rfl | rfl <;> cases i <;> simp [hc, ho] <;> omega
  | dropReceiver =>
    cases ha
    cases i <;> simp [hc, ho, hopen rfl]
  | spawn c =>
    cases c with
    | cpuDispatchLoop =>
      cases ha
      cases i <;> simp [hc, ho, monitor]
    | cpuWorker w =>
      cases ha
      cases i <;> simp [hc, ho, monitor]
    | _ => cases i <;> simp [hc, ho, monitor]
  | _ => exact balance_idle rfl rfl hc ho

/-- One dispatcher at a time has the receiver, and every permit of the semaphore is free or held
by one task. -/
theorem ledger [F64Text] (permits : Nat) : machine.Ledger monitor (fun _ _ => True) ChannelFits
    held stock (owed permits) where
  body := body_wp
  start c p hc _ i := by cases c <;> cases i <;> first | rfl | cases hc
  step k env p t e r s' new ht hx _ _ _ hgood ha hbal := by
    have hx : e.exec env p.state = some (r, s', new) := hx
    refine ⟨?_, hgood.step hx, fun i => ?_⟩
    · cases e with
      | acquire => exact Op.exec_acquire_closed hx hgood.slots_open
      | _ => trivial
    · rw [Op.exec_new hx]
      refine balance hx ha ?_
      rintro rfl
      have hlistening : t.view monitor = .listening := ha
      have hle := Pool.held_le_tally monitor (held .dispatcher) ht
      have hone := hbal .dispatcher
      rw [hlistening] at hle
      simp only [held, stock, owed] at hle hone
      cases ho : p.state.cpuRxOpen with
      | true => rfl
      | false =>
        rw [ho, Bool.toNat_false] at hone
        omega

end Books

/-- The jobs that the channel accepts, and those that a worker is started for. -/
def accepted : (e : Op) → e.Resp → List CpuWork
  | .trySend w, sent => if sent then [w] else []
  | _, _ => []

def begun : (e : Op) → e.Resp → List CpuWork
  | .spawn (.cpuWorker w), _ => [w]
  | _, _ => []

def Stand.hand : Stand → List CpuWork
  | .holding w | .granted w => [w]
  | _ => []

def inHand (tasks : List RouterTask) : List CpuWork :=
  tasks.flatMap fun t => (t.view monitor).hand

/-- What was accepted is what was started, what the dispatcher has in its hand and what is in the
channel, in this order. Only what the channel was closed with is lost. -/
def InOrder (sent started : List CpuWork) (p : RouterPool) : Prop :=
  ∃ lost, sent = started ++ inHand p.tasks ++ p.state.cpuQueue ++ lost ∧
    (p.state.cpuRxOpen = true → lost = [])

section Order

variable {sent started : List CpuWork} {pre post : List RouterTask} {t : RouterTask} {s s' : Inner}

theorem hand_of_held {st : Stand} (h : held .dispatcher st = 0) : st.hand = [] := by
  cases st <;> first | rfl | cases h

/-- The dispatcher's hand is the only one. -/
theorem inHand_alone
    (hone : (⟨s, pre ++ t :: post⟩ : RouterPool).tally monitor (held .dispatcher) ≤ 1)
    (ht : held .dispatcher (t.view monitor) = 1) : inHand pre = [] ∧ inHand post = [] := by
  rw [Pool.tally_split, ht] at hone
  have hsum : ((pre ++ post).map fun u => held .dispatcher (u.view monitor)).sum = 0 :=
    Nat.le_zero.mp (Nat.le_of_add_le_add_left (a := 1) hone)
  have hzero : ∀ u ∈ pre ++ post, held .dispatcher (u.view monitor) = 0 := fun u hu =>
    List.sum_eq_zero_iff_forall_eq_nat.mp hsum _ (List.mem_map.mpr ⟨u, hu, rfl⟩)
  constructor
  · exact List.flatMap_eq_nil_iff.mpr fun u hu => hand_of_held (hzero u (List.mem_append_left _ hu))
  · exact List.flatMap_eq_nil_iff.mpr fun u hu =>
      hand_of_held (hzero u (List.mem_append_right _ hu))

theorem inHand_spawn [F64Text] (new : List Call) : inHand (new.map machine.spawn) = [] := by
  refine List.flatMap_eq_nil_iff.mpr fun u hu => ?_
  obtain ⟨c, -, rfl⟩ := List.mem_map.mp hu
  cases c <;> rfl

theorem inHand_split (pre post : List RouterTask) (t : RouterTask) :
    inHand (pre ++ t :: post) = inHand pre ++ (t.view monitor).hand ++ inHand post := by
  rw [inHand, List.flatMap_append, List.flatMap_cons, ← List.append_assoc]
  rfl

/-- What one operation moves on its way from the channel to a worker. -/
theorem moved {e : Op} {env : Env} {r : e.Resp} {new : List Call} {st : Stand}
    {before after lost : List CpuWork} (hx : e.exec env s = some (r, s', new)) (ha : st.allows e)
    (halone : held .dispatcher st = 1 → before = [] ∧ after = [])
    (h : sent = started ++ (before ++ st.hand ++ after) ++ s.cpuQueue ++ lost)
    (hlost : s.cpuRxOpen = true → lost = []) :
    ∃ lost', sent ++ accepted e r = started ++ begun e r ++
      (before ++ (st.next e r).hand ++ after) ++ s'.cpuQueue ++ lost' ∧
        (s'.cpuRxOpen = true → lost' = []) := by
  have hq := Op.exec_cpuQueue hx
  have ho := Op.exec_cpuRxOpen hx
  have hsame : accepted e r = [] → begun e r = [] → (st.next e r).hand = st.hand →
      s'.cpuQueue = s.cpuQueue → s'.cpuRxOpen = s.cpuRxOpen →
      ∃ lost', sent ++ accepted e r = started ++ begun e r ++
        (before ++ (st.next e r).hand ++ after) ++ s'.cpuQueue ++ lost' ∧
          (s'.cpuRxOpen = true → lost' = []) := by
    intro haccepted hbegun hhand hqueue hopen
    refine ⟨lost, ?_, hopen ▸ hlost⟩
    rw [haccepted, hbegun, hhand, hqueue, List.append_nil, List.append_nil, h]
  cases e with
  | trySend w =>
    cases r with
    | false => exact hsame rfl rfl rfl hq ho
    | true =>
      have hnone := hlost (Op.exec_trySend hx).1
      refine ⟨[], ?_, fun _ => rfl⟩
      rw [hq, h, hnone]
      simp [accepted, begun, Stand.next, Op.cpuQueueAfter]
  | recvWork =>
    cases r with
    | none => exact hsame rfl rfl rfl hq ho
    | some w =>
      cases ha
      obtain ⟨rfl, rfl⟩ := halone rfl
      refine ⟨lost, ?_, ho ▸ hlost⟩
      rw [h, Op.exec_recvWork hx]
      simp [accepted, begun, Stand.next, Stand.hand]
  | acquire =>
    refine hsame rfl rfl ?_ hq ho
    cases r with
    | false => rfl
    | true => rcases ha with rfl | ⟨w, rfl⟩ <;> rfl
  | release =>
    refine hsame rfl rfl ?_ hq ho
    rcases ha with rfl | rfl <;> rfl
  | dropReceiver =>
    cases ha
    refine ⟨s.cpuQueue ++ lost, ?_, fun hopen => ?_⟩
    · obtain ⟨rfl, rfl⟩ := halone rfl
      rw [hq, h]
      simp [accepted, begun, Stand.next, Stand.hand, Op.cpuQueueAfter]
    · rw [ho] at hopen
      cases hopen
  | spawn c =>
    cases c with
    | cpuWorker w =>
      cases ha
      obtain ⟨rfl, rfl⟩ := halone rfl
      refine ⟨lost, ?_, ho ▸ hlost⟩
      rw [hq, h]
      simp [accepted, begun, Stand.next, Stand.hand, Op.cpuQueueAfter]
    | cpuDispatchLoop =>
      cases ha
      exact hsame rfl rfl rfl hq ho
    | _ => exact hsame rfl rfl rfl hq ho
  | _ => exact hsame rfl rfl rfl hq ho

abbrev Balanced (permits : Nat) (p : RouterPool) : Prop :=
  Machine.Balanced monitor ChannelFits held stock (owed permits) p

variable {permits : Nat}

theorem Balanced.one_dispatcher {p : RouterPool} (h : Balanced permits p) :
    p.tally monitor (held .dispatcher) ≤ 1 := by
  have hd := h.2 .dispatcher
  have ho := Bool.toNat_le p.state.cpuRxOpen
  simp only [stock, owed] at hd
  omega

theorem Balanced.length_inHand {p : RouterPool} (h : Balanced permits p) :
    (inHand p.tasks).length ≤ 1 := by
  have hle : p.tally monitor (fun st => st.hand.length) ≤ p.tally monitor (held .dispatcher) :=
    Pool.tally_le fun t _ => by cases t.view monitor <;> simp [Stand.hand, held]
  rw [inHand, List.length_flatMap]
  exact hle.trans h.one_dispatcher

theorem inHand_append (ts us : List RouterTask) : inHand (ts ++ us) = inHand ts ++ inHand us :=
  List.flatMap_append ..

theorem inOrder_run [F64Text] {as : List RouterAction} {p p' : RouterPool}
    (hb : machine.Always (fun q => Balanced permits q ∧ ∀ t ∈ q.tasks, t.Follows monitor) as p)
    (hr : machine.run as p = some p') (h : InOrder sent started p) :
    InOrder (sent ++ machine.events accepted as p) (started ++ machine.events begun as p) p' := by
  induction as generalizing p sent started with
  | nil =>
    cases hr
    simpa [Machine.events, Machine.history] using h
  | cons a as ih =>
    obtain ⟨q, hstep, hrest⟩ := Option.bind_eq_some_iff.mp hr
    cases machine.step_cases hstep with
    | start c s tasks hc =>
      rw [Machine.events_cons_nothing hstep rfl, Machine.events_cons_nothing hstep rfl]
      refine ih (hb.2 _ hstep) hrest ?_
      obtain ⟨lost, hsent, hlost⟩ := h
      refine ⟨lost, ?_, hlost⟩
      have hnew : inHand [machine.spawn c] = [] := inHand_spawn [c]
      rw [hsent, inHand_append, hnew, List.append_nil]
    | step input pre post t e next r s s' new hp hx =>
      have ho : machine.answered (.step pre.length input) ⟨s, pre ++ t :: post⟩ = some ⟨e, r⟩ := by
        simp [Machine.answered, hp, hx]
      rw [Machine.events_cons_operation hstep ho, Machine.events_cons_operation hstep ho,
        ← List.append_assoc, ← List.append_assoc]
      refine ih (hb.2 _ hstep) hrest ?_
      obtain ⟨lost, hsent, hlost⟩ := h
      rw [inHand_split] at hsent
      have ha : (t.view monitor).allows e := (hb.start.2 t (by simp)).allowed hp
      obtain ⟨lost', hsent', hlost'⟩ := moved hx ha (inHand_alone hb.start.1.one_dispatcher)
        hsent hlost
      refine ⟨lost', ?_, hlost'⟩
      rw [hsent', inHand_append, inHand_split, inHand_spawn, List.append_nil, Task.view_advance,
        monitor_next]

end Order

theorem not_retired_allows (e : Op) : ¬ Stand.retired.allows e := by
  intro ha
  cases e with
  | release => rcases ha with ha | ha <;> cases ha
  | recvWork => cases ha
  | dropReceiver => cases ha
  | acquire => rcases ha with ha | ⟨w, ha⟩ <;> cases ha
  | spawn c => cases c <;> first | exact ha rfl | cases ha
  | _ => exact ha rfl

theorem working_next {e : Op} (ha : Stand.working.allows e) (r : e.Resp) :
    Stand.working.next e r = .working ∨ Stand.working.next e r = .retired := by
  cases e with
  | release => exact .inr rfl
  | recvWork => cases ha
  | dropReceiver => cases ha
  | acquire => rcases ha with ha | ⟨w, ha⟩ <;> cases ha
  | spawn c => cases c <;> first | exact .inl rfl | cases ha
  | _ => exact .inl rfl

def isWorker : Call → Bool
  | .cpuWorker _ => true
  | _ => false

/-- The workers that have not ended, and the calls of `run` whose work is in the pool. -/
def runningWorkers (p : RouterPool) : Nat :=
  p.tasks.countP fun t => isWorker t.call && t.result?.isNone

def pooledRuns (p : RouterPool) : Nat :=
  p.tasks.countP fun t => t.view monitor matches .pooled

/-- A worker is at work until it gives its permit back. -/
def AtWork (t : RouterTask) : Prop :=
  isWorker t.call = true → t.view monitor = .working ∨ t.view monitor = .retired

theorem AtWork.working {t : RouterTask} (h : AtWork t) (hf : t.Follows monitor)
    (hc : isWorker t.call = true) (hrun : t.result?.isNone = true) :
    t.view monitor = .working := by
  refine (h hc).resolve_right fun hst => ?_
  cases hp : t.prog with
  | ret a => simp [Task.result?, hp] at hrun
  | op e next => exact not_retired_allows e (hst ▸ hf.allowed hp)

section Workers

variable {permits : Nat}

theorem atWork_run [F64Text] {cfg : RouterConfig} {as : List RouterAction} {p : RouterPool}
    (hb : machine.Always (fun q => Balanced permits q ∧ ∀ t ∈ q.tasks, t.Follows monitor) as
      (startPool cfg))
    (hr : machine.run as (startPool cfg) = some p) : ∀ t ∈ p.tasks, AtWork t := by
  refine hb.tasks hr ?_ (fun c hc => ?_) ?_
  · intro t ht hc
    rcases mem_startPool.mp ht with rfl | rfl <;> cases hc
  · cases c with
    | cpuWorker w => exact .inl rfl
    | _ => cases hc
  · intro q t e next env r s' new hq ht hp _ hv hc
    have ha : (t.view monitor).allows e := (hq.2 t ht).allowed hp
    rw [Task.view_advance, monitor_next]
    rcases hv hc with hst | hst
    · rw [hst] at ha ⊢
      exact working_next ha r
    · rw [hst] at ha
      exact absurd ha (not_retired_allows e)

/-- Each job that runs in the pool has a permit. -/
theorem Balanced.busy_le {p : RouterPool} (h : Balanced permits p)
    (hwork : ∀ t ∈ p.tasks, AtWork t ∧ t.Follows monitor) :
    runningWorkers p + pooledRuns p + p.state.cpuSlots ≤ permits := by
  have hpermits : p.tally monitor (held .permits) + p.state.cpuSlots = permits := h.2 .permits
  suffices runningWorkers p + pooledRuns p ≤ p.tally monitor (held .permits) by omega
  unfold runningWorkers pooledRuns Pool.tally
  generalize p.tasks = ts at hwork
  induction ts with
  | nil => exact Nat.le_refl 0
  | cons t ts ih =>
    have hrest := ih fun u hu => hwork u (List.mem_cons_of_mem t hu)
    obtain ⟨hat, hf⟩ := hwork t List.mem_cons_self
    rw [List.countP_cons, List.countP_cons, List.map_cons, List.sum_cons]
    have hone : (if (isWorker t.call && t.result?.isNone) = true then 1 else 0) +
        (if (t.view monitor matches .pooled) = true then 1 else 0) ≤
          held .permits (t.view monitor) := by
      split
      · rename_i hrun
        rw [Bool.and_eq_true] at hrun
        rw [hat.working hf hrun.1 hrun.2]
        exact Nat.le_refl 1
      · cases t.view monitor <;> simp [held]
    omega

end Workers

/-- In every run of a router, through reloads and shutdown: the channel stays within the capacity
that the router was made with, workers are started for its jobs in the order it accepted them,
none is passed over and none is lost before the channel is closed, and never more jobs run in the
pool than the router was made for. -/
theorem cpu_pool_fifo [F64Text] {cfg : RouterConfig} {p0 p : RouterPool} {as : List RouterAction}
    (hn : Router.new cfg = some p0) (hr : machine.run as p0 = some p) :
    p.state.cpuQueue.length ≤ cfg.cpuQueueCap.toNat ∧
    (inHand p.tasks).length ≤ 1 ∧
    (∃ lost, machine.events accepted as p0 =
      machine.events begun as p0 ++ inHand p.tasks ++ p.state.cpuQueue ++ lost ∧
        (p.state.cpuRxOpen = true → lost = [])) ∧
    runningWorkers p + pooledRuns p + p.state.cpuSlots ≤ cfg.cpuParallelism.toNat := by
  have hcap := (Router.new_bounds hn).1
  rw [Router.new_eq hn] at hr ⊢
  have hstart : Balanced cfg.cpuParallelism.toNat (startPool cfg) :=
    start_balanced ⟨Nat.zero_le _, hcap, nofun, rfl⟩ fun i => by
      cases i
      · rfl
      · exact Nat.zero_add _
  have hb : machine.Always (fun q => Balanced cfg.cpuParallelism.toNat q ∧
      ∀ t ∈ q.tasks, t.Follows monitor) as (startPool cfg) :=
    (ledger _).invariant.always_follows Machine.guarded_true (start_follows body_wp cfg) hstart
  obtain ⟨hbalanced, hfollows⟩ := hb.last hr
  have hchannel : p.state.cpuCap = cfg.cpuQueueCap.toNat := by
    refine Machine.run_induction (P := fun q => q.state.cpuCap = cfg.cpuQueueCap.toNat) hr rfl ?_
    intro a q q' hq hs
    cases hs with
    | start c s tasks hc => exact hq
    | step input pre post t e next r s s' new hp hx => exact (Op.exec_cpuCap hx).trans hq
  refine ⟨hchannel ▸ hbalanced.1.length_le, ?_, ?_, ?_⟩
  · exact hbalanced.length_inHand
  · have horder : InOrder [] [] (startPool cfg) := ⟨[], rfl, fun _ => rfl⟩
    exact inOrder_run hb hr horder
  · exact hbalanced.busy_le fun t ht => ⟨atWork_run hb hr t ht, hfollows t ht⟩

/-- A worker runs the first of two jobs, and the dispatcher has the second in its hand. -/
def twoJobs : List RouterAction :=
  .start (.submit poolJob) :: .start (.submit poolJob) ::
    (turns 2 14 {} ++ turns 3 14 {} ++ turns 0 5 {} ++ turns 5 1 {})

theorem cpu_pool_fifo_twoJobs : ∃ p0 p, Router.new {} = some p0 ∧
    machine.run twoJobs p0 = some p ∧ runningWorkers p = 1 ∧ p.state.cpuSlots ≤ 7 ∧
    machine.events accepted twoJobs p0 = machine.events begun twoJobs p0 ++ inHand p.tasks := by
  obtain ⟨p0, p, hn, hr, hp⟩ := exists_run {} twoJobs (fun p => runningWorkers p == 1 &&
    p.state.cpuQueue.isEmpty && p.state.cpuRxOpen) (by decide +kernel)
  simp only [Bool.and_eq_true, beq_iff_eq, List.isEmpty_iff] at hp
  obtain ⟨-, -, ⟨lost, horder, hlost⟩, hbusy⟩ := cpu_pool_fifo hn hr
  refine ⟨p0, p, hn, hr, hp.1.1, ?_, ?_⟩
  · have hle : runningWorkers p + pooledRuns p + p.state.cpuSlots ≤ 8 := hbusy
    omega
  · rw [horder, hp.1.2, hlost hp.2, List.append_nil, List.append_nil]

end HelixRouter.CpuPool
