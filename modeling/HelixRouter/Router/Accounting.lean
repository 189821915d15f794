import HelixRouter.Router.Footprints

namespace HelixRouter.Accounting

open Interleaving

/-- What one task has added to the counters of outcomes and routes, and how often
the cache answered for it. -/
structure Tally where
  request : Bool
  completed : Nat := 0
  dropped : Nat := 0
  routed : Nat := 0
  routedDrop : Nat := 0
  hits : Nat := 0

def Tally.count (v : Tally) (n : Nat) : Counter → Tally
  | .completed => { v with completed := v.completed + n }
  | .dropped => { v with dropped := v.dropped + n }
  | .routed s =>
    { v with routed := v.routed + n, routedDrop := v.routedDrop + if s = .drop then n else 0 }
  | _ => v

/-- A cached text that parses to outputs answers the call. -/
def served [F64Text] (text : Option (List Char)) : Prop := (text.map parseOutputs).getD [] ≠ []

instance [F64Text] (text : Option (List Char)) : Decidable (served text) :=
  inferInstanceAs (Decidable (_ ≠ _))

def Tally.next [F64Text] (v : Tally) : (e : Op) → e.Resp → Tally
  | .bump c n, _ => v.count n c
  | .cacheGet _, text => if served text then { v with hits := v.hits + 1 } else v
  | _, _ => v

/-- Operations that move a tally. -/
def settles : Op → Bool
  | .bump .completed _ | .bump .dropped _ | .bump (.routed _) _ | .cacheGet _ => true
  | _ => false

def batchFound : (e : Op) → e.Resp → Prop
  | .hasBatch _, found => found = true
  | _, _ => True

/-- Whether a call got its result, where it returned at all. -/
def outcome? : Answer → Option Bool
  | .submitted out => some out.isSome
  | .ran (.ok _) => some true
  | .ran (.error _) => some false
  | _ => none

/-- One outcome, counted once; one route or one answer of the cache. -/
structure Settled (ok : Bool) (v : Tally) : Prop where
  completed : v.completed = if ok then 1 else 0
  dropped : v.dropped = if ok then 0 else 1
  routed : v.routed + v.hits = 1
  routedDrop : v.routedDrop ≤ v.dropped

/-- A call that returned has settled what it returned. -/
def Closes (a : Answer) (v : Tally) : Prop := ∀ ok, outcome? a = some ok → Settled ok v

def monitor [F64Text] : Monitor Op Op.Resp Call Answer Tally where
  init c := { request := c.isRequest }
  next := Tally.next
  allow v e := v.request = false → settles e = false
  may _ e r := batchFound e r
  fin c a v := c.isRequest = true → Closes a v

@[simp] theorem monitor_next [F64Text] (v : Tally) (e : Op) (r : e.Resp) :
    monitor.next v e r = v.next e r := rfl

@[simp] theorem monitor_allow [F64Text] (v : Tally) (e : Op) :
    monitor.allow v e ↔ (v.request = false → settles e = false) := Iff.rfl

@[simp] theorem monitor_may [F64Text] (v : Tally) (e : Op) (r : e.Resp) :
    monitor.may v e r ↔ batchFound e r := Iff.rfl

theorem quiet_next [F64Text] {v : Tally} {e : Op} (h : settles e = false) (r : e.Resp) : v.next e r = v := by
  cases e with
  | bump c n => cases c <;> first | rfl | cases h
  | cacheGet job => cases h
  | _ => rfl

theorem configures_quiet {e : Op} (h : e.configures = true) : settles e = false := by
  cases e with
  | bump c n => cases c <;> first | rfl | cases h
  | cacheGet job => cases h
  | _ => rfl

theorem checksSla_quiet {e : Op} (h : e.checksSla = true) : settles e = false := by
  cases e with
  | bump c n => cases c <;> first | rfl | cases h
  | cacheGet job => cases h
  | _ => rfl

/-- Programs of quiet operations leave the tally as it is. -/
theorem quiet_wp [F64Text] {B : Type} {p : RouterM B} {P : Op → Prop} (h : p.All P)
    (hq : ∀ e, P e → settles e = false) {post : B → Tally → Prop} {v : Tally}
    (hp : ∀ a, post a v) : p.wp monitor post v :=
  h.wp (fun e he => ⟨fun _ => hq e he, fun r _ => quiet_next (hq e he) r⟩) hp

theorem flushBatchKind_all (kind : JobKind) :
    (flushBatchKind kind).All (fun e => settles e = false) := by
  unfold flushBatchKind
  refine Prog.All.bind (by simp [settles]) fun cfg => ?_
  refine Prog.All.bind (by simp [settles]) fun found => ?_
  split
  · refine Prog.All.bind (by simp [settles]) fun taken => ?_
    split
    · trivial
    · exact Prog.All.bind (by simp [settles]) fun _ =>
        flushEntries_all (fun _ => rfl) (fun _ _ => rfl) _
  · trivial

theorem settled_some : Settled true { request := true, completed := 1, routed := 1 } := by
  constructor <;> simp

theorem settled_none : Settled false { request := true, dropped := 1, routed := 1 } := by
  constructor <;> simp

theorem cpuWorker_all (w : CpuWork) : (cpuWorker w).All (fun e => settles e = false) := by
  refine ⟨rfl, fun cancelled => ⟨rfl, ?_⟩⟩
  rintro (_ | out) <;> simp [settles]

theorem cpuDispatchLoop_all : cpuDispatchLoop.All (fun e => settles e = false) := by
  simp [cpuDispatchLoop, settles]
  rintro (_ | w) <;> simp

theorem batchFlusher_all (idx : Fin 3) : (batchFlusher idx).All (fun e => settles e = false) := by
  simp [batchFlusher, settles]
  exact fun _ => (flushBatchKind_all _).bind fun _ => by simp [settles]

theorem closes_submitted {out : Option (List Output)} {v : Tally} (h : Settled out.isSome v) :
    Closes (.submitted out) v := by
  intro ok hok
  cases hok
  exact h

theorem closes_ok {v : Tally} (h : Settled true v) : Closes (.ran (.ok ())) v := by
  intro ok hok
  cases hok
  exact h

theorem closes_error {v : Tally} {e : Rejected} (h : Settled false v) :
    Closes (.ran (.error e)) v := by
  intro ok hok
  cases hok
  exact h

theorem closes_unwound (v : Tally) : Closes .unwound v := by
  intro ok hok
  cases hok

section Requests

variable [F64Text]

attribute [local simp] Tally.next Tally.count settles batchFound bumpRoute bumpKindRoute

theorem submitCompleted_wp (job : Job) (out : List Output) {v : Tally}
    {post : Option (List Output) → Tally → Prop} (hr : v.request = true)
    (hp : post (some out) { v with completed := v.completed + 1 }) :
    (submitCompleted job out).wp monitor post v := by
  simp only [submitCompleted, Op.run, Prog.wp_bind, Prog.wp_perform]
  refine ⟨by simp, fun env _ => ⟨by simp [hr], fun _ _ => ?_⟩⟩
  exact quiet_wp (checkSlaViolation_all _ _) (fun e => checksSla_quiet) fun _ => hp

theorem submitDrop_wp (frac : Option ℚ) :
    (submitDrop frac).wp monitor (fun out => Settled out.isSome) { request := true } := by
  simp [submitDrop]
  constructor <;> simp

theorem submitInline_wp (job : Job) (frac : Option ℚ) :
    (submitInline job frac).wp monitor (fun out => Settled out.isSome) { request := true } := by
  simp [submitInline]
  intro out env
  refine quiet_wp (checkSlaViolation_all _ _) (fun e => checksSla_quiet) fun _ => ?_
  simpa using settled_some

theorem submitSpawn_wp (job : Job) (frac : Option ℚ) :
    (submitSpawn job frac).wp monitor (fun out => Settled out.isSome) { request := true } := by
  simp [submitSpawn]
  rintro (_ | out)
  · simpa using settled_none
  · simp
    exact fun env => submitCompleted_wp job out rfl settled_some

theorem submitCpuPool_wp (job : Job) (frac : Option ℚ) :
    (submitCpuPool job frac).wp monitor (fun out => Settled out.isSome) { request := true } := by
  simp [submitCpuPool]
  intro r
  refine ⟨settled_none, ?_⟩
  rintro (_ | out)
  · simpa using settled_none
  · exact submitCompleted_wp job out rfl settled_some

theorem batchReply_wp (job : Job) (r : Nat) : (batchReply job r).wp monitor
    (fun out => Settled out.isSome) { request := true, routed := 1 } := by
  simp [batchReply]
  rintro (_ | out)
  · simpa using settled_none
  · exact submitCompleted_wp job out rfl settled_some

/-- The miss path settles nothing, but no kind misses its queue. -/
theorem submitBatch_wp (job : Job) (cfg : RouterConfig) :
    (submitBatch job cfg).wp monitor (fun out => Settled out.isSome) { request := true } := by
  simp [submitBatch]
  intro r seq len
  split
  · exact quiet_wp (flushBatchKind_all _) (fun _ h => h) fun _ => batchReply_wp job r
  · exact batchReply_wp job r

theorem submitWith_wp (strategy : Strategy) (job : Job) (cfg : RouterConfig) (frac : Option ℚ) :
    (submitWith strategy job cfg frac).wp monitor (fun out => Settled out.isSome)
      { request := true } := by
  cases strategy with
  | drop => exact submitDrop_wp frac
  | inline => exact submitInline_wp job frac
  | spawn => exact submitSpawn_wp job frac
  | cpuPool => exact submitCpuPool_wp job frac
  | batch => exact submitBatch_wp job cfg

theorem submitRouted_wp (job : Job) :
    (submitRouted job).wp monitor (fun out => Settled out.isSome) { request := true } := by
  simp [submitRouted]
  intro cfg threshold available available' env
  exact submitWith_wp _ _ _ _

theorem submitCached_wp (job : Job) :
    (submitCached job).wp monitor (fun out => Settled out.isSome) { request := true } := by
  unfold submitCached
  simp only [Prog.wp_bind, Prog.wp_perform]
  refine ⟨by simp, fun text _ => ?_⟩
  by_cases h : served text
  · have hn : (text.map parseOutputs).getD [] ≠ [] := h
    simp only [hn, ne_eq, not_false_eq_true, if_true, monitor_next, Tally.next, h]
    simp
    constructor <;> simp
  · have hn : ¬ (text.map parseOutputs).getD [] ≠ [] := h
    simp only [hn, if_false, monitor_next, Tally.next, h]
    exact submitRouted_wp job

theorem submit_wp (job : Job) :
    (submit job).wp monitor (fun out => Settled out.isSome) { request := true } := by
  simp [submit, submitLive, submitFree]
  intro env
  split
  · constructor <;> simp
  · split
    · simpa using settled_some
    · exact submitCached_wp job

theorem runFinished_wp (hint : WorkHint) (frac : Option ℚ) (result : Except Rejected Unit) :
    (runFinished hint frac result).wp monitor Closes { request := true, routed := 1 } := by
  cases result with
  | ok u => simpa [runFinished] using fun _ => closes_ok settled_some
  | error e => simpa [runFinished] using fun _ => closes_error settled_none

theorem runWith_wp (strategy : Strategy) (hint : WorkHint) (frac : Option ℚ)
    (hs : strategy ≠ .drop) :
    (runWith strategy hint frac).wp monitor Closes { request := true, routed := 1 } := by
  have hpool : (runWith .cpuPool hint frac).wp monitor Closes { request := true, routed := 1 } := by
    simp [runWith, runPooled]
    exact ⟨closes_error settled_none, runFinished_wp _ _ _, runFinished_wp _ _ _⟩
  cases strategy with
  | drop => exact absurd rfl hs
  | inline =>
    simp [runWith]
    exact ⟨closes_unwound _, runFinished_wp _ _ _⟩
  | spawn =>
    simp [runWith]
    exact ⟨runFinished_wp _ _ _, runFinished_wp _ _ _⟩
  | cpuPool => exact hpool
  | batch => exact hpool

theorem run_wp (hint : WorkHint) : (run hint).wp monitor Closes { request := true } := by
  simp [run, runRouted]
  intro env
  split
  · apply closes_error
    constructor <;> simp
  · intro cfg threshold available available'
    generalize chooseStrategy _ _ _ = strategy
    by_cases hs : strategy = .drop
    · subst hs
      simp [runWith]
      apply closes_error
      constructor <;> simp
    · simpa [hs] using runWith_wp strategy hint _ hs

/-- Whatever is not a request is quiet. -/
theorem callBody_quiet (c : Call) (h : c.isRequest = false) :
    (callBody c).All (fun e => settles e = false) := by
  cases c with
  | submit job => cases h
  | run hint => cases h
  | cpuDispatchLoop => exact cpuDispatchLoop_all.bind fun _ => trivial
  | cpuWorker w => exact (cpuWorker_all w).bind fun _ => trivial
  | batchFlusher idx => exact (batchFlusher_all idx).bind fun _ => trivial
  | _ => exact (callBody_all _ rfl).imp fun e => configures_quiet

theorem body_wp (c : Call) : (callBody c).wp monitor (monitor.fin c) (monitor.init c) := by
  cases hc : c.isRequest with
  | false =>
    refine quiet_wp (callBody_quiet c hc) (fun _ h => h) fun a h => ?_
    rw [hc] at h
    cases h
  | true =>
    cases c with
    | submit job =>
      refine (Prog.wp_bind _ _ _ _).mpr (Prog.wp_mono (submit_wp job) ?_)
      exact fun out v h _ => closes_submitted h
    | run hint => exact Prog.wp_mono (run_wp hint) fun a v h _ => h
    | _ => cases hc

end Requests

/-- The routes counted over all strategies. -/
def routes (f : Counter → Nat) : Nat :=
  ([Strategy.inline, .spawn, .cpuPool, .batch, .drop].map (fun s => f (.routed s))).sum

inductive Account where
  | completed
  | dropped
  | routed
  | routedDrop

/-- Only requests are credited. -/
def credit (a : Account) (v : Tally) : Nat :=
  if v.request then
    match a with
    | .completed => v.completed
    | .dropped => v.dropped
    | .routed => v.routed
    | .routedDrop => v.routedDrop
  else 0

def total (a : Account) (counters : Counter → Nat) : Nat :=
  match a with
  | .completed => counters .completed
  | .dropped => counters .dropped
  | .routed => routes counters
  | .routedDrop => counters (.routed .drop)

theorem total_exec {e : Op} {env : Env} {s s' : Inner} {r : e.Resp} {new : List Call}
    (h : e.exec env s = some (r, s', new)) (a : Account) :
    total a s'.counters = total a s.counters + total a e.adds := by
  have hc := Op.exec_counters h
  cases a <;> simp [total, routes, hc]
  omega

theorem total_quiet {e : Op} (h : settles e = false) (a : Account) : total a e.adds = 0 := by
  cases e with
  | bump c n =>
    cases c <;> simp only [settles, Bool.true_eq_false] at h
    all_goals cases a <;> simp [total, routes, Op.adds]
  | cacheGet job => cases a <;> simp [total, routes, Op.adds]
  | _ => cases a <;> simp [total, routes, Op.adds]

theorem credit_next [F64Text] {v : Tally} {e : Op} (r : e.Resp)
    (h : v.request = false → settles e = false) (a : Account) :
    credit a (v.next e r) = credit a v + total a e.adds := by
  cases hv : v.request with
  | false => rw [quiet_next (h hv), total_quiet (h hv), Nat.add_zero]
  | true =>
    cases e with
    | bump c n =>
      cases c with
      | routed s =>
        cases s <;> cases a <;>
          simp [credit, Tally.next, Tally.count, hv, total, routes, Op.adds]
      | _ => cases a <;> simp [credit, Tally.next, Tally.count, hv, total, routes, Op.adds]
    | cacheGet job =>
      cases a <;> simp only [credit, Tally.next] <;> split <;>
        simp [total, routes, Op.adds]
    | _ => cases a <;> simp [credit, Tally.next, hv, total, routes, Op.adds]

theorem next_request [F64Text] (v : Tally) (e : Op) (r : e.Resp) :
    (v.next e r).request = v.request := by
  cases e with
  | bump c n => cases c <;> rfl
  | cacheGet job =>
    simp only [Tally.next]
    split <;> rfl
  | _ => rfl

theorem credit_init [F64Text] (a : Account) (c : Call) : credit a (monitor.init c) = 0 := by
  unfold credit
  split
  · cases a <;> rfl
  · rfl

/-- Every counter of outcomes and routes is what the requests added to it. -/
theorem ledger [F64Text] : machine.Ledger monitor (fun _ _ => True)
    (fun s => ∀ k, (s.batches k).isSome) credit (fun _ _ => 0)
    (fun a s => total a s.counters) where
  body := body_wp
  start c p _ _ a := credit_init a c
  step k env p t e r s' new _ hx _ _ _ hgood ha _ := by
    have hx : e.exec env p.state = some (r, s', new) := hx
    refine ⟨?_, fun k => Op.exec_batches_isSome hx k (hgood k), fun a => ?_⟩
    · cases e with
      | hasBatch k =>
        simp only [Op.exec, Option.some.injEq, Prod.mk.injEq] at hx
        exact hx.1.symm.trans (hgood k)
      | _ => trivial
    · have hnew : (new.map (fun c => credit a (monitor.init c))).sum = 0 := by
        refine List.sum_eq_zero fun n hn => ?_
        obtain ⟨c, _, rfl⟩ := List.mem_map.mp hn
        exact credit_init a c
      have hn := credit_next r ha a
      have ht := total_exec hx a
      simp only [monitor_next, hnew]
      omega

/-- Whether a call got its result, once it has returned. -/
def returned (t : RouterTask) : Option Bool := t.result?.bind outcome?

/-- What one call has added to a counter. -/
def added (t : RouterTask) (c : Counter) : Nat := t.total (fun e _ => e.adds c)

def servedBy [F64Text] : (e : Op) → e.Resp → Nat
  | .cacheGet _, text => if served text then 1 else 0
  | _, _ => 0

/-- How often the cache answered a call. -/
def cacheAnswers [F64Text] (t : RouterTask) : Nat := t.total servedBy

def requests (p : RouterPool) : List RouterTask := p.tasks.filter (fun t => t.call.isRequest)

def allReturned (p : RouterPool) : Bool := (requests p).all (fun t => (returned t).isSome)

section Views

variable [F64Text] (t : RouterTask)

theorem view_request : (t.view monitor).request = t.call.isRequest :=
  t.view_const monitor Tally.request next_request

theorem view_completed : (t.view monitor).completed = added t .completed := by
  have h := t.view_total monitor Tally.completed (fun e _ => e.adds .completed) (by
    intro v e r
    cases e with
    | bump c n => cases c <;> simp [Tally.next, Tally.count, Op.adds]
    | cacheGet job => simp only [monitor_next, Tally.next]; split <;> rfl
    | _ => rfl)
  simpa [monitor, added] using h

theorem view_dropped : (t.view monitor).dropped = added t .dropped := by
  have h := t.view_total monitor Tally.dropped (fun e _ => e.adds .dropped) (by
    intro v e r
    cases e with
    | bump c n => cases c <;> simp [Tally.next, Tally.count, Op.adds]
    | cacheGet job => simp only [monitor_next, Tally.next]; split <;> rfl
    | _ => rfl)
  simpa [monitor, added] using h

theorem view_routed : (t.view monitor).routed = routes (added t) := by
  have h := t.view_total monitor Tally.routed (fun e _ => routes e.adds) (by
    intro v e r
    cases e with
    | bump c n =>
      cases c with
      | routed s => cases s <;> simp [Tally.next, Tally.count, routes, Op.adds]
      | _ => simp [Tally.next, Tally.count, routes, Op.adds]
    | cacheGet job =>
      simp only [monitor_next, Tally.next]
      split <;> rfl
    | _ => rfl)
  have hsum : t.total (fun e _ => routes e.adds) = routes (added t) := by
    simp only [Task.total, added, routes, List.map_cons, List.map_nil, List.sum_cons, List.sum_nil,
      List.sum_map_add]
    simp
  rw [← hsum]
  simpa [monitor] using h

theorem view_hits : (t.view monitor).hits = cacheAnswers t := by
  have h := t.view_total monitor Tally.hits servedBy (by
    intro v e r
    cases e with
    | bump c n => cases c <;> rfl
    | cacheGet job => simp only [monitor_next, Tally.next, servedBy]; split <;> rfl
    | _ => rfl)
  simpa [monitor, cacheAnswers] using h

end Views

theorem mem_requests {p : RouterPool} {t : RouterTask} :
    t ∈ requests p ↔ t ∈ p.tasks ∧ t.call.isRequest = true := List.mem_filter

section Runs

variable [F64Text] {cfg : RouterConfig} {p : RouterPool}

theorem reachable_balanced (h : Reachable cfg p) :
    (∀ a, p.tally monitor (credit a) = total a p.state.counters) ∧
      ∀ t ∈ p.tasks, t.Follows monitor := by
  obtain ⟨p0, as, hn, hr⟩ := h
  obtain ⟨⟨_, hb⟩, hf⟩ := ledger_run ledger (fun _ => rfl)
    (fun a => by rw [credit_init, credit_init]; cases a <;> rfl) hn Machine.guarded_true hr
  exact ⟨hb, hf⟩

/-- A call that has returned settled exactly what it returned. -/
theorem returned_settled {t : RouterTask} (hf : t.Follows monitor)
    (hc : t.call.isRequest = true) {ok : Bool} (hr : returned t = some ok) :
    Settled ok (t.view monitor) := by
  obtain ⟨a, ha, hok⟩ := Option.bind_eq_some_iff.mp hr
  exact hf.finished ha hc ok hok

theorem request_settled (hf : ∀ t ∈ p.tasks, t.Follows monitor) (hr : allReturned p = true)
    {t : RouterTask} (ht : t ∈ requests p) :
    ∃ ok, returned t = some ok ∧ Settled ok (t.view monitor) := by
  obtain ⟨hm, hc⟩ := mem_requests.mp ht
  obtain ⟨ok, hok⟩ := Option.isSome_iff_exists.mp (List.all_eq_true.mp hr t ht)
  exact ⟨ok, hok, returned_settled (hf t hm) hc hok⟩

/-- Once all requests have returned, each is credited one outcome. -/
theorem outcomes_count (hf : ∀ t ∈ p.tasks, t.Follows monitor) (hr : allReturned p = true) :
    p.tally monitor (credit .completed) + p.tally monitor (credit .dropped) =
      (requests p).length := by
  rw [← Pool.tally_add]
  refine Pool.tally_count _ (fun t : RouterTask => t.call.isRequest) fun t ht => ?_
  cases hc : t.call.isRequest with
  | false => simp [credit, view_request, hc]
  | true =>
    obtain ⟨ok, _, hs⟩ := request_settled hf hr (mem_requests.mpr ⟨ht, hc⟩)
    simp only [credit, view_request, hc, if_true, hs.completed, hs.dropped]
    cases ok <;> rfl

/-- Every finite set of calls that have returned is accounted for, one outcome each. -/
theorem outcomes_accounted (h : Reachable cfg p) (hr : allReturned p = true) :
    p.state.counters .completed + p.state.counters .dropped = (requests p).length ∧
      ∀ t ∈ requests p,
        (returned t = some true ↔ added t .completed = 1) ∧
        (returned t = some false ↔ added t .dropped = 1) ∧
        added t .completed + added t .dropped = 1 := by
  obtain ⟨hb, hf⟩ := reachable_balanced h
  constructor
  · have hcount := outcomes_count hf hr
    rw [hb, hb] at hcount
    exact hcount
  · intro t ht
    obtain ⟨ok, hok, hs⟩ := request_settled hf hr ht
    rw [← view_completed, ← view_dropped, hs.completed, hs.dropped, hok]
    cases ok <;> simp

end Runs

/-- One job answered and one piece of work refused past its deadline. -/
def mixedRun : List RouterAction :=
  .start (.submit { inputs := [1], computeCost := 100 }) :: .start (.run { deadlineMs := 1 }) ::
    (turns 2 17 {} ++ turns 3 4 { nowMs := 5 })

theorem outcomes_accounted_mixed : ∃ p, Reachable {} p ∧
    p.state.counters .completed + p.state.counters .dropped = 2 := by
  obtain ⟨p, hp, hr⟩ := exists_reachable {} mixedRun
    (fun p => allReturned p && (requests p).length == 2) (by decide +kernel)
  simp only [Bool.and_eq_true, beq_iff_eq] at hr
  exact ⟨p, hp, (outcomes_accounted hp hr.1).1.trans hr.2⟩

section Runs

variable [F64Text] {cfg : RouterConfig} {p : RouterPool}

/-- The requests the cache answered. -/
def cacheServed (p : RouterPool) : List RouterTask :=
  p.tasks.filter (fun t => t.call.isRequest && cacheAnswers t == 1)

theorem routes_count (hf : ∀ t ∈ p.tasks, t.Follows monitor) (hr : allReturned p = true) :
    p.tally monitor (credit .routed) + (cacheServed p).length = (requests p).length := by
  have hits : p.tally monitor (fun v => if v.request then v.hits else 0) =
      (cacheServed p).length := by
    refine Pool.tally_count _ _ fun t ht => ?_
    cases hc : t.call.isRequest with
    | false => simp [view_request, hc]
    | true =>
      obtain ⟨ok, _, hs⟩ := request_settled hf hr (mem_requests.mpr ⟨ht, hc⟩)
      have := hs.routed
      simp only [view_request, hc, if_true, ← view_hits, Bool.true_and, beq_iff_eq]
      split <;> omega
  rw [← hits, ← Pool.tally_add]
  refine Pool.tally_count _ (fun t : RouterTask => t.call.isRequest) fun t ht => ?_
  cases hc : t.call.isRequest with
  | false => simp [credit, view_request, hc]
  | true =>
    obtain ⟨ok, _, hs⟩ := request_settled hf hr (mem_requests.mpr ⟨ht, hc⟩)
    simp only [credit, view_request, hc, if_true, hs.routed]

/-- Every call that has returned was routed once or answered by the cache once. -/
theorem routes_accounted (h : Reachable cfg p) (hr : allReturned p = true) :
    routes p.state.counters + (cacheServed p).length =
        p.state.counters .completed + p.state.counters .dropped ∧
      (∀ t ∈ requests p, routes (added t) + cacheAnswers t = 1) ∧
      p.state.counters (.routed .drop) ≤ p.state.counters .dropped := by
  obtain ⟨hb, hf⟩ := reachable_balanced h
  have hroute := routes_count hf hr
  have hout := outcomes_count hf hr
  rw [hb] at hroute
  rw [hb, hb] at hout
  refine ⟨hroute.trans hout.symm, fun t ht => ?_, ?_⟩
  · obtain ⟨ok, -, hs⟩ := request_settled hf hr ht
    rw [← view_routed, ← view_hits]
    exact hs.routed
  · have hle : p.tally monitor (credit .routedDrop) ≤ p.tally monitor (credit .dropped) := by
      refine Pool.tally_le fun t ht => ?_
      cases hc : t.call.isRequest with
      | false => simp [credit, view_request, hc]
      | true =>
        obtain ⟨ok, _, hs⟩ := request_settled hf hr (mem_requests.mpr ⟨ht, hc⟩)
        simpa only [credit, view_request, hc, if_true] using hs.routedDrop
    rw [hb, hb] at hle
    exact hle

end Runs

/-- The same job twice: the second answer comes from the cache. -/
def cachedRun : List RouterAction :=
  .start (.submit { inputs := [1], computeCost := 100 }) ::
    .start (.submit { inputs := [1], computeCost := 100 }) :: (turns 2 17 {} ++ turns 3 4 {})

theorem routes_accounted_cached : ∃ p, Reachable {} p ∧
    routes p.state.counters + 1 = p.state.counters .completed + p.state.counters .dropped := by
  obtain ⟨p, hp, hr⟩ := exists_reachable {} cachedRun
    (fun p => allReturned p && (cacheServed p).length == 1) (by decide +kernel)
  simp only [Bool.and_eq_true, beq_iff_eq] at hr
  refine ⟨p, hp, ?_⟩
  have := (routes_accounted hp hr.1).1
  rwa [hr.2] at this

/-- A call answered by the cache is counted under no strategy. -/
theorem cached_call_not_routed : ∃ p, Reachable {} p ∧ allReturned p = true ∧
    routes p.state.counters ≠ p.state.counters .completed + p.state.counters .dropped := by
  obtain ⟨p, hp, hr⟩ := exists_reachable {} cachedRun
    (fun p => allReturned p && (routes p.state.counters !=
      p.state.counters .completed + p.state.counters .dropped)) (by decide +kernel)
  simp only [Bool.and_eq_true, bne_iff_ne] at hr
  exact ⟨p, hp, hr.1, hr.2⟩

end HelixRouter.Accounting
