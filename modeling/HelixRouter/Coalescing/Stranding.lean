import HelixRouter.Coalescing.SingleFlight
import HelixRouter.Interleaving.Moments

namespace HelixRouter.Coalescing

open Interleaving Runs

/-- Where a caller awaits, and so where its future can be dropped. A fetch that panics takes its
caller with it. -/
def Op.suspends : Op → Bool
  | .fetch | .recv _ => true
  | _ => false

abbrev CoalesceScene := Scene Op Op.Resp RequestCoalescer Call Answer

abbrev CoalesceEvent := Event Fetched Call

/-- A caller that goes away lets go of the senders it owns. -/
def letGo (x : CoalesceScene) (i : Nat) : CoalesceScene :=
  let owned := (x.pool.tasks[i]?).elim [] fun t => t.log Op.led
  { x with pool := { x.pool with state := owned.foldl RequestCoalescer.release x.pool.state } }

def live (x : CoalesceScene) : CoalesceEvent → Option CoalesceScene
  | .act a => machine.live Op.suspends x (.act a)
  | .vanish i => (machine.live Op.suspends x (.vanish i)).map (letGo · i)

def startScene : CoalesceScene := ⟨startPool, []⟩

/-- The caller has gone away or has returned. -/
def Departed (x : CoalesceScene) (i : Nat) : Prop :=
  i ∈ x.gone ∨ ∃ t, x.pool.tasks[i]? = some t ∧ t.result?.isSome = true

/-- A caller that is still there leads the channel that the map has. -/
def Leading (x : CoalesceScene) (key : String) : Prop :=
  ∃ i t id, ¬ Departed x i ∧ x.pool.tasks[i]? = some t ∧ id ∈ t.log Op.led ∧
    x.pool.state.inFlight.lookup key = some id

/-- A caller that comes now and takes its turns comes to run its own fetch. -/
def FetchesItself (x : CoalesceScene) (key : String) : Prop :=
  ∃ y, exec live x ((.start key :: turns x.pool.tasks.length 4 (.ok "")).map .act) = some y ∧
    y.head? x.pool.tasks.length = some .fetch

/-- Nobody waits on a channel that the map still has when its leader has departed, and then the
next caller of the key fetches, unless another one leads by then. -/
structure NobodyStranded (x : CoalesceScene) : Prop where
  waiters : ∀ i ∉ x.gone, ∀ rx, x.head? i = some (.recv rx) → ∀ j t, x.pool.tasks[j]? = some t →
    rx.channel ∈ t.log Op.led → Departed x j →
      ∀ key, x.pool.state.inFlight.lookup key ≠ some rx.channel
  later : ∀ j t, x.pool.tasks[j]? = some t → t.log Op.led ≠ [] → Departed x j →
    ¬ Leading x t.call → FetchesItself x t.call

/-- Who goes away does not lead. -/
def Harmless (x : CoalesceScene) : CoalesceEvent → Prop
  | .act _ => True
  | .vanish i => ∀ t, x.pool.tasks[i]? = some t → t.log Op.led = []

section Ledgers

def ledBy (id : ChannelId) (v : Doings) : Nat := v.led.count id

/-- Every channel that is there has one caller that leads it. -/
theorem ledOnce : machine.Ledger monitor (fun _ _ => True) (fun _ => True) ledBy (fun _ _ => 0)
    made where
  body := body_wp
  start _ _ _ _ _ := rfl
  step k env p t e r s' new ht hx hh hk hg hgood ha hb := by
    have hx : e.exec env p.state = some (r, s', new) := hx
    refine ⟨trivial, trivial, fun id => ?_⟩
    rw [Op.exec_new hx, ← exec_led hx id]
    simp only [ledBy, monitor_next, Doings.next, List.count_append, List.map_nil, List.sum_nil]
    omega

end Ledgers

/-- What holds of every scene, whoever goes away. -/
structure Sane (x : CoalesceScene) : Prop where
  kept : Kept x.pool
  once : ∀ id, x.pool.tally monitor (ledBy id) + 0 = made id x.pool.state
  gone : ∀ i ∈ x.gone, i < x.pool.tasks.length
  stuck : ∀ i ∈ x.gone, ∀ t, x.pool.tasks[i]? = some t → t.log Op.led ≠ [] →
    t.prog.head? = some .fetch

/-- None of those who went away led. -/
def Clean (x : CoalesceScene) : Prop :=
  ∀ i ∈ x.gone, ∀ t, x.pool.tasks[i]? = some t → t.log Op.led = []

section Sane

variable {x y : CoalesceScene} {ev : CoalesceEvent} {i : Nat}

theorem foldl_release (ids : List ChannelId) (s : RequestCoalescer) :
    (ids.foldl RequestCoalescer.release s).inFlight = s.inFlight ∧
      (ids.foldl RequestCoalescer.release s).channels.length = s.channels.length := by
  induction ids generalizing s with
  | nil => exact ⟨rfl, rfl⟩
  | cons id ids ih =>
    obtain ⟨hmap, hlength⟩ := ih (s.release id)
    exact ⟨hmap, hlength.trans (List.length_modify ..)⟩

theorem live_vanish (h : live x (.vanish i) = some y) :
    i ∉ x.gone ∧ (x.head? i).any Op.suspends = true ∧ y.gone = i :: x.gone ∧
      y.pool.tasks = x.pool.tasks ∧ y.pool.state.inFlight = x.pool.state.inFlight ∧
      y.pool.state.channels.length = x.pool.state.channels.length := by
  obtain ⟨z, hz, rfl⟩ := Option.map_eq_some_iff.mp h
  obtain ⟨⟨hi, hhead⟩, rfl⟩ := Machine.live_vanish.mp hz
  obtain ⟨hmap, hlength⟩ := foldl_release ((x.pool.tasks[i]?).elim [] fun t => t.log Op.led)
    x.pool.state
  exact ⟨hi, hhead, rfl, rfl, hmap, hlength⟩

/-- A leader goes away only while it fetches. -/
theorem Sane.fetch_of_suspends (h : Sane x) {t : CoalesceTask}
    (hhead : (x.head? i).any Op.suspends = true) (ht : x.pool.tasks[i]? = some t)
    (hled : t.log Op.led ≠ []) : t.prog.head? = some .fetch := by
  obtain ⟨e, he, hsuspends⟩ := (Option.any_eq_true _ _).mp hhead
  rw [Scene.head?, ht, Option.bind_some] at he
  have ha : (t.view monitor).Allows e :=
    (h.kept.follows t (List.mem_of_getElem? ht)).allowed_head he
  cases e with
  | fetch => exact he
  | recv rx =>
    obtain ⟨hnone, -⟩ := ha
    rw [view_led] at hnone
    exact absurd hnone hled
  | _ => cases hsuspends

theorem sane_start : Sane startScene where
  kept := kept_of_run (show machine.run [] startPool = some startPool from rfl)
  once id := (if_neg (Nat.not_lt_zero id)).symm
  gone _ hi := absurd hi List.not_mem_nil
  stuck _ hi := absurd hi List.not_mem_nil

theorem Sane.step (h : Sane x) (hs : live x ev = some y) : Sane y := by
  cases ev with
  | act a =>
    have hstep := machine.step_cases (Machine.live_act hs).1
    obtain ⟨⟨hfiled, hbalance⟩, hfollows⟩ := ledger.invariant.preserved hstep trivial
      ⟨h.kept.filed, h.kept.balance⟩ h.kept.follows
    obtain ⟨⟨-, honce⟩, -⟩ := ledOnce.invariant.preserved hstep trivial ⟨trivial, h.once⟩
      h.kept.follows
    refine ⟨⟨hfiled, hbalance, hfollows⟩, honce, Machine.live_gone h.gone hs, fun i hi t ht => ?_⟩
    rw [(Machine.live_act hs).2] at hi
    rw [Machine.live_task_gone hs hi (h.gone i hi)] at ht
    exact h.stuck i hi t ht
  | vanish i =>
    obtain ⟨-, hhead, hgone, htasks, hmap, hlength⟩ := live_vanish hs
    refine ⟨⟨fun key id hl => ?_, fun account => ?_, ?_⟩, fun id => ?_, fun j hj => ?_,
      fun j hj t ht hled => ?_⟩
    · rw [hmap] at hl
      rw [hlength]
      exact h.kept.filed key id hl
    · rw [Pool.tally, htasks, owedTo, hmap]
      exact h.kept.balance account
    · rw [htasks]
      exact h.kept.follows
    · rw [Pool.tally, htasks, made, hlength]
      exact h.once id
    · rw [hgone] at hj
      rw [htasks]
      rcases List.mem_cons.mp hj with rfl | hj
      · obtain ⟨e, he, -⟩ := (Option.any_eq_true _ _).mp hhead
        obtain ⟨t, ht, -⟩ := Option.bind_eq_some_iff.mp he
        exact (List.getElem?_eq_some_iff.mp ht).1
      · exact h.gone j hj
    · rw [hgone] at hj
      rw [htasks] at ht
      rcases List.mem_cons.mp hj with rfl | hj
      · exact h.fetch_of_suspends hhead ht hled
      · exact h.stuck j hj t ht hled

/-- The channels of two callers that lead are two. -/
theorem Sane.index_of_led (h : Sane x) {i k : Nat} {t u : CoalesceTask} {id : ChannelId}
    (ht : x.pool.tasks[i]? = some t) (hu : x.pool.tasks[k]? = some u) (hti : id ∈ t.log Op.led)
    (huk : id ∈ u.log Op.led) : i = k := by
  refine Pool.index_unique monitor (ledBy id) ?_ ht hu ?_ ?_
  · have honce := h.once id
    unfold made at honce
    split at honce <;> omega
  · rw [ledBy, view_led]
    exact List.count_pos_iff.mpr hti
  · rw [ledBy, view_led]
    exact List.count_pos_iff.mpr huk

end Sane

section Turns

variable {x y : CoalesceScene} {env : Fetched} {s s' : RequestCoalescer}
  {tasks : List CoalesceTask} {gone : List Nat} {t : CoalesceTask} {key : String}

/-- The caller that came last takes a turn. -/
theorem live_last {e : Op} {next : e.Resp → CoalesceM Answer} {r : e.Resp}
    (hn : tasks.length ∉ gone) (hprog : t.prog = .op e next)
    (hx : e.exec env s = some (r, s', [])) :
    live ⟨⟨s, tasks ++ [t]⟩, gone⟩ (.act (.step tasks.length env)) =
      some ⟨⟨s', tasks ++ [t.advance e r (next r)]⟩, gone⟩ := by
  have hx' : machine.exec e env s = some (r, s', []) := hx
  simp [live, Machine.live, Machine.step, hn, hprog, hx']

theorem exec_last {e : Op} {next : e.Resp → CoalesceM Answer} {r : e.Resp} {n : Nat}
    (hn : tasks.length ∉ gone) (hprog : t.prog = .op e next)
    (hx : e.exec env s = some (r, s', [])) :
    exec live ⟨⟨s, tasks ++ [t]⟩, gone⟩
        (List.replicate (n + 1) (.act (.step tasks.length env))) =
      exec live ⟨⟨s', tasks ++ [t.advance e r (next r)]⟩, gone⟩
        (List.replicate n (.act (.step tasks.length env))) := by
  rw [List.replicate_succ, exec_cons, live_last hn hprog hx, Option.bind_some]

theorem head?_last : Scene.head? (⟨⟨s, tasks ++ [t]⟩, gone⟩ : CoalesceScene) tasks.length =
    t.prog.head? := by
  simp [Scene.head?]

/-- Who receives has come to its end. -/
theorem head?_of_recv {rx : Receiver} {next : Option Fetched → CoalesceM Answer}
    (hn : tasks.length ∉ gone) (hprog : t.prog = .op (.recv rx) next)
    (hnext : ∀ message, (next message).head? = none)
    (h : exec live ⟨⟨s, tasks ++ [t]⟩, gone⟩ (List.replicate 1 (.act (.step tasks.length env))) =
      some y) : y.head? tasks.length = none := by
  cases hx : (Op.recv rx).exec env s with
  | none =>
    have hx' : machine.exec (.recv rx) env s = none := hx
    have hstuck : live ⟨⟨s, tasks ++ [t]⟩, gone⟩ (.act (.step tasks.length env)) = none := by
      simp [live, Machine.live, Machine.step, hn, hprog, hx']
    rw [List.replicate_one, exec_cons, hstuck] at h
    cases h
  | some result =>
    obtain ⟨message, s', new⟩ := result
    obtain rfl := Op.exec_new hx
    rw [exec_last hn hprog hx, List.replicate_zero, exec_nil] at h
    cases h
    exact head?_last.trans (hnext message)

/-- Where the map does not have the key, the next caller runs its own fetch. -/
theorem fetchesItself_of_none (hgone : ∀ i ∈ x.gone, i < x.pool.tasks.length)
    (h : x.pool.state.inFlight.lookup key = none) : FetchesItself x key := by
  obtain ⟨⟨s, tasks⟩, gone⟩ := x
  have hn : tasks.length ∉ gone := fun hmem => absurd (hgone _ hmem) (Nat.lt_irrefl _)
  have hjoin : (Op.join key).exec (.ok "") { s with totalRequests := s.totalRequests + 1 } =
      some (none, { s with totalRequests := s.totalRequests + 1 }, []) :=
    congrArg (fun found : Option ChannelId => some (found.map _, _, [])) h
  have henter : (Op.enter key).exec (.ok "") { s with totalRequests := s.totalRequests + 1 } =
      some (.leader s.channels.length, { s with
        totalRequests := s.totalRequests + 1
        inFlight := s.inFlight.insert key s.channels.length
        channels := s.channels ++ [{ owners := 2 }] }, []) := by
    simp only [Op.exec]
    rw [show s.inFlight.lookup key = none from h]
  have hstart : live ⟨⟨s, tasks⟩, gone⟩ (.act (.start key)) =
      some ⟨⟨s, tasks ++ [machine.spawn key]⟩, gone⟩ := rfl
  change ∃ y, exec live _ (.act (.start key) ::
    List.replicate 4 (.act (.step tasks.length (.ok "")))) = some y ∧ _
  rw [exec_cons, hstart, Option.bind_some, exec_last hn rfl rfl, exec_last hn rfl hjoin,
    exec_last hn rfl henter, exec_last hn rfl rfl]
  exact ⟨_, rfl, head?_last⟩

/-- Where the map has the key, the next caller waits for who leads it. -/
theorem not_fetchesItself_of_some {id : ChannelId}
    (hgone : ∀ i ∈ x.gone, i < x.pool.tasks.length)
    (h : x.pool.state.inFlight.lookup key = some id) : ¬ FetchesItself x key := by
  obtain ⟨⟨s, tasks⟩, gone⟩ := x
  rintro ⟨y, hy, hhead⟩
  have hn : tasks.length ∉ gone := fun hmem => absurd (hgone _ hmem) (Nat.lt_irrefl _)
  have hjoin : (Op.join key).exec (.ok "") { s with totalRequests := s.totalRequests + 1 } =
      some (some (RequestCoalescer.subscribe { s with totalRequests := s.totalRequests + 1 } id),
        { s with totalRequests := s.totalRequests + 1 }, []) :=
    congrArg (fun found : Option ChannelId => some (found.map _, _, [])) h
  have hstart : live ⟨⟨s, tasks⟩, gone⟩ (.act (.start key)) =
      some ⟨⟨s, tasks ++ [machine.spawn key]⟩, gone⟩ := rfl
  change exec live _ (.act (.start key) ::
    List.replicate 4 (.act (.step tasks.length (.ok "")))) = some y at hy
  rw [exec_cons, hstart, Option.bind_some, exec_last hn rfl rfl, exec_last hn rfl hjoin,
    exec_last hn rfl rfl] at hy
  have hended := head?_of_recv hn rfl (fun message => ?_) hy
  · rw [hended] at hhead
    cases hhead
  · cases message <;> rfl

end Turns

section Stranded

variable {x y : CoalesceScene} {ev : CoalesceEvent} {key : String} {id : ChannelId}

/-- Where none of those who went away led, a key in the map is led by a caller still there. -/
theorem Sane.exists_present (h : Sane x) (hc : Clean x)
    (hl : x.pool.state.inFlight.lookup key = some id) :
    ∃ k u, ¬ Departed x k ∧ x.pool.tasks[k]? = some u ∧ id ∈ u.log Op.led := by
  obtain ⟨u, hu, hkey, hled, hremoved⟩ := h.kept.exists_holds hl
  obtain ⟨k, hk⟩ := List.mem_iff_getElem?.mp hu
  have hmem : id ∈ u.log Op.led := by
    rw [← view_led, hled]
    exact List.mem_singleton_self id
  refine ⟨k, u, ?_, hk, hmem⟩
  rintro (hgone | ⟨t, ht, hended⟩)
  · rw [hc k hgone u hk] at hmem
    exact absurd hmem List.not_mem_nil
  · cases hk.symm.trans ht
    obtain ⟨a, ha⟩ := Option.isSome_iff_exists.mp hended
    have hdone : (u.view monitor).Ended a := (h.kept.follows u hu).finished ha
    rcases hdone with ⟨-, hout, -⟩ | ⟨-, hnone, -⟩
    · rw [hremoved] at hout
      cases hout
    · rw [hled] at hnone
      cases hnone

/-- Who led and went away still has its key in the map. -/
theorem Sane.lookup_of_gone (h : Sane x) {i : Nat} {t : CoalesceTask} (hi : i ∈ x.gone)
    (ht : x.pool.tasks[i]? = some t) (hled : t.log Op.led ≠ []) :
    ∃ id ∈ t.log Op.led, x.pool.state.inFlight.lookup t.call = some id := by
  have hmem := List.mem_of_getElem? ht
  have ha : (t.view monitor).Allows .fetch :=
    (h.kept.follows t hmem).allowed_head (h.stuck i hi t ht hled)
  obtain ⟨id, ⟨hone, -⟩, hremoved, -⟩ := ha
  refine ⟨id, ?_, lookup_of_holds h.kept.balance hmem ⟨view_key t, hone, hremoved⟩⟩
  rw [← view_led, hone]
  exact List.mem_singleton_self id

/-- Nobody is stranded exactly where none of those who went away led. -/
theorem Sane.nobodyStranded_iff (h : Sane x) : NobodyStranded x ↔ Clean x := by
  constructor
  · intro hs i hi t ht
    by_contra hled
    obtain ⟨id, hid, hl⟩ := h.lookup_of_gone hi ht hled
    refine not_fetchesItself_of_some h.gone hl (hs.later i t ht hled (Or.inl hi) ?_)
    rintro ⟨k, u, id', hk, hu, hid', hl'⟩
    cases hl.symm.trans hl'
    rw [← h.index_of_led ht hu hid hid'] at hk
    exact hk (Or.inl hi)
  · intro hc
    refine ⟨fun i _ rx _ j t ht hled hdeparted key hl => ?_, fun j t _ _ _ hnone => ?_⟩
    · obtain ⟨k, u, hk, hu, hid⟩ := h.exists_present hc hl
      rw [← h.index_of_led ht hu hled hid] at hk
      exact hk hdeparted
    · cases hl : x.pool.state.inFlight.lookup t.call with
      | none => exact fetchesItself_of_none h.gone hl
      | some id =>
        obtain ⟨k, u, hk, hu, hid⟩ := h.exists_present hc hl
        exact absurd ⟨k, u, id, hk, hu, hid, hl⟩ hnone

theorem Sane.clean_step_iff (h : Sane x) (hc : Clean x) (hs : live x ev = some y) :
    Clean y ↔ Harmless x ev := by
  cases ev with
  | act a =>
    refine iff_of_true (fun i hi t ht => ?_) trivial
    rw [(Machine.live_act hs).2] at hi
    rw [Machine.live_task_gone hs hi (h.gone i hi)] at ht
    exact hc i hi t ht
  | vanish i =>
    obtain ⟨-, -, hgone, htasks, -⟩ := live_vanish hs
    unfold Clean Harmless
    rw [hgone, htasks, List.forall_mem_cons]
    exact and_iff_left hc

theorem throughout_sane (evs : List CoalesceEvent) : Throughout live Sane startScene evs :=
  throughout_of_step sane_start fun _ _ _ h hs => h.step hs

theorem throughout_clean_iff (evs : List CoalesceEvent) :
    Throughout live Clean startScene evs ↔ EachStep live Harmless startScene evs := by
  have hboth : Throughout live (fun x => Sane x ∧ Clean x) startScene evs ↔
      EachStep live Harmless startScene evs := by
    refine throughout_iff_eachStep ⟨sane_start, fun _ hi => absurd hi List.not_mem_nil⟩ ?_
    intro x ev _ y hx hs
    rw [and_iff_right (hx.1.step hs)]
    exact hx.1.clean_step_iff hx.2 hs
  rw [← hboth, throughout_and, and_iff_right (throughout_sane evs)]

end Stranded

/-- No caller waits for a leader that has departed, and the next caller of such a leader's key
fetches, in exactly the runs in which no leader goes away while it fetches. -/
theorem nobody_stranded_iff (evs : List CoalesceEvent) :
    Throughout live NobodyStranded startScene evs ↔ EachStep live Harmless startScene evs := by
  rw [← throughout_clean_iff]
  exact (throughout_sane evs).congr fun x hx => hx.nobodyStranded_iff

/-- The leader is cancelled while it fetches and another caller waits for it. -/
def cancelled : List CoalesceEvent :=
  (.start "key" :: .start "key" :: turns 0 4 (.ok "") ++ turns 1 3 (.ok "")).map .act ++
    [.vanish 0]

/-- The other caller waits on a channel that the map keeps open. -/
theorem cancelled_strands : ¬ ∀ evs, Throughout live NobodyStranded startScene evs := by
  intro h
  have hr : (exec live startScene cancelled).any (fun x => decide (0 ∈ x.gone) &&
      decide (1 ∉ x.gone) && (x.pool.tasks[0]?).any (fun t => decide (0 ∈ t.log Op.led)) &&
      decide (x.pool.state.inFlight.lookup "key" = some 0)) = true := by decide +kernel
  have hwaits : (exec live startScene cancelled).bind (·.head? 1) = some (.recv ⟨0, 0⟩) := rfl
  obtain ⟨x, hx, hfacts⟩ := (Option.any_eq_true _ _).mp hr
  simp only [Bool.and_eq_true, decide_eq_true_eq, Option.any_eq_true] at hfacts
  obtain ⟨⟨⟨hgone, hthere⟩, t, ht, hled⟩, hl⟩ := hfacts
  rw [hx, Option.bind_some] at hwaits
  exact ((h cancelled).last hx).waiters 1 hthere ⟨0, 0⟩ hwaits 0 t ht hled (Or.inl hgone) "key" hl

end HelixRouter.Coalescing
