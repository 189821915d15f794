import HelixRouter.Router.Custody

namespace HelixRouter.Custody

open Interleaving

section Kept

variable {e : Op} {st : Stage} {hand : Nat → Nat} {created : List Nat} {pushes : List BatchEntry}
  {waited : List Nat}

theorem internal_next (ha : st.allows e) (r : e.Resp) : (st.next e r).internal = st.internal := by
  cases e with
  | oneshot job =>
    cases ha
    rfl
  | trySend w =>
    cases ha
    cases r <;> rfl
  | pushBatch k entry =>
    cases ha
    rfl
  | dropSender c => rcases ha with rfl | rfl <;> rfl
  | awaitReply c => rcases ha with rfl | rfl <;> rfl
  | dropReceiver =>
    cases ha
    rfl
  | sleepOrShutdown =>
    cases ha
    cases r <;> rfl
  | spawn c =>
    cases c <;> first | rfl | (cases ha; rfl)
  | _ => rfl

/-- An operation that neither moves a task nor gives it a sender leaves its record. -/
theorem Record.same (h : Record hand created pushes waited st) (r : e.Resp)
    (hst : st.next e r = st) (hg : Replies.gains e r = noSender)
    (hr : Replies.releases e = noSender) (hc : Batches.created e r = [])
    (hp : Batches.pushes e r = []) (hw : awaited e r = []) :
    Record (Replies.monitor.next hand e r) (created ++ Batches.created e r)
      (pushes ++ Batches.pushes e r) (waited ++ awaited e r) (st.next e r) := by
  have hhand : Replies.monitor.next hand e r = hand := by
    funext q
    rw [Replies.monitor_next, hg, hr]
    rfl
  rw [hst, hhand, hc, hp, hw, List.append_nil, List.append_nil, List.append_nil]
  exact h

theorem record_internal (hi : st.internal = true) :
    Record hand created pushes waited st ↔ pushes = [] := by
  cases st <;> first | exact Iff.rfl | cases hi

/-- A task of the router's own stays one and pushes nothing, whatever it does. -/
theorem Record.next_internal (h : Record hand created pushes waited st) (ha : st.allows e)
    (hi : st.internal = true) (r : e.Resp) :
    Record (Replies.monitor.next hand e r) (created ++ Batches.created e r)
      (pushes ++ Batches.pushes e r) (waited ++ awaited e r) (st.next e r) := by
  have hstays : (st.next e r).internal = true := by rw [internal_next ha r, hi]
  rw [record_internal hstays, (record_internal hi).mp h, List.nil_append]
  cases e with
  | pushBatch k entry =>
    cases ha
    cases hi
  | _ => rfl

/-- What one allowed operation makes of a record. -/
theorem Record.next (h : Record hand created pushes waited st) (ha : st.allows e)
    (hr : Replies.allows hand e) (r : e.Resp) :
    Record (Replies.monitor.next hand e r) (created ++ Batches.created e r)
      (pushes ++ Batches.pushes e r) (waited ++ awaited e r) (st.next e r) := by
  by_cases hi : st.internal = true
  · exact h.next_internal ha hi r
  -- what is left are the stages of a caller
  cases e with
  | oneshot job =>
    cases ha
    obtain ⟨rfl, rfl, rfl⟩ := h
    refine ⟨?_, rfl, rfl⟩
    funext q
    simp [noSender, Replies.gains, Replies.releases]
  | trySend w =>
    cases ha
    obtain ⟨rfl, rfl, rfl⟩ := h
    have hhand : Replies.monitor.next (Replies.single w.reply) (.trySend w) r = noSender := by
      funext q
      simp [noSender, Replies.gains, Replies.releases]
    cases r with
    | true => exact ⟨hhand, rfl, rfl⟩
    | false => exact ⟨hhand, fun _ he => nomatch he⟩
  | pushBatch k entry =>
    cases ha
    obtain ⟨rfl, rfl, rfl⟩ := h
    refine ⟨rfl, fun e he => ?_⟩
    rw [List.mem_singleton.mp he]
  | dropSender c =>
    rcases ha with rfl | rfl
    · obtain ⟨rfl, rfl, rfl⟩ := h
      refine ⟨?_, fun _ he => nomatch he⟩
      funext q
      simp [noSender, Replies.gains, Replies.releases]
    · exact absurd rfl hi
  | awaitReply c =>
    have hempty : Replies.monitor.next hand (.awaitReply c) r = noSender := by
      funext q
      simp [noSender, Replies.gains, Replies.releases, hr q]
    rcases ha with rfl | rfl
    · obtain ⟨-, -, rfl⟩ := h
      exact ⟨hempty, fun _ he => nomatch he⟩
    · obtain ⟨-, hown⟩ := h
      refine ⟨hempty, fun e he => ?_⟩
      have he : e ∈ pushes := by simpa [Batches.pushes] using he
      simp [awaited, hown e he]
  | dropReceiver | recvWork | sleepOrShutdown =>
    cases ha
    exact absurd rfl hi
  | takeBatch k n =>
    rcases ha with rfl | ⟨c, rfl⟩
    · exact absurd rfl hi
    · obtain ⟨rfl, hown⟩ := h
      simpa [Record, Stage.next, Batches.pushes, Batches.created] using hown
  | sendReply c out =>
    rcases ha with rfl | rfl | ⟨c, rfl⟩
    · exact absurd rfl hi
    · exact absurd rfl hi
    · obtain ⟨rfl, hown⟩ := h
      simpa [Record, Stage.next, Batches.pushes, Batches.created] using hown
  | spawn c =>
    cases c with
    | cpuDispatchLoop | batchFlusher | cpuWorker =>
      cases ha
      exact absurd rfl hi
    | _ => exact h.same r rfl rfl rfl rfl rfl rfl
  | _ => exact h.same r rfl rfl rfl rfl rfl rfl

end Kept

/-- A submitter that has pushed its entry and does not wait for the reply is in a flush. -/
def Flushes (t : RouterTask) : Prop :=
  ∃ r, t.view monitor = .pushed r ∧ t.prog.head? ≠ some (.awaitReply r)

/-- Both loops have ended, and no worker and no flush is left. -/
def AtRest (p : RouterPool) : Prop :=
  ∀ t ∈ p.tasks, (t.call.external = false → t.result?.isSome) ∧ ¬ Flushes t

/-- A submitter waits for a reply that is not there, on a channel whose sender is alive. -/
def Waits (p : RouterPool) (t : RouterTask) : Prop :=
  ∃ r, t.prog.head? = some (.awaitReply r) ∧ p.state.slot r = some .waiting

def Stranded (p : RouterPool) : Prop := AtRest p ∧ ∃ t ∈ p.tasks, Waits p t

theorem mem_batched {s : Inner} {q : Nat} (hq : q ∈ (Batches.batched s).map (·.reply)) :
    ∃ k, s.queue k ≠ [] := by
  obtain ⟨e, he, -⟩ := List.mem_map.mp hq
  rcases List.mem_append.mp he with he | he
  · rcases List.mem_append.mp he with he | he
    · exact ⟨_, List.ne_nil_of_mem he⟩
    · exact ⟨_, List.ne_nil_of_mem he⟩
  · exact ⟨_, List.ne_nil_of_mem he⟩

theorem batched_of_mem {s : Inner} {k : JobKind} {e : BatchEntry} (he : e ∈ s.queue k) :
    e ∈ Batches.batched s := by
  unfold Batches.batched
  cases k <;> simp [he]

theorem running_internal {i : Loop} {st : Stage} (h : running i st ≠ 0) :
    st.internal = true ∧ st.ended = false := by
  cases i <;> cases st <;> first | exact ⟨rfl, rfl⟩ | exact absurd rfl h

theorem ledger_start (cfg : RouterConfig) (i : Loop) : running i (monitor.init .cpuDispatchLoop) +
    running i (monitor.init (.batchFlusher 0)) + 0 = listening i (Inner.new cfg) := by
  cases i <;> rfl

section Runs

variable [F64Text] {cfg : RouterConfig} {p : RouterPool}

/-- What every run leaves of the two loops. -/
theorem loops (h : Reachable cfg p) : QueueGauge.ChannelFits p.state ∧
    (∀ i, p.tally monitor (running i) = listening i p.state) ∧ ∀ t ∈ p.tasks, t.Follows monitor := by
  obtain ⟨p0, as, hn, hr⟩ := h
  obtain ⟨hcap, -⟩ := Router.new_bounds hn
  have hfits : QueueGauge.ChannelFits (Inner.new cfg) := ⟨Nat.zero_le _, hcap, nofun, rfl⟩
  obtain ⟨⟨hgood, hb⟩, hf⟩ := ledger_run ledger hfits (ledger_start cfg) hn Machine.guarded_true hr
  exact ⟨hgood, fun i => hb i, hf⟩

theorem kept (h : Reachable cfg p) : ∀ t ∈ p.tasks, Kept t := by
  obtain ⟨p0, as, hn, hr⟩ := h
  have hg : machine.Guarded (fun _ _ => True) as p0 := Machine.guarded_true
  have hreach : machine.Always (Reachable cfg) as p0 :=
    Machine.always_of_run fun bs q hq => ⟨p0, bs, hn, hq⟩
  rw [Router.new_eq hn] at hr hreach
  refine hreach.tasks hr (fun t ht => ?_) kept_spawn ?_
  · rcases mem_startPool.mp ht with rfl | rfl <;> exact kept_spawn _
  · rintro q t e next env r s' new hq ht hp hx ⟨hinternal, hrecord⟩
    have ha : (t.view monitor).allows e := ((loops hq).2.2 t ht).allowed hp
    have hr : Replies.allows (t.view Replies.monitor) e :=
      ((Replies.owned_once hq).2 t ht).allowed hp
    refine ⟨?_, ?_⟩
    · rw [Task.view_advance, Task.advance_call, monitor_next, internal_next ha]
      exact hinternal
    · rw [Task.view_advance, Task.view_advance, Task.log_advance, Task.log_advance,
        Task.log_advance]
      exact hrecord.next ha hr r

/-- A reply that was waited for is there, or was given up. -/
theorem awaited_settled (h : Reachable cfg p) : ∀ q ∈ p.log awaited,
    Replies.settled p.state q = 1 := by
  obtain ⟨p0, as, hn, hr⟩ := h
  rw [Router.new_eq hn] at hr
  refine Machine.run_logged (Q := fun q s => Replies.settled s q = 1) ?_ hr
    (Batches.start_traces cfg)
  intro e env s r s' new hx
  have hx : e.exec env s = some (r, s', new) := hx
  refine ⟨fun q hq => ?_, fun q hs => ?_⟩
  · cases e with
    | awaitReply c =>
      obtain rfl := List.mem_singleton.mp hq
      obtain ⟨rfl, ⟨out, -, hslot⟩ | ⟨-, hslot⟩⟩ := Op.exec_awaitReply hx
      · simp [Replies.settled, hslot]
      · simp [Replies.settled, hslot]
    | _ => cases hq
  · have hle := Replies.settled_mono hx q
    have hone : Replies.settled s' q ≤ 1 := by
      unfold Replies.settled
      split <;> omega
    omega

/-- At rest no loop listens. -/
theorem AtRest.deaf (hrest : AtRest p) (h : Reachable cfg p) (i : Loop) :
    listening i p.state = 0 := by
  obtain ⟨-, hl, hf⟩ := loops h
  rw [← hl i]
  refine Pool.tally_eq_zero fun t ht => ?_
  by_contra hrun
  have hinternal := running_internal hrun
  have hexternal : t.call.external = false := by
    have hkept := (kept h t ht).internal
    rw [hinternal.1] at hkept
    simpa using hkept
  obtain ⟨a, ha⟩ := Option.isSome_iff_exists.mp ((hrest t ht).1 hexternal)
  have hend : (t.view monitor).ended = true := (hf t ht).finished ha
  rw [hinternal.2] at hend
  cases hend

/-- At rest no task has the sender that another one waits for. -/
theorem AtRest.empty_handed (hrest : AtRest p) (h : Reachable cfg p) {t : RouterTask}
    (ht : t ∈ p.tasks) {r : Nat} (hwait : t.prog.head? = some (.awaitReply r)) :
    Replies.inHand r p = 0 := by
  have hcustody := (loops h).2.2
  have hreplies := (Replies.owned_once h).2
  refine Pool.tally_eq_zero fun u hu => ?_
  obtain ⟨hinternal, hrecord⟩ := kept h u hu
  cases hend : u.result? with
  | some a =>
    have hnone : u.view Replies.monitor = noSender := (hreplies u hu).finished hend
    rw [hnone]
    rfl
  | none =>
    have hexternal : u.call.external = true := by
      by_contra hcall
      have hdone := (hrest u hu).1 (by simpa using hcall)
      rw [hend] at hdone
      cases hdone
    rw [hexternal] at hinternal
    cases hst : u.view monitor with
    | idle =>
      rw [hst] at hrecord
      rw [hrecord.1]
      rfl
    | made c =>
      rw [hst] at hrecord
      obtain ⟨hhand, hcreated, -⟩ := hrecord
      rw [hhand]
      by_contra hone
      have hrc : r = c := by
        by_contra hne
        exact hone (if_neg hne)
      -- the channel would be the waiting task's own, and it has made no other
      have hmade : r ∈ t.log Batches.created := by
        have hallowed := (hcustody t ht).allowed_head hwait
        have hrecord := (kept h t ht).record
        rcases hallowed with hst | hst <;> rw [hst] at hrecord
        · rw [hrecord.2.1]
          exact List.mem_singleton_self r
        · rw [hrecord.1]
          exact List.mem_singleton_self r
      have hsame := Pool.eq_of_mem_log (Batches.created_nodup h) ht hu hmade (by simp [hcreated, hrc])
      have hallowed := (hcustody t ht).allowed_head hwait
      rcases hallowed with hst' | hst' <;> (rw [hsame, hst] at hst'; cases hst')
    | pooled c =>
      rw [hst] at hrecord
      rw [hrecord.1]
      rfl
    | pushed c =>
      have hhead : u.prog.head? = some (.awaitReply c) := by
        by_contra hne
        exact (hrest u hu).2 ⟨c, hst, hne⟩
      exact (hreplies u hu).allowed_head hhead r
    | past =>
      rw [hst] at hrecord
      rw [hrecord.1]
      rfl
    | working => rw [hst] at hinternal; cases hinternal
    | dispatching => rw [hst] at hinternal; cases hinternal
    | sweeping => rw [hst] at hinternal; cases hinternal
    | left => rw [hst] at hinternal; cases hinternal

/-- The waiting channels of a router at rest are those of the entries in its batch queues. -/
theorem AtRest.queued_iff (hrest : AtRest p) (h : Reachable cfg p) (q : Nat) :
    q ∈ Replies.queued p.state ↔ q ∈ (Batches.batched p.state).map (·.reply) := by
  obtain ⟨hfits, -⟩ := loops h
  have hclosed : p.state.cpuRxOpen = false := by
    have hdeaf := hrest.deaf h .dispatcher
    cases ho : p.state.cpuRxOpen with
    | false => rfl
    | true =>
      rw [listening, ho] at hdeaf
      cases hdeaf
  rw [Replies.queued, hfits.closed_empty hclosed, List.map_nil, List.append_nil]
  rfl

/-- A submitter that waits at rest waits for an entry in a batch queue. -/
theorem AtRest.waits (hrest : AtRest p) (h : Reachable cfg p) {t : RouterTask} (ht : t ∈ p.tasks)
    (hw : Waits p t) : ∃ k, p.state.queue k ≠ [] := by
  obtain ⟨r, hhead, hslot⟩ := hw
  have hwaiting : Replies.waiting p.state r = 1 := if_pos hslot
  have hone := (Replies.owned_once h).1 r
  rw [hrest.empty_handed h ht hhead, hwaiting] at hone
  have hqueued : r ∈ Replies.queued p.state := List.count_pos_iff.mp (by omega)
  exact mem_batched ((hrest.queued_iff h r).mp hqueued)

/-- At rest an entry in a batch queue keeps its submitter waiting. -/
theorem AtRest.strands (hrest : AtRest p) (h : Reachable cfg p) {k : JobKind} {e : BatchEntry}
    (he : e ∈ p.state.queue k) : ∃ t ∈ p.tasks, Waits p t := by
  have hbatched := batched_of_mem he
  have hqueued := (hrest.queued_iff h e.reply).mpr (List.mem_map_of_mem hbatched)
  have hone := (Replies.owned_once h).1 e.reply
  have hcount := List.count_pos_iff.mpr hqueued
  have hslot : p.state.slot e.reply = some .waiting := by
    by_contra hne
    have hnot : Replies.waiting p.state e.reply = 0 := if_neg hne
    omega
  have hpushed : e ∈ p.log Batches.pushes :=
    (Batches.pushes_perm h).mem_iff.mpr (List.mem_append_left _ hbatched)
  obtain ⟨t, ht, hin⟩ := Pool.mem_log.mp hpushed
  obtain ⟨-, hrecord⟩ := kept h t ht
  have hnone : t.log Batches.pushes ≠ [] := List.ne_nil_of_mem hin
  refine ⟨t, ht, e.reply, ?_, hslot⟩
  cases hst : t.view monitor with
  | pushed r =>
    rw [hst] at hrecord
    rw [hrecord.2 e hin]
    by_contra hne
    exact (hrest t ht).2 ⟨r, hst, hne⟩
  | past =>
    -- a submitter that is past its wait has been answered
    rw [hst] at hrecord
    have hanswered := awaited_settled h e.reply (Pool.mem_log.mpr ⟨t, ht, hrecord.2 e hin⟩)
    rw [Replies.settled, hslot] at hanswered
    cases hanswered
  | idle => rw [hst] at hrecord; exact absurd hrecord.2.2 hnone
  | made r => rw [hst] at hrecord; exact absurd hrecord.2.2 hnone
  | pooled r => rw [hst] at hrecord; exact absurd hrecord.2.2 hnone
  | working => rw [hst] at hrecord; exact absurd hrecord hnone
  | dispatching => rw [hst] at hrecord; exact absurd hrecord hnone
  | sweeping => rw [hst] at hrecord; exact absurd hrecord hnone
  | left => rw [hst] at hrecord; exact absurd hrecord hnone

theorem stranded_iff (h : Reachable cfg p) :
    Stranded p ↔ AtRest p ∧ ∃ k, p.state.queue k ≠ [] := by
  constructor
  · rintro ⟨hrest, t, ht, hw⟩
    exact ⟨hrest, hrest.waits h ht hw⟩
  · rintro ⟨hrest, k, hk⟩
    obtain ⟨e, he⟩ := List.exists_mem_of_ne_nil _ hk
    exact ⟨hrest, hrest.strands h he⟩

end Runs

/-- The flusher hears of the shutdown only with nothing in the batch queues, and nothing is
pushed after it has left. -/
structure FlusherLast (a : RouterAction) (p : RouterPool) : Prop where
  leaves : ∀ i env, a = .step i env → env.shutdown = true → picked a p = some .sleepOrShutdown →
    ∀ k, p.state.queue k = []
  pushes : ∀ k e, picked a p = some (.pushBatch k e) → p.state.flusherSubscribed = true

def NothingLeft (p : RouterPool) : Prop := ∀ k, p.state.queue k = []

/-- Where the flusher has left after an operation, nothing was queued before it or pushed by it. -/
theorem nothing_pushed {e : Op} {env : Env} {s s' : Inner} {r : e.Resp} {new : List Call}
    (hx : e.exec env s = some (r, s', new)) (hgone : s'.flusherSubscribed = false)
    (hleaves : env.shutdown = true ∧ e = .sleepOrShutdown → ∀ k, s.queue k = [])
    (hbefore : s.flusherSubscribed = false → ∀ k, s.queue k = [])
    (hpush : ∀ k entry, e = .pushBatch k entry → s.flusherSubscribed = true) :
    (∀ k, s.queue k = []) ∧ ∀ k, Batches.pushed k e r = [] := by
  have hafter := Op.exec_flusherSubscribed hx
  rw [hgone] at hafter
  cases e with
  | sleepOrShutdown =>
    refine ⟨?_, fun _ => rfl⟩
    cases r with
    | false => exact hbefore hafter.symm
    | true =>
      refine hleaves ⟨?_, rfl⟩
      simp only [Op.exec] at hx
      split at hx
      · assumption
      · cases hx
  | pushBatch k entry =>
    have hthere := hpush k entry rfl
    have hgone : s.flusherSubscribed = false := hafter.symm
    rw [hthere] at hgone
    cases hgone
  | _ => exact ⟨hbefore hafter.symm, fun _ => rfl⟩

section Runs

variable [F64Text] {cfg : RouterConfig} {p0 : RouterPool} {as : List RouterAction}

/-- While the condition is met, a router without a flusher has nothing in its batch queues. -/
theorem flusher_last (hn : Router.new cfg = some p0) (hg : machine.Guarded FlusherLast as p0) :
    machine.Always (fun p => p.state.flusherSubscribed = false → NothingLeft p) as p0 := by
  have hstart : p0.state.flusherSubscribed = true := by
    rw [Router.new_eq hn]
    rfl
  refine hg.always (fun hgone => ?_) fun a q q' hq hlast hstep => ?_
  · rw [hstart] at hgone
    cases hgone
  · cases hstep with
    | start c s tasks hc => exact hq
    | step env pre post t e next r s s' new hp hx =>
      have hx : e.exec env s = some (r, s', new) := hx
      have hpicked : picked (.step pre.length env) ⟨s, pre ++ t :: post⟩ = some e :=
        picked_step (t := t) (by simp) (by rw [hp]; rfl)
      intro hgone
      have hleaves : env.shutdown = true ∧ e = .sleepOrShutdown → ∀ k, s.queue k = [] :=
        fun h => hlast.leaves _ env rfl h.1 (h.2 ▸ hpicked)
      obtain ⟨hnone, hpush⟩ := nothing_pushed hx hgone hleaves hq fun k entry he =>
        hlast.pushes k entry (he ▸ hpicked)
      intro k
      have hsplit := Batches.queue_exec hx k
      rw [hnone k, hpush k] at hsplit
      exact (List.append_eq_nil_iff.mp hsplit.symm).2

/-- No caller is stranded exactly if a router at rest never has an entry in a batch queue, as
is the case where the flusher is the last to leave them. -/
theorem none_stranded_iff (hn : Router.new cfg = some p0) :
    (machine.Always (fun p => ¬ Stranded p) as p0 ↔
      machine.Always (fun p => AtRest p → NothingLeft p) as p0) ∧
    (machine.Guarded FlusherLast as p0 → machine.Always (fun p => ¬ Stranded p) as p0) := by
  have hreach : machine.Always (Reachable cfg) as p0 :=
    Machine.always_of_run fun bs q hq => ⟨p0, bs, hn, hq⟩
  have hiff : ∀ p, Reachable cfg p → (¬ Stranded p ↔ (AtRest p → NothingLeft p)) := by
    intro p h
    rw [stranded_iff h]
    constructor
    · intro hnot hrest k
      by_contra hk
      exact hnot ⟨hrest, k, hk⟩
    · rintro hnone ⟨hrest, k, hk⟩
      exact hk (hnone hrest k)
  refine ⟨(hreach.imp hiff).congr, fun hg => ?_⟩
  refine (hreach.and (flusher_last hn hg)).imp fun p hp => (hiff p hp.1).mpr fun hrest => hp.2 ?_
  have hdeaf := hrest.deaf hp.1 .flusher
  cases hs : p.state.flusherSubscribed with
  | false => rfl
  | true =>
    rw [listening, hs] at hdeaf
    cases hdeaf

end Runs

def flushes (t : RouterTask) : Bool :=
  match t.view monitor, t.prog.head? with
  | .pushed r, some (.awaitReply r') => r != r'
  | .pushed _, _ => true
  | _, _ => false

def atRest (p : RouterPool) : Bool :=
  p.tasks.all fun t => (t.call.external || t.result?.isSome) && !flushes t

theorem flushes_sound (t : RouterTask) (h : flushes t = false) : ¬ Flushes t := by
  rintro ⟨r, hst, hne⟩
  rw [flushes, hst] at h
  cases hhead : t.prog.head? with
  | none =>
    rw [hhead] at h
    cases h
  | some e =>
    rw [hhead] at h
    cases e with
    | awaitReply r' =>
      have heq : r = r' := by simpa using h
      exact hne (heq ▸ hhead)
    | _ => cases h

theorem atRest_sound (p : RouterPool) (h : atRest p = true) : AtRest p := by
  intro t ht
  have hboth := List.all_eq_true.mp h t ht
  simp only [Bool.and_eq_true, Bool.or_eq_true, Bool.not_eq_true'] at hboth
  refine ⟨fun hinternal => ?_, flushes_sound t hboth.2⟩
  rw [hinternal] at hboth
  simpa using hboth.1

def nothingLeft (s : Inner) : Bool :=
  (s.queue .hashMix).isEmpty && (s.queue .primeCount).isEmpty && (s.queue .monteCarloRisk).isEmpty

def flusherLast (a : RouterAction) (p : RouterPool) : Bool :=
  match a, picked a p with
  | .step _ env, some .sleepOrShutdown => !env.shutdown || nothingLeft p.state
  | _, some (.pushBatch _ _) => p.state.flusherSubscribed
  | _, _ => true

theorem flusherLast_sound (a : RouterAction) (p : RouterPool) (h : flusherLast a p = true) :
    FlusherLast a p := by
  refine ⟨?_, fun k e hpicked => ?_⟩
  · rintro i env rfl hshut hpicked k
    simp only [flusherLast, hpicked, hshut, nothingLeft, Bool.not_true, Bool.false_or,
      Bool.and_eq_true, List.isEmpty_iff] at h
    cases k with
    | hashMix => exact h.1.1
    | primeCount => exact h.1.2
    | monteCarloRisk => exact h.2
  · cases a with
    | start c => cases hpicked
    | step i env =>
      simp only [flusherLast, hpicked] at h
      exact h

def batchJob : Job := { inputs := [1], computeCost := 100000, scalingPotential := 0.9 }

/-- A batched job that the flusher answers before it hears of the shutdown. -/
def flushedJob : List RouterAction :=
  .start (.submit batchJob) :: (turns 2 15 {} ++ turns 1 9 {} ++ turns 2 4 {} ++
    .start .shutdown :: (turns 4 1 {} ++ turns 0 2 { shutdown := true } ++
      turns 3 2 { shutdown := true }))

theorem none_stranded_flushed : ∃ p0, Router.new {} = some p0 ∧
    machine.Always (fun p => ¬ Stranded p) flushedJob p0 := by
  have hg : machine.Guarded FlusherLast flushedJob (startPool {}) :=
    Machine.guarded_of_check flusherLast_sound (by decide +kernel)
  have hn : Router.new {} = some (startPool {}) := rfl
  exact ⟨_, hn, (none_stranded_iff hn).2 hg⟩

/-- A batched job whose submitter waits while both loops hear of the shutdown. -/
def strandedJob : List RouterAction :=
  .start (.submit batchJob) :: .start .shutdown :: (turns 2 15 {} ++ turns 3 1 {} ++
    turns 0 2 { shutdown := true } ++ turns 1 2 { shutdown := true })

theorem submit_stranded : ∃ p, Reachable {} p ∧ Stranded p := by
  obtain ⟨p, hp, hd⟩ := exists_reachable {} strandedJob
    (fun p => atRest p && !(p.state.queue .hashMix).isEmpty) (by decide +kernel)
  rw [Bool.and_eq_true, Bool.not_eq_true'] at hd
  refine ⟨p, hp, (stranded_iff hp).mpr ⟨atRest_sound p hd.1, .hashMix, fun hnil => ?_⟩⟩
  rw [hnil] at hd
  cases hd.2

end HelixRouter.Custody
