import HelixRouter.Router.Batches

namespace HelixRouter.BatchOrder

open Interleaving Batches

/-- The numbers drawn for entries. -/
def drawn : (e : Op) → e.Resp → List Nat
  | .nextSeq, n => [n]
  | _, _ => []

/-- The number a submitter has drawn and not used. -/
def handNext (hand : Option Nat) : (e : Op) → e.Resp → Option Nat
  | .nextSeq, n => some n
  | .pushBatch _ _, _ => none
  | _, _ => hand

/-- An entry is pushed under the number that was drawn for it. -/
def handAllows (hand : Option Nat) : Op → Prop
  | .pushBatch _ e => hand = some e.seq
  | _ => True

def monitor : Monitor Op Op.Resp Call Answer (Option Nat) where
  init _ := none
  next := handNext
  allow := handAllows
  may _ _ _ := True
  fin _ _ _ := True

def numbers : Op → Bool
  | .nextSeq | .pushBatch _ _ => true
  | _ => false

theorem quiet {e : Op} (h : numbers e = false) (hand : Option Nat) : monitor.Quiet hand e := by
  cases e with
  | nextSeq => nomatch h
  | pushBatch k e => nomatch h
  | _ => exact ⟨trivial, fun _ _ => rfl⟩

theorem quiet_wp {A : Type} {p : RouterM A} (h : p.All (fun e => numbers e = false))
    {post : A → Option Nat → Prop} {hand : Option Nat} (hp : ∀ a, post a hand) :
    p.wp monitor post hand := h.wp (fun _ he => quiet he hand) hp

theorem numbers_of_within {areas : List Area} {e : Op} (h : e.Within areas)
    (hb : .batch ∉ areas) : numbers e = false := by
  cases e with
  | nextSeq => exact absurd h hb
  | pushBatch k e => exact absurd h hb
  | _ => rfl

theorem within_wp {A : Type} {areas : List Area} {p : RouterM A} (h : p.All (Op.Within areas))
    (hb : .batch ∉ areas) {post : A → Option Nat → Prop} {hand : Option Nat}
    (hp : ∀ a, post a hand) : p.wp monitor post hand :=
  quiet_wp (h.imp fun _ he => numbers_of_within he hb) hp

theorem flushBatchKind_all (kind : JobKind) :
    (flushBatchKind kind).All (fun e => numbers e = false) := by
  unfold flushBatchKind
  refine Prog.All.bind (by simp [numbers]) fun cfg => ?_
  refine Prog.All.bind (by simp [numbers]) fun found => ?_
  split
  · refine Prog.All.bind (by simp [numbers]) fun taken => ?_
    split
    · trivial
    · exact Prog.All.bind (by simp [numbers]) fun _ =>
        flushEntries_all (fun _ => rfl) (fun _ _ => rfl) _
  · trivial

theorem submitBatch_wp (job : Job) (cfg : RouterConfig) :
    (submitBatch job cfg).wp monitor (fun _ _ => True) none := by
  refine Prog.wp_quiet (quiet rfl _) fun _ => Prog.wp_quiet (quiet rfl _) fun _ => ?_
  refine Prog.wp_quiet (quiet rfl _) fun r => ⟨trivial, fun seq _ => ?_⟩
  refine Prog.wp_quiet (quiet rfl _) fun found => ?_
  cases found with
  | false => exact quiet_wp (by simp [numbers]) fun _ => trivial
  | true =>
    refine ⟨rfl, fun len _ => ?_⟩
    have hreply : (batchReply job r).All (fun e => numbers e = false) :=
      (batchReply_all job r).imp fun _ he => numbers_of_within he (by simp)
    simp only [Prog.ret_bind]
    split
    · exact quiet_wp ((flushBatchKind_all _).bind fun _ => hreply) fun _ => trivial
    · exact quiet_wp hreply fun _ => trivial

theorem body_wp [F64Text] (c : Call) :
    (callBody c).wp monitor (monitor.fin c) (monitor.init c) := by
  have hroutine : ∀ e : Op, e.area = .routine → numbers e = false := by
    intro e he
    have hin : e.Within [.routine] := by simp [Op.Within, he]
    exact numbers_of_within hin (by simp)
  cases c with
  | submit job =>
    exact (Prog.wp_bind _ _ _ _).mpr (submit_wp (fun e he => quiet (hroutine e he) _)
      (fun _ => trivial)
      (within_wp (submitFree_all job) (by simp) fun _ => trivial)
      (fun frac => within_wp (submitInline_all job frac) (by simp) fun _ => trivial)
      (fun frac => within_wp (submitCpuPool_all job frac) (by simp) fun _ => trivial)
      (submitBatch_wp job))
  | run hint => exact within_wp (run_all hint) (by simp) fun _ => trivial
  | cpuDispatchLoop =>
    have hall : cpuDispatchLoop.All (fun e => numbers e = false) := by
      simp only [cpuDispatchLoop]
      refine ⟨rfl, ?_⟩
      rintro (_ | w)
      · exact ⟨rfl, fun _ => trivial⟩
      · refine ⟨rfl, ?_⟩
        rintro (_ | _)
        · exact ⟨rfl, fun _ => ⟨rfl, fun _ => trivial⟩⟩
        · exact ⟨rfl, fun _ => ⟨rfl, fun _ => ⟨rfl, fun _ => trivial⟩⟩⟩
    exact (Prog.wp_bind _ _ _ _).mpr (quiet_wp hall fun _ => trivial)
  | cpuWorker w =>
    exact (Prog.wp_bind _ _ _ _).mpr (within_wp (cpuWorker_all w) (by simp) fun _ => trivial)
  | batchFlusher idx =>
    have hall : (batchFlusher idx).All (fun e => numbers e = false) := by
      refine ⟨rfl, fun _ => ⟨rfl, ?_⟩⟩
      rintro (_ | _)
      · exact (flushBatchKind_all _).bind fun _ => ⟨rfl, fun _ => trivial⟩
      · trivial
    exact (Prog.wp_bind _ _ _ _).mpr (quiet_wp hall fun _ => trivial)
  | _ =>
    exact within_wp ((callBody_all _ rfl).imp fun _ => Op.within_of_configures) (by simp)
      fun _ => trivial

theorem invariant [F64Text] : machine.Invariant monitor (fun _ _ => True) (fun _ => True) where
  body := body_wp
  start _ _ _ _ _ _ := trivial
  step _ _ _ _ _ _ _ _ _ _ _ _ _ _ _ _ := ⟨trivial, trivial⟩

/-- The numbers of the pushed entries and the one in hand were drawn one after another. -/
def Numbered (t : RouterTask) : Prop :=
  ((t.log pushes).map (·.seq) ++ (t.view monitor).toList).Sublist (t.log drawn)

theorem numbered_advance {t : RouterTask} {e : Op} {next : e.Resp → RouterM Answer} (r : e.Resp)
    (h : Numbered t) (ha : handAllows (t.view monitor) e) : Numbered (t.advance e r (next r)) := by
  unfold Numbered at h ⊢
  rw [Task.log_advance, Task.log_advance, Task.view_advance, List.map_append]
  cases e with
  | nextSeq =>
    have hpushes := (List.sublist_append_left _ _).trans h
    simpa [pushes, drawn, monitor, handNext] using hpushes
  | pushBatch k entry =>
    rw [show t.view monitor = some entry.seq from ha] at h
    simpa [pushes, drawn, monitor, handNext] using h
  | _ => simpa [pushes, drawn, monitor, handNext] using h

theorem drawn_exec {e : Op} {env : Env} {s s' : Inner} {r : e.Resp} {new : List Call}
    (hx : e.exec env s = some (r, s', new)) :
    List.range s'.batchSeq = List.range s.batchSeq ++ drawn e r := by
  cases e <;> simp only [Op.exec] at hx
  all_goals repeat' split at hx
  all_goals first | contradiction | cases hx
  all_goals
    simp [drawn, Inner.close, Inner.channel, Inner.add, Inner.logged, List.range_succ]

/-- No number is drawn twice. -/
theorem drawn_nodup [F64Text] {cfg : RouterConfig} {p : RouterPool} (h : Reachable cfg p) :
    (p.log drawn).Nodup := by
  obtain ⟨p0, as, hn, hr⟩ := h
  rw [Router.new_eq hn] at hr
  exact Machine.run_numbered Inner.batchSeq (fun _ _ _ _ _ _ hx => drawn_exec hx) hr
    (start_traces cfg)

/-- No two entries share a number. -/
theorem numbers_nodup [F64Text] {cfg : RouterConfig} {p : RouterPool} (h : Reachable cfg p)
    (k : JobKind) : ((p.log (pushed k)).map (·.seq)).Nodup := by
  obtain ⟨p0, as, hn, hr⟩ := h
  have hnodup := drawn_nodup ⟨p0, as, hn, hr⟩
  rw [Router.new_eq hn] at hr
  have hg : machine.Guarded (fun _ _ => True) as (startPool cfg) := Machine.guarded_true
  have hall := invariant.always_follows hg (start_follows body_wp cfg) trivial
  have hnumbered : ∀ t ∈ p.tasks, Numbered t := by
    refine hall.tasks hr ?_ (fun c => List.Sublist.refl _) ?_
    · intro t ht
      rcases mem_startPool.mp ht with rfl | rfl
      · exact List.Sublist.refl _
      · exact List.Sublist.refl _
    · intro q t e next env r s' new hq ht hp _ hv
      exact numbered_advance r hv ((hq.2 t ht).allowed hp)
  have hsub : ∀ e r, (pushed k e r).Sublist (pushes e r) := by
    intro e r
    cases e with
    | pushBatch k' entry =>
      by_cases hk : k' = k
      · simp [pushed, pushes, hk]
      · simp [pushed, hk]
    | _ => exact List.Sublist.refl _
  refine List.nodup_iff_count_le_one.mpr fun n => ?_
  have hle := Pool.count_map_log_le (p := p) (f := pushed k) (g := drawn) (k := (·.seq))
    (fun t ht => (((Task.log_sublist hsub t).map _).trans
      (List.sublist_append_left _ _)).trans (hnumbered t ht)) n
  exact hle.trans (List.nodup_iff_count_le_one.mp hnodup n)

section Order

variable {k : JobKind}

/-- The slice a flush answers, in the order it answers it. -/
def slice (k : JobKind) (e : Op) (r : e.Resp) : List BatchEntry := bySeq (taken k e r)

/-- An entry is pushed before any later one has been taken, and a flush leaves only later
ones than it takes. -/
def InOrder (k : JobKind) (a : RouterAction) (p : RouterPool) : Prop :=
  match picked a p with
  | some (.pushBatch k' entry) => k' = k → ∀ y ∈ p.log (taken k), y.seq < entry.seq
  | some (.takeBatch k' n) => k' = k → ∀ y ∈ (p.state.queue k).take n,
      ∀ x ∈ (p.state.queue k).drop n, y.seq < x.seq
  | _ => True

instance (a : RouterAction) (p : RouterPool) : Decidable (InOrder k a p) := by
  unfold InOrder
  split <;> infer_instance

/-- The condition, in terms of what the step pushes, takes and leaves. -/
theorem inOrder_iff {i : Nat} {env : Env} {p : RouterPool} {t : RouterTask} {e : Op} {r : e.Resp}
    {s' : Inner} {new : List Call} (ht : p.tasks[i]? = some t) (hh : t.prog.head? = some e)
    (hx : e.exec env p.state = some (r, s', new)) : InOrder k (.step i env) p ↔
      (∀ x ∈ pushed k e r, ∀ y ∈ p.log (taken k), y.seq < x.seq) ∧
        ∀ y ∈ taken k e r, ∀ x ∈ s'.queue k, y.seq < x.seq := by
  unfold InOrder
  rw [picked_step ht hh]
  cases e with
  | pushBatch k' entry =>
    by_cases hk : k' = k
    · simp [pushed, taken, hk]
    · simp [pushed, taken, hk]
  | takeBatch k' n =>
    have hqueue := queue_exec hx k
    rcases Op.exec_takeBatch hx with ⟨rfl, rfl, hnil⟩ | ⟨rfl, -⟩
    · by_cases hk : k' = k
      · subst hk
        simp [pushed, taken, hnil]
      · simp [pushed, taken, hk]
    · by_cases hk : k' = k
      · subst hk
        simp only [pushed, taken, if_true, List.append_nil] at hqueue ⊢
        have hdrop : (p.state.queue k').drop n = s'.queue k' := by
          have := List.take_append_drop n (p.state.queue k')
          exact List.append_cancel_left (this.trans hqueue)
        simp [hdrop]
      · simp [pushed, taken, hk]
  | _ => simp [pushed, taken]

theorem mem_slice {e : Op} {r : e.Resp} {x : BatchEntry} :
    x ∈ slice k e r ↔ x ∈ taken k e r := (bySeq_perm _).mem_iff

theorem slice_pairwise {e : Op} {r : e.Resp} (h : ((taken k e r).map (·.seq)).Nodup) :
    (slice k e r).Pairwise fun x y => x.seq < y.seq := by
  have hle : (slice k e r).Pairwise fun x y => x.seq ≤ y.seq := List.pairwise_insertionSort _ _
  have hne : (slice k e r).Pairwise fun x y => x.seq ≠ y.seq :=
    List.pairwise_map.mp (((bySeq_perm _).map _).nodup_iff.mpr h)
  exact (hle.and hne).imp fun hxy => Nat.lt_of_le_of_ne hxy.1 hxy.2

theorem taken_sublist {e : Op} {env : Env} {s s' : Inner} {r : e.Resp} {new : List Call}
    (hx : e.exec env s = some (r, s', new)) : (taken k e r).Sublist (s.queue k) := by
  cases e with
  | takeBatch k' n =>
    rcases Op.exec_takeBatch hx with ⟨rfl, -, -⟩ | ⟨rfl, -⟩
    · exact List.nil_sublist _
    · by_cases hk : k' = k
      · subst hk
        simpa [taken] using List.take_sublist n _
      · simp [taken, hk]
  | _ => exact List.nil_sublist _

variable [F64Text]

/-- The entries that the flushes of a kind take, one flush after another. -/
def takenInOrder (k : JobKind) (as : List RouterAction) (p : RouterPool) : List BatchEntry :=
  machine.events (slice k) as p

/-- First in, first out. -/
def Fifo (k : JobKind) (as : List RouterAction) (p : RouterPool) : Prop :=
  (takenInOrder k as p).Pairwise fun x y => x.seq < y.seq

theorem queue_nodup {cfg : RouterConfig} {p0 : RouterPool} (hn : Router.new cfg = some p0)
    (as : List RouterAction) (k : JobKind) :
    machine.Always (fun p => ((p.state.queue k).map (·.seq)).Nodup) as p0 := by
  apply Machine.always_of_run
  intro bs q hr
  have h : Reachable cfg q := ⟨p0, bs, hn, hr⟩
  have hperm := (pushed_perm h k).map (·.seq)
  have hnodup := hperm.nodup_iff.mp (numbers_nodup h k)
  rw [List.map_append] at hnodup
  exact hnodup.of_append_left

/-- Where every step keeps the order, what is taken from now on is in order, and comes after
what was taken before. -/
theorem fifo_of_inOrder {as : List RouterAction} {p : RouterPool}
    (hd : machine.Always (fun p => ((p.state.queue k).map (·.seq)).Nodup) as p)
    (hg : machine.Guarded (InOrder k) as p)
    (hq : ∀ y ∈ p.log (taken k), ∀ x ∈ p.state.queue k, y.seq < x.seq) :
    Fifo k as p ∧ ∀ y ∈ p.log (taken k), ∀ x ∈ takenInOrder k as p, y.seq < x.seq := by
  induction as generalizing p with
  | nil => exact ⟨List.Pairwise.nil, fun _ _ _ hx => nomatch hx⟩
  | cons a as ih =>
    cases hstep : machine.step a p with
    | none =>
      rw [Fifo, takenInOrder, Machine.events_cons_stuck hstep]
      exact ⟨List.Pairwise.nil, fun _ _ _ hx => nomatch hx⟩
    | some q =>
      cases Machine.step_notes hstep with
      | nothing hn hstate hlog =>
        rw [Fifo, takenInOrder, Machine.events_cons_nothing hstep hn, ← hlog]
        apply ih (hd.2 q hstep) (hg.2 q hstep)
        rw [hlog, hstate]
        exact hq
      | operation i env t e r new ha ht hh hx ho hlog =>
        subst ha
        obtain ⟨hpush, htake⟩ := (inOrder_iff ht hh hx).mp hg.1
        have hqueue := queue_exec hx k
        have hbefore : ∀ y ∈ p.log (taken k), ∀ x ∈ taken k e r ++ q.state.queue k,
            y.seq < x.seq := by
          intro y hy x hmem
          rw [← hqueue] at hmem
          rcases List.mem_append.mp hmem with hmem | hmem
          · exact hq y hy x hmem
          · exact hpush x hmem y hy
        obtain ⟨hrest, hafter⟩ := ih (hd.2 q hstep) (hg.2 q hstep) (by
          intro y hy x hmem
          rcases (hlog _ y).mp hy with hy | hy
          · exact hbefore y hy x (List.mem_append_right _ hmem)
          · exact htake y hy x hmem)
        have hslice := slice_pairwise (((taken_sublist hx).map _).nodup hd.1)
        rw [Fifo, takenInOrder, Machine.events_cons_operation hstep ho]
        refine ⟨List.pairwise_append.mpr ⟨hslice, hrest, ?_⟩, ?_⟩
        · intro y hy x hmem
          exact hafter y ((hlog _ y).mpr (Or.inr (mem_slice.mp hy))) x hmem
        · intro y hy x hmem
          rcases List.mem_append.mp hmem with hmem | hmem
          · exact hbefore y hy x (List.mem_append_left _ (mem_slice.mp hmem))
          · exact hafter y ((hlog _ y).mpr (Or.inl hy)) x hmem

/-- What is in a queue that is empty in the end was taken in between. -/
theorem mem_takenInOrder {as : List RouterAction} {p p' : RouterPool}
    (hr : machine.run as p = some p') (hempty : p'.state.queue k = []) {x : BatchEntry}
    (hx : x ∈ p.state.queue k) : x ∈ takenInOrder k as p := by
  induction as generalizing p with
  | nil =>
    cases hr
    rw [hempty] at hx
    nomatch hx
  | cons a as ih =>
    obtain ⟨q, hstep, hr⟩ := Option.bind_eq_some_iff.mp hr
    cases Machine.step_notes hstep with
    | nothing hn hstate hlog =>
      rw [takenInOrder, Machine.events_cons_nothing hstep hn]
      exact ih hr (hstate ▸ hx)
    | operation i env t e r new ha ht hh hexec ho hlog =>
      rw [takenInOrder, Machine.events_cons_operation hstep ho]
      have hmem : x ∈ taken k e r ++ q.state.queue k := by
        rw [← queue_exec hexec k]
        exact List.mem_append_left _ hx
      rcases List.mem_append.mp hmem with hmem | hmem
      · exact List.mem_append_left _ (mem_slice.mpr hmem)
      · exact List.mem_append_right _ (ih hr hmem)

/-- A run that leaves nothing in the queue was in order only if all its steps were. -/
theorem inOrder_of_fifo {as : List RouterAction} {p p' : RouterPool}
    (hr : machine.run as p = some p') (hempty : p'.state.queue k = []) (hf : Fifo k as p)
    (hafter : ∀ y ∈ p.log (taken k), ∀ x ∈ takenInOrder k as p, y.seq < x.seq) :
    machine.Guarded (InOrder k) as p := by
  induction as generalizing p with
  | nil => trivial
  | cons a as ih =>
    obtain ⟨q, hstep, hrun⟩ := Option.bind_eq_some_iff.mp hr
    cases Machine.step_notes hstep with
    | nothing hn hstate hlog hstart =>
      obtain ⟨c, rfl⟩ := hstart
      rw [Fifo, takenInOrder, Machine.events_cons_nothing hstep hn] at hf
      rw [takenInOrder, Machine.events_cons_nothing hstep hn, ← hlog] at hafter
      refine ⟨trivial, fun q' hq' => ?_⟩
      cases hstep.symm.trans hq'
      exact ih hrun hf hafter
    | operation i env t e r new ha ht hh hx ho hlog =>
      subst ha
      rw [Fifo, takenInOrder, Machine.events_cons_operation hstep ho] at hf
      rw [takenInOrder, Machine.events_cons_operation hstep ho] at hafter
      obtain ⟨-, hrest, hcross⟩ := List.pairwise_append.mp hf
      have hlater : ∀ x ∈ taken k e r ++ q.state.queue k,
          x ∈ slice k e r ++ takenInOrder k as q := by
        intro x hmem
        rcases List.mem_append.mp hmem with hmem | hmem
        · exact List.mem_append_left _ (mem_slice.mpr hmem)
        · exact List.mem_append_right _ (mem_takenInOrder hrun hempty hmem)
      refine ⟨(inOrder_iff ht hh hx).mpr ⟨fun x hmem y hy => ?_, fun y hy x hmem => ?_⟩,
        fun q' hq' => ?_⟩
      · apply hafter y hy
        apply hlater
        rw [← queue_exec hx k]
        exact List.mem_append_right _ hmem
      · exact hcross y (mem_slice.mpr hy) x (mem_takenInOrder hrun hempty hmem)
      · cases hstep.symm.trans hq'
        apply ih hrun hrest
        intro y hy x hmem
        rcases (hlog _ y).mp hy with hy | hy
        · exact hafter y hy x (List.mem_append_right _ hmem)
        · exact hcross y (mem_slice.mpr hy) x hmem

/-- In every run from a new router, the flushes of a kind take the entries in order if every
step keeps the order, and in a run that leaves none in the queue only then. -/
theorem batch_fifo {cfg : RouterConfig} {p0 p : RouterPool} {as : List RouterAction}
    (hn : Router.new cfg = some p0) (hr : machine.run as p0 = some p) (k : JobKind) :
    (machine.Guarded (InOrder k) as p0 → Fifo k as p0) ∧
      (p.state.queue k = [] → Fifo k as p0 → machine.Guarded (InOrder k) as p0) := by
  have hnone : p0.log (taken k) = [] := by
    rw [Router.new_eq hn]
    exact Pool.log_fresh (start_traces cfg)
  constructor
  · intro hg
    refine (fifo_of_inOrder (queue_nodup hn as k) hg ?_).1
    rw [hnone]
    exact fun _ h => nomatch h
  · intro hempty hf
    refine inOrder_of_fifo hr hempty hf ?_
    rw [hnone]
    exact fun _ h => nomatch h

end Order

/-- Four batched jobs. The first one pauses after some turns, and goes on after the third. -/
def fourJobs (first : Nat) : List RouterAction :=
  .start (.submit { computeCost := 1 }) :: .start (.submit { computeCost := 2 }) ::
    .start (.submit { computeCost := 3 }) :: .start (.submit { computeCost := 4 }) ::
      (turns 2 first { neural := some .batch } ++ turns 3 15 { neural := some .batch } ++
        turns 4 18 { neural := some .batch } ++ turns 2 (15 - first) { neural := some .batch } ++
          turns 5 18 { neural := some .batch })

theorem batch_fifo_fourJobs : ∃ p0, Router.new { batchMaxSize := 2 } = some p0 ∧
    Fifo .hashMix (fourJobs 15) p0 ∧ machine.Guarded (InOrder .hashMix) (fourJobs 15) p0 := by
  obtain ⟨p0, p, hn, hr, hp⟩ := exists_run { batchMaxSize := 2 } (fourJobs 15)
    (fun p => (p.state.queue .hashMix).isEmpty) (by decide +kernel)
  obtain ⟨hfifo, hguarded⟩ := batch_fifo hn hr .hashMix
  have hg : machine.Guarded (InOrder .hashMix) (fourJobs 15) p0 := by
    rw [Router.new_eq hn]
    exact Machine.guarded_of_check (fun _ _ h => of_decide_eq_true h) (by decide +kernel)
  exact ⟨p0, hn, hfifo hg, hguarded (List.isEmpty_iff.mp hp) (hfifo hg)⟩

/-- The job that drew its number first is taken after the two that came in since. -/
theorem overtaken : ∃ p0, Router.new { batchMaxSize := 2 } = some p0 ∧
    (takenInOrder .hashMix (fourJobs 13) p0).map (·.seq) = [1, 2, 0, 3] ∧
      ¬ Fifo .hashMix (fourJobs 13) p0 := by
  obtain ⟨p0, -, hn, -, -⟩ := exists_run { batchMaxSize := 2 } (fourJobs 13) (fun _ => true)
    (by decide +kernel)
  have hseq : (takenInOrder .hashMix (fourJobs 13) p0).map (·.seq) = [1, 2, 0, 3] := by
    rw [Router.new_eq hn]
    decide +kernel
  refine ⟨p0, hn, hseq, fun hf => ?_⟩
  have hpair := List.pairwise_map.mpr hf
  rw [hseq] at hpair
  simp at hpair

end HelixRouter.BatchOrder
