import HelixRouter.Interleaving.History
import HelixRouter.Router.Replies

namespace HelixRouter.Batches

open Interleaving

/-- The entries a task puts into the queue of a kind. -/
def pushed (k : JobKind) : (e : Op) → e.Resp → List BatchEntry
  | .pushBatch k' entry, _ => if k' = k then [entry] else []
  | _, _ => []

/-- The entries a flush takes off the queue of a kind. -/
def taken (k : JobKind) : (e : Op) → e.Resp → List BatchEntry
  | .takeBatch k' _, some l => if k' = k then l else []
  | _, _ => []

def pushes : (e : Op) → e.Resp → List BatchEntry
  | .pushBatch _ entry, _ => [entry]
  | _, _ => []

def takes : (e : Op) → e.Resp → List BatchEntry
  | .takeBatch _ _, some l => l
  | _, _ => []

def created : (e : Op) → e.Resp → List Nat
  | .oneshot _, r => [r]
  | _, _ => []

def executed : (e : Op) → e.Resp → List Job
  | .execute job, _ => [job]
  | _, _ => []

def sent : (e : Op) → e.Resp → List (Nat × List Output)
  | .sendReply r out, _ => [(r, out)]
  | _, _ => []

/-- The answer of an entry: its own result on its own channel. -/
def answer (e : BatchEntry) : Nat × List Output := (e.reply, executeJob e.job)

/-- Where a task stands: a submitter with a fresh channel, with its entry pushed, or
past it; a flush with entries taken, counted, or executed and not yet answered. -/
inductive Stage where
  | idle
  | made (r : Nat)
  | pushed
  | past
  | working
  | took (k : JobKind) (l : List BatchEntry)
  | flushing (left : List BatchEntry)
  | answering (e : BatchEntry) (left : List BatchEntry)

def bySeq (l : List BatchEntry) : List BatchEntry := l.insertionSort (fun a b => a.seq ≤ b.seq)

theorem bySeq_perm (l : List BatchEntry) : (bySeq l).Perm l := List.perm_insertionSort _ l

def Stage.count : Stage → Stage
  | .took _ l => .flushing (bySeq l)
  | st => st

def Stage.execute : Stage → Stage
  | .flushing (e :: left) => .answering e left
  | _ => .past

def Stage.send : Stage → Stage
  | .answering _ left => .flushing left
  | st => st

def Stage.next (st : Stage) : (e : Op) → e.Resp → Stage
  | .oneshot _, r => .made r
  | .trySend _, _ | .dropSender _, _ => .past
  | .pushBatch _ _, _ => .pushed
  | .takeBatch k _, some l => .took k l
  | .bump (.batchFlushed _) _, _ => st.count
  | .execute _, _ => st.execute
  | .sendReply _ _, _ => st.send
  | _, _ => st

/-- A task pushes on its own channel, and a flush counts all it took, executes
its entries in order and answers each with its own result. -/
def Stage.allows (st : Stage) : Op → Prop
  | .oneshot _ => st = .idle
  | .trySend _ => ∃ r, st = .made r
  | .dropSender _ => st = .idle ∨ ∃ r, st = .made r
  | .pushBatch _ e => st = .made e.reply
  | .takeBatch _ _ => st = .idle ∨ st = .pushed
  | .bump (.batchFlushed k) n => ∃ l, st = .took k l ∧ n = l.length
  | .bump (.batchEnqueued _) _ => False
  | .execute job => st = .idle ∨ ∃ e left, st = .flushing (e :: left) ∧ job = e.job
  | .sendReply r out => st = .working ∨ ∃ e left, st = .answering e left ∧ (r, out) = answer e
  | _ => True

/-- The entries a flush still has to answer. -/
def Stage.left : Stage → List BatchEntry
  | .took _ l => l
  | .flushing left => left
  | .answering e left => e :: left
  | _ => []

/-- A task's stage with its history. -/
structure View where
  stage : Stage := .idle
  created : List Nat := []
  pushes : List BatchEntry := []
  takes : List BatchEntry := []
  executed : List Job := []
  sent : List (Nat × List Output) := []

def View.next (v : View) (e : Op) (r : e.Resp) : View where
  stage := v.stage.next e r
  created := v.created ++ Batches.created e r
  pushes := v.pushes ++ Batches.pushes e r
  takes := v.takes ++ Batches.takes e r
  executed := v.executed ++ Batches.executed e r
  sent := v.sent ++ Batches.sent e r

def computed : (e : Op) → e.Resp → Prop
  | .execute job, out => out = executeJob job
  | _, _ => True

def monitor : Monitor Op Op.Resp Call Answer View where
  init
    | .cpuWorker _ => { stage := .working }
    | _ => {}
  next := View.next
  allow v e := v.stage.allows e
  may _ e r := computed e r
  fin _ _ v := v.stage.left = []

@[simp] theorem monitor_next (v : View) (e : Op) (r : e.Resp) :
    monitor.next v e r = v.next e r := rfl

@[simp] theorem monitor_allow (v : View) (e : Op) :
    monitor.allow v e ↔ v.stage.allows e := Iff.rfl

@[simp] theorem monitor_may (v : View) (e : Op) (r : e.Resp) :
    monitor.may v e r ↔ computed e r := Iff.rfl

/-- The operations that move a task from stage to stage. -/
def moves : Op → Bool
  | .oneshot _ | .trySend _ | .dropSender _ | .pushBatch _ _ | .takeBatch _ _
  | .bump (.batchFlushed _) _ | .bump (.batchEnqueued _) _ | .execute _ | .sendReply _ _ => true
  | _ => false

theorem next_unmoved {e : Op} (h : moves e = false) (v : View) (r : e.Resp) : v.next e r = v := by
  cases e with
  | bump c n =>
    cases c <;> first
      | (cases h; done)
      | simp [View.next, Stage.next, created, pushes, takes, executed, sent]
  | _ =>
    first
      | (cases h; done)
      | simp [View.next, Stage.next, created, pushes, takes, executed, sent]

theorem quiet {e : Op} (h : moves e = false) (v : View) : monitor.Quiet v e := by
  refine ⟨?_, fun r _ => next_unmoved h v r⟩
  cases e with
  | bump c n => cases c <;> trivial
  | _ => trivial

theorem quiet_wp {A : Type} {p : RouterM A} (h : p.All (fun e => moves e = false))
    {post : A → View → Prop} {v : View} (hp : ∀ a, post a v) : p.wp monitor post v :=
  h.wp (fun _ he => quiet he v) hp

theorem unmoved {e : Op} (h : e.Within [.routine, .config, .permit, .signal]) :
    moves e = false := by
  cases e with
  | bump c n => cases c <;> simp_all [Op.Within, Op.area, moves]
  | _ => simp_all [Op.Within, Op.area, moves]

theorem unmoved_wp {A : Type} {areas : List Area} {p : RouterM A} (h : p.All (Op.Within areas))
    (hq : areas ⊆ [.routine, .config, .permit, .signal]) {post : A → View → Prop} {v : View}
    (hp : ∀ a, post a v) : p.wp monitor post v := quiet_wp (h.imp fun _ he => unmoved (he.mono hq)) hp

/-- Entries are executed in order, each answered before the next. -/
theorem flushEntries_wp (batch : List BatchEntry) {v : View} (hv : v.stage = .flushing batch)
    {post : Unit → View → Prop} (hp : ∀ v', v'.stage = .flushing [] → post () v') :
    (flushEntries batch).wp monitor post v := by
  induction batch generalizing v with
  | nil => exact hp v hv
  | cons e left ih =>
    refine ⟨Or.inr ⟨e, left, hv, rfl⟩, fun out hout => ⟨?_, fun _ _ => ih ?_⟩⟩
    · refine Or.inr ⟨e, left, ?_, ?_⟩
      · change v.stage.execute = _
        rw [hv]
        rfl
      · exact congrArg _ hout
    · change v.stage.execute.send = _
      rw [hv]
      rfl

theorem flushBatchKind_wp (kind : JobKind) {v : View} (hv : v.stage = .idle ∨ v.stage = .pushed)
    {post : Unit → View → Prop} (hp : ∀ v', v'.stage.left = [] → post () v') :
    (flushBatchKind kind).wp monitor post v := by
  have hstart : v.stage.left = [] := by rcases hv with hv | hv <;> (rw [hv]; rfl)
  refine Prog.wp_quiet (quiet rfl v) fun cfg => Prog.wp_quiet (quiet rfl v) fun found => ?_
  cases found with
  | false => exact hp v hstart
  | true =>
    refine ⟨hv, fun taken _ => ?_⟩
    cases taken with
    | none => exact hp _ hstart
    | some l =>
      refine ⟨⟨l, rfl, (bySeq_perm l).length_eq⟩, fun _ _ => ?_⟩
      exact flushEntries_wp (bySeq l) rfl fun v' hv' => hp v' (by rw [hv']; rfl)

/-- Nothing is left to answer. -/
def Clear {A : Type} (_ : A) (v : View) : Prop := v.stage.left = []

theorem batchReply_wp (job : Job) (r : Nat) {v : View} (hv : v.stage.left = []) :
    (batchReply job r).wp monitor Clear v := by
  have hall : (batchReply job r).All (fun e => moves e = false) := by
    refine ⟨rfl, ?_⟩
    rintro (_ | out)
    · exact ⟨rfl, fun _ => trivial⟩
    · exact (submitCompleted_all job out).imp fun _ he => unmoved (he.mono (by simp))
  exact quiet_wp hall fun _ => hv

theorem submitBatch_wp (job : Job) (cfg : RouterConfig) :
    (submitBatch job cfg).wp monitor Clear {} := by
  refine Prog.wp_quiet (quiet rfl _) fun _ => Prog.wp_quiet (quiet rfl _) fun _ => ?_
  refine ⟨rfl, fun r _ => Prog.wp_quiet (quiet rfl _) fun seq => ?_⟩
  refine Prog.wp_quiet (quiet rfl _) fun found => ?_
  cases found with
  | false =>
    exact Prog.wp_quiet (quiet rfl _) fun _ => ⟨Or.inr ⟨r, rfl⟩, fun _ _ => rfl⟩
  | true =>
    refine ⟨rfl, fun len _ => ?_⟩
    simp only [Prog.ret_bind]
    split
    · exact (Prog.wp_bind _ _ _ _).mpr
        (flushBatchKind_wp _ (Or.inr rfl) fun v' hv' => batchReply_wp job r hv')
    · exact batchReply_wp job r rfl

theorem submitCpuPool_wp (job : Job) (frac : Option ℚ) :
    (submitCpuPool job frac).wp monitor Clear {} := by
  refine Prog.wp_quiet (quiet rfl _) fun _ => Prog.wp_quiet (quiet rfl _) fun _ => ?_
  refine ⟨rfl, fun r _ => ⟨⟨r, rfl⟩, fun accepted _ => ?_⟩⟩
  refine quiet_wp ?_ fun _ => rfl
  cases accepted with
  | false => exact ⟨rfl, fun _ => ⟨rfl, fun _ => trivial⟩⟩
  | true =>
    refine ⟨rfl, fun _ => ⟨rfl, ?_⟩⟩
    rintro (_ | out)
    · exact ⟨rfl, fun _ => ⟨rfl, fun _ => trivial⟩⟩
    · exact (submitCompleted_all job out).imp fun _ he => unmoved (he.mono (by simp))

theorem submitFree_wp (job : Job) : (submitFree job).wp monitor Clear {} :=
  Prog.wp_quiet (quiet rfl _) fun _ => ⟨Or.inl rfl, fun _ _ =>
    Prog.wp_quiet (quiet rfl _) fun _ => rfl⟩

theorem submitInline_wp [F64Text] (job : Job) (frac : Option ℚ) :
    (submitInline job frac).wp monitor Clear {} := by
  refine Prog.wp_quiet (quiet rfl _) fun _ => Prog.wp_quiet (quiet rfl _) fun _ => ?_
  refine ⟨Or.inl rfl, fun out _ => quiet_wp ?_ fun _ => rfl⟩
  refine ⟨rfl, fun env => ⟨rfl, fun _ => ⟨rfl, fun _ => ?_⟩⟩⟩
  exact ((checkSlaViolation_within _ _).imp fun _ he => unmoved (he.mono (by simp))).bind
    fun _ => ⟨rfl, fun _ => trivial⟩

theorem cpuWorker_wp (w : CpuWork) : (cpuWorker w).wp monitor Clear { stage := .working } := by
  have hsend : ∀ out, ((Op.sendReply w.reply out).run >>= fun _ => Op.release.run).wp monitor
      Clear { stage := .working } :=
    fun _ => ⟨Or.inl rfl, fun _ _ => ⟨trivial, fun _ _ => rfl⟩⟩
  refine Prog.wp_quiet (quiet rfl _) fun cancelled => Prog.wp_quiet (quiet rfl _) ?_
  rintro (_ | out)
  · exact Prog.wp_quiet (quiet rfl _) fun _ => hsend []
  · exact hsend out

theorem cpuDispatchLoop_wp : cpuDispatchLoop.wp monitor Clear {} := by
  refine Prog.wp_quiet (quiet rfl _) ?_
  rintro (_ | w)
  · exact ⟨trivial, fun _ _ => rfl⟩
  · refine Prog.wp_quiet (quiet rfl _) ?_
    rintro (_ | _)
    · exact ⟨Or.inl rfl, fun _ _ => ⟨trivial, fun _ _ => rfl⟩⟩
    · exact Prog.wp_quiet (quiet rfl _) fun _ => Prog.wp_quiet (quiet rfl _) fun _ =>
        ⟨trivial, fun _ _ => rfl⟩

theorem batchFlusher_wp (idx : Fin 3) : (batchFlusher idx).wp monitor Clear {} := by
  refine Prog.wp_quiet (quiet rfl _) fun _ => Prog.wp_quiet (quiet rfl _) ?_
  rintro (_ | _)
  · refine (Prog.wp_bind _ _ _ _).mpr (flushBatchKind_wp _ (Or.inl rfl) fun v hv => ?_)
    exact ⟨trivial, fun _ _ => (congrArg Stage.left
      (congrArg View.stage (next_unmoved rfl v _))).trans hv⟩
  · rfl

/-- Every task ends with nothing left to answer. -/
theorem body_wp [F64Text] (c : Call) :
    (callBody c).wp monitor (monitor.fin c) (monitor.init c) := by
  cases c with
  | submit job =>
    exact (Prog.wp_bind _ _ _ _).mpr (submit_wp (fun _ he => quiet (unmoved (by simp [Op.Within, he])) _)
      (fun _ => rfl) (submitFree_wp job) (submitInline_wp job) (submitCpuPool_wp job)
      (submitBatch_wp job))
  | run hint => exact unmoved_wp (run_all hint) (by simp) fun _ => rfl
  | cpuDispatchLoop => exact (Prog.wp_bind _ _ _ _).mpr cpuDispatchLoop_wp
  | cpuWorker w => exact (Prog.wp_bind _ _ _ _).mpr (cpuWorker_wp w)
  | batchFlusher idx => exact (Prog.wp_bind _ _ _ _).mpr (batchFlusher_wp idx)
  | _ =>
    exact unmoved_wp ((callBody_all _ rfl).imp fun _ => Op.within_of_configures) (by simp)
      fun _ => rfl

/-- A flush has answered some of the entries it took, in order, and the last one it
executed may still wait for its answer. -/
structure Flushing (took : List BatchEntry) (ran : List Job) (replied : List (Nat × List Output))
    (left : List BatchEntry) (n : Nat) : Prop where
  pending : n ≤ 1
  split : ∃ done, took.Perm (done ++ left) ∧ replied = done.map answer ∧
    ran = (done ++ left.take n).map (·.job)

def View.Flushing (v : View) : List BatchEntry → Nat → Prop :=
  Batches.Flushing v.takes v.executed v.sent

/-- A task creates one channel at most and pushes on no other. -/
def OwnChannel (v : View) : Prop := (v.pushes.map (·.reply)).Sublist v.created

def StageHistory (v : View) : Prop :=
  match v.stage with
  | .idle => v = {}
  | .made r => v = { stage := .made r, created := [r] }
  | .pushed => v.takes = [] ∧ v.executed = [] ∧ v.sent = []
  | .past => v.pushes = [] ∧ v.takes = []
  | .working => v.pushes = [] ∧ v.takes = []
  | .took _ l => v.Flushing l 0
  | .flushing left => v.Flushing left 0
  | .answering e left => v.Flushing (e :: left) 1

def Recorded (v : View) : Prop := OwnChannel v ∧ StageHistory v

theorem recorded_init (c : Call) : Recorded (monitor.init c) := by
  cases c <;> exact ⟨List.Sublist.refl _, by simp [StageHistory, monitor]⟩

section Flushes

variable {took : List BatchEntry} {ran : List Job} {replied : List (Nat × List Output)}
  {e : BatchEntry} {left : List BatchEntry}

theorem Flushing.sorted (h : Flushing took ran replied left 0) :
    Flushing took ran replied (bySeq left) 0 := by
  obtain ⟨done, hp, hsent, hexec⟩ := h.split
  refine ⟨Nat.zero_le 1, done, ?_, hsent, by simpa using hexec⟩
  exact hp.trans (List.Perm.append_left done (bySeq_perm left).symm)

theorem Flushing.executes (h : Flushing took ran replied (e :: left) 0) :
    Flushing took (ran ++ [e.job]) replied (e :: left) 1 := by
  obtain ⟨done, hp, hsent, hexec⟩ := h.split
  exact ⟨Nat.le_refl 1, done, hp, hsent, by simpa using hexec⟩

theorem Flushing.answers (h : Flushing took ran replied (e :: left) 1) :
    Flushing took ran (replied ++ [answer e]) left 0 := by
  obtain ⟨done, hp, hsent, hexec⟩ := h.split
  exact ⟨Nat.zero_le 1, done ++ [e], by simpa using hp, by simp [hsent], by simpa using hexec⟩

end Flushes

section Records

attribute [local simp] View.next Stage.next created pushes takes executed sent

theorem ownChannel_of_pushes {v v' : View} (h : OwnChannel v) (hp : v'.pushes = v.pushes)
    (hc : v'.created = v.created) : OwnChannel v' := by
  unfold OwnChannel
  rw [hp, hc]
  exact h

/-- What one allowed operation makes of the record. -/
theorem recorded_next (v : View) (e : Op) (r : e.Resp) (h : Recorded v)
    (ha : v.stage.allows e) : Recorded (v.next e r) := by
  obtain ⟨hown, hst⟩ := h
  cases e with
  | oneshot job =>
    have hidle : v.stage = .idle := ha
    simp only [StageHistory, hidle] at hst
    subst hst
    exact ⟨by simp [OwnChannel], by simp [StageHistory]⟩
  | trySend w =>
    obtain ⟨c, hmade⟩ := ha
    simp only [StageHistory, hmade] at hst
    rw [hst]
    exact ⟨by simp [OwnChannel], by simp [StageHistory]⟩
  | dropSender c =>
    rcases ha with hidle | ⟨c, hmade⟩
    · simp only [StageHistory, hidle] at hst
      rw [hst]
      exact ⟨by simp [OwnChannel], by simp [StageHistory]⟩
    · simp only [StageHistory, hmade] at hst
      rw [hst]
      exact ⟨by simp [OwnChannel], by simp [StageHistory]⟩
  | pushBatch k entry =>
    have hmade : v.stage = .made entry.reply := ha
    simp only [StageHistory, hmade] at hst
    rw [hst]
    exact ⟨by simp [OwnChannel], by simp [StageHistory]⟩
  | takeBatch k m =>
    cases r with
    | none =>
      have hsame : v.next (.takeBatch k m) none = v := by simp
      rw [hsame]
      exact ⟨hown, hst⟩
    | some l =>
      refine ⟨ownChannel_of_pushes hown (by simp) (by simp), ?_⟩
      rcases ha with hidle | hpushed
      · simp only [StageHistory, hidle] at hst
        subst hst
        exact ⟨Nat.zero_le 1, [], by simp⟩
      · simp only [StageHistory, hpushed] at hst
        exact ⟨Nat.zero_le 1, [], by simp [hst]⟩
  | bump c n =>
    cases c with
    | batchFlushed k =>
      refine ⟨ownChannel_of_pushes hown (by simp) (by simp), ?_⟩
      obtain ⟨l, htook, -⟩ := ha
      simp only [StageHistory, htook] at hst
      simp only [StageHistory, View.next, Stage.next, htook, Stage.count]
      simpa [View.Flushing] using hst.sorted
    | batchEnqueued k => exact ha.elim
    | _ =>
      rw [next_unmoved rfl]
      exact ⟨hown, hst⟩
  | execute job =>
    refine ⟨ownChannel_of_pushes hown (by simp) (by simp), ?_⟩
    rcases ha with hidle | ⟨e, left, hflush, rfl⟩
    · simp only [StageHistory, hidle] at hst
      subst hst
      simp [StageHistory, Stage.execute]
    · simp only [StageHistory, hflush] at hst
      simp only [StageHistory, View.next, Stage.next, hflush, Stage.execute]
      simpa [View.Flushing] using hst.executes
  | sendReply c out =>
    refine ⟨ownChannel_of_pushes hown (by simp) (by simp), ?_⟩
    rcases ha with hworking | ⟨e, left, hanswering, hout⟩
    · simp only [StageHistory, hworking] at hst
      simpa [StageHistory, hworking, Stage.send] using hst
    · simp only [StageHistory, hanswering] at hst
      simp only [StageHistory, View.next, Stage.next, hanswering, Stage.send]
      simpa [View.Flushing, hout] using hst.answers
  | _ =>
    rw [next_unmoved rfl]
    exact ⟨hown, hst⟩

end Records

/-- What a flush has taken off a kind's queue and not counted. -/
def Stage.uncounted (k : JobKind) : Stage → Nat
  | .took k' l => if k' = k then l.length else 0
  | _ => 0

theorem uncounted_unmoved {e : Op} (h : moves e = false) (v : View) (r : e.Resp) (k : JobKind) :
    (v.next e r).stage.uncounted k + e.adds (.batchFlushed k) =
      v.stage.uncounted k + (taken k e r).length := by
  rw [next_unmoved h]
  cases e with
  | bump c n => cases c <;> simp_all [moves, taken, Op.adds]
  | _ => simp_all [moves, taken, Op.adds]

/-- Between two stages with nothing uncounted. -/
theorem uncounted_counted {v : View} {e : Op} {r : e.Resp} {k : JobKind} (st : Stage)
    (hv : v.stage.uncounted k = 0) (hn : v.stage.next e r = st) (hst : st.uncounted k = 0)
    (ht : taken k e r = []) (ha : e.adds (.batchFlushed k) = 0) :
    (v.next e r).stage.uncounted k + e.adds (.batchFlushed k) =
      v.stage.uncounted k + (taken k e r).length := by
  simp [View.next, hn, hv, hst, ht, ha]

/-- A flush owes its counter exactly what it has taken and not counted. -/
theorem uncounted_next (v : View) (e : Op) (r : e.Resp) (k : JobKind) (ha : v.stage.allows e) :
    (v.next e r).stage.uncounted k + e.adds (.batchFlushed k) =
      v.stage.uncounted k + (taken k e r).length := by
  cases e with
  | oneshot job =>
    have hidle : v.stage = .idle := ha
    exact uncounted_counted _ (by rw [hidle]; rfl) rfl rfl rfl rfl
  | trySend w =>
    obtain ⟨c, hmade⟩ := ha
    exact uncounted_counted _ (by rw [hmade]; rfl) rfl rfl rfl rfl
  | dropSender c =>
    have h0 : v.stage.uncounted k = 0 := by
      rcases ha with hidle | ⟨c, hmade⟩ <;> simp_all [Stage.uncounted]
    exact uncounted_counted _ h0 rfl rfl rfl rfl
  | pushBatch k' entry =>
    have hmade : v.stage = .made entry.reply := ha
    exact uncounted_counted _ (by rw [hmade]; rfl) rfl rfl rfl (by simp [Op.adds])
  | takeBatch k' m =>
    have h0 : v.stage.uncounted k = 0 := by
      rcases ha with hidle | hpushed <;> simp_all [Stage.uncounted]
    cases r with
    | none => exact uncounted_counted _ h0 rfl h0 rfl rfl
    | some l =>
      rw [h0]
      change Stage.uncounted k (.took k' l) + 0 = 0 + (if k' = k then l else []).length
      rcases eq_or_ne k' k with rfl | hk
      · simp [Stage.uncounted]
      · simp [Stage.uncounted, hk]
  | bump c n =>
    cases c with
    | batchFlushed k' =>
      obtain ⟨l, htook, rfl⟩ := ha
      simp only [View.next, Stage.next, htook, Stage.count, Stage.uncounted, taken, Op.adds]
      rcases eq_or_ne k' k with rfl | hk
      · simp
      · simp [hk, hk.symm]
    | batchEnqueued k' => exact ha.elim
    | _ => exact uncounted_unmoved rfl v r k
  | execute job =>
    rcases ha with hidle | ⟨e, left, hflush, rfl⟩
    · exact uncounted_counted .past (by rw [hidle]; rfl)
        (by simp [Stage.next, hidle, Stage.execute]) rfl rfl rfl
    · exact uncounted_counted (.answering e left) (by rw [hflush]; rfl)
        (by simp [Stage.next, hflush, Stage.execute]) rfl rfl rfl
  | sendReply c out =>
    rcases ha with hworking | ⟨e, left, hanswering, hout⟩
    · exact uncounted_counted .working (by rw [hworking]; rfl)
        (by simp [Stage.next, hworking, Stage.send]) rfl rfl rfl
    · exact uncounted_counted (.flushing left) (by rw [hanswering]; rfl)
        (by simp [Stage.next, hanswering, Stage.send]) rfl rfl rfl
  | _ => exact uncounted_unmoved rfl v r k

/-- What an operation does to the queue of a kind. -/
theorem queue_exec {e : Op} {env : Env} {s s' : Inner} {r : e.Resp} {new : List Call}
    (hx : e.exec env s = some (r, s', new)) (k : JobKind) :
    s.queue k ++ pushed k e r = taken k e r ++ s'.queue k := by
  have hupdate : ∀ (k' : JobKind) (q : List BatchEntry),
      s'.batches = Function.update s.batches k' (some q) →
      s'.queue k = if k' = k then q else s.queue k := by
    intro k' q h
    rcases eq_or_ne k' k with rfl | hk
    · simp [Inner.queue, h]
    · simp [Inner.queue, h, hk, hk.symm]
  cases e with
  | pushBatch k' entry =>
    have hq := hupdate k' (s.queue k' ++ [entry]) (by cases hx; rfl)
    rw [hq]
    rcases eq_or_ne k' k with rfl | hk
    · simp [pushed, taken]
    · simp [pushed, taken, hk]
  | takeBatch k' m =>
    rcases Op.exec_takeBatch hx with ⟨rfl, rfl, -⟩ | ⟨rfl, hs⟩
    · simp [pushed, taken]
    · rw [hupdate k' ((s.queue k').drop m) (by rw [hs])]
      rcases eq_or_ne k' k with rfl | hk
      · simp [pushed, taken]
      · simp [pushed, taken, hk]
  | _ =>
    have hb : s'.batches = s.batches := Op.exec_batches hx
    simp [pushed, taken, Inner.queue, hb]

theorem enqueued_pushed {v : View} {e : Op} (ha : v.stage.allows e) (r : e.Resp) (k : JobKind) :
    e.adds (.batchEnqueued k) = (pushed k e r).length := by
  cases e with
  | bump c n =>
    cases c with
    | batchEnqueued k' => exact ha.elim
    | _ => simp [pushed, Op.adds]
  | pushBatch k' entry =>
    rcases eq_or_ne k' k with rfl | hk
    · simp [pushed, Op.adds]
    · simp [pushed, Op.adds, hk, hk.symm]
  | _ => simp [pushed, Op.adds]

theorem computed_exec {e : Op} {env : Env} {s s' : Inner} {r : e.Resp} {new : List Call}
    (hx : e.exec env s = some (r, s', new)) : computed e r := by
  cases e <;> first | trivial | (cases hx; rfl)

/-- Every entry ever pushed is counted as flushed, queued, or taken and not yet counted. -/
theorem ledger [F64Text] : machine.Ledger monitor (fun _ _ => True) (fun _ => True)
    (fun k v => v.stage.uncounted k)
    (fun k s => (s.queue k).length + s.counters (.batchFlushed k))
    (fun k s => s.counters (.batchEnqueued k)) where
  body := body_wp
  start c p _ _ k := by cases c <;> rfl
  step i env p t e r s' new ht hx _ _ _ _ ha _ := by
    have hx : e.exec env p.state = some (r, s', new) := hx
    refine ⟨computed_exec hx, trivial, fun k => ?_⟩
    have hfresh : (new.map (fun c => (monitor.init c).stage.uncounted k)).sum = 0 :=
      List.sum_eq_zero fun n hn => by
        obtain ⟨c, -, rfl⟩ := List.mem_map.mp hn
        cases c <;> rfl
    have hheld := uncounted_next (t.view monitor) e r k ha
    have hqueue := congrArg List.length (queue_exec hx k)
    have hpushed := enqueued_pushed ha r k
    simp only [List.length_append] at hqueue
    rw [hfresh, Op.exec_counters hx, Op.exec_counters hx, monitor_next]
    omega

/-- The entries of a kind taken by flushes that have not bumped the counter. -/
def uncounted (k : JobKind) (p : RouterPool) : Nat :=
  p.tally monitor (fun v => v.stage.uncounted k)

/-- What every run leaves: balanced counters, and tasks with a history to show. -/
theorem recorded [F64Text] {cfg : RouterConfig} {p : RouterPool} (h : Reachable cfg p) :
    (∀ k, p.state.counters (.batchEnqueued k) = p.state.counters (.batchFlushed k) +
      (p.state.queue k).length + uncounted k p) ∧
      (∀ t ∈ p.tasks, Recorded (t.view monitor)) ∧ ∀ t ∈ p.tasks, t.Follows monitor := by
  obtain ⟨p0, as, hn, hr⟩ := h
  have hinv := ledger.invariant.withViews recorded_init fun v e r hv ha _ => recorded_next v e r hv ha
  rw [Router.new_eq hn] at hr
  have h0 : Machine.Balanced monitor (fun _ => True) (fun k v => v.stage.uncounted k)
      (fun k s => (s.queue k).length + s.counters (.batchFlushed k))
      (fun k s => s.counters (.batchEnqueued k)) (startPool cfg) :=
    start_balanced trivial fun k => by simp [monitor, Stage.uncounted, Inner.new, Inner.queue]
  obtain ⟨⟨⟨-, hb⟩, hrec⟩, hf⟩ := hinv.run Machine.guarded_true hr (start_follows body_wp cfg)
    ⟨h0, fun t ht => by rcases mem_startPool.mp ht with rfl | rfl <;> exact recorded_init _⟩
  refine ⟨fun k => ?_, hrec, hf⟩
  have hk : uncounted k p + ((p.state.queue k).length + p.state.counters (.batchFlushed k)) =
      p.state.counters (.batchEnqueued k) := hb k
  omega

theorem start_traces [F64Text] (cfg : RouterConfig) : ∀ t ∈ (startPool cfg).tasks, t.trace = [] := by
  intro t ht
  rcases mem_startPool.mp ht with rfl | rfl <;> rfl

/-- No entry is lost or made up: what was pushed is queued or was taken. -/
theorem pushed_perm [F64Text] {cfg : RouterConfig} {p : RouterPool} (h : Reachable cfg p)
    (k : JobKind) : (p.log (pushed k)).Perm (p.state.queue k ++ p.log (taken k)) := by
  obtain ⟨p0, as, hn, hr⟩ := h
  rw [Router.new_eq hn] at hr
  refine Machine.run_conserved (fun s => s.queue k) _ _ ?_ hr (start_traces cfg)
  intro e env s r s' new x hx
  have hq := congrArg (List.count x) (queue_exec hx k)
  simp only [List.count_append] at hq
  omega

theorem length_dropAll (works : List CpuWork) (replies : List Channel) :
    (works.foldl (fun rs w => rs.modify w.reply Channel.senderDropped) replies).length =
      replies.length := by
  induction works generalizing replies with
  | nil => rfl
  | cons w works ih => rw [List.foldl_cons, ih, List.length_modify]

/-- An operation that makes a channel makes the next one. -/
theorem created_exec {e : Op} {env : Env} {s s' : Inner} {r : e.Resp} {new : List Call}
    (hx : e.exec env s = some (r, s', new)) :
    List.range s'.replies.length = List.range s.replies.length ++ created e r := by
  cases e <;> simp only [Op.exec] at hx
  all_goals repeat' split at hx
  all_goals first | contradiction | cases hx
  all_goals
    simp [created, Inner.close, Inner.channel, Inner.add, Inner.logged, List.range_succ,
      length_dropAll]

/-- No channel is made twice. -/
theorem created_nodup [F64Text] {cfg : RouterConfig} {p : RouterPool} (h : Reachable cfg p) :
    (p.log created).Nodup := by
  obtain ⟨p0, as, hn, hr⟩ := h
  rw [Router.new_eq hn] at hr
  exact Machine.run_numbered (fun s => s.replies.length) (fun _ _ _ _ _ _ hx => created_exec hx) hr
    (start_traces cfg)

section Histories

variable (t : RouterTask)

theorem view_created : (t.view monitor).created = t.log created := by
  have h := t.view_log monitor View.created created fun _ _ _ => rfl
  rwa [show (monitor.init t.call).created = [] by cases t.call <;> rfl, List.nil_append] at h

theorem view_pushes : (t.view monitor).pushes = t.log pushes := by
  have h := t.view_log monitor View.pushes pushes fun _ _ _ => rfl
  rwa [show (monitor.init t.call).pushes = [] by cases t.call <;> rfl, List.nil_append] at h

theorem view_takes : (t.view monitor).takes = t.log takes := by
  have h := t.view_log monitor View.takes takes fun _ _ _ => rfl
  rwa [show (monitor.init t.call).takes = [] by cases t.call <;> rfl, List.nil_append] at h

theorem view_executed : (t.view monitor).executed = t.log executed := by
  have h := t.view_log monitor View.executed executed fun _ _ _ => rfl
  rwa [show (monitor.init t.call).executed = [] by cases t.call <;> rfl, List.nil_append] at h

theorem view_sent : (t.view monitor).sent = t.log sent := by
  have h := t.view_log monitor View.sent sent fun _ _ _ => rfl
  rwa [show (monitor.init t.call).sent = [] by cases t.call <;> rfl, List.nil_append] at h

end Histories

/-- No two entries share a reply channel. -/
theorem own_channels [F64Text] {cfg : RouterConfig} {p : RouterPool} (h : Reachable cfg p) :
    ((p.log pushes).map (·.reply)).Nodup := by
  refine List.nodup_iff_count_le_one.mpr fun q => ?_
  have hle := Pool.count_map_log_le (p := p) (f := pushes) (g := created) (k := (·.reply))
    (fun t ht => by
      have hown := ((recorded h).2.1 t ht).1
      rwa [OwnChannel, view_pushes, view_created] at hown) q
  exact hle.trans (List.nodup_iff_count_le_one.mp (created_nodup h) q)

/-- A task that took entries has answered a part of them and holds the rest. -/
theorem Recorded.flushing {v : View} (h : Recorded v) (ht : v.takes ≠ []) :
    ∃ n, v.Flushing v.stage.left n := by
  obtain ⟨-, hst⟩ := h
  rw [StageHistory] at hst
  cases hs : v.stage <;> rw [hs] at hst
  case idle => exact absurd (by rw [hst]) ht
  case made => exact absurd (by rw [hst]) ht
  case pushed => exact absurd hst.1 ht
  case past => exact absurd hst.2 ht
  case working => exact absurd hst.2 ht
  case took => exact ⟨0, hst⟩
  case flushing => exact ⟨0, hst⟩
  case answering => exact ⟨1, hst⟩

/-- A flush executes what it took and answers it, all of it when it ends. -/
theorem flushes [F64Text] {cfg : RouterConfig} {p : RouterPool} (h : Reachable cfg p)
    {t : RouterTask} (ht : t ∈ p.tasks) (htook : t.log takes ≠ []) :
    ∃ left n, Flushing (t.log takes) (t.log executed) (t.log sent) left n ∧
      (t.result?.isSome → left = []) := by
  obtain ⟨-, hrec, hf⟩ := recorded h
  rw [← view_takes] at htook
  obtain ⟨n, hflush⟩ := (hrec t ht).flushing htook
  refine ⟨(t.view monitor).stage.left, n, ?_, fun hend => ?_⟩
  · rwa [View.Flushing, view_takes, view_executed, view_sent] at hflush
  · obtain ⟨a, ha⟩ := Option.isSome_iff_exists.mp hend
    exact (hf t ht).finished ha

/-- Only a waiting channel is answered, and it waits no longer. -/
theorem sent_settles {e : Op} {env : Env} {s s' : Inner} {r : e.Resp} {new : List Call} {q : Nat}
    (hx : e.exec env s = some (r, s', new)) (hw : Replies.releases e q ≤ Replies.waiting s q) :
    Replies.settled s q + ((sent e r).map Prod.fst).count q ≤ Replies.settled s' q := by
  have hmono := Replies.settled_mono hx q
  cases e with
  | sendReply c out =>
    rcases eq_or_ne q c with rfl | hq
    · have hwait : s.slot q = some .waiting := by
        by_contra hn
        simp [Replies.releases, Replies.single, Replies.waiting, hn] at hw
      have hslot : s'.slot q = some (.ready out) := by
        cases hx
        rw [Replies.slot_channel s q (g := fun _ => .ready out) fun _ => rfl]
        simp [hwait]
      simp [Replies.settled, hwait, hslot, sent]
    · simpa [sent, hq.symm] using hmono
  | _ => simpa [sent] using hmono

/-- No channel is answered twice. -/
theorem answered_once [F64Text] {cfg : RouterConfig} {p : RouterPool} (h : Reachable cfg p) :
    ((p.log sent).map Prod.fst).Nodup := by
  obtain ⟨p0, as, hn, hr⟩ := h
  rw [Router.new_eq hn] at hr
  rw [Pool.map_log]
  refine List.nodup_iff_count_le_one.mpr fun q => ?_
  have hg : machine.Guarded (fun _ _ => True) as (startPool cfg) := Machine.guarded_true
  have hj := Replies.ledger.invariant.always_follows hg
    (start_follows Replies.body_wp cfg) (start_balanced trivial fun q => by
      simp [Replies.monitor, Replies.queued, Inner.queue, Inner.new, Replies.waiting, Inner.slot])
  refine (Machine.run_bounded (fun s => Replies.settled s q) ?_ hj hr
    (start_traces cfg)).trans ?_
  · rintro p t e env r s' new ⟨⟨-, hb⟩, hf⟩ ht hh hx
    refine sent_settles hx ?_
    have hle := Replies.held_le_inHand ht q
    have hq : Replies.inHand q p + (Replies.queued p.state).count q =
        Replies.waiting p.state q := hb q
    have ha := Replies.releases_le ((hf t ht).allowed_head hh) q
    omega
  · unfold Replies.settled
    split <;> omega

/-- The entries in the batch queues. -/
def batched (s : Inner) : List BatchEntry :=
  s.queue .hashMix ++ s.queue .primeCount ++ s.queue .monteCarloRisk

/-- What an operation does to the batch queues together. -/
theorem batched_exec {e : Op} {env : Env} {s s' : Inner} {r : e.Resp} {new : List Call}
    (hx : e.exec env s = some (r, s', new)) (x : BatchEntry) :
    (batched s).count x + (pushes e r).count x = (batched s').count x + (takes e r).count x := by
  have hpush : (pushes e r).count x = (pushed .hashMix e r).count x +
      (pushed .primeCount e r).count x + (pushed .monteCarloRisk e r).count x := by
    cases e with
    | pushBatch k entry => cases k <;> simp [pushes, pushed]
    | _ => rfl
  have htake : (takes e r).count x = (taken .hashMix e r).count x +
      (taken .primeCount e r).count x + (taken .monteCarloRisk e r).count x := by
    cases e with
    | takeBatch k m => cases r <;> cases k <;> simp [takes, taken]
    | _ => rfl
  have hq := fun k => congrArg (List.count x) (queue_exec hx k)
  have h1 := hq .hashMix
  have h2 := hq .primeCount
  have h3 := hq .monteCarloRisk
  simp only [batched, List.count_append] at h1 h2 h3 ⊢
  omega

theorem pushes_perm [F64Text] {cfg : RouterConfig} {p : RouterPool} (h : Reachable cfg p) :
    (p.log pushes).Perm (batched p.state ++ p.log takes) := by
  obtain ⟨p0, as, hn, hr⟩ := h
  rw [Router.new_eq hn] at hr
  exact Machine.run_conserved batched _ _ (fun _ _ _ _ _ _ x hx => batched_exec hx x) hr
    (start_traces cfg)

/-- Batch conservation. What flushes hold uncounted closes the gap between the counters;
an entry is in one place or was taken once; a task that took entries executes each
once and answers it with its own result on its own channel, and no channel is
answered twice. -/
structure Conserved (p : RouterPool) : Prop where
  counted : ∀ k, p.state.counters (.batchEnqueued k) =
    p.state.counters (.batchFlushed k) + (p.state.queue k).length + uncounted k p
  kept : ∀ k, (p.log (pushed k)).Perm (p.state.queue k ++ p.log (taken k))
  once : ∀ e ∈ p.log pushes, (batched p.state).count e + (p.log takes).count e = 1
  own : ((p.log pushes).map (·.reply)).Nodup
  flushed : ∀ t ∈ p.tasks, t.log takes ≠ [] → ∃ left n,
    Flushing (t.log takes) (t.log executed) (t.log sent) left n ∧ (t.result?.isSome → left = [])
  answered : ((p.log sent).map Prod.fst).Nodup

theorem batch_conserved [F64Text] {cfg : RouterConfig} {p : RouterPool} (h : Reachable cfg p) :
    Conserved p where
  counted := (recorded h).1
  kept := pushed_perm h
  once e he := by
    have hnodup := (pushes_perm h).nodup_iff.mp (own_channels h).of_map
    have hmem := (pushes_perm h).mem_iff.mp he
    rw [← List.count_append]
    exact List.count_eq_one_of_mem hnodup hmem
  own := own_channels h
  flushed _ ht htook := flushes h ht htook
  answered := answered_once h

/-- Two batched jobs of which the second flushes both, and a third one that comes in
while the first is answered. -/
def flushUnderway : List RouterAction :=
  .start (.submit { computeCost := 1 }) :: .start (.submit { computeCost := 2 }) ::
    .start (.submit { computeCost := 3 }) :: (turns 2 15 { neural := some .batch } ++
      turns 3 18 { neural := some .batch } ++ turns 4 15 { neural := some .batch } ++ turns 3 3 {})

theorem batch_conserved_underway : ∃ p, Reachable { batchMaxSize := 2 } p ∧ Conserved p ∧
    (p.log pushes).length = 3 ∧ (p.log takes).length = 2 ∧ (p.log sent).length = 1 := by
  obtain ⟨p, hp, hd⟩ := exists_reachable { batchMaxSize := 2 } flushUnderway
    (fun p => (p.log pushes).length == 3 && (p.log takes).length == 2 &&
      (p.log sent).length == 1) (by decide +kernel)
  simp only [Bool.and_eq_true, beq_iff_eq] at hd
  exact ⟨p, hp, batch_conserved hp, hd.1.1, hd.1.2, hd.2⟩

end HelixRouter.Batches
