import HelixRouter.Router.Batches
import Mathlib.Data.Set.Basic

namespace HelixRouter.Transparency

open Interleaving

/-- A channel carries nothing but the answer to its job, and its submitter gives up only
what waits no longer. -/
structure Honest (c : Channel) : Prop where
  ready : ∀ out, c.slot = .ready out → out = executeJob c.job
  cancelled : c.cancelled = true → c.slot ≠ .waiting

/-- The channel was made for the job. -/
def Made (s : Inner) (x : Nat × Job) : Prop := (s.replies.map (·.job))[x.1]? = some x.2

/-- The job an operation makes a channel for. -/
def madeFor : Op → List Job
  | .oneshot job => [job]
  | _ => []

theorem map_job_modify {f : Channel → Channel} (hf : ∀ c, (f c).job = c.job) (r : Nat)
    (replies : List Channel) : (replies.modify r f).map (·.job) = replies.map (·.job) := by
  apply List.ext_getElem?
  intro i
  rw [List.getElem?_map, List.getElem?_map, List.getElem?_modify]
  cases replies[i]? with
  | none => rfl
  | some c => by_cases h : r = i <;> simp [h, hf]

theorem senderDropped_job (c : Channel) : c.senderDropped.job = c.job := by
  unfold Channel.senderDropped
  split <;> rfl

theorem map_job_dropAll (works : List CpuWork) (replies : List Channel) :
    (works.foldl (fun rs w => rs.modify w.reply Channel.senderDropped) replies).map (·.job) =
      replies.map (·.job) := by
  induction works generalizing replies with
  | nil => rfl
  | cons w works ih => rw [List.foldl_cons, ih, map_job_modify senderDropped_job]

theorem honest_senderDropped {c : Channel} (h : Honest c) : Honest c.senderDropped := by
  unfold Channel.senderDropped
  split
  · exact ⟨(fun _ hr => nomatch hr), fun _ hw => nomatch hw⟩
  · exact h

theorem honest_modify {f : Channel → Channel} {r : Nat} {replies : List Channel}
    (h : ∀ c ∈ replies, Honest c) (hf : ∀ c, replies[r]? = some c → Honest (f c)) :
    ∀ c ∈ replies.modify r f, Honest c := by
  intro c hc
  obtain ⟨i, hi⟩ := List.mem_iff_getElem?.mp hc
  rw [List.getElem?_modify] at hi
  cases hold : replies[i]? with
  | none => simp [hold] at hi
  | some old =>
    by_cases hr : r = i
    · subst hr
      simp only [hold, if_true] at hi
      cases hi
      exact hf old hold
    · simp only [hold, hr, if_false] at hi
      cases hi
      exact h old (List.mem_of_getElem? hold)

theorem honest_dropAll (works : List CpuWork) {replies : List Channel}
    (h : ∀ c ∈ replies, Honest c) :
    ∀ c ∈ works.foldl (fun rs w => rs.modify w.reply Channel.senderDropped) replies, Honest c := by
  induction works generalizing replies with
  | nil => exact h
  | cons w works ih =>
    rw [List.foldl_cons]
    apply ih
    exact honest_modify h fun c hc => honest_senderDropped (h c (List.mem_of_getElem? hc))

section Steps

variable {e : Op} {env : Env} {s s' : Inner} {r : e.Resp} {new : List Call}

/-- Channels keep their jobs, and new ones come last. -/
theorem jobs_exec (hx : e.exec env s = some (r, s', new)) :
    s'.replies.map (·.job) = s.replies.map (·.job) ++ madeFor e := by
  rw [Op.exec_replies hx]
  cases e with
  | trySend w =>
    cases r <;> simp [Op.repliesAfter, madeFor, Inner.close, Inner.channel, map_job_modify,
      senderDropped_job]
  | _ =>
    simp [Op.repliesAfter, madeFor, Inner.close, Inner.channel, map_job_modify, senderDropped_job,
      map_job_dropAll]

theorem Made.exec {x : Nat × Job} (h : Made s x) (hx : e.exec env s = some (r, s', new)) :
    Made s' x := by
  unfold Made at h ⊢
  rw [jobs_exec hx]
  obtain ⟨hlt, -⟩ := List.getElem?_eq_some_iff.mp h
  rw [List.getElem?_append_left hlt]
  exact h

/-- A reply is honest that is the answer to the job of its channel, and so is giving up on what
is settled. -/
theorem honest_exec (hx : e.exec env s = some (r, s', new)) (h : ∀ c ∈ s.replies, Honest c)
    (hsend : ∀ q out, e = .sendReply q out → ∃ job, Made s (q, job) ∧ out = executeJob job)
    (hcancel : ∀ q, e = .cancel q → 0 < Replies.settled s q) : ∀ c ∈ s'.replies, Honest c := by
  have hclose : ∀ q, ∀ c ∈ (s.close q).replies, Honest c := fun q =>
    honest_modify h fun c hc => honest_senderDropped (h c (List.mem_of_getElem? hc))
  cases e with
  | oneshot job =>
    cases hx
    intro c hc
    rcases List.mem_append.mp hc with hc | hc
    · exact h c hc
    · rw [List.mem_singleton.mp hc]
      exact ⟨(fun _ hr => nomatch hr), fun hw => nomatch hw⟩
  | trySend w =>
    rw [Op.exec_replies hx]
    cases r with
    | true => exact h
    | false => exact hclose w.reply
  | sendReply q out =>
    cases hx
    obtain ⟨job, hmade, hout⟩ := hsend q out rfl
    refine honest_modify h fun c hc => ⟨fun out' hr => ?_, fun _ hw => nomatch hw⟩
    have hjob : c.job = job := by
      simpa [Made, hc] using hmade
    cases hr
    rw [hout, hjob]
  | dropSender q =>
    cases hx
    exact hclose q
  | cancel q =>
    cases hx
    refine honest_modify h fun c hc => ⟨(h c (List.mem_of_getElem? hc)).ready, fun _ hw => ?_⟩
    have hsettled := hcancel q rfl
    simp [Replies.settled, Inner.slot, hc, show c.slot = .waiting from hw] at hsettled
  | dropReceiver =>
    cases hx
    exact honest_dropAll s.cpuQueue h
  | _ =>
    rw [Op.exec_replies hx]
    exact h

theorem mem_cpuQueue_exec (hx : e.exec env s = some (r, s', new)) {w : CpuWork}
    (hw : w ∈ s'.cpuQueue) : w ∈ s.cpuQueue ∨ e = .trySend w := by
  rw [Op.exec_cpuQueue hx] at hw
  cases e with
  | trySend w' =>
    cases r with
    | false => exact Or.inl hw
    | true =>
      rcases List.mem_append.mp hw with hw | hw
      · exact Or.inl hw
      · exact Or.inr (by rw [List.mem_singleton.mp hw])
  | recvWork =>
    cases r with
    | none => exact Or.inl hw
    | some _ => exact Or.inl (List.mem_of_mem_tail hw)
  | dropReceiver => nomatch hw
  | _ => exact Or.inl hw

theorem mem_queue_exec (hx : e.exec env s = some (r, s', new)) {k : JobKind} {entry : BatchEntry}
    (he : entry ∈ s'.queue k) : entry ∈ s.queue k ∨ e = .pushBatch k entry := by
  have hqueue := Batches.queue_exec hx k
  have hmem : entry ∈ s.queue k ++ Batches.pushed k e r := by
    rw [hqueue]
    exact List.mem_append_right _ he
  rcases List.mem_append.mp hmem with hmem | hmem
  · exact Or.inl hmem
  · right
    cases e with
    | pushBatch k' entry' =>
      simp only [Batches.pushed] at hmem
      split at hmem
      · rename_i hk
        rw [hk, List.mem_singleton.mp hmem]
      · exact absurd hmem List.not_mem_nil
    | _ => exact absurd hmem List.not_mem_nil

end Steps

/-- What a task may rely on: the job it submits, the jobs of the channels it has heard of, and
the channels it has given up. -/
structure Known where
  asked : Option Job := none
  worker : Bool := false
  channels : List (Nat × Job) := []
  givenUp : List Nat := []

def Known.next (v : Known) : (e : Op) → e.Resp → Known
  | .oneshot job, q => { v with channels := (q, job) :: v.channels }
  | .takeBatch _ _, some l => { v with channels := l.map (fun e => (e.reply, e.job)) ++ v.channels }
  | .recvWork, some w => { v with channels := (w.reply, w.job) :: v.channels }
  | .awaitReply q, none => { v with givenUp := q :: v.givenUp }
  | _, _ => v

/-- An answer to the job, or none. -/
def Answers (job : Job) (out : Option (List Output)) (_ : Known) : Prop :=
  ∀ outs, out = some outs → outs = executeJob job

theorem answers_none {job : Job} {v : Known} : Answers job none v := fun _ h => nomatch h

theorem answers_right {job : Job} {v : Known} : Answers job (some (executeJob job)) v :=
  fun _ h => (Option.some.inj h).symm

/-- The operations that neither need nor bring any knowledge. -/
def plain : Op → Bool
  | .cacheGet _ | .cacheInsert _ _ | .oneshot _ | .trySend _ | .awaitReply _ | .sendReply _ _
  | .cancel _ | .pushBatch _ _ | .takeBatch _ _ | .recvWork | .spawn _ => false
  | _ => true

theorem checkSlaViolation_plain (kind : JobKind) (ms : UInt64) :
    (checkSlaViolation kind ms).All (fun e => plain e = true) := by
  refine (checkSlaViolation_all kind ms).imp fun e h => ?_
  cases e <;> first | rfl | nomatch h

theorem run_plain (hint : WorkHint) : (run hint).All (fun e => plain e = true) := by
  have hwith : ∀ strategy frac, (runWith strategy hint frac).All (fun e => plain e = true) := by
    intro strategy frac
    refine (runWith_all strategy hint frac).imp fun e h => ?_
    cases e <;> first | rfl | nomatch h
  refine ⟨rfl, fun env => ?_⟩
  simp only [Prog.ret_bind]
  split
  · exact ⟨rfl, fun _ => ⟨rfl, fun _ => ⟨rfl, fun _ => trivial⟩⟩⟩
  · exact ⟨rfl, fun _ => ⟨rfl, fun _ => ⟨rfl, fun _ => ⟨rfl, fun _ => ⟨rfl, fun _ => ⟨rfl, fun _ =>
      hwith _ _⟩⟩⟩⟩⟩⟩

/-- What a task relies on is so. -/
structure Trusted (jobs : Set Job) (s : Inner) (v : Known) : Prop where
  asked : ∀ job, v.asked = some job → job ∈ jobs
  made : ∀ x ∈ v.channels, Made s x
  givenUp : ∀ q ∈ v.givenUp, 0 < Replies.settled s q

/-- What one task relies on, no other task takes away. -/
theorem Trusted.exec {jobs : Set Job} {v : Known} {e : Op} {env : Env} {s s' : Inner} {r : e.Resp}
    {new : List Call} (hv : Trusted jobs s v) (hx : e.exec env s = some (r, s', new)) :
    Trusted jobs s' v where
  asked := hv.asked
  made x hin := (hv.made x hin).exec hx
  givenUp q hin := Nat.lt_of_lt_of_le (hv.givenUp q hin) (Replies.settled_mono hx q)

section Texts

variable [F64Text]

/-- A task caches the answer to its own job, and answers a channel with the answer to the
channel's job. -/
def Known.allows (v : Known) : Op → Prop
  | .cacheGet job => v.asked = some job ∧ job.computeCost ≠ 0
  | .cacheInsert job text =>
    v.asked = some job ∧ job.computeCost ≠ 0 ∧ text = outputsToString (executeJob job)
  | .trySend w => (w.reply, w.job) ∈ v.channels
  | .pushBatch _ e => (e.reply, e.job) ∈ v.channels
  | .sendReply q out => ∃ job, (q, job) ∈ v.channels ∧ out = executeJob job
  | .spawn (.cpuWorker w) => (w.reply, w.job) ∈ v.channels
  | .spawn c => c.external = false
  | .cancel q => q ∈ v.givenUp
  | _ => True

/-- What a task is told is right. -/
def Known.told (v : Known) : (e : Op) → e.Resp → Prop
  | .cacheGet job, some text => text = outputsToString (executeJob job)
  | .execute job, out => out = executeJob job
  | .join out, r => (v.worker = true → r ≠ none) ∧ ∀ o, r = some o → o = out
  | .isCancelled _, cancelled => cancelled = false
  | .awaitReply q, some out => ∀ job, (q, job) ∈ v.channels → out = executeJob job
  | _, _ => True

def monitor : Monitor Op Op.Resp Call Answer Known where
  init
    | .submit job => { asked := some job }
    | .cpuWorker w => { worker := true, channels := [(w.reply, w.job)] }
    | _ => {}
  next := Known.next
  allow := Known.allows
  may := Known.told
  fin c a _ := ∀ job outs, c = .submit job → a = .submitted (some outs) → outs = executeJob job

@[simp] theorem monitor_next (v : Known) (e : Op) (r : e.Resp) :
    monitor.next v e r = v.next e r := rfl

@[simp] theorem monitor_allow (v : Known) (e : Op) : monitor.allow v e ↔ v.allows e := Iff.rfl

@[simp] theorem monitor_may (v : Known) (e : Op) (r : e.Resp) :
    monitor.may v e r ↔ v.told e r := Iff.rfl

theorem quiet {e : Op} (h : plain e = true) (v : Known) : monitor.Quiet v e := by
  cases e <;> first | exact ⟨trivial, fun _ _ => rfl⟩ | nomatch h

theorem quiet_wp {A : Type} {p : RouterM A} (h : p.All (fun e => plain e = true))
    {post : A → Known → Prop} {v : Known} (hp : ∀ a, post a v) : p.wp monitor post v :=
  h.wp (fun _ he => quiet he v) hp

theorem quiet_step {e : Op} (h : plain e = true) {A : Type} {f : e.Resp → RouterM A}
    {post : A → Known → Prop} {v : Known} (hf : ∀ r, (f r).wp monitor post v) :
    (Prog.perform e >>= f).wp monitor post v := Prog.wp_quiet (quiet h v) hf

section Bodies

variable {job : Job} {v : Known}

theorem submitCompleted_wp : (submitCompleted job (executeJob job)).wp monitor (Answers job) v :=
  quiet_step rfl fun _ => quiet_step rfl fun _ => (Prog.wp_bind _ _ _ _).mpr
    (quiet_wp (checkSlaViolation_plain _ _) fun _ => answers_right)

theorem flushEntries_wp (batch : List BatchEntry)
    (hv : ∀ e ∈ batch, (e.reply, e.job) ∈ v.channels) {post : Unit → Known → Prop}
    (hp : post () v) : (flushEntries batch).wp monitor post v := by
  induction batch with
  | nil => exact hp
  | cons e rest ih =>
    refine ⟨trivial, fun out hout => ⟨?_, fun _ _ => ?_⟩⟩
    · exact ⟨e.job, hv e List.mem_cons_self, hout⟩
    · exact ih fun e' he' => hv e' (List.mem_cons_of_mem e he')

/-- A flush forgets nothing. -/
theorem flushBatchKind_wp (kind : JobKind) {post : Unit → Known → Prop}
    (hp : ∀ v', v.channels ⊆ v'.channels → post () v') :
    (flushBatchKind kind).wp monitor post v := by
  refine quiet_step rfl fun cfg => quiet_step rfl fun found => ?_
  cases found with
  | false => exact hp v (List.Subset.refl _)
  | true =>
    refine ⟨trivial, fun taken _ => ?_⟩
    cases taken with
    | none => exact hp v (List.Subset.refl _)
    | some l =>
      refine quiet_step rfl fun _ => flushEntries_wp _ (fun e he => ?_) ?_
      · apply List.mem_append_left
        exact List.mem_map_of_mem ((List.perm_insertionSort _ l).mem_iff.mp he)
      · exact hp _ (List.subset_append_right _ _)

theorem batchReply_wp {q : Nat} (hq : (q, job) ∈ v.channels) :
    (batchReply job q).wp monitor (Answers job) v := by
  refine ⟨trivial, ?_⟩
  rintro (_ | out) hout
  · exact quiet_step rfl fun _ => answers_none
  · have hright : out = executeJob job := hout job hq
    rw [hright]
    exact submitCompleted_wp

theorem submitBatch_wp (cfg : RouterConfig) :
    (submitBatch job cfg).wp monitor (Answers job) v := by
  refine quiet_step rfl fun _ => quiet_step rfl fun _ => ⟨trivial, fun q _ => ?_⟩
  refine quiet_step rfl fun seq => quiet_step rfl fun found => ?_
  cases found with
  | false => exact quiet_step rfl fun _ => quiet_step rfl fun _ => answers_none
  | true =>
    refine ⟨List.mem_cons_self, fun len _ => ?_⟩
    simp only [Prog.ret_bind]
    split
    · exact (Prog.wp_bind _ _ _ _).mpr
        (flushBatchKind_wp _ fun v' hv' => batchReply_wp (hv' List.mem_cons_self))
    · exact batchReply_wp List.mem_cons_self

theorem submitCpuPool_wp (frac : Option ℚ) :
    (submitCpuPool job frac).wp monitor (Answers job) v := by
  refine quiet_step rfl fun _ => quiet_step rfl fun _ => ⟨trivial, fun q _ => ?_⟩
  refine ⟨List.mem_cons_self, fun accepted _ => ?_⟩
  cases accepted with
  | false => exact quiet_step rfl fun _ => quiet_step rfl fun _ => answers_none
  | true =>
    refine quiet_step rfl fun _ => ⟨trivial, ?_⟩
    rintro (_ | out) hout
    · exact ⟨List.mem_cons_self, fun _ _ => quiet_step rfl fun _ => answers_none⟩
    · have hright : out = executeJob job := hout job List.mem_cons_self
      rw [hright]
      exact submitCompleted_wp

theorem submitSpawn_wp (frac : Option ℚ) : (submitSpawn job frac).wp monitor (Answers job) v := by
  refine quiet_step rfl fun _ => quiet_step rfl fun _ => ⟨trivial, ?_⟩
  rintro (_ | out) ⟨-, hout⟩
  · exact quiet_step rfl fun _ => quiet_step rfl fun _ => answers_none
  · have hright : out = executeJob job := hout out rfl
    rw [hright]
    exact quiet_step rfl fun env => quiet_step rfl fun _ => submitCompleted_wp

theorem submitInline_wp (frac : Option ℚ) (hv : v.asked = some job) (hcost : job.computeCost ≠ 0) :
    (submitInline job frac).wp monitor (Answers job) v := by
  refine quiet_step rfl fun _ => quiet_step rfl fun _ => ⟨trivial, fun out hout => ?_⟩
  have hright : out = executeJob job := hout
  rw [hright]
  refine quiet_step rfl fun env => quiet_step rfl fun _ => quiet_step rfl fun _ => ?_
  refine (Prog.wp_bind _ _ _ _).mpr (quiet_wp (checkSlaViolation_plain _ _) fun _ => ?_)
  exact ⟨⟨hv, hcost, rfl⟩, fun _ _ => answers_right⟩

theorem submitWith_wp (strategy : Strategy) (cfg : RouterConfig) (frac : Option ℚ)
    (hv : v.asked = some job) (hcost : job.computeCost ≠ 0) :
    (submitWith strategy job cfg frac).wp monitor (Answers job) v := by
  cases strategy with
  | drop => exact quiet_step rfl fun _ => quiet_step rfl fun _ => quiet_step rfl fun _ => answers_none
  | inline => exact submitInline_wp frac hv hcost
  | spawn => exact submitSpawn_wp frac
  | cpuPool => exact submitCpuPool_wp frac
  | batch => exact submitBatch_wp cfg

/-- Every path of a submission ends with the answer to its job or with none. -/
theorem submit_wp (hv : v.asked = some job) : (submit job).wp monitor (Answers job) v := by
  refine quiet_step rfl fun _ => quiet_step rfl fun env => ?_
  split
  · exact quiet_step rfl fun _ => quiet_step rfl fun _ => quiet_step rfl fun _ =>
      quiet_step rfl fun _ => answers_none
  · unfold submitLive
    split
    · refine quiet_step rfl fun _ => ⟨trivial, fun out hout => quiet_step rfl fun _ => ?_⟩
      have hright : out = executeJob job := hout
      rw [hright]
      exact answers_right
    · rename_i hcost
      refine ⟨⟨hv, hcost⟩, fun text htext => ?_⟩
      simp only [Prog.ret_bind]
      split
      · refine quiet_step rfl fun _ => ?_
        cases text with
        | none =>
          rename_i hne
          exact absurd rfl hne
        | some text =>
          have hright : text = outputsToString (executeJob job) := htext
          rw [hright, Option.map_some, Option.getD_some,
            parseOutputs_toString _ (executeJob_ne_nil job)]
          exact answers_right
      · refine quiet_step rfl fun cfg => quiet_step rfl fun threshold => quiet_step rfl fun free =>
          quiet_step rfl fun free' => quiet_step rfl fun env => quiet_step rfl fun _ => ?_
        exact submitWith_wp _ cfg _ (by cases text <;> exact hv) hcost

theorem cpuWorker_wp (w : CpuWork) :
    (cpuWorker w).wp monitor (fun _ _ => True)
      { worker := true, channels := [(w.reply, w.job)] } := by
  refine ⟨trivial, fun cancelled hno => ?_⟩
  have hlive : cancelled = false := hno
  subst hlive
  refine ⟨trivial, ?_⟩
  rintro (_ | out) ⟨hworks, hout⟩
  · exact absurd rfl (hworks rfl)
  · have hright : out = executeJob w.job := hout out rfl
    exact ⟨⟨w.job, List.mem_cons_self, hright⟩, fun _ _ => ⟨trivial, fun _ _ => trivial⟩⟩

theorem cpuDispatchLoop_wp : cpuDispatchLoop.wp monitor (fun _ _ => True) {} := by
  refine ⟨trivial, ?_⟩
  rintro (_ | w) -
  · exact ⟨trivial, fun _ _ => trivial⟩
  · refine quiet_step rfl ?_
    rintro (_ | _)
    · exact ⟨trivial, fun _ _ => ⟨trivial, fun _ _ => trivial⟩⟩
    · exact quiet_step rfl fun _ => ⟨List.mem_cons_self, fun _ _ => ⟨rfl, fun _ _ => trivial⟩⟩

theorem batchFlusher_wp (idx : Fin 3) : (batchFlusher idx).wp monitor (fun _ _ => True) {} := by
  refine quiet_step rfl fun _ => quiet_step rfl ?_
  rintro (_ | _)
  · exact (Prog.wp_bind _ _ _ _).mpr (flushBatchKind_wp _ fun _ _ => ⟨rfl, fun _ _ => trivial⟩)
  · trivial

end Bodies

theorem body_wp (c : Call) : (callBody c).wp monitor (monitor.fin c) (monitor.init c) := by
  have hother : ∀ {a : Answer} {v : Known}, (∀ job, c ≠ .submit job) → monitor.fin c a v :=
    fun h job _ hc => absurd hc (h job)
  have hdone : ∀ {p : RouterM Unit} {v : Known}, (∀ job, c ≠ .submit job) →
      p.wp monitor (fun _ _ => True) v →
      (p >>= fun _ => (pure .done : RouterM Answer)).wp monitor (monitor.fin c) v :=
    fun h hp => (Prog.wp_bind _ _ _ _).mpr (Prog.wp_mono hp fun _ _ _ => hother h)
  cases c with
  | submit job =>
    refine (Prog.wp_bind _ _ _ _).mpr (Prog.wp_mono (submit_wp rfl) fun out v h => ?_)
    rintro _ outs ⟨⟩ hout
    exact h outs (by injection hout)
  | run hint => exact quiet_wp (run_plain hint) fun _ => hother (fun _ => nofun)
  | cpuDispatchLoop => exact hdone (fun _ => nofun) cpuDispatchLoop_wp
  | cpuWorker w => exact hdone (fun _ => nofun) (cpuWorker_wp w)
  | batchFlusher idx => exact hdone (fun _ => nofun) (batchFlusher_wp idx)
  | _ =>
    refine quiet_wp ((callBody_all _ rfl).imp fun e h => ?_) fun _ => hother (fun _ => nofun)
    cases e <;> first | rfl | nomatch h

/-- The keys of a family of jobs tell its answers apart. -/
def KeysTell (jobs : Set Job) : Prop :=
  ∀ a ∈ jobs, ∀ b ∈ jobs, a.computeCost ≠ 0 → b.computeCost ≠ 0 → jobKey a = jobKey b →
    executeJob a = executeJob b

/-- A text stored under a key is the answer to a job of the family that has the key. -/
def Stored (jobs : Set Job) (key : UInt64) (text : List Char) : Prop :=
  ∃ job ∈ jobs, job.computeCost ≠ 0 ∧ jobKey job = key ∧ text = outputsToString (executeJob job)

/-- The cache and the channels hold right answers, and queued work knows its channel's job. -/
structure Sound (jobs : Set Job) (s : Inner) : Prop where
  cache : s.resultCache.Holds (Stored jobs)
  channels : ∀ c ∈ s.replies, Honest c
  cpu : ∀ w ∈ s.cpuQueue, Made s (w.reply, w.job)
  batch : ∀ k, ∀ e ∈ s.queue k, Made s (e.reply, e.job)

section Rely

variable {jobs : Set Job} {v : Known} {e : Op} {env : Env} {s s' : Inner} {r : e.Resp}
  {new : List Call}

theorem cache_exec (hx : e.exec env s = some (r, s', new))
    (h : s.resultCache.Holds (Stored jobs))
    (hi : ∀ job text, e = .cacheInsert job text → Stored jobs (jobKey job) text) :
    s'.resultCache.Holds (Stored jobs) := by
  cases e with
  | cacheGet job =>
    cases hx
    exact (ResultCache.get_holds h job env.instant).1
  | cacheInsert job text =>
    cases hx
    exact ResultCache.insert_holds h job text env.instant (hi job text rfl)
  | _ =>
    simp only [Op.exec] at hx
    repeat' split at hx
    all_goals first | contradiction | (cases hx; exact h)

/-- An allowed operation leaves the shared state sound. -/
theorem Sound.exec (h : Sound jobs s) (hv : Trusted jobs s v) (ha : v.allows e)
    (hx : e.exec env s = some (r, s', new)) : Sound jobs s' where
  cache := cache_exec hx h.cache fun job text he => by
    subst he
    exact ⟨job, hv.asked job ha.1, ha.2.1, rfl, ha.2.2⟩
  channels := by
    refine honest_exec hx h.channels (fun q out he => ?_) fun q he => ?_
    · subst he
      obtain ⟨job, hin, hout⟩ := ha
      exact ⟨job, hv.made _ hin, hout⟩
    · subst he
      exact hv.givenUp q ha
  cpu w hw := by
    rcases mem_cpuQueue_exec hx hw with hw | he
    · exact (h.cpu w hw).exec hx
    · subst he
      exact (hv.made _ ha).exec hx
  batch k entry hentry := by
    rcases mem_queue_exec hx hentry with hentry | he
    · exact (h.batch k entry hentry).exec hx
    · subst he
      exact (hv.made _ ha).exec hx

/-- What a task learns is so. -/
theorem Trusted.next (hv : Trusted jobs s v) (h : Sound jobs s)
    (hx : e.exec env s = some (r, s', new)) : Trusted jobs s' (v.next e r) := by
  have hkeep := hv.exec hx
  cases e with
  | oneshot job =>
    refine ⟨hkeep.asked, fun x hin => ?_, hkeep.givenUp⟩
    rcases List.mem_cons.mp hin with rfl | hin
    · cases hx
      simp [Made]
    · exact hkeep.made x hin
  | takeBatch k n =>
    rcases Op.exec_takeBatch hx with ⟨rfl, -, -⟩ | ⟨rfl, -⟩
    · exact hkeep
    · refine ⟨hkeep.asked, fun x hin => ?_, hkeep.givenUp⟩
      rcases List.mem_append.mp hin with hin | hin
      · obtain ⟨entry, hentry, rfl⟩ := List.mem_map.mp hin
        exact (h.batch k entry (List.mem_of_mem_take hentry)).exec hx
      · exact hkeep.made x hin
  | recvWork =>
    cases r with
    | none => exact hkeep
    | some w =>
      refine ⟨hkeep.asked, fun x hin => ?_, hkeep.givenUp⟩
      rcases List.mem_cons.mp hin with rfl | hin
      · refine (h.cpu w ?_).exec hx
        rw [Op.exec_recvWork hx]
        exact List.mem_cons_self
      · exact hkeep.made x hin
  | awaitReply q =>
    cases r with
    | some out => exact hkeep
    | none =>
      refine ⟨hkeep.asked, hkeep.made, fun q' hin => ?_⟩
      rcases List.mem_cons.mp hin with rfl | hin
      · obtain ⟨rfl, ⟨out, hout, -⟩ | ⟨-, hclosed⟩⟩ := Op.exec_awaitReply hx
        · cases hout
        · simp [Replies.settled, hclosed]
      · exact hkeep.givenUp q' hin
  | _ => exact hkeep

/-- A task that is started relies on nothing that is not so. -/
theorem Trusted.spawned (hv : Trusted jobs s v) (ha : v.allows e)
    (hx : e.exec env s = some (r, s', new)) {c : Call} (hc : c ∈ new) :
    Trusted jobs s' (monitor.init c) := by
  rw [Op.exec_new hx] at hc
  cases e with
  | spawn c' =>
    obtain rfl := List.mem_singleton.mp hc
    cases c with
    | cpuWorker w =>
      refine ⟨nofun, fun x hin => ?_, nofun⟩
      obtain rfl := List.mem_singleton.mp hin
      exact (hv.made _ ha).exec hx
    | cpuDispatchLoop => exact ⟨nofun, nofun, nofun⟩
    | batchFlusher idx => exact ⟨nofun, nofun, nofun⟩
    | _ => nomatch (show Call.external _ = false from ha)
  | _ => nomatch hc

/-- Every answer of the shared state is what the task expects. -/
theorem told_exec (hk : KeysTell jobs) (h : Sound jobs s) (hv : Trusted jobs s v)
    (ha : v.allows e) (hx : e.exec env s = some (r, s', new))
    (hworks : v.worker = true → env.fails = false)
    (hlive : ∀ q, e = .isCancelled q → s.slot q = some .waiting) : v.told e r := by
  cases e with
  | cacheGet job =>
    cases r with
    | none => trivial
    | some text =>
      have htext : (s.resultCache.get job env.instant).1 = some text := by
        injection hx with hx
        exact congrArg Prod.fst hx
      obtain ⟨other, hin, hcost, hkey, rfl⟩ :=
        (ResultCache.get_holds h.cache job env.instant).2 text htext
      have hsame := hk other hin job (hv.asked job ha.1) hcost ha.2 hkey
      exact congrArg outputsToString hsame
  | execute job =>
    cases hx
    rfl
  | join out =>
    cases hx
    refine ⟨fun hw => ?_, fun o ho => ?_⟩
    · rw [hworks hw]
      exact nofun
    · split at ho
      · nomatch ho
      · exact (Option.some.inj ho).symm
  | isCancelled q =>
    cases hx
    obtain ⟨c, hc, hslot⟩ := Option.map_eq_some_iff.mp (hlive q rfl)
    cases hflag : c.cancelled with
    | false =>
      change ((s.replies[q]?).map (·.cancelled)).getD false = false
      simp [hc, hflag]
    | true => exact absurd hslot ((h.channels c (List.mem_of_getElem? hc)).cancelled hflag)
  | awaitReply q =>
    cases r with
    | none => trivial
    | some out =>
      intro job hin
      obtain ⟨-, ⟨out', heq, hready⟩ | ⟨hnone, -⟩⟩ := Op.exec_awaitReply hx
      · cases heq
        obtain ⟨c, hc, hslot⟩ := Option.map_eq_some_iff.mp hready
        have hjob : c.job = job := by simpa [Made, hc] using hv.made _ hin
        rw [(h.channels c (List.mem_of_getElem? hc)).ready out hslot, hjob]
      · cases hnone
  | _ => trivial

end Rely

/-- Callers submit jobs of the family only. -/
def Submits (jobs : Set Job) : RouterAction → Prop
  | .start (.submit job) => job ∈ jobs
  | _ => True

/-- No worker of the pool fails. -/
def WorkersHold : RouterAction → RouterPool → Prop
  | .step i env, p => ∀ t, p.tasks[i]? = some t → ∀ w, t.call = .cpuWorker w → env.fails = false
  | _, _ => True

/-- A flag is looked at only while its channel waits. -/
def LiveFlags (p : RouterPool) : Prop :=
  ∀ t ∈ p.tasks, ∀ q, t.prog.head? = some (.isCancelled q) → p.state.slot q = some .waiting

/-- Whatever a submission has answered is the answer to its job. -/
def Right (p : RouterPool) : Prop :=
  ∀ t ∈ p.tasks, ∀ job outs, t.call = .submit job →
    t.result? = some (.submitted (some outs)) → outs = executeJob job

theorem flags_live {cfg : RouterConfig} {p : RouterPool} (h : Reachable cfg p) : LiveFlags p := by
  obtain ⟨hbal, hf⟩ := Replies.owned_once h
  intro t ht q hh
  have hone : Replies.single q q ≤ t.view Replies.monitor q := (hf t ht).allowed_head hh q
  have hle := Replies.held_le_inHand ht q
  have hwait := hbal q
  rw [Replies.single, if_pos rfl] at hone
  unfold Replies.waiting at hwait
  split at hwait
  · assumption
  · omega

variable {jobs : Set Job}

theorem worker_call {t : RouterTask} (h : (t.view monitor).worker = true) :
    ∃ w, t.call = .cpuWorker w := by
  have hnext : ∀ (v : Known) e r, (monitor.next v e r).worker = v.worker := by
    intro v e r
    simp only [monitor_next, Known.next]
    split <;> rfl
  rw [Task.view_const monitor Known.worker hnext] at h
  cases hc : t.call with
  | cpuWorker w => exact ⟨w, rfl⟩
  | _ =>
    rw [hc] at h
    nomatch h

theorem invariant (hk : KeysTell jobs) :
    machine.Invariant monitor (fun a p => (Submits jobs a ∧ WorkersHold a p) ∧ LiveFlags p)
      (fun p => Sound jobs p.state ∧ ∀ t ∈ p.tasks, Trusted jobs p.state (t.view monitor)) where
  body := body_wp
  start c s tasks hc hg hj := by
    refine ⟨hj.1, fun t ht => ?_⟩
    rcases List.mem_append.mp ht with ht | ht
    · exact hj.2 t ht
    · rw [List.mem_singleton.mp ht, Machine.view_spawn]
      cases c with
      | submit job => exact ⟨fun _ h => Option.some.inj h ▸ hg.1.1, nofun, nofun⟩
      | cpuWorker w => nomatch hc
      | _ => exact ⟨nofun, nofun, nofun⟩
  step input pre post t e next r s s' new hp hx hg hf ha hj := by
    have hx : e.exec input s = some (r, s', new) := hx
    have ht : t ∈ pre ++ t :: post := by simp
    have hv := hj.2 t ht
    refine ⟨told_exec hk hj.1 hv ha hx ?_ ?_, hj.1.exec hv ha hx, fun u hu => ?_⟩
    · intro hw
      obtain ⟨w, hcall⟩ := worker_call hw
      exact hg.1.2 t (by simp) w hcall
    · intro q he
      apply hg.2 t ht q
      rw [hp]
      exact congrArg some he
    · simp only [List.mem_append, List.mem_cons, List.mem_map] at hu
      rcases hu with (hu | rfl | hu) | ⟨c, hc, rfl⟩
      · exact (hj.2 u (by simp [hu])).exec hx
      · rw [Task.view_advance]
        exact hv.next hj.1 hx
      · exact (hj.2 u (by simp [hu])).exec hx
      · exact hv.spawned ha hx hc

theorem sound_new (cfg : RouterConfig) : Sound jobs (Inner.new cfg) where
  cache key entry h := by simp [Inner.new] at h
  channels := nofun
  cpu := nofun
  batch := nofun

/-- Where keys tell answers apart and no worker fails, every answer is right. -/
theorem right_of_keysTell (hk : KeysTell jobs) {cfg : RouterConfig} {p0 p : RouterPool}
    {as : List RouterAction} (hn : Router.new cfg = some p0)
    (hg : machine.Guarded (fun a p => Submits jobs a ∧ WorkersHold a p) as p0)
    (hr : machine.run as p0 = some p) : Right p := by
  have hlive : machine.Always LiveFlags as p0 :=
    Machine.always_of_run fun bs q hq => flags_live ⟨p0, bs, hn, hq⟩
  have hguard := hg.and (hlive.guarded fun _ _ h _ => h)
  have hstart : ∀ t ∈ p0.tasks, t.Follows monitor := by
    rw [Router.new_eq hn]
    exact start_follows body_wp cfg
  have hsound : Sound jobs p0.state ∧ ∀ t ∈ p0.tasks, Trusted jobs p0.state (t.view monitor) := by
    rw [Router.new_eq hn]
    refine ⟨sound_new cfg, fun t ht => ?_⟩
    rcases mem_startPool.mp ht with rfl | rfl
    · exact ⟨nofun, nofun, nofun⟩
    · exact ⟨nofun, nofun, nofun⟩
  obtain ⟨-, hf⟩ := (invariant hk).run hguard hr hstart hsound
  intro t ht job outs hcall hres
  exact (hf t ht).finished hres job outs hcall rfl

end Texts

end HelixRouter.Transparency
