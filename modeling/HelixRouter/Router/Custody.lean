import HelixRouter.Router.Batches
import HelixRouter.Router.QueueGauge

namespace HelixRouter.Custody

open Interleaving

/-- What a task has to do with reply channels: a submitter with none, with its own in
hand, with its work in the CPU channel or in a batch queue, or done; or one of the
router's own tasks. -/
inductive Stage where
  | idle
  | made (r : Nat)
  | pooled (r : Nat)
  | pushed (r : Nat)
  | past
  | working
  | dispatching
  | sweeping
  | left
  deriving DecidableEq

def Stage.dropped : Stage → Stage
  | .made _ => .past
  | st => st

def Stage.next (st : Stage) : (e : Op) → e.Resp → Stage
  | .oneshot _, r => .made r
  | .trySend w, accepted => if accepted then .pooled w.reply else .past
  | .pushBatch _ e, _ => .pushed e.reply
  | .dropSender _, _ => st.dropped
  | .awaitReply _, _ => .past
  | .dropReceiver, _ | .spawn .cpuDispatchLoop, _ | .spawn (.batchFlusher _), _ => .left
  | .sleepOrShutdown, heard => if heard then .left else st
  | _, _ => st

def Stage.allows (st : Stage) : Op → Prop
  | .oneshot _ => st = .idle
  | .trySend w => st = .made w.reply
  | .pushBatch _ e => st = .made e.reply
  | .dropSender r => st = .made r ∨ st = .dispatching
  | .awaitReply r => st = .pooled r ∨ st = .pushed r
  | .recvWork | .dropReceiver | .spawn .cpuDispatchLoop | .spawn (.cpuWorker _) =>
    st = .dispatching
  | .sleepOrShutdown | .spawn (.batchFlusher _) => st = .sweeping
  | .takeBatch _ _ => st = .sweeping ∨ ∃ r, st = .pushed r
  | .sendReply _ _ => st = .working ∨ st = .sweeping ∨ ∃ r, st = .pushed r
  | _ => True

/-- Where a task may end: no channel in hand or awaited, and no loop left. -/
def Stage.ended : Stage → Bool
  | .idle | .past | .working | .left => true
  | _ => false

def Stage.internal : Stage → Bool
  | .working | .dispatching | .sweeping | .left => true
  | _ => false

def monitor : Monitor Op Op.Resp Call Answer Stage where
  init
    | .submit _ => .idle
    | .cpuWorker _ => .working
    | .cpuDispatchLoop => .dispatching
    | .batchFlusher _ => .sweeping
    | _ => .past
  next := Stage.next
  allow := Stage.allows
  may _ _ _ := True
  fin _ _ st := st.ended = true

@[simp] theorem monitor_next (st : Stage) (e : Op) (r : e.Resp) :
    monitor.next st e r = st.next e r := rfl

@[simp] theorem monitor_allow (st : Stage) (e : Op) : monitor.allow st e ↔ st.allows e := Iff.rfl

@[simp] theorem monitor_may (st : Stage) (e : Op) (r : e.Resp) : monitor.may st e r := trivial

def quietAreas : List Area := [.routine, .compute, .config, .permit]

theorem quiet {e : Op} (h : e.Within quietAreas) (st : Stage) : monitor.Quiet st e := by
  cases e <;> simp [Op.Within, Op.area, quietAreas] at h
  all_goals exact ⟨trivial, fun _ _ => rfl⟩

theorem quiet_configures {e : Op} (h : e.configures = true) (st : Stage) : monitor.Quiet st e := by
  cases e <;> first | (cases h; done) | exact ⟨trivial, fun _ _ => rfl⟩

theorem quiet_wp {A : Type} {areas : List Area} {p : RouterM A} (h : p.All (Op.Within areas))
    (hq : areas ⊆ quietAreas) {post : A → Stage → Prop} {st : Stage}
    (hp : ∀ a, post a st) : p.wp monitor post st := h.wp (fun _ he => quiet (he.mono hq) st) hp

/-- A task that has ended has nothing to do with any channel. -/
def Ended {A : Type} (_ : A) (st : Stage) : Prop := st.ended = true

section Bodies

attribute [local simp] Stage.next Stage.allows Stage.dropped Stage.ended Ended bumpRoute
  bumpKindRoute

/-- A flush stays where it is. -/
theorem flushBatchKind_wp (kind : JobKind) {st : Stage} (hst : st = .sweeping ∨ ∃ r, st = .pushed r)
    {post : Unit → Stage → Prop} (hp : post () st) : (flushBatchKind kind).wp monitor post st := by
  have hentries : ∀ batch, (flushEntries batch).wp monitor post st := by
    intro batch
    refine Prog.All.wp (P := fun e => e.Within [.compute] ∨ ∃ r out, e = .sendReply r out)
      (flushEntries_all (fun _ => Or.inl (by simp [Op.Within, Op.area])) (fun r out => Or.inr ⟨r, out, rfl⟩) batch)
      ?_ fun _ => hp
    rintro e (he | ⟨r, out, rfl⟩)
    · exact quiet (he.mono (by simp [quietAreas])) st
    · exact ⟨Or.inr hst, fun _ _ => rfl⟩
  refine ⟨trivial, fun cfg _ => ⟨trivial, fun found _ => ?_⟩⟩
  cases found with
  | false => exact hp
  | true =>
    refine ⟨hst, fun taken _ => ?_⟩
    cases taken with
    | none => exact hp
    | some l => exact ⟨trivial, fun _ _ => hentries _⟩

theorem submitCompleted_wp (job : Job) (out : List Output) {st : Stage} (hst : st.ended = true) :
    (submitCompleted job out).wp monitor Ended st :=
  quiet_wp (submitCompleted_all job out) (by simp [quietAreas]) fun _ => hst

theorem submitCpuPool_wp (job : Job) (frac : Option ℚ) :
    (submitCpuPool job frac).wp monitor Ended .idle := by
  simp [submitCpuPool]
  rintro r (_ | out)
  · simp
  · exact submitCompleted_wp job out rfl

theorem batchReply_wp (job : Job) (r : Nat) :
    (batchReply job r).wp monitor Ended (.pushed r) := by
  refine ⟨Or.inr rfl, fun out _ => ?_⟩
  cases out with
  | none => simp
  | some out => exact submitCompleted_wp job out rfl

theorem submitBatch_wp (job : Job) (cfg : RouterConfig) :
    (submitBatch job cfg).wp monitor Ended .idle := by
  simp [submitBatch]
  intro r seq len
  split
  · exact flushBatchKind_wp _ (Or.inr ⟨r, rfl⟩) (batchReply_wp job r)
  · exact batchReply_wp job r

theorem cpuWorker_wp (w : CpuWork) : (cpuWorker w).wp monitor Ended .working := by
  refine ⟨trivial, fun cancelled _ => ⟨trivial, ?_⟩⟩
  rintro (_ | out) <;> simp

theorem cpuDispatchLoop_wp : cpuDispatchLoop.wp monitor Ended .dispatching := by
  simp [cpuDispatchLoop]
  rintro (_ | w) <;> simp

theorem batchFlusher_wp (idx : Fin 3) : (batchFlusher idx).wp monitor Ended .sweeping := by
  refine ⟨trivial, fun cfg _ => ⟨rfl, fun heard _ => ?_⟩⟩
  cases heard with
  | true => rfl
  | false =>
    exact (Prog.wp_bind (flushBatchKind (flusherKinds idx)) _ _ _).mpr
      (flushBatchKind_wp _ (Or.inl rfl) ⟨rfl, fun _ _ => rfl⟩)

theorem body_wp [F64Text] (c : Call) :
    (callBody c).wp monitor (monitor.fin c) (monitor.init c) := by
  cases c with
  | submit job =>
    refine (Prog.wp_bind _ _ _ _).mpr (submit_wp (fun e he => quiet ?_ _) (fun _ => rfl)
      (quiet_wp (submitFree_all job) (by simp [quietAreas]) fun _ => rfl)
      (fun frac => quiet_wp (submitInline_all job frac) (by simp [quietAreas]) fun _ => rfl)
      (fun frac => submitCpuPool_wp job frac) fun cfg => submitBatch_wp job cfg)
    simp [Op.Within, he, quietAreas]
  | run hint => exact quiet_wp (run_all hint) (by simp [quietAreas]) fun _ => rfl
  | cpuDispatchLoop => exact (Prog.wp_bind _ _ _ _).mpr cpuDispatchLoop_wp
  | cpuWorker w => exact (Prog.wp_bind _ _ _ _).mpr (cpuWorker_wp w)
  | batchFlusher idx => exact (Prog.wp_bind _ _ _ _).mpr (batchFlusher_wp idx)
  | _ => exact (callBody_all _ rfl).wp (fun e he => quiet_configures he _) fun _ => rfl

end Bodies

/-- The two loops of a router. -/
inductive Loop where
  | dispatcher
  | flusher

def running : Loop → Stage → Nat
  | .dispatcher, st => if st = .dispatching then 1 else 0
  | .flusher, st => if st = .sweeping then 1 else 0

/-- Each loop is one task at a time, for as long as it listens. -/
def listening : Loop → Inner → Nat
  | .dispatcher, s => s.cpuRxOpen.toNat
  | .flusher, s => s.flusherSubscribed.toNat

section Loops

variable {e : Op} {env : Env} {s s' : Inner} {r : e.Resp} {new : List Call} {st : Stage} {i : Loop}

theorem running_same (hr : running i (st.next e r) = running i st)
    (hn : (e.spawns.map (fun c => running i (monitor.init c))).sum = 0)
    (hl : listening i s' = listening i s) :
    running i (st.next e r) + (e.spawns.map (fun c => running i (monitor.init c))).sum +
      listening i s = running i st + listening i s' := by
  rw [hr, hn, hl, Nat.add_zero]

/-- A loop stops where it stops listening, and otherwise starts its next turn. -/
theorem running_next (hx : e.exec env s = some (r, s', new)) (ha : st.allows e)
    (hpos : ∀ i, running i st ≤ listening i s) :
    running i (st.next e r) + (e.spawns.map (fun c => running i (monitor.init c))).sum +
      listening i s = running i st + listening i s' := by
  have ho := congrArg Bool.toNat (Op.exec_cpuRxOpen hx)
  have hs := congrArg Bool.toNat (Op.exec_flusherSubscribed hx)
  cases e with
  | oneshot job =>
    cases ha
    exact running_same (by cases i <;> rfl) rfl (by cases i <;> assumption)
  | trySend w =>
    cases ha
    exact running_same (by cases r <;> cases i <;> rfl) rfl (by cases i <;> assumption)
  | pushBatch k entry =>
    cases ha
    exact running_same (by cases i <;> rfl) rfl (by cases i <;> assumption)
  | dropSender c =>
    have hst : running i (st.next (.dropSender c) r) = running i st := by
      rcases ha with rfl | rfl <;> cases i <;> rfl
    exact running_same hst rfl (by cases i <;> assumption)
  | awaitReply c =>
    have hst : running i (st.next (.awaitReply c) r) = running i st := by
      rcases ha with rfl | rfl <;> cases i <;> rfl
    exact running_same hst rfl (by cases i <;> assumption)
  | dropReceiver =>
    cases ha
    cases i with
    | dispatcher =>
      have hone : s.cpuRxOpen.toNat = 1 := Nat.le_antisymm (Bool.toNat_le _) (hpos .dispatcher)
      change 0 + 0 + s.cpuRxOpen.toNat = 1 + s'.cpuRxOpen.toNat
      rw [ho, hone]
      rfl
    | flusher => exact running_same rfl rfl hs
  | sleepOrShutdown =>
    cases ha
    cases r with
    | false => exact running_same (by cases i <;> rfl) rfl (by cases i <;> assumption)
    | true =>
      cases i with
      | dispatcher => exact running_same rfl rfl ho
      | flusher =>
        have hone : s.flusherSubscribed.toNat = 1 :=
          Nat.le_antisymm (Bool.toNat_le _) (hpos .flusher)
        change 0 + 0 + s.flusherSubscribed.toNat = 1 + s'.flusherSubscribed.toNat
        rw [hs, hone]
        rfl
  | spawn c =>
    cases c with
    | cpuDispatchLoop =>
      cases ha
      cases i with
      | dispatcher => exact congrArg (1 + ·) ho.symm
      | flusher => exact running_same rfl rfl hs
    | batchFlusher idx =>
      cases ha
      cases i with
      | dispatcher => exact running_same rfl rfl ho
      | flusher => exact congrArg (1 + ·) hs.symm
    | _ => exact running_same rfl (by cases i <;> rfl) (by cases i <;> assumption)
  | _ => exact running_same rfl rfl (by cases i <;> assumption)

end Loops

theorem ledger [F64Text] : machine.Ledger monitor (fun _ _ => True) QueueGauge.ChannelFits
    running (fun _ _ => 0) listening where
  body := body_wp
  start c p hc _ i := by cases c <;> cases i <;> first | rfl | cases hc
  step k env p t e r s' new ht hx _ _ _ hgood ha hbal := by
    have hx : e.exec env p.state = some (r, s', new) := hx
    refine ⟨trivial, hgood.step hx, fun i => ?_⟩
    have hle : ∀ i, running i (t.view monitor) ≤ listening i p.state := fun i =>
      (Pool.held_le_tally monitor (running i) ht).trans (hbal i).le
    have hb := running_next (i := i) hx ha hle
    rw [Op.exec_new hx]
    simpa using hb

/-- The channels a task has waited for. -/
def awaited : (e : Op) → e.Resp → List Nat
  | .awaitReply r, _ => [r]
  | _, _ => []

def noSender : Nat → Nat := fun _ => 0

/-- What a task's stage says of the senders in its hand and of its history. -/
def Record (hand : Nat → Nat) (created : List Nat) (pushes : List BatchEntry)
    (awaited : List Nat) : Stage → Prop
  | .idle => hand = noSender ∧ created = [] ∧ pushes = []
  | .made r => hand = Replies.single r ∧ created = [r] ∧ pushes = []
  | .pooled r => hand = noSender ∧ created = [r] ∧ pushes = []
  | .pushed r => created = [r] ∧ ∀ e ∈ pushes, e.reply = r
  | .past => hand = noSender ∧ ∀ e ∈ pushes, e.reply ∈ awaited
  | _ => pushes = []

/-- A task's account of itself: its stage is one of the router's own exactly if it is,
and it fits what the task holds and has done. -/
structure Kept (t : RouterTask) : Prop where
  internal : (t.view monitor).internal = !t.call.external
  record : Record (t.view Replies.monitor) (t.log Batches.created) (t.log Batches.pushes)
    (t.log awaited) (t.view monitor)

theorem kept_spawn [F64Text] (c : Call) : Kept (machine.spawn c) := by
  cases c with
  | submit job => exact ⟨rfl, rfl, rfl, rfl⟩
  | cpuDispatchLoop => exact ⟨rfl, rfl⟩
  | cpuWorker w => exact ⟨rfl, rfl⟩
  | batchFlusher idx => exact ⟨rfl, rfl⟩
  | _ => exact ⟨rfl, rfl, fun _ h => nomatch h⟩

end HelixRouter.Custody
