import HelixRouter.Router.Footprints

namespace HelixRouter.Replies

open Interleaving

/-- One at a channel, nothing elsewhere. -/
def single (r q : Nat) : Nat := if q = r then 1 else 0

/-- The senders an operation gives away: into a queue, with an answer, or to a worker. -/
def releases : Op → Nat → Nat
  | .trySend w => single w.reply
  | .pushBatch _ e => single e.reply
  | .dropSender r | .sendReply r _ => single r
  | .spawn (.cpuWorker w) => single w.reply
  | _ => fun _ => 0

/-- The senders an operation brings its task. -/
def gains : (e : Op) → e.Resp → Nat → Nat
  | .oneshot _, r => single r
  | .recvWork, some w => single w.reply
  | .takeBatch _ _, some l => fun q => (l.map (·.reply)).count q
  | _, _ => fun _ => 0

/-- A task waits with nothing in hand, looks only at flags that come with a sender it
holds, and gives away no more than it holds. -/
def allows (v : Nat → Nat) : Op → Prop
  | .awaitReply _ => ∀ q, v q = 0
  | .isCancelled r => ∀ q, single r q ≤ v q
  | e => ∀ q, releases e q ≤ v q

theorem releases_le {v : Nat → Nat} {e : Op} (h : allows v e) (q : Nat) : releases e q ≤ v q := by
  cases e <;> first | exact h q | exact Nat.zero_le _

/-- How many senders of each channel a task holds. -/
def monitor : Monitor Op Op.Resp Call Answer (Nat → Nat) where
  init
    | .cpuWorker w => single w.reply
    | _ => fun _ => 0
  next v e r := fun q => v q + gains e r q - releases e q
  allow := allows
  may _ _ _ := True
  fin _ _ v := v = fun _ => 0

@[simp] theorem monitor_next (v : Nat → Nat) (e : Op) (r : e.Resp) :
    monitor.next v e r = fun q => v q + gains e r q - releases e q := rfl

@[simp] theorem monitor_allow (v : Nat → Nat) (e : Op) : monitor.allow v e ↔ allows v e := Iff.rfl

@[simp] theorem monitor_may (v : Nat → Nat) (e : Op) (r : e.Resp) : monitor.may v e r := trivial

def quietAreas : List Area := [.routine, .compute, .config, .permit, .signal]

theorem quiet {e : Op} (h : e.Within quietAreas) (v : Nat → Nat) : monitor.Quiet v e := by
  cases e <;> simp [Op.Within, Op.area, quietAreas] at h
  all_goals exact ⟨fun _ => Nat.zero_le _, fun _ _ => rfl⟩

theorem quiet_wp {A : Type} {areas : List Area} {p : RouterM A} (h : p.All (Op.Within areas))
    (hq : areas ⊆ quietAreas) {post : A → (Nat → Nat) → Prop} {v : Nat → Nat}
    (hp : ∀ a, post a v) : p.wp monitor post v := h.wp (fun _ he => quiet (he.mono hq) v) hp

section Bodies

attribute [local simp] allows releases gains bumpRoute bumpKindRoute

theorem submitCpuPool_wp (job : Job) (frac : Option ℚ) :
    (submitCpuPool job frac).wp monitor (fun _ v => v = fun _ => 0) (fun _ => 0) := by
  simp [submitCpuPool]
  rintro r (_ | out)
  · simp
  · exact quiet_wp (submitCompleted_all job out) (by simp [quietAreas]) fun _ => rfl

theorem quiet_step {e : Op} (h : e.Within quietAreas) {A : Type} {f : e.Resp → RouterM A}
    {post : A → (Nat → Nat) → Prop} {v : Nat → Nat} (hf : ∀ r, (f r).wp monitor post v) :
    (Prog.perform e >>= f).wp monitor post v := Prog.wp_quiet (quiet h v) hf

theorem count_reply_cons (e : BatchEntry) (rest : List BatchEntry) (q : Nat) :
    ((e :: rest).map (·.reply)).count q = (rest.map (·.reply)).count q + single e.reply q := by
  rw [List.map_cons, List.count_cons, single]
  rcases eq_or_ne q e.reply with rfl | h
  · simp
  · simp [h, h.symm]

/-- A flush sends on the channels of the entries it took, whatever their order. -/
theorem flushEntries_wp (batch : List BatchEntry) (v : Nat → Nat)
    {post : Unit → (Nat → Nat) → Prop} (hp : post () v) :
    (flushEntries batch).wp monitor post (fun q => v q + (batch.map (·.reply)).count q) := by
  induction batch with
  | nil => simpa [flushEntries] using hp
  | cons e rest ih =>
    refine quiet_step (by simp [Op.Within, Op.area, quietAreas]) fun out => ⟨fun q => ?_, fun _ _ => ?_⟩
    · change single e.reply q ≤ v q + _
      rw [count_reply_cons]
      omega
    · have hv : monitor.next (fun q => v q + ((e :: rest).map (·.reply)).count q)
          (.sendReply e.reply out) () = fun q => v q + (rest.map (·.reply)).count q := by
        funext q
        simp only [monitor_next, count_reply_cons, gains, releases]
        omega
      rw [hv]
      exact ih

theorem count_insertionSort (taken : List BatchEntry) (q : Nat) :
    ((taken.insertionSort (fun a b => a.seq ≤ b.seq)).map (·.reply)).count q =
      (taken.map (·.reply)).count q :=
  ((List.perm_insertionSort _ taken).map _).count_eq q

theorem flushBatchKind_wp (kind : JobKind) (v : Nat → Nat) {post : Unit → (Nat → Nat) → Prop}
    (hp : post () v) : (flushBatchKind kind).wp monitor post v := by
  refine quiet_step (by simp [Op.Within, Op.area, quietAreas]) fun cfg => ⟨by simp, fun found _ => ?_⟩
  cases found with
  | false => simpa using hp
  | true =>
    refine ⟨by simp, fun taken _ => ?_⟩
    cases taken with
    | none => simpa using hp
    | some l =>
      refine Prog.wp_quiet ⟨fun _ => Nat.zero_le _, fun _ _ => rfl⟩ fun _ => ?_
      have hv : monitor.next (monitor.next v (.hasBatch kind) true)
          (.takeBatch kind cfg.batchMaxSize.toNat) (some l) = fun q => v q +
            ((l.insertionSort (fun a b => a.seq ≤ b.seq)).map (·.reply)).count q := by
        funext q
        simp [count_insertionSort]
      rw [hv]
      exact flushEntries_wp _ v hp

theorem batchReply_wp (job : Job) (r : Nat) :
    (batchReply job r).wp monitor (fun _ v => v = fun _ => 0) (fun _ => 0) := by
  refine ⟨by simp, fun out _ => ?_⟩
  cases out with
  | none => simp
  | some out => exact quiet_wp (submitCompleted_all job out) (by simp [quietAreas]) fun _ => rfl

theorem submitBatch_wp (job : Job) (cfg : RouterConfig) :
    (submitBatch job cfg).wp monitor (fun _ v => v = fun _ => 0) (fun _ => 0) := by
  simp [submitBatch]
  intro r seq len
  split
  · exact flushBatchKind_wp _ _ (batchReply_wp job r)
  · exact batchReply_wp job r

theorem cpuWorker_wp (w : CpuWork) :
    (cpuWorker w).wp monitor (fun _ v => v = fun _ => 0) (single w.reply) := by
  refine ⟨by simp, fun cancelled _ => ⟨by simp, ?_⟩⟩
  rintro (_ | out) <;> simp

theorem cpuDispatchLoop_wp :
    cpuDispatchLoop.wp monitor (fun _ v => v = fun _ => 0) (fun _ => 0) := by
  simp [cpuDispatchLoop]
  rintro (_ | w) <;> simp

theorem batchFlusher_wp (idx : Fin 3) :
    (batchFlusher idx).wp monitor (fun _ v => v = fun _ => 0) (fun _ => 0) := by
  simp [batchFlusher]
  exact fun _ => flushBatchKind_wp _ _ (by simp)

/-- Every task has let go of its senders when it ends. -/
theorem body_wp [F64Text] (c : Call) :
    (callBody c).wp monitor (monitor.fin c) (monitor.init c) := by
  cases c with
  | submit job =>
    refine (Prog.wp_bind _ _ _ _).mpr (submit_wp (fun e he => quiet ?_ _) (fun _ => rfl)
      (quiet_wp (submitFree_all job) (by simp [quietAreas]) fun _ => rfl)
      (fun frac => quiet_wp (submitInline_all job frac) (by simp [quietAreas]) fun _ => rfl)
      (fun frac => submitCpuPool_wp job frac) fun cfg => submitBatch_wp job cfg)
    simp [Op.Within, he, quietAreas]
  | run hint => exact quiet_wp (run_all hint) (by simp [quietAreas]) fun _ => rfl
  | cpuDispatchLoop => exact (Prog.wp_bind _ _ _ _).mpr cpuDispatchLoop_wp
  | cpuWorker w => exact (Prog.wp_bind _ _ _ _).mpr (cpuWorker_wp w)
  | batchFlusher idx => exact (Prog.wp_bind _ _ _ _).mpr (batchFlusher_wp idx)
  | _ =>
    exact quiet_wp ((callBody_all _ rfl).imp fun _ => Op.within_of_configures)
      (by simp [quietAreas]) fun _ => rfl

end Bodies

/-- What dropping a sender leaves of a slot. -/
def dropped : Slot → Slot
  | .waiting => .closed
  | slot => slot

theorem senderDropped_slot (c : Channel) : c.senderDropped.slot = dropped c.slot := by
  unfold Channel.senderDropped
  cases hc : c.slot <;> simp [dropped, hc]

theorem slot_congr {s s' : Inner} {q : Nat} (h : s'.replies = s.replies) : s'.slot q = s.slot q := by
  simp only [Inner.slot, h]

theorem slot_channel (s : Inner) (r : Nat) {f : Channel → Channel} {g : Slot → Slot}
    (hf : ∀ c, (f c).slot = g c.slot) (q : Nat) :
    (s.channel r f).slot q = if q = r then (s.slot q).map g else s.slot q := by
  simp only [Inner.slot, Inner.channel, List.getElem?_modify]
  rcases eq_or_ne q r with rfl | h
  · cases s.replies[q]? <;> simp [hf]
  · simp [h, h.symm]

theorem slot_close (s : Inner) (r q : Nat) :
    (s.close r).slot q = if q = r then (s.slot q).map dropped else s.slot q :=
  slot_channel s r senderDropped_slot q

theorem dropped_dropped (slot : Slot) : dropped (dropped slot) = dropped slot := by
  cases slot <;> rfl

/-- A dropped receiver closes the channels of what was in it. -/
theorem slot_dropAll (works : List CpuWork) (replies : List Channel) (q : Nat) :
    ((works.foldl (fun rs w => rs.modify w.reply Channel.senderDropped) replies)[q]?).map
      (·.slot) = if q ∈ works.map (·.reply) then ((replies[q]?).map (·.slot)).map dropped
        else (replies[q]?).map (·.slot) := by
  induction works generalizing replies with
  | nil => simp
  | cons w works ih =>
    rw [List.foldl_cons, ih, List.getElem?_modify]
    rcases eq_or_ne q w.reply with rfl | h
    · cases replies[w.reply]? <;> simp [senderDropped_slot, dropped_dropped]
    · simp [h, h.symm]

def waiting (s : Inner) (q : Nat) : Nat := if s.slot q = some .waiting then 1 else 0

theorem waiting_le_one (s : Inner) (q : Nat) : waiting s q ≤ 1 := by
  unfold waiting
  split <;> omega

/-- A slot that stops waiting, while the others stay. -/
theorem waiting_settled {s s' : Inner} {r : Nat} {g : Slot → Slot}
    (hs : ∀ q, s'.slot q = if q = r then (s.slot q).map g else s.slot q)
    (hg : ∀ slot, g slot ≠ .waiting) (q : Nat) (h : single r q ≤ waiting s q) :
    waiting s' q + single r q = waiting s q := by
  unfold waiting single at *
  rw [hs q]
  rcases eq_or_ne q r with rfl | hq
  · simp only [if_true] at h ⊢
    split at h
    · rename_i hw
      simp [hw, hg]
    · omega
  · simp [hq]

/-- The channels of all queued work, batched or in the CPU channel. -/
def queued (s : Inner) : List Nat :=
  (s.queue .hashMix ++ s.queue .primeCount ++ s.queue .monteCarloRisk).map (·.reply) ++
    s.cpuQueue.map (·.reply)

theorem queued_congr {s s' : Inner} (hb : s'.batches = s.batches) (hc : s'.cpuQueue = s.cpuQueue) :
    queued s' = queued s := by
  simp only [queued, Inner.queue, hb, hc]

/-- A batch queue that changes, counted by channel. -/
theorem count_queued_update (s s' : Inner) (k : JobKind) (entries : List BatchEntry)
    (hb : s'.batches = Function.update s.batches k (some entries)) (hc : s'.cpuQueue = s.cpuQueue)
    (q : Nat) : (queued s').count q + ((s.queue k).map (·.reply)).count q =
      (queued s).count q + (entries.map (·.reply)).count q := by
  cases k <;> simp [queued, Inner.queue, hb, hc] <;> omega

theorem waiting_oneshot (s : Inner) (job : Job) (q : Nat) :
    waiting { s with replies := s.replies ++ [{ job := job }] } q =
      waiting s q + single s.replies.length q := by
  unfold waiting single Inner.slot
  rcases Nat.lt_trichotomy q s.replies.length with h | rfl | h
  · simp [List.getElem?_append_left h, Nat.ne_of_lt h]
  · simp
  · have h1 : (s.replies ++ [{ job := job }])[q]? = none := by
      refine List.getElem?_eq_none ?_
      simp only [List.length_append, List.length_singleton]
      omega
    simp [h1, List.getElem?_eq_none (Nat.le_of_lt h), Nat.ne_of_gt h]

theorem waiting_congr {s s' : Inner} (h : s'.replies = s.replies) (q : Nat) :
    waiting s' q = waiting s q := by
  unfold waiting Inner.slot
  rw [h]

theorem waiting_of_slots {s s' : Inner} {q : Nat} (h : s'.slot q = s.slot q) :
    waiting s' q = waiting s q := by
  unfold waiting
  rw [h]

theorem slot_cancel (s : Inner) (r q : Nat) :
    (s.channel r (fun c => { c with cancelled := true })).slot q = s.slot q := by
  have h := slot_channel s r (f := fun c => { c with cancelled := true }) (g := id)
    (fun _ => rfl) q
  rw [h]
  simp

theorem dropped_ne_waiting (slot : Slot) : dropped slot ≠ .waiting := by
  cases slot <;> simp [dropped]

/-- The CPU channel that changes, counted by reply channel. -/
theorem count_queued_cpu {s s' : Inner} (hb : s'.batches = s.batches) (q : Nat) :
    (queued s').count q + (s.cpuQueue.map (·.reply)).count q =
      (queued s).count q + (s'.cpuQueue.map (·.reply)).count q := by
  simp [queued, Inner.queue, hb]
  omega

theorem count_reply_single (w : CpuWork) (q : Nat) :
    ([w].map (·.reply)).count q = single w.reply q := by
  rcases eq_or_ne q w.reply with rfl | h
  · simp [single]
  · simp [single, h, h.symm]

section Senders

variable {env : Env} {s s' : Inner} {new : List Call} {q : Nat}

/-- A job for the pool goes into the channel with its sender, or the sender is dropped. -/
theorem senders_trySend {w : CpuWork} {sent : Bool}
    (hx : (Op.trySend w).exec env s = some (sent, s', new)) (hle : single w.reply q ≤ waiting s q) :
    (queued s').count q + waiting s q =
      (queued s).count q + single w.reply q + waiting s' q := by
  have hb : s'.batches = s.batches := Op.exec_batches hx
  cases sent with
  | true =>
    have hq := count_queued_cpu hb q
    have hw : waiting s' q = waiting s q := waiting_congr (Op.exec_replies hx) q
    rw [Op.exec_cpuQueue hx] at hq
    simp only [Op.cpuQueueAfter, if_true, List.map_append, List.count_append,
      count_reply_single] at hq
    omega
  | false =>
    have hq : queued s' = queued s := queued_congr hb (Op.exec_cpuQueue hx)
    have hw : waiting s' q + single w.reply q = waiting s q := by
      refine waiting_settled (fun p => ?_) dropped_ne_waiting q hle
      rw [slot_congr (Op.exec_replies hx)]
      exact slot_close s w.reply p
    rw [hq]
    omega

/-- What a flush takes leaves the queue with its senders. -/
theorem senders_takeBatch {kind : JobKind} {m : Nat} {taken : Option (List BatchEntry)}
    (hx : (Op.takeBatch kind m).exec env s = some (taken, s', new)) :
    waiting s' q = waiting s q ∧
      (queued s).count q = (queued s').count q + gains (.takeBatch kind m) taken q := by
  rcases Op.exec_takeBatch hx with ⟨rfl, rfl, -⟩ | ⟨rfl, hs⟩
  · exact ⟨rfl, rfl⟩
  · refine ⟨waiting_congr (by rw [hs]) q, ?_⟩
    have hq := count_queued_update s s' kind ((s.queue kind).drop m) (by rw [hs]) (by rw [hs]) q
    have hsplit : ((s.queue kind).map (·.reply)).count q =
        (((s.queue kind).take m).map (·.reply)).count q +
          (((s.queue kind).drop m).map (·.reply)).count q := by
      rw [← List.count_append, ← List.map_append, List.take_append_drop]
    simp only [gains]
    omega

/-- The dispatcher takes the sender of the job it receives. -/
theorem senders_recvWork {got : Option CpuWork}
    (hx : Op.recvWork.exec env s = some (got, s', new)) :
    waiting s' q = waiting s q ∧
      (queued s).count q = (queued s').count q + gains .recvWork got q := by
  refine ⟨waiting_congr (Op.exec_replies hx) q, ?_⟩
  have hq := count_queued_cpu (Op.exec_batches hx) q
  cases got with
  | none =>
    have hstays : s'.cpuQueue = s.cpuQueue := Op.exec_cpuQueue hx
    rw [hstays] at hq
    simp only [gains]
    omega
  | some w =>
    have hcons : (s.cpuQueue.map (·.reply)).count q =
        (s'.cpuQueue.map (·.reply)).count q + single w.reply q := by
      rw [Op.exec_recvWork hx, List.map_cons, ← count_reply_single, List.count_cons]
      simp [List.count_cons]
    simp only [gains]
    omega

/-- A dropped receiver settles the channel of each job still queued. -/
theorem senders_dropReceiver {r : Unit} (hx : Op.dropReceiver.exec env s = some (r, s', new))
    (hle : (queued s).count q ≤ waiting s q) :
    (queued s').count q + waiting s q = (queued s).count q + waiting s' q := by
  have hb : s'.batches = s.batches := by cases hx; rfl
  have hnil : s'.cpuQueue = [] := by cases hx; rfl
  have hslot : s'.slot q = if q ∈ s.cpuQueue.map (·.reply) then (s.slot q).map dropped
      else s.slot q := by
    cases hx
    exact slot_dropAll s.cpuQueue s.replies q
  have hq := count_queued_cpu hb q
  rw [hnil, List.map_nil, List.count_nil, Nat.add_zero] at hq
  have hone := waiting_le_one s q
  suffices hw : waiting s' q + (s.cpuQueue.map (·.reply)).count q = waiting s q by omega
  by_cases hmem : q ∈ s.cpuQueue.map (·.reply)
  · have hpos := List.count_pos_iff.mpr hmem
    have hwait : s.slot q = some .waiting := by
      by_contra hn
      simp only [waiting, hn, if_false] at hle
      omega
    have hgone : waiting s' q = 0 := by
      simp [waiting, hslot, hmem, hwait, dropped]
    omega
  · rw [List.count_eq_zero_of_not_mem hmem]
    exact waiting_of_slots (by rw [hslot, if_neg hmem])

end Senders

attribute [local simp] gains releases Op.spawns

/-- What an operation does to one channel: whom it gives the sender, or how it settles. -/
theorem balance {e : Op} {env : Env} {s s' : Inner} {r : e.Resp} {new : List Call} {q n : Nat}
    (hx : e.exec env s = some (r, s', new)) (ha : releases e q ≤ n)
    (hle : n + (queued s).count q ≤ waiting s q) :
    n + gains e r q - releases e q + (e.spawns.map (fun c => monitor.init c q)).sum +
      (queued s').count q + waiting s q = n + (queued s).count q + waiting s' q := by
  cases e with
  | oneshot job =>
    have hq : queued s' = queued s := by cases hx; exact queued_congr rfl rfl
    have hw : waiting s' q = waiting s q + single r q := by cases hx; exact waiting_oneshot s job q
    simp [hq, hw]
    omega
  | trySend w =>
    simp only [releases] at ha
    have hsenders := senders_trySend hx (by omega : single w.reply q ≤ waiting s q)
    simp only [gains, releases, Op.spawns, List.map_nil, List.sum_nil]
    omega
  | sendReply c out =>
    simp only [releases] at ha
    have hq : queued s' = queued s := by cases hx; exact queued_congr rfl rfl
    have hw : waiting s' q + single c q = waiting s q := by
      refine waiting_settled (g := fun _ => .ready out) ?_ (fun _ => nofun) q (by omega)
      cases hx
      exact slot_channel s c fun _ => rfl
    simp [hq]
    omega
  | dropSender c =>
    simp only [releases] at ha
    have hq : queued s' = queued s := by cases hx; exact queued_congr rfl rfl
    have hw : waiting s' q + single c q = waiting s q := by
      refine waiting_settled (g := dropped) ?_ dropped_ne_waiting q (by omega)
      cases hx
      exact slot_close s c
    simp [hq]
    omega
  | pushBatch k entry =>
    simp only [releases] at ha
    have hw : waiting s' q = waiting s q := by cases hx; exact waiting_congr rfl q
    have hq := count_queued_update s s' k (s.queue k ++ [entry]) (by cases hx; rfl)
      (by cases hx; rfl) q
    have hone : ([entry].map (·.reply)).count q = single entry.reply q := by
      simpa using count_reply_cons entry [] q
    simp only [List.map_append, List.count_append, hone] at hq
    simp [hw]
    omega
  | takeBatch k m =>
    obtain ⟨hw, hq⟩ := senders_takeBatch (q := q) hx
    simp only [releases, Op.spawns, List.map_nil, List.sum_nil]
    omega
  | recvWork =>
    obtain ⟨hw, hq⟩ := senders_recvWork (q := q) hx
    simp only [releases, Op.spawns, List.map_nil, List.sum_nil]
    omega
  | dropReceiver =>
    have hsenders := senders_dropReceiver hx (by omega : (queued s).count q ≤ waiting s q)
    simp only [gains, releases, Op.spawns, List.map_nil, List.sum_nil]
    omega
  | cancel c =>
    have hq : queued s' = queued s := by cases hx; exact queued_congr rfl rfl
    have hw : waiting s' q = waiting s q := by
      cases hx
      exact waiting_of_slots (slot_cancel s c q)
    simp [hq, hw]
  | spawn c =>
    have hq : queued s' = queued s := by cases hx; exact queued_congr rfl rfl
    have hw : waiting s' q = waiting s q := by cases hx; exact waiting_congr rfl q
    cases c with
    | cpuWorker w =>
      simp only [releases] at ha
      simp [hq, hw, monitor]
      omega
    | _ => simp [hq, hw, monitor]
  | _ =>
    obtain ⟨hr, hb, hc⟩ := Op.exec_unrelayed hx rfl
    rw [queued_congr hb hc, waiting_congr hr]
    simp

/-- The senders of a channel that tasks hold. -/
def inHand (q : Nat) (p : RouterPool) : Nat := p.tally monitor (fun v => v q)

theorem held_le_inHand {p : RouterPool} {t : RouterTask} (ht : t ∈ p.tasks) (q : Nat) :
    t.view monitor q ≤ inHand q p := Pool.held_le_tally monitor (fun v => v q) ht

/-- Every waiting channel has one sender, with a task or with queued work. -/
theorem ledger [F64Text] : machine.Ledger monitor (fun _ _ => True) (fun _ => True)
    (fun q v => v q) (fun q s => (queued s).count q) (fun q s => waiting s q) where
  body := body_wp
  start c p hc _ q := by cases c <;> first | rfl | cases hc
  step k env p t e r s' new ht hx _ _ _ _ ha hbal := by
    have hx : e.exec env p.state = some (r, s', new) := hx
    refine ⟨trivial, trivial, fun q => ?_⟩
    have hle : t.view monitor q ≤ inHand q p := held_le_inHand ht q
    have hone : inHand q p + (queued p.state).count q = waiting p.state q := hbal q
    have hb := balance hx (releases_le ha q) (by omega)
    rw [Op.exec_new hx]
    exact hb

/-- A channel that is answered or closed. -/
def settled (s : Inner) (q : Nat) : Nat := if (s.slot q).any (· ≠ .waiting) then 1 else 0

theorem settled_map {s s' : Inner} {q : Nat} {g : Slot → Slot} (hg : ∀ slot, g slot ≠ .waiting)
    (hs : s'.slot q = s.slot q ∨ s'.slot q = (s.slot q).map g) : settled s q ≤ settled s' q := by
  unfold settled
  rcases hs with hs | hs <;> rw [hs]
  cases s.slot q <;> simp [hg]
  split <;> omega

/-- What is settled stays settled. -/
theorem settled_mono {e : Op} {env : Env} {s s' : Inner} {r : e.Resp} {new : List Call}
    (hx : e.exec env s = some (r, s', new)) (q : Nat) : settled s q ≤ settled s' q := by
  have hite : ∀ {c : Prop} [Decidable c] {g : Slot → Slot}, (∀ slot, g slot ≠ .waiting) →
      s'.slot q = (if c then (s.slot q).map g else s.slot q) → settled s q ≤ settled s' q := by
    intro c _ g hg h
    refine settled_map hg ?_
    split at h
    · exact Or.inr h
    · exact Or.inl h
  have hsame : s'.slot q = s.slot q → settled s q ≤ settled s' q :=
    fun h => settled_map dropped_ne_waiting (Or.inl h)
  cases e with
  | oneshot job =>
    cases hx
    unfold settled Inner.slot
    by_cases h : q < s.replies.length
    · rw [List.getElem?_append_left h]
    · rw [List.getElem?_eq_none (Nat.le_of_not_lt h)]
      simp
  | trySend w =>
    have hreplies := Op.exec_replies hx
    cases r with
    | true => exact hsame (slot_congr hreplies)
    | false => exact hite dropped_ne_waiting ((slot_congr hreplies).trans (slot_close s w.reply q))
  | sendReply c out =>
    cases hx
    exact hite (g := fun _ => .ready out) (fun _ => nofun) (slot_channel s c (fun _ => rfl) q)
  | dropSender c =>
    cases hx
    exact hite dropped_ne_waiting (slot_close s c q)
  | cancel c =>
    cases hx
    exact hsame (slot_cancel s c q)
  | dropReceiver =>
    cases hx
    exact hite dropped_ne_waiting (slot_dropAll s.cpuQueue s.replies q)
  | _ => exact hsame (slot_congr (Op.exec_replies hx))

theorem owned_once [F64Text] {cfg : RouterConfig} {p : RouterPool} (h : Reachable cfg p) :
    (∀ q, inHand q p + (queued p.state).count q = waiting p.state q) ∧
      ∀ t ∈ p.tasks, t.Follows monitor := by
  obtain ⟨p0, as, hn, hr⟩ := h
  obtain ⟨⟨-, hb⟩, hf⟩ := ledger_run ledger trivial (fun q => by
    simp [monitor, queued, Inner.queue, Inner.new, waiting, Inner.slot]) hn
    Machine.guarded_true hr
  exact ⟨hb, hf⟩

end HelixRouter.Replies
