import HelixRouter.Router.System

namespace HelixRouter

open Interleaving

namespace Op

/-- What an operation adds to a counter. -/
def adds : Op → Counter → Nat
  | .bump c n, c' => if c' = c then n else 0
  | .pushBatch k _, c' => if c' = .batchEnqueued k then 1 else 0
  | _, _ => 0

/-- The tasks an operation starts. -/
def spawns : Op → List Call
  | .spawn c => [c]
  | _ => []

/-- The configuration an operation leaves, and the snapshot it leaves. -/
def cfgAfter : Op → RouterConfig → RouterConfig
  | .writeCfg cfg, _ | .storeCfg cfg, _ => cfg
  | .scaleCfg rec, cfg => rec.applyTo cfg
  | _, cfg => cfg

def arcAfter : Op → RouterConfig → RouterConfig
  | .writeCfgArc cfg, _ => cfg
  | _, arc => arc

def slotsAfter : (e : Op) → e.Resp → Nat → Nat
  | .acquire, granted, n => if granted then n - 1 else n
  | .release, _, n => n + 1
  | _, _, n => n

def depthAfter : Op → UInt64 → UInt64
  | .depthAdd, d => d + 1
  | .depthSub, d => d - 1
  | _, d => d

/-- The CPU channel: what is in it and whether it has a receiver. -/
def cpuQueueAfter : (e : Op) → e.Resp → List CpuWork → List CpuWork
  | .trySend w, sent, q => if sent then q ++ [w] else q
  | .recvWork, got, q => if got.isSome then q.tail else q
  | .dropReceiver, _, _ => []
  | _, _, q => q

def cpuRxOpenAfter : Op → Bool → Bool
  | .dropReceiver, _ => false
  | _, isOpen => isOpen

def flusherSubscribedAfter : (e : Op) → e.Resp → Bool → Bool
  | .sleepOrShutdown, heard, subscribed => if heard then false else subscribed
  | _, _, subscribed => subscribed

/-- The reply channels and the batch queues an operation leaves. -/
def repliesAfter : (e : Op) → e.Resp → Inner → List Channel
  | .oneshot job, _, s => s.replies ++ [{ job := job }]
  | .trySend w, sent, s => if sent then s.replies else (s.close w.reply).replies
  | .sendReply r out, _, s => (s.channel r (fun c => { c with slot := .ready out })).replies
  | .dropSender r, _, s => (s.close r).replies
  | .cancel r, _, s => (s.channel r (fun c => { c with cancelled := true })).replies
  | .dropReceiver, _, s =>
    s.cpuQueue.foldl (fun rs w => rs.modify w.reply Channel.senderDropped) s.replies
  | _, _, s => s.replies

def batchesAfter : (e : Op) → e.Resp → Inner → JobKind → Option (List BatchEntry)
  | .pushBatch k entry, _, s => Function.update s.batches k (some (s.queue k ++ [entry]))
  | .takeBatch k n, taken, s =>
    if taken.isSome then Function.update s.batches k (some ((s.queue k).drop n)) else s.batches
  | _, _, s => s.batches

variable {e : Op} {env : Env} {s s' : Inner} {r : e.Resp} {new : List Call}

/-- What an operation leaves of each part of the state. -/
structure Leaves (e : Op) (s : Inner) (r : e.Resp) (s' : Inner) (new : List Call) : Prop where
  new_eq : new = e.spawns
  counters : ∀ c, s'.counters c = s.counters c + e.adds c
  cfg : s'.cfg = e.cfgAfter s.cfg
  cfgArc : s'.cfgArc = e.arcAfter s.cfgArc
  depth : s'.cpuQueueDepth = e.depthAfter s.cpuQueueDepth
  cpuSlots : s'.cpuSlots = e.slotsAfter r s.cpuSlots
  slotsClosed : s'.cpuSlotsClosed = s.cpuSlotsClosed
  cpuQueue : s'.cpuQueue = e.cpuQueueAfter r s.cpuQueue
  cpuRxOpen : s'.cpuRxOpen = e.cpuRxOpenAfter s.cpuRxOpen
  flusherSubscribed : s'.flusherSubscribed = e.flusherSubscribedAfter r s.flusherSubscribed
  cpuCap : s'.cpuCap = s.cpuCap

theorem adds_update (counters : Counter → Nat) (c : Counter) (n : Nat) (c' : Counter) :
    Function.update counters c (counters c + n) c' = counters c' + if c' = c then n else 0 := by
  rw [Function.update_apply]
  split
  · rename_i hc
    rw [hc]
  · rfl

/-- Every operation at once; the fields are used through the lemmas below. -/
theorem exec_leaves (h : e.exec env s = some (r, s', new)) : e.Leaves s r s' new := by
  unfold exec at h
  cases e <;> dsimp only at h
  case bump c n =>
    cases h
    exact ⟨rfl, adds_update _ _ _, rfl, rfl, rfl, rfl, rfl, rfl, rfl, rfl, rfl⟩
  case pushBatch k entry =>
    cases h
    exact ⟨rfl, adds_update _ _ _, rfl, rfl, rfl, rfl, rfl, rfl, rfl, rfl, rfl⟩
  case recvWork =>
    repeat' split at h
    all_goals first | contradiction | cases h
    all_goals
      exact ⟨rfl, fun _ => rfl, rfl, rfl, rfl, rfl, rfl, by simp_all [cpuQueueAfter], rfl, rfl, rfl⟩
  all_goals repeat' split at h
  all_goals first | contradiction | cases h
  all_goals exact ⟨rfl, fun _ => rfl, rfl, rfl, rfl, rfl, rfl, rfl, rfl, rfl, rfl⟩

theorem exec_new (h : e.exec env s = some (r, s', new)) : new = e.spawns := (exec_leaves h).new_eq

theorem exec_counters (h : e.exec env s = some (r, s', new)) (c : Counter) :
    s'.counters c = s.counters c + e.adds c := (exec_leaves h).counters c

theorem exec_cfg (h : e.exec env s = some (r, s', new)) : s'.cfg = e.cfgAfter s.cfg :=
  (exec_leaves h).cfg

theorem exec_cfgArc (h : e.exec env s = some (r, s', new)) : s'.cfgArc = e.arcAfter s.cfgArc :=
  (exec_leaves h).cfgArc

theorem exec_depth (h : e.exec env s = some (r, s', new)) :
    s'.cpuQueueDepth = e.depthAfter s.cpuQueueDepth := (exec_leaves h).depth

theorem exec_cpuSlots (h : e.exec env s = some (r, s', new)) :
    s'.cpuSlots = e.slotsAfter r s.cpuSlots := (exec_leaves h).cpuSlots

theorem exec_slotsClosed (h : e.exec env s = some (r, s', new)) :
    s'.cpuSlotsClosed = s.cpuSlotsClosed := (exec_leaves h).slotsClosed

theorem exec_cpuQueue (h : e.exec env s = some (r, s', new)) :
    s'.cpuQueue = e.cpuQueueAfter r s.cpuQueue := (exec_leaves h).cpuQueue

theorem exec_cpuRxOpen (h : e.exec env s = some (r, s', new)) :
    s'.cpuRxOpen = e.cpuRxOpenAfter s.cpuRxOpen := (exec_leaves h).cpuRxOpen

theorem exec_flusherSubscribed (h : e.exec env s = some (r, s', new)) :
    s'.flusherSubscribed = e.flusherSubscribedAfter r s.flusherSubscribed :=
  (exec_leaves h).flusherSubscribed

theorem exec_cpuCap (h : e.exec env s = some (r, s', new)) : s'.cpuCap = s.cpuCap :=
  (exec_leaves h).cpuCap

/-- A permit is granted only where one is free. -/
theorem exec_acquire (h : Op.acquire.exec env s = some (true, s', new)) : 0 < s.cpuSlots := by
  unfold exec at h
  dsimp only at h
  repeat' split at h
  all_goals first | contradiction | (cases h; done) | assumption

/-- No kind ever loses its queue. -/
theorem exec_batches_isSome (h : e.exec env s = some (r, s', new)) (k : JobKind)
    (hs : (s.batches k).isSome) : (s'.batches k).isSome := by
  unfold exec at h
  cases e <;> dsimp only at h
  all_goals repeat' split at h
  all_goals first
    | contradiction
    | (cases h; exact hs)
    | (cases h
       simp only [Inner.add, Function.update_apply]
       split <;> simp_all)

/-- A send needs a receiver and room. -/
theorem exec_trySend {w : CpuWork} (h : (Op.trySend w).exec env s = some (true, s', new)) :
    s.cpuRxOpen = true ∧ s.cpuQueue.length < s.cpuCap := by
  unfold exec at h
  dsimp only at h
  split at h
  · assumption
  · simp at h

theorem exec_recvWork {w : CpuWork} (h : Op.recvWork.exec env s = some (some w, s', new)) :
    s.cpuQueue = w :: s'.cpuQueue := by
  unfold exec at h
  dsimp only at h
  repeat' split at h
  all_goals first | contradiction | (simp at h; done) | (cases h; assumption)

/-- The operations that move work or settle a reply. -/
def relays : Op → Bool
  | .oneshot _ | .trySend _ | .sendReply _ _ | .dropSender _ | .cancel _ | .pushBatch _ _
  | .takeBatch _ _ | .recvWork | .dropReceiver => true
  | _ => false

theorem exec_replies (h : e.exec env s = some (r, s', new)) : s'.replies = e.repliesAfter r s := by
  unfold exec at h
  cases e <;> dsimp only at h
  all_goals repeat' split at h
  all_goals first | contradiction | (cases h; rfl)

theorem exec_batches (h : e.exec env s = some (r, s', new)) : s'.batches = e.batchesAfter r s := by
  unfold exec at h
  cases e <;> dsimp only at h
  all_goals repeat' split at h
  all_goals first | contradiction | (cases h; rfl)

/-- The others leave queues and reply channels alone. -/
theorem exec_unrelayed (h : e.exec env s = some (r, s', new)) (hr : e.relays = false) :
    s'.replies = s.replies ∧ s'.batches = s.batches ∧ s'.cpuQueue = s.cpuQueue := by
  unfold exec at h
  cases e <;> simp only [relays, Bool.true_eq_false] at hr
  all_goals dsimp only at h
  all_goals repeat' split at h
  all_goals first | contradiction | (cases h; exact ⟨rfl, rfl, rfl⟩)

theorem exec_takeBatch {k : JobKind} {n : Nat} {taken : Option (List BatchEntry)}
    (h : (Op.takeBatch k n).exec env s = some (taken, s', new)) :
    taken = none ∧ s' = s ∧ s.queue k = [] ∨
      taken = some ((s.queue k).take n) ∧ s' = { s with
        batches := Function.update s.batches k (some ((s.queue k).drop n)) } := by
  unfold exec at h
  dsimp only at h
  split at h
  · rename_i hq
    cases h
    exact Or.inl ⟨rfl, rfl, hq⟩
  · cases h
    exact Or.inr ⟨rfl, rfl⟩

/-- A wait ends with the reply that is there, or because none can come. -/
theorem exec_awaitReply {q : Nat} {reply : Option (List Output)}
    (h : (Op.awaitReply q).exec env s = some (reply, s', new)) :
    s' = s ∧ ((∃ out, reply = some out ∧ s.slot q = some (.ready out)) ∨
      reply = none ∧ s.slot q = some .closed) := by
  unfold exec at h
  dsimp only at h
  split at h
  · rename_i out hslot
    cases h
    exact ⟨rfl, Or.inl ⟨out, rfl, hslot⟩⟩
  · rename_i hslot
    cases h
    exact ⟨rfl, Or.inr ⟨rfl, hslot⟩⟩
  · cases h

theorem exec_acquire_closed {granted : Bool}
    (h : Op.acquire.exec env s = some (granted, s', new)) (hc : s.cpuSlotsClosed = false) :
    granted = true := by
  simp only [exec, hc] at h
  repeat' split at h
  all_goals first | contradiction | (cases h; rfl)

end Op

end HelixRouter
