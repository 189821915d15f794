import HelixRouter.Router.Footprints

namespace HelixRouter.QueueGauge

open Interleaving

/-- Where a task stands with the CPU channel: a submitter between its send and its
count, a dispatcher between two turns, or one with a job it has not counted off. -/
inductive Phase where
  | idle
  | sent
  | ready
  | holding
  | over
  deriving DecidableEq

def Phase.next (v : Phase) : (e : Op) → e.Resp → Phase
  | .trySend _, accepted => if accepted then .sent else v
  | .depthAdd, _ => .idle
  | .recvWork, work => if work.isSome then .holding else v
  | .depthSub, _ => .ready
  | .spawn .cpuDispatchLoop, _ => .over
  | .dropReceiver, _ => .over
  | _, _ => v

def Phase.allows (v : Phase) : Op → Prop
  | .trySend _ => v = .idle
  | .depthAdd => v = .sent
  | .recvWork | .dropReceiver | .spawn .cpuDispatchLoop => v = .ready
  | .depthSub => v = .holding
  | _ => True

def granted : (e : Op) → e.Resp → Prop
  | .acquire, ok => ok = true
  | _, _ => True

def monitor : Monitor Op Op.Resp Call Answer Phase where
  init
    | .cpuDispatchLoop => .ready
    | _ => .idle
  next := Phase.next
  allow := Phase.allows
  may _ e r := granted e r
  fin _ _ _ := True

@[simp] theorem monitor_next (v : Phase) (e : Op) (r : e.Resp) :
    monitor.next v e r = v.next e r := rfl

@[simp] theorem monitor_allow (v : Phase) (e : Op) : monitor.allow v e ↔ v.allows e := Iff.rfl

@[simp] theorem monitor_may (v : Phase) (e : Op) (r : e.Resp) :
    monitor.may v e r ↔ granted e r := Iff.rfl

def quietAreas : List Area := [.routine, .compute, .config, .permit, .reply, .batch, .signal]

theorem quiet {e : Op} (h : e.Within quietAreas) (v : Phase) : monitor.Quiet v e := by
  cases e with
  | trySend w => simp [Op.Within, Op.area, quietAreas] at h
  | depthAdd => simp [Op.Within, Op.area, quietAreas] at h
  | depthSub => simp [Op.Within, Op.area, quietAreas] at h
  | recvWork => simp [Op.Within, Op.area, quietAreas] at h
  | dropReceiver => simp [Op.Within, Op.area, quietAreas] at h
  | spawn c => simp [Op.Within, Op.area, quietAreas] at h
  | _ => exact ⟨trivial, fun _ _ => rfl⟩

theorem quiet_wp {A : Type} {areas : List Area} {p : RouterM A} (h : p.All (Op.Within areas))
    (hq : areas ⊆ quietAreas) {post : A → Phase → Prop} {v : Phase} (hp : ∀ a, post a v) :
    p.wp monitor post v := h.wp (fun _ he => quiet (he.mono hq) v) hp

section Bodies

attribute [local simp] Phase.next Phase.allows granted bumpRoute bumpKindRoute

theorem submitCpuPool_wp (job : Job) (frac : Option ℚ) :
    (submitCpuPool job frac).wp monitor (fun _ _ => True) .idle := by
  simp [submitCpuPool]
  rintro r (_ | out)
  · simp
  · exact quiet_wp (submitCompleted_all job out) (by simp [quietAreas]) fun _ => trivial

theorem cpuDispatchLoop_wp : cpuDispatchLoop.wp monitor (fun _ _ => True) .ready := by
  simp [cpuDispatchLoop]
  rintro (_ | w) <;> simp

theorem batchFlusher_wp (idx : Fin 3) :
    (batchFlusher idx).wp monitor (fun _ _ => True) .idle := by
  simp [batchFlusher]
  exact fun _ => quiet_wp (flushBatchKind_all _) (by simp [quietAreas]) fun _ => by simp

theorem body_wp [F64Text] (c : Call) :
    (callBody c).wp monitor (monitor.fin c) (monitor.init c) := by
  cases c with
  | submit job =>
    refine (Prog.wp_bind _ _ _ _).mpr (submit_wp (fun _ he => quiet ?_ _) (fun _ => trivial)
      (quiet_wp (submitFree_all job) (by simp [quietAreas]) fun _ => trivial)
      (fun frac => quiet_wp (submitInline_all job frac) (by simp [quietAreas]) fun _ => trivial)
      (fun frac => submitCpuPool_wp job frac) fun cfg =>
        quiet_wp (submitBatch_all job cfg) (by simp [quietAreas]) fun _ => trivial)
    simp [Op.Within, he, quietAreas]
  | run hint => exact quiet_wp (run_all hint) (by simp [quietAreas]) fun _ => trivial
  | cpuDispatchLoop => exact (Prog.wp_bind _ _ _ _).mpr cpuDispatchLoop_wp
  | cpuWorker w =>
    exact (Prog.wp_bind _ _ _ _).mpr
      (quiet_wp (cpuWorker_all w) (by simp [quietAreas]) fun _ => trivial)
  | batchFlusher idx => exact (Prog.wp_bind _ _ _ _).mpr (batchFlusher_wp idx)
  | _ =>
    exact quiet_wp ((callBody_all _ rfl).imp fun _ => Op.within_of_configures)
      (by simp [quietAreas]) fun _ => trivial

end Bodies

def Phase.one (phase v : Phase) : Nat := if v = phase then 1 else 0

/-- How many tasks are in a phase. -/
def inPhase (phase : Phase) (p : RouterPool) : Nat := p.tally monitor phase.one

inductive Account where
  | dispatcher
  | depth

def held : Account → Phase → Nat
  | .dispatcher, v => Phase.one .ready v + Phase.one .holding v
  | .depth, v => Phase.one .sent v + Phase.one .ready v

def stock : Account → Inner → Nat
  | .dispatcher, _ => 0
  | .depth, s => s.cpuQueueDepth.toNat

/-- One dispatcher has the receiver; it and the jobs in the channel are what the
counter, the uncounted sends and the idle dispatcher add up to. -/
def owed : Account → Inner → Nat
  | .dispatcher, s => s.cpuRxOpen.toNat
  | .depth, s => s.cpuQueue.length + s.cpuRxOpen.toNat

structure ChannelFits (s : Inner) : Prop where
  length_le : s.cpuQueue.length ≤ s.cpuCap
  cap_le : s.cpuCap ≤ maxPermits
  closed_empty : s.cpuRxOpen = false → s.cpuQueue = []
  slots_open : s.cpuSlotsClosed = false

/-- The dispatcher leaves only with nothing in the channel. -/
def LeavesEmpty (a : RouterAction) (p : RouterPool) : Prop :=
  picked a p = some .dropReceiver → p.state.cpuQueue = []

/-- The dispatcher counts a job off only while fewer sends are uncounted than jobs
are in the channel or in its hand. -/
def CountedFirst (a : RouterAction) (p : RouterPool) : Prop :=
  picked a p = some .depthSub → inPhase .sent p < p.state.cpuQueue.length + inPhase .holding p

/-- Neither the decrement nor the increment, with the one added to its result, wraps. -/
def NoWrap (a : RouterAction) (p : RouterPool) : Prop :=
  (picked a p = some .depthSub → p.state.cpuQueueDepth ≠ 0) ∧
    (picked a p = some .depthAdd → p.state.cpuQueueDepth.toNat + 1 < 2 ^ 64)

/-- With no send uncounted and no job in the dispatcher's hand, the counter is the number
of jobs in the channel, which is none once the channel is gone. -/
def Exact (p : RouterPool) : Prop :=
  inPhase .sent p = 0 → inPhase .holding p = 0 →
    p.state.cpuQueueDepth.toNat = p.state.cpuQueue.length ∧
      (p.state.cpuRxOpen = false → p.state.cpuQueueDepth = 0)

abbrev Balanced (p : RouterPool) : Prop := Machine.Balanced monitor ChannelFits held stock owed p

theorem Balanced.dispatcher {p : RouterPool} (h : Balanced p) :
    inPhase .ready p + inPhase .holding p = p.state.cpuRxOpen.toNat :=
  (Pool.tally_add _ _ p).symm.trans (h.2 .dispatcher)

theorem Balanced.depth {p : RouterPool} (h : Balanced p) :
    p.state.cpuQueueDepth.toNat + inPhase .sent p =
      p.state.cpuQueue.length + inPhase .holding p := by
  have hd := h.dispatcher
  have hq : inPhase .sent p + inPhase .ready p + p.state.cpuQueueDepth.toNat =
      p.state.cpuQueue.length + p.state.cpuRxOpen.toNat := by
    rw [inPhase, inPhase, ← Pool.tally_add]
    exact h.2 .depth
  omega

theorem ChannelFits.step {e : Op} {env : Env} {s s' : Inner} {r : e.Resp} {new : List Call}
    (h : ChannelFits s) (hx : e.exec env s = some (r, s', new)) : ChannelFits s' := by
  have hq := Op.exec_cpuQueue hx
  have ho := Op.exec_cpuRxOpen hx
  have hc := Op.exec_cpuCap hx
  have hs := Op.exec_slotsClosed hx
  refine ⟨?_, hc ▸ h.cap_le, fun hclosed => ?_, hs ▸ h.slots_open⟩
  · rw [hq, hc]
    cases e with
    | trySend w =>
      cases r with
      | false => exact h.length_le
      | true =>
        have := (Op.exec_trySend hx).2
        simp [Op.cpuQueueAfter]
        omega
    | recvWork =>
      have := h.length_le
      cases r <;> simp [Op.cpuQueueAfter] <;> omega
    | dropReceiver => exact Nat.zero_le _
    | _ => exact h.length_le
  · rw [hq]
    rw [ho] at hclosed
    cases e with
    | trySend w =>
      cases r with
      | false => exact h.closed_empty hclosed
      | true => simp [Op.cpuRxOpenAfter, (Op.exec_trySend hx).1] at hclosed
    | recvWork =>
      have := h.closed_empty hclosed
      cases r <;> simp [Op.cpuQueueAfter, this]
    | dropReceiver => rfl
    | _ => exact h.closed_empty hclosed

/-- The counter stays far from its limit. -/
theorem Balanced.depth_lt {p : RouterPool} (h : Balanced p) :
    p.state.cpuQueueDepth.toNat + 1 < 2 ^ 64 := by
  have hd := h.dispatcher
  have hq := h.depth
  have hl := h.1.length_le
  have hc : p.state.cpuCap ≤ maxPermits := h.1.cap_le
  have ho := Bool.toNat_le p.state.cpuRxOpen
  unfold maxPermits at hc
  omega

theorem toNat_add_one {d : UInt64} (h : d.toNat + 1 < 2 ^ 64) : (d + 1).toNat = d.toNat + 1 := by
  rw [UInt64.toNat_add]
  exact Nat.mod_eq_of_lt h

theorem toNat_sub_one {d : UInt64} (h : d ≠ 0) : (d - 1).toNat + 1 = d.toNat := by
  have hpos : 1 ≤ d.toNat := by
    refine Nat.pos_of_ne_zero fun h0 => h (UInt64.toNat.inj h0)
  have hle : (1 : UInt64) ≤ d := UInt64.le_iff_toNat_le.mpr hpos
  rw [UInt64.toNat_sub_of_le _ _ hle]
  exact Nat.sub_add_cancel hpos

attribute [local simp] held stock owed Phase.one Phase.next Op.spawns Op.cpuQueueAfter
  Op.cpuRxOpenAfter Op.depthAfter

theorem stock_congr {s s' : Inner} (hd : s'.cpuQueueDepth = s.cpuQueueDepth) (i : Account) :
    stock i s' = stock i s := by
  cases i with
  | dispatcher => rfl
  | depth => exact congrArg UInt64.toNat hd

theorem owed_congr {s s' : Inner} (hq : s'.cpuQueue = s.cpuQueue)
    (ho : s'.cpuRxOpen = s.cpuRxOpen) (i : Account) : owed i s' = owed i s := by
  cases i with
  | dispatcher => exact congrArg Bool.toNat ho
  | depth => exact congrArg₂ (·.length + Bool.toNat ·) hq ho

/-- Tasks that begin idle, and channels that are left alone, move nothing. -/
theorem balance_idle {s s' : Inner} {v : Phase} {spawns : List Call}
    (hq : s'.cpuQueue = s.cpuQueue) (ho : s'.cpuRxOpen = s.cpuRxOpen)
    (hd : s'.cpuQueueDepth = s.cpuQueueDepth) (i : Account)
    (hs : (spawns.map (fun c => held i (monitor.init c))).sum = 0) :
    held i v + (spawns.map (fun c => held i (monitor.init c))).sum + stock i s' + owed i s =
      held i v + stock i s + owed i s' := by
  rw [hs, stock_congr hd, owed_congr hq ho, Nat.add_zero]

/-- What one operation moves between the accounts. -/
theorem balance {e : Op} {env : Env} {s s' : Inner} {r : e.Resp} {new : List Call} {v : Phase}
    (hx : e.exec env s = some (r, s', new)) (ha : v.allows e)
    (hlt : s.cpuQueueDepth.toNat + 1 < 2 ^ 64) (hpos : e = .depthSub → s.cpuQueueDepth ≠ 0)
    (hdrop : e = .dropReceiver → s.cpuQueue = [] ∧ s.cpuRxOpen = true) (i : Account) :
    held i (v.next e r) + (e.spawns.map (fun c => held i (monitor.init c))).sum + stock i s' +
      owed i s = held i v + stock i s + owed i s' := by
  have hq := Op.exec_cpuQueue hx
  have ho := Op.exec_cpuRxOpen hx
  have hd := Op.exec_depth hx
  cases e with
  | trySend w =>
    cases ha
    cases r <;> cases i <;> simp [hq, ho, hd]
    omega
  | depthAdd =>
    cases ha
    have := toNat_add_one hlt
    cases i <;> simp [hq, ho, hd, this]
    omega
  | depthSub =>
    cases ha
    have := toNat_sub_one (hpos rfl)
    cases i <;> simp [hq, ho, hd]
    omega
  | recvWork =>
    cases ha
    cases r with
    | none => cases i <;> simp [hq, ho, hd]
    | some w =>
      have := congrArg List.length (Op.exec_recvWork hx)
      cases i <;> simp [hq, ho, hd] at this ⊢
      omega
  | dropReceiver =>
    cases ha
    obtain ⟨hnil, hopen⟩ := hdrop rfl
    cases i <;> simp [hq, ho, hd, hnil, hopen]
    omega
  | spawn c =>
    cases c with
    | cpuDispatchLoop =>
      cases ha
      cases i <;> simp [hq, ho, hd, monitor]
    | _ => exact balance_idle hq ho hd i (by cases i <;> rfl)
  | _ => exact balance_idle hq ho hd i rfl

/-- The books of the gauge balance while the dispatcher leaves an empty channel and
no decrement wraps. -/
theorem ledger [F64Text] {G : RouterAction → RouterPool → Prop}
    (hempty : ∀ a p, G a p → LeavesEmpty a p)
    (hpos : ∀ a p, G a p → Balanced p → picked a p = some .depthSub → p.state.cpuQueueDepth ≠ 0) :
    machine.Ledger monitor G ChannelFits held stock owed where
  body := body_wp
  start c p hc _ i := by cases c <;> cases i <;> first | rfl | cases hc
  step k env p t e r s' new ht hx hh hk hg hgood ha hbal := by
    have hx : e.exec env p.state = some (r, s', new) := hx
    have hb : Balanced p := ⟨hgood, hbal⟩
    have hsteps : picked (.step k env) p = some e := picked_step hk hh
    refine ⟨?_, hgood.step hx, fun i => ?_⟩
    · cases e with
      | acquire => exact Op.exec_acquire_closed hx hgood.slots_open
      | _ => trivial
    · rw [Op.exec_new hx]
      refine balance hx ha hb.depth_lt ?_ ?_ i
      · rintro rfl
        exact hpos _ p hg hb hsteps
      · rintro rfl
        refine ⟨hempty _ p hg hsteps, ?_⟩
        have hready : t.view monitor = .ready := ha
        have hle := Pool.held_le_tally monitor (held .dispatcher) ht
        have hone := hbal .dispatcher
        rw [hready] at hle
        simp at hle hone
        cases ho : p.state.cpuRxOpen with
        | true => rfl
        | false =>
          rw [ho, Bool.toNat_false] at hone
          omega

theorem always_balanced [F64Text] {G : RouterAction → RouterPool → Prop}
    (hempty : ∀ a p, G a p → LeavesEmpty a p)
    (hpos : ∀ a p, G a p → Balanced p → picked a p = some .depthSub → p.state.cpuQueueDepth ≠ 0)
    {cfg : RouterConfig} {p0 : RouterPool} {as : List RouterAction}
    (hn : Router.new cfg = some p0) (hg : machine.Guarded G as p0) :
    machine.Always Balanced as p0 := by
  obtain ⟨hcap, _⟩ := Router.new_bounds hn
  rw [Router.new_eq hn] at hg ⊢
  refine ledger_always (ledger hempty hpos) ⟨Nat.zero_le _, hcap, nofun, rfl⟩ (fun i => ?_) hg
  cases i <;> rfl

/-- Where the books balance, the counter is positive exactly if a send has been counted
for a job in the channel or in the dispatcher's hand. -/
theorem Balanced.depth_pos {p : RouterPool} (h : Balanced p) : p.state.cpuQueueDepth ≠ 0 ↔
    inPhase .sent p < p.state.cpuQueue.length + inPhase .holding p := by
  have hd := h.depth
  have h0 : p.state.cpuQueueDepth ≠ 0 ↔ p.state.cpuQueueDepth.toNat ≠ 0 :=
    ⟨fun h hz => h (UInt64.toNat.inj hz), fun h hz => h (congrArg UInt64.toNat hz)⟩
  rw [h0]
  omega

theorem Balanced.exact {p : RouterPool} (h : Balanced p) : Exact p := by
  intro hs hh
  have hd := h.depth
  refine ⟨by omega, fun hc => ?_⟩
  have hnil := h.1.closed_empty hc
  rw [hnil, hs, hh] at hd
  exact UInt64.toNat.inj hd

/-- A router whose dispatcher leaves an empty channel never wraps its depth counter and
counts exactly what is in the channel, if and only if no decrement overtakes the last
uncounted send. -/
theorem gauge_exact_iff [F64Text] {cfg : RouterConfig} {p0 : RouterPool} {as : List RouterAction}
    (hn : Router.new cfg = some p0) (he : machine.Guarded LeavesEmpty as p0) :
    (machine.Guarded NoWrap as p0 ∧ machine.Always Exact as p0) ↔
      machine.Guarded CountedFirst as p0 := by
  constructor
  · rintro ⟨hw, -⟩
    have hb := always_balanced (fun _ _ h => h.1) (fun _ _ h _ hs => h.2.1 hs) hn (he.and hw)
    exact hw.imp hb fun a p hp h hs => hp.depth_pos.mp (h.1 hs)
  · intro hc
    have hb := always_balanced (fun _ _ h => h.1) (fun _ _ h hp hs => hp.depth_pos.mpr (h.2 hs))
      hn (he.and hc)
    refine ⟨hc.imp hb fun a p hp h => ?_, hb.imp fun p hp => hp.exact⟩
    exact ⟨fun hs => hp.depth_pos.mpr (h hs), fun _ => hp.depth_lt⟩

def poolJob : Job := { inputs := [1], computeCost := 100000 }

def leavesEmpty (a : RouterAction) (p : RouterPool) : Bool :=
  match picked a p with
  | some .dropReceiver => p.state.cpuQueue.isEmpty
  | _ => true

def countedFirst (a : RouterAction) (p : RouterPool) : Bool :=
  match picked a p with
  | some .depthSub => inPhase .sent p < p.state.cpuQueue.length + inPhase .holding p
  | _ => true

theorem leavesEmpty_sound (a : RouterAction) (p : RouterPool) (h : leavesEmpty a p = true) :
    LeavesEmpty a p := by
  intro hs
  simpa [leavesEmpty, hs] using h

theorem countedFirst_sound (a : RouterAction) (p : RouterPool) (h : countedFirst a p = true) :
    CountedFirst a p := by
  intro hs
  simpa [countedFirst, hs] using h

/-- A job counted before it is dispatched. -/
def countedJob : List RouterAction := .start (.submit poolJob) :: (turns 2 14 {} ++ turns 0 3 {})

theorem gauge_counted_job : ∃ p0, Router.new {} = some p0 ∧
    machine.Guarded NoWrap countedJob p0 ∧ machine.Always Exact countedJob p0 := by
  have he : machine.Guarded LeavesEmpty countedJob (startPool {}) :=
    Machine.guarded_of_check leavesEmpty_sound (by decide +kernel)
  have hc : machine.Guarded CountedFirst countedJob (startPool {}) :=
    Machine.guarded_of_check countedFirst_sound (by decide +kernel)
  have hn : Router.new {} = some (startPool {}) := rfl
  exact ⟨_, hn, (gauge_exact_iff hn he).mpr hc⟩

/-- The dispatcher takes and counts off a job between its send and its count. -/
def overtakenSend : List RouterAction :=
  .start (.submit poolJob) :: (turns 2 13 {} ++ turns 0 3 {})

/-- A counted job is still in the channel when the dispatcher hears of the shutdown. -/
def lostJob : List RouterAction :=
  .start (.submit poolJob) :: .start .shutdown ::
    (turns 2 14 {} ++ turns 3 1 {} ++ turns 0 2 { shutdown := true })

/-- The counter wraps below zero, and it keeps a job lost with the channel. -/
theorem gauge_wraps : (∃ p, Reachable {} p ∧ p.state.cpuQueueDepth = 18446744073709551615) ∧
    ∃ p, Reachable {} p ∧ ¬ Exact p := by
  constructor
  · obtain ⟨p, hp, hd⟩ := exists_reachable {} overtakenSend
      (fun p => p.state.cpuQueueDepth == 18446744073709551615) (by decide +kernel)
    exact ⟨p, hp, by simpa using hd⟩
  · obtain ⟨p, hp, hd⟩ := exists_reachable {} lostJob
      (fun p => inPhase .sent p == 0 && inPhase .holding p == 0 && !p.state.cpuRxOpen &&
        p.state.cpuQueueDepth == 1) (by decide +kernel)
    simp only [Bool.and_eq_true, beq_iff_eq, Bool.not_eq_true'] at hd
    refine ⟨p, hp, fun h => ?_⟩
    have := (h hd.1.1.1 hd.1.1.2).2 hd.1.2
    rw [hd.2] at this
    cases this

end HelixRouter.QueueGauge
