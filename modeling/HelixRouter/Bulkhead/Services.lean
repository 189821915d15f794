import HelixRouter.Bulkhead.TryExecute
import HelixRouter.Interleaving.Moments
import Mathlib.Algebra.Order.BigOperators.Group.List
import Mathlib.Data.List.AList

namespace HelixRouter.ServiceBulkheads

open Interleaving Bulkhead

/-- The timeout is left to the environment: it may elapse whenever a call waits. -/
structure ServiceBulkheadConfig where
  maxConcurrent : UInt64 := 10
  maxQueueSize : UInt64 := 20
  deriving DecidableEq

structure BulkheadHandle where
  config : ServiceBulkheadConfig
  permits : Nat
  queueDepth : Nat := 0
  totalExecuted : Nat := 0
  totalRejected : Nat := 0

inductive ServiceBulkheadError where
  | serviceNotRegistered
  | queueFull
  | timeout
  deriving DecidableEq

/-- The handles that were ever made, and which of them each name has now. The names whose entry a
call still refers to lock their shards of the map. -/
structure ServiceBulkheadManager where
  services : AList (fun _ : String => Nat) := ∅
  handles : List BulkheadHandle := []
  refs : List String := []

/-- What the runtime decides where a call awaits. `none` drops it. -/
structure Env (T : Type) where
  permit : Awaited Unit := .ready ()
  output : Option T := none

/-- The atomic steps. Only `acquire` and `run` await. The first look-up's `Ref` is kept until
`dropRef`. -/
inductive Op where
  | getRef (service : String)
  | get (service : String)
  | dropRef (service : String)
  | insert (name : String) (config : ServiceBulkheadConfig)
  | tryAcquire (h : Nat)
  | loadQueue (h : Nat)
  | addQueue (h : Nat)
  | subQueue (h : Nat)
  | acquire (h : Nat)
  | run (h : Nat)
  | addExecuted (h : Nat)
  | addRejected (h : Nat)
  | release (h : Nat)
  deriving DecidableEq

variable {T : Type}

/-- A handle's configuration never changes. -/
abbrev Op.Resp (T : Type) : Op → Type
  | .getRef _ => Bool
  | .get _ => Option (Nat × ServiceBulkheadConfig)
  | .tryAcquire _ => Bool
  | .loadQueue _ => Nat
  | .acquire _ => Awaited Unit
  | .run _ => Option T
  | _ => Unit

inductive Call where
  | execute (service : String)
  | registerService (name : String) (config : ServiceBulkheadConfig)

namespace ServiceBulkheadManager

def insert (s : ServiceBulkheadManager) (name : String) (config : ServiceBulkheadConfig) :
    ServiceBulkheadManager :=
  { s with
    services := s.services.insert name s.handles.length
    handles := s.handles ++ [{ config, permits := config.maxConcurrent.toNat }] }

def get (s : ServiceBulkheadManager) (service : String) : Option (Nat × ServiceBulkheadConfig) :=
  (s.services.lookup service).bind fun h => (s.handles[h]?).map fun handle => (h, handle.config)

def getRef (s : ServiceBulkheadManager) (service : String) : Bool × ServiceBulkheadManager :=
  if (s.services.lookup service).isSome then (true, { s with refs := service :: s.refs })
  else (false, s)

def dropRef (s : ServiceBulkheadManager) (service : String) : ServiceBulkheadManager :=
  { s with refs := s.refs.erase service }

@[simp] theorem getRef_handles (s : ServiceBulkheadManager) (service : String) :
    (s.getRef service).2.handles = s.handles := by
  unfold getRef
  split <;> rfl

@[simp] theorem getRef_services (s : ServiceBulkheadManager) (service : String) :
    (s.getRef service).2.services = s.services := by
  unfold getRef
  split <;> rfl

end ServiceBulkheadManager

/-- What a step on one handle answers and does to it. A permit is granted only while one is
left. -/
def Op.onHandle : (e : Op) → Env T → BulkheadHandle → Option (e.Resp T × BulkheadHandle)
  | .getRef _, _, _ | .get _, _, _ | .dropRef _, _, _ | .insert _ _, _, _ => none
  | .tryAcquire _, _, b =>
    if b.permits = 0 then some (false, b) else some (true, { b with permits := b.permits - 1 })
  | .loadQueue _, _, b => some (b.queueDepth, b)
  | .addQueue _, _, b => some ((), { b with queueDepth := b.queueDepth + 1 })
  | .subQueue _, _, b => some ((), { b with queueDepth := b.queueDepth - 1 })
  | .acquire _, env, b =>
    match env.permit with
    | .ready () =>
      if b.permits = 0 then none else some (.ready (), { b with permits := b.permits - 1 })
    | answer => some (answer, b)
  | .run _, env, b => some (env.output, b)
  | .addExecuted _, _, b => some ((), { b with totalExecuted := b.totalExecuted + 1 })
  | .addRejected _, _, b => some ((), { b with totalRejected := b.totalRejected + 1 })
  | .release _, _, b => some ((), { b with permits := b.permits + 1 })

/-- The handle a step is about. -/
def Op.handle? : Op → Option Nat
  | .getRef _ | .get _ | .dropRef _ | .insert _ _ => none
  | .tryAcquire h | .loadQueue h | .addQueue h | .subQueue h | .acquire h | .run h
  | .addExecuted h | .addRejected h | .release h => some h

/-- An insert waits until nobody refers to the shard that it is for. -/
def Op.exec (shard : String → Nat) (e : Op) (env : Env T) (s : ServiceBulkheadManager) :
    Option (e.Resp T × ServiceBulkheadManager × List Call) :=
  match e with
  | .getRef service => some ((s.getRef service).1, (s.getRef service).2, [])
  | .get service => some (s.get service, s, [])
  | .dropRef service => some ((), s.dropRef service, [])
  | .insert name config =>
    if ∃ service ∈ s.refs, shard service = shard name then none
    else some ((), s.insert name config, [])
  | e => do
    let h ← e.handle?
    let b ← s.handles[h]?
    let (r, b) ← e.onHandle env b
    some (r, { s with handles := s.handles.set h b }, [])

abbrev ServicesM (T : Type) := Prog Op (Op.Resp T)

abbrev Op.perform (e : Op) : ServicesM T (e.Resp T) := Prog.perform e

inductive Answer (T : Type) where
  | returned (result : Except ServiceBulkheadError T)
  | dropped
  | registered
  | panicked

/-- With the permit in hand. It is given back when the call ends, however it does. -/
def runHeld (h : Nat) : ServicesM T (Answer T) := do
  match ← (Op.run h).perform with
  | none =>
    (Op.release h).perform
    pure .dropped
  | some output =>
    (Op.addExecuted h).perform
    (Op.release h).perform
    pure (.returned (.ok output))

/-- A call whose future is dropped while it waits is never resumed. -/
def waitPermit (h : Nat) : ServicesM T (Answer T) := do
  (Op.addQueue h).perform
  match ← (Op.acquire h).perform with
  | .dropped => pure .dropped
  | .ready () =>
    (Op.subQueue h).perform
    runHeld h
  | .elapsed =>
    (Op.subQueue h).perform
    (Op.addRejected h).perform
    pure (.returned (.error .timeout))

def executeOn (h : Nat) (config : ServiceBulkheadConfig) : ServicesM T (Answer T) := do
  if ← (Op.tryAcquire h).perform then runHeld h
  else
    let currentQueue ← (Op.loadQueue h).perform
    if config.maxQueueSize.toNat ≤ currentQueue then
      (Op.addRejected h).perform
      pure (.returned (.error .queueFull))
    else waitPermit h

def executeFound (service : String) : ServicesM T (Answer T) := do
  match ← (Op.get service).perform with
  | none => pure (.returned (.error .serviceNotRegistered))
  | some (h, config) => executeOn h config

/-- The map is asked twice, and the second answer is the one that counts. The `Ref` of the first is
shadowed and so goes last, when the call ends or is dropped. -/
def execute (service : String) : ServicesM T (Answer T) := do
  if ← (Op.getRef service).perform then
    let answer ← executeFound service
    (Op.dropRef service).perform
    pure answer
  else pure (.returned (.error .serviceNotRegistered))

/-- The semaphore refuses more permits than it can count. -/
def registerService (name : String) (config : ServiceBulkheadConfig) : ServicesM T (Answer T) :=
  if maxPermits < config.maxConcurrent.toNat then pure .panicked
  else do
    (Op.insert name config).perform
    pure .registered

def Call.body : Call → ServicesM T (Answer T)
  | .execute service => ServiceBulkheads.execute service
  | .registerService name config => ServiceBulkheads.registerService name config

abbrev ServiceTask (T : Type) := Task Op (Op.Resp T) Call (Answer T)

abbrev ServicePool (T : Type) := Pool Op (Op.Resp T) ServiceBulkheadManager Call (Answer T)

abbrev ServiceAction (T : Type) := Action (Env T) Call

/-- Any number of calls at once, on whichever clone. The map decides which names share a shard. -/
def machine (shard : String → Nat) :
    Machine Op (Op.Resp T) ServiceBulkheadManager (Env T) Call (Answer T) where
  exec := Op.exec shard
  body := Call.body
  external _ := true

def startPool : ServicePool T := ⟨{}, []⟩

section Exec

variable {shard : String → Nat} {e : Op} {env : Env T} {s s' : ServiceBulkheadManager} {r : e.Resp T} {new : List Call}
  {h : Nat}

/-- A step on a handle leaves the others and the names alone. -/
theorem Op.exec_handle (he : e.handle? = some h) (hx : e.exec shard env s = some (r, s', new)) :
    ∃ b b', s.handles[h]? = some b ∧ e.onHandle env b = some (r, b') ∧
      s' = { s with handles := s.handles.set h b' } ∧ new = [] := by
  have hexec : e.exec shard env s = (s.handles[h]?).bind fun b => (e.onHandle env b).bind fun rb =>
      some (rb.1, { s with handles := s.handles.set h rb.2 }, []) := by
    cases e <;> cases he <;> rfl
  obtain ⟨b, hb, hbind⟩ := Option.bind_eq_some_iff.mp (hexec.symm.trans hx)
  obtain ⟨⟨r', b'⟩, hon, heq⟩ := Option.bind_eq_some_iff.mp hbind
  cases heq
  exact ⟨b, b', hb, hon, rfl, rfl⟩

theorem Op.exec_insert {name : String} {config : ServiceBulkheadConfig} {r : Unit}
    (hx : (Op.insert name config).exec shard env s = some (r, s', new)) :
    (∀ service ∈ s.refs, shard service ≠ shard name) ∧ s' = s.insert name config ∧ new = [] := by
  simp only [Op.exec, Option.ite_none_left_eq_some] at hx
  obtain ⟨hfree, hx⟩ := hx
  cases hx
  exact ⟨fun service hmem heq => hfree ⟨service, hmem, heq⟩, rfl, rfl⟩

/-- No operation starts another call. -/
theorem Op.exec_new (hx : e.exec shard env s = some (r, s', new)) : new = [] := by
  cases he : e.handle? with
  | some h =>
    obtain ⟨b, b', -, -, -, hnew⟩ := Op.exec_handle he hx
    exact hnew
  | none =>
    cases e with
    | insert name config => exact (Op.exec_insert hx).2.2
    | _ => cases he <;> cases hx <;> rfl

end Exec

/-- What one call has taken from its handle and not given back, and what it has booked there. -/
structure Share where
  service : Option String := none
  refers : Bool := false
  handle : Option Nat := none
  queued : Nat := 0
  permits : Nat := 0
  executed : Nat := 0
  rejected : Nat := 0
  left : Bool := false

namespace Share

def next (v : Share) : (e : Op) → e.Resp T → Share
  | .getRef _, true => { v with refers := true }
  | .get _, some (h, _) => { v with handle := some h }
  | .dropRef _, _ => { v with refers := false }
  | .tryAcquire _, true => { v with permits := v.permits + 1 }
  | .addQueue _, _ => { v with queued := v.queued + 1 }
  | .subQueue _, _ => { v with queued := v.queued - 1 }
  | .acquire _, .ready () => { v with permits := v.permits + 1 }
  | .acquire _, .dropped => { v with left := true }
  | .addExecuted _, _ => { v with executed := v.executed + 1 }
  | .addRejected _, _ => { v with rejected := v.rejected + 1 }
  | .release _, _ => { v with permits := v.permits - 1 }
  | _, _ => v

def Holds (v : Share) (queued permits executed rejected : Nat) : Prop :=
  v.queued = queued ∧ v.permits = permits ∧ v.executed = executed ∧ v.rejected = rejected

/-- A call looks up its own service, and refers to the entry as long as it works on the handle. -/
def MayRefer (v : Share) : Op → Prop
  | .getRef service => v.service = some service ∧ v.refers = false ∧ v.handle = none
  | .insert _ _ => v.refers = false ∧ v.handle = none
  | .get service | .dropRef service => v.service = some service ∧ v.refers = true
  | _ => v.refers = true ∧ v.service.isSome

/-- A call works on the handle that it has got, and gives back only what it took. One that was
dropped in the queue does nothing more there. -/
def MayDo (v : Share) : Op → Prop
  | .getRef _ | .get _ | .insert _ _ => v.left = false ∧ v.Holds 0 0 0 0
  | .dropRef _ => v.left.toNat ≤ v.queued
  | .acquire h => v.left = false ∧ v.handle = some h ∧ v.Holds 1 0 0 0
  | .run h => v.left = false ∧ v.handle = some h ∧ v.Holds 0 1 0 0
  | .subQueue h => v.left = false ∧ v.handle = some h ∧ 1 ≤ v.queued
  | .release h => v.left = false ∧ v.handle = some h ∧ 1 ≤ v.permits
  | e => v.left = false ∧ v.handle = e.handle?

def Allows (v : Share) (e : Op) : Prop := v.MayRefer e ∧ v.MayDo e

/-- What a call that is through leaves behind. -/
def Through (v : Share) : Answer T → Prop
  | .returned (.ok _) => v.left = false ∧ v.Holds 0 0 1 0
  | .returned (.error .serviceNotRegistered) | .registered | .panicked =>
    v.left = false ∧ v.Holds 0 0 0 0
  | .returned (.error _) => v.left = false ∧ v.Holds 0 0 0 1
  | .dropped => v.Holds v.left.toNat 0 0 0

def Ended (v : Share) (a : Answer T) : Prop := v.refers = false ∧ v.Through a

theorem Through.left_le {v : Share} {a : Answer T} (h : v.Through a) : v.left.toNat ≤ v.queued := by
  cases a with
  | dropped => exact h.1.ge
  | returned result =>
    rcases result with (_ | _ | _) | _ <;>
    · rw [h.1]
      exact Nat.zero_le _
  | _ =>
    rw [h.1]
    exact Nat.zero_le _

theorem Allows.left_le {v : Share} {e : Op} (h : v.Allows e) : v.left.toNat ≤ v.queued := by
  cases e with
  | dropRef service => exact h.2
  | _ =>
    rw [h.2.1]
    exact Nat.zero_le _

/-- A call that is through but still refers to its entry. -/
def Leaving (service : String) (a : Answer T) (v : Share) : Prop :=
  v.service = some service ∧ v.refers = true ∧ v.Through a

end Share

def Call.service? : Call → Option String
  | execute service => some service
  | registerService _ _ => none

def monitor : Monitor Op (Op.Resp T) Call (Answer T) Share where
  init c := { service := c.service? }
  next := Share.next
  allow := Share.Allows
  may _ _ _ := True
  fin _ a v := v.Ended a

@[simp] theorem monitor_next (v : Share) (e : Op) (r : e.Resp T) :
    monitor.next v e r = v.next e r := rfl

@[simp] theorem monitor_allow (v : Share) (e : Op) : (monitor (T := T)).allow v e ↔ v.Allows e :=
  Iff.rfl

@[simp] theorem monitor_may (v : Share) (e : Op) (r : e.Resp T) : monitor.may v e r := trivial

section Bodies

variable (service : String)

attribute [local simp] Share.next Share.Allows Share.MayRefer Share.MayDo Share.Holds Op.handle?
  Share.Leaving Share.Through

theorem runHeld_wp (h : Nat) : (runHeld (T := T) h).wp monitor (Share.Leaving service)
    { service := some service, refers := true, handle := some h, permits := 1 } := by
  simp [runHeld]
  rintro (_ | output) <;> simp

theorem waitPermit_wp (h : Nat) : (waitPermit (T := T) h).wp monitor (Share.Leaving service)
    { service := some service, refers := true, handle := some h } := by
  simp [waitPermit]
  intro r
  cases r with
  | ready =>
    simp
    exact runHeld_wp service h
  | elapsed => simp
  | dropped => simp

theorem executeOn_wp (h : Nat) (config : ServiceBulkheadConfig) :
    (executeOn (T := T) h config).wp monitor (Share.Leaving service)
      { service := some service, refers := true, handle := some h } := by
  simp only [executeOn, Prog.wp_bind, Prog.wp_perform, Prog.wp_ite, Prog.wp_pure]
  refine ⟨⟨⟨rfl, rfl⟩, rfl, rfl⟩, fun free _ => ?_⟩
  split
  · rename_i hfree
    subst hfree
    exact runHeld_wp service h
  · rename_i hbusy
    rw [Bool.not_eq_true] at hbusy
    subst hbusy
    refine ⟨⟨⟨rfl, rfl⟩, rfl, rfl⟩, fun depth _ => ?_⟩
    split
    · simp
    · exact waitPermit_wp service h

theorem executeFound_wp : (executeFound (T := T) service).wp monitor (Share.Leaving service)
    { service := some service, refers := true } := by
  simp [executeFound]
  rintro (_ | ⟨h, config⟩)
  · simp
  · exact executeOn_wp service h config

theorem execute_wp : (execute (T := T) service).wp monitor (fun a v => v.Ended a)
    { service := some service } := by
  simp only [execute, Prog.wp_bind, Prog.wp_perform, Prog.wp_ite, Prog.wp_pure]
  refine ⟨by simp, fun found _ => ?_⟩
  split
  · rename_i hfound
    subst hfound
    refine Prog.wp_mono (executeFound_wp service) fun a v hv => ?_
    obtain ⟨hservice, hrefers, hthrough⟩ := hv
    exact ⟨⟨⟨hservice, hrefers⟩, hthrough.left_le⟩, fun _ _ => ⟨rfl, hthrough⟩⟩
  · rename_i habsent
    rw [Bool.not_eq_true] at habsent
    subst habsent
    simp [Share.Ended]

theorem body_wp (c : Call) :
    (c.body (T := T)).wp monitor (fun a v => v.Ended a) { service := c.service? } := by
  cases c with
  | execute service => exact execute_wp service
  | registerService name config =>
    simp [Call.body, registerService]
    split <;> simp [Share.Ended]

end Bodies

inductive Gauge where
  | queue
  | permits
  | executed
  | rejected

namespace Gauge

def share : Gauge → Share → Nat
  | queue, v => v.queued
  | permits, v => v.permits
  | executed, v => v.executed
  | rejected, v => v.rejected

def stock : Gauge → BulkheadHandle → Nat
  | permits, b => b.permits
  | _, _ => 0

def owed : Gauge → BulkheadHandle → Nat
  | queue, b => b.queueDepth
  | permits, b => b.config.maxConcurrent.toNat
  | executed, b => b.totalExecuted
  | rejected, b => b.totalRejected

end Gauge

/-- Each handle has an account for each of its gauges. -/
def held (i : Nat × Gauge) (v : Share) : Nat := if v.handle = some i.1 then i.2.share v else 0

def stock (i : Nat × Gauge) (s : ServiceBulkheadManager) : Nat :=
  ((s.handles[i.1]?).map i.2.stock).getD 0

def owed (i : Nat × Gauge) (s : ServiceBulkheadManager) : Nat :=
  ((s.handles[i.1]?).map i.2.owed).getD 0

section Books

variable {shard : String → Nat} {e : Op} {env : Env T} {v : Share} {b b' : BulkheadHandle}
  {r : e.Resp T} {g : Gauge} {h : Nat}

theorem handle_next (he : e.handle? = some h) (r : e.Resp T) : (v.next e r).handle = v.handle := by
  cases e with
  | get service => cases he
  | getRef service => cases he
  | tryAcquire => cases r <;> rfl
  | acquire => cases r <;> rfl
  | _ => rfl

theorem handle_of_allows (he : e.handle? = some h) (ha : v.Allows e) : v.handle = some h := by
  cases e <;> cases he <;> first | exact ha.2.2 | exact ha.2.2.1

attribute [local simp] Share.next Gauge.share Gauge.stock Gauge.owed

/-- A step on a handle balances there by itself. -/
theorem balance (hx : e.onHandle env b = some (r, b')) (ha : v.Allows e)
    (hq : v.queued ≤ b.queueDepth) :
    g.share (v.next e r) + g.stock b' + g.owed b = g.share v + g.stock b + g.owed b' := by
  cases e with
  | get service => cases hx
  | getRef service => cases hx
  | dropRef service => cases hx
  | insert name config => cases hx
  | tryAcquire =>
    simp only [Op.onHandle] at hx
    split at hx
    · cases hx
      cases g <;> rfl
    · cases hx
      cases g <;> simp
      omega
  | acquire =>
    simp only [Op.onHandle] at hx
    split at hx
    · split at hx
      · cases hx
      · cases hx
        cases g <;> simp
        omega
    · rename_i hnot
      cases hx
      cases hp : env.permit with
      | ready => exact absurd hp hnot
      | _ => cases g <;> simp
  | subQueue =>
    cases hx
    have hone : 1 ≤ v.queued := ha.2.2.2
    cases g <;> simp
    omega
  | release =>
    cases hx
    have hone : 1 ≤ v.permits := ha.2.2.2
    cases g <;> simp
    omega
  | _ =>
    cases hx
    cases g <;> simp <;> omega

/-- A new handle has all its permits. -/
theorem balance_insert (i : Nat × Gauge) (s : ServiceBulkheadManager) (name : String)
    (config : ServiceBulkheadConfig) :
    stock i (s.insert name config) + owed i s = stock i s + owed i (s.insert name config) := by
  obtain ⟨j, g⟩ := i
  simp only [stock, owed, ServiceBulkheadManager.insert]
  rcases Nat.lt_trichotomy j s.handles.length with hlt | rfl | hgt
  · rw [List.getElem?_append_left hlt, Nat.add_comm]
  · rw [List.getElem?_concat_length, List.getElem?_eq_none (Nat.le_refl _)]
    cases g <;> simp
  · rw [List.getElem?_eq_none hgt.le, List.getElem?_eq_none (by simp; omega)]

theorem held_of_not_holds {i : Nat × Gauge} (hv : v.Holds 0 0 0 0) : held i v = 0 := by
  obtain ⟨hq, hp, he, hr⟩ := hv
  unfold held
  split
  · obtain ⟨j, g⟩ := i
    cases g <;> assumption
  · rfl

theorem held_refers (i : Nat × Gauge) (v : Share) (refers : Bool) :
    held i { v with refers } = held i v := by
  obtain ⟨j, g⟩ := i
  cases g <;> rfl

/-- A step that is about no handle leaves every account as it is. -/
theorem balance_free {s s' : ServiceBulkheadManager} {new : List Call} {i : Nat × Gauge}
    (he : e.handle? = none) (hx : e.exec shard env s = some (r, s', new)) (ha : v.Allows e) :
    held i (v.next e r) + stock i s' + owed i s = held i v + stock i s + owed i s' := by
  cases e with
  | getRef service =>
    cases hx
    have hnext : held i (v.next (T := T) (.getRef service) (s.getRef service).1) = held i v := by
      cases (s.getRef service).1 with
      | true => exact held_refers i v true
      | false => rfl
    rw [hnext, stock, stock, owed, owed, ServiceBulkheadManager.getRef_handles]
  | get service =>
    cases hx
    have hnext : held i (v.next (T := T) (.get service) (s.get service)) = 0 := by
      refine held_of_not_holds ?_
      cases s.get service <;> exact ha.2.2
    rw [hnext, held_of_not_holds ha.2.2]
  | dropRef service =>
    cases hx
    exact congrArg (· + stock i s + owed i s) (held_refers i v false)
  | insert name config =>
    obtain ⟨-, rfl, -⟩ := Op.exec_insert hx
    have hbal := balance_insert i s name config
    simp only [Share.next]
    omega
  | _ => cases he

/-- A step on a handle leaves the accounts of the others alone. -/
theorem balance_other {s : ServiceBulkheadManager} {i : Nat × Gauge} (he : e.handle? = some h)
    (ha : v.Allows e) (hne : i.1 ≠ h) (b' : BulkheadHandle) :
    held i (v.next e r) = held i v ∧
      stock i { s with handles := s.handles.set h b' } = stock i s ∧
      owed i { s with handles := s.handles.set h b' } = owed i s := by
  have hhandle := handle_of_allows he ha
  have hother : ¬ some h = some i.1 := fun heq => hne (Option.some.inj heq).symm
  refine ⟨?_, ?_, ?_⟩
  · rw [held, held, handle_next he, hhandle, if_neg hother, if_neg hother]
  · rw [stock, stock, List.getElem?_set_ne (Ne.symm hne)]
  · rw [owed, owed, List.getElem?_set_ne (Ne.symm hne)]

/-- What the calls have of a handle and what it has itself add up to what it has been given,
whatever is done with the others. -/
theorem ledger (shard : String → Nat) : (machine (T := T) shard).Ledger monitor (fun _ _ => True)
    (fun _ => True) held stock owed where
  body := body_wp
  start _ _ _ _ i := by
    unfold held
    exact if_neg nofun
  step k env p t e r s' new ht hx _ _ _ _ ha hb := by
    replace hx : e.exec shard env p.state = some (r, s', new) := hx
    replace ha : (t.view monitor).Allows e := ha
    refine ⟨trivial, trivial, fun i => ?_⟩
    rw [Op.exec_new hx, List.map_nil, List.sum_nil, Nat.add_zero]
    cases he : e.handle? with
    | none => exact balance_free he hx ha
    | some h =>
      obtain ⟨b, b', hb', hon, rfl, -⟩ := Op.exec_handle he hx
      obtain ⟨j, g⟩ := i
      by_cases hj : j = h
      · subst hj
        have hhandle := handle_of_allows he ha
        have hqueue : (t.view monitor).queued ≤ b.queueDepth := by
          have hle := Pool.held_le_tally monitor (held (j, .queue)) ht
          have howed := hb (j, .queue)
          simp only [held, hhandle, if_true, Gauge.share, stock, owed, hb', Option.map_some,
            Option.getD_some, Gauge.stock, Gauge.owed] at hle howed
          omega
        have hset : (p.state.handles.set j b')[j]? = some b' :=
          List.getElem?_set_self (List.getElem?_eq_some_iff.mp hb').1
        simp only [held, monitor_next, handle_next he, hhandle, if_true, stock, owed, hset, hb',
          Option.map_some, Option.getD_some]
        exact balance hon ha hqueue
      · obtain ⟨hheld, hstock, howed⟩ := balance_other (i := (j, g)) (r := r) (s := p.state) he ha
          hj b'
        rw [monitor_next, hheld, hstock, howed]

end Books

section Refs

variable {shard : String → Nat} {service name : String}

/-- Each service has an account for the references to its entry. -/
def refers (service : String) (v : Share) : Nat :=
  (v.refers && v.service == some service).toNat

theorem refers_of_handle {v : Share} {e : Op} {h : Nat} (he : e.handle? = some h) (r : e.Resp T) :
    (v.next e r).refers = v.refers ∧ (v.next e r).service = v.service := by
  cases e with
  | get service => cases he
  | getRef service => cases he
  | dropRef service => cases he
  | tryAcquire => cases r <;> exact ⟨rfl, rfl⟩
  | acquire => cases r <;> exact ⟨rfl, rfl⟩
  | _ => exact ⟨rfl, rfl⟩

/-- An operation takes or lets go of a reference for the call that does it. -/
theorem refers_balance {e : Op} {env : Env T} {s s' : ServiceBulkheadManager} {r : e.Resp T}
    {new : List Call} {v : Share} (hx : e.exec shard env s = some (r, s', new)) (ha : v.Allows e)
    (service : String) (hle : refers service v ≤ s.refs.count service) :
    refers service (v.next e r) + s.refs.count service =
      refers service v + s'.refs.count service := by
  cases he : e.handle? with
  | some h =>
    obtain ⟨b, b', -, -, rfl, -⟩ := Op.exec_handle he hx
    obtain ⟨hrefers, hservice⟩ := refers_of_handle (v := v) he r
    rw [refers, hrefers, hservice, ← refers]
  | none =>
    cases e with
    | getRef other =>
      cases hx
      obtain ⟨hservice, hrefers, -⟩ := ha.1
      cases hl : (s.services.lookup other).isSome with
      | false => simp [ServiceBulkheadManager.getRef, hl, Share.next]
      | true =>
        simp only [ServiceBulkheadManager.getRef, hl, if_true, Share.next, refers, hservice,
          hrefers, List.count_cons]
        by_cases heq : other = service <;> simp [heq]
        omega
    | get other =>
      cases hx
      have hsame : refers service (v.next (T := T) (.get other) (s.get other)) =
          refers service v := by
        cases s.get other <;> rfl
      rw [hsame]
    | dropRef other =>
      cases hx
      obtain ⟨hservice, hrefers⟩ := ha.1
      simp only [ServiceBulkheadManager.dropRef, Share.next, refers, hservice, hrefers,
        List.count_erase] at hle ⊢
      generalize s.refs.count service = n at hle ⊢
      by_cases heq : other = service <;> simp [heq] at hle ⊢
      omega
    | insert name config =>
      obtain ⟨-, rfl, -⟩ := Op.exec_insert hx
      rfl
    | _ => cases he

theorem refsLedger (shard : String → Nat) : (machine (T := T) shard).Ledger monitor
    (fun _ _ => True) (fun _ => True) refers (fun _ _ => 0) (fun service s => s.refs.count service)
    where
  body := body_wp
  start _ _ _ _ _ := rfl
  step k env p t e r s' new ht hx _ _ _ _ ha hb := by
    refine ⟨trivial, trivial, fun service => ?_⟩
    have hheld := Pool.held_le_tally monitor (refers service) ht
    have howed : p.tally monitor (refers service) + 0 = p.state.refs.count service := hb service
    have hbal := refers_balance hx ha service (by omega)
    rw [Op.exec_new hx, List.map_nil, List.sum_nil, monitor_next]
    omega

/-- A call that refers to its entry works on the handle that the entry has. -/
def Current (s : ServiceBulkheadManager) (v : Share) : Prop :=
  ∀ service h, v.refers = true → v.service = some service → v.handle = some h →
    s.services.lookup service = some h

/-- Nothing is registered under a name whose entry a call refers to. -/
theorem Current.insert {s : ServiceBulkheadManager} {v : Share} (h : Current s v) {name : String}
    (config : ServiceBulkheadConfig) (hfree : refers name v = 0) :
    Current (s.insert name config) v := by
  intro service k hrefers hservice hhandle
  have hne : service ≠ name := by
    rintro rfl
    simp [refers, hrefers, hservice] at hfree
  rw [ServiceBulkheadManager.insert, AList.lookup_insert_ne hne]
  exact h service k hrefers hservice hhandle

/-- What a call does by itself leaves it with the handle that its entry has. -/
theorem Current.next {s s' : ServiceBulkheadManager} {v : Share} {e : Op} {env : Env T}
    {r : e.Resp T} {new : List Call} (h : Current s v)
    (hx : e.exec shard env s = some (r, s', new)) (ha : v.Allows e) : Current s' (v.next e r) := by
  cases he : e.handle? with
  | some k =>
    obtain ⟨b, b', -, -, rfl, -⟩ := Op.exec_handle he hx
    obtain ⟨hrefers, hservice⟩ := refers_of_handle (v := v) he r
    rwa [Current, hrefers, hservice, handle_next he]
  | none =>
    cases e with
    | getRef service =>
      cases hx
      intro name k hrefers _ hhandle
      have hnone : (v.next (T := T) (.getRef service) (s.getRef service).1).handle = none := by
        cases (s.getRef service).1 <;> exact ha.1.2.2
      exact nomatch hnone.symm.trans hhandle
    | get service =>
      cases hx
      intro name k hrefers hname hhandle
      cases hget : s.get service with
      | none =>
        rw [hget] at hrefers hname hhandle
        exact h name k hrefers hname hhandle
      | some found =>
        rw [hget] at hname hhandle
        obtain rfl : service = name := Option.some.inj (ha.1.1.symm.trans hname)
        obtain ⟨j, hj, hmap⟩ := Option.bind_eq_some_iff.mp hget
        obtain ⟨handle, -, rfl⟩ := Option.map_eq_some_iff.mp hmap
        exact hj.trans hhandle
    | dropRef service =>
      cases hx
      exact fun name k hrefers => nomatch hrefers
    | insert name config =>
      obtain ⟨-, rfl, -⟩ := Op.exec_insert hx
      intro service k hrefers
      exact nomatch ha.1.1.symm.trans hrefers
    | _ => cases he

/-- What a call does leaves the others with the handles that their entries have. -/
theorem Current.other {s s' : ServiceBulkheadManager} {v : Share} {e : Op} {env : Env T}
    {r : e.Resp T} {new : List Call} (h : Current s v)
    (hx : e.exec shard env s = some (r, s', new))
    (hrefs : ∀ service, refers service v ≤ s.refs.count service) : Current s' v := by
  cases he : e.handle? with
  | some k =>
    obtain ⟨b, b', -, -, rfl, -⟩ := Op.exec_handle he hx
    exact h
  | none =>
    cases e with
    | getRef service =>
      cases hx
      rwa [Current, ServiceBulkheadManager.getRef_services]
    | insert name config =>
      obtain ⟨hfree, rfl, -⟩ := Op.exec_insert hx
      have hnone : s.refs.count name = 0 := List.count_eq_zero.mpr fun hmem => hfree name hmem rfl
      exact h.insert config (Nat.eq_zero_of_le_zero (hnone ▸ hrefs name))
    | get service | dropRef service =>
      cases hx
      exact h
    | _ => cases he

theorem current_invariant (shard : String → Nat) : (machine (T := T) shard).Invariant monitor
    (fun _ _ => True) fun p =>
      Machine.Balanced monitor (fun _ => True) refers (fun _ _ => 0)
        (fun service s => s.refs.count service) p ∧
      ∀ t ∈ p.tasks, Current p.state (t.view monitor) where
  body := body_wp
  start c s tasks hc hg hj := by
    refine ⟨(refsLedger shard).invariant.start c s tasks hc hg hj.1, fun t ht => ?_⟩
    rcases List.mem_append.mp ht with hmem | hmem
    · exact hj.2 t hmem
    · rw [List.mem_singleton.mp hmem]
      exact fun service h hrefers => nomatch hrefers
  step input pre post t e next r s s' new hp hx hg hf ha hj := by
    obtain ⟨hmay, hbal⟩ := (refsLedger shard).invariant.step input pre post t e next r s s' new hp
      hx hg hf ha hj.1
    refine ⟨hmay, hbal, fun u hu => ?_⟩
    have hrefs : ∀ u ∈ pre ++ t :: post, ∀ service,
        refers service (u.view monitor) ≤ s.refs.count service := fun u hu service =>
      calc refers service (u.view monitor)
        _ ≤ Pool.tally monitor (refers service) ⟨s, pre ++ t :: post⟩ :=
          Pool.held_le_tally monitor (refers service) hu
        _ = s.refs.count service := hj.1.2 service
    have hother : ∀ u ∈ pre ++ t :: post, Current s' (u.view monitor) := fun u hu =>
      (hj.2 u hu).other hx (hrefs u hu)
    rw [Op.exec_new hx, List.map_nil, List.append_nil] at hu
    rcases eq_or_mem_replaced t hu with rfl | hmem
    · rw [Task.view_advance]
      exact (hj.2 t (by simp)).next hx ha
    · exact hother u hmem

end Refs

section Tasks

variable (h : Nat) (t : ServiceTask T)

/-- The handle that a call has got. -/
def got : Sigma (Op.Resp T) → Option Nat
  | ⟨.get _, some (h, _)⟩ => some h
  | _ => none

def handleOf : Option Nat := (t.trace.filterMap got).getLast?

def waits : Bool := t.prog.head? = some (.acquire h)

def runs : Bool := t.prog.head? = some (.run h)

/-- A call that was dropped in the queue is still counted there. -/
def isLeft : Sigma (Op.Resp T) → Bool
  | ⟨.acquire _, .dropped⟩ => true
  | _ => false

def leftQueue : Bool := handleOf t = some h && t.trace.any isLeft

def succeeded : Bool := handleOf t = some h && t.result? matches some (.returned (.ok _))

def turnedAway : Bool :=
  handleOf t = some h && match t.result? with
    | some (.returned (.error .queueFull)) | some (.returned (.error .timeout)) => true
    | _ => false

/-- A call is at rest before its first step, where it awaits, and once it has ended. -/
def AtRest : Prop := t.trace = [] ∨ (∃ h, waits h t ∨ runs h t) ∨ t.result?.isSome

variable {h t}

theorem view_handle (t : ServiceTask T) : (t.view monitor).handle = handleOf t := by
  have hfold : ∀ (evs : List (Sigma (Op.Resp T))) (v : Share),
      (evs.foldl (fun v ev => v.next ev.1 ev.2) v).handle =
        (evs.filterMap got).getLast?.or v.handle := by
    intro evs
    induction evs with
    | nil => exact fun v => rfl
    | cons ev evs ih =>
      intro v
      obtain ⟨e, r⟩ := ev
      have hnext : (v.next e r).handle = (got ⟨e, r⟩).or v.handle := by
        cases e with
        | getRef => cases r <;> rfl
        | get => cases r <;> rfl
        | tryAcquire => cases r <;> rfl
        | acquire => cases r <;> rfl
        | _ => rfl
      rw [List.foldl_cons, ih, hnext, List.filterMap_cons]
      cases hgot : got ⟨e, r⟩ with
      | none => rfl
      | some h =>
        rw [List.getLast?_cons]
        cases (evs.filterMap got).getLast? <;> rfl
  have hview := hfold t.trace { service := t.call.service? }
  rwa [Option.or_none] at hview

theorem view_left (t : ServiceTask T) : (t.view monitor).left = t.trace.any isLeft := by
  have hfold : ∀ (evs : List (Sigma (Op.Resp T))) (v : Share),
      (evs.foldl (fun v ev => v.next ev.1 ev.2) v).left = (v.left || evs.any isLeft) := by
    intro evs
    induction evs with
    | nil => simp
    | cons ev evs ih =>
      intro v
      obtain ⟨e, r⟩ := ev
      rw [List.foldl_cons, ih, List.any_cons, ← Bool.or_assoc]
      congr 1
      cases e with
      | getRef => cases r <;> simp [Share.next, isLeft]
      | get => cases r <;> simp [Share.next, isLeft]
      | tryAcquire => cases r <;> simp [Share.next, isLeft]
      | acquire => cases r <;> simp [Share.next, isLeft]
      | _ => simp [Share.next, isLeft]
  exact (hfold t.trace { service := t.call.service? }).trans (Bool.false_or _)

theorem head?_isNone : t.prog.head?.isNone = t.result?.isSome := by
  cases hp : t.prog <;> simp [Task.result?, hp]

/-- What a call has of a handle is what it waits for or has answered. -/
def Tells (t : ServiceTask T) (h : Nat) : Prop :=
  held (h, .queue) (t.view monitor) = (waits h t).toNat + (leftQueue h t).toNat ∧
  held (h, .permits) (t.view monitor) = (runs h t).toNat ∧
  held (h, .executed) (t.view monitor) = (succeeded h t).toNat ∧
  held (h, .rejected) (t.view monitor) = (turnedAway h t).toNat

theorem tells_of_ended (hf : t.Follows monitor) {a : Answer T} (hresult : t.result? = some a)
    (h : Nat) : Tells t h := by
  have hended : (t.view monitor).Ended a := hf.finished hresult
  have hhead : t.prog.head? = none := by
    rw [← Option.isNone_iff_eq_none, head?_isNone, hresult]
    rfl
  unfold Tells leftQueue succeeded turnedAway held waits runs
  rw [view_handle, ← view_left, hresult, hhead]
  by_cases hh : handleOf t = some h
  · cases a with
    | returned result =>
      cases result with
      | ok output =>
        obtain ⟨-, hl, hq, hp, he, hr⟩ := hended
        simp [hh, Gauge.share, hq, hp, he, hr, hl]
      | error err =>
        cases err <;> obtain ⟨-, hl, hq, hp, he, hr⟩ := hended <;>
          simp [hh, Gauge.share, hq, hp, he, hr, hl]
    | dropped =>
      obtain ⟨-, hq, hp, he, hr⟩ := hended
      simp [hh, Gauge.share, hq, hp, he, hr]
    | _ =>
      obtain ⟨-, hl, hq, hp, he, hr⟩ := hended
      simp [hh, Gauge.share, hq, hp, he, hr, hl]
  · simp [hh]

/-- A call that has not done anything yet has nothing. -/
theorem tells_of_fresh (hf : t.Follows monitor) (hfresh : t.trace = []) (hresult : t.result? = none)
    (h : Nat) : Tells t h := by
  have hnone : handleOf t = none := by rw [handleOf, hfresh]; rfl
  have hnot : ∀ e, e.handle? = some h → ¬ t.prog.head? = some e := fun e he hhead => by
    have hview := view_handle t
    rw [handle_of_allows he (hf.allowed_head hhead), hnone] at hview
    cases hview
  have hwaits : waits h t = false := decide_eq_false (hnot (.acquire h) rfl)
  have hruns : runs h t = false := decide_eq_false (hnot (.run h) rfl)
  unfold Tells leftQueue succeeded turnedAway held
  rw [view_handle, hnone, hresult, hwaits, hruns]
  simp

theorem tells_of_awaiting (hf : t.Follows monitor) {h' : Nat} (hawaits : waits h' t ∨ runs h' t)
    (h : Nat) : Tells t h := by
  have hhead : t.prog.head? = some (.acquire h') ∨ t.prog.head? = some (.run h') := by
    simpa [waits, runs] using hawaits
  unfold Tells leftQueue succeeded turnedAway held
  rw [view_handle, ← view_left]
  rcases hhead with hhead | hhead
  all_goals
    have hresult : t.result? = none := by
      rw [← Option.not_isSome_iff_eq_none, ← head?_isNone, hhead]
      exact Bool.false_ne_true
    obtain ⟨-, hl, hh, hq, hp, he, hr⟩ := hf.allowed_head hhead
    rw [hresult, waits, runs, hhead]
    by_cases hsame : h' = h
    · simp [← view_handle, hh, hsame, Gauge.share, hq, hp, he, hr, hl]
    · simp [← view_handle, hh, hsame, hl]

theorem tells_at_rest (hf : t.Follows monitor) (hr : AtRest t) (h : Nat) : Tells t h := by
  cases hresult : t.result? with
  | some a => exact tells_of_ended hf hresult h
  | none =>
    rcases hr with hfresh | ⟨h', hawaits⟩ | hended
    · exact tells_of_fresh hf hfresh hresult h
    · exact tells_of_awaiting hf hawaits h
    · rw [hresult] at hended
      cases hended

/-- At any time a call that runs has a permit, and one that was dropped in the queue a place
there. -/
theorem toNat_le_held (hf : t.Follows monitor) (h : Nat) :
    (runs h t).toNat ≤ held (h, .permits) (t.view monitor) ∧
    (leftQueue h t).toNat ≤ held (h, .queue) (t.view monitor) := by
  constructor
  · cases hruns : runs h t with
    | false => exact Nat.zero_le _
    | true =>
      obtain ⟨-, -, hh, -, hp, -⟩ := hf.allowed_head (of_decide_eq_true hruns)
      rw [held, if_pos hh, Gauge.share, hp]
      exact Nat.le_refl 1
  · cases hleft : leftQueue h t with
    | false => exact Nat.zero_le _
    | true =>
      obtain ⟨hhandle, hany⟩ := Bool.and_eq_true_iff.mp hleft
      have hle : (t.view monitor).left.toNat ≤ (t.view monitor).queued := by
        cases hp : t.prog with
        | op e next => exact (hf.allowed hp).left_le
        | ret a => exact Share.Through.left_le (hf.finished (by rw [Task.result?, hp])).2
      rw [held, if_pos ((view_handle t).trans (of_decide_eq_true hhandle))]
      rwa [view_left, hany] at hle

end Tasks

section Runs

variable {shard : String → Nat} {as : List (ServiceAction T)} {p : ServicePool T} {h : Nat} {b : BulkheadHandle}

def count (f : ServiceTask T → Bool) (p : ServicePool T) : Nat := (p.tasks.filter f).length

theorem count_eq_sum (f : ServiceTask T → Bool) (p : ServicePool T) :
    count f p = (p.tasks.map fun t => (f t).toNat).sum := by
  unfold count
  induction p.tasks with
  | nil => rfl
  | cons t ts ih =>
    rw [List.map_cons, List.sum_cons, ← ih]
    cases hf : f t with
    | true => rw [List.filter_cons_of_pos hf, List.length_cons, Bool.toNat_true, Nat.add_comm]
    | false => rw [List.filter_cons_of_neg (by simp [hf]), Bool.toNat_false, Nat.zero_add]

theorem count_eq_tally {f : ServiceTask T → Bool} {i : Nat × Gauge}
    (hall : ∀ t ∈ p.tasks, held i (t.view monitor) = (f t).toNat) :
    p.tally monitor (held i) = count f p := by
  rw [count_eq_sum, Pool.tally, List.map_congr_left hall]

theorem run_balanced (hr : (machine shard).run as startPool = some p) :
    Machine.Balanced monitor (fun _ => True) held stock owed p ∧
      ∀ t ∈ p.tasks, t.Follows monitor :=
  (ledger shard).run Machine.guarded_true hr (by simp [startPool])
    ⟨trivial, fun i => by simp [startPool, Pool.tally, stock, owed]⟩

theorem run_current (hr : (machine shard).run as startPool = some p) :
    ∀ t ∈ p.tasks, Current p.state (t.view monitor) := by
  refine ((current_invariant shard).run Machine.guarded_true hr (by simp [startPool]) ?_).1.2
  exact ⟨⟨trivial, fun service => rfl⟩, by simp [startPool]⟩

/-- A call under way that has a handle refers to the entry of its service. -/
theorem refers_of_unfinished {t : ServiceTask T} (hf : t.Follows monitor)
    (hhandle : handleOf t = some h) (hopen : t.result? = none) :
    (t.view monitor).refers = true ∧ ∃ service, t.call = .execute service ∧
      (t.view monitor).service = some service := by
  have hview : (t.view monitor).service = t.call.service? := by
    refine Task.view_const monitor Share.service (fun v e r => ?_) t
    cases e with
    | getRef => cases r <;> rfl
    | get => cases r <;> rfl
    | tryAcquire => cases r <;> rfl
    | acquire => cases r <;> rfl
    | _ => rfl
  have hcall : ∀ {service}, (t.view monitor).service = some service →
      ∃ service, t.call = .execute service ∧ (t.view monitor).service = some service := by
    intro service hservice
    rw [hview] at hservice ⊢
    cases hc : t.call with
    | execute name => exact ⟨name, rfl, rfl⟩
    | registerService name config => exact nomatch (hc ▸ hservice :)
  rw [← view_handle] at hhandle
  cases hp : t.prog with
  | ret a => exact nomatch hopen.symm.trans (by rw [Task.result?, hp] : t.result? = some a)
  | op e next =>
    have ha : (t.view monitor).Allows e := hf.allowed hp
    cases e with
    | getRef service => exact nomatch ha.1.2.2.symm.trans hhandle
    | insert name config => exact nomatch ha.1.2.symm.trans hhandle
    | get service | dropRef service => exact ⟨ha.1.2, hcall ha.1.1⟩
    | _ =>
      obtain ⟨service, hservice⟩ := Option.isSome_iff_exists.mp ha.1.2
      exact ⟨ha.1.1, hcall hservice⟩

/-- Whatever is registered again and whatever is dropped, no handle ever runs more calls than it
allows, and the calls under way on it are for a service that has it now. Between the steps of its
calls, each permit is free or with one of the calls that run, and the counters say what happened to
the calls, except that the queue never lets go of those that were dropped in it. -/
theorem service_books (hr : (machine shard).run as startPool = some p)
    (hb : p.state.handles[h]? = some b) :
    count (runs h) p + b.permits ≤ b.config.maxConcurrent.toNat ∧
    count (leftQueue h) p ≤ b.queueDepth ∧
    (∀ t ∈ p.tasks, handleOf t = some h → t.result? = none → ∃ service,
      t.call = .execute service ∧ p.state.services.lookup service = some h) ∧
    ((∀ t ∈ p.tasks, AtRest t) →
      count (runs h) p + b.permits = b.config.maxConcurrent.toNat ∧
      b.queueDepth = count (waits h) p + count (leftQueue h) p ∧
      b.totalExecuted = count (succeeded h) p ∧
      b.totalRejected = count (turnedAway h) p) := by
  obtain ⟨⟨-, hbal⟩, hf⟩ := run_balanced hr
  have hbooks : ∀ g : Gauge, p.tally monitor (held (h, g)) + g.stock b = g.owed b := fun g => by
    have hg := hbal (h, g)
    rwa [stock, owed, hb] at hg
  have hqueue : p.tally monitor (held (h, .queue)) + 0 = b.queueDepth := hbooks .queue
  have hpermits : p.tally monitor (held (h, .permits)) + b.permits =
    b.config.maxConcurrent.toNat := hbooks .permits
  have hexecuted : p.tally monitor (held (h, .executed)) + 0 = b.totalExecuted := hbooks .executed
  have hrejected : p.tally monitor (held (h, .rejected)) + 0 = b.totalRejected := hbooks .rejected
  refine ⟨?_, ?_, fun t ht hhandle hopen => ?_, fun hrest => ?_⟩
  · have hle : count (runs h) p ≤ p.tally monitor (held (h, .permits)) := by
      rw [count_eq_sum, Pool.tally]
      exact List.sum_le_sum fun t ht => (toNat_le_held (hf t ht) h).1
    omega
  · have hle : count (leftQueue h) p ≤ p.tally monitor (held (h, .queue)) := by
      rw [count_eq_sum, Pool.tally]
      exact List.sum_le_sum fun t ht => (toNat_le_held (hf t ht) h).2
    omega
  · obtain ⟨hrefers, service, hcall, hservice⟩ := refers_of_unfinished (hf t ht) hhandle hopen
    exact ⟨service, hcall, run_current hr t ht service h hrefers hservice
      ((view_handle t).trans hhandle)⟩
  · have hshare := fun t ht => tells_at_rest (hf t ht) (hrest t ht) h
    rw [count_eq_tally fun t ht => (hshare t ht).2.1] at hpermits
    rw [count_eq_tally fun t ht => (hshare t ht).2.2.1] at hexecuted
    rw [count_eq_tally fun t ht => (hshare t ht).2.2.2] at hrejected
    have hboth : p.tally monitor (held (h, .queue)) =
        count (waits h) p + count (leftQueue h) p := by
      rw [count_eq_sum, count_eq_sum, ← List.sum_map_add, Pool.tally,
        List.map_congr_left fun t ht => (hshare t ht).1]
    omega

def turns (i n : Nat) (env : Env T) : List (ServiceAction T) := List.replicate n (.step i env)

/-- While one call runs another is dropped in the queue and a third finds the queue full for it. The
service is registered again once the first is through, and a fourth runs on its new handle. -/
def registeredAgain : List (ServiceAction Unit) :=
  .start (.registerService "search" ⟨1, 1⟩) :: turns 0 1 {} ++
    .start (.execute "search") :: turns 1 3 {} ++
    .start (.execute "search") :: turns 2 7 { permit := .dropped } ++
    .start (.execute "search") :: turns 3 6 {} ++
    .start (.registerService "search" ⟨1, 1⟩) :: turns 1 4 { output := some () } ++ turns 4 1 {} ++
    .start (.execute "search") :: turns 5 3 {}

theorem service_books_registeredAgain : ∃ p b,
    (machine String.length).run registeredAgain startPool = some p ∧
    p.state.handles[0]? = some b ∧ count (runs 1) p = 1 ∧
    count (runs 0) p + b.permits = b.config.maxConcurrent.toNat ∧
    b.queueDepth = count (waits 0) p + count (leftQueue 0) p ∧ count (leftQueue 0) p = 1 ∧
    b.totalExecuted = count (succeeded 0) p ∧ count (succeeded 0) p = 1 ∧
    b.totalRejected = count (turnedAway 0) p ∧ count (turnedAway 0) p = 1 := by
  have hsome : (((machine String.length).run registeredAgain startPool).any fun p =>
      p.tasks.all (fun t => t.result?.isSome || runs 0 t || runs 1 t) &&
        p.state.handles[0]?.isSome && count (runs 1) p == 1 && count (leftQueue 0) p == 1 &&
        count (succeeded 0) p == 1 && count (turnedAway 0) p == 1) = true := by decide +kernel
  obtain ⟨p, hr, hp⟩ := (Option.any_eq_true _ _).mp hsome
  simp only [Bool.and_eq_true, beq_iff_eq, List.all_eq_true] at hp
  obtain ⟨⟨⟨⟨⟨hall, hhandle⟩, hruns⟩, hleft⟩, hdone⟩, haway⟩ := hp
  obtain ⟨b, hb⟩ := Option.isSome_iff_exists.mp hhandle
  have hrest : ∀ t ∈ p.tasks, AtRest t := fun t ht => by
    have hcheck := hall t ht
    simp only [Bool.or_eq_true] at hcheck
    rcases hcheck with (hend | hrun) | hrun
    · exact .inr (.inr hend)
    · exact .inr (.inl ⟨0, .inr hrun⟩)
    · exact .inr (.inl ⟨1, .inr hrun⟩)
  obtain ⟨hpermits, hqueue, hexecuted, hrejected⟩ := (service_books hr hb).2.2.2 hrest
  exact ⟨p, b, hr, hb, hruns, hpermits, hqueue, hleft, hexecuted, hdone, hrejected, haway⟩

end Runs

end HelixRouter.ServiceBulkheads
