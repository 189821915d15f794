import HelixRouter.Coalescing.RequestCoalescer
import HelixRouter.Interleaving.Ledger
import HelixRouter.Interleaving.Moments

namespace HelixRouter.Coalescing

open Interleaving

inductive Counter where
  | total
  | coalesced
  | miss
  deriving DecidableEq

def Op.counted : (e : Op) → e.Resp → List Counter
  | .countTotal, _ => [.total]
  | .countCoalesced, _ => [.coalesced]
  | .countMiss, _ => [.miss]
  | _, _ => []

/-- The channels a caller has come to lead. -/
def Op.led : (e : Op) → e.Resp → List ChannelId
  | .enter _, .leader tx => [tx]
  | _, _ => []

def Op.outcome : (e : Op) → e.Resp → List Fetched
  | .fetch, result => [result]
  | _, _ => []

def Op.removed : (e : Op) → e.Resp → List String
  | .remove key, _ => [key]
  | _, _ => []

def Op.sent : (e : Op) → e.Resp → List Fetched
  | .send _ result, _ => [result]
  | _, _ => []

/-- What a caller has subscribed to, and under which key. -/
def Op.joined : (e : Op) → e.Resp → List (String × Receiver)
  | .join key, some rx => [(key, rx)]
  | .enter key, .joiner rx => [(key, rx)]
  | _, _ => []

def Op.received : (e : Op) → e.Resp → List (Option Fetched)
  | .recv _, message => [message]
  | _, _ => []

/-- What a call has done so far. -/
structure Doings where
  key : String
  counted : List Counter := []
  led : List ChannelId := []
  outcome : List Fetched := []
  removed : List String := []
  sent : List Fetched := []
  joined : List (String × Receiver) := []
  received : List (Option Fetched) := []

namespace Doings

def next (v : Doings) (e : Op) (r : e.Resp) : Doings where
  key := v.key
  counted := v.counted ++ e.counted r
  led := v.led ++ e.led r
  outcome := v.outcome ++ e.outcome r
  removed := v.removed ++ e.removed r
  sent := v.sent ++ e.sent r
  joined := v.joined ++ e.joined r
  received := v.received ++ e.received r

/-- The call leads the channel and has its key in the map. -/
def Holds (v : Doings) (key : String) (tx : ChannelId) : Prop :=
  v.key = key ∧ v.led = [tx] ∧ v.removed = []

instance (v : Doings) (key : String) (tx : ChannelId) : Decidable (v.Holds key tx) :=
  inferInstanceAs (Decidable (_ ∧ _ ∧ _))

/-- The call leads the channel and has sent nothing on it. -/
def Leads (v : Doings) (tx : ChannelId) : Prop :=
  v.led = [tx] ∧ v.sent = [] ∧ v.joined = [] ∧ v.received = []

def Allows (v : Doings) : Op → Prop
  | .countTotal => v = { key := v.key }
  | .join key => v = { key := key, counted := [.total] }
  | .enter key => v = { key := key, counted := [.total] }
  | .countCoalesced => v.counted = [.total] ∧ v.led = []
  | .recv rx => v.led = [] ∧ v.joined = [(v.key, rx)] ∧ v.received = []
  | .countMiss => v.counted = [.total]
  | .fetch => ∃ tx, v.Leads tx ∧ v.removed = [] ∧ v.outcome = []
  | .remove key => v.key = key ∧ v.removed = [] ∧ ∃ tx, v.Leads tx
  | .send tx result => v.Leads tx ∧ v.removed = [v.key] ∧ v.outcome = [result]
  | .dropSender tx => v.led = [tx] ∧ v.sent ≠ [] ∧ v.joined = []

/-- A caller returns what it fetched and sent, or what it received. -/
def Ended (v : Doings) (a : Answer) : Prop :=
  (v.counted = [.total, .miss] ∧ v.removed = [v.key] ∧
      ∃ result, v.outcome = [result] ∧ a = answer result) ∨
  (v.counted = [.total, .coalesced] ∧ v.led = [] ∧
      ∃ rx message, v.joined = [(v.key, rx)] ∧ v.received = [message] ∧
        a = message.elim (.error .recvError) answer)

end Doings

def monitor : Monitor Op Op.Resp Call Answer Doings where
  init c := { key := c }
  next := Doings.next
  allow := Doings.Allows
  may _ _ _ := True
  fin _ a v := v.Ended a

section Bodies

@[simp] theorem monitor_next (v : Doings) (e : Op) (r : e.Resp) :
    monitor.next v e r = v.next e r := rfl

@[simp] theorem monitor_allow (v : Doings) (e : Op) : monitor.allow v e ↔ v.Allows e := Iff.rfl

@[simp] theorem monitor_may (v : Doings) (e : Op) (r : e.Resp) : monitor.may v e r := trivial

@[simp] theorem monitor_fin (c : Call) (a : Answer) (v : Doings) :
    monitor.fin c a v ↔ v.Ended a := Iff.rfl

@[simp] theorem monitor_init (c : Call) : monitor.init c = { key := c } := rfl

attribute [local simp] Doings.next Op.counted Op.led Op.outcome Op.removed Op.sent Op.joined
  Op.received Doings.Allows Doings.Leads

theorem awaitResult_wp (key : String) (rx : Receiver) :
    (awaitResult rx).wp monitor (fun a v => v.Ended a)
      { key := key, counted := [.total], joined := [(key, rx)] } := by
  simp [awaitResult]
  intro message
  cases message with
  | none => simp [Doings.Ended]
  | some message => simp [Doings.Ended]

theorem lead_wp (key : String) (tx : ChannelId) :
    (lead key tx).wp monitor (fun a v => v.Ended a)
      { key := key, counted := [.total], led := [tx] } := by
  simp [lead, Doings.Ended]

theorem body_wp (key : String) :
    (getOrFetch key).wp monitor (fun a v => v.Ended a) { key := key } := by
  simp [getOrFetch]
  intro found
  cases found with
  | some rx => exact awaitResult_wp key rx
  | none =>
    simp
    intro role
    cases role with
    | joiner rx => exact awaitResult_wp key rx
    | leader tx => exact lead_wp key tx

end Bodies

section Exec

variable {env : Fetched} {s s' : RequestCoalescer} {key : String} {new : List Call}

theorem Op.exec_new {e : Op} {r : e.Resp} (h : e.exec env s = some (r, s', new)) : new = [] := by
  cases e with
  | enter key =>
    simp only [Op.exec] at h
    split at h
    · cases h
      rfl
    · cases h
      rfl
  | remove key =>
    simp only [Op.exec] at h
    split at h
    · cases h
      rfl
    · cases h
      rfl
  | recv rx =>
    simp only [Op.exec] at h
    split at h
    · cases h
    · split at h
      · cases h
        rfl
      · split at h
        · cases h
          rfl
        · split at h
          · cases h
            rfl
          · cases h
  | _ =>
    cases h
    rfl

/-- Whoever enters joins the channel that is there or leads a new one. -/
theorem Op.exec_enter {role : Role} (h : (Op.enter key).exec env s = some (role, s', new)) :
    (∃ id, s.inFlight.lookup key = some id ∧ role = .joiner (s.subscribe id) ∧ s' = s) ∨
    (s.inFlight.lookup key = none ∧ role = .leader s.channels.length ∧
      s' = { s with
        inFlight := s.inFlight.insert key s.channels.length
        channels := s.channels ++ [{ owners := 2 }] }) := by
  simp only [Op.exec] at h
  split at h
  · rename_i id hl
    cases h
    exact Or.inl ⟨id, hl, rfl, rfl⟩
  · rename_i hl
    cases h
    exact Or.inr ⟨hl, rfl, rfl⟩

theorem Op.exec_remove {r : Unit} {id : ChannelId} (hl : s.inFlight.lookup key = some id)
    (h : (Op.remove key).exec env s = some (r, s', new)) :
    s' = { s.release id with inFlight := s.inFlight.erase key } := by
  simp only [Op.exec, hl, Option.some.injEq, Prod.mk.injEq] at h
  exact h.2.1.symm

theorem Op.exec_recv {rx : Receiver} {message : Option Fetched}
    (h : (Op.recv rx).exec env s = some (message, s', new)) :
    s' = s ∧ ∃ c, s.channels[rx.channel]? = some c ∧
      (rx.position + capacity < c.messages.length ∨
        (∃ m, c.messages[rx.position]? = some m ∧ message = some m) ∨
        c.messages[rx.position]? = none ∧ c.owners = 0) := by
  simp only [Op.exec] at h
  split at h
  · cases h
  rename_i c hc
  split at h
  · rename_i hlag
    cases h
    exact ⟨rfl, c, hc, Or.inl hlag⟩
  split at h
  · rename_i m hm
    cases h
    exact ⟨rfl, c, hc, Or.inr (Or.inl ⟨m, hm, rfl⟩)⟩
  rename_i hnone
  split at h
  · rename_i howners
    cases h
    exact ⟨rfl, c, hc, Or.inr (Or.inr ⟨hnone, howners⟩)⟩
  · cases h

end Exec

/-- The map refers to channels. -/
def RequestCoalescer.Filed (s : RequestCoalescer) : Prop :=
  ∀ key id, s.inFlight.lookup key = some id → id < s.channels.length

theorem RequestCoalescer.filed_modifyChannel {s : RequestCoalescer} {id : ChannelId}
    {f : Channel → Channel} (h : s.Filed) : (s.modifyChannel id f).Filed := by
  intro key i hi
  exact Nat.lt_of_lt_of_eq (h key i hi) (List.length_modify ..).symm

def heldBy (account : String × ChannelId) (v : Doings) : Nat :=
  if v.Holds account.1 account.2 then 1 else 0

def owedTo (account : String × ChannelId) (s : RequestCoalescer) : Nat :=
  if s.inFlight.lookup account.1 = some account.2 then 1 else 0

/-- What a caller holds changes only where it comes to lead and where it removes. -/
theorem heldBy_next {account : String × ChannelId} {v : Doings} {e : Op} {r : e.Resp}
    (hl : e.led r = []) (hr : e.removed r = []) :
    heldBy account (v.next e r) = heldBy account v := by
  have h : (v.next e r).Holds account.1 account.2 ↔ v.Holds account.1 account.2 := by
    simp [Doings.Holds, Doings.next, hl, hr]
  exact if_congr h rfl rfl

section Balance

variable {s : RequestCoalescer} {v : Doings} {key : String} {tx : ChannelId}

theorem lead_balance (hnone : s.inFlight.lookup key = none)
    (hv : v = { key := key, counted := [.total] }) (account : String × ChannelId) :
    heldBy account (v.next (.enter key) (.leader tx)) + owedTo account s =
      heldBy account v + owedTo account { s with inFlight := s.inFlight.insert key tx } := by
  have hnext : (v.next (.enter key) (.leader tx)).Holds account.1 account.2 ↔
      account.1 = key ∧ account.2 = tx := by
    rw [hv]
    simp [Doings.Holds, Doings.next, Op.led, Op.removed, eq_comm]
  have hold : ¬ v.Holds account.1 account.2 := by
    rw [hv]
    simp [Doings.Holds]
  unfold heldBy owedTo
  rw [if_neg hold, Nat.zero_add]
  by_cases hkey : account.1 = key
  · have hbefore : ¬ s.inFlight.lookup account.1 = some account.2 := by
      rw [hkey, hnone]
      exact nofun
    have hafter : (s.inFlight.insert key tx).lookup account.1 = some account.2 ↔
        account.2 = tx := by
      rw [hkey, AList.lookup_insert, Option.some.injEq, eq_comm]
    rw [if_neg hbefore]
    exact if_congr (hnext.trans ((and_iff_right hkey).trans hafter.symm)) rfl rfl
  · rw [if_neg fun h => hkey (hnext.mp h).1, Nat.zero_add, AList.lookup_insert_ne hkey]

theorem remove_balance (hl : s.inFlight.lookup key = some tx) (hholds : v.Holds key tx)
    (account : String × ChannelId) :
    heldBy account (v.next (.remove key) ()) + owedTo account s =
      heldBy account v + owedTo account { s with inFlight := s.inFlight.erase key } := by
  have hnext : ¬ (v.next (.remove key) ()).Holds account.1 account.2 := by
    simp [Doings.Holds, Doings.next, Op.removed]
  have hheld : v.Holds account.1 account.2 ↔ account = (key, tx) := by
    obtain ⟨hkey, hled, hremoved⟩ := hholds
    simp [Doings.Holds, hkey, hled, hremoved, Prod.ext_iff, eq_comm]
  unfold heldBy owedTo
  rw [if_neg hnext, Nat.zero_add]
  by_cases hkey : account.1 = key
  · have hafter : ¬ (s.inFlight.erase key).lookup account.1 = some account.2 := by
      rw [hkey, AList.lookup_erase]
      exact nofun
    rw [if_neg hafter, Nat.add_zero]
    refine if_congr (Iff.trans ?_ hheld.symm) rfl rfl
    rw [hkey, hl, Option.some.injEq, Prod.ext_iff]
    exact ⟨fun h => ⟨hkey, h.symm⟩, fun h => h.2.symm⟩
  · have hother : account ≠ (key, tx) := fun h => hkey (congrArg Prod.fst h)
    rw [if_neg fun h => hother (hheld.mp h), Nat.zero_add, AList.lookup_erase_ne hkey]

end Balance

/-- A caller that holds a key has its channel in the map under it. -/
theorem lookup_of_holds {p : CoalescePool} {t : CoalesceTask} {key : String} {tx : ChannelId}
    (hb : ∀ i, p.tally monitor (heldBy i) + 0 = owedTo i p.state) (ht : t ∈ p.tasks)
    (h : (t.view monitor).Holds key tx) : p.state.inFlight.lookup key = some tx := by
  have hle := Pool.held_le_tally monitor (heldBy (key, tx)) ht
  have hbal := hb (key, tx)
  rw [show heldBy (key, tx) (t.view monitor) = 1 from if_pos h] at hle
  by_contra hn
  rw [show owedTo (key, tx) p.state = 0 from if_neg hn] at hbal
  omega

/-- Every key in the map is held by the one caller that leads its channel. -/
theorem ledger : machine.Ledger monitor (fun _ _ => True) RequestCoalescer.Filed heldBy
    (fun _ _ => 0) owedTo where
  body := body_wp
  start _ _ _ _ _ := by
    simp [heldBy, Doings.Holds]
  step k env p t e r s' new ht hx hh hk hg hgood ha hb := by
    have hx : e.exec env p.state = some (r, s', new) := hx
    have ha : (t.view monitor).Allows e := ha
    refine ⟨trivial, ?_⟩
    rw [Op.exec_new hx]
    change s'.Filed ∧ ∀ i, heldBy i ((t.view monitor).next e r) + owedTo i p.state =
      heldBy i (t.view monitor) + owedTo i s'
    cases e with
    | enter key =>
      rcases Op.exec_enter hx with ⟨id, _, rfl, rfl⟩ | ⟨hnone, rfl, rfl⟩
      · exact ⟨hgood, fun account => by rw [heldBy_next rfl rfl]⟩
      · refine ⟨fun key' id hl => ?_, lead_balance hnone ha⟩
        rw [List.length_append]
        by_cases hkey : key' = key
        · subst hkey
          rw [AList.lookup_insert] at hl
          cases hl
          exact Nat.lt_succ_self _
        · rw [AList.lookup_insert_ne hkey] at hl
          exact Nat.lt_succ_of_lt (hgood key' id hl)
    | remove key =>
      obtain ⟨hkey, hremoved, tx, hled, _⟩ := ha
      have hholds : (t.view monitor).Holds key tx := ⟨hkey, hled, hremoved⟩
      have hl := lookup_of_holds hb ht hholds
      obtain rfl := Op.exec_remove hl hx
      refine ⟨fun key' id hid => ?_, remove_balance hl hholds⟩
      have hfiled : (p.state.release tx).Filed := RequestCoalescer.filed_modifyChannel hgood
      by_cases hkey' : key' = key
      · subst hkey'
        rw [AList.lookup_erase] at hid
        cases hid
      · rw [AList.lookup_erase_ne hkey'] at hid
        exact hfiled key' id hid
    | send tx result =>
      cases hx
      exact ⟨RequestCoalescer.filed_modifyChannel hgood,
        fun account => congrArg (· + owedTo account p.state) (heldBy_next rfl rfl)⟩
    | dropSender tx =>
      cases hx
      exact ⟨RequestCoalescer.filed_modifyChannel hgood,
        fun account => congrArg (· + owedTo account p.state) (heldBy_next rfl rfl)⟩
    | recv rx =>
      obtain ⟨rfl, _⟩ := Op.exec_recv hx
      exact ⟨hgood, fun account => by rw [heldBy_next rfl rfl]⟩
    | _ =>
      cases hx
      exact ⟨hgood, fun account => congrArg (· + owedTo account p.state) (heldBy_next rfl rfl)⟩

/-- What the books of a run say of every pool it comes through. -/
structure Kept (p : CoalescePool) : Prop where
  filed : p.state.Filed
  balance : ∀ i, p.tally monitor (heldBy i) + 0 = owedTo i p.state
  follows : ∀ t ∈ p.tasks, t.Follows monitor

theorem kept_of_run {as : List CoalesceAction} {p : CoalescePool}
    (hr : machine.run as startPool = some p) : Kept p := by
  have h0 : Machine.Balanced monitor RequestCoalescer.Filed heldBy (fun _ _ => 0) owedTo
      startPool := by
    refine ⟨fun key id h => ?_, fun i => (if_neg fun h => ?_).symm⟩
    · cases h
    · cases h
  have hrun := ledger.run Machine.guarded_true hr (fun t ht => by cases ht) h0
  exact ⟨hrun.1.1, hrun.1.2, hrun.2⟩

/-- A channel in the map has a caller that leads it and has not taken it out. -/
theorem Kept.exists_holds {p : CoalescePool} (hk : Kept p) {key : String} {id : ChannelId}
    (h : p.state.inFlight.lookup key = some id) :
    ∃ u ∈ p.tasks, (u.view monitor).Holds key id := by
  have hbal := hk.balance (key, id)
  rw [show owedTo (key, id) p.state = 1 from if_pos h] at hbal
  have hheld : 0 < p.tally monitor (heldBy (key, id)) := by omega
  obtain ⟨u, hu, hpos⟩ := Pool.exists_held hheld
  refine ⟨u, hu, ?_⟩
  by_contra hn
  rw [show heldBy (key, id) (u.view monitor) = 0 from if_neg hn] at hpos
  exact Nat.lt_irrefl 0 hpos

section Views

variable {t : CoalesceTask}

theorem view_key (t : CoalesceTask) : (t.view monitor).key = t.call :=
  Task.view_const monitor Doings.key (fun _ _ _ => rfl) t

theorem view_counted (t : CoalesceTask) : (t.view monitor).counted = t.log Op.counted :=
  (Task.view_log monitor Doings.counted Op.counted (fun _ _ _ => rfl) t).trans (List.nil_append _)

theorem view_led (t : CoalesceTask) : (t.view monitor).led = t.log Op.led :=
  (Task.view_log monitor Doings.led Op.led (fun _ _ _ => rfl) t).trans (List.nil_append _)

theorem view_outcome (t : CoalesceTask) : (t.view monitor).outcome = t.log Op.outcome :=
  (Task.view_log monitor Doings.outcome Op.outcome (fun _ _ _ => rfl) t).trans (List.nil_append _)

theorem view_removed (t : CoalesceTask) : (t.view monitor).removed = t.log Op.removed :=
  (Task.view_log monitor Doings.removed Op.removed (fun _ _ _ => rfl) t).trans (List.nil_append _)

theorem view_joined (t : CoalesceTask) : (t.view monitor).joined = t.log Op.joined :=
  (Task.view_log monitor Doings.joined Op.joined (fun _ _ _ => rfl) t).trans (List.nil_append _)

end Views

/-- Whether the channel is there. -/
def made (id : ChannelId) (s : RequestCoalescer) : Nat := if id < s.channels.length then 1 else 0

/-- Who comes to lead makes the channel. -/
theorem exec_led {env : Fetched} {s s' : RequestCoalescer} {e : Op} {r : e.Resp} {new : List Call}
    (hx : e.exec env s = some (r, s', new)) (id : ChannelId) :
    made id s + (e.led r).count id = made id s' := by
  have hlen : ∀ f i, (s.modifyChannel i f).channels.length = s.channels.length :=
    fun f i => List.length_modify ..
  cases e with
  | enter key =>
    rcases Op.exec_enter hx with ⟨i, _, rfl, rfl⟩ | ⟨_, rfl, rfl⟩
    · rfl
    · simp only [made, Op.led, List.count_singleton, List.length_append, List.length_singleton]
      by_cases hlt : id < s.channels.length
      · have hne : s.channels.length ≠ id := Nat.ne_of_gt hlt
        simp [hlt, hne, Nat.lt_succ_of_lt hlt]
      · rw [if_neg hlt, Nat.zero_add]
        by_cases hid : s.channels.length = id
        · subst hid
          simp
        · have hlt' : ¬ id < s.channels.length + 1 := fun h =>
            hlt (Nat.lt_of_le_of_ne (Nat.le_of_lt_succ h) (Ne.symm hid))
          simp [hid, hlt']
  | remove key =>
    simp only [Op.exec] at hx
    split at hx
    · cases hx
      rfl
    · cases hx
      simp [made, RequestCoalescer.release, hlen, Op.led]
  | recv rx =>
    obtain ⟨rfl, _⟩ := Op.exec_recv hx
    rfl
  | send tx result =>
    cases hx
    simp [made, hlen, Op.led]
  | dropSender tx =>
    cases hx
    simp [made, RequestCoalescer.release, hlen, Op.led]
  | _ =>
    cases hx
    rfl

/-- Every channel has one leader. -/
theorem nodup_led {as : List CoalesceAction} {p : CoalescePool}
    (hr : machine.run as startPool = some p) : (p.log Op.led).Nodup := by
  apply List.nodup_iff_count_le_one.mpr
  intro id
  have hbound := Machine.run_bounded (m := machine) (J := fun _ => True) (made id) (f := Op.led)
    (x := id) (fun _ _ _ _ _ _ _ _ _ _ hx => (exec_led hx id).le)
    (Machine.always_of_run fun _ _ _ => trivial) hr (fun t ht => by cases ht)
  refine Nat.le_trans hbound ?_
  unfold made
  split
  · exact Nat.le_refl 1
  · exact Nat.zero_le 1

/-- The call's doings are the channel's story so far. -/
def Doings.Accounts (v : Doings) (id : ChannelId) (c : Channel) : Prop :=
  v.led = [id] ∧
    (v.sent = [] ∧ c.messages = [] ∧
        (v.removed = [] ∧ c.owners = 2 ∨ v.removed ≠ [] ∧ c.owners = 1) ∨
      v.removed ≠ [] ∧ ∃ result, v.sent = [result] ∧ v.outcome = [result] ∧ c.messages = [result])

/-- Each channel has its leader, and who has joined or received has done so in time. -/
structure Sound (p : CoalescePool) : Prop where
  led : ∀ id c, p.state.channels[id]? = some c → ∃ u ∈ p.tasks, (u.view monitor).Accounts id c
  joined : ∀ t ∈ p.tasks, ∀ key rx, (t.view monitor).joined = [(key, rx)] →
    rx.position = 0 ∧ rx.channel < p.state.channels.length
  received : ∀ t ∈ p.tasks, ∀ key rx message, (t.view monitor).joined = [(key, rx)] →
    (t.view monitor).received = [message] →
    ∃ c result, p.state.channels[rx.channel]? = some c ∧ c.messages = [result] ∧
      message = some result

section Steps

variable {env : Fetched} {s s' : RequestCoalescer} {new : List Call} {e : Op} {r : e.Resp}
  {v : Doings} {id : ChannelId} {c c' : Channel}

theorem getElem?_modifyChannel {f : Channel → Channel} {i : ChannelId} :
    (s.modifyChannel id f).channels[i]? =
      if id = i then (s.channels[i]?).map f else s.channels[i]? := by
  rw [RequestCoalescer.modifyChannel, List.getElem?_modify]
  split
  · rfl
  · simp

/-- An operation on no channel leaves the leader's account of it as it was. -/
theorem Doings.Accounts.next (h : v.Accounts id c) (ha : v.Allows e) (hl : e.led r = [])
    (hr : e.removed r = []) (hs : e.sent r = []) : (v.next e r).Accounts id c := by
  obtain ⟨hled, hrest⟩ := h
  refine ⟨by simp [Doings.next, hl, hled], ?_⟩
  simp only [Doings.next, hr, hs, List.append_nil]
  rcases hrest with hunsent | ⟨hremoved, result, hsent, hout, hm⟩
  · exact Or.inl hunsent
  · refine Or.inr ⟨hremoved, result, hsent, ?_, hm⟩
    cases e with
    | fetch =>
      obtain ⟨_, ⟨_, hnone, _⟩, _⟩ := ha
      rw [hnone] at hsent
      cases hsent
    | _ => simpa [Op.outcome] using hout

/-- What the leader does to its channel touches no other. -/
theorem modifyChannel_led {f : Channel → Channel} {tx : ChannelId} (hled : v.led = [tx])
    (hc' : (s.modifyChannel tx f).channels[id]? = some c')
    (hacc : ∀ c, v.Accounts tx c → (v.next e r).Accounts tx (f c)) :
    ∃ c, s.channels[id]? = some c ∧ (v.led ≠ [id] → c' = c) ∧
      (v.Accounts id c → (v.next e r).Accounts id c') := by
  rw [getElem?_modifyChannel] at hc'
  split at hc'
  · rename_i hid
    subst hid
    obtain ⟨c, hc, rfl⟩ := Option.map_eq_some_iff.mp hc'
    exact ⟨c, hc, fun hne => absurd hled hne, hacc c⟩
  · rename_i hid
    refine ⟨c', hc', fun _ => rfl, fun h => ?_⟩
    have hsame : tx = id := List.singleton_inj.mp (hled.symm.trans h.1)
    exact absurd hsame hid

/-- An operation touches no channel but the one its caller leads, and there its caller
accounts for what it does. -/
theorem exec_channel (h : e.exec env s = some (r, s', new)) (ha : v.Allows e)
    (hin : ∀ key tx, v.Holds key tx → s.inFlight.lookup key = some tx)
    (hc' : s'.channels[id]? = some c') :
    (v.next e r).Accounts id c' ∨ ∃ c, s.channels[id]? = some c ∧ (v.led ≠ [id] → c' = c) ∧
      (v.Accounts id c → (v.next e r).Accounts id c') := by
  cases e with
  | enter key =>
    have hv : v = { key := key, counted := [.total] } := ha
    rcases Op.exec_enter h with ⟨i, _, rfl, rfl⟩ | ⟨_, rfl, rfl⟩
    · exact Or.inr ⟨c', hc', fun _ => rfl, fun hacc => hacc.next ha rfl rfl rfl⟩
    · by_cases hlt : id < s.channels.length
      · refine Or.inr ⟨c', (List.getElem?_append_left hlt).symm.trans hc', fun _ => rfl,
          fun hacc => ?_⟩
        rw [hv] at hacc
        cases hacc.1
      · have hle : s.channels.length ≤ id := Nat.le_of_not_lt hlt
        obtain ⟨hzero, hnew⟩ := List.getElem?_eq_some_iff.mp
          ((List.getElem?_append_right hle).symm.trans hc')
        have hsub : id - s.channels.length = 0 := Nat.lt_one_iff.mp hzero
        obtain rfl : id = s.channels.length :=
          Nat.le_antisymm (Nat.sub_eq_zero_iff_le.mp hsub) hle
        rw [List.getElem_singleton] at hnew
        rw [hv, ← hnew]
        exact Or.inl ⟨rfl, Or.inl ⟨rfl, rfl, Or.inl ⟨rfl, rfl⟩⟩⟩
  | remove key =>
    obtain ⟨hkey, hremoved, tx, hled, hsent, _⟩ := ha
    obtain rfl := Op.exec_remove (hin key tx ⟨hkey, hled, hremoved⟩) h
    have hget : (s.release tx).channels[id]? = some c' := hc'
    refine Or.inr (modifyChannel_led hled hget fun c hacc => ?_)
    obtain ⟨_, ⟨_, hm, ⟨_, howners⟩ | ⟨hne, _⟩⟩ | ⟨hne, _⟩⟩ := hacc
    · refine ⟨by simp [Doings.next, Op.led, hled], Or.inl ⟨?_, hm, Or.inr ⟨?_, ?_⟩⟩⟩
      · simp [Doings.next, Op.sent, hsent]
      · simp [Doings.next, Op.removed]
      · simp [howners]
    · exact absurd hremoved hne
    · exact absurd hremoved hne
  | send tx result =>
    obtain ⟨⟨hled, hsent, _⟩, hremoved, hout⟩ := ha
    cases h
    refine Or.inr (modifyChannel_led hled hc' fun c hacc => ?_)
    obtain ⟨_, ⟨_, hm, _⟩ | ⟨_, _, hsent', _⟩⟩ := hacc
    · refine ⟨by simp [Doings.next, Op.led, hled], Or.inr ⟨?_, result, ?_, ?_, ?_⟩⟩
      · simp [Doings.next, hremoved]
      · simp [Doings.next, Op.sent, hsent]
      · simp [Doings.next, Op.outcome, hout]
      · simp [hm]
    · rw [hsent] at hsent'
      cases hsent'
  | dropSender tx =>
    obtain ⟨hled, hsent, _⟩ := ha
    cases h
    refine Or.inr (modifyChannel_led hled hc' fun c hacc => ?_)
    obtain ⟨_, ⟨hnone, _⟩ | hdone⟩ := hacc
    · exact absurd hnone hsent
    · exact ⟨by simp [Doings.next, Op.led, hled], Or.inr (by
        simpa [Doings.next, Op.removed, Op.sent, Op.outcome] using hdone)⟩
  | recv rx =>
    obtain ⟨rfl, _⟩ := Op.exec_recv h
    exact Or.inr ⟨c', hc', fun _ => rfl, fun hacc => hacc.next ha rfl rfl rfl⟩
  | _ =>
    cases h
    exact Or.inr ⟨c', hc', fun _ => rfl, fun hacc => hacc.next ha rfl rfl rfl⟩

/-- No channel goes away and no message is taken back. -/
theorem exec_messages (h : e.exec env s = some (r, s', new)) (hc : s.channels[id]? = some c) :
    ∃ c', s'.channels[id]? = some c' ∧ c.messages <+: c'.messages := by
  have hmodify : ∀ (f : Channel → Channel) (i : ChannelId),
      (∀ c, c.messages <+: (f c).messages) →
      ∃ c', (s.modifyChannel i f).channels[id]? = some c' ∧ c.messages <+: c'.messages := by
    intro f i hf
    rw [getElem?_modifyChannel, hc]
    split
    · exact ⟨f c, rfl, hf c⟩
    · exact ⟨c, rfl, List.prefix_refl _⟩
  cases e with
  | enter key =>
    rcases Op.exec_enter h with ⟨i, _, rfl, rfl⟩ | ⟨_, rfl, rfl⟩
    · exact ⟨c, hc, List.prefix_refl _⟩
    · have hlt := (List.getElem?_eq_some_iff.mp hc).1
      exact ⟨c, (List.getElem?_append_left hlt).trans hc, List.prefix_refl _⟩
  | remove key =>
    simp only [Op.exec] at h
    split at h
    · cases h
      exact ⟨c, hc, List.prefix_refl _⟩
    · cases h
      exact hmodify _ _ fun _ => List.prefix_refl _
  | send tx result =>
    cases h
    exact hmodify _ _ fun c => List.prefix_append c.messages [result]
  | dropSender tx =>
    cases h
    exact hmodify _ _ fun _ => List.prefix_refl _
  | recv rx =>
    obtain ⟨rfl, _⟩ := Op.exec_recv h
    exact ⟨c, hc, List.prefix_refl _⟩
  | _ =>
    cases h
    exact ⟨c, hc, List.prefix_refl _⟩

end Steps

/-- Nothing has been sent on a channel that is in the map. -/
theorem fresh_of_lookup {p : CoalescePool} (hk : Kept p) (hn : (p.log Op.led).Nodup)
    (hp : Sound p) {key : String} {id : ChannelId} (h : p.state.inFlight.lookup key = some id) :
    p.state.subscribe id = ⟨id, 0⟩ := by
  obtain ⟨u, hu, _, hled, hremoved⟩ := hk.exists_holds h
  obtain ⟨c, hc⟩ : ∃ c, p.state.channels[id]? = some c :=
    ⟨_, List.getElem?_eq_getElem (hk.filed key id h)⟩
  obtain ⟨w, hw, hacc⟩ := hp.led id c hc
  have hwu : w = u := by
    apply Pool.eq_of_mem_log hn hw hu (x := id)
    · rw [← view_led, hacc.1]
      exact List.mem_singleton_self id
    · rw [← view_led, hled]
      exact List.mem_singleton_self id
  subst hwu
  rcases hacc.2 with ⟨_, hm, _⟩ | ⟨hne, _⟩
  · simp [RequestCoalescer.subscribe, hc, hm]
  · exact absurd hremoved hne

section Turns

variable {p : CoalescePool} {pre post : List CoalesceTask} {t t' : CoalesceTask} {env : Fetched}
  {s' : RequestCoalescer} {new : List Call} {e : Op} {r : e.Resp} {key : String} {rx : Receiver}
  {message : Option Fetched}

/-- After a caller's turn each channel still has its leader. -/
theorem exists_accounts_turn (hp : Sound p) (hk : Kept p) (hn : (p.log Op.led).Nodup)
    (hsplit : p.tasks = pre ++ t :: post) (hx : e.exec env p.state = some (r, s', new))
    (ha : (t.view monitor).Allows e) (hview : t'.view monitor = (t.view monitor).next e r)
    {id : ChannelId} {c' : Channel} (hc' : s'.channels[id]? = some c') :
    ∃ u ∈ pre ++ t' :: post, (u.view monitor).Accounts id c' := by
  have ht : t ∈ p.tasks := by simp [hsplit]
  have hin : ∀ key tx, (t.view monitor).Holds key tx → p.state.inFlight.lookup key = some tx :=
    fun key tx h => lookup_of_holds hk.balance ht h
  rcases exec_channel hx ha hin hc' with hself | ⟨c, hc, hother, hself⟩
  · exact ⟨t', by simp, by rw [hview]; exact hself⟩
  obtain ⟨w, hw, hacc⟩ := hp.led id c hc
  by_cases hmine : (t.view monitor).led = [id]
  · have hwt : w = t := by
      apply Pool.eq_of_mem_log hn hw ht (x := id)
      · rw [← view_led, hacc.1]
        exact List.mem_singleton_self id
      · rw [← view_led, hmine]
        exact List.mem_singleton_self id
    rw [hwt] at hacc
    exact ⟨t', by simp, by rw [hview]; exact hself hacc⟩
  · rw [hsplit] at hw
    rcases eq_or_mem_replaced t' hw with rfl | hw
    · exact absurd hacc.1 hmine
    · rw [hother hmine]
      exact ⟨w, hw, hacc⟩

/-- Who subscribes in its turn has missed nothing. -/
theorem joined_turn (hp : Sound p) (hk : Kept p) (hn : (p.log Op.led).Nodup) (ht : t ∈ p.tasks)
    (hx : e.exec env p.state = some (r, s', new)) (ha : (t.view monitor).Allows e)
    (hj : ((t.view monitor).next e r).joined = [(key, rx)]) :
    rx.position = 0 ∧ rx.channel < p.state.channels.length := by
  have hnew : ∀ key id, p.state.inFlight.lookup key = some id → rx = p.state.subscribe id →
      rx.position = 0 ∧ rx.channel < p.state.channels.length := by
    intro key id hl hrx
    rw [hrx, fresh_of_lookup hk hn hp hl]
    exact ⟨rfl, hk.filed key id hl⟩
  cases e with
  | join key' =>
    cases hx
    rw [show t.view monitor = { key := key', counted := [.total] } from ha] at hj
    cases hl : p.state.inFlight.lookup key' with
    | none => simp [Doings.next, Op.joined, hl] at hj
    | some id =>
      simp only [Doings.next, Op.joined, hl, Option.map_some, List.nil_append,
        List.cons.injEq, Prod.mk.injEq, and_true] at hj
      exact hnew key' id hl hj.2.symm
  | enter key' =>
    have hv : t.view monitor = { key := key', counted := [.total] } := ha
    rw [hv] at hj
    rcases Op.exec_enter hx with ⟨id, hl, rfl, rfl⟩ | ⟨_, rfl, rfl⟩
    · simp only [Doings.next, Op.joined, List.nil_append, List.cons.injEq, Prod.mk.injEq,
        and_true] at hj
      exact hnew key' id hl hj.2.symm
    · cases hj
  | _ =>
    apply hp.joined t ht key rx
    simpa [Doings.next, Op.joined] using hj

/-- The message is the one that was sent on the receiver's channel. -/
def RequestCoalescer.Delivered (s : RequestCoalescer) (rx : Receiver)
    (message : Option Fetched) : Prop :=
  ∃ c result, s.channels[rx.channel]? = some c ∧ c.messages = [result] ∧ message = some result

/-- A receiver at the start of a channel that its leader accounts for gets the one message. -/
theorem delivered_of_recv (hp : Sound p) (hpos : rx.position = 0)
    (hx : (Op.recv rx).exec env p.state = some (message, s', new)) :
    p.state.Delivered rx message := by
  obtain ⟨_, c, hc, hcase⟩ := Op.exec_recv hx
  rw [hpos] at hcase
  obtain ⟨w, _, _, ⟨_, hempty, howners⟩ | ⟨_, result, _, _, hone⟩⟩ := hp.led _ c hc
  · rw [hempty] at hcase
    rcases hcase with hlag | ⟨m, hnone', _⟩ | ⟨_, hzero⟩
    · cases hlag
    · cases hnone'
    · rcases howners with ⟨_, h2⟩ | ⟨_, h1⟩
      · rw [hzero] at h2
        cases h2
      · rw [hzero] at h1
        cases h1
  · rw [hone] at hcase
    rcases hcase with hlag | ⟨m, hsome, hmsg⟩ | ⟨hnone', _⟩
    · exact absurd hlag (by simp [capacity])
    · obtain rfl : result = m := Option.some.inj hsome
      exact ⟨c, result, hc, hone, hmsg⟩
    · cases hnone'

theorem received_turn (hp : Sound p) (ht : t ∈ p.tasks)
    (hx : e.exec env p.state = some (r, s', new)) (ha : (t.view monitor).Allows e)
    (hj : ((t.view monitor).next e r).joined = [(key, rx)])
    (hm : ((t.view monitor).next e r).received = [message]) : p.state.Delivered rx message := by
  cases e with
  | recv rx' =>
    obtain ⟨_, hjoined, hnone⟩ := ha
    simp only [Doings.next, Op.joined, Op.received, hjoined, hnone, List.append_nil,
      List.nil_append, List.cons.injEq, Prod.mk.injEq, and_true] at hj hm
    rw [← hj.2, ← hm]
    exact delivered_of_recv hp (hp.joined t ht _ rx' hjoined).1 hx
  | join key' =>
    rw [show t.view monitor = { key := key', counted := [.total] } from ha] at hm
    cases hm
  | enter key' =>
    rw [show t.view monitor = { key := key', counted := [.total] } from ha] at hm
    cases hm
  | _ =>
    apply hp.received t ht key rx message
    · simpa [Doings.next, Op.joined] using hj
    · simpa [Doings.next, Op.received] using hm

/-- What was delivered stays so while every channel has its leader. -/
theorem delivered_mono (hx : e.exec env p.state = some (r, s', new))
    (hled : ∀ id c', s'.channels[id]? = some c' → ∃ v : Doings, v.Accounts id c')
    (h : p.state.Delivered rx message) : s'.Delivered rx message := by
  obtain ⟨c, result, hc, hmsg, hres⟩ := h
  obtain ⟨c', hc', hbegins⟩ := exec_messages hx hc
  rw [hmsg] at hbegins
  obtain ⟨v, _, ⟨_, hnone, _⟩ | ⟨_, result', _, _, hone⟩⟩ := hled _ c' hc'
  · rw [hnone] at hbegins
    cases List.prefix_nil.mp hbegins
  · rw [hone] at hbegins
    have heq : [result] = [result'] := hbegins.eq_of_length rfl
    cases heq
    exact ⟨c', result, hc', hone, hres⟩

end Turns

theorem sound_step {a : CoalesceAction} {p q : CoalescePool} (hk : Kept p)
    (hn : (p.log Op.led).Nodup) (hp : Sound p) (hs : machine.Step a p q) : Sound q := by
  cases hs with
  | start c s tasks _ =>
    refine ⟨fun id ch hc => ?_, fun t ht key rx hj => ?_, fun t ht key rx message hj hm => ?_⟩
    · obtain ⟨u, hu, hacc⟩ := hp.led id ch hc
      exact ⟨u, List.mem_append_left _ hu, hacc⟩
    · rcases List.mem_append.mp ht with ht | ht
      · exact hp.joined t ht key rx hj
      · rw [List.mem_singleton.mp ht] at hj
        cases hj
    · rcases List.mem_append.mp ht with ht | ht
      · exact hp.received t ht key rx message hj hm
      · rw [List.mem_singleton.mp ht] at hm
        cases hm
  | step env pre post t e next r s s' new hprog hx =>
    have hx : e.exec env s = some (r, s', new) := hx
    have ht : t ∈ pre ++ t :: post := by simp
    have ha : (t.view monitor).Allows e := (hk.follows t ht).allowed hprog
    have hview : (t.advance e r (next r)).view monitor = (t.view monitor).next e r := by simp
    rw [Op.exec_new hx, List.map_nil, List.append_nil]
    have hled : ∀ id c', s'.channels[id]? = some c' →
        ∃ u ∈ pre ++ t.advance e r (next r) :: post, (u.view monitor).Accounts id c' :=
      fun id c' hc' => exists_accounts_turn hp hk hn rfl hx ha hview hc'
    refine ⟨hled, fun u hu key rx hj => ?_, fun u hu key rx message hj hm => ?_⟩
    · have hold : rx.position = 0 ∧ rx.channel < s.channels.length := by
        rcases eq_or_mem_replaced t hu with rfl | hu
        · rw [hview] at hj
          exact joined_turn hp hk hn ht hx ha hj
        · exact hp.joined u hu key rx hj
      obtain ⟨c', hc', _⟩ := exec_messages hx (List.getElem?_eq_getElem hold.2)
      exact ⟨hold.1, (List.getElem?_eq_some_iff.mp hc').1⟩
    · have hold : s.Delivered rx message := by
        rcases eq_or_mem_replaced t hu with rfl | hu
        · rw [hview] at hj hm
          exact received_turn hp ht hx ha hj hm
        · exact hp.received u hu key rx message hj hm
      refine delivered_mono (p := ⟨s, pre ++ t :: post⟩) hx (fun id c' hc' => ?_) hold
      obtain ⟨u, _, hacc⟩ := hled id c' hc'
      exact ⟨u.view monitor, hacc⟩

theorem sound_of_run {as : List CoalesceAction} {p : CoalescePool}
    (hr : machine.run as startPool = some p) : Sound p := by
  have hall : machine.Always (fun q => Kept q ∧ (q.log Op.led).Nodup) as startPool :=
    Machine.always_of_run fun _ _ hq => ⟨kept_of_run hq, nodup_led hq⟩
  refine hall.induction hr ⟨fun id c h => ?_, fun t ht => ?_, fun t ht => ?_⟩
    fun a q q' hk hq hs => sound_step hk.1 hk.2 hq hs
  · cases h
  · cases ht
  · cases ht

section Counters

def Counter.read (s : RequestCoalescer) : Counter → Nat
  | .total => s.totalRequests
  | .coalesced => s.coalescedRequests
  | .miss => s.cacheMisses

/-- The counters, spelled out. -/
def counters (s : RequestCoalescer) : List Counter :=
  List.replicate s.totalRequests .total ++ List.replicate s.coalescedRequests .coalesced ++
    List.replicate s.cacheMisses .miss

theorem count_counters (s : RequestCoalescer) (c : Counter) : (counters s).count c = c.read s := by
  cases c <;> simp [counters, List.count_replicate, Counter.read]

/-- The counters are what the calls have counted. -/
theorem counted_eq {as : List CoalesceAction} {p : CoalescePool}
    (hr : machine.run as startPool = some p) (c : Counter) :
    (p.log Op.counted).count c = c.read p.state := by
  have hperm := Machine.run_conserved (m := machine) counters Op.counted (fun _ _ => [])
    (fun e env s r s' new c hx => by
      have hx : e.exec env s = some (r, s', new) := hx
      rw [count_counters, count_counters]
      cases e with
      | countTotal =>
        cases hx
        cases c <;> simp [Op.counted, Counter.read]
      | countCoalesced =>
        cases hx
        cases c <;> simp [Op.counted, Counter.read]
      | countMiss =>
        cases hx
        cases c <;> simp [Op.counted, Counter.read]
      | enter key =>
        rcases Op.exec_enter hx with ⟨_, _, rfl, rfl⟩ | ⟨_, rfl, rfl⟩
        · rfl
        · rfl
      | remove key =>
        simp only [Op.exec] at hx
        split at hx
        · cases hx
          rfl
        · cases hx
          rfl
      | recv rx =>
        obtain ⟨rfl, _⟩ := Op.exec_recv hx
        rfl
      | _ =>
        cases hx
        rfl) hr (fun t ht => by cases ht)
  have hcount := hperm.count_eq c
  have hnone : p.log (fun (e : Op) (_ : e.Resp) => ([] : List Counter)) = [] := by
    simp [Pool.log, Task.log]
  rw [List.count_append, List.count_append, count_counters, count_counters, hnone] at hcount
  cases c <;> simpa [Counter.read, startPool] using hcount

/-- A call that has ended was counted once in all, and once as what it was. -/
theorem counted_ended {p : CoalescePool} (hk : Kept p)
    (hend : ∀ t ∈ p.tasks, t.result?.isSome = true) :
    (p.log Op.counted).count .total =
      (p.log Op.counted).count .coalesced + (p.log Op.counted).count .miss := by
  have hone : ∀ t ∈ p.tasks, (t.log Op.counted).count .total =
      (t.log Op.counted).count .coalesced + (t.log Op.counted).count .miss := by
    intro t ht
    obtain ⟨a, ha⟩ := Option.isSome_iff_exists.mp (hend t ht)
    have hdone : (t.view monitor).Ended a := (hk.follows t ht).finished ha
    rw [← view_counted]
    rcases hdone with ⟨hc, _⟩ | ⟨hc, _⟩
    · rw [hc]
      rfl
    · rw [hc]
      rfl
  unfold Pool.log
  generalize p.tasks = tasks at hone
  induction tasks with
  | nil => rfl
  | cons t tasks ih =>
    have ht := hone t List.mem_cons_self
    have hrest := ih fun u hu => hone u (List.mem_cons_of_mem t hu)
    simp only [List.flatMap_cons, List.count_append]
    omega

end Counters

/-- The task runs a fetch for the key. -/
def fetching (key : String) (t : CoalesceTask) : Bool :=
  t.call == key && (match t.prog.head? with
    | some .fetch => true
    | _ => false)

/-- The caller subscribed while a caller that led the key still had it in the map, and
this is the answer with what that one fetched. -/
def Joined (as : List CoalesceAction) (p : CoalescePool) (i : Nat) (key : String) (a : Answer) :
    Prop :=
  ∃ q e r rx, machine.Moment as startPool i q e r ∧ (key, rx) ∈ e.joined r ∧
    (∃ u ∈ q.tasks, u.call = key ∧ rx.channel ∈ u.log Op.led ∧ u.log Op.removed = []) ∧
    ∃ u ∈ p.tasks, ∃ result, rx.channel ∈ u.log Op.led ∧ result ∈ u.log Op.outcome ∧
      a = answer result

section Runs

variable {as : List CoalesceAction} {p : CoalescePool}

theorem fetching_le_one (hk : Kept p) (key : String) :
    (p.tasks.filter (fetching key)).length ≤ 1 := by
  have hholds : ∀ t ∈ p.tasks, fetching key t = true → ∃ tx, (t.view monitor).Holds key tx := by
    intro t ht hf
    obtain ⟨hcall, hhead⟩ := Bool.and_eq_true_iff.mp hf
    have hfetch : t.prog.head? = some .fetch := by
      split at hhead
      · rename_i h
        exact h
      · cases hhead
    have ha : (t.view monitor).Allows .fetch := (hk.follows t ht).allowed_head hfetch
    obtain ⟨tx, ⟨hled, _⟩, hremoved, _⟩ := ha
    exact ⟨tx, (view_key t).trans (beq_iff_eq.mp hcall), hled, hremoved⟩
  cases hl : p.state.inFlight.lookup key with
  | none =>
    have hnil : p.tasks.filter (fetching key) = [] := by
      apply List.filter_eq_nil_iff.mpr
      intro t ht hf
      obtain ⟨tx, htx⟩ := hholds t ht hf
      rw [lookup_of_holds hk.balance ht htx] at hl
      cases hl
    rw [hnil]
    exact Nat.zero_le 1
  | some tx =>
    have hcount : p.tally monitor (heldBy (key, tx)) =
        (p.tasks.filter fun t => decide ((t.view monitor).Holds key tx)).length := by
      apply Pool.tally_count
      intro t _
      simp [heldBy]
    have hle : p.tasks.countP (fetching key) ≤
        p.tasks.countP fun t => decide ((t.view monitor).Holds key tx) := by
      apply List.countP_mono_left
      intro t ht hf
      obtain ⟨tx', htx⟩ := hholds t ht hf
      cases hl.symm.trans (lookup_of_holds hk.balance ht htx)
      exact decide_eq_true htx
    have howed : owedTo (key, tx) p.state = 1 := if_pos hl
    have hbal := hk.balance (key, tx)
    rw [List.countP_eq_length_filter, List.countP_eq_length_filter] at hle
    omega

/-- Once all calls have ended no key is in the map. -/
theorem lookup_eq_none (hk : Kept p) (hend : ∀ t ∈ p.tasks, t.result?.isSome = true)
    (key : String) : p.state.inFlight.lookup key = none := by
  cases hl : p.state.inFlight.lookup key with
  | none => rfl
  | some tx =>
    obtain ⟨u, hu, _, hled, hremoved⟩ := hk.exists_holds hl
    obtain ⟨a, ha⟩ := Option.isSome_iff_exists.mp (hend u hu)
    have hdone : (u.view monitor).Ended a := (hk.follows u hu).finished ha
    rcases hdone with ⟨_, hkey, _⟩ | ⟨_, hnone, _⟩
    · rw [hremoved] at hkey
      cases hkey
    · rw [hled] at hnone
      cases hnone

/-- Who subscribed did so while the caller that led the key had it in the map. -/
theorem led_when_joined {q : CoalescePool} {i : Nat} {e : Op} {r : e.Resp} {key : String}
    {rx : Receiver} (hm : machine.Moment as startPool i q e r) (hj : (key, rx) ∈ e.joined r) :
    ∃ u ∈ q.tasks, u.call = key ∧ rx.channel ∈ u.log Op.led ∧ u.log Op.removed = [] := by
  obtain ⟨⟨before, env, after, s, new, _, hq, hx⟩, _⟩ := hm
  have hx : e.exec env q.state = some (r, s, new) := hx
  have hk : Kept q := kept_of_run hq
  obtain ⟨id, hl, hrx⟩ : ∃ id,
      q.state.inFlight.lookup key = some id ∧ rx = q.state.subscribe id := by
    cases e with
    | join key' =>
      cases hx
      cases hl : q.state.inFlight.lookup key' with
      | none => simp [Op.joined, hl] at hj
      | some id =>
        simp only [Op.joined, hl, Option.map_some, List.mem_singleton, Prod.mk.injEq] at hj
        obtain ⟨rfl, rfl⟩ := hj
        exact ⟨id, hl, rfl⟩
    | enter key' =>
      rcases Op.exec_enter hx with ⟨id, hl, rfl, _⟩ | ⟨_, rfl, _⟩
      · simp only [Op.joined, List.mem_singleton, Prod.mk.injEq] at hj
        obtain ⟨rfl, rfl⟩ := hj
        exact ⟨id, hl, rfl⟩
      · cases hj
    | _ => cases hj
  obtain ⟨u, hu, hkey, hled, hremoved⟩ := hk.exists_holds hl
  refine ⟨u, hu, (view_key u).symm.trans hkey, ?_, (view_removed u).symm.trans hremoved⟩
  rw [← view_led, hled, hrx]
  exact List.mem_singleton_self id

/-- No two fetches of one key run at a time, every caller returns what it fetched or what
the caller it joined fetched, and once all have returned the map is empty and the
counters agree. -/
theorem single_flight (hr : machine.run as startPool = some p) :
    (∀ key, (p.tasks.filter (fetching key)).length ≤ 1) ∧
    (∀ i t a, p.tasks[i]? = some t → t.result? = some a →
      a ≠ .error .recvError ∧
        ((∃ result ∈ t.log Op.outcome, a = answer result) ∨ Joined as p i t.call a)) ∧
    ((∀ t ∈ p.tasks, t.result?.isSome = true) →
      (∀ key, p.state.inFlight.lookup key = none) ∧
        p.state.totalRequests = p.state.coalescedRequests + p.state.cacheMisses) := by
  have hk : Kept p := kept_of_run hr
  have hs : Sound p := sound_of_run hr
  refine ⟨fetching_le_one hk, fun i t a hi hres => ?_, fun hend => ⟨lookup_eq_none hk hend, ?_⟩⟩
  · have ht : t ∈ p.tasks := List.mem_of_getElem? hi
    have hdone : (t.view monitor).Ended a := (hk.follows t ht).finished hres
    have hanswer : ∀ result, answer result ≠ .error .recvError := by
      intro result
      cases result with
      | ok value => exact nofun
      | error msg => exact nofun
    rcases hdone with ⟨_, _, result, hout, rfl⟩ | ⟨_, _, rx, message, hjoined, hreceived, rfl⟩
    · refine ⟨hanswer result, Or.inl ⟨result, ?_, rfl⟩⟩
      rw [← view_outcome, hout]
      exact List.mem_singleton_self result
    · obtain ⟨c, result, hc, hm, rfl⟩ := hs.received t ht _ rx message hjoined hreceived
      refine ⟨hanswer result, Or.inr ?_⟩
      have hlog : (t.call, rx) ∈ t.log Op.joined := by
        rw [← view_joined, hjoined, view_key]
        exact List.mem_singleton_self _
      rcases Machine.exists_moment hr hi hlog with ⟨u, hu, _⟩ | ⟨q, e, r, hmoment, hj⟩
      · cases hu
      obtain ⟨w, hw, hled, ⟨_, hnone, _⟩ | ⟨_, result', _, hout, hone⟩⟩ := hs.led _ c hc
      · rw [hm] at hnone
        cases hnone
      · rw [hm] at hone
        cases hone
        refine ⟨q, e, r, rx, hmoment, hj, led_when_joined hmoment hj, w, hw, result, ?_, ?_, rfl⟩
        · rw [← view_led, hled]
          exact List.mem_singleton_self _
        · rw [← view_outcome, hout]
          exact List.mem_singleton_self _
  · have hcount := counted_ended hk hend
    rw [counted_eq hr, counted_eq hr, counted_eq hr] at hcount
    exact hcount

end Runs

/-- Some turns of one caller. -/
def turns (i n : Nat) (output : Fetched) : List CoalesceAction := List.replicate n (.step i output)

/-- A caller comes while another one fetches the same key, and one more once the key is gone. -/
def joining : List CoalesceAction :=
  .start "key" :: .start "key" :: turns 0 4 (.ok "") ++ turns 1 3 (.ok "") ++
    turns 0 2 (.ok "value") ++ .start "key" :: turns 2 4 (.ok "") ++ turns 0 2 (.ok "") ++
    turns 1 1 (.ok "") ++ turns 2 4 (.error "down")

theorem joining_fetches_once : ∃ p, machine.run joining startPool = some p ∧
    (∀ key, (p.tasks.filter (fetching key)).length ≤ 1) ∧
    (∀ i t a, p.tasks[i]? = some t → t.result? = some a →
      a ≠ .error .recvError ∧
        ((∃ result ∈ t.log Op.outcome, a = answer result) ∨ Joined joining p i t.call a)) ∧
    ((∀ t ∈ p.tasks, t.result?.isSome = true) →
      (∀ key, p.state.inFlight.lookup key = none) ∧
        p.state.totalRequests = p.state.coalescedRequests + p.state.cacheMisses) := by
  have hr : (machine.run joining startPool).isSome = true := by decide +kernel
  obtain ⟨p, hp⟩ := Option.isSome_iff_exists.mp hr
  exact ⟨p, hp, single_flight hp⟩

end HelixRouter.Coalescing
