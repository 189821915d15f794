import HelixRouter.WebSockets.WsProxy

namespace HelixRouter.WebSockets

open Interleaving

/-- A connection in the hand of a call: one that it has got, or one that it has found active and
is about to count for. -/
inductive Hand where
  | free
  | got (c : Nat)
  | target (c : Nat)

/-- What one call has in its hand, and what it has counted. -/
structure Share where
  hand : Hand := .free
  messages : Nat := 0
  bytes : Nat := 0
  routed : Nat := 0
  proxied : Nat := 0
  evicted : Nat := 0

namespace Share

def next (v : Share) : (e : Op) → e.Resp → Share
  | .get _, found => { v with hand := (found.map Hand.got).getD .free }
  | .isActive c, active => { v with hand := if active then .target c else .free }
  | .setClosed _, _ => { v with hand := .free }
  | .addMessage _, _ => { v with messages := v.messages + 1 }
  | .addBytes _ n, _ => { v with bytes := v.bytes + n }
  | .touch _, _ => { v with hand := .free }
  | .addRouted n, _ => { v with routed := v.routed + n }
  | .addProxied n, _ => { v with proxied := v.proxied + n }
  | .addEvicted n, _ => { v with evicted := v.evicted + n }
  | _, _ => v

/-- A call counts for the connection that it has just found active, and books no more than it
has counted. -/
def Allows (v : Share) : Op → Prop
  | .isActive c | .setClosed c => v.hand = .got c
  | .addMessage c | .addBytes c _ | .touch c => v.hand = .target c
  | .addRouted n => v.hand = .free ∧ v.routed + n ≤ v.messages
  | .addProxied n => v.hand = .free ∧ v.proxied + n ≤ v.bytes
  | .insert conn => v.hand = .free ∧ conn.messagesSent = 0 ∧ conn.bytesSent = 0
  | _ => v.hand = .free

/-- What a broadcast of a message answers is what it has counted and booked. -/
def Ended (v : Share) : Call → Answer → Prop
  | .broadcast _ msg, .count n =>
    v = { messages := n, bytes := msg.byteLen * n, routed := n, proxied := msg.byteLen * n }
  | .evictIdle, .count n => v = { evicted := n }
  | _, .count _ => False
  | _, _ => v = {}

end Share

def monitor : Monitor Op Op.Resp Call Answer Share where
  init _ := {}
  next := Share.next
  allow := Share.Allows
  may _ _ _ := True
  fin c a v := v.Ended c a

@[simp] theorem monitor_next (v : Share) (e : Op) (r : e.Resp) :
    monitor.next v e r = v.next e r := rfl

@[simp] theorem monitor_allow (v : Share) (e : Op) : monitor.allow v e ↔ v.Allows e := Iff.rfl

@[simp] theorem monitor_may (v : Share) (e : Op) (r : e.Resp) : monitor.may v e r := trivial

section Bodies

variable {limits : Limits} {v : Share}

attribute [local simp] Share.next Share.Allows

theorem unsubscribeFrom_wp (id : String) (topics : List String) (hv : v.hand = .free) :
    (unsubscribeFrom id topics).wp monitor (fun _ v' => v' = v) v := by
  induction topics with
  | nil => rfl
  | cons topic topics ih =>
    simp [unsubscribeFrom, hv]
    exact ih

theorem removeConnection_wp (id : String) (hv : v.hand = .free) :
    (removeConnection id).wp monitor (fun _ v' => v' = v) v := by
  simp [removeConnection, hv]
  exact fun topics => unsubscribeFrom_wp id topics hv

theorem deliver_wp (size : Nat) (ids : List String) (delivered : Nat) :
    (deliver size ids delivered).wp monitor
      (fun n v => v = { messages := n, bytes := size * n })
      { messages := delivered, bytes := size * delivered } := by
  induction ids generalizing delivered with
  | nil => rfl
  | cons id ids ih =>
    simp [deliver]
    rintro (_ | c)
    · exact ih delivered
    · simp
      exact ⟨ih delivered, ih (delivered + 1)⟩

theorem collectStale_wp (timeout : Nat) (ids : List String) (hv : v.hand = .free) :
    (collectStale timeout ids).wp monitor (fun _ v' => v' = v) v := by
  induction ids with
  | nil => rfl
  | cons id ids ih =>
    simp [collectStale, hv]
    exact fun idle => Prog.wp_mono ih fun stale _ hv' => hv'

theorem evictAll_wp (ids : List String) (hv : v.hand = .free) :
    (evictAll ids).wp monitor (fun _ v' => v' = v) v := by
  obtain ⟨hand, messages, bytes, routed, proxied, evicted⟩ := v
  obtain rfl : hand = .free := hv
  induction ids with
  | nil => rfl
  | cons id ids ih =>
    have hrest : (removeConnection id >>= fun _ => evictAll ids).wp monitor
        (fun _ v' => v' = ⟨.free, messages, bytes, routed, proxied, evicted⟩)
        ⟨.free, messages, bytes, routed, proxied, evicted⟩ := by
      rw [Prog.wp_bind]
      refine Prog.wp_mono (removeConnection_wp id rfl) ?_
      rintro - v rfl
      exact ih
    rw [Prog.wp_bind] at hrest
    simp [evictAll]
    rintro (_ | c)
    · simpa using hrest
    · simpa using hrest

theorem broadcast_wp (topic : String) (msg : WsMessageType) :
    (broadcast topic msg).wp monitor (fun a v => v.Ended (.broadcast topic msg) a) {} := by
  simp [broadcast]
  intro ids
  refine Prog.wp_mono (deliver_wp msg.byteLen ids 0) ?_
  rintro n v rfl
  rw [Prog.wp_ite]
  split
  · simp [Share.Ended]
  · rename_i hn
    obtain rfl : n = 0 := Nat.eq_zero_of_not_pos hn
    simp [Share.Ended]

theorem evictIdle_wp :
    (evictIdle limits).wp monitor (fun a v => v.Ended .evictIdle a) {} := by
  simp [evictIdle]
  intro ids
  refine Prog.wp_mono (collectStale_wp _ ids rfl) ?_
  rintro stale v rfl
  rw [Prog.wp_bind]
  refine Prog.wp_mono (evictAll_wp stale rfl) ?_
  rintro - v rfl
  simp [Share.Ended]

theorem body_wp (c : Call) : (c.body limits).wp monitor (monitor.fin c) (monitor.init c) := by
  cases c with
  | addConnection id connectedAt =>
    simp only [Call.body, addConnection, Prog.wp_bind, Prog.wp_perform, Prog.wp_ite, Prog.wp_pure]
    refine ⟨rfl, fun n _ => ?_⟩
    split
    · rfl
    · exact ⟨⟨rfl, rfl, rfl⟩, fun _ _ => rfl⟩
  | removeConnection id =>
    exact (Prog.wp_bind _ _ _ _).mpr (removeConnection_wp id rfl)
  | broadcast topic msg => exact broadcast_wp topic msg
  | evictIdle => exact evictIdle_wp
  | subscribe id topic => exact ⟨rfl, fun _ _ => rfl⟩
  | unsubscribe id topic => exact ⟨rfl, fun _ _ => rfl⟩

end Bodies

inductive Account where
  | messages
  | bytes
  | routed
  | proxied
  | evicted

namespace WsProxy

def messagesSent (s : WsProxy) : UInt64 := (s.conns.map (·.messagesSent)).sum

def bytesSent (s : WsProxy) : UInt64 := (s.conns.map (·.bytesSent)).sum

end WsProxy

def held : Account → Share → Nat
  | .messages, v => v.messages
  | .bytes, v => v.bytes
  | .routed, v => v.routed
  | .proxied, v => v.proxied
  | .evicted, v => v.evicted

/-- What all calls together have counted so far, however much that is. -/
def counted (i : Account) (p : ProxyPool) : Nat := p.tally monitor (held i)

/-- The connections that are gone count as well. -/
def register : Account → WsProxy → UInt64
  | .messages, s => s.messagesSent
  | .bytes, s => s.bytesSent
  | .routed, s => s.totalMessagesRouted
  | .proxied, s => s.bytesProxied
  | .evicted, s => s.evictedConnections

/-- What an operation counts. -/
def Op.counts : Account → Op → Nat
  | .messages, .addMessage _ => 1
  | .bytes, .addBytes _ n => n
  | .routed, .addRouted n => n
  | .proxied, .addProxied n => n
  | .evicted, .addEvicted n => n
  | _, _ => 0

section Books

variable {limits : Limits} {e : Op} {env : Env} {s s' : WsProxy} {r : e.Resp} {new : List Call}
  {v : Share}

theorem sum_map_modify {A : Type} {f : A → UInt64} {g : A → A} {n : UInt64} {l : List A} {i : Nat}
    (hf : ∀ a, f (g a) = f a + n) (hi : i < l.length) :
    ((l.modify i g).map f).sum = (l.map f).sum + n := by
  induction l generalizing i with
  | nil => cases hi
  | cons a l ih =>
    cases i with
    | zero =>
      simp only [List.modify_zero_cons, List.map_cons, List.sum_cons, hf]
      rw [UInt64.add_assoc, UInt64.add_comm n, ← UInt64.add_assoc]
    | succ i =>
      simp only [List.modify_succ_cons, List.map_cons, List.sum_cons,
        ih (Nat.lt_of_succ_lt_succ hi)]
      rw [UInt64.add_assoc]

theorem WsProxy.update_cases {c : Nat} {f : WsConnection → WsConnection} {u : Unit}
    (hx : s.update c f = some (u, s', new)) :
    c < s.conns.length ∧ s' = { s with conns := s.conns.modify c f } ∧ new = [] := by
  obtain ⟨hc, heq⟩ := Option.ite_none_right_eq_some.mp hx
  cases heq
  exact ⟨hc, rfl, rfl⟩

theorem Op.exec_new (hx : e.exec env s = some (r, s', new)) : new = [] := by
  cases e with
  | subscribers topic =>
    obtain ⟨-, heq⟩ := Option.ite_none_right_eq_some.mp hx
    cases heq
    rfl
  | addMessage | addBytes | touch | setClosed => exact (WsProxy.update_cases hx).2.2
  | _ =>
    cases hx
    rfl

/-- What the registers gain when one connection gains this much. -/
theorem register_update {c : Nat} {f : WsConnection → WsConnection} {u : Unit} {m b : UInt64}
    (hx : s.update c f = some (u, s', new))
    (hm : ∀ conn, (f conn).messagesSent = conn.messagesSent + m)
    (hb : ∀ conn, (f conn).bytesSent = conn.bytesSent + b) (i : Account) :
    register i s' = register i s + match i with
      | .messages => m
      | .bytes => b
      | _ => 0 := by
  obtain ⟨hc, rfl, -⟩ := WsProxy.update_cases hx
  cases i with
  | messages => exact sum_map_modify hm hc
  | bytes => exact sum_map_modify hb hc
  | _ => exact (UInt64.add_zero _).symm

/-- A call has counted what its operations count. -/
theorem held_next (i : Account) (v : Share) (e : Op) (r : e.Resp) :
    held i (v.next e r) = held i v + e.counts i := by
  cases i <;> cases e <;> rfl

/-- The registers gain what an operation counts. -/
theorem register_exec (hx : e.exec env s = some (r, s', new)) (ha : v.Allows e) (i : Account) :
    register i s' = register i s + UInt64.ofNat (e.counts i) := by
  cases e with
  | insert conn =>
    cases hx
    cases i <;> simp [register, Op.counts, WsProxy.insert, WsProxy.messagesSent,
      WsProxy.bytesSent, ha.2.1, ha.2.2]
  | subscribers topic =>
    obtain ⟨-, heq⟩ := Option.ite_none_right_eq_some.mp hx
    cases heq
    cases i <;> exact (UInt64.add_zero _).symm
  | unsubscribe id topic =>
    cases hx
    unfold WsProxy.unsubscribe
    split <;> cases i <;> exact (UInt64.add_zero _).symm
  | addMessage c =>
    rw [register_update (m := 1) (b := 0) hx (fun _ => rfl) fun _ => (UInt64.add_zero _).symm]
    cases i <;> rfl
  | addBytes c n =>
    rw [register_update (m := 0) hx (fun _ => (UInt64.add_zero _).symm) fun _ => rfl]
    cases i <;> rfl
  | touch c | setClosed c =>
    rw [register_update (m := 0) (b := 0) hx (fun _ => (UInt64.add_zero _).symm)
      fun _ => (UInt64.add_zero _).symm]
    cases i <;> rfl
  | addRouted n | addProxied n | addEvicted n =>
    cases hx
    cases i <;> first | rfl | exact (UInt64.add_zero _).symm
  | _ =>
    cases hx
    cases i <;> exact (UInt64.add_zero _).symm

/-- What is booked so far is covered by what the connections have counted. -/
def Share.Covers (v : Share) : Prop := v.routed ≤ v.messages ∧ v.proxied ≤ v.bytes

theorem Share.Covers.next (h : v.Covers) (ha : v.Allows e) (r : e.Resp) : (v.next e r).Covers := by
  obtain ⟨hrouted, hproxied⟩ := h
  cases e with
  | addMessage c => exact ⟨Nat.le_succ_of_le hrouted, hproxied⟩
  | addBytes c n => exact ⟨hrouted, Nat.le_add_right_of_le hproxied⟩
  | addRouted n => exact ⟨ha.2, hproxied⟩
  | addProxied n => exact ⟨hrouted, ha.2⟩
  | _ => exact ⟨hrouted, hproxied⟩

/-- Every register shows what has been counted for it. -/
def Registered (p : ProxyPool) : Prop := ∀ i, register i p.state = UInt64.ofNat (counted i p)

theorem registered_invariant (limits : Limits) :
    (machine limits).Invariant monitor (fun _ _ => True) Registered where
  body := body_wp
  start c s tasks _ _ hj i := by
    have hnew : counted i ⟨s, tasks ++ [(machine limits).spawn c]⟩ = counted i ⟨s, tasks⟩ := by
      rw [counted, Pool.tally_split, List.append_nil, Machine.view_spawn]
      cases i <;> exact Nat.zero_add _
    exact (hj i).trans (congrArg UInt64.ofNat hnew.symm)
  step env pre post t e next r s s' new _ hx _ _ ha hj := by
    replace hx : e.exec env s = some (r, s', new) := hx
    refine ⟨trivial, fun i => ?_⟩
    rw [Op.exec_new hx, List.map_nil, List.append_nil, register_exec hx ha, hj i, counted, counted,
      Pool.tally_split, Pool.tally_split, Task.view_advance, ← UInt64.ofNat_add]
    congr 1
    have hgain : held i (monitor.next (t.view monitor) e r) = held i (t.view monitor) + e.counts i :=
      held_next i (t.view monitor) e r
    omega

/-- What a broadcast has answered, and the eviction of what is idle. -/
def delivered (t : ProxyTask) : Nat :=
  match t.call, t.result? with
  | .broadcast _ _, some (.count n) => n
  | _, _ => 0

def deliveredBytes (t : ProxyTask) : Nat :=
  match t.call with
  | .broadcast _ msg => msg.byteLen * delivered t
  | _ => 0

def evictions (t : ProxyTask) : Nat :=
  match t.call, t.result? with
  | .evictIdle, some (.count n) => n
  | _, _ => 0

theorem held_of_ended {t : ProxyTask} (hf : t.Follows monitor) (hend : t.result?.isSome) :
    held .messages (t.view monitor) = delivered t ∧
    held .bytes (t.view monitor) = deliveredBytes t ∧
    held .routed (t.view monitor) = delivered t ∧
    held .proxied (t.view monitor) = deliveredBytes t ∧
    held .evicted (t.view monitor) = evictions t := by
  obtain ⟨a, ha⟩ := Option.isSome_iff_exists.mp hend
  have hended : (t.view monitor).Ended t.call a := hf.finished ha
  unfold deliveredBytes delivered evictions
  rw [ha]
  revert hended
  generalize t.view monitor = v
  generalize t.call = c
  intro hended
  cases c <;> cases a <;> cases hended <;> exact ⟨rfl, rfl, rfl, rfl, rfl⟩

variable {as : List ProxyAction} {p : ProxyPool}

theorem run_registered (hr : (machine limits).run as startPool = some p) :
    (Registered p ∧ ∀ t ∈ p.tasks, (t.view monitor).Covers) ∧ ∀ t ∈ p.tasks, t.Follows monitor := by
  refine ((registered_invariant limits).withViews (V := Share.Covers) (fun _ => ⟨Nat.le_refl 0,
    Nat.le_refl 0⟩) fun v e r h ha _ => h.next ha r).run Machine.guarded_true hr
    (by simp [startPool]) ⟨fun i => ?_, by simp [startPool]⟩
  cases i <;> rfl

/-- A register below another in what was counted is below it in what it shows, unless the
other one has wrapped. -/
theorem Registered.le (h : Registered p) {i k : Account} (hle : counted i p ≤ counted k p)
    (hlt : counted k p < 2 ^ 64) : register i p.state ≤ register k p.state := by
  rw [h i, h k, UInt64.le_iff_toNat_le, UInt64.toNat_ofNat_of_lt' hlt,
    UInt64.toNat_ofNat_of_lt' (Nat.lt_of_le_of_lt hle hlt)]
  exact hle

/-- However the calls interleave, the proxy never books what no connection has counted, as long
as no counter has wrapped; and whenever no call is in progress, the connections, those that are
gone included, the proxy and the answers of the broadcasts agree. -/
theorem proxy_books (hr : (machine limits).run as startPool = some p) :
    (counted .messages p < 2 ^ 64 → p.state.totalMessagesRouted ≤ p.state.messagesSent) ∧
    (counted .bytes p < 2 ^ 64 → p.state.bytesProxied ≤ p.state.bytesSent) ∧
    ((∀ t ∈ p.tasks, t.result?.isSome) →
      p.state.totalMessagesRouted = p.state.messagesSent ∧
      p.state.bytesProxied = p.state.bytesSent ∧
      p.state.totalMessagesRouted = UInt64.ofNat (p.tasks.map delivered).sum ∧
      p.state.bytesProxied = UInt64.ofNat (p.tasks.map deliveredBytes).sum ∧
      p.state.evictedConnections = UInt64.ofNat (p.tasks.map evictions).sum) := by
  obtain ⟨⟨hbooks, hcovers⟩, hf⟩ := run_registered hr
  refine ⟨?_, ?_, fun hend => ?_⟩
  · exact hbooks.le (i := .routed) (k := .messages) (Pool.tally_le fun t ht => (hcovers t ht).1)
  · exact hbooks.le (i := .proxied) (k := .bytes) (Pool.tally_le fun t ht => (hcovers t ht).2)
  · have hheld := fun t ht => held_of_ended (hf t ht) (hend t ht)
    have hshown : ∀ (i : Account) (f : ProxyTask → Nat),
        (∀ t ∈ p.tasks, held i (t.view monitor) = f t) →
        register i p.state = UInt64.ofNat (p.tasks.map f).sum := fun i f h => by
      rw [hbooks i, counted, Pool.tally, List.map_congr_left h]
    have hmessages := hshown .messages delivered fun t ht => (hheld t ht).1
    have hbytes := hshown .bytes deliveredBytes fun t ht => (hheld t ht).2.1
    have hrouted := hshown .routed delivered fun t ht => (hheld t ht).2.2.1
    have hproxied := hshown .proxied deliveredBytes fun t ht => (hheld t ht).2.2.2.1
    have hevicted := hshown .evicted evictions fun t ht => (hheld t ht).2.2.2.2
    exact ⟨hrouted.trans hmessages.symm, hproxied.trans hbytes.symm, hrouted, hproxied, hevicted⟩

def turns (i n : Nat) (env : Env) : List ProxyAction := List.replicate n (.step i env)

/-- Two connections hear a broadcast, and one of them is evicted later on. -/
def heardAndEvicted : List ProxyAction :=
  .start (.addConnection "a" 0) :: turns 0 2 {} ++ .start (.addConnection "b" 0) :: turns 1 2 {} ++
    .start (.subscribe "a" "news") :: turns 2 1 {} ++
    .start (.subscribe "b" "news") :: turns 3 1 {} ++
    .start (.broadcast "news" (.text "hi")) :: turns 4 13 { walk := ["a", "b"] } ++
    .start .evictIdle :: turns 5 5 { now := 400000000000, walk := ["a"] } ++
    turns 5 3 { walk := ["news"] }

theorem proxy_books_evicted : ∃ p, (machine ⟨8, 300⟩).run heardAndEvicted startPool = some p ∧
    p.state.connections.keys = ["b"] ∧
    p.state.totalMessagesRouted = p.state.messagesSent ∧ p.state.bytesProxied = p.state.bytesSent ∧
    p.state.totalMessagesRouted = UInt64.ofNat (p.tasks.map delivered).sum ∧
    (p.tasks.map delivered).sum = 2 ∧
    p.state.evictedConnections = UInt64.ofNat (p.tasks.map evictions).sum ∧
    (p.tasks.map evictions).sum = 1 := by
  have hsome : (((machine ⟨8, 300⟩).run heardAndEvicted startPool).any fun p =>
      p.tasks.all (fun t => t.result?.isSome) && p.state.connections.keys == ["b"] &&
        (p.tasks.map delivered).sum == 2 && (p.tasks.map evictions).sum == 1) = true := by
    decide +kernel
  obtain ⟨p, hr, hp⟩ := (Option.any_eq_true _ _).mp hsome
  simp only [Bool.and_eq_true, beq_iff_eq, List.all_eq_true] at hp
  obtain ⟨⟨⟨hend, hkeys⟩, hdelivered⟩, hevicted⟩ := hp
  obtain ⟨hrouted, hproxied, hanswers, -, hevictions⟩ := (proxy_books hr).2.2 hend
  exact ⟨p, hr, hkeys, hrouted, hproxied, hanswers, hdelivered, hevictions, hevicted⟩

end Books

/-- What a connection has to show for what was counted for it. -/
def heard (c : Nat) (s : WsProxy) : Option (UInt64 × UInt64 × Nat) :=
  (s.conns[c]?).map fun conn => (conn.messagesSent, conn.bytesSent, conn.lastActivity)

/-- The connection that a step is about. -/
def Op.conn? : Op → Option Nat
  | .isActive c | .setClosed c | .addMessage c | .addBytes c _ | .touch c => some c
  | _ => none

/-- The ways for a connection to be gone. -/
inductive Way where
  | closed
  | unregistered

namespace Way

def Holds (c : Nat) (s : WsProxy) : Way → Prop
  | closed => ∃ conn, s.conns[c]? = some conn ∧ conn.isActive = false
  | unregistered => c < s.conns.length ∧ ∀ id, s.connections.lookup id ≠ some c

/-- A call that may still be told about the connection, but will not count for it. -/
def Apart (c : Nat) (v : Share) : Way → Prop
  | closed => v.hand ≠ .target c
  | unregistered => v.hand ≠ .got c ∧ v.hand ≠ .target c

end Way

section Gone

variable {limits : Limits} {e : Op} {env : Env} {s s' : WsProxy} {r : e.Resp} {new : List Call}
  {v : Share} {c : Nat} {w : Way}

theorem Way.Holds.lt_length (h : w.Holds c s) : c < s.conns.length := by
  cases w with
  | closed =>
    obtain ⟨conn, hconn, -⟩ := h
    exact (List.getElem?_eq_some_iff.mp hconn).1
  | unregistered => exact h.1

theorem Way.Apart.ne_target (h : w.Apart c v) : v.hand ≠ .target c := by
  cases w with
  | closed => exact h
  | unregistered => exact h.2

/-- A connection after a step: what was done to it if it was in the hand of the call. -/
theorem getElem?_update {c' : Nat} {f : WsConnection → WsConnection} {u : Unit}
    (hx : s.update c' f = some (u, s', new)) (c : Nat) :
    s'.conns[c]? = (s.conns[c]?).map fun conn => if c' = c then f conn else conn := by
  obtain ⟨-, rfl, -⟩ := WsProxy.update_cases hx
  exact List.getElem?_modify ..

theorem heard_update {c' : Nat} {f : WsConnection → WsConnection} {u : Unit}
    (hx : s.update c' f = some (u, s', new)) (hne : c' ≠ c) : heard c s' = heard c s := by
  simp only [heard, getElem?_update hx, if_neg hne, Option.map_id']

/-- A call that is apart from a connection counts for another one. -/
theorem heard_step (h : w.Holds c s) (hv : w.Apart c v) (ha : v.Allows e)
    (hx : e.exec env s = some (r, s', new)) : heard c s' = heard c s := by
  have hother : ∀ {c'}, v.hand = .target c' → c' ≠ c := fun ht hc => hv.ne_target (hc ▸ ht)
  cases e with
  | insert conn =>
    cases hx
    simp only [heard, WsProxy.insert, List.getElem?_append_left h.lt_length]
  | addMessage c' => exact heard_update hx (hother ha)
  | addBytes c' n => exact heard_update hx (hother ha)
  | touch c' => exact heard_update hx (hother ha)
  | setClosed c' =>
    simp only [heard, getElem?_update hx, Option.map_map]
    congr 1
    funext conn
    simp only [Function.comp_apply]
    split <;> rfl
  | subscribers topic =>
    obtain ⟨-, heq⟩ := Option.ite_none_right_eq_some.mp hx
    cases heq
    rfl
  | unsubscribe id topic =>
    cases hx
    unfold WsProxy.unsubscribe
    split <;> rfl
  | _ =>
    cases hx
    rfl

/-- No connection is opened or registered again. -/
theorem holds_update {c' : Nat} {f : WsConnection → WsConnection} {u : Unit} (h : w.Holds c s)
    (hx : s.update c' f = some (u, s', new))
    (hf : ∀ conn : WsConnection, conn.isActive = false → (f conn).isActive = false) :
    w.Holds c s' := by
  cases w with
  | closed =>
    obtain ⟨conn, hconn, hinactive⟩ := h
    refine ⟨_, by rw [getElem?_update hx, hconn]; rfl, ?_⟩
    dsimp only
    split
    · exact hf conn hinactive
    · exact hinactive
  | unregistered =>
    obtain ⟨-, rfl, -⟩ := WsProxy.update_cases hx
    exact ⟨by rw [List.length_modify]; exact h.1, h.2⟩

theorem holds_step (h : w.Holds c s) (hx : e.exec env s = some (r, s', new)) : w.Holds c s' := by
  cases e with
  | insert conn =>
    cases hx
    cases w with
    | closed =>
      obtain ⟨conn', hconn, hinactive⟩ := h
      have hlt := (List.getElem?_eq_some_iff.mp hconn).1
      exact ⟨conn', (List.getElem?_append_left hlt).trans hconn, hinactive⟩
    | unregistered =>
      obtain ⟨hlt, hnone⟩ := h
      refine ⟨Nat.lt_of_lt_of_le hlt (by simp [WsProxy.insert]), fun id => ?_⟩
      simp only [WsProxy.insert]
      by_cases hid : id = conn.id
      · rw [hid, AList.lookup_insert]
        exact fun heq => hlt.ne' (Option.some.inj heq)
      · rw [AList.lookup_insert_ne hid]
        exact hnone id
  | remove id =>
    cases hx
    cases w with
    | closed => exact h
    | unregistered =>
      refine ⟨h.1, fun id' => ?_⟩
      by_cases hid : id' = id
      · rw [hid, AList.lookup_erase]
        exact nofun
      · rw [AList.lookup_erase_ne hid]
        exact h.2 id'
  | addMessage c' => exact holds_update h hx fun _ hc => hc
  | addBytes c' n => exact holds_update h hx fun _ hc => hc
  | touch c' => exact holds_update h hx fun _ hc => hc
  | setClosed c' => exact holds_update h hx fun _ _ => rfl
  | subscribers topic =>
    obtain ⟨-, heq⟩ := Option.ite_none_right_eq_some.mp hx
    cases heq
    exact h
  | unsubscribe id topic =>
    cases hx
    unfold WsProxy.unsubscribe
    split <;> cases w <;> exact h
  | _ =>
    cases hx
    cases w <;> exact h

theorem apart_step (h : w.Holds c s) (hv : w.Apart c v) (ha : v.Allows e)
    (hx : e.exec env s = some (r, s', new)) : w.Apart c (v.next e r) := by
  cases e with
  | get id =>
    cases hx
    cases hfound : s.connections.lookup id with
    | none => cases w <;> simp [Way.Apart, Share.next]
    | some c' =>
      cases w with
      | closed => simp [Way.Apart, Share.next]
      | unregistered =>
        have hne : c' ≠ c := fun hc => h.2 id (hc ▸ hfound)
        simp [Way.Apart, Share.next, hne]
  | isActive c' =>
    cases hx
    have hgot : v.hand = .got c' := ha
    cases hactive : (s.conns[c']?).any (·.isActive) with
    | false => cases w <;> simp [Way.Apart, Share.next]
    | true =>
      have hne : c' ≠ c := by
        rintro rfl
        cases w with
        | closed =>
          obtain ⟨conn, hconn, hinactive⟩ := h
          rw [hconn, Option.any_some, hinactive] at hactive
          cases hactive
        | unregistered => exact hv.1 hgot
      cases w <;> simp [Way.Apart, Share.next, hne]
  | setClosed c' => cases w <;> simp [Way.Apart, Share.next]
  | touch c' => cases w <;> simp [Way.Apart, Share.next]
  | _ => cases w <;> exact hv

theorem hand_of_allows (ha : v.Allows e) (hv : v.hand = .got c ∨ v.hand = .target c) :
    e.conn? = some c := by
  cases e with
  | isActive c' | setClosed c' =>
    rw [show v.hand = .got c' from ha] at hv
    rcases hv with hv | hv <;> cases hv
    rfl
  | addMessage c' | addBytes c' n | touch c' =>
    rw [show v.hand = .target c' from ha] at hv
    rcases hv with hv | hv <;> cases hv
    rfl
  | insert conn | addRouted n | addProxied n =>
    rw [ha.1] at hv
    rcases hv with hv | hv <;> cases hv
  | _ =>
    rw [show v.hand = .free from ha] at hv
    rcases hv with hv | hv <;> cases hv

theorem hand_of_ended {call : Call} {a : Answer} (h : v.Ended call a) : v.hand = .free := by
  cases call <;> cases a <;> cases h <;> rfl

theorem gone_invariant (limits : Limits) (w : Way) (c : Nat) (before : Option (UInt64 × UInt64 × Nat)) :
    (machine limits).Invariant monitor (fun _ _ => True) fun p =>
      (heard c p.state = before ∧ w.Holds c p.state) ∧ ∀ t ∈ p.tasks, w.Apart c (t.view monitor) where
  body := body_wp
  start c' s tasks _ _ hj := by
    refine ⟨hj.1, fun t ht => ?_⟩
    rcases List.mem_append.mp ht with ht | ht
    · exact hj.2 t ht
    · rw [List.mem_singleton.mp ht, Machine.view_spawn]
      cases w with
      | closed => exact nofun
      | unregistered => exact ⟨nofun, nofun⟩
  step env pre post t e next r s s' new _ hx _ _ ha hj := by
    obtain ⟨⟨hheard, hholds⟩, hapart⟩ := hj
    replace hx : e.exec env s = some (r, s', new) := hx
    have ht := hapart t (by simp)
    refine ⟨trivial, ⟨(heard_step hholds ht ha hx).trans hheard, holds_step hholds hx⟩, fun u hu => ?_⟩
    rw [Op.exec_new hx, List.map_nil, List.append_nil] at hu
    rcases List.mem_append.mp hu with hu | hu
    · exact hapart u (List.mem_append_left _ hu)
    · rcases List.mem_cons.mp hu with rfl | hu
      · rw [Task.view_advance]
        exact apart_step hholds ht ha hx
      · exact hapart u (List.mem_append_right _ (List.mem_cons_of_mem _ hu))

variable {as bs : List ProxyAction} {p q : ProxyPool}

theorem apart_of_not_about {t : ProxyTask} (hf : t.Follows monitor)
    (ht : ∀ e, t.prog.head? = some e → e.conn? ≠ some c) (w : Way) :
    w.Apart c (t.view monitor) := by
  have hnot : ¬ ((t.view monitor).hand = .got c ∨ (t.view monitor).hand = .target c) := by
    cases hp : t.prog with
    | ret a =>
      rw [hand_of_ended (hf.finished (a := a) (by rw [Task.result?, hp]))]
      simp
    | op e next =>
      have hhead : t.prog.head? = some e := by rw [hp]; rfl
      exact fun hv => ht e hhead (hand_of_allows (hf.allowed hp) hv)
  rw [not_or] at hnot
  cases w with
  | closed => exact hnot.2
  | unregistered => exact hnot

/-- A connection that is closed or no longer registered, at a moment when no call is about to
do something with it, is never counted for or heard of again. -/
theorem gone_hears_nothing (hr : (machine limits).run as startPool = some p)
    (hidle : ∀ t ∈ p.tasks, ∀ e, t.prog.head? = some e → e.conn? ≠ some c)
    (hgone : ∃ w : Way, w.Holds c p.state) (hq : (machine limits).run bs p = some q) :
    heard c q.state = heard c p.state ∧ ∃ w : Way, w.Holds c q.state := by
  obtain ⟨w, hholds⟩ := hgone
  obtain ⟨-, hf⟩ := run_registered hr
  obtain ⟨⟨⟨hheard, hgone⟩, -⟩, -⟩ := (gone_invariant limits w c (heard c p.state)).run
    Machine.guarded_true hq hf
    ⟨⟨rfl, hholds⟩, fun t ht => apart_of_not_about (hf t ht) (hidle t ht) w⟩
  exact ⟨hheard, w, hgone⟩

/-- Another connection comes under the id of the one that was evicted, and hears a broadcast. -/
def sameIdAgain : List ProxyAction :=
  .start (.addConnection "a" 500000000000) :: turns 6 2 {} ++
    .start (.subscribe "a" "news") :: turns 7 1 {} ++
    .start (.broadcast "news" (.text "hello")) :: turns 8 13 { walk := ["b", "a"] }

theorem gone_hears_nothing_again : ∃ p q,
    (machine ⟨8, 300⟩).run heardAndEvicted startPool = some p ∧
    (machine ⟨8, 300⟩).run sameIdAgain p = some q ∧
    heard 0 q.state = some (1, 2, 0) ∧ heard 2 q.state = some (1, 5, 0) := by
  have hsome : (((machine ⟨8, 300⟩).run heardAndEvicted startPool).any fun p =>
      p.tasks.all (fun t => t.prog.head?.isNone) && (p.state.conns[0]?).any (!·.isActive) &&
        heard 0 p.state == some (1, 2, 0) &&
        ((machine ⟨8, 300⟩).run sameIdAgain p).any (heard 2 ·.state == some (1, 5, 0))) = true := by
    decide +kernel
  obtain ⟨p, hr, hp⟩ := (Option.any_eq_true _ _).mp hsome
  simp only [Bool.and_eq_true, beq_iff_eq, List.all_eq_true, Option.isNone_iff_eq_none] at hp
  obtain ⟨⟨⟨hend, hclosed⟩, hbefore⟩, hagain⟩ := hp
  obtain ⟨conn, hconn, hinactive⟩ := (Option.any_eq_true _ _).mp hclosed
  obtain ⟨q, hq, hnew⟩ := (Option.any_eq_true _ _).mp hagain
  have hidle : ∀ t ∈ p.tasks, ∀ e, t.prog.head? = some e → e.conn? ≠ some 0 := fun t ht e he => by
    rw [hend t ht] at he
    cases he
  obtain ⟨hsame, -⟩ := gone_hears_nothing hr hidle ⟨.closed, conn, hconn, by simpa using hinactive⟩ hq
  exact ⟨p, q, hr, hq, hsame.trans hbefore, beq_iff_eq.mp hnew⟩

end Gone

end HelixRouter.WebSockets
