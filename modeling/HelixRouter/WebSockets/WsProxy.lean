import HelixRouter.Interleaving.Ledger
import Mathlib.Data.List.AList
import Mathlib.Data.UInt

namespace HelixRouter.WebSockets

open Interleaving

inductive WsMessageType where
  | text (s : String)
  | binary (b : List UInt8)
  | ping (b : List UInt8)
  | pong (b : List UInt8)
  | close (code : UInt16) (reason : String)

def WsMessageType.byteLen : WsMessageType → Nat
  | .text s => s.utf8ByteSize
  | .binary b | .ping b | .pong b => b.length
  | .close _ reason => reason.utf8ByteSize

inductive ConnectionState where
  | connecting
  | open
  | closing
  | closed
  deriving DecidableEq

/-- Instants count nanoseconds. -/
structure WsConnection where
  id : String
  state : ConnectionState := .connecting
  messagesSent : UInt64 := 0
  bytesSent : UInt64 := 0
  lastActivity : Nat

def WsConnection.new (id : String) (now : Nat) : WsConnection := { id, lastActivity := now }

def WsConnection.isActive (c : WsConnection) : Bool := c.state = .open

def WsConnection.idleSecs (c : WsConnection) (now : Nat) : Nat :=
  (now - c.lastActivity) / 1000000000

/-- The connections that were ever admitted, and which of them each id has now. Whoever has got
one keeps it. -/
structure WsProxy where
  connections : AList (fun _ : String => Nat) := ∅
  conns : List WsConnection := []
  subscriptions : AList (fun _ : String => List String) := ∅
  totalMessagesRouted : UInt64 := 0
  bytesProxied : UInt64 := 0
  evictedConnections : UInt64 := 0

/-- The clock, and what a walk over a map comes by, which others may change meanwhile. -/
structure Env where
  now : Nat := 0
  walk : List String := []

/-- The atomic steps. -/
inductive Op where
  | len
  | insert (conn : WsConnection)
  | get (id : String)
  | remove (id : String)
  | ids
  | topics
  | idleSecs (id : String)
  | isActive (c : Nat)
  | addMessage (c : Nat)
  | addBytes (c n : Nat)
  | touch (c : Nat)
  | setClosed (c : Nat)
  | subscribers (topic : String)
  | subscribe (id topic : String)
  | unsubscribe (id topic : String)
  | addRouted (n : Nat)
  | addProxied (n : Nat)
  | addEvicted (n : Nat)

abbrev Op.Resp : Op → Type
  | .len => Nat
  | .get _ => Option Nat
  | .ids | .topics | .subscribers _ => List String
  | .idleSecs _ => Option Nat
  | .isActive _ => Bool
  | _ => Unit

inductive Call where
  | addConnection (id : String) (connectedAt : Nat)
  | removeConnection (id : String)
  | broadcast (topic : String) (msg : WsMessageType)
  | evictIdle
  | subscribe (id topic : String)
  | unsubscribe (id topic : String)

namespace WsProxy

variable (s : WsProxy)

def insert (conn : WsConnection) : WsProxy :=
  { s with
    connections := s.connections.insert conn.id s.conns.length
    conns := s.conns ++ [{ conn with state := .open }] }

def update (c : Nat) (f : WsConnection → WsConnection) : Option (Unit × WsProxy × List Call) :=
  if c < s.conns.length then some ((), { s with conns := s.conns.modify c f }, []) else none

def subscribersOf (topic : String) : List String := (s.subscriptions.lookup topic).getD []

def subscribe (id topic : String) : WsProxy :=
  { s with
    subscriptions := s.subscriptions.insert topic ((s.subscribersOf topic).insert id) }

def unsubscribe (id topic : String) : WsProxy :=
  match s.subscriptions.lookup topic with
  | none => s
  | some subs => { s with subscriptions := s.subscriptions.insert topic (subs.erase id) }

end WsProxy

/-- A set is walked in any order. The counters wrap, like the product that counts the bytes. -/
def Op.exec : (e : Op) → Env → WsProxy → Option (e.Resp × WsProxy × List Call)
  | .len, _, s => some (s.connections.keys.length, s, [])
  | .insert conn, _, s => some ((), s.insert conn, [])
  | .get id, _, s => some (s.connections.lookup id, s, [])
  | .remove id, _, s => some ((), { s with connections := s.connections.erase id }, [])
  | .ids, env, s => some (env.walk, s, [])
  | .topics, env, s => some (env.walk, s, [])
  | .idleSecs id, env, s =>
    some (((s.connections.lookup id).bind (s.conns[·]?)).map (·.idleSecs env.now), s, [])
  | .isActive c, _, s => some ((s.conns[c]?).any (·.isActive), s, [])
  | .addMessage c, _, s =>
    s.update c fun conn => { conn with messagesSent := conn.messagesSent + 1 }
  | .addBytes c n, _, s =>
    s.update c fun conn => { conn with bytesSent := conn.bytesSent + UInt64.ofNat n }
  | .touch c, env, s => s.update c fun conn => { conn with lastActivity := env.now }
  | .setClosed c, _, s => s.update c fun conn => { conn with state := .closed }
  | .subscribers topic, env, s =>
    if env.walk.Perm (s.subscribersOf topic) then some (env.walk, s, []) else none
  | .subscribe id topic, _, s => some ((), s.subscribe id topic, [])
  | .unsubscribe id topic, _, s => some ((), s.unsubscribe id topic, [])
  | .addRouted n, _, s =>
    some ((), { s with totalMessagesRouted := s.totalMessagesRouted + UInt64.ofNat n }, [])
  | .addProxied n, _, s =>
    some ((), { s with bytesProxied := s.bytesProxied + UInt64.ofNat n }, [])
  | .addEvicted n, _, s =>
    some ((), { s with evictedConnections := s.evictedConnections + UInt64.ofNat n }, [])

abbrev ProxyM := Prog Op Op.Resp

abbrev Op.perform (e : Op) : ProxyM e.Resp := Prog.perform e

inductive Answer where
  | done
  | refused (reason : String)
  | count (n : Nat)
  deriving DecidableEq

structure Limits where
  maxConnections : UInt64
  idleTimeoutSecs : UInt64

def addConnection (limits : Limits) (conn : WsConnection) : ProxyM Answer := do
  let n ← Op.len.perform
  if limits.maxConnections.toNat ≤ n then
    pure (.refused ("proxy at capacity (" ++ toString limits.maxConnections.toNat ++
      " connections)"))
  else
    (Op.insert conn).perform
    pure .done

def unsubscribeFrom (id : String) : List String → ProxyM Unit
  | [] => pure ()
  | topic :: topics => do
    (Op.unsubscribe id topic).perform
    unsubscribeFrom id topics

def removeConnection (id : String) : ProxyM Unit := do
  (Op.remove id).perform
  let topics ← Op.topics.perform
  unsubscribeFrom id topics

/-- The loop over the subscribers, with those it has delivered to so far. -/
def deliver (size : Nat) : List String → Nat → ProxyM Nat
  | [], delivered => pure delivered
  | id :: ids, delivered => do
    match ← (Op.get id).perform with
    | none => deliver size ids delivered
    | some c =>
      if ← (Op.isActive c).perform then
        (Op.addMessage c).perform
        (Op.addBytes c size).perform
        (Op.touch c).perform
        deliver size ids (delivered + 1)
      else deliver size ids delivered

def broadcast (topic : String) (msg : WsMessageType) : ProxyM Answer := do
  let subscribers ← (Op.subscribers topic).perform
  let delivered ← deliver msg.byteLen subscribers 0
  if 0 < delivered then
    (Op.addRouted delivered).perform
    (Op.addProxied (msg.byteLen * delivered)).perform
    pure (.count delivered)
  else pure (.count delivered)

/-- Those of the ids that are idle for too long when the walk comes by. -/
def collectStale (timeout : Nat) : List String → ProxyM (List String)
  | [] => pure []
  | id :: ids => do
    let idle ← (Op.idleSecs id).perform
    let stale ← collectStale timeout ids
    pure (if idle.any (timeout < ·) then id :: stale else stale)

def evictAll : List String → ProxyM Unit
  | [] => pure ()
  | id :: ids => do
    match ← (Op.get id).perform with
    | none => removeConnection id
    | some c => do
      (Op.setClosed c).perform
      removeConnection id
    evictAll ids

def evictIdle (limits : Limits) : ProxyM Answer := do
  let ids ← Op.ids.perform
  let stale ← collectStale limits.idleTimeoutSecs.toNat ids
  evictAll stale
  (Op.addEvicted stale.length).perform
  pure (.count stale.length)

def Call.body (limits : Limits) : Call → ProxyM Answer
  | .addConnection id connectedAt => WebSockets.addConnection limits (.new id connectedAt)
  | .removeConnection id => do
    WebSockets.removeConnection id
    pure .done
  | .broadcast topic msg => WebSockets.broadcast topic msg
  | .evictIdle => WebSockets.evictIdle limits
  | .subscribe id topic => do
    (Op.subscribe id topic).perform
    pure .done
  | .unsubscribe id topic => do
    (Op.unsubscribe id topic).perform
    pure .done

abbrev ProxyTask := Task Op Op.Resp Call Answer

abbrev ProxyPool := Pool Op Op.Resp WsProxy Call Answer

abbrev ProxyAction := Action Env Call

/-- Any number of calls at once. A connection is made anew for the call that adds it. -/
def machine (limits : Limits) : Machine Op Op.Resp WsProxy Env Call Answer where
  exec := Op.exec
  body := Call.body limits
  external _ := true

def startPool : ProxyPool := ⟨{}, []⟩

end HelixRouter.WebSockets
