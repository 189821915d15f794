import HelixRouter.Containers.Retain
import HelixRouter.Interleaving.Pool

namespace HelixRouter.Coalescing

open Interleaving

inductive CoalesceError where
  | fetchFailed (msg : String)
  | recvError
  deriving DecidableEq

/-- What a fetch returns, and what is broadcast. -/
abbrev Fetched := Except String String

abbrev ChannelId := Nat

/-- A broadcast channel, with the messages sent on it and the owners its sender has. -/
structure Channel where
  messages : List Fetched := []
  owners : Nat

/-- Messages the channel keeps for a slow receiver. -/
def capacity : Nat := 64

/-- A receiver gets what is sent after it subscribed. -/
structure Receiver where
  channel : ChannelId
  position : Nat
  deriving DecidableEq

structure RequestCoalescer where
  inFlight : AList (fun _ : String => ChannelId) := ∅
  channels : List Channel := []
  totalRequests : Nat := 0
  coalescedRequests : Nat := 0
  cacheMisses : Nat := 0

namespace RequestCoalescer

def subscribe (s : RequestCoalescer) (id : ChannelId) : Receiver where
  channel := id
  position := (s.channels[id]?).elim 0 fun c => c.messages.length

def modifyChannel (s : RequestCoalescer) (id : ChannelId) (f : Channel → Channel) :
    RequestCoalescer :=
  { s with channels := s.channels.modify id f }

/-- One owner of a sender lets go of it. -/
def release (s : RequestCoalescer) (id : ChannelId) : RequestCoalescer :=
  s.modifyChannel id fun c => { c with owners := c.owners - 1 }

end RequestCoalescer

/-- What a caller is once it has entered the map. -/
inductive Role where
  | joiner (rx : Receiver)
  | leader (tx : ChannelId)

/-- The atomic steps. A caller subscribes while it holds the map's reference. `recv` awaits a
message, and `fetch` stands for the whole time the fetch runs. -/
inductive Op where
  | countTotal
  | countCoalesced
  | countMiss
  | join (key : String)
  | enter (key : String)
  | fetch
  | remove (key : String)
  | send (tx : ChannelId) (result : Fetched)
  | dropSender (tx : ChannelId)
  | recv (rx : Receiver)

abbrev Op.Resp : Op → Type
  | .join _ => Option Receiver
  | .enter _ => Role
  | .fetch => Fetched
  | .recv _ => Option Fetched
  | _ => Unit

/-- A fetch is asked for a key. -/
abbrev Call := String

/-- The map and the caller that leads own a new sender. A receiver is turned away when it
has fallen behind, or when no message can come any more. -/
def Op.exec : (e : Op) → Fetched → RequestCoalescer →
    Option (e.Resp × RequestCoalescer × List Call)
  | .countTotal, _, s => some ((), { s with totalRequests := s.totalRequests + 1 }, [])
  | .countCoalesced, _, s => some ((), { s with coalescedRequests := s.coalescedRequests + 1 }, [])
  | .countMiss, _, s => some ((), { s with cacheMisses := s.cacheMisses + 1 }, [])
  | .join key, _, s => some ((s.inFlight.lookup key).map s.subscribe, s, [])
  | .enter key, _, s =>
    match s.inFlight.lookup key with
    | some id => some (.joiner (s.subscribe id), s, [])
    | none =>
      let id := s.channels.length
      some (.leader id, { s with
        inFlight := s.inFlight.insert key id
        channels := s.channels ++ [{ owners := 2 }] }, [])
  | .fetch, output, s => some (output, s, [])
  | .remove key, _, s =>
    match s.inFlight.lookup key with
    | none => some ((), s, [])
    | some id => some ((), { s.release id with inFlight := s.inFlight.erase key }, [])
  | .send tx result, _, s =>
    some ((), s.modifyChannel tx fun c => { c with messages := c.messages ++ [result] }, [])
  | .dropSender tx, _, s => some ((), s.release tx, [])
  | .recv rx, _, s =>
    match s.channels[rx.channel]? with
    | none => none
    | some c =>
      if rx.position + capacity < c.messages.length then some (none, s, [])
      else
        match c.messages[rx.position]? with
        | some message => some (some message, s, [])
        | none => if c.owners = 0 then some (none, s, []) else none

abbrev CoalesceM := Prog Op Op.Resp

abbrev Op.perform (e : Op) : CoalesceM e.Resp := Prog.perform e

abbrev Answer := Except CoalesceError String

def answer : Fetched → Answer
  | .ok value => .ok value
  | .error msg => .error (.fetchFailed msg)

def awaitResult (rx : Receiver) : CoalesceM Answer := do
  Op.countCoalesced.perform
  match ← (Op.recv rx).perform with
  | some message => pure (answer message)
  | none => pure (.error .recvError)

def lead (key : String) (tx : ChannelId) : CoalesceM Answer := do
  Op.countMiss.perform
  let result ← Op.fetch.perform
  -- Joiners subscribe while they hold the map's reference, so all of them come before the send.
  (Op.remove key).perform
  (Op.send tx result).perform
  (Op.dropSender tx).perform
  pure (answer result)

def getOrFetch (key : String) : CoalesceM Answer := do
  Op.countTotal.perform
  match ← (Op.join key).perform with
  | some rx => awaitResult rx
  | none =>
    match ← (Op.enter key).perform with
    | .joiner rx => awaitResult rx
    | .leader tx => lead key tx

abbrev CoalesceTask := Task Op Op.Resp Call Answer

abbrev CoalescePool := Pool Op Op.Resp RequestCoalescer Call Answer

abbrev CoalesceAction := Action Fetched Call

def machine : Machine Op Op.Resp RequestCoalescer Fetched Call Answer where
  exec := Op.exec
  body := getOrFetch
  external _ := true

def startPool : CoalescePool := ⟨{}, []⟩

end HelixRouter.Coalescing
