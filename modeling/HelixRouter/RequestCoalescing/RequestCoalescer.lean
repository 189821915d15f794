import HelixRouter.Containers.IterationOrder
import HelixRouter.Containers.Retain

namespace HelixRouter.RequestCoalescing

/-- What a request results in. -/
abbrev Fetched := Except String String

/-- One-shot channels in the order they are made, which is that of the callers. -/
abbrev ChannelId := Nat

/-- Times are in nanoseconds. -/
structure PendingRequest (Key : Type) where
  key : Key
  waiters : List ChannelId
  submittedAt : Nat

structure RequestCoalescer (Key : Type) where
  inFlight : AList (fun _ : Key => PendingRequest Key) := ∅
  totalRequests : Nat := 0
  coalescedRequests : Nat := 0
  channels : ChannelId := 0

abbrev Message := ChannelId × Fetched

def nanosPerMilli : Nat := 1000000

def staleEntry : Fetched := .error "request pruned: stale entry"

variable {Content Key : Type} [DecidableEq Key]

namespace RequestCoalescer

/-- Whether the caller leads, and the channel it receives on. -/
def submitOrJoin (hashKey : Content → Key) (s : RequestCoalescer Key) (content : Content)
    (now : Nat) : (Bool × ChannelId) × RequestCoalescer Key :=
  let key := hashKey content
  let s := { s with totalRequests := s.totalRequests + 1 }
  let rx := s.channels
  match s.inFlight.lookup key with
  | some pending =>
    ((false, rx),
      { s with
        inFlight := s.inFlight.insert key { pending with waiters := pending.waiters ++ [rx] }
        coalescedRequests := s.coalescedRequests + 1
        channels := rx + 1 })
  | none =>
    ((true, rx),
      { s with
        inFlight := s.inFlight.insert key { key := key, waiters := [rx], submittedAt := now }
        channels := rx + 1 })

/-- Takes an entry out, with a message to each that waits for it. -/
def complete (s : RequestCoalescer Key) (key : Key) (result : Fetched) :
    List Message × RequestCoalescer Key :=
  match s.inFlight.lookup key with
  | some pending =>
    (pending.waiters.map (·, result), { s with inFlight := s.inFlight.erase key })
  | none => ([], s)

def isStale (maxAgeMs now : Nat) (p : PendingRequest Key) : Bool :=
  maxAgeMs * nanosPerMilli ≤ now - p.submittedAt

/-- The keys are collected in the order that the map is walked in. -/
def pruneStale (s : RequestCoalescer Key) (order : IterationOrder (Σ _ : Key, PendingRequest Key))
    (maxAgeMs now : Nat) : List Message × RequestCoalescer Key :=
  let staleKeys := ((order.arrange s.inFlight.entries).filter fun e =>
    isStale maxAgeMs now e.2).map (·.1)
  staleKeys.foldl (fun (sent, s) key =>
    let (messages, s) := s.complete key staleEntry
    (sent ++ messages, s)) ([], s)

/-- The caller an entry was made for: its channel is the first among those that wait. -/
def leader (s : RequestCoalescer Key) (key : Key) : Option ChannelId :=
  (s.inFlight.lookup key).bind (·.waiters.head?)

end RequestCoalescer

/-- A caller completes a key, or the entries that are stale are pruned. -/
inductive Source where
  | caller (id : ChannelId)
  | prune
  deriving DecidableEq

structure Delivery where
  receiver : ChannelId
  result : Fetched
  source : Source

inductive Call (Content Key : Type) where
  | submitOrJoin (content : Content)
  | complete (caller : ChannelId) (key : Key) (result : Fetched)
  | pruneStale (maxAgeMs : Nat) (order : IterationOrder (Σ _ : Key, PendingRequest Key))

structure Timed (Content Key : Type) where
  now : Nat
  call : Call Content Key

/-- A coalescer, with the entry that each caller was added to, given by its key and its leader,
and with what was sent on the channels. -/
structure History (Key : Type) where
  coalescer : RequestCoalescer Key := {}
  joined : List (Key × ChannelId) := []
  sent : List Delivery := []

namespace History

def deliver (h : History Key) (source : Source) (out : List Message × RequestCoalescer Key) :
    History Key :=
  { h with
    coalescer := out.2
    sent := h.sent ++ out.1.map fun m => ⟨m.1, m.2, source⟩ }

def step (hashKey : Content → Key) (h : History Key) (c : Timed Content Key) : History Key :=
  match c.call with
  | .submitOrJoin content =>
    let ((_, rx), s) := h.coalescer.submitOrJoin hashKey content c.now
    let key := hashKey content
    { h with coalescer := s, joined := h.joined ++ [(key, (s.leader key).getD rx)] }
  | .complete caller key result => h.deliver (.caller caller) (h.coalescer.complete key result)
  | .pruneStale maxAgeMs order =>
    h.deliver .prune (h.coalescer.pruneStale order maxAgeMs c.now)

/-- A caller leads an entry that is in flight. -/
def Leads (h : History Key) (caller : ChannelId) (key : Key) : Prop :=
  h.joined[caller]? = some (key, caller) ∧
    ∃ k p, h.coalescer.inFlight.lookup k = some p ∧ caller ∈ p.waiters

end History

def run (hashKey : Content → Key) (calls : List (Timed Content Key)) : History Key :=
  calls.foldl (History.step hashKey) {}

/-- Completions come from leaders, for the keys of their entries, and from each once. -/
structure Proper (hashKey : Content → Key) (calls : List (Timed Content Key)) : Prop where
  leads : ∀ before now caller key result rest,
    calls = before ++ ⟨now, .complete caller key result⟩ :: rest →
      (run hashKey before).joined[caller]? = some (key, caller)
  once : (calls.filterMap fun c =>
    match c.call with
    | .complete caller _ _ => some caller
    | _ => none).Nodup

structure Coalesces (hashKey : Content → Key) (calls : List (Timed Content Key)) : Prop where
  once : ((run hashKey calls).sent.map (·.receiver)).Nodup
  oneLeader : ∀ before, before <+: calls → ∀ key a b,
    (run hashKey before).Leads a key → (run hashKey before).Leads b key → a = b
  pruned : ∀ before now maxAgeMs order rest,
    calls = before ++ ⟨now, .pruneStale maxAgeMs order⟩ :: rest →
      ∀ key p, (run hashKey before).coalescer.inFlight.lookup key = some p →
        RequestCoalescer.isStale maxAgeMs now p = true →
          ∀ w ∈ p.waiters, ⟨w, staleEntry, .prune⟩ ∈ (run hashKey calls).sent
  own : ∀ d ∈ (run hashKey calls).sent, ∀ caller, d.source = .caller caller →
    ∃ key, (run hashKey calls).joined[d.receiver]? = some (key, caller)

end HelixRouter.RequestCoalescing
