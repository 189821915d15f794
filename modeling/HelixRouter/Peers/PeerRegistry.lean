import HelixRouter.Containers.IterationOrder
import Mathlib.Data.List.AList
import Mathlib.Data.List.MinMax

namespace HelixRouter.Peers

structure PeerInfo where
  peerId : String
  address : String
  port : UInt16
  serviceType : String
  tags : List String := []
  joinedAt : UInt64
  deriving DecidableEq

structure PeerHealth where
  peerId : String
  isHealthy : Bool := true
  lastCheckMs : UInt64
  consecutiveFailures : UInt32 := 0
  latencyMs : Option UInt64 := none
  deriving DecidableEq

structure DiscoveryConfig where
  removalAfterFailures : UInt32 := 5

structure PeerRegistry where
  peers : AList (fun _ : String => PeerInfo) := ∅
  health : AList (fun _ : String => PeerHealth) := ∅

abbrev PeerOrder := IterationOrder (Sigma fun _ : String => PeerInfo)

abbrev HealthOrder := IterationOrder (Sigma fun _ : String => PeerHealth)

def u32Max : Nat := 4294967295

def saturatingSucc (n : UInt32) : UInt32 := UInt32.ofNat (min (n.toNat + 1) u32Max)

def PeerHealth.record (h : PeerHealth) (healthy : Bool) (latencyMs : Option UInt64)
    (nowMs : UInt64) : PeerHealth :=
  if healthy then
    { h with lastCheckMs := nowMs, latencyMs, isHealthy := true, consecutiveFailures := 0 }
  else
    { h with
      lastCheckMs := nowMs
      latencyMs
      consecutiveFailures := saturatingSucc h.consecutiveFailures
      isHealthy := false }

namespace PeerRegistry

variable (s : PeerRegistry)

/-- The bound is a constant, whatever `max_peers` a configuration has. -/
def announce (peer : PeerInfo) (nowMs : UInt64) : PeerRegistry :=
  if peer.peerId ∈ s.peers then
    { s with peers := s.peers.insert peer.peerId peer }
  else if 256 ≤ s.peers.entries.length then s
  else
    { peers := s.peers.insert peer.peerId peer
      health := s.health.insert peer.peerId { peerId := peer.peerId, lastCheckMs := nowMs } }

def depart (peerId : String) : PeerRegistry :=
  { peers := s.peers.erase peerId, health := s.health.erase peerId }

def recordHealthCheck (peerId : String) (healthy : Bool) (latencyMs : Option UInt64)
    (nowMs : UInt64) : PeerRegistry :=
  match s.health.lookup peerId with
  | none => s
  | some h => { s with health := s.health.insert peerId (h.record healthy latencyMs nowMs) }

def isHealthy (p : PeerInfo) : Bool :=
  match s.health.lookup p.peerId with
  | none => false
  | some h => h.isHealthy

def values (order : PeerOrder) : List PeerInfo := (order.arrange s.peers.entries).map (·.2)

def healthyPeers (order : PeerOrder) : List PeerInfo := (s.values order).filter s.isHealthy

def peersByService (order : PeerOrder) (serviceType : String) : List PeerInfo :=
  (s.values order).filter (·.serviceType = serviceType)

def peersByTag (order : PeerOrder) (tag : String) : List PeerInfo :=
  (s.values order).filter fun p => p.tags.any (· = tag)

/-- The ids that went, and the registry without them. -/
def evictUnhealthy (order : HealthOrder) (config : DiscoveryConfig) :
    List String × PeerRegistry :=
  let toRemove := ((order.arrange s.health.entries).filter fun entry =>
    config.removalAfterFailures ≤ entry.2.consecutiveFailures).map (·.1)
  (toRemove, toRemove.foldl depart s)

def latencyOf (p : PeerInfo) : Nat :=
  match s.health.lookup p.peerId with
  | none => UInt64.size - 1
  | some h => (h.latencyMs.map (·.toNat)).getD (UInt64.size - 1)

def lowestLatencyPeer (order : PeerOrder) (serviceType : String) : Option PeerInfo :=
  ((s.values order).filter fun p =>
    decide (p.serviceType = serviceType) && s.isHealthy p).argmin s.latencyOf

def healthOf (peerId : String) : Option PeerHealth := s.health.lookup peerId

def len : Nat := s.peers.entries.length

end PeerRegistry

/-- The calls that change a registry. -/
inductive Op where
  | announce (peer : PeerInfo) (nowMs : UInt64)
  | depart (peerId : String)
  | recordHealthCheck (peerId : String) (healthy : Bool) (latencyMs : Option UInt64)
    (nowMs : UInt64)
  | evictUnhealthy (order : HealthOrder) (config : DiscoveryConfig)

def PeerRegistry.apply (s : PeerRegistry) : Op → PeerRegistry
  | .announce peer nowMs => s.announce peer nowMs
  | .depart peerId => s.depart peerId
  | .recordHealthCheck peerId healthy latencyMs nowMs =>
    s.recordHealthCheck peerId healthy latencyMs nowMs
  | .evictUnhealthy order config => (s.evictUnhealthy order config).2

def PeerRegistry.after (ops : List Op) : PeerRegistry := ops.foldl PeerRegistry.apply {}

end HelixRouter.Peers
