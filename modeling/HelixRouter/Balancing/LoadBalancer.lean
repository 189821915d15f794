import HelixRouter.Containers.Successor
import HelixRouter.Router.Numbers
import Mathlib.Data.UInt

namespace HelixRouter.Balancing

/-- The hash that places virtual nodes and keys on the ring. -/
class RingHash where
  hash : List UInt8 → UInt64

def fnvOffset : UInt64 := 14695981039346656037

def fnvPrime : UInt64 := 1099511628211

def fnv1a (bytes : List UInt8) : UInt64 :=
  bytes.foldl (fun hash b => (hash ^^^ b.toUInt64) * fnvPrime) fnvOffset

def hashOf [RingHash] (text : String) : UInt64 := RingHash.hash text.toUTF8.data.toList

inductive LbStrategy
  | roundRobin
  | weightedRoundRobin
  | leastConnections
  | random
  | consistentHash

structure Backend where
  id : String
  address : String
  weight : UInt32
  activeConnections : UInt64 := 0
  healthy : Bool := true
  totalRequests : UInt64 := 0
  deriving DecidableEq

/-- A new backend is healthy and has no connections. -/
def Backend.new (id address : String) (weight : UInt32) : Backend where
  id := id
  address := address
  weight := weight

/-- The hashes of a backend's virtual nodes: one for each unit of weight, at least one. -/
def Backend.vnodes [RingHash] (b : Backend) : List UInt64 :=
  (List.range (max b.weight.toNat 1)).map fun v => hashOf (b.id ++ ":" ++ toString v)

structure Inner where
  backends : List Backend := []
  ring : Std.TreeMap UInt64 Nat := ∅
  lcgState : UInt64 := 12345678901234567

namespace Inner

def lcgNext (inner : Inner) (n : UInt64) : UInt64 × Inner :=
  let state := inner.lcgState * 6364136223846793005 + 1442695040888963407
  (if n = 0 then 0 else state % n, { inner with lcgState := state })

def ringOf [RingHash] (backends : List Backend) : Std.TreeMap UInt64 Nat :=
  backends.zipIdx.foldl (fun ring (b, idx) => b.vnodes.foldl (·.insert · idx) ring) ∅

def rebuildRing [RingHash] (inner : Inner) : Inner := { inner with ring := ringOf inner.backends }

def healthyBackends (inner : Inner) : List Backend := inner.backends.filter (·.healthy)

end Inner

structure LoadBalancer where
  inner : Inner := {}
  strategy : LbStrategy
  rrCounter : UInt64 := 0

/-- The backend whose share of the total weight a position falls in. -/
def scan : List Backend → UInt64 → Option Backend
  | [], _ => none
  | b :: rest, pos =>
    let w := b.weight.toUInt64
    if pos < w then some b else scan rest (pos - w)

/-- The first of the backends with the fewest connections. -/
def fewestConnections : List Backend → Option Backend
  | [] => none
  | b :: rest => some (rest.foldl (fun best c =>
      if c.activeConnections < best.activeConnections then c else best) b)

/-- Changes the first backend with an id. -/
def updateFirst (id : String) (f : Backend → Backend) : List Backend → List Backend
  | [] => []
  | b :: rest => if b.id = id then f b :: rest else b :: updateFirst id f rest

namespace LoadBalancer

variable [RingHash]

def addBackend (lb : LoadBalancer) (backend : Backend) : LoadBalancer :=
  { lb with inner := { lb.inner with backends := lb.inner.backends ++ [backend] }.rebuildRing }

def removeBackend (lb : LoadBalancer) (id : String) : LoadBalancer :=
  { lb with inner := { lb.inner with backends := lb.inner.backends.filter (·.id ≠ id) }.rebuildRing }

omit [RingHash] in
def updateBackend (lb : LoadBalancer) (id : String) (f : Backend → Backend) : LoadBalancer :=
  { lb with inner := { lb.inner with backends := updateFirst id f lb.inner.backends } }

omit [RingHash] in
def markHealthy (lb : LoadBalancer) (id : String) (healthy : Bool) : LoadBalancer :=
  lb.updateBackend id fun b => { b with healthy := healthy }

omit [RingHash] in
def acquireConnection (lb : LoadBalancer) (id : String) : LoadBalancer :=
  lb.updateBackend id fun b =>
    { b with activeConnections := b.activeConnections + 1, totalRequests := b.totalRequests + 1 }

omit [RingHash] in
def releaseConnection (lb : LoadBalancer) (id : String) : LoadBalancer :=
  lb.updateBackend id fun b => { b with activeConnections := saturatingSub b.activeConnections 1 }

/-- The backend of the first virtual node from the key's hash on, round the ring. -/
def owner (lb : LoadBalancer) (key : Option String) : Option Backend := do
  let (_, idx) ← lb.inner.ring.firstFrom (hashOf (key.getD ""))
  lb.inner.backends[idx]?

def select (lb : LoadBalancer) (key : Option String) : Option Backend × LoadBalancer :=
  let healthy := lb.inner.healthyBackends
  let n := UInt64.ofNat healthy.length
  let ticked := { lb with rrCounter := lb.rrCounter + 1 }
  match lb.strategy with
  | .roundRobin =>
    if healthy.isEmpty then (none, lb) else (healthy[(lb.rrCounter % n).toNat]?, ticked)
  | .weightedRoundRobin =>
    let totalWeight := (healthy.map (·.weight.toUInt64)).sum
    if healthy.isEmpty || totalWeight = 0 then (none, lb)
    else ((scan healthy (lb.rrCounter % totalWeight)).or healthy.head?, ticked)
  | .leastConnections => (fewestConnections healthy, lb)
  | .random =>
    if healthy.isEmpty then (none, lb)
    else
      let (idx, inner) := lb.inner.lcgNext n
      (healthy[idx.toNat]?, { lb with inner := inner })
  | .consistentHash =>
    (do
      let backend ← lb.owner key
      if backend.healthy then some backend else healthy.head?, lb)

end LoadBalancer

end HelixRouter.Balancing
