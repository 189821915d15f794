import HelixRouter.Containers.Retain
import HelixRouter.Interleaving.Pool

namespace HelixRouter.Deduplication

open Interleaving

abbrev RequestHash := UInt64

/-- Where a shared entry lives. -/
abbrev EntryId := Nat

structure DedupeEntry where
  hash : RequestHash
  result : Option String := none
  waiters : Nat := 1
  createdAtMs : UInt64
  completed : Bool := false

/-- The entries stay where callers can reach them when the map has dropped them. -/
structure RequestDeduplicator where
  inFlight : AList (fun _ : RequestHash => EntryId) := ∅
  entries : List DedupeEntry := []
  statsTotal : Nat := 0
  statsDeduped : Nat := 0

def hashRequest (key : String) : RequestHash :=
  let fnvOffset : UInt64 := 14695981039346656037
  let fnvPrime : UInt64 := 1099511628211
  key.toUTF8.data.toList.foldl (fun hash byte => (hash ^^^ byte.toUInt64) * fnvPrime) fnvOffset

/-- What a computation returns, which hashes an iteration over the map comes past, and
whether an entry is locked when it does. -/
structure Env where
  output : String := ""
  iteration : List RequestHash := []
  locked : Bool := false

/-- The atomic steps. `awaitCompleted` stands for the polling, `compute` for the whole
time the computation runs. -/
inductive Op where
  | countTotal
  | lookup (hash : RequestHash)
  | addWaiter (id : EntryId)
  | countDeduped
  | awaitCompleted (id : EntryId)
  | insert (hash : RequestHash) (nowMs : UInt64)
  | compute
  | store (id : EntryId) (result : String)
  | iterate
  | visit (hash : RequestHash)
  | remove (hash : RequestHash)
  deriving DecidableEq

abbrev Op.Resp : Op → Type
  | .lookup _ => Option EntryId
  | .awaitCompleted _ | .compute => String
  | .insert _ _ => EntryId
  | .iterate => List RequestHash
  | .visit _ => Bool
  | _ => Unit

inductive Call where
  | getOrCompute (key : String) (nowMs : UInt64)
  | cleanupCompleted

namespace RequestDeduplicator

def modifyEntry (s : RequestDeduplicator) (id : EntryId) (f : DedupeEntry → DedupeEntry) :
    RequestDeduplicator :=
  { s with entries := s.entries.modify id f }

/-- The entry the map has under a hash. -/
def slot (s : RequestDeduplicator) (hash : RequestHash) : Option DedupeEntry :=
  (s.inFlight.lookup hash).bind fun id => s.entries[id]?

end RequestDeduplicator

def Op.exec : (e : Op) → Env → RequestDeduplicator →
    Option (e.Resp × RequestDeduplicator × List Call)
  | .countTotal, _, s => some ((), { s with statsTotal := s.statsTotal + 1 }, [])
  | .lookup hash, _, s => some (s.inFlight.lookup hash, s, [])
  | .addWaiter id, _, s =>
    some ((), s.modifyEntry id fun e => { e with waiters := e.waiters + 1 }, [])
  | .countDeduped, _, s => some ((), { s with statsDeduped := s.statsDeduped + 1 }, [])
  | .awaitCompleted id, _, s =>
    match s.entries[id]? with
    | none => none
    | some e => if e.completed then some (e.result.getD "", s, []) else none
  | .insert hash nowMs, _, s =>
    let id := s.entries.length
    some (id, { s with
      inFlight := s.inFlight.insert hash id
      entries := s.entries ++ [{ hash := hash, createdAtMs := nowMs }] }, [])
  | .compute, env, s => some (env.output, s, [])
  | .store id result, _, s =>
    some ((), s.modifyEntry id fun e => { e with result := some result, completed := true }, [])
  | .iterate, env, s => some (env.iteration, s, [])
  | .visit hash, env, s => some (!env.locked && (s.slot hash).any (·.completed), s, [])
  | .remove hash, _, s => some ((), { s with inFlight := s.inFlight.erase hash }, [])

abbrev DedupeM := Prog Op Op.Resp

abbrev Op.perform (e : Op) : DedupeM e.Resp := Prog.perform e

def getOrCompute (key : String) (nowMs : UInt64) : DedupeM String := do
  let hash := hashRequest key
  Op.countTotal.perform
  match ← (Op.lookup hash).perform with
  | some id =>
    (Op.addWaiter id).perform
    Op.countDeduped.perform
    (Op.awaitCompleted id).perform
  | none =>
    let id ← (Op.insert hash nowMs).perform
    let result ← Op.compute.perform
    (Op.store id result).perform
    pure result

def collectCompleted : List RequestHash → DedupeM (List RequestHash)
  | [] => pure []
  | hash :: hashes => do
    let completed ← (Op.visit hash).perform
    let toRemove ← collectCompleted hashes
    pure (if completed then hash :: toRemove else toRemove)

def removeAll : List RequestHash → DedupeM Unit
  | [] => pure ()
  | hash :: hashes => do
    (Op.remove hash).perform
    removeAll hashes

def cleanupCompleted : DedupeM Unit := do
  let hashes ← Op.iterate.perform
  let toRemove ← collectCompleted hashes
  removeAll toRemove

/-- What a call returns: a value, or nothing from a cleanup. -/
abbrev Answer := Option String

def Call.body : Call → DedupeM Answer
  | .getOrCompute key nowMs => do
    let result ← Deduplication.getOrCompute key nowMs
    pure (some result)
  | .cleanupCompleted => do
    Deduplication.cleanupCompleted
    pure none

abbrev DedupeTask := Task Op Op.Resp Call Answer

abbrev DedupePool := Pool Op Op.Resp RequestDeduplicator Call Answer

abbrev DedupeAction := Action Env Call

def machine : Machine Op Op.Resp RequestDeduplicator Env Call Answer where
  exec := Op.exec
  body := Call.body
  external _ := true

def startPool : DedupePool := ⟨{}, []⟩

end HelixRouter.Deduplication
