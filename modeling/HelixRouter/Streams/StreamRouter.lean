import HelixRouter.Containers.Broadcast
import HelixRouter.Containers.Retain
import HelixRouter.Router.Types
import HelixRouter.Runs.Stepwise
import Mathlib.Algebra.Order.Field.Rat

namespace HelixRouter.Streams

open Containers

inductive StreamChunk where
  | partialValue (seq : Nat) (value : Float)
  | done (totalChunks : Nat)

inductive StreamError where
  | notFound (jobId : UInt64)
  | lagged (missed : Nat)
  | channelClosed
  | jobDropped (jobId : UInt64)

structure StreamConfig where
  channelCapacity : Nat := 64
  chunksPerJob : Nat := 8

/-- A channel holds as many messages as it is asked for, or more. -/
abbrev Room (config : StreamConfig) := { n : Nat // config.channelCapacity ≤ n }

def Output.toFloat : Output → Float
  | .u64 v => v.toFloat
  | .f64 v => v

/-- A chunk is full from its `total / chunksPerJob`-th value on, and not before its first. A
quotient by zero is no bound that a chunk reaches. -/
def chunkFull (chunksPerJob total chunkIdx : Nat) : Bool :=
  decide (chunksPerJob ≠ 0 ∧ max ((total : ℚ) / chunksPerJob) 1 ≤ chunkIdx)

/-- The loop over the values, with the sequence number, the sum and the size of the chunk that
is being filled. -/
def chunksFrom (full : Nat → Bool) : Nat → Float → Nat → List Float → List StreamChunk
  | _, _, _, [] => []
  | seq, chunkAcc, chunkIdx, v :: rest =>
    let chunkAcc := chunkAcc + v
    let chunkIdx := chunkIdx + 1
    if full chunkIdx || rest.isEmpty then
      .partialValue seq (chunkAcc / chunkIdx.toFloat) :: chunksFrom full (seq + 1) 0 0 rest
    else chunksFrom full seq chunkAcc chunkIdx rest

/-- Everything that is sent about a job. At least one chunk comes before the last message. -/
def stream (config : StreamConfig) (outputs : List Output) : List StreamChunk :=
  let values := outputs.map Output.toFloat
  let chunks := chunksFrom (chunkFull config.chunksPerJob values.length) 0 0 0 values
  if chunks.length = 0 then [.partialValue 0 0, .done 1] else chunks ++ [.done chunks.length]

/-- What a submission and its worker do, one atomic step after the other. -/
inductive WorkerOp where
  | countSubmitted
  | route
  | send (chunk : StreamChunk)
  | countDropped
  | countCompleted
  | remove
  | dropSender

/-- The worker's steps once the router has answered. -/
def plan (config : StreamConfig) : Option (List Output) → List WorkerOp
  | none => [.countDropped, .remove, .dropSender]
  | some outputs =>
    (stream config outputs).map .send ++ [.countCompleted, .remove, .dropSender]

/-- A receiver that collects a stream. -/
structure Receiver where
  position : Nat
  values : List Float := []
  outcome : Option (Except StreamError (List Float × Nat)) := none

/-- One round of `collect_stream`. -/
def Receiver.collect (rx : Receiver) : Received StreamChunk × Nat → Receiver
  | (.message (.partialValue _ value), next) =>
    { rx with position := next, values := rx.values ++ [value] }
  | (.message (.done totalChunks), next) =>
    { rx with position := next, outcome := some (.ok (rx.values, totalChunks)) }
  | (.lagged missed, next) =>
    { rx with position := next, outcome := some (.error (.lagged missed)) }
  | (.closed, next) => { rx with position := next, outcome := some (.error .channelClosed) }

/-- A worker with its channel: what was sent, how many senders there are, what the router
answered, and what is left to do. The first receiver is the submitter's. -/
structure StreamJob where
  jobId : UInt64
  messages : List StreamChunk := []
  owners : Nat := 2
  result : Option (Option (List Output)) := none
  todo : List WorkerOp := [.countSubmitted, .route]
  receivers : List Receiver := [{ position := 0 }]

/-- The registry leads to a channel by its index. -/
structure StreamRouter where
  registry : AList (fun _ : UInt64 => Nat) := ∅
  jobs : List StreamJob := []
  totalSubmitted : Nat := 0
  totalCompleted : Nat := 0
  totalDropped : Nat := 0

namespace StreamRouter

def modifyJob (s : StreamRouter) (i : Nat) (f : StreamJob → StreamJob) : StreamRouter :=
  { s with jobs := s.jobs.modify i f }

/-- The registry lets go of what it has under an id. -/
def release (s : StreamRouter) (jobId : UInt64) : StreamRouter :=
  match s.registry.lookup jobId with
  | none => s
  | some i => s.modifyJob i fun job => { job with owners := job.owners - 1 }

def remove (s : StreamRouter) (jobId : UInt64) : StreamRouter :=
  let t := s.release jobId
  { t with registry := t.registry.erase jobId }

/-- A channel without room cannot be made. -/
def submitStreaming (config : StreamConfig) (s : StreamRouter) (jobId : UInt64) :
    Option StreamRouter :=
  if config.channelCapacity = 0 then none
  else
    let t := s.release jobId
    some { t with
      registry := t.registry.insert jobId s.jobs.length
      jobs := t.jobs ++ [{ jobId := jobId }] }

def perform (config : StreamConfig) (s : StreamRouter) (i : Nat) (job : StreamJob)
    (result : Option (List Output)) : WorkerOp → StreamRouter
  | .countSubmitted => { s with totalSubmitted := s.totalSubmitted + 1 }
  | .route => s.modifyJob i fun job =>
      { job with result := some result, todo := job.todo ++ plan config result }
  | .send chunk => s.modifyJob i fun job => { job with messages := job.messages ++ [chunk] }
  | .countDropped => { s with totalDropped := s.totalDropped + 1 }
  | .countCompleted => { s with totalCompleted := s.totalCompleted + 1 }
  | .remove => s.remove job.jobId
  | .dropSender => s.modifyJob i fun job => { job with owners := job.owners - 1 }

/-- A worker does what comes next; the router may have answered it. -/
def advance (config : StreamConfig) (s : StreamRouter) (i : Nat) (result : Option (List Output)) :
    Option StreamRouter :=
  match s.jobs[i]? with
  | none => none
  | some job =>
    match job.todo with
    | [] => none
    | op :: _ =>
      some ((s.perform config i job result op).modifyJob i fun job =>
        { job with todo := job.todo.tail })

def subscribe (s : StreamRouter) (jobId : UInt64) : Except StreamError StreamRouter :=
  match s.registry.lookup jobId with
  | none => .error (.notFound jobId)
  | some i => .ok (s.modifyJob i fun job =>
      { job with receivers := job.receivers ++ [{ position := job.messages.length }] })

/-- A receiver that has not finished hears something, where it need not wait. -/
def recv (room : Nat) (s : StreamRouter) (i k : Nat) : Option StreamRouter :=
  match s.jobs[i]? with
  | none => none
  | some job =>
    match job.receivers[k]? with
    | none => none
    | some rx =>
      if rx.outcome.isSome then none
      else
        (Containers.receive room job.messages (job.owners == 0) rx.position).map fun told =>
          s.modifyJob i fun job =>
            { job with receivers := job.receivers.modify k fun rx => rx.collect told }

end StreamRouter

inductive StreamEvent where
  | submit (jobId : UInt64)
  | advance (i : Nat) (result : Option (List Output))
  | subscribe (jobId : UInt64)
  | recv (i k : Nat)

def step (config : StreamConfig) (room : Room config) (s : StreamRouter) :
    StreamEvent → Option StreamRouter
  | .submit jobId => s.submitStreaming config jobId
  | .advance i result => s.advance config i result
  | .subscribe jobId => some ((s.subscribe jobId).toOption.getD s)
  | .recv i k => s.recv room i k

end HelixRouter.Streams
