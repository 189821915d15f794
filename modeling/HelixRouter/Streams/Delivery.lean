import HelixRouter.Streams.StreamRouter
import Mathlib.Tactic.Linarith

namespace HelixRouter.Streams

open Runs Containers

section Chunks

variable {config : StreamConfig} {outputs : List Output}

def mean (group : List Float) : Float := group.foldl (· + ·) 0 / group.length.toFloat

def numbered (seq : Nat) : List (List Float) → List StreamChunk
  | [] => []
  | group :: groups => .partialValue seq (mean group) :: numbered (seq + 1) groups

/-- The values are cut into groups, in their order, and each group makes a chunk. -/
theorem chunksFrom_groups (full : Nat → Bool) (seq : Nat) (pending values : List Float)
    (h : values ≠ []) : ∃ groups : List (List Float), (∀ g ∈ groups, g ≠ []) ∧
      groups.flatten = pending ++ values ∧ groups ≠ [] ∧
      chunksFrom full seq (pending.foldl (· + ·) 0) pending.length values =
        numbered seq groups := by
  induction values generalizing seq pending with
  | nil => exact absurd rfl h
  | cons v rest ih =>
    have hacc : pending.foldl (· + ·) 0 + v = (pending ++ [v]).foldl (· + ·) 0 := by
      rw [List.foldl_concat]
    have hidx : pending.length + 1 = (pending ++ [v]).length := by simp
    rw [chunksFrom]
    rw [hacc, hidx]
    cases rest with
    | nil =>
      refine ⟨[pending ++ [v]], by simp, by simp, by simp, ?_⟩
      rw [List.isEmpty_nil, Bool.or_true, if_pos rfl]
      rfl
    | cons w rest =>
      by_cases hfull : full (pending ++ [v]).length = true
      · obtain ⟨groups, hne, hflat, -, heq⟩ := ih (seq + 1) [] (List.cons_ne_nil w rest)
        refine ⟨(pending ++ [v]) :: groups, ?_, ?_, by simp, ?_⟩
        · exact List.forall_mem_cons.mpr ⟨by simp, hne⟩
        · rw [List.flatten_cons, hflat]
          simp
        · rw [hfull, Bool.true_or, if_pos rfl]
          exact congrArg _ heq
      · obtain ⟨groups, hne, hflat, hsome, heq⟩ :=
          ih seq (pending ++ [v]) (List.cons_ne_nil w rest)
        refine ⟨groups, hne, by rw [hflat]; simp, hsome, ?_⟩
        rw [Bool.not_eq_true _ |>.mp hfull, List.isEmpty_cons, Bool.or_false,
          if_neg Bool.false_ne_true, heq]

/-- All chunks but the last one have their size. -/
theorem length_chunksFrom_lt {full : Nat → Bool} {size : ℚ} (hpos : 0 < size)
    (hfull : ∀ n, full n = true → size ≤ n) (seq : Nat) (acc : Float) (idx : Nat)
    (values : List Float) :
    (chunksFrom full seq acc idx values).length * size < idx + values.length + size := by
  induction values generalizing seq acc idx with
  | nil =>
    have hidx : (0 : ℚ) ≤ idx := Nat.cast_nonneg idx
    rw [chunksFrom]
    simp only [List.length_nil, Nat.cast_zero, zero_mul, add_zero]
    linarith
  | cons v rest ih =>
    rw [chunksFrom]
    rw [List.length_cons]
    push_cast
    split
    · rename_i hemit
      have hrest := ih (seq + 1) 0 0
      rw [List.length_cons]
      push_cast at hrest ⊢
      rw [Bool.or_eq_true] at hemit
      have hidx : (0 : ℚ) ≤ idx := Nat.cast_nonneg idx
      rcases hemit with hfull' | hlast
      · have hsize := hfull _ hfull'
        push_cast at hsize
        linarith
      · rw [List.isEmpty_iff] at hlast
        subst hlast
        simp only [chunksFrom, List.length_nil, Nat.cast_zero]
        linarith
    · have hrest := ih seq (acc + v) (idx + 1)
      push_cast at hrest
      linarith

theorem length_chunks_le (chunksPerJob : Nat) (values : List Float) :
    (chunksFrom (chunkFull chunksPerJob values.length) 0 0 0 values).length ≤
      max 1 chunksPerJob := by
  by_cases hc : chunksPerJob = 0
  · subst hc
    have hfull : ∀ n, chunkFull 0 values.length n = true → (values.length + 1 : ℚ) ≤ n := by
      intro n hn
      simp [chunkFull] at hn
    have hlt := length_chunksFrom_lt (by positivity) hfull 0 0 0 values
    generalize (chunksFrom _ 0 0 0 values).length = n at hlt ⊢
    have hle : n * (values.length + 1) < values.length + (values.length + 1) := by
      rw [Nat.cast_zero, zero_add] at hlt
      exact_mod_cast hlt
    by_contra hmore
    have htwo : 2 ≤ n := by omega
    have := Nat.mul_le_mul_right (values.length + 1) htwo
    omega
  · have hcpos : (0 : ℚ) < chunksPerJob := by exact_mod_cast Nat.pos_of_ne_zero hc
    have hsize : (0 : ℚ) < max ((values.length : ℚ) / chunksPerJob) 1 :=
      lt_max_of_lt_right one_pos
    have hfull : ∀ n, chunkFull chunksPerJob values.length n = true →
        max ((values.length : ℚ) / chunksPerJob) 1 ≤ n := by
      intro n hn
      exact (of_decide_eq_true hn).2
    have hlt := length_chunksFrom_lt hsize hfull 0 0 0 values
    have hdiv : (values.length : ℚ) ≤ chunksPerJob * max ((values.length : ℚ) / chunksPerJob) 1 :=
      (div_le_iff₀' hcpos).mp (le_max_left _ 1)
    generalize (chunksFrom _ 0 0 0 values).length = n at hlt ⊢
    generalize max ((values.length : ℚ) / chunksPerJob) 1 = size at hsize hlt hdiv
    have hn : (n : ℚ) * size < (chunksPerJob + 1) * size := by
      push_cast at hlt
      linarith
    have hless : (n : ℚ) < chunksPerJob + 1 := lt_of_mul_lt_mul_right hn hsize.le
    have hnat : n < chunksPerJob + 1 := by exact_mod_cast hless
    exact (Nat.lt_succ_iff.mp hnat).trans (le_max_right 1 _)

def StreamChunk.value? : StreamChunk → Option Float
  | .partialValue _ value => some value
  | .done _ => none

/-- The values that a stream is made of. -/
def partials (config : StreamConfig) (outputs : List Output) : List Float :=
  (stream config outputs).filterMap StreamChunk.value?

/-- Every output goes into one group, in their order, and each value is the mean of its group. -/
def AreMeans (outputs : List Output) (values : List Float) : Prop :=
  ∃ groups : List (List Float), (∀ g ∈ groups, g ≠ []) ∧
    groups.flatten = outputs.map Output.toFloat ∧ values = groups.map mean

theorem numbered_value? (seq : Nat) (groups : List (List Float)) :
    (numbered seq groups).map StreamChunk.value? = groups.map fun g => some (mean g) := by
  induction groups generalizing seq with
  | nil => rfl
  | cons g groups ih => rw [numbered, List.map_cons, ih, List.map_cons, StreamChunk.value?]

theorem length_numbered (seq : Nat) (groups : List (List Float)) :
    (numbered seq groups).length = groups.length := by
  rw [← List.length_map StreamChunk.value?, numbered_value?, List.length_map]

theorem filterMap_value? {parts : List StreamChunk} {values : List Float}
    (h : parts.map StreamChunk.value? = values.map some) :
    parts.filterMap StreamChunk.value? = values := by
  have hid := congrArg (List.filterMap id) h
  simpa [List.filterMap_map] using hid

/-- A stream is some values and the number of them; there is one where there are no outputs. -/
theorem stream_cases (config : StreamConfig) (outputs : List Output) : ∃ parts,
    stream config outputs = parts ++ [.done parts.length] ∧
    parts.map StreamChunk.value? = (partials config outputs).map some ∧
    parts.length ≤ max 1 config.chunksPerJob ∧
    (outputs ≠ [] → AreMeans outputs (partials config outputs)) := by
  by_cases hnil : outputs = []
  · subst hnil
    exact ⟨[.partialValue 0 0], rfl, rfl, le_max_left 1 _, fun h => absurd rfl h⟩
  · have hvalues : outputs.map Output.toFloat ≠ [] := by simpa using hnil
    obtain ⟨groups, hne, hflat, hsome, hchunks⟩ := chunksFrom_groups
      (chunkFull config.chunksPerJob (outputs.map Output.toFloat).length) 0 [] _ hvalues
    have hbound := length_chunks_le config.chunksPerJob (outputs.map Output.toFloat)
    change chunksFrom _ 0 0 0 _ = _ at hchunks
    rw [hchunks] at hbound
    have hstream : stream config outputs =
        numbered 0 groups ++ [.done (numbered 0 groups).length] := by
      have hlen : (numbered 0 groups).length ≠ 0 := by simpa [length_numbered] using hsome
      rw [stream, hchunks, if_neg hlen]
    have hmap : (numbered 0 groups).map StreamChunk.value? = (groups.map mean).map some := by
      rw [numbered_value?, List.map_map]
      rfl
    have hpartials : partials config outputs = groups.map mean := by
      rw [partials, hstream, List.filterMap_append, filterMap_value? hmap]
      exact List.append_nil _
    refine ⟨numbered 0 groups, hstream, hpartials ▸ hmap, hbound, fun _ => ?_⟩
    exact ⟨groups, hne, by simpa using hflat, hpartials⟩

end Chunks

/-- What is sent about a job that the router has answered. -/
def answered (config : StreamConfig) : Option (List Output) → List StreamChunk
  | none => []
  | some outputs => stream config outputs

/-- How far a worker has come: what was sent, what it was answered, and what is left to do. -/
inductive Stage (config : StreamConfig) :
    List StreamChunk → Option (Option (List Output)) → List WorkerOp → Prop where
  | submitted : Stage config [] none [.countSubmitted, .route]
  | routed : Stage config [] none [.route]
  | sending (outputs : List Output) (sent rest : List StreamChunk)
    (h : stream config outputs = sent ++ rest) : Stage config sent (some (some outputs))
      (rest.map .send ++ [.countCompleted, .remove, .dropSender])
  | dropping : Stage config [] (some none) [.countDropped, .remove, .dropSender]
  | leaving (result : Option (List Output)) :
    Stage config (answered config result) (some result) [.remove, .dropSender]
  | left (result : Option (List Output)) :
    Stage config (answered config result) (some result) [.dropSender]
  | finished (result : Option (List Output)) :
    Stage config (answered config result) (some result) []

/-- What a receiver has made of the messages it read. -/
def Told (room : Nat) (messages : List StreamChunk) (ended : Bool) (since : Nat)
    (read : List StreamChunk) (rx : Receiver) : Prop :=
  match rx.outcome with
  | none => rx.position = since + read.length ∧
      read.map StreamChunk.value? = rx.values.map some
  | some (.ok (values, total)) => ∃ parts, read = parts ++ [.done total] ∧
      parts.map StreamChunk.value? = values.map some
  | some (.error (.lagged _)) => room < messages.length
  | some (.error .channelClosed) => ended = true ∧ read = messages.drop since ∧
      read.map StreamChunk.value? = rx.values.map some
  | some (.error _) => False

def Collects (room : Nat) (messages : List StreamChunk) (ended : Bool) (since : Nat)
    (rx : Receiver) : Prop :=
  ∃ read, Heard messages since read ∧ Told room messages ended since read rx

namespace Collects

variable {room since : Nat} {messages : List StreamChunk} {ended closed : Bool} {rx : Receiver}

theorem subscribed (room : Nat) (messages : List StreamChunk) (ended : Bool) :
    Collects room messages ended messages.length { position := messages.length } :=
  ⟨[], Heard.subscribed messages, rfl, rfl⟩

/-- More is sent, and the worker may be through then. -/
theorem sent (h : Collects room messages false since rx) (more : List StreamChunk) (ended : Bool) :
    Collects room (messages ++ more) ended since rx := by
  obtain ⟨read, hheard, htold⟩ := h
  refine ⟨read, hheard.sent more, ?_⟩
  unfold Told at htold ⊢
  split at htold
  · exact htold
  · exact htold
  · exact htold.trans_le (List.prefix_append messages more).length_le
  · exact absurd htold.1 Bool.false_ne_true
  · exact htold

/-- One more round of the loop. -/
theorem collect (h : Collects room messages ended since rx) (hopen : rx.outcome = none)
    {told : Received StreamChunk × Nat}
    (hrecv : receive room messages closed rx.position = some told)
    (hclosed : closed = true → ended = true) :
    Collects room messages ended since (rx.collect told) := by
  obtain ⟨read, hheard, htold⟩ := h
  simp only [Told, hopen] at htold
  obtain ⟨hposition, hvalues⟩ := htold
  obtain ⟨told, next⟩ := told
  rcases receive_cases hrecv with ⟨missed, rfl, hmissed, hlen⟩ | ⟨chunk, rfl, hget, rfl⟩ |
    ⟨rfl, hover, hlen⟩
  · exact ⟨read, hheard, by simp only [Told, Receiver.collect]; omega⟩
  · rw [hposition] at hget
    refine ⟨read ++ [chunk], hheard.read hget, ?_⟩
    cases chunk with
    | partialValue seq value =>
      simp only [Told, Receiver.collect, hopen, List.map_append, hvalues, List.length_append]
      exact ⟨by rw [hposition]; rfl, rfl⟩
    | done total => exact ⟨read, rfl, hvalues⟩
  · rw [hposition] at hlen
    exact ⟨read, hheard, hclosed hover, hheard.all hlen, hvalues⟩

end Collects

inductive StreamCounter where
  | submitted
  | completed
  | dropped
  deriving DecidableEq

def StreamRouter.count (s : StreamRouter) : StreamCounter → Nat
  | .submitted => s.totalSubmitted
  | .completed => s.totalCompleted
  | .dropped => s.totalDropped

def WorkerOp.counter? : WorkerOp → Option StreamCounter
  | .countSubmitted => some .submitted
  | .countCompleted => some .completed
  | .countDropped => some .dropped
  | _ => none

/-- Where a job is counted, by what the router answers. -/
def StreamCounter.due : StreamCounter → Option (Option (List Output)) → Bool
  | .submitted, _ => true
  | .completed, result => result.any Option.isSome
  | .dropped, result => result.any Option.isNone

/-- None of the steps counts there. -/
def settled (c : StreamCounter) (todo : List WorkerOp) : Bool :=
  todo.all fun op => decide (op.counter? ≠ some c)

@[simp] theorem settled_nil (c : StreamCounter) : settled c [] = true := rfl

@[simp] theorem settled_cons (c : StreamCounter) (op : WorkerOp) (todo : List WorkerOp) :
    settled c (op :: todo) = (decide (op.counter? ≠ some c) && settled c todo) := rfl

@[simp] theorem settled_sends (c : StreamCounter) (chunks : List StreamChunk)
    (todo : List WorkerOp) : settled c (chunks.map .send ++ todo) = settled c todo := by
  induction chunks with
  | nil => rfl
  | cons chunk chunks ih =>
    rw [List.map_cons, List.cons_append, settled_cons, ih]
    rfl

@[simp] theorem isEmpty_sends (chunks : List StreamChunk) (op : WorkerOp) (todo : List WorkerOp) :
    (chunks.map WorkerOp.send ++ op :: todo).isEmpty = false := by
  cases chunks <;> rfl

namespace StreamJob

/-- The job has been counted there. -/
def counted (c : StreamCounter) (job : StreamJob) : Bool := c.due job.result && settled c job.todo

/-- The worker is not through and has yet to take its entry from the registry. -/
def Listed (job : StreamJob) : Prop := job.result = none ∨ WorkerOp.remove ∈ job.todo

end StreamJob

variable {config : StreamConfig} {room : Nat} {s : StreamRouter} {i j : Nat} {job : StreamJob}
  {jobId : UInt64}

structure JobSound (config : StreamConfig) (room : Nat) (leads : Bool) (job : StreamJob) :
    Prop where
  stage : Stage config job.messages job.result job.todo
  owners : job.owners = leads.toNat + (!job.todo.isEmpty).toNat
  first : 0 < job.receivers.length
  receivers : ∀ k rx, job.receivers[k]? = some rx → ∃ since, (k = 0 → since = 0) ∧
    Collects room job.messages job.todo.isEmpty since rx

/-- The registry leads a job's id to the job. -/
def StreamRouter.leads (s : StreamRouter) (i : Nat) (job : StreamJob) : Bool :=
  s.registry.lookup job.jobId == some i

structure Sound (config : StreamConfig) (room : Nat) (s : StreamRouter) : Prop where
  jobs : ∀ i job, s.jobs[i]? = some job → JobSound config room (s.leads i job) job
  listed : ∀ jobId i, s.registry.lookup jobId = some i →
    ∃ job, s.jobs[i]? = some job ∧ job.jobId = jobId ∧ job.Listed
  counts : ∀ c, s.count c = s.jobs.countP (StreamJob.counted c)

theorem getElem?_modifyJob {f : StreamJob → StreamJob} {job' : StreamJob} :
    (s.modifyJob i f).jobs[j]? = some job' ↔
      ∃ job, s.jobs[j]? = some job ∧ (if i = j then f job else job) = job' := by
  rw [StreamRouter.modifyJob, List.getElem?_modify, Option.map_eq_map, Option.map_eq_some_iff]

theorem countP_modify {α : Type} {p : α → Bool} {f : α → α} {l : List α} {i : Nat} {a : α}
    (h : l[i]? = some a) :
    (l.modify i f).countP p + (p a).toNat = l.countP p + (p (f a)).toNat := by
  induction l generalizing i with
  | nil => cases h
  | cons b l ih =>
    cases i with
    | zero =>
      cases h
      rw [List.modify_zero_cons, List.countP_cons, List.countP_cons]
      cases p a <;> cases p (f a) <;> rfl
    | succ i =>
      have := ih h
      rw [List.modify_succ_cons, List.countP_cons, List.countP_cons]
      omega

theorem Sound.listed_of_leads (h : Sound config room s) (hjob : s.jobs[i]? = some job)
    (hleads : s.leads i job = true) : job.Listed := by
  obtain ⟨a, ha, -, hlisted⟩ := h.listed job.jobId i (beq_iff_eq.mp hleads)
  cases hjob.symm.trans ha
  exact hlisted

theorem Sound.leads_eq_false (h : Sound config room s) (hjob : s.jobs[i]? = some job)
    (hlisted : ¬ job.Listed) : s.leads i job = false :=
  Bool.eq_false_iff.mpr fun hleads => hlisted (h.listed_of_leads hjob hleads)

/-- One job changes, and the counters with it. -/
theorem Sound.modify (h : Sound config room s) {t : StreamRouter} {f : StreamJob → StreamJob}
    (hjob : s.jobs[i]? = some job) (hjobs : t.jobs = s.jobs.modify i f)
    (hregistry : t.registry = s.registry) (hid : (f job).jobId = job.jobId)
    (hsound : JobSound config room (s.leads i job) (f job))
    (hlisted : s.leads i job = true → (f job).Listed)
    (hcount : ∀ c, t.count c + (job.counted c).toNat = s.count c + ((f job).counted c).toNat) :
    Sound config room t where
  jobs := by
    intro j job' hjob'
    have hget := hjobs ▸ hjob'
    obtain ⟨a, ha, heq⟩ := getElem?_modifyJob.mp hget
    rw [StreamRouter.leads, hregistry]
    by_cases hij : i = j
    · subst hij
      cases hjob.symm.trans ha
      rw [if_pos rfl] at heq
      subst heq
      rw [hid]
      exact hsound
    · rw [if_neg hij] at heq
      subst heq
      exact h.jobs j a ha
  listed := by
    intro jobId j hj
    rw [hregistry] at hj
    obtain ⟨a, ha, hidj, hl⟩ := h.listed jobId j hj
    have hget : t.jobs[j]? = some (if i = j then f a else a) := by
      rw [hjobs]
      exact getElem?_modifyJob.mpr ⟨a, ha, rfl⟩
    refine ⟨_, hget, ?_⟩
    by_cases hij : i = j
    · subst hij
      cases hjob.symm.trans ha
      rw [if_pos rfl]
      exact ⟨hid.trans hidj, hlisted (by rw [StreamRouter.leads, hidj, hj, beq_self_eq_true])⟩
    · rw [if_neg hij]
      exact ⟨hidj, hl⟩
  counts := by
    intro c
    have hc := hcount c
    have hmodify := countP_modify (p := StreamJob.counted c) (f := f) hjob
    rw [hjobs]
    rw [h.counts c] at hc
    omega

theorem Sound.start : Sound config room {} where
  jobs := nofun
  listed := nofun
  counts := fun c => by cases c <;> rfl

theorem StreamRouter.jobs_release :
    (s.release jobId).jobs =
      (s.registry.lookup jobId).elim s.jobs fun i =>
        s.jobs.modify i fun job => { job with owners := job.owners - 1 } := by
  rw [StreamRouter.release]
  split
  · rename_i hnone
    rw [hnone, Option.elim_none]
  · rename_i hsome
    rw [hsome, Option.elim_some, StreamRouter.modifyJob]

theorem StreamRouter.registry_release : (s.release jobId).registry = s.registry := by
  rw [StreamRouter.release]
  split <;> rfl

theorem StreamRouter.registry_remove (s : StreamRouter) (jobId : UInt64) :
    (s.remove jobId).registry = s.registry.erase jobId := by
  rw [StreamRouter.remove, StreamRouter.registry_release]

/-- A removal is noticed by a job in its senders only. -/
theorem StreamRouter.getElem?_remove {a : StreamJob} :
    (s.remove jobId).jobs[j]? = some a ↔ ∃ b, s.jobs[j]? = some b ∧
      { b with owners := if s.registry.lookup jobId = some j then b.owners - 1 else b.owners } = a := by
  change (s.release jobId).jobs[j]? = _ ↔ _
  rw [StreamRouter.jobs_release]
  cases s.registry.lookup jobId with
  | none => simp
  | some i =>
    refine getElem?_modifyJob.trans (exists_congr fun b => and_congr_right fun _ => ?_)
    by_cases hij : i = j
    · simp [hij]
    · simp [hij]

theorem StreamRouter.leads_remove (s : StreamRouter) (jobId : UInt64) (j : Nat) (a : StreamJob) :
    (s.remove jobId).leads j a = (s.leads j a && !(a.jobId == jobId)) := by
  rw [StreamRouter.leads, StreamRouter.leads, StreamRouter.registry_remove]
  by_cases ha : a.jobId = jobId
  · rw [ha, AList.lookup_erase]
    simp
  · rw [AList.lookup_erase_ne ha]
    simp [ha]

theorem StreamRouter.count_remove (s : StreamRouter) (jobId : UInt64) (c : StreamCounter) :
    (s.remove jobId).count c = s.count c := by
  rw [StreamRouter.remove, StreamRouter.release]
  split <;> cases c <;> rfl

/-- A job that loses its entry loses a sender, and another one neither. -/
theorem Sound.jobSound_remove (h : Sound config room s) (hjob : s.jobs[j]? = some job)
    (jobId : UInt64) : JobSound config room (s.leads j job && !(job.jobId == jobId))
      { job with owners := if s.registry.lookup jobId = some j then job.owners - 1
        else job.owners } := by
  have hsound := h.jobs j job hjob
  have howners := hsound.owners
  refine ⟨hsound.stage, ?_, hsound.first, hsound.receivers⟩
  by_cases hl : s.registry.lookup jobId = some j
  · obtain ⟨owner, howner, hid, -⟩ := h.listed jobId j hl
    cases howner.symm.trans hjob
    have hlead : s.leads j job = true := by rw [StreamRouter.leads, hid, hl, beq_self_eq_true]
    rw [hlead] at howners
    simp [hl, hid, howners]
  · have hsame : (s.leads j job && !(job.jobId == jobId)) = s.leads j job := by
      by_cases hid : job.jobId = jobId
      · have hlead : s.leads j job = false := by
          rw [StreamRouter.leads, hid]
          simpa using hl
        rw [hlead, Bool.false_and]
      · simp [hid]
    rw [hsame, if_neg hl]
    exact howners

/-- An entry is taken from the registry, whichever job it leads to. -/
theorem Sound.remove (h : Sound config room s) (jobId : UInt64) :
    Sound config room (s.remove jobId) where
  jobs j a ha := by
    obtain ⟨b, hb, rfl⟩ := StreamRouter.getElem?_remove.mp ha
    rw [StreamRouter.leads_remove]
    exact h.jobSound_remove hb jobId
  listed id j hj := by
    have hne : id ≠ jobId := by
      intro heq
      rw [StreamRouter.registry_remove, heq, AList.lookup_erase] at hj
      cases hj
    rw [StreamRouter.registry_remove, AList.lookup_erase_ne hne] at hj
    obtain ⟨b, hb, hid, hlisted⟩ := h.listed id j hj
    exact ⟨_, StreamRouter.getElem?_remove.mpr ⟨b, hb, rfl⟩, hid, hlisted⟩
  counts c := by
    rw [StreamRouter.count_remove, h.counts]
    change _ = (s.release jobId).jobs.countP _
    rw [StreamRouter.jobs_release]
    cases hl : s.registry.lookup jobId with
    | none => rfl
    | some i =>
      obtain ⟨owner, howner, -⟩ := h.listed jobId i hl
      have hmodify := countP_modify (p := StreamJob.counted c)
        (f := fun job : StreamJob => { job with owners := job.owners - 1 }) howner
      change _ + (owner.counted c).toNat = _ + (owner.counted c).toNat at hmodify
      exact (Nat.add_right_cancel hmodify).symm

theorem StreamRouter.submit_spec {t : StreamRouter}
    (ht : s.submitStreaming config jobId = some t) :
    t.jobs = (s.remove jobId).jobs ++ [{ jobId := jobId }] ∧
    (∀ id, t.registry.lookup id = if id = jobId then some (s.remove jobId).jobs.length
      else (s.remove jobId).registry.lookup id) ∧
    ∀ c, t.count c = (s.remove jobId).count c := by
  unfold StreamRouter.submitStreaming at ht
  split at ht
  · cases ht
  · have hlen : (s.remove jobId).jobs.length = s.jobs.length := by
      change (s.release jobId).jobs.length = _
      rw [StreamRouter.jobs_release]
      cases s.registry.lookup jobId with
      | none => rfl
      | some i => exact List.length_modify ..
    cases ht
    refine ⟨rfl, fun id => ?_, fun c => by cases c <;> rfl⟩
    by_cases hid : id = jobId
    · rw [if_pos hid, hid, AList.lookup_insert, hlen]
    · rw [if_neg hid, StreamRouter.registry_remove, AList.lookup_erase_ne hid]
      exact (AList.lookup_insert_ne hid).trans (by rw [StreamRouter.registry_release])

theorem jobSound_new (config : StreamConfig) (room : Nat) (jobId : UInt64) :
    JobSound config room true { jobId := jobId } := by
  refine ⟨.submitted, rfl, Nat.one_pos, fun k rx hk => ⟨0, fun _ => rfl, ?_⟩⟩
  rw [List.getElem?_singleton, Option.ite_none_right_eq_some] at hk
  cases hk.2
  exact Collects.subscribed room [] false

/-- A new job has the registry lead to it. -/
theorem Sound.submit (h : Sound config room s) {t : StreamRouter}
    (ht : s.submitStreaming config jobId = some t) : Sound config room t := by
  obtain ⟨hjobs, hlookup, hcount⟩ := StreamRouter.submit_spec ht
  have hclear := h.remove jobId
  have hgone : (s.remove jobId).registry.lookup jobId = none := by
    rw [StreamRouter.registry_remove, AList.lookup_erase]
  generalize s.remove jobId = u at hclear hjobs hlookup hcount hgone
  refine ⟨fun j a ha => ?_, fun id j hj => ?_, fun c => ?_⟩
  · rw [hjobs] at ha
    by_cases hj : j < u.jobs.length
    · rw [List.getElem?_append_left hj] at ha
      have hleads : t.leads j a = u.leads j a := by
        rw [StreamRouter.leads, StreamRouter.leads, hlookup]
        split
        · rename_i hid
          rw [hid, hgone]
          simpa using hj.ne'
        · rfl
      rw [hleads]
      exact hclear.jobs j a ha
    · rw [List.getElem?_append_right (Nat.le_of_not_lt hj)] at ha
      rw [List.getElem?_singleton, Option.ite_none_right_eq_some] at ha
      obtain ⟨hzero, hnew⟩ := ha
      cases hnew
      have hlast : j = u.jobs.length := by omega
      have hleads : t.leads j { jobId := jobId } = true := by
        rw [StreamRouter.leads, hlookup, if_pos rfl, hlast, beq_self_eq_true]
      rw [hleads]
      exact jobSound_new config room jobId
  · rw [hlookup] at hj
    split at hj
    · rename_i hid
      cases hj
      refine ⟨{ jobId := jobId }, ?_, hid.symm, .inl rfl⟩
      rw [hjobs, List.getElem?_concat_length]
    · obtain ⟨a, ha, hid, hlisted⟩ := hclear.listed id j hj
      obtain ⟨hlt, -⟩ := List.getElem?_eq_some_iff.mp ha
      exact ⟨a, by rw [hjobs, List.getElem?_append_left hlt, ha], hid, hlisted⟩
  · have hnew : StreamJob.counted c { jobId := jobId } = false := by cases c <;> rfl
    rw [hcount, hjobs, hclear.counts, List.countP_append, List.countP_singleton, hnew]
    rfl

theorem JobSound.advance {leads : Bool} {job' : StreamJob} (h : JobSound config room leads job)
    (hopen : job.todo.isEmpty = false) (more : List StreamChunk)
    (hstage : Stage config (job.messages ++ more) job'.result job'.todo)
    (hmessages : job'.messages = job.messages ++ more)
    (howners : job'.owners = leads.toNat + (!job'.todo.isEmpty).toNat)
    (hreceivers : job'.receivers = job.receivers) : JobSound config room leads job' where
  stage := hmessages ▸ hstage
  owners := howners
  first := hreceivers ▸ h.first
  receivers := by
    intro k rx hk
    obtain ⟨since, hfirst, hcollects⟩ := h.receivers k rx (hreceivers ▸ hk)
    rw [hopen] at hcollects
    exact ⟨since, hfirst, hmessages ▸ hcollects.sent more _⟩

/-- One step of a worker that leaves the registry alone. -/
theorem Sound.work (h : Sound config room s) (hjob : s.jobs[i]? = some job)
    (hopen : job.todo.isEmpty = false) {t : StreamRouter} {f : StreamJob → StreamJob}
    (hjobs : t.jobs = s.jobs.modify i f) (hregistry : t.registry = s.registry)
    (hid : (f job).jobId = job.jobId) (hreceivers : (f job).receivers = job.receivers)
    (more : List StreamChunk) (hmessages : (f job).messages = job.messages ++ more)
    (hstage : Stage config (job.messages ++ more) (f job).result (f job).todo)
    (howners : (f job).owners = (s.leads i job).toNat + (!(f job).todo.isEmpty).toNat)
    (hlisted : s.leads i job = true → (f job).Listed)
    (hcount : ∀ c, t.count c + (job.counted c).toNat = s.count c + ((f job).counted c).toNat) :
    Sound config room t :=
  h.modify hjob hjobs hregistry hid
    ((h.jobs i job hjob).advance hopen more hstage hmessages howners hreceivers) hlisted hcount

/-- What a worker has done when it did what came next. -/
def StreamRouter.worked (config : StreamConfig) (s : StreamRouter) (i : Nat) (job : StreamJob)
    (result : Option (List Output)) (op : WorkerOp) : StreamRouter :=
  (s.perform config i job result op).modifyJob i fun job => { job with todo := job.todo.tail }

theorem StreamRouter.advance_cases {result : Option (List Output)} {t : StreamRouter}
    (ht : s.advance config i result = some t) : ∃ job op todo, s.jobs[i]? = some job ∧
      job.todo = op :: todo ∧ t = s.worked config i job result op := by
  unfold StreamRouter.advance at ht
  cases hjob : s.jobs[i]? with
  | none => simp [hjob] at ht
  | some job =>
    simp only [hjob] at ht
    cases htodo : job.todo with
    | nil => simp [htodo] at ht
    | cons op todo =>
      simp only [htodo, Option.some.injEq] at ht
      exact ⟨job, op, todo, rfl, htodo, ht.symm⟩

section Work

variable {result : Option (List Output)}

attribute [local simp] StreamJob.counted StreamRouter.count WorkerOp.counter? StreamCounter.due
  StreamRouter.perform StreamRouter.modifyJob StreamRouter.worked

theorem Sound.work_submitted (h : Sound config room s) (hjob : s.jobs[i]? = some job)
    (hmessages : job.messages = []) (hresult : job.result = none)
    (htodo : job.todo = [.countSubmitted, .route]) :
    Sound config room (s.worked config i job result .countSubmitted) := by
  have howners := (h.jobs i job hjob).owners
  refine h.work hjob (by rw [htodo]; rfl) rfl rfl rfl rfl [] (List.append_nil _).symm ?_ ?_
    (fun _ => .inl hresult) fun c => ?_
  · simp only [htodo, hresult, hmessages]
    exact .routed
  · simpa [htodo] using howners
  · cases c <;> simp [htodo, hresult]

/-- The router answers, and from then on it is clear what is to be sent. -/
theorem Sound.work_routed (h : Sound config room s) (hjob : s.jobs[i]? = some job)
    (hmessages : job.messages = []) (hresult : job.result = none) (htodo : job.todo = [.route]) :
    Sound config room (s.worked config i job result .route) := by
  have howners := (h.jobs i job hjob).owners
  refine h.work hjob (by rw [htodo]; rfl) (List.modify_modify_eq ..) rfl rfl rfl []
    (List.append_nil _).symm ?_ ?_ (fun _ => ?_) fun c => ?_
  · simp only [htodo, hmessages, Function.comp_apply]
    cases result with
    | none => exact .dropping
    | some outputs => exact .sending outputs [] _ rfl
  · cases result <;> simpa [htodo, plan] using howners
  · cases result <;> simp [StreamJob.Listed, htodo, plan]
  · cases result <;> cases c <;> simp [htodo, hresult, plan]

theorem Sound.work_sending (h : Sound config room s) (hjob : s.jobs[i]? = some job)
    {outputs : List Output} {chunk : StreamChunk} {rest : List StreamChunk}
    (hstream : stream config outputs = job.messages ++ chunk :: rest)
    (hresult : job.result = some (some outputs))
    (htodo : job.todo = (chunk :: rest).map .send ++ [.countCompleted, .remove, .dropSender]) :
    Sound config room (s.worked config i job result (.send chunk)) := by
  have howners := (h.jobs i job hjob).owners
  refine h.work hjob (by rw [htodo]; rfl) (List.modify_modify_eq ..) rfl rfl rfl [chunk] rfl ?_ ?_
    (fun _ => .inr ?_) fun c => ?_
  · simp only [htodo, hresult, Function.comp_apply]
    exact .sending outputs _ rest (by rw [hstream]; simp)
  · simpa [htodo] using howners
  · simp [htodo]
  · cases c <;> simp [htodo, hresult]

theorem Sound.work_sent (h : Sound config room s) (hjob : s.jobs[i]? = some job)
    {outputs : List Output} (hstream : stream config outputs = job.messages)
    (hresult : job.result = some (some outputs))
    (htodo : job.todo = [.countCompleted, .remove, .dropSender]) :
    Sound config room (s.worked config i job result .countCompleted) := by
  have howners := (h.jobs i job hjob).owners
  refine h.work hjob (by rw [htodo]; rfl) rfl rfl rfl rfl [] (List.append_nil _).symm ?_ ?_
    (fun _ => .inr ?_) fun c => ?_
  · simp only [htodo, hresult, List.append_nil, ← hstream]
    exact .leaving (some outputs)
  · simpa [htodo] using howners
  · simp [htodo]
  · cases c <;> simp [htodo, hresult]

theorem Sound.work_dropping (h : Sound config room s) (hjob : s.jobs[i]? = some job)
    (hmessages : job.messages = []) (hresult : job.result = some none)
    (htodo : job.todo = [.countDropped, .remove, .dropSender]) :
    Sound config room (s.worked config i job result .countDropped) := by
  have howners := (h.jobs i job hjob).owners
  refine h.work hjob (by rw [htodo]; rfl) rfl rfl rfl rfl [] (List.append_nil _).symm ?_ ?_
    (fun _ => .inr ?_) fun c => ?_
  · simp only [htodo, hresult, hmessages]
    exact .leaving none
  · simpa [htodo] using howners
  · simp [htodo]
  · cases c <;> simp [htodo, hresult]

/-- The job is taken from the registry first, and then the worker goes on. -/
theorem Sound.work_leaving (h : Sound config room s) (hjob : s.jobs[i]? = some job)
    {answer : Option (List Output)} (hmessages : job.messages = answered config answer)
    (hresult : job.result = some answer) (htodo : job.todo = [.remove, .dropSender]) :
    Sound config room (s.worked config i job result .remove) := by
  have hremoved := h.remove job.jobId
  obtain ⟨owners, hgone⟩ : ∃ owners,
      (s.remove job.jobId).jobs[i]? = some { job with owners := owners } :=
    ⟨_, StreamRouter.getElem?_remove.mpr ⟨job, hjob, rfl⟩⟩
  have hleads : (s.remove job.jobId).leads i { job with owners := owners } = false := by
    rw [StreamRouter.leads_remove]
    simp
  have howners := (hremoved.jobs i _ hgone).owners
  refine hremoved.work hgone (by rw [htodo]; rfl) rfl rfl rfl rfl [] (List.append_nil _).symm ?_ ?_
    (fun hlead => ?_) fun c => ?_
  · simp only [htodo, hresult, hmessages, List.append_nil]
    exact .left answer
  · simpa [htodo] using howners
  · exact absurd (hlead.symm.trans hleads) nofun
  · cases c <;> simp [htodo, hresult]

theorem Sound.work_left (h : Sound config room s) (hjob : s.jobs[i]? = some job)
    {answer : Option (List Output)} (hmessages : job.messages = answered config answer)
    (hresult : job.result = some answer) (htodo : job.todo = [.dropSender]) :
    Sound config room (s.worked config i job result .dropSender) := by
  have howners := (h.jobs i job hjob).owners
  have hleads : s.leads i job = false :=
    h.leads_eq_false hjob (by simp [StreamJob.Listed, hresult, htodo])
  refine h.work hjob (by rw [htodo]; rfl) (List.modify_modify_eq ..) rfl rfl rfl []
    (List.append_nil _).symm ?_ ?_ (fun hlead => ?_) fun c => ?_
  · simp only [htodo, hresult, hmessages, List.append_nil, Function.comp_apply]
    exact .finished answer
  · simp [htodo, howners]
  · exact absurd (hlead.symm.trans hleads) nofun
  · cases c <;> simp [htodo, hresult]

end Work

/-- The stage a worker is at says what comes next. -/
theorem Sound.advance (h : Sound config room s) {result : Option (List Output)}
    {t : StreamRouter} (ht : s.advance config i result = some t) : Sound config room t := by
  obtain ⟨job, op, todo, hjob, htodo, rfl⟩ := StreamRouter.advance_cases ht
  have hstage := (h.jobs i job hjob).stage
  generalize hmessages : job.messages = messages at hstage
  generalize hresult : job.result = before at hstage
  rw [htodo] at hstage
  generalize hnext : op :: todo = next at hstage
  rw [hnext] at htodo
  cases hstage with
  | submitted =>
    cases hnext
    exact h.work_submitted hjob hmessages hresult htodo
  | routed =>
    cases hnext
    exact h.work_routed hjob hmessages hresult htodo
  | sending outputs sent rest hstream =>
    subst hmessages
    cases rest with
    | nil =>
      cases hnext
      exact h.work_sent hjob (hstream.trans (List.append_nil _)) hresult htodo
    | cons chunk rest =>
      cases hnext
      exact h.work_sending hjob hstream hresult htodo
  | dropping =>
    cases hnext
    exact h.work_dropping hjob hmessages hresult htodo
  | leaving answer =>
    cases hnext
    exact h.work_leaving hjob hmessages hresult htodo
  | left answer =>
    cases hnext
    exact h.work_left hjob hmessages hresult htodo
  | finished answer => cases hnext

theorem Sound.subscribe (h : Sound config room s) {t : StreamRouter}
    (ht : s.subscribe jobId = .ok t) : Sound config room t := by
  unfold StreamRouter.subscribe at ht
  split at ht
  · cases ht
  · rename_i i hl
    cases ht
    obtain ⟨job, hjob, -, hlisted⟩ := h.listed jobId i hl
    have hsound := h.jobs i job hjob
    refine h.modify hjob rfl rfl rfl ⟨hsound.stage, hsound.owners, by simp, fun k rx hk => ?_⟩
      (fun _ => hlisted) fun c => ?_
    · by_cases hlt : k < job.receivers.length
      · rw [List.getElem?_append_left hlt] at hk
        exact hsound.receivers k rx hk
      · rw [List.getElem?_append_right (Nat.le_of_not_lt hlt), List.getElem?_singleton,
          Option.ite_none_right_eq_some] at hk
        cases hk.2
        have hfirst := hsound.first
        exact ⟨job.messages.length, fun hzero => by omega, Collects.subscribed ..⟩
    · cases c <;> rfl

theorem Sound.recv (h : Sound config room s) {k : Nat} {t : StreamRouter}
    (ht : s.recv room i k = some t) : Sound config room t := by
  unfold StreamRouter.recv at ht
  cases hjob : s.jobs[i]? with
  | none => simp [hjob] at ht
  | some job =>
    simp only [hjob] at ht
    cases hrx : job.receivers[k]? with
    | none => simp [hrx] at ht
    | some rx =>
      simp only [hrx, Option.ite_none_left_eq_some, Option.map_eq_some_iff] at ht
      obtain ⟨hopen, told, htold, rfl⟩ := ht
      have hsound := h.jobs i job hjob
      have hclosed : (job.owners == 0) = true → job.todo.isEmpty = true := by
        intro hzero
        rw [beq_iff_eq, hsound.owners] at hzero
        cases hempty : job.todo.isEmpty with
        | true => rfl
        | false => simp [hempty] at hzero
      have hsame : 0 < (job.receivers.modify k fun rx => rx.collect told).length := by
        rw [List.length_modify]
        exact hsound.first
      refine h.modify hjob rfl rfl rfl ⟨hsound.stage, hsound.owners, hsame, fun j rx' hj => ?_⟩
        (fun hlead => ?_) fun c => ?_
      · rw [List.getElem?_modify, Option.map_eq_map, Option.map_eq_some_iff] at hj
        obtain ⟨rx₀, hj, rfl⟩ := hj
        obtain ⟨since, hfirst, hcollects⟩ := hsound.receivers j rx₀ hj
        refine ⟨since, hfirst, ?_⟩
        by_cases hkj : k = j
        · subst hkj
          cases hrx.symm.trans hj
          rw [if_pos rfl]
          exact hcollects.collect (Option.not_isSome_iff_eq_none.mp hopen) htold hclosed
        · rw [if_neg hkj]
          exact hcollects
      · have hlisted : job.Listed := h.listed_of_leads hjob hlead
        exact hlisted
      · cases c <;> rfl

theorem Sound.step {room : Room config} (h : Sound config room s) {e : StreamEvent}
    {t : StreamRouter} (ht : step config room s e = some t) : Sound config room t := by
  cases e with
  | submit jobId => exact h.submit ht
  | advance i result => exact h.advance ht
  | recv i k => exact h.recv ht
  | subscribe jobId =>
    change some _ = some t at ht
    cases hs : s.subscribe jobId with
    | error e =>
      rw [hs] at ht
      cases ht
      exact h
    | ok u =>
      rw [hs] at ht
      cases ht
      exact h.subscribe hs

theorem sound_throughout (config : StreamConfig) (room : Room config) (events : List StreamEvent) :
    Throughout (step config room) (Sound config room) {} events :=
  throughout_of_step Sound.start fun _ _ _ h ht => h.step ht

/-- What was sent so far begins what is sent in the end. -/
theorem Stage.messages {messages : List StreamChunk} {result : Option (Option (List Output))}
    {todo : List WorkerOp} (h : Stage config messages result todo) :
    result = none ∧ messages = [] ∧ todo ≠ [] ∨ ∃ r rest, result = some r ∧
      answered config r = messages ++ rest ∧ (todo = [] → rest = []) := by
  cases h with
  | submitted => exact .inl ⟨rfl, rfl, nofun⟩
  | routed => exact .inl ⟨rfl, rfl, nofun⟩
  | sending outputs sent rest heq =>
    refine .inr ⟨some outputs, rest, rfl, heq, fun hnil => ?_⟩
    exact absurd (List.append_eq_nil_iff.mp hnil).2 nofun
  | dropping => exact .inr ⟨none, [], rfl, rfl, fun _ => rfl⟩
  | leaving r => exact .inr ⟨r, [], rfl, (List.append_nil _).symm, fun _ => rfl⟩
  | left r => exact .inr ⟨r, [], rfl, (List.append_nil _).symm, fun _ => rfl⟩
  | finished r => exact .inr ⟨r, [], rfl, (List.append_nil _).symm, fun _ => rfl⟩

theorem JobSound.not_listed {leads : Bool} (h : JobSound config room leads job)
    (hthrough : job.todo = []) : ¬ job.Listed := by
  rintro (hnone | hremove)
  · rcases h.stage.messages with ⟨-, -, hnot⟩ | ⟨result, rest, hresult, -⟩
    · exact hnot hthrough
    · cases hnone.symm.trans hresult
  · rw [hthrough] at hremove
    cases hremove

theorem takeWhile_values {parts : List StreamChunk} {values : List Float} (total : Nat)
    (rest : List StreamChunk) (h : parts.map StreamChunk.value? = values.map some) :
    (parts ++ .done total :: rest).takeWhile (fun c => c.value?.isSome) = parts := by
  have hall : ∀ c ∈ parts, c.value?.isSome = true := by
    intro c hc
    have hmem := List.mem_map_of_mem (f := StreamChunk.value?) hc
    rw [h] at hmem
    obtain ⟨v, -, hv⟩ := List.mem_map.mp hmem
    rw [← hv, Option.isSome_some]
  rw [List.takeWhile_append_of_pos hall, List.takeWhile_cons_of_neg (by simp [StreamChunk.value?]),
    List.append_nil]

/-- Whoever reads some values and then the end has read all the values from there on. -/
theorem partials_of_read {outputs : List Output} {since total : Nat}
    {parts : List StreamChunk} {values : List Float}
    (hread : parts ++ [.done total] <+: (stream config outputs).drop since)
    (hparts : parts.map StreamChunk.value? = values.map some) :
    values = (partials config outputs).drop since ∧ total = (partials config outputs).length := by
  obtain ⟨all, hstream, hall, -, -⟩ := stream_cases config outputs
  have hlen : all.length = (partials config outputs).length := by
    rw [← List.length_map StreamChunk.value?, hall, List.length_map]
  obtain ⟨rest, hrest⟩ := hread
  have hsince : since ≤ all.length := by
    by_contra hmore
    rw [hstream, List.drop_eq_nil_of_le (by simp; omega)] at hrest
    simp at hrest
  rw [hstream, List.drop_append_of_le_length hsince, List.append_assoc] at hrest
  have hdrop : (all.drop since).map StreamChunk.value? =
      ((partials config outputs).drop since).map some := by
    rw [List.map_drop, hall, List.map_drop]
  have heq : parts = all.drop since := by
    rw [← takeWhile_values total rest hparts,
      ← takeWhile_values all.length [] hdrop]
    exact congrArg _ hrest
  subst heq
  refine ⟨List.map_injective_iff.mpr (Option.some_injective Float) (hparts.symm.trans hdrop), ?_⟩
  have hend := List.append_cancel_left hrest
  rw [List.singleton_append] at hend
  obtain ⟨hdone, -⟩ := List.cons.inj hend
  cases hdone
  exact hlen

/-- What `collect_stream` makes of a job, for the submitter or for one who subscribed later. -/
def Delivered (config : StreamConfig) (job : StreamJob) (submitter : Bool) :
    Except StreamError (List Float × Nat) → Prop
  | .ok (values, total) => ∃ outputs, job.result = some (some outputs) ∧
      values <:+ partials config outputs ∧ total = (partials config outputs).length ∧
      (submitter = true → values = partials config outputs) ∧
      (outputs ≠ [] → AreMeans outputs (partials config outputs))
  | .error (.lagged _) => config.channelCapacity ≤ max 1 config.chunksPerJob
  | .error .channelClosed => job.todo = [] ∧ (submitter = true → job.result = some none)
  | .error _ => False

section Outcomes

variable {leads : Bool} {since : Nat} {read : List StreamChunk} {values : List Float}

/-- Whoever has read to the end has read the rest of what a job that was not dropped sends. -/
theorem JobSound.collected (h : JobSound config room leads job)
    (hheard : Heard job.messages since read) {parts : List StreamChunk} {total : Nat}
    (hread : read = parts ++ [.done total])
    (hparts : parts.map StreamChunk.value? = values.map some) :
    ∃ outputs, job.result = some (some outputs) ∧
      values = (partials config outputs).drop since ∧ total = (partials config outputs).length := by
  have hprefix := hread ▸ hheard.2
  rcases h.stage.messages with ⟨-, hnil, -⟩ | ⟨result, rest, hresult, hall, -⟩
  · rw [hnil, List.drop_nil, List.prefix_nil] at hprefix
    simp at hprefix
  · have hmore : parts ++ [.done total] <+: (answered config result).drop since := by
      rw [hall, List.drop_append_of_le_length hheard.1]
      exact hprefix.trans (List.prefix_append ..)
    cases result with
    | none => simp [answered] at hmore
    | some outputs => exact ⟨outputs, hresult, partials_of_read hmore hparts⟩

/-- A job never sends more than its chunks and the end. -/
theorem JobSound.length_messages_le (h : JobSound config room leads job) :
    job.messages.length ≤ max 1 config.chunksPerJob + 1 := by
  rcases h.stage.messages with ⟨-, hnil, -⟩ | ⟨result, rest, -, hall, -⟩
  · rw [hnil]
    exact Nat.zero_le _
  · have hlen := congrArg List.length hall
    cases result with
    | none =>
      rw [answered, List.length_nil, List.length_append] at hlen
      omega
    | some outputs =>
      obtain ⟨all, hstream, -, hbound, -⟩ := stream_cases config outputs
      rw [answered, hstream, List.length_append, List.length_append, List.length_singleton] at hlen
      omega

/-- Who has read all of a job's messages and no end was not sent one. -/
theorem JobSound.dropped (h : JobSound config room leads job) (hthrough : job.todo = [])
    (hvalues : job.messages.map StreamChunk.value? = values.map some) :
    job.result = some none := by
  rcases h.stage.messages with ⟨-, -, hnot⟩ | ⟨result, rest, hresult, hall, hrest⟩
  · exact absurd hthrough hnot
  · cases result with
    | none => exact hresult
    | some outputs =>
      obtain ⟨all, hstream, -, -, -⟩ := stream_cases config outputs
      rw [hrest hthrough, List.append_nil] at hall
      rw [← hall, answered, hstream, List.map_append] at hvalues
      have hmem : none ∈ values.map some := by
        rw [← hvalues]
        exact List.mem_append_right _ (List.mem_singleton.mpr rfl)
      simp at hmem

/-- Once the worker is through, nobody waits. -/
theorem recv_ready {room : Room config} (h : Sound config room s)
    (hjob : s.jobs[i]? = some job) {k : Nat} {rx : Receiver} (hk : job.receivers[k]? = some rx)
    (hthrough : job.todo = []) (hopen : rx.outcome = none) :
    ∃ t, step config room s (.recv i k) = some t := by
  have hsound := h.jobs i job hjob
  have hleads := h.leads_eq_false hjob (hsound.not_listed hthrough)
  have howners : job.owners = 0 := by rw [hsound.owners, hleads, hthrough]; rfl
  obtain ⟨told, next, htold⟩ := exists_receive room.1 job.messages rx.position
  have hrecv : Containers.receive room job.messages (job.owners == 0) rx.position =
      some (told, next) := by rw [howners]; exact htold
  refine ⟨s.modifyJob i fun job => { job with
    receivers := job.receivers.modify k fun rx => rx.collect (told, next) }, ?_⟩
  change s.recv room i k = _
  simp only [StreamRouter.recv, hjob, hk, hopen, hrecv, Option.isSome_none, Bool.false_eq_true,
    if_false, Option.map_some]

end Outcomes

/-- A job's subscribers hear all of it or are told that they do not. The submitter gets the mean
of every part of the output, unless the router dropped the job; only a channel that has less room
than a job has chunks makes anyone lag; and nobody waits for a worker that is through. -/
theorem streams_delivered (config : StreamConfig) (room : Room config)
    (events : List StreamEvent) :
    Throughout (step config room) (fun s => ∀ i job k rx, s.jobs[i]? = some job →
      job.receivers[k]? = some rx →
        (∀ r, rx.outcome = some r → Delivered config job (k == 0) r) ∧
        (job.todo = [] → rx.outcome = none → ∃ t, step config room s (.recv i k) = some t))
      {} events := by
  refine (sound_throughout config room events).imp fun s h i job k rx hjob hk =>
    ⟨fun r hr => ?_, recv_ready h hjob hk⟩
  have hsound := h.jobs i job hjob
  obtain ⟨since, hfirst, read, hheard, htold⟩ := hsound.receivers k rx hk
  simp only [Told, hr] at htold
  cases r with
  | ok collected =>
    obtain ⟨values, total⟩ := collected
    obtain ⟨parts, hread, hparts⟩ := htold
    obtain ⟨outputs, hresult, hvalues, htotal⟩ := hsound.collected hheard hread hparts
    obtain ⟨-, -, -, -, hmeans⟩ := stream_cases config outputs
    refine ⟨outputs, hresult, hvalues ▸ List.drop_suffix .., htotal, fun hsubmitter => ?_, hmeans⟩
    rw [hvalues, hfirst (by simpa using hsubmitter), List.drop_zero]
  | error e =>
    cases e with
    | notFound id => exact htold
    | jobDropped id => exact htold
    | lagged missed =>
      change config.channelCapacity ≤ _
      have hroom := room.2
      have hlength := hsound.length_messages_le
      omega
    | channelClosed =>
      obtain ⟨hover, hread, hvalues⟩ := htold
      have hthrough := List.isEmpty_iff.mp hover
      refine ⟨hthrough, fun hsubmitter => ?_⟩
      rw [hread, hfirst (by simpa using hsubmitter), List.drop_zero] at hvalues
      exact hsound.dropped hthrough hvalues

theorem JobSound.counted_le {leads : Bool} (h : JobSound config room leads job) :
    (job.counted .completed).toNat + (job.counted .dropped).toNat ≤
      (job.counted .submitted).toNat := by
  have hstage := h.stage
  unfold StreamJob.counted
  generalize job.todo = todo at hstage ⊢
  generalize job.result = result at hstage ⊢
  generalize job.messages = messages at hstage
  cases hstage with
  | sending outputs sent rest heq => simp [StreamCounter.due, WorkerOp.counter?]
  | leaving r => cases r <;> simp [StreamCounter.due, WorkerOp.counter?]
  | left r => cases r <;> simp [StreamCounter.due, WorkerOp.counter?]
  | finished r => cases r <;> simp [StreamCounter.due]
  | submitted => simp [StreamCounter.due]
  | routed => simp [StreamCounter.due]
  | dropping => simp [StreamCounter.due, WorkerOp.counter?]

theorem countP_add_le {α : Type} {p q r : α → Bool} {l : List α}
    (h : ∀ a ∈ l, (p a).toNat + (q a).toNat ≤ (r a).toNat) :
    l.countP p + l.countP q ≤ l.countP r := by
  induction l with
  | nil => exact Nat.le_refl 0
  | cons a l ih =>
    obtain ⟨ha, hl⟩ := List.forall_mem_cons.mp h
    have := ih hl
    rw [List.countP_cons, List.countP_cons, List.countP_cons]
    cases hp : p a <;> cases hq : q a <;> cases hr : r a <;> simp [hp, hq, hr] at ha ⊢ <;> omega

/-- Every job is counted once as submitted and at most once as completed or dropped, by what the
router answered; an id leads to a job of that id whose worker is not through; and when all
workers are through, the counters add up and the registry is empty. -/
theorem streams_accounted (config : StreamConfig) (room : Room config)
    (events : List StreamEvent) :
    Throughout (step config room) (fun s =>
      s.totalCompleted + s.totalDropped ≤ s.totalSubmitted ∧
      s.totalSubmitted ≤ s.jobs.length ∧
      (∀ jobId i, s.registry.lookup jobId = some i →
        ∃ job, s.jobs[i]? = some job ∧ job.jobId = jobId ∧ job.todo ≠ []) ∧
      ((∀ job ∈ s.jobs, job.todo = []) →
        s.totalSubmitted = s.jobs.length ∧
        s.totalCompleted = s.jobs.countP (fun job => job.result.any Option.isSome) ∧
        s.totalDropped = s.jobs.countP (fun job => job.result.any Option.isNone) ∧
        s.totalCompleted + s.totalDropped = s.totalSubmitted ∧
        ∀ jobId, s.registry.lookup jobId = none)) {} events := by
  refine (sound_throughout config room events).imp fun s h => ?_
  have hsubmitted : s.totalSubmitted = _ := h.counts .submitted
  have hcompleted : s.totalCompleted = _ := h.counts .completed
  have hdropped : s.totalDropped = _ := h.counts .dropped
  rw [hsubmitted, hcompleted, hdropped]
  refine ⟨countP_add_le fun job hmem => ?_, List.countP_le_length, fun jobId i hl => ?_,
    fun hthrough => ?_⟩
  · obtain ⟨i, hi⟩ := List.mem_iff_getElem?.mp hmem
    exact (h.jobs i job hi).counted_le
  · obtain ⟨job, hjob, hid, hlisted⟩ := h.listed jobId i hl
    exact ⟨job, hjob, hid, fun hnil => (h.jobs i job hjob).not_listed hnil hlisted⟩
  · have hdue (c : StreamCounter) : s.jobs.countP (StreamJob.counted c) =
        s.jobs.countP fun job => c.due job.result := by
      refine List.countP_congr fun job hmem => ?_
      rw [StreamJob.counted, hthrough job hmem, settled_nil, Bool.and_true]
    have hanswered : ∀ job ∈ s.jobs, (job.result.any Option.isNone = true ↔
        ¬ job.result.any Option.isSome = true) := by
      intro job hmem
      obtain ⟨i, hi⟩ := List.mem_iff_getElem?.mp hmem
      rcases (h.jobs i job hi).stage.messages with ⟨-, -, hnot⟩ | ⟨r, -, hr, -⟩
      · exact absurd (hthrough job hmem) hnot
      · rw [hr]
        cases r <;> simp
    rw [hdue, hdue, hdue]
    have hsplit := List.length_eq_countP_add_countP (fun job : StreamJob =>
      job.result.any Option.isSome) (l := s.jobs)
    have hnone : s.jobs.countP (fun job => job.result.any Option.isNone) = s.jobs.countP fun job =>
        decide ¬ job.result.any Option.isSome = true :=
      List.countP_congr fun job hmem => by rw [hanswered job hmem, decide_eq_true_iff]
    have hall : s.jobs.countP (fun job => StreamCounter.submitted.due job.result) =
        s.jobs.length := List.countP_eq_length.mpr fun _ _ => rfl
    refine ⟨hall, rfl, rfl, ?_, fun jobId => ?_⟩
    · rw [hall, hsplit, ← hnone]
      rfl
    · cases hl : s.registry.lookup jobId with
      | none => rfl
      | some i =>
        obtain ⟨job, hjob, -, hlisted⟩ := h.listed jobId i hl
        have hnil := hthrough job (List.mem_of_getElem? hjob)
        exact absurd hlisted ((h.jobs i job hjob).not_listed hnil)

end HelixRouter.Streams
