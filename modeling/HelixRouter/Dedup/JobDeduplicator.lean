import HelixRouter.Containers.Retain
import HelixRouter.Router.ResultCache
import Mathlib.Data.List.Induction

namespace HelixRouter.Dedup

/-- The debug text of an `f32`. -/
class F32Debug where
  text : Float32 → String

def debugKind : JobKind → String
  | .hashMix => "HashMix"
  | .primeCount => "PrimeCount"
  | .monteCarloRisk => "MonteCarloRisk"

def debugInputs (inputs : List UInt64) : String :=
  "[" ++ ", ".intercalate (inputs.map toString) ++ "]"

def debugJob [F32Debug] (job : Job) : String :=
  "Job \x7b id: " ++ toString job.id ++ ", kind: " ++ debugKind job.kind ++
    ", inputs: " ++ debugInputs job.inputs ++ ", compute_cost: " ++ toString job.computeCost ++
    ", scaling_potential: " ++ F32Debug.text job.scalingPotential ++
    ", latency_budget_ms: " ++ toString job.latencyBudgetMs ++
    ", deadline_ms: " ++ toString job.deadlineMs ++ " \x7d"

def fnv1aStr (s : String) : UInt64 := fnv1a64 (s.toList.flatMap String.utf8EncodeChar)

abbrev DedupKey := UInt64

/-- The key covers the debug text of the whole job, its id included. -/
def DedupKey.forJob [F32Debug] (job : Job) : DedupKey :=
  fnv1aStr (job.kind.display ++ toString (fnv1aStr (debugJob job)))

abbrev JobResult := Except String (List Output)

/-- The oneshot channels, by the order they were made in, with what was sent. -/
abbrev Channels := List (Option JobResult)

structure DedupeEntry where
  originalJobId : UInt64
  submittedAt : Nat
  waiters : List Nat := []

inductive DedupDecision where
  | new (job : Job)
  | duplicate (originalId : UInt64) (rx : Nat)

structure JobDeduplicator where
  entries : AList (fun _ : DedupKey => DedupeEntry) := ∅
  idToKey : AList (fun _ : UInt64 => DedupKey) := ∅
  ttl : Nat := 30000
  totalSubmitted : Nat := 0
  dedupedCount : Nat := 0

namespace JobDeduplicator

def evict (d : JobDeduplicator) (key : DedupKey) : JobDeduplicator :=
  match d.entries.lookup key with
  | some entry =>
    { d with
      entries := d.entries.erase key
      idToKey := d.idToKey.erase entry.originalJobId }
  | none => d

def expiredKeys (d : JobDeduplicator) (now : Nat) : List DedupKey :=
  (d.entries.entries.filter fun e => decide (d.ttl < now - e.2.submittedAt)).map (·.1)

def evictExpired (d : JobDeduplicator) (now : Nat) : JobDeduplicator :=
  (d.expiredKeys now).foldl evict d

/-- A duplicate gets a channel of its own; a new job takes the index of its id. -/
def submit [F32Debug] (d : JobDeduplicator) (channels : Channels) (job : Job) (now : Nat) :
    DedupDecision × JobDeduplicator × Channels :=
  let d := d.evictExpired now
  let d := { d with totalSubmitted := d.totalSubmitted + 1 }
  let key := DedupKey.forJob job
  match d.entries.lookup key with
  | some entry =>
    let rx := channels.length
    (.duplicate entry.originalJobId rx,
      { d with
        entries := d.entries.insert key { entry with waiters := entry.waiters ++ [rx] }
        dedupedCount := d.dedupedCount + 1 },
      channels ++ [none])
  | none =>
    (.new job,
      { d with
        entries := d.entries.insert key { originalJobId := job.id, submittedAt := now }
        idToKey := d.idToKey.insert job.id key },
      channels)

def send (result : JobResult) (channels : Channels) (tx : Nat) : Channels :=
  channels.set tx (some result)

/-- The index leads to the entry, whose waiters all get the result. -/
def complete (d : JobDeduplicator) (channels : Channels) (jobId : UInt64) (result : JobResult) :
    Nat × JobDeduplicator × Channels :=
  match d.idToKey.lookup jobId with
  | none => (0, d, channels)
  | some key =>
    let d := { d with idToKey := d.idToKey.erase jobId }
    match d.entries.lookup key with
    | none => (0, d, channels)
    | some entry =>
      (entry.waiters.length, { d with entries := d.entries.erase key },
        entry.waiters.foldl (send result) channels)

end JobDeduplicator

open Containers

inductive Call where
  | submit (job : Job) (now : Nat)
  | complete (jobId : UInt64) (result : JobResult)

/-- A deduplicator, the channels it made, and for each key the receivers that were handed out
since the last job that was new under it. -/
structure Desk where
  dedup : JobDeduplicator
  channels : Channels := []
  handedOut : DedupKey → List Nat := fun _ => []

namespace Desk

def complete (s : Desk) (jobId : UInt64) (result : JobResult) : Desk :=
  let (_, dedup, channels) := s.dedup.complete s.channels jobId result
  { s with dedup := dedup, channels := channels }

variable [F32Debug]

def submit (s : Desk) (job : Job) (now : Nat) : Desk :=
  let (decision, dedup, channels) := s.dedup.submit s.channels job now
  let key := DedupKey.forJob job
  { dedup := dedup
    channels := channels
    handedOut := Function.update s.handedOut key (match decision with
      | .new _ => []
      | .duplicate _ rx => s.handedOut key ++ [rx]) }

def apply (s : Desk) : Call → Desk
  | .submit job now => s.submit job now
  | .complete jobId result => s.complete jobId result

def after (ttl : Nat) (calls : List Call) : Desk := calls.foldl apply { dedup := { ttl := ttl } }

end Desk

/-- The id each key belongs to. -/
def owner (entries : AList fun _ : DedupKey => DedupeEntry) (key : DedupKey) : Option UInt64 :=
  (entries.lookup key).map (·.originalJobId)

/-- The two maps undo each other. -/
def JobDeduplicator.Paired (d : JobDeduplicator) : Prop :=
  Inverse (owner d.entries) d.idToKey.lookup

section Claims

variable [F32Debug]

/-- The job was new, and neither completed nor evicted since. -/
def Desk.InFlight (s : Desk) (job : Job) : Prop :=
  owner s.dedup.entries (DedupKey.forJob job) = some job.id

/-- All the receivers of the job get the result, and its entry goes, and no other. -/
structure Desk.Served (s : Desk) (job : Job) (result : JobResult) : Prop where
  delivered : ∀ rx ∈ s.handedOut (DedupKey.forJob job),
    (s.complete job.id result).channels[rx]? = some (some result)
  removed : ∀ key, (s.complete job.id result).dedup.entries.lookup key =
    if key = DedupKey.forJob job then none else s.dedup.entries.lookup key

/-- A job that is new has an id that no other job in flight has. -/
def Desk.FreshId (s : Desk) (job : Job) (now : Nat) : Prop :=
  let entries := (s.dedup.evictExpired now).entries
  owner entries (DedupKey.forJob job) = none → ∀ key, owner entries key ≠ some job.id

end Claims

section Owners

variable {entries : AList fun _ : DedupKey => DedupeEntry}

theorem owner_insert (key : DedupKey) (entry : DedupeEntry) :
    owner (entries.insert key entry) =
      Function.update (owner entries) key (some entry.originalJobId) := by
  funext k
  unfold owner
  by_cases hk : k = key
  · subst hk
    simp
  · simp [hk]

theorem owner_erase (key : DedupKey) :
    owner (entries.erase key) = Function.update (owner entries) key none := by
  funext k
  unfold owner
  by_cases hk : k = key
  · subst hk
    simp
  · simp [hk]

end Owners

namespace JobDeduplicator

variable {d : JobDeduplicator}

theorem Paired.evict (h : d.Paired) (key : DedupKey) : (d.evict key).Paired := by
  unfold JobDeduplicator.evict
  cases he : d.entries.lookup key with
  | none => exact h
  | some entry =>
    have howner : owner d.entries key = some entry.originalJobId := by rw [owner, he]; rfl
    have hremove := h.remove howner
    rw [← owner_erase, ← AList.lookup_erase_eq] at hremove
    exact hremove

theorem Paired.evictExpired (h : d.Paired) (now : Nat) : (d.evictExpired now).Paired := by
  unfold JobDeduplicator.evictExpired
  generalize d.expiredKeys now = expired
  induction expired generalizing d with
  | nil => exact h
  | cons key expired ih => exact ih (h.evict key)

/-- Completing takes the pair out of both maps. -/
theorem Paired.complete (h : d.Paired) (channels : Channels) (jobId : UInt64)
    (result : JobResult) : (d.complete channels jobId result).2.1.Paired := by
  unfold JobDeduplicator.complete
  cases hk : d.idToKey.lookup jobId with
  | none => exact h
  | some key =>
    have howner := (h key jobId).mpr hk
    have hremove := h.remove howner
    rw [← owner_erase, ← AList.lookup_erase_eq] at hremove
    cases he : d.entries.lookup key with
    | none =>
      rw [owner, he] at howner
      nomatch howner
    | some entry =>
      simp only [he]
      exact hremove

theorem lookup_evictExpired {key : DedupKey} {entry : DedupeEntry} {now : Nat}
    (h : (d.evictExpired now).entries.lookup key = some entry) :
    d.entries.lookup key = some entry := by
  unfold JobDeduplicator.evictExpired at h
  generalize d.expiredKeys now = expired at h
  induction expired generalizing d with
  | nil => exact h
  | cons k expired ih =>
    have hk := ih h
    unfold JobDeduplicator.evict at hk
    split at hk
    · by_cases hkk : key = k
      · subst hkk
        rw [AList.lookup_erase] at hk
        nomatch hk
      · rwa [AList.lookup_erase_ne hkk] at hk
    · exact hk

theorem length_send (result : JobResult) (waiters : List Nat) (channels : Channels) :
    (waiters.foldl (send result) channels).length = channels.length := by
  induction waiters generalizing channels with
  | nil => rfl
  | cons tx waiters ih => rw [List.foldl_cons, ih, send, List.length_set]

/-- Every waiter that has a channel finds the result there. -/
theorem getElem?_send {result : JobResult} {waiters : List Nat} {channels : Channels} {rx : Nat}
    (hlt : rx < channels.length) (h : rx ∈ waiters ∨ channels[rx]? = some (some result)) :
    (waiters.foldl (send result) channels)[rx]? = some (some result) := by
  induction waiters generalizing channels with
  | nil => exact h.resolve_left List.not_mem_nil
  | cons tx waiters ih =>
    apply ih
    · rwa [send, List.length_set]
    · by_cases htx : tx = rx
      · subst htx
        exact Or.inr (List.getElem?_set_self hlt)
      · rw [send, List.getElem?_set_ne htx]
        exact h.imp_left fun hmem => (List.mem_cons.mp hmem).resolve_left (Ne.symm htx)

variable [F32Debug]

/-- A submission keeps the maps paired exactly if the id of a new job is fresh. -/
theorem paired_submit_iff (h : d.Paired) (channels : Channels) (job : Job) (now : Nat) :
    (d.submit channels job now).2.1.Paired ↔
      (owner (d.evictExpired now).entries (DedupKey.forJob job) = none →
        ∀ key, owner (d.evictExpired now).entries key ≠ some job.id) := by
  have hevicted := h.evictExpired now
  unfold JobDeduplicator.submit
  generalize d.evictExpired now = d at hevicted
  cases he : d.entries.lookup (DedupKey.forJob job) with
  | some entry =>
    have howner : owner d.entries (DedupKey.forJob job) = some entry.originalJobId := by
      rw [owner, he]
      rfl
    have hsame : owner (d.entries.insert (DedupKey.forJob job)
        { entry with waiters := entry.waiters ++ [channels.length] }) = owner d.entries := by
      rw [owner_insert]
      exact (Function.update_eq_self_iff.mpr howner.symm)
    simp only [he]
    refine ⟨fun _ hnone => ?_, fun _ => ?_⟩
    · rw [howner] at hnone
      nomatch hnone
    · unfold Paired
      rw [hsame]
      exact hevicted
  | none =>
    have howner : owner d.entries (DedupKey.forJob job) = none := by rw [owner, he]; rfl
    simp only [he]
    unfold Paired
    rw [owner_insert, AList.lookup_insert_eq]
    constructor
    · intro hpaired _ key hkey
      apply not_inverse_insert _ hkey hpaired
      intro heq
      rw [heq, howner] at hkey
      nomatch hkey
    · exact fun hfresh => hevicted.insert howner (hfresh howner)

end JobDeduplicator

namespace Desk

variable {s : Desk} {job : Job}

/-- The waiters of an entry are the receivers that were handed out for it. -/
structure Handed (s : Desk) : Prop where
  waiters : ∀ key entry, s.dedup.entries.lookup key = some entry → entry.waiters = s.handedOut key
  made : ∀ key, ∀ rx ∈ s.handedOut key, rx < s.channels.length

theorem Handed.complete (h : s.Handed) (jobId : UInt64) (result : JobResult) :
    (s.complete jobId result).Handed := by
  unfold Desk.complete JobDeduplicator.complete
  cases hk : s.dedup.idToKey.lookup jobId with
  | none => exact h
  | some key =>
    cases he : s.dedup.entries.lookup key with
    | none =>
      simp only [he]
      exact ⟨h.waiters, h.made⟩
    | some entry =>
      simp only [he]
      refine ⟨fun k e hlook => ?_, fun k rx hrx => ?_⟩
      · by_cases hkk : k = key
        · subst hkk
          rw [AList.lookup_erase] at hlook
          nomatch hlook
        · rw [AList.lookup_erase_ne hkk] at hlook
          exact h.waiters k e hlook
      · rw [JobDeduplicator.length_send]
        exact h.made k rx hrx

/-- A key is given an entry, and its receivers are those the entry waits with. -/
theorem waiters_insert {entries : AList fun _ : DedupKey => DedupeEntry}
    {given : DedupKey → List Nat}
    (h : ∀ k e, entries.lookup k = some e → e.waiters = given k) (key : DedupKey)
    (entry : DedupeEntry) (k : DedupKey) (e : DedupeEntry)
    (he : (entries.insert key entry).lookup k = some e) :
    e.waiters = Function.update given key entry.waiters k := by
  by_cases hk : k = key
  · subst hk
    rw [AList.lookup_insert] at he
    rw [Function.update_self, Option.some.inj he]
  · rw [AList.lookup_insert_ne hk] at he
    rw [Function.update_of_ne hk, h k e he]

theorem made_update {given : DedupKey → List Nat} {n : Nat}
    (h : ∀ key, ∀ rx ∈ given key, rx < n) {key : DedupKey} {receivers : List Nat}
    (hr : ∀ rx ∈ receivers, rx < n) (k : DedupKey) (rx : Nat)
    (hrx : rx ∈ Function.update given key receivers k) : rx < n := by
  by_cases hk : k = key
  · subst hk
    rw [Function.update_self] at hrx
    exact hr rx hrx
  · rw [Function.update_of_ne hk] at hrx
    exact h k rx hrx

variable [F32Debug]

theorem Handed.submit (h : s.Handed) (job : Job) (now : Nat) : (s.submit job now).Handed := by
  unfold Desk.submit JobDeduplicator.submit
  have hold : ∀ k e, (s.dedup.evictExpired now).entries.lookup k = some e →
      e.waiters = s.handedOut k :=
    fun k e he => h.waiters k e (JobDeduplicator.lookup_evictExpired he)
  generalize s.dedup.evictExpired now = d at hold
  cases he : d.entries.lookup (DedupKey.forJob job) with
  | some entry =>
    have hlength : (s.channels ++ [none]).length = s.channels.length + 1 := List.length_append
    have hmade : ∀ key, ∀ rx ∈ s.handedOut key, rx < (s.channels ++ [none]).length := by
      intro key rx hrx
      rw [hlength]
      exact Nat.lt_succ_of_lt (h.made key rx hrx)
    simp only [he]
    rw [← hold _ entry he]
    refine ⟨waiters_insert hold _ _, made_update hmade fun rx hrx => ?_⟩
    rw [hold _ entry he] at hrx
    rcases List.mem_append.mp hrx with hrx | hrx
    · exact hmade _ rx hrx
    · rw [List.mem_singleton.mp hrx, hlength]
      exact Nat.lt_succ_self _
  | none =>
    simp only [he]
    exact ⟨waiters_insert hold _ _, made_update h.made fun _ hrx => nomatch hrx⟩

/-- Where the maps are paired, completing a job in flight serves it. -/
theorem Handed.served (h : s.Handed) (hp : s.dedup.Paired) {result : JobResult}
    (hf : s.InFlight job) : s.Served job result := by
  have hindex := (hp _ _).mp hf
  obtain ⟨entry, he, -⟩ := Option.map_eq_some_iff.mp hf
  have hwaiters := h.waiters _ entry he
  refine ⟨fun rx hrx => ?_, fun key => ?_⟩
  · simp only [Desk.complete, JobDeduplicator.complete, hindex, he]
    exact JobDeduplicator.getElem?_send (h.made _ rx hrx) (Or.inl (hwaiters ▸ hrx))
  · simp only [Desk.complete, JobDeduplicator.complete, hindex, he]
    by_cases hk : key = DedupKey.forJob job
    · rw [if_pos hk, hk, AList.lookup_erase]
    · rw [if_neg hk, AList.lookup_erase_ne hk]

end Desk

section Runs

variable [F32Debug] {ttl : Nat} {calls : List Call}

theorem after_concat (calls : List Call) (call : Call) :
    Desk.after ttl (calls ++ [call]) = (Desk.after ttl calls).apply call := by
  simp [Desk.after]

theorem after_handed (calls : List Call) : (Desk.after ttl calls).Handed := by
  induction calls using List.reverseRecOn with
  | nil => exact ⟨fun _ _ h => (nomatch h), fun _ _ h => (nomatch h)⟩
  | append_singleton calls call ih =>
    rw [after_concat]
    cases call with
    | submit job now => exact ih.submit job now
    | complete jobId result => exact ih.complete jobId result

theorem paired_start : (Desk.after ttl []).dedup.Paired := by
  intro key id
  exact ⟨fun h => (nomatch h), fun h => (nomatch h)⟩

/-- What is paired all along a run, and what a run needs to stay paired. -/
theorem paired_iff (ttl : Nat) (calls : List Call) :
    (∀ done rest, calls = done ++ rest → (Desk.after ttl done).dedup.Paired) ↔
      ∀ done job now rest, calls = done ++ .submit job now :: rest →
        (Desk.after ttl done).FreshId job now := by
  constructor
  · rintro h done job now rest rfl
    have hbefore := h done (.submit job now :: rest) rfl
    have hafter := h (done ++ [.submit job now]) rest (by simp)
    rw [after_concat] at hafter
    exact (JobDeduplicator.paired_submit_iff hbefore _ job now).mp hafter
  · rintro h done
    induction done using List.reverseRecOn with
    | nil => exact fun _ _ => paired_start
    | append_singleton done call ih =>
      intro rest hsplit
      rw [List.append_assoc, List.singleton_append] at hsplit
      have hbefore := ih (call :: rest) hsplit
      rw [after_concat]
      cases call with
      | submit job now =>
        exact (JobDeduplicator.paired_submit_iff hbefore _ job now).mpr (h done job now rest hsplit)
      | complete jobId result => exact hbefore.complete _ jobId result

/-- The maps stay paired, and every completion of a job in flight serves that job, exactly if
each new job has an id of its own among the jobs in flight. -/
theorem waiters_served_iff (ttl : Nat) (calls : List Call) :
    ((∀ done rest, calls = done ++ rest → (Desk.after ttl done).dedup.Paired) ∧
      ∀ done jobId result rest, calls = done ++ .complete jobId result :: rest →
        ∀ job : Job, job.id = jobId → (Desk.after ttl done).InFlight job →
          (Desk.after ttl done).Served job result) ↔
      ∀ done job now rest, calls = done ++ .submit job now :: rest →
        (Desk.after ttl done).FreshId job now := by
  rw [← paired_iff]
  refine ⟨And.left, fun h => ⟨h, ?_⟩⟩
  rintro done _ result rest hsplit job rfl hflight
  exact (after_handed done).served (h done _ hsplit) hflight

end Runs

instance zeroDebug : F32Debug := ⟨fun _ => "0.0"⟩

/-- Two jobs of one id and different inputs, and a duplicate of the first. -/
def twoOfOneId : List Call :=
  [.submit { id := 7, inputs := [1] } 0, .submit { id := 7, inputs := [1] } 0,
    .submit { id := 7, inputs := [2] } 0]

theorem first_of_two_not_served : ∃ job : Job, (Desk.after 30000 twoOfOneId).InFlight job ∧
    ¬ (Desk.after 30000 twoOfOneId).Served job (.ok []) := by
  have hrun : (owner (Desk.after 30000 twoOfOneId).dedup.entries
        (DedupKey.forJob { id := 7, inputs := [1] }) = some 7 ∧
      0 ∈ (Desk.after 30000 twoOfOneId).handedOut (DedupKey.forJob { id := 7, inputs := [1] })) ∧
      (((Desk.after 30000 twoOfOneId).complete 7 (.ok [])).channels[0]?).map Option.isSome =
        some false := by decide +kernel
  obtain ⟨⟨hflight, hwaits⟩, hnothing⟩ := hrun
  refine ⟨{ id := 7, inputs := [1] }, hflight, fun h => ?_⟩
  rw [h.delivered 0 hwaits] at hnothing
  nomatch hnothing

end HelixRouter.Dedup
