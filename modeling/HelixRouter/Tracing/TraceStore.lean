import HelixRouter.Floats.F64
import HelixRouter.Interleaving.History
import HelixRouter.Runs.Stepwise

namespace HelixRouter.Tracing

open Floats Interleaving Runs

/-- A span in flight. -/
structure TraceSpan where
  traceId : UInt64
  spanId : UInt64
  parentSpanId : Option UInt64 := none
  operation : String
  startedAt : Instant
  tags : List (String × String) := []
  deriving DecidableEq

structure CompletedSpan where
  traceId : UInt64
  spanId : UInt64
  parentSpanId : Option UInt64
  operation : String
  startedAtMs : UInt64
  durationMs : F64
  tags : List (String × String)
  deriving DecidableEq

/-- Whole seconds, and the part of one that is over. -/
def asSecsF64 (nanos : Nat) : F64 :=
  (F64.ofRat (nanos / nanosPerSec : Nat)).add
    ((F64.ofRat (nanos % nanosPerSec : Nat)).div (F64.ofRat nanosPerSec))

/-- What a guard makes of its span where it is dropped. -/
def TraceSpan.completed (span : TraceSpan) (now : Instant) : CompletedSpan where
  traceId := span.traceId
  spanId := span.spanId
  parentSpanId := span.parentSpanId
  operation := span.operation
  startedAtMs := 0
  durationMs := (asSecsF64 (now - span.startedAt)).mul (.finite 1000)
  tags := span.tags

structure TraceStore where
  buffer : List CompletedSpan := []
  capacity : Nat
  deriving DecidableEq

namespace TraceStore

def new (capacity : Nat) : TraceStore := { capacity := capacity }

/-- The oldest span goes where the store is full. -/
def insert (store : TraceStore) (span : CompletedSpan) : TraceStore :=
  let kept := if store.capacity ≤ store.buffer.length then store.buffer.tail else store.buffer
  { store with buffer := kept ++ [span] }

def queryByTrace (store : TraceStore) (traceId : UInt64) : List CompletedSpan :=
  store.buffer.filter (·.traceId = traceId)

def len (store : TraceStore) : Nat := store.buffer.length

end TraceStore

/-- The store behind its lock. -/
structure Shared where
  store : TraceStore
  locked : Bool := false
  deriving DecidableEq

inductive Op where
  | complete (span : TraceSpan)
  | tryLock
  | lock
  | unlock
  | insert (span : CompletedSpan)
  | queryByTrace (traceId : UInt64)
  | len
  | spawnFallback
  deriving DecidableEq

abbrev Op.Resp : Op → Type
  | .complete _ => CompletedSpan
  | .tryLock => Bool
  | .queryByTrace _ => List CompletedSpan
  | .len => Nat
  | _ => Unit

/-- A guard is dropped, a task queries the store under its lock, or the thread that a drop leaves
behind runs. -/
inductive Call where
  | drop (span : TraceSpan)
  | inspect (traceIds : List UInt64)
  | fallback
  deriving DecidableEq

/-- Taking the lock waits until it is free. -/
def Op.exec : (e : Op) → Instant → Shared → Option (e.Resp × Shared × List Call)
  | .complete span, now, s => some (span.completed now, s, [])
  | .tryLock, _, s =>
    if s.locked then some (false, s, []) else some (true, { s with locked := true }, [])
  | .lock, _, s => if s.locked then none else some ((), { s with locked := true }, [])
  | .unlock, _, s => some ((), { s with locked := false }, [])
  | .insert span, _, s => some ((), { s with store := s.store.insert span }, [])
  | .queryByTrace traceId, _, s => some (s.store.queryByTrace traceId, s, [])
  | .len, _, s => some (s.store.len, s, [])
  | .spawnFallback, _, s => some ((), s, [.fallback])

abbrev TraceProg := Prog Op Op.Resp

open Prog

def SpanGuard.drop (span : TraceSpan) : TraceProg Unit := do
  let completed ← perform (.complete span)
  if ← perform .tryLock then
    perform (Op.insert completed)
    perform Op.unlock
  else
    perform Op.spawnFallback

/-- The thread reads the length under the lock and is done. -/
def fallback : TraceProg Unit := do
  perform Op.lock
  let _ ← perform .len
  perform Op.unlock

def queries : List UInt64 → TraceProg Unit
  | [] => pure ()
  | traceId :: traceIds => do
    let _ ← perform (.queryByTrace traceId)
    queries traceIds

def inspect (traceIds : List UInt64) : TraceProg Unit := do
  perform Op.lock
  queries traceIds
  perform Op.unlock

def Call.body : Call → TraceProg Unit
  | .drop span => SpanGuard.drop span
  | .inspect traceIds => Tracing.inspect traceIds
  | .fallback => Tracing.fallback

/-- The fallback thread is only started by a drop. -/
def Call.external : Call → Bool
  | .fallback => false
  | _ => true

def machine : Machine Op Op.Resp Shared Instant Call Unit where
  exec := Op.exec
  body := Call.body
  external := Call.external

abbrev TraceTask := Task Op Op.Resp Call Unit

abbrev TracePool := Pool Op Op.Resp Shared Call Unit

abbrev TraceAction := Action Instant Call

def start (capacity : Nat) : TracePool := ⟨{ store := .new capacity }, []⟩

/-- The spans that guards have completed. -/
def completions : (e : Op) → e.Resp → List CompletedSpan
  | .complete _, completed => [completed]
  | _, _ => []

def insertions : (e : Op) → e.Resp → List CompletedSpan
  | .insert span, _ => [span]
  | _, _ => []

def refusals : (e : Op) → e.Resp → List Unit
  | .tryLock, false => [()]
  | _, _ => []

open Interleaving Runs Prog

/-- Every task has ended. -/
def Quiescent (p : TracePool) : Prop := ∀ t ∈ p.tasks, t.result?.isSome = true

instance (p : TracePool) : Decidable (Quiescent p) := inferInstanceAs (Decidable (∀ t ∈ _, _))

def Call.dropped : Call → List TraceSpan
  | .drop span => [span]
  | _ => []

/-- The spans of the guards that were dropped. -/
def dropped (p : TracePool) : List TraceSpan := p.tasks.flatMap fun t => t.call.dropped

/-- Nothing is lost, nothing is there twice, and the store is never above its capacity. -/
structure SpansKept (capacity : Nat) (as : List TraceAction) (p : TracePool) : Prop where
  once : (p.log insertions).Perm (p.log completions)
  listed : (dropped p).length < capacity → ∀ traceId,
    (p.state.store.queryByTrace traceId).Perm ((p.log completions).filter (·.traceId = traceId))
  bounded : machine.Always (fun q => q.state.store.len ≤ capacity) as (start capacity)

/-- A guard finds the lock free, and is not dropped at all where the store has no room. -/
def Clear (capacity : Nat) (a : TraceAction) (p : TracePool) : Prop :=
  (∀ i now t, a = .step i now → p.tasks[i]? = some t → t.prog.head? = some .tryLock →
    p.state.locked = false) ∧
  (capacity = 0 → ∀ span, a ≠ .start (.drop span))

section Store

variable {store : TraceStore} {capacity : Nat} {spans spans' : List CompletedSpan}
  {span : CompletedSpan}

/-- What a store holds that these spans were inserted into. -/
structure Holds (capacity : Nat) (store : TraceStore) (spans : List CompletedSpan) : Prop where
  capacity_eq : store.capacity = capacity
  bound : store.len ≤ max 1 capacity
  room : spans.length ≤ capacity → store.buffer.Perm spans
  nonempty : spans ≠ [] → store.buffer ≠ []

theorem holds_new (capacity : Nat) : Holds capacity (.new capacity) [] where
  capacity_eq := rfl
  bound := Nat.zero_le _
  room _ := List.Perm.refl _
  nonempty h := absurd rfl h

theorem Holds.perm (h : Holds capacity store spans) (hp : spans.Perm spans') :
    Holds capacity store spans' where
  capacity_eq := h.capacity_eq
  bound := h.bound
  room hroom := (h.room (hp.length_eq ▸ hroom)).trans hp
  nonempty hne := h.nonempty fun hnil => hne (List.perm_nil.mp (hnil ▸ hp.symm))

theorem Holds.insert (h : Holds capacity store spans) :
    Holds capacity (store.insert span) (spans ++ [span]) where
  capacity_eq := h.capacity_eq
  bound := by
    have hbound := h.bound
    have hcap := h.capacity_eq
    unfold TraceStore.len TraceStore.insert at *
    by_cases hfull : store.capacity ≤ store.buffer.length <;> simp [hfull] <;> omega
  room hroom := by
    rw [List.length_append, List.length_singleton] at hroom
    have hperm := h.room (Nat.le_of_succ_le hroom)
    have hfree : ¬ store.capacity ≤ store.buffer.length := by
      rw [h.capacity_eq, hperm.length_eq]
      omega
    unfold TraceStore.insert
    rw [if_neg hfree]
    exact hperm.append_right [span]
  nonempty _ := by simp [TraceStore.insert]

end Store

section Exec

variable {e : Op} {r : e.Resp} {now : Instant} {s s' : Shared} {new : List Call} {capacity : Nat}
  {spans : List CompletedSpan}

/-- What an operation does: only an insertion changes the store, and only an attempt that finds
the lock held is refused it. -/
theorem exec_spec (hx : e.exec now s = some (r, s', new)) :
    s'.store = (insertions e r).foldl TraceStore.insert s.store ∧
      new.flatMap Call.dropped = [] ∧
      (refusals e r = [] ↔ (e = .tryLock → s.locked = false)) := by
  cases e with
  | tryLock =>
    change (if s.locked then some (false, s, []) else some (true, _, [])) = _ at hx
    cases hl : s.locked <;> rw [hl] at hx <;> cases hx <;> exact ⟨rfl, rfl, by simp [refusals]⟩
  | lock =>
    change (if s.locked then none else some ((), _, [])) = _ at hx
    cases hl : s.locked <;> rw [hl] at hx <;> cases hx
    exact ⟨rfl, rfl, by simp [refusals]⟩
  | complete span => cases hx; exact ⟨rfl, rfl, by simp [refusals]⟩
  | unlock => cases hx; exact ⟨rfl, rfl, by simp [refusals]⟩
  | insert span => cases hx; exact ⟨rfl, rfl, by simp [refusals]⟩
  | queryByTrace traceId => cases hx; exact ⟨rfl, rfl, by simp [refusals]⟩
  | len => cases hx; exact ⟨rfl, rfl, by simp [refusals]⟩
  | spawnFallback => cases hx; exact ⟨rfl, rfl, by simp [refusals]⟩

theorem Holds.inserted {store : TraceStore} (h : Holds capacity store spans)
    (more : List CompletedSpan) : Holds capacity (more.foldl TraceStore.insert store)
      (spans ++ more) := by
  induction more generalizing store spans with
  | nil => rwa [List.append_nil]
  | cons span more ih =>
    rw [List.append_cons]
    exact ih h.insert

end Exec

section Tasks

variable {t : TraceTask}

/-- Neither completes nor inserts a span, nor asks for the lock without waiting. -/
def Op.Aside : Op → Prop
  | .complete _ => False
  | .insert _ => False
  | .tryLock => False
  | _ => True

theorem queries_aside (traceIds : List UInt64) : (queries traceIds).All Op.Aside := by
  induction traceIds with
  | nil => trivial
  | cons traceId traceIds ih => exact ⟨trivial, fun _ => ih⟩

theorem inspect_aside (traceIds : List UInt64) : (inspect traceIds).All Op.Aside :=
  ⟨trivial, fun _ => (queries_aside traceIds).bind fun _ => ⟨trivial, fun _ => trivial⟩⟩

theorem fallback_aside : fallback.All Op.Aside :=
  ⟨trivial, fun _ => ⟨trivial, fun _ => ⟨trivial, fun _ => trivial⟩⟩⟩

/-- Which span a guard has completed as what. -/
def owners : (e : Op) → e.Resp → List (TraceSpan × CompletedSpan)
  | .complete span, completed => [(span, completed)]
  | _, _ => []

/-- What an ended task has done: a guard has completed its span, and has inserted it unless it
was refused the lock. -/
inductive Done (t : TraceTask) : Prop where
  | kept (span : TraceSpan) (completed : CompletedSpan) (hcall : t.call.dropped = [span])
    (hown : (span, completed) ∈ t.log owners)
    (hcompleted : t.log completions = [completed]) (hinserted : t.log insertions = [completed])
    (hrefused : t.log refusals = [])
  | refused (span : TraceSpan) (completed : CompletedSpan) (hcall : t.call.dropped = [span])
    (hown : (span, completed) ∈ t.log owners)
    (hcompleted : t.log completions = [completed]) (hinserted : t.log insertions = [])
    (hrefused : t.log refusals = [()])
  | other (hcall : t.call.dropped = []) (hcompleted : t.log completions = [])
    (hinserted : t.log insertions = []) (hrefused : t.log refusals = [])

theorem log_nil_of_aside {X : Type} {f : (e : Op) → e.Resp → List X}
    (hf : ∀ (e : Op) r, e.Aside → f e r = []) (h : ∀ ev ∈ t.trace, ev.1.Aside) : t.log f = [] :=
  List.flatMap_eq_nil_iff.mpr fun ev hev => hf ev.1 ev.2 (h ev hev)

theorem done_of_aside (hcall : t.call.dropped = []) (h : ∀ ev ∈ t.trace, ev.1.Aside) : Done t := by
  refine .other hcall (log_nil_of_aside ?_ h) (log_nil_of_aside ?_ h) (log_nil_of_aside ?_ h)
  · intro e r he
    cases e <;> first | rfl | exact he.elim
  · intro e r he
    cases e <;> first | rfl | exact he.elim
  · intro e r he
    cases e <;> first | rfl | exact he.elim

theorem done_of_yields (h : t.call.body.Yields t.trace ()) : Done t := by
  cases hc : t.call with
  | inspect traceIds =>
    rw [hc] at h
    exact done_of_aside (by rw [hc]; rfl) (h.all (inspect_aside traceIds))
  | fallback =>
    rw [hc] at h
    exact done_of_aside (by rw [hc]; rfl) (h.all fallback_aside)
  | drop span =>
    rw [hc] at h
    generalize htrace : t.trace = trace at h
    cases h with
    | @op _ _ completed _ _ h =>
      cases h with
      | @op _ _ free _ _ h =>
        cases free with
        | true =>
          cases h with
          | op h =>
            cases h with
            | op h =>
              cases h
              exact .kept span completed (by rw [hc]; rfl) (by simp [Task.log, htrace, owners])
                (by simp [Task.log, htrace, completions])
                (by simp [Task.log, htrace, insertions]) (by simp [Task.log, htrace, refusals])
        | false =>
          cases h with
          | op h =>
            cases h
            exact .refused span completed (by rw [hc]; rfl) (by simp [Task.log, htrace, owners])
              (by simp [Task.log, htrace, completions])
              (by simp [Task.log, htrace, insertions]) (by simp [Task.log, htrace, refusals])

end Tasks

section Runs

variable {capacity : Nat} {as : List TraceAction} {p : TracePool}

theorem holds_run (hr : machine.run as (start capacity) = some p) :
    Holds capacity p.state.store (p.log insertions) := by
  refine Machine.run_induction (P := fun q => Holds capacity q.state.store (q.log insertions)) hr
    (holds_new capacity) ?_
  intro a q q' hq hs
  cases hs with
  | start c s tasks hc => rwa [Machine.log_start]
  | step input pre post t e next r s s' new hp hx =>
    obtain ⟨hstore, -, -⟩ := exec_spec hx
    refine Holds.perm ?_ (Machine.log_operation insertions pre post t e r (next r) new s s').symm
    change Holds capacity s'.store _
    rw [hstore]
    exact hq.inserted _

theorem done_run (hr : machine.run as (start capacity) = some p) (hq : Quiescent p) :
    ∀ t ∈ p.tasks, Done t := by
  intro t ht
  have hyields := Machine.run_yields hr (fun t ht => (nomatch ht)) t ht [] ()
  rw [List.append_nil] at hyields
  apply done_of_yields
  apply hyields
  obtain ⟨a, ha⟩ := Option.isSome_iff_exists.mp (hq t ht)
  unfold Task.result? at ha
  split at ha
  · rename_i hprog
    rw [hprog]
    exact .ret ()
  · cases ha

/-- No attempt at the lock was refused, and no guard was dropped where there is no room. -/
def Unrefused (capacity : Nat) (p : TracePool) : Prop :=
  p.log refusals = [] ∧ (capacity = 0 → dropped p = [])

theorem unrefused_iff_clear (hr : machine.run as (start capacity) = some p) :
    Unrefused capacity p ↔ machine.Guarded (Clear capacity) as (start capacity) := by
  have hiff := Machine.run_iff_guarded (J := fun _ => True) (P := Unrefused capacity)
    (G := Clear capacity) hr trivial ?_
  · rw [hiff]
    exact and_iff_right ⟨rfl, fun _ => rfl⟩
  · intro a q q' _ hs
    refine ⟨trivial, ?_⟩
    cases hs with
    | start c s tasks hc =>
      have hlog : dropped (⟨s, tasks ++ [machine.spawn c]⟩ : TracePool) =
          dropped (⟨s, tasks⟩ : TracePool) ++ c.dropped := by simp [dropped]
      have hguard : (∀ span, Action.start (I := Instant) c ≠ .start (.drop span)) ↔
          c.dropped = [] := by
        cases c <;> simp [Call.dropped]
      unfold Unrefused Clear
      rw [Machine.log_start, hlog, hguard]
      simp only [List.append_eq_nil_iff]
      constructor
      · rintro ⟨hrefused, hdropped⟩
        exact ⟨⟨hrefused, fun h => (hdropped h).1⟩, fun _ _ _ h => (nomatch h),
          fun h => (hdropped h).2⟩
      · rintro ⟨⟨hrefused, hdropped⟩, -, hnew⟩
        exact ⟨hrefused, fun h => ⟨hdropped h, hnew h⟩⟩
    | step input pre post t e next r s s' new hp hx =>
      obtain ⟨-, hnew, hrefusal⟩ := exec_spec hx
      have hlog := Machine.log_operation (m := machine) refusals pre post t e r (next r) new s s'
      have hrefused : Pool.log refusals (⟨s', pre ++ t.advance e r (next r) :: post ++
          new.map machine.spawn⟩ : TracePool) = [] ↔
          Pool.log refusals (⟨s, pre ++ t :: post⟩ : TracePool) = [] ∧ refusals e r = [] := by
        rw [← List.append_eq_nil_iff]
        exact ⟨fun h => List.perm_nil.mp (h ▸ hlog.symm), fun h => List.perm_nil.mp (h ▸ hlog)⟩
      have hdropped : dropped (⟨s', pre ++ t.advance e r (next r) :: post ++
          new.map machine.spawn⟩ : TracePool) = dropped (⟨s, pre ++ t :: post⟩ : TracePool) := by
        have hspawned : ((new.map machine.spawn).flatMap fun t => t.call.dropped) = [] := by
          rw [List.flatMap_map]
          exact hnew
        simp [dropped, hspawned]
      have hclear : Clear capacity (.step pre.length input) (⟨s, pre ++ t :: post⟩ : TracePool) ↔
          (e = .tryLock → s.locked = false) := by
        constructor
        · rintro ⟨hfree, -⟩ rfl
          exact hfree pre.length input t rfl (by simp) (by simp [hp])
        · intro hfree
          refine ⟨?_, fun _ _ h => (nomatch h)⟩
          intro i now u ha hu hhead
          cases ha
          have htask : u = t := by simpa using hu.symm
          subst htask
          rw [hp] at hhead
          exact hfree (Option.some.inj hhead)
      unfold Unrefused
      rw [hrefused, hdropped, hrefusal, hclear, and_right_comm]

theorem owners_run (hr : machine.run as (start capacity) = some p) :
    ∀ x ∈ p.log owners, ∃ now, x.2 = x.1.completed now := by
  refine Machine.run_logged (f := owners)
    (Q := fun (x : TraceSpan × CompletedSpan) _ => ∃ now, x.2 = x.1.completed now) ?_ hr
    (fun t ht => (nomatch ht))
  intro e now s r s' new hx
  refine ⟨?_, fun x hx => hx⟩
  intro x hmem
  cases e with
  | complete span =>
    cases hx
    rw [List.mem_singleton.mp hmem]
    exact ⟨now, rfl⟩
  | _ => nomatch hmem

/-- Every guard that was dropped has completed its span, once. -/
theorem completions_run (hr : machine.run as (start capacity) = some p) (hq : Quiescent p) :
    List.Forall₂ (fun span completed => ∃ now, completed = span.completed now) (dropped p)
      (p.log completions) := by
  have hdone := done_run hr hq
  have hown : ∀ t ∈ p.tasks, ∀ x ∈ t.log owners, ∃ now, x.2 = x.1.completed now :=
    fun t ht x hx => owners_run hr x (Pool.mem_log.mpr ⟨t, ht, hx⟩)
  unfold Pool.log dropped
  generalize p.tasks = tasks at hdone hown
  induction tasks with
  | nil => exact .nil
  | cons t tasks ih =>
    have ih := ih (fun u hu => hdone u (List.mem_cons_of_mem t hu))
      (fun u hu => hown u (List.mem_cons_of_mem t hu))
    rw [List.flatMap_cons, List.flatMap_cons]
    cases hdone t List.mem_cons_self with
    | kept span completed hcall hmem hc _ _ =>
      rw [hcall, hc]
      exact .cons (hown t List.mem_cons_self _ hmem) ih
    | refused span completed hcall hmem hc _ _ =>
      rw [hcall, hc]
      exact .cons (hown t List.mem_cons_self _ hmem) ih
    | other hcall hc _ _ => rwa [hcall, hc]

theorem completions_length (h : ∀ t ∈ p.tasks, Done t) :
    (p.log completions).length = (p.log insertions).length + (p.log refusals).length := by
  unfold Pool.log
  generalize p.tasks = tasks at h
  induction tasks with
  | nil => rfl
  | cons t tasks ih =>
    have ih := ih fun u hu => h u (List.mem_cons_of_mem t hu)
    simp only [List.flatMap_cons, List.length_append]
    cases h t List.mem_cons_self with
    | kept span completed _ _ hc hi hr =>
      simp only [hc, hi, hr, List.length_singleton, List.length_nil]
      omega
    | refused span completed _ _ hc hi hr =>
      simp only [hc, hi, hr, List.length_singleton, List.length_nil]
      omega
    | other _ hc hi hr =>
      simp only [hc, hi, hr, List.length_nil]
      omega

theorem insertions_eq (h : ∀ t ∈ p.tasks, Done t) (hr : p.log refusals = []) :
    p.log insertions = p.log completions := by
  unfold Pool.log at hr ⊢
  apply List.flatMap_congr
  intro t ht
  cases h t ht with
  | kept span completed _ _ hc hi _ => rw [hc, hi]
  | refused span completed _ _ _ _ hrefused =>
    have hnil := List.flatMap_eq_nil_iff.mp hr t ht
    rw [hrefused] at hnil
    cases hnil
  | other _ hc hi _ => rw [hc, hi]

theorem insertions_perm_iff (h : ∀ t ∈ p.tasks, Done t) :
    (p.log insertions).Perm (p.log completions) ↔ p.log refusals = [] := by
  refine ⟨fun hperm => ?_, fun hr => insertions_eq h hr ▸ List.Perm.refl _⟩
  have hlen := completions_length h
  rw [hperm.length_eq] at hlen
  exact List.length_eq_zero_iff.mp (by omega)

theorem body_aside {c : Call} (h : c.dropped = []) : c.body.All Op.Aside := by
  cases c with
  | drop span => cases h
  | inspect traceIds => exact inspect_aside traceIds
  | fallback => exact fallback_aside

/-- A store with no room stays empty where no guard is dropped. -/
theorem vacant_always (h : machine.Guarded (Clear 0) as (start 0)) :
    machine.Always (fun q => q.state.store.len = 0) as (start 0) := by
  refine Machine.Always.imp (P := fun q => q.state.store.len = 0 ∧
    ∀ t ∈ q.tasks, t.prog.All Op.Aside) (h.always ⟨rfl, fun t ht => (nomatch ht)⟩ ?_)
    fun q hq => hq.1
  rintro a q q' ⟨hlen, haside⟩ hclear hs
  cases hs with
  | start c s tasks hc =>
    refine ⟨hlen, fun t ht => ?_⟩
    rcases List.mem_append.mp ht with ht | ht
    · exact haside t ht
    · rw [List.mem_singleton.mp ht]
      apply body_aside
      cases c with
      | drop span => exact absurd rfl (hclear.2 rfl span)
      | _ => rfl
  | step input pre post t e next r s s' new hp hx =>
    obtain ⟨hstore, hnew, -⟩ := exec_spec hx
    have hop : e.Aside ∧ ∀ r, (next r).All Op.Aside := by
      have ht := haside t (by simp)
      rwa [hp] at ht
    have hnone : insertions e r = [] := by
      cases e <;> first | rfl | exact hop.1.elim
    rw [hnone] at hstore
    refine ⟨?_, fun u hu => ?_⟩
    · change s'.store.len = 0
      rw [hstore]
      exact hlen
    · simp only [List.mem_append, List.mem_cons, List.mem_map] at hu
      rcases hu with (hu | rfl | hu) | ⟨c, hc, rfl⟩
      · exact haside u (by simp [hu])
      · exact hop.2 r
      · exact haside u (by simp [hu])
      · exact body_aside (List.flatMap_eq_nil_iff.mp hnew c hc)

theorem bounded_always (hguard : machine.Guarded (Clear capacity) as (start capacity)) :
    machine.Always (fun q => q.state.store.len ≤ capacity) as (start capacity) := by
  rcases Nat.eq_zero_or_pos capacity with rfl | hpos
  · exact (vacant_always hguard).imp fun q hq => hq.le
  · refine Machine.always_of_run fun bs q hr => ?_
    have hbound := (holds_run hr).bound
    rwa [Nat.max_eq_right hpos] at hbound

/-- In every run that comes to rest, each dropped guard completes its span, and all of them are
kept exactly where every guard that is dropped finds the lock free and the store has room for one
at all. -/
theorem spansKept_iff (hr : machine.run as (start capacity) = some p) (hq : Quiescent p) :
    List.Forall₂ (fun span completed => ∃ now, completed = span.completed now) (dropped p)
      (p.log completions) ∧
    (SpansKept capacity as p ↔ machine.Guarded (Clear capacity) as (start capacity)) := by
  have hdone := done_run hr hq
  have hlen := (completions_run hr hq).length_eq
  have hholds := holds_run hr
  refine ⟨completions_run hr hq, ?_⟩
  have hclear := unrefused_iff_clear hr
  rw [← hclear, Unrefused, ← insertions_perm_iff hdone]
  constructor
  · intro h
    refine ⟨h.once, fun hzero => ?_⟩
    have hempty : p.state.store.buffer = [] := by
      have hbound := h.bounded.last hr
      rw [hzero] at hbound
      exact List.length_eq_zero_iff.mp (Nat.le_zero.mp hbound)
    have hnone : p.log insertions = [] := by
      by_contra hne
      exact hholds.nonempty hne hempty
    have hperm := h.once
    rw [hnone] at hperm
    rw [List.nil_perm.mp hperm] at hlen
    exact List.length_eq_zero_iff.mp hlen
  · rintro ⟨hperm, hroom⟩
    have hguard := hclear.mp ⟨(insertions_perm_iff hdone).mp hperm, hroom⟩
    refine ⟨hperm, fun hfew traceId => ?_, bounded_always hguard⟩
    have hbuffer := (hholds.room (by rw [hperm.length_eq, ← hlen]; exact hfew.le)).trans hperm
    exact hbuffer.filter _

end Runs

/-- The condition, where it can be run. -/
def clears (capacity : Nat) : TraceAction → TracePool → Bool
  | .start c, _ => capacity ≠ 0 || c.dropped = []
  | .step i _, p => (p.tasks[i]?).all fun t => t.prog.head? ≠ some .tryLock || !p.state.locked

theorem clear_of_clears {capacity : Nat} (a : TraceAction) (p : TracePool)
    (h : clears capacity a p = true) : Clear capacity a p := by
  cases a with
  | start c =>
    refine ⟨fun _ _ _ h => (nomatch h), ?_⟩
    rintro hzero span hspan
    cases hspan
    simp [clears, hzero, Call.dropped] at h
  | step i now =>
    refine ⟨?_, fun _ _ h => (nomatch h)⟩
    intro j now' t ha ht hhead
    cases ha
    simpa [clears, ht, hhead] using h

def requestSpan : TraceSpan :=
  { traceId := 7, spanId := 8, operation := "request", startedAt := 1000 }

/-- A guard is dropped, and then a task reads its trace. -/
def inTurn : List TraceAction :=
  .start (.drop requestSpan) :: .start (.inspect [7]) ::
    List.replicate 4 (.step 0 6000) ++ List.replicate 3 (.step 1 7000)

theorem spansKept_inTurn :
    ∃ p, machine.run inTurn (start 2) = some p ∧ SpansKept 2 inTurn p := by
  have hends : ((machine.run inTurn (start 2)).any fun p => decide (Quiescent p)) = true := by
    decide +kernel
  obtain ⟨p, hr, hq⟩ := (Option.any_eq_true _ _).mp hends
  exact ⟨p, hr, (spansKept_iff hr (of_decide_eq_true hq)).2.mpr
    (Machine.guarded_of_check clear_of_clears (by decide +kernel))⟩

/-- A guard is dropped while another task holds the lock; the thread it leaves behind runs after
that. -/
def contended : List TraceAction :=
  .start (.inspect [7]) :: .step 0 2000 :: .start (.drop requestSpan) ::
    List.replicate 3 (.step 1 6000) ++ List.replicate 2 (.step 0 7000) ++
      List.replicate 3 (.step 2 8000)

theorem contended_lost : ¬ ∀ capacity as p, machine.run as (start capacity) = some p →
    Quiescent p → SpansKept capacity as p := by
  intro h
  have hends : ((machine.run contended (start 2)).any fun p => decide (Quiescent p) &&
      decide (p.log insertions = []) && decide (p.log completions ≠ [])) = true := by
    decide +kernel
  obtain ⟨p, hr, hp⟩ := (Option.any_eq_true _ _).mp hends
  simp only [Bool.and_eq_true, decide_eq_true_iff] at hp
  have honce := (h 2 contended p hr hp.1.1).once
  rw [hp.1.2] at honce
  exact hp.2 (List.nil_perm.mp honce)

end HelixRouter.Tracing
