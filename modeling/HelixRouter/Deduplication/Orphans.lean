import HelixRouter.Deduplication.SingleExecution
import HelixRouter.Interleaving.Moments

namespace HelixRouter.Deduplication

open Interleaving Runs

/-- Where a caller awaits, and so where its future can be dropped. A computation that panics
takes its caller with it. -/
def Op.suspends : Op → Bool
  | .countTotal | .addWaiter _ | .awaitCompleted _ | .compute | .store _ _ => true
  | _ => false

abbrev DedupeScene := Scene Op Op.Resp RequestDeduplicator Call Answer

abbrev DedupeEvent := Event Env Call

def live : DedupeScene → DedupeEvent → Option DedupeScene := machine.live Op.suspends

def startScene : DedupeScene := ⟨startPool, []⟩

/-- The caller that was to complete the entry is gone. -/
def Abandoned (x : DedupeScene) (id : EntryId) : Prop :=
  x.pool.state.pending id = true ∧
    ∃ i ∈ x.gone, ∃ t, x.pool.tasks[i]? = some t ∧ id ∈ t.log Op.began

def NoOrphanWaiters (x : DedupeScene) : Prop :=
  ∀ i ∉ x.gone, ∀ id, x.head? i = some (.awaitCompleted id) → ¬Abandoned x id

/-- A caller has found the entry and is still to return. -/
def Awaited (x : DedupeScene) (id : EntryId) : Prop :=
  ∃ j ∉ x.gone, ∃ t, x.pool.tasks[j]? = some t ∧ t.result? = none ∧
    ∃ hash, (hash, id) ∈ t.log Op.found

/-- Who goes away leaves no entry incomplete that a caller has found or comes to find. -/
def Harmless (x : DedupeScene) : DedupeEvent → Prop
  | .act _ => True
  | .vanish i => ∀ t id, x.pool.tasks[i]? = some t → id ∈ t.log Op.began →
    x.pool.state.pending id = true →
      ¬Awaited x id ∧ ∀ key, x.pool.state.inFlight.lookup (hashRequest key) ≠ some id

/-- How far a caller has come. -/
inductive Stage where
  | looking
  | registering (id : EntryId)
  | counting (id : EntryId)
  | polling (id : EntryId)
  | originating (id : EntryId)
  | done

namespace Stage

def next : Stage → (e : Op) → e.Resp → Stage
  | .looking, .lookup _, some id => .registering id
  | .looking, .insert _ _, id => .originating id
  | .registering id, .addWaiter _, _ => .counting id
  | .counting id, .countDeduped, _ => .polling id
  | .polling _, .awaitCompleted _, _ => .done
  | .originating _, .store _ _, _ => .done
  | stage, _, _ => stage

def Allows : Stage → Op → Prop
  | .looking, .lookup hash => ∃ key, hash = hashRequest key
  | .looking, e => e = .countTotal ∨ (∃ hash nowMs, e = .insert hash nowMs) ∨ e = .iterate ∨
    (∃ hash, e = .visit hash) ∨ ∃ hash, e = .remove hash
  | .registering id, e => e = .addWaiter id
  | .counting _, e => e = .countDeduped
  | .polling id, e => e = .awaitCompleted id
  | .originating id, e => e = .compute ∨ ∃ value, e = .store id value
  | .done, _ => False

/-- The caller waits for the entry, or is about to. -/
def Joins : Stage → EntryId → Prop
  | .registering i, id | .counting i, id | .polling i, id => i = id
  | _, _ => False

end Stage

def stages : Monitor Op Op.Resp Call Answer Stage where
  init _ := .looking
  next := Stage.next
  allow := Stage.Allows
  may _ _ _ := True
  fin _ _ stage := stage = .looking ∨ stage = .done

section Bodies

@[simp] theorem stages_next (v : Stage) (e : Op) (r : e.Resp) : stages.next v e r = v.next e r :=
  rfl

@[simp] theorem stages_allow (v : Stage) (e : Op) : stages.allow v e ↔ v.Allows e := Iff.rfl

@[simp] theorem stages_may (v : Stage) (e : Op) (r : e.Resp) : stages.may v e r := trivial

@[simp] theorem stages_fin (c : Call) (a : Answer) (v : Stage) :
    stages.fin c a v ↔ v = .looking ∨ v = .done := Iff.rfl

@[simp] theorem stages_init (c : Call) : stages.init c = .looking := rfl

attribute [local simp] Stage.next Stage.Allows

theorem collectCompleted_stages (hashes : List RequestHash)
    (post : List RequestHash → Stage → Prop) (h : ∀ toRemove, post toRemove .looking) :
    (collectCompleted hashes).wp stages post .looking := by
  induction hashes generalizing post with
  | nil => exact h []
  | cons hash hashes ih =>
    have hquiet : stages.Quiet .looking (.visit hash) := by simp [Monitor.Quiet]
    apply Prog.wp_quiet hquiet
    intro completed
    rw [Prog.wp_bind]
    apply ih
    intro toRemove
    exact h _

theorem removeAll_stages (hashes : List RequestHash) (post : Unit → Stage → Prop)
    (h : post () .looking) : (removeAll hashes).wp stages post .looking := by
  induction hashes with
  | nil => exact h
  | cons hash hashes ih =>
    have hquiet : stages.Quiet .looking (.remove hash) := by simp [Monitor.Quiet]
    apply Prog.wp_quiet hquiet
    intro _
    exact ih

theorem body_stages (c : Call) : c.body.wp stages (stages.fin c) (stages.init c) := by
  cases c with
  | getOrCompute key nowMs =>
    simp [Call.body, getOrCompute]
    intro found
    cases found with
    | none => simp
    | some id => simp
  | cleanupCompleted =>
    simp [Call.body, cleanupCompleted]
    intro hashes
    apply collectCompleted_stages
    intro toRemove
    apply removeAll_stages
    exact Or.inl rfl

end Bodies

abbrev stage (t : DedupeTask) : Stage := t.view stages

/-- What a caller has done says how far it has come. -/
structure Told (s : RequestDeduplicator) (t : DedupeTask) : Prop where
  began : ∀ id ∈ t.log Op.began,
    id < s.entries.length ∧ (stage t = .originating id ∨ stage t = .done)
  found : ∀ hash id, (hash, id) ∈ t.log Op.found → (stage t).Joins id ∨ stage t = .done
  joins : ∀ id, (stage t).Joins id → ∃ hash, (hash, id) ∈ t.log Op.found

section Steps

variable {s s' : RequestDeduplicator} {t : DedupeTask} {e : Op} {env : Env} {r : e.Resp}
  {new : List Call} {next : e.Resp → DedupeM Answer} {id : EntryId}

theorem exec_entries_length (hx : e.exec env s = some (r, s', new)) :
    s.entries.length ≤ s'.entries.length := by
  cases e with
  | insert hash nowMs =>
    cases hx
    simp
  | addWaiter i =>
    cases hx
    simp [RequestDeduplicator.modifyEntry]
  | store i value =>
    cases hx
    simp [RequestDeduplicator.modifyEntry]
  | awaitCompleted i =>
    obtain ⟨rfl, _⟩ := Op.exec_awaitCompleted hx
    exact le_rfl
  | _ =>
    cases hx
    exact le_rfl

theorem Told.mono (ht : Told s t) (hle : s.entries.length ≤ s'.entries.length) : Told s' t :=
  ⟨fun id hid => ⟨(ht.began id hid).1.trans_le hle, (ht.began id hid).2⟩,
    ht.found, ht.joins⟩

namespace Stage

variable {v : Stage}

theorem Allows.originating (ha : v.Allows e) (h : v = .originating id ∨ v = .done) :
    v.next e r = .originating id ∨ v.next e r = .done := by
  rcases h with rfl | rfl
  · rcases ha with rfl | ⟨value, rfl⟩
    · exact Or.inl rfl
    · exact Or.inr rfl
  · exact ha.elim

theorem Allows.joins (ha : v.Allows e) (h : v.Joins id ∨ v = .done) :
    (v.next e r).Joins id ∨ v.next e r = .done := by
  rcases h with h | rfl
  · cases v with
    | registering i =>
      obtain rfl : e = .addWaiter i := ha
      exact Or.inl h
    | counting i =>
      obtain rfl : e = .countDeduped := ha
      exact Or.inl h
    | polling i =>
      obtain rfl : e = .awaitCompleted i := ha
      exact Or.inr rfl
    | _ => exact h.elim
  · exact ha.elim

theorem Allows.found (ha : v.Allows e) (h : (v.next e r).Joins id) :
    v.Joins id ∨ ∃ hash, (hash, id) ∈ e.found r := by
  cases v with
  | looking =>
    cases e with
    | lookup hash =>
      cases r with
      | none => exact h.elim
      | some i =>
        obtain rfl : i = id := h
        exact Or.inr ⟨hash, List.mem_singleton_self _⟩
    | _ => exact h.elim
  | registering i =>
    obtain rfl : e = .addWaiter i := ha
    exact Or.inl h
  | counting i =>
    obtain rfl : e = .countDeduped := ha
    exact Or.inl h
  | polling i =>
    obtain rfl : e = .awaitCompleted i := ha
    exact h.elim
  | originating i =>
    rcases ha with rfl | ⟨value, rfl⟩
    · exact h.elim
    · exact h.elim
  | done => exact ha.elim

theorem Allows.insert {hash : RequestHash} {nowMs : UInt64} (ha : v.Allows (.insert hash nowMs)) :
    v = .looking := by
  cases v <;> simp [Allows] at ha ⊢

theorem Allows.lookup {hash : RequestHash} (ha : v.Allows (.lookup hash)) :
    v = .looking ∧ ∃ key, hash = hashRequest key := by
  cases v <;> simp_all [Allows]

end Stage

/-- A caller's next operation keeps its account of itself. -/
theorem Told.advance (ht : Told s t) (ha : (stage t).Allows e)
    (hx : e.exec env s = some (r, s', new)) : Told s' (t.advance e r (next r)) := by
  have hnext : stage (t.advance e r (next r)) = (stage t).next e r := Task.view_advance ..
  refine ⟨fun id hid => ?_, fun hash id hid => ?_, fun id hjoins => ?_⟩
  · rw [Task.log_advance, List.mem_append] at hid
    rw [hnext]
    rcases hid with hid | hid
    · obtain ⟨hlt, hstage⟩ := ht.began id hid
      exact ⟨hlt.trans_le (exec_entries_length hx), ha.originating hstage⟩
    · cases e with
      | insert hash nowMs =>
        cases hx
        obtain rfl := List.mem_singleton.mp hid
        rw [ha.insert]
        exact ⟨by simp, Or.inl rfl⟩
      | _ => cases hid
  · rw [Task.log_advance, List.mem_append] at hid
    rw [hnext]
    rcases hid with hid | hid
    · exact ha.joins (ht.found hash id hid)
    · cases Op.mem_found hid
      rw [ha.lookup.1]
      exact Or.inl rfl
  · rw [hnext] at hjoins
    simp only [Task.log_advance, List.mem_append]
    rcases ha.found hjoins with hold | ⟨hash, hnew⟩
    · obtain ⟨hash, hmem⟩ := ht.joins id hold
      exact ⟨hash, Or.inl hmem⟩
    · exact ⟨hash, Or.inr hnew⟩

end Steps

section Entries

variable {s s' : RequestDeduplicator} {e : Op} {env : Env} {r : e.Resp} {new : List Call}
  {id : EntryId}

theorem RequestDeduplicator.pending_modifyEntry {i : EntryId} {f : DedupeEntry → DedupeEntry}
    (hf : ∀ e, (f e).completed = false → e.completed = false)
    (h : (s.modifyEntry i f).pending id = true) : s.pending id = true := by
  obtain ⟨entry, hentry, hc⟩ := RequestDeduplicator.pending_iff.mp h
  rw [RequestDeduplicator.getElem?_modifyEntry] at hentry
  split at hentry
  · obtain ⟨old, hold, rfl⟩ := Option.map_eq_some_iff.mp hentry
    exact RequestDeduplicator.pending_iff.mpr ⟨old, hold, hf old hc⟩
  · exact RequestDeduplicator.pending_iff.mpr ⟨entry, hentry, hc⟩

/-- What was complete stays complete. -/
theorem exec_pending (hx : e.exec env s = some (r, s', new)) (hlt : id < s.entries.length)
    (h : s'.pending id = true) : s.pending id = true := by
  cases e with
  | insert hash nowMs =>
    cases hx
    unfold RequestDeduplicator.pending at h ⊢
    rwa [List.getElem?_append_left hlt] at h
  | addWaiter i =>
    cases hx
    exact RequestDeduplicator.pending_modifyEntry
      (f := fun e => { e with waiters := e.waiters + 1 }) (fun _ hc => hc) h
  | store i value =>
    cases hx
    exact RequestDeduplicator.pending_modifyEntry
      (f := fun e => { e with result := some value, completed := true })
      (fun _ hc => absurd hc Bool.noConfusion) h
  | awaitCompleted i =>
    obtain ⟨rfl, _⟩ := Op.exec_awaitCompleted hx
    exact h
  | _ =>
    cases hx
    exact h

/-- Only a caller that stores completes an entry. -/
theorem exec_keeps_pending (hx : e.exec env s = some (r, s', new))
    (hstore : ∀ value, e ≠ .store id value) (h : s.pending id = true) : s'.pending id = true := by
  obtain ⟨entry, hentry, hc⟩ := RequestDeduplicator.pending_iff.mp h
  cases e with
  | insert hash nowMs =>
    cases hx
    refine RequestDeduplicator.pending_iff.mpr ⟨entry, ?_, hc⟩
    exact (List.getElem?_append_left (List.getElem?_eq_some_iff.mp hentry).1).trans hentry
  | addWaiter i =>
    cases hx
    refine RequestDeduplicator.pending_iff.mpr ?_
    rw [RequestDeduplicator.getElem?_modifyEntry, hentry]
    split
    · exact ⟨_, rfl, hc⟩
    · exact ⟨entry, rfl, hc⟩
  | store i value =>
    cases hx
    refine RequestDeduplicator.pending_iff.mpr ⟨entry, ?_, hc⟩
    have hi : i ≠ id := fun hi => hstore value (congrArg (Op.store · value) hi)
    rw [RequestDeduplicator.getElem?_modifyEntry, if_neg hi, hentry]
  | awaitCompleted i =>
    obtain ⟨rfl, _⟩ := Op.exec_awaitCompleted hx
    exact h
  | _ =>
    cases hx
    exact h

/-- An entry that is not under a hash does not come there any more. -/
theorem exec_lookup {hash : RequestHash} (hx : e.exec env s = some (r, s', new))
    (hlt : id < s.entries.length) (h : s'.inFlight.lookup hash = some id) :
    s.inFlight.lookup hash = some id := by
  cases e with
  | insert other nowMs =>
    cases hx
    dsimp only at h
    by_cases hh : hash = other
    · rw [hh, AList.lookup_insert] at h
      exact absurd (Option.some.inj h) (Nat.ne_of_gt hlt)
    · rwa [AList.lookup_insert_ne hh] at h
  | remove other =>
    cases hx
    dsimp only at h
    by_cases hh : hash = other
    · rw [hh, AList.lookup_erase] at h
      cases h
    · rwa [AList.lookup_erase_ne hh] at h
  | awaitCompleted i =>
    obtain ⟨rfl, _⟩ := Op.exec_awaitCompleted hx
    exact h
  | _ =>
    cases hx
    exact h

end Entries

def Known (p : DedupePool) : Prop :=
  (∀ t ∈ p.tasks, Told p.state t) ∧ ∀ t ∈ p.tasks, t.Follows stages

theorem invariant_told :
    machine.Invariant stages (fun _ _ => True) fun p => ∀ t ∈ p.tasks, Told p.state t where
  body := body_stages
  start c s tasks _ _ hj := by
    intro t ht
    rcases List.mem_append.mp ht with ht | ht
    · exact hj t ht
    · rw [List.mem_singleton.mp ht]
      exact ⟨fun _ hid => (nomatch hid), fun _ _ hid => (nomatch hid), fun _ h => h.elim⟩
  step env pre post t e next r s s' new hp hx _ _ ha hj := by
    refine ⟨trivial, fun u hu => ?_⟩
    rw [Op.exec_new hx, List.map_nil, List.append_nil] at hu
    rcases eq_or_mem_replaced t hu with rfl | hu
    · exact (hj t (by simp)).advance ha hx
    · exact (hj u hu).mono (exec_entries_length hx)

theorem known_step {a : DedupeAction} {p q : DedupePool} (h : Known p) (hs : machine.Step a p q) :
    Known q := invariant_told.preserved hs trivial h.1 h.2

structure Sane (x : DedupeScene) : Prop where
  known : Known x.pool
  gone : ∀ i ∈ x.gone, i < x.pool.tasks.length

/-- Nobody comes to an abandoned entry. -/
def Clean (x : DedupeScene) : Prop :=
  ∀ id, Abandoned x id →
    ¬Awaited x id ∧ ∀ key, x.pool.state.inFlight.lookup (hashRequest key) ≠ some id

section Clean

variable {x y : DedupeScene} {a : DedupeAction} {ev : DedupeEvent} {id : EntryId}

theorem Sane.step (h : Sane x) (hs : live x ev = some y) : Sane y :=
  ⟨Machine.live_pool h.known hs fun _ _ _ hk => known_step hk, Machine.live_gone h.gone hs⟩

theorem sane_start : Sane startScene :=
  ⟨⟨fun _ ht => (nomatch ht), fun _ ht => (nomatch ht)⟩, fun _ hi => (nomatch hi)⟩

theorem Sane.lt_of_abandoned (h : Sane x) (ha : Abandoned x id) :
    id < x.pool.state.entries.length := by
  obtain ⟨_, i, _, t, ht, hid⟩ := ha
  exact ((h.known.1 t (List.mem_of_getElem? ht)).began id hid).1

/-- Only by going away does a caller abandon an entry. -/
theorem Sane.abandoned_of_act (h : Sane x) (hs : live x (.act a) = some y)
    (hy : Abandoned y id) : Abandoned x id := by
  obtain ⟨hpending, i, hi, t, ht, hid⟩ := hy
  rw [(Machine.live_act hs).2] at hi
  rw [Machine.live_task_gone hs hi (h.gone i hi)] at ht
  have hlt := ((h.known.1 t (List.mem_of_getElem? ht)).began id hid).1
  refine ⟨?_, i, hi, t, ht, hid⟩
  rcases Machine.live_state hs with hstate | ⟨e, env, r, new, hx⟩
  · rwa [hstate] at hpending
  · exact exec_pending hx hlt hpending

theorem Clean.act (hc : Clean x) (h : Sane x) (hs : live x (.act a) = some y) : Clean y := by
  intro id hy
  have hx : Abandoned x id := h.abandoned_of_act hs hy
  have hlt : id < x.pool.state.entries.length := h.lt_of_abandoned hx
  obtain ⟨hnone, hkey⟩ := hc id hx
  refine ⟨?_, fun key hlookup => ?_⟩
  · intro hawaited
    obtain ⟨j, hj, u, hu, hres, hash, hfound⟩ := hawaited
    rw [(Machine.live_act hs).2] at hj
    rcases Machine.live_task hs hu with
      hu | ⟨c, rfl⟩ | ⟨t, e, next, env, r, new, _, ht, hprog, he, rfl⟩
    · exact hnone ⟨j, hj, u, hu, hres, hash, hfound⟩
    · cases hfound
    · rw [Task.log_advance, List.mem_append] at hfound
      rcases hfound with hfound | hfound
      · exact hnone ⟨j, hj, t, ht, by simp [Task.result?, hprog], hash, hfound⟩
      · cases Op.mem_found hfound
        -- it looked the entry up just now
        have hfollows := h.known.2 t (List.mem_of_getElem? ht)
        obtain ⟨_, key, rfl⟩ := Stage.Allows.lookup (hfollows.allowed hprog)
        simp only [machine, Op.exec, Option.some.injEq, Prod.mk.injEq] at he
        exact hkey key he.1
  · rcases Machine.live_state hs with hstate | ⟨e, env, r, new, he⟩
    · exact hkey key (hstate ▸ hlookup)
    · exact hkey key (exec_lookup he hlt hlookup)

theorem Clean.step (hc : Clean x) (h : Sane x) (hharmless : Harmless x ev)
    (hs : live x ev = some y) : Clean y := by
  cases ev with
  | act a => exact hc.act h hs
  | vanish i =>
    obtain ⟨_, rfl⟩ := Machine.live_vanish.mp hs
    intro id hy
    have hless : ¬Awaited x id → ¬Awaited { x with gone := i :: x.gone } id := by
      intro hnone hawaited
      obtain ⟨j, hj, hrest⟩ := hawaited
      exact hnone ⟨j, fun hmem => hj (List.mem_cons_of_mem i hmem), hrest⟩
    obtain ⟨hpending, k, hk, t, ht, hid⟩ := hy
    rcases List.mem_cons.mp hk with rfl | hk
    · obtain ⟨hnone, hkey⟩ := hharmless t id ht hid hpending
      exact ⟨hless hnone, hkey⟩
    · obtain ⟨hnone, hkey⟩ := hc id ⟨hpending, k, hk, t, ht, hid⟩
      exact ⟨hless hnone, hkey⟩

theorem Stage.Allows.polling {v : Stage} (h : v.Allows (.awaitCompleted id)) :
    v = .polling id := by
  cases v <;> simp_all [Stage.Allows]

/-- Who polls an entry has found it. -/
theorem Sane.awaited_of_head {i : Nat} (h : Sane x) (hi : i ∉ x.gone)
    (hhead : x.head? i = some (.awaitCompleted id)) : Awaited x id := by
  obtain ⟨t, ht, hprog⟩ := Option.bind_eq_some_iff.mp hhead
  have hmem := List.mem_of_getElem? ht
  have hstage : stage t = .polling id := ((h.known.2 t hmem).allowed_head hprog).polling
  refine ⟨i, hi, t, ht, ?_, (h.known.1 t hmem).joins id (by rw [hstage]; exact rfl)⟩
  unfold Task.result?
  cases hp : t.prog with
  | ret a => simp [hp] at hprog
  | op e next => rfl

theorem Clean.noOrphanWaiters (hc : Clean x) (h : Sane x) : NoOrphanWaiters x := by
  intro i hi id hhead habandoned
  exact (hc id habandoned).1 (h.awaited_of_head hi hhead)

theorem clean_of_exec {evs : List DedupeEvent} (hc : Clean x) (h : Sane x)
    (hg : EachStep live Harmless x evs) (hx : exec live x evs = some y) : Clean y ∧ Sane y := by
  induction evs generalizing x with
  | nil =>
    cases hx
    exact ⟨hc, h⟩
  | cons ev evs ih =>
    obtain ⟨z, hz, hx⟩ := Option.bind_eq_some_iff.mp hx
    obtain ⟨hharmless, hrest⟩ := hg z hz
    exact ih (hc.step h hharmless hz) (h.step hz) hrest hx

/-- The whole run is clean where everyone who goes away does no harm. -/
theorem throughout_noOrphanWaiters {evs : List DedupeEvent} (hc : Clean x) (h : Sane x)
    (hg : EachStep live Harmless x evs) : Throughout live NoOrphanWaiters x evs := by
  induction evs generalizing x with
  | nil => exact hc.noOrphanWaiters h
  | cons ev evs ih =>
    refine ⟨hc.noOrphanWaiters h, fun y hy => ?_⟩
    obtain ⟨hharmless, hrest⟩ := hg y hy
    exact ih (hc.step h hharmless hy) (h.step hy) hrest

end Clean

section Doomed

variable {x y : DedupeScene} {a : DedupeAction} {id : EntryId} {j : Nat} {t : DedupeTask}
  {key : String}

/-- If the callers go on like this, one of them polls an abandoned entry. -/
def Doomed (x : DedupeScene) : Prop :=
  ∃ as : List DedupeAction, ¬Throughout live NoOrphanWaiters x (as.map .act)

theorem Doomed.before (h : Doomed y) (hs : live x (.act a) = some y) : Doomed x := by
  obtain ⟨as, hnot⟩ := h
  exact ⟨a :: as, fun hall => hnot (hall.2 y hs)⟩

theorem eachStep_harmless_act (as : List DedupeAction) :
    EachStep live Harmless x (as.map .act) := by
  induction as generalizing x with
  | nil => trivial
  | cons a as ih => exact fun y _ => ⟨trivial, ih⟩

/-- A caller's step that does not complete the entry leaves it abandoned. -/
theorem exists_live_step {e : Op} {next : e.Resp → DedupeM Answer} {r : e.Resp}
    {s' : RequestDeduplicator} (h : Sane x) (habandoned : Abandoned x id) (hj : j ∉ x.gone)
    (ht : x.pool.tasks[j]? = some t) (hprog : t.prog = .op e next)
    (hx : e.exec {} x.pool.state = some (r, s', [])) (hstore : ∀ value, e ≠ .store id value) :
    ∃ y, live x (.act (.step j {})) = some y ∧ Sane y ∧ Abandoned y id ∧ j ∉ y.gone ∧
      y.pool.tasks[j]? = some (t.advance e r (next r)) ∧ y.pool.state = s' := by
  have hx' : machine.exec e {} x.pool.state = some (r, s', []) := hx
  have hs : live x (.act (.step j {})) =
      some ⟨⟨s', x.pool.tasks.set j (t.advance e r (next r))⟩, x.gone⟩ := by
    simp [live, Machine.live, Machine.step, hj, ht, hprog, hx']
  refine ⟨_, hs, h.step hs, ?_, hj, ?_, rfl⟩
  · obtain ⟨hpending, i, hi, u, hu, hid⟩ := habandoned
    refine ⟨exec_keeps_pending hx hstore hpending, i, hi, u, ?_, hid⟩
    rw [Machine.live_task_gone hs hi (h.gone i hi), hu]
  · exact List.getElem?_set_self (List.getElem?_eq_some_iff.mp ht).1

/-- A caller that is to do something has the operation its stage allows before it. -/
theorem Sane.exists_op (h : Sane x) (ht : x.pool.tasks[j]? = some t)
    (hstage : ¬(stage t = .looking ∨ stage t = .done)) :
    ∃ e next, t.prog = .op e next ∧ (stage t).Allows e := by
  have hfollows := h.known.2 t (List.mem_of_getElem? ht)
  cases hprog : t.prog with
  | ret a =>
    have hres : t.result? = some a := by simp [Task.result?, hprog]
    exact absurd (hfollows.finished hres) hstage
  | op e next => exact ⟨e, next, rfl, hfollows.allowed hprog⟩

theorem doomed_of_polling (h : Sane x) (habandoned : Abandoned x id) (hj : j ∉ x.gone)
    (ht : x.pool.tasks[j]? = some t) (hstage : stage t = .polling id) : Doomed x := by
  obtain ⟨e, next, hprog, ha⟩ := h.exists_op ht (by simp [hstage])
  rw [hstage] at ha
  obtain rfl : e = .awaitCompleted id := ha
  refine ⟨[], fun hall => hall j hj id ?_ habandoned⟩
  simp [Scene.head?, ht, hprog]

theorem doomed_of_counting (h : Sane x) (habandoned : Abandoned x id) (hj : j ∉ x.gone)
    (ht : x.pool.tasks[j]? = some t) (hstage : stage t = .counting id) : Doomed x := by
  obtain ⟨e, next, hprog, ha⟩ := h.exists_op ht (by simp [hstage])
  rw [hstage] at ha
  obtain rfl : e = .countDeduped := ha
  obtain ⟨y, hs, hy, hya, hyj, hyt, _⟩ :=
    exists_live_step h habandoned hj ht hprog rfl (fun _ => Op.noConfusion)
  refine Doomed.before (doomed_of_polling hy hya hyj hyt ?_) hs
  rw [stage, Task.view_advance, ← stage, hstage]
  rfl

theorem doomed_of_registering (h : Sane x) (habandoned : Abandoned x id) (hj : j ∉ x.gone)
    (ht : x.pool.tasks[j]? = some t) (hstage : stage t = .registering id) : Doomed x := by
  obtain ⟨e, next, hprog, ha⟩ := h.exists_op ht (by simp [hstage])
  rw [hstage] at ha
  obtain rfl : e = .addWaiter id := ha
  obtain ⟨y, hs, hy, hya, hyj, hyt, _⟩ :=
    exists_live_step h habandoned hj ht hprog rfl (fun _ => Op.noConfusion)
  refine Doomed.before (doomed_of_counting hy hya hyj hyt ?_) hs
  rw [stage, Task.view_advance, ← stage, hstage]
  rfl

theorem Sane.joins {hash : RequestHash} (h : Sane x) (ht : x.pool.tasks[j]? = some t)
    (hres : t.result? = none) (hfound : (hash, id) ∈ t.log Op.found) : (stage t).Joins id := by
  have hmem := List.mem_of_getElem? ht
  refine ((h.known.1 t hmem).found hash id hfound).resolve_right fun hdone => ?_
  cases hprog : t.prog with
  | ret a => simp [Task.result?, hprog] at hres
  | op e next =>
    have ha : (stage t).Allows e := (h.known.2 t hmem).allowed hprog
    rw [hdone] at ha
    exact ha

/-- A caller that has found an abandoned entry comes to poll it. -/
theorem doomed_of_awaited (h : Sane x) (habandoned : Abandoned x id) (hawaited : Awaited x id) :
    Doomed x := by
  obtain ⟨j, hj, t, ht, hres, hash, hfound⟩ := hawaited
  have hstage := h.joins ht hres hfound
  cases hs : stage t with
  | registering i =>
    obtain rfl : i = id := by rwa [hs] at hstage
    exact doomed_of_registering h habandoned hj ht hs
  | counting i =>
    obtain rfl : i = id := by rwa [hs] at hstage
    exact doomed_of_counting h habandoned hj ht hs
  | polling i =>
    obtain rfl : i = id := by rwa [hs] at hstage
    exact doomed_of_polling h habandoned hj ht hs
  | _ =>
    rw [hs] at hstage
    exact hstage.elim

/-- The next caller of the key comes to poll the entry the map has for it. -/
theorem doomed_of_lookup (h : Sane x) (habandoned : Abandoned x id)
    (hlookup : x.pool.state.inFlight.lookup (hashRequest key) = some id) : Doomed x := by
  have hs : live x (.act (.start (.getOrCompute key 0))) =
      some ⟨⟨x.pool.state, x.pool.tasks ++ [machine.spawn (.getOrCompute key 0)]⟩, x.gone⟩ := rfl
  have hnew : x.pool.tasks.length ∉ x.gone := fun hmem => absurd (h.gone _ hmem) (Nat.lt_irrefl _)
  have habandoned₁ : Abandoned
      ⟨⟨x.pool.state, x.pool.tasks ++ [machine.spawn (.getOrCompute key 0)]⟩, x.gone⟩ id := by
    obtain ⟨hpending, i, hi, u, hu, hid⟩ := habandoned
    exact ⟨hpending, i, hi, u, (List.getElem?_append_left (h.gone i hi)).trans hu, hid⟩
  obtain ⟨y, hs₁, hy, hya, hyj, hyt, hstate⟩ :=
    exists_live_step (h.step hs) habandoned₁ hnew List.getElem?_concat_length rfl rfl
      (fun _ => Op.noConfusion)
  have hfound : (Op.lookup (hashRequest key)).exec {} y.pool.state =
      some (some id, y.pool.state, []) := by
    rw [hstate]
    exact congrArg (fun found => some (found, _, [])) hlookup
  obtain ⟨z, hs₂, hz, hza, hzj, hzt, _⟩ :=
    exists_live_step hy hya hyj hyt rfl hfound (fun _ => Op.noConfusion)
  exact ((doomed_of_registering hz hza hzj hzt rfl).before hs₂).before hs₁ |>.before hs

/-- A caller may go away without harm exactly where the others can go on and none of them
ever polls an abandoned entry. -/
theorem harmless_iff {ev : DedupeEvent} (hc : Clean x) (h : Sane x) (hs : live x ev = some y) :
    (∀ evs, EachStep live Harmless y evs → Throughout live NoOrphanWaiters y evs) ↔
      Harmless x ev := by
  constructor
  · intro hall
    have hsafe : ¬Doomed y := by
      intro hdoomed
      obtain ⟨as, hnot⟩ := hdoomed
      exact hnot (hall _ (eachStep_harmless_act as))
    cases ev with
    | act a => trivial
    | vanish i =>
      intro t id ht hid hpending
      have hy : Sane y := h.step hs
      obtain ⟨_, rfl⟩ := Machine.live_vanish.mp hs
      have habandoned : Abandoned { x with gone := i :: x.gone } id :=
        ⟨hpending, i, List.mem_cons_self, t, ht, hid⟩
      refine ⟨fun hawaited => hsafe (doomed_of_awaited hy habandoned ?_), fun key hlookup =>
        hsafe (doomed_of_lookup hy habandoned hlookup)⟩
      obtain ⟨j, hj, u, hu, hres, hash, hfound⟩ := hawaited
      refine ⟨j, fun hmem => ?_, u, hu, hres, hash, hfound⟩
      rcases List.mem_cons.mp hmem with rfl | hmem
      · -- the originator waits for nobody
        cases hu.symm.trans ht
        have hjoins := h.joins ht hres hfound
        rcases ((h.known.1 t (List.mem_of_getElem? ht)).began id hid).2 with hstage | hstage
        · exact (hstage ▸ hjoins : Stage.Joins (.originating id) id)
        · exact (hstage ▸ hjoins : Stage.Joins .done id)
      · exact hj hmem
  · intro hharmless evs hg
    exact throughout_noOrphanWaiters (hc.step h hharmless hs) (h.step hs) hg

end Doomed

theorem clean_start : Clean startScene := by
  intro id habandoned
  obtain ⟨_, i, hi, _⟩ := habandoned
  cases hi

/-- In a run in which nobody who goes away does harm no caller ever polls an abandoned entry;
and wherever one does harm, some caller may come to poll one without any more harm being done. -/
theorem no_orphan_waiters_iff (evs : List DedupeEvent) :
    (EachStep live Harmless startScene evs → Throughout live NoOrphanWaiters startScene evs) ∧
    ∀ x ev y, EachStep live Harmless startScene evs → exec live startScene evs = some x →
      live x ev = some y →
        ((∀ later, EachStep live Harmless y later → Throughout live NoOrphanWaiters y later) ↔
          Harmless x ev) := by
  refine ⟨fun hg => throughout_noOrphanWaiters clean_start sane_start hg, ?_⟩
  intro x ev y hg hx hs
  obtain ⟨hc, h⟩ := clean_of_exec clean_start sane_start hg hx
  exact harmless_iff hc h hs

/-- The originator is cancelled while it computes and another caller waits for it. -/
def cancelled : List DedupeEvent :=
  (.start (.getOrCompute "key" 0) :: .start (.getOrCompute "key" 5) :: turns 0 3 {} ++
    turns 1 4 {}).map .act ++ [.vanish 0]

/-- The other caller polls for ever. -/
theorem cancelled_leaves_orphan :
    ¬∀ evs, Throughout live NoOrphanWaiters startScene evs := by
  intro h
  have hr : (exec live startScene cancelled).any (fun x => x.pool.state.pending 0 &&
      decide (0 ∈ x.gone) && decide (1 ∉ x.gone) &&
      (x.pool.tasks[0]?).any (fun t => decide (0 ∈ t.log Op.began)) &&
      decide (x.head? 1 = some (.awaitCompleted 0))) = true := by decide +kernel
  obtain ⟨x, hx, hfacts⟩ := (Option.any_eq_true _ _).mp hr
  simp only [Bool.and_eq_true, decide_eq_true_eq, Option.any_eq_true] at hfacts
  obtain ⟨⟨⟨⟨hpending, hgone⟩, hthere⟩, t, ht, hbegan⟩, hpolls⟩ := hfacts
  exact (h cancelled).last hx 1 hthere 0 hpolls ⟨hpending, 0, hgone, t, ht, hbegan⟩

end HelixRouter.Deduplication
