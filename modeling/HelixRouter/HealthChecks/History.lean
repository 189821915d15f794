import HelixRouter.HealthChecks.HealthCheckRunner
import HelixRouter.Runs.Debounce
import HelixRouter.Runs.Stepwise

namespace HelixRouter.HealthChecks

open Runs

namespace CheckState

variable {c : CheckState}

def outcomes (c : CheckState) : List Bool := c.history.map (·.success)

/-- The last row of failures that counts was not followed by a row of successes that counts. A
threshold of zero acts as one. -/
def Failing (c : CheckState) : Prop :=
  Tripped (max 1 c.thresholds.healthyConsecutive.toNat)
    (max 1 c.thresholds.unhealthyConsecutive.toNat) c.outcomes

/-- A check's state says what its history does. -/
structure Told (c : CheckState) : Prop where
  flag : c.healthy = false ↔ c.Failing
  successes : c.consecutiveSuccess = UInt32.ofNat (streak true c.outcomes)
  failures : c.consecutiveFailure = UInt32.ofNat (streak false c.outcomes)
  last : c.lastResult = c.history.getLast?

theorem one_le_threshold (threshold : Nat) : 0 < max 1 threshold :=
  Nat.lt_of_lt_of_le Nat.one_pos (Nat.le_max_left ..)

theorem Told.new (name : String) (checkType : CheckType) (thresholds : HealthThresholds) :
    Told { name, checkType, thresholds } where
  flag := by
    exact ⟨fun h => (nomatch h), fun h => absurd h (not_tripped_nil (one_le_threshold _))⟩
  successes := rfl
  failures := rfl
  last := rfl

section Steps

attribute [local simp] count clear judge file

@[simp] theorem recordResult_history (c : CheckState) (result : CheckResult) :
    (c.recordResult result).history = c.history ++ [result] := by
  unfold recordResult
  simp
  split_ifs <;> rfl

@[simp] theorem recordResult_thresholds (c : CheckState) (result : CheckResult) :
    (c.recordResult result).thresholds = c.thresholds := by
  unfold recordResult
  simp
  split_ifs <;> rfl

theorem recordResult_success {result : CheckResult} (hs : result.success = true) :
    c.recordResult result = { c with
      consecutiveSuccess := c.consecutiveSuccess + 1
      consecutiveFailure := 0
      healthy := if c.thresholds.healthyConsecutive ≤ c.consecutiveSuccess + 1 then true
        else c.healthy
      lastResult := some result
      history := c.history ++ [result] } := by
  simp only [recordResult, count, clear, judge, file, hs, if_true]
  split <;> rfl

theorem recordResult_failure {result : CheckResult} (hs : result.success = false) :
    c.recordResult result = { c with
      consecutiveFailure := c.consecutiveFailure + 1
      consecutiveSuccess := 0
      healthy := if c.thresholds.unhealthyConsecutive ≤ c.consecutiveFailure + 1 then false
        else c.healthy
      lastResult := some result
      history := c.history ++ [result] } := by
  simp only [recordResult, count, clear, judge, file, hs, Bool.false_eq_true, if_false]
  split <;> rfl

@[simp] theorem stepRecord_history (c : CheckState) (result : CheckResult) (stage : Stage) :
    (c.stepRecord result stage).1.history =
      c.history ++ if stage = .judged then [result] else [] := by
  cases stage <;> simp [stepRecord]
  all_goals split_ifs <;> rfl

end Steps

theorem recordResult_outcomes (c : CheckState) (result : CheckResult) :
    (c.recordResult result).outcomes = c.outcomes ++ [result.success] := by
  rw [outcomes, recordResult_history, List.map_append, List.map_singleton, outcomes]

/-- A counter that has wrapped has passed every threshold before it did. -/
theorem reached_of_not_counted {threshold : UInt32} {n : Nat}
    (hle : max 1 threshold.toNat ≤ n + 1) (hno : ¬ threshold ≤ UInt32.ofNat n + 1) :
    max 1 threshold.toNat ≤ n := by
  rw [UInt32.le_iff_toNat_le, UInt32.toNat_add, UInt32.toNat_ofNat', UInt32.toNat_one] at hno
  have hlt : threshold.toNat < 4294967296 := threshold.toNat_lt
  omega

theorem counted_of_reached {threshold : UInt32} {n : Nat}
    (h : threshold ≤ UInt32.ofNat n + 1) : max 1 threshold.toNat ≤ n + 1 := by
  rw [UInt32.le_iff_toNat_le, UInt32.toNat_add, UInt32.toNat_ofNat', UInt32.toNat_one] at h
  omega

theorem Told.flag_success (h : c.Told) {result : CheckResult} (hs : result.success = true) :
    (c.recordResult result).healthy = false ↔ (c.recordResult result).Failing := by
  rw [Failing, recordResult_outcomes, recordResult_thresholds, hs,
    tripped_concat_true (one_le_threshold _), streak_concat, if_pos rfl, ← Failing, ← h.flag,
    recordResult_success hs, h.successes]
  dsimp only
  split
  · rename_i hcounted
    exact ⟨fun ht => (nomatch ht), fun ht => absurd (counted_of_reached hcounted) ht.2⟩
  · rename_i hno
    refine ⟨fun hdown => ⟨hdown, fun hle => ?_⟩, And.left⟩
    -- the counter has wrapped, and the check has been healthy since before it did
    exact not_tripped_of_streak (one_le_threshold _) (reached_of_not_counted hle hno)
      (h.flag.mp hdown)

theorem Told.flag_failure (h : c.Told) {result : CheckResult} (hs : result.success = false) :
    (c.recordResult result).healthy = false ↔ (c.recordResult result).Failing := by
  rw [Failing, recordResult_outcomes, recordResult_thresholds, hs,
    tripped_concat_false (one_le_threshold _), streak_concat, if_pos rfl, ← Failing, ← h.flag,
    recordResult_failure hs, h.failures]
  dsimp only
  split
  · rename_i hcounted
    exact ⟨fun _ => .inr (counted_of_reached hcounted), fun _ => rfl⟩
  · rename_i hno
    refine ⟨.inl, ?_⟩
    rintro (hdown | hle)
    · exact hdown
    · exact h.flag.mpr (tripped_of_streak (one_le_threshold _) (reached_of_not_counted hle hno))

theorem Told.recordResult (h : c.Told) (result : CheckResult) : (c.recordResult result).Told := by
  cases hs : result.success with
  | true =>
    refine ⟨h.flag_success hs, ?_, ?_, ?_⟩
    · rw [recordResult_outcomes, hs, streak_concat, if_pos rfl, recordResult_success hs,
        h.successes, UInt32.ofNat_add]
      rfl
    · rw [recordResult_outcomes, hs, streak_concat, if_neg Bool.true_eq_false_eq_False,
        recordResult_success hs]
      rfl
    · rw [recordResult_history, List.getLast?_concat, recordResult_success hs]
  | false =>
    refine ⟨h.flag_failure hs, ?_, ?_, ?_⟩
    · rw [recordResult_outcomes, hs, streak_concat, if_neg Bool.false_eq_true_eq_False,
        recordResult_failure hs]
      rfl
    · rw [recordResult_outcomes, hs, streak_concat, if_pos rfl, recordResult_failure hs,
        h.failures, UInt32.ofNat_add]
      rfl
    · rw [recordResult_history, List.getLast?_concat, recordResult_failure hs]

end CheckState

/-- What a step files, and for which check. -/
def Event.files (s : State) : Event → List (Nat × CheckResult)
  | .advance k =>
    ((s.recorders[k]?).bind fun call =>
      if call.stage = .judged then call.todo.head? else none).toList
  | _ => []

/-- The results among them that are a check's. -/
def received (records : List (Nat × CheckResult)) (i : Nat) : List CheckResult :=
  records.filterMap fun record => if record.1 = i then some record.2 else none

theorem received_append (past new : List (Nat × CheckResult)) (i : Nat) :
    received (past ++ new) i = received past i ++ received new i := List.filterMap_append ..

theorem received_eq_nil {records : List (Nat × CheckResult)} {i : Nat}
    (h : ∀ record ∈ records, record.1 ≠ i) : received records i = [] :=
  List.filterMap_eq_nil_iff.mpr fun record hrecord => if_neg (h record hrecord)

/-- Each check has its part of what was filed for its history, and what is still to be recorded
has a check. -/
structure Kept (s : State) (past : List (Nat × CheckResult)) : Prop where
  histories : ∀ i c, s.runner.checks[i]? = some c → c.history = received past i
  filed : ∀ record ∈ past, record.1 < s.runner.checks.length
  todo : ∀ call ∈ s.recorders, ∀ record ∈ call.todo, record.1 < s.runner.checks.length

/-- No two records of the check are under way. -/
def Single (i : Nat) (s : State) : Prop :=
  s.recorders.Pairwise fun a b => ¬ (a.under = some i ∧ b.under = some i)

def Settled (i : Nat) (s : State) : Prop := ∀ call ∈ s.recorders, call.under ≠ some i

instance (i : Nat) (s : State) : Decidable (Single i s) :=
  inferInstanceAs (Decidable (s.recorders.Pairwise _))

instance (i : Nat) (s : State) : Decidable (Settled i s) :=
  inferInstanceAs (Decidable (∀ call ∈ s.recorders, call.under ≠ some i))

namespace Recorder

variable {i : Nat} {call : Recorder}

theorem under_eq_some_iff : call.under = some i ↔
    call.stage ≠ .due ∧ ∃ result rest, call.todo = (i, result) :: rest := by
  obtain ⟨stage, todo⟩ := call
  by_cases hdue : stage = .due
  · simp [under, hdue]
  · cases todo with
    | nil => simp [under, hdue]
    | cons record rest =>
      obtain ⟨j, result⟩ := record
      simp [under, hdue]

end Recorder

theorem Single.alone {i : Nat} {s : State} {pre post : List Recorder} {call : Recorder}
    (h : Single i s) (hrec : s.recorders = pre ++ call :: post) (hcall : call.under = some i) :
    ∀ a ∈ pre ++ post, a.under ≠ some i := by
  rw [Single, hrec, List.pairwise_middle fun hab hba => hab hba.symm] at h
  exact fun a ha hat => (List.pairwise_cons.mp h).1 a ha ⟨hcall, hat⟩

/-- A call takes the next step of the record that it is at. -/
theorem advance_cases {s s' : State} {k : Nat} (h : s.advance k = some s') :
    ∃ pre post stage i result rest c,
      s.recorders = pre ++ ⟨stage, (i, result) :: rest⟩ :: post ∧ pre.length = k ∧
      s.runner.checks[i]? = some c ∧
      s' = ⟨⟨s.runner.checks.set i (c.stepRecord result stage).1⟩,
        pre ++ ⟨(c.stepRecord result stage).2,
          if stage = .judged then rest else (i, result) :: rest⟩ :: post⟩ := by
  obtain ⟨call, hcall, h⟩ := Option.bind_eq_some_iff.mp h
  obtain ⟨⟨i, result⟩, hhead, h⟩ := Option.bind_eq_some_iff.mp h
  obtain ⟨c, hc, h⟩ := Option.bind_eq_some_iff.mp h
  obtain ⟨stage, todo⟩ := call
  obtain ⟨rest, rfl⟩ := List.head?_eq_some_iff.mp hhead
  obtain ⟨hk, hget⟩ := List.getElem?_eq_some_iff.mp hcall
  refine ⟨s.recorders.take k, s.recorders.drop (k + 1), stage, i, result, rest, c, ?_, ?_, hc, ?_⟩
  · rw [← hget, List.getElem_cons_drop hk, List.take_append_drop]
  · rw [List.length_take, Nat.min_eq_left (Nat.le_of_lt hk)]
  · rw [← List.set_eq_take_cons_drop _ hk]
    exact (Option.some.inj h).symm

theorem step_cases {s s' : State} {e : Event} (h : step s e = some s') :
    (∃ name checkType thresholds, e = .addCheck name checkType thresholds ∧
      s' = s.addCheck name checkType thresholds) ∨
    (∃ k, e = .advance k ∧ s.advance k = some s') ∨
    (s' = s.call (e.records s) ∧ e.files s = []) := by
  cases e with
  | addCheck name checkType thresholds =>
    exact .inl ⟨name, checkType, thresholds, rfl, (Option.some.inj h).symm⟩
  | advance k => exact .inr (.inl ⟨k, rfl, h⟩)
  | _ => exact .inr (.inr ⟨(Option.some.inj h).symm, rfl⟩)

/-- What a call sets out to record belongs to checks that are there. -/
theorem lt_of_mem_records {s : State} {e : Event} {record : Nat × CheckResult}
    (h : record ∈ e.records s) : record.1 < s.runner.checks.length := by
  cases e with
  | addCheck | advance => cases h
  | runTask i reply =>
    obtain ⟨c, hc, rfl⟩ := Option.map_eq_some_iff.mp (Option.mem_toList.mp h)
    exact (List.getElem?_eq_some_iff.mp (Option.filter_eq_some_iff.mp hc).1).1
  | runAllOnce now =>
    obtain ⟨i, hi, rfl⟩ := List.mem_mapIdx.mp h
    exact hi
  | recordCustom name success latencyMs message now =>
    obtain ⟨i, hi, rfl⟩ := Option.map_eq_some_iff.mp (Option.mem_toList.mp h)
    exact (List.findIdx?_eq_some_iff_getElem.mp hi).1

theorem files_advance {s : State} {pre post : List Recorder} {stage : Stage} {i : Nat}
    {result : CheckResult} {rest : List (Nat × CheckResult)}
    (h : s.recorders = pre ++ ⟨stage, (i, result) :: rest⟩ :: post) :
    (Event.advance pre.length).files s = if stage = .judged then [(i, result)] else [] := by
  have hget : s.recorders[pre.length]? = some ⟨stage, (i, result) :: rest⟩ := by simp [h]
  rw [Event.files, hget, Option.bind_some]
  split <;> rfl

namespace Kept

variable {s s' : State} {past : List (Nat × CheckResult)}

theorem nil : Kept {} [] where
  histories i c hc := by
    rw [List.getElem?_nil] at hc
    cases hc
  filed record hrecord := nomatch hrecord
  todo call hcall := nomatch hcall

theorem addCheck (h : Kept s past) (name : String) (checkType : CheckType)
    (thresholds : HealthThresholds) : Kept (s.addCheck name checkType thresholds) past := by
  have hlen : s.runner.checks.length < (s.addCheck name checkType thresholds).runner.checks.length := by
    simp [State.addCheck, HealthCheckRunner.addCheck]
  constructor
  · intro i c hc
    simp only [State.addCheck, HealthCheckRunner.addCheck] at hc
    rcases Nat.lt_trichotomy i s.runner.checks.length with hlt | rfl | hgt
    · rw [List.getElem?_append_left hlt] at hc
      exact h.histories i c hc
    · rw [List.getElem?_concat_length] at hc
      cases hc
      exact (received_eq_nil fun entry hentry => (h.filed entry hentry).ne).symm
    · rw [List.getElem?_eq_none (by rw [List.length_append]; exact hgt)] at hc
      cases hc
  · exact fun entry hentry => (h.filed entry hentry).trans hlen
  · exact fun call hcall entry hentry => (h.todo call hcall entry hentry).trans hlen

theorem advance (h : Kept s past) {k : Nat} (ha : s.advance k = some s') :
    Kept s' (past ++ (Event.advance k).files s) := by
  obtain ⟨pre, post, stage, i, result, rest, c, hrec, rfl, hc, rfl⟩ := advance_cases ha
  rw [files_advance hrec]
  have hi : i < s.runner.checks.length := (List.getElem?_eq_some_iff.mp hc).1
  have hcalls := hrec ▸ h.todo
  constructor
  · intro j d hd
    dsimp only at hd
    by_cases hij : i = j
    · subst hij
      rw [List.getElem?_set_self hi] at hd
      obtain rfl := Option.some.inj hd
      rw [CheckState.stepRecord_history, h.histories i c hc, received_append]
      split <;> simp [received]
    · rw [List.getElem?_set_ne hij] at hd
      rw [received_append, h.histories j d hd]
      split <;> simp [received, hij]
  · intro record hrecord
    rw [List.length_set]
    rcases List.mem_append.mp hrecord with hmem | hmem
    · exact h.filed record hmem
    · split at hmem
      · rwa [List.mem_singleton.mp hmem]
      · cases hmem
  · intro call hcall record hrecord
    rw [List.length_set]
    rcases List.mem_append.mp hcall with hmem | hmem
    · exact hcalls call (List.mem_append_left _ hmem) record hrecord
    · rcases List.mem_cons.mp hmem with rfl | hmem
      · refine hcalls _ (List.mem_append_right _ List.mem_cons_self) record ?_
        dsimp only at hrecord
        split at hrecord
        · exact List.mem_cons_of_mem _ hrecord
        · exact hrecord
      · exact hcalls call (List.mem_append_right _ (List.mem_cons_of_mem _ hmem)) record hrecord

theorem step (h : Kept s past) {e : Event} (hs : HealthChecks.step s e = some s') :
    Kept s' (past ++ e.files s) := by
  rcases step_cases hs with ⟨name, checkType, thresholds, rfl, rfl⟩ | ⟨k, rfl, ha⟩ | ⟨rfl, hfiles⟩
  · exact (List.append_nil past).symm ▸ h.addCheck name checkType thresholds
  · exact h.advance ha
  · rw [hfiles, List.append_nil]
    refine ⟨h.histories, h.filed, fun call hcall => ?_⟩
    rcases List.mem_append.mp hcall with hmem | hmem
    · exact h.todo call hmem
    · rw [List.mem_singleton.mp hmem]
      exact fun record hrecord => lt_of_mem_records hrecord

theorem checkHistory (h : Kept s past) (name : String) :
    s.runner.checkHistory name =
      ((s.runner.checks.findIdx? (·.name == name)).map (received past)).getD [] := by
  unfold HealthCheckRunner.checkHistory
  rw [List.find?_eq_bind_findIdx?_getElem?]
  cases hf : s.runner.checks.findIdx? (·.name == name) with
  | none => rfl
  | some i =>
    have hi := (List.findIdx?_eq_some_iff_getElem.mp hf).1
    simp [List.getElem?_eq_getElem hi, h.histories i _ (List.getElem?_eq_getElem hi)]

end Kept

/-- Nothing that a call sets out to record is lost or filed twice. -/
theorem todo_perm {s s' : State} {e : Event} (h : step s e = some s') :
    (e.records s ++ s.recorders.flatMap (·.todo)).Perm
      (e.files s ++ s'.recorders.flatMap (·.todo)) := by
  rcases step_cases h with ⟨name, checkType, thresholds, rfl, rfl⟩ | ⟨k, rfl, ha⟩ | ⟨rfl, hfiles⟩
  · exact .refl _
  · obtain ⟨pre, post, stage, i, result, rest, c, hrec, rfl, -, rfl⟩ := advance_cases ha
    rw [files_advance hrec, hrec, Event.records, List.nil_append]
    split
    · simp only [List.flatMap_append, List.flatMap_cons, List.cons_append, List.nil_append]
      exact List.perm_middle
    · simp
  · rw [hfiles, List.nil_append, State.call, List.flatMap_append, List.flatMap_singleton]
    exact List.perm_append_comm

theorem records_perm {s s' : State} {events : List Event} (hx : exec step s events = some s') :
    (gather step (fun s e => e.records s) s events ++ s.recorders.flatMap (·.todo)).Perm
      (gather step (fun s e => e.files s) s events ++ s'.recorders.flatMap (·.todo)) := by
  induction events generalizing s with
  | nil =>
    cases hx
    exact .refl _
  | cons e events ih =>
    obtain ⟨t, ht, hx⟩ := Option.bind_eq_some_iff.mp hx
    rw [gather_cons ht, gather_cons ht, List.append_assoc, List.append_assoc]
    calc e.records s ++ (gather step (fun s e => e.records s) t events ++ s.recorders.flatMap (·.todo))
      _ = e.records s ++ gather step (fun s e => e.records s) t events ++
          s.recorders.flatMap (·.todo) := (List.append_assoc ..).symm
      List.Perm _ (gather step (fun s e => e.records s) t events ++ e.records s ++
          s.recorders.flatMap (·.todo)) := List.perm_append_comm.append_right _
      List.Perm _ (gather step (fun s e => e.records s) t events ++
          (e.files s ++ t.recorders.flatMap (·.todo))) := by
        rw [List.append_assoc]
        exact (todo_perm ht).append_left _
      List.Perm _ (e.files s ++ (gather step (fun s e => e.records s) t events ++
          t.recorders.flatMap (·.todo))) := by
        rw [← List.append_assoc, ← List.append_assoc]
        exact List.perm_append_comm.append_right _
      List.Perm _ _ := (ih hx).append_left _

/-- What is left of a record, done in one go. -/
def CheckState.finish (c : CheckState) (result : CheckResult) : Stage → CheckState
  | .due => c.recordResult result
  | .counted n => ((c.clear result.success).judge result.success n).file result
  | .cleared n => (c.judge result.success n).file result
  | .judged => c.file result

/-- One step does not change what a record leads to. -/
theorem CheckState.finish_stepRecord (c : CheckState) (result : CheckResult) {stage : Stage}
    (h : stage ≠ .judged) :
    (c.stepRecord result stage).1.finish result (c.stepRecord result stage).2 =
      c.finish result stage := by
  cases stage with
  | judged => exact absurd rfl h
  | _ => rfl

/-- A check is told when no record of it is under way, and otherwise will be once the record is
done. -/
structure Sound (i : Nat) (s : State) : Prop where
  told : ∀ c, s.runner.checks[i]? = some c → Settled i s → c.Told
  finish : ∀ c, s.runner.checks[i]? = some c → ∀ call ∈ s.recorders, ∀ result rest,
    call.todo = (i, result) :: rest → call.stage ≠ .due → (c.finish result call.stage).Told

namespace Sound

variable {s s' : State} {i : Nat}

theorem addCheck (h : Sound i s) (hk : ∀ call ∈ s.recorders, ∀ record ∈ call.todo,
    record.1 < s.runner.checks.length) (name : String) (checkType : CheckType)
    (thresholds : HealthThresholds) : Sound i (s.addCheck name checkType thresholds) := by
  have hcheck : ∀ c, (s.addCheck name checkType thresholds).runner.checks[i]? = some c →
      s.runner.checks[i]? = some c ∨ i = s.runner.checks.length ∧ c.Told := fun c hc => by
    simp only [State.addCheck, HealthCheckRunner.addCheck] at hc
    rcases Nat.lt_trichotomy i s.runner.checks.length with hlt | rfl | hgt
    · rw [List.getElem?_append_left hlt] at hc
      exact .inl hc
    · rw [List.getElem?_concat_length] at hc
      cases hc
      exact .inr ⟨rfl, .new ..⟩
    · rw [List.getElem?_eq_none (by rw [List.length_append]; exact hgt)] at hc
      cases hc
  constructor
  · intro c hc hsettled
    rcases hcheck c hc with hold | ⟨-, htold⟩
    · exact h.told c hold hsettled
    · exact htold
  · intro c hc call hcall result rest htodo
    rcases hcheck c hc with hold | ⟨rfl, -⟩
    · exact h.finish c hold call hcall result rest htodo
    · have hlt := hk call hcall (_, result) (by rw [htodo]; exact List.mem_cons_self)
      exact absurd hlt (Nat.lt_irrefl _)

theorem call (h : Sound i s) (records : List (Nat × CheckResult)) : Sound i (s.call records) := by
  constructor
  · exact fun c hc hsettled => h.told c hc fun call hcall =>
      hsettled call (List.mem_append_left _ hcall)
  · intro c hc call hcall result rest htodo hstage
    rcases List.mem_append.mp hcall with hmem | hmem
    · exact h.finish c hc call hmem result rest htodo hstage
    · rw [List.mem_singleton.mp hmem] at hstage
      exact absurd rfl hstage

/-- While a call is at another check's record nothing happens to this one. -/
theorem advance_other (h : Sound i s) {pre post : List Recorder} {call call' : Recorder}
    {checks : List CheckState} (hrec : s.recorders = pre ++ call :: post)
    (hcall : call.under ≠ some i) (hcall' : call'.under ≠ some i)
    (hcheck : checks[i]? = s.runner.checks[i]?) : Sound i ⟨⟨checks⟩, pre ++ call' :: post⟩ := by
  have hmem : ∀ {a b c : Recorder}, a ∈ pre ++ b :: post → a = b ∨ a ∈ pre ++ c :: post :=
    fun ha => by
      simp only [List.mem_append, List.mem_cons] at ha ⊢
      tauto
  constructor
  · intro c hc hsettled
    refine h.told c (hcheck.symm.trans hc) fun a ha => ?_
    rcases hmem (hrec ▸ ha) with rfl | ha
    · exact hcall
    · exact hsettled a ha
  · intro c hc a ha result rest htodo hstage
    rcases hmem ha with rfl | ha
    · exact absurd (Recorder.under_eq_some_iff.mpr ⟨hstage, result, rest, htodo⟩) hcall'
    · exact h.finish c (hcheck.symm.trans hc) a (hrec ▸ ha) result rest htodo hstage

/-- A call that alone is at the check takes the record one step on. -/
theorem advance_self (h : Sound i s) {pre post : List Recorder} {stage : Stage}
    {result : CheckResult} {rest : List (Nat × CheckResult)} {c : CheckState}
    (hrec : s.recorders = pre ++ ⟨stage, (i, result) :: rest⟩ :: post)
    (hc : s.runner.checks[i]? = some c) (halone : ∀ call ∈ pre ++ post, call.under ≠ some i) :
    Sound i ⟨⟨s.runner.checks.set i (c.stepRecord result stage).1⟩,
      pre ++ ⟨(c.stepRecord result stage).2,
        if stage = .judged then rest else (i, result) :: rest⟩ :: post⟩ := by
  have hi : i < s.runner.checks.length := (List.getElem?_eq_some_iff.mp hc).1
  have hcall : (⟨stage, (i, result) :: rest⟩ : Recorder) ∈ s.recorders := by simp [hrec]
  have hmem : ∀ {a b : Recorder}, a ∈ pre ++ b :: post → a = b ∨ a ∈ pre ++ post := fun ha => by
    simp only [List.mem_append, List.mem_cons] at ha ⊢
    tauto
  have hdone : (c.finish result stage).Told := by
    by_cases hdue : stage = .due
    · subst hdue
      refine (h.told c hc fun a ha => ?_).recordResult result
      rcases hmem (hrec ▸ ha) with rfl | ha
      · exact fun hunder => (Recorder.under_eq_some_iff.mp hunder).1 rfl
      · exact halone a ha
    · exact h.finish c hc _ hcall result rest rfl hdue
  constructor
  · intro d hd hsettled
    rw [List.getElem?_set_self hi] at hd
    obtain rfl := Option.some.inj hd
    cases stage with
    | judged => exact hdone
    | _ =>
      exact absurd (Recorder.under_eq_some_iff.mpr ⟨(fun hdue => by cases hdue), result, rest, rfl⟩)
        (hsettled _ (List.mem_append_right _ List.mem_cons_self))
  · intro d hd a ha result' rest' htodo hstage
    rw [List.getElem?_set_self hi] at hd
    obtain rfl := Option.some.inj hd
    rcases hmem ha with rfl | ha
    · by_cases hjudged : stage = .judged
      · subst hjudged
        exact absurd rfl hstage
      · simp only [if_neg hjudged] at htodo
        cases htodo
        rwa [CheckState.finish_stepRecord c result hjudged]
    · exact absurd (Recorder.under_eq_some_iff.mpr ⟨hstage, result', rest', htodo⟩) (halone a ha)

theorem advance (h : Sound i s) (hone : Single i s) (hone' : Single i s') {k : Nat}
    (ha : s.advance k = some s') : Sound i s' := by
  obtain ⟨pre, post, stage, j, result, rest, c, hrec, -, hc, rfl⟩ := advance_cases ha
  have hunder : ∀ {stage : Stage} {todo}, todo = (j, result) :: rest ∨ stage = .due →
      (⟨stage, todo⟩ : Recorder).under = some i → j = i := by
    intro stage todo htodo hunder
    obtain ⟨hdue, result', rest', hat⟩ := Recorder.under_eq_some_iff.mp hunder
    rcases htodo with rfl | rfl
    · exact congrArg Prod.fst (List.cons.inj hat).1
    · exact absurd rfl hdue
  by_cases hj : j = i
  · subst hj
    refine h.advance_self hrec hc fun a hmem hat => ?_
    -- before the step or after it this call is at the check as well
    by_cases hdue : stage = .due
    · subst hdue
      exact hone'.alone rfl (Recorder.under_eq_some_iff.mpr ⟨nofun, result, rest, rfl⟩) a hmem hat
    · exact hone.alone hrec (Recorder.under_eq_some_iff.mpr ⟨hdue, result, rest, rfl⟩) a hmem hat
  · refine h.advance_other hrec (fun hat => hj (hunder (.inl rfl) hat))
      (fun hat => hj (hunder ?_ hat)) (List.getElem?_set_ne hj)
    cases stage with
    | judged => exact .inr rfl
    | _ => exact .inl rfl

theorem step (h : Sound i s) {past : List (Nat × CheckResult)} (hk : Kept s past)
    (hone : Single i s) (hone' : Single i s') {e : Event} (hs : HealthChecks.step s e = some s') :
    Sound i s' := by
  rcases step_cases hs with ⟨name, checkType, thresholds, rfl, rfl⟩ | ⟨k, rfl, ha⟩ | ⟨rfl, -⟩
  · exact h.addCheck hk.todo name checkType thresholds
  · exact h.advance hone hone' ha
  · exact h.call _

end Sound

variable {events : List Event} {s : State}

theorem run_kept (hx : exec step {} events = some s) :
    Kept s (gather step (fun s e => e.files s) {} events) :=
  exec_induction_gather (Q := Kept) hx Kept.nil fun _ _ _ _ hk hs => hk.step hs

/-- Where the records of a check never overlap, its state is told whenever none is under way. -/
theorem run_sound {i : Nat} (hx : exec step {} events = some s)
    (hone : Throughout step (Single i) {} events) : Sound i s := by
  have hboth : Single i s → Sound i s ∧ ∃ past, Kept s past := by
    refine hone.induction (Q := fun s => Single i s → Sound i s ∧ ∃ past, Kept s past) hx ?_ ?_
    · refine fun _ => ⟨⟨fun c hc => ?_, fun c hc => ?_⟩, [], Kept.nil⟩
      all_goals
        rw [List.getElem?_nil] at hc
        cases hc
    · intro s e s' hsingle hq hs hsingle'
      obtain ⟨hsound, past, hk⟩ := hq hsingle
      exact ⟨hsound.step hk hsingle hsingle' hs, _, hk.step hs⟩
  exact (hboth (hone.last hx)).1

section Summary

variable {r : HealthCheckRunner}

theorem unhealthy_add_healthy (r : HealthCheckRunner) :
    r.unhealthyChecks.length + r.checks.countP (·.healthy) = r.checks.length := by
  rw [HealthCheckRunner.unhealthyChecks, List.length_map, ← List.countP_eq_length_filter,
    Nat.add_comm, List.length_eq_countP_add_countP CheckState.healthy]
  simp only [Bool.not_eq_true, Bool.decide_eq_false]

theorem unhealthyCount_eq (r : HealthCheckRunner) :
    r.healthSummary.unhealthyCount = r.unhealthyChecks.length :=
  Nat.sub_eq_of_eq_add (unhealthy_add_healthy r).symm

theorem mem_unhealthyChecks (htold : ∀ c ∈ r.checks, c.Told) {name : String} :
    name ∈ r.unhealthyChecks ↔ ∃ c ∈ r.checks, c.name = name ∧ c.Failing := by
  simp only [HealthCheckRunner.unhealthyChecks, List.mem_map, List.mem_filter, Bool.not_eq_true']
  constructor
  · rintro ⟨c, ⟨hc, hdown⟩, rfl⟩
    exact ⟨c, hc, rfl, (htold c hc).flag.mp hdown⟩
  · rintro ⟨c, hc, rfl, hfailing⟩
    exact ⟨c, ⟨hc, (htold c hc).flag.mpr hfailing⟩, rfl⟩

theorem overallHealth_iff (htold : ∀ c ∈ r.checks, c.Told) :
    r.overallHealth = true ↔ ∀ c ∈ r.checks, ¬ c.Failing := by
  rw [HealthCheckRunner.overallHealth, List.all_eq_true]
  exact forall₂_congr fun c hc => by rw [← (htold c hc).flag, Bool.not_eq_false]

theorem summary_overallHealthy (r : HealthCheckRunner) :
    r.healthSummary.overallHealthy = r.overallHealth := by
  change (r.healthSummary.unhealthyCount == 0) = _
  rw [Bool.eq_iff_iff, unhealthyCount_eq, beq_iff_eq, List.length_eq_zero_iff,
    HealthCheckRunner.unhealthyChecks, List.map_eq_nil_iff, List.filter_eq_nil_iff,
    HealthCheckRunner.overallHealth, List.all_eq_true]
  exact forall₂_congr fun c _ => by rw [Bool.not_eq_true', ← Bool.not_eq_true, not_not]

end Summary

/-- Whatever overlaps, each record is filed once, in its own check's history. Where the records of a
check do not overlap, its health and its counters are said by the history whenever none is under
way, and those of the whole runner by the histories. -/
theorem health_from_history (hx : exec step {} events = some s) :
    let r := s.runner
    let filed := gather step (fun s e => e.files s) {} events
    (gather step (fun s e => e.records s) {} events).Perm
      (filed ++ s.recorders.flatMap (·.todo)) ∧
    (∀ record ∈ filed, record.1 < r.checks.length) ∧
    (∀ i c, r.checks[i]? = some c → c.history = received filed i) ∧
    (∀ name, r.checkHistory name =
      ((r.checks.findIdx? (·.name == name)).map (received filed)).getD []) ∧
    (∀ i c, r.checks[i]? = some c → Throughout step (Single i) {} events → Settled i s → c.Told) ∧
    ((∀ i, Throughout step (Single i) {} events ∧ Settled i s) →
      (∀ name, name ∈ r.unhealthyChecks ↔ ∃ c ∈ r.checks, c.name = name ∧ c.Failing) ∧
      (r.overallHealth = true ↔ ∀ c ∈ r.checks, ¬ c.Failing) ∧
      r.healthSummary.overallHealthy = r.overallHealth ∧
      r.healthSummary.unhealthyCount = r.unhealthyChecks.length ∧
      r.healthSummary.healthyCount + r.healthSummary.unhealthyCount = r.checks.length) := by
  intro r filed
  have hkept : Kept s filed := run_kept hx
  have htold : ∀ i c, r.checks[i]? = some c → Throughout step (Single i) {} events →
      Settled i s → c.Told := fun i c hc hone => (run_sound hx hone).told c hc
  refine ⟨?_, hkept.filed, hkept.histories, hkept.checkHistory, htold, fun hall => ?_⟩
  · have hperm := records_perm hx
    rwa [List.flatMap_nil, List.append_nil] at hperm
  · have heach : ∀ c ∈ r.checks, c.Told := fun c hc => by
      obtain ⟨i, hi⟩ := List.mem_iff_getElem?.mp hc
      exact htold i c hi (hall i).1 (hall i).2
    refine ⟨fun name => mem_unhealthyChecks heach, overallHealth_iff heach,
      summary_overallHealthy r, unhealthyCount_eq r, ?_⟩
    rw [unhealthyCount_eq, Nat.add_comm]
    exact unhealthy_add_healthy r

/-- Two probes of one check, one after the other, while reports of another come in. -/
def twoChecks : List Event :=
  [.addCheck "front" (.http "http://front/up" 200 500) ⟨1, 2⟩, .addCheck "jobs" (.custom "jobs") {},
    .runTask 0 ⟨some (.ok 503), 3, 100⟩, .recordCustom "jobs" false 9 "stuck" 100,
    .advance 0, .advance 1, .advance 1, .advance 0, .advance 0, .advance 1, .advance 0,
    .runTask 0 ⟨none, 500, 160⟩, .advance 2, .advance 1, .advance 2, .advance 2, .advance 2,
    .recordCustom "jobs" true 4 "idle" 170, .advance 3, .advance 3, .advance 3, .advance 3]

theorem health_from_history_twoChecks : ∃ s, exec step {} twoChecks = some s ∧
    s.runner.unhealthyChecks = ["front"] ∧ s.runner.overallHealth = false ∧
    (∃ c ∈ s.runner.checks, c.name = "front" ∧ c.Failing) ∧
    ¬ ∃ c ∈ s.runner.checks, c.name = "jobs" ∧ c.Failing := by
  have hrun : ((exec step {} twoChecks).any fun s =>
      s.runner.unhealthyChecks == ["front"] && !s.runner.overallHealth &&
        s.recorders.all (·.under == none)) = true := by decide +kernel
  have hapart : Throughout step (fun s => s.recorders.Pairwise fun a b =>
      a.under = none ∨ a.under ≠ b.under) {} twoChecks := by decide +kernel
  obtain ⟨s, hx, hs⟩ := (Option.any_eq_true _ _).mp hrun
  simp only [Bool.and_eq_true, beq_iff_eq, List.all_eq_true, Bool.not_eq_true'] at hs
  obtain ⟨⟨hfront, hdown⟩, hsettled⟩ := hs
  have hall : ∀ i, Throughout step (Single i) {} twoChecks ∧ Settled i s := fun i => by
    refine ⟨hapart.imp fun s hs => hs.imp fun hab hat => ?_, fun call hcall hat => ?_⟩
    · rcases hab with hnone | hne
      · exact nomatch hnone.symm.trans hat.1
      · exact hne (hat.1.trans hat.2.symm)
    · exact nomatch (hsettled call hcall).symm.trans hat
  obtain ⟨hnames, -⟩ := (health_from_history hx).2.2.2.2.2 hall
  refine ⟨s, hx, hfront, hdown, (hnames "front").mp ?_, fun hjobs => ?_⟩
  · rw [hfront]
    exact List.mem_singleton_self _
  · have hmem := (hnames "jobs").mpr hjobs
    rw [hfront] at hmem
    exact absurd hmem (by decide)

/-- A failure whose flag comes after that of the success filed behind it. -/
def overlapping : List Event :=
  [.addCheck "jobs" (.custom "jobs") ⟨1, 1⟩, .recordCustom "jobs" false 9 "stuck" 100,
    .recordCustom "jobs" true 4 "idle" 100, .advance 0, .advance 0, .advance 1, .advance 1,
    .advance 1, .advance 0, .advance 0, .advance 1]

/-- Records that overlap may leave a check unhealthy whose last result was enough to be healthy. -/
theorem overlapping_misleads : ∃ s, exec step {} overlapping = some s ∧
    (s.runner.checkHistory "jobs").map (·.success) = [false, true] ∧
    s.runner.overallHealth = false ∧ ∀ call ∈ s.recorders, call.todo = [] := by
  have hrun : ((exec step {} overlapping).any fun s =>
      (s.runner.checkHistory "jobs").map (·.success) == [false, true] &&
        !s.runner.overallHealth && s.recorders.all (·.todo.isEmpty)) = true := by decide +kernel
  obtain ⟨s, hx, hs⟩ := (Option.any_eq_true _ _).mp hrun
  simp only [Bool.and_eq_true, beq_iff_eq, List.all_eq_true, Bool.not_eq_true',
    List.isEmpty_iff] at hs
  exact ⟨s, hx, hs.1.1, hs.1.2, hs.2⟩

section RunAll

variable {r : HealthCheckRunner} {replies : Nat → Reply} {order : List Nat}

/-- A task probes its check as it stands, and no other task changes that. -/
theorem getElem?_runTask (r : HealthCheckRunner) (i j : Nat) (reply : Reply) :
    (r.runTask i reply).checks[j]? = if i = j then (r.checks[j]?).map fun c =>
      if c.checkType.isCustom then c else c.recordResult (probe c reply) else r.checks[j]? := by
  unfold HealthCheckRunner.runTask HealthCheckRunner.probed
  cases hc : r.checks[i]? with
  | none =>
    simp only [Option.filter_none, Option.map_none]
    split
    · rename_i hij
      rw [← hij, hc, Option.map_none]
    · rfl
  | some c =>
    cases hcustom : c.checkType.isCustom with
    | true =>
      simp only [Option.filter_some, hcustom, Bool.not_true, Bool.false_eq_true, if_false,
        Option.map_none]
      split
      · rename_i hij
        rw [← hij, hc, Option.map_some, hcustom, if_pos rfl]
      · rfl
    | false =>
      simp only [Option.filter_some, hcustom, Bool.not_false, if_true, Option.map_some,
        HealthCheckRunner.record, List.getElem?_modify]
      split
      · rename_i hij
        rw [← hij, hc]
        simp [hcustom]
      · simp

theorem getElem?_runTasks (hnodup : order.Nodup) (j : Nat) :
    (order.foldl (fun r i => r.runTask i (replies i)) r).checks[j]? =
      if j ∈ order then (r.checks[j]?).map fun c =>
        if c.checkType.isCustom then c else c.recordResult (probe c (replies j))
      else r.checks[j]? := by
  induction order generalizing r with
  | nil => rfl
  | cons i order ih =>
    obtain ⟨hi, hnodup⟩ := List.nodup_cons.mp hnodup
    rw [List.foldl_cons, ih hnodup, getElem?_runTask]
    by_cases hij : i = j
    · subst hij
      rw [if_neg hi, if_pos rfl, if_pos List.mem_cons_self]
    · rw [if_neg hij]
      refine if_congr ?_ rfl rfl
      rw [List.mem_cons, or_iff_right (Ne.symm hij)]

theorem mem_tasks_iff {i : Nat} :
    i ∈ r.tasks ↔ ∃ c, r.checks[i]? = some c ∧ c.checkType.isCustom = false := by
  rw [HealthCheckRunner.tasks, List.mem_filter, List.mem_range, Option.any_eq_true]
  constructor
  · rintro ⟨-, c, hc, hprobed⟩
    exact ⟨c, hc, by simpa using hprobed⟩
  · rintro ⟨c, hc, hprobed⟩
    exact ⟨(List.getElem?_eq_some_iff.mp hc).1, c, hc, by rw [hprobed]; rfl⟩

theorem tasks_sorted (r : HealthCheckRunner) : r.tasks.Pairwise (· < ·) :=
  List.pairwise_lt_range.filter _

theorem fst_of_probed {i : Nat} {reply : Reply} {entry : Nat × CheckResult}
    (h : r.probed i reply = some entry) : entry.1 = i := by
  obtain ⟨c, -, rfl⟩ := Option.map_eq_some_iff.mp h
  rfl

theorem probed_of_mem_tasks {i : Nat} (hi : i ∈ r.tasks) (reply : Reply) :
    r.probed i reply = (r.checks[i]?).map fun c => (i, probe c reply) := by
  obtain ⟨c, hc, hcustom⟩ := mem_tasks_iff.mp hi
  rw [HealthCheckRunner.probed, hc, Option.filter_some, hcustom, Bool.not_false, if_pos rfl]

/-- The sort after the joins undoes their order. -/
theorem sort_joined (r : HealthCheckRunner) (replies : Nat → Reply) {joined : List Nat}
    (hjoined : joined.Perm r.tasks) :
    (joined.filterMap fun i => r.probed i (replies i)).insertionSort (·.1 ≤ ·.1) =
      r.tasks.filterMap fun i => r.probed i (replies i) := by
  have hsame : ∀ {l : List Nat} {entry : Nat × CheckResult},
      (entry ∈ l.filterMap fun i => r.probed i (replies i)) →
        r.probed entry.1 (replies entry.1) = some entry := fun hentry => by
    obtain ⟨i, -, hi⟩ := List.mem_filterMap.mp hentry
    rwa [fst_of_probed hi]
  refine @List.Perm.eq_of_pairwise _ (fun a b => a.1 ≤ b.1) _ _ ?_ ?_ ?_ ?_
  · intro a b ha hb hab hba
    have hb' := hsame hb
    rw [← Nat.le_antisymm hab hba, hsame (List.mem_insertionSort _ |>.mp ha)] at hb'
    exact Option.some.inj hb'
  · exact List.pairwise_insertionSort _ _
  · refine List.pairwise_filterMap.mpr ((tasks_sorted r).imp fun hij a ha b hb => ?_)
    rw [fst_of_probed ha, fst_of_probed hb]
    exact hij.le
  · exact (List.perm_insertionSort _ _).trans (hjoined.filterMap _)

/-- Whatever the orders that the tasks of `run_all` end in and are joined in, its results stand
in the order of registration, and each check that has a task records its own one. -/
theorem runAll_any_order (r : HealthCheckRunner) (replies : Nat → Reply)
    {recorded joined : List Nat} (hrecorded : recorded.Perm r.tasks)
    (hjoined : joined.Perm r.tasks) :
    r.runAll replies recorded joined =
      (r.tasks.filterMap fun i => (r.checks[i]?).map fun c => probe c (replies i),
        { checks := r.checks.mapIdx fun i c =>
            if c.checkType.isCustom then c else c.recordResult (probe c (replies i)) }) := by
  refine Prod.ext ?_ (congrArg HealthCheckRunner.mk (List.ext_getElem? fun j => ?_))
  · simp only [HealthCheckRunner.runAll, sort_joined r replies hjoined, List.map_filterMap]
    refine List.filterMap_congr fun i hi => ?_
    rw [probed_of_mem_tasks hi, Option.map_map]
    rfl
  · have hnodup : recorded.Nodup := hrecorded.nodup_iff.mpr ((tasks_sorted r).imp Nat.ne_of_lt)
    rw [getElem?_runTasks hnodup, List.getElem?_mapIdx]
    split
    · rfl
    · rename_i hj
      cases hc : r.checks[j]? with
      | none => rfl
      | some c =>
        have hcustom : c.checkType.isCustom = true := by
          by_contra hprobed
          exact hj (hrecorded.mem_iff.mpr (mem_tasks_iff.mpr ⟨c, hc, by simpa using hprobed⟩))
        rw [Option.map_some, hcustom, if_pos rfl]

theorem runAll_any_order_two :
    let r := ((HealthCheckRunner.addCheck {} "front" (.http "http://front/up" 200 500) {}).addCheck
      "jobs" (.custom "jobs") {}).addCheck "store" (.tcp "store" 5432 500) {}
    (r.runAll (fun _ => ⟨some (.ok 200), 3, 100⟩) [2, 0] [0, 2]).1.map (·.checkName) =
      ["front", "store"] := by
  intro r
  rw [runAll_any_order r _ (by decide) (by decide)]
  rfl

end RunAll

end HelixRouter.HealthChecks
