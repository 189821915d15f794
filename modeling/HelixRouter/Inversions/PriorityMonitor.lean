import HelixRouter.Containers.IterationOrder
import HelixRouter.Containers.Retain

namespace HelixRouter.Inversions

inductive Priority where
  | low
  | normal
  | high
  | critical
  deriving DecidableEq

def Priority.level : Priority → Nat
  | low => 0
  | normal => 1
  | high => 2
  | critical => 3

theorem Priority.eq_high_or_critical {p : Priority} (h : Priority.high.level ≤ p.level) :
    p = .high ∨ p = .critical := by
  cases p
  · exact absurd h (by decide)
  · exact absurd h (by decide)
  · exact .inl rfl
  · exact .inr rfl

theorem Priority.lt_high_of_lt_critical {p : Priority} (h : p.level < Priority.critical.level)
    (hne : p ≠ .high) : p.level < Priority.high.level := by
  cases p
  · decide
  · decide
  · exact absurd rfl hne
  · exact absurd h (by decide)

theorem Priority.level_le_critical (p : Priority) : p.level ≤ Priority.critical.level := by
  cases p <;> decide

inductive InversionAction where
  | escalate
  | preempt
  deriving DecidableEq

structure PriorityMonitorConfig where
  inversionThresholdMs : Nat := 100
  defaultAction : InversionAction := .escalate
  maxInversionsPerTick : Nat := 10

structure InversionEvent where
  highJobId : UInt64
  highPriority : Priority
  waitingMs : UInt64
  lowBlockerId : UInt64
  lowPriority : Priority
  blockerRunningMs : UInt64
  action : InversionAction
  deriving DecidableEq

/-- Times are in nanoseconds. -/
structure InFlightJob where
  priority : Priority
  registeredAt : Nat
  effectivePriority : Priority

abbrev Entry := Σ _ : UInt64, InFlightJob

def nanosPerMilli : Nat := 1000000

def PriorityMonitorConfig.threshold (cfg : PriorityMonitorConfig) : Nat :=
  cfg.inversionThresholdMs * nanosPerMilli

def millis (nanos : Nat) : UInt64 := UInt64.ofNat (nanos / nanosPerMilli)

structure MonitorState where
  cfg : PriorityMonitorConfig
  jobs : AList (fun _ : UInt64 => InFlightJob) := ∅
  totalInversionsDetected : Nat := 0
  totalEscalations : Nat := 0
  totalPreemptions : Nat := 0

namespace MonitorState

def register (s : MonitorState) (id : UInt64) (priority : Priority) (now : Nat) : MonitorState :=
  { s with jobs := s.jobs.insert id ⟨priority, now, priority⟩ }

def complete (s : MonitorState) (id : UInt64) : MonitorState :=
  { s with jobs := s.jobs.erase id }

def escalated (job : InFlightJob) : InFlightJob := { job with effectivePriority := .critical }

def escalateJob (jobs : AList (fun _ : UInt64 => InFlightJob)) (id : UInt64) :
    AList (fun _ : UInt64 => InFlightJob) :=
  match jobs.lookup id with
  | some job => jobs.insert id (escalated job)
  | none => jobs

/-- What a tick does for one inversion, apart from reporting it. -/
def resolve (s : MonitorState) (id : UInt64) : MonitorState :=
  match s.cfg.defaultAction with
  | .escalate =>
    { s with
      totalInversionsDetected := s.totalInversionsDetected + 1
      jobs := escalateJob s.jobs id
      totalEscalations := s.totalEscalations + 1 }
  | .preempt =>
    { s with
      totalInversionsDetected := s.totalInversionsDetected + 1
      totalPreemptions := s.totalPreemptions + 1 }

/-- Whether `lo` is below the effective priority of `hi` and has run for as long. -/
def holdsUp (now : Nat) (hi lo : Entry) : Bool :=
  lo.1 ≠ hi.1 && lo.2.priority.level < hi.2.effectivePriority.level &&
    lo.2.registeredAt ≤ hi.2.registeredAt &&
    now - hi.2.registeredAt ≤ now - lo.2.registeredAt

def inversionEvent (action : InversionAction) (now : Nat) (hi lo : Entry) : InversionEvent where
  highJobId := hi.1
  highPriority := hi.2.priority
  waitingMs := millis (now - hi.2.registeredAt)
  lowBlockerId := lo.1
  lowPriority := lo.2.priority
  blockerRunningMs := millis (now - lo.2.registeredAt)
  action := action

/-- The loop over the jobs of the snapshot, with the events found so far. -/
def scan (now : Nat) (snapshot : List Entry) :
    List Entry → List InversionEvent → MonitorState → List InversionEvent × MonitorState
  | [], events, s => (events, s)
  | hi :: rest, events, s =>
    if hi.2.priority.level < Priority.high.level then scan now snapshot rest events s
    else if now - hi.2.registeredAt < s.cfg.threshold then scan now snapshot rest events s
    else
      match snapshot.find? (holdsUp now hi) with
      | none => scan now snapshot rest events s
      | some lo =>
        let events := events ++ [inversionEvent s.cfg.defaultAction now hi lo]
        let s := s.resolve hi.1
        if s.cfg.maxInversionsPerTick ≤ events.length then (events, s)
        else scan now snapshot rest events s

def detectInversions (s : MonitorState) (order : IterationOrder Entry) (now : Nat) :
    List InversionEvent × MonitorState :=
  let jobsSnapshot := order.arrange s.jobs.entries
  scan now jobsSnapshot jobsSnapshot [] s

end MonitorState

/-- A job of at least High priority has waited for the threshold while one of strictly lower
priority was registered no later. -/
structure Blocks (threshold now : Nat) (lo hi : InFlightJob) : Prop where
  high : Priority.high.level ≤ hi.priority.level
  below : lo.priority.level < hi.priority.level
  earlier : lo.registeredAt ≤ hi.registeredAt
  waited : threshold ≤ now - hi.registeredAt

namespace MonitorState

variable (s : MonitorState) (now : Nat)

def Blocked (id : UInt64) : Prop :=
  ∃ hi loId lo, s.jobs.lookup id = some hi ∧ s.jobs.lookup loId = some lo ∧
    Blocks s.cfg.threshold now lo hi

/-- An event names two jobs in flight, of which one blocks the other. -/
def Real (e : InversionEvent) : Prop :=
  ∃ hi lo, s.jobs.lookup e.highJobId = some hi ∧ s.jobs.lookup e.lowBlockerId = some lo ∧
    e.highPriority = hi.priority ∧ e.lowPriority = lo.priority ∧ Blocks s.cfg.threshold now lo hi

/-- What a tick returns is real, and complete where it is below the maximum. -/
structure TickFaithful (events : List InversionEvent) : Prop where
  real : ∀ e ∈ events, s.Real now e
  complete : events.length < s.cfg.maxInversionsPerTick →
    ∀ id, s.Blocked now id → (events.map (·.highJobId)).count id = 1

variable {s now} {cfg : PriorityMonitorConfig} {snapshot jobs : List Entry} {hi lo : Entry}
  {events : List InversionEvent} {e : InversionEvent} {id k : UInt64}

/-- The event a job of the snapshot is reported with, if it is. -/
def reportOf (cfg : PriorityMonitorConfig) (now : Nat) (snapshot : List Entry) (hi : Entry) :
    Option InversionEvent :=
  if hi.2.priority.level < Priority.high.level then none
  else if now - hi.2.registeredAt < cfg.threshold then none
  else (snapshot.find? (holdsUp now hi)).map (inversionEvent cfg.defaultAction now hi)

def resolveAll (s : MonitorState) (events : List InversionEvent) : MonitorState :=
  events.foldl (fun s e => s.resolve e.highJobId) s

theorem resolve_cfg : (s.resolve id).cfg = s.cfg := by
  unfold resolve
  cases s.cfg.defaultAction <;> rfl

theorem lookup_escalateJob (jobs : AList fun _ : UInt64 => InFlightJob) :
    (escalateJob jobs id).lookup k =
      if k = id then (jobs.lookup k).map escalated else jobs.lookup k := by
  unfold escalateJob
  by_cases hk : k = id
  · subst hk
    cases hjob : jobs.lookup k <;> simp [hjob]
  · cases jobs.lookup id <;> simp [hk]

theorem lookup_resolve : (s.resolve id).jobs.lookup k =
    if s.cfg.defaultAction = .escalate ∧ k = id then (s.jobs.lookup k).map escalated
    else s.jobs.lookup k := by
  unfold resolve
  cases haction : s.cfg.defaultAction with
  | preempt => simp
  | escalate => simp [lookup_escalateJob]

theorem resolveAll_cfg : (s.resolveAll events).cfg = s.cfg := by
  induction events generalizing s with
  | nil => rfl
  | cons e events ih => exact (@ih (s.resolve e.highJobId)).trans resolve_cfg

theorem lookup_resolveAll : (s.resolveAll events).jobs.lookup k =
    if s.cfg.defaultAction = .escalate ∧ k ∈ events.map (·.highJobId) then
      (s.jobs.lookup k).map escalated
    else s.jobs.lookup k := by
  induction events generalizing s with
  | nil => simp [resolveAll]
  | cons e events ih =>
    change ((s.resolve e.highJobId).resolveAll events).jobs.lookup k = _
    rw [ih, resolve_cfg, lookup_resolve]
    by_cases haction : s.cfg.defaultAction = .escalate
    · by_cases hk : k = e.highJobId
      · subst hk
        cases s.jobs.lookup e.highJobId <;> simp [haction, escalated]
      · simp [haction, hk]
    · simp [haction]

/-- The scan cuts the reports off at the maximum. -/
theorem scan_eq (hroom : events.length < s.cfg.maxInversionsPerTick) :
    scan now snapshot jobs events s =
      (events ++ (jobs.filterMap (reportOf s.cfg now snapshot)).take
          (s.cfg.maxInversionsPerTick - events.length),
        s.resolveAll ((jobs.filterMap (reportOf s.cfg now snapshot)).take
          (s.cfg.maxInversionsPerTick - events.length))) := by
  induction jobs generalizing events s with
  | nil => simp [scan, resolveAll]
  | cons hi jobs ih =>
    rw [scan, List.filterMap_cons]
    by_cases hlow : hi.2.priority.level < Priority.high.level
    · rw [if_pos hlow, ih hroom, reportOf, if_pos hlow]
    by_cases hfresh : now - hi.2.registeredAt < s.cfg.threshold
    · rw [if_neg hlow, if_pos hfresh, ih hroom, reportOf, if_neg hlow, if_pos hfresh]
    rw [if_neg hlow, if_neg hfresh, reportOf, if_neg hlow, if_neg hfresh]
    cases hfind : snapshot.find? (holdsUp now hi) with
    | none => exact ih hroom
    | some lo =>
      have hsplit : s.cfg.maxInversionsPerTick - events.length =
          s.cfg.maxInversionsPerTick - (events.length + 1) + 1 := by omega
      simp only [Option.map_some, List.length_append, List.length_singleton, resolve_cfg]
      rw [hsplit, List.take_succ_cons]
      split
      · rename_i hfull
        rw [Nat.sub_eq_zero_of_le hfull]
        rfl
      · rename_i hroom'
        have hrest := @ih (s.resolve hi.1)
          (events ++ [inversionEvent s.cfg.defaultAction now hi lo])
          (by simpa [resolve_cfg] using hroom')
        rw [resolve_cfg, List.length_append, List.length_singleton, List.append_assoc] at hrest
        exact hrest

variable {order : IterationOrder Entry}

/-- The reports of a tick, in the order the jobs are walked in. -/
def reports (s : MonitorState) (order : IterationOrder Entry) (now : Nat) : List InversionEvent :=
  ((order.arrange s.jobs.entries).filterMap
    (reportOf s.cfg now (order.arrange s.jobs.entries))).take s.cfg.maxInversionsPerTick

theorem detectInversions_eq (hmax : 1 ≤ s.cfg.maxInversionsPerTick) :
    s.detectInversions order now = (s.reports order now, s.resolveAll (s.reports order now)) :=
  scan_eq hmax

theorem reportOf_eq_some : reportOf s.cfg now snapshot hi = some e ↔
    Priority.high.level ≤ hi.2.priority.level ∧ s.cfg.threshold ≤ now - hi.2.registeredAt ∧
      ∃ lo, snapshot.find? (holdsUp now hi) = some lo ∧
        inversionEvent s.cfg.defaultAction now hi lo = e := by
  unfold reportOf
  split
  · simp
    omega
  · split
    · simp
      omega
    · rename_i hlow hfresh
      rw [and_iff_right (Nat.not_lt.mp hlow), and_iff_right (Nat.not_lt.mp hfresh),
        Option.map_eq_some_iff]

theorem holdsUp_iff : holdsUp now hi lo = true ↔
    lo.1 ≠ hi.1 ∧ lo.2.priority.level < hi.2.effectivePriority.level ∧
      lo.2.registeredAt ≤ hi.2.registeredAt := by
  unfold holdsUp
  simp only [Bool.and_eq_true, decide_eq_true_eq]
  constructor
  · rintro ⟨⟨⟨hne, hbelow⟩, hearlier⟩, -⟩
    exact ⟨hne, hbelow, hearlier⟩
  · rintro ⟨hne, hbelow, hearlier⟩
    exact ⟨⟨⟨hne, hbelow⟩, hearlier⟩, Nat.sub_le_sub_left hearlier now⟩

/-- A report names two jobs of the map; only the priority of the blocker is held against the
effective one of the other. -/
theorem of_mem_reports (h : e ∈ s.reports order now) :
    ∃ hi lo, s.jobs.lookup e.highJobId = some hi ∧ s.jobs.lookup e.lowBlockerId = some lo ∧
      e.highPriority = hi.priority ∧ e.lowPriority = lo.priority ∧
      Priority.high.level ≤ hi.priority.level ∧ s.cfg.threshold ≤ now - hi.registeredAt ∧
      e.lowBlockerId ≠ e.highJobId ∧ lo.priority.level < hi.effectivePriority.level ∧
      lo.registeredAt ≤ hi.registeredAt := by
  obtain ⟨hi, hmem, hreport⟩ := List.mem_filterMap.mp (List.mem_of_mem_take h)
  obtain ⟨hhigh, hwait, lo, hfind, rfl⟩ := reportOf_eq_some.mp hreport
  have hlo := order.mem_arrange.mp (List.mem_of_find?_eq_some hfind)
  obtain ⟨hne, hbelow, hearlier⟩ := holdsUp_iff.mp (List.find?_some hfind)
  exact ⟨hi.2, lo.2, AList.mem_lookup_iff.mpr (order.mem_arrange.mp hmem),
    AList.mem_lookup_iff.mpr hlo, rfl, rfl, hhigh, hwait, hne, hbelow, hearlier⟩

/-- A raised priority still leaves a strictly lower one below it. -/
theorem reportOf_of_blocked (hwalk : ∀ e : Entry, e ∈ snapshot ↔ e ∈ s.jobs.entries)
    {job : InFlightJob} (hjob : s.jobs.lookup id = some job) (hblocked : s.Blocked now id)
    (hraised : job.priority.level ≤ job.effectivePriority.level) :
    ∃ e, reportOf s.cfg now snapshot ⟨id, job⟩ = some e ∧ e.highJobId = id := by
  obtain ⟨hi, loId, lo, hhi, hlo, hblocks⟩ := hblocked
  obtain rfl := Option.some.inj (hjob.symm.trans hhi)
  have hne : loId ≠ id := by
    rintro rfl
    obtain rfl := Option.some.inj (hjob.symm.trans hlo)
    exact Nat.lt_irrefl _ hblocks.below
  have hholds : holdsUp now ⟨id, job⟩ ⟨loId, lo⟩ = true :=
    holdsUp_iff.mpr ⟨hne, Nat.lt_of_lt_of_le hblocks.below hraised, hblocks.earlier⟩
  cases hfind : snapshot.find? (holdsUp now ⟨id, job⟩) with
  | none =>
    have hmem := (hwalk _).mpr (AList.mem_lookup_iff.mp hlo)
    exact absurd hholds (by simpa using List.find?_eq_none.mp hfind _ hmem)
  | some found =>
    exact ⟨_, reportOf_eq_some.mpr ⟨hblocks.high, hblocks.waited, found, hfind, rfl⟩, rfl⟩

theorem mem_reports_of_head (now : Nat) (hmax : 1 ≤ s.cfg.maxInversionsPerTick) {rest : List Entry}
    (hwalk : order.arrange s.jobs.entries = hi :: rest)
    (hreport : reportOf s.cfg now (order.arrange s.jobs.entries) hi = some e) :
    e ∈ s.reports order now := by
  unfold reports
  rw [hwalk, List.filterMap_cons, ← hwalk, hreport]
  obtain ⟨max, hsucc⟩ : ∃ max, s.cfg.maxInversionsPerTick = max + 1 :=
    ⟨_, (Nat.sub_add_cancel hmax).symm⟩
  rw [hsucc, List.take_succ_cons]
  exact List.mem_cons_self

theorem sublist_reported (jobs : List Entry) :
    ((jobs.filterMap (reportOf s.cfg now snapshot)).map (·.highJobId)).Sublist
      (jobs.map Sigma.fst) := by
  induction jobs with
  | nil => exact List.Sublist.refl _
  | cons hi jobs ih =>
    rw [List.filterMap_cons, List.map_cons]
    cases hreport : reportOf s.cfg now snapshot hi with
    | none => exact ih.cons _
    | some e =>
      obtain ⟨_, _, lo, _, rfl⟩ := reportOf_eq_some.mp hreport
      exact ih.cons_cons _

theorem reports_complete (hraised : ∀ id job, s.jobs.lookup id = some job →
      job.priority.level ≤ job.effectivePriority.level)
    (hroom : (s.reports order now).length < s.cfg.maxInversionsPerTick)
    (hblocked : s.Blocked now id) : ((s.reports order now).map (·.highJobId)).count id = 1 := by
  have hall : s.reports order now = (order.arrange s.jobs.entries).filterMap
      (reportOf s.cfg now (order.arrange s.jobs.entries)) := by
    unfold reports at hroom ⊢
    rw [List.length_take] at hroom
    exact List.take_of_length_le (by omega)
  have hkeys : ((order.arrange s.jobs.entries).map Sigma.fst).Nodup :=
    ((order.perm s.jobs.entries).map Sigma.fst).nodup_iff.mpr s.jobs.nodupKeys
  rw [hall]
  refine List.count_eq_one_of_mem ((sublist_reported _).nodup hkeys) ?_
  obtain ⟨job, loId, lo, hjob, hrest⟩ := hblocked
  obtain ⟨e, hreport, hid⟩ := reportOf_of_blocked (fun e => order.mem_arrange) hjob
    ⟨job, loId, lo, hjob, hrest⟩ (hraised id job hjob)
  refine List.mem_map.mpr ⟨e, List.mem_filterMap.mpr ⟨⟨id, job⟩, ?_, hreport⟩, hid⟩
  exact order.mem_arrange.mpr (AList.mem_lookup_iff.mp hjob)

end MonitorState

end HelixRouter.Inversions
