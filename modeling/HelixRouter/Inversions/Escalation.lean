import HelixRouter.Inversions.PriorityMonitor
import Mathlib.Data.List.Induction
import Mathlib.Logic.Function.Basic

namespace HelixRouter.Inversions

inductive Call where
  | register (id : UInt64) (priority : Priority)
  | complete (id : UInt64)
  | detectInversions

structure Timed where
  now : Nat
  call : Call

/-- Whether a call puts a job into the map or takes it out. -/
def Call.Concerns (id : UInt64) : Call → Prop
  | .register other _ => other = id
  | .complete other => other = id
  | .detectInversions => False

def MonitorState.step (s : MonitorState) (order : IterationOrder Entry) (c : Timed) :
    MonitorState :=
  match c.call with
  | .register id priority => s.register id priority c.now
  | .complete id => s.complete id
  | .detectInversions => (s.detectInversions order c.now).2

/-- The state after some calls, of which each tick walks the map in an order of its own. -/
def after (cfg : PriorityMonitorConfig) (orders : Nat → IterationOrder Entry)
    (calls : List Timed) : MonitorState :=
  calls.zipIdx.foldl (fun s c => s.step (orders c.2) c.1) { cfg := cfg }

/-- Every tick of the run is faithful, whatever orders the map is walked in. -/
def Faithful (cfg : PriorityMonitorConfig) (calls : List Timed) : Prop :=
  ∀ orders before now rest, calls = before ++ ⟨now, .detectInversions⟩ :: rest →
    (after cfg orders before).TickFaithful now
      ((after cfg orders before).detectInversions (orders before.length) now).1

/-- The priority a job was last registered with and when, while it is in flight. -/
def registered (calls : List Timed) : UInt64 → Option (Priority × Nat) :=
  calls.foldl (fun jobs c =>
    match c.call with
    | .register id priority => Function.update jobs id (some (priority, c.now))
    | .complete id => Function.update jobs id none
    | .detectInversions => jobs) fun _ => none

/-- At some tick the job, in flight since then, was blocked. -/
def WasBlocked (cfg : PriorityMonitorConfig) (calls : List Timed) (id : UInt64)
    (priority : Priority) (registeredAt : Nat) : Prop :=
  ∃ first now between, calls = first ++ ⟨now, .detectInversions⟩ :: between ∧
    (∀ c ∈ between, ¬c.call.Concerns id) ∧
    registered first id = some (priority, registeredAt) ∧
    Priority.high.level ≤ priority.level ∧ cfg.threshold ≤ now - registeredAt ∧
    ∃ blocker lesser blockerAt, registered first blocker = some (lesser, blockerAt) ∧
      lesser.level < priority.level ∧ blockerAt ≤ registeredAt

/-- A High job that was blocked at one tick is at a later one in flight beside another High job
that was registered no later. -/
def PeersAfterInversion (cfg : PriorityMonitorConfig) (calls : List Timed) : Prop :=
  ∃ before now rest id registeredAt, calls = before ++ ⟨now, .detectInversions⟩ :: rest ∧
    WasBlocked cfg before id .high registeredAt ∧
    ∃ peer peerAt, peer ≠ id ∧ registered before peer = some (.high, peerAt) ∧
      peerAt ≤ registeredAt

section Runs

variable {cfg : PriorityMonitorConfig} {orders : Nat → IterationOrder Entry} {calls : List Timed}
  {c : Timed} {id : UInt64} {job : InFlightJob} {priority : Priority} {registeredAt now : Nat}

theorem after_concat : after cfg orders (calls ++ [c]) =
    (after cfg orders calls).step (orders calls.length) c := by
  unfold after
  rw [List.zipIdx_append, List.foldl_append]
  simp

theorem registered_concat : registered (calls ++ [c]) =
    match c.call with
    | .register id priority => Function.update (registered calls) id (some (priority, c.now))
    | .complete id => Function.update (registered calls) id none
    | .detectInversions => registered calls := by
  unfold registered
  rw [List.foldl_append]
  rfl

theorem registered_other (h : ¬c.call.Concerns id) :
    registered (calls ++ [c]) id = registered calls id := by
  rw [registered_concat]
  cases hcall : c.call with
  | register other priority =>
    rw [hcall] at h
    exact Function.update_of_ne (Ne.symm h) _ _
  | complete other =>
    rw [hcall] at h
    exact Function.update_of_ne (Ne.symm h) _ _
  | detectInversions => rfl

theorem step_detect (s : MonitorState) (order : IterationOrder Entry)
    (hmax : 1 ≤ s.cfg.maxInversionsPerTick) :
    s.step order ⟨now, .detectInversions⟩ = s.resolveAll (s.reports order now) :=
  congrArg Prod.snd (MonitorState.detectInversions_eq hmax)

theorem after_cfg (hmax : 1 ≤ cfg.maxInversionsPerTick) : (after cfg orders calls).cfg = cfg := by
  induction calls using List.reverseRecOn with
  | nil => rfl
  | append_singleton calls c ih =>
    rw [after_concat]
    obtain ⟨now, call⟩ := c
    cases call with
    | register id priority => exact ih
    | complete id => exact ih
    | detectInversions =>
      rw [step_detect _ _ (by rwa [ih])]
      exact MonitorState.resolveAll_cfg.trans ih

/-- Ticks change no priority and no time of registration. -/
theorem registered_eq (orders : Nat → IterationOrder Entry)
    (hmax : 1 ≤ cfg.maxInversionsPerTick) (id : UInt64) :
    registered calls id = ((after cfg orders calls).jobs.lookup id).map
      fun job => (job.priority, job.registeredAt) := by
  induction calls using List.reverseRecOn with
  | nil => rfl
  | append_singleton calls c ih =>
    rw [after_concat, registered_concat]
    obtain ⟨now, call⟩ := c
    cases call with
    | register other priority =>
      change Function.update (registered calls) other _ id =
        (((after cfg orders calls).jobs.insert other _).lookup id).map _
      rw [Function.update_apply]
      split
      · rename_i hid
        rw [hid, AList.lookup_insert]
        rfl
      · rename_i hid
        rw [AList.lookup_insert_ne hid]
        exact ih
    | complete other =>
      change Function.update (registered calls) other _ id =
        (((after cfg orders calls).jobs.erase other).lookup id).map _
      rw [Function.update_apply]
      split
      · rename_i hid
        rw [hid, AList.lookup_erase]
        rfl
      · rename_i hid
        rw [AList.lookup_erase_ne hid]
        exact ih
    | detectInversions =>
      rw [step_detect _ _ (by rwa [after_cfg hmax]), MonitorState.lookup_resolveAll]
      dsimp only
      split
      · rw [Option.map_map]
        exact ih
      · exact ih

theorem lookup_of_registered (orders : Nat → IterationOrder Entry)
    (hmax : 1 ≤ cfg.maxInversionsPerTick)
    (h : registered calls id = some (priority, registeredAt)) :
    ∃ job, (after cfg orders calls).jobs.lookup id = some job ∧ job.priority = priority ∧
      job.registeredAt = registeredAt := by
  rw [registered_eq orders hmax] at h
  obtain ⟨job, hjob, hpair⟩ := Option.map_eq_some_iff.mp h
  exact ⟨job, hjob, congrArg Prod.fst hpair, congrArg Prod.snd hpair⟩

theorem registered_append {between : List Timed} (hbetween : ∀ c ∈ between, ¬c.call.Concerns id) :
    registered (calls ++ between) id = registered calls id := by
  induction between using List.reverseRecOn with
  | nil => rw [List.append_nil]
  | append_singleton between c ih =>
    rw [← List.append_assoc, registered_other (hbetween c (by simp))]
    exact ih fun d hd => hbetween d (List.mem_append_left _ hd)

theorem WasBlocked.still (h : WasBlocked cfg calls id priority registeredAt) :
    registered calls id = some (priority, registeredAt) ∧
      ∃ c ∈ calls, cfg.threshold ≤ c.now - registeredAt := by
  obtain ⟨first, now, between, rfl, hbetween, hid, -, hwaited, -⟩ := h
  refine ⟨?_, ⟨now, .detectInversions⟩, by simp, hwaited⟩
  have hcut : first ++ (⟨now, .detectInversions⟩ : Timed) :: between =
      first ++ [⟨now, .detectInversions⟩] ++ between := by simp
  rw [hcut, registered_append hbetween,
    registered_other (c := ⟨now, .detectInversions⟩) not_false]
  exact hid

theorem WasBlocked.concat (h : WasBlocked cfg calls id priority registeredAt)
    (hc : ¬c.call.Concerns id) : WasBlocked cfg (calls ++ [c]) id priority registeredAt := by
  obtain ⟨first, now, between, rfl, hbetween, hrest⟩ := h
  refine ⟨first, now, between ++ [c], by simp, ?_, hrest⟩
  intro d hd
  rcases List.mem_append.mp hd with hd | hd
  · exact hbetween d hd
  · rw [List.mem_singleton.mp hd]
    exact hc

theorem wasBlocked_of_blocked (hmax : 1 ≤ cfg.maxInversionsPerTick)
    (hjob : (after cfg orders calls).jobs.lookup id = some job)
    (hblocked : (after cfg orders calls).Blocked now id) :
    WasBlocked cfg (calls ++ [⟨now, .detectInversions⟩]) id job.priority job.registeredAt := by
  obtain ⟨hi, loId, lo, hhi, hlo, hblocks⟩ := hblocked
  obtain rfl := Option.some.inj (hjob.symm.trans hhi)
  refine ⟨calls, now, [], rfl, by simp, ?_, hblocks.high, ?_, loId, lo.priority,
    lo.registeredAt, ?_, hblocks.below, hblocks.earlier⟩
  · rw [registered_eq orders hmax, hjob]
    rfl
  · have hwaited := hblocks.waited
    rwa [after_cfg hmax] at hwaited
  · rw [registered_eq orders hmax, hlo]
    rfl

/-- A priority is the one registered, unless the job was blocked at an earlier tick. -/
theorem effective_or_wasBlocked (hmax : 1 ≤ cfg.maxInversionsPerTick)
    (hjob : (after cfg orders calls).jobs.lookup id = some job) :
    job.effectivePriority = job.priority ∨
      job.effectivePriority = .critical ∧ cfg.defaultAction = .escalate ∧
        WasBlocked cfg calls id job.priority job.registeredAt := by
  induction calls using List.reverseRecOn generalizing job with
  | nil => simp [after] at hjob
  | append_singleton calls c ih =>
    have hlater : ∀ {job : InFlightJob}, (after cfg orders calls).jobs.lookup id = some job →
        ¬c.call.Concerns id → job.effectivePriority = job.priority ∨
          job.effectivePriority = .critical ∧ cfg.defaultAction = .escalate ∧
            WasBlocked cfg (calls ++ [c]) id job.priority job.registeredAt := by
      intro job hbefore hc
      exact (ih hbefore).imp_right fun ⟨hcritical, haction, hwas⟩ =>
        ⟨hcritical, haction, hwas.concat hc⟩
    rw [after_concat] at hjob
    obtain ⟨now, call⟩ := c
    cases call with
    | register other priority =>
      change ((after cfg orders calls).jobs.insert other _).lookup id = some job at hjob
      by_cases hid : id = other
      · subst hid
        rw [AList.lookup_insert] at hjob
        obtain rfl := Option.some.inj hjob
        exact .inl rfl
      · rw [AList.lookup_insert_ne hid] at hjob
        exact hlater hjob (Ne.symm hid)
    | complete other =>
      change ((after cfg orders calls).jobs.erase other).lookup id = some job at hjob
      by_cases hid : id = other
      · subst hid
        rw [AList.lookup_erase] at hjob
        cases hjob
      · rw [AList.lookup_erase_ne hid] at hjob
        exact hlater hjob (Ne.symm hid)
    | detectInversions =>
      have hcfg := @after_cfg cfg orders calls hmax
      rw [step_detect _ _ (by rwa [hcfg]), MonitorState.lookup_resolveAll, hcfg] at hjob
      split at hjob
      · rename_i hreported
        obtain ⟨before, hbefore, rfl⟩ := Option.map_eq_some_iff.mp hjob
        refine .inr ⟨rfl, hreported.1, ?_⟩
        rcases hlater hbefore not_false with heff | ⟨-, -, hwas⟩
        · obtain ⟨e, he, rfl⟩ := List.mem_map.mp hreported.2
          obtain ⟨hi, lo, hhi, hlo, -, -, hhigh, hwaited, -, hbelow, hearlier⟩ :=
            MonitorState.of_mem_reports he
          obtain rfl := Option.some.inj (hbefore.symm.trans hhi)
          rw [heff] at hbelow
          have hwas := wasBlocked_of_blocked hmax hbefore
            ⟨before, _, lo, hhi, hlo, hhigh, hbelow, hearlier, hwaited⟩
          exact hwas
        · exact hwas
      · exact hlater hjob not_false

theorem priority_le_effective (hmax : 1 ≤ cfg.maxInversionsPerTick)
    (hjob : (after cfg orders calls).jobs.lookup id = some job) :
    job.priority.level ≤ job.effectivePriority.level := by
  rcases effective_or_wasBlocked hmax hjob with heff | ⟨heff, -, -⟩
  · rw [heff]
  · rw [heff]
    exact job.priority.level_le_critical

/-- What a tick reports beyond the real inversions comes from comparing a raised priority. -/
theorem tickFaithful (hmax : 1 ≤ cfg.maxInversionsPerTick) {before rest : List Timed}
    {order : IterationOrder Entry}
    (hcalls : calls = before ++ ⟨now, .detectInversions⟩ :: rest)
    (hmeets : cfg.defaultAction = .preempt ∨ ¬PeersAfterInversion cfg calls) :
    (after cfg orders before).TickFaithful now
      ((after cfg orders before).detectInversions order now).1 := by
  have hcfg := @after_cfg cfg orders before hmax
  rw [MonitorState.detectInversions_eq (by rwa [hcfg])]
  constructor
  · intro e he
    obtain ⟨hi, lo, hhi, hlo, hhp, hlp, hhigh, hwaited, hne, hbelow, hearlier⟩ :=
      MonitorState.of_mem_reports he
    refine ⟨hi, lo, hhi, hlo, hhp, hlp, hhigh, ?_, hearlier, hwaited⟩
    rcases effective_or_wasBlocked hmax hhi with heff | ⟨heff, haction, hwas⟩
    · rwa [heff] at hbelow
    rw [heff] at hbelow
    rcases Priority.eq_high_or_critical hhigh with hhiHigh | hhiCritical
    · -- a peer at the same base priority would be the other half of the scenario ruled out
      have hpeer : lo.priority ≠ .high := by
        intro hloHigh
        refine hmeets.elim (fun h => by rw [haction] at h; cases h) fun h => h ?_
        refine ⟨before, now, rest, e.highJobId, hi.registeredAt, hcalls, hhiHigh ▸ hwas,
          e.lowBlockerId, lo.registeredAt, hne, ?_, hearlier⟩
        rw [registered_eq orders hmax, hlo, ← hloHigh]
        rfl
      rw [hhiHigh]
      exact Priority.lt_high_of_lt_critical hbelow hpeer
    · rwa [hhiCritical]
  · intro hroom id hblocked
    exact MonitorState.reports_complete (fun id job => priority_le_effective hmax) hroom hblocked

/-- A raised priority stays raised as long as the job is in flight. -/
theorem raised_append {between : List Timed} (hmax : 1 ≤ cfg.maxInversionsPerTick)
    (hjob : (after cfg orders calls).jobs.lookup id = some job)
    (hraised : job.effectivePriority = .critical)
    (hbetween : ∀ c ∈ between, ¬c.call.Concerns id) :
    ∃ job, (after cfg orders (calls ++ between)).jobs.lookup id = some job ∧
      job.effectivePriority = .critical := by
  induction between using List.reverseRecOn with
  | nil => exact ⟨job, by rwa [List.append_nil], hraised⟩
  | append_singleton between c ih =>
    obtain ⟨job, hjob, hraised⟩ := ih fun d hd => hbetween d (List.mem_append_left _ hd)
    have hc := hbetween c (by simp)
    rw [← List.append_assoc, after_concat]
    obtain ⟨now, call⟩ := c
    cases call with
    | register other priority =>
      exact ⟨job, (AList.lookup_insert_ne (Ne.symm hc)).trans hjob, hraised⟩
    | complete other =>
      exact ⟨job, (AList.lookup_erase_ne (Ne.symm hc)).trans hjob, hraised⟩
    | detectInversions =>
      rw [step_detect _ _ (by rwa [after_cfg hmax]), MonitorState.lookup_resolveAll, hjob]
      split
      · exact ⟨_, rfl, rfl⟩
      · exact ⟨job, rfl, hraised⟩

/-- A map walked with one job first and another one right after it. -/
def walk (id peer : UInt64) : IterationOrder Entry :=
  (IterationOrder.foremost fun e => decide (e.1 = peer)).andThen
    (IterationOrder.foremost fun e => decide (e.1 = id))

theorem foremost_entry {s : MonitorState} (order : IterationOrder Entry)
    (hjob : s.jobs.lookup id = some job) :
    ∃ rest, (IterationOrder.foremost fun e : Entry => decide (e.1 = id)).arrange
      (order.arrange s.jobs.entries) = ⟨id, job⟩ :: rest := by
  refine IterationOrder.foremost_arrange ?_ (decide_eq_true rfl) ?_
  · exact order.mem_arrange.mpr (AList.mem_lookup_iff.mp hjob)
  · intro e he heq
    have hlookup := AList.mem_lookup_iff.mpr (order.mem_arrange.mp he)
    obtain ⟨key, found⟩ := e
    obtain rfl := of_decide_eq_true heq
    obtain rfl := Option.some.inj (hjob.symm.trans hlookup)
    rfl

theorem walk_head {s : MonitorState} (peer : UInt64) (hjob : s.jobs.lookup id = some job) :
    ∃ rest, (walk id peer).arrange s.jobs.entries = ⟨id, job⟩ :: rest :=
  foremost_entry (IterationOrder.foremost fun e => decide (e.1 = peer)) hjob

theorem walk_find {s : MonitorState} {peer : UInt64} (test : Entry → Bool)
    (hjob : s.jobs.lookup peer = some job) (hne : peer ≠ id) (htest : test ⟨peer, job⟩ = true)
    (hid : ∀ e : Entry, e.1 = id → test e = false) :
    ((walk id peer).arrange s.jobs.entries).find? test = some ⟨peer, job⟩ := by
  obtain ⟨rest, hrest⟩ := foremost_entry (IterationOrder.inserted Entry) hjob
  change (List.filter _ ((IterationOrder.foremost fun e : Entry => decide (e.1 = peer)).arrange
      ((IterationOrder.inserted Entry).arrange s.jobs.entries)) ++ List.filter _
    ((IterationOrder.foremost fun e : Entry => decide (e.1 = peer)).arrange
      ((IterationOrder.inserted Entry).arrange s.jobs.entries))).find? test = _
  have hfirst : ((⟨peer, job⟩ :: rest : List Entry).filter fun e => decide (e.1 = id)).find?
      test = none := by
    refine List.find?_eq_none.mpr fun e he => ?_
    rw [hid e (of_decide_eq_true (List.mem_filter.mp he).2)]
    exact Bool.false_ne_true
  rw [hrest, List.find?_append, hfirst, List.filter_cons_of_pos (by simpa using hne),
    List.find?_cons_of_pos htest]
  rfl

theorem raised_of_wasBlocked (peer : UInt64) (hmax : 1 ≤ cfg.maxInversionsPerTick)
    (haction : cfg.defaultAction = .escalate)
    (hwas : WasBlocked cfg calls id priority registeredAt) :
    ∃ job, (after cfg (fun _ => walk id peer) calls).jobs.lookup id = some job ∧
      job.effectivePriority = .critical := by
  obtain ⟨first, now, between, rfl, hbetween, hid, hhigh, hwaited, blocker, lesser, blockerAt,
    hblocker, hbelow, hearlier⟩ := hwas
  obtain ⟨job, hjob, rfl, rfl⟩ := lookup_of_registered (fun _ => walk id peer) hmax hid
  obtain ⟨lo, hlo, rfl, rfl⟩ :=
    lookup_of_registered (fun _ => walk id peer) hmax hblocker
  have hcfg := @after_cfg cfg (fun _ => walk id peer) first hmax
  obtain ⟨rest, hwalk⟩ := walk_head peer hjob
  have hblocks : Blocks (after cfg (fun _ => walk id peer) first).cfg.threshold now lo job :=
    ⟨hhigh, hbelow, hearlier, by rwa [hcfg]⟩
  obtain ⟨e, hreport, hreported⟩ := MonitorState.reportOf_of_blocked
    (fun e => (walk id peer).mem_arrange) hjob ⟨job, blocker, lo, hjob, hlo, hblocks⟩
    (priority_le_effective hmax hjob)
  have hmem := MonitorState.mem_reports_of_head _ (by rwa [hcfg]) hwalk hreport
  have hescalated : (after cfg (fun _ => walk id peer)
      (first ++ [⟨now, .detectInversions⟩])).jobs.lookup id =
        some (MonitorState.escalated job) := by
    rw [after_concat, step_detect _ _ (by rwa [hcfg]), MonitorState.lookup_resolveAll, hcfg, hjob,
      if_pos ⟨haction, List.mem_map.mpr ⟨e, hmem, hreported⟩⟩]
    rfl
  have happend := raised_append hmax hescalated rfl hbetween
  rwa [List.append_assoc] at happend

/-- The peer, walked right after the job, is then taken for its blocker. -/
theorem not_real_of_peers (hmax : 1 ≤ cfg.maxInversionsPerTick)
    (haction : cfg.defaultAction = .escalate)
    (htimes : calls.Pairwise fun a b => a.now ≤ b.now)
    (hpeers : PeersAfterInversion cfg calls) : ¬Faithful cfg calls := by
  obtain ⟨before, now, rest, id, registeredAt, hcalls, hwas, peer, peerAt, hne, hpeer,
    hearlier⟩ := hpeers
  intro hfaithful
  have hcfg := @after_cfg cfg (fun _ => walk id peer) before hmax
  obtain ⟨job, hjob, hraised⟩ := raised_of_wasBlocked peer hmax haction hwas
  obtain ⟨hstill, c, hc, hwaited⟩ := hwas.still
  obtain ⟨_, hjob', hhigh, rfl⟩ :=
    lookup_of_registered (fun _ => walk id peer) hmax hstill
  obtain rfl := Option.some.inj (hjob.symm.trans hjob')
  obtain ⟨lo, hlo, hpeerHigh, rfl⟩ :=
    lookup_of_registered (fun _ => walk id peer) hmax hpeer
  obtain ⟨rest', hwalk⟩ := walk_head peer hjob
  have hlater : c.now ≤ now :=
    (List.pairwise_append.mp (hcalls ▸ htimes)).2.2 c hc _ List.mem_cons_self
  have hfind := walk_find (MonitorState.holdsUp now ⟨id, job⟩) hlo hne
    (MonitorState.holdsUp_iff.mpr ⟨hne, by rw [hraised, hpeerHigh]; decide, hearlier⟩)
    (fun e he => by simp [MonitorState.holdsUp, he])
  have hmem := MonitorState.mem_reports_of_head now (by rwa [hcfg]) hwalk
    (MonitorState.reportOf_eq_some.mpr ⟨by rw [hhigh], by rw [hcfg]; dsimp only; omega, _, hfind,
      rfl⟩)
  have htick := hfaithful (fun _ => walk id peer) before now rest hcalls
  rw [MonitorState.detectInversions_eq (by rwa [hcfg])] at htick
  obtain ⟨_, _, _, _, hhi, hlow, hblocks⟩ := htick.real _ hmem
  have hbelow := hblocks.below
  rw [← hhi, ← hlow] at hbelow
  change lo.priority.level < job.priority.level at hbelow
  rw [hhigh, hpeerHigh] at hbelow
  exact Nat.lt_irrefl _ hbelow

theorem inversions_faithful_iff (hmax : 1 ≤ cfg.maxInversionsPerTick)
    (htimes : calls.Pairwise fun a b => a.now ≤ b.now) :
    Faithful cfg calls ↔ cfg.defaultAction = .preempt ∨ ¬PeersAfterInversion cfg calls := by
  constructor
  · intro hfaithful
    cases haction : cfg.defaultAction with
    | preempt => exact .inl rfl
    | escalate =>
      exact .inr fun hpeers => not_real_of_peers hmax haction htimes hpeers hfaithful
  · intro hmeets orders before now rest hcalls
    exact tickFaithful hmax hcalls hmeets

end Runs

/-- A Low job ends after the tick that found it in the way of two High ones. -/
def blockerEnds : List Timed :=
  [⟨0, .register 1 .low⟩, ⟨0, .register 2 .high⟩, ⟨0, .register 3 .high⟩,
    ⟨100000000, .detectInversions⟩, ⟨150000000, .complete 1⟩, ⟨200000000, .detectInversions⟩]

theorem blockerEnds_peers : PeersAfterInversion {} blockerEnds :=
  ⟨blockerEnds.take 5, 200000000, [], 3, 0, rfl,
    ⟨blockerEnds.take 3, 100000000, [⟨150000000, .complete 1⟩], rfl, by simp [Call.Concerns], rfl,
      by decide, by decide, 1, .low, 0, rfl, by decide, by decide⟩,
    2, 0, by decide, rfl, by decide⟩

theorem inversions_faithful_iff_blockerEnds : Faithful {} blockerEnds ↔
    InversionAction.escalate = .preempt ∨ ¬PeersAfterInversion {} blockerEnds :=
  inversions_faithful_iff (by decide) (by decide)

theorem blockerEnds_unfaithful : ¬Faithful {} blockerEnds :=
  not_real_of_peers (by decide) rfl (by decide) blockerEnds_peers

end HelixRouter.Inversions
