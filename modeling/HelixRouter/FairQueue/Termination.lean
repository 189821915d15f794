import HelixRouter.Arithmetic.Residues
import HelixRouter.FairQueue.SingleCalls

namespace HelixRouter.FairQueue

namespace WfqScheduler

/-- What a class can spend once it has been credited so many times, as a word counts. -/
def credited (s : WfqScheduler) (c : String) (visits : Nat) : Nat :=
  ((s.deficitOf c).toNat + visits * (s.gainOf c).toNat) % 2 ^ 64

/-- The most a class can ever have to spend: its deficit moves in steps of the greatest
common divisor of its gain and the size of a word. -/
def mostCredit (s : WfqScheduler) (c : String) : Nat :=
  let step := Nat.gcd (s.gainOf c).toNat (2 ^ 64)
  2 ^ 64 - step + (s.deficitOf c).toNat % step

/-- A class has a job at its front that it can come to pay for. -/
def Affordable (s : WfqScheduler) : Prop :=
  ∃ c job rest, s.jobsOf c = job :: rest ∧ job.computeCost.toNat ≤ s.mostCredit c

variable {s s' t : WfqScheduler} {c : String} {job : Job} {rest batch : List Job}
  {classes : List String}

theorem affordable_iff :
    s.Affordable ↔ ∃ c job rest, s.jobsOf c = job :: rest ∧
      ∃ n, 1 ≤ n ∧ job.computeCost.toNat ≤ s.credited c n := by
  unfold Affordable credited mostCredit
  simp only [Arithmetic.exists_le_add_mul_mod_iff (show 0 < 2 ^ 64 by decide)]

/-- After a visit for nothing the class is credited once more. -/
theorem credited_visit (hsame : SameCredit s s')
    (hdef : s'.deficitOf c = s.deficitOf c + s.gainOf c) (n : Nat) :
    s'.credited c n = s.credited c (n + 1) := by
  unfold credited
  rw [hdef, hsame.gain, UInt64.toNat_add, Nat.mod_add_mod, Nat.succ_mul]
  congr 1
  omega

/-- A visit serves nothing from a class with jobs exactly if the front one costs more than
its credit, which it then keeps. -/
theorem visit_idle (hjobs : s.jobsOf c = job :: rest) (hv : s.visit c = (batch, s')) :
    (batch = [] ↔ s.credited c 1 < job.computeCost.toNat) ∧
      (batch = [] → s'.jobsOf c = job :: rest ∧ s'.deficitOf c = s.deficitOf c + s.gainOf c) := by
  obtain ⟨deficit, hserve, hdeficit⟩ := (turn hv).serves (by simp [hjobs])
  have hsum : s.credited c 1 = (s.deficitOf c + s.gainOf c).toNat := by
    rw [credited, Nat.one_mul, UInt64.toNat_add]
  rw [hjobs, serve] at hserve
  rw [hsum, ← UInt64.lt_iff_toNat_lt]
  by_cases hcost : job.computeCost ≤ s.deficitOf c + s.gainOf c
  · rw [if_pos hcost] at hserve
    have hne : batch ≠ [] := by
      rintro rfl
      cases (Prod.mk.inj (Prod.mk.inj hserve).2).1
    exact ⟨iff_of_false hne (UInt64.not_lt.mpr hcost), fun h => absurd h hne⟩
  · rw [if_neg hcost] at hserve
    obtain ⟨rfl, hserved⟩ := Prod.mk.inj hserve
    obtain ⟨rfl, hleft⟩ := Prod.mk.inj hserved
    refine ⟨iff_of_true rfl (UInt64.not_le.mp hcost), fun _ => ⟨hleft.symm, ?_⟩⟩
    rw [hdeficit, ← hleft, if_neg (by simp)]

/-- A round for nothing visits each class as often as it is listed, and each time for nothing. -/
theorem drainClasses_for_nothing (hd : drainClasses classes s = ([], s'))
    (hjobs : s.jobsOf c = job :: rest) :
    s'.jobsOf c = job :: rest ∧ (∀ n, s'.credited c n = s.credited c (n + classes.count c)) ∧
      ∀ n, 1 ≤ n → n ≤ classes.count c → s.credited c n < job.computeCost.toNat := by
  induction classes generalizing s with
  | nil =>
    cases hd
    refine ⟨hjobs, fun n => rfl, fun n h1 hn => ?_⟩
    rw [List.count_nil] at hn
    omega
  | cons c' classes ih =>
    rw [drainClasses_cons] at hd
    obtain ⟨hnil, hs'⟩ := Prod.mk.inj hd
    obtain ⟨hserved, hmore⟩ := List.append_eq_nil_iff.mp hnil
    have hv : s.visit c' = ([], (s.visit c').2) := Prod.ext hserved rfl
    have ht := turn hv
    by_cases hc : c' = c
    · subst hc
      obtain ⟨hidle, hkept⟩ := visit_idle hjobs hv
      obtain ⟨hjobs', hdef⟩ := hkept rfl
      obtain ⟨hend, hcredit, hshort⟩ := ih (Prod.ext hmore hs') hjobs'
      simp only [credited_visit ht.same hdef] at hcredit hshort
      rw [List.count_cons_self]
      refine ⟨hend, fun n => hcredit n, fun n h1 hn => ?_⟩
      cases n with
      | zero => omega
      | succ n =>
        cases n with
        | zero => exact hidle.mp rfl
        | succ n => exact hshort (n + 1) (by omega) (by omega)
    · have hne : c ≠ c' := fun h => hc h.symm
      have hjobs' : (s.visit c').2.jobsOf c = job :: rest :=
        ((visited hv).moves.others c hne).trans hjobs
      have hsame : ∀ n, (s.visit c').2.credited c n = s.credited c n := by
        intro n
        rw [credited, ht.others c hne, ht.same.gain, credited]
      obtain ⟨hend, hcredit, hshort⟩ := ih (Prod.ext hmore hs') hjobs'
      simp only [hsame] at hcredit hshort
      rw [List.count_cons_of_ne hc]
      exact ⟨hend, hcredit, hshort⟩

/-- A visit does not make a job affordable that was not. -/
theorem visit_unaffordable (h : ¬ s.Affordable) (hv : s.visit c = (batch, s')) :
    batch = [] ∧ ¬ s'.Affordable := by
  have hshort : ∀ {c job rest}, s.jobsOf c = job :: rest → ∀ n, 1 ≤ n →
      s.credited c n < job.computeCost.toNat := by
    intro c job rest hjobs n hn
    by_contra hle
    exact h (affordable_iff.mpr ⟨c, job, rest, hjobs, n, hn, Nat.le_of_not_lt hle⟩)
  have ht := turn hv
  have hothers : ∀ {c' job rest}, c' ≠ c → s'.jobsOf c' = job :: rest → ∀ n, 1 ≤ n →
      s'.credited c' n < job.computeCost.toNat := by
    intro c' job rest hne hjobs n hn
    rw [credited, ht.others c' hne, ht.same.gain]
    exact hshort (((visited hv).moves.others c' hne).symm.trans hjobs) n hn
  cases hjobs : s.jobsOf c with
  | nil =>
    obtain ⟨rfl, hempty, -⟩ := ht.idle hjobs
    refine ⟨rfl, fun haff => ?_⟩
    obtain ⟨c', job, rest, hjobs', n, hn, hle⟩ := affordable_iff.mp haff
    have hne : c' ≠ c := by
      rintro rfl
      cases hempty.symm.trans hjobs'
    exact absurd hle (Nat.not_le_of_gt (hothers hne hjobs' n hn))
  | cons job rest =>
    obtain ⟨hidle, hkept⟩ := visit_idle hjobs hv
    have hnil := hidle.mpr (hshort hjobs 1 (Nat.le_refl 1))
    obtain ⟨hjobs', hdef⟩ := hkept hnil
    refine ⟨hnil, fun haff => ?_⟩
    obtain ⟨c', job', rest', hjobs'', n, hn, hle⟩ := affordable_iff.mp haff
    by_cases hc : c' = c
    · subst hc
      cases hjobs'.symm.trans hjobs''
      rw [credited_visit ht.same hdef] at hle
      exact absurd hle (Nat.not_le_of_gt (hshort hjobs (n + 1) (by omega)))
    · exact absurd hle (Nat.not_le_of_gt (hothers hc hjobs'' n hn))

theorem drainClasses_unaffordable (h : ¬ s.Affordable) (hd : drainClasses classes s = (batch, s')) :
    batch = [] ∧ ¬ s'.Affordable := by
  induction classes generalizing s batch with
  | nil =>
    cases hd
    exact ⟨rfl, h⟩
  | cons c classes ih =>
    rw [drainClasses_cons] at hd
    obtain ⟨rfl, hs'⟩ := Prod.mk.inj hd
    obtain ⟨hserved, hrest⟩ := visit_unaffordable h (rfl : s.visit c = _)
    obtain ⟨hmore, hend⟩ := ih hrest (Prod.ext rfl hs')
    exact ⟨List.append_eq_nil_iff.mpr ⟨hserved, hmore⟩, hend⟩

/-- Where no front job can ever be paid for the rounds go on for ever. -/
theorem nextRounds_diverges (h : ¬ s.Affordable) (hne : s.isEmpty ≠ true) (rounds : Nat) :
    s.nextRounds rounds = none := by
  induction rounds generalizing s with
  | zero => rfl
  | succ rounds ih =>
    cases hd : s.drainRound with
    | mk batch s' =>
      obtain ⟨rfl, hrest⟩ := drainClasses_unaffordable h hd
      have hperm := drained_queued hd
      have hne' : s'.isEmpty ≠ true := by
        intro hempty
        rw [isEmpty_iff.mp hempty] at hperm
        exact hne (isEmpty_iff.mpr hperm.eq_nil)
      simp only [nextRounds, hd, hne']
      exact ih hrest hne'

/-- Each round for nothing brings the credit that pays for a job closer. -/
theorem nextRounds_ends (hjobs : s.jobsOf c = job :: rest) (hin : c ∈ s.classOrder) {n : Nat}
    (hn : 1 ≤ n) (hpays : job.computeCost.toNat ≤ s.credited c n) :
    ∃ rounds, (s.nextRounds rounds).isSome := by
  induction n using Nat.strong_induction_on generalizing s with
  | _ n ih =>
    cases hd : s.drainRound with
    | mk batch s' =>
      cases batch with
      | cons first rest => exact ⟨1, by simp [nextRounds, hd]⟩
      | nil =>
        obtain ⟨hjobs', hcredit, hshort⟩ := drainClasses_for_nothing hd hjobs
        have hvisited : 1 ≤ s.classOrder.count c := List.one_le_count_iff.mpr hin
        have hlater : s.classOrder.count c < n := by
          by_contra hle
          exact absurd hpays (Nat.not_le_of_gt (hshort n hn (Nat.le_of_not_lt hle)))
        have hpays' : job.computeCost.toNat ≤ s'.credited c (n - s.classOrder.count c) := by
          rw [hcredit, Nat.sub_add_cancel (Nat.le_of_lt hlater)]
          exact hpays
        obtain ⟨rounds, hrounds⟩ := ih _ (by omega) hjobs'
          ((drainClasses_same hd).order ▸ hin) (by omega) hpays'
        refine ⟨rounds + 1, ?_⟩
        rw [nextRounds, hd]
        dsimp only
        split
        · rfl
        · exact hrounds

theorem nextJob_of_not_isEmpty (h : s.isEmpty ≠ true) (rounds : Nat) :
    s.nextJob rounds = s.nextRounds rounds :=
  if_neg (by simp [h])

end WfqScheduler

open WfqScheduler

/-- A call for the next job ends exactly if nothing is queued, or the credit of some class
comes to pay for its front job. -/
theorem next_job_terminates_iff (config : WfqConfig) (ops : List Op) (h : History)
    (hr : run config ops = some h) :
    (∃ rounds, (h.scheduler.nextJob rounds).isSome) ↔
      h.scheduler.isEmpty = true ∨ h.scheduler.Affordable := by
  have hs := (served hr).standing
  constructor
  · rintro ⟨rounds, hrounds⟩
    by_contra hnot
    obtain ⟨hne, haff⟩ := not_or.mp hnot
    rw [nextJob_of_not_isEmpty hne, nextRounds_diverges haff hne] at hrounds
    cases hrounds
  · intro hends
    by_cases hempty : h.scheduler.isEmpty = true
    · obtain ⟨t, ht⟩ := nextJob_of_isEmpty hempty
      exact ⟨1, by rw [ht]; rfl⟩
    · obtain ⟨c, job, rest, hjobs, n, hn, hpays⟩ :=
        affordable_iff.mp (hends.resolve_left hempty)
      have hin := hs.listed c (by simp [hjobs])
      obtain ⟨rounds, hrounds⟩ := nextRounds_ends hjobs hin hn hpays
      exact ⟨rounds, by rw [nextJob_of_not_isEmpty hempty]; exact hrounds⟩

/-- Two classes that have jobs left after a call and a round. -/
def leftOver : List Op :=
  [.enqueue (priced .hashMix 5000), .enqueue (priced .hashMix 90000),
    .enqueue (priced .primeCount 60000), .nextJob 3, .drainRound]

theorem next_job_terminates_leftOver : ∃ h, run {} leftOver = some h ∧
    h.scheduler.queued.length = 2 ∧ ∃ rounds, (h.scheduler.nextJob rounds).isSome := by
  have hrun : ((run {} leftOver).any fun h => h.scheduler.queued.length == 2 &&
      (h.scheduler.jobsOf "hash_mix").head?.any (·.computeCost.toNat ≤
        h.scheduler.mostCredit "hash_mix")) = true := by decide +kernel
  obtain ⟨h, hh, hfacts⟩ := (Option.any_eq_true _ _).mp hrun
  obtain ⟨hlength, hfront⟩ := Bool.and_eq_true_iff.mp hfacts
  obtain ⟨job, hjob, hpays⟩ := (Option.any_eq_true _ _).mp hfront
  obtain ⟨rest, hjobs⟩ := List.head?_eq_some_iff.mp hjob
  exact ⟨h, hh, beq_iff_eq.mp hlength, (next_job_terminates_iff {} _ h hh).mpr
    (.inr ⟨"hash_mix", job, rest, hjobs, of_decide_eq_true hpays⟩)⟩

theorem gainOf_new_of_quantum_zero {config : WfqConfig} (h : config.quantum = 0) (c : String) :
    (WfqScheduler.new config).gainOf c = 0 := by
  unfold gainOf
  cases (WfqScheduler.new config).queues.lookup c with
  | none => rfl
  | some queue =>
    change WfqScheduler.gain _ queue = 0
    rw [gain, quantum_new, h]
    simp

/-- With a quantum of nothing a job that costs anything is never reached. -/
theorem idle_quantum_never_ends : ∃ h, run { quantum := 0 } [.enqueue (priced .hashMix 1)] = some h ∧
    ∀ rounds, h.scheduler.nextJob rounds = none := by
  obtain ⟨h, hr⟩ : ∃ h, run { quantum := 0 } [.enqueue (priced .hashMix 1)] = some h := ⟨_, rfl⟩
  have hs := served hr
  have haccepted : h.accepted = [priced .hashMix 1] := by
    have : (run { quantum := 0 } [.enqueue (priced .hashMix 1)]).map (·.accepted) =
        some [priced .hashMix 1] := rfl
    rwa [hr, Option.map_some, Option.some_inj] at this
  have hne : h.scheduler.isEmpty ≠ true := by
    have : (run { quantum := 0 } [.enqueue (priced .hashMix 1)]).map (·.scheduler.isEmpty) =
        some false := by decide +kernel
    rw [hr, Option.map_some, Option.some_inj] at this
    simp [this]
  have hshort : ¬ h.scheduler.Affordable := by
    rintro ⟨c, job, rest, hjobs, hle⟩
    have hgain : h.scheduler.gainOf c = 0 :=
      (hs.same.gain c).trans (gainOf_new_of_quantum_zero rfl c)
    have hfront : job ∈ h.scheduler.jobsOf c := by simp [hjobs]
    have hjob := (hs.sound.queued_accepted hfront).1
    rw [haccepted, List.mem_singleton] at hjob
    rw [mostCredit, hgain, hs.settled c hgain, hjob] at hle
    simp [priced] at hle
  refine ⟨h, hr, fun rounds => ?_⟩
  rw [nextJob_of_not_isEmpty hne, nextRounds_diverges hshort hne]

end HelixRouter.FairQueue
