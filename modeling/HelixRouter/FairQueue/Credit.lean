import HelixRouter.FairQueue.Wfq
import Mathlib.Data.List.TakeWhile

namespace HelixRouter.FairQueue.WfqScheduler

variable {s s' t : WfqScheduler} {c c' : String} {job : Job} {served batch : List Job}

def deficitOf (s : WfqScheduler) (c : String) : UInt64 := (s.queues.lookup c).elim 0 (·.deficit)

/-- What every visit adds to the deficit of a class. -/
def gainOf (s : WfqScheduler) (c : String) : UInt64 := (s.queues.lookup c).elim 0 s.gain

/-- What no operation but the credit of a visit changes. -/
structure SameCredit (s s' : WfqScheduler) : Prop where
  order : s'.classOrder = s.classOrder
  known : ∀ c, s'.Known c ↔ s.Known c
  gain : ∀ c, s'.gainOf c = s.gainOf c

theorem SameCredit.trans (h : SameCredit s s') (h' : SameCredit s' t) : SameCredit s t :=
  ⟨h'.order.trans h.order, fun c => (h'.known c).trans (h.known c),
    fun c => (h'.gain c).trans (h.gain c)⟩

theorem SameCredit.refl (s : WfqScheduler) : SameCredit s s :=
  ⟨rfl, fun _ => Iff.rfl, fun _ => rfl⟩

/-- What a visit does to the credit: the class is charged for what it is served. -/
structure Turn (c : String) (s : WfqScheduler) (served : List Job) (s' : WfqScheduler) :
    Prop where
  same : SameCredit s s'
  others : ∀ c', c' ≠ c → s'.deficitOf c' = s.deficitOf c'
  idle : s.jobsOf c = [] → served = [] ∧ s'.jobsOf c = [] ∧ s'.deficitOf c = 0
  serves : s.jobsOf c ≠ [] → ∃ deficit,
    serve (s.deficitOf c + s.gainOf c) (s.jobsOf c) = (deficit, served, s'.jobsOf c) ∧
      s'.deficitOf c = if s'.jobsOf c = [] then 0 else deficit

theorem updateStats_fields (s : WfqScheduler) (c : String) (f : ClassWfqStats → ClassWfqStats) :
    (s.updateStats c f).classOrder = s.classOrder ∧ (s.updateStats c f).quantum = s.quantum := by
  unfold updateStats
  split <;> exact ⟨rfl, rfl⟩

/-- Where one queue is replaced by another of its weight, only its deficit may change. -/
theorem credit_replaced (s' : WfqScheduler) {old new : WfqQueue} (h : s.queues.lookup c = some old)
    (hw : new.weight = old.weight) (hq : s'.queues = s.queues.insert c new)
    (ho : s'.classOrder = s.classOrder) (hn : s'.quantum = s.quantum) :
    SameCredit s s' ∧ ∀ c', s'.deficitOf c' = if c' = c then new.deficit else s.deficitOf c' := by
  refine ⟨⟨ho, fun c' => ?_, fun c' => ?_⟩, fun c' => ?_⟩
  · unfold Known
    rw [hq]
    by_cases hc : c' = c
    · rw [hc, AList.lookup_insert, h]
      simp
    · rw [AList.lookup_insert_ne hc]
  · unfold gainOf
    rw [hq]
    by_cases hc : c' = c
    · subst hc
      rw [AList.lookup_insert, h]
      change UInt64.ofNat (s'.quantum.toNat * new.weight.toNat) = UInt64.ofNat _
      rw [hw, hn]
    · rw [AList.lookup_insert_ne hc]
      have hgain : s'.gain = s.gain := by
        funext queue
        unfold gain
        rw [hn]
      rw [hgain]
  · unfold deficitOf
    rw [hq]
    by_cases hc : c' = c
    · subst hc
      rw [AList.lookup_insert, if_pos rfl]
      rfl
    · rw [AList.lookup_insert_ne hc, if_neg hc]

theorem turn (h : s.visit c = (served, s')) : Turn c s served s' := by
  have hmoves := (visited h).moves
  unfold visit at h
  cases hq : s.queues.lookup c with
  | none =>
    rw [hq] at h
    cases h
    have hjobs : s.jobsOf c = [] := by simp [jobsOf, hq]
    refine ⟨SameCredit.refl s, fun _ _ => rfl, fun _ => ⟨rfl, hjobs, ?_⟩, fun hne => absurd hjobs hne⟩
    simp [deficitOf, hq]
  | some queue =>
    have hjobs : s.jobsOf c = queue.queue := by simp [jobsOf, hq]
    have hdeficit : s.deficitOf c = queue.deficit := by simp [deficitOf, hq]
    have hgain : s.gainOf c = s.gain queue := by simp [gainOf, hq]
    rw [hq] at h
    dsimp only at h
    by_cases hempty : queue.queue = []
    · rw [if_pos (List.isEmpty_iff.mpr hempty)] at h
      cases h
      obtain ⟨hsame, hdef⟩ := credit_replaced (s.putQueue c { queue with deficit := 0 }) hq
        (rfl : ({ queue with deficit := 0 } : WfqQueue).weight = _) rfl rfl rfl
      refine ⟨hsame, fun c' hc => ?_, fun _ => ⟨rfl, ?_, ?_⟩, fun hne => ?_⟩
      · rw [hdef, if_neg hc]
      · rw [(moves_putQueue hq _).after_eq]
        exact hempty
      · rw [hdef, if_pos rfl]
      · exact absurd (hjobs.trans hempty) hne
    · rw [if_neg (mt List.isEmpty_iff.mp hempty)] at h
      cases hserve : serve (queue.deficit + s.gain queue) queue.queue with
      | mk deficit rest =>
        obtain ⟨taken, left⟩ := rest
        rw [hserve] at h
        obtain ⟨rfl, hs'⟩ := Prod.mk.inj h
        have hfields := updateStats_fields (s.putQueue c
          ⟨queue.weight, if left.isEmpty then 0 else deficit, left⟩) c
        obtain ⟨hsame, hdef⟩ := credit_replaced s' hq
          (rfl : (WfqQueue.mk queue.weight (if left.isEmpty then 0 else deficit) left).weight = _)
          (hs' ▸ queues_updateStats) (hs' ▸ (hfields _).1) (hs' ▸ (hfields _).2)
        have hafter : s'.jobsOf c = left := by
          have hsplit := hmoves.before_eq
          rw [hjobs, serve_split hserve] at hsplit
          exact (List.append_cancel_left hsplit).symm
        refine ⟨hsame, fun c' hc => ?_, fun hnil => absurd (hjobs.symm.trans hnil) hempty,
          fun _ => ⟨deficit, ?_, ?_⟩⟩
        · rw [hdef, if_neg hc]
        · rw [hjobs, hdeficit, hgain, hafter, hserve]
        · rw [hdef, if_pos rfl, hafter]
          simp only [List.isEmpty_iff]

/-- A queue that takes a job at either end keeps its credit. -/
theorem credit_kept {queue : WfqQueue} (h : s.queues.lookup c = some queue) {jobs : List Job}
    (hq : s'.queues = s.queues.insert c { queue with queue := jobs })
    (ho : s'.classOrder = s.classOrder) (hn : s'.quantum = s.quantum) :
    SameCredit s s' ∧ ∀ c', s'.deficitOf c' = s.deficitOf c' := by
  have hw : ({ queue with queue := jobs } : WfqQueue).weight = queue.weight := rfl
  obtain ⟨hsame, hdef⟩ := credit_replaced s' h hw hq ho hn
  refine ⟨hsame, fun c' => ?_⟩
  rw [hdef]
  by_cases hc : c' = c
  · subst hc
    simp [deficitOf, h]
  · rw [if_neg hc]

theorem pushBack_credit (s : WfqScheduler) (job : Job) :
    SameCredit s (s.pushBack job) ∧ ∀ c, (s.pushBack job).deficitOf c = s.deficitOf c := by
  unfold pushBack
  cases hq : s.queues.lookup (classForJob job) with
  | none => exact ⟨SameCredit.refl s, fun _ => rfl⟩
  | some queue =>
    have hfields := updateStats_fields (s.putQueue (classForJob job)
      { queue with queue := job :: queue.queue }) (classForJob job)
    exact credit_kept hq queues_updateStats (hfields _).1 (hfields _).2

theorem enqueue_credit (s : WfqScheduler) (job : Job) :
    SameCredit s (s.enqueue job).2 ∧ ∀ c, (s.enqueue job).2.deficitOf c = s.deficitOf c := by
  unfold enqueue
  cases hq : s.queues.lookup (classForJob job) with
  | none => exact ⟨SameCredit.refl s, fun _ => rfl⟩
  | some queue =>
    have hfields := updateStats_fields (s.putQueue (classForJob job)
      { queue with queue := queue.queue ++ [job] }) (classForJob job)
    exact credit_kept hq queues_updateStats (hfields _).1 (hfields _).2

/-- A class that earns nothing has nothing to spend. -/
def Settled (s : WfqScheduler) : Prop := ∀ c, s.gainOf c = 0 → s.deficitOf c = 0

/-- The jobs of a class that its visits can reach: with no gain only those that cost nothing. -/
def within (s : WfqScheduler) (c : String) : List Job :=
  if s.gainOf c = 0 then (s.jobsOf c).takeWhile (·.computeCost = 0) else s.jobsOf c

theorem serve_zero (jobs : List Job) : serve 0 jobs =
    (0, jobs.takeWhile (·.computeCost = 0), jobs.dropWhile (·.computeCost = 0)) := by
  induction jobs with
  | nil => rfl
  | cons job rest ih =>
    have hle : job.computeCost ≤ 0 ↔ job.computeCost = 0 := UInt64.le_zero_iff
    by_cases h : job.computeCost = 0
    · rw [serve, if_pos (hle.mpr h), h, UInt64.sub_zero, ih]
      simp [h]
    · rw [serve, if_neg (mt hle.mp h)]
      simp [h]

theorem Settled.put (h : s.Settled) (hsame : SameCredit s s')
    (hdef : ∀ c, s'.deficitOf c = s.deficitOf c) : s'.Settled := by
  intro c hc
  rw [hdef]
  exact h c (hsame.gain c ▸ hc)

/-- A visit serves from the front what is within reach, all of it where nothing is earned. -/
theorem Settled.visit (h : s.Settled) (hv : s.visit c = (served, s')) :
    s'.Settled ∧ s.within c = served ++ s'.within c ∧ (s.gainOf c = 0 → s'.within c = []) ∧
      ∀ c', c' ≠ c → s'.within c' = s.within c' := by
  have ht := turn hv
  have hmoves := (visited hv).moves
  have hothers : ∀ c', c' ≠ c → s'.within c' = s.within c' := by
    intro c' hc
    unfold within
    rw [ht.same.gain, hmoves.others c' hc]
  by_cases hempty : s.jobsOf c = []
  · obtain ⟨rfl, hjobs, hdeficit⟩ := ht.idle hempty
    refine ⟨fun c' hc' => ?_, ?_, fun _ => ?_, hothers⟩
    · by_cases heq : c' = c
      · rw [heq, hdeficit]
      · rw [ht.others c' heq]
        exact h c' (ht.same.gain c' ▸ hc')
    · simp [within, hempty, hjobs]
    · simp [within, hjobs]
  · obtain ⟨deficit, hserve, hdeficit⟩ := ht.serves hempty
    by_cases hgain : s.gainOf c = 0
    · rw [h c hgain, hgain, UInt64.zero_add, serve_zero] at hserve
      obtain ⟨rfl, hrest⟩ := Prod.mk.inj hserve
      obtain ⟨rfl, hleft⟩ := Prod.mk.inj hrest
      have hnone : s'.within c = [] := by
        rw [within, ht.same.gain, if_pos hgain, ← hleft]
        exact List.takeWhile_eq_nil_iff.mpr fun hlt => by
          simpa using List.dropWhile_get_zero_not _ _ hlt
      refine ⟨fun c' hc' => ?_, ?_, fun _ => hnone, hothers⟩
      · by_cases heq : c' = c
        · rw [heq, hdeficit, ite_self]
        · rw [ht.others c' heq]
          exact h c' (ht.same.gain c' ▸ hc')
      · rw [hnone, within, if_pos hgain, List.append_nil]
    · refine ⟨fun c' hc' => ?_, ?_, fun h0 => absurd h0 hgain, hothers⟩
      · have heq : c' ≠ c := fun heq => hgain (by rw [← heq, ← ht.same.gain, hc'])
        rw [ht.others c' heq]
        exact h c' (ht.same.gain c' ▸ hc')
      · rw [within, within, ht.same.gain, if_neg hgain, if_neg hgain]
        exact serve_split hserve

end HelixRouter.FairQueue.WfqScheduler
