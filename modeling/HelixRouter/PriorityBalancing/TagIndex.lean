import HelixRouter.PriorityBalancing.PriorityLoadBalancer
import HelixRouter.Runs.Stepwise
import Mathlib.Data.List.Nodup

namespace HelixRouter.PriorityBalancing

open Runs

namespace AffinityMap

variable {map : AffinityMap} {id tag : String} {tags : List String}

theorem ids_push (map : AffinityMap) (id t tag : String) :
    ids (push id map t) tag = if tag = t then ids map tag ++ [id] else ids map tag := by
  unfold push ids
  by_cases ht : tag = t
  · subst ht
    rw [AList.lookup_insert, if_pos rfl, Option.getD_some]
  · rw [AList.lookup_insert_ne ht, if_neg ht]

theorem ids_drop (map : AffinityMap) (id t tag : String) :
    ids (drop id map t) tag = if tag = t then (ids map tag).filter (· ≠ id) else ids map tag := by
  unfold drop ids
  by_cases ht : tag = t
  · subst ht
    rw [if_pos rfl]
    cases hl : map.lookup tag with
    | none => rw [hl]; rfl
    | some ids => rw [AList.lookup_insert, Option.getD_some, Option.getD_some]
  · rw [if_neg ht]
    cases map.lookup t with
    | none => rfl
    | some ids => rw [AList.lookup_insert_ne ht]

/-- A tag that is listed more than once gets the id as often. -/
theorem ids_foldl_push (tags : List String) (map : AffinityMap) :
    ids (tags.foldl (push id) map) tag = ids map tag ++ List.replicate (tags.count tag) id := by
  induction tags generalizing map with
  | nil => simp
  | cons t tags ih =>
    rw [List.foldl_cons, ih, ids_push]
    by_cases ht : tag = t
    · subst ht
      rw [if_pos rfl, List.count_cons_self, List.replicate_succ, List.append_assoc]
      rfl
    · rw [if_neg ht, List.count_cons_of_ne (Ne.symm ht)]

theorem ids_foldl_drop (tags : List String) (map : AffinityMap) :
    ids (tags.foldl (drop id) map) tag =
      if tag ∈ tags then (ids map tag).filter (· ≠ id) else ids map tag := by
  induction tags generalizing map with
  | nil => simp
  | cons t tags ih =>
    rw [List.foldl_cons, ih, ids_drop]
    by_cases ht : tag = t
    · subst ht
      simp
    · simp [ht]

end AffinityMap

open AffinityMap

/-- Each id is of one worker, and each tag lists the workers that carry it, once. -/
structure Coherent (lb : PriorityLoadBalancer) : Prop where
  distinct : (lb.workers.map (·.workerId)).Nodup
  once : ∀ tag, (lb.workersForTag tag).Nodup
  exactly : ∀ tag id, id ∈ lb.workersForTag tag ↔
    ∃ w ∈ lb.workers, w.workerId = id ∧ tag ∈ w.affinityTags

theorem coherent_empty : Coherent {} := ⟨List.nodup_nil, fun _ => List.nodup_nil, by
  simp [PriorityLoadBalancer.workersForTag, ids]⟩

section Steps

variable {lb : PriorityLoadBalancer} {workers : List WorkerStats} {map : AffinityMap}
  {id : String} {w stats : WorkerStats} {pos : Nat}

theorem Coherent.of_perm (h : Coherent ⟨workers, map⟩) {workers' : List WorkerStats}
    (hp : workers'.Perm workers) : Coherent ⟨workers', map⟩ := by
  refine ⟨(hp.map _).nodup_iff.mpr h.distinct, h.once, fun tag id => ?_⟩
  apply (h.exactly tag id).trans
  exact exists_congr fun w => and_congr_left fun _ => hp.mem_iff.symm

theorem coherent_perm_iff {workers' : List WorkerStats} (hp : workers'.Perm workers) :
    Coherent ⟨workers', map⟩ ↔ Coherent ⟨workers, map⟩ :=
  ⟨fun h => h.of_perm hp.symm, fun h => h.of_perm hp⟩

theorem ids_cons (workers : List WorkerStats) (map : AffinityMap) (tag : String) :
    PriorityLoadBalancer.workersForTag
        ⟨workers, stats.affinityTags.foldl (push stats.workerId) map⟩ tag =
      ids map tag ++ List.replicate (stats.affinityTags.count tag) stats.workerId :=
  ids_foldl_push ..

/-- A worker is added coherently if its id is new and its tags are distinct, and not otherwise. -/
theorem Coherent.cons_iff (h : Coherent ⟨workers, map⟩) :
    Coherent ⟨stats :: workers, stats.affinityTags.foldl (push stats.workerId) map⟩ ↔
      stats.workerId ∉ workers.map (·.workerId) ∧ stats.affinityTags.Nodup := by
  constructor
  · intro hnew
    refine ⟨(List.nodup_cons.mp hnew.distinct).1, ?_⟩
    apply List.nodup_iff_count_le_one.mpr
    intro tag
    have honce := hnew.once tag
    rw [ids_cons] at honce
    exact List.nodup_replicate.mp (List.nodup_append.mp honce).2.1
  · rintro ⟨hid, htags⟩
    have hout : ∀ tag, stats.workerId ∉ ids map tag := by
      intro tag hin
      obtain ⟨w, hw, hsame, _⟩ := (h.exactly tag _).mp hin
      exact hid (List.mem_map.mpr ⟨w, hw, hsame⟩)
    refine ⟨List.nodup_cons.mpr ⟨hid, h.distinct⟩, fun tag => ?_, fun tag id => ?_⟩
    · rw [ids_cons]
      apply (h.once tag).append
      · exact List.nodup_replicate.mpr (List.nodup_iff_count_le_one.mp htags tag)
      · intro id hin hrep
        rw [List.eq_of_mem_replicate hrep] at hin
        exact hout tag hin
    · change _ ↔ ∃ w ∈ stats :: workers, w.workerId = id ∧ tag ∈ w.affinityTags
      rw [ids_cons, List.mem_append, List.mem_replicate, List.exists_mem_cons_iff, or_comm]
      refine or_congr ?_ (h.exactly tag id)
      rw [← Nat.pos_iff_ne_zero, List.count_pos_iff, and_comm, eq_comm]

/-- The worker at the position of an id, and the workers before and after it. -/
theorem position_spec (h : lb.position id = some pos) : ∃ before w after,
    lb.workers = before ++ w :: after ∧ before.length = pos ∧ w.workerId = id := by
  obtain ⟨hlt, hid, _⟩ := List.findIdx?_eq_some_iff_getElem.mp h
  refine ⟨lb.workers.take pos, lb.workers[pos], lb.workers.drop (pos + 1), ?_, ?_, ?_⟩
  · rw [← List.drop_eq_getElem_cons hlt, List.take_append_drop]
  · exact List.length_take_of_le hlt.le
  · exact of_decide_eq_true hid

theorem position_none (h : lb.position id = none) : id ∉ lb.workers.map (·.workerId) := by
  intro hin
  obtain ⟨w, hw, hid⟩ := List.mem_map.mp hin
  have hnot := List.findIdx?_eq_none_iff.mp h w hw
  exact absurd hid (of_decide_eq_false hnot)

/-- A worker is taken out coherently. -/
theorem Coherent.tail (h : Coherent ⟨w :: workers, map⟩) :
    Coherent ⟨workers, w.affinityTags.foldl (AffinityMap.drop w.workerId) map⟩ := by
  obtain ⟨hnew, hdistinct⟩ := List.nodup_cons.mp h.distinct
  have hother : ∀ v ∈ workers, v.workerId ≠ w.workerId :=
    fun v hv hid => hnew (List.mem_map.mpr ⟨v, hv, hid⟩)
  have hexactly : ∀ tag id, id ∈ ids map tag ↔
      w.workerId = id ∧ tag ∈ w.affinityTags ∨
        ∃ v ∈ workers, v.workerId = id ∧ tag ∈ v.affinityTags := by
    intro tag id
    apply (h.exactly tag id).trans
    exact List.exists_mem_cons_iff _ _ _
  have hids : ∀ tag, ids (w.affinityTags.foldl (AffinityMap.drop w.workerId) map) tag =
      (ids map tag).filter (· ≠ w.workerId) := by
    intro tag
    rw [ids_foldl_drop]
    split
    · rfl
    · rename_i htag
      -- A tag that the worker does not carry does not list it.
      refine (List.filter_eq_self.mpr fun id hin => decide_eq_true ?_).symm
      rintro rfl
      rcases (hexactly tag _).mp hin with ⟨_, hcarries⟩ | ⟨v, hv, hid, _⟩
      · exact htag hcarries
      · exact hother v hv hid
  refine ⟨hdistinct, fun tag => ?_, fun tag id => ?_⟩
  · change (ids _ tag).Nodup
    rw [hids]
    exact (h.once tag).filter _
  · change id ∈ ids _ tag ↔ ∃ v ∈ workers, v.workerId = id ∧ tag ∈ v.affinityTags
    rw [hids, List.mem_filter, decide_eq_true_iff, hexactly]
    constructor
    · rintro ⟨⟨hid, _⟩ | hin, hne⟩
      · exact absurd hid.symm hne
      · exact hin
    · rintro ⟨v, hv, rfl, hcarries⟩
      exact ⟨Or.inr ⟨v, hv, rfl, hcarries⟩, hother v hv⟩

/-- What remains of a coherent balancer without a worker it has. -/
theorem Coherent.without (h : Coherent lb) {before after : List WorkerStats}
    (hworkers : lb.workers = before ++ w :: after) :
    Coherent ⟨before ++ after, w.affinityTags.foldl (AffinityMap.drop w.workerId) lb.affinityMap⟩ ∧
      ∀ id, id ∈ (before ++ after).map (·.workerId) ↔
        id ∈ lb.workers.map (·.workerId) ∧ id ≠ w.workerId := by
  have hp : lb.workers.Perm (w :: (before ++ after)) := hworkers ▸ List.perm_middle
  have hcons : Coherent ⟨w :: (before ++ after), lb.affinityMap⟩ := h.of_perm hp.symm
  refine ⟨hcons.tail, fun id => ?_⟩
  have hnew := (List.nodup_cons.mp hcons.distinct).1
  rw [(hp.map _).mem_iff, List.map_cons, List.mem_cons]
  constructor
  · intro hin
    refine ⟨Or.inr hin, ?_⟩
    rintro rfl
    exact hnew hin
  · rintro ⟨rfl | hin, hne⟩
    · exact absurd rfl hne
    · exact hin

theorem Coherent.removeWorker (h : Coherent lb) (id : String) : Coherent (lb.removeWorker id) ∧
    id ∉ (lb.removeWorker id).workers.map (·.workerId) := by
  cases hp : lb.position id with
  | none =>
    rw [PriorityLoadBalancer.removeWorker, hp]
    exact ⟨h, position_none hp⟩
  | some pos =>
    obtain ⟨before, w, after, hworkers, rfl, rfl⟩ := position_spec hp
    have hremoved : lb.removeWorker w.workerId = ⟨before ++ after,
        w.affinityTags.foldl (AffinityMap.drop w.workerId) lb.affinityMap⟩ := by
      rw [PriorityLoadBalancer.removeWorker, hp, hworkers]
      simp [List.eraseIdx_append_of_length_le]
    obtain ⟨hrest, hids⟩ := h.without hworkers
    rw [hremoved]
    exact ⟨hrest, fun hin => ((hids _).mp hin).2 rfl⟩

theorem Coherent.registerWorker_iff (h : Coherent lb) :
    Coherent (lb.registerWorker stats) ↔ stats.affinityTags.Nodup := by
  obtain ⟨hrest, hnew⟩ := h.removeWorker stats.workerId
  rw [PriorityLoadBalancer.registerWorker]
  generalize lb.removeWorker stats.workerId = rest at hrest hnew
  obtain ⟨workers, map⟩ := rest
  rw [coherent_perm_iff (List.perm_append_singleton _ _), hrest.cons_iff]
  exact and_iff_right hnew

theorem Coherent.updateWorker_iff (h : Coherent lb) : Coherent (lb.updateWorker id stats) ↔
    stats.affinityTags.Nodup ∧ (id ∈ lb.workers.map (·.workerId) → stats.workerId ≠ id →
      stats.workerId ∉ lb.workers.map (·.workerId)) := by
  cases hp : lb.position id with
  | none =>
    rw [PriorityLoadBalancer.updateWorker, hp]
    refine h.registerWorker_iff.trans (and_iff_left ?_).symm
    intro hin
    exact absurd hin (position_none hp)
  | some pos =>
    obtain ⟨before, w, after, hworkers, rfl, rfl⟩ := position_spec hp
    have hupdated : lb.updateWorker w.workerId stats = ⟨before ++ stats :: after,
        stats.affinityTags.foldl (push stats.workerId)
          (w.affinityTags.foldl (AffinityMap.drop w.workerId) lb.affinityMap)⟩ := by
      rw [PriorityLoadBalancer.updateWorker, hp, hworkers]
      simp
    obtain ⟨hrest, hids⟩ := h.without hworkers
    have hin : w.workerId ∈ lb.workers.map (·.workerId) := by simp [hworkers]
    rw [hupdated, coherent_perm_iff List.perm_middle, hrest.cons_iff, hids, and_comm]
    refine and_congr_right fun _ => ?_
    constructor
    · intro hnot _ hne hold
      exact hnot ⟨hold, hne⟩
    · rintro hnot ⟨hold, hne⟩
      exact hnot hin hne hold

end Steps

inductive Op where
  | registerWorker (stats : WorkerStats)
  | updateWorker (workerId : String) (stats : WorkerStats)
  | removeWorker (workerId : String)

def step (lb : PriorityLoadBalancer) : Op → Option PriorityLoadBalancer
  | .registerWorker stats => some (lb.registerWorker stats)
  | .updateWorker workerId stats => some (lb.updateWorker workerId stats)
  | .removeWorker workerId => some (lb.removeWorker workerId)

/-- New stats list no tag twice, and those that give a registered worker another id do not
give it one that is registered as well. -/
def Orderly (lb : PriorityLoadBalancer) : Op → Prop
  | .registerWorker stats => stats.affinityTags.Nodup
  | .updateWorker workerId stats => stats.affinityTags.Nodup ∧
      (workerId ∈ lb.workers.map (·.workerId) → stats.workerId ≠ workerId →
        stats.workerId ∉ lb.workers.map (·.workerId))
  | .removeWorker _ => True

theorem index_coherent_iff (ops : List Op) :
    Throughout step Coherent {} ops ↔ EachStep step Orderly {} ops := by
  apply throughout_iff_eachStep coherent_empty
  intro lb op _ lb' h hstep
  cases op with
  | registerWorker stats =>
    cases hstep
    exact h.registerWorker_iff
  | updateWorker workerId stats =>
    cases hstep
    exact h.updateWorker_iff
  | removeWorker workerId =>
    cases hstep
    exact iff_of_true (h.removeWorker workerId).1 trivial

def worker (id : String) (tags : List String) : WorkerStats where
  workerId := id
  queueDepth := 0
  maxCapacity := 10
  avgLatencyMs := 10
  errorRate := 0
  affinityTags := tags
  isHealthy := true

/-- A worker that takes over the id of another leaves two of that id. -/
theorem two_workers_of_one_id : ¬ Throughout step Coherent {}
    [.registerWorker (worker "a" ["gpu"]), .registerWorker (worker "b" ["gpu"]),
      .updateWorker "a" (worker "b" ["gpu"])] := by
  intro h
  have hdistinct := (h.last rfl).distinct
  exact absurd hdistinct (by decide +kernel)

end HelixRouter.PriorityBalancing
