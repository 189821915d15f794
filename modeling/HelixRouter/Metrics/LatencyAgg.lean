import HelixRouter.Floats.F64
import HelixRouter.Statistics.Samples
import Mathlib.Data.List.Induction
import Mathlib.Data.Rat.Floor
import Mathlib.Order.Bounds.Basic

namespace HelixRouter.Metrics

open Floats Statistics

def latencyWindowSize : Nat := 512

/-- What is kept of the latencies of one strategy, in whole milliseconds. -/
structure LatencyAgg where
  count : Nat := 0
  sumMs : F64 := .finite 0
  emaMs : F64 := .finite 0
  samplesMs : List Nat := []
  p50Ms : Nat := 0
  p95Ms : Nat := 0
  p99Ms : Nat := 0
  minMs : Nat := 0
  maxMs : Nat := 0
  dirty : Bool := false

/-- The sample of a rank, from samples in order. -/
def percentileFromSorted (sorted : List Nat) (q : ℚ) : Nat :=
  if sorted = [] then 0
  else
    let n := sorted.length
    let idx := ⌊((n - 1 : Nat) : ℚ) * q⌋₊
    sorted.getD (min idx (n - 1)) 0

namespace LatencyAgg

def record (agg : LatencyAgg) (ms : Nat) (alpha : F64) : LatencyAgg :=
  let count := agg.count + 1
  let kept := if latencyWindowSize ≤ agg.samplesMs.length then agg.samplesMs.tail
    else agg.samplesMs
  { agg with
    count := count
    sumMs := agg.sumMs.add (.ofRat ms)
    emaMs := if count = 1 then .ofRat ms
      else (alpha.mul (.ofRat ms)).add (((F64.finite 1).sub alpha).mul agg.emaMs)
    samplesMs := kept ++ [ms]
    minMs := if count = 1 then ms else if ms < agg.minMs then ms else agg.minMs
    maxMs := if count = 1 then ms else if agg.maxMs < ms then ms else agg.maxMs
    dirty := true }

/-- The percentiles are only computed where a sample is newer than they are. -/
def syncPercentiles (agg : LatencyAgg) : LatencyAgg :=
  if agg.dirty then
    let sorted := agg.samplesMs.insertionSort (· ≤ ·)
    { agg with
      p50Ms := percentileFromSorted sorted (50 / 100)
      p95Ms := percentileFromSorted sorted (95 / 100)
      p99Ms := percentileFromSorted sorted (99 / 100)
      dirty := false }
  else agg

end LatencyAgg

inductive LatencyOp where
  | record (ms : Nat) (alpha : F64)
  | syncPercentiles

def LatencyOp.apply (agg : LatencyAgg) : LatencyOp → LatencyAgg
  | .record ms alpha => agg.record ms alpha
  | .syncPercentiles => agg.syncPercentiles

def LatencyOp.recorded : LatencyOp → List Nat
  | .record ms _ => [ms]
  | .syncPercentiles => []

/-- A new aggregate after some calls, and what they recorded. -/
def aggregate (ops : List LatencyOp) : LatencyAgg := ops.foldl LatencyOp.apply {}

def history (ops : List LatencyOp) : List Nat := ops.flatMap LatencyOp.recorded

section Percentiles

variable {window : List Nat} {p q : ℚ}

/-- The rank of a percentile among so many samples. -/
def rank (n : Nat) (q : ℚ) : Nat := ⌊((n - 1 : Nat) : ℚ) * q⌋₊

/-- A sample with enough others at most as great and enough at least as great. -/
structure IsPercentile (window : List Nat) (q : ℚ) (ms : Nat) : Prop where
  mem : ms ∈ window
  below : rank window.length q + 1 ≤ window.countP (· ≤ ms)
  above : window.length - rank window.length q ≤ window.countP (ms ≤ ·)

theorem rank_le (hq : q ≤ 1) (n : Nat) : rank n q ≤ n - 1 := by
  apply Nat.floor_le_of_le
  have hn : (0 : ℚ) ≤ ((n - 1 : Nat) : ℚ) := Nat.cast_nonneg _
  exact mul_le_of_le_one_right hn hq

theorem rank_mono (hpq : p ≤ q) (n : Nat) : rank n p ≤ rank n q := by
  apply Nat.floor_mono
  exact mul_le_mul_of_nonneg_left hpq (Nat.cast_nonneg _)

theorem percentileFromSorted_eq (hne : window ≠ []) (hq : q ≤ 1) :
    ∃ h : rank window.length q < window.length,
      percentileFromSorted window q = window[rank window.length q] := by
  have hpos : 0 < window.length := List.length_pos_iff.mpr hne
  have hle := rank_le hq window.length
  have hlt : rank window.length q < window.length := by omega
  refine ⟨hlt, ?_⟩
  unfold percentileFromSorted
  rw [if_neg hne]
  change window.getD (min (rank window.length q) _) 0 = _
  rw [Nat.min_eq_left hle, List.getD_eq_getElem?_getD, List.getElem?_eq_getElem hlt]
  rfl

theorem sorted_insertionSort (window : List Nat) :
    (window.insertionSort (· ≤ ·)).Pairwise (· ≤ ·) := List.pairwise_insertionSort _ _

theorem isPercentile_of_sorted (hne : window ≠ []) (hq : q ≤ 1) :
    IsPercentile window q (percentileFromSorted (window.insertionSort (· ≤ ·)) q) := by
  have hperm := List.perm_insertionSort (· ≤ ·) window
  have hne' : window.insertionSort (· ≤ ·) ≠ [] := fun h => hne (by
    rw [h] at hperm
    exact hperm.symm.eq_nil)
  obtain ⟨hlt, heq⟩ := percentileFromSorted_eq hne' hq
  rw [heq]
  have hbelow := lt_countP_le (sorted_insertionSort window) hlt
  have habove := le_countP_ge (sorted_insertionSort window) hlt
  refine ⟨hperm.mem_iff.mp (List.getElem_mem hlt), ?_, ?_⟩
  · rw [← hperm.countP_eq, ← hperm.length_eq]
    exact hbelow
  · rw [← hperm.countP_eq, ← hperm.length_eq]
    exact habove

theorem percentileFromSorted_mono (hpq : p ≤ q) (hq : q ≤ 1) :
    percentileFromSorted (window.insertionSort (· ≤ ·)) p ≤
      percentileFromSorted (window.insertionSort (· ≤ ·)) q := by
  by_cases hne : window.insertionSort (· ≤ ·) = []
  · rw [hne]
    exact Nat.le_refl 0
  · obtain ⟨_, hp⟩ := percentileFromSorted_eq hne (hpq.trans hq)
    obtain ⟨hlt, hq⟩ := percentileFromSorted_eq hne hq
    rw [hp, hq]
    exact getElem_mono (sorted_insertionSort window) (rank_mono hpq _) hlt

end Percentiles

/-- What the aggregate says of all that was recorded. -/
structure Tracks (agg : LatencyAgg) (history : List Nat) : Prop where
  count : agg.count = history.length
  samples : agg.samplesMs = history.drop (history.length - latencyWindowSize)
  least : history ≠ [] → IsLeast {ms | ms ∈ history} agg.minMs
  greatest : history ≠ [] → IsGreatest {ms | ms ∈ history} agg.maxMs

/-- The percentiles are those of the samples. -/
structure Fresh (agg : LatencyAgg) : Prop where
  p50 : agg.p50Ms = percentileFromSorted (agg.samplesMs.insertionSort (· ≤ ·)) (50 / 100)
  p95 : agg.p95Ms = percentileFromSorted (agg.samplesMs.insertionSort (· ≤ ·)) (95 / 100)
  p99 : agg.p99Ms = percentileFromSorted (agg.samplesMs.insertionSort (· ≤ ·)) (99 / 100)

section Steps

variable {agg : LatencyAgg} {past : List Nat}

theorem isLeast_concat {a b : Nat} (h : IsLeast {x | x ∈ past} a) :
    IsLeast {x | x ∈ past ++ [b]} (if b < a then b else a) := by
  obtain ⟨hmem, hle⟩ := h
  split
  · rename_i hlt
    refine ⟨by simp, fun x hx => ?_⟩
    rcases List.mem_append.mp hx with hx | hx
    · exact Nat.le_trans (Nat.le_of_lt hlt) (hle hx)
    · exact Nat.le_of_eq (List.mem_singleton.mp hx).symm
  · rename_i hge
    refine ⟨List.mem_append_left _ hmem, fun x hx => ?_⟩
    rcases List.mem_append.mp hx with hx | hx
    · exact hle hx
    · rw [List.mem_singleton.mp hx]
      exact Nat.le_of_not_lt hge

theorem isGreatest_concat {a b : Nat} (h : IsGreatest {x | x ∈ past} a) :
    IsGreatest {x | x ∈ past ++ [b]} (if a < b then b else a) := by
  obtain ⟨hmem, hle⟩ := h
  split
  · rename_i hlt
    refine ⟨by simp, fun x hx => ?_⟩
    rcases List.mem_append.mp hx with hx | hx
    · exact Nat.le_trans (hle hx) (Nat.le_of_lt hlt)
    · exact Nat.le_of_eq (List.mem_singleton.mp hx)
  · rename_i hge
    refine ⟨List.mem_append_left _ hmem, fun x hx => ?_⟩
    rcases List.mem_append.mp hx with hx | hx
    · exact hle hx
    · rw [List.mem_singleton.mp hx]
      exact Nat.le_of_not_lt hge

/-- A full window loses its oldest sample to a new one. -/
theorem drop_concat (past : List Nat) (ms : Nat) :
    (past ++ [ms]).drop ((past ++ [ms]).length - latencyWindowSize) =
      (if latencyWindowSize ≤ (past.drop (past.length - latencyWindowSize)).length
        then (past.drop (past.length - latencyWindowSize)).tail
        else past.drop (past.length - latencyWindowSize)) ++ [ms] := by
  rw [List.length_append, List.length_singleton, List.length_drop]
  have hpos : 0 < latencyWindowSize := by decide
  split
  · rename_i hfull
    have hsub : past.length + 1 - latencyWindowSize = past.length - latencyWindowSize + 1 := by omega
    rw [List.tail_drop, hsub, List.drop_append_of_le_length (by omega)]
  · rename_i hroom
    have hsub : past.length + 1 - latencyWindowSize = past.length - latencyWindowSize := by omega
    rw [hsub, List.drop_append_of_le_length (by omega)]

theorem Tracks.record (h : Tracks agg past) (ms : Nat) (alpha : F64) :
    Tracks (agg.record ms alpha) (past ++ [ms]) := by
  have hfirst : agg.count + 1 = 1 ↔ past = [] := by
    rw [h.count, Nat.add_eq_right, List.length_eq_zero_iff]
  refine ⟨?_, ?_, fun _ => ?_, fun _ => ?_⟩
  · simp [LatencyAgg.record, h.count]
  · rw [drop_concat, ← h.samples]
    rfl
  · unfold LatencyAgg.record
    by_cases hp : past = []
    · dsimp only
      rw [if_pos (hfirst.mpr hp), hp]
      simp [IsLeast, lowerBounds]
    · dsimp only
      rw [if_neg fun hc => hp (hfirst.mp hc)]
      exact isLeast_concat (h.least hp)
  · unfold LatencyAgg.record
    by_cases hp : past = []
    · dsimp only
      rw [if_pos (hfirst.mpr hp), hp]
      simp [IsGreatest, upperBounds]
    · dsimp only
      rw [if_neg fun hc => hp (hfirst.mp hc)]
      exact isGreatest_concat (h.greatest hp)

theorem Tracks.sync (h : Tracks agg past) : Tracks agg.syncPercentiles past := by
  unfold LatencyAgg.syncPercentiles
  split
  · exact ⟨h.count, h.samples, h.least, h.greatest⟩
  · exact h

theorem fresh_sync (h : agg.dirty = false → Fresh agg) : Fresh agg.syncPercentiles := by
  unfold LatencyAgg.syncPercentiles
  split
  · exact ⟨rfl, rfl, rfl⟩
  · rename_i hd
    exact h (Bool.eq_false_iff.mpr hd)

end Steps

/-- The percentiles are behind only while the flag says so. -/
theorem aggregate_tracks (ops : List LatencyOp) : Tracks (aggregate ops) (history ops) ∧
    ((aggregate ops).dirty = false → Fresh (aggregate ops)) := by
  induction ops using List.reverseRec with
  | nil =>
    refine ⟨⟨rfl, rfl, fun h => absurd rfl h, fun h => absurd rfl h⟩, fun _ => ⟨rfl, rfl, rfl⟩⟩
  | append_singleton ops op ih =>
    have happly : aggregate (ops ++ [op]) = op.apply (aggregate ops) := by simp [aggregate]
    have hhistory : history (ops ++ [op]) = history ops ++ op.recorded := by simp [history]
    rw [happly, hhistory]
    cases op with
    | record ms alpha => exact ⟨ih.1.record ms alpha, fun h => nomatch h⟩
    | syncPercentiles =>
      rw [show LatencyOp.syncPercentiles.recorded = [] from rfl, List.append_nil]
      exact ⟨ih.1.sync, fun _ => fresh_sync ih.2⟩

/-- Until something is recorded the aggregate stays as it is new, synced or not. -/
theorem aggregate_unrecorded {ops : List LatencyOp} (h : history ops = []) :
    aggregate ops = {} := by
  induction ops using List.reverseRec with
  | nil => rfl
  | append_singleton ops op ih =>
    have happly : aggregate (ops ++ [op]) = op.apply (aggregate ops) := by simp [aggregate]
    have hhistory : history ops ++ op.recorded = [] := by simpa [history] using h
    obtain ⟨hpast, hop⟩ := List.append_eq_nil_iff.mp hhistory
    rw [happly, ih hpast]
    cases op with
    | record ms alpha => cases hop
    | syncPercentiles => rfl

/-- The window is the last samples, the extremes are those of all, and once the percentiles
are up to date they are in order and, where there is a sample, of their ranks; before the first
one they are zero, whether up to date or not. -/
theorem aggregate_percentiles (ops : List LatencyOp) :
    Tracks (aggregate ops) (history ops) ∧
    let synced := aggregate (ops ++ [.syncPercentiles])
    (synced.p50Ms ≤ synced.p95Ms ∧ synced.p95Ms ≤ synced.p99Ms) ∧
    (history ops ≠ [] → IsPercentile synced.samplesMs (50 / 100) synced.p50Ms ∧
      IsPercentile synced.samplesMs (95 / 100) synced.p95Ms ∧
      IsPercentile synced.samplesMs (99 / 100) synced.p99Ms) ∧
    (history ops = [] → (aggregate ops).p50Ms = 0 ∧ (aggregate ops).p95Ms = 0 ∧
      (aggregate ops).p99Ms = 0) := by
  obtain ⟨htracks, hfresh⟩ := aggregate_tracks ops
  have hsynced : aggregate (ops ++ [.syncPercentiles]) = (aggregate ops).syncPercentiles := by
    simp [aggregate, LatencyOp.apply]
  obtain ⟨h50, h95, h99⟩ := fresh_sync hfresh
  have hwindow := htracks.sync.samples
  refine ⟨htracks, ?_⟩
  dsimp only
  rw [hsynced, h50, h95, h99]
  refine ⟨⟨percentileFromSorted_mono ?_ ?_, percentileFromSorted_mono ?_ ?_⟩, fun hne => ?_,
    fun hnone => ?_⟩
  · norm_num
  · norm_num
  · norm_num
  · norm_num
  · have hwindow : (aggregate ops).syncPercentiles.samplesMs ≠ [] := by
      rw [hwindow]
      intro hnil
      have hlen := congrArg List.length hnil
      rw [List.length_drop, List.length_nil] at hlen
      have hpos : 0 < (history ops).length := List.length_pos_iff.mpr hne
      have : 0 < latencyWindowSize := by decide
      omega
    refine ⟨isPercentile_of_sorted hwindow ?_, isPercentile_of_sorted hwindow ?_,
      isPercentile_of_sorted hwindow ?_⟩
    · norm_num
    · norm_num
    · norm_num
  · rw [aggregate_unrecorded hnone]
    exact ⟨rfl, rfl, rfl⟩

/-- With nothing recorded the percentiles are zero, which is no sample. -/
theorem unrecorded_percentile : ¬ (aggregate [.syncPercentiles]).p50Ms ∈
    (aggregate [.syncPercentiles]).samplesMs := by
  decide +kernel

end HelixRouter.Metrics
