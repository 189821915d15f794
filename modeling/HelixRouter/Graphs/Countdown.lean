import HelixRouter.Containers.Retain
import HelixRouter.Graphs.Cycles
import Mathlib.Algebra.BigOperators.Group.Finset.Basic
import Mathlib.Algebra.Order.BigOperators.Group.Finset

namespace HelixRouter.Graphs

variable {α : Type} [DecidableEq α]

/-- One more edge ends at a node, which is counted if the node is known. -/
def countEdge (degree : AList (fun _ : α => Nat)) (y : α) : AList (fun _ : α => Nat) :=
  match degree.lookup y with
  | none => degree
  | some d => degree.insert y (d + 1)

theorem lookup_foldl_countEdge (ys : List α) (degree : AList (fun _ : α => Nat)) (y : α) :
    (ys.foldl countEdge degree).lookup y = (degree.lookup y).map (· + ys.count y) := by
  induction ys generalizing degree with
  | nil => simp
  | cons z ys ih =>
    rw [List.foldl_cons, ih, countEdge]
    by_cases hz : y = z
    · subst hz
      cases hd : degree.lookup y with
      | none => simp [hd]
      | some d =>
        simp only [AList.lookup_insert, Option.map_some, List.count_cons_self]
        congr 1
        omega
    · rw [List.count_cons_of_ne (Ne.symm hz)]
      cases hd : degree.lookup z with
      | none => rfl
      | some d => rw [AList.lookup_insert_ne hz]

/-- Kahn's algorithm over a multigraph: how many edges into each node are still open, the
nodes that wait for none, and those taken out. -/
structure Countdown (α : Type) where
  degree : AList (fun _ : α => Nat)
  queue : List α
  order : List α := []

namespace Countdown

/-- An edge into a node is settled. With the last one the node is ready. -/
def settle (s : Countdown α) (y : α) : Countdown α :=
  match s.degree.lookup y with
  | none => s
  | some d =>
    { s with
      degree := s.degree.insert y (d - 1)
      queue := if d - 1 = 0 then s.queue ++ [y] else s.queue }

def drain (succ : α → List α) : Nat → Countdown α → Option (Countdown α)
  | 0, s => if s.queue = [] then some s else none
  | n + 1, s =>
    match s.queue with
    | [] => some s
    | x :: rest =>
      drain succ n ((succ x).foldl settle { s with queue := rest, order := s.order ++ [x] })

section Counting

variable (nodes : List α) (total : α → Nat)

/-- What the counts say after some edges have been settled, given by where they end. -/
structure Settled (ends : List α) (s : Countdown α) : Prop where
  degree : ∀ y, s.degree.lookup y = if y ∈ nodes then some (total y - ends.count y) else none
  distinct : (s.order ++ s.queue).Nodup
  ready : ∀ y, y ∈ s.order ++ s.queue ↔ y ∈ nodes ∧ total y ≤ ends.count y

variable {nodes total} {ends : List α} {s : Countdown α}

theorem count_concat (ends : List α) (y z : α) :
    (ends ++ [y]).count z = ends.count z + if y = z then 1 else 0 := by
  rw [List.count_append, List.count_singleton]
  simp only [beq_iff_eq]

/-- Edges into a node that is not known are not counted. -/
theorem Settled.settle_unknown (h : Settled nodes total ends s) {y : α} (hy : y ∉ nodes) :
    Settled nodes total (ends ++ [y]) (s.settle y) := by
  have hl := h.degree y
  rw [if_neg hy] at hl
  rw [Countdown.settle, hl]
  refine ⟨fun z => ?_, h.distinct, fun z => ?_⟩
  · rw [count_concat, h.degree z]
    by_cases hz : y = z
    · subst hz
      rw [if_neg hy, if_neg hy]
    · rw [if_neg hz, Nat.add_zero]
  · rw [count_concat, h.ready z]
    by_cases hz : y = z
    · subst hz
      exact iff_of_false (fun hin => hy hin.1) (fun hin => hy hin.1)
    · rw [if_neg hz, Nat.add_zero]

theorem Settled.settle_known (h : Settled nodes total ends s) {y : α} (hy : y ∈ nodes)
    (hlt : ends.count y < total y) : Settled nodes total (ends ++ [y]) (s.settle y) := by
  have hnew : y ∉ s.order ++ s.queue := fun hin => Nat.not_lt.mpr ((h.ready y).mp hin).2 hlt
  have hl := h.degree y
  rw [if_pos hy] at hl
  rw [Countdown.settle, hl]
  refine ⟨fun z => ?_, ?_, fun z => ?_⟩
  · rw [count_concat]
    by_cases hz : z = y
    · subst hz
      rw [AList.lookup_insert, if_pos hy, if_pos rfl, Nat.sub_sub]
    · rw [AList.lookup_insert_ne hz, if_neg (Ne.symm hz), h.degree z, Nat.add_zero]
  · change (s.order ++ if _ then s.queue ++ [y] else s.queue).Nodup
    split
    · rw [← List.append_assoc]
      exact h.distinct.append (List.nodup_singleton y) (by simpa using hnew)
    · exact h.distinct
  · change z ∈ s.order ++ (if _ then s.queue ++ [y] else s.queue) ↔ _
    have hz := h.ready z
    rw [count_concat]
    by_cases hzy : y = z
    · -- The node becomes ready with its last edge only.
      subst hzy
      rw [if_pos rfl]
      split
      · simp [hy]
        omega
      · refine iff_of_false hnew ?_
        rintro ⟨_, hle⟩
        omega
    · rw [if_neg hzy, Nat.add_zero, ← hz]
      split
      · simp [Ne.symm hzy]
      · exact Iff.rfl

/-- One more edge settled, of those that there are. -/
theorem Settled.settle (h : Settled nodes total ends s) {y : α}
    (hy : y ∈ nodes → ends.count y < total y) :
    Settled nodes total (ends ++ [y]) (s.settle y) := by
  by_cases hmem : y ∈ nodes
  · exact h.settle_known hmem (hy hmem)
  · exact h.settle_unknown hmem

theorem Settled.foldl (h : Settled nodes total ends s) (ys : List α)
    (hys : ∀ y ∈ nodes, (ends ++ ys).count y ≤ total y) :
    Settled nodes total (ends ++ ys) (ys.foldl Countdown.settle s) := by
  induction ys generalizing s ends with
  | nil => simpa using h
  | cons y ys ih =>
    have hlt : y ∈ nodes → ends.count y < total y := by
      intro hy
      have := hys y hy
      rw [List.count_append, List.count_cons_self] at this
      omega
    rw [List.foldl_cons, List.append_cons]
    exact ih (h.settle hlt) (by simpa using hys)

theorem order_settle (s : Countdown α) (y : α) : (s.settle y).order = s.order := by
  rw [Countdown.settle]
  split <;> rfl

theorem order_foldl (ys : List α) (s : Countdown α) :
    (ys.foldl Countdown.settle s).order = s.order := by
  induction ys generalizing s with
  | nil => rfl
  | cons y ys ih => rw [List.foldl_cons, ih, order_settle]

end Counting

section Sources

variable (succ : α → List α) (sources : List α)

/-- How many edges end at a node. -/
def total (y : α) : Nat := (sources.flatMap succ).count y

/-- The nodes that have an edge to a node. -/
def preds (y : α) : List α := sources.filter (fun a => y ∈ succ a)

variable {succ sources}

theorem count_flatMap_eq_sum {xs : List α} (h : xs.Nodup) (y : α) :
    (xs.flatMap succ).count y = ∑ x ∈ xs.toFinset, (succ x).count y := by
  rw [List.count_flatMap, List.sum_toFinset _ h]
  rfl

/-- Every edge of some nodes is one of all edges; they include all that end at a node if
the nodes include all that have an edge to it. -/
theorem total_le_iff (hsources : sources.Nodup) (hall : ∀ a, succ a ≠ [] → a ∈ sources)
    {xs : List α} (h : xs.Nodup) (y : α) :
    (xs.flatMap succ).count y ≤ total succ sources y ∧
      (total succ sources y ≤ (xs.flatMap succ).count y ↔ ∀ a ∈ preds succ sources y, a ∈ xs) := by
  have hle : ∀ {zs : List α}, zs.Nodup → (zs.flatMap succ).count y ≤ total succ sources y := by
    intro zs hzs
    rw [total, count_flatMap_eq_sum hzs, count_flatMap_eq_sum hsources]
    refine Finset.sum_le_sum_of_ne_zero fun a _ hne => List.mem_toFinset.mpr (hall a ?_)
    rintro hnil
    simp [hnil] at hne
  refine ⟨hle h, fun hge a ha => ?_, fun hpreds => ?_⟩
  · by_contra hout
    have hmore := hle (List.nodup_cons.mpr ⟨hout, h⟩)
    have hpos : 0 < (succ a).count y :=
      List.count_pos_iff.mpr (by simpa using (List.mem_filter.mp ha).2)
    rw [List.flatMap_cons, List.count_append] at hmore
    omega
  · rw [total, count_flatMap_eq_sum h, count_flatMap_eq_sum hsources]
    refine Finset.sum_le_sum_of_ne_zero fun a ha hne => List.mem_toFinset.mpr (hpreds a ?_)
    refine List.mem_filter.mpr ⟨List.mem_toFinset.mp ha, ?_⟩
    simpa using List.count_pos_iff.mp (Nat.pos_of_ne_zero hne)

variable (succ sources) in
/-- Between two nodes: all edges of the nodes taken out are settled, and no others. -/
structure Underway (nodes : List α) (s : Countdown α) : Prop where
  settled : Settled nodes (total succ sources) (s.order.flatMap succ) s
  sorted : Kahn.Sorted (preds succ sources) s.order

variable {nodes : List α} {s : Countdown α} {x : α} {rest : List α}

theorem Underway.step (h : Underway succ sources nodes s) (hsources : sources.Nodup)
    (hall : ∀ a, succ a ≠ [] → a ∈ sources) (hq : s.queue = x :: rest) :
    Underway succ sources nodes
      ((succ x).foldl settle { s with queue := rest, order := s.order ++ [x] }) := by
  have hd := h.settled.distinct
  rw [hq, List.append_cons] at hd
  have hx : x ∈ s.order ++ s.queue := by simp [hq]
  have hold : (s.order ++ [x]).Nodup := (List.nodup_append.mp hd).1
  have hpopped : Settled nodes (total succ sources) (s.order.flatMap succ)
      { s with queue := rest, order := s.order ++ [x] } := by
    refine ⟨h.settled.degree, hd, fun y => ?_⟩
    rw [← h.settled.ready y, hq]
    simp
  have hends : s.order.flatMap succ ++ succ x = (s.order ++ [x]).flatMap succ := by simp
  have hstep := hpopped.foldl (succ x) fun y _ => by
    rw [hends]
    exact (total_le_iff hsources hall hold y).1
  refine ⟨?_, ?_⟩
  · rw [order_foldl]
    exact hends ▸ hstep
  · rw [order_foldl]
    have hready := ((h.settled.ready x).mp hx).2
    exact h.sorted.concat
      ((total_le_iff hsources hall (List.nodup_append.mp hold).1 x).2.mp hready)

/-- The loop takes out each node once at most, and ends with those whose predecessors are
all out. -/
theorem Underway.drain (hsources : sources.Nodup) (hall : ∀ a, succ a ≠ [] → a ∈ sources)
    {n : Nat} (h : Underway succ sources nodes s) (hn : nodes.length ≤ n + s.order.length) :
    ∃ s', s.drain succ n = some s' ∧ s'.order.Nodup ∧
      (∀ y, y ∈ s'.order ↔ y ∈ nodes ∧ ∀ a ∈ preds succ sources y, a ∈ s'.order) ∧
      Kahn.Sorted (preds succ sources) s'.order := by
  have hdone : ∀ {s : Countdown α}, Underway succ sources nodes s → s.queue = [] →
      s.order.Nodup ∧
        (∀ y, y ∈ s.order ↔ y ∈ nodes ∧ ∀ a ∈ preds succ sources y, a ∈ s.order) ∧
        Kahn.Sorted (preds succ sources) s.order := by
    intro s h hq
    have hd := h.settled.distinct
    have hready := h.settled.ready
    rw [hq, List.append_nil] at hd hready
    refine ⟨hd, fun y => ?_, h.sorted⟩
    rw [hready, (total_le_iff hsources hall hd y).2]
  induction n generalizing s with
  | zero =>
    have hsub : s.order ++ s.queue ⊆ nodes := fun y hy => ((h.settled.ready y).mp hy).1
    have hle := (h.settled.distinct.subperm hsub).length_le
    rw [List.length_append] at hle
    have hq : s.queue = [] := List.length_eq_zero_iff.mp (by omega)
    exact ⟨s, by simp [Countdown.drain, hq], hdone h hq⟩
  | succ n ih =>
    cases hq : s.queue with
    | nil => exact ⟨s, by simp [Countdown.drain, hq], hdone h hq⟩
    | cons x rest =>
      have hs : s.drain succ (n + 1) = ((succ x).foldl settle
          { s with queue := rest, order := s.order ++ [x] }).drain succ n := by
        simp only [Countdown.drain, hq]
      rw [hs]
      refine ih (h.step hsources hall hq) ?_
      rw [order_foldl, List.length_append, List.length_singleton]
      omega

/-- Where the loop starts: with all edges counted, and the nodes at which none ends. -/
theorem underway_start {degree : AList (fun _ : α => Nat)} {queue : List α}
    (hdegree : ∀ y, degree.lookup y = if y ∈ nodes then some (total succ sources y) else none)
    (hd : queue.Nodup) (hq : ∀ y, y ∈ queue ↔ degree.lookup y = some 0) :
    Underway succ sources nodes ⟨degree, queue, []⟩ := by
  refine ⟨⟨fun y => by simpa using hdegree y, hd, fun y => ?_⟩, fun before x after h => ?_⟩
  · rw [List.nil_append, hq, hdegree]
    simp
  · simp at h

end Sources

end Countdown

end HelixRouter.Graphs
