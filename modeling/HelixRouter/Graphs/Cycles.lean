import Mathlib.Data.Finset.Defs
import Mathlib.Data.Fintype.EquivFin
import Mathlib.Data.List.Nodup
import Mathlib.Data.List.Perm.Subperm
import Mathlib.Logic.Relation
import Mathlib.Order.WellFounded

namespace HelixRouter.Graphs

open Relation

variable {α : Type} {r : α → α → Prop}

def Acyclic (r : α → α → Prop) : Prop := ∀ x, ¬ TransGen r x x

/-- No cycle goes through a node that no infinite path leaves. -/
theorem not_transGen_of_acc {x : α} (h : Acc (fun a b => r b a) x) : ¬ TransGen r x x := by
  induction h with
  | intro x _ ih =>
    intro hx
    obtain ⟨y, hxy, hyx⟩ := TransGen.head'_iff.mp hx
    exact ih y hxy (TransGen.tail' hyx hxy)

/-- Along the edges of a finite acyclic graph there is no infinite descent. -/
theorem Acyclic.acc (h : Acyclic r) {V : Finset α} (hV : ∀ a b, r a b → b ∈ V) (x : α) :
    Acc r x := by
  let reaches : V → V → Prop := fun a b => TransGen r a b
  have : IsTrans V reaches := ⟨fun _ _ _ => TransGen.trans⟩
  have : Std.Irrefl reaches := ⟨fun a => h a⟩
  have hwf : WellFounded reaches := Finite.wellFounded_of_trans_of_irrefl reaches
  have hnode : ∀ y : V, Acc r y := by
    intro y
    induction hwf.apply y with
    | intro y _ ih =>
      refine ⟨_, fun z hz => ?_⟩
      by_cases hzV : z ∈ V
      · exact ih ⟨z, hzV⟩ (.single hz)
      · exact ⟨z, fun w hw => absurd (hV w z hw) hzV⟩
  by_cases hxV : x ∈ V
  · exact hnode ⟨x, hxV⟩
  · exact ⟨x, fun w hw => absurd (hV w x hw) hxV⟩

/-- A path in a graph with one more edge that the graph itself has not goes over it. -/
theorem transGen_insert {u v a b : α} (h : TransGen (fun x y => r x y ∨ x = u ∧ y = v) a b) :
    TransGen r a b ∨ ReflTransGen r a u ∧ ReflTransGen r v b := by
  induction h with
  | single h =>
    rcases h with h | ⟨rfl, rfl⟩
    · exact .inl (.single h)
    · exact .inr ⟨.refl, .refl⟩
  | tail _ h ih =>
    rcases h with h | ⟨rfl, rfl⟩
    · rcases ih with ih | ⟨hu, hv⟩
      · exact .inl (ih.tail h)
      · exact .inr ⟨hu, hv.tail h⟩
    · rcases ih with ih | ⟨hu, _⟩
      · exact .inr ⟨ih.to_reflTransGen, .refl⟩
      · exact .inr ⟨hu, .refl⟩

/-- One more edge closes a cycle exactly if its end already leads to its start. -/
theorem Acyclic.insert_iff (h : Acyclic r) (u v : α) :
    Acyclic (fun x y => r x y ∨ x = u ∧ y = v) ↔ ¬ ReflTransGen r v u := by
  constructor
  · intro ha hvu
    have hpath : ReflTransGen (fun x y => r x y ∨ x = u ∧ y = v) v u :=
      hvu.lift id fun _ _ => .inl
    exact ha u (TransGen.head' (.inr ⟨rfl, rfl⟩) hpath)
  · intro hn x hx
    rcases transGen_insert hx with hx | ⟨hxu, hvx⟩
    · exact h x hx
    · exact hn (hvx.trans hxu)

variable {α : Type} [DecidableEq α]

/-- Kahn's algorithm underway: how many predecessors each node still waits for, the
nodes that wait for none, and those taken out. -/
structure Kahn (α : Type) where
  degree : α → Nat
  queue : List α
  order : List α := []

namespace Kahn

variable (nodes : List α) (preds : α → List α)

/-- Every node with a predecessor taken out counts down once. -/
def pop (x : α) (rest : List α) (s : Kahn α) : Kahn α where
  degree y := if x ∈ preds y then s.degree y - 1 else s.degree y
  queue := rest ++ nodes.filter (fun y => x ∈ preds y ∧ s.degree y - 1 = 0)
  order := s.order ++ [x]

def drain : Nat → Kahn α → Option (Kahn α)
  | 0, s => if s.queue = [] then some s else none
  | n + 1, s =>
    match s.queue with
    | [] => some s
    | x :: rest => drain n (s.pop nodes preds x rest)

/-- Every node comes after all its predecessors. -/
def Sorted (order : List α) : Prop :=
  ∀ before x after, order = before ++ x :: after → ∀ p ∈ preds x, p ∈ before

structure Underway (s : Kahn α) : Prop where
  distinct : (s.order ++ s.queue).Nodup
  known : ∀ x ∈ s.order ++ s.queue, x ∈ nodes
  degree : ∀ y ∈ nodes, s.degree y + (s.order.filter (· ∈ preds y)).length = (preds y).length
  ready : ∀ y ∈ nodes, y ∈ s.order ++ s.queue ↔ s.degree y = 0
  sorted : Sorted preds s.order

variable {nodes preds} {s : Kahn α} {x : α} {rest : List α}

omit [DecidableEq α] in
theorem Sorted.concat {order : List α} (h : Sorted preds order) (hx : ∀ p ∈ preds x, p ∈ order) :
    Sorted preds (order ++ [x]) := by
  intro before z after heq p hp
  rcases List.eq_nil_or_concat' after with rfl | ⟨after', w, rfl⟩
  · obtain ⟨rfl, hz⟩ := List.append_inj' heq rfl
    cases hz
    exact hx p hp
  · rw [← List.cons_append, ← List.append_assoc] at heq
    obtain ⟨rfl, -⟩ := List.append_inj' heq rfl
    exact h before z after' rfl p hp

theorem length_filter_concat (order : List α) (x y : α) :
    ((order ++ [x]).filter (· ∈ preds y)).length =
      (order.filter (· ∈ preds y)).length + if x ∈ preds y then 1 else 0 := by
  by_cases h : x ∈ preds y <;> simp [h]

/-- The predecessors among nodes taken out once each are at most all of them, and no
other if they are as many. -/
theorem filter_preds (preds : α → List α) {order : List α} (h : order.Nodup) (y : α) :
    (order.filter (· ∈ preds y)).length ≤ (preds y).length ∧
      ((preds y).length ≤ (order.filter (· ∈ preds y)).length →
        (order.filter (· ∈ preds y)).Perm (preds y)) := by
  have hsub : (order.filter (· ∈ preds y)).Subperm (preds y) :=
    (h.filter _).subperm fun z hz => by simpa using (List.mem_filter.mp hz).2
  exact ⟨hsub.length_le, hsub.perm_of_length_le⟩

namespace Underway

/-- A node that waits for no one has its predecessors out, each listed once. -/
theorem perm_preds (h : Underway nodes preds s) {y : α} (hy : y ∈ nodes) (h0 : s.degree y = 0) :
    (s.order.filter (· ∈ preds y)).Perm (preds y) := by
  have hlen := h.degree y hy
  exact (filter_preds preds (List.nodup_append.mp h.distinct).1 y).2 (by omega)

/-- A node with a predecessor still in the queue waits. -/
theorem waits (h : Underway nodes preds s) (hq : s.queue = x :: rest) {y : α} (hy : y ∈ nodes)
    (hx : x ∈ preds y) : 1 ≤ s.degree y := by
  have hd := h.distinct
  rw [hq, ← List.singleton_append, ← List.append_assoc] at hd
  have hle := (filter_preds preds (List.nodup_append.mp hd).1 y).1
  have hlen := h.degree y hy
  rw [length_filter_concat, if_pos hx] at hle
  omega

theorem pop (h : Underway nodes preds s) (hnodes : nodes.Nodup) (hq : s.queue = x :: rest) :
    Underway nodes preds (s.pop nodes preds x rest) := by
  have hxin : x ∈ s.order ++ s.queue := by simp [hq]
  have hx : x ∈ nodes := h.known x hxin
  have hpreds : ∀ p ∈ preds x, p ∈ s.order := by
    intro p hp
    have hperm := h.perm_preds hx ((h.ready x hx).mp hxin)
    exact (List.mem_filter.mp (hperm.mem_iff.mpr hp)).1
  have hold : s.order ++ s.queue = s.order ++ [x] ++ rest := by simp [hq]
  have hnew : ∀ y ∈ nodes, y ∈ nodes.filter (fun y => x ∈ preds y ∧ s.degree y - 1 = 0) ↔
      x ∈ preds y ∧ s.degree y - 1 = 0 := by
    intro y hy
    simp [hy]
  have hfresh : ∀ y ∈ nodes, x ∈ preds y → y ∉ s.order ++ s.queue := by
    intro y hy hxy hin
    have := h.waits hq hy hxy
    have := (h.ready y hy).mp hin
    omega
  refine ⟨?_, ?_, ?_, ?_, h.sorted.concat hpreds⟩
  · change (s.order ++ [x] ++ (rest ++ _)).Nodup
    rw [← List.append_assoc, ← hold, List.nodup_append]
    refine ⟨h.distinct, hnodes.filter _, ?_⟩
    rintro y hy _ hz rfl
    obtain ⟨hyn, hxy⟩ := List.mem_filter.mp hz
    exact hfresh y hyn (by simpa using hxy : _ ∧ _).1 hy
  · intro y hy
    change y ∈ s.order ++ [x] ++ (rest ++ _) at hy
    rw [← List.append_assoc, ← hold] at hy
    rcases List.mem_append.mp hy with hy | hy
    · exact h.known y hy
    · exact (List.mem_filter.mp hy).1
  · intro y hy
    have hlen := h.degree y hy
    change (if x ∈ preds y then _ else _) + ((s.order ++ [x]).filter (· ∈ preds y)).length = _
    rw [length_filter_concat]
    by_cases hxy : x ∈ preds y
    · have := h.waits hq hy hxy
      rw [if_pos hxy, if_pos hxy]
      omega
    · rw [if_neg hxy, if_neg hxy]
      omega
  · intro y hy
    have hready := h.ready y hy
    change y ∈ s.order ++ [x] ++ (rest ++ _) ↔ (if x ∈ preds y then _ else _) = 0
    rw [← List.append_assoc, ← hold, List.mem_append, hnew y hy]
    by_cases hxy : x ∈ preds y
    · simp [hxy, hfresh y hy hxy]
    · simp [hxy, hready]

/-- The loop ends before it has taken out more nodes than there are. -/
theorem drain (hnodes : nodes.Nodup) {n : Nat} (h : Underway nodes preds s)
    (hn : nodes.length ≤ n + s.order.length) :
    ∃ s', s.drain nodes preds n = some s' ∧ Underway nodes preds s' ∧ s'.queue = [] := by
  induction n generalizing s with
  | zero =>
    have hle : (s.order ++ s.queue).length ≤ nodes.length :=
      (h.distinct.subperm h.known).length_le
    have hq : s.queue = [] := by
      rw [List.length_append] at hle
      exact List.length_eq_zero_iff.mp (by omega)
    exact ⟨s, by simp [Kahn.drain, hq], h, hq⟩
  | succ n ih =>
    cases hq : s.queue with
    | nil => exact ⟨s, by simp [Kahn.drain, hq], h, hq⟩
    | cons x rest =>
      have hs : s.drain nodes preds (n + 1) =
          (s.pop nodes preds x rest).drain nodes preds n := by
        simp only [Kahn.drain, hq]
      rw [hs]
      refine ih (h.pop hnodes hq) ?_
      change _ ≤ n + (s.order ++ [x]).length
      rw [List.length_append, List.length_singleton]
      omega

/-- Whatever is left waits for something in a cycle, for something unknown, or for a
predecessor that is listed twice. -/
theorem complete_iff (h : Underway nodes preds s) (hnodes : nodes.Nodup) (hq : s.queue = [])
    (hsource : ∀ y ∈ nodes, ∀ p ∈ preds y, p ∈ nodes)
    (hacc : ∀ y ∈ nodes, Acc (fun a b => a ∈ preds b) y) :
    s.order.length = nodes.length ↔ ∀ y ∈ nodes, (preds y).Nodup := by
  have hd := h.distinct
  have hknown := h.known
  have hready := h.ready
  rw [hq, List.append_nil] at hd hknown hready
  constructor
  · intro hlen y hy
    have hperm := (hd.subperm hknown).perm_of_length_le (Nat.le_of_eq hlen.symm)
    have h0 := (hready y hy).mp (hperm.mem_iff.mpr hy)
    exact (h.perm_preds hy h0).nodup (hd.filter _)
  · intro hnodup
    have hall : ∀ y ∈ nodes, y ∈ s.order := by
      intro y hy
      induction hacc y hy with
      | intro y _ ih =>
        have hin : ∀ p ∈ preds y, p ∈ s.order := fun p hp => ih p hp (hsource y hy p hp)
        have hle : (preds y).length ≤ (s.order.filter (· ∈ preds y)).length :=
          ((hnodup y hy).subperm fun p hp => by simp [hp, hin p hp]).length_le
        have hlen := h.degree y hy
        exact (hready y hy).mpr (by omega)
    exact Nat.le_antisymm (hd.subperm hknown).length_le (hnodes.subperm hall).length_le

end Underway

/-- Where the algorithm starts: no one is out, and those without predecessors are ready. -/
theorem underway_start {queue : List α} (hnodes : nodes.Nodup)
    (hq : queue.Perm (nodes.filter (fun y => (preds y).length = 0))) :
    Underway nodes preds ⟨fun y => (preds y).length, queue, []⟩ := by
  refine ⟨?_, ?_, fun y _ => by simp, ?_, fun before x after h => ?_⟩
  · exact hq.nodup_iff.mpr (hnodes.filter _)
  · exact fun x hx => (List.mem_filter.mp (hq.mem_iff.mp hx)).1
  · intro y hy
    change y ∈ [] ++ queue ↔ _
    rw [List.nil_append, hq.mem_iff, List.mem_filter]
    simp [hy]
  · simp at h

end Kahn

end HelixRouter.Graphs
