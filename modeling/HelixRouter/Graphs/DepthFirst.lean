import HelixRouter.Graphs.Cycles
import Mathlib.Data.Finset.Card
import Mathlib.Data.Finset.SDiff

namespace HelixRouter.Graphs

open Relation

/-- The nodes a depth-first search has entered, and those it has not left yet. -/
structure Marks (α : Type) where
  visited : Finset α := ∅
  inStack : Finset α := ∅

variable {α : Type} [DecidableEq α]

def Marks.enter (m : Marks α) (x : α) : Marks α :=
  ⟨insert x m.visited, insert x m.inStack⟩

def Marks.leave (m : Marks α) (x : α) : Marks α := { m with inStack := m.inStack.erase x }

/-- Goes through the successors of a node. A successor that is still on the stack
closes a cycle. -/
def scan (visit : α → Marks α → Option (Bool × Marks α)) :
    List α → Marks α → Option (Bool × Marks α)
  | [], m => some (false, m)
  | y :: ys, m =>
    if y ∉ m.visited then
      match visit y m with
      | none => none
      | some (true, m) => some (true, m)
      | some (false, m) => scan visit ys m
    else if y ∈ m.inStack then some (true, m)
    else scan visit ys m

/-- Depth-first search below a node, for as many nested visits as it may take. -/
def visit (succ : α → List α) : Nat → α → Marks α → Option (Bool × Marks α)
  | 0, _, _ => none
  | n + 1, x, m =>
    match scan (visit succ n) (succ x) (m.enter x) with
    | none => none
    | some (true, m) => some (true, m)
    | some (false, m) => some (false, m.leave x)

/-- Starts a visit from every node that none has reached so far. -/
def search (visit : α → Marks α → Option (Bool × Marks α)) :
    List α → Marks α → Option (Bool × Marks α)
  | [], m => some (false, m)
  | x :: xs, m =>
    if x ∉ m.visited then
      match visit x m with
      | none => none
      | some (true, m) => some (true, m)
      | some (false, m) => search visit xs m
    else search visit xs m

section Search

variable (succ : α → List α) (V : Finset α)

/-- No infinite path leaves a node that the search has left. -/
structure Searched (m : Marks α) : Prop where
  stack : m.inStack ⊆ m.visited
  done : ∀ x ∈ m.visited, x ∉ m.inStack → Acc (fun a b => a ∈ succ b) x

/-- The search has come to the end from one state of the marks to another. -/
structure Explored (m m' : Marks α) : Prop where
  searched : Searched succ m'
  grows : m.visited ⊆ m'.visited
  stack : m'.inStack = m.inStack

variable {succ V} {m m' : Marks α}

omit [DecidableEq α] in
theorem Explored.trans {m'' : Marks α} (h : Explored succ m m') (h' : Explored succ m' m'') :
    Explored succ m m'' :=
  ⟨h'.searched, h.grows.trans h'.grows, h'.stack.trans h.stack⟩

theorem Explored.unvisited (h : Explored succ m m') {n : Nat} (hn : (V \ m.visited).card ≤ n) :
    (V \ m'.visited).card ≤ n :=
  (Finset.card_le_card (Finset.sdiff_subset_sdiff (Finset.Subset.refl V) h.grows)).trans hn

/-- What a search below a node has to do where every node on the stack leads to it. -/
def Visits (succ : α → List α) (V : Finset α) (n : Nat)
    (visit : α → Marks α → Option (Bool × Marks α)) : Prop :=
  ∀ x m, x ∈ V → x ∉ m.visited → Searched succ m →
    (∀ z ∈ m.inStack, TransGen (fun a b => b ∈ succ a) z x) → (V \ m.visited).card ≤ n →
    (∃ m', visit x m = some (true, m') ∧ ¬ Acyclic (fun a b => b ∈ succ a)) ∨
      ∃ m', visit x m = some (false, m') ∧ Explored succ m m' ∧ x ∈ m'.visited

theorem scan_spec {n : Nat} {visit : α → Marks α → Option (Bool × Marks α)}
    (hv : Visits succ V n visit) {ys : List α} (hys : ∀ y ∈ ys, y ∈ V) (hm : Searched succ m)
    (hstack : ∀ y ∈ ys, ∀ z ∈ m.inStack, TransGen (fun a b => b ∈ succ a) z y)
    (hn : (V \ m.visited).card ≤ n) :
    (∃ m', scan visit ys m = some (true, m') ∧ ¬ Acyclic (fun a b => b ∈ succ a)) ∨
      ∃ m', scan visit ys m = some (false, m') ∧ Explored succ m m' ∧
        ∀ y ∈ ys, Acc (fun a b => a ∈ succ b) y := by
  induction ys generalizing m with
  | nil => exact .inr ⟨m, rfl, ⟨hm, Finset.Subset.refl _, rfl⟩, by simp⟩
  | cons y ys ih =>
    have hy : y ∈ V := hys y (by simp)
    -- the rest of the scan, from marks that have the first successor behind them
    have hrest : ∀ m', Explored succ m m' → Acc (fun a b => a ∈ succ b) y →
        (∃ m'', scan visit ys m' = some (true, m'') ∧ ¬ Acyclic (fun a b => b ∈ succ a)) ∨
          ∃ m'', scan visit ys m' = some (false, m'') ∧ Explored succ m m'' ∧
            ∀ z ∈ y :: ys, Acc (fun a b => a ∈ succ b) z := by
      intro m' he hacc
      have hstack' : ∀ z ∈ ys, ∀ w ∈ m'.inStack, TransGen (fun a b => b ∈ succ a) w z := by
        intro z hz w hw
        rw [he.stack] at hw
        exact hstack z (by simp [hz]) w hw
      rcases ih (fun z hz => hys z (by simp [hz])) he.searched hstack' (he.unvisited hn) with
          h | ⟨m'', hs, he', hall⟩
      · exact .inl h
      · refine .inr ⟨m'', hs, he.trans he', fun z hz => ?_⟩
        rcases List.mem_cons.mp hz with rfl | hz
        · exact hacc
        · exact hall z hz
    by_cases hvis : y ∈ m.visited
    · by_cases hst : y ∈ m.inStack
      · exact .inl ⟨m, by simp [scan, hvis, hst], fun h => h y (hstack y (by simp) y hst)⟩
      · have hs : scan visit (y :: ys) m = scan visit ys m := by simp [scan, hvis, hst]
        rw [hs]
        exact hrest m ⟨hm, Finset.Subset.refl _, rfl⟩ (hm.done y hvis hst)
    · rcases hv y m hy hvis hm (hstack y (by simp)) hn with ⟨m', hs, hc⟩ | ⟨m', hs, he, hy'⟩
      · exact .inl ⟨m', by simp [scan, hvis, hs], hc⟩
      · have hr : scan visit (y :: ys) m = scan visit ys m' := by simp [scan, hvis, hs]
        rw [hr]
        refine hrest m' he (he.searched.done y hy' fun hin => hvis ?_)
        rw [he.stack] at hin
        exact hm.stack hin

/-- Entering a node leaves one node fewer to enter. -/
theorem card_enter {x : α} (hx : x ∈ V) (hvis : x ∉ m.visited) {n : Nat}
    (hn : (V \ m.visited).card ≤ n + 1) : (V \ (m.enter x).visited).card ≤ n := by
  have hin : x ∈ V \ m.visited := Finset.mem_sdiff.mpr ⟨hx, hvis⟩
  have heq : V \ (m.enter x).visited = (V \ m.visited).erase x := Finset.sdiff_insert _ _ _
  have := Finset.card_erase_of_mem hin
  rw [heq]
  omega

/-- A search that may nest once for each node not entered yet comes to an end: with a
cycle, or with no infinite path below the node. -/
theorem visit_spec (hV : ∀ x, ∀ y ∈ succ x, y ∈ V) (n : Nat) :
    Visits succ V n (visit succ n) := by
  induction n with
  | zero =>
    intro x m hx hvis _ _ hn
    have : x ∈ V \ m.visited := Finset.mem_sdiff.mpr ⟨hx, hvis⟩
    rw [Finset.card_eq_zero.mp (Nat.le_zero.mp hn)] at this
    cases this
  | succ n ih =>
    intro x m hx hvis hm hstack hn
    have hnot : x ∉ m.inStack := fun h => hvis (hm.stack h)
    have henter : Searched succ (m.enter x) := by
      refine ⟨Finset.insert_subset_insert x hm.stack, fun z hz hzs => ?_⟩
      simp only [Marks.enter, Finset.mem_insert, not_or] at hz hzs
      exact hm.done z (hz.resolve_left hzs.1) hzs.2
    have hpaths : ∀ y ∈ succ x, ∀ z ∈ (m.enter x).inStack,
        TransGen (fun a b => b ∈ succ a) z y := by
      intro y hy z hz
      rcases Finset.mem_insert.mp hz with rfl | hz
      · exact .single hy
      · exact .tail (hstack z hz) hy
    rcases scan_spec ih (hV x) henter hpaths (card_enter hx hvis hn) with
        ⟨m', hs, hc⟩ | ⟨m', hs, he, hacc⟩
    · exact .inl ⟨m', by simp [visit, hs], hc⟩
    · have hstack' : (m'.leave x).inStack = m.inStack := by
        change m'.inStack.erase x = _
        rw [he.stack]
        exact Finset.erase_insert hnot
      have hx' : x ∈ m'.visited := he.grows (Finset.mem_insert_self x _)
      refine .inr ⟨m'.leave x, by simp [visit, hs], ⟨⟨?_, ?_⟩, ?_, hstack'⟩, hx'⟩
      · rw [hstack']
        exact hm.stack.trans ((Finset.subset_insert x _).trans he.grows)
      · intro z hz hzs
        rw [hstack'] at hzs
        by_cases hzx : z = x
        · rw [hzx]
          exact ⟨x, hacc⟩
        · refine he.searched.done z hz ?_
          rw [he.stack]
          simp [Marks.enter, hzx, hzs]
      · exact (Finset.subset_insert x _).trans he.grows

theorem search_spec (hV : ∀ x, ∀ y ∈ succ x, y ∈ V) {n : Nat} {xs : List α}
    (hxs : ∀ x ∈ xs, x ∈ V) (hm : Searched succ m) (hempty : m.inStack = ∅)
    (hn : (V \ m.visited).card ≤ n) :
    (∃ m', search (visit succ n) xs m = some (true, m') ∧ ¬ Acyclic (fun a b => b ∈ succ a)) ∨
      ∃ m', search (visit succ n) xs m = some (false, m') ∧
        ∀ x ∈ xs, Acc (fun a b => a ∈ succ b) x := by
  induction xs generalizing m with
  | nil => exact .inr ⟨m, rfl, by simp⟩
  | cons x xs ih =>
    have hrest : ∀ m', Explored succ m m' → x ∈ m'.visited →
        (∃ m'', search (visit succ n) xs m' = some (true, m'') ∧ ¬ Acyclic (fun a b => b ∈ succ a)) ∨
          ∃ m'', search (visit succ n) xs m' = some (false, m'') ∧
            ∀ z ∈ x :: xs, Acc (fun a b => a ∈ succ b) z := by
      intro m' he hx
      have hempty' := he.stack.trans hempty
      rcases ih (fun z hz => hxs z (by simp [hz])) he.searched hempty' (he.unvisited hn) with
          h | ⟨m'', hs, hall⟩
      · exact .inl h
      · refine .inr ⟨m'', hs, fun z hz => ?_⟩
        rcases List.mem_cons.mp hz with rfl | hz
        · exact he.searched.done z hx (by simp [hempty'])
        · exact hall z hz
    by_cases hvis : x ∈ m.visited
    · have hs : search (visit succ n) (x :: xs) m = search (visit succ n) xs m := by simp [search, hvis]
      rw [hs]
      exact hrest m ⟨hm, Finset.Subset.refl _, rfl⟩ hvis
    · rcases visit_spec hV n x m (hxs x (by simp)) hvis hm (by simp [hempty]) hn with
          ⟨m', hs, hc⟩ | ⟨m', hs, he, hx⟩
      · exact .inl ⟨m', by simp [search, hvis, hs], hc⟩
      · have hr : search (visit succ n) (x :: xs) m = search (visit succ n) xs m' := by simp [search, hvis, hs]
        rw [hr]
        exact hrest m' he hx

/-- A search from all nodes finds a cycle exactly if there is one. -/
theorem search_iff (hV : ∀ x, ∀ y ∈ succ x, y ∈ V) {n : Nat} (hn : V.card ≤ n) {xs : List α}
    (hxs : ∀ x, x ∈ xs ↔ x ∈ V) :
    ∃ b m, search (visit succ n) xs {} = some (b, m) ∧ (b = true ↔ ¬ Acyclic (fun a b => b ∈ succ a)) := by
  obtain ⟨m, hs, hc⟩ | ⟨m, hs, hacc⟩ :=
    search_spec (m := {}) hV (fun x hx => (hxs x).mp hx) ⟨by simp, by simp⟩ rfl (by simpa using hn)
  · exact ⟨true, m, hs, fun _ => hc, fun _ => rfl⟩
  · refine ⟨false, m, hs, nofun, fun hc => absurd (fun x hx => ?_) hc⟩
    obtain ⟨y, -, hyx⟩ := TransGen.tail'_iff.mp hx
    exact not_transGen_of_acc (hacc x ((hxs x).mpr (hV y x hyx))) hx

end Search

end HelixRouter.Graphs
