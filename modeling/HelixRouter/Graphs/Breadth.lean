import Mathlib.Data.Finset.Card
import Mathlib.Data.Finset.SDiff
import Mathlib.Logic.Relation

namespace HelixRouter.Graphs

open Relation

/-- A breadth-first search underway: what it has seen, and what of it still has to be looked
behind. -/
structure Breadth (α : Type) where
  visited : List α := []
  queue : List α := []

variable {α : Type} [DecidableEq α]

namespace Breadth

def see (s : Breadth α) (y : α) : Breadth α :=
  if y ∈ s.visited then s else ⟨s.visited ++ [y], s.queue ++ [y]⟩

/-- Looks behind what is queued until nothing is. -/
def drain (next : α → List α) : Nat → Breadth α → Option (List α)
  | 0, s => if s.queue = [] then some s.visited else none
  | n + 1, s =>
    match s.queue with
    | [] => some s.visited
    | x :: rest => drain next n ((next x).foldl see { s with queue := rest })

/-- All that a search from some nodes sees. -/
def search (next : α → List α) (n : Nat) (starts : List α) : Option (List α) :=
  drain next n (starts.foldl see {})

variable {next : α → List α} {starts : List α} {s : Breadth α}

/-- The neighbours of a node that are new, each once, are seen and queued. -/
theorem foldl_see (ys : List α) (s : Breadth α) :
    ∃ new : List α, new.Nodup ∧ (∀ y, y ∈ new ↔ y ∈ ys ∧ y ∉ s.visited) ∧
      ys.foldl see s = ⟨s.visited ++ new, s.queue ++ new⟩ := by
  induction ys generalizing s with
  | nil => exact ⟨[], List.nodup_nil, by simp, by simp⟩
  | cons y ys ih =>
    rw [List.foldl_cons]
    by_cases hy : y ∈ s.visited
    · obtain ⟨new, hnodup, hmem, heq⟩ := ih s
      refine ⟨new, hnodup, fun z => ?_, by rw [see, if_pos hy, heq]⟩
      rw [hmem, List.mem_cons]
      refine and_congr_left fun hz => ⟨Or.inr, fun h => h.resolve_left fun he => hz (he ▸ hy)⟩
    · obtain ⟨new, hnodup, hmem, heq⟩ := ih ⟨s.visited ++ [y], s.queue ++ [y]⟩
      have hfresh : y ∉ new := fun h => ((hmem y).mp h).2 (by simp)
      refine ⟨y :: new, List.nodup_cons.mpr ⟨hfresh, hnodup⟩, fun z => ?_, ?_⟩
      · rw [List.mem_cons, hmem, List.mem_cons, List.mem_append, List.mem_singleton]
        by_cases hz : z = y
        · simp [hz, hy]
        · simp [hz]
      · rw [see, if_neg hy, heq]
        simp

variable (next starts) in
/-- Each node that has been seen is a start or next to one, and so on; and all that is next to
it has been seen, but for what is still queued. -/
structure Sound (s : Breadth α) : Prop where
  distinct : s.visited.Nodup
  started : ∀ x ∈ starts, x ∈ s.visited
  reached : ∀ x ∈ s.visited, ∃ r ∈ starts, ReflTransGen (fun a b => b ∈ next a) r x
  queued : ∀ x ∈ s.queue, x ∈ s.visited
  closed : ∀ x ∈ s.visited, x ∉ s.queue → ∀ y ∈ next x, y ∈ s.visited

omit [DecidableEq α] in
theorem nodup_append_new {visited new : List α} (hv : visited.Nodup) (hn : new.Nodup)
    (hfresh : ∀ y ∈ new, y ∉ visited) : (visited ++ new).Nodup := by
  refine List.nodup_append.mpr ⟨hv, hn, fun a ha b hb hab => ?_⟩
  exact hfresh b hb (hab ▸ ha)

theorem sound_start : Sound next starts (starts.foldl see {}) := by
  obtain ⟨new, hnodup, hmem, heq⟩ := foldl_see starts {}
  rw [heq]
  refine ⟨?_, fun x hx => ?_, fun x hx => ?_, fun x hx => hx, fun x hx hout => absurd hx hout⟩
  · exact nodup_append_new List.nodup_nil hnodup fun y _ => List.not_mem_nil
  · exact (hmem x).mpr ⟨hx, List.not_mem_nil⟩
  · exact ⟨x, ((hmem x).mp hx).1, .refl⟩

theorem Sound.step (h : Sound next starts s) {x : α} {rest : List α} (hs : s.queue = x :: rest) :
    Sound next starts ((next x).foldl see { s with queue := rest }) := by
  obtain ⟨new, hnodup, hmem, heq⟩ := foldl_see (next x) { s with queue := rest }
  have hx : x ∈ s.visited := h.queued x (by simp [hs])
  rw [heq]
  refine ⟨?_, fun z hz => ?_, fun z hz => ?_, fun z hz => ?_, fun z hz hout y hy => ?_⟩
  · exact nodup_append_new h.distinct hnodup fun y hy => ((hmem y).mp hy).2
  · exact List.mem_append_left _ (h.started z hz)
  · rcases List.mem_append.mp hz with hz | hz
    · exact h.reached z hz
    · obtain ⟨r, hr, hrx⟩ := h.reached x hx
      exact ⟨r, hr, hrx.tail ((hmem z).mp hz).1⟩
  · rcases List.mem_append.mp hz with hz | hz
    · exact List.mem_append_left _ (h.queued z (by simp [hs, hz]))
    · exact List.mem_append_right _ hz
  · obtain ⟨hrest, hnew⟩ := not_or.mp fun h => hout (List.mem_append.mpr h)
    have hold : z ∈ s.visited := (List.mem_append.mp hz).resolve_right hnew
    by_cases hzx : z = x
    · by_cases hv : y ∈ s.visited
      · exact List.mem_append_left _ hv
      · exact List.mem_append_right _ ((hmem y).mpr ⟨hzx ▸ hy, hv⟩)
    · have hnot : z ∉ s.queue := by
        rw [hs, List.mem_cons, not_or]
        exact ⟨hzx, hrest⟩
      exact List.mem_append_left _ (h.closed z hold hnot y hy)

omit [DecidableEq α] in
/-- A search that is over has seen all that some start leads to. -/
theorem Sound.mem_iff (h : Sound next starts s) (hq : s.queue = []) (x : α) :
    x ∈ s.visited ↔ ∃ r ∈ starts, ReflTransGen (fun a b => b ∈ next a) r x := by
  refine ⟨h.reached x, fun hx => ?_⟩
  obtain ⟨r, hr, hrx⟩ := hx
  induction hrx with
  | refl => exact h.started r hr
  | tail _ hstep ih => exact h.closed _ ih (by simp [hq]) _ hstep

/-- Each step takes one off what is unseen or queued: where all neighbours lie in a finite set
the search comes to an end. -/
theorem Sound.drain {V : Finset α} (hV : ∀ x, ∀ y ∈ next x, y ∈ V) {n : Nat}
    (h : Sound next starts s) (hn : (V \ s.visited.toFinset).card + s.queue.length ≤ n) :
    ∃ found, s.drain next n = some found ∧
      ∀ x, x ∈ found ↔ ∃ r ∈ starts, ReflTransGen (fun a b => b ∈ next a) r x := by
  induction n generalizing s with
  | zero =>
    have hs : s.queue = [] := List.length_eq_zero_iff.mp (by omega)
    exact ⟨s.visited, by simp [Breadth.drain, hs], h.mem_iff hs⟩
  | succ n ih =>
    cases hs : s.queue with
    | nil => exact ⟨s.visited, by simp [Breadth.drain, hs], h.mem_iff hs⟩
    | cons x rest =>
      have hstep : s.drain next (n + 1) =
          ((next x).foldl see { s with queue := rest }).drain next n := by
        simp only [Breadth.drain, hs]
      rw [hstep]
      refine ih (h.step hs) ?_
      obtain ⟨new, hnodup, hmem, heq⟩ := foldl_see (next x) { s with queue := rest }
      have hnew : new.toFinset ⊆ V \ s.visited.toFinset := by
        intro y hy
        have hy := (hmem y).mp (List.mem_toFinset.mp hy)
        exact Finset.mem_sdiff.mpr ⟨hV x y hy.1, fun hv => hy.2 (List.mem_toFinset.mp hv)⟩
      have hcard := Finset.card_sdiff_add_card_eq_card hnew
      rw [sdiff_sdiff, List.toFinset_card_of_nodup hnodup] at hcard
      rw [heq]
      dsimp only
      rw [List.toFinset_append, List.length_append]
      rw [hs, List.length_cons] at hn
      change (V \ (s.visited.toFinset ∪ new.toFinset)).card + _ = _ at hcard
      omega

theorem Sound.nodup_drain {n : Nat} {found : List α} (h : Sound next starts s)
    (hfound : s.drain next n = some found) : found.Nodup := by
  induction n generalizing s with
  | zero =>
    by_cases hq : s.queue = []
    · rw [Breadth.drain, if_pos hq] at hfound
      exact Option.some.inj hfound ▸ h.distinct
    · rw [Breadth.drain, if_neg hq] at hfound
      cases hfound
  | succ n ih =>
    cases hq : s.queue with
    | nil =>
      simp only [Breadth.drain, hq, Option.some.injEq] at hfound
      exact hfound ▸ h.distinct
    | cons x rest =>
      simp only [Breadth.drain, hq] at hfound
      exact ih (h.step hq) hfound

/-- A search sees nothing twice. -/
theorem nodup_search {n : Nat} {found : List α} (h : search next n starts = some found) :
    found.Nodup :=
  sound_start.nodup_drain h

/-- A search sees all that its starts lead to, and ends within as many steps as there are nodes. -/
theorem search_eq {V : Finset α} (hV : ∀ x, ∀ y ∈ next x, y ∈ V) (hstarts : ∀ x ∈ starts, x ∈ V)
    {n : Nat} (hn : V.card ≤ n) :
    ∃ found, search next n starts = some found ∧
      ∀ x, x ∈ found ↔ ∃ r ∈ starts, ReflTransGen (fun a b => b ∈ next a) r x := by
  refine sound_start.drain hV ?_
  obtain ⟨new, hnodup, hmem, heq⟩ := foldl_see starts {}
  have hnew : new.toFinset ⊆ V := fun y hy => hstarts y ((hmem y).mp (List.mem_toFinset.mp hy)).1
  have hcard := Finset.card_sdiff_add_card_eq_card hnew
  rw [List.toFinset_card_of_nodup hnodup] at hcard
  rw [heq]
  simp only [List.nil_append]
  omega

end Breadth

open Relation

/-- A search underway from some roots: what it has seen, what it has yet to look behind,
and what it has found beside the roots. -/
structure Flood (α : Type) where
  visited : Finset α
  stack : List α
  found : List α := []

variable {α : Type} [DecidableEq α]

namespace Flood

/-- What has not been seen before is found. -/
def see (s : Flood α) (y : α) : Flood α :=
  if y ∈ s.visited then s
  else ⟨insert y s.visited, y :: s.stack, s.found ++ [y]⟩

/-- Looks behind what is on the stack until nothing is. -/
def drain (next : α → List α) : Nat → Flood α → Option (Flood α)
  | 0, s => if s.stack = [] then some s else none
  | n + 1, s =>
    match s.stack with
    | [] => some s
    | x :: rest => drain next n ((next x).foldl see { s with stack := rest })

variable {next : α → List α} {roots : List α} {s : Flood α}

/-- A node's neighbours add those among them that are new, each once. -/
theorem foldl_see (ys : List α) (s : Flood α) :
    ∃ new : List α, new.Nodup ∧ (∀ y, y ∈ new ↔ y ∈ ys ∧ y ∉ s.visited) ∧
      ys.foldl see s = ⟨s.visited ∪ new.toFinset, new.reverse ++ s.stack, s.found ++ new⟩ := by
  induction ys generalizing s with
  | nil => exact ⟨[], List.nodup_nil, by simp, by simp⟩
  | cons y ys ih =>
    rw [List.foldl_cons]
    by_cases hy : y ∈ s.visited
    · obtain ⟨new, hnodup, hmem, heq⟩ := ih s
      refine ⟨new, hnodup, fun z => ?_, by rw [see, if_pos hy, heq]⟩
      rw [hmem, List.mem_cons]
      constructor
      · exact fun h => ⟨.inr h.1, h.2⟩
      · rintro ⟨rfl | hz, hv⟩
        · exact absurd hy hv
        · exact ⟨hz, hv⟩
    · rw [see, if_neg hy]
      obtain ⟨new, hnodup, hmem, heq⟩ := ih ⟨insert y s.visited, y :: s.stack, s.found ++ [y]⟩
      have hfresh : y ∉ new := fun h => ((hmem y).mp h).2 (Finset.mem_insert_self y _)
      refine ⟨y :: new, List.nodup_cons.mpr ⟨hfresh, hnodup⟩, fun z => ?_, ?_⟩
      · rw [List.mem_cons, hmem, List.mem_cons, Finset.mem_insert]
        by_cases hz : z = y
        · simp [hz, hy]
        · simp [hz]
      · rw [heq]
        simp [Finset.insert_union]

variable (next roots) in
/-- What has been seen is the roots and what was found, all of it reached from a root; and
all that is next to it has been seen, but for what is still on the stack. -/
structure Spread (s : Flood α) : Prop where
  distinct : s.found.Nodup
  seen : ∀ x, x ∈ s.visited ↔ x ∈ roots ∨ x ∈ s.found
  apart : ∀ x ∈ s.found, x ∉ roots
  reached : ∀ x ∈ s.visited, ∃ r ∈ roots, ReflTransGen (fun a b => b ∈ next a) r x
  stacked : ∀ x ∈ s.stack, x ∈ s.visited
  closed : ∀ x ∈ s.visited, x ∉ s.stack → ∀ y ∈ next x, y ∈ s.visited

theorem Spread.step (h : Spread next roots s) {x : α} {rest : List α} (hs : s.stack = x :: rest) :
    Spread next roots ((next x).foldl see { s with stack := rest }) := by
  obtain ⟨new, hnodup, hmem, heq⟩ := foldl_see (next x) { s with stack := rest }
  have hx : x ∈ s.visited := h.stacked x (by simp [hs])
  rw [heq]
  refine ⟨?_, fun z => ?_, fun z hz => ?_, fun z hz => ?_, fun z hz => ?_, fun z hz hout y hy => ?_⟩
  · refine List.nodup_append.mpr ⟨h.distinct, hnodup, ?_⟩
    rintro a ha _ hb rfl
    exact ((hmem a).mp hb).2 ((h.seen a).mpr (.inr ha))
  · simp [h.seen, or_assoc]
  · rcases List.mem_append.mp hz with hz | hz
    · exact h.apart z hz
    · exact fun hr => ((hmem z).mp hz).2 ((h.seen z).mpr (.inl hr))
  · rcases Finset.mem_union.mp hz with hz | hz
    · exact h.reached z hz
    · obtain ⟨r, hr, hrx⟩ := h.reached x hx
      exact ⟨r, hr, hrx.tail ((hmem z).mp (List.mem_toFinset.mp hz)).1⟩
  · apply Finset.mem_union.mpr
    rcases List.mem_append.mp hz with hz | hz
    · exact .inr (by simpa using hz)
    · exact .inl (h.stacked z (by simp [hs, hz]))
  · have hold : z ∈ s.visited := by
      rcases Finset.mem_union.mp hz with hz | hz
      · exact hz
      · exact absurd (List.mem_append_left rest (by simpa using hz)) hout
    apply Finset.mem_union.mpr
    by_cases hzx : z = x
    · by_cases hv : y ∈ s.visited
      · exact .inl hv
      · exact .inr (List.mem_toFinset.mpr ((hmem y).mpr ⟨hzx ▸ hy, hv⟩))
    · have hnot : z ∉ s.stack := by
        rw [hs, List.mem_cons]
        rintro (h | h)
        · exact hzx h
        · exact hout (List.mem_append_right _ h)
      exact .inl (h.closed z hold hnot y hy)

/-- Each step takes one off what is unseen or stacked: where all neighbours lie in a finite
set the search comes to an end. -/
theorem Spread.drain {V : Finset α} (hV : ∀ x, ∀ y ∈ next x, y ∈ V) {n : Nat}
    (h : Spread next roots s) (hn : (V \ s.visited).card + s.stack.length ≤ n) :
    ∃ s', s.drain next n = some s' ∧ Spread next roots s' ∧ s'.stack = [] := by
  induction n generalizing s with
  | zero =>
    have hs : s.stack = [] := List.length_eq_zero_iff.mp (by omega)
    exact ⟨s, by simp [Flood.drain, hs], h, hs⟩
  | succ n ih =>
    cases hs : s.stack with
    | nil => exact ⟨s, by simp [Flood.drain, hs], h, hs⟩
    | cons x rest =>
      have hstep : s.drain next (n + 1) =
          ((next x).foldl see { s with stack := rest }).drain next n := by
        simp only [Flood.drain, hs]
      rw [hstep]
      refine ih (h.step hs) ?_
      obtain ⟨new, hnodup, hmem, heq⟩ := foldl_see (next x) { s with stack := rest }
      have hnew : new.toFinset ⊆ V \ s.visited := by
        intro y hy
        have hy := (hmem y).mp (List.mem_toFinset.mp hy)
        exact Finset.mem_sdiff.mpr ⟨hV x y hy.1, hy.2⟩
      have hcard := Finset.card_sdiff_add_card_eq_card hnew
      rw [sdiff_sdiff, List.toFinset_card_of_nodup hnodup] at hcard
      rw [heq]
      change (V \ (s.visited ∪ new.toFinset)).card + (new.reverse ++ rest).length ≤ n
      rw [hs, List.length_cons] at hn
      rw [List.length_append, List.length_reverse]
      change (V \ (s.visited ∪ new.toFinset)).card + _ = _ at hcard
      omega

omit [DecidableEq α] in
/-- A search that is over has found all that some root leads to. -/
theorem Spread.found_iff (h : Spread next roots s) (hs : s.stack = []) (x : α) :
    x ∈ s.found ↔ x ∉ roots ∧ ∃ r ∈ roots, ReflTransGen (fun a b => b ∈ next a) r x := by
  constructor
  · exact fun hx => ⟨h.apart x hx, h.reached x ((h.seen x).mpr (.inr hx))⟩
  · rintro ⟨hx, r, hr, hrx⟩
    have hv : x ∈ s.visited := by
      clear hx
      induction hrx with
      | refl => exact (h.seen r).mpr (.inl hr)
      | tail _ hstep ih => exact h.closed _ ih (by simp [hs]) _ hstep
    exact ((h.seen x).mp hv).resolve_left hx

/-- Where a search starts: with its roots on the stack, in any order. -/
theorem spread_start {stack : List α} (h : stack.Perm roots) :
    Spread next roots ⟨roots.toFinset, stack, []⟩ := by
  refine ⟨List.nodup_nil, by simp, by simp, fun x hx => ?_, fun x hx => ?_, fun x hx hout => ?_⟩
  · exact ⟨x, List.mem_toFinset.mp hx, .refl⟩
  · exact List.mem_toFinset.mpr (h.mem_iff.mp hx)
  · exact absurd (h.mem_iff.mpr (List.mem_toFinset.mp hx)) hout

end Flood

end HelixRouter.Graphs
