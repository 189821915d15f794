import Mathlib.Data.List.Basic
import Mathlib.Logic.Function.Iterate
import Mathlib.Order.Basic

namespace HelixRouter.Runs

variable {S C H O T : Type} {act : S → C → O × S} {sweep : S → H → S} {s t : S}

/-- What a machine answers to one call after the other. -/
def answers (act : S → C → O × S) : S → List C → List O
  | _, [] => []
  | s, c :: cs => (act s c).1 :: answers act (act s c).2 cs

theorem answers_cons (c : C) (cs : List C) :
    answers act s (c :: cs) = (act s c).1 :: answers act (act s c).2 cs := rfl

/-- A call that steps the state on and answers with something about it, made again and again. -/
theorem answers_replicate {next : S → S} {answer : S → O} {c : C}
    (h : ∀ s, act s c = (answer (next s), next s)) (n : Nat) (s : S) :
    answers act s (List.replicate n c) =
      (List.range n).map fun i => answer (next^[i] (next s)) := by
  induction n generalizing s with
  | zero => rfl
  | succ n ih =>
    rw [List.replicate_succ, answers_cons, h, ih, List.range_succ_eq_map, List.map_cons,
      List.map_map]
    rfl

/-- The answers where housekeeping comes between the calls. -/
def answersAmid (act : S → C → O × S) (sweep : S → H → S) : S → List (C ⊕ H) → List O
  | _, [] => []
  | s, .inl c :: events => (act s c).1 :: answersAmid act sweep (act s c).2 events
  | s, .inr h :: events => answersAmid act sweep (sweep s h) events

def calls (events : List (C ⊕ H)) : List C := events.filterMap Sum.getLeft?

variable [Preorder T] {timeOf : C ⊕ H → T} {now : T}

/-- States that no later call tells apart, though one of them has been swept. -/
structure Unseen (act : S → C → O × S) (sweep : S → H → S) (timeOf : C ⊕ H → T)
    (Alike : T → S → S → Prop) : Prop where
  later : ∀ {now later : T} {s t : S}, now ≤ later → Alike now s t → Alike later s t
  call : ∀ {s t : S} (c : C), Alike (timeOf (.inl c)) s t →
    (act s c).1 = (act t c).1 ∧ Alike (timeOf (.inl c)) (act s c).2 (act t c).2
  sweep : ∀ {s t : S} (h : H), Alike (timeOf (.inr h)) s t → Alike (timeOf (.inr h)) (sweep s h) t

/-- Housekeeping that makes no difference to a call makes none to a run. -/
theorem Unseen.answersAmid_eq {Alike : T → S → S → Prop} (hu : Unseen act sweep timeOf Alike)
    {events : List (C ⊕ H)} (hordered : events.Pairwise fun a b => timeOf a ≤ timeOf b)
    (hnow : ∀ e ∈ events, now ≤ timeOf e) (h : Alike now s t) :
    answersAmid act sweep s events = answers act t (calls events) := by
  induction events generalizing now s t with
  | nil => rfl
  | cons e events ih =>
    obtain ⟨hfirst, hrest⟩ := List.pairwise_cons.mp hordered
    have hthen := hu.later (hnow e List.mem_cons_self) h
    cases e with
    | inl c =>
      obtain ⟨hanswer, halike⟩ := hu.call c hthen
      change (act s c).1 :: _ = (act t c).1 :: answers act (act t c).2 (calls events)
      rw [hanswer]
      exact congrArg _ (ih hrest hfirst halike)
    | inr chore => exact ih hrest hfirst (hu.sweep chore hthen)

end HelixRouter.Runs
