import HelixRouter.Interleaving.History
import HelixRouter.Runs.Stepwise

namespace HelixRouter.Interleaving

open Runs

variable {E : Type} {R : E → Type} {S I C A X : Type} {m : Machine E R S I C A}

/-- Who is there while one of a list is replaced. -/
theorem eq_or_mem_replaced {α : Type} {pre post : List α} {t u : α} (t' : α)
    (h : u ∈ pre ++ t :: post) : u = t ∨ u ∈ pre ++ t' :: post := by
  simp only [List.mem_append, List.mem_cons] at h ⊢
  rcases h with h | h | h
  · exact Or.inr (Or.inl h)
  · exact Or.inl h
  · exact Or.inr (Or.inr (Or.inr h))

namespace Machine

/-- The moment of a run at which a task performs an operation that is answered like this. -/
structure Moment (m : Machine E R S I C A) (as : List (Action I C)) (p : Pool E R S C A) (i : Nat)
    (q : Pool E R S C A) (e : E) (r : R e) : Prop where
  reached : ∃ (before : List (Action I C)) (input : I) (after : List (Action I C)) (s : S)
    (new : List C), as = before ++ .step i input :: after ∧ m.run before p = some q ∧
      m.exec e input q.state = some (r, s, new)
  about : ∃ t, q.tasks[i]? = some t ∧ t.prog.head? = some e

theorem Moment.later {as : List (Action I C)} {a : Action I C} {p p₁ q : Pool E R S C A} {i : Nat}
    {e : E} {r : R e} (hs : m.step a p = some p₁) (h : m.Moment as p₁ i q e r) :
    m.Moment (a :: as) p i q e r := by
  obtain ⟨⟨before, input, after, s, new, rfl, hr, hx⟩, habout⟩ := h
  refine ⟨⟨a :: before, input, after, s, new, rfl, ?_, hx⟩, habout⟩
  change (m.step a p).bind (m.run before) = some q
  rw [hs]
  exact hr

/-- Whatever a task has done, there was a moment at which it did it. -/
theorem exists_moment {f : (e : E) → R e → List X} {as : List (Action I C)}
    {p p' : Pool E R S C A} {i : Nat} {t : Task E R C A} {x : X} (hr : m.run as p = some p')
    (ht : p'.tasks[i]? = some t) (hx : x ∈ t.log f) :
    (∃ u, p.tasks[i]? = some u ∧ x ∈ u.log f) ∨ ∃ q e r, m.Moment as p i q e r ∧ x ∈ f e r := by
  induction as generalizing p with
  | nil =>
    cases hr
    exact Or.inl ⟨t, ht, hx⟩
  | cons a as ih =>
    obtain ⟨p₁, hs, hr⟩ := Option.bind_eq_some_iff.mp hr
    rcases ih hr with ⟨u, hu, hxu⟩ | ⟨q, e, r, hm, hxr⟩
    · cases m.step_cases hs with
      | start c s tasks hc =>
        by_cases hi : i < tasks.length
        · exact Or.inl ⟨u, by rwa [List.getElem?_append_left hi] at hu, hxu⟩
        · rw [List.getElem?_append_right (Nat.le_of_not_lt hi)] at hu
          have hmem : u ∈ [m.spawn c] := List.mem_of_getElem? hu
          rw [List.mem_singleton.mp hmem] at hxu
          cases hxu
      | step input pre post v e next r s s' new hp hexec =>
        by_cases hi : i = pre.length
        · subst hi
          have hv : v.advance e r (next r) = u := by simpa using hu
          rw [← hv, Task.log_advance, List.mem_append] at hxu
          rcases hxu with hold | hnow
          · exact Or.inl ⟨v, by simp, hold⟩
          · refine Or.inr ⟨_, e, r, ⟨⟨[], input, as, s', new, rfl, rfl, hexec⟩, v, by simp, ?_⟩, hnow⟩
            rw [hp]
            rfl
        · by_cases hlen : i < (pre ++ v :: post).length
          · refine Or.inl ⟨u, ?_, hxu⟩
            rw [List.getElem?_append_left (by simpa using hlen)] at hu
            by_cases hlt : i < pre.length
            · rw [List.getElem?_append_left hlt] at hu ⊢
              exact hu
            · have hle : pre.length ≤ i := Nat.le_of_not_lt hlt
              obtain ⟨k, hk⟩ : ∃ k, i - pre.length = k + 1 := ⟨i - pre.length - 1, by omega⟩
              rw [List.getElem?_append_right hle, hk, List.getElem?_cons_succ] at hu ⊢
              exact hu
          · rw [List.getElem?_append_right (by simp at hlen ⊢; omega)] at hu
            obtain ⟨c, _, hc⟩ := List.mem_map.mp (List.mem_of_getElem? hu)
            rw [← hc] at hxu
            cases hxu
    · exact Or.inr ⟨q, e, r, hm.later hs, hxr⟩

theorem Guarded.at {G : Action I C → Pool E R S C A → Prop} {before after : List (Action I C)}
    {a : Action I C} {p q : Pool E R S C A} (hg : m.Guarded G (before ++ a :: after) p)
    (hr : m.run before p = some q) : G a q := by
  induction before generalizing p with
  | nil =>
    cases hr
    exact hg.1
  | cons b before ih =>
    obtain ⟨p₁, hs, hr⟩ := Option.bind_eq_some_iff.mp hr
    exact ih (hg.2 p₁ hs) hr

/-- A run whose steps meet a condition has a beginning whose steps do. -/
theorem Guarded.left {G : Action I C → Pool E R S C A → Prop} {before after : List (Action I C)}
    {p : Pool E R S C A} (hg : m.Guarded G (before ++ after) p) : m.Guarded G before p := by
  induction before generalizing p with
  | nil => trivial
  | cons b before ih => exact ⟨hg.1, fun q hq => ih (hg.2 q hq)⟩

theorem Always.at {P : Pool E R S C A → Prop} {before after : List (Action I C)}
    {p q : Pool E R S C A} (h : m.Always P (before ++ after) p) (hr : m.run before p = some q) :
    P q := by
  induction before generalizing p with
  | nil =>
    cases hr
    exact h.start
  | cons b before ih =>
    obtain ⟨p₁, hs, hr⟩ := Option.bind_eq_some_iff.mp hr
    exact ih (h.2 p₁ hs) hr

end Machine

/-- A pool some of whose tasks have gone away before they ended. -/
structure Scene (E : Type) (R : E → Type) (S C A : Type) where
  pool : Pool E R S C A
  gone : List Nat

/-- The scheduler goes on, or a task goes away. -/
inductive Event (I C : Type) where
  | act (a : Action I C)
  | vanish (i : Nat)

variable {M : Type}

namespace Scene

variable {x : Scene E R S C A}

/-- The operation a task is about to perform, if it is still there. -/
def head? (x : Scene E R S C A) (i : Nat) : Option E :=
  (x.pool.tasks[i]?).bind fun t => t.prog.head?

end Scene

namespace Machine

/-- A task goes away only where it awaits, which it may do before some of its operations,
and it does nothing afterwards. -/
def live (m : Machine E R S I C A) (suspends : E → Bool) (x : Scene E R S C A) :
    Event I C → Option (Scene E R S C A)
  | .act (.start c) => (m.step (.start c) x.pool).map fun p => { x with pool := p }
  | .act (.step i input) =>
    if i ∈ x.gone then none
    else (m.step (.step i input) x.pool).map fun p => { x with pool := p }
  | .vanish i =>
    if i ∉ x.gone ∧ (x.head? i).any suspends = true then some { x with gone := i :: x.gone }
    else none

variable {suspends : E → Bool} {x y : Scene E R S C A}
  {a : Action I C} {i : Nat} {input : I}

theorem live_act (h : m.live suspends x (.act a) = some y) :
    m.step a x.pool = some y.pool ∧ y.gone = x.gone := by
  cases a with
  | start c =>
    obtain ⟨p, hp, rfl⟩ := Option.map_eq_some_iff.mp h
    exact ⟨hp, rfl⟩
  | step i input =>
    simp only [live] at h
    split at h
    · cases h
    · obtain ⟨p, hp, rfl⟩ := Option.map_eq_some_iff.mp h
      exact ⟨hp, rfl⟩

theorem live_start {c : C} (h : m.live suspends x (.act (.start c)) = some y) :
    y = ⟨⟨x.pool.state, x.pool.tasks ++ [m.spawn c]⟩, x.gone⟩ := by
  obtain ⟨p, hp, rfl⟩ := Option.map_eq_some_iff.mp h
  simp only [Machine.step, Option.ite_none_right_eq_some, Option.some.injEq] at hp
  obtain ⟨_, rfl⟩ := hp
  rfl

/-- A step belongs to a task that is still there, and leaves the others where they are. -/
theorem live_step (h : m.live suspends x (.act (.step i input)) = some y) :
    i ∉ x.gone ∧ ∃ t e next r s new, x.pool.tasks[i]? = some t ∧ t.prog = .op e next ∧
      m.exec e input x.pool.state = some (r, s, new) ∧
      y = ⟨⟨s, x.pool.tasks.set i (t.advance e r (next r)) ++ new.map m.spawn⟩, x.gone⟩ := by
  simp only [live, Option.ite_none_left_eq_some] at h
  obtain ⟨hi, h⟩ := h
  obtain ⟨p, hp, rfl⟩ := Option.map_eq_some_iff.mp h
  refine ⟨hi, ?_⟩
  simp only [Machine.step] at hp
  split at hp
  · cases hp
  · rename_i t ht
    split at hp
    · cases hp
    · rename_i e next hprog
      split at hp
      · cases hp
      · rename_i r s new hx
        cases hp
        exact ⟨t, e, next, r, s, new, ht, hprog, hx, rfl⟩

theorem live_vanish : m.live suspends x (.vanish i) = some y ↔
    (i ∉ x.gone ∧ (x.head? i).any suspends = true) ∧ y = { x with gone := i :: x.gone } := by
  simp only [live, Option.ite_none_right_eq_some, Option.some.injEq]
  exact and_congr_right fun _ => eq_comm

/-- What every step of the machine keeps is kept when tasks go away besides. -/
theorem live_pool {P : Pool E R S C A → Prop} {e : Event I C} (hx : P x.pool)
    (h : m.live suspends x e = some y) (hs : ∀ a q q', P q → m.Step a q q' → P q') : P y.pool := by
  cases e with
  | act a => exact hs a _ _ hx (m.step_cases (live_act h).1)
  | vanish i =>
    obtain ⟨_, rfl⟩ := live_vanish.mp h
    exact hx

/-- Only tasks there are go away. -/
theorem live_gone {e : Event I C} (hx : ∀ i ∈ x.gone, i < x.pool.tasks.length)
    (h : m.live suspends x e = some y) : ∀ i ∈ y.gone, i < y.pool.tasks.length := by
  intro j hj
  cases e with
  | act a =>
    have hlt : j < x.pool.tasks.length := hx j ((live_act h).2 ▸ hj)
    cases a with
    | start c =>
      obtain rfl := live_start h
      rw [List.length_append]
      exact Nat.lt_add_right _ hlt
    | step i input =>
      obtain ⟨_, t, e, next, r, s, new, _, _, _, rfl⟩ := live_step h
      rw [List.length_append, List.length_set]
      exact Nat.lt_add_right _ hlt
  | vanish i =>
    obtain ⟨⟨_, hhead⟩, rfl⟩ := live_vanish.mp h
    rcases List.mem_cons.mp hj with rfl | hj
    · cases ht : x.pool.tasks[j]? with
      | none => simp [Scene.head?, ht] at hhead
      | some t => exact (List.getElem?_eq_some_iff.mp ht).1
    · exact hx j hj

/-- The tasks after an action are those before it, one of them moved on perhaps, and new ones. -/
theorem live_task {k : Nat} {u : Task E R C A} (h : m.live suspends x (.act a) = some y)
    (hk : y.pool.tasks[k]? = some u) : x.pool.tasks[k]? = some u ∨ (∃ c, u = m.spawn c) ∨
      ∃ t e next input r new, k ∉ x.gone ∧ x.pool.tasks[k]? = some t ∧ t.prog = .op e next ∧
        m.exec e input x.pool.state = some (r, y.pool.state, new) ∧
        u = t.advance e r (next r) := by
  cases a with
  | start c =>
    obtain rfl := live_start h
    rw [List.getElem?_append] at hk
    split at hk
    · exact Or.inl hk
    · exact Or.inr (Or.inl ⟨c, List.mem_singleton.mp (List.mem_of_getElem? hk)⟩)
  | step i input =>
    obtain ⟨hi, t, e, next, r, s, new, ht, hprog, hx, rfl⟩ := live_step h
    dsimp only at hk
    rw [List.getElem?_append] at hk
    split at hk
    · by_cases hik : i = k
      · subst hik
        rw [List.getElem?_set_self (List.getElem?_eq_some_iff.mp ht).1] at hk
        exact Or.inr (Or.inr ⟨t, e, next, input, r, new, hi, ht, hprog, hx,
          (Option.some.inj hk).symm⟩)
      · rw [List.getElem?_set_ne hik] at hk
        exact Or.inl hk
    · obtain ⟨c, _, rfl⟩ := List.mem_map.mp (List.mem_of_getElem? hk)
      exact Or.inr (Or.inl ⟨c, rfl⟩)

/-- Who is gone stays as it was. -/
theorem live_task_gone {k : Nat} (h : m.live suspends x (.act a) = some y) (hk : k ∈ x.gone)
    (hlt : k < x.pool.tasks.length) : y.pool.tasks[k]? = x.pool.tasks[k]? := by
  cases a with
  | start c =>
    obtain rfl := live_start h
    exact List.getElem?_append_left hlt
  | step i input =>
    obtain ⟨hi, t, e, next, r, s, new, ht, hprog, hx, rfl⟩ := live_step h
    dsimp only
    rw [List.getElem?_append_left (by rwa [List.length_set]), List.getElem?_set_ne]
    intro hik
    exact hi (hik ▸ hk)

theorem live_state (h : m.live suspends x (.act a) = some y) :
    y.pool.state = x.pool.state ∨
      ∃ e input r new, m.exec e input x.pool.state = some (r, y.pool.state, new) := by
  cases a with
  | start c =>
    obtain rfl := live_start h
    exact Or.inl rfl
  | step i input =>
    obtain ⟨_, t, e, next, r, s, new, ht, hprog, hx, rfl⟩ := live_step h
    exact Or.inr ⟨e, input, r, new, hx⟩

end Machine

end HelixRouter.Interleaving
