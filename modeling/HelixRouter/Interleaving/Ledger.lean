import HelixRouter.Interleaving.Pool
import Mathlib.Algebra.BigOperators.Group.List.Basic

namespace HelixRouter.Interleaving

variable {E : Type} {R : E → Type} {S I C A M ι : Type}

/-- What the tasks of a pool hold together, by their views. -/
def Pool.tally (mon : Monitor E R C A M) (held : M → Nat) (p : Pool E R S C A) : Nat :=
  (p.tasks.map (fun t => held (t.view mon))).sum

namespace Pool

variable {mon : Monitor E R C A M} {held : M → Nat}

theorem tally_split (mon : Monitor E R C A M) (held : M → Nat) (s : S)
    (pre post : List (Task E R C A)) (t : Task E R C A) :
    Pool.tally mon held ⟨s, pre ++ t :: post⟩ =
      held (t.view mon) + ((pre ++ post).map (fun u => held (u.view mon))).sum := by
  simp only [tally, List.map_append, List.map_cons, List.sum_append, List.sum_cons]
  omega

theorem held_le_tally (mon : Monitor E R C A M) (held : M → Nat) {p : Pool E R S C A}
    {t : Task E R C A} (ht : t ∈ p.tasks) : held (t.view mon) ≤ p.tally mon held := by
  obtain ⟨pre, post, hp⟩ := List.append_of_mem ht
  have h := tally_split mon held p.state pre post t
  rw [← hp] at h
  change p.tally mon held = _ at h
  omega

/-- Nothing is held when no task holds anything. -/
theorem tally_eq_zero {p : Pool E R S C A} (h : ∀ t ∈ p.tasks, held (t.view mon) = 0) :
    p.tally mon held = 0 := by
  refine List.sum_eq_zero fun n hn => ?_
  obtain ⟨t, ht, rfl⟩ := List.mem_map.mp hn
  exact h t ht

theorem tally_add (f g : M → Nat) (p : Pool E R S C A) :
    p.tally mon (fun v => f v + g v) = p.tally mon f + p.tally mon g := by
  unfold tally
  induction p.tasks with
  | nil => rfl
  | cons t ts ih =>
    simp only [List.map_cons, List.sum_cons, ih]
    omega

theorem tally_le {f g : M → Nat} {p : Pool E R S C A}
    (h : ∀ t ∈ p.tasks, f (t.view mon) ≤ g (t.view mon)) : p.tally mon f ≤ p.tally mon g := by
  unfold tally
  generalize p.tasks = ts at h
  induction ts with
  | nil => exact Nat.le_refl 0
  | cons t ts ih =>
    have ht := h t (by simp)
    have := ih fun u hu => h u (List.mem_cons_of_mem t hu)
    simp only [List.map_cons, List.sum_cons]
    omega

theorem tally_congr {f g : M → Nat} {p : Pool E R S C A}
    (h : ∀ t ∈ p.tasks, f (t.view mon) = g (t.view mon)) : p.tally mon f = p.tally mon g :=
  Nat.le_antisymm (tally_le fun t ht => Nat.le_of_eq (h t ht))
    (tally_le fun t ht => Nat.le_of_eq (h t ht).symm)

/-- Where some tasks hold one and the rest nothing, the tally counts them. -/
theorem tally_count (held : M → Nat) {p : Pool E R S C A} (P : Task E R C A → Bool)
    (h : ∀ t ∈ p.tasks, held (t.view mon) = if P t then 1 else 0) :
    p.tally mon held = (p.tasks.filter P).length := by
  unfold tally
  rw [List.map_congr_left h]
  induction p.tasks with
  | nil => rfl
  | cons t ts ih =>
    cases ht : P t <;> simp only [List.map_cons, List.sum_cons, ih, ht, List.filter_cons_of_pos,
      List.filter_cons_of_neg, Bool.false_eq_true, not_false_eq_true, if_true, if_false,
      List.length_cons] <;> omega

/-- Of what is held once at most no two tasks hold any. -/
theorem index_unique (mon : Monitor E R C A M) (held : M → Nat) {p : Pool E R S C A} {i k : Nat}
    {t u : Task E R C A}
    (h : p.tally mon held ≤ 1) (ht : p.tasks[i]? = some t) (hu : p.tasks[k]? = some u)
    (hheldt : 0 < held (t.view mon)) (hheldu : 0 < held (u.view mon)) : i = k := by
  obtain ⟨s, ts⟩ := p
  induction ts generalizing i k with
  | nil => cases ht
  | cons a ts ih =>
    have hsum : Pool.tally mon held ⟨s, a :: ts⟩ =
        held (a.view mon) + Pool.tally mon held ⟨s, ts⟩ := by simp [tally]
    rw [hsum] at h
    have hrest : ∀ {v : Task E R C A} {j : Nat}, ts[j]? = some v →
        held (v.view mon) ≤ Pool.tally mon held ⟨s, ts⟩ := by
      intro v j hv
      exact held_le_tally mon held (p := ⟨s, ts⟩) (List.mem_of_getElem? hv)
    cases i with
    | zero =>
      cases k with
      | zero => rfl
      | succ k =>
        obtain rfl : a = t := Option.some.inj ht
        have hle := hrest (j := k) hu
        omega
    | succ i =>
      cases k with
      | zero =>
        obtain rfl : a = u := Option.some.inj hu
        have hle := hrest (j := i) ht
        omega
      | succ k => exact congrArg Nat.succ (ih (by omega) ht hu)

theorem exists_held {p : Pool E R S C A} (h : 0 < p.tally mon held) :
    ∃ t ∈ p.tasks, 0 < held (t.view mon) := by
  by_contra hn
  have h0 : p.tally mon held = 0 := tally_eq_zero fun t ht => by
    by_contra hp
    exact hn ⟨t, ht, Nat.pos_of_ne_zero hp⟩
  omega

end Pool

namespace Machine

/-- A double-entry ledger: what the tasks hold and what the state stocks add up to
what the state owes, for every account. Each operation has to balance by itself. -/
structure Ledger (m : Machine E R S I C A) (mon : Monitor E R C A M)
    (G : Action I C → Pool E R S C A → Prop) (good : S → Prop)
    (held : ι → M → Nat) (stock owed : ι → S → Nat) : Prop where
  body : ∀ c, (m.body c).wp mon (mon.fin c) (mon.init c)
  start : ∀ c p, m.external c = true → G (.start c) p → ∀ i, held i (mon.init c) = 0
  step : ∀ (k : Nat) (input : I) (p : Pool E R S C A) (t : Task E R C A) (e : E) r s' new,
    t ∈ p.tasks → m.exec e input p.state = some (r, s', new) → t.prog.head? = some e →
    p.tasks[k]? = some t → G (.step k input) p →
    good p.state → mon.allow (t.view mon) e →
    (∀ i, p.tally mon (held i) + stock i p.state = owed i p.state) →
    mon.may (t.view mon) e r ∧ good s' ∧
      ∀ i, held i (mon.next (t.view mon) e r) + (new.map (fun c => held i (mon.init c))).sum +
        stock i s' + owed i p.state = held i (t.view mon) + stock i p.state + owed i s'

/-- The books of a pool balance. -/
def Balanced (mon : Monitor E R C A M) (good : S → Prop) (held : ι → M → Nat)
    (stock owed : ι → S → Nat) (p : Pool E R S C A) : Prop :=
  good p.state ∧ ∀ i, p.tally mon (held i) + stock i p.state = owed i p.state

namespace Ledger

variable {m : Machine E R S I C A} {mon : Monitor E R C A M}
  {G : Action I C → Pool E R S C A → Prop} {good : S → Prop} {held : ι → M → Nat}
  {stock owed : ι → S → Nat}

theorem invariant (hl : m.Ledger mon G good held stock owed) :
    m.Invariant mon G (Balanced mon good held stock owed) where
  body := hl.body
  start c s tasks hc hg hj := by
    refine ⟨hj.1, fun i => ?_⟩
    have h0 := hl.start c _ hc hg i
    have hi := hj.2 i
    simp only [Pool.tally, List.map_append, List.sum_append, List.map_cons, List.map_nil,
      List.sum_cons, List.sum_nil, view_spawn] at hi ⊢
    omega
  step input pre post t e next r s s' new hp hx hg _ ha hj := by
    have ht : t ∈ pre ++ t :: post := by simp
    have hk : (pre ++ t :: post)[pre.length]? = some t := by simp
    obtain ⟨hm, hgood, hbal⟩ := hl.step pre.length input ⟨s, pre ++ t :: post⟩ t e r s' new ht hx
      (by simp [hp]) hk hg hj.1 ha hj.2
    refine ⟨hm, hgood, fun i => ?_⟩
    have hi := hj.2 i
    have hb := hbal i
    rw [Pool.tally_split] at hi
    have hnew : (new.map m.spawn).map (fun u => held i (u.view mon)) =
        new.map (fun c => held i (mon.init c)) := by
      simp [Function.comp_def]
    simp only [Pool.tally, List.map_append, List.sum_append, List.map_cons, List.sum_cons,
      Task.view_advance, hnew] at hi hb ⊢
    omega

/-- The books balance after every run that starts balanced and meets the condition. -/
theorem run (hl : m.Ledger mon G good held stock owed) {as : List (Action I C)}
    {p p' : Pool E R S C A} (hg : m.Guarded G as p) (h : m.run as p = some p')
    (hf : ∀ t ∈ p.tasks, t.Follows mon) (h0 : Balanced mon good held stock owed p) :
    Balanced mon good held stock owed p' ∧ ∀ t ∈ p'.tasks, t.Follows mon :=
  hl.invariant.run hg h hf h0

end Ledger

end Machine

end HelixRouter.Interleaving
