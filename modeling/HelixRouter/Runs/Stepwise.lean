import Mathlib.Algebra.Order.Group.Nat
import Mathlib.Data.Option.Basic

namespace HelixRouter.Runs

variable {S E : Type} {step : S → E → Option S} {P : S → Prop} {G : S → E → Prop}
  {s s' : S} {e : E} {es fs : List E}

/-- Performs the events in order. There is no result where one is not enabled. -/
def exec (step : S → E → Option S) : S → List E → Option S
  | s, [] => some s
  | s, e :: es => (step s e).bind (fun s' => exec step s' es)

@[simp] theorem exec_nil : exec step s [] = some s := rfl

theorem exec_cons : exec step s (e :: es) = (step s e).bind (fun s' => exec step s' es) := rfl

theorem exec_append : exec step s (es ++ fs) = (exec step s es).bind (fun s' => exec step s' fs) := by
  induction es generalizing s with
  | nil => rfl
  | cons e es ih =>
    rw [List.cons_append, exec_cons, exec_cons, Option.bind_assoc]
    exact congrArg _ (funext fun _ => ih)

theorem exec_replicate_succ {n : Nat} : exec step s (List.replicate (n + 1) e) =
    (exec step s (List.replicate n e)).bind (fun s' => step s' e) := by
  rw [List.replicate_succ', exec_append]
  exact congrArg _ (funext fun t => Option.bind_fun_some (step t e))

/-- A run of one event repeated, along what holds after each of them. -/
theorem exec_replicate {n : Nat} (along : Nat → S → Prop) (h0 : along 0 s)
    (h : ∀ k < n, ∀ s, along k s → ∃ s', step s e = some s' ∧ along (k + 1) s') :
    ∃ s', exec step s (List.replicate n e) = some s' ∧ along n s' := by
  induction n with
  | zero => exact ⟨s, rfl, h0⟩
  | succ n ih =>
    obtain ⟨t, ht, ha⟩ := ih fun k hk => h k (Nat.lt_succ_of_lt hk)
    obtain ⟨u, hu, hb⟩ := h n (Nat.lt_succ_self n) t ha
    refine ⟨u, ?_, hb⟩
    rw [exec_replicate_succ, ht]
    exact hu

/-- Every state the run passes through has the property, the first and the last included. -/
def Throughout (step : S → E → Option S) (P : S → Prop) : S → List E → Prop
  | s, [] => P s
  | s, e :: es => P s ∧ ∀ s', step s e = some s' → Throughout step P s' es

/-- Every event the run takes meets the condition in the state it happens in. -/
def EachStep (step : S → E → Option S) (G : S → E → Prop) : S → List E → Prop
  | _, [] => True
  | s, e :: es => ∀ s', step s e = some s' → G s e ∧ EachStep step G s' es

theorem Throughout.start (h : Throughout step P s es) : P s := by
  cases es with
  | nil => exact h
  | cons e es => exact h.1

theorem Throughout.last (h : Throughout step P s es) (hx : exec step s es = some s') : P s' := by
  induction es generalizing s with
  | nil =>
    cases hx
    exact h
  | cons e es ih =>
    obtain ⟨t, ht, hx⟩ := Option.bind_eq_some_iff.mp hx
    exact ih (h.2 t ht) hx

theorem Throughout.append_right (h : Throughout step P s (es ++ fs))
    (hx : exec step s es = some s') : Throughout step P s' fs := by
  induction es generalizing s with
  | nil =>
    cases hx
    exact h
  | cons e es ih =>
    obtain ⟨t, ht, hx⟩ := Option.bind_eq_some_iff.mp hx
    exact ih (h.2 t ht) hx

/-- What an event keeps in the states that a run passes through is kept by the run. -/
theorem Throughout.induction {Q : S → Prop} (h : Throughout step P s es)
    (hx : exec step s es = some s') (h0 : Q s)
    (hs : ∀ s e s', P s → Q s → step s e = some s' → Q s') : Q s' := by
  induction es generalizing s with
  | nil =>
    cases hx
    exact h0
  | cons e es ih =>
    obtain ⟨t, ht, hx⟩ := Option.bind_eq_some_iff.mp hx
    exact ih (h.2 t ht) hx (hs s e t h.1 h0 ht)

theorem Throughout.imp {Q : S → Prop} (h : Throughout step P s es) (hi : ∀ s, P s → Q s) :
    Throughout step Q s es := by
  induction es generalizing s with
  | nil => exact hi s h
  | cons e es ih => exact ⟨hi s h.1, fun t ht => ih (h.2 t ht)⟩

theorem throughout_and {Q : S → Prop} : Throughout step (fun s => P s ∧ Q s) s es ↔
    Throughout step P s es ∧ Throughout step Q s es := by
  induction es generalizing s with
  | nil => exact Iff.rfl
  | cons e es ih =>
    constructor
    · intro h
      exact ⟨⟨h.1.1, fun t ht => (ih.mp (h.2 t ht)).1⟩, ⟨h.1.2, fun t ht => (ih.mp (h.2 t ht)).2⟩⟩
    · rintro ⟨hp, hq⟩
      exact ⟨⟨hp.1, hq.1⟩, fun t ht => ih.mpr ⟨hp.2 t ht, hq.2 t ht⟩⟩

/-- Two properties that agree where a third one holds are had along the same runs. -/
theorem Throughout.congr {J Q : S → Prop} (hj : Throughout step J s es)
    (h : ∀ s, J s → (P s ↔ Q s)) : Throughout step P s es ↔ Throughout step Q s es := by
  constructor
  · intro hp
    exact (throughout_and.mpr ⟨hj, hp⟩).imp fun s hs => (h s hs.1).mp hs.2
  · intro hq
    exact (throughout_and.mpr ⟨hj, hq⟩).imp fun s hs => (h s hs.1).mpr hs.2

theorem throughout_of_mem (h0 : P s)
    (hs : ∀ s, ∀ e ∈ es, ∀ s', P s → step s e = some s' → P s') : Throughout step P s es := by
  induction es generalizing s with
  | nil => exact h0
  | cons e es ih =>
    refine ⟨h0, fun t ht => ih (hs s e List.mem_cons_self t h0 ht) ?_⟩
    intro s e he
    exact hs s e (List.mem_cons_of_mem _ he)

/-- What the start has and every enabled event keeps is kept by every run. -/
theorem throughout_of_step (h0 : P s) (hs : ∀ s e s', P s → step s e = some s' → P s') :
    Throughout step P s es :=
  throughout_of_mem h0 fun s e _ => hs s e

theorem exec_induction (hx : exec step s es = some s') (h0 : P s)
    (hs : ∀ s e s', P s → step s e = some s' → P s') : P s' :=
  (throughout_of_step h0 hs).last hx

theorem Throughout.eachStep (h : Throughout step P s es)
    (hs : ∀ s, ∀ e ∈ es, ∀ s', P s → P s' → step s e = some s' → G s e) :
    EachStep step G s es := by
  induction es generalizing s with
  | nil => trivial
  | cons e es ih =>
    intro t ht
    have hp : Throughout step P t es := h.2 t ht
    refine ⟨hs s e List.mem_cons_self t h.1 hp.start ht, ih hp ?_⟩
    intro s e he
    exact hs s e (List.mem_cons_of_mem _ he)

theorem EachStep.append_right (h : EachStep step G s (es ++ fs))
    (hx : exec step s es = some s') : EachStep step G s' fs := by
  induction es generalizing s with
  | nil =>
    cases hx
    exact h
  | cons e es ih =>
    obtain ⟨t, ht, hx⟩ := Option.bind_eq_some_iff.mp hx
    exact ih (h t ht).2 hx

theorem EachStep.append (h : EachStep step G s es)
    (hf : ∀ s', exec step s es = some s' → EachStep step G s' fs) :
    EachStep step G s (es ++ fs) := by
  induction es generalizing s with
  | nil => exact hf s rfl
  | cons e es ih =>
    intro t ht
    refine ⟨(h t ht).1, ih (h t ht).2 fun s' hx => hf s' ?_⟩
    rw [exec_cons, ht]
    exact hx

theorem EachStep.left (h : EachStep step G s (es ++ fs)) : EachStep step G s es := by
  induction es generalizing s with
  | nil => trivial
  | cons e es ih => exact fun t ht => ⟨(h t ht).1, ih (h t ht).2⟩

theorem eachStep_and {H : S → E → Prop} : EachStep step (fun s e => G s e ∧ H s e) s es ↔
    EachStep step G s es ∧ EachStep step H s es := by
  induction es generalizing s with
  | nil => exact ⟨fun _ => ⟨trivial, trivial⟩, fun _ => trivial⟩
  | cons e es ih =>
    constructor
    · intro h
      exact ⟨fun t ht => ⟨(h t ht).1.1, (ih.mp (h t ht).2).1⟩,
        fun t ht => ⟨(h t ht).1.2, (ih.mp (h t ht).2).2⟩⟩
    · rintro ⟨hg, hh⟩ t ht
      exact ⟨⟨(hg t ht).1, (hh t ht).1⟩, ih.mpr ⟨(hg t ht).2, (hh t ht).2⟩⟩

/-- Where every event is enabled, a condition on events alone is one on the list of them. -/
theorem eachStep_event_iff {Q : E → Prop} (hs : ∀ s e, ∃ s', step s e = some s') :
    EachStep step (fun _ e => Q e) s es ↔ ∀ e ∈ es, Q e := by
  induction es generalizing s with
  | nil => exact iff_of_true trivial fun _ he => (nomatch he)
  | cons e es ih =>
    obtain ⟨t, ht⟩ := hs s e
    rw [List.forall_mem_cons]
    constructor
    · intro h
      exact ⟨(h t ht).1, ih.mp (h t ht).2⟩
    · rintro ⟨he, hes⟩ t' _
      exact ⟨he, ih.mpr hes⟩

/-- What an event keeps exactly when it meets a condition holds all along a run
exactly when all its events meet it. -/
theorem throughout_iff_eachStep (h0 : P s)
    (hs : ∀ s, ∀ e ∈ es, ∀ s', P s → step s e = some s' → (P s' ↔ G s e)) :
    Throughout step P s es ↔ EachStep step G s es := by
  induction es generalizing s with
  | nil => exact ⟨fun _ => trivial, fun _ => h0⟩
  | cons e es ih =>
    have hrest : ∀ s, ∀ e ∈ es, ∀ s', P s → step s e = some s' → (P s' ↔ G s e) := by
      intro s e he
      exact hs s e (List.mem_cons_of_mem _ he)
    constructor
    · intro h t ht
      have hp := hs s e List.mem_cons_self t h0 ht
      have ht' : P t := (h.2 t ht).start
      exact ⟨hp.mp ht', (ih ht' hrest).mp (h.2 t ht)⟩
    · intro h
      refine ⟨h0, fun t ht => ?_⟩
      obtain ⟨hg, hr⟩ := h t ht
      exact (ih ((hs s e List.mem_cons_self t h0 ht).mpr hg) hrest).mpr hr

/-- What every event keeps that meets a condition holds all along a run whose events all do. -/
theorem EachStep.throughout (h : EachStep step G s es) (h0 : P s)
    (hs : ∀ s e s', P s → G s e → step s e = some s' → P s') : Throughout step P s es := by
  induction es generalizing s with
  | nil => exact h0
  | cons e es ih =>
    refine ⟨h0, fun t ht => ?_⟩
    obtain ⟨hg, hrest⟩ := h t ht
    exact ih hrest (hs s e t h0 hg ht)

theorem forall_step_iff (hs : step s e = some s') :
    (∀ t, step s e = some t → P t) ↔ P s' := by
  constructor
  · intro h
    exact h s' hs
  · intro h t ht
    cases hs.symm.trans ht
    exact h

instance decidableEachStep [∀ s e, Decidable (G s e)] :
    ∀ (s : S) (es : List E), Decidable (EachStep step G s es)
  | _, [] => isTrue trivial
  | s, e :: es =>
    match hs : step s e with
    | none => isTrue fun _ ht => (nomatch hs.symm.trans ht)
    | some t =>
      have := decidableEachStep t es
      decidable_of_iff (G s e ∧ EachStep step G t es)
        (forall_step_iff (P := fun t => G s e ∧ EachStep step G t es) hs).symm

instance decidableThroughout [∀ s, Decidable (P s)] :
    ∀ (s : S) (es : List E), Decidable (Throughout step P s es)
  | s, [] => inferInstanceAs (Decidable (P s))
  | s, e :: es =>
    match hs : step s e with
    | none => decidable_of_iff (P s) ⟨fun h => ⟨h, fun _ ht => (nomatch hs.symm.trans ht)⟩, And.left⟩
    | some t =>
      have := decidableThroughout t es
      decidable_of_iff (P s ∧ Throughout step P t es)
        (and_congr_right fun _ => (forall_step_iff (P := fun t => Throughout step P t es) hs).symm)

/-- What the events of a run leave behind, in order. -/
def gather {A : Type} (step : S → E → Option S) (f : S → E → List A) : S → List E → List A
  | _, [] => []
  | s, e :: es => f s e ++ (step s e).elim [] fun s' => gather step f s' es

theorem gather_cons {A : Type} {f : S → E → List A} (hs : step s e = some s') :
    gather step f s (e :: es) = f s e ++ gather step f s' es := by
  rw [gather, hs, Option.elim_some]

/-- The rule for invariants that speak of what has been left behind so far. -/
theorem exec_induction_gather {A : Type} {f : S → E → List A} {Q : S → List A → Prop}
    {past : List A} (hx : exec step s es = some s') (h0 : Q s past)
    (hs : ∀ s past e s', Q s past → step s e = some s' → Q s' (past ++ f s e)) :
    Q s' (past ++ gather step f s es) := by
  induction es generalizing s past with
  | nil =>
    cases hx
    rwa [gather, List.append_nil]
  | cons e es ih =>
    obtain ⟨t, ht, hx⟩ := Option.bind_eq_some_iff.mp hx
    rw [gather_cons ht, ← List.append_assoc]
    exact ih hx (hs s past e t h0 ht)

/-- A property of states holds all along a run that starts with it and has it after every event. -/
theorem throughout_iff_after (h0 : P s) : Throughout step P s es ↔
    EachStep step (fun s e => ∀ s', step s e = some s' → P s') s es :=
  throughout_iff_eachStep h0 fun _ _ _ _ _ hs => (forall_step_iff hs).symm

/-- Two conditions on events that agree where an invariant holds, which they keep, hold of
the same runs. -/
theorem eachStep_iff_of_invariant {H : S → E → Prop} (h0 : P s)
    (hs : ∀ s e s', P s → step s e = some s' → (H s e ↔ G s e) ∧ (G s e → P s')) :
    EachStep step H s es ↔ EachStep step G s es := by
  induction es generalizing s with
  | nil => exact Iff.rfl
  | cons e es ih =>
    refine forall_congr' fun t => forall_congr' fun ht => ?_
    obtain ⟨hiff, hkeep⟩ := hs s e t h0 ht
    rw [hiff]
    exact and_congr_right fun hg => ih (hkeep hg)

section Clock

/-- A reading of the monotonic clock, in nanoseconds. -/
abbrev Instant := Nat

def nanosPerSec : Nat := 1000000000

/-- Whole seconds between two readings, none where the first is the later one. -/
def elapsedSecs (since now : Instant) : Nat := (now - since) / nanosPerSec

variable {since now later : Instant} {secs : Nat}

theorem le_elapsedSecs (h : since + secs * nanosPerSec ≤ now) : secs ≤ elapsedSecs since now := by
  have hpos : 0 < nanosPerSec := by decide
  apply (Nat.le_div_iff_mul_le hpos).mpr
  exact Nat.le_sub_of_add_le' h

theorem elapsedSecs_mono (h : now ≤ later) : elapsedSecs since now ≤ elapsedSecs since later :=
  Nat.div_le_div_right (Nat.sub_le_sub_right h since)

@[simp] theorem elapsedSecs_self : elapsedSecs now now = 0 := by
  simp [elapsedSecs]

end Clock

end HelixRouter.Runs
