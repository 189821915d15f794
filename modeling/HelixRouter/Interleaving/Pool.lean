import HelixRouter.Interleaving.Prog
import Mathlib.Algebra.Ring.Nat
import Mathlib.Data.List.Basic

namespace HelixRouter.Interleaving

/-- Tasks over shared state: what an operation does to the state for one input of
the environment, what a call runs, and which calls arrive from outside. An
operation that is not enabled has no result; one may start further calls. -/
structure Machine (E : Type) (R : E → Type) (S I C A : Type) where
  exec : (e : E) → I → S → Option (R e × S × List C)
  body : C → Prog E R A
  external : C → Bool

/-- A task keeps the operations it has performed, with their answers. -/
structure Task (E : Type) (R : E → Type) (C A : Type) where
  call : C
  prog : Prog E R A
  trace : List (Sigma R)

structure Pool (E : Type) (R : E → Type) (S C A : Type) where
  state : S
  tasks : List (Task E R C A)

/-- One choice of the scheduler: a new call arrives, or a task performs its next operation. -/
inductive Action (I C : Type) where
  | start (c : C)
  | step (i : Nat) (input : I)

variable {E : Type} {R : E → Type} {S I C A M : Type}

def Task.advance (t : Task E R C A) (e : E) (r : R e) (p : Prog E R A) : Task E R C A :=
  { t with prog := p, trace := t.trace ++ [⟨e, r⟩] }

@[simp] theorem Task.advance_call (t : Task E R C A) (e : E) (r : R e) (p : Prog E R A) :
    (t.advance e r p).call = t.call := rfl

@[simp] theorem Task.advance_prog (t : Task E R C A) (e : E) (r : R e) (p : Prog E R A) :
    (t.advance e r p).prog = p := rfl

@[simp] theorem Task.advance_trace (t : Task E R C A) (e : E) (r : R e) (p : Prog E R A) :
    (t.advance e r p).trace = t.trace ++ [⟨e, r⟩] := rfl

/-- The answer of a task that has ended. -/
def Task.result? (t : Task E R C A) : Option A :=
  match t.prog with
  | .ret a => some a
  | .op _ _ => none

namespace Machine

variable (m : Machine E R S I C A)

def spawn (c : C) : Task E R C A := ⟨c, m.body c, []⟩

@[simp] theorem spawn_call (c : C) : (m.spawn c).call = c := rfl

@[simp] theorem spawn_prog (c : C) : (m.spawn c).prog = m.body c := rfl

@[simp] theorem spawn_trace (c : C) : (m.spawn c).trace = [] := rfl

def step : Action I C → Pool E R S C A → Option (Pool E R S C A)
  | .start c, p => if m.external c then some { p with tasks := p.tasks ++ [m.spawn c] } else none
  | .step i input, p =>
    match p.tasks[i]? with
    | none => none
    | some t =>
      match t.prog with
      | .ret _ => none
      | .op e next =>
        match m.exec e input p.state with
        | none => none
        | some (r, s, new) =>
          some ⟨s, p.tasks.set i (t.advance e r (next r)) ++ new.map m.spawn⟩

def run : List (Action I C) → Pool E R S C A → Option (Pool E R S C A)
  | [], p => some p
  | a :: as, p => (m.step a p).bind (run as)

/-- The steps of the machine, with the pool split around the task that moves. -/
inductive Step : Action I C → Pool E R S C A → Pool E R S C A → Prop where
  | start (c : C) (s : S) (tasks : List (Task E R C A)) (h : m.external c = true) :
    Step (.start c) ⟨s, tasks⟩ ⟨s, tasks ++ [m.spawn c]⟩
  | step (input : I) (pre post : List (Task E R C A)) (t : Task E R C A) (e : E)
      (next : R e → Prog E R A) (r : R e) (s s' : S) (new : List C)
      (hp : t.prog = .op e next) (hx : m.exec e input s = some (r, s', new)) :
    Step (.step pre.length input) ⟨s, pre ++ t :: post⟩
      ⟨s', pre ++ t.advance e r (next r) :: post ++ new.map m.spawn⟩

theorem step_cases {a : Action I C} {p p' : Pool E R S C A} (h : m.step a p = some p') :
    m.Step a p p' := by
  cases a with
  | start c =>
    simp only [Machine.step, Option.ite_none_right_eq_some, Option.some.injEq] at h
    obtain ⟨hc, rfl⟩ := h
    exact .start c p.state p.tasks hc
  | step i input =>
    simp only [Machine.step] at h
    split at h
    · cases h
    · rename_i t ht
      split at h
      · cases h
      · rename_i e next hp
        split at h
        · cases h
        · rename_i r s new hx
          cases h
          obtain ⟨hi, rfl⟩ := List.getElem?_eq_some_iff.mp ht
          have hs := Step.step (m := m) input (p.tasks.take i) (p.tasks.drop (i + 1)) _ e next r
            p.state s new hp hx
          rw [List.getElem_cons_drop hi, List.take_append_drop, List.length_take,
            Nat.min_eq_left (Nat.le_of_lt hi)] at hs
          rw [List.set_eq_take_cons_drop _ hi]
          exact hs

theorem Step.enabled {a : Action I C} {p p' : Pool E R S C A} (h : m.Step a p p') :
    m.step a p = some p' := by
  cases h with
  | start c s tasks hc => simp [Machine.step, hc]
  | step input pre post t e next r s s' new hp hx => simp [Machine.step, hp, hx]

variable {m}

/-- What holds at the start and survives every step holds after every run. -/
theorem run_induction {P : Pool E R S C A → Prop} {as : List (Action I C)} {p p' : Pool E R S C A}
    (h : m.run as p = some p') (h0 : P p)
    (hs : ∀ a q q', P q → m.Step a q q' → P q') : P p' := by
  induction as generalizing p with
  | nil => cases h; exact h0
  | cons a as ih =>
    obtain ⟨q, hq, hr⟩ := Option.bind_eq_some_iff.mp h
    exact ih hr (hs a p q h0 (m.step_cases hq))

theorem run_append (as bs : List (Action I C)) (p : Pool E R S C A) :
    m.run (as ++ bs) p = (m.run as p).bind (m.run bs) := by
  induction as generalizing p with
  | nil => rfl
  | cons a as ih =>
    change (m.step a p).bind (m.run (as ++ bs)) = ((m.step a p).bind (m.run as)).bind (m.run bs)
    cases m.step a p with
    | none => rfl
    | some q => exact ih q

theorem run_concat (as : List (Action I C)) (a : Action I C) (p : Pool E R S C A) :
    m.run (as ++ [a]) p = (m.run as p).bind (m.step a) := by
  rw [run_append]
  exact congrArg _ (funext fun q => Option.bind_fun_some (m.step a q))

/-- Every step the run takes meets the condition in the pool it starts from. -/
def Guarded (m : Machine E R S I C A) (G : Action I C → Pool E R S C A → Prop) :
    List (Action I C) → Pool E R S C A → Prop
  | [], _ => True
  | a :: as, p => G a p ∧ ∀ q, m.step a p = some q → m.Guarded G as q

/-- The same rule for runs whose steps all meet a condition. -/
theorem guarded_induction {P : Pool E R S C A → Prop} {G : Action I C → Pool E R S C A → Prop}
    {as : List (Action I C)} {p p' : Pool E R S C A} (hg : m.Guarded G as p)
    (h : m.run as p = some p') (h0 : P p)
    (hs : ∀ a q q', P q → G a q → m.Step a q q' → P q') : P p' := by
  induction as generalizing p with
  | nil => cases h; exact h0
  | cons a as ih =>
    obtain ⟨q, hq, hr⟩ := Option.bind_eq_some_iff.mp h
    exact ih (hg.2 q hq) hr (hs a p q h0 hg.1 (m.step_cases hq))

/-- A property that a step keeps exactly when the step meets a condition is kept by a
run exactly when all its steps do. -/
theorem run_iff_guarded {J P : Pool E R S C A → Prop} {G : Action I C → Pool E R S C A → Prop}
    {as : List (Action I C)} {p p' : Pool E R S C A} (h : m.run as p = some p') (hj : J p)
    (hs : ∀ a q q', J q → m.Step a q q' → J q' ∧ (P q' ↔ P q ∧ G a q)) :
    P p' ↔ P p ∧ m.Guarded G as p := by
  induction as generalizing p with
  | nil =>
    cases h
    exact ⟨fun hp => ⟨hp, trivial⟩, fun hp => hp.1⟩
  | cons a as ih =>
    obtain ⟨q, hq, hr⟩ := Option.bind_eq_some_iff.mp h
    obtain ⟨hjq, hpq⟩ := hs a p q hj (m.step_cases hq)
    rw [ih hr hjq, hpq, and_assoc]
    refine and_congr_right fun _ => and_congr_right fun _ => ⟨fun hg q' hq' => ?_, fun hg => hg q hq⟩
    cases hq.symm.trans hq'
    exact hg

theorem guarded_of_forall {G : Action I C → Pool E R S C A → Prop} {as : List (Action I C)}
    (h : ∀ a ∈ as, ∀ p, G a p) (p : Pool E R S C A) : m.Guarded G as p := by
  induction as generalizing p with
  | nil => trivial
  | cons a as ih => exact ⟨h a (by simp) p, fun q _ => ih (fun b hb => h b (by simp [hb])) q⟩

/-- Every pool the run passes through has the property, the first and the last included. -/
def Always (m : Machine E R S I C A) (P : Pool E R S C A → Prop) :
    List (Action I C) → Pool E R S C A → Prop
  | [], p => P p
  | a :: as, p => P p ∧ ∀ q, m.step a p = some q → m.Always P as q

/-- What every step that meets the condition keeps holds all along a run of such steps. -/
theorem Guarded.always {P : Pool E R S C A → Prop} {G : Action I C → Pool E R S C A → Prop}
    {as : List (Action I C)} {p : Pool E R S C A} (hg : m.Guarded G as p) (h0 : P p)
    (hs : ∀ a q q', P q → G a q → m.Step a q q' → P q') : m.Always P as p := by
  induction as generalizing p with
  | nil => exact h0
  | cons a as ih => exact ⟨h0, fun q hq => ih (hg.2 q hq) (hs a p q h0 hg.1 (m.step_cases hq))⟩

/-- What holds after every run holds all along each. -/
theorem always_of_run {P : Pool E R S C A → Prop} {as : List (Action I C)} {p : Pool E R S C A}
    (h : ∀ bs q, m.run bs p = some q → P q) : m.Always P as p := by
  induction as generalizing p with
  | nil => exact h [] p rfl
  | cons a as ih =>
    refine ⟨h [] p rfl, fun q hq => ih fun bs q' hr => h (a :: bs) q' ?_⟩
    simpa [run, hq] using hr

theorem Always.start {P : Pool E R S C A → Prop} {as : List (Action I C)} {p : Pool E R S C A}
    (h : m.Always P as p) : P p := by
  cases as with
  | nil => exact h
  | cons a as => exact h.1

theorem Always.last {P : Pool E R S C A → Prop} {as : List (Action I C)} {p p' : Pool E R S C A}
    (h : m.Always P as p) (hr : m.run as p = some p') : P p' := by
  induction as generalizing p with
  | nil => cases hr; exact h
  | cons a as ih =>
    obtain ⟨q, hq, hr⟩ := Option.bind_eq_some_iff.mp hr
    exact ih (h.2 q hq) hr

/-- A step rule that may use what holds all along the run. -/
theorem Always.induction {J P : Pool E R S C A → Prop} {as : List (Action I C)}
    {p p' : Pool E R S C A} (hj : m.Always J as p) (hr : m.run as p = some p') (h0 : P p)
    (hs : ∀ a q q', J q → P q → m.Step a q q' → P q') : P p' := by
  induction as generalizing p with
  | nil =>
    cases hr
    exact h0
  | cons a as ih =>
    obtain ⟨q, hq, hr⟩ := Option.bind_eq_some_iff.mp hr
    exact ih (hj.2 q hq) hr (hs a p q hj.1 h0 (m.step_cases hq))

theorem Always.imp {P Q : Pool E R S C A → Prop} {as : List (Action I C)} {p : Pool E R S C A}
    (h : m.Always P as p) (hi : ∀ q, P q → Q q) : m.Always Q as p := by
  induction as generalizing p with
  | nil => exact hi p h
  | cons a as ih => exact ⟨hi p h.1, fun q hq => ih (h.2 q hq)⟩

theorem Always.and {P Q : Pool E R S C A → Prop} {as : List (Action I C)} {p : Pool E R S C A}
    (hp : m.Always P as p) (hq : m.Always Q as p) : m.Always (fun q => P q ∧ Q q) as p := by
  induction as generalizing p with
  | nil => exact ⟨hp, hq⟩
  | cons a as ih => exact ⟨⟨hp.1, hq.1⟩, fun q h => ih (hp.2 q h) (hq.2 q h)⟩

/-- Properties that agree in every pool of a run agree about the run. -/
theorem Always.congr {P Q : Pool E R S C A → Prop} {as : List (Action I C)} {p : Pool E R S C A}
    (h : m.Always (fun q => P q ↔ Q q) as p) : m.Always P as p ↔ m.Always Q as p :=
  ⟨fun hp => (h.and hp).imp fun _ hq => hq.1.mp hq.2,
    fun hp => (h.and hp).imp fun _ hq => hq.1.mpr hq.2⟩

/-- A property that meets a condition across each step makes the run meet it. -/
theorem Always.guarded {P : Pool E R S C A → Prop} {G : Action I C → Pool E R S C A → Prop}
    {as : List (Action I C)} {p : Pool E R S C A} (h : m.Always P as p)
    (hs : ∀ a q, P q → (∀ q', m.step a q = some q' → P q') → G a q) : m.Guarded G as p := by
  induction as generalizing p with
  | nil => trivial
  | cons a as ih => exact ⟨hs a p h.1 fun q hq => (h.2 q hq).start, fun q hq => ih (h.2 q hq)⟩

theorem Guarded.and {G H : Action I C → Pool E R S C A → Prop} {as : List (Action I C)}
    {p : Pool E R S C A} (hg : m.Guarded G as p) (hh : m.Guarded H as p) :
    m.Guarded (fun a q => G a q ∧ H a q) as p := by
  induction as generalizing p with
  | nil => trivial
  | cons a as ih => exact ⟨⟨hg.1, hh.1⟩, fun q hq => ih (hg.2 q hq) (hh.2 q hq)⟩

theorem Guarded.mono {G H : Action I C → Pool E R S C A → Prop} {as : List (Action I C)}
    {p : Pool E R S C A} (hg : m.Guarded G as p) (h : ∀ a q, G a q → H a q) :
    m.Guarded H as p := by
  induction as generalizing p with
  | nil => trivial
  | cons a as ih => exact ⟨h a p hg.1, fun q hq => ih (hg.2 q hq)⟩

/-- A condition follows from another one where a property holds. -/
theorem Guarded.imp {P : Pool E R S C A → Prop} {G H : Action I C → Pool E R S C A → Prop}
    {as : List (Action I C)} {p : Pool E R S C A} (hg : m.Guarded G as p) (hp : m.Always P as p)
    (h : ∀ a q, P q → G a q → H a q) : m.Guarded H as p := by
  induction as generalizing p with
  | nil => trivial
  | cons a as ih => exact ⟨h a p hp.1 hg.1, fun q hq => ih (hg.2 q hq) (hp.2 q hq)⟩

/-- Two conditions that agree where an invariant holds, which steps that meet one of them keep,
are met along the same runs. -/
theorem guarded_iff_of_invariant {J : Pool E R S C A → Prop}
    {B G H : Action I C → Pool E R S C A → Prop} {as : List (Action I C)} {p : Pool E R S C A}
    (hb : m.Guarded B as p) (h0 : J p)
    (hs : ∀ a q q', J q → B a q → G a q → m.step a q = some q' → J q')
    (hiff : ∀ a q, J q → (H a q ↔ G a q)) : m.Guarded H as p ↔ m.Guarded G as p := by
  induction as generalizing p with
  | nil => exact Iff.rfl
  | cons a as ih =>
    refine (and_congr_left' (hiff a p h0)).trans (and_congr_right fun hg => ?_)
    exact forall_congr' fun q => forall_congr' fun hq => ih (hb.2 q hq) (hs a p q h0 hb.1 hg hq)

/-- Runs a condition that computes along a schedule. -/
def check (m : Machine E R S I C A) (g : Action I C → Pool E R S C A → Bool) :
    List (Action I C) → Pool E R S C A → Bool
  | [], _ => true
  | a :: as, p => g a p && (m.step a p).all (fun q => m.check g as q)

theorem guarded_of_check {G : Action I C → Pool E R S C A → Prop}
    {g : Action I C → Pool E R S C A → Bool} (hg : ∀ a p, g a p = true → G a p)
    {as : List (Action I C)} {p : Pool E R S C A} (h : m.check g as p = true) :
    m.Guarded G as p := by
  induction as generalizing p with
  | nil => trivial
  | cons a as ih =>
    simp only [check, Bool.and_eq_true] at h
    refine ⟨hg a p h.1, fun q hq => ih ?_⟩
    simpa [hq] using h.2

theorem guarded_true {as : List (Action I C)} {p : Pool E R S C A} :
    m.Guarded (fun _ _ => True) as p := by
  induction as generalizing p with
  | nil => trivial
  | cons a as ih => exact ⟨trivial, fun q _ => ih⟩

end Machine

/-- What every call starts with and every operation of a task keeps holds of all tasks;
the operation may rely on what holds all along the run. -/
theorem Machine.Always.tasks {m : Machine E R S I C A} {J : Pool E R S C A → Prop}
    {V : Task E R C A → Prop} {as : List (Action I C)} {p p' : Pool E R S C A}
    (hj : m.Always J as p) (hr : m.run as p = some p') (h0 : ∀ t ∈ p.tasks, V t)
    (hnew : ∀ c, V (m.spawn c))
    (hs : ∀ q t e (next : R e → Prog E R A) input r s' new, J q → t ∈ q.tasks →
      t.prog = .op e next → m.exec e input q.state = some (r, s', new) → V t →
      V (t.advance e r (next r))) : ∀ t ∈ p'.tasks, V t := by
  refine hj.induction (P := fun q => ∀ t ∈ q.tasks, V t) hr h0 ?_
  intro a q q' hjq hv hstep
  cases hstep with
  | start c s tasks hc =>
    intro t ht
    rcases List.mem_append.mp ht with ht | ht
    · exact hv t ht
    · rw [List.mem_singleton.mp ht]
      exact hnew c
  | step input pre post t e next r s s' new hp hx =>
    intro u hu
    simp only [List.mem_append, List.mem_cons, List.mem_map] at hu
    rcases hu with (hu | rfl | hu) | ⟨c, _, rfl⟩
    · exact hv u (by simp [hu])
    · exact hs _ t e next input r s' new hjq (by simp) hp hx (hv t (by simp))
    · exact hv u (by simp [hu])
    · exact hnew c

/-- The monitor's state for a task: its view of everything the task has done. -/
def Task.view (mon : Monitor E R C A M) (t : Task E R C A) : M :=
  t.trace.foldl (fun v ev => mon.next v ev.1 ev.2) (mon.init t.call)

@[simp] theorem Task.view_advance (mon : Monitor E R C A M) (t : Task E R C A) (e : E) (r : R e)
    (p : Prog E R A) : (t.advance e r p).view mon = mon.next (t.view mon) e r := by
  simp [Task.view]

@[simp] theorem Machine.view_spawn (m : Machine E R S I C A) (mon : Monitor E R C A M) (c : C) :
    (m.spawn c).view mon = mon.init c := rfl

/-- A part of the view that no operation moves stays as the call began it. -/
theorem Task.view_const {X : Type} (mon : Monitor E R C A M) (f : M → X)
    (hf : ∀ v e r, f (mon.next v e r) = f v) (t : Task E R C A) :
    f (t.view mon) = f (mon.init t.call) := by
  unfold Task.view
  generalize mon.init t.call = v
  induction t.trace generalizing v with
  | nil => rfl
  | cons ev evs ih => rw [List.foldl_cons, ih, hf]

theorem Task.view_tracing (allow : C → List (Sigma R) → E → Prop) (may : (e : E) → R e → Prop)
    (t : Task E R C A) : t.view (Prog.tracing C A allow may) = (t.call, t.trace) := by
  have h : ∀ (evs trace : List (Sigma R)),
      evs.foldl (fun v ev => (Prog.tracing C A allow may).next v ev.1 ev.2) (t.call, trace) =
        (t.call, trace ++ evs) := by
    intro evs
    induction evs with
    | nil => exact fun trace => by simp
    | cons ev evs ih =>
      intro trace
      rw [List.foldl_cons, List.append_cons]
      exact ih _
  exact h t.trace []

/-- The sum of a quantity over everything the task has done. -/
def Task.total (g : (e : E) → R e → Nat) (t : Task E R C A) : Nat :=
  (t.trace.map (fun ev => g ev.1 ev.2)).sum

/-- A part of the view that each operation adds to is a total of the task. -/
theorem Task.view_total (mon : Monitor E R C A M) (f : M → Nat) (g : (e : E) → R e → Nat)
    (hf : ∀ v e r, f (mon.next v e r) = f v + g e r) (t : Task E R C A) :
    f (t.view mon) = f (mon.init t.call) + t.total g := by
  unfold Task.view Task.total
  generalize mon.init t.call = v
  induction t.trace generalizing v with
  | nil => rfl
  | cons ev evs ih =>
    rw [List.foldl_cons, ih, hf, List.map_cons, List.sum_cons]
    omega

/-- The rest of the task's program is one the monitor accepts from here. -/
def Task.Follows (mon : Monitor E R C A M) (t : Task E R C A) : Prop :=
  t.prog.wp mon (mon.fin t.call) (t.view mon)

theorem Machine.spawn_follows {m : Machine E R S I C A} {mon : Monitor E R C A M} {c : C}
    (h : (m.body c).wp mon (mon.fin c) (mon.init c)) : (m.spawn c).Follows mon := h

theorem Task.Follows.allowed {mon : Monitor E R C A M} {t : Task E R C A} {e : E}
    {next : R e → Prog E R A} (h : t.Follows mon) (hp : t.prog = .op e next) :
    mon.allow (t.view mon) e := by
  rw [Task.Follows, hp] at h
  exact h.1

theorem Task.Follows.allowed_head {mon : Monitor E R C A M} {t : Task E R C A} {e : E}
    (h : t.Follows mon) (hh : t.prog.head? = some e) : mon.allow (t.view mon) e := by
  cases hp : t.prog with
  | ret a => simp [hp] at hh
  | op e' next =>
    simp only [hp, Prog.head?_op, Option.some.injEq] at hh
    exact hh ▸ h.allowed hp

theorem Task.Follows.finished {mon : Monitor E R C A M} {t : Task E R C A} {a : A}
    (h : t.Follows mon) (hr : t.result? = some a) : mon.fin t.call a (t.view mon) := by
  unfold Task.result? at hr
  split at hr
  · rename_i b hp
    cases hr
    rw [Task.Follows, hp] at h
    exact h
  · cases hr

namespace Machine

variable {m : Machine E R S I C A} {mon : Monitor E R C A M}

/-- A monitored invariant: every call's body is accepted, and each operation a
monitor allows keeps the invariant and is answered as the monitor expects. -/
structure Invariant (m : Machine E R S I C A) (mon : Monitor E R C A M)
    (G : Action I C → Pool E R S C A → Prop) (J : Pool E R S C A → Prop) : Prop where
  body : ∀ c, (m.body c).wp mon (mon.fin c) (mon.init c)
  start : ∀ c s tasks, m.external c = true → G (.start c) ⟨s, tasks⟩ → J ⟨s, tasks⟩ →
    J ⟨s, tasks ++ [m.spawn c]⟩
  step : ∀ input pre post t e (next : R e → Prog E R A) r s s' new,
    t.prog = .op e next → m.exec e input s = some (r, s', new) →
    G (.step pre.length input) ⟨s, pre ++ t :: post⟩ →
    (∀ u ∈ pre ++ t :: post, u.Follows mon) → mon.allow (t.view mon) e →
    J ⟨s, pre ++ t :: post⟩ →
    mon.may (t.view mon) e r ∧
      J ⟨s', pre ++ t.advance e r (next r) :: post ++ new.map m.spawn⟩

/-- One step of a monitored invariant. -/
theorem Invariant.preserved {G : Action I C → Pool E R S C A → Prop} {J : Pool E R S C A → Prop}
    (hi : m.Invariant mon G J) {a : Action I C} {p p' : Pool E R S C A} (hs : m.Step a p p')
    (hg : G a p) (hj : J p) (hf : ∀ t ∈ p.tasks, t.Follows mon) :
    J p' ∧ ∀ t ∈ p'.tasks, t.Follows mon := by
  cases hs with
  | start c s tasks hc =>
    refine ⟨hi.start c s tasks hc hg hj, ?_⟩
    intro t ht
    rcases List.mem_append.mp ht with ht | ht
    · exact hf t ht
    · rw [List.mem_singleton.mp ht]
      exact hi.body c
  | step input pre post t e next r s s' new hp hx =>
    have ht : t.Follows mon := hf t (by simp)
    obtain ⟨hm, hj'⟩ := hi.step input pre post t e next r s s' new hp hx hg hf (ht.allowed hp) hj
    refine ⟨hj', ?_⟩
    intro u hu
    simp only [List.mem_append, List.mem_cons, List.mem_map] at hu
    rcases hu with (hu | rfl | hu) | ⟨c, _, rfl⟩
    · exact hf u (by simp [hu])
    · rw [Task.Follows, hp] at ht
      simpa [Task.Follows] using ht.2 r hm
    · exact hf u (by simp [hu])
    · exact hi.body c

/-- The central rule: a monitored invariant holds after every run whose steps
meet its condition, and every task still follows the monitor. -/
theorem Invariant.run {G : Action I C → Pool E R S C A → Prop} {J : Pool E R S C A → Prop}
    (hi : m.Invariant mon G J) {as : List (Action I C)} {p p' : Pool E R S C A}
    (hg : m.Guarded G as p) (h : m.run as p = some p') (hf : ∀ t ∈ p.tasks, t.Follows mon)
    (h0 : J p) : J p' ∧ ∀ t ∈ p'.tasks, t.Follows mon :=
  guarded_induction (P := fun q => J q ∧ ∀ t ∈ q.tasks, t.Follows mon) hg h ⟨h0, hf⟩
    fun _ _ _ hq hga hs => hi.preserved hs hga hq.1 hq.2

/-- It holds all along such a run, and so does every task's account of itself. -/
theorem Invariant.always_follows {G : Action I C → Pool E R S C A → Prop}
    {J : Pool E R S C A → Prop} (hi : m.Invariant mon G J) {as : List (Action I C)}
    {p : Pool E R S C A} (hg : m.Guarded G as p) (hf : ∀ t ∈ p.tasks, t.Follows mon) (h0 : J p) :
    m.Always (fun q => J q ∧ ∀ t ∈ q.tasks, t.Follows mon) as p := by
  induction as generalizing p with
  | nil => exact ⟨h0, hf⟩
  | cons a as ih =>
    refine ⟨⟨h0, hf⟩, fun q hq => ?_⟩
    obtain ⟨hj, hf'⟩ := hi.preserved (m.step_cases hq) hg.1 h0 hf
    exact ih (hg.2 q hq) hf' hj

theorem Invariant.always {G : Action I C → Pool E R S C A → Prop} {J : Pool E R S C A → Prop}
    (hi : m.Invariant mon G J) {as : List (Action I C)} {p : Pool E R S C A}
    (hg : m.Guarded G as p) (hf : ∀ t ∈ p.tasks, t.Follows mon) (h0 : J p) : m.Always J as p :=
  (hi.always_follows hg hf h0).imp fun _ h => h.1

/-- A property of views that every monitored operation keeps holds of all tasks. -/
theorem Invariant.withViews {G : Action I C → Pool E R S C A → Prop} {J : Pool E R S C A → Prop}
    (hi : m.Invariant mon G J) {V : M → Prop} (h0 : ∀ c, V (mon.init c))
    (hn : ∀ v e r, V v → mon.allow v e → mon.may v e r → V (mon.next v e r)) :
    m.Invariant mon G (fun p => J p ∧ ∀ t ∈ p.tasks, V (t.view mon)) where
  body := hi.body
  start c s tasks hc hg hj := by
    refine ⟨hi.start c s tasks hc hg hj.1, fun t ht => ?_⟩
    rcases List.mem_append.mp ht with ht | ht
    · exact hj.2 t ht
    · rw [List.mem_singleton.mp ht]
      exact h0 c
  step input pre post t e next r s s' new hp hx hg hf ha hj := by
    obtain ⟨hm, hj'⟩ := hi.step input pre post t e next r s s' new hp hx hg hf ha hj.1
    refine ⟨hm, hj', fun u hu => ?_⟩
    simp only [List.mem_append, List.mem_cons, List.mem_map] at hu
    rcases hu with (hu | rfl | hu) | ⟨c, _, rfl⟩
    · exact hj.2 u (by simp [hu])
    · rw [Task.view_advance]
      exact hn _ e r (hj.2 t (by simp)) ha hm
    · exact hj.2 u (by simp [hu])
    · exact h0 c

end Machine

end HelixRouter.Interleaving
