import HelixRouter.Interleaving.Pool
import Mathlib.Algebra.BigOperators.Group.List.Basic
import Mathlib.Data.List.Nodup
import Mathlib.Data.List.Pairwise

namespace HelixRouter.Interleaving

variable {E : Type} {R : E → Type} {S I C A X : Type}

/-- What a task has done, read off its trace. -/
def Task.log (f : (e : E) → R e → List X) (t : Task E R C A) : List X :=
  t.trace.flatMap (fun ev => f ev.1 ev.2)

@[simp] theorem Task.log_advance (f : (e : E) → R e → List X) (t : Task E R C A) (e : E) (r : R e)
    (p : Prog E R A) : (t.advance e r p).log f = t.log f ++ f e r := by
  simp [Task.log]

theorem Task.log_sublist {f g : (e : E) → R e → List X} (h : ∀ e r, (f e r).Sublist (g e r))
    (t : Task E R C A) : (t.log f).Sublist (t.log g) := by
  unfold Task.log
  induction t.trace with
  | nil => exact List.Sublist.refl _
  | cons ev evs ih =>
    simp only [List.flatMap_cons]
    exact (h ev.1 ev.2).append ih

@[simp] theorem Machine.log_spawn (m : Machine E R S I C A) (f : (e : E) → R e → List X) (c : C) :
    (m.spawn c).log f = [] := rfl

/-- A part of the view that each operation appends to is a log of the task. -/
theorem Task.view_log {M : Type} (mon : Monitor E R C A M) (f : M → List X)
    (g : (e : E) → R e → List X) (hf : ∀ v e r, f (mon.next v e r) = f v ++ g e r)
    (t : Task E R C A) : f (t.view mon) = f (mon.init t.call) ++ t.log g := by
  unfold Task.view Task.log
  generalize mon.init t.call = v
  induction t.trace generalizing v with
  | nil => simp
  | cons ev evs ih => rw [List.foldl_cons, ih, hf, List.flatMap_cons, List.append_assoc]

namespace Pool

/-- What all tasks of a pool have done. -/
def log (f : (e : E) → R e → List X) (p : Pool E R S C A) : List X := p.tasks.flatMap (Task.log f)

theorem mem_log {f : (e : E) → R e → List X} {p : Pool E R S C A} {x : X} :
    x ∈ p.log f ↔ ∃ t ∈ p.tasks, x ∈ t.log f := List.mem_flatMap

/-- Where nothing is logged twice, only one task logs it. -/
theorem eq_of_mem_log {f : (e : E) → R e → List X} {p : Pool E R S C A} (h : (p.log f).Nodup)
    {t u : Task E R C A} (ht : t ∈ p.tasks) (hu : u ∈ p.tasks) {x : X} (hxt : x ∈ t.log f)
    (hxu : x ∈ u.log f) : t = u := by
  by_contra hne
  have : Std.Symm (Function.onFun List.Disjoint (Task.log (R := R) (C := C) (A := A) f)) :=
    ⟨fun _ _ hd _ hx hx' => hd hx' hx⟩
  have hapart := (List.nodup_flatMap.mp h).2.forall ht hu hne
  exact hapart hxt hxu

theorem map_log {Y : Type} (k : X → Y) (f : (e : E) → R e → List X) (p : Pool E R S C A) :
    (p.log f).map k = p.log (fun e r => (f e r).map k) := by
  rw [log, List.map_flatMap]
  exact congrArg (List.flatMap · p.tasks) (funext fun t => List.map_flatMap)

/-- A bound on each task's log, counted, is a bound on the pool's. -/
theorem count_map_log_le {Y : Type} [BEq Y] [LawfulBEq Y] {f : (e : E) → R e → List X}
    {g : (e : E) → R e → List Y} {k : X → Y} {p : Pool E R S C A}
    (h : ∀ t ∈ p.tasks, ((t.log f).map k).Sublist (t.log g)) (y : Y) :
    ((p.log f).map k).count y ≤ (p.log g).count y := by
  unfold log
  generalize p.tasks = ts at h
  induction ts with
  | nil => simp
  | cons t ts ih =>
    have ht := (h t (by simp)).count_le y
    have := ih fun u hu => h u (List.mem_cons_of_mem t hu)
    simp only [List.flatMap_cons, List.map_append, List.count_append]
    omega

theorem log_fresh {f : (e : E) → R e → List X} {p : Pool E R S C A}
    (h : ∀ t ∈ p.tasks, t.trace = []) : p.log f = [] := by
  refine List.flatMap_eq_nil_iff.mpr fun t ht => ?_
  rw [Task.log, h t ht]
  rfl

end Pool

namespace Machine

variable {m : Machine E R S I C A}

/-- What a pool has done after an operation is what it had done before, and that. -/
theorem log_operation (f : (e : E) → R e → List X) (pre post : List (Task E R C A))
    (t : Task E R C A) (e : E) (r : R e) (p : Prog E R A) (new : List C) (s s' : S) :
    ((⟨s', pre ++ t.advance e r p :: post ++ new.map m.spawn⟩ : Pool E R S C A).log f).Perm
      ((⟨s, pre ++ t :: post⟩ : Pool E R S C A).log f ++ f e r) := by
  have hnew : (new.map m.spawn).flatMap (Task.log f) = [] := by simp [List.flatMap_map]
  simp only [Pool.log, List.flatMap_append, List.flatMap_cons, hnew, Task.log_advance,
    List.append_nil, List.append_assoc]
  exact (List.perm_append_comm.append_left _).append_left _

theorem log_start (f : (e : E) → R e → List X) (tasks : List (Task E R C A)) (c : C) (s : S) :
    (⟨s, tasks ++ [m.spawn c]⟩ : Pool E R S C A).log f =
      (⟨s, tasks⟩ : Pool E R S C A).log f := by
  simp [Pool.log]

/-- What a task has done is the beginning of what its body does, whatever comes. -/
theorem run_yields {as : List (Action I C)} {p p' : Pool E R S C A} (hr : m.run as p = some p')
    (h0 : ∀ t ∈ p.tasks, t.prog = m.body t.call ∧ t.trace = []) :
    ∀ t ∈ p'.tasks, ∀ evs a, t.prog.Yields evs a → (m.body t.call).Yields (t.trace ++ evs) a := by
  have halways : m.Always (fun _ => True) as p := always_of_run fun _ _ _ => trivial
  refine halways.tasks hr ?_ (fun c evs a h => h) ?_
  · intro t ht evs a hyields
    obtain ⟨hprog, htrace⟩ := h0 t ht
    rwa [htrace, List.nil_append, ← hprog]
  · intro q t e next input r s' new _ _ hprog _ ih evs a hyields
    have hall := ih (⟨e, r⟩ :: evs) a (by rw [hprog]; exact .op hyields)
    rwa [List.append_cons] at hall

/-- Conservation: where every operation balances what it logs as gained and lost with
what it leaves in stock, so does every run of tasks that start with nothing done. -/
theorem run_conserved [BEq X] [LawfulBEq X] (stock : S → List X)
    (gain loss : (e : E) → R e → List X)
    (h : ∀ e input s r s' new x, m.exec e input s = some (r, s', new) →
      (stock s).count x + (gain e r).count x = (stock s').count x + (loss e r).count x)
    {as : List (Action I C)} {p p' : Pool E R S C A} (hr : m.run as p = some p')
    (h0 : ∀ t ∈ p.tasks, t.trace = []) :
    (stock p.state ++ p'.log gain).Perm (stock p'.state ++ p'.log loss) := by
  refine List.perm_iff_count.mpr fun x => ?_
  simp only [List.count_append]
  refine run_induction (P := fun q => (stock p.state).count x + (q.log gain).count x =
    (stock q.state).count x + (q.log loss).count x) hr ?_ ?_
  · rw [Pool.log_fresh h0, Pool.log_fresh h0]
  · intro a q q' hq hs
    cases hs with
    | start c s tasks hc => simpa [Pool.log] using hq
    | step input pre post t e next r s s' new hp hx =>
      have hnew : ∀ f : (e : E) → R e → List X,
          (new.map m.spawn).flatMap (Task.log f) = [] := fun f => by simp [List.flatMap_map]
      have hb := h e input s r s' new x hx
      simp only [Pool.log, List.flatMap_append, List.flatMap_cons, hnew, Task.log_advance,
        List.count_append, List.append_nil] at hq ⊢
      omega

/-- What takes the next number of a counter wherever it logs one logs no number twice. -/
theorem run_numbered (counter : S → Nat) {f : (e : E) → R e → List Nat}
    (h : ∀ e input s r s' new, m.exec e input s = some (r, s', new) →
      List.range (counter s') = List.range (counter s) ++ f e r)
    {as : List (Action I C)} {p p' : Pool E R S C A} (hr : m.run as p = some p')
    (h0 : ∀ t ∈ p.tasks, t.trace = []) : (p'.log f).Nodup := by
  have hperm := run_conserved (fun s => List.range (counter s)) f (fun _ _ => [])
    (fun e input s r s' new x hx => by
      rw [h e input s r s' new hx]
      simp) hr h0
  have hnil : p'.log (fun (e : E) (_ : R e) => ([] : List Nat)) = [] := by
    simp [Pool.log, Task.log]
  rw [hnil, List.append_nil] at hperm
  exact (hperm.nodup_iff.mpr List.nodup_range).of_append_right

/-- A fact an operation establishes of what it logs, and that no operation destroys,
holds of everything logged. -/
theorem run_logged {Q : X → S → Prop} {f : (e : E) → R e → List X}
    (h : ∀ e input s r s' new, m.exec e input s = some (r, s', new) →
      (∀ x ∈ f e r, Q x s') ∧ ∀ x, Q x s → Q x s')
    {as : List (Action I C)} {p p' : Pool E R S C A} (hr : m.run as p = some p')
    (h0 : ∀ t ∈ p.tasks, t.trace = []) : ∀ x ∈ p'.log f, Q x p'.state := by
  refine run_induction (P := fun q => ∀ x ∈ q.log f, Q x q.state) hr ?_ ?_
  · simp [Pool.log_fresh h0]
  · intro a q q' hq hs x hx
    cases hs with
    | start c s tasks hc => exact hq x (by simpa [Pool.log] using hx)
    | step input pre post t e next r s s' new hp hex =>
      obtain ⟨hlog, hkeep⟩ := h e input s r s' new hex
      have hnew : (new.map m.spawn).flatMap (Task.log f) = [] := by simp [List.flatMap_map]
      simp only [Pool.log, List.flatMap_append, List.flatMap_cons, hnew, Task.log_advance,
        List.append_nil, List.mem_append] at hx hq
      rcases hx with hx | (hx | hx) | hx
      · exact hkeep x (hq x (Or.inl hx))
      · exact hkeep x (hq x (Or.inr (Or.inl hx)))
      · exact hlog x hx
      · exact hkeep x (hq x (Or.inr (Or.inr hx)))

/-- Where every operation pays for what it logs with a rise of a bound, the log stays
within the bound. The operation may rely on what holds all along the run. -/
theorem run_bounded [BEq X] [LawfulBEq X] {J : Pool E R S C A → Prop} (bound : S → Nat)
    {f : (e : E) → R e → List X} {x : X}
    (h : ∀ p t e input r s' new, J p → t ∈ p.tasks → t.prog.head? = some e →
      m.exec e input p.state = some (r, s', new) → bound p.state + (f e r).count x ≤ bound s')
    {as : List (Action I C)} {p p' : Pool E R S C A} (hj : m.Always J as p)
    (hr : m.run as p = some p') (h0 : ∀ t ∈ p.tasks, t.trace = []) :
    (p'.log f).count x ≤ bound p'.state := by
  refine hj.induction (P := fun q => (q.log f).count x ≤ bound q.state) hr ?_ ?_
  · simp [Pool.log_fresh h0]
  · intro a q q' hjq hq hs
    cases hs with
    | start c s tasks hc => simpa [Pool.log] using hq
    | step input pre post t e next r s s' new hp hx =>
      have hnew : (new.map m.spawn).flatMap (Task.log f) = [] := by simp [List.flatMap_map]
      have hb : bound s + (f e r).count x ≤ bound s' :=
        h _ t e input r s' new hjq (by simp) (by simp [hp]) hx
      simp only [Pool.log, List.flatMap_append, List.flatMap_cons, hnew, Task.log_advance,
        List.count_append, List.append_nil] at hq ⊢
      omega

/-- The operation that is performed by the scheduler's choice, with its answer. -/
def answered (m : Machine E R S I C A) : Action I C → Pool E R S C A → Option (Sigma R)
  | .start _, _ => none
  | .step i input, p => (p.tasks[i]?).bind fun t =>
    match t.prog with
    | .ret _ => none
    | .op e _ => (m.exec e input p.state).map fun x => ⟨e, x.1⟩

/-- What a run does, one operation after another. -/
def history (m : Machine E R S I C A) : List (Action I C) → Pool E R S C A → List (Sigma R)
  | [], _ => []
  | a :: as, p => (m.step a p).elim [] fun q => (m.answered a p).toList ++ m.history as q

/-- What is noted of it. -/
def events (m : Machine E R S I C A) (f : (e : E) → R e → List X) (as : List (Action I C))
    (p : Pool E R S C A) : List X := (m.history as p).flatMap fun ev => f ev.1 ev.2

/-- A step notes what one operation does, and only a call that arrives notes nothing. -/
inductive Notes (m : Machine E R S I C A) (a : Action I C) (p q : Pool E R S C A) : Prop where
  | nothing (h : m.answered a p = none) (hstate : q.state = p.state)
    (hlog : ∀ {X : Type} (f : (e : E) → R e → List X), q.log f = p.log f)
    (hstart : ∃ c, a = .start c)
  | operation (i : Nat) (input : I) (t : Task E R C A) (e : E) (r : R e) (new : List C)
    (ha : a = .step i input) (ht : p.tasks[i]? = some t) (hh : t.prog.head? = some e)
    (hx : m.exec e input p.state = some (r, q.state, new)) (h : m.answered a p = some ⟨e, r⟩)
    (hlog : ∀ {X : Type} (f : (e : E) → R e → List X) (x : X),
      x ∈ q.log f ↔ x ∈ p.log f ∨ x ∈ f e r)

theorem step_notes {a : Action I C} {p q : Pool E R S C A} (h : m.step a p = some q) :
    m.Notes a p q := by
  cases m.step_cases h with
  | start c s tasks hc => exact .nothing rfl rfl (fun f => by simp [Pool.log]) ⟨c, rfl⟩
  | step input pre post t e next r s s' new hp hx =>
    refine .operation pre.length input t e r new rfl (by simp) (by simp [hp]) hx
      (by simp [answered, hp, hx]) fun f x => ?_
    have hnew : (new.map m.spawn).flatMap (Task.log f) = [] := by simp [List.flatMap_map]
    simp only [Pool.log, List.flatMap_append, List.flatMap_cons, hnew, Task.log_advance,
      List.append_nil, List.mem_append]
    tauto

variable {f : (e : E) → R e → List X} {a : Action I C} {as : List (Action I C)}
  {p q : Pool E R S C A}

theorem events_cons_nothing (h : m.step a p = some q) (hn : m.answered a p = none) :
    m.events f (a :: as) p = m.events f as q := by
  simp [events, history, h, hn]

theorem events_cons_operation {e : E} {r : R e} (h : m.step a p = some q)
    (ho : m.answered a p = some ⟨e, r⟩) : m.events f (a :: as) p = f e r ++ m.events f as q := by
  simp [events, history, h, ho]

theorem events_cons_stuck (h : m.step a p = none) : m.events f (a :: as) p = [] := by
  simp [events, history, h]

/-- What holds of every operation of every body holds of every operation performed. -/
theorem history_all {P : E → Prop} (hbody : ∀ c, (m.body c).All P) (as : List (Action I C))
    {p : Pool E R S C A} (h : ∀ t ∈ p.tasks, t.prog.All P) : ∀ ev ∈ m.history as p, P ev.1 := by
  induction as generalizing p with
  | nil => exact fun _ hev => nomatch hev
  | cons a as ih =>
    intro ev hev
    cases hstep : m.step a p with
    | none =>
      simp [history, hstep] at hev
    | some q =>
      simp only [history, hstep, Option.elim_some, List.mem_append, Option.mem_toList] at hev
      cases m.step_cases hstep with
      | start c s tasks hc =>
        rcases hev with hev | hev
        · nomatch hev
        · apply ih _ ev hev
          intro t ht
          rcases List.mem_append.mp ht with ht | ht
          · exact h t ht
          · rw [List.mem_singleton.mp ht]
            exact hbody c
      | step input pre post t e next r s s' new hp hx =>
        have hop : P e ∧ ∀ r, (next r).All P := by
          have ht := h t (List.mem_append_right _ List.mem_cons_self)
          rw [hp] at ht
          exact ht
        rcases hev with hev | hev
        · simp [answered, hp, hx] at hev
          subst hev
          exact hop.1
        · apply ih _ ev hev
          intro u hu
          simp only [List.mem_append, List.mem_cons, List.mem_map] at hu
          rcases hu with (hu | rfl | hu) | ⟨c, -, rfl⟩
          · exact h u (List.mem_append_left _ hu)
          · exact hop.2 r
          · exact h u (List.mem_append_right _ (List.mem_cons_of_mem t hu))
          · exact hbody c

end Machine

end HelixRouter.Interleaving
