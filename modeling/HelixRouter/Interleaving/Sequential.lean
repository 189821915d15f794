import HelixRouter.Interleaving.Pool

namespace HelixRouter.Interleaving

variable {E : Type} {R : E → Type} {S I C A B : Type}

namespace Prog

variable (exec : (e : E) → I → S → Option (R e × S × List C))

/-- Weakest liberal precondition of a program that nothing interrupts. -/
def wlp : Prog E R B → (B → S → Prop) → S → Prop
  | .ret a, post, s => post a s
  | .op e next, post, s =>
    ∀ input r s' new, exec e input s = some (r, s', new) → (next r).wlp post s'

variable {exec}

@[simp] theorem wlp_pure (a : B) (post : B → S → Prop) (s : S) :
    (pure a : Prog E R B).wlp exec post s ↔ post a s := Iff.rfl

theorem wlp_bind {D : Type} (p : Prog E R B) (f : B → Prog E R D) (post : D → S → Prop) (s : S) :
    (p >>= f).wlp exec post s ↔ p.wlp exec (fun a => (f a).wlp exec post) s := by
  induction p generalizing s with
  | ret a => exact Iff.rfl
  | op e next ih =>
    constructor
    · exact fun h input r s' new hx => (ih r s').mp (h input r s' new hx)
    · exact fun h input r s' new hx => (ih r s').mpr (h input r s' new hx)

/-- One operation of a sequence, where its effect is known. -/
theorem wlp_step {D : Type} {e : E} {f : R e → Prog E R D} {post : D → S → Prop} {s : S}
    (h : ∀ input r s' new, exec e input s = some (r, s', new) → (f r).wlp exec post s') :
    (perform e >>= f).wlp exec post s := h

/-- The program run to its end while nothing else moves, every step in the same surroundings. -/
def alone (exec : (e : E) → I → S → Option (R e × S × List C)) (input : I) :
    Prog E R B → S → Option (B × S)
  | .ret a, s => some (a, s)
  | .op e next, s => (exec e input s).bind fun x => (next x.1).alone exec input x.2.1

@[simp] theorem alone_pure (input : I) (a : B) (s : S) :
    (pure a : Prog E R B).alone exec input s = some (a, s) := rfl

@[simp] theorem alone_perform (input : I) (e : E) (s : S) :
    (perform e).alone exec input s = (exec e input s).map fun x => (x.1, x.2.1) := by
  cases h : exec e input s <;> simp [perform, alone, h]

@[simp] theorem alone_perform_bind {D : Type} (input : I) (e : E) (f : R e → Prog E R D) (s : S) :
    (perform e >>= f).alone exec input s =
      (exec e input s).bind fun x => (f x.1).alone exec input x.2.1 := rfl

/-- The program ends when it is run alone, with an answer and a state as asked for. -/
def Ends (exec : (e : E) → I → S → Option (R e × S × List C)) (input : I) (p : Prog E R B)
    (post : B → S → Prop) (s : S) : Prop :=
  ∃ a s', p.alone exec input s = some (a, s') ∧ post a s'

theorem ends_pure {input : I} {a : B} {post : B → S → Prop} {s : S} (h : post a s) :
    (pure a : Prog E R B).Ends exec input post s := ⟨a, s, rfl, h⟩

theorem ends_step {D : Type} {input : I} {e : E} {f : R e → Prog E R D} {post : D → S → Prop}
    {s s' : S} {r : R e} {new : List C} (hx : exec e input s = some (r, s', new))
    (h : (f r).Ends exec input post s') : (perform e >>= f).Ends exec input post s := by
  obtain ⟨a, s2, halone, hpost⟩ := h
  refine ⟨a, s2, ?_, hpost⟩
  rw [alone_perform_bind, hx]
  exact halone

theorem Ends.imp {input : I} {p : Prog E R B} {post post' : B → S → Prop} {s : S}
    (h : p.Ends exec input post s) (hi : ∀ a s', post a s' → post' a s') :
    p.Ends exec input post' s := by
  obtain ⟨a, s', halone, hpost⟩ := h
  exact ⟨a, s', halone, hi a s' hpost⟩

theorem Ends.bind {D : Type} {input : I} {p : Prog E R B} {f : B → Prog E R D}
    {post : D → S → Prop} {s : S}
    (h : p.Ends exec input (fun a s' => (f a).Ends exec input post s') s) :
    (p >>= f).Ends exec input post s := by
  obtain ⟨a, s', halone, hrest⟩ := h
  induction p generalizing s with
  | ret b =>
    obtain ⟨rfl, rfl⟩ := Prod.mk.inj (Option.some.inj halone)
    exact hrest
  | op e next ih =>
    obtain ⟨⟨r, s1, new⟩, hx, hnext⟩ := Option.bind_eq_some_iff.mp halone
    exact ends_step (f := fun r => (next r).bind f) hx (ih r hnext)

end Prog

namespace Machine

variable {m : Machine E R S I C A}

/-- A task that runs alone keeps what its program ensures. -/
theorem run_alone {post : A → S → Prop} {inputs : List I} {i : Nat} {p p' : Pool E R S C A}
    {t : Task E R C A} (h : m.run (inputs.map (.step i)) p = some p') (ht : p.tasks[i]? = some t)
    (hw : t.prog.wlp m.exec post p.state) :
    ∃ t', p'.tasks[i]? = some t' ∧ t'.prog.wlp m.exec post p'.state := by
  induction inputs generalizing p t with
  | nil =>
    cases h
    exact ⟨t, ht, hw⟩
  | cons input inputs ih =>
    obtain ⟨q, hq, hr⟩ := Option.bind_eq_some_iff.mp h
    cases m.step_cases hq with
    | step input pre suf u e next r s s' new hp hx =>
      have hu : u = t := by simpa using ht
      subst hu
      refine ih (t := u.advance e r (next r)) hr (by simp) ?_
      rw [hp] at hw
      exact hw input r s' new hx

/-- A task whose program ends alone is brought to its end by some turns. -/
theorem exists_turns {input : I} {i : Nat} {p : Pool E R S C A} {t : Task E R C A} {a : A} {s : S}
    (ht : p.tasks[i]? = some t) (h : t.prog.alone m.exec input p.state = some (a, s)) :
    ∃ n q u, m.run (List.replicate n (.step i input)) p = some q ∧ q.state = s ∧
      q.tasks[i]? = some u ∧ u.call = t.call ∧ u.result? = some a := by
  generalize hprog : t.prog = prog at h
  induction prog generalizing p t with
  | ret b =>
    obtain ⟨rfl, rfl⟩ := Prod.mk.inj (Option.some.inj h)
    exact ⟨0, p, t, rfl, rfl, ht, rfl, by simp [Task.result?, hprog]⟩
  | op e next ih =>
    obtain ⟨⟨r, s1, new⟩, hx, hrest⟩ := Option.bind_eq_some_iff.mp h
    obtain ⟨hi, -⟩ := List.getElem?_eq_some_iff.mp ht
    have hstep : m.step (.step i input) p =
        some ⟨s1, p.tasks.set i (t.advance e r (next r)) ++ new.map m.spawn⟩ := by
      simp [step, ht, hprog, hx]
    have hnext : (p.tasks.set i (t.advance e r (next r)) ++ new.map m.spawn)[i]? =
        some (t.advance e r (next r)) := by
      rw [List.getElem?_append_left (by simpa using hi), List.getElem?_set_self hi]
    obtain ⟨n, q, u, hrun, hs, hu, hcall, hres⟩ := ih r (p := ⟨s1, _⟩) hnext rfl hrest
    refine ⟨n + 1, q, u, ?_, hs, hu, hcall, hres⟩
    rw [List.replicate_succ, run, hstep]
    exact hrun

/-- A call whose program ends alone can be made and brought to its end. -/
theorem exists_call {input : I} {c : C} {p : Pool E R S C A} {post : A → S → Prop}
    (hc : m.external c = true) (h : (m.body c).Ends m.exec input post p.state) :
    ∃ n q, m.run (.start c :: List.replicate n (.step p.tasks.length input)) p = some q ∧
      ∃ t ∈ q.tasks, ∃ a, t.call = c ∧ t.result? = some a ∧ post a q.state := by
  obtain ⟨a, s, halone, hpost⟩ := h
  obtain ⟨n, q, u, hrun, rfl, hu, hcall, hres⟩ := exists_turns (m := m) (i := p.tasks.length)
    (p := ⟨p.state, p.tasks ++ [m.spawn c]⟩) (t := m.spawn c) (by simp) halone
  refine ⟨n, q, ?_, u, List.mem_of_getElem? hu, a, hcall, hres, hpost⟩
  rw [run, step, if_pos hc]
  exact hrun

/-- One call, started and run to its end while no other task moves. -/
def callAlone (m : Machine E R S I C A) (c : C) (inputs : List I) (p : Pool E R S C A) :
    Option (Pool E R S C A) :=
  (m.run (.start c :: inputs.map (.step p.tasks.length)) p).filter (fun q =>
    (q.tasks[p.tasks.length]?.bind Task.result?).isSome)

theorem callAlone_ensures {post : A → S → Prop} {c : C} {inputs : List I} {p q : Pool E R S C A}
    (h : m.callAlone c inputs p = some q) (hw : (m.body c).wlp m.exec post p.state) :
    ∃ a, post a q.state := by
  obtain ⟨hrun, hend⟩ := Option.filter_eq_some_iff.mp h
  obtain ⟨p1, h1, hr⟩ := Option.bind_eq_some_iff.mp hrun
  have hp1 : p1 = ⟨p.state, p.tasks ++ [m.spawn c]⟩ := by
    simp only [step, Option.ite_none_right_eq_some, Option.some.injEq] at h1
    exact h1.2.symm
  subst hp1
  obtain ⟨t, ht, hpost⟩ := run_alone (t := m.spawn c) hr (by simp) hw
  obtain ⟨a, ha⟩ := Option.isSome_iff_exists.mp hend
  rw [ht, Option.bind_some, Task.result?] at ha
  refine ⟨a, ?_⟩
  split at ha
  · rename_i b hb
    cases ha
    rw [hb] at hpost
    exact hpost
  · cases ha

/-- A sequence of calls, each run alone. -/
def runCalls (m : Machine E R S I C A) : List (C × List I) → Pool E R S C A →
    Option (Pool E R S C A)
  | [], p => some p
  | (c, inputs) :: cs, p => (m.callAlone c inputs p).bind (m.runCalls cs)

/-- What holds before the first call holds after each one. -/
def Between (m : Machine E R S I C A) (P : Pool E R S C A → Prop) :
    List (C × List I) → Pool E R S C A → Prop
  | [], p => P p
  | (c, inputs) :: cs, p => P p ∧ ∀ q, m.callAlone c inputs p = some q → m.Between P cs q

/-- Every call meets the condition in the pool it is made in. -/
def EachCall (m : Machine E R S I C A) (G : C → Pool E R S C A → Prop) :
    List (C × List I) → Pool E R S C A → Prop
  | [], _ => True
  | (c, inputs) :: cs, p => G c p ∧ ∀ q, m.callAlone c inputs p = some q → m.EachCall G cs q

theorem Between.start {P : Pool E R S C A → Prop} {cs : List (C × List I)} {p : Pool E R S C A}
    (h : m.Between P cs p) : P p := by
  cases cs with
  | nil => exact h
  | cons c cs => exact h.1

theorem Between.last {P : Pool E R S C A → Prop} {cs : List (C × List I)} {p q : Pool E R S C A}
    (h : m.Between P cs p) (hr : m.runCalls cs p = some q) : P q := by
  induction cs generalizing p with
  | nil =>
    cases hr
    exact h
  | cons call cs ih =>
    obtain ⟨p', hp', hq⟩ := Option.bind_eq_some_iff.mp hr
    exact ih (h.2 p' hp') hq

/-- Where each call keeps a property exactly on a condition, so does a sequence. -/
theorem between_iff {J P : Pool E R S C A → Prop} {G : C → Pool E R S C A → Prop}
    {cs : List (C × List I)} {p : Pool E R S C A}
    (hs : ∀ c inputs p q, (c, inputs) ∈ cs → J p → P p → m.callAlone c inputs p = some q →
      J q ∧ (P q ↔ G c p))
    (hr : (m.runCalls cs p).isSome = true) (hj : J p) (hp : P p) :
    m.Between P cs p ↔ m.EachCall G cs p := by
  induction cs generalizing p with
  | nil => exact iff_of_true hp trivial
  | cons call cs ih =>
    obtain ⟨c, inputs⟩ := call
    obtain ⟨p', hp'⟩ := Option.isSome_iff_exists.mp hr
    obtain ⟨q, hq, hrest⟩ := Option.bind_eq_some_iff.mp hp'
    obtain ⟨hj', hiff⟩ := hs c inputs p q (by simp) hj hp hq
    have hr' : (m.runCalls cs q).isSome = true := Option.isSome_iff_exists.mpr ⟨p', hrest⟩
    have hnext := fun hpq : P q =>
      ih (fun c inputs p q hc => hs c inputs p q (by simp [hc])) hr' hj' hpq
    constructor
    · rintro ⟨-, hall⟩
      have hb := hall q hq
      refine ⟨hiff.mp hb.start, fun q' hq' => ?_⟩
      cases hq.symm.trans hq'
      exact (hnext hb.start).mp hb
    · rintro ⟨hg, hall⟩
      refine ⟨hp, fun q' hq' => ?_⟩
      cases hq.symm.trans hq'
      exact (hnext (hiff.mpr hg)).mpr (hall q hq)

end Machine

end HelixRouter.Interleaving
