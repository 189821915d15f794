import Mathlib.Logic.Basic

namespace HelixRouter.Interleaving

/-- A task body: a finite tree of atomic operations, each followed by a
continuation for every answer the operation can get. -/
inductive Prog (E : Type) (R : E → Type) (A : Type) where
  | ret (a : A)
  | op (e : E) (next : R e → Prog E R A)

variable {E : Type} {R : E → Type} {A B C M : Type}

namespace Prog

def bind : Prog E R A → (A → Prog E R B) → Prog E R B
  | .ret a, f => f a
  | .op e next, f => .op e (fun r => (next r).bind f)

instance : Monad (Prog E R) where
  pure := .ret
  bind := bind

@[simp] theorem ret_bind (a : A) (f : A → Prog E R B) : (ret a).bind f = f a := rfl

/-- One atomic operation, returning its answer. -/
def perform (e : E) : Prog E R (R e) := .op e .ret

/-- The operation the program is about to perform. -/
def head? : Prog E R A → Option E
  | .ret _ => none
  | .op e _ => some e

@[simp] theorem head?_ret (a : A) : (ret a : Prog E R A).head? = none := rfl

@[simp] theorem head?_op (e : E) (next : R e → Prog E R A) : (op e next).head? = some e := rfl

end Prog

/-- A monitor follows one task through its operations. `allow` restricts what a
task attempts, `may` what it is answered, and `fin` what holds when it ends. -/
structure Monitor (E : Type) (R : E → Type) (C A M : Type) where
  init : C → M
  next : M → (e : E) → R e → M
  allow : M → E → Prop
  may : M → (e : E) → R e → Prop
  fin : C → A → M → Prop

/-- The operation is allowed and leaves the monitor where it is. -/
def Monitor.Quiet (mon : Monitor E R C A M) (m : M) (e : E) : Prop :=
  mon.allow m e ∧ ∀ r, mon.may m e r → mon.next m e r = m

namespace Prog

/-- Weakest precondition of a program for a monitor: every operation is allowed
where it is attempted and every path ends in a state the postcondition holds of. -/
def wp (mon : Monitor E R C A M) : Prog E R B → (B → M → Prop) → M → Prop
  | .ret a, post, m => post a m
  | .op e next, post, m =>
    mon.allow m e ∧ ∀ r, mon.may m e r → (next r).wp mon post (mon.next m e r)

variable {mon : Monitor E R C A M}

@[simp] theorem wp_pure (a : B) (post : B → M → Prop) (m : M) :
    (pure a : Prog E R B).wp mon post m ↔ post a m := Iff.rfl

@[simp] theorem wp_ret (a : B) (post : B → M → Prop) (m : M) :
    (ret a : Prog E R B).wp mon post m ↔ post a m := Iff.rfl

@[simp] theorem wp_perform (e : E) (post : R e → M → Prop) (m : M) :
    (perform e).wp mon post m ↔
      mon.allow m e ∧ ∀ r, mon.may m e r → post r (mon.next m e r) := Iff.rfl

/-- Preconditions compose through sequencing. -/
@[simp] theorem wp_bind {D : Type} (p : Prog E R B) (f : B → Prog E R D) (post : D → M → Prop)
    (m : M) : (p >>= f).wp mon post m ↔ p.wp mon (fun a => (f a).wp mon post) m := by
  induction p generalizing m with
  | ret a => exact Iff.rfl
  | op e next ih =>
    constructor
    · rintro ⟨ha, hn⟩
      exact ⟨ha, fun r hr => (ih r _).mp (hn r hr)⟩
    · rintro ⟨ha, hn⟩
      exact ⟨ha, fun r hr => (ih r _).mpr (hn r hr)⟩

theorem wp_mono {p : Prog E R B} {post post' : B → M → Prop} {m : M}
    (h : p.wp mon post m) (hi : ∀ a m', post a m' → post' a m') : p.wp mon post' m := by
  induction p generalizing m with
  | ret a => exact hi a m h
  | op e next ih => exact ⟨h.1, fun r hr => ih r (h.2 r hr)⟩

/-- A monitor that restricts nothing accepts every program. -/
theorem wp_of_free {p : Prog E R B} {post : B → M → Prop} {m : M} (ha : ∀ m e, mon.allow m e)
    (hp : ∀ a m, post a m) : p.wp mon post m := by
  induction p generalizing m with
  | ret a => exact hp a m
  | op e next ih => exact ⟨ha m e, fun r _ => ih r⟩

@[simp] theorem wp_ite (c : Prop) [Decidable c] (p q : Prog E R B) (post : B → M → Prop) (m : M) :
    (if c then p else q).wp mon post m ↔
      if c then p.wp mon post m else q.wp mon post m := by
  split <;> exact Iff.rfl

/-- Every operation the program may perform, whatever it is answered. -/
def All (P : E → Prop) : Prog E R B → Prop
  | .ret _ => True
  | .op e next => P e ∧ ∀ r, (next r).All P

variable {P : E → Prop}

@[simp] theorem all_pure (a : B) : (pure a : Prog E R B).All P := trivial

@[simp] theorem all_perform (e : E) : (perform e : Prog E R (R e)).All P ↔ P e := by
  simp [perform, All]

theorem All.bind {D : Type} {p : Prog E R B} {f : B → Prog E R D} (h : p.All P)
    (hf : ∀ a, (f a).All P) : (p >>= f).All P := by
  induction p with
  | ret a => exact hf a
  | op e next ih => exact ⟨h.1, fun r => ih r (h.2 r)⟩

@[simp] theorem all_perform_bind {D : Type} (e : E) (f : R e → Prog E R D) :
    (perform e >>= f).All P ↔ P e ∧ ∀ r, (f r).All P := Iff.rfl

theorem all_of_forall {p : Prog E R B} (h : ∀ e, P e) : p.All P := by
  induction p with
  | ret a => trivial
  | op e next ih => exact ⟨h e, ih⟩

theorem All.imp {Q : E → Prop} {p : Prog E R B} (h : p.All P) (hi : ∀ e, P e → Q e) : p.All Q := by
  induction p with
  | ret a => trivial
  | op e next ih => exact ⟨hi e h.1, fun r => ih r (h.2 r)⟩

/-- A program of operations the monitor does not notice may be run anywhere. -/
theorem All.wp {p : Prog E R B} {post : B → M → Prop} {m : M} (h : p.All P)
    (hq : ∀ e, P e → mon.Quiet m e) (hp : ∀ a, post a m) : p.wp mon post m := by
  induction p with
  | ret a => exact hp a
  | op e next ih =>
    refine ⟨(hq e h.1).1, fun r hr => ?_⟩
    rw [(hq e h.1).2 r hr]
    exact ih r (h.2 r)

/-- The monitor that only restricts which operations are performed. -/
def only (C A : Type) (P : E → Prop) : Monitor E R C A Unit where
  init _ := ()
  next _ _ _ := ()
  allow _ e := P e
  may _ _ _ := True
  fin _ _ _ := True

theorem all_iff_wp {p : Prog E R B} :
    p.All P ↔ p.wp (only C A P) (fun _ _ => True) () := by
  induction p with
  | ret a => exact Iff.rfl
  | op e next ih =>
    refine and_congr_right fun _ => forall_congr' fun r => (ih r).trans ?_
    exact ⟨fun h _ => h, fun h => h trivial⟩

/-- One such operation is stepped over. -/
theorem wp_quiet {D : Type} {e : E} {f : R e → Prog E R D} {post : D → M → Prop} {m : M}
    (hq : mon.Quiet m e) (h : ∀ r, (f r).wp mon post m) : (perform e >>= f).wp mon post m := by
  refine ⟨hq.1, fun r hr => ?_⟩
  rw [hq.2 r hr]
  exact h r

/-- So answered, the program ends with that. -/
inductive Yields : Prog E R B → List (Sigma R) → B → Prop where
  | ret (a : B) : Yields (.ret a) [] a
  | op {e : E} {next : R e → Prog E R B} {r : R e} {evs : List (Sigma R)} {a : B}
    (h : Yields (next r) evs a) : Yields (.op e next) (⟨e, r⟩ :: evs) a

/-- What holds of every operation of a program holds of those it is answered in. -/
theorem Yields.all {p : Prog E R B} {evs : List (Sigma R)} {a : B} (h : p.Yields evs a)
    (hall : p.All P) : ∀ ev ∈ evs, P ev.1 := by
  induction h with
  | ret a => exact fun ev hev => (nomatch hev)
  | op h ih =>
    intro ev hev
    rcases List.mem_cons.mp hev with rfl | hev
    · exact hall.1
    · exact ih (hall.2 _) ev hev

/-- The monitor that remembers what a task has done. -/
def tracing (C A : Type) (allow : C → List (Sigma R) → E → Prop) (may : (e : E) → R e → Prop) :
    Monitor E R C A (C × List (Sigma R)) where
  init c := (c, [])
  next v e r := (v.1, v.2 ++ [⟨e, r⟩])
  allow v e := allow v.1 v.2 e
  may _ e r := may e r
  fin _ _ _ := True

/-- A program whose operations are always allowed is remembered from beginning to end. -/
theorem wp_tracing {allow : C → List (Sigma R) → E → Prop} {may : (e : E) → R e → Prop} {c : C}
    {trace : List (Sigma R)} {p : Prog E R B} {post : B → C × List (Sigma R) → Prop}
    (hfree : p.All fun e => ∀ trace, allow c trace e)
    (h : ∀ evs a, p.Yields evs a → post a (c, trace ++ evs)) :
    p.wp (tracing C A allow may) post (c, trace) := by
  induction p generalizing trace with
  | ret a =>
    have hpost := h [] a (.ret a)
    rwa [List.append_nil] at hpost
  | op e next ih =>
    refine ⟨hfree.1 trace, fun r _ => ih r (hfree.2 r) fun evs a hyields => ?_⟩
    have hpost := h _ a (.op hyields)
    rwa [List.append_cons] at hpost

end Prog

end HelixRouter.Interleaving
