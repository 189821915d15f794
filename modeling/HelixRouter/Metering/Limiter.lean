import Mathlib.Data.List.Basic
import Mathlib.Data.List.Induction

namespace HelixRouter.Metering

/-- A limiter answers a request, and changes with it. -/
abbrev Limiter (S C : Type) := S → C → Bool × S

namespace Limiter

variable {S T C : Type} {f : Limiter S C} {g : Limiter T C} {s : S} {t : T} {cs : List C}

def answers (f : Limiter S C) : S → List C → List Bool
  | _, [] => []
  | s, c :: cs => (f s c).1 :: answers f (f s c).2 cs

/-- The requests the limiter lets through. -/
def admitted (f : Limiter S C) : S → List C → List C
  | _, [] => []
  | s, c :: cs =>
    if (f s c).1 then c :: admitted f (f s c).2 cs else admitted f (f s c).2 cs

/-- The limiter lets every one of the requests through. -/
def Clears (f : Limiter S C) (s : S) (cs : List C) : Prop := ∀ a ∈ answers f s cs, a = true

/-- The limiter, left as it was by the requests it turns away. -/
def strict (f : Limiter S C) : Limiter S C := fun s c => if (f s c).1 then f s c else (false, s)

/-- Lets through what both let through, and charges both for it or neither. -/
def both (f : Limiter S C) (g : Limiter T C) : Limiter (S × T) C := fun p c =>
  if (f p.1 c).1 && (g p.2 c).1 then (true, ((f p.1 c).2, (g p.2 c).2)) else (false, p)

section Shape

variable {c : C}

theorem strict_of_admitted (h : (f s c).1 = true) : strict f s c = f s c := if_pos h

theorem strict_of_refused (h : (f s c).1 = false) : strict f s c = (false, s) := by
  simp [strict, h]

theorem both_of_admitted (hf : (f s c).1 = true) (hg : (g t c).1 = true) :
    both f g (s, t) c = (true, ((f s c).2, (g t c).2)) := by
  simp [both, hf, hg]

theorem both_of_refused (h : (f s c).1 = false ∨ (g t c).1 = false) :
    both f g (s, t) c = (false, (s, t)) := by
  rcases h with h | h
  · simp [both, h]
  · simp [both, h]

theorem clears_cons : Clears f s (c :: cs) ↔ (f s c).1 = true ∧ Clears f (f s c).2 cs := by
  simp [Clears, answers]

end Shape

/-- Two limiters in a row refuse no more than the first alone exactly when the second
lets through everything the first does. -/
theorem answers_both_eq_left_iff : answers (both f g) (s, t) cs = answers (strict f) s cs ↔
    Clears g t (admitted (strict f) s cs) := by
  induction cs generalizing s t with
  | nil => simp [answers, admitted, Clears]
  | cons c cs ih =>
    cases hf : (f s c).1 with
    | false =>
      simp only [answers, admitted, both_of_refused (Or.inl hf), strict_of_refused hf,
        List.cons.injEq, true_and, Bool.false_eq_true, ↓reduceIte]
      exact ih
    | true =>
      simp only [answers, admitted, strict_of_admitted hf, hf, ↓reduceIte, clears_cons]
      cases hg : (g t c).1 with
      | false => simp [both_of_refused (Or.inr hg)]
      | true =>
        simp only [both_of_admitted hf hg, List.cons.injEq, true_and]
        exact ih

theorem both_swap (c : C) : both f g (s, t) c =
    ((both g f (t, s) c).1, ((both g f (t, s) c).2.2, (both g f (t, s) c).2.1)) := by
  cases hf : (f s c).1 with
  | false => rw [both_of_refused (Or.inl hf), both_of_refused (Or.inr hf)]
  | true =>
    cases hg : (g t c).1 with
    | false => rw [both_of_refused (Or.inr hg), both_of_refused (Or.inl hg)]
    | true => rw [both_of_admitted hf hg, both_of_admitted hg hf]

theorem answers_both_swap : answers (both f g) (s, t) cs = answers (both g f) (t, s) cs := by
  induction cs generalizing s t with
  | nil => rfl
  | cons c cs ih => rw [answers, answers, both_swap c, ih]

theorem answers_both_eq_right_iff : answers (both f g) (s, t) cs = answers (strict g) t cs ↔
    Clears f s (admitted (strict g) t cs) := by
  rw [answers_both_swap]
  exact answers_both_eq_left_iff

/-- Limiters that agree at a time, and from then on whenever they are asked, give the
requests of an orderly stream the same answers. -/
theorem eq_of_agree {stamp : C → Nat} (Fair : C → Prop) (Agree : Nat → S → T → Prop)
    (step : ∀ {n s t c}, Agree n s t → n ≤ stamp c → Fair c →
      (f s c).1 = (g t c).1 ∧ Agree (stamp c) (f s c).2 (g t c).2)
    (fair : ∀ c ∈ cs, Fair c) (order : cs.Pairwise fun c d => stamp c ≤ stamp d)
    {n : Nat} (late : ∀ c ∈ cs, n ≤ stamp c) (h : Agree n s t) :
    answers f s cs = answers g t cs ∧ admitted f s cs = admitted g t cs := by
  induction cs generalizing n s t with
  | nil => exact ⟨rfl, rfl⟩
  | cons c cs ih =>
    obtain ⟨after, order⟩ := List.pairwise_cons.mp order
    obtain ⟨he, ha⟩ := step h (late c List.mem_cons_self) (fair c List.mem_cons_self)
    obtain ⟨hans, hadm⟩ := ih (fun d hd => fair d (List.mem_cons_of_mem _ hd)) order after ha
    refine ⟨?_, ?_⟩
    · rw [answers, answers, he, hans]
    · rw [admitted, admitted, he, hadm]

end Limiter

namespace Limiter

variable {S C : Type} {f : Limiter S C} {s : S} {c : C} {cs : List C}

/-- The state in which a limiter is left by requests. -/
def after (f : Limiter S C) : S → List C → S
  | s, [] => s
  | s, c :: cs => after f (f s c).2 cs

theorem admitted_concat : admitted f s (cs ++ [c]) =
    if (f (after f s cs) c).1 then admitted f s cs ++ [c] else admitted f s cs := by
  induction cs generalizing s with
  | nil => rfl
  | cons d cs ih =>
    rw [List.cons_append, admitted, admitted, ih, after]
    split <;> split <;> rfl

theorem admitted_sublist : (admitted f s cs).Sublist cs := by
  induction cs generalizing s with
  | nil => exact List.Sublist.refl _
  | cons c cs ih =>
    rw [admitted]
    split
    · exact ih.cons_cons c
    · exact ih.cons c

/-- What holds at every place of a list, with what stands before it. -/
theorem forall_split_concat_iff {α : Type} {P : List α → α → Prop} {l : List α} {a : α} :
    (∀ before b later, l ++ [a] = before ++ b :: later → P before b) ↔
      (∀ before b later, l = before ++ b :: later → P before b) ∧ P l a := by
  constructor
  · intro h
    refine ⟨fun before b later he => h before b (later ++ [a]) (by simp [he]), h l a [] rfl⟩
  · intro h before b later he
    obtain ⟨hall, hlast⟩ := h
    rcases List.eq_nil_or_concat later with rfl | ⟨rest, d, rfl⟩
    · obtain ⟨rfl, hb⟩ := List.append_inj' he rfl
      exact List.singleton_inj.mp hb ▸ hlast
    · have he' : l ++ [a] = (before ++ b :: rest) ++ [d] := by simpa using he
      exact hall before b rest (List.append_inj' he' rfl).1

section Ledger

variable {X D : Type}

/-- The requests with what they were answered. -/
def ledger (f : Limiter S C) : S → List C → List (C × Bool)
  | _, [] => []
  | s, c :: cs => (c, (f s c).1) :: ledger f (f s c).2 cs

theorem after_concat : after f s (cs ++ [c]) = (f (after f s cs) c).2 := by
  induction cs generalizing s with
  | nil => rfl
  | cons d cs ih => exact ih

theorem ledger_concat :
    ledger f s (cs ++ [c]) = ledger f s cs ++ [(c, (f (after f s cs) c).1)] := by
  induction cs generalizing s with
  | nil => rfl
  | cons d cs ih =>
    rw [List.cons_append, ledger, ledger, ih]
    rfl

/-- The requests of a limiter that one part of it answers, and that no other request changes,
are answered as by that part alone. -/
theorem ledger_filterMap {F : Limiter X D} {select : D → Option C} {x : X} {ds : List D}
    (part : X → S) (Keeps : X → Prop)
    (keeps : ∀ x, ∀ d ∈ ds, Keeps x → Keeps (F x d).2)
    (own : ∀ x, ∀ d ∈ ds, Keeps x → ∀ c, select d = some c →
      (F x d).1 = (f (part x) c).1 ∧ part (F x d).2 = (f (part x) c).2)
    (others : ∀ x, ∀ d ∈ ds, Keeps x → select d = none → part (F x d).2 = part x)
    (hx : Keeps x) :
    (ledger F x ds).filterMap (fun e => (select e.1).map fun c => (c, e.2)) =
      ledger f (part x) (ds.filterMap select) := by
  induction ds generalizing x with
  | nil => rfl
  | cons d ds ih =>
    have hrest := ih (fun x d hd => keeps x d (List.mem_cons_of_mem _ hd))
      (fun x d hd => own x d (List.mem_cons_of_mem _ hd))
      (fun x d hd => others x d (List.mem_cons_of_mem _ hd)) (keeps x d List.mem_cons_self hx)
    rw [ledger, List.filterMap_cons, List.filterMap_cons]
    cases hselect : select d with
    | none =>
      rw [others x d List.mem_cons_self hx hselect] at hrest
      exact hrest
    | some c =>
      obtain ⟨hanswer, hpart⟩ := own x d List.mem_cons_self hx c hselect
      rw [hpart] at hrest
      dsimp only [Option.map_some]
      rw [ledger, hrest, hanswer]

end Ledger

section ByLog

variable {quota : List C → C → Bool} {log : List C}

/-- A limiter that keeps what it has let through, and decides by it. -/
def byLog (quota : List C → C → Bool) : Limiter (List C) C := fun log c =>
  if quota log c then (true, log ++ [c]) else (false, log)

theorem after_byLog : after (byLog quota) log cs = log ++ admitted (byLog quota) log cs := by
  induction cs generalizing log with
  | nil => exact (List.append_nil log).symm
  | cons c cs ih =>
    rw [after, admitted, ih]
    unfold byLog
    split <;> simp

/-- One more request, decided by all that were let through before it. -/
theorem admitted_byLog_concat : admitted (byLog quota) [] (cs ++ [c]) =
    if quota (admitted (byLog quota) [] cs) c then admitted (byLog quota) [] cs ++ [c]
    else admitted (byLog quota) [] cs := by
  rw [admitted_concat, after_byLog, List.nil_append]
  cases hq : quota (admitted (byLog quota) [] cs) c with
  | true => simp [byLog, hq]
  | false => simp [byLog, hq]

/-- What every request of an orderly stream keeps, by what was asked and let through before. -/
theorem byLog_induction {order : C → C → Prop} (P : List C → List C → Prop) (nil : P [] [])
    (step : ∀ cs log c, P cs log → log.Sublist cs → (∀ d ∈ cs, order d c) →
      P (cs ++ [c]) (if quota log c then log ++ [c] else log))
    (ordered : cs.Pairwise order) : P cs (admitted (byLog quota) [] cs) := by
  induction cs using List.reverseRecOn with
  | nil => exact nil
  | append_singleton cs c ih =>
    obtain ⟨hcs, -, hlast⟩ := List.pairwise_append.mp ordered
    rw [admitted_byLog_concat]
    exact step cs _ c (ih hcs) admitted_sublist fun d hd => hlast d hd c (List.mem_singleton_self c)

end ByLog

end Limiter

end HelixRouter.Metering
