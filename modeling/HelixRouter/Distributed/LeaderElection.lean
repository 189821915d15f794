import HelixRouter.Runs.Stepwise
import Mathlib.Data.Fintype.Basic
import Mathlib.Logic.Function.Basic

namespace HelixRouter.Distributed

open Runs

/-- What a node knows of its leadership, with the answers to its `create` calls it has
yet to act on. -/
structure Inner where
  isPrimary : Bool := false
  refreshLoops : Nat := 0
  created : Nat := 0
  refused : Nat := 0

/-- The nodes, the entry `primary` of the key-value store while it is live, and which
nodes have attempted a refresh since the last successful `create`. -/
structure Cluster (N : Type) where
  entry : Option N := none
  nodes : N → Inner := fun _ => {}
  refreshed : N → Bool := fun _ => false

inductive Event (N : Type) where
  | create (n : N)
  | createFails (n : N)
  | elected (n : N)
  | notElected (n : N)
  | refresh (n : N)
  | refreshFails (n : N)
  | expire

namespace Inner

def awaitCreated (i : Inner) : Inner := { i with created := i.created + 1 }

def awaitRefused (i : Inner) : Inner := { i with refused := i.refused + 1 }

/-- `elect_primary` after a successful `create`: the flag is set and a loop spawned. -/
def elect (i : Inner) : Inner :=
  { i with isPrimary := true, refreshLoops := i.refreshLoops + 1, created := i.created - 1 }

def giveUp (i : Inner) : Inner := { i with isPrimary := false, refused := i.refused - 1 }

/-- A turn of `spawn_leader_refresh` whose `put` fails ends its loop. -/
def stopRefresh (i : Inner) : Inner :=
  { i with isPrimary := false, refreshLoops := i.refreshLoops - 1 }

end Inner

namespace Cluster

variable {N : Type} [DecidableEq N]

def setNode (s : Cluster N) (n : N) (i : Inner) : Cluster N :=
  { s with nodes := Function.update s.nodes n i }

/-- `create` succeeds only where there is no entry; `put` overwrites whatever there is. -/
def step (s : Cluster N) : Event N → Option (Cluster N)
  | .create n =>
    match s.entry with
    | none => some { s.setNode n (s.nodes n).awaitCreated with
        entry := some n, refreshed := fun _ => false }
    | some _ => some (s.setNode n (s.nodes n).awaitRefused)
  | .createFails n => some (s.setNode n (s.nodes n).awaitRefused)
  | .elected n => if 0 < (s.nodes n).created then some (s.setNode n (s.nodes n).elect) else none
  | .notElected n => if 0 < (s.nodes n).refused then some (s.setNode n (s.nodes n).giveUp) else none
  | .refresh n =>
    if 0 < (s.nodes n).refreshLoops then
      some { s with entry := some n, refreshed := Function.update s.refreshed n true }
    else none
  | .refreshFails n =>
    if 0 < (s.nodes n).refreshLoops then
      some { s.setNode n (s.nodes n).stopRefresh with
        refreshed := Function.update s.refreshed n true }
    else none
  | .expire => some { s with entry := none }

def Primary (s : Cluster N) (n : N) : Prop := (s.nodes n).isPrimary = true

def Running (s : Cluster N) (n : N) : Prop := 0 < (s.nodes n).refreshLoops

/-- A node that leads, or is about to: a refresh loop of its runs, or it has yet to act on a
successful `create`. -/
def Claims (s : Cluster N) (n : N) : Prop := 0 < (s.nodes n).refreshLoops + (s.nodes n).created

/-- A refresh replaces no other node's live entry. -/
def Unstolen (s : Cluster N) : Event N → Prop
  | .refresh n => ∀ m, s.entry = some m → m = n
  | .create _ => True
  | .createFails _ => True
  | .elected _ => True
  | .notElected _ => True
  | .refreshFails _ => True
  | .expire => True

structure Safe (s : Cluster N) : Prop where
  single : (∀ n, s.Primary n → s.refreshed n = true) →
    ∀ m n, s.Primary m → s.Primary n → m = n
  kept : ∀ n, s.Running n → s.entry = some n → s.Primary n

/-- An election is won only once no node leads any more, and a node that has lost one has no
loop. When entries expire and refreshes come does not matter. -/
def Orderly (s : Cluster N) : Event N → Prop
  | .create _ => s.entry = none → ∀ m, ¬ s.Claims m
  | .notElected n => ¬ s.Running n
  | .createFails _ => True
  | .elected _ => True
  | .refresh _ => True
  | .refreshFails _ => True
  | .expire => True

/-- What goes on while no node asks for leadership. -/
def Turn : Event N → Prop
  | .elected _ => True
  | .refresh _ => True
  | .refreshFails _ => True
  | .expire => True
  | .create _ => False
  | .createFails _ => False
  | .notElected _ => False

instance (s : Cluster N) (n : N) : Decidable (s.Running n) := inferInstanceAs (Decidable (0 < _))

instance (s : Cluster N) (n : N) : Decidable (s.Claims n) := inferInstanceAs (Decidable (0 < _))

instance [Fintype N] (s : Cluster N) : (e : Event N) → Decidable (s.Orderly e)
  | .create _ => inferInstanceAs (Decidable (s.entry = none → ∀ m, ¬ s.Claims m))
  | .notElected n => inferInstanceAs (Decidable (¬ s.Running n))
  | .createFails _ | .elected _ | .refresh _ | .refreshFails _ | .expire =>
    inferInstanceAs (Decidable True)

/-- One node leads at most, on no other's entry, and it knows. -/
structure Led (s : Cluster N) : Prop where
  sole : ∀ m n, s.Claims m → s.Claims n → m = n
  once : ∀ n, (s.nodes n).refreshLoops + (s.nodes n).created ≤ 1
  owns : ∀ m n, s.Claims m → s.entry = some n → n = m
  flag : ∀ n, s.Primary n ↔ s.Running n

variable {s s' : Cluster N} {e : Event N} {es : List (Event N)} {m n : N} {i : Inner}

section Nodes

omit [DecidableEq N]

theorem Running.claims (h : s.Running n) : s.Claims n := Nat.lt_of_lt_of_le h (Nat.le_add_right ..)

theorem claims_of_created (h : 0 < (s.nodes n).created) : s.Claims n :=
  Nat.lt_of_lt_of_le h (Nat.le_add_left ..)

theorem Led.safe (h : s.Led) : s.Safe where
  single _ m n hm hn := h.sole m n ((h.flag m).mp hm).claims ((h.flag n).mp hn).claims
  kept n hr _ := (h.flag n).mpr hr

theorem Led.start : ({} : Cluster N).Led where
  sole _ _ hm := absurd hm (Nat.lt_irrefl 0)
  once _ := Nat.zero_le 1
  owns _ _ hm := absurd hm (Nat.lt_irrefl 0)
  flag _ := iff_of_false Bool.false_ne_true (Nat.lt_irrefl 0)

end Nodes

@[simp] theorem setNode_self : (s.setNode n i).nodes n = i := Function.update_self ..

theorem setNode_of_ne (h : m ≠ n) : (s.setNode n i).nodes m = s.nodes m :=
  Function.update_of_ne h ..

section Keeps

/-- A node that makes no new claim leaves the cluster led. -/
theorem Led.setNode {refreshed : N → Bool} (h : s.Led)
    (hclaim : 0 < i.refreshLoops + i.created → s.Claims n)
    (honce : i.refreshLoops + i.created ≤ 1) (hflag : i.isPrimary = true ↔ 0 < i.refreshLoops) :
    Led { s.setNode n i with refreshed := refreshed } := by
  have hclaims : ∀ m, Claims { s.setNode n i with refreshed := refreshed } m → s.Claims m := by
    intro m hm
    by_cases hmn : m = n
    · subst hmn
      exact hclaim (by simpa [Claims] using hm)
    · simpa [Claims, setNode_of_ne hmn] using hm
  refine ⟨fun m k hm hk => h.sole m k (hclaims m hm) (hclaims k hk), fun m => ?_,
    fun m k hm he => h.owns m k (hclaims m hm) he, fun m => ?_⟩
  · by_cases hmn : m = n
    · simpa [hmn] using honce
    · simpa [setNode_of_ne hmn] using h.once m
  · by_cases hmn : m = n
    · simpa [hmn, Primary, Running] using hflag
    · simpa [Primary, Running, setNode_of_ne hmn] using h.flag m

/-- Where nobody leads, one node can come to do so. -/
theorem Led.created (h : s.Led) (hnone : ∀ m, ¬ s.Claims m) (n : N) :
    Led { s.setNode n (s.nodes n).awaitCreated with
      entry := some n, refreshed := fun _ => false } := by
  have hidle : (s.nodes n).refreshLoops = 0 ∧ (s.nodes n).created = 0 := by
    have := hnone n
    unfold Claims at this
    omega
  have hclaims : ∀ m, Claims { s.setNode n (s.nodes n).awaitCreated with
      entry := some n, refreshed := fun _ => false } m → m = n := by
    intro m hm
    by_contra hmn
    exact hnone m (by simpa [Claims, setNode_of_ne hmn] using hm)
  refine ⟨fun m k hm hk => (hclaims m hm).trans (hclaims k hk).symm, fun m => ?_,
    fun m k hm he => (Option.some.inj he).symm.trans (hclaims m hm).symm, fun m => ?_⟩
  · by_cases hmn : m = n
    · simp [hmn, Inner.awaitCreated, hidle]
    · simpa [setNode_of_ne hmn] using h.once m
  · by_cases hmn : m = n
    · simpa [hmn, Primary, Running, Inner.awaitCreated] using h.flag n
    · simpa [Primary, Running, setNode_of_ne hmn] using h.flag m

theorem Led.step (h : s.Led) (ho : s.Orderly e) (hs : s.step e = some s') : s'.Led := by
  cases e with
  | create n =>
    simp only [Cluster.step] at hs
    cases he : s.entry with
    | none =>
      rw [he] at hs
      obtain rfl := Option.some.inj hs
      exact h.created (ho he) n
    | some k =>
      rw [he] at hs
      obtain rfl := Option.some.inj hs
      exact h.setNode id (h.once n) (h.flag n)
  | createFails n =>
    obtain rfl := Option.some.inj hs
    exact h.setNode id (h.once n) (h.flag n)
  | elected n =>
    obtain ⟨hcreated, hs⟩ := Option.ite_none_right_eq_some.mp hs
    obtain rfl := Option.some.inj hs
    have honce := h.once n
    refine h.setNode (fun _ => claims_of_created hcreated) ?_ ?_
    · simp only [Inner.elect]
      omega
    · simp [Inner.elect]
  | notElected n =>
    obtain ⟨-, hs⟩ := Option.ite_none_right_eq_some.mp hs
    obtain rfl := Option.some.inj hs
    exact h.setNode id (h.once n) (iff_of_false Bool.false_ne_true ho)
  | refresh n =>
    obtain ⟨hruns, hs⟩ := Option.ite_none_right_eq_some.mp hs
    obtain rfl := Option.some.inj hs
    refine ⟨h.sole, h.once, fun m k hm he => ?_, h.flag⟩
    rw [← Option.some.inj he]
    exact h.sole n m (Running.claims hruns) hm
  | refreshFails n =>
    obtain ⟨hruns, hs⟩ := Option.ite_none_right_eq_some.mp hs
    obtain rfl := Option.some.inj hs
    have honce := h.once n
    refine h.setNode (fun _ => Running.claims hruns) ?_ (iff_of_false Bool.false_ne_true ?_)
    · simp only [Inner.stopRefresh]
      omega
    · simp only [Inner.stopRefresh]
      omega
  | expire =>
    obtain rfl := Option.some.inj hs
    exact ⟨h.sole, h.once, fun _ _ _ he => (nomatch he), h.flag⟩

/-- The one node that leads refreshes no entry but its own. -/
theorem Led.unstolen (h : s.Led) (hs : s.step e = some s') : s.Unstolen e := by
  cases e with
  | refresh n =>
    obtain ⟨hruns, -⟩ := Option.ite_none_right_eq_some.mp hs
    exact fun m he => h.owns n m (Running.claims hruns) he
  | _ => trivial

/-- An orderly run steals no entry, and is safe throughout. -/
theorem safe_of_orderly (h : EachStep step Orderly ({} : Cluster N) es) :
    EachStep step Unstolen {} es ∧ Throughout step Safe {} es := by
  have hled : Throughout step Led ({} : Cluster N) es :=
    h.throughout Led.start fun _ _ _ hl ho hs => hl.step ho hs
  exact ⟨hled.eachStep fun _ _ _ _ hl _ hs => hl.unstolen hs, hled.imp fun _ => Led.safe⟩

/-- The turns of the loops need no condition. -/
theorem orderly_of_turns (h : ∀ e ∈ es, Turn e) : EachStep step Orderly s es := by
  induction es generalizing s with
  | nil => trivial
  | cons e es ih =>
    obtain ⟨he, hes⟩ := List.forall_mem_cons.mp h
    refine fun t _ => ⟨?_, ih hes⟩
    cases e with
    | create n => cases he
    | createFails n => cases he
    | notElected n => cases he
    | _ => trivial

end Keeps

section Breaks

/-- The turns lead on from a state into one that is not safe, or steal an entry on the way. -/
def Breaks (s : Cluster N) : Prop :=
  ∃ more, (∀ e ∈ more, Turn e) ∧
    ¬ (EachStep step Unstolen s more ∧ Throughout step Safe s more)

/-- A loop that runs beside another node's live entry takes it over. -/
theorem breaks_of_running (hruns : s.Running m) (he : s.entry = some n) (hne : n ≠ m) :
    s.Breaks := by
  refine ⟨[.refresh m], by simp [Turn], fun ⟨hunstolen, _⟩ => ?_⟩
  exact hne ((hunstolen _ (if_pos hruns)).1 n he)

/-- A loop that runs for a node that does not lead goes on to refresh. -/
theorem breaks_of_unknowing (hruns : s.Running n) (hp : ¬ s.Primary n) : s.Breaks := by
  refine ⟨[.refresh n], by simp [Turn], fun ⟨_, hsafe⟩ => ?_⟩
  exact hp ((hsafe.2 _ (if_pos hruns)).kept n hruns rfl)

theorem Breaks.turn (ht : Turn e) (hs : s.step e = some s') (h : s'.Breaks) : s.Breaks := by
  obtain ⟨more, hmore, hbad⟩ := h
  refine ⟨e :: more, List.forall_mem_cons.mpr ⟨ht, hmore⟩, fun ⟨hunstolen, hsafe⟩ => ?_⟩
  exact hbad ⟨(hunstolen s' hs).2, hsafe.2 s' hs⟩

/-- With two loops of a node, one ends and clears the flag under the other. -/
theorem breaks_of_twice (htwice : 2 ≤ (s.nodes n).refreshLoops) : s.Breaks := by
  have hruns : 0 < (s.nodes n).refreshLoops := by omega
  refine Breaks.turn (e := .refreshFails n) trivial (if_pos hruns) (breaks_of_unknowing (n := n) ?_ ?_)
  · simp only [Running, setNode_self, Inner.stopRefresh]
    omega
  · simp [Primary, Inner.stopRefresh]

/-- Every claim becomes a loop. -/
theorem breaks_of_elected (hcreated : 0 < (s.nodes n).created)
    (h : Breaks (s.setNode n (s.nodes n).elect)) : s.Breaks :=
  Breaks.turn (e := .elected n) trivial (if_pos hcreated) h

theorem breaks_of_claim (hc : s.Claims m) (he : s.entry = some n) (hne : n ≠ m) : s.Breaks := by
  by_cases hruns : s.Running m
  · exact breaks_of_running hruns he hne
  · have hcreated : 0 < (s.nodes m).created := by
      unfold Claims at hc
      unfold Running at hruns
      omega
    refine breaks_of_elected hcreated (breaks_of_running (m := m) ?_ he hne)
    simp [Running, Inner.elect]

theorem breaks_of_claims (h : 2 ≤ (s.nodes n).refreshLoops + (s.nodes n).created) : s.Breaks := by
  induction hk : (s.nodes n).created generalizing s with
  | zero => exact breaks_of_twice (n := n) (by omega)
  | succ k ih =>
    refine breaks_of_elected (n := n) (by omega) (ih ?_ ?_)
    · simp only [setNode_self, Inner.elect]
      omega
    · simp only [setNode_self, Inner.elect]
      omega

/-- After a step that was not orderly the turns break the cluster. -/
theorem breaks_of_not_orderly (ho : ¬ s.Orderly e) (hs : s.step e = some s') : s'.Breaks := by
  cases e with
  | create n =>
    obtain ⟨he, hclaims⟩ := Classical.not_imp.mp ho
    obtain ⟨m, hm⟩ := not_forall_not.mp hclaims
    simp only [step, he] at hs
    obtain rfl := Option.some.inj hs
    by_cases hmn : m = n
    · subst hmn
      refine breaks_of_claims (n := m) ?_
      unfold Claims at hm
      simp only [setNode_self, Inner.awaitCreated]
      omega
    · refine breaks_of_claim (m := m) ?_ rfl (Ne.symm hmn)
      simpa [Claims, setNode_of_ne hmn] using hm
  | notElected n =>
    obtain ⟨-, hs⟩ := Option.ite_none_right_eq_some.mp hs
    obtain rfl := Option.some.inj hs
    have hruns : s.Running n := not_not.mp ho
    refine breaks_of_unknowing (n := n) ?_ ?_
    · simpa [Running, Inner.giveUp] using hruns
    · simp [Primary, Inner.giveUp]
  | _ => exact absurd trivial ho

end Breaks

/-- In an orderly run no refresh replaces another node's live entry and the cluster is safe
throughout; and the orderly runs are just those that stay so whatever turns the loops take from
any point of theirs on. -/
theorem leadership_safe_iff (es : List (Event N)) :
    (EachStep step Orderly ({} : Cluster N) es →
      EachStep step Unstolen {} es ∧ Throughout step Safe {} es) ∧
    (EachStep step Orderly ({} : Cluster N) es ↔
      ∀ past more, past <+: es → (∀ e ∈ more, Turn e) →
        EachStep step Unstolen ({} : Cluster N) (past ++ more) ∧
          Throughout step Safe ({} : Cluster N) (past ++ more)) := by
  refine ⟨safe_of_orderly, fun h past more hpast hmore => ?_, fun h => ?_⟩
  · obtain ⟨rest, rfl⟩ := hpast
    exact safe_of_orderly (h.left.append fun _ _ => orderly_of_turns hmore)
  · induction es using List.reverseRecOn with
    | nil => trivial
    | append_singleton es e ih =>
      have hes := ih fun past more hpast => h past more (hpast.trans (List.prefix_append ..))
      refine hes.append fun t ht t' hs => ⟨?_, trivial⟩
      by_contra ho
      obtain ⟨more, hmore, hbad⟩ := breaks_of_not_orderly ho hs
      obtain ⟨hunstolen, hsafe⟩ := h (es ++ [e]) more List.prefix_rfl hmore
      have hx : exec step {} (es ++ [e]) = some t' := by
        rw [exec_append, ht, Option.bind_some, exec_cons, hs]
        rfl
      exact hbad ⟨hunstolen.append_right hx, hsafe.append_right hx⟩

section Example

/-- The first node is delayed past the expiry of its entry, and refreshes the second's. -/
def delayedRefresh : List (Event Bool) :=
  [.create false, .elected false, .refresh false, .expire,
    .create true, .elected true, .refresh true, .refresh false]

theorem delayed_refresh_splits :
    (∃ s, exec step {} delayedRefresh = some s ∧ (∀ n, s.refreshed n = true) ∧ ¬ s.Safe) ∧
      ¬ EachStep step Unstolen {} delayedRefresh := by
  have hrefreshed : ∀ n, Function.update (Function.update (fun _ : Bool => false) true true)
      false true n = true := by decide
  refine ⟨⟨_, rfl, hrefreshed, fun h => ?_⟩, fun h => ?_⟩
  · exact absurd (h.single (fun n _ => hrefreshed n) true false rfl rfl) (by decide)
  · obtain ⟨hsteal, _⟩ :=
      ((((((((h _ rfl).2 _ rfl).2 _ rfl).2 _ rfl).2 _ rfl).2 _ rfl).2 _ rfl).2 _ rfl)
    exact absurd (hsteal true rfl) (by decide)

/-- A refresh comes late, but before anybody else was elected; a later one fails, the other node
is elected, and the first one is told so. -/
def lateRefresh : List (Event Bool) :=
  [.create false, .elected false, .refresh false, .expire, .refresh false, .refreshFails false,
    .expire, .create true, .create false, .elected true, .notElected false, .refresh true]

theorem late_refresh_safe : (exec step {} lateRefresh).isSome ∧
    EachStep step Unstolen {} lateRefresh ∧ Throughout step Safe ({} : Cluster Bool) lateRefresh :=
  ⟨rfl, (leadership_safe_iff lateRefresh).1 (by decide)⟩

end Example

end Cluster

end HelixRouter.Distributed
