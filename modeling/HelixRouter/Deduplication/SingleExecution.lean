import HelixRouter.Deduplication.RequestDeduplicator
import HelixRouter.Interleaving.Ledger
import HelixRouter.Interleaving.Moments

namespace HelixRouter.Deduplication

open Interleaving

def Call.hash? : Call → Option RequestHash
  | .getOrCompute key _ => some (hashRequest key)
  | .cleanupCompleted => none

/-- The entries a caller has put into the map. -/
def Op.began : (e : Op) → e.Resp → List EntryId
  | .insert _ _, id => [id]
  | _, _ => []

def Op.outcome : (e : Op) → e.Resp → List String
  | .compute, value => [value]
  | _, _ => []

def Op.stored : (e : Op) → e.Resp → List EntryId
  | .store id _, _ => [id]
  | _, _ => []

/-- The entries of others a caller has found. -/
def Op.found : (e : Op) → e.Resp → List (RequestHash × EntryId)
  | .lookup hash, some id => [(hash, id)]
  | _, _ => []

theorem Op.mem_found {e : Op} {r : e.Resp} {hash : RequestHash} {id : EntryId}
    (h : (hash, id) ∈ e.found r) :
    (⟨e, r⟩ : Sigma Op.Resp) = ⟨.lookup hash, some id⟩ := by
  cases e with
  | lookup hash' =>
    cases r with
    | none => cases h
    | some id' =>
      cases List.mem_singleton.mp h
      rfl
  | _ => cases h

def Op.awaited : (e : Op) → e.Resp → List String
  | .awaitCompleted _, value => [value]
  | _, _ => []

/-- What a call has done so far. -/
structure Doings where
  hash : Option RequestHash
  began : List EntryId := []
  outcome : List String := []
  stored : List EntryId := []
  found : List (RequestHash × EntryId) := []
  awaited : List String := []

namespace Doings

def next (v : Doings) (e : Op) (r : e.Resp) : Doings where
  hash := v.hash
  began := v.began ++ e.began r
  outcome := v.outcome ++ e.outcome r
  stored := v.stored ++ e.stored r
  found := v.found ++ e.found r
  awaited := v.awaited ++ e.awaited r

/-- The computation the call has begun is still to be stored. -/
def Holds (v : Doings) (hash : RequestHash) (id : EntryId) : Prop :=
  v.hash = some hash ∧ v.began = [id] ∧ v.stored = []

instance (v : Doings) (hash : RequestHash) (id : EntryId) : Decidable (v.Holds hash id) :=
  inferInstanceAs (Decidable (_ ∧ _ ∧ _))

def Allows (v : Doings) : Op → Prop
  | .lookup hash => v.hash = some hash ∧ v.began = [] ∧ v.found = [] ∧ v.awaited = []
  | .insert hash _ => v = { hash := some hash }
  | .compute => ∃ hash id, v.Holds hash id ∧ v.outcome = [] ∧ v.found = [] ∧ v.awaited = []
  | .store id value => (∃ hash, v.Holds hash id) ∧ v.outcome = [value]
  | .awaitCompleted id =>
    v.began = [] ∧ (∃ hash, v.hash = some hash ∧ v.found = [(hash, id)]) ∧ v.awaited = []
  | .countTotal | .addWaiter _ | .countDeduped | .iterate | .visit _ | .remove _ => True

/-- A caller returns its own computation's value or what it waited for. -/
def Ended (v : Doings) : Answer → Prop
  | some value => v.outcome = [value] ∧ v.stored = v.began ∧ v.began ≠ [] ∨
      v.began = [] ∧ (∃ hash id, v.hash = some hash ∧ v.found = [(hash, id)]) ∧ v.awaited = [value]
  | none => v.began = []

end Doings

def monitor : Monitor Op Op.Resp Call Answer Doings where
  init c := { hash := c.hash? }
  next := Doings.next
  allow := Doings.Allows
  may _ _ _ := True
  fin _ a v := v.Ended a

section Bodies

@[simp] theorem monitor_next (v : Doings) (e : Op) (r : e.Resp) :
    monitor.next v e r = v.next e r := rfl

@[simp] theorem monitor_allow (v : Doings) (e : Op) : monitor.allow v e ↔ v.Allows e := Iff.rfl

@[simp] theorem monitor_may (v : Doings) (e : Op) (r : e.Resp) : monitor.may v e r := trivial

@[simp] theorem monitor_fin (c : Call) (a : Answer) (v : Doings) :
    monitor.fin c a v ↔ v.Ended a := Iff.rfl

@[simp] theorem monitor_init (c : Call) : monitor.init c = { hash := c.hash? } := rfl

attribute [local simp] Doings.next Op.began Op.outcome Op.stored Op.found Op.awaited
  Doings.Allows Doings.Holds Doings.Ended

theorem collectCompleted_wp (hashes : List RequestHash) (v : Doings)
    (post : List RequestHash → Doings → Prop) (h : ∀ toRemove, post toRemove v) :
    (collectCompleted hashes).wp monitor post v := by
  induction hashes generalizing post with
  | nil => exact h []
  | cons hash hashes ih =>
    have hquiet : monitor.Quiet v (.visit hash) := ⟨trivial, fun completed _ => by simp⟩
    apply Prog.wp_quiet hquiet
    intro completed
    rw [Prog.wp_bind]
    apply ih
    intro toRemove
    exact h _

theorem removeAll_wp (hashes : List RequestHash) (v : Doings) (post : Unit → Doings → Prop)
    (h : post () v) : (removeAll hashes).wp monitor post v := by
  induction hashes with
  | nil => exact h
  | cons hash hashes ih =>
    have hquiet : monitor.Quiet v (.remove hash) := ⟨trivial, fun _ _ => by simp⟩
    apply Prog.wp_quiet hquiet
    intro _
    exact ih

theorem body_wp (c : Call) : c.body.wp monitor (monitor.fin c) (monitor.init c) := by
  cases c with
  | getOrCompute key nowMs =>
    simp [Call.body, getOrCompute, Call.hash?]
    intro found
    cases found with
    | none => simp
    | some id => simp
  | cleanupCompleted =>
    simp [Call.body, cleanupCompleted, Call.hash?]
    intro hashes
    apply collectCompleted_wp
    intro toRemove
    apply removeAll_wp
    rfl

end Bodies

namespace RequestDeduplicator

variable {s : RequestDeduplicator} {hash other : RequestHash} {id i : EntryId} {nowMs : UInt64}
  {f : DedupeEntry → DedupeEntry}

def pending (s : RequestDeduplicator) (id : EntryId) : Bool :=
  (s.entries[id]?).any fun e => !e.completed

/-- The map has this entry under the hash, and its value is still to come. -/
def InFlight (s : RequestDeduplicator) (hash : RequestHash) (id : EntryId) : Prop :=
  s.inFlight.lookup hash = some id ∧ s.pending id = true

instance (s : RequestDeduplicator) (hash : RequestHash) (id : EntryId) :
    Decidable (s.InFlight hash id) := inferInstanceAs (Decidable (_ ∧ _))

/-- The map refers to entries, each under its own hash. -/
def Filed (s : RequestDeduplicator) : Prop :=
  ∀ hash id, s.inFlight.lookup hash = some id → ∃ e, s.entries[id]? = some e ∧ e.hash = hash

theorem pending_iff : s.pending id = true ↔ ∃ e, s.entries[id]? = some e ∧ e.completed = false := by
  simp [pending, Option.any_eq_true]

theorem getElem?_modifyEntry :
    (s.modifyEntry id f).entries[i]? = if id = i then (s.entries[i]?).map f else s.entries[i]? := by
  rw [modifyEntry, List.getElem?_modify]
  split
  · rfl
  · simp

theorem filed_modifyEntry (hf : ∀ e, (f e).hash = e.hash) (h : s.Filed) :
    (s.modifyEntry id f).Filed := by
  intro hash i hi
  obtain ⟨e, he, hh⟩ := h hash i hi
  rw [getElem?_modifyEntry, he]
  split
  · exact ⟨f e, rfl, (hf e).trans hh⟩
  · exact ⟨e, rfl, hh⟩

theorem inFlight_modifyEntry (hf : ∀ e, (f e).completed = e.completed) :
    (s.modifyEntry id f).InFlight hash i ↔ s.InFlight hash i := by
  refine and_congr_right fun _ => ?_
  rw [pending_iff, pending_iff, getElem?_modifyEntry]
  split
  · constructor
    · intro h
      obtain ⟨e, he, hc⟩ := h
      obtain ⟨e₀, he₀, rfl⟩ := Option.map_eq_some_iff.mp he
      exact ⟨e₀, he₀, (hf e₀).symm.trans hc⟩
    · intro h
      obtain ⟨e, he, hc⟩ := h
      exact ⟨f e, by rw [he]; rfl, (hf e).trans hc⟩
  · exact Iff.rfl

/-- A completed entry is in flight no more, and no other is touched. -/
theorem inFlight_complete (hf : ∀ e, (f e).completed = true) :
    (s.modifyEntry id f).InFlight hash i ↔ s.InFlight hash i ∧ i ≠ id := by
  by_cases hi : id = i
  · subst hi
    have hp : ¬ (s.modifyEntry id f).pending id = true := by
      rw [pending_iff, getElem?_modifyEntry, if_pos rfl]
      intro h
      obtain ⟨e, he, hc⟩ := h
      obtain ⟨e₀, _, rfl⟩ := Option.map_eq_some_iff.mp he
      rw [hf] at hc
      cases hc
    exact ⟨fun h => absurd h.2 hp, fun h => absurd rfl h.2⟩
  · have hsame : (s.modifyEntry id f).pending i = s.pending i := by
      unfold pending
      rw [getElem?_modifyEntry, if_neg hi]
    unfold InFlight
    rw [hsame]
    exact ⟨fun h => ⟨h, Ne.symm hi⟩, fun h => h.1⟩

/-- The deduplicator after a caller's new entry went in. -/
def insert (s : RequestDeduplicator) (hash : RequestHash) (nowMs : UInt64) : RequestDeduplicator :=
  { s with
    inFlight := s.inFlight.insert hash s.entries.length
    entries := s.entries ++ [{ hash := hash, createdAtMs := nowMs }] }

theorem getElem?_of_filed (h : s.Filed) (hi : s.inFlight.lookup hash = some id) :
    id < s.entries.length := by
  obtain ⟨e, he, _⟩ := h hash id hi
  exact (List.getElem?_eq_some_iff.mp he).1

theorem filed_insert (h : s.Filed) : (s.insert hash nowMs).Filed := by
  intro other i hi
  by_cases hh : other = hash
  · subst hh
    rw [insert, AList.lookup_insert] at hi
    obtain rfl := Option.some.inj hi
    exact ⟨{ hash := other, createdAtMs := nowMs }, by simp [insert], rfl⟩
  · rw [insert, AList.lookup_insert_ne hh] at hi
    obtain ⟨e, he, hhash⟩ := h other i hi
    refine ⟨e, ?_, hhash⟩
    rw [insert, List.getElem?_append_left (getElem?_of_filed h hi)]
    exact he

theorem inFlight_insert (h : s.Filed) : (s.insert hash nowMs).InFlight other i ↔
    (other = hash ∧ i = s.entries.length) ∨ (other ≠ hash ∧ s.InFlight other i) := by
  by_cases hh : other = hash
  · subst hh
    unfold InFlight
    rw [insert, AList.lookup_insert, Option.some.injEq]
    constructor
    · intro h
      exact Or.inl ⟨rfl, h.1.symm⟩
    · intro h
      rcases h with ⟨_, rfl⟩ | ⟨hne, _⟩
      · exact ⟨rfl, by simp [pending]⟩
      · exact absurd rfl hne
  · have hp : ∀ hl : s.inFlight.lookup other = some i,
        (s.insert hash nowMs).pending i = s.pending i := by
      intro hl
      unfold pending
      rw [insert, List.getElem?_append_left (getElem?_of_filed h hl)]
    unfold InFlight
    rw [insert, AList.lookup_insert_ne hh]
    constructor
    · intro h
      obtain ⟨hl, hpend⟩ := h
      exact Or.inr ⟨hh, hl, (hp hl).symm.trans hpend⟩
    · intro h
      rcases h with ⟨he, _⟩ | ⟨_, hl, hpend⟩
      · exact absurd he hh
      · exact ⟨hl, (hp hl).trans hpend⟩

theorem inFlight_remove : ({ s with inFlight := s.inFlight.erase hash } :
    RequestDeduplicator).InFlight other i ↔ other ≠ hash ∧ s.InFlight other i := by
  by_cases hh : other = hash
  · subst hh
    simp [InFlight]
  · unfold InFlight
    rw [AList.lookup_erase_ne hh]
    exact ⟨fun h => ⟨hh, h⟩, fun h => h.2⟩

theorem filed_remove (h : s.Filed) :
    ({ s with inFlight := s.inFlight.erase hash } : RequestDeduplicator).Filed := by
  intro other i hi
  by_cases hh : other = hash
  · subst hh
    simp at hi
  · rw [AList.lookup_erase_ne hh] at hi
    exact h other i hi

/-- Where nothing under the hash is in flight. -/
theorem not_inFlight_of_slot (h : ∀ e, s.slot hash = some e → e.completed = true) :
    ¬ s.InFlight hash id := by
  intro hin
  obtain ⟨hl, hp⟩ := hin
  obtain ⟨e, he, hc⟩ := pending_iff.mp hp
  have hs : s.slot hash = some e := by
    unfold slot
    rw [hl]
    exact he
  rw [h e hs] at hc
  cases hc

end RequestDeduplicator

/-- No look-up finds an entry that has completed, no insertion replaces one that has
not, and no removal takes one away that has not. -/
def Orderly : DedupeAction → DedupePool → Prop
  | .start _, _ => True
  | .step i _, p => ∀ t, p.tasks[i]? = some t →
    (∀ hash, t.prog.head? = some (.lookup hash) →
      ∀ e, p.state.slot hash = some e → e.completed = false) ∧
    (∀ hash nowMs, t.prog.head? = some (.insert hash nowMs) →
      ∀ e, p.state.slot hash = some e → e.completed = true) ∧
    (∀ hash, t.prog.head? = some (.remove hash) →
      ∀ e, p.state.slot hash = some e → e.completed = true)

def heldBy (account : RequestHash × EntryId) (v : Doings) : Nat :=
  if v.Holds account.1 account.2 then 1 else 0

def owedTo (account : RequestHash × EntryId) (s : RequestDeduplicator) : Nat :=
  if s.InFlight account.1 account.2 then 1 else 0

/-- What a caller holds changes only where it inserts and where it stores. -/
theorem heldBy_next {account : RequestHash × EntryId} {v : Doings} {e : Op} {r : e.Resp}
    (hb : e.began r = []) (hs : e.stored r = []) :
    heldBy account (v.next e r) = heldBy account v := by
  have h : (v.next e r).Holds account.1 account.2 ↔ v.Holds account.1 account.2 := by
    simp [Doings.Holds, Doings.next, hb, hs]
  exact if_congr h rfl rfl

theorem Op.exec_new {e : Op} {env : Env} {s s' : RequestDeduplicator} {r : e.Resp}
    {new : List Call} (h : e.exec env s = some (r, s', new)) : new = [] := by
  cases e with
  | awaitCompleted id =>
    simp only [Op.exec] at h
    split at h
    · cases h
    · split at h
      · cases h
        rfl
      · cases h
  | _ =>
    cases h
    rfl

theorem Op.exec_awaitCompleted {id : EntryId} {env : Env} {s s' : RequestDeduplicator}
    {r : String} {new : List Call}
    (h : (Op.awaitCompleted id).exec env s = some (r, s', new)) :
    s' = s ∧ ∃ e, s.entries[id]? = some e ∧ e.completed = true ∧ r = e.result.getD "" := by
  simp only [Op.exec] at h
  split at h
  · cases h
  · rename_i e he
    split at h
    · rename_i hc
      cases h
      exact ⟨rfl, e, he, hc, rfl⟩
    · cases h

section Balance

variable {s : RequestDeduplicator} {v : Doings} {hash : RequestHash} {id : EntryId}

/-- Whoever inserts where nothing is in flight comes to hold the new entry. -/
theorem insert_balance {nowMs : UInt64} (hfiled : s.Filed) (hnone : ∀ id, ¬ s.InFlight hash id)
    (hv : v = { hash := some hash }) (account : RequestHash × EntryId) :
    heldBy account (v.next (.insert hash nowMs) s.entries.length) + owedTo account s =
      heldBy account v + owedTo account (s.insert hash nowMs) := by
  have hnext : (v.next (.insert hash nowMs) s.entries.length).Holds account.1 account.2 ↔
      account.1 = hash ∧ account.2 = s.entries.length := by
    rw [hv]
    simp [Doings.Holds, Doings.next, Op.began, Op.stored, eq_comm]
  have hold : ¬ v.Holds account.1 account.2 := by
    rw [hv]
    simp [Doings.Holds]
  have hafter : (s.insert hash nowMs).InFlight account.1 account.2 ↔
      (account.1 = hash ∧ account.2 = s.entries.length) ∨
        (account.1 ≠ hash ∧ s.InFlight account.1 account.2) :=
    RequestDeduplicator.inFlight_insert hfiled
  unfold heldBy owedTo
  rw [if_neg hold, Nat.zero_add]
  by_cases hhash : account.1 = hash
  · have hbefore : ¬ s.InFlight account.1 account.2 := by
      rw [hhash]
      exact hnone _
    rw [if_neg hbefore]
    exact if_congr (hnext.trans (hafter.trans (or_iff_left fun h => h.1 hhash)).symm) rfl rfl
  · rw [if_neg fun h => hhash (hnext.mp h).1, Nat.zero_add]
    refine if_congr ⟨fun h => hafter.mpr (Or.inr ⟨hhash, h⟩), fun h => ?_⟩ rfl rfl
    exact ((hafter.mp h).resolve_left fun hl => hhash hl.1).2

/-- Whoever stores gives up what it held, and nobody else does. -/
theorem store_balance {value : String} (hfiled : s.Filed) (hin : s.InFlight hash id)
    (hholds : v.Holds hash id) (account : RequestHash × EntryId) :
    heldBy account (v.next (.store id value) ()) + owedTo account s =
      heldBy account v + owedTo account (s.modifyEntry id fun e =>
        { e with result := some value, completed := true }) := by
  have hnext : ¬ (v.next (.store id value) ()).Holds account.1 account.2 := by
    simp [Doings.Holds, Doings.next, Op.stored]
  have hheld : v.Holds account.1 account.2 ↔ account = (hash, id) := by
    obtain ⟨hhash, hbegan, hstored⟩ := hholds
    simp [Doings.Holds, hhash, hbegan, hstored, Prod.ext_iff, eq_comm]
  have hafter : (s.modifyEntry id fun e =>
      { e with result := some value, completed := true }).InFlight account.1 account.2 ↔
        s.InFlight account.1 account.2 ∧ account ≠ (hash, id) := by
    rw [RequestDeduplicator.inFlight_complete fun _ => rfl]
    refine and_congr_right fun hacc => not_congr ⟨fun hi => ?_, fun he => congrArg Prod.snd he⟩
    obtain ⟨e, he, hhe⟩ := hfiled _ _ hacc.1
    obtain ⟨e', he', hhe'⟩ := hfiled _ _ hin.1
    rw [hi] at he
    cases he.symm.trans he'
    exact Prod.ext (hhe.symm.trans hhe') hi
  unfold heldBy owedTo
  rw [if_neg hnext, Nat.zero_add]
  by_cases hacc : account = (hash, id)
  · subst hacc
    rw [if_pos hin, if_pos hholds, if_neg fun h => (hafter.mp h).2 rfl]
  · rw [if_neg fun h => hacc (hheld.mp h), Nat.zero_add]
    exact if_congr ((and_iff_left hacc).symm.trans hafter.symm) rfl rfl

end Balance

/-- A caller that holds a computation has it in flight. -/
theorem inFlight_of_holds {p : DedupePool} {t : DedupeTask} {hash : RequestHash} {id : EntryId}
    (hb : ∀ i, p.tally monitor (heldBy i) + 0 = owedTo i p.state) (ht : t ∈ p.tasks)
    (h : (t.view monitor).Holds hash id) : p.state.InFlight hash id := by
  have hle := Pool.held_le_tally monitor (heldBy (hash, id)) ht
  have hbal := hb (hash, id)
  rw [show heldBy (hash, id) (t.view monitor) = 1 from if_pos h] at hle
  by_contra hn
  rw [show owedTo (hash, id) p.state = 0 from if_neg hn] at hbal
  omega

/-- Every computation that is in flight under a hash is held by one caller. -/
theorem ledger : machine.Ledger monitor Orderly RequestDeduplicator.Filed heldBy
    (fun _ _ => 0) owedTo where
  body := body_wp
  start _ _ _ _ _ := by
    simp [heldBy, Doings.Holds]
  step k env p t e r s' new ht hx hh hk hg hgood ha hb := by
    have hx : e.exec env p.state = some (r, s', new) := hx
    have ha : (t.view monitor).Allows e := ha
    obtain ⟨_, hinsert, hremove⟩ := hg t hk
    refine ⟨trivial, ?_⟩
    rw [Op.exec_new hx]
    change s'.Filed ∧ ∀ i, heldBy i ((t.view monitor).next e r) + owedTo i p.state =
      heldBy i (t.view monitor) + owedTo i s'
    cases e with
    | insert hash nowMs =>
      cases hx
      have hnone : ∀ id, ¬ p.state.InFlight hash id := fun id =>
        RequestDeduplicator.not_inFlight_of_slot (hinsert hash nowMs hh)
      exact ⟨RequestDeduplicator.filed_insert hgood, insert_balance hgood hnone ha⟩
    | store id value =>
      cases hx
      obtain ⟨⟨hash, hholds⟩, _⟩ := ha
      exact ⟨RequestDeduplicator.filed_modifyEntry (fun _ => rfl) hgood,
        store_balance hgood (inFlight_of_holds hb ht hholds) hholds⟩
    | remove hash =>
      cases hx
      refine ⟨RequestDeduplicator.filed_remove hgood, fun account => ?_⟩
      rw [heldBy_next rfl rfl]
      refine congrArg (_ + ·) (if_congr (Iff.symm ?_) rfl rfl)
      rw [RequestDeduplicator.inFlight_remove]
      refine and_iff_right_of_imp fun h hhash => ?_
      rw [hhash] at h
      exact RequestDeduplicator.not_inFlight_of_slot (hremove hash hh) h
    | addWaiter id =>
      cases hx
      refine ⟨RequestDeduplicator.filed_modifyEntry (fun _ => rfl) hgood, fun account => ?_⟩
      rw [heldBy_next rfl rfl]
      refine congrArg (_ + ·) (if_congr (Iff.symm ?_) rfl rfl)
      exact RequestDeduplicator.inFlight_modifyEntry fun _ => rfl
    | awaitCompleted id =>
      obtain ⟨rfl, _⟩ := Op.exec_awaitCompleted hx
      exact ⟨hgood, fun account => by rw [heldBy_next rfl rfl]⟩
    | _ =>
      cases hx
      exact ⟨hgood, fun account => congrArg (· + owedTo account p.state) (heldBy_next rfl rfl)⟩

/-- The call's doings are the entry's story so far. -/
def Doings.Accounts (v : Doings) (id : EntryId) (e : DedupeEntry) : Prop :=
  v.hash = some e.hash ∧ v.began = [id] ∧
    (e.completed = false ∧ v.stored = [] ∨
      e.completed = true ∧ v.stored = [id] ∧ ∃ value, e.result = some value ∧ v.outcome = [value])

/-- The entry has this value for whoever waits for it. -/
def RequestDeduplicator.Finished (s : RequestDeduplicator) (id : EntryId) (value : String) : Prop :=
  ∃ e, s.entries[id]? = some e ∧ e.completed = true ∧ e.result.getD "" = value

/-- Each entry has the caller that began it, and each caller that waited has its entry's value. -/
structure Sound (p : DedupePool) : Prop where
  began : ∀ id e, p.state.entries[id]? = some e → ∃ u ∈ p.tasks, (u.view monitor).Accounts id e
  answered : ∀ t ∈ p.tasks, ∀ hash id value, (t.view monitor).found = [(hash, id)] →
    (t.view monitor).awaited = [value] → p.state.Finished id value

section Sound

variable {e : Op} {env : Env} {s s' : RequestDeduplicator} {r : e.Resp} {new : List Call}
  {v : Doings} {id : EntryId} {entry : DedupeEntry} {value : String}

/-- A call that goes on keeps accounting for its entry, as long as it does not store. -/
theorem Doings.Accounts.next (h : v.Accounts id entry) (ha : v.Allows e)
    (hstore : ∀ value, e ≠ .store id value) : (v.next e r).Accounts id entry := by
  obtain ⟨hhash, hbegan, hrest⟩ := h
  cases e with
  | insert hash nowMs =>
    rw [show v = { hash := some hash } from ha] at hbegan
    cases hbegan
  | store id' value =>
    obtain ⟨⟨hash, _, hid, _⟩, _⟩ := ha
    cases hbegan.symm.trans hid
    exact absurd rfl (hstore value)
  | compute =>
    obtain ⟨hash, id', ⟨_, _, hstored⟩, _⟩ := ha
    rcases hrest with ⟨hc, _⟩ | ⟨_, hs, _⟩
    · exact ⟨hhash, by simp [Doings.next, Op.began, hbegan],
        Or.inl ⟨hc, by simp [Doings.next, Op.stored, hstored]⟩⟩
    · rw [hstored] at hs
      cases hs
  | _ => simpa [Doings.Accounts, Doings.next, Op.began, Op.outcome, Op.stored] using
      ⟨hhash, hbegan, hrest⟩

theorem finished_exec (h : e.exec env s = some (r, s', new))
    (hstore : ∀ value, e = .store id value → s.pending id = true) (hf : s.Finished id value) :
    s'.Finished id value := by
  obtain ⟨entry, he, hc, hv⟩ := hf
  cases e with
  | insert hash nowMs =>
    cases h
    have hlt := (List.getElem?_eq_some_iff.mp he).1
    exact ⟨entry, (List.getElem?_append_left hlt).trans he, hc, hv⟩
  | addWaiter i =>
    cases h
    by_cases hi : i = id
    · refine ⟨{ entry with waiters := entry.waiters + 1 }, ?_, hc, hv⟩
      rw [RequestDeduplicator.getElem?_modifyEntry, if_pos hi, he]
      rfl
    · refine ⟨entry, ?_, hc, hv⟩
      rw [RequestDeduplicator.getElem?_modifyEntry, if_neg hi, he]
  | store i value' =>
    cases h
    by_cases hi : i = id
    · subst hi
      obtain ⟨entry', he', hc'⟩ := RequestDeduplicator.pending_iff.mp (hstore value' rfl)
      cases he.symm.trans he'
      rw [hc] at hc'
      cases hc'
    · refine ⟨entry, ?_, hc, hv⟩
      rw [RequestDeduplicator.getElem?_modifyEntry, if_neg hi, he]
  | awaitCompleted i =>
    obtain ⟨rfl, _⟩ := Op.exec_awaitCompleted h
    exact ⟨entry, he, hc, hv⟩
  | _ =>
    cases h
    exact ⟨entry, he, hc, hv⟩

/-- What an operation leaves of an entry: the same story, or what its own caller adds to it. -/
theorem exec_entry (h : e.exec env s = some (r, s', new)) (ha : v.Allows e)
    (hentry : s'.entries[id]? = some entry)
    (hin : ∀ hash id, v.Holds hash id → s.InFlight hash id) (hfiled : s.Filed) :
    (v.next e r).Accounts id entry ∨ ∃ old, s.entries[id]? = some old ∧
      (∀ w : Doings, w.Accounts id old → w.Accounts id entry) ∧ ∀ value, e ≠ .store id value := by
  cases e with
  | insert hash nowMs =>
    cases h
    by_cases hlt : id < s.entries.length
    · refine Or.inr ⟨entry, ?_, fun _ hw => hw, fun value => by simp⟩
      exact (List.getElem?_append_left hlt).symm.trans hentry
    · have hle : s.entries.length ≤ id := Nat.le_of_not_lt hlt
      have hmem : [({ hash := hash, createdAtMs := nowMs } : DedupeEntry)][id - s.entries.length]? =
          some entry := (List.getElem?_append_right hle).symm.trans hentry
      obtain ⟨hzero, hnew⟩ := List.getElem?_eq_some_iff.mp hmem
      have hid : id = s.entries.length := by
        have hsub : id - s.entries.length = 0 := Nat.lt_one_iff.mp hzero
        exact Nat.le_antisymm (Nat.sub_eq_zero_iff_le.mp hsub) hle
      rw [List.getElem_singleton] at hnew
      subst hid hnew
      rw [show v = { hash := some hash } from ha]
      exact Or.inl ⟨rfl, rfl, Or.inl ⟨rfl, rfl⟩⟩
  | addWaiter i =>
    cases h
    rw [RequestDeduplicator.getElem?_modifyEntry] at hentry
    split at hentry
    · obtain ⟨old, hold, rfl⟩ := Option.map_eq_some_iff.mp hentry
      exact Or.inr ⟨old, hold, fun _ hw => hw, fun value => by simp⟩
    · exact Or.inr ⟨entry, hentry, fun _ hw => hw, fun value => by simp⟩
  | store i value =>
    cases h
    rw [RequestDeduplicator.getElem?_modifyEntry] at hentry
    split at hentry
    · rename_i hi
      subst hi
      obtain ⟨old, hold, rfl⟩ := Option.map_eq_some_iff.mp hentry
      obtain ⟨⟨hash, hholds⟩, houtcome⟩ := ha
      obtain ⟨entry', he', hhash⟩ := hfiled _ _ (hin hash i hholds).1
      cases hold.symm.trans he'
      obtain ⟨hv, hbegan, hstored⟩ := hholds
      refine Or.inl ⟨?_, ?_, Or.inr ⟨rfl, ?_, value, rfl, ?_⟩⟩
      · rw [hhash]
        exact hv
      · simp [Doings.next, Op.began, hbegan]
      · simp [Doings.next, Op.stored, hstored]
      · simp [Doings.next, Op.outcome, houtcome]
    · rename_i hi
      refine Or.inr ⟨entry, hentry, fun _ hw => hw, fun value' heq => ?_⟩
      cases heq
      exact hi rfl
  | awaitCompleted i =>
    obtain ⟨rfl, _⟩ := Op.exec_awaitCompleted h
    exact Or.inr ⟨entry, hentry, fun _ hw => hw, fun value => by simp⟩
  | _ =>
    cases h
    exact Or.inr ⟨entry, hentry, fun _ hw => hw, fun value => by simp⟩

end Sound

/-- What the books of a run say of every pool it comes through. -/
structure Kept (p : DedupePool) : Prop where
  filed : p.state.Filed
  balance : ∀ i, p.tally monitor (heldBy i) + 0 = owedTo i p.state
  follows : ∀ t ∈ p.tasks, t.Follows monitor

theorem Kept.inFlight {p : DedupePool} (hk : Kept p) {t : DedupeTask} (ht : t ∈ p.tasks)
    {hash : RequestHash} {id : EntryId} (h : (t.view monitor).Holds hash id) :
    p.state.InFlight hash id := inFlight_of_holds hk.balance ht h

theorem always_kept {as : List DedupeAction} (hg : machine.Guarded Orderly as startPool) :
    machine.Always Kept as startPool := by
  have h0 : Machine.Balanced monitor RequestDeduplicator.Filed heldBy (fun _ _ => 0) owedTo
      startPool := by
    refine ⟨fun hash id h => ?_, fun i => ?_⟩
    · cases h
    · refine (if_neg fun h => ?_).symm
      cases h.1
  refine (ledger.invariant.always_follows hg (fun t ht => ?_) h0).imp fun q hq => ?_
  · cases ht
  · exact ⟨hq.1.1, hq.1.2, hq.2⟩

theorem sound_step {a : DedupeAction} {p q : DedupePool} (hk : Kept p) (hp : Sound p)
    (hs : machine.Step a p q) : Sound q := by
  cases hs with
  | start c s tasks _ =>
    refine ⟨fun id entry he => ?_, fun t ht hash id value hfound hawaited => ?_⟩
    · obtain ⟨u, hu, hacc⟩ := hp.began id entry he
      exact ⟨u, List.mem_append_left _ hu, hacc⟩
    · rcases List.mem_append.mp ht with ht | ht
      · exact hp.answered t ht hash id value hfound hawaited
      · rw [List.mem_singleton.mp ht] at hawaited
        cases hawaited
  | step env pre post t e next r s s' new hprog hx =>
    have hx : e.exec env s = some (r, s', new) := hx
    have ht : t ∈ pre ++ t :: post := by simp
    have ha : (t.view monitor).Allows e := (hk.follows t ht).allowed hprog
    have hview : (t.advance e r (next r)).view monitor = (t.view monitor).next e r := by simp
    rw [Op.exec_new hx, List.map_nil, List.append_nil]
    refine ⟨fun id entry he => ?_, fun u hu hash id value hfound hawaited => ?_⟩
    · rcases exec_entry hx ha he (fun hash id h => hk.inFlight ht h) hk.filed with
          hself | ⟨old, hold, hsame, hstore⟩
      · exact ⟨t.advance e r (next r), by simp, by rw [hview]; exact hself⟩
      · obtain ⟨u, hu, hacc⟩ := hp.began id old hold
        rcases eq_or_mem_replaced (t.advance e r (next r)) hu with rfl | hu
        · exact ⟨u.advance e r (next r), by simp, by rw [hview]; exact hsame _ (hacc.next ha hstore)⟩
        · exact ⟨u, hu, hsame _ hacc⟩
    · have hkeep : s.Finished id value → s'.Finished id value := by
        intro hf
        apply finished_exec hx _ hf
        intro value' heq
        subst heq
        obtain ⟨⟨hash, hholds⟩, _⟩ := ha
        exact (hk.inFlight ht hholds).2
      rcases eq_or_mem_replaced t hu with rfl | hu
      · rw [hview] at hfound hawaited
        cases e with
        | awaitCompleted i =>
          obtain ⟨_, ⟨hash', _, hf⟩, hw⟩ := ha
          obtain ⟨rfl, entry, he, hc, hv⟩ := Op.exec_awaitCompleted hx
          simp only [Doings.next, Op.found, Op.awaited, hf, hw, List.append_nil, List.nil_append,
            List.cons.injEq, and_true, Prod.mk.injEq] at hfound hawaited
          obtain ⟨_, rfl⟩ := hfound
          exact ⟨entry, he, hc, hv.symm.trans hawaited⟩
        | lookup hash =>
          obtain ⟨_, _, _, hw⟩ := ha
          simp [Doings.next, Op.awaited, hw] at hawaited
        | _ =>
          apply hkeep
          apply hp.answered t ht hash id value
          · simpa [Doings.next, Op.found] using hfound
          · simpa [Doings.next, Op.awaited] using hawaited
      · exact hkeep (hp.answered u hu hash id value hfound hawaited)

theorem sound_of_run {as : List DedupeAction} {p : DedupePool}
    (hg : machine.Guarded Orderly as startPool) (hr : machine.run as startPool = some p) :
    Sound p := by
  refine (always_kept hg).induction hr ⟨fun id e h => ?_, fun t ht => ?_⟩
    fun a q q' hk hq hs => sound_step hk hq hs
  · cases h
  · cases ht

/-- The task runs a computation for the hash. -/
def computing (hash : RequestHash) (t : DedupeTask) : Bool :=
  t.call.hash? == some hash && t.prog.head? == some .compute

/-- When it looked the hash up the caller found a computation that was in flight, and
this is the value of that computation. -/
def Joined (as : List DedupeAction) (p : DedupePool) (i : Nat) (hash : RequestHash)
    (value : String) : Prop :=
  ∃ q id, machine.Moment as startPool i q (.lookup hash) (some id) ∧
    (∃ u ∈ q.tasks, u.call.hash? = some hash ∧ id ∈ u.log Op.began ∧ u.result? = none) ∧
    ∃ u ∈ p.tasks, id ∈ u.log Op.began ∧ value ∈ u.log Op.outcome

section Views

variable {t : DedupeTask}

theorem view_hash (t : DedupeTask) : (t.view monitor).hash = t.call.hash? :=
  Task.view_const monitor Doings.hash (fun _ _ _ => rfl) t

theorem view_began (t : DedupeTask) : (t.view monitor).began = t.log Op.began :=
  (Task.view_log monitor Doings.began Op.began (fun _ _ _ => rfl) t).trans (List.nil_append _)

theorem view_outcome (t : DedupeTask) : (t.view monitor).outcome = t.log Op.outcome :=
  (Task.view_log monitor Doings.outcome Op.outcome (fun _ _ _ => rfl) t).trans (List.nil_append _)

theorem view_found (t : DedupeTask) : (t.view monitor).found = t.log Op.found :=
  (Task.view_log monitor Doings.found Op.found (fun _ _ _ => rfl) t).trans (List.nil_append _)

theorem Doings.Accounts.mem_began {id : EntryId} {e : DedupeEntry}
    (h : (t.view monitor).Accounts id e) : id ∈ t.log Op.began := by
  rw [← view_began, h.2.1]
  exact List.mem_singleton_self id

/-- Whoever is still to store has not returned. -/
theorem result?_eq_none {id : EntryId} (hf : t.Follows monitor)
    (hb : (t.view monitor).began = [id]) (hs : (t.view monitor).stored = []) :
    t.result? = none := by
  cases hr : t.result? with
  | none => rfl
  | some a =>
    have hend : (t.view monitor).Ended a := hf.finished hr
    cases a with
    | none =>
      rw [show (t.view monitor).began = [] from hend] at hb
      cases hb
    | some value =>
      rcases hend with ⟨_, hsame, _⟩ | ⟨hnone, _⟩
      · rw [hs, hb] at hsame
        cases hsame
      · rw [hnone] at hb
        cases hb

end Views

section Runs

variable {as : List DedupeAction} {p : DedupePool} {hash : RequestHash}

theorem computing_le_one (hk : Kept p) : (p.tasks.filter (computing hash)).length ≤ 1 := by
  have hholds : ∀ t ∈ p.tasks, computing hash t = true → ∃ id, (t.view monitor).Holds hash id := by
    intro t ht hc
    obtain ⟨hcall, hhead⟩ := Bool.and_eq_true_iff.mp hc
    have ha : (t.view monitor).Allows .compute :=
      (hk.follows t ht).allowed_head (beq_iff_eq.mp hhead)
    obtain ⟨hash', id, ⟨hhash, hrest⟩, _⟩ := ha
    rw [view_hash, beq_iff_eq.mp hcall] at hhash
    obtain rfl := Option.some.inj hhash
    exact ⟨id, (view_hash t).trans (beq_iff_eq.mp hcall), hrest⟩
  cases hl : p.state.inFlight.lookup hash with
  | none =>
    have hnil : p.tasks.filter (computing hash) = [] := by
      apply List.filter_eq_nil_iff.mpr
      intro t ht hc
      obtain ⟨id, hid⟩ := hholds t ht hc
      rw [(hk.inFlight ht hid).1] at hl
      cases hl
    rw [hnil]
    exact Nat.zero_le 1
  | some id =>
    have hcount : p.tally monitor (heldBy (hash, id)) =
        (p.tasks.filter fun t => decide ((t.view monitor).Holds hash id)).length := by
      apply Pool.tally_count
      intro t _
      simp [heldBy]
    have hle : p.tasks.countP (computing hash) ≤
        p.tasks.countP fun t => decide ((t.view monitor).Holds hash id) := by
      apply List.countP_mono_left
      intro t ht hc
      obtain ⟨id', hid⟩ := hholds t ht hc
      cases hl.symm.trans (hk.inFlight ht hid).1
      exact decide_eq_true hid
    have howed : owedTo (hash, id) p.state ≤ 1 := by
      unfold owedTo
      split
      · exact Nat.le_refl 1
      · exact Nat.zero_le 1
    have hbal := hk.balance (hash, id)
    rw [List.countP_eq_length_filter, List.countP_eq_length_filter] at hle
    omega

/-- In a run whose steps are orderly no two computations of one hash run at a time, and
every caller returns its own computation's value or that of the one it joined. -/
theorem single_execution (hg : machine.Guarded Orderly as startPool)
    (hr : machine.run as startPool = some p) :
    (∀ hash, (p.tasks.filter (computing hash)).length ≤ 1) ∧
    ∀ i t value, p.tasks[i]? = some t → t.result? = some (some value) →
      value ∈ t.log Op.outcome ∨ ∃ hash, t.call.hash? = some hash ∧ Joined as p i hash value := by
  have hk : Kept p := (always_kept hg).last hr
  refine ⟨fun hash => computing_le_one hk, fun i t value hi hres => ?_⟩
  have ht : t ∈ p.tasks := List.mem_of_getElem? hi
  have hend : (t.view monitor).Ended (some value) := (hk.follows t ht).finished hres
  rcases hend with ⟨hown, _⟩ | ⟨_, ⟨hash, id, hhash, hfound⟩, hawaited⟩
  · rw [view_outcome] at hown
    exact Or.inl (by rw [hown]; exact List.mem_singleton_self value)
  refine Or.inr ⟨hash, (view_hash t).symm.trans hhash, ?_⟩
  have hlog : (hash, id) ∈ t.log Op.found := by
    rw [← view_found, hfound]
    exact List.mem_singleton_self _
  rcases Machine.exists_moment hr hi hlog with ⟨u, hu, _⟩ | ⟨q, e, r, hm, hfind⟩
  · cases hu
  cases Op.mem_found hfind
  refine ⟨q, id, hm, ?_, ?_⟩
  · obtain ⟨⟨before, input, after, _, _, rfl, hq, hx⟩, u, hu, hhead⟩ := hm
    have hkq : Kept q := (always_kept hg).at hq
    have hlookup : q.state.inFlight.lookup hash = some id := by
      simp only [machine, Op.exec, Option.some.injEq, Prod.mk.injEq] at hx
      exact hx.1
    obtain ⟨entry, he, hfiled⟩ := hkq.filed hash id hlookup
    have hslot : q.state.slot hash = some entry := by
      unfold RequestDeduplicator.slot
      rw [hlookup]
      exact he
    have hpending : entry.completed = false := (hg.at hq u hu).1 hash hhead entry hslot
    obtain ⟨w, hw, hacc⟩ := (sound_of_run hg.left hq).began id entry he
    have hmem : id ∈ w.log Op.began := hacc.mem_began
    obtain ⟨hwhash, hwbegan, ⟨_, hwstored⟩ | ⟨hc, _⟩⟩ := hacc
    · refine ⟨w, hw, ?_, hmem, result?_eq_none (hkq.follows w hw) hwbegan hwstored⟩
      rw [← view_hash, hwhash, hfiled]
    · rw [hpending] at hc
      cases hc
  · have hs := sound_of_run hg hr
    obtain ⟨entry, he, hc, hv⟩ := hs.answered t ht hash id value hfound hawaited
    obtain ⟨w, hw, hacc⟩ := hs.began id entry he
    have hmem : id ∈ w.log Op.began := hacc.mem_began
    obtain ⟨_, _, ⟨hc', _⟩ | ⟨_, _, value', hres', hout⟩⟩ := hacc
    · rw [hc] at hc'
      cases hc'
    · refine ⟨w, hw, hmem, ?_⟩
      rw [hres'] at hv
      rw [← view_outcome, hout, ← hv]
      exact List.mem_singleton_self _

end Runs

/-- Some turns of one task. -/
def turns (i n : Nat) (env : Env) : List DedupeAction := List.replicate n (.step i env)

/-- Whether a step is orderly, computed. -/
def orderly (a : DedupeAction) (p : DedupePool) : Bool :=
  match a with
  | .start _ => true
  | .step i _ =>
    match p.tasks[i]?.bind fun t => t.prog.head? with
    | some (.lookup hash) => (p.state.slot hash).all fun e => !e.completed
    | some (.insert hash _) | some (.remove hash) => (p.state.slot hash).all fun e => e.completed
    | _ => true

theorem orderly_sound {a : DedupeAction} {p : DedupePool} (h : orderly a p = true) :
    Orderly a p := by
  cases a with
  | start c => trivial
  | step i env =>
    intro t ht
    unfold orderly at h
    simp only [ht, Option.bind_some] at h
    refine ⟨fun hash hhead e he => ?_, fun hash nowMs hhead e he => ?_, fun hash hhead e he => ?_⟩
    · simpa [hhead, he] using h
    · simpa [hhead, he] using h
    · simpa [hhead, he] using h

/-- A caller comes while another one computes the same key. -/
def joining : List DedupeAction :=
  .start (.getOrCompute "key" 0) :: .start (.getOrCompute "key" 5) :: turns 0 3 {} ++
    turns 1 4 {} ++ turns 0 2 { output := "value" } ++ turns 1 1 {}

theorem joining_computes_once : ∃ p, machine.run joining startPool = some p ∧
    (∀ hash, (p.tasks.filter (computing hash)).length ≤ 1) ∧
    ∀ i t value, p.tasks[i]? = some t → t.result? = some (some value) →
      value ∈ t.log Op.outcome ∨
        ∃ hash, t.call.hash? = some hash ∧ Joined joining p i hash value := by
  have hg : machine.Guarded Orderly joining startPool :=
    Machine.guarded_of_check (fun _ _ => orderly_sound) (show machine.check orderly _ _ = true by
      decide +kernel)
  have hr : (machine.run joining startPool).isSome = true := by decide +kernel
  obtain ⟨p, hp⟩ := Option.isSome_iff_exists.mp hr
  exact ⟨p, hp, single_execution hg hp⟩

/-- Two callers that both look before either inserts. -/
def racing : List DedupeAction :=
  .start (.getOrCompute "key" 0) :: .start (.getOrCompute "key" 0) :: turns 0 2 {} ++
    turns 1 2 {} ++ turns 0 1 {} ++ turns 1 1 {}

/-- Both of them compute. -/
theorem racing_computes_twice : ¬ ∀ as p, machine.run as startPool = some p →
    (∀ hash, (p.tasks.filter (computing hash)).length ≤ 1) ∧
    ∀ i t value, p.tasks[i]? = some t → t.result? = some (some value) →
      value ∈ t.log Op.outcome ∨
        ∃ hash, t.call.hash? = some hash ∧ Joined as p i hash value := by
  intro h
  have hr : (machine.run racing startPool).any (fun p =>
      (p.tasks.filter (computing (hashRequest "key"))).length == 2) = true := by decide +kernel
  obtain ⟨p, hp, htwo⟩ := (Option.any_eq_true _ _).mp hr
  have hone := (h racing p hp).1 (hashRequest "key")
  rw [beq_iff_eq.mp htwo] at hone
  omega

end HelixRouter.Deduplication
