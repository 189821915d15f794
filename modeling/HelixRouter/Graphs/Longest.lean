import HelixRouter.Containers.Retain
import Mathlib.Data.List.Chain
import Mathlib.Data.List.Nodup

namespace HelixRouter.Graphs

variable {α : Type} [DecidableEq α]

/-- For each node the length of a chain that ends in it, and the node before it there. -/
abbrev Chart (α : Type) := AList (fun _ : α => Nat × Option α)

namespace Chart

def len (dp : Chart α) (y : α) : Nat := ((dp.lookup y).map Prod.fst).getD 0

def pred (dp : Chart α) (y : α) : Option α := (dp.lookup y).bind Prod.snd

/-- A chain of `len` edges to `node` goes on to a node that it is longer for. -/
def relax (node : α) (len : Nat) (dp : Chart α) (y : α) : Chart α :=
  match dp.lookup y with
  | none => dp
  | some entry => if len + 1 > entry.1 then dp.insert y (len + 1, some node) else dp

/-- Goes on from one node to all its successors. -/
def extend (succ : α → List α) (dp : Chart α) (node : α) : Chart α :=
  (succ node).foldl (relax node (dp.len node)) dp

/-- Goes back from a node along the chain that ends in it, the last node first. -/
def follow (dp : Chart α) : Nat → α → Option (List α)
  | 0, _ => none
  | n + 1, x =>
    match dp.pred x with
    | none => some [x]
    | some a => (dp.follow n a).map (x :: ·)

/-- The longer of a chain and one that comes from a node, the old one if they are equal. -/
def longer (node : α) (len : Nat) (entry : Nat × Option α) : Nat × Option α :=
  if len + 1 > entry.1 then (len + 1, some node) else entry

omit [DecidableEq α] in
theorem longer_longer (node : α) (len : Nat) (entry : Nat × Option α) :
    longer node len (longer node len entry) = longer node len entry := by
  by_cases h : len + 1 > entry.1
  · have heq : longer node len entry = (len + 1, some node) := if_pos h
    rw [heq]
    exact if_neg (Nat.lt_irrefl _)
  · have heq : longer node len entry = entry := if_neg h
    rw [heq]
    exact heq

theorem lookup_relax (node : α) (len : Nat) (dp : Chart α) (z y : α) :
    (relax node len dp z).lookup y =
      if y = z then (dp.lookup y).map (longer node len) else dp.lookup y := by
  rw [relax]
  by_cases hy : y = z
  · subst hy
    rw [if_pos rfl]
    cases hl : dp.lookup y with
    | none => exact hl
    | some entry =>
      by_cases hlt : len + 1 > entry.1
      · rw [Option.map_some, longer, if_pos hlt]
        exact (congrArg (AList.lookup y) (if_pos hlt)).trans (AList.lookup_insert _)
      · rw [Option.map_some, longer, if_neg hlt]
        exact (congrArg (AList.lookup y) (if_neg hlt)).trans hl
  · rw [if_neg hy]
    cases dp.lookup z with
    | none => rfl
    | some entry =>
      by_cases hlt : len + 1 > entry.1
      · exact (congrArg (AList.lookup y) (if_pos hlt)).trans (AList.lookup_insert_ne hy)
      · exact congrArg (AList.lookup y) (if_neg hlt)

theorem lookup_foldl_relax (node : α) (len : Nat) (ys : List α) (dp : Chart α) (y : α) :
    (ys.foldl (relax node len) dp).lookup y =
      if y ∈ ys then (dp.lookup y).map (longer node len) else dp.lookup y := by
  induction ys generalizing dp with
  | nil => rfl
  | cons z ys ih =>
    rw [List.foldl_cons, ih, lookup_relax]
    by_cases hy : y = z
    · have hin : y ∈ z :: ys := hy ▸ List.mem_cons_self
      rw [if_pos hy, if_pos hin, Option.map_map]
      have hsame : longer node len ∘ longer node len = longer node len :=
        funext fun entry => longer_longer node len entry
      rw [hsame, ite_self]
    · rw [if_neg hy]
      simp only [List.mem_cons, hy, false_or]

variable (succ : α → List α) (nodes : List α)

/-- The chart after some nodes have been gone on from: it leads back along edges between
them, and no edge from one of them leads to a shorter chain. -/
structure Charted (done : List α) (dp : Chart α) : Prop where
  known : ∀ y, (dp.lookup y).isSome ↔ y ∈ nodes
  first : ∀ y, dp.pred y = none → dp.len y = 0
  link : ∀ y a, dp.pred y = some a → a ∈ done ∧ y ∈ succ a ∧ dp.len y = dp.len a + 1
  grows : ∀ a ∈ done, ∀ y ∈ succ a, y ∈ nodes → dp.len a < dp.len y

variable {succ nodes} {dp : Chart α} {done : List α} {x y : α}

theorem lookup_extend (succ : α → List α) (dp : Chart α) (x y : α) :
    (dp.extend succ x).lookup y =
      if y ∈ succ x then (dp.lookup y).map (longer x (dp.len x)) else dp.lookup y :=
  lookup_foldl_relax ..

theorem isSome_extend (dp : Chart α) (x y : α) :
    ((dp.extend succ x).lookup y).isSome = (dp.lookup y).isSome := by
  rw [lookup_extend]
  split
  · exact Option.isSome_map
  · rfl

theorem extend_of_notMem (h : y ∉ succ x) :
    (dp.extend succ x).len y = dp.len y ∧ (dp.extend succ x).pred y = dp.pred y := by
  have hlookup := lookup_extend succ dp x y
  rw [if_neg h] at hlookup
  exact ⟨by rw [len, hlookup, len], by rw [pred, hlookup, pred]⟩

theorem extend_of_mem (h : y ∈ succ x) (hy : (dp.lookup y).isSome) :
    (dp.extend succ x).len y = max (dp.len y) (dp.len x + 1) ∧
      (dp.extend succ x).pred y =
        if dp.len x + 1 > dp.len y then some x else dp.pred y := by
  obtain ⟨entry, hentry⟩ := Option.isSome_iff_exists.mp hy
  have hlen : dp.len y = entry.1 := by rw [len, hentry]; rfl
  have hpred : dp.pred y = entry.2 := by rw [pred, hentry]; rfl
  have hlookup := lookup_extend succ dp x y
  rw [if_pos h, hentry, Option.map_some] at hlookup
  rw [hlen, hpred, len, pred, hlookup]
  by_cases hlt : dp.len x + 1 > entry.1
  · rw [longer, if_pos hlt, if_pos hlt]
    exact ⟨(Nat.max_eq_right (Nat.le_of_lt hlt)).symm, rfl⟩
  · rw [longer, if_neg hlt, if_neg hlt]
    exact ⟨(Nat.max_eq_left (Nat.le_of_not_lt hlt)).symm, rfl⟩

/-- A node keeps its chain, unless the new one is longer. -/
theorem extend_cases (succ : α → List α) (dp : Chart α) (x y : α) :
    (dp.extend succ x).len y = dp.len y ∧ (dp.extend succ x).pred y = dp.pred y ∨
      y ∈ succ x ∧ dp.len y ≤ dp.len x ∧ (dp.extend succ x).len y = dp.len x + 1 ∧
        (dp.extend succ x).pred y = some x := by
  by_cases hy : y ∈ succ x
  · cases hl : dp.lookup y with
    | none =>
      left
      have hlookup : (dp.extend succ x).lookup y = none := by
        rw [lookup_extend, if_pos hy, hl, Option.map_none]
      exact ⟨by rw [len, hlookup, len, hl], by rw [pred, hlookup, pred, hl]⟩
    | some entry =>
      obtain ⟨hlen, hpred⟩ := extend_of_mem hy (Option.isSome_of_eq_some hl)
      by_cases hlt : dp.len x + 1 > dp.len y
      · right
        rw [if_pos hlt] at hpred
        exact ⟨hy, Nat.le_of_lt_succ hlt, hlen.trans (Nat.max_eq_right (Nat.le_of_lt hlt)), hpred⟩
      · left
        rw [if_neg hlt] at hpred
        exact ⟨hlen.trans (Nat.max_eq_left (Nat.le_of_not_lt hlt)), hpred⟩
  · left
    exact extend_of_notMem hy

theorem len_le_extend (succ : α → List α) (dp : Chart α) (x y : α) :
    dp.len y ≤ (dp.extend succ x).len y := by
  rcases extend_cases succ dp x y with ⟨hlen, _⟩ | ⟨_, hle, hlen, _⟩
  · exact hlen.ge
  · rw [hlen]
    exact Nat.le_succ_of_le hle

/-- The nodes gone on from already keep their chains. -/
theorem Charted.extend (h : Charted succ nodes done dp) (hx : x ∉ succ x)
    (hdone : ∀ a ∈ done, a ∉ succ x) : Charted succ nodes (done ++ [x]) (dp.extend succ x) := by
  have hkept : ∀ a ∈ done ++ [x], (dp.extend succ x).len a = dp.len a := by
    intro a ha
    apply (extend_of_notMem ?_).1
    rcases List.mem_append.mp ha with ha | ha
    · exact hdone a ha
    · rwa [List.mem_singleton.mp ha]
  refine ⟨fun y => ?_, fun y hy => ?_, fun y a hya => ?_, fun a ha y hy hyn => ?_⟩
  · rw [isSome_extend, h.known]
  · rcases extend_cases succ dp x y with ⟨hlen, hpred⟩ | ⟨_, _, _, hpred⟩
    · rw [hlen, h.first y (hpred.symm.trans hy)]
    · rw [hpred] at hy
      contradiction
  · rcases extend_cases succ dp x y with ⟨hlen, hpred⟩ | ⟨hedge, _, hlen, hpred⟩
    · obtain ⟨ha, hedge, heq⟩ := h.link y a (hpred.symm.trans hya)
      have ha : a ∈ done ++ [x] := List.mem_append_left _ ha
      exact ⟨ha, hedge, by rw [hlen, heq, hkept a ha]⟩
    · cases hpred.symm.trans hya
      have hin : x ∈ done ++ [x] := by simp
      exact ⟨hin, hedge, by rw [hlen, hkept x hin]⟩
  · rw [hkept a ha]
    rcases List.mem_append.mp ha with ha | ha
    · exact Nat.lt_of_lt_of_le (h.grows a ha y hy hyn) (len_le_extend ..)
    · cases List.mem_singleton.mp ha
      rw [(extend_of_mem hy ((h.known y).mpr hyn)).1]
      exact Nat.lt_of_lt_of_le (Nat.lt_succ_self _) (Nat.le_max_right _ _)

/-- Along a topological order the chart is completed. -/
theorem Charted.foldl {rest : List α} (h : Charted succ nodes done dp)
    (hd : (done ++ rest).Nodup)
    (hsorted : ∀ before x after, done ++ rest = before ++ x :: after →
      ∀ a, x ∈ succ a → a ∈ before) :
    Charted succ nodes (done ++ rest) (rest.foldl (Chart.extend succ) dp) := by
  induction rest generalizing done dp with
  | nil => simpa using h
  | cons x rest ih =>
    have hnot : x ∉ done := by
      intro hx
      exact (List.nodup_append.mp hd).2.2 x hx x (by simp) rfl
    have hself : x ∉ succ x := fun hx => hnot (hsorted done x rest rfl x hx)
    have hdone : ∀ a ∈ done, a ∉ succ x := by
      intro a ha hax
      obtain ⟨before, after, rfl⟩ := List.append_of_mem ha
      have hx := hsorted before a (after ++ x :: rest) (by simp) x hax
      exact hnot (List.mem_append_left _ hx)
    rw [List.foldl_cons, List.append_cons]
    exact ih (h.extend hself hdone) (by simpa using hd) (by simpa using hsorted)

/-- Where the chart starts: with a chain of no edges for each node. -/
theorem charted_start {dp : Chart α}
    (h : ∀ y, dp.lookup y = if y ∈ nodes then some (0, none) else none) :
    Charted succ nodes [] dp := by
  refine ⟨fun y => ?_, fun y _ => ?_, fun y a hya => ?_, by simp⟩
  · rw [h]
    split <;> simp [*]
  · rw [len, h]
    split <;> rfl
  · rw [pred, h] at hya
    split at hya <;> simp at hya

/-- A chain over nodes gone on from is no longer than the chart says of its end. -/
theorem Charted.length_le (h : Charted succ nodes done dp) (hsub : ∀ a ∈ done, a ∈ nodes)
    {c : List α} {y : α} (hc : (c ++ [y]).IsChain (fun a b => b ∈ succ a))
    (hdone : ∀ a ∈ c, a ∈ done) (hy : y ∈ nodes) : c.length ≤ dp.len y := by
  induction c using List.reverseRecOn generalizing y with
  | nil => exact Nat.zero_le _
  | append_singleton c x ih =>
    have hx : x ∈ done := hdone x (by simp)
    have hpre : (c ++ [x]).IsChain (fun a b => b ∈ succ a) := hc.left_of_append
    have hedge : y ∈ succ x := by
      rw [List.append_assoc] at hc
      have hend : [x, y].IsChain (fun a b => b ∈ succ a) := hc.right_of_append
      simpa using hend
    have hle := ih hpre (fun a ha => hdone a (by simp [ha])) (hsub x hx)
    have hlt := h.grows x hx y hedge hy
    rw [List.length_append, List.length_singleton]
    omega

/-- Going back ends at the start of a chain that is as long as the chart says. -/
theorem Charted.follow (h : Charted succ nodes done dp) {n : Nat} (hn : dp.len x < n) :
    ∃ back, dp.follow n x = some (x :: back) ∧ back.length = dp.len x ∧
      (∀ a ∈ back, a ∈ done) ∧ (x :: back).IsChain (fun a b => a ∈ succ b) ∧
      (x :: back).IsChain (fun a b => dp.len b < dp.len a) := by
  induction n generalizing x with
  | zero => omega
  | succ n ih =>
    rw [Chart.follow]
    cases hp : dp.pred x with
    | none => exact ⟨[], rfl, (h.first x hp).symm, by simp, .singleton x, .singleton x⟩
    | some a =>
      obtain ⟨ha, hedge, hlen⟩ := h.link x a hp
      obtain ⟨back, hback, hlength, hdone, hchain, hdown⟩ := ih (x := a) (by omega)
      refine ⟨a :: back, by simp [hback], by simp [hlength, hlen], ?_, hchain.cons_cons hedge,
        hdown.cons_cons (by omega)⟩
      intro b hb
      rcases List.mem_cons.mp hb with rfl | hb
      · exact ha
      · exact hdone b hb

/-- Turned round, what going back gives is a chain without repetition. -/
theorem Charted.exists_chain (h : Charted succ nodes done dp) (hsub : ∀ a ∈ done, a ∈ nodes)
    (hx : x ∈ nodes) :
    ∃ c, (dp.follow (dp.len x + 1) x).map List.reverse = some c ∧ c.Nodup ∧
      c.length = dp.len x + 1 ∧ c.IsChain (fun a b => b ∈ succ a) ∧ (∀ a ∈ c, a ∈ nodes) ∧
      ∀ a ∈ c.dropLast, a ∈ done := by
  obtain ⟨back, hback, hlength, hdone, hchain, hdown⟩ := h.follow (Nat.lt_succ_self (dp.len x))
  refine ⟨(x :: back).reverse, by rw [hback, Option.map_some], ?_, by simp [hlength], ?_, ?_, ?_⟩
  · rw [List.nodup_reverse]
    -- The lengths fall along the way back, so no node comes twice.
    have hfalls := List.isChain_iff_pairwise.mp hdown
    apply hfalls.imp
    rintro a b hlt rfl
    exact Nat.lt_irrefl _ hlt
  · rw [List.isChain_reverse]
    exact hchain
  · intro a ha
    rcases List.mem_cons.mp (List.mem_reverse.mp ha) with rfl | ha
    · exact hx
    · exact hsub a (hdone a ha)
  · intro a ha
    rw [List.reverse_cons, List.dropLast_concat] at ha
    exact hdone a (List.mem_reverse.mp ha)

theorem Charted.exists_entry (h : Charted succ nodes done dp) {y : α} (hy : y ∈ nodes) :
    ∃ p, ⟨y, dp.len y, p⟩ ∈ dp.entries := by
  obtain ⟨⟨l, p⟩, hl⟩ := Option.isSome_iff_exists.mp ((h.known y).mpr hy)
  have hlen : dp.len y = l := by rw [len, hl]; rfl
  exact ⟨p, hlen ▸ AList.mem_lookup_iff.mp hl⟩

theorem Charted.of_entry (h : Charted succ nodes done dp) {len : Nat} {p : Option α}
    (hx : ⟨x, len, p⟩ ∈ dp.entries) : x ∈ nodes ∧ dp.len x = len := by
  have hl : dp.lookup x = some (len, p) := AList.mem_lookup_iff.mpr hx
  exact ⟨(h.known x).mp (Option.isSome_of_eq_some hl), by rw [Chart.len, hl]; rfl⟩

end Chart

end HelixRouter.Graphs
