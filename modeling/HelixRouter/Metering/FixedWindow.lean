import HelixRouter.Metering.Limiter
import Mathlib.Algebra.Order.Group.Nat
import Mathlib.Data.List.Chain
import Mathlib.Data.List.Sort
import Mathlib.Data.List.TakeWhile

namespace HelixRouter.Metering

/-- No more than a number of times fall into any span. -/
def Bounded (span n : Nat) (log : List Nat) : Prop :=
  ∀ start, (log.countP fun t => start ≤ t && t < start + span) ≤ n

/-- Counts the requests of a window, which ends with the first request a span after its start.
Whether a request passes depends on its place in the window. -/
def fixedWindow (span : Nat) (pass : Nat → Bool) : Limiter (Option (Nat × Nat)) Nat
  | none, t => (pass 1, some (t, 1))
  | some (start, count), t =>
    if start + span ≤ t then (pass 1, some (t, 1))
    else (pass (count + 1), some (start, count + 1))

/-- The requests, window by window. -/
def windows (span : Nat) : List Nat → List (List Nat)
  | [] => []
  | t :: ts =>
    (t :: ts.takeWhile (· < t + span)) :: windows span (ts.dropWhile (· < t + span))
termination_by ts => ts.length
decreasing_by
  have := List.length_dropWhile_le (· < t + span) ts
  simp only [List.length_cons]
  omega

/-- Those of a window that pass, where some requests stand before them in it. -/
def placed (pass : Nat → Bool) : Nat → List Nat → List Nat
  | _, [] => []
  | k, t :: ts => if pass (k + 1) then t :: placed pass (k + 1) ts else placed pass (k + 1) ts

theorem placed_cons {pass : Nat → Bool} {k t : Nat} {ts : List Nat} : placed pass k (t :: ts) =
    if pass (k + 1) then t :: placed pass (k + 1) ts else placed pass (k + 1) ts := rfl

theorem windows_nil {span : Nat} : windows span [] = [] := by rw [windows]

theorem windows_cons {span t : Nat} {ts : List Nat} : windows span (t :: ts) =
    (t :: ts.takeWhile (· < t + span)) :: windows span (ts.dropWhile (· < t + span)) := by
  rw [windows]

/-- When a request comes that is among the first of its window, so few of the first requests
of the window before are less than a span old that it does not make too many. -/
def Apart (span n : Nat) (v w : List Nat) : Prop :=
  ∀ before t later, w.take n = before ++ t :: later →
    ((v.take n).countP fun u => t < u + span) + before.length < n

/-- Only the first requests of a window pass, and those of two windows in a row are apart. -/
structure Spaced (span n : Nat) (pass : Nat → Bool) (ws : List (List Nat)) : Prop where
  refused : ∀ w ∈ ws, ∀ k, n < k → k ≤ w.length → pass k = false
  apart : ws.IsChain (Apart span n)

section Splits

variable {α : Type} {P : List α → α → Prop} {l₁ l₂ : List α}

/-- What holds at every place of two lists in a row, with what stands before it. -/
theorem forall_split_append_iff :
    (∀ before a later, l₁ ++ l₂ = before ++ a :: later → P before a) ↔
      (∀ before a later, l₁ = before ++ a :: later → P before a) ∧
        ∀ before a later, l₂ = before ++ a :: later → P (l₁ ++ before) a := by
  constructor
  · intro h
    refine ⟨fun before a later he => h before a (later ++ l₂) (by simp [he]), ?_⟩
    intro before a later he
    exact h (l₁ ++ before) a later (by simp [he])
  · rintro ⟨h₁, h₂⟩ before a later he
    rcases List.append_eq_append_iff.mp he with ⟨rest, rfl, hrest⟩ | ⟨rest, hrest, he'⟩
    · exact h₂ rest a later hrest
    · cases rest with
      | nil =>
        have hbefore := h₂ [] a later he'.symm
        rw [List.append_nil, hrest, List.append_nil] at hbefore
        exact hbefore
      | cons b rest =>
        obtain ⟨rfl, -⟩ := List.cons.inj he'
        exact h₁ before a rest hrest

end Splits

section Bounded

variable {span n : Nat} {log : List Nat}

/-- A log is bounded where at every time in it few times before are less than a span old. -/
theorem bounded_iff_splits (hspan : 0 < span) (ordered : log.Pairwise (· ≤ ·)) :
    Bounded span n log ↔
      ∀ before t later, log = before ++ t :: later →
        (before.countP fun u => t < u + span) < n := by
  induction log using List.reverseRecOn with
  | nil =>
    refine iff_of_true (fun _ => Nat.zero_le n) fun before t later he => ?_
    simp at he
  | append_singleton log t ih =>
    obtain ⟨hlog, -, hlast⟩ := List.pairwise_append.mp ordered
    have hle : ∀ u ∈ log, u ≤ t := fun u hu => hlast u hu t (List.mem_singleton_self t)
    rw [Limiter.forall_split_concat_iff (P := fun before t => (before.countP fun u => t < u + span) < n),
      ← ih hlog]
    simp only [Bounded, List.countP_append, List.countP_singleton]
    constructor
    · intro h
      refine ⟨fun start => (Nat.le_add_right _ _).trans (h start), ?_⟩
      have hstart := h (t + 1 - span)
      rw [if_pos (by rw [Bool.and_eq_true, decide_eq_true_eq, decide_eq_true_eq]; omega)] at hstart
      refine Nat.lt_of_lt_of_le (Nat.lt_succ_of_le ?_) hstart
      refine List.countP_mono_left fun u hu hin => ?_
      have hut := hle u hu
      simp only [Bool.and_eq_true, decide_eq_true_eq] at hin ⊢
      omega
    · rintro ⟨hold, hnew⟩ start
      split
      · rename_i hin
        have hcount : (log.countP fun u => start ≤ u && u < start + span) ≤
            log.countP fun u => t < u + span := by
          apply List.countP_mono_left
          intro u _ hu
          simp only [Bool.and_eq_true, decide_eq_true_eq] at hu hin ⊢
          omega
        omega
      · exact hold start

end Bounded

section Windows

variable {span n start k : Nat} {pass : Nat → Bool} {ts rest : List Nat}

theorem placed_append : placed pass k (ts ++ rest) =
    placed pass k ts ++ placed pass (k + ts.length) rest := by
  induction ts generalizing k with
  | nil => rfl
  | cons t ts ih =>
    rw [List.cons_append, placed_cons, placed_cons, ih, List.length_cons, Nat.add_right_comm k 1,
      ← Nat.add_assoc]
    split <;> rfl

theorem placed_sublist : (placed pass k ts).Sublist ts := by
  induction ts generalizing k with
  | nil => exact List.Sublist.refl _
  | cons t ts ih =>
    rw [placed_cons]
    split
    · exact ih.cons_cons t
    · exact ih.cons t

theorem placed_eq_self (h : ∀ i, k < i → i ≤ k + ts.length → pass i = true) :
    placed pass k ts = ts := by
  induction ts generalizing k with
  | nil => rfl
  | cons t ts ih =>
    rw [List.length_cons] at h
    rw [placed_cons, if_pos (h (k + 1) (by omega) (by omega)), ih]
    intro i hi hle
    exact h i (by omega) (by omega)

theorem placed_eq_nil (h : ∀ i, k < i → i ≤ k + ts.length → pass i = false) :
    placed pass k ts = [] := by
  induction ts generalizing k with
  | nil => rfl
  | cons t ts ih =>
    rw [List.length_cons] at h
    rw [placed_cons, h (k + 1) (by omega) (by omega), if_neg (nofun), ih]
    intro i hi hle
    exact h i (by omega) (by omega)

theorem placed_ne_nil {i : Nat} (hk : k < i) (hi : i ≤ k + ts.length) (hp : pass i = true) :
    placed pass k ts ≠ [] := by
  induction ts generalizing k with
  | nil =>
    rw [List.length_nil] at hi
    omega
  | cons t ts ih =>
    rw [List.length_cons] at hi
    rw [placed_cons]
    split
    · exact List.cons_ne_nil _ _
    · rename_i hrefused
      refine ih (Nat.lt_of_le_of_ne hk ?_) (by omega)
      rintro rfl
      exact hrefused hp

/-- The first requests of a window pass. -/
theorem placed_take (hpass : ∀ k, 0 < k → k ≤ n → pass k = true) :
    placed pass 0 ts = ts.take n ++ placed pass (ts.take n).length (ts.drop n) := by
  conv_lhs => rw [← List.take_append_drop n ts, placed_append]
  rw [Nat.zero_add, placed_eq_self]
  intro i hi hle
  have hlen := List.length_take_le n ts
  exact hpass i hi (by omega)

theorem placed_eq_take (hpass : ∀ k, 0 < k → k ≤ n → pass k = true)
    (hrefused : ∀ k, n < k → k ≤ ts.length → pass k = false) : placed pass 0 ts = ts.take n := by
  rw [placed_take hpass, placed_eq_nil, List.append_nil]
  intro i hi hle
  rw [List.length_take, List.length_drop] at hle
  rw [List.length_take] at hi
  exact hrefused i (by omega) (by omega)

theorem lt_length_placed (hpass : ∀ k, 0 < k → k ≤ n → pass k = true) (hn : n < k)
    (hk : k ≤ ts.length) (hp : pass k = true) : n < (placed pass 0 ts).length := by
  have hlen : (ts.take n).length = n := by
    rw [List.length_take]
    omega
  have hmore : placed pass n (ts.drop n) ≠ [] := by
    apply placed_ne_nil (i := k) hn _ hp
    rw [List.length_drop]
    omega
  rw [placed_take hpass, List.length_append, hlen]
  exact Nat.lt_add_of_pos_right (List.length_pos_iff.mpr hmore)

/-- Within a window the requests are let through by their places. -/
theorem admitted_within (pass : Nat → Bool) (k : Nat) (rest : List Nat)
    (h : ∀ t ∈ ts, t < start + span) : Limiter.admitted (fixedWindow span pass) (some (start, k)) (ts ++ rest) =
      placed pass k ts ++
        Limiter.admitted (fixedWindow span pass) (some (start, k + ts.length)) rest := by
  induction ts generalizing k with
  | nil => rfl
  | cons t ts ih =>
    obtain ⟨ht, hts⟩ := List.forall_mem_cons.mp h
    have hstay : fixedWindow span pass (some (start, k)) t =
        (pass (k + 1), some (start, k + 1)) := if_neg (Nat.not_le.mpr ht)
    rw [List.cons_append, Limiter.admitted, hstay, ih _ hts, placed_cons, List.length_cons,
      Nat.add_right_comm k 1, ← Nat.add_assoc]
    dsimp only
    split <;> rfl

theorem admitted_over (h : ∀ t ∈ rest.head?, start + span ≤ t) :
    Limiter.admitted (fixedWindow span pass) (some (start, k)) rest =
      Limiter.admitted (fixedWindow span pass) none rest := by
  cases rest with
  | nil => rfl
  | cons t rest =>
    have hnew : fixedWindow span pass (some (start, k)) t = fixedWindow span pass none t :=
      if_pos (h t rfl)
    rw [Limiter.admitted, hnew]
    rfl

theorem head?_dropWhile_le (start span : Nat) (ts : List Nat) :
    ∀ t ∈ (ts.dropWhile (· < start + span)).head?, start + span ≤ t := by
  intro t ht
  have hnot := List.head?_dropWhile_not (· < start + span) ts
  rw [Option.mem_def.mp ht] at hnot
  simpa using hnot

theorem admitted_eq_flatMap (ts : List Nat) :
    Limiter.admitted (fixedWindow span pass) none ts = (windows span ts).flatMap (placed pass 0) := by
  induction ts using windows.induct span with
  | case1 =>
    rw [windows_nil]
    rfl
  | case2 t ts ih =>
    have hwithin : ∀ u ∈ ts.takeWhile (· < t + span), u < t + span := by
      intro u hu
      simpa using List.mem_takeWhile_imp hu
    have hrest := admitted_within pass 1 (ts.dropWhile (· < t + span)) hwithin
    rw [List.takeWhile_append_dropWhile, admitted_over (head?_dropWhile_le t span ts), ih] at hrest
    have hfirst : fixedWindow span pass none t = (pass 1, some (t, 1)) := rfl
    rw [windows_cons, List.flatMap_cons, Limiter.admitted, hfirst, placed_cons]
    dsimp only
    rw [hrest]
    split <;> rfl

theorem sublist_flatMap_placed (ts : List Nat) :
    ((windows span ts).flatMap (placed pass 0)).Sublist ts := by
  rw [← admitted_eq_flatMap]
  exact Limiter.admitted_sublist

theorem mem_window {w : List Nat} (hw : w ∈ windows span ts) (hspan : 0 < span)
    (ordered : ts.Pairwise (· ≤ ·)) : ∃ start, ∀ t ∈ w, start ≤ t ∧ t < start + span := by
  induction ts using windows.induct span with
  | case1 =>
    rw [windows_nil] at hw
    cases hw
  | case2 t ts ih =>
    obtain ⟨hfirst, hts⟩ := List.pairwise_cons.mp ordered
    rw [windows_cons] at hw
    rcases List.mem_cons.mp hw with rfl | hw
    · refine ⟨t, List.forall_mem_cons.mpr ⟨⟨Nat.le_refl t, Nat.lt_add_of_pos_right hspan⟩, ?_⟩⟩
      intro u hu
      refine ⟨hfirst u ((List.takeWhile_sublist _).subset hu), ?_⟩
      simpa using List.mem_takeWhile_imp hu
    · exact ih hw (hts.sublist (List.dropWhile_sublist _))

/-- What comes after a window comes a span after its start. -/
theorem le_of_mem_dropWhile (start span : Nat) (ordered : ts.Pairwise (· ≤ ·)) :
    ∀ t ∈ ts.dropWhile (· < start + span), start + span ≤ t := by
  intro t ht
  have hrest := ordered.sublist (List.dropWhile_sublist (· < start + span))
  have hhead := head?_dropWhile_le start span ts
  cases hdrop : ts.dropWhile (· < start + span) with
  | nil =>
    rw [hdrop] at ht
    cases ht
  | cons d ds =>
    rw [hdrop] at ht hrest hhead
    have hd := hhead d rfl
    rcases List.mem_cons.mp ht with rfl | hds
    · exact hd
    · exact hd.trans ((List.pairwise_cons.mp hrest).1 t hds)

/-- What would pass if the first requests of each window did is bounded where the windows are
apart. Before the window `v` there are only requests that are a span old by now. -/
theorem splits_iff_isChain (older v : List Nat) (hspan : 0 < span)
    (ordered : ts.Pairwise (· ≤ ·)) (holder : ∀ u ∈ older, ∀ t ∈ ts, u + span ≤ t) (hv : ∀ u ∈ v, ∀ t ∈ ts, u ≤ t) :
    (∀ before t later, (windows span ts).flatMap (·.take n) = before ++ t :: later →
        ((older ++ v.take n ++ before).countP fun u => t < u + span) < n) ↔
      (v :: windows span ts).IsChain (Apart span n) := by
  induction ts using windows.induct span generalizing older v with
  | case1 =>
    rw [windows_nil]
    refine iff_of_true (fun before t later he => ?_) (List.isChain_singleton v)
    simp at he
  | case2 t ts ih =>
    obtain ⟨hfirst, hts⟩ := List.pairwise_cons.mp ordered
    have hsub := List.dropWhile_sublist (· < t + span) (l := ts)
    have hlate := le_of_mem_dropWhile t span hts
    have hwindow : ∀ u ∈ t :: ts.takeWhile (· < t + span), u < t + span ∧ t ≤ u := by
      refine List.forall_mem_cons.mpr ⟨⟨Nat.lt_add_of_pos_right hspan, Nat.le_refl t⟩, ?_⟩
      intro u hu
      exact ⟨by simpa using List.mem_takeWhile_imp hu,
        hfirst u ((List.takeWhile_sublist _).subset hu)⟩
    have hmem : ∀ u ∈ t :: ts.takeWhile (· < t + span), u ∈ t :: ts := fun u hu =>
      ((List.takeWhile_sublist _).cons_cons t).subset hu
    rw [windows_cons, List.flatMap_cons, forall_split_append_iff, List.isChain_cons_cons]
    refine and_congr ?_ ?_
    · -- of what passed before only the window before and this one count
      refine forall_congr' fun before => forall_congr' fun a => forall_congr' fun later =>
        forall_congr' fun he => ?_
      have htake : ∀ u ∈ before ++ a :: later, u ∈ t :: ts.takeWhile (· < t + span) := by
        intro u hu
        exact List.mem_of_mem_take (he ▸ hu)
      have ha := htake a (by simp)
      have hold : (older.countP fun u => a < u + span) = 0 := by
        rw [List.countP_eq_zero]
        intro u hu
        have hua := holder u hu a (hmem a ha)
        simpa using hua
      have hnew : (before.countP fun u => a < u + span) = before.length := by
        rw [List.countP_eq_length]
        intro u hu
        have hu := hwindow u (htake u (List.mem_append_left _ hu))
        have ha := hwindow a ha
        rw [decide_eq_true_eq]
        omega
      rw [List.countP_append, List.countP_append, hold, hnew, Nat.zero_add]
    · have holder' : ∀ u ∈ older ++ v.take n, ∀ a ∈ ts.dropWhile (· < t + span), u + span ≤ a := by
        intro u hu a ha
        rcases List.mem_append.mp hu with hu | hu
        · exact holder u hu a (List.mem_cons_of_mem t (hsub.subset ha))
        · have hut := hv u (List.mem_of_mem_take hu) t List.mem_cons_self
          have hta := hlate a ha
          omega
      rw [← ih _ _ (hts.sublist hsub) holder'
        fun u hu a ha => (hwindow u hu).1.le.trans (hlate a ha)]
      simp only [List.append_assoc]

/-- What a fixed window lets through is bounded just where the windows are spaced, if the first
requests of a window pass. -/
theorem bounded_fixedWindow_iff (hspan : 0 < span) (hpass : ∀ k, 0 < k → k ≤ n → pass k = true)
    (ordered : ts.Pairwise (· ≤ ·)) :
    Bounded span n (Limiter.admitted (fixedWindow span pass) none ts) ↔
      Spaced span n pass (windows span ts) := by
  -- the first window has none before it
  have hchain : (∀ before t later, (windows span ts).flatMap (·.take n) = before ++ t :: later →
      (before.countP fun u => t < u + span) < n) ↔ (windows span ts).IsChain (Apart span n) := by
    have hiff := splits_iff_isChain (n := n) [] [] hspan ordered (by simp) (by simp)
    rw [List.isChain_cons, and_iff_right] at hiff
    · simpa using hiff
    · intro w _ before t later he
      have hlen := congrArg List.length he
      rw [List.length_take, List.length_append, List.length_cons] at hlen
      simp only [List.take_nil, List.countP_nil]
      omega
  have hplaced : (∀ w ∈ windows span ts, ∀ k, n < k → k ≤ w.length → pass k = false) →
      (windows span ts).flatMap (placed pass 0) = (windows span ts).flatMap (·.take n) := by
    intro hrefused
    exact List.flatMap_congr fun w hw => placed_eq_take hpass (hrefused w hw)
  have hsorted : ((windows span ts).flatMap (placed pass 0)).Pairwise (· ≤ ·) :=
    ordered.sublist (sublist_flatMap_placed ts)
  rw [admitted_eq_flatMap]
  constructor
  · intro h
    have hrefused : ∀ w ∈ windows span ts, ∀ k, n < k → k ≤ w.length → pass k = false := by
      intro w hw k hn hk
      by_contra hp
      obtain ⟨start, hstart⟩ := mem_window hw hspan ordered
      have hmore := lt_length_placed hpass hn hk (Bool.not_eq_false _ |>.mp hp)
      have hin : ((placed pass 0 w).countP fun t => start ≤ t && t < start + span) =
          (placed pass 0 w).length := by
        rw [List.countP_eq_length]
        intro t ht
        simpa using hstart t (placed_sublist.subset ht)
      have hsub : (placed pass 0 w).Sublist ((windows span ts).flatMap (placed pass 0)) :=
        List.sublist_flatten_of_mem (List.mem_map_of_mem hw)
      have hle := (hsub.countP_le (p := fun t => start ≤ t && t < start + span)).trans (h start)
      omega
    refine ⟨hrefused, hchain.mp ?_⟩
    rw [hplaced hrefused] at h hsorted
    exact (bounded_iff_splits hspan hsorted).mp h
  · intro h
    rw [hplaced h.refused] at hsorted ⊢
    exact (bounded_iff_splits hspan hsorted).mpr (hchain.mpr h.apart)

end Windows

end HelixRouter.Metering
