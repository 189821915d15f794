import Mathlib.Data.List.Basic

namespace HelixRouter.Containers

variable {α β : Type} {room position next missed : Nat} {log got : List α} {closed : Bool} {a : α}

/-- What a receiver of a broadcast channel is told. -/
inductive Received (α : Type) where
  | message (a : α)
  | lagged (missed : Nat)
  | closed

/-- A receiver reads at its position in the log of everything sent. The channel holds the last
`room` messages, and a receiver has to wait where one may still come. -/
def receive (room : Nat) (log : List α) (closed : Bool) (position : Nat) :
    Option (Received α × Nat) :=
  let oldest := log.length - room
  if position < oldest then some (.lagged (oldest - position), oldest)
  else
    match log[position]? with
    | some a => some (.message a, position + 1)
    | none => if closed then some (.closed, position) else none

theorem receive_cases {told : Received α}
    (h : receive room log closed position = some (told, next)) :
    (∃ missed, told = .lagged missed ∧ 0 < missed ∧ position + missed + room = log.length) ∨
    (∃ a, told = .message a ∧ log[position]? = some a ∧ next = position + 1) ∨
    (told = .closed ∧ closed = true ∧ log.length ≤ position) := by
  unfold receive at h
  dsimp only at h
  split at h
  · rename_i hbehind
    cases h
    exact .inl ⟨_, rfl, by omega, by omega⟩
  · split at h
    · rename_i a hget
      cases h
      exact .inr (.inl ⟨a, rfl, hget, rfl⟩)
    · rename_i hnone
      split at h
      · rename_i hclosed
        cases h
        exact .inr (.inr ⟨rfl, hclosed, List.getElem?_eq_none_iff.mp hnone⟩)
      · cases h

/-- Nobody waits on a closed channel. -/
theorem exists_receive (room : Nat) (log : List α) (position : Nat) :
    ∃ told next, receive room log true position = some (told, next) := by
  unfold receive
  dsimp only
  split
  · exact ⟨_, _, rfl⟩
  · split
    · exact ⟨_, _, rfl⟩
    · exact ⟨_, _, rfl⟩

/-- A receiver that began at some point of the log has read on from there without a gap. -/
def Heard (log : List α) (since : Nat) (got : List α) : Prop :=
  since ≤ log.length ∧ got <+: log.drop since

namespace Heard

variable {since : Nat}

theorem subscribed (log : List α) : Heard log log.length [] := ⟨Nat.le_refl _, List.nil_prefix⟩

theorem sent (h : Heard log since got) (more : List α) : Heard (log ++ more) since got := by
  obtain ⟨hle, hprefix⟩ := h
  refine ⟨Nat.le_trans hle (List.prefix_append log more).length_le, ?_⟩
  rw [List.drop_append_of_le_length hle]
  exact hprefix.trans (List.prefix_append ..)

theorem read (h : Heard log since got) (ha : log[since + got.length]? = some a) :
    Heard log since (got ++ [a]) := by
  obtain ⟨hle, rest, hrest⟩ := h
  refine ⟨hle, ?_⟩
  rw [← List.getElem?_drop, ← hrest, List.getElem?_append_right (Nat.le_refl _), Nat.sub_self] at ha
  cases rest with
  | nil => cases ha
  | cons b rest =>
    cases ha
    exact ⟨rest, by rw [← hrest, List.append_assoc, List.singleton_append]⟩

/-- A receiver that is through has read everything from where it began. -/
theorem all (h : Heard log since got) (hthrough : log.length ≤ since + got.length) :
    got = log.drop since := by
  apply h.2.eq_of_length_le
  rw [List.length_drop]
  omega

end Heard

end HelixRouter.Containers
