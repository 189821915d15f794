import Mathlib.Logic.Basic

namespace HelixRouter.Streaming

variable {α β γ : Type} {decode : List β → List α → γ} {code codes : List β}
  {out chunk chunks : List α}

/-- A decoder that has put out `out` reads `code` and puts out `chunk`, and goes on from there. -/
def Emits (decode : List β → List α → γ) (code : List β) (out chunk : List α) : Prop :=
  ∀ rest, decode (code ++ rest) out = decode rest (out ++ chunk)

theorem Emits.nil : Emits decode [] out [] := by
  intro rest
  rw [List.append_nil, List.nil_append]

/-- One token after another. -/
theorem Emits.append (h : Emits decode code out chunk)
    (hs : Emits decode codes (out ++ chunk) chunks) :
    Emits decode (code ++ codes) out (chunk ++ chunks) := by
  intro rest
  rw [List.append_assoc, h, hs, List.append_assoc]

theorem Emits.run (h : Emits decode code [] chunk) : decode code [] = decode [] chunk := by
  simpa using h []

end HelixRouter.Streaming
