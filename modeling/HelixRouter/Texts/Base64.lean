import HelixRouter.Texts.Bytes
import Mathlib.Algebra.Ring.Nat

namespace HelixRouter.Texts.Base64

/-- What a character of the alphabet stands for: six bits. -/
def value (c : Char) : Option Nat :=
  if 'A' ≤ c ∧ c ≤ 'Z' then some (c.toNat - 'A'.toNat)
  else if 'a' ≤ c ∧ c ≤ 'z' then some (c.toNat - 'a'.toNat + 26)
  else if '0' ≤ c ∧ c ≤ '9' then some (c.toNat - '0'.toNat + 52)
  else if c = '+' then some 62
  else if c = '/' then some 63
  else none

/-- The three bytes of four characters. -/
def whole (w x y z : Char) : Option (List UInt8) := do
  let w ← value w
  let x ← value x
  let y ← value y
  let z ← value z
  return [.ofNat (w * 4 + x / 16), .ofNat (x % 16 * 16 + y / 4), .ofNat (y % 4 * 64 + z)]

/-- The one or two bytes of a last group. The bits that are filled up are zero. -/
def padded (w x y : Char) : Option (List UInt8) := do
  let w ← value w
  let x ← value x
  if y = '=' then
    if x % 16 = 0 then return [.ofNat (w * 4 + x / 16)] else none
  else
    let y ← value y
    if y % 4 = 0 then return [.ofNat (w * 4 + x / 16), .ofNat (x % 16 * 16 + y / 4)] else none

/-- Groups of four characters, of which only the last one may be padded. -/
def decode : Text → Option (List UInt8)
  | [] => some []
  | w :: x :: y :: z :: rest =>
    if z = '=' then (if rest = [] then padded w x y else none)
    else do
      let bytes ← whole w x y z
      return bytes ++ (← decode rest)
  | _ => none

/-- A text over the alphabet, padded with at most two characters. -/
def WellFormed (t : Text) : Prop :=
  ∃ body, ∃ pads ≤ 2, t = body ++ List.replicate pads '=' ∧ ∀ c ∈ body, (value c).isSome = true

variable {w x y z c : Char} {a b d : UInt8} {i j k l v n : Nat} {t : Text} {bytes : List UInt8}

theorem value_pad : value '=' = none := by decide

theorem ne_pad_of_value (h : value c = some v) : c ≠ '=' := by
  rintro rfl
  rw [value_pad] at h
  cases h

/-- Four groups of six bits, of the bytes they make up. -/
theorem decode_whole (hn : n = a.toNat * 65536 + b.toNat * 256 + d.toNat)
    (hw : value w = some (n / 2 ^ 18 % 64)) (hx : value x = some (n / 2 ^ 12 % 64))
    (hy : value y = some (n / 2 ^ 6 % 64)) (hz : value z = some (n % 64))
    (ht : decode t = some bytes) :
    decode (w :: x :: y :: z :: t) = some (a :: b :: d :: bytes) := by
  have ha := a.toNat_lt
  have hb := b.toNat_lt
  have hd := d.toNat_lt
  have hfirst : n / 2 ^ 18 % 64 * 4 + n / 2 ^ 12 % 64 / 16 = a.toNat := by omega
  have hsecond : n / 2 ^ 12 % 64 % 16 * 16 + n / 2 ^ 6 % 64 / 4 = b.toNat := by omega
  have hthird : n / 2 ^ 6 % 64 % 4 * 64 + n % 64 = d.toNat := by omega
  rw [decode, if_neg (ne_pad_of_value hz), whole, hw, hx, hy, hz, ht]
  simp only [Option.bind_eq_bind, Option.bind_some, Option.pure_def, hfirst, hsecond, hthird,
    UInt8.ofNat_toNat]
  rfl

theorem decode_two (hn : n = a.toNat * 65536) (hw : value w = some (n / 2 ^ 18 % 64))
    (hx : value x = some (n / 2 ^ 12 % 64)) : decode [w, x, '=', '='] = some [a] := by
  have ha := a.toNat_lt
  have hfirst : n / 2 ^ 18 % 64 * 4 + n / 2 ^ 12 % 64 / 16 = a.toNat := by omega
  have hrest : n / 2 ^ 12 % 64 % 16 = 0 := by omega
  rw [decode, if_pos rfl, if_pos rfl, padded, hw, hx]
  simp only [Option.bind_eq_bind, Option.bind_some, Option.pure_def, hrest, if_true, hfirst,
    UInt8.ofNat_toNat]

theorem decode_three (hn : n = a.toNat * 65536 + b.toNat * 256)
    (hw : value w = some (n / 2 ^ 18 % 64)) (hx : value x = some (n / 2 ^ 12 % 64))
    (hy : value y = some (n / 2 ^ 6 % 64)) : decode [w, x, y, '='] = some [a, b] := by
  have ha := a.toNat_lt
  have hb := b.toNat_lt
  have hfirst : n / 2 ^ 18 % 64 * 4 + n / 2 ^ 12 % 64 / 16 = a.toNat := by omega
  have hsecond : n / 2 ^ 12 % 64 % 16 * 16 + n / 2 ^ 6 % 64 / 4 = b.toNat := by omega
  have hrest : n / 2 ^ 6 % 64 % 4 = 0 := by omega
  rw [decode, if_pos rfl, if_pos rfl, padded, hw, hx, hy]
  simp only [Option.bind_eq_bind, Option.bind_some, Option.pure_def, ne_pad_of_value hy, if_false,
    hrest, if_true, hfirst, hsecond, UInt8.ofNat_toNat]

theorem WellFormed.cons (hw : value w = some i) (hx : value x = some j) (hy : value y = some k)
    (hz : value z = some l) (h : WellFormed t) : WellFormed (w :: x :: y :: z :: t) := by
  obtain ⟨body, pads, hpads, rfl, hbody⟩ := h
  refine ⟨w :: x :: y :: z :: body, pads, hpads, rfl, ?_⟩
  simp only [List.forall_mem_cons, hw, hx, hy, hz]
  exact ⟨rfl, rfl, rfl, rfl, hbody⟩

theorem wellFormed_two (hw : value w = some i) (hx : value x = some j) :
    WellFormed [w, x, '=', '='] :=
  ⟨[w, x], 2, Nat.le_refl 2, rfl, by simp [hw, hx]⟩

theorem wellFormed_three (hw : value w = some i) (hx : value x = some j) (hy : value y = some k) :
    WellFormed [w, x, y, '='] :=
  ⟨[w, x, y], 1, Nat.le_succ 1, rfl, by simp [hw, hx, hy]⟩

end HelixRouter.Texts.Base64
