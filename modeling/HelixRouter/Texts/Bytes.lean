import Mathlib.Data.List.Basic

namespace HelixRouter.Texts

/-- A text, by its characters. Positions in it count bytes. -/
abbrev Text := List Char

/-- What all characters of a text are is asked of these, not of all characters there are. -/
instance (priority := 2000) decidableForallMem (p : Char → Prop) [DecidablePred p] (t : Text) :
    Decidable (∀ c ∈ t, p c) :=
  List.decidableBAll p t

def byteLen : Text → Nat
  | [] => 0
  | c :: t => c.utf8Size + byteLen t

/-- The text up to a position and from it on, where the position lies between characters. -/
def splitAtByte : Text → Nat → Option (Text × Text)
  | t, 0 => some ([], t)
  | [], _ + 1 => none
  | c :: t, n + 1 =>
    if c.utf8Size ≤ n + 1 then
      (splitAtByte t (n + 1 - c.utf8Size)).map fun p => (c :: p.1, p.2)
    else none

def upToByte (t : Text) (n : Nat) : Option Text := (splitAtByte t n).map (·.1)

def fromByte (t : Text) (n : Nat) : Option Text := (splitAtByte t n).map (·.2)

variable {a b t : Text} {n : Nat}

@[simp] theorem byteLen_nil : byteLen [] = 0 := rfl

@[simp] theorem byteLen_cons {c : Char} : byteLen (c :: t) = c.utf8Size + byteLen t := rfl

@[simp] theorem byteLen_append : byteLen (a ++ b) = byteLen a + byteLen b := by
  induction a with
  | nil => simp
  | cons c a ih => simp [ih, Nat.add_assoc]

@[simp] theorem splitAtByte_zero : splitAtByte t 0 = some ([], t) := by
  unfold splitAtByte
  rfl

theorem splitAtByte_append : splitAtByte (a ++ b) (byteLen a) = some (a, b) := by
  induction a with
  | nil => simp
  | cons c a ih =>
    obtain ⟨k, hk⟩ := Nat.exists_eq_add_one.mpr c.utf8Size_pos
    have hsplit : byteLen (c :: a) = k + byteLen a + 1 := by
      rw [byteLen_cons, hk]
      omega
    rw [hsplit, List.cons_append, splitAtByte, if_pos (by omega),
      show k + byteLen a + 1 - c.utf8Size = byteLen a by omega, ih]
    rfl

theorem splitAtByte_eq_some_iff :
    splitAtByte t n = some (a, b) ↔ t = a ++ b ∧ byteLen a = n := by
  constructor
  · intro h
    induction t generalizing a n with
    | nil =>
      cases n with
      | zero =>
        cases h
        exact ⟨rfl, rfl⟩
      | succ n => cases h
    | cons c t ih =>
      cases n with
      | zero =>
        cases h
        exact ⟨rfl, rfl⟩
      | succ n =>
        obtain ⟨hle, h⟩ := Option.ite_none_right_eq_some.mp h
        obtain ⟨⟨d, e⟩, hsplit, heq⟩ := Option.map_eq_some_iff.mp h
        cases heq
        obtain ⟨rfl, hlen⟩ := ih hsplit
        refine ⟨rfl, ?_⟩
        rw [byteLen_cons, hlen]
        omega
  · rintro ⟨rfl, rfl⟩
    exact splitAtByte_append

theorem upToByte_isSome_iff :
    (upToByte t n).isSome ↔ ∃ a b, t = a ++ b ∧ byteLen a = n := by
  rw [upToByte, Option.isSome_map, Option.isSome_iff_exists, Prod.exists]
  exact exists_congr fun a => exists_congr fun b => splitAtByte_eq_some_iff

theorem utf8ByteSize_ofList : (String.ofList t).utf8ByteSize = byteLen t := by
  induction t with
  | nil => rfl
  | cons c t ih =>
    rw [String.ofList_cons, String.utf8ByteSize_append, String.utf8ByteSize_singleton, ih]
    rfl

theorem utf8ByteSize_eq (s : String) : s.utf8ByteSize = byteLen s.toList := by
  rw [← utf8ByteSize_ofList, String.ofList_toList]

theorem upToByte_append : upToByte (a ++ b) (byteLen a) = some a := by
  rw [upToByte, splitAtByte_append]
  rfl

theorem fromByte_append : fromByte (a ++ b) (byteLen a) = some b := by
  rw [fromByte, splitAtByte_append]
  rfl

def encodeUtf8 (t : Text) : List UInt8 := t.flatMap String.utf8EncodeChar

/-- The text that the bytes are in UTF-8. -/
def fromUtf8 (bytes : List UInt8) : Option Text :=
  bytes.toByteArray.utf8Decode?.map Array.toList

/-- How many bytes at the front begin a character without going on as one. -/
def illFormed : List UInt8 → Nat
  | a :: b :: bs =>
    let continues (b : UInt8) : Bool := 0x80 ≤ b && b ≤ 0xbf
    let second : Bool :=
      if a = 0xe0 then 0xa0 ≤ b && b ≤ 0xbf
      else if a = 0xed then 0x80 ≤ b && b ≤ 0x9f
      else if a = 0xf0 then 0x90 ≤ b && b ≤ 0xbf
      else if a = 0xf4 then 0x80 ≤ b && b ≤ 0x8f
      else 0xe1 ≤ a && a ≤ 0xf3 && continues b
    if !second then 1
    else if 0xf0 ≤ a && bs.head?.any continues then 3
    else 2
  | _ => 1

/-- The characters at the front, where every ill-formed sequence is replaced. -/
def replacing : Nat → List UInt8 → Text
  | 0, _ => []
  | _, [] => []
  | n + 1, b :: bs =>
    match (b :: bs).toByteArray.utf8DecodeChar? 0 with
    | some c => c :: replacing n ((b :: bs).drop c.utf8Size)
    | none => '\ufffd' :: replacing n ((b :: bs).drop (illFormed (b :: bs)))

def fromUtf8Lossy (bytes : List UInt8) : Text := replacing bytes.length bytes

variable {u : Text}

@[simp] theorem fromUtf8_encodeUtf8 : fromUtf8 (encodeUtf8 t) = some t := by
  have h := List.utf8Decode?_utf8Encode (l := t)
  unfold List.utf8Encode at h
  rw [fromUtf8, encodeUtf8, h]
  simp

theorem encodeUtf8_injective (h : encodeUtf8 t = encodeUtf8 u) : t = u :=
  Option.some.inj (fromUtf8_encodeUtf8.symm.trans (h ▸ fromUtf8_encodeUtf8))

theorem replacing_encodeUtf8 {n : Nat} (hn : (encodeUtf8 t).length ≤ n) :
    replacing n (encodeUtf8 t) = t := by
  induction t generalizing n with
  | nil =>
    cases n <;> rfl
  | cons c t ih =>
    have hcons : encodeUtf8 (c :: t) = String.utf8EncodeChar c ++ encodeUtf8 t := rfl
    have hsize : (String.utf8EncodeChar c).length = c.utf8Size := String.length_utf8EncodeChar c
    have hdecode : (encodeUtf8 (c :: t)).toByteArray.utf8DecodeChar? 0 = some c := by
      have h := List.utf8DecodeChar?_utf8Encode_singleton_append (b := (encodeUtf8 t).toByteArray)
        (c := c)
      rw [hcons, List.toByteArray_append]
      simpa [List.utf8Encode] using h
    have hpos := c.utf8Size_pos
    rw [hcons, List.length_append, hsize] at hn
    obtain ⟨k, rfl⟩ := Nat.exists_eq_add_of_lt (by omega : 0 < n)
    obtain ⟨b, bs, hb⟩ := List.exists_cons_of_length_pos
      (by rw [hcons, List.length_append, hsize]; omega : 0 < (encodeUtf8 (c :: t)).length)
    rw [hb] at hdecode ⊢
    rw [Nat.zero_add, replacing, hdecode]
    dsimp only
    rw [← hb, hcons, ← hsize, List.drop_left, ih (by omega)]

/-- A text in UTF-8 is read as it is. -/
theorem fromUtf8Lossy_encodeUtf8 : fromUtf8Lossy (encodeUtf8 t) = t :=
  replacing_encodeUtf8 (Nat.le_refl _)

end HelixRouter.Texts
