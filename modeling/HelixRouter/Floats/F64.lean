import Mathlib.Data.Int.Log
import Mathlib.Data.Rat.Floor

namespace HelixRouter.Floats

/-- A 64-bit floating-point number. Its two zeros, which compare equal, are one here. -/
inductive F64 where
  | finite (q : ℚ)
  | infinite (negative : Bool)
  | nan
  deriving DecidableEq

/-- The nearest integer, the even one of two that are as near. -/
def roundEven (q : ℚ) : ℤ :=
  let low := ⌊q⌋
  if q - low < 1 / 2 then low
  else if 1 / 2 < q - low then low + 1
  else if 2 ∣ low then low else low + 1

theorem roundEven_intCast (z : ℤ) : roundEven z = z := by
  simp [roundEven]

namespace F64

/-- The number of 53 significant bits nearest to a rational, infinite from `2 ^ 1024` on. -/
def ofRat (q : ℚ) : F64 :=
  let exponent := max (Int.log 2 |q|) (-1022)
  let ulp : ℚ := 2 ^ (exponent - 52)
  let magnitude := roundEven (|q| / ulp) * ulp
  if 2 ^ 1024 ≤ magnitude then .infinite (decide (q < 0))
  else .finite (if q < 0 then -magnitude else magnitude)

/-- No number is below one that is not a number, or above it. -/
def lt : F64 → F64 → Bool
  | .finite p, .finite q => p < q
  | .finite _, .infinite negative => !negative
  | .infinite negative, .finite _ => negative
  | .infinite a, .infinite b => a && !b
  | .nan, _ => false
  | _, .nan => false

def le : F64 → F64 → Bool
  | .nan, _ => false
  | _, .nan => false
  | a, b => !b.lt a

/-- What is no number is equal to nothing, itself included. -/
def eq : F64 → F64 → Bool
  | .nan, _ => false
  | _, .nan => false
  | a, b => a = b

/-- What is no number stays none. -/
def clamp (x low high : F64) : F64 :=
  if x.lt low then low else if high.lt x then high else x

def mul : F64 → F64 → F64
  | .nan, _ => .nan
  | _, .nan => .nan
  | .finite p, .finite q => ofRat (p * q)
  | .finite p, .infinite negative => if p = 0 then .nan else .infinite (decide (p < 0) ^^ negative)
  | .infinite negative, .finite q => if q = 0 then .nan else .infinite (decide (q < 0) ^^ negative)
  | .infinite a, .infinite b => .infinite (a ^^ b)

def add : F64 → F64 → F64
  | .nan, _ => .nan
  | _, .nan => .nan
  | .finite p, .finite q => ofRat (p + q)
  | .finite _, .infinite negative => .infinite negative
  | .infinite negative, .finite _ => .infinite negative
  | .infinite a, .infinite b => if a = b then .infinite a else .nan

def neg : F64 → F64
  | .finite q => .finite (-q)
  | .infinite negative => .infinite (!negative)
  | .nan => .nan

def sub (a b : F64) : F64 := a.add b.neg

/-- What is no number is passed over. -/
protected def min (a b : F64) : F64 :=
  if a = .nan then b else if b.lt a then b else a

/-- What is no number is passed over. -/
protected def max (a b : F64) : F64 :=
  if a = .nan then b else if a.lt b then b else a

/-- A quotient. A zero below the line is the positive one. -/
def div : F64 → F64 → F64
  | .nan, _ => .nan
  | _, .nan => .nan
  | .finite p, .finite q =>
    if q = 0 then (if p = 0 then .nan else .infinite (decide (p < 0))) else ofRat (p / q)
  | .finite _, .infinite _ => .finite 0
  | .infinite negative, .finite q => .infinite (negative ^^ decide (q < 0))
  | .infinite _, .infinite _ => .nan

/-- The cast of an unsigned integer. -/
def ofU64 (n : UInt64) : F64 := ofRat n.toNat

/-- The cast to an unsigned integer. -/
def toU64 : F64 → UInt64
  | .finite q => UInt64.ofNat (min ⌊q⌋.toNat (2 ^ 64 - 1))
  | .infinite negative => if negative then 0 else UInt64.ofNat (2 ^ 64 - 1)
  | .nan => 0

/-- The cast to a signed integer: the fraction is cut off, and what does not fit saturates. -/
def toI64 : F64 → Int64
  | .finite q =>
    let cut := if q < 0 then ⌈q⌉ else ⌊q⌋
    Int64.ofInt (max (-2 ^ 63) (min (2 ^ 63 - 1) cut))
  | .infinite negative => Int64.ofInt (if negative then -2 ^ 63 else 2 ^ 63 - 1)
  | .nan => 0

/-- A number written with so many decimals. -/
def toFixed (decimals : Nat) : F64 → String
  | .finite q =>
    let scaled := (roundEven (|q| * 10 ^ decimals)).toNat
    let fraction := toString (scaled % 10 ^ decimals)
    (if q < 0 then "-" else "") ++ toString (scaled / 10 ^ decimals) ++
      if decimals = 0 then "" else "." ++ "".pushn '0' (decimals - fraction.length) ++ fraction
  | .infinite negative => if negative then "-inf" else "inf"
  | .nan => "NaN"

section Product

variable {n : Nat} {q r : ℚ} {m : F64}

theorem floor_le_roundEven : ⌊q⌋ ≤ roundEven q := by
  unfold roundEven
  dsimp only
  split
  · exact le_refl _
  · split
    · omega
    · split <;> omega

/-- Rounding does not go below an integer of 53 bits. -/
theorem le_ofRat (hn : n < 2 ^ 53) (hpos : 0 < n) (hr : (n : ℚ) ≤ r) :
    ofRat r = .infinite false ∨ ∃ v, ofRat r = .finite v ∧ (n : ℚ) ≤ v := by
  have hr0 : 0 < r := lt_of_lt_of_le (by exact_mod_cast hpos) hr
  unfold ofRat
  dsimp only
  rw [abs_of_pos hr0]
  generalize he : max (Int.log 2 r) (-1022) = e
  have hulp : (0 : ℚ) < 2 ^ (e - 52) := zpow_pos (by norm_num) _
  -- an integer that the quotient is not below, and whose multiple is not below `n`
  obtain ⟨k, hk, hkn⟩ : ∃ k : ℤ, (k : ℚ) ≤ r / 2 ^ (e - 52) ∧ (n : ℚ) ≤ k * 2 ^ (e - 52) := by
    by_cases hsmall : e ≤ 52
    · obtain ⟨d, hd⟩ := Int.eq_ofNat_of_zero_le (show 0 ≤ 52 - e by omega)
      have hcancel : (2 : ℚ) ^ d * 2 ^ (e - 52) = 1 := by
        rw [← zpow_natCast, ← zpow_add₀ (by norm_num)]
        have hzero : (d : ℤ) + (e - 52) = 0 := by omega
        rw [hzero, zpow_zero]
      refine ⟨n * 2 ^ d, ?_, ?_⟩
      · rw [le_div_iff₀ hulp]
        push_cast
        rw [mul_assoc, hcancel, mul_one]
        exact hr
      · push_cast
        rw [mul_assoc, hcancel, mul_one]
    · have hlog : Int.log 2 r = e := by omega
      have hle : (2 : ℚ) ^ e ≤ r := by
        have h := Int.zpow_log_le_self (b := 2) (by norm_num) hr0
        rw [hlog] at h
        exact_mod_cast h
      have hsplit : (2 : ℚ) ^ (52 : ℤ) * 2 ^ (e - 52) = 2 ^ e := by
        rw [← zpow_add₀ (by norm_num)]
        congr 1
        omega
      have hcast : (((2 : ℤ) ^ 52 : ℤ) : ℚ) = 2 ^ (52 : ℤ) := by norm_num
      refine ⟨2 ^ 52, ?_, ?_⟩
      · rw [le_div_iff₀ hulp, hcast, hsplit]
        exact hle
      · rw [hcast, hsplit]
        have hn' : (n : ℚ) ≤ 2 ^ (53 : ℤ) := by
          have hcast : (2 : ℚ) ^ (53 : ℤ) = ((2 ^ 53 : ℕ) : ℚ) := by norm_num
          rw [hcast]
          exact_mod_cast hn.le
        exact hn'.trans (zpow_le_zpow_right₀ (by norm_num) (by omega))
  have hmag : (n : ℚ) ≤ roundEven (r / 2 ^ (e - 52)) * 2 ^ (e - 52) := by
    refine hkn.trans (mul_le_mul_of_nonneg_right ?_ hulp.le)
    exact_mod_cast (Int.le_floor.mpr hk).trans floor_le_roundEven
  have hsign : ¬r < 0 := not_lt.mpr hr0.le
  split
  · exact Or.inl (by simp [hsign])
  · exact Or.inr ⟨_, rfl, hmag⟩

theorem roundEven_le_of_le {z : ℤ} (h : q ≤ z) : roundEven q ≤ z := by
  have hfloor : ⌊q⌋ ≤ z := Int.floor_le_iff.mpr (lt_of_le_of_lt h (lt_add_one _))
  rcases hfloor.lt_or_eq with hlt | heq
  · unfold roundEven
    dsimp only
    split
    · exact hfloor
    · split
      · omega
      · split <;> omega
  · have hz : q = z := le_antisymm h (heq ▸ Int.floor_le q)
    rw [hz, roundEven_intCast]

theorem roundEven_mono (h : q ≤ r) : roundEven q ≤ roundEven r := by
  rcases (Int.floor_mono h).lt_or_eq with hlt | heq
  · have hq : roundEven q ≤ ⌊q⌋ + 1 := roundEven_le_of_le (by exact_mod_cast (Int.lt_floor_add_one q).le)
    exact hq.trans (Int.add_one_le_of_lt hlt |>.trans floor_le_roundEven)
  · unfold roundEven
    rw [heq]
    dsimp only
    split_ifs <;> try omega
    all_goals
      exfalso
      linarith

/-- The magnitude to which a positive number is rounded. -/
def rounded (q : ℚ) : ℚ :=
  let ulp : ℚ := 2 ^ (max (Int.log 2 q) (-1022) - 52)
  roundEven (q / ulp) * ulp

theorem ofRat_eq (hq : 0 ≤ q) :
    ofRat q = if 2 ^ 1024 ≤ rounded q then .infinite false else .finite (rounded q) := by
  have hsign : ¬q < 0 := not_lt.mpr hq
  unfold ofRat rounded
  simp [abs_of_nonneg hq, hsign]

theorem rounded_nonneg (hq : 0 ≤ q) : 0 ≤ rounded q := by
  have hulp : (0 : ℚ) < 2 ^ (max (Int.log 2 q) (-1022) - 52) := zpow_pos (by norm_num) _
  refine mul_nonneg ?_ hulp.le
  exact_mod_cast (Int.floor_nonneg.mpr (div_nonneg hq hulp.le)).trans floor_le_roundEven

theorem rounded_zero : rounded 0 = 0 := by simp [rounded, roundEven]

theorem rounded_mono (hq : 0 ≤ q) (h : q ≤ r) : rounded q ≤ rounded r := by
  rcases hq.eq_or_lt with rfl | hq
  · exact rounded_zero.trans_le (rounded_nonneg h)
  unfold rounded
  dsimp only
  generalize he : max (Int.log 2 q) (-1022) = e
  generalize he' : max (Int.log 2 r) (-1022) = e'
  have hulp : (0 : ℚ) < 2 ^ (e - 52) := zpow_pos (by norm_num) _
  have hulp' : (0 : ℚ) < 2 ^ (e' - 52) := zpow_pos (by norm_num) _
  have hlog : Int.log 2 q ≤ Int.log 2 r := Int.log_mono_right hq h
  rcases (show e ≤ e' by omega).lt_or_eq with hlt | heq
  · -- a power of two lies between the two
    have hmid : (((2 : ℤ) ^ 53 : ℤ) : ℚ) * 2 ^ (e - 52) = 2 ^ (e + 1) := by
      have hcast : (((2 : ℤ) ^ 53 : ℤ) : ℚ) = 2 ^ (53 : ℤ) := by norm_num
      rw [hcast, ← zpow_add₀ (by norm_num)]
      congr 1
      omega
    have hmid' : (((2 : ℤ) ^ 52 : ℤ) : ℚ) * 2 ^ (e' - 52) = 2 ^ e' := by
      have hcast : (((2 : ℤ) ^ 52 : ℤ) : ℚ) = 2 ^ (52 : ℤ) := by norm_num
      rw [hcast, ← zpow_add₀ (by norm_num)]
      congr 1
      omega
    have hbelow : q / 2 ^ (e - 52) ≤ (((2 : ℤ) ^ 53 : ℤ) : ℚ) := by
      rw [div_le_iff₀ hulp, hmid]
      have hq2 := (Int.lt_zpow_succ_log_self (b := 2) (by norm_num) q).le
      refine (show q ≤ (2 : ℚ) ^ (Int.log 2 q + 1) by exact_mod_cast hq2).trans ?_
      exact zpow_le_zpow_right₀ (by norm_num) (by omega)
    have habove : (((2 : ℤ) ^ 52 : ℤ) : ℚ) ≤ r / 2 ^ (e' - 52) := by
      rw [le_div_iff₀ hulp', hmid']
      have hr2 := Int.zpow_log_le_self (b := 2) (by norm_num) (lt_of_lt_of_le hq h)
      have hle : e' = Int.log 2 r := by omega
      rw [hle]
      exact_mod_cast hr2
    calc (roundEven (q / 2 ^ (e - 52)) : ℚ) * 2 ^ (e - 52)
        ≤ (((2 : ℤ) ^ 53 : ℤ) : ℚ) * 2 ^ (e - 52) :=
          mul_le_mul_of_nonneg_right (by exact_mod_cast roundEven_le_of_le hbelow) hulp.le
      _ = 2 ^ (e + 1) := hmid
      _ ≤ 2 ^ e' := zpow_le_zpow_right₀ (by norm_num) (by omega)
      _ = (((2 : ℤ) ^ 52 : ℤ) : ℚ) * 2 ^ (e' - 52) := hmid'.symm
      _ ≤ roundEven (r / 2 ^ (e' - 52)) * 2 ^ (e' - 52) := by
          refine mul_le_mul_of_nonneg_right ?_ hulp'.le
          exact_mod_cast (Int.le_floor.mpr habove).trans floor_le_roundEven
  · rw [heq]
    refine mul_le_mul_of_nonneg_right ?_ hulp'.le
    exact_mod_cast roundEven_mono (div_le_div_of_nonneg_right h hulp'.le)

/-- What a number reaches, a larger one does. -/
theorem le_ofRat_mono {threshold : F64} (hq : 0 ≤ q) (h : q ≤ r)
    (ht : threshold.le (ofRat q) = true) : threshold.le (ofRat r) = true := by
  have hround := rounded_mono hq h
  rw [ofRat_eq hq] at ht
  rw [ofRat_eq (hq.trans h)]
  cases threshold with
  | nan => simp [le] at ht
  | infinite negative =>
    cases negative with
    | true => split <;> rfl
    | false =>
      have hbig : 2 ^ 1024 ≤ rounded q := by
        by_contra hsmall
        rw [if_neg hsmall] at ht
        simp [le, lt] at ht
      rw [if_pos (hbig.trans hround)]
      rfl
  | finite p =>
    by_cases hbig : 2 ^ 1024 ≤ rounded r
    · rw [if_pos hbig]
      rfl
    · rw [if_neg fun hq => hbig (hq.trans hround)] at ht
      rw [if_neg hbig]
      have hle : p ≤ rounded q := by simpa [le, lt] using ht
      simpa [le, lt] using hle.trans hround

/-- A product by one or more, cut off, is no less than the integer. -/
theorem le_toU64_mul (hn : n < 2 ^ 53) (hm : (F64.finite 1).le m = true) :
    n ≤ ((F64.finite n).mul m).toU64.toNat := by
  have htop : n ≤ (toU64 (.infinite false)).toNat := by
    change n ≤ 2 ^ 64 - 1
    omega
  rcases Nat.eq_zero_or_pos n with rfl | hpos
  · exact Nat.zero_le _
  cases m with
  | nan => simp [le] at hm
  | infinite negative =>
    have hsign : negative = false := by simpa [le, lt] using hm
    have hzero : ¬(n : ℚ) = 0 := by exact_mod_cast hpos.ne'
    have hneg : ¬(n : ℚ) < 0 := by simp
    simpa [mul, hsign, hzero, hneg] using htop
  | finite q =>
    have hq : 1 ≤ q := by simpa [le, lt] using hm
    have hr : (n : ℚ) ≤ n * q := le_mul_of_one_le_right (by simp) hq
    rcases le_ofRat hn hpos hr with hinf | ⟨v, hv, hle⟩
    · rw [mul, hinf]
      exact htop
    · rw [mul, hv, toU64, UInt64.toNat_ofNat_of_lt' (by unfold UInt64.size; omega)]
      have hfloor : (n : ℤ) ≤ ⌊v⌋ := Int.le_floor.mpr (by exact_mod_cast hle)
      omega

end Product

section Order

variable {a b c : F64}

theorem lt_asymm (h : a.lt b = true) : b.lt a = false := by
  cases a with
  | nan => simp [lt] at h
  | finite p =>
    cases b with
    | finite q => simpa [lt] using le_of_lt (by simpa [lt] using h)
    | infinite negative => simpa [lt] using h
    | nan => rfl
  | infinite negative =>
    cases b with
    | finite q => simpa [lt] using h
    | infinite other =>
      obtain ⟨rfl, rfl⟩ : negative = true ∧ other = false := by simpa [lt] using h
      rfl
    | nan => rfl

/-- All numbers are in one order. -/
theorem lt_or_lt_of_lt (h : a.lt b = true) (hc : c ≠ .nan) : a.lt c = true ∨ c.lt b = true := by
  cases c with
  | nan => exact absurd rfl hc
  | finite r =>
    cases a with
    | nan => simp [lt] at h
    | infinite negative =>
      cases b with
      | finite q => exact Or.inl h
      | infinite other => exact Or.inl (by simpa [lt] using (by simpa [lt] using h : _ ∧ _).1)
      | nan => simp [lt] at h
    | finite p =>
      cases b with
      | finite q =>
        have hpq : p < q := by simpa [lt] using h
        exact (lt_or_ge p r).imp (fun hpr => by simpa [lt] using hpr)
          fun hrp => by simpa [lt] using lt_of_le_of_lt hrp hpq
      | infinite other => exact Or.inr h
      | nan => simp [lt] at h
  | infinite sign =>
    cases sign with
    | false =>
      cases a with
      | nan => simp [lt] at h
      | finite p => exact Or.inl rfl
      | infinite negative =>
        cases negative with
        | true => exact Or.inl rfl
        | false => cases b <;> simp [lt] at h
    | true =>
      cases b with
      | nan => cases a <;> simp [lt] at h
      | finite q => exact Or.inr rfl
      | infinite other =>
        cases other with
        | false => exact Or.inr rfl
        | true => cases a <;> simp [lt] at h

theorem le_iff_not_lt (ha : a ≠ .nan) : a.le b = true ↔ b ≠ .nan ∧ b.lt a = false := by
  cases a with
  | nan => exact absurd rfl ha
  | finite p => cases b <;> simp [le]
  | infinite negative => cases b <;> simp [le]

theorem eq_of_not_lt (ha : a ≠ .nan) (hb : b ≠ .nan) (h : a.lt b = false) (h' : b.lt a = false) :
    a = b := by
  cases a with
  | nan => exact absurd rfl ha
  | finite p =>
    cases b with
    | nan => exact absurd rfl hb
    | finite q => exact congrArg _ (le_antisymm (by simpa [lt] using h') (by simpa [lt] using h))
    | infinite negative => cases negative <;> simp [lt] at h h'
  | infinite negative =>
    cases b with
    | nan => exact absurd rfl hb
    | finite q => cases negative <;> simp [lt] at h h'
    | infinite other => cases negative <;> cases other <;> simp [lt] at h h' ⊢

/-- The lesser of two is the second where it is no less than that. -/
theorem min_of_le (hb : b ≠ .nan) (h : b.le (a.min b) = true) : a.min b = b := by
  unfold F64.min at h ⊢
  split
  · rfl
  · rename_i ha
    rw [if_neg ha] at h
    by_cases hlt : b.lt a = true
    · exact if_pos hlt
    · rw [if_neg hlt] at h ⊢
      obtain ⟨-, hlt'⟩ := (le_iff_not_lt hb).mp h
      exact eq_of_not_lt ha hb hlt' (Bool.eq_false_of_not_eq_true hlt)

protected theorem le_of_lt (h : a.lt b = true) : a.le b = true := by
  have ha : a ≠ .nan := by
    rintro rfl
    simp [lt] at h
  have hb : b ≠ .nan := by
    rintro rfl
    cases a <;> simp [lt] at h
  exact (le_iff_not_lt ha).mpr ⟨hb, lt_asymm h⟩

protected theorem le_trans (hab : a.le b = true) (hbc : b.le c = true) : a.le c = true := by
  have hne : a ≠ .nan ∧ b ≠ .nan := by
    constructor <;> rintro rfl <;> simp [le] at hab hbc
  rw [le_iff_not_lt hne.1] at hab ⊢
  rw [le_iff_not_lt hne.2] at hbc
  refine ⟨hbc.1, Bool.eq_false_of_not_eq_true fun hca => ?_⟩
  rcases lt_or_lt_of_lt hca hne.2 with hcb | hba
  · exact nomatch hbc.2.symm.trans hcb
  · exact nomatch hab.2.symm.trans hba

protected theorem le_max_right (h : c.le b = true) : c.le (a.max b) = true := by
  unfold F64.max
  split
  · exact h
  · rename_i ha
    split
    · exact h
    · rename_i hlt
      have hb : b ≠ .nan := by
        rintro rfl
        cases c <;> simp [le] at h
      exact F64.le_trans h ((le_iff_not_lt hb).mpr ⟨ha, Bool.eq_false_of_not_eq_true hlt⟩)

protected theorem le_max_left (h : c.le a = true) : c.le (a.max b) = true := by
  unfold F64.max
  split
  · rename_i ha
    subst ha
    cases c <;> simp [le] at h
  · split
    · rename_i hlt
      exact F64.le_trans h (F64.le_of_lt hlt)
    · exact h

theorem le_clamp {x low high : F64} (hx : c.le x = true) (hhigh : c.le high = true) :
    c.le (x.clamp low high) = true := by
  unfold clamp
  split
  · rename_i hlt
    exact F64.le_trans hx (F64.le_of_lt hlt)
  · split
    · exact hhigh
    · exact hx

/-- A number is clamped to one within the bounds. -/
theorem clamp_finite {x : F64} {low high : ℚ} (hx : x ≠ .nan) (h : low ≤ high) :
    ∃ v, x.clamp (.finite low) (.finite high) = .finite v ∧ low ≤ v ∧ v ≤ high := by
  unfold clamp
  split
  · exact ⟨low, rfl, le_refl low, h⟩
  · rename_i hlow
    split
    · exact ⟨high, rfl, h, le_refl high⟩
    · rename_i hhigh
      cases x with
      | nan => exact absurd rfl hx
      | infinite negative => cases negative <;> simp [lt] at hlow hhigh
      | finite v => exact ⟨v, rfl, by simpa [lt] using hlow, by simpa [lt] using hhigh⟩

end Order

section Rounding

variable {q : ℚ}

/-- A nearest integer is no further than a half away. -/
theorem roundEven_le_add_half (q : ℚ) : (roundEven q : ℚ) ≤ q + 1 / 2 := by
  have hfloor := Int.floor_le q
  unfold roundEven
  dsimp only
  split_ifs with hlow hhigh heven
  · linarith
  · push_cast
    linarith
  · linarith
  · push_cast
    linarith

/-- Rounding up adds at most half of the last of 53 bits. -/
theorem rounded_le (hq : 1 ≤ q) : rounded q ≤ q * (1 + 1 / 2 ^ 53) := by
  have hpos : 0 < q := by linarith
  have hlog : 0 ≤ Int.log 2 q := by
    rw [← Int.log_one_right (R := ℚ) 2]
    exact Int.log_mono_right one_pos hq
  have hexp : max (Int.log 2 q) (-1022) = Int.log 2 q := max_eq_left (by omega)
  unfold rounded
  rw [hexp]
  have hulp : (0 : ℚ) < 2 ^ (Int.log 2 q - 52) := zpow_pos (by norm_num) _
  have hle : (2 : ℚ) ^ (Int.log 2 q - 52) ≤ q / 2 ^ 52 := by
    rw [zpow_sub₀ two_ne_zero]
    refine div_le_div_of_nonneg_right ?_ (by positivity)
    exact_mod_cast Int.zpow_log_le_self (b := 2) (by norm_num) hpos
  calc (roundEven (q / 2 ^ (Int.log 2 q - 52)) : ℚ) * 2 ^ (Int.log 2 q - 52)
    _ ≤ (q / 2 ^ (Int.log 2 q - 52) + 1 / 2) * 2 ^ (Int.log 2 q - 52) :=
      mul_le_mul_of_nonneg_right (roundEven_le_add_half _) hulp.le
    _ = q + 2 ^ (Int.log 2 q - 52) / 2 := by
      rw [add_mul, div_mul_cancel₀ _ hulp.ne']
      ring
    _ ≤ q + q / 2 ^ 52 / 2 := by linarith
    _ = q * (1 + 1 / 2 ^ 53) := by ring

/-- A number of at most 53 bits needs no rounding. -/
theorem rounded_mul_zpow {k e : ℤ} (hk : 0 ≤ k) (hk' : k ≤ 2 ^ 53) (he : -1022 ≤ e) :
    rounded (k * 2 ^ (e - 52)) = k * 2 ^ (e - 52) := by
  rcases hk.eq_or_lt with rfl | hpos
  · rw [Int.cast_zero, zero_mul, rounded_zero]
  have hsplit : ∀ a b : ℤ, (2 : ℚ) ^ a * 2 ^ b = 2 ^ (a + b) := fun a b =>
    (zpow_add₀ two_ne_zero a b).symm
  generalize hr : (k : ℚ) * 2 ^ (e - 52) = r
  have hr0 : 0 < r := by
    rw [← hr]
    exact mul_pos (by exact_mod_cast hpos) (zpow_pos two_pos _)
  -- an integer number of its own last places
  obtain ⟨j, hj⟩ : ∃ j : ℤ, r = j * 2 ^ (max (Int.log 2 r) (-1022) - 52) := by
    rcases hk'.lt_or_eq with hlt | rfl
    · have hlog : Int.log 2 r < e + 1 := by
        refine (Int.lt_zpow_iff_log_lt (by decide) hr0).mp ?_
        have hk53 : (k : ℚ) < 2 ^ (53 : ℤ) := by exact_mod_cast hlt
        calc r = k * 2 ^ (e - 52) := hr.symm
          _ < 2 ^ (53 : ℤ) * 2 ^ (e - 52) := mul_lt_mul_of_pos_right hk53 (zpow_pos two_pos _)
          _ = 2 ^ (e + 1) := by
            rw [hsplit]
            congr 1
            omega
          _ = ((2 : ℕ) : ℚ) ^ (e + 1) := by norm_num
      obtain ⟨d, hd⟩ := Int.eq_ofNat_of_zero_le (a := e - max (Int.log 2 r) (-1022)) (by omega)
      refine ⟨k * 2 ^ d, hr.symm.trans ?_⟩
      push_cast
      rw [mul_assoc, ← zpow_natCast, hsplit]
      congr 2
      omega
    · have hcast : ∀ n : ℕ, (((2 : ℤ) ^ n : ℤ) : ℚ) = 2 ^ (n : ℤ) := fun n => by simp
      have hpow : r = 2 ^ (e + 1) := by
        rw [← hr, hcast, hsplit]
        congr 1
        omega
      have hlog : Int.log 2 r = e + 1 := by
        rw [hpow]
        exact Int.log_zpow (b := 2) (by decide) (e + 1)
      refine ⟨2 ^ 52, ?_⟩
      rw [hlog, hpow, hcast, hsplit]
      congr 1
      omega
  have hulp : (2 : ℚ) ^ (max (Int.log 2 r) (-1022) - 52) ≠ 0 := zpow_ne_zero _ two_ne_zero
  unfold rounded
  dsimp only
  rw [(div_eq_iff hulp).mpr hj, roundEven_intCast]
  exact hj.symm

/-- What has been rounded needs no rounding. -/
theorem rounded_rounded (hq : 0 ≤ q) : rounded (rounded q) = rounded q := by
  rcases hq.eq_or_lt with rfl | hpos
  · rw [rounded_zero, rounded_zero]
  have hulp : (0 : ℚ) < 2 ^ (max (Int.log 2 q) (-1022) - 52) := zpow_pos two_pos _
  refine rounded_mul_zpow ?_ ?_ (le_max_right ..)
  · exact (Int.floor_nonneg.mpr (div_nonneg hq hulp.le)).trans floor_le_roundEven
  · refine roundEven_le_of_le ?_
    have htop : q ≤ 2 ^ (Int.log 2 q + 1) := by
      exact_mod_cast (Int.lt_zpow_succ_log_self (b := 2) (by norm_num) q).le
    rw [div_le_iff₀ hulp]
    calc q ≤ 2 ^ (Int.log 2 q + 1) := htop
      _ ≤ 2 ^ (53 + (max (Int.log 2 q) (-1022) - 52)) :=
        zpow_le_zpow_right₀ one_le_two (by omega)
      _ = ((2 ^ 53 : ℤ) : ℚ) * 2 ^ (max (Int.log 2 q) (-1022) - 52) := by
        rw [zpow_add₀ two_ne_zero]
        norm_num

end Rounding

theorem ofRat_ne_nan (q : ℚ) : ofRat q ≠ .nan := by
  unfold ofRat
  dsimp only
  split <;> exact F64.noConfusion

/-- Integers below `2 ^ 53` need no rounding. -/
theorem ofRat_intCast {z : ℤ} (h : |z| < 2 ^ 53) : ofRat z = .finite z := by
  obtain ⟨k, hk⟩ : ∃ k : ℕ, max (Int.log 2 |(z : ℚ)|) (-1022) - 52 = -(k : ℤ) := by
    have hlog : Int.log 2 |(z : ℚ)| ≤ 52 := by
      by_cases hz : z = 0
      · simp [hz]
      · have hpos : 0 < |(z : ℚ)| := by simpa using hz
        have hlt : |(z : ℚ)| < ((2 : ℕ) : ℚ) ^ (53 : ℤ) := by exact_mod_cast h
        exact Int.lt_add_one_iff.mp ((Int.lt_zpow_iff_log_lt (by decide) hpos).mp hlt)
    obtain ⟨k, hk⟩ := Int.eq_ofNat_of_zero_le (a := 52 - max (Int.log 2 |(z : ℚ)|) (-1022)) (by omega)
    exact ⟨k, by omega⟩
  have hmag : (roundEven (|(z : ℚ)| / 2 ^ (-(k : ℤ))) : ℚ) * 2 ^ (-(k : ℤ)) = |(z : ℚ)| := by
    have hscaled : |(z : ℚ)| / 2 ^ (-(k : ℤ)) = ((|z| * 2 ^ k : ℤ) : ℚ) := by
      simp
    rw [hscaled, roundEven_intCast, ← hscaled]
    exact div_mul_cancel₀ _ (zpow_ne_zero _ two_ne_zero)
  have hfits : ¬ (2 : ℚ) ^ 1024 ≤ |(z : ℚ)| := by
    have hlt : |(z : ℚ)| < 2 ^ 53 := by exact_mod_cast h
    exact not_le.mpr (hlt.trans_le (pow_le_pow_right₀ one_le_two (by decide)))
  unfold ofRat
  simp only [hk, hmag, if_neg hfits]
  congr 1
  split
  · rename_i hneg
    rw [abs_of_neg hneg, neg_neg]
  · rename_i hneg
    exact abs_of_nonneg (not_lt.mp hneg)

theorem toInt_toI64_intCast {z : ℤ} (h : |z| < 2 ^ 53) : (finite z).toI64.toInt = z := by
  obtain ⟨hlo, hhi⟩ := abs_lt.mp h
  have hcut : (if (z : ℚ) < 0 then ⌈(z : ℚ)⌉ else ⌊(z : ℚ)⌋) = z := by
    rw [Int.ceil_intCast, Int.floor_intCast, ite_self]
  unfold toI64
  simp only [hcut]
  rw [min_eq_right (by omega), max_eq_right (by omega)]
  exact Int64.toInt_ofInt_of_le (by omega) (by omega)

/-- What a float can be: rounding it changes nothing. -/
def Representable : F64 → Prop
  | finite q => ofRat q = finite q
  | _ => True

/-- The integer part of a number that has one, and is not negative. -/
def wholePart : F64 → Option Nat
  | finite q => some ⌊q⌋.toNat
  | _ => none

/-- Rounding does not take a number past one that needs no rounding. -/
theorem lt_ofRat_of_le {p q : ℚ} (hq : ofRat q = finite q) (hp : 0 ≤ p) (h : p ≤ q) :
    (finite q).lt (ofRat p) = false := by
  have hround := rounded_mono hp h
  rw [ofRat_eq (hp.trans h)] at hq
  split at hq
  · cases hq
  · rename_i hsmall
    have heq : rounded q = q := F64.finite.inj hq
    rw [ofRat_eq hp, if_neg fun hbig => hsmall (hbig.trans hround)]
    simpa [lt] using hround.trans heq.le

/-- An unsigned integer is cast to a number, which is not zero unless the integer is. -/
theorem ofU64_eq_finite (n : UInt64) : ∃ q, ofU64 n = .finite q ∧ (n ≠ 0 → q ≠ 0) := by
  have htop : ofRat ((2 ^ 64 : ℕ) : ℚ) = .finite ((2 ^ 64 : ℕ) : ℚ) := by decide +kernel
  have hle : (n.toNat : ℚ) ≤ ((2 ^ 64 : ℕ) : ℚ) := by exact_mod_cast n.toNat_lt.le
  have hround := rounded_mono (Nat.cast_nonneg n.toNat) hle
  have hsmall : ¬(2 : ℚ) ^ 1024 ≤ rounded n.toNat := by
    rw [ofRat_eq (Nat.cast_nonneg _)] at htop
    split at htop
    · cases htop
    · rename_i hsmall
      exact fun hbig => hsmall (hbig.trans hround)
  refine ⟨rounded n.toNat, ?_, fun hn hzero => ?_⟩
  · rw [ofU64, ofRat_eq (Nat.cast_nonneg _), if_neg hsmall]
  · have hone : (1 : ℕ) ≤ n.toNat := Nat.pos_of_ne_zero fun h => hn (UInt64.toNat_inj.mp h)
    rcases le_ofRat (n := 1) (by norm_num) (by norm_num) (Nat.cast_le.mpr hone) with h | ⟨v, h, hv⟩
    · rw [ofRat_eq (Nat.cast_nonneg _), if_neg hsmall] at h
      cases h
    · rw [ofRat_eq (Nat.cast_nonneg _), if_neg hsmall, hzero] at h
      cases h
      norm_num at hv

section Counting

variable {n : ℕ} {q : ℚ}

theorem rounded_natCast (h : n ≤ 2 ^ 53) : rounded n = n := by
  have hfinite : ofRat (n : ℚ) = .finite n := by
    rcases h.lt_or_eq with hlt | rfl
    · exact ofRat_intCast (z := n) (by rw [abs_of_nonneg (Int.natCast_nonneg n)]; exact_mod_cast hlt)
    · decide +kernel
  rw [ofRat_eq (Nat.cast_nonneg n)] at hfinite
  split at hfinite
  · cases hfinite
  · exact F64.finite.inj hfinite

/-- Counting up by one never gets past `2 ^ 53`. -/
theorem rounded_succ (n : ℕ) :
    rounded ((min n (2 ^ 53) : ℕ) + 1) = (min (n + 1) (2 ^ 53) : ℕ) := by
  rcases Nat.lt_or_ge n (2 ^ 53) with hlt | hge
  · rw [Nat.min_eq_left hlt.le, Nat.min_eq_left hlt, ← Nat.cast_succ]
    exact rounded_natCast hlt
  · have htie : ofRat (((2 ^ 53 : ℕ) : ℚ) + 1) = .finite (2 ^ 53 : ℕ) := by decide +kernel
    rw [Nat.min_eq_right hge, Nat.min_eq_right (Nat.le_succ_of_le hge)]
    rw [ofRat_eq (by positivity)] at htie
    split at htie
    · cases htie
    · exact F64.finite.inj htie

/-- What is no more than a count is rounded to something that is no more than the count. -/
theorem ofRat_eq_rounded (hq : 0 ≤ q) (h : q ≤ (2 ^ 53 : ℕ) + 1) : ofRat q = .finite (rounded q) := by
  have hbound := rounded_mono hq h
  have htop := rounded_succ (2 ^ 53)
  rw [Nat.min_eq_left (Nat.le_refl _), Nat.min_eq_right (Nat.le_succ _)] at htop
  rw [htop] at hbound
  rw [ofRat_eq hq, if_neg]
  refine not_le.mpr (hbound.trans_lt ?_)
  rw [Nat.cast_pow, Nat.cast_ofNat]
  exact pow_lt_pow_right₀ one_lt_two (by decide)

end Counting

end F64

end HelixRouter.Floats
