import HelixRouter.Compression.RoundTrip

namespace HelixRouter.Compression

/-- The decoders by their indices. There is no result where one is out of bounds. -/
def runLengthDecodeAt (data : List UInt8) (i : Nat) (out : List UInt8) : Option (List UInt8) :=
  if i + 1 < data.length then do
    let count ← data[i]?
    let byte ← data[i + 1]?
    runLengthDecodeAt data (i + 2) (out ++ List.replicate count.toNat byte)
  else some out
  termination_by data.length - i

def dictionaryDecompressAt (data : List UInt8) (dict : List Ngram) (i : Nat) (out : List UInt8) :
    Option (List UInt8) :=
  if i < data.length then do
    let b ← data[i]?
    if b = 0xFE ∧ i + 1 < data.length then do
      let idx ← data[i + 1]?
      if idx.toNat < dict.length then do
        let entry ← dict[idx.toNat]?
        dictionaryDecompressAt data dict (i + 2) (out ++ entry)
      else dictionaryDecompressAt data dict (i + 2) out
    else if b = 0xFF ∧ i + 1 < data.length then do
      let byte ← data[i + 1]?
      dictionaryDecompressAt data dict (i + 2) (out ++ [byte])
    else dictionaryDecompressAt data dict (i + 1) (out ++ [b])
  else some out
  termination_by data.length - i

def lz77DecompressAt (data : List UInt8) (i : Nat) (out : List UInt8) : Option (List UInt8) :=
  if i + 4 < data.length then do
    let hi ← data[i]?
    let lo ← data[i + 1]?
    let length ← data[i + 2]?
    let nextChar ← data[i + 3]?
    let flag ← data[i + 4]?
    let offset := hi.toUInt16 <<< 8 ||| lo.toUInt16
    if flag = 0x01 && 0 < offset && 0 < length then do
      let copied ← copyBack length.toNat (out.length - offset.toNat) out
      lz77DecompressAt data (i + 5) (if i + 5 ≤ data.length then copied ++ [nextChar] else copied)
    else lz77DecompressAt data (i + 5) (out ++ [nextChar])
  else some out
  termination_by data.length - i

def CompressionEngine.decompressAt (compressed : CompressedData) : Option (List UInt8) :=
  match compressed.algorithm with
  | .none => some compressed.compressed
  | .runLength => runLengthDecodeAt compressed.compressed 0 []
  | .dictionary => dictionaryDecompressAt compressed.compressed (compressed.dict.getD []) 0 []
  | .lz77 => lz77DecompressAt compressed.compressed 0 []

section Agreement

theorem runLengthDecodeAt_eq (data : List UInt8) (i : Nat) (out : List UInt8) :
    runLengthDecodeAt data i out = some (runLengthDecodeFrom (data.drop i) out) := by
  fun_induction runLengthDecodeAt data i out with
  | case1 i out h ih =>
    rw [List.getElem?_eq_getElem h, List.getElem?_eq_getElem (Nat.lt_of_succ_lt h),
      List.drop_eq_getElem_cons (Nat.lt_of_succ_lt h), List.drop_eq_getElem_cons h]
    exact ih _ _
  | case2 i out h =>
    have hlen : (data.drop i).length ≤ 1 := by
      rw [List.length_drop]
      omega
    match data.drop i, hlen with
    | [], _ => rfl
    | [_], _ => rfl

theorem dictionaryDecompressAt_eq (data : List UInt8) (dict : List Ngram) (i : Nat)
    (out : List UInt8) : dictionaryDecompressAt data dict i out =
      some (dictionaryDecompressFrom dict (data.drop i) out) := by
  induction hn : data.length - i using Nat.strong_induction_on generalizing i out with
  | _ n ih =>
    unfold dictionaryDecompressAt
    by_cases h : i < data.length
    · rw [if_pos h, List.getElem?_eq_getElem h, List.drop_eq_getElem_cons h]
      change (if _ then _ else _) = _
      by_cases hnext : i + 1 < data.length
      · rw [List.drop_eq_getElem_cons hnext, dictionaryDecompressFrom]
        simp only [hnext, and_true, List.getElem?_eq_getElem hnext]
        split
        · change (if _ then _ else _) = _
          have hrec := fun out' => ih _ (by omega) (i + 2) out' rfl
          split
          · rename_i hidx
            rw [List.getElem?_eq_getElem hidx]
            exact hrec _
          · rename_i hidx
            rw [List.getElem?_eq_none (Nat.le_of_not_lt hidx), Option.getD_none, List.append_nil]
            exact hrec _
        · split
          · exact ih _ (by omega) (i + 2) _ rfl
          · have hrec := ih _ (by omega) (i + 1) (out ++ [data[i]]) rfl
            rwa [List.drop_eq_getElem_cons hnext] at hrec
      · have hnil : data.drop (i + 1) = [] := List.drop_of_length_le (Nat.le_of_not_lt hnext)
        simp only [hnext, and_false, if_false]
        rw [ih _ (by omega) (i + 1) _ rfl, hnil]
        rfl
    · rw [if_neg h, List.drop_of_length_le (Nat.le_of_not_lt h)]
      rfl

theorem lz77DecompressAt_eq (data : List UInt8) (i : Nat) (out : List UInt8) :
    lz77DecompressAt data i out = lz77DecompressFrom (data.drop i) out := by
  induction hn : data.length - i using Nat.strong_induction_on generalizing i out with
  | _ n ih =>
    unfold lz77DecompressAt
    by_cases h : i + 4 < data.length
    · have hrec := fun out' => ih _ (by omega) (i + 5) out' rfl
      rw [if_pos h]
      rw [List.drop_eq_getElem_cons (by omega : i < data.length),
        List.drop_eq_getElem_cons (by omega : i + 1 < data.length),
        List.drop_eq_getElem_cons (by omega : i + 1 + 1 < data.length),
        List.drop_eq_getElem_cons (by omega : i + 1 + 1 + 1 < data.length),
        List.drop_eq_getElem_cons (by omega : i + 1 + 1 + 1 + 1 < data.length), lz77DecompressFrom,
        List.getElem?_eq_getElem (by omega : i < data.length),
        List.getElem?_eq_getElem (by omega : i + 1 < data.length),
        List.getElem?_eq_getElem (by omega : i + 2 < data.length),
        List.getElem?_eq_getElem (by omega : i + 3 < data.length),
        List.getElem?_eq_getElem h]
      simp only [Option.bind_eq_bind, Option.bind_some, show i + 5 ≤ data.length from h, if_true]
      split
      · exact congrArg _ (funext fun copied => hrec _)
      · exact hrec _
    · rw [if_neg h]
      have hlen : (data.drop i).length ≤ 4 := by
        rw [List.length_drop]
        omega
      match data.drop i, hlen with
      | [], _ => rfl
      | [_], _ => rfl
      | [_, _], _ => rfl
      | [_, _, _], _ => rfl
      | [_, _, _, _], _ => rfl

/-- What the decoders compute by their indices, they compute by taking the input apart. -/
theorem decompressAt_eq (compressed : CompressedData) :
    CompressionEngine.decompressAt compressed = CompressionEngine.decompress compressed := by
  obtain ⟨algorithm, size, data, dict⟩ := compressed
  cases algorithm with
  | none => rfl
  | runLength => exact runLengthDecodeAt_eq data 0 []
  | dictionary => exact dictionaryDecompressAt_eq data (dict.getD []) 0 []
  | lz77 => exact lz77DecompressAt_eq data 0 []

end Agreement

section Totality

variable {out : List UInt8} {start : Nat}

/-- A copy that starts inside the output never overtakes it. -/
theorem copyBack_inside (length : Nat) (h : start < out.length) :
    ∃ copied, copyBack length start out = some copied ∧ copied ≠ [] := by
  induction length generalizing start out with
  | zero => exact ⟨out, rfl, List.ne_nil_of_length_pos (Nat.zero_lt_of_lt h)⟩
  | succ length ih =>
    rw [copyBack, List.getElem?_eq_getElem h]
    apply ih
    rw [List.length_append, List.length_singleton]
    exact Nat.succ_lt_succ h

/-- Once something is put out, every reference leads into it. -/
theorem lz77DecompressFrom_isSome (data : List UInt8) (h : out ≠ []) :
    (lz77DecompressFrom data out).isSome := by
  fun_induction lz77DecompressFrom data out with
  | case1 hi lo length nextChar flag rest out offset href ih =>
    have hlen := List.length_pos_of_ne_nil h
    have hoffset : 0 < offset.toNat := by
      simp only [Bool.and_eq_true, decide_eq_true_eq] at href
      exact UInt16.lt_iff_toNat_lt.mp href.1.2
    have hstart : out.length - offset.toNat < out.length := by omega
    obtain ⟨copied, hcopied, -⟩ := copyBack_inside length.toNat hstart
    rw [hcopied]
    exact ih copied (by simp)
  | case2 hi lo length nextChar flag rest out offset hplain ih => exact ih (by simp)
  | case3 => rfl

/-- The first token is a back reference, with nothing to refer to. -/
def startsWithReference : List UInt8 → Bool
  | hi :: lo :: length :: _ :: flag :: _ =>
    let offset := hi.toUInt16 <<< 8 ||| lo.toUInt16
    flag = 0x01 && 0 < offset && 0 < length
  | _ => false

theorem copyBack_nil {length : Nat} (h : 0 < length) : copyBack length 0 [] = none := by
  cases length with
  | zero => cases h
  | succ length => rfl

theorem lz77Decompress_isSome_iff (data : List UInt8) :
    (lz77Decompress data).isSome ↔ ¬ startsWithReference data = true := by
  match data with
  | hi :: lo :: length :: nextChar :: flag :: rest =>
    rw [lz77Decompress, lz77DecompressFrom, startsWithReference]
    split
    · rename_i href
      have hlength : 0 < length.toNat := by
        simp only [Bool.and_eq_true, decide_eq_true_eq] at href
        exact UInt8.lt_iff_toNat_lt.mp href.2
      rw [List.length_nil, Nat.zero_sub, copyBack_nil hlength]
      exact iff_of_false Bool.false_ne_true (not_not_intro href)
    · rename_i hplain
      exact iff_of_true (lz77DecompressFrom_isSome rest (by simp)) hplain
  | [] => exact iff_of_true rfl Bool.false_ne_true
  | [_] => exact iff_of_true rfl Bool.false_ne_true
  | [_, _] => exact iff_of_true rfl Bool.false_ne_true
  | [_, _, _] => exact iff_of_true rfl Bool.false_ne_true
  | [_, _, _, _] => exact iff_of_true rfl Bool.false_ne_true

/-- The only index out of bounds is that of a first token that refers back. -/
theorem decompressAt_isSome_iff (compressed : CompressedData) :
    (CompressionEngine.decompressAt compressed).isSome ↔
      ¬ (compressed.algorithm = .lz77 ∧ startsWithReference compressed.compressed = true) := by
  rw [decompressAt_eq]
  obtain ⟨algorithm, size, data, dict⟩ := compressed
  cases algorithm with
  | lz77 => simpa [CompressionEngine.decompress] using lz77Decompress_isSome_iff data
  | _ => simp [CompressionEngine.decompress]

/-- Five bytes that ask for a copy of what is not there. -/
theorem forged_reference_indexes_out : CompressionEngine.decompressAt
    { algorithm := .lz77, originalSize := 1, compressed := [0, 1, 1, 65, 1] } = none := by
  rw [decompressAt_eq]
  decide

end Totality

end HelixRouter.Compression
