import HelixRouter.Compression.Lossless
import Mathlib.Data.List.Induction
import Mathlib.Data.List.TakeWhile

namespace HelixRouter.Compression

open Streaming

section RunLength

variable {byte : UInt8} {rest out : List UInt8}

theorem take_run {n : Nat} (h : n ≤ (rest.takeWhile (· = byte)).length) :
    rest.take n = List.replicate n byte := by
  refine List.eq_replicate_iff.mpr ⟨?_, fun b hb => ?_⟩
  · rw [List.length_take, Nat.min_eq_left (Nat.le_trans h (List.takeWhile_prefix _).length_le)]
  · rw [← List.takeWhile_append_dropWhile (p := (· = byte)) (l := rest),
      List.take_append_of_le_length h] at hb
    simpa using List.mem_takeWhile_imp (List.mem_of_mem_take hb)

theorem run_split (byte : UInt8) (rest : List UInt8) :
    rest = List.replicate (runRest byte rest) byte ++ rest.drop (runRest byte rest) := by
  have hrun : rest.take (runRest byte rest) = _ := take_run (Nat.min_le_left _ _)
  rw [← hrun, List.take_append_drop]

theorem runRest_le (byte : UInt8) (rest : List UInt8) : runRest byte rest ≤ 254 :=
  Nat.min_le_right _ _

theorem emits_run (count byte : UInt8) (out : List UInt8) :
    Emits runLengthDecodeFrom [count, byte] out (List.replicate count.toNat byte) := by
  intro rest
  rfl

theorem runLength_emits (data out : List UInt8) :
    Emits runLengthDecodeFrom (runLengthEncode data) out data := by
  fun_induction runLengthEncode data generalizing out with
  | case1 => exact Emits.nil
  | case2 byte rest ih =>
    have hcount : (UInt8.ofNat (runRest byte rest + 1)).toNat = runRest byte rest + 1 :=
      UInt8.toNat_ofNat_of_lt' (Nat.lt_of_le_of_lt (Nat.succ_le_succ (runRest_le _ _)) (by decide))
    have hrun := emits_run (UInt8.ofNat (runRest byte rest + 1)) byte out
    rw [hcount] at hrun
    have hsplit : byte :: rest = List.replicate (runRest byte rest + 1) byte ++
        rest.drop (runRest byte rest) := by
      rw [List.replicate_succ, List.cons_append, ← run_split]
    rw [hsplit]
    exact hrun.append (ih _)

end RunLength

section Dictionary

variable {dict : List Ngram} {lookup : AList fun _ : Ngram => UInt8}

/-- Every index in the lookup map is the place of its entry in the dictionary. -/
theorem lookupMap_index {seq : Ngram} {idx : UInt8} (hlen : dict.length ≤ 256)
    (h : (lookupMap dict).lookup seq = some idx) : dict[idx.toNat]? = some seq := by
  induction dict using List.reverseRecOn with
  | nil => simp [lookupMap] at h
  | append_singleton dict last ih =>
    rw [List.length_append, List.length_singleton] at hlen
    unfold lookupMap at h ih
    rw [List.zipIdx_append, List.foldl_append] at h
    simp only [List.zipIdx_singleton, List.foldl_cons, List.foldl_nil, Nat.zero_add] at h
    by_cases hseq : seq = last
    · rw [hseq, AList.lookup_insert] at h
      cases h
      rw [UInt8.toNat_ofNat_of_lt' (show dict.length < 256 by omega), hseq]
      simp
    · rw [AList.lookup_insert_ne hseq] at h
      have hold := ih (by omega) h
      rw [List.getElem?_append_left (List.getElem?_eq_some_iff.mp hold).1, hold]

theorem emits_entry {idx : UInt8} {seq : Ngram} (h : dict[idx.toNat]? = some seq)
    (out : List UInt8) : Emits (dictionaryDecompressFrom dict) [0xFE, idx] out seq := by
  intro rest
  rw [List.cons_append, List.singleton_append, dictionaryDecompressFrom, if_pos rfl, h]
  rfl

theorem emits_escaped (b : UInt8) (out : List UInt8) :
    Emits (dictionaryDecompressFrom dict) [0xFF, b] out [b] := by
  intro rest
  rw [List.cons_append, List.singleton_append, dictionaryDecompressFrom, if_neg (by decide),
    if_pos rfl]

theorem emits_plain {b : UInt8} (hfe : b ≠ 0xFE) (hff : b ≠ 0xFF) (out : List UInt8) :
    Emits (dictionaryDecompressFrom dict) [b] out [b] := by
  intro rest
  cases rest with
  | nil => simp [dictionaryDecompressFrom]
  | cons next rest =>
    rw [List.singleton_append, dictionaryDecompressFrom, if_neg hfe, if_neg hff]

theorem emits_literal (b : UInt8) (out : List UInt8) : Emits (dictionaryDecompressFrom dict)
    (if b = 0xFE || b = 0xFF then [0xFF, b] else [b]) out [b] := by
  by_cases h : (b = 0xFE || b = 0xFF) = true
  · rw [if_pos h]
    exact emits_escaped b out
  · rw [if_neg h]
    simp only [Bool.or_eq_true, decide_eq_true_eq, not_or] at h
    exact emits_plain h.1 h.2 out

theorem dictionary_emits
    (hindex : ∀ seq idx, lookup.lookup seq = some idx → dict[idx.toNat]? = some seq)
    (data out : List UInt8) :
    Emits (dictionaryDecompressFrom dict) (dictionaryTokens lookup data) out data := by
  fun_induction dictionaryTokens lookup data generalizing out with
  | case1 => exact Emits.nil
  | case2 b rest len idx h ih =>
    obtain ⟨-, -, hl⟩ := longestEntry_eq_some h
    have happend := (emits_entry (hindex _ _ hl) out).append (ih _)
    rwa [List.take_append_drop] at happend
  | case3 b rest h ih => exact (emits_literal b out).append (ih _)

theorem learnDictionary_length (order : IterationOrder (Σ _ : Ngram, Nat)) (data : List UInt8)
    (dictSize : Nat) : (learnDictionary order data dictSize).length ≤ 253 := by
  unfold learnDictionary
  rw [List.length_map, List.length_take]
  omega

end Dictionary

/-- What is compressed comes back, for every algorithm and whatever order the frequencies of
the n-grams are walked in. -/
theorem round_trip (order : IterationOrder (Σ _ : Ngram, Nat)) (data : List UInt8)
    (algo : CompressionAlgorithm) :
    CompressionEngine.decompress (CompressionEngine.compress order data algo) = some data := by
  cases algo with
  | none => rfl
  | runLength => exact congrArg some (runLength_emits data []).run
  | dictionary =>
    have hlen := learnDictionary_length order data 128
    have hindex : ∀ seq idx, (lookupMap (learnDictionary order data 128)).lookup seq = some idx →
        (learnDictionary order data 128)[idx.toNat]? = some seq :=
      fun seq idx h => lookupMap_index (by omega) h
    exact congrArg some (dictionary_emits hindex data []).run
  | lz77 => exact (lossless_from data 255 16 0).mpr (parse_writable (by decide) (by decide) 0)

end HelixRouter.Compression
