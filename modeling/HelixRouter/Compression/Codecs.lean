import HelixRouter.Containers.IterationOrder
import Mathlib.Algebra.Ring.Nat
import Mathlib.Data.List.AList

namespace HelixRouter.Compression

inductive CompressionAlgorithm
  | none
  | runLength
  | dictionary
  | lz77
  deriving DecidableEq

structure CompressedData where
  algorithm : CompressionAlgorithm
  originalSize : Nat
  compressed : List UInt8
  dict : Option (List (List UInt8)) := .none

section RunLength

/-- How many bytes after the first belong to its run; a run ends at `255`. -/
def runRest (byte : UInt8) (rest : List UInt8) : Nat :=
  min (rest.takeWhile (· = byte)).length 254

def runLengthEncode : List UInt8 → List UInt8
  | [] => []
  | byte :: rest =>
    UInt8.ofNat (runRest byte rest + 1) :: byte :: runLengthEncode (rest.drop (runRest byte rest))
  termination_by data => data.length
  decreasing_by
    rw [List.length_drop, List.length_cons]
    omega

def runLengthDecodeFrom : List UInt8 → List UInt8 → List UInt8
  | count :: byte :: rest, out => runLengthDecodeFrom rest (out ++ List.replicate count.toNat byte)
  | _, out => out

def runLengthDecode (data : List UInt8) : List UInt8 := runLengthDecodeFrom data []

end RunLength

section Dictionary

abbrev Ngram := List UInt8

/-- The sequences of two to four bytes, from the shortest on. -/
def ngrams (data : List UInt8) : List Ngram :=
  [2, 3, 4].flatMap fun len =>
    (List.range (data.length - (len - 1))).map fun start => (data.drop start).take len

def frequencies (data : List UInt8) : AList fun _ : Ngram => Nat :=
  (ngrams data).foldl (fun freq ngram => freq.insert ngram ((freq.lookup ngram).getD 0 + 1)) ∅

/-- More frequent entries first, of these the longer ones. -/
def beforeInDictionary (a b : Σ _ : Ngram, Nat) : Bool :=
  b.2 < a.2 || (b.2 = a.2 && b.1.length ≤ a.1.length)

/-- The dictionary for one order in which the frequencies are walked. -/
def learnDictionary (order : IterationOrder (Σ _ : Ngram, Nat)) (data : List UInt8)
    (dictSize : Nat) : List Ngram :=
  let entries := (order.arrange (frequencies data).entries).filter (1 < ·.2)
  ((entries.mergeSort beforeInDictionary).take (min dictSize 253)).map (·.1)

def lookupMap (dict : List Ngram) : AList fun _ : Ngram => UInt8 :=
  dict.zipIdx.foldl (fun lookup (seq, i) => lookup.insert seq (UInt8.ofNat i)) ∅

/-- The longest entry that the data starts with, and its index. -/
def longestEntry (lookup : AList fun _ : Ngram => UInt8) (data : List UInt8) :
    Option (Nat × UInt8) :=
  [4, 3, 2].findSome? fun len =>
    if data.length < len then .none else (lookup.lookup (data.take len)).map fun idx => (len, idx)

theorem longestEntry_eq_some {lookup : AList fun _ : Ngram => UInt8} {data : List UInt8}
    {len : Nat} {idx : UInt8} (h : longestEntry lookup data = some (len, idx)) :
    0 < len ∧ len ≤ data.length ∧ lookup.lookup (data.take len) = some idx := by
  obtain ⟨n, hn, hf⟩ := List.exists_of_findSome?_eq_some h
  split at hf
  · cases hf
  · rename_i hle
    obtain ⟨i, hi, he⟩ := Option.map_eq_some_iff.mp hf
    cases he
    refine ⟨?_, Nat.le_of_not_lt hle, hi⟩
    simp only [List.mem_cons, List.not_mem_nil, or_false] at hn
    omega

def dictionaryTokens (lookup : AList fun _ : Ngram => UInt8) (data : List UInt8) : List UInt8 :=
  match data with
  | [] => []
  | b :: rest =>
    match _h : longestEntry lookup (b :: rest) with
    | some (len, idx) => 0xFE :: idx :: dictionaryTokens lookup ((b :: rest).drop len)
    | .none =>
      (if b = 0xFE || b = 0xFF then [0xFF, b] else [b]) ++ dictionaryTokens lookup rest
  termination_by data.length
  decreasing_by
    · have := longestEntry_eq_some _h
      rw [List.length_drop]
      omega
    · exact Nat.lt_succ_self _

def dictionaryCompress (order : IterationOrder (Σ _ : Ngram, Nat)) (data : List UInt8)
    (dictSize : Nat) : List UInt8 × List Ngram :=
  let dict := learnDictionary order data dictSize
  (dictionaryTokens (lookupMap dict) data, dict)

def dictionaryDecompressFrom (dict : List Ngram) : List UInt8 → List UInt8 → List UInt8
  | b :: next :: rest, out =>
    if b = 0xFE then
      dictionaryDecompressFrom dict rest (out ++ (dict[next.toNat]?).getD [])
    else if b = 0xFF then dictionaryDecompressFrom dict rest (out ++ [next])
    else dictionaryDecompressFrom dict (next :: rest) (out ++ [b])
  | [b], out => out ++ [b]
  | [], out => out

def dictionaryDecompress (data : List UInt8) (dict : List Ngram) : List UInt8 :=
  dictionaryDecompressFrom dict data []

end Dictionary

section Lz77

/-- How far a match runs, from its start in the window up to where the window ends. -/
def matchLen : List UInt8 → List UInt8 → Nat
  | a :: window, b :: lookahead => if a = b then matchLen window lookahead + 1 else 0
  | _, _ => 0

/-- The offset and the length of the first longest match in the window. -/
def bestMatch (data : List UInt8) (window lookahead pos : Nat) : UInt16 × Nat :=
  let winStart := pos - window
  let laEnd := min ((pos + lookahead) % 2 ^ 64) data.length
  (List.range' winStart (pos - winStart)).foldl (fun best start =>
    let len := matchLen ((data.take pos).drop start) ((data.take laEnd).drop pos)
    if best.2 < len then (UInt16.ofNat (pos - start), len) else best) (0, 0)

def token (offset : UInt16) (length next : UInt8) (isRef : Bool) : List UInt8 :=
  [(offset >>> 8).toUInt8, (offset &&& 0xFF).toUInt8, length, next, if isRef then 0x01 else 0x00]

/-- The tokens from a position on. A match to the end of the input gives up its last byte. -/
def lz77From (data : List UInt8) (window lookahead pos : Nat) : List UInt8 :=
  if pos < data.length then
    let (bestOffset, len) := bestMatch data window lookahead pos
    let bestLen := if data.length ≤ pos + len then len - 1 else len
    if 2 ≤ bestLen then
      token bestOffset (UInt8.ofNat bestLen) (data.getD (pos + bestLen) 0) true ++
        lz77From data window lookahead (pos + bestLen + 1)
    else token 0 0 (data.getD pos 0) false ++ lz77From data window lookahead (pos + 1)
  else []
  termination_by data.length - pos

def lz77Compress (data : List UInt8) (window lookahead : Nat) : List UInt8 :=
  lz77From data window lookahead 0

/-- Copies bytes that were put out before; there is no result where the index is out of bounds. -/
def copyBack : Nat → Nat → List UInt8 → Option (List UInt8)
  | 0, _, out => some out
  | length + 1, start, out => do
    let byte ← out[start]?
    copyBack length (start + 1) (out ++ [byte])

def lz77DecompressFrom : List UInt8 → List UInt8 → Option (List UInt8)
  | hi :: lo :: length :: nextChar :: flag :: rest, out =>
    let offset := hi.toUInt16 <<< 8 ||| lo.toUInt16
    if flag = 0x01 && 0 < offset && 0 < length then do
      let copied ← copyBack length.toNat (out.length - offset.toNat) out
      lz77DecompressFrom rest (copied ++ [nextChar])
    else lz77DecompressFrom rest (out ++ [nextChar])
  | _, out => some out

def lz77Decompress (data : List UInt8) : Option (List UInt8) := lz77DecompressFrom data []

end Lz77

namespace CompressionEngine

def compress (order : IterationOrder (Σ _ : Ngram, Nat)) (data : List UInt8)
    (algo : CompressionAlgorithm) : CompressedData :=
  match algo with
  | .none => { algorithm := .none, originalSize := data.length, compressed := data }
  | .runLength =>
    { algorithm := .runLength, originalSize := data.length, compressed := runLengthEncode data }
  | .dictionary =>
    let (compressed, dict) := dictionaryCompress order data 128
    { algorithm := .dictionary, originalSize := data.length, compressed := compressed,
      dict := some dict }
  | .lz77 =>
    { algorithm := .lz77, originalSize := data.length, compressed := lz77Compress data 255 16 }

/-- There is no result where the decoder indexes out of bounds. -/
def decompress (compressed : CompressedData) : Option (List UInt8) :=
  match compressed.algorithm with
  | .none => some compressed.compressed
  | .runLength => some (runLengthDecode compressed.compressed)
  | .dictionary => some (dictionaryDecompress compressed.compressed (compressed.dict.getD []))
  | .lz77 => lz77Decompress compressed.compressed

end CompressionEngine

variable {data : List UInt8} {pos start len : Nat}

theorem matchLen_le_left (w l : List UInt8) : matchLen w l ≤ w.length := by
  fun_induction matchLen w l with
  | case1 a w l ih => exact Nat.succ_le_succ ih
  | case2 => exact Nat.zero_le _
  | case3 => exact Nat.zero_le _

theorem matchLen_le_right (w l : List UInt8) : matchLen w l ≤ l.length := by
  fun_induction matchLen w l with
  | case1 a w l ih => exact Nat.succ_le_succ ih
  | case2 => exact Nat.zero_le _
  | case3 => exact Nat.zero_le _

theorem take_matchLen (w l : List UInt8) : w.take (matchLen w l) = l.take (matchLen w l) := by
  fun_induction matchLen w l with
  | case1 a w l ih => rw [List.take_succ_cons, List.take_succ_cons, ih]
  | case2 => rfl
  | case3 => rfl

/-- A back reference that gives the next bytes: it starts in the window, ends before the
position and inside the lookahead. -/
structure Refers (data : List UInt8) (window lookahead pos start len : Nat) : Prop where
  start_lt : start < pos
  near : pos - start ≤ window
  apart : start + len ≤ pos
  short : len ≤ lookahead
  inside : pos + len ≤ data.length
  same : (data.drop start).take len = (data.drop pos).take len

theorem Refers.shorten {window lookahead len' : Nat}
    (h : Refers data window lookahead pos start len) (hle : len' ≤ len) :
    Refers data window lookahead pos start len' where
  start_lt := h.start_lt
  near := h.near
  apart := by have := h.apart; omega
  short := Nat.le_trans hle h.short
  inside := by have := h.inside; omega
  same := by
    have := congrArg (List.take len') h.same
    rwa [List.take_take, List.take_take, Nat.min_eq_left hle] at this

theorem refers_matchLen {window lookahead laEnd : Nat} (hstart : start < pos)
    (hnear : pos - start ≤ window) (hpos : pos < data.length) (hla : laEnd ≤ pos + lookahead)
    (hend : laEnd ≤ data.length) : Refers data window lookahead pos start
      (matchLen ((data.take pos).drop start) ((data.take laEnd).drop pos)) where
  start_lt := hstart
  near := hnear
  apart := by
    have := matchLen_le_left ((data.take pos).drop start) ((data.take laEnd).drop pos)
    rw [List.length_drop, List.length_take] at this
    omega
  short := by
    have := matchLen_le_right ((data.take pos).drop start) ((data.take laEnd).drop pos)
    rw [List.length_drop, List.length_take] at this
    omega
  inside := by
    have := matchLen_le_right ((data.take pos).drop start) ((data.take laEnd).drop pos)
    rw [List.length_drop, List.length_take] at this
    omega
  same := by
    have hl := matchLen_le_left ((data.take pos).drop start) ((data.take laEnd).drop pos)
    have hr := matchLen_le_right ((data.take pos).drop start) ((data.take laEnd).drop pos)
    have hsame := take_matchLen ((data.take pos).drop start) ((data.take laEnd).drop pos)
    generalize matchLen ((data.take pos).drop start) ((data.take laEnd).drop pos) = n at *
    rw [List.length_drop, List.length_take] at hl hr
    rw [List.drop_take, List.drop_take, List.take_take, List.take_take] at hsame
    rw [Nat.min_eq_left (by omega), Nat.min_eq_left (by omega)] at hsame
    exact hsame

/-- The distance and the length of the first longest match, before they are cut to the fields
of a token. -/
def longestMatch (data : List UInt8) (window lookahead pos : Nat) : Nat × Nat :=
  let winStart := pos - window
  let laEnd := min ((pos + lookahead) % 2 ^ 64) data.length
  (List.range' winStart (pos - winStart)).foldl (fun best start =>
    let len := matchLen ((data.take pos).drop start) ((data.take laEnd).drop pos)
    if best.2 < len then (pos - start, len) else best) (0, 0)

theorem bestMatch_eq (data : List UInt8) (window lookahead pos : Nat) :
    bestMatch data window lookahead pos =
      (UInt16.ofNat (longestMatch data window lookahead pos).1,
        (longestMatch data window lookahead pos).2) := by
  let cut : Nat × Nat → UInt16 × Nat := fun best => (UInt16.ofNat best.1, best.2)
  change _ = cut (longestMatch data window lookahead pos)
  have hstart : ((0, 0) : UInt16 × Nat) = cut (0, 0) := rfl
  unfold bestMatch longestMatch
  dsimp only
  rw [hstart]
  refine List.foldl_hom cut fun best start => ?_
  dsimp only [cut]
  split <;> rfl

theorem longestMatch_found (window lookahead : Nat) (hpos : pos < data.length) :
    (longestMatch data window lookahead pos).2 = 0 ∨
      ∃ start, Refers data window lookahead pos start (longestMatch data window lookahead pos).2 ∧
        (longestMatch data window lookahead pos).1 = pos - start := by
  unfold longestMatch
  refine List.foldlRecOn (motive := fun best : Nat × Nat => best.2 = 0 ∨
    ∃ start, Refers data window lookahead pos start best.2 ∧ best.1 = pos - start) _ _ (.inl rfl) ?_
  intro best hbest start hstart
  obtain ⟨hle, hlt⟩ := List.mem_range'_1.mp hstart
  by_cases hlen : best.2 < matchLen ((data.take pos).drop start)
      ((data.take (min ((pos + lookahead) % 2 ^ 64) data.length)).drop pos)
  · simp only [hlen, if_true]
    refine .inr ⟨start, refers_matchLen (by omega) (by omega) hpos ?_ (Nat.min_le_right _ _), rfl⟩
    exact Nat.le_trans (Nat.min_le_left _ _) (Nat.mod_le _ _)
  · simp only [hlen, if_false]
    exact hbest

/-- No match at all, or the offset of a back reference. -/
def MatchFound (data : List UInt8) (window lookahead pos : Nat) (best : UInt16 × Nat) : Prop :=
  best.2 = 0 ∨ ∃ start, Refers data window lookahead pos start best.2 ∧
    best.1 = UInt16.ofNat (pos - start)

theorem bestMatch_found (window lookahead : Nat) (hpos : pos < data.length) :
    MatchFound data window lookahead pos (bestMatch data window lookahead pos) := by
  rw [bestMatch_eq]
  rcases longestMatch_found window lookahead hpos with hnone | ⟨start, href, hdistance⟩
  · exact .inl hnone
  · exact .inr ⟨start, href, congrArg UInt16.ofNat hdistance⟩

/-- A match that is taken: where, how far back and how long. -/
structure BackReference where
  pos : Nat
  distance : Nat
  length : Nat

/-- The matches that are taken from a position on, each with what its search has found. -/
def parse (data : List UInt8) (window lookahead pos : Nat) : List BackReference :=
  if pos < data.length then
    let (distance, len) := longestMatch data window lookahead pos
    let bestLen := if data.length ≤ pos + len then len - 1 else len
    if 2 ≤ bestLen then
      ⟨pos, distance, bestLen⟩ :: parse data window lookahead (pos + bestLen + 1)
    else parse data window lookahead (pos + 1)
  else []
  termination_by data.length - pos

/-- What the fields of a token have room for: the length, and a distance, or else the same bytes
at what is left of the distance. -/
structure BackReference.Writable (data : List UInt8) (m : BackReference) : Prop where
  short : m.length < 2 ^ 8
  back : m.distance % 2 ^ 16 ≠ 0
  same : ∀ k < m.length, data[m.pos - m.distance % 2 ^ 16 + k]? = data[m.pos + k]?

end HelixRouter.Compression
