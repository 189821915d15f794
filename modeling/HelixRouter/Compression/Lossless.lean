import HelixRouter.Compression.Codecs
import HelixRouter.Containers.Streaming

namespace HelixRouter.Compression

open Streaming

variable {data out res codes : List UInt8} {pos start len d : Nat} {window lookahead : Nat}

/-- A copy appends so many bytes, each the one that stands as far back as the copy starts. -/
theorem copyBack_spec (h : copyBack len start out = some res) : out <+: res ∧
    res.length = out.length + len ∧ ∀ k < len, res[start + k]? = res[out.length + k]? := by
  induction len generalizing start out with
  | zero =>
    cases h
    exact ⟨List.prefix_refl _, rfl, fun k hk => absurd hk (Nat.not_lt_zero k)⟩
  | succ len ih =>
    rw [copyBack] at h
    obtain ⟨byte, hbyte, hrest⟩ := Option.bind_eq_some_iff.mp h
    obtain ⟨hbegins, hlen, hsame⟩ := ih hrest
    rw [List.length_append, List.length_singleton] at hlen hsame
    obtain ⟨more, rfl⟩ := hbegins
    refine ⟨⟨byte :: more, by simp⟩, by omega, fun k hk => ?_⟩
    cases k with
    | zero =>
      have hlt := (List.getElem?_eq_some_iff.mp hbyte).1
      rw [Nat.add_zero, Nat.add_zero, List.append_assoc, List.getElem?_append_left hlt, hbyte]
      simp
    | succ k =>
      have := hsame k (by omega)
      rwa [Nat.add_right_comm, Nat.add_right_comm out.length] at this

/-- A copy from where the next bytes stand already goes on with them, also into itself. -/
theorem copyBack_take (hstart : start < pos) (hend : pos + len ≤ data.length)
    (hsame : ∀ k < len, data[start + k]? = data[pos + k]?) :
    copyBack len start (data.take pos) = some (data.take (pos + len)) := by
  induction len generalizing start pos with
  | zero => rfl
  | succ len ih =>
    have hpos : pos < data.length := by omega
    have hbyte : (data.take pos)[start]? = some data[pos] := by
      rw [List.getElem?_take_of_lt hstart]
      simpa [List.getElem?_eq_getElem hpos] using hsame 0 (Nat.succ_pos len)
    have hnext : data.take pos ++ [data[pos]] = data.take (pos + 1) :=
      List.take_append_getElem hpos
    rw [copyBack, hbyte]
    change copyBack len (start + 1) (data.take pos ++ [data[pos]]) = _
    rw [hnext, ih (by omega) (by omega) fun k hk => ?_]
    · rw [Nat.add_right_comm, Nat.add_assoc]
    · have := hsame (k + 1) (by omega)
      rwa [← Nat.add_assoc, ← Nat.add_assoc, Nat.add_right_comm, Nat.add_right_comm pos] at this

theorem lz77DecompressFrom_extends (h : lz77DecompressFrom codes out = some res) : out <+: res := by
  fun_induction lz77DecompressFrom codes out with
  | case1 hi lo length nextChar flag rest out offset href ih =>
    obtain ⟨copied, hcopied, hrest⟩ := Option.bind_eq_some_iff.mp h
    exact (copyBack_spec hcopied).1.trans ((List.prefix_append _ _).trans (ih copied hrest))
  | case2 hi lo length nextChar flag rest out offset hplain ih =>
    exact (List.prefix_append _ _).trans (ih h)
  | case3 =>
    cases h
    exact List.prefix_refl _

/-- The two bytes of an offset, put together again. -/
theorem offset_joined (offset : UInt16) :
    (offset >>> 8).toUInt8.toUInt16 <<< 8 ||| (offset &&& 0xFF).toUInt8.toUInt16 = offset := by
  apply UInt16.toNat_inj.mp
  have hlt : offset.toNat < 2 ^ 16 := offset.toNat_lt
  have hhigh : offset.toNat >>> 8 < 256 := by
    rw [Nat.shiftRight_eq_div_pow]
    omega
  have hlow : offset.toNat &&& 255 = offset.toNat % 2 ^ 8 := Nat.and_two_pow_sub_one_eq_mod _ 8
  have hshift : offset.toNat >>> 8 <<< 8 < 2 ^ 16 := by
    rw [Nat.shiftLeft_eq]
    omega
  simp only [UInt16.toNat_or, UInt16.toNat_shiftLeft, UInt8.toNat_toUInt16, UInt16.toNat_toUInt8,
    UInt16.toNat_shiftRight, UInt16.toNat_and, UInt16.reduceToNat, Nat.reduceMod, hlow,
    Nat.mod_eq_of_lt hhigh, Nat.mod_eq_of_lt hshift]
  rw [Nat.mod_eq_of_lt (Nat.mod_lt _ (by decide)), ← Nat.shiftLeft_add_eq_or_of_lt
    (Nat.mod_lt _ (by decide)), Nat.shiftLeft_eq, Nat.shiftRight_eq_div_pow]
  exact Nat.div_add_mod' _ _

theorem emits_byte (b : UInt8) (out : List UInt8) :
    Emits lz77DecompressFrom (token 0 0 b false) out [b] := by
  intro rest
  rfl

theorem bestMatch_inside (window lookahead : Nat) (hpos : pos < data.length) :
    pos + (bestMatch data window lookahead pos).2 ≤ data.length := by
  rcases bestMatch_found window lookahead hpos with hnone | ⟨start, href, -⟩
  · omega
  · exact href.inside

theorem decode_reference (offset : UInt16) (length next : UInt8) (codes out : List UInt8) :
    lz77DecompressFrom (token offset length next true ++ codes) out =
      if 0 < offset && 0 < length then
        (copyBack length.toNat (out.length - offset.toNat) out).bind fun copied =>
          lz77DecompressFrom codes (copied ++ [next])
      else lz77DecompressFrom codes (out ++ [next]) := by
  change (if (1 : UInt8) = 0x01 && _ && _ then _ else _) = _
  rw [offset_joined, decide_eq_true rfl, Bool.true_and]
  rfl

/-- The tokens of what is left never put out more than that. -/
theorem lz77From_length_le : lz77DecompressFrom (lz77From data window lookahead pos) out =
    some res → res.length ≤ out.length + (data.length - pos) := by
  fun_induction lz77From data window lookahead pos generalizing out with
  | case1 pos hpos offset len hbest bestLen hlong =>
    rename_i ih
    intro h
    have hin : pos + bestLen < data.length := by
      have := bestMatch_inside window lookahead hpos
      rw [hbest] at this
      dsimp only [bestLen]
      split <;> omega
    rw [decode_reference] at h
    split at h
    · obtain ⟨copied, hcopied, hrest⟩ := Option.bind_eq_some_iff.mp h
      have hlen := (copyBack_spec hcopied).2.1
      have hshort : (UInt8.ofNat bestLen).toNat ≤ bestLen := by
        rw [UInt8.toNat_ofNat']
        exact Nat.mod_le _ _
      have := ih hrest
      rw [List.length_append, List.length_singleton] at this
      omega
    · have := ih h
      rw [List.length_append, List.length_singleton] at this
      omega
  | case2 pos hpos offset len hbest bestLen hshort =>
    rename_i ih
    intro h
    rw [emits_byte] at h
    have := ih h
    rw [List.length_append, List.length_singleton] at this
    omega
  | case3 pos hpos =>
    intro h
    cases h
    omega

theorem take_concat_getD (h : pos < data.length) :
    data.take pos ++ [data.getD pos 0] = data.take (pos + 1) := by
  rw [List.getD_eq_getElem?_getD, List.getElem?_eq_getElem h, Option.getD_some,
    List.take_append_getElem]

theorem take_of_prefix (h : out <+: data) (hlen : out.length = pos) : out = data.take pos := by
  rw [← hlen]
  exact List.prefix_iff_eq_take.mp h

/-- Of a distance two bytes are written, of a length one. -/
theorem decode_written (d len : Nat) (next : UInt8) (codes out : List UInt8) :
    lz77DecompressFrom (token (UInt16.ofNat d) (UInt8.ofNat len) next true ++ codes) out =
      if 0 < d % 2 ^ 16 ∧ 0 < len % 2 ^ 8 then
        (copyBack (len % 2 ^ 8) (out.length - d % 2 ^ 16) out).bind fun copied =>
          lz77DecompressFrom codes (copied ++ [next])
      else lz77DecompressFrom codes (out ++ [next]) := by
  have hoffset : (UInt16.ofNat d).toNat = d % 2 ^ 16 := UInt16.toNat_ofNat'
  have hlength : (UInt8.ofNat len).toNat = len % 2 ^ 8 := UInt8.toNat_ofNat'
  have hpositive : ((0 < UInt16.ofNat d && 0 < UInt8.ofNat len) = true) ↔
      0 < d % 2 ^ 16 ∧ 0 < len % 2 ^ 8 := by
    rw [Bool.and_eq_true, decide_eq_true_eq, decide_eq_true_eq, UInt16.lt_iff_toNat_lt,
      UInt8.lt_iff_toNat_lt, hoffset, hlength]
    rfl
  rw [decode_reference, hoffset, hlength]
  simp only [hpositive]

/-- What is copied begins the text, and only the whole length copied leaves enough to come. -/
theorem writable_of_decoded (hback : d ≤ pos) (hlen : 0 < len) (hin : pos + len < data.length)
    (h : lz77DecompressFrom (token (UInt16.ofNat d) (UInt8.ofNat len) (data.getD (pos + len) 0)
      true ++ lz77From data window lookahead (pos + len + 1)) (data.take pos) = some data) :
    BackReference.Writable data ⟨pos, d, len⟩ ∧
      lz77DecompressFrom (lz77From data window lookahead (pos + len + 1))
        (data.take (pos + len + 1)) = some data := by
  have htaken : (data.take pos).length = pos := List.length_take_of_le (by omega)
  rw [decode_written, htaken] at h
  split at h
  · rename_i href
    obtain ⟨copied, hcopied, hrest⟩ := Option.bind_eq_some_iff.mp h
    obtain ⟨-, hcount, hsame⟩ := copyBack_spec hcopied
    rw [htaken] at hcount hsame
    have hwhole := lz77From_length_le hrest
    rw [List.length_append, List.length_singleton] at hwhole
    have hshort : len % 2 ^ 8 = len := by
      have := Nat.mod_le len (2 ^ 8)
      omega
    rw [hshort] at hcount hsame
    have hbegins : copied <+: data :=
      (List.prefix_append _ _).trans (lz77DecompressFrom_extends hrest)
    have hcopy : copied = data.take (pos + len) := take_of_prefix hbegins hcount
    rw [hcopy, take_concat_getD hin] at hrest
    refine ⟨⟨?_, Nat.ne_of_gt href.1, fun k hk => ?_⟩, hrest⟩
    · rw [← hshort]
      exact Nat.mod_lt _ (by decide)
    · have hk : k < len := hk
      have hbyte := hsame k hk
      rwa [hcopy, List.getElem?_take_of_lt (by omega),
        List.getElem?_take_of_lt (by omega)] at hbyte
  · have hwhole := lz77From_length_le h
    rw [List.length_append, List.length_singleton, htaken] at hwhole
    omega

theorem decoded_of_writable (hback : d ≤ pos) (hlen : 0 < len) (hin : pos + len < data.length)
    (hwritable : BackReference.Writable data ⟨pos, d, len⟩) :
    lz77DecompressFrom (token (UInt16.ofNat d) (UInt8.ofNat len) (data.getD (pos + len) 0) true ++
        lz77From data window lookahead (pos + len + 1)) (data.take pos) =
      lz77DecompressFrom (lz77From data window lookahead (pos + len + 1))
        (data.take (pos + len + 1)) := by
  have htaken : (data.take pos).length = pos := List.length_take_of_le (by omega)
  have hshort : len % 2 ^ 8 = len := Nat.mod_eq_of_lt hwritable.short
  have hfar : 0 < d % 2 ^ 16 := Nat.pos_of_ne_zero hwritable.back
  have hsame : ∀ k < len, data[pos - d % 2 ^ 16 + k]? = data[pos + k]? := hwritable.same
  have hcopy := copyBack_take (by omega) (Nat.le_of_lt hin) hsame
  rw [decode_written, htaken, hshort, if_pos ⟨hfar, hlen⟩, hcopy, Option.bind_some,
    take_concat_getD hin]

/-- A back reference that is not writable loses bytes, or copies others. -/
theorem reference_iff (hback : d ≤ pos) (hlen : 0 < len) (hin : pos + len < data.length) :
    lz77DecompressFrom (token (UInt16.ofNat d) (UInt8.ofNat len) (data.getD (pos + len) 0) true ++
        lz77From data window lookahead (pos + len + 1)) (data.take pos) = some data ↔
      BackReference.Writable data ⟨pos, d, len⟩ ∧
        lz77DecompressFrom (lz77From data window lookahead (pos + len + 1))
          (data.take (pos + len + 1)) = some data := by
  constructor
  · intro h
    exact writable_of_decoded hback hlen hin h
  · rintro ⟨hwritable, hrest⟩
    rw [decoded_of_writable hback hlen hin hwritable]
    exact hrest

/-- From any position on, what is lost is lost by a match that is not writable. -/
theorem lossless_from (data : List UInt8) (window lookahead pos : Nat) :
    lz77DecompressFrom (lz77From data window lookahead pos) (data.take pos) = some data ↔
      ∀ m ∈ parse data window lookahead pos, m.Writable data := by
  fun_induction parse data window lookahead pos with
  | case1 pos hpos distance len hlongest bestLen hlong ih =>
    have hfound := longestMatch_found window lookahead hpos
    rw [hlongest] at hfound
    rcases hfound with hnone | ⟨start, href, rfl⟩
    · have : bestLen = 0 := by simp_all [bestLen]
      omega
    · have hinside := href.inside
      have hstart := href.start_lt
      have hin : pos + bestLen < data.length := by
        dsimp only [bestLen] at hlong ⊢
        split <;> omega
      have hfrom : lz77From data window lookahead pos =
          token (UInt16.ofNat (pos - start)) (UInt8.ofNat bestLen) (data.getD (pos + bestLen) 0)
            true ++ lz77From data window lookahead (pos + bestLen + 1) := by
        rw [lz77From, if_pos hpos, bestMatch_eq, hlongest]
        exact if_pos hlong
      rw [hfrom, reference_iff (Nat.sub_le _ _) (by omega) hin, ih]
      exact List.forall_mem_cons.symm
  | case2 pos hpos distance len hlongest bestLen hshort ih =>
    have hfrom : lz77From data window lookahead pos =
        token 0 0 (data.getD pos 0) false ++ lz77From data window lookahead (pos + 1) := by
      rw [lz77From, if_pos hpos, bestMatch_eq, hlongest]
      exact if_neg hshort
    rw [hfrom, emits_byte, take_concat_getD hpos]
    exact ih
  | case3 pos hpos =>
    have hfrom : lz77From data window lookahead pos = [] := by
      rw [lz77From, if_neg hpos]
    rw [hfrom, List.take_of_length_le (Nat.le_of_not_lt hpos)]
    exact iff_of_true rfl fun m hm => nomatch hm

/-- A window and a lookahead that fit their fields leave nothing that is not writable. -/
theorem parse_writable (hw : window < 2 ^ 16) (hl : lookahead < 2 ^ 8) (pos : Nat) :
    ∀ m ∈ parse data window lookahead pos, m.Writable data := by
  fun_induction parse data window lookahead pos with
  | case1 pos hpos distance len hlongest bestLen hlong ih =>
    refine List.forall_mem_cons.mpr ⟨?_, ih⟩
    have hfound := longestMatch_found window lookahead hpos
    rw [hlongest] at hfound
    rcases hfound with hnone | ⟨start, href, rfl⟩
    · have : bestLen = 0 := by simp_all [bestLen]
      omega
    · have hshort : Refers data window lookahead pos start bestLen :=
        href.shorten (by dsimp only [bestLen]; split <;> omega)
      have hstart := hshort.start_lt
      have hdistance : (pos - start) % 2 ^ 16 = pos - start :=
        Nat.mod_eq_of_lt (Nat.lt_of_le_of_lt hshort.near hw)
      refine ⟨Nat.lt_of_le_of_lt hshort.short hl, ?_, fun k hk => ?_⟩
      · rw [hdistance]
        omega
      · have hk : k < bestLen := hk
        have hsame := congrArg (·[k]?) hshort.same
        rw [List.getElem?_take_of_lt hk, List.getElem?_take_of_lt hk, List.getElem?_drop,
          List.getElem?_drop] at hsame
        rw [hdistance, Nat.sub_sub_self (Nat.le_of_lt hstart)]
        exact hsame
  | case2 pos hpos distance len hlongest bestLen hshort ih => exact ih
  | case3 => exact fun m hm => nomatch hm

example : lz77Decompress (token 0 0 7 false ++ token 0 0 8 false ++ token 2 2 9 true) =
    some [7, 8, 7, 8, 9] := by decide

/-- Decompression gives back what was compressed exactly if every match that is taken is short
enough for its byte, and as far back as its two bytes say or as good as that. -/
theorem lz77_lossless_iff (data : List UInt8) (window lookahead : Nat) :
    lz77Decompress (lz77Compress data window lookahead) = some data ↔
      ∀ m ∈ parse data window lookahead 0, m.Writable data :=
  lossless_from data window lookahead 0

section Constant

variable {b : UInt8} {n pos window lookahead : Nat}

theorem matchLen_replicate (b : UInt8) (m n : Nat) :
    matchLen (List.replicate m b) (List.replicate n b) = min m n := by
  induction m generalizing n with
  | zero => simp [matchLen]
  | succ m ih =>
    cases n with
    | zero => simp [matchLen, List.replicate_succ]
    | succ n =>
      rw [List.replicate_succ, List.replicate_succ, matchLen, if_pos rfl, ih, Nat.succ_min_succ]

/-- In a constant text the longest match is the one that starts farthest back. -/
theorem longestMatch_constant (hpos : 0 < pos) (hw : pos ≤ window)
    (hend : pos + min pos lookahead < n) (hword : pos + lookahead < 2 ^ 64)
    (hl : 0 < lookahead) :
    longestMatch (List.replicate n b) window lookahead pos = (pos, min pos lookahead) := by
  have hlen : ∀ start ≤ pos, matchLen (((List.replicate n b).take pos).drop start)
      (((List.replicate n b).take (min ((pos + lookahead) % 2 ^ 64) n)).drop pos) =
        min (pos - start) (min lookahead (n - pos)) := by
    intro start hstart
    simp only [List.take_replicate, List.drop_replicate, matchLen_replicate,
      Nat.mod_eq_of_lt hword]
    omega
  have hkeep : ∀ l : List Nat, (∀ start ∈ l, start < pos) →
      l.foldl (fun best start =>
        if best.2 < min (pos - start) (min lookahead (n - pos))
          then (pos - start, min (pos - start) (min lookahead (n - pos))) else best)
        (pos, min pos lookahead) = (pos, min pos lookahead) := by
    intro l hl
    induction l with
    | nil => rfl
    | cons start l ih =>
      rw [List.foldl_cons, if_neg (by dsimp only; omega)]
      exact ih fun s hs => hl s (List.mem_cons_of_mem _ hs)
  have hrange :
      List.range' (pos - window) (pos - (pos - window)) = 0 :: List.range' 1 (pos - 1) := by
    rw [Nat.sub_eq_zero_of_le hw, Nat.sub_zero, ← Nat.succ_pred_eq_of_pos hpos, List.range'_succ]
    rfl
  unfold longestMatch
  dsimp only
  rw [List.length_replicate, hrange, List.foldl_cons, hlen 0 (Nat.zero_le _), Nat.sub_zero,
    if_pos (by dsimp only; omega)]
  have hfirst : min pos (min lookahead (n - pos)) = min pos lookahead := by omega
  rw [hfirst]
  refine (List.foldl_ext _ _ _ fun best start hstart => ?_).trans (hkeep (List.range' 1 (pos - 1))
    fun start hstart => ?_)
  · have := (List.mem_range'_1.mp hstart).2
    rw [hlen start (by omega)]
  · have := (List.mem_range'_1.mp hstart).2
    omega

theorem parse_constant (hw : pos ≤ window) (hl : 2 ≤ min pos lookahead)
    (hend : pos + min pos lookahead < n) (hword : pos + lookahead < 2 ^ 64) :
    parse (List.replicate n b) window lookahead pos = ⟨pos, pos, min pos lookahead⟩ ::
      parse (List.replicate n b) window lookahead (pos + min pos lookahead + 1) := by
  rw [parse, List.length_replicate, if_pos (by omega),
    longestMatch_constant (by omega) hw hend hword (by omega)]
  have hwhole : ¬ n ≤ pos + min pos lookahead := by omega
  simp only [hwhole, if_false, hl, if_true]

theorem parse_literal (hpos : pos < data.length)
    (h : (longestMatch data window lookahead pos).2 < 2) :
    parse data window lookahead pos = parse data window lookahead (pos + 1) := by
  cases hm : longestMatch data window lookahead pos with
  | mk distance len =>
    rw [hm] at h
    rw [parse, if_pos hpos, hm]
    apply if_neg
    split <;> omega

/-- The matches in a constant text double in length, from one of two bytes on. -/
theorem mem_parse_double {m : BackReference} (h2 : 2 ≤ pos) (hw : pos ≤ window)
    (hl : pos ≤ lookahead) (hend : pos + pos < n) (hword : pos + lookahead < 2 ^ 64)
    (h : m ∈ parse (List.replicate n b) window lookahead (pos + pos + 1)) :
    m ∈ parse (List.replicate n b) window lookahead pos := by
  have hmin : min pos lookahead = pos := Nat.min_eq_left hl
  rw [parse_constant hw (by omega) (by omega) hword, hmin]
  exact List.mem_cons_of_mem _ h

theorem longestMatch_start : longestMatch data window lookahead 0 = (0, 0) := by
  simp [longestMatch]

/-- After 383 equal bytes a match of 256 more is found. -/
theorem mem_parse_constant (hn : 640 ≤ n) :
    (⟨383, 383, 256⟩ : BackReference) ∈ parse (List.replicate n b) 1024 256 0 := by
  have hlen : (List.replicate n b).length = n := List.length_replicate
  have hone : longestMatch (List.replicate n b) 1024 256 1 = (1, 1) :=
    longestMatch_constant (by omega) (by omega) (by omega) (by omega) (by omega)
  rw [parse_literal (by omega) (by rw [longestMatch_start]; decide),
    parse_literal (by omega) (by rw [hone]; decide)]
  iterate 7 refine mem_parse_double (by omega) (by omega) (by omega) (by omega) (by omega) ?_
  rw [parse_constant (by omega) (by omega) (by omega) (by omega)]
  exact List.mem_cons_self

/-- The length of that match is written as none, and its bytes are lost. -/
theorem long_match_lost : lz77Decompress (lz77Compress (List.replicate 640 0) 1024 256) ≠
    some (List.replicate 640 0) := by
  intro h
  have hall := (lossless_from (List.replicate 640 0) 1024 256 0).mp h
  exact absurd (hall _ (mem_parse_constant (Nat.le_refl _))).short (by decide)

end Constant

end HelixRouter.Compression
