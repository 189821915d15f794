import HelixRouter.Json.Grammar
import HelixRouter.Json.Rfc8259

namespace HelixRouter.Json

open Texts

variable {a b s t raw : Text}

namespace StringBody

theorem ge_space (h : StringBody raw) : ∀ c ∈ raw, ' ' ≤ c := by
  induction h with
  | nil => exact fun _ hc => (nomatch hc)
  | plain hc _ _ _ ih => exact List.forall_mem_cons.mpr ⟨hc, ih⟩
  | @escape c t hc _ ih =>
    refine List.forall_mem_cons.mpr ⟨by decide, List.forall_mem_cons.mpr ⟨?_, ih⟩⟩
    revert c
    decide
  | @unicode digits t _ hx _ ih =>
    refine List.forall_mem_cons.mpr ⟨by decide, List.forall_mem_cons.mpr ⟨by decide, ?_⟩⟩
    intro c hc
    rcases List.mem_append.mp hc with hc | hc
    · have hhex := hx c hc
      simp only [isHexDigit, Char.isDigit, Bool.or_eq_true, Bool.and_eq_true,
        decide_eq_true_eq] at hhex
      rcases hhex with (hhex | hhex) | hhex
      · exact UInt32.le_trans (by decide : ' '.val ≤ '0'.val) hhex.1
      · exact UInt32.le_trans (by decide : ' '.val ≤ 'a'.val) hhex.1
      · exact UInt32.le_trans (by decide : ' '.val ≤ 'A'.val) hhex.1
    · exact ih c hc

/-- Characters from the space on are the inside of a string but for quotes and backslashes. -/
theorem of_plain (hc : ∀ c ∈ raw, ' ' ≤ c) (hq : '"' ∉ raw) (hb : '\\' ∉ raw) :
    StringBody raw := by
  induction raw with
  | nil => exact .nil
  | cons c t ih =>
    rw [List.mem_cons, not_or] at hq hb
    exact .plain (hc c List.mem_cons_self) (Ne.symm hq.1) (Ne.symm hb.1)
      (ih (fun d hd => hc d (List.mem_cons_of_mem c hd)) hq.2 hb.2)

/-- The quote behind a string is told from those within it. -/
theorem close_unique (ha : StringBody a) (hb : StringBody b)
    (h : a ++ '"' :: s = b ++ '"' :: t) : a = b ∧ s = t := by
  induction ha generalizing b with
  | nil =>
    cases hb with
    | nil => exact ⟨rfl, (List.cons.inj h).2⟩
    | plain _ hq _ _ => exact absurd (List.cons.inj h).1.symm hq
    | escape _ _ => exact absurd (List.cons.inj h).1 (by decide)
    | unicode _ _ _ => exact absurd (List.cons.inj h).1 (by decide)
  | @plain c a hc hq hbs _ ih =>
    cases hb with
    | nil => exact absurd (List.cons.inj h).1 hq
    | plain _ _ _ hb' =>
      obtain ⟨rfl, hrest⟩ := List.cons.inj h
      obtain ⟨rfl, rfl⟩ := ih hb' hrest
      exact ⟨rfl, rfl⟩
    | escape _ _ => exact absurd (List.cons.inj h).1 hbs
    | unicode _ _ _ => exact absurd (List.cons.inj h).1 hbs
  | @escape c a hc _ ih =>
    cases hb with
    | nil => exact absurd (List.cons.inj h).1 (by decide)
    | plain _ _ hbs _ => exact absurd (List.cons.inj h).1.symm hbs
    | escape _ hb' =>
      obtain ⟨rfl, hrest⟩ := List.cons.inj (List.cons.inj h).2
      obtain ⟨rfl, rfl⟩ := ih hb' hrest
      exact ⟨rfl, rfl⟩
    | unicode _ _ _ =>
      obtain rfl := (List.cons.inj (List.cons.inj h).2).1
      exact absurd hc (by decide)
  | @unicode digits a hn hx _ ih =>
    cases hb with
    | nil => exact absurd (List.cons.inj h).1 (by decide)
    | plain _ _ hbs _ => exact absurd (List.cons.inj h).1.symm hbs
    | escape hc _ =>
      obtain rfl := (List.cons.inj (List.cons.inj h).2).1
      exact absurd hc (by decide)
    | unicode hn' _ hb' =>
      have hrest := (List.cons.inj (List.cons.inj h).2).2
      simp only [List.append_eq, List.append_assoc] at hrest
      obtain ⟨rfl, hmore⟩ := List.append_inj hrest (hn.trans hn'.symm)
      obtain ⟨rfl, rfl⟩ := ih hb' hmore
      exact ⟨rfl, rfl⟩

/-- Behind a quote within it a string goes on as one, and before it stands a backslash. -/
theorem of_quote (h : StringBody (a ++ '"' :: b)) : '\\' ∈ a ∧ StringBody b := by
  generalize ht : a ++ '"' :: b = raw at h
  induction h generalizing a with
  | nil => exact absurd ht (by simp)
  | plain _ hq _ _ ih =>
    cases a with
    | nil => exact absurd (List.cons.inj ht).1.symm hq
    | cons d a =>
      obtain ⟨hmem, hb⟩ := ih (List.cons.inj ht).2
      exact ⟨List.mem_cons_of_mem d hmem, hb⟩
  | escape _ hrest ih =>
    cases a with
    | nil => exact absurd (List.cons.inj ht).1 (by decide)
    | cons d a =>
      obtain ⟨rfl, hmore⟩ := List.cons.inj ht
      refine ⟨List.mem_cons_self, ?_⟩
      cases a with
      | nil =>
        obtain rfl := (List.cons.inj hmore).2
        exact hrest
      | cons e a => exact (ih (List.cons.inj hmore).2).2
  | @unicode digits t hn hx hrest ih =>
    cases a with
    | nil => exact absurd (List.cons.inj ht).1 (by decide)
    | cons d a =>
      obtain ⟨rfl, hmore⟩ := List.cons.inj ht
      refine ⟨List.mem_cons_self, ?_⟩
      cases a with
      | nil => exact absurd (List.cons.inj hmore).1 (by decide)
      | cons e a =>
        have hquote : ('"' : Char) ∉ digits := fun hm => absurd (hx _ hm) (by decide)
        rcases List.append_eq_append_iff.mp (List.cons.inj hmore).2 with ⟨u, hu, hu'⟩ | ⟨u, hu, hu'⟩
        · cases u with
          | nil => exact (ih (a := []) hu').2
          | cons f u =>
            obtain ⟨rfl, _⟩ := List.cons.inj hu'
            exact absurd (hu ▸ List.mem_append_right _ List.mem_cons_self) hquote
        · exact (ih hu'.symm).2

end StringBody

theorem isAlpha_iff {c : Char} : c.isAlpha = true ↔
    'A'.val ≤ c.val ∧ c.val ≤ 'Z'.val ∨ 'a'.val ≤ c.val ∧ c.val ≤ 'z'.val := by
  have hdef : c.isAlpha = (decide (c.val ≥ 'A'.val ∧ c.val ≤ 'Z'.val) ||
    (decide (c.val ≥ 'a'.val) && decide (c.val ≤ 'z'.val))) := rfl
  rw [hdef, Bool.or_eq_true, Bool.and_eq_true, decide_eq_true_eq, decide_eq_true_eq,
    decide_eq_true_eq]

theorem stringBody_of_letters {name : Text} (h : ∀ c ∈ name, c.isAlpha = true ∨ c = '_') :
    StringBody name ∧ decode name = name := by
  have hspecial : ∀ c ∈ ['"', '\\'], ¬(c.isAlpha = true ∨ c = '_') := by decide
  have hq : '"' ∉ name := fun hm => hspecial _ (by decide) (h _ hm)
  have hb : '\\' ∉ name := fun hm => hspecial _ (by decide) (h _ hm)
  refine ⟨.of_plain (fun c hc => ?_) hq hb, decode_of_plain hb⟩
  rcases h c hc with hc | rfl
  · rcases isAlpha_iff.mp hc with hc | hc
    · exact UInt32.le_trans (by decide : ' '.val ≤ 'A'.val) hc.1
    · exact UInt32.le_trans (by decide : ' '.val ≤ 'a'.val) hc.1
  · decide

theorem length_unpaired_le (high : Option Nat) : (unpaired high).length ≤ 1 := by
  cases high with
  | none => exact Nat.zero_le 1
  | some n => exact le_rfl

theorem length_joinPieces_le (high : Option Nat) (ps : List Piece) :
    (joinPieces high ps).length ≤ (unpaired high).length + ps.length := by
  induction ps generalizing high with
  | nil => simp [joinPieces]
  | cons p ps ih =>
    have hnone := ih none
    rw [show (unpaired none).length = 0 from rfl] at hnone
    cases p with
    | char c =>
      simp only [joinPieces, List.length_append, List.length_cons]
      omega
    | unit n =>
      simp only [joinPieces]
      split
      · have hsome := ih (some n)
        have := length_unpaired_le (some n)
        simp only [List.length_append, List.length_cons]
        omega
      · split
        · cases high with
          | none =>
            simp only [List.length_cons]
            omega
          | some h =>
            simp only [List.length_cons]
            omega
        · simp only [List.length_append, List.length_cons]
          omega

/-- Each escape of a string takes up the room of its backslash, and of a quote or backslash
besides if it stands for one. -/
theorem StringBody.pieces_weight (h : StringBody raw) :
    2 * (pieces raw).length + raw.count '\\' + raw.count '"' ≤ 2 * raw.length := by
  induction h with
  | nil => simp [pieces]
  | @plain c t hc hq hb _ ih =>
    have hpieces : pieces (c :: t) = .char c :: pieces t := by
      rw [pieces]
      · intro _ _ _ _ _ he
        exact absurd he hb
      · intro _ _ he
        exact absurd he hb
    rw [hpieces, List.count_cons_of_ne hb, List.count_cons_of_ne hq]
    simp only [List.length_cons]
    omega
  | @escape c t hc _ ih =>
    have hu : c ≠ 'u' := by
      rintro rfl
      exact absurd hc (by decide)
    have hpieces : pieces ('\\' :: c :: t) = .char (escaped c) :: pieces t := by
      rw [pieces]
      intro _ _ _ _ _ he
      exact absurd he hu
    rw [hpieces]
    simp only [List.count_cons, List.length_cons, beq_iff_eq]
    have hone : (if c = '\\' then 1 else 0) + (if c = '"' then 1 else 0) ≤ 1 := by
      split
      · rename_i hbs
        rw [if_neg (hbs ▸ by decide)]
      · split <;> omega
    simp only [show ('\\' : Char) ≠ '"' by decide, if_true, if_false]
    omega
  | @unicode digits t hn hx _ ih =>
    have hbs : digits.count '\\' = 0 :=
      List.count_eq_zero.mpr fun hm => absurd (hx _ hm) (by decide)
    have hq : digits.count '"' = 0 :=
      List.count_eq_zero.mpr fun hm => absurd (hx _ hm) (by decide)
    have hpieces : (pieces ('\\' :: 'u' :: digits ++ t)).length = (pieces t).length + 1 := by
      obtain ⟨a, b, c, d, rfl⟩ := List.length_eq_four.mp hn
      rfl
    rw [hpieces]
    simp only [List.cons_append, List.count_cons, List.count_append, hbs, hq, List.length_cons,
      List.length_append, hn, beq_iff_eq]
    simp only [show ('\\' : Char) ≠ '"' by decide, show ('u' : Char) ≠ '\\' by decide,
      show ('u' : Char) ≠ '"' by decide, if_true, if_false]
    omega

/-- What a string stands for is shorter than it by each of its escapes. -/
theorem StringBody.decode_weight (h : StringBody raw) :
    2 * (decode raw).length + raw.count '\\' + raw.count '"' ≤ 2 * raw.length := by
  have hjoin := length_joinPieces_le none (pieces raw)
  have hpieces := h.pieces_weight
  have hnone : (unpaired none).length = 0 := rfl
  unfold decode
  omega

/-- A text that may stand between quotes as it is. -/
def Plain (t : Text) : Prop := ∀ c ∈ t, ' ' ≤ c ∧ c ≠ '"' ∧ c ≠ '\\'

instance (t : Text) : Decidable (Plain t) :=
  inferInstanceAs (Decidable (∀ c ∈ t, ' ' ≤ c ∧ c ≠ '"' ∧ c ≠ '\\'))

theorem Plain.stringBody (h : Plain raw) : StringBody raw ∧ decode raw = raw := by
  have hq : '"' ∉ raw := fun hm => (h _ hm).2.1 rfl
  have hb : '\\' ∉ raw := fun hm => (h _ hm).2.2 rfl
  exact ⟨.of_plain (fun c hc => (h c hc).1) hq hb, decode_of_plain hb⟩

/-- A string as long as what it stands for has nothing escaped in it. -/
theorem StringBody.plain_of_length (h : StringBody raw)
    (hlen : raw.length ≤ (decode raw).length) : Plain raw := by
  have hweight := h.decode_weight
  intro c hc
  refine ⟨h.ge_space c hc, ?_, ?_⟩
  · rintro rfl
    have := List.count_pos_iff.mpr hc
    omega
  · rintro rfl
    have := List.count_pos_iff.mpr hc
    omega

theorem StringBody.length_decode_le (h : StringBody raw) :
    (decode raw).length ≤ raw.length := by
  have hweight := h.decode_weight
  omega

/-- Without backslashes there are no quotes either. -/
theorem StringBody.quote_not_mem (h : StringBody raw) (hb : '\\' ∉ raw) : '"' ∉ raw := by
  have hweight := h.decode_weight
  rw [decode_of_plain hb] at hweight
  exact List.count_eq_zero.mp (by omega)

end HelixRouter.Json
