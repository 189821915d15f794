import HelixRouter.Texts.Base64
import Mathlib.Data.List.AList
import Mathlib.Data.List.DropRight

namespace HelixRouter.Transforming

open Texts

/-- Limiting the rate and logging are stages without an effect on the request. -/
inductive TransformStage where
  | addHeader (key value : Text)
  | removeHeader (key : Text)
  | setPath (path : Text)
  | rewritePath (pattern replacement : Text)
  | addQueryParam (key value : Text)
  | setBody (body : List UInt8)
  | base64EncodeBody
  | gzipBody
  | rateLimit
  | log

structure HttpRequest where
  method : Text
  path : Text
  query : AList (fun _ : Text => Text) := ∅
  headers : AList (fun _ : Text => Text) := ∅
  body : List UInt8 := []

inductive TransformResult where
  | continue_ (req : HttpRequest)
  | reject (status : UInt16) (reason : Text)

def b64Chars : Text := "ABCDEFGHIJKLMNOPQRSTUVWXYZabcdefghijklmnopqrstuvwxyz0123456789+/".toList

def b64Char (sextet : UInt32) : Char := (b64Chars[sextet.toNat]?).getD 'A'

/-- Three bytes make four characters. One or two that are left make a group that is padded. -/
def base64Encode : List UInt8 → Text
  | a :: b :: c :: rest =>
    let n := a.toUInt32 <<< 16 ||| b.toUInt32 <<< 8 ||| c.toUInt32
    b64Char (n >>> 18 &&& 0x3f) :: b64Char (n >>> 12 &&& 0x3f) :: b64Char (n >>> 6 &&& 0x3f) ::
      b64Char (n &&& 0x3f) :: base64Encode rest
  | [a] =>
    let n := a.toUInt32 <<< 16
    [b64Char (n >>> 18 &&& 0x3f), b64Char (n >>> 12 &&& 0x3f), '=', '=']
  | [a, b] =>
    let n := a.toUInt32 <<< 16 ||| b.toUInt32 <<< 8
    [b64Char (n >>> 18 &&& 0x3f), b64Char (n >>> 12 &&& 0x3f), b64Char (n >>> 6 &&& 0x3f), '=']
  | [] => []

/-- The text before the first star, and the text after it. -/
def splitStar : Text → Option (Text × Text)
  | [] => none
  | c :: t => if c = '*' then some ([], t) else (splitStar t).map fun p => (c :: p.1, p.2)

/-- Puts a text in the place of the first star. -/
def replaceStar (t captured : Text) : Text :=
  match splitStar t with
  | some (before, after) => before ++ captured ++ after
  | none => t

def rewritePath (path pattern replacement : Text) : Text :=
  match splitStar pattern with
  | some (front, back) =>
    if front.isPrefixOf path then
      let afterFront := path.drop front.length
      if back = [] then replaceStar replacement afterFront
      else if back.isSuffixOf afterFront then replaceStar replacement (afterFront.rdrop back.length)
      else path
    else path
  | none => if path = pattern then replacement else path

namespace HttpRequest

def transform (req : HttpRequest) : TransformStage → HttpRequest
  | .addHeader key value => { req with headers := req.headers.insert key value }
  | .removeHeader key => { req with headers := req.headers.erase key }
  | .setPath path => { req with path := path }
  | .rewritePath pattern replacement =>
    { req with path := rewritePath req.path pattern replacement }
  | .addQueryParam key value => { req with query := req.query.insert key value }
  | .setBody body => { req with body := body }
  | .base64EncodeBody => { req with body := encodeUtf8 (base64Encode req.body) }
  | .gzipBody => { req with body := 0x1f :: 0x8b :: req.body }
  | .rateLimit => req
  | .log => req

end HttpRequest

/-- No stage rejects a request. -/
def apply (stages : List TransformStage) (req : HttpRequest) : TransformResult :=
  .continue_ (stages.foldl HttpRequest.transform req)

section Sextets

variable {n s : UInt32} {a b c : UInt8}

theorem value_b64Char {k : UInt32} (h : k.toNat < 64) :
    Base64.value (b64Char k) = some k.toNat := by
  have hall : ∀ k < 64, Base64.value ((b64Chars[k]?).getD 'A') = some k := by decide +kernel
  exact hall k.toNat h

theorem toNat_sextet (hs : s < 32) : (n >>> s &&& 0x3f).toNat = n.toNat / 2 ^ s.toNat % 64 := by
  have hlt : s.toNat < 32 := UInt32.lt_iff_toNat_lt.mp hs
  rw [UInt32.toNat_and, UInt32.toNat_shiftRight, Nat.mod_eq_of_lt hlt, Nat.shiftRight_eq_div_pow]
  exact Nat.and_two_pow_sub_one_eq_mod _ 6

theorem value_sextet (hs : s < 32) :
    Base64.value (b64Char (n >>> s &&& 0x3f)) = some (n.toNat / 2 ^ s.toNat % 64) := by
  rw [value_b64Char, toNat_sextet hs]
  rw [toNat_sextet hs]
  exact Nat.mod_lt _ (by decide)

theorem value_last : Base64.value (b64Char (n &&& 0x3f)) = some (n.toNat % 64) := by
  have hlast : (n &&& 0x3f).toNat = n.toNat % 64 := by
    rw [UInt32.toNat_and]
    exact Nat.and_two_pow_sub_one_eq_mod _ 6
  rw [value_b64Char, hlast]
  rw [hlast]
  exact Nat.mod_lt _ (by decide)

theorem toNat_high (a : UInt8) : (a.toUInt32 <<< 16).toNat = a.toNat * 65536 := by
  have := a.toNat_lt
  rw [UInt32.toNat_shiftLeft, UInt8.toNat_toUInt32, Nat.shiftLeft_eq]
  exact Nat.mod_eq_of_lt (by simp; omega)

theorem toNat_middle (b : UInt8) : (b.toUInt32 <<< 8).toNat = b.toNat * 256 := by
  have := b.toNat_lt
  rw [UInt32.toNat_shiftLeft, UInt8.toNat_toUInt32, Nat.shiftLeft_eq]
  exact Nat.mod_eq_of_lt (by simp; omega)

theorem toNat_two (a b : UInt8) :
    (a.toUInt32 <<< 16 ||| b.toUInt32 <<< 8).toNat = a.toNat * 65536 + b.toNat * 256 := by
  have hb := b.toNat_lt
  rw [UInt32.toNat_or, toNat_high, toNat_middle]
  have hjoin := Nat.shiftLeft_add_eq_or_of_lt (i := 16) (b := b.toNat * 256) (by omega) a.toNat
  rw [Nat.shiftLeft_eq] at hjoin
  exact hjoin.symm

theorem toNat_three (a b c : UInt8) :
    (a.toUInt32 <<< 16 ||| b.toUInt32 <<< 8 ||| c.toUInt32).toNat =
      a.toNat * 65536 + b.toNat * 256 + c.toNat := by
  have hc := c.toNat_lt
  rw [UInt32.toNat_or, toNat_two, UInt8.toNat_toUInt32]
  have hjoin := Nat.shiftLeft_add_eq_or_of_lt (i := 8) hc (a.toNat * 256 + b.toNat)
  have hscaled : (a.toNat * 256 + b.toNat) <<< 8 = a.toNat * 65536 + b.toNat * 256 := by
    rw [Nat.shiftLeft_eq]
    omega
  rw [hscaled] at hjoin
  exact hjoin.symm

end Sextets

theorem length_base64Encode (x : List UInt8) :
    (base64Encode x).length = 4 * ((x.length + 2) / 3) := by
  fun_induction base64Encode x with
  | case1 a b c rest n ih =>
    simp only [List.length_cons, ih]
    omega
  | case2 a n => simp
  | case3 a b n => simp
  | case4 => rfl

theorem wellFormed_base64Encode (x : List UInt8) : Base64.WellFormed (base64Encode x) := by
  fun_induction base64Encode x with
  | case1 a b c rest n ih =>
    exact ih.cons (value_sextet (by decide)) (value_sextet (by decide)) (value_sextet (by decide))
      value_last
  | case2 a n => exact Base64.wellFormed_two (value_sextet (by decide)) (value_sextet (by decide))
  | case3 a b n =>
    exact Base64.wellFormed_three (value_sextet (by decide)) (value_sextet (by decide))
      (value_sextet (by decide))
  | case4 => exact ⟨[], 0, Nat.zero_le 2, rfl, by simp⟩

theorem decode_base64Encode (x : List UInt8) : Base64.decode (base64Encode x) = some x := by
  fun_induction base64Encode x with
  | case1 a b c rest n ih =>
    exact Base64.decode_whole (toNat_three a b c) (value_sextet (by decide))
      (value_sextet (by decide)) (value_sextet (by decide)) value_last ih
  | case2 a n =>
    exact Base64.decode_two (toNat_high a) (value_sextet (by decide)) (value_sextet (by decide))
  | case3 a b n =>
    exact Base64.decode_three (toNat_two a b) (value_sextet (by decide)) (value_sextet (by decide))
      (value_sextet (by decide))
  | case4 => rfl

/-- The encoding is standard and loses nothing, and so the stage keeps different bodies apart. -/
theorem base64_faithful :
    (∀ x, (base64Encode x).length = 4 * ((x.length + 2) / 3) ∧
      Base64.WellFormed (base64Encode x) ∧ Base64.decode (base64Encode x) = some x) ∧
    ∀ req req' out out' : HttpRequest, apply [.base64EncodeBody] req = .continue_ out →
      apply [.base64EncodeBody] req' = .continue_ out' → out.body = out'.body →
        req.body = req'.body := by
  refine ⟨fun x => ⟨length_base64Encode x, wellFormed_base64Encode x, decode_base64Encode x⟩, ?_⟩
  intro req req' out out' hout hout' h
  cases hout
  cases hout'
  have htext : base64Encode req.body = base64Encode req'.body := encodeUtf8_injective h
  have hdecode := decode_base64Encode req.body
  rw [htext, decode_base64Encode] at hdecode
  exact (Option.some.inj hdecode).symm

end HelixRouter.Transforming
