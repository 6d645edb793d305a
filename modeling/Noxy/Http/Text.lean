/-
# Texts

What the modules read of texts: `String::from_utf8`, `strip_prefix`, `split_once` and `parse` of
the standard library, and the texts of the `http` crate.  `TextCrate` is that crate with the texts
that it makes of a URI and reads as a header value.
-/

import Mathlib.Algebra.Group.Nat.Defs
import Noxy.Http.HopByHop

namespace Noxy
namespace Http

/-! ### The standard library -/

/-- `String::from_utf8`. -/
def fromUtf8 (bytes : List UInt8) : Option String := String.fromUTF8? bytes.toByteArray

/-- `str::strip_prefix`. -/
def stripStart (start text : String) : Option String :=
  if start.toList.isPrefixOf text.toList then
    some (String.ofList (text.toList.drop start.toList.length))
  else none

/-- `str::split_once`. -/
def splitOnce (sep : Char) (text : String) : Option (String × String) :=
  match text.toList.dropWhile (· != sep) with
  | [] => none
  | _ :: after => some (String.ofList (text.toList.takeWhile (· != sep)), String.ofList after)

/-- `str::parse` of an unsigned integer, one more digit. -/
def pushDigit (bits n : ℕ) (c : Char) : Except String ℕ :=
  if c.isDigit then
    if 10 * n + (c.toNat - '0'.toNat) < 2 ^ bits then .ok (10 * n + (c.toNat - '0'.toNat))
    else .error "number too large to fit in target type"
  else .error "invalid digit found in string"

/-- `str::parse` of an unsigned integer with so many bits, and the text of its error. -/
def parseUnsigned (bits : ℕ) (text : String) : Except String ℕ :=
  match text.toList with
  | [] => .error "cannot parse integer from empty string"
  | ['+'] => .error "invalid digit found in string"
  | '+' :: digits => digits.foldlM (pushDigit bits) 0
  | digits => digits.foldlM (pushDigit bits) 0

theorem utf8_eq_data (text : String) : utf8 text = text.toByteArray.data.toList := by
  rw [← String.utf8Encode_toList, List.utf8Encode, List.data_toByteArray]
  rfl

theorem utf8_injective {a b : String} (h : utf8 a = utf8 b) : a = b := by
  rw [utf8_eq_data, utf8_eq_data] at h
  exact String.toByteArray_inj.mp (ByteArray.ext (Array.toList_inj.mp h))

theorem utf8_append (a b : String) : utf8 (a ++ b) = utf8 a ++ utf8 b := by
  rw [utf8, String.toList_append, List.flatMap_append]
  rfl

/-- `from_utf8` accepts the bytes of a text, and gives the text. -/
theorem fromUtf8_eq_some_iff {bytes : List UInt8} {text : String} :
    fromUtf8 bytes = some text ↔ utf8 text = bytes := by
  unfold fromUtf8 String.fromUTF8?
  constructor
  · intro h
    split at h
    · rw [← Option.some.inj h, utf8_eq_data]
      change bytes.toByteArray.data.toList = bytes
      rw [List.data_toByteArray]
    · cases h
  · rintro rfl
    have hbytes : (utf8 text).toByteArray = text.toByteArray := by
      rw [← String.utf8Encode_toList, List.utf8Encode]
      rfl
    rw [hbytes, dif_pos text.isValidUTF8]
    rfl

theorem stripStart_eq_some_iff {start text rest : String} :
    stripStart start text = some rest ↔ text = start ++ rest := by
  unfold stripStart
  rw [String.ext_iff, String.toList_append]
  constructor
  · intro h
    split at h
    · rename_i hstart
      obtain ⟨tail, htail⟩ := List.isPrefixOf_iff_prefix.mp hstart
      rw [← Option.some.inj h, String.toList_ofList, ← htail, List.drop_left]
    · cases h
  · intro h
    rw [if_pos (List.isPrefixOf_iff_prefix.mpr ⟨rest.toList, h.symm⟩), h, List.drop_left,
      String.ofList_toList]

/-! ### The `http` crate -/

/-- The `http` crate, with the texts of its values. -/
structure TextCrate extends HttpCrate where
  /-- `Uri::to_string`. -/
  uriText : Uri → String
  /-- `HeaderValue::from_str`, with the text of its error. -/
  headerValue : String → Except String (List UInt8)

/-- What is assumed of the texts. -/
structure TextCrate.Lawful (T : TextCrate) : Prop where
  text : T.toHttpCrate.LawfulText
  /-- A URI is read back from its text. -/
  uri : ∀ u, T.parse (T.uriText u) = .ok u
  /-- A value of visible bytes is read back from its text. -/
  value : ∀ v : List UInt8, v.all isVisibleAscii = true → T.headerValue (byteText v) = .ok v

/-- A crate whose URIs are texts, with the texts of `HttpCrate.ascii`. -/
def TextCrate.ascii : TextCrate where
  Uri := String
  Scheme := Unit
  Authority := Unit
  PathAndQuery := String
  HTTP := ()
  HTTPS := ()
  scheme _ := none
  authority _ := none
  pathAndQuery u := some u
  fromParts _ _ p := p
  parse text := .ok text
  host _ := none
  path u := u
  toStr := HttpCrate.ascii.toStr
  headerName := HttpCrate.ascii.headerName
  method text := .ok text
  uriText u := u
  headerValue text :=
    if text.toList.all (fun c => c.toNat < 256 && isVisibleAscii (UInt8.ofNat c.toNat)) then
      .ok (text.toList.map fun c => UInt8.ofNat c.toNat)
    else .error "failed to parse header value"

/-- A byte is read back from its character. -/
theorem toNat_charOfNat (b : UInt8) : (Char.ofNat b.toNat).toNat = b.toNat := by
  have hlt : b.toNat < 256 := b.toNat_lt
  have hvalid : b.toNat.isValidChar := Or.inl (by omega)
  unfold Char.ofNat
  rw [dif_pos hvalid]
  rfl

theorem TextCrate.ascii_lawful : TextCrate.ascii.Lawful where
  text := ⟨HttpCrate.ascii_lawfulText.toStr, HttpCrate.ascii_lawfulText.headerName⟩
  uri _ := rfl
  value v hv := by
    have hbyte : ∀ b : UInt8, UInt8.ofNat (Char.ofNat b.toNat).toNat = b := by
      intro b
      rw [toNat_charOfNat, UInt8.ofNat_toNat]
    have htext : (byteText v).toList = v.map fun b => Char.ofNat b.toNat :=
      String.toList_ofList
    have hall : (byteText v).toList.all
        (fun c => c.toNat < 256 && isVisibleAscii (UInt8.ofNat c.toNat)) = true := by
      rw [htext, List.all_map, List.all_eq_true]
      intro b hb
      have hvisible := List.all_eq_true.mp hv b hb
      simp only [Function.comp_apply, Bool.and_eq_true, decide_eq_true_eq, hbyte]
      exact ⟨(toNat_charOfNat b).symm ▸ b.toNat_lt, hvisible⟩
    have hmap : (byteText v).toList.map (fun c => UInt8.ofNat c.toNat) = v := by
      rw [htext, List.map_map]
      conv_rhs => rw [← List.map_id v]
      exact List.map_congr_left fun b _ => hbyte b
    show (if _ then Except.ok _ else Except.error _) = _
    rw [if_pos hall, hmap]

end Http
end Noxy
