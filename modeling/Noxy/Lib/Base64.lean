/-
# Base64

The standard alphabet with padding.  Three bytes are four characters of six bits each; one
or two bytes left over are two or three characters, filled up with `=`.

`decode` accepts canonical texts only, those that `encode` gives: it reads the characters in
groups of four, drops a byte for each `=`, and compares the encoding of what it read with the
text.  So it inverts `encode` (`decode_encode`) and accepts nothing else
(`eq_encode_of_decode`).
-/

import Mathlib.Data.List.Basic
import Mathlib.Data.List.GetD

namespace Noxy
namespace Lib
namespace Base64

/-- The characters of the values 0 to 63. -/
def alphabet : List Char :=
  "ABCDEFGHIJKLMNOPQRSTUVWXYZabcdefghijklmnopqrstuvwxyz0123456789+/".toList

/-- The character of six bits. -/
def char (n : ℕ) : Char := alphabet.getD n '='

/-- The six bits of a character, 64 if it is not of the alphabet. -/
def value (c : Char) : ℕ := alphabet.idxOf c

theorem value_char {n : ℕ} (h : n < 64) : value (char n) = n := by
  have hall : ∀ n : Fin 64, value (char n.val) = n.val := by decide +kernel
  exact hall ⟨n, h⟩

/-- The characters of a text, three bytes at a time. -/
def encodeChars : List UInt8 → List Char
  | [] => []
  | [a] => [char (a.toNat / 4), char (a.toNat % 4 * 16), '=', '=']
  | [a, b] =>
      [char (a.toNat / 4), char (a.toNat % 4 * 16 + b.toNat / 16), char (b.toNat % 16 * 4), '=']
  | a :: b :: c :: rest =>
      char (a.toNat / 4) :: char (a.toNat % 4 * 16 + b.toNat / 16) ::
        char (b.toNat % 16 * 4 + c.toNat / 64) :: char (c.toNat % 64) :: encodeChars rest

/-- The three bytes of four characters, one after the other. -/
def groups : List Char → List UInt8
  | p :: q :: r :: s :: rest =>
      UInt8.ofNat (value p * 4 + value q / 16) ::
        UInt8.ofNat (value q % 16 * 16 + value r / 4) ::
          UInt8.ofNat (value r % 4 * 64 + value s) :: groups rest
  | _ => []

/-- The text of a list of bytes. -/
def encode (bytes : List UInt8) : String := String.ofList (encodeChars bytes)

/-- The bytes that characters stand for, the padding dropped. -/
def read (chars : List Char) : List UInt8 :=
  (groups chars).take ((groups chars).length - chars.count '=')

/-- The bytes of a canonical text. -/
def decode (text : String) : Option (List UInt8) :=
  if encode (read text.toList) = text then some (read text.toList) else none

theorem char_ne_pad {n : ℕ} (h : n < 64) : char n ≠ '=' := by
  have hall : ∀ n : Fin 64, char n.val ≠ '=' := by decide +kernel
  exact hall ⟨n, h⟩

/-- What the groups of an encoding hold: the bytes, and one more for each `=`. -/
theorem groups_encodeChars (bytes : List UInt8) :
    ∃ fill, groups (encodeChars bytes) = bytes ++ fill ∧
      fill.length = (encodeChars bytes).count '=' := by
  induction bytes using encodeChars.induct with
  | case1 => exact ⟨[], rfl, rfl⟩
  | case2 a =>
      have ha := a.toNat_lt
      refine ⟨[UInt8.ofNat (a.toNat % 4 * 16 % 16 * 16 + value '=' / 4),
        UInt8.ofNat (value '=' % 4 * 64 + value '=')], ?_, ?_⟩
      · rw [encodeChars, groups, groups, value_char (by omega), value_char (by omega),
          show a.toNat / 4 * 4 + a.toNat % 4 * 16 / 16 = a.toNat by omega, UInt8.ofNat_toNat]
        · rfl
        · simp
      · simp [encodeChars, char_ne_pad (show a.toNat / 4 < 64 by omega),
          char_ne_pad (show a.toNat % 4 * 16 < 64 by omega)]
  | case3 a b =>
      have ha := a.toNat_lt
      have hb := b.toNat_lt
      refine ⟨[UInt8.ofNat (b.toNat % 16 * 4 % 4 * 64 + value '=')], ?_, ?_⟩
      · rw [encodeChars, groups, groups, value_char (by omega), value_char (by omega),
          value_char (by omega),
          show a.toNat / 4 * 4 + (a.toNat % 4 * 16 + b.toNat / 16) / 16 = a.toNat by omega,
          show (a.toNat % 4 * 16 + b.toNat / 16) % 16 * 16 + b.toNat % 16 * 4 / 4 = b.toNat by
            omega,
          UInt8.ofNat_toNat, UInt8.ofNat_toNat]
        · rfl
        · simp
      · simp [encodeChars, char_ne_pad (show a.toNat / 4 < 64 by omega),
          char_ne_pad (show a.toNat % 4 * 16 + b.toNat / 16 < 64 by omega),
          char_ne_pad (show b.toNat % 16 * 4 < 64 by omega)]
  | case4 a b c rest ih =>
      have ha := a.toNat_lt
      have hb := b.toNat_lt
      have hc := c.toNat_lt
      obtain ⟨fill, hgroups, hlen⟩ := ih
      refine ⟨fill, ?_, ?_⟩
      · rw [encodeChars, groups, hgroups, value_char (by omega), value_char (by omega),
          value_char (by omega), value_char (by omega),
          show a.toNat / 4 * 4 + (a.toNat % 4 * 16 + b.toNat / 16) / 16 = a.toNat by omega,
          show (a.toNat % 4 * 16 + b.toNat / 16) % 16 * 16 +
            (b.toNat % 16 * 4 + c.toNat / 64) / 4 = b.toNat by omega,
          show (b.toNat % 16 * 4 + c.toNat / 64) % 4 * 64 + c.toNat % 64 = c.toNat by omega,
          UInt8.ofNat_toNat, UInt8.ofNat_toNat, UInt8.ofNat_toNat]
        rfl
      · simp [encodeChars, char_ne_pad (show a.toNat / 4 < 64 by omega),
          char_ne_pad (show a.toNat % 4 * 16 + b.toNat / 16 < 64 by omega),
          char_ne_pad (show b.toNat % 16 * 4 + c.toNat / 64 < 64 by omega),
          char_ne_pad (show c.toNat % 64 < 64 by omega), hlen]

theorem read_encodeChars (bytes : List UInt8) : read (encodeChars bytes) = bytes := by
  obtain ⟨fill, hgroups, hlen⟩ := groups_encodeChars bytes
  rw [read, hgroups, ← hlen, List.length_append, Nat.add_sub_cancel, List.take_left']
  rfl

/-- **`decode` inverts `encode`.** -/
theorem decode_encode (bytes : List UInt8) : decode (encode bytes) = some bytes := by
  have hread : read (encode bytes).toList = bytes := by
    rw [encode, String.toList_ofList, read_encodeChars]
  rw [decode, hread, if_pos rfl]

/-- **Only canonical texts are decoded.** -/
theorem eq_encode_of_decode {text : String} {bytes : List UInt8} (h : decode text = some bytes) :
    text = encode bytes := by
  unfold decode at h
  split at h
  · rename_i heq
    rw [← Option.some.inj h, heq]
  · cases h

/-- An encoding is made of the alphabet and the padding. -/
theorem mem_encodeChars {bytes : List UInt8} {c : Char} (h : c ∈ encodeChars bytes) :
    c ∈ '=' :: alphabet := by
  have hchar : ∀ n, char n ∈ '=' :: alphabet := by
    intro n
    unfold char
    by_cases hn : n < alphabet.length
    · rw [List.getD_eq_getElem _ _ hn]
      exact List.mem_cons_of_mem _ (List.getElem_mem hn)
    · rw [List.getD_eq_default _ _ (by omega)]
      exact List.mem_cons_self
  induction bytes using encodeChars.induct with
  | case1 => cases h
  | case2 a =>
      simp only [encodeChars, List.mem_cons, List.not_mem_nil, or_false] at h
      rcases h with rfl | rfl | rfl | rfl <;> first | exact hchar _ | exact List.mem_cons_self
  | case3 a b =>
      simp only [encodeChars, List.mem_cons, List.not_mem_nil, or_false] at h
      rcases h with rfl | rfl | rfl | rfl <;> first | exact hchar _ | exact List.mem_cons_self
  | case4 a b c' rest ih =>
      rw [encodeChars, List.mem_cons, List.mem_cons, List.mem_cons, List.mem_cons] at h
      rcases h with rfl | rfl | rfl | rfl | h
      · exact hchar _
      · exact hchar _
      · exact hchar _
      · exact hchar _
      · exact ih h

end Base64
end Lib
end Noxy
