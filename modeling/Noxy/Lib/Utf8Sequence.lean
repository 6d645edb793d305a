/-
# Which bytes are text

The bytes of a character are those of its number (`numberBytes`), and numbers that are no
characters can be written in the same form: surrogates in three bytes, small and large numbers in
four.  The first byte announces how many bytes there are, so text that begins with such a
sequence begins with a character (`isUtf8_append_iff`), and the number can be read back from the
bytes (`value`).  Together they say which of the sequences are characters
(`exists_numberBytes_iff`, `exists_fourBytes_iff`).
-/

import Mathlib.Algebra.Order.Ring.Nat
import Mathlib.Tactic.SplitIfs
import Noxy.Lib.Utf8

namespace Noxy
namespace Lib

/-- The form of three bytes. -/
def threeBytes (n : ℕ) : List UInt8 :=
  [UInt8.ofNat (n / 4096 % 16 + 224), UInt8.ofNat (n / 64 % 64 + 128), UInt8.ofNat (n % 64 + 128)]

/-- The form of four bytes. -/
def fourBytes (n : ℕ) : List UInt8 :=
  [UInt8.ofNat (n / 262144 % 8 + 240), UInt8.ofNat (n / 4096 % 64 + 128),
    UInt8.ofNat (n / 64 % 64 + 128), UInt8.ofNat (n % 64 + 128)]

/-- The bytes of a number, in the shortest form. -/
def numberBytes (n : ℕ) : List UInt8 :=
  if n ≤ 127 then [UInt8.ofNat n]
  else if n ≤ 2047 then [UInt8.ofNat (n / 64 % 32 + 192), UInt8.ofNat (n % 64 + 128)]
  else if n ≤ 65535 then threeBytes n
  else fourBytes n

theorem numberBytes_of_le {n : ℕ} (h : 0x10000 ≤ n) : numberBytes n = fourBytes n := by
  rw [numberBytes, if_neg (by omega), if_neg (by omega), if_neg (by omega)]

theorem charBytes_eq (c : Char) : charBytes c = numberBytes c.toNat := rfl

/-- The bytes are those of a text. -/
def IsUtf8 (bytes : List UInt8) : Prop := ∃ cs, textBytes cs = bytes

theorem toNat_byte {n : ℕ} (h : n < 256) : (UInt8.ofNat n).toNat = n :=
  UInt8.toNat_ofNat_of_lt' h

/-! ### First bytes -/

/-- How many bytes a first byte announces. -/
def announced (b : UInt8) : ℕ :=
  if b.toNat < 0xc0 then 1 else if b.toNat < 0xe0 then 2 else if b.toNat < 0xf0 then 3 else 4

/-- There are as many bytes as the first one announces. -/
def Framed (bytes : List UInt8) : Prop :=
  ∃ b tail, bytes = b :: tail ∧ bytes.length = announced b

theorem framed_fourBytes (n : ℕ) : Framed (fourBytes n) := by
  refine ⟨_, _, rfl, ?_⟩
  have hb := toNat_byte (show n / 262144 % 8 + 240 < 256 by omega)
  unfold announced
  rw [if_neg (by omega), if_neg (by omega), if_neg (by omega)]
  rfl

theorem framed_numberBytes (n : ℕ) : Framed (numberBytes n) := by
  unfold numberBytes
  split_ifs with h₁ h₂ h₃
  · have hb := toNat_byte (show n < 256 by omega)
    exact ⟨_, _, rfl, by unfold announced; rw [if_pos (by omega)]; rfl⟩
  · have hb := toNat_byte (show n / 64 % 32 + 192 < 256 by omega)
    exact ⟨_, _, rfl, by unfold announced; rw [if_neg (by omega), if_pos (by omega)]; rfl⟩
  · have hb := toNat_byte (show n / 4096 % 16 + 224 < 256 by omega)
    refine ⟨_, _, rfl, ?_⟩
    unfold announced
    rw [if_neg (by omega), if_neg (by omega), if_pos (by omega)]
    rfl
  · exact framed_fourBytes n

/-- **Text that begins with a framed sequence begins with a character.** -/
theorem isUtf8_append_iff {p rest : List UInt8} (hp : Framed p) :
    IsUtf8 (p ++ rest) ↔ (∃ c, charBytes c = p) ∧ IsUtf8 rest := by
  constructor
  · rintro ⟨cs, hcs⟩
    obtain ⟨b, tail, rfl, hlength⟩ := hp
    cases cs with
    | nil => cases hcs
    | cons c cs =>
        rw [textBytes_cons] at hcs
        obtain ⟨b', tail', hc, hlength'⟩ := framed_numberBytes c.toNat
        rw [← charBytes_eq] at hc hlength'
        obtain rfl : b' = b := by
          rw [hc] at hcs
          exact (List.cons.inj hcs).1
        obtain ⟨hhead, hrest⟩ := List.append_inj hcs (hlength'.trans hlength.symm)
        exact ⟨⟨c, hhead⟩, cs, hrest⟩
  · rintro ⟨⟨c, rfl⟩, cs, rfl⟩
    exact ⟨c :: cs, rfl⟩

/-! ### Numbers from bytes -/

/-- The number that a sequence of bytes stands for. -/
def value : List UInt8 → ℕ
  | [a] => a.toNat
  | [a, b] => (a.toNat - 192) * 64 + (b.toNat - 128)
  | [a, b, c] => ((a.toNat - 224) * 64 + (b.toNat - 128)) * 64 + (c.toNat - 128)
  | [a, b, c, d] =>
      (((a.toNat - 240) * 64 + (b.toNat - 128)) * 64 + (c.toNat - 128)) * 64 + (d.toNat - 128)
  | _ => 0

theorem value_fourBytes {n : ℕ} (h : n < 2 ^ 21) : value (fourBytes n) = n := by
  have h₁ := toNat_byte (show n / 262144 % 8 + 240 < 256 by omega)
  have h₂ := toNat_byte (show n / 4096 % 64 + 128 < 256 by omega)
  have h₃ := toNat_byte (show n / 64 % 64 + 128 < 256 by omega)
  have h₄ := toNat_byte (show n % 64 + 128 < 256 by omega)
  show (((UInt8.toNat _ - 240) * 64 + (UInt8.toNat _ - 128)) * 64 + (UInt8.toNat _ - 128)) * 64 +
    (UInt8.toNat _ - 128) = n
  rw [h₁, h₂, h₃, h₄]
  omega

theorem value_numberBytes {n : ℕ} (h : n < 2 ^ 21) : value (numberBytes n) = n := by
  have hlast := toNat_byte (show n % 64 + 128 < 256 by omega)
  unfold numberBytes
  split_ifs with h₁ h₂ h₃
  · exact toNat_byte (by omega)
  · have hfirst := toNat_byte (show n / 64 % 32 + 192 < 256 by omega)
    show (UInt8.toNat _ - 192) * 64 + (UInt8.toNat _ - 128) = n
    rw [hfirst, hlast]
    omega
  · have hfirst := toNat_byte (show n / 4096 % 16 + 224 < 256 by omega)
    have hsecond := toNat_byte (show n / 64 % 64 + 128 < 256 by omega)
    show ((UInt8.toNat _ - 224) * 64 + (UInt8.toNat _ - 128)) * 64 + (UInt8.toNat _ - 128) = n
    rw [hfirst, hsecond, hlast]
    omega
  · exact value_fourBytes h

theorem value_charBytes (c : Char) : value (charBytes c) = c.toNat := by
  have hc := toNat_char_lt c
  rw [charBytes_eq, value_numberBytes (by omega)]

/-- The shortest form of a number is that of a character if the number is one. -/
theorem exists_numberBytes_iff {n : ℕ} (h : n < 2 ^ 21) :
    (∃ c, charBytes c = numberBytes n) ↔ n.isValidChar := by
  constructor
  · rintro ⟨c, hc⟩
    have hvalue := congrArg value hc
    rw [value_charBytes, value_numberBytes h] at hvalue
    rw [← hvalue]
    exact c.valid
  · intro hn
    exact ⟨Char.ofNat n, by rw [charBytes_eq, toNat_ofNat hn]⟩

theorem length_numberBytes_le {n : ℕ} (h : n < 0x10000) : (numberBytes n).length ≤ 3 := by
  unfold numberBytes
  split_ifs with h₁ h₂ h₃
  · exact Nat.le_add_left 1 2
  · exact Nat.le_add_left 2 1
  · exact Nat.le_refl 3
  · omega

/-- The form of four bytes is that of a character if the number needs them. -/
theorem exists_fourBytes_iff {n : ℕ} (h : n < 2 ^ 21) :
    (∃ c, charBytes c = fourBytes n) ↔ 0x10000 ≤ n ∧ n < 0x110000 := by
  constructor
  · rintro ⟨c, hc⟩
    have hvalue := congrArg value hc
    rw [value_charBytes, value_fourBytes h] at hvalue
    have hchar := toNat_char_lt c
    refine ⟨?_, by omega⟩
    by_contra hsmall
    have hlength : (numberBytes n).length = 4 := by
      rw [← hvalue, ← charBytes_eq, hc]
      rfl
    have hle := length_numberBytes_le (n := n) (by omega)
    omega
  · intro hn
    rw [← numberBytes_of_le hn.1, exists_numberBytes_iff h]
    exact .inr ⟨by omega, hn.2⟩

/-! ### Characters of one unit -/

/-- A first byte of a character below `2 ^ 16`. -/
def isShortFirst (b : UInt8) : Bool :=
  decide (b.toNat < 0x80) || (decide (0xc0 ≤ b.toNat) && decide (b.toNat < 0xf0))

theorem isShortFirst_iff {b : UInt8} :
    isShortFirst b = true ↔ b.toNat < 0x80 ∨ 0xc0 ≤ b.toNat ∧ b.toNat < 0xf0 := by
  simp [isShortFirst]

theorem isShortFirst_of_later (n : ℕ) : isShortFirst (UInt8.ofNat (n % 64 + 128)) = false := by
  have hb := toNat_byte (show n % 64 + 128 < 256 by omega)
  rw [← Bool.not_eq_true, isShortFirst_iff]
  omega

theorem countP_fourBytes (n : ℕ) : (fourBytes n).countP isShortFirst = 0 := by
  have hfirst : isShortFirst (UInt8.ofNat (n / 262144 % 8 + 240)) = false := by
    have hb := toNat_byte (show n / 262144 % 8 + 240 < 256 by omega)
    rw [← Bool.not_eq_true, isShortFirst_iff]
    omega
  simp only [fourBytes, List.countP_cons, List.countP_nil, hfirst, isShortFirst_of_later,
    Bool.false_eq_true, if_false]

theorem countP_numberBytes {n : ℕ} (h : n < 0x10000) :
    (numberBytes n).countP isShortFirst = 1 := by
  have hfirst : ∀ m, m < 256 → m < 0x80 ∨ 0xc0 ≤ m ∧ m < 0xf0 →
      isShortFirst (UInt8.ofNat m) = true := by
    intro m hm hrange
    rwa [isShortFirst_iff, toNat_byte hm]
  unfold numberBytes
  split_ifs with h₁ h₂ h₃
  · have h := hfirst n (by omega) (by omega)
    simp only [List.countP_cons, List.countP_nil, h, if_true]
  · have h := hfirst (n / 64 % 32 + 192) (by omega) (by omega)
    simp only [List.countP_cons, List.countP_nil, h, isShortFirst_of_later, if_true,
      Bool.false_eq_true, if_false]
  · have h := hfirst (n / 4096 % 16 + 224) (by omega) (by omega)
    simp only [threeBytes, List.countP_cons, List.countP_nil, h, isShortFirst_of_later, if_true,
      Bool.false_eq_true, if_false]
  · omega

end Lib
end Noxy
