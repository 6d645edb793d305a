/-
# Numbers of JavaScript

A `Number` that is an integer, or `NaN`.  Sums and differences with `NaN` are `NaN`, and every
comparison with it is false.  The bitwise operators take their operands to 32 bits first, where
`NaN` is zero, and give a signed integer.  Integers stand for themselves, which is exact below
`2 ^ 53`.

A number that is not negative and below `2 ^ 31` is not changed by going through 32 bits.  On
such numbers the operators are those of natural numbers (`shr_int`, `shl_int`, `int_and`, `int_or`),
and putting a byte together from two fields is a sum (`int_or_of_lt`).
-/

import Mathlib.Algebra.Order.Ring.Nat
import Mathlib.Data.Int.Notation

namespace Noxy
namespace Lib
namespace Js

/-- A `Number`. -/
inductive Number where
  | nan
  | int (n : ℤ)
  deriving DecidableEq, Repr

namespace Number

instance (n : ℕ) : OfNat Number n := ⟨.int n⟩

/-- `ToInt32`. -/
def toInt32 : Number → BitVec 32
  | nan => 0
  | int n => BitVec.ofInt 32 n

/-- `ToUint8`. -/
def toUint8 : Number → UInt8
  | nan => 0
  | int n => UInt8.ofInt n

/-- The number of a signed 32-bit integer. -/
def ofInt32 (b : BitVec 32) : Number := .int b.toInt

/-- `a + b`. -/
instance : Add Number where
  add
    | int m, int n => .int (m + n)
    | _, _ => .nan

/-- `a - b`. -/
instance : Sub Number where
  sub
    | int m, int n => .int (m - n)
    | _, _ => .nan

/-- `a < b`. -/
instance : LT Number where
  lt
    | int m, int n => m < n
    | _, _ => False

/-- `a <= b`. -/
instance : LE Number where
  le
    | int m, int n => m ≤ n
    | _, _ => False

instance (a b : Number) : Decidable (a < b) :=
  match a, b with
  | int m, int n => inferInstanceAs (Decidable (m < n))
  | nan, nan => inferInstanceAs (Decidable False)
  | nan, int _ => inferInstanceAs (Decidable False)
  | int _, nan => inferInstanceAs (Decidable False)

instance (a b : Number) : Decidable (a ≤ b) :=
  match a, b with
  | int m, int n => inferInstanceAs (Decidable (m ≤ n))
  | nan, nan => inferInstanceAs (Decidable False)
  | nan, int _ => inferInstanceAs (Decidable False)
  | int _, nan => inferInstanceAs (Decidable False)

/-- The count of a shift: its lowest five bits. -/
def count (a : Number) : ℕ := a.toInt32.toNat % 32

/-- `a << b`. -/
def shl (a b : Number) : Number := ofInt32 (a.toInt32 <<< b.count)

/-- `a >> b`. -/
def shr (a b : Number) : Number := ofInt32 (a.toInt32.sshiftRight b.count)

/-- `a & b`. -/
instance : AndOp Number := ⟨fun a b => ofInt32 (a.toInt32 &&& b.toInt32)⟩

/-- `a | b`. -/
instance : OrOp Number := ⟨fun a b => ofInt32 (a.toInt32 ||| b.toInt32)⟩

theorem nan_sub (a : Number) : nan - a = nan := rfl

theorem add_nan (a : Number) : a + nan = nan := by
  cases a <;> rfl

/-! ### Numbers below `2 ^ 31` -/

theorem int_lt (m n : ℕ) : (int m < int n) ↔ m < n := Int.ofNat_lt

theorem int_le (m n : ℕ) : (int m ≤ int n) ↔ m ≤ n := Int.ofNat_le

theorem int_sub {m n : ℕ} (h : n ≤ m) : int m - int n = int (m - n : ℕ) :=
  congrArg int (Int.ofNat_sub h).symm

theorem toUint8_int (n : ℕ) : toUint8 (int n) = UInt8.ofNat n := by
  have hmod : ((n : ℤ) % 2 ^ 8).toNat = n % 2 ^ 8 := by omega
  show UInt8.ofNat ((n : ℤ) % 2 ^ 8).toNat = UInt8.ofNat n
  rw [hmod, UInt8.ofNat_mod_size]

theorem toInt32_int (n : ℕ) : toInt32 (int n) = BitVec.ofNat 32 n :=
  BitVec.ofInt_natCast 32 n

theorem ofInt32_of_lt {b : BitVec 32} (h : b.toNat < 2 ^ 31) :
    ofInt32 b = int b.toNat := by
  have htwice : 2 * b.toNat < 2 ^ 32 := by omega
  rw [ofInt32, BitVec.toInt_eq_toNat_of_lt htwice]

theorem toNat_toInt32 {n : ℕ} (h : n < 2 ^ 31) : (toInt32 (int n)).toNat = n := by
  rw [toInt32_int, BitVec.toNat_ofNat]
  omega

theorem count_int {k : ℕ} (hk : k < 32) : count (int k) = k := by
  rw [count, toNat_toInt32 (by omega), Nat.mod_eq_of_lt hk]

theorem shr_int {n : ℕ} (h : n < 2 ^ 31) {k : ℕ} (hk : k < 32) :
    shr (int n) (int k) = int (n / 2 ^ k : ℕ) := by
  have hn := toNat_toInt32 h
  have hmsb : (toInt32 (int n)).msb = false := by
    rw [BitVec.msb_eq_false_iff_two_mul_lt, hn]
    omega
  have hshift : ((toInt32 (int n)).sshiftRight (count (int k))).toNat = n / 2 ^ k := by
    rw [BitVec.sshiftRight_eq_of_msb_false hmsb, BitVec.toNat_ushiftRight, hn,
      count_int hk, Nat.shiftRight_eq_div_pow]
  have hle : n / 2 ^ k ≤ n := Nat.div_le_self _ _
  show ofInt32 _ = _
  rw [ofInt32_of_lt (by omega), hshift]

theorem shl_int {n k : ℕ} (hk : k < 32) (h : n * 2 ^ k < 2 ^ 31) :
    shl (int n) (int k) = int (n * 2 ^ k : ℕ) := by
  have hle : n ≤ n * 2 ^ k := Nat.le_mul_of_pos_right n (Nat.two_pow_pos k)
  have hshift : (toInt32 (int n) <<< count (int k)).toNat = n * 2 ^ k := by
    rw [BitVec.toNat_shiftLeft, toNat_toInt32 (by omega), count_int hk,
      Nat.shiftLeft_eq, Nat.mod_eq_of_lt (by omega)]
  show ofInt32 _ = _
  rw [ofInt32_of_lt (by omega), hshift]

theorem int_and {m n : ℕ} (hm : m < 2 ^ 31) (hn : n < 2 ^ 31) :
    int m &&& int n = int (m &&& n : ℕ) := by
  have hand : (toInt32 (int m) &&& toInt32 (int n)).toNat = m &&& n := by
    rw [BitVec.toNat_and, toNat_toInt32 hm, toNat_toInt32 hn]
  have hle : m &&& n ≤ m := Nat.and_le_left
  show ofInt32 _ = _
  rw [ofInt32_of_lt (by omega), hand]

theorem int_or {m n : ℕ} (hm : m < 2 ^ 31) (hn : n < 2 ^ 31) :
    int m ||| int n = int (m ||| n : ℕ) := by
  have hor : (toInt32 (int m) ||| toInt32 (int n)).toNat = m ||| n := by
    rw [BitVec.toNat_or, toNat_toInt32 hm, toNat_toInt32 hn]
  have hlt : m ||| n < 2 ^ 31 := Nat.or_lt_two_pow hm hn
  show ofInt32 _ = _
  rw [ofInt32_of_lt (by omega), hor]

/-! ### Bit fields -/

/-- The lowest `k` bits. -/
theorem int_and_mask {n k : ℕ} (h : n < 2 ^ 31) (hk : k < 32) :
    int n &&& int (2 ^ k - 1 : ℕ) = int (n % 2 ^ k : ℕ) := by
  have hmask : 2 ^ k ≤ 2 ^ 31 := Nat.pow_le_pow_right (by decide) (by omega)
  rw [int_and h (by omega), Nat.and_two_pow_sub_one_eq_mod]

/-- **Two fields in one number**: the lower one has `k` bits. -/
theorem int_or_of_lt {a n k : ℕ} (hn : n < 2 ^ k) (h : 2 ^ k * a + n < 2 ^ 31) :
    int (2 ^ k * a : ℕ) ||| int n = int (2 ^ k * a + n : ℕ) := by
  rw [int_or (by omega) (by omega), Nat.two_pow_add_eq_or_of_lt hn]

end Number
end Js
end Lib
end Noxy
