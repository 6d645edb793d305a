/-
# Floating-point numbers of 64 bits, and how they are read

A `Float64` is a finite value, an infinity or no number.  The two zeros are one here: nothing
in this development tells them apart.  `ofRat` rounds a rational number to the nearest value,
ties to even: it has 53 significant bits, or fewer below the least normal number, and what
rounds to `2 ^ 1024` or more is an infinity.

`fromStr` reads a decimal text as the standard library of Rust does: an optional sign, then
digits with an optional point and an optional exponent, or one of the words for an infinity
and for no number.  `quotient` and `divide` are divisions that do not round, and `IsDuration`
says of which values there is a `Duration` of so many seconds.
-/

import Mathlib.Algebra.Order.Ring.Rat

namespace Noxy
namespace Lib

/-- A value of `f64`. -/
inductive Float64 where
  | nan
  | infinite (negative : Bool)
  | finite (value : ℚ)
  deriving DecidableEq, Repr

namespace Float64

/-- The nearest integer, ties to even. -/
def roundHalfEven (q : ℚ) : ℤ :=
  let n := q.floor
  let rest := q - n
  if rest < 1 / 2 then n
  else if 1 / 2 < rest then n + 1
  else if n % 2 = 0 then n
  else n + 1

/-- A power of two. -/
def pow2 : ℤ → ℚ
  | .ofNat n => (2 ^ n : ℕ)
  | .negSucc n => 1 / (2 ^ (n + 1) : ℕ)

/-- The exponent of the leading bit of a positive number. -/
def leadingBit (q : ℚ) : ℤ :=
  let k : ℤ := q.num.natAbs.log2 - q.den.log2
  if pow2 k ≤ q then k else k - 1

/-- The value nearest to a rational number. -/
def ofRat (q : ℚ) : Float64 :=
  let magnitude := if q < 0 then -q else q
  let unit := pow2 (max (leadingBit magnitude) (-1022) - 52)
  let rounded := roundHalfEven (magnitude / unit) * unit
  if pow2 1024 ≤ rounded then .infinite (decide (q < 0))
  else .finite (if q < 0 then -rounded else rounded)

/-- The exact quotient of two finite values. -/
def quotient (a b : ℚ) : Float64 :=
  if b ≠ 0 then .finite (a / b) else if a = 0 then .nan else .infinite (decide (a < 0))

/-- The exact quotient of a finite value and any other. -/
def divide (a : ℚ) : Float64 → Float64
  | .nan => .nan
  | .infinite _ => .finite 0
  | .finite b => quotient a b

/-- The value, and zero in the place of one that is not finite. -/
def finitePart : Float64 → ℚ
  | .finite q => q
  | _ => 0

/-- There is a `Duration` of so many seconds. -/
def IsDuration : Float64 → Prop
  | .finite secs => 0 ≤ secs ∧ secs < 2 ^ 64
  | _ => False

/-- The number that decimal digits stand for. -/
def digitsValue (digits : List Char) : ℕ :=
  digits.foldl (fun n c => 10 * n + (c.toNat - '0'.toNat)) 0

/-- A power of ten. -/
def pow10 : ℤ → ℚ
  | .ofNat n => (10 ^ n : ℕ)
  | .negSucc n => 1 / (10 ^ (n + 1) : ℕ)

/-- The digits of an exponent; it does not grow beyond all bounds. -/
def exponentValue (digits : List Char) : ℕ :=
  digits.foldl (fun n c => if n < 65536 then 10 * n + (c.toNat - '0'.toNat) else n) 0

/-- What follows the `e` of an exponent. -/
def readExponent (text : List Char) : Option ℤ :=
  let (negative, digits) := match text with
    | '-' :: digits => (true, digits)
    | '+' :: digits => (false, digits)
    | digits => (false, digits)
  if digits = [] ∨ digits.all Char.isDigit = false then none
  else some (if negative then -(exponentValue digits : ℤ) else exponentValue digits)

/-- A decimal number without its sign. -/
def readNumber (text : List Char) : Option ℚ :=
  let (whole, rest) := text.span Char.isDigit
  let (fraction, rest) := match rest with
    | '.' :: rest => rest.span Char.isDigit
    | rest => ([], rest)
  if whole = [] ∧ fraction = [] then none
  else
    let mantissa : ℚ := digitsValue (whole ++ fraction)
    match rest with
    | [] => some (mantissa * pow10 (-fraction.length))
    | c :: rest =>
        if c = 'e' ∨ c = 'E' then
          (readExponent rest).map fun exponent => mantissa * pow10 (exponent - fraction.length)
        else none

/-- The words that are not numbers. -/
def readWord (negative : Bool) (text : List Char) : Option Float64 :=
  let word := text.map Char.toLower
  if word = "nan".toList then some .nan
  else if word = "inf".toList ∨ word = "infinity".toList then some (.infinite negative)
  else none

/-- `str::parse::<f64>`, with the text of its error. -/
def fromStr (text : String) : Except String Float64 :=
  match text.toList with
  | [] => .error "cannot parse float from empty string"
  | c :: rest =>
      let negative := c == '-'
      let text := if c = '-' ∨ c = '+' then rest else c :: rest
      match readNumber text with
      | some q => .ok (ofRat (if negative then -q else q))
      | none =>
          match readWord negative text with
          | some value => .ok value
          | none => .error "invalid float literal"

-- the nearest value to this number is the power of two above it
example : fromStr "18446744073709551615" = .ok (.finite (2 ^ 64)) := by decide +kernel

end Float64
end Lib
end Noxy
