/-
# The bytes of a script's strings

`src/middleware/script_runtime.js`: `encodeUtf8`, and the bodies that `respond` and `Response`
make with it.

A string is a sequence of code units, and `charCodeAt` past its end is `NaN`.  The loop takes a
high surrogate and whatever unit comes next for a pair.  `encodeUtf8_eq` says what it gives, unit
by unit (`encodeUnits`).  For the strings of characters that is their UTF-8 encoding, from which
they can be read back (`encodeUtf8_wellFormed`).
-/

import Noxy.Lib.JsNumber
import Noxy.Lib.Utf16
import Noxy.Lib.Utf8Sequence
import Noxy.Script.Runtime

namespace Noxy
namespace Script

open Http Lib Lib.Js Lib.Utf16

/-- A string, as its code units. -/
abbrev JsString := List UInt16

/-- `str.charCodeAt(i)`. -/
def charCodeAt (str : JsString) (i : ℕ) : Number :=
  match str[i]? with
  | some u => .int u.toNat
  | none => .nan

/-- The body of the loop of `encodeUtf8`: `i` and `bytes` after it. -/
def encodeStep (str : JsString) (i : ℕ) (bytes : List Number) : ℕ × List Number :=
  let c := charCodeAt str i
  if c < 0x80 then (i, bytes ++ [c])
  else if c < 0x800 then (i, bytes ++ [0xc0 ||| c.shr 6, 0x80 ||| (c &&& 0x3f)])
  else if c ≥ 0xd800 ∧ c ≤ 0xdbff then
    let hi := c
    let i := i + 1
    let lo := charCodeAt str i
    let c := 0x10000 + (hi - 0xd800).shl 10 + (lo - 0xdc00)
    (i, bytes ++
      [0xf0 ||| c.shr 18,
        0x80 ||| (c.shr 12 &&& 0x3f),
        0x80 ||| (c.shr 6 &&& 0x3f),
        0x80 ||| (c &&& 0x3f)])
  else (i, bytes ++ [0xe0 ||| c.shr 12, 0x80 ||| (c.shr 6 &&& 0x3f), 0x80 ||| (c &&& 0x3f)])

/-- The loop from an index on; the fuel is the number of turns that it may take. -/
def encodeLoop (str : JsString) : ℕ → ℕ → List Number → List Number
  | 0, _, bytes => bytes
  | fuel + 1, i, bytes =>
      if i < str.length then
        encodeLoop str fuel ((encodeStep str i bytes).1 + 1) (encodeStep str i bytes).2
      else bytes

/-- `encodeUtf8`. -/
def encodeUtf8 (str : JsString) : List UInt8 :=
  (encodeLoop str str.length 0 []).map Number.toUint8

/-- A body that a script gives: a string, or bytes. -/
inductive JsBody where
  | text (str : JsString)
  | bytes (data : List UInt8)

/-- `bodyBytes` of `respond`, and `#customBody` of `Response`. -/
def JsBody.toBytes : JsBody → List UInt8
  | .text str => encodeUtf8 str
  | .bytes data => data

/-! ### Bit fields of a code point -/

section Fields

variable {n : ℕ}

/-- A first byte: its mark above the highest bits. -/
theorem toUint8_first {a j k : ℕ} (hn : n < 2 ^ 21) (hj : j < 32) (hk : n / 2 ^ j < 2 ^ k)
    (ha : 2 ^ k * a < 2 ^ 8) :
    (Number.int (2 ^ k * a : ℕ) ||| (Number.int n).shr (.int j)).toUint8 =
      UInt8.ofNat (n / 2 ^ j + 2 ^ k * a) := by
  have hle : n / 2 ^ j ≤ n := Nat.div_le_self _ _
  rw [Number.shr_int (by omega) hj, Number.int_or_of_lt hk (by omega),
    Number.toUint8_int, Nat.add_comm]

/-- A last byte. -/
theorem toUint8_last (hn : n < 2 ^ 21) :
    ((0x80 : Number) ||| (Number.int n &&& 0x3f)).toUint8 = UInt8.ofNat (n % 64 + 128) := by
  have hmask : (0x3f : Number) = Number.int (2 ^ 6 - 1 : ℕ) := rfl
  have hmark : (0x80 : Number) = Number.int (2 ^ 6 * 2 : ℕ) := rfl
  rw [hmask, hmark, Number.int_and_mask (by omega) (by decide),
    Number.int_or_of_lt (by omega) (by omega), Number.toUint8_int]
  exact congrArg UInt8.ofNat (by omega)

/-- A byte in the middle. -/
theorem toUint8_middle {j : ℕ} (hn : n < 2 ^ 21) (hj : j < 32) :
    ((0x80 : Number) ||| ((Number.int n).shr (.int j) &&& 0x3f)).toUint8 =
      UInt8.ofNat (n / 2 ^ j % 64 + 128) := by
  have hle : n / 2 ^ j ≤ n := Nat.div_le_self _ _
  rw [Number.shr_int (by omega) hj, toUint8_last (by omega)]

/-- The four bytes that the loop pushes for a number. -/
theorem map_toUint8_four (hn : n < 2 ^ 21) :
    [0xf0 ||| (Number.int n).shr 18, 0x80 ||| ((Number.int n).shr 12 &&& 0x3f),
        0x80 ||| ((Number.int n).shr 6 &&& 0x3f), 0x80 ||| (Number.int n &&& 0x3f)].map
      Number.toUint8 = fourBytes n := by
  have hfirst : n / 262144 = n / 262144 % 8 := by omega
  have h₁ := toUint8_first (j := 18) (k := 3) (a := 30) hn (by decide) (by omega) (by decide)
  have h₂ := toUint8_middle (j := 12) hn (by decide)
  have h₃ := toUint8_middle (j := 6) hn (by decide)
  have h₄ := toUint8_last hn
  rw [fourBytes, ← hfirst]
  exact congr (congrArg List.cons h₁) (congr (congrArg List.cons h₂)
    (congr (congrArg List.cons h₃) (congrArg (fun b => [b]) h₄)))

/-- The three bytes. -/
theorem map_toUint8_three (hn : n < 2 ^ 16) :
    [0xe0 ||| (Number.int n).shr 12, 0x80 ||| ((Number.int n).shr 6 &&& 0x3f),
        0x80 ||| (Number.int n &&& 0x3f)].map Number.toUint8 = threeBytes n := by
  have hfirst : n / 4096 = n / 4096 % 16 := by omega
  have h₁ := toUint8_first (n := n) (j := 12) (k := 4) (a := 14) (by omega) (by decide) (by omega)
    (by decide)
  have h₂ := toUint8_middle (n := n) (j := 6) (by omega) (by decide)
  have h₃ := toUint8_last (n := n) (by omega)
  rw [threeBytes, ← hfirst]
  exact congr (congrArg List.cons h₁) (congr (congrArg List.cons h₂) (congrArg (fun b => [b]) h₃))

/-- The two bytes. -/
theorem map_toUint8_two (hn : n < 0x800) :
    [0xc0 ||| (Number.int n).shr 6, 0x80 ||| (Number.int n &&& 0x3f)].map Number.toUint8 =
      [UInt8.ofNat (n / 64 % 32 + 192), UInt8.ofNat (n % 64 + 128)] := by
  have hfirst : n / 64 = n / 64 % 32 := by omega
  have h₁ := toUint8_first (n := n) (j := 6) (k := 5) (a := 6) (by omega) (by decide) (by omega)
    (by decide)
  have h₂ := toUint8_last (n := n) (by omega)
  rw [← hfirst]
  exact congr (congrArg List.cons h₁) (congrArg (fun b => [b]) h₂)

end Fields

/-! ### The loop -/

/-- The bytes of a high surrogate with the unit after it, if there is one. -/
def pairBytes (u : UInt16) : Option UInt16 → List UInt8
  | some v => fourBytes (pairValue u v)
  | none => fourBytes 0

/-- What the loop makes of a string, unit by unit. -/
def encodeUnits : JsString → List UInt8
  | [] => []
  | u :: rest =>
      if IsHigh u then
        match rest with
        | [] => pairBytes u none
        | v :: rest' => pairBytes u (some v) ++ encodeUnits rest'
      else numberBytes u.toNat ++ encodeUnits rest

section Loop

variable {str : JsString} {i : ℕ} {u : UInt16}

theorem charCodeAt_of_getElem? (h : str[i]? = some u) :
    charCodeAt str i = Number.int u.toNat := by
  rw [charCodeAt, h]

/-- A turn of the loop at a unit that is no high surrogate. -/
theorem encodeStep_of_unit (bytes : List Number) (h : str[i]? = some u) (hu : ¬ IsHigh u) :
    ∃ pushed, encodeStep str i bytes = (i, bytes ++ pushed) ∧
      pushed.map Number.toUint8 = numberBytes u.toNat := by
  have hlt := u.toNat_lt
  have h80 : (Number.int u.toNat < 0x80) ↔ u.toNat < 0x80 := Number.int_lt _ _
  have h800 : (Number.int u.toNat < 0x800) ↔ u.toNat < 0x800 := Number.int_lt _ _
  have hhigh : ¬ (Number.int u.toNat ≥ 0xd800 ∧ Number.int u.toNat ≤ 0xdbff) := fun hrange =>
    hu ⟨(Number.int_le _ _).mp hrange.1, (Number.int_le _ _).mp hrange.2⟩
  unfold encodeStep
  rw [charCodeAt_of_getElem? h]
  dsimp only
  by_cases h₁ : u.toNat < 0x80
  · rw [if_pos (h80.mpr h₁)]
    refine ⟨_, rfl, ?_⟩
    rw [numberBytes, if_pos (by omega)]
    exact congrArg (fun b => [b]) (Number.toUint8_int _)
  · rw [if_neg (mt h80.mp h₁)]
    by_cases h₂ : u.toNat < 0x800
    · rw [if_pos (h800.mpr h₂)]
      refine ⟨_, rfl, ?_⟩
      rw [numberBytes, if_neg (by omega), if_pos (by omega)]
      exact map_toUint8_two h₂
    · rw [if_neg (mt h800.mp h₂), if_neg hhigh]
      refine ⟨_, rfl, ?_⟩
      rw [numberBytes, if_neg (by omega), if_neg (by omega), if_pos (by omega)]
      exact map_toUint8_three hlt

/-- A turn of the loop at a high surrogate. -/
theorem encodeStep_of_high (bytes : List Number) (h : str[i]? = some u) (hu : IsHigh u) :
    ∃ pushed, encodeStep str i bytes = (i + 1, bytes ++ pushed) ∧
      pushed.map Number.toUint8 = pairBytes u str[i + 1]? := by
  have hrange := hu
  unfold IsHigh at hrange
  have h80 : ¬ (Number.int u.toNat < 0x80) := fun hlt => by
    have := (Number.int_lt u.toNat 0x80).mp hlt
    omega
  have h800 : ¬ (Number.int u.toNat < 0x800) := fun hlt => by
    have := (Number.int_lt u.toNat 0x800).mp hlt
    omega
  have hhigh : Number.int u.toNat ≥ 0xd800 ∧ Number.int u.toNat ≤ 0xdbff :=
    ⟨(Number.int_le _ _).mpr hu.1, (Number.int_le _ _).mpr hu.2⟩
  unfold encodeStep
  rw [charCodeAt_of_getElem? h]
  dsimp only
  rw [if_neg h80, if_neg h800, if_pos hhigh]
  refine ⟨_, rfl, ?_⟩
  cases hv : str[i + 1]? with
  | none =>
      have hnan : charCodeAt str (i + 1) = .nan := by rw [charCodeAt, hv]
      rw [hnan, Number.nan_sub, Number.add_nan]
      rfl
  | some v =>
      have hcode : (0x10000 : Number) + (Number.int u.toNat - 0xd800).shl 10 +
          (charCodeAt str (i + 1) - 0xdc00) = Number.int (pairValue u v) := by
        have hsub : Number.int u.toNat - 0xd800 = Number.int (u.toNat - 0xd800 : ℕ) :=
          Number.int_sub hu.1
        have hshift : (Number.int (u.toNat - 0xd800 : ℕ)).shl 10 =
            Number.int ((u.toNat - 0xd800) * 2 ^ 10 : ℕ) :=
          have hbound : (u.toNat - 0xd800) * 2 ^ 10 < 2 ^ 31 := by omega
          Number.shl_int (by decide) hbound
        rw [charCodeAt_of_getElem? hv, hsub, hshift]
        refine congrArg Number.int ?_
        show (0x10000 : ℤ) + ((u.toNat - 0xd800) * 2 ^ 10 : ℕ) + ((v.toNat : ℤ) - 0xdc00) =
          (pairValue u v : ℕ)
        unfold pairValue
        omega
      rw [hcode]
      exact map_toUint8_four (pairValue_lt hu v)

theorem encodeUnits_of_unit (hu : ¬ IsHigh u) (rest : JsString) :
    encodeUnits (u :: rest) = numberBytes u.toNat ++ encodeUnits rest := by
  rw [encodeUnits.eq_def]
  simp only [if_neg hu]

theorem encodeUnits_of_high (hu : IsHigh u) (rest : JsString) :
    encodeUnits (u :: rest) = pairBytes u rest.head? ++ encodeUnits rest.tail := by
  rw [encodeUnits.eq_def]
  cases rest with
  | nil =>
      simp only [if_pos hu]
      exact (List.append_nil _).symm
  | cons v rest =>
      simp only [if_pos hu]
      rfl

/-- **The loop from an index on**, with at least as many turns as there are units left. -/
theorem encodeLoop_eq (fuel i : ℕ) (bytes : List Number) (h : str.length - i ≤ fuel) :
    (encodeLoop str fuel i bytes).map Number.toUint8 =
      bytes.map Number.toUint8 ++ encodeUnits (str.drop i) := by
  induction fuel generalizing i bytes with
  | zero =>
      rw [List.drop_eq_nil_of_le (by omega)]
      exact (List.append_nil _).symm
  | succ fuel ih =>
      rw [encodeLoop]
      by_cases hi : i < str.length
      · have hget : str[i]? = some str[i] := List.getElem?_eq_getElem hi
        have hdrop : str.drop i = str[i] :: str.drop (i + 1) := List.drop_eq_getElem_cons hi
        rw [if_pos hi]
        by_cases hu : IsHigh str[i]
        · obtain ⟨pushed, hstep, hpushed⟩ := encodeStep_of_high bytes hget hu
          rw [hstep, ih _ _ (by omega), List.map_append, hpushed, hdrop, encodeUnits_of_high hu,
            List.head?_drop, List.tail_drop, List.append_assoc]
        · obtain ⟨pushed, hstep, hpushed⟩ := encodeStep_of_unit bytes hget hu
          rw [hstep, ih _ _ (by omega), List.map_append, hpushed, hdrop, encodeUnits_of_unit hu,
            List.append_assoc]
      · rw [if_neg hi, List.drop_eq_nil_of_le (by omega)]
        exact (List.append_nil _).symm

/-- **What `encodeUtf8` returns.** -/
theorem encodeUtf8_eq (str : JsString) : encodeUtf8 str = encodeUnits str :=
  encodeLoop_eq str.length 0 [] (Nat.sub_le _ _)

end Loop

/-! ### Strings of characters -/

theorem encodeUnits_units (c : Char) (rest : JsString) :
    encodeUnits (units c ++ rest) = charBytes c ++ encodeUnits rest := by
  rcases units_cases c with ⟨u, hu, hc, hhigh, -⟩ | ⟨u, v, hu, hc, hhigh, hlow⟩
  · rw [hu, List.singleton_append, encodeUnits_of_unit hhigh, hc, charBytes_eq]
  · have hle : 0x10000 ≤ c.toNat := by
      unfold IsLow at hlow
      unfold pairValue at hc
      omega
    rw [hu, List.cons_append, encodeUnits_of_high hhigh, charBytes_eq, numberBytes_of_le hle, ← hc]
    rfl

theorem encodeUnits_encode (cs : List Char) : encodeUnits (encode cs) = textBytes cs := by
  induction cs with
  | nil => rfl
  | cons c cs ih =>
      rw [encode, List.flatMap_cons, encodeUnits_units, textBytes_cons]
      exact congrArg _ ih

/-- **Well-formed strings.**  The bytes are the UTF-8 encoding of the characters of the string,
and decoding them gives the string back. -/
theorem encodeUtf8_wellFormed {str : JsString} (h : WellFormed str) :
    ∃ cs : List Char, items str = cs.map .char ∧ encodeUtf8 str = textBytes cs ∧
      (fromUtf8 (encodeUtf8 str)).map (fun text => encode text.toList) = some str := by
  obtain ⟨cs, rfl⟩ := wellFormed_iff.mp h
  have hbytes : encodeUtf8 (encode cs) = textBytes cs := by
    rw [encodeUtf8_eq, encodeUnits_encode]
  have hdecoded : fromUtf8 (encodeUtf8 (encode cs)) = some (String.ofList cs) := by
    rw [fromUtf8_eq_some_iff, hbytes, utf8, String.toList_ofList]
    rfl
  refine ⟨cs, items_encode cs, hbytes, ?_⟩
  rw [hdecoded, Option.map_some, String.toList_ofList]

/-- A string with characters of one, two, three and four bytes. -/
def sampleString : JsString := [0x61, 0xe9, 0x20ac, 0xd83d, 0xde00]

/-- The hypothesis of `encodeUtf8_wellFormed` is met by a string with characters of every length. -/
theorem encodeUtf8_wellFormed_sample :
    WellFormed sampleString ∧
      ∃ cs : List Char, items sampleString = cs.map .char ∧
        encodeUtf8 sampleString = textBytes cs ∧
        (fromUtf8 (encodeUtf8 sampleString)).map (fun text => encode text.toList) =
          some sampleString := by
  have h : WellFormed sampleString := wellFormed_iff.mpr ⟨['a', 'é', '€', '😀'], by decide⟩
  exact ⟨h, encodeUtf8_wellFormed h⟩

/-! ### Bodies -/

/-- **A body that the script gives is forwarded as its bytes.** -/
theorem forwarded_toBytes {T : TextCrate} (svc : ScriptService T) (req : Request T.toHttpCrate)
    (world : World T.toHttpCrate) {read : Bool} {arg : JsRequest} {body : JsBody}
    (hfirst : (svc.handler (ScriptService.jsRequest req)).firstRespond
        (collectLimited req.body svc.maxBodyBytes) false false =
      some (read, arg, some body.toBytes)) :
    ∀ sent ∈ (svc.exchange req world).2.forwarded, sent.body.data = body.toBytes := by
  intro sent hsent
  rw [svc.forwarded_exchange req world hfirst, Option.elim_some, ScriptService.handed] at hsent
  cases hrequest : RequestMeta.intoRequest T ⟨arg.method, arg.url, arg.headers.entries⟩
      (fullBody body.toBytes) with
  | error e =>
      rw [hrequest] at hsent
      cases hsent
  | ok built =>
      rw [hrequest] at hsent
      obtain rfl : sent = built := List.mem_singleton.mp hsent
      obtain ⟨-, -, -, hbody⟩ := intoRequest_ok_iff.mp hrequest
      rw [hbody]
      exact data_fullBody _

end Script
end Noxy
