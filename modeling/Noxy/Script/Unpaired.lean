/-
# Unpaired surrogates in a script's strings

`encodeUtf8` of `src/middleware/script_runtime.js`, on strings that are not well-formed.

The loop takes a high surrogate and the unit after it for a pair.  So an unpaired low surrogate
is written in three bytes that are no character, an unpaired high one at the end of the string
in four, and a character after an unpaired high one is lost (`surrogates_break`).

`unpaired_encoded_iff` is exact.  The bytes are UTF-8 and hold the other characters of the string
as they are if and only if the loop stays in step with the string (`InStep`): unpaired surrogates
are high ones in pairs, of which the loop makes one character.  If every unpaired surrogate is to
have a character of its own, the string has to be well-formed.
-/

import Noxy.Script.EncodeUtf8

namespace Noxy
namespace Script

open Lib Lib.Utf16

/-- The bytes stand for the items of a string: those of each character, and for an unpaired
surrogate something that is admitted. -/
inductive Encoded (admitted : List UInt8 → Prop) : List Item → List UInt8 → Prop
  | nil : Encoded admitted [] []
  | char (c : Char) {rest : List Item} {bytes : List UInt8} (h : Encoded admitted rest bytes) :
      Encoded admitted (.char c :: rest) (charBytes c ++ bytes)
  | unpaired (u : UInt16) {own : List UInt8} (hown : admitted own) {rest : List Item}
      {bytes : List UInt8} (h : Encoded admitted rest bytes) :
      Encoded admitted (.unpaired u :: rest) (own ++ bytes)

/-- The characters of the string are encoded as they are, whatever there is for the unpaired
surrogates. -/
def OthersKept (str : JsString) (bytes : List UInt8) : Prop :=
  Encoded (fun _ => True) (items str) bytes

/-- In addition there are characters for each unpaired surrogate. -/
def EachEncoded (str : JsString) (bytes : List UInt8) : Prop :=
  Encoded (fun own => ∃ c cs, textBytes (c :: cs) = own) (items str) bytes

/-- **The loop is in step with the string**: there are characters, and high surrogates in pairs
of which the first is not the lowest one. -/
inductive InStep : JsString → Prop
  | nil : InStep []
  | char (c : Char) {rest : JsString} (h : InStep rest) : InStep (units c ++ rest)
  | highs {u v : UInt16} (hu : IsHigh u) (hlowest : u.toNat ≠ 0xd800) (hv : IsHigh v)
      {rest : JsString} (h : InStep rest) : InStep (u :: v :: rest)

/-! ### Which strings give UTF-8 -/

section Utf8

variable {u : UInt16}

theorem isUtf8_of_unit_iff (hu : ¬ IsHigh u) (rest : JsString) :
    IsUtf8 (encodeUnits (u :: rest)) ↔ ¬ IsLow u ∧ IsUtf8 (encodeUnits rest) := by
  have hlt := u.toNat_lt
  have hvalid : u.toNat.isValidChar ↔ ¬ IsLow u := by
    unfold IsHigh at hu
    unfold IsLow Nat.isValidChar
    omega
  rw [encodeUnits_of_unit hu, isUtf8_append_iff (framed_numberBytes _),
    exists_numberBytes_iff (by omega), hvalid]

theorem isUtf8_of_high_iff (hu : IsHigh u) (rest : JsString) :
    IsUtf8 (encodeUnits (u :: rest)) ↔ ∃ v rest', rest = v :: rest' ∧
      (0x10000 ≤ pairValue u v ∧ pairValue u v < 0x110000) ∧ IsUtf8 (encodeUnits rest') := by
  rw [encodeUnits_of_high hu]
  cases rest with
  | nil =>
      refine iff_of_false ?_ (fun ⟨_, _, h, _⟩ => nomatch h)
      rw [List.head?_nil, pairBytes, isUtf8_append_iff (framed_fourBytes _),
        exists_fourBytes_iff (by decide)]
      omega
  | cons v rest =>
      rw [List.head?_cons, pairBytes, isUtf8_append_iff (framed_fourBytes _),
        exists_fourBytes_iff (pairValue_lt hu v)]
      constructor
      · exact fun h => ⟨v, rest, rfl, h⟩
      · rintro ⟨_, _, heq, h⟩
        obtain ⟨rfl, rfl⟩ := List.cons.inj heq
        exact h

end Utf8

/-! ### Strings that are in step -/

theorem InStep.head_not_low {str : JsString} (h : InStep str) : ∀ v ∈ str.head?, ¬ IsLow v := by
  cases h with
  | nil => exact fun v hv => nomatch hv
  | char c h =>
      rcases units_cases c with ⟨u, hu, -, -, hlow⟩ | ⟨u, v, hu, -, hhigh, -⟩
      · rw [hu]
        rintro w hw
        obtain rfl : u = w := Option.some.inj hw
        exact hlow
      · rw [hu]
        rintro w hw
        obtain rfl : u = w := Option.some.inj hw
        exact not_isLow_of_isHigh hhigh
  | @highs u v hu _ _ _ _ =>
      rintro w hw
      obtain rfl : u = w := Option.some.inj hw
      exact not_isLow_of_isHigh hu

/-- Two high surrogates that no low one follows are both unpaired. -/
theorem items_of_highs {u v : UInt16} (hu : IsHigh u) (hv : IsHigh v) {rest : JsString}
    (h : InStep rest) : items (u :: v :: rest) = .unpaired u :: .unpaired v :: items rest := by
  have hnext : ∀ w ∈ (v :: rest).head?, ¬ IsLow w := by
    intro w hw
    obtain rfl : v = w := Option.some.inj hw
    exact not_isLow_of_isHigh hv
  rw [items_of_high hu hnext, items_of_high hv h.head_not_low]

/-- The loop makes a character of two high surrogates, unless the first is the lowest one. -/
theorem exists_char_of_highs {u v : UInt16} (hu : IsHigh u) (hlowest : u.toNat ≠ 0xd800)
    (hv : IsHigh v) : ∃ c, charBytes c = pairBytes u (some v) := by
  rw [pairBytes, exists_fourBytes_iff (pairValue_lt hu v)]
  unfold IsHigh at hu hv
  unfold pairValue
  omega

/-- What is read from a string that is in step: a character for each of its characters and for
each two high surrogates. -/
theorem InStep.exists_text {str : JsString} (h : InStep str) :
    ∃ cs, textBytes cs = encodeUnits str ∧ OthersKept str (encodeUnits str) ∧
      cs.length ≤ (items str).length ∧ ((items str).length ≤ cs.length → WellFormed str) := by
  induction h with
  | nil => exact ⟨[], rfl, .nil, Nat.le_refl _, fun _ => wellFormed_iff.mpr ⟨[], rfl⟩⟩
  | @char c rest _ ih =>
      obtain ⟨cs, hcs, hkept, hlength, hwell⟩ := ih
      refine ⟨c :: cs, ?_, ?_, ?_, ?_⟩
      · rw [textBytes_cons, hcs, encodeUnits_units]
      · rw [OthersKept, items_units, encodeUnits_units]
        exact .char c hkept
      · rw [items_units, List.length_cons, List.length_cons]
        omega
      · intro hle
        rw [items_units, List.length_cons, List.length_cons] at hle
        exact (hwell (by omega)).units c
  | @highs u v hu hlowest hv rest hrest ih =>
      obtain ⟨cs, hcs, hkept, hlength, -⟩ := ih
      obtain ⟨c, hc⟩ := exists_char_of_highs hu hlowest hv
      have hbytes : encodeUnits (u :: v :: rest) = charBytes c ++ encodeUnits rest := by
        rw [encodeUnits_of_high hu, hc]
        rfl
      refine ⟨c :: cs, ?_, ?_, ?_, ?_⟩
      · rw [textBytes_cons, hcs, hbytes]
      · -- the first of the two has the character, and the second one nothing
        have hsecond : Encoded (fun _ => True) (.unpaired v :: items rest)
            ([] ++ encodeUnits rest) := .unpaired v trivial hkept
        rw [OthersKept, items_of_highs hu hv hrest, hbytes]
        exact .unpaired u trivial hsecond
      · rw [items_of_highs hu hv hrest, List.length_cons, List.length_cons, List.length_cons]
        omega
      · intro hle
        rw [items_of_highs hu hv hrest, List.length_cons, List.length_cons, List.length_cons] at hle
        omega

/-! ### Characters of one unit -/

/-- A code unit that is a character. -/
def isOrdinary (u : UInt16) : Bool := decide (¬ IsHigh u ∧ ¬ IsLow u)

/-- A character of one unit. -/
def isShort : Item → Bool
  | .char c => decide (c.toNat < 0x10000)
  | .unpaired _ => false

theorem countP_units (c : Char) :
    (units c).countP isOrdinary = if c.toNat < 0x10000 then 1 else 0 := by
  rcases units_cases c with ⟨u, hu, hc, hhigh, hlow⟩ | ⟨u, v, hu, hc, hhigh, hlow⟩
  · have hlt := u.toNat_lt
    rw [hu, if_pos (by omega)]
    simp [isOrdinary, hhigh, hlow]
  · have hle : ¬ c.toNat < 0x10000 := by
      unfold IsLow at hlow
      unfold pairValue at hc
      omega
    rw [hu, if_neg hle]
    simp [isOrdinary, hhigh, hlow]

/-- The ordinary units of a string are its characters of one unit. -/
theorem countP_items (str : JsString) : (items str).countP isShort = str.countP isOrdinary := by
  induction str using string_induction with
  | nil => rfl
  | char c rest ih =>
      rw [items_units, List.countP_cons, List.countP_append, countP_units, ih, Nat.add_comm]
      simp [isShort]
  | unpaired u rest hu hitems ih =>
      have hordinary : isOrdinary u = false := by
        simp [isOrdinary]
        tauto
      rw [hitems, List.countP_cons, List.countP_cons, ih, hordinary]
      rfl

/-- **Characters that are kept are there**: as many first bytes of short characters as there
are ordinary units. -/
theorem Encoded.countP_le {admitted : List UInt8 → Prop} {its : List Item} {bytes : List UInt8}
    (h : Encoded admitted its bytes) : its.countP isShort ≤ bytes.countP isShortFirst := by
  induction h with
  | nil => exact Nat.le_refl _
  | @char c rest bytes _ ih =>
      rw [List.countP_cons, List.countP_append]
      by_cases hc : c.toNat < 0x10000
      · rw [charBytes_eq, countP_numberBytes hc]
        simp only [isShort, hc, decide_true, if_true]
        omega
      · simp only [isShort, hc, decide_false, Bool.false_eq_true, if_false]
        omega
  | unpaired u _ _ ih =>
      rw [List.countP_cons, List.countP_append]
      simp only [isShort, Bool.false_eq_true, if_false]
      omega

/-- **A string that gives UTF-8** has at least as many ordinary units as its bytes have first
bytes of short characters, and if there are no more the loop is in step with it. -/
theorem inStep_of_utf8 {str : JsString} (h : IsUtf8 (encodeUnits str)) :
    (encodeUnits str).countP isShortFirst ≤ str.countP isOrdinary ∧
      (str.countP isOrdinary ≤ (encodeUnits str).countP isShortFirst → InStep str) := by
  induction hn : str.length using Nat.strongRecOn generalizing str with
  | ind n ih =>
    cases str with
    | nil => exact ⟨Nat.le_refl _, fun _ => .nil⟩
    | cons u rest =>
        rw [List.length_cons] at hn
        by_cases hu : IsHigh u
        · obtain ⟨v, rest, rfl, hrange, hrest⟩ := (isUtf8_of_high_iff hu _).mp h
          rw [List.length_cons] at hn
          obtain ⟨hle, hstep⟩ := ih _ (by omega) hrest rfl
          have hu' : isOrdinary u = false := by simp [isOrdinary, hu]
          have hbytes : (encodeUnits (u :: v :: rest)).countP isShortFirst =
              (encodeUnits rest).countP isShortFirst := by
            rw [encodeUnits_of_high hu, List.countP_append]
            exact (congrArg (· + _) (countP_fourBytes _)).trans (Nat.zero_add _)
          rw [hbytes, List.countP_cons, List.countP_cons, hu', if_neg Bool.false_ne_true,
            Nat.add_zero]
          by_cases hv : isOrdinary v = true
          · -- the character after the high surrogate is lost
            rw [if_pos hv]
            exact ⟨by omega, fun hge => by omega⟩
          rw [if_neg hv, Nat.add_zero]
          refine ⟨hle, fun hge => ?_⟩
          by_cases hlow : IsLow v
          · obtain ⟨c, hc, -⟩ := exists_char_of_pair hu hlow
            have hchar := InStep.char c (hstep hge)
            rwa [hc] at hchar
          · have hhigh : IsHigh v := by
              by_contra hhigh
              exact hv (decide_eq_true ⟨hhigh, hlow⟩)
            refine .highs hu (fun hlowest => ?_) hhigh (hstep hge)
            unfold IsHigh at hhigh
            unfold pairValue at hrange
            omega
        · obtain ⟨hlow, hrest⟩ := (isUtf8_of_unit_iff hu rest).mp h
          obtain ⟨hle, hstep⟩ := ih _ (by omega) hrest rfl
          have hu' : isOrdinary u = true := by simp [isOrdinary, hu, hlow]
          rw [encodeUnits_of_unit hu, List.countP_append, countP_numberBytes u.toNat_lt,
            List.countP_cons, hu', if_pos rfl]
          refine ⟨by omega, fun hge => ?_⟩
          obtain ⟨c, hc, -⟩ := exists_char_of_unit hu hlow
          have hchar := InStep.char c (hstep (by omega))
          rwa [hc] at hchar

/-! ### Every string -/

theorem inStep_of_kept {str : JsString} (h : IsUtf8 (encodeUnits str))
    (hkept : OthersKept str (encodeUnits str)) : InStep str := by
  have hcount := hkept.countP_le
  rw [countP_items] at hcount
  exact (inStep_of_utf8 h).2 hcount

/-- Characters for each unpaired surrogate are at least as many as these. -/
theorem exists_text_of_each {its : List Item} {bytes : List UInt8}
    (h : Encoded (fun own => ∃ c cs, textBytes (c :: cs) = own) its bytes) :
    Encoded (fun _ => True) its bytes ∧ ∃ cs, textBytes cs = bytes ∧ its.length ≤ cs.length := by
  induction h with
  | nil => exact ⟨.nil, [], rfl, Nat.le_refl _⟩
  | char c _ ih =>
      obtain ⟨hkept, cs, rfl, hlength⟩ := ih
      exact ⟨.char c hkept, c :: cs, rfl, Nat.succ_le_succ hlength⟩
  | unpaired u hown _ ih =>
      obtain ⟨hkept, cs, rfl, hlength⟩ := ih
      obtain ⟨c, own, rfl⟩ := hown
      refine ⟨.unpaired u trivial hkept, c :: own ++ cs, textBytes_append _ _, ?_⟩
      rw [List.length_append, List.length_cons, List.length_cons]
      omega

theorem encoded_chars (admitted : List UInt8 → Prop) (cs : List Char) :
    Encoded admitted (cs.map .char) (textBytes cs) := by
  induction cs with
  | nil => exact .nil
  | cons c cs ih => exact .char c ih

/-- **When the bytes of a string are UTF-8 and hold its other characters**: exactly if the loop
is in step with the string.  They hold characters for each unpaired surrogate as well exactly if
there is none. -/
theorem unpaired_encoded_iff (str : JsString) :
    (IsUtf8 (encodeUtf8 str) ∧ OthersKept str (encodeUtf8 str) ↔ InStep str) ∧
      (EachEncoded str (encodeUtf8 str) ↔ WellFormed str) := by
  rw [encodeUtf8_eq]
  refine ⟨⟨fun h => inStep_of_kept h.1 h.2, fun h => ?_⟩, fun h => ?_, fun h => ?_⟩
  · obtain ⟨cs, hcs, hkept, -⟩ := h.exists_text
    exact ⟨⟨cs, hcs⟩, hkept⟩
  · obtain ⟨hkept, cs, hcs, hlength⟩ := exists_text_of_each h
    obtain ⟨cs', hcs', -, -, hwell⟩ := (inStep_of_kept ⟨cs, hcs⟩ hkept).exists_text
    obtain rfl : cs = cs' := textBytes_injective (hcs.trans hcs'.symm)
    exact hwell hlength
  · obtain ⟨cs, rfl⟩ := wellFormed_iff.mp h
    rw [EachEncoded, items_encode, encodeUnits_encode]
    exact encoded_chars _ cs

/-- **Three strings that break.**  An unpaired low surrogate, and an unpaired high one at the end
of a string, are no characters in the bytes; and the `a` after another one is not in them, which
are those of `U+10061`. -/
theorem surrogates_break :
    ¬ IsUtf8 (encodeUtf8 [0xdc00]) ∧ ¬ IsUtf8 (encodeUtf8 [0x61, 0xd800]) ∧
      encodeUtf8 [0xd837, 0x61] = charBytes (Char.ofNat 0x10061) ∧
      items [0xd837, 0x61] = [.unpaired 0xd837, .char 'a'] ∧
      ¬ OthersKept [0xd837, 0x61] (encodeUtf8 [0xd837, 0x61]) := by
  refine ⟨fun h => ?_, fun h => ?_, by decide, by decide, fun h => ?_⟩
  · rw [encodeUtf8_eq, isUtf8_of_unit_iff (by decide)] at h
    exact h.1 (by decide)
  · rw [encodeUtf8_eq, isUtf8_of_unit_iff (by decide), isUtf8_of_high_iff (by decide)] at h
    obtain ⟨-, v, rest, hrest, -⟩ := h
    cases hrest
  · have hcount := h.countP_le
    exact absurd hcount (by decide)

end Script
end Noxy
