/-
# Strings of code units

A string of UTF-16 is any sequence of 16-bit code units.  A character below `2 ^ 16` is one unit,
another one is a pair of a high and a low surrogate (`units`).  `items` reads a string from left
to right: its characters, and the surrogates that are in no pair.

A string is well-formed if every high surrogate is followed by a low one and every low one comes
after a high one; these are the strings of characters (`wellFormed_iff`).
-/

import Mathlib.Algebra.Order.Ring.Nat
import Noxy.Lib.Utf8

namespace Noxy
namespace Lib
namespace Utf16

/-- A high surrogate, the first half of a pair. -/
def IsHigh (u : UInt16) : Prop := 0xd800 ≤ u.toNat ∧ u.toNat ≤ 0xdbff

/-- A low surrogate, the second half of a pair. -/
def IsLow (u : UInt16) : Prop := 0xdc00 ≤ u.toNat ∧ u.toNat ≤ 0xdfff

instance (u : UInt16) : Decidable (IsHigh u) := inferInstanceAs (Decidable (_ ∧ _))

instance (u : UInt16) : Decidable (IsLow u) := inferInstanceAs (Decidable (_ ∧ _))

/-- The number that a pair stands for. -/
def pairValue (high low : UInt16) : ℕ :=
  0x10000 + (high.toNat - 0xd800) * 0x400 + low.toNat - 0xdc00

/-- The code units of a character. -/
def units (c : Char) : List UInt16 :=
  if c.toNat < 0x10000 then [UInt16.ofNat c.toNat]
  else
    [UInt16.ofNat (0xd800 + (c.toNat - 0x10000) / 0x400),
      UInt16.ofNat (0xdc00 + (c.toNat - 0x10000) % 0x400)]

/-- The code units of a text. -/
def encode (cs : List Char) : List UInt16 := cs.flatMap units

/-- What a string is made of. -/
inductive Item where
  | char (c : Char)
  | unpaired (u : UInt16)
  deriving DecidableEq, Repr

/-- The characters and the unpaired surrogates of a string. -/
def items : List UInt16 → List Item
  | [] => []
  | u :: rest =>
      if IsHigh u then
        match rest with
        | [] => [.unpaired u]
        | v :: rest' =>
            if IsLow v then .char (Char.ofNat (pairValue u v)) :: items rest'
            else .unpaired u :: items (v :: rest')
      else if IsLow u then .unpaired u :: items rest
      else .char (Char.ofNat u.toNat) :: items rest

/-- **A well-formed string**: every high surrogate is immediately followed by a low one, and
every low one immediately preceded by a high one. -/
structure WellFormed (s : List UInt16) : Prop where
  high : ∀ i u, s[i]? = some u → IsHigh u → ∃ v, s[i + 1]? = some v ∧ IsLow v
  low : ∀ i v, s[i]? = some v → IsLow v → ∃ j u, i = j + 1 ∧ s[j]? = some u ∧ IsHigh u

/-! ### Characters and units -/

theorem not_isLow_of_isHigh {u : UInt16} (h : IsHigh u) : ¬ IsLow u := by
  unfold IsHigh IsLow at *
  omega

theorem pairValue_lt {u : UInt16} (h : IsHigh u) (v : UInt16) : pairValue u v < 2 ^ 21 := by
  have hv := v.toNat_lt
  unfold IsHigh at h
  unfold pairValue
  omega

theorem toNat_unit {n : ℕ} (h : n < 0x10000) : (UInt16.ofNat n).toNat = n :=
  UInt16.toNat_ofNat_of_lt' h

/-- **The units of a character**: one that is no surrogate, or a pair. -/
theorem units_cases (c : Char) :
    (∃ u, units c = [u] ∧ u.toNat = c.toNat ∧ ¬ IsHigh u ∧ ¬ IsLow u) ∨
      ∃ u v, units c = [u, v] ∧ pairValue u v = c.toNat ∧ IsHigh u ∧ IsLow v := by
  have hc := toNat_char_lt c
  unfold units IsHigh IsLow pairValue
  split_ifs with h
  · have hu := toNat_unit h
    refine .inl ⟨_, rfl, hu, ?_, ?_⟩ <;> omega
  · have hu : (UInt16.ofNat (0xd800 + (c.toNat - 0x10000) / 0x400)).toNat =
        0xd800 + (c.toNat - 0x10000) / 0x400 := toNat_unit (by omega)
    have hv : (UInt16.ofNat (0xdc00 + (c.toNat - 0x10000) % 0x400)).toNat =
        0xdc00 + (c.toNat - 0x10000) % 0x400 := toNat_unit (by omega)
    refine .inr ⟨_, _, rfl, ?_, ?_, ?_⟩ <;> omega

theorem length_units_pos (c : Char) : 0 < (units c).length := by
  unfold units
  split_ifs <;> exact Nat.succ_pos _

/-- A unit that is no surrogate is a character. -/
theorem exists_char_of_unit {u : UInt16} (hhigh : ¬ IsHigh u) (hlow : ¬ IsLow u) :
    ∃ c, units c = [u] ∧ c.toNat = u.toNat ∧ Char.ofNat u.toNat = c := by
  have hu := u.toNat_lt
  have hvalid : u.toNat.isValidChar := by
    unfold IsHigh IsLow at *
    unfold Nat.isValidChar
    omega
  have hc := toNat_ofNat hvalid
  refine ⟨_, ?_, hc, rfl⟩
  rw [units, if_pos (by omega), hc, UInt16.ofNat_toNat]

/-- A pair is a character. -/
theorem exists_char_of_pair {u v : UInt16} (hu : IsHigh u) (hv : IsLow v) :
    ∃ c, units c = [u, v] ∧ c.toNat = pairValue u v ∧ Char.ofNat (pairValue u v) = c := by
  unfold IsHigh at hu
  unfold IsLow at hv
  have hvalid : (pairValue u v).isValidChar := by
    unfold Nat.isValidChar pairValue
    omega
  have hc := toNat_ofNat hvalid
  have hvalue : (pairValue u v - 0x10000) / 0x400 + 0xd800 = u.toNat ∧
      (pairValue u v - 0x10000) % 0x400 + 0xdc00 = v.toNat := by
    unfold pairValue
    omega
  have hle : ¬ pairValue u v < 0x10000 := by
    unfold pairValue
    omega
  refine ⟨_, ?_, hc, rfl⟩
  rw [units, hc, if_neg hle, Nat.add_comm 0xd800, hvalue.1, Nat.add_comm 0xdc00, hvalue.2,
    UInt16.ofNat_toNat, UInt16.ofNat_toNat]

/-! ### Reading a string -/

theorem items_of_unit {u : UInt16} (hhigh : ¬ IsHigh u) (hlow : ¬ IsLow u) (rest : List UInt16) :
    items (u :: rest) = .char (Char.ofNat u.toNat) :: items rest := by
  rw [items.eq_def]
  simp only [if_neg hhigh, if_neg hlow]

theorem items_of_low {u : UInt16} (h : IsLow u) (rest : List UInt16) :
    items (u :: rest) = .unpaired u :: items rest := by
  have hhigh : ¬ IsHigh u := fun hu => not_isLow_of_isHigh hu h
  rw [items.eq_def]
  simp only [if_neg hhigh, if_pos h]

theorem items_of_pair {u v : UInt16} (hu : IsHigh u) (hv : IsLow v) (rest : List UInt16) :
    items (u :: v :: rest) = .char (Char.ofNat (pairValue u v)) :: items rest := by
  rw [items.eq_def]
  simp only [if_pos hu, if_pos hv]

/-- A high surrogate that no low one follows is unpaired. -/
theorem items_of_high {u : UInt16} (hu : IsHigh u) {rest : List UInt16}
    (h : ∀ v ∈ rest.head?, ¬ IsLow v) : items (u :: rest) = .unpaired u :: items rest := by
  rw [items.eq_def]
  cases rest with
  | nil =>
      simp only [if_pos hu]
      rfl
  | cons v rest => simp only [if_pos hu, if_neg (h v rfl)]

/-- A string that begins with a character. -/
theorem items_units (c : Char) (rest : List UInt16) :
    items (units c ++ rest) = .char c :: items rest := by
  rcases units_cases c with ⟨u, hu, hc, hhigh, hlow⟩ | ⟨u, v, hu, hc, hhigh, hlow⟩
  · rw [hu, List.singleton_append, items_of_unit hhigh hlow, hc, Char.ofNat_toNat]
  · rw [hu, List.cons_append, List.singleton_append, items_of_pair hhigh hlow, hc,
      Char.ofNat_toNat]

/-- **Induction over a string as it is read**: a character at a time, or an unpaired
surrogate. -/
theorem string_induction {motive : List UInt16 → Prop} (nil : motive [])
    (char : ∀ c rest, motive rest → motive (units c ++ rest))
    (unpaired : ∀ u rest, IsHigh u ∨ IsLow u → items (u :: rest) = .unpaired u :: items rest →
      motive rest → motive (u :: rest)) (s : List UInt16) : motive s := by
  induction hn : s.length using Nat.strongRecOn generalizing s with
  | ind n ih =>
    cases s with
    | nil => exact nil
    | cons u rest =>
        rw [List.length_cons] at hn
        have hrest : motive rest := ih _ (by omega) rest rfl
        by_cases hlow : IsLow u
        · exact unpaired u rest (.inr hlow) (items_of_low hlow rest) hrest
        by_cases hhigh : IsHigh u
        · by_cases hpair : ∀ v ∈ rest.head?, ¬ IsLow v
          · exact unpaired u rest (.inl hhigh) (items_of_high hhigh hpair) hrest
          · simp only [not_forall, not_not] at hpair
            obtain ⟨v, hv, hvlow⟩ := hpair
            obtain ⟨rest', rfl⟩ := List.head?_eq_some_iff.mp hv
            obtain ⟨c, hc, -⟩ := exists_char_of_pair hhigh hvlow
            rw [List.length_cons] at hn
            have hchar := char c rest' (ih _ (by omega) rest' rfl)
            rwa [hc] at hchar
        · obtain ⟨c, hc, -⟩ := exists_char_of_unit hhigh hlow
          have hchar := char c rest hrest
          rwa [hc] at hchar

/-- The items of a text are its characters. -/
theorem items_encode (cs : List Char) : items (encode cs) = cs.map .char := by
  induction cs with
  | nil => rfl
  | cons c cs ih =>
      rw [encode, List.flatMap_cons, items_units, List.map_cons]
      exact congrArg _ ih

/-! ### Well-formed strings -/

theorem WellFormed.units {rest : List UInt16} (h : WellFormed rest) (c : Char) :
    WellFormed (units c ++ rest) := by
  rcases units_cases c with ⟨u, hu, -, hhigh, hlow⟩ | ⟨u, v, hu, -, hhigh, hlow⟩
  · rw [hu]
    constructor
    · rintro (_ | i) w hw hwhigh
      · obtain rfl : u = w := Option.some.inj hw
        exact absurd hwhigh hhigh
      · exact h.high i w hw hwhigh
    · rintro (_ | i) w hw hwlow
      · obtain rfl : u = w := Option.some.inj hw
        exact absurd hwlow hlow
      · obtain ⟨j, x, rfl, hx, hxhigh⟩ := h.low i w hw hwlow
        exact ⟨j + 1, x, rfl, hx, hxhigh⟩
  · rw [hu]
    constructor
    · rintro (_ | _ | i) w hw hwhigh
      · exact ⟨v, rfl, hlow⟩
      · obtain rfl : v = w := Option.some.inj hw
        exact absurd hlow (not_isLow_of_isHigh hwhigh)
      · exact h.high i w hw hwhigh
    · rintro (_ | _ | i) w hw hwlow
      · obtain rfl : u = w := Option.some.inj hw
        exact absurd hwlow (not_isLow_of_isHigh hhigh)
      · exact ⟨0, u, rfl, rfl, hhigh⟩
      · obtain ⟨j, x, rfl, hx, hxhigh⟩ := h.low i w hw hwlow
        exact ⟨j + 2, x, rfl, hx, hxhigh⟩

/-- What comes after a low surrogate, or after a unit that is none, is well-formed. -/
theorem WellFormed.after (before : List UInt16) {rest : List UInt16} {u : UInt16}
    (h : WellFormed (before ++ u :: rest)) (hu : ¬ IsHigh u) : WellFormed rest := by
  have hget : ∀ i, (before ++ u :: rest)[before.length + i + 1]? = rest[i]? := by
    intro i
    rw [List.getElem?_append_right (by omega), show before.length + i + 1 - before.length = i + 1
      by omega, List.getElem?_cons_succ]
  have hlast : (before ++ u :: rest)[before.length]? = some u := by simp
  refine ⟨fun i w hw hhigh => ?_, fun i w hw hlow => ?_⟩
  · rw [← hget] at hw
    obtain ⟨v, hv, hlow⟩ := h.high _ w hw hhigh
    exact ⟨v, (hget (i + 1)).symm.trans hv, hlow⟩
  · rw [← hget] at hw
    obtain ⟨j, x, hj, hx, hhigh⟩ := h.low _ w hw hlow
    obtain rfl : before.length + i = j := by omega
    cases i with
    | zero =>
        obtain rfl : u = x := Option.some.inj (hlast.symm.trans hx)
        exact absurd hhigh hu
    | succ i => exact ⟨i, x, rfl, (hget i).symm.trans hx, hhigh⟩

/-- **A well-formed string begins with a character**, and the rest is well-formed. -/
theorem WellFormed.exists_units {u : UInt16} {rest : List UInt16} (h : WellFormed (u :: rest)) :
    ∃ c rest', u :: rest = Utf16.units c ++ rest' ∧ WellFormed rest' := by
  by_cases hhigh : IsHigh u
  · obtain ⟨v, hv, hlow⟩ := h.high 0 u rfl hhigh
    cases rest with
    | nil => cases hv
    | cons w rest =>
        obtain rfl : w = v := Option.some.inj hv
        obtain ⟨c, hc, -⟩ := exists_char_of_pair hhigh hlow
        refine ⟨c, rest, by rw [hc]; rfl, ?_⟩
        exact WellFormed.after [u] h fun hw => not_isLow_of_isHigh hw hlow
  · have hlow : ¬ IsLow u := by
      intro hlow
      obtain ⟨j, x, hj, -⟩ := h.low 0 u rfl hlow
      cases hj
    obtain ⟨c, hc, -⟩ := exists_char_of_unit hhigh hlow
    exact ⟨c, rest, by rw [hc]; rfl, WellFormed.after [] h hhigh⟩

/-- **The well-formed strings are those of characters.** -/
theorem wellFormed_iff {s : List UInt16} : WellFormed s ↔ ∃ cs, encode cs = s := by
  constructor
  · intro h
    induction hn : s.length using Nat.strongRecOn generalizing s with
    | ind n ih =>
      cases s with
      | nil => exact ⟨[], rfl⟩
      | cons u rest =>
          obtain ⟨c, rest', heq, hrest⟩ := h.exists_units
          have hlength : rest'.length < n := by
            rw [← hn, heq, List.length_append]
            have hpos := length_units_pos c
            omega
          obtain ⟨cs, rfl⟩ := ih _ hlength hrest rfl
          exact ⟨c :: cs, heq.symm⟩
  · rintro ⟨cs, rfl⟩
    induction cs with
    | nil => exact ⟨fun i u h => by simp [encode] at h, fun i u h => by simp [encode] at h⟩
    | cons c cs ih => exact ih.units c

end Utf16
end Lib
end Noxy
