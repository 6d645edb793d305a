/-
# ASCII case

`u8::to_ascii_lowercase` and `str::to_ascii_lowercase`.  On the texts of visible bytes the two
agree (`byteText_lower`), and a text that differs from such a text in case only is one of bytes
as well (`exists_bytes_of_lower`).
-/

import Noxy.Http.HopByHop

namespace Noxy
namespace Http

/-- `u8::to_ascii_lowercase`. -/
def lowerByte (b : UInt8) : UInt8 := if 65 ≤ b.toNat ∧ b.toNat ≤ 90 then b + 32 else b

theorem toNat_toLower (c : Char) :
    c.toLower.toNat = if 65 ≤ c.toNat ∧ c.toNat ≤ 90 then c.toNat + 32 else c.toNat := by
  have hupper : (c.val ≥ 'A'.val ∧ c.val ≤ 'Z'.val) ↔ 65 ≤ c.toNat ∧ c.toNat ≤ 90 := by
    rw [ge_iff_le, UInt32.le_iff_toNat_le, UInt32.le_iff_toNat_le]
    exact Iff.rfl
  unfold Char.toLower
  split
  · rename_i h
    have hle := (hupper.mp h).2
    rw [if_pos (hupper.mp h)]
    change (c.val + 32).toNat = c.toNat + 32
    rw [UInt32.toNat_add]
    exact Nat.mod_eq_of_lt (by change c.toNat + 32 < 2 ^ 32; omega)
  · rename_i h
    rw [if_neg (mt hupper.mpr h)]

theorem toLower_eq_colon_iff (c : Char) : c.toLower = ':' ↔ c = ':' := by
  have h := toNat_toLower c
  have hcolon : (':').toNat = 58 := rfl
  rw [← Char.toNat_inj, ← Char.toNat_inj, h, hcolon]
  split <;> omega

theorem toNat_lowerByte (b : UInt8) :
    (lowerByte b).toNat = if 65 ≤ b.toNat ∧ b.toNat ≤ 90 then b.toNat + 32 else b.toNat := by
  unfold lowerByte
  split
  · rw [UInt8.toNat_add]
    change (b.toNat + 32) % 256 = b.toNat + 32
    omega
  · rfl

theorem toNat_ofNat_byte (b : UInt8) : (Char.ofNat b.toNat).toNat = b.toNat := by
  have hvalid : b.toNat.isValidChar := .inl (by have := b.toNat_lt; omega)
  rw [Char.ofNat, dif_pos hvalid]
  rfl

theorem ofNat_lowerByte (b : UInt8) :
    Char.ofNat (lowerByte b).toNat = (Char.ofNat b.toNat).toLower := by
  rw [← Char.toNat_inj, toNat_toLower, toNat_ofNat_byte, toNat_ofNat_byte, toNat_lowerByte]

theorem isVisibleAscii_lowerByte (b : UInt8) :
    isVisibleAscii (lowerByte b) = isVisibleAscii b := by
  rw [Bool.eq_iff_iff, isVisibleAscii, isVisibleAscii, toNat_lowerByte]
  simp only [Bool.or_eq_true, Bool.and_eq_true, decide_eq_true_eq, beq_iff_eq]
  split <;> omega

/-- **The text of lower-case bytes** is the text in lower case. -/
theorem byteText_lower (v : List UInt8) :
    byteText (v.map lowerByte) = toAsciiLowercase (byteText v) := by
  unfold byteText toAsciiLowercase
  rw [String.toList_ofList, List.map_map, List.map_map]
  exact congrArg _ (List.map_congr_left fun b _ => ofNat_lowerByte b)

theorem all_visible_lower (v : List UInt8) :
    (v.map lowerByte).all isVisibleAscii = v.all isVisibleAscii := by
  rw [List.all_map]
  exact congrArg v.all (funext isVisibleAscii_lowerByte)

theorem lt_of_visible {b : UInt8} (h : isVisibleAscii b = true) : b.toNat < 127 := by
  unfold isVisibleAscii at h
  simp only [Bool.or_eq_true, Bool.and_eq_true, decide_eq_true_eq, beq_iff_eq] at h
  omega

/-- A character that differs in case from a visible one is a byte too. -/
theorem exists_byte_of_toLower {b : UInt8} (hb : isVisibleAscii b = true) {c : Char}
    (h : (Char.ofNat b.toNat).toLower = c.toLower) :
    ∃ b' : UInt8, Char.ofNat b'.toNat = c ∧ lowerByte b = lowerByte b' := by
  have hlt := lt_of_visible hb
  have hnat : (lowerByte b).toNat = c.toLower.toNat := by
    rw [← h, ← ofNat_lowerByte, toNat_ofNat_byte]
  have hc : c.toNat < 256 := by
    rw [toNat_lowerByte, toNat_toLower] at hnat
    split at hnat <;> split at hnat <;> omega
  have hbyte : (UInt8.ofNat c.toNat).toNat = c.toNat := UInt8.toNat_ofNat_of_lt' hc
  refine ⟨UInt8.ofNat c.toNat, by rw [hbyte, Char.ofNat_toNat], ?_⟩
  rw [← UInt8.toNat_inj, hnat, toNat_lowerByte, toNat_toLower, hbyte]

/-- **A text that differs in case** from one of visible bytes is one of bytes too. -/
theorem exists_bytes_of_lower {v : List UInt8} (hv : v.all isVisibleAscii = true) {text : String}
    (h : toAsciiLowercase (byteText v) = toAsciiLowercase text) :
    ∃ v', byteText v' = text ∧ v.map lowerByte = v'.map lowerByte := by
  unfold toAsciiLowercase byteText at h
  rw [String.toList_ofList, List.map_map] at h
  replace h := String.ofList_injective h
  obtain ⟨cs, rfl⟩ : ∃ cs, text = String.ofList cs := ⟨_, (String.ofList_toList).symm⟩
  rw [String.toList_ofList] at h
  induction v generalizing cs with
  | nil =>
      obtain rfl := List.map_eq_nil_iff.mp h.symm
      exact ⟨[], rfl, rfl⟩
  | cons b v ih =>
      cases cs with
      | nil => cases h
      | cons c cs =>
          obtain ⟨hc, hcs⟩ := List.cons.inj h
          rw [List.all_cons, Bool.and_eq_true] at hv
          obtain ⟨b', rfl, hb'⟩ := exists_byte_of_toLower hv.1 hc
          obtain ⟨v', hv', hlower⟩ := ih hv.2 cs hcs
          refine ⟨b' :: v', ?_, congrArg₂ List.cons hb' hlower⟩
          exact congrArg (fun cs => String.ofList (_ :: cs)) (String.ofList_injective hv')

theorem lower_not_mem_colon {name name' : String}
    (h : toAsciiLowercase name = toAsciiLowercase name') (hcolon : ':' ∉ name.toList) :
    ':' ∉ name'.toList := by
  have hiff : ∀ text : String, ':' ∈ (toAsciiLowercase text).toList ↔ ':' ∈ text.toList := by
    intro text
    rw [toAsciiLowercase, String.toList_ofList, List.mem_map]
    simp [toLower_eq_colon_iff]
  rwa [← hiff, ← h, hiff]

/-- The letters of ASCII. -/
def isLetter (c : Char) : Bool :=
  (65 ≤ c.toNat && c.toNat ≤ 90) || (97 ≤ c.toNat && c.toNat ≤ 122)

/-- A character that is no letter has one spelling. -/
theorem eq_of_toLower {c c' : Char} (h : c.toLower = c'.toLower) (hc : isLetter c = false) :
    c = c' := by
  have hnat := congrArg Char.toNat h
  simp only [isLetter, Bool.or_eq_false_iff, Bool.and_eq_false_iff,
    decide_eq_false_iff_not] at hc
  rw [toNat_toLower, toNat_toLower] at hnat
  rw [← Char.toNat_inj]
  split at hnat <;> split at hnat <;> omega

/-- A text without letters has one spelling. -/
theorem eq_of_lower {name name' : String} (h : toAsciiLowercase name = toAsciiLowercase name')
    (hletters : ∀ c ∈ name.toList, isLetter c = false) : name = name' := by
  have hlist := String.ofList_injective h
  rw [← String.toList_inj]
  generalize name.toList = cs at hlist hletters
  generalize name'.toList = cs' at hlist
  induction cs generalizing cs' with
  | nil => exact (List.map_eq_nil_iff.mp hlist.symm).symm
  | cons c cs ih =>
      cases cs' with
      | nil => cases hlist
      | cons c' cs' =>
          obtain ⟨hc, hcs⟩ := List.cons.inj hlist
          obtain ⟨hletter, hletters⟩ := List.forall_mem_cons.mp hletters
          rw [eq_of_toLower hc hletter, ih hletters cs' hcs]

end Http
end Noxy
