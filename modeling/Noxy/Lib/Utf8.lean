/-
# Texts as bytes

A text is the bytes of its characters one after the other.  A byte below 128 is a character of
its own (`charBytes_of_ascii`).  So a text can be taken apart at such a byte (`split_at_ascii`),
and wherever its bytes are taken apart, something can be put in between that leaves them the
bytes of a text (`exists_insert`).
-/

import Mathlib.Data.List.Basic

namespace Noxy
namespace Lib

theorem toNat_ofNat {n : ℕ} (h : n.isValidChar) : (Char.ofNat n).toNat = n := by
  rw [Char.ofNat, dif_pos h]
  rfl

theorem toNat_char_lt (c : Char) : c.toNat < 0xd800 ∨ 0xdfff < c.toNat ∧ c.toNat < 0x110000 :=
  c.valid

/-- The bytes of a character. -/
abbrev charBytes (c : Char) : List UInt8 := String.utf8EncodeChar c

/-- The bytes of a text. -/
def textBytes (cs : List Char) : List UInt8 := cs.flatMap charBytes

theorem textBytes_cons (c : Char) (cs : List Char) :
    textBytes (c :: cs) = charBytes c ++ textBytes cs := rfl

theorem textBytes_append (cs cs' : List Char) :
    textBytes (cs ++ cs') = textBytes cs ++ textBytes cs' := List.flatMap_append

theorem textBytes_singleton (c : Char) : textBytes [c] = charBytes c := List.append_nil _

theorem textBytes_eq_data (cs : List Char) :
    textBytes cs = (String.ofList cs).toByteArray.data.toList := by
  rw [← String.utf8Encode_toList, String.toList_ofList, List.utf8Encode, List.data_toByteArray]
  rfl

/-- A text can be read back from its bytes. -/
theorem textBytes_injective {cs cs' : List Char} (h : textBytes cs = textBytes cs') :
    cs = cs' := by
  rw [textBytes_eq_data, textBytes_eq_data] at h
  exact String.ofList_injective
    (String.toByteArray_inj.mp (ByteArray.ext (Array.toList_inj.mp h)))

theorem length_charBytes_pos (c : Char) : 0 < (charBytes c).length := by
  rw [String.length_utf8EncodeChar]
  exact c.utf8Size_pos

/-- **A byte below 128 is a character of its own.** -/
theorem charBytes_of_ascii {c : Char} {b : UInt8} (hb : b < 128) (h : b ∈ charBytes c) :
    charBytes c = [b] := by
  have hhigh : ∀ n, 128 ≤ n → n < 256 → b ≠ UInt8.ofNat n := by
    rintro n hn hn' rfl
    rw [UInt8.lt_iff_toNat_lt, UInt8.toNat_ofNat_of_lt' hn'] at hb
    exact absurd hb (Nat.not_lt.mpr hn)
  unfold charBytes String.utf8EncodeChar at h ⊢
  dsimp only at h ⊢
  by_cases h1 : c.val.toNat ≤ 127
  · rw [if_pos h1] at h ⊢
    rw [List.mem_singleton.mp h]
  · -- every byte of a longer encoding is at least 128
    rw [if_neg h1] at h
    have hno : False := by
      split at h
      · simp only [List.mem_cons, List.not_mem_nil, or_false] at h
        rcases h with h | h <;> exact hhigh _ (by omega) (by omega) h
      · split at h <;> simp only [List.mem_cons, List.not_mem_nil, or_false] at h
        · rcases h with h | h | h <;> exact hhigh _ (by omega) (by omega) h
        · rcases h with h | h | h | h <;> exact hhigh _ (by omega) (by omega) h
    exact hno.elim

/-- **Taking a text apart at a byte below 128 takes it apart at a character.** -/
theorem split_at_ascii {c : Char} {b : UInt8} (hb : b < 128) (hc : charBytes c = [b])
    {cs : List Char} {u v : List UInt8} (h : textBytes cs = u ++ b :: v) :
    ∃ cs₁ cs₂, cs = cs₁ ++ c :: cs₂ ∧ textBytes cs₁ = u ∧ textBytes cs₂ = v := by
  induction cs generalizing u with
  | nil => cases u <;> cases h
  | cons d cs ih =>
    rw [textBytes_cons, List.append_eq_append_iff] at h
    obtain ⟨rest, rfl, hrest⟩ | ⟨rest, hd, hrest⟩ := h
    · obtain ⟨cs₁, cs₂, rfl, rfl, rfl⟩ := ih hrest
      exact ⟨d :: cs₁, cs₂, rfl, rfl, rfl⟩
    · cases rest with
      | nil =>
        obtain ⟨cs₁, cs₂, rfl, h₁, rfl⟩ := ih (u := []) hrest.symm
        refine ⟨d :: cs₁, cs₂, rfl, ?_, rfl⟩
        rw [textBytes_cons, h₁, hd]
        simp
      | cons b' rest =>
        obtain ⟨rfl, rfl⟩ := List.cons.inj hrest
        have hown : charBytes d = [b] := charBytes_of_ascii hb (by rw [hd]; simp)
        rw [hown] at hd
        cases u with
        | nil =>
          obtain ⟨-, rfl⟩ := List.cons.inj hd
          have hsame : [d] = [c] := textBytes_injective (by
            rw [textBytes_singleton, textBytes_singleton, hown, hc])
          exact ⟨[], cs, by rw [List.singleton_inj.mp hsame]; rfl, rfl, rfl⟩
        | cons _ u => simp at hd

/-- **Wherever the bytes of a text are taken apart, there is something to put in between**: a
character of one's own between two characters, and inside one its other half and its first. -/
theorem exists_insert {b : UInt8} (hb : b < 128) {d : Char} (hd : b ∉ charBytes d)
    {cs : List Char} {x y : List UInt8} (h : textBytes cs = x ++ y) :
    ∃ more ≠ [], b ∉ more ∧ ∃ cs', textBytes cs' = x ++ more ++ y := by
  have hd' : charBytes d ≠ [] := List.ne_nil_of_length_pos (length_charBytes_pos d)
  induction cs generalizing x with
  | nil =>
    obtain ⟨rfl, rfl⟩ := List.append_eq_nil_iff.mp h.symm
    exact ⟨charBytes d, hd', hd, [d], rfl⟩
  | cons c cs ih =>
    rw [textBytes_cons, List.append_eq_append_iff] at h
    obtain ⟨x', rfl, hx'⟩ | ⟨post, hc, rfl⟩ := h
    · obtain ⟨more, hmore, hno, cs', hcs'⟩ := ih hx'
      exact ⟨more, hmore, hno, c :: cs', by rw [textBytes_cons, hcs']; simp⟩
    · by_cases hx : x = []
      · refine ⟨charBytes d, hd', hd, d :: c :: cs, ?_⟩
        rw [textBytes_cons, textBytes_cons, hc, hx]
        simp
      by_cases hpost : post = []
      · refine ⟨charBytes d, hd', hd, c :: d :: cs, ?_⟩
        rw [textBytes_cons, textBytes_cons, hc, hpost]
        simp
      · refine ⟨post ++ x, by simp [hx], fun hmem => ?_, c :: c :: cs, ?_⟩
        · have hown : charBytes c = [b] :=
            charBytes_of_ascii hb (by rw [hc]; simpa [or_comm] using hmem)
          have hlen := congrArg List.length (hc.symm.trans hown)
          have := List.length_pos_of_ne_nil hx
          have := List.length_pos_of_ne_nil hpost
          rw [List.length_append, List.length_singleton] at hlen
          omega
        · rw [textBytes_cons, textBytes_cons, hc]
          simp

end Lib
end Noxy
