/-
# What a glob matches

The pattern of a list of tokens is those of the tokens one after the other (`matches_append`),
and so is its width.  A group is no wider than its branches together, and every repetition takes
all bytes but the separator.
-/

import Mathlib.Algebra.Order.Ring.Nat
import Noxy.Lib.Glob

namespace Noxy
namespace Lib
namespace Glob

/-- The pattern of tokens, without the special case of `**`. -/
def whole (ts : List Token) : Pattern UInt8 := (pattern ts).getD .empty

/-- The pattern of a token. -/
def Token.whole (t : Token) : Pattern UInt8 := t.pattern.getD .empty

theorem toPattern_eq_whole {ts : List Token} (h : ts ≠ [.recursivePrefix]) :
    toPattern ts = whole ts := by
  unfold toPattern
  split
  · exact absurd rfl h
  · rfl

theorem matches_cons {t : Token} {ts : List Token} {w : List UInt8} :
    (whole (t :: ts)).Matches w ↔ ∃ u v, w = u ++ v ∧ t.whole.Matches u ∧ (whole ts).Matches v := by
  rw [whole, whole, Token.whole, pattern]
  cases t.pattern with
  | none => simp [Pattern.Matches]
  | some e =>
      cases pattern ts with
      | none => simp [Pattern.Matches]
      | some e' => rfl

/-- **Tokens match one after the other.** -/
theorem matches_append {ts ts' : List Token} {w : List UInt8} :
    (whole (ts ++ ts')).Matches w ↔
      ∃ u v, w = u ++ v ∧ (whole ts).Matches u ∧ (whole ts').Matches v := by
  induction ts generalizing w with
  | nil => simp [whole, pattern, Pattern.Matches]
  | cons t ts ih =>
      rw [List.cons_append, matches_cons]
      constructor
      · rintro ⟨u, v, rfl, hu, hv⟩
        obtain ⟨v₁, v₂, rfl, h₁, h₂⟩ := ih.mp hv
        exact ⟨u ++ v₁, v₂, (List.append_assoc ..).symm, matches_cons.mpr ⟨u, v₁, rfl, hu, h₁⟩, h₂⟩
      · rintro ⟨u', v, rfl, hu', hv⟩
        obtain ⟨u, v₁, rfl, hu, h₁⟩ := matches_cons.mp hu'
        exact ⟨u, v₁ ++ v, List.append_assoc .., hu, ih.mpr ⟨v₁, v, rfl, h₁, hv⟩⟩

/-! ### Width -/

theorem width_cons (t : Token) (ts : List Token) :
    (whole (t :: ts)).width = t.whole.width + (whole ts).width := by
  rw [whole, whole, Token.whole, pattern]
  cases t.pattern with
  | none => simp [Pattern.width]
  | some e =>
      cases pattern ts with
      | none => simp [Pattern.width]
      | some e' => rfl

theorem width_concat (ts : List Token) (t : Token) :
    (whole (ts ++ [t])).width = (whole ts).width + t.whole.width := by
  induction ts with
  | nil =>
      rw [List.nil_append, width_cons]
      exact Nat.add_comm _ _
  | cons t' ts ih => rw [List.cons_append, width_cons, width_cons, ih, Nat.add_assoc]

theorem width_choice_le (e : Pattern UInt8) (es : List (Pattern UInt8)) :
    (choice e es).width ≤ e.width + (es.map Pattern.width).sum := by
  induction es generalizing e with
  | nil => exact Nat.le_add_right _ _
  | cons e' es ih =>
      have h := ih e'
      rw [choice, Pattern.width, List.map_cons, List.sum_cons]
      omega

theorem width_parts (branches : List (List Token)) :
    ((parts branches).map Pattern.width).sum =
      (branches.map fun ts => (whole ts).width).sum := by
  induction branches with
  | nil => rfl
  | cons ts branches ih =>
      rw [parts, List.map_cons, List.sum_cons, ← ih, whole]
      cases pattern ts with
      | none => exact (Nat.zero_add _).symm
      | some e => rfl

/-- **A group is no wider than its branches.** -/
theorem width_alternates_le (branches : List (List Token)) :
    (Token.whole (.alternates branches)).width ≤
      (branches.map fun ts => (whole ts).width).sum := by
  rw [← width_parts, Token.whole, Token.pattern]
  cases parts branches with
  | nil => exact Nat.zero_le _
  | cons e es => exact width_choice_le e es

theorem width_sequence (bytes : List UInt8) :
    (sequence (bytes.map fun b => .one (· == b))).width = bytes.length := by
  induction bytes with
  | nil => rfl
  | cons b bytes ih =>
      rw [List.map_cons, sequence, Pattern.width, ih, List.length_cons, Pattern.width, Nat.add_comm]

theorem width_literal (c : Char) : (Token.whole (.literal c)).width = (charBytes c).length := by
  rw [Token.whole, Token.pattern]
  exact width_sequence _

/-! ### Repetitions -/

theorem repeats_sequence {free : UInt8 → Prop} (bytes : List UInt8) :
    (sequence (bytes.map fun b => .one (· == b))).Repeats free := by
  induction bytes with
  | nil => trivial
  | cons b bytes ih => exact ⟨trivial, ih⟩

theorem repeats_choice {free : UInt8 → Prop} {e : Pattern UInt8} {es : List (Pattern UInt8)}
    (h : ∀ e' ∈ e :: es, e'.Repeats free) : (choice e es).Repeats free := by
  induction es generalizing e with
  | nil => exact h e (List.mem_singleton_self e)
  | cons e' es ih =>
      exact ⟨h e (List.mem_cons_self ..), ih fun e'' he'' => h e'' (List.mem_cons_of_mem _ he'')⟩

mutual

theorem repeats_token : ∀ t : Token, t.whole.Repeats (· ≠ slash)
  | .literal c => repeats_sequence _
  | .any => trivial
  | .zeroOrMore => fun _ h => bne_iff_ne.mpr h
  | .recursivePrefix => ⟨⟨trivial, trivial⟩, fun _ _ => rfl, trivial⟩
  | .recursiveSuffix => ⟨trivial, fun _ _ => rfl⟩
  | .recursiveZeroOrMore => ⟨trivial, trivial, fun _ _ => rfl, trivial⟩
  | .charClass _ _ => trivial
  | .alternates branches => by
      have h := repeats_parts branches
      rw [Token.whole, Token.pattern]
      cases hparts : parts branches with
      | nil => trivial
      | cons e es =>
          rw [hparts] at h
          exact repeats_choice h

/-- **Every repetition takes all bytes but the separator.** -/
theorem repeats_whole : ∀ ts : List Token, (whole ts).Repeats (· ≠ slash)
  | [] => trivial
  | t :: ts => by
      have ht := repeats_token t
      have hts := repeats_whole ts
      unfold Token.whole at ht
      unfold whole at hts ⊢
      rw [pattern]
      cases ht' : t.pattern with
      | none => exact hts
      | some e =>
          rw [ht'] at ht
          cases hts' : pattern ts with
          | none => exact ht
          | some e' =>
              rw [hts'] at hts
              exact ⟨ht, hts⟩

theorem repeats_parts : ∀ branches : List (List Token), ∀ e ∈ parts branches, e.Repeats (· ≠ slash)
  | [] => List.forall_mem_nil _
  | ts :: branches => by
      have hts := repeats_whole ts
      have hbranches := repeats_parts branches
      unfold whole at hts
      rw [parts]
      cases hts' : pattern ts with
      | none => exact hbranches
      | some e =>
          rw [hts'] at hts
          exact List.forall_mem_cons.mpr ⟨hts, hbranches⟩

end

/-! ### Literals -/

theorem matches_sequence {bytes w : List UInt8} :
    (sequence (bytes.map fun b => .one (· == b))).Matches w ↔ w = bytes := by
  induction bytes generalizing w with
  | nil => rfl
  | cons b bytes ih =>
      rw [List.map_cons, sequence, Pattern.Matches]
      constructor
      · rintro ⟨u, v, rfl, ⟨a, ha, rfl⟩, hv⟩
        rw [ih.mp hv, beq_iff_eq.mp ha]
        rfl
      · rintro rfl
        exact ⟨[b], bytes, rfl, ⟨b, beq_self_eq_true b, rfl⟩, ih.mpr rfl⟩

theorem matches_literal {c : Char} {w : List UInt8} :
    (Token.whole (.literal c)).Matches w ↔ w = charBytes c := by
  rw [Token.whole, Token.pattern]
  exact matches_sequence

/-- **A literal text matches itself only.** -/
theorem matches_literals {cs : List Char} {w : List UInt8} :
    (whole (cs.map .literal)).Matches w ↔ w = textBytes cs := by
  induction cs generalizing w with
  | nil => rfl
  | cons c cs ih =>
      rw [List.map_cons, matches_cons, textBytes_cons]
      constructor
      · rintro ⟨u, v, rfl, hu, hv⟩
        rw [matches_literal.mp hu, ih.mp hv]
      · rintro rfl
        exact ⟨_, _, rfl, matches_literal.mpr rfl, ih.mpr rfl⟩

/-- **A recursive suffix** is a separator and anything. -/
theorem matches_suffix {ts : List Token} {w : List UInt8} :
    (whole (ts ++ [.recursiveSuffix])).Matches w ↔
      ∃ u v, w = u ++ slash :: v ∧ (whole ts).Matches u := by
  have hsuffix : ∀ w : List UInt8, (whole [.recursiveSuffix]).Matches w ↔ ∃ v, w = slash :: v := by
    intro w
    constructor
    · rintro ⟨u, v, rfl, ⟨b, hb, rfl⟩, -⟩
      exact ⟨v, by rw [beq_iff_eq.mp hb]; rfl⟩
    · rintro ⟨v, rfl⟩
      exact ⟨[slash], v, rfl, ⟨slash, rfl, rfl⟩, fun _ _ => rfl⟩
  rw [matches_append]
  constructor
  · rintro ⟨u, v, rfl, hu, hv⟩
    obtain ⟨v', rfl⟩ := (hsuffix v).mp hv
    exact ⟨u, v', rfl, hu⟩
  · rintro ⟨u, v, rfl, hu⟩
    exact ⟨u, slash :: v, rfl, hu, (hsuffix _).mpr ⟨v, rfl⟩⟩

end Glob
end Lib
end Noxy
