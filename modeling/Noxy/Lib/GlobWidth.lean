/-
# How wide the tokens of a glob are

By induction on the run of the parser, the tokens of a glob are narrower than its text, unless
the text has no special characters but question marks, and then there is a token for every
character (`build_narrow_or_plain`, `build_plain`).
-/

import Noxy.Lib.GlobMatch
import Noxy.Lib.GlobParse

namespace Noxy
namespace Lib
namespace Glob

/-- The characters with which other tokens than `?` are written. -/
def isSpecial (c : Char) : Bool :=
  c == '*' || c == '[' || c == '\\' || c == '\x7b' || c == '\x7d'

/-- The token of a character that is not special. -/
def tokenOf (c : Char) : Token := if c = '?' then .any else .literal c

theorem width_tokenOf (c : Char) : (tokenOf c).whole.width = (charBytes c).length := by
  unfold tokenOf
  split
  · rename_i hc
    rw [hc]
    rfl
  · exact width_literal c

namespace Parser

/-- The width of an open group. -/
def groupWidth (g : List Token × List (List Token)) : ℕ :=
  (whole g.1).width + (g.2.map fun ts => (whole ts).width).sum

/-- The width of all tokens. -/
def width (p : Parser) : ℕ := (whole p.tokens).width + (p.outer.map groupWidth).sum

variable {p p' q : Parser} {prev : Option Char} {u rest cs : List Char} {c last : Char}

theorem width_push (p : Parser) (t : Token) : (p.push t).width = p.width + t.whole.width := by
  unfold width push
  rw [width_concat]
  dsimp only
  omega

/-- A token for every character makes the tokens as wide as the text. -/
theorem width_map_tokenOf (p : Parser) (cs : List Char) :
    (⟨p.tokens ++ cs.map tokenOf, p.outer⟩ : Parser).width = p.width + (textBytes cs).length := by
  induction cs generalizing p with
  | nil =>
      rw [List.map_nil, List.append_nil]
      rfl
  | cons c cs ih =>
      have h := ih (p.push (tokenOf c))
      rw [width_push, width_tokenOf] at h
      rw [List.map_cons, List.append_cons, textBytes_cons, List.length_append]
      exact h.trans (Nat.add_assoc _ _ _)

theorem width_recur_le (p : Parser) (isSuffix : Bool) :
    (p.recur isSuffix).width ≤ p.width + if isSuffix then 1 else 2 := by
  unfold recur
  split
  · exact Nat.le_add_right _ _
  · exact Nat.le_add_right _ _
  · unfold width
    dsimp only
    rw [width_concat]
    have hlast : (whole p.tokens.dropLast).width ≤ (whole p.tokens).width := by
      rcases List.eq_nil_or_concat p.tokens with h | ⟨ts, t, h⟩
      · rw [h]
        exact Nat.le_refl _
      · rw [h, List.concat_eq_append, List.dropLast_concat, width_concat]
        exact Nat.le_add_right _ _
    have hnew : (Token.whole (if isSuffix then .recursiveSuffix else .recursiveZeroOrMore)).width =
        if isSuffix then 1 else 2 := by
      cases isSuffix <;> rfl
    rw [hnew]
    omega

theorem width_twoStars (p : Parser) : p.twoStars.width = p.width := by
  rw [twoStars, width_push, width_push]
  rfl

theorem width_star_le (p : Parser) (prev peek : Option Char) :
    (p.star prev peek).1.width ≤ p.width + if (p.star prev peek).2 then 2 else 1 := by
  have htwo : p.twoStars.width ≤ p.width + 1 := by
    rw [width_twoStars]
    exact Nat.le_add_right _ _
  unfold star
  split
  · split
    · have hpush := width_push p .recursivePrefix
      have hone : (Token.whole .recursivePrefix).width = 1 := rfl
      dsimp only
      split <;> omega
    · exact htwo
  · split
    · exact htwo
    · split
      · exact p.width_recur_le true
      · split
        · exact p.width_recur_le false
        · exact htwo

theorem width_popAlternate_le (h : p.popAlternate = .ok p') : p'.width ≤ p.width := by
  unfold popAlternate at h
  cases houter : p.outer with
  | nil =>
      rw [houter] at h
      cases h
  | cons g outer =>
      obtain ⟨before, branches⟩ := g
      rw [houter] at h
      cases h
      have hgroup := width_alternates_le (branches ++ [p.tokens])
      rw [List.map_append, List.sum_append, List.map_singleton, List.sum_singleton] at hgroup
      unfold width
      rw [houter, width_concat, List.map_cons, List.sum_cons, groupWidth]
      dsimp only
      omega

theorem width_comma (houter : p.outer ≠ []) : p.comma.width = p.width := by
  cases h : p.outer with
  | nil => exact absurd h houter
  | cons g outer =>
      obtain ⟨before, branches⟩ := g
      have hempty : (whole []).width = 0 := rfl
      rw [comma, h]
      unfold width
      rw [h, List.map_cons, List.map_cons, List.sum_cons, List.sum_cons, groupWidth, groupWidth,
        List.map_append, List.sum_append, List.map_singleton, List.sum_singleton]
      dsimp only
      omega

theorem width_single (h : p.single c = .ok p') (hc : c ≠ '*' ∧ c ≠ '[' ∧ c ≠ '\\') :
    p'.width < p.width + (charBytes c).length ∨
      isSpecial c = false ∧ p' = p.push (tokenOf c) := by
  have hpos := length_charBytes_pos c
  unfold single at h
  split at h
  · rename_i hc'
    cases h
    exact .inr ⟨by rw [hc']; rfl, by rw [hc']; rfl⟩
  · rename_i hquestion
    split at h
    · cases h
      refine .inl ?_
      have hwidth : p.pushAlternate.width = p.width := by
        unfold width pushAlternate
        rw [List.map_cons, List.sum_cons]
        exact Nat.zero_add _
      omega
    · rename_i hopen
      split at h
      · have := width_popAlternate_le h
        exact .inl (by omega)
      · rename_i hclose
        have hplain : isSpecial c = false := by
          simp [isSpecial, hc, hopen, hclose]
        split at h
        · rename_i hcomma
          cases h
          by_cases houter : p.outer = []
          · refine .inr ⟨hplain, ?_⟩
            rw [comma, houter, tokenOf, if_neg hquestion, hcomma]
          · have := width_comma houter
            exact .inl (by omega)
        · cases h
          exact .inr ⟨hplain, by rw [tokenOf, if_neg hquestion]⟩

/-- **What a turn adds to the width**: less than it takes, or a token for a character. -/
theorem Takes.narrow_or_plain (h : p.Takes prev u last rest p') :
    p'.width < p.width + (textBytes u).length ∨
      ∃ c, u = [c] ∧ isSpecial c = false ∧ p' = p.push (tokenOf c) := by
  cases h with
  | star next =>
      refine .inl ?_
      rw [width_push]
      exact Nat.lt_succ_self _
  | stars left =>
      have h := p.width_star_le prev rest.head?
      rw [left] at h
      exact .inl (Nat.lt_of_le_of_lt h (Nat.lt_succ_self _))
  | component taken =>
      have h := p.width_star_le prev (some '/')
      rw [taken] at h
      exact .inl (Nat.lt_of_le_of_lt h (Nat.lt_succ_self _))
  | @charClass body _ negated ranges h =>
      refine .inl ?_
      rw [width_push]
      have hone : (Token.whole (.charClass negated ranges)).width = 1 := rfl
      have hopen : (charBytes '[').length = 1 := rfl
      have hclose : (charBytes ']').length = 1 := rfl
      rw [textBytes_append, textBytes_cons, textBytes_singleton, List.length_append,
        List.length_append]
      omega
  | escape =>
      refine .inl ?_
      have hescape : (charBytes '\\').length = 1 := rfl
      rw [width_push, width_literal, textBytes_cons, textBytes_singleton, List.length_append]
      omega
  | single other h =>
      rw [textBytes_singleton]
      exact (width_single h other).imp_right fun hplain => ⟨_, rfl, hplain⟩

/-- **A run adds less to the width than it takes**, or a token for every character. -/
theorem Parses.narrow_or_plain (h : Parses p prev cs q) :
    q.width < p.width + (textBytes cs).length ∨
      (∀ c ∈ cs, isSpecial c = false) ∧ q = ⟨p.tokens ++ cs.map tokenOf, p.outer⟩ := by
  induction h with
  | nil p prev => exact .inr ⟨List.forall_mem_nil _, by rw [List.map_nil, List.append_nil]⟩
  | @cons p p' q prev u rest last h hrest ih =>
      rw [textBytes_append, List.length_append]
      rcases h.narrow_or_plain with hturn | ⟨c, rfl, hc, rfl⟩
      · refine .inl ?_
        rcases ih with ih | ⟨-, rfl⟩
        · omega
        · have hplain := width_map_tokenOf p' rest
          omega
      · have hpush := width_push p (tokenOf c)
        rw [width_tokenOf] at hpush
        rw [textBytes_singleton]
        rcases ih with ih | ⟨hall, rfl⟩
        · exact .inl (by omega)
        · refine .inr ⟨List.forall_mem_cons.mpr ⟨hc, hall⟩, ?_⟩
          simp [push]

theorem single_eq_push (houter : p.outer = []) (hc : isSpecial c = false) :
    p.single c = .ok (p.push (tokenOf c)) := by
  simp only [isSpecial, Bool.or_eq_false_iff, beq_eq_false_iff_ne] at hc
  unfold single tokenOf
  split
  · rfl
  · rw [if_neg hc.1.2, if_neg hc.2]
    split
    · rename_i hcomma
      rw [comma, houter, hcomma]
    · rfl

/-- **A text without special characters** has a token for every character. -/
theorem parses_plain (houter : p.outer = []) (hcs : ∀ c ∈ cs, isSpecial c = false) :
    Parses p prev cs ⟨p.tokens ++ cs.map tokenOf, []⟩ := by
  induction cs generalizing p prev with
  | nil =>
      rw [List.map_nil, List.append_nil, ← houter]
      exact .nil p prev
  | cons c cs ih =>
      obtain ⟨hc, hcs⟩ := List.forall_mem_cons.mp hcs
      have hrest : Parses (p.push (tokenOf c)) (some c) cs _ := ih houter hcs
      have hother : c ≠ '*' ∧ c ≠ '[' ∧ c ≠ '\\' := by
        simp only [isSpecial, Bool.or_eq_false_iff, beq_eq_false_iff_ne] at hc
        exact ⟨hc.1.1.1.1, hc.1.1.1.2, hc.1.1.2⟩
      rw [List.map_cons, List.append_cons]
      exact .cons (.single hother (single_eq_push houter hc)) hrest

end Parser

/-- **The tokens of a glob are narrower than its text**, or there is one for every character. -/
theorem build_narrow_or_plain {glob : List Char} {ts : List Token} (h : build glob = .ok ts) :
    (whole ts).width < (textBytes glob).length ∨
      (∀ c ∈ glob, isSpecial c = false) ∧ ts = glob.map tokenOf := by
  rcases (build_eq_ok_iff.mp h).narrow_or_plain with hwidth | ⟨hall, heq⟩
  · have hstart : Parser.start.width = 0 := rfl
    have hend : (⟨ts, []⟩ : Parser).width = (whole ts).width := rfl
    exact .inl (by omega)
  · exact .inr ⟨hall, congrArg Parser.tokens heq⟩

theorem build_plain {glob : List Char} (h : ∀ c ∈ glob, isSpecial c = false) :
    build glob = .ok (glob.map tokenOf) :=
  build_eq_ok_iff.mpr (Parser.parses_plain rfl h)

end Glob
end Lib
end Noxy
