/-
# Replacing patterns in a text

A text is read from left to right.  Where a pattern starts its value is put in place of it and
the reading goes on behind it; everything else stays.  `substitute` does this for several
patterns at once, and with one pattern it is the replacement of all its occurrences.

`substitute_induct` is the induction along the reading.  With it: patterns that do not occur
do not matter (`substitute_of_absent`), an occurring pattern brings in its value
(`value_infix_replace`), and the result is not longer than its values allow
(`length_substitute_le`).  The other facts are about a letter `x` that no pattern starts or
ends with.  A run of `x` that is longer than a pattern survives its replacement
(`run_infix_replace`), and a pattern replaced by a run of its own length does not occur any
more, although the gaps move together (`not_infix_replace_run`).
-/

import Mathlib.Data.List.Infix

namespace Noxy
namespace Lib

/-- A pattern and what is put in its place. -/
structure Rule (α : Type*) where
  pattern : List α
  value : List α
  pattern_ne_nil : pattern ≠ []

/-- The letter is neither the first nor the last of the pattern. -/
structure Rule.Shuns {α : Type*} (r : Rule α) (x : α) : Prop where
  head : r.pattern.head r.pattern_ne_nil ≠ x
  last : r.pattern.getLast r.pattern_ne_nil ≠ x

section Shuns

variable {α : Type*} {r : Rule α} {x : α} (hx : r.Shuns x)
include hx

theorem not_pattern_prefix_cons (text : List α) : ¬ r.pattern <+: x :: text := by
  rintro ⟨rest, hrest⟩
  have hhead := congrArg List.head? hrest
  rw [List.head?_append_of_ne_nil _ r.pattern_ne_nil, List.head?_cons,
    List.head?_eq_some_head r.pattern_ne_nil, Option.some.injEq] at hhead
  exact hx.head hhead

/-- A run does not start with a tail of the pattern, whose last letter is another one. -/
theorem not_suffix_prefix_run {tail : List α} (htail : tail <:+ r.pattern) (hne : tail ≠ [])
    (n : ℕ) : ¬ tail <+: List.replicate n x := by
  intro hpre
  have hmem := hpre.subset (List.getLast_mem hne)
  exact hx.last ((htail.getLast hne).symm.trans (List.eq_of_mem_replicate hmem))

/-- A run as long as the pattern does not overlap it. -/
theorem run_infix_of_append {n : ℕ} (hn : r.pattern.length ≤ n) {text : List α}
    (h : List.replicate n x <:+: r.pattern ++ text) : List.replicate n x <:+: text := by
  have hsuffix : ∀ tail, tail <:+ r.pattern → List.replicate n x <:+: tail ++ text →
      List.replicate n x <:+: text := by
    intro tail
    induction tail with
    | nil => exact fun _ hin => hin
    | cons c tail ih =>
        intro htail hin
        rcases List.infix_cons_iff.mp hin with hpre | hin
        · have hlen : (c :: tail).length ≤ (List.replicate n x).length := by
            rw [List.length_replicate]
            exact htail.length_le.trans hn
          have hrun :=
            List.prefix_of_prefix_length_le (List.prefix_append (c :: tail) text) hpre hlen
          exact absurd hrun (not_suffix_prefix_run hx htail (List.cons_ne_nil c tail) n)
        · exact ih ((List.suffix_cons c tail).trans htail) hin
  exact hsuffix _ (List.suffix_refl _) h

end Shuns

/-- A pattern without the letter does not reach across it. -/
theorem prefix_of_prefix_append {α : Type*} {pattern rest : List α} {m : α} (text : List α)
    (hm : m ∉ pattern) (h : pattern <+: text ++ m :: rest) : pattern <+: text := by
  rcases Nat.lt_or_ge text.length pattern.length with hlt | hle
  · have hacross : text ++ [m] <+: text ++ m :: rest :=
      ⟨rest, by rw [List.append_assoc, List.singleton_append]⟩
    have hin : text ++ [m] <+: pattern :=
      List.prefix_of_prefix_length_le hacross h (by rw [List.length_append]; exact hlt)
    exact absurd (hin.subset (List.mem_append_right _ (List.mem_singleton_self m))) hm
  · exact List.prefix_of_prefix_length_le h (List.prefix_append _ _) hle

variable {α : Type*} [DecidableEq α]

/-- The first rule whose pattern the text starts with. -/
def ruleAt (rules : List (Rule α)) (text : List α) : Option (Rule α) :=
  rules.find? fun r => r.pattern.isPrefixOf text

/-- Reading on after a number of letters. -/
def substituteFrom (rules : List (Rule α)) : ℕ → List α → List α
  | _, [] => []
  | k + 1, _ :: text => substituteFrom rules k text
  | 0, c :: text =>
      match ruleAt rules (c :: text) with
      | some r => r.value ++ substituteFrom rules (r.pattern.length - 1) text
      | none => c :: substituteFrom rules 0 text

/-- All patterns replaced at once. -/
def substitute (rules : List (Rule α)) (text : List α) : List α := substituteFrom rules 0 text

/-- All occurrences of a pattern replaced. -/
def replace (r : Rule α) (text : List α) : List α := substitute [r] text

/-! ### The reading -/

theorem ruleAt_eq_some {rules : List (Rule α)} {text : List α} {r : Rule α}
    (h : ruleAt rules text = some r) : r ∈ rules ∧ r.pattern <+: text := by
  have hpre : r.pattern.isPrefixOf text = true := by
    simpa using List.find?_some h
  exact ⟨List.mem_of_find?_eq_some h, List.isPrefixOf_iff_prefix.mp hpre⟩

theorem ruleAt_eq_none {rules : List (Rule α)} {text : List α} :
    ruleAt rules text = none ↔ ∀ r ∈ rules, ¬ r.pattern <+: text := by
  rw [ruleAt, List.find?_eq_none]
  exact forall₂_congr fun r _ => not_congr List.isPrefixOf_iff_prefix

theorem substituteFrom_eq (rules : List (Rule α)) (k : ℕ) (text : List α) :
    substituteFrom rules k text = substitute rules (text.drop k) := by
  induction k generalizing text with
  | zero => rfl
  | succ k ih =>
      cases text with
      | nil => rfl
      | cons c text => exact ih text

theorem substitute_pick {rules : List (Rule α)} {r : Rule α} {rest : List α}
    (h : ruleAt rules (r.pattern ++ rest) = some r) :
    substitute rules (r.pattern ++ rest) = r.value ++ substitute rules rest := by
  cases hpattern : r.pattern with
  | nil => exact absurd hpattern r.pattern_ne_nil
  | cons c tail =>
      rw [hpattern] at h
      rw [List.cons_append] at h ⊢
      rw [substitute, substituteFrom, h]
      dsimp only
      rw [substituteFrom_eq, hpattern, List.length_cons, Nat.add_sub_cancel, List.drop_left]

theorem substitute_keep {rules : List (Rule α)} {c : α} {text : List α}
    (h : ruleAt rules (c :: text) = none) :
    substitute rules (c :: text) = c :: substitute rules text := by
  rw [substitute, substituteFrom, h]
  rfl

/-- **Induction along the reading**: at a pattern, or at a letter where none starts. -/
theorem substitute_induct (rules : List (Rule α)) {motive : List α → Prop} (nil : motive [])
    (pick : ∀ r ∈ rules, ∀ rest, ruleAt rules (r.pattern ++ rest) = some r → motive rest →
      motive (r.pattern ++ rest))
    (keep : ∀ c text, ruleAt rules (c :: text) = none → motive text → motive (c :: text))
    (text : List α) : motive text := by
  induction hlen : text.length using Nat.strong_induction_on generalizing text with
  | _ n ih =>
      subst hlen
      cases text with
      | nil => exact nil
      | cons c text =>
          cases hrule : ruleAt rules (c :: text) with
          | none => exact keep c text hrule (ih text.length (by simp) text rfl)
          | some r =>
              obtain ⟨hr, rest, hrest⟩ := ruleAt_eq_some hrule
              have hpos := List.length_pos_iff.mpr r.pattern_ne_nil
              have hlen := congrArg List.length hrest
              rw [List.length_append] at hlen
              rw [← hrest] at hrule ⊢
              exact pick r hr rest hrule (ih rest.length (by omega) rest rfl)

/-! ### What is replaced -/

/-- The rules of the patterns that occur decide. -/
theorem substitute_of_absent {first : List (Rule α)} (rules : List (Rule α)) {text : List α}
    (h : ∀ r ∈ first, ¬ r.pattern <:+: text) :
    substitute (first ++ rules) text = substitute rules text := by
  have hrule : ∀ s, s <:+: text → ruleAt (first ++ rules) s = ruleAt rules s := by
    intro s hs
    have hnone : ruleAt first s = none :=
      ruleAt_eq_none.mpr fun r hr hpre => h r hr (hpre.isInfix.trans hs)
    rw [ruleAt] at hnone
    rw [ruleAt, List.find?_append, hnone, Option.none_or]
    rfl
  clear h
  induction text using substitute_induct rules with
  | nil => rfl
  | pick r _ rest hr ih =>
      rw [substitute_pick hr, substitute_pick ((hrule _ (List.infix_refl _)).trans hr),
        ih fun s hs => hrule s (List.infix_append_of_infix_right hs)]
  | keep c text hnone ih =>
      rw [substitute_keep hnone, substitute_keep ((hrule _ (List.infix_refl _)).trans hnone),
        ih fun s hs => hrule s (List.infix_cons hs)]

theorem substitute_nil (text : List α) : substitute ([] : List (Rule α)) text = text := by
  induction text with
  | nil => rfl
  | cons c text ih =>
      have hnone : ruleAt ([] : List (Rule α)) (c :: text) = none := rfl
      rw [substitute_keep hnone, ih]

theorem replace_of_absent {r : Rule α} {text : List α} (h : ¬ r.pattern <:+: text) :
    replace r text = text :=
  calc replace r text
    _ = substitute ([r] ++ []) text := rfl
    _ = substitute [] text := substitute_of_absent [] fun _ hr => List.mem_singleton.mp hr ▸ h
    _ = text := substitute_nil text

theorem ruleAt_singleton_eq_none {r : Rule α} {text : List α} :
    ruleAt [r] text = none ↔ ¬ r.pattern <+: text := by
  rw [ruleAt_eq_none, List.forall_mem_singleton]

/-- A letter of the result is one of the value or of the text. -/
theorem mem_replace {r : Rule α} {text : List α} {c : α} (h : c ∈ replace r text) :
    c ∈ r.value ∨ c ∈ text := by
  unfold replace at h
  induction text using substitute_induct [r] with
  | nil => exact .inr h
  | pick r' hr' rest hrule ih =>
      obtain rfl := List.mem_singleton.mp hr'
      rw [substitute_pick hrule, List.mem_append] at h
      exact h.elim .inl fun h => (ih h).imp_right (List.mem_append_right _)
  | keep d text hrule ih =>
      rw [substitute_keep hrule, List.mem_cons] at h
      rcases h with rfl | h
      · exact .inr List.mem_cons_self
      · exact (ih h).imp_right (List.mem_cons_of_mem _)

/-- A letter of the text that is none of the pattern stays. -/
theorem mem_replace_of_mem {r : Rule α} {text : List α} {c : α} (h : c ∈ text)
    (hc : c ∉ r.pattern) : c ∈ replace r text := by
  unfold replace
  induction text using substitute_induct [r] with
  | nil => exact h
  | pick r' hr' rest hrule ih =>
      obtain rfl := List.mem_singleton.mp hr'
      rw [substitute_pick hrule]
      exact List.mem_append_right _ (ih ((List.mem_append.mp h).resolve_left hc))
  | keep d text hrule ih =>
      rw [substitute_keep hrule]
      rcases List.mem_cons.mp h with rfl | h
      · exact List.mem_cons_self
      · exact List.mem_cons_of_mem _ (ih h)

/-- **A letter that is none of the pattern** keeps apart what is on its two sides. -/
theorem replace_append_cons {r : Rule α} {m : α} (hm : m ∉ r.pattern) (text rest : List α) :
    replace r (text ++ m :: rest) = replace r text ++ m :: replace r rest := by
  unfold replace
  induction text using substitute_induct [r] with
  | nil =>
      refine substitute_keep (ruleAt_singleton_eq_none.mpr fun hpre => ?_)
      exact r.pattern_ne_nil (List.prefix_nil.mp (prefix_of_prefix_append [] hm hpre))
  | pick r' hr' text _ ih =>
      obtain rfl := List.mem_singleton.mp hr'
      have hat : ∀ text, ruleAt [r'] (r'.pattern ++ text) = some r' := by
        intro text
        rw [ruleAt, List.find?_cons_of_pos]
        exact List.isPrefixOf_iff_prefix.mpr (List.prefix_append _ _)
      rw [List.append_assoc, substitute_pick (hat _), substitute_pick (hat _), ih,
        List.append_assoc]
  | keep c text hnone ih =>
      have hacross : ruleAt [r] (c :: (text ++ m :: rest)) = none := by
        rw [ruleAt_singleton_eq_none] at hnone ⊢
        exact fun hpre => hnone (prefix_of_prefix_append (c :: text) hm hpre)
      rw [List.cons_append, substitute_keep hacross, substitute_keep hnone, ih, List.cons_append]

/-- The value of a pattern that occurs occurs in the result. -/
theorem value_infix_replace {r : Rule α} {text : List α} (h : r.pattern <:+: text) :
    r.value <:+: replace r text := by
  unfold replace
  induction text using substitute_induct [r] with
  | nil => exact absurd (List.infix_nil.mp h) r.pattern_ne_nil
  | pick r' hr' rest hr _ =>
      obtain rfl := List.mem_singleton.mp hr'
      rw [substitute_pick hr]
      exact (List.prefix_append _ _).isInfix
  | keep c text hnone ih =>
      rw [substitute_keep hnone]
      rcases List.infix_cons_iff.mp h with hpre | hin
      · exact absurd hpre (ruleAt_singleton_eq_none.mp hnone)
      · exact List.infix_cons (ih hin)

/-- **How long the result is.**  If the values that occur in it are of length at most `n`, it is
at most `n` times as long as the text. -/
theorem length_substitute_le {rules : List (Rule α)} {n : ℕ} (hn : 0 < n) {text : List α}
    (h : ∀ r ∈ rules, r.value <:+: substitute rules text → r.value.length ≤ n) :
    (substitute rules text).length ≤ n * text.length := by
  induction text using substitute_induct rules with
  | nil => exact Nat.zero_le _
  | pick r hr rest hat ih =>
      rw [substitute_pick hat] at h ⊢
      have hvalue := h r hr (List.prefix_append _ _).isInfix
      have hrest := ih fun r' hr' hin => h r' hr' (List.infix_append_of_infix_right hin)
      have hpos := List.length_pos_iff.mpr r.pattern_ne_nil
      have hmul : n * 1 ≤ n * r.pattern.length := Nat.mul_le_mul_left n hpos
      rw [List.length_append, List.length_append, Nat.mul_add]
      omega
  | keep c text hnone ih =>
      rw [substitute_keep hnone] at h ⊢
      have hrest := ih fun r hr hin => h r hr (List.infix_cons hin)
      rw [List.length_cons, List.length_cons, Nat.mul_add]
      omega

/-! ### Runs of a letter -/

section Runs

variable {r : Rule α} {x : α} (hx : r.Shuns x)
include hx

/-- No pattern starts in a run. -/
theorem replace_run_append (n : ℕ) (text : List α) :
    replace r (List.replicate n x ++ text) = List.replicate n x ++ replace r text := by
  induction n with
  | zero => rfl
  | succ n ih =>
      have hnone : ruleAt [r] (x :: (List.replicate n x ++ text)) = none :=
        ruleAt_singleton_eq_none.mpr (not_pattern_prefix_cons hx _)
      rw [List.replicate_succ, List.cons_append, List.cons_append, replace, substitute_keep hnone,
        ← replace, ih]

/-- **A run longer than the pattern survives.** -/
theorem run_infix_replace {n : ℕ} (hn : r.pattern.length ≤ n) {text : List α}
    (h : List.replicate n x <:+: text) : List.replicate n x <:+: replace r text := by
  induction text using substitute_induct [r] with
  | nil => exact h
  | pick r' hr' rest hat ih =>
      obtain rfl := List.mem_singleton.mp hr'
      rw [replace, substitute_pick hat]
      exact List.infix_append_of_infix_right (ih (run_infix_of_append hx hn h))
  | keep c text hnone ih =>
      rcases List.infix_cons_iff.mp h with ⟨rest, hrest⟩ | hin
      · rw [← hrest, replace_run_append hx]
        exact (List.prefix_append _ _).isInfix
      · rw [replace, substitute_keep hnone]
        exact List.infix_cons (ih hin)

/-- With a run as long as the pattern for a value, a tail of the pattern starts the result only
where it starts the text. -/
theorem suffix_prefix_of_replace (hvalue : r.value = List.replicate r.pattern.length x)
    (text : List α) : ∀ tail, tail <:+ r.pattern → tail <+: replace r text → tail <+: text := by
  induction text using substitute_induct [r] with
  | nil => exact fun _ _ hpre => hpre
  | pick r' hr' rest hat _ =>
      obtain rfl := List.mem_singleton.mp hr'
      intro tail htail hpre
      cases tail with
      | nil => exact List.nil_prefix
      | cons c tail =>
          rw [replace, substitute_pick hat, hvalue] at hpre
          have hlen : (c :: tail).length ≤ (List.replicate r'.pattern.length x).length := by
            rw [List.length_replicate]
            exact htail.length_le
          have hrun := List.prefix_of_prefix_length_le hpre (List.prefix_append _ _) hlen
          exact absurd hrun (not_suffix_prefix_run hx htail (List.cons_ne_nil c tail) _)
  | keep c text hnone ih =>
      intro tail htail hpre
      cases tail with
      | nil => exact List.nil_prefix
      | cons c' tail =>
          rw [replace, substitute_keep hnone, List.cons_prefix_cons] at hpre
          rw [List.cons_prefix_cons]
          exact ⟨hpre.1, ih tail ((List.suffix_cons c' tail).trans htail) hpre.2⟩

/-- **A pattern replaced by a run of its length is gone.** -/
theorem not_infix_replace_run (hvalue : r.value = List.replicate r.pattern.length x)
    (text : List α) : ¬ r.pattern <:+: replace r text := by
  induction text using substitute_induct [r] with
  | nil => exact fun h => r.pattern_ne_nil (List.infix_nil.mp h)
  | pick r' hr' rest hat ih =>
      obtain rfl := List.mem_singleton.mp hr'
      have hrun : ∀ n, ¬ r'.pattern <:+: List.replicate n x ++ replace r' rest := by
        intro n
        induction n with
        | zero => exact ih
        | succ n ihn =>
            rw [List.replicate_succ, List.cons_append, List.infix_cons_iff]
            exact not_or.mpr ⟨not_pattern_prefix_cons hx _, ihn⟩
      rw [replace, substitute_pick hat, hvalue]
      exact hrun _
  | keep c text hnone ih =>
      intro h
      have hpre := suffix_prefix_of_replace hx hvalue (c :: text) r.pattern (List.suffix_refl _)
      rw [replace, substitute_keep hnone] at h hpre
      rcases List.infix_cons_iff.mp h with hstart | hin
      · exact ruleAt_singleton_eq_none.mp hnone (hpre hstart)
      · exact ih hin

end Runs

end Lib
end Noxy
