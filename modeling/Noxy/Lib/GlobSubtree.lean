/-
# A glob and everything below it

By induction on the run of the parser, a glob that is followed by `/**` has one token more, the
recursive one, unless it ends in a recursive `**` itself: then it has the same tokens
(`build_subtree`).
-/

import Noxy.Lib.GlobParse

namespace Noxy
namespace Lib
namespace Glob

/-- What is put after a glob for everything below it. -/
def subtree : List Char := ['/', '*', '*']

namespace Parser

variable {p p' q : Parser} {prev : Option Char} {u rest cs : List Char} {c last : Char}

theorem Takes.getLast (h : p.Takes prev u last rest p') : u.getLast? = some last := by
  cases h with
  | charClass h => rw [List.getLast?_append]; rfl
  | _ => rfl

theorem isEmpty_eq_false {α : Type*} {l : List α} (h : l ≠ []) : l.isEmpty = false := by
  rw [← Bool.not_eq_true, List.isEmpty_iff]
  exact h

theorem star_start (h : p.tokens = []) {peek : Option Char}
    (hpeek : peek = none ∨ peek = some '/') :
    p.star prev peek = (p.push .recursivePrefix, peek.isSome) := by
  simp [star, h, hpeek]

theorem star_last (h : p.tokens ≠ []) : p.star (some '/') none = (p.recur true, false) := by
  simp [star, isEmpty_eq_false h]

theorem star_component (h : p.tokens ≠ []) :
    p.star (some '/') (some '/') = (p.recur false, true) := by
  simp [star, isEmpty_eq_false h]

theorem star_other (h : p.tokens ≠ []) (hprev : prev ≠ some '/') (houter : p.outer = [])
    (peek : Option Char) : p.star prev peek = (p.twoStars, false) := by
  simp [star, isEmpty_eq_false h, hprev, houter]

/-- A recursive token stays, and another one is replaced. -/
theorem recur_eq (p : Parser) :
    (∀ isSuffix, p.recur isSuffix = p) ∨
      ∀ isSuffix, p.recur isSuffix = ⟨p.tokens.dropLast ++
        [if isSuffix then .recursiveSuffix else .recursiveZeroOrMore], p.outer⟩ := by
  unfold recur
  cases p.tokens.getLast? with
  | none => exact .inr fun _ => rfl
  | some t =>
      cases t with
      | recursivePrefix => exact .inl fun _ => rfl
      | recursiveSuffix => exact .inl fun _ => rfl
      | _ => exact .inr fun _ => rfl

theorem tokens_recur_ne_nil (isSuffix : Bool) (h : p.tokens ≠ []) :
    (p.recur isSuffix).tokens ≠ [] := by
  rcases p.recur_eq with hrecur | hrecur
  · rw [hrecur]
    exact h
  · rw [hrecur]
    exact List.append_ne_nil_of_right_ne_nil _ (List.cons_ne_nil _ _)

theorem outer_recur (p : Parser) (isSuffix : Bool) : (p.recur isSuffix).outer = p.outer := by
  rcases p.recur_eq with hrecur | hrecur <;> rw [hrecur]

/-- A recursive `**` after another is no more than one. -/
theorem recur_recur (p : Parser) : (p.recur false).recur true = p.recur true := by
  rcases p.recur_eq with hrecur | hrecur
  · rw [hrecur, hrecur]
  · rw [hrecur false, hrecur true]
    simp [recur]

theorem recur_literal (p : Parser) :
    (p.push (.literal '/')).recur true = p.push .recursiveSuffix := by
  rw [recur, push, List.getLast?_concat]
  dsimp only
  rw [List.dropLast_concat]
  rfl

/-- A `**` at the end, after a separator. -/
theorem parses_component (h : p.tokens ≠ []) :
    Parses p (some '/') ['*', '*'] (p.recur true) := by
  have htakes : p.Takes (some '/') ['*', '*'] '*' [] (p.star (some '/') [].head?).1 :=
    .stars (by rw [List.head?_nil, star_last h])
  rw [List.head?_nil, star_last h] at htakes
  exact .cons htakes (.nil _ _)

/-- **Everything below**, after a text that has no part in it. -/
theorem parses_subtree (p : Parser) (prev : Option Char) :
    Parses p prev subtree (p.push .recursiveSuffix) := by
  rw [← recur_literal]
  exact .cons (u := ['/']) (.single (by decide) rfl) (parses_component (by simp [push]))

/-- The text ends in a recursive `**`: at its start, or after a separator. -/
def EndsRecursive (p : Parser) (prev : Option Char) (cs : List Char) : Prop :=
  subtree <:+ cs ∨ cs = ['*', '*'] ∧ (prev = some '/' ∨ p.tokens = [])

/-- A turn does not look further than the next character. -/
theorem Takes.append (h : p.Takes prev u last rest p') (hrest : rest ≠ [] ∨ u ≠ ['*', '*'])
    (more : List Char) : p.Takes prev u last (rest ++ '/' :: more) p' := by
  cases h with
  | star next =>
      refine .star ?_
      cases rest with
      | nil =>
          rw [List.nil_append, List.head?_cons]
          decide
      | cons c rest => exact next
  | stars left =>
      cases rest with
      | nil => exact absurd rfl (hrest.resolve_left fun h => h rfl)
      | cons c rest => exact .stars left
  | component taken => exact .component taken
  | charClass h => exact .charClass h
  | escape => exact .escape
  | single other h => exact .single other h

theorem outer_star (p : Parser) (prev peek : Option Char) :
    (p.star prev peek).1.outer = p.outer := by
  unfold star
  split
  · split <;> rfl
  · split
    · rfl
    · split
      · exact p.outer_recur true
      · split
        · exact p.outer_recur false
        · rfl

theorem tokens_push_ne_nil (p : Parser) (t : Token) : (p.push t).tokens ≠ [] :=
  List.append_ne_nil_of_right_ne_nil _ (List.cons_ne_nil _ _)

theorem tokens_star_ne_nil (p : Parser) (prev peek : Option Char) :
    (p.star prev peek).1.tokens ≠ [] := by
  unfold star
  split
  · split
    · exact tokens_push_ne_nil _ _
    · exact tokens_push_ne_nil _ _
  · rename_i htokens
    have hne : p.tokens ≠ [] := fun h => htokens (by rw [h]; rfl)
    split
    · exact tokens_push_ne_nil _ _
    · split
      · exact tokens_recur_ne_nil true hne
      · split
        · exact tokens_recur_ne_nil false hne
        · exact tokens_push_ne_nil _ _

/-- Outside of groups, a turn leaves a token. -/
theorem Takes.tokens_ne_nil (h : p.Takes prev u last rest p') (houter : p'.outer = []) :
    p'.tokens ≠ [] := by
  cases h with
  | star next => exact tokens_push_ne_nil _ _
  | stars left => exact tokens_star_ne_nil _ _ _
  | component taken => exact tokens_star_ne_nil _ _ _
  | charClass h => exact tokens_push_ne_nil _ _
  | escape => exact tokens_push_ne_nil _ _
  | single other h =>
      unfold Parser.single at h
      split at h
      · cases h
        exact tokens_push_ne_nil _ _
      · split at h
        · cases h
          cases houter
        · split at h
          · unfold popAlternate at h
            split at h
            · cases h
            · cases h
              exact List.append_ne_nil_of_right_ne_nil _ (List.cons_ne_nil _ _)
          · split at h
            · cases h
              unfold comma at houter ⊢
              split
              · exact tokens_push_ne_nil _ _
              · rename_i hopen
                rw [hopen] at houter
                cases houter
            · cases h
              exact tokens_push_ne_nil _ _

/-- No turn ends inside of a separator and stars. -/
theorem Takes.ne_subtree (h : p.Takes prev u last rest p') (v : List Char) :
    u ≠ v ++ ['/', '*'] ∧ u ≠ v ++ subtree := by
  constructor <;> intro hu <;> have hreverse := congrArg List.reverse hu <;>
    cases h <;> simp [subtree] at hreverse

/-- **Whether a text ends in a recursive `**` does not change** with the turns before the
last. -/
theorem Takes.endsRecursive_iff (h : p.Takes prev u last rest p')
    (hlook : rest ≠ [] ∨ u ≠ ['*', '*']) (htokens : rest = ['*', '*'] → p'.tokens ≠ []) :
    EndsRecursive p prev (u ++ rest) ↔ EndsRecursive p' (some last) rest := by
  constructor
  · rintro (⟨v, hv⟩ | ⟨htext, -⟩)
    · rcases List.append_eq_append_iff.mp hv with ⟨a, hu, hsubtree⟩ | ⟨a, -, hrest⟩
      · -- the turn ends inside of the last three characters
        cases a with
        | nil => exact .inl ⟨[], hsubtree⟩
        | cons c a =>
            obtain ⟨rfl, hstars⟩ := List.cons.inj hsubtree
            cases a with
            | nil =>
                have hlast := h.getLast
                rw [hu, List.getLast?_append] at hlast
                exact .inr ⟨hstars.symm, .inl hlast.symm⟩
            | cons c a =>
                obtain ⟨rfl, hstar⟩ := List.cons.inj hstars
                cases a with
                | nil => exact absurd hu (h.ne_subtree v).1
                | cons c a =>
                    obtain ⟨rfl, hnil⟩ := List.cons.inj hstar
                    obtain ⟨rfl, -⟩ := List.append_eq_nil_iff.mp hnil.symm
                    exact absurd hu (h.ne_subtree v).2
      · exact .inl ⟨a, hrest.symm⟩
    · -- two stars are taken by one turn
      cases h with
      | star next => simp_all
      | stars left => simp_all
      | component taken => simp at htext
      | charClass h => simp at htext
      | escape => simp at htext
      | single other h => simp_all
  · rintro (hsubtree | ⟨rfl, hlast | hnil⟩)
    · exact .inl (hsubtree.trans (List.suffix_append u rest))
    · obtain rfl : last = '/' := Option.some.inj hlast
      obtain ⟨v, rfl⟩ := List.getLast?_eq_some_iff.mp h.getLast
      exact .inl ⟨v, (List.append_assoc v ['/'] ['*', '*']).symm⟩
    · exact absurd hnil (htokens rfl)

theorem Parses.outer_of_stars (h : Parses p prev ['*', '*'] q) : q.outer = p.outer := by
  obtain ⟨p', last, rest, hstep, hrest⟩ := parses_cons_iff.mp h
  have hstar : p.step prev '*' ['*'] = .ok ((p.star prev none).1, '*', []) ∨
      p.step prev '*' ['*'] = .ok ((p.star prev none).1, '/', []) := by
    cases htaken : (p.star prev none).2 <;> simp [step, htaken]
  rcases hstar with hstar | hstar
  all_goals
    rw [hstar] at hstep
    cases hstep
    rw [hrest.eq_of_nil rfl, outer_star]

/-- A turn that takes two stars and the separator after them. -/
theorem parses_component_stars {p' : Parser} (hstar : p.star prev (some '/') = (p', true))
    (htokens : p'.tokens ≠ []) : Parses p prev (['*', '*'] ++ subtree) (p'.recur true) := by
  have htakes : p.Takes prev ['*', '*', '/'] '/' ['*', '*'] (p.star prev (some '/')).1 :=
    .component (by rw [hstar])
  rw [hstar] at htakes
  have htext : ['*', '*'] ++ subtree = ['*', '*', '/'] ++ ['*', '*'] := rfl
  rw [htext]
  exact .cons htakes (parses_component htokens)

/-- **Two stars at the end**, and everything below. -/
theorem parses_stars_subtree (houter : (p.star prev none).1.outer = []) :
    (EndsRecursive p prev ['*', '*'] →
        Parses p prev (['*', '*'] ++ subtree) (p.star prev none).1) ∧
      (¬ EndsRecursive p prev ['*', '*'] →
        Parses p prev (['*', '*'] ++ subtree) ((p.star prev none).1.push .recursiveSuffix)) := by
  rw [outer_star] at houter
  by_cases htokens : p.tokens = []
  · refine ⟨fun _ => ?_, fun hnot => absurd (.inr ⟨rfl, .inr htokens⟩) hnot⟩
    have hrecur : (p.push .recursivePrefix).recur true = p.push .recursivePrefix := by
      simp [recur, push]
    rw [star_start htokens (.inl rfl), ← hrecur]
    exact parses_component_stars (star_start htokens (.inr rfl)) (tokens_push_ne_nil _ _)
  by_cases hprev : prev = some '/'
  · subst hprev
    refine ⟨fun _ => ?_, fun hnot => absurd (.inr ⟨rfl, .inl rfl⟩) hnot⟩
    rw [star_last htokens, ← recur_recur]
    exact parses_component_stars (star_component htokens) (tokens_recur_ne_nil false htokens)
  · refine ⟨?_, fun _ => ?_⟩
    · rintro (h | ⟨-, h⟩)
      · exact absurd h.length_le (by decide)
      · exact absurd h (not_or_intro hprev htokens)
    · have htakes : p.Takes prev ['*', '*'] '*' subtree (p.star prev subtree.head?).1 :=
        .stars (by rw [star_other htokens hprev houter])
      rw [star_other htokens hprev houter] at htakes ⊢
      exact .cons htakes (parses_subtree _ _)

/-- **Everything below a glob.**  With `/**` after the text, the run ends with the same tokens if
the text ends in a recursive `**`, and with the recursive suffix after them otherwise. -/
theorem Parses.append_subtree (h : Parses p prev cs q) (houter : q.outer = []) :
    (EndsRecursive p prev cs → Parses p prev (cs ++ subtree) q) ∧
      (¬ EndsRecursive p prev cs → Parses p prev (cs ++ subtree) (q.push .recursiveSuffix)) := by
  induction h with
  | nil p prev =>
      refine ⟨?_, fun _ => parses_subtree p prev⟩
      rintro (h | ⟨h, -⟩)
      · exact absurd (List.suffix_nil.mp h) (List.cons_ne_nil _ _)
      · cases h
  | @cons p p' q prev u rest last h hrest ih =>
      obtain ⟨ihsame, ihpush⟩ := ih houter
      by_cases hlook : rest ≠ [] ∨ u ≠ ['*', '*']
      · have htokens : rest = ['*', '*'] → p'.tokens ≠ [] := by
          rintro rfl
          exact h.tokens_ne_nil (hrest.outer_of_stars ▸ houter)
        rw [h.endsRecursive_iff hlook htokens, List.append_assoc]
        have htakes := h.append hlook ['*', '*']
        exact ⟨fun he => .cons htakes (ihsame he), fun he => .cons htakes (ihpush he)⟩
      · -- the text ends with these two stars, and the turn looks at what comes after them
        obtain ⟨hrest', hu⟩ := not_or.mp hlook
        obtain rfl : rest = [] := not_not.mp hrest'
        obtain rfl := hrest.eq_of_nil rfl
        cases h with
        | stars left => exact parses_stars_subtree houter
        | star next => simp at hu
        | component taken => simp at hu
        | charClass h => simp at hu
        | escape => simp at hu
        | single other h => simp at hu

end Parser

/-- **Everything below a glob.** -/
theorem build_subtree {glob : List Char} {ts : List Token} (h : build glob = .ok ts) :
    (glob = ['*', '*'] ∨ subtree <:+ glob → build (glob ++ subtree) = .ok ts) ∧
      (¬ (glob = ['*', '*'] ∨ subtree <:+ glob) →
        build (glob ++ subtree) = .ok (ts ++ [.recursiveSuffix])) := by
  have hends : Parser.start.EndsRecursive none glob ↔ glob = ['*', '*'] ∨ subtree <:+ glob := by
    simp [Parser.EndsRecursive, Parser.start, or_comm]
  obtain ⟨hsame, hpush⟩ := (build_eq_ok_iff.mp h).append_subtree rfl
  rw [hends] at hsame hpush
  exact ⟨fun he => build_eq_ok_iff.mpr (hsame he), fun he => build_eq_ok_iff.mpr (hpush he)⟩

end Glob
end Lib
end Noxy
