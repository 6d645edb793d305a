/-
# How a glob is parsed

`Parses` is the run of the parser as a relation: a turn takes some characters, and which ones and
to what effect is said by `Takes`, once for each kind of turn.  `build_eq_ok_iff` is the
connection with the function.
-/

import Noxy.Lib.Glob

namespace Noxy
namespace Lib
namespace Glob

/-! ### Turns -/

theorem next_eq_none {s : ClassState} {c : Char} (h : s.next c = .ok none) : c = ']' := by
  unfold ClassState.next at h
  split at h
  · rename_i hc
    exact hc.1
  · split at h
    · cases h
    · split at h
      · cases hr : addToLastRange s.ranges c <;> rw [hr] at h <;> cases h
      · cases h

/-- **A class ends with its bracket**, and what comes after it does not matter. -/
theorem parseClass_eq_ok {s : ClassState} {cs rest : List Char} {t : Token}
    (h : parseClass s cs = .ok (t, rest)) :
    ∃ body, cs = body ++ ']' :: rest ∧ (∃ negated ranges, t = .charClass negated ranges) ∧
      ∀ rest', parseClass s (body ++ ']' :: rest') = .ok (t, rest') := by
  induction cs generalizing s with
  | nil => cases h
  | cons c cs ih =>
      rw [parseClass] at h
      cases hnext : s.next c with
      | error e =>
          rw [hnext] at h
          cases h
      | ok next =>
          rw [hnext] at h
          cases next with
          | none =>
              cases h
              obtain rfl := next_eq_none hnext
              refine ⟨[], rfl, ⟨_, _, rfl⟩, fun rest' => ?_⟩
              rw [List.nil_append, parseClass, hnext]
          | some s' =>
              obtain ⟨body, rfl, hclass, hrest⟩ := ih h
              refine ⟨c :: body, rfl, hclass, fun rest' => ?_⟩
              rw [List.cons_append, parseClass, hnext]
              exact hrest rest'

theorem openClass_eq_ok {cs rest : List Char} {t : Token} (h : openClass cs = .ok (t, rest)) :
    ∃ body, cs = body ++ ']' :: rest ∧ (∃ negated ranges, t = .charClass negated ranges) ∧
      ∀ rest', openClass (body ++ ']' :: rest') = .ok (t, rest') := by
  unfold openClass at h
  split at h
  · rename_i hnegated
    cases cs with
    | nil => cases h
    | cons c cs =>
        obtain ⟨body, hcs, hclass, hrest⟩ := parseClass_eq_ok h
        refine ⟨c :: body, congrArg (c :: ·) hcs, hclass, fun rest' => ?_⟩
        have hhead : (c :: body ++ ']' :: rest').head? = (c :: cs).head? := rfl
        rw [openClass, hhead, if_pos hnegated]
        exact hrest rest'
  · rename_i hplain
    obtain ⟨body, rfl, hclass, hrest⟩ := parseClass_eq_ok h
    refine ⟨body, rfl, hclass, fun rest' => ?_⟩
    have hhead : (body ++ ']' :: rest').head? = (body ++ ']' :: rest).head? := by
      cases body <;> rfl
    rw [openClass, hhead, if_neg hplain]
    exact hrest rest'

namespace Parser

/-- **What a turn of the parser takes**, with the last character of it, and to what effect. -/
inductive Takes (p : Parser) (prev : Option Char) :
    List Char → Char → List Char → Parser → Prop
  | star {rest : List Char} (next : rest.head? ≠ some '*') :
      Takes p prev ['*'] '*' rest (p.push .zeroOrMore)
  | stars {rest : List Char} (left : (p.star prev rest.head?).2 = false) :
      Takes p prev ['*', '*'] '*' rest (p.star prev rest.head?).1
  | component {rest : List Char} (taken : (p.star prev (some '/')).2 = true) :
      Takes p prev ['*', '*', '/'] '/' rest (p.star prev (some '/')).1
  | charClass {body rest : List Char} {negated : Bool} {ranges : List (Char × Char)}
      (h : ∀ rest', openClass (body ++ ']' :: rest') = .ok (.charClass negated ranges, rest')) :
      Takes p prev ('[' :: body ++ [']']) ']' rest (p.push (.charClass negated ranges))
  | escape {c : Char} {rest : List Char} : Takes p prev ['\\', c] c rest (p.push (.literal c))
  | single {c : Char} {rest : List Char} {p' : Parser} (other : c ≠ '*' ∧ c ≠ '[' ∧ c ≠ '\\')
      (h : p.single c = .ok p') : Takes p prev [c] c rest p'

theorem peek_of_star {p : Parser} {prev peek : Option Char} (h : (p.star prev peek).2 = true) :
    peek = some '/' := by
  unfold star at h
  split at h
  · split at h
    · rename_i hpeek
      exact hpeek.resolve_left fun hnone => by rw [hnone] at h; cases h
    · cases h
  · split at h
    · cases h
    · split at h
      · cases h
      · split at h
        · assumption
        · cases h

variable {p p' q : Parser} {prev : Option Char} {u rest cs : List Char} {c last : Char}

theorem Takes.ne_nil (h : p.Takes prev u last rest p') : u ≠ [] := by
  cases h <;> exact List.cons_ne_nil _ _

/-- **The body of the loop takes what a turn takes.** -/
theorem step_eq_ok_iff :
    p.step prev c cs = .ok (p', last, rest) ↔
      ∃ u, c :: cs = u ++ rest ∧ p.Takes prev u last rest p' := by
  constructor
  · intro h
    unfold step at h
    split at h
    · rename_i hc
      subst hc
      split at h
      · rename_i cs'
        dsimp only at h
        split at h
        · rename_i htaken
          have hpeek := peek_of_star htaken
          cases cs' with
          | nil => cases hpeek
          | cons c' cs' =>
              obtain rfl : c' = '/' := Option.some.inj hpeek
              cases h
              exact ⟨['*', '*', '/'], rfl, .component htaken⟩
        · rename_i hleft
          cases h
          exact ⟨['*', '*'], rfl, .stars (Bool.eq_false_iff.mpr hleft)⟩
      · rename_i hnext
        cases h
        refine ⟨['*'], rfl, .star fun hhead => ?_⟩
        obtain ⟨cs', hcs⟩ := List.head?_eq_some_iff.mp hhead
        exact hnext cs' hcs
    · split at h
      · rename_i hc
        subst hc
        cases hclass : openClass cs with
        | error e =>
            rw [hclass] at h
            cases h
        | ok r =>
            obtain ⟨t, rest'⟩ := r
            rw [hclass] at h
            cases h
            obtain ⟨body, rfl, ⟨negated, ranges, rfl⟩, hrest⟩ := openClass_eq_ok hclass
            exact ⟨'[' :: body ++ [']'], by simp, .charClass hrest⟩
      · split at h
        · rename_i hc
          subst hc
          split at h
          · cases h
          · cases h
            exact ⟨['\\', _], rfl, .escape⟩
        · rename_i hstar hbracket hescape
          cases hsingle : p.single c with
          | error e =>
              rw [hsingle] at h
              cases h
          | ok p'' =>
              rw [hsingle] at h
              cases h
              exact ⟨[c], rfl, .single ⟨hstar, hbracket, hescape⟩ hsingle⟩
  · rintro ⟨u, hu, h⟩
    cases h with
    | star next =>
        obtain ⟨rfl, rfl⟩ := List.cons.inj hu
        unfold step
        rw [if_pos rfl]
        split
        · exact absurd rfl next
        · rfl
    | stars left =>
        obtain ⟨rfl, rfl⟩ := List.cons.inj hu
        simp [step, left]
    | component taken =>
        obtain ⟨rfl, rfl⟩ := List.cons.inj hu
        simp [step, taken]
    | charClass h =>
        obtain ⟨rfl, rfl⟩ := List.cons.inj hu
        have hclass := h rest
        simp [step, hclass, Except.map]
    | escape =>
        obtain ⟨rfl, rfl⟩ := List.cons.inj hu
        rfl
    | single other h =>
        obtain ⟨rfl, rfl⟩ := List.cons.inj hu
        simp [step, other, h, Except.map]

/-- **A run of the parser.** -/
inductive Parses : Parser → Option Char → List Char → Parser → Prop
  | nil (p : Parser) (prev : Option Char) : Parses p prev [] p
  | cons {p p' q : Parser} {prev : Option Char} {u rest : List Char} {last : Char}
      (h : p.Takes prev u last rest p') (hrest : Parses p' (some last) rest q) :
      Parses p prev (u ++ rest) q

theorem Parses.eq_of_nil (h : Parses p prev cs q) (hcs : cs = []) : q = p := by
  cases h with
  | nil => rfl
  | cons h _ => exact absurd (List.append_eq_nil_iff.mp hcs).1 h.ne_nil

theorem parses_cons_iff :
    Parses p prev (c :: cs) q ↔
      ∃ p' last rest, p.step prev c cs = .ok (p', last, rest) ∧ Parses p' (some last) rest q := by
  constructor
  · intro h
    generalize htext : c :: cs = text at h
    cases h with
    | nil => cases htext
    | cons h hrest => exact ⟨_, _, _, step_eq_ok_iff.mpr ⟨_, htext, h⟩, hrest⟩
  · rintro ⟨p', last, rest, hstep, hrest⟩
    obtain ⟨u, htext, h⟩ := step_eq_ok_iff.mp hstep
    rw [htext]
    exact .cons h hrest

/-- A turn takes at least one character. -/
theorem length_rest_le (h : p.step prev c cs = .ok (p', last, rest)) :
    rest.length ≤ cs.length := by
  obtain ⟨u, htext, h⟩ := step_eq_ok_iff.mp h
  have hlength := congrArg List.length htext
  have hpos := List.length_pos_iff.mpr h.ne_nil
  rw [List.length_cons, List.length_append] at hlength
  omega

theorem parse_eq_ok_iff {turns : ℕ} (hturns : cs.length ≤ turns) :
    p.parse turns prev cs = .ok q ↔ Parses p prev cs q := by
  induction turns generalizing p prev cs with
  | zero =>
      obtain rfl := List.length_eq_zero_iff.mp (Nat.le_zero.mp hturns)
      constructor
      · intro h
        cases h
        exact .nil _ prev
      · intro h
        rw [h.eq_of_nil rfl]
        rfl
  | succ turns ih =>
      cases cs with
      | nil =>
          constructor
          · intro h
            cases h
            exact .nil _ prev
          · intro h
            rw [h.eq_of_nil rfl]
            rfl
      | cons c cs =>
          rw [parse, parses_cons_iff]
          constructor
          · intro h
            cases hstep : p.step prev c cs with
            | error e =>
                rw [hstep] at h
                cases h
            | ok r =>
                obtain ⟨p', last, rest⟩ := r
                rw [hstep] at h
                have hrest := (length_rest_le hstep).trans (Nat.le_of_succ_le_succ hturns)
                exact ⟨p', last, rest, rfl, (ih hrest).mp h⟩
          · rintro ⟨p', last, rest, hstep, h⟩
            have hrest := (length_rest_le hstep).trans (Nat.le_of_succ_le_succ hturns)
            rw [hstep]
            exact (ih hrest).mpr h

end Parser

/-- **Building a glob** is a run of the parser that leaves no group open. -/
theorem build_eq_ok_iff {glob : List Char} {ts : List Token} :
    build glob = .ok ts ↔ Parser.Parses .start none glob ⟨ts, []⟩ := by
  rw [build, ← Parser.parse_eq_ok_iff (Nat.le_refl _)]
  cases Parser.start.parse glob.length none glob with
  | error e => simp
  | ok p =>
      obtain ⟨tokens, outer⟩ := p
      cases outer <;> simp

end Glob
end Lib
end Noxy
