/-
# Path patterns that end in a slash

`src/config.rs`: `compile_path_glob` and `PathMatcher::is_match`.  A pattern with a slash at its
end is meant for a path and everything below it.  Everything below it is the glob with `/**` at
its end, but the path itself is compared with the text of the pattern.

`globset` is the crate's glob matching.  Comparing with the text is right for a pattern that is
literal, and for `**`; for one that ends in `/**` if it matches its own text; and for no other
(`trailing_slash_subtree_iff`).  A pattern that is not literal matches, beside its own text, a
path with as many slashes, and that path is then left out.
-/

import Noxy.Config.Match
import Noxy.Lib.GlobSubtree
import Noxy.Lib.GlobWidth

namespace Noxy
namespace Config

open Lib Lib.Glob

/-- The text of `ErrorKind`. -/
def globErrorText : Glob.Error → String
  | .unclosedClass => "unclosed character class; missing ']'"
  | .invalidRange lo hi => s!"invalid range; '{lo}' > '{hi}'"
  | .unopenedAlternates =>
      "unopened alternate group; missing '\x7b' (maybe escape '\x7d' with '[\x7d]'?)"
  | .unclosedAlternates =>
      "unclosed alternate group; missing '\x7d' (maybe escape '\x7b' with '[\x7b]'?)"
  | .danglingEscape => "dangling '\\'"

/-- `GlobMatcher::is_match`. -/
def matcher (tokens : List Token) (path : String) : Bool :=
  (toPattern tokens).isMatch (textBytes path.toList)

/-- `GlobBuilder::new(pattern).literal_separator(true).build()?.compile_matcher()`. -/
def globset (pattern : String) : Except String (String → Bool) :=
  match build pattern.toList with
  | .error e => .error s!"error parsing glob '{pattern}': {globErrorText e}"
  | .ok tokens => .ok (matcher tokens)

/-! ### A glob and its own text -/

section Text

variable {glob cs : List Char} {ts : List Token}

/-- No character of the text has a meaning of its own in a glob. -/
def Literal (glob : List Char) : Prop := ∀ c ∈ glob, isSpecial c = false ∧ c ≠ '?'

theorem literal_of_all (h : (glob.all fun c => !isSpecial c && c != '?') = true) :
    Literal glob := by
  simpa [Literal] using h

/-- The tokens match the text. -/
def Matched (ts : List Token) (cs : List Char) : Prop := (whole ts).Matches (textBytes cs)

/-- The text is below one that the tokens match. -/
def Below (ts : List Token) (cs : List Char) : Prop :=
  ∃ cs₁ cs₂, cs = cs₁ ++ '/' :: cs₂ ∧ Matched ts cs₁

/-- The number of separators. -/
def slashes (cs : List Char) : ℕ := (textBytes cs).count slash

theorem matches_subtree :
    (whole (ts ++ [.recursiveSuffix])).Matches (textBytes cs) ↔ Below ts cs := by
  rw [matches_suffix]
  constructor
  · rintro ⟨u, v, hcs, hu⟩
    obtain ⟨cs₁, cs₂, rfl, rfl, rfl⟩ := split_at_ascii (c := '/') (by decide) rfl hcs
    exact ⟨cs₁, cs₂, rfl, hu⟩
  · rintro ⟨cs₁, cs₂, rfl, h⟩
    exact ⟨textBytes cs₁, textBytes cs₂, textBytes_append .., h⟩

theorem slashes_below {cs₁ cs₂ : List Char} :
    slashes (cs₁ ++ '/' :: cs₂) = slashes cs₁ + slashes cs₂ + 1 := by
  have hslash : charBytes '/' = [slash] := rfl
  rw [slashes, textBytes_append, textBytes_cons, hslash, List.count_append, List.count_append,
    List.count_singleton_self, slashes, slashes]
  omega

/-- **A glob that is compared with its text** matches nothing else with as few slashes. -/
theorem eq_of_matched (h : ∀ cs, Matched ts cs → cs = glob ∨ Below ts cs)
    (hcs : Matched ts cs) :
    slashes glob ≤ slashes cs ∧ (slashes cs = slashes glob → cs = glob) := by
  induction hn : slashes cs using Nat.strong_induction_on generalizing cs with
  | _ n ih =>
    rcases h cs hcs with rfl | ⟨cs₁, cs₂, rfl, h₁⟩
    · exact ⟨hn.le, fun _ => rfl⟩
    · rw [slashes_below] at hn
      have hle := (ih (slashes cs₁) (by omega) h₁ rfl).1
      exact ⟨by omega, fun heq => by omega⟩

theorem matches_tokenOf (c : Char) :
    (tokenOf c).whole.Matches (charBytes (if c = '?' then 'a' else c)) := by
  unfold tokenOf
  split
  · exact ⟨97, rfl, rfl⟩
  · exact matches_literal.mpr rfl

/-- A text in which a letter stands for every question mark. -/
def filled (glob : List Char) : List Char := glob.map fun c => if c = '?' then 'a' else c

theorem matched_filled (glob : List Char) : Matched (glob.map tokenOf) (filled glob) := by
  induction glob with
  | nil => rfl
  | cons c glob ih =>
      exact matches_cons.mpr ⟨_, _, textBytes_cons .., matches_tokenOf c, ih⟩

theorem slashes_filled (glob : List Char) : slashes (filled glob) = slashes glob := by
  induction glob with
  | nil => rfl
  | cons c glob ih =>
      unfold slashes at ih
      rw [filled, List.map_cons, slashes, slashes, textBytes_cons, textBytes_cons,
        List.count_append, List.count_append, ← ih]
      split
      · rename_i hc
        rw [hc]
        rfl
      · rfl

/-- **Only a literal text can be compared with its glob.** -/
theorem literal_of_matched (hbuild : build glob = .ok ts)
    (h : ∀ cs, Matched ts cs → cs = glob ∨ Below ts cs) (hself : Matched ts glob ∨ Below ts glob) :
    Literal glob := by
  have hself : Matched ts glob := by
    rcases hself with hself | ⟨cs₁, cs₂, rfl, h₁⟩
    · exact hself
    · have hle := (eq_of_matched h h₁).1
      rw [slashes_below] at hle
      omega
  rcases Pattern.matches_width_or_stretch (repeats_whole ts) hself with hshort | ⟨x, y, hxy, hmore⟩
  · rcases build_narrow_or_plain hbuild with hwidth | ⟨hplain, rfl⟩
    · exact absurd hshort (Nat.not_le.mpr hwidth)
    · have hfilled : filled glob = glob :=
        (eq_of_matched h (matched_filled glob)).2 (slashes_filled glob)
      intro c hc
      refine ⟨hplain c hc, fun hmark => ?_⟩
      have hsame := List.map_eq_map_iff.mp (hfilled.trans (List.map_id glob).symm) c hc
      rw [if_pos hmark, hmark] at hsame
      exact absurd hsame (by decide)
  · -- more bytes can be put in, and they are still those of a text
    obtain ⟨more, hne, hno, cs, hcs⟩ :=
      exists_insert (b := slash) (d := 'a') (by decide) (by decide) hxy
    have hfree : ∀ b ∈ more, b ≠ slash := fun b hb hslash => hno (hslash ▸ hb)
    have hmatched : Matched ts cs := by
      rw [Matched, hcs]
      exact hmore more hfree
    have hslashes : slashes cs = slashes glob := by
      rw [slashes, slashes, hcs, hxy]
      simp [List.count_eq_zero_of_not_mem hno]
    have heq := (eq_of_matched h hmatched).2 hslashes
    have hlength := congrArg List.length (hcs.symm.trans (heq ▸ hxy))
    have := List.length_pos_of_ne_nil hne
    rw [List.length_append, List.length_append, List.length_append] at hlength
    omega

theorem not_below_of_slashes (hcs : slashes cs = 0) : ¬ Below ts cs := by
  rintro ⟨cs₁, cs₂, rfl, -⟩
  rw [slashes_below] at hcs
  cases hcs

theorem build_of_literal (h : Literal glob) : build glob = .ok (glob.map .literal) := by
  rw [build_plain fun c hc => (h c hc).1]
  exact congrArg _ (List.map_congr_left fun c hc => if_neg (h c hc).2)

theorem toPattern_literals (glob : List Char) :
    toPattern (glob.map .literal) = whole (glob.map .literal) := by
  refine toPattern_eq_whole fun h => ?_
  cases glob with
  | nil => cases h
  | cons c glob => cases h

theorem matched_literals : Matched (glob.map .literal) cs ↔ cs = glob :=
  matches_literals.trans ⟨textBytes_injective, congrArg textBytes⟩

theorem below_literals : Below (glob.map .literal) cs ↔ glob ++ ['/'] <+: cs := by
  constructor
  · rintro ⟨cs₁, cs₂, rfl, h⟩
    rw [matched_literals.mp h]
    exact ⟨cs₂, List.append_assoc ..⟩
  · rintro ⟨cs₂, rfl⟩
    exact ⟨glob, cs₂, List.append_assoc .., matched_literals.mpr rfl⟩

/-- **The text in the place of the glob** is right for literal texts only, beside what is below
the glob. -/
theorem text_or_below_iff (hbuild : build glob = .ok ts) :
    (∀ cs, cs = glob ∨ Below ts cs ↔ (toPattern ts).Matches (textBytes cs) ∨ Below ts cs) ↔
      Literal glob := by
  constructor
  · intro h
    by_cases hts : ts = [.recursivePrefix]
    · -- such a glob matches both `a` and `b`
      subst hts
      have hall : ∀ cs, slashes cs = 0 → cs = glob := fun cs hcs =>
        ((h cs).mpr (.inl fun _ _ => rfl)).resolve_right (not_below_of_slashes hcs)
      exact absurd ((hall ['a'] rfl).trans (hall ['b'] rfl).symm) (by decide)
    · rw [toPattern_eq_whole hts] at h
      exact literal_of_matched hbuild (fun cs hcs => (h cs).mpr (.inl hcs)) ((h glob).mp (.inl rfl))
  · intro h cs
    obtain rfl : glob.map .literal = ts := Except.ok.inj ((build_of_literal h).symm.trans hbuild)
    rw [toPattern_literals]
    exact or_congr_left matched_literals.symm

end Text

/-! ### Patterns -/

theorem globset_eq_ok_iff {pattern : String} {g : String → Bool} :
    globset pattern = .ok g ↔ ∃ ts, build pattern.toList = .ok ts ∧ matcher ts = g := by
  unfold globset
  cases build pattern.toList with
  | error e => simp
  | ok ts => simp

theorem matcher_iff {ts : List Token} {s : String} :
    matcher ts s = true ↔ (toPattern ts).Matches (textBytes s.toList) := Pattern.isMatch_iff

theorem matcher_subtree_iff {ts : List Token} {s : String} :
    matcher (ts ++ [.recursiveSuffix]) s = true ↔ Below ts s.toList := by
  have hne : ts ++ [Token.recursiveSuffix] ≠ [.recursivePrefix] := fun h =>
    absurd ((List.getLast?_concat (l := ts)).symm.trans (congrArg List.getLast? h)) (by simp)
  rw [matcher_iff, toPattern_eq_whole hne, matches_subtree]

theorem stripSlash_append (P : String) : stripSlash (P ++ "/") = some P := by
  have hlist : (P ++ "/").toList = P.toList ++ ['/'] := String.toList_append ..
  rw [stripSlash, hlist, if_pos List.getLast?_concat, List.dropLast_concat, String.ofList_toList]

theorem compile_subtree {C : Crates} (hC : ∀ pattern, C.glob pattern = globset pattern)
    {P : String} {ts : List Token} (h : build (P.toList ++ subtree) = .ok ts) :
    compilePathGlob C (P ++ "/") = .ok (.subtree P (matcher ts)) ∧
      compileGlob C (P ++ "/**") = .ok (matcher ts) := by
  have hglob : compileGlob C (P ++ "/**") = .ok (matcher ts) := by
    rw [compileGlob, hC, globset_eq_ok_iff, String.toList_append]
    exact ⟨ts, h, rfl⟩
  refine ⟨?_, hglob⟩
  rw [compilePathGlob, stripSlash_append]
  dsimp only
  rw [hglob]
  rfl

theorem isMatch_subtree_iff {P s : String} {g : String → Bool} :
    (PathMatcher.subtree P g).isMatch s = true ↔ s = P ∨ g s = true := by
  simp [PathMatcher.isMatch]

theorem not_literal_of_recursive {P : String}
    (h : P.toList = ['*', '*'] ∨ subtree <:+ P.toList) : ¬ Literal P.toList := by
  have hstar : '*' ∈ P.toList := by
    rcases h with h | h
    · rw [h]
      decide
    · exact h.subset (by decide)
  exact fun hliteral => absurd (hliteral '*' hstar).1 (by decide)

/-- **A pattern with a slash at its end** compiles if the pattern does, and stands for what the
pattern matches and everything below it exactly for a literal text, for `**`, and for a glob that
ends in `/**` and matches its own text.  For a literal text that is the text and what starts with
it and a slash. -/
theorem trailing_slash_subtree_iff {C : Crates} (hC : ∀ pattern, C.glob pattern = globset pattern)
    {P : String} {g : String → Bool} (hP : compileGlob C P = .ok g) :
    ∃ m gs, compilePathGlob C (P ++ "/") = .ok m ∧ compileGlob C (P ++ "/**") = .ok gs ∧
      ((∀ s, m.isMatch s = true ↔ g s = true ∨ gs s = true) ↔
        Literal P.toList ∨ P = "**" ∨ "/**".toList <:+ P.toList ∧ g P = true) ∧
      (Literal P.toList → ∀ s, m.isMatch s = true ↔ s = P ∨ (P ++ "/").toList <+: s.toList) := by
  rw [compileGlob, hC, globset_eq_ok_iff] at hP
  obtain ⟨ts, hbuild, rfl⟩ := hP
  have hstars : P = "**" ↔ P.toList = ['*', '*'] := String.toList_inj.symm
  obtain ⟨hsame, hpush⟩ := build_subtree hbuild
  by_cases hends : P.toList = ['*', '*'] ∨ subtree <:+ P.toList
  · -- everything below is what the glob matches, so the text has to be among it
    obtain ⟨hm, hgs⟩ := compile_subtree hC (hsame hends)
    have hliteral := not_literal_of_recursive hends
    refine ⟨_, _, hm, hgs, ⟨fun h => ?_, fun h s => ?_⟩, fun h => absurd h hliteral⟩
    · have hself : matcher ts P = true :=
        or_self_iff.mp ((h P).mp (isMatch_subtree_iff.mpr (.inl rfl)))
      rcases hends with hends | hends
      · exact .inr (.inl (hstars.mpr hends))
      · exact .inr (.inr ⟨hends, hself⟩)
    · have hself : matcher ts P = true := by
        rcases h with h | h | h
        · exact absurd h hliteral
        · subst h
          obtain rfl : [Token.recursivePrefix] = ts := Except.ok.inj hbuild
          exact matcher_iff.mpr fun _ _ => rfl
        · exact h.2
      rw [isMatch_subtree_iff, or_self_iff]
      exact or_iff_right_of_imp fun h => h ▸ hself
  · obtain ⟨hm, hgs⟩ := compile_subtree hC (hpush hends)
    have hmatch : ∀ s, (PathMatcher.subtree P (matcher (ts ++ [.recursiveSuffix]))).isMatch s =
        true ↔ s.toList = P.toList ∨ Below ts s.toList := fun s => by
      rw [isMatch_subtree_iff, matcher_subtree_iff, String.toList_inj]
    refine ⟨_, _, hm, hgs, ?_, fun hliteral s => ?_⟩
    · have hother : ¬ (P = "**" ∨ "/**".toList <:+ P.toList ∧ matcher ts P = true) := fun h =>
        hends (h.imp hstars.mp And.left)
      rw [or_iff_left hother, ← text_or_below_iff hbuild]
      simp only [hmatch, matcher_subtree_iff, @matcher_iff ts]
      exact ⟨fun h cs => by simpa using h (String.ofList cs), fun h s => h s.toList⟩
    · obtain rfl : P.toList.map .literal = ts :=
        Except.ok.inj ((build_of_literal hliteral).symm.trans hbuild)
      rw [hmatch, below_literals, String.toList_inj, String.toList_append]
      rfl

/-- Crates with the globs of `globset`. -/
def Crates.globs : Crates := { Crates.plain with glob := globset }

/-- `/v1/` matches what `/v1` and `/v1/**` match. -/
theorem trailing_slash_subtree_v1 : ∃ g m gs, compileGlob .globs "/v1" = .ok g ∧
    compilePathGlob .globs "/v1/" = .ok m ∧ compileGlob .globs "/v1/**" = .ok gs ∧
    ∀ s, m.isMatch s = true ↔ g s = true ∨ gs s = true := by
  obtain ⟨m, gs, hm, hgs, hiff, -⟩ :=
    trailing_slash_subtree_iff (C := .globs) (P := "/v1") (fun _ => rfl) rfl
  exact ⟨_, m, gs, rfl, hm, hgs, hiff.mpr (.inl (literal_of_all (by decide)))⟩

/-- **A glob is not compared as a glob.**  `/v1` is matched by `/v*`, but not by `/v*/`. -/
theorem trailing_slash_wildcard : ∃ g m gs, compileGlob .globs "/v*" = .ok g ∧
    compilePathGlob .globs "/v*/" = .ok m ∧ compileGlob .globs "/v*/**" = .ok gs ∧
    g "/v1" = true ∧ m.isMatch "/v1" = false :=
  ⟨_, _, _, rfl, rfl, rfl, by decide, by decide⟩

end Config
end Noxy
