/-
# Rules that fit a path

What a rule makes of a path has the characters of its template, or of its replacement text, and of
the parts of the path that it captured.  `rewrite_uri` in `src/middleware/url_rewrite.rs` unwraps
what the `http` crate makes of it, and neither rule is looked at when it is made.

The characters of a path are those of a query, with one exception: the quotation mark.  So what
the path brings in is refused only behind a question mark of the template, and only for that
character.  `RewriteRule.Fits` says this of a rule and a path, and exactly then the new path is
accepted (`accepted_rewrite_iff`).
-/

import Noxy.UrlRewrite.Rule

namespace Noxy
namespace UrlRewrite

open Http

/-- **A path's character in a query.** -/
theorem isQueryChar_of_isPathChar {c : Char} (h : isPathChar c = true) (hne : c ≠ '"') :
    isQueryChar c = true := by
  by_cases hopen : c = '\x7b'
  · subst hopen
    rfl
  by_cases hclose : c = '\x7d'
  · subst hclose
    rfl
  simp only [isPathChar, isQueryChar, Bool.or_eq_true, Bool.and_eq_true, beq_iff_eq,
    decide_eq_true_eq] at h ⊢
  simp only [hne, hopen, hclose, or_false] at h
  omega

/-! ### Filling a template -/

theorem mem_fill {params : List (String × String)} {cs : List Char} {c : Char}
    (h : c ∈ fill params cs) : c ∈ cs ∨ ∃ p ∈ params, c ∈ p.2.toList := by
  induction params generalizing cs with
  | nil => exact .inl h
  | cons p params ih =>
      rcases ih h with h | ⟨p', hp', hc⟩
      · rcases Lib.mem_replace h with h | h
        · exact .inr ⟨p, List.mem_cons_self, h⟩
        · exact .inl h
      · exact .inr ⟨p', List.mem_cons_of_mem _ hp', hc⟩

theorem mem_fill_of_mem {params : List (String × String)} {cs : List Char} {c : Char}
    (h : c ∈ cs) (hc : ∀ p ∈ params, c ∉ placeholder p.1) : c ∈ fill params cs := by
  induction params generalizing cs with
  | nil => exact h
  | cons p params ih =>
      obtain ⟨hp, hparams⟩ := List.forall_mem_cons.mp hc
      exact ih (Lib.mem_replace_of_mem (r := paramRule p) h hp) hparams

theorem mem_fill_iff {params : List (String × String)} {c : Char}
    (hname : ∀ p ∈ params, c ∉ placeholder p.1) (hvalue : ∀ p ∈ params, c ∉ p.2.toList)
    (cs : List Char) : c ∈ fill params cs ↔ c ∈ cs := by
  refine ⟨fun h => (mem_fill h).resolve_right ?_, fun h => mem_fill_of_mem h hname⟩
  rintro ⟨p, hp, hc⟩
  exact hvalue p hp hc

/-- **A sign that no placeholder has** keeps apart what is on its two sides. -/
theorem fill_append_cons {params : List (String × String)} {m : Char}
    (hm : ∀ p ∈ params, m ∉ placeholder p.1) (text rest : List Char) :
    fill params (text ++ m :: rest) = fill params text ++ m :: fill params rest := by
  induction params generalizing text rest with
  | nil => rfl
  | cons p params ih =>
      obtain ⟨hp, hparams⟩ := List.forall_mem_cons.mp hm
      rw [fill_cons, Lib.replace_append_cons (r := paramRule p) hp, ih hparams]
      rfl

/-- The values of a path in a template: names and braces are characters of paths and of queries,
and values are characters of paths. -/
structure PlainParams (params : List (String × String)) : Prop where
  name : ∀ p ∈ params, ∀ c ∈ placeholder p.1, isPathChar c = true ∧ isQueryChar c = true
  value : ∀ p ∈ params, ∀ c ∈ p.2.toList, isPathChar c = true

/-- A value with a quotation mark is put into the text. -/
def BringsQuote : List (String × String) → List Char → Prop
  | [], _ => False
  | p :: params, text =>
      ('"' ∈ p.2.toList ∧ placeholder p.1 <:+: text) ∨
        BringsQuote params (Lib.replace (paramRule p) text)

/-- A quotation mark of the text is one of the template or of a value in it. -/
theorem quote_of_mem_fill {params : List (String × String)} {cs : List Char}
    (h : '"' ∈ fill params cs) : '"' ∈ cs ∨ BringsQuote params cs := by
  induction params generalizing cs with
  | nil => exact .inl h
  | cons p params ih =>
      rw [fill_cons] at h
      rcases ih h with h | h
      · by_cases hin : placeholder p.1 <:+: cs
        · rcases Lib.mem_replace h with h | h
          · exact .inr (.inl ⟨h, hin⟩)
          · exact .inl h
        · have hsame : Lib.replace (paramRule p) cs = cs := Lib.replace_of_absent hin
          rw [hsame] at h
          exact .inl h
      · exact .inr (.inr h)

/-- A value's quotation mark stays. -/
theorem quote_mem_fill {params : List (String × String)} {cs : List Char}
    (hname : ∀ p ∈ params, '"' ∉ placeholder p.1) (h : BringsQuote params cs) :
    '"' ∈ fill params cs := by
  induction params generalizing cs with
  | nil => exact h.elim
  | cons p params ih =>
      obtain ⟨-, hparams⟩ := List.forall_mem_cons.mp hname
      rw [fill_cons]
      rcases h with ⟨hquote, hin⟩ | h
      · have hvalue : '"' ∈ Lib.replace (paramRule p) cs :=
          (Lib.value_infix_replace (r := paramRule p) hin).subset hquote
        exact mem_fill_of_mem hvalue hparams
      · exact ih hparams h

section Plain

variable {params : List (String × String)} (hparams : PlainParams params)
include hparams

theorem not_mem_placeholder_of_isMark {c : Char} (hc : isMark c = true) :
    ∀ p ∈ params, c ∉ placeholder p.1 := fun p hp hmem => by
  have hfalse := isMark_of_isPathChar (hparams.name p hp c hmem).1
  rw [hc] at hfalse
  cases hfalse

/-- A sign of the text is one of the template. -/
theorem mem_fill_iff_of_isMark {c : Char} (hc : isMark c = true) (cs : List Char) :
    c ∈ fill params cs ↔ c ∈ cs := by
  refine mem_fill_iff (not_mem_placeholder_of_isMark hparams hc) (fun p hp hmem => ?_) cs
  have hfalse := isMark_of_isPathChar (hparams.value p hp c hmem)
  rw [hc] at hfalse
  cases hfalse

theorem isPathChar_fill_iff (cs : List Char) :
    (∀ c ∈ fill params cs, isPathChar c = true) ↔ ∀ c ∈ cs, isPathChar c = true := by
  constructor
  · intro h c hc
    by_contra hnot
    exact hnot (h c (mem_fill_of_mem hc fun p hp hmem => hnot (hparams.name p hp c hmem).1))
  · intro h c hc
    rcases mem_fill hc with hc | ⟨p, hp, hc⟩
    · exact h c hc
    · exact hparams.value p hp c hc

theorem isQueryChar_fill_iff (cs : List Char) :
    (∀ c ∈ fill params cs, isQueryChar c = true) ↔
      (∀ c ∈ cs, isQueryChar c = true) ∧ ¬ BringsQuote params cs := by
  constructor
  · intro h
    have hname : ∀ p ∈ params, '"' ∉ placeholder p.1 := fun p hp hmem =>
      absurd (hparams.name p hp _ hmem).2 (by decide)
    refine ⟨fun c hc => ?_, fun hbrings => absurd (h _ (quote_mem_fill hname hbrings)) (by decide)⟩
    by_contra hnot
    exact hnot (h c (mem_fill_of_mem hc fun p hp hmem => hnot (hparams.name p hp c hmem).2))
  · rintro ⟨hcs, hbrings⟩ c hc
    by_cases hquote : c = '"'
    · subst hquote
      exact hcs _ ((quote_of_mem_fill hc).resolve_right hbrings)
    · rcases mem_fill hc with hc | ⟨p, hp, hc⟩
      · exact hcs c hc
      · exact isQueryChar_of_isPathChar (hparams.value p hp c hc) hquote

/-- The first sign of the template is that of the text. -/
theorem front_back_fill (cs : List Char) :
    front (fill params cs) = fill params (front cs) ∧
      (back cs = [] ∧ back (fill params cs) = [] ∨
        ∃ m own, back cs = m :: own ∧ back (fill params cs) = m :: fill params own) := by
  have hpath : ∀ c ∈ fill params (front cs), isMark c = false := by
    intro c hc
    by_contra hmark
    rw [Bool.not_eq_false] at hmark
    have hmem := (mem_fill_iff_of_isMark hparams hmark (front cs)).mp hc
    rw [isMark_of_mem_front hmem] at hmark
    cases hmark
  have hsplit : fill params cs = fill params (front cs ++ back cs) := by rw [front_append_back]
  have hsign : ∀ {m : Char} {own : List Char}, isMark m = true → back cs = m :: own →
      front (fill params cs) = fill params (front cs) ∧
        back (fill params cs) = m :: fill params own := by
    intro m own hm hback
    rw [hsplit, hback, fill_append_cons (not_mem_placeholder_of_isMark hparams hm),
      front_append hpath, back_append hpath, front_mark hm, back_mark hm, List.append_nil]
    exact ⟨rfl, rfl⟩
  rcases back_cases cs with hback | ⟨own, hback⟩ | ⟨rest, hback⟩
  · rw [hback, List.append_nil] at hsplit
    have hnone := back_eq_nil_iff.mpr hpath
    have hfront := front_append_back (fill params (front cs))
    rw [hnone, List.append_nil] at hfront
    rw [hsplit]
    exact ⟨hfront, .inl ⟨hback, hnone⟩⟩
  · exact ⟨(hsign rfl hback).1, .inr ⟨_, own, hback, (hsign rfl hback).2⟩⟩
  · exact ⟨(hsign rfl hback).1, .inr ⟨_, rest, hback, (hsign rfl hback).2⟩⟩

theorem withoutFragment_fill (cs : List Char) :
    withoutFragment (fill params cs) = fill params (withoutFragment cs) := by
  have hhash : ∀ text, '#' ∈ fill params text ↔ '#' ∈ text :=
    mem_fill_iff_of_isMark hparams rfl
  by_cases h : '#' ∈ cs
  · obtain ⟨start, rest, rfl, hstart⟩ := List.eq_append_cons_of_mem h
    rw [fill_append_cons (not_mem_placeholder_of_isMark hparams rfl),
      withoutFragment_append (mt (hhash start).mp hstart), withoutFragment_append hstart]
    change fill params start ++ [] = fill params (start ++ [])
    rw [List.append_nil, List.append_nil]
  · rw [withoutFragment_eq_self h, withoutFragment_eq_self (mt (hhash cs).mp h)]

end Plain

/-! ### Which rules fit -/

/-- A template fits values: it has the characters of a path, and those of a query from its
question mark to a hash, where no value brings in a quotation mark.  If the path before the
question mark has 65535 bytes, or 65536 more than that, the query is not looked at. -/
structure TemplateFits (params : List (String × String)) (template : List Char) : Prop where
  path : ∀ c ∈ front template, isPathChar c = true
  query : ∀ own, back template = '?' :: own →
    (Lib.textBytes (fill params (front template))).length % 65536 = 65535 ∨
      (∀ c ∈ withoutFragment own, isQueryChar c = true) ∧
        ¬ BringsQuote params (withoutFragment own)

theorem scanPath_fill_iff {params : List (String × String)} (hparams : PlainParams params)
    (template : List Char) :
    scanPath 0 (fill params template) = true ↔ TemplateFits params template := by
  obtain ⟨hfront, hback⟩ := front_back_fill hparams template
  rw [scanPath_iff, hfront, isPathChar_fill_iff hparams, Nat.zero_add]
  constructor
  · rintro ⟨hpath, hquery⟩
    refine ⟨hpath, fun own hown => ?_⟩
    rcases hback with ⟨hnone, -⟩ | ⟨m, own', hmark, hfilled⟩
    · rw [hnone] at hown
      cases hown
    · obtain ⟨rfl, rfl⟩ := List.cons.inj (hmark.symm.trans hown)
      rw [← isQueryChar_fill_iff hparams, ← withoutFragment_fill hparams]
      exact hquery _ hfilled
  · rintro ⟨hpath, hquery⟩
    refine ⟨hpath, fun own hown => ?_⟩
    rcases hback with ⟨-, hnone⟩ | ⟨m, own', hmark, hfilled⟩
    · rw [hnone] at hown
      cases hown
    · obtain ⟨rfl, rfl⟩ := List.cons.inj (hfilled.symm.trans hown)
      rw [withoutFragment_fill hparams, isQueryChar_fill_iff hparams]
      exact hquery _ hmark

/-- A replacement text fits a match: it has the characters of a path, and those of a query from
its question mark to a hash, where neither a group nor what follows the match brings in a
quotation mark. -/
structure Match.Fits (m : Match) (replacement : String) : Prop where
  path : ∀ c, .char c ∈ frontPieces (pieces replacement) → isPathChar c = true
  query : ∀ own, backPieces (pieces replacement) = .char '?' :: own →
    (Lib.textBytes (m.before.toList ++
        m.fillAll (frontPieces (pieces replacement)))).length % 65536 = 65535 ∨
      (∀ c, .char c ∈ withoutHash own → isQueryChar c = true) ∧
        (∀ name v, .group name ∈ withoutHash own → m.group name = some v → '"' ∉ v.toList) ∧
        (.char '#' ∈ own ∨ '"' ∉ m.after.toList)

/-- The parts of a match have the characters of a path. -/
structure Match.Scanned (m : Match) : Prop where
  before : ∀ c ∈ m.before.toList, isPathChar c = true
  after : ∀ c ∈ m.after.toList, isPathChar c = true
  group : ∀ name v, m.group name = some v → ∀ c ∈ v.toList, isPathChar c = true

namespace Match

variable {m : Match} (hm : m.Scanned)
include hm

theorem unmarked_of_scanned : m.Unmarked where
  before c hc := isMark_of_isPathChar (hm.before c hc)
  after c hc := isMark_of_isPathChar (hm.after c hc)
  group name v hv c hc := isMark_of_isPathChar (hm.group name v hv c hc)

theorem isPathChar_fillAll_iff (ps : List Piece) :
    (∀ c ∈ m.fillAll ps, isPathChar c = true) ↔ ∀ c, .char c ∈ ps → isPathChar c = true := by
  refine ⟨fun h c hc => h c (m.mem_fillAll_iff.mpr (.inl hc)), fun h c hc => ?_⟩
  rcases m.mem_fillAll_iff.mp hc with hp | ⟨name, v, -, hv, hc⟩
  · exact h c hp
  · exact hm.group name v hv c hc

theorem isQueryChar_fillAll_iff (ps : List Piece) :
    (∀ c ∈ m.fillAll ps, isQueryChar c = true) ↔
      (∀ c, .char c ∈ ps → isQueryChar c = true) ∧
        ∀ name v, .group name ∈ ps → m.group name = some v → '"' ∉ v.toList := by
  constructor
  · intro h
    refine ⟨fun c hc => h c (m.mem_fillAll_iff.mpr (.inl hc)), fun name v hp hv hquote => ?_⟩
    exact absurd (h _ (m.mem_fillAll_iff.mpr (.inr ⟨name, v, hp, hv, hquote⟩))) (by decide)
  · rintro ⟨hchar, hgroup⟩ c hc
    rcases m.mem_fillAll_iff.mp hc with hp | ⟨name, v, hp, hv, hc⟩
    · exact hchar c hp
    · exact isQueryChar_of_isPathChar (hm.group name v hv c hc) fun heq =>
        hgroup name v hp hv (heq ▸ hc)

theorem isQueryChar_after_iff :
    (∀ c ∈ m.after.toList, isQueryChar c = true) ↔ '"' ∉ m.after.toList :=
  ⟨fun h hquote => absurd (h _ hquote) (by decide), fun h c hc =>
    isQueryChar_of_isPathChar (hm.after c hc) fun heq => h (heq ▸ hc)⟩

/-- What is behind the question mark of a replacement text is a query. -/
theorem isQueryChar_own_iff (own : List Piece) :
    (∀ c ∈ withoutFragment (m.fillAll own ++ m.after.toList), isQueryChar c = true) ↔
      (∀ c, .char c ∈ withoutHash own → isQueryChar c = true) ∧
        (∀ name v, .group name ∈ withoutHash own → m.group name = some v → '"' ∉ v.toList) ∧
        (.char '#' ∈ own ∨ '"' ∉ m.after.toList) := by
  rw [withoutFragment_fill (unmarked_of_scanned hm), List.forall_mem_append,
    isQueryChar_fillAll_iff hm, and_assoc]
  refine and_congr_right fun _ => and_congr_right fun _ => ?_
  split
  · rename_i hhash
    exact iff_of_true (List.forall_mem_nil _) (.inl hhash)
  · rename_i hhash
    rw [isQueryChar_after_iff hm]
    exact (or_iff_right hhash).symm

theorem accepted_replace_iff (replacement : String) :
    Accepted (m.before ++ m.expand replacement ++ m.after) ↔ m.Fits replacement := by
  have hunmarked := unmarked_of_scanned hm
  rw [Accepted, scanPath_iff, Nat.zero_add]
  rcases backPieces_cases (pieces replacement) with hback | ⟨c, own, hc, hback⟩
  · -- The whole text is a path.
    have hnone := back_eq_nil_iff.mpr (parts_of_backPieces_nil hunmarked hback)
    have hfront := front_append_back (m.before ++ m.expand replacement ++ m.after).toList
    rw [hnone, List.append_nil] at hfront
    have hpieces : frontPieces (pieces replacement) = pieces replacement := by
      have hsplit := frontPieces_append_backPieces (pieces replacement)
      rwa [hback, List.append_nil] at hsplit
    rw [hnone, hfront, String.toList_append, String.toList_append, List.forall_mem_append,
      List.forall_mem_append, expand, String.toList_ofList, isPathChar_fillAll_iff hm]
    constructor
    · rintro ⟨⟨⟨-, htext⟩, -⟩, -⟩
      exact ⟨hpieces.symm ▸ htext, fun own hown => absurd (hback.symm.trans hown) (by simp)⟩
    · rintro ⟨htext, -⟩
      exact ⟨⟨⟨hm.before, hpieces ▸ htext⟩, hm.after⟩, fun own hown => by cases hown⟩
  · obtain ⟨hfront, htail⟩ := split_of_backPieces hunmarked hc hback
    rw [hfront, htail, List.forall_mem_append, isPathChar_fillAll_iff hm]
    constructor
    · rintro ⟨⟨-, htext⟩, hquery⟩
      refine ⟨htext, fun own' hown => ?_⟩
      obtain ⟨hchar, rfl⟩ := List.cons.inj (hback.symm.trans hown)
      obtain rfl := Piece.char.inj hchar
      rw [← isQueryChar_own_iff hm]
      exact hquery _ rfl
    · rintro ⟨htext, hquery⟩
      refine ⟨⟨hm.before, htext⟩, fun text htext => ?_⟩
      obtain ⟨rfl, rfl⟩ := List.cons.inj htext
      rw [isQueryChar_own_iff hm]
      exact hquery own hback

end Match

/-- What is captured is part of the path. -/
def Route.Within (route : Route) : Prop :=
  ∀ path values, route.captures path = some values → ∀ v ∈ values, v.toList <:+: path.toList

/-- The names of the parameters have characters of paths and of queries. -/
def Route.Plain (route : Route) : Prop :=
  ∀ name ∈ route.names, ∀ c ∈ name.toList, isPathChar c = true ∧ isQueryChar c = true

namespace RewriteRule

/-- What is assumed of a rule: what it captures is part of the path, and its parameters have
plain names. -/
def Plain : RewriteRule → Prop
  | .pattern route _ => route.Within ∧ route.Plain
  | .regex re _ => re.Within

/-- **A rule fits a path.** -/
def Fits : RewriteRule → String → Prop
  | .pattern route template, path =>
      ∀ values, route.captures path = some values →
        TemplateFits (route.names.zip values) template.toList
  | .regex re replacement, path => ∀ m, re.captures path = some m → m.Fits replacement

theorem plainParams {route : Route} (hwithin : route.Within) (hplain : route.Plain)
    {path : String} (hpath : ∀ c ∈ path.toList, isPathChar c = true) {values : List String}
    (h : route.captures path = some values) : PlainParams (route.names.zip values) where
  name p hp c hc := by
    rw [placeholder, List.mem_append, List.mem_cons, List.mem_singleton] at hc
    rcases hc with (rfl | hc) | rfl
    · decide
    · exact hplain p.1 (List.of_mem_zip hp).1 c hc
    · decide
  value p hp c hc := hpath c ((hwithin path values h p.2 (List.of_mem_zip hp).2).subset hc)

theorem scanned_captures {re : Regex} (hre : re.Within) {path : String}
    (hpath : ∀ c ∈ path.toList, isPathChar c = true) {m : Match} (h : re.captures path = some m) :
    m.Scanned := by
  obtain ⟨hbefore, hafter, hgroup⟩ := hre path m h
  exact ⟨fun c hc => hpath c (hbefore.subset hc), fun c hc => hpath c (hafter.subset hc),
    fun name v hv c hc => hpath c ((hgroup name v hv).subset hc)⟩

/-- A regex replaces a match. -/
theorem rewrite_regex {re : Regex} {replacement path newPath : String}
    (h : (RewriteRule.regex re replacement).rewrite path = some newPath) :
    ∃ m, re.captures path = some m ∧ m.before ++ m.expand replacement ++ m.after = newPath := by
  rw [rewrite, Regex.isMatch, Regex.replace] at h
  cases hm : re.captures path with
  | none => simp [hm] at h
  | some m =>
      rw [hm] at h
      exact ⟨m, rfl, Option.some.inj h⟩

/-- **Exactly the rules that fit a path make a new path that is accepted.** -/
theorem accepted_rewrite_iff {rule : RewriteRule} (hrule : rule.Plain) {path newPath : String}
    (hpath : ∀ c ∈ path.toList, isPathChar c = true) (h : rule.rewrite path = some newPath) :
    Accepted newPath ↔ rule.Fits path := by
  cases rule with
  | pattern route template =>
      obtain ⟨values, hvalues, rfl⟩ := Option.map_eq_some_iff.mp h
      rw [foldl_replaceParam, Accepted, String.toList_ofList,
        scanPath_fill_iff (plainParams hrule.1 hrule.2 hpath hvalues)]
      constructor
      · intro hfits values' hvalues'
        obtain rfl := Option.some.inj (hvalues.symm.trans hvalues')
        exact hfits
      · exact fun hfits => hfits values hvalues
  | regex re replacement =>
      obtain ⟨m, hm, rfl⟩ := rewrite_regex h
      rw [Match.accepted_replace_iff (scanned_captures hrule hpath hm)]
      constructor
      · intro hfits m' hm'
        obtain rfl := Option.some.inj (hm.symm.trans hm')
        exact hfits
      · exact fun hfits => hfits m hm

end RewriteRule

end UrlRewrite
end Noxy
