/-
# Rewriting paths

`src/middleware/url_rewrite.rs`: `RewriteRule::rewrite`, and `UrlRewrite::path` and
`UrlRewrite::regex`, which make the rules.

A pattern rule puts the captured values into its template.  It does so one parameter after
the other, with a replacement in the whole text each time, so a value that holds the
placeholder of a later parameter is itself filled in (`captured_text_is_expanded`).  All
values at once is `simultaneous`.  The two agree for every request exactly if no parameter
but the last has its placeholder in the template (`rewrite_simultaneous_iff`).

The `matchit` crate is a parameter: what a pattern captures is a `Route`, and `Route.Lawful` is
what is assumed of it.  `segments` is such a route.
-/

import Noxy.Lib.Replace
import Noxy.UrlRewrite.Expand

namespace Noxy
namespace UrlRewrite

/-- What `matchit::Router::insert` makes of a pattern: the names of its parameters, and for a
path that matches the values captured, in the order of the pattern. -/
structure Route where
  names : List String
  captures : String → Option (List String)
  length_captures : ∀ {path values}, captures path = some values → values.length = names.length

/-- The crates that read patterns. -/
structure Crates where
  insert : String → Except String Route
  regex : String → Except String Regex

/-- `RewriteRule`; a router has the one route that its rule inserted. -/
inductive RewriteRule where
  | pattern (route : Route) (template : String)
  | regex (re : Regex) (replacement : String)

/-- `UrlRewrite::path`. -/
def path (C : Crates) (pattern replacement : String) : Except String (List RewriteRule) := do
  let route ← C.insert pattern
  return [.pattern route replacement]

/-- `UrlRewrite::regex`. -/
def regex (C : Crates) (pattern replacement : String) : Except String (List RewriteRule) := do
  let re ← C.regex pattern
  return [.regex re replacement]

/-- `format!("{{{key}}}")`. -/
def placeholder (key : String) : List Char := '\x7b' :: key.toList ++ ['\x7d']

/-- A value in place of a placeholder. -/
def paramRule (param : String × String) : Lib.Rule Char :=
  ⟨placeholder param.1, param.2.toList, List.cons_ne_nil _ _⟩

/-- `result.replace(&format!("{{{key}}}"), value)`. -/
def replaceParam (result : String) (param : String × String) : String :=
  String.ofList (Lib.replace (paramRule param) result.toList)

/-- `RewriteRule::rewrite`. -/
def RewriteRule.rewrite : RewriteRule → String → Option String
  | .pattern route template, path =>
      (route.captures path).map fun values => (route.names.zip values).foldl replaceParam template
  | .regex re replacement, path =>
      if re.isMatch path then some (re.replace path replacement) else none

/-- The rule matches a path. -/
def RewriteRule.isMatch : RewriteRule → String → Bool
  | .pattern route _, path => (route.captures path).isSome
  | .regex re _, path => re.isMatch path

theorem RewriteRule.isMatch_eq_isSome (rule : RewriteRule) (path : String) :
    rule.isMatch path = (rule.rewrite path).isSome := by
  cases rule with
  | pattern route template => exact Option.isSome_map.symm
  | regex re replacement =>
      rw [isMatch, rewrite]
      split <;> simp_all

/-- **What a template is meant for**: all placeholders that are in it filled in at once. -/
def simultaneous (template : String) (params : List (String × String)) : String :=
  String.ofList (Lib.substitute (params.map paramRule) template.toList)

/-! ### One parameter after the other -/

/-- The values put into the characters of a template. -/
def fill (params : List (String × String)) (cs : List Char) : List Char :=
  params.foldl (fun text p => Lib.replace (paramRule p) text) cs

theorem fill_cons (p : String × String) (params : List (String × String)) (cs : List Char) :
    fill (p :: params) cs = fill params (Lib.replace (paramRule p) cs) := rfl

theorem fill_concat (params : List (String × String)) (last : String × String) (cs : List Char) :
    fill (params ++ [last]) cs = Lib.replace (paramRule last) (fill params cs) := by
  rw [fill, List.foldl_append]
  rfl

theorem foldl_replaceParam (params : List (String × String)) (template : String) :
    params.foldl replaceParam template =
      String.ofList (fill params template.toList) := by
  induction params generalizing template with
  | nil => exact String.ofList_toList.symm
  | cons p params ih =>
      rw [List.foldl_cons, ih, replaceParam, String.toList_ofList, fill_cons]

theorem fill_of_absent {params : List (String × String)} {text : List Char}
    (h : ∀ p ∈ params, ¬ placeholder p.1 <:+: text) : fill params text = text := by
  induction params with
  | nil => rfl
  | cons p params ih =>
      have hp : Lib.replace (paramRule p) text = text :=
        Lib.replace_of_absent (h p List.mem_cons_self)
      rw [fill_cons, hp]
      exact ih fun p' hp' => h p' (List.mem_cons_of_mem _ hp')

/-- **Only the last parameter in the template.**  The earlier replacements find nothing. -/
theorem foldl_replaceParam_eq_simultaneous {params : List (String × String)}
    (last : String × String) {template : String}
    (h : ∀ p ∈ params, ¬ placeholder p.1 <:+: template.toList) :
    (params ++ [last]).foldl replaceParam template = simultaneous template (params ++ [last]) := by
  have habsent : ∀ r ∈ params.map paramRule, ¬ r.pattern <:+: template.toList := by
    intro r hr
    obtain ⟨p, hp, rfl⟩ := List.mem_map.mp hr
    exact h p hp
  rw [foldl_replaceParam, fill_concat, fill_of_absent h, simultaneous, List.map_append,
    Lib.substitute_of_absent _ habsent]
  rfl

/-- The same, of names and values. -/
theorem foldl_zip_eq_simultaneous {names values : List String}
    (hlen : values.length = names.length) {template : String}
    (h : ∀ name ∈ names.dropLast, ¬ placeholder name <:+: template.toList) :
    (names.zip values).foldl replaceParam template = simultaneous template (names.zip values) := by
  rcases List.eq_nil_or_concat' names with rfl | ⟨names, last, rfl⟩
  · -- Without parameters there is nothing to fill in.
    rw [List.zip_nil_left, simultaneous, List.map_nil, Lib.substitute_nil, String.ofList_toList]
    rfl
  · rcases List.eq_nil_or_concat' values with rfl | ⟨values, value, rfl⟩
    · simp at hlen
    · rw [List.length_append, List.length_append] at hlen
      rw [List.dropLast_concat] at h
      rw [List.zip_append (by simpa using hlen.symm)]
      exact foldl_replaceParam_eq_simultaneous (last, value) fun p hp =>
        h p.1 (List.of_mem_zip hp).1

theorem paramRule_shuns (p : String × String) : (paramRule p).Shuns 'x' where
  head := by simp [paramRule, placeholder]
  last := by simp [paramRule, placeholder]

/-- A long run that one of the values brings in stays to the end. -/
theorem run_infix_fill {n : ℕ} {params : List (String × String)} {text : List Char}
    (hlen : ∀ p ∈ params, (placeholder p.1).length ≤ n)
    (hvalue : ∀ p ∈ params, List.replicate n 'x' <:+: p.2.toList)
    (h : List.replicate n 'x' <:+: text ∨ ∃ p ∈ params, placeholder p.1 <:+: text) :
    List.replicate n 'x' <:+: fill params text := by
  induction params generalizing text with
  | nil =>
      rcases h with h | ⟨p, hp, _⟩
      · exact h
      · exact absurd hp List.not_mem_nil
  | cons p params ih =>
      refine ih (fun p' hp' => hlen p' (List.mem_cons_of_mem _ hp'))
        (fun p' hp' => hvalue p' (List.mem_cons_of_mem _ hp')) ?_
      dsimp only
      by_cases hp : placeholder p.1 <:+: text
      · have hin : p.2.toList <:+: Lib.replace (paramRule p) text :=
          Lib.value_infix_replace (r := paramRule p) hp
        exact .inl ((hvalue p List.mem_cons_self).trans hin)
      · rcases h with h | ⟨p', hp', hin⟩
        · exact .inl (Lib.run_infix_replace (paramRule_shuns p) (hlen p List.mem_cons_self) h)
        · have hsame : Lib.replace (paramRule p) text = text := Lib.replace_of_absent hp
          rw [hsame]
          rcases List.mem_cons.mp hp' with rfl | hp'
          · exact absurd hin hp
          · exact .inr ⟨p', hp', hin⟩

/-! ### Values that show the difference -/

/-- A value for each parameter but the last: a run of `n` letters, and the placeholder of the
last one. -/
def earlierValue (n : ℕ) (last : String) : String :=
  String.ofList (List.replicate n 'x' ++ placeholder last)

/-- A value for the last parameter: as many letters as its placeholder has. -/
def lastValue (last : String) : String :=
  String.ofList (List.replicate (placeholder last).length 'x')

/-- **Some values are filled in.**  If an earlier parameter is in the template, the two ways
differ for these values, if the run is long enough.  One parameter after the other leaves no
placeholder of the last, so if the results were the same no earlier value would be in
them, and they would be shorter than the run that they hold. -/
theorem foldl_replaceParam_ne_simultaneous {names : List String} {last template : String}
    {name : String} (hname : name ∈ names) (hin : placeholder name <:+: template.toList) {n : ℕ}
    (hlen : ∀ name ∈ names, (placeholder name).length ≤ n)
    (hlast : (placeholder last).length ≤ n)
    (hn : (placeholder last).length * template.toList.length < n) :
    (names.map (·, earlierValue n last) ++ [(last, lastValue last)]).foldl replaceParam template ≠
      simultaneous template (names.map (·, earlierValue n last) ++ [(last, lastValue last)]) := by
  intro heq
  rw [foldl_replaceParam, simultaneous, String.ofList_inj, fill_concat] at heq
  obtain ⟨text, htext⟩ : ∃ text,
    fill (names.map (·, earlierValue n last)) template.toList = text := ⟨_, rfl⟩
  rw [htext] at heq
  have hfirst : List.replicate n 'x' <:+: text := by
    rw [← htext]
    apply run_infix_fill
    · rintro p hp
      obtain ⟨name', hname', rfl⟩ := List.mem_map.mp hp
      exact hlen name' hname'
    · rintro p hp
      obtain ⟨name', _, rfl⟩ := List.mem_map.mp hp
      rw [earlierValue, String.toList_ofList]
      exact (List.prefix_append _ _).isInfix
    · exact .inr ⟨_, List.mem_map_of_mem hname, hin⟩
  have hrun := Lib.run_infix_replace (paramRule_shuns (last, lastValue last)) hlast hfirst
  have hvalue : (paramRule (last, lastValue last)).value =
      List.replicate (placeholder last).length 'x' := by
    rw [paramRule, lastValue, String.toList_ofList]
  have hgone : ¬ placeholder last <:+: Lib.replace (paramRule (last, lastValue last)) text :=
    Lib.not_infix_replace_run (paramRule_shuns (last, lastValue last)) hvalue text
  rw [heq] at hrun hgone
  have hpos : 0 < (placeholder last).length := Nat.succ_pos _
  have hvalues : ∀ r ∈ (names.map (·, earlierValue n last) ++
        [(last, lastValue last)]).map paramRule,
      r.value <:+: Lib.substitute ((names.map (·, earlierValue n last) ++
        [(last, lastValue last)]).map paramRule) template.toList →
      r.value.length ≤ (placeholder last).length := by
    intro r hr hinner
    obtain ⟨p, hp, rfl⟩ := List.mem_map.mp hr
    rcases List.mem_append.mp hp with hp | hp
    · obtain ⟨name', _, rfl⟩ := List.mem_map.mp hp
      have hlast : placeholder last <:+: (earlierValue n last).toList := by
        rw [earlierValue, String.toList_ofList]
        exact (List.suffix_append _ _).isInfix
      exact absurd (hlast.trans hinner) hgone
    · obtain rfl := List.mem_singleton.mp hp
      rw [hvalue, List.length_replicate]
  have hle := Lib.length_substitute_le hpos hvalues
  have hlong := hrun.length_le
  rw [List.length_replicate] at hlong
  omega

theorem zip_values (names : List String) (last v w : String) :
    (names ++ [last]).zip (names.map (fun _ => v) ++ [w]) = names.map (·, v) ++ [(last, w)] := by
  induction names with
  | nil => rfl
  | cons name names ih => exact congrArg ((name, v) :: ·) ih

/-! ### The rule -/

/-- A value that a parameter can capture: not empty, within a segment, and of characters that a
path admits. -/
def Capturable (admits : Char → Bool) (v : String) : Prop :=
  v ≠ "" ∧ ∀ c ∈ v.toList, admits c = true ∧ c ≠ '/'

/-- What is assumed of a route, where `admits` are the characters that the `http` crate admits
in a path: braces and letters are among them and those of the names, and every such value is
captured from some path. -/
structure Route.Lawful (route : Route) (admits : Char → Bool) : Prop where
  admits_braces : admits '\x7b' = true ∧ admits '\x7d' = true ∧ admits 'x' = true
  names_admitted : ∀ name ∈ route.names, ∀ c ∈ name.toList, admits c = true ∧ c ≠ '/'
  exists_path : ∀ values, values.length = route.names.length →
    (∀ v ∈ values, Capturable admits v) → ∃ path, route.captures path = some values

section Lawful

variable {route : Route} {admits : Char → Bool} (h : route.Lawful admits)
include h

theorem admits_placeholder {name : String} (hname : name ∈ route.names) :
    ∀ c ∈ placeholder name, admits c = true ∧ c ≠ '/' := by
  intro c hc
  rw [placeholder, List.mem_append, List.mem_cons, List.mem_singleton] at hc
  rcases hc with (rfl | hc) | rfl
  · exact ⟨h.admits_braces.1, by decide⟩
  · exact h.names_admitted name hname c hc
  · exact ⟨h.admits_braces.2.1, by decide⟩

theorem admits_run (n : ℕ) : ∀ c ∈ List.replicate n 'x', admits c = true ∧ c ≠ '/' := by
  intro c hc
  rw [List.eq_of_mem_replicate hc]
  exact ⟨h.admits_braces.2.2, by decide⟩

theorem capturable_earlierValue {last : String} (hlast : last ∈ route.names) (n : ℕ) :
    Capturable admits (earlierValue n last) := by
  constructor
  · intro heq
    have hnil := congrArg String.toList heq
    rw [earlierValue, String.toList_ofList] at hnil
    exact absurd (List.append_eq_nil_iff.mp hnil).2 (List.cons_ne_nil _ _)
  · intro c hc
    rw [earlierValue, String.toList_ofList, List.mem_append] at hc
    exact hc.elim (admits_run h n c) (admits_placeholder h hlast c)

theorem capturable_lastValue (last : String) : Capturable admits (lastValue last) := by
  constructor
  · intro heq
    have hnil := congrArg String.toList heq
    rw [lastValue, String.toList_ofList] at hnil
    exact absurd hnil (List.cons_ne_nil _ _)
  · intro c hc
    rw [lastValue, String.toList_ofList] at hc
    exact admits_run h _ c hc

/-- **A request that shows the difference**, if an earlier parameter is in the template. -/
theorem exists_path_ne {names : List String} {last : String}
    (hnames : route.names = names ++ [last]) {template name : String} (hname : name ∈ names)
    (hin : placeholder name <:+: template.toList) :
    ∃ path values, route.captures path = some values ∧
      (route.names.zip values).foldl replaceParam template ≠
        simultaneous template (route.names.zip values) := by
  have hlast : last ∈ route.names := by
    rw [hnames]
    exact List.mem_append_right _ List.mem_cons_self
  -- A run that is longer than every placeholder and than the result.
  obtain ⟨n, hlen, hn⟩ : ∃ n, (∀ name ∈ route.names, (placeholder name).length ≤ n) ∧
      (placeholder last).length * template.toList.length < n := by
    refine ⟨(placeholder last).length * template.toList.length + 1 +
      (route.names.map placeholder).flatten.length, fun name hname => ?_, by omega⟩
    have hle :=
      (List.sublist_flatten_of_mem (List.mem_map_of_mem (f := placeholder) hname)).length_le
    omega
  obtain ⟨path, hpath⟩ := h.exists_path
    (names.map (fun _ => earlierValue n last) ++ [lastValue last]) (by simp [hnames]) (by
      intro v hv
      rcases List.mem_append.mp hv with hv | hv
      · obtain ⟨_, _, rfl⟩ := List.mem_map.mp hv
        exact capturable_earlierValue h hlast n
      · rw [List.mem_singleton.mp hv]
        exact capturable_lastValue h last)
  have hnames_len : ∀ name ∈ names, (placeholder name).length ≤ n := by
    intro name hname
    apply hlen
    rw [hnames]
    exact List.mem_append_left _ hname
  have hne := foldl_replaceParam_ne_simultaneous hname hin hnames_len (hlen last hlast) hn
  rw [← zip_values, ← hnames] at hne
  exact ⟨path, _, hpath, hne⟩

/-- **Path templates are substituted simultaneously.**  For every path that the pattern
matches, `rewrite` gives the template with all its placeholders filled in at once, exactly if
no parameter but the last has its placeholder in the template. -/
theorem rewrite_simultaneous_iff (template : String) :
    (∀ path values, route.captures path = some values →
        (RewriteRule.pattern route template).rewrite path =
          some (simultaneous template (route.names.zip values))) ↔
      ∀ name ∈ route.names.dropLast, ¬ placeholder name <:+: template.toList := by
  have hrewrite : ∀ {path values}, route.captures path = some values →
      (RewriteRule.pattern route template).rewrite path =
        some ((route.names.zip values).foldl replaceParam template) := by
    intro path values hpath
    rw [RewriteRule.rewrite, hpath]
    rfl
  constructor
  · intro hall name hname hin
    obtain ⟨names, last, hnames⟩ : ∃ names last, route.names = names ++ [last] := by
      rcases List.eq_nil_or_concat' route.names with hnil | hconcat
      · rw [hnil] at hname
        exact absurd hname List.not_mem_nil
      · exact hconcat
    rw [hnames, List.dropLast_concat] at hname
    obtain ⟨path, values, hpath, hne⟩ := exists_path_ne h hnames hname hin
    exact hne (Option.some.inj ((hrewrite hpath).symm.trans (hall path values hpath)))
  · intro habsent path values hpath
    rw [hrewrite hpath, foldl_zip_eq_simultaneous (route.length_captures hpath) habsent]

end Lawful

/-- The route of a pattern whose segments are the parameters, such as `/{a}/{b}`. -/
def segments (names : List String) : Route where
  names := names
  captures path :=
    let parts := path.toList.splitOn '/'
    if parts.head? = some [] ∧ parts.tail.length = names.length ∧ [] ∉ parts.tail then
      some (parts.tail.map String.ofList)
    else none
  length_captures h := by
    dsimp only at h
    split at h
    · rename_i hparts
      rw [← Option.some.inj h, List.length_map, hparts.2.1]
    · cases h

theorem segments_lawful {names : List String} {admits : Char → Bool}
    (hbraces : admits '\x7b' = true ∧ admits '\x7d' = true ∧ admits 'x' = true)
    (hnames : ∀ name ∈ names, ∀ c ∈ name.toList, admits c = true ∧ c ≠ '/') :
    (segments names).Lawful admits where
  admits_braces := hbraces
  names_admitted := hnames
  exists_path values hlen hvalues := by
    have hsplit : (['/'].intercalate ([] :: values.map String.toList)).splitOn '/' =
        [] :: values.map String.toList := by
      refine List.splitOn_intercalate '/' (fun l hl hslash => ?_) (List.cons_ne_nil _ _)
      rcases List.mem_cons.mp hl with rfl | hl
      · exact absurd hslash List.not_mem_nil
      · obtain ⟨v, hv, rfl⟩ := List.mem_map.mp hl
        exact ((hvalues v hv).2 _ hslash).2 rfl
    refine ⟨String.ofList (['/'].intercalate ([] :: values.map String.toList)), ?_⟩
    have hnonempty : [] ∉ values.map String.toList := by
      intro hmem
      obtain ⟨v, hv, hnil⟩ := List.mem_map.mp hmem
      exact (hvalues v hv).1 (String.toList_eq_nil_iff.mp hnil)
    dsimp only [segments]
    rw [String.toList_ofList, hsplit, List.tail_cons,
      if_pos ⟨rfl, (List.length_map _).trans hlen, hnonempty⟩, List.map_map]
    simp

/-- The hypothesis of `rewrite_simultaneous_iff` is met by the pattern `/{a}/{b}`: with the
template `/b/{b}` the path `/x/{b}` is rewritten to `/b/{b}`. -/
theorem rewrite_simultaneous_last :
    (RewriteRule.pattern (segments ["a", "b"]) "/b/\x7bb\x7d").rewrite "/x/\x7bb\x7d" =
      some "/b/\x7bb\x7d" := by
  have hlawful : (segments ["a", "b"]).Lawful fun _ => true :=
    segments_lawful ⟨rfl, rfl, rfl⟩ (by simp)
  have hall := (rewrite_simultaneous_iff hlawful "/b/\x7bb\x7d").mpr (by decide +kernel)
  exact (hall "/x/\x7bb\x7d" ["x", "\x7bb\x7d"] (by decide +kernel)).trans (by decide +kernel)

/-- **Captured text is a template.**  The rule from `/{a}/{b}` to `/{a}/{b}` rewrites the path
`/{b}/secret` to `/secret/secret`. -/
theorem captured_text_is_expanded :
    (RewriteRule.pattern (segments ["a", "b"]) "/\x7ba\x7d/\x7bb\x7d").rewrite "/\x7bb\x7d/secret" =
        some "/secret/secret" ∧
      (segments ["a", "b"]).captures "/\x7bb\x7d/secret" = some ["\x7bb\x7d", "secret"] ∧
      simultaneous "/\x7ba\x7d/\x7bb\x7d" [("a", "\x7bb\x7d"), ("b", "secret")] =
        "/\x7bb\x7d/secret" := by
  decide +kernel

end UrlRewrite
end Noxy
