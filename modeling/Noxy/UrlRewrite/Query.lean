/-
# The query of a rewritten request

`rewrite_uri` in `src/middleware/url_rewrite.rs` puts a question mark and the query of the
request after the new path.  If the new path has a query of its own, the question mark does not
separate the two: the last parameter of the one and the first of the other become one parameter.
If it has a hash, what comes after that is dropped, and with it the query of the request.

So the parameters of the request are kept, and those of the replacement beside them, exactly if
the template or the replacement text of the rule has neither sign (`query_kept_iff`), whatever the
request.  This is for new paths of at most 65534 bytes: the `http` crate keeps the place of the
question mark in sixteen bits, and behind a longer path it finds another query or none.
-/

import Noxy.UrlRewrite.Service

namespace Noxy
namespace UrlRewrite

open Http

/-- The parameters of a query. -/
def params : Option String → List String
  | some query => (query.toList.splitOn '&').map String.ofList
  | none => []

/-- The parameters of a query `old` are kept in `new`, unchanged and in order, together with
exactly those of another query. -/
def Kept (old other new : Option String) : Prop :=
  (params old).Sublist (params new) ∧ (params new).Perm (params old ++ params other)

/-- Neither a question mark nor a hash. -/
def Unmarked (text : String) : Prop := ∀ c ∈ text.toList, isMark c = false

/-- **A rule without either sign**: its template has none, or its replacement text has none that
is not part of a reference to a group. -/
def RewriteRule.Unmarked : RewriteRule → Prop
  | .pattern _ template => UrlRewrite.Unmarked template
  | .regex _ replacement => ∀ p ∈ pieces replacement, p.isMark = false

/-- What is assumed of a rule: what it captures is part of the path, and no parameter has one of
the signs in its name. -/
def RewriteRule.Captures : RewriteRule → Prop
  | .pattern route _ => route.Within ∧ ∀ name ∈ route.names, UrlRewrite.Unmarked name
  | .regex re _ => re.Within

theorem length_params (query : String) :
    (params (some query)).length = query.toList.count '&' + 1 := by
  rw [params, List.length_map]
  induction query.toList with
  | nil => rfl
  | cons c cs ih =>
      rw [List.splitOn_cons_eq_if_modifyHead, List.count_cons]
      split
      · rw [List.length_cons, ih]
      · rw [List.length_modifyHead, ih]

/-- What is behind the first sign stays there. -/
theorem back_append_of_mark {cs own : List Char} {m : Char} (h : back cs = m :: own)
    (hm : isMark m = true) (rest : List Char) : back (cs ++ rest) = m :: (own ++ rest) := by
  nth_rw 1 [← front_append_back cs]
  rw [List.append_assoc, back_append fun c hc => isMark_of_mem_front hc, h]
  exact back_mark hm _

/-- **Without either sign** the query is that of the request. -/
theorem queryPart_of_unmarked {newPath query : String} (h : Unmarked newPath)
    (hquery : '#' ∉ query.toList) : queryPart (joined newPath (some query)) = some query := by
  rw [queryPart_of_split (toList_joined newPath query) h, withoutFragment_eq_self hquery,
    String.ofList_toList]

/-- **A question mark in the new path** begins the query. -/
theorem queryPart_of_mark {newPath query : String} {own : List Char}
    (h : back newPath.toList = '?' :: own) (hquery : '#' ∉ query.toList) :
    queryPart newPath = some (String.ofList (withoutFragment own)) ∧
      queryPart (joined newPath (some query)) = some (String.ofList
        (withoutFragment own ++ if '#' ∈ own then [] else '?' :: query.toList)) := by
  constructor
  · rw [queryPart, h]
    rfl
  · have hrest : '#' ∉ '?' :: query.toList := by
      rw [List.mem_cons, not_or]
      exact ⟨by decide, hquery⟩
    rw [queryPart, toList_joined, back_append_of_mark h rfl]
    split_ifs with hhash
    · rw [List.append_nil]
      exact congrArg (some ∘ String.ofList) (withoutFragment_append_of_mem hhash _)
    · rw [withoutFragment_eq_self hhash]
      refine congrArg (some ∘ String.ofList) ?_
      rw [withoutFragment_append hhash, withoutFragment_eq_self hrest]

/-- **A hash in the new path** ends the text before the query of the request. -/
theorem queryPart_of_hash {newPath : String} (query : String) {rest : List Char}
    (h : back newPath.toList = '#' :: rest) :
    queryPart newPath = none ∧ queryPart (joined newPath (some query)) = none := by
  constructor
  · rw [queryPart, h]
    rfl
  · rw [queryPart, toList_joined, back_append_of_mark h rfl]
    rfl

/-- **When the query is kept.** -/
theorem kept_iff {newPath query : String} (hquery : '#' ∉ query.toList) :
    Kept (some query) (queryPart newPath) (queryPart (joined newPath (some query))) ↔
      Unmarked newPath := by
  rw [Unmarked, ← back_eq_nil_iff]
  -- With a sign of its own there is at least one parameter too few.
  constructor
  · rintro ⟨-, hperm⟩
    have hlength := hperm.length_eq
    rw [List.length_append, length_params] at hlength
    rcases back_cases newPath.toList with hback | ⟨own, hback⟩ | ⟨rest, hback⟩
    · exact hback
    · obtain ⟨hown, hjoined⟩ := queryPart_of_mark hback hquery
      rw [hown, hjoined, length_params, length_params, String.toList_ofList, String.toList_ofList,
        List.count_append] at hlength
      split_ifs at hlength
      · rw [List.count_nil] at hlength
        omega
      · rw [List.count_cons_of_ne (by decide)] at hlength
        omega
    · obtain ⟨hown, hjoined⟩ := queryPart_of_hash query hback
      rw [hown, hjoined] at hlength
      change 0 = _ + 0 at hlength
      omega
  · intro h
    have hunmarked := back_eq_nil_iff.mp h
    rw [queryPart_of_unmarked hunmarked hquery, (parts_of_path hunmarked).2]
    exact ⟨List.Sublist.refl _, by rw [params, params, List.append_nil]⟩

/-! ### Requests -/

/-- The template decides whether a new path has one of the signs. -/
theorem unmarked_pattern_iff {route : Route} (hroute : route.Within)
    (hnames : ∀ name ∈ route.names, Unmarked name) {template path newPath : String}
    (hpath : ∀ c ∈ path.toList, isPathChar c = true)
    (h : (RewriteRule.pattern route template).rewrite path = some newPath) :
    Unmarked newPath ↔ Unmarked template := by
  obtain ⟨values, hvalues, rfl⟩ := Option.map_eq_some_iff.mp h
  have hsign : ∀ {c : Char}, isMark c = true →
      (c ∈ fill (route.names.zip values) template.toList ↔ c ∈ template.toList) := by
    intro c hc
    have hne : ∀ d, isMark d = false → c ≠ d := by
      rintro d hd rfl
      rw [hc] at hd
      cases hd
    refine mem_fill_iff (fun p hp hmem => ?_) (fun p hp hmem => ?_) _
    · rw [placeholder, List.mem_append, List.mem_cons, List.mem_singleton] at hmem
      rcases hmem with (heq | hmem) | heq
      · exact hne _ (by decide) heq
      · exact hne c (hnames p.1 (List.of_mem_zip hp).1 c hmem) rfl
      · exact hne _ (by decide) heq
    · have hin := (hroute path values hvalues p.2 (List.of_mem_zip hp).2).subset hmem
      exact hne c (isMark_of_isPathChar (hpath c hin)) rfl
  rw [foldl_replaceParam, Unmarked, Unmarked, String.toList_ofList]
  constructor
  · intro hfree c hc
    by_contra hmark
    exact hmark (hfree c ((hsign (Bool.not_eq_false _ ▸ hmark)).mpr hc))
  · intro hfree c hc
    by_contra hmark
    exact hmark (hfree c ((hsign (Bool.not_eq_false _ ▸ hmark)).mp hc))

/-- The replacement text decides it for a regex. -/
theorem unmarked_regex_iff {re : Regex} (hre : re.Within) {replacement path newPath : String}
    (hpath : ∀ c ∈ path.toList, isPathChar c = true)
    (h : (RewriteRule.regex re replacement).rewrite path = some newPath) :
    Unmarked newPath ↔ ∀ p ∈ pieces replacement, p.isMark = false := by
  obtain ⟨m, hm, rfl⟩ := RewriteRule.rewrite_regex h
  have hmatch := RewriteRule.scanned_captures hre hpath hm
  rw [Unmarked]
  constructor
  · intro hfree p hp
    cases p with
    | group name => rfl
    | char c =>
        refine hfree c ?_
        rw [String.toList_append, String.toList_append, Match.expand, String.toList_ofList]
        exact List.mem_append_left _
          (List.mem_append_right _ (m.mem_fillAll_iff.mpr (.inl hp)))
  · intro hfree
    refine Match.parts_of_backPieces_nil (Match.unmarked_of_scanned hmatch) ?_
    rw [backPieces, List.dropWhile_eq_nil_iff]
    exact fun p hp => by rw [hfree p hp]; rfl

theorem unmarked_rewrite_iff {rule : RewriteRule} (hrule : rule.Captures) {path newPath : String}
    (hpath : ∀ c ∈ path.toList, isPathChar c = true) (h : rule.rewrite path = some newPath) :
    Unmarked newPath ↔ rule.Unmarked := by
  cases rule with
  | pattern route template => exact unmarked_pattern_iff hrule.1 hrule.2 hpath h
  | regex re replacement => exact unmarked_regex_iff hrule hpath h

section Requests

variable {H : HttpCrate} {U : UriCrate H}

/-- The query of a rewritten URI is read from the new path and the query together. -/
theorem query_rewriteUri (hU : U.Lawful) {uri uri' : H.Uri} {newPath query : String}
    (hlen : (utf8 newPath).length ≤ 65534) (hquery : U.query uri = some query)
    (hhash : '#' ∉ query.toList) (h : rewriteUri U uri newPath = some uri') :
    U.query uri' = queryPart (joined newPath (some query)) := by
  obtain ⟨pq, hpq, hparts⟩ := Option.bind_eq_some_iff.mp h
  rw [hquery] at hpq
  exact hU.query_fromParts newPath query pq _ _ uri' hlen hhash hpq hparts

/-- **When the query of a request is kept.**  A request of at most 65534 bytes is rewritten by the
first rule that matches, to a path of at most 65534 bytes.  Its parameters are kept, beside those
of the new path, exactly if the rule has neither a question mark nor a hash. -/
theorem query_kept_iff (hU : U.Lawful) {rules : List RewriteRule} {rule : RewriteRule}
    (hrule : rule.Captures) (req : Request H) {req' : Request H} (hshort : U.Short req.uri)
    {newPath query : String} (hquery : U.query req.uri = some query)
    (hfirst : firstRule rules (H.path req.uri) = some rule)
    (hnew : rule.rewrite (H.path req.uri) = some newPath) (hlen : (utf8 newPath).length ≤ 65534)
    (hreq : rewriteRequest U rules req = some req') :
    Kept (some query) (queryPart newPath) (U.query req'.uri) ↔ rule.Unmarked := by
  have hhash : '#' ∉ query.toList := fun hhash =>
    ne_of_isQueryChar (hU.query_scanned req.uri hshort query hquery _ hhash) rfl
  rw [rewriteRequest_of_firstRule hfirst hnew] at hreq
  obtain ⟨uri', huri', rfl⟩ := Option.map_eq_some_iff.mp hreq
  rw [query_rewriteUri hU hlen hquery hhash huri', kept_iff hhash]
  exact unmarked_rewrite_iff hrule (hU.path_scanned req.uri hshort) hnew

end Requests

theorem rewrite_exactly (pattern replacement : String) :
    (RewriteRule.pattern (exactly pattern) replacement).rewrite pattern = some replacement := by
  simp [RewriteRule.rewrite, exactly]

/-- A request for `/old` with a query is rewritten. -/
theorem exists_rewritten (replacement query : String)
    (htext : Accepted ("/old?" ++ query)) (hpath : pathPart ("/old?" ++ query) = "/old")
    (hplace : (Lib.textBytes (front ("/old?" ++ query).toList)).length % 65536 ≠ 65535)
    (hquery : queryPart ("/old?" ++ query) = some query)
    (hlen : (utf8 "/old").length + ((utf8 query).length + 1) ≤ 65534)
    (hhash : '#' ∉ query.toList) (hreplacement : (utf8 replacement).length ≤ 65534)
    (hnew : Accepted replacement) :
    ∃ uri req', uris.parse ("/old?" ++ query) = .ok uri ∧ uris.path uri = "/old" ∧
      uriCrate.query uri = some query ∧ uriCrate.Short uri ∧
      firstRule [.pattern (exactly "/old") replacement] (uris.path uri) =
        some (.pattern (exactly "/old") replacement) ∧
      rewriteRequest uriCrate [.pattern (exactly "/old") replacement] (getTarget uri) =
        some req' ∧
      uriCrate.query req'.uri = queryPart (joined replacement (some query)) := by
  obtain ⟨uri, huri, horigin, hp, hq⟩ := exists_origin _ htext (by rw [hpath]; decide) hplace
  rw [hpath] at hp
  rw [hquery] at hq
  have hshort : uriCrate.Short uri := by
    rw [UriCrate.Short, hp, hq]
    exact hlen
  have hrule := (congrArg _ hp).trans (rewrite_exactly "/old" replacement)
  have hfirst : firstRule [.pattern (exactly "/old") replacement] (uris.path uri) =
      some (.pattern (exactly "/old") replacement) := by
    refine List.find?_cons_of_pos ?_
    rw [RewriteRule.isMatch_eq_isSome, hrule]
    rfl
  have hsome := (rewriteUri_isSome_iff uriCrate_lawful hshort replacement).mpr ⟨horigin, hnew⟩
  obtain ⟨uri', huri'⟩ := Option.isSome_iff_exists.mp hsome
  refine ⟨uri, { getTarget uri with uri := uri' }, huri, hp, hq, hshort, hfirst, ?_,
    query_rewriteUri uriCrate_lawful hreplacement hq hhash huri'⟩
  have hloop : rewriteRequest uriCrate [.pattern (exactly "/old") replacement] (getTarget uri) =
      _ := rewriteRequest_of_firstRule hfirst hrule
  exact hloop.trans (congrArg (Option.map _) huri')

/-- The hypotheses of `query_kept_iff` are met by a rule from `/old` to `/new`: it rewrites
`/old?a=1&b=2`, and both parameters are kept. -/
theorem query_kept_new : ∃ rules uri req', path sampleCrates "/old" "/new" = .ok rules ∧
    uris.parse "/old?a=1&b=2" = .ok uri ∧
    rewriteRequest uriCrate rules (getTarget uri) = some req' ∧
    Kept (some "a=1&b=2") (queryPart "/new") (uriCrate.query req'.uri) := by
  obtain ⟨uri, req', huri, hpath, hquery, hshort, hfirst, hreq, -⟩ := exists_rewritten "/new"
    "a=1&b=2" (by decide +kernel) (by decide +kernel) (by decide +kernel) (by decide +kernel)
    (by decide +kernel) (by decide) (by decide +kernel) (by decide +kernel)
  refine ⟨_, uri, req', rfl, huri, hreq, ?_⟩
  refine (query_kept_iff uriCrate_lawful ?_ (getTarget uri) hshort hquery hfirst ?_ ?_ hreq).mpr ?_
  · exact ⟨(plain_exactly "/old" "/new").1, List.forall_mem_nil _⟩
  · exact (congrArg _ hpath).trans (rewrite_exactly "/old" "/new")
  · decide +kernel
  · exact List.all_iff_forall_prop.mp (by decide)

/-- **Two parameters in one.**  A rule from `/old` to `/new?a=1` makes of `/old?b=2` a request
with the query `a=1?b=2`. -/
theorem own_query_swallows : ∃ rules uri req', path sampleCrates "/old" "/new?a=1" = .ok rules ∧
    uris.parse "/old?b=2" = .ok uri ∧
    rewriteRequest uriCrate rules (getTarget uri) = some req' ∧
    uriCrate.query req'.uri = some "a=1?b=2" ∧
    ¬ Kept (some "b=2") (queryPart "/new?a=1") (uriCrate.query req'.uri) := by
  obtain ⟨uri, req', huri, hpath, hquery, -, -, hreq, hnew⟩ := exists_rewritten "/new?a=1" "b=2"
    (by decide +kernel) (by decide +kernel) (by decide +kernel) (by decide +kernel)
    (by decide +kernel) (by decide) (by decide +kernel) (by decide +kernel)
  refine ⟨_, uri, req', rfl, huri, hreq, hnew.trans (by decide +kernel), ?_⟩
  rw [hnew, kept_iff (by decide)]
  exact fun h => absurd (h '?' (by decide)) (by decide)

end UrlRewrite
end Noxy
