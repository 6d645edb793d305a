/-
# Rewriting requests

`src/middleware/url_rewrite.rs`: `UrlRewrite::and_path` and `UrlRewrite::and_regex`,
`rewrite_uri`, and `UrlRewriteService::call`.

The first rule that matches the path of a request gives the new path.  `rewrite_uri` puts the
query after it and unwraps twice: that the text is a path and query, and that it goes with the
other parts of the URI.  Neither is looked at when the rule is made.  So a request panics exactly
if a rule matches it, and the target is in authority form, or the first such rule does not fit the
path (`call_returns_iff`).  The query of the request does not matter: it has been scanned.
-/

import Mathlib.Data.Bool.AllAny
import Noxy.Config.Chain
import Noxy.UrlRewrite.Template

namespace Noxy
namespace UrlRewrite

open Http

/-! ### The layer -/

/-- `UrlRewrite::and_path`. -/
def andPath (C : Crates) (rules : List RewriteRule) (pattern replacement : String) :
    Except String (List RewriteRule) := do
  let route ← C.insert pattern
  return rules ++ [.pattern route replacement]

/-- `UrlRewrite::and_regex`. -/
def andRegex (C : Crates) (rules : List RewriteRule) (pattern replacement : String) :
    Except String (List RewriteRule) := do
  let re ← C.regex pattern
  return rules ++ [.regex re replacement]

/-- The new path, and the query after it. -/
def joined (newPath : String) (query : Option String) : String :=
  match query with
  | some query => newPath ++ "?" ++ query
  | none => newPath

section Service

variable {H : HttpCrate} (U : UriCrate H)

/-- `rewrite_uri`; there is nothing if it panics. -/
def rewriteUri (uri : H.Uri) (newPath : String) : Option H.Uri :=
  (U.pathAndQuery (joined newPath (U.query uri))).bind fun pq =>
    H.fromParts (H.scheme uri) (H.authority uri) (some pq)

/-- The loop of `UrlRewriteService::call`: the request that is handed on, or nothing if the
loop panics. -/
def rewriteRequest : List RewriteRule → Request H → Option (Request H)
  | [], req => some req
  | rule :: rules, req =>
      match rule.rewrite (H.path req.uri) with
      | some newPath => (rewriteUri U req.uri newPath).map fun uri => { req with uri := uri }
      | none => rewriteRequest rules req

/-- `UrlRewriteService::call`, or nothing if it panics. -/
def call (rules : List RewriteRule) (inner : HttpService H) (req : Request H) (world : World H) :
    Option (Except String Response × World H) :=
  (rewriteRequest U rules req).map fun req => inner req world

end Service

/-- The URIs of the rules of a configuration. -/
def ruleUris {C : Config.Crates} (E : Config.RuleEnv C) : UriCrate C.http :=
  ⟨E.query, E.pathAndQuery⟩

/-- A configuration rewrites in the same way. -/
theorem rewriteUri_ruleUris {C : Config.Crates} (E : Config.RuleEnv C) (uri : C.http.Uri)
    (newPath : String) : Config.rewriteUri E uri newPath = rewriteUri (ruleUris E) uri newPath :=
  rfl

/-! ### When it returns -/

theorem toList_joined (newPath query : String) :
    (joined newPath (some query)).toList = newPath.toList ++ '?' :: query.toList := by
  rw [joined, String.toList_append, String.toList_append, List.append_assoc]
  rfl

/-- **A query that has been scanned** does not matter. -/
theorem accepted_joined_iff {newPath : String} {query : Option String}
    (hquery : ∀ q, query = some q → ∀ c ∈ q.toList, isQueryChar c = true) :
    Accepted (joined newPath query) ↔ Accepted newPath := by
  cases query with
  | none => exact Iff.rfl
  | some query =>
      replace hquery := hquery query rfl
      have hfront : ∀ c ∈ front newPath.toList, isMark c = false :=
        fun c hc => isMark_of_mem_front hc
      rw [Accepted, Accepted, toList_joined, ← front_append_back newPath.toList,
        List.append_assoc, scanPath_append 0 hfront, scanPath_append 0 hfront]
      refine and_congr_right fun _ => ?_
      rcases back_cases newPath.toList with hback | ⟨own, hback⟩ | ⟨rest, hback⟩
      · rw [hback]
        refine iff_of_true ?_ rfl
        rw [List.nil_append, scanPath, if_pos rfl, Bool.or_eq_true, scanQuery_iff,
          withoutFragment_eq_self fun hhash => ne_of_isQueryChar (hquery _ hhash) rfl]
        exact .inr hquery
      · rw [hback, List.cons_append, scanPath, scanPath, if_pos rfl, if_pos rfl, Bool.or_eq_true,
          Bool.or_eq_true, scanQuery_iff, scanQuery_iff]
        refine or_congr_right ?_
        by_cases hhash : '#' ∈ own
        · rw [withoutFragment_append_of_mem hhash]
        · have hrest : '#' ∉ '?' :: query.toList := by
            rw [List.mem_cons, not_or]
            exact ⟨by decide, fun hhash => ne_of_isQueryChar (hquery _ hhash) rfl⟩
          rw [withoutFragment_append hhash, withoutFragment_eq_self hrest,
            withoutFragment_eq_self hhash, List.forall_mem_append]
          exact and_iff_left (List.forall_mem_cons.mpr ⟨by decide, hquery⟩)
      · rw [hback]
        exact iff_of_true rfl rfl

section Returns

variable {H : HttpCrate} {U : UriCrate H} {rules : List RewriteRule} {req : Request H}

/-- **When `rewrite_uri` returns.** -/
theorem rewriteUri_isSome_iff (hU : U.Lawful) {uri : H.Uri} (hshort : U.Short uri)
    (newPath : String) :
    (rewriteUri U uri newPath).isSome = true ↔ ¬ AuthorityForm H uri ∧ Accepted newPath := by
  have hparts : (H.scheme uri).isSome = (H.authority uri).isSome ↔ ¬ AuthorityForm H uri := by
    have hboth := hU.authority_of_scheme uri
    unfold AuthorityForm
    cases hs : H.scheme uri <;> cases ha : H.authority uri <;> simp_all
  rw [← accepted_joined_iff (hU.query_scanned uri hshort), ← hU.accepts, ← hparts, rewriteUri]
  cases U.pathAndQuery (joined newPath (U.query uri)) with
  | none => simp
  | some pq => simpa using hU.fromParts (H.scheme uri) (H.authority uri) pq

/-- The first rule that matches a path. -/
def firstRule (rules : List RewriteRule) (path : String) : Option RewriteRule :=
  rules.find? fun rule => rule.isMatch path

theorem firstRule_mem {path : String} {rule : RewriteRule} (h : firstRule rules path = some rule) :
    rule ∈ rules :=
  List.mem_of_find?_eq_some h

theorem rewrite_of_firstRule {path : String} {rule : RewriteRule}
    (h : firstRule rules path = some rule) : ∃ newPath, rule.rewrite path = some newPath := by
  rw [← Option.isSome_iff_exists, ← rule.isMatch_eq_isSome]
  exact List.find?_some (p := fun rule : RewriteRule => rule.isMatch path) h

/-- **The loop**: the first rule that matches, if there is one. -/
theorem rewriteRequest_eq (rules : List RewriteRule) (req : Request H) :
    rewriteRequest U rules req =
      match firstRule rules (H.path req.uri) with
      | none => some req
      | some rule => ((rule.rewrite (H.path req.uri)).bind (rewriteUri U req.uri)).map fun uri =>
          { req with uri := uri } := by
  induction rules with
  | nil => rfl
  | cons rule rules ih =>
      have hmatch := rule.isMatch_eq_isSome (H.path req.uri)
      rw [rewriteRequest, firstRule, List.find?_cons]
      cases hrule : rule.rewrite (H.path req.uri) with
      | some newPath =>
          rw [hrule] at hmatch
          rw [hmatch]
          dsimp only [Option.isSome_some]
          rw [hrule]
          rfl
      | none =>
          rw [hrule] at hmatch
          rw [hmatch]
          exact ih

theorem rewriteRequest_of_firstRule {rule : RewriteRule} {newPath : String}
    (hfirst : firstRule rules (H.path req.uri) = some rule)
    (hnew : rule.rewrite (H.path req.uri) = some newPath) :
    rewriteRequest U rules req =
      (rewriteUri U req.uri newPath).map fun uri => { req with uri := uri } := by
  rw [rewriteRequest_eq, hfirst]
  dsimp only
  rw [hnew]
  rfl

/-- A request that a rule matches is handed on exactly if the target is not in authority form and
the rule fits. -/
theorem call_isSome_iff {inner : HttpService H} {world : World H} {rule : RewriteRule}
    (hU : U.Lawful) (hshort : U.Short req.uri) (hrule : rule.Plain)
    (hfirst : firstRule rules (H.path req.uri) = some rule) :
    (call U rules inner req world).isSome = true ↔
      ¬ AuthorityForm H req.uri ∧ rule.Fits (H.path req.uri) := by
  obtain ⟨newPath, hnew⟩ := rewrite_of_firstRule hfirst
  rw [call, rewriteRequest_of_firstRule hfirst hnew, Option.isSome_map, Option.isSome_map,
    rewriteUri_isSome_iff hU hshort,
    RewriteRule.accepted_rewrite_iff hrule (hU.path_scanned req.uri hshort) hnew]

/-- **When rewriting does not panic.**  A request of at most 65534 bytes is handed on, as it is or
with another URI, exactly if no rule matches its path, or the target is not in authority form and
the first rule that matches fits the path. -/
theorem call_returns_iff (hU : U.Lawful) (rules : List RewriteRule)
    (hrules : ∀ rule ∈ rules, rule.Plain) (inner : HttpService H) (req : Request H)
    (hshort : U.Short req.uri) (world : World H) :
    (∃ req', (req' = req ∨ ∃ uri, req' = { req with uri := uri }) ∧
        call U rules inner req world = some (inner req' world)) ↔
      ∀ rule, firstRule rules (H.path req.uri) = some rule →
        ¬ AuthorityForm H req.uri ∧ rule.Fits (H.path req.uri) := by
  constructor
  · rintro ⟨req', -, hreturn⟩ rule hfirst
    rw [← call_isSome_iff hU hshort (hrules rule (firstRule_mem hfirst)) hfirst, hreturn]
    rfl
  · intro h
    cases hfirst : firstRule rules (H.path req.uri) with
    | none =>
        rw [call, rewriteRequest_eq, hfirst]
        exact ⟨req, .inl rfl, rfl⟩
    | some rule =>
        obtain ⟨newPath, hnew⟩ := rewrite_of_firstRule hfirst
        obtain ⟨hform, hfits⟩ := h rule hfirst
        have haccepted := (RewriteRule.accepted_rewrite_iff (hrules rule (firstRule_mem hfirst))
          (hU.path_scanned req.uri hshort) hnew).mpr hfits
        have hsome := (rewriteUri_isSome_iff hU hshort newPath).mpr ⟨hform, haccepted⟩
        obtain ⟨uri, huri⟩ := Option.isSome_iff_exists.mp hsome
        rw [call, rewriteRequest_of_firstRule hfirst hnew, huri]
        exact ⟨{ req with uri := uri }, .inr ⟨uri, rfl⟩, rfl⟩

end Returns

/-! ### Panics -/

/-- The route of a pattern without parameters. -/
def exactly (pattern : String) : Route where
  names := []
  captures path := if path = pattern then some [] else none
  length_captures h := by
    split at h
    · rw [← Option.some.inj h]
    · cases h

/-- The route of `/{*rest}`. -/
def catchAll : Route where
  names := ["rest"]
  captures path :=
    match path.toList with
    | '/' :: c :: rest => some [String.ofList (c :: rest)]
    | _ => none
  length_captures h := by
    split at h
    · rw [← Option.some.inj h]
      rfl
    · cases h

/-- The regex `.*`: the match is the whole path. -/
def anything : Regex where
  captures path := some ⟨"", "", fun name => if name = "0" then some path else none⟩

/-- Patterns without parameters and `/{*rest}`, and the regex `.*`. -/
def sampleCrates : Crates where
  insert pattern := .ok (if pattern = "/\x7b*rest\x7d" then catchAll else exactly pattern)
  regex _ := .ok anything

theorem plain_exactly (pattern template : String) :
    (RewriteRule.pattern (exactly pattern) template).Plain := by
  refine ⟨fun path values h v hv => ?_, List.forall_mem_nil _⟩
  have hnil := (exactly pattern).length_captures h
  rw [List.length_eq_zero_iff.mp hnil] at hv
  exact absurd hv List.not_mem_nil

theorem plain_catchAll (template : String) : (RewriteRule.pattern catchAll template).Plain := by
  refine ⟨fun path values h v hv => ?_, List.forall_mem_singleton.mpr
    (List.all_iff_forall_prop.mp (by decide))⟩
  dsimp only [catchAll] at h
  split at h
  · rename_i c rest hpath
    rw [← Option.some.inj h, List.mem_singleton] at hv
    rw [hv, hpath, String.toList_ofList]
    exact (List.suffix_cons _ _).isInfix
  · cases h

/-- A `GET` of a target. -/
def getTarget (uri : Target) : Request uris :=
  ⟨"GET", uri, "HTTP/1.1", [], none, [], emptyBody⟩

/-- A service that notes what it is called with. -/
def recorder : HttpService uris := fun req world =>
  (.ok ⟨200, [], emptyBody⟩, { world with sent := world.sent ++ [req] })

def emptyWorld : World uris := ⟨[], fun _ => 0, 0⟩

/-- The hypotheses of `call_returns_iff` are met by a rule from `/{*rest}` to `/new?p={rest}`: it
fits the path of `/old?a=1`, and the call returns. -/
theorem call_returns_new : ∃ rules uri,
    path sampleCrates "/\x7b*rest\x7d" "/new?p=\x7brest\x7d" = .ok rules ∧
    uris.parse "/old?a=1" = .ok uri ∧
    ∃ req', (req' = getTarget uri ∨ ∃ uri', req' = { getTarget uri with uri := uri' }) ∧
      call uriCrate rules recorder (getTarget uri) emptyWorld =
        some (recorder req' emptyWorld) := by
  obtain ⟨uri, huri, horigin, hpath, hquery⟩ := exists_origin "/old?a=1" (by decide +kernel)
    (by decide +kernel) (by decide +kernel)
  have hshort : uriCrate.Short uri := by
    rw [UriCrate.Short, hpath, hquery]
    decide +kernel
  refine ⟨[.pattern catchAll "/new?p=\x7brest\x7d"], uri, rfl, huri,
    (call_returns_iff uriCrate_lawful _ (List.forall_mem_singleton.mpr (plain_catchAll _))
      recorder (getTarget uri) hshort emptyWorld).mpr ?_⟩
  intro rule hfirst
  obtain rfl := List.mem_singleton.mp (firstRule_mem hfirst)
  refine ⟨horigin, ?_⟩
  change RewriteRule.Fits _ (uris.path uri)
  rw [hpath]
  intro values hvalues
  obtain rfl : ["old"] = values := Option.some.inj hvalues
  refine ⟨List.all_iff_forall_prop.mp (by decide +kernel), fun own hown => .inr ?_⟩
  obtain rfl : "p=\x7brest\x7d".toList = own := (List.cons.inj hown).2
  refine ⟨List.all_iff_forall_prop.mp (by decide +kernel), ?_⟩
  rintro (⟨hquote, -⟩ | hnone)
  · exact absurd hquote (by decide)
  · exact hnone

/-- **Three panics.**  The template has a space; the target is that of a `CONNECT`; a quotation
mark of the path is put into the query of the template. -/
theorem rewriting_panics :
    (∃ rules uri, path sampleCrates "/a" "/b c" = .ok rules ∧ uris.parse "/a" = .ok uri ∧
      call uriCrate rules recorder (getTarget uri) emptyWorld = none) ∧
    (∃ rules, regex sampleCrates ".*" "/x" = .ok rules ∧
      call uriCrate rules recorder (getTarget (.connect "example.com:443")) emptyWorld = none) ∧
    ∃ rules uri, path sampleCrates "/\x7b*rest\x7d" "/new?p=\x7brest\x7d" = .ok rules ∧
      uris.parse "/\"" = .ok uri ∧
      call uriCrate rules recorder (getTarget uri) emptyWorld = none := by
  have hnone : ∀ {rule : RewriteRule} {uri : Target} {newPath : String}, uriCrate.Short uri →
      rule.rewrite (uris.path uri) = some newPath →
      ¬ (¬ AuthorityForm uris uri ∧ Accepted newPath) →
      call uriCrate [rule] recorder (getTarget uri) emptyWorld = none := by
    intro rule uri newPath hshort hrule hbad
    have hfirst : firstRule [rule] (uris.path (getTarget uri).uri) = some rule := by
      refine List.find?_cons_of_pos ?_
      rw [rule.isMatch_eq_isSome]
      exact Option.isSome_iff_exists.mpr ⟨newPath, hrule⟩
    rw [call, rewriteRequest_of_firstRule hfirst hrule, Option.map_eq_none_iff,
      Option.map_eq_none_iff]
    exact Option.not_isSome_iff_eq_none.mp fun h =>
      hbad ((rewriteUri_isSome_iff uriCrate_lawful hshort newPath).mp h)
  refine ⟨?_, ⟨[.regex anything "/x"], rfl, hnone (Nat.zero_le 65534) rfl ?_⟩, ?_⟩
  · obtain ⟨uri, huri, -, hpath, hquery⟩ := exists_origin "/a" (by decide +kernel)
      (by decide +kernel) (by decide +kernel)
    have hshort : uriCrate.Short uri := by
      rw [UriCrate.Short, hpath, hquery]
      decide +kernel
    have hrule : (RewriteRule.pattern (exactly "/a") "/b c").rewrite (uris.path uri) =
        some "/b c" := by
      rw [hpath]
      decide +kernel
    exact ⟨[.pattern (exactly "/a") "/b c"], uri, rfl, huri, hnone hshort hrule fun h =>
      absurd h.2 (by decide +kernel)⟩
  · exact fun h => h.1 ⟨rfl, Option.some_ne_none _⟩
  · obtain ⟨uri, huri, -, hpath, hquery⟩ := exists_origin "/\"" (by decide +kernel)
      (by decide +kernel) (by decide +kernel)
    have hshort : uriCrate.Short uri := by
      rw [UriCrate.Short, hpath, hquery]
      decide +kernel
    have hrule : (RewriteRule.pattern catchAll "/new?p=\x7brest\x7d").rewrite (uris.path uri) =
        some "/new?p=\"" := by
      rw [hpath]
      decide +kernel
    exact ⟨[.pattern catchAll _], uri, rfl, huri, hnone hshort hrule fun h =>
      absurd h.2 (by decide +kernel)⟩

end UrlRewrite
end Noxy
