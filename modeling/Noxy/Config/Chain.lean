/-
# A request on its way through the layers

`src/config.rs`: `apply_layer` and the chain that the declarations of a listener make, with
`src/middleware/conditional.rs`, `url_rewrite.rs` and `modify_headers.rs`, and what each of
the other middlewares hands on.

In the chain each `Conditional` asks its predicate of the request as it arrives there, and the
layers in front of it may have rewritten the path or the headers, or answered the request
themselves.  Most layers call the service inside in their own `call`, and the retry layer and the
scripts in their future.  A circuit breaker calls it, and then asks its store and drops the future
if the request is turned away: the request has passed the layers inside by then, up to the first
that calls in its future.

`chain` is the chain, of the same `emitLayers` as the proxy's, with services that say which layers
a request passed, in the `call` and in the future; `mem_passed_iff` says that these are the
declarations that fire on the request as it arrives.
-/

import Noxy.Config.Emit
import Noxy.Config.Listeners

namespace Noxy
namespace Config

open Http Proxy Lib

variable {C : Crates}

/-- What the layers meet outside: the libraries they call, the draws of the fault injectors,
the stores of the circuit breakers and what the scripts do. -/
structure RuleEnv (C : Crates) where
  /-- `HeaderValue::from_str`. -/
  headerValue : String → Option (List UInt8)
  /-- `Uri::query`. -/
  query : C.http.Uri → Option String
  /-- `str::parse::<PathAndQuery>`. -/
  pathAndQuery : String → Option C.http.PathAndQuery
  /-- `RewriteRule::rewrite` with a `matchit` pattern, a template and a path. -/
  rewritePattern : String → String → String → Option String
  /-- `RewriteRule::rewrite` with a regex, a replacement and a path. -/
  rewriteRegex : String → String → String → Option String
  /-- The fault injector of a declaration answers, by its draw. -/
  faults : ℕ → Bool
  /-- The circuit breaker of a declaration turns the request away. -/
  rejects : ℕ → Bool
  /-- What the script of a declaration forwards. -/
  script : ℕ → Request C.http → Option (Request C.http)

/-- `HeaderMap::insert`. -/
def insertHeader (headers : HeaderMap) (name : String) (value : List UInt8) : HeaderMap :=
  HeaderMap.remove headers name ++ [(name, value)]

section Layers

variable (E : RuleEnv C)

/-- `rewrite_uri`; there is nothing if it panics. -/
def rewriteUri (uri : C.http.Uri) (newPath : String) : Option C.http.Uri :=
  let text := match E.query uri with
    | some query => newPath ++ "?" ++ query
    | none => newPath
  (E.pathAndQuery text).bind fun pq =>
    C.http.fromParts (C.http.scheme uri) (C.http.authority uri) (some pq)

/-- `UrlRewriteService::call`, of one rule. -/
def rewritten (rewrite : String → Option String) (req : Request C.http) :
    Option (Request C.http) :=
  match rewrite (C.http.path req.uri) with
  | some newPath => (rewriteUri E req.uri newPath).map fun uri => { req with uri := uri }
  | none => some req

/-- The request that the layer of a rule hands on, or nothing if it answers itself.  A circuit
breaker calls the service inside before it asks its store, and a retry layer calls it with
the method, the URI and the headers of the request each time. -/
def Leaf.handsOn (i : ℕ) (leaf : Leaf) (req : Request C.http) : Option (Request C.http) :=
  match leaf with
  | .respond .. => none
  | .fault .. => if E.faults i then none else some req
  | .block hosts paths _ =>
      (newBlockList C hosts paths).toOption.bind fun bl =>
        if bl.isBlocked req then none else some req
  | .setRequestHeader name value =>
      (C.http.headerName name).toOption.bind fun n =>
        (E.headerValue value).map fun v => { req with headers := insertHeader req.headers n v }
  | .appendRequestHeader name value =>
      (C.http.headerName name).toOption.bind fun n =>
        (E.headerValue value).map fun v => { req with headers := req.headers ++ [(n, v)] }
  | .removeRequestHeader name =>
      (C.http.headerName name).toOption.map fun n =>
        { req with headers := HeaderMap.remove req.headers n }
  | .rewritePath pattern replace => rewritten E (E.rewritePattern pattern replace) req
  | .rewritePathRegex pattern replace => rewritten E (E.rewriteRegex pattern replace) req
  | .script .. | .scriptFile .. => E.script i req
  | .upstream .. | .log .. | .latency .. | .bandwidth .. | .rateLimit .. | .slidingWindow ..
  | .circuitBreaker .. | .retry .. | .setResponseHeader .. | .appendResponseHeader ..
  | .removeResponseHeader .. =>
      some req

/-- The layer calls the service inside in its future. -/
def Leaf.callsLater : Leaf → Bool
  | .retry .. | .script .. | .scriptFile .. => true
  | _ => false

/-- The layer drops the future of the service inside: a circuit breaker that turns the request
away. -/
def Leaf.drops (i : ℕ) : Leaf → Bool
  | .circuitBreaker .. => E.rejects i
  | _ => false

/-- The way of a request: the positions of the declarations whose layers it passed in the `call`,
and of those that it passes in the future. -/
structure Passage where
  call : List ℕ
  future : List ℕ
  deriving DecidableEq, Repr

/-- What is passed, if the future is dropped or not. -/
def Passage.seen (p : Passage) (dropped : Bool) : List ℕ :=
  if dropped then p.call else p.call ++ p.future

/-- The layers that a request passes. -/
def Passage.passed (p : Passage) : List ℕ := p.seen false

/-- The layer of a declaration, between services that say what was passed. -/
def tracedLayer (i : ℕ) (d : Decl C) : Layer C.http Passage := fun inner req =>
  match d.leaf.handsOn E i req with
  | none => ⟨[i], []⟩
  | some req =>
      let p := inner req
      if d.leaf.callsLater then ⟨[i], p.call ++ p.future⟩
      else if d.leaf.drops E i then ⟨i :: p.call, []⟩
      else ⟨i :: p.call, p.future⟩

/-- The chain of the declarations from a position on: the first outermost, and inside the
service that routes. -/
def chain (i : ℕ) (decls : List (Decl C)) : Request C.http → Passage :=
  (emitLayers (tracedLayer E) i decls).foldr (fun layer service => layer service) fun _ => ⟨[], []⟩

/-- Whether the future inside is dropped, if that of the layer is or not; there is nothing if the
service inside is not called. -/
def Leaf.inside (i : ℕ) (leaf : Leaf) (dropped : Bool) : Option Bool :=
  if leaf.callsLater then (if dropped then none else some false)
  else some (dropped || leaf.drops E i)

/-- What one declaration makes of a request, and of its future. -/
def afterDecl (i : ℕ) (d : Decl C) (s : Request C.http × Bool) : Option (Request C.http × Bool) :=
  if d.isUpstream = false ∧ d.fires s.1 = true then
    (d.leaf.handsOn E i s.1).bind fun req =>
      (d.leaf.inside E i s.2).map fun dropped => (req, dropped)
  else some s

/-- The request as it arrives behind the first `n` declarations, the first of them at the
position `i`, and whether its future is dropped there. -/
def arriving (i : ℕ) : List (Decl C) → ℕ → Request C.http × Bool → Option (Request C.http × Bool)
  | _, 0, s => some s
  | [], _ + 1, s => some s
  | d :: decls, n + 1, s => (afterDecl E i d s).bind (arriving (i + 1) decls n)

variable {E}

/-- The chain takes one declaration at a time. -/
theorem seen_chain_cons (i : ℕ) (d : Decl C) (decls : List (Decl C)) (s : Request C.http × Bool) :
    (chain E i (d :: decls) s.1).seen s.2 =
      if d.isUpstream = false ∧ d.fires s.1 = true then
        i :: ((afterDecl E i d s).map fun s => (chain E (i + 1) decls s.1).seen s.2).getD []
      else (chain E (i + 1) decls s.1).seen s.2 := by
  obtain ⟨req, dropped⟩ := s
  unfold chain
  rw [emitLayers]
  cases hup : d.isUpstream with
  | true => rw [if_pos rfl, if_neg fun h => Bool.noConfusion h.1]
  | false =>
      rw [if_neg Bool.false_ne_true, List.foldr_cons, applyLayer_apply]
      cases hfires : holds (effectivePredicate d) req with
      | false =>
          rw [if_neg Bool.false_ne_true, if_neg fun h => Bool.noConfusion (hfires.symm.trans h.2)]
      | true =>
          rw [if_pos rfl, if_pos ⟨rfl, hfires⟩, afterDecl, if_pos ⟨hup, hfires⟩, tracedLayer]
          cases d.leaf.handsOn E i req with
          | none => cases dropped <;> rfl
          | some req' =>
              rw [Option.bind_some, Leaf.inside]
              cases d.leaf.callsLater <;> cases d.leaf.drops E i <;> cases dropped <;>
                simp [Passage.seen]

theorem le_of_mem_seen {decls : List (Decl C)} :
    ∀ {i j : ℕ} {s : Request C.http × Bool}, j ∈ (chain E i decls s.1).seen s.2 → i ≤ j := by
  induction decls with
  | nil =>
      intro i j s h
      rw [Passage.seen] at h
      split at h <;> cases h
  | cons d decls ih =>
      intro i j s h
      rw [seen_chain_cons] at h
      split at h
      · rcases List.mem_cons.mp h with rfl | h
        · exact Nat.le_refl _
        · cases hafter : afterDecl E i d s with
          | none =>
              rw [hafter] at h
              cases h
          | some s' =>
              rw [hafter] at h
              exact Nat.le_of_succ_le (ih h)
      · exact Nat.le_of_succ_le (ih h)

/-- **The layers that a request passes** are those of the declarations that fire on the
request as it arrives there. -/
theorem mem_seen_iff {decls : List (Decl C)} :
    ∀ {i n : ℕ} {s : Request C.http × Bool} {d : Decl C}, decls[n]? = some d →
      d.isUpstream = false → (i + n ∈ (chain E i decls s.1).seen s.2 ↔
        (arriving E i decls n s).any (fun s => d.fires s.1) = true) := by
  induction decls with
  | nil => exact fun h => nomatch h
  | cons e decls ih =>
      intro i n s d hd hup
      rw [seen_chain_cons]
      cases n with
      | zero =>
          rw [List.getElem?_cons_zero, Option.some.injEq] at hd
          subst hd
          rw [arriving, Option.any_some, Nat.add_zero]
          constructor
          · intro h
            split at h
            · rename_i hfires
              exact hfires.2
            · exact absurd (le_of_mem_seen h) (by omega)
          · intro h
            rw [if_pos ⟨hup, h⟩]
            exact List.mem_cons_self ..
      | succ n =>
          rw [List.getElem?_cons_succ] at hd
          have hpos : i + (n + 1) = i + 1 + n := by omega
          rw [arriving, hpos]
          split
          · cases afterDecl E i e s with
            | none =>
                simp only [Option.map_none, Option.getD_none, List.mem_singleton,
                  Option.bind_none, Option.any_none, Bool.false_eq_true, iff_false]
                omega
            | some s' =>
                rw [Option.map_some, Option.getD_some, Option.bind_some, ← ih hd hup,
                  List.mem_cons]
                exact or_iff_right (by omega)
          · rename_i hquiet
            rw [afterDecl, if_neg hquiet, Option.bind_some]
            exact ih hd hup

theorem mem_passed_iff {decls : List (Decl C)} {n : ℕ} {d : Decl C} (hd : decls[n]? = some d)
    (hup : d.isUpstream = false) (req : Request C.http) :
    n ∈ (chain E 0 decls req).passed ↔
      (arriving E 0 decls n (req, false)).any (fun s => d.fires s.1) = true := by
  have hmem : 0 + n ∈ (chain E 0 decls (req, false).1).seen (req, false).2 ↔ _ :=
    mem_seen_iff hd hup
  rwa [Nat.zero_add] at hmem

/-- What arrives behind one more declaration. -/
theorem arriving_succ {decls : List (Decl C)} :
    ∀ {i n : ℕ} {d : Decl C}, decls[n]? = some d → ∀ s,
      arriving E i decls (n + 1) s = (arriving E i decls n s).bind (afterDecl E (i + n) d) := by
  induction decls with
  | nil => exact fun h => nomatch h
  | cons e decls ih =>
      intro i n d hd s
      rw [arriving]
      cases n with
      | zero =>
          rw [List.getElem?_cons_zero, Option.some.injEq] at hd
          subst hd
          rw [arriving, Option.bind_some, Nat.add_zero]
          cases afterDecl E i e s with
          | none => rfl
          | some s' =>
              rw [Option.bind_some]
              cases decls <;> rfl
      | succ n =>
          rw [List.getElem?_cons_succ] at hd
          rw [arriving, Option.bind_assoc]
          refine Option.bind_congr fun s' _ => ?_
          rw [ih hd, show i + 1 + n = i + (n + 1) by omega]

end Layers

end Config
end Noxy
