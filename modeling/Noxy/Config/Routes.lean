/-
# Which upstream a request is routed to

`src/config.rs`: `UpstreamConfig::emit` and `resolve_exclusions`; `src/middleware/router.rs`:
`RouterService::call`.

An `upstream` is not of an exclusive kind, so that its route asks only whether the match nodes
around it hold.  The routes stand in the order of the declarations, and the first that holds
wins: a request is routed to the first `upstream` in scope (`routedTo_iff`).

Innermost should win here as elsewhere: a request should go to an `upstream` in scope that has
no other one in scope inside it.  The first one in scope is such exactly if every `upstream`
in scope that has another one in scope inside it comes after one that has none
(`innermost_routed_iff`).  An `upstream` that is declared before the nested one takes all of
its requests (`nested_upstream_unreachable`).
-/

import Mathlib.Data.Nat.Find
import Noxy.Config.Emit
import Noxy.Config.ListenerShadowing

namespace Noxy
namespace Config

open Http Proxy Lib

variable {C : Crates}

/-- The router sends a request to the upstream of the declaration at a position, whose counter
is in the cell of that number. -/
def RoutedTo (b : ProxyBuilder C.http) (req : Request C.http) (i : ℕ) : Prop :=
  ∃ upstream, Router.firstMatch b.routes req = some upstream ∧ upstream.counter = i

/-- A route is found by its key. -/
theorem routedTo_iff_find {b : ProxyBuilder C.http} {req : Request C.http} {i : ℕ} :
    RoutedTo b req i ↔
      ((b.routes.map routeKey).find? fun key => key.1 req).map Prod.snd = some i := by
  unfold RoutedTo Router.firstMatch
  rw [List.find?_map, Option.map_map]
  change _ ↔ Option.map _ (b.routes.find? fun r => r.1 req) = _
  cases b.routes.find? fun r => r.1 req with
  | none => simp
  | some r =>
      simp only [Option.map_some, Option.some.injEq, exists_eq_left', Function.comp_apply]
      exact Iff.rfl

/-- The first key that holds is that of the first `upstream` that fires. -/
theorem find_routeKeys_iff {decls : List (Decl C)} {req : Request C.http} {i : ℕ} :
    ((routeKeys 0 decls).find? fun key => key.1 req).map Prod.snd = some i ↔
      (∃ d, decls[i]? = some d ∧ d.isUpstream = true ∧ d.fires req = true) ∧
        ∀ j < i, ∀ d, decls[j]? = some d → d.isUpstream = true → d.fires req = false := by
  have hfind : (routeKeys 0 decls).find? (fun key => key.1 req) =
      ((decls.zipIdx.find? fun e => e.1.isUpstream && e.1.fires req).map
        fun e => (e.1.fires, e.2)) := by
    rw [routeKeys, List.find?_map, List.find?_filter]
    simp only [Bool.decide_and, Bool.decide_eq_true, Function.comp_apply]
  rw [hfind, Option.map_map, Option.map_eq_some_iff]
  constructor
  · rintro ⟨⟨d, k⟩, he, hk⟩
    obtain rfl : k = i := hk
    obtain ⟨hp, n, hn, hget, hbefore⟩ := List.find?_eq_some_iff_getElem.mp he
    rw [List.getElem_zipIdx, Prod.mk.injEq, Nat.zero_add] at hget
    obtain ⟨hd, rfl⟩ := hget
    rw [Bool.and_eq_true] at hp
    rw [List.length_zipIdx] at hn
    refine ⟨⟨d, by rw [List.getElem?_eq_getElem hn, hd], hp⟩, fun j hj e hj' hup => ?_⟩
    have hnot := hbefore j hj
    have hlt : j < decls.length := by omega
    rw [List.getElem?_eq_getElem hlt, Option.some.injEq] at hj'
    rw [List.getElem_zipIdx] at hnot
    simpa [hj', hup] using hnot
  · rintro ⟨⟨d, hd, hup, hfires⟩, hbefore⟩
    obtain ⟨hi, hget⟩ := List.getElem?_eq_some_iff.mp hd
    refine ⟨(d, i), List.find?_eq_some_iff_getElem.mpr ⟨by simp [hup, hfires], i, ?_, ?_, ?_⟩, rfl⟩
    · rwa [List.length_zipIdx]
    · rw [List.getElem_zipIdx, hget, Nat.zero_add]
    · intro j hj
      have hlt : j < decls.length := by omega
      rw [List.getElem_zipIdx]
      cases hupj : (decls[j]).isUpstream with
      | false => simp
      | true =>
          have := hbefore j hj _ (List.getElem?_eq_getElem hlt) hupj
          simp [this]

/-- The leaf is an `upstream`. -/
def Placed.IsUpstream (p : Placed) : Prop := p.site.kind = .upstream

/-- The `upstream` leaves. -/
def upstreams (globals body : List RuleNode) : List Placed :=
  (placed globals body).filter fun p => p.site.kind == .upstream

theorem mem_upstreams {globals body : List RuleNode} {p : Placed} :
    p ∈ upstreams globals body ↔ p ∈ placed globals body ∧ p.IsUpstream := by
  rw [upstreams, List.mem_filter, beq_iff_eq]
  exact Iff.rfl

/-- The leaf is an `upstream` in scope, and no other one in scope is inside its scope. -/
def InnermostUpstream (C : Crates) (globals body : List RuleNode) (req : Request C.http)
    (p : Placed) : Prop :=
  Innermost (fun p q : Placed => Inside globals body p.scope q.scope)
    (fun p => p.site.InScope C req) (upstreams globals body) p

section Listener

variable {globals body : List RuleNode} {redis : Option RedisConnection}
  {cache cache' : RedisCache} {decls : List (Decl C)}
  (hwalk : walkListenerBody globals body redis cache = .ok (decls, cache'))
include hwalk

/-- The declaration of an `upstream` fires exactly if it is in scope. -/
theorem fires_upstream {i : ℕ} {p : Placed} (hp : (placed globals body)[i]? = some p)
    {d : Decl C} (hd : decls[i]? = some d) :
    (d.isUpstream = true ↔ p.IsUpstream) ∧
      (p.IsUpstream → ∀ req, d.fires req = true ↔ p.site.InScope C req) := by
  rw [walkListenerBody_spec hwalk] at hd
  obtain ⟨hleaf, hfires⟩ := fires_resolveExclusions (fun _ => rfl) hp hd
  constructor
  · rw [Decl.isUpstream, hleaf, beq_iff_eq]
    exact Iff.rfl
  · intro hup req
    have hkind : (p.decl C redis).leaf.kind = .upstream := hup
    have hadd : ¬ (p.decl C redis).leaf.kind.isExclusive = true := by
      rw [hkind]
      exact Bool.false_ne_true
    rw [hfires req, inScope_iff, ← holds_andPredicates]
    exact and_iff_left fun h => absurd h hadd

theorem length_decls : decls.length = (placed globals body).length := by
  rw [walkListenerBody_spec hwalk, length_resolveExclusions, List.length_map]

variable {layerOf : ℕ → Decl C → Except String (LayerFn C.http)} {b b' : ProxyBuilder C.http}
  (hb : b.routes = []) (hemit : emitDecls layerOf 0 decls b = .ok b')
include hb hemit

/-- **A request is routed to the first `upstream` in scope.** -/
theorem routedTo_iff {req : Request C.http} {i : ℕ} :
    RoutedTo b' req i ↔
      (∃ p, (placed globals body)[i]? = some p ∧ p.IsUpstream ∧ p.site.InScope C req) ∧
        ∀ j < i, ∀ p, (placed globals body)[j]? = some p → p.IsUpstream →
          ¬ p.site.InScope C req := by
  have hkeys : b'.routes.map routeKey = routeKeys 0 decls := by
    let layers : ℕ → Decl C → LayerFn C.http := fun j d => (layerOf j d).toOption.getD id
    have hlayers : ∀ j d layer, layerOf j d = .ok layer → layer = layers j d := by
      intro j d layer h
      show layer = (layerOf j d).toOption.getD id
      rw [h]
      rfl
    have h := (emitDecls_spec hlayers hemit).2
    rwa [hb, List.map_nil, List.nil_append] at h
  rw [routedTo_iff_find, hkeys, find_routeKeys_iff]
  have hget : ∀ j : ℕ, (∃ d, decls[j]? = some d) ↔ ∃ p, (placed globals body)[j]? = some p := by
    intro j
    rw [← Option.isSome_iff_exists, ← Option.isSome_iff_exists, isSome_getElem?,
      isSome_getElem?, length_decls hwalk]
  refine and_congr ?_ (forall₂_congr fun j _ => ?_)
  · constructor
    · rintro ⟨d, hd, hup, hfires⟩
      obtain ⟨p, hp⟩ := (hget i).mp ⟨d, hd⟩
      obtain ⟨hiff, hscope⟩ := fires_upstream hwalk hp hd
      exact ⟨p, hp, hiff.mp hup, (hscope (hiff.mp hup) req).mp hfires⟩
    · rintro ⟨p, hp, hup, hin⟩
      obtain ⟨d, hd⟩ := (hget i).mpr ⟨p, hp⟩
      obtain ⟨hiff, hscope⟩ := fires_upstream hwalk hp hd
      exact ⟨d, hd, hiff.mpr hup, (hscope hup req).mpr hin⟩
  · constructor
    · intro h p hp hup hin
      obtain ⟨d, hd⟩ := (hget j).mpr ⟨p, hp⟩
      obtain ⟨hiff, hscope⟩ := fires_upstream hwalk hp hd
      have hfalse := h d hd (hiff.mpr hup)
      rw [(hscope hup req).mpr hin] at hfalse
      cases hfalse
    · intro h d hd hup
      obtain ⟨p, hp⟩ := (hget j).mp ⟨d, hd⟩
      obtain ⟨hiff, hscope⟩ := fires_upstream hwalk hp hd
      rw [← Bool.not_eq_true, hscope (hiff.mp hup)]
      exact h p hp (hiff.mp hup)

/-- **Innermost wins among upstreams** exactly if every `upstream` in scope that has another
one in scope inside it comes after one that has none. -/
theorem innermost_routed_iff {req : Request C.http}
    (hsome : ∃ p ∈ upstreams globals body, p.site.InScope C req) :
    (∃ (i : ℕ) (p : Placed), RoutedTo b' req i ∧ (placed globals body)[i]? = some p ∧
        p.IsUpstream ∧ InnermostUpstream C globals body req p) ↔
      ∀ (i : ℕ) (p : Placed), (placed globals body)[i]? = some p → p.IsUpstream →
        p.site.InScope C req →
        (∃ q ∈ upstreams globals body, Inside globals body p.scope q.scope ∧
          q.site.InScope C req) →
        ∃ j < i, ∃ q, (placed globals body)[j]? = some q ∧ q.IsUpstream ∧
          InnermostUpstream C globals body req q := by
  classical
  constructor
  · rintro ⟨m, pm, hrouted, hpm, hup, hinner⟩ i p hp hpup hin hbelow
    obtain ⟨_, hfirst⟩ := (routedTo_iff hwalk hb hemit).mp hrouted
    refine ⟨m, ?_, pm, hpm, hup, hinner⟩
    rcases Nat.lt_trichotomy m i with hlt | rfl | hgt
    · exact hlt
    · obtain rfl : pm = p := Option.some.inj (hpm.symm.trans hp)
      exact absurd hbelow hinner.2
    · exact absurd hin (hfirst i hgt p hp hpup)
  · intro h
    -- The first `upstream` in scope: by `h`, it can only be innermost.
    obtain ⟨p₀, hmem, hin₀⟩ := hsome
    obtain ⟨hplaced, hup₀⟩ := mem_upstreams.mp hmem
    obtain ⟨i₀, hi₀⟩ := List.mem_iff_getElem?.mp hplaced
    have hex : ∃ i : ℕ, ∃ p, (placed globals body)[i]? = some p ∧ p.IsUpstream ∧
        p.site.InScope C req := ⟨i₀, p₀, hi₀, hup₀, hin₀⟩
    obtain ⟨p, hp, hup, hin⟩ := Nat.find_spec hex
    have hfirst : ∀ j < Nat.find hex, ∀ q, (placed globals body)[j]? = some q → q.IsUpstream →
        ¬ q.site.InScope C req := fun j hj q hq hupq hinq =>
      Nat.find_min hex hj ⟨q, hq, hupq, hinq⟩
    refine ⟨_, p, (routedTo_iff hwalk hb hemit).mpr ⟨⟨p, hp, hup, hin⟩, hfirst⟩, hp, hup, hin, ?_⟩
    intro hbelow
    obtain ⟨j, hj, q, hq, hupq, hinnerq⟩ := h _ p hp hup hin hbelow
    exact hfirst j hj q hq hupq hinnerq.1

end Listener

/-- `Crates.plain`, with URLs that are authorities. -/
def Crates.hosts : Crates :=
  { Crates.plain with
    http := { HttpCrate.plain with parse := fun text => .ok (.ofPath (some text) "/") } }

/-- A `GET` of `/api`. -/
def requestToApi : Request Crates.hosts.http :=
  ⟨"GET", PlainUri.ofPath none "/api", "HTTP/1.1", [], none, [], emptyBody⟩

/-- The `upstream` of `/api`, in its match node. -/
def apiUpstream : RuleNode :=
  .scope (.path "/api") none none [.leaf (.upstream ["api"] none)]

/-- The `upstream` of the listener. -/
def rootUpstream : RuleNode := .leaf (.upstream ["root"] none)

/-- No other layers. -/
def noLayers : ℕ → Decl Crates.hosts → Except String (LayerFn Crates.hosts.http) :=
  fun _ _ => .error "no layer"

/-- Nothing is inside the match node of `/api`. -/
theorem not_inside_api {q : Placed} (hq : q ∈ placed [] [apiUpstream, rootUpstream]) :
    ¬ Inside [] [apiUpstream, rootUpstream] (.listener [0]) q.scope := by
  rw [inside_iff (valid_of_mem_placed hq)]
  rcases List.mem_cons.mp hq with rfl | hq
  · exact fun h => absurd h.2 (Nat.lt_irrefl _)
  · rw [List.mem_singleton.mp hq]
    exact not_strictPrefix_nil _

/-- The condition of `innermost_routed_iff` can be met: with the nested `upstream` declared
first, `GET /api` is routed to it. -/
theorem innermost_routed_api : ∃ decls cache b,
    walkListenerBody [] [apiUpstream, rootUpstream] none .empty = .ok (decls, cache) ∧
      emitDecls noLayers 0 decls .new = .ok b ∧
      ∃ (i : ℕ) (p : Placed), RoutedTo b requestToApi i ∧
        (placed [] [apiUpstream, rootUpstream])[i]? = some p ∧ p.IsUpstream ∧
        InnermostUpstream Crates.hosts [] [apiUpstream, rootUpstream] requestToApi p := by
  obtain ⟨p, root, hplaced, hup, hscope⟩ : ∃ p root,
      placed [] [apiUpstream, rootUpstream] = [p, root] ∧ p.IsUpstream ∧
        p.scope = .listener [0] := ⟨_, _, rfl, rfl, rfl⟩
  have hin : p.site.InScope Crates.hosts requestToApi := by
    cases hplaced
    intro h hh
    rw [List.mem_singleton.mp hh]
    rfl
  have hinner : ¬ ∃ q ∈ upstreams [] [apiUpstream, rootUpstream],
      Inside [] [apiUpstream, rootUpstream] p.scope q.scope ∧
        q.site.InScope Crates.hosts requestToApi := by
    rintro ⟨q, hq, hinside, _⟩
    rw [hscope] at hinside
    exact not_inside_api (mem_upstreams.mp hq).1 hinside
  have hmem : p ∈ placed [] [apiUpstream, rootUpstream] := hplaced ▸ List.mem_cons_self ..
  obtain ⟨decls, cache, b, hwalk, hemit⟩ : ∃ decls cache b,
      walkListenerBody [] [apiUpstream, rootUpstream] none .empty = .ok (decls, cache) ∧
        emitDecls noLayers 0 decls .new = .ok b := ⟨_, _, _, rfl, rfl⟩
  refine ⟨decls, cache, b, hwalk, hemit, (innermost_routed_iff hwalk rfl hemit
    ⟨p, mem_upstreams.mpr ⟨hmem, hup⟩, hin⟩).mpr ?_⟩
  intro i p' hp' _ _ hbelow
  rw [hplaced] at hp' ⊢
  match i, hp' with
  | 0, hp' =>
      cases hp'
      exact absurd hbelow hinner
  | 1, _ => exact ⟨0, Nat.one_pos, p, rfl, hup, hin, hinner⟩

/-- **A nested `upstream` is unreachable behind an enclosing one that is declared before it.**
It is in scope for `GET /api`, and every request is routed to the other one. -/
theorem nested_upstream_unreachable : ∃ decls cache b p q,
    walkListenerBody [] [rootUpstream, apiUpstream] none .empty = .ok (decls, cache) ∧
      emitDecls noLayers 0 decls .new = .ok b ∧
      (placed [] [rootUpstream, apiUpstream]) = [p, q] ∧
      q.IsUpstream ∧ q.site.InScope Crates.hosts requestToApi ∧
      Inside [] [rootUpstream, apiUpstream] p.scope q.scope ∧ ∀ req, RoutedTo b req 0 := by
  refine ⟨_, _, _, _, _, rfl, rfl, rfl, rfl, ?_, ?_, fun req => ⟨_, rfl, rfl⟩⟩
  · intro h hh
    rw [List.mem_singleton.mp hh]
    rfl
  · refine (inside_iff (valid_of_mem_placed ?_)).mpr (strictPrefix_nil_iff.mpr ?_)
    · exact List.mem_cons_of_mem _ (List.mem_cons_self ..)
    · exact List.cons_ne_nil _ _

end Config
end Noxy
