/-
# Innermost-wins shadowing

`src/config.rs`: `walk_body`, `resolve_exclusions` and `effective_predicate`
together, over one rule body.

`fires_resolveExclusions` says when a declaration fires, in the code's own terms:
its scope predicate holds, and, if its kind is exclusive, that of no same-kind
declaration with a strictly longer path does.  The walk gives the declarations
the paths and the predicates of the tree (`Noxy.Config.WalkSpec`), and a longer
path is a deeper scope (`Noxy.Config.Tree`), so shadowing is what it is meant to
be (`shadowing_exact`): a declaration fires exactly if the match nodes around it
hold and, if its kind is exclusive, no declaration of the kind properly inside its
scope is in scope.  For an exclusive kind that is `Lib.Innermost`, so whenever a
declaration of the kind is in scope one of them fires, and never two of which one
stands inside the other.
-/

import Noxy.Config.WalkSpec
import Noxy.Lib.Innermost

namespace Noxy
namespace Config

open Http Lib

variable {C : Crates}

/-- The match nodes around a leaf hold on the request. -/
def Site.InScope (C : Crates) (s : Site) (req : Request C.http) : Prop :=
  ∀ h ∈ s.heads, holds (h.pred C) req = true

theorem inScope_iff {s : Site} {req : Request C.http} :
    s.InScope C req ↔ ∀ p ∈ s.preds C, p req = true := by
  simp only [Site.InScope, Site.preds, List.mem_flatMap, Option.mem_toList, holds]
  constructor
  · rintro h p ⟨hd, hmem, hp⟩
    have := h hd hmem
    rwa [hp, Option.all_some] at this
  · intro h hd hmem
    cases hp : hd.pred C with
    | none => rfl
    | some p => exact h p ⟨hd, hmem, hp⟩

/-- The scope predicate of a declaration, when its context has no predicates. -/
theorem holds_declOf {ctx : WalkCtx C} (hpreds : ctx.preds = []) (s : Site)
    (req : Request C.http) : holds (ctx.declOf s).scopePred req = true ↔ s.InScope C req := by
  rw [inScope_iff, WalkCtx.declOf, hpreds, List.nil_append]
  exact holds_andPredicates C _ req

/-- The test of `resolve_exclusions`: same kind and strictly longer path. -/
theorem shadowedBy_iff (d e : Decl C) :
    d.shadowedBy e = true ↔ e.leaf.kind = d.leaf.kind ∧ StrictPrefix d.path e.path := by
  simp only [Decl.shadowedBy, Bool.and_eq_true, beq_iff_eq, decide_eq_true_eq,
    List.isPrefixOf_iff_prefix, StrictPrefix]
  constructor
  · rintro ⟨⟨hk, hl⟩, hp⟩
    exact ⟨hk.symm, hp, hl⟩
  · rintro ⟨hk, hp, hl⟩
    exact ⟨⟨hk.symm, hl⟩, hp⟩

theorem not_shadowedBy_self (d : Decl C) : ¬ d.shadowedBy d = true := by
  rw [shadowedBy_iff]
  exact fun h => lt_irrefl _ h.2.2

/-- **The exclusions of a declaration** are the predicates of those that shadow it,
in order. -/
theorem excludedFor_eq {decls : List (Decl C)} {i : ℕ} {d : Decl C} (hi : decls[i]? = some d) :
    excludedFor decls i d =
      (decls.filter fun e => d.shadowedBy e).map Decl.exclusion := by
  have hcongr : ∀ p ∈ decls.zipIdx,
      (if i ≠ p.2 ∧ d.shadowedBy p.1 = true then some p.1.exclusion else none) =
        (if d.shadowedBy p.1 = true then some p.1.exclusion else none) := by
    rintro ⟨e, j⟩ hj
    rw [List.mem_zipIdx_iff_getElem?] at hj
    by_cases hsh : d.shadowedBy e = true
    · have hij : i ≠ j := by
        rintro rfl
        obtain rfl : d = e := Option.some.inj (hi.symm.trans hj)
        exact not_shadowedBy_self d hsh
      rw [if_pos ⟨hij, hsh⟩, if_pos hsh]
    · rw [if_neg fun h => hsh h.2, if_neg hsh]
  calc excludedFor decls i d
      = decls.zipIdx.filterMap fun p =>
          if d.shadowedBy p.1 = true then some p.1.exclusion else none :=
        List.filterMap_congr hcongr
    _ = (decls.zipIdx.map Prod.fst).filterMap fun e =>
          if d.shadowedBy e = true then some e.exclusion else none := by
        rw [List.filterMap_map]
        rfl
    _ = (decls.filter fun e => d.shadowedBy e).map Decl.exclusion := by
        rw [List.zipIdx_map_fst, ← List.filterMap_eq_filter, List.map_filterMap]
        refine List.filterMap_congr fun e _ => ?_
        cases hsh : d.shadowedBy e <;> simp [Option.guard, hsh]

theorem mem_excludedFor {decls : List (Decl C)} {i : ℕ} {d : Decl C} (hi : decls[i]? = some d)
    {p : Predicate C} :
    p ∈ excludedFor decls i d ↔ ∃ e ∈ decls, d.shadowedBy e = true ∧ e.exclusion = p := by
  rw [excludedFor_eq hi, List.mem_map]
  simp only [List.mem_filter, and_assoc]

/-- The predicate a declaration excludes others with is its scope predicate. -/
theorem exclusion_apply (d : Decl C) (req : Request C.http) :
    d.exclusion req = holds d.scopePred req := by
  unfold Decl.exclusion holds
  cases d.scopePred <;> rfl

/-- **When a declaration fires**, in the code's own terms: of the declarations that are
made of some leaves, the one of a leaf fires exactly if its scope predicate holds and, if
its kind is exclusive, that of no declaration which shadows it does. -/
theorem fires_resolveExclusions {α : Type*} {decl : α → Decl C} {xs : List α}
    (hnew : ∀ x, (decl x).excludedPreds = []) {i : ℕ} {x : α} (hx : xs[i]? = some x)
    {d : Decl C} (hd : (resolveExclusions (xs.map decl))[i]? = some d) :
    d.leaf = (decl x).leaf ∧
      ∀ req, d.fires req = true ↔ holds (decl x).scopePred req = true ∧
        ((decl x).leaf.kind.isExclusive = true →
          ¬ ∃ y ∈ xs, (decl x).shadowedBy (decl y) = true ∧
            holds (decl y).scopePred req = true) := by
  have hi : (xs.map decl)[i]? = some (decl x) := by
    rw [List.getElem?_map, hx, Option.map_some]
  rw [resolveExclusions, List.getElem?_mapIdx, hi, Option.map_some, Option.some.injEq] at hd
  simp only [fires_iff]
  subst hd
  split
  · rename_i hex
    refine ⟨rfl, fun req => and_congr_right fun _ => ?_⟩
    simp only [mem_excludedFor hi, hex, true_implies, List.mem_map]
    constructor
    · rintro h ⟨y, hy, hsh, hholds⟩
      have hfalse := h _ ⟨_, ⟨y, hy, rfl⟩, hsh, rfl⟩
      rw [exclusion_apply, hholds] at hfalse
      exact absurd hfalse Bool.noConfusion
    · rintro h _ ⟨_, ⟨y, hy, rfl⟩, hsh, rfl⟩
      rw [exclusion_apply, ← Bool.not_eq_true]
      exact fun hholds => h ⟨y, hy, hsh, hholds⟩
  · rename_i hex
    refine ⟨rfl, fun req => and_congr_right fun _ => iff_of_true ?_ fun h => absurd h hex⟩
    rw [hnew x]
    exact fun p hp => absurd hp List.not_mem_nil

theorem length_resolveExclusions (decls : List (Decl C)) :
    (resolveExclusions decls).length = decls.length := by
  rw [resolveExclusions, List.length_mapIdx]

/-- A declaration of one context shadows another exactly if it is of the same kind
and its scope is deeper. -/
theorem shadowedBy_declOf_iff (ctx : WalkCtx C) (s t : Site) :
    (ctx.declOf s).shadowedBy (ctx.declOf t) = true ↔
      t.kind = s.kind ∧ StrictPrefix s.scope t.scope := by
  rw [shadowedBy_iff]
  exact and_congr_right fun _ => strictPrefix_append_left_iff ctx.path s.scope t.scope

/-- **When the declaration of a leaf fires**, in terms of the sites. -/
theorem fires_declOf {ctx : WalkCtx C} (hpreds : ctx.preds = []) {sites : List Site} {i : ℕ}
    {s : Site} {d : Decl C} (hs : sites[i]? = some s)
    (hd : (resolveExclusions (sites.map ctx.declOf))[i]? = some d) (req : Request C.http) :
    d.leaf = s.leaf ∧
      (d.fires req = true ↔ s.InScope C req ∧
        (s.kind.isExclusive = true →
          ¬ ∃ t ∈ sites, t.kind = s.kind ∧ StrictPrefix s.scope t.scope ∧ t.InScope C req)) := by
  obtain ⟨hleaf, hfires⟩ := fires_resolveExclusions (fun _ => rfl) hs hd
  refine ⟨hleaf, (hfires req).trans ?_⟩
  simp only [shadowedBy_declOf_iff, holds_declOf hpreds, and_assoc]
  exact Iff.rfl

/-- A leaf in scope wins: it is additive, or no leaf of its kind is in scope
properly inside its scope. -/
def Site.Wins (C : Crates) (body : List RuleNode) (s : Site) (req : Request C.http) : Prop :=
  s.InScope C req ∧
    (s.kind.isExclusive = true →
      ¬ ∃ t ∈ leaves body, t.kind = s.kind ∧ Descendant body s.scope t.scope ∧ t.InScope C req)

/-- The leaves of a kind. -/
def leavesOf (body : List RuleNode) (k : Kind) : List Site :=
  (leaves body).filter fun s => s.kind == k

theorem mem_leavesOf {body : List RuleNode} {k : Kind} {s : Site} :
    s ∈ leavesOf body k ↔ s ∈ leaves body ∧ s.kind = k := by
  rw [leavesOf, List.mem_filter, beq_iff_eq]

/-- Among the leaves of an exclusive kind, to win is to be innermost. -/
theorem wins_iff_innermost {body : List RuleNode} {s : Site}
    (hk : s.kind.isExclusive = true) (req : Request C.http) :
    s.Wins C body req ↔
      Innermost (fun s t : Site => Descendant body s.scope t.scope) (fun t => t.InScope C req)
        (leavesOf body s.kind) s := by
  refine and_congr_right fun _ => ?_
  simp only [hk, true_implies, mem_leavesOf, and_assoc]

/-- If a leaf of an exclusive kind is in scope, a leaf of the kind wins. -/
theorem exists_wins {body : List RuleNode} {s : Site} (hs : s ∈ leaves body)
    (hk : s.kind.isExclusive = true) {req : Request C.http} (hin : s.InScope C req) :
    ∃ t ∈ leaves body, t.kind = s.kind ∧ t.Wins C body req := by
  obtain ⟨t, ht, hinner⟩ := exists_innermost (fun t : Site => t.InScope C req)
    (fun (x y : Site) (h : Descendant body x.scope y.scope) => h.strictPrefix.2)
    (mem_leavesOf.mpr ⟨hs, rfl⟩) hin
  obtain ⟨hmem, hkind⟩ := mem_leavesOf.mp ht
  rw [← hkind] at hinner hk
  exact ⟨t, hmem, hkind, (wins_iff_innermost hk req).mpr hinner⟩

/-- The leaves and the resolved declarations correspond, and a declaration fires
exactly if its leaf wins. -/
theorem fires_iff_wins {body : List RuleNode} {redis : Option RedisConnection}
    {cache : RedisCache} {ctx : WalkCtx C} {decls : List (Decl C)}
    (h : walkBody body 0 (WalkCtx.start redis cache) [] = .ok (ctx, decls))
    (req : Request C.http) :
    List.Forall₂ (fun s d => d.leaf = s.leaf ∧ (d.fires req = true ↔ s.Wins C body req))
      (leaves body) (resolveExclusions decls) := by
  obtain ⟨_, _, hdecls⟩ := walkBody_spec body 0 _ _ h
  rw [List.nil_append] at hdecls
  subst hdecls
  refine List.forall₂_iff_get.mpr ⟨?_, fun i h₁ h₂ => ?_⟩
  · rw [length_resolveExclusions, List.length_map]
    rfl
  · have hpreds : (WalkCtx.start redis cache : WalkCtx C).preds = [] := rfl
    obtain ⟨hleaf, hfires⟩ := fires_declOf hpreds
      (List.getElem?_eq_getElem h₁) (List.getElem?_eq_getElem h₂) req
    refine ⟨hleaf, hfires.trans (and_congr_right fun _ => imp_congr_right fun _ => not_congr ?_)⟩
    refine exists_congr fun t => and_congr_right fun ht => and_congr_right fun _ => ?_
    exact and_congr_left fun _ => (descendant_iff_of_mem ht _).symm

/-- **Innermost wins.**  Of a rule body that the walk accepts, and for a request:
every match node around a leaf compiles, the leaves and the resolved declarations
correspond, and a declaration fires exactly if its leaf wins.  So if a leaf of an
exclusive kind is in scope, a declaration of the kind fires, and of two that fire
neither is properly inside the other. -/
theorem shadowing_exact {body : List RuleNode} {redis : Option RedisConnection}
    {cache : RedisCache} {ctx : WalkCtx C} {decls : List (Decl C)}
    (h : walkBody body 0 (WalkCtx.start redis cache) [] = .ok (ctx, decls))
    (req : Request C.http) :
    (∀ s ∈ leaves body, ∀ head ∈ s.heads, head.Compiles C) ∧
      List.Forall₂ (fun s d => d.leaf = s.leaf ∧ (d.fires req = true ↔ s.Wins C body req))
        (leaves body) (resolveExclusions decls) ∧
      (∀ k : Kind, k.isExclusive = true → (∃ s ∈ leaves body, s.kind = k ∧ s.InScope C req) →
        ∃ d ∈ resolveExclusions decls, d.leaf.kind = k ∧ d.fires req = true) ∧
      (∀ p ∈ (leaves body).zip (resolveExclusions decls),
        ∀ q ∈ (leaves body).zip (resolveExclusions decls),
          p.1.kind = q.1.kind → p.1.kind.isExclusive = true →
          p.2.fires req = true → q.2.fires req = true →
          ¬ Descendant body p.1.scope q.1.scope) := by
  have hall := fires_iff_wins h req
  refine ⟨compiles_of_walkBody body 0 _ _ h, hall, ?_, ?_⟩
  · rintro k hk ⟨s, hs, rfl, hin⟩
    obtain ⟨t, ht, hkind, hwins⟩ := exists_wins hs hk hin
    obtain ⟨i, hi, rfl⟩ := List.getElem_of_mem ht
    have hi' : i < (resolveExclusions decls).length := hall.length_eq ▸ hi
    obtain ⟨hleaf, hfires⟩ := hall.get hi hi'
    exact ⟨_, List.getElem_mem hi', (congrArg Leaf.kind hleaf).trans hkind, hfires.mpr hwins⟩
  · intro p hp q hq hkind hk hfp hfq
    have hwp := ((List.forall₂_zip hall hp).2).mp hfp
    have hwq := ((List.forall₂_zip hall hq).2).mp hfq
    have hmem : q.1 ∈ leavesOf body p.1.kind :=
      mem_leavesOf.mpr ⟨(List.of_mem_zip hq).1, hkind.symm⟩
    rw [wins_iff_innermost hk] at hwp
    rw [wins_iff_innermost (hkind ▸ hk), ← hkind] at hwq
    exact hwp.not_below hwq hmem

/-- A `log` for every request, and one for the host `a`. -/
def nestedLogs : List RuleNode :=
  [.leaf (.log none none none none),
    .scope (.host "a") none none [.leaf (.log (some true) none none none)]]

/-- A request for the host `a`. -/
def requestToA : Request HttpCrate.plain :=
  ⟨"GET", .ofPath (some "a") "/", "HTTP/1.1", [], none, [], emptyBody⟩

/-- The hypothesis of `shadowing_exact` is met by a nested `log`: one of the two
fires for a request to the inner one's host. -/
theorem shadowing_exact_nestedLogs : ∃ ctx decls,
    walkBody nestedLogs 0 (WalkCtx.start none RedisCache.empty : WalkCtx .plain) [] =
        .ok (ctx, decls) ∧
      ∃ d ∈ resolveExclusions decls, d.leaf.kind = .log ∧ d.fires requestToA = true := by
  obtain ⟨ctx, decls, h⟩ : ∃ ctx decls, walkBody nestedLogs 0
      (WalkCtx.start none RedisCache.empty : WalkCtx .plain) [] = .ok (ctx, decls) := ⟨_, _, rfl⟩
  refine ⟨ctx, decls, h, ?_⟩
  obtain ⟨_, _, hfires, _⟩ := shadowing_exact h requestToA
  refine hfires .log rfl ⟨_, List.mem_cons_self .., rfl, ?_⟩
  exact fun h hh => absurd hh List.not_mem_nil

end Config
end Noxy
