/-
# Adding a rule to the global ones

`src/config.rs`: `walk_listener_body`.  As long as nothing is confused, an additive
rule put somewhere into the global rules leaves it to the same leaves to win
(`winsAmong_shift_iff`), so every other declaration fires for the same requests as
before (`insertionInvariant_of_noClash`).

`exclusions_exact_iff` is the whole statement about the two bodies of a listener:
the exclusions are those of the tree, and adding an additive rule to the global
ones changes nothing else, exactly if no two declarations of one exclusive kind
are confused.  With a confusion a listener's rule turns off a global one that it
is not inside of, and a header rule in front of it turns it on again
(`listener_shadows_nested_global`).
-/

import Noxy.Config.RuleShift

namespace Noxy
namespace Config

open Http

variable {C : Crates}

section Insertion

variable {pre post body : List RuleNode} {l : Leaf}

/-- The leaves after the insertion are those before it, moved, and the new one. -/
theorem mem_placed_insert {p : Placed} (hp : p ∈ placed (pre ++ .leaf l :: post) body) :
    p = ⟨false, ⟨[], l⟩⟩ ∨ ∃ q ∈ placed (pre ++ post) body, p = q.shift pre.length := by
  obtain ⟨before, after, hold, hnew⟩ := placed_insert pre post body l
  rw [hnew, List.mem_append, List.mem_cons, List.mem_map, List.mem_map] at hp
  rw [hold]
  rcases hp with ⟨q, hq, rfl⟩ | rfl | ⟨q, hq, rfl⟩
  · exact .inr ⟨q, List.mem_append_left _ hq, rfl⟩
  · exact .inl rfl
  · exact .inr ⟨q, List.mem_append_right _ hq, rfl⟩

theorem shift_mem_placed_insert {q : Placed} (hq : q ∈ placed (pre ++ post) body) :
    q.shift pre.length ∈ placed (pre ++ .leaf l :: post) body := by
  obtain ⟨before, after, hold, hnew⟩ := placed_insert pre post body l
  rw [hold, List.mem_append] at hq
  rw [hnew, List.mem_append, List.mem_cons]
  rcases hq with hq | hq
  · exact .inl (List.mem_map_of_mem hq)
  · exact .inr (.inr (List.mem_map_of_mem hq))

variable (hl : l.kind.isExclusive = false)

include hl

/-- An additive rule confuses nothing that was not confused. -/
theorem noClash_insert (h : NoClash (pre ++ post) body) :
    NoClash (pre ++ .leaf l :: post) body := by
  intro p hp q hq hkind hex hconf
  rcases mem_placed_insert hp with rfl | ⟨p, hp', rfl⟩
  · exact Bool.false_ne_true (hl.symm.trans hex)
  rcases mem_placed_insert hq with rfl | ⟨q, hq', rfl⟩
  · rw [← hkind] at hex
    exact Bool.false_ne_true (hl.symm.trans hex)
  rw [Placed.kind_shift] at hex
  rw [Placed.kind_shift, Placed.kind_shift] at hkind
  rw [Placed.scope_shift, Placed.scope_shift] at hconf
  exact h p hp' q hq' hkind hex hconf.of_shift

/-- A leaf wins after the insertion exactly if it won before. -/
theorem winsAmong_shift_iff (p : Placed) (req : Request C.http) :
    (p.shift pre.length).WinsAmong C (placed (pre ++ .leaf l :: post) body) req ↔
      p.WinsAmong C (placed (pre ++ post) body) req := by
  rw [Placed.WinsAmong, Placed.WinsAmong, Placed.inScope_shift, Placed.kind_shift]
  refine and_congr_right fun _ => forall_congr' fun hex => not_congr ?_
  constructor
  · rintro ⟨q, hq, hkind, hbelow, hin⟩
    rcases mem_placed_insert hq with rfl | ⟨q, hq', rfl⟩
    · rw [← hkind] at hex
      exact (Bool.false_ne_true (hl.symm.trans hex)).elim
    rw [Placed.kind_shift] at hkind
    rw [Placed.scope_shift, Placed.scope_shift, Scope.below_shift_iff] at hbelow
    exact ⟨q, hq', hkind, hbelow, (q.inScope_shift _ req).mp hin⟩
  · rintro ⟨q, hq, hkind, hbelow, hin⟩
    refine ⟨q.shift pre.length, shift_mem_placed_insert hq, ?_, ?_, ?_⟩
    · rw [Placed.kind_shift, hkind]
    · rwa [Placed.scope_shift, Placed.scope_shift, Scope.below_shift_iff]
    · exact (q.inScope_shift _ req).mpr hin

end Insertion

/-- An additive rule put somewhere into the global rules is one more declaration, and
the other declarations fire for the same requests as before. -/
def InsertionInvariant (globals body : List RuleNode) (redis : Option RedisConnection)
    (cache : RedisCache) (decls : List (Decl C)) : Prop :=
  ∀ (pre post : List RuleNode) (l : Leaf), globals = pre ++ post →
    l.kind.isExclusive = false →
    ∀ (decls' : List (Decl C)) (cache' : RedisCache),
      walkListenerBody (pre ++ .leaf l :: post) body redis cache = .ok (decls', cache') →
      ∃ before d after, decls' = before ++ d :: after ∧ d.leaf = l ∧
        (before ++ after).map (fun e => (e.leaf, e.fires)) =
          decls.map (fun e => (e.leaf, e.fires))

open Classical in
/-- What fires, as a list over the leaves. -/
theorem map_fires_eq {globals body : List RuleNode} (hclash : NoClash globals body)
    (redis : Option RedisConnection) :
    (resolveExclusions ((placed globals body).map (Placed.decl C redis))).map
        (fun d => (d.leaf, d.fires)) =
      (placed globals body).map
        fun p => (p.site.leaf, fun req => decide (p.WinsAmong C (placed globals body) req)) := by
  refine List.ext_getElem? fun i => ?_
  rw [List.getElem?_map, List.getElem?_map]
  rcases hp : (placed globals body)[i]? with _ | p
  · rw [List.getElem?_eq_none_iff] at hp
    rw [List.getElem?_eq_none_iff.mpr (by rwa [length_resolveExclusions, List.length_map])]
    rfl
  · obtain ⟨d, hd⟩ := exists_resolved (C := C) hp redis
    obtain ⟨hleaf, hfires⟩ := fires_placed hclash hp hd
    rw [hd, Option.map_some, Option.map_some, Option.some.injEq, Prod.mk.injEq]
    refine ⟨hleaf, funext fun req => ?_⟩
    rw [Bool.eq_iff_iff, hfires req, decide_eq_true_eq]

/-- With nothing confused an additive rule changes nothing else. -/
theorem insertionInvariant_of_noClash {globals body : List RuleNode}
    (hclash : NoClash globals body) (redis : Option RedisConnection) (cache : RedisCache) :
    InsertionInvariant globals body redis cache
      (resolveExclusions ((placed globals body).map (Placed.decl C redis))) := by
  classical
  rintro pre post l rfl hl decls' cache' hwalk
  obtain rfl := walkListenerBody_spec hwalk
  obtain ⟨before, after, hold, hnew⟩ := placed_insert pre post body l
  have hfires := map_fires_eq (C := C) (noClash_insert hl hclash) redis
  -- The declarations before the new one, the new one, and those behind it.
  conv at hfires => rhs; rw [hnew, List.map_append, List.map_cons]
  obtain ⟨declsBefore, rest, hsplit, hbefore, hrest⟩ := List.map_eq_append_iff.mp hfires
  obtain ⟨d, declsAfter, rfl, hd, hafter⟩ := List.map_eq_cons_iff.mp hrest
  refine ⟨declsBefore, d, declsAfter, hsplit, congrArg Prod.fst hd, ?_⟩
  rw [map_fires_eq hclash, List.map_append, hbefore, hafter, ← List.map_append, ← List.map_append,
    ← hold, List.map_map]
  refine List.map_congr_left fun p _ => ?_
  rw [Function.comp_apply, Placed.leaf_shift, Prod.mk.injEq, ← hnew]
  exact ⟨rfl, funext fun req => decide_eq_decide.mpr (winsAmong_shift_iff hl p req)⟩

/-- **The exclusions of a listener.**  The exclusions that `walk_listener_body`
computes are those of the tree of scopes, and an additive rule that is added to the
global rules changes nothing else, exactly if no two declarations of one exclusive
kind are confused: one inside the first global node and one in the listener, with
the part of the address below the first global node or the listener a strict prefix
of the other's. -/
theorem exclusions_exact_iff {globals body : List RuleNode} {redis : Option RedisConnection}
    {cache cache' : RedisCache} {decls : List (Decl C)}
    (h : walkListenerBody globals body redis cache = .ok (decls, cache')) :
    ExclusionsExact C globals body redis decls ∧
        InsertionInvariant globals body redis cache decls ↔
      NoClash globals body := by
  obtain rfl := walkListenerBody_spec h
  rw [exclusionsExact_iff_noClash]
  exact and_iff_left_of_imp fun hclash => insertionInvariant_of_noClash hclash redis cache

/-- A `log` for the host `a` in the global rules. -/
def hostLog : RuleNode :=
  .scope (.host "a") none none [.leaf (.log none none none none)]

/-- A `log` for `GET` in a listener's rules. -/
def getLog : RuleNode :=
  .scope (.method "GET") none none [.leaf (.log none none none none)]

/-- The hypothesis of `exclusions_exact_iff` is met by the two, with a header rule in
front of the first, and nothing is confused there. -/
theorem exclusions_exact_iff_behind_header : ∃ decls cache,
    walkListenerBody [.leaf (.setRequestHeader "x" "1"), hostLog] [getLog] none .empty =
        .ok ((decls : List (Decl .plain)), cache) ∧
      ExclusionsExact .plain [.leaf (.setRequestHeader "x" "1"), hostLog] [getLog] none decls := by
  obtain ⟨decls, cache, h⟩ : ∃ decls cache,
      walkListenerBody [.leaf (.setRequestHeader "x" "1"), hostLog] [getLog] none .empty =
        .ok ((decls : List (Decl .plain)), cache) := ⟨_, _, rfl⟩
  refine ⟨decls, cache, h, ((exclusions_exact_iff h).mpr ?_).1⟩
  decide

/-- **A listener's rule turns off a global one beside it.**  The global `log` for the
host `a` does not fire for a `GET` of that host: the listener's `log` for `GET`, which
is not inside of it, is taken for one that is.  With a header rule in front of it
both fire. -/
theorem listener_shadows_nested_global : ∃ decls cache decls' cache',
    walkListenerBody [hostLog] [getLog] none .empty =
        .ok ((decls : List (Decl .plain)), cache) ∧
      ¬ ExclusionsExact .plain [hostLog] [getLog] none decls ∧
      decls.map (fun d => (d.leaf.kind, d.fires requestToA)) =
        [(.log, false), (.log, true)] ∧
      walkListenerBody [.leaf (.setRequestHeader "x" "1"), hostLog] [getLog] none .empty =
        .ok ((decls' : List (Decl .plain)), cache') ∧
      decls'.map (fun d => (d.leaf.kind, d.fires requestToA)) =
        [(.setRequestHeader, true), (.log, true), (.log, true)] := by
  refine ⟨_, _, _, _, rfl, ?_, by decide, rfl, by decide⟩
  exact mt (exclusionsExact_iff_noClash (C := .plain) [hostLog] [getLog] none).mp (by decide)

end Config
end Noxy
