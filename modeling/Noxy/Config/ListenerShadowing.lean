/-
# Global and listener rules in one space of paths

`src/config.rs`: `walk_listener_body` and `resolve_exclusions`.

The walk compares paths, and a path does not say whether it belongs to a global
match node or to the listener: `[0, ...]` is inside the first global node, if that
is a match node, and inside the listener.  What the comparison takes for properly
inside is therefore what is properly inside, or one of the two sides of such a
confusion (`strictPrefix_path_iff`, `Scope.Confused`).

So the exclusions are those of the tree exactly if no declaration of an exclusive
kind is confused with another of its kind (`exclusionsExact_iff_noClash`), and
then a declaration fires exactly if its leaf wins in the tree (`fires_placed`).
-/

import Noxy.Config.ListenerTree

namespace Noxy
namespace Config

open Http

variable {C : Crates}

/-- One scope is inside the first global node and the other in the listener, and
the part of the address below the first global node or the listener is a strict
prefix of the other's. -/
def Scope.Confused : Scope → Scope → Prop
  | .global (0 :: s), .listener t => StrictPrefix s t
  | .listener s, .global (0 :: t) => StrictPrefix s t
  | _, _ => False

instance (s t : Scope) : Decidable (s.Confused t) := by
  unfold Scope.Confused
  split <;> infer_instance

/-- **What the comparison of paths takes for inside.** -/
theorem strictPrefix_path_iff (s t : Scope) :
    StrictPrefix s.path t.path ↔ s.Below t ∨ s.Confused t := by
  rcases s with s | s <;> rcases t with t | t
  · rcases s with _ | ⟨_ | i, s⟩ <;> simp [Scope.path, Scope.Below, Scope.Confused]
  · rcases s with _ | ⟨_ | i, s⟩ <;>
      simp [Scope.path, Scope.Below, Scope.Confused, strictPrefix_cons_iff, strictPrefix_nil_iff]
  · rcases t with _ | ⟨_ | i, t⟩ <;>
      simp [Scope.path, Scope.Below, Scope.Confused, strictPrefix_cons_iff, not_strictPrefix_nil]
  · simp [Scope.path, Scope.Below, Scope.Confused, strictPrefix_cons_iff]

theorem Scope.Confused.not_below {s t : Scope} (h : s.Confused t) : ¬ s.Below t := by
  rcases s with (_ | ⟨_ | i, s⟩) | s <;> rcases t with (_ | ⟨_ | j, t⟩) | t <;>
    simp_all [Scope.Confused, Scope.Below]

/-- No two declarations of one exclusive kind are confused. -/
def NoClash (globals body : List RuleNode) : Prop :=
  ∀ p ∈ placed globals body, ∀ q ∈ placed globals body, q.site.kind = p.site.kind →
    p.site.kind.isExclusive = true → ¬ p.scope.Confused q.scope

instance (globals body : List RuleNode) : Decidable (NoClash globals body) :=
  inferInstanceAs (Decidable (∀ p ∈ placed globals body, ∀ q ∈ placed globals body, _))

theorem shadowedBy_decl_iff (redis : Option RedisConnection) (p q : Placed) :
    (p.decl C redis).shadowedBy (q.decl C redis) = true ↔
      q.site.kind = p.site.kind ∧ (p.scope.Below q.scope ∨ p.scope.Confused q.scope) := by
  rw [shadowedBy_iff]
  exact and_congr_right fun _ => strictPrefix_path_iff p.scope q.scope

theorem exists_resolved {ps : List Placed} {i : ℕ} {p : Placed} (hp : ps[i]? = some p)
    (redis : Option RedisConnection) :
    ∃ d, (resolveExclusions (ps.map (Placed.decl C redis)))[i]? = some d := by
  rw [resolveExclusions, List.getElem?_mapIdx, List.getElem?_map, hp]
  exact ⟨_, rfl⟩

/-- The exclusions of a declaration after `walk_listener_body`. -/
theorem excludedPreds_resolved {ps : List Placed} {redis : Option RedisConnection} {i : ℕ}
    {p : Placed} (hp : ps[i]? = some p) {d : Decl C}
    (hd : (resolveExclusions (ps.map (Placed.decl C redis)))[i]? = some d)
    (hex : p.site.kind.isExclusive = true) :
    d.excludedPreds = ((ps.filter fun q => (p.decl C redis).shadowedBy (q.decl C redis)).map
      fun q => (q.decl C redis).exclusion) := by
  have hi : (ps.map (Placed.decl C redis))[i]? = some (p.decl C redis) := by
    rw [List.getElem?_map, hp, Option.map_some]
  rw [resolveExclusions, List.getElem?_mapIdx, hi, Option.map_some, Option.some.injEq] at hd
  rw [if_pos (show (p.decl C redis).leaf.kind.isExclusive = true from hex)] at hd
  rw [← hd]
  change excludedFor _ i _ = _
  rw [excludedFor_eq hi, List.filter_map, List.map_map]
  rfl

open Classical in
/-- Every declaration of an exclusive kind has as its exclusions the predicates of
the declarations of its kind that are properly inside its scope. -/
def ExclusionsExact (C : Crates) (globals body : List RuleNode) (redis : Option RedisConnection)
    (decls : List (Decl C)) : Prop :=
  ∀ (i : ℕ) (p : Placed) (d : Decl C), (placed globals body)[i]? = some p → decls[i]? = some d →
    p.site.kind.isExclusive = true →
    d.excludedPreds = ((placed globals body).filter fun q => q.site.kind = p.site.kind ∧
      Inside globals body p.scope q.scope).map fun q => (q.decl C redis).exclusion

/-- A filter that keeps no more has the same length only if it keeps the same. -/
theorem of_length_filter_eq {α : Type*} {p q : α → Bool} {l : List α}
    (hle : ∀ a ∈ l, p a = true → q a = true)
    (hlen : (l.filter p).length = (l.filter q).length) : ∀ a ∈ l, q a = true → p a = true := by
  have hsub : (l.filter p).Sublist (l.filter q) := by
    rw [show l.filter p = (l.filter q).filter p by
      rw [List.filter_filter]
      refine List.filter_congr fun a ha => ?_
      cases hp : p a with
      | false => rfl
      | true => simp [hle a ha hp]]
    exact List.filter_sublist
  intro a ha hq
  have : a ∈ l.filter p := hsub.eq_of_length hlen ▸ List.mem_filter.mpr ⟨ha, hq⟩
  exact (List.mem_filter.mp this).2

/-- **The exclusions are those of the tree exactly if nothing is confused.** -/
theorem exclusionsExact_iff_noClash (globals body : List RuleNode)
    (redis : Option RedisConnection) :
    ExclusionsExact C globals body redis
        (resolveExclusions ((placed globals body).map (Placed.decl C redis))) ↔
      NoClash globals body := by
  classical
  have hinside : ∀ p : Placed, ∀ q ∈ placed globals body,
      (Inside globals body p.scope q.scope ↔ p.scope.Below q.scope) :=
    fun p q hq => inside_iff (valid_of_mem_placed hq)
  constructor
  · intro h p hp q hq hkind hex hconf
    obtain ⟨i, hi⟩ := List.mem_iff_getElem?.mp hp
    obtain ⟨d, hd⟩ := exists_resolved (C := C) hi redis
    have hlen := congrArg List.length
      ((excludedPreds_resolved hi hd hex).symm.trans (h i p d hi hd hex))
    rw [List.length_map, List.length_map] at hlen
    have hle : ∀ a ∈ placed globals body,
        decide (a.site.kind = p.site.kind ∧ Inside globals body p.scope a.scope) = true →
          (p.decl C redis).shadowedBy (a.decl C redis) = true := by
      intro a ha htree
      obtain ⟨hk, hin⟩ := of_decide_eq_true htree
      exact (shadowedBy_decl_iff redis p a).mpr ⟨hk, Or.inl ((hinside p a ha).mp hin)⟩
    have hcode := (shadowedBy_decl_iff (C := C) redis p q).mpr ⟨hkind, Or.inr hconf⟩
    have htree := of_decide_eq_true (of_length_filter_eq hle hlen.symm q hq hcode)
    exact hconf.not_below ((hinside p q hq).mp htree.2)
  · intro h i p d hi hd hex
    rw [excludedPreds_resolved hi hd hex]
    congr 1
    refine List.filter_congr fun q hq => ?_
    rw [Bool.eq_iff_iff, shadowedBy_decl_iff, decide_eq_true_eq]
    refine and_congr_right fun hkind => ?_
    rw [hinside p q hq]
    exact or_iff_left (h p (List.mem_of_getElem? hi) q hq hkind hex)

/-- A leaf in scope wins among the leaves: it is additive, or no leaf of its kind is
in scope properly inside its scope. -/
def Placed.WinsAmong (C : Crates) (ps : List Placed) (p : Placed) (req : Request C.http) : Prop :=
  p.site.InScope C req ∧
    (p.site.kind.isExclusive = true →
      ¬ ∃ q ∈ ps, q.site.kind = p.site.kind ∧ p.scope.Below q.scope ∧ q.site.InScope C req)

/-- **When a declaration fires, with nothing confused.** -/
theorem fires_placed {globals body : List RuleNode} (hclash : NoClash globals body)
    {redis : Option RedisConnection} {i : ℕ} {p : Placed}
    (hp : (placed globals body)[i]? = some p) {d : Decl C}
    (hd : (resolveExclusions ((placed globals body).map (Placed.decl C redis)))[i]? = some d) :
    d.leaf = p.site.leaf ∧
      ∀ req, d.fires req = true ↔ p.WinsAmong C (placed globals body) req := by
  have hholds : ∀ (q : Placed) (req : Request C.http),
      holds (q.decl C redis).scopePred req = true ↔ q.site.InScope C req := fun q req =>
    (holds_andPredicates C _ req).trans inScope_iff.symm
  obtain ⟨hleaf, hfires⟩ := fires_resolveExclusions (fun _ => rfl) hp hd
  refine ⟨hleaf, fun req => (hfires req).trans ?_⟩
  simp only [hholds, shadowedBy_decl_iff, and_assoc]
  refine and_congr_right fun _ => imp_congr_right fun hex => not_congr ?_
  refine exists_congr fun q => and_congr_right fun hq => and_congr_right fun hkind => ?_
  exact and_congr_left fun _ =>
    or_iff_left (hclash p (List.mem_of_getElem? hp) q hq hkind hex)

end Config
end Noxy
