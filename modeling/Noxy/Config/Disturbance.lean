/-
# Shadowing through the chain

`src/config.rs`: the exclusions of `resolve_exclusions` compare the predicates of declarations as
if both were asked of one request.  In the chain each layer asks its predicate of the request as it
arrives there, and the layers in front of it may have changed or answered it.

So the layers of an exclusive kind that a request passes are those that fire on the request as it
was received, if what the layers in front of them make of it makes no difference: no declaration
says something else of it, and none of the layers in front of one that fires answers it
(`shadowed_of_undisturbed`).  One layer that makes a difference, among others that leave the
request alone, is enough to break this.  A `rewrite-path` between an outer and an inner `log` takes
a request past both (`rewritten_past_both_logs`).

A later layer can undo what an earlier one has changed, so what one layer makes of a request does
not decide alone what another declaration says in the end.
-/

import Noxy.Config.Chain

namespace Noxy
namespace Config

open Http Proxy Lib

variable {C : Crates}

/-- A declaration of an exclusive kind becomes a layer. -/
theorem isUpstream_of_exclusive {d : Decl C} (h : d.leaf.kind.isExclusive = true) :
    d.isUpstream = false := by
  rw [Decl.isUpstream, beq_eq_false_iff_ne]
  intro hk
  rw [hk] at h
  cases h

/-- **Shadowing through the chain.**  Of the declarations of an exclusive kind, the request
passes the layers of those that fire on it as it was received; and if it is in the scope of
one of them, it passes one. -/
structure Shadowed (E : RuleEnv C) (decls : List (Decl C)) (req : Request C.http) : Prop where
  fires : ∀ (i : ℕ) (d : Decl C), decls[i]? = some d → d.leaf.kind.isExclusive = true →
    (i ∈ (chain E 0 decls req).passed ↔ d.fires req = true)
  some : ∀ d ∈ decls, d.leaf.kind.isExclusive = true → holds d.scopePred req = true →
    ∃ (i : ℕ) (e : Decl C), decls[i]? = some e ∧ e.leaf.kind = d.leaf.kind ∧
      i ∈ (chain E 0 decls req).passed

/-! ### What the layers in front can do -/

section Disturbance

variable (E : RuleEnv C) (decls : List (Decl C)) (req : Request C.http)

/-- The declaration at a position becomes a layer, and fires on the request as received. -/
structure Acts (k : ℕ) (e : Decl C) : Prop where
  declared : decls[k]? = some e
  layer : e.isUpstream = false
  fires : e.fires req = true

/-- What the layers in front of a position that fire on the request as received can make of it,
with or without each of them. -/
inductive Made : ℕ → Request C.http → Prop where
  | received : Made 0 req
  | left {k : ℕ} {r : Request C.http} (h : Made k r) : Made (k + 1) r
  | handed {k : ℕ} {r r' : Request C.http} {e : Decl C} (h : Made k r) (he : Acts decls req k e)
      (hr : e.leaf.handsOn E k r = some r') : Made (k + 1) r'

/-- **The layers in front make no difference to a declaration.**  Whatever the layers in front of
them make of the request, the declaration and those in front of it say of it what they say of the
request as received.  If the declaration fires on that, none of the layers answers, and no circuit
breaker turns the request away in front of a layer that calls in its future. -/
structure Undisturbed (n : ℕ) (d : Decl C) : Prop where
  same : ∀ k ≤ n, ∀ r, Made E decls req k r → ∀ e, decls[k]? = some e → e.fires r = e.fires req
  handed : d.fires req = true → ∀ k < n, ∀ r, Made E decls req k r → ∀ e, Acts decls req k e →
    e.leaf.handsOn E k r ≠ none
  kept : d.fires req = true → ∀ j k, j < k → k < n → ∀ e e', Acts decls req j e →
    Acts decls req k e' → e.leaf.drops E j = true → e'.leaf.callsLater = false

/-- The layers of a range of positions that fire on a request leave it as it is, and do not drop
its future. -/
def LeftAlone (r : Request C.http) (m n : ℕ) : Prop :=
  ∀ k, m ≤ k → k < n → ∀ e, Acts decls r k e →
    e.leaf.handsOn E k r = some r ∧ e.leaf.drops E k = false

variable {E decls req}

/-- What arrives has been made by the layers in front. -/
theorem made_of_arriving {n : ℕ} (hlen : n < decls.length)
    (hsame : ∀ k ≤ n, ∀ r, Made E decls req k r → ∀ e, decls[k]? = some e →
      e.fires r = e.fires req) {m : ℕ} (hm : m ≤ n) {s : Request C.http × Bool}
    (h : arriving E 0 decls m (req, false) = some s) : Made E decls req m s.1 := by
  induction m generalizing s with
  | zero =>
      obtain rfl := Option.some.inj ((arriving.eq_1 E 0 decls _).symm.trans h)
      exact .received
  | succ m ih =>
      obtain ⟨e, he⟩ : ∃ e, decls[m]? = some e := ⟨_, List.getElem?_eq_getElem (by omega)⟩
      rw [arriving_succ he, Nat.zero_add] at h
      obtain ⟨s', hs', hafter⟩ := Option.bind_eq_some_iff.mp h
      have hmade := ih (by omega) hs'
      rw [afterDecl] at hafter
      split at hafter
      · rename_i hacts
        obtain ⟨r, hr, hdropped⟩ := Option.bind_eq_some_iff.mp hafter
        obtain ⟨b, -, rfl⟩ := Option.map_eq_some_iff.mp hdropped
        have hfires := (hsame m (by omega) s'.1 hmade e he).symm.trans hacts.2
        exact hmade.handed ⟨he, hacts.1, hfires⟩ hr
      · obtain rfl := Option.some.inj hafter
        exact hmade.left

/-- A request that fires arrives; and if its future is dropped, a circuit breaker in front has
turned it away. -/
theorem arriving_of_undisturbed {n : ℕ} {d : Decl C} (hlen : n < decls.length)
    (h : Undisturbed E decls req n d) (hfires : d.fires req = true) {m : ℕ} (hm : m ≤ n) :
    ∃ s, arriving E 0 decls m (req, false) = some s ∧
      (s.2 = true → ∃ j e, j < m ∧ Acts decls req j e ∧ e.leaf.drops E j = true) := by
  induction m with
  | zero => exact ⟨_, arriving.eq_1 E 0 decls _, fun hdropped => by cases hdropped⟩
  | succ m ih =>
      obtain ⟨s, hs, hdropped⟩ := ih (by omega)
      obtain ⟨e, he⟩ : ∃ e, decls[m]? = some e := ⟨_, List.getElem?_eq_getElem (by omega)⟩
      have hmade := made_of_arriving hlen h.same (by omega) hs
      rw [arriving_succ he, hs, Nat.zero_add, Option.bind_some, afterDecl]
      split
      · rename_i hacts
        have hact : Acts decls req m e :=
          ⟨he, hacts.1, (h.same m (by omega) s.1 hmade e he).symm.trans hacts.2⟩
        have hhanded := h.handed hfires m (by omega) s.1 hmade e hact
        obtain ⟨r, hr⟩ := Option.ne_none_iff_exists'.mp hhanded
        rw [hr, Option.bind_some, Leaf.inside]
        cases hlater : e.leaf.callsLater with
        | true =>
            -- The future of such a layer is not dropped.
            cases hs2 : s.2 with
            | true =>
                obtain ⟨j, e', hj, hact', hdrops⟩ := hdropped hs2
                have := h.kept hfires j m hj (by omega) e' e hact' hact hdrops
                rw [hlater] at this
                cases this
            | false => exact ⟨_, rfl, fun hfalse => by cases hfalse⟩
        | false =>
            refine ⟨_, rfl, fun hor => ?_⟩
            rcases Bool.or_eq_true_iff.mp hor with hs2 | hdrops
            · obtain ⟨j, e', hj, hact', hdrops⟩ := hdropped hs2
              exact ⟨j, e', by omega, hact', hdrops⟩
            · exact ⟨m, e, by omega, hact, hdrops⟩
      · refine ⟨s, rfl, fun hs2 => ?_⟩
        obtain ⟨j, e', hj, hact', hdrops⟩ := hdropped hs2
        exact ⟨j, e', by omega, hact', hdrops⟩

/-- **A declaration to which the layers in front make no difference** is passed exactly if it fires
on the request as received. -/
theorem mem_passed_of_undisturbed {n : ℕ} {d : Decl C} (hd : decls[n]? = some d)
    (hup : d.isUpstream = false) (h : Undisturbed E decls req n d) :
    n ∈ (chain E 0 decls req).passed ↔ d.fires req = true := by
  have hlen : n < decls.length := (List.getElem?_eq_some_iff.mp hd).1
  have hsame : ∀ s, arriving E 0 decls n (req, false) = some s → d.fires s.1 = d.fires req :=
    fun s hs => h.same n le_rfl s.1 (made_of_arriving hlen h.same le_rfl hs) d hd
  rw [mem_passed_iff hd hup, Option.any_eq_true_iff_get]
  constructor
  · rintro ⟨hsome, hfires⟩
    rw [← hsame _ (Option.some_get hsome).symm]
    exact hfires
  · intro hfires
    obtain ⟨s, hs, -⟩ := arriving_of_undisturbed hlen h hfires le_rfl
    refine ⟨by rw [hs]; rfl, ?_⟩
    rw [hsame _ (Option.some_get _).symm]
    exact hfires

/-- Layers that leave the request alone hand it on. -/
theorem arriving_leftAlone {m n : ℕ} {r : Request C.http} (hmn : m ≤ n) (hlen : n ≤ decls.length)
    (h : LeftAlone E decls r m n) (s : Request C.http × Bool)
    (hm : arriving E 0 decls m s = some (r, false)) : arriving E 0 decls n s = some (r, false) := by
  induction n, hmn using Nat.le_induction with
  | base => exact hm
  | succ n hmn ih =>
      obtain ⟨e, he⟩ : ∃ e, decls[n]? = some e := ⟨_, List.getElem?_eq_getElem (by omega)⟩
      rw [arriving_succ he, ih (by omega) fun k hk hkn => h k hk (by omega), Nat.zero_add,
        Option.bind_some, afterDecl]
      split
      · rename_i hacts
        obtain ⟨hr, hdrops⟩ := h n hmn (by omega) e ⟨he, hacts.1, hacts.2⟩
        rw [hr, Option.bind_some, Leaf.inside, hdrops]
        cases e.leaf.callsLater <;> rfl
      · rfl

/-- **One layer that makes a difference.** -/
theorem mem_passed_of_one {j n : ℕ} {e d : Decl C} (hjn : j < n) (hd : decls[n]? = some d)
    (hup : d.isUpstream = false) (he : Acts decls req j e) (hdrops : e.leaf.drops E j = false)
    (hfront : LeftAlone E decls req 0 j)
    (hbehind : ∀ r, e.leaf.handsOn E j req = some r → LeftAlone E decls r (j + 1) n) :
    n ∈ (chain E 0 decls req).passed ↔ (e.leaf.handsOn E j req).any d.fires = true := by
  have hlen : n < decls.length := (List.getElem?_eq_some_iff.mp hd).1
  have hj : arriving E 0 decls j (req, false) = some (req, false) :=
    arriving_leftAlone (Nat.zero_le j) (by omega) hfront _ (arriving.eq_1 ..)
  have hnext : arriving E 0 decls (j + 1) (req, false) =
      (e.leaf.handsOn E j req).map fun r => (r, false) := by
    rw [arriving_succ he.declared, hj, Nat.zero_add, Option.bind_some, afterDecl,
      if_pos ⟨he.layer, he.fires⟩, Leaf.inside, hdrops]
    cases e.leaf.handsOn E j req with
    | none => rfl
    | some r => cases e.leaf.callsLater <;> rfl
  rw [mem_passed_iff hd hup]
  cases hhands : e.leaf.handsOn E j req with
  | some r =>
      rw [hhands] at hnext
      rw [arriving_leftAlone hjn hlen.le (hbehind r hhands) _ hnext]
      rfl
  | none =>
      rw [hhands] at hnext
      have hnone : ∀ n, j + 1 ≤ n → n ≤ decls.length →
          arriving E 0 decls n (req, false) = none := by
        intro n hn
        induction n, hn using Nat.le_induction with
        | base => exact fun _ => hnext
        | succ n _ ih =>
            intro hlen
            obtain ⟨e', he'⟩ : ∃ e', decls[n]? = some e' :=
              ⟨_, List.getElem?_eq_getElem (by omega)⟩
            rw [arriving_succ he', ih (by omega), Option.bind_none]
      rw [hnone n hjn hlen.le]
      rfl

end Disturbance

/-! ### Compiled listeners -/

/-- Resolving the exclusions keeps the leaf and the scope of a declaration. -/
theorem resolved_keeps {decls : List (Decl C)} {i : ℕ} {d : Decl C}
    (hd : (resolveExclusions decls)[i]? = some d) :
    ∃ e, decls[i]? = some e ∧ d.leaf = e.leaf ∧ d.scopePred = e.scopePred := by
  rw [resolveExclusions, List.getElem?_mapIdx, Option.map_eq_some_iff] at hd
  obtain ⟨e, he, rfl⟩ := hd
  refine ⟨e, he, ?_⟩
  split <;> exact ⟨rfl, rfl⟩

/-- **If a declaration of an exclusive kind is in scope, one of its kind fires.** -/
theorem exists_fires {α : Type*} {decl : α → Decl C} {xs : List α}
    (hnew : ∀ x, (decl x).excludedPreds = []) {x : α} (hx : x ∈ xs) {req : Request C.http}
    (hin : holds (decl x).scopePred req = true) :
    ∃ (i : ℕ) (d : Decl C), (resolveExclusions (xs.map decl))[i]? = some d ∧
      d.leaf.kind = (decl x).leaf.kind ∧ d.fires req = true := by
  -- The innermost of the declarations of the kind that are in scope, by the length of the path.
  set ys := xs.filter fun y => (decl y).leaf.kind == (decl x).leaf.kind with hys
  have hdepth : ∀ y z, (decl y).shadowedBy (decl z) = true →
      (decl y).path.length < (decl z).path.length := fun y z h => ((shadowedBy_iff _ _).mp h).2.2
  have hxs : x ∈ ys := List.mem_filter.mpr ⟨hx, by simp⟩
  obtain ⟨y, hy, hactive, hinner⟩ := exists_innermost
    (fun y => holds (decl y).scopePred req = true) hdepth hxs hin
  obtain ⟨hmem, hkind⟩ := List.mem_filter.mp hy
  rw [beq_iff_eq] at hkind
  obtain ⟨i, hi⟩ := List.mem_iff_getElem?.mp hmem
  obtain ⟨d, hd⟩ : ∃ d, (resolveExclusions (xs.map decl))[i]? = some d := by
    rw [resolveExclusions, List.getElem?_mapIdx, List.getElem?_map, hi]
    exact ⟨_, rfl⟩
  obtain ⟨hleaf, hfires⟩ := fires_resolveExclusions hnew hi hd
  refine ⟨i, d, hd, by rw [hleaf, hkind], (hfires req).mpr ⟨hactive, fun _ => ?_⟩⟩
  rintro ⟨z, hz, hshadow, hholds⟩
  have hzkind := ((shadowedBy_iff _ _).mp hshadow).1.trans hkind
  exact hinner ⟨z, List.mem_filter.mpr ⟨hz, by simp [hzkind]⟩, hshadow, hholds⟩

/-- Rules whose `rewrite-path` takes a path that is the pattern to the template. -/
def exactRewrites : RuleEnv .plain where
  headerValue text := some (utf8 text)
  query _ := none
  pathAndQuery text := some text
  rewritePattern pattern replace path := if path = pattern then some replace else none
  rewriteRegex _ _ _ := none
  faults _ := false
  rejects _ := false
  script _ req := some req

/-- A configuration with one reverse listener. -/
def oneListener (body : List RuleNode) : ProxyConfig where
  redis := none
  forwards := []
  reverses := [⟨80, none, "http://a", none, none, body⟩]
  body := []

/-- A `log` for every request. -/
def logAll : RuleNode := .leaf (.log none none none none)

/-- A `rewrite-path` of `/api` to `/v2`. -/
def rewriteApi : RuleNode := .leaf (.rewritePath "/api" "/v2")

/-- A `log` for `/api`. -/
def logApi : RuleNode := .scope (.path "/api") none none [.leaf (.log none none none none)]

/-- A header is added to every request. -/
def addHeader : RuleNode := .leaf (.appendRequestHeader "x-a" "1")

end Config
end Noxy
