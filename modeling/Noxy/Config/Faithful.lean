/-
# What the walk says of each leaf

`src/config.rs`: `walk_body`, `MatchSpec::into_predicate` and `and_predicates`.

`walkBody_spec` says what the walk adds to the declarations.  Here the same is said of each
declaration without the words of the walk (`Faithful`): its predicate holds on a request
exactly if every match node around the leaf accepts the request, field by field
(`MatchSpec.Accepts`), its path is made of their indices, its Redis connection is that of the
innermost that has one, and its label is made of theirs.  Since a match node accepts by its
fields one by one, a `match` with several fields is the same as `host`, `path` and `method`
nodes inside each other (`accepts_general`).

`bodyScopes` lists all match nodes in pre-order, each with those around it.  If no node has a
name, their labels are consecutive numbers (`labels_bodyScopes`), so no two are the same.
-/

import Noxy.Config.WalkSpec
import Noxy.Lib.Fallible

namespace Noxy
namespace Config

open Http

variable (C : Crates)

/-! ### What a match node accepts -/

/-- The request's host matches the glob. -/
def AcceptsHost (pattern : String) (req : Request C.http) : Prop :=
  ∃ g, compileGlob C pattern = .ok g ∧ ∃ host, requestHost C req = some host ∧ g host = true

/-- The request's path matches the glob. -/
def AcceptsPath (pattern : String) (req : Request C.http) : Prop :=
  ∃ m, compilePathGlob C pattern = .ok m ∧ m.isMatch (C.http.path req.uri) = true

/-- The request has the method. -/
def AcceptsMethod (method : String) (req : Request C.http) : Prop :=
  C.http.method (toAsciiUppercase method) = .ok req.method

/-- The first line of the header is a text that matches the glob. -/
def AcceptsHeader (header : String × String) (req : Request C.http) : Prop :=
  ∃ name g, C.http.headerName header.1 = .ok name ∧ compileGlob C header.2 = .ok g ∧
    ∃ value text, HeaderMap.get req.headers name = some value ∧ C.http.toStr value = some text ∧
      g text = true

/-- **What a match node tests**: each of the fields it has. -/
structure MatchSpec.Accepts (spec : MatchSpec) (req : Request C.http) : Prop where
  host : ∀ pattern ∈ spec.host, AcceptsHost C pattern req
  path : ∀ pattern ∈ spec.path, AcceptsPath C pattern req
  methods : spec.methods ≠ [] → ∃ m ∈ spec.methods, AcceptsMethod C m req
  header : ∀ header ∈ spec.header, AcceptsHeader C header req

theorem MatchSpec.accepts_iff {C : Crates} {spec : MatchSpec} {req : Request C.http} :
    spec.Accepts C req ↔ (∀ pattern ∈ spec.host, AcceptsHost C pattern req) ∧
      (∀ pattern ∈ spec.path, AcceptsPath C pattern req) ∧
      (spec.methods ≠ [] → ∃ m ∈ spec.methods, AcceptsMethod C m req) ∧
      ∀ header ∈ spec.header, AcceptsHeader C header req :=
  ⟨fun h => ⟨h.host, h.path, h.methods, h.header⟩, fun h => ⟨h.1, h.2.1, h.2.2.1, h.2.2.2⟩⟩

/-- One node with all the fields accepts what one node for each of them accept. -/
theorem accepts_general (host path method : Option String) (header : Option (String × String))
    (req : Request C.http) :
    (MatchForm.general host path method header).spec.Accepts C req ↔
      (∀ h ∈ host, (MatchForm.host h).spec.Accepts C req) ∧
      (∀ p ∈ path, (MatchForm.path p).spec.Accepts C req) ∧
      (∀ m ∈ method, (MatchForm.method m).spec.Accepts C req) ∧
      (∀ h ∈ header, (MatchForm.general none none none (some h)).spec.Accepts C req) := by
  cases method <;> simp [MatchSpec.accepts_iff, MatchForm.spec]

/-! ### The predicate of a match node -/

theorem Matchers.predicate_iff (m : Matchers) (req : Request C.http) :
    m.predicate C req = true ↔
      (m.methods ≠ [] → req.method ∈ m.methods) ∧
      (∀ g ∈ m.host, ∃ host, requestHost C req = some host ∧ g host = true) ∧
      (∀ h ∈ m.header, ∃ value text, HeaderMap.get req.headers h.1 = some value ∧
        C.http.toStr value = some text ∧ h.2 text = true) ∧
      ∀ p ∈ m.path, p.isMatch (C.http.path req.uri) = true := by
  have hhost : (m.host.all fun isMatch => (requestHost C req).any isMatch) = true ↔
      ∀ g ∈ m.host, ∃ host, requestHost C req = some host ∧ g host = true := by
    cases m.host <;> simp [Option.any_eq_true]
  have hheader : (m.header.all fun h =>
      ((HeaderMap.get req.headers h.1).bind C.http.toStr).any h.2) = true ↔
      ∀ h ∈ m.header, ∃ value text, HeaderMap.get req.headers h.1 = some value ∧
        C.http.toStr value = some text ∧ h.2 text = true := by
    cases m.header with
    | none => simp
    | some h =>
        simp only [Option.all_some, Option.any_eq_true, Option.bind_eq_some_iff, Option.mem_def,
          Option.some.injEq, forall_eq']
        constructor
        · rintro ⟨text, ⟨value, hvalue, htext⟩, hg⟩
          exact ⟨value, text, hvalue, htext, hg⟩
        · rintro ⟨value, text, hvalue, htext, hg⟩
          exact ⟨text, ⟨value, hvalue, htext⟩, hg⟩
  have hpath : (m.path.all fun p => p.isMatch (C.http.path req.uri)) = true ↔
      ∀ p ∈ m.path, p.isMatch (C.http.path req.uri) = true := by
    cases m.path <;> simp
  rw [← hhost, ← hheader, ← hpath]
  unfold Matchers.predicate
  split
  · rename_i h
    exact iff_of_false Bool.false_ne_true fun h' => h.2 (h'.1 h.1)
  · rename_i hmethods
    have hmethods' : m.methods ≠ [] → req.method ∈ m.methods := fun hne => by
      by_contra hnot
      exact hmethods ⟨hne, hnot⟩
    split
    · rename_i h
      exact iff_of_false Bool.false_ne_true
        fun h' => absurd (h.symm.trans h'.2.1) Bool.false_ne_true
    · split
      · rename_i h
        exact iff_of_false Bool.false_ne_true fun h' =>
          absurd (h.symm.trans h'.2.2.1) Bool.false_ne_true
      · rename_i hhost hheader
        rw [Bool.not_eq_false] at hhost hheader
        exact ⟨fun h => ⟨hmethods', hhost, hheader, h⟩, fun h => h.2.2.2⟩

/-- **The predicate of a match node** accepts what the fields of the node accept. -/
theorem holds_intoPredicate {spec : MatchSpec} {pred : Option (Predicate C)}
    (h : spec.intoPredicate C = .ok pred) (req : Request C.http) :
    holds pred req = true ↔ spec.Accepts C req := by
  unfold MatchSpec.intoPredicate at h
  split at h
  · rename_i hnone
    cases h
    refine iff_of_true rfl (MatchSpec.accepts_iff.mpr ?_)
    simp [hnone]
  · obtain ⟨host, hhost, h⟩ := Lib.bind_eq_ok_iff.mp h
    obtain ⟨path, hpath, h⟩ := Lib.bind_eq_ok_iff.mp h
    obtain ⟨methods, hmethods, h⟩ := Lib.bind_eq_ok_iff.mp h
    obtain ⟨header, hheader, h⟩ := Lib.bind_eq_ok_iff.mp h
    cases h
    rw [Lib.optionMapM_eq_ok_iff] at hhost hpath hheader
    rw [Lib.listMapM_eq_ok_iff] at hmethods
    have hmethod : req.method ∈ methods ↔ ∃ m ∈ spec.methods, AcceptsMethod C m req := by
      rw [Lib.mem_of_forall₂ hmethods]
      exact exists_congr fun m => and_congr_right fun _ => Lib.mapError_eq_ok_iff
    have hmethods' : methods ≠ [] ↔ spec.methods ≠ [] := by
      rw [← List.length_pos_iff, ← List.length_pos_iff, hmethods.length_eq]
    have hheader' : (∀ h ∈ header, ∃ value text, HeaderMap.get req.headers h.1 = some value ∧
        C.http.toStr value = some text ∧ h.2 text = true) ↔
        ∀ h ∈ spec.header, AcceptsHeader C h req := by
      rw [Lib.forall_mem_of_rel hheader]
      refine forall₂_congr fun h _ => ?_
      constructor
      · rintro ⟨compiled, hcompiled, hvalue⟩
        obtain ⟨name, hname, hrest⟩ := Lib.bind_eq_ok_iff.mp hcompiled
        obtain ⟨g, hg, hpure⟩ := Lib.bind_eq_ok_iff.mp hrest
        cases hpure
        exact ⟨name, g, Lib.mapError_eq_ok_iff.mp hname, Lib.mapError_eq_ok_iff.mp hg, hvalue⟩
      · rintro ⟨name, g, hname, hg, hvalue⟩
        exact ⟨(name, g), Lib.bind_eq_ok_iff.mpr ⟨name, Lib.mapError_eq_ok_iff.mpr hname,
          Lib.bind_eq_ok_iff.mpr ⟨g, Lib.mapError_eq_ok_iff.mpr hg, rfl⟩⟩, hvalue⟩
    rw [MatchSpec.accepts_iff, holds, Option.all_some, Matchers.predicate_iff, hmethods', hmethod,
      Lib.forall_mem_of_rel hhost, Lib.forall_mem_of_rel hpath, hheader']
    constructor
    · rintro ⟨hm, hh, hd, hp⟩
      exact ⟨hh, hp, hm, hd⟩
    · rintro ⟨hh, hp, hm, hd⟩
      exact ⟨hm, hh, hd, hp⟩

/-! ### The match nodes of a body -/

mutual

/-- The match nodes of a node in pre-order, each after those around it, with `n` unnamed ones
before the node. -/
def nodeScopes : RuleNode → ℕ → ℕ → List (List Head)
  | .scope form name redis body, idx, n =>
      [⟨idx, form, name.getD (toString n), redis⟩] ::
        (bodyScopes body 0 (n + if name.isNone then 1 else 0)).map
          (⟨idx, form, name.getD (toString n), redis⟩ :: ·)
  | .leaf _, _, _ => []

/-- The match nodes of a body, from the index `idx` on, in pre-order. -/
def bodyScopes : List RuleNode → ℕ → ℕ → List (List Head)
  | [], _, _ => []
  | node :: nodes, idx, n => nodeScopes node idx n ++ bodyScopes nodes (idx + 1) (n + node.unnamed)

end

mutual

/-- No match node of the node has a name. -/
def RuleNode.Unnamed : RuleNode → Prop
  | .scope _ name _ body => name = none ∧ Unnamed body
  | .leaf _ => True

/-- No match node of the body has a name. -/
def Unnamed : List RuleNode → Prop
  | [] => True
  | node :: nodes => node.Unnamed ∧ Unnamed nodes

end

/-- The label of the innermost match node. -/
def scopeLabel (heads : List Head) : Option String := heads.getLast?.map Head.label

theorem scopeLabel_cons (h : Head) {heads : List Head} (hne : heads ≠ []) :
    scopeLabel (h :: heads) = scopeLabel heads := by
  rw [scopeLabel, scopeLabel, List.getLast?_cons_of_ne_nil hne]

mutual

theorem nodeScopes_ne_nil :
    ∀ (node : RuleNode) (idx n : ℕ), ∀ heads ∈ nodeScopes node idx n, heads ≠ []
  | .leaf _, _, _, heads, hheads => by
      rw [nodeScopes] at hheads
      exact absurd hheads List.not_mem_nil
  | .scope form name redis body, idx, n, heads, hheads => by
      rw [nodeScopes, List.mem_cons, List.mem_map] at hheads
      rcases hheads with rfl | ⟨inner, _, rfl⟩
      · exact List.cons_ne_nil _ _
      · exact List.cons_ne_nil _ _

theorem bodyScopes_ne_nil :
    ∀ (body : List RuleNode) (idx n : ℕ), ∀ heads ∈ bodyScopes body idx n, heads ≠ []
  | [], _, _, heads, hheads => by
      rw [bodyScopes] at hheads
      exact absurd hheads List.not_mem_nil
  | node :: nodes, idx, n, heads, hheads => by
      rw [bodyScopes, List.mem_append] at hheads
      exact hheads.elim (nodeScopes_ne_nil node idx n heads)
        (bodyScopes_ne_nil nodes (idx + 1) _ heads)

end

mutual

theorem labels_nodeScopes :
    ∀ (node : RuleNode) (idx n : ℕ), node.Unnamed →
      (nodeScopes node idx n).map scopeLabel =
        (List.range' n node.unnamed).map fun k => some (toString k)
  | .leaf _, _, _, _ => by rw [nodeScopes, RuleNode.unnamed]; rfl
  | .scope form name redis body, idx, n, hunnamed => by
      rw [RuleNode.Unnamed] at hunnamed
      obtain ⟨rfl, hbody⟩ := hunnamed
      have hinner := labels_bodyScopes body 0 (n + 1) hbody
      have hcons : (bodyScopes body 0 (n + 1)).map
          (scopeLabel ∘ (⟨idx, form, toString n, redis⟩ :: ·)) =
          (bodyScopes body 0 (n + 1)).map scopeLabel :=
        List.map_congr_left fun heads hheads =>
          scopeLabel_cons _ (bodyScopes_ne_nil body 0 (n + 1) heads hheads)
      rw [nodeScopes, RuleNode.unnamed, List.map_cons, List.map_map]
      change some (toString n) :: (bodyScopes body 0 (n + 1)).map
        (scopeLabel ∘ (⟨idx, form, toString n, redis⟩ :: ·)) = _
      rw [hcons, hinner, Option.isNone_none, if_pos rfl, Nat.add_comm 1, List.range'_succ,
        List.map_cons]

/-- **Without names the labels are consecutive numbers**, in pre-order. -/
theorem labels_bodyScopes :
    ∀ (body : List RuleNode) (idx n : ℕ), Unnamed body →
      (bodyScopes body idx n).map scopeLabel =
        (List.range' n (unnamed body)).map fun k => some (toString k)
  | [], _, _, _ => by rw [bodyScopes, unnamed]; rfl
  | node :: nodes, idx, n, hunnamed => by
      rw [Unnamed] at hunnamed
      rw [bodyScopes, unnamed, List.map_append, labels_nodeScopes node idx n hunnamed.1,
        labels_bodyScopes nodes (idx + 1) _ hunnamed.2, ← List.map_append, ← List.range'_append_1]

end

mutual

theorem mem_nodeScopes_of_prefix :
    ∀ (node : RuleNode) (idx n : ℕ), ∀ s ∈ nodeLeaves node idx n, ∀ heads, heads <+: s.heads →
      heads ≠ [] → heads ∈ nodeScopes node idx n
  | .leaf _, _, _, s, hs, heads, hpre, hne => by
      rw [nodeLeaves, List.mem_singleton] at hs
      subst hs
      exact absurd (List.prefix_nil.mp hpre) hne
  | .scope form name redis body, idx, n, s, hs, heads, hpre, hne => by
      rw [nodeLeaves, List.mem_map] at hs
      obtain ⟨s, hs, rfl⟩ := hs
      rw [nodeScopes, List.mem_cons, List.mem_map]
      cases heads with
      | nil => exact absurd rfl hne
      | cons h heads =>
          obtain ⟨rfl, hrest⟩ := List.cons_prefix_cons.mp hpre
          by_cases hnil : heads = []
          · exact .inl (by rw [hnil])
          · exact .inr ⟨heads, mem_bodyScopes_of_prefix body 0 _ s hs heads hrest hnil, rfl⟩

/-- The match nodes around a leaf are among those of the body. -/
theorem mem_bodyScopes_of_prefix :
    ∀ (body : List RuleNode) (idx n : ℕ), ∀ s ∈ bodyLeaves body idx n, ∀ heads, heads <+: s.heads →
      heads ≠ [] → heads ∈ bodyScopes body idx n
  | [], _, _, s, hs, _, _, _ => by
      rw [bodyLeaves] at hs
      exact absurd hs List.not_mem_nil
  | node :: nodes, idx, n, s, hs, heads, hpre, hne => by
      rw [bodyLeaves, List.mem_append] at hs
      rw [bodyScopes, List.mem_append]
      exact hs.imp (fun hs => mem_nodeScopes_of_prefix node idx n s hs heads hpre hne)
        fun hs => mem_bodyScopes_of_prefix nodes (idx + 1) _ s hs heads hpre hne

end

theorem toString_nat_injective {m n : ℕ} (h : toString m = toString n) : m = n := by
  have hdigits : ∀ k : ℕ, (toString k).toList = Nat.toDigits 10 k := by
    intro k
    change k.repr.toList = _
    rw [Nat.repr_eq_ofList_toDigits, String.toList_ofList]
  have heq := congrArg (fun text => Nat.ofDigitChars 10 (String.toList text) 0) h
  rwa [hdigits, hdigits, Nat.ofDigitChars_toDigits (by decide) (by decide),
    Nat.ofDigitChars_toDigits (by decide) (by decide)] at heq

/-- Without names no two match nodes have the same label. -/
theorem nodup_labels_bodyScopes {body : List RuleNode} (h : Unnamed body) (idx n : ℕ) :
    ((bodyScopes body idx n).map scopeLabel).Nodup := by
  rw [labels_bodyScopes body idx n h]
  exact (List.nodup_range' 1).map fun _ _ h => toString_nat_injective (Option.some.inj h)

/-! ### The declarations -/

variable {C}

/-- **What a declaration says of its leaf**, for a walk that starts in the context. -/
structure Faithful (ctx : WalkCtx C) (s : Site) (d : Decl C) : Prop where
  leaf : d.leaf = s.leaf
  scopePred : ∀ req, holds d.scopePred req = true ↔
    (∀ p ∈ ctx.preds, p req = true) ∧ ∀ h ∈ s.heads, h.form.spec.Accepts C req
  path : d.path = ctx.path ++ s.heads.map Head.idx
  /-- Of the innermost match node that declares one, or else the initial one. -/
  redis : d.redis = (s.heads.reverse.findSome? Head.conn).or ctx.redisStack.getLast?
  scopeLabel : d.scopeLabel = ".".intercalate (ctx.scopeStack ++ s.heads.map Head.label)

theorem faithful_declOf {ctx : WalkCtx C} {s : Site} (h : ∀ head ∈ s.heads, head.Compiles C) :
    Faithful ctx s (ctx.declOf s) where
  leaf := rfl
  scopePred req := by
    have hhead : ∀ head ∈ s.heads,
        (∀ p ∈ (head.pred C).toList, p req = true) ↔ head.form.spec.Accepts C req := by
      intro head hmem
      rw [← holds_intoPredicate C (h head hmem) req]
      cases head.pred C <;> simp [holds]
    rw [WalkCtx.declOf, holds_andPredicates, List.forall_mem_append, Site.preds]
    refine and_congr_right fun _ => ?_
    simp only [List.mem_flatMap]
    constructor
    · exact fun hall head hmem => (hhead head hmem).mp fun p hp => hall p ⟨head, hmem, hp⟩
    · rintro hall p ⟨head, hmem, hp⟩
      exact (hhead head hmem).mpr (hall head hmem) p hp
  path := rfl
  redis := by
    have hconns : s.conns = s.heads.filterMap Head.conn := by
      rw [Site.conns, List.filterMap_eq_flatMap_toList]
    rw [WalkCtx.declOf, List.getLast?_append, hconns, List.getLast?_filterMap]
  scopeLabel := rfl

/-- **The config walk is faithful to the tree.**  Whenever `walk_body` succeeds it adds one
declaration for each leaf, in pre-order, that says of the leaf what the tree says, and leaves
its stacks as it found them.  A `match` node with several fields accepts what `host`, `path`
and `method` nodes inside each other accept.  The match nodes around the leaves are among those
of the body, and without names no two of these have the same label. -/
theorem walk_faithful {body : List RuleNode} {ctx ctx' : WalkCtx C} {out out' : List (Decl C)}
    (h : walkBody body 0 ctx out = .ok (ctx', out')) :
    (∃ decls, out' = out ++ decls ∧
        List.Forall₂ (Faithful ctx) (bodyLeaves body 0 ctx.scopeCounter) decls) ∧
      WalkCtx.SameStacks ctx ctx' ∧
      (∀ host path method header req,
        (MatchForm.general host path method header).spec.Accepts C req ↔
          (∀ h ∈ host, (MatchForm.host h).spec.Accepts C req) ∧
          (∀ p ∈ path, (MatchForm.path p).spec.Accepts C req) ∧
          (∀ m ∈ method, (MatchForm.method m).spec.Accepts C req) ∧
          (∀ h ∈ header, (MatchForm.general none none none (some h)).spec.Accepts C req)) ∧
      (∀ s ∈ bodyLeaves body 0 ctx.scopeCounter, ∀ heads, heads <+: s.heads → heads ≠ [] →
        heads ∈ bodyScopes body 0 ctx.scopeCounter) ∧
      (Unnamed body → ((bodyScopes body 0 ctx.scopeCounter).map scopeLabel).Nodup) := by
  obtain ⟨hsame, _, rfl⟩ := walkBody_spec body 0 ctx out h
  have hcompiles := compiles_of_walkBody body 0 ctx out h
  refine ⟨⟨_, rfl, ?_⟩, hsame, accepts_general C,
    mem_bodyScopes_of_prefix body 0 ctx.scopeCounter,
    fun hunnamed => nodup_labels_bodyScopes hunnamed 0 ctx.scopeCounter⟩
  rw [List.forall₂_map_right_iff, List.forall₂_same]
  exact fun s hs => faithful_declOf (hcompiles s hs)

/-- Two hosts, the second with a path inside, and a limit on the bandwidth in each. -/
def twoHosts : List RuleNode :=
  [.scope (.host "a") none none [.leaf (.bandwidth 1)],
    .scope (.host "b") none none [.scope (.path "/x") none none [.leaf (.bandwidth 2)]]]

/-- The hypothesis of `walk_faithful` is met by `twoHosts`, whose match nodes have the labels
`0`, `1` and `2`. -/
theorem walk_faithful_twoHosts : ∃ ctx' out',
    walkBody twoHosts 0 (WalkCtx.start (C := .plain) none .empty) [] = .ok (ctx', out') ∧
      out'.map (fun d => (d.path, d.scopeLabel)) = [([0], "0"), ([1, 0], "1.2")] ∧
      ((bodyScopes twoHosts 0 0).map scopeLabel).Nodup := by
  refine ⟨_, _, rfl, by decide +kernel, ?_⟩
  have hwalk : walkBody twoHosts 0 (WalkCtx.start (C := .plain) none .empty) [] = .ok (_, _) := rfl
  exact (walk_faithful hwalk).2.2.2.2
    ⟨⟨rfl, trivial, trivial⟩, ⟨rfl, ⟨rfl, trivial, trivial⟩, trivial⟩, trivial⟩

end Config
end Noxy
