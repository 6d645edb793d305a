/-
# Match predicates

`src/config.rs`: `compile_glob`, `compile_path_glob`, `PathMatcher`, `MatchSpec`
and `and_predicates`.  A match node becomes a predicate on requests, or none if
it tests nothing; compiling it can fail on a glob, a method or a header name, and
the error says which.

Beside the `http` crate, `globset` and the `redis` client are parameters
(`Crates`): which globs compile and what they match, and which URLs the client
accepts.
-/

import Mathlib.Data.List.TakeWhile
import Noxy.Config.Rule
import Noxy.Http.Message

namespace Noxy
namespace Config

open Http

/-- The libraries that compiling a configuration calls. -/
structure Crates where
  http : HttpCrate
  /-- `globset`, with `literal_separator`: the matcher of a pattern, or the text
  of the error. -/
  glob : String → Except String (String → Bool)
  /-- `redis::Client::open`. -/
  redisOpen : String → Except String Unit

/-- `HttpCrate.plain`, globs that match themselves only, and a client that accepts
every URL. -/
def Crates.plain : Crates := ⟨.plain, fun pattern => .ok (· == pattern), fun _ => .ok ()⟩

/-- `Predicate`. -/
abbrev Predicate (C : Crates) := Request C.http → Bool

/-- `PathMatcher`. -/
inductive PathMatcher where
  | glob (g : String → Bool)
  | subtree (start : String) (g : String → Bool)

/-- `PathMatcher::is_match`. -/
def PathMatcher.isMatch : PathMatcher → String → Bool
  | .glob g, path => g path
  | .subtree start g, path => path == start || g path

/-- `str::strip_suffix('/')`. -/
def stripSlash (pattern : String) : Option String :=
  if pattern.toList.getLast? = some '/' then some (String.ofList pattern.toList.dropLast)
  else none

/-- `str::to_ascii_uppercase`; `char::to_ascii_uppercase` is `Char.toUpper`. -/
def toAsciiUppercase (text : String) : String := String.ofList (text.toList.map Char.toUpper)

/-- `h.split(':').next()`. -/
def beforeColon (host : String) : String :=
  String.ofList (host.toList.takeWhile fun c => c != ':')

theorem beforeColon_of_not_mem {host : String} (h : ':' ∉ host.toList) :
    beforeColon host = host := by
  have hall : host.toList.takeWhile (fun c => c != ':') = host.toList := by
    rw [List.takeWhile_eq_self_iff]
    exact fun c hc => bne_iff_ne.mpr fun heq => h (heq ▸ hc)
  rw [beforeColon, hall, String.ofList_toList]

variable (C : Crates)

/-- `compile_glob`. -/
def compileGlob (pattern : String) : Except String (String → Bool) := C.glob pattern

/-- `compile_path_glob`. -/
def compilePathGlob (pattern : String) : Except String PathMatcher :=
  match stripSlash pattern with
  | some stripped => (compileGlob C (stripped ++ "/**")).map (PathMatcher.subtree stripped)
  | none => (compileGlob C pattern).map PathMatcher.glob

/-- The host of a request: of its URI, or of its `Host` line, without the port. -/
def requestHost (req : Request C.http) : Option String :=
  ((C.http.host req.uri).orElse fun _ =>
    (HeaderMap.get req.headers "host").bind C.http.toStr).map beforeColon

/-- `MatchSpec`. -/
structure MatchSpec where
  host : Option String
  path : Option String
  methods : List String
  header : Option (String × String)
  deriving DecidableEq, Repr

/-- The `MatchSpec` that `walk_node` makes of a match node. -/
def MatchForm.spec : MatchForm → MatchSpec
  | .general h p m hd => ⟨h, p, m.toList, hd⟩
  | .host h => ⟨some h, none, [], none⟩
  | .path p => ⟨none, some p, [], none⟩
  | .method m => ⟨none, none, [m], none⟩
  | .methods ms => ⟨none, none, ms, none⟩

/-- The four tests of a compiled `MatchSpec`. -/
structure Matchers where
  methods : List String
  host : Option (String → Bool)
  header : Option (String × (String → Bool))
  path : Option PathMatcher

/-- The closure that `into_predicate` returns. -/
def Matchers.predicate (m : Matchers) : Predicate C := fun req =>
  if m.methods ≠ [] ∧ req.method ∉ m.methods then false
  else if (m.host.all fun isMatch => (requestHost C req).any isMatch) = false then false
  else if (m.header.all fun h =>
      ((HeaderMap.get req.headers h.1).bind C.http.toStr).any h.2) = false then false
  else m.path.all fun p => p.isMatch (C.http.path req.uri)

/-- `MatchSpec::into_predicate`. -/
def MatchSpec.intoPredicate (spec : MatchSpec) : Except String (Option (Predicate C)) :=
  if spec.host = none ∧ spec.path = none ∧ spec.methods = [] ∧ spec.header = none then .ok none
  else do
    let host ← spec.host.mapM (compileGlob C)
    let path ← spec.path.mapM (compilePathGlob C)
    let methods ← spec.methods.mapM fun m =>
      (C.http.method (toAsciiUppercase m)).mapError fun e => s!"invalid HTTP method '{m}': {e}"
    let header ← spec.header.mapM fun (name, value) => do
      let headerName ← (C.http.headerName name).mapError fun e =>
        s!"invalid header name '{name}': {e}"
      let valueGlob ← (compileGlob C value).mapError fun e =>
        s!"invalid header value glob '{value}': {e}"
      pure (headerName, valueGlob)
    .ok (some (Matchers.predicate C ⟨methods, host, header, path⟩))

/-- `and_predicates`. -/
def andPredicates (preds : List (Predicate C)) : Option (Predicate C) :=
  match preds with
  | [] => none
  | [p] => some p
  | preds => some fun req => preds.all fun p => p req

/-- What an optional predicate says; none is always. -/
def holds {C : Crates} (pred : Option (Predicate C)) (req : Request C.http) : Bool :=
  pred.all fun p => p req

/-- **The conjunction holds exactly if every predicate does.** -/
theorem holds_andPredicates (preds : List (Predicate C)) (req : Request C.http) :
    holds (andPredicates C preds) req = true ↔ ∀ p ∈ preds, p req = true := by
  unfold andPredicates holds
  split
  · simp
  · simp
  · simp

end Config
end Noxy
