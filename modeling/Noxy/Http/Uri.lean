/-
# URIs

`http::uri`, version 1.4, as far as rewriting a URI reads it: which texts are a path and query,
what their query is, and which parts make a URI.

A text is scanned character by character.  A question mark ends the path, and a hash ends
everything; the characters after it are not looked at.  The place of the question mark is kept in
sixteen bits, and the number 65535 stands for none: behind a question mark there the query is not
scanned.  The length of a text is not looked at.  A URI has a scheme and an authority, with a path
and query; or it has only a path and query, as a target in origin form or the asterisk; or only an
authority, as the target of `CONNECT`.

`UriCrate.Lawful` is what is assumed of the crate.  What its URIs say of their path and query is
assumed only up to 65534 bytes, which is the limit of a request's target.  `uris` is such a crate.
-/

import Mathlib.Data.List.TakeWhile
import Noxy.Http.HopByHop
import Noxy.Lib.Utf8

namespace Noxy
namespace Http

/-! ### Scanning -/

/-- The characters of a path.  A character that is not ASCII is let through, since the text is
UTF-8; so are the quotation mark and the braces. -/
def isPathChar (c : Char) : Bool :=
  let n := c.toNat
  n == 0x21 || (0x24 ≤ n && n ≤ 0x3b) || n == 0x3d || (0x40 ≤ n && n ≤ 0x5f) ||
    (0x61 ≤ n && n ≤ 0x7a) || n == 0x7c || n == 0x7e || 0x7f ≤ n ||
    c == '"' || c == '\x7b' || c == '\x7d'

/-- The characters of a query. -/
def isQueryChar (c : Char) : Bool :=
  let n := c.toNat
  n == 0x21 || (0x24 ≤ n && n ≤ 0x3b) || n == 0x3d || 0x3f ≤ n

/-- The loop over the query. -/
def scanQuery : List Char → Bool
  | [] => true
  | c :: cs => c == '#' || (isQueryChar c && scanQuery cs)

/-- The loop over the path, from a place in the text on. -/
def scanPath (i : ℕ) : List Char → Bool
  | [] => true
  | c :: cs =>
      if c = '?' then i % 65536 == 65535 || scanQuery cs
      else c == '#' || (isPathChar c && scanPath (i + (Lib.charBytes c).length) cs)

/-- `PathAndQuery::from_shared` accepts the text. -/
def Accepted (text : String) : Prop := scanPath 0 text.toList = true

instance (text : String) : Decidable (Accepted text) := inferInstanceAs (Decidable (_ = _))

/-- The signs that end a path. -/
def isMark (c : Char) : Bool := c == '?' || c == '#'

/-- What is before the first sign, and the rest. -/
def front (cs : List Char) : List Char := cs.takeWhile fun c => !isMark c

def back (cs : List Char) : List Char := cs.dropWhile fun c => !isMark c

/-- What is before a hash. -/
def withoutFragment (cs : List Char) : List Char := cs.takeWhile (· != '#')

/-- The path of a text, and its query. -/
def pathPart (text : String) : String := String.ofList (front text.toList)

def queryPart (text : String) : Option String :=
  match back text.toList with
  | '?' :: query => some (String.ofList (withoutFragment query))
  | _ => none

/-! ### The crate -/

/-- What `HttpCrate` does not have of `http::uri`. -/
structure UriCrate (H : HttpCrate) where
  /-- `Uri::query`. -/
  query : H.Uri → Option String
  /-- `str::parse::<PathAndQuery>`. -/
  pathAndQuery : String → Option H.PathAndQuery

/-- The path and the query of the URI have at most 65534 bytes, as those of a request that a
server accepts. -/
def UriCrate.Short {H : HttpCrate} (U : UriCrate H) (uri : H.Uri) : Prop :=
  (utf8 (H.path uri)).length + ((U.query uri).elim 0 fun query => (utf8 query).length + 1) ≤ 65534

/-- What is assumed of it. -/
structure UriCrate.Lawful {H : HttpCrate} (U : UriCrate H) : Prop where
  /-- Which texts are accepted. -/
  accepts : ∀ text, (U.pathAndQuery text).isSome = true ↔ Accepted text
  /-- A path and query goes with a scheme and an authority, or with neither. -/
  fromParts : ∀ scheme authority pq, (H.fromParts scheme authority (some pq)).isSome = true ↔
    scheme.isSome = authority.isSome
  /-- A URI has the query of its path and query, if its signs are among the first 65534 bytes. -/
  query_fromParts : ∀ start query pq scheme authority uri, (utf8 start).length ≤ 65534 →
    '#' ∉ query.toList → U.pathAndQuery (start ++ "?" ++ query) = some pq →
    H.fromParts scheme authority (some pq) = some uri →
      U.query uri = queryPart (start ++ "?" ++ query)
  /-- A URI with a scheme has an authority. -/
  authority_of_scheme : ∀ uri, (H.scheme uri).isSome = true → (H.authority uri).isSome = true
  /-- The path and the query of a URI have been scanned. -/
  path_scanned : ∀ uri, U.Short uri → ∀ c ∈ (H.path uri).toList, isPathChar c = true
  query_scanned : ∀ uri, U.Short uri → ∀ query, U.query uri = some query →
    ∀ c ∈ query.toList, isQueryChar c = true

/-- A URI in authority form: an authority without a scheme. -/
def AuthorityForm (H : HttpCrate) (uri : H.Uri) : Prop :=
  H.scheme uri = none ∧ H.authority uri ≠ none

/-! ### What a scan says -/

theorem isMark_iff {c : Char} : isMark c = true ↔ c = '?' ∨ c = '#' := by simp [isMark]

theorem isMark_of_isPathChar {c : Char} (h : isPathChar c = true) : isMark c = false := by
  rw [Bool.eq_false_iff]
  intro hmark
  rcases isMark_iff.mp hmark with rfl | rfl
  · exact absurd h (by decide)
  · exact absurd h (by decide)

theorem ne_of_isQueryChar {c : Char} (h : isQueryChar c = true) : c ≠ '#' := by
  rintro rfl
  exact absurd h (by decide)

theorem front_append_back (cs : List Char) : front cs ++ back cs = cs :=
  List.takeWhile_append_dropWhile

theorem isMark_of_mem_front {cs : List Char} {c : Char} (h : c ∈ front cs) : isMark c = false := by
  simpa using List.mem_takeWhile_imp h

section Split

variable {path : List Char} (hpath : ∀ c ∈ path, isMark c = false)
include hpath

theorem front_append (rest : List Char) : front (path ++ rest) = path ++ front rest :=
  List.takeWhile_append_of_pos fun c hc => by rw [hpath c hc]; rfl

theorem back_append (rest : List Char) : back (path ++ rest) = back rest :=
  List.dropWhile_append_of_pos fun c hc => by rw [hpath c hc]; rfl

end Split

theorem front_mark {c : Char} (h : isMark c = true) (cs : List Char) : front (c :: cs) = [] :=
  List.takeWhile_cons_of_neg (by simp [h])

theorem back_mark {c : Char} (h : isMark c = true) (cs : List Char) : back (c :: cs) = c :: cs :=
  List.dropWhile_cons_of_neg (by simp [h])

/-- The rest begins with a sign, if there is one. -/
theorem back_cases (cs : List Char) :
    back cs = [] ∨ (∃ own, back cs = '?' :: own) ∨ ∃ rest, back cs = '#' :: rest := by
  cases hback : back cs with
  | nil => exact .inl rfl
  | cons c rest =>
      have hmark : isMark c = true := by
        have hne : cs.dropWhile (fun c => !isMark c) ≠ [] := by
          rw [← back, hback]
          exact List.cons_ne_nil _ _
        have hhead := List.head_dropWhile_not (p := fun c => !isMark c) (l := cs) hne
        have hc : (cs.dropWhile fun c => !isMark c).head hne = c := by
          simp only [← back.eq_1, hback, List.head_cons]
        rw [hc] at hhead
        simpa using hhead
      rcases isMark_iff.mp hmark with rfl | rfl
      · exact .inr (.inl ⟨rest, rfl⟩)
      · exact .inr (.inr ⟨rest, rfl⟩)

theorem back_eq_nil_iff {cs : List Char} : back cs = [] ↔ ∀ c ∈ cs, isMark c = false := by
  constructor
  · intro h c hc
    rw [← front_append_back cs, h, List.append_nil] at hc
    exact isMark_of_mem_front hc
  · intro h
    have hback := back_append h []
    rwa [List.append_nil] at hback

theorem scanQuery_iff {cs : List Char} :
    scanQuery cs = true ↔ ∀ c ∈ withoutFragment cs, isQueryChar c = true := by
  induction cs with
  | nil => exact iff_of_true rfl (List.forall_mem_nil _)
  | cons c cs ih =>
      by_cases hhash : c = '#'
      · subst hhash
        exact iff_of_true rfl (List.forall_mem_nil _)
      · have hcons : withoutFragment (c :: cs) = c :: withoutFragment cs :=
          List.takeWhile_cons_of_pos (bne_iff_ne.mpr hhash)
        rw [hcons, List.forall_mem_cons, ← ih, scanQuery, beq_eq_false_iff_ne.mpr hhash]
        simp

/-- A scan goes on behind characters without a sign, if they are those of a path. -/
theorem scanPath_append {path : List Char} (i : ℕ) (hpath : ∀ c ∈ path, isMark c = false)
    (rest : List Char) :
    scanPath i (path ++ rest) = true ↔
      (∀ c ∈ path, isPathChar c = true) ∧
        scanPath (i + (Lib.textBytes path).length) rest = true := by
  induction path generalizing i with
  | nil => exact ⟨fun h => ⟨List.forall_mem_nil _, h⟩, fun h => h.2⟩
  | cons c path ih =>
      obtain ⟨hc, hpath⟩ := List.forall_mem_cons.mp hpath
      have hnot : c ≠ '?' ∧ c ≠ '#' := by
        rw [← not_or, ← isMark_iff, hc]
        exact Bool.false_ne_true
      rw [List.cons_append, scanPath, if_neg hnot.1, beq_eq_false_iff_ne.mpr hnot.2, Bool.false_or,
        Bool.and_eq_true, ih _ hpath, List.forall_mem_cons, Lib.textBytes_cons, List.length_append,
        Nat.add_assoc, and_assoc]

/-- **What a scan says.**  The characters before the first sign are those of a path; and if the
sign is a question mark, the characters from it to the next hash are those of a query, unless the
question mark is where its place stands for none. -/
theorem scanPath_iff {cs : List Char} (i : ℕ) :
    scanPath i cs = true ↔
      (∀ c ∈ front cs, isPathChar c = true) ∧ ∀ own, back cs = '?' :: own →
        (i + (Lib.textBytes (front cs)).length) % 65536 = 65535 ∨
          ∀ c ∈ withoutFragment own, isQueryChar c = true := by
  have hfront : ∀ c ∈ front cs, isMark c = false := fun c hc => isMark_of_mem_front hc
  have hsplit := scanPath_append i hfront (back cs)
  rw [front_append_back] at hsplit
  rw [hsplit]
  refine and_congr_right fun _ => ?_
  rcases back_cases cs with hback | ⟨own, hback⟩ | ⟨rest, hback⟩
  · rw [hback]
    exact iff_of_true rfl fun own h => by cases h
  · rw [hback, scanPath, if_pos rfl, Bool.or_eq_true, beq_iff_eq, scanQuery_iff]
    constructor
    · intro h own' heq
      obtain rfl := (List.cons.inj heq).2
      exact h
    · exact fun h => h own rfl
  · rw [hback]
    exact iff_of_true rfl fun own h => by cases h

/-! ### Paths and queries of texts -/

theorem withoutFragment_eq_self {cs : List Char} (h : '#' ∉ cs) : withoutFragment cs = cs := by
  rw [withoutFragment, List.takeWhile_eq_self_iff]
  exact fun c hc => bne_iff_ne.mpr fun heq => h (heq ▸ hc)

theorem withoutFragment_append {cs cs' : List Char} (h : '#' ∉ cs) :
    withoutFragment (cs ++ cs') = cs ++ withoutFragment cs' :=
  List.takeWhile_append_of_pos fun _ hc => bne_iff_ne.mpr fun heq => h (heq ▸ hc)

theorem withoutFragment_append_of_mem {cs : List Char} (h : '#' ∈ cs) (cs' : List Char) :
    withoutFragment (cs ++ cs') = withoutFragment cs := by
  obtain ⟨start, rest, rfl, hstart⟩ := List.eq_append_cons_of_mem h
  rw [List.append_assoc, withoutFragment_append hstart, withoutFragment_append hstart]
  rfl

/-- **The query begins at the first question mark.** -/
theorem queryPart_of_split {text : String} {path query : List Char}
    (htext : text.toList = path ++ '?' :: query) (hpath : ∀ c ∈ path, isMark c = false) :
    queryPart text = some (String.ofList (withoutFragment query)) := by
  rw [queryPart, htext, back_append hpath, back_mark rfl]
  rfl

/-- A text without a sign is a path. -/
theorem parts_of_path {text : String} (h : ∀ c ∈ text.toList, isMark c = false) :
    pathPart text = text ∧ queryPart text = none := by
  have hback := back_eq_nil_iff.mpr h
  have hfront := front_append_back text.toList
  rw [hback, List.append_nil] at hfront
  constructor
  · rw [pathPart, hfront, String.ofList_toList]
  · rw [queryPart, hback]

/-! ### A crate -/

/-- A path and query that have been scanned. -/
structure PathQuery where
  path : String
  query : Option String
  path_scanned : ∀ c ∈ path.toList, isPathChar c = true
  query_scanned : ∀ q, query = some q → ∀ c ∈ q.toList, isQueryChar c = true

theorem path_scanned_of_accepted {text : String} (h : Accepted text) :
    ∀ c ∈ (pathPart text).toList, isPathChar c = true := by
  rw [pathPart, String.toList_ofList]
  exact ((scanPath_iff 0).mp h).1

/-- The query of a text, if it has been scanned. -/
def scannedQuery (text : String) : Option String :=
  (queryPart text).filter fun query => query.toList.all isQueryChar

theorem query_scanned_of_eq {text : String} (query : String)
    (h : scannedQuery text = some query) : ∀ c ∈ query.toList, isQueryChar c = true :=
  List.all_eq_true.mp (Option.filter_eq_some_iff.mp h).2

/-- `PathAndQuery::from_shared`. -/
def PathQuery.parse (text : String) : Option PathQuery :=
  if h : Accepted text then
    some ⟨pathPart text, scannedQuery text, path_scanned_of_accepted h, query_scanned_of_eq⟩
  else none

theorem PathQuery.parse_eq_some {text : String} {pq : PathQuery} (h : parse text = some pq) :
    Accepted text ∧ pq.path = pathPart text ∧ pq.query = scannedQuery text := by
  unfold parse at h
  split at h
  · rename_i haccepted
    rw [← Option.some.inj h]
    exact ⟨haccepted, rfl, rfl⟩
  · cases h

/-- The query is scanned, unless the question mark is where its place stands for none. -/
theorem scannedQuery_of_accepted {text : String} (h : Accepted text)
    (hplace : (Lib.textBytes (front text.toList)).length % 65536 ≠ 65535) :
    scannedQuery text = queryPart text := by
  rw [scannedQuery, queryPart]
  split
  · rename_i query hback
    have hquery := (((scanPath_iff 0).mp h).2 query hback).resolve_left
      (by rwa [Nat.zero_add])
    rw [Option.filter_some, if_pos]
    rw [String.toList_ofList]
    exact List.all_eq_true.mpr hquery
  · rfl

/-- The first sign of a text is not behind its last question mark. -/
theorem front_prefix (start query : List Char) : front (start ++ '?' :: query) <+: start := by
  nth_rw 1 [← front_append_back start]
  rw [List.append_assoc, front_append fun c hc => isMark_of_mem_front hc]
  have hnil : front (back start ++ '?' :: query) = [] := by
    rcases back_cases start with hback | ⟨own, hback⟩ | ⟨rest, hback⟩
    · rw [hback]
      exact front_mark rfl query
    · rw [hback]
      exact front_mark rfl _
    · rw [hback]
      exact front_mark rfl _
  rw [hnil, List.append_nil]
  exact ⟨back start, front_append_back start⟩

theorem toList_append_query (start query : String) :
    (start ++ "?" ++ query).toList = start.toList ++ '?' :: query.toList := by
  rw [String.toList_append, String.toList_append, List.append_assoc]
  rfl

/-- A sign among the first 65535 bytes is not where it stands for none. -/
theorem place_of_short {start : String} (h : (utf8 start).length ≤ 65534) (query : String) :
    (Lib.textBytes (front (start ++ "?" ++ query).toList)).length % 65536 ≠ 65535 := by
  obtain ⟨rest, hrest⟩ := front_prefix start.toList query.toList
  have hbytes : (Lib.textBytes (front (start.toList ++ '?' :: query.toList))).length +
      (Lib.textBytes rest).length = (Lib.textBytes start.toList).length := by
    rw [← List.length_append, ← Lib.textBytes_append, hrest]
  change (Lib.textBytes start.toList).length ≤ 65534 at h
  rw [toList_append_query]
  omega

/-- The three kinds of URIs. -/
inductive Target where
  | origin (pq : PathQuery)
  | absolute (scheme authority : String) (pq : PathQuery)
  | connect (authority : String)

namespace Target

def scheme : Target → Option String
  | .absolute scheme _ _ => some scheme
  | _ => none

def authority? : Target → Option String
  | .absolute _ authority _ => some authority
  | .connect authority => some authority
  | .origin _ => none

def pathQuery : Target → Option PathQuery
  | .absolute _ _ pq => some pq
  | .origin pq => some pq
  | .connect _ => none

/-- `Uri::path`. -/
def path (t : Target) : String :=
  match t.pathQuery with
  | some pq => if pq.path = "" then "/" else pq.path
  | none => ""

/-- `Uri::from_parts`. -/
def fromParts : Option String → Option String → Option PathQuery → Option Target
  | some scheme, some authority, some pq => some (.absolute scheme authority pq)
  | none, none, some pq => some (.origin pq)
  | none, some authority, none => some (.connect authority)
  | _, _, _ => none

end Target

/-- `HttpCrate.ascii` with these URIs. -/
def uris : HttpCrate where
  Uri := Target
  Scheme := String
  Authority := String
  PathAndQuery := PathQuery
  HTTP := "http"
  HTTPS := "https"
  scheme := Target.scheme
  authority := Target.authority?
  pathAndQuery := Target.pathQuery
  fromParts := Target.fromParts
  parse text :=
    match PathQuery.parse text with
    | some pq => .ok (.origin pq)
    | none => .error "invalid uri character"
  host := Target.authority?
  path := Target.path
  toStr := HttpCrate.ascii.toStr
  headerName := HttpCrate.ascii.headerName
  method := HttpCrate.ascii.method

/-- `Uri::query` and the texts of a path and query. -/
def uriCrate : UriCrate uris where
  query t := t.pathQuery.bind PathQuery.query
  pathAndQuery := PathQuery.parse

theorem uriCrate_lawful : uriCrate.Lawful where
  accepts text := by
    change (PathQuery.parse text).isSome = true ↔ _
    unfold PathQuery.parse
    split <;> simpa
  fromParts scheme authority pq := by
    cases scheme with
    | none =>
        cases authority with
        | none => exact iff_of_true rfl rfl
        | some a => exact iff_of_false Bool.false_ne_true Bool.false_ne_true
    | some s =>
        cases authority with
        | none => exact iff_of_false Bool.false_ne_true Bool.false_ne_true.symm
        | some a => exact iff_of_true rfl rfl
  query_fromParts start query pq scheme authority uri hlen _ hpq huri := by
    obtain ⟨haccepted, -, hquery⟩ := PathQuery.parse_eq_some hpq
    rw [scannedQuery_of_accepted haccepted (place_of_short hlen query)] at hquery
    change Target.fromParts scheme authority (some pq) = some uri at huri
    cases scheme <;> cases authority <;> cases huri <;> exact hquery
  authority_of_scheme uri h := by
    cases uri with
    | absolute => rfl
    | origin => cases h
    | connect => cases h
  path_scanned uri _ c hc := by
    change c ∈ (Target.path uri).toList at hc
    unfold Target.path at hc
    split at hc
    · rename_i pq _
      split at hc
      · obtain rfl : c = '/' := List.mem_singleton.mp hc
        rfl
      · exact pq.path_scanned c hc
    · exact absurd hc List.not_mem_nil
  query_scanned uri _ query h := by
    obtain ⟨pq, -, hq⟩ := Option.bind_eq_some_iff.mp h
    exact pq.query_scanned query hq

/-- A text that is accepted is a URI in origin form. -/
theorem exists_origin (text : String) (h : Accepted text) (hpath : pathPart text ≠ "")
    (hplace : (Lib.textBytes (front text.toList)).length % 65536 ≠ 65535) :
    ∃ uri, uris.parse text = .ok uri ∧ ¬ AuthorityForm uris uri ∧
      uris.path uri = pathPart text ∧ uriCrate.query uri = queryPart text := by
  obtain ⟨pq, hpq⟩ := Option.isSome_iff_exists.mp ((uriCrate_lawful.accepts text).mpr h)
  replace hpq : PathQuery.parse text = some pq := hpq
  obtain ⟨-, hp, hq⟩ := PathQuery.parse_eq_some hpq
  rw [scannedQuery_of_accepted h hplace] at hq
  refine ⟨.origin pq, ?_, fun h => h.2 rfl, ?_, hq⟩
  · change (match PathQuery.parse text with | some pq => _ | none => _) = _
    rw [hpq]
    rfl
  · change (if pq.path = "" then "/" else pq.path) = _
    rw [if_neg (hp ▸ hpath), hp]

end Http
end Noxy
