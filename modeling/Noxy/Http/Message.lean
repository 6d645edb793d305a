/-
# HTTP messages

The types of the `http` and `http-body` crates that the code passes around, as
far as the modelled functions read them, and `src/http.rs`: `UpstreamTarget`,
`full_body`, `empty_body`, `requests_upgrade` and `strip_hop_by_hop`.

A body is a stream: the frames it will yield, and whether it then ends or fails.
A header map is its lines in order, with lower-case names and values in bytes.
What the `http` crate decides about texts and URIs is not defined here: it is a
parameter, `HttpCrate`, of everything that uses it, and `HttpCrate.Lawful` lists
what is assumed of it.  `HttpCrate.plain` is one such crate.
-/

import Mathlib.Data.List.Basic

namespace Noxy
namespace Http

/-- The `http` crate: its URIs and the texts it accepts. -/
structure HttpCrate where
  Uri : Type
  Scheme : Type
  Authority : Type
  PathAndQuery : Type
  /-- `Scheme::HTTP`. -/
  HTTP : Scheme
  /-- `Scheme::HTTPS`. -/
  HTTPS : Scheme
  /-- The parts that `Uri::into_parts` gives. -/
  scheme : Uri → Option Scheme
  authority : Uri → Option Authority
  pathAndQuery : Uri → Option PathAndQuery
  /-- `Uri::from_parts`. -/
  fromParts : Option Scheme → Option Authority → Option PathAndQuery → Option Uri
  /-- `str::parse::<Uri>`, with the text of its error. -/
  parse : String → Except String Uri
  /-- `Uri::host`. -/
  host : Uri → Option String
  /-- `Uri::path`. -/
  path : Uri → String
  /-- `HeaderValue::to_str`. -/
  toStr : List UInt8 → Option String
  /-- `HeaderName::from_bytes`, with the text of its error. -/
  headerName : String → Except String String
  /-- `Method::from_bytes`, with the text of its error. -/
  method : String → Except String String

/-- What is assumed of `Uri::into_parts` and `Uri::from_parts`. -/
structure HttpCrate.Lawful (H : HttpCrate) : Prop where
  /-- All three parts make a URI with these parts. -/
  fromParts_full : ∀ s a p, ∃ u, H.fromParts (some s) (some a) (some p) = some u ∧
    H.scheme u = some s ∧ H.authority u = some a ∧ H.pathAndQuery u = some p
  /-- A scheme and an authority without a path do not make a URI. -/
  fromParts_no_path : ∀ s a, H.fromParts (some s) (some a) none = none
  /-- A URI without a path, as an authority-form request target is, has no scheme. -/
  scheme_of_no_path : ∀ u, H.pathAndQuery u = none → H.scheme u = none

/-- A frame of a body. -/
inductive Frame where
  | data (bytes : List UInt8)
  | trailers (lines : List (String × List UInt8))
  deriving DecidableEq, Repr

/-- How a body stops. -/
inductive Ending where
  | eof
  | error (err : String)
  deriving DecidableEq, Repr

/-- `Body`: the frames to come, how it stops after them, and what
`size_hint().exact()` says. -/
structure Body where
  frames : List Frame
  ending : Ending
  exact : Option ℕ
  deriving DecidableEq, Repr

/-- The bytes of a text. -/
def utf8 (text : String) : List UInt8 := text.toList.flatMap String.utf8EncodeChar

/-- `empty_body`. -/
def emptyBody : Body := ⟨[], .eof, some 0⟩

/-- `full_body`: one data frame, unless there is no data. -/
def fullBody (bytes : List UInt8) : Body :=
  ⟨if bytes = [] then [] else [.data bytes], .eof, some bytes.length⟩

/-- `HeaderMap`: the lines, names in lower case. -/
abbrev HeaderMap := List (String × List UInt8)

namespace HeaderMap

/-- `get_all`. -/
def getAll (headers : HeaderMap) (name : String) : List (List UInt8) :=
  (headers.filter fun line => line.1 == name).map Prod.snd

/-- `get`: the first line of the name. -/
def get (headers : HeaderMap) (name : String) : Option (List UInt8) :=
  (headers.find? fun line => line.1 == name).map Prod.snd

/-- `remove`: all lines of the name. -/
def remove (headers : HeaderMap) (name : String) : HeaderMap :=
  headers.filter fun line => line.1 != name

theorem get_eq_head? (headers : HeaderMap) (name : String) :
    get headers name = (getAll headers name).head? := by
  unfold get getAll
  rw [List.head?_map, List.head?_filter]

theorem getAll_remove_self (headers : HeaderMap) (name : String) :
    getAll (remove headers name) name = [] := by
  simp [getAll, remove, List.filter_filter]

theorem getAll_remove_of_ne (headers : HeaderMap) {name other : String} (h : name ≠ other) :
    getAll (remove headers other) name = getAll headers name := by
  unfold getAll remove
  rw [List.filter_filter]
  refine congrArg _ (List.filter_congr fun line _ => ?_)
  by_cases hline : line.1 = name
  · simp [hline, h]
  · simp [hline]

end HeaderMap

/-- `UpstreamTarget`. -/
@[ext]
structure UpstreamTarget (H : HttpCrate) where
  authority : H.Authority
  scheme : H.Scheme

/-- `Request<Body>`.  Its extensions are the one that the modelled code reads, `UpstreamTarget`,
and the others, each the name of a type and the value it has there. -/
structure Request (H : HttpCrate) where
  method : String
  uri : H.Uri
  version : String
  headers : HeaderMap
  upstreamTarget : Option (UpstreamTarget H)
  extensions : List (String × List UInt8)
  body : Body

/-- `Response<Body>`. -/
structure Response where
  status : ℕ
  headers : HeaderMap
  body : Body
  deriving DecidableEq, Repr

/-- `str::split(',')`. -/
def splitComma (text : String) : List String :=
  (text.toList.splitOn ',').map String.ofList

/-- `char::is_whitespace`. -/
def isWhitespace (c : Char) : Bool :=
  let n := c.toNat
  (9 ≤ n && n ≤ 13) || n == 0x20 || n == 0x85 || n == 0xa0 || n == 0x1680 ||
    (0x2000 ≤ n && n ≤ 0x200a) || n == 0x2028 || n == 0x2029 || n == 0x202f || n == 0x205f ||
    n == 0x3000

/-- `str::trim`. -/
def trim (text : String) : String :=
  String.ofList (((text.toList.dropWhile isWhitespace).reverse.dropWhile isWhitespace).reverse)

/-- `str::to_ascii_lowercase`; `char::to_ascii_lowercase` is `Char.toLower`. -/
def toAsciiLowercase (text : String) : String := String.ofList (text.toList.map Char.toLower)

/-- `str::eq_ignore_ascii_case`. -/
def eqIgnoreAsciiCase (a b : String) : Bool := toAsciiLowercase a == toAsciiLowercase b

section Headers

variable (H : HttpCrate)

/-- The comma-separated entries of the `Connection` lines that are texts. -/
def connectionTokens (headers : HeaderMap) : List String :=
  ((HeaderMap.getAll headers "connection").filterMap H.toStr).flatMap splitComma

/-- `requests_upgrade`. -/
def requestsUpgrade (headers : HeaderMap) : Bool :=
  (connectionTokens H headers).any fun token => eqIgnoreAsciiCase (trim token) "upgrade"

/-- `HOP_BY_HOP_HEADERS`. -/
def HOP_BY_HOP_HEADERS : List String :=
  ["connection", "te", "trailer", "transfer-encoding", "upgrade", "proxy-authenticate",
    "proxy-authorization"]

/-- `strip_hop_by_hop`. -/
def stripHopByHop (headers : HeaderMap) : HeaderMap :=
  let connectionNamed := (connectionTokens H headers).filterMap fun token =>
    (H.headerName (trim token)).toOption
  let headers := connectionNamed.foldl HeaderMap.remove headers
  let headers := HOP_BY_HOP_HEADERS.foldl HeaderMap.remove headers
  let headers := HeaderMap.remove headers "keep-alive"
  HeaderMap.remove headers "proxy-connection"

end Headers

/-- The URIs of `HttpCrate.plain`: a scheme comes with a path. -/
structure PlainUri where
  scheme : Option String
  authority : Option String
  pathAndQuery : Option String
  path_of_scheme : pathAndQuery = none → scheme = none
  deriving DecidableEq

/-- An origin-form URI, or one with an authority. -/
def PlainUri.ofPath (authority : Option String) (path : String) : PlainUri :=
  ⟨none, authority, some path, fun _ => rfl⟩

/-- A crate whose URIs are their parts and which accepts every text. -/
def HttpCrate.plain : HttpCrate where
  Uri := PlainUri
  Scheme := String
  Authority := String
  PathAndQuery := String
  HTTP := "http"
  HTTPS := "https"
  scheme := PlainUri.scheme
  authority := PlainUri.authority
  pathAndQuery := PlainUri.pathAndQuery
  fromParts
    | s, a, some p => some ⟨s, a, some p, fun h => absurd h (Option.some_ne_none p)⟩
    | none, a, none => some ⟨none, a, none, fun _ => rfl⟩
    | some _, _, none => none
  parse text := .ok (.ofPath none text)
  host := PlainUri.authority
  path u := u.pathAndQuery.getD ""
  toStr bytes := some (String.ofList (bytes.map fun b => Char.ofNat b.toNat))
  headerName text := .ok (toAsciiLowercase text)
  method text := .ok text

theorem HttpCrate.plain_lawful : HttpCrate.plain.Lawful where
  fromParts_full s a p :=
    ⟨⟨some s, some a, some p, fun h => absurd h (Option.some_ne_none p)⟩, rfl, rfl, rfl, rfl⟩
  fromParts_no_path _ _ := rfl
  scheme_of_no_path u h := PlainUri.path_of_scheme u h

end Http
end Noxy
