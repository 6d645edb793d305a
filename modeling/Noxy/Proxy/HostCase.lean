/-
# The case of a blocked host

`src/middleware/block_list.rs`: `hosts`, `host` and `extract_host`.

The name of a host is handed to the globs as it stands in the URI or in the `Host` line, and a
glob tells `EVIL.COM` from `evil.com`.  So the decision is the same for requests that differ in
the case of the host exactly if the patterns, taken together, match a name in any case or in none
(`host_case_ignored_iff`).  Patterns without wildcards do so only if the list has every spelling
of every name in it.
-/

import Mathlib.Data.Bool.AllAny
import Mathlib.Data.List.TakeWhile
import Noxy.Config.PathGlob
import Noxy.Http.LowerCase
import Noxy.Proxy.BlockList

namespace Noxy
namespace Proxy

open Http Config Lib

/-- A line in which the case of a host is forgotten. -/
def lowerHost (line : String × List UInt8) : String × List UInt8 :=
  (line.1, if line.1 = "host" then line.2.map lowerByte else line.2)

/-- The texts in which hosts are written. -/
def Visible (text : String) : Prop :=
  ∃ v : List UInt8, v.all isVisibleAscii = true ∧ byteText v = text

/-- What is assumed of `Uri::host`: a target in origin form has none, and hosts are ASCII. -/
structure LawfulHost (H : HttpCrate) : Prop where
  origin : ∃ uri, H.host uri = none
  visible : ∀ uri host, H.host uri = some host → Visible host

section Case

variable (C : Crates)

/-- Two requests that differ in the case of their host only.  (The rest of the authority is not
read by the block list, and may differ as well.) -/
structure SameButCase (req req' : Request C.http) : Prop where
  method : req.method = req'.method
  version : req.version = req'.version
  upstreamTarget : req.upstreamTarget = req'.upstreamTarget
  extensions : req.extensions = req'.extensions
  body : req.body = req'.body
  scheme : C.http.scheme req.uri = C.http.scheme req'.uri
  pathAndQuery : C.http.pathAndQuery req.uri = C.http.pathAndQuery req'.uri
  host : (C.http.host req.uri).map toAsciiLowercase = (C.http.host req'.uri).map toAsciiLowercase
  headers : req.headers.map lowerHost = req'.headers.map lowerHost

theorem SameButCase.symm {C : Crates} {req req' : Request C.http} (h : SameButCase C req req') :
    SameButCase C req' req :=
  ⟨h.method.symm, h.version.symm, h.upstreamTarget.symm, h.extensions.symm, h.body.symm,
    h.scheme.symm, h.pathAndQuery.symm, h.host.symm, h.headers.symm⟩

/-- The name of a host without a port. -/
def HostName (name : String) : Prop := Visible name ∧ ':' ∉ name.toList

/-- The patterns match a name in every case, or in none. -/
def CaseBlind (patterns : List String) : Prop :=
  ∀ name name', HostName name → toAsciiLowercase name = toAsciiLowercase name' →
    MatchesAny C patterns name → MatchesAny C patterns name'

end Case

/-! ### Hosts -/

theorem lower_beforeColon (text : String) :
    toAsciiLowercase (beforeColon text) = beforeColon (toAsciiLowercase text) := by
  unfold toAsciiLowercase beforeColon
  rw [String.toList_ofList, String.toList_ofList, List.takeWhile_map]
  congr 3
  funext c
  rw [Bool.eq_iff_iff]
  simp [toLower_eq_colon_iff]

section Hosts

variable {C : Crates} {req req' : Request C.http}

theorem get_lowerHost (headers : HeaderMap) :
    HeaderMap.get (headers.map lowerHost) "host" =
      (HeaderMap.get headers "host").map (List.map lowerByte) := by
  unfold HeaderMap.get
  induction headers with
  | nil => rfl
  | cons line headers ih =>
      rw [List.map_cons, List.find?_cons, List.find?_cons, lowerHost]
      cases hname : line.1 == "host" with
      | true => simp [beq_iff_eq.mp hname]
      | false => exact ih

theorem toStr_lower (hH : C.http.LawfulText) (v : List UInt8) :
    C.http.toStr (v.map lowerByte) = (C.http.toStr v).map toAsciiLowercase := by
  rw [hH.toStr, hH.toStr, all_visible_lower, byteText_lower]
  split <;> rfl

/-- **Requests that differ in the case of their host** name hosts that differ in case. -/
theorem lower_extractHost (hH : C.http.LawfulText) (h : SameButCase C req req') :
    (extractHost C req).map toAsciiLowercase = (extractHost C req').map toAsciiLowercase := by
  have hline : ∀ headers : HeaderMap,
      ((HeaderMap.get headers "host").bind C.http.toStr).map toAsciiLowercase =
        (HeaderMap.get (headers.map lowerHost) "host").bind C.http.toStr := by
    intro headers
    rw [get_lowerHost]
    cases HeaderMap.get headers "host" with
    | none => rfl
    | some v => exact (toStr_lower hH v).symm
  have hhost : ∀ req : Request C.http, (extractHost C req).map toAsciiLowercase =
      (((C.http.host req.uri).map toAsciiLowercase).orElse fun _ =>
        (HeaderMap.get (req.headers.map lowerHost) "host").bind C.http.toStr).map beforeColon := by
    intro req
    rw [extractHost, requestHost, Option.map_map, ← hline]
    cases C.http.host req.uri with
    | none =>
        dsimp only [Option.orElse, Option.map_none]
        rw [Option.map_map]
        exact congrArg (Option.map · _) (funext lower_beforeColon)
    | some host => exact congrArg some (lower_beforeColon host)
  rw [hhost, hhost, h.host, h.headers]

theorem hostName_beforeColon {text : String} (h : Visible text) : HostName (beforeColon text) := by
  obtain ⟨v, hv, rfl⟩ := h
  constructor
  · refine ⟨v.takeWhile fun b => Char.ofNat b.toNat != ':', ?_, ?_⟩
    · rw [List.all_eq_true] at hv ⊢
      exact fun b hb => hv b ((List.takeWhile_sublist _).subset hb)
    · rw [beforeColon, byteText, byteText, String.toList_ofList, List.takeWhile_map]
      rfl
  · rw [beforeColon, String.toList_ofList]
    exact fun hcolon => absurd (List.mem_takeWhile_imp hcolon) (by decide)

theorem hostName_of_extractHost (hH : C.http.LawfulText) (hhost : LawfulHost C.http)
    {name : String} (h : extractHost C req = some name) : HostName name := by
  obtain ⟨text, htext, rfl⟩ := Option.map_eq_some_iff.mp h
  refine hostName_beforeColon ?_
  cases huri : C.http.host req.uri with
  | some host =>
      rw [huri] at htext
      obtain rfl : host = text := Option.some.inj htext
      exact hhost.visible _ _ huri
  | none =>
      rw [huri] at htext
      obtain ⟨v, -, hv⟩ := Option.bind_eq_some_iff.mp htext
      rw [hH.toStr] at hv
      split at hv
      · rename_i hvis
        exact ⟨v, hvis, Option.some.inj hv⟩
      · cases hv

/-- A `GET` of an origin-form target, with a `Host` line. -/
def getHost (uri : C.http.Uri) (v : List UInt8) : Request C.http :=
  ⟨"GET", uri, "HTTP/1.1", [("host", v)], none, [], emptyBody⟩

theorem sameButCase_getHost (uri : C.http.Uri) {v v' : List UInt8}
    (h : v.map lowerByte = v'.map lowerByte) : SameButCase C (getHost uri v) (getHost uri v') :=
  ⟨rfl, rfl, rfl, rfl, rfl, rfl, rfl, rfl, congrArg (fun v => [("host", v)]) h⟩

theorem extractHost_getHost (hH : C.http.LawfulText) {uri : C.http.Uri}
    (huri : C.http.host uri = none) {v : List UInt8} (hv : v.all isVisibleAscii = true)
    (hcolon : ':' ∉ (byteText v).toList) :
    extractHost C (getHost uri v) = some (byteText v) := by
  have htext : C.http.toStr v = some (byteText v) := by rw [hH.toStr, if_pos hv]
  have hline : HeaderMap.get (getHost uri v).headers "host" = some v := rfl
  have hnone : C.http.host (getHost uri v).uri = none := huri
  rw [extractHost, requestHost, hline, hnone]
  dsimp only [Option.orElse, Option.bind_some]
  rw [htext, Option.map_some, beforeColon_of_not_mem hcolon]

/-- **Two requests for a host** in two spellings. -/
theorem exists_requests (hH : C.http.LawfulText) (hhost : LawfulHost C.http) {name name' : String}
    (hname : HostName name) (hlower : toAsciiLowercase name = toAsciiLowercase name') :
    ∃ req req', SameButCase C req req' ∧ extractHost C req = some name ∧
      extractHost C req' = some name' := by
  obtain ⟨uri, huri⟩ := hhost.origin
  obtain ⟨⟨v, hv, rfl⟩, hcolon⟩ := hname
  obtain ⟨v', rfl, hbytes⟩ := exists_bytes_of_lower hv hlower
  have hv' : v'.all isVisibleAscii = true := by
    rw [← all_visible_lower, ← hbytes, all_visible_lower, hv]
  exact ⟨getHost uri v, getHost uri v', sameButCase_getHost uri hbytes,
    extractHost_getHost hH huri hv hcolon,
    extractHost_getHost hH huri hv' (lower_not_mem_colon hlower hcolon)⟩

theorem matchesAny_literals (hC : ∀ pattern, C.glob pattern = globset pattern)
    {patterns : List String} (h : ∀ pattern ∈ patterns, Literal pattern.toList) (name : String) :
    MatchesAny C patterns name ↔ name ∈ patterns := by
  have hself : ∀ pattern ∈ patterns, ∃ matcher, compileGlob C pattern = .ok matcher ∧
      ∀ name, matcher name = true ↔ name = pattern := by
    intro pattern hpattern
    have hbuild := build_of_literal (h pattern hpattern)
    refine ⟨_, (hC pattern).trans (globset_eq_ok_iff.mpr ⟨_, hbuild, rfl⟩), fun name => ?_⟩
    rw [matcher_iff, toPattern_literals]
    exact matched_literals.trans String.toList_inj
  constructor
  · rintro ⟨pattern, hpattern, matcher, hcompiled, hname⟩
    obtain ⟨m, hm, hiff⟩ := hself pattern hpattern
    obtain rfl : m = matcher := Except.ok.inj (hm.symm.trans hcompiled)
    rwa [(hiff name).mp hname]
  · intro hname
    obtain ⟨m, hm, hiff⟩ := hself name hname
    exact ⟨name, hname, m, hm, (hiff name).mpr rfl⟩

/-- **When host blocking ignores letter case.**  Exactly if the patterns of the list, taken
together, match a name in every case or in none.  If they are literal names, that is exactly if
the list has every spelling of the names in it. -/
theorem host_case_ignored_iff (hH : C.http.LawfulText) (hhost : LawfulHost C.http)
    {patterns more : List String} {bl : BlockList C}
    (hlist : BlockList.hostList C patterns more = .ok bl) :
    ((∀ req req', SameButCase C req req' → bl.isBlocked req = bl.isBlocked req') ↔
      CaseBlind C (patterns ++ more)) ∧
    ((∀ pattern, C.glob pattern = globset pattern) →
      (∀ pattern ∈ patterns ++ more, Literal pattern.toList) →
      (CaseBlind C (patterns ++ more) ↔ ∀ name ∈ patterns ++ more, HostName name →
        ∀ name', toAsciiLowercase name = toAsciiLowercase name' → name' ∈ patterns ++ more)) := by
  have hblocked := BlockList.isBlocked_hostList hlist
  refine ⟨⟨fun h name name' hname hlower hmatch => ?_, fun h => ?_⟩, fun hC hliteral => ?_⟩
  · obtain ⟨req, req', hsame, hreq, hreq'⟩ := exists_requests hH hhost hname hlower
    have hboth := (hblocked req).mpr ⟨name, hreq, hmatch⟩
    rw [h req req' hsame] at hboth
    obtain ⟨other, hother, hmatch'⟩ := (hblocked req').mp hboth
    rwa [Option.some.inj (hreq'.symm.trans hother)]
  · -- a blocked request gives a blocked one, in both directions
    have hone : ∀ req req', SameButCase C req req' → bl.isBlocked req = true →
        bl.isBlocked req' = true := by
      intro req req' hsame hreq
      obtain ⟨name, hname, hmatch⟩ := (hblocked req).mp hreq
      have hlower := lower_extractHost hH hsame
      rw [hname, Option.map_some, eq_comm, Option.map_eq_some_iff] at hlower
      obtain ⟨name', hname', heq⟩ := hlower
      exact (hblocked req').mpr ⟨name', hname',
        h name name' (hostName_of_extractHost hH hhost hname) heq.symm hmatch⟩
    intro req req' hsame
    rw [Bool.eq_iff_iff]
    exact ⟨hone req req' hsame, hone req' req hsame.symm⟩
  · have hmem := matchesAny_literals hC hliteral
    unfold CaseBlind
    simp only [hmem]
    exact ⟨fun h name hname hhost name' hlower => h name name' hhost hlower hname,
      fun h name name' hhost hlower hname => h name hname hhost name' hlower⟩

end Hosts

/-- The texts of the real crate, with hosts of visible characters only, and the globs of
`globset`. -/
def blockingCrates : Crates :=
  { Crates.globs with
    http := { HttpCrate.ascii with
      host := fun uri => (PlainUri.authority uri).filter fun text =>
        (utf8 text).all isVisibleAscii && byteText (utf8 text) == text } }

theorem blockingCrates_lawfulText : blockingCrates.http.LawfulText :=
  ⟨HttpCrate.ascii_lawfulText.toStr, HttpCrate.ascii_lawfulText.headerName⟩

theorem blockingCrates_lawfulHost : LawfulHost blockingCrates.http where
  origin := ⟨PlainUri.ofPath none "/", rfl⟩
  visible uri host h := by
    have hvis := (Option.filter_eq_some_iff.mp h).2
    rw [Bool.and_eq_true, beq_iff_eq] at hvis
    exact ⟨utf8 host, hvis⟩

/-- `GET /` with a `Host` line. -/
def getNamed (name : String) : Request blockingCrates.http :=
  getHost (C := blockingCrates) (PlainUri.ofPath none "/") (utf8 name)

/-- The case of a host does not matter to a list with an address in it only. -/
theorem host_case_ignored_address : ∃ bl,
    BlockList.hostList blockingCrates ["127.0.0.1"] [] = .ok bl ∧ ∀ req req',
      SameButCase blockingCrates req req' → bl.isBlocked req = bl.isBlocked req' := by
  obtain ⟨bl, hlist⟩ : ∃ bl, BlockList.hostList blockingCrates ["127.0.0.1"] [] = .ok bl :=
    ⟨_, rfl⟩
  obtain ⟨hiff, hliteral⟩ :=
    host_case_ignored_iff blockingCrates_lawfulText blockingCrates_lawfulHost hlist
  refine ⟨bl, hlist, hiff.mpr ((hliteral (fun _ => rfl) fun pattern hpattern => ?_).mpr ?_)⟩
  · obtain rfl : pattern = "127.0.0.1" := List.mem_singleton.mp hpattern
    exact literal_of_all (by decide)
  · intro name hname _ name' hlower
    obtain rfl : name = "127.0.0.1" := List.mem_singleton.mp hname
    rw [← eq_of_lower hlower (List.all_iff_forall_prop.mp (by decide))]
    exact hname

/-- **A blocked host in capitals.**  `evil.com` is blocked.  A request for `EVIL.COM` passes. -/
theorem capitals_pass : ∃ bl, BlockList.hostList blockingCrates ["evil.com"] [] = .ok bl ∧
    blockingCrates.http.LawfulText ∧ LawfulHost blockingCrates.http ∧
    SameButCase blockingCrates (getNamed "evil.com") (getNamed "EVIL.COM") ∧
    bl.isBlocked (getNamed "evil.com") = true ∧ bl.isBlocked (getNamed "EVIL.COM") = false := by
  obtain ⟨bl, hlist⟩ : ∃ bl, BlockList.hostList blockingCrates ["evil.com"] [] = .ok bl :=
    ⟨_, rfl⟩
  have hliteral : ∀ pattern ∈ ["evil.com"] ++ [], Literal pattern.toList := by
    intro pattern hpattern
    obtain rfl : pattern = "evil.com" := List.mem_singleton.mp hpattern
    exact literal_of_all (by decide)
  have hblocked : ∀ name, extractHost blockingCrates (getNamed name) = some name →
      (bl.isBlocked (getNamed name) = true ↔ name = "evil.com") := by
    intro name hname
    have hmem := matchesAny_literals (C := blockingCrates) (fun _ => rfl) hliteral name
    rw [BlockList.isBlocked_hostList hlist, hname]
    simpa using hmem
  refine ⟨bl, hlist, blockingCrates_lawfulText, blockingCrates_lawfulHost,
    sameButCase_getHost _ (by decide), (hblocked _ (by decide)).mpr rfl, ?_⟩
  rw [Bool.eq_false_iff, Ne, hblocked _ (by decide)]
  decide

end Proxy
end Noxy
