/-
# Proxy authentication

`src/lib.rs`: the `CONNECT` handler of `Proxy::handshake`, which checks the
`Proxy-Authorization` line against the configured credentials, and `credentials_match`.

The check is a chain of partial steps: the line is a text, starts with `Basic `, goes on in
base64, decodes to UTF-8, and has a colon.  What is before the first colon is the user name
and what is after it the password, and the two are compared with every pair.  Base64 is a
parameter, `Base64Crate`, of which `Base64Crate.Lawful` is assumed; `Base64Crate.standard` is
the one of `Noxy.Lib.Base64`.

A client that sends a configured pair joined by a colon is let in if the user name has no
colon (`authenticated_iff`).  With one it is taken apart at the wrong place, and the pair can
not be used (`colon_in_username_refused`).  So the check lets in exactly those who send a
configured pair exactly if each pair, joined and taken apart again, is configured
(`connect_authenticated_iff`).
-/

import Noxy.Http.Text
import Noxy.Lib.Base64

namespace Noxy
namespace Proxy

open Http

/-- The `base64` crate, its `STANDARD` engine. -/
structure Base64Crate where
  encode : List UInt8 → String
  decode : String → Option (List UInt8)

/-- What is assumed of the engine. -/
structure Base64Crate.Lawful (B : Base64Crate) : Prop where
  decode_encode : ∀ bytes, B.decode (B.encode bytes) = some bytes
  /-- Only canonical encodings are accepted. -/
  canonical : ∀ text bytes, B.decode text = some bytes → text = B.encode bytes
  /-- An encoding is a text that a header value may be. -/
  visible : ∀ bytes, (utf8 (B.encode bytes)).all isVisibleAscii = true

/-- `credentials_match`: every pair is compared, whatever the ones before it gave. -/
def credentialsMatch (credentials : List (String × String)) (user pass : String) : Bool :=
  credentials.foldl (fun matched expected =>
    matched || (utf8 expected.1 == utf8 user && utf8 expected.2 == utf8 pass)) false

section Handler

variable (H : HttpCrate) (B : Base64Crate)

/-- `authenticated` of the `CONNECT` handler. -/
def authenticated (credentials : List (String × String)) (headers : HeaderMap) : Bool :=
  ((HeaderMap.get headers "proxy-authorization").bind fun value =>
    (H.toStr value).bind fun auth =>
      (stripStart "Basic " auth).bind fun b64 =>
        (B.decode b64).bind fun bytes =>
          (fromUtf8 bytes).bind fun decoded =>
            (splitOnce ':' decoded).map fun pair =>
              credentialsMatch credentials pair.1 pair.2).getD false

/-- The `credentials` of `ProxyMode::Forward`, as `ProxyBuilder::build` sets them. -/
def modeCredentials (credentials : List (String × String)) : Option (List (String × String)) :=
  if credentials = [] then none else some credentials

/-- The `CONNECT` handler: the authority to connect to, or the error of the connection, and
what the client is answered.  `text` is `Authority::to_string`. -/
def connect {H : HttpCrate} (B : Base64Crate) (text : H.Authority → String)
    (credentials : Option (List (String × String))) (req : Request H) :
    Except String String × Response :=
  if req.method ≠ "CONNECT" then
    (.error s!"expected CONNECT, got {req.method}", ⟨400, [], emptyBody⟩)
  else
    match H.authority req.uri with
    | none => (.error "missing authority in CONNECT URI", ⟨400, [], emptyBody⟩)
    | some authority =>
        if credentials.all fun creds => authenticated H B creds req.headers then
          (.ok (text authority), ⟨200, [], emptyBody⟩)
        else
          (.error "proxy authentication failed",
            ⟨407, [("proxy-authenticate", utf8 "Basic realm=\"noxy\"")], emptyBody⟩)

/-- The line that sends a pair. -/
def basic (pair : String × String) : List UInt8 :=
  utf8 ("Basic " ++ B.encode (utf8 (pair.1 ++ ":" ++ pair.2)))

end Handler

/-! ### The partial steps -/

/-- `split_once` takes a text apart at the first separator. -/
theorem splitOnce_eq_some_iff {text user pass : String} :
    splitOnce ':' text = some (user, pass) ↔
      ':' ∉ user.toList ∧ text = user ++ ":" ++ pass := by
  unfold splitOnce
  constructor
  · intro h
    split at h
    · cases h
    · rename_i c after hdrop
      obtain ⟨rfl, rfl⟩ := Prod.mk.inj (Option.some.inj h)
      have hc : c = ':' := by
        have hhead := List.head?_dropWhile_not (· != ':') text.toList
        simpa [hdrop] using hhead
      constructor
      · intro hmem
        rw [String.toList_ofList] at hmem
        have hall := List.all_eq_true.mp (List.all_takeWhile (p := (· != ':')) (l := text.toList))
        exact absurd (hall _ hmem) (by simp)
      · rw [String.ext_iff, String.toList_append, String.toList_append, String.toList_ofList,
          String.toList_ofList, List.append_assoc]
        refine (List.takeWhile_append_dropWhile (p := (· != ':'))).symm.trans ?_
        rw [hdrop, hc, String.toList_ofList]
        rfl
  · rintro ⟨hcolon, rfl⟩
    have hall : ∀ c ∈ user.toList, (c != ':') = true := by
      intro c hc
      rw [bne_iff_ne]
      rintro rfl
      exact hcolon hc
    have htext : (user ++ ":" ++ pass).toList = user.toList ++ ':' :: pass.toList := by
      rw [String.toList_append, String.toList_append, List.append_assoc]
      rfl
    rw [htext, List.dropWhile_append_of_pos hall, List.takeWhile_append_of_pos hall]
    simp

theorem credentialsMatch_iff (credentials : List (String × String)) (user pass : String) :
    credentialsMatch credentials user pass = true ↔ (user, pass) ∈ credentials := by
  have hfold : ∀ matched, credentials.foldl (fun matched expected =>
      matched || (utf8 expected.1 == utf8 user && utf8 expected.2 == utf8 pass)) matched = true ↔
        matched = true ∨ (user, pass) ∈ credentials := by
    induction credentials with
    | nil => simp
    | cons expected credentials ih =>
        intro matched
        have hpair : (utf8 expected.1 = utf8 user ∧ utf8 expected.2 = utf8 pass) ↔
            (user, pass) = expected := by
          constructor
          · rintro ⟨huser, hpass⟩
            exact Prod.ext (utf8_injective huser).symm (utf8_injective hpass).symm
          · rintro rfl
            exact ⟨rfl, rfl⟩
        rw [List.foldl_cons, ih, List.mem_cons, Bool.or_eq_true, Bool.and_eq_true, beq_iff_eq,
          beq_iff_eq, hpair, or_assoc]
  unfold credentialsMatch
  rw [hfold]
  simp

/-! ### The chain -/

variable {H : HttpCrate} {B : Base64Crate}

/-- A value of visible bytes has the text of these bytes. -/
theorem utf8_byteText {v : List UInt8} (hv : v.all isVisibleAscii = true) :
    utf8 (byteText v) = v := by
  have hall : ∀ n : Fin 127, String.utf8EncodeChar (Char.ofNat n.val) = [UInt8.ofNat n.val] := by
    decide
  unfold utf8 byteText
  rw [String.toList_ofList]
  induction v with
  | nil => rfl
  | cons b v ih =>
      rw [List.all_cons, Bool.and_eq_true] at hv
      have hb : b.toNat < 127 := by
        have hvis := hv.1
        unfold isVisibleAscii at hvis
        simp only [Bool.or_eq_true, Bool.and_eq_true, decide_eq_true_eq, beq_iff_eq] at hvis
        omega
      rw [List.map_cons, List.flatMap_cons, ih hv.2, hall ⟨b.toNat, hb⟩, UInt8.ofNat_toNat]
      rfl

/-- The text of a value is the one with its bytes. -/
theorem utf8_of_toStr (hH : H.LawfulText) {v : List UInt8} {text : String}
    (h : H.toStr v = some text) :
    utf8 text = v := by
  rw [hH.toStr] at h
  split at h
  · rename_i hvis
    rw [← Option.some.inj h, utf8_byteText hvis]
  · cases h

/-- A line sends one text only. -/
theorem basic_injective (hB : B.Lawful) {pair pair' : String × String}
    (h : basic B pair = basic B pair') :
    pair.1 ++ ":" ++ pair.2 = pair'.1 ++ ":" ++ pair'.2 := by
  have htext := utf8_injective h
  rw [String.append_right_inj] at htext
  have hbytes := congrArg B.decode htext
  rw [hB.decode_encode, hB.decode_encode, Option.some.injEq] at hbytes
  exact utf8_injective hbytes

section Lawful

variable (hH : H.LawfulText) (hB : B.Lawful)
include hH hB

/-- The line that sends a pair is a text. -/
theorem toStr_basic (pair : String × String) :
    H.toStr (basic B pair) = some ("Basic " ++ B.encode (utf8 (pair.1 ++ ":" ++ pair.2))) := by
  have hvis : (basic B pair).all isVisibleAscii = true := by
    have hstart : (utf8 "Basic ").all isVisibleAscii = true := by decide
    rw [basic, utf8_append, List.all_append, hstart, hB.visible]
    rfl
  have htext : byteText (basic B pair) = "Basic " ++ B.encode (utf8 (pair.1 ++ ":" ++ pair.2)) :=
    utf8_injective (utf8_byteText hvis)
  rw [hH.toStr, if_pos hvis, htext]

/-- **Who is let in**: a client that sends a configured pair whose user name has no colon. -/
theorem authenticated_iff (credentials : List (String × String)) (headers : HeaderMap) :
    authenticated H B credentials headers = true ↔
      ∃ pair ∈ credentials, ':' ∉ pair.1.toList ∧
        HeaderMap.get headers "proxy-authorization" = some (basic B pair) := by
  unfold authenticated
  simp only [Option.getD_eq_iff, Bool.false_eq_true, and_false, or_false, Option.bind_eq_some_iff,
    Option.map_eq_some_iff, credentialsMatch_iff]
  constructor
  · rintro ⟨value, hget, auth, hauth, b64, hb64, bytes, hbytes, decoded, hdecoded, pair, hpair,
      hmem⟩
    obtain ⟨hcolon, rfl⟩ := splitOnce_eq_some_iff.mp hpair
    obtain rfl := fromUtf8_eq_some_iff.mp hdecoded
    obtain rfl := hB.canonical _ _ hbytes
    obtain rfl := stripStart_eq_some_iff.mp hb64
    obtain rfl := utf8_of_toStr hH hauth
    exact ⟨pair, hmem, hcolon, hget⟩
  · rintro ⟨pair, hmem, hcolon, hget⟩
    exact ⟨_, hget, _, toStr_basic hH hB pair, _, stripStart_eq_some_iff.mpr rfl, _,
      hB.decode_encode _, _, fromUtf8_eq_some_iff.mpr rfl, pair,
      splitOnce_eq_some_iff.mpr ⟨hcolon, rfl⟩, hmem⟩

/-- **Proxy authentication is sound and complete.**  Take a non-empty list of credentials and
the `CONNECT` requests for some authority.  The requests that get past the authentication
check are those whose `Proxy-Authorization` line sends a configured pair, exactly if for
every pair whose user name has a colon the pair that its text is taken apart into, at the
first colon, is configured as well. -/
theorem connect_authenticated_iff (text : H.Authority → String) {uri : H.Uri}
    {authority : H.Authority} (huri : H.authority uri = some authority)
    {credentials : List (String × String)} (hcreds : credentials ≠ []) :
    (∀ req : Request H, req.method = "CONNECT" → req.uri = uri →
        ((connect B text (modeCredentials credentials) req).1 = .ok (text authority) ↔
          ∃ pair ∈ credentials,
            HeaderMap.get req.headers "proxy-authorization" = some (basic B pair))) ↔
      ∀ pair ∈ credentials, ∃ pair' ∈ credentials,
        splitOnce ':' (pair.1 ++ ":" ++ pair.2) = some pair' := by
  have hconnect : ∀ req : Request H, req.method = "CONNECT" → req.uri = uri →
      ((connect B text (modeCredentials credentials) req).1 = .ok (text authority) ↔
        ∃ pair ∈ credentials, ':' ∉ pair.1.toList ∧
          HeaderMap.get req.headers "proxy-authorization" = some (basic B pair)) := by
    rintro req hmethod rfl
    rw [← authenticated_iff hH hB, connect, modeCredentials, if_neg hcreds, if_neg (by simpa), huri]
    dsimp only [Option.all_some]
    split
    · rename_i hauth
      exact iff_of_true rfl hauth
    · rename_i hauth
      exact iff_of_false (fun h => by cases h) hauth
  constructor
  · -- The request that sends the pair is let in by another pair, with the same text.
    intro h pair hpair
    let req : Request H := ⟨"CONNECT", uri, "HTTP/1.1",
      [("proxy-authorization", basic B pair)], none, [], emptyBody⟩
    have hget : HeaderMap.get req.headers "proxy-authorization" = some (basic B pair) := by
      simp [HeaderMap.get, req]
    have hin := (h req rfl rfl).mpr ⟨pair, hpair, hget⟩
    obtain ⟨pair', hpair', hcolon, hget'⟩ := (hconnect req rfl rfl).mp hin
    refine ⟨pair', hpair', splitOnce_eq_some_iff.mpr ⟨hcolon, ?_⟩⟩
    exact basic_injective hB (Option.some.inj (hget.symm.trans hget'))
  · intro h req hmethod hreq
    rw [hconnect req hmethod hreq]
    constructor
    · rintro ⟨pair, hpair, _, hget⟩
      exact ⟨pair, hpair, hget⟩
    · rintro ⟨pair, hpair, hget⟩
      obtain ⟨pair', hpair', hsplit⟩ := h pair hpair
      obtain ⟨hcolon, htext⟩ := splitOnce_eq_some_iff.mp hsplit
      refine ⟨pair', hpair', hcolon, ?_⟩
      rw [hget, basic, basic, htext]

end Lawful

/-- The `base64` crate as the library has it. -/
def Base64Crate.standard : Base64Crate := ⟨Lib.Base64.encode, Lib.Base64.decode⟩

theorem visible_encode (bytes : List UInt8) :
    (utf8 (Lib.Base64.encode bytes)).all isVisibleAscii = true := by
  have hall : ('=' :: Lib.Base64.alphabet).all
      (fun c => (String.utf8EncodeChar c).all isVisibleAscii) = true := by decide +kernel
  rw [List.all_eq_true]
  intro b hb
  obtain ⟨c, hc, hb⟩ := List.mem_flatMap.mp hb
  rw [Lib.Base64.encode, String.toList_ofList] at hc
  have hc' := List.all_eq_true.mp hall c (Lib.Base64.mem_encodeChars hc)
  exact List.all_eq_true.mp hc' b hb

theorem Base64Crate.standard_lawful : Base64Crate.standard.Lawful := by
  unfold standard
  refine ⟨?_, ?_, ?_⟩ <;> dsimp only
  · exact Lib.Base64.decode_encode
  · exact fun _ _ => Lib.Base64.eq_encode_of_decode
  · exact visible_encode

/-- The authority-form target `example.com:443`. -/
def exampleTarget : PlainUri :=
  (HttpCrate.plain.fromParts none (some "example.com:443") none).get rfl

/-- A `CONNECT` to `example.com:443` that sends a pair. -/
def connectAs (pair : String × String) : Request .ascii where
  method := "CONNECT"
  uri := exampleTarget
  version := "HTTP/1.1"
  headers := [("proxy-authorization", basic .standard pair)]
  upstreamTarget := none
  extensions := []
  body := emptyBody

theorem get_connectAs (pair : String × String) :
    HeaderMap.get (connectAs pair).headers "proxy-authorization" = some (basic .standard pair) := by
  simp [HeaderMap.get, connectAs]

/-- The hypotheses of `connect_authenticated_iff` are met by `alice` and `bob`, and then
`alice` is let in with the first password. -/
theorem connect_authenticated_alice :
    (connect .standard id (modeCredentials [("alice", "pw1"), ("bob", "pw2")])
      (connectAs ("alice", "pw1"))).1 = .ok "example.com:443" := by
  have huri : HttpCrate.ascii.authority (connectAs ("alice", "pw1")).uri =
      some "example.com:443" := rfl
  have hcreds : [("alice", "pw1"), ("bob", "pw2")] ≠ [] := by decide
  have hsplit : ∀ pair ∈ [("alice", "pw1"), ("bob", "pw2")],
      ∃ pair' ∈ [("alice", "pw1"), ("bob", "pw2")],
        splitOnce ':' (pair.1 ++ ":" ++ pair.2) = some pair' := by decide +kernel
  exact ((connect_authenticated_iff HttpCrate.ascii_lawfulText Base64Crate.standard_lawful id huri
    hcreds).mpr hsplit (connectAs ("alice", "pw1")) rfl rfl).mpr
      ⟨("alice", "pw1"), List.mem_cons_self, get_connectAs _⟩

/-- **A pair whose user name has a colon can not be used.**  With the single pair `a:b` and
`c`, the client that sends this pair, `Basic YTpiOmM=`, is answered 407. -/
theorem colon_in_username_refused :
    Base64Crate.standard.Lawful ∧ HttpCrate.ascii.LawfulText ∧
      basic .standard ("a:b", "c") = utf8 "Basic YTpiOmM=" ∧
      (connect .standard id (modeCredentials [("a:b", "c")]) (connectAs ("a:b", "c"))).1 =
        .error "proxy authentication failed" := by
  have hauth :
      ¬ authenticated .ascii .standard [("a:b", "c")] (connectAs ("a:b", "c")).headers := by
    rw [authenticated_iff HttpCrate.ascii_lawfulText Base64Crate.standard_lawful]
    rintro ⟨pair, hpair, hcolon, -⟩
    rw [List.mem_singleton.mp hpair] at hcolon
    exact hcolon (by decide)
  refine ⟨Base64Crate.standard_lawful, HttpCrate.ascii_lawfulText, by decide +kernel, ?_⟩
  have hmode : modeCredentials [("a:b", "c")] = some [("a:b", "c")] := rfl
  have huri : HttpCrate.ascii.authority (connectAs ("a:b", "c")).uri = some "example.com:443" := rfl
  unfold connect
  rw [hmode, if_neg (fun h => h rfl), huri]
  dsimp only [Option.all_some]
  rw [if_neg hauth]

end Proxy
end Noxy
