/-
# Decoding response bodies

`src/middleware/content_decoder.rs`: `ContentDecoderService::call`, `is_supported` and
`decode_body`.

The `Content-Encoding` lines of a response list its codings in the order in which they were
applied.  The service looks at the first line only, and takes it for a single coding.  If that is
one that it supports, it removes all the lines and decodes the body once; and it decodes `deflate`
as a raw stream, while the coding is the zlib format.

What a response means is `meaningOf`: its body with all codings undone.  It is kept, for every
body and for any formats, exactly if the first line is not a supported coding, or it is the only
coding of the response and not `deflate` (`decoding_preserves_iff`).

The formats and the decoders of the `async-compression` crate are parameters: a decoder inverts
its format (`AsyncCompression.Inverts`).
-/

import Noxy.Http.Body
import Noxy.Http.Forward
import Noxy.Http.HopByHop

namespace Noxy
namespace ContentDecoder

open Http

/-! ### Codings -/

/-- A format: what a body in it stands for, and nothing if it is not in the format. -/
abbrev Format := List UInt8 → Option (List UInt8)

/-- The formats of the codings. -/
structure Formats where
  gzip : Format
  br : Format
  zstd : Format
  zlib : Format
  rawDeflate : Format
  other : String → Format

/-- The format of a coding, by its name in lower case.  The coding `deflate` is the zlib
format. -/
def Formats.undo (F : Formats) (coding : String) : Format :=
  if coding = "gzip" ∨ coding = "x-gzip" then F.gzip
  else if coding = "br" then F.br
  else if coding = "zstd" then F.zstd
  else if coding = "deflate" then F.zlib
  else F.other coding

/-- The body after undoing the codings, the last one first. -/
def meaning (F : Formats) : List String → List UInt8 → Option (List UInt8)
  | [], body => some body
  | coding :: codings, body => (meaning F codings body).bind (F.undo coding)

/-- The codings that a line lists. -/
def lineCodings (value : List UInt8) : List String :=
  ((splitComma (byteText value)).map fun token => toAsciiLowercase (trimBlanks token)).filter
    fun coding => coding != ""

/-- The codings of a response, in the order of its lines. -/
def codings (headers : HeaderMap) : List String :=
  (HeaderMap.getAll headers "content-encoding").flatMap lineCodings

/-- **What a response means.**  A body that fails means nothing. -/
def meaningOf (F : Formats) (resp : Response) : Option (List UInt8) :=
  match resp.body.ending with
  | .eof => meaning F (codings resp.headers) resp.body.data
  | .error _ => none

/-! ### Decoding -/

/-- A decoder: what it makes of the data frames of a body and of how they end. -/
abbrev Decoder := List (List UInt8) → Ending → Body

/-- The decoders of `async_compression`. -/
structure AsyncCompression where
  gzip : Decoder
  brotli : Decoder
  zstd : Decoder
  deflate : Decoder

/-- A body in the format is decoded to what it stands for, however it is cut into frames. -/
def Decoder.Inverts (d : Decoder) (format : Format) : Prop :=
  ∀ chunks bytes, format chunks.flatten = some bytes →
    (d chunks .eof).data = bytes ∧ (d chunks .eof).ending = .eof

/-- Every decoder inverts its own format, and `DeflateDecoder` the raw one. -/
structure AsyncCompression.Inverts (A : AsyncCompression) (F : Formats) : Prop where
  gzip : Decoder.Inverts A.gzip F.gzip
  brotli : Decoder.Inverts A.brotli F.br
  zstd : Decoder.Inverts A.zstd F.zstd
  deflate : Decoder.Inverts A.deflate F.rawDeflate

/-- `is_supported`. -/
def isSupported (encoding : String) : Bool :=
  encoding == "gzip" || encoding == "x-gzip" || encoding == "br" || encoding == "zstd" ||
    encoding == "deflate"

/-- `frame.into_data().ok()`. -/
def intoData : Frame → Option (List UInt8)
  | .data bytes => some bytes
  | .trailers _ => none

section Service

variable (H : HttpCrate) (A : AsyncCompression)

/-- `decode_body`; there is nothing if the `unreachable!` is reached. -/
def decodeBody (body : Body) (encoding : String) : Option Body :=
  let chunks := body.frames.filterMap intoData
  if encoding = "gzip" ∨ encoding = "x-gzip" then some (A.gzip chunks body.ending)
  else if encoding = "br" then some (A.brotli chunks body.ending)
  else if encoding = "zstd" then some (A.zstd chunks body.ending)
  else if encoding = "deflate" then some (A.deflate chunks body.ending)
  else none

/-- The encoding that `call` reads. -/
def encodingOf (headers : HeaderMap) : Option String :=
  ((HeaderMap.get headers "content-encoding").bind H.toStr).map toAsciiLowercase

/-- The response that `call` makes of that of the inner service. -/
def decodeResponse (resp : Response) : Option Response :=
  match encodingOf H resp.headers with
  | some enc =>
      if isSupported enc then
        (decodeBody A resp.body enc).map fun decoded =>
          { resp with
            headers :=
              HeaderMap.remove (HeaderMap.remove resp.headers "content-encoding") "content-length"
            body := decoded }
      else some resp
  | none => some resp

/-- `ContentDecoderService::call`. -/
def call (inner : HttpService H) (req : Request H) (world : World H) :
    Option (Except String Response × World H) :=
  match inner req world with
  | (.ok resp, world) => (decodeResponse H A resp).map fun resp => (.ok resp, world)
  | (.error err, world) => some (.error err, world)

end Service

/-! ### Lines -/

/-- Nothing is listed any more. -/
theorem codings_removed (headers : HeaderMap) :
    codings (HeaderMap.remove (HeaderMap.remove headers "content-encoding") "content-length") =
      [] := by
  rw [codings, HeaderMap.getAll_remove_of_ne _ (by decide), HeaderMap.getAll_remove_self]
  rfl

theorem isSupported_iff {encoding : String} :
    isSupported encoding = true ↔ encoding = "gzip" ∨ encoding = "x-gzip" ∨ encoding = "br" ∨
      encoding = "zstd" ∨ encoding = "deflate" := by
  simp [isSupported, or_assoc]

theorem trimBlanks_eq_self {text : String} (h : ∀ c ∈ text.toList, isBlank c = false) :
    trimBlanks text = text := by
  have hdrop : ∀ cs : List Char, (∀ c ∈ cs, isBlank c = false) → cs.dropWhile isBlank = cs := by
    intro cs hcs
    cases cs with
    | nil => rfl
    | cons c cs =>
        refine List.dropWhile_cons_of_neg ?_
        rw [hcs c List.mem_cons_self]
        exact Bool.false_ne_true
  rw [trimBlanks, hdrop _ h, hdrop _ fun c hc => h c (List.mem_reverse.mp hc),
    List.reverse_reverse, String.ofList_toList]

/-- A line that is a supported coding but for case lists it alone. -/
theorem lineCodings_of_lower {v : List UInt8} {coding : String}
    (h : toAsciiLowercase (byteText v) = coding) (hsupported : isSupported coding = true) :
    lineCodings v = [coding] := by
  have hclean : (coding.toList.all fun c => c != ',' && !isBlank c) = true ∧ coding ≠ "" := by
    rcases isSupported_iff.mp hsupported with rfl | rfl | rfl | rfl | rfl <;> decide
  have hlower : ∀ c ∈ (byteText v).toList, c.toLower ≠ ',' ∧ isBlank c.toLower = false := by
    intro c hc
    have hmem : c.toLower ∈ coding.toList := by
      rw [← h, toAsciiLowercase, String.toList_ofList]
      exact List.mem_map_of_mem hc
    simpa using List.all_eq_true.mp hclean.1 _ hmem
  have hcomma : ',' ∉ (byteText v).toList := fun hc => (hlower _ hc).1 rfl
  have hblank : ∀ c ∈ (byteText v).toList, isBlank c = false := by
    intro c hc
    have hne := (hlower c hc).2
    rw [← Bool.not_eq_true] at hne ⊢
    intro hblank
    rcases Bool.or_eq_true_iff.mp hblank with hb | hb <;> rw [beq_iff_eq.mp hb] at hne <;>
      exact hne rfl
  rw [lineCodings, splitComma, List.splitOn_eq_singleton hcomma, List.map_singleton,
    List.map_singleton, String.ofList_toList, trimBlanks_eq_self hblank, h]
  exact List.filter_cons_of_pos (bne_iff_ne.mpr hclean.2)

/-- **The encoding that is read is the first coding.** -/
theorem codings_of_supported {H : HttpCrate} (hH : H.LawfulText) {headers : HeaderMap}
    {enc : String} (h : encodingOf H headers = some enc) (hsupported : isSupported enc = true) :
    ∃ rest, codings headers = enc :: rest := by
  obtain ⟨text, htext, hlower⟩ := Option.map_eq_some_iff.mp h
  obtain ⟨v, hv, hstr⟩ := Option.bind_eq_some_iff.mp htext
  rw [HeaderMap.get_eq_head?] at hv
  obtain ⟨lines, hlines⟩ := List.head?_eq_some_iff.mp hv
  have htext : byteText v = text := by
    rw [hH.toStr] at hstr
    split at hstr
    · exact Option.some.inj hstr
    · cases hstr
  refine ⟨lines.flatMap lineCodings, ?_⟩
  rw [codings, hlines, List.flatMap_cons, lineCodings_of_lower (htext ▸ hlower) hsupported]
  rfl

/-! ### Bodies -/

theorem flatten_intoData (body : Body) :
    (body.frames.filterMap intoData).flatten = body.data := by
  unfold Body.data
  induction body.frames with
  | nil => rfl
  | cons frame frames ih =>
      rw [List.flatMap_cons, ← ih]
      cases frame <;> rfl

/-- The decoder of a coding that is supported, but for `deflate`, inverts its format. -/
theorem decodeBody_inverts {A : AsyncCompression} {F : Formats} (hA : A.Inverts F) {body : Body}
    (hend : body.ending = .eof) {enc : String} (hsupported : isSupported enc = true)
    (hdeflate : enc ≠ "deflate") {bytes : List UInt8} (h : F.undo enc body.data = some bytes) :
    ∃ decoded, decodeBody A body enc = some decoded ∧ decoded.data = bytes ∧
      decoded.ending = .eof := by
  rw [← flatten_intoData] at h
  unfold decodeBody
  rw [hend]
  rcases isSupported_iff.mp hsupported with rfl | rfl | rfl | rfl | rfl
  · exact ⟨_, rfl, hA.gzip _ _ h⟩
  · exact ⟨_, rfl, hA.gzip _ _ h⟩
  · exact ⟨_, rfl, hA.brotli _ _ h⟩
  · exact ⟨_, rfl, hA.zstd _ _ h⟩
  · exact absurd rfl hdeflate

/-! ### Formats that tell the codings apart -/

/-- A decoder of a format. -/
def decoderOf (format : Format) : Decoder := fun chunks ending =>
  match ending, format chunks.flatten with
  | .eof, some bytes => ⟨[.data bytes], .eof, none⟩
  | .eof, none => ⟨[], .error "invalid data", none⟩
  | .error err, _ => ⟨[], .error err, none⟩

theorem decoderOf_inverts (format : Format) : Decoder.Inverts (decoderOf format) format := by
  intro chunks bytes h
  unfold decoderOf
  rw [h]
  exact ⟨List.append_nil _, rfl⟩

/-- The decoders of the formats. -/
def decoders (F : Formats) : AsyncCompression :=
  ⟨decoderOf F.gzip, decoderOf F.br, decoderOf F.zstd, decoderOf F.rawDeflate⟩

theorem decoders_inverts (F : Formats) : (decoders F).Inverts F :=
  ⟨decoderOf_inverts _, decoderOf_inverts _, decoderOf_inverts _, decoderOf_inverts _⟩

/-- Formats that put one byte in front; a raw stream is not changed. -/
def oneByte : Formats :=
  ⟨fun b => some b.tail, fun b => some b.tail, fun b => some b.tail, fun b => some b.tail, some,
    fun _ b => some b.tail⟩

theorem undo_oneByte (coding : String) (body : List UInt8) :
    oneByte.undo coding body = some body.tail := by
  unfold Formats.undo
  split
  · rfl
  · split
    · rfl
    · split
      · rfl
      · split <;> rfl

theorem meaning_oneByte (codings : List String) (body : List UInt8) :
    meaning oneByte codings body = some (body.drop codings.length) := by
  induction codings with
  | nil => rfl
  | cons coding codings ih =>
      rw [meaning, ih, Option.bind_some, undo_oneByte, List.tail_drop, List.length_cons]

/-- A response with one data frame. -/
def oneFrame (headers : HeaderMap) (bytes : List UInt8) : Response :=
  ⟨200, headers, ⟨[.data bytes], .eof, none⟩⟩

theorem data_oneFrame (headers : HeaderMap) (bytes : List UInt8) :
    (oneFrame headers bytes).body.data = bytes := List.append_nil bytes

theorem meaningOf_oneFrame (F : Formats) (headers : HeaderMap) (bytes : List UInt8) :
    meaningOf F (oneFrame headers bytes) = meaning F (codings headers) bytes := by
  change meaning F (codings headers) (oneFrame headers bytes).body.data = _
  rw [data_oneFrame]

theorem decodeBody_oneByte {headers : HeaderMap} {bytes : List UInt8} {enc : String}
    (h : isSupported enc = true) :
    decodeBody (decoders oneByte) (oneFrame headers bytes).body enc =
      some ⟨[.data (if enc = "deflate" then bytes else bytes.tail)], .eof, none⟩ := by
  rcases isSupported_iff.mp h with rfl | rfl | rfl | rfl | rfl <;>
    simp [decodeBody, decoders, decoderOf, oneByte, oneFrame, intoData]

/-! ### Responses -/

/-- A response is kept: what it means, and no length stands beside another body. -/
structure Preserved (F : Formats) (resp resp' : Response) : Prop where
  meaning : ∀ bytes, meaningOf F resp = some bytes → meaningOf F resp' = some bytes
  length : resp'.body ≠ resp.body → HeaderMap.getAll resp'.headers "content-length" = []

section Responses

variable {H : HttpCrate} {A : AsyncCompression} {F : Formats} {resp : Response}

theorem decodeResponse_of_unsupported
    (h : ∀ enc, encodingOf H resp.headers = some enc → isSupported enc = false) :
    decodeResponse H A resp = some resp := by
  unfold decodeResponse
  split
  · rename_i enc henc
    rw [h enc henc]
    rfl
  · rfl

theorem decodeResponse_of_supported {enc : String} {decoded : Body}
    (h : encodingOf H resp.headers = some enc) (hsupported : isSupported enc = true)
    (hdecoded : decodeBody A resp.body enc = some decoded) :
    decodeResponse H A resp = some { resp with
      headers := HeaderMap.remove (HeaderMap.remove resp.headers "content-encoding")
        "content-length"
      body := decoded } := by
  unfold decodeResponse
  rw [h]
  dsimp only
  rw [if_pos hsupported, hdecoded]
  rfl

/-- What a response means that lists no codings. -/
theorem meaningOf_of_nil (h : codings resp.headers = []) (hend : resp.body.ending = .eof) :
    meaningOf F resp = some resp.body.data := by
  rw [meaningOf, hend, h]
  rfl

theorem ending_of_meaningOf {bytes : List UInt8} (h : meaningOf F resp = some bytes) :
    resp.body.ending = .eof ∧ meaning F (codings resp.headers) resp.body.data = some bytes := by
  unfold meaningOf at h
  split at h
  · rename_i hend
    exact ⟨hend, h⟩
  · cases h

/-- **A single coding is undone.** -/
theorem preserved_of_single (hA : A.Inverts F) {enc : String}
    (h : encodingOf H resp.headers = some enc) (hsupported : isSupported enc = true)
    (hsingle : codings resp.headers = [enc]) (hdeflate : enc ≠ "deflate") {bytes : List UInt8}
    (hbytes : meaningOf F resp = some bytes) :
    ∃ resp', decodeResponse H A resp = some resp' ∧ Preserved F resp resp' := by
  obtain ⟨hend, hmeaning⟩ := ending_of_meaningOf hbytes
  rw [hsingle] at hmeaning
  obtain ⟨decoded, hdecoded, rfl, hdend⟩ :=
    decodeBody_inverts hA hend hsupported hdeflate hmeaning
  refine ⟨_, decodeResponse_of_supported h hsupported hdecoded, fun other hother => ?_, ?_⟩
  · obtain rfl : decoded.data = other := Option.some.inj (hbytes.symm.trans hother)
    exact meaningOf_of_nil (codings_removed _) hdend
  · exact fun _ => HeaderMap.getAll_remove_self _ _

/-- **More than one coding, or `deflate`, is not undone** with a byte for every coding. -/
theorem single_of_preserved {headers : HeaderMap} {enc : String} {rest : List String}
    (h : encodingOf H headers = some enc) (hsupported : isSupported enc = true)
    (hrest : codings headers = enc :: rest) {bytes : List UInt8}
    (hlength : bytes.length = rest.length + 1) {resp' : Response}
    (hdecoded : decodeResponse H (decoders oneByte) (oneFrame headers bytes) = some resp')
    (hkept : Preserved oneByte (oneFrame headers bytes) resp') :
    codings headers = [enc] ∧ enc ≠ "deflate" := by
  have hmeaning : meaningOf oneByte (oneFrame headers bytes) = some [] := by
    rw [meaningOf_oneFrame, meaning_oneByte, hrest, List.length_cons,
      List.drop_eq_nil_of_le (Nat.le_of_eq hlength)]
  have hnew : decodeResponse H (decoders oneByte) (oneFrame headers bytes) = some _ :=
    decodeResponse_of_supported h hsupported (decodeBody_oneByte hsupported)
  obtain rfl := Option.some.inj (hdecoded.symm.trans hnew)
  have hdata : (if enc = "deflate" then bytes else bytes.tail) = [] := by
    have hempty := (meaningOf_of_nil (codings_removed _) rfl).symm.trans (hkept.meaning [] hmeaning)
    exact (List.append_nil _).symm.trans (Option.some.inj hempty)
  split at hdata
  · rw [hdata] at hlength
    cases hlength
  · rename_i hdeflate
    have htail := congrArg List.length hdata
    rw [List.length_tail, hlength] at htail
    rw [hrest, List.length_eq_zero_iff.mp htail]
    exact ⟨rfl, hdeflate⟩

/-- **When decoding keeps what a response means**, whatever the formats and the body: exactly if
the first `Content-Encoding` line is not a supported coding, or it is the only coding of the
response and not `deflate`. -/
theorem decoding_preserves_iff (hH : H.LawfulText) (headers : HeaderMap) (req : Request H)
    (world : World H) :
    (∀ (F : Formats) (A : AsyncCompression), A.Inverts F →
        ∀ (inner : HttpService H) (resp : Response) (world' : World H),
          inner req world = (.ok resp, world') → resp.headers = headers →
          (meaningOf F resp).isSome = true →
          ∃ resp', call H A inner req world = some (.ok resp', world') ∧
            Preserved F resp resp') ↔
      ∀ enc, encodingOf H headers = some enc → isSupported enc = true →
        codings headers = [enc] ∧ enc ≠ "deflate" := by
  constructor
  · intro h enc henc hsupported
    obtain ⟨rest, hrest⟩ := codings_of_supported hH henc hsupported
    obtain ⟨bytes, hlength⟩ : ∃ bytes : List UInt8, bytes.length = rest.length + 1 :=
      ⟨List.replicate _ 0, List.length_replicate ..⟩
    have hsome : (meaningOf oneByte (oneFrame headers bytes)).isSome = true := by
      rw [meaningOf_oneFrame, meaning_oneByte]
      rfl
    obtain ⟨resp', hcall, hkept⟩ := h oneByte (decoders oneByte) (decoders_inverts oneByte)
      (fun _ world => (.ok (oneFrame headers bytes), world)) _ world rfl rfl hsome
    obtain ⟨resp'', hdecoded, heq⟩ := Option.map_eq_some_iff.mp hcall
    obtain rfl : resp'' = resp' := Except.ok.inj (congrArg Prod.fst heq)
    exact single_of_preserved henc hsupported hrest hlength hdecoded hkept
  · intro h F A hA inner resp world' hinner hheaders hsome
    obtain ⟨bytes, hbytes⟩ := Option.isSome_iff_exists.mp hsome
    have hdone : ∃ resp', decodeResponse H A resp = some resp' ∧ Preserved F resp resp' := by
      by_cases hsup : ∀ enc, encodingOf H resp.headers = some enc → isSupported enc = false
      · exact ⟨resp, decodeResponse_of_unsupported hsup, fun _ h => h, fun hne => absurd rfl hne⟩
      · simp only [not_forall, Bool.not_eq_false] at hsup
        obtain ⟨enc, henc, hsupported⟩ := hsup
        obtain ⟨hsingle, hdeflate⟩ := h enc (hheaders ▸ henc) hsupported
        exact preserved_of_single hA henc hsupported (hheaders ▸ hsingle) hdeflate hbytes
    obtain ⟨resp', hdecoded, hkept⟩ := hdone
    refine ⟨resp', ?_, hkept⟩
    rw [call, hinner]
    dsimp only
    rw [hdecoded]
    rfl

end Responses

end ContentDecoder
end Noxy
