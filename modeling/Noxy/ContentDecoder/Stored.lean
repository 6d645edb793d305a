/-
# Responses with stored blocks

The formats of `gzip` and `deflate` for data in stored blocks (`stored`), and responses in them.
One gzip coding is undone (`decoding_preserves_gzip`).  Of two, the inner one is left, though the
response does not list it any more; and a zlib body is taken for a raw stream, which it is not
(`codings_left`).
-/

import Noxy.ContentDecoder.Service
import Noxy.Lib.Deflate

namespace Noxy
namespace ContentDecoder

open Http Lib

/-- The formats of stored blocks; other codings do not apply to any body. -/
def stored : Formats where
  gzip := Deflate.gunzip
  br _ := none
  zstd _ := none
  zlib := Deflate.unzlib
  rawDeflate := Deflate.inflate
  other _ _ := none

/-- A `Content-Encoding` line. -/
def encodingLine (coding : String) : String × List UInt8 := ("content-encoding", utf8 coding)

/-- `GET /`. -/
def getRoot : Request .ascii :=
  ⟨"GET", PlainUri.ofPath none "/", "HTTP/1.1", [], none, [], emptyBody⟩

def emptyWorld : World .ascii := ⟨[], fun _ => 0, 0⟩

/-- A service that returns a response. -/
def returning (resp : Response) : HttpService .ascii := fun _ world => (.ok resp, world)

variable {data : List UInt8}

/-- One coding is undone by its format. -/
theorem meaning_singleton (F : Formats) (coding : String) (body : List UInt8) :
    meaning F [coding] body = F.undo coding body := rfl

theorem undo_gzip : stored.undo "gzip" = Deflate.gunzip := rfl

theorem undo_deflate : stored.undo "deflate" = Deflate.unzlib := rfl

/-- What responses in gzip mean. -/
theorem meaningOf_gzip (h : data.length < 65536) :
    meaningOf stored (oneFrame [encodingLine "gzip"] (Deflate.gzip data)) = some data := by
  have hcodings : codings [encodingLine "gzip"] = ["gzip"] := by decide +kernel
  rw [meaningOf_oneFrame, hcodings, meaning_singleton, undo_gzip, Deflate.gunzip_gzip h]

theorem meaningOf_gzip_gzip (h : data.length + 23 < 65536) :
    meaningOf stored (oneFrame [encodingLine "gzip", encodingLine "gzip"]
      (Deflate.gzip (Deflate.gzip data))) = some data := by
  have hcodings : codings [encodingLine "gzip", encodingLine "gzip"] = ["gzip", "gzip"] := by
    decide +kernel
  have houter : Deflate.gunzip (Deflate.gzip (Deflate.gzip data)) = some (Deflate.gzip data) :=
    Deflate.gunzip_gzip (by rw [Deflate.length_gzip]; exact h)
  rw [meaningOf_oneFrame, hcodings, meaning, meaning_singleton, undo_gzip, houter,
    Option.bind_some, Deflate.gunzip_gzip (by omega)]

theorem meaningOf_deflate (h : data.length < 65536) :
    meaningOf stored (oneFrame [encodingLine "deflate"] (Deflate.zlib data)) = some data := by
  have hcodings : codings [encodingLine "deflate"] = ["deflate"] := by decide +kernel
  rw [meaningOf_oneFrame, hcodings, meaning_singleton, undo_deflate, Deflate.unzlib_zlib h]

/-- A gzip body is decoded to the text that it stands for. -/
theorem decoding_preserves_gzip : ∃ resp',
    call .ascii (decoders stored)
        (returning (oneFrame [encodingLine "gzip"] (Deflate.gzip (utf8 "hi")))) getRoot emptyWorld =
      some (.ok resp', emptyWorld) ∧
    meaningOf stored resp' = some (utf8 "hi") := by
  have hheaders : ∀ enc, encodingOf .ascii [encodingLine "gzip"] = some enc →
      isSupported enc = true → codings [encodingLine "gzip"] = [enc] ∧ enc ≠ "deflate" := by
    intro enc henc _
    have hgzip : encodingOf .ascii [encodingLine "gzip"] = some "gzip" := by decide +kernel
    obtain rfl := Option.some.inj (hgzip.symm.trans henc)
    decide +kernel
  have hmeaning : meaningOf stored (oneFrame _ (Deflate.gzip (utf8 "hi"))) = _ :=
    meaningOf_gzip (by decide)
  obtain ⟨resp', hcall, hkept⟩ := (decoding_preserves_iff HttpCrate.ascii_lawfulText
    [encodingLine "gzip"] getRoot emptyWorld).mpr hheaders stored (decoders stored)
    (decoders_inverts stored) (returning _) _ emptyWorld rfl rfl (by rw [hmeaning]; rfl)
  exact ⟨resp', hcall, hkept.meaning _ hmeaning⟩

/-- The response that is returned lists no codings, and has the decoded body. -/
theorem call_decodes {headers : HeaderMap} {bytes : List UInt8} {enc : String} {decoded : Body}
    (h : encodingOf .ascii headers = some enc) (hsupported : isSupported enc = true)
    (hdecoded : decodeBody (decoders stored) (oneFrame headers bytes).body enc = some decoded) :
    ∃ resp', call .ascii (decoders stored) (returning (oneFrame headers bytes)) getRoot
        emptyWorld = some (.ok resp', emptyWorld) ∧
      codings resp'.headers = [] ∧ resp'.body = decoded := by
  have hnew : decodeResponse .ascii (decoders stored) (oneFrame headers bytes) = some _ :=
    decodeResponse_of_supported h hsupported hdecoded
  exact ⟨_, congrArg (Option.map _) hnew, codings_removed _, rfl⟩

theorem decodeBody_gzip {headers : HeaderMap} {bytes : List UInt8}
    (h : Deflate.gunzip bytes = some data) :
    decodeBody (decoders stored) (oneFrame headers bytes).body "gzip" =
      some ⟨[.data data], .eof, none⟩ := by
  simp [decodeBody, decoders, decoderOf, stored, oneFrame, intoData, h]

theorem decodeBody_deflate {headers : HeaderMap} {bytes : List UInt8}
    (h : Deflate.inflate bytes = none) :
    decodeBody (decoders stored) (oneFrame headers bytes).body "deflate" =
      some ⟨[], .error "invalid data", none⟩ := by
  simp [decodeBody, decoders, decoderOf, stored, oneFrame, intoData, h]

/-- **Codings that are left.**  Of `gzip` and `gzip` one is undone, and the other one is not
listed any more.  A body in the zlib format is no raw stream. -/
theorem codings_left :
    (decoders stored).Inverts stored ∧
    (meaningOf stored (oneFrame [encodingLine "gzip", encodingLine "gzip"]
        (Deflate.gzip (Deflate.gzip (utf8 "hi")))) = some (utf8 "hi") ∧
      ∃ resp', call .ascii (decoders stored)
          (returning (oneFrame [encodingLine "gzip", encodingLine "gzip"]
            (Deflate.gzip (Deflate.gzip (utf8 "hi"))))) getRoot emptyWorld =
          some (.ok resp', emptyWorld) ∧
        meaningOf stored resp' = some (Deflate.gzip (utf8 "hi"))) ∧
    (meaningOf stored (oneFrame [encodingLine "deflate"] (Deflate.zlib (utf8 "hi"))) =
        some (utf8 "hi") ∧
      ∃ resp', call .ascii (decoders stored)
          (returning (oneFrame [encodingLine "deflate"] (Deflate.zlib (utf8 "hi")))) getRoot
            emptyWorld = some (.ok resp', emptyWorld) ∧
        meaningOf stored resp' = none) := by
  refine ⟨decoders_inverts stored, ⟨meaningOf_gzip_gzip (by decide), ?_⟩,
    meaningOf_deflate (by decide), ?_⟩
  · have hgzip : Deflate.gunzip (Deflate.gzip (Deflate.gzip (utf8 "hi"))) =
        some (Deflate.gzip (utf8 "hi")) :=
      Deflate.gunzip_gzip (by rw [Deflate.length_gzip]; decide)
    have henc : encodingOf .ascii [encodingLine "gzip", encodingLine "gzip"] = some "gzip" := by
      decide +kernel
    obtain ⟨resp', hcall, hnil, hbody⟩ := call_decodes henc rfl (decodeBody_gzip hgzip)
    refine ⟨resp', hcall, (meaningOf_of_nil hnil (by rw [hbody])).trans ?_⟩
    rw [hbody]
    exact congrArg some (List.append_nil _)
  · have hraw : Deflate.inflate (Deflate.zlib (utf8 "hi")) = none := by decide +kernel
    have henc : encodingOf .ascii [encodingLine "deflate"] = some "deflate" := by decide +kernel
    obtain ⟨resp', hcall, -, hbody⟩ := call_decodes henc rfl (decodeBody_deflate hraw)
    refine ⟨resp', hcall, ?_⟩
    rw [meaningOf, hbody]

end ContentDecoder
end Noxy
