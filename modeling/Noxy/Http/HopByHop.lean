/-
# Hop-by-hop headers

`src/http.rs`: `strip_hop_by_hop`.  It collects the names that the `Connection` lines
list, and removes their headers and the standard ones.

What it should leave is said by `Stripped`, of the bytes of the `Connection` values: no
header with a standard name or a name that one of them lists, and every other header as
it was.  The code reads a value through `HeaderValue::to_str`, which has no text for a
value with a byte above 126, though the crate admits such values.  A line with one such
byte is passed over as a whole, and the names it lists are not collected
(`listed_in_opaque_line_survives`).  So the result is `Stripped` exactly if every header
that such a line lists is removed for another reason (`stripHopByHop_stripped_iff`).

`HttpCrate.LawfulText` is what is assumed of the crate's texts, and `HttpCrate.ascii` is a
crate that satisfies it.
-/

import Noxy.Http.Message

namespace Noxy
namespace Http

/-- `is_visible_ascii`, the bytes that `HeaderValue::to_str` accepts. -/
def isVisibleAscii (b : UInt8) : Bool := (32 ≤ b.toNat && b.toNat < 127) || b.toNat == 9

/-- The bytes as characters. -/
def byteText (v : List UInt8) : String := String.ofList (v.map fun b => Char.ofNat b.toNat)

/-- What is assumed of `HeaderValue::to_str` and `HeaderName::from_bytes`. -/
structure HttpCrate.LawfulText (H : HttpCrate) : Prop where
  /-- A value of visible bytes has a text, and no other value has. -/
  toStr : ∀ v, H.toStr v = if v.all isVisibleAscii then some (byteText v) else none
  /-- A name is put into lower case. -/
  headerName : ∀ text name, H.headerName text = .ok name → name = toAsciiLowercase text

/-- The characters around a token that are not of it. -/
def isBlank (c : Char) : Bool := c == ' ' || c == '\t'

/-- A token without the blanks around it. -/
def trimBlanks (text : String) : String :=
  String.ofList (((text.toList.dropWhile isBlank).reverse.dropWhile isBlank).reverse)

/-- The standard hop-by-hop names. -/
def hopByHopNames : List String :=
  ["connection", "keep-alive", "proxy-connection", "te", "trailer", "transfer-encoding", "upgrade",
    "proxy-authenticate", "proxy-authorization"]

section Strip

variable (H : HttpCrate)

/-- A `Connection` value lists a name: one of its comma-separated tokens is a valid header
name, and the name but for case.  The names of a header map are in lower case. -/
def Lists (v : List UInt8) (name : String) : Prop :=
  ∃ token ∈ splitComma (byteText v),
    (H.headerName (trimBlanks token)).isOk = true ∧ toAsciiLowercase (trimBlanks token) = name

instance (v : List UInt8) (name : String) : Decidable (Lists H v name) :=
  inferInstanceAs (Decidable (∃ token ∈ splitComma (byteText v), _))

/-- The name is standard, or a `Connection` line lists it. -/
def IsHopByHop (headers : HeaderMap) (name : String) : Prop :=
  name ∈ hopByHopNames ∨ ∃ v ∈ HeaderMap.getAll headers "connection", Lists H v name

/-- **What is meant to be left**: nothing that is hop-by-hop, and the rest as it was. -/
structure Stripped (before after : HeaderMap) : Prop where
  gone : ∀ line ∈ after, ¬ IsHopByHop H before line.1
  kept : ∀ name, ¬ IsHopByHop H before name →
    HeaderMap.getAll after name = HeaderMap.getAll before name

end Strip

/-! ### Tokens -/

/-- On visible characters `str::trim` removes blanks only. -/
theorem isWhitespace_eq_isBlank {b : UInt8} (hb : isVisibleAscii b = true) :
    isWhitespace (Char.ofNat b.toNat) = isBlank (Char.ofNat b.toNat) := by
  have hall : ∀ n : Fin 127, (32 ≤ n.val ∨ n.val = 9) →
      isWhitespace (Char.ofNat n.val) = isBlank (Char.ofNat n.val) := by decide
  unfold isVisibleAscii at hb
  simp only [Bool.or_eq_true, Bool.and_eq_true, decide_eq_true_eq, beq_iff_eq] at hb
  exact hall ⟨b.toNat, by omega⟩ (by dsimp only; omega)

theorem dropWhile_congr {α : Type*} {p q : α → Bool} {l : List α} (h : ∀ a ∈ l, p a = q a) :
    l.dropWhile p = l.dropWhile q := by
  induction l with
  | nil => rfl
  | cons a l ih =>
      rw [List.dropWhile_cons, List.dropWhile_cons, h a (List.mem_cons_self ..),
        ih fun b hb => h b (List.mem_cons_of_mem _ hb)]

/-- The parts of a list are made of its elements. -/
theorem mem_of_mem_splitOn {α : Type*} [BEq α] {sep : α} {l part : List α}
    (hpart : part ∈ l.splitOn sep) : ∀ a ∈ part, a ∈ l := by
  induction l generalizing part with
  | nil =>
      rw [List.splitOn_nil, List.mem_singleton] at hpart
      exact fun a ha => hpart ▸ ha
  | cons x l ih =>
      rw [List.splitOn_cons_eq_if_modifyHead] at hpart
      split at hpart
      · rcases List.mem_cons.mp hpart with rfl | hpart
        · exact fun a ha => absurd ha List.not_mem_nil
        · exact fun a ha => List.mem_cons_of_mem _ (ih hpart a ha)
      · cases hsplit : l.splitOn sep with
        | nil => exact (List.splitOn_ne_nil _ _ hsplit).elim
        | cons first rest =>
            rw [hsplit, List.modifyHead_cons] at hpart
            rw [hsplit] at ih
            rcases List.mem_cons.mp hpart with rfl | hpart
            · intro a ha
              rcases List.mem_cons.mp ha with rfl | ha
              · exact List.mem_cons_self ..
              · exact List.mem_cons_of_mem _ (ih (List.mem_cons_self ..) a ha)
            · exact fun a ha =>
                List.mem_cons_of_mem _ (ih (List.mem_cons_of_mem _ hpart) a ha)

/-- The tokens of a text are trimmed of blanks only. -/
theorem trim_eq_trimBlanks {v : List UInt8} (hv : v.all isVisibleAscii = true) {token : String}
    (ht : token ∈ splitComma (byteText v)) : trim token = trimBlanks token := by
  have hchars : ∀ c ∈ token.toList, isWhitespace c = isBlank c := by
    obtain ⟨part, hpart, rfl⟩ := List.mem_map.mp ht
    intro c hc
    rw [String.toList_ofList] at hc
    have hmem := mem_of_mem_splitOn hpart c hc
    rw [byteText, String.toList_ofList] at hmem
    obtain ⟨b, hb, rfl⟩ := List.mem_map.mp hmem
    exact isWhitespace_eq_isBlank (List.all_eq_true.mp hv b hb)
  have hfront := dropWhile_congr hchars
  unfold trim trimBlanks
  rw [hfront]
  congr 2
  refine dropWhile_congr fun c hc => hchars c ?_
  exact (List.dropWhile_sublist _).subset (List.mem_reverse.mp hc)

/-! ### What is removed -/

theorem foldl_remove (names : List String) (headers : HeaderMap) :
    names.foldl HeaderMap.remove headers = headers.filter fun line => decide (line.1 ∉ names) := by
  induction names generalizing headers with
  | nil => simp
  | cons name names ih =>
      rw [List.foldl_cons, ih, HeaderMap.remove, List.filter_filter]
      refine List.filter_congr fun line _ => ?_
      rw [Bool.eq_iff_iff]
      simp [and_comm]

/-- The names of the `Connection` lines that the code collects. -/
def connectionNamed (H : HttpCrate) (headers : HeaderMap) : List String :=
  (connectionTokens H headers).filterMap fun token => (H.headerName (trim token)).toOption

/-- `strip_hop_by_hop` removes the collected names and the standard ones. -/
theorem stripHopByHop_eq (H : HttpCrate) (headers : HeaderMap) :
    stripHopByHop H headers = headers.filter fun line =>
      decide (line.1 ∉ connectionNamed H headers ∧ line.1 ∉ hopByHopNames) := by
  change HeaderMap.remove (HeaderMap.remove (HOP_BY_HOP_HEADERS.foldl HeaderMap.remove
    ((connectionNamed H headers).foldl HeaderMap.remove headers)) "keep-alive")
    "proxy-connection" = _
  rw [foldl_remove, foldl_remove, HeaderMap.remove, HeaderMap.remove, List.filter_filter,
    List.filter_filter, List.filter_filter]
  refine List.filter_congr fun line _ => ?_
  rw [Bool.eq_iff_iff]
  simp only [Bool.and_eq_true, bne_iff_ne, decide_eq_true_eq, HOP_BY_HOP_HEADERS, hopByHopNames,
    List.mem_cons, List.not_mem_nil, or_false, not_or]
  tauto

theorem getAll_stripHopByHop (H : HttpCrate) (headers : HeaderMap) {name : String}
    (hnamed : name ∉ connectionNamed H headers) (hstandard : name ∉ hopByHopNames) :
    HeaderMap.getAll (stripHopByHop H headers) name = HeaderMap.getAll headers name := by
  rw [stripHopByHop_eq, HeaderMap.getAll, HeaderMap.getAll, List.filter_filter]
  congr 1
  refine List.filter_congr fun line _ => ?_
  by_cases hname : line.1 = name
  · simp [hname, hnamed, hstandard]
  · simp [hname]

section Lawful

variable {H : HttpCrate} (hH : H.LawfulText)
include hH

/-- **The code collects what the lines of visible bytes list.** -/
theorem mem_connectionNamed_iff {headers : HeaderMap} {name : String} :
    name ∈ connectionNamed H headers ↔ ∃ v ∈ HeaderMap.getAll headers "connection",
      v.all isVisibleAscii = true ∧ Lists H v name := by
  have htoken : ∀ token, (H.headerName token).toOption = some name ↔
      (H.headerName token).isOk = true ∧ toAsciiLowercase token = name := by
    intro token
    cases h : H.headerName token with
    | error e => simp [Except.toOption, Except.isOk, Except.toBool]
    | ok n =>
        have hn := hH.headerName token n h
        simp [Except.toOption, Except.isOk, Except.toBool, hn]
  unfold connectionNamed connectionTokens
  simp only [List.mem_filterMap, List.mem_flatMap, hH.toStr, Lists]
  constructor
  · rintro ⟨token, ⟨text, ⟨v, hv, htext⟩, ht⟩, hname⟩
    split at htext
    · rename_i hvis
      cases htext
      refine ⟨v, hv, hvis, token, ht, ?_⟩
      rw [trim_eq_trimBlanks hvis ht] at hname
      exact (htoken _).mp hname
    · cases htext
  · rintro ⟨v, hv, hvis, token, ht, hname⟩
    refine ⟨token, ⟨byteText v, ⟨v, hv, if_pos hvis⟩, ht⟩, ?_⟩
    rw [trim_eq_trimBlanks hvis ht]
    exact (htoken _).mpr hname

/-- **Hop-by-hop headers are removed, and the others kept**, exactly if every header that a
`Connection` line with a byte outside visible ASCII lists has a standard name or is listed
in a line without such a byte as well. -/
theorem stripHopByHop_stripped_iff (headers : HeaderMap) :
    Stripped H headers (stripHopByHop H headers) ↔
      ∀ v ∈ HeaderMap.getAll headers "connection", v.all isVisibleAscii = false →
        ∀ line ∈ headers, Lists H v line.1 →
          line.1 ∈ hopByHopNames ∨ ∃ v' ∈ HeaderMap.getAll headers "connection",
            v'.all isVisibleAscii = true ∧ Lists H v' line.1 := by
  constructor
  · intro h v hv _ line hline hlists
    by_contra hno
    rw [not_or] at hno
    have hleft : line ∈ stripHopByHop H headers := by
      rw [stripHopByHop_eq, List.mem_filter, decide_eq_true_eq]
      exact ⟨hline, fun hmem => hno.2 ((mem_connectionNamed_iff hH).mp hmem), hno.1⟩
    exact h.gone line hleft (Or.inr ⟨v, hv, hlists⟩)
  · intro h
    constructor
    · intro line hline
      rw [stripHopByHop_eq, List.mem_filter, decide_eq_true_eq] at hline
      obtain ⟨hmem, hnamed, hstandard⟩ := hline
      rw [mem_connectionNamed_iff hH] at hnamed
      rintro (hname | ⟨v, hv, hlists⟩)
      · exact hstandard hname
      · cases hvis : v.all isVisibleAscii with
        | true => exact hnamed ⟨v, hv, hvis, hlists⟩
        | false =>
            rcases h v hv hvis line hmem hlists with hname | hother
            · exact hstandard hname
            · exact hnamed hother
    · intro name hname
      refine getAll_stripHopByHop H headers (fun hmem => hname (Or.inr ?_)) fun hmem =>
        hname (Or.inl hmem)
      obtain ⟨v, hv, _, hlists⟩ := (mem_connectionNamed_iff hH).mp hmem
      exact ⟨v, hv, hlists⟩

end Lawful

/-- The characters of a header name. -/
def isTokenChar (c : Char) : Bool := c.isAlphanum || "!#$%&'*+-.^_`|~".toList.contains c

/-- `HttpCrate.plain` with the texts of the real crate: `to_str` wants visible bytes, and a
header name is a token. -/
def HttpCrate.ascii : HttpCrate :=
  { HttpCrate.plain with
    toStr := fun v => if v.all isVisibleAscii then some (byteText v) else none
    headerName := fun text =>
      if text.toList ≠ [] ∧ text.toList.all isTokenChar = true then .ok (toAsciiLowercase text)
      else .error "invalid HTTP header name" }

theorem HttpCrate.ascii_lawfulText : HttpCrate.ascii.LawfulText where
  toStr _ := rfl
  headerName text name h := by
    change (if _ then Except.ok (toAsciiLowercase text) else Except.error _) = _ at h
    split at h
    · exact (Except.ok.inj h).symm
    · cases h

/-- The condition of `stripHopByHop_stripped_iff` can be met: `Connection: close, X-Hop`
takes `x-hop` with it, and leaves `x-app`. -/
theorem stripHopByHop_stripped_ascii_line :
    Stripped .ascii
      [("connection", utf8 "close, X-Hop"), ("x-hop", utf8 "secret"), ("x-app", utf8 "kept")]
      (stripHopByHop .ascii
        [("connection", utf8 "close, X-Hop"), ("x-hop", utf8 "secret"), ("x-app", utf8 "kept")]) :=
  (stripHopByHop_stripped_iff HttpCrate.ascii_lawfulText _).mpr (by decide)

/-- **A header that is listed in a line with one opaque byte survives.**  `Connection:
x-secret, \xff` lists `x-secret`, and `x-secret` is still there afterwards. -/
theorem listed_in_opaque_line_survives :
    HttpCrate.ascii.LawfulText ∧
      Lists .ascii (utf8 "x-secret, " ++ [UInt8.ofNat 255]) "x-secret" ∧
      stripHopByHop .ascii
          [("connection", utf8 "x-secret, " ++ [UInt8.ofNat 255]), ("x-secret", utf8 "token")] =
        [("x-secret", utf8 "token")] :=
  ⟨HttpCrate.ascii_lawfulText, by decide, by decide⟩

end Http
end Noxy
