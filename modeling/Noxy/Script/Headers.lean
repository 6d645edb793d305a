/-
# Headers on their way through a script

`src/middleware/script.rs` and `src/middleware/script_runtime.js`: what becomes of the
headers of a message between Rust and a script.

They cross four representations: the `HeaderMap`; the pairs of texts that `ScriptService`
makes of its lines, in which a value that is not visible ASCII is the empty text; the `Map`
of the class `Headers`, which has one value for a name; its entries; and the `HeaderMap` that
the builder of the message collects from those.  `crossing_spec` says what comes out: for
each name the last of its values, or nothing in its place if that is not visible ASCII.  So
the headers come out as they went in exactly if no name has two values and all values are
visible ASCII (`crossing_unchanged_iff`).
-/

import Noxy.Http.Text
import Noxy.Lib.OrderedMap

namespace Noxy
namespace Script

open Http Lib

/-- The class `Headers`. -/
abbrev Headers := OrderedMap String String

/-- The constructor of `Headers`; the names of a header map are ASCII. -/
def Headers.new (init : List (String × String)) : Headers :=
  OrderedMap.ofList (init.map fun p => (toAsciiLowercase p.1, p.2))

/-- The names of the lines are header names. -/
def NamesValid (T : TextCrate) (headers : HeaderMap) : Prop :=
  ∀ line ∈ headers, T.headerName line.1 = .ok line.1

/-- No name has two values, and all values are visible ASCII. -/
structure Plain (headers : HeaderMap) : Prop where
  single : ∀ name, (HeaderMap.getAll headers name).length ≤ 1
  visible : ∀ name, ∀ v ∈ HeaderMap.getAll headers name, v.all isVisibleAscii = true

section Crossing

variable (T : TextCrate)

/-- The text of a header value for a script. -/
def valueText (v : List UInt8) : String := (T.toStr v).getD ""

/-- The pairs that `ScriptService` makes of the lines. -/
def headerPairs (headers : HeaderMap) : List (String × String) :=
  headers.map fun line => (line.1, valueText T line.2)

/-- The loop over `builder.header`; the builder keeps its first error. -/
def appendHeaders : HeaderMap → List (String × String) → Except String HeaderMap
  | headers, [] => .ok headers
  | headers, (k, v) :: pairs =>
      match T.headerName k with
      | .error e => .error e
      | .ok name =>
          match T.headerValue v with
          | .error e => .error e
          | .ok value => appendHeaders (headers ++ [(name, value)]) pairs

/-- The headers of a message after their way to a script and back. -/
def crossing (headers : HeaderMap) : Except String HeaderMap :=
  appendHeaders T [] (Headers.new (headerPairs T headers)).entries

/-- What the builder makes of a text. -/
def valueBytes (text : String) : List UInt8 := ((T.headerValue text).toOption).getD []

/-- What is left of a value. -/
def cleaned (v : List UInt8) : List UInt8 := if v.all isVisibleAscii then v else []

theorem appendHeaders_ok {pairs : List (String × String)}
    (h : ∀ p ∈ pairs, T.headerName p.1 = .ok p.1 ∧ ∃ v, T.headerValue p.2 = .ok v)
    (headers : HeaderMap) :
    appendHeaders T headers pairs =
      .ok (headers ++ pairs.map fun p => (p.1, valueBytes T p.2)) := by
  induction pairs generalizing headers with
  | nil => rw [appendHeaders, List.map_nil, List.append_nil]
  | cons p pairs ih =>
      obtain ⟨hname, v, hvalue⟩ := h p (List.mem_cons_self ..)
      have hbytes : valueBytes T p.2 = v := by
        rw [valueBytes, hvalue]
        rfl
      rw [appendHeaders]
      simp only [hname, hvalue]
      rw [ih fun q hq => h q (List.mem_cons_of_mem _ hq), List.map_cons, hbytes, List.append_assoc]
      rfl

variable {T} (hT : T.Lawful)
include hT

theorem valueText_visible {v : List UInt8} (hv : v.all isVisibleAscii = true) :
    valueText T v = byteText v := by
  rw [valueText, hT.text.toStr, if_pos hv]
  rfl

theorem valueText_of_not_visible {v : List UInt8} (hv : v.all isVisibleAscii = false) :
    valueText T v = byteText [] := by
  rw [valueText, hT.text.toStr, if_neg (by simp [hv])]
  rfl

/-- **What is read back from the text of a value.** -/
theorem headerValue_valueText (v : List UInt8) :
    T.headerValue (valueText T v) = .ok (cleaned v) := by
  unfold cleaned
  cases hv : v.all isVisibleAscii with
  | true =>
      rw [valueText_visible hT hv, if_pos rfl]
      exact hT.value v hv
  | false =>
      rw [valueText_of_not_visible hT hv, if_neg Bool.false_ne_true]
      exact hT.value [] rfl

/-- The pairs that the class is made from, names in lower case as they were. -/
theorem lowercase_headerPairs {headers : HeaderMap} (hnames : NamesValid T headers) :
    (headerPairs T headers).map (fun p => (toAsciiLowercase p.1, p.2)) = headerPairs T headers := by
  unfold headerPairs
  rw [List.map_map]
  refine List.map_congr_left fun line hline => ?_
  have hlower := hT.text.headerName _ _ (hnames line hline)
  simp only [Function.comp_apply, ← hlower]

/-- **What comes out**: for each name the last of its values, or nothing in its place. -/
theorem crossing_spec {headers : HeaderMap} (hnames : NamesValid T headers) :
    ∃ out, crossing T headers = .ok out ∧ ∀ name, HeaderMap.getAll out name =
      ((HeaderMap.getAll headers name).getLast?.map cleaned).toList := by
  have hentries : (Headers.new (headerPairs T headers)).entries =
      (OrderedMap.ofList (headerPairs T headers)).entries := by
    rw [Headers.new, lowercase_headerPairs hT hnames]
  have hvalid : ∀ p ∈ (OrderedMap.ofList (headerPairs T headers)).entries,
      T.headerName p.1 = .ok p.1 ∧ ∃ v, T.headerValue p.2 = .ok v := by
    intro p hp
    obtain ⟨line, hline, rfl⟩ := List.mem_map.mp (OrderedMap.mem_of_mem_ofList hp)
    exact ⟨hnames line hline, _, headerValue_valueText hT line.2⟩
  refine ⟨_, by rw [crossing, hentries, appendHeaders_ok T hvalid], fun name => ?_⟩
  have hbytes : ∀ v, valueBytes T (valueText T v) = cleaned v := by
    intro v
    rw [valueBytes, headerValue_valueText hT]
    rfl
  have hof := OrderedMap.entriesOf_ofList (headerPairs T headers) name
  have hpairs : OrderedMap.entriesOf (headerPairs T headers) name =
      (headers.filter fun line => line.1 == name).map fun line =>
        (line.1, valueText T line.2) := by
    rw [headerPairs, OrderedMap.entriesOf, List.filter_map]
    rfl
  rw [List.nil_append, HeaderMap.getAll, List.filter_map, List.map_map]
  change ((OrderedMap.entriesOf (OrderedMap.ofList (headerPairs T headers)).entries name).map _) = _
  rw [hof, hpairs, List.getLast?_map, HeaderMap.getAll, List.getLast?_map]
  cases (headers.filter fun line => line.1 == name).getLast? with
  | none => rfl
  | some line => simp [hbytes]

omit hT in
/-- The last value stands for the whole list exactly if there is no other and it is visible. -/
theorem getLast_cleaned_iff (values : List (List UInt8)) :
    (values.getLast?.map cleaned).toList = values ↔
      values.length ≤ 1 ∧ ∀ v ∈ values, v.all isVisibleAscii = true := by
  match values with
  | [] => simp
  | [v] =>
      have hsingle : cleaned v = v ↔ v.all isVisibleAscii = true := by
        unfold cleaned
        cases hv : v.all isVisibleAscii with
        | true => exact iff_of_true (if_pos rfl) rfl
        | false =>
            refine iff_of_false (fun h => ?_) Bool.false_ne_true
            rw [if_neg Bool.false_ne_true] at h
            subst h
            cases hv
      simpa using hsingle
  | v :: w :: rest =>
      refine iff_of_false (fun h => ?_) fun h => by simp at h
      have hlength := congrArg List.length h
      cases hlast : (v :: w :: rest).getLast? with
      | none => simp at hlast
      | some u => simp [hlast] at hlength

/-- **Headers come out as they went in** exactly if no name has two values and all values
are visible ASCII. -/
theorem crossing_unchanged_iff {headers out : HeaderMap} (hnames : NamesValid T headers)
    (hout : crossing T headers = .ok out) :
    (∀ name, HeaderMap.getAll out name = HeaderMap.getAll headers name) ↔ Plain headers := by
  obtain ⟨out', hout', hspec⟩ := crossing_spec hT hnames
  obtain rfl : out' = out := Except.ok.inj (hout'.symm.trans hout)
  simp only [hspec, getLast_cleaned_iff]
  exact ⟨fun h => ⟨fun name => (h name).1, fun name => (h name).2⟩,
    fun h name => ⟨h.single name, h.visible name⟩⟩

end Crossing

end Script
end Noxy
