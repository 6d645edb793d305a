/-
# Changing headers

`src/middleware/modify_headers.rs`: `ModifyHeaders`, `apply_ops` and `ModifyHeadersService::call`.

A layer has operations for requests and for responses; the request gets its own on the way in and
the response its own on the way out, in the order they were added.  An error of the inner service
goes out as it is.

`getAll_applyOps` is the meaning of a list of operations for one name: the last `set` or `remove`
of that name decides what was there before, and the `append`s behind it add to that (`written`).
-/

import Mathlib.Data.List.DropRight
import Noxy.Config.Chain
import Noxy.Config.Middleware

namespace Noxy
namespace ModifyHeaders

open Config Http

variable {H : HttpCrate}

/-- One turn of the loop of `apply_ops`. -/
def applyOp (headers : HeaderMap) : HeaderOp → HeaderMap
  | .set name value => insertHeader headers name value
  | .append name value => headers ++ [(name, value)]
  | .remove name => HeaderMap.remove headers name

/-- `apply_ops`. -/
def applyOps (headers : HeaderMap) (ops : List HeaderOp) : HeaderMap := ops.foldl applyOp headers

/-- `ModifyHeaders`: its operations. -/
structure Layer where
  ops : List (Phase × HeaderOp)
  deriving DecidableEq, Repr

/-- `ModifyHeadersService`. -/
structure Service (H : HttpCrate) where
  inner : HttpService H
  requestOps : List HeaderOp
  responseOps : List HeaderOp

namespace Layer

/-- `ModifyHeaders::new`. -/
def new : Layer := ⟨[]⟩

/-- `ModifyHeaders::push`. -/
def push (l : Layer) (phase : Phase) (op : HeaderOp) : Layer := ⟨l.ops ++ [(phase, op)]⟩

end Layer

/-- The operations of a phase, in their order. -/
def opsOf (phase : Phase) (ops : List (Phase × HeaderOp)) : List HeaderOp :=
  ops.filterMap fun entry => if entry.1 = phase then some entry.2 else none

/-- `ModifyHeaders::layer`. -/
def Layer.layer (l : Layer) (inner : HttpService H) : Service H :=
  ⟨inner, opsOf .request l.ops, opsOf .response l.ops⟩

/-- `ModifyHeadersService::call`. -/
def Service.call (svc : Service H) : HttpService H := fun req world =>
  let (result, world) := svc.inner { req with headers := applyOps req.headers svc.requestOps } world
  (result.map fun resp => { resp with headers := applyOps resp.headers svc.responseOps }, world)

theorem opsOf_cons (phase : Phase) (entry : Phase × HeaderOp) (ops : List (Phase × HeaderOp)) :
    opsOf phase (entry :: ops) =
      if entry.1 = phase then entry.2 :: opsOf phase ops else opsOf phase ops := by
  unfold opsOf
  rw [List.filterMap_cons]
  split_ifs <;> simp_all

theorem applyOps_append (headers : HeaderMap) (ops ops' : List HeaderOp) :
    applyOps headers (ops ++ ops') = applyOps (applyOps headers ops) ops' := List.foldl_append

/-! ## What the operations do to one name -/

/-- The name that an operation is about. -/
def opName : HeaderOp → String
  | .set name _ => name
  | .append name _ => name
  | .remove name => name

/-- The value that an operation writes, if any. -/
def opValues : HeaderOp → List (List UInt8)
  | .set _ value => [value]
  | .append _ value => [value]
  | .remove _ => []

/-- The operation adds to what is there. -/
def isAppend : HeaderOp → Bool
  | .append .. => true
  | _ => false

/-- The values of a name after the operations: what the last `set` or `remove` of the name leaves,
or else what was there, and behind it what was appended since. -/
def written (name : String) (ops : List HeaderOp) (old : List (List UInt8)) : List (List UInt8) :=
  let own := ops.filter fun op => opName op == name
  (match (own.rdropWhile isAppend).getLast? with
    | some op => opValues op
    | none => old) ++ (own.rtakeWhile isAppend).flatMap opValues

section Written

variable {name : String} {old : List (List UInt8)}

theorem written_nil : written name [] old = old := by simp [written]

theorem written_concat_of_ne (ops : List HeaderOp) {op : HeaderOp} (h : opName op ≠ name) :
    written name (ops ++ [op]) old = written name ops old := by
  have hown : (ops ++ [op]).filter (fun op => opName op == name) =
      ops.filter fun op => opName op == name := by simp [List.filter_append, h]
  simp only [written, hown]

theorem own_concat (ops : List HeaderOp) {op : HeaderOp} (h : opName op = name) :
    (ops ++ [op]).filter (fun op => opName op == name) =
      ops.filter (fun op => opName op == name) ++ [op] := by
  simp [List.filter_append, h]

theorem written_concat_append (ops : List HeaderOp) {op : HeaderOp} (h : opName op = name)
    (happend : isAppend op = true) :
    written name (ops ++ [op]) old = written name ops old ++ opValues op := by
  simp [written, own_concat ops h, happend]

/-- A `set` or a `remove` leaves nothing of what was there. -/
theorem written_concat_replace (ops : List HeaderOp) {op : HeaderOp} (h : opName op = name)
    (hreplace : isAppend op = false) : written name (ops ++ [op]) old = opValues op := by
  simp [written, own_concat ops h, hreplace]

end Written

/-- What one operation does to the values of a name. -/
theorem getAll_applyOp (headers : HeaderMap) (op : HeaderOp) (name : String) :
    HeaderMap.getAll (applyOp headers op) name =
      if opName op ≠ name then HeaderMap.getAll headers name
      else if isAppend op then HeaderMap.getAll headers name ++ opValues op
      else opValues op := by
  have happend : ∀ (headers : HeaderMap) (other : String) (value : List UInt8),
      HeaderMap.getAll (headers ++ [(other, value)]) name =
        HeaderMap.getAll headers name ++ if other = name then [value] else [] := by
    intro headers other value
    by_cases h : other = name <;> simp [HeaderMap.getAll, List.filter_append, h]
  cases op with
  | set other value =>
      by_cases h : other = name
      · subst h
        simp [applyOp, insertHeader, happend, opName, isAppend, opValues,
          HeaderMap.getAll_remove_self]
      · simp [applyOp, insertHeader, happend, opName, h,
          HeaderMap.getAll_remove_of_ne _ (Ne.symm h)]
  | append other value =>
      by_cases h : other = name <;> simp [applyOp, happend, opName, isAppend, opValues, h]
  | remove other =>
      by_cases h : other = name
      · subst h
        simp [applyOp, opName, isAppend, opValues, HeaderMap.getAll_remove_self]
      · simp [applyOp, opName, h, HeaderMap.getAll_remove_of_ne _ (Ne.symm h)]

/-- **What the operations leave of a name.** -/
theorem getAll_applyOps (headers : HeaderMap) (ops : List HeaderOp) (name : String) :
    HeaderMap.getAll (applyOps headers ops) name =
      written name ops (HeaderMap.getAll headers name) := by
  induction ops using List.reverseRecOn with
  | nil => exact written_nil.symm
  | append_singleton ops op ih =>
      rw [applyOps_append]
      change HeaderMap.getAll (applyOp (applyOps headers ops) op) name = _
      rw [getAll_applyOp, ih]
      by_cases hname : opName op = name
      · rw [if_neg (not_not.mpr hname)]
        cases hop : isAppend op with
        | false => rw [if_neg Bool.false_ne_true, written_concat_replace ops hname hop]
        | true => rw [if_pos rfl, written_concat_append ops hname hop]
      · rw [if_pos hname, written_concat_of_ne ops hname]

example : written "server" [.append "server" [1], .remove "server", .append "server" [2]] [[0]] =
    [[2]] := by
  decide

end ModifyHeaders
end Noxy
