/-
# Many calls and one writer

`src/middleware/traffic_logger.rs`: `TrafficLoggerService::call`, `log_headers` and
`log_body_content`, of many calls that share a writer.

Each call writes its two blocks under the lock of the writer, and the blocks of other calls may
come between them.  A `Record` is a block with the texts that are in it, and `log_eq_records` says
that the log is the lines of the blocks, one after the other.
-/

import Noxy.TrafficLogger.Service

namespace Noxy
namespace TrafficLog

open Http Lib

/-! ### The writer -/

section Writer

variable (T : TextCrate)

/-- A step of one of the calls. -/
inductive LogEvent where
  /-- A call is made, and writes its first block. -/
  | call (req : Request T.toHttpCrate)
  /-- The future of the inner service is done, for the call with this number. -/
  | returns (i : ℕ) (result : Except String Reply) (elapsed : ℕ)

/-- The writer, and whether the second block of each call is still to come. -/
structure Writer where
  log : List UInt8
  waiting : List Bool

variable {T} (canonicalReason : ℕ → Option String) (L : TrafficLogger)

/-- What `TrafficLoggerService::call` writes when the inner service is done. -/
def responseBlock (T : TextCrate) (result : Except String Reply) (elapsed : ℕ) : List UInt8 :=
  match result with
  | .error _ => []
  | .ok reply =>
      if L.logBodies then
        match reply.response.body.collect with
        | .error _ => []
        | .ok bytes =>
            logResponse T canonicalReason L.redactor reply ++ logBodyContent "<" bytes ++
              writeln "<" ++ logCompleted elapsed none
      else
        logResponse T canonicalReason L.redactor reply ++
          logCompleted elapsed (contentLength T reply.response.headers)

namespace Writer

/-- The writer when no call has been made. -/
def new : Writer := ⟨[], []⟩

/-- The writer after a step. -/
def step (w : Writer) : LogEvent T → Writer
  | .call req => ⟨w.log ++ logRequest T L.redactor req, w.waiting ++ [true]⟩
  | .returns i result elapsed =>
      if w.waiting[i]? = some true then
        ⟨w.log ++ responseBlock canonicalReason L T result elapsed, w.waiting.set i false⟩
      else w

end Writer

/-- One call, from its start to its end. -/
theorem call_eq_run (inner : Request T.toHttpCrate → Except String Reply × ℕ)
    (req : Request T.toHttpCrate) :
    (call T canonicalReason L inner req).1 =
      (run (Writer.step canonicalReason L) .new
        [.call req, .returns 0 (inner req).1 (inner req).2]).log := by
  simp only [run_cons, run_nil, Writer.step, Writer.new, List.nil_append, List.getElem?_cons_zero,
    if_true]
  unfold call responseBlock
  rcases hinner : inner req with ⟨result, elapsed⟩
  cases result with
  | error e => simp
  | ok reply =>
      dsimp only
      split
      · cases reply.response.body.collect <;> simp
      · simp

end Writer

/-! ### What is in the log -/

/-- A block, with the texts that are in it. -/
inductive Record where
  | request (method uri version : String) (headers : List (String × String))
  | response (version status reason : String) (headers : List (String × String))
      (body : Option (String × List String)) (completed : String)
  deriving DecidableEq, Repr

/-- The line of a header. -/
def headerLine (mark : String) (header : String × String) : String :=
  mark ++ " " ++ header.1 ++ ": " ++ header.2

/-- The line of a body. -/
def bodyLine (text : String) : String := "< " ++ text

/-- The lines of a body, with the one before them and the one after them. -/
def bodyLines : Option (String × List String) → List String
  | none => []
  | some (size, lines) => bodyLine size :: lines.map bodyLine ++ ["<"]

/-- The lines of a block. -/
def Record.lines : Record → List String
  | .request method uri version headers =>
      ("> " ++ method ++ " " ++ uri ++ " " ++ version) :: headers.map (headerLine ">") ++ [">"]
  | .response version status reason headers body completed =>
      ("< " ++ version ++ " " ++ status ++ " " ++ reason) :: headers.map (headerLine "<") ++
        ["<"] ++ bodyLines body ++ ["* " ++ completed, ""]

section Records

variable (T : TextCrate)

/-- The headers as they are shown. -/
def shownHeaders (headers : HeaderMap) (R : Redactor) : List (String × String) :=
  (headers.map Prod.fst).eraseDups.flatMap fun name =>
    (HeaderMap.getAll headers name).map fun value =>
      (name, if R.isRedacted name then REDACTED_PLACEHOLDER else (T.toStr value).getD "<binary>")

/-- The body as it is shown. -/
def shownBody (bytes : List UInt8) : String × List String :=
  ("[body: " ++ toString bytes.length ++ " bytes]",
    if bytes = [] then []
    else match fromUtf8 bytes with
      | some text => TrafficLog.lines text
      | none => ["<binary>"])

/-- The last line as it is shown. -/
def shownCompleted (elapsed : ℕ) (contentLength : Option ℕ) : String :=
  "Completed in " ++ formatDuration elapsed ++
    match contentLength with
    | some len => ", " ++ toString len ++ " bytes"
    | none => ""

variable (canonicalReason : ℕ → Option String) (L : TrafficLogger)

/-- The block of a request. -/
def requestRecord (req : Request T.toHttpCrate) : Record :=
  .request req.method (T.uriText req.uri) (formatVersion req.version)
    (shownHeaders T req.headers L.redactor)

/-- The block of a response, if there is one. -/
def responseRecord (result : Except String Reply) (elapsed : ℕ) : Option Record :=
  match result with
  | .error _ => none
  | .ok reply =>
      let block := Record.response (formatVersion reply.version) (toString reply.response.status)
        ((canonicalReason reply.response.status).getD "")
        (shownHeaders T reply.response.headers L.redactor)
      if L.logBodies then
        match reply.response.body.collect with
        | .error _ => none
        | .ok bytes => some (block (some (shownBody bytes)) (shownCompleted elapsed none))
      else some (block none (shownCompleted elapsed (contentLength T reply.response.headers)))

/-- The block that a step writes. -/
def Writer.record (w : Writer) : LogEvent T → Option Record
  | .call req => some (requestRecord T L req)
  | .returns i result elapsed =>
      if w.waiting[i]? = some true then responseRecord T canonicalReason L result elapsed else none

/-- The blocks that some steps write, in order. -/
def Writer.records : Writer → List (LogEvent T) → List Record
  | _, [] => []
  | w, e :: events =>
      (w.record T canonicalReason L e).toList ++ records (w.step canonicalReason L e) events

end Records

/-! ### The blocks are written line by line -/

/-- The lines as they are written. -/
def writeLines (lines : List String) : List UInt8 := lines.flatMap writeln

theorem writeLines_append (lines lines' : List String) :
    writeLines (lines ++ lines') = writeLines lines ++ writeLines lines' := List.flatMap_append

theorem writeLines_cons (line : String) (lines : List String) :
    writeLines (line :: lines) = writeln line ++ writeLines lines := List.flatMap_cons

theorem writeLines_singleton (line : String) : writeLines [line] = writeln line :=
  List.append_nil _

section Written

variable {T : TextCrate} {canonicalReason : ℕ → Option String} {L : TrafficLogger}

theorem logHeaders_eq (mark : String) (headers : HeaderMap) (R : Redactor) :
    logHeaders T mark headers R =
      writeLines ((shownHeaders T headers R).map (headerLine mark)) := by
  unfold logHeaders shownHeaders writeLines
  rw [List.map_flatMap, List.flatMap_assoc]
  refine congrArg (List.flatMap · _) (funext fun name => ?_)
  rw [List.map_map, List.flatMap_map]
  rfl

theorem logRequest_eq (req : Request T.toHttpCrate) :
    logRequest T L.redactor req = writeLines (requestRecord T L req).lines := by
  rw [logRequest, logHeaders_eq, requestRecord, Record.lines, List.cons_append, writeLines_cons,
    writeLines_append, writeLines_singleton, List.append_assoc]

theorem logBodyContent_eq (bytes : List UInt8) :
    logBodyContent "<" bytes ++ writeln "<" = writeLines (bodyLines (some (shownBody bytes))) := by
  have hsize : writeln ("<" ++ " [body: " ++ toString bytes.length ++ " bytes]") =
      writeln (bodyLine (shownBody bytes).1) := by
    unfold shownBody bodyLine
    refine congrArg writeln (String.ext ?_)
    simp [String.toList_append]
  rw [bodyLines, List.cons_append, writeLines_cons, writeLines_append, writeLines_singleton,
    ← hsize, ← List.append_assoc]
  unfold logBodyContent
  refine congrArg₂ (· ++ ·) (congrArg₂ (· ++ ·) rfl ?_) rfl
  unfold shownBody
  dsimp only
  split
  · rfl
  · cases fromUtf8 bytes with
    | none =>
        rw [List.map_singleton, writeLines_singleton]
        rfl
    | some text =>
        rw [writeLines, List.flatMap_map]
        rfl

theorem logCompleted_eq (elapsed : ℕ) (contentLength : Option ℕ) :
    logCompleted elapsed contentLength =
      writeLines ["* " ++ shownCompleted elapsed contentLength, ""] := by
  rw [writeLines_cons, writeLines_singleton]
  refine congrArg (writeln · ++ writeln "") (String.ext ?_)
  unfold shownCompleted
  cases contentLength <;> simp [String.toList_append]

theorem responseBlock_eq (result : Except String Reply) (elapsed : ℕ) :
    responseBlock canonicalReason L T result elapsed =
      (responseRecord T canonicalReason L result elapsed).elim [] fun r => writeLines r.lines := by
  have hhead : ∀ (reply : Reply) body completed,
      writeLines (Record.response (formatVersion reply.version) (toString reply.response.status)
        ((canonicalReason reply.response.status).getD "")
        (shownHeaders T reply.response.headers L.redactor) body completed).lines =
      logResponse T canonicalReason L.redactor reply ++ writeLines (bodyLines body) ++
        writeLines ["* " ++ completed, ""] := by
    intro reply body completed
    rw [logResponse, logHeaders_eq, Record.lines, writeLines_append, writeLines_append,
      writeLines_append, writeLines_cons, writeLines_singleton]
  unfold responseBlock responseRecord
  cases result with
  | error e => rfl
  | ok reply =>
      dsimp only
      split
      · cases reply.response.body.collect with
        | error e => rfl
        | ok bytes =>
            dsimp only
            rw [Option.elim_some, hhead, logCompleted_eq, List.append_assoc _ (logBodyContent _ _),
              logBodyContent_eq]
      · rw [Option.elim_some, hhead, logCompleted_eq]
        simp [bodyLines, writeLines]

/-- **The log is its blocks**, line by line, in the order in which they were written. -/
theorem log_eq_records (w : Writer) (events : List (LogEvent T)) :
    (run (Writer.step canonicalReason L) w events).log =
      w.log ++ writeLines ((w.records T canonicalReason L events).flatMap Record.lines) := by
  induction events generalizing w with
  | nil => simp [Writer.records, writeLines]
  | cons e events ih =>
      have hstep : (w.step canonicalReason L e).log = w.log ++
          writeLines ((w.record T canonicalReason L e).toList.flatMap Record.lines) := by
        cases e with
        | call req => simp [Writer.step, Writer.record, logRequest_eq]
        | returns i result elapsed =>
            dsimp only [Writer.step, Writer.record]
            split
            · rw [responseBlock_eq]
              cases responseRecord T canonicalReason L result elapsed <;> simp [writeLines]
            · simp [writeLines]
      rw [run_cons, ih, hstep, Writer.records, List.flatMap_append, writeLines_append,
        List.append_assoc]

end Written

end TrafficLog
end Noxy
