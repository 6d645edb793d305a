/-
# The traffic logger

`src/middleware/traffic_logger.rs`: `TrafficLogger`, its builder, and
`TrafficLoggerService::call`.

The log of an exchange is a block for the request and, when the response has come, one for the
response, each written at once.  With `log_bodies` the body of the response is collected first
and is in the log; a body that fails leaves the exchange without its second block.  The log is
in bytes, and `call` also gives what the service returns.

`finallyRedacted_iff` says what the builder makes of its calls: of those that name a header the
last one counts.
-/

import Noxy.Http.Body
import Noxy.Http.Text
import Noxy.Lib.Run

namespace Noxy
namespace TrafficLog

open Http Lib

/-! ### The builder -/

/-- `DEFAULT_REDACTED_HEADERS`. -/
def DEFAULT_REDACTED_HEADERS : List String :=
  ["authorization", "proxy-authorization", "cookie", "set-cookie", "x-api-key", "api-key"]

/-- `REDACTED_PLACEHOLDER`. -/
def REDACTED_PLACEHOLDER : String := "<redacted>"

/-- `TrafficLogger`, the writer apart. -/
structure TrafficLogger where
  logBodies : Bool
  redact : Bool
  redactions : List String
  deriving DecidableEq, Repr

/-- A call of the builder. -/
inductive Call where
  | logBodies (enable : Bool)
  | redact (enable : Bool)
  | redactHeaders (names : List String)
  | revealHeaders (names : List String)
  deriving DecidableEq, Repr

/-- `HashSet::insert`, of several names. -/
def insertAll (set names : List String) : List String :=
  names.foldl (fun set name => set.insert name) set

/-- `HashSet::remove`, of several names. -/
def removeAll (set names : List String) : List String :=
  names.foldl (fun set name => set.filter (· != name)) set

theorem mem_insertAll {set names : List String} {name : String} :
    name ∈ insertAll set names ↔ name ∈ set ∨ name ∈ names := by
  unfold insertAll
  induction names generalizing set with
  | nil => simp
  | cons n names ih =>
      rw [List.foldl_cons, ih, List.mem_insert_iff, List.mem_cons]
      tauto

theorem mem_removeAll {set names : List String} {name : String} :
    name ∈ removeAll set names ↔ name ∈ set ∧ name ∉ names := by
  unfold removeAll
  induction names generalizing set with
  | nil => simp
  | cons n names ih =>
      rw [List.foldl_cons, ih, List.mem_filter, List.mem_cons, bne_iff_ne]
      tauto

section Builder

variable (T : TextCrate)

/-- The names that are valid, as `HeaderName`s. -/
def headerNames (names : List String) : List String :=
  names.filterMap fun name => (T.headerName name).toOption

/-- `default_redactions`. -/
def defaultRedactions : List String := insertAll [] (headerNames T DEFAULT_REDACTED_HEADERS)

namespace TrafficLogger

/-- `TrafficLogger::new`. -/
def new : TrafficLogger := ⟨false, true, defaultRedactions T⟩

/-- `redact_headers`. -/
def redactHeaders (L : TrafficLogger) (names : List String) : TrafficLogger :=
  { L with redactions := insertAll L.redactions (headerNames T names) }

/-- `reveal_headers`. -/
def revealHeaders (L : TrafficLogger) (names : List String) : TrafficLogger :=
  { L with redactions := removeAll L.redactions (headerNames T names) }

/-- The builder after a call. -/
def call (L : TrafficLogger) : Call → TrafficLogger
  | .logBodies enable => { L with logBodies := enable }
  | .redact enable => { L with redact := enable }
  | .redactHeaders names => L.redactHeaders T names
  | .revealHeaders names => L.revealHeaders T names

end TrafficLogger

/-- The logger that the calls build. -/
def built (calls : List Call) : TrafficLogger := run (TrafficLogger.call T) (.new T) calls

/-- The header `name` is among the names. -/
def Names (names : List String) (name : String) : Prop := name ∈ headerNames T names

/-- The call reveals the header. -/
def Call.Reveals (name : String) : Call → Prop
  | .revealHeaders names => Names T names name
  | _ => False

/-- **The last call counts.**  The header has been named by `redact_headers`, or is one of the
defaults, and no call of `reveal_headers` has named it since. -/
def FinallyRedacted (calls : List Call) (name : String) : Prop :=
  (Names T DEFAULT_REDACTED_HEADERS name ∧ ∀ c ∈ calls, ¬ c.Reveals T name) ∨
    ∃ before names after, calls = before ++ .redactHeaders names :: after ∧ Names T names name ∧
      ∀ c ∈ after, ¬ c.Reveals T name

variable {T}

/-- What a call does to a header. -/
theorem mem_call_iff {L : TrafficLogger} {c : Call} {name : String} :
    name ∈ (L.call T c).redactions ↔
      (∃ names, c = .redactHeaders names ∧ Names T names name) ∨
        (name ∈ L.redactions ∧ ¬ c.Reveals T name) := by
  cases c with
  | logBodies enable => simp [TrafficLogger.call, Call.Reveals]
  | redact enable => simp [TrafficLogger.call, Call.Reveals]
  | redactHeaders names =>
      simp [TrafficLogger.call, TrafficLogger.redactHeaders, Call.Reveals, mem_insertAll, Names,
        or_comm]
  | revealHeaders names =>
      simp [TrafficLogger.call, TrafficLogger.revealHeaders, Call.Reveals, mem_removeAll, Names]

theorem mem_run_iff {L : TrafficLogger} {calls : List Call} {name : String} :
    name ∈ (run (TrafficLogger.call T) L calls).redactions ↔
      (name ∈ L.redactions ∧ ∀ c ∈ calls, ¬ c.Reveals T name) ∨
        ∃ before names after, calls = before ++ .redactHeaders names :: after ∧
          Names T names name ∧ ∀ c ∈ after, ¬ c.Reveals T name := by
  induction calls generalizing L with
  | nil => simp
  | cons c calls ih =>
      rw [run_cons, ih, mem_call_iff, List.forall_mem_cons]
      constructor
      · rintro (⟨⟨names, rfl, hnames⟩ | ⟨hL, hc⟩, hcalls⟩ | ⟨before, names, after, rfl, h⟩)
        · exact .inr ⟨[], names, calls, rfl, hnames, hcalls⟩
        · exact .inl ⟨hL, hc, hcalls⟩
        · exact .inr ⟨c :: before, names, after, rfl, h⟩
      · rintro (⟨hL, hc, hcalls⟩ | ⟨before, names, after, hsplit, hnames, hafter⟩)
        · exact .inl ⟨.inr ⟨hL, hc⟩, hcalls⟩
        · cases before with
          | nil =>
              obtain ⟨rfl, rfl⟩ := List.cons.inj hsplit
              exact .inl ⟨.inl ⟨names, rfl, hnames⟩, hafter⟩
          | cons c' before =>
              obtain ⟨rfl, rfl⟩ := List.cons.inj hsplit
              exact .inr ⟨before, names, after, rfl, hnames, hafter⟩

/-- **What is finally redacted** is what the set of the logger has. -/
theorem finallyRedacted_iff {calls : List Call} {name : String} :
    FinallyRedacted T calls name ↔ name ∈ (built T calls).redactions := by
  have hdefault : name ∈ (TrafficLogger.new T).redactions ↔
      Names T DEFAULT_REDACTED_HEADERS name := by
    rw [TrafficLogger.new, defaultRedactions, mem_insertAll]
    simp [Names]
  rw [built, mem_run_iff, hdefault, FinallyRedacted]

end Builder

/-! ### The log -/

/-- `format_version`, of the text that a version is shown by. -/
def formatVersion (version : String) : String :=
  if version = "HTTP/0.9" then "HTTP/0.9"
  else if version = "HTTP/1.0" then "HTTP/1.0"
  else if version = "HTTP/1.1" then "HTTP/1.1"
  else if version = "HTTP/2.0" then "HTTP/2"
  else if version = "HTTP/3.0" then "HTTP/3"
  else "HTTP/?"

/-- The digits of a fraction of a unit, down to the last that is not zero. -/
def fractionDigits : ℕ → ℕ → ℕ → List Char
  | 0, _, _ => []
  | places + 1, fraction, divisor =>
      if fraction = 0 then []
      else Char.ofNat (48 + fraction / divisor) ::
        fractionDigits places (fraction % divisor) (divisor / 10)

/-- `fmt_decimal` of `core::time`, without a precision. -/
def formatDecimal (integer fraction divisor : ℕ) (suffix : String) : String :=
  toString integer ++
    (if fraction = 0 then "" else "." ++ String.ofList (fractionDigits 9 fraction divisor)) ++
    suffix

/-- A `Duration` in nanoseconds, with `{:?}`. -/
def formatDuration (nanos : ℕ) : String :=
  let secs := nanos / 10 ^ 9
  let nanos := nanos % 10 ^ 9
  if 0 < secs then formatDecimal secs nanos (10 ^ 8) "s"
  else if 10 ^ 6 ≤ nanos then formatDecimal (nanos / 10 ^ 6) (nanos % 10 ^ 6) (10 ^ 5) "ms"
  else if 10 ^ 3 ≤ nanos then formatDecimal (nanos / 10 ^ 3) (nanos % 10 ^ 3) 100 "µs"
  else formatDecimal nanos 0 1 "ns"

example : formatDuration 2500000 = "2.5ms" ∧ formatDuration 1000000050 = "1.00000005s" := by
  decide +kernel

/-- `writeln!`. -/
def writeln (text : String) : List UInt8 := utf8 text ++ [10]

/-- `Redactor`. -/
structure Redactor where
  enabled : Bool
  headers : List String
  deriving DecidableEq, Repr

/-- `redactor`. -/
def TrafficLogger.redactor (L : TrafficLogger) : Redactor := ⟨L.redact, L.redactions⟩

/-- `is_redacted`. -/
def Redactor.isRedacted (R : Redactor) (name : String) : Bool :=
  R.enabled && R.headers.contains name

/-- The line of `log_headers`. -/
def logLine (T : TextCrate) (mark : String) (R : Redactor) (name : String) (value : List UInt8) :
    List UInt8 :=
  let rendered :=
    if R.isRedacted name then REDACTED_PLACEHOLDER else (T.toStr value).getD "<binary>"
  writeln (mark ++ " " ++ name ++ ": " ++ rendered)

/-- `log_headers`: a header map hands out its names in the order in which they came, each with
all its values. -/
def logHeaders (T : TextCrate) (mark : String) (headers : HeaderMap) (R : Redactor) : List UInt8 :=
  (headers.map Prod.fst).eraseDups.flatMap fun name =>
    (HeaderMap.getAll headers name).flatMap (logLine T mark R name)

/-- The line ending that `str::lines` takes off. -/
def stripLineEnding (line : List Char) : List Char :=
  match line.reverse with
  | '\n' :: '\r' :: rest => rest.reverse
  | '\n' :: rest => rest.reverse
  | _ => line

/-- `str::split_inclusive('\n')`, from the line read so far, in reverse. -/
def splitLines : List Char → List Char → List (List Char)
  | [], [] => []
  | line, [] => [line.reverse]
  | line, c :: text =>
      if c = '\n' then (c :: line).reverse :: splitLines [] text else splitLines (c :: line) text

/-- `str::lines`. -/
def lines (text : String) : List String :=
  (splitLines [] text.toList).map fun line => String.ofList (stripLineEnding line)

example : lines "a\r\n\nb" = ["a", "", "b"] := by decide

/-- `log_body_content`. -/
def logBodyContent (mark : String) (bytes : List UInt8) : List UInt8 :=
  writeln (mark ++ " [body: " ++ toString bytes.length ++ " bytes]") ++
    if bytes = [] then []
    else match fromUtf8 bytes with
      | some text => (lines text).flatMap fun line => writeln (mark ++ " " ++ line)
      | none => writeln (mark ++ " <binary>")

/-- `Response<Body>` with its version. -/
structure Reply where
  version : String
  response : Response
  deriving DecidableEq, Repr

section Service

variable (T : TextCrate)

/-- The block of a request. -/
def logRequest (R : Redactor) (req : Request T.toHttpCrate) : List UInt8 :=
  writeln ("> " ++ req.method ++ " " ++ T.uriText req.uri ++ " " ++ formatVersion req.version) ++
    logHeaders T ">" req.headers R ++ writeln ">"

/-- The first lines of the block of a response. -/
def logResponse (canonicalReason : ℕ → Option String) (R : Redactor) (reply : Reply) :
    List UInt8 :=
  writeln ("< " ++ formatVersion reply.version ++ " " ++ toString reply.response.status ++ " " ++
      (canonicalReason reply.response.status).getD "") ++
    logHeaders T "<" reply.response.headers R ++ writeln "<"

/-- The last line of the block. -/
def logCompleted (elapsed : ℕ) (contentLength : Option ℕ) : List UInt8 :=
  writeln ("* Completed in " ++ formatDuration elapsed ++
    match contentLength with
    | some len => ", " ++ toString len ++ " bytes"
    | none => "") ++ writeln ""

/-- The content length that is logged. -/
def contentLength (headers : HeaderMap) : Option ℕ :=
  ((HeaderMap.get headers "content-length").bind T.toStr).bind fun text =>
    (parseUnsigned 64 text).toOption

/-- `TrafficLoggerService::call`: what is logged, and the result.  The inner service gives its
result and the time that it took. -/
def call (canonicalReason : ℕ → Option String) (L : TrafficLogger)
    (inner : Request T.toHttpCrate → Except String Reply × ℕ) (req : Request T.toHttpCrate) :
    List UInt8 × Except String Reply :=
  let requestLog := logRequest T L.redactor req
  match inner req with
  | (.error e, _) => (requestLog, .error e)
  | (.ok reply, elapsed) =>
      if L.logBodies then
        match reply.response.body.collect with
        | .error e => (requestLog, .error e)
        | .ok bytes =>
            (requestLog ++ logResponse T canonicalReason L.redactor reply ++
                logBodyContent "<" bytes ++ writeln "<" ++ logCompleted elapsed none,
              .ok { reply with response := { reply.response with body := fullBody bytes } })
      else
        (requestLog ++ logResponse T canonicalReason L.redactor reply ++
            logCompleted elapsed (contentLength T reply.response.headers),
          .ok reply)

end Service

end TrafficLog
end Noxy
