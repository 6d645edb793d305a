/-
# Reading the log back

`src/middleware/traffic_logger.rs`: `TrafficLoggerService::call`, `log_headers` and
`log_body_content`.

What clients and servers send is in the log: header values, and with `log_bodies` whole bodies,
line by line.  A line of a body starts with the mark `<` and a space, also if it is empty, and the
line that ends a head or a body is the mark alone.

So `readLog` finds the blocks again, each with its lines, in the order in which they were written
(`log_readBack`): nothing that is sent can make a block look like two, or like another one.  Which
request a response answers is not in the log, if there were several at the time.
-/

import Noxy.Lib.Records
import Noxy.TrafficLogger.Writer

namespace Noxy
namespace TrafficLog

open Http Lib

/-! ### The reader -/

/-- A line without its mark. -/
def unmark : List Char → Option (List Char)
  | _ :: ' ' :: text => some text
  | _ => none

/-- The header in a line. -/
def readHeader (line : List Char) : Option (String × String) := do
  let (name, value) ← readUntil ':' (← unmark line)
  match value with
  | ' ' :: value => some (.ofList name, .ofList value)
  | _ => none

/-- The three texts of a first line. -/
def readFirst (line : List Char) : Option (String × String × String) := do
  let (a, rest) ← readUntil ' ' (← unmark line)
  let (b, c) ← readUntil ' ' rest
  some (.ofList a, .ofList b, .ofList c)

/-- The first line and the headers, up to the mark alone. -/
def readHead (mark : Char) (lines : List (List Char)) :
    Option ((String × String × String) × List (String × String) × List (List Char)) := do
  let (head, rest) ← readUntil [mark] lines
  match head with
  | first :: headers => some (← readFirst first, ← headers.mapM readHeader, rest)
  | [] => none

/-- The lines of a body, if there are such, up to the mark alone. -/
def readBody (lines : List (List Char)) :
    Option (Option (String × List String) × List (List Char)) :=
  match lines with
  | ('<' :: _) :: _ => do
      let (body, rest) ← readUntil ['<'] lines
      match ← body.mapM fun line => (unmark line).map String.ofList with
      | size :: body => some (some (size, body), rest)
      | [] => none
  | _ => some (none, lines)

/-- A block, by the mark of its first line. -/
def readRecord (lines : List (List Char)) : Option (Record × List (List Char)) :=
  match lines with
  | ('>' :: _) :: _ => do
      let ((method, uri, version), headers, rest) ← readHead '>' lines
      some (.request method uri version headers, rest)
  | ('<' :: _) :: _ => do
      let ((version, status, reason), headers, rest) ← readHead '<' lines
      let (body, rest) ← readBody rest
      match rest with
      | completed :: [] :: rest =>
          let completed ← unmark completed
          some (.response version status reason headers body (.ofList completed), rest)
      | _ => none
  | _ => none

/-- The blocks of a log. -/
def readLog (log : List UInt8) : Option (List Record) :=
  (fromUtf8 log).bind fun text =>
    let lines := (text.toList.splitOn '\n').dropLast
    readAll readRecord lines.length lines

/-! ### What can be read back -/

/-- A text without a space, on one line. -/
def Token (text : String) : Prop := ' ' ∉ text.toList ∧ '\n' ∉ text.toList

/-- Names without a colon, and all on one line. -/
def HeadersClean (headers : List (String × String)) : Prop :=
  ∀ header ∈ headers, (':' ∉ header.1.toList ∧ '\n' ∉ header.1.toList) ∧ '\n' ∉ header.2.toList

/-- The texts of a block are on one line, and the first ones of its first line are tokens. -/
def Record.Clean : Record → Prop
  | .request method uri version headers =>
      Token method ∧ Token uri ∧ '\n' ∉ version.toList ∧ HeadersClean headers
  | .response version status reason headers body completed =>
      Token version ∧ Token status ∧ '\n' ∉ reason.toList ∧ HeadersClean headers ∧
        (∀ size lines, body = some (size, lines) →
          '\n' ∉ size.toList ∧ ∀ line ∈ lines, '\n' ∉ line.toList) ∧
        '\n' ∉ completed.toList

/-- The characters of the line of a header. -/
def headerChars (mark : Char) (header : String × String) : List Char :=
  mark :: ' ' :: (header.1.toList ++ ':' :: ' ' :: header.2.toList)

/-- The characters of a first line. -/
def firstChars (mark : Char) (a b c : String) : List Char :=
  mark :: ' ' :: (a.toList ++ ' ' :: (b.toList ++ ' ' :: c.toList))

/-- The characters of a line that has a mark. -/
def markedChars (mark : Char) (text : String) : List Char := mark :: ' ' :: text.toList

theorem readHeader_headerChars {mark : Char} {header : String × String}
    (h : ':' ∉ header.1.toList) : readHeader (headerChars mark header) = some header := by
  simp [readHeader, headerChars, unmark, readUntil_append h]

theorem readFirst_firstChars {mark : Char} {a b c : String} (ha : ' ' ∉ a.toList)
    (hb : ' ' ∉ b.toList) : readFirst (firstChars mark a b c) = some (a, b, c) := by
  simp [readFirst, firstChars, unmark, readUntil_append ha, readUntil_append hb]

/-- **The head of a block** is read back. -/
theorem readHead_append (mark : Char) {a b c : String} {headers : List (String × String)}
    (ha : ' ' ∉ a.toList) (hb : ' ' ∉ b.toList) (hheaders : HeadersClean headers)
    (rest : List (List Char)) :
    readHead mark (firstChars mark a b c :: headers.map (headerChars mark) ++ [mark] :: rest) =
      some ((a, b, c), headers, rest) := by
  have hstop : [mark] ∉ firstChars mark a b c :: headers.map (headerChars mark) := by
    simp [firstChars, headerChars]
  have hmap : (headers.map (headerChars mark)).mapM readHeader = some headers :=
    mapM_map_eq_some fun header hmem => readHeader_headerChars (hheaders header hmem).1.1
  rw [readHead, readUntil_append hstop]
  simp only [Option.bind_eq_bind, Option.bind_some, readFirst_firstChars ha hb, hmap]

/-- **The body of a block** is read back, and a block without one has none. -/
theorem readBody_append (body : Option (String × List String)) (completed : String)
    (rest : List (List Char)) :
    readBody ((bodyLines body).map String.toList ++ markedChars '*' completed :: rest) =
      some (body, markedChars '*' completed :: rest) := by
  cases body with
  | none => rfl
  | some body =>
      obtain ⟨size, lines⟩ := body
      have hlines : (bodyLines (some (size, lines))).map String.toList =
          markedChars '<' size :: lines.map (markedChars '<') ++ [['<']] := by
        simp [bodyLines, bodyLine, markedChars, String.toList_append]
      have hstop : ['<'] ∉ markedChars '<' size :: lines.map (markedChars '<') := by
        simp [markedChars]
      have hmap : ((size :: lines).map (markedChars '<')).mapM
          (fun line => (unmark line).map String.ofList) = some (size :: lines) :=
        mapM_map_eq_some fun text _ => by simp [markedChars, unmark]
      rw [List.map_cons] at hmap
      have huntil := readUntil_append hstop (markedChars '*' completed :: rest)
      rw [hlines, List.append_assoc, List.singleton_append]
      unfold readBody
      rw [List.cons_append] at huntil ⊢
      dsimp only [markedChars] at huntil hmap ⊢
      rw [huntil]
      simp only [Option.bind_eq_bind, Option.bind_some, hmap]

theorem lines_request (method uri version : String) (headers : List (String × String)) :
    (Record.request method uri version headers).lines.map String.toList =
      firstChars '>' method uri version :: headers.map (headerChars '>') ++ [['>']] := by
  simp [Record.lines, firstChars, headerChars, headerLine, String.toList_append]

theorem lines_response (version status reason : String) (headers : List (String × String))
    (body : Option (String × List String)) (completed : String) :
    (Record.response version status reason headers body completed).lines.map String.toList =
      firstChars '<' version status reason :: headers.map (headerChars '<') ++
        ['<'] :: ((bodyLines body).map String.toList ++ [markedChars '*' completed, []]) := by
  simp [Record.lines, firstChars, headerChars, markedChars, headerLine, String.toList_append]

/-- **A block is read back**, whatever stands after it. -/
theorem readRecord_append {r : Record} (h : r.Clean) (rest : List (List Char)) :
    readRecord (r.lines.map String.toList ++ rest) = some (r, rest) := by
  cases r with
  | request method uri version headers =>
      obtain ⟨hmethod, huri, -, hheaders⟩ := h
      have hhead := readHead_append '>' (c := version) hmethod.1 huri.1 hheaders rest
      rw [lines_request, List.append_assoc, List.singleton_append]
      unfold readRecord
      rw [List.cons_append] at hhead ⊢
      dsimp only [firstChars] at hhead ⊢
      rw [hhead]
      rfl
  | response version status reason headers body completed =>
      obtain ⟨hversion, hstatus, -, hheaders, -, -⟩ := h
      have hhead := readHead_append '<' (c := reason) hversion.1 hstatus.1 hheaders
        ((bodyLines body).map String.toList ++ markedChars '*' completed :: [] :: rest)
      have hlines : (Record.response version status reason headers body completed).lines.map
          String.toList ++ rest =
          firstChars '<' version status reason :: headers.map (headerChars '<') ++
            ['<'] :: ((bodyLines body).map String.toList ++
              markedChars '*' completed :: [] :: rest) := by
        rw [lines_response]
        simp
      rw [hlines]
      unfold readRecord
      rw [List.cons_append] at hhead ⊢
      dsimp only [firstChars] at hhead ⊢
      rw [hhead]
      simp only [Option.bind_eq_bind, Option.bind_some, readBody_append]
      simp [markedChars, unmark]

theorem lines_ne_nil (r : Record) : r.lines.map String.toList ≠ [] := by
  cases r with
  | request method uri version headers => rw [lines_request]; exact List.cons_ne_nil _ _
  | response version status reason headers body completed =>
      rw [lines_response]
      exact List.cons_ne_nil _ _

/-- The lines of a block have no line end in them. -/
theorem Record.Clean.lines {r : Record} (h : r.Clean) :
    ∀ line ∈ r.lines.map String.toList, '\n' ∉ line := by
  have hheader : ∀ (mark : Char) (headers : List (String × String)), mark ≠ '\n' →
      HeadersClean headers → ∀ line ∈ headers.map (headerChars mark), '\n' ∉ line := by
    intro mark headers hmark hclean line hline
    obtain ⟨header, hmem, rfl⟩ := List.mem_map.mp hline
    obtain ⟨⟨-, hname⟩, hvalue⟩ := hclean header hmem
    simp [headerChars, hmark.symm, hname, hvalue]
  cases r with
  | request method uri version headers =>
      obtain ⟨hmethod, huri, hversion, hheaders⟩ := h
      rw [lines_request]
      intro line hline
      rcases List.mem_append.mp hline with hline | hline
      · rcases List.mem_cons.mp hline with rfl | hline
        · simp [firstChars, hmethod.2, huri.2, hversion]
        · exact hheader '>' headers (by decide) hheaders line hline
      · obtain rfl := List.mem_singleton.mp hline
        decide
  | response version status reason headers body completed =>
      obtain ⟨hversion, hstatus, hreason, hheaders, hbody, hcompleted⟩ := h
      rw [lines_response]
      intro line hline
      rcases List.mem_append.mp hline with hline | hline
      · rcases List.mem_cons.mp hline with rfl | hline
        · simp [firstChars, hversion.2, hstatus.2, hreason]
        · exact hheader '<' headers (by decide) hheaders line hline
      · rcases List.mem_cons.mp hline with rfl | hline
        · decide
        · rcases List.mem_append.mp hline with hline | hline
          · cases body with
            | none => cases hline
            | some body =>
                obtain ⟨hsize, hlines⟩ := hbody body.1 body.2 rfl
                simp only [bodyLines, List.map_append, List.map_cons, List.map_map,
                  List.mem_append, List.mem_cons, List.mem_map, List.map_nil,
                  List.not_mem_nil, or_false] at hline
                rcases hline with (rfl | ⟨text, htext, rfl⟩) | rfl
                · simp [bodyLine, String.toList_append, hsize]
                · simp [bodyLine, String.toList_append, hlines text htext]
                · decide
          · rcases List.mem_cons.mp hline with rfl | hline
            · simp [markedChars, hcompleted]
            · obtain rfl := List.mem_singleton.mp hline
              exact List.not_mem_nil

theorem utf8_writeLines (lines : List String) :
    writeLines lines = utf8 (String.ofList (unlines '\n' (lines.map String.toList))) := by
  induction lines with
  | nil => rfl
  | cons line lines ih =>
      rw [writeLines_cons, ih, writeln, utf8, utf8, utf8, String.toList_ofList,
        String.toList_ofList, List.map_cons, unlines, unlines, List.flatMap_cons,
        List.flatMap_append, List.flatMap_append]
      simp only [List.append_assoc]
      rfl

/-- **Blocks that are clean are read back.** -/
theorem readLog_writeLines {records : List Record} (h : ∀ r ∈ records, r.Clean) :
    readLog (writeLines (records.flatMap Record.lines)) = some records := by
  have hlines : (records.flatMap Record.lines).map String.toList =
      records.flatMap fun r => r.lines.map String.toList := List.map_flatMap
  have hnewline : ∀ line ∈ (records.flatMap Record.lines).map String.toList, '\n' ∉ line := by
    rw [hlines]
    intro line hline
    obtain ⟨r, hr, hline⟩ := List.mem_flatMap.mp hline
    exact (h r hr).lines line hline
  have hread : readAll readRecord (records.flatMap fun r => r.lines.map String.toList).length
      (records.flatMap fun r => r.lines.map String.toList) = some (records.map id) :=
    readAll_flatMap (fun r hr => ⟨lines_ne_nil r, readRecord_append (h r hr)⟩)
      (length_le_length_flatMap fun r _ => lines_ne_nil r)
  rw [readLog, fromUtf8_eq_some_iff.mpr (utf8_writeLines _).symm, Option.bind_some]
  dsimp only
  rw [String.toList_ofList, splitOn_unlines hnewline, List.dropLast_concat, hlines, hread,
    List.map_id]

/-! ### What the calls write -/

theorem not_mem_toString {c : Char} (hc : c.isDigit = false) (n : ℕ) : c ∉ (toString n).toList := by
  intro hmem
  rw [Nat.toString_eq_repr, Nat.toList_repr] at hmem
  exact absurd (Nat.isDigit_of_mem_toDigits (by decide) (by decide) hmem) (by rw [hc]; decide)

theorem token_toString (n : ℕ) : Token (toString n) :=
  ⟨not_mem_toString (by decide) n, not_mem_toString (by decide) n⟩

theorem token_formatVersion (version : String) : Token (formatVersion version) := by
  unfold formatVersion Token
  split_ifs <;> decide

/-- A character from `'0'` on is no line end. -/
theorem charOfNat_ne_newline {n : ℕ} (h : 10 < n) : Char.ofNat n ≠ '\n' := by
  intro heq
  have htoNat := congrArg Char.toNat heq
  by_cases hvalid : n.isValidChar
  · rw [Char.ofNat, dif_pos hvalid] at htoNat
    have hn : n = 10 := htoNat
    omega
  · rw [Char.ofNat, dif_neg hvalid] at htoNat
    cases htoNat

theorem newline_notMem_fractionDigits (places fraction divisor : ℕ) :
    '\n' ∉ fractionDigits places fraction divisor := by
  induction places generalizing fraction divisor with
  | zero => exact List.not_mem_nil
  | succ places ih =>
      rw [fractionDigits]
      split
      · exact List.not_mem_nil
      · rw [List.mem_cons, not_or]
        have hdigit : 10 < 48 + fraction / divisor :=
          Nat.lt_of_lt_of_le (by decide) (Nat.le_add_right 48 _)
        exact ⟨(charOfNat_ne_newline hdigit).symm, ih _ _⟩

theorem newline_notMem_formatDecimal (integer fraction divisor : ℕ) {suffix : String}
    (h : '\n' ∉ suffix.toList) : '\n' ∉ (formatDecimal integer fraction divisor suffix).toList := by
  have hinteger := (token_toString integer).2
  have hdigits := newline_notMem_fractionDigits 9 fraction divisor
  unfold formatDecimal
  split
  · simp only [String.toList_append, List.mem_append, not_or]
    exact ⟨⟨hinteger, by decide⟩, h⟩
  · simp only [String.toList_append, List.mem_append, not_or, String.toList_ofList]
    exact ⟨⟨hinteger, by decide, hdigits⟩, h⟩

theorem newline_notMem_formatDuration (nanos : ℕ) : '\n' ∉ (formatDuration nanos).toList := by
  unfold formatDuration
  dsimp only
  split_ifs <;> exact newline_notMem_formatDecimal _ _ _ (by decide)

theorem newline_notMem_shownCompleted (elapsed : ℕ) (contentLength : Option ℕ) :
    '\n' ∉ (shownCompleted elapsed contentLength).toList := by
  have hduration := newline_notMem_formatDuration elapsed
  unfold shownCompleted
  cases contentLength with
  | none =>
      simp only [String.toList_append, List.mem_append, not_or]
      exact ⟨⟨by decide, hduration⟩, by decide⟩
  | some len =>
      simp only [String.toList_append, List.mem_append, not_or]
      exact ⟨⟨by decide, hduration⟩, ⟨by decide, (token_toString len).2⟩, by decide⟩

/-- What is left of a line has no line end, if there is none before its last character. -/
theorem newline_notMem_stripLineEnding {line : List Char} (h : '\n' ∉ line) :
    '\n' ∉ stripLineEnding line ∧ '\n' ∉ stripLineEnding (line ++ ['\n']) := by
  have hreverse : '\n' ∉ line.reverse := fun hmem => h (List.mem_reverse.mp hmem)
  constructor
  · unfold stripLineEnding
    split
    · rename_i rest hline
      exact absurd (hline ▸ List.mem_cons_self) hreverse
    · rename_i rest _ hline
      exact absurd (hline ▸ List.mem_cons_self) hreverse
    · exact h
  · unfold stripLineEnding
    rw [List.reverse_append, List.reverse_singleton, List.singleton_append]
    split
    · rename_i rest hline
      rw [(List.cons.inj hline).2] at hreverse
      exact fun hmem => hreverse (List.mem_cons_of_mem _ (List.mem_reverse.mp hmem))
    · rename_i rest _ hline
      rw [(List.cons.inj hline).2] at hreverse
      exact fun hmem => hreverse (List.mem_reverse.mp hmem)
    · rename_i hne
      exact absurd rfl (hne _)

theorem newline_notMem_splitLines {line : List Char} (h : '\n' ∉ line) (text : List Char) :
    ∀ l ∈ splitLines line text, '\n' ∉ stripLineEnding l := by
  have hreverse : ∀ {line : List Char}, '\n' ∉ line → '\n' ∉ line.reverse := fun h hmem =>
    h (List.mem_reverse.mp hmem)
  induction text generalizing line with
  | nil =>
      intro l hl
      cases line with
      | nil => cases hl
      | cons c line =>
          obtain rfl := List.mem_singleton.mp hl
          exact (newline_notMem_stripLineEnding (hreverse h)).1
  | cons c text ih =>
      intro l hl
      rw [splitLines] at hl
      split at hl
      · rename_i hc
        rcases List.mem_cons.mp hl with rfl | hl
        · rw [List.reverse_cons, hc]
          exact (newline_notMem_stripLineEnding (hreverse h)).2
        · exact ih List.not_mem_nil l hl
      · rename_i hc
        refine ih (fun hmem => ?_) l hl
        rcases List.mem_cons.mp hmem with heq | hmem
        · exact hc heq.symm
        · exact h hmem

/-- The lines of a text have no line end. -/
theorem newline_notMem_lines (text : String) : ∀ line ∈ lines text, '\n' ∉ line.toList := by
  intro line hline
  obtain ⟨l, hl, rfl⟩ := List.mem_map.mp hline
  rw [String.toList_ofList]
  exact newline_notMem_splitLines List.not_mem_nil _ l hl

section Clean

variable {T : TextCrate} {canonicalReason : ℕ → Option String} {L : TrafficLogger}

/-- The names of the lines are on one line and without a colon, as header names are. -/
def NamesPrintable (headers : HeaderMap) : Prop :=
  ∀ line ∈ headers, ':' ∉ line.1.toList ∧ '\n' ∉ line.1.toList

/-- What is printed as it stands is as the `http` crate makes it: methods, URIs and header names.
Of values and bodies nothing is said. -/
def LogEvent.Printable : LogEvent T → Prop
  | .call req => Token req.method ∧ Token (T.uriText req.uri) ∧ NamesPrintable req.headers
  | .returns _ (.ok reply) _ => NamesPrintable reply.response.headers
  | .returns _ (.error _) _ => True

theorem newline_notMem_toStr (hT : T.toHttpCrate.LawfulText) (value : List UInt8) :
    '\n' ∉ ((T.toStr value).getD "<binary>").toList := by
  rw [hT.toStr]
  split
  · rename_i hvisible
    rw [Option.getD_some, byteText, String.toList_ofList]
    intro hmem
    obtain ⟨b, hb, heq⟩ := List.mem_map.mp hmem
    have hb' := List.all_eq_true.mp hvisible b hb
    have htoNat := congrArg Char.toNat heq
    rw [toNat_charOfNat] at htoNat
    have hten : b.toNat = 10 := htoNat
    simp [isVisibleAscii, hten] at hb'
  · decide

theorem headersClean_shownHeaders (hT : T.toHttpCrate.LawfulText) {headers : HeaderMap}
    (h : NamesPrintable headers) (R : Redactor) : HeadersClean (shownHeaders T headers R) := by
  intro header hheader
  obtain ⟨name, hname, hmem⟩ := List.mem_flatMap.mp hheader
  obtain ⟨value, -, rfl⟩ := List.mem_map.mp hmem
  obtain ⟨line, hline, rfl⟩ := List.mem_map.mp (List.mem_eraseDups.mp hname)
  refine ⟨h line hline, ?_⟩
  dsimp only
  split
  · decide
  · exact newline_notMem_toStr hT value

theorem newline_notMem_shownBody (bytes : List UInt8) :
    '\n' ∉ (shownBody bytes).1.toList ∧ ∀ line ∈ (shownBody bytes).2, '\n' ∉ line.toList := by
  unfold shownBody
  constructor
  · simp only [String.toList_append, List.mem_append, not_or]
    exact ⟨⟨by decide, (token_toString _).2⟩, by decide⟩
  · dsimp only
    split
    · exact fun _ hline => nomatch hline
    · split
      · exact newline_notMem_lines _
      · intro line hline
        obtain rfl := List.mem_singleton.mp hline
        decide

/-- The block of a response is clean. -/
theorem clean_responseRecord (hT : T.toHttpCrate.LawfulText)
    (hreason : ∀ status reason, canonicalReason status = some reason → '\n' ∉ reason.toList)
    {reply : Reply} (h : NamesPrintable reply.response.headers) {elapsed : ℕ} {r : Record}
    (hr : responseRecord T canonicalReason L (.ok reply) elapsed = some r) : r.Clean := by
  have hheaders := headersClean_shownHeaders hT h L.redactor
  have hphrase : '\n' ∉ ((canonicalReason reply.response.status).getD "").toList := by
    cases hstatus : canonicalReason reply.response.status with
    | none => decide
    | some reason => exact hreason _ _ hstatus
  unfold responseRecord at hr
  dsimp only at hr
  split at hr
  · split at hr
    · cases hr
    · rename_i bytes _
      obtain rfl := Option.some.inj hr
      refine ⟨token_formatVersion _, token_toString _, hphrase, hheaders, ?_,
        newline_notMem_shownCompleted _ _⟩
      intro size lines heq
      obtain ⟨rfl, rfl⟩ := Prod.mk.inj (Option.some.inj heq)
      exact newline_notMem_shownBody bytes
  · obtain rfl := Option.some.inj hr
    exact ⟨token_formatVersion _, token_toString _, hphrase, hheaders,
      fun _ _ heq => (nomatch heq), newline_notMem_shownCompleted _ _⟩

theorem clean_records (hT : T.toHttpCrate.LawfulText)
    (hreason : ∀ status reason, canonicalReason status = some reason → '\n' ∉ reason.toList)
    {events : List (LogEvent T)} (h : ∀ e ∈ events, e.Printable) (w : Writer) :
    ∀ r ∈ w.records T canonicalReason L events, r.Clean := by
  induction events generalizing w with
  | nil => exact fun r hr => nomatch hr
  | cons e events ih =>
      obtain ⟨he, hevents⟩ := List.forall_mem_cons.mp h
      intro r hr
      rcases List.mem_append.mp hr with hr | hr
      · rw [Option.mem_toList] at hr
        cases e with
        | call req =>
            obtain rfl := Option.some.inj hr
            obtain ⟨hmethod, huri, hnames⟩ := he
            exact ⟨hmethod, huri, (token_formatVersion _).2,
              headersClean_shownHeaders hT hnames L.redactor⟩
        | returns i result elapsed =>
            dsimp only [Writer.record] at hr
            split at hr
            · cases result with
              | error err => cases hr
              | ok reply => exact clean_responseRecord hT hreason he hr
            · cases hr
      · exact ih hevents _ r hr

/-- **The log is read back.**  Of any calls that share a writer, with their blocks in any order
and with any header values and bodies, the log has the blocks that were written, one after the
other and each with its own lines. -/
theorem log_readBack (hT : T.toHttpCrate.LawfulText)
    (hreason : ∀ status reason, canonicalReason status = some reason → '\n' ∉ reason.toList)
    (L : TrafficLogger) {events : List (LogEvent T)} (h : ∀ e ∈ events, e.Printable) :
    readLog (run (Writer.step canonicalReason L) .new events).log =
      some (Writer.new.records T canonicalReason L events) := by
  rw [log_eq_records]
  exact readLog_writeLines (clean_records hT hreason h .new)

/-- A server that answers with a body that looks like the log of another request. -/
def forging : Reply :=
  ⟨"HTTP/1.1", ⟨200, [("x-note", utf8 "a: b")],
    fullBody (utf8 "\n> GET /forged HTTP/1.1\n>\n<\n")⟩⟩

/-- Two calls at once, with their blocks one inside the other. -/
def twoCalls : List (LogEvent TextCrate.ascii) :=
  [.call ⟨"GET", "/first", "HTTP/1.1", [("cookie", utf8 "secret")], none, [], emptyBody⟩,
    .call ⟨"GET", "/second", "HTTP/1.1", [], none, [], emptyBody⟩,
    .returns 1 (.ok forging) 2500000, .returns 0 (.error "reset") 0]

end Clean

theorem printable_twoCalls : ∀ e ∈ twoCalls, e.Printable := by
  intro e he
  simp only [twoCalls, List.mem_cons, List.not_mem_nil, or_false] at he
  rcases he with rfl | rfl | rfl | rfl
  · refine ⟨by unfold Token; decide, by unfold Token; decide, ?_⟩
    unfold NamesPrintable
    decide
  · refine ⟨by unfold Token; decide, by unfold Token; decide, ?_⟩
    exact fun _ hline => nomatch hline
  · unfold LogEvent.Printable NamesPrintable forging
    decide
  · trivial

/-- The hypotheses of `log_readBack` are met by two calls, one of which is answered with a body
that looks like a log.  It is the body of its block. -/
theorem log_readBack_twoCalls :
    readLog (run (Writer.step (fun _ => some "OK") ⟨true, true, ["cookie"]⟩) .new twoCalls).log =
      some [.request "GET" "/first" "HTTP/1.1" [("cookie", "<redacted>")],
        .request "GET" "/second" "HTTP/1.1" [],
        .response "HTTP/1.1" "200" "OK" [("x-note", "a: b")]
          (some ("[body: 28 bytes]", ["", "> GET /forged HTTP/1.1", ">", "<"]))
          "Completed in 2.5ms"] :=
  (log_readBack ⟨HttpCrate.ascii_lawfulText.toStr, HttpCrate.ascii_lawfulText.headerName⟩
    (fun _ _ heq => Option.some.inj heq ▸ by decide) ⟨true, true, ["cookie"]⟩
    printable_twoCalls).trans (by decide +kernel)

end TrafficLog
end Noxy
