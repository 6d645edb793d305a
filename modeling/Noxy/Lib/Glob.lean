/-
# Globs

The globs of the `globset` crate with `literal_separator`, as its parser reads them and as the
regular expressions it makes of them match: over bytes, anchored at both ends, with a dot that
matches every byte.

A glob is a list of tokens.  `**` is recursive if it is a component of its own, and then takes
the separator before it or after it with it.  A group in braces is a token that holds its
branches; `Parser` keeps, for every group that is open, what came before it and the branches
that are complete.
-/

import Noxy.Lib.Pattern
import Noxy.Lib.Utf8

namespace Noxy
namespace Lib
namespace Glob

/-- `ErrorKind`. -/
inductive Error where
  | unclosedClass
  | invalidRange (lo hi : Char)
  | unopenedAlternates
  | unclosedAlternates
  | danglingEscape
  deriving DecidableEq, Repr

/-- `Token`. -/
inductive Token where
  | literal (c : Char)
  | any
  | zeroOrMore
  | recursivePrefix
  | recursiveSuffix
  | recursiveZeroOrMore
  | charClass (negated : Bool) (ranges : List (Char × Char))
  | alternates (branches : List (List Token))

/-! ### Matching -/

/-- The separator. -/
abbrev slash : UInt8 := 47

/-- A range of a class, as a set of bytes: the characters are written out as bytes, and the
hyphen stands between the last byte of the first and the first byte of the second. -/
def inRange (r : Char × Char) (b : UInt8) : Bool :=
  if r.1 = r.2 then (charBytes r.1).contains b
  else (charBytes r.1).dropLast.contains b || (charBytes r.2).tail.contains b ||
    ((charBytes r.1).getLast?.any (· ≤ b) && (charBytes r.2).head?.any (b ≤ ·))

/-- The patterns one after the other. -/
def sequence : List (Pattern UInt8) → Pattern UInt8
  | [] => .empty
  | e :: es => .seq e (sequence es)

/-- One of the patterns. -/
def choice : Pattern UInt8 → List (Pattern UInt8) → Pattern UInt8
  | e, [] => e
  | e, e' :: es => .alt e (choice e' es)

def separator : Pattern UInt8 := .one (· == slash)

def anything : Pattern UInt8 := .many fun _ => true

mutual

/-- `tokens_to_regex`, for a token; `none` if nothing is written. -/
def Token.pattern : Token → Option (Pattern UInt8)
  | .literal c => some (sequence ((charBytes c).map fun b => .one (· == b)))
  | .any => some (.one (· != slash))
  | .zeroOrMore => some (.many (· != slash))
  | .recursivePrefix => some (.alt (.alt separator .empty) (.seq anything separator))
  | .recursiveSuffix => some (.seq separator anything)
  | .recursiveZeroOrMore => some (.alt separator (.seq separator (.seq anything separator)))
  | .charClass negated ranges => some (.one fun b => (ranges.any fun r => inRange r b) != negated)
  | .alternates branches =>
      match parts branches with
      | [] => none
      | e :: es => some (choice e es)

/-- `tokens_to_regex`. -/
def pattern : List Token → Option (Pattern UInt8)
  | [] => none
  | t :: ts =>
      match t.pattern, pattern ts with
      | some e, some e' => some (.seq e e')
      | some e, none => some e
      | none, e => e

/-- The branches of a group that are not empty. -/
def parts : List (List Token) → List (Pattern UInt8)
  | [] => []
  | ts :: branches =>
      match pattern ts with
      | some e => e :: parts branches
      | none => parts branches

end

/-- `to_regex_with`: the glob `**` matches everything. -/
def toPattern : List Token → Pattern UInt8
  | [.recursivePrefix] => anything
  | tokens => (pattern tokens).getD .empty

/-! ### Parsing -/

/-- The state of `parse_class`; the last range comes first. -/
structure ClassState where
  negated : Bool
  first : Bool
  inRange : Bool
  ranges : List (Char × Char)
  deriving DecidableEq, Repr

/-- `add_to_last_range`. -/
def addToLastRange (ranges : List (Char × Char)) (add : Char) :
    Except Error (List (Char × Char)) :=
  match ranges with
  | [] => .ok []
  | (lo, _) :: ranges =>
      if add < lo then .error (.invalidRange lo add) else .ok ((lo, add) :: ranges)

namespace ClassState

/-- The loop of `parse_class`: the state after a character, or `none` at the end of the
class. -/
def next (s : ClassState) (c : Char) : Except Error (Option ClassState) :=
  if c = ']' ∧ s.first = false then .ok none
  else if c = '-' ∧ s.first = false ∧ s.inRange = false then
    .ok (some { s with inRange := true, first := false })
  else if s.inRange then
    (addToLastRange s.ranges c).map fun ranges =>
      some { s with ranges := ranges, inRange := false, first := false }
  else .ok (some { s with ranges := (c, c) :: s.ranges, inRange := false, first := false })

/-- The token of a class, with a hyphen that is left over. -/
def token (s : ClassState) : Token :=
  .charClass s.negated (if s.inRange then ('-', '-') :: s.ranges else s.ranges)

end ClassState

/-- The loop of `parse_class`. -/
def parseClass : ClassState → List Char → Except Error (Token × List Char)
  | _, [] => .error .unclosedClass
  | s, c :: cs =>
      match s.next c with
      | .error e => .error e
      | .ok (some s') => parseClass s' cs
      | .ok none => .ok (s.token, cs)

/-- `parse_class`: the token, and what comes after the class. -/
def openClass (cs : List Char) : Except Error (Token × List Char) :=
  if cs.head? = some '!' ∨ cs.head? = some '^' then parseClass ⟨true, true, false, []⟩ cs.tail
  else parseClass ⟨false, true, false, []⟩ cs

/-- The parser: the tokens of the branch that is read, and for every open group the tokens
before it and its complete branches. -/
structure Parser where
  tokens : List Token
  outer : List (List Token × List (List Token))

namespace Parser

def start : Parser := ⟨[], []⟩

/-- `push_token`. -/
def push (p : Parser) (t : Token) : Parser := { p with tokens := p.tokens ++ [t] }

/-- A `**` that is no component of its own. -/
def twoStars (p : Parser) : Parser := (p.push .zeroOrMore).push .zeroOrMore

/-- The end of `parse_star`: the last token is replaced, unless it is recursive already. -/
def recur (p : Parser) (isSuffix : Bool) : Parser :=
  match p.tokens.getLast? with
  | some .recursivePrefix => p
  | some .recursiveSuffix => p
  | _ =>
      { p with tokens := p.tokens.dropLast ++
          [if isSuffix then .recursiveSuffix else .recursiveZeroOrMore] }

/-- `parse_star`, after the second star; also, whether the separator after it is taken. -/
def star (p : Parser) (prev peek : Option Char) : Parser × Bool :=
  if p.tokens.isEmpty then
    if peek = none ∨ peek = some '/' then (p.push .recursivePrefix, peek.isSome)
    else (p.twoStars, false)
  else if prev ≠ some '/' ∧ (p.outer.isEmpty ∨ prev ≠ some ',' ∧ prev ≠ some '\x7b') then
    (p.twoStars, false)
  else if peek = none ∨ (peek = some ',' ∨ peek = some '\x7d') ∧ p.outer.isEmpty = false then
    (p.recur true, false)
  else if peek = some '/' then (p.recur false, true)
  else (p.twoStars, false)

/-- `push_alternate`. -/
def pushAlternate (p : Parser) : Parser := ⟨[], (p.tokens, []) :: p.outer⟩

/-- `pop_alternate`. -/
def popAlternate (p : Parser) : Except Error Parser :=
  match p.outer with
  | [] => .error .unopenedAlternates
  | (before, branches) :: outer =>
      .ok ⟨before ++ [.alternates (branches ++ [p.tokens])], outer⟩

/-- `parse_comma`. -/
def comma (p : Parser) : Parser :=
  match p.outer with
  | [] => p.push (.literal ',')
  | (before, branches) :: outer => ⟨[], (before, branches ++ [p.tokens]) :: outer⟩

/-- The arms of `parse` that take one character. -/
def single (p : Parser) (c : Char) : Except Error Parser :=
  if c = '?' then .ok (p.push .any)
  else if c = '\x7b' then .ok p.pushAlternate
  else if c = '\x7d' then p.popAlternate
  else if c = ',' then .ok p.comma
  else .ok (p.push (.literal c))

/-- The body of the loop of `parse`: the parser, the last character that it has taken, and the
rest. -/
def step (p : Parser) (prev : Option Char) (c : Char) (cs : List Char) :
    Except Error (Parser × Char × List Char) :=
  if c = '*' then
    match cs with
    | '*' :: cs =>
        let s := p.star prev cs.head?
        if s.2 then .ok (s.1, '/', cs.tail) else .ok (s.1, '*', cs)
    | cs => .ok (p.push .zeroOrMore, c, cs)
  else if c = '[' then (openClass cs).map fun r => (p.push r.1, ']', r.2)
  else if c = '\\' then
    match cs with
    | [] => .error .danglingEscape
    | c :: cs => .ok (p.push (.literal c), c, cs)
  else (p.single c).map fun p => (p, c, cs)

/-- `parse`, with the character before; there are no more turns than characters. -/
def parse : ℕ → Parser → Option Char → List Char → Except Error Parser
  | _, p, _, [] => .ok p
  | 0, p, _, _ :: _ => .ok p
  | turns + 1, p, prev, c :: cs =>
      match p.step prev c cs with
      | .error e => .error e
      | .ok (p, last, rest) => parse turns p (some last) rest

end Parser

/-- `GlobBuilder::build`. -/
def build (glob : List Char) : Except Error (List Token) :=
  match Parser.start.parse glob.length none glob with
  | .error e => .error e
  | .ok p => if p.outer.isEmpty then .ok p.tokens else .error .unclosedAlternates

end Glob
end Lib
end Noxy
