/-
# The replacement text of a regex

`regex::Regex::replace`, which `RewriteRule::rewrite` calls in `src/middleware/url_rewrite.rs`: the
first match is replaced, and the text in its place is expanded.

In the replacement text `$name` and `${name}` stand for a group of the match, by its name or its
number, where a name without braces is as long as it can be; `$$` is a dollar sign, and a dollar
sign that begins neither stays.  So the text is a sequence of characters and of groups (`pieces`).
A group that is not there, or took no part in the match, is empty.

What a regex matches is a parameter, `Regex.captures`, and `Regex.Within` is what is assumed of it.
-/

import Noxy.Http.Uri

namespace Noxy
namespace UrlRewrite

open Http

/-- A piece of a replacement text. -/
inductive Piece where
  | char (c : Char)
  | group (name : String)
  deriving DecidableEq, Repr

/-- The characters of a name without braces. -/
def isCapLetter (c : Char) : Bool :=
  ('0' ≤ c && c ≤ '9') || ('a' ≤ c && c ≤ 'z') || ('A' ≤ c && c ≤ 'Z') || c == '_'

/-- What a dollar sign begins, and how many of the characters after it belong to it. -/
def capRef : List Char → Option (Piece × ℕ)
  | '$' :: _ => some (.char '$', 1)
  | '\x7b' :: rest =>
      let name := rest.takeWhile (· != '\x7d')
      if name.length < rest.length then some (.group (String.ofList name), name.length + 2)
      else none
  | cs =>
      let name := cs.takeWhile isCapLetter
      if name = [] then none else some (.group (String.ofList name), name.length)

/-- The pieces after a number of characters. -/
def piecesFrom : ℕ → List Char → List Piece
  | _, [] => []
  | k + 1, _ :: cs => piecesFrom k cs
  | 0, c :: cs =>
      if c = '$' then
        match capRef cs with
        | some (piece, k) => piece :: piecesFrom k cs
        | none => .char '$' :: piecesFrom 0 cs
      else .char c :: piecesFrom 0 cs

/-- The pieces of a replacement text. -/
def pieces (replacement : String) : List Piece := piecesFrom 0 replacement.toList

example : pieces "/$1$$/$\x7ba\x7d$" =
    [.char '/', .group "1", .char '$', .char '/', .group "a", .char '$'] := by
  decide

/-- `regex::Captures`: what is before and after the match, and its groups. -/
structure Match where
  before : String
  after : String
  group : String → Option String

namespace Match

variable (m : Match)

/-- What a piece stands for. -/
def fill : Piece → List Char
  | .char c => [c]
  | .group name => ((m.group name).getD "").toList

/-- What some pieces stand for. -/
def fillAll (ps : List Piece) : List Char := ps.flatMap m.fill

/-- `Captures::expand`. -/
def expand (replacement : String) : String := String.ofList (m.fillAll (pieces replacement))

theorem fillAll_append (ps qs : List Piece) : m.fillAll (ps ++ qs) = m.fillAll ps ++ m.fillAll qs :=
  List.flatMap_append

/-- The characters of a text are those of its pieces and of the groups in it. -/
theorem mem_fillAll_iff {ps : List Piece} {c : Char} :
    c ∈ m.fillAll ps ↔
      .char c ∈ ps ∨ ∃ name v, .group name ∈ ps ∧ m.group name = some v ∧ c ∈ v.toList := by
  rw [fillAll, List.mem_flatMap]
  constructor
  · rintro ⟨p, hp, hc⟩
    cases p with
    | char d =>
        obtain rfl := List.mem_singleton.mp hc
        exact .inl hp
    | group name =>
        rw [fill] at hc
        cases hv : m.group name with
        | none =>
            rw [hv] at hc
            exact absurd hc List.not_mem_nil
        | some v =>
            rw [hv] at hc
            exact .inr ⟨name, v, hp, hv, hc⟩
  · rintro (hp | ⟨name, v, hp, hv, hc⟩)
    · exact ⟨_, hp, List.mem_singleton_self c⟩
    · refine ⟨_, hp, ?_⟩
      rw [fill, hv]
      exact hc

end Match

/-- `regex::Regex`. -/
structure Regex where
  captures : String → Option Match

namespace Regex

variable (re : Regex)

/-- `Regex::is_match`. -/
def isMatch (path : String) : Bool := (re.captures path).isSome

/-- `Regex::replace`. -/
def replace (path replacement : String) : String :=
  match re.captures path with
  | some m => m.before ++ m.expand replacement ++ m.after
  | none => path

/-- What is assumed of a match: its parts are parts of the path. -/
def Within : Prop :=
  ∀ path m, re.captures path = some m →
    m.before.toList <:+: path.toList ∧ m.after.toList <:+: path.toList ∧
      ∀ name v, m.group name = some v → v.toList <:+: path.toList

end Regex

/-! ### Where the pieces end up -/

/-- A sign that ends the path, as a piece. -/
def Piece.isMark : Piece → Bool
  | .char c => Http.isMark c
  | .group _ => false

/-- The pieces before the first sign, and the rest. -/
def frontPieces (ps : List Piece) : List Piece := ps.takeWhile fun p => !p.isMark

def backPieces (ps : List Piece) : List Piece := ps.dropWhile fun p => !p.isMark

/-- The pieces before a hash. -/
def withoutHash (ps : List Piece) : List Piece := ps.takeWhile (· != .char '#')

theorem frontPieces_append_backPieces (ps : List Piece) : frontPieces ps ++ backPieces ps = ps :=
  List.takeWhile_append_dropWhile

/-- The rest begins with a sign, if there is one. -/
theorem backPieces_cases (ps : List Piece) :
    backPieces ps = [] ∨ ∃ c own, Http.isMark c = true ∧ backPieces ps = .char c :: own := by
  cases hback : backPieces ps with
  | nil => exact .inl rfl
  | cons p own =>
      have hne : ps.dropWhile (fun p => !p.isMark) ≠ [] := by
        rw [← backPieces, hback]
        exact List.cons_ne_nil _ _
      have hhead := List.head_dropWhile_not (p := fun p : Piece => !p.isMark) (l := ps) hne
      have hp : (ps.dropWhile fun p => !p.isMark).head hne = p := by
        simp only [← backPieces.eq_1, hback, List.head_cons]
      rw [hp] at hhead
      cases p with
      | char c => exact .inr ⟨c, own, by simpa [Piece.isMark] using hhead, rfl⟩
      | group name => simp [Piece.isMark] at hhead

theorem withoutHash_eq_or (ps : List Piece) :
    (.char '#' ∉ ps ∧ withoutHash ps = ps) ∨
      ∃ rest, .char '#' ∈ ps ∧ ps = withoutHash ps ++ .char '#' :: rest := by
  by_cases h : .char '#' ∈ ps
  · obtain ⟨start, rest, rfl, hstart⟩ := List.eq_append_cons_of_mem h
    refine .inr ⟨rest, h, ?_⟩
    have hpos : ∀ p ∈ start, (p != .char '#') = true := fun p hp =>
      bne_iff_ne.mpr fun heq => hstart (heq ▸ hp)
    have hkeep : withoutHash (start ++ .char '#' :: rest) = start := by
      rw [withoutHash, List.takeWhile_append_of_pos hpos, List.takeWhile_cons_of_neg (by simp),
        List.append_nil]
    rw [hkeep]
  · refine .inl ⟨h, ?_⟩
    rw [withoutHash, List.takeWhile_eq_self_iff]
    exact fun p hp => bne_iff_ne.mpr fun heq => h (heq ▸ hp)

/-- The parts of a match have no sign. -/
structure Match.Unmarked (m : Match) : Prop where
  before : ∀ c ∈ m.before.toList, Http.isMark c = false
  after : ∀ c ∈ m.after.toList, Http.isMark c = false
  group : ∀ name v, m.group name = some v → ∀ c ∈ v.toList, Http.isMark c = false

namespace Match

variable {m : Match} (hm : m.Unmarked)
include hm

theorem unmarked_fill_front (ps : List Piece) :
    ∀ c ∈ m.fillAll (frontPieces ps), Http.isMark c = false := by
  intro c hc
  rcases m.mem_fillAll_iff.mp hc with hp | ⟨name, v, -, hv, hc⟩
  · simpa [Piece.isMark] using List.mem_takeWhile_imp hp
  · exact hm.group name v hv c hc

/-- **A text without a sign of its own** is a path. -/
theorem parts_of_backPieces_nil {replacement : String} (h : backPieces (pieces replacement) = []) :
    ∀ c ∈ (m.before ++ m.expand replacement ++ m.after).toList, Http.isMark c = false := by
  have hall : frontPieces (pieces replacement) = pieces replacement := by
    have hsplit := frontPieces_append_backPieces (pieces replacement)
    rwa [h, List.append_nil] at hsplit
  intro c hc
  rw [String.toList_append, String.toList_append, expand, String.toList_ofList, List.append_assoc,
    List.mem_append, List.mem_append] at hc
  rcases hc with hc | hc | hc
  · exact hm.before c hc
  · rw [← hall] at hc
    exact unmarked_fill_front hm _ c hc
  · exact hm.after c hc

/-- **A sign of the text** ends the path where it stands. -/
theorem split_of_backPieces {replacement : String} {c : Char} {own : List Piece}
    (hc : Http.isMark c = true) (h : backPieces (pieces replacement) = .char c :: own) :
    front (m.before ++ m.expand replacement ++ m.after).toList =
        m.before.toList ++ m.fillAll (frontPieces (pieces replacement)) ∧
      back (m.before ++ m.expand replacement ++ m.after).toList =
        c :: (m.fillAll own ++ m.after.toList) := by
  have hpath : ∀ d ∈ m.before.toList ++ m.fillAll (frontPieces (pieces replacement)),
      Http.isMark d = false := fun d hd => (List.mem_append.mp hd).elim (hm.before d)
    (unmarked_fill_front hm _ d)
  have htext : (m.before ++ m.expand replacement ++ m.after).toList =
      (m.before.toList ++ m.fillAll (frontPieces (pieces replacement))) ++
        c :: (m.fillAll own ++ m.after.toList) := by
    rw [String.toList_append, String.toList_append, expand, String.toList_ofList]
    nth_rw 1 [← frontPieces_append_backPieces (pieces replacement)]
    rw [h, fillAll_append, List.append_assoc, List.append_assoc, List.append_assoc]
    rfl
  rw [htext, front_append hpath, back_append hpath, front_mark hc, back_mark hc, List.append_nil]
  exact ⟨rfl, rfl⟩

/-- What is left of the text behind a question mark, before a hash. -/
theorem withoutFragment_fill (own : List Piece) :
    withoutFragment (m.fillAll own ++ m.after.toList) =
      m.fillAll (withoutHash own) ++ if .char '#' ∈ own then [] else m.after.toList := by
  have hhash : ∀ ps : List Piece, .char '#' ∉ ps → '#' ∉ m.fillAll ps := by
    intro ps hps hc
    rcases m.mem_fillAll_iff.mp hc with hp | ⟨name, v, -, hv, hc⟩
    · exact hps hp
    · exact absurd (hm.group name v hv _ hc) (by decide)
  rcases withoutHash_eq_or own with ⟨hnot, hown⟩ | ⟨rest, hmem, hown⟩
  · have hafter : '#' ∉ m.after.toList := fun hc => absurd (hm.after _ hc) (by decide)
    rw [if_neg hnot, hown, withoutFragment_append (hhash own hnot),
      withoutFragment_eq_self hafter]
  · have hstart : .char '#' ∉ withoutHash own := fun hp => by
      simpa using List.mem_takeWhile_imp hp
    rw [if_pos hmem, List.append_nil]
    nth_rw 1 [hown]
    rw [fillAll_append, List.append_assoc, withoutFragment_append (hhash _ hstart)]
    exact List.append_nil _

end Match

end UrlRewrite
end Noxy
